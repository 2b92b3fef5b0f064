import Bright.Keephand.Validity

/-!
# Reordering fund movements

A list of actions that move funds posts a sequence of entries on every
account.  Away from `self` the entries are additions, so their order is
irrelevant.  On the row of `self` a withdrawal by another account is a `set`,
and two orders agree there exactly if they leave the same `ownerResidue`.
-/

namespace Bright.Keephand

open Bright.Lib Bright.Eosio

/-- Whether an action is a withdrawal by another account than `self`. -/
def foreignWithdrawal (self : AccountName) : Action → Bool
  | .modasset name _ false => name ≠ self
  | _ => false

/-- The fee of the last foreign withdrawal together with what the actions after
it add to the row of `self`; `none` without a foreign withdrawal. -/
def ownerResidue (self : AccountName) (txs : List Transaction) : Option ℚ :=
  Entry.fixed (txs.map fun tx => entry self tx.action self)

variable {self account : AccountName} {db after left right : Tables}
  {txs reordered : List Transaction}

theorem entry_self_eq_add_iff (action : Action) :
    (∃ amount, entry self action self = .add amount) ↔
      foreignWithdrawal self action = false := by
  cases action with
  | createacnt name pubkey => simp [entry, foreignWithdrawal]
  | deleteacnt name => simp [entry, foreignWithdrawal]
  | transfer sender receiver funds strremark =>
      simp [entry, foreignWithdrawal]
  | modasset name funds bsaving =>
      cases bsaving with
      | true => simp [entry, foreignWithdrawal]
      | false =>
          by_cases own : name = self
          · simp [entry, foreignWithdrawal, own]
          · simp [entry, foreignWithdrawal, own]

theorem ownerResidue_eq_none_iff :
    ownerResidue self txs = none ↔
      ∀ tx ∈ txs, foreignWithdrawal self tx.action = false := by
  rw [ownerResidue, Entry.fixed_eq_none_iff]
  simp only [List.forall_mem_map, entry_self_eq_add_iff]

/-- The residue is fixed by the last foreign withdrawal. -/
theorem ownerResidue_append {signers : List AccountName} {name : AccountName}
    (foreign : name ≠ self) (earlier : List Transaction) (funds : ℚ)
    {later : List Transaction}
    (last : ∀ tx ∈ later, foreignWithdrawal self tx.action = false) :
    ownerResidue self
        (earlier ++ ⟨signers, .modasset name funds false⟩ :: later) =
      some (funds * feeRate +
        (later.map fun tx => (entry self tx.action self).amount).sum) := by
  have unset := ownerResidue_eq_none_iff.mpr last
  have collected :
      entry self (.modasset name funds false) self = .set (funds * feeRate) := by
    simp [entry, foreign]
  rw [ownerResidue, List.map_append, List.map_cons, collected,
    Entry.fixed_append_set _ _ unset, List.map_map]
  rfl

/-! ### What a list of movements leaves -/

/-- The book after a list of actions that move funds. -/
theorem book_runAll (moves : ∀ tx ∈ txs, tx.action.movesFunds)
    (ran : runAll (apply self) db txs = .ok after) :
    after.book =
      (txs.map fun tx => entry self tx.action).foldl Book.record db.book := by
  induction txs generalizing db with
  | nil =>
      rw [runAll_nil, Except.ok.injEq] at ran
      rw [← ran]
      rfl
  | cons tx rest inductionHypothesis =>
      obtain ⟨next, done, continued⟩ := runAll_cons_eq_ok_iff.mp ran
      have first : next.book = db.book.record (entry self tx.action) := by
        rw [book_apply done, kept_of_movesFunds (moves tx List.mem_cons_self)]
      have others := inductionHypothesis
        (fun later member => moves later (List.mem_cons_of_mem _ member))
        continued
      rw [others, first, List.map_cons, List.foldl_cons]

theorem keys_runAll (moves : ∀ tx ∈ txs, tx.action.movesFunds)
    (ran : runAll (apply self) db txs = .ok after) :
    after.userasset.keys = db.userasset.keys := by
  have recorded := congrArg Book.accounts (book_runAll moves ran)
  rw [Book.accounts_records] at recorded
  exact recorded

/-- The balances after a list of actions that move funds. -/
theorem balance_runAll (moves : ∀ tx ∈ txs, tx.action.movesFunds)
    (ran : runAll (apply self) db txs = .ok after)
    (member : account ∈ db.userasset.keys) :
    after.balance account =
      Entry.settle (txs.map fun tx => entry self tx.action account)
        (db.balance account) := by
  calc
    after.balance account = after.book.balance account := rfl
    _ = ((txs.map fun tx => entry self tx.action).foldl Book.record
          db.book).balance account := by
      rw [book_runAll moves ran]
    _ = Entry.settle
          ((txs.map fun tx => entry self tx.action).map
            fun entries => entries account) (db.balance account) :=
      Book.balance_records _ member
    _ = Entry.settle (txs.map fun tx => entry self tx.action account)
          (db.balance account) := by
      rw [List.map_map]
      rfl

/-- Two asset tables are equal if they hold the same names and funds. -/
theorem userasset_ext_iff (keys : left.userasset.keys = right.userasset.keys) :
    left.userasset = right.userasset ↔
      ∀ account ∈ left.userasset.keys,
        left.balance account = right.balance account := by
  constructor
  · intro same account _
    rw [Tables.balance, same]
    rfl
  · intro balances
    apply Table.ext_find
    intro account
    by_cases member : account ∈ left.userasset.keys
    · have otherMember : account ∈ right.userasset.keys := keys ▸ member
      rw [Tables.exists_find member, Tables.exists_find otherMember,
        balances account member]
    · have otherAbsent : account ∉ right.userasset.keys := keys ▸ member
      rw [Table.notMem_keys.mp member, Table.notMem_keys.mp otherAbsent]

/-- A foreign withdrawal needs the row of `self`. -/
theorem self_mem_of_foreignWithdrawal {tx : Transaction}
    (done : apply self db tx = .ok after)
    (foreign : foreignWithdrawal self tx.action = true) :
    self ∈ db.userasset.keys := by
  cases apply_eq_ok_iff.mp done with
  | withdrew _ _ _ _ _ _ owner => exact owner
  | created => cases foreign
  | deleted => cases foreign
  | saved => cases foreign
  | transferred => cases foreign

/-- Without the row of `self` there is no residue in it. -/
theorem ownerResidue_of_notMem (moves : ∀ tx ∈ txs, tx.action.movesFunds)
    (ran : runAll (apply self) db txs = .ok after)
    (absent : self ∉ db.userasset.keys) : ownerResidue self txs = none := by
  rw [ownerResidue_eq_none_iff]
  induction txs generalizing db with
  | nil =>
      intro tx member
      cases member
  | cons tx rest inductionHypothesis =>
      obtain ⟨next, done, continued⟩ := runAll_cons_eq_ok_iff.mp ran
      have stillAbsent : self ∉ next.userasset.keys := by
        rwa [keys_apply done (moves tx List.mem_cons_self)]
      have others := inductionHypothesis
        (fun later member => moves later (List.mem_cons_of_mem _ member))
        continued stillAbsent
      have notForeign : foreignWithdrawal self tx.action = false := by
        by_contra foreign
        rw [Bool.not_eq_false] at foreign
        exact absent (self_mem_of_foreignWithdrawal done foreign)
      intro later member
      rcases List.mem_cons.mp member with same | inRest
      · rw [same]
        exact notForeign
      · exact others later inRest

/-- On one account, two orders agree exactly if their entries leave the same
fixed part. -/
theorem balance_eq_iff (moves : ∀ tx ∈ txs, tx.action.movesFunds)
    (permutation : txs.Perm reordered)
    (first : runAll (apply self) db txs = .ok left)
    (second : runAll (apply self) db reordered = .ok right)
    (member : account ∈ db.userasset.keys) :
    left.balance account = right.balance account ↔
      Entry.fixed (txs.map fun tx => entry self tx.action account) =
        Entry.fixed (reordered.map fun tx => entry self tx.action account) := by
  have movesToo : ∀ tx ∈ reordered, tx.action.movesFunds := by
    intro tx inReordered
    exact moves tx (permutation.mem_iff.mpr inReordered)
  rw [balance_runAll moves first member,
    balance_runAll movesToo second member]
  exact Entry.settle_eq_settle_iff (permutation.map _) _

/-- Away from `self` the entries are additions. -/
theorem fixed_of_ne_self (other : account ≠ self) :
    Entry.fixed (txs.map fun tx => entry self tx.action account) = none := by
  rw [Entry.fixed_eq_none_iff]
  intro posted member
  obtain ⟨tx, _, rfl⟩ := List.mem_map.mp member
  exact ⟨_, entry_of_ne_self tx.action other⟩

/-! ### Order independence -/

/-- Two successful orders of the same fund movements end in the same asset
table exactly if they leave the same residue in the row of `self`. -/
theorem userasset_eq_iff_ownerResidue {self : AccountName}
    {db left right : Tables} {txs reordered : List Transaction}
    (moves : ∀ tx ∈ txs, tx.action.movesFunds)
    (permutation : txs.Perm reordered)
    (first : runAll (apply self) db txs = .ok left)
    (second : runAll (apply self) db reordered = .ok right) :
    left.userasset = right.userasset ↔
      ownerResidue self txs = ownerResidue self reordered := by
  have movesToo : ∀ tx ∈ reordered, tx.action.movesFunds := by
    intro tx inReordered
    exact moves tx (permutation.mem_iff.mpr inReordered)
  have leftKeys := keys_runAll moves first
  have rightKeys := keys_runAll movesToo second
  rw [userasset_ext_iff (leftKeys.trans rightKeys.symm), leftKeys]
  constructor
  · intro same
    by_cases owner : self ∈ db.userasset.keys
    · exact (balance_eq_iff moves permutation first second owner).mp
        (same self owner)
    · rw [ownerResidue_of_notMem moves first owner,
        ownerResidue_of_notMem movesToo second owner]
  · intro residues account member
    rw [balance_eq_iff moves permutation first second member]
    by_cases owner : account = self
    · rw [owner]
      exact residues
    · rw [fixed_of_ne_self owner, fixed_of_ne_self owner]

/-- A withdrawal and a later saving of account `2` can be exchanged. -/
theorem userasset_eq_savedRun :
    (run (apply 1) (run (apply 1) Tables.empty savedRun)
        [⟨[2], .modasset 2 100 false⟩, ⟨[2], .modasset 2 5 true⟩]).userasset =
      (run (apply 1) (run (apply 1) Tables.empty savedRun)
        [⟨[2], .modasset 2 5 true⟩, ⟨[2], .modasset 2 100 false⟩]).userasset := by
  let db := run (apply 1) Tables.empty savedRun
  let withdrawal : Transaction := ⟨[2], .modasset 2 100 false⟩
  let saving : Transaction := ⟨[2], .modasset 2 5 true⟩
  have withdrawnFirst :
      runAll (apply 1) db [withdrawal, saving] =
        .ok (run (apply 1) db [withdrawal, saving]) := by
    decide +kernel
  have savedFirst :
      runAll (apply 1) db [saving, withdrawal] =
        .ok (run (apply 1) db [saving, withdrawal]) := by
    decide +kernel
  have residues :
      ownerResidue 1 [withdrawal, saving] = ownerResidue 1 [saving, withdrawal] := by
    decide +kernel
  exact (userasset_eq_iff_ownerResidue (by decide)
    (List.Perm.swap _ _ []) withdrawnFirst savedFirst).mpr residues

/-- Two withdrawals of account `2` in both orders: each order ends with the fee
of its last one. -/
theorem userasset_depends_on_order :
    ¬ ∀ (self : AccountName) (db left right : Tables)
      (txs reordered : List Transaction),
      Reachable (apply self) Tables.empty db →
        (∀ tx ∈ txs, tx.action.movesFunds) → txs.Perm reordered →
        runAll (apply self) db txs = .ok left →
        runAll (apply self) db reordered = .ok right →
          left.userasset = right.userasset := by
  intro independent
  let db := run (apply 1) Tables.empty savedRun
  let large : Transaction := ⟨[2], .modasset 2 100 false⟩
  let small : Transaction := ⟨[2], .modasset 2 50 false⟩
  have largeFirst :
      runAll (apply 1) db [large, small] = .ok (run (apply 1) db [large, small]) := by
    decide +kernel
  have smallFirst :
      runAll (apply 1) db [small, large] = .ok (run (apply 1) db [small, large]) := by
    decide +kernel
  have same := independent 1 db _ _ [large, small] [small, large]
    (reachable_run savedRun) (by decide) (List.Perm.swap _ _ [])
    largeFirst smallFirst
  have different :
      (run (apply 1) db [large, small]).userasset ≠
        (run (apply 1) db [small, large]).userasset := by
    decide +kernel
  exact different same

end Bright.Keephand
