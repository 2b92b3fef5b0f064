import Bright.Keephand.Validity
import Mathlib.Algebra.Order.BigOperators.Group.List

/-!
# Conservation of funds

Each step changes the sum of all funds by what it saves, withdraws or deletes,
less its `feeLoss`.  The losses of a run are never negative, so they cannot
cancel: the ledger law of a run holds exactly if none of its withdrawals lost
a fee.  A withdrawal loses nothing only if it is made by another account than
`self` while the row of `self` is zero, so the law breaks as soon as a
withdrawal finds an earlier fee in that row.
-/

namespace Bright.Keephand

open Bright.Lib Bright.Eosio

/-- The amount that an action saves. -/
def saved : Action → ℚ
  | .modasset _ funds true => funds
  | _ => 0

/-- The amount that an action withdraws, without its fee. -/
def withdrawn : Action → ℚ
  | .modasset _ funds false => funds
  | _ => 0

/-- The balance that an action deletes together with its account. -/
def removed (db : Tables) : Action → ℚ
  | .deleteacnt name => db.balance name
  | _ => 0

/-- The ledger law of a run: the funds at its end are what was saved, less
what was withdrawn and what deleted accounts held. -/
def Conserved (self : AccountName) (txs : List Transaction) : Prop :=
  (run (apply self) Tables.empty txs).total =
    ((history self txs).map fun t => saved t.action.action).sum -
      ((history self txs).map fun t => withdrawn t.action.action).sum -
      ((history self txs).map fun t => removed t.before t.action.action).sum

instance (self : AccountName) (txs : List Transaction) :
    Decidable (Conserved self txs) :=
  inferInstanceAs (Decidable (_ = _))

/-- A withdrawal whose fee is added to nothing: it is made by another account
than `self`, and the row of `self` is zero. -/
def FirstFee (self : AccountName) (db : Tables) (action : Action) : Prop :=
  ∀ name funds, action = .modasset name funds false →
    name ≠ self ∧ db.balance self = 0

/-- The fee of a withdrawal is moved to the row of `self`, and only the amount
withdrawn leaves the contract. -/
def FeeMoved (self : AccountName) (db : Tables) (action : Action)
    (after : Tables) : Prop :=
  ∀ name funds, action = .modasset name funds false →
    after.total = db.total - funds ∧
      after.balance self = db.balance self + movement self action self

variable {self : AccountName} {db after : Tables} {tx : Transaction}

/-! ### The total of one step -/

/-- The movements of an action add up to what it saves or withdraws. -/
theorem sum_movement (done : apply self db tx = .ok after) :
    ∑ account ∈ db.userasset.keys, movement self tx.action account =
      saved tx.action - withdrawn tx.action := by
  cases apply_eq_ok_iff.mp done with
  | created => simp [movement, saved, withdrawn]
  | deleted => simp [movement, saved, withdrawn]
  | saved _ _ _ _ funded =>
      simp only [movement, saved, withdrawn, Book.sum_single _ funded, sub_zero]
  | withdrew _ _ _ _ funded _ owner =>
      simp only [movement, Pi.add_apply, Finset.sum_add_distrib,
        Book.sum_single _ funded, Book.sum_single _ owner, saved, withdrawn]
      ring
  | transferred _ _ _ _ _ funded _ receiverFunded _ owner _ =>
      simp only [movement, Pi.add_apply, Finset.sum_add_distrib,
        Book.sum_single _ funded, Book.sum_single _ receiverFunded, Book.sum_single _ owner,
        saved, withdrawn]
      ring

/-- What one action does to the sum of all funds. -/
theorem total_apply (valid : db.Valid) (done : apply self db tx = .ok after) :
    after.total = db.total +
      (saved tx.action - withdrawn tx.action - removed db tx.action -
        feeLoss self db tx.action) := by
  have recorded := congrArg Book.total (book_apply done)
  rw [total_book] at recorded
  by_cases moves : tx.action.movesFunds
  · have losses :
        ∑ account ∈ db.userasset.keys,
          (Pi.single self (feeLoss self db tx.action) : AccountName → ℚ)
            account = feeLoss self db tx.action := by
      by_cases lost : feeLoss self db tx.action = 0
      · simp [lost]
      · exact Book.sum_single _ (self_mem_of_feeLoss done lost)
    have recordedTotal :
        (db.book.record (entry self tx.action)).total =
          db.total + ∑ account ∈ db.userasset.keys,
            (movement self tx.action account -
              (Pi.single self (feeLoss self db tx.action) :
                AccountName → ℚ) account) := by
      rw [← total_book db]
      exact Book.total_record fun account _ => entry_apply tx.action account
    have nothingRemoved : removed db tx.action = 0 := by
      obtain ⟨signers, action⟩ := tx
      cases action with
      | createacnt name pubkey => rfl
      | deleteacnt name => cases moves
      | modasset name funds bsaving => rfl
      | transfer sender receiver funds strremark => rfl
    rw [recorded, kept_of_movesFunds moves, recordedTotal,
      Finset.sum_sub_distrib, losses, sum_movement done, nothingRemoved,
      sub_zero]
  · rw [recorded]
    cases apply_eq_ok_iff.mp done with
    | @created signers name pubkey _ _ _ _ freshAsset =>
        have opened :
            (db.book.openAccount name).total = db.book.total :=
          Book.total_openAccount freshAsset
        simp only [kept, opened, total_book, saved, withdrawn, removed, feeLoss]
        ring
    | @deleted signers name _ _ registered =>
        rw [valid.sameNames] at registered
        have closed :
            (db.book.closeAccount name).total =
              db.book.total - db.book.balance name :=
          Book.total_closeAccount registered
        simp only [kept, closed, total_book, balance_book, saved, withdrawn,
          removed, feeLoss]
        ring
    | saved => exact absurd rfl moves
    | withdrew => exact absurd rfl moves
    | transferred => exact absurd rfl moves

/-! ### Losses -/

theorem feeLoss_nonneg (valid : db.Valid)
    (done : apply self db tx = .ok after) : 0 ≤ feeLoss self db tx.action := by
  cases apply_eq_ok_iff.mp done with
  | withdrew _ fundsPositive =>
      simp only [feeLoss]
      split_ifs
      · exact mul_nonneg fundsPositive.le feeRate_pos.le
      · exact valid.balanceNonneg self
  | created => exact le_refl 0
  | deleted => exact le_refl 0
  | saved => exact le_refl 0
  | transferred => exact le_refl 0

theorem feeLoss_eq_zero_iff (done : apply self db tx = .ok after) :
    feeLoss self db tx.action = 0 ↔ FirstFee self db tx.action := by
  cases apply_eq_ok_iff.mp done with
  | @withdrew signers name funds _ fundsPositive =>
      have feePositive : 0 < funds * feeRate :=
        mul_pos fundsPositive feeRate_pos
      have onlyCase :
          FirstFee self db (.modasset name funds false) ↔
            name ≠ self ∧ db.balance self = 0 := by
        constructor
        · intro first
          exact first name funds rfl
        · intro clean other amount same
          cases same
          exact clean
      rw [onlyCase]
      by_cases own : name = self
      · simp [feeLoss, own, feePositive.ne']
      · simp [feeLoss, own]
  | created => simp [feeLoss, FirstFee]
  | deleted => simp [feeLoss, FirstFee]
  | saved => simp [feeLoss, FirstFee]
  | transferred => simp [feeLoss, FirstFee]

private theorem sum_sub {ι : Type*} (l : List ι) (f g : ι → ℚ) :
    (l.map fun x => f x - g x).sum = (l.map f).sum - (l.map g).sum := by
  simpa using Multiset.sum_map_sub (m := (l : Multiset ι)) (f := f) (g := g)

/-- The total at the end of a run misses the ledger law by its losses. -/
private theorem total_run (self : AccountName) (txs : List Transaction) :
    (run (apply self) Tables.empty txs).total +
        ((history self txs).map fun t => feeLoss self t.before t.action.action).sum =
      ((history self txs).map fun t => saved t.action.action).sum -
        ((history self txs).map fun t => withdrawn t.action.action).sum -
        ((history self txs).map fun t =>
          removed t.before t.action.action).sum := by
  have eachStep : ∀ t ∈ history self txs,
      t.after.total = t.before.total +
        (saved t.action.action - withdrawn t.action.action -
          removed t.before t.action.action -
          feeLoss self t.before t.action.action) := by
    intro t member
    exact total_apply (valid_of_mem_history member) (step_of_mem_trace member)
  have nothing : Tables.empty.total = 0 := rfl
  have changes :
      ((history self txs).map fun t =>
        saved t.action.action - withdrawn t.action.action -
          removed t.before t.action.action -
          feeLoss self t.before t.action.action).sum =
      ((history self txs).map fun t => saved t.action.action).sum -
        ((history self txs).map fun t => withdrawn t.action.action).sum -
        ((history self txs).map fun t =>
          removed t.before t.action.action).sum -
        ((history self txs).map fun t =>
          feeLoss self t.before t.action.action).sum := by
    rw [sum_sub, sum_sub, sum_sub]
  rw [measure_run eachStep, nothing, zero_add, changes, sub_add_cancel]

/-- The ledger law holds of a run exactly if none of its steps lost a fee. -/
theorem conserved_iff (txs : List Transaction) :
    Conserved self txs ↔
      ∀ t ∈ history self txs, FirstFee self t.before t.action.action := by
  have losses :
      Conserved self txs ↔
        ((history self txs).map fun t =>
          feeLoss self t.before t.action.action).sum = 0 := by
    have accounted := total_run self txs
    unfold Conserved
    constructor
    · intro law
      linarith
    · intro nothingLost
      linarith
  have nonneg : ∀ loss ∈ (history self txs).map fun t =>
      feeLoss self t.before t.action.action, 0 ≤ loss := by
    intro loss member
    obtain ⟨t, recorded, rfl⟩ := List.mem_map.mp member
    exact feeLoss_nonneg (valid_of_mem_history recorded)
      (step_of_mem_trace recorded)
  rw [losses]
  constructor
  · intro sumZero t recorded
    have lossZero : feeLoss self t.before t.action.action = 0 :=
      List.all_zero_of_le_zero_le_of_sum_eq_zero nonneg sumZero
        (List.mem_map.mpr ⟨t, recorded, rfl⟩)
    exact (feeLoss_eq_zero_iff (step_of_mem_trace recorded)).mp lossZero
  · intro spared
    apply List.sum_eq_zero
    intro loss member
    obtain ⟨t, recorded, rfl⟩ := List.mem_map.mp member
    exact (feeLoss_eq_zero_iff (step_of_mem_trace recorded)).mpr
      (spared t recorded)

/-! ### The fee of one withdrawal -/

theorem total_transfer (valid : db.Valid)
    (done : apply self db tx = .ok after) {sender receiver : AccountName}
    {funds : ℚ} {strremark : StdString}
    (isTransfer : tx.action = .transfer sender receiver funds strremark) :
    after.total = db.total := by
  have moved := total_apply valid done
  rw [isTransfer] at moved
  simpa [saved, withdrawn, removed, feeLoss] using moved

theorem feeMoved_iff (valid : db.Valid)
    (done : apply self db tx = .ok after) :
    FeeMoved self db tx.action after ↔ FirstFee self db tx.action := by
  constructor
  · intro moved name funds isWithdrawal
    have totalKept := (moved name funds isWithdrawal).1
    have totalActual := total_apply valid done
    have noLoss : feeLoss self db tx.action = 0 := by
      rw [totalKept, isWithdrawal] at totalActual
      rw [isWithdrawal]
      simp only [saved, withdrawn, removed] at totalActual
      linarith
    exact (feeLoss_eq_zero_iff done).mp noLoss name funds isWithdrawal
  · intro first name funds isWithdrawal
    have noLoss := (feeLoss_eq_zero_iff done).mpr first
    have moves : tx.action.movesFunds := by
      rw [isWithdrawal]
      rfl
    have owner := self_mem_of_withdrawal done isWithdrawal
    constructor
    · have totalActual := total_apply valid done
      rw [noLoss, isWithdrawal] at totalActual
      rw [totalActual]
      simp only [saved, withdrawn, removed]
      ring
    · rw [balance_apply done moves owner, entry_apply, noLoss,
        Pi.single_zero, Pi.zero_apply, sub_zero]

/-! ### The ledger law -/

/-- A run conserves funds exactly if each of its withdrawals is made by another
account than `self` while the row of `self` is zero.  The same condition
decides, withdrawal by withdrawal, whether the fee reaches the row of `self`.
A transfer never changes the total. -/
theorem funds_conserved_iff (self : AccountName) (txs : List Transaction) :
    (Conserved self txs ↔
      ∀ t ∈ history self txs, FirstFee self t.before t.action.action) ∧
    (∀ t ∈ history self txs,
      (FeeMoved self t.before t.action.action t.after ↔
        FirstFee self t.before t.action.action)) ∧
    ∀ t ∈ history self txs, ∀ sender receiver funds strremark,
      t.action.action = .transfer sender receiver funds strremark →
        t.after.total = t.before.total := by
  refine ⟨conserved_iff txs, ?_, ?_⟩
  · intro t member
    exact feeMoved_iff (valid_of_mem_history member) (step_of_mem_trace member)
  · intro t member sender receiver funds strremark isTransfer
    exact total_transfer (valid_of_mem_history member)
      (step_of_mem_trace member) isTransfer

/-- Account `2` saves 1000 and withdraws 100 and 50.  The second fee replaces
the first one. -/
theorem funds_not_conserved :
    ¬ Conserved 1
      (savedRun ++
        [⟨[2], .modasset 2 100 false⟩, ⟨[2], .modasset 2 50 false⟩]) := by
  decide +kernel

end Bright.Keephand
