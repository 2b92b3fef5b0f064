import Bright.Keephand.Validity

/-!
# The balance of an account as its history

The balance of an account other than `self` is determined by the actions since
it was last created: it is the sum of their postings on that account.  Creating
an account starts from zero whatever an earlier account of that name held, and
an action that does not name the account leaves its balance alone.
-/

namespace Bright.Keephand

open Bright.Lib Bright.Eosio

/-- The accounts an action names. -/
def Action.accounts : Action → List AccountName
  | .createacnt name _ => [name]
  | .deleteacnt name => [name]
  | .modasset name _ _ => [name]
  | .transfer sender receiver _ _ => [sender, receiver]

/-- Whether an action creates `account`. -/
def Action.creates (account : AccountName) : Action → Bool
  | .createacnt name _ => name = account
  | _ => false

/-- What an action adds to the balance of `account`. -/
def posting (account : AccountName) : Action → ℚ
  | .modasset name funds true => if name = account then funds else 0
  | .modasset name funds false =>
      if name = account then -(funds + funds / 100) else 0
  | .transfer sender receiver funds _ =>
      (if receiver = account then funds else 0) +
        if sender = account then -(funds + max (funds / 100) (1 / 100)) else 0
  | _ => 0

variable {self account : AccountName} {db after : Tables} {tx : Transaction}

theorem transferFee_eq_max (funds : ℚ) :
    transferFee funds = max (funds / 100) (1 / 100) := by
  have rate : funds * feeRate = funds / 100 := by
    rw [feeRate, mul_one_div]
  rw [transferFee, rate, feeMin]
  split_ifs with small
  · exact (max_eq_right small.le).symm
  · exact (max_eq_left (not_lt.mp small)).symm

private theorem single_eq_ite (name account : AccountName) (amount : ℚ) :
    (Pi.single name amount : AccountName → ℚ) account =
      if name = account then amount else 0 := by
  rw [Pi.single_apply]
  simp only [eq_comm]

/-- Away from `self` an account moves by its postings. -/
theorem movement_eq_posting (action : Action) (other : account ≠ self) :
    movement self action account = posting account action := by
  have noFee : ∀ fee : ℚ,
      (Pi.single self fee : AccountName → ℚ) account = 0 :=
    fun _ => Pi.single_eq_of_ne other _
  cases action with
  | createacnt name pubkey => rfl
  | deleteacnt name => rfl
  | modasset name funds bsaving =>
      cases bsaving with
      | true => exact single_eq_ite name account funds
      | false =>
          have rate : funds * feeRate = funds / 100 := by
            rw [feeRate, mul_one_div]
          rw [movement, Pi.add_apply, noFee, add_zero, single_eq_ite, rate]
          rfl
  | transfer sender receiver funds strremark =>
      rw [movement, Pi.add_apply, Pi.add_apply, noFee, add_zero,
        single_eq_ite, single_eq_ite, transferFee_eq_max, add_comm]
      rfl

theorem posting_of_notMem {action : Action}
    (unnamed : account ∉ action.accounts) : posting account action = 0 := by
  cases action with
  | createacnt name pubkey => rfl
  | deleteacnt name => rfl
  | modasset name funds bsaving =>
      have different : name ≠ account := by
        intro same
        exact unnamed (List.mem_singleton.mpr same.symm)
      cases bsaving with
      | true => exact if_neg different
      | false => exact if_neg different
  | transfer sender receiver funds strremark =>
      have notSender : sender ≠ account := by
        intro same
        exact unnamed (same ▸ List.mem_cons_self)
      have notReceiver : receiver ≠ account := by
        intro same
        exact unnamed (List.mem_cons_of_mem _ (List.mem_singleton.mpr same.symm))
      rw [posting, if_neg notReceiver, if_neg notSender, add_zero]

/-- An open account that was not just created has moved by its posting. -/
theorem balance_step (done : apply self db tx = .ok after)
    (other : account ≠ self) (uncreated : tx.action.creates account = false)
    (member : account ∈ after.userasset.keys) :
    account ∈ db.userasset.keys ∧
      after.balance account = db.balance account + posting account tx.action := by
  have recorded := book_apply done
  have moved : tx.action.movesFunds →
      account ∈ db.userasset.keys ∧
        after.balance account =
          db.balance account + posting account tx.action := by
    intro moves
    rw [keys_apply done moves] at member
    refine ⟨member, ?_⟩
    rw [balance_apply done moves member, entry_of_ne_self tx.action other,
      movement_eq_posting tx.action other]
    rfl
  obtain ⟨signers, action⟩ := tx
  cases action with
  | modasset name funds bsaving => exact moved rfl
  | transfer sender receiver funds strremark => exact moved rfl
  | createacnt name pubkey =>
      have keys : after.userasset.keys = insert name db.userasset.keys :=
        congrArg Book.accounts recorded
      have different : account ≠ name := by
        intro same
        simp [Action.creates, same] at uncreated
      rw [keys] at member
      refine ⟨Finset.mem_of_mem_insert_of_ne member different, ?_⟩
      rw [balance_createacnt done, Function.update_of_ne different]
      exact (add_zero _).symm
  | deleteacnt name =>
      have keys : after.userasset.keys = db.userasset.keys.erase name :=
        congrArg Book.accounts recorded
      rw [keys] at member
      have different : account ≠ name := Finset.ne_of_mem_erase member
      refine ⟨Finset.mem_of_mem_erase member, ?_⟩
      rw [balance_deleteacnt done, Function.update_of_ne different]
      exact (add_zero _).symm

/-- A new account starts at zero. -/
theorem balance_of_creates (done : apply self db tx = .ok after)
    (created : tx.action.creates account = true) :
    after.balance account = 0 := by
  obtain ⟨signers, action⟩ := tx
  cases action with
  | createacnt name pubkey =>
      have same : name = account := of_decide_eq_true created
      rw [balance_createacnt done, same, Function.update_self]
  | deleteacnt name => cases created
  | modasset name funds bsaving => cases created
  | transfer sender receiver funds strremark => cases created

/-- An action that does not name an account leaves its balance alone. -/
theorem balance_of_notMem_accounts (done : apply self db tx = .ok after)
    (other : account ≠ self) (unnamed : account ∉ tx.action.accounts) :
    after.balance account = db.balance account := by
  have moved : tx.action.movesFunds →
      after.balance account = db.balance account := by
    intro moves
    by_cases member : account ∈ db.userasset.keys
    · rw [balance_apply done moves member, entry_of_ne_self tx.action other,
        movement_eq_posting tx.action other, posting_of_notMem unnamed]
      exact add_zero _
    · rw [Tables.balance_of_notMem member]
      apply Tables.balance_of_notMem
      rw [keys_apply done moves]
      exact member
  obtain ⟨signers, action⟩ := tx
  cases action with
  | modasset name funds bsaving => exact moved rfl
  | transfer sender receiver funds strremark => exact moved rfl
  | createacnt name pubkey =>
      have different : account ≠ name := by
        intro same
        exact unnamed (List.mem_singleton.mpr same)
      rw [balance_createacnt done, Function.update_of_ne different]
  | deleteacnt name =>
      have different : account ≠ name := by
        intro same
        exact unnamed (List.mem_singleton.mpr same)
      rw [balance_deleteacnt done, Function.update_of_ne different]

/-- The past splits at the latest creation of `account`, and the postings since
then make up its balance. -/
def ComesFrom (account : AccountName) (past : List Transaction)
    (db : Tables) : Prop :=
  SinceLast (fun tx => tx.action.creates account)
    (fun tx => tx.action.creates account)
    (fun later => db.balance account =
      (later.map fun tx => posting account tx.action).sum) past

theorem comesFrom_step {past : List Transaction}
    (done : apply self db tx = .ok after) (other : account ≠ self)
    (holds : account ∈ db.userasset.keys → ComesFrom account past db)
    (member : account ∈ after.userasset.keys) :
    ComesFrom account (past ++ [tx]) after := by
  cases creates : tx.action.creates account with
  | true => exact SinceLast.of_starts creates (balance_of_creates done creates)
  | false =>
      obtain ⟨before, posted⟩ := balance_step done other creates member
      have keeps : ¬ (tx.action.creates account = true) := by
        rw [creates]
        decide
      apply (holds before).append keeps
      intro later settled
      rw [posted, settled, List.map_append, List.sum_append,
        List.map_singleton, List.sum_singleton]

/-- The balance of a registered account other than `self` is the sum of its
postings since it was last created, and no action that does not name the
account changes it. -/
theorem balance_eq_postings {self account : AccountName}
    (other : account ≠ self) (txs : List Transaction)
    (registered :
      account ∈ (run (apply self) Tables.empty txs).userinfo.keys) :
    ComesFrom account (log (apply self) Tables.empty txs)
        (run (apply self) Tables.empty txs) ∧
      ∀ t ∈ history self txs, account ∉ t.action.action.accounts →
        t.after.balance account = t.before.balance account := by
  have atStart :
      account ∈ Tables.empty.userasset.keys →
        ComesFrom account [] Tables.empty := by
    intro member
    cases member
  have past :
      account ∈ (run (apply self) Tables.empty txs).userasset.keys →
        ComesFrom account (log (apply self) Tables.empty txs)
          (run (apply self) Tables.empty txs) := by
    refine trace_induction
      (P := fun past db => account ∈ db.userasset.keys →
        ComesFrom account (past.map Transition.action) db)
      atStart ?_ txs
    intro past db tx after holds done member
    rw [List.map_append]
    exact comesFrom_step done other holds member
  rw [(valid_run self txs).sameNames] at registered
  refine ⟨past registered, ?_⟩
  intro t member unnamed
  exact balance_of_notMem_accounts (step_of_mem_trace member) other unnamed

theorem balance_eq_postings_savedRun :
    ComesFrom 2 (log (apply 1) Tables.empty savedRun)
      (run (apply 1) Tables.empty savedRun) :=
  (balance_eq_postings (by decide) savedRun (by decide)).1

end Bright.Keephand
