import Bright.Keephand.Validity

/-!
# Authority over losses

Every action asks for the authority of one account, `Action.authority`, and an
action that succeeds does so with any signers that include that account.  An
account can only lose funds in an action that asks for its authority, with one
exception: a withdrawal by another account assigns the fee to the row of
`self`, which loses whatever it held above that fee.
-/

namespace Bright.Keephand

open Bright.Lib Bright.Eosio

/-- The account whose authority the action asks for. -/
def Action.authority (self : AccountName) : Action → AccountName
  | .createacnt _ _ => self
  | .deleteacnt _ => self
  | .modasset name _ _ => name
  | .transfer sender _ _ _ => sender

/-- The action never succeeds without the signature of `account`. -/
def Requires (self : AccountName) (db : Tables) (action : Action)
    (account : AccountName) : Prop :=
  ∀ signers after, apply self db ⟨signers, action⟩ = .ok after →
    account ∈ signers

/-- Every account that holds less after the action had to sign it. -/
def LossesRequired (self : AccountName) (before : Tables) (action : Action)
    (after : Tables) : Prop :=
  ∀ account, after.balance account < before.balance account →
    Requires self before action account

/-- A withdrawal by `self`, or one whose fee is at least what the row of
`self` holds. -/
def SparesOwner (self : AccountName) (db : Tables) (action : Action) : Prop :=
  ∀ name funds, action = .modasset name funds false →
    name = self ∨ db.balance self ≤ funds * feeRate

variable {self account : AccountName} {db after : Tables} {tx : Transaction}

theorem authority_signed (done : apply self db tx = .ok after) :
    tx.action.authority self ∈ tx.signers := by
  cases apply_eq_ok_iff.mp done with
  | created _ _ signed => exact signed
  | deleted _ signed => exact signed
  | saved _ _ _ signed => exact signed
  | withdrew _ _ _ signed => exact signed
  | transferred _ _ _ signed => exact signed

/-- An action that succeeds also succeeds when only its authority signs. -/
theorem apply_authority (done : apply self db tx = .ok after) :
    apply self db ⟨[tx.action.authority self], tx.action⟩ = .ok after := by
  have alone : ∀ name : AccountName, name ∈ [name] := List.mem_singleton_self
  rw [apply_eq_ok_iff]
  cases apply_eq_ok_iff.mp done with
  | created positive nonempty _ freshUser freshAsset =>
      exact .created positive nonempty (alone self) freshUser freshAsset
  | deleted positive _ registered =>
      exact .deleted positive (alone self) registered
  | saved positive fundsPositive registered _ funded =>
      exact .saved positive fundsPositive registered (alone _) funded
  | withdrew positive fundsPositive registered _ funded enough owner =>
      exact .withdrew positive fundsPositive registered (alone _) funded
        enough owner
  | transferred positive receiverPositive fundsPositive _ registered funded
      enough receiverFunded receiverSolvent owner ownerSolvent =>
      exact .transferred positive receiverPositive fundsPositive (alone _)
        registered funded enough receiverFunded receiverSolvent owner
        ownerSolvent

theorem requires_iff (done : apply self db tx = .ok after) :
    Requires self db tx.action account ↔
      account = tx.action.authority self := by
  constructor
  · intro required
    have signed := required _ _ (apply_authority done)
    exact List.mem_singleton.mp signed
  · intro same signers other succeeded
    rw [same]
    exact authority_signed succeeded

private theorem single_nonneg {name : AccountName} {amount : ℚ}
    (nonneg : 0 ≤ amount) (account : AccountName) :
    0 ≤ (Pi.single name amount : AccountName → ℚ) account := by
  rw [Pi.single_apply]
  split_ifs
  · exact nonneg
  · exact le_refl 0

/-- Only the account whose authority is asked for is debited on purpose. -/
theorem movement_nonneg (done : apply self db tx = .ok after)
    (other : account ≠ tx.action.authority self) :
    0 ≤ movement self tx.action account := by
  cases apply_eq_ok_iff.mp done with
  | created => exact le_refl 0
  | deleted => exact le_refl 0
  | saved _ fundsPositive => exact single_nonneg fundsPositive.le account
  | @withdrew signers name funds _ fundsPositive =>
      have fee : 0 ≤ funds * feeRate :=
        mul_nonneg fundsPositive.le feeRate_pos.le
      have drawn :
          (Pi.single name (-(funds + funds * feeRate)) : AccountName → ℚ)
            account = 0 :=
        Pi.single_eq_of_ne other _
      rw [movement, Pi.add_apply, drawn, zero_add]
      exact single_nonneg fee account
  | @transferred signers sender receiver funds strremark _ _ fundsPositive =>
      have sent :
          (Pi.single sender (-(funds + transferFee funds)) : AccountName → ℚ)
            account = 0 :=
        Pi.single_eq_of_ne other _
      have received :
          0 ≤ (Pi.single receiver funds : AccountName → ℚ) account :=
        single_nonneg fundsPositive.le account
      have fee :
          0 ≤ (Pi.single self (transferFee funds) : AccountName → ℚ) account :=
        single_nonneg transferFee_pos.le account
      rw [movement, Pi.add_apply, Pi.add_apply, sent, zero_add]
      exact add_nonneg received fee

/-- An account that loses funds has a row. -/
private theorem mem_of_loss (moves : tx.action.movesFunds)
    (done : apply self db tx = .ok after)
    (lost : after.balance account < db.balance account) :
    account ∈ db.userasset.keys := by
  by_contra absent
  have before : db.balance account = 0 := Tables.balance_of_notMem absent
  have later : after.balance account = 0 := by
    apply Tables.balance_of_notMem
    rw [keys_apply done moves]
    exact absent
  rw [before, later] at lost
  exact lt_irrefl 0 lost

/-- Where the row of `self` is spared, an account loses funds only in an
action that asks for its authority. -/
private theorem authority_of_loss (done : apply self db tx = .ok after)
    (moves : tx.action.movesFunds) (spares : SparesOwner self db tx.action)
    (lost : after.balance account < db.balance account) :
    account = tx.action.authority self := by
  by_contra other
  have gained := movement_nonneg done other
  have member := mem_of_loss moves done lost
  rw [balance_apply done moves member, entry_apply] at lost
  by_cases owner : account = self
  · subst account
    rw [Pi.single_eq_same] at lost
    cases apply_eq_ok_iff.mp done with
    | created => cases moves
    | deleted => cases moves
    | saved =>
        simp only [feeLoss] at lost
        linarith
    | @withdrew signers name funds =>
        have foreign : name ≠ self := fun same => other same.symm
        rcases spares name funds rfl with own | covered
        · exact foreign own
        · have fee :
              movement self (.modasset name funds false) self =
                funds * feeRate := by
            simp [movement, foreign.symm]
          simp only [feeLoss, if_neg foreign, fee] at lost
          linarith
    | transferred =>
        simp only [feeLoss] at lost
        linarith
  · rw [Pi.single_eq_of_ne owner] at lost
    linarith

/-- A withdrawal by another account leaves exactly the fee in the row of
`self`. -/
theorem balance_self_of_withdrawal {name : AccountName} {funds : ℚ}
    (done : apply self db tx = .ok after)
    (isWithdrawal : tx.action = .modasset name funds false)
    (foreign : name ≠ self) : after.balance self = funds * feeRate := by
  have moves : tx.action.movesFunds := by
    rw [isWithdrawal]
    rfl
  have owner := self_mem_of_withdrawal done isWithdrawal
  rw [balance_apply done moves owner, isWithdrawal]
  simp [entry, Entry.apply, foreign]

/-- An action takes funds only from accounts that had to sign it exactly if it
spares the row of `self`. -/
theorem lossesRequired_iff (done : apply self db tx = .ok after)
    (moves : tx.action.movesFunds) :
    LossesRequired self db tx.action after ↔
      SparesOwner self db tx.action := by
  constructor
  · intro required name funds isWithdrawal
    by_contra overdrawn
    rw [not_or, not_le] at overdrawn
    obtain ⟨foreign, exceeds⟩ := overdrawn
    have lost : after.balance self < db.balance self := by
      rw [balance_self_of_withdrawal done isWithdrawal foreign]
      exact exceeds
    have owner := (requires_iff done).mp (required self lost)
    rw [isWithdrawal] at owner
    exact foreign owner.symm
  · intro spares account lost
    exact (requires_iff done).mpr (authority_of_loss done moves spares lost)

/-! ### Losses without authority -/

/-- In every reachable state an action takes funds only from accounts that had
to sign it exactly if it spares the row of `self`, and a run does so in all its
actions exactly if all of them spare that row. -/
theorem loss_authority_iff (self : AccountName) :
    (∀ db tx after, Reachable (apply self) Tables.empty db →
      tx.action.movesFunds → apply self db tx = .ok after →
        (LossesRequired self db tx.action after ↔
          SparesOwner self db tx.action)) ∧
    ∀ txs,
      (∀ t ∈ history self txs, t.action.action.movesFunds →
        LossesRequired self t.before t.action.action t.after) ↔
      ∀ t ∈ history self txs, t.action.action.movesFunds →
        SparesOwner self t.before t.action.action := by
  constructor
  · intro db tx after _ moves done
    exact lossesRequired_iff done moves
  · intro txs
    constructor
    · intro required t member moves
      have done := step_of_mem_trace member
      exact (lossesRequired_iff done moves).mp (required t member moves)
    · intro spares t member moves
      have done := step_of_mem_trace member
      exact (lossesRequired_iff done moves).mpr (spares t member moves)

/-- The first withdrawal takes nothing from the contract account `1`. -/
theorem loss_authority_savedRun :
    LossesRequired 1 (run (apply 1) Tables.empty savedRun)
      (.modasset 2 100 false)
      (attempt (apply 1) (run (apply 1) Tables.empty savedRun)
        ⟨[2], .modasset 2 100 false⟩) := by
  have spares :
      SparesOwner 1 (run (apply 1) Tables.empty savedRun)
        (.modasset 2 100 false) := by
    intro name funds same
    cases same
    exact Or.inr (by decide +kernel)
  exact ((loss_authority_iff 1).1 (run (apply 1) Tables.empty savedRun)
    ⟨[2], .modasset 2 100 false⟩ _ (reachable_run savedRun) rfl
    (by decide +kernel)).mpr spares

/-- The fee of the second withdrawal is smaller than the fee of the first one,
which the contract account `1` loses without signing. -/
theorem loss_without_authority :
    ¬ ∀ (self : AccountName) (db : Tables) (tx : Transaction) (after : Tables),
      Reachable (apply self) Tables.empty db → tx.action.movesFunds →
        apply self db tx = .ok after →
          LossesRequired self db tx.action after := by
  intro neverLost
  let db :=
    run (apply 1) Tables.empty (savedRun ++ [⟨[2], .modasset 2 100 false⟩])
  let after := attempt (apply 1) db ⟨[2], .modasset 2 50 false⟩
  have done : apply 1 db ⟨[2], .modasset 2 50 false⟩ = .ok after := by
    decide +kernel
  have lost : after.balance 1 < db.balance 1 := by
    decide +kernel
  have required := neverLost 1 db ⟨[2], .modasset 2 50 false⟩ after
    (reachable_run _) rfl done 1 lost
  have signed : (1 : AccountName) ∈ [2] := required [2] after done
  exact absurd signed (by decide)

end Bright.Keephand
