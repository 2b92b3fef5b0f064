import Bright.Keephand.History
import Bright.Keephand.Refusals

/-!
# When a transfer succeeds and what it moves

A transfer debits the sender, credits the receiver and then the row of `self`,
reading the asset table afresh each time.  In a reachable state the check made
before the first write covers all three of them, also where two or all of the
accounts coincide.
-/

namespace Bright.Keephand

open Bright.Lib Bright.Eosio

/-- The fee of a transfer in the words of `fee_rate` and `fee_min`. -/
def statedFee (funds : ℚ) : ℚ := max (funds / 100) (1 / 100)

/-- What a transfer is to leave to `account`. -/
def balanceAfterTransfer (self sender receiver : AccountName) (funds : ℚ)
    (db : Tables) (account : AccountName) : ℚ :=
  db.balance account - (if account = sender then funds + statedFee funds else 0) +
    (if account = receiver then funds else 0) +
    (if account = self then statedFee funds else 0)

variable {self sender receiver account : AccountName}
  {signers : List AccountName} {funds : ℚ} {strremark : StdString}
  {db after : Tables}

theorem transferFee_eq_statedFee (funds : ℚ) :
    transferFee funds = statedFee funds :=
  transferFee_eq_max funds

/-- The single check on the sender covers the three writes. -/
theorem transfer_effect (valid : db.Valid) (signed : sender ∈ signers)
    (positive : 0 < sender) (receiverPositive : 0 < receiver)
    (fundsPositive : 0 < funds) (registered : receiver ∈ db.userinfo.keys)
    (funded : sender ∈ db.userasset.keys) (owner : self ∈ db.userasset.keys)
    (covered : funds + statedFee funds ≤ db.balance sender) :
    Effect self db ⟨signers, .transfer sender receiver funds strremark⟩
      (((db.credit sender (-(transferFee funds + funds))).credit
        receiver funds).credit self (transferFee funds)) := by
  rw [← transferFee_eq_statedFee] at covered
  have feePositive : 0 < transferFee funds := transferFee_pos
  have receiverFunded : receiver ∈ db.userasset.keys :=
    valid.sameNames ▸ registered
  have written : 0 ≤ db.balance sender + -(transferFee funds + funds) := by
    linarith
  have debited := nonneg_credit valid.balanceNonneg written
  have receiverSolvent :
      0 ≤ (db.credit sender (-(transferFee funds + funds))).balance receiver +
        funds :=
    add_nonneg (debited receiver) fundsPositive.le
  have credited := nonneg_credit debited receiverSolvent
  have ownerSolvent :
      0 ≤ ((db.credit sender (-(transferFee funds + funds))).credit
        receiver funds).balance self + transferFee funds :=
    add_nonneg (credited self) feePositive.le
  exact .transferred positive receiverPositive fundsPositive signed registered
    funded (by linarith) receiverFunded receiverSolvent owner ownerSolvent

theorem balance_transfer
    (done : apply self db
      ⟨signers, .transfer sender receiver funds strremark⟩ = .ok after)
    (account : AccountName) :
    after.balance account =
      balanceAfterTransfer self sender receiver funds db account := by
  cases apply_eq_ok_iff.mp done with
  | transferred =>
      rw [balanceAfterTransfer, ← transferFee_eq_statedFee]
      simp only [Tables.balance_credit, Pi.single_apply]
      split_ifs <;> ring

/-- A transfer leaves the rows of other accounts alone. -/
theorem find_transfer
    (done : apply self db
      ⟨signers, .transfer sender receiver funds strremark⟩ = .ok after)
    (notSender : account ≠ sender) (notReceiver : account ≠ receiver)
    (notSelf : account ≠ self) :
    after.userasset.find account = db.userasset.find account := by
  cases apply_eq_ok_iff.mp done with
  | transferred =>
      simp only [Tables.credit, Tables.find_setFunds, if_neg notSender,
        if_neg notReceiver, if_neg notSelf]

/-- In a reachable state a signed transfer succeeds exactly under the stated
conditions.  It then leaves the stated balances and nothing else changes, and
its last checks on negative balances never fail. -/
theorem transfer_exact {self sender receiver : AccountName} {db : Tables}
    {signers : List AccountName} (funds : ℚ) (strremark : StdString)
    (reached : Reachable (apply self) Tables.empty db)
    (signed : sender ∈ signers) :
    ((∃ after, apply self db
        ⟨signers, .transfer sender receiver funds strremark⟩ = .ok after) ↔
      0 < sender ∧ 0 < receiver ∧ 0 < funds ∧ receiver ∈ db.userinfo.keys ∧
        sender ∈ db.userasset.keys ∧ self ∈ db.userasset.keys ∧
        funds + statedFee funds ≤ db.balance sender) ∧
    (∀ after, apply self db
        ⟨signers, .transfer sender receiver funds strremark⟩ = .ok after →
      (∀ account, after.balance account =
        balanceAfterTransfer self sender receiver funds db account) ∧
      after.userinfo = db.userinfo ∧
      after.userasset.keys = db.userasset.keys ∧
      ∀ account, account ≠ sender → account ≠ receiver → account ≠ self →
        after.userasset.find account = db.userasset.find account) ∧
    apply self db ⟨signers, .transfer sender receiver funds strremark⟩ ≠
      .error (.assertion "asset not enought. \n") := by
  have valid := valid_of_reachable reached
  refine ⟨?_, ?_, dead_assertion valid (by decide) _⟩
  · constructor
    · intro succeeds
      obtain ⟨after, done⟩ := succeeds
      cases apply_eq_ok_iff.mp done with
      | transferred positive receiverPositive fundsPositive _ registered funded
          enough _ _ owner =>
          rw [transferFee_eq_statedFee] at enough
          exact ⟨positive, receiverPositive, fundsPositive, registered, funded,
            owner, by linarith⟩
    · intro conditions
      obtain ⟨positive, receiverPositive, fundsPositive, registered, funded,
        owner, covered⟩ := conditions
      exact ⟨_, apply_eq_ok_iff.mpr (transfer_effect valid signed positive
        receiverPositive fundsPositive registered funded owner covered)⟩
  · intro after done
    refine ⟨balance_transfer done, ?_, keys_apply done rfl, ?_⟩
    · cases apply_eq_ok_iff.mp done with
      | transferred => rfl
    · intro account notSender notReceiver notSelf
      exact find_transfer done notSender notReceiver notSelf

/-- The client `2` pays itself 100 out of 1000. -/
theorem transfer_exact_savedRun :
    ∃ after, apply 1 (run (apply 1) Tables.empty savedRun)
      ⟨[2], .transfer 2 2 100 []⟩ = .ok after :=
  (transfer_exact 100 [] (reachable_run savedRun) (by decide)).1.mpr
    (by decide +kernel)

end Bright.Keephand
