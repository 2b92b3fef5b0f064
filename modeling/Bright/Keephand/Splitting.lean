import Bright.Keephand.Fees
import Bright.Keephand.Transfer
import Mathlib.Algebra.BigOperators.Ring.List
import Mathlib.Algebra.Order.BigOperators.Group.Multiset

/-!
# Payments in several parts

A payment can be made in one action or in several parts.  The fee of a
transfer is subadditive, so parts never cost less than the whole, and the
checks that all the parts pass cover the check of the whole.  The fee of a
withdrawal is linear, so for the account that withdraws the parts and the
whole are the same.
-/

namespace Bright.Keephand

open Bright.Lib Bright.Eosio

/-- One part of a payment.  A withdrawal has no remark. -/
structure Part where
  signers : List AccountName
  funds : ℚ
  strremark : StdString
  deriving DecidableEq, Repr

def transfers (sender receiver : AccountName) (parts : List Part) :
    List Transaction :=
  parts.map fun part =>
    ⟨part.signers, .transfer sender receiver part.funds part.strremark⟩

def withdrawals (name : AccountName) (parts : List Part) : List Transaction :=
  parts.map fun part => ⟨part.signers, .modasset name part.funds false⟩

/-- What the parts amount to. -/
def totalFunds (parts : List Part) : ℚ := (parts.map Part.funds).sum

variable {self sender receiver name account : AccountName}
  {signers : List AccountName} {strremark : StdString} {funds : ℚ}
  {db after split : Tables} {parts : List Part}

/-! ### The fees of the parts -/

theorem statedFee_add_le (first second : ℚ) :
    statedFee (first + second) ≤ statedFee first + statedFee second := by
  unfold statedFee
  have firstRate : first / 100 ≤ max (first / 100) (1 / 100) :=
    le_max_left _ _
  have secondRate : second / 100 ≤ max (second / 100) (1 / 100) :=
    le_max_left _ _
  have firstMinimum : (1 : ℚ) / 100 ≤ max (first / 100) (1 / 100) :=
    le_max_right _ _
  have secondMinimum : (1 : ℚ) / 100 ≤ max (second / 100) (1 / 100) :=
    le_max_right _ _
  apply max_le
  · linarith
  · linarith

theorem statedFee_mono {small large : ℚ} (le : small ≤ large) :
    statedFee small ≤ statedFee large := by
  unfold statedFee
  exact max_le_max (by linarith) (le_refl _)

/-- The whole costs at most as much as its parts. -/
theorem statedFee_totalFunds_le (nonempty : parts ≠ []) :
    statedFee (totalFunds parts) ≤
      (parts.map fun part => statedFee part.funds).sum := by
  have bound := Multiset.le_sum_nonempty_of_subadditive statedFee
    statedFee_add_le (parts.map Part.funds : Multiset ℚ)
    (by simpa using nonempty)
  rw [Multiset.sum_coe, Multiset.map_coe, Multiset.sum_coe,
    List.map_map] at bound
  exact bound

theorem funds_le_totalFunds {part : Part}
    (positive : ∀ part ∈ parts, 0 < part.funds) (member : part ∈ parts) :
    part.funds ≤ totalFunds parts := by
  apply List.single_le_sum
  · intro funds listed
    obtain ⟨other, otherMember, rfl⟩ := List.mem_map.mp listed
    exact (positive other otherMember).le
  · exact List.mem_map_of_mem member

/-! ### Successive transfers -/

theorem balance_eq_add_movement
    (done : apply self db
      ⟨signers, .transfer sender receiver funds strremark⟩ = .ok after) :
    after.balance account = db.balance account +
      movement self (.transfer sender receiver funds strremark) account := by
  cases apply_eq_ok_iff.mp done with
  | transferred =>
      simp only [Tables.balance_credit, movement, Pi.add_apply,
        add_comm (transferFee funds) funds]
      ring

theorem balance_transfers (account : AccountName)
    (ran : runAll (apply self) db (transfers sender receiver parts) =
      .ok split) :
    split.balance account = db.balance account +
      (parts.map fun part => movement self
        (.transfer sender receiver part.funds part.strremark) account).sum := by
  rw [transfers, runAll_map] at ran
  refine measure_runAll (fun state : Tables => state.balance account) _ ?_ ran
  intro part _ state next done
  exact balance_eq_add_movement done

theorem movement_sender (notReceiver : sender ≠ receiver)
    (notSelf : sender ≠ self) :
    movement self (.transfer sender receiver funds strremark) sender =
      -(funds + statedFee funds) := by
  simp [movement, Pi.single_eq_of_ne notReceiver, Pi.single_eq_of_ne notSelf,
    transferFee_eq_statedFee]

theorem movement_receiver (notReceiver : sender ≠ receiver)
    (receiverNotSelf : receiver ≠ self) :
    movement self (.transfer sender receiver funds strremark) receiver =
      funds := by
  simp [movement, Pi.single_eq_of_ne notReceiver.symm,
    Pi.single_eq_of_ne receiverNotSelf]

theorem movement_self (notSelf : sender ≠ self)
    (receiverNotSelf : receiver ≠ self) :
    movement self (.transfer sender receiver funds strremark) self =
      statedFee funds := by
  simp [movement, Pi.single_eq_of_ne notSelf.symm,
    Pi.single_eq_of_ne receiverNotSelf.symm, transferFee_eq_statedFee]

/-- When a transfer between distinct accounts succeeds, in any tables: the
checks of all three writes refer to the balances before the transfer. -/
structure Payable (contract sender receiver : AccountName) (funds : ℚ)
    (signers : List AccountName) (db : Tables) : Prop where
  positive : 0 < sender
  receiverPositive : 0 < receiver
  fundsPositive : 0 < funds
  signed : sender ∈ signers
  registered : receiver ∈ db.userinfo.keys
  funded : sender ∈ db.userasset.keys
  receiverFunded : receiver ∈ db.userasset.keys
  owner : contract ∈ db.userasset.keys
  covered : funds + statedFee funds ≤ db.balance sender
  receiverSolvent : 0 ≤ db.balance receiver + funds
  ownerSolvent : 0 ≤ db.balance contract + statedFee funds

theorem exists_transfer_iff (notReceiver : sender ≠ receiver)
    (notSelf : sender ≠ self) (receiverNotSelf : receiver ≠ self) :
    (∃ after, apply self db
        ⟨signers, .transfer sender receiver funds strremark⟩ = .ok after) ↔
      Payable self sender receiver funds signers db := by
  have atReceiver :
      (db.credit sender (-(transferFee funds + funds))).balance receiver =
        db.balance receiver := by
    rw [Tables.balance_credit, Pi.single_eq_of_ne notReceiver.symm, add_zero]
  have atSelf :
      ((db.credit sender (-(transferFee funds + funds))).credit
        receiver funds).balance self = db.balance self := by
    rw [Tables.balance_credit, Tables.balance_credit,
      Pi.single_eq_of_ne receiverNotSelf.symm,
      Pi.single_eq_of_ne notSelf.symm, add_zero, add_zero]
  constructor
  · intro succeeds
    obtain ⟨after, done⟩ := succeeds
    cases apply_eq_ok_iff.mp done with
    | transferred positive receiverPositive fundsPositive signed registered
        funded enough receiverFunded receiverSolvent owner ownerSolvent =>
        rw [atReceiver] at receiverSolvent
        rw [atSelf, transferFee_eq_statedFee] at ownerSolvent
        rw [transferFee_eq_statedFee] at enough
        exact ⟨positive, receiverPositive, fundsPositive, signed, registered,
          funded, receiverFunded, owner, by linarith, receiverSolvent,
          ownerSolvent⟩
  · intro payable
    have covered := payable.covered
    rw [← transferFee_eq_statedFee] at covered
    have receiverSolvent := payable.receiverSolvent
    rw [← atReceiver] at receiverSolvent
    have ownerSolvent := payable.ownerSolvent
    rw [← atSelf, ← transferFee_eq_statedFee] at ownerSolvent
    exact ⟨_, apply_eq_ok_iff.mpr (.transferred payable.positive
      payable.receiverPositive payable.fundsPositive payable.signed
      payable.registered payable.funded (by linarith) payable.receiverFunded
      receiverSolvent payable.owner ownerSolvent)⟩

/-- Transfers that all succeed were all for a positive amount. -/
theorem funds_pos_of_transfers
    (ran : runAll (apply self) db (transfers sender receiver parts) =
      .ok split) :
    ∀ part ∈ parts, 0 < part.funds := by
  rw [transfers, runAll_map] at ran
  refine forall_of_runAll ?_ ran
  intro part state next done
  cases apply_eq_ok_iff.mp done with
  | transferred _ _ fundsPositive => exact fundsPositive

/-- The sender of the last transfer could pay for it. -/
theorem nonneg_of_transfers (notReceiver : sender ≠ receiver)
    (notSelf : sender ≠ self) (nonempty : parts ≠ [])
    (ran : runAll (apply self) db (transfers sender receiver parts) =
      .ok split) :
    0 ≤ split.balance sender := by
  rw [transfers, runAll_map] at ran
  refine of_runAll (P := fun state => 0 ≤ state.balance sender) ?_ nonempty ran
  intro part _ state next done
  rw [balance_eq_add_movement done, movement_sender notReceiver notSelf]
  cases apply_eq_ok_iff.mp done with
  | transferred _ _ _ _ _ _ enough =>
      rw [transferFee_eq_statedFee] at enough
      linarith

/-- The parts charge the sender `totalFunds` and the fee of each part. -/
theorem sender_transfers (notReceiver : sender ≠ receiver)
    (notSelf : sender ≠ self)
    (ran : runAll (apply self) db (transfers sender receiver parts) =
      .ok split) :
    split.balance sender = db.balance sender - totalFunds parts -
      (parts.map fun part => statedFee part.funds).sum := by
  have charged :
      (parts.map fun part => -(part.funds + statedFee part.funds)).sum =
        -(totalFunds parts + (parts.map fun part =>
          statedFee part.funds).sum) := by
    rw [totalFunds, ← List.sum_map_add, List.sum_neg, List.map_map]
    rfl
  rw [balance_transfers sender ran]
  simp only [movement_sender notReceiver notSelf]
  rw [charged]
  ring

/-- The parts together cover the check of the whole. -/
theorem payable_totalFunds (notReceiver : sender ≠ receiver)
    (notSelf : sender ≠ self) (receiverNotSelf : receiver ≠ self)
    (signed : sender ∈ signers) (nonempty : parts ≠ [])
    (ran : runAll (apply self) db (transfers sender receiver parts) =
      .ok split) :
    Payable self sender receiver (totalFunds parts) signers db := by
  have positive := funds_pos_of_transfers ran
  have left := nonneg_of_transfers notReceiver notSelf nonempty ran
  rw [sender_transfers notReceiver notSelf ran] at left
  have fees := statedFee_totalFunds_le nonempty
  obtain ⟨part, rest, rfl⟩ := List.exists_cons_of_ne_nil nonempty
  obtain ⟨next, done, _⟩ := runAll_cons_eq_ok_iff.mp ran
  have first := (exists_transfer_iff notReceiver notSelf receiverNotSelf).mp
    ⟨next, done⟩
  have partLe : part.funds ≤ totalFunds (part :: rest) :=
    funds_le_totalFunds positive List.mem_cons_self
  have feeLe := statedFee_mono partLe
  exact
    { positive := first.positive
      receiverPositive := first.receiverPositive
      fundsPositive := lt_of_lt_of_le first.fundsPositive partLe
      signed := signed
      registered := first.registered
      funded := first.funded
      receiverFunded := first.receiverFunded
      owner := first.owner
      covered := by linarith
      receiverSolvent := by linarith [first.receiverSolvent]
      ownerSolvent := by linarith [first.ownerSolvent] }

/-! ### Successive withdrawals -/

theorem balance_withdrawal
    (done : apply self db ⟨signers, .modasset name funds false⟩ = .ok after) :
    after.balance name = db.balance name + -(funds + funds * feeRate) := by
  cases apply_eq_ok_iff.mp done with
  | withdrew =>
      rw [Tables.balance_setFunds, if_pos rfl]
      ring

theorem balance_withdrawals
    (ran : runAll (apply self) db (withdrawals name parts) = .ok split) :
    split.balance name =
      db.balance name + -(totalFunds parts + totalFunds parts * feeRate) := by
  have charged :
      (parts.map fun part => -(part.funds + part.funds * feeRate)).sum =
        -(totalFunds parts + totalFunds parts * feeRate) := by
    rw [totalFunds, ← List.sum_map_mul_right, ← List.sum_map_add,
      List.sum_neg, List.map_map]
    rfl
  rw [← charged]
  rw [withdrawals, runAll_map] at ran
  refine measure_runAll (fun state : Tables => state.balance name) _ ?_ ran
  intro part _ state next done
  exact balance_withdrawal done

theorem nonneg_of_withdrawals (nonempty : parts ≠ [])
    (ran : runAll (apply self) db (withdrawals name parts) = .ok split) :
    0 ≤ split.balance name := by
  rw [withdrawals, runAll_map] at ran
  refine of_runAll (P := fun state => 0 ≤ state.balance name) ?_ nonempty ran
  intro part _ state next done
  rw [balance_withdrawal done]
  cases apply_eq_ok_iff.mp done with
  | withdrew _ _ _ _ _ enough =>
      linarith

theorem funds_pos_of_withdrawals
    (ran : runAll (apply self) db (withdrawals name parts) = .ok split) :
    ∀ part ∈ parts, 0 < part.funds := by
  rw [withdrawals, runAll_map] at ran
  refine forall_of_runAll ?_ ran
  intro part state next done
  cases apply_eq_ok_iff.mp done with
  | withdrew _ fundsPositive => exact fundsPositive

/-- The parts together cover the check of the whole. -/
theorem exists_withdrawal (signed : name ∈ signers) (nonempty : parts ≠ [])
    (ran : runAll (apply self) db (withdrawals name parts) = .ok split) :
    ∃ whole, apply self db
      ⟨signers, .modasset name (totalFunds parts) false⟩ = .ok whole := by
  have positive := funds_pos_of_withdrawals ran
  have left := nonneg_of_withdrawals nonempty ran
  rw [balance_withdrawals ran] at left
  obtain ⟨part, rest, rfl⟩ := List.exists_cons_of_ne_nil nonempty
  have partLe : part.funds ≤ totalFunds (part :: rest) :=
    funds_le_totalFunds positive List.mem_cons_self
  obtain ⟨next, done, _⟩ := runAll_cons_eq_ok_iff.mp ran
  cases apply_eq_ok_iff.mp done with
  | withdrew namePositive fundsPositive registered _ funded _ owner =>
      exact ⟨_, apply_eq_ok_iff.mpr (.withdrew namePositive
        (lt_of_lt_of_le fundsPositive partLe) registered signed funded
        (by linarith) owner)⟩

/-- Paying in parts never costs the sender less than one payment, and it
never brings the fee account less; the receiver gets the same.  A withdrawal
in parts leaves exactly what one withdrawal leaves. -/
theorem splitting_saves_nothing (self : AccountName) :
    (∀ sender receiver db split signers strremark parts,
      sender ≠ receiver → sender ≠ self → receiver ≠ self → parts ≠ [] →
        sender ∈ signers →
        runAll (apply self) db (transfers sender receiver parts) = .ok split →
          ∃ whole, apply self db
              ⟨signers, .transfer sender receiver (totalFunds parts)
                strremark⟩ = .ok whole ∧
            split.balance sender ≤ whole.balance sender ∧
            whole.balance receiver = split.balance receiver ∧
            whole.balance self ≤ split.balance self) ∧
    ∀ name db split signers parts, name ≠ self → parts ≠ [] →
      name ∈ signers →
      runAll (apply self) db (withdrawals name parts) = .ok split →
        ∃ whole, apply self db
            ⟨signers, .modasset name (totalFunds parts) false⟩ = .ok whole ∧
          whole.balance name = split.balance name := by
  constructor
  · intro sender receiver db split signers strremark parts notReceiver notSelf
      receiverNotSelf nonempty signed ran
    have payable := payable_totalFunds notReceiver notSelf receiverNotSelf
      signed nonempty ran
    have fees := statedFee_totalFunds_le nonempty
    obtain ⟨whole, done⟩ := (exists_transfer_iff notReceiver notSelf
      receiverNotSelf).mpr payable
    refine ⟨whole, done, ?_, ?_, ?_⟩
    · rw [sender_transfers notReceiver notSelf ran,
        balance_eq_add_movement done, movement_sender notReceiver notSelf]
      linarith
    · rw [balance_transfers receiver ran, balance_eq_add_movement done]
      simp only [movement_receiver notReceiver receiverNotSelf]
      rfl
    · rw [balance_transfers self ran, balance_eq_add_movement done]
      simp only [movement_self notSelf receiverNotSelf]
      linarith
  · intro name db split signers parts _ nonempty signed ran
    obtain ⟨whole, done⟩ := exists_withdrawal signed nonempty ran
    refine ⟨whole, done, ?_⟩
    rw [balance_withdrawals ran, balance_withdrawal done]

/-- A payment of 201/2 in two parts. -/
def unevenParts : List Part := [⟨[2], 1 / 2, []⟩, ⟨[2], 100, [65]⟩]

theorem splitting_saves_nothing_unevenParts :
    let db := run (apply 1) Tables.empty clientsRun
    let split := run (apply 1) db (transfers 2 3 unevenParts)
    ∃ whole, apply 1 db ⟨[2], .transfer 2 3 (totalFunds unevenParts) []⟩ =
        .ok whole ∧
      split.balance 2 ≤ whole.balance 2 := by
  intro db split
  have ran : runAll (apply 1) db (transfers 2 3 unevenParts) = .ok split := by
    decide +kernel
  obtain ⟨whole, done, sender, _⟩ := (splitting_saves_nothing 1).1 2 3 db split
    [2] [] unevenParts (by decide) (by decide) (by decide) (by decide)
    (by decide) ran
  exact ⟨whole, done, sender⟩

end Bright.Keephand
