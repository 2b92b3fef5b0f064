import Bright.Keephand.History

/-!
# The two fee rules

The header declares `fee_min`, the smallest fee, for every action that takes
money.  A transfer keeps to it; the withdrawal branch of `modasset` computes
its fee from `fee_rate` alone.  The two rules agree from an amount of 1 on and
differ for every smaller amount.
-/

namespace Bright.Keephand

open Bright.Lib Bright.Eosio

/-- What an action took from `name` on top of `funds`. -/
def taken (before after : Tables) (name : AccountName) (funds : ℚ) : ℚ :=
  before.balance name - after.balance name - funds

/-- Whether a withdrawal, or a transfer from one account to another, took at least
`fee_min` on top.  A transfer by `self` pays the fee back to `self`, so that the
balance does not show it.  Of a transfer to oneself nothing is asked here: it
takes `transferFee` like the others, which is never below `fee_min`. -/
def TakesMinimum (self : AccountName) (before : Tables) (action : Action)
    (after : Tables) : Prop :=
  (∀ name funds, action = .modasset name funds false →
    feeMin ≤ taken before after name funds) ∧
  ∀ sender receiver funds strremark,
    action = .transfer sender receiver funds strremark →
      sender ≠ receiver → sender ≠ self →
        feeMin ≤ taken before after sender funds

/-- A withdrawal of at least 1. -/
def LargeWithdrawal (action : Action) : Prop :=
  ∀ name funds, action = .modasset name funds false → 1 ≤ funds

variable {self name sender receiver : AccountName} {db after : Tables}
  {tx : Transaction} {funds : ℚ}

theorem taken_of_withdrawal (done : apply self db tx = .ok after)
    (isWithdrawal : tx.action = .modasset name funds false) :
    taken db after name funds = funds * feeRate := by
  obtain ⟨signers, action⟩ := tx
  subst isWithdrawal
  cases apply_eq_ok_iff.mp done with
  | withdrew =>
      rw [taken, Tables.balance_setFunds, if_pos rfl]
      ring

theorem taken_of_transfer (done : apply self db tx = .ok after)
    {strremark : StdString}
    (isTransfer : tx.action = .transfer sender receiver funds strremark)
    (notReceiver : sender ≠ receiver) (notSelf : sender ≠ self) :
    taken db after sender funds = max (funds * feeRate) feeMin := by
  obtain ⟨signers, action⟩ := tx
  subst isTransfer
  have fee : max (funds * feeRate) feeMin = transferFee funds := by
    rw [transferFee_eq_max, feeRate, feeMin, mul_one_div]
  cases apply_eq_ok_iff.mp done with
  | transferred =>
      have debited :
          (Pi.single sender (-(transferFee funds + funds)) : AccountName → ℚ)
            sender = -(transferFee funds + funds) :=
        Pi.single_eq_same sender _
      have uncredited :
          (Pi.single receiver funds : AccountName → ℚ) sender = 0 :=
        Pi.single_eq_of_ne notReceiver _
      have unpaid :
          (Pi.single self (transferFee funds) : AccountName → ℚ) sender = 0 :=
        Pi.single_eq_of_ne notSelf _
      rw [taken, Tables.balance_credit, Tables.balance_credit,
        Tables.balance_credit, debited, uncredited, unpaid, fee]
      ring

theorem feeMin_le_iff : feeMin ≤ funds * feeRate ↔ 1 ≤ funds := by
  rw [feeMin, feeRate]
  constructor
  · intro enough
    linarith
  · intro large
    linarith

/-- The rate alone reaches the stated fee exactly from an amount of 1 on. -/
theorem rate_eq_max_iff :
    funds * feeRate = max (funds * feeRate) feeMin ↔ 1 ≤ funds := by
  rw [left_eq_sup]
  exact feeMin_le_iff

theorem takesMinimum_iff (done : apply self db tx = .ok after) :
    TakesMinimum self db tx.action after ↔ LargeWithdrawal tx.action := by
  constructor
  · intro takes name funds isWithdrawal
    have enough := takes.1 name funds isWithdrawal
    rw [taken_of_withdrawal done isWithdrawal] at enough
    exact feeMin_le_iff.mp enough
  · intro large
    refine ⟨?_, ?_⟩
    · intro name funds isWithdrawal
      rw [taken_of_withdrawal done isWithdrawal]
      exact feeMin_le_iff.mpr (large name funds isWithdrawal)
    · intro sender receiver funds strremark isTransfer notReceiver notSelf
      rw [taken_of_transfer done isTransfer notReceiver notSelf]
      exact le_max_right _ _

/-- In every reachable state a withdrawal and a transfer of the same amount
take the same fee, the stated one, exactly if the amount is at least 1; and a
run takes at least `fee_min` in all its actions exactly if it withdraws no
smaller amount. -/
theorem fees_agree_iff (self : AccountName) :
    (∀ db name receiver funds strremark signers signers' drawn paid,
      Reachable (apply self) Tables.empty db → name ≠ self → receiver ≠ self →
        receiver ≠ name →
        apply self db ⟨signers, .modasset name funds false⟩ = .ok drawn →
        apply self db ⟨signers', .transfer name receiver funds strremark⟩ =
          .ok paid →
          (taken db drawn name funds = taken db paid name funds ∧
              taken db drawn name funds = max (funds * feeRate) feeMin ↔
            1 ≤ funds)) ∧
    ∀ txs,
      (∀ t ∈ history self txs,
        TakesMinimum self t.before t.action.action t.after) ↔
      ∀ t ∈ history self txs, LargeWithdrawal t.action.action := by
  constructor
  · intro db name receiver funds strremark signers signers' drawn paid _
      notSelf _ notReceiver withdrawal payment
    have drawnFee := taken_of_withdrawal withdrawal rfl
    have paidFee := taken_of_transfer payment rfl notReceiver.symm notSelf
    rw [drawnFee, paidFee, and_self]
    exact rate_eq_max_iff
  · intro txs
    constructor
    · intro takes t member
      exact (takesMinimum_iff (step_of_mem_trace member)).mp (takes t member)
    · intro large t member
      exact (takesMinimum_iff (step_of_mem_trace member)).mpr (large t member)

/-- The contract account `1`, a client `2` with 1000 and a client `3`. -/
def clientsRun : List Transaction :=
  savedRun ++ [⟨[1], .createacnt 3 [67]⟩]

/-- For 100 both fees are 1. -/
theorem fees_agree_clientsRun :
    let db := run (apply 1) Tables.empty clientsRun
    let drawn := attempt (apply 1) db ⟨[2], .modasset 2 100 false⟩
    let paid := attempt (apply 1) db ⟨[2], .transfer 2 3 100 []⟩
    taken db drawn 2 100 = taken db paid 2 100 := by
  intro db drawn paid
  have withdrawal :
      apply 1 db ⟨[2], .modasset 2 100 false⟩ = .ok drawn := by
    decide +kernel
  have payment : apply 1 db ⟨[2], .transfer 2 3 100 []⟩ = .ok paid := by
    decide +kernel
  exact (((fees_agree_iff 1).1 db 2 3 100 [] [2] [2] drawn paid
    (reachable_run clientsRun) (by decide) (by decide) (by decide) withdrawal
    payment).mpr (by norm_num)).1

/-- For 1/2 the withdrawal takes 1/200 and the transfer takes 1/100. -/
theorem withdrawal_below_feeMin :
    ¬ ∀ (self : AccountName) (db : Tables) (name receiver : AccountName)
      (funds : ℚ) (strremark : StdString) (signers signers' : List AccountName)
      (drawn paid : Tables),
      Reachable (apply self) Tables.empty db → name ≠ self → receiver ≠ self →
        receiver ≠ name →
        apply self db ⟨signers, .modasset name funds false⟩ = .ok drawn →
        apply self db ⟨signers', .transfer name receiver funds strremark⟩ =
          .ok paid →
          taken db drawn name funds = taken db paid name funds := by
  intro sameFee
  let db := run (apply 1) Tables.empty clientsRun
  let drawn := attempt (apply 1) db ⟨[2], .modasset 2 (1 / 2) false⟩
  let paid := attempt (apply 1) db ⟨[2], .transfer 2 3 (1 / 2) []⟩
  have withdrawal :
      apply 1 db ⟨[2], .modasset 2 (1 / 2) false⟩ = .ok drawn := by
    decide +kernel
  have payment : apply 1 db ⟨[2], .transfer 2 3 (1 / 2) []⟩ = .ok paid := by
    decide +kernel
  have same := sameFee 1 db 2 3 (1 / 2) [] [2] [2] drawn paid
    (reachable_run clientsRun) (by decide) (by decide) (by decide) withdrawal
    payment
  have different :
      taken db drawn 2 (1 / 2) ≠ taken db paid 2 (1 / 2) := by
    decide +kernel
  exact different same

end Bright.Keephand
