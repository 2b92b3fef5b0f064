import Bright.Keephand.Ledger

/-!
# Invariants of the two tables

Every reachable state is `Valid`: the two tables hold the same account names,
all of them positive, and no row has negative funds.  Agreement of the tables
makes several assertions of the contract dead, and it decides when a
withdrawal can be refused.
-/

namespace Bright.Keephand

open Bright.Lib Bright.Eosio

/-- No row of the asset table has negative funds. -/
def Tables.Solvent (db : Tables) : Prop :=
  ∀ row ∈ db.userasset.rows, 0 ≤ row.funds

/-- The invariant of the contract. -/
structure Tables.Valid (db : Tables) : Prop where
  sameNames : db.userinfo.keys = db.userasset.keys
  namesPositive : ∀ name ∈ db.userinfo.keys, 0 < name
  balanceNonneg : ∀ account, 0 ≤ db.balance account

variable {self : AccountName} {db after : Tables} {tx : Transaction}

theorem valid_empty : Tables.empty.Valid where
  sameNames := rfl
  namesPositive := by
    intro name member
    cases member
  balanceNonneg := fun _ => le_refl _

private theorem nonneg_setFunds {name : AccountName} {funds : ℚ}
    (before : ∀ account, 0 ≤ db.balance account) (written : 0 ≤ funds)
    (account : AccountName) : 0 ≤ (db.setFunds name funds).balance account := by
  rw [Tables.balance_setFunds]
  split_ifs
  · exact written
  · exact before account

theorem nonneg_credit {name : AccountName} {amount : ℚ}
    (before : ∀ account, 0 ≤ db.balance account)
    (written : 0 ≤ db.balance name + amount) (account : AccountName) :
    0 ≤ (db.credit name amount).balance account :=
  nonneg_setFunds before written account

theorem feeRate_pos : 0 < feeRate := by
  norm_num [feeRate]

theorem transferFee_pos {funds : ℚ} : 0 < transferFee funds := by
  have minimum : (0 : ℚ) < feeMin := by norm_num [feeMin]
  unfold transferFee
  split_ifs with small
  · exact minimum
  · exact lt_of_lt_of_le minimum (not_lt.mp small)

/-- Every successful action keeps the invariant. -/
theorem valid_apply (valid : db.Valid) (done : apply self db tx = .ok after) :
    after.Valid := by
  have solvent := valid.balanceNonneg
  cases apply_eq_ok_iff.mp done with
  | @created signers name pubkey positive _ _ _ _ =>
      have userNames :
          (db.userinfo.put ⟨name, pubkey⟩).keys =
            insert name db.userinfo.keys :=
        Table.keys_put db.userinfo ⟨name, pubkey⟩
      have assetNames :
          (db.userasset.put ⟨name, 0⟩).keys =
            insert name db.userasset.keys :=
        Table.keys_put db.userasset ⟨name, 0⟩
      refine ⟨?_, ?_, ?_⟩
      · rw [userNames, assetNames, valid.sameNames]
      · intro other member
        rw [userNames] at member
        rcases Finset.mem_insert.mp member with same | old
        · exact same ▸ positive
        · exact valid.namesPositive other old
      · exact fun account => nonneg_setFunds solvent (le_refl 0) account
  | @deleted signers name _ _ _ =>
      refine ⟨?_, ?_, ?_⟩
      · rw [Table.keys_erase, Table.keys_erase, valid.sameNames]
      · intro other member
        rw [Table.keys_erase] at member
        exact valid.namesPositive other (Finset.mem_of_mem_erase member)
      · intro account
        rw [balance_deleteacnt done, Function.update_apply]
        split_ifs
        · exact le_refl 0
        · exact solvent account
  | @saved signers name funds _ fundsPositive _ _ funded =>
      refine ⟨?_, valid.namesPositive, ?_⟩
      · rw [Tables.keys_credit funded]
        exact valid.sameNames
      · have written : 0 ≤ db.balance name + funds :=
          add_nonneg (solvent name) fundsPositive.le
        exact nonneg_credit solvent written
  | @withdrew signers name funds _ fundsPositive _ _ funded enough owner =>
      refine ⟨?_, valid.namesPositive, ?_⟩
      · rw [keys_apply done rfl]
        exact valid.sameNames
      · have fee : 0 ≤ funds * feeRate :=
          mul_nonneg fundsPositive.le feeRate_pos.le
        exact nonneg_setFunds (nonneg_setFunds solvent fee) enough
  | @transferred signers sender receiver funds _ _ _ _ _ _ _ enough _
      receiverSolvent _ ownerSolvent =>
      refine ⟨?_, valid.namesPositive, ?_⟩
      · rw [keys_apply done rfl]
        exact valid.sameNames
      · have written :
            0 ≤ db.balance sender + -(transferFee funds + funds) := by
          linarith
        exact nonneg_credit
          (nonneg_credit (nonneg_credit solvent written) receiverSolvent)
          ownerSolvent

theorem valid_of_reachable (reached : Reachable (apply self) Tables.empty db) :
    db.Valid :=
  reachable_induction valid_empty
    (fun _ _ _ valid done => valid_apply valid done) reached

theorem valid_run (self : AccountName) (txs : List Transaction) :
    (run (apply self) Tables.empty txs).Valid :=
  valid_of_reachable (reachable_run txs)

/-- The successful actions of a run from empty tables. -/
abbrev history (self : AccountName) (txs : List Transaction) :
    List (Transition Tables Transaction) :=
  trace (apply self) Tables.empty txs

theorem valid_of_mem_history {txs : List Transaction}
    {t : Transition Tables Transaction} (member : t ∈ history self txs) :
    t.before.Valid :=
  valid_of_reachable (reachable_before_of_mem_trace member)

/-- A contract account `1` with a client `2` that has saved 1000. -/
def savedRun : List Transaction :=
  [⟨[1], .createacnt 1 [65]⟩, ⟨[1], .createacnt 2 [66]⟩,
    ⟨[2], .modasset 2 1000 true⟩]

/-! ### Solvency -/

/-- In no reachable state does a row of `userasset` have negative funds. -/
theorem userasset_solvent (self : AccountName) (txs : List Transaction) :
    (run (apply self) Tables.empty txs).Solvent := by
  intro row member
  have found := Table.find_of_mem member
  rw [← Tables.balance_of_find found]
  exact (valid_run self txs).balanceNonneg _

end Bright.Keephand
