import Bright.Keephand.Effects
import Bright.Lib.Ledger
import Mathlib.Tactic.Ring

/-!
# The contract as a ledger

What `keephand` is for is stated on a `Book`: creating and deleting an account
opens and closes it, and every other action moves funds, `movement`, between
the accounts it names.  `intended` is that ledger.

The asset table refines a ledger that differs from `intended` in one place
(`book_apply`).  A withdrawal by an account other than `self` sets the row of
`self` to the fee instead of adding the fee to it, and a withdrawal by `self`
drops the fee.  `feeLoss` is what is lost this way, and
`book_eq_intended_iff` says that the refinement of `intended` fails exactly
where something is lost.
-/

namespace Bright.Keephand

open Bright.Lib Bright.Eosio

/-- The asset table as a book of accounts. -/
def Tables.book (db : Tables) : Book AccountName ℚ where
  accounts := db.userasset.keys
  balance := db.balance
  closed := fun _ absent => Tables.balance_of_notMem absent

@[simp]
theorem balance_book (db : Tables) : db.book.balance = db.balance := rfl

theorem total_book (db : Tables) : db.book.total = db.total :=
  (Table.sumBy_eq_sum_keys db.userasset StAsset.funds).symm

/-- What an action is meant to add to the balance of each account. -/
def movement (self : AccountName) : Action → AccountName → ℚ
  | .modasset name funds true => Pi.single name funds
  | .modasset name funds false =>
      Pi.single name (-(funds + funds * feeRate)) +
        Pi.single self (funds * feeRate)
  | .transfer sender receiver funds _ =>
      Pi.single sender (-(funds + transferFee funds)) +
        Pi.single receiver funds + Pi.single self (transferFee funds)
  | _ => 0

/-- What an action does to the balance of each account. -/
def entry (self : AccountName) (action : Action) (account : AccountName) :
    Entry ℚ :=
  match action with
  | .modasset name funds false =>
      if account = self ∧ name ≠ self then
        .set (funds * feeRate)
      else
        .add ((Pi.single name (-(funds + funds * feeRate)) :
          AccountName → ℚ) account)
  | action => .add (movement self action account)

/-- The ledger that the contract is for. -/
def intended (self : AccountName) (book : Book AccountName ℚ) :
    Action → Book AccountName ℚ
  | .createacnt name _ => book.openAccount name
  | .deleteacnt name => book.closeAccount name
  | action => book.record fun account => .add (movement self action account)

/-- The ledger that the contract keeps. -/
def kept (self : AccountName) (book : Book AccountName ℚ) :
    Action → Book AccountName ℚ
  | .createacnt name _ => book.openAccount name
  | .deleteacnt name => book.closeAccount name
  | action => book.record (entry self action)

/-- What disappears from the row of `self` in an action. -/
def feeLoss (self : AccountName) (db : Tables) : Action → ℚ
  | .modasset name funds false =>
      if name = self then funds * feeRate else db.balance self
  | _ => 0

/-- Whether an action moves funds, rather than opening or closing an
account. -/
def Action.movesFunds : Action → Bool
  | .modasset _ _ _ => true
  | .transfer _ _ _ _ => true
  | _ => false

variable {self account : AccountName} {db after : Tables} {tx : Transaction}

theorem entry_of_ne_self (action : Action) (other : account ≠ self) :
    entry self action account = .add (movement self action account) := by
  cases action with
  | modasset name funds bsaving =>
      cases bsaving with
      | true => rfl
      | false =>
          simp [entry, movement, other]
  | createacnt name pubkey => rfl
  | deleteacnt name => rfl
  | transfer sender receiver funds strremark => rfl

/-- Every account moves as intended, except that `self` loses `feeLoss`. -/
theorem entry_apply (action : Action) (account : AccountName) :
    (entry self action account).apply (db.balance account) =
      db.balance account + (movement self action account -
        (Pi.single self (feeLoss self db action) : AccountName → ℚ)
          account) := by
  by_cases other : account = self
  · subst account
    cases action with
    | modasset name funds bsaving =>
        cases bsaving with
        | true => simp [entry, Entry.apply, feeLoss]
        | false =>
            by_cases own : name = self
            · subst name
              simp [entry, Entry.apply, movement, feeLoss]
              ring
            · have untouched : self ≠ name := fun same => own same.symm
              simp [entry, Entry.apply, movement, feeLoss, own, untouched]
    | createacnt name pubkey => simp [entry, Entry.apply, feeLoss]
    | deleteacnt name => simp [entry, Entry.apply, feeLoss]
    | transfer sender receiver funds strremark =>
        simp [entry, Entry.apply, feeLoss]
  · rw [entry_of_ne_self action other, Entry.apply,
      Pi.single_eq_of_ne other, sub_zero]

private theorem book_eq_record {entries : AccountName → Entry ℚ}
    (sameKeys : after.userasset.keys = db.userasset.keys)
    (values : ∀ account ∈ db.userasset.keys,
      after.balance account = (entries account).apply (db.balance account)) :
    after.book = db.book.record entries := by
  apply Book.ext
  · exact sameKeys
  · funext account
    by_cases member : account ∈ db.userasset.keys
    · rw [Book.balance_record entries member]
      exact values account member
    · rw [(db.book.record entries).closed account member]
      exact Tables.balance_of_notMem (sameKeys ▸ member)

/-- The contract keeps the ledger `kept`. -/
theorem book_apply (done : apply self db tx = .ok after) :
    after.book = kept self db.book tx.action := by
  cases apply_eq_ok_iff.mp done with
  | @created signers name pubkey _ _ _ _ _ =>
      apply Book.ext
      · exact Table.keys_put db.userasset ⟨name, 0⟩
      · funext account
        have opened :
            (Tables.mk (db.userinfo.put ⟨name, pubkey⟩)
              (db.userasset.put ⟨name, 0⟩)).balance account =
              if account = name then 0 else db.balance account :=
          Tables.balance_setFunds
        simp [kept, opened, Function.update_apply]
  | @deleted signers name _ _ _ =>
      apply Book.ext
      · exact Table.keys_erase db.userasset name
      · funext account
        simp only [kept, balance_book, Book.balance_closeAccount,
          Function.update_apply, Tables.balance, Table.find_erase]
        split_ifs
        · rfl
        · rfl
  | @saved signers name funds _ _ _ _ funded =>
      apply book_eq_record (Tables.keys_credit funded)
      intro account _
      exact Tables.balance_credit
  | @withdrew signers name funds _ _ _ _ funded _ owner =>
      have fundedStill :
          name ∈ (db.setFunds self (funds * feeRate)).userasset.keys := by
        rwa [Tables.keys_setFunds owner]
      apply book_eq_record
      · rw [Tables.keys_setFunds fundedStill, Tables.keys_setFunds owner]
      · intro account _
        rw [Tables.balance_setFunds, Tables.balance_setFunds]
        by_cases drawn : account = name
        · subst account
          have debited : ¬(name = self ∧ name ≠ self) := fun both =>
            both.2 both.1
          rw [if_pos rfl]
          simp only [entry, if_neg debited, Entry.apply, Pi.single_eq_same]
          ring
        · rw [if_neg drawn]
          by_cases collected : account = self
          · subst account
            simp [entry, Entry.apply, Ne.symm drawn]
          · simp [entry, Entry.apply, collected, drawn]
  | @transferred signers sender receiver funds strremark _ _ _ _ _ funded _
      receiverFunded _ owner _ =>
      have receiverStill : receiver ∈
          (db.credit sender (-(transferFee funds + funds))).userasset.keys := by
        rwa [Tables.keys_credit funded]
      have ownerStill : self ∈
          ((db.credit sender (-(transferFee funds + funds))).credit
            receiver funds).userasset.keys := by
        rwa [Tables.keys_credit receiverStill, Tables.keys_credit funded]
      apply book_eq_record
      · rw [Tables.keys_credit ownerStill, Tables.keys_credit receiverStill,
          Tables.keys_credit funded]
      · intro account _
        simp only [Tables.balance_credit, entry, Entry.apply, movement,
          Pi.add_apply, add_comm (transferFee funds) funds]
        ring

theorem balance_createacnt {signers : List AccountName} {name : AccountName}
    {pubkey : StdString}
    (done : apply self db ⟨signers, .createacnt name pubkey⟩ = .ok after) :
    after.balance = Function.update db.balance name 0 :=
  congrArg Book.balance (book_apply done)

theorem balance_deleteacnt {signers : List AccountName} {name : AccountName}
    (done : apply self db ⟨signers, .deleteacnt name⟩ = .ok after) :
    after.balance = Function.update db.balance name 0 :=
  congrArg Book.balance (book_apply done)

theorem kept_of_movesFunds {book : Book AccountName ℚ} {action : Action}
    (moves : action.movesFunds) :
    kept self book action = book.record (entry self action) := by
  cases action with
  | createacnt name pubkey => cases moves
  | deleteacnt name => cases moves
  | modasset name funds bsaving => rfl
  | transfer sender receiver funds strremark => rfl

theorem intended_of_movesFunds {book : Book AccountName ℚ} {action : Action}
    (moves : action.movesFunds) :
    intended self book action =
      book.record fun account => .add (movement self action account) := by
  cases action with
  | createacnt name pubkey => cases moves
  | deleteacnt name => cases moves
  | modasset name funds bsaving => rfl
  | transfer sender receiver funds strremark => rfl

/-- The balances after an action that moves funds. -/
theorem balance_apply (done : apply self db tx = .ok after)
    (moves : tx.action.movesFunds) {account : AccountName}
    (member : account ∈ db.userasset.keys) :
    after.balance account =
      (entry self tx.action account).apply (db.balance account) := by
  have recorded : after.book = db.book.record (entry self tx.action) := by
    rw [book_apply done, kept_of_movesFunds moves]
  calc
    after.balance account = after.book.balance account := rfl
    _ = (db.book.record (entry self tx.action)).balance account := by
      rw [recorded]
    _ = (entry self tx.action account).apply (db.balance account) :=
      Book.balance_record (entry self tx.action) member

/-- The keys of the asset table after an action that moves funds. -/
theorem keys_apply (done : apply self db tx = .ok after)
    (moves : tx.action.movesFunds) :
    after.userasset.keys = db.userasset.keys := by
  have recorded := congrArg Book.accounts (book_apply done)
  rw [kept_of_movesFunds moves] at recorded
  exact recorded

/-- The contract account is open whenever an action can lose a fee. -/
theorem self_mem_of_feeLoss (done : apply self db tx = .ok after)
    (lost : feeLoss self db tx.action ≠ 0) : self ∈ db.userasset.keys := by
  cases apply_eq_ok_iff.mp done with
  | withdrew _ _ _ _ _ _ owner => exact owner
  | created => exact absurd rfl lost
  | deleted => exact absurd rfl lost
  | saved => exact absurd rfl lost
  | transferred => exact absurd rfl lost

/-- The contract refines the intended ledger in every action that loses no
fee, and only in those. -/
theorem book_eq_intended_iff (done : apply self db tx = .ok after) :
    after.book = intended self db.book tx.action ↔
      feeLoss self db tx.action = 0 := by
  by_cases moves : tx.action.movesFunds
  · rw [intended_of_movesFunds moves]
    constructor
    · intro same
      by_contra lost
      have owner := self_mem_of_feeLoss done lost
      have balances := congrArg (fun book => book.balance self) same
      have actual := balance_apply done moves owner
      have meant :
          (db.book.record fun account =>
            .add (movement self tx.action account)).balance self =
            db.balance self + movement self tx.action self :=
        Book.balance_record _ owner
      simp only [balance_book, meant] at balances
      rw [actual, entry_apply, Pi.single_eq_same] at balances
      exact lost (by linarith)
    · intro nothingLost
      apply book_eq_record (keys_apply done moves)
      intro account member
      rw [balance_apply done moves member, entry_apply, nothingLost,
        Pi.single_zero, Pi.zero_apply, sub_zero]
      rfl
  · obtain ⟨signers, action⟩ := tx
    cases action with
    | createacnt name pubkey => simp [book_apply done, kept, intended, feeLoss]
    | deleteacnt name => simp [book_apply done, kept, intended, feeLoss]
    | modasset name funds bsaving => exact absurd rfl moves
    | transfer sender receiver funds strremark => exact absurd rfl moves

end Bright.Keephand
