import Bright.Lib.Run
import Bright.Lib.Table
import Mathlib.Order.Defs.LinearOrder

/-!
# The parts of eosiolib that the contracts call

A contract action either returns the new tables or aborts, and an aborted
action is rolled back by the chain.  `Abort` lists the causes that the two
contracts can meet: a failed `eosio_assert` with its message, a missing
authority, and the three uniqueness and identity checks of `multi_index`.

`multi_index` is a table keyed by `primary_key`.  Payers, table scopes and
console output do not influence any result and are left out.
-/

namespace Bright.Eosio

open Bright.Lib

/-- `account_name`, a 64-bit code. -/
abbrev AccountName := UInt64

/-- The bytes of a `std::string`, without the terminator. -/
abbrev StdString := List UInt8

instance linearOrderUInt64 : LinearOrder UInt64 where
  le_refl := UInt64.le_refl
  le_trans := fun _ _ _ => UInt64.le_trans
  lt_iff_le_not_ge := fun _ _ => Std.LawfulOrderLT.lt_iff _ _
  le_antisymm := fun _ _ => UInt64.le_antisymm
  le_total := UInt64.le_total
  toDecidableLE := UInt64.decLe
  toDecidableLT := UInt64.decLt
  toDecidableEq := instDecidableEqUInt64

/-- Why an action was aborted. -/
inductive Abort where
  /-- A failed `eosio_assert`. -/
  | assertion (message : String)
  /-- A failed `require_auth`. -/
  | missingAuthority (account : AccountName)
  /-- `emplace` under a primary key that is in use. -/
  | keyInUse
  /-- `modify` of a row that is not in the table. -/
  | rowMissing
  /-- `modify` with an updater that changes the primary key. -/
  | keyChanged
  deriving DecidableEq, Repr

def eosioAssert (condition : Prop) [Decidable condition] (message : String) :
    Except Abort Unit :=
  if condition then .ok () else .error (.assertion message)

/-- `eosio_assert(it != end, message)` followed by the use of `*it`. -/
def assertFound {ρ : Type} (iterator : Option ρ) (message : String) :
    Except Abort ρ :=
  match iterator with
  | some row => .ok row
  | none => .error (.assertion message)

def requireAuth (signers : List AccountName) (account : AccountName) :
    Except Abort Unit :=
  if account ∈ signers then .ok () else .error (.missingAuthority account)

abbrev MultiIndex {ρ : Type} (primaryKey : ρ → UInt64) : Type :=
  Table primaryKey

namespace MultiIndex

variable {ρ : Type} {primaryKey : ρ → UInt64}

def emplace (table : MultiIndex primaryKey) (row : ρ) :
    Except Abort (MultiIndex primaryKey) :=
  if table.find (primaryKey row) = none then
    .ok (table.put row)
  else
    .error .keyInUse

def modify (table : MultiIndex primaryKey) (object : ρ) (updater : ρ → ρ) :
    Except Abort (MultiIndex primaryKey) :=
  match table.find (primaryKey object) with
  | none => .error .rowMissing
  | some row =>
      if primaryKey (updater row) = primaryKey object then
        .ok (table.put (updater row))
      else
        .error .keyChanged

end MultiIndex

/-! ### When the checks pass -/

@[simp]
theorem eosioAssert_eq_ok_iff {condition : Prop} [Decidable condition]
    {message : String} {result : Unit} :
    eosioAssert condition message = .ok result ↔ condition := by
  by_cases holds : condition <;> simp [eosioAssert, holds]

@[simp]
theorem eosioAssert_eq_error_iff {condition : Prop} [Decidable condition]
    {message : String} {abort : Abort} :
    eosioAssert condition message = .error abort ↔
      ¬ condition ∧ abort = .assertion message := by
  by_cases holds : condition <;>
    simp [eosioAssert, holds, eq_comm]

@[simp]
theorem assertFound_eq_ok_iff {ρ : Type} {iterator : Option ρ}
    {message : String} {row : ρ} :
    assertFound iterator message = .ok row ↔ iterator = some row := by
  cases iterator <;> simp [assertFound]

@[simp]
theorem assertFound_eq_error_iff {ρ : Type} {iterator : Option ρ}
    {message : String} {abort : Abort} :
    assertFound iterator message = .error abort ↔
      iterator = none ∧ abort = .assertion message := by
  cases iterator <;> simp [assertFound, eq_comm]

@[simp]
theorem requireAuth_eq_ok_iff {signers : List AccountName}
    {account : AccountName} {result : Unit} :
    requireAuth signers account = .ok result ↔ account ∈ signers := by
  by_cases signed : account ∈ signers <;> simp [requireAuth, signed]

@[simp]
theorem requireAuth_eq_error_iff {signers : List AccountName}
    {account : AccountName} {abort : Abort} :
    requireAuth signers account = .error abort ↔
      account ∉ signers ∧ abort = .missingAuthority account := by
  by_cases signed : account ∈ signers <;>
    simp [requireAuth, signed, eq_comm]

namespace MultiIndex

variable {ρ : Type} {primaryKey : ρ → UInt64}
  {table after : MultiIndex primaryKey} {object row : ρ} {updater : ρ → ρ}

@[simp]
theorem emplace_eq_ok_iff :
    table.emplace row = .ok after ↔
      table.find (primaryKey row) = none ∧ table.put row = after := by
  by_cases fresh : table.find (primaryKey row) = none <;>
    simp [emplace, fresh]

@[simp]
theorem emplace_eq_error_iff {abort : Abort} :
    table.emplace row = .error abort ↔
      table.find (primaryKey row) ≠ none ∧ abort = .keyInUse := by
  by_cases fresh : table.find (primaryKey row) = none <;>
    simp [emplace, fresh, eq_comm]

/-- Modifying a row of the table, by an updater that keeps its key. -/
theorem modify_of_find (found : table.find (primaryKey object) = some row)
    (keeps : primaryKey (updater row) = primaryKey object) :
    table.modify object updater = .ok (table.put (updater row)) := by
  simp [modify, found, keeps]

end MultiIndex

end Bright.Eosio
