import Mathlib.Algebra.BigOperators.Group.Finset.Basic
import Mathlib.Algebra.BigOperators.Group.List.Basic
import Mathlib.Algebra.BigOperators.Pi

/-!
# Ledgers of accounts

A `Book` is a finite set of open accounts with a balance for each of them.  An
account is written through an `Entry`, which either adds an amount to its
balance or sets the balance to a new value.

Sequences of additions are insensitive to their order.  A sequence with a
`set` in it ends in a value that does not depend on where it started: the
amount of the last `set` and the additions that follow it, which `fixed`
computes from the entries alone.
-/

namespace Bright.Lib

/-! ### Entries of one account -/

/-- What one posting does to the balance of one account. -/
inductive Entry (M : Type*) where
  | add (amount : M)
  | set (amount : M)
  deriving DecidableEq, Repr

namespace Entry

variable {M : Type*}

/-- The amount written on the entry. -/
def amount : Entry M → M
  | .add amount => amount
  | .set amount => amount

/-- The balance that the entry leaves. -/
def apply [Add M] : Entry M → M → M
  | .add amount, value => value + amount
  | .set amount, _ => amount

/-- The value after a sequence of entries. -/
def settle [Add M] (entries : List (Entry M)) (start : M) : M :=
  entries.foldl (fun value entry => entry.apply value) start

variable [AddCommMonoid M]

/-- The amount of the last `set` together with the additions that follow it;
`none` if there is no `set`. -/
def fixed : List (Entry M) → Option M
  | [] => none
  | .add _ :: rest => fixed rest
  | .set amount :: rest =>
      some ((fixed rest).getD (amount + (rest.map Entry.amount).sum))

theorem settle_cons (entry : Entry M) (rest : List (Entry M)) (start : M) :
    settle (entry :: rest) start = settle rest (entry.apply start) := rfl

theorem settle_eq (entries : List (Entry M)) (start : M) :
    settle entries start =
      (fixed entries).getD (start + (entries.map Entry.amount).sum) := by
  induction entries generalizing start with
  | nil => simp [settle, fixed]
  | cons entry rest inductionHypothesis =>
      rw [settle_cons, inductionHypothesis]
      cases entry with
      | add amount => simp [fixed, apply, Entry.amount, add_assoc]
      | set amount => simp [fixed, apply]

theorem fixed_eq_none_iff {entries : List (Entry M)} :
    fixed entries = none ↔ ∀ entry ∈ entries, ∃ amount, entry = .add amount := by
  induction entries with
  | nil => simp [fixed]
  | cons entry rest inductionHypothesis =>
      cases entry with
      | add amount => simp [fixed, inductionHypothesis]
      | set amount => simp [fixed]

theorem fixed_eq_none_of_perm {entries reordered : List (Entry M)}
    (permutation : entries.Perm reordered) (none : fixed entries = none) :
    fixed reordered = .none := by
  rw [fixed_eq_none_iff] at none ⊢
  exact fun entry member => none entry (permutation.mem_iff.mpr member)

/-- Where no `set` follows, the last one fixes the result. -/
theorem fixed_append_set (earlier : List (Entry M)) (amount : M)
    {later : List (Entry M)} (unset : fixed later = none) :
    fixed (earlier ++ .set amount :: later) =
      some (amount + (later.map Entry.amount).sum) := by
  induction earlier with
  | nil => simp [fixed, unset]
  | cons entry rest inductionHypothesis =>
      cases entry with
      | add first => exact inductionHypothesis
      | set first => simp [fixed, inductionHypothesis]

/-- Two orders of the same entries settle to the same value exactly when they
agree on the part that no start value reaches. -/
theorem settle_eq_settle_iff {entries reordered : List (Entry M)}
    (permutation : entries.Perm reordered) (start : M) :
    settle entries start = settle reordered start ↔
      fixed entries = fixed reordered := by
  rw [settle_eq, settle_eq]
  cases first : fixed entries with
  | none =>
      rw [fixed_eq_none_of_perm permutation first]
      simp [(permutation.map Entry.amount).sum_eq]
  | some value =>
      cases second : fixed reordered with
      | none =>
          rw [fixed_eq_none_of_perm permutation.symm second] at first
          cases first
      | some other => simp

end Entry

/-! ### Books -/

/-- A finite set of open accounts with their balances.  An account that is not
open has balance zero. -/
@[ext]
structure Book (A M : Type*) [Zero M] where
  accounts : Finset A
  balance : A → M
  closed : ∀ account, account ∉ accounts → balance account = 0

namespace Book

variable {A M : Type*} [DecidableEq A]

section Operations

variable [AddMonoid M]

/-- Open an account with balance zero. -/
def openAccount (book : Book A M) (account : A) : Book A M where
  accounts := insert account book.accounts
  balance := Function.update book.balance account 0
  closed := by
    intro other absent
    simp only [Finset.mem_insert, not_or] at absent
    rw [Function.update_of_ne absent.1, book.closed other absent.2]

/-- Close an account together with its balance. -/
def closeAccount (book : Book A M) (account : A) : Book A M where
  accounts := book.accounts.erase account
  balance := Function.update book.balance account 0
  closed := by
    intro other absent
    by_cases same : other = account
    · rw [same, Function.update_self]
    · rw [Function.update_of_ne same]
      apply book.closed
      simpa [same] using absent

/-- Write an entry on every open account. -/
def record (book : Book A M) (entries : A → Entry M) : Book A M where
  accounts := book.accounts
  balance := fun account =>
    if account ∈ book.accounts then
      (entries account).apply (book.balance account)
    else
      0
  closed := fun _ absent => if_neg absent

@[simp]
theorem accounts_openAccount (book : Book A M) (account : A) :
    (book.openAccount account).accounts = insert account book.accounts := rfl

@[simp]
theorem balance_openAccount (book : Book A M) (account : A) :
    (book.openAccount account).balance =
      Function.update book.balance account 0 := rfl

@[simp]
theorem accounts_closeAccount (book : Book A M) (account : A) :
    (book.closeAccount account).accounts = book.accounts.erase account := rfl

@[simp]
theorem balance_closeAccount (book : Book A M) (account : A) :
    (book.closeAccount account).balance =
      Function.update book.balance account 0 := rfl

@[simp]
theorem accounts_record (book : Book A M) (entries : A → Entry M) :
    (book.record entries).accounts = book.accounts := rfl

theorem balance_record {book : Book A M} (entries : A → Entry M)
    {account : A} (member : account ∈ book.accounts) :
    (book.record entries).balance account =
      (entries account).apply (book.balance account) :=
  if_pos member

theorem accounts_records (book : Book A M)
    (postings : List (A → Entry M)) :
    (postings.foldl record book).accounts = book.accounts := by
  induction postings generalizing book with
  | nil => rfl
  | cons entries rest inductionHypothesis =>
      rw [List.foldl_cons, inductionHypothesis, accounts_record]

/-- After a sequence of postings every open account has settled its own
entries. -/
theorem balance_records {book : Book A M}
    (postings : List (A → Entry M)) {account : A}
    (member : account ∈ book.accounts) :
    (postings.foldl record book).balance account =
      Entry.settle (postings.map fun entries => entries account)
        (book.balance account) := by
  induction postings generalizing book with
  | nil => rfl
  | cons entries rest inductionHypothesis =>
      rw [List.foldl_cons,
        inductionHypothesis ((accounts_record book entries).symm ▸ member),
        balance_record entries member, List.map_cons]
      rfl

end Operations

section Totals

variable [AddCommGroup M]

/-- The sum of all balances. -/
def total (book : Book A M) : M :=
  ∑ account ∈ book.accounts, book.balance account

theorem total_openAccount {book : Book A M} {account : A}
    (fresh : account ∉ book.accounts) :
    (book.openAccount account).total = book.total := by
  rw [total, total, accounts_openAccount, Finset.sum_insert fresh,
    balance_openAccount, Function.update_self, zero_add]
  apply Finset.sum_congr rfl
  intro other member
  have different : other ≠ account := fun same => fresh (same ▸ member)
  exact Function.update_of_ne different _ _

theorem total_closeAccount {book : Book A M} {account : A}
    (member : account ∈ book.accounts) :
    (book.closeAccount account).total =
      book.total - book.balance account := by
  rw [total, total, accounts_closeAccount, balance_closeAccount,
    eq_sub_iff_add_eq, ← Finset.sum_erase_add _ _ member]
  congr 1
  apply Finset.sum_congr rfl
  intro other otherMember
  exact Function.update_of_ne (Finset.ne_of_mem_erase otherMember) _ _

/-- If every open account moves by `change`, the total moves by the sum of the
changes. -/
theorem total_record {book : Book A M} {entries : A → Entry M} {change : A → M}
    (moved : ∀ account ∈ book.accounts,
      (entries account).apply (book.balance account) =
        book.balance account + change account) :
    (book.record entries).total =
      book.total + ∑ account ∈ book.accounts, change account := by
  rw [total, total, accounts_record, ← Finset.sum_add_distrib]
  apply Finset.sum_congr rfl
  intro account member
  rw [balance_record entries member, moved account member]

/-- A change of a single open account. -/
theorem sum_single {accounts : Finset A} {account : A} (amount : M)
    (member : account ∈ accounts) :
    ∑ other ∈ accounts, (Pi.single account amount : A → M) other = amount := by
  rw [Finset.sum_pi_single', if_pos member]

end Totals

end Book

end Bright.Lib
