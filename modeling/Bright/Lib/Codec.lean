import Mathlib.Data.List.Basic
import Mathlib.Order.Lattice

/-!
# Packing values into a stream and reading them back

A reader takes a value from the front of a stream and leaves the rest.  It
recovers a packing when it reads every packed value whatever follows it
(`Recovers`), and it is canonical when it reads nothing else (`Canonical`).
Both properties are kept when readers run one after the other
(`Recovers.bind`, `Canonical.bind`), so a format built from such parts has
them too.
-/

namespace Bright.Lib

/-- A reader of values of type `α` from a stream of symbols of type `σ`. -/
abbrev Reader (ε σ α : Type) := StateT (List σ) (Except ε) α

namespace Codec

variable {ε σ α β γ : Type}

/-- Every packed value is read back, whatever follows it. -/
def Recovers (pack : α → List σ) (unpack : Reader ε σ α) : Prop :=
  ∀ value rest, unpack.run (pack value ++ rest) = .ok (value, rest)

/-- Only packed values are read. -/
def Canonical (pack : α → List σ) (unpack : Reader ε σ α) : Prop :=
  ∀ stream value rest,
    unpack.run stream = .ok (value, rest) → stream = pack value ++ rest

section Runs

variable {unpack : Reader ε σ α} {continuation : α → Reader ε σ β}
  {stream rest : List σ} {result : β × List σ}

theorem run_bind_of_ok {value : α} (read : unpack.run stream = .ok (value, rest)) :
    (unpack >>= continuation).run stream = (continuation value).run rest := by
  rw [StateT.run_bind, read]
  rfl

theorem run_bind_eq_ok_iff :
    (unpack >>= continuation).run stream = .ok result ↔
      ∃ value rest, unpack.run stream = .ok (value, rest) ∧
        (continuation value).run rest = .ok result := by
  rw [StateT.run_bind]
  cases read : unpack.run stream with
  | error failure => simp [bind, Except.bind]
  | ok pair =>
      obtain ⟨value, rest⟩ := pair
      simp [bind, Except.bind]

theorem run_pure_eq_ok_iff {value : β} :
    (pure value : Reader ε σ β).run stream = .ok result ↔
      result = (value, stream) := by
  constructor
  · intro read
    exact (Except.ok.inj read).symm
  · rintro rfl
    rfl

end Runs

section Rules

variable {pack : α → List σ} {unpack : Reader ε σ α}

/-- No packed value is the beginning of another one. -/
theorem Recovers.eq_of_append_eq (recovers : Recovers pack unpack)
    {first second : α} {afterFirst afterSecond : List σ}
    (same : pack first ++ afterFirst = pack second ++ afterSecond) :
    first = second ∧ afterFirst = afterSecond := by
  have read := recovers first afterFirst
  rw [same, recovers second afterSecond] at read
  simpa [eq_comm] using read

theorem Recovers.injective (recovers : Recovers pack unpack) :
    Function.Injective pack := by
  intro first second same
  have appended : pack first ++ [] = pack second ++ [] := by rw [same]
  exact (recovers.eq_of_append_eq appended).1

/-- A part of the value is packed first and decides how the rest is read. -/
theorem Recovers.bind (recovers : Recovers pack unpack) (part : β → α)
    {packRest : β → List σ} {unpackRest : α → Reader ε σ β}
    (recoversRest : ∀ value rest,
      (unpackRest (part value)).run (packRest value ++ rest) =
        .ok (value, rest)) :
    Recovers (fun value => pack (part value) ++ packRest value)
      (unpack >>= unpackRest) := by
  intro value rest
  rw [List.append_assoc, run_bind_of_ok (recovers (part value) _)]
  exact recoversRest value rest

theorem Canonical.bind (canonical : Canonical pack unpack) (part : β → α)
    {packRest : β → List σ} {unpackRest : α → Reader ε σ β}
    (canonicalRest : ∀ first stream value rest,
      (unpackRest first).run stream = .ok (value, rest) →
        part value = first ∧ stream = packRest value ++ rest) :
    Canonical (fun value => pack (part value) ++ packRest value)
      (unpack >>= unpackRest) := by
  intro stream value rest read
  obtain ⟨first, middle, readFirst, readRest⟩ := run_bind_eq_ok_iff.mp read
  obtain ⟨partIs, middleIs⟩ := canonicalRest first middle value rest readRest
  subst partIs
  rw [canonical stream _ middle readFirst, middleIs, List.append_assoc]

end Rules

end Codec

end Bright.Lib
