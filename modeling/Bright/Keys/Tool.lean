import Bright.Keys.PrivateKey
import Bright.Keys.PublicKey

/-!
# The key generator

The tool hashes each of its arguments to a secret and prints the secret and its
public key as text.  The point of the curve that belongs to a secret is computed
by libraries outside of this repository; that may throw, which ends the tool.

Whatever is printed reads back as the key of the argument before it
(`PrintsKeysOf`).
-/

namespace Bright.Keys

open Bright.Fc
open Bright.Eosio (StdString)

/-- The lines that were written, and the exception that ended the tool. -/
structure Output where
  lines : List StdString
  thrown : Option Exception

variable (sha256 : List UInt8 → FixedArray 32)
  (ripemd160 : List UInt8 → FixedArray 20)
  (serializePoint : Suite → FixedArray 32 → Except Exception (FixedArray 33))

/-- `private_key::regenerate` for a K1 key. -/
def regenerate (data : FixedArray 32) : PrivateKey := ⟨.k1, data⟩

/-- `private_key::get_public_key`; the suite stays. -/
def getPublicKey (key : PrivateKey) : Except Exception PublicKey := do
  let data ← serializePoint key.suite key.data
  return ⟨key.suite, data⟩

def seedLine (seed : StdString) : StdString := literal "seed: " ++ seed

def privateLine (key : PrivateKey) : StdString :=
  literal "UOS private key: " ++ privateKeyString sha256 ripemd160 key

def publicLine (key : PublicKey) : StdString :=
  literal "UOS public key: " ++ publicKeyString ripemd160 key

/-- The loop of `main` with the calls of `generatekey`, over the arguments. -/
def uoskey : List StdString → Output
  | [] => ⟨[], none⟩
  | seed :: rest =>
      let key := regenerate (sha256 seed)
      let printed := [seedLine seed, privateLine sha256 ripemd160 key]
      match getPublicKey serializePoint key with
      | .error thrown => ⟨printed, some thrown⟩
      | .ok publicKey =>
          let later := uoskey rest
          { later with
            lines := printed ++ publicLine ripemd160 publicKey :: later.lines }

/-- The three lines of an argument: the texts in them are read as the secret that
the argument hashes to and as its public key. -/
def PrintsKeysOf (seed : StdString) (block : List StdString) : Prop :=
  ∃ privateText publicText publicKey,
    block = [seedLine seed, literal "UOS private key: " ++ privateText,
      literal "UOS public key: " ++ publicText] ∧
    parsePrivateKey sha256 ripemd160 privateText =
      .ok (regenerate (sha256 seed)) ∧
    getPublicKey serializePoint (regenerate (sha256 seed)) = .ok publicKey ∧
    parsePublicKey ripemd160 publicText = .ok publicKey

theorem uoskey_cons_ok {seed : StdString} {publicKey : PublicKey}
    (made : getPublicKey serializePoint (regenerate (sha256 seed)) = .ok publicKey)
    (rest : List StdString) :
    uoskey sha256 ripemd160 serializePoint (seed :: rest) =
      ⟨[seedLine seed, privateLine sha256 ripemd160 (regenerate (sha256 seed)),
          publicLine ripemd160 publicKey] ++
          (uoskey sha256 ripemd160 serializePoint rest).lines,
        (uoskey sha256 ripemd160 serializePoint rest).thrown⟩ := by
  simp [uoskey, made]

theorem uoskey_cons_error {seed : StdString} {thrown : Exception}
    (failed : getPublicKey serializePoint (regenerate (sha256 seed)) =
      .error thrown) (rest : List StdString) :
    uoskey sha256 ripemd160 serializePoint (seed :: rest) =
      ⟨[seedLine seed, privateLine sha256 ripemd160 (regenerate (sha256 seed))],
        some thrown⟩ := by
  simp [uoskey, failed]

/-- The tool prints the lines of its arguments in their order, up to the first
argument whose point cannot be computed, of which it prints the secret. -/
theorem uoskey_output (args : List StdString) :
    ∃ done blocks,
      List.Forall₂ (PrintsKeysOf sha256 ripemd160 serializePoint) done blocks ∧
      ((done = args ∧ uoskey sha256 ripemd160 serializePoint args =
          ⟨blocks.flatten, none⟩) ∨
        ∃ seed rest thrown privateText, args = done ++ seed :: rest ∧
          getPublicKey serializePoint (regenerate (sha256 seed)) = .error thrown ∧
          parsePrivateKey sha256 ripemd160 privateText =
            .ok (regenerate (sha256 seed)) ∧
          uoskey sha256 ripemd160 serializePoint args =
            ⟨blocks.flatten ++
              [seedLine seed, literal "UOS private key: " ++ privateText],
              some thrown⟩) := by
  induction args with
  | nil => exact ⟨[], [], List.Forall₂.nil, Or.inl ⟨rfl, rfl⟩⟩
  | cons seed rest inductionHypothesis =>
      have readBack := parsePrivateKey_privateKeyString sha256 ripemd160
        (regenerate (sha256 seed))
      cases made : getPublicKey serializePoint (regenerate (sha256 seed)) with
      | error thrown =>
          refine ⟨[], [], List.Forall₂.nil, Or.inr ⟨seed, rest, thrown, _, rfl,
            made, readBack, ?_⟩⟩
          rw [uoskey_cons_error sha256 ripemd160 serializePoint made]
          rfl
      | ok publicKey =>
          obtain ⟨done, blocks, printed, outcome⟩ := inductionHypothesis
          have first : PrintsKeysOf sha256 ripemd160 serializePoint seed
              [seedLine seed,
                privateLine sha256 ripemd160 (regenerate (sha256 seed)),
                publicLine ripemd160 publicKey] :=
            ⟨_, _, publicKey, rfl, readBack, made,
              parsePublicKey_publicKeyString ripemd160 publicKey⟩
          have step := uoskey_cons_ok sha256 ripemd160 serializePoint made rest
          refine ⟨seed :: done, _ :: blocks, List.Forall₂.cons first printed, ?_⟩
          rcases outcome with ⟨rfl, lines⟩ |
            ⟨stopped, later, thrown, text, rfl, failed, read, lines⟩
          · left
            rw [step, lines]
            exact ⟨rfl, rfl⟩
          · right
            refine ⟨stopped, later, thrown, text, rfl, failed, read, ?_⟩
            rw [step, lines]
            simp

end Bright.Keys
