/-
# Signed images

`attest_emodule` with the public key that is built into the manager. The key is the compressed
point `ATTEST_PUB_KEY`; with its point `keyPoint` the check of an image is an equation on the curve
(`attestEmodule_iff`), and it never goes through `NULL` (`verifyImage_returns`).

Every load attests the image it received before the init function runs. So whatever the host sends,
and whatever the modules do, all code that is ever started is code the key signed
(`acquire_signed`); this holds of runs that stop in a panic too.

Key definitions: `pubKey`, `keyPoint`, `verifyImage`, `Signed`.
Key theorems: `isKey_pubKey`, `attestEmodule_iff`, `acquire_signed`.
-/
import Coffer.EmodTable
import Coffer.Attest.Ecdsa

namespace Coffer
namespace Ecc

open Lib Lib.Cmd Lib.Digits Manager

/-! ### The built-in key -/

def pubKey : List UInt8 :=
  [0x2, 0x49, 0xbe, 0x59, 0xad, 0x6c, 0x8a, 0xaa, 0x8, 0x61, 0xf8, 0x33, 0x5e, 0xf6, 0xcf, 0xe8, 0xb6, 0x8, 0x88, 0x2c, 0xbe,
    0x3, 0x2a, 0xed, 0x0, 0xad, 0x4c, 0xf6, 0x9, 0xd5, 0xe0, 0x7c, 0xc8]

/-- The coordinates of the key. -/
def keyX : ℕ := 0x49be59ad6c8aaa0861f8335ef6cfe8b608882cbe032aed00ad4cf609d5e07cc8

def keyY : ℕ := 0xf758c99cbe123da80ce269342b6339389bf2c2f0a9c62fa0d04c34eff26b6aa2

theorem key_nonsingular : p256.Nonsingular (keyX : Fp) (keyY : Fp) := by
  refine p256_nonsingular ?_
  have h : keyY ^ 2 + 3 * keyX ≡ keyX ^ 3 + val curveB [MOD fieldPrime] := by decide
  have hcast := (ZMod.natCast_eq_natCast_iff ..).mpr h
  push_cast at hcast
  linear_combination hcast

/-- The point of the key. -/
def keyPoint : p256.Point := .some _ _ key_nonsingular

theorem val_cast {n : ℕ} (h : n < fieldPrime) : (n : Fp).val = n := by
  rw [ZMod.val_natCast, Nat.mod_eq_of_lt h]

theorem isKey_pubKey : IsKey pubKey keyPoint := by
  refine ⟨_, _, key_nonsingular, rfl, ?_, ?_, cast_ne_zero (by decide)⟩
  · rw [val_cast (by decide), ← val_eccBytes2native]
    decide
  · rw [val_cast (by decide)]
    decide

theorem keyPoint_ne : keyPoint ≠ basePoint ∧ keyPoint ≠ -basePoint := by
  rw [← not_or]
  intro h
  have hx : (keyX : Fp) = (val curveG.x : Fp) := WeierstrassCurve.Affine.Point.X_eq_iff.mpr h
  have hval := congrArg ZMod.val hx
  rw [val_cast (by decide), val_cast (by decide)] at hval
  exact absurd hval (by decide)

/-- `ecdsa_verify` with the built-in key. -/
def verifyImage (hash signature : List UInt8) : Bool := ecdsaVerify pubKey hash signature = some true

/-- The table of points has no entry for two zero bits, and `ecdsa_verify` never uses it: the check
with the built-in key returns, whatever the hash and the signature are. -/
theorem verifyImage_returns (hash signature : List UInt8) :
    ecdsaVerify pubKey hash signature = some (verifyImage hash signature) := by
  obtain ⟨b, hb, -⟩ := ecdsaVerify_eq isKey_pubKey keyPoint_ne hash signature
  rw [verifyImage, hb]
  cases b <;> rfl

/-! ### The check of an image -/

section Image

variable (image : List UInt8)

/-- The last 64 bytes of an image. -/
def signatureOf : List UInt8 := image.drop (image.length - 64)

/-- The number of the hash, and the two numbers of the signature. -/
def hashNumber : ℕ := beNumber (attestHash image)

def rNumber : ℕ := beNumber (signatureOf image)

def sNumber : ℕ := beNumber ((signatureOf image).drop 32)

/-- The image is longer than a signature and ends with one of the hash of its other bytes. -/
structure Signed : Prop where
  long : 64 < image.length
  signs : Signs keyPoint (hashNumber image) (rNumber image) (sNumber image)

/-- The sum that the check computes has regular rounds only. -/
def RegularImage : Prop :=
  RegularSum keyPoint (scalar (hashNumber image) (sNumber image)) (scalar (rNumber image) (sNumber image))

theorem verifyImage_iff : verifyImage (attestHash image) (signatureOf image) = true ↔
    Signs keyPoint (hashNumber image) (rNumber image) (sNumber image) ∧ RegularImage image := by
  obtain ⟨b, hb, hiff⟩ := ecdsaVerify_eq isKey_pubKey keyPoint_ne (attestHash image) (signatureOf image)
  rw [verifyImage, hb, decide_eq_true_iff, Option.some.injEq]
  exact hiff

theorem attestEmodule_cases :
    (attestEmodule verifyImage image = .ok () ∧ Signed image ∧ RegularImage image) ∨
      (∃ text, attestEmodule verifyImage image = .error (.panic text)) ∧ ¬(Signed image ∧ RegularImage image) := by
  unfold attestEmodule
  by_cases hlen : image.length ≤ 64
  · rw [if_pos hlen]
    exact .inr ⟨⟨_, rfl⟩, fun h => absurd h.1.long (by omega)⟩
  rw [if_neg hlen, ← signatureOf]
  by_cases hv : verifyImage (attestHash image) (signatureOf image) = true
  · rw [if_pos hv]
    obtain ⟨hs, hr⟩ := (verifyImage_iff image).mp hv
    exact .inl ⟨rfl, ⟨by omega, hs⟩, hr⟩
  · rw [if_neg hv]
    exact .inr ⟨⟨_, rfl⟩, fun h => hv ((verifyImage_iff image).mpr ⟨h.1.signs, h.2⟩)⟩

theorem signed_of_ok (h : attestEmodule verifyImage image = .ok ()) : Signed image := by
  rcases attestEmodule_cases image with ⟨-, hs, -⟩ | ⟨⟨text, ht⟩, -⟩
  · exact hs
  · rw [ht] at h
    cases h

/-- **`attest_emodule`** returns for a signed image whose sum is regular, and panics for every other. -/
theorem attestEmodule_iff :
    (attestEmodule verifyImage image = .ok () ↔ Signed image ∧ RegularImage image) ∧
    ((∃ text, attestEmodule verifyImage image = .error (.panic text)) ↔ ¬(Signed image ∧ RegularImage image)) := by
  rcases attestEmodule_cases image with ⟨hok, hs⟩ | ⟨⟨text, ht⟩, hs⟩
  · refine ⟨⟨fun _ => hs, fun _ => hok⟩, ?_, fun h => absurd hs h⟩
    rintro ⟨text, ht⟩
    rw [hok] at ht
    cases ht
  · refine ⟨⟨fun h => ?_, fun h => absurd h hs⟩, fun _ => hs, fun _ => ⟨text, ht⟩⟩
    rw [ht] at h
    cases h

end Image

/-! ### Loads -/

/-- **Only signed code is started.** For every run of calls of `acquire_emodule` from the state
after `emod_manager_init`, whatever the host sends and whatever the modules do and acquire: every
image whose init function was called is signed with the built-in key, also if the run stops in a
call that does not return. -/
theorem acquire_signed (M : Modules) (host : ℕ → EmodReply) (s : Sys) (getter depth : ℕ)
    (ids : List ℕ) :
    wp (ids.mapM (acquireEmodule M verifyImage host depth))
      (fun _ m => ∀ e ∈ m.log, e.kind = .started → Signed e.image)
      (fun stop => ∀ e ∈ stop.state.log, e.kind = .started → Signed e.image)
      (Manager.boot s getter) := by
  have hsigned {m : Manager} (h : Attested verifyImage host m) :
      ∀ e ∈ m.log, e.kind = .started → Signed e.image := by
    intro e he hk
    exact signed_of_ok e.image ((h e he).2 (by simp [hk]))
  have hboot : Attested verifyImage host (Manager.boot s getter) := fun e he =>
    absurd he List.not_mem_nil
  exact wp_mono_fault (acquireAll_attested depth ids _ hboot) (fun _ _ h => hsigned h)
    fun _ h => hsigned h

end Ecc
end Coffer
