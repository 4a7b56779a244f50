import Estimation.Proofs.Identity
import Estimation.Proofs.Tokens

/-!
What an output is made of, before anything of it is digested: identities are the same only if names,
code, environments and what became of the imports are.
-/

namespace Estimation

open List

namespace Digest

theorem length_bigEndian (width n : Nat) : (bigEndian width n).length = width := by
  induction width with
  | zero => rfl
  | succ width ih => exact congrArg Nat.succ ih

theorem length_sha256 (message : List UInt8) : (sha256 message).length = 32 := by
  simp [sha256, Words.toList, length_bigEndian]

theorem utf8Size_digitChar : ∀ n < 16, (Nat.digitChar n).utf8Size = 1 := by decide

theorem utf8ByteSize_hexText (bytes : List UInt8) :
    (hexText bytes).utf8ByteSize = 2 * bytes.length := by
  rw [hexText]
  induction bytes with
  | nil => rfl
  | cons b bytes ih =>
    have hb := b.toNat_lt
    have hhigh := utf8Size_digitChar (b.toNat / 16) (by omega)
    have hlow := utf8Size_digitChar (b.toNat % 16) (by omega)
    rw [flatMap_cons, cons_append, cons_append, nil_append, utf8ByteSize_cons, utf8ByteSize_cons, ih,
      hhigh, hlow, length_cons]
    omega

end Digest

/-- What an output is made of. -/
structure Ingredients where
  name : String
  code : String
  environment : Environment
  imports : List ImportKey

namespace Ingredients

def key (x : Ingredients) : OutputKey :=
  ⟨x.name, Digest.ofText x.code, x.environment.hash, x.imports⟩

/-- The messages that are digested for the identity. -/
def hashed (x : Ingredients) : List Hashed := [.code x.code, .environment x.environment, .key x.key]

/-- The texts that are framed by their lengths, digests apart. -/
def texts (x : Ingredients) : List String := x.name :: x.imports.flatMap ImportKey.parts

variable {x y : Ingredients}

/-- Digests are of one length, so only other texts could be too long for a frame. -/
theorem sized_key (h : ∀ text ∈ x.texts, text.utf8ByteSize < 2 ^ 64) : x.key.Sized := by
  intro part hpart
  have hdigest : ∀ bytes, (Digest.hexText (Digest.sha256 bytes)).utf8ByteSize < 2 ^ 64 := by
    intro bytes
    rw [Digest.utf8ByteSize_hexText, Digest.length_sha256]
    decide
  rcases mem_cons.1 hpart with rfl | hpart
  · exact h _ mem_cons_self
  rcases mem_cons.1 hpart with rfl | hpart
  · exact hdigest _
  rcases mem_cons.1 hpart with rfl | hpart
  · exact hdigest _
  · exact h part (mem_cons_of_mem _ hpart)

/-- Among messages without collisions, an identity tells all that it was made of. -/
theorem id_eq_iff (hx : ∀ text ∈ x.texts, text.utf8ByteSize < 2 ^ 64)
    (hy : ∀ text ∈ y.texts, text.utf8ByteSize < 2 ^ 64)
    (h : Hashed.Collisionless (x.hashed ++ y.hashed)) : x.key.id = y.key.id ↔ x = y := by
  refine ⟨fun heq => ?_, fun heq => heq ▸ rfl⟩
  have hsized : ∀ k, .key k ∈ x.hashed ++ y.hashed → k.Sized := by
    intro k hk
    rcases mem_append.1 hk with hk | hk
    · simp only [hashed, mem_cons, Hashed.key.injEq, reduceCtorEq, false_or, not_mem_nil,
        or_false] at hk
      exact hk ▸ sized_key hx
    · simp only [hashed, mem_cons, Hashed.key.injEq, reduceCtorEq, false_or, not_mem_nil,
        or_false] at hk
      exact hk ▸ sized_key hy
  have hkey : x.key = y.key :=
    Hashed.key_injective h hsized (mem_append_left _ (by simp [hashed]))
      (mem_append_right _ (by simp [hashed])) heq
  obtain ⟨hname, hcode, henvironment, himports⟩ := OutputKey.mk.inj hkey
  have hcode : x.code = y.code :=
    Hashed.code_injective h (by simp [hashed]) (by simp [hashed]) hcode
  have henvironment : x.environment = y.environment :=
    Hashed.environment_injective h (by simp [hashed]) (by simp [hashed]) henvironment
  cases x
  cases y
  rw [mk.injEq]
  exact ⟨hname, hcode, henvironment, himports⟩

set_option maxRecDepth 100000 in
/-- A seed that reads as none, and specifiers that read as marks of what became of an import. -/
theorem id_eq_iff_null :
    let x : Ingredients := ⟨"módulo", "1", ⟨1, 1, none, false⟩, [.unresolved "cycle", .cyclic ""]⟩
    let y : Ingredients := ⟨"módulo", "1", ⟨1, 1, some "null", false⟩, [.cyclic "cycle"]⟩
    (∀ text ∈ x.texts, text.utf8ByteSize < 2 ^ 64) ∧ (∀ text ∈ y.texts, text.utf8ByteSize < 2 ^ 64) ∧
      Hashed.Collisionless (x.hashed ++ y.hashed) ∧ (x.key.id = y.key.id ↔ x = y) := by
  intro x y
  have hx : ∀ text ∈ x.texts, text.utf8ByteSize < 2 ^ 64 := by decide +kernel
  have hy : ∀ text ∈ y.texts, text.utf8ByteSize < 2 ^ 64 := by decide +kernel
  have hnodup : (((x.hashed ++ y.hashed).map Hashed.bytes).dedup.map Digest.sha256).Nodup := by
    decide +kernel
  have h := Hashed.collisionless_of_nodup hnodup
  exact ⟨hx, hy, h, id_eq_iff hx hy h⟩

end Ingredients

end Estimation
