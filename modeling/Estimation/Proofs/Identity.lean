import Estimation.Proofs.History
import Mathlib.Algebra.Group.Nat.Defs
import Mathlib.Data.List.Basic
import Mathlib.Data.List.Dedup
import Mathlib.Data.Set.Function

/-!
What is worked into a digest can be told from the bytes that are digested. So as long as no two
messages have one digest, an identity has all that an output depends on.
-/

namespace Estimation

open List

/-! ### Bytes -/

theorem utf8_injective {s t : String} (h : s.toUTF8.data.toList = t.toUTF8.data.toList) : s = t :=
  String.toByteArray_inj.1 (ByteArray.ext (Array.ext' h))

theorem utf8_length (s : String) : s.toUTF8.data.toList.length = s.utf8ByteSize := rfl

namespace Digest

theorem digitChar_injective : ∀ n < 16, ∀ m < 16, Nat.digitChar n = Nat.digitChar m → n = m := by
  decide

theorem hexText_injective {xs ys : List UInt8} (h : hexText xs = hexText ys) : xs = ys := by
  replace h := String.ofList_injective h
  induction xs generalizing ys with
  | nil =>
    cases ys with
    | nil => rfl
    | cons y ys => cases h
  | cons x xs ih =>
    cases ys with
    | nil => cases h
    | cons y ys =>
      simp only [flatMap_cons, cons_append, nil_append, cons.injEq] at h
      obtain ⟨hhigh, hlow, h⟩ := h
      have hx := x.toNat_lt
      have hy := y.toNat_lt
      have hhigh := digitChar_injective _ (by omega) _ (by omega) hhigh
      have hlow := digitChar_injective _ (by omega) _ (by omega) hlow
      rw [ih h, UInt8.toNat_inj.1 (show x.toNat = y.toNat by omega)]

end Digest

namespace OutputKey

theorem littleEndian_length (width n : Nat) : (littleEndian width n).length = width := by
  induction width generalizing n with
  | zero => rfl
  | succ width ih => rw [littleEndian, length_cons, ih]

theorem littleEndian_injective {width n m : Nat} (hn : n < 256 ^ width) (hm : m < 256 ^ width)
    (h : littleEndian width n = littleEndian width m) : n = m := by
  induction width generalizing n m with
  | zero => omega
  | succ width ih =>
    obtain ⟨hlow, hhigh⟩ := cons.inj h
    have hmod : n % 256 = m % 256 := by
      have hlow := congrArg UInt8.toNat hlow
      simpa using hlow
    have hdiv : n / 256 = m / 256 := by
      refine ih ?_ ?_ hhigh
      · rw [Nat.div_lt_iff_lt_mul (by decide), ← Nat.pow_succ]
        exact hn
      · rw [Nat.div_lt_iff_lt_mul (by decide), ← Nat.pow_succ]
        exact hm
    omega

theorem framed_append {p q : String} {r r' : List UInt8} (hp : p.utf8ByteSize < 2 ^ 64)
    (hq : q.utf8ByteSize < 2 ^ 64) (h : framed p ++ r = framed q ++ r') : p = q ∧ r = r' := by
  simp only [framed, append_assoc] at h
  obtain ⟨hsize, h⟩ := append_inj h (by rw [littleEndian_length, littleEndian_length])
  have hsize := littleEndian_injective (by omega) (by omega) hsize
  obtain ⟨hbytes, h⟩ := append_inj h (by rw [utf8_length, utf8_length, hsize])
  exact ⟨utf8_injective hbytes, h⟩

/-- The texts of a key are no longer than texts can be. -/
def Sized (k : OutputKey) : Prop := ∀ part ∈ k.parts, part.utf8ByteSize < 2 ^ 64

theorem parts_of_framed {ps qs : List String} (hp : ∀ p ∈ ps, p.utf8ByteSize < 2 ^ 64)
    (hq : ∀ q ∈ qs, q.utf8ByteSize < 2 ^ 64) (h : ps.flatMap framed = qs.flatMap framed) :
    ps = qs := by
  have hne : ∀ (p : String) (r : List UInt8), framed p ++ r ≠ [] := by
    intro p r hnil
    have hlength := congrArg length hnil
    rw [framed, append_assoc, length_append, littleEndian_length] at hlength
    exact absurd hlength (by simp)
  induction ps generalizing qs with
  | nil =>
    cases qs with
    | nil => rfl
    | cons q qs => exact absurd h.symm (hne _ _)
  | cons p ps ih =>
    cases qs with
    | nil => exact absurd h (hne _ _)
    | cons q qs =>
      obtain ⟨rfl, hr⟩ := framed_append (hp p mem_cons_self) (hq q mem_cons_self) h
      rw [ih (fun p hp' => hp p (mem_cons_of_mem _ hp')) (fun q hq' => hq q (mem_cons_of_mem _ hq')) hr]

theorem importParts_append {k k' : ImportKey} {r r' : List String}
    (h : k.parts ++ r = k'.parts ++ r') : k = k' ∧ r = r' := by
  cases k <;> cases k' <;> simp [ImportKey.parts] at h
  · obtain ⟨hid, hr⟩ := h
    exact ⟨congrArg (fun text => ImportKey.output ⟨text⟩) hid, hr⟩
  · exact ⟨congrArg _ h.1, h.2⟩
  · exact ⟨congrArg _ h.1, h.2⟩

theorem importParts_injective {ks ks' : List ImportKey}
    (h : ks.flatMap ImportKey.parts = ks'.flatMap ImportKey.parts) : ks = ks' := by
  induction ks generalizing ks' with
  | nil =>
    cases ks' with
    | nil => rfl
    | cons k' _ => cases k' <;> cases h
  | cons k ks ih =>
    cases ks' with
    | nil => cases k <;> cases h
    | cons k' ks' =>
      obtain ⟨rfl, hr⟩ := importParts_append h
      rw [ih hr]

theorem parts_injective {k k' : OutputKey} (h : k.parts = k'.parts) : k = k' := by
  simp only [parts, cons.injEq] at h
  obtain ⟨hname, hmodule, henvironment, himports⟩ := h
  cases k
  cases k'
  rw [OutputKey.mk.injEq]
  exact ⟨hname, hmodule, henvironment, importParts_injective himports⟩

end OutputKey

namespace Json

/-- Reads one written character. -/
def unescaped : List Char → Option (Char × List Char)
  | '\\' :: 'u' :: '0' :: '0' :: a :: b :: r =>
    some (.ofNat ("0123456789abcdef".toList.idxOf a * 16 + "0123456789abcdef".toList.idxOf b), r)
  | '\\' :: 'n' :: r => some ('\n', r)
  | '\\' :: 't' :: r => some ('\t', r)
  | '\\' :: 'r' :: r => some ('\r', r)
  | '\\' :: 'b' :: r => some ('\x08', r)
  | '\\' :: 'f' :: r => some ('\x0c', r)
  | '\\' :: c :: r => some (c, r)
  | '"' :: _ => none
  | c :: r => some (c, r)
  | [] => none

theorem unescaped_escaped (c : Char) (r : List Char) :
    unescaped ((escaped c).toList ++ r) = some (c, r) := by
  unfold escaped
  split
  · rfl
  · rfl
  · rfl
  · rfl
  · rfl
  · rfl
  · rfl
  · rename_i hquote hslash _ _ _ _ _
    split
    · rename_i hc
      have hdigits : ∀ n < 32, "0123456789abcdef".toList.idxOf (hexDigit (n / 16)) * 16 +
          "0123456789abcdef".toList.idxOf (hexDigit n) = n := by decide
      rw [String.toList_ofList]
      simp only [cons_append, nil_append, unescaped]
      rw [hdigits c.toNat hc, Char.ofNat_toNat]
    · rw [Char.toString, String.toList_singleton, singleton_append]
      unfold unescaped
      split <;> simp_all

/-- A written string ends at the first quote that is not part of a character. -/
theorem escaped_append_quote {cs ds r r' : List Char}
    (h : cs.flatMap (fun c => (escaped c).toList) ++ '"' :: r =
      ds.flatMap (fun c => (escaped c).toList) ++ '"' :: r') : cs = ds ∧ r = r' := by
  induction cs generalizing ds with
  | nil =>
    cases ds with
    | nil => exact ⟨rfl, (cons.inj h).2⟩
    | cons d ds =>
      have hread := congrArg unescaped h
      rw [flatMap_cons, append_assoc, unescaped_escaped] at hread
      cases hread
  | cons c cs ih =>
    have hread := congrArg unescaped h
    rw [flatMap_cons, append_assoc, unescaped_escaped] at hread
    cases ds with
    | nil => cases hread
    | cons d ds =>
      rw [flatMap_cons, append_assoc, unescaped_escaped, Option.some.injEq, Prod.mk.injEq] at hread
      obtain ⟨rfl, hrest⟩ := hread
      obtain ⟨rfl, hr⟩ := ih hrest
      exact ⟨rfl, hr⟩

theorem stringText_toList (s : String) : (stringText s).toList =
    '"' :: s.toList.flatMap (fun c => (escaped c).toList) ++ ['"'] := by
  have hfold : ∀ (cs : List Char) (written : String),
      (cs.foldl (fun written c => written ++ escaped c) written).toList =
        written.toList ++ cs.flatMap fun c => (escaped c).toList := by
    intro cs
    induction cs with
    | nil => simp
    | cons c cs ih =>
      intro written
      rw [foldl_cons, ih, String.toList_append, flatMap_cons, append_assoc]
  rw [stringText, String.toList_append, hfold]
  rfl

theorem append_of_mem {sep : Char} {xs ys r r' : List Char} (hx : sep ∉ xs) (hy : sep ∉ ys)
    (h : xs ++ sep :: r = ys ++ sep :: r') : xs = ys ∧ r = r' := by
  induction xs generalizing ys with
  | nil =>
    cases ys with
    | nil => exact ⟨rfl, (cons.inj h).2⟩
    | cons y ys => exact absurd (cons.inj h).1 fun heq => hy (heq ▸ mem_cons_self)
  | cons x xs ih =>
    cases ys with
    | nil => exact absurd (cons.inj h).1 fun heq => hx (heq ▸ mem_cons_self)
    | cons y ys =>
      obtain ⟨rfl, hrest⟩ := cons.inj h
      obtain ⟨rfl, hr⟩ := ih (fun hm => hx (mem_cons_of_mem _ hm))
        (fun hm => hy (mem_cons_of_mem _ hm)) hrest
      exact ⟨rfl, hr⟩

end Json

namespace Environment

theorem json_text (e : Environment) : e.json.text.toList =
    "\x7b\"sampleCount\":".toList ++ ((toString e.sampleCount).toList ++ ',' ::
      ("\"xyPointLength\":".toList ++ ((toString e.pointLength).toList ++ ',' ::
        ("\"seed\":".toList ++ ((Json.optional .string e.seed).text.toList ++ ',' ::
          ("\"profile\":".toList ++ ((toString e.profile).toList ++ ['\x7d']))))))) := by
  have hs : Json.stringText "sampleCount" = "\"sampleCount\"" := by decide +kernel
  have hx : Json.stringText "xyPointLength" = "\"xyPointLength\"" := by decide +kernel
  have he : Json.stringText "seed" = "\"seed\"" := by decide +kernel
  have hp : Json.stringText "profile" = "\"profile\"" := by decide +kernel
  simp only [json, Json.text, Json.memberTexts, Json.ofNat, hs, hx, he, hp]
  simp [String.intercalate_cons_cons]

theorem comma_notMem (n : Nat) : ',' ∉ (toString n).toList := by
  intro hm
  have hdigit := Nat.isDigit_of_mem_toDigits (b := 10) (n := n) (by decide) (by decide) (c := ',')
    (by simpa using hm)
  cases hdigit

theorem seed_append {a b : Option String} {r r' : List Char}
    (h : (Json.optional .string a).text.toList ++ ',' :: r =
      (Json.optional .string b).text.toList ++ ',' :: r') : a = b ∧ r = r' := by
  cases a with
  | none =>
    cases b with
    | none => exact ⟨rfl, (cons.inj (append_cancel_left h)).2⟩
    | some t =>
      simp only [Json.optional, Json.text, Json.stringText_toList] at h
      cases h
  | some s =>
    cases b with
    | none =>
      simp only [Json.optional, Json.text, Json.stringText_toList] at h
      cases h
    | some t =>
      simp only [Json.optional, Json.text, Json.stringText_toList, cons_append, append_assoc,
        cons.injEq, true_and, nil_append] at h
      obtain ⟨hs, hr⟩ := Json.escaped_append_quote h
      exact ⟨congrArg some (String.toList_injective hs), (cons.inj hr).2⟩

theorem json_text_injective {e e' : Environment} (h : e.json.text = e'.json.text) : e = e' := by
  have h := congrArg String.toList h
  rw [json_text, json_text] at h
  obtain ⟨hsamples, h⟩ :=
    Json.append_of_mem (comma_notMem _) (comma_notMem _) (append_cancel_left h)
  obtain ⟨hpoints, h⟩ :=
    Json.append_of_mem (comma_notMem _) (comma_notMem _) (append_cancel_left h)
  obtain ⟨hseed, h⟩ := seed_append (append_cancel_left h)
  have hprofile := append_cancel_right (append_cancel_left h)
  have hnat : ∀ {n m : Nat}, (toString n).toList = (toString m).toList → n = m := by
    intro n m h
    rw [Nat.toString_eq_repr, Nat.toString_eq_repr, Nat.toList_repr, Nat.toList_repr] at h
    rw [← @Nat.ofDigitChars_ten_toDigits n, h, Nat.ofDigitChars_ten_toDigits]
  have hbool : ∀ a b : Bool, (toString a).toList = (toString b).toList → a = b := by decide
  cases e
  cases e'
  rw [mk.injEq]
  exact ⟨hnat hsamples, hnat hpoints, hseed, hbool _ _ hprofile⟩

end Environment

namespace Hashed

/-- No two messages among those of `l` have one digest. -/
def Collisionless (l : List Hashed) : Prop := Set.InjOn Digest.sha256 {b | ∃ x ∈ l, x.bytes = b}

variable {l : List Hashed}

theorem collisionless_of_nodup (h : ((l.map bytes).dedup.map Digest.sha256).Nodup) :
    Collisionless l := by
  have hmem : ∀ b, (∃ x ∈ l, x.bytes = b) → b ∈ (l.map bytes).dedup := fun b hb =>
    mem_dedup.2 (mem_map.2 hb)
  exact fun b hb b' hb' heq => inj_on_of_nodup_map h (hmem b hb) (hmem b' hb') heq

theorem Collisionless.mono {l' : List Hashed} (h : Collisionless l) (hl : l' ⊆ l) :
    Collisionless l' := by
  rintro b ⟨x, hx, rfl⟩ b' ⟨y, hy, rfl⟩ heq
  exact h ⟨x, hl hx, rfl⟩ ⟨y, hl hy, rfl⟩ heq

theorem bytes_of_hexText (h : Collisionless l) {x y : Hashed} (hx : x ∈ l) (hy : y ∈ l)
    (heq : Digest.hexText (Digest.sha256 x.bytes) = Digest.hexText (Digest.sha256 y.bytes)) :
    x.bytes = y.bytes :=
  h ⟨x, hx, rfl⟩ ⟨y, hy, rfl⟩ (Digest.hexText_injective heq)

theorem code_injective (h : Collisionless l) {c d : String} (hc : .code c ∈ l) (hd : .code d ∈ l)
    (heq : Digest.ofText c = Digest.ofText d) : c = d :=
  utf8_injective (bytes_of_hexText h hc hd heq)

theorem environment_injective (h : Collisionless l) {e e' : Environment}
    (he : .environment e ∈ l) (he' : .environment e' ∈ l) (heq : e.hash = e'.hash) : e = e' :=
  Environment.json_text_injective (utf8_injective (bytes_of_hexText h he he' heq))

theorem key_injective (h : Collisionless l) (hl : ∀ k, .key k ∈ l → k.Sized) :
    Set.InjOn OutputKey.id {k | .key k ∈ l} := by
  intro k hk k' hk' heq
  have hbytes := bytes_of_hexText h hk hk' (congrArg OutputId.text heq)
  exact OutputKey.parts_injective (OutputKey.parts_of_framed (hl k hk) (hl k' hk') hbytes)

end Hashed

end Estimation
