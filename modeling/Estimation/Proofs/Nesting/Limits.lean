import Estimation.Proofs.Nesting
import Estimation.Proofs.Tokens

/-!
What a limit on nesting makes of a step of the parser. A step has levels, and they alone decide: under
every limit that they are within it comes to the same, and under every other it finds that operands nest
too deep. Steps that follow each other have the levels of the deeper one.
-/

namespace Estimation.Syntax

open Token (Kind)

/-- A fault of nesting too deep, somewhere. -/
def TooDeep {α : Type} (x : Except SyntaxError α) : Prop :=
  ∃ place, x = .error ⟨.tooDeep maxNesting, place⟩

/-- What a step that knows no limit comes to, unless it fails. -/
abbrev Gives {α : Type} (Q : α → Prop) (x : Except SyntaxError α) : Prop := Meets (fun _ => True) Q x

/-- What is read under the limit `n` has levels within it, and under another limit the same is read if
they are within that too. -/
def Decides {α : Type} (n : Nat) (x : Nat → Except SyntaxError α) (Q : α → Nat → Prop) : Prop :=
  ∀ a, x n = .ok a → ∃ levels ≤ n, Q a levels ∧
    ∀ m, (levels ≤ m → x m = .ok a) ∧ (m < levels → TooDeep (x m))

namespace Decides

variable {α β : Type} {n : Nat} {x y : Nat → Except SyntaxError α} {Q : α → Nat → Prop}
  {R : β → Nat → Prop}

theorem ok {a : α} (h : Q a 0) : Decides n (fun _ => .ok a) Q := by
  rintro _ ⟨⟩
  exact ⟨0, Nat.zero_le _, h, fun m => ⟨fun _ => rfl, fun hm => absurd hm (Nat.not_lt_zero _)⟩⟩

theorem error {e : Nat → SyntaxError} : Decides n (fun m => .error (e m)) Q := nofun

theorem unfolding (h : ∀ m, x m = y m) (hy : Decides n y Q) : Decides n x Q := by
  rwa [funext h]

theorem mono (h : Decides n x Q) {Q' : α → Nat → Prop} (hQ : ∀ a i, Q a i → Q' a i) :
    Decides n x Q' := by
  intro a ha
  obtain ⟨levels, hle, hq, hx⟩ := h a ha
  exact ⟨levels, hle, hQ a levels hq, hx⟩

theorem bind (h : Decides n x Q) {k : α → Nat → Except SyntaxError β}
    (hk : ∀ a i, Q a i → Decides n (k a) fun b j => R b (max i j)) :
    Decides n (fun m => x m >>= fun a => k a m) R := by
  intro b hb
  dsimp only at hb
  cases hx : x n with
  | error e =>
    rw [hx] at hb
    cases hb
  | ok a =>
    rw [hx] at hb
    obtain ⟨i, hi, ha, hxm⟩ := h a hx
    obtain ⟨j, hj, hb, hkm⟩ := hk a i ha b hb
    refine ⟨max i j, Nat.max_le.2 ⟨hi, hj⟩, hb, fun m => ⟨fun hm => ?_, fun hm => ?_⟩⟩
    · dsimp only
      rw [(hxm m).1 (by omega)]
      exact (hkm m).1 (by omega)
    -- One of the two steps is too deep, and the first that is stops the reader.
    · by_cases him : i ≤ m
      · dsimp only
        rw [(hxm m).1 him]
        exact (hkm m).2 (by omega)
      · obtain ⟨place, hplace⟩ := (hxm m).2 (by omega)
        dsimp only
        rw [hplace]
        exact ⟨place, rfl⟩

theorem bind_fixed {P : α → Prop} {z : Except SyntaxError α} (h : Gives P z)
    {k : α → Nat → Except SyntaxError β} (hk : ∀ a, P a → Decides n (k a) R) :
    Decides n (fun m => z >>= fun a => k a m) R := by
  cases z with
  | error e => exact nofun
  | ok a => exact hk a h

end Decides

namespace Cursor

/-- The words to be read. -/
def kinds (c : Cursor) : List Kind := c.tokens.map Token.kind

variable {c : Cursor}

theorem kinds_of_tokens {token : Token} {rest : List Token} (h : c.tokens = token :: rest) :
    c.kinds = token.kind :: kinds ⟨rest, c.stop, token.span.stop⟩ := by
  rw [kinds, h, List.map_cons]
  rfl

theorem kinds_of_accept {kind : Kind} {d : c.Past} (h : c.accept kind = some d) :
    c.kinds = kind :: d.1.kinds := by
  unfold accept at h
  split at h
  · cases h
  · next token rest htokens =>
    split at h
    · next hkind =>
      cases h
      exact hkind ▸ kinds_of_tokens htokens
    · cases h

theorem kinds_of_sign {symbol : Symbol} {d : c.Past} (h : c.sign symbol = some d) :
    c.kinds = .symbol symbol :: d.1.kinds := kinds_of_accept h

theorem expect_kinds (c : Cursor) (kind : Kind) :
    Gives (fun d : c.Past => c.kinds = kind :: d.1.kinds) (c.expect kind) := by
  unfold expect
  split
  · next h => exact kinds_of_accept h
  · trivial

theorem close_kinds (c : Cursor) (symbol : Symbol) (missing : Fault) :
    Gives (fun d : c.Past => c.kinds = .symbol symbol :: d.1.kinds) (c.close symbol missing) := by
  unfold close
  split
  · next h => exact kinds_of_sign h
  · trivial

theorem name_kinds (c : Cursor) : Gives
    (fun p : Parsed (String × Span) c => c.kinds = .name p.value.1 :: p.rest.kinds) c.name := by
  unfold name
  split
  · trivial
  · next h => exact kinds_of_tokens h
  · trivial

theorem key_kinds (c : Cursor) :
    Gives (fun p : Parsed String c => c.kinds = .name p.value :: p.rest.kinds) c.key := by
  unfold key
  split
  · next h => exact kinds_of_tokens h
  · trivial

theorem tokens_of_binaryOp {op : BinaryOp} {d : c.Past} (h : c.binaryOp? = some (op, d)) :
    ∃ sign, BinaryOp.ofKind? sign.kind = some op ∧ c.tokens = sign :: d.1.tokens := by
  unfold binaryOp? at h
  split at h
  · cases h
  · next sign rest htokens =>
    obtain ⟨_, hop, heq⟩ := Option.map_eq_some_iff.1 h
    cases heq
    exact ⟨sign, hop, htokens⟩

theorem kinds_of_binaryOp {op : BinaryOp} {d : c.Past} (h : c.binaryOp? = some (op, d)) :
    ∃ sign, BinaryOp.ofKind? sign = some op ∧ c.kinds = sign :: d.1.kinds := by
  obtain ⟨sign, hop, htokens⟩ := tokens_of_binaryOp h
  exact ⟨sign.kind, hop, kinds_of_tokens htokens⟩

theorem tokens_of_unaryOp {op : UnaryOp} {d : c.Past} (h : c.unaryOp? = some (op, d)) :
    ∃ sign, UnaryOp.ofKind? sign.kind = some op ∧ c.tokens = sign :: d.1.tokens := by
  unfold unaryOp? at h
  split at h
  · cases h
  · next sign rest htokens =>
    obtain ⟨_, hop, heq⟩ := Option.map_eq_some_iff.1 h
    cases heq
    exact ⟨sign, hop, htokens⟩

theorem kinds_of_unaryOp {op : UnaryOp} {d : c.Past} (h : c.unaryOp? = some (op, d)) :
    ∃ sign, UnaryOp.ofKind? sign = some op ∧ c.kinds = sign :: d.1.kinds := by
  obtain ⟨sign, hop, htokens⟩ := tokens_of_unaryOp h
  exact ⟨sign.kind, hop, kinds_of_tokens htokens⟩

theorem skipSemicolons_kinds (c : Cursor) :
    ∃ k, c.kinds = List.replicate k (.symbol .semicolon) ++ c.skipSemicolons.1.kinds := by
  fun_induction skipSemicolons c with
  | case1 c d hsign e he hskip ih =>
    obtain ⟨k, hk⟩ := ih
    rw [hskip] at hk
    refine ⟨k + 1, ?_⟩
    rw [kinds_of_sign hsign, hk]
    rfl
  | case2 c => exact ⟨0, rfl⟩

theorem separator_kinds (c : Cursor) (closing : Kind) : Gives
    (fun d : c.From => ∃ k, c.kinds = List.replicate k (.symbol .semicolon) ++ d.1.kinds)
      (c.separator closing) := by
  unfold separator
  split
  · next h => exact ⟨1, kinds_of_sign h⟩
  · split
    · exact ⟨0, rfl⟩
    · trivial

end Cursor

end Estimation.Syntax
