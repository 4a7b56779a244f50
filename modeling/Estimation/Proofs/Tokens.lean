import Estimation.Token.Lexer

/-!
Where tokens stand in a source text: each at a place of its own, behind the one before it. What is
wrong with a text is at a place of it too.
-/

namespace Estimation

open List

/-- Results have one property, errors another. -/
def Meets {ε α : Type} (E : ε → Prop) (Q : α → Prop) : Except ε α → Prop
  | .ok a => Q a
  | .error e => E e

namespace Meets

variable {ε δ α β : Type} {E : ε → Prop} {Q : α → Prop} {R : β → Prop} {x : Except ε α}

theorem any (x : Except ε α) : Meets (fun _ => True) (fun _ => True) x := by
  cases x <;> trivial

theorem and {F : ε → Prop} {S : α → Prop} (h : Meets E Q x) (h' : Meets F S x) :
    Meets F (fun a => Q a ∧ S a) x := by
  cases x with
  | ok a => exact ⟨h, h'⟩
  | error e => exact h'

theorem bind (h : Meets E Q x) {k : α → Except ε β} (hk : ∀ a, Q a → Meets E R (k a)) :
    Meets E R (x >>= k) := by
  cases x with
  | ok a => exact hk a h
  | error e => exact h

theorem mono (h : Meets E Q x) {Q' : α → Prop} (hQ : ∀ a, Q a → Q' a) : Meets E Q' x := by
  cases x with
  | ok a => exact hQ a h
  | error e => exact h

theorem mapError {F : δ → Prop} (h : Meets E Q x) {f : ε → δ} (hf : ∀ e, E e → F (f e)) :
    Meets F Q (x.mapError f) := by
  cases x with
  | ok a => exact h
  | error e => exact hf e h

end Meets

theorem ok_of_toOption {ε α : Type} {x : Except ε α} {a : α} (h : x.toOption = some a) :
    x = .ok a := by
  cases x with
  | ok b => exact congrArg Except.ok (Option.some.inj h)
  | error e => cases h

theorem utf8ByteSize_cons (c : Char) (cs : List Char) :
    (String.ofList (c :: cs)).utf8ByteSize = c.utf8Size + (String.ofList cs).utf8ByteSize := by
  rw [← singleton_append, String.ofList_append, String.utf8ByteSize_append]
  simp

namespace Coordinate

variable {code : String} {place : Coordinate} {cs : List Char}

/-- A place of a text with what stands behind it. -/
def At (code : String) (place : Coordinate) (cs : List Char) : Prop :=
  ∃ before, code.toList = before ++ cs ∧ place = origin.after before

/-- A place of a text: line and column are those of the offset. -/
def In (code : String) (place : Coordinate) : Prop := ∃ cs, At code place cs

theorem at_origin (code : String) : At code origin code.toList := ⟨[], rfl, rfl⟩

theorem At.isIn (h : At code place cs) : place.In code := ⟨cs, h⟩

theorem At.after (h : At code place cs) (n : Nat) : At code (place.after (cs.take n)) (cs.drop n) := by
  obtain ⟨before, hcode, rfl⟩ := h
  refine ⟨before ++ cs.take n, ?_, (after_append _ _ _).symm⟩
  rw [append_assoc, take_append_drop, hcode]

theorem offset_after (place : Coordinate) (cs : List Char) :
    (place.after cs).offset = place.offset + (String.ofList cs).utf8ByteSize := by
  induction cs generalizing place with
  | nil => rfl
  | cons c cs ih =>
    have hadvance : (place.advance c).offset = place.offset + c.utf8Size := by
      rw [advance]
      split <;> rfl
    rw [after_cons, ih, hadvance, utf8ByteSize_cons, Nat.add_assoc]

theorem offset_lt_after (place : Coordinate) (c : Char) (cs : List Char) :
    place.offset < (place.after (c :: cs)).offset := by
  have := c.utf8Size_pos
  rw [offset_after, utf8ByteSize_cons]
  omega

theorem offset_le_after (place : Coordinate) (cs : List Char) :
    place.offset ≤ (place.after cs).offset := by
  rw [offset_after]
  exact Nat.le_add_right _ _

theorem In.offset_le (h : place.In code) : place.offset ≤ code.utf8ByteSize := by
  obtain ⟨cs, before, hcode, rfl⟩ := h
  rw [← String.ofList_toList (s := code), hcode, String.ofList_append, String.utf8ByteSize_append,
    offset_after]
  change 0 + _ ≤ _
  omega

end Coordinate

/-- A piece of a text. -/
structure Span.In (code : String) (span : Span) : Prop where
  start : span.start.In code
  stop : span.stop.In code
  ordered : span.start.offset ≤ span.stop.offset

theorem Span.In.point {code : String} {place : Coordinate} (h : place.In code) :
    (Span.point place).In code := ⟨h, h, Nat.le_refl _⟩

/-- Spans that are not empty, one behind the other, from one offset to another. -/
def Follow : Nat → List Span → Nat → Prop
  | a, [], b => a ≤ b
  | a, s :: ss, b => a ≤ s.start.offset ∧ s.start.offset < s.stop.offset ∧ Follow s.stop.offset ss b

namespace Token

variable {code : String} {place : Coordinate} {cs : List Char}

/-- Lexemes of a text from a place on, and the mark of its end. -/
structure Lexes (code : String) (place : Coordinate) (tokens : List Token) (stop : Token) : Prop where
  starts : ∀ t ∈ tokens ++ [stop], t.span.start.In code
  stops : ∀ t ∈ tokens ++ [stop], t.span.stop.In code
  follow : Follow place.offset (tokens.map Token.span) stop.span.start.offset
  kinds : ∀ t ∈ tokens, t.kind ≠ .stop
  stop : stop.kind = .stop

/-- What a lexeme can be. -/
theorem lexeme_cases {c : Char} {r : List Char} {found : Lexeme} (h : lexeme c r = .ok found) :
    (∃ hstarts, numberLexeme (c :: r) hstarts = .ok found) ∨
      (∃ content, found.kind = .string content) ∨
      (isNameStart c = true ∧ found = nameLexeme c r) ∨ ∃ sign, found.kind = .symbol sign := by
  unfold lexeme at h
  split at h
  · next hstarts => exact .inl ⟨hstarts, h⟩
  · split at h
    · unfold stringLexeme at h
      split at h <;> cases h
      exact .inr (.inl ⟨_, rfl⟩)
    · split at h
      · next hstart => exact .inr (.inr (.inl ⟨hstart, (Except.ok.inj h).symm⟩))
      · split at h <;> cases h
        exact .inr (.inr (.inr ⟨_, rfl⟩))

theorem numberLexeme_eq_ok {cs : List Char} {hstarts : startsNumber cs = true} {found : Lexeme}
    (h : numberLexeme cs hstarts = .ok found) :
    found.kind = .number (String.ofList (cs.take (numberWidth cs))) ∧ found.width = numberWidth cs ∧
      (cs.drop (numberWidth cs)).head?.any isNamePart = false := by
  unfold numberLexeme at h
  dsimp only at h
  split at h <;> cases h
  next hends => exact ⟨rfl, rfl, eq_false_of_ne_true hends⟩

theorem kind_nameLexeme (c : Char) (r : List Char) :
    (∃ word, (nameLexeme c r).kind = .keyword word) ∨ ∃ written, (nameLexeme c r).kind = .name written := by
  unfold nameLexeme
  dsimp only
  cases Keyword.ofSpelling? (String.ofList ((c :: r).take (1 + nameWidth c.isUpper r))) with
  | none => exact .inr ⟨_, rfl⟩
  | some word => exact .inl ⟨word, rfl⟩

theorem kind_lexeme {c : Char} {r : List Char} {found : Lexeme} (h : lexeme c r = .ok found) :
    found.kind ≠ .stop := by
  rcases lexeme_cases h with ⟨_, hnumber⟩ | ⟨_, hkind⟩ | ⟨-, rfl⟩ | ⟨_, hkind⟩
  · rw [(numberLexeme_eq_ok hnumber).1]
    nofun
  · rw [hkind]
    nofun
  · rcases kind_nameLexeme c r with ⟨_, hkind⟩ | ⟨_, hkind⟩ <;> rw [hkind] <;> nofun
  · rw [hkind]
    nofun

theorem readFrom_lexes (h : Coordinate.At code place cs) :
    Meets (fun e : LexicalError => e.place.In code)
      (fun all => ∃ tokens stop, all = tokens ++ [stop] ∧ Lexes code place tokens stop)
      (readFrom place cs) := by
  fun_induction readFrom place cs with
  | case1 place cs n => exact (h.after n).isIn
  | case2 place cs gap _ start newline =>
    have hstart := (h.after gap).isIn
    refine ⟨[], _, rfl, ?_, ?_, Coordinate.offset_le_after _ _, nofun, rfl⟩
    · exact forall_mem_singleton.2 hstart
    · exact forall_mem_singleton.2 hstart
  | case3 place cs gap _ start c r hdrop fault n =>
    have hstart := h.after gap
    rw [hdrop] at hstart
    exact (hstart.after n).isIn
  | case4 place cs gap _ start newline c r hdrop kind width hwidth hlexeme stop ih =>
    have hstart := h.after gap
    rw [hdrop] at hstart
    have hstop := hstart.after width
    refine (ih hstop).bind ?_
    rintro _ ⟨tokens, last, rfl, hrest⟩
    refine ⟨_ :: tokens, last, rfl, ?_, ?_, ⟨Coordinate.offset_le_after _ _, ?_, hrest.follow⟩, ?_,
      hrest.stop⟩
    · exact forall_mem_cons.2 ⟨hstart.isIn, hrest.starts⟩
    · exact forall_mem_cons.2 ⟨hstop.isIn, hrest.stops⟩
    · obtain ⟨w, rfl⟩ := Nat.exists_eq_succ_of_ne_zero (Nat.ne_of_gt hwidth)
      exact Coordinate.offset_lt_after start c _
    · exact forall_mem_cons.2 ⟨kind_lexeme hlexeme, hrest.kinds⟩

end Token

/-- The tokens of a text stand in it one behind the other. -/
theorem tokenize_lexes (code : String) : Meets (fun e => e.place.In code)
    (fun all => ∃ tokens stop, all = tokens ++ [stop] ∧ Token.Lexes code .origin tokens stop)
    (tokenize code) :=
  Token.readFrom_lexes (Coordinate.at_origin code)

end Estimation
