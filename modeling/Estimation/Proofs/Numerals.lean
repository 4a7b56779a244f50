import Mathlib.Data.List.Chain
import Estimation.Proofs.Cutting
import Estimation.Proofs.Layout.Readers

/-!
Numbers as they are written. What is measured as a number spells a numeral, with a magnitude letter
behind it or none, and numerals are read; so a token that is a number has a value. No name stands
directly behind a number.
-/

namespace Estimation

open List

/-! ### Numerals -/

namespace Numeral

def Digits (cs : List Char) : Prop := ∀ c ∈ cs, c.isDigit = true

/-- A point with digits behind it, or nothing. -/
inductive Fraction : List Char → Prop
  | none : Fraction []
  | point {digits : List Char} : Digits digits → digits ≠ [] → Fraction ('.' :: digits)

/-- A mark with digits behind it, and with a sign between them or none; or nothing. -/
inductive Exponent : List Char → Prop
  | none : Exponent []
  | mark {letter : Char} {sign digits : List Char} : letter = 'e' ∨ letter = 'E' →
      sign = [] ∨ sign = ['+'] ∨ sign = ['-'] → Digits digits → digits ≠ [] →
      Exponent (letter :: (sign ++ digits))

/-- Digits before a point or behind it, at least one, with an exponent or without. -/
inductive Spelled : List Char → Prop
  | mk {whole fraction exponent : List Char} : Digits whole → Fraction fraction →
      whole ++ fraction ≠ [] → Exponent exponent → Spelled (whole ++ (fraction ++ exponent))

variable {cs : List Char}

theorem takeWhile_digits {digits : List Char} (h : Digits digits)
    (hcs : cs.head?.any Char.isDigit = false) : (digits ++ cs).takeWhile Char.isDigit = digits := by
  rw [takeWhile_append_of_pos h]
  cases cs with
  | nil => exact append_nil _
  | cons c cs => rw [takeWhile_cons_of_neg (by simpa using hcs), append_nil]

theorem dropWhile_digits {digits : List Char} (h : Digits digits)
    (hcs : cs.head?.any Char.isDigit = false) : (digits ++ cs).dropWhile Char.isDigit = cs := by
  rw [dropWhile_append_of_pos h]
  cases cs with
  | nil => rfl
  | cons c cs => exact dropWhile_cons_of_neg (by simpa using hcs)

theorem Exponent.head (h : Exponent cs) : cs.head?.any Char.isDigit = false ∧ cs.head? ≠ some '.' := by
  cases h with
  | none => exact ⟨rfl, nofun⟩
  | mark hletter => rcases hletter with rfl | rfl <;> exact ⟨rfl, by simp⟩

theorem Fraction.head {fraction : List Char} (h : Fraction fraction)
    (hcs : cs.head?.any Char.isDigit = false) : (fraction ++ cs).head?.any Char.isDigit = false := by
  cases h with
  | none => exact hcs
  | point => rfl

/-! ### Reading -/

open Number.Numeral (sign exponent? fraction decimal?)

theorem sign_of_head (hminus : cs.head? ≠ some '-') (hplus : cs.head? ≠ some '+') :
    sign cs = (false, cs) := by
  unfold sign
  split
  · exact absurd rfl hminus
  · exact absurd rfl hplus
  · rfl

theorem Digits.head_ne {digits : List Char} (h : Digits digits) {c : Char} (hc : c.isDigit = false) :
    digits.head? ≠ some c := fun hhead => by
  rw [h c (mem_of_head? hhead)] at hc
  cases hc

theorem Exponent.read (h : Exponent cs) : (exponent? cs).isSome = true := by
  cases h with
  | none => rfl
  | @mark letter s digits hletter hsign hdigits hne =>
    have hsplit : ∃ negative, sign (s ++ digits) = (negative, digits) := by
      rcases hsign with rfl | rfl | rfl
      · exact ⟨false, sign_of_head (hdigits.head_ne rfl) (hdigits.head_ne rfl)⟩
      · exact ⟨false, rfl⟩
      · exact ⟨true, rfl⟩
    obtain ⟨negative, hsplit⟩ := hsplit
    have hall : digits.all Char.isDigit = true := all_eq_true.2 hdigits
    simp [exponent?, hsplit, hletter, hne, hall]

theorem Fraction.read {text : List Char} (h : Fraction text) (hcs : Exponent cs) :
    fraction (text ++ cs) = (text.drop 1, cs) := by
  cases h with
  | none =>
    unfold fraction
    split
    · next heq =>
      rw [nil_append] at heq
      exact absurd (heq ▸ rfl) hcs.head.2
    · rfl
  | @point digits hdigits =>
    rw [cons_append, fraction, takeWhile_digits hdigits hcs.head.1, dropWhile_digits hdigits hcs.head.1]
    rfl

theorem Spelled.head_ne (h : Spelled cs) {c : Char} (hc : c.isDigit = false) (hpoint : c ≠ '.') :
    cs.head? ≠ some c := by
  obtain ⟨hwhole, hfraction, hne, -⟩ := h
  rename_i whole fraction exponent
  cases whole with
  | nil =>
    cases hfraction with
    | none => exact absurd rfl hne
    | point => exact fun hhead => hpoint (Option.some.inj hhead).symm
  | cons d whole => exact hwhole.head_ne hc

theorem Spelled.decimal (h : Spelled cs) : (decimal? cs).isSome = true := by
  obtain ⟨hwhole, hfraction, hne, hexponent⟩ := h
  rename_i whole text exponent
  have hrest := hfraction.head hexponent.head.1
  have hplaces : whole ++ text.drop 1 ≠ [] := by
    cases hfraction with
    | none => exact hne
    | point _ hdigits => exact append_ne_nil_of_right_ne_nil whole hdigits
  obtain ⟨e, he⟩ := Option.isSome_iff_exists.1 hexponent.read
  simp only [decimal?, takeWhile_digits hwhole hrest, dropWhile_digits hwhole hrest,
    hfraction.read hexponent, guard, if_pos hplaces, he]
  rfl

/-- A numeral is read as a number. -/
theorem Spelled.read (h : Spelled cs) : (Number.read? cs).isSome = true := by
  have hsign : sign cs = (false, cs) :=
    sign_of_head (h.head_ne rfl (by decide)) (h.head_ne rfl (by decide))
  obtain ⟨numeral, hnumeral⟩ := Option.isSome_iff_exists.1 h.decimal
  simp [Number.read?, hsign, hnumeral]

/-! ### Last digits -/

theorem Digits.last {digits : List Char} (h : Digits digits) (hne : digits ≠ []) :
    ∃ c, digits.getLast? = some c ∧ c.isDigit = true :=
  ⟨digits.getLast hne, getLast?_eq_some_getLast hne, h _ (getLast_mem hne)⟩

theorem Spelled.last (h : Spelled cs) : ∃ c, cs.getLast? = some c ∧ c.isDigit = true := by
  obtain ⟨hwhole, hfraction, hne, hexponent⟩ := h
  rename_i whole text exponent
  cases hexponent with
  | none =>
    rw [append_nil]
    cases hfraction with
    | none =>
      rw [append_nil] at hne ⊢
      exact hwhole.last hne
    | @point digits hdigits hsome =>
      obtain ⟨c, hc, hdigit⟩ := hdigits.last hsome
      exact ⟨c, by rw [getLast?_append, getLast?_cons, hc]; rfl, hdigit⟩
  | @mark letter s digits _ _ hdigits hsome =>
    obtain ⟨c, hc, hdigit⟩ := hdigits.last hsome
    exact ⟨c, by simp [getLast?_append, getLast?_cons, hc], hdigit⟩

end Numeral

namespace Token

open Numeral (Spelled Digits Fraction Exponent)

variable {cs : List Char}

/-! ### Values -/

theorem magnitude_of_digit {c : Char} (h : c.isDigit = true) : magnitude? c = none := by
  unfold magnitude?
  split
  · cases h
  · cases h
  · cases h
  · cases h
  · rfl

/-- A numeral has a value, with a magnitude letter behind it or none. -/
theorem numberValue_of_spelled (h : Spelled cs) {letters : List Char}
    (hletters : letters = [] ∨ ∃ c, letters = [c] ∧ (magnitude? c).isSome = true) :
    (numberValue? (String.ofList (cs ++ letters))).isSome = true := by
  obtain ⟨x, hx⟩ := Option.isSome_iff_exists.1 h.read
  rcases hletters with rfl | ⟨c, rfl, hc⟩
  · obtain ⟨d, hd, hdigit⟩ := h.last
    simp [numberValue?, hd, magnitude_of_digit hdigit, hx]
  · obtain ⟨m, hm⟩ := Option.isSome_iff_exists.1 hc
    simp [numberValue?, hm, hx]

/-! ### Measures -/

theorem digits_take (cs : List Char) : Digits (cs.take (digitsWidth cs)) := by
  unfold digitsWidth
  rw [← prefix_iff_eq_take.1 ( takeWhile_prefix _)]
  exact all_eq_true.1 all_takeWhile

theorem take_digits_ne_nil {cs : List Char} (h : digitsWidth cs ≠ 0) : cs.take (digitsWidth cs) ≠ [] := by
  refine ne_nil_of_length_pos ?_
  have hle := digitsWidth_local.le cs
  rw [length_take]
  omega

theorem fraction_take (cs : List Char) : Fraction (cs.take (fractionWidth cs)) := by
  cases cs with
  | nil => exact .none
  | cons c r =>
    rw [fractionWidth_cons]
    split
    · next hc =>
      subst hc
      split
      · exact .none
      · next hdigits =>
        rw [Nat.add_comm 1, take_succ_cons]
        exact .point (digits_take r) (take_digits_ne_nil hdigits)
    · exact .none

theorem sign_take (cs : List Char) :
    cs.take (signWidth cs) = [] ∨ cs.take (signWidth cs) = ['+'] ∨ cs.take (signWidth cs) = ['-'] := by
  unfold signWidth
  split
  · exact .inr (.inl rfl)
  · exact .inr (.inr rfl)
  · exact .inl rfl

theorem exponent_take (cs : List Char) : Exponent (cs.take (exponentWidth cs)) := by
  cases cs with
  | nil => exact .none
  | cons c r =>
    unfold exponentWidth
    dsimp only
    split
    · next hmark =>
      rw [Nat.add_assoc, Nat.add_comm 1, take_succ_cons, take_add]
      exact .mark hmark.1 (sign_take r) (digits_take _) (take_digits_ne_nil hmark.2)
    · exact .none

theorem magnitude_take (cs : List Char) : cs.take (magnitudeWidth cs) = [] ∨
    ∃ c, cs.take (magnitudeWidth cs) = [c] ∧ (magnitude? c).isSome = true := by
  cases cs with
  | nil => exact .inl rfl
  | cons c r =>
    rw [magnitudeWidth]
    split
    · next hc => exact .inr ⟨c, rfl, (Bool.and_eq_true_iff.1 hc).1⟩
    · exact .inl rfl

/-- What is measured as a number up to the magnitude letter spells a numeral. -/
theorem scaled_take (h : startsNumber cs = true) : Spelled (cs.take (scaledWidth cs)) := by
  unfold scaledWidth bothWidths
  rw [take_add, take_add, append_assoc]
  refine .mk (digits_take cs) (fraction_take _) (fun hnil => ?_) (exponent_take _)
  obtain ⟨hwhole, hfraction⟩ := append_eq_nil_iff.1 hnil
  have hzero : digitsWidth cs = 0 :=
    Decidable.byContradiction fun hne => take_digits_ne_nil hne hwhole
  rw [hzero, drop_zero] at hfraction
  have hlength := congrArg length hfraction
  have hle := fractionWidth_local.le cs
  have hpos : 0 < digitsWidth cs + fractionWidth cs := of_decide_eq_true h
  rw [length_take, length_nil] at hlength
  omega

theorem number_take (h : startsNumber cs = true) :
    (numberValue? (String.ofList (cs.take (numberWidth cs)))).isSome = true := by
  rw [numberWidth_eq, take_add]
  exact numberValue_of_spelled (scaled_take h) (magnitude_take _)

/-! ### Tokens -/

/-- Words have letters: they are what would go on behind a number. -/
def Kind.isWord : Kind → Bool
  | .keyword _ => true
  | .name _ => true
  | _ => false

/-- A word that follows a number stands apart from it. -/
def Apart (t next : Token) : Prop :=
  (∃ written, t.kind = .number written) → next.kind.isWord = true →
    t.span.stop.offset < next.span.start.offset

/-- A lexeme that is a number has a value, and no name goes on behind it. -/
theorem number_of_lexeme {c : Char} {r : List Char} {found : Lexeme} {written : String}
    (h : lexeme c r = .ok found) (hkind : found.kind = .number written) :
    (numberValue? written).isSome = true ∧
      ((c :: r).drop found.width).head?.any isNamePart = false := by
  rcases lexeme_cases h with ⟨hstarts, hnumber⟩ | ⟨_, hother⟩ | ⟨-, rfl⟩ | ⟨_, hother⟩
  · obtain ⟨hwritten, hwidth, hends⟩ := numberLexeme_eq_ok hnumber
    obtain rfl := Kind.number.inj (hwritten.symm.trans hkind)
    exact ⟨number_take hstarts, hwidth ▸ hends⟩
  · cases hother.symm.trans hkind
  · rcases kind_nameLexeme c r with ⟨_, hother⟩ | ⟨_, hother⟩ <;> cases hother.symm.trans hkind
  · cases hother.symm.trans hkind

theorem start_of_word {c : Char} {r : List Char} {found : Lexeme} (h : lexeme c r = .ok found)
    (hword : found.kind.isWord = true) : isNamePart c = true := by
  rcases lexeme_cases h with ⟨_, hnumber⟩ | ⟨_, hother⟩ | ⟨hstart, -⟩ | ⟨_, hother⟩
  · rw [(numberLexeme_eq_ok hnumber).1] at hword
    cases hword
  · rw [hother] at hword
    cases hword
  · exact isNamePart_of_start hstart
  · rw [hother] at hword
    cases hword

/-- Where no name goes on, the first word stands behind a gap. -/
theorem readFrom_gap (place : Coordinate) (cs : List Char) :
    Meets (fun _ => True) (fun tokens => cs.head?.any isNamePart = false → ∀ t ∈ tokens.head?,
      t.kind.isWord = true → place.offset < t.span.start.offset) (readFrom place cs) := by
  rw [readFrom]
  split
  · trivial
  · next gap _ =>
    split
    · rintro - _ ⟨⟩ ⟨⟩
    · next c r hdrop =>
      split
      · trivial
      · next kind width hwidth hlexeme =>
        refine (Meets.any _).bind ?_
        rintro rest - hcs _ ⟨⟩ hword
        have hc := start_of_word hlexeme hword
        cases cs with
        | nil => simp at hdrop
        | cons d cs =>
          cases gap with
          | zero =>
            cases hdrop
            rw [head?_cons, Option.any_some, hc] at hcs
            cases hcs
          | succ gap => exact Coordinate.offset_lt_after place d _

theorem readFrom_numbers {code : String} {place : Coordinate} (h : Coordinate.At code place cs) :
    Meets (fun _ => True) (fun tokens =>
      (∀ t ∈ tokens, ∀ written, t.kind = .number written → (numberValue? written).isSome = true ∧
        ∃ rest, Coordinate.At code t.span.stop rest ∧ rest.head?.any isNamePart = false) ∧
      tokens.IsChain Apart) (readFrom place cs) := by
  fun_induction readFrom place cs with
  | case1 => trivial
  | case2 => exact ⟨forall_mem_singleton.2 (fun _ hkind => by cases hkind), .singleton _⟩
  | case3 => trivial
  | case4 place cs gap _ start newline c r hdrop kind width hwidth hlexeme stop ih =>
    have hstart := h.after gap
    rw [hdrop] at hstart
    have hstop := hstart.after width
    -- The gap behind this lexeme is known from reading on, not from the tokens themselves.
    refine ((readFrom_gap stop _).and (ih hstop)).bind ?_
    rintro rest ⟨hgap, hrest, hchain⟩
    refine ⟨forall_mem_cons.2 ⟨fun written hkind => ?_, hrest⟩, isChain_cons.2 ⟨?_, hchain⟩⟩
    · obtain ⟨hvalue, hends⟩ := number_of_lexeme hlexeme hkind
      exact ⟨hvalue, _, hstop, hends⟩
    · rintro next hnext ⟨written, hkind⟩ hword
      exact hgap (number_of_lexeme hlexeme hkind).2 next hnext hword

end Token

/-- A token that is a number has a value, so that no number of a text is found fault with once the text
has tokens, and a number is not the beginning of a longer word. -/
theorem tokenize_numbers {source : String} {tokens : List Token} (h : tokenize source = .ok tokens) :
    (∀ t ∈ tokens, ∀ written, t.kind = .number written → (Token.numberValue? written).isSome = true ∧
      ∃ rest, Coordinate.At source t.span.stop rest ∧
        rest.head?.any Token.isNamePart = false) ∧
    (∀ e, Syntax.parse source = .error (.grammatical e) → ∀ written, e.fault ≠ .invalidNumber written) ∧
    tokens.IsChain Token.Apart := by
  have hnumbers := Token.readFrom_numbers (Coordinate.at_origin source)
  have hlexes := tokenize_lexes source
  rw [h] at hlexes
  change Meets _ _ (tokenize source) at hnumbers
  rw [h] at hnumbers
  obtain ⟨hvalues, hchain⟩ := hnumbers
  refine ⟨hvalues, fun e he written hfault => ?_, hchain⟩
  obtain ⟨words, stop, rfl, hwords⟩ := hlexes
  have hprogram := Syntax.Program.ofTokens_laid hwords
  unfold Syntax.parse at he
  rw [h] at he
  dsimp only at he
  cases hread : Syntax.Program.ofTokens (words ++ [stop]) with
  | ok program =>
    rw [hread] at he
    cases he
  | error e' =>
    rw [hread] at he hprogram
    cases he
    have hof := hprogram.fault
    rw [hfault] at hof
    obtain ⟨t, ht, hkind, hnone⟩ := hof
    have hsome := (hvalues t (mem_append_left _ ht) written hkind).1
    rw [hnone] at hsome
    cases hsome

namespace Numerals

/-- A number with an exponent and a magnitude letter, a word, and a number that begins with a point. -/
def source : String := "2.5e1M then .5e-3"

def tokens : List Token :=
  [⟨.number "2.5e1M", ⟨⟨1, 1, 0⟩, ⟨1, 7, 6⟩⟩, false⟩,
    ⟨.keyword .thenWord, ⟨⟨1, 8, 7⟩, ⟨1, 12, 11⟩⟩, false⟩,
    ⟨.number ".5e-3", ⟨⟨1, 13, 12⟩, ⟨1, 18, 17⟩⟩, false⟩,
    ⟨.stop, .point ⟨1, 18, 17⟩, false⟩]

set_option maxRecDepth 100000 in
theorem source_numbers : tokenize source = .ok tokens ∧
    (Token.numberValue? "2.5e1M").isSome = true ∧ (Token.numberValue? ".5e-3").isSome = true ∧
    (∀ e, Syntax.parse source = .error (.grammatical e) → ∀ written, e.fault ≠ .invalidNumber written) ∧
    tokens.IsChain Token.Apart := by
  have h : tokenize source = .ok tokens := ok_of_toOption (by decide +kernel)
  obtain ⟨hvalues, hfaults, hchain⟩ := tokenize_numbers h
  exact ⟨h, (hvalues _ mem_cons_self _ rfl).1,
    (hvalues ⟨.number ".5e-3", ⟨⟨1, 13, 12⟩, ⟨1, 18, 17⟩⟩, false⟩ (by decide) _ rfl).1, hfaults, hchain⟩

end Numerals

end Estimation
