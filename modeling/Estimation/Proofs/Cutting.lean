import Estimation.Proofs.Tiling
import Estimation.Syntax.Grammar

/-!
Cutting a text behind one of its tokens. No token depends on what is behind it, so the beginning of a
text has the first of its tokens; and the mark of the end that is added to these where they are read by
themselves is the one that the beginning of the text has.
-/

namespace Estimation

open List

namespace Token

/-! ### Looking ahead -/

/-- What is measured at the front of a text does not depend on what is behind it. -/
structure Local (width : List Char → Nat) : Prop where
  le : ∀ cs, width cs ≤ cs.length
  eq : ∀ word rest, width (word ++ rest) ≤ word.length → width word = width (word ++ rest)

/-- One piece behind another. -/
def bothWidths (first second : List Char → Nat) (cs : List Char) : Nat :=
  first cs + second (cs.drop (first cs))

theorem Local.both {first second : List Char → Nat} (hfirst : Local first) (hsecond : Local second) :
    Local (bothWidths first second) where
  le cs := by
    have hle := hfirst.le cs
    have hrest := hsecond.le (cs.drop (first cs))
    rw [length_drop] at hrest
    unfold bothWidths
    omega
  eq word rest h := by
    unfold bothWidths at h ⊢
    have hle : first (word ++ rest) ≤ word.length := Nat.le_trans (Nat.le_add_right _ _) h
    rw [hfirst.eq word rest hle]
    rw [drop_append_of_le_length hle] at h ⊢
    have hrest : second (word.drop (first (word ++ rest)) ++ rest) ≤
        (word.drop (first (word ++ rest))).length := by
      rw [length_drop]
      omega
    rw [hsecond.eq _ _ hrest]

theorem any_head_append {p : Char → Bool} {word rest : List Char}
    (h : (word ++ rest).head?.any p = false) : word.head?.any p = false := by
  cases word with
  | nil => rfl
  | cons c word => exact h

/-! ### Numbers -/

theorem digitsWidth_local : Local digitsWidth where
  le _ := (takeWhile_sublist _).length_le
  eq word rest h := by
    unfold digitsWidth at h ⊢
    rw [takeWhile_append] at h ⊢
    split at h
    · next hall =>
      rw [length_append] at h
      rw [if_pos hall, length_append]
      omega
    · next hall => rw [if_neg hall]

theorem fractionWidth_cons (c : Char) (r : List Char) : fractionWidth (c :: r) =
    if c = '.' then if digitsWidth r = 0 then 0 else 1 + digitsWidth r else 0 := by
  unfold fractionWidth
  split <;> simp_all

theorem fractionWidth_local : Local fractionWidth where
  le cs := by
    cases cs with
    | nil => exact Nat.le_refl 0
    | cons c cs =>
      have hle := digitsWidth_local.le cs
      rw [fractionWidth_cons, length_cons]
      split
      · split <;> omega
      · omega
  eq word rest h := by
    cases word with
    | nil => exact (Nat.le_zero.1 h).symm
    | cons c word =>
      rw [cons_append, fractionWidth_cons, length_cons] at h
      rw [cons_append, fractionWidth_cons, fractionWidth_cons]
      split
      · next hc =>
        rw [if_pos hc] at h
        have hdigits : digitsWidth (word ++ rest) ≤ word.length := by
          split at h <;> omega
        rw [digitsWidth_local.eq _ _ hdigits]
      · rfl

theorem signWidth_cons (c : Char) (r : List Char) :
    signWidth (c :: r) = if c = '+' ∨ c = '-' then 1 else 0 := by
  unfold signWidth
  split <;> simp_all

theorem signWidth_local : Local signWidth where
  le cs := by
    cases cs with
    | nil => exact Nat.le_refl 0
    | cons c cs =>
      rw [signWidth_cons, length_cons]
      split <;> omega
  eq word rest h := by
    cases word with
    | nil => exact (Nat.le_zero.1 h).symm
    | cons c word => rw [cons_append, signWidth_cons, signWidth_cons]

/-- The digits of an exponent behind its sign. Where there are none, there are none in a beginning of the
text either. -/
theorem exponentDigits_eq (word rest : List Char)
    (h : bothWidths signWidth digitsWidth (word ++ rest) ≤ word.length ∨
      digitsWidth ((word ++ rest).drop (signWidth (word ++ rest))) = 0) :
    digitsWidth (word.drop (signWidth word)) =
      digitsWidth ((word ++ rest).drop (signWidth (word ++ rest))) := by
  unfold bothWidths at h
  cases word with
  | nil => exact Eq.symm (h.elim (fun h => Nat.le_zero.1 (Nat.le_trans (Nat.le_add_left _ _) h)) id)
  | cons c word =>
    have hsign : signWidth (c :: word ++ rest) = signWidth (c :: word) := by
      rw [cons_append, signWidth_cons, signWidth_cons]
    have hle := signWidth_local.le (c :: word)
    rw [hsign, drop_append_of_le_length hle] at h ⊢
    refine digitsWidth_local.eq _ _ ?_
    rw [length_drop]
    omega

theorem exponentWidth_local : Local exponentWidth where
  le cs := by
    cases cs with
    | nil => exact Nat.le_refl 0
    | cons c cs =>
      have hle := (signWidth_local.both digitsWidth_local).le cs
      unfold bothWidths at hle
      simp only [exponentWidth, length_cons]
      split <;> omega
  eq word rest h := by
    cases word with
    | nil => exact (Nat.le_zero.1 h).symm
    | cons c word =>
      simp only [cons_append, exponentWidth, length_cons] at h ⊢
      by_cases hc : c = 'e' ∨ c = 'E'
      · simp only [hc, true_and] at h ⊢
        have hdigits := exponentDigits_eq word rest (by
          unfold bothWidths
          split at h <;> omega)
        rw [hdigits]
        split
        · next hne =>
          rw [if_pos hne] at h
          have hsign : signWidth word = signWidth (word ++ rest) := signWidth_local.eq _ _ (by omega)
          rw [hsign]
        · rfl
      · simp only [hc, false_and, ↓reduceIte]

/-- A number up to the magnitude letter. -/
def scaledWidth : List Char → Nat := bothWidths (bothWidths digitsWidth fractionWidth) exponentWidth

theorem numberWidth_eq (cs : List Char) :
    numberWidth cs = scaledWidth cs + magnitudeWidth (cs.drop (scaledWidth cs)) := rfl

theorem scaledWidth_local : Local scaledWidth :=
  (digitsWidth_local.both fractionWidth_local).both exponentWidth_local

theorem isNamePart_of_magnitude {c : Char} (h : (magnitude? c).isSome = true) :
    isNamePart c = true := by
  unfold magnitude? at h
  split at h
  · decide
  · decide
  · decide
  · decide
  · cases h

/-- A magnitude letter that a name goes on behind would stand directly behind the number. -/
theorem magnitudeWidth_front {word rest : List Char}
    (h : magnitudeWidth (word ++ rest) ≤ word.length)
    (hends : ((word ++ rest).drop (magnitudeWidth (word ++ rest))).head?.any isNamePart = false) :
    magnitudeWidth word = magnitudeWidth (word ++ rest) := by
  cases word with
  | nil => exact (Nat.le_zero.1 h).symm
  | cons c word =>
    simp only [cons_append, magnitudeWidth] at hends ⊢
    by_cases hc : (magnitude? c).isSome = true
    · cases hnext : (word ++ rest).head?.any isNamePart with
      | false => rw [any_head_append hnext]
      | true =>
        rw [hnext] at hends
        simp [isNamePart_of_magnitude hc] at hends
    · simp [hc]

theorem magnitudeWidth_le (cs : List Char) : magnitudeWidth cs ≤ cs.length := by
  cases cs with
  | nil => exact Nat.le_refl 0
  | cons c cs =>
    rw [magnitudeWidth, length_cons]
    split <;> omega

theorem numberWidth_le (cs : List Char) : numberWidth cs ≤ cs.length := by
  have hscaled := scaledWidth_local.le cs
  have hletter := magnitudeWidth_le (cs.drop (scaledWidth cs))
  rw [length_drop] at hletter
  rw [numberWidth_eq]
  omega

theorem numberWidth_front {word rest : List Char} (h : numberWidth (word ++ rest) ≤ word.length)
    (hends : ((word ++ rest).drop (numberWidth (word ++ rest))).head?.any isNamePart = false) :
    numberWidth word = numberWidth (word ++ rest) := by
  rw [numberWidth_eq] at h hends
  have hle : scaledWidth (word ++ rest) ≤ word.length := Nat.le_trans (Nat.le_add_right _ _) h
  have hscaled := scaledWidth_local.eq word rest hle
  rw [← drop_drop] at hends
  rw [drop_append_of_le_length hle] at h hends
  rw [numberWidth_eq, numberWidth_eq, hscaled, drop_append_of_le_length hle]
  refine congrArg _ (magnitudeWidth_front ?_ hends)
  rw [length_drop]
  omega

theorem startsNumber_front (word rest : List Char)
    (h : startsNumber (word ++ rest) = true → numberWidth (word ++ rest) ≤ word.length) :
    startsNumber word = startsNumber (word ++ rest) := by
  have hwidth : digitsWidth (word ++ rest) +
      fractionWidth ((word ++ rest).drop (digitsWidth (word ++ rest))) ≤ word.length := by
    cases hstarts : startsNumber (word ++ rest) with
    | true => exact Nat.le_trans (Nat.le_trans (Nat.le_add_right _ _) (Nat.le_add_right _ _)) (h hstarts)
    | false =>
      have hnone : digitsWidth (word ++ rest) = 0 ∧ fractionWidth (word ++ rest) = 0 := by
        simpa [startsNumber] using hstarts
      rw [hnone.1, drop_zero, hnone.2]
      exact Nat.zero_le _
  have hdigits : digitsWidth word = digitsWidth (word ++ rest) := digitsWidth_local.eq _ _ (by omega)
  unfold startsNumber
  rw [hdigits]
  by_cases hzero : digitsWidth (word ++ rest) = 0
  · rw [hzero, drop_zero, Nat.zero_add] at hwidth
    rw [fractionWidth_local.eq _ _ hwidth]
  · have hpos (n : Nat) : 0 < digitsWidth (word ++ rest) + n := by omega
    simp [hpos]

theorem numberLexeme_front (word rest : List Char) {found : Lexeme}
    {hstarts : startsNumber (word ++ rest) = true} (hword : startsNumber word = true)
    (h : numberLexeme (word ++ rest) hstarts = .ok found) (hw : found.width ≤ word.length) :
    numberLexeme word hword = .ok found := by
  unfold numberLexeme at h ⊢
  dsimp only at h ⊢
  split at h
  · cases h
  · next hends =>
    cases h
    rw [Bool.not_eq_true] at hends
    simp only [numberWidth_front hw hends]
    rw [drop_append_of_le_length hw] at hends
    rw [any_head_append hends, take_append_of_le_length hw]
    rfl

/-! ### Strings, names and symbols -/

theorem stringBody_of_quotes {quote : Char} (hquote : quote ≠ '\\') {inner content : List Char}
    (h : Quotes quote inner content) (n : Nat) (rest : List Char) :
    stringBody quote n (inner ++ quote :: rest) = .ok (content, n + inner.length + 1) := by
  induction h generalizing n with
  | nil => simp [stringBody]
  | @escape e c inner content he _ ih =>
    have hlength : n + 2 + inner.length + 1 = n + ('\\' :: e :: inner).length + 1 := by
      simp only [length_cons]
      omega
    simp [stringBody, he, ih (n + 2), hlength, bind, Except.bind, pure, Except.pure]
  | @char c inner content hslash hother _ ih =>
    have hlength : n + 1 + inner.length + 1 = n + (c :: inner).length + 1 := by
      simp only [length_cons]
      omega
    simp [stringBody, hother, ih (n + 1), hlength, bind, Except.bind, pure, Except.pure]

theorem stringBody_front {quote : Char} (hquote : quote ≠ '\\') {n width : Nat}
    {word rest content : List Char} (h : stringBody quote n (word ++ rest) = .ok (content, width))
    (hw : width ≤ n + word.length) : stringBody quote n word = .ok (content, width) := by
  have hquotes := stringBody_quotes quote n (word ++ rest)
  rw [h] at hquotes
  obtain ⟨inner, behind, hcs, rfl, hinner⟩ := hquotes
  have hinside : inner ++ [quote] <+: word ++ rest := ⟨behind, by simp [hcs]⟩
  obtain ⟨more, rfl⟩ := prefix_of_prefix_length_le hinside (prefix_append word rest) (by
    rw [length_append, length_singleton]
    omega)
  rw [append_assoc]
  exact stringBody_of_quotes hquote hinner n more

theorem stringLexeme_front {quote : Char} (hquote : quote ≠ '\\') {word rest : List Char}
    {found : Lexeme} (h : stringLexeme quote (word ++ rest) = .ok found)
    (hw : found.width ≤ 1 + word.length) : stringLexeme quote word = .ok found := by
  unfold stringLexeme at h ⊢
  split at h <;> cases h
  next content width hbody =>
  have hword : stringBody quote 1 word = .ok (content, width) := stringBody_front hquote hbody hw
  split
  · next he => cases hword.symm.trans he
  · next he =>
    cases hword.symm.trans he
    rfl

theorem isNamePart_of_start {c : Char} (h : isNameStart c = true) : isNamePart c = true := by
  simp only [isNameStart, Bool.or_eq_true] at h
  simp only [isNamePart, Char.isAlphanum, Bool.or_eq_true]
  exact h.imp_left (Or.imp_left .inl)

theorem nameWidth_pos (qualified : Bool) {cs : List Char} (h : cs.head?.any isNameStart = true) :
    0 < nameWidth qualified cs := by
  cases cs with
  | nil => cases h
  | cons c cs =>
    rw [nameWidth, if_pos (isNamePart_of_start h)]
    omega

/-- A name that goes on behind a point is not cut behind the point. -/
theorem nameWidth_local (qualified : Bool) : Local (nameWidth qualified) where
  le cs := by
    induction cs with
    | nil => exact Nat.le_refl 0
    | cons c cs ih =>
      rw [nameWidth, length_cons]
      split
      · omega
      · split <;> omega
  eq word rest h := by
    induction word with
    | nil => exact (Nat.le_zero.1 h).symm
    | cons c word ih =>
      rw [cons_append, nameWidth, length_cons] at h
      rw [cons_append, nameWidth, nameWidth]
      by_cases hc : isNamePart c = true
      · rw [if_pos hc] at h
        rw [if_pos hc, if_pos hc, ih (by omega)]
      · rw [if_neg hc] at h
        rw [if_neg hc, if_neg hc]
        by_cases hgoes : c = '.' ∧ qualified = true ∧ (word ++ rest).head?.any isNameStart = true
        · have hpos := nameWidth_pos qualified hgoes.2.2
          rw [if_pos hgoes] at h
          have hnext : word.head?.any isNameStart = true := by
            cases word with
            | nil =>
              rw [length_nil] at h
              omega
            | cons d word => exact hgoes.2.2
          rw [if_pos hgoes, if_pos ⟨hgoes.1, hgoes.2.1, hnext⟩, ih (by omega)]
        · have hstops : ¬ (c = '.' ∧ qualified = true ∧ word.head?.any isNameStart = true) := by
            rintro ⟨hdot, hqualified, hnext⟩
            refine hgoes ⟨hdot, hqualified, ?_⟩
            cases word with
            | nil => cases hnext
            | cons d word => exact hnext
          rw [if_neg hgoes, if_neg hstops]

theorem nameLexeme_front {c : Char} {word rest : List Char}
    (hw : (nameLexeme c (word ++ rest)).width ≤ (c :: word).length) :
    nameLexeme c word = nameLexeme c (word ++ rest) := by
  change 1 + nameWidth c.isUpper (word ++ rest) ≤ (c :: word).length at hw
  have hwidth : nameWidth c.isUpper word = nameWidth c.isUpper (word ++ rest) := by
    refine (nameWidth_local _).eq _ _ ?_
    rw [length_cons] at hw
    omega
  unfold nameLexeme
  simp only [hwidth]
  rw [← cons_append, take_append_of_le_length hw]

theorem beginning_front {sign : Symbol} (word rest : List Char)
    (h : Symbol.beginning? (word ++ rest) = some sign) (hw : sign.spelling.length ≤ word.length) :
    Symbol.beginning? word = some sign := by
  unfold Symbol.beginning? at h ⊢
  obtain ⟨hsign, before, after, hall, hbefore⟩ := find?_eq_some_iff_append.1 h
  refine find?_eq_some_iff_append.2 ⟨?_, before, after, hall, fun s hs => ?_⟩
  · exact isPrefixOf_iff_prefix.2
      (prefix_of_prefix_length_le ( isPrefixOf_iff_prefix.1 hsign) (prefix_append word rest) hw)
  · have hother := hbefore s hs
    rw [Bool.not_eq_true', ← Bool.not_eq_true, isPrefixOf_iff_prefix] at hother ⊢
    exact fun hfront => hother (hfront.trans (prefix_append word rest))

/-! ### Lexemes and gaps -/

theorem lexeme_front {c : Char} (word rest : List Char) {found : Lexeme}
    (h : lexeme c (word ++ rest) = .ok found) (hw : found.width ≤ (c :: word).length) :
    lexeme c word = .ok found := by
  have hstarts : startsNumber (c :: word) = startsNumber (c :: (word ++ rest)) := by
    refine startsNumber_front (c :: word) rest fun hnumber => ?_
    rw [cons_append] at hnumber ⊢
    unfold lexeme at h
    rw [dif_pos hnumber] at h
    unfold numberLexeme at h
    dsimp only at h
    split at h <;> cases h
    exact hw
  unfold lexeme at h ⊢
  split at h
  · next hnumber =>
    have hword : startsNumber (c :: word) = true := hstarts.trans hnumber
    rw [dif_pos hword]
    exact numberLexeme_front (c :: word) rest hword h hw
  · next hnumber =>
    have hword : ¬ startsNumber (c :: word) = true := hstarts ▸ hnumber
    rw [dif_neg hword]
    split at h
    · next hquote =>
      have hslash : c ≠ '\\' := by
        rcases hquote with rfl | rfl <;> decide
      rw [if_pos hquote]
      exact stringLexeme_front hslash h (by rw [length_cons] at hw; omega)
    · next hquote =>
      rw [if_neg hquote]
      split at h
      · next hname =>
        cases h
        rw [if_pos hname, nameLexeme_front hw]
      · next hname =>
        rw [if_neg hname]
        split at h <;> cases h
        next sign hsign =>
        rw [beginning_front (c :: word) rest hsign hw]

theorem width_lexeme_le {c : Char} {r : List Char} {found : Lexeme} (h : lexeme c r = .ok found) :
    found.width ≤ (c :: r).length := by
  unfold lexeme at h
  split at h
  · unfold numberLexeme at h
    dsimp only at h
    split at h <;> cases h
    exact numberWidth_le (c :: r)
  · split at h
    · unfold stringLexeme at h
      split at h <;> cases h
      next content width hbody =>
      have hquotes := stringBody_quotes c 1 r
      rw [hbody] at hquotes
      obtain ⟨inner, rest, rfl, rfl, -⟩ := hquotes
      simp only [length_cons, length_append]
      omega
    · split at h
      · cases h
        have hle := (nameWidth_local c.isUpper).le r
        change 1 + nameWidth c.isUpper r ≤ r.length + 1
        omega
      · split at h <;> cases h
        next sign hsign =>
        have hspelled : sign.spelling.isPrefixOf (c :: r) = true := by
          have hfound := find?_some hsign
          exact hfound
        exact ( isPrefixOf_iff_prefix.1 hspelled).length_le

theorem le_of_gapFrom {inside : Inside} {n m : Nat} {cs : List Char}
    (h : gapFrom inside n cs = .ok m) : n ≤ m := by
  obtain ⟨gap, -, -, rfl, -⟩ := gapFrom_left h
  exact Nat.le_add_right _ _

theorem lt_of_blockComment {since n m : Nat} {cs : List Char}
    (h : gapFrom (.blockComment since) n cs = .ok m) : n < m := by
  obtain ⟨_, -, -, rfl, words, rest, -, rfl, -⟩ := gapFrom_left h
  rw [length_append, length_cons]
  omega

/-- Two characters that open or close a comment are not cut apart. -/
theorem gapFrom_front {inside : Inside} {n m : Nat} {word rest : List Char}
    (h : gapFrom inside n (word ++ rest) = .ok m) (hm : m < n + word.length) :
    gapFrom inside n word = .ok m := by
  fun_induction gapFrom inside n word with
  | case1 since n => exact absurd (le_of_gapFrom h) (Nat.not_le_of_lt hm)
  | case2 inside n hinside => exact absurd (le_of_gapFrom h) (Nat.not_le_of_lt hm)
  | case3 n r ih =>
    rw [cons_append, cons_append, gapFrom] at h
    rw [length_cons, length_cons] at hm
    exact ih h (by omega)
  | case4 n r ih =>
    rw [cons_append, cons_append, gapFrom] at h
    rw [length_cons, length_cons] at hm
    exact ih h (by omega)
  | case5 n c r hline hblock hblank ih =>
    have hc : c ≠ '/' := by
      rintro rfl
      exact absurd hblank (by decide)
    rw [length_cons] at hm
    rw [cons_append, gapFrom, if_pos hblank] at h
    · exact ih h (by omega)
    · exact fun _ hslash => absurd hslash hc
    · exact fun _ hslash => absurd hslash hc
  | case6 n c r hline hblock hblank =>
    cases r with
    | nil =>
      have hle := le_of_gapFrom h
      rw [length_singleton] at hm
      exact congrArg Except.ok (by omega)
    | cons d r =>
      rw [cons_append, cons_append, gapFrom, if_neg hblank] at h
      · exact h
      · exact fun _ hc hd => hline r hc (by cases hd; rfl)
      · exact fun _ hc hd => hblock r hc (by cases hd; rfl)
  | case7 n r ih =>
    rw [cons_append, gapFrom] at h
    rw [length_cons] at hm
    exact ih h (by omega)
  | case8 n c r hc ih =>
    rw [length_cons] at hm
    rw [cons_append, gapFrom] at h
    · exact ih h (by omega)
    · exact hc
  | case9 since n r ih =>
    rw [cons_append, cons_append, gapFrom] at h
    rw [length_cons, length_cons] at hm
    exact ih h (by omega)
  | case10 since n c r hc ih =>
    rw [length_cons] at hm
    cases r with
    | nil =>
      have hlt := lt_of_blockComment h
      rw [length_nil] at hm
      omega
    | cons d r =>
      rw [cons_append, cons_append, gapFrom] at h
      · exact ih h (by omega)
      · exact fun _ hstar hd => hc r hstar (by cases hd; rfl)

theorem gapWidth_front {n : Nat} (word rest : List Char) (h : gapWidth (word ++ rest) = .ok n)
    (hn : n < word.length) : gapWidth word = .ok n :=
  gapFrom_front h (Nat.lt_of_lt_of_eq hn (Nat.zero_add _).symm)

/-! ### Texts -/

theorem readFrom_nil (place : Coordinate) : readFrom place [] = .ok [⟨.stop, .point place, false⟩] := by
  rw [readFrom]
  rfl

theorem readFrom_lexeme {place : Coordinate} {cs r : List Char} {c : Char} {n : Nat} {found : Lexeme}
    (hgap : gapWidth cs = .ok n) (hdrop : cs.drop n = c :: r) (hfound : lexeme c r = .ok found) :
    readFrom place cs = (do
      let start := place.after (cs.take n)
      let stop := start.after ((c :: r).take found.width)
      let rest ← readFrom stop ((c :: r).drop found.width)
      return ⟨found.kind, ⟨start, stop⟩, (cs.take n).contains '\n'⟩ :: rest) := by
  rw [readFrom, hgap]
  dsimp only
  split
  · next hnil => cases hdrop.symm.trans hnil
  · next hcons =>
    cases hdrop.symm.trans hcons
    rw [hfound]

/-- Where the last of some tokens ends; without tokens, at the place before them. -/
def endFrom (place : Coordinate) (tokens : List Token) : Coordinate :=
  (tokens.getLast?.map fun t => t.span.stop).getD place

/-- The mark of the end directly behind some tokens. -/
def stopBehind (place : Coordinate) (tokens : List Token) : Token :=
  ⟨.stop, .point (endFrom place tokens), false⟩

theorem endFrom_cons (place : Coordinate) (t : Token) (tokens : List Token) :
    endFrom place (t :: tokens) = endFrom t.span.stop tokens := by
  unfold endFrom
  rw [getLast?_cons]
  cases tokens.getLast? <;> rfl

/-- A text begins with texts that have the first of its tokens. -/
theorem readFrom_take (place : Coordinate) (cs : List Char) :
    Meets (fun _ => True) (fun tokens => ∀ k < tokens.length, ∃ word rest, cs = word ++ rest ∧
      place.after word = endFrom place (tokens.take k) ∧
      readFrom place word = .ok (tokens.take k ++ [stopBehind place (tokens.take k)]))
      (readFrom place cs) := by
  fun_induction readFrom place cs with
  | case1 => trivial
  | case2 place cs n hn start newline hdrop =>
    intro k hk
    obtain rfl : k = 0 := Nat.lt_one_iff.1 hk
    exact ⟨[], cs, rfl, rfl, readFrom_nil place⟩
  | case3 => trivial
  | case4 place cs n hn start newline c r hdrop kind width hwidth hlexeme stop ih =>
    refine ih.bind fun tokens htokens k hk => ?_
    cases k with
    | zero => exact ⟨[], cs, rfl, rfl, readFrom_nil place⟩
    | succ k =>
      obtain ⟨behind, rest, hbehind, hafter, hread⟩ := htokens k (Nat.lt_of_succ_lt_succ hk)
      obtain ⟨w, rfl⟩ := Nat.exists_eq_succ_of_ne_zero (Nat.ne_of_gt hwidth)
      rw [drop_succ_cons] at hbehind
      have hw : w ≤ r.length := Nat.le_of_succ_le_succ (width_lexeme_le hlexeme)
      have hgap : (cs.take n).length = n := by
        have hlength := congrArg length hdrop
        rw [length_drop, length_cons] at hlength
        rw [length_take]
        omega
      -- The gap before the token, the token, and what the tokens behind it are read from.
      have hr : r = (r.take w ++ behind) ++ rest := by
        rw [append_assoc, ← hbehind, take_append_drop]
      have hcs : cs = (cs.take n ++ c :: (r.take w ++ behind)) ++ rest := by
        rw [append_assoc, cons_append, ← hr, ← hdrop, take_append_drop]
      refine ⟨cs.take n ++ c :: (r.take w ++ behind), rest, hcs, ?_, ?_⟩
      · rw [← cons_append, Coordinate.after_append, Coordinate.after_append, take_succ_cons,
          endFrom_cons]
        exact hafter
      · have hgap' : gapWidth (cs.take n ++ c :: (r.take w ++ behind)) = .ok n := by
          refine gapWidth_front _ rest (hcs ▸ hn) ?_
          rw [length_append, hgap, length_cons]
          omega
        have hlexeme' : lexeme c (r.take w ++ behind) = .ok ⟨kind, w + 1, hwidth⟩ := by
          refine lexeme_front _ rest (hr ▸ hlexeme) ?_
          change w + 1 ≤ _
          rw [length_cons, length_append, length_take]
          omega
        have hlength : (c :: r.take w).length = w + 1 := by
          rw [length_cons, length_take]
          omega
        rw [readFrom_lexeme hgap' (drop_left' hgap) hlexeme', take_left' hgap, ← cons_append]
        dsimp only
        rw [take_left' hlength, drop_left' hlength, take_succ_cons, stopBehind, endFrom_cons]
        have hread' : readFrom ((place.after (cs.take n)).after (c :: r.take w)) behind = _ := hread
        rw [hread']
        rfl

end Token

/-! ### Sources and programs -/

/-- The beginning of a text that is so many bytes long. -/
def firstBytes : Nat → List Char → List Char
  | _, [] => []
  | n, c :: cs => if c.utf8Size ≤ n then c :: firstBytes (n - c.utf8Size) cs else []

theorem firstBytes_append (word rest : List Char) :
    firstBytes (String.ofList word).utf8ByteSize (word ++ rest) = word := by
  induction word with
  | nil =>
    cases rest with
    | nil => rfl
    | cons c rest =>
      have hpos := c.utf8Size_pos
      exact if_neg (Nat.not_le_of_lt hpos)
  | cons c word ih =>
    rw [utf8ByteSize_cons, cons_append, firstBytes, if_pos (Nat.le_add_right _ _),
      Nat.add_sub_cancel_left, ih]

/-- A source text up to a place in it. -/
def cut (source : String) (place : Coordinate) : String :=
  String.ofList (firstBytes place.offset source.toList)

namespace Syntax.Cursor

theorem ofTokens_marked {tokens : List Token} {stop : Token} (h : stop.kind = .stop) :
    ofTokens (tokens ++ [stop]) = ⟨tokens, stop, (tokens.headD stop).span.start⟩ := by
  obtain ⟨kind, span, newline⟩ := stop
  obtain rfl : kind = .stop := h
  unfold ofTokens
  simp only [getLast?_concat, dropLast_concat]

theorem ofTokens_unmarked {tokens : List Token} (h : ∀ t ∈ tokens.getLast?, t.kind ≠ .stop) :
    ofTokens tokens = ⟨tokens, Token.stopBehind .origin tokens,
      (tokens.headD (Token.stopBehind .origin tokens)).span.start⟩ := by
  unfold ofTokens
  split
  next x hx =>
    split at hx
    · next span newline hlast => exact absurd rfl (h _ hlast)
    · cases hx
      rfl

/-- Where no token marks the end, the reader adds the mark that a text has at its end. -/
theorem ofTokens_stop {tokens : List Token} (h : ∀ t ∈ tokens, t.kind ≠ .stop) :
    ofTokens (tokens ++ [Token.stopBehind .origin tokens]) = ofTokens tokens := by
  rw [ofTokens_marked rfl, ofTokens_unmarked fun t ht => h t (mem_of_getLast? ht)]

end Syntax.Cursor

/-- The beginning of a text up to the end of a token has the tokens up to this one, and spells what they
spell. -/
theorem tokenize_cut {source : String} {tokens : List Token} (h : tokenize source = .ok tokens) {k : Nat}
    (hk : k ≤ tokens.countP (·.kind ≠ .stop)) :
    let first := tokens.take k
    let place := Token.endFrom .origin first
    tokenize (cut source place) = .ok (first ++ [⟨.stop, .point place, false⟩]) ∧
      Syntax.parse (cut source place) = (Syntax.Program.ofTokens first).mapError .grammatical := by
  intro first place
  have hlexes := tokenize_lexes source
  have htake := Token.readFrom_take .origin source.toList
  unfold tokenize at h hlexes
  rw [h] at hlexes htake
  obtain ⟨words, stop, rfl, hwords⟩ := hlexes
  have hcount : (words ++ [stop]).countP (·.kind ≠ .stop) = words.length := by
    rw [countP_append, countP_eq_length.2 fun t ht => decide_eq_true (hwords.kinds t ht)]
    simp [hwords.stop]
  rw [hcount] at hk
  have hfirst : first = words.take k := take_append_of_le_length hk
  obtain ⟨word, rest, hsource, hplace, hread⟩ := htake k (by
    rw [length_append, length_singleton]
    omega)
  have hcut : (cut source place).toList = word := by
    have hoffset : place.offset = (String.ofList word).utf8ByteSize := by
      change (Token.endFrom .origin first).offset = _
      rw [← hplace, Coordinate.offset_after]
      exact Nat.zero_add _
    rw [cut, hsource, hoffset, firstBytes_append, String.toList_ofList]
  have htokens : tokenize (cut source place) = .ok (first ++ [Token.stopBehind .origin first]) := by
    rw [tokenize, hcut]
    exact hread
  refine ⟨htokens, ?_⟩
  have hprogram : Syntax.Program.ofTokens (first ++ [Token.stopBehind .origin first]) =
      Syntax.Program.ofTokens first := by
    have hkinds : ∀ t ∈ first, t.kind ≠ .stop := fun t ht =>
      hwords.kinds t (mem_of_mem_take (hfirst ▸ ht))
    have hcursor := Syntax.Cursor.ofTokens_stop hkinds
    unfold Syntax.Program.ofTokens
    rw [hcursor]
  unfold Syntax.parse
  rw [htokens]
  dsimp only
  rw [hprogram]
  cases Syntax.Program.ofTokens first <;> rfl

namespace Cutting

/-- A character of several bytes, a number that a magnitude letter ends, a symbol of two characters, a
name that goes on behind a point, and a comment. -/
def source : String := "b = 'é' * .5k -> F.g // -"

def tokens : List Token :=
  [⟨.name "b", ⟨⟨1, 1, 0⟩, ⟨1, 2, 1⟩⟩, false⟩,
    ⟨.symbol .assign, ⟨⟨1, 3, 2⟩, ⟨1, 4, 3⟩⟩, false⟩,
    ⟨.string "é", ⟨⟨1, 5, 4⟩, ⟨1, 8, 8⟩⟩, false⟩,
    ⟨.symbol .star, ⟨⟨1, 9, 9⟩, ⟨1, 10, 10⟩⟩, false⟩,
    ⟨.number ".5k", ⟨⟨1, 11, 11⟩, ⟨1, 14, 14⟩⟩, false⟩,
    ⟨.symbol .arrow, ⟨⟨1, 15, 15⟩, ⟨1, 17, 17⟩⟩, false⟩,
    ⟨.name "F.g", ⟨⟨1, 18, 18⟩, ⟨1, 21, 21⟩⟩, false⟩,
    ⟨.stop, .point ⟨1, 26, 26⟩, false⟩]

/-- Behind the arrow the end of the text comes too early, with and without its mark. -/
def place : Coordinate := Token.endFrom .origin (tokens.take 6)

set_option maxRecDepth 100000 in
theorem source_cut : tokenize source = .ok tokens ∧ 6 ≤ tokens.countP (·.kind ≠ .stop) ∧
    tokenize (cut source place) = .ok (tokens.take 6 ++ [⟨.stop, .point place, false⟩]) ∧
      Syntax.parse (cut source place) = (Syntax.Program.ofTokens (tokens.take 6)).mapError .grammatical :=
  have h : tokenize source = .ok tokens := ok_of_toOption (by decide +kernel)
  have hk : 6 ≤ tokens.countP (·.kind ≠ .stop) := by decide +kernel
  ⟨h, hk, tokenize_cut h hk⟩

example : cut source place = "b = 'é' * .5k ->" := by decide +kernel

end Cutting

end Estimation
