import Estimation.Proofs.Tokens

/-!
Tokens and the gaps between them tile a source text. A gap is blanks and whole comments, and every
other character belongs to one token.
-/

namespace Estimation

open List

namespace Coordinate

/-- The coordinate behind the beginning of a text, by what it counts: line breaks, the characters since
the last of them, and bytes. -/
def behind (before : List Char) : Coordinate where
  line := 1 + before.count '\n'
  column := 1 + (before.reverse.takeWhile (· ≠ '\n')).length
  offset := (String.ofList before).utf8ByteSize

theorem behind_concat (before : List Char) (c : Char) :
    behind (before ++ [c]) = (behind before).advance c := by
  have hoffset : (String.ofList (before ++ [c])).utf8ByteSize =
      (String.ofList before).utf8ByteSize + c.utf8Size := by
    rw [String.ofList_append, String.utf8ByteSize_append, utf8ByteSize_cons]
    rfl
  unfold advance behind
  rw [hoffset]
  split
  · next hc => simp [hc, Nat.add_assoc]
  · next hc => simp [hc, Nat.add_assoc]

theorem after_behind (before cs : List Char) :
    (behind before).after cs = behind (before ++ cs) := by
  induction cs generalizing before with
  | nil => rw [after_nil, append_nil]
  | cons c cs ih => rw [after_cons, ← behind_concat, ih, append_assoc, singleton_append]

end Coordinate

namespace Token

/-! ### Gaps -/

/-- Blanks and comments. A line comment without a line break goes on to the end of the text, so there
has to be one. -/
inductive Gap (ends : Prop) : List Char → Prop
  | nil : Gap ends []
  | blank {c cs} : Text.isBlank c = true → Gap ends cs → Gap ends (c :: cs)
  | line {words cs} : '\n' ∉ words → Gap ends cs → Gap ends ('/' :: '/' :: words ++ '\n' :: cs)
  | lastLine {words} : ends → '\n' ∉ words → Gap ends ('/' :: '/' :: words)
  | block {words cs} : ¬ ['*', '/'] <:+: words → Gap ends cs →
      Gap ends ('/' :: '*' :: words ++ '*' :: '/' :: cs)

theorem Gap.mono {ends ends' : Prop} {cs : List Char} (h : Gap ends cs) (hends : ends → ends') :
    Gap ends' cs := by
  induction h with
  | nil => exact .nil
  | blank hblank _ ih => exact .blank hblank ih
  | line hwords _ ih => exact .line hwords ih
  | lastLine hend hwords => exact .lastLine (hends hend) hwords
  | block hwords _ ih => exact .block hwords ih

/-- What is left of a gap where a reader of gaps stands. -/
def Inside.Left (ends : Prop) : Inside → List Char → Prop
  | .between, gap => Gap ends gap
  | .lineComment, gap => ∃ words, '\n' ∉ words ∧
      (ends ∧ gap = words ∨ ∃ cs, gap = words ++ '\n' :: cs ∧ Gap ends cs)
  | .blockComment _, gap => ∃ words cs, ¬ ['*', '/'] <:+: words ∧
      gap = words ++ '*' :: '/' :: cs ∧ Gap ends cs

/-- The words of a comment do not close it, nor do they with another character before them. -/
theorem not_closing_cons {c : Char} {words : List Char} (hwords : ¬ ['*', '/'] <:+: words)
    (hc : ∀ r, c = '*' → words = '/' :: r → False) : ¬ ['*', '/'] <:+: c :: words := by
  intro h
  rcases infix_cons_iff.1 h with hprefix | hinfix
  · obtain ⟨r, hr⟩ := hprefix
    cases hr
    exact hc r rfl rfl
  · exact hwords hinfix

theorem gapFrom_left {inside : Inside} {n m : Nat} {cs : List Char}
    (h : gapFrom inside n cs = .ok m) :
    ∃ gap rest, cs = gap ++ rest ∧ m = n + gap.length ∧ inside.Left (rest = []) gap := by
  fun_induction gapFrom inside n cs with
  | case1 => cases h
  | case2 inside n hinside =>
    cases h
    refine ⟨[], [], rfl, rfl, ?_⟩
    cases inside with
    | between => exact .nil
    | lineComment => exact ⟨[], nofun, .inl ⟨rfl, rfl⟩⟩
    | blockComment since => exact absurd rfl (hinside since)
  | case3 n r ih =>
    obtain ⟨gap, rest, rfl, rfl, words, hwords, ⟨hend, rfl⟩ | ⟨cs, rfl, hcs⟩⟩ := ih h
    · exact ⟨'/' :: '/' :: gap, rest, rfl, by simp; omega, .lastLine hend hwords⟩
    · exact ⟨'/' :: '/' :: words ++ '\n' :: cs, rest, rfl, by simp; omega, .line hwords hcs⟩
  | case4 n r ih =>
    obtain ⟨gap, rest, rfl, rfl, words, cs, hwords, rfl, hcs⟩ := ih h
    exact ⟨'/' :: '*' :: words ++ '*' :: '/' :: cs, rest, rfl, by simp; omega, .block hwords hcs⟩
  | case5 n c r _ _ hblank ih =>
    obtain ⟨gap, rest, rfl, rfl, hgap⟩ := ih h
    exact ⟨c :: gap, rest, rfl, by simp; omega, .blank hblank hgap⟩
  | case6 n c r =>
    cases h
    exact ⟨[], c :: r, rfl, rfl, .nil⟩
  | case7 n r ih =>
    obtain ⟨gap, rest, rfl, rfl, hgap⟩ := ih h
    exact ⟨'\n' :: gap, rest, rfl, by simp; omega, [], nofun, .inr ⟨gap, rfl, hgap⟩⟩
  | case8 n c r hc ih =>
    obtain ⟨gap, rest, rfl, rfl, words, hwords, hgap⟩ := ih h
    have hwords : '\n' ∉ c :: words := by
      rw [mem_cons, not_or]
      exact ⟨fun heq => hc heq.symm, hwords⟩
    refine ⟨c :: gap, rest, rfl, by simp; omega, c :: words, hwords, ?_⟩
    rcases hgap with ⟨hend, rfl⟩ | ⟨cs, rfl, hcs⟩
    · exact .inl ⟨hend, rfl⟩
    · exact .inr ⟨cs, rfl, hcs⟩
  | case9 since n r ih =>
    obtain ⟨gap, rest, rfl, rfl, hgap⟩ := ih h
    exact ⟨'*' :: '/' :: gap, rest, rfl, by simp; omega, [], gap, by simp, rfl, hgap⟩
  | case10 since n c r hc ih =>
    obtain ⟨gap, rest, rfl, rfl, words, cs, hwords, rfl, hcs⟩ := ih h
    have hwords : ¬ ['*', '/'] <:+: c :: words := by
      refine not_closing_cons hwords fun r hstar hslash => ?_
      subst hslash
      exact hc _ hstar rfl
    exact ⟨c :: words ++ '*' :: '/' :: cs, rest, rfl, by simp; omega, c :: words, cs, hwords, rfl, hcs⟩

/-- What is read before a lexeme is a gap. -/
theorem gap_of_gapWidth {n : Nat} {cs : List Char} (h : gapWidth cs = .ok n) :
    Gap (cs.drop n = []) (cs.take n) := by
  obtain ⟨gap, rest, rfl, rfl, hgap⟩ := gapFrom_left h
  rw [Nat.zero_add, take_left, drop_left]
  exact hgap

/-! ### Words -/

/-- Characters between quotes, and the content that they stand for. -/
inductive Quotes (quote : Char) : List Char → List Char → Prop
  | nil : Quotes quote [] []
  | escape {e c inner content} : escape? e = some c → Quotes quote inner content →
      Quotes quote ('\\' :: e :: inner) (c :: content)
  | char {c inner content} : c ≠ '\\' → c ≠ quote → Quotes quote inner content →
      Quotes quote (c :: inner) (c :: content)

/-- The words that a token may stand for: of a string its content in quotes, of every other token its
text. -/
def Kind.Spells : Kind → List Char → Prop
  | .string content, word => ∃ quote inner, (quote = '"' ∨ quote = '\'') ∧
      word = quote :: inner ++ [quote] ∧ Quotes quote inner content.toList
  | kind, word => kind.text = String.ofList word

theorem stringBody_quotes (quote : Char) (n : Nat) (cs : List Char) :
    Meets (fun _ => True) (fun (content, width) => ∃ inner rest, cs = inner ++ quote :: rest ∧
      width = n + inner.length + 1 ∧ Quotes quote inner content) (stringBody quote n cs) := by
  fun_induction stringBody quote n cs with
  | case1 => trivial
  | case2 => trivial
  | case3 => trivial
  | case4 n e r c he ih =>
    refine ih.bind ?_
    rintro ⟨content, width⟩ ⟨inner, rest, rfl, rfl, hinner⟩
    exact ⟨'\\' :: e :: inner, rest, rfl, by simp; omega, .escape he hinner⟩
  | case5 n r => exact ⟨[], r, rfl, rfl, .nil⟩
  | case6 n c r hslash hquote ih =>
    refine ih.bind ?_
    rintro ⟨content, width⟩ ⟨inner, rest, rfl, rfl, hinner⟩
    exact ⟨c :: inner, rest, rfl, by simp; omega, .char hslash hquote hinner⟩

theorem spelling_ofSpelling {word : String} {k : Keyword} (h : Keyword.ofSpelling? word = some k) :
    k.spelling = word := by
  simpa using find?_some h

theorem nameLexeme_spells (c : Char) (r : List Char) :
    (nameLexeme c r).kind.Spells ((c :: r).take (nameLexeme c r).width) := by
  unfold nameLexeme
  dsimp only
  cases h : Keyword.ofSpelling? (String.ofList ((c :: r).take (1 + nameWidth c.isUpper r))) with
  | none => rfl
  | some k => exact spelling_ofSpelling h

theorem lexeme_spells {c : Char} {r : List Char} {found : Lexeme} (h : lexeme c r = .ok found) :
    found.kind.Spells ((c :: r).take found.width) := by
  unfold lexeme at h
  split at h
  · unfold numberLexeme at h
    dsimp only at h
    split at h <;> cases h
    rfl
  · split at h
    · next hquote =>
      have hbody := stringBody_quotes c 1 r
      unfold stringLexeme at h
      split at h <;> cases h
      next content width hstring =>
      rw [hstring] at hbody
      obtain ⟨inner, rest, rfl, rfl, hinner⟩ := hbody
      have hword : (c :: (inner ++ c :: rest)).take (1 + inner.length + 1) = c :: inner ++ [c] := by
        have hlength : 1 + inner.length + 1 = (c :: inner ++ [c]).length := by simp; omega
        have happend : c :: (inner ++ c :: rest) = c :: inner ++ [c] ++ rest := by simp
        rw [hlength, happend, take_left]
      exact ⟨c, inner, hquote, hword, by simpa using hinner⟩
    · split at h
      · cases h
        exact nameLexeme_spells c r
      · split at h <;> cases h
        next sign hsign =>
        have hprefix : sign.spelling.isPrefixOf (c :: r) = true := by
          have hfound := find?_some hsign
          exact hfound
        obtain ⟨rest, hrest⟩ := isPrefixOf_iff_prefix.1 hprefix
        change String.ofList sign.spelling = String.ofList ((c :: r).take sign.spelling.length)
        rw [← hrest, take_left]

/-! ### Texts -/

/-- What stands behind the beginning of a text is gaps and the words of tokens in turn, each token with
the coordinates of its word; the mark of the end stands behind the last gap. -/
inductive Tiles : List Char → List Char → List Token → Prop
  | stop {before gap} : Gap True gap →
      Tiles before gap [⟨.stop, .point (.behind (before ++ gap)), decide ('\n' ∈ gap)⟩]
  | token {before gap word rest kind tokens} : Gap False gap → word ≠ [] → kind ≠ .stop →
      kind.Spells word → Tiles (before ++ gap ++ word) rest tokens →
      Tiles before (gap ++ word ++ rest)
        (⟨kind, ⟨.behind (before ++ gap), .behind (before ++ gap ++ word)⟩, decide ('\n' ∈ gap)⟩ ::
          tokens)

theorem readFrom_tiles (place : Coordinate) (cs : List Char) : ∀ before, place = .behind before →
    Meets (fun _ => True) (Tiles before cs) (readFrom place cs) := by
  fun_induction readFrom place cs with
  | case1 => exact fun _ _ => trivial
  | case2 place cs n hn start newline hdrop =>
    intro before hplace
    have hgap := gap_of_gapWidth hn
    have hcs : cs.take n = cs := take_of_length_le (drop_eq_nil_iff.1 hdrop)
    have hstart : start = .behind (before ++ cs) := by
      rw [← Coordinate.after_behind, ← hplace, ← hcs]
    have hnewline : newline = decide ('\n' ∈ cs) := by
      rw [← contains_eq_mem]
      exact congrArg (contains · '\n') hcs
    rw [hcs] at hgap
    rw [hstart, hnewline]
    exact .stop (hgap.mono fun _ => trivial)
  | case3 => exact fun _ _ => trivial
  | case4 place cs n hn start newline c r hdrop kind width hwidth hlexeme stop ih =>
    intro before hplace
    have hgap : Gap False (cs.take n) :=
      (gap_of_gapWidth hn).mono fun hend => cons_ne_nil c r (hdrop.symm.trans hend)
    have hcs : cs.take n ++ (c :: r).take width ++ (c :: r).drop width = cs := by
      rw [append_assoc, take_append_drop, ← hdrop, take_append_drop]
    have hstart : start = .behind (before ++ cs.take n) := by
      rw [← Coordinate.after_behind, ← hplace]
    have hstop : stop = .behind (before ++ cs.take n ++ (c :: r).take width) := by
      rw [← Coordinate.after_behind, ← hstart]
    have hnewline : newline = decide ('\n' ∈ cs.take n) := contains_eq_mem _ _
    have hword : (c :: r).take width ≠ [] := by
      obtain ⟨w, rfl⟩ := Nat.exists_eq_succ_of_ne_zero (Nat.ne_of_gt hwidth)
      exact cons_ne_nil _ _
    refine (ih _ hstop).bind fun tokens htokens => ?_
    have htiles := Tiles.token hgap hword (kind_lexeme hlexeme) (lexeme_spells hlexeme) htokens
    rw [hcs, ← hstart, ← hstop, ← hnewline] at htiles
    exact htiles

namespace Tiles

variable {before cs : List Char} {tokens : List Token}

theorem starts (h : Tiles before cs tokens) :
    ∀ t ∈ tokens, (Coordinate.behind before).offset ≤ t.span.start.offset := by
  induction h with
  | stop =>
    refine forall_mem_singleton.2 ?_
    rw [← Coordinate.after_behind]
    exact Coordinate.offset_le_after _ _
  | @token before gap word _ _ _ _ _ _ _ _ ih =>
    have hgap := Coordinate.offset_le_after (.behind before) gap
    have hword := Coordinate.offset_le_after (.behind (before ++ gap)) word
    rw [Coordinate.after_behind] at hgap hword
    exact forall_mem_cons.2 ⟨hgap, fun t ht => Nat.le_trans (Nat.le_trans hgap hword) (ih t ht)⟩

theorem ordered (h : Tiles before cs tokens) :
    tokens.Pairwise fun t u => t.span.stop.offset ≤ u.span.start.offset := by
  induction h with
  | stop => exact pairwise_singleton _ _
  | token _ _ _ _ hrest ih => exact .cons hrest.starts ih

end Tiles

end Token

/-- The tokens of a text tile it, one behind the other. -/
theorem tokenize_tiles {source : String} {tokens : List Token} (h : tokenize source = .ok tokens) :
    Token.Tiles [] source.toList tokens ∧
      tokens.Pairwise fun t u => t.span.stop.offset ≤ u.span.start.offset := by
  have htiles := Token.readFrom_tiles .origin source.toList [] rfl
  unfold tokenize at h
  rw [h] at htiles
  exact ⟨htiles, Token.Tiles.ordered htiles⟩

namespace Tiling

/-- Characters of several bytes, an escape and a line break in a string, and both kinds of comments. -/
def source : String := "a = 'ü\\t\n' /* ß\n*/ .5k // é"

def tokens : List Token :=
  [⟨.name "a", ⟨⟨1, 1, 0⟩, ⟨1, 2, 1⟩⟩, false⟩,
    ⟨.symbol .assign, ⟨⟨1, 3, 2⟩, ⟨1, 4, 3⟩⟩, false⟩,
    ⟨.string "ü\t\n", ⟨⟨1, 5, 4⟩, ⟨2, 2, 11⟩⟩, false⟩,
    ⟨.number ".5k", ⟨⟨3, 4, 21⟩, ⟨3, 7, 24⟩⟩, true⟩,
    ⟨.stop, .point ⟨3, 12, 30⟩, false⟩]

set_option maxRecDepth 100000 in
theorem source_tiles : tokenize source = .ok tokens ∧ Token.Tiles [] source.toList tokens ∧
    tokens.Pairwise fun t u => t.span.stop.offset ≤ u.span.start.offset :=
  have h : tokenize source = .ok tokens := ok_of_toOption (by decide +kernel)
  ⟨h, tokenize_tiles h⟩

end Tiling

end Estimation
