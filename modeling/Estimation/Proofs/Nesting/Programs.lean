import Estimation.Proofs.Nesting.Readers

/-!
How deep the programs are that the parser accepts, and what it rejects.
-/

namespace Estimation.Syntax

open Token (Kind)

namespace Program

/-- The program that a list of tokens spells, where operands nest at most so deep. -/
def within (limit : Nat) (tokens : List Token) : Except SyntaxError Program := do
  let c := Cursor.ofTokens tokens
  let ⟨imports, c₁, _⟩ ← Reader.imports c
  let ⟨(statements, result), c₂, _⟩ ← Reader.body (Reader.unaryWithin limit) .program c₁
  return ⟨imports, statements, result, ⟨c.current.span.start, c₂.current.span.stop⟩⟩

theorem within_maxNesting (tokens : List Token) : within maxNesting tokens = ofTokens tokens := rfl

/-- A program is read up to the mark of the end. -/
theorem within_decides (limit : Nat) (tokens : List Token) :
    Decides limit (fun m => within m tokens) fun program i => ∃ d : Cursor,
      Written Position.isTracked (.program program) (Cursor.ofTokens tokens).kinds d.kinds i ∧
        d.current.kind = .stop := by
  unfold within
  refine .bind_fixed (Reader.imports_written _) ?_
  rintro ⟨imports, c₁, h₁⟩ himports
  refine (Reader.body_decides (Reader.unaryWithin_nests limit) .program c₁).bind ?_
  rintro ⟨⟨statements, result⟩, c₂, h₂⟩ i ⟨hbody, hstop⟩
  have hlevels : max 0 i = max i 0 := by omega
  exact .ok ⟨c₂, .of_levels (.program himports hbody) hlevels, hstop⟩

end Program

/-- The program that a source text spells, where operands nest at most so deep. -/
def parseWithin (limit : Nat) (source : String) : Except Error Program :=
  match tokenize source with
  | .error e => .error (.lexical e)
  | .ok tokens =>
    match Program.within limit tokens with
    | .error e => .error (.grammatical e)
    | .ok program => .ok program

theorem parseWithin_maxNesting (source : String) : parseWithin maxNesting source = parse source := rfl

theorem Cursor.kinds_ofTokens {tokens : List Token} {stop : Token} (h : stop.kind = .stop) :
    (Cursor.ofTokens (tokens ++ [stop])).kinds = tokens.map Token.kind := by
  obtain ⟨kind, span, newline⟩ := stop
  obtain rfl : kind = .stop := h
  simp [Cursor.kinds, Cursor.ofTokens]

/-- Where the mark of the end comes next, nothing is left of words that are no such mark. -/
theorem Cursor.kinds_eq_nil {d : Cursor} {ks : List Kind} (hks : ∀ k ∈ ks, k ≠ .stop)
    (hd : d.kinds <:+ ks) (hstop : d.current.kind = .stop) : d.kinds = [] := by
  unfold kinds current at *
  cases htokens : d.tokens with
  | nil => rfl
  | cons t rest =>
    rw [htokens] at hd hstop
    exact absurd hstop (hks _ (hd.subset List.mem_cons_self))

/-- The levels of the program that the lexemes of a text spell under some limit, and what they make of it
under the limit of nesting. -/
theorem Program.ofTokens_of_within {limit : Nat} {source : String} {lexemes : List Token} {stop : Token}
    {program : Program} (hlexes : Token.Lexes source .origin lexemes stop)
    (h : Program.within limit (lexemes ++ [stop]) = .ok program) : ∃ levels ≤ limit,
      Written Position.isTracked (.program program) (lexemes.map Token.kind) [] levels ∧
      (levels ≤ maxNesting → Program.ofTokens (lexemes ++ [stop]) = .ok program) ∧
      (maxNesting < levels → TooDeep (Program.ofTokens (lexemes ++ [stop]))) := by
  obtain ⟨levels, hle, ⟨d, hwritten, hd⟩, hlimits⟩ := Program.within_decides limit _ program h
  -- Lexemes are no mark of the end, so that all of them have been read.
  have hkinds : ∀ k ∈ lexemes.map Token.kind, k ≠ .stop := List.forall_mem_map.2 hlexes.kinds
  rw [Cursor.kinds_ofTokens hlexes.stop] at hwritten
  rw [Cursor.kinds_eq_nil hkinds hwritten.suffix hd] at hwritten
  have hof := hlimits maxNesting
  simp only [Program.within_maxNesting] at hof
  exact ⟨levels, hle, hwritten, hof⟩

/-- A text that spells a program under some limit is written as it with so many levels, of brackets and
all that they hold, unary operands and the parts of `if`, but neither of right operands nor of the
branches of `?` nor of what defines a function. If these are at most `maxNesting`, the text is accepted as
this program; if they are more, it is rejected for nesting too deep. With `maxNesting` for the limit, this
is about every text that is accepted. -/
theorem parse_of_parseWithin {limit : Nat} {source : String} {program : Program}
    (h : parseWithin limit source = .ok program) : ∃ tokens levels, tokenize source = .ok tokens ∧
      levels ≤ limit ∧
      Written Position.isTracked (.program program) (tokens.dropLast.map Token.kind) [] levels ∧
      (levels ≤ maxNesting → parse source = .ok program) ∧
      (maxNesting < levels →
        ∃ place, parse source = .error (.grammatical ⟨.tooDeep maxNesting, place⟩)) := by
  have hlexes := tokenize_lexes source
  unfold parseWithin at h
  unfold parse
  cases htokens : tokenize source with
  | error e =>
    rw [htokens] at h
    cases h
  | ok tokens =>
    rw [htokens] at h hlexes
    obtain ⟨lexemes, stop, rfl, hlexes⟩ := hlexes
    dsimp only at h ⊢
    cases hwithin : Program.within limit (lexemes ++ [stop]) with
    | error e =>
      rw [hwithin] at h
      cases h
    | ok p =>
      rw [hwithin] at h
      cases h
      obtain ⟨levels, hle, hwritten, hok, hdeep⟩ := Program.ofTokens_of_within hlexes hwithin
      refine ⟨lexemes ++ [stop], levels, rfl, hle, ?_, fun hlevels => ?_, fun hlevels => ?_⟩
      · rwa [List.dropLast_concat]
      · rw [hok hlevels]
      · obtain ⟨place, hplace⟩ := hdeep hlevels
        exact ⟨place, by rw [hplace]⟩

namespace Nesting

theorem tokenize_ofList (cs : List Char) :
    tokenize (String.ofList cs) = Token.readFrom .origin cs := by
  rw [tokenize, String.toList_ofList]

theorem parseWithin_ofList {limit : Nat} {cs : List Char} {tokens : List Token} {program : Program}
    (htokens : Token.readFrom .origin cs = .ok tokens)
    (hprogram : Program.within limit tokens = .ok program) :
    parseWithin limit (String.ofList cs) = .ok program := by
  unfold parseWithin
  rw [tokenize_ofList, htokens]
  dsimp only
  rw [hprogram]

/-- A name in so many brackets. -/
def brackets (k : Nat) : List Char := List.replicate k '(' ++ 'x' :: List.replicate k ')'

set_option maxRecDepth 100000 in
theorem within_brackets : ((Token.readFrom .origin (brackets 130)).toOption.bind fun tokens =>
    (Program.within 131 tokens).toOption.map fun program => program.statements.length) = some 0 := by
  decide +kernel

theorem parse_brackets : ∃ program, parseWithin 131 (String.ofList (brackets 130)) = .ok program ∧
    ∃ tokens levels, tokenize (String.ofList (brackets 130)) = .ok tokens ∧ levels ≤ 131 ∧
      Written Position.isTracked (.program program) (tokens.dropLast.map Token.kind) [] levels ∧
      (levels ≤ maxNesting → parse (String.ofList (brackets 130)) = .ok program) ∧
      (maxNesting < levels → ∃ place,
        parse (String.ofList (brackets 130)) = .error (.grammatical ⟨.tooDeep maxNesting, place⟩)) := by
  obtain ⟨tokens, htokens, hprogram⟩ := Option.bind_eq_some_iff.1 within_brackets
  obtain ⟨program, hprogram, -⟩ := Option.map_eq_some_iff.1 hprogram
  have hparse := parseWithin_ofList (ok_of_toOption htokens) (ok_of_toOption hprogram)
  exact ⟨program, hparse, parse_of_parseWithin hparse⟩

/-- A name to the power of itself, so many times. -/
def powers (k : Nat) : List Char := 'x' :: (List.replicate k ['^', 'x']).flatten

set_option maxRecDepth 100000 in
theorem rights_powers : ((Token.readFrom .origin (powers 129)).toOption.bind fun tokens =>
    (Program.within maxNesting tokens).toOption.map fun program =>
      Phrase.rightLevels (.program program)) = some 130 := by
  decide +kernel

/-- Right operands have no limit: this text is accepted, and by whatever rules it is written as its
program, some expression in it stands within more than `maxNesting` others. -/
theorem parse_powers : ∃ program, parse (String.ofList (powers 129)) = .ok program ∧
    ∀ tokens levels, tokenize (String.ofList (powers 129)) = .ok tokens →
      Written Position.isInner (.program program) (tokens.dropLast.map Token.kind) [] levels →
      maxNesting + 1 < levels := by
  obtain ⟨tokens, htokens, hprogram⟩ := Option.bind_eq_some_iff.1 rights_powers
  obtain ⟨program, hprogram, hrights⟩ := Option.map_eq_some_iff.1 hprogram
  refine ⟨program, ?_, fun tokens levels _ hwritten => ?_⟩
  · rw [← parseWithin_maxNesting]
    exact parseWithin_ofList (ok_of_toOption htokens) (ok_of_toOption hprogram)
  · have hle := hwritten.rightLevels_le
    rw [hrights] at hle
    exact hle

end Nesting

end Estimation.Syntax
