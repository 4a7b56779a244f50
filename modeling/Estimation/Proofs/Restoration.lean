import Estimation.Proofs.Course.Agreement
import Estimation.Proofs.Lowering
import Estimation.Proofs.Parts
import Estimation.Proofs.Steps.Code

/-!
Evaluation leaves the slots that were there, whether it ends with a value or fails. Only definitions
put slots on top of them, and in compiled code they stand nowhere but among the statements of a block or
of the program.
-/

namespace Estimation

open List

/-- A step that leaves the slots that were there, and unless they are `fixed` may put others on top. -/
def Grows {α : Type} (fixed : Prop) (step : Eval Code α) : Prop :=
  ∀ m : Machine, ∃ more : List Value,
    (step m).2.stack = m.stack ++ more.toArray ∧ (fixed → more = [])

namespace Grows

variable {α δ : Type} {fixed : Prop} {step : Eval Code α}

theorem of_stack (h : ∀ m, (step m).2.stack = m.stack) : Grows fixed step :=
  fun m => ⟨[], by simp [h m], fun _ => rfl⟩

theorem stack_eq (h : Grows True step) (m : Machine) : (step m).2.stack = m.stack := by
  obtain ⟨more, hmore, hnil⟩ := h m
  simpa [hnil trivial] using hmore

theorem mono (h : Grows fixed step) {fixed' : Prop} (hf : fixed' → fixed) : Grows fixed' step := by
  intro m
  obtain ⟨more, hmore, hnil⟩ := h m
  exact ⟨more, hmore, fun h' => hnil (hf h')⟩

theorem pure (a : α) : Grows fixed (pure a) := of_stack fun _ => rfl

theorem fail {frames : List Frame} {span : Span} {failure : Failure} :
    Grows (α := α) fixed (Eval.fail frames span failure) := of_stack fun _ => rfl

theorem ofExcept {frames : List Frame} {span : Span} (x : Except Failure α) :
    Grows fixed (Eval.ofExcept frames span x) := by
  cases x with
  | ok a => exact pure a
  | error failure => exact fail

theorem draw {frames : List Frame} {span : Span} (step : Draw α) :
    Grows fixed (Eval.draw frames span step) := by
  refine of_stack fun m => ?_
  rw [Eval.draw]
  rcases step m.random with ⟨_ | _, _⟩ <;> rfl

theorem bind (h : Grows fixed step) {k : α → Eval Code δ} (hk : ∀ a, Grows fixed (k a)) :
    Grows fixed (step >>= k) := by
  intro m
  obtain ⟨more, hmore, hnil⟩ := h m
  rcases hm : step m with ⟨r, after⟩
  rw [hm] at hmore
  cases r with
  | error e =>
    rw [Eval.bind_error hm]
    exact ⟨more, hmore, hnil⟩
  | ok a =>
    rw [Eval.bind_ok hm]
    obtain ⟨more', hmore', hnil'⟩ := hk a after
    refine ⟨more ++ more', ?_, fun h => by simp [hnil h, hnil' h]⟩
    rw [hmore', hmore]
    simp

theorem congruence :
    Congruence fun α (step : Eval Code α) step' => step = step' ∧ Grows True step := by
  refine ⟨fun a => ⟨rfl, pure a⟩, ?_⟩
  rintro α δ x _ k l ⟨rfl, h⟩ hk
  obtain rfl : k = l := funext fun a => (hk a).1
  exact ⟨rfl, h.bind fun a => (hk a).2⟩

theorem get {k : Machine → Eval Code α} (h : ∀ m, Grows fixed (k m)) : Grows fixed (get >>= k) :=
  fun m => h m m

theorem push {run : Run} {frames : List Frame} {span : Span} {v : Value} :
    Grows False (Eval.push run frames span v) := by
  intro m
  rw [Eval.push_eq]
  split
  · exact ⟨[], by simp, nofun⟩
  · exact ⟨[v], by simp, nofun⟩

theorem pushAll {run : Run} {frames : List Frame} {span : Span} (vs : List Value) :
    Grows False (Eval.pushAll run frames span vs) := by
  induction vs with
  | nil => exact pure _
  | cons v vs ih => exact push.bind fun _ => ih

/-- What steps put on top is dropped at their end. -/
theorem shrinking {k : Nat → Eval Code α} (h : ∀ size, Grows False (k size)) :
    Grows fixed (do let size := (← MonadState.get).stack.size
                    Eval.shrinkingTo size (k size)) := by
  refine of_stack fun m => ?_
  obtain ⟨more, hmore, -⟩ := h m.stack.size m
  change (k m.stack.size m).2.stack.shrink m.stack.size = m.stack
  rw [hmore]
  simp

end Grows

theorem Native.run_grows {run : Run} {call : Library.Callback Code}
    (hcall : ∀ f args, Grows True (call f args)) (g : Native) (frames : List Frame) (span : Span)
    (args : List Value) : Grows True (g.run run call frames span args) :=
  (Native.steps_related Grows.congruence (fun f args => ⟨rfl, hcall f args⟩) (fun _ => ⟨rfl, .fail⟩)
    (fun x => ⟨rfl, .ofExcept x⟩) (fun step => ⟨rfl, .draw step⟩) run.environment g args).2

/-! ### Where definitions stand -/

namespace Code

mutual

/-- Code that is no definition: these are statements of blocks. -/
inductive Expression : Code → Prop
  | value (v span) : Expression (.value v span)
  | read (source span) : Expression (.read source span)
  | block {cs c} (span) : (∀ d ∈ cs, Statement d) → Expression c → Expression (.block cs c span)
  | list {cs} (span) : (∀ d ∈ cs, Expression d) → Expression (.list cs span)
  | dict {es} (span) : (∀ e ∈ es, Expression e.1) → (∀ e ∈ es, Expression e.2) →
      Expression (.dict es span)
  | choice {c d e} (span) : Expression c → Expression d → Expression e →
      Expression (.choice c d e span)
  | lambda {ps c} (name captures span) : (∀ p ∈ ps, ∀ d ∈ p.range, Expression d) → Expression c →
      Expression (.lambda name ps captures c span)
  | call {c cs} (span) : Expression c → (∀ d ∈ cs, Expression d) → Expression (.call c cs span)

inductive Statement : Code → Prop
  | assign {c} (name span) : Expression c → Statement (.assign name c span)

end

theorem Expression.pieces {c d : Code} (h : c.Expression) (hd : d ∈ c.pieces) :
    d.Expression ∨ d.Statement := by
  cases h with
  | value v span => cases hd
  | read source span => cases hd
  | block span hs hr =>
    rcases mem_append.1 hd with hd | hd
    · exact .inr (hs d hd)
    · exact .inl (mem_singleton.1 hd ▸ hr)
  | list span hs => exact .inl (hs d hd)
  | dict span hkeys hvalues =>
    obtain ⟨e, he, hd⟩ := mem_flatMap.1 hd
    simp only [mem_cons, not_mem_nil, or_false] at hd
    rcases hd with rfl | rfl
    · exact .inl (hkeys e he)
    · exact .inl (hvalues e he)
  | choice span h h' h'' =>
    simp only [Code.pieces, mem_cons, not_mem_nil, or_false] at hd
    rcases hd with rfl | rfl | rfl
    · exact .inl h
    · exact .inl h'
    · exact .inl h''
  | lambda name captures span hps hbody =>
    rcases mem_append.1 hd with hd | hd
    · obtain ⟨p, hp, hd⟩ := mem_filterMap.1 hd
      exact .inl (hps p hp d hd)
    · exact .inl (mem_singleton.1 hd ▸ hbody)
  | call span h hs =>
    rcases mem_cons.1 hd with rfl | hd
    · exact .inl h
    · exact .inl (hs d hd)

theorem Statement.pieces {c d : Code} (h : c.Statement) (hd : d ∈ c.pieces) :
    d.Expression ∨ d.Statement := by
  obtain ⟨name, span, h⟩ := h
  exact .inl (mem_singleton.1 hd ▸ h)

theorem PartOf.form {c d : Code} (h : d.PartOf c) (hc : c.Expression ∨ c.Statement) :
    d.Expression ∨ d.Statement := by
  induction h with
  | self => exact hc
  | piece _ hpiece ih =>
    rcases hc with hc | hc
    · exact ih (hc.pieces hpiece)
    · exact ih (hc.pieces hpiece)

end Code

namespace Syntax.Expr

variable {externals : Bindings Value}

mutual

theorem Lowered.expression : ∀ (e : Expr) {outer captured locals : List String} {c : Code},
    Lowered externals outer captured locals e c → c.Expression
  | .number _ _, _, _, _, _, h => h ▸ .value _ _
  | .string _ _, _, _, _, _, h => h ▸ .value _ _
  | .bool _ _, _, _, _, _, h => h ▸ .value _ _
  | .identifier _ _, _, _, _, _, h => by
    rw [Lowered] at h
    rcases h with ⟨source, -, rfl⟩ | ⟨-, -, v, -, rfl⟩
    · exact .read _ _
    · exact .value _ _
  | .list items _, _, _, _, _, h => by
    rw [Lowered] at h
    obtain ⟨cs, hcs, rfl⟩ := h
    exact .list _ (LoweredAll.expression items hcs)
  | .dict entries _, _, _, _, _, h => by
    rw [Lowered] at h
    obtain ⟨pairs, hpairs, rfl⟩ := h
    have hall := LoweredEntries.expression entries hpairs
    exact .dict _ (fun e he => (hall e he).1) fun e he => (hall e he).2
  | .block statements result _, _, _, _, _, h => by
    rw [Lowered] at h
    obtain ⟨cs, d, hcs, hd, rfl⟩ := h
    exact .block _ (LoweredStatements.statement statements hcs) (Lowered.expression result hd)
  | .lambda _ ps body _, _, _, _, _, h => by
    rw [Lowered] at h
    obtain ⟨qs, inner, sources, d, hqs, -, hd, rfl⟩ := h
    exact .lambda _ _ _ (LoweredParameters.expression ps hqs) (Lowered.expression body hd)
  | .call callee args _, _, _, _, _, h => by
    rw [Lowered] at h
    obtain ⟨d, ds, hd, hds, rfl⟩ := h
    exact .call _ (Lowered.expression callee hd) (LoweredAll.expression args hds)
  | .binary _ left right _, _, _, _, _, h => by
    rw [Lowered] at h
    obtain ⟨d, e, hd, he, rfl⟩ := h
    refine .call _ (.value _ _) ?_
    simp [Lowered.expression left hd, Lowered.expression right he]
  | .unary _ operand _, _, _, _, _, h => by
    rw [Lowered] at h
    obtain ⟨d, hd, rfl⟩ := h
    refine .call _ (.value _ _) ?_
    simp [Lowered.expression operand hd]
  | .pipe left callee args _, _, _, _, _, h => by
    rw [Lowered] at h
    obtain ⟨d, ds, e, hd, hds, he, rfl⟩ := h
    exact .call _ (Lowered.expression callee he)
      (forall_mem_cons.2 ⟨Lowered.expression left hd, LoweredAll.expression args hds⟩)
  | .member target _ _, _, _, _, _, h => by
    rw [Lowered] at h
    obtain ⟨d, hd, rfl⟩ := h
    refine .call _ (.value _ _) ?_
    simp [Lowered.expression target hd, Code.Expression.value]
  | .lookup target index _, _, _, _, _, h => by
    rw [Lowered] at h
    obtain ⟨d, e, hd, he, rfl⟩ := h
    refine .call _ (.value _ _) ?_
    simp [Lowered.expression target hd, Lowered.expression index he]
  | .choice condition ifTrue ifFalse _, _, _, _, _, h => by
    rw [Lowered] at h
    obtain ⟨d, e, f, hd, he, hf, rfl⟩ := h
    exact .choice _ (Lowered.expression condition hd) (Lowered.expression ifTrue he)
      (Lowered.expression ifFalse hf)

theorem LoweredAll.expression : ∀ (es : List Expr) {outer captured locals : List String}
    {cs : List Code}, LoweredAll externals outer captured locals es cs → ∀ c ∈ cs, c.Expression
  | [], _, _, _, _, h => by
    rw [LoweredAll] at h
    simp [h]
  | e :: es, _, _, _, _, h => by
    rw [LoweredAll] at h
    obtain ⟨d, ds, hd, hds, rfl⟩ := h
    exact forall_mem_cons.2 ⟨Lowered.expression e hd, LoweredAll.expression es hds⟩

theorem LoweredEntries.expression : ∀ (es : List (Entry Expr)) {outer captured locals : List String}
    {pairs : List (Code × Code)}, LoweredEntries externals outer captured locals es pairs →
    ∀ p ∈ pairs, p.1.Expression ∧ p.2.Expression
  | [], _, _, _, _, h => by
    rw [LoweredEntries] at h
    simp [h]
  | e :: es, _, _, _, _, h => by
    rw [LoweredEntries] at h
    obtain ⟨p, ps, hp, hps, rfl⟩ := h
    exact forall_mem_cons.2 ⟨LoweredEntry.expression e hp, LoweredEntries.expression es hps⟩

theorem LoweredEntry.expression : ∀ (e : Entry Expr) {outer captured locals : List String}
    {pair : Code × Code}, LoweredEntry externals outer captured locals e pair →
    pair.1.Expression ∧ pair.2.Expression
  | ⟨_, _, value⟩, _, _, _, _, h => by
    rw [LoweredEntry] at h
    obtain ⟨d, hd, rfl⟩ := h
    exact ⟨.value _ _, Lowered.expression value hd⟩

theorem LoweredParameters.expression : ∀ (ps : List (Parameter Expr))
    {outer captured locals : List String} {qs : List (CodeParameter Code)},
    LoweredParameters externals outer captured locals ps qs →
    ∀ q ∈ qs, ∀ c ∈ q.range, c.Expression
  | [], _, _, _, _, h => by
    rw [LoweredParameters] at h
    simp [h]
  | p :: ps, _, _, _, _, h => by
    rw [LoweredParameters] at h
    obtain ⟨q, rest, hq, hrest, rfl⟩ := h
    exact forall_mem_cons.2 ⟨LoweredParameter.expression p hq, LoweredParameters.expression ps hrest⟩

theorem LoweredParameter.expression : ∀ (p : Parameter Expr) {outer captured locals : List String}
    {q : CodeParameter Code}, LoweredParameter externals outer captured locals p q →
    ∀ c ∈ q.range, c.Expression
  | ⟨_, _, range⟩, _, _, _, _, h => by
    rw [LoweredParameter] at h
    obtain ⟨r, hr, rfl⟩ := h
    exact LoweredOption.expression range hr

theorem LoweredOption.expression : ∀ (o : Option Expr) {outer captured locals : List String}
    {r : Option Code}, LoweredOption externals outer captured locals o r → ∀ c ∈ r, c.Expression
  | none, _, _, _, _, h => by
    rw [LoweredOption] at h
    simp [h]
  | some e, _, _, _, _, h => by
    rw [LoweredOption] at h
    obtain ⟨d, hd, rfl⟩ := h
    rintro c ⟨⟩
    exact Lowered.expression e hd

theorem LoweredStatements.statement : ∀ (ss : List (Statement Expr))
    {outer captured locals : List String} {cs : List Code},
    LoweredStatements externals outer captured locals ss cs → ∀ c ∈ cs, c.Statement
  | [], _, _, _, _, h => by
    rw [LoweredStatements] at h
    simp [h]
  | s :: ss, _, _, _, _, h => by
    rw [LoweredStatements] at h
    obtain ⟨c, rest, hc, hrest, rfl⟩ := h
    exact forall_mem_cons.2 ⟨LoweredStatement.statement s hc, LoweredStatements.statement ss hrest⟩

theorem LoweredStatement.statement : ∀ (s : Statement Expr) {outer captured locals : List String}
    {c : Code}, LoweredStatement externals outer captured locals s c → c.Statement
  | ⟨_, _, value, _, _⟩, _, _, _, _, h => by
    rw [LoweredStatement] at h
    obtain ⟨d, hd, rfl⟩ := h
    exact .assign _ _ (Lowered.expression value hd)

end

end Syntax.Expr

/-- What stands in compiled code is the program, a definition or an expression. -/
theorem compile_form {externals : Bindings Value} {program : Syntax.Program} {code e : Code}
    (hc : compile externals program = .ok code) (he : e.PartOf code) :
    e = code ∨ e.Expression ∨ e.Statement := by
  obtain ⟨cs, r, hcs, hr, rfl⟩ := compile_lowered hc
  cases he with
  | self => exact .inl rfl
  | piece h hpiece =>
    refine .inr (h.form ?_)
    rcases mem_append.1 hpiece with hs | hs
    · exact .inr (Syntax.Expr.LoweredStatements.statement _ hcs _ hs)
    · exact .inl (Syntax.Expr.LoweredOption.expression _ hr _ (Option.mem_toList.1 hs))

/-! ### Evaluation -/

namespace Evaluation

section

variable {run : Run} {call : Caller Code} {ctx : Context Code}
  (hcall : ∀ frames span argSpans f args, Grows True (call frames span argSpans f args))

theorem captured_grows {fixed : Prop} (span : Span) (sources : List Variable) :
    Grows fixed (captured ctx span sources) := by
  induction sources with
  | nil => exact .pure _
  | cons source sources ih =>
    refine .get fun m => ?_
    split
    · exact ih.bind fun _ => .pure _
    · exact .fail

set_option linter.unusedSectionVars false

include hcall

mutual

/-- Expressions leave no more slots than there were, definitions and programs may. -/
theorem eval_grows : ∀ code : Code, Grows code.Expression (eval .code run call ctx code)
  | .value _ _ => by
    simp only [eval]
    exact .pure _
  | .read _ _ => by
    simp only [eval]
    refine .get fun m => ?_
    split
    · exact .pure _
    · exact .fail
  | .block statements result _ => by
    simp only [eval]
    exact .shrinking fun _ => (evalStatements_grows statements).bind fun _ =>
      (eval_grows result).mono False.elim
  | .program statements result _ _ => by
    simp only [eval]
    exact ((evalRecorded_grows statements).bind fun _ => evalResult_grows result).mono nofun
  | .assign _ right _ => by
    simp only [eval]
    exact (((eval_grows right).mono False.elim).bind fun _ => Grows.push.bind fun _ => .pure _).mono nofun
  | .list items _ => by
    simp only [eval]
    refine ((evalAll_grows items).bind fun _ => .pure _).mono ?_
    rintro ⟨⟩
    assumption
  | .dict entries _ => by
    simp only [eval]
    refine ((evalEntries_grows entries []).bind fun _ => .pure _).mono ?_
    rintro ⟨⟩
    exact ⟨‹_›, ‹_›⟩
  | .choice condition ifTrue ifFalse _ => by
    simp only [eval]
    refine Grows.bind ((eval_grows condition).mono ?_) fun v => ?_
    · rintro ⟨⟩
      assumption
    · split
      · refine (eval_grows ifTrue).mono ?_
        rintro ⟨⟩
        assumption
      · refine (eval_grows ifFalse).mono ?_
        rintro ⟨⟩
        assumption
      · exact .fail
  | .lambda _ parameters captures body span => by
    simp only [eval]
    refine (captured_grows span captures).bind fun _ =>
      ((evalParameters_grows parameters).mono ?_).bind fun _ =>
        Grows.bind (.of_stack fun _ => rfl) fun _ => .pure _
    rintro ⟨⟩
    assumption
  | .call callee args _ => by
    simp only [eval]
    refine ((eval_grows callee).mono ?_).bind fun v => ?_
    · rintro ⟨⟩
      assumption
    · split
      · refine ((evalAll_grows args).mono ?_).bind fun _ => (hcall _ _ _ _ _).mono fun _ => trivial
        rintro ⟨⟩
        assumption
      · exact .fail

theorem evalAll_grows : ∀ codes : List Code,
    Grows (∀ c ∈ codes, c.Expression) (evalAll .code run call ctx codes)
  | [] => by
    simp only [evalAll]
    exact .pure _
  | code :: rest => by
    simp only [evalAll, forall_mem_cons]
    exact ((eval_grows code).mono And.left).bind fun _ =>
      ((evalAll_grows rest).mono And.right).bind fun _ => .pure _

theorem evalStatements_grows : ∀ codes : List Code,
    Grows False (evalStatements .code run call ctx codes)
  | [] => by
    simp only [evalStatements]
    exact .pure _
  | code :: rest => by
    simp only [evalStatements]
    exact ((eval_grows code).mono False.elim).bind fun _ => evalStatements_grows rest

theorem evalEntries_grows : ∀ (entries : List (Code × Code)) (done : Bindings Value),
    Grows ((∀ e ∈ entries, e.1.Expression) ∧ ∀ e ∈ entries, e.2.Expression)
      (evalEntries .code run call ctx done entries)
  | [], _ => by
    simp only [evalEntries]
    exact .pure _
  | entry :: rest, _ => by
    simp only [evalEntries, forall_mem_cons]
    exact ((evalEntry_grows entry).mono fun h => ⟨h.1.1, h.2.1⟩).bind fun _ =>
      (evalEntries_grows rest _).mono fun h => ⟨h.1.2, h.2.2⟩

theorem evalEntry_grows : ∀ entry : Code × Code,
    Grows (entry.1.Expression ∧ entry.2.Expression) (evalEntry .code run call ctx entry)
  | (key, value) => by
    simp only [evalEntry]
    refine ((eval_grows key).mono And.left).bind fun v => ?_
    split
    · exact ((eval_grows value).mono And.right).bind fun _ => .pure _
    · exact .fail

theorem evalParameters_grows : ∀ parameters : List (CodeParameter Code),
    Grows (∀ p ∈ parameters, ∀ c ∈ p.range, c.Expression)
      (evalParameters .code run call ctx parameters)
  | [] => by
    simp only [evalParameters]
    exact .pure _
  | p :: ps => by
    simp only [evalParameters, forall_mem_cons]
    exact ((evalParameter_grows p).mono And.left).bind fun _ =>
      ((evalParameters_grows ps).mono And.right).bind fun _ => .pure _

theorem evalParameter_grows : ∀ p : CodeParameter Code,
    Grows (∀ c ∈ p.range, c.Expression) (evalParameter .code run call ctx p)
  | ⟨_, none⟩ => by
    simp only [evalParameter, evalRange]
    exact Grows.bind (.pure _) fun _ => .pure _
  | ⟨_, some code⟩ => by
    simp only [evalParameter, evalRange]
    refine Grows.bind (Grows.bind ((eval_grows code).mono fun h => h code rfl) fun _ =>
      (Grows.ofExcept _).bind fun _ => .pure _) fun _ => .pure _

theorem evalRecorded_grows : ∀ codes : List Code,
    Grows False (evalRecorded .code run call ctx codes)
  | [] => by
    simp only [evalRecorded]
    exact .pure _
  | code :: rest => by
    simp only [evalRecorded]
    exact ((eval_grows code).mono False.elim).bind fun _ =>
      Grows.bind (.of_stack fun _ => rfl) fun _ => evalRecorded_grows rest

theorem evalResult_grows : ∀ code : Option Code,
    Grows False (evalResult .code run call ctx code)
  | none => by
    simp only [evalResult]
    exact .pure _
  | some code => by
    simp only [evalResult]
    exact ((eval_grows code).mono False.elim).bind fun _ =>
      Grows.bind (.of_stack fun _ => rfl) fun _ => .pure _

end

theorem runCode_grows (frames : List Frame) (captures : List Value) (body : Code) (args : List Value) :
    Grows True (runCode .code run call frames captures body args) := by
  let k (size : Nat) : Eval Code Value := do
    Eval.pushAll run frames body.span args
    eval .code run call ⟨frames, size, captures⟩ body
  have hk : ∀ size, Grows False (k size) := fun size =>
    (Grows.pushAll args).bind fun _ => (eval_grows hcall body).mono False.elim
  exact .shrinking hk

end

theorem checkRanges_grows {fixed : Prop} (frames : List Frame) (span : Span) (argSpans : List Span)
    (parameters : List Parameter) (index : Nat) (args : List Value) :
    Grows fixed (checkRanges (β := Code) frames span argSpans index parameters args) := by
  induction parameters generalizing index args with
  | nil => exact .pure _
  | cons p parameters ih =>
    cases args with
    | nil => exact .pure _
    | cons v args =>
      unfold checkRanges
      cases p.range with
      | none => exact ih _ _
      | some range =>
        cases v with
        | number x =>
          by_cases hx : range.Contains x
          · simp only [hx, decide_true, ↓reduceIte]
            exact ih _ _
          · simp only [hx, decide_false]
            exact Grows.fail.bind fun _ => ih _ _
        | _ => exact Grows.fail.bind fun _ => ih _ _

/-- A call leaves the slots as they were, whatever its body is made of. -/
theorem apply_grows (run : Run) (depth : Nat) (frames : List Frame) (span : Span)
    (argSpans : List Span) (f : Lambda) (args : List Value) :
    Grows True (apply run depth frames span argSpans f args) := by
  unfold apply
  induction depth generalizing frames span argSpans f args with
  | zero => exact .fail
  | succ depth ih =>
    cases f with
    | closure identity name parameters captures body place =>
      let inner : List Frame := ⟨name.getD "<anonymous>", span⟩ :: frames
      have hbody : Grows True (runCode .code run _ inner captures body args) :=
        runCode_grows ih inner captures body args
      have hranges := (checkRanges_grows frames span argSpans parameters 0 args).bind fun _ => hbody
      simp only [callWith]
      by_cases hn : args.length = parameters.length
      · simp only [hn, ↓reduceIte]
        exact hranges
      · simp only [hn, ↓reduceIte]
        exact Grows.fail.bind fun _ => hranges
    | native g =>
      let inner : List Frame := ⟨g.name, span⟩ :: frames
      have hrun : Grows True (g.run run _ inner span args) :=
        Native.run_grows (ih inner span []) g inner span args
      simp only [callWith]
      by_cases hn : g.arity.Accepts args.length
      · simp only [hn, ↓reduceIte]
        exact hrun
      · simp only [hn, ↓reduceIte]
        exact Grows.fail.bind fun _ => hrun

end Evaluation

/-- What code leaves of the slots when it ends so: a definition that succeeds puts one on top, and a
program may put many. -/
def Code.Leaves (result : Except RunError Value) (before after : Array Value) : Code → Prop
  | .assign _ _ _ =>
    match result with
    | .ok _ => ∃ v, after = before.push v
    | .error _ => after = before
  | .program _ _ _ _ => ∃ more : List Value, after = before ++ more.toArray
  | _ => after = before

theorem Evaluation.assign_leaves {run : Run} {call : Caller Code} {ctx : Context Code}
    (hcall : ∀ frames span argSpans f args, Grows True (call frames span argSpans f args)) {right : Code}
    (h : right.Expression) (name : String) (span : Span) (m : Machine) :
    (Code.assign name right span).Leaves (eval .code run call ctx (.assign name right span) m).1 m.stack
      (eval .code run call ctx (.assign name right span) m).2.stack := by
  have hstack : (eval .code run call ctx right m).2.stack = m.stack :=
    ((eval_grows hcall right).mono fun _ => h).stack_eq m
  simp only [eval]
  rcases hm : eval .code run call ctx right m with ⟨r, after⟩
  rw [hm] at hstack
  cases r with
  | error e =>
    rw [Eval.bind_error hm]
    exact hstack
  | ok v =>
    rw [Eval.bind_ok hm]
    have hpush := Eval.push_eq run ctx.frames span v after
    split at hpush
    · rw [Eval.bind_error hpush]
      exact hstack
    · rw [Eval.bind_ok hpush]
      exact ⟨v, congrArg (Array.push · v) hstack⟩

/-- What stands in compiled code leaves the slots as they were, unless it is a definition or the
program. -/
theorem Evaluation.eval_leaves {externals : Bindings Value} {program : Syntax.Program} {code e : Code}
    (hc : compile externals program = .ok code) (he : e.PartOf code) {run : Run} {call : Caller Code}
    (hcall : ∀ frames span argSpans f args, Grows True (call frames span argSpans f args))
    (ctx : Context Code) (m : Machine) :
    e.Leaves (eval .code run call ctx e m).1 m.stack (eval .code run call ctx e m).2.stack := by
  rcases compile_form hc he with rfl | h | h
  · obtain ⟨cs, r, -, -, rfl⟩ := compile_lowered hc
    obtain ⟨more, hmore, -⟩ := eval_grows hcall (.program cs r _ _) m
    exact ⟨more, hmore⟩
  · have hstack : (eval .code run call ctx e m).2.stack = m.stack :=
      ((eval_grows hcall e).mono fun _ => h).stack_eq m
    cases h <;> exact hstack
  · obtain ⟨name, span, hright⟩ := h
    exact assign_leaves hcall hright name span m

/-- Whatever an interpreter holds, it holds again when it has evaluated a piece of compiled code, and
also if that fails; slots apart, if the piece is a definition or the program. At no time before are
there more calls or slots than there may be, if there are not too many at first. -/
theorem Interpreter.perform_restores {externals : Bindings Value} {program : Syntax.Program}
    {code e : Code} (hc : compile externals program = .ok code) (he : e.PartOf code) (run : Run)
    (c : Course) : ∃ result d, perform run (.evaluate e) c = some (result, d) ∧
      (result, d.now.machine) = (Task.evaluate e).meaning run c.now.context c.now.machine ∧
      d.now.frames = c.now.frames ∧ d.now.base = c.now.base ∧ d.now.captures = c.now.captures ∧
      d.now.callSite = c.now.callSite ∧
      e.Leaves result c.now.machine.stack d.now.machine.stack ∧
      ∃ more, d.before = more ++ c.before ∧ (c.now.Within run.limits →
        d.now.Within run.limits ∧ ∀ r ∈ more, r.Within run.limits) := by
  obtain ⟨d, hd, hnow, hcontinues⟩ := perform_follows (.evaluate e) c rfl rfl
  refine ⟨_, d, hd, ?_, ?_, ?_, ?_, ?_, ?_, hcontinues⟩ <;> rw [hnow]
  exacts [rfl, rfl, rfl, rfl, rfl, Evaluation.eval_leaves hc he (Evaluation.apply_grows run _) _ _]

namespace Restoration

/-- The program `f(x) = x`, with the call of `f` as its result. -/
def program : Syntax.Program :=
  ⟨[], [⟨"f", default, .lambda (some "f") [⟨"x", default, none⟩] (.identifier "x" default) default,
      false, default⟩],
    some (.call (.identifier "f" default) [.string "a" default] default), default⟩

/-- The call in it. -/
def call : Code := .call (.read (.slot 0) default) [.value (.string "a") default] default

def code : Code :=
  .program [.assign "f" (.lambda (some "f") [⟨"x", none⟩] [] (.read (.slot 0) default) default) default]
    (some call) [⟨"f", 0, false, default⟩] default

theorem call_restores : compile [] program = .ok code ∧ call.PartOf code ∧
    ∀ run c, ∃ result d, Interpreter.perform run (.evaluate call) c = some (result, d) ∧
      (result, d.now.machine) = (Task.evaluate call).meaning run c.now.context c.now.machine ∧
      d.now.frames = c.now.frames ∧ d.now.base = c.now.base ∧ d.now.captures = c.now.captures ∧
      d.now.callSite = c.now.callSite ∧
      call.Leaves result c.now.machine.stack d.now.machine.stack ∧
      ∃ more, d.before = more ++ c.before ∧ (c.now.Within run.limits →
        d.now.Within run.limits ∧ ∀ r ∈ more, r.Within run.limits) :=
  have hc : compile [] program = .ok code := rfl
  have he : call.PartOf code := .piece .self (by simp [code, Code.pieces])
  ⟨hc, he, fun run c => Interpreter.perform_restores hc he run c⟩

end Restoration

end Estimation
