import Estimation.Proofs.Alike.Natives
import Estimation.Proofs.Placement
import Estimation.Proofs.Steps

/-!
Where a run fails. Each active call is at a place in code that it runs, the outermost one in the code
of the program; and what the run leaves has functions from no other code.
-/

namespace Estimation

open List

/-- The active calls are at spans of a kind, the outermost at one of the program's own. -/
structure Traced (own S : Span → Prop) (trace : List TraceFrame) : Prop where
  every : ∀ frame ∈ trace, S frame.span
  outermost : ∃ frame, trace.getLast? = some frame ∧ own frame.span

variable {own S T : Span → Prop} {frames : List Frame} {frame : Frame} {span : Span}

namespace Traced

theorem top (hown : own span) (hS : S span) : Traced own S (traceFrom [] span) :=
  ⟨forall_mem_singleton.2 hS, _, rfl, hown⟩

theorem inner (h : Traced own S (traceFrom frames frame.callSpan)) (hS : S span) :
    Traced own S (traceFrom (frame :: frames) span) := by
  obtain ⟨outermost, hlast, hown⟩ := h.outermost
  refine ⟨forall_mem_cons.2 ⟨hS, h.every⟩, outermost, ?_, hown⟩
  rw [traceFrom, getLast?_cons, hlast]
  rfl

theorem innermost (h : Traced own S (traceFrom frames span)) : S span := by
  cases frames <;> exact h.every _ mem_cons_self

end Traced

/-- Among slots whose functions are placed a step fails at such places only, or has a result with a
property, and leaves such slots. -/
def Keeps {α : Type} (own S : Span → Prop) (Q : α → Prop) (step : Eval Code α) : Prop :=
  ∀ m : Machine, (∀ v ∈ m.stack, v.Placed S) →
    Meets (fun e : RunError => Traced own S e.trace) Q (step m).1 ∧
      ∀ v ∈ (step m).2.stack, v.Placed S

namespace Keeps

variable {α β : Type} {P : α → Prop} {Q : β → Prop} {step : Eval Code α}

theorem pure {a : α} (h : P a) : Keeps own S P (pure a) := fun _ hm => ⟨h, hm⟩

theorem fail (h : Traced own S (traceFrom frames span)) {failure : Failure} :
    Keeps own S P (Eval.fail frames span failure) :=
  fun _ hm => ⟨h, hm⟩

theorem ofExcept (h : Traced own S (traceFrom frames span)) {x : Except Failure α}
    (hx : Meets (fun _ => True) P x) : Keeps own S P (Eval.ofExcept frames span x) := by
  cases x with
  | ok a => exact pure hx
  | error failure => exact fail h

theorem draw (h : Traced own S (traceFrom frames span)) {step : Draw α}
    (hstep : ∀ random, Meets (fun _ => True) P (step random).1) :
    Keeps own S P (Eval.draw frames span step) := by
  intro m hm
  have hr := hstep m.random
  rw [Eval.draw]
  rcases hs : step m.random with ⟨x, after⟩
  rw [hs] at hr
  cases x with
  | ok a => exact ⟨hr, hm⟩
  | error failure => exact ⟨h, hm⟩

theorem bind (h : Keeps own S P step) {k : α → Eval Code β} (hk : ∀ a, P a → Keeps own S Q (k a)) :
    Keeps own S Q (step >>= k) := by
  intro m hm
  have hs := h m hm
  rcases hstep : step m with ⟨x, after⟩
  rw [hstep] at hs
  cases x with
  | ok a =>
    rw [Eval.bind_ok hstep]
    exact hk a hs.1 after hs.2
  | error e =>
    rw [Eval.bind_error hstep]
    exact hs

theorem get {k : Machine → Eval Code β}
    (h : ∀ m : Machine, (∀ v ∈ m.stack, v.Placed S) → Keeps own S Q (k m)) :
    Keeps own S Q (get >>= k) :=
  fun m hm => h m hm m hm

theorem newIdentity (run : Run) : Keeps own S (fun _ => True) (Evaluation.newIdentity run) :=
  fun _ hm => ⟨trivial, hm⟩

theorem record {label : String} {place : Span} :
    Keeps own S (fun _ => True) (Eval.record label place) :=
  fun _ hm => ⟨trivial, hm⟩

theorem takeProfile : Keeps own S (fun _ => True) (Evaluation.takeProfile) :=
  fun _ hm => ⟨trivial, hm⟩

theorem push (h : Traced own S (traceFrom frames span)) {run : Run} {v : Value} (hv : v.Placed S) :
    Keeps own S (fun _ => True) (Eval.push run frames span v) := by
  intro m hm
  rw [Eval.push_eq]
  split
  · exact ⟨h, hm⟩
  · refine ⟨trivial, fun w hw => ?_⟩
    rcases Array.mem_push.1 hw with hw | rfl
    · exact hm w hw
    · exact hv

theorem pushAll (h : Traced own S (traceFrom frames span)) {run : Run} {vs : List Value}
    (hvs : ∀ v ∈ vs, v.Placed S) : Keeps own S (fun _ => True) (Eval.pushAll run frames span vs) := by
  induction vs with
  | nil => exact pure trivial
  | cons v vs ih =>
    obtain ⟨hv, hrest⟩ := forall_mem_cons.1 hvs
    exact (push h hv).bind fun _ _ => ih hrest

theorem shrinkingTo (h : Keeps own S P step) (size : Nat) :
    Keeps own S P (Eval.shrinkingTo size step) := by
  intro m hm
  obtain ⟨hresult, hafter⟩ := h m hm
  refine ⟨hresult, fun v hv => hafter v ?_⟩
  change v ∈ (step m).2.stack.shrink size at hv
  rw [← Array.mem_toList_iff, Array.toList_shrink] at hv
  exact Array.mem_toList_iff.1 (mem_of_mem_take hv)

end Keeps

/-! ### The standard library -/

namespace Library

variable {call : Callback Code} {args vs : List Value} {f : Lambda} {v : Value}

theorem argument_placed (hargs : ∀ v ∈ args, v.Placed S) (i : Nat) :
    Meets (fun _ => True) (ValueOf.Placed S) (argument args i) := by
  unfold argument
  split
  · next v hv => exact hargs v (mem_of_getElem? hv)
  · trivial

theorem list_placed (hargs : ∀ v ∈ args, v.Placed S) (i : Nat) :
    Meets (fun _ => True) (fun vs => ∀ v ∈ vs, ValueOf.Placed S v) (list args i) := by
  refine (argument_placed hargs i).bind fun v hv => ?_
  cases v with
  | list vs => exact fun w hw f hf => hv f (.list hw hf)
  | _ => trivial

theorem lambda_placed (hargs : ∀ v ∈ args, v.Placed S) (i : Nat) :
    Meets (fun _ => True) (LambdaOf.Placed S) (lambda args i) := by
  refine (argument_placed hargs i).bind fun v hv => ?_
  cases v with
  | lambda f => exact hv.of_lambda
  | _ => trivial

theorem orFail_keeps {α : Type} {P : α → Prop} (hat : Traced own S (traceFrom frames span))
    {x : Result α} (hx : Meets (fun _ => True) P x) :
    Keeps own S P (orFail (Eval.fail frames span) x) := by
  cases x with
  | ok a => exact .pure hx
  | error failure => exact .fail hat

section

variable (hcall : ∀ f args, f.Placed S → (∀ v ∈ args, v.Placed S) →
    Keeps own S (ValueOf.Placed S) (call f args))
  (hat : Traced own S (traceFrom frames span))

include hcall

theorem mapFrom_keeps (hf : f.Placed S) (withIndex : Bool) {done : List Value}
    (hdone : ∀ v ∈ done, v.Placed S) (n : Nat) (hvs : ∀ v ∈ vs, v.Placed S) :
    Keeps own S (ValueOf.Placed S) (mapFrom call f withIndex done n vs) := by
  induction vs generalizing done n with
  | nil => exact .pure (.list fun v hv => hdone v (mem_reverse.1 hv))
  | cons v vs ih =>
    obtain ⟨hv, hvs⟩ := forall_mem_cons.1 hvs
    refine (hcall f _ hf ?_).bind fun w hw => ih (forall_mem_cons.2 ⟨hw, hdone⟩) _ hvs
    cases withIndex with
    | true => exact forall_mem_cons.2 ⟨hv, forall_mem_singleton.2 (.number _)⟩
    | false => exact forall_mem_singleton.2 hv

theorem reduceFrom_keeps (hf : f.Placed S) (hv : v.Placed S) (hvs : ∀ v ∈ vs, v.Placed S) :
    Keeps own S (ValueOf.Placed S) (reduceFrom call f v vs) := by
  induction vs generalizing v with
  | nil => exact .pure hv
  | cons item vs ih =>
    obtain ⟨hitem, hvs⟩ := forall_mem_cons.1 hvs
    exact (hcall f _ hf (forall_mem_cons.2 ⟨hv, forall_mem_singleton.2 hitem⟩)).bind
      fun w hw => ih hw hvs

theorem makeFrom_keeps (hf : f.Placed S) (withIndex : Bool) {done : List Value}
    (hdone : ∀ v ∈ done, v.Placed S) (left : Nat) :
    Keeps own S (ValueOf.Placed S) (makeFrom call f withIndex done left) := by
  induction left generalizing done with
  | zero => exact .pure (.list fun v hv => hdone v (mem_reverse.1 hv))
  | succ left ih =>
    refine (hcall f _ hf ?_).bind fun w hw => ih (forall_mem_cons.2 ⟨hw, hdone⟩)
    cases withIndex with
    | true => exact forall_mem_singleton.2 (.number _)
    | false => exact forall_mem_nil _

include hat

theorem filterFrom_keeps (hf : f.Placed S) {kept : List Value} (hkept : ∀ v ∈ kept, v.Placed S)
    (hvs : ∀ v ∈ vs, v.Placed S) :
    Keeps own S (ValueOf.Placed S) (filterFrom call (Eval.fail frames span) f kept vs) := by
  induction vs generalizing kept with
  | nil => exact .pure (.list fun v hv => hkept v (mem_reverse.1 hv))
  | cons v vs ih =>
    obtain ⟨hv, hvs⟩ := forall_mem_cons.1 hvs
    refine (hcall f _ hf (forall_mem_singleton.2 hv)).bind fun w _ => ?_
    split
    · exact ih (forall_mem_cons.2 ⟨hv, hkept⟩) hvs
    · exact ih hkept hvs
    · exact .fail hat

variable (hargs : ∀ v ∈ args, v.Placed S)

include hargs

theorem listMap_keeps :
    Keeps own S (ValueOf.Placed S) (listMap call (Eval.fail frames span) args) :=
  (orFail_keeps hat (list_placed hargs 0)).bind fun _ hvs =>
    (orFail_keeps hat (lambda_placed hargs 1)).bind fun _ hf =>
      mapFrom_keeps hcall hf _ (forall_mem_nil _) 0 hvs

theorem listFilter_keeps :
    Keeps own S (ValueOf.Placed S) (listFilter call (Eval.fail frames span) args) :=
  (orFail_keeps hat (list_placed hargs 0)).bind fun _ hvs =>
    (orFail_keeps hat (lambda_placed hargs 1)).bind fun _ hf =>
      filterFrom_keeps hcall hat hf (forall_mem_nil _) hvs

theorem listReduce_keeps :
    Keeps own S (ValueOf.Placed S) (listReduce call (Eval.fail frames span) args) :=
  (orFail_keeps hat (list_placed hargs 0)).bind fun _ hvs =>
    (orFail_keeps hat (argument_placed hargs 1)).bind fun _ hv =>
      (orFail_keeps hat (lambda_placed hargs 2)).bind fun _ hf => reduceFrom_keeps hcall hf hv hvs

theorem listMake_keeps :
    Keeps own S (ValueOf.Placed S) (listMake call (Eval.fail frames span) args) := by
  have hnumber : Meets (fun _ => True) (fun _ => True) (number args 0) := by
    cases number args 0 <;> trivial
  refine (orFail_keeps hat hnumber).bind fun count _ => ?_
  split
  · refine (orFail_keeps hat (argument_placed hargs 1)).bind fun v hv => ?_
    split
    · exact makeFrom_keeps hcall hv.of_lambda _ (forall_mem_nil _) _
    · exact .pure (.list fun w hw => (mem_replicate.1 hw).2 ▸ hv)
  · exact .fail hat

end

/-- Functions that are placed, each related to itself. -/
def Same (S : Span → Prop) (f g : Lambda) : Prop := f = g ∧ g.Placed S

theorem same_respects : Respects (Same S) where
  native g := ⟨rfl, .native g⟩
  shape := by
    rintro f _ ⟨rfl, -⟩
    cases f with
    | native g => exact .inl ⟨g, rfl, rfl⟩
    | closure => exact .inr ⟨_, _, _, _, _, _, _, _, _, rfl, rfl⟩
  same := by
    rintro f _ f' _ ⟨rfl, -⟩ ⟨rfl, -⟩
    rfl

theorem placed_of_same {v w : Value} (h : ValueOf.Alike (Same S) v w) : w.Placed S := by
  intro f hf
  obtain ⟨g, hg⟩ := hf.alike h
  exact hg.2

theorem meets_of_alike {x y : Result Value} (h : ResultAlike (ValueOf.Alike (Same S)) x y) :
    Meets (fun _ => True) (ValueOf.Placed S) y := by
  cases h with
  | ok h => exact placed_of_same h
  | error _ => trivial

end Library

theorem Native.run_keeps {run : Run} {call : Library.Callback Code}
    (hcall : ∀ f args, f.Placed S → (∀ v ∈ args, v.Placed S) →
      Keeps own S (ValueOf.Placed S) (call f args))
    (hat : Traced own S (traceFrom frames span)) (g : Native) {args : List Value}
    (hargs : ∀ v ∈ args, v.Placed S) (hn : g.arity.Accepts args.length) :
    Keeps own S (ValueOf.Placed S) (g.run run call frames span args) := by
  obtain ⟨ws, hws⟩ := all_alike_of_occurs (F := Library.Same S) Library.same_respects.native args
    fun v hv f hf => ⟨f, rfl, hargs v hv f hf⟩
  have hdoes := g.does_alike Library.same_respects run.environment hws (hws.length_eq ▸ hn)
  unfold Native.run
  cases hdoes with
  | result h _ hy =>
    rw [hy]
    exact .ofExcept hat (Library.meets_of_alike h)
  | draw h _ hy =>
    rw [hy]
    exact .draw hat fun random => Library.meets_of_alike (h.result random)
  | calls hcaller =>
    simp only [Native.callers, mem_cons, not_mem_nil, or_false] at hcaller
    rcases hcaller with rfl | rfl | rfl | rfl
    · exact Library.listMap_keeps hcall hat hargs
    · exact Library.listFilter_keeps hcall hat hargs
    · exact Library.listReduce_keeps hcall hat hargs
    · exact Library.listMake_keeps hcall hat hargs

/-! ### Evaluation -/

namespace Evaluation

theorem lookup?_placed {ctx : Context Code} {m : Machine} (hm : ∀ v ∈ m.stack, v.Placed S)
    (hcaptures : ∀ v ∈ ctx.captures, v.Placed S) {source : Variable} {v : Value}
    (h : lookup? ctx m source = some v) : v.Placed S := by
  cases source with
  | slot n => exact hm v (Array.mem_of_getElem? h)
  | capture n => exact hcaptures v (mem_of_getElem? h)

section

variable {run : Run} {call : Caller Code} {ctx : Context Code}
  (hcaptures : ∀ v ∈ ctx.captures, v.Placed S)

include hcaptures in
theorem captured_keeps (hat : Traced own S (traceFrom ctx.frames span)) (sources : List Variable) :
    Keeps own S (fun vs => ∀ v ∈ vs, v.Placed S) (captured ctx span sources) := by
  induction sources with
  | nil => exact .pure (forall_mem_nil _)
  | cons source sources ih =>
    refine .get fun m hm => ?_
    split
    · next v hv =>
      exact ih.bind fun vs hvs =>
        .pure (forall_mem_cons.2 ⟨lookup?_placed hm hcaptures hv, hvs⟩)
    · exact .fail hat

variable (hT : ∀ span, T span → Traced own S (traceFrom ctx.frames span))
  (hcall : ∀ span argSpans f args, T span → (∀ s ∈ argSpans, T s) → f.Placed S →
    (∀ v ∈ args, v.Placed S) → Keeps own S (ValueOf.Placed S) (call ctx.frames span argSpans f args))

set_option linter.unusedSectionVars false

include hcaptures hT hcall

mutual

theorem eval_keeps : ∀ code : Code, code.Placed T S →
    Keeps own S (ValueOf.Placed S) (eval .code run call ctx code)
  | .value _ _, h => by
    simp only [eval]
    exact .pure h.value
  | .read _ _, h => by
    simp only [eval]
    refine .get fun m hm => ?_
    split
    · next v hv => exact .pure (lookup?_placed hm hcaptures hv)
    · exact .fail (hT _ h.span)
  | .block statements result _, h => by
    simp only [eval]
    exact .get fun _ _ => .shrinkingTo ((evalStatements_keeps statements fun c hc =>
      h.piece (mem_append_left _ hc)).bind fun _ _ =>
        eval_keeps result (h.piece (mem_append_right _ mem_cons_self))) _
  | .program statements result _ _, h => by
    simp only [eval]
    exact (evalRecorded_keeps statements fun c hc => h.piece (mem_append_left _ hc)).bind fun _ _ =>
      evalResult_keeps result fun c hc => h.piece (mem_append_right _ (Option.mem_toList.2 hc))
  | .assign _ right _, h => by
    simp only [eval]
    exact (eval_keeps right (h.piece mem_cons_self)).bind fun _ hv =>
      (Keeps.push (hT _ h.span) hv).bind fun _ _ => .pure .void
  | .list items _, h => by
    simp only [eval]
    exact (evalAll_keeps items fun _ hc => h.piece hc).bind fun _ hvs => .pure (.list hvs)
  | .dict entries _, h => by
    simp only [eval]
    exact (evalEntries_keeps entries (fun _ hc => h.piece hc) (forall_mem_nil _)).bind
      fun _ hes => .pure (.dict hes)
  | .choice condition ifTrue ifFalse _, h => by
    have hcondition : condition.Placed T S := h.piece mem_cons_self
    simp only [eval]
    refine (eval_keeps condition hcondition).bind fun v _ => ?_
    split
    · exact eval_keeps ifTrue (h.piece (mem_cons_of_mem _ mem_cons_self))
    · exact eval_keeps ifFalse (h.piece (mem_cons_of_mem _ (mem_cons_of_mem _ mem_cons_self)))
    · exact .fail (hT _ hcondition.span)
  | .lambda name parameters captures body span, h => by
    have hbody : body.Placed T S := h.piece (mem_append_right _ mem_cons_self)
    simp only [eval]
    refine (captured_keeps hcaptures (hT _ h.span) captures).bind fun vs hvs =>
      (evalParameters_keeps parameters fun c hc => h.piece (mem_append_left _ hc)).bind fun ps _ =>
        (Keeps.newIdentity run).bind fun identity _ => .pure (.lambda ?_)
    exact hbody.closure (fun s hs => (hT s hs).innermost) hvs identity name ps span
  | .call callee args _, h => by
    have hcallee : callee.Placed T S := h.piece mem_cons_self
    have hargs (c : Code) (hc : c ∈ args) : c.Placed T S := h.piece (mem_cons_of_mem _ hc)
    simp only [eval]
    refine (eval_keeps callee hcallee).bind fun v hv => ?_
    split
    · refine (evalAll_keeps args hargs).bind fun vs hvs =>
        hcall _ _ _ _ h.span (fun s hs => ?_) hv.of_lambda hvs
      obtain ⟨c, hc, rfl⟩ := mem_map.1 hs
      exact (hargs c hc).span
    · exact .fail (hT _ hcallee.span)

theorem evalAll_keeps : ∀ codes : List Code, (∀ c ∈ codes, c.Placed T S) →
    Keeps own S (fun vs => ∀ v ∈ vs, v.Placed S) (evalAll .code run call ctx codes)
  | [], _ => by
    simp only [evalAll]
    exact .pure (forall_mem_nil _)
  | code :: rest, h => by
    simp only [evalAll]
    obtain ⟨hcode, hrest⟩ := forall_mem_cons.1 h
    exact (eval_keeps code hcode).bind fun _ hv => (evalAll_keeps rest hrest).bind fun _ hvs =>
      .pure (forall_mem_cons.2 ⟨hv, hvs⟩)

theorem evalStatements_keeps : ∀ codes : List Code, (∀ c ∈ codes, c.Placed T S) →
    Keeps own S (fun _ => True) (evalStatements .code run call ctx codes)
  | [], _ => by
    simp only [evalStatements]
    exact .pure trivial
  | code :: rest, h => by
    simp only [evalStatements]
    obtain ⟨hcode, hrest⟩ := forall_mem_cons.1 h
    exact (eval_keeps code hcode).bind fun _ _ => evalStatements_keeps rest hrest

theorem evalEntries_keeps : ∀ (entries : List (Code × Code)) {done : Bindings Value},
    (∀ c ∈ entries.flatMap fun e => [e.1, e.2], c.Placed T S) → (∀ e ∈ done, e.2.Placed S) →
    Keeps own S (fun es => ∀ e ∈ es, e.2.Placed S) (evalEntries .code run call ctx done entries)
  | [], _, _, hdone => by
    simp only [evalEntries]
    exact .pure hdone
  | entry :: rest, _, h, hdone => by
    simp only [evalEntries]
    rw [flatMap_cons] at h
    obtain ⟨hentry, hrest⟩ := forall_mem_append.1 h
    exact (evalEntry_keeps entry hentry).bind fun _ hv =>
      evalEntries_keeps rest hrest (Bindings.forall_insert hv hdone)

theorem evalEntry_keeps : ∀ entry : Code × Code, (∀ c ∈ [entry.1, entry.2], c.Placed T S) →
    Keeps own S (fun e => e.2.Placed S) (evalEntry .code run call ctx entry)
  | (key, value), h => by
    simp only [evalEntry]
    obtain ⟨hkey, hvalue⟩ := forall_mem_cons.1 h
    refine (eval_keeps key hkey).bind fun v _ => ?_
    split
    · exact (eval_keeps value (hvalue _ mem_cons_self)).bind fun _ hv => .pure hv
    · exact .fail (hT _ hkey.span)

theorem evalParameters_keeps : ∀ parameters : List (CodeParameter Code),
    (∀ c ∈ parameters.filterMap CodeParameter.range, c.Placed T S) →
    Keeps own S (fun _ => True) (evalParameters .code run call ctx parameters)
  | [], _ => by
    simp only [evalParameters]
    exact .pure trivial
  | p :: ps, h => by
    simp only [evalParameters]
    refine (evalParameter_keeps p fun c hc => h c ?_).bind fun _ _ =>
      (evalParameters_keeps ps fun c hc => h c ?_).bind fun _ _ => .pure trivial
    · exact mem_filterMap.2 ⟨p, mem_cons_self, hc⟩
    · obtain ⟨q, hq, hc⟩ := mem_filterMap.1 hc
      exact mem_filterMap.2 ⟨q, mem_cons_of_mem _ hq, hc⟩

theorem evalParameter_keeps : ∀ p : CodeParameter Code, (∀ c, p.range = some c → c.Placed T S) →
    Keeps own S (fun _ => True) (evalParameter .code run call ctx p)
  | ⟨_, none⟩, _ => by
    simp only [evalParameter, evalRange]
    exact Keeps.bind (P := fun _ => True) (.pure trivial) fun _ _ => .pure trivial
  | ⟨_, some code⟩, h => by
    have hcode := h code rfl
    simp only [evalParameter, evalRange]
    refine Keeps.bind (P := fun _ => True) ((eval_keeps code hcode).bind fun v _ =>
      (Keeps.ofExcept (P := fun _ => True) (hT _ hcode.span) ?_).bind fun _ _ => .pure trivial)
      fun _ _ => .pure trivial
    cases Range.ofValue v <;> trivial

theorem evalRecorded_keeps : ∀ codes : List Code, (∀ c ∈ codes, c.Placed T S) →
    Keeps own S (fun _ => True) (evalRecorded .code run call ctx codes)
  | [], _ => by
    simp only [evalRecorded]
    exact .pure trivial
  | code :: rest, h => by
    simp only [evalRecorded]
    obtain ⟨hcode, hrest⟩ := forall_mem_cons.1 h
    exact (eval_keeps code hcode).bind fun _ _ => Keeps.record.bind fun _ _ =>
      evalRecorded_keeps rest hrest

theorem evalResult_keeps : ∀ code : Option Code, (∀ c, code = some c → c.Placed T S) →
    Keeps own S (ValueOf.Placed S) (evalResult .code run call ctx code)
  | none, _ => by
    simp only [evalResult]
    exact .pure .void
  | some code, h => by
    simp only [evalResult]
    exact (eval_keeps code (h code rfl)).bind fun _ hv => Keeps.record.bind fun _ _ => .pure hv

end

end

theorem checkRanges_keeps {argSpans : List Span}
    (hat : ∀ i, Traced own S (traceFrom frames (argSpans.getD i span))) (parameters : List Parameter)
    (index : Nat) (args : List Value) : Keeps own S (fun _ => True)
      (checkRanges (β := Code) frames span argSpans index parameters args) := by
  induction parameters generalizing index args with
  | nil => exact .pure trivial
  | cons p parameters ih =>
    cases args with
    | nil => exact .pure trivial
    | cons v args =>
      unfold checkRanges
      cases p.range with
      | none => exact ih _ _
      | some range =>
        cases v with
        | number x =>
          by_cases hx : range.Contains x
          · simp only [hx, decide_true, ↓reduceIte]
            exact ih _ _
          · simp only [hx, decide_false]
            exact Keeps.bind (P := fun _ => True) (.fail (hat index)) fun _ _ => ih _ _
        | _ => exact Keeps.bind (P := fun _ => True) (.fail (hat index)) fun _ _ => ih _ _

theorem runCode_keeps {run : Run} {call : Caller Code}
    (hT : ∀ span, S span → Traced own S (traceFrom frames span))
    (hcall : ∀ span argSpans f args, S span → (∀ s ∈ argSpans, S s) → f.Placed S →
      (∀ v ∈ args, v.Placed S) → Keeps own S (ValueOf.Placed S) (call frames span argSpans f args))
    {captures args : List Value} (hcaptures : ∀ v ∈ captures, v.Placed S) {body : Code}
    (hbody : body.Placed S S) (hargs : ∀ v ∈ args, v.Placed S) :
    Keeps own S (ValueOf.Placed S) (runCode .code run call frames captures body args) :=
  .get fun m _ =>
    let ctx : Context Code := ⟨frames, m.stack.size, captures⟩
    have heval : Keeps own S (ValueOf.Placed S) (eval .code run call ctx body) :=
      eval_keeps hcaptures hT hcall body hbody
    .shrinkingTo ((Keeps.pushAll (hT _ hbody.span) hargs).bind fun _ _ => heval) _

/-- A call of a function that is placed fails at such places only. -/
theorem apply_keeps (run : Run) (depth : Nat) {frames : List Frame} {span : Span}
    (hat : Traced own S (traceFrom frames span)) {argSpans : List Span}
    (hargSpans : ∀ s ∈ argSpans, Traced own S (traceFrom frames s)) {f : Lambda} (hf : f.Placed S)
    {args : List Value} (hargs : ∀ v ∈ args, v.Placed S) :
    Keeps own S (ValueOf.Placed S) (apply run depth frames span argSpans f args) := by
  unfold apply
  induction depth generalizing frames span argSpans f args with
  | zero => exact .fail hat
  | succ depth ih =>
    cases hf with
    | @closure identity name parameters captures body place hcaptures hspans hvalues =>
      let inner : List Frame := ⟨name.getD "<anonymous>", span⟩ :: frames
      have hinner (s : Span) (hs : S s) : Traced own S (traceFrom inner s) := hat.inner hs
      have hbody : Keeps own S (ValueOf.Placed S) (runCode .code run _ inner captures body args) :=
        runCode_keeps hinner (fun s ss _ _ hs hss hg hvs =>
          ih (hinner s hs) (fun s hs => hinner s (hss s hs)) hg hvs) hcaptures ⟨hspans, hvalues⟩ hargs
      have harg (i : Nat) : Traced own S (traceFrom frames (argSpans.getD i span)) := by
        rw [getD_eq_getElem?_getD]
        cases hi : argSpans[i]? with
        | none => exact hat
        | some s => exact hargSpans s (mem_of_getElem? hi)
      have hranges := (checkRanges_keeps harg parameters 0 args).bind fun _ _ => hbody
      simp only [callWith]
      by_cases hn : args.length = parameters.length
      · simp only [hn, ↓reduceIte]
        exact hranges
      · simp only [hn, ↓reduceIte]
        exact Keeps.bind (P := fun _ => True) (.fail hat) fun _ _ => hranges
    | native g =>
      let inner : List Frame := ⟨g.name, span⟩ :: frames
      have hinner : Traced own S (traceFrom inner span) := hat.inner hat.innermost
      simp only [callWith]
      by_cases hn : g.arity.Accepts args.length
      · simp only [hn, ↓reduceIte]
        exact Native.run_keeps (fun _ _ hf hvs => ih hinner (forall_mem_nil _) hf hvs) hinner g hargs hn
      · simp only [hn, ↓reduceIte]
        exact Keeps.bind (P := fun _ => False) (.fail hat) fun _ h => h.elim

end Evaluation

/-- What a program leaves has functions from code of a kind only. -/
structure Outcome.Placed (S : Span → Prop) (o : Outcome) : Prop where
  result : o.result.Placed S
  bindings : ∀ e ∈ o.bindings, e.2.Placed S
  exports : ∀ e ∈ o.exports, e.2.Placed S

namespace Evaluation

theorem bindingValues_keeps {bs : List TopBinding}
    (hbs : ∀ b ∈ bs, Traced own S (traceFrom [] b.span)) {bindings exports : Bindings Value}
    (hbindings : ∀ e ∈ bindings, e.2.Placed S) (hexports : ∀ e ∈ exports, e.2.Placed S) :
    Keeps own S (fun p => (∀ e ∈ p.1, e.2.Placed S) ∧ ∀ e ∈ p.2, e.2.Placed S)
      (bindingValues bs bindings exports) := by
  induction bs generalizing bindings exports with
  | nil => exact .pure ⟨hbindings, hexports⟩
  | cons b bs ih =>
    obtain ⟨hb, hbs⟩ := forall_mem_cons.1 hbs
    simp only [bindingValues]
    refine .get fun m hm => ?_
    split
    · next v hv =>
      have hv := hm v (Array.mem_of_getElem? hv)
      refine ih hbs (Bindings.forall_insert hv hbindings) ?_
      split
      · exact Bindings.forall_insert hv hexports
      · exact hexports
    · exact .fail hb

/-- A program fails in its own code or in that of the functions that it was given, and in the latter only
by calls from its own. -/
theorem runFresh_placed (run : Run) {statements : List Code} {result : Option Code}
    {bindings : List TopBinding} {span : Span} (hown : ∀ span, own span → S span)
    (hcode : ∀ c ∈ (Code.program statements result bindings span).pieces, c.Placed own S)
    (hbindings : ∀ b ∈ bindings, own b.span) : Meets (fun e => Traced own S e.trace)
      (Outcome.Placed S) (runFresh run (.program statements result bindings span)) := by
  have hat (s : Span) (hs : own s) : Traced own S (traceFrom [] s) := .top hs (hown s hs)
  obtain ⟨hstatements, hresult⟩ := forall_mem_append.1 hcode
  have hcall (s : Span) (ss : List Span) (f : Lambda) (args : List Value) (hs : own s)
      (hss : ∀ s ∈ ss, own s) (hf : f.Placed S) (hargs : ∀ v ∈ args, v.Placed S) :
      Keeps own S (ValueOf.Placed S) (apply run run.limits.callDepth [] s ss f args) :=
    apply_keeps run _ (hat s hs) (fun s hs => hat s (hss s hs)) hf hargs
  have htop : Keeps own S (ValueOf.Placed S)
      (topLevel run (.program statements result bindings span)) := by
    have hrecorded : Keeps own S (fun _ => True) (evalRecorded .code run _ .top statements) :=
      evalRecorded_keeps (forall_mem_nil _) hat hcall statements hstatements
    simp only [topLevel, eval]
    exact hrecorded.bind fun _ _ => evalResult_keeps (forall_mem_nil _) hat hcall result fun c hc =>
      hresult c (Option.mem_toList.2 hc)
  have hrun : Keeps own S (Outcome.Placed S)
      (runProgram run (.program statements result bindings span)) :=
    htop.bind fun v hv => (bindingValues_keeps (fun b hb => hat _ (hbindings b hb)) (forall_mem_nil _)
      (forall_mem_nil _)).bind
      fun p hp => Keeps.takeProfile.bind fun _ _ => .pure ⟨hv, hp.1, hp.2⟩
  exact (hrun (.start run.environment) fun v hv => absurd hv (Array.not_mem_empty v)).1

end Evaluation

end Estimation
