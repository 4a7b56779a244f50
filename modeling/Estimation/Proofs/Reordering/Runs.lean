import Estimation.Proofs.Reordering
import Estimation.Proofs.Renaming

/-!
Runs of code that captures in another order. Where the one run looks for a variable, the other one looks for
a variable with the same name and finds an alike value, so that both end alike, functions in what they leave
being the same but for the order of what they captured.
-/

namespace Estimation

open List

/-- Functions that are the same but for the order of what closures in them captured. Closures of other
programs captured alike values in the same order. -/
inductive Reordered : Lambda → Lambda → Prop
  | native (f) : Reordered (.native f) (.native f)
  | closure {k k' vs ws c d} (i name parameters span) :
      Permuted (ValueOf.Alike Reordered) k k' vs ws → Code.Matched (length parameters) k k' c d →
      Reordered (.closure i name parameters vs c span) (.closure i name parameters ws d span)
  | other {vs ws c d} (i name parameters span) : Forall₂ (ValueOf.Alike Reordered) vs ws →
      Code.Alike Eq c d →
      Reordered (.closure i name parameters vs c span) (.closure i name parameters ws d span)

namespace Reordered

theorem respects : Respects Reordered where
  native := .native
  shape h := by
    cases h with
    | native f => exact .inl ⟨f, rfl, rfl⟩
    | closure i name parameters span _ _ => exact .inr ⟨i, i, name, parameters, _, _, _, _, span, rfl, rfl⟩
    | other i name parameters span _ _ => exact .inr ⟨i, i, name, parameters, _, _, _, _, span, rfl, rfl⟩
  same h h' := by cases h <;> cases h' <;> rfl

mutual

theorem refl_value : ∀ v : Value, ValueOf.Alike Reordered v v
  | .void => .void
  | .number x => .number x
  | .string s => .string s
  | .bool b => .bool b
  | .list vs => .list (refl_values vs)
  | .dict es => .dict (refl_entries es)
  | .lambda f => .lambda (refl f)
  | .samples s => .samples s

theorem refl_values : ∀ vs : List Value, Forall₂ (ValueOf.Alike Reordered) vs vs
  | [] => .nil
  | v :: vs => .cons (refl_value v) (refl_values vs)

theorem refl_entries : ∀ es : List (String × Value),
    Forall₂ (EntryAlike (ValueOf.Alike Reordered)) es es
  | [] => .nil
  | (_, v) :: es => .cons ⟨refl_value v⟩ (refl_entries es)

theorem refl : ∀ f : Lambda, Reordered f f
  | .closure i name parameters vs c span =>
    .other i name parameters span (refl_values vs) (.refl (fun _ => rfl) c)
  | .native f => .native f

end

end Reordered

/-- So many alike values are above the given stacks. -/
def Filled (F : Lambda → Lambda → Prop) (s s' : Array Value) (n : Nat) (m m' : Machine) : Prop :=
  ∃ us us', us.length = n ∧ Forall₂ (ValueOf.Alike F) us us' ∧
    Level (s ++ us.toArray) (s' ++ us'.toArray) m m'

theorem Filled.above {F : Lambda → Lambda → Prop} {s s' : Array Value} {n : Nat} {m m' : Machine}
    (h : Filled F s s' n m m') : Above F s s' m m' := by
  obtain ⟨us, us', -, hu, hm⟩ := h
  exact ⟨us, us', hu, hm⟩

namespace Code.Matched

variable {n : Nat} {k k' : List String} {c d : Code}

theorem span_eq (h : Matched n k k' c d) : c.span = d.span := by cases h <;> rfl

theorem spans_eq {cs ds : List Code} (h : AllMatched n k k' cs ds) :
    cs.map Code.span = ds.map Code.span := by
  induction cs generalizing ds with
  | nil =>
    cases h
    rfl
  | cons c cs ih =>
    cases h with
    | cons h hs => rw [map_cons, map_cons, h.span_eq, ih hs]

end Code.Matched

namespace Evaluation

/-- Contexts of two calls on the stacks `s` and `s'` that captured values with the names `k` and `k'`. -/
structure ContextsMatched (F : Lambda → Lambda → Prop) (s s' : Array Value) (k k' : List String)
    (ctx ctx' : Context Code) : Prop where
  size : s.size = s'.size
  frames : ctx.frames = ctx'.frames
  base : ctx.base = s.size
  base' : ctx'.base = s'.size
  captures : Permuted (ValueOf.Alike F) k k' ctx.captures ctx'.captures

section

variable {F : Lambda → Lambda → Prop} {α δ : Type} {R : α → δ → Prop} {s s' : Array Value} {n : Nat}
  {run : Run}

theorem filled_simulates (hs : s.size = s'.size) {step : Eval Code α} {step' : Eval Code δ}
    (h : ∀ {t t'}, Faults.same.Fits t.size t'.size → Simulates .same (Level t t') R (Level t t') step step') :
    Simulates .same (Filled F s s' n) R (Filled F s s' n) step step' := by
  rintro m m' ⟨us, us', hn, hu, hm⟩
  have hstep := h (append_fits ⟨Nat.le_of_eq hs, .inl hs⟩ hu) m m' hm
  generalize step m = x at hstep
  generalize step' m' = y at hstep
  cases hstep with
  | ok hp => exact .ok ⟨hp.1, us, us', hn, hu, hp.2⟩
  | error he => exact .error he
  | overflow hlonger => exact .overflow hlonger

theorem push_filled (hs : s.size = s'.size) {frames : List Frame} {span : Span} {v w : Value}
    (hv : ValueOf.Alike F v w) : Simulates .same (Filled F s s' n) Eq (Filled F s s' (n + 1))
      (Eval.push run frames span v) (Eval.push run frames span w) := by
  rintro m m' ⟨us, us', hn, hu, hm⟩
  refine (Simulates.push rfl (append_fits ⟨Nat.le_of_eq hs, .inl hs⟩ hu) fun _ => trivial).mono
    (fun _ _ h => h) (fun m m' hm => ?_) m m' hm
  rw [append_push, append_push] at hm
  exact ⟨_, _, by rw [length_append, hn, length_singleton], rel_append hu (.cons hv .nil), hm⟩

theorem pushAll_filled (hs : s.size = s'.size) {frames : List Frame} {span : Span} {vs ws : List Value}
    (h : Forall₂ (ValueOf.Alike F) vs ws) :
    Simulates .same (Filled F s s' n) Eq (Filled F s s' (n + vs.length))
      (Eval.pushAll run frames span vs) (Eval.pushAll run frames span ws) := by
  induction h generalizing n with
  | nil => exact .pure rfl
  | @cons v w vs ws hv _ ih =>
    rw [length_cons, Nat.add_comm vs.length, ← Nat.add_assoc]
    exact (push_filled hs hv).bind fun _ _ _ => ih

/-- What is put on the stacks is dropped behind a step. -/
theorem shrinkingTo_filled {l : Nat} {step : Eval Code α} {step' : Eval Code δ}
    (h : Simulates .same (Filled F s s' n) R (Filled F s s' (n + l)) step step') :
    Simulates .same (Filled F s s' n) R (Filled F s s' n)
      (do let size := (← get).stack.size
          Eval.shrinkingTo size step)
      (do let size := (← get).stack.size
          Eval.shrinkingTo size step') := by
  refine .get fun m m' hm => ?_
  obtain ⟨us, us', rfl, hu, hm₀⟩ := id hm
  refine (h.shrinkingTo fun m m' hm => ?_) m m' hm
  obtain ⟨ws, ws', hl, hw, hm⟩ := hm
  refine ⟨ws.take us.length, ws'.take us.length, ?_, forall₂_take _ hw, ?_, ?_, hm.random, hm.closures,
    hm.profile⟩
  · rw [length_take, hl, Nat.min_eq_left (Nat.le_add_right _ _)]
  · rw [hm₀.stack, hm.stack, append_size, append_shrink]
  · rw [hm₀.stack', hm.stack', append_size, append_shrink, hu.length_eq]

end

section

variable {F : Lambda → Lambda → Prop} {s s' : Array Value} {n : Nat} {k k' : List String}
  {ctx ctx' : Context Code}

theorem lookup?_matched (hctx : ContextsMatched F s s' k k' ctx ctx') {m m' : Machine}
    (hm : Filled F s s' n m m') {source source' : Variable} (h : source.Matched n k k' source') :
    ∃ v w, lookup? ctx m source = some v ∧ lookup? ctx' m' source' = some w ∧ ValueOf.Alike F v w := by
  obtain ⟨us, us', rfl, hu, hm⟩ := hm
  cases h with
  | @slot i hi =>
    have hi' : i < us'.length := hu.length_eq ▸ hi
    refine ⟨us[i], us'[i], ?_, ?_, hu.get hi hi'⟩
    · simp only [lookup?, hm.stack, hctx.base]
      rw [Array.getElem?_append_right (Nat.le_add_right _ _), Nat.add_sub_cancel_left,
        List.getElem?_toArray, getElem?_eq_getElem hi]
    · simp only [lookup?, hm.stack', hctx.base']
      rw [Array.getElem?_append_right (Nat.le_add_right _ _), Nat.add_sub_cancel_left,
        List.getElem?_toArray, getElem?_eq_getElem hi']
  | capture hi hj => exact hctx.captures.linked hi hj

theorem captured_ok {m : Machine} (span : Span) {sources : List Variable} {vs : List Value}
    (h : Forall₂ (fun source v => lookup? ctx m source = some v) sources vs) :
    captured ctx span sources m = (.ok vs, m) := by
  induction h with
  | nil => rfl
  | @cons source v sources vs hv _ ih =>
    have hget : (get : Eval Code Machine) m = (.ok m, m) := rfl
    rw [captured, Eval.bind_ok hget, hv]
    exact Eval.bind_ok ih

/-- What two lambdas capture under the same names is alike. -/
theorem captured_matched (hctx : ContextsMatched F s s' k k' ctx ctx') (span : Span) {l l' : List String}
    {sources sources' : List Variable} (h : Permuted (Variable.Matched n k k') l l' sources sources') :
    Simulates .same (Filled F s s' n) (Permuted (ValueOf.Alike F) l l') (Filled F s s' n)
      (captured ctx span sources) (captured ctx' span sources') := by
  intro m m' hm
  have hvalues : Forall₂ (fun source v => lookup? ctx m source = some v) sources
      (sources.map fun source => (lookup? ctx m source).getD .void) := by
    refine forall₂_map_right_iff.2 (forall₂_same.2 fun source hsource => ?_)
    obtain ⟨source', -, hmatched⟩ := h.left hsource
    obtain ⟨v, w, hv, -, -⟩ := lookup?_matched hctx hm hmatched
    rw [hv, Option.getD_some]
  have hvalues' : Forall₂ (fun source v => lookup? ctx' m' source = some v) sources'
      (sources'.map fun source => (lookup? ctx' m' source).getD .void) := by
    refine forall₂_map_right_iff.2 (forall₂_same.2 fun source' hsource' => ?_)
    obtain ⟨source, -, hmatched⟩ := h.right hsource'
    obtain ⟨v, w, -, hw, -⟩ := lookup?_matched hctx hm hmatched
    rw [hw, Option.getD_some]
  rw [captured_ok span hvalues, captured_ok span hvalues']
  refine .ok ⟨h.map fun source source' hmatched => ?_, hm⟩
  obtain ⟨v, w, hv, hw, hvw⟩ := lookup?_matched hctx hm hmatched
  rw [hv, hw]
  exact hvw

end

section

open Code (Matched AllMatched EntriesMatched ParametersMatched StatementsMatched)

variable {s s' : Array Value} {k k' : List String} {run : Run} {call call' : Caller Code}
  {ctx ctx' : Context Code} (hcall : CallersAlike .same Reordered call call')
  (hctx : ContextsMatched Reordered s s' k k' ctx ctx')

set_option linter.unusedSectionVars false

include hcall hctx

theorem assign_matched {n : Nat} {c d : Code} (h : Simulates .same (Filled Reordered s s' n)
      (ValueOf.Alike Reordered) (Filled Reordered s s' n) (eval .code run call ctx c)
      (eval .code run call' ctx' d)) (name : String) (span : Span) :
    Simulates .same (Filled Reordered s s' n) (fun _ _ => True) (Filled Reordered s s' (n + 1))
      (eval .code run call ctx (.assign name c span)) (eval .code run call' ctx' (.assign name d span)) := by
  simp only [eval]
  rw [hctx.frames]
  exact h.bind fun _ _ hv => (push_filled hctx.size hv).bind fun _ _ _ => .pure trivial

mutual

/-- Matched code leaves alike values, and the stacks as they were. -/
theorem eval_matched : ∀ {n : Nat} {c d : Code}, Matched n k k' c d →
    Simulates .same (Filled Reordered s s' n) (ValueOf.Alike Reordered) (Filled Reordered s s' n)
      (eval .code run call ctx c) (eval .code run call' ctx' d)
  | _, .value _ _, _, .value v _ => by
    simp only [eval]
    exact .pure (Reordered.refl_value v)
  | _, .read _ _, _, .read span h => by
    simp only [eval]
    refine .get fun m m' hm => ?_
    obtain ⟨v, w, hv, hw, hvw⟩ := lookup?_matched hctx hm h
    rw [hv, hw]
    exact .ok ⟨hvw, hm⟩
  | _, .block _ _ _, _, .block _ hs h => by
    simp only [eval]
    exact shrinkingTo_filled ((evalStatements_matched hs).bind fun _ _ _ => eval_matched h)
  | _, .list _ _, _, .list _ hs => by
    simp only [eval]
    exact (evalAll_matched hs).bind fun _ _ hvs => .pure (.list hvs)
  | _, .dict _ _, _, .dict _ hs => by
    simp only [eval]
    exact (evalEntries_matched hs .nil).bind fun _ _ hes => .pure (.dict hes)
  | _, .choice _ _ _ _, _, .choice _ h h' h'' => by
    simp only [eval]
    refine (eval_matched h).bind fun v w hv => ?_
    cases hv with
    | bool b =>
      cases b with
      | true => exact eval_matched h'
      | false => exact eval_matched h''
    | _ =>
      rw [h.span_eq, hctx.frames]
      exact .fail trivial
  | _, .lambda _ _ _ _ _, _, .lambda name span hsources hps h => by
    simp only [eval]
    refine (captured_matched hctx span hsources).bind fun vs ws hvs =>
      (evalParameters_matched hps).bind fun ps qs hps => ?_
    obtain ⟨rfl, hl⟩ := hps
    refine (filled_simulates hctx.size fun _ => .newIdentity).bind fun i j hij => ?_
    obtain ⟨serial, rfl, rfl⟩ := hij
    exact .pure (.lambda (.closure _ name ps span hvs (hl ▸ h)))
  | _, .call _ _ _, _, .call span h hs => by
    simp only [eval]
    refine (eval_matched h).bind fun v w hv => ?_
    have ht := hv.text_eq Reordered.respects
    cases hv with
    | lambda hf =>
      refine (evalAll_matched hs).bind fun vs ws hvs => ?_
      rw [hctx.frames, Matched.spans_eq hs]
      exact filled_simulates hctx.size fun ht => hcall ht _ _ _ hf hvs
    | _ =>
      simp only [ht]
      rw [h.span_eq, hctx.frames]
      exact .fail trivial

theorem evalAll_matched : ∀ {n : Nat} {cs ds : List Code}, AllMatched n k k' cs ds →
    Simulates .same (Filled Reordered s s' n) (Forall₂ (ValueOf.Alike Reordered))
      (Filled Reordered s s' n) (evalAll .code run call ctx cs) (evalAll .code run call' ctx' ds)
  | _, [], _, .nil => by
    simp only [evalAll]
    exact .pure .nil
  | _, _ :: _, _, .cons h hs => by
    simp only [evalAll]
    exact (eval_matched h).bind fun _ _ hv => (evalAll_matched hs).bind fun _ _ hvs => .pure (.cons hv hvs)

theorem evalStatements_matched : ∀ {n : Nat} {cs ds : List Code}, StatementsMatched n k k' cs ds →
    Simulates .same (Filled Reordered s s' n) Eq (Filled Reordered s s' (n + length cs))
      (evalStatements .code run call ctx cs) (evalStatements .code run call' ctx' ds)
  | _, [], _, .nil => by
    simp only [evalStatements]
    exact .pure rfl
  | n, _ :: cs, _, .cons name span h hs => by
    simp only [evalStatements]
    rw [length_cons, Nat.add_comm cs.length, ← Nat.add_assoc]
    exact (assign_matched hcall hctx (eval_matched h) name span).bind fun _ _ _ =>
      evalStatements_matched hs

theorem evalEntries_matched : ∀ {n : Nat} {es fs : List (Code × Code)}, EntriesMatched n k k' es fs →
    ∀ {done done' : Bindings Value}, Forall₂ (EntryAlike (ValueOf.Alike Reordered)) done done' →
    Simulates .same (Filled Reordered s s' n) (Forall₂ (EntryAlike (ValueOf.Alike Reordered)))
      (Filled Reordered s s' n) (evalEntries .code run call ctx done es)
      (evalEntries .code run call' ctx' done' fs)
  | _, [], _, .nil => by
    intro hdone
    simp only [evalEntries]
    exact .pure hdone
  | _, _ :: _, _, .cons h h' hs => by
    intro hdone
    simp only [evalEntries, evalEntry, bind_assoc]
    refine (eval_matched h).bind fun v w hv => ?_
    cases hv with
    | string key =>
      simp only [bind_assoc, pure_bind]
      exact (eval_matched h').bind fun _ _ hw => evalEntries_matched hs (Bindings.insert_alike key hw hdone)
    | _ =>
      rw [h.span_eq, hctx.frames]
      exact .fail_bind trivial

theorem evalParameters_matched : ∀ {n : Nat} {ps qs : List (CodeParameter Code)},
    ParametersMatched n k k' ps qs →
    Simulates .same (Filled Reordered s s' n) (fun rs rs' => rs = rs' ∧ length rs = length ps)
      (Filled Reordered s s' n) (evalParameters .code run call ctx ps)
      (evalParameters .code run call' ctx' qs)
  | _, [], _, .nil => by
    simp only [evalParameters]
    exact .pure ⟨rfl, rfl⟩
  | _, _ :: _, _, .plain name hs => by
    simp only [evalParameters, evalParameter, evalRange, pure_bind]
    refine (evalParameters_matched hs).bind fun rs _ hrs => .pure ?_
    rw [← hrs.1, length_cons, length_cons, hrs.2]
    exact ⟨rfl, rfl⟩
  | _, _ :: _, _, .ranged name h hs => by
    simp only [evalParameters, evalParameter, evalRange, bind_assoc, pure_bind]
    refine (eval_matched h).bind fun v w hv => ?_
    rw [h.span_eq, hctx.frames]
    refine (Simulates.ofExcept (fun _ _ => trivial) (range_alike Reordered.respects hv)).bind
      fun range _ hrange => (evalParameters_matched hs).bind fun rs _ hrs => .pure ?_
    rw [← hrange, ← hrs.1, length_cons, length_cons, hrs.2]
    exact ⟨rfl, rfl⟩

end

theorem evalRecorded_matched {n : Nat} {cs ds : List Code} (h : StatementsMatched n k k' cs ds) :
    Simulates .same (Filled Reordered s s' n) Eq (Filled Reordered s s' (n + length cs))
      (evalRecorded .code run call ctx cs) (evalRecorded .code run call' ctx' ds) := by
  induction cs generalizing n ds with
  | nil =>
    cases h
    simp only [evalRecorded]
    exact .pure rfl
  | cons c cs ih =>
    cases h with
    | cons name span h hs =>
      simp only [evalRecorded]
      rw [length_cons, Nat.add_comm cs.length, ← Nat.add_assoc]
      exact (assign_matched hcall hctx (eval_matched hcall hctx h) name span).bind fun _ _ _ =>
        (filled_simulates hctx.size fun _ => .record).bind fun _ _ _ => ih hs

theorem evalResult_matched {n : Nat} {c d : Option Code} (h : Option.Rel (Matched n k k') c d) :
    Simulates .same (Filled Reordered s s' n) (ValueOf.Alike Reordered) (Filled Reordered s s' n)
      (evalResult .code run call ctx c) (evalResult .code run call' ctx' d) := by
  cases h with
  | none =>
    simp only [evalResult]
    exact .pure .void
  | some h =>
    simp only [evalResult]
    rw [h.span_eq]
    exact (eval_matched hcall hctx h).bind fun _ _ hv =>
      (filled_simulates hctx.size fun _ => .record).bind fun _ _ _ => .pure hv

end

/-- The code of two closures that have the arguments as their first slots. -/
theorem runCode_matched {s s' : Array Value} (hs : s.size = s'.size) {k k' : List String} {run : Run}
    {call call' : Caller Code} (hcall : CallersAlike .same Reordered call call') (frames : List Frame)
    {vs ws : List Value} (hvs : Permuted (ValueOf.Alike Reordered) k k' vs ws) {c d : Code}
    {args args' : List Value} (hargs : Forall₂ (ValueOf.Alike Reordered) args args')
    (h : Code.Matched args.length k k' c d) :
    Simulates .same (Level s s') (ValueOf.Alike Reordered) (Level s s')
      (runCode .code run call frames vs c args) (runCode .code run call' frames ws d args') := by
  refine .get fun m m' hm => ?_
  have hctx : ContextsMatched Reordered s s' k k' ⟨frames, m.stack.size, vs⟩ ⟨frames, m'.stack.size, ws⟩ :=
    ⟨hs, rfl, by rw [hm.stack], by rw [hm.stack'], hvs⟩
  have hpush : Simulates .same (Filled Reordered s s' 0) Eq (Filled Reordered s s' args.length)
      (Eval.pushAll run frames c.span args) (Eval.pushAll run frames d.span args') := by
    rw [h.span_eq, ← Nat.zero_add args.length]
    exact pushAll_filled hs hargs
  refine (hpush.bind fun _ _ _ => eval_matched hcall hctx h).shrinkingTo (fun m₁ m₁' hm₁ => ?_) m m'
    ⟨[], [], rfl, .nil, by simpa using hm⟩
  obtain ⟨us, us', -, hu, hm₁⟩ := hm₁
  refine ⟨?_, ?_, hm₁.random, hm₁.closures, hm₁.profile⟩
  · rw [hm.stack, hm₁.stack]
    simp
  · rw [hm.stack', hm₁.stack']
    simp

variable {run : Run}

theorem hosts_reordered : HostsAlike Eq Reordered .code .code run run where
  value h := h ▸ Reordered.refl_value _
  closure hvs hcd _ name parameters span := .other _ name parameters span hvs hcd
  stackSize := rfl

theorem bodies_reordered : BodiesAlike .same Reordered (fun call frames _ => runCode .code run call frames)
    (fun call frames _ => runCode .code run call frames) := by
  intro call call' hcall i j name parameters vs ws c d span hf s s' hs frames args args' hn hargs
  cases hf with
  | closure _ _ _ _ hvs hcd =>
    exact runCode_matched (hs.2.resolve_right id) hcall frames hvs hargs (hn ▸ hcd)
  | other _ _ _ _ hvs hcd =>
    exact runCode_simulates (fun _ => trivial) Reordered.respects hosts_reordered hcall hs frames hvs hcd hargs

theorem callers_reordered (depth : Nat) :
    CallersAlike .same Reordered (apply run depth) (apply run depth) :=
  callWith_simulates (fun _ _ => trivial) Reordered.respects rfl rfl bodies_reordered depth

end Evaluation

end Estimation
