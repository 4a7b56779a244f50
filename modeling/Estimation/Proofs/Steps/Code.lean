import Estimation.Proofs.Steps.Calls

/-!
The same code among alike values does the same: each expression leaves alike values on top of the
stacks that a call started with.
-/

namespace Estimation

open List

inductive PairAlike {α δ : Type} (R : α → δ → Prop) : α × α → δ × δ → Prop
  | intro {a b c d} : R a c → R b d → PairAlike R (a, b) (c, d)

inductive CodeParameterAlike {α δ : Type} (R : α → δ → Prop) : CodeParameter α → CodeParameter δ → Prop
  | intro {name a b} : Option.Rel R a b → CodeParameterAlike R ⟨name, a⟩ ⟨name, b⟩

inductive Code.Alike (R : Value → Value → Prop) : Code → Code → Prop
  | value {v w} (span) : R v w → Alike R (.value v span) (.value w span)
  | read (source span) : Alike R (.read source span) (.read source span)
  | block {cs ds c d} (span) : Forall₂ (Alike R) cs ds → Alike R c d →
      Alike R (.block cs c span) (.block ds d span)
  | program {cs ds c d} (bindings span) : Forall₂ (Alike R) cs ds → Option.Rel (Alike R) c d →
      Alike R (.program cs c bindings span) (.program ds d bindings span)
  | assign {c d} (name span) : Alike R c d → Alike R (.assign name c span) (.assign name d span)
  | list {cs ds} (span) : Forall₂ (Alike R) cs ds → Alike R (.list cs span) (.list ds span)
  | dict {es fs} (span) : Forall₂ (PairAlike (Alike R)) es fs → Alike R (.dict es span) (.dict fs span)
  | choice {c d c' d' c'' d''} (span) : Alike R c d → Alike R c' d' → Alike R c'' d'' →
      Alike R (.choice c c' c'' span) (.choice d d' d'' span)
  | lambda {ps qs c d} (name captures span) : Forall₂ (CodeParameterAlike (Alike R)) ps qs →
      Alike R c d → Alike R (.lambda name ps captures c span) (.lambda name qs captures d span)
  | call {c d cs ds} (span) : Alike R c d → Forall₂ (Alike R) cs ds →
      Alike R (.call c cs span) (.call d ds span)

namespace Code.Alike

variable {R : Value → Value → Prop} {c d : Code}

theorem span_eq (h : Code.Alike R c d) : c.span = d.span := by cases h <;> rfl

theorem label_eq (h : Code.Alike R c d) : Evaluation.label c = Evaluation.label d := by
  cases h <;> rfl

mutual

theorem refl (hR : ∀ v, R v v) : ∀ c : Code, Code.Alike R c c
  | .value v span => .value span (hR v)
  | .read source span => .read source span
  | .block cs c span => .block span (refl_all hR cs) (refl hR c)
  | .program cs c bindings span => .program bindings span (refl_all hR cs) (refl_option hR c)
  | .assign name c span => .assign name span (refl hR c)
  | .list cs span => .list span (refl_all hR cs)
  | .dict es span => .dict span (refl_entries hR es)
  | .choice c c' c'' span => .choice span (refl hR c) (refl hR c') (refl hR c'')
  | .lambda name ps captures c span => .lambda name captures span (refl_parameters hR ps) (refl hR c)
  | .call c cs span => .call span (refl hR c) (refl_all hR cs)

theorem refl_all (hR : ∀ v, R v v) : ∀ cs : List Code, Forall₂ (Code.Alike R) cs cs
  | [] => .nil
  | c :: cs => .cons (refl hR c) (refl_all hR cs)

theorem refl_entries (hR : ∀ v, R v v) :
    ∀ es : List (Code × Code), Forall₂ (PairAlike (Code.Alike R)) es es
  | [] => .nil
  | (c, d) :: es => .cons ⟨refl hR c, refl hR d⟩ (refl_entries hR es)

theorem refl_parameters (hR : ∀ v, R v v) :
    ∀ ps : List (CodeParameter Code), Forall₂ (CodeParameterAlike (Code.Alike R)) ps ps
  | [] => .nil
  | ⟨_, c⟩ :: ps => .cons ⟨refl_option hR c⟩ (refl_parameters hR ps)

theorem refl_option (hR : ∀ v, R v v) : ∀ c : Option Code, Option.Rel (Code.Alike R) c c
  | none => .none
  | some c => .some (refl hR c)

end

theorem spans_eq {cs ds : List Code} (h : Forall₂ (Code.Alike R) cs ds) :
    cs.map Code.span = ds.map Code.span := by
  induction h with
  | nil => rfl
  | cons h _ ih => rw [map_cons, map_cons, h.span_eq, ih]

end Code.Alike

variable {α δ β γ : Type}

/-- Above the given stacks are alike values. -/
def Above (F : LambdaOf β → LambdaOf γ → Prop) (s : Array (ValueOf β)) (s' : Array (ValueOf γ))
    (m : MachineOf β) (m' : MachineOf γ) : Prop :=
  ∃ us us', Forall₂ (ValueOf.Alike F) us us' ∧ Level (s ++ us.toArray) (s' ++ us'.toArray) m m'

theorem append_push {α : Type} (s : Array α) (us : List α) (v : α) :
    (s ++ us.toArray).push v = s ++ (us ++ [v]).toArray := by
  simp

theorem append_shrink {α : Type} (s : Array α) (us : List α) (n : Nat) :
    (s ++ us.toArray).shrink (s.size + n) = s ++ (us.take n).toArray := by
  apply Array.ext'
  rw [Array.toList_shrink, Array.toList_append, Array.toList_append, ← Array.length_toList]
  exact take_length_add_append ..

theorem append_size {α : Type} (s : Array α) (us : List α) :
    (s ++ us.toArray).size = s.size + us.length := by
  simp

theorem append_fits {E : Faults} {F : LambdaOf β → LambdaOf γ → Prop} {s : Array (ValueOf β)}
    {s' : Array (ValueOf γ)} {us : List (ValueOf β)} {us' : List (ValueOf γ)}
    (hs : E.Fits s.size s'.size) (hu : Forall₂ (ValueOf.Alike F) us us') :
    E.Fits (s ++ us.toArray).size (s' ++ us'.toArray).size := by
  rw [append_size, append_size, hu.length_eq]
  exact hs.add _

theorem Simulates.above {E : Faults} {F : LambdaOf β → LambdaOf γ → Prop} {R : α → δ → Prop}
    {s : Array (ValueOf β)} {s' : Array (ValueOf γ)} {step : Eval β α} {step' : Eval γ δ}
    (hs : E.Fits s.size s'.size)
    (h : ∀ {t t'}, E.Fits t.size t'.size → Simulates E (Level t t') R (Level t t') step step') :
    Simulates E (Above F s s') R (Above F s s') step step' := by
  rintro m m' ⟨us, us', hu, hm⟩
  have hstep := h (append_fits hs hu) m m' hm
  generalize step m = x at hstep
  generalize step' m' = y at hstep
  cases hstep with
  | ok hp => exact .ok ⟨hp.1, us, us', hu, hp.2⟩
  | error he => exact .error he
  | overflow hlonger => exact .overflow hlonger

namespace Evaluation

/-- Contexts of two calls that started on the stacks `s` and `s'`. -/
structure ContextsAlike (E : Faults) (F : LambdaOf β → LambdaOf γ → Prop) (s : Array (ValueOf β))
    (s' : Array (ValueOf γ)) (ctx : Context β) (ctx' : Context γ) : Prop where
  size : E.Fits s.size s'.size
  frames : ctx.frames = ctx'.frames
  base : ctx.base = s.size
  base' : ctx'.base = s'.size
  captures : Forall₂ (ValueOf.Alike F) ctx.captures ctx'.captures

/-- Constants that are alike in code are alike in the run, and so are closures of alike code. -/
structure HostsAlike (R : Value → Value → Prop) (F : LambdaOf β → LambdaOf γ → Prop)
    (host : Host β) (host' : Host γ) (run run' : Run) : Prop where
  value : ∀ {v w}, R v w → ValueOf.Alike F (host.value v) (host'.value w)
  closure : ∀ {vs ws c d}, Forall₂ (ValueOf.Alike F) vs ws → Code.Alike R c d →
    ∀ n name parameters span, F (.closure ⟨run.origin, n⟩ name parameters vs (host.body c) span)
      (.closure ⟨run'.origin, n⟩ name parameters ws (host'.body d) span)
  stackSize : run.limits.stackSize = run'.limits.stackSize

section

variable {E : Faults} {R : Value → Value → Prop} {F : LambdaOf β → LambdaOf γ → Prop}
  {s : Array (ValueOf β)} {s' : Array (ValueOf γ)} {ctx : Context β} {ctx' : Context γ}
  {host : Host β} {host' : Host γ} {run run' : Run} {call : Caller β} {call' : Caller γ}

theorem getElem?_alike {vs : List (ValueOf β)} {ws : List (ValueOf γ)}
    (h : Forall₂ (ValueOf.Alike F) vs ws) (n : Nat) :
    Option.Rel (ValueOf.Alike F) vs[n]? ws[n]? := by
  induction h generalizing n with
  | nil => exact .none
  | cons hv _ ih =>
    cases n with
    | zero => exact .some hv
    | succ n => exact ih n

theorem lookup?_alike (hctx : ContextsAlike E F s s' ctx ctx') {m : MachineOf β} {m' : MachineOf γ}
    (hm : Above F s s' m m') (source : Variable) :
    Option.Rel (ValueOf.Alike F) (lookup? ctx m source) (lookup? ctx' m' source) := by
  obtain ⟨us, us', hu, hm⟩ := hm
  cases source with
  | slot n =>
    simp only [lookup?, hm.stack, hm.stack', hctx.base, hctx.base']
    rw [Array.getElem?_append_right (Nat.le_add_right _ _),
      Array.getElem?_append_right (Nat.le_add_right _ _), Nat.add_sub_cancel_left,
      Nat.add_sub_cancel_left, List.getElem?_toArray, List.getElem?_toArray]
    exact getElem?_alike hu n
  | capture n => exact getElem?_alike hctx.captures n

theorem captured_simulates (hE : ∀ failure, E failure) (hctx : ContextsAlike E F s s' ctx ctx')
    (span : Span) (sources : List Variable) :
    Simulates E (Above F s s') (Forall₂ (ValueOf.Alike F)) (Above F s s')
      (captured ctx span sources) (captured ctx' span sources) := by
  induction sources with
  | nil => exact .pure .nil
  | cons source sources ih =>
    refine .get fun m m' hm => ?_
    have hl := lookup?_alike hctx hm source
    generalize lookup? ctx m source = x at hl
    generalize lookup? ctx' m' source = y at hl
    cases hl with
    | none => rw [hctx.frames]; exact Simulates.fail (hE _) m m' hm
    | some hv => exact (ih.bind fun _ _ hvs => .pure (.cons hv hvs)) m m' hm

theorem push_simulates (hlimit : run.limits.stackSize = run'.limits.stackSize)
    (hs : E.Fits s.size s'.size) (hE : ∀ limit, E (.stackSize limit)) {frames : List Frame}
    {span : Span} {v : ValueOf β} {w : ValueOf γ} (hv : ValueOf.Alike F v w) :
    Simulates E (Above F s s') Eq (Above F s s') (Eval.push run frames span v)
      (Eval.push run' frames span w) := by
  rintro m m' ⟨us, us', hu, hm⟩
  refine (Simulates.push hlimit (append_fits hs hu) hE).mono (fun _ _ h => h) (fun m m' hm => ?_) m m' hm
  rw [append_push, append_push] at hm
  exact ⟨_, _, rel_append hu (.cons hv .nil), hm⟩

theorem pushAll_simulates (hlimit : run.limits.stackSize = run'.limits.stackSize)
    (hs : E.Fits s.size s'.size) (hE : ∀ limit, E (.stackSize limit)) {frames : List Frame}
    {span : Span} {vs : List (ValueOf β)} {ws : List (ValueOf γ)} (h : Forall₂ (ValueOf.Alike F) vs ws) :
    Simulates E (Above F s s') Eq (Above F s s')
      (Eval.pushAll run frames span vs) (Eval.pushAll run' frames span ws) := by
  induction h with
  | nil => exact .pure rfl
  | cons hv _ ih => exact (push_simulates hlimit hs hE hv).bind fun _ _ _ => ih

theorem shrinkingTo_simulates {α δ : Type} {S : α → δ → Prop} {step : Eval β α} {step' : Eval γ δ}
    (h : Simulates E (Above F s s') S (Above F s s') step step') :
    Simulates E (Above F s s') S (Above F s s')
      (do let size := (← get).stack.size
          Eval.shrinkingTo size step)
      (do let size := (← get).stack.size
          Eval.shrinkingTo size step') := by
  refine .get fun m m' hm => ?_
  obtain ⟨us, us', hu, hm₀⟩ := id hm
  refine (h.shrinkingTo fun m m' hm => ?_) m m' hm
  obtain ⟨ws, ws', hw, hm⟩ := hm
  refine ⟨ws.take us.length, ws'.take us.length, forall₂_take _ hw, ?_, ?_, hm.random, hm.closures,
    hm.profile⟩
  · rw [hm₀.stack, hm.stack, append_size, append_shrink]
  · rw [hm₀.stack', hm.stack', append_size, append_shrink, hu.length_eq]

theorem notARange_alike {t t' : String} (h : t = t') : Library.ResultAlike (Eq (α := Range))
    (.error (.outOfDomain (.notARange t))) (.error (.outOfDomain (.notARange t'))) :=
  h ▸ .error rfl

theorem boundsNotNumbers_alike {t t' : String} (h : t = t') : Library.ResultAlike (Eq (α := Range))
    (.error (.outOfDomain (.boundsNotNumbers t))) (.error (.outOfDomain (.boundsNotNumbers t'))) :=
  h ▸ .error rfl

theorem range_alike (hF : Respects F) {v : ValueOf β} {w : ValueOf γ} (h : ValueOf.Alike F v w) :
    Library.ResultAlike Eq (Range.ofValue v) (Range.ofValue w) := by
  have ht := h.text_eq hF
  cases h with
  | list hvs =>
    rcases hvs with _ | @⟨v, w, _, _, hv, _ | @⟨v', w', _, _, hv', _ | ⟨_, _⟩⟩⟩
    · exact notARange_alike ht
    · cases hv <;> exact notARange_alike ht
    · cases hv with
      | number x =>
        cases hv' with
        | number y =>
          simp only [Range.ofValue]
          split
          · exact .ok rfl
          · exact .error rfl
        | _ => exact boundsNotNumbers_alike ht
      | _ => exact boundsNotNumbers_alike ht
    · cases hv with
      | number x => cases hv' <;> exact notARange_alike ht
      | _ => exact notARange_alike ht
  | _ => exact notARange_alike ht

section

variable (hE : ∀ failure, E failure) (hF : Respects F) (hH : HostsAlike R F host host' run run')
  (hcall : CallersAlike E F call call') (hctx : ContextsAlike E F s s' ctx ctx')

set_option linter.unusedSectionVars false

include hE hF hH hcall hctx

mutual

theorem eval_simulates : ∀ {c d : Code}, Code.Alike R c d →
    Simulates E (Above F s s') (ValueOf.Alike F) (Above F s s')
      (eval host run call ctx c) (eval host' run' call' ctx' d)
  | .value _ _, _, .value _ h => by
    simp only [eval]
    exact .pure (hH.value h)
  | .read _ _, _, .read source span => by
    simp only [eval]
    refine .get fun m m' hm => ?_
    have hl := lookup?_alike hctx hm source
    generalize lookup? ctx m source = x at hl
    generalize lookup? ctx' m' source = y at hl
    cases hl with
    | none =>
      rw [hctx.frames]
      exact .error (hE _)
    | some hv => exact .ok ⟨hv, hm⟩
  | .block _ _ _, _, .block _ hs h => by
    simp only [eval]
    exact shrinkingTo_simulates ((evalStatements_simulates hs).bind fun _ _ _ => eval_simulates h)
  | .program _ _ _ _, _, .program _ _ hs h => by
    simp only [eval]
    exact (evalRecorded_simulates hs).bind fun _ _ _ => evalResult_simulates h
  | .assign _ _ _, _, .assign name span h => by
    simp only [eval]
    rw [hctx.frames]
    exact (eval_simulates h).bind fun _ _ hv =>
      (push_simulates hH.stackSize hctx.size (fun _ => hE _) hv).bind fun _ _ _ => .pure .void
  | .list _ _, _, .list _ hs => by
    simp only [eval]
    exact (evalAll_simulates hs).bind fun _ _ hvs => .pure (.list hvs)
  | .dict _ _, _, .dict _ hs => by
    simp only [eval]
    exact (evalEntries_simulates hs .nil).bind fun _ _ hes => .pure (.dict hes)
  | .choice _ _ _ _, _, .choice _ h h' h'' => by
    simp only [eval]
    refine (eval_simulates h).bind fun v w hv => ?_
    cases hv with
    | bool b =>
      cases b with
      | true => exact eval_simulates h'
      | false => exact eval_simulates h''
    | _ =>
      rw [h.span_eq, hctx.frames]
      exact .fail (hE _)
  | .lambda _ _ _ _ _, _, .lambda name captures span hps h => by
    simp only [eval]
    refine (captured_simulates hE hctx span captures).bind fun vs ws hvs =>
      (evalParameters_simulates hps).bind fun ps qs hps => ?_
    subst hps
    refine (Simulates.above hctx.size fun _ => .newIdentity).bind fun i j hij => ?_
    obtain ⟨n, rfl, rfl⟩ := hij
    exact .pure (.lambda (hH.closure hvs h n name ps span))
  | .call _ _ _, _, .call span h hs => by
    simp only [eval]
    refine (eval_simulates h).bind fun v w hv => ?_
    have ht := hv.text_eq hF
    cases hv with
    | lambda hf =>
      refine (evalAll_simulates hs).bind fun vs ws hvs => ?_
      rw [hctx.frames, Code.Alike.spans_eq hs]
      exact .above hctx.size fun ht => hcall ht _ _ _ hf hvs
    | _ =>
      simp only [ht]
      rw [h.span_eq, hctx.frames]
      exact .fail (hE _)

theorem evalAll_simulates : ∀ {cs ds : List Code}, Forall₂ (Code.Alike R) cs ds →
    Simulates E (Above F s s') (Forall₂ (ValueOf.Alike F)) (Above F s s')
      (evalAll host run call ctx cs) (evalAll host' run' call' ctx' ds)
  | [], _, .nil => by
    simp only [evalAll]
    exact .pure .nil
  | _ :: _, _, .cons h hs => by
    simp only [evalAll]
    exact (eval_simulates h).bind fun _ _ hv =>
      (evalAll_simulates hs).bind fun _ _ hvs => .pure (.cons hv hvs)

theorem evalStatements_simulates : ∀ {cs ds : List Code}, Forall₂ (Code.Alike R) cs ds →
    Simulates E (Above F s s') Eq (Above F s s')
      (evalStatements host run call ctx cs) (evalStatements host' run' call' ctx' ds)
  | [], _, .nil => by
    simp only [evalStatements]
    exact .pure rfl
  | _ :: _, _, .cons h hs => by
    simp only [evalStatements]
    exact (eval_simulates h).bind fun _ _ _ => evalStatements_simulates hs

theorem evalEntries_simulates : ∀ {es fs : List (Code × Code)},
    Forall₂ (PairAlike (Code.Alike R)) es fs →
    ∀ {done : Bindings (ValueOf β)} {done' : Bindings (ValueOf γ)},
    Forall₂ (EntryAlike (ValueOf.Alike F)) done done' →
    Simulates E (Above F s s') (Forall₂ (EntryAlike (ValueOf.Alike F))) (Above F s s')
      (evalEntries host run call ctx done es) (evalEntries host' run' call' ctx' done' fs)
  | [], _, .nil, _, _, hd => by
    simp only [evalEntries]
    exact .pure hd
  | _ :: _, _, .cons h hs, _, _, hd => by
    simp only [evalEntries]
    refine (evalEntry_simulates h).bind fun e f he => ?_
    obtain ⟨he⟩ := he
    exact evalEntries_simulates hs (Bindings.insert_alike _ he hd)

theorem evalEntry_simulates : ∀ {e f : Code × Code}, PairAlike (Code.Alike R) e f →
    Simulates E (Above F s s') (EntryAlike (ValueOf.Alike F)) (Above F s s')
      (evalEntry host run call ctx e) (evalEntry host' run' call' ctx' f)
  | (_, _), _, .intro h h' => by
    simp only [evalEntry]
    refine (eval_simulates h).bind fun v w hv => ?_
    cases hv with
    | string key => exact (eval_simulates h').bind fun _ _ hv => .pure ⟨hv⟩
    | _ =>
      rw [h.span_eq, hctx.frames]
      exact .fail (hE _)

theorem evalParameters_simulates : ∀ {ps qs : List (CodeParameter Code)},
    Forall₂ (CodeParameterAlike (Code.Alike R)) ps qs →
    Simulates E (Above F s s') Eq (Above F s s')
      (evalParameters host run call ctx ps) (evalParameters host' run' call' ctx' qs)
  | [], _, .nil => by
    simp only [evalParameters]
    exact .pure rfl
  | _ :: _, _, .cons h hs => by
    simp only [evalParameters]
    exact (evalParameter_simulates h).bind fun _ _ hp =>
      (evalParameters_simulates hs).bind fun _ _ hps => .pure (by rw [hp, hps])

theorem evalParameter_simulates : ∀ {p q : CodeParameter Code},
    CodeParameterAlike (Code.Alike R) p q →
    Simulates E (Above F s s') Eq (Above F s s')
      (evalParameter host run call ctx p) (evalParameter host' run' call' ctx' q)
  | ⟨_, _⟩, _, .intro h => by
    simp only [evalParameter]
    exact (evalRange_simulates h).bind fun _ _ hr => .pure (by rw [hr])

theorem evalRange_simulates : ∀ {c d : Option Code}, Option.Rel (Code.Alike R) c d →
    Simulates E (Above F s s') Eq (Above F s s')
      (evalRange host run call ctx c) (evalRange host' run' call' ctx' d)
  | none, _, .none => by
    simp only [evalRange]
    exact .pure rfl
  | some _, _, .some h => by
    simp only [evalRange]
    refine (eval_simulates h).bind fun v w hv => ?_
    rw [h.span_eq, hctx.frames]
    exact (Simulates.ofExcept (fun _ _ => hE _) (range_alike hF hv)).bind fun _ _ hr =>
      .pure (by rw [hr])

theorem evalRecorded_simulates : ∀ {cs ds : List Code}, Forall₂ (Code.Alike R) cs ds →
    Simulates E (Above F s s') Eq (Above F s s')
      (evalRecorded host run call ctx cs) (evalRecorded host' run' call' ctx' ds)
  | [], _, .nil => by
    simp only [evalRecorded]
    exact .pure rfl
  | _ :: _, _, .cons h hs => by
    simp only [evalRecorded]
    rw [h.span_eq, h.label_eq]
    exact (eval_simulates h).bind fun _ _ _ =>
      (Simulates.above hctx.size fun _ => .record).bind fun _ _ _ => evalRecorded_simulates hs

theorem evalResult_simulates : ∀ {c d : Option Code}, Option.Rel (Code.Alike R) c d →
    Simulates E (Above F s s') (ValueOf.Alike F) (Above F s s')
      (evalResult host run call ctx c) (evalResult host' run' call' ctx' d)
  | none, _, .none => by
    simp only [evalResult]
    exact .pure .void
  | some _, _, .some h => by
    simp only [evalResult]
    rw [h.span_eq]
    exact (eval_simulates h).bind fun _ _ hv =>
      (Simulates.above hctx.size fun _ => .record).bind fun _ _ _ => .pure hv

end

end

end

theorem runCode_simulates (hE : ∀ failure, E failure) (hF : Respects F)
    (hH : HostsAlike R F host host' run run') (hcall : CallersAlike E F call call')
    (hs : E.Fits s.size s'.size) (frames : List Frame) {vs : List (ValueOf β)} {ws : List (ValueOf γ)}
    (hvs : Forall₂ (ValueOf.Alike F) vs ws) {c d : Code} (h : Code.Alike R c d)
    {args : List (ValueOf β)} {args' : List (ValueOf γ)}
    (hargs : Forall₂ (ValueOf.Alike F) args args') :
    Simulates E (Level s s') (ValueOf.Alike F) (Level s s') (runCode host run call frames vs c args)
      (runCode host' run' call' frames ws d args') := by
  refine .get fun m m' hm => ?_
  have hctx : ContextsAlike E F s s' ⟨frames, m.stack.size, vs⟩ ⟨frames, m'.stack.size, ws⟩ :=
    ⟨hs, rfl, by rw [hm.stack], by rw [hm.stack'], hvs⟩
  have hpush : Simulates E (Above F s s') Eq (Above F s s') (Eval.pushAll run frames c.span args)
      (Eval.pushAll run' frames d.span args') :=
    h.span_eq ▸ pushAll_simulates hH.stackSize hs (fun _ => hE _) hargs
  refine (hpush.bind fun _ _ _ => eval_simulates hE hF hH hcall hctx h).shrinkingTo (fun m₁ m₁' hm₁ => ?_) m m' ⟨[], [], .nil, by simpa using hm⟩
  obtain ⟨us, us', hu, hm₁⟩ := hm₁
  refine ⟨?_, ?_, hm₁.random, hm₁.closures, hm₁.profile⟩
  · rw [hm.stack, hm₁.stack]
    simp
  · rw [hm.stack', hm₁.stack']
    simp

end Evaluation

end Estimation
