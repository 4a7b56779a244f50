import Estimation.Proofs.Agreement

/-!
An expression among names and the code that it was lowered to end alike. The machine of the names
keeps its stack; the machine of the code has the values of the slots on top of its own, and is back
where it was behind every expression.
-/

namespace Estimation

open List

namespace Syntax.Expr

variable {externals : Bindings Value} {outer captured locals : List String}

theorem Lowered.span_eq {e : Expr} {c : Code} (h : Lowered externals outer captured locals e c) :
    c.span = e.span := by
  cases e with
  | number _ _ =>
    rw [Lowered] at h
    subst h
    rfl
  | string _ _ =>
    rw [Lowered] at h
    subst h
    rfl
  | bool _ _ =>
    rw [Lowered] at h
    subst h
    rfl
  | identifier _ _ =>
    rw [Lowered] at h
    obtain ⟨_, _, rfl⟩ | ⟨_, _, _, _, rfl⟩ := h <;> rfl
  | list _ _ =>
    rw [Lowered] at h
    obtain ⟨_, _, rfl⟩ := h
    rfl
  | dict _ _ =>
    rw [Lowered] at h
    obtain ⟨_, _, rfl⟩ := h
    rfl
  | block _ _ _ =>
    rw [Lowered] at h
    obtain ⟨_, _, _, _, rfl⟩ := h
    rfl
  | lambda _ _ _ _ =>
    rw [Lowered] at h
    obtain ⟨_, _, _, _, _, _, _, rfl⟩ := h
    rfl
  | call _ _ _ =>
    rw [Lowered] at h
    obtain ⟨_, _, _, _, rfl⟩ := h
    rfl
  | binary _ _ _ _ =>
    rw [Lowered] at h
    obtain ⟨_, _, _, _, rfl⟩ := h
    rfl
  | unary _ _ _ =>
    rw [Lowered] at h
    obtain ⟨_, _, rfl⟩ := h
    rfl
  | pipe _ _ _ _ =>
    rw [Lowered] at h
    obtain ⟨_, _, _, _, _, _, rfl⟩ := h
    rfl
  | member _ _ _ =>
    rw [Lowered] at h
    obtain ⟨_, _, rfl⟩ := h
    rfl
  | lookup _ _ _ =>
    rw [Lowered] at h
    obtain ⟨_, _, _, _, rfl⟩ := h
    rfl
  | choice _ _ _ _ =>
    rw [Lowered] at h
    obtain ⟨_, _, _, _, _, _, rfl⟩ := h
    rfl

theorem LoweredAll.spans_eq {es : List Expr} {cs : List Code}
    (h : LoweredAll externals outer captured locals es cs) : cs.map Code.span = es.map span := by
  induction es generalizing cs with
  | nil =>
    rw [LoweredAll] at h
    rw [h]
    rfl
  | cons e es ih =>
    rw [LoweredAll] at h
    obtain ⟨d, ds, hd, hds, rfl⟩ := h
    rw [map_cons, map_cons, hd.span_eq, ih hds]

end Syntax.Expr

theorem Evaluation.eval_nativeCall (run : Run) (call : Caller Code) (ctx : Context Code) (f : Native)
    (args : List Code) (span : Span) :
    eval .code run call ctx (Compilation.nativeCall f args span) = (do
      let values ← evalAll .code run call ctx args
      call ctx.frames span (args.map Code.span) (.native f) values) := by
  simp only [Compilation.nativeCall, eval]
  rfl

namespace Naming

variable {foreign : Prop} {externals : Bindings Value} {outer captured locals : List String}
  {names : Names} {us ws : List Value}

/-- What goes wrong while names are looked up in order is never the code. -/
def Allowed (foreign : Prop) : Faults := ⟨fun failure => foreign ∨ failure.isInternal = false, True⟩

theorem Allowed.of_not_internal (failure : Failure) (h : failure.isInternal = false) :
    Allowed foreign failure :=
  .inr h

theorem Holds.define (h : Holds foreign externals outer captured locals names us ws) (name : String)
    {v : ValueOf Source} {w : Value} (hv : ValueOf.Alike (Agrees foreign) v w) :
    Holds foreign externals outer captured (locals ++ [name]) ((name, v) :: names) (us ++ [w]) ws := by
  obtain @⟨inner, around, ext, _, _, _, rfl, rfl, hu, hk, hw, he⟩ := h
  have h : Holds foreign externals (around.map Prod.fst) captured (inner.map Prod.fst ++ [name])
      ((inner ++ [(name, v)]).reverse ++ (around ++ ext)) (us ++ [w]) ws := by
    refine .intro ?_ rfl ?_ hk hw he
    · rw [map_append]
      rfl
    · rw [map_append]
      exact rel_append hu (.cons hv .nil)
  rwa [reverse_append] at h

variable {s : Array (ValueOf Source)} {t : Array Value} {run : Run} {call : Evaluation.Caller Source}
  {call' : Evaluation.Caller Code} {ctx : Context Code}

theorem lookup?_eq_held? (hbase : ctx.base = t.size) {m : Machine}
    (hm : m.stack = t ++ us.toArray) (source : Variable) :
    Evaluation.lookup? ctx m source = held? us ctx.captures source := by
  cases source with
  | slot n =>
    simp only [Evaluation.lookup?, held?, hm, hbase]
    rw [Array.getElem?_append_right (Nat.le_add_right _ _), Nat.add_sub_cancel_left,
      List.getElem?_toArray]
  | capture n => rfl

theorem captured_simulates (hbase : ctx.base = t.size) {inner around : Names}
    {vs : List (ValueOf Source)}
    (hu : Forall₂ (ValueOf.Alike (Agrees foreign)) (inner.map Prod.snd) us)
    (hc : Forall₂ (fun name v => Bindings.get? name around = some v) captured vs)
    (hw : Forall₂ (ValueOf.Alike (Agrees foreign)) vs ctx.captures) (span : Span)
    {kept : List String} {sources : List Variable}
    (h : Forall₂ (Located (around.map Prod.fst) captured (inner.map Prod.fst)) kept sources) :
    Simulates (Allowed foreign) (Level s (t ++ us.toArray))
      (fun (_ : Unit) ws => ∃ vs,
        Forall₂ (fun name v => Bindings.get? name (inner.reverse ++ around) = some v) kept vs ∧
        Forall₂ (ValueOf.Alike (Agrees foreign)) vs ws)
      (Level s (t ++ us.toArray)) (pure ()) (Evaluation.captured ctx span sources) := by
  induction h with
  | nil => exact .pure ⟨[], .nil, .nil⟩
  | @cons name source kept sources hs _ ih =>
    intro m m' hm
    obtain ⟨v, w, hv, hw', hvw⟩ := held?_located hu hc hw hs
    have hl : Evaluation.lookup? ctx m' source = some w := by
      rw [lookup?_eq_held? hbase hm.stack', hw']
    have hstep : Evaluation.captured ctx span (source :: sources) m' =
        (do return w :: (← Evaluation.captured ctx span sources)) m' := by
      have hget : (get : Eval Code Machine) m' = (.ok m', m') := rfl
      rw [Evaluation.captured, Eval.bind_ok hget, hl]
    rw [hstep]
    refine (Simulates.bind_right ih fun ws hws => .pure ?_) m m' hm
    obtain ⟨vs, hvs, hws⟩ := hws
    exact ⟨v :: vs, .cons hv hvs, .cons hvw hws⟩

section

variable {α δ : Type} {E : Faults} {R : α → δ → Prop} {J : MachineOf Source → Machine → Prop}

theorem push_right (hlonger : E.longer) {frames : List Frame} {span : Span} {w : Value} :
    Simulates E (Level s t) (fun _ : Unit => fun _ => True) (Level s (t.push w)) (pure ())
      (Eval.push run frames span w) := by
  intro m m' hm
  have hget : (get : Eval Code Machine) m' = (.ok m', m') := rfl
  rw [Eval.push, Eval.bind_ok hget]
  split
  · exact .overflow hlonger
  · exact .ok ⟨trivial, hm.stack, congrArg (·.push w) hm.stack', hm.random, hm.closures, hm.profile⟩

theorem pushAll_right (hlonger : E.longer) {frames : List Frame} {span : Span} (us : List Value) :
    Simulates E (Level s t) (fun _ : Unit => fun _ => True) (Level s (t ++ us.toArray)) (pure ())
      (Eval.pushAll run frames span us) := by
  induction us generalizing t with
  | nil =>
    rw [Array.append_empty]
    exact .pure trivial
  | cons u us ih =>
    refine Simulates.bind_right (push_right hlonger) fun _ _ => ?_
    have hpush : t ++ (u :: us).toArray = t.push u ++ us.toArray := by simp
    rw [hpush]
    exact ih

/-- The second machine drops what it put on its stack. -/
theorem shrinking_right {step : Eval Source α} {k : Nat → Eval Code δ}
    (h : Simulates E (Level s t) R (fun m m' => ∃ extra : List Value, Level s (t ++ extra.toArray) m m')
      step (k t.size)) :
    Simulates E (Level s t) R (Level s t) step (do
      let size := (← get).stack.size
      Eval.shrinkingTo size (k size)) := by
  intro m m' hm
  have hget : (get : Eval Code Machine) m' = (.ok m', m') := rfl
  rw [Eval.bind_ok hget, hm.stack']
  have hstep := h m m' hm
  unfold Eval.shrinkingTo
  rcases hs : step m with ⟨x, after⟩
  rcases hn : k t.size m' with ⟨y, after'⟩
  rw [hs, hn] at hstep
  simp only
  cases hstep with
  | ok hp =>
    obtain ⟨hR, extra, hm⟩ := hp
    refine .ok ⟨hR, hm.stack, ?_, hm.random, hm.closures, hm.profile⟩
    rw [hm.stack']
    simp
  | error he => exact .error he
  | overflow hlonger => exact .overflow hlonger

end

open Syntax.Expr in
theorem Holds.keeps {foreign : Prop} {externals : Bindings Value} {outer captured locals : List String}
    {names : Names} {us ws : List Value} (h : Holds foreign externals outer captured locals names us ws)
    {s : Array (ValueOf Source)} {t : Array Value} {ctx : Context Code} (hbase : ctx.base = t.size)
    (hws : ctx.captures = ws) (span : Span) {kept : List String} {sources : List Variable}
    (hs : Forall₂ (Located outer captured locals) kept sources) :
    Simulates (Allowed foreign) (Level s (t ++ us.toArray))
      (fun (_ : Unit) ws' => ∀ i name (ps : List (Syntax.Parameter Syntax.Expr)) body code parameters
        span, parameters.map Parameter.name = ps.map Syntax.Parameter.name →
        Lowered externals (locals.reverse ++ outer) kept (ps.map Syntax.Parameter.name) body code →
        Agrees foreign
          (.closure i name parameters (names.map Prod.snd) (.expr (names.map Prod.fst) body) span)
          (.closure i name parameters ws' code span))
      (Level s (t ++ us.toArray)) (pure ()) (Evaluation.captured ctx span sources) := by
  obtain @⟨inner, around, ext, vs, _, _, rfl, rfl, hu, hk, hw, he⟩ := h
  subst hws
  refine (captured_simulates hbase hu hk hw span hs).mono ?_ fun _ _ h => h
  rintro _ ws' ⟨vs', hvs', hws'⟩ i name ps body code parameters span hps hcode
  rw [← append_assoc]
  refine .source i name span he ?_ hvs' hws'
  rw [map_append, map_reverse, hps]
  exact hcode

section

variable {foreign : Prop} {externals : Bindings Value} {s : Array (ValueOf Source)} {t : Array Value}
  {run : Run} {call : Evaluation.Caller Source} {call' : Evaluation.Caller Code} {ctx : Context Code}
  {outer captured : List String}

theorem fits_append {us : List Value} (hs : s.size ≤ t.size) :
    (Allowed foreign).Fits s.size (t ++ us.toArray).size := by
  rw [append_size]
  exact ⟨by omega, .inr trivial⟩

variable (ctx) (hcall : Evaluation.CallersAlike (Allowed foreign) (Agrees foreign) call call')
  (hs : s.size ≤ t.size) (hbase : ctx.base = t.size)

set_option linter.unusedSectionVars false

include hcall hs hbase

open Syntax.Expr

mutual

theorem eval_simulates : ∀ (e : Syntax.Expr) {c : Code} {locals : List String} {names : Names}
    {us : List Value}, Lowered externals outer captured locals e c →
    Holds foreign externals outer captured locals names us ctx.captures →
    Simulates (Allowed foreign) (Level s (t ++ us.toArray)) (ValueOf.Alike (Agrees foreign))
      (Level s (t ++ us.toArray)) (eval run call ctx.frames names e)
      (Evaluation.eval .code run call' ctx c)
  | .number x _, _, _, _, _, hc, _ => by
    rw [Lowered] at hc
    subst hc
    simp only [eval, Evaluation.eval]
    exact .pure (.number x)
  | .string x _, _, _, _, _, hc, _ => by
    rw [Lowered] at hc
    subst hc
    simp only [eval, Evaluation.eval]
    exact .pure (.string x)
  | .bool x _, _, _, _, _, hc, _ => by
    rw [Lowered] at hc
    subst hc
    simp only [eval, Evaluation.eval]
    exact .pure (.bool x)
  | .identifier name place, _, _, _, us, hc, h => by
    obtain ⟨v, w, hv, hvw, ⟨source, rfl, hw⟩ | rfl⟩ := h.value? hc
    · simp only [eval, hv]
      intro m m' hm
      have hl : Evaluation.lookup? ctx m' source = some w := by
        rw [lookup?_eq_held? hbase hm.stack', hw]
      have hget : (get : Eval Code Machine) m' = (.ok m', m') := rfl
      rw [Evaluation.eval, Eval.bind_ok hget, hl]
      exact .ok ⟨hvw, hm⟩
    · simp only [eval, hv, Evaluation.eval]
      exact .pure hvw
  | .list items _, _, _, _, _, hc, h => by
    rw [Lowered] at hc
    obtain ⟨cs, hcs, rfl⟩ := hc
    simp only [eval, Evaluation.eval]
    exact (evalAll_simulates items hcs h).bind fun _ _ hvs => .pure (.list hvs)
  | .dict entries _, _, _, _, _, hc, h => by
    rw [Lowered] at hc
    obtain ⟨pairs, hpairs, rfl⟩ := hc
    simp only [eval, Evaluation.eval]
    exact (evalEntries_simulates entries hpairs h .nil).bind fun _ _ hes => .pure (.dict hes)
  | .block statements result _, _, _, _, us, hc, h => by
    rw [Lowered] at hc
    obtain ⟨cs, d, hcs, hd, rfl⟩ := hc
    simp only [eval, Evaluation.eval]
    refine shrinking_right (k := fun _ => do
      Evaluation.evalStatements .code run call' ctx cs
      Evaluation.eval .code run call' ctx d) (evalDefinitions_simulates statements hcs h ?_)
    intro names' extra h'
    refine (eval_simulates result hd h').mono (fun _ _ h => h) fun m m' hm => ⟨extra, ?_⟩
    have happend : t ++ (us ++ extra).toArray = t ++ us.toArray ++ extra.toArray := by simp
    rwa [happend] at hm
  | .lambda name ps body place, _, _, _, us, hc, h => by
    rw [Lowered] at hc
    obtain ⟨qs, kept, sources, d, hqs, hkept, hd, rfl⟩ := hc
    simp only [eval, Evaluation.eval]
    refine Simulates.bind_right (h.keeps hbase rfl place hkept) fun ws hws => ?_
    refine (evalParameters_simulates ps hqs h).bind fun parameters _ hps => ?_
    obtain ⟨rfl, hps⟩ := hps
    refine Simulates.newIdentity.bind fun i _ hi => ?_
    obtain ⟨n, rfl, rfl⟩ := hi
    exact .pure (.lambda (hws _ _ ps _ _ _ _ hps hd))
  | .call callee args place, _, _, _, _, hc, h => by
    rw [Lowered] at hc
    obtain ⟨d, ds, hd, hds, rfl⟩ := hc
    simp only [eval, Evaluation.eval]
    refine (eval_simulates callee hd h).bind fun v w hv => ?_
    have ht := hv.text_eq Agrees.respects
    cases hv with
    | lambda hf =>
      refine (evalAll_simulates args hds h).bind fun vs ws hvs => ?_
      rw [hds.spans_eq]
      exact hcall (fits_append hs) _ _ _ hf hvs
    | _ =>
      simp only [ht]
      rw [hd.span_eq]
      exact .fail (.inr rfl)
  | .binary op left right place, _, _, _, _, hc, h => by
    rw [Lowered] at hc
    obtain ⟨d, d', hd, hd', rfl⟩ := hc
    simp only [eval, Evaluation.eval_nativeCall, Evaluation.evalAll, bind_assoc, pure_bind]
    refine (eval_simulates left hd h).bind fun v w hv =>
      (eval_simulates right hd' h).bind fun v' w' hv' => ?_
    rw [map_cons, map_cons, map_nil, hd.span_eq, hd'.span_eq]
    exact hcall (fits_append hs) _ _ _ (.native _) (.cons hv (.cons hv' .nil))
  | .unary op operand place, _, _, _, _, hc, h => by
    rw [Lowered] at hc
    obtain ⟨d, hd, rfl⟩ := hc
    simp only [eval, Evaluation.eval_nativeCall, Evaluation.evalAll, bind_assoc, pure_bind]
    refine (eval_simulates operand hd h).bind fun v w hv => ?_
    rw [map_cons, map_nil, hd.span_eq]
    exact hcall (fits_append hs) _ _ _ (.native _) (.cons hv .nil)
  | .pipe left callee args place, _, _, _, _, hc, h => by
    rw [Lowered] at hc
    obtain ⟨d, ds, d', hd, hds, hd', rfl⟩ := hc
    simp only [eval, Evaluation.eval, Evaluation.evalAll]
    refine (eval_simulates callee hd' h).bind fun v w hv => ?_
    have ht := hv.text_eq Agrees.respects
    cases hv with
    | lambda hf =>
      simp only [bind_assoc, pure_bind]
      refine (eval_simulates left hd h).bind fun v w hv =>
        (evalAll_simulates args hds h).bind fun vs ws hvs => ?_
      rw [map_cons, hd.span_eq, hds.spans_eq]
      exact hcall (fits_append hs) _ _ _ hf (.cons hv hvs)
    | _ =>
      simp only [ht]
      rw [hd'.span_eq]
      exact .fail (.inr rfl)
  | .member target key place, _, _, _, _, hc, h => by
    rw [Lowered] at hc
    obtain ⟨d, hd, rfl⟩ := hc
    simp only [eval, Evaluation.eval_nativeCall, Evaluation.evalAll, Evaluation.eval, bind_assoc, pure_bind]
    refine (eval_simulates target hd h).bind fun v w hv => ?_
    rw [map_cons, map_cons, map_nil, hd.span_eq]
    exact hcall (fits_append hs) _ _ _ (.native _) (.cons hv (.cons (.string key) .nil))
  | .lookup target index place, _, _, _, _, hc, h => by
    rw [Lowered] at hc
    obtain ⟨d, d', hd, hd', rfl⟩ := hc
    simp only [eval, Evaluation.eval_nativeCall, Evaluation.evalAll, bind_assoc, pure_bind]
    refine (eval_simulates target hd h).bind fun v w hv =>
      (eval_simulates index hd' h).bind fun v' w' hv' => ?_
    rw [map_cons, map_cons, map_nil, hd.span_eq, hd'.span_eq]
    exact hcall (fits_append hs) _ _ _ (.native _) (.cons hv (.cons hv' .nil))
  | .choice condition ifTrue ifFalse _, _, _, _, _, hc, h => by
    rw [Lowered] at hc
    obtain ⟨d, d', d'', hd, hd', hd'', rfl⟩ := hc
    simp only [eval, Evaluation.eval]
    refine (eval_simulates condition hd h).bind fun v w hv => ?_
    cases hv with
    | bool b =>
      cases b with
      | true => exact eval_simulates ifTrue hd' h
      | false => exact eval_simulates ifFalse hd'' h
    | _ =>
      rw [hd.span_eq]
      exact .fail (.inr rfl)

theorem evalAll_simulates : ∀ (es : List Syntax.Expr) {cs : List Code} {locals : List String}
    {names : Names} {us : List Value}, LoweredAll externals outer captured locals es cs →
    Holds foreign externals outer captured locals names us ctx.captures →
    Simulates (Allowed foreign) (Level s (t ++ us.toArray))
      (Forall₂ (ValueOf.Alike (Agrees foreign))) (Level s (t ++ us.toArray))
      (evalAll run call ctx.frames names es) (Evaluation.evalAll .code run call' ctx cs)
  | [], _, _, _, _, hc, _ => by
    rw [LoweredAll] at hc
    subst hc
    simp only [evalAll, Evaluation.evalAll]
    exact .pure .nil
  | e :: es, _, _, _, _, hc, h => by
    rw [LoweredAll] at hc
    obtain ⟨d, ds, hd, hds, rfl⟩ := hc
    simp only [evalAll, Evaluation.evalAll]
    exact (eval_simulates e hd h).bind fun _ _ hv =>
      (evalAll_simulates es hds h).bind fun _ _ hvs => .pure (.cons hv hvs)

theorem evalEntries_simulates : ∀ (entries : List (Syntax.Entry Syntax.Expr))
    {pairs : List (Code × Code)} {locals : List String} {names : Names} {us : List Value},
    LoweredEntries externals outer captured locals entries pairs →
    Holds foreign externals outer captured locals names us ctx.captures →
    ∀ {done : Bindings (ValueOf Source)} {done' : Bindings Value},
    Forall₂ (EntryAlike (ValueOf.Alike (Agrees foreign))) done done' →
    Simulates (Allowed foreign) (Level s (t ++ us.toArray))
      (Forall₂ (EntryAlike (ValueOf.Alike (Agrees foreign)))) (Level s (t ++ us.toArray))
      (evalEntries run call ctx.frames names done entries)
      (Evaluation.evalEntries .code run call' ctx done' pairs)
  | [], _, _, _, _, hc, _, _, _, hd => by
    rw [LoweredEntries] at hc
    subst hc
    simp only [evalEntries, Evaluation.evalEntries]
    exact .pure hd
  | entry :: entries, _, _, _, _, hc, h, _, _, hd => by
    rw [LoweredEntries] at hc
    obtain ⟨p, ps, hp, hps, rfl⟩ := hc
    simp only [evalEntries, Evaluation.evalEntries]
    refine (evalEntry_simulates entry hp h).bind fun e f he => ?_
    obtain ⟨he⟩ := he
    exact evalEntries_simulates entries hps h (Bindings.insert_alike _ he hd)

theorem evalEntry_simulates : ∀ (entry : Syntax.Entry Syntax.Expr) {pair : Code × Code}
    {locals : List String} {names : Names} {us : List Value},
    LoweredEntry externals outer captured locals entry pair →
    Holds foreign externals outer captured locals names us ctx.captures →
    Simulates (Allowed foreign) (Level s (t ++ us.toArray))
      (EntryAlike (ValueOf.Alike (Agrees foreign))) (Level s (t ++ us.toArray))
      (evalEntry run call ctx.frames names entry) (Evaluation.evalEntry .code run call' ctx pair)
  | ⟨key, _, value⟩, _, _, _, _, hc, h => by
    rw [LoweredEntry] at hc
    obtain ⟨d, hd, rfl⟩ := hc
    simp only [evalEntry, Evaluation.evalEntry, Evaluation.eval, pure_bind]
    exact (eval_simulates value hd h).bind fun _ _ hv => .pure ⟨hv⟩

theorem evalParameters_simulates : ∀ (ps : List (Syntax.Parameter Syntax.Expr))
    {qs : List (CodeParameter Code)} {locals : List String} {names : Names} {us : List Value},
    LoweredParameters externals outer captured locals ps qs →
    Holds foreign externals outer captured locals names us ctx.captures →
    Simulates (Allowed foreign) (Level s (t ++ us.toArray))
      (fun parameters parameters' => parameters = parameters' ∧
        parameters.map Parameter.name = ps.map Syntax.Parameter.name) (Level s (t ++ us.toArray))
      (evalParameters run call ctx.frames names ps)
      (Evaluation.evalParameters .code run call' ctx qs)
  | [], _, _, _, _, hc, _ => by
    rw [LoweredParameters] at hc
    subst hc
    simp only [evalParameters, Evaluation.evalParameters]
    exact .pure ⟨rfl, rfl⟩
  | p :: ps, _, _, _, _, hc, h => by
    rw [LoweredParameters] at hc
    obtain ⟨q, qs, hq, hqs, rfl⟩ := hc
    simp only [evalParameters, Evaluation.evalParameters]
    refine (evalParameter_simulates p hq h).bind fun r _ hr =>
      (evalParameters_simulates ps hqs h).bind fun rs _ hrs => ?_
    obtain ⟨rfl, hr⟩ := hr
    obtain ⟨rfl, hrs⟩ := hrs
    exact .pure ⟨rfl, congrArg₂ List.cons hr hrs⟩

theorem evalParameter_simulates : ∀ (p : Syntax.Parameter Syntax.Expr) {q : CodeParameter Code}
    {locals : List String} {names : Names} {us : List Value},
    LoweredParameter externals outer captured locals p q →
    Holds foreign externals outer captured locals names us ctx.captures →
    Simulates (Allowed foreign) (Level s (t ++ us.toArray))
      (fun r r' => r = r' ∧ r.name = p.name) (Level s (t ++ us.toArray))
      (evalParameter run call ctx.frames names p) (Evaluation.evalParameter .code run call' ctx q)
  | ⟨name, _, range⟩, _, _, _, _, hc, h => by
    rw [LoweredParameter] at hc
    obtain ⟨d, hd, rfl⟩ := hc
    simp only [evalParameter, Evaluation.evalParameter]
    refine (evalRange_simulates range hd h).bind fun r _ hr => ?_
    subst hr
    exact .pure ⟨rfl, rfl⟩

theorem evalRange_simulates : ∀ (o : Option Syntax.Expr) {r : Option Code} {locals : List String}
    {names : Names} {us : List Value}, LoweredOption externals outer captured locals o r →
    Holds foreign externals outer captured locals names us ctx.captures →
    Simulates (Allowed foreign) (Level s (t ++ us.toArray)) Eq (Level s (t ++ us.toArray))
      (evalRange run call ctx.frames names o) (Evaluation.evalRange .code run call' ctx r)
  | none, _, _, _, _, hc, _ => by
    rw [LoweredOption] at hc
    subst hc
    simp only [evalRange, Evaluation.evalRange]
    exact .pure rfl
  | some e, _, _, _, _, hc, h => by
    rw [LoweredOption] at hc
    obtain ⟨d, hd, rfl⟩ := hc
    simp only [evalRange, Evaluation.evalRange]
    refine (eval_simulates e hd h).bind fun v w hv => ?_
    rw [hd.span_eq]
    refine (Simulates.ofExcept Allowed.of_not_internal (Evaluation.range_alike Agrees.respects hv)).bind
      fun r _ hr => ?_
    subst hr
    exact .pure rfl

theorem evalDefinitions_simulates : ∀ (ss : List (Syntax.Statement Syntax.Expr)) {cs : List Code}
    {locals : List String} {names : Names} {us : List Value},
    LoweredStatements externals outer captured locals ss cs →
    Holds foreign externals outer captured locals names us ctx.captures →
    ∀ {α δ : Type} {R : α → δ → Prop} {J : MachineOf Source → Machine → Prop}
      {next : Names → Eval Source α} {next' : Eval Code δ},
    (∀ {names' extra}, Holds foreign externals outer captured
        (locals ++ ss.map Syntax.Statement.name) names' (us ++ extra) ctx.captures →
      Simulates (Allowed foreign) (Level s (t ++ (us ++ extra).toArray)) R J (next names') next') →
    Simulates (Allowed foreign) (Level s (t ++ us.toArray)) R J
      (evalDefinitions run call ctx.frames names ss >>= next)
      (Evaluation.evalStatements .code run call' ctx cs >>= fun _ => next')
  | [], _, _, _, us, hc, h, _, _, _, _, _, _, hn => by
    rw [LoweredStatements] at hc
    subst hc
    simp only [evalDefinitions, Evaluation.evalStatements, pure_bind]
    rw [map_nil, append_nil] at hn
    have hn' := @hn _ [] (by rwa [append_nil])
    rwa [append_nil] at hn'
  | s :: ss, _, _, _, us, hc, h, _, _, _, _, _, _, hn => by
    rw [LoweredStatements] at hc
    obtain ⟨c, cs, hc, hcs, rfl⟩ := hc
    simp only [evalDefinitions, Evaluation.evalStatements, bind_assoc]
    refine evalDefinition_simulates s hc h fun {v w} hvw => ?_
    refine evalDefinitions_simulates ss hcs (h.define s.name hvw) fun {names' extra} h' => ?_
    rw [append_assoc, append_assoc] at h'
    rw [append_assoc]
    exact hn h'

theorem evalDefinition_simulates : ∀ (definition : Syntax.Statement Syntax.Expr) {c : Code}
    {locals : List String} {names : Names} {us : List Value},
    LoweredStatement externals outer captured locals definition c →
    Holds foreign externals outer captured locals names us ctx.captures →
    ∀ {α δ : Type} {R : α → δ → Prop} {J : MachineOf Source → Machine → Prop}
      {next : String × ValueOf Source → Eval Source α} {next' : Eval Code δ},
    (∀ {v w}, ValueOf.Alike (Agrees foreign) v w →
      Simulates (Allowed foreign) (Level s (t ++ (us ++ [w]).toArray)) R J
        (next (definition.name, v)) next') →
    Simulates (Allowed foreign) (Level s (t ++ us.toArray)) R J
      (evalDefinition run call ctx.frames names definition >>= next)
      (Evaluation.eval .code run call' ctx c >>= fun _ => next')
  | ⟨name, _, value, _, place⟩, _, _, _, us, hc, h, _, _, _, _, _, _, hn => by
    rw [LoweredStatement] at hc
    obtain ⟨d, hd, rfl⟩ := hc
    simp only [evalDefinition, Evaluation.eval, bind_assoc, pure_bind]
    refine (eval_simulates value hd h).bind fun v w hvw => ?_
    refine Simulates.bind_right (push_right trivial) fun _ _ => ?_
    rw [append_push]
    exact hn hvw

end

end

end Naming

end Estimation
