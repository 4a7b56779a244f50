import Estimation.Proofs.Agreement.Expressions
import Estimation.Proofs.Bindings

/-!
Programs agree with their code: function bodies do, so calls do however deep they nest; and the
slots that the bindings of the code point to hold the last definitions of their names.
-/

namespace Estimation

open List

variable {foreign : Prop}

namespace Naming

/-! ### Function bodies -/

section

mutual

theorem mapBody_alike (hf : foreign) :
    ∀ v : Value, ValueOf.Alike (Agrees foreign) (v.mapBody .code) v
  | .void => .void
  | .number x => .number x
  | .string s => .string s
  | .bool b => .bool b
  | .list vs => .list (mapBodies_alike hf vs)
  | .dict es => .dict (mapEntries_alike hf es)
  | .lambda f => .lambda (lambda_mapBody_agrees hf f)
  | .samples s => .samples s

theorem mapBodies_alike (hf : foreign) : ∀ vs : List Value,
    Forall₂ (ValueOf.Alike (Agrees foreign)) (mapBodies Source.code vs) vs
  | [] => .nil
  | v :: vs => .cons (mapBody_alike hf v) (mapBodies_alike hf vs)

theorem mapEntries_alike (hf : foreign) : ∀ es : List (String × Value),
    Forall₂ (EntryAlike (ValueOf.Alike (Agrees foreign))) (mapEntries Source.code es) es
  | [] => .nil
  | (_, v) :: es => .cons ⟨mapBody_alike hf v⟩ (mapEntries_alike hf es)

theorem lambda_mapBody_agrees (hf : foreign) : ∀ f : Lambda, Agrees foreign (f.mapBody .code) f
  | .closure i name parameters vs c span =>
    .code i name parameters span hf (mapBodies_alike hf vs) (.refl (fun _ => rfl) c)
  | .native f => .native f

end

end

theorem hosts_alike (hf : foreign) (run : Run) :
    Evaluation.HostsAlike Eq (Agrees foreign) host .code run run where
  value h := h ▸ mapBody_alike hf _
  closure hvs hcd _ name parameters span := .code _ name parameters span hf hvs hcd
  stackSize := rfl

theorem zip_map_fst_snd (names : Names) : (names.map Prod.fst).zip (names.map Prod.snd) = names := by
  induction names with
  | nil => rfl
  | cons x names ih => rw [map_cons, map_cons, zip_cons_cons, ih]

theorem bodies_alike (run : Run) : Evaluation.BodiesAlike (Allowed foreign) (Agrees foreign)
    (runBody run) fun call frames _ => Evaluation.runCode .code run call frames := by
  intro call call' hcall i j name parameters vs ws b c span hf s t hs frames args args' hn hargs
  cases hf with
  | @source around ext externals captured vs _ _ body _ _ _ _ he hc hk hw =>
    simp only [runBody, zip_map_fst_snd]
    refine shrinking_right (k := fun size => do
      Eval.pushAll run frames c.span args'
      Evaluation.eval .code run call' ⟨frames, size, ws⟩ c) ?_
    refine Simulates.bind_right (pushAll_right trivial args') fun _ _ => ?_
    have hl : (parameters.map Parameter.name).length = args.length := by rw [length_map, hn]
    have hh : Holds foreign externals (around.map Prod.fst) captured (parameters.map Parameter.name)
        (((parameters.map Parameter.name).zip args).reverse ++ (around ++ ext)) args' ws := by
      refine .intro (map_fst_zip (Nat.le_of_eq hl)) rfl ?_ hk hw he
      rw [map_snd_zip (Nat.le_of_eq hl.symm)]
      exact hargs
    exact (eval_simulates ⟨frames, t.size, ws⟩ hcall hs.1 rfl body hc hh).mono (fun _ _ h => h)
      fun m m' hm => ⟨args', hm⟩
  | code _ _ _ _ hf hw hcd =>
    exact Evaluation.runCode_simulates (fun _ => Or.inl hf) Agrees.respects (hosts_alike hf run) hcall
      hs frames hw hcd hargs

theorem callers_alike (run : Run) : Evaluation.CallersAlike (Allowed foreign) (Agrees foreign)
    (apply run) (Evaluation.apply run run.limits.callDepth) :=
  Evaluation.callWith_simulates Allowed.of_not_internal Agrees.respects rfl rfl (bodies_alike run) _

/-! ### Bindings -/

/-- The binding of a name. -/
def binding? (name : String) (bs : List TopBinding) : Option TopBinding := bs.find? (·.name = name)

theorem binding?_rebind (b : TopBinding) (bs : List TopBinding) (name : String) :
    binding? name (Compilation.rebind b bs) = if b.name = name then some b else binding? name bs := by
  unfold binding?
  induction bs with
  | nil =>
    simp only [Compilation.rebind, find?_cons, find?_nil]
    split <;> simp_all
  | cons first rest ih =>
    simp only [Compilation.rebind]
    split
    · rename_i hf
      by_cases hb : b.name = name
      · rw [find?_cons_of_pos (by simpa using hb), if_pos hb]
      · rw [find?_cons_of_neg (by simpa using hb), if_neg hb,
          find?_cons_of_neg (by simpa [hf] using hb)]
    · rename_i hf
      by_cases hn : first.name = name
      · rw [find?_cons_of_pos (by simpa using hn), find?_cons_of_pos (by simpa using hn),
          if_neg fun hb => hf (hn.trans hb.symm)]
      · rw [find?_cons_of_neg (by simpa using hn), find?_cons_of_neg (by simpa using hn), ih]

theorem mem_rebind {b c : TopBinding} {bs : List TopBinding} (h : c ∈ Compilation.rebind b bs) :
    c = b ∨ c ∈ bs := by
  induction bs with
  | nil => exact .inl (mem_singleton.1 h)
  | cons first rest ih =>
    simp only [Compilation.rebind] at h
    split at h
    · rcases mem_cons.1 h with rfl | h
      · exact .inl rfl
      · exact .inr (mem_cons_of_mem _ h)
    · rcases mem_cons.1 h with rfl | h
      · exact .inr mem_cons_self
      · exact (ih h).imp id (mem_cons_of_mem _)

theorem nodup_rebind {b : TopBinding} {bs : List TopBinding} (h : (bs.map TopBinding.name).Nodup) :
    ((Compilation.rebind b bs).map TopBinding.name).Nodup := by
  induction bs with
  | nil => exact pairwise_singleton ..
  | cons first rest ih =>
    obtain ⟨hf, hr⟩ := nodup_cons.1 h
    simp only [Compilation.rebind]
    split
    · rename_i hb
      rw [map_cons, ← hb]
      exact nodup_cons.2 ⟨hf, hr⟩
    · rename_i hb
      refine nodup_cons.2 ⟨fun hm => ?_, ih hr⟩
      obtain ⟨c, hc, hcn⟩ := mem_map.1 hm
      rcases mem_rebind hc with rfl | hc
      · exact hb hcn.symm
      · exact hf (hcn ▸ mem_map_of_mem hc)

/-- What slots hold for bindings, and for the exported ones. -/
def slotted? (bs : List TopBinding) (us : List Value) (name : String) : Option Value :=
  (binding? name bs).bind fun b => us[b.slot]?

def exported? (bs : List TopBinding) (us : List Value) (name : String) : Option Value :=
  (binding? name bs).bind fun b => if b.exported then us[b.slot]? else none

/-- The slots of bindings hold what stands under their names, and nothing else stands there. -/
structure Bound (foreign : Prop) (bs : List TopBinding) (us : List Value)
    (bindings exports : Bindings (ValueOf Source)) : Prop where
  slots : ∀ b ∈ bs, b.slot < us.length
  nodup : (bs.map TopBinding.name).Nodup
  bindings_sorted : bindings.Sorted
  exports_sorted : exports.Sorted
  bindings : ∀ name,
    Option.Rel (ValueOf.Alike (Agrees foreign)) (bindings.get? name) (slotted? bs us name)
  exports : ∀ name,
    Option.Rel (ValueOf.Alike (Agrees foreign)) (exports.get? name) (exported? bs us name)

theorem mem_of_binding? {name : String} {bs : List TopBinding} {b : TopBinding}
    (h : binding? name bs = some b) : b ∈ bs :=
  mem_of_find?_eq_some h

theorem slotted?_append {bs : List TopBinding} {us : List Value} (h : ∀ b ∈ bs, b.slot < us.length)
    (w : Value) (name : String) : slotted? bs (us ++ [w]) name = slotted? bs us name := by
  unfold slotted?
  cases hb : binding? name bs with
  | none => rfl
  | some b => exact getElem?_append_left (h b (mem_of_binding? hb))

theorem exported?_append {bs : List TopBinding} {us : List Value} (h : ∀ b ∈ bs, b.slot < us.length)
    (w : Value) (name : String) : exported? bs (us ++ [w]) name = exported? bs us name := by
  unfold exported?
  cases hb : binding? name bs with
  | none => rfl
  | some b =>
    simp only [Option.bind_some]
    rw [getElem?_append_left (h b (mem_of_binding? hb))]

theorem Bound.define {bs : List TopBinding} {us : List Value}
    {bindings exports : Bindings (ValueOf Source)} (h : Bound foreign bs us bindings exports)
    {v : ValueOf Source} {w : Value} (hv : ValueOf.Alike (Agrees foreign) v w) (name : String)
    (exported : Bool) (span : Span) :
    Bound foreign (Compilation.rebind ⟨name, us.length, exported, span⟩ bs) (us ++ [w])
      (bindings.insert name v) (if exported then exports.insert name v else exports.erase name) where
  slots b hb := by
    rw [length_append, length_singleton]
    rcases mem_rebind hb with rfl | hb
    · exact Nat.lt_succ_self _
    · exact Nat.lt_succ_of_lt (h.slots b hb)
  nodup := nodup_rebind h.nodup
  bindings_sorted := h.bindings_sorted.insert
  exports_sorted := by
    cases exported with
    | true => exact h.exports_sorted.insert
    | false => exact h.exports_sorted.erase
  bindings other := by
    rw [Bindings.get?_insert, slotted?, binding?_rebind]
    split
    · rw [Option.bind_some, getElem?_concat_length]
      exact .some hv
    · rw [← slotted?, slotted?_append h.slots]
      exact h.bindings other
  exports other := by
    rw [exported?, binding?_rebind]
    by_cases hn : name = other
    · rw [if_pos hn, Option.bind_some]
      cases exported with
      | true =>
        simp only [↓reduceIte]
        rw [Bindings.get?_insert, if_pos hn, getElem?_concat_length]
        exact .some hv
      | false =>
        simp only [Bool.false_eq_true, ↓reduceIte]
        rw [Bindings.get?_erase, if_pos hn]
        exact .none
    · rw [if_neg hn, ← exported?, exported?_append h.slots]
      have he := h.exports other
      cases exported with
      | true =>
        simp only [↓reduceIte]
        rwa [Bindings.get?_insert, if_neg hn]
      | false =>
        simp only [Bool.false_eq_true, ↓reduceIte]
        rwa [Bindings.get?_erase, if_neg hn]

theorem binding?_eq_none {name : String} {bs : List TopBinding}
    (h : name ∉ bs.map TopBinding.name) : binding? name bs = none :=
  find?_eq_none.2 fun b hb hn => h (mem_map.2 ⟨b, hb, by simpa using hn⟩)

theorem bindingValues_eq {bs : List TopBinding} {us : List Value} {m : Machine}
    (hm : m.stack = us.toArray) (hs : ∀ b ∈ bs, b.slot < us.length)
    (hn : (bs.map TopBinding.name).Nodup) {bindings exports : Bindings Value}
    (hbs : bindings.Sorted) (hes : exports.Sorted) :
    ∃ bindings' exports', Evaluation.bindingValues bs bindings exports m =
        (.ok (bindings', exports'), m) ∧ bindings'.Sorted ∧ exports'.Sorted ∧
      (∀ name, bindings'.get? name = (slotted? bs us name).or (bindings.get? name)) ∧
      ∀ name, exports'.get? name = (exported? bs us name).or (exports.get? name) := by
  induction bs generalizing bindings exports with
  | nil => exact ⟨bindings, exports, rfl, hbs, hes, fun _ => rfl, fun _ => rfl⟩
  | cons b bs ih =>
    obtain ⟨hnb, hn⟩ := nodup_cons.1 hn
    have hb := hs b mem_cons_self
    have hget : (get : Eval Code Machine) m = (.ok m, m) := rfl
    have hslot : m.stack[b.slot]? = some us[b.slot] := by
      rw [hm, List.getElem?_toArray, getElem?_eq_getElem hb]
    have hes' : (if b.exported then exports.insert b.name us[b.slot] else exports).Sorted := by
      split
      · exact hes.insert
      · exact hes
    have hbs' : (bindings.insert b.name us[b.slot]).Sorted := hbs.insert
    obtain ⟨bindings', exports', heq, hbs', hes', hgb, hge⟩ :=
      ih (fun c hc => hs c (mem_cons_of_mem _ hc)) hn hbs' hes'
    refine ⟨bindings', exports', ?_, hbs', hes', fun name => ?_, fun name => ?_⟩
    · rw [Evaluation.bindingValues, Eval.bind_ok hget, hslot]
      exact heq
    · rw [hgb, Bindings.get?_insert]
      by_cases hname : b.name = name
      · rw [slotted?, slotted?, binding?_eq_none (hname ▸ hnb), binding?,
          find?_cons_of_pos (by simpa using hname), if_pos hname, Option.bind_some,
          getElem?_eq_getElem hb]
        rfl
      · rw [if_neg hname, slotted?, slotted?, binding?, binding?,
          find?_cons_of_neg (by simpa using hname)]
    · rw [hge]
      by_cases hname : b.name = name
      · rw [exported?, exported?, binding?_eq_none (hname ▸ hnb), binding?,
          find?_cons_of_pos (by simpa using hname), Option.bind_some, getElem?_eq_getElem hb]
        split
        · rw [Bindings.get?_insert, if_pos hname]
          rfl
        · rfl
      · rw [exported?, exported?, binding?, binding?, find?_cons_of_neg (by simpa using hname)]
        split
        · rw [Bindings.get?_insert, if_neg hname]
        · rfl

/-! ### Programs -/

structure OutcomesAlike (foreign : Prop) (o : Outcome) (o' : Estimation.Outcome) : Prop where
  result : ValueOf.Alike (Agrees foreign) o.result o'.result
  bindings : Forall₂ (EntryAlike (ValueOf.Alike (Agrees foreign))) o.bindings o'.bindings
  exports : Forall₂ (EntryAlike (ValueOf.Alike (Agrees foreign))) o.exports o'.exports
  profile : o.profile = o'.profile

open Syntax.Expr

variable {externals : Bindings Value} {run : Run} {call' : Evaluation.Caller Code}

theorem evalResult_simulates (hcall : Evaluation.CallersAlike (Allowed foreign) (Agrees foreign)
      (apply run) call') {result : Option Syntax.Expr} {r : Option Code} {locals : List String}
    {names : Names} {us : List Value} (hr : LoweredOption externals [] [] locals result r)
    (h : Holds foreign externals [] [] locals names us []) :
    Simulates (Allowed foreign) (Level #[] (#[] ++ us.toArray)) (ValueOf.Alike (Agrees foreign))
      (Level #[] (#[] ++ us.toArray)) (evalResult run names result)
      (Evaluation.evalResult .code run call' .top r) := by
  cases result with
  | none =>
    rw [LoweredOption] at hr
    subst hr
    simp only [evalResult, Evaluation.evalResult]
    exact .pure .void
  | some e =>
    rw [LoweredOption] at hr
    obtain ⟨d, hd, rfl⟩ := hr
    simp only [evalResult, Evaluation.evalResult]
    refine (eval_simulates .top hcall (Nat.le_refl _) rfl e hd h).bind fun v w hvw => ?_
    rw [hd.span_eq]
    exact Simulates.record.bind fun _ _ _ => .pure hvw

theorem evalProgram_simulates (hcall : Evaluation.CallersAlike (Allowed foreign) (Agrees foreign)
      (apply run) call') (result : Option Syntax.Expr) {r : Option Code}
    (ss : List (Syntax.Statement Syntax.Expr)) {cs : List Code} {locals : List String}
    {names : Names} {us : List Value} {bs : List TopBinding}
    {bindings exports : Bindings (ValueOf Source)}
    (hcs : LoweredStatements externals [] [] locals ss cs)
    (hr : LoweredOption externals [] [] (locals ++ ss.map Syntax.Statement.name) result r)
    (h : Holds foreign externals [] [] locals names us [])
    (hb : Bound foreign bs us bindings exports) :
    Simulates (Allowed foreign) (Level #[] (#[] ++ us.toArray)) (OutcomesAlike foreign)
      (fun _ _ => True) (evalProgram run result names bindings exports ss) (do
        Evaluation.evalRecorded .code run call' .top cs
        let v ← Evaluation.evalResult .code run call' .top r
        let p ← Evaluation.bindingValues (Compilation.topBindings us.length bs ss) [] []
        let profile ← Evaluation.takeProfile
        return ⟨v, p.1, p.2, profile⟩) := by
  induction ss generalizing cs locals names us bs bindings exports with
  | nil =>
    rw [LoweredStatements] at hcs
    subst hcs
    rw [map_nil, append_nil] at hr
    simp only [evalProgram, Evaluation.evalRecorded, pure_bind, Compilation.topBindings]
    refine (evalResult_simulates hcall hr h).bind fun v w hvw => ?_
    intro m m' hm
    have hstack : m'.stack = us.toArray := by rw [hm.stack', Array.empty_append]
    obtain ⟨bindings', exports', heq, hbs, hes, hgb, hge⟩ :=
      bindingValues_eq hstack hb.slots hb.nodup .nil .nil
    rw [Eval.bind_ok heq]
    refine .ok ⟨⟨hvw, ?_, ?_, congrArg (Option.map reverse) hm.profile⟩, trivial⟩
    · refine Bindings.alike_of_get? hb.bindings_sorted hbs fun name => ?_
      rw [hgb, Bindings.get?, Option.or_none]
      exact hb.bindings name
    · refine Bindings.alike_of_get? hb.exports_sorted hes fun name => ?_
      rw [hge, Bindings.get?, Option.or_none]
      exact hb.exports name
  | cons s ss ih =>
    obtain ⟨name, nameSpan, value, exported, span⟩ := s
    rw [LoweredStatements] at hcs
    obtain ⟨c, cs, hc, hcs, rfl⟩ := hcs
    rw [LoweredStatement] at hc
    obtain ⟨d, hd, rfl⟩ := hc
    rw [map_cons, append_cons] at hr
    simp only [evalProgram, Evaluation.evalRecorded, Evaluation.eval, bind_assoc, pure_bind]
    refine (eval_simulates .top hcall (Nat.le_refl _) rfl value hd h).bind fun v w hvw => ?_
    refine Simulates.bind_right (push_right trivial) fun _ _ => ?_
    refine Simulates.record.bind fun _ _ _ => ?_
    rw [append_push]
    have hl : us.length + 1 = (us ++ [w]).length := by rw [length_append, length_singleton]
    rw [Compilation.topBindings, hl]
    exact ih hcs hr (h.define name hvw) (hb.define hvw name exported span)

end Naming

end Estimation
