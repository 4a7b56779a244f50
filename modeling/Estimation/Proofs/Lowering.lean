import Estimation.Compilation
import Mathlib.Data.List.Forall2

/-!
What code stands for an expression. The relation speaks of names only: those of the slots, those
that the function captures and those outside of it. Compilation keeps to it while captures are
found one by one: for each open function it is known under which name each source was captured.
-/

namespace Estimation

open List

/-- The latest of the names of slots has the slot, and a captured name is one from outside that no
slot has. -/
inductive Located (outer captured locals : List String) (name : String) : Variable → Prop
  | slot {n} : FunctionScope.slot?.latest name 0 locals = some n → Located outer captured locals name (.slot n)
  | capture {n} : name ∉ locals → name ∈ outer → captured[n]? = some name →
      Located outer captured locals name (.capture n)

namespace Syntax.Expr

variable (externals : Bindings Value)

mutual

def Lowered (outer captured locals : List String) : Expr → Code → Prop
  | .number x span, c => c = .value (.number x) span
  | .string s span, c => c = .value (.string s) span
  | .bool b span, c => c = .value (.bool b) span
  | .identifier name span, c =>
    (∃ source, Located outer captured locals name source ∧ c = .read source span) ∨
      name ∉ locals ∧ name ∉ outer ∧
        ∃ v, (externals.get? name).or (Compilation.libraryValue? name) = some v ∧ c = .value v span
  | .list items span, c => ∃ cs, LoweredAll outer captured locals items cs ∧ c = .list cs span
  | .dict entries span, c =>
    ∃ pairs, LoweredEntries outer captured locals entries pairs ∧ c = .dict pairs span
  | .block statements result span, c =>
    ∃ cs d, LoweredStatements outer captured locals statements cs ∧
      Lowered outer captured (locals ++ statements.map Statement.name) result d ∧ c = .block cs d span
  | .lambda name ps body span, c =>
    ∃ qs inner sources d, LoweredParameters outer captured locals ps qs ∧
      Forall₂ (Located outer captured locals) inner sources ∧
      Lowered (locals.reverse ++ outer) inner (ps.map Parameter.name) body d ∧
      c = .lambda name qs sources d span
  | .call callee args span, c =>
    ∃ d ds, Lowered outer captured locals callee d ∧ LoweredAll outer captured locals args ds ∧
      c = .call d ds span
  | .binary op left right span, c =>
    ∃ d e, Lowered outer captured locals left d ∧ Lowered outer captured locals right e ∧
      c = Compilation.nativeCall (.ofBinary op) [d, e] span
  | .unary op operand span, c =>
    ∃ d, Lowered outer captured locals operand d ∧
      c = Compilation.nativeCall (.ofUnary op) [d] span
  | .pipe left callee args span, c =>
    ∃ d ds e, Lowered outer captured locals left d ∧ LoweredAll outer captured locals args ds ∧
      Lowered outer captured locals callee e ∧ c = .call e (d :: ds) span
  | .member target key span, c =>
    ∃ d, Lowered outer captured locals target d ∧
      c = Compilation.nativeCall .atIndex [d, .value (.string key) span] span
  | .lookup target index span, c =>
    ∃ d e, Lowered outer captured locals target d ∧ Lowered outer captured locals index e ∧
      c = Compilation.nativeCall .atIndex [d, e] span
  | .choice condition ifTrue ifFalse span, c =>
    ∃ d e f, Lowered outer captured locals condition d ∧ Lowered outer captured locals ifTrue e ∧
      Lowered outer captured locals ifFalse f ∧ c = .choice d e f span

def LoweredAll (outer captured locals : List String) : List Expr → List Code → Prop
  | [], cs => cs = []
  | e :: es, cs => ∃ d ds, Lowered outer captured locals e d ∧
      LoweredAll outer captured locals es ds ∧ cs = d :: ds

def LoweredEntries (outer captured locals : List String) :
    List (Entry Expr) → List (Code × Code) → Prop
  | [], pairs => pairs = []
  | entry :: entries, pairs => ∃ p ps, LoweredEntry outer captured locals entry p ∧
      LoweredEntries outer captured locals entries ps ∧ pairs = p :: ps

def LoweredEntry (outer captured locals : List String) : Entry Expr → Code × Code → Prop
  | ⟨key, keySpan, value⟩, pair =>
    ∃ d, Lowered outer captured locals value d ∧ pair = (.value (.string key) keySpan, d)

def LoweredParameters (outer captured locals : List String) :
    List (Parameter Expr) → List (CodeParameter Code) → Prop
  | [], qs => qs = []
  | p :: ps, qs => ∃ q rest, LoweredParameter outer captured locals p q ∧
      LoweredParameters outer captured locals ps rest ∧ qs = q :: rest

def LoweredParameter (outer captured locals : List String) :
    Parameter Expr → CodeParameter Code → Prop
  | ⟨name, _, range⟩, q => ∃ r, LoweredOption outer captured locals range r ∧ q = ⟨name, r⟩

def LoweredOption (outer captured locals : List String) : Option Expr → Option Code → Prop
  | none, r => r = none
  | some e, r => ∃ d, Lowered outer captured locals e d ∧ r = some d

def LoweredStatements (outer captured locals : List String) :
    List (Statement Expr) → List Code → Prop
  | [], cs => cs = []
  | s :: ss, cs => ∃ c rest, LoweredStatement outer captured locals s c ∧
      LoweredStatements outer captured (locals ++ [s.name]) ss rest ∧ cs = c :: rest

def LoweredStatement (outer captured locals : List String) : Statement Expr → Code → Prop
  | ⟨name, _, value, _, span⟩, c =>
    ∃ d, Lowered outer captured locals value d ∧ c = .assign name d span

end

end Syntax.Expr

namespace FunctionScope

variable {name : String} {locals : List String} {n i : Nat}

theorem getElem?_of_latest (h : slot?.latest name i locals = some n) :
    i ≤ n ∧ locals[n - i]? = some name := by
  induction locals generalizing i with
  | nil => cases h
  | cons first rest ih =>
    simp only [slot?.latest] at h
    cases hr : slot?.latest name (i + 1) rest with
    | some m =>
      rw [hr, Option.some_or, Option.some.injEq] at h
      subst h
      obtain ⟨hi, hm⟩ := ih hr
      refine ⟨by omega, ?_⟩
      rw [show m - i = m - (i + 1) + 1 by omega]
      exact hm
    | none =>
      rw [hr, Option.none_or] at h
      split at h
      · rename_i heq
        cases h
        simp [heq]
      · cases h

theorem latest_eq_none : slot?.latest name i locals = none ↔ name ∉ locals := by
  induction locals generalizing i with
  | nil => simp [slot?.latest]
  | cons first rest ih =>
    simp only [slot?.latest, Option.or_eq_none_iff, ih, mem_cons, not_or]
    constructor
    · rintro ⟨hr, hf⟩
      refine ⟨fun h => ?_, hr⟩
      rw [if_pos h.symm] at hf
      cases hf
    · rintro ⟨hf, hr⟩
      exact ⟨hr, if_neg fun h => hf h.symm⟩

end FunctionScope

namespace Located

variable {outer captured locals : List String} {name : String} {source : Variable}

theorem mono (h : Located outer captured locals name source) {more : List String}
    (hm : captured <+: more) : Located outer more locals name source := by
  cases h with
  | slot h => exact .slot h
  | capture hl ho h =>
    obtain ⟨rest, rfl⟩ := hm
    refine .capture hl ho ?_
    rw [getElem?_append_left (List.getElem?_eq_some_iff.1 h).1, h]

theorem mem (h : Located outer captured locals name source) : name ∈ locals ∨ name ∈ outer := by
  cases h with
  | slot h => exact .inl (mem_of_getElem? (FunctionScope.getElem?_of_latest h).2)
  | capture _ ho _ => exact .inr ho

theorem unique (h : Located outer captured locals name source) {other : String}
    (h' : Located outer captured locals other source) : name = other := by
  cases h with
  | slot h =>
    cases h' with
    | slot h' =>
      have hn := (FunctionScope.getElem?_of_latest h).2
      rw [(FunctionScope.getElem?_of_latest h').2] at hn
      exact (Option.some.inj hn).symm
  | capture _ _ h =>
    cases h' with
    | capture _ _ h' => exact Option.some.inj (h.symm.trans h')

end Located

namespace Scopes

/-- The names that are visible outside of functions with these slots around it. -/
def outside : List (List String) → List String
  | [] => []
  | l :: ls => l.reverse ++ outside ls

abbrev localsOf (scopes : List FunctionScope) : List (List String) := scopes.map FunctionScope.locals

/-- The names under which open functions captured what they did. The program captures nothing. -/
inductive Justified : List FunctionScope → List (List String) → Prop
  | program {locals} : Justified [⟨locals, []⟩] [[]]
  | function {s t rest k k' ks} :
      Forall₂ (Located (outside (localsOf rest)) k' t.locals) k s.captures →
      Justified (t :: rest) (k' :: ks) → Justified (s :: t :: rest) (k :: k' :: ks)

theorem Justified.relocate {s : FunctionScope} {rest : List FunctionScope} {ks : List (List String)}
    (h : Justified (s :: rest) ks) (locals : List String) :
    Justified ({ s with locals := locals } :: rest) ks := by
  cases h with
  | program => exact .program
  | function hk hj => exact .function hk hj

variable {name : String}

theorem capture_located {outer captured locals k : List String} {scope scope' : FunctionScope}
    {source : Variable} {n : Nat} (hk : Forall₂ (Located outer captured locals) k scope.captures)
    (hs : Located outer captured locals name source) (h : scope.capture source = (n, scope')) :
    ∃ k', k <+: k' ∧ Forall₂ (Located outer captured locals) k' scope'.captures ∧
      scope'.locals = scope.locals ∧ k'[n]? = some name := by
  unfold FunctionScope.capture at h
  split at h
  · rename_i hi
    cases h
    refine ⟨k, prefix_rfl, hk, rfl, ?_⟩
    obtain ⟨hi, hsource, -⟩ := idxOf?_eq_some_iff.1 hi
    have hik : n < k.length := hk.length_eq ▸ hi
    have hki := hk.get hik hi
    rw [get_eq_getElem, get_eq_getElem, hsource] at hki
    rw [getElem?_eq_getElem hik, hki.unique hs]
  · cases h
    refine ⟨k ++ [name], prefix_append _ _, rel_append hk (.cons hs .nil), rfl, ?_⟩
    rw [← hk.length_eq, getElem?_concat_length]

theorem resolveIn_located {scope scope' : FunctionScope} {outer outer' : List FunctionScope}
    {k : List String} {ks : List (List String)} {source : Variable}
    (hj : Justified (scope :: outer) (k :: ks))
    (h : resolveIn name scope outer = some (source, scope', outer')) :
    ∃ k' ks', k <+: k' ∧ Forall₂ (· <+: ·) ks ks' ∧ Justified (scope' :: outer') (k' :: ks') ∧
      scope'.locals = scope.locals ∧ localsOf outer' = localsOf outer ∧
      Located (outside (localsOf outer)) k' scope.locals name source := by
  induction outer generalizing scope scope' outer' k ks source with
  | nil =>
    simp only [resolveIn, Option.map_eq_some_iff] at h
    obtain ⟨n, hn, heq⟩ := h
    cases heq
    exact ⟨k, ks, prefix_rfl, forall₂_same.2 fun _ _ => prefix_rfl, hj, rfl, rfl, .slot hn⟩
  | cons next rest ih =>
    simp only [resolveIn] at h
    split at h
    · rename_i n hn
      cases h
      exact ⟨k, ks, prefix_rfl, forall₂_same.2 fun _ _ => prefix_rfl, hj, rfl, rfl, .slot hn⟩
    · rename_i hn
      split at h
      · cases h
      · rename_i source' next' rest' hr
        rcases hc : scope.capture source' with ⟨n, scope''⟩
        rw [hc] at h
        cases h
        cases hj with
        | @function _ _ _ _ k₁ ks hk hj =>
          obtain ⟨k₁', ks', hk₁, hks, hj', hl, ho, hs⟩ := ih hj hr
          have hk' := hk.imp fun _ _ hx => hx.mono hk₁
          obtain ⟨k', hkk', hcaptures, hlocals, hkn⟩ := capture_located hk' hs hc
          refine ⟨k', k₁' :: ks', hkk', .cons hk₁ hks, .function ?_ hj', hlocals, ?_, ?_⟩
          · rw [ho, hl]
            exact hcaptures
          · exact congrArg₂ List.cons hl ho
          · refine .capture (FunctionScope.latest_eq_none.1 hn) ?_ hkn
            rw [localsOf, map_cons, outside, mem_append, mem_reverse]
            exact hs.mem

theorem not_mem_of_resolveIn {scope : FunctionScope} {outer : List FunctionScope}
    (h : resolveIn name scope outer = none) :
    name ∉ scope.locals ∧ name ∉ outside (localsOf outer) := by
  induction outer generalizing scope with
  | nil =>
    simp only [resolveIn, Option.map_eq_none_iff] at h
    exact ⟨FunctionScope.latest_eq_none.1 h, not_mem_nil⟩
  | cons next rest ih =>
    simp only [resolveIn] at h
    split at h
    · cases h
    · rename_i hn
      split at h
      · rename_i hr
        obtain ⟨hl, ho⟩ := ih hr
        refine ⟨FunctionScope.latest_eq_none.1 hn, ?_⟩
        rw [localsOf, map_cons, outside, mem_append, mem_reverse]
        exact not_or.2 ⟨hl, ho⟩
      · cases h

end Scopes

namespace Compilation

open Scopes Syntax.Expr

variable {α β : Type}

/-- The slots of the open functions have the names `l` and `ls`, and they captured `k` and `ks`. -/
structure At (l : List String) (ls : List (List String)) (k : List String) (ks : List (List String))
    (scopes : Scopes) : Prop where
  locals : scopes.current.locals = l
  outer : localsOf scopes.outer = ls
  justified : Justified (scopes.current :: scopes.outer) (k :: ks)

/-- From slots with the names `l` to slots with the names `l'`; what comes out stays right when more
names are captured later. -/
def Lowers (ls : List (List String)) (l : List String) (step : Compile α) (l' : List String)
    (Q : List String → α → Prop) : Prop :=
  ∀ ⦃k ks scopes a scopes'⦄, At l ls k ks scopes → step scopes = .ok (a, scopes') →
    ∃ k' ks', k <+: k' ∧ Forall₂ (· <+: ·) ks ks' ∧ At l' ls k' ks' scopes' ∧
      ∀ K, k' <+: K → Q K a

theorem prefixes_trans {xs ys zs : List (List String)} (h : Forall₂ (· <+: ·) xs ys)
    (h' : Forall₂ (· <+: ·) ys zs) : Forall₂ (· <+: ·) xs zs := by
  induction h generalizing zs with
  | nil => exact h'
  | cons h _ ih =>
    cases h' with
    | cons h' hs' => exact .cons (h.trans h') (ih hs')

theorem ok_of_bind {step : Compile α} {next : α → Compile β} {scopes scopes'' : Scopes} {b : β}
    (h : (step >>= next) scopes = .ok (b, scopes'')) :
    ∃ a scopes', step scopes = .ok (a, scopes') ∧ next a scopes' = .ok (b, scopes'') := by
  change (step scopes >>= fun p => next p.1 p.2) = _ at h
  cases hs : step scopes with
  | error e =>
    rw [hs] at h
    cases h
  | ok p =>
    rw [hs] at h
    exact ⟨p.1, p.2, rfl, h⟩

namespace Lowers

variable {ls : List (List String)} {l l' l'' : List String} {step : Compile α}
  {P : List String → α → Prop} {Q : List String → β → Prop}

theorem pure {b : β} (h : ∀ K, Q K b) : Lowers ls l (pure b) l Q := by
  intro k ks scopes a scopes' hat hstep
  cases hstep
  exact ⟨k, ks, prefix_rfl, forall₂_same.2 fun _ _ => prefix_rfl, hat, fun K _ => h K⟩

theorem mono {Q : List String → α → Prop} (h : Lowers ls l step l' P)
    (hPQ : ∀ K a, P K a → Q K a) : Lowers ls l step l' Q := by
  intro k ks scopes a scopes' hat hstep
  obtain ⟨k', ks', hkk', hks', hat', hP⟩ := h hat hstep
  exact ⟨k', ks', hkk', hks', hat', fun K hK => hPQ K a (hP K hK)⟩

theorem bind (h : Lowers ls l step l' P) {next : α → Compile β}
    (hk : ∀ a, Lowers ls l' (next a) l'' fun K b => P K a → Q K b) :
    Lowers ls l (step >>= next) l'' Q := by
  intro k ks scopes b scopes'' hat hstep
  obtain ⟨a, scopes', hs, hnext⟩ := ok_of_bind hstep
  obtain ⟨k', ks', hkk', hks', hat', hP⟩ := h hat hs
  obtain ⟨k'', ks'', hkk'', hks'', hat'', hQ⟩ := hk _ hat' hnext
  exact ⟨k'', ks'', hkk'.trans hkk'', prefixes_trans hks' hks'', hat'',
    fun K hK => hQ K hK (hP K (hkk''.trans hK))⟩

theorem get {next : Scopes → Compile β}
    (h : ∀ scopes, scopes.current.locals = l → Lowers ls l (next scopes) l' Q) :
    Lowers ls l (get >>= next) l' Q :=
  fun _ _ _ _ _ hat hstep => h _ hat.locals hat hstep

theorem define {name : String} {next : Nat → Compile β}
    (h : Lowers ls (l ++ [name]) (next l.length) l' Q) :
    Lowers ls l (modifyGet (Scopes.define name) >>= next) l' Q := by
  intro k ks scopes b scopes' hat hstep
  obtain ⟨rfl, ho, hj⟩ := hat
  have hat' : At (scopes.current.locals ++ [name]) ls k ks (scopes.define name).2 :=
    ⟨rfl, ho, hj.relocate _⟩
  exact h hat' hstep

theorem truncate {next : PUnit → Compile β} {more : List String}
    (h : Lowers ls l (next ⟨⟩) l' Q) :
    Lowers ls (l ++ more) (modify (Scopes.truncate l.length) >>= next) l' Q := by
  intro k ks scopes b scopes' hat hstep
  obtain ⟨hl, ho, hj⟩ := hat
  have hat' : At l ls k ks (scopes.truncate l.length) := by
    refine ⟨?_, ho, hj.relocate _⟩
    change scopes.current.locals.take l.length = l
    rw [hl, take_left]
  exact h hat' hstep

theorem function {names : List String} {body : Compile α} (h : Lowers (l :: ls) names body names P)
    (f : α → List Variable → β) (g : α → β) :
    Lowers ls l (do
      modify (·.openFunction names)
      let a ← body
      match (← MonadState.get).closeFunction? with
      | some (captures, scopes) =>
        set scopes
        return f a captures
      | none => return g a) l fun K b => ∃ inner sources a,
        Forall₂ (Located (outside ls) K l) inner sources ∧ P inner a ∧ b = f a sources := by
  intro k ks scopes b scopes' hat hstep
  obtain ⟨rfl, rfl, hj⟩ := hat
  obtain ⟨_, _, ⟨⟩, hstep⟩ := ok_of_bind hstep
  obtain ⟨a, ⟨current, outer⟩, hs, hstep⟩ := ok_of_bind hstep
  have hopen : At names (scopes.current.locals :: localsOf scopes.outer) [] (k :: ks)
      (scopes.openFunction names) := ⟨rfl, rfl, .function .nil hj⟩
  obtain ⟨inner, kks, -, hks, ⟨hl', ho', hj'⟩, hP⟩ := h hopen hs
  cases hks with
  | @cons _ k' _ ks' hkk' hks' =>
    cases hj' with
    | @function _ t rest _ _ _ hinner hj' =>
      cases hstep
      obtain ⟨ht, hrest⟩ : t.locals = _ ∧ localsOf rest = _ := cons.inj ho'
      refine ⟨k', ks', hkk', hks', ⟨ht, hrest, hj'⟩, fun K hK => ?_⟩
      refine ⟨inner, current.captures, a, hinner.imp fun _ _ hx => ?_, hP inner prefix_rfl, rfl⟩
      rw [hrest, ht] at hx
      exact hx.mono hK

theorem identifier_run (externals : Bindings Value) (name : String) (span : Span) (scopes : Scopes) :
    Compilation.identifier externals name span scopes =
      match scopes.resolve name with
      | some (source, scopes) => .ok (.read source span, scopes)
      | none =>
        match (externals.get? name).or (libraryValue? name) with
        | some v => .ok (.value v span, scopes)
        | none => .error ⟨name, span⟩ := by
  change StateT.run (Compilation.identifier externals name span) scopes = _
  rw [Compilation.identifier, StateT.run_bind, StateT.run_get, pure_bind]
  cases scopes.resolve name with
  | some p => rfl
  | none => cases (externals.get? name).or (libraryValue? name) <;> rfl

theorem identifier (externals : Bindings Value) (name : String) (span : Span) :
    Lowers ls l (identifier externals name span) l fun K c =>
      Lowered externals (outside ls) K l (.identifier name span) c := by
  intro k ks scopes c scopes' hat hstep
  obtain ⟨rfl, rfl, hj⟩ := hat
  rw [identifier_run, Scopes.resolve] at hstep
  cases hr : resolveIn name scopes.current scopes.outer with
  | some p =>
    obtain ⟨source, current, outer⟩ := p
    rw [hr] at hstep
    cases hstep
    obtain ⟨k', ks', hkk', hks', hj', hl, ho, hs⟩ := resolveIn_located hj hr
    refine ⟨k', ks', hkk', hks', ⟨hl, ho, hj'⟩, fun K hK => ?_⟩
    exact .inl ⟨source, hs.mono hK, rfl⟩
  | none =>
    rw [hr] at hstep
    obtain ⟨hl, ho⟩ := not_mem_of_resolveIn hr
    cases hv : (externals.get? name).or (libraryValue? name) with
    | none =>
      simp only [hv] at hstep
      cases hstep
    | some v =>
      simp only [hv] at hstep
      cases hstep
      exact ⟨k, ks, prefix_rfl, forall₂_same.2 fun _ _ => prefix_rfl, ⟨rfl, rfl, hj⟩,
        fun K _ => .inr ⟨hl, ho, v, hv, rfl⟩⟩

theorem of_start {step : Compile β} (hs : Lowers [] [] step l Q) {b : β}
    (h : (do return (← step.run .start).1 : Except UnboundName β) = .ok b) : Q [] b := by
  change (step .start >>= fun p => .ok p.1) = _ at h
  cases hstep : step .start with
  | error e =>
    rw [hstep] at h
    cases h
  | ok p =>
    obtain ⟨a, current, outer⟩ := p
    rw [hstep] at h
    cases h
    obtain ⟨k, ks, -, hks, hat, hQ⟩ := hs ⟨rfl, rfl, .program⟩ hstep
    cases hks
    cases hat.justified with
    | program => exact hQ [] prefix_rfl

end Lowers

section

variable {externals : Bindings Value}

mutual

theorem expr_lowers : ∀ (e : Syntax.Expr) {ls : List (List String)} {l : List String},
    Lowers ls l (expr externals e) l fun K c => Lowered externals (outside ls) K l e c
  | .number _ _, _, _ => by
    simp only [expr, Lowered]
    exact .pure fun _ => rfl
  | .string _ _, _, _ => by
    simp only [expr, Lowered]
    exact .pure fun _ => rfl
  | .bool _ _, _, _ => by
    simp only [expr, Lowered]
    exact .pure fun _ => rfl
  | .identifier name place, _, _ => by
    rw [expr]
    exact .identifier externals name place
  | .list items _, _, _ => by
    simp only [expr, Lowered]
    exact (exprs_lowers items).bind fun _ => .pure fun _ h => ⟨_, h, rfl⟩
  | .dict entries _, _, _ => by
    simp only [expr, Lowered]
    exact (dictEntries_lowers entries).bind fun _ => .pure fun _ h => ⟨_, h, rfl⟩
  | .block statements result _, ls, l => by
    simp only [expr, Lowered]
    refine .get fun scopes hl => ?_
    rw [Scopes.localCount, hl]
    exact (block_lowers statements).bind fun _ => (expr_lowers result).bind fun _ =>
      .truncate (.pure fun _ h h' => ⟨_, _, h', h, rfl⟩)
  | .lambda name ps body place, _, _ => by
    simp only [expr, Lowered]
    refine (parameters_lowers ps).bind fun qs => ?_
    refine (Lowers.function (expr_lowers body) (fun d sources => Code.lambda name qs sources d place)
      (fun d => Code.lambda name qs [] d place)).mono ?_
    rintro K c ⟨inner, sources, d, hinner, hd, rfl⟩ hqs
    exact ⟨qs, inner, sources, d, hqs, hinner, hd, rfl⟩
  | .call callee args _, _, _ => by
    simp only [expr, Lowered]
    exact (expr_lowers callee).bind fun _ => (exprs_lowers args).bind fun _ =>
      .pure fun _ h h' => ⟨_, _, h', h, rfl⟩
  | .binary _ left right _, _, _ => by
    simp only [expr, Lowered]
    exact (expr_lowers left).bind fun _ => (expr_lowers right).bind fun _ =>
      .pure fun _ h h' => ⟨_, _, h', h, rfl⟩
  | .unary _ operand _, _, _ => by
    simp only [expr, Lowered]
    exact (expr_lowers operand).bind fun _ => .pure fun _ h => ⟨_, h, rfl⟩
  | .pipe left callee args _, _, _ => by
    simp only [expr, Lowered]
    exact (expr_lowers left).bind fun _ => (exprs_lowers args).bind fun _ =>
      (expr_lowers callee).bind fun _ => .pure fun _ h h' h'' => ⟨_, _, _, h'', h', h, rfl⟩
  | .member target _ _, _, _ => by
    simp only [expr, Lowered]
    exact (expr_lowers target).bind fun _ => .pure fun _ h => ⟨_, h, rfl⟩
  | .lookup target index _, _, _ => by
    simp only [expr, Lowered]
    exact (expr_lowers target).bind fun _ => (expr_lowers index).bind fun _ =>
      .pure fun _ h h' => ⟨_, _, h', h, rfl⟩
  | .choice condition ifTrue ifFalse _, _, _ => by
    simp only [expr, Lowered]
    exact (expr_lowers condition).bind fun _ => (expr_lowers ifTrue).bind fun _ =>
      (expr_lowers ifFalse).bind fun _ => .pure fun _ h h' h'' => ⟨_, _, _, h'', h', h, rfl⟩

theorem exprs_lowers : ∀ (es : List Syntax.Expr) {ls : List (List String)} {l : List String},
    Lowers ls l (exprs externals es) l fun K cs => LoweredAll externals (outside ls) K l es cs
  | [], _, _ => by
    simp only [exprs, LoweredAll]
    exact .pure fun _ => rfl
  | e :: es, _, _ => by
    simp only [exprs, LoweredAll]
    exact (expr_lowers e).bind fun _ => (exprs_lowers es).bind fun _ =>
      .pure fun _ h h' => ⟨_, _, h', h, rfl⟩

theorem dictEntries_lowers : ∀ (entries : List (Syntax.Entry Syntax.Expr))
    {ls : List (List String)} {l : List String}, Lowers ls l (dictEntries externals entries) l
      fun K pairs => LoweredEntries externals (outside ls) K l entries pairs
  | [], _, _ => by
    simp only [dictEntries, LoweredEntries]
    exact .pure fun _ => rfl
  | entry :: entries, _, _ => by
    simp only [dictEntries, LoweredEntries]
    exact (dictEntry_lowers entry).bind fun _ => (dictEntries_lowers entries).bind fun _ =>
      .pure fun _ h h' => ⟨_, _, h', h, rfl⟩

theorem dictEntry_lowers : ∀ (entry : Syntax.Entry Syntax.Expr) {ls : List (List String)}
    {l : List String}, Lowers ls l (dictEntry externals entry) l
      fun K pair => LoweredEntry externals (outside ls) K l entry pair
  | ⟨_, _, value⟩, _, _ => by
    simp only [dictEntry, LoweredEntry]
    exact (expr_lowers value).bind fun _ => .pure fun _ h => ⟨_, h, rfl⟩

theorem parameters_lowers : ∀ (ps : List (Syntax.Parameter Syntax.Expr)) {ls : List (List String)}
    {l : List String}, Lowers ls l (parameters externals ps) l
      fun K qs => LoweredParameters externals (outside ls) K l ps qs
  | [], _, _ => by
    simp only [parameters, LoweredParameters]
    exact .pure fun _ => rfl
  | p :: ps, _, _ => by
    simp only [parameters, LoweredParameters]
    exact (parameter_lowers p).bind fun _ => (parameters_lowers ps).bind fun _ =>
      .pure fun _ h h' => ⟨_, _, h', h, rfl⟩

theorem parameter_lowers : ∀ (p : Syntax.Parameter Syntax.Expr) {ls : List (List String)}
    {l : List String}, Lowers ls l (parameter externals p) l
      fun K q => LoweredParameter externals (outside ls) K l p q
  | ⟨_, _, range⟩, _, _ => by
    simp only [parameter, LoweredParameter]
    exact (optional_lowers range).bind fun _ => .pure fun _ h => ⟨_, h, rfl⟩

theorem optional_lowers : ∀ (o : Option Syntax.Expr) {ls : List (List String)} {l : List String},
    Lowers ls l (optional externals o) l fun K r => LoweredOption externals (outside ls) K l o r
  | none, _, _ => by
    simp only [optional, LoweredOption]
    exact .pure fun _ => rfl
  | some e, _, _ => by
    simp only [optional, LoweredOption]
    exact (expr_lowers e).bind fun _ => .pure fun _ h => ⟨_, h, rfl⟩

theorem definition_lowers : ∀ (s : Syntax.Statement Syntax.Expr) {ls : List (List String)}
    {l : List String}, Lowers ls l (definition externals s) (l ++ [s.name])
      fun K p => LoweredStatement externals (outside ls) K l s p.1 ∧ p.2 = l.length
  | ⟨_, _, value, _, _⟩, _, _ => by
    simp only [definition, LoweredStatement]
    exact (expr_lowers value).bind fun _ => .define (.pure fun _ h => ⟨⟨_, h, rfl⟩, rfl⟩)

theorem block_lowers : ∀ (ss : List (Syntax.Statement Syntax.Expr)) {ls : List (List String)}
    {l : List String}, Lowers ls l (block externals ss) (l ++ ss.map Syntax.Statement.name)
      fun K cs => LoweredStatements externals (outside ls) K l ss cs
  | [], _, _ => by
    simp only [block, LoweredStatements, map_nil, append_nil]
    exact .pure fun _ => rfl
  | s :: ss, _, _ => by
    simp only [block, LoweredStatements, map_cons]
    rw [append_cons]
    exact (definition_lowers s).bind fun _ => (block_lowers ss).bind fun _ =>
      .pure fun _ h h' => ⟨_, _, h'.1, h, rfl⟩

end

/-- The bindings that definitions from the slot `n` on leave behind others. -/
def topBindings (n : Nat) (bindings : List TopBinding) :
    List (Syntax.Statement Syntax.Expr) → List TopBinding
  | [] => bindings
  | s :: ss => topBindings (n + 1) (rebind ⟨s.name, n, s.exported, s.span⟩ bindings) ss

theorem definitions_lowers (ss : List (Syntax.Statement Syntax.Expr)) {ls : List (List String)}
    {l : List String} (bindings : List TopBinding) :
    Lowers ls l (definitions externals ss bindings) (l ++ ss.map Syntax.Statement.name)
      fun K p => LoweredStatements externals (outside ls) K l ss p.1 ∧
        p.2 = topBindings l.length bindings ss := by
  induction ss generalizing l bindings with
  | nil =>
    simp only [definitions, LoweredStatements, map_nil, append_nil]
    exact .pure fun _ => ⟨rfl, rfl⟩
  | cons s ss ih =>
    simp only [definitions, LoweredStatements, map_cons]
    rw [append_cons]
    refine (definition_lowers s).bind fun p => ?_
    refine (ih (rebind ⟨s.name, p.2, s.exported, s.span⟩ bindings)).bind fun q => .pure ?_
    rintro K ⟨hcs, hbs⟩ ⟨hc, hslot⟩
    refine ⟨⟨_, _, hc, hcs, rfl⟩, ?_⟩
    rw [hbs, hslot, length_append]
    rfl

end

theorem steps_lower (externals : Bindings Value) (program : Syntax.Program) :
    Lowers [] [] (do
      let (statements, bindings) ← definitions externals program.statements []
      let result ← optional externals program.result
      return Code.program statements result bindings program.span)
      (program.statements.map Syntax.Statement.name) fun K c => ∃ cs r,
        Syntax.Expr.LoweredStatements externals [] K [] program.statements cs ∧
        Syntax.Expr.LoweredOption externals [] K (program.statements.map Syntax.Statement.name)
          program.result r ∧
        c = .program cs r (topBindings 0 [] program.statements) program.span := by
  refine (definitions_lowers program.statements []).bind fun p => ?_
  refine (optional_lowers program.result).bind fun r => .pure ?_
  rintro K hr ⟨hcs, hbs⟩
  refine ⟨p.1, r, hcs, hr, ?_⟩
  rw [hbs]
  rfl

end Compilation

open Compilation in
theorem compile_lowered {externals : Bindings Value} {program : Syntax.Program} {code : Code}
    (h : compile externals program = .ok code) :
    ∃ cs r, Syntax.Expr.LoweredStatements externals [] [] [] program.statements cs ∧
      Syntax.Expr.LoweredOption externals [] [] (program.statements.map Syntax.Statement.name)
        program.result r ∧
      code = .program cs r (topBindings 0 [] program.statements) program.span :=
  (steps_lower externals program).of_start h

end Estimation
