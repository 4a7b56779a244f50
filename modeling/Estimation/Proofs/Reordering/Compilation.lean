import Estimation.Proofs.Reordering
import Mathlib.Data.List.Perm.Basic

/-!
Pipes and the calls that they mean compile to code that captures in another order only. Functions capture
what their bodies need, so that two functions which need the same capture the same names.
-/

namespace Estimation

open List

namespace Located

variable {outer k k' locals : List String} {name : String} {source source' : Variable}

theorem matched (h : Located outer k locals name source) (h' : Located outer k' locals name source') :
    source.Matched locals.length k k' source' := by
  cases h with
  | slot hn =>
    cases h' with
    | slot hn' =>
      cases hn.symm.trans hn'
      exact .slot (List.getElem?_eq_some_iff.1 (FunctionScope.getElem?_of_latest hn).2).1
    | capture hlocals => exact absurd (mem_of_getElem? (FunctionScope.getElem?_of_latest hn).2) hlocals
  | capture hlocals _ hn =>
    cases h' with
    | slot hn' => exact absurd (mem_of_getElem? (FunctionScope.getElem?_of_latest hn').2) hlocals
    | capture _ _ hn' => exact .capture hn hn'

/-- Where each name is captured once, a name has one source. -/
theorem source_unique (hk : k.Nodup) (h : Located outer k locals name source)
    (h' : Located outer k locals name source') : source = source' := by
  cases h.matched h' with
  | slot => rfl
  | capture hi hj =>
    cases h with
    | capture _ _ hn =>
      cases h' with
      | capture _ _ hn' =>
        obtain ⟨hi, hi'⟩ := List.getElem?_eq_some_iff.1 hn
        obtain ⟨hj, hj'⟩ := List.getElem?_eq_some_iff.1 hn'
        rw [hk.getElem_inj_iff.1 (hi'.trans hj'.symm)]

theorem nodup_names (hk : k.Nodup) {inner : List String} {sources : List Variable}
    (h : Forall₂ (Located outer k locals) inner sources) (hsources : sources.Nodup) : inner.Nodup := by
  induction h with
  | nil => exact nodup_nil
  | cons hs hrest ih =>
    obtain ⟨hnotin, hsources⟩ := nodup_cons.1 hsources
    refine nodup_cons.2 ⟨fun hname => ?_, ih hsources⟩
    obtain ⟨source', hmem, hs'⟩ := related_of_mem hrest.flip hname
    exact hnotin (hs.source_unique hk hs' ▸ hmem)

/-- Sources for the same names, in the same order. -/
theorem zip_alike {inner : List String} {sources : List Variable}
    (h : Forall₂ (Located outer k locals) inner sources) {given : List (String × Variable)}
    (hnames : Forall₂ (fun name entry => name = entry.1) inner given)
    (hgiven : ∀ entry ∈ given, Located outer k' locals entry.1 entry.2) :
    Forall₂ (EntryAlike (Variable.Matched locals.length k k')) (inner.zip sources) given := by
  induction h generalizing given with
  | nil =>
    cases hnames
    exact .nil
  | cons hs _ ih =>
    cases hnames with
    | @cons _ entry _ _ hname hnames =>
      obtain ⟨name, source⟩ := entry
      obtain rfl : _ = name := hname
      obtain ⟨hentry, hrest⟩ := forall_mem_cons.1 hgiven
      exact .cons ⟨hs.matched hentry⟩ (ih hnames hrest)

theorem of_mem_zip {inner : List String} {sources : List Variable}
    (h : Forall₂ (Located outer k locals) inner sources) :
    ∀ entry ∈ inner.zip sources, Located outer k locals entry.1 entry.2 := by
  induction h with
  | nil => nofun
  | cons hs _ ih => exact forall_mem_cons.2 ⟨hs, ih⟩

/-- Sources for the same names, each once, in whatever order. -/
theorem permuted {inner inner' : List String} {sources sources' : List Variable}
    (h : Forall₂ (Located outer k locals) inner sources)
    (h' : Forall₂ (Located outer k' locals) inner' sources') (hinner : inner.Nodup)
    (hperm : inner.Perm inner') :
    Permuted (Variable.Matched locals.length k k') inner inner' sources sources' := by
  have hfst : (inner.zip sources).map Prod.fst = inner := map_fst_zip (Nat.le_of_eq h.length_eq)
  have hsnd : (inner.zip sources).map Prod.snd = sources :=
    map_snd_zip (Nat.le_of_eq h.length_eq.symm)
  have hfst' : (inner'.zip sources').map Prod.fst = inner' :=
    map_fst_zip (Nat.le_of_eq h'.length_eq)
  have hsnd' : (inner'.zip sources').map Prod.snd = sources' :=
    map_snd_zip (Nat.le_of_eq h'.length_eq.symm)
  -- What the second function takes, in the order of the first.
  have hnames' : Forall₂ (fun name (entry : String × Variable) => name = entry.1) inner'
      (inner'.zip sources') := by
    rw [← forall₂_map_right_iff (R := Eq), hfst']
    exact forall₂_refl _
  obtain ⟨given, hnames, hgiven⟩ := perm_comp_forall₂ hperm hnames'
  have hlocated : ∀ entry ∈ given, Located outer k' locals entry.1 entry.2 :=
    fun entry hentry => of_mem_zip h' entry (hgiven.mem_iff.1 hentry)
  have hpermuted := Permuted.intro (hfst.symm ▸ hinner) (zip_alike h hnames hlocated) hgiven
  rwa [hfst, hsnd, hfst', hsnd'] at hpermuted

end Located

namespace Code

variable {k k' : List String} {n : Nat}

/-- What code captures if it captures no more than it needs, and all of that. -/
theorem mem_iff_needs {c : Code} {name : String} (h : ∀ i < k.length, c.Captures i) :
    name ∈ k ↔ c.Needs k name := by
  constructor
  · intro hname
    obtain ⟨i, hi, hi'⟩ := mem_iff_getElem.1 hname
    exact ⟨i, List.getElem?_eq_some_iff.2 ⟨hi, hi'⟩, h i hi⟩
  · rintro ⟨i, hi, -⟩
    exact mem_of_getElem? hi

end Code

theorem Compilation.nativeCall_matched {n : Nat} {k k' : List String} {cs ds : List Code}
    (h : Code.AllMatched n k k' cs ds) (f : Native) (span : Span) :
    Code.Matched n k k' (nativeCall f cs span) (nativeCall f ds span) :=
  .call span (.value _ _) h

namespace Syntax.Expr

open Code Compilation

variable {externals : Bindings Value}

theorem LoweredStatements.length_eq {outer captured locals : List String} {ss : List (Statement Expr)}
    {cs : List Code} (h : LoweredStatements externals outer captured locals ss cs) :
    ss.length = cs.length := by
  induction ss generalizing locals cs with
  | nil =>
    rw [LoweredStatements] at h
    rw [h]
    rfl
  | cons s ss ih =>
    rw [LoweredStatements] at h
    obtain ⟨c, cs, -, hcs, rfl⟩ := h
    rw [length_cons, length_cons, ih hcs]

theorem LoweredParameters.length_eq {outer captured locals : List String}
    {ps : List (Syntax.Parameter Expr)} {qs : List (CodeParameter Code)}
    (h : LoweredParameters externals outer captured locals ps qs) : ps.length = qs.length := by
  induction ps generalizing qs with
  | nil =>
    rw [LoweredParameters] at h
    rw [h]
    rfl
  | cons p ps ih =>
    rw [LoweredParameters] at h
    obtain ⟨q, qs, -, hqs, rfl⟩ := h
    rw [length_cons, length_cons, ih hqs]

mutual

theorem Unpiped.matched : ∀ {e f : Expr}, e.Unpiped f → ∀ {c d : Code} {outer k k' locals : List String},
    k.Nodup → k'.Nodup → Lowered externals outer k locals e c →
    Lowered externals outer k' locals f d → c.Snug → d.Snug → Matched locals.length k k' c d
  | .number _ _, _, .number _ _ => by
    intro _ _ hc hd _ _
    rw [Lowered] at hc hd
    rw [hc, hd]
    exact .value _ _
  | .string _ _, _, .string _ _ => by
    intro _ _ hc hd _ _
    rw [Lowered] at hc hd
    rw [hc, hd]
    exact .value _ _
  | .bool _ _, _, .bool _ _ => by
    intro _ _ hc hd _ _
    rw [Lowered] at hc hd
    rw [hc, hd]
    exact .value _ _
  | .identifier _ _, _, .identifier _ _ => by
    intro _ _ hc hd _ _
    rw [Lowered] at hc hd
    obtain ⟨source, hs, rfl⟩ | ⟨hlocals, houter, v, hv, rfl⟩ := hc
    · obtain ⟨source', hs', rfl⟩ | ⟨hlocals, houter, -⟩ := hd
      · exact .read _ (hs.matched hs')
      · exact absurd hs.mem (not_or.2 ⟨hlocals, houter⟩)
    · obtain ⟨source', hs', -⟩ | ⟨-, -, v', hv', rfl⟩ := hd
      · exact absurd hs'.mem (not_or.2 ⟨hlocals, houter⟩)
      · cases hv.symm.trans hv'
        exact .value _ _
  | .list _ _, _, .list _ h => by
    intro hk hk' hc hd hsc hsd
    rw [Lowered] at hc hd
    obtain ⟨cs, hcs, rfl⟩ := hc
    obtain ⟨ds, hds, rfl⟩ := hd
    exact .list _ (all_matched h hk hk' hcs hds (fun _ => hsc.piece) fun _ => hsd.piece)
  | .dict _ _, _, .dict _ h => by
    intro hk hk' hc hd hsc hsd
    rw [Lowered] at hc hd
    obtain ⟨cs, hcs, rfl⟩ := hc
    obtain ⟨ds, hds, rfl⟩ := hd
    exact .dict _ (entries_matched h hk hk' hcs hds (fun _ => hsc.piece) fun _ => hsd.piece)
  | .block _ _ _, _, .block _ hs h => by
    intro hk hk' hc hd hsc hsd
    rw [Lowered] at hc hd
    obtain ⟨cs, c, hcs, hc, rfl⟩ := hc
    obtain ⟨ds, d, hds, hd, rfl⟩ := hd
    have hsc : ∀ x ∈ cs ++ [c], x.Snug := fun _ => hsc.piece
    have hsd : ∀ x ∈ ds ++ [d], x.Snug := fun _ => hsd.piece
    rw [forall_mem_append, forall_mem_singleton] at hsc hsd
    rw [← (Piece.statements_together hs []).1] at hd
    have hresult := h.matched hk hk' hc hd hsc.2 hsd.2
    rw [length_append, length_map, hcs.length_eq] at hresult
    exact .block _ (statements_matched hs hk hk' hcs hds hsc.1 hsd.1) hresult
  | .lambda _ _ _ _, _, .lambda name span hs h => by
    intro hk hk' hc hd hsc hsd
    rw [Lowered] at hc hd
    obtain ⟨ps, inner, sources, c, hps, hinner, hc, rfl⟩ := hc
    obtain ⟨qs, inner', sources', d, hqs, hinner', hd, rfl⟩ := hd
    have hpieces : ∀ x ∈ ps.filterMap CodeParameter.range ++ [c], x.Snug := fun _ => hsc.piece
    have hpieces' : ∀ x ∈ qs.filterMap CodeParameter.range ++ [d], x.Snug := fun _ => hsd.piece
    rw [forall_mem_append, forall_mem_singleton] at hpieces hpieces'
    obtain ⟨hsources, hneeds⟩ := hsc .self
    obtain ⟨hsources', hneeds'⟩ := hsd .self
    rw [← (Piece.parameters_together hs []).1] at hd
    have hnodup := Located.nodup_names hk hinner hsources
    have hnodup' := Located.nodup_names hk' hinner' hsources'
    have hbody := h.matched hnodup hnodup' hc hd hpieces.2 hpieces'.2
    have hperm : inner.Perm inner' := (perm_ext_iff_of_nodup hnodup hnodup').2 fun name => by
      rw [mem_iff_needs (hinner.length_eq ▸ hneeds), mem_iff_needs (hinner'.length_eq ▸ hneeds')]
      exact hbody.needs_iff
    rw [length_map, hps.length_eq] at hbody
    exact .lambda name span (Located.permuted hinner hinner' hnodup hperm)
      (parameters_matched hs hk hk' hps hqs hpieces.1 hpieces'.1) hbody
  | .call _ _ _, _, .call _ h hs => by
    intro hk hk' hc hd hsc hsd
    rw [Lowered] at hc hd
    obtain ⟨c, cs, hc, hcs, rfl⟩ := hc
    obtain ⟨d, ds, hd, hds, rfl⟩ := hd
    exact .call _ (h.matched hk hk' hc hd (hsc.piece mem_cons_self) (hsd.piece mem_cons_self))
      (all_matched hs hk hk' hcs hds (fun _ hx => hsc.piece (mem_cons_of_mem _ hx))
        fun _ hx => hsd.piece (mem_cons_of_mem _ hx))
  | .binary _ _ _ _, _, .binary op span h h' => by
    intro hk hk' hc hd hsc hsd
    rw [Lowered] at hc hd
    obtain ⟨c, c', hc, hc', rfl⟩ := hc
    obtain ⟨d, d', hd, hd', rfl⟩ := hd
    refine nativeCall_matched (.cons (h.matched hk hk' hc hd ?_ ?_)
      (.cons (h'.matched hk hk' hc' hd' ?_ ?_) .nil)) _ span
    · exact hsc.piece (.tail _ (.head _))
    · exact hsd.piece (.tail _ (.head _))
    · exact hsc.piece (.tail _ (.tail _ (.head _)))
    · exact hsd.piece (.tail _ (.tail _ (.head _)))
  | .unary _ _ _, _, .unary op span h => by
    intro hk hk' hc hd hsc hsd
    rw [Lowered] at hc hd
    obtain ⟨c, hc, rfl⟩ := hc
    obtain ⟨d, hd, rfl⟩ := hd
    exact nativeCall_matched (.cons (h.matched hk hk' hc hd (hsc.piece (.tail _ (.head _)))
      (hsd.piece (.tail _ (.head _)))) .nil) _ span
  | .pipe _ _ _ _, _, .pipe span h h' hs => by
    intro hk hk' hc hd hsc hsd
    rw [Lowered] at hc hd
    obtain ⟨c, cs, c', hc, hcs, hc', rfl⟩ := hc
    obtain ⟨d, ds, d', hd, hds, hd', rfl⟩ := hd
    refine .call span (h'.matched hk hk' hc' hd' ?_ ?_) (.cons (h.matched hk hk' hc hd ?_ ?_)
      (all_matched hs hk hk' hcs hds ?_ ?_))
    · exact hsc.piece (.head _)
    · exact hsd.piece (.head _)
    · exact hsc.piece (.tail _ (.head _))
    · exact hsd.piece (.tail _ (.head _))
    · exact fun _ hx => hsc.piece (.tail _ (.tail _ hx))
    · exact fun _ hx => hsd.piece (.tail _ (.tail _ hx))
  | .pipe _ _ _ _, _, .called span h h' hs => by
    intro hk hk' hc hd hsc hsd
    rw [Lowered] at hc
    rw [Lowered] at hd
    obtain ⟨c, cs, c', hc, hcs, hc', rfl⟩ := hc
    obtain ⟨d', ds, hd', hds, rfl⟩ := hd
    rw [LoweredAll] at hds
    obtain ⟨d, ds, hd, hds, rfl⟩ := hds
    refine .call span (h'.matched hk hk' hc' hd' ?_ ?_) (.cons (h.matched hk hk' hc hd ?_ ?_)
      (all_matched hs hk hk' hcs hds ?_ ?_))
    · exact hsc.piece (.head _)
    · exact hsd.piece (.head _)
    · exact hsc.piece (.tail _ (.head _))
    · exact hsd.piece (.tail _ (.head _))
    · exact fun _ hx => hsc.piece (.tail _ (.tail _ hx))
    · exact fun _ hx => hsd.piece (.tail _ (.tail _ hx))
  | .member _ _ _, _, .member key span h => by
    intro hk hk' hc hd hsc hsd
    rw [Lowered] at hc hd
    obtain ⟨c, hc, rfl⟩ := hc
    obtain ⟨d, hd, rfl⟩ := hd
    exact nativeCall_matched (.cons (h.matched hk hk' hc hd (hsc.piece (.tail _ (.head _)))
      (hsd.piece (.tail _ (.head _)))) (.cons (.value _ _) .nil)) _ span
  | .lookup _ _ _, _, .lookup span h h' => by
    intro hk hk' hc hd hsc hsd
    rw [Lowered] at hc hd
    obtain ⟨c, c', hc, hc', rfl⟩ := hc
    obtain ⟨d, d', hd, hd', rfl⟩ := hd
    refine nativeCall_matched (.cons (h.matched hk hk' hc hd ?_ ?_)
      (.cons (h'.matched hk hk' hc' hd' ?_ ?_) .nil)) _ span
    · exact hsc.piece (.tail _ (.head _))
    · exact hsd.piece (.tail _ (.head _))
    · exact hsc.piece (.tail _ (.tail _ (.head _)))
    · exact hsd.piece (.tail _ (.tail _ (.head _)))
  | .choice _ _ _ _, _, .choice span h h' h'' => by
    intro hk hk' hc hd hsc hsd
    rw [Lowered] at hc hd
    obtain ⟨c, c', c'', hc, hc', hc'', rfl⟩ := hc
    obtain ⟨d, d', d'', hd, hd', hd'', rfl⟩ := hd
    refine .choice span (h.matched hk hk' hc hd ?_ ?_) (h'.matched hk hk' hc' hd' ?_ ?_)
      (h''.matched hk hk' hc'' hd'' ?_ ?_)
    · exact hsc.piece (.head _)
    · exact hsd.piece (.head _)
    · exact hsc.piece (.tail _ (.head _))
    · exact hsd.piece (.tail _ (.head _))
    · exact hsc.piece (.tail _ (.tail _ (.head _)))
    · exact hsd.piece (.tail _ (.tail _ (.head _)))
termination_by structural e => e

theorem all_matched : ∀ {es fs : List Expr}, Forall₂ Unpiped es fs → ∀ {cs ds : List Code}
    {outer k k' locals : List String}, k.Nodup → k'.Nodup → LoweredAll externals outer k locals es cs →
    LoweredAll externals outer k' locals fs ds → (∀ c ∈ cs, c.Snug) → (∀ d ∈ ds, d.Snug) →
    AllMatched locals.length k k' cs ds
  | [], _, .nil => by
    intro _ _ hc hd _ _
    rw [LoweredAll] at hc hd
    rw [hc, hd]
    exact .nil
  | _ :: _, _, .cons h hs => by
    intro hk hk' hc hd hsc hsd
    rw [LoweredAll] at hc hd
    obtain ⟨c, cs, hc, hcs, rfl⟩ := hc
    obtain ⟨d, ds, hd, hds, rfl⟩ := hd
    rw [forall_mem_cons] at hsc hsd
    exact .cons (h.matched hk hk' hc hd hsc.1 hsd.1) (all_matched hs hk hk' hcs hds hsc.2 hsd.2)
termination_by structural e => e

theorem entries_matched : ∀ {es fs : List (Entry Expr)}, Forall₂ (EntryAlong Unpiped) es fs →
    ∀ {cs ds : List (Code × Code)} {outer k k' locals : List String}, k.Nodup → k'.Nodup →
    LoweredEntries externals outer k locals es cs → LoweredEntries externals outer k' locals fs ds →
    (∀ c ∈ cs.flatMap fun p => [p.1, p.2], c.Snug) → (∀ d ∈ ds.flatMap fun p => [p.1, p.2], d.Snug) →
    EntriesMatched locals.length k k' cs ds
  | [], _, .nil => by
    intro _ _ hc hd _ _
    rw [LoweredEntries] at hc hd
    rw [hc, hd]
    exact .nil
  | ⟨_, _, _⟩ :: _, _, .cons (.intro h) hs => by
    intro hk hk' hc hd hsc hsd
    rw [LoweredEntries] at hc hd
    obtain ⟨_, cs, hc, hcs, rfl⟩ := hc
    obtain ⟨_, ds, hd, hds, rfl⟩ := hd
    rw [LoweredEntry] at hc hd
    obtain ⟨c, hc, rfl⟩ := hc
    obtain ⟨d, hd, rfl⟩ := hd
    rw [flatMap_cons, forall_mem_append, forall_mem_cons, forall_mem_singleton] at hsc hsd
    exact .cons (.value _ _) (h.matched hk hk' hc hd hsc.1.2 hsd.1.2)
      (entries_matched hs hk hk' hcs hds hsc.2 hsd.2)
termination_by structural e => e

theorem parameters_matched : ∀ {ps qs : List (Syntax.Parameter Expr)},
    Forall₂ (ParameterAlong Unpiped) ps qs →
    ∀ {cs ds : List (CodeParameter Code)} {outer k k' locals : List String}, k.Nodup → k'.Nodup →
    LoweredParameters externals outer k locals ps cs →
    LoweredParameters externals outer k' locals qs ds →
    (∀ c ∈ cs.filterMap CodeParameter.range, c.Snug) →
    (∀ d ∈ ds.filterMap CodeParameter.range, d.Snug) → ParametersMatched locals.length k k' cs ds
  | [], _, .nil => by
    intro _ _ hc hd _ _
    rw [LoweredParameters] at hc hd
    rw [hc, hd]
    exact .nil
  | ⟨name, _, none⟩ :: _, _, .cons (.intro .none) hs => by
    intro hk hk' hc hd hsc hsd
    rw [LoweredParameters] at hc hd
    obtain ⟨_, cs, hc, hcs, rfl⟩ := hc
    obtain ⟨_, ds, hd, hds, rfl⟩ := hd
    rw [LoweredParameter] at hc hd
    obtain ⟨_, hc, rfl⟩ := hc
    obtain ⟨_, hd, rfl⟩ := hd
    rw [LoweredOption] at hc hd
    subst hc hd
    exact .plain name (parameters_matched hs hk hk' hcs hds hsc hsd)
  | ⟨name, _, some _⟩ :: _, _, .cons (.intro (.some h)) hs => by
    intro hk hk' hc hd hsc hsd
    rw [LoweredParameters] at hc hd
    obtain ⟨_, cs, hc, hcs, rfl⟩ := hc
    obtain ⟨_, ds, hd, hds, rfl⟩ := hd
    rw [LoweredParameter] at hc hd
    obtain ⟨_, hc, rfl⟩ := hc
    obtain ⟨_, hd, rfl⟩ := hd
    rw [LoweredOption] at hc hd
    obtain ⟨c, hc, rfl⟩ := hc
    obtain ⟨d, hd, rfl⟩ := hd
    obtain ⟨hsc, hscs⟩ := forall_mem_cons.1 hsc
    obtain ⟨hsd, hsds⟩ := forall_mem_cons.1 hsd
    exact .ranged name (h.matched hk hk' hc hd hsc hsd) (parameters_matched hs hk hk' hcs hds hscs hsds)
termination_by structural e => e

theorem statements_matched : ∀ {ss ts : List (Statement Expr)},
    Forall₂ (StatementAlong Unpiped) ss ts →
    ∀ {cs ds : List Code} {outer k k' locals : List String}, k.Nodup → k'.Nodup →
    LoweredStatements externals outer k locals ss cs →
    LoweredStatements externals outer k' locals ts ds → (∀ c ∈ cs, c.Snug) → (∀ d ∈ ds, d.Snug) →
    StatementsMatched locals.length k k' cs ds
  | [], _, .nil => by
    intro _ _ hc hd _ _
    rw [LoweredStatements] at hc hd
    rw [hc, hd]
    exact .nil
  | ⟨name, _, _, _, span⟩ :: _, _, .cons (.intro h) hs => by
    intro hk hk' hc hd hsc hsd
    rw [LoweredStatements] at hc hd
    obtain ⟨_, cs, hc, hcs, rfl⟩ := hc
    obtain ⟨_, ds, hd, hds, rfl⟩ := hd
    rw [LoweredStatement] at hc hd
    obtain ⟨c, hc, rfl⟩ := hc
    obtain ⟨d, hd, rfl⟩ := hd
    rw [forall_mem_cons] at hsc hsd
    have hrest := statements_matched hs hk hk' hcs hds hsc.2 hsd.2
    rw [length_append, length_singleton] at hrest
    exact .cons name span (h.matched hk hk' hc hd (hsc.1.piece (.head _)) (hsd.1.piece (.head _))) hrest
termination_by structural e => e

end

end Syntax.Expr

end Estimation
