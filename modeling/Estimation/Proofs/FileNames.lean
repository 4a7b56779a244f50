import Mathlib.Data.List.Basic
import Mathlib.Data.List.Induction
import Estimation.Link

/-!
Names of modules in files. A name is canonical if it is what its own text is named: it has no single
dots, and it goes up at its front only. What a specifier means is named so, and specifiers of one path
by one name, but for two cases: a backslash, which becomes a separator only after the path is undone,
and a last step up, behind which no extension is added.
-/

namespace Estimation

open List

/-! ### Pieces -/

namespace Text

theorem pieces_eq_splitOn (separator : Char) (cs : List Char) :
    pieces separator cs = cs.splitOn separator := by
  induction cs with
  | nil => simp [pieces]
  | cons c cs ih =>
    rw [splitOn_cons_eq_if_modifyHead, ← ih, pieces]
    cases h : pieces separator cs with
    | nil => exact absurd h (pieces_ne_nil separator cs)
    | cons piece rest => simp

theorem notMem_of_mem_pieces {separator : Char} {cs : List Char} :
    ∀ piece ∈ pieces separator cs, separator ∉ piece := by
  induction cs with
  | nil => simp [pieces]
  | cons c cs ih =>
    rw [pieces]
    split
    · next piece rest hpieces =>
      rw [hpieces] at ih
      obtain ⟨hpiece, hrest⟩ := forall_mem_cons.1 ih
      split
      · exact forall_mem_cons.2 ⟨not_mem_nil, ih⟩
      · next hc =>
        exact forall_mem_cons.2 ⟨not_mem_cons_of_ne_of_not_mem (Ne.symm hc) hpiece, hrest⟩
    · next hpieces => exact absurd hpieces (pieces_ne_nil separator cs)

theorem pieces_intercalate {separator : Char} {all : List (List Char)}
    (h : ∀ piece ∈ all, separator ∉ piece) (hne : all ≠ []) :
    pieces separator ([separator].intercalate all) = all := by
  rw [pieces_eq_splitOn, splitOn_intercalate separator h hne]

theorem mem_of_mem_intercalate {separator c : Char} {all : List (List Char)}
    (h : c ∈ [separator].intercalate all) : c = separator ∨ ∃ piece ∈ all, c ∈ piece := by
  induction all with
  | nil => cases h
  | cons piece rest ih =>
    cases rest with
    | nil => exact .inr ⟨piece, mem_cons_self, by simpa using h⟩
    | cons next rest =>
      rw [intercalate_cons_cons, mem_append, mem_append, mem_singleton] at h
      rcases h with (hpiece | hseparator) | hrest
      · exact .inr ⟨piece, mem_cons_self, hpiece⟩
      · exact .inl hseparator
      · exact (ih hrest).imp_right fun ⟨piece, hpiece, hc⟩ => ⟨piece, mem_cons_of_mem _ hpiece, hc⟩

end Text

namespace ModulePath

/-! ### Steps -/

namespace Step

/-- The steps that texts have: a name in them is not empty, is none of the two that dots make, and has
no separator in it. -/
def Proper : Step → Prop
  | .up => True
  | .into name => name ≠ [] ∧ name ≠ ['.'] ∧ name ≠ ['.', '.'] ∧ '/' ∉ name

theorem proper_of_ofName {name : List Char} {step : Step} (h : ofName? name = some step)
    (hname : '/' ∉ name) : step.Proper := by
  unfold ofName? at h
  split at h
  · cases h
  · next hdot =>
    rw [not_or] at hdot
    split at h <;> cases h
    · trivial
    · next hup => exact ⟨hdot.1, hdot.2, hup, hname⟩

namespace Proper

variable {step : Step}

theorem ofName_text (h : step.Proper) : ofName? step.text = some step := by
  cases step with
  | up => rfl
  | into name =>
    obtain ⟨hne, hdot, hup, -⟩ := h
    simp [ofName?, text, hne, hdot, hup]

theorem notMem_text (h : step.Proper) : '/' ∉ step.text := by
  cases step with
  | up => decide
  | into name => exact h.2.2.2

theorem text_ne_nil (h : step.Proper) : step.text ≠ [] := by
  cases step with
  | up => exact cons_ne_nil _ _
  | into name => exact h.1

theorem text_ne_dot (h : step.Proper) : step.text ≠ ['.'] := by
  cases step with
  | up => decide
  | into name => exact h.2.1

theorem extended {name extension : List Char} (h : Proper (.into name)) (hne : extension ≠ [])
    (hslash : '/' ∉ extension) : Proper (.into (name ++ '.' :: extension)) := by
  obtain ⟨hname, -, -, hnameSlash⟩ := h
  have hlength : 3 ≤ (name ++ '.' :: extension).length := by
    have := length_pos_iff.2 hname
    have := length_pos_iff.2 hne
    simp only [length_append, length_cons]
    omega
  refine ⟨by simp, fun heq => ?_, fun heq => ?_, by simp [hnameSlash, hslash]⟩
  · simp [heq] at hlength
  · simp [heq] at hlength

end Proper

end Step

variable {path : ModulePath} {steps : List Step} {extension : List Char} {c : Char}

theorem take_into (done : List Step) (name : List Char) :
    take done (.into name) = done ++ [.into name] := rfl

theorem take_up_into (done : List Step) (name : List Char) :
    take (done ++ [.into name]) .up = done := by
  simp [take]

theorem take_up (h : ∀ name, steps.getLast? ≠ some (.into name)) :
    take steps .up = steps ++ [.up] := by
  cases steps using reverseRecOn with
  | nil => rfl
  | append_singleton steps last =>
    cases last with
    | up => simp [take]
    | into name => exact absurd getLast?_concat (h name)

theorem mem_of_mem_take {step next : Step} (h : step ∈ take steps next) :
    step ∈ steps ∨ step = next := by
  cases next with
  | into name => simpa [take_into] using h
  | up =>
    cases steps using reverseRecOn with
    | nil => exact .inr (mem_singleton.1 h)
    | append_singleton steps last =>
      cases last with
      | up => simpa [take] using h
      | into name =>
        rw [take_up_into] at h
        exact .inl (mem_append_left _ h)

theorem mem_of_mem_foldl {step : Step} {more : List Step} (h : step ∈ more.foldl take steps) :
    step ∈ steps ∨ step ∈ more := by
  induction more generalizing steps with
  | nil => exact .inl h
  | cons next more ih =>
    rcases ih h with hmem | hmem
    · rcases mem_of_mem_take hmem with hmem | rfl
      · exact .inl hmem
      · exact .inr mem_cons_self
    · exact .inr (mem_cons_of_mem _ hmem)

/-- Steps up come before all others. -/
def UpFirst (steps : List Step) : Prop :=
  ∃ k rest, steps = replicate k .up ++ rest ∧ .up ∉ rest

theorem not_into_of_ups {k : Nat} (name : List Char) :
    (replicate k Step.up).getLast? ≠ some (.into name) := by
  intro h
  cases eq_of_mem_replicate (mem_of_getLast? h)

namespace UpFirst

theorem into (h : UpFirst steps) (name : List Char) : UpFirst (steps ++ [.into name]) := by
  obtain ⟨k, rest, rfl, hrest⟩ := h
  exact ⟨k, rest ++ [.into name], append_assoc _ _ _, by simp [hrest]⟩

theorem dropLast (h : UpFirst steps) : UpFirst steps.dropLast := by
  obtain ⟨k, rest, rfl, hrest⟩ := h
  cases rest using reverseRecOn with
  | nil => exact ⟨k - 1, [], by simp, not_mem_nil⟩
  | append_singleton rest last =>
    refine ⟨k, rest, ?_, fun h => hrest (mem_append_left _ h)⟩
    rw [← append_assoc, dropLast_concat]

/-- A step up undoes a step into something, or stands behind steps up alone. -/
theorem take (h : UpFirst steps) (step : Step) : UpFirst (take steps step) := by
  cases step with
  | into name => exact h.into name
  | up =>
    obtain ⟨k, rest, rfl, hrest⟩ := h
    cases rest using reverseRecOn with
    | nil =>
      rw [append_nil, take_up not_into_of_ups, ← replicate_succ']
      exact ⟨k + 1, [], (append_nil _).symm, not_mem_nil⟩
    | append_singleton rest last =>
      rw [mem_append, not_or] at hrest
      cases last with
      | up => exact absurd mem_cons_self hrest.2
      | into name =>
        rw [← append_assoc, take_up_into]
        exact ⟨k, rest, rfl, hrest.1⟩

theorem foldl_take (h : UpFirst steps) (more : List Step) : UpFirst (more.foldl ModulePath.take steps) := by
  induction more generalizing steps with
  | nil => exact h
  | cons step more ih => exact ih (h.take step)

theorem foldl_take_nil (h : UpFirst steps) : steps.foldl ModulePath.take [] = steps := by
  obtain ⟨k, rest, rfl, hrest⟩ := h
  have hups : (replicate k Step.up).foldl ModulePath.take [] = replicate k .up := by
    induction k with
    | zero => rfl
    | succ k ih => rw [replicate_succ', foldl_append, ih, foldl_cons, foldl_nil, take_up not_into_of_ups]
  induction rest using reverseRecOn with
  | nil => rw [append_nil, hups]
  | append_singleton rest last ih =>
    rw [mem_append, not_or] at hrest
    rw [← append_assoc, foldl_append, ih hrest.1]
    cases last with
    | up => exact absurd mem_cons_self hrest.2
    | into name => rfl

end UpFirst

/-! ### Paths -/

/-- A path that can be written, with nothing in it undone. -/
structure Normal (path : ModulePath) : Prop where
  proper : ∀ step ∈ path.steps, step.Proper
  upFirst : UpFirst path.steps

theorem proper_ofText (text : List Char) : ∀ step ∈ (ofText text).steps, step.Proper := by
  intro step hstep
  obtain ⟨name, hname, hstep⟩ := mem_filterMap.1 hstep
  exact Step.proper_of_ofName hstep (Text.notMem_of_mem_pieces name hname)

theorem normal_normal (h : ∀ step ∈ path.steps, step.Proper) : path.normal.Normal where
  proper step hstep := h step ((mem_of_mem_foldl hstep).resolve_left not_mem_nil)
  upFirst := UpFirst.foldl_take ⟨0, [], rfl, not_mem_nil⟩ path.steps

namespace Normal

theorem normal_eq (h : path.Normal) : path.normal = path := by
  rw [normal, h.upFirst.foldl_take_nil]

theorem pieces_text (h : path.Normal) :
    Text.pieces '/' path.text = (if path.absolute then [[]] else []) ++
      (if path.steps = [] then [[]] else path.steps.map Step.text) := by
  obtain ⟨absolute, steps⟩ := path
  have hsteps : Text.pieces '/' (['/'].intercalate (steps.map Step.text)) =
      if steps = [] then [[]] else steps.map Step.text := by
    split
    · next hnil =>
      subst hnil
      rfl
    · next hne =>
      refine Text.pieces_intercalate (forall_mem_map.2 fun step hstep => ?_) (by simpa using hne)
      exact (h.proper step hstep).notMem_text
  cases absolute with
  | false => exact hsteps
  | true =>
    rw [Text.pieces_eq_splitOn] at hsteps ⊢
    rw [text, if_pos rfl, singleton_append, splitOn_cons_eq_if_modifyHead, hsteps]
    rfl

theorem head_text (h : path.Normal) : path.text.head? = some '/' ↔ path.absolute = true := by
  obtain ⟨absolute, steps⟩ := path
  cases absolute with
  | true => simp [text]
  | false =>
    have hhead : (['/'].intercalate (steps.map Step.text)).head? ≠ some '/' := by
      cases steps with
      | nil => simp
      | cons step steps =>
        have hstep := h.proper step mem_cons_self
        obtain ⟨c, cs, hc⟩ := exists_cons_of_ne_nil hstep.text_ne_nil
        have hslash : c ≠ '/' := by
          intro heq
          exact hstep.notMem_text (hc ▸ heq ▸ mem_cons_self)
        cases steps with
        | nil => simpa [hc] using hslash
        | cons next steps => simpa [hc] using hslash
    simpa [text] using hhead

/-- What a normal path writes is read as it. -/
theorem ofText_text (h : path.Normal) : ofText path.text = path := by
  have hsteps : (path.steps.map Step.text).filterMap Step.ofName? = path.steps := by
    rw [filterMap_map]
    exact (filterMap_congr fun step hstep => (h.proper step hstep).ofName_text).trans filterMap_some
  have habsolute : decide (path.text.head? = some '/') = path.absolute := by
    rw [decide_eq_decide.2 h.head_text, Bool.decide_coe]
  obtain ⟨absolute, steps⟩ := path
  rw [ofText, habsolute, h.pieces_text, filterMap_append]
  dsimp only at hsteps ⊢
  by_cases hnil : steps = []
  · subst hnil
    cases absolute <;> rfl
  · rw [if_neg hnil, hsteps]
    cases absolute <;> rfl

theorem dot_notMem (h : path.Normal) : ['.'] ∉ Text.pieces '/' path.text := by
  rw [h.pieces_text, mem_append, not_or]
  constructor
  · split <;> simp
  · split
    · simp
    · intro hdot
      obtain ⟨step, hstep, htext⟩ := mem_map.1 hdot
      exact (h.proper step hstep).text_ne_dot htext

theorem withExtension (h : path.Normal) (hne : extension ≠ []) (hslash : '/' ∉ extension) :
    (path.withExtension extension).Normal := by
  unfold ModulePath.withExtension
  split
  · next name hlast =>
    split
    · exact h
    · have hname := h.proper _ (mem_of_getLast? hlast)
      refine ⟨forall_mem_append.2 ⟨fun step hstep => ?_, ?_⟩, h.upFirst.dropLast.into _⟩
      · exact h.proper step (dropLast_subset _ hstep)
      · exact forall_mem_singleton.2 (hname.extended hne hslash)
  · exact h

end Normal

/-- The last step of a path is a step up. -/
def EndsUp (path : ModulePath) : Prop := path.steps.getLast? = some .up

instance (path : ModulePath) : Decidable path.EndsUp := inferInstanceAs (Decidable (_ = _))

/-- An extension is added to what a path comes to, unless its last step is a step up. -/
theorem normal_withExtension (extension : List Char) (path : ModulePath) :
    (path.withExtension extension).normal =
      if path.EndsUp then path.normal else path.normal.withExtension extension := by
  obtain ⟨absolute, steps⟩ := path
  cases steps using reverseRecOn with
  | nil => rfl
  | append_singleton steps last =>
    cases last with
    | up => simp [EndsUp, ModulePath.withExtension]
    | into name =>
      by_cases hname : hasExtension name
      · simp [EndsUp, ModulePath.withExtension, normal, hname, take_into]
      · simp [EndsUp, ModulePath.withExtension, normal, hname, take_into]

/-- A character of a path that is no separator is one of a step. -/
theorem notMem_text (hc : c ≠ '/') (h : ∀ step ∈ path.steps, c ∉ step.text) : c ∉ path.text := by
  intro hmem
  rcases mem_append.1 hmem with habsolute | hsteps
  · split at habsolute
    · exact hc (mem_singleton.1 habsolute)
    · cases habsolute
  · rcases Text.mem_of_mem_intercalate hsteps with hslash | ⟨piece, hpiece, hmem⟩
    · exact hc hslash
    · obtain ⟨step, hstep, rfl⟩ := mem_map.1 hpiece
      exact h step hstep hmem

theorem notMem_withExtension (hdot : c ≠ '.') (hextension : c ∉ extension)
    (h : ∀ step ∈ path.steps, c ∉ step.text) :
    ∀ step ∈ (path.withExtension extension).steps, c ∉ step.text := by
  unfold withExtension
  split
  · next name hlast =>
    split
    · exact h
    · refine forall_mem_append.2 ⟨fun step hstep => h step (dropLast_subset _ hstep), ?_⟩
      have hname := h _ (mem_of_getLast? hlast)
      rw [Step.text] at hname
      simp [Step.text, hname, hdot, hextension]
  · exact h

/-! ### Names -/

/-- A name that its own text gives, without single dots, and with steps up at its front only. -/
structure Canonical (name : String) : Prop where
  fixed : (ofText name.toList).moduleName = name
  no_dot : ['.'] ∉ Text.pieces '/' name.toList
  upFirst : UpFirst (ofText name.toList).steps

theorem moduleName_of_notMem (h : '\\' ∉ path.normal.text) :
    path.moduleName = String.ofList path.normal.text := by
  refine congrArg String.ofList ((map_congr_left fun c hc => if_neg ?_).trans (map_id' _))
  rintro rfl
  exact h hc

theorem canonical_moduleName (h : path.normal.Normal) (hback : '\\' ∉ path.normal.text) :
    Canonical path.moduleName := by
  have htext : path.moduleName.toList = path.normal.text := by
    rw [moduleName_of_notMem hback, String.toList_ofList]
  have hread : ofText path.moduleName.toList = path.normal := by rw [htext, h.ofText_text]
  refine ⟨?_, htext ▸ h.dot_notMem, hread ▸ h.upFirst⟩
  rw [hread, moduleName, h.normal_eq]
  rfl

/-- The path that a specifier writes, from the directory of the importer's file on. -/
def written (specifier importer : String) : ModulePath :=
  (ofText importer.toList).parent.append (ofText specifier.toList).steps

theorem proper_written (specifier importer : String) :
    ∀ step ∈ (written specifier importer).steps, step.Proper := by
  refine forall_mem_append.2 ⟨fun step hstep => ?_, proper_ofText _⟩
  unfold parent at hstep
  split at hstep
  · cases hstep
  · exact proper_ofText _ step (dropLast_subset _ hstep)

theorem eq_moduleName_of_byPath {specifier importer name : String}
    (h : Resolver.byPath specifier importer = .ok name) :
    name = ((written specifier importer).withExtension Resolver.extension).moduleName := by
  unfold Resolver.byPath at h
  dsimp only at h
  split at h <;> cases h
  rfl

/-- What a specifier means is named canonically if there is no backslash in what its path comes to; and
specifiers whose paths come to the same, both or neither with a step up at the end, mean one name. -/
theorem byPath_canonical {specifier importer name : String}
    (h : Resolver.byPath specifier importer = .ok name) :
    ((∀ step ∈ (written specifier importer).normal.steps, '\\' ∉ step.text) → Canonical name) ∧
    ∀ {specifier' importer' name' : String}, Resolver.byPath specifier' importer' = .ok name' →
      (written specifier' importer').normal = (written specifier importer).normal →
      ((written specifier' importer').EndsUp ↔ (written specifier importer).EndsUp) → name' = name := by
  have hnormal := normal_normal (proper_written specifier importer)
  have hextended := normal_withExtension Resolver.extension (written specifier importer)
  rw [eq_moduleName_of_byPath h]
  constructor
  · intro hback
    refine canonical_moduleName ?_ (notMem_text (by decide) ?_)
    · rw [hextended]
      split
      · exact hnormal
      · exact hnormal.withExtension (by decide) (by decide)
    · rw [hextended]
      split
      · exact hback
      · exact notMem_withExtension (by decide) (by decide) hback
  · intro specifier' importer' name' h' hsame hends
    have hextended' := normal_withExtension Resolver.extension (written specifier' importer')
    rw [eq_moduleName_of_byPath h', moduleName, moduleName, hextended, hextended', hsame]
    simp only [hends]

end ModulePath

namespace FileNames

open ModulePath

/-- A step that is undone, and the way round through another directory. -/
theorem byPath_canonical_undone : ∃ name name',
    Resolver.byPath "./x/../lib" "models/main.gauge" = .ok name ∧
    Resolver.byPath "../models/./lib" "rates/main.gauge" = .ok name' ∧
    (∀ step ∈ (written "./x/../lib" "models/main.gauge").normal.steps, '\\' ∉ step.text) ∧
    (written "../models/./lib" "rates/main.gauge").normal =
      (written "./x/../lib" "models/main.gauge").normal ∧
    ((written "../models/./lib" "rates/main.gauge").EndsUp ↔
      (written "./x/../lib" "models/main.gauge").EndsUp) ∧
    Canonical name ∧ name' = name := by
  have h : Resolver.byPath "./x/../lib" "models/main.gauge" = .ok "models/lib.gauge" := by rfl
  have h' : Resolver.byPath "../models/./lib" "rates/main.gauge" = .ok "models/lib.gauge" := by rfl
  have hback : ∀ step ∈ (written "./x/../lib" "models/main.gauge").normal.steps, '\\' ∉ step.text := by
    decide +kernel
  have hsame : (written "../models/./lib" "rates/main.gauge").normal =
      (written "./x/../lib" "models/main.gauge").normal := by rfl
  have hends : (written "../models/./lib" "rates/main.gauge").EndsUp ↔
      (written "./x/../lib" "models/main.gauge").EndsUp := by decide +kernel
  obtain ⟨hcanonical, hone⟩ := byPath_canonical h
  exact ⟨_, _, h, h', hback, hsame, hends, hcanonical hback, hone h' hsame hends⟩

/-- A backslash makes a name that goes up behind a step into something; and a step up at the end keeps
the extension away from the same path that has it otherwise. -/
theorem byPath_not_canonical :
    Resolver.byPath "./a\\..\\b.gauge" "main.gauge" = .ok "a/../b.gauge" ∧ ¬ Canonical "a/../b.gauge" ∧
    Resolver.byPath "./lib/sub/.." "models/main.gauge" = .ok "models/lib" ∧
    Resolver.byPath "./lib" "models/main.gauge" = .ok "models/lib.gauge" ∧
    (written "./lib/sub/.." "models/main.gauge").normal =
      (written "./lib" "models/main.gauge").normal := by
  refine ⟨by rfl, fun h => ?_, by rfl, by rfl, by rfl⟩
  have hname : (ofText "a/../b.gauge".toList).moduleName = "b.gauge" := by rfl
  have hfixed := hname.symm.trans h.fixed
  revert hfixed
  decide

end FileNames

end Estimation
