import Estimation.Command.Settings

/-!
Layers of settings. The command line, a configuration file and the usual settings are merged field by
field, also where a group of the file stands for a whole group, since the fields that it leaves out
have their usual values. A sample count of zero is refused on the command line, but not in a file.
-/

namespace Estimation.Command

/-- What one place says of the settings of a run. It may leave values out, and sets flags or not. -/
structure Layer where
  sampleCount : Option Nat
  pointLength : Option Nat
  seed : Option (Option String)
  profile : Bool
  callDepth : Option Nat
  stackSize : Option Nat
  kind : Option RunnerKind
  threads : Option Nat
  timeout : Option (Option Nat)
  logEvents : Bool
  deriving DecidableEq

/-- A field that may be missing. -/
def given? {α : Type} (read : Json → Option α) (field : Option Json) : Option (Option α) :=
  Json.fieldOr? none (fun j => (read j).map some) field

/-- The fields of a group that may be missing or null. -/
def group? (names : List String) : Option Json → Option (List (Option Json))
  | none => some (names.map fun _ => none)
  | some .null => some (names.map fun _ => none)
  | some j => j.fields? names

namespace Layer

/-- What is said goes over what there is, field by field. -/
def onto (l : Layer) (s : RunSettings) : RunSettings where
  environment :=
    { sampleCount := l.sampleCount.getD s.environment.sampleCount
      pointLength := l.pointLength.getD s.environment.pointLength
      seed := l.seed.getD s.environment.seed
      profile := s.environment.profile || l.profile }
  limits := ⟨l.callDepth.getD s.limits.callDepth, l.stackSize.getD s.limits.stackSize⟩
  runner :=
    ⟨l.kind.getD s.runner.kind, l.threads.getD s.runner.threads, l.timeout.getD s.runner.timeout⟩
  logEvents := s.logEvents || l.logEvents

/-- What the groups of a configuration file say, where they are there. -/
def ofFile (file : Option ConfigFile) : Layer :=
  let environment := file.bind ConfigFile.environment
  let limits := file.bind ConfigFile.limits
  let runner := file.bind ConfigFile.runner
  { sampleCount := environment.map Environment.sampleCount
    pointLength := environment.map Environment.pointLength
    seed := environment.map Environment.seed
    profile := environment.any Environment.profile
    callDepth := limits.map Limits.callDepth
    stackSize := limits.map Limits.stackSize
    kind := runner.map RunnerSettings.kind
    threads := runner.map RunnerSettings.threads
    timeout := runner.map RunnerSettings.timeout
    logEvents := (file.bind ConfigFile.logEvents).getD false }

/-- What the text of a configuration file says, field by field. -/
def ofJson? (j : Json) : Option Layer := do
  let [_, environment, limits, runner, logEvents, _] ←
    j.fields? ["entry", "environment", "limits", "runner", "logEvents", "log"] | none
  let [samples, points, seed, profile] ← group? Environment.fieldNames environment | none
  let [depth, size] ← group? ["maxCallDepth", "maxStackSize"] limits | none
  let [kind, threads, timeout] ← group? ["kind", "threads", "timeoutMs"] runner | none
  return {
    sampleCount := ← given? Json.natural? samples
    pointLength := ← given? Json.natural? points
    seed := ← given? (Json.nullable? Json.string?) seed
    profile := (← given? Json.bool? profile).getD false
    callDepth := ← given? Json.natural? depth
    stackSize := ← given? Json.natural? size
    kind := ← given? RunnerKind.ofJson? kind
    threads := ← given? Json.natural? threads
    timeout := ← given? (Json.nullable? Json.natural?) timeout
    logEvents := (← optional? Json.bool? logEvents).getD false }

end Layer

/-- What the command line says, if it knows the runner that it names. -/
def Options.layer? (o : Options) : Option Layer := do
  return {
    sampleCount := o.sampleCount
    pointLength := none
    seed := o.seed.map some
    profile := o.profile
    callDepth := none
    stackSize := none
    kind := ← o.runner.mapM RunnerKind.ofName?
    threads := o.runnerThreads
    timeout := o.timeout.map some
    logEvents := o.logEvents }

/-! ### Groups -/

theorem fieldOr_eq_some {α : Type} {usual value : α} {read : Json → Option α} {field : Option Json}
    (h : Json.fieldOr? usual read field = some value) :
    ∃ g, given? read field = some g ∧ value = g.getD usual := by
  cases field with
  | none => exact ⟨none, rfl, (Option.some.inj h).symm⟩
  | some j => exact ⟨some value, by simpa [given?, Json.fieldOr?] using h, rfl⟩

/-- A group is missing or null, or it is read by its own reader, from its own fields. -/
theorem optional_eq_some {α : Type} {read : Json → Option α} {field : Option Json} {value : Option α}
    (h : optional? read field = some value) :
    ((∀ names, group? names field = some (names.map fun _ => none)) ∧ value = none) ∨
      ∃ j x, (∀ names, group? names field = j.fields? names) ∧ read j = some x ∧ value = some x := by
  cases field with
  | none => exact .inl ⟨fun _ => rfl, (Option.some.inj h).symm⟩
  | some j =>
    cases j with
    | null => exact .inl ⟨fun _ => rfl, (Option.some.inj h).symm⟩
    | _ =>
      obtain ⟨x, hx, hvalue⟩ := Option.map_eq_some_iff.1 h
      exact .inr ⟨_, x, fun _ => rfl, hx, hvalue.symm⟩

theorem environment_of_json {field : Option Json} {e : Option Environment}
    (h : optional? Environment.ofJson? field = some e) :
    ∃ samples points seed profile,
      group? Environment.fieldNames field = some [samples, points, seed, profile] ∧
      ∃ n k t b, given? Json.natural? samples = some n ∧ given? Json.natural? points = some k ∧
        given? (Json.nullable? Json.string?) seed = some t ∧ given? Json.bool? profile = some b ∧
        e.getD .default = ⟨n.getD Environment.default.sampleCount,
          k.getD Environment.default.pointLength, t.getD Environment.default.seed, b.getD false⟩ := by
  rcases optional_eq_some h with ⟨hgroup, rfl⟩ | ⟨j, x, hgroup, hx, rfl⟩
  · exact ⟨_, _, _, _, hgroup _, none, none, none, none, rfl, rfl, rfl, rfl, rfl⟩
  · rw [hgroup]
    simp only [Environment.ofJson?, Option.bind_eq_bind, Option.bind_eq_some_iff] at hx
    obtain ⟨fields, hfields, hx⟩ := hx
    split at hx
    · next samples points seed profile =>
      simp only [Option.bind_eq_some_iff, Option.pure_def, Option.some.injEq] at hx
      obtain ⟨_, hsamples, _, hpoints, _, hseed, _, hprofile, rfl⟩ := hx
      obtain ⟨n, hn, rfl⟩ := fieldOr_eq_some hsamples
      obtain ⟨k, hk, rfl⟩ := fieldOr_eq_some hpoints
      obtain ⟨t, ht, rfl⟩ := fieldOr_eq_some hseed
      obtain ⟨b, hb, rfl⟩ := fieldOr_eq_some hprofile
      exact ⟨_, _, _, _, hfields, n, k, t, b, hn, hk, ht, hb, rfl⟩
    · cases hx

theorem limits_of_json {field : Option Json} {l : Option Limits}
    (h : optional? Limits.ofJson? field = some l) :
    ∃ depth size, group? ["maxCallDepth", "maxStackSize"] field = some [depth, size] ∧
      ∃ d z, given? Json.natural? depth = some d ∧ given? Json.natural? size = some z ∧
        l.getD .default = ⟨d.getD Limits.default.callDepth, z.getD Limits.default.stackSize⟩ := by
  rcases optional_eq_some h with ⟨hgroup, rfl⟩ | ⟨j, x, hgroup, hx, rfl⟩
  · exact ⟨_, _, hgroup _, none, none, rfl, rfl, rfl⟩
  · rw [hgroup]
    simp only [Limits.ofJson?, Option.bind_eq_bind, Option.bind_eq_some_iff] at hx
    obtain ⟨fields, hfields, hx⟩ := hx
    split at hx
    · next depth size =>
      simp only [Option.bind_eq_some_iff, Option.pure_def, Option.some.injEq] at hx
      obtain ⟨_, hdepth, _, hsize, rfl⟩ := hx
      obtain ⟨d, hd, rfl⟩ := fieldOr_eq_some hdepth
      obtain ⟨z, hz, rfl⟩ := fieldOr_eq_some hsize
      exact ⟨_, _, hfields, d, z, hd, hz, rfl⟩
    · cases hx

theorem runner_of_json {field : Option Json} {r : Option RunnerSettings}
    (h : optional? RunnerSettings.ofJson? field = some r) :
    ∃ kind threads timeout,
      group? ["kind", "threads", "timeoutMs"] field = some [kind, threads, timeout] ∧
      ∃ k n t, given? RunnerKind.ofJson? kind = some k ∧ given? Json.natural? threads = some n ∧
        given? (Json.nullable? Json.natural?) timeout = some t ∧
        r.getD .default = ⟨k.getD RunnerSettings.default.kind,
          n.getD RunnerSettings.default.threads, t.getD RunnerSettings.default.timeout⟩ := by
  rcases optional_eq_some h with ⟨hgroup, rfl⟩ | ⟨j, x, hgroup, hx, rfl⟩
  · exact ⟨_, _, _, hgroup _, none, none, none, rfl, rfl, rfl, rfl⟩
  · rw [hgroup]
    simp only [RunnerSettings.ofJson?, Option.bind_eq_bind, Option.bind_eq_some_iff] at hx
    obtain ⟨fields, hfields, hx⟩ := hx
    split at hx
    · next kind threads timeout =>
      simp only [Option.bind_eq_some_iff, Option.pure_def, Option.some.injEq] at hx
      obtain ⟨_, hkind, _, hthreads, _, htimeout, rfl⟩ := hx
      obtain ⟨k, hk, rfl⟩ := fieldOr_eq_some hkind
      obtain ⟨n, hn, rfl⟩ := fieldOr_eq_some hthreads
      obtain ⟨t, ht, rfl⟩ := fieldOr_eq_some htimeout
      exact ⟨_, _, _, hfields, k, n, t, hk, hn, ht, rfl⟩
    · cases hx

/-! ### Files -/

theorem Layer.ofFile_onto (file : Option ConfigFile) :
    (Layer.ofFile file).onto .default = (file.map ConfigFile.settings).getD .default := by
  cases file with
  | none => rfl
  | some f =>
    obtain ⟨entry, environment, limits, runner, logEvents, log⟩ := f
    simp only [onto, ofFile, ConfigFile.settings, RunSettings.default, Option.bind_some, Option.map_some,
      Option.getD_some]
    congr 1
    · cases environment with
      | none => rfl
      | some e => simp [Environment.default]
    · cases limits <;> simp
    · cases runner <;> simp

/-- A group of a file stands for a whole group of settings, but what its text says counts field by
field. -/
theorem Layer.ofJson_onto {j : Json} {file : ConfigFile} (h : ConfigFile.ofJson? j = some file) :
    ∃ said, Layer.ofJson? j = some said ∧ said.onto .default = file.settings := by
  simp only [ConfigFile.ofJson?, Option.bind_eq_bind, Option.bind_eq_some_iff] at h
  obtain ⟨fields, hfields, h⟩ := h
  split at h
  · next entry environment limits runner logEvents log =>
    simp only [Option.bind_eq_some_iff, Option.pure_def, Option.some.injEq] at h
    obtain ⟨_, -, _, henvironment, _, hlimits, _, hrunner, b, hlogEvents, _, -, rfl⟩ := h
    obtain ⟨_, _, _, _, hegroup, n, k, t, p, hn, hk, ht, hp, heq⟩ := environment_of_json henvironment
    obtain ⟨_, _, hlgroup, d, z, hd, hz, hleq⟩ := limits_of_json hlimits
    obtain ⟨_, _, _, hrgroup, c, m, w, hc, hm, hw, hreq⟩ := runner_of_json hrunner
    refine ⟨⟨n, k, t, p.getD false, d, z, c, m, w, b.getD false⟩, ?_, ?_⟩
    · simp [ofJson?, hfields, hegroup, hlgroup, hrgroup, hn, hk, ht, hp, hd, hz, hc, hm, hw,
        hlogEvents]
    · simp only [ConfigFile.settings, heq, hleq, hreq]
      rfl
  · cases h

namespace Options

/-! ### Merging -/

theorem runnerKind_eq (o : Options) (usual : RunnerKind) :
    o.runnerKind usual =
      match o.runner.mapM RunnerKind.ofName? with
      | some k => .ok (k.getD usual)
      | none => .error (.unknownRunner (o.runner.getD "")) := by
  unfold runnerKind
  cases o.runner with
  | none => rfl
  | some name => cases h : RunnerKind.ofName? name <;> simp [h]

/-- Settings are those of the file, or the usual ones, with what the command line says over them. -/
theorem settings_eq (o : Options) (file : Option ConfigFile) :
    o.settings file =
      if o.sampleCount = some 0 then .error .zeroSamples
      else
        match o.layer? with
        | some given => .ok (given.onto ((file.map ConfigFile.settings).getD .default))
        | none => .error (.unknownRunner (o.runner.getD "")) := by
  simp only [settings, layer?, runnerKind_eq]
  split
  · rfl
  · cases o.runner.mapM RunnerKind.ofName? with
    | none => rfl
    | some k =>
      have hor {α : Type} (a : Option α) (b : Option α) : (a.map some).getD b = a.or b := by
        cases a <;> rfl
      simp only [Option.bind_eq_bind, Option.bind_some, Option.pure_def, Layer.onto, hor]
      rfl

theorem sampleCount_of_layer {o : Options} {given : Layer} (h : o.layer? = some given) :
    given.sampleCount = o.sampleCount := by
  obtain ⟨k, -, hk⟩ := Option.bind_eq_some_iff.1 h
  exact Option.some.inj hk ▸ rfl

/-- The settings of a run are field by field what the command line says, else what the file says, be
it taken by groups or by its text, and else the usual ones; flags are set where one of the two sets
them. The command line cannot ask for no samples, but a file can, if the command line does not
mention them. -/
theorem settings_layered (o : Options) (file : Option ConfigFile) :
    (o.settings file = .error .zeroSamples ↔ o.sampleCount = some 0) ∧
      ∀ s, o.settings file = .ok s →
        ∃ given, o.layer? = some given ∧ s = given.onto ((Layer.ofFile file).onto .default) ∧
          (∀ j f, file = some f → ConfigFile.ofJson? j = some f →
            ∃ said, Layer.ofJson? j = some said ∧ s = given.onto (said.onto .default)) ∧
          (s.environment.sampleCount = 0 ↔
            o.sampleCount = none ∧ (Layer.ofFile file).sampleCount = some 0) := by
  rw [settings_eq]
  split
  · next hzero => exact ⟨iff_of_true rfl hzero, nofun⟩
  · next hcount =>
    split
    · next given hgiven =>
      refine ⟨iff_of_false nofun hcount, fun s hs => ?_⟩
      obtain rfl := Except.ok.inj hs
      refine ⟨given, hgiven, by rw [Layer.ofFile_onto], fun j f hfile hf => ?_, ?_⟩
      · obtain ⟨said, hsaid, honto⟩ := Layer.ofJson_onto hf
        exact ⟨said, hsaid, by rw [honto, hfile]; rfl⟩
      · rw [← Layer.ofFile_onto, Layer.onto, Layer.onto, sampleCount_of_layer hgiven]
        rcases hn : o.sampleCount with _ | n
        · rcases (Layer.ofFile file).sampleCount with _ | m <;>
            simp [RunSettings.default, Environment.default]
        · have : n ≠ 0 := fun h => hcount (by rw [hn, h])
          simpa using this
    · exact ⟨iff_of_false nofun hcount, nofun⟩

end Options

namespace Layers

def config : Json :=
  .object [("environment", .object [("seed", .string "filed"), ("profile", .bool true)]),
    ("runner", .object [("kind", .string "thread")])]

def configured (sampleCount : Nat) : ConfigFile :=
  ⟨none, some ⟨sampleCount, 1000, some "filed", true⟩, none, some ⟨.thread, 2, none⟩, none, none⟩

def seeded : Options :=
  ⟨none, none, some "c.json", none, some "given", none, none, none, none, none,
    false, false, false, false, true⟩

def merged (sampleCount : Nat) : RunSettings :=
  ⟨⟨sampleCount, 1000, some "given", true⟩, .default, ⟨.thread, 2, none⟩, true⟩

theorem settings_layered_seeded :
    ConfigFile.ofJson? config = some (configured 1000) ∧
      seeded.settings (some (configured 1000)) = .ok (merged 1000) ∧
      ∃ given said, seeded.layer? = some given ∧ Layer.ofJson? config = some said ∧
        merged 1000 = given.onto (said.onto .default) ∧ (merged 1000).environment.sampleCount ≠ 0 := by
  have hfile : ConfigFile.ofJson? config = some (configured 1000) := by decide +kernel
  have hsettings : seeded.settings (some (configured 1000)) = .ok (merged 1000) := by rfl
  obtain ⟨given, hgiven, -, htext, hzero⟩ :=
    (Options.settings_layered seeded (some (configured 1000))).2 (merged 1000) hsettings
  obtain ⟨said, hsaid, heq⟩ := htext config _ rfl hfile
  exact ⟨hfile, hsettings, given, said, hgiven, hsaid, heq, fun h => absurd (hzero.1 h).2 (by decide)⟩

/-- A file that asks for no samples is followed. -/
theorem settings_without_samples :
    ¬ ∀ (o : Options) (file : Option ConfigFile) (s : RunSettings), o.settings file = .ok s →
      1 ≤ s.environment.sampleCount := fun h =>
  absurd (h seeded (some (configured 0)) (merged 0) (by rfl)) (by decide)

end Layers

end Estimation.Command
