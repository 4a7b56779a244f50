import Estimation.Proofs.Paths.Values
import Estimation.Proofs.Recomputation
import Estimation.Proofs.Repetition

/-!
What happens while a project works: modules are run, and entries are written down. Whatever is asked
for, and whenever loads end, no output is made twice; and what is run is told at once, under the identity
of its output.
-/

namespace Estimation

open List

/-- A module that is run, with what it is run with. -/
structure Execution where
  name : String
  m : Module
  environment : Environment
  imports : List (Import × ImportOutcome)

namespace Execution

def id (x : Execution) : OutputId := (x.m.outputKey x.name x.environment x.imports).id

/-- The code is a program, and all imports are there and have not failed. -/
structure Founded (s : Sources) (x : Execution) : Prop where
  program : x.m.program.isOk
  imports : x.imports.map Prod.fst = s.knownImports x.name x.m
  ready : ∀ e ∈ x.imports, ∃ o, e.2 = .ready o ∧ o.isOk

end Execution

inductive Occurrence where
  | ran (x : Execution)
  | noted (entry : LogEntry)

namespace Occurrence

def execution? : Occurrence → Option Execution
  | ran x => some x
  | noted _ => none

def entry? : Occurrence → Option LogEntry
  | ran _ => none
  | noted entry => some entry

def committed? : Occurrence → Option OutputId
  | noted (.notice (.committed _ id _)) => some id
  | _ => none

def ofOutput (o : Output) : Occurrence := noted (.notice (.committed o.name o.id o.isOk))

end Occurrence

def executions (record : List Occurrence) : List Execution := record.filterMap Occurrence.execution?

def committed (record : List Occurrence) : List OutputId := record.filterMap Occurrence.committed?

section

variable {record more before after : List Occurrence} {x : Execution}

@[simp] theorem executions_append : executions (record ++ more) = executions record ++ executions more :=
  filterMap_append

@[simp] theorem committed_append : committed (record ++ more) = committed record ++ committed more :=
  filterMap_append

/-- Each run is told at once. -/
inductive Followed : List Occurrence → Prop
  | nil : Followed []
  | noted {entry record} : Followed record → Followed (.noted entry :: record)
  | ran {x ok record} : Followed record →
      Followed (.ran x :: .noted (.notice (.committed x.name x.id ok)) :: record)

namespace Followed

theorem append (h : Followed record) (h' : Followed more) : Followed (record ++ more) := by
  induction h with
  | nil => exact h'
  | noted _ ih => exact ih.noted
  | ran _ ih => exact ih.ran

theorem sublist (h : Followed record) : (executions record).map Execution.id <+ committed record := by
  induction h with
  | nil => exact .slnil
  | @noted entry record _ ih =>
    refine ih.trans ?_
    change filterMap _ record <+ filterMap _ (_ :: record)
    rw [filterMap_cons]
    split
    · exact .refl _
    · exact sublist_cons_self _ _
  | ran _ ih => exact ih.cons_cons _

theorem next (h : Followed record) (hrecord : record = before ++ .ran x :: after) :
    ∃ ok rest, after = .noted (.notice (.committed x.name x.id ok)) :: rest := by
  induction h generalizing before with
  | nil => exact absurd hrecord (by simp)
  | noted _ ih =>
    cases before with
    | nil => cases hrecord
    | cons _ before => exact ih (cons.inj hrecord).2
  | ran _ ih =>
    -- a run and what is told of it stand together: the next run is this one, or behind both
    match before, hrecord with
    | [], hrecord =>
      cases hrecord
      exact ⟨_, _, rfl⟩
    | [_], hrecord => cases hrecord
    | _ :: _ :: before, hrecord => exact ih (cons.inj (cons.inj hrecord).2).2

theorem count (h : Followed record) (honce : (committed record).Nodup)
    (hrecord : record = before ++ .ran x :: after) : (committed after).count x.id = 1 := by
  obtain ⟨ok, rest, rfl⟩ := h.next hrecord
  rw [hrecord, committed_append] at honce
  refine count_eq_one_of_mem (nodup_append.1 honce).2.1 ?_
  exact mem_cons_self

end Followed

end

namespace Project

section

variable (answer : List String → String → Module → Work Poll)
  (record : List String → String → Module → Project → List Occurrence)

def gatherRecord (chain : List String) (importer : String) : List Import → Project → List Occurrence
  | [], _ => []
  | i :: rest, p =>
    match (resolveImport importer i).run p with
    | (.found target m, p) =>
      if target ∈ chain then []
      else
        record chain target m p ++
          gatherRecord chain importer rest ((answer chain target m).run p).2
    | (_, p) => gatherRecord chain importer rest p

end

/-- An output that is not there is told, after what it takes to make it. -/
def storedRecord (o : Output) (making : List Occurrence) (p : Project) : List Occurrence :=
  match p.store.outputs.get? o.id with
  | some _ => []
  | none => making ++ [.ofOutput o]

/-- What happens in `produce`. -/
def produceRecord (name : String) (m : Module) (imports : List (Import × ImportOutcome)) (p : Project) :
    List Occurrence :=
  if (m.runnable imports).isOk then [.ran ⟨name, m, p.environment, imports⟩] else []

/-- What happens in `compute`. -/
def computeRecord : Nat → List String → String → Module → Project → List Occurrence
  | 0, _, _, _, _ => []
  | depth + 1, chain, name, m, p =>
    let imports := p.sources.knownImports name m
    gatherRecord (compute depth) (computeRecord depth) (chain ++ [name]) name imports p ++
      match (gather (compute depth) (chain ++ [name]) name imports).run p with
      | (.pending, _) => []
      | (.settled outcomes, q) =>
        storedRecord ((produce name m outcomes).run q).1 (produceRecord name m outcomes q) q
      | (.cyclic i cycle, q) =>
        .noted (.cyclicImport cycle) ::
          storedRecord (.cyclic name m p.environment i (.graph (.cycle cycle))) [] q

def pollRecord (name : String) (p : Project) : List Occurrence :=
  match p.sources.headModule? name with
  | some m => computeRecord p.sources.reach [] name m p
  | none => []

/-- What is told of a load that ends. -/
def loadNotice (key : LoadKey) : Except LinkError Module → Notice
  | .ok _ => .loaded key.name
  | .error e => .loadFailed key.name e

/-- What happens from one state to another while a project is only asked for outputs, gets environments,
and loads end. -/
inductive Happens (p : Project) : List Occurrence → Project → Prop
  | refl : Happens p [] p
  | poll {record q} (name) : Happens p record q →
      Happens p (record ++ pollRecord name q) ((Project.poll name).run q).2
  | setEnvironment {record q} (e) : Happens p record q → Happens p record (q.setEnvironment e)
  | startLoad {record q} (key) : Happens p record q →
      Happens p record ((Project.startLoad key []).run q).2
  | finishLoad {record q} (key result) : Happens p record q →
      Happens p (record ++ [.noted (.notice (loadNotice key result))]) (q.finishLoad key result)

/-- What can be said of all that happens from one state to another. -/
structure Recorded (p : Project) (record : List Occurrence) (q : Project) : Prop where
  runs : q.runs = p.runs + (executions record).length
  log : q.log = p.log ++ record.filterMap Occurrence.entry?
  kept : ∀ id, (p.store.outputs.get? id).isSome → (q.store.outputs.get? id).isSome
  fresh : ∀ id ∈ committed record, p.store.outputs.get? id = none ∧ (q.store.outputs.get? id).isSome
  once : (committed record).Nodup
  followed : Followed record
  imports : ∀ name m, q.sources.knownImports name m = p.sources.knownImports name m
  founded : ∀ x ∈ executions record, x.Founded p.sources

variable {p q r : Project} {record more : List Occurrence} {name : String} {m : Module} {o : Output}

namespace Recorded

theorem quiet (hruns : q.runs = p.runs) (hlog : q.log = p.log) (houtputs : q.store.outputs = p.store.outputs)
    (himports : ∀ name m, q.sources.knownImports name m = p.sources.knownImports name m) :
    Recorded p [] q where
  runs := hruns
  log := hlog.trans (append_nil _).symm
  kept _ h := houtputs ▸ h
  fresh _ h := absurd h not_mem_nil
  once := nodup_nil
  followed := .nil
  imports := himports
  founded _ h := absurd h not_mem_nil

theorem refl (p : Project) : Recorded p [] p := quiet rfl rfl rfl fun _ _ => rfl

theorem trans (h : Recorded p record q) (h' : Recorded q more r) : Recorded p (record ++ more) r where
  runs := by rw [h'.runs, h.runs, executions_append, length_append, Nat.add_assoc]
  log := by rw [h'.log, h.log, filterMap_append, append_assoc]
  kept id hid := h'.kept id (h.kept id hid)
  fresh id hid := by
    rw [committed_append] at hid
    rcases mem_append.1 hid with hid | hid
    · exact (h.fresh id hid).imp_right (h'.kept id)
    · -- nothing is taken away, so what is told later was not there before either
      refine (h'.fresh id hid).imp_left fun hnone => ?_
      by_contra hsome
      have hkept := h.kept id (Option.isSome_iff_ne_none.2 hsome)
      rw [hnone] at hkept
      cases hkept
  once := by
    rw [committed_append]
    refine nodup_append.2 ⟨h.once, h'.once, fun id hid id' hid' heq => ?_⟩
    have hthere := (h.fresh id hid).2
    rw [heq, (h'.fresh id' hid').1] at hthere
    cases hthere
  followed := h.followed.append h'.followed
  imports name m := (h'.imports name m).trans (h.imports name m)
  founded x hx := by
    rw [executions_append] at hx
    rcases mem_append.1 hx with hx | hx
    · exact h.founded x hx
    · obtain ⟨hprogram, himports, hready⟩ := h'.founded x hx
      exact ⟨hprogram, himports.trans (h.imports _ _), hready⟩

theorem trans_quiet (h : Recorded p record q) (h' : Recorded q [] r) : Recorded p record r := by
  rw [← append_nil record]
  exact h.trans h'

theorem note (entry : LogEntry) (hentry : (Occurrence.noted entry).committed? = none) :
    Recorded p [.noted entry] (p.note entry) where
  runs := rfl
  log := rfl
  kept _ h := h
  fresh id h := by simp [committed, hentry] at h
  once := by simp [committed, hentry]
  followed := .noted .nil
  imports _ _ := rfl
  founded _ h := absurd h not_mem_nil

theorem commit (hnone : p.store.outputs.get? o.id = none) :
    Recorded p [.ofOutput o] ((Project.commit o).run p).2 where
  runs := rfl
  log := rfl
  kept id h := by
    change ((p.store.outputs.set o.id o).get? id).isSome
    rw [Table.get?_set]
    split
    · rfl
    · exact h
  fresh id h := by
    obtain rfl := mem_singleton.1 h
    refine ⟨hnone, ?_⟩
    change ((p.store.outputs.set o.id o).get? o.id).isSome
    rw [Table.get?_set, if_pos rfl]
    rfl
  once := nodup_singleton _
  followed := .noted .nil
  imports _ _ := rfl
  founded _ h := absurd h not_mem_nil

/-- A run by itself changes nothing but the count; it is told when its output is stored. -/
theorem ran {x : Execution} (hx : x.Founded p.sources) (hid : o.id = x.id) (hname : o.name = x.name)
    (h : Recorded { p with runs := p.runs + 1 } [.ofOutput o] q) :
    Recorded p [.ran x, .ofOutput o] q where
  runs := h.runs.trans (by rfl)
  log := h.log
  kept := h.kept
  fresh := h.fresh
  once := h.once
  followed := by
    rw [Occurrence.ofOutput, hid, hname]
    exact .ran .nil
  imports := h.imports
  founded y hy := by
    obtain rfl := mem_singleton.1 hy
    exact hx

theorem stored {e : OutputId} {make : Work Output} {making : List Occurrence}
    (hid : (make.run p).1.id = e)
    (hmake : p.store.outputs.get? e = none →
      Recorded p (making ++ [.ofOutput (make.run p).1])
        ((Project.commit (make.run p).1).run (make.run p).2).2) :
    Recorded p (storedRecord (make.run p).1 making p) ((Project.stored e make).run p).2 := by
  rw [storedRecord, hid]
  cases hget : p.store.outputs.get? e with
  | some o =>
    rw [stored_of_get? hget]
    exact .refl p
  | none =>
    rw [stored_of_none hget]
    exact hmake hget

theorem produced {outcomes : List (Import × ImportOutcome)} {e : Environment} (he : p.environment = e)
    (himports : outcomes.map Prod.fst = p.sources.knownImports name m) :
    Recorded p (storedRecord ((produce name m outcomes).run p).1 (produceRecord name m outcomes p) p)
      ((Project.stored (m.outputKey name e outcomes).id (produce name m outcomes)).run p).2 := by
  refine .stored (by rw [produce_id, he]) fun hnone => ?_
  rw [← he] at hnone
  change Recorded p _ ((Project.commit ((produce name m outcomes).run p).1).run
    (if (m.runnable outcomes).isOk then { p with runs := p.runs + 1 } else p)).2
  rw [produceRecord]
  split
  · next hrunnable =>
    cases hr : m.runnable outcomes with
    | error error =>
      rw [hr] at hrunnable
      cases hrunnable
    | ok r =>
      obtain ⟨hprogram, hgather⟩ := Module.runnable_eq_ok hr
      have hx : (⟨name, m, p.environment, outcomes⟩ : Execution).Founded p.sources :=
        ⟨by rw [hprogram]; rfl, himports, fun _ he => Module.ready_of_gather hgather he⟩
      exact .ran hx rfl rfl (.commit hnone)
  · exact .commit hnone

theorem failed (cycle : List String) :
    Recorded p (.noted (.cyclicImport cycle) :: storedRecord o [] p)
      ((Project.stored o.id (pure o)).run (p.note (.cyclicImport cycle))).2 := by
  have hstored := @stored (p.note (.cyclicImport cycle)) o.id (pure o) [] rfl .commit
  exact (note (.cyclicImport cycle) rfl).trans hstored

end Recorded

theorem resolveImport_log (importer : String) (i : Import) :
    ((resolveImport importer i).run p).2.log = p.log := by
  generalize hresolved : (resolveImport importer i).run p = resolved
  obtain ⟨found, q⟩ := resolved
  cases Reads.of_run hresolved with
  | settles _ =>
    change (if _ then _ else _ : Project).log = _
    split <;> rfl
  | waits _ _ _ =>
    change (if _ then _ else _ : Project).log = _
    split <;> rfl

theorem Recorded.resolved (importer : String) (i : Import) :
    Recorded p [] ((resolveImport importer i).run p).2 := by
  obtain ⟨hquiet, -, -, -, -⟩ := resolveImport_resolves (p := p) importer i
  exact .quiet hquiet.runs (resolveImport_log importer i) hquiet.outputs fun _ _ => by rw [hquiet.sources]

section

variable {answer : List String → String → Module → Work Poll}
  {records : List String → String → Module → Project → List Occurrence}

theorem gather_recorded
    (h : ∀ chain target m p, Recorded p (records chain target m p) ((answer chain target m).run p).2)
    (chain : List String) (importer : String) (is : List Import) (p : Project) :
    Recorded p (gatherRecord answer records chain importer is p)
      ((gather answer chain importer is).run p).2 := by
  induction is generalizing p with
  | nil => exact .refl p
  | cons i rest ih =>
    have hq := Recorded.resolved (p := p) importer i
    rw [gatherRecord, gather_cons]
    generalize (resolveImport importer i).run p = resolved at hq ⊢
    obtain ⟨found, q⟩ := resolved
    cases found with
    | failed e => exact hq.trans (ih q)
    | pending => exact hq.trans (ih q)
    | found target m =>
      dsimp only
      split
      · exact hq
      · have hr := hq.trans (h chain target m q)
        generalize (answer chain target m).run q = answered at hr ⊢
        obtain ⟨poll, r⟩ := answered
        cases poll with
        | ready o => exact hr.trans (ih r)
        | pending => exact hr.trans (ih r)

end

theorem compute_recorded (depth : Nat) (chain : List String) (name : String) (m : Module) (p : Project) :
    Recorded p (computeRecord depth chain name m p) ((compute depth chain name m).run p).2 := by
  induction depth generalizing chain name m p with
  | zero => exact .refl p
  | succ depth ih =>
    have hgathered := gather_recorded ih (chain ++ [name]) name (p.sources.knownImports name m) p
    have hlater : Later p ((gather (compute depth) (chain ++ [name]) name
        (p.sources.knownImports name m)).run p).2 :=
      (Later.preserved p).gather (fun q hq => hq.sources)
        (fun chain target m q hq => hq.trans (compute_later depth chain target m q)) _ _ _
        (fun hpins _ => Sources.pin_of_mem_knownImports hpins) (.refl p)
    have himports := @imports_of_gather p (compute depth) (chain ++ [name]) name
      (p.sources.knownImports name m)
    rw [compute_succ, computeRecord]
    generalize (gather _ _ _ _).run p = gathered at hgathered hlater himports ⊢
    obtain ⟨g, q⟩ := gathered
    have henv : q.environment = p.environment := congrArg Sources.environment hlater.sources
    cases g with
    | pending => exact hgathered.trans (.refl q)
    | settled outcomes =>
      refine hgathered.trans (.produced henv ?_)
      rw [himports rfl, hlater.sources]
    | cyclic i cycle => exact hgathered.trans (.failed cycle)

theorem poll_recorded (name : String) (p : Project) :
    Recorded p (pollRecord name p) ((poll name).run p).2 := by
  rw [pollRecord]
  cases hm : p.sources.headModule? name with
  | none =>
    rw [poll_of_none hm]
    exact .refl p
  | some m =>
    rw [poll_of_head hm]
    exact compute_recorded _ [] name m p

theorem Recorded.startLoad (key : LoadKey) : Recorded p [] ((Project.startLoad key []).run p).2 := by
  have hquiet := Quiet.startLoad_nil (p := p) key
  have hlog : ((Project.startLoad key []).run p).2.log = p.log := by
    change (if _ then _ else _ : Project).log = _
    split <;> rfl
  exact .quiet hquiet.runs hlog hquiet.outputs fun _ _ => by rw [hquiet.sources]

theorem Recorded.finishLoad (key : LoadKey) (result : Except LinkError Module) :
    Recorded p [.noted (.notice (loadNotice key result))] (p.finishLoad key result) := by
  let ended := p.apply [.loadFinished key result]
  have hended : Recorded p [] ended := .quiet rfl rfl rfl fun _ _ => rfl
  have hnoted := hended.trans (note (.notice (loadNotice key result)) (by cases result <;> rfl))
  refine hnoted.trans_quiet (.quiet rfl ?_ rfl fun _ _ => rfl)
  cases result <;> rfl

theorem Happens.recorded (h : Happens p record q) : Recorded p record q := by
  induction h with
  | refl => exact .refl p
  | poll name _ ih => exact ih.trans (poll_recorded name _)
  | setEnvironment e _ ih => exact ih.trans_quiet (.quiet rfl rfl rfl fun _ _ => rfl)
  | startLoad key _ ih => exact ih.trans_quiet (.startLoad key)
  | finishLoad key result _ ih => exact ih.trans (.finishLoad key result)

/-- Requests that take several rounds are made of others, and of loads that end. -/
theorem Happens.steady (p : Project) : Steady fun q => ∃ record, Happens p record q where
  poll name := by
    rintro q ⟨record, h⟩
    exact ⟨_, h.poll name⟩
  startLoad key := by
    rintro q ⟨record, h⟩
    exact ⟨_, h.startLoad key⟩
  finishLoad key result := by
    rintro q - ⟨record, h⟩
    exact ⟨_, h.finishLoad key result⟩

/-- What is asked of a project, or told it, without editing it. -/
inductive Operation where
  | output (name : String)
  | run (rounds : Nat) (name : String)
  | runAll (rounds : Nat)
  | loadImports (rounds : Nat) (name : String)
  | setEnvironment (e : Environment)
  | finishLoad (key : LoadKey) (result : Except LinkError Module)

section

variable {σ : Type} (load : LoadKey → StateM σ (Except LinkError Module))

def operate (p : Project) : Operation → StateM σ Project
  | .output name => return p.act (.poll name)
  | .run rounds name => return (← run load rounds name p).2
  | .runAll rounds => return (← runAll load rounds p).2
  | .loadImports rounds name => return (← loadImports load rounds name p).2
  | .setEnvironment e => return p.act (.setEnvironment e)
  | .finishLoad key result => return p.act (.finishLoad key result)

theorem Happens.operate (h : Happens p record q) (operation : Operation) (s : σ) :
    ∃ record, Happens p record ((q.operate load operation).run s).1 := by
  have hp : ∃ record, Happens p record q := ⟨record, h⟩
  cases operation with
  | output name => exact ⟨_, h.poll name⟩
  | run rounds name => exact (Happens.steady p).run hp s rounds
  | runAll rounds => exact (Happens.steady p).runAll hp s rounds
  | loadImports rounds name => exact (Happens.steady p).loadImports hp s rounds
  | setEnvironment e => exact ⟨_, h.setEnvironment e⟩
  | finishLoad key result =>
    change ∃ record, Happens p record (q.act (.finishLoad key result))
    rw [act]
    split
    · exact ⟨_, h.finishLoad key result⟩
    · exact hp

theorem happens_operations (operations : List Operation) (p : Project) (s : σ) :
    ∃ record, Happens p record ((operations.foldlM (Project.operate load) p).run s).1 := by
  have hall : ∀ q s record, Happens p record q →
      ∃ record, Happens p record ((operations.foldlM (Project.operate load) q).run s).1 := by
    induction operations with
    | nil => exact fun q s record h => ⟨record, h⟩
    | cons operation operations ih =>
      intro q s record h
      obtain ⟨more, hmore⟩ := h.operate load operation s
      rw [foldlM_cons, StateT.run_bind]
      exact ih _ _ more hmore
  exact hall p s [] .refl

/-- Whatever is asked of a project, all that happens is on record. Nothing is run twice for one output,
nor for one that was there; what is run is a program whose imports are there and have not failed; and it
is told once afterwards that its output is there. -/
theorem executions_once (operations : List Operation) (p : Project) (s : σ) :
    let q := ((operations.foldlM (operate load) p).run s).1
    (∃ record, Happens p record q) ∧ ∀ record, Happens p record q →
      q.runs = p.runs + (executions record).length ∧
      q.log = p.log ++ record.filterMap Occurrence.entry? ∧
      ((executions record).map Execution.id).Nodup ∧
      (∀ x ∈ executions record, p.store.outputs.get? x.id = none ∧ x.Founded p.sources) ∧
      ∀ before x after, record = before ++ .ran x :: after → (committed after).count x.id = 1 := by
  intro q
  refine ⟨happens_operations load operations p s, fun record h => ?_⟩
  have hrecorded := h.recorded
  refine ⟨hrecorded.runs, hrecorded.log, hrecorded.followed.sublist.nodup hrecorded.once, fun x hx => ?_,
    fun before x after => hrecorded.followed.count hrecorded.once⟩
  exact ⟨(hrecorded.fresh _ (hrecorded.followed.sublist.subset (mem_map_of_mem hx))).1,
    hrecorded.founded x hx⟩

end

namespace Executions

def importing : Project :=
  (start .default .default none).perform
    [.setSource "lib" "true", .setSource "main" "import \"lib\" as l"]

def fewSamples : Environment := { Environment.default with sampleCount := 1 }

def operations : List Operation := [.output "main", .setEnvironment fewSamples]

def nothing (key : LoadKey) : StateM Unit (Except LinkError Module) := return .error (.notFound key.name)

theorem operations_eq (p : Project) : ((operations.foldlM (operate nothing) p).run ()).1 =
    ((poll "main").run p).2.setEnvironment fewSamples := rfl

set_option maxRecDepth 100000 in
theorem executions_once_importing :
    let q := ((operations.foldlM (operate nothing) importing).run ()).1
    ∃ record, Happens importing record q ∧ (executions record).map Execution.name = ["lib", "main"] ∧
      q.runs = importing.runs + (executions record).length ∧
      q.log = importing.log ++ record.filterMap Occurrence.entry? ∧
      ((executions record).map Execution.id).Nodup ∧
      (∀ x ∈ executions record, importing.store.outputs.get? x.id = none ∧ x.Founded importing.sources) ∧
      ∀ before x after, record = before ++ .ran x :: after → (committed after).count x.id = 1 := by
  intro q
  have h : Happens importing ([] ++ pollRecord "main" importing) q := by
    rw [show q = _ from operations_eq importing]
    exact (Happens.refl.poll "main").setEnvironment fewSamples
  have hnames : (executions ([] ++ pollRecord "main" importing)).map Execution.name = ["lib", "main"] := by
    decide +kernel
  exact ⟨_, h, hnames, (executions_once nothing operations importing ()).2 _ h⟩

end Executions

end Project

end Estimation
