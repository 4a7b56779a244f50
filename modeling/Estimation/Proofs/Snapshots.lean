import Estimation.Proofs.Consistency
import Estimation.Proofs.Interruption
import Estimation.Proofs.Making

/-!
Whatever is done to a project, and wherever loads end while a request goes on, the tables of its store fit
together, and what has the same version is the same.
-/

namespace Estimation

open List

namespace Project

variable {p : Project}

theorem advances_edit {name : String} {event : Event} (h : event.Backed p.sources) :
    p.store.Advances (p.edit name event).store :=
  .batch (forall_mem_cons.2 ⟨h, forall_mem_singleton.2 trivial⟩)

theorem advances_settle (key : ResolutionKey) {r : Resolution}
    (h : (Event.resolutionSettled key r).Backed p.sources) :
    p.store.Advances ((settle key r).run p).2.store := by
  change p.store.Advances (if _ then p else _ : Project).store
  split
  · exact .refl
  · exact .batch (forall_mem_singleton.2 h)

theorem advances_startLoad (key : LoadKey) {more : List Event}
    (h : ∀ event ∈ more, event.Backed p.sources) :
    p.store.Advances ((startLoad key more).run p).2.store := by
  change p.store.Advances (if _ then p else _ : Project).store
  split
  · exact .refl
  · exact .batch (forall_mem_cons.2 ⟨trivial, h⟩)

end Project

namespace Request

variable {α β : Type} {P : α → Store → Prop} {Q : β → Store → Prop} {r : Request α} {s : Store}

/-- Every step applies batches of events that are backed, wherever the steps before it have left off,
and the answer is as it should be there. -/
def Backed (Q : α → Store → Prop) : Request α → Store → Prop
  | done a, s => Q a s
  | step change next, s => ∀ p : Project, s.Advances p.store → p.store.Consistent →
      p.store.Advances (change p).store ∧ (next p).Backed Q (change p).store

namespace Backed

theorem bind (h : r.Backed P s) {f : α → Request β}
    (hf : ∀ a s', s.Advances s' → P a s' → (f a).Backed Q s') : (r >>= f).Backed Q s := by
  induction r generalizing s with
  | done a => exact hf a s .refl h
  | step change next ih =>
    intro p hs hp
    obtain ⟨hchange, hnext⟩ := h p hs hp
    exact ⟨hchange, ih p hnext fun a s' hs' => hf a s' ((hs.trans hchange).trans hs')⟩

theorem run (h : r.Backed P s) {p : Project} (hs : s.Advances p.store) (hp : p.store.Consistent) :
    p.store.Advances (r.run p).2.store := by
  induction r generalizing s p with
  | done a => exact .refl
  | step change next ih =>
    obtain ⟨hchange, hnext⟩ := h p hs hp
    exact hchange.trans (ih p hnext .refl (hchange.consistent hp))

theorem look {f : Project → Request β}
    (h : ∀ p : Project, s.Advances p.store → p.store.Consistent → (f p).Backed Q p.store) :
    (Request.look >>= f).Backed Q s :=
  fun p hs hp => ⟨.refl, h p hs hp⟩

theorem modify {change : Project → Project} {f : Unit → Request β}
    (h : ∀ p : Project, s.Advances p.store → p.store.Advances (change p).store)
    (hf : ∀ s', s.Advances s' → (f ()).Backed Q s') : (Request.modify change >>= f).Backed Q s :=
  fun p hs _ => ⟨h p hs, hf _ (hs.trans (h p hs))⟩

/-- What is found out about an import still holds when it is noted. -/
theorem settle {key : ResolutionKey} {res : Resolution} {f : Unit → Request β}
    (h : (Event.resolutionSettled key res).Backed s.sources)
    (hf : ∀ s', s.Advances s' → (f ()).Backed Q s') : (Request.settle key res >>= f).Backed Q s :=
  .modify (fun _ hs => Project.advances_settle key (h.mono hs.keeps)) hf

end Backed

/-- The version that an import leads to is stored. -/
def Leads (target : ImportTarget) (s : Store) : Prop :=
  ∀ name m, target = .found name m → s.sources.Stores m

theorem leads_failed (e : LinkError) (s : Store) : Leads (.failed e) s := nofun

theorem leads_pending (s : Store) : Leads .pending s := nofun

theorem resolveImport_backed (importer : String) (i : Import) (rounds : Nat) (s : Store) :
    (resolveImport importer i rounds).Backed Leads s := by
  induction rounds generalizing s with
  | zero => exact leads_pending s
  | succ rounds ih =>
    refine .look fun p hs hp => ?_
    cases ht : Sources.target p.resolver importer i with
    | error e => exact .settle trivial fun s' _ => leads_failed e s'
    | ok target =>
      dsimp only
      cases hm : p.sources.find? ⟨target, i.pin⟩ with
      | some m =>
        obtain ⟨hash, hm⟩ := Sources.knows_of_find? hm
        have hstores := hp.stores hm
        refine .settle (Option.isSome_iff_exists.2 ⟨m, hstores⟩) fun s' hs' name m' heq => ?_
        cases heq
        exact hs'.keeps.stores hstores
      | none =>
        cases p.store.loads.get? ⟨target, i.pin⟩ with
        | some state =>
          cases state with
          | loading => exact leads_pending _
          | failed e => exact .settle trivial fun s' _ => leads_failed e s'
        | none =>
          dsimp only
          split
          · refine fun q hq _ => ⟨Project.advances_startLoad _ (forall_mem_singleton.2 trivial), ?_⟩
            change Backed _ (if _ then _ else _) _
            split
            · exact leads_pending _
            · exact ih _
          · exact .settle trivial fun s' _ => leads_failed _ s'

theorem gather_backed {answer : List String → String → Module → Request Poll}
    (h : ∀ chain target m s, s.sources.Stores m → (answer chain target m).Backed (fun _ _ => True) s)
    (chain : List String) (importer : String) (is : List Import) (s : Store) :
    (gather answer chain importer is).Backed (fun _ _ => True) s := by
  induction is generalizing s with
  | nil => trivial
  | cons i rest ih =>
    have hrest : ∀ (f : Gathered → Gathered) (s : Store),
        (gather answer chain importer rest >>= fun g => pure (f g)).Backed (fun _ _ => True) s :=
      fun f s => (ih s).bind fun _ _ _ _ => trivial
    refine (resolveImport_backed importer i 2 s).bind fun target s' _ htarget => ?_
    cases target with
    | failed e => exact hrest _ s'
    | pending => exact hrest _ s'
    | found target m =>
      dsimp only
      split
      · trivial
      · refine (h _ target m s' (htarget _ _ rfl)).bind fun poll s'' _ _ => ?_
        cases poll <;> exact hrest _ s''

theorem stored_backed {id : OutputId} {make : Request Output}
    (h : ∀ s', s.Advances s' → make.Backed (fun o s => s.sources.Stores o.module) s') :
    (stored id make).Backed (fun _ _ => True) s := by
  refine .look fun p hs _ => ?_
  split
  · trivial
  · -- the version was stored when the output was made, and still is when it is committed
    refine (h p.store hs).bind fun o s' _ ho => .modify (fun q hq => ?_) fun _ _ => trivial
    exact .batch (forall_mem_singleton.2 (hq.keeps.stores ho))

theorem produce_backed {m : Module} (hm : s.sources.Stores m) (e : Environment) (name : String)
    (imports : List (Import × ImportOutcome)) :
    (produce e name m imports).Backed (fun o s => s.sources.Stores o.module) s := by
  intro p hs _
  have hstore : (if (m.runnable imports).isOk then { p with runs := p.runs + 1 } else p).store = p.store := by
    split <;> rfl
  rw [hstore]
  exact ⟨.refl, hs.keeps.stores hm⟩

theorem compute_backed (e : Environment) (depth : Nat) (chain : List String) (name : String)
    (m : Module) (s : Store) (hm : s.sources.Stores m) :
    (compute e depth chain name m).Backed (fun _ _ => True) s := by
  induction depth generalizing chain name m s with
  | zero => trivial
  | succ depth ih =>
    refine .look fun p hs _ => (gather_backed ih _ _ _ _).bind fun g s' hs' _ => ?_
    have hm' : s'.sources.Stores m := (hs.trans hs').keeps.stores hm
    cases g with
    | pending => trivial
    | settled outcomes =>
      refine (stored_backed fun s'' hs'' => ?_).bind fun _ _ _ _ => trivial
      exact produce_backed (hs''.keeps.stores hm') e name outcomes
    | cyclic i cycle =>
      refine .modify (fun _ _ => .refl) fun s'' hs'' => ?_
      refine (stored_backed fun s''' hs''' => ?_).bind fun _ _ _ _ => trivial
      exact (hs''.trans hs''').keeps.stores hm'

theorem poll_backed (depth : Nat) (name : String) (s : Store) :
    (poll depth name).Backed (fun _ _ => True) s := by
  refine .look fun p _ hp => ?_
  split
  · trivial
  · rename_i m hm
    obtain ⟨hash, hm⟩ := Sources.knows_of_headModule? hm
    exact (compute_backed _ _ _ _ m _ (hp.stores hm)).bind fun _ _ _ _ => trivial

theorem cleanAll_backed (s : Store) : cleanAll.Backed (fun _ _ => True) s :=
  .look fun _ _ _ => .modify (fun _ _ => .batch (forall_mem_singleton.2 trivial)) fun _ _ => trivial

end Request

namespace Project

variable {p : Project}

theorem advances_poll (hp : p.store.Consistent) (name : String) :
    p.store.Advances ((poll name).run p).2.store := by
  rw [← Request.run_poll]
  exact (Request.poll_backed _ name p.store).run .refl hp

theorem advances_act (hp : p.store.Consistent) (a : Action) : p.store.Advances (p.act a).store := by
  have hsingle : ∀ {event : Event}, event.Backed p.sources → p.store.Advances (p.apply [event]).store :=
    fun h => .batch (forall_mem_singleton.2 h)
  cases a with
  | setSource name code => exact advances_edit trivial
  | removeSource name => exact .batch (forall_mem_cons.2 ⟨trivial, forall_mem_singleton.2 trivial⟩)
  | moveHead name hash =>
    rcases moveHead_cases p name hash with ⟨hhash, hq⟩ | ⟨-, hq⟩
    · rw [hq]
      exact advances_edit hhash
    · rw [hq]
      exact .refl
  | setContinues name names => exact advances_edit trivial
  | setPins name pins => exact advances_edit trivial
  | setEnvironment e => exact hsingle trivial
  | clean name => exact hsingle trivial
  | cleanAll => exact hsingle trivial
  | poll name => exact advances_poll hp name
  | startLoad key => exact advances_startLoad key (forall_mem_nil _)
  | finishLoad key result =>
    rw [act]
    split
    · exact hsingle trivial
    · exact .refl

end Project

/-- What one may ask for that takes several steps. -/
inductive Call where
  | output (depth : Nat) (name : String)
  | cleanAll

def Call.request : Call → Request Unit
  | .output depth name => do
    let _ ← Request.poll depth name
    return ()
  | .cleanAll => Request.cleanAll

theorem Call.backed (call : Call) (s : Store) : call.request.Backed (fun _ _ => True) s := by
  cases call with
  | output depth name => exact (Request.poll_backed depth name s).bind fun _ _ _ _ => trivial
  | cleanAll => exact Request.cleanAll_backed s

/-- A project with the request that is being answered, if one is. -/
structure Session where
  project : Project
  request : Option (Request Unit)

inductive Move where
  /-- Something is done at once, or a load ends. -/
  | act (a : Action)
  | ask (call : Call)
  /-- The request takes its next step. -/
  | proceed

def Action.isPoll : Action → Bool
  | .poll _ => true
  | _ => false

namespace Session

def start (environment : Environment) (limits : Limits) (resolver : Option Resolver) : Session :=
  ⟨.start environment limits resolver, none⟩

/-- One request is answered after the other, and whatever else is done may come between its steps. -/
def move (s : Session) : Move → Session
  | .act a => if s.request.isSome && a.isPoll then s else { s with project := s.project.act a }
  | .ask call => if s.request.isSome then s else { s with request := some call.request }
  | .proceed =>
    match s.request with
    | none => s
    | some (.done _) => { s with request := none }
    | some (.step change next) => ⟨change s.project, some (next s.project)⟩

def perform (s : Session) (moves : List Move) : Session := moves.foldl move s

variable {s : Session}

/-- A request that nothing comes between is answered as it is at once. -/
theorem perform_proceed (r : Request Unit) (p : Project) :
    ∃ n, perform ⟨p, some r⟩ (replicate n .proceed) = ⟨(r.run p).2, none⟩ := by
  induction r generalizing p with
  | done a => exact ⟨1, rfl⟩
  | step change next ih =>
    obtain ⟨n, hn⟩ := ih p (change p)
    exact ⟨n + 1, hn⟩

theorem perform_ask (p : Project) (name : String) :
    ∃ n, perform ⟨p, none⟩ (.ask (.output p.sources.reach name) :: replicate n .proceed) =
      ⟨p.act (.poll name), none⟩ := by
  obtain ⟨n, hn⟩ := perform_proceed (Call.output p.sources.reach name).request p
  refine ⟨n, hn.trans ?_⟩
  rw [Call.request, Request.run_bind, Request.run_poll]
  rfl

/-- The tables fit together, and what is still to be done keeps them so. -/
structure Fits (s : Session) : Prop where
  consistent : s.project.store.Consistent
  backed : ∀ r, s.request = some r →
    ∃ store, store.Advances s.project.store ∧ r.Backed (fun _ _ => True) store

namespace Fits

theorem move (h : s.Fits) (m : Move) :
    s.project.store.Advances (s.move m).project.store ∧ (s.move m).Fits := by
  cases m with
  | act a =>
    rw [Session.move]
    split
    · exact ⟨.refl, h⟩
    · have hact := Project.advances_act h.consistent a
      refine ⟨hact, hact.consistent h.consistent, fun r hr => ?_⟩
      obtain ⟨store, hstore, hbacked⟩ := h.backed r hr
      exact ⟨store, hstore.trans hact, hbacked⟩
  | ask call =>
    rw [Session.move]
    split
    · exact ⟨.refl, h⟩
    · refine ⟨.refl, h.consistent, fun r hr => ?_⟩
      cases hr
      exact ⟨s.project.store, .refl, call.backed _⟩
  | proceed =>
    obtain ⟨p, request⟩ := s
    cases request with
    | none => exact ⟨.refl, h⟩
    | some r =>
      cases r with
      | done a => exact ⟨.refl, h.consistent, nofun⟩
      | step change next =>
        obtain ⟨store, hstore, hbacked⟩ := h.backed _ rfl
        obtain ⟨hchange, hnext⟩ := hbacked p hstore h.consistent
        refine ⟨hchange, hchange.consistent h.consistent, fun r hr => ?_⟩
        cases hr
        exact ⟨_, .refl, hnext⟩

theorem perform (h : s.Fits) (moves : List Move) :
    s.project.store.Advances (s.perform moves).project.store ∧ (s.perform moves).Fits := by
  induction moves generalizing s with
  | nil => exact ⟨.refl, h⟩
  | cons m moves ih =>
    obtain ⟨hmove, hs⟩ := h.move m
    obtain ⟨hmoves, hend⟩ := ih hs
    exact ⟨hmove.trans hmoves, hend⟩

end Fits

theorem fits_start (environment : Environment) (limits : Limits) (resolver : Option Resolver) :
    (start environment limits resolver).Fits :=
  ⟨Store.consistent_empty environment, nofun⟩

/-- The tables of a store fit together at all times, and two states of one version are one state. -/
theorem snapshots_consistent (environment : Environment) (limits : Limits) (resolver : Option Resolver)
    (moves more : List Move) :
    let before := ((start environment limits resolver).perform moves).project.store
    let after := ((start environment limits resolver).perform (moves ++ more)).project.store
    before.Consistent ∧ (after.version = before.version → after = before) := by
  intro before after
  obtain ⟨-, hbefore⟩ := (fits_start environment limits resolver).perform moves
  have hafter : before.Advances after := by
    have hmore := (hbefore.perform more).1
    rwa [Session.perform, Session.perform, ← foldl_append] at hmore
  exact ⟨hbefore.consistent, hafter.eq_of_version⟩

end Session

end Estimation
