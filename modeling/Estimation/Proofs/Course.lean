import Estimation.Proofs.Steps

/-!
Runs with all that an interpreter holds while it runs, frames included, and with all that it held
before. A frame is changed when a call begins and changed back when it ends.
-/

namespace Estimation

open List

/-- What an interpreter holds. -/
structure Registers where
  machine : Machine
  frames : List Frame
  /-- The first slot of the innermost call. -/
  base : Nat
  captures : List Value
  /-- Where the innermost native function was called, and so where what it calls is called. -/
  callSite : Span

namespace Registers

def context (r : Registers) : Context Code := ⟨r.frames, r.base, r.captures⟩

def withMachine (m : Machine) (r : Registers) : Registers := { r with machine := m }

def withStack (stack : Array Value) (r : Registers) : Registers :=
  { r with machine := { r.machine with stack } }

def pushFrame (frame : Frame) (r : Registers) : Registers := { r with frames := frame :: r.frames }

def popFrame (r : Registers) : Registers := { r with frames := r.frames.tail }

/-- Neither calls nor slots are more than they may be. -/
structure Within (limits : Limits) (r : Registers) : Prop where
  frames : r.frames.length ≤ limits.callDepth
  stack : r.machine.stack.size ≤ limits.stackSize

end Registers

/-- What an interpreter holds, and what it held before, the last first. -/
structure Course where
  now : Registers
  before : List Registers

namespace Course

def change (f : Registers → Registers) (c : Course) : Course := ⟨f c.now, c.now :: c.before⟩

/-- A course goes on from another, within the limits if that was within them. -/
def Continues (limits : Limits) (c d : Course) : Prop :=
  ∃ more, d.before = more ++ c.before ∧
    (c.now.Within limits → d.now.Within limits ∧ ∀ r ∈ more, r.Within limits)

namespace Continues

variable {limits : Limits} {c d e : Course}

theorem refl (c : Course) : Continues limits c c := ⟨[], rfl, fun h => ⟨h, nofun⟩⟩

theorem trans (h : Continues limits c d) (h' : Continues limits d e) : Continues limits c e := by
  obtain ⟨more, hmore, hwithin⟩ := h
  obtain ⟨more', hmore', hwithin'⟩ := h'
  refine ⟨more' ++ more, by rw [hmore', hmore, append_assoc], fun hc => ?_⟩
  obtain ⟨hd, hall⟩ := hwithin hc
  obtain ⟨he, hall'⟩ := hwithin' hd
  exact ⟨he, fun r hr => (mem_append.1 hr).elim (hall' r) (hall r)⟩

theorem change {f : Registers → Registers} (h : d.now.Within limits → (f d.now).Within limits) :
    Continues limits d (d.change f) :=
  ⟨[d.now], rfl, fun hd => ⟨h hd, fun _ hr => mem_singleton.1 hr ▸ hd⟩⟩

end Continues

end Course

/-- Steps of an interpreter. They need not come to an end. -/
abbrev Steps (α : Type) : Type := ExceptT RunError (StateT Course Option) α

namespace Steps

variable {α β : Type}

def held : Steps Registers := fun c => some (.ok c.now, c)

def change (f : Registers → Registers) : Steps Unit := fun c => some (.ok (), c.change f)

/-- Changes what is held when steps end, also when they fail. -/
def ending (f : Registers → Registers) (steps : Steps α) : Steps α := fun c =>
  (steps c).map fun (r, d) => (r, d.change f)

/-- A step on the machine alone. -/
def onMachine (step : Eval Code α) : Steps α := fun c =>
  some ((step c.now.machine).1, c.change (Registers.withMachine (step c.now.machine).2))

/-- Fails at a place in the innermost of the active calls. -/
def fail (span : Span) (failure : Failure) : Steps α := do
  throw ⟨failure, traceFrom (← held).frames span⟩

def ofExcept (span : Span) : Except Failure α → Steps α
  | .ok a => return a
  | .error failure => fail span failure

def draw (span : Span) (step : Draw α) : Steps α := do
  onMachine (Eval.draw (← held).frames span step)

def push (limits : Limits) (span : Span) (v : Value) : Steps Unit := do
  let stack := (← held).machine.stack
  if limits.stackSize ≤ stack.size then fail span (.stackSize limits.stackSize)
  else change (Registers.withStack (stack.push v))

def pushAll (limits : Limits) (span : Span) : List Value → Steps Unit
  | [] => return ()
  | v :: vs => do
    push limits span v
    pushAll limits span vs

/-- Drops the slots that steps have put on top of the others. -/
def keepingStack (steps : Steps α) : Steps α := do
  let size := (← held).machine.stack.size
  ending (fun r => r.withStack (r.machine.stack.shrink size)) steps

theorem bind_ok {steps : Steps α} {k : α → Steps β} {c d : Course} {a : α}
    (h : steps c = some (.ok a, d)) : (steps >>= k) c = k a d := by
  change (steps c >>= fun p => ExceptT.bindCont k p.1 p.2) = _
  rw [h]
  rfl

theorem bind_error {steps : Steps α} {k : α → Steps β} {c d : Course} {e : RunError}
    (h : steps c = some (.error e, d)) : (steps >>= k) c = some (.error e, d) := by
  change (steps c >>= fun p => ExceptT.bindCont k p.1 p.2) = _
  rw [h]
  rfl

end Steps

/-- From a state on, steps come to an end with the result of a step of the machine, and change nothing
else that is held. -/
def FollowsAt {α : Type} (limits : Limits) (step : Eval Code α) (steps : Steps α) (c : Course) : Prop :=
  ∃ d, steps c = some ((step c.now.machine).1, d) ∧
    d.now = c.now.withMachine (step c.now.machine).2 ∧ c.Continues limits d

/-- Inside of a call, and while a native function is called from a place. -/
def Follows {α : Type} (limits : Limits) (ctx : Context Code) (site : Span) (step : Eval Code α)
    (steps : Steps α) : Prop :=
  ∀ c : Course, c.now.context = ctx → c.now.callSite = site → FollowsAt limits step steps c

namespace FollowsAt

variable {α β : Type} {limits : Limits} {step : Eval Code α} {steps : Steps α} {c : Course}

theorem get {k : Machine → Eval Code α} {l : Registers → Steps α}
    (h : FollowsAt limits (k c.now.machine) (l c.now) c) :
    FollowsAt limits (get >>= k) (Steps.held >>= l) c := h

theorem held {l : Registers → Steps α} (h : FollowsAt limits step (l c.now) c) :
    FollowsAt limits step (Steps.held >>= l) c := h

/-- Something else is held while steps are made. -/
theorem inside {step' : Eval Code α} {enter leave : Registers → Registers} {f : Machine → Machine}
    (h : FollowsAt limits step steps (c.change enter))
    (hmachine : (enter c.now).machine = c.now.machine)
    (hstep : ∀ m, step' m = ((step m).1, f (step m).2))
    (hleave : ∀ m, leave ((enter c.now).withMachine m) = c.now.withMachine (f m))
    (henter : c.now.Within limits → (enter c.now).Within limits)
    (hsize : ∀ m, (f m).stack.size ≤ m.stack.size) :
    FollowsAt limits step' (Steps.change enter >>= fun _ => Steps.ending leave steps) c := by
  obtain ⟨d, hd, hnow, hcontinues⟩ := h
  change _ = some ((step (enter c.now).machine).1, d) at hd
  change d.now = (enter c.now).withMachine (step (enter c.now).machine).2 at hnow
  rw [hmachine] at hd hnow
  have hstep := hstep c.now.machine
  refine ⟨d.change leave, ?_, ?_, ?_⟩
  · change (steps (c.change enter)).map _ = _
    rw [hd, hstep]
    rfl
  · change leave d.now = _
    rw [hnow, hleave, hstep]
  · obtain ⟨more, hmore, hwithin⟩ := (Course.Continues.change henter).trans hcontinues
    refine ⟨d.now :: more, congrArg (cons d.now) hmore, fun hc => ?_⟩
    obtain ⟨hd, hall⟩ := hwithin hc
    refine ⟨?_, fun r hr => ?_⟩
    · change (leave d.now).Within limits
      rw [hnow] at hd ⊢
      rw [hleave]
      exact ⟨hc.frames, Nat.le_trans (hsize _) hd.stack⟩
    · rcases mem_cons.1 hr with rfl | hr
      · exact hd
      · exact hall r hr

end FollowsAt

namespace Follows

variable {α β : Type} {limits : Limits} {ctx : Context Code} {site : Span} {step : Eval Code α}
  {steps : Steps α}

theorem pure (a : α) : Follows limits ctx site (pure a) (pure a) :=
  fun c _ _ => ⟨c, rfl, rfl, .refl c⟩

theorem fail {span : Span} {failure : Failure} :
    Follows (α := α) limits ctx site (Eval.fail ctx.frames span failure) (Steps.fail span failure) := by
  rintro c rfl -
  exact ⟨c, rfl, rfl, .refl c⟩

theorem bind (h : Follows limits ctx site step steps) {k : α → Eval Code β} {l : α → Steps β}
    (hk : ∀ a, Follows limits ctx site (k a) (l a)) :
    Follows limits ctx site (step >>= k) (steps >>= l) := by
  intro c hctx hsite
  obtain ⟨d, hd, hnow, hcontinues⟩ := h c hctx hsite
  rcases hstep : step c.now.machine with ⟨r, m⟩
  rw [hstep] at hd hnow
  cases r with
  | error e =>
    refine ⟨d, ?_, ?_, hcontinues⟩
    · rw [Steps.bind_error hd, Eval.bind_error hstep]
    · rw [hnow, Eval.bind_error hstep]
  | ok a =>
    obtain ⟨d', hd', hnow', hcontinues'⟩ := hk a d (hnow ▸ hctx) (hnow ▸ hsite)
    rw [hnow] at hd' hnow'
    refine ⟨d', ?_, ?_, hcontinues.trans hcontinues'⟩
    · rw [Steps.bind_ok hd, hd', Eval.bind_ok hstep]
      rfl
    · rw [hnow', Eval.bind_ok hstep]
      rfl

theorem ofExcept {span : Span} (x : Except Failure α) :
    Follows limits ctx site (Eval.ofExcept ctx.frames span x) (Steps.ofExcept span x) := by
  cases x with
  | ok a => exact .pure a
  | error failure => exact .fail

/-- A step on the machine alone that leaves the stack. -/
theorem onMachine (h : ∀ m, (step m).2.stack = m.stack) :
    Follows limits ctx site step (Steps.onMachine step) :=
  fun c _ _ => ⟨_, rfl, rfl, .change fun hc => ⟨hc.frames, by
    change (step c.now.machine).2.stack.size ≤ _
    rw [h]
    exact hc.stack⟩⟩

theorem draw {span : Span} (step : Draw α) :
    Follows limits ctx site (Eval.draw ctx.frames span step) (Steps.draw span step) := by
  rintro c rfl hsite
  refine .held (onMachine (fun m => ?_) c rfl hsite)
  rw [Eval.draw]
  rcases step m.random with ⟨_ | _, _⟩ <;> rfl

theorem push {run : Run} {span : Span} {v : Value} : Follows run.limits ctx site
    (Eval.push run ctx.frames span v) (Steps.push run.limits span v) := by
  rintro c rfl hsite
  refine .get ?_
  by_cases hfull : run.limits.stackSize ≤ c.now.machine.stack.size
  · rw [if_pos hfull, if_pos hfull]
    exact fail c rfl hsite
  · rw [if_neg hfull, if_neg hfull]
    refine ⟨_, rfl, rfl, .change fun hc => ⟨hc.frames, ?_⟩⟩
    change (c.now.machine.stack.push v).size ≤ _
    rw [Array.size_push]
    omega

theorem pushAll {run : Run} {span : Span} (vs : List Value) : Follows run.limits ctx site
    (Eval.pushAll run ctx.frames span vs) (Steps.pushAll run.limits span vs) := by
  induction vs with
  | nil => exact .pure ()
  | cons v vs ih => exact push.bind fun _ => ih

theorem size_shrink_le (m : Machine) (size : Nat) : (m.stack.shrink size).size ≤ m.stack.size := by
  rw [Array.size_shrink]
  exact Nat.min_le_right _ _

theorem keepingStack (h : Follows limits ctx site step steps) : Follows limits ctx site
    (do let size := (← get).stack.size
        Eval.shrinkingTo size step) (Steps.keepingStack steps) := by
  intro c hctx hsite
  refine .get ?_
  obtain ⟨d, hd, hnow, hcontinues⟩ := h c hctx hsite
  refine ⟨d.change fun r => r.withStack (r.machine.stack.shrink c.now.machine.stack.size), ?_, ?_,
    hcontinues.trans (.change fun hd => ⟨hd.frames, Nat.le_trans (size_shrink_le _ _) hd.stack⟩)⟩
  · change (steps c).map _ = _
    rw [hd]
    rfl
  · change d.now.withStack _ = _
    rw [hnow]
    rfl

end Follows

end Estimation
