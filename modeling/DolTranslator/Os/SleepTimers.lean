import DolTranslator.Os.Calls

/-!
# Sleep timers under the scheduler

SelectThread begins with ProcessSleepTimers, which resumes the sleepers that are due.  A resume ends
with SelectThread again, so the calls nest; what is still to do is a stack of frames, innermost
first.

* `Sleepers`   the host's table of sleep timers, and the parks whose wake is outstanding;
* `fire`   one due timer; `reconcile`   the search for sleepers that lost theirs;
* `beginResume`   OSResumeThread up to the SelectThread it ends with;
* `Scheduler.step`   one step of the stack; each step that reads the clock is given what it reads;
* `Runs`   from a call to where it returns, goes idle or switches.

`mapped t` stands for Memory::Contains at the suspend count of thread `t`.  Times are nanoseconds.
-/

namespace DolTranslator.Os

open Function Intrusive

/-! ## the tables of the host -/

structure SleepTimerEntry where
  thread : Nat
  deadline : Nat
  deriving DecidableEq, Repr

structure Sleepers where
  timers : List SleepTimerEntry
  outstandingParks : List Nat
  /-- when the reconciler first saw a thread parked without a timer -/
  strandFirstSeen : Nat → Option Nat
  strandScanDueAt : Nat

namespace Sleepers

def timerIsPending (sl : Sleepers) (t : Nat) : Bool := sl.timers.any fun e => e.thread = t

def clearOutstandingPark (sl : Sleepers) (t : Nat) : Sleepers :=
  { sl with outstandingParks := sl.outstandingParks.filter fun u => u ≠ t }

def takeDue (sl : Sleepers) (now : Nat) : Option (SleepTimerEntry × Sleepers) :=
  (sl.timers.find? fun e => e.deadline ≤ now).map fun e =>
    (e, { sl with timers := sl.timers.eraseP fun e => e.deadline ≤ now })

end Sleepers

namespace GuestOs

/-- ready, with a suspension: the shape of a thread in OSSleepTicks -/
def isParked (os : GuestOs) (t : Nat) : Bool :=
  (os.thread t).state = .ready ∧ 1 ≤ (os.thread t).suspend

end GuestOs

section
variable (mapped : Nat → Bool)

/-- one due timer, already off the table: the tables after it, and the thread to resume -/
def fire (now : Nat) (os : GuestOs) (sl : Sleepers) (e : SleepTimerEntry) : Sleepers × Option Nat :=
  if e.thread = 0 ∨ ¬mapped e.thread then (sl, none)
  else if (os.thread e.thread).state = .running then
    -- the sleeper has not suspended itself yet: the timer is put off by 2 ms
    (if sl.timerIsPending e.thread then sl
      else { sl with timers := sl.timers ++ [⟨e.thread, now + 2000000⟩] }, none)
  else if ¬os.isParked e.thread then (sl.clearOutstandingPark e.thread, none)
  else (sl.clearOutstandingPark e.thread, some e.thread)

/-- what the reconciler does with an outstanding park -/
inductive Verdict where
  | keep (firstSeen : Option Nat)
  | clear
  | heal
  deriving DecidableEq, Repr

def examine (reconcileNow : Nat) (os : GuestOs) (sl : Sleepers) (t : Nat) : Verdict :=
  if sl.timerIsPending t then .keep none
  else if ¬mapped t ∨ os.isTerminated t then .clear
  else if ¬os.isParked t then .clear
  else match sl.strandFirstSeen t with
    | none => .keep (some reconcileNow)
    | some seen => if reconcileNow < seen + 100000000 then .keep (some seen) else .heal

/-- The reconciler.  Its loop over the parks takes each on its own: no turn writes what another
reads. -/
def reconcile (now reconcileNow : Nat) (os : GuestOs) (sl : Sleepers) : Sleepers × List Nat :=
  if now < sl.strandScanDueAt then (sl, [])
  else
    let verdict := examine mapped reconcileNow os sl
    ({ sl with
        outstandingParks := sl.outstandingParks.filter fun t =>
          verdict t ≠ .clear ∧ verdict t ≠ .heal
        strandFirstSeen := fun t =>
          if t ∈ sl.outstandingParks then
            match verdict t with
            | .keep firstSeen => firstSeen
            | .clear | .heal => none
          else none
        strandScanDueAt := now + 50000000 },
      sl.outstandingParks.filter fun t => verdict t = .heal)

end

namespace GuestOs

/-- OSResumeThread up to the SelectThread it ends with, and whether it ends with one -/
def beginResume (fuel : Nat) (os : GuestOs) (t : Nat) : Option (GuestOs × Bool) :=
  if t = 0 then some (os, false)
  else
    let count := (os.thread t).suspend - 1
    if count < 0 then some (os.setSuspend t 0, false)
    else
      let os := os.setSuspend t count
      if count ≠ 0 then some (os, false)
      else
        let os' := match (os.thread t).state with
          | .waiting =>
            let queue := (os.thread t).queue
            let os := os.removeThreadFromQueue t
            (computeThreadEffectivePriority fuel os t).bind fun priority =>
              let os := os.setPriority t priority
              let os' := match queue with
                | none => some os
                | some q => insertThreadIntoQueueByPriority fuel os q t priority
              os'.bind fun os => propagateMutexOwnerPriority fuel os (os.thread t).mutex
          | .ready =>
            (makeRunnable fuel os t).map fun (os : GuestOs) =>
              if t = os.defaultThread then os.registerMainThreadAsFiber t else os
          | .running =>
            if os.isTerminated t then some os else makeRunnable fuel (os.setState t .ready) t
          | .terminated | .moribund => some os
        os'.map fun os => (os, os.reschedule)

end GuestOs

/-! ## the stack -/

inductive SelectFrame where
  /-- ProcessSleepTimers, called -/
  | pump
  /-- its loop: the clock it has read, and the number of timers it has taken -/
  | timers (now processed : Nat)
  /-- the sleepers that its reconciler still has to resume -/
  | heal (threads : List Nat)
  /-- SelectThread after ProcessSleepTimers -/
  | select (force : Bool)
  deriving DecidableEq, Repr

def selectCall (force : Bool) : List SelectFrame := [.pump, .select force]

structure Scheduler where
  os : GuestOs
  sleepers : Sleepers

/-- where a call comes to, with the frames that wait for its host context -/
inductive Outcome where
  | returned (s : Scheduler)
  | idle (s : Scheduler) (rest : List SelectFrame)
  | switched (s : Scheduler) (thread : Nat) (rest : List SelectFrame)

inductive Progress where
  | more (s : Scheduler) (frames : List SelectFrame)
  | ended (outcome : Outcome)

namespace Scheduler

def resume (fuel : Nat) (s : Scheduler) (t : Nat) (fs : List SelectFrame) : Option Progress :=
  (s.os.beginResume fuel t).map fun (os, asked) =>
    .more ⟨os, s.sleepers⟩ (if asked then selectCall false ++ fs else fs)

/-- SelectThread after ProcessSleepTimers -/
def select (fuel : Nat) (s : Scheduler) (force : Bool) (fs : List SelectFrame) : Option Progress :=
  match s.os.selectThread force with
  | .returned os => some (.more ⟨os, s.sleepers⟩ fs)
  | .choosing os _ => (os.chooseThread fuel).map fun
    | .stay os => .more ⟨os, s.sleepers⟩ fs
    | .idle os => .ended (.idle ⟨os, s.sleepers⟩ fs)
    | .picked os t => .ended (.switched ⟨os, s.sleepers⟩ t fs)

/-- one step; `clock` is what the clock shows -/
def step (mapped : Nat → Bool) (fuel clock : Nat) (s : Scheduler) : List SelectFrame → Option Progress
  | [] => some (.ended (.returned s))
  | .pump :: fs => some (.more s (.timers clock 0 :: fs))
  | .timers now processed :: fs =>
    match if processed < 64 then s.sleepers.takeDue now else none with
    | some (e, sl) =>
      let (sl, thread) := fire mapped now s.os sl e
      match thread with
      | none => some (.more ⟨s.os, sl⟩ (.timers now (processed + 1) :: fs))
      | some t => resume fuel ⟨s.os, sl⟩ t (.timers now (processed + 1) :: fs)
    | none =>
      let (sl, toHeal) := reconcile mapped now clock s.os s.sleepers
      some (.more ⟨s.os, sl⟩ (.heal toHeal :: fs))
  | .heal [] :: fs => some (.more s fs)
  | .heal (t :: ts) :: fs => resume fuel s t (.heal ts :: fs)
  | .select force :: fs => select fuel s force fs

end Scheduler

/-- The steps of a call, to where it ends.  The loops that walk guest lists may take any number of
turns, and the clock may show anything. -/
inductive Runs (mapped : Nat → Bool) : Scheduler → List SelectFrame → Outcome → Prop where
  | more {s s' : Scheduler} {fs fs' : List SelectFrame} {e : Outcome} (fuel clock : Nat)
      (step : s.step mapped fuel clock fs = some (.more s' fs')) (rest : Runs mapped s' fs' e) :
      Runs mapped s fs e
  | ended {s : Scheduler} {fs : List SelectFrame} {e : Outcome} (fuel clock : Nat)
      (step : s.step mapped fuel clock fs = some (.ended e)) : Runs mapped s fs e

end DolTranslator.Os
