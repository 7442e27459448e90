import DolTranslator.Os.Queues

/-!
# The native calls of the guest OS

SelectThread either returns to its caller at once or goes on to choose a thread; what the caller
had left to do then waits until its host context runs again.  A call therefore ends in one of two
ways (`Ending`), and the places where a call can be cut are the constructors of `Rest`.

* `selectThread`   up to the choice;
* `wakeupThread`, `sleepThread`, `lockMutex`, `unlockMutex`, `createThread`, `exitThread`,
  `cancelThread`, `joinThread`, `detachThread`, `suspendThread`, `resumeThread`   the calls;
* `runRest`   the rest of a call that was cut.

No thread has an armed sleep timer here: OSSleepTicks is not among the calls.
-/

namespace DolTranslator.Os

open Function Intrusive

/-! ## how a call ends -/

/-- what is left of a call -/
inductive Rest where
  /-- the thread has not started -/
  | entry
  /-- SwitchToThread, after the host switch; the guest thread it came from -/
  | switched (previous : Nat)
  | sleepUndo (thread : Nat) (queue : WaitQueue)
  | lockRetry (thread mutex : Nat)
  | joinCheck (caller thread : Nat)
  | unlockAll (thread guard : Nat)
  | wakeJoiners (thread : Nat)
  | exitSelect
  | cancelSelect
  deriving DecidableEq, Repr

inductive Ending where
  | returned (os : GuestOs)
  | choosing (os : GuestOs) (rest : List Rest)

def Ending.andThen (e : Ending) (rest : List Rest) (f : GuestOs → Ending) : Ending :=
  match e with
  | .returned os => f os
  | .choosing os r => .choosing os (r ++ rest)

def Ending.os : Ending → GuestOs
  | .returned os => os
  | .choosing os _ => os

/-- the first set bit from the top, or 32 -/
def cntlzw (mask : BitVec 32) : Nat :=
  ((List.range 32).find? fun p => mask.getLsbD (31 - p)).getD 32

namespace GuestOs

def clearContext (os : GuestOs) (c : Nat) : GuestOs :=
  if c = 0 then os
  else
    let os := os.modifyThread c fun r => { r with contextMode := 0, contextState := 0 }
    if os.exceptionContext = c then { os with exceptionContext := 0 } else os

/-- every caller has interrupts disabled, which clears the flag 0x2 -/
def setCurrentContext (os : GuestOs) (c : Nat) : GuestOs :=
  if c = 0 then { os with currentContext := 0 }
  else ({ os with currentContext := c }).modifyThread c fun r =>
    { r with contextState := r.contextState &&& ~~~0x2 }

/-! ## the scheduler -/

/-- SelectThread, up to the choice of a thread -/
def selectThread (os : GuestOs) (force : Bool) : Ending :=
  let running := os.runningContext
  if os.disableCount ≥ 1 then .returned os
  else if os.currentContext = 0 ∧ running = 0 then .returned os
  else if os.currentContext ≠ running then .returned os
  else if running ≠ 0 ∧ (os.thread running).state = .running then
    let priority := (os.thread running).priority
    if ¬force ∧ priority ≤ cntlzw os.pending then .returned os
    else
      let os := os.setState running .ready
      .choosing ((os.linkThreadOnRunQueue running priority).markRunQueuePending priority) []
  else .choosing os []

/-- one thread off the head of a wait queue, and whether it can run now -/
def wakeHead (os : GuestOs) (w : WaitQueue) : GuestOs × Bool :=
  let thread := os.queues.head (.wait w)
  let os := os.popThreadQueueHead (.wait w)
  if threadStateIsTerminated (os.thread thread).state ∨ os.isTerminated thread then
    let os := os.setQueue thread none
    ({ os with queues := { os.queues with
        next := update os.queues.next thread 0, prev := update os.queues.prev thread 0 } }, false)
  else
    let os := (os.setState thread .ready).note (.woke thread w)
    if (os.thread thread).suspend < 1 then
      let priority := max 0 (min (os.thread thread).priority 31)
      let os := os.linkThreadOnRunQueue thread priority
      let os := if thread = os.defaultThread then os.registerMainThreadAsFiber thread else os
      (os.markRunQueuePending priority, true)
    else (os, false)

/-- the loop of OSWakeupThread, with the number of threads it may still wake -/
def wakeLoop : Nat → GuestOs → WaitQueue → Bool → GuestOs × Bool
  | 0, os, _, resched => (os, resched)
  | left + 1, os, w, resched =>
    if os.queues.head (.wait w) = 0 then (os, resched)
    else
      let (os, woken) := os.wakeHead w
      wakeLoop left os w (resched || woken)

def wakeupThread (os : GuestOs) (w : WaitQueue) : Ending :=
  if w = .other 0 then .returned os
  else
    let (os, resched) := wakeLoop 256 os w false
    if resched ∧ ¬os.advancingRetrace then os.selectThread false else .returned os

/-- a thread that could not be switched away from is taken off the wait queue again -/
def sleepUndo (os : GuestOs) (t : Nat) (w : WaitQueue) : GuestOs :=
  if (os.thread t).state = .waiting ∧ (os.thread t).queue = some (.wait w) then
    (({ os with queues := os.queues.unlink (.wait w) t }).setQueue t none).setState t .running
  else os

def adoptDefaultThread (os : GuestOs) : GuestOs :=
  if os.runningContext ≠ 0 then os
  else
    (({ os with runningContext := os.defaultThread }).setCurrentContext
      os.defaultThread).registerMainThreadAsFiber os.defaultThread

def sleepThread (fuel : Nat) (os : GuestOs) (w : WaitQueue) : Option Ending :=
  if w = .other 0 then some (.returned os)
  else if os.runningContext = 0 ∧ os.defaultThread = 0 then some (.returned os)
  else
    let os := os.adoptDefaultThread
    let t := os.runningContext
    if os.disableCount ≠ 0 then some (.returned os)
    else
      let os := os.setState t .waiting
      (insertThreadIntoQueueByPriority fuel os (.wait w) t (os.thread t).priority).map fun os =>
        match ({ os with reschedule := true }).selectThread false with
        | .returned os => .returned (os.sleepUndo t w)
        | .choosing os rest => .choosing os (rest ++ [.sleepUndo t w])

def lockMutex (fuel : Nat) : Nat → GuestOs → Nat → Nat → Option Ending
  | 0, _, _, _ => none
  | steps + 1, os, t, m =>
    if (os.mutex m).owner = 0 then
      let os := os.modifyMutex m fun r => { r with owner := t, count := r.count + 1 }
      some (.returned { os with held := os.held.pushBack t m })
    else if (os.mutex m).owner = t then
      some (.returned (os.modifyMutex m fun r => { r with count := r.count + 1 }))
    else
      let os := os.modifyThread t fun r => { r with mutex := m }
      (promoteThreadPriority fuel (os.thread t).priority fuel os (os.mutex m).owner).bind fun os =>
        (sleepThread fuel os (.mutex m)).bind fun
          | .returned os => lockMutex fuel steps (os.modifyThread t fun r => { r with mutex := 0 }) t m
          | .choosing os rest => some (.choosing os (rest ++ [.lockRetry t m]))

def releaseMutex (os : GuestOs) (t m : Nat) : GuestOs :=
  ({ os with held := os.held.unlink t m }).modifyMutex m fun r => { r with owner := 0 }

def unlockMutex (fuel : Nat) (os : GuestOs) (m : Nat) : Option Ending :=
  let t := os.runningContext
  if m = 0 ∨ t = 0 ∨ (os.mutex m).owner ≠ t then some (.returned os)
  else
    let os := os.modifyMutex m fun r => { r with count := r.count - 1 }
    if (os.mutex m).count ≠ 0 then some (.returned os)
    else
      let os := os.releaseMutex t m
      let os' :=
        if (os.thread t).priority < (os.thread t).base then
          (computeThreadEffectivePriority fuel os t).map fun p => os.setPriority t p
        else some os
      os'.map fun os => os.wakeupThread (.mutex m)

/-! ## the end of a thread -/

def unlockAllMutex : Nat → GuestOs → Nat → Ending
  | 0, os, _ => .returned os
  | guard + 1, os, t =>
    let m := os.held.head t
    if m = 0 then .returned os
    else
      let os := { os with held := os.held.popFront t }
      let os := os.modifyMutex m fun r => { r with count := 0, owner := 0 }
      (os.wakeupThread (.mutex m)).andThen [.unlockAll t guard] fun os => unlockAllMutex guard os t

def wakeThreadJoiners (os : GuestOs) (t : Nat) : Ending := os.wakeupThread (.join t)

/-- a detached thread leaves the list of active threads, another one publishes its exit value -/
def leaveThread (os : GuestOs) (t : Nat) (exitValue : Option (BitVec 32)) : GuestOs :=
  let os := os.clearContext t
  let detached := (os.thread t).detached
  let os :=
    if detached then { os with threads := os.threads.unlink () t }
    else match exitValue with
      | some v => os.modifyThread t fun r => { r with exitValue := v }
      | none => os
  ((os.setState t (if detached then .terminated else .moribund)).note (.ended t)).exitGuestThread t

def terminateThreadCommon (os : GuestOs) (t : Nat) (exitValue : Option (BitVec 32)) : Ending :=
  (unlockAllMutex 4096 (os.leaveThread t exitValue) t).andThen [.wakeJoiners t] fun os =>
    os.wakeThreadJoiners t

def exitSelect (os : GuestOs) : Ending := ({ os with reschedule := true }).selectThread false

def exitThread (os : GuestOs) (exitValue : BitVec 32) : Ending :=
  if os.runningContext = 0 then .returned os
  else
    (os.terminateThreadCommon os.runningContext (some exitValue)).andThen [.exitSelect] exitSelect

def cancelSelect (os : GuestOs) : Ending :=
  if os.reschedule then os.selectThread false else .returned os

def cancelThread (os : GuestOs) (t : Nat) : Ending :=
  if t = 0 ∨ (os.thread t).state = .terminated ∨ (os.thread t).state.value > 4 then .returned os
  else
    let os := match (os.thread t).state with
      | .ready => if (os.thread t).suspend < 1 then os.removeThreadFromQueue t else os
      | .running => { os with reschedule := true }
      | .waiting => os.removeThreadFromQueue t
      | .terminated | .moribund => os
    (os.terminateThreadCommon t none).andThen [.cancelSelect] cancelSelect

/-! ## joining and detaching -/

def inThreadList (os : GuestOs) (t : Nat) : Nat → Nat → Option Bool
  | 0, u => if u = 0 then some false else none
  | fuel + 1, u =>
    if u = 0 then some false
    else if u = t then some true
    else inThreadList os t fuel (os.threads.next u)

def joinMoribund (os : GuestOs) (caller t : Nat) : GuestOs :=
  if (os.thread t).state = .moribund then
    let value := (os.thread t).exitValue
    (({ os with threads := os.threads.unlink () t }).setState t .terminated).note
      (.joined caller t (some value))
  else os.note (.joined caller t none)

def joinCheck (fuel : Nat) (os : GuestOs) (caller t : Nat) : Option GuestOs :=
  let found := if (os.thread t).state ≠ .terminated
    then os.inThreadList t fuel (os.threads.head ()) else some false
  found.map fun (found : Bool) =>
    if ¬found ∧ (os.thread t).state ≠ .moribund then os.note (.joined caller t none)
    else os.joinMoribund caller t

def joinThread (fuel : Nat) (os : GuestOs) (t : Nat) : Option Ending :=
  let caller := if os.runningContext = 0 then os.defaultThread else os.runningContext
  if t = 0 then some (.returned os)
  else if (os.thread t).detached = false ∧ (os.thread t).state ≠ .moribund ∧
      os.queues.head (.wait (.join t)) = 0 then
    (sleepThread fuel os (.join t)).bind fun
      | .returned os => (joinCheck fuel os caller t).map .returned
      | .choosing os rest => some (.choosing os (rest ++ [.joinCheck caller t]))
  else some (.returned (os.joinMoribund caller t))

def detachThread (os : GuestOs) (t : Nat) : Ending :=
  if t = 0 then .returned os
  else
    let os := (os.modifyThread t fun r => { r with detached := true }).note (.detached t)
    let os :=
      if (os.thread t).state = .moribund then
        (({ os with threads := os.threads.unlink () t }).setState t .terminated).exitGuestThread t
      else os
    os.wakeThreadJoiners t

/-! ## creating, suspending, resuming -/

def createThread (os : GuestOs) (t : Nat) (priority : Int) (detached : Bool) : GuestOs :=
  if priority < 0 ∨ priority > 31 then os
  else if t = 0 then os.createGuestFiber t
  else
    let os := (os.createGuestFiber t).modifyThread t fun r =>
      { r with
        state := .ready, detached := detached, base := priority, priority := priority,
        suspend := 1, exitValue := 0xFFFFFFFF, mutex := 0, contextMode := 0,
        contextState := if os.fpeHandler then 0x1 else 0x0 }
    { os with
      queues := { os.queues with
        head := update os.queues.head (.wait (.join t)) 0
        tail := update os.queues.tail (.wait (.join t)) 0 }
      held := { os.held with head := update os.held.head t 0, tail := update os.held.tail t 0 }
      threads := os.threads.pushBack () t }

def rescheduleIfAsked (os : GuestOs) : Ending :=
  if os.reschedule then os.selectThread false else .returned os

def suspendThread (fuel : Nat) (os : GuestOs) (t : Nat) : Option Ending :=
  if t = 0 then some (.returned os)
  else
    let count := (os.thread t).suspend
    let os := os.setSuspend t (count + 1)
    if count ≠ 0 then some (.returned os)
    else
      let os' := match (os.thread t).state with
        | .ready => some (os.removeThreadFromQueue t)
        | .running => some (({ os with reschedule := true }).setState t .ready)
        | .waiting =>
          let queue := (os.thread t).queue
          let os := (os.removeThreadFromQueue t).setPriority t 32
          let os' := match queue with
            | none => some os
            | some q => insertThreadIntoQueueByPriority fuel os q t 32
          os'.bind fun os => propagateMutexOwnerPriority fuel os (os.thread t).mutex
        | .terminated | .moribund => some os
      os'.map rescheduleIfAsked

def makeRunnable (fuel : Nat) (os : GuestOs) (t : Nat) : Option GuestOs :=
  (computeThreadEffectivePriority fuel os t).bind fun priority =>
    (insertThreadIntoQueueByPriority fuel (os.setPriority t priority) (.run priority) t
      priority).map fun os => { os with reschedule := true }

def resumeThread (fuel : Nat) (os : GuestOs) (t : Nat) : Option Ending :=
  if t = 0 then some (.returned os)
  else
    let count := (os.thread t).suspend - 1
    if count < 0 then some (.returned (os.setSuspend t 0))
    else
      let os := os.setSuspend t count
      if count ≠ 0 then some (.returned os)
      else
        let os' := match (os.thread t).state with
          | .waiting =>
            let queue := (os.thread t).queue
            let os := os.removeThreadFromQueue t
            (computeThreadEffectivePriority fuel os t).bind fun priority =>
              let os := os.setPriority t priority
              let os' := match queue with
                | none => some os
                | some q => insertThreadIntoQueueByPriority fuel os q t priority
              os'.bind fun os => propagateMutexOwnerPriority fuel os (os.thread t).mutex
          | .ready =>
            (makeRunnable fuel os t).map fun (os : GuestOs) =>
              if t = os.defaultThread then os.registerMainThreadAsFiber t else os
          | .running =>
            if os.isTerminated t then some os else makeRunnable fuel (os.setState t .ready) t
          | .terminated | .moribund => some os
        os'.map rescheduleIfAsked

end GuestOs

inductive Call where
  | create (thread : Nat) (priority : Int) (detached : Bool)
  | resume (thread : Nat)
  | suspend (thread : Nat)
  | sleep (queue : WaitQueue)
  | wakeup (queue : WaitQueue)
  | lock (mutex : Nat)
  | unlock (mutex : Nat)
  | exit (exitValue : BitVec 32)
  | cancel (thread : Nat)
  | join (thread : Nat)
  | detach (thread : Nat)
  | select (force : Bool)
  deriving DecidableEq, Repr

open GuestOs in
def perform (fuel : Nat) (os : GuestOs) : Call → Option Ending
  | .create t priority detached => some (.returned (os.createThread t priority detached))
  | .resume t => resumeThread fuel os t
  | .suspend t => suspendThread fuel os t
  | .sleep w => sleepThread fuel os w
  | .wakeup w => some (os.wakeupThread w)
  | .lock m =>
    if m = 0 ∨ os.runningContext = 0 then some (.returned os)
    else lockMutex fuel fuel os os.runningContext m
  | .unlock m => unlockMutex fuel os m
  | .exit v => some (os.exitThread v)
  | .cancel t => some (os.cancelThread t)
  | .join t => joinThread fuel os t
  | .detach t => some (os.detachThread t)
  | .select force => some (os.selectThread force)

open GuestOs in
def runRest (fuel : Nat) (os : GuestOs) : Rest → Option Ending
  | .entry => some (.returned os)
  | .switched previous =>
    let resumed := previous ≠ 0 ∧ os.runningContext = previous ∧ os.currentContext = previous
    some (.returned { os with currentGuestThread := if resumed then previous else 0 })
  | .sleepUndo t w => some (.returned ((os.sleepUndo t w).note (.slept t w)))
  | .lockRetry t m => lockMutex fuel fuel (os.modifyThread t fun r => { r with mutex := 0 }) t m
  | .joinCheck caller t => (joinCheck fuel os caller t).map .returned
  | .unlockAll t guard => some (unlockAllMutex guard os t)
  | .wakeJoiners t => some (os.wakeThreadJoiners t)
  | .exitSelect => some (exitSelect os)
  | .cancelSelect => some (cancelSelect os)

/-! ## the choice -/

inductive Choice where
  /-- the mask ran empty: SelectThread returns to its caller -/
  | stay (os : GuestOs)
  | idle (os : GuestOs)
  | picked (os : GuestOs) (thread : Nat)

def Choice.os : Choice → GuestOs
  | .stay os | .idle os | .picked os _ => os

namespace GuestOs

/-- the head of a run queue becomes the running thread -/
def dispatch (os : GuestOs) (running : Nat) (priority : Nat) (t : Nat) : GuestOs :=
  let os := os.popThreadQueueHead (.run priority)
  let os := if os.queues.head (.run priority) = 0
    then { os with pending := os.pending &&& ~~~pendingBit priority } else os
  let os := ((os.setQueue t none).setState t .running).note (.picked t)
  let os := ({ os with runningContext := t }).setCurrentContext t
  if os.currentGuestThread = 0 ∧ running ≠ 0 then os.registerMainThreadAsFiber running else os

/-- the search for the most urgent thread, past empty queues and dead threads -/
def pickThread (running : Nat) : Nat → GuestOs → Option Choice
  | 0, _ => none
  | steps + 1, os =>
    if os.pending = 0 then some (.stay os)
    else
      let priority := cntlzw os.pending
      let t := os.queues.head (.run priority)
      if t = 0 then
        pickThread running steps { os with pending := os.pending &&& ~~~pendingBit priority }
      else if threadStateIsTerminated (os.thread t).state ∨ os.isTerminated t then
        pickThread running steps (os.removeThreadFromQueue t)
      else some (.picked (os.dispatch running priority t) t)

def chooseThread (fuel : Nat) (os : GuestOs) : Option Choice :=
  if os.pending = 0 then
    some (.idle (({ os with runningContext := 0 }).setCurrentContext os.idleThread))
  else pickThread os.runningContext fuel { os with reschedule := false }

/-- the end of the idle loop; `running` is the thread that went idle -/
def leaveIdle (fuel running : Nat) (os : GuestOs) : Option Choice :=
  pickThread running fuel { os.clearContext os.idleThread with reschedule := false }

end GuestOs

end DolTranslator.Os
