import DolTranslator.Intrusive.Queues

/-!
# The guest OS as the runtime sees it

Threads, mutexes and queues live in guest memory; a record is named by its guest address, and the
null pointer is address 0.  Records of different kinds do not overlap, so each kind has its own
map from addresses.

* `OSThread`, `OSMutex`   the fields of the two records that the native calls read or write;
* `QueueAddr`   a thread queue: one of the run queues, or a wait queue;
* `GuestOs`   the three families of intrusive lists, the scheduler's globals, and the
  fiber manager's table of host contexts;
* `Entry`   what a run notes down for the statements about it.
-/

namespace DolTranslator.Os

open Function Intrusive

/-! ## records -/

inductive ThreadState where
  | terminated
  | ready
  | running
  | waiting
  | moribund
  deriving DecidableEq, Repr

def ThreadState.value : ThreadState → Nat
  | .terminated => 0
  | .ready => 1
  | .running => 2
  | .waiting => 4
  | .moribund => 8

def threadStateIsTerminated (s : ThreadState) : Bool := s.value = 0 ∨ s = .moribund

/-- a wait queue: a thread's joiners, a mutex's waiters, or a queue of the game's own -/
inductive WaitQueue where
  | join (thread : Nat)
  | mutex (mutex : Nat)
  | other (address : Nat)
  deriving DecidableEq, Repr

/-- `run p` is entry `p` of the run queue array, whether or not the array has one -/
inductive QueueAddr where
  | run (priority : Int)
  | wait (queue : WaitQueue)
  deriving DecidableEq, Repr

structure OSThread where
  state : ThreadState
  detached : Bool
  suspend : Int
  priority : Int
  base : Int
  exitValue : BitVec 32
  /-- the queue the thread is linked into, as far as its record says -/
  queue : Option QueueAddr
  /-- the mutex it waits for -/
  mutex : Nat
  contextMode : BitVec 16
  contextState : BitVec 16
  deriving DecidableEq, Repr

structure OSMutex where
  owner : Nat
  count : BitVec 32
  deriving DecidableEq, Repr

structure GuestFiber where
  fiber : Option Nat
  terminated : Bool
  isSchedulerFiber : Bool
  deriving DecidableEq, Repr

/-- what happened, newest first; no call reads it -/
inductive Entry where
  | parked (thread : Nat) (queue : WaitQueue)
  | woke (thread : Nat) (queue : WaitQueue)
  | picked (thread : Nat)
  | slept (thread : Nat) (queue : WaitQueue)
  | ended (thread : Nat)
  | detached (thread : Nat)
  | joined (caller thread : Nat) (exitValue : Option (BitVec 32))
  deriving DecidableEq, Repr

structure GuestOs where
  thread : Nat → OSThread
  mutex : Nat → OSMutex
  /-- thread queues: links at 0x2E0 and 0x2E4 of a thread -/
  queues : Links Nat QueueAddr
  /-- the mutexes a thread holds: links at 0x10 and 0x14 of a mutex -/
  held : Links Nat Nat
  /-- the list of active threads: links at 0x2FC and 0x300 of a thread -/
  threads : Links Nat Unit
  pending : BitVec 32
  reschedule : Bool
  /-- the nesting count of OSDisableScheduler -/
  disableCount : Nat
  currentContext : Nat
  runningContext : Nat
  exceptionContext : Nat
  defaultThread : Nat
  idleThread : Nat
  /-- a floating point handler is installed in the game's error table -/
  fpeHandler : Bool
  /-- the retrace pump is running guest callbacks -/
  advancingRetrace : Bool
  fibers : Nat → Option GuestFiber
  currentGuestThread : Nat
  nextHost : Nat
  /-- the guest thread a host context was made for -/
  hostThread : Nat → Nat
  log : List Entry

namespace GuestOs

/-! ## writing one record -/

def modifyThread (os : GuestOs) (t : Nat) (f : OSThread → OSThread) : GuestOs :=
  { os with thread := update os.thread t (f (os.thread t)) }

def modifyMutex (os : GuestOs) (m : Nat) (f : OSMutex → OSMutex) : GuestOs :=
  { os with mutex := update os.mutex m (f (os.mutex m)) }

def note (os : GuestOs) (e : Entry) : GuestOs := { os with log := e :: os.log }

def setState (os : GuestOs) (t : Nat) (s : ThreadState) : GuestOs :=
  os.modifyThread t fun r => { r with state := s }

def setPriority (os : GuestOs) (t : Nat) (p : Int) : GuestOs :=
  os.modifyThread t fun r => { r with priority := p }

def setQueue (os : GuestOs) (t : Nat) (q : Option QueueAddr) : GuestOs :=
  os.modifyThread t fun r => { r with queue := q }

def setSuspend (os : GuestOs) (t : Nat) (n : Int) : GuestOs :=
  os.modifyThread t fun r => { r with suspend := n }

theorem modifyThread_thread (os : GuestOs) (t : Nat) (f : OSThread → OSThread) (u : Nat) :
    (os.modifyThread t f).thread u = if u = t then f (os.thread t) else os.thread u := by
  show update os.thread t _ u = _
  rw [update_apply]

@[simp] theorem modifyThread_self (os : GuestOs) (t : Nat) (f : OSThread → OSThread) :
    (os.modifyThread t f).thread t = f (os.thread t) := update_self ..

/-! ## fibers -/

def hasFiber (os : GuestOs) (t : Nat) : Bool := (os.fibers t).isSome

def isTerminated (os : GuestOs) (t : Nat) : Bool := (os.fibers t).any (·.terminated)

def createGuestFiber (os : GuestOs) (t : Nat) : GuestOs :=
  { os with
    fibers := update os.fibers t (some ⟨some os.nextHost, false, false⟩)
    nextHost := os.nextHost + 1
    hostThread := update os.hostThread os.nextHost t }

/-- host context 0 is the scheduler's, on which the game was started -/
def registerMainThreadAsFiber (os : GuestOs) (t : Nat) : GuestOs :=
  if os.hasFiber t then os
  else { os with fibers := update os.fibers t (some ⟨some 0, false, true⟩), currentGuestThread := t }

def exitGuestThread (os : GuestOs) (t : Nat) : GuestOs :=
  match os.fibers t with
  | none => os
  | some f =>
    { os with
      fibers := update os.fibers t
        (some ⟨if f.isSchedulerFiber then f.fiber else none, true, f.isSchedulerFiber⟩)
      currentGuestThread := if os.currentGuestThread = t then 0 else os.currentGuestThread }

end GuestOs

end DolTranslator.Os

/-!
## Thread queues and priorities

The list helpers of the native OS, which the calls share.

* `removeThreadFromQueue`, `insertThreadIntoQueueByPriority`   off and on a queue, by priority;
* `linkThreadOnRunQueue`, `markRunQueuePending`, `popThreadQueueHead`   the scheduler's own edits;
* `computeThreadEffectivePriority`, `setThreadEffectivePriority`, `propagateMutexOwnerPriority`,
  `promoteThreadPriority`   priority inheritance along the owners of mutexes.

The loops of the source follow guest pointers and need not end; each takes a bound on its steps and
gives `none` when the bound is too small.
-/

namespace DolTranslator.Os

open Function Intrusive

/-! ## the mask of priorities whose run queue is not empty -/

/-- the bit of priority `p`; priority 0 has the highest -/
def pendingBit (p : Nat) : BitVec 32 := 1#32 <<< (31 - p)

/-- the place of a run queue in the array, for the 32 that are in it -/
def QueueAddr.index : QueueAddr → Option Nat
  | .run p => if 0 ≤ p ∧ p < 32 then some p.toNat else none
  | .wait _ => none

namespace GuestOs

def updatePendingMaskForQueue (os : GuestOs) (q : QueueAddr) : GuestOs :=
  match q.index with
  | none => os
  | some p =>
    if os.queues.head q ≠ 0 then os
    else { os with pending := os.pending &&& ~~~pendingBit p }

def publishQueue (os : GuestOs) (q : QueueAddr) : GuestOs :=
  match q.index with
  | none => os
  | some p => { os with pending := os.pending ||| pendingBit p }

/-! ## on and off a queue -/

def removeThreadFromQueue (os : GuestOs) (t : Nat) : GuestOs :=
  match (os.thread t).queue with
  | none => os
  | some q =>
    (({ os with queues := os.queues.unlink q t }).setQueue t none).updatePendingMaskForQueue q

/-- the first thread from `u` on that is less urgent than `priority`, or 0 at the end -/
def findInsertBefore (os : GuestOs) (priority : Int) : Nat → Nat → Option Nat
  | 0, u => if u = 0 then some 0 else none
  | fuel + 1, u =>
    if u = 0 then some 0
    else if (os.thread u).priority > priority then some u
    else findInsertBefore os priority fuel (os.queues.next u)

def insertThreadIntoQueueByPriority (fuel : Nat) (os : GuestOs) (q : QueueAddr) (t : Nat)
    (priority : Int) : Option GuestOs :=
  let os := os.setQueue t (some q)
  (os.findInsertBefore priority fuel (os.queues.head q)).map fun u =>
    let os :=
      if u = 0 then { os with queues := os.queues.pushBack q t }
      else { os with queues := os.queues.insertBefore q u t }
    os.publishQueue q

def linkThreadOnRunQueue (os : GuestOs) (t : Nat) (priority : Int) : GuestOs :=
  ({ os with queues := os.queues.pushBack (.run priority) t }).setQueue t (some (.run priority))

def markRunQueuePending (os : GuestOs) (priority : Int) : GuestOs :=
  { os with pending := os.pending ||| pendingBit priority.toNat, reschedule := true }

def popThreadQueueHead (os : GuestOs) (q : QueueAddr) : GuestOs :=
  { os with queues := os.queues.popFront q }

/-! ## priority inheritance -/

/-- the lowest of `priority` and the priorities of the first waiters of the mutexes from `m` on -/
def waiterPriority (os : GuestOs) : Nat → Nat → Int → Option Int
  | 0, m, priority => if m = 0 then some priority else none
  | fuel + 1, m, priority =>
    if m = 0 then some priority
    else
      let waiter := os.queues.head (.wait (.mutex m))
      let priority :=
        if waiter ≠ 0 ∧ (os.thread waiter).priority < priority then (os.thread waiter).priority
        else priority
      waiterPriority os fuel (os.held.next m) priority

def computeThreadEffectivePriority (fuel : Nat) (os : GuestOs) (t : Nat) : Option Int :=
  os.waiterPriority fuel (os.held.head t) (os.thread t).base

/-- the new state, and the owner of the mutex that the thread waits for -/
def setThreadEffectivePriority (fuel : Nat) (os : GuestOs) (t : Nat) (priority : Int) :
    Option (GuestOs × Nat) :=
  match (os.thread t).state with
  | .ready =>
    (insertThreadIntoQueueByPriority fuel ((os.removeThreadFromQueue t).setPriority t priority)
      (.run priority) t priority).map fun os => ({ os with reschedule := true }, 0)
  | .running => some (({ os with reschedule := true }).setPriority t priority, 0)
  | .waiting =>
    let queue := (os.thread t).queue
    let os := (os.removeThreadFromQueue t).setPriority t priority
    let os' := match queue with
      | none => some os
      | some q => insertThreadIntoQueueByPriority fuel os q t priority
    os'.map fun os =>
      let m := (os.thread t).mutex
      (os, if m ≠ 0 then (os.mutex m).owner else 0)
  | .terminated | .moribund => some (os, 0)

/-- from the owner of a mutex on, as long as the priority of a thread has to change -/
def propagateToOwner (fuel : Nat) : Nat → GuestOs → Nat → Option GuestOs
  | 0, _, _ => none
  | steps + 1, os, owner =>
    if owner ≠ 0 ∧ (os.thread owner).suspend < 1 then
      (computeThreadEffectivePriority fuel os owner).bind fun priority =>
        if (os.thread owner).priority = priority then some os
        else (setThreadEffectivePriority fuel os owner priority).bind fun (os, owner) =>
          propagateToOwner fuel steps os owner
    else some os

def propagateMutexOwnerPriority (fuel : Nat) (os : GuestOs) (m : Nat) : Option GuestOs :=
  if m = 0 then some os else propagateToOwner fuel fuel os (os.mutex m).owner

def promoteThreadPriority (fuel : Nat) (priority : Int) : Nat → GuestOs → Nat → Option GuestOs
  | 0, _, _ => none
  | steps + 1, os, t =>
    if t = 0 then some os
    else if (os.thread t).suspend > 0 then some os
    else if (os.thread t).priority ≤ priority then some os
    else (setThreadEffectivePriority fuel os t priority).bind fun (os, owner) =>
      promoteThreadPriority fuel priority steps os owner

end GuestOs

end DolTranslator.Os
