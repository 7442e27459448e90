import DolTranslator.Os.Calls
import DolTranslator.Transition.Events

/-!
# Host contexts under the guest OS

One host context executes at a time.  The others stand inside SwitchToThread, or have not started;
what each has left to do is a stack of frames, innermost first.  What the executing context does
next is an event.

* `returnFromEntry`   the end of FiberProc, when a thread's function has returned;
* `Machine`, `Event`, `Machine.next`   one step;
* `Machine.Boot`   before the first.
-/

namespace DolTranslator.Os

open Function Intrusive

namespace GuestOs

/-- the head of a wait queue, made ready without a switch -/
def wakeGuestHead (os : GuestOs) (w : WaitQueue) : GuestOs :=
  let thread := os.queues.head (.wait w)
  let os := os.popThreadQueueHead (.wait w)
  let os := { os with queues := { os.queues with
    next := update os.queues.next thread 0, prev := update os.queues.prev thread 0 } }
  if threadStateIsTerminated (os.thread thread).state then os.setQueue thread none
  else
    let os := (os.setState thread .ready).note (.woke thread w)
    if (os.thread thread).suspend ≥ 1 then os.setQueue thread none
    else
      let priority := max 0 (min (os.thread thread).priority 31)
      (os.linkThreadOnRunQueue thread priority).markRunQueuePending priority

def wakeGuestThreadsOnQueueNoSwitch : Nat → GuestOs → WaitQueue → GuestOs
  | 0, os, _ => os
  | left + 1, os, w =>
    if os.queues.head (.wait w) = 0 then os
    else wakeGuestThreadsOnQueueNoSwitch left (os.wakeGuestHead w) w

/-- the end of FiberProc, up to the switch to the scheduler's host context -/
def returnFromEntry (os : GuestOs) (t : Nat) : GuestOs :=
  let os := os.removeThreadFromQueue t
  let detached := (os.thread t).detached
  let os := if detached then os else os.modifyThread t fun r => { r with exitValue := 0 }
  let os := (os.setState t (if detached then .terminated else .moribund)).note (.ended t)
  let os := wakeGuestThreadsOnQueueNoSwitch 256 os (.join t)
  let os := if os.runningContext = t then { os with runningContext := 0 } else os
  let os := if os.currentContext = t then { os with currentContext := 0 } else os
  { os with
    reschedule := true
    fibers := update os.fibers t ((os.fibers t).map fun f => { f with terminated := true })
    currentGuestThread := 0 }

end GuestOs

inductive HostFrame where
  | rest (rest : Rest)
  /-- the idle loop of SelectThread, and the thread that had run -/
  | idle (running : Nat)
  /-- the loop of ProcessAlarmQueue, and the alarms it may still take -/
  | alarms (left : Nat)
  /-- an alarm handler, called by that loop -/
  | handler (left : Nat)
  /-- ProcessAlarmQueue after its loop: network, NAND and disc completions -/
  | completions
  deriving DecidableEq, Repr

structure Machine where
  os : GuestOs
  /-- the host context that executes -/
  host : Nat
  stack : Nat → List HostFrame
  alarmProcessDepth : Nat

inductive Event where
  /-- guest code calls the OS -/
  | call (call : Call)
  /-- the rest of a call that was cut -/
  | rest
  /-- guest code writes the nesting count of OSDisableScheduler -/
  | writeDisableCount (count : Nat)
  /-- the retrace pump starts or ends -/
  | retrace (advancing : Bool)
  | processAlarmQueue (maxToProcess : Nat)
  /-- the first alarm is due -/
  | alarm (hasHandler : Bool)
  | handlerReturns
  /-- no alarm is due, or guest memory refuses an access -/
  | alarmsEnd
  | completionsEnd (completed : Bool)
  /-- a thread has become ready in the idle loop -/
  | leaveIdle
  | entryReturns
  /-- a thread whose object is not built yet gives way to the scheduler -/
  | deferEntry
  deriving DecidableEq, Repr

namespace Machine

/-! ## switching -/

def frames (m : Machine) : List HostFrame := m.stack m.host

def withFrames (m : Machine) (fs : List HostFrame) : Machine :=
  { m with stack := update m.stack m.host fs }

def push (m : Machine) (fs : List HostFrame) : Machine := m.withFrames (fs ++ m.frames)

def withOs (m : Machine) (os : GuestOs) : Machine := { m with os := os }

/-- a thread without a host context of its own goes on in the one that executes -/
def switchToThread (m : Machine) (t : Nat) : Machine :=
  match m.os.fibers t with
  | some ⟨some h, false, _⟩ =>
    let previous := m.os.currentGuestThread
    let m := m.withOs { m.os with currentGuestThread := t }
    if h = m.host then m else { m.push [.rest (.switched previous)] with host := h }
  | _ => m

def settle (m : Machine) : Choice → Machine
  | .stay os => m.withOs os
  | .idle os => (m.withOs os).push [.idle m.os.runningContext]
  | .picked os t => (m.withOs os).switchToThread t

/-- a call has ended: it has returned, or a thread is to be chosen -/
def finish (fuel : Nat) (m : Machine) : Ending → Option Machine
  | .returned os => some (m.withOs os)
  | .choosing os rest =>
    let m := (m.withOs os).push (rest.map .rest)
    (os.chooseThread fuel).map m.settle

/-! ## the alarm queue -/

def runDeferredReschedule (os : GuestOs) : Ending :=
  if os.advancingRetrace ∨ ¬os.reschedule then .returned os else os.selectThread false

/-- the count does not go below zero -/
def decrementSchedulerDisableCount (os : GuestOs) : GuestOs :=
  { os with disableCount := os.disableCount - 1 }

def incrementSchedulerDisableCount (os : GuestOs) : GuestOs :=
  { os with disableCount := os.disableCount + 1 }

def processAlarmQueue (m : Machine) (maxToProcess : Nat) : Machine :=
  if maxToProcess = 0 ∨ m.alarmProcessDepth ≠ 0 then m
  else { m.push [.alarms maxToProcess] with alarmProcessDepth := m.alarmProcessDepth + 1 }

/-- guest code executes: the thread's own, or a callback -/
def inGuestCode (m : Machine) : Bool :=
  match m.frames with
  | .rest _ :: _ | .alarms _ :: _ => false
  | [] | .idle _ :: _ | .handler _ :: _ | .completions :: _ => true

def next (fuel : Nat) (m : Machine) : Event → Option Machine
  | .call c => if m.inGuestCode then (perform fuel m.os c).bind (m.finish fuel) else none
  | .rest =>
    match m.frames with
    | .rest r :: fs => (runRest fuel m.os r).bind ((m.withFrames fs).finish fuel)
    | _ => none
  | .writeDisableCount count =>
    if m.inGuestCode then some (m.withOs { m.os with disableCount := count }) else none
  | .retrace advancing =>
    if m.inGuestCode then some (m.withOs { m.os with advancingRetrace := advancing }) else none
  | .processAlarmQueue maxToProcess =>
    if m.inGuestCode then some (m.processAlarmQueue maxToProcess) else none
  | .alarm hasHandler =>
    match m.frames with
    | .alarms (left + 1) :: fs =>
      if hasHandler then
        some ((m.withFrames (.handler left :: fs)).withOs (incrementSchedulerDisableCount m.os))
      else some (m.withFrames (.alarms left :: fs))
    | _ => none
  | .handlerReturns =>
    match m.frames with
    | .handler left :: fs =>
      (m.withFrames (.alarms left :: fs)).finish fuel
        (runDeferredReschedule (decrementSchedulerDisableCount m.os))
    | _ => none
  | .alarmsEnd =>
    match m.frames with
    | .alarms _ :: fs =>
      some { m.withFrames (.completions :: fs) with alarmProcessDepth := m.alarmProcessDepth - 1 }
    | .handler _ :: fs =>
      some { (m.withFrames (.completions :: fs)).withOs (decrementSchedulerDisableCount m.os) with
        alarmProcessDepth := m.alarmProcessDepth - 1 }
    | _ => none
  | .completionsEnd completed =>
    match m.frames with
    | .completions :: fs =>
      (m.withFrames fs).finish fuel
        (if completed then runDeferredReschedule m.os else .returned m.os)
    | _ => none
  | .leaveIdle =>
    match m.frames with
    | .idle running :: fs =>
      if m.os.pending = 0 then none
      else (m.os.leaveIdle fuel running).map (m.withFrames fs).settle
    | _ => none
  | .entryReturns =>
    if m.host ≠ 0 ∧ m.frames = [] then
      some { m.withOs (m.os.returnFromEntry (m.os.hostThread m.host)) with host := 0 }
    else none
  | .deferEntry => if m.frames = [.rest .entry] then some { m with host := 0 } else none

/-! ## before the first step -/

/-- only the scheduler's host context has begun, and it is in no call -/
structure Boot (m : Machine) : Prop where
  host : m.host = 0
  frames : m.stack 0 = []
  entries : ∀ h, h ≠ 0 → m.stack h = [.rest .entry]
  depth : m.alarmProcessDepth = 0

end Machine

/-- a record that no thread has used -/
def OSThread.unused : OSThread where
  state := .terminated
  detached := false
  suspend := 0
  priority := 0
  base := 0
  exitValue := 0
  queue := none
  mutex := 0
  contextMode := 0
  contextState := 0

/-- the thread system after its initialisation: the main thread runs, and there is no other -/
def GuestOs.initial (main idle : Nat) : GuestOs where
  thread t :=
    if t = main then
      { OSThread.unused with state := .running, detached := true, priority := 16, base := 16 }
    else .unused
  mutex _ := ⟨0, 0⟩
  queues := ⟨fun _ => 0, fun _ => 0, fun _ => 0, fun _ => 0⟩
  held := ⟨fun _ => 0, fun _ => 0, fun _ => 0, fun _ => 0⟩
  threads := ⟨fun _ => 0, fun _ => 0, fun _ => main, fun _ => main⟩
  pending := 0
  reschedule := false
  disableCount := 0
  currentContext := main
  runningContext := main
  exceptionContext := 0
  defaultThread := main
  idleThread := idle
  fpeHandler := false
  advancingRetrace := false
  fibers _ := none
  currentGuestThread := 0
  nextHost := 1
  hostThread h := if h = 0 then main else 0
  log := []

def Machine.initial (main idle : Nat) : Machine where
  os := GuestOs.initial main idle
  host := 0
  stack h := if h = 0 then [] else [.rest .entry]
  alarmProcessDepth := 0

end DolTranslator.Os
