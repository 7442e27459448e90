import DolTranslator.Os.Calls
import DolTranslator.Streams.Ring

/-!
# Message queues

One message queue and the threads that use it.  A thread gives way to another only where its call
sleeps or wakes; `MessagePc` says where it stands.

* `MessageQueue.ready`, `MessageQueue.apply`   the queue alone;
* `MessageSystem.attempt`   one turn of the loop of MsgQueueOp;
* `MessageSystem.next`   one step of the running thread.

The message array overlaps no other record, and neither do the words that OSReceiveMessage fills.
-/

namespace DolTranslator.Os

open Function Intrusive

abbrev Word := BitVec 32

/-! ## the queue alone -/

structure MessageQueue where
  address : Nat
  msgArray : Word
  msgCount : Word
  firstIndex : Word
  usedCount : Word
  /-- the words of the array, where guest memory has them -/
  word : Word → Option Word

/-- where OSReceiveMessage puts the message: nowhere, or at an address that may be refused -/
inductive OutPointer where
  | null
  | mapped
  | refused
  deriving DecidableEq, Repr

inductive MessageOp where
  | send (msg : Word)
  | jam (msg : Word)
  | receive (out : OutPointer)
  deriving DecidableEq, Repr

/-- what became of the queue -/
inductive Effect where
  | sent (msg : Word)
  | jammed (msg : Word)
  | received (msg : Word)
  deriving DecidableEq, Repr

/-- the two ends of a queue at which threads wait -/
inductive Side where
  | send
  | receive
  deriving DecidableEq, Repr

def Side.other : Side → Side
  | .send => .receive
  | .receive => .send

def MessageOp.side : MessageOp → Side
  | .send _ | .jam _ => .send
  | .receive _ => .receive

namespace MessageQueue

/-- OSInitMessageQueue, for the array as guest memory has it -/
def init (address : Nat) (msgArray msgCount : Word) (word : Word → Option Word) : MessageQueue where
  address := address
  msgArray := msgArray
  msgCount := msgCount
  firstIndex := 0
  usedCount := 0
  word := word

def waiters (q : MessageQueue) : Side → WaitQueue
  | .send => .other q.address
  | .receive => .other (q.address + 8)

def isFull (q : MessageQueue) : Bool := q.msgCount ≠ 0 ∧ q.usedCount ≥ q.msgCount

def isEmpty (q : MessageQueue) : Bool := q.usedCount = 0

def slot (q : MessageQueue) (index : Word) : Word := q.msgArray + index * 4

/-- a write to the array, unless guest memory refuses it -/
def put (q : MessageQueue) (index msg : Word) : Option MessageQueue :=
  (q.word (q.slot index)).map fun _ => { q with word := update q.word (q.slot index) (some msg) }

abbrev Outcome := MessageQueue × Option Effect × Bool

def enqueue (q : MessageQueue) (msg : Word) : Outcome :=
  if q.msgCount = 0 then (q, none, true)
  else
    match q.put ((q.firstIndex + q.usedCount) % q.msgCount) msg with
    | none => (q, none, false)
    | some q => ({ q with usedCount := q.usedCount + 1 }, some (.sent msg), true)

def jam (q : MessageQueue) (msg : Word) : Outcome :=
  if q.msgCount = 0 then (q, none, true)
  else
    let first := if q.firstIndex = 0 then q.msgCount - 1 else q.firstIndex - 1
    match q.put first msg with
    | none => (q, none, false)
    | some q =>
      ({ q with firstIndex := first, usedCount := q.usedCount + 1 }, some (.jammed msg), true)

/-- MsgQueueDequeue and the store after it -/
def dequeue (q : MessageQueue) (out : OutPointer) : Outcome :=
  if q.msgCount = 0 ∨ q.usedCount = 0 then (q, none, out ≠ .refused)
  else
    match q.word (q.slot q.firstIndex) with
    | none => (q, none, false)
    | some msg =>
      ({ q with
          firstIndex := (q.firstIndex + 1) % q.msgCount
          usedCount := q.usedCount - 1 },
        some (.received msg), out ≠ .refused)

def ready (q : MessageQueue) : MessageOp → Bool
  | .send _ | .jam _ => !q.isFull
  | .receive _ => !q.isEmpty

def apply (q : MessageQueue) : MessageOp → Outcome
  | .send msg => q.enqueue msg
  | .jam msg => q.jam msg
  | .receive out => q.dequeue out

end MessageQueue

/-! ## the threads -/

/-- where a thread stands -/
inductive MessagePc where
  | user
  /-- in OSSleepThread, or back from it and about to test again -/
  | parked (op : MessageOp)
  /-- in OSWakeupThread, with its operation done -/
  | waking (op : MessageOp)
  deriving DecidableEq, Repr

/-- what happened, newest first; no call reads it -/
inductive MessageEntry where
  | applied (thread : Nat) (effect : Effect)
  | returned (thread : Nat) (result : Bool)
  deriving DecidableEq, Repr

structure MessageSystem where
  os : GuestOs
  queue : MessageQueue
  pc : Nat → MessagePc
  log : List MessageEntry

inductive MessageEvent where
  /-- the running thread calls OSSendMessage, OSJamMessage or OSReceiveMessage -/
  | call (op : MessageOp) (block : Bool)
  /-- the running thread goes on with its call -/
  | resume
  deriving DecidableEq, Repr

namespace MessageSystem

def setPc (s : MessageSystem) (t : Nat) (pc : MessagePc) : MessageSystem :=
  { s with pc := update s.pc t pc }

def withOs (s : MessageSystem) (os : GuestOs) : MessageSystem := { s with os := os }

def note (s : MessageSystem) (e : MessageEntry) : MessageSystem := { s with log := e :: s.log }

def finish (s : MessageSystem) (t : Nat) (result : Bool) : MessageSystem :=
  (s.setPc t .user).note (.returned t result)

def choose (fuel : Nat) (s : MessageSystem) : Option MessageSystem :=
  (s.os.chooseThread fuel).map fun choice => s.withOs choice.os

def wake (fuel : Nat) (s : MessageSystem) (t : Nat) (op : MessageOp) : Option MessageSystem :=
  match s.os.wakeupThread (s.queue.waiters op.side.other) with
  | .returned os => some ((s.withOs os).finish t true)
  | .choosing os _ => ((s.withOs os).setPc t (.waking op)).choose fuel

def park (fuel : Nat) (s : MessageSystem) (t : Nat) (op : MessageOp) : Option MessageSystem :=
  (GuestOs.sleepThread fuel s.os (s.queue.waiters op.side)).bind fun
    | .returned os => some ((s.withOs os).setPc t (.parked op))
    | .choosing os _ => ((s.withOs os).setPc t (.parked op)).choose fuel

def perform (s : MessageSystem) (t : Nat) (op : MessageOp) : MessageSystem × Bool :=
  let (queue, effect, ok) := s.queue.apply op
  ({ s with queue := queue, log := (effect.map (.applied t)).toList ++ s.log }, ok)

/-- one turn of the loop of MsgQueueOp -/
def attempt (fuel : Nat) (s : MessageSystem) (t : Nat) (op : MessageOp) (block : Bool) :
    Option MessageSystem :=
  if s.queue.ready op then
    let (s, ok) := s.perform t op
    if ok then s.wake fuel t op else some (s.finish t false)
  else if block then s.park fuel t op
  else some (s.finish t false)

def next (fuel : Nat) (s : MessageSystem) (e : MessageEvent) : Option MessageSystem :=
  let t := s.os.runningContext
  if t = 0 then none
  else
    match e, s.pc t with
    | .call op block, .user => s.attempt fuel t op block
    | .resume, .parked op =>
      (s.withOs (s.os.sleepUndo t (s.queue.waiters op.side))).attempt fuel t op true
    | .resume, .waking _ => some (s.finish t true)
    | _, _ => none

end MessageSystem

end DolTranslator.Os
