import DolTranslator.Intrusive.Queues

/-!
# The alarm queue

Alarms live in guest memory, a record per address, and are linked into one list in the order of
their fire times.  Times are 64-bit counts of ticks; every reading of the clock is an argument.

* `linkAlarmSorted`, `InsertAlarmNative`   into the list;
* `OSSetAlarm`, `OSSetPeriodicAlarm`   the calls of the game;
* `processPass`   one pass of ProcessAlarmQueue's loop.

The walk along the list takes a bound on its steps and gives `none` when the bound is too small.
The queue's place in memory is fixed: r13 holds the SDA base.
-/

namespace DolTranslator.Os

open Function Intrusive

abbrev Address := BitVec 32

abbrev Ticks := BitVec 64

structure Alarm where
  handler : Address
  fire : Ticks
  period : Ticks
  start : Ticks
  deriving DecidableEq

/-- what happened to the alarms, newest first; no call reads it -/
inductive AlarmEntry where
  | armed (alarm : Address) (fire : Ticks) (handler : Address)
  | fired (alarm : Address) (fire : Ticks) (handler : Address) (period now : Ticks)
  /-- a periodic alarm's fire time was computed -/
  | scheduled (start period now fire : Ticks)
  deriving DecidableEq

structure AlarmQueue where
  alarm : Address → Alarm
  /-- links at 0x10 and 0x14 of an alarm -/
  links : Links Address Unit
  log : List AlarmEntry

/-- the argument registers of OSSetAlarm -/
structure SetAlarmArguments where
  r3 : Address
  r4 : BitVec 32
  r5 : BitVec 32
  r6 : BitVec 32
  r7 : BitVec 32

/-- alarm, ticks and handler: the ticks in r5 and r6 or, when r7 is no code and r6 is, in r4 and r5 -/
def SetAlarmArguments.read (r : SetAlarmArguments) (isLikelyCodeAddress : Address → Bool) :
    Address × Ticks × Address :=
  if ¬isLikelyCodeAddress r.r7 ∧ isLikelyCodeAddress r.r6 then (r.r3, r.r4 ++ r.r5, r.r6)
  else (r.r3, r.r5 ++ r.r6, r.r7)

namespace AlarmQueue

def note (os : AlarmQueue) (e : AlarmEntry) : AlarmQueue := { os with log := e :: os.log }

def modify (os : AlarmQueue) (a : Address) (f : Alarm → Alarm) : AlarmQueue :=
  { os with alarm := update os.alarm a (f (os.alarm a)) }

/-- a list whose head is linked to itself counts as empty -/
def SanitizeAlarmQueue (os : AlarmQueue) : AlarmQueue :=
  let head := os.links.head ()
  if head ≠ 0 ∧ os.links.next head = head ∧ os.links.prev head = head ∧ head = os.links.tail () then
    { os with links :=
      { head := fun _ => 0
        tail := fun _ => 0
        prev := update os.links.prev head 0
        next := update os.links.next head 0 } }
  else os

/-- where an alarm goes: after `prev`, before `cur` -/
def insertionPoint (os : AlarmQueue) (fireTime : Ticks) : Nat → Address → Address →
    Option (Address × Address)
  | 0, prev, cur => if cur = 0 then some (prev, cur) else none
  | fuel + 1, prev, cur =>
    if cur = 0 then some (prev, cur)
    else if fireTime.slt (os.alarm cur).fire then some (prev, cur)
    else insertionPoint os fireTime fuel cur (os.links.next cur)

/-- into a list that has a head -/
def linkBetween (l : Links Address Unit) (alarm prev cur : Address) : Links Address Unit :=
  if prev = 0 then
    let head := l.head ()
    { l with
      next := update l.next alarm head
      prev := update l.prev head alarm
      head := fun _ => alarm }
  else
    let l := { l with
      prev := update l.prev alarm prev
      next := update (update l.next alarm cur) prev alarm }
    if cur ≠ 0 then { l with prev := update l.prev cur alarm }
    else { l with tail := fun _ => alarm }

def linkAlarmSorted (fuel : Nat) (os : AlarmQueue) (alarm : Address) (fireTime : Ticks) :
    Option AlarmQueue :=
  let head := os.links.head ()
  if head = 0 then
    some { os with links := { os.links with head := fun _ => alarm, tail := fun _ => alarm } }
  else
    (os.insertionPoint fireTime fuel 0 head).map fun (prev, cur) =>
      { os with links := linkBetween os.links alarm prev cur }

def writeAlarm (os : AlarmQueue) (alarm : Address) (fire : Ticks) (handler : Address) : AlarmQueue :=
  let os := os.modify alarm fun a => { a with handler := handler, fire := fire }
  { os with links :=
    { os.links with
      next := update os.links.next alarm 0
      prev := update os.links.prev alarm 0 } }

/-- when an alarm fires: a periodic one by its start and period, another one at `fire` -/
def nextFire (a : Alarm) (now fire : Ticks) : Ticks :=
  if a.period ≠ 0 then
    if a.start.slt now then a.start + a.period * ((now - a.start) / a.period + 1) else a.start
  else fire

def InsertAlarmNative (fuel : Nat) (now : Ticks) (os : AlarmQueue) (alarm : Address) (fire : Ticks)
    (handler : Address) : Option AlarmQueue :=
  let a := os.alarm alarm
  let fire := nextFire a now fire
  let os := if a.period ≠ 0 then os.note (.scheduled a.start a.period now fire) else os
  ((os.writeAlarm alarm fire handler).note (.armed alarm fire handler)).linkAlarmSorted fuel alarm
    fire

/-- with its arguments read -/
def setAlarm (fuel : Nat) (now : Ticks) (os : AlarmQueue) (alarm : Address) (offset : Ticks)
    (handler : Address) : Option AlarmQueue :=
  if alarm = 0 then some os
  else
    let os := os.SanitizeAlarmQueue
    let fireTime := now + offset
    let os := os.modify alarm fun a => { a with period := 0 }
    ((os.writeAlarm alarm fireTime handler).note (.armed alarm fireTime handler)).linkAlarmSorted
      fuel alarm fireTime

def OSSetAlarm (fuel : Nat) (isLikelyCodeAddress : Address → Bool) (now : Ticks) (os : AlarmQueue)
    (r : SetAlarmArguments) : Option AlarmQueue :=
  let (alarm, offset, handler) := r.read isLikelyCodeAddress
  os.setAlarm fuel now alarm offset handler

/-- `adjust` turns the time of the game into the system's -/
def OSSetPeriodicAlarm (fuel : Nat) (adjust now : Ticks) (os : AlarmQueue) (alarm : Address)
    (start period : Ticks) (handler : Address) : Option AlarmQueue :=
  let os := os.SanitizeAlarmQueue
  let os := os.modify alarm fun a => { a with period := period, start := start + adjust }
  os.InsertAlarmNative fuel now alarm 0 handler

def popAlarm (os : AlarmQueue) : AlarmQueue :=
  let alarm := os.links.head ()
  let links := os.links.popFront ()
  { os with
    alarm := update os.alarm alarm { os.alarm alarm with handler := 0 }
    links := { links with next := update links.next alarm 0, prev := update links.prev alarm 0 } }

inductive Pass where
  /-- no alarm, or none whose time has come -/
  | stop
  /-- the head was taken off; its handler is to be called, unless it is null -/
  | fired (os : AlarmQueue) (alarm handler : Address)

/-- one pass of the loop: the clock is read once, and again by the insertion of a periodic alarm -/
def processPass (fuel : Nat) (now now' : Ticks) (os : AlarmQueue) : Option Pass :=
  let alarm := os.links.head ()
  if alarm = 0 then some .stop
  else
    let a := os.alarm alarm
    if now < a.fire then some .stop
    else
      let os := os.popAlarm.note (.fired alarm a.fire a.handler a.period now)
      if a.period ≠ 0 then
        (os.InsertAlarmNative fuel now' alarm 0 a.handler).map fun os => .fired os alarm a.handler
      else some (.fired os alarm a.handler)

end AlarmQueue

/-! ## the queue under its environment -/

/-- where ProcessAlarmQueue is -/
inductive AlarmPhase where
  | idle
  /-- before a pass, with so many left -/
  | looping (left : Nat)
  /-- in the handler that a pass called, or in a thread that it made ready -/
  | handling (left : Nat)
  /-- returned before its limit, after reading the clock -/
  | stopped (now : Ticks)
  deriving DecidableEq

structure AlarmSystem where
  queue : AlarmQueue
  phase : AlarmPhase

inductive AlarmEvent where
  | setAlarm (isLikelyCodeAddress : Address → Bool) (now : Ticks) (arguments : SetAlarmArguments)
  | setPeriodicAlarm (adjust now : Ticks) (alarm : Address) (start period : Ticks)
      (handler : Address)
  | processAlarmQueue (maxToProcess : Nat)
  | pass (now now' : Ticks)
  | handlerReturns

def AlarmPhase.callable : AlarmPhase → Bool
  | .looping _ => false
  | _ => true

def AlarmPhase.left : AlarmPhase → AlarmPhase
  | .stopped _ => .idle
  | phase => phase

def AlarmSystem.next (fuel : Nat) (s : AlarmSystem) : AlarmEvent → Option AlarmSystem
  | .setAlarm likely now r =>
    if s.phase.callable then
      (s.queue.OSSetAlarm fuel likely now r).map fun queue => ⟨queue, s.phase.left⟩
    else none
  | .setPeriodicAlarm adjust now alarm start period handler =>
    if s.phase.callable then
      (s.queue.OSSetPeriodicAlarm fuel adjust now alarm start period handler).map fun queue =>
        ⟨queue, s.phase.left⟩
    else none
  | .processAlarmQueue maxToProcess =>
    match s.phase with
    | .looping _ => none
    -- its recursion guard
    | .handling _ => some s
    | _ =>
      if maxToProcess = 0 then some { s with phase := .idle }
      else some ⟨s.queue.SanitizeAlarmQueue, .looping maxToProcess⟩
  | .pass now now' =>
    match s.phase with
    | .looping 0 => some { s with phase := .idle }
    | .looping (left + 1) =>
      (s.queue.processPass fuel now now').map fun
        | .stop => { s with phase := .stopped now }
        | .fired queue _ handler =>
          ⟨queue, if handler ≠ 0 then .handling left else .looping left⟩
    | _ => none
  | .handlerReturns =>
    match s.phase with
    | .handling left => some { s with phase := .looping left }
    | _ => none

end DolTranslator.Os

/-!
## The alarm list is linked and sorted

* `outstanding a log`    the arming of an alarm that has not fired yet;
* `OnceEach log`         an alarm is armed when it is not outstanding, and fires when it is;
* `AlarmQueue.Consistent os xs`   the list is `xs`: the outstanding alarms, in the order of their fire
                         times, the one armed earlier first among equals;
* `Consistent.link`, `Consistent.pop`   in and out of the list.
-/

namespace DolTranslator.Os

open Function Intrusive

/-! ## what the log says -/

def outstanding (a : Address) : List AlarmEntry → Option (Nat × Ticks × Address)
  | [] => none
  | .armed a' fire handler :: log =>
    if a' = a then some (log.length, fire, handler) else outstanding a log
  | .fired a' _ _ _ _ :: log => if a' = a then none else outstanding a log
  | .scheduled _ _ _ _ :: log => outstanding a log

def OnceEach : List AlarmEntry → Prop
  | [] => True
  | .armed a _ _ :: log => outstanding a log = none ∧ OnceEach log
  | .fired a fire handler _ _ :: log =>
    (∃ n, outstanding a log = some (n, fire, handler)) ∧ OnceEach log
  | .scheduled _ _ _ _ :: log => OnceEach log

variable {a b x : Address} {log : List AlarmEntry} {n : Nat} {t : Ticks} {h : Address}

theorem outstanding_lt (ho : outstanding a log = some (n, t, h)) : n < log.length := by
  induction log with
  | nil => cases ho
  | cons e log ih =>
    have hskip (hlog : outstanding a log = some (n, t, h)) : n < (e :: log).length :=
      (ih hlog).trans (Nat.lt_succ_self _)
    cases e with
    | armed a' fire handler =>
      unfold outstanding at ho
      split at ho
      · obtain ⟨rfl, -⟩ := Prod.mk.inj (Option.some.inj ho)
        exact Nat.lt_succ_self _
      · exact hskip ho
    | fired a' fire handler period now =>
      unfold outstanding at ho
      split at ho
      · cases ho
      · exact hskip ho
    | scheduled => exact hskip ho

namespace AlarmQueue

variable {os : AlarmQueue} {xs us vs : List Address}

def age (os : AlarmQueue) (a : Address) : Nat := ((outstanding a os.log).map (·.1)).getD 0

def Earlier (os : AlarmQueue) (a b : Address) : Prop :=
  (os.alarm a).fire.toInt < (os.alarm b).fire.toInt ∨
    (os.alarm a).fire = (os.alarm b).fire ∧ os.age a < os.age b

structure Consistent (os : AlarmQueue) (xs : List Address) : Prop where
  queue : Queue os.links () xs
  armed : ∀ a ∈ xs, ∃ n, outstanding a os.log = some (n, (os.alarm a).fire, (os.alarm a).handler)
  free : ∀ a, a ∉ xs → outstanding a os.log = none
  sorted : xs.Pairwise os.Earlier
  once : OnceEach os.log

theorem Earlier.le (h : os.Earlier a b) : (os.alarm a).fire.toInt ≤ (os.alarm b).fire.toInt := by
  rcases h with h | h
  · exact h.le
  · rw [h.1]

theorem Consistent.mem_iff (h : os.Consistent xs) : a ∈ xs ↔ (outstanding a os.log).isSome := by
  constructor
  · intro ha
    obtain ⟨n, hn⟩ := h.armed a ha
    rw [hn]
    rfl
  · intro ha
    by_contra hout
    rw [h.free a hout] at ha
    cases ha

theorem sanitize_eq (h : Queue os.links () xs) : os.SanitizeAlarmQueue = os := by
  unfold SanitizeAlarmQueue
  refine if_neg fun hself => ?_
  cases xs with
  | nil => exact hself.1 h.head_eq
  | cons x ys =>
    have hhead : os.links.head () = x := h.head_eq
    have hsplit : Queue os.links () ([] ++ x :: ys) := h
    have hnext : os.links.next x = ys.headD 0 := hsplit.next_eq
    rw [hhead, hnext] at hself
    cases ys with
    | nil => exact hself.1 hself.2.1.symm
    | cons y ys =>
      have hyx : y = x := hself.2.1
      have hnodup := (List.nodup_cons.mp (List.nodup_cons.mp h.nodup).2).1
      exact hnodup (hyx ▸ List.mem_cons_self)

/-! ## where an alarm goes -/

theorem before_snoc (a x : Address) (us : List Address) : before a (us ++ [x]) = x := by
  induction us generalizing a with
  | nil => rfl
  | cons u us ih => exact ih u

theorem insertionPoint_spec {fuel : Nat} {fireTime : Ticks} {p c : Address}
    (hq : Queue os.links () (us ++ vs))
    (h : os.insertionPoint fireTime fuel (before 0 us) (vs.headD 0) = some (p, c)) :
    ∃ ws zs, vs = ws ++ zs ∧ p = before 0 (us ++ ws) ∧ c = zs.headD 0 ∧
      (∀ a ∈ ws, ¬fireTime.slt (os.alarm a).fire) ∧
      ∀ a ∈ zs.head?, fireTime.slt (os.alarm a).fire := by
  induction fuel generalizing us vs with
  | zero =>
    unfold insertionPoint at h
    split at h
    · next hzero =>
      obtain ⟨rfl, rfl⟩ := Prod.mk.inj (Option.some.inj h)
      refine ⟨[], vs, rfl, by rw [List.append_nil], rfl, fun a ha => (by cases ha), fun a ha => ?_⟩
      cases vs with
      | nil => cases ha
      | cons v vs => exact absurd hzero (hq.not_zero (by simp))
    · cases h
  | succ fuel ih =>
    unfold insertionPoint at h
    cases vs with
    | nil =>
      rw [List.headD_nil, if_pos rfl] at h
      obtain ⟨rfl, rfl⟩ := Prod.mk.inj (Option.some.inj h)
      exact ⟨[], [], rfl, by rw [List.append_nil], rfl, fun a ha => (by cases ha),
        fun a ha => (by cases ha)⟩
    | cons v vs =>
      have hv : v ≠ 0 := hq.not_zero (by simp)
      rw [List.headD_cons, if_neg hv] at h
      by_cases hlt : fireTime.slt (os.alarm v).fire = true
      · rw [if_pos hlt] at h
        obtain ⟨rfl, rfl⟩ := Prod.mk.inj (Option.some.inj h)
        refine ⟨[], v :: vs, rfl, by rw [List.append_nil], rfl, fun a ha => (by cases ha), ?_⟩
        intro a ha
        obtain rfl := Option.some.inj ha
        exact hlt
      · have hnext : os.links.next v = vs.headD 0 := hq.next_eq
        have hsplit : us ++ v :: vs = (us ++ [v]) ++ vs := by
          rw [List.append_assoc, List.singleton_append]
        rw [if_neg hlt, hnext, ← before_snoc 0 v us] at h
        obtain ⟨ws, zs, rfl, hp, hc, hle, hgt⟩ := ih (hsplit ▸ hq) h
        refine ⟨v :: ws, zs, rfl, ?_, hc, fun a ha => ?_, hgt⟩
        · rw [hp, List.append_assoc, List.singleton_append]
        · rcases List.mem_cons.mp ha with rfl | ha
          · exact hlt
          · exact hle a ha

theorem insertionPoint_isSome {fuel : Nat} {fireTime : Ticks} (hq : Queue os.links () (us ++ vs))
    (hfuel : vs.length ≤ fuel) :
    (os.insertionPoint fireTime fuel (before 0 us) (vs.headD 0)).isSome := by
  induction fuel generalizing us vs with
  | zero =>
    rw [List.length_eq_zero_iff.mp (Nat.le_zero.mp hfuel)]
    rfl
  | succ fuel ih =>
    unfold insertionPoint
    cases vs with
    | nil => rfl
    | cons v vs =>
      have hv : v ≠ 0 := hq.not_zero (by simp)
      rw [List.headD_cons, if_neg hv]
      split
      · rfl
      · have hnext : os.links.next v = vs.headD 0 := hq.next_eq
        have hsplit : us ++ v :: vs = (us ++ [v]) ++ vs := by
          rw [List.append_assoc, List.singleton_append]
        rw [hnext, ← before_snoc 0 v us]
        exact ih (hsplit ▸ hq) (Nat.le_of_succ_le_succ hfuel)

/-- the only alarm of a list -/
theorem queue_single {l : Links Address Unit} (hx : x ≠ 0) (hnext : l.next x = 0)
    (hprev : l.prev x = 0) :
    Queue { l with head := fun _ => x, tail := fun _ => x } () [x] := by
  refine ⟨⟨⟨?_, ?_⟩, ?_, ?_⟩, ?_⟩
  · exact if_pos rfl
  · exact (if_neg hx).trans hprev
  · exact (if_neg hx).trans hnext
  · exact if_pos rfl
  · exact List.nodup_cons.mpr ⟨fun h => hx (List.mem_singleton.mp h).symm, List.nodup_singleton x⟩

theorem linkBetween_queue {l : Links Address Unit} (hq : Queue l () (us ++ vs))
    (hx : x ∉ 0 :: (us ++ vs)) (hprev : l.prev x = 0) (hne : us ++ vs ≠ []) :
    Queue (linkBetween l x (before 0 us) (vs.headD 0)) () (us ++ x :: vs) := by
  have hx0 : x ≠ 0 := fun e => hx (e ▸ List.mem_cons_self)
  cases us with
  | nil =>
    have hhead : l.head () = vs.headD 0 := hq.head_eq
    have hv : vs.headD 0 ≠ 0 := by
      cases vs with
      | nil => exact absurd rfl hne
      | cons v vs => exact hq.not_zero List.mem_cons_self
    refine hq.joinAt hx (fun z => ?_) (fun z => ?_)
    · show (if z = 0 then x else update l.next x (l.head ()) z) = if z = 0 then x else _
      by_cases hz : z = 0
      · rw [if_pos hz, if_pos hz]
      · rw [if_neg hz, if_neg hz, hhead, update_apply]
        by_cases hzx : z = x
        · rw [if_pos hzx, if_pos hzx]
        · rw [if_neg hzx, if_neg hzx]
          exact (if_neg hz).symm
    · show (if z = 0 then l.tail () else update l.prev (l.head ()) x z) = _
      rw [hhead, update_apply]
      by_cases hz : z = 0
      · subst hz
        rw [if_pos rfl, if_neg hv.symm, if_neg hx0.symm]
        rfl
      · rw [if_neg hz]
        by_cases hzv : z = vs.headD 0
        · rw [if_pos hzv, if_pos hzv]
        · rw [if_neg hzv, if_neg hzv]
          by_cases hzx : z = x
          · rw [if_pos hzx, hzx]
            exact hprev
          · rw [if_neg hzx]
            exact (if_neg hz).symm
  | cons u us =>
    have hp : before 0 (u :: us) ≠ 0 := by
      have hmem : before u us ∈ u :: us := before_mem
      exact hq.not_zero (List.mem_append_left vs hmem)
    have hpx : before 0 (u :: us) ≠ x := by
      have hmem : before u us ∈ u :: us := before_mem
      exact fun e => hx (List.mem_cons_of_mem 0 (List.mem_append_left vs (e ▸ hmem)))
    generalize hp' : before 0 (u :: us) = p at hp hpx
    generalize hc' : vs.headD 0 = c
    have hnext : (linkBetween l x p c).next = update (update l.next x c) p x := by
      unfold linkBetween
      rw [if_neg hp]
      dsimp only
      split <;> rfl
    have hhead : (linkBetween l x p c).head = l.head := by
      unfold linkBetween
      rw [if_neg hp]
      dsimp only
      split <;> rfl
    refine hq.joinAt hx (fun z => ?_) (fun z => ?_)
    · rw [hp', hc', Links.succ, hnext, hhead]
      by_cases hz : z = 0
      · subst hz
        rw [if_pos rfl, if_neg hp.symm, if_neg hx0.symm]
        rfl
      · rw [if_neg hz, update_apply]
        by_cases hzp : z = p
        · rw [if_pos hzp, if_pos hzp]
        · rw [if_neg hzp, if_neg hzp, update_apply]
          by_cases hzx : z = x
          · rw [if_pos hzx, if_pos hzx]
          · rw [if_neg hzx, if_neg hzx]
            exact (if_neg hz).symm
    · rw [hp', hc', Links.pred]
      by_cases hc : c = 0
      · have hprev' : (linkBetween l x p c).prev = update l.prev x p := by
          unfold linkBetween
          rw [if_neg hp]
          exact congrArg Links.prev (if_neg (not_not.mpr hc))
        have htail : (linkBetween l x p c).tail = fun _ => x := by
          unfold linkBetween
          rw [if_neg hp]
          exact congrArg Links.tail (if_neg (not_not.mpr hc))
        rw [hprev', htail, hc]
        by_cases hz : z = 0
        · rw [if_pos hz, if_pos hz]
        · rw [if_neg hz, if_neg hz, update_apply]
          by_cases hzx : z = x
          · rw [if_pos hzx, if_pos hzx]
          · rw [if_neg hzx, if_neg hzx]
            exact (if_neg hz).symm
      · have hprev' : (linkBetween l x p c).prev = update (update l.prev x p) c x := by
          unfold linkBetween
          rw [if_neg hp]
          exact congrArg Links.prev (if_pos hc)
        have htail : (linkBetween l x p c).tail = l.tail := by
          unfold linkBetween
          rw [if_neg hp]
          dsimp only
          rw [if_pos hc]
        rw [hprev', htail]
        by_cases hz : z = 0
        · subst hz
          rw [if_pos rfl, if_neg (Ne.symm hc), if_neg hx0.symm]
          rfl
        · rw [if_neg hz, update_apply]
          by_cases hzc : z = c
          · rw [if_pos hzc, if_pos hzc]
          · rw [if_neg hzc, if_neg hzc, update_apply]
            by_cases hzx : z = x
            · rw [if_pos hzx, if_pos hzx]
            · rw [if_neg hzx, if_neg hzx]
              exact (if_neg hz).symm

/-! ## in and out of the list -/

theorem Consistent.modify (hc : os.Consistent xs) (hx : x ∉ xs) (f : Alarm → Alarm) :
    (os.modify x f).Consistent xs := by
  have hkept : ∀ a ∈ xs, (os.modify x f).alarm a = os.alarm a := fun a ha =>
    update_of_ne (fun e : a = x => hx (e ▸ ha)) ..
  refine ⟨hc.queue, fun a ha => ?_, hc.free, hc.sorted.imp_of_mem fun {a b} ha hb hab => ?_, hc.once⟩
  · rw [hkept a ha]
    exact hc.armed a ha
  · unfold Earlier
    rw [hkept a ha, hkept b hb]
    exact hab

theorem Consistent.note_scheduled (hc : os.Consistent xs) (start period now fire : Ticks) :
    (os.note (.scheduled start period now fire)).Consistent xs :=
  ⟨hc.queue, hc.armed, hc.free, hc.sorted, hc.once⟩

/-- the state that an alarm is linked in: written, and noted as armed -/
def arm (os : AlarmQueue) (x : Address) (fire : Ticks) (handler : Address) : AlarmQueue :=
  (os.writeAlarm x fire handler).note (.armed x fire handler)

section
variable {fire : Ticks} {handler : Address}

theorem arm_alarm (hx : x ∉ xs) {a : Address} (ha : a ∈ xs) :
    (os.arm x fire handler).alarm a = os.alarm a := update_of_ne (fun e : a = x => hx (e ▸ ha)) ..

theorem arm_outstanding (hx : x ∉ xs) {a : Address} (ha : a ∈ xs) :
    outstanding a (os.arm x fire handler).log = outstanding a os.log :=
  if_neg fun e : x = a => hx (e ▸ ha)

variable (hc : os.Consistent xs) (hx : x ∉ xs)
include hc hx

theorem Consistent.arm_queue : Queue (os.arm x fire handler).links () xs :=
  hc.queue.congr rfl rfl (fun z hz => update_of_ne (fun e : z = x => hx (e ▸ hz)) ..)
    fun z hz => update_of_ne (fun e : z = x => hx (e ▸ hz)) ..

/-- an alarm among the others: after those that are not later, before those that are -/
theorem Consistent.arm_sorted {us vs : List Address} (hxs : xs = us ++ vs)
    (hle : ∀ a ∈ us, ¬fire.slt ((os.arm x fire handler).alarm a).fire)
    (hgt : ∀ a ∈ vs.head?, fire.slt ((os.arm x fire handler).alarm a).fire) :
    (us ++ x :: vs).Pairwise (os.arm x fire handler).Earlier := by
  have hold : xs.Pairwise (os.arm x fire handler).Earlier := by
    refine hc.sorted.imp_of_mem fun {a b} ha hb hab => ?_
    unfold Earlier age at hab ⊢
    rwa [arm_alarm hx ha, arm_alarm hx hb, arm_outstanding hx ha, arm_outstanding hx hb]
  have hself : ((os.arm x fire handler).alarm x).fire = fire := by
    show (update os.alarm x _ x).fire = fire
    rw [update_self]
  have hage : (os.arm x fire handler).age x = os.log.length := by
    show ((if x = x then some (os.log.length, fire, handler) else _).map _).getD 0 = _
    rw [if_pos rfl]
    rfl
  rw [hxs] at hold
  have hvs : ∀ b ∈ vs, fire.toInt < ((os.arm x fire handler).alarm b).fire.toInt := by
    cases vs with
    | nil => exact fun b hb => by cases hb
    | cons v vs =>
      have hv : fire.toInt < ((os.arm x fire handler).alarm v).fire.toInt :=
        BitVec.slt_iff_toInt_lt.mp (hgt v rfl)
      intro b hb
      rcases List.mem_cons.mp hb with rfl | hb
      · exact hv
      · have hsorted := List.pairwise_cons.mp (List.pairwise_append.mp hold).2.1
        exact hv.trans_le (hsorted.1 b hb).le
  have hus : ∀ a ∈ us, (os.arm x fire handler).Earlier a x := by
    intro a ha
    have hmem : a ∈ xs := hxs ▸ List.mem_append_left vs ha
    have hnot : ¬fire.toInt < ((os.arm x fire handler).alarm a).fire.toInt := fun hlt =>
      hle a ha (BitVec.slt_iff_toInt_lt.mpr hlt)
    unfold Earlier
    rw [hself, hage]
    rcases lt_or_eq_of_le (not_lt.mp hnot) with hlt | heq
    · exact Or.inl hlt
    · obtain ⟨n, hn⟩ := hc.armed a hmem
      refine Or.inr ⟨BitVec.eq_of_toInt_eq heq, ?_⟩
      have hlast := outstanding_lt hn
      unfold age
      rwa [arm_outstanding hx hmem, hn]
  refine List.pairwise_append.mpr ⟨(List.pairwise_append.mp hold).1, ?_, ?_⟩
  · refine List.pairwise_cons.mpr ⟨fun b hb => Or.inl ?_, (List.pairwise_append.mp hold).2.1⟩
    rw [hself]
    exact hvs b hb
  · intro a ha b hb
    rcases List.mem_cons.mp hb with rfl | hb
    · exact hus a ha
    · exact (List.pairwise_append.mp hold).2.2 a ha b hb

/-- **Into the list.** -/
theorem Consistent.link (hx0 : x ≠ 0) {fuel : Nat} {os' : AlarmQueue}
    (heq : (os.arm x fire handler).linkAlarmSorted fuel x fire = some os') :
    ∃ us vs, xs = us ++ vs ∧ os'.Consistent (us ++ x :: vs) ∧
      os'.log = .armed x fire handler :: os.log ∧ os'.alarm = (os.arm x fire handler).alarm := by
  have hq : Queue (os.arm x fire handler).links () xs := hc.arm_queue hx
  have hprev : (os.arm x fire handler).links.prev x = 0 := update_self ..
  have hnext : (os.arm x fire handler).links.next x = 0 := update_self ..
  have hnew : x ∉ 0 :: xs := fun hmem => (List.mem_cons.mp hmem).elim hx0 hx
  -- what does not depend on where the alarm goes
  have hrest {us vs : List Address} {l : Links Address Unit} (hxs : xs = us ++ vs)
      (hl : Queue l () (us ++ x :: vs)) (hsorted : (us ++ x :: vs).Pairwise
        (os.arm x fire handler).Earlier) :
      ({ os.arm x fire handler with links := l } : AlarmQueue).Consistent (us ++ x :: vs) := by
    have hmem (a : Address) : a ∈ us ++ x :: vs ↔ a = x ∨ a ∈ xs := by
      rw [hxs]
      simp only [List.mem_append, List.mem_cons]
      tauto
    refine ⟨hl, fun a ha => ?_, fun a ha => ?_, hsorted, hc.free x hx, hc.once⟩
    · rcases (hmem a).mp ha with rfl | ha
      · refine ⟨os.log.length, ?_⟩
        show (if a = a then some (os.log.length, fire, handler) else _) = _
        rw [if_pos rfl]
        show _ = some (os.log.length, (update os.alarm a _ a).fire, (update os.alarm a _ a).handler)
        rw [update_self]
      · have hkept : (os.arm x fire handler).alarm a = os.alarm a := arm_alarm hx ha
        obtain ⟨n, hn⟩ := hc.armed a ha
        refine ⟨n, ?_⟩
        show outstanding a (os.arm x fire handler).log = _
        rw [arm_outstanding hx ha, hn]
        show _ = some (n, ((os.arm x fire handler).alarm a).fire,
          ((os.arm x fire handler).alarm a).handler)
        rw [hkept]
    · have hout := not_or.mp fun h => ha ((hmem a).mpr h)
      exact (if_neg (Ne.symm hout.1)).trans (hc.free a hout.2)
  unfold linkAlarmSorted at heq
  by_cases hhead : (os.arm x fire handler).links.head () = 0
  · have hnil : xs = [] := hq.head_eq_zero.mp hhead
    subst hnil
    dsimp only at heq
    rw [if_pos hhead] at heq
    obtain rfl := Option.some.inj heq
    exact ⟨[], [], rfl, hrest rfl (queue_single hx0 hnext hprev) (List.pairwise_singleton _ _),
      rfl, rfl⟩
  · dsimp only at heq
    rw [if_neg hhead, hq.head_eq] at heq
    obtain ⟨⟨p, c⟩, hpoint, hos⟩ := Option.map_eq_some_iff.mp heq
    obtain ⟨us, vs, hxs, rfl, rfl, hle, hgt⟩ :=
      insertionPoint_spec (show Queue _ () ([] ++ _) from hq) hpoint
    have hne : us ++ vs ≠ [] := fun hnil => hhead (hq.head_eq_zero.mpr (hxs.trans hnil))
    have hsorted := hc.arm_sorted hx hxs hle hgt
    have hlinked := linkBetween_queue (hxs ▸ hq) (hxs ▸ hnew) hprev hne
    subst hos
    exact ⟨us, vs, hxs, hrest hxs hlinked hsorted, rfl, rfl⟩

theorem Consistent.link_isSome {fuel : Nat} (hfuel : xs.length ≤ fuel) :
    ((os.arm x fire handler).linkAlarmSorted fuel x fire).isSome := by
  have hq : Queue (os.arm x fire handler).links () xs := hc.arm_queue hx
  unfold linkAlarmSorted
  dsimp only
  split
  · rfl
  · rw [hq.head_eq, Option.isSome_map]
    exact insertionPoint_isSome (show Queue _ () ([] ++ _) from hq) hfuel

end

/-- **Out of the list.** -/
theorem Consistent.pop (hc : os.Consistent (x :: xs)) (period now : Ticks) :
    (os.popAlarm.note (.fired x (os.alarm x).fire (os.alarm x).handler period now)).Consistent xs := by
  have hhead : os.links.head () = x := hc.queue.head_eq
  have hx : x ∉ xs := (List.nodup_cons.mp (List.nodup_cons.mp hc.queue.nodup).2).1
  have hpop : Queue (os.links.popFront ()) () xs := hc.queue.popFront
  have hkept : ∀ a ∈ xs, (os.popAlarm).alarm a = os.alarm a := fun a ha => by
    show update os.alarm (os.links.head ()) _ a = _
    rw [hhead]
    exact update_of_ne (fun e : a = x => hx (e ▸ ha)) ..
  have hlog : ∀ a ∈ xs,
      outstanding a (.fired x (os.alarm x).fire (os.alarm x).handler period now :: os.log) =
        outstanding a os.log := fun a ha => if_neg fun e : x = a => hx (e ▸ ha)
  refine ⟨?_, fun a ha => ?_, fun a ha => ?_, ?_, hc.armed x List.mem_cons_self, hc.once⟩
  · refine hpop.congr rfl rfl (fun z hz => ?_) fun z hz => ?_
    · exact update_of_ne (fun e : z = os.links.head () => hx (hhead ▸ e ▸ hz)) ..
    · exact update_of_ne (fun e : z = os.links.head () => hx (hhead ▸ e ▸ hz)) ..
  · obtain ⟨n, hn⟩ := hc.armed a (List.mem_cons_of_mem x ha)
    refine ⟨n, (hlog a ha).trans (hn.trans ?_)⟩
    show _ = some (n, (os.popAlarm.alarm a).fire, (os.popAlarm.alarm a).handler)
    rw [hkept a ha]
  · show (if x = a then none else outstanding a os.log) = none
    by_cases hxa : x = a
    · rw [if_pos hxa]
    · rw [if_neg hxa]
      refine hc.free a fun hmem => ?_
      rcases List.mem_cons.mp hmem with rfl | hmem
      · exact hxa rfl
      · exact ha hmem
  · refine (List.pairwise_cons.mp hc.sorted).2.imp_of_mem fun {a b} ha hb hab => ?_
    unfold Earlier age at hab ⊢
    show ((os.popAlarm.alarm a).fire.toInt < (os.popAlarm.alarm b).fire.toInt) ∨
      (os.popAlarm.alarm a).fire = (os.popAlarm.alarm b).fire ∧
        ((outstanding a (.fired x _ _ period now :: os.log)).map (·.1)).getD 0 <
          ((outstanding b (.fired x _ _ period now :: os.log)).map (·.1)).getD 0
    rwa [hkept a ha, hkept b hb, hlog a ha, hlog b hb]

end AlarmQueue

end DolTranslator.Os
