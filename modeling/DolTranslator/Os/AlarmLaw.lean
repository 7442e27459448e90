import DolTranslator.Os.AlarmList
import DolTranslator.Transition.Events

/-!
# The alarm queue under any environment

* `firstAfter`   the first time `start + n * period` after `now`; `nextFire_spec`: the time that
  the code computes, when it differs from `now` and is in range;
* `AlarmLaw`   the list is linked and sorted, alarms fire once and not early, and nothing is
  due when ProcessAlarmQueue stops;
* `alarm_queue_law`   the law, in every run whose times are in range.
-/

namespace DolTranslator.Os

open Function Intrusive Transition

/-! ## periodic times -/

/-- the times `start + n * period` after `now` -/
def LaterTimes (start now : Int) (period : Nat) : Set Int :=
  {t | (∃ n : Nat, t = start + n * period) ∧ now < t}

def firstAfter (start now : Int) (period : Nat) : Int :=
  if now < start then start else start + period * ((now - start) / period + 1)

theorem firstAfter_isLeast {start now : Int} {period : Nat} (hp : 0 < period) :
    IsLeast (LaterTimes start now period) (firstAfter start now period) := by
  have hp' : (0 : Int) < period := Int.natCast_pos.mpr hp
  unfold firstAfter
  by_cases h : now < start
  · rw [if_pos h]
    refine ⟨⟨⟨0, by simp⟩, h⟩, ?_⟩
    rintro t ⟨⟨n, rfl⟩, -⟩
    have hn : 0 ≤ (n : Int) * period := by positivity
    omega
  · rw [if_neg h]
    have hnonneg : 0 ≤ now - start := by omega
    have hdiv := Int.ediv_nonneg hnonneg hp'.le
    have hrem := Int.emod_lt_of_pos (now - start) hp'
    have hsplit := Int.mul_ediv_add_emod (now - start) period
    constructor
    · refine ⟨⟨((now - start) / period + 1).toNat, ?_⟩, ?_⟩
      · rw [Int.toNat_of_nonneg (by omega), mul_comm]
      · rw [mul_add, mul_one]
        omega
    · rintro t ⟨⟨n, rfl⟩, hlater⟩
      have hlt : (now - start) / period < n := by
        refine Int.ediv_lt_of_lt_mul hp' ?_
        omega
      have hmul := mul_le_mul_of_nonneg_left (Int.add_one_le_iff.mpr hlt) hp'.le
      rw [mul_comm (n : Int)]
      omega

/-- the clock is not at the start of a periodic alarm, and its next time is a time to come -/
def Schedulable (start now period : Ticks) : Prop :=
  start ≠ now ∧ 0 ≤ firstAfter start.toInt now.toInt period.toNat ∧
    firstAfter start.toInt now.toInt period.toNat < 2 ^ 63

variable {now : Ticks}

theorem toNat_sub_of_slt {start : Ticks} (h : start.toInt < now.toInt) :
    ((now - start).toNat : Int) = now.toInt - start.toInt := by
  have hs := start.isLt
  have hn := now.isLt
  rw [BitVec.toNat_sub]
  rw [BitVec.toInt_eq_toNat_cond, BitVec.toInt_eq_toNat_cond] at h ⊢
  split at h <;> split at h <;> omega

theorem ofInt_natCast_toNat (x : Ticks) : BitVec.ofInt 64 (x.toNat : Int) = x := by
  rw [BitVec.ofInt_natCast, BitVec.ofNat_toNat, BitVec.setWidth_eq]

/-- **The fire time of a periodic alarm**, when it can be told. -/
theorem nextFire_spec {a : Alarm} (fire : Ticks) (hp : a.period ≠ 0)
    (h : Schedulable a.start now a.period) :
    (AlarmQueue.nextFire a now fire).toInt = firstAfter a.start.toInt now.toInt a.period.toNat := by
  obtain ⟨hne, hlow, hhigh⟩ := h
  unfold AlarmQueue.nextFire
  rw [if_pos hp]
  by_cases hlt : a.start.toInt < now.toInt
  · have hge : ¬now.toInt < a.start.toInt := not_lt.mpr hlt.le
    have hdiff := toNat_sub_of_slt hlt
    have hquot : BitVec.ofInt 64 ((now.toInt - a.start.toInt) / a.period.toNat) =
        (now - a.start) / a.period := by
      rw [← hdiff, ← Int.natCast_ediv, ← BitVec.toNat_udiv, ofInt_natCast_toNat]
    have hfire : a.start + a.period * ((now - a.start) / a.period + 1) =
        BitVec.ofInt 64 (firstAfter a.start.toInt now.toInt a.period.toNat) := by
      unfold firstAfter
      rw [if_neg hge, BitVec.ofInt_add, BitVec.ofInt_mul, BitVec.ofInt_add, BitVec.ofInt_toInt, hquot,
        ofInt_natCast_toNat]
      rfl
    rw [if_pos (BitVec.slt_iff_toInt_lt.mpr hlt), hfire]
    exact BitVec.toInt_ofInt_eq_self (by decide) (by omega) hhigh
  · have hgt : now.toInt < a.start.toInt :=
      lt_of_le_of_ne (not_lt.mp hlt) fun e => hne (BitVec.eq_of_toInt_eq e.symm)
    rw [if_neg fun h => hlt (BitVec.slt_iff_toInt_lt.mp h), firstAfter, if_pos hgt]

/-! ## what the calls do to the list -/

variable {handler : Address} {now' : Ticks}

namespace AlarmQueue

variable {os os' : AlarmQueue} {xs : List Address} {x : Address} {fuel : Nat}

/-- an alarm went into the list; the others are as they were -/
def Inserted (os os' : AlarmQueue) (xs : List Address) (x : Address) (fire : Ticks)
    (handler : Address) (entries : List AlarmEntry) : Prop :=
  ∃ us vs, xs = us ++ vs ∧ os'.Consistent (us ++ x :: vs) ∧
    os'.log = .armed x fire handler :: (entries ++ os.log) ∧ (os'.alarm x).fire = fire ∧
    ∀ a ∈ xs, os'.alarm a = os.alarm a

theorem Consistent.inserted (hc : os.Consistent xs) (hx : x ∉ xs) (hx0 : x ≠ 0) {fire : Ticks}
    (h : (os.arm x fire handler).linkAlarmSorted fuel x fire = some os') :
    Inserted os os' xs x fire handler [] := by
  obtain ⟨us, vs, hxs, hc', hlog, halarm⟩ := hc.link hx hx0 h
  refine ⟨us, vs, hxs, hc', hlog, ?_, fun a ha => ?_⟩
  · rw [halarm]
    show (update os.alarm x _ x).fire = fire
    rw [update_self]
  · rw [halarm]
    exact arm_alarm hx ha

theorem setAlarm_spec (hc : os.Consistent xs) (hx : x ∉ xs) {offset : Ticks}
    (h : os.setAlarm fuel now x offset handler = some os') :
    x = 0 ∧ os' = os ∨ Inserted os os' xs x (now + offset) handler [] := by
  unfold setAlarm at h
  by_cases hx0 : x = 0
  · rw [if_pos hx0] at h
    exact Or.inl ⟨hx0, (Option.some.inj h).symm⟩
  · rw [if_neg hx0] at h
    dsimp only at h
    rw [sanitize_eq hc.queue] at h
    obtain ⟨us, vs, hxs, hc', hlog, hfire, hkept⟩ :=
      (hc.modify hx fun a => { a with period := 0 }).inserted hx hx0 h
    refine Or.inr ⟨us, vs, hxs, hc', hlog, hfire, fun a ha => (hkept a ha).trans ?_⟩
    exact update_of_ne (fun e : a = x => hx (e ▸ ha)) ..

def scheduledEntries (a : Alarm) (now fire : Ticks) : List AlarmEntry :=
  if a.period ≠ 0 then [.scheduled a.start a.period now fire] else []

theorem InsertAlarmNative_eq (fuel : Nat) (now : Ticks) (os : AlarmQueue) (x : Address)
    (fire : Ticks) (handler : Address) :
    os.InsertAlarmNative fuel now x fire handler =
      (({ os with log := scheduledEntries (os.alarm x) now (nextFire (os.alarm x) now fire) ++ os.log } :
        AlarmQueue).arm x (nextFire (os.alarm x) now fire) handler).linkAlarmSorted fuel x
          (nextFire (os.alarm x) now fire) := by
  unfold InsertAlarmNative scheduledEntries
  dsimp only
  split <;> rfl

theorem Consistent.scheduled (hc : os.Consistent xs) (a : Alarm) (now fire : Ticks) :
    ({ os with log := scheduledEntries a now fire ++ os.log } : AlarmQueue).Consistent xs := by
  unfold scheduledEntries
  split
  · exact hc.note_scheduled ..
  · exact hc

theorem InsertAlarmNative_spec (hc : os.Consistent xs) (hx : x ∉ xs) (hx0 : x ≠ 0)
    {fire : Ticks}
    (h : os.InsertAlarmNative fuel now x fire handler = some os') :
    Inserted os os' xs x (nextFire (os.alarm x) now fire) handler
      (scheduledEntries (os.alarm x) now (nextFire (os.alarm x) now fire)) := by
  rw [InsertAlarmNative_eq] at h
  exact (hc.scheduled ..).inserted hx hx0 h

theorem OSSetPeriodicAlarm_spec (hc : os.Consistent xs) (hx : x ∉ xs) (hx0 : x ≠ 0)
    {adjust start period : Ticks}
    (h : os.OSSetPeriodicAlarm fuel adjust now x start period handler = some os') :
    ∃ a : Alarm, a.start = start + adjust ∧ a.period = period ∧
      Inserted os os' xs x (nextFire a now 0) handler (scheduledEntries a now (nextFire a now 0)) := by
  unfold OSSetPeriodicAlarm at h
  dsimp only at h
  rw [sanitize_eq hc.queue] at h
  have hself : (os.modify x fun a => { a with period := period, start := start + adjust }).alarm x =
      { os.alarm x with period := period, start := start + adjust } := update_self ..
  have hins := InsertAlarmNative_spec
    (hc.modify hx fun a => { a with period := period, start := start + adjust }) hx hx0 h
  rw [hself] at hins
  obtain ⟨us, vs, hxs, hc', hlog, hfire, hkept⟩ := hins
  refine ⟨_, rfl, rfl, us, vs, hxs, hc', hlog, hfire, fun a ha => (hkept a ha).trans ?_⟩
  exact update_of_ne (fun e : a = x => hx (e ▸ ha)) ..

theorem processPass_stop (hc : os.Consistent xs)
    (h : os.processPass fuel now now' = some .stop) :
    ∀ a ∈ xs.head?, now < (os.alarm a).fire := by
  unfold processPass at h
  dsimp only at h
  rw [hc.queue.head_eq] at h
  cases xs with
  | nil => exact fun a ha => by cases ha
  | cons x xs =>
    have hx0 : x ≠ 0 := hc.queue.not_zero List.mem_cons_self
    rw [List.headD_cons, if_neg hx0] at h
    intro a ha
    obtain rfl := Option.some.inj ha
    by_contra hlt
    rw [if_neg hlt] at h
    split at h
    · obtain ⟨_, _, hp⟩ := Option.map_eq_some_iff.mp h
      cases hp
    · cases h

theorem processPass_fired (hc : os.Consistent xs) {alarm : Address}
    (h : os.processPass fuel now now' = some (.fired os' alarm handler)) :
    ∃ ys, xs = alarm :: ys ∧ ¬now < (os.alarm alarm).fire ∧
      handler = (os.alarm alarm).handler ∧
      let popped := os.popAlarm.note (.fired alarm (os.alarm alarm).fire (os.alarm alarm).handler
        (os.alarm alarm).period now)
      ((os.alarm alarm).period = 0 ∧ os' = popped ∨ (os.alarm alarm).period ≠ 0 ∧
        Inserted popped os' ys alarm (nextFire (os.alarm alarm) now' 0) handler
          [.scheduled (os.alarm alarm).start (os.alarm alarm).period now'
            (nextFire (os.alarm alarm) now' 0)]) := by
  unfold processPass at h
  dsimp only at h
  rw [hc.queue.head_eq] at h
  cases xs with
  | nil =>
    rw [List.headD_nil, if_pos rfl] at h
    cases h
  | cons x ys =>
    have hx0 : x ≠ 0 := hc.queue.not_zero List.mem_cons_self
    have hx : x ∉ ys := (List.nodup_cons.mp (List.nodup_cons.mp hc.queue.nodup).2).1
    rw [List.headD_cons, if_neg hx0] at h
    by_cases hlt : now < (os.alarm x).fire
    · rw [if_pos hlt] at h
      cases h
    · rw [if_neg hlt] at h
      by_cases hp : (os.alarm x).period ≠ 0
      · rw [if_pos hp] at h
        obtain ⟨os₁, hins, heq⟩ := Option.map_eq_some_iff.mp h
        obtain ⟨hos, hxa, hhandler⟩ := Pass.fired.inj heq
        subst hos hxa hhandler
        have hhead : os.links.head () = x := hc.queue.head_eq
        have hrecord : os.popAlarm.alarm x = { os.alarm x with handler := 0 } := by
          show update os.alarm (os.links.head ()) _ x = _
          rw [hhead, update_self]
        have hspec := InsertAlarmNative_spec (hc.pop _ now) hx hx0 hins
        have hnext : nextFire (os.popAlarm.alarm x) now' 0 = nextFire (os.alarm x) now' 0 := by
          rw [hrecord]
          rfl
        have hentries : scheduledEntries (os.popAlarm.alarm x) now' (nextFire (os.alarm x) now' 0) =
            [.scheduled (os.alarm x).start (os.alarm x).period now' (nextFire (os.alarm x) now' 0)] := by
          rw [hrecord]
          exact if_pos hp
        refine ⟨ys, rfl, hlt, rfl, Or.inr ⟨hp, ?_⟩⟩
        rw [← hentries, ← hnext]
        exact hspec
      · rw [if_neg hp] at h
        obtain ⟨hos, hxa, hhandler⟩ := Pass.fired.inj (Option.some.inj h)
        subst hos hxa hhandler
        exact ⟨ys, rfl, hlt, rfl, Or.inl ⟨not_not.mp hp, rfl⟩⟩

end AlarmQueue

/-! ## the law -/

/-- a periodic alarm that fires is armed again at once, with its handler and at its next time -/
def Requeued (log : List AlarmEntry) : Prop :=
  ∀ newer alarm fire handler period now older,
    log = newer ++ .fired alarm fire handler period now :: older → period ≠ 0 →
    ∃ rest start now' fire', newer =
      rest ++ [.armed alarm fire' handler, .scheduled start period now' fire']

/-- **What the alarm queue is for.** -/
structure AlarmLaw (s : AlarmSystem) : Prop where
  /-- the outstanding alarms, well linked, in the order of their fire times -/
  list : ∃ xs, Queue s.queue.links () xs ∧ xs.Pairwise s.queue.Earlier ∧
    ∀ a, a ∈ xs ↔ (outstanding a s.queue.log).isSome
  /-- an alarm's record is as it was armed -/
  record : ∀ a n fire handler, outstanding a s.queue.log = some (n, fire, handler) →
    (s.queue.alarm a).fire = fire ∧ (s.queue.alarm a).handler = handler
  /-- every arming fires once at most, and not before its time -/
  once : OnceEach s.queue.log
  due : ∀ alarm fire handler period now,
    .fired alarm fire handler period now ∈ s.queue.log → fire.toInt ≤ now.toInt
  /-- none that is due is left when ProcessAlarmQueue stops before its limit -/
  stopped : ∀ now, s.phase = .stopped now → ∀ a, (outstanding a s.queue.log).isSome →
    now.toInt < (s.queue.alarm a).fire.toInt
  requeued : Requeued s.queue.log
  periodic : ∀ start period now fire, .scheduled start period now fire ∈ s.queue.log →
    IsLeast (LaterTimes start.toInt now.toInt period.toNat) fire.toInt

/-- the alarm is not on the list -/
def AlarmSystem.Free (s : AlarmSystem) (a : Address) : Prop :=
  ∀ xs, Queue s.queue.links () xs → a ∉ xs

/-- an alarm is set when it is not queued -/
def AlarmEvent.Allowed (s : AlarmSystem) : AlarmEvent → Prop
  | .setAlarm likely _ r => s.Free (r.read likely).1
  | .setPeriodicAlarm _ _ alarm _ _ _ => alarm ≠ 0 ∧ s.Free alarm
  | .processAlarmQueue _ | .pass _ _ | .handlerReturns => True

/-- fire times and readings of the clock are not negative, and a periodic alarm's next time can be
told -/
def AlarmEvent.InRange (s : AlarmSystem) : AlarmEvent → Prop
  | .setAlarm likely now r => 0 ≤ (now + (r.read likely).2.1).toInt
  | .setPeriodicAlarm adjust now _ start period _ =>
    period ≠ 0 → Schedulable (start + adjust) now period
  | .pass now now' =>
    0 ≤ now.toInt ∧
      let alarm := s.queue.links.head ()
      let a := s.queue.alarm alarm
      (alarm ≠ 0 → a.fire ≤ now → a.period ≠ 0 → Schedulable a.start now' a.period)
  | .processAlarmQueue _ | .handlerReturns => True

/-- the law, with the list named, and the fire times in range -/
structure AlarmSystem.Sound (s : AlarmSystem) (xs : List Address) : Prop where
  list : s.queue.Consistent xs
  range : ∀ a ∈ xs, 0 ≤ (s.queue.alarm a).fire.toInt
  due : ∀ alarm fire handler period now,
    .fired alarm fire handler period now ∈ s.queue.log → fire.toInt ≤ now.toInt
  stopped : ∀ now, s.phase = .stopped now → ∀ a ∈ xs, now.toInt < (s.queue.alarm a).fire.toInt
  requeued : Requeued s.queue.log
  periodic : ∀ start period now fire, .scheduled start period now fire ∈ s.queue.log →
    IsLeast (LaterTimes start.toInt now.toInt period.toNat) fire.toInt

theorem AlarmSystem.Sound.law {s : AlarmSystem} {xs : List Address} (h : s.Sound xs) :
    AlarmLaw s where
  list := ⟨xs, h.list.queue, h.list.sorted, fun _ => h.list.mem_iff⟩
  record a n fire handler ho := by
    have ha : a ∈ xs := h.list.mem_iff.mpr (by rw [ho]; rfl)
    obtain ⟨n', hn'⟩ := h.list.armed a ha
    rw [hn'] at ho
    obtain ⟨-, hrest⟩ := Prod.mk.inj (Option.some.inj ho)
    exact Prod.mk.inj hrest
  once := h.list.once
  due := h.due
  stopped now hphase a ha := h.stopped now hphase a (h.list.mem_iff.mpr ha)
  requeued := h.requeued
  periodic := h.periodic

/-! ## every step keeps it -/

variable {s s' : AlarmSystem} {xs : List Address} {fuel : Nat}

theorem requeued_cons {log : List AlarmEntry} {e : AlarmEntry} (h : Requeued log)
    (he : ∀ alarm fire handler period now, e = .fired alarm fire handler period now → period = 0) :
    Requeued (e :: log) := by
  intro newer alarm fire handler period now older heq hp
  cases newer with
  | nil =>
    obtain ⟨rfl, -⟩ := List.cons.inj heq
    exact absurd (he _ _ _ _ _ rfl) hp
  | cons e' newer =>
    obtain ⟨rfl, hlog⟩ := List.cons.inj heq
    obtain ⟨rest, start, now', fire', hnewer⟩ := h newer _ _ _ _ _ _ hlog hp
    exact ⟨e :: rest, start, now', fire', by rw [hnewer]; rfl⟩

theorem requeued_fired {log : List AlarmEntry} (h : Requeued log) (alarm : Address)
    (fire : Ticks) (handler : Address) (start period now now' fire' : Ticks) :
    Requeued (.armed alarm fire' handler :: .scheduled start period now' fire' ::
      .fired alarm fire handler period now :: log) := by
  intro newer alarm' f' h' p' n' older heq hp
  match newer with
  | [] => cases heq
  | [_] => cases heq
  | [e, e'] =>
    simp only [List.cons_append, List.nil_append, List.cons.injEq, AlarmEntry.fired.injEq] at heq
    obtain ⟨rfl, rfl, ⟨rfl, rfl, rfl, rfl, rfl⟩, rfl⟩ := heq
    exact ⟨[], start, now', fire', rfl⟩
  | e :: e' :: e'' :: newer =>
    simp only [List.cons_append, List.cons.injEq] at heq
    obtain ⟨rfl, rfl, rfl, hlog⟩ := heq
    obtain ⟨rest, start', now'', fire'', hnewer⟩ := h newer _ _ _ _ _ _ hlog hp
    exact ⟨_ :: _ :: _ :: rest, start', now'', fire'', by rw [hnewer]; rfl⟩

theorem toInt_of_nonneg {t : Ticks} (h : 0 ≤ t.toInt) : t.toInt = t.toNat := by
  rw [BitVec.toInt_eq_toNat_cond] at h ⊢
  split
  · rfl
  · next hlt =>
    rw [if_neg hlt] at h
    have := t.isLt
    omega

theorem toInt_lt_iff {t u : Ticks} (ht : 0 ≤ t.toInt) (hu : 0 ≤ u.toInt) :
    t.toInt < u.toInt ↔ t < u := by
  rw [toInt_of_nonneg ht, toInt_of_nonneg hu, Int.ofNat_lt, BitVec.lt_def]

variable {q : AlarmQueue}

theorem sound_of_inserted {q' : AlarmQueue} {x : Address} {fire : Ticks}
    {entries : List AlarmEntry} {phase : AlarmPhase}
    (hins : q.Inserted q' xs x fire handler entries)
    (hrange : ∀ a ∈ xs, 0 ≤ (q.alarm a).fire.toInt)
    (hdue : ∀ alarm fire handler period now,
      .fired alarm fire handler period now ∈ q.log → fire.toInt ≤ now.toInt)
    (hperiodic : ∀ start period now fire, .scheduled start period now fire ∈ q.log →
      IsLeast (LaterTimes start.toInt now.toInt period.toNat) fire.toInt)
    (hfire : 0 ≤ fire.toInt)
    (hentries : ∀ e ∈ entries, ∃ start period now, e = .scheduled start period now fire ∧
      IsLeast (LaterTimes start.toInt now.toInt period.toNat) fire.toInt)
    (hrequeued : Requeued (.armed x fire handler :: (entries ++ q.log)))
    (hphase : ∀ now, phase ≠ .stopped now) :
    ∃ xs', (⟨q', phase⟩ : AlarmSystem).Sound xs' := by
  obtain ⟨us, vs, hxs, hc, hlog, hx, hkept⟩ := hins
  refine ⟨us ++ x :: vs, hc, fun a ha => ?_, fun a f h p n hmem => ?_,
    fun now heq => absurd heq (hphase now), ?_, fun st p n f hmem => ?_⟩
  · have hmem : a = x ∨ a ∈ xs := by
      rw [hxs]
      simp only [List.mem_append, List.mem_cons] at ha ⊢
      tauto
    rcases hmem with rfl | ha
    · show 0 ≤ (q'.alarm a).fire.toInt
      rwa [hx]
    · show 0 ≤ (q'.alarm a).fire.toInt
      rw [hkept a ha]
      exact hrange a ha
  · rw [hlog] at hmem
    rcases List.mem_cons.mp hmem with heq | hmem
    · cases heq
    rcases List.mem_append.mp hmem with hmem | hmem
    · obtain ⟨_, _, _, heq, _⟩ := hentries _ hmem
      cases heq
    · exact hdue a f h p n hmem
  · show Requeued q'.log
    rwa [hlog]
  · rw [hlog] at hmem
    rcases List.mem_cons.mp hmem with heq | hmem
    · cases heq
    rcases List.mem_append.mp hmem with hmem | hmem
    · obtain ⟨_, _, _, heq, hleast⟩ := hentries _ hmem
      obtain ⟨rfl, rfl, rfl, rfl⟩ := AlarmEntry.scheduled.inj heq
      exact hleast
    · exact hperiodic st p n f hmem

theorem left_ne_stopped (phase : AlarmPhase) (now : Ticks) : phase.left ≠ .stopped now := by
  cases phase <;> exact fun h => by cases h

theorem requeued_scheduled {log : List AlarmEntry} (h : Requeued log) (a : Alarm)
    (now fire fire' : Ticks) (x handler : Address) :
    Requeued (.armed x fire handler :: (AlarmQueue.scheduledEntries a now fire' ++ log)) := by
  refine requeued_cons ?_ fun _ _ _ _ _ he => by cases he
  unfold AlarmQueue.scheduledEntries
  split
  · exact requeued_cons h fun _ _ _ _ _ he => by cases he
  · exact h

theorem nextFire_sound (a : Alarm) (now : Ticks)
    (hs : a.period ≠ 0 → Schedulable a.start now a.period) :
    0 ≤ (AlarmQueue.nextFire a now 0).toInt ∧
      ∀ e ∈ AlarmQueue.scheduledEntries a now (AlarmQueue.nextFire a now 0),
        ∃ start period now', e = .scheduled start period now' (AlarmQueue.nextFire a now 0) ∧
          IsLeast (LaterTimes start.toInt now'.toInt period.toNat)
            (AlarmQueue.nextFire a now 0).toInt := by
  by_cases hp : a.period ≠ 0
  · have hfire := nextFire_spec 0 hp (hs hp)
    have hpos : 0 < a.period.toNat := by
      rcases Nat.eq_zero_or_pos a.period.toNat with h | h
      · exact absurd (BitVec.eq_of_toNat_eq h) hp
      · exact h
    rw [hfire]
    refine ⟨(hs hp).2.1, fun e he => ?_⟩
    unfold AlarmQueue.scheduledEntries at he
    rw [if_pos hp] at he
    exact ⟨_, _, _, List.mem_singleton.mp he, firstAfter_isLeast hpos⟩
  · unfold AlarmQueue.nextFire AlarmQueue.scheduledEntries
    rw [if_neg hp, if_neg hp]
    exact ⟨by decide, fun e he => by cases he⟩

theorem sound_setAlarm (h : s.Sound xs) {likely : Address → Bool}
    {r : SetAlarmArguments} (hfree : s.Free (r.read likely).1)
    (hrange : 0 ≤ (now + (r.read likely).2.1).toInt)
    (hq : s.queue.OSSetAlarm fuel likely now r = some q) :
    ∃ xs', (⟨q, s.phase.left⟩ : AlarmSystem).Sound xs' := by
  have hx := hfree xs h.list.queue
  rcases AlarmQueue.setAlarm_spec h.list hx hq with ⟨-, rfl⟩ | hins
  · exact ⟨xs, h.list, h.range, h.due, fun now heq => absurd heq (left_ne_stopped _ now), h.requeued,
      h.periodic⟩
  · exact sound_of_inserted hins h.range h.due h.periodic hrange (fun e he => by cases he)
      (requeued_cons h.requeued fun _ _ _ _ _ he => by cases he) (left_ne_stopped _)

theorem sound_setPeriodicAlarm (h : s.Sound xs) {adjust start period : Ticks}
    {alarm : Address} (h0 : alarm ≠ 0) (hfree : s.Free alarm)
    (hrange : period ≠ 0 → Schedulable (start + adjust) now period)
    (hq : s.queue.OSSetPeriodicAlarm fuel adjust now alarm start period handler = some q) :
    ∃ xs', (⟨q, s.phase.left⟩ : AlarmSystem).Sound xs' := by
  have hx := hfree xs h.list.queue
  obtain ⟨a, hstart, hperiod, hins⟩ := AlarmQueue.OSSetPeriodicAlarm_spec h.list hx h0 hq
  have hnext := nextFire_sound a now (by rwa [hstart, hperiod])
  exact sound_of_inserted hins h.range h.due h.periodic hnext.1 hnext.2
    (requeued_scheduled h.requeued _ _ _ _ _ _) (left_ne_stopped _)

theorem sound_stop (h : s.Sound xs) (hnow : 0 ≤ now.toInt)
    (hpass : s.queue.processPass fuel now now' = some .stop) :
    ({ s with phase := .stopped now } : AlarmSystem).Sound xs := by
  refine ⟨h.list, h.range, h.due, fun now'' heq => ?_, h.requeued, h.periodic⟩
  obtain rfl := AlarmPhase.stopped.inj heq
  have hhead := AlarmQueue.processPass_stop h.list hpass
  cases xs with
  | nil => exact fun a ha => by cases ha
  | cons x xs =>
    have hx : now.toInt < (s.queue.alarm x).fire.toInt :=
      (toInt_lt_iff hnow (h.range x List.mem_cons_self)).mpr (hhead x rfl)
    intro a ha
    rcases List.mem_cons.mp ha with rfl | ha
    · exact hx
    · exact hx.trans_le ((List.pairwise_cons.mp h.list.sorted).1 a ha).le

theorem sound_fired (h : s.Sound xs) (hnow : 0 ≤ now.toInt)
    (hrange : s.queue.links.head () ≠ 0 → (s.queue.alarm (s.queue.links.head ())).fire ≤ now →
      (s.queue.alarm (s.queue.links.head ())).period ≠ 0 →
      Schedulable (s.queue.alarm (s.queue.links.head ())).start now'
        (s.queue.alarm (s.queue.links.head ())).period)
    {alarm : Address}
    (hpass : s.queue.processPass fuel now now' = some (.fired q alarm handler)) {phase : AlarmPhase}
    (hphase : ∀ now, phase ≠ .stopped now) : ∃ xs', (⟨q, phase⟩ : AlarmSystem).Sound xs' := by
  obtain ⟨ys, rfl, hlt, rfl, hcases⟩ := AlarmQueue.processPass_fired h.list hpass
  have hhead : s.queue.links.head () = alarm := h.list.queue.head_eq
  have h0 : alarm ≠ 0 := h.list.queue.not_zero List.mem_cons_self
  have hx : alarm ∉ ys := (List.nodup_cons.mp (List.nodup_cons.mp h.list.queue.nodup).2).1
  rw [hhead] at hrange
  have hdue : (s.queue.alarm alarm).fire.toInt ≤ now.toInt :=
    not_lt.mp fun hlt' => hlt ((toInt_lt_iff hnow (h.range alarm List.mem_cons_self)).mp hlt')
  -- the state after the head is off, before it is back
  have hkept : ∀ a ∈ ys, s.queue.popAlarm.alarm a = s.queue.alarm a := fun a ha => by
    show update s.queue.alarm (s.queue.links.head ()) _ a = _
    rw [hhead]
    exact update_of_ne (fun e : a = alarm => hx (e ▸ ha)) ..
  have hrange' : ∀ a ∈ ys, 0 ≤ (s.queue.popAlarm.alarm a).fire.toInt := fun a ha => by
    rw [hkept a ha]
    exact h.range a (List.mem_cons_of_mem alarm ha)
  have hdue' : ∀ a f h' p n, AlarmEntry.fired a f h' p n ∈
      (.fired alarm (s.queue.alarm alarm).fire (s.queue.alarm alarm).handler
        (s.queue.alarm alarm).period now :: s.queue.log) → f.toInt ≤ n.toInt := by
    intro a f h' p n hmem
    rcases List.mem_cons.mp hmem with heq | hmem
    · obtain ⟨-, rfl, -, -, rfl⟩ := AlarmEntry.fired.inj heq
      exact hdue
    · exact h.due a f h' p n hmem
  have hperiodic' : ∀ start period now₁ fire, AlarmEntry.scheduled start period now₁ fire ∈
      (.fired alarm (s.queue.alarm alarm).fire (s.queue.alarm alarm).handler
        (s.queue.alarm alarm).period now :: s.queue.log) →
      IsLeast (LaterTimes start.toInt now₁.toInt period.toNat) fire.toInt := by
    intro start period now₁ fire hmem
    rcases List.mem_cons.mp hmem with heq | hmem
    · cases heq
    · exact h.periodic start period now₁ fire hmem
  rcases hcases with ⟨hp, rfl⟩ | ⟨hp, hins⟩
  · refine ⟨ys, h.list.pop _ now, hrange', hdue', fun now heq => absurd heq (hphase now), ?_,
      hperiodic'⟩
    refine requeued_cons h.requeued fun _ _ _ _ _ he => ?_
    obtain ⟨-, -, -, rfl, -⟩ := AlarmEntry.fired.inj he
    exact hp
  · have hsched : Schedulable (s.queue.alarm alarm).start now' (s.queue.alarm alarm).period :=
      hrange h0 (BitVec.not_lt.mp hlt) hp
    have hnext := nextFire_sound (s.queue.alarm alarm) now' fun _ => hsched
    have hentries := hnext.2
    unfold AlarmQueue.scheduledEntries at hentries
    rw [if_pos hp] at hentries
    exact sound_of_inserted hins hrange' hdue' hperiodic' hnext.1 hentries
      (requeued_fired h.requeued _ _ _ _ _ _ _ _) hphase

/-- **One step.** -/
theorem sound_next (h : s.Sound xs) {e : AlarmEvent} (hallowed : e.Allowed s) (hrange : e.InRange s)
    (hnext : s.next fuel e = some s') : ∃ xs', s'.Sound xs' := by
  cases e with
  | setAlarm likely now r =>
    simp only [AlarmSystem.next] at hnext
    split at hnext
    · obtain ⟨q, hq, rfl⟩ := Option.map_eq_some_iff.mp hnext
      exact sound_setAlarm h hallowed hrange hq
    · cases hnext
  | setPeriodicAlarm adjust now alarm start period handler =>
    simp only [AlarmSystem.next] at hnext
    split at hnext
    · obtain ⟨q, hq, rfl⟩ := Option.map_eq_some_iff.mp hnext
      exact sound_setPeriodicAlarm h hallowed.1 hallowed.2 hrange hq
    · cases hnext
  | processAlarmQueue maxToProcess =>
    have hother (phase : AlarmPhase) (hphase : ∀ now, phase ≠ .stopped now) :
        ({ s with phase := phase } : AlarmSystem).Sound xs :=
      ⟨h.list, h.range, h.due, fun now heq => absurd heq (hphase now), h.requeued, h.periodic⟩
    simp only [AlarmSystem.next] at hnext
    rw [AlarmQueue.sanitize_eq h.list.queue] at hnext
    split at hnext
    · cases hnext
    · obtain rfl := Option.some.inj hnext
      exact ⟨xs, h⟩
    · split at hnext
      · obtain rfl := Option.some.inj hnext
        exact ⟨xs, hother .idle fun _ h => by cases h⟩
      · obtain rfl := Option.some.inj hnext
        exact ⟨xs, hother (.looping maxToProcess) fun _ h => by cases h⟩
  | pass now now' =>
    simp only [AlarmSystem.next] at hnext
    split at hnext
    · obtain rfl := Option.some.inj hnext
      exact ⟨xs, h.list, h.range, h.due, fun now heq => (by cases heq), h.requeued, h.periodic⟩
    · next left _ =>
      obtain ⟨p, hp, rfl⟩ := Option.map_eq_some_iff.mp hnext
      cases p with
      | stop => exact ⟨xs, sound_stop h hrange.1 hp⟩
      | fired q alarm handler =>
        refine sound_fired h hrange.1 hrange.2 hp fun now => ?_
        split <;> exact fun h => by cases h
    · cases hnext
  | handlerReturns =>
    simp only [AlarmSystem.next] at hnext
    split at hnext
    · obtain rfl := Option.some.inj hnext
      exact ⟨xs, h.list, h.range, h.due, fun now heq => (by cases heq), h.requeued, h.periodic⟩
    · cases hnext

/-! ## no step is stuck -/

/-- the phases that an event can come in -/
def AlarmEvent.Fits (s : AlarmSystem) : AlarmEvent → Prop
  | .setAlarm _ _ _ | .setPeriodicAlarm _ _ _ _ _ _ | .processAlarmQueue _ =>
    s.phase.callable = true
  | .pass _ _ => ∃ left, s.phase = .looping left
  | .handlerReturns => ∃ left, s.phase = .handling left

theorem insertAlarmNative_isSome {x : Address} (hc : q.Consistent xs) (hx : x ∉ xs)
    (now fire : Ticks) (handler : Address) :
    (q.InsertAlarmNative xs.length now x fire handler).isSome := by
  rw [AlarmQueue.InsertAlarmNative_eq]
  exact (hc.scheduled ..).link_isSome hx le_rfl

theorem processPass_isSome (hc : q.Consistent xs) (now now' : Ticks) :
    (q.processPass xs.length now now').isSome := by
  unfold AlarmQueue.processPass
  dsimp only
  rw [hc.queue.head_eq]
  cases xs with
  | nil => rfl
  | cons x ys =>
    have hx0 : x ≠ 0 := hc.queue.not_zero List.mem_cons_self
    have hx : x ∉ ys := (List.nodup_cons.mp (List.nodup_cons.mp hc.queue.nodup).2).1
    rw [List.headD_cons, if_neg hx0]
    split
    · rfl
    split
    · rw [Option.isSome_map, AlarmQueue.InsertAlarmNative_eq]
      exact ((hc.pop _ now).scheduled ..).link_isSome hx (Nat.le_succ _)
    · rfl

/-- **An event that fits has a step**: the walks along the list end. -/
theorem next_isSome (h : s.Sound xs) {e : AlarmEvent} (hallowed : e.Allowed s) (hfits : e.Fits s) :
    (s.next xs.length e).isSome := by
  cases e with
  | setAlarm likely now r =>
    have hx := hallowed xs h.list.queue
    simp only [AlarmSystem.next, if_pos (show s.phase.callable = true from hfits),
      Option.isSome_map]
    show (s.queue.setAlarm xs.length now _ _ _).isSome
    unfold AlarmQueue.setAlarm
    split
    · rfl
    · dsimp only
      rw [AlarmQueue.sanitize_eq h.list.queue]
      exact (h.list.modify hx _).link_isSome hx le_rfl
  | setPeriodicAlarm adjust now alarm start period handler =>
    have hx := hallowed.2 xs h.list.queue
    simp only [AlarmSystem.next, if_pos (show s.phase.callable = true from hfits),
      Option.isSome_map]
    unfold AlarmQueue.OSSetPeriodicAlarm
    dsimp only
    rw [AlarmQueue.sanitize_eq h.list.queue]
    exact insertAlarmNative_isSome (h.list.modify hx _) hx ..
  | processAlarmQueue maxToProcess =>
    simp only [AlarmSystem.next]
    split
    · next left heq =>
      have hfits : s.phase.callable = true := hfits
      rw [heq] at hfits
      cases hfits
    · rfl
    · split <;> rfl
  | pass now now' =>
    obtain ⟨left, hleft⟩ := hfits
    simp only [AlarmSystem.next, hleft]
    cases left with
    | zero => rfl
    | succ left =>
      rw [Option.isSome_map]
      exact processPass_isSome h.list now now'
  | handlerReturns =>
    obtain ⟨left, hleft⟩ := hfits
    simp only [AlarmSystem.next, hleft]
    rfl

/-! ## runs -/

/-- no alarm is queued; what the records hold does not matter -/
def AlarmSystem.Empty (s : AlarmSystem) : Prop :=
  s.queue.links.head () = 0 ∧ s.queue.links.tail () = 0 ∧ s.queue.log = [] ∧ s.phase = .idle

theorem AlarmSystem.Empty.sound (h : s.Empty) : s.Sound [] := by
  obtain ⟨hhead, htail, hlog, hphase⟩ := h
  refine ⟨⟨Queue.nil_of_empty hhead htail, fun a ha => (by cases ha), fun a _ => ?_,
    List.Pairwise.nil, ?_⟩, fun a ha => (by cases ha), fun a f t p n hmem => ?_, fun now heq => ?_, ?_,
    fun st p n f hmem => ?_⟩
  · rw [hlog]
    rfl
  · rw [hlog]
    trivial
  · rw [hlog] at hmem
    cases hmem
  · rw [hphase] at heq
    cases heq
  · intro newer alarm f t p n older heq
    rw [hlog] at heq
    exact absurd heq.symm (by simp)
  · rw [hlog] at hmem
    cases hmem

/-- a step, with some bound on the walk along the list -/
def AlarmSystem.Steps (s : AlarmSystem) (e : AlarmEvent) (s' : AlarmSystem) : Prop :=
  ∃ fuel, s.next fuel e = some s'

/-- **The alarm queue is sorted and fires each alarm.**  In every run from an empty queue whose alarms
are set when they are not queued and whose times are in range, the law holds in every state reached,
and every event that fits has its step. -/
theorem alarm_queue_law (h : Driven AlarmSystem.Empty
      (fun s e => AlarmEvent.Allowed s e ∧ AlarmEvent.InRange s e) AlarmSystem.Steps s) :
    AlarmLaw s ∧ ∀ e : AlarmEvent, e.Allowed s → e.Fits s → ∃ s', s.Steps e s' := by
  have hsound : ∃ xs, s.Sound xs := by
    refine h.invariant (I := fun s => ∃ xs, s.Sound xs) (fun s hs => ⟨[], hs.sound⟩) ?_
    rintro s e s' ⟨xs, hs⟩ ⟨hallowed, hrange⟩ ⟨fuel, hnext⟩
    exact sound_next hs hallowed hrange hnext
  obtain ⟨xs, hs⟩ := hsound
  refine ⟨hs.law, fun e hallowed hfits => ?_⟩
  obtain ⟨s', hs'⟩ := Option.isSome_iff_exists.mp (next_isSome hs hallowed hfits)
  exact ⟨s', xs.length, hs'⟩

def noAlarms : AlarmSystem where
  queue :=
    { alarm := fun _ => ⟨0, 0, 0, 0⟩
      links := ⟨fun _ => 0, fun _ => 0, fun _ => 0, fun _ => 0⟩
      log := [] }
  phase := .idle

theorem noAlarms_empty : noAlarms.Empty := ⟨rfl, rfl, rfl, rfl⟩

/-- OSSetAlarm of a record with an offset, at time 0 -/
def setAt (alarm : Address) (offset : Ticks) : AlarmEvent :=
  .setAlarm (fun _ => true) 0 ⟨alarm, 0, offset.extractLsb' 32 32, offset.extractLsb' 0 32, 0x80001000⟩

def afterEvent (s : AlarmSystem) (e : AlarmEvent) : AlarmSystem := (s.next 2 e).getD s

theorem free_of_empty {s : AlarmSystem} (h : s.queue.links.head () = 0) (a : Address) : s.Free a := by
  intro xs hq
  rw [hq.head_eq_zero.mp h]
  exact List.not_mem_nil

theorem alarm_queue_law_fires :
    AlarmLaw (afterEvent (afterEvent (afterEvent noAlarms (setAt 0x90000000 5))
      (.processAlarmQueue 1)) (.pass 5 5)) := by
  refine (alarm_queue_law (.step (.step (.step (.start noAlarms_empty) (e := setAt 0x90000000 5)
    ⟨free_of_empty rfl _, ?_⟩ ⟨2, rfl⟩) (e := .processAlarmQueue 1) ⟨trivial, trivial⟩ ⟨2, rfl⟩)
    (e := .pass 5 5) ⟨trivial, ?_⟩ ⟨2, rfl⟩)).1
  · show 0 ≤ (0 + ((5 : Ticks).extractLsb' 32 32 ++ (5 : Ticks).extractLsb' 0 32) : Ticks).toInt
    decide
  · exact ⟨by decide, fun _ _ hp => absurd rfl hp⟩

def overdue : AlarmSystem :=
  afterEvent (afterEvent (afterEvent (afterEvent noAlarms (setAt 0x90000000 0x8000000000000000))
    (setAt 0x90000040 0)) (.processAlarmQueue 1)) (.pass 0 0)

theorem free_of_single {s : AlarmSystem} {a b : Address} (h0 : a ≠ 0)
    (hhead : s.queue.links.head () = a) (hnext : s.queue.links.next a = 0) (hb : b ≠ a) :
    s.Free b := by
  intro xs hq hmem
  have hfirst := hq.head_eq
  rw [hhead] at hfirst
  cases xs with
  | nil => exact h0 hfirst
  | cons x ys =>
    have hx : a = x := hfirst
    subst hx
    have hsplit : Queue s.queue.links () ([] ++ a :: ys) := hq
    have hrest := hsplit.next_eq
    rw [hnext] at hrest
    cases ys with
    | nil => exact hb (List.mem_singleton.mp hmem)
    | cons y ys =>
      have hy : (0 : Address) = y := hrest
      exact hq.not_zero (List.mem_cons_of_mem a List.mem_cons_self) hy.symm

theorem due_alarm_blocked :
    ¬∀ s, Driven AlarmSystem.Empty (fun s e => AlarmEvent.Allowed s e) AlarmSystem.Steps s →
      AlarmLaw s := by
  intro h
  have hrun : Driven AlarmSystem.Empty (fun s e => AlarmEvent.Allowed s e) AlarmSystem.Steps overdue := by
    refine .step (.step (.step (.step (.start noAlarms_empty)
      (e := setAt 0x90000000 0x8000000000000000) (free_of_empty rfl _) ⟨2, rfl⟩)
      (e := setAt 0x90000040 0) ?_ ⟨2, rfl⟩) (e := .processAlarmQueue 1) trivial ⟨2, rfl⟩)
      (e := .pass 0 0) trivial ⟨2, rfl⟩
    exact free_of_single (a := 0x90000000) (by decide) rfl rfl (by decide)
  have hlaw := (h overdue hrun).stopped 0 rfl 0x90000040 rfl
  exact absurd hlaw (by decide)

end DolTranslator.Os
