import DolTranslator.Os.Scheduling
import DolTranslator.Os.Machine

/-!
# Going to sleep keeps the queues consistent

* `initial_sound`   before the first call;
* `sleepThread_spec`   made in a sound state by a running thread that is on no queue, it comes back
  to a sound state or stands before the choice with consistent queues.
-/

namespace DolTranslator.Os

open Function Intrusive GuestOs

variable {os os' : GuestOs} {c : QueueAddr → List Nat} {q : QueueAddr} {t u : Nat} {w : WaitQueue}
  {fuel : Nat} {e : Ending}

theorem initial_sound (main idle : Nat) : Sound (GuestOs.initial main idle) := by
  have hrecord : ∀ t, (GuestOs.initial main idle).thread t =
      if t = main then
        { OSThread.unused with state := .running, detached := true, priority := 16, base := 16 }
      else .unused := fun _ => rfl
  have hplace : ∀ t, ((GuestOs.initial main idle).thread t).place = none := by
    intro t
    rw [hrecord]
    split <;> rfl
  have hself := (hrecord main).trans (if_pos rfl)
  have hnil : Holds (GuestOs.initial main idle).queues fun _ : QueueAddr => ([] : List Nat) :=
    ⟨fun _ => ⟨⟨rfl, rfl⟩, List.nodup_singleton 0⟩, fun _ _ _ hx => absurd hx List.not_mem_nil⟩
  refine ⟨⟨fun _ => [], ⟨hnil, fun p _ => ?_, fun q t ht => (List.not_mem_nil ht).elim⟩,
    fun t _ q => ?_, fun w => List.Pairwise.nil, fun t => ?_, fun t _ => rfl⟩, fun _ => rfl,
    fun _ => ?_, fun _ => ?_⟩
  · show (0 : BitVec 32).getLsbD (31 - p) = true ↔ ([] : List Nat) ≠ []
    rw [show (0 : BitVec 32).getLsbD (31 - p) = false from BitVec.getLsbD_zero]
    simp
  · rw [hplace]
    simp
  · rw [hrecord]
    split
    · exact ⟨fun _ => ⟨by decide, by decide⟩, fun _ => ⟨by decide, by decide⟩,
        fun _ _ => by decide, fun _ => by decide, fun _ _ hq => by cases hq⟩
    · exact .of_dead fun ha => ha.1 rfl
  · show ((GuestOs.initial main idle).thread main).state ≠ _
    rw [hself]
    exact fun hs => by cases hs
  · show ((GuestOs.initial main idle).thread main).Ranged
    rw [hself]
    exact ⟨by decide, by decide, by decide⟩

theorem place_of_state {r : OSThread} {s : ThreadState} (h : r.state = s)
    (hs : s = .terminated ∨ s = .running ∨ s = .moribund) : r.place = none := by
  unfold OSThread.place
  rw [h]
  rcases hs with rfl | rfl | rfl <;> rfl

/-! ## sleeping -/

theorem adoptDefaultThread_of_running (h : os.runningContext ≠ 0) : os.adoptDefaultThread = os :=
  if_pos h

/-- **OSSleepThread**, by a running thread that is on no queue: it comes back at once, with nothing
changed, or goes on to the choice. -/
theorem sleepThread_spec (h : Sound os) (hrunning : os.runningContext ≠ 0)
    (hoff : os.disableCount = 0 → (os.thread os.runningContext).place = none)
    (hsleep : sleepThread fuel os w = some e) :
    e.Sound ∧ ∀ os', e = .returned os' → os' = os := by
  unfold sleepThread at hsleep
  split at hsleep
  · obtain rfl := Option.some.inj hsleep
    exact ⟨h, fun os' he => (Ending.returned.inj he).symm⟩
  · rw [if_neg fun hboth => hrunning hboth.1, adoptDefaultThread_of_running hrunning] at hsleep
    dsimp only at hsleep
    split at hsleep
    · obtain rfl := Option.some.inj hsleep
      exact ⟨h, fun os' he => (Ending.returned.inj he).symm⟩
    · next hcount =>
      have hzero : os.disableCount = 0 := not_not.mp hcount
      obtain ⟨os₁, hput, rfl⟩ := Option.map_eq_some_iff.mp hsleep
      obtain ⟨c, hc⟩ := h.1
      generalize ht : os.runningContext = t at *
      have hranged := h.2.ranged (by rw [ht]; exact hrunning)
      rw [ht] at hranged
      have hself := setState_thread_self os t .waiting
      have hapart : Apart (os.setState t .waiting) c t := (hc.apart (hoff hzero)).modify _
      have hsettled : Settled os₁ := by
        refine hapart.insert hrunning hput ?_ ?_ ?_
        · rw [hself]
          rfl
        · rw [hself]
          exact ⟨fun _ => hranged.1, fun _ => ⟨hranged.2.1, hranged.2.2.trans (by decide)⟩,
            fun _ _ => hranged.2.2, fun hs => (by cases hs), fun _ p hp => (by cases hp)⟩
        · unfold Startable
          simp [hself]
      have hframe : Frame os os₁ := (Frame.modify os t _).trans (Frame.insert hput)
      have hwaiting : (os₁.thread t).state = .waiting := by
        rw [insertThreadIntoQueueByPriority_thread hput, setQueue_thread_self, hself]
      -- the gate cannot refuse: the scheduler is on, and the caller is the current context
      have hgate : ({ os₁ with reschedule := true } : GuestOs).selectThread false =
          .choosing { os₁ with reschedule := true } [] := by
        have hrun₁ : os₁.runningContext = t := hframe.running.trans ht
        have hcur₁ : os₁.currentContext = t := by
          rw [hframe.current, h.2.context (by rw [ht]; exact hrunning), ht]
        unfold selectThread
        dsimp only
        rw [if_neg (by rw [hframe.disable]; omega), if_neg (by rw [hrun₁]; exact fun hb => hrunning hb.2),
          if_neg (by rw [hrun₁, hcur₁]; simp), if_neg]
        rw [hrun₁, hwaiting]
        exact fun hb => by cases hb.2
      rw [hgate]
      exact ⟨hsettled.congr rfl rfl rfl fun _ => rfl, fun os' he => by cases he⟩

end DolTranslator.Os

/-!
## Who waits after a wake, a choice or a sleep

* `Parked os w t`   thread `t` sleeps on queue `w`;
* `Calm os os'`     no thread has begun to wait, and those that still do wait where they did;
* `wakeupThread_calm`, `chooseThread_calm`   waking and choosing are calm, and a wake wakes someone;
* `sleepThread_parks`   after a sleep the caller is the one thread that waits in addition.
-/

namespace DolTranslator.Os

open Function Intrusive GuestOs

variable {os os' os'' : GuestOs} {c : QueueAddr → List Nat} {t u : Nat} {w : WaitQueue}
  {fuel : Nat} {e : Ending}

def Parked (os : GuestOs) (w : WaitQueue) (t : Nat) : Prop :=
  t ≠ 0 ∧ (os.thread t).state = .waiting ∧ (os.thread t).queue = some (.wait w)

structure Calm (os os' : GuestOs) : Prop where
  waits : ∀ u, (os'.thread u).state = .waiting →
    (os.thread u).state = .waiting ∧ (os'.thread u).queue = (os.thread u).queue
  dead : ∀ u, os'.isTerminated u = os.isTerminated u

namespace Calm

theorem refl (os : GuestOs) : Calm os os := ⟨fun _ hu => ⟨hu, rfl⟩, fun _ => rfl⟩

theorem trans (h : Calm os os') (h' : Calm os' os'') : Calm os os'' := by
  refine ⟨fun u hu => ?_, fun u => (h'.dead u).trans (h.dead u)⟩
  obtain ⟨hu', hq'⟩ := h'.waits u hu
  obtain ⟨hu, hq⟩ := h.waits u hu'
  exact ⟨hu, hq'.trans hq⟩

theorem of_one (hdead : ∀ u, os'.isTerminated u = os.isTerminated u)
    (hother : ∀ u, u ≠ t → os'.thread u = os.thread u)
    (hself : (os'.thread t).state ≠ .waiting) : Calm os os' := by
  refine ⟨fun u hu => ?_, hdead⟩
  by_cases hut : u = t
  · exact absurd (hut ▸ hu) hself
  · rw [hother u hut] at hu ⊢
    exact ⟨hu, rfl⟩

theorem of_thread (hdead : ∀ u, os'.isTerminated u = os.isTerminated u)
    (hthread : os'.thread = os.thread) : Calm os os' :=
  ⟨fun u hu => by rw [hthread] at hu ⊢; exact ⟨hu, rfl⟩, hdead⟩

theorem parked (h : Calm os os') (hu : Parked os' w u) : Parked os w u := by
  obtain ⟨hs, hq⟩ := h.waits u hu.2.1
  exact ⟨hu.1, hs, hq ▸ hu.2.2⟩

theorem awake (h : Calm os os') (hu : (os.thread u).state ≠ .waiting) :
    (os'.thread u).state ≠ .waiting := fun hs => hu (h.waits u hs).1

end Calm

theorem Consistent.parked_iff (h : Consistent os c) : Parked os w t ↔ t ∈ c (.wait w) := by
  constructor
  · rintro ⟨ht0, hs, hq⟩
    refine (h.placed t ht0 _).mpr ?_
    unfold OSThread.place
    rw [hs, hq]
  · intro ht
    have hs := h.waiting_of_mem ht
    refine ⟨h.not_zero ht, hs, ?_⟩
    have hplace := (h.placed t (h.not_zero ht) _).mp ht
    unfold OSThread.place at hplace
    rwa [hs] at hplace

theorem Calm.register (os : GuestOs) (t : Nat) : Calm os (os.registerMainThreadAsFiber t) :=
  of_thread (isTerminated_register os t) (thread_register os t)

theorem wakeHead_calm (h : Consistent os c) (hw : os.queues.head (.wait w) ≠ 0)
    (hlive : os.isTerminated (os.queues.head (.wait w)) = false) :
    Calm os (os.wakeHead w).1 ∧
      ((os.wakeHead w).1.thread (os.queues.head (.wait w))).state ≠ .waiting ∧
      ∀ u, u ≠ os.queues.head (.wait w) → (os.wakeHead w).1.thread u = os.thread u := by
  obtain ⟨ts, hts⟩ := h.head_eq hw
  generalize ht : os.queues.head (.wait w) = t at *
  have hwaiting := h.waiting_of_mem (show t ∈ c (.wait w) from hts ▸ List.mem_cons_self)
  unfold wakeHead
  rw [ht]
  dsimp only
  rw [if_neg]
  · have hself : (((os.popThreadQueueHead (.wait w)).setState t .ready).note (.woke t w)).thread t =
        { os.thread t with state := .ready } :=
      setState_thread_self (os.popThreadQueueHead (.wait w)) t .ready
    have hother : ∀ u, u ≠ t →
        (((os.popThreadQueueHead (.wait w)).setState t .ready).note (.woke t w)).thread u =
          os.thread u := fun u hu =>
      setState_thread_of_ne (os.popThreadQueueHead (.wait w)) .ready hu
    have hdead : ∀ u,
        (((os.popThreadQueueHead (.wait w)).setState t .ready).note (.woke t w)).isTerminated u =
          os.isTerminated u := fun _ => rfl
    generalize (((os.popThreadQueueHead (.wait w)).setState t .ready).note (.woke t w)) = os₁ at *
    have hready : (os₁.thread t).state ≠ .waiting := by
      rw [hself]
      exact fun hs => by cases hs
    split
    · -- on the run queue, with a host context if it had none
      generalize max 0 (min (os₁.thread t).priority 31) = p
      have hlinkOther : ∀ u, u ≠ t →
          ((os₁.linkThreadOnRunQueue t p).markRunQueuePending p).thread u = os₁.thread u :=
        fun u hu => setQueue_thread_of_ne hu (some (.run p))
      have hlink : Calm os₁ ((os₁.linkThreadOnRunQueue t p).markRunQueuePending p) ∧
          (((os₁.linkThreadOnRunQueue t p).markRunQueuePending p).thread t).state ≠ .waiting := by
        have hstate : (((os₁.linkThreadOnRunQueue t p).markRunQueuePending p).thread t).state ≠
            .waiting := by
          show ((os₁.linkThreadOnRunQueue t p).thread t).state ≠ .waiting
          rw [show (os₁.linkThreadOnRunQueue t p).thread t = _ from
            setQueue_thread_self (some (.run p))]
          exact hready
        exact ⟨Calm.of_one (fun _ => rfl) hlinkOther hstate, hstate⟩
      have hcalm : Calm os os₁ := Calm.of_one hdead hother hready
      split
      · rw [mark_register]
        have hregister := Calm.register ((os₁.linkThreadOnRunQueue t p).markRunQueuePending p) t
        refine ⟨(hcalm.trans hlink.1).trans hregister, hregister.awake hlink.2, fun u hu => ?_⟩
        rw [thread_register]
        exact (hlinkOther u hu).trans (hother u hu)
      · exact ⟨hcalm.trans hlink.1, hlink.2, fun u hu => (hlinkOther u hu).trans (hother u hu)⟩
    · exact ⟨Calm.of_one hdead hother hready, hready, hother⟩
  · rintro (hdead | hdead)
    · change threadStateIsTerminated (os.thread t).state = true at hdead
      rw [hwaiting] at hdead
      cases hdead
    · change os.isTerminated t = true at hdead
      rw [hlive] at hdead
      cases hdead

/-- the wakes are calm, they leave those alone that do not sleep on the queue, and if someone slept
there then someone has been woken -/
theorem wakeLoop_calm (left : Nat) (resched : Bool) (h : Settled os)
    (hlive : ∀ u, Parked os w u → os.isTerminated u = false) :
    Calm os (wakeLoop left os w resched).1 ∧
      (∀ u, ¬Parked os w u → (wakeLoop left os w resched).1.thread u = os.thread u) ∧
      (0 < left → ∀ u, Parked os w u →
        ∃ v, Parked os w v ∧ ((wakeLoop left os w resched).1.thread v).state ≠ .waiting) := by
  induction left generalizing os resched with
  | zero => exact ⟨Calm.refl os, fun _ _ => rfl, fun h0 => absurd h0 (Nat.lt_irrefl 0)⟩
  | succ left ih =>
    obtain ⟨c, hc⟩ := id h
    unfold wakeLoop
    split
    · next h0 =>
      refine ⟨Calm.refl os, fun _ _ => rfl, fun _ u hu => ?_⟩
      have hnil := hc.linked.holds.head_eq_zero.mp h0
      have hmem := hc.parked_iff.mp hu
      rw [hnil] at hmem
      cases hmem
    · next hw =>
      obtain ⟨ts, hts⟩ := hc.head_eq hw
      have hhead : Parked os w (os.queues.head (.wait w)) :=
        hc.parked_iff.mpr (hts ▸ List.mem_cons_self)
      obtain ⟨hcalm, hawake, hother⟩ := wakeHead_calm hc hw (hlive _ hhead)
      obtain ⟨hcalm', hother', -⟩ :=
        ih (resched || (os.wakeHead w).2) (wakeHead_spec h hw).1 fun u hu => by
          rw [hcalm.dead]
          exact hlive u (hcalm.parked hu)
      refine ⟨hcalm.trans hcalm', fun u hu => ?_, fun _ _ _ => ⟨_, hhead, hcalm'.awake hawake⟩⟩
      exact (hother' u fun hu' => hu (hcalm.parked hu')).trans
        (hother u fun hut => hu (hut ▸ hhead))

/-! ## selecting and choosing -/

theorem selectThread_calm (os : GuestOs) (force : Bool) : Calm os (os.selectThread force).os := by
  unfold selectThread
  dsimp only
  repeat' split
  · exact Calm.refl os
  · exact Calm.refl os
  · exact Calm.refl os
  · exact Calm.refl os
  · refine Calm.of_one (t := os.runningContext) (fun _ => rfl) (fun u hu => ?_) ?_
    · show ((os.setState os.runningContext .ready).linkThreadOnRunQueue _ _).thread u = _
      rw [show ((os.setState os.runningContext .ready).linkThreadOnRunQueue _ _).thread u = _ from
        setQueue_thread_of_ne hu _, setState_thread_of_ne _ _ hu]
    · show (((os.setState os.runningContext .ready).linkThreadOnRunQueue _ _).thread _).state ≠ _
      rw [show ((os.setState os.runningContext .ready).linkThreadOnRunQueue _ _).thread _ = _ from
        setQueue_thread_self _]
      show ((os.setState os.runningContext .ready).thread os.runningContext).state ≠ _
      rw [setState_thread_self]
      exact fun hs => by cases hs
  · exact Calm.refl os

theorem selectThread_returned {force : Bool} (h : os.selectThread force = .returned os') :
    os' = os := by
  unfold selectThread at h
  dsimp only at h
  repeat' split at h
  all_goals first | exact (Ending.returned.inj h).symm | cases h

/-- **OSWakeupThread** is calm, and wakes someone who sleeps on the queue, if there is anyone. -/
theorem wakeupThread_calm (h : Settled os) (hw : w ≠ .other 0)
    (hlive : ∀ u, Parked os w u → os.isTerminated u = false) :
    Calm os (os.wakeupThread w).os ∧ ∀ u, Parked os w u →
      ∃ v, Parked os w v ∧ ((os.wakeupThread w).os.thread v).state ≠ .waiting := by
  obtain ⟨hcalm, -, hwakes⟩ := wakeLoop_calm 256 false h hlive
  unfold wakeupThread
  rw [if_neg hw]
  dsimp only
  split
  · have hselect := selectThread_calm (wakeLoop 256 os w false).1 false
    refine ⟨hcalm.trans hselect, fun u hu => ?_⟩
    obtain ⟨v, hv, hawake⟩ := hwakes (by decide) u hu
    exact ⟨v, hv, hselect.awake hawake⟩
  · exact ⟨hcalm, hwakes (by decide)⟩

theorem wakeupThread_returned (h : Settled os) (hw : w ≠ .other 0)
    (hlive : ∀ u, Parked os w u → os.isTerminated u = false)
    (he : os.wakeupThread w = .returned os') : os'.runningContext = os.runningContext ∧
      ∀ u, ¬Parked os w u → os'.thread u = os.thread u := by
  obtain ⟨-, hother, -⟩ := wakeLoop_calm 256 false h hlive
  obtain ⟨-, hgentle⟩ := wakeLoop_spec 256 w false h
  unfold wakeupThread at he
  rw [if_neg hw] at he
  dsimp only at he
  split at he
  · obtain rfl := selectThread_returned he
    exact ⟨hgentle.running, hother⟩
  · obtain rfl := Ending.returned.inj he
    exact ⟨hgentle.running, hother⟩

theorem dispatch_calm (os : GuestOs) (running p : Nat) {t : Nat} (ht0 : t ≠ 0) :
    Calm os (os.dispatch running p t) ∧ (os.dispatch running p t).runningContext = t ∧
      ((os.dispatch running p t).thread t).state = .running := by
  unfold dispatch
  dsimp only
  generalize hos : (if (os.popThreadQueueHead (.run p)).queues.head (.run p) = 0 then
    { os.popThreadQueueHead (.run p) with
      pending := (os.popThreadQueueHead (.run p)).pending &&& ~~~pendingBit p }
    else os.popThreadQueueHead (.run p)) = os₁
  have hthread : os₁.thread = os.thread := by
    rw [← hos]
    split <;> rfl
  have hdead : ∀ u, os₁.isTerminated u = os.isTerminated u := by
    intro u
    rw [← hos]
    split <;> rfl
  unfold setCurrentContext
  rw [if_neg ht0]
  generalize hos₂ : ({ { (((os₁.setQueue t none).setState t .running).note (.picked t)) with
      runningContext := t } with currentContext := t } : GuestOs).modifyThread t (fun r =>
        { r with contextState := r.contextState &&& ~~~0x2 }) = os₂
  have hself : (os₂.thread t).state = .running := by
    rw [← hos₂, modifyThread_self]
    show (((os₁.setQueue t none).setState t .running).thread t).state = _
    rw [setState_thread_self]
  have hcalm : Calm os os₂ := by
    refine Calm.of_one (t := t) (fun u => ?_) (fun u hu => ?_) ?_
    · rw [← hdead, ← hos₂]
      rfl
    · rw [← hos₂, modifyThread_of_ne _ hu]
      show ((os₁.setQueue t none).setState t .running).thread u = _
      rw [setState_thread_of_ne _ _ hu, setQueue_thread_of_ne hu, hthread]
    · rw [hself]
      exact fun hs => by cases hs
  have hrunning : os₂.runningContext = t := by
    rw [← hos₂]
    rfl
  split
  · refine ⟨hcalm.trans (Calm.register os₂ running), ?_, ?_⟩
    · exact (Gentle.register os₂ running).running.trans hrunning
    · rw [thread_register]
      exact hself
  · exact ⟨hcalm, hrunning, hself⟩

/-- **The choice** is calm, and the thread that runs after it, if there is one, is marked so. -/
theorem chooseThread_calm {choice : Choice} (h : Settled os)
    (hchoose : chooseThread fuel os = some choice) :
    Calm os choice.os ∧ (choice.os.runningContext ≠ 0 →
      (choice.os.thread choice.os.runningContext).state = .running) := by
  unfold chooseThread at hchoose
  split at hchoose
  · obtain rfl := Option.some.inj hchoose
    refine ⟨?_, fun h0 => absurd ?_ h0⟩
    · refine ⟨fun u hu => ?_, fun u => ?_⟩
      · have hsame : ((({ os with runningContext := 0 } : GuestOs).setCurrentContext
            os.idleThread).thread u).state = (os.thread u).state ∧
            ((({ os with runningContext := 0 } : GuestOs).setCurrentContext
              os.idleThread).thread u).queue = (os.thread u).queue := by
          unfold setCurrentContext
          split
          · exact ⟨rfl, rfl⟩
          · rw [modifyThread_thread]
            split
            · next hut => rw [hut]; exact ⟨rfl, rfl⟩
            · exact ⟨rfl, rfl⟩
        change ((({ os with runningContext := 0 } : GuestOs).setCurrentContext
          os.idleThread).thread u).state = .waiting at hu
        rw [hsame.1] at hu
        exact ⟨hu, hsame.2⟩
      · show (({ os with runningContext := 0 } : GuestOs).setCurrentContext
          os.idleThread).isTerminated u = _
        unfold setCurrentContext
        split <;> rfl
    · show (({ os with runningContext := 0 } : GuestOs).setCurrentContext
        os.idleThread).runningContext = 0
      unfold setCurrentContext
      split <;> rfl
  · next hpending =>
    have hclear : Settled { os with reschedule := false } := h.congr rfl rfl rfl fun _ => rfl
    cases fuel with
    | zero => cases hchoose
    | succ fuel =>
      obtain ⟨t, ts, c, hc, hts, -, heq⟩ := pickThread_eq os.runningContext fuel hclear hpending
      rw [heq] at hchoose
      obtain rfl := Option.some.inj hchoose
      have ht0 : t ≠ 0 := hc.not_zero (hts ▸ List.mem_cons_self)
      obtain ⟨hcalm, hrunning, hstate⟩ :=
        dispatch_calm { os with reschedule := false } os.runningContext (cntlzw os.pending) ht0
      have hclear' : Calm os { os with reschedule := false } := Calm.of_thread (fun _ => rfl) rfl
      refine ⟨hclear'.trans hcalm, fun _ => ?_⟩
      show ((GuestOs.dispatch _ _ _ t).thread (GuestOs.dispatch _ _ _ t).runningContext).state = _
      rw [hrunning]
      exact hstate

/-- **OSSleepThread**: before the choice the caller waits on the queue, and no record but its own
has changed. -/
theorem sleepThread_parks (hrunning : os.runningContext ≠ 0) {rest : List Rest}
    (hsleep : sleepThread fuel os w = some (.choosing os' rest)) :
    (∀ u, u ≠ os.runningContext → os'.thread u = os.thread u) ∧
      (os'.thread os.runningContext).queue = some (.wait w) ∧
      ∀ u, os'.isTerminated u = os.isTerminated u := by
  unfold sleepThread at hsleep
  split at hsleep
  · cases hsleep
  · rw [if_neg fun hboth => hrunning hboth.1, adoptDefaultThread_of_running hrunning] at hsleep
    dsimp only at hsleep
    split at hsleep
    · cases hsleep
    · obtain ⟨os₁, hput, he⟩ := Option.map_eq_some_iff.mp hsleep
      have hthread := insertThreadIntoQueueByPriority_thread hput
      have hframe : Frame os os₁ :=
        (Frame.modify os os.runningContext _).trans (Frame.insert hput)
      have hself : (os₁.thread os.runningContext).state = .waiting := by
        rw [hthread, setQueue_thread_self, setState_thread_self]
      have hsame : os'.thread = os₁.thread ∧ os'.fibers = os₁.fibers := by
        unfold selectThread at he
        dsimp only at he
        have hnot : ¬(os₁.runningContext ≠ 0 ∧ (os₁.thread os₁.runningContext).state = .running) := by
          rw [hframe.running, hself]
          exact fun hb => by cases hb.2
        rw [if_neg (show ¬(({ os₁ with reschedule := true } : GuestOs).runningContext ≠ 0 ∧
          (({ os₁ with reschedule := true } : GuestOs).thread _).state = .running) from hnot)] at he
        split at he
        · next hmatch =>
          split at hmatch
          · cases he
          · split at hmatch
            · cases he
            · split at hmatch
              · cases he
              · cases hmatch
        · next hmatch =>
          obtain ⟨rfl, -⟩ := Ending.choosing.inj he
          split at hmatch
          · cases hmatch
          · split at hmatch
            · cases hmatch
            · split at hmatch
              · cases hmatch
              · obtain ⟨rfl, -⟩ := Ending.choosing.inj hmatch
                exact ⟨rfl, rfl⟩
      refine ⟨fun u hu => ?_, ?_, fun u => ?_⟩
      · rw [hsame.1, hthread, setQueue_thread_of_ne hu, setState_thread_of_ne _ _ hu]
      · rw [hsame.1, hthread, setQueue_thread_self]
      · unfold isTerminated
        rw [hsame.2]
        exact hframe.dead u

end DolTranslator.Os
