import DolTranslator.Os.Priorities

/-!
# Waking, selecting and choosing keep the queues consistent

* `Caller os`   the running thread is the current context, does not wait, and has a priority that
  can be handed on;
* `Sound os`   the queues are consistent and the caller is as it should be;
* `wakeLoop_spec`, `wakeupThread_spec`, `selectThread_spec`   up to the choice;
* `chooseThread_spec`, `pickThread_total`   the choice finds the head of the first run queue that is
  not empty.
-/

namespace DolTranslator.Os

open Function Intrusive GuestOs

variable {os os' : GuestOs} {c : QueueAddr → List Nat} {q : QueueAddr} {t u : Nat} {w : WaitQueue}

structure Caller (os : GuestOs) : Prop where
  context : os.runningContext ≠ 0 → os.currentContext = os.runningContext
  awake : os.runningContext ≠ 0 → (os.thread os.runningContext).state ≠ .waiting
  ranged : os.runningContext ≠ 0 → (os.thread os.runningContext).Ranged

def Sound (os : GuestOs) : Prop := Settled os ∧ Caller os

/-- a call has come back to a sound state, or it stands before the choice with consistent queues -/
def Ending.Sound : Ending → Prop
  | .returned os => DolTranslator.Os.Sound os
  | .choosing os _ => Settled os

theorem Caller.gentle (h : Caller os) (hg : Gentle os os') : Caller os' := by
  refine ⟨fun h0 => ?_, fun h0 hs => ?_, fun h0 => ?_⟩
  · rw [hg.running] at h0 ⊢
    rw [hg.current]
    exact h.context h0
  · rw [hg.running] at h0 hs
    exact h.awake h0 (hg.calm _ hs)
  · rw [hg.running] at h0 ⊢
    exact hg.ranged _ (h.awake h0) (h.ranged h0)

theorem Sound.gentle (h : Sound os) (hs : Settled os') (hg : Gentle os os') : Sound os' :=
  ⟨hs, h.2.gentle hg⟩

/-! ## host contexts of threads that had none -/

theorem isTerminated_register (os : GuestOs) (t u : Nat) :
    (os.registerMainThreadAsFiber t).isTerminated u = os.isTerminated u := by
  unfold registerMainThreadAsFiber
  split
  · rfl
  · next hnone =>
    show (update os.fibers t _ u).any _ = (os.fibers u).any _
    by_cases hut : u = t
    · subst hut
      unfold hasFiber at hnone
      rw [update_self, Option.not_isSome_iff_eq_none.mp hnone]
      rfl
    · rw [update_of_ne hut]

theorem thread_register (os : GuestOs) (t : Nat) :
    (os.registerMainThreadAsFiber t).thread = os.thread := by
  unfold registerMainThreadAsFiber
  split <;> rfl

theorem queues_register (os : GuestOs) (t : Nat) :
    (os.registerMainThreadAsFiber t).queues = os.queues := by
  unfold registerMainThreadAsFiber
  split <;> rfl

theorem Settled.register (h : Settled os) (t : Nat) : Settled (os.registerMainThreadAsFiber t) := by
  refine h.congr (thread_register os t) (queues_register os t) ?_ (isTerminated_register os t)
  unfold registerMainThreadAsFiber
  split <;> rfl

theorem Gentle.register (os : GuestOs) (t : Nat) : Gentle os (os.registerMainThreadAsFiber t) := by
  refine Gentle.of_thread ⟨?_, ?_, ?_, isTerminated_register os t⟩ (thread_register os t)
  all_goals
    unfold registerMainThreadAsFiber
    split <;> rfl

theorem mark_register (os : GuestOs) (t : Nat) (p : Int) :
    (os.registerMainThreadAsFiber t).markRunQueuePending p =
      (os.markRunQueuePending p).registerMainThreadAsFiber t := by
  have hfiber : (os.markRunQueuePending p).hasFiber t = os.hasFiber t := rfl
  unfold registerMainThreadAsFiber
  rw [hfiber]
  split <;> rfl

/-! ## waking -/

theorem Consistent.pop (h : Consistent os c) {ts : List Nat} (hc : c q = t :: ts)
    (hlinked : Linked os' (update c q ts)) (hthread : os'.thread = os.thread)
    (hdead : ∀ u, os'.isTerminated u = os.isTerminated u) : Apart os' (update c q ts) t := by
  have hnodup : (t :: ts).Nodup := hc ▸ (List.nodup_cons.mp (h.linked.holds.queue q).nodup).2
  have ht : t ∈ c q := hc ▸ List.mem_cons_self
  have hmem : ∀ q' u, u ∈ update c q ts q' ↔ u ≠ t ∧ u ∈ c q' := by
    intro q' u
    by_cases hq : q' = q
    · subst hq
      rw [update_self, hc]
      constructor
      · exact fun hu => ⟨fun e => (List.nodup_cons.mp hnodup).1 (e ▸ hu), List.mem_cons_of_mem _ hu⟩
      · exact fun hu => (List.mem_cons.mp hu.2).resolve_left hu.1
    · rw [update_of_ne hq]
      refine (and_iff_right_of_imp fun hu => ?_).symm
      rintro rfl
      exact hq (h.linked.holds.apart q' q u hu ht)
  refine ⟨hlinked, fun q hq => ((hmem q t).mp hq).1 rfl, fun u hu0 hut q' => ?_,
    fun w => ?_, fun u _ => hthread ▸ h.ok u, fun u _ => ?_⟩
  · rw [hmem, hthread, ← h.placed u hu0 q']
    exact and_iff_right hut
  · have hsub : (update c q ts (.wait w)).Sublist (c (.wait w)) := by
      by_cases hq : QueueAddr.wait w = q
      · rw [hq, update_self, hc]
        exact List.sublist_cons_self t ts
      · rw [update_of_ne hq]
    have horder : InOrder os (update c q ts (.wait w)) := (h.inOrder w).sublist hsub
    exact horder.congr fun u _ => by rw [hthread]
  · unfold Startable
    rw [hthread, hdead]
    exact h.startable u

theorem Consistent.waiting_of_mem (h : Consistent os c) (ht : t ∈ c (.wait w)) :
    (os.thread t).state = .waiting := by
  have hplace := (h.placed t (h.not_zero ht) _).mp ht
  unfold OSThread.place at hplace
  cases hs : (os.thread t).state with
  | waiting => rfl
  | ready =>
    simp only [hs] at hplace
    split at hplace <;> cases hplace
  | terminated | running | moribund => simp [hs] at hplace

theorem Consistent.head_eq (h : Consistent os c) (hq : os.queues.head q ≠ 0) :
    ∃ ts, c q = os.queues.head q :: ts := by
  have hqueue := h.linked.holds.queue q
  cases hc : c q with
  | nil => exact absurd (hqueue.head_eq_zero.mpr hc) hq
  | cons v vs =>
    refine ⟨vs, ?_⟩
    rw [hqueue.head_eq, hc]
    rfl

theorem clamp_eq {p : Int} (h0 : 0 ≤ p) (h31 : p ≤ 31) : max 0 (min p 31) = p := by omega

/-- **One wake.** -/
theorem wakeHead_spec (h : Settled os) (hw : os.queues.head (.wait w) ≠ 0) :
    Settled (os.wakeHead w).1 ∧ Gentle os (os.wakeHead w).1 := by
  obtain ⟨c, hc⟩ := h
  obtain ⟨ts, hts⟩ := hc.head_eq hw
  generalize ht : os.queues.head (.wait w) = t at *
  have hmem : t ∈ c (.wait w) := hts ▸ List.mem_cons_self
  have hwaiting := hc.waiting_of_mem hmem
  have halive := OSThread.alive_of_state hwaiting (by decide)
  have hok := hc.ok t
  have hpop : Apart (os.popThreadQueueHead (.wait w)) (update c (.wait w) ts) t :=
    hc.pop hts (hc.linked.popWait hts) rfl fun _ => rfl
  unfold wakeHead
  rw [ht]
  dsimp only
  split
  · next hdead =>
    -- a dead host context: the thread waits on no queue from now on
    have hlinks : Apart (({ (os.popThreadQueueHead (.wait w)).setQueue t none with
        queues := { (os.popThreadQueueHead (.wait w)).queues with
          next := update (os.popThreadQueueHead (.wait w)).queues.next t 0
          prev := update (os.popThreadQueueHead (.wait w)).queues.prev t 0 } } : GuestOs))
        (update c (.wait w) ts) t := by
      have hset := hpop.modify fun r => { r with queue := none }
      exact ⟨⟨hset.linked.holds.clear hset.off 0 0, hset.linked.pending, hset.linked.pointer⟩,
        hset.off, hset.placed, hset.inOrder, hset.ok, hset.startable⟩
    have hself : ((os.popThreadQueueHead (.wait w)).setQueue t none).thread t =
        { os.thread t with queue := none } := setQueue_thread_self none
    refine ⟨⟨_, hlinks.close ?_ ?_ ?_⟩, Gentle.of_one (t := t) ⟨rfl, rfl, rfl, fun _ => rfl⟩
      (fun u hu => setQueue_thread_of_ne hu none) (fun _ => hwaiting) ?_⟩
    · show OSThread.place (((os.popThreadQueueHead (.wait w)).setQueue t none).thread t) = none
      rw [hself]
      unfold OSThread.place
      simp only [hwaiting]
    · show OSThread.Ok (((os.popThreadQueueHead (.wait w)).setQueue t none).thread t)
      rw [hself]
      exact ⟨hok.base, hok.priority, hok.runnable, hok.running, fun _ p hp => by cases hp⟩
    · unfold Startable
      show (((os.popThreadQueueHead (.wait w)).setQueue t none).thread t).state = _ ∨ _ → _
      rw [hself]
      simp [hwaiting]
    · exact fun hw => absurd hwaiting hw
  · next hlive =>
    have hlive' : os.isTerminated t = false := by
      have hnot : ¬os.isTerminated t = true := (not_or.mp hlive).2
      simpa using hnot
    have hready : Apart (((os.popThreadQueueHead (.wait w)).setState t .ready).note (.woke t w))
        (update c (.wait w) ts) t :=
      (hpop.modify fun r => { r with state := .ready }).congr (fun _ _ => rfl) rfl rfl
        fun _ _ => rfl
    have hself : (((os.popThreadQueueHead (.wait w)).setState t .ready).note (.woke t w)).thread t =
        { os.thread t with state := .ready } :=
      setState_thread_self (os.popThreadQueueHead (.wait w)) t .ready
    have hother : ∀ u, u ≠ t →
        (((os.popThreadQueueHead (.wait w)).setState t .ready).note (.woke t w)).thread u =
          os.thread u := fun u hu =>
      setState_thread_of_ne (os.popThreadQueueHead (.wait w)) .ready hu
    have hgentle : Gentle os (((os.popThreadQueueHead (.wait w)).setState t .ready).note
        (.woke t w)) := by
      exact Gentle.of_one (t := t) ⟨rfl, rfl, rfl, fun _ => rfl⟩ hother (fun _ => hwaiting) fun hw =>
        absurd hwaiting hw
    generalize (((os.popThreadQueueHead (.wait w)).setState t .ready).note (.woke t w)) = os₁ at *
    have hdead₁ : os₁.isTerminated t = false := by rw [hgentle.dead, hlive']
    split
    · next hsuspend =>
      have hsuspend' : (os.thread t).suspend < 1 := by
        rw [hself] at hsuspend
        exact hsuspend
      have hp0 := (hok.priority halive).1
      have hp31 := hok.runnable halive hsuspend'
      have hpriority : (os₁.thread t).priority = (os.thread t).priority := by rw [hself]
      have hclamp : max 0 (min (os₁.thread t).priority 31) = (os₁.thread t).priority :=
        clamp_eq (hpriority ▸ hp0) (hpriority ▸ hp31)
      rw [hclamp]
      have hok₁ : (os₁.thread t).Ok := by
        rw [hself]
        exact hok.ready halive
      have hlinked := hready.link (hc.not_zero hmem) (by rw [hself]) hsuspend hok₁
        (fun _ => hdead₁)
      have hlinkGentle : Gentle os₁ ((os₁.linkThreadOnRunQueue t
          (os₁.thread t).priority).markRunQueuePending (os₁.thread t).priority) := by
        refine Gentle.of_one (t := t) ⟨rfl, rfl, rfl, fun _ => rfl⟩
          (fun u hu => setQueue_thread_of_ne hu (some (.run (os₁.thread t).priority))) ?_ ?_
        · intro hs
          have hs' : (((os₁.linkThreadOnRunQueue t (os₁.thread t).priority)).thread t).state =
            .waiting := hs
          rw [show (os₁.linkThreadOnRunQueue t (os₁.thread t).priority).thread t = _ from
            setQueue_thread_self (some (.run (os₁.thread t).priority))] at hs'
          exact hs'
        · intro _ hr
          show ((os₁.linkThreadOnRunQueue t (os₁.thread t).priority).thread t).Ranged
          rw [show (os₁.linkThreadOnRunQueue t (os₁.thread t).priority).thread t = _ from
            setQueue_thread_self (some (.run (os₁.thread t).priority))]
          exact hr
      split
      · -- the default thread gets its host context between the two writes
        rw [mark_register]
        exact ⟨Settled.register ⟨_, hlinked⟩ t, (hgentle.trans hlinkGentle).trans (Gentle.register _ t)⟩
      · exact ⟨⟨_, hlinked⟩, hgentle.trans hlinkGentle⟩
    · next hsuspend =>
      refine ⟨⟨_, hready.close ?_ ?_ fun _ => hdead₁⟩, hgentle⟩
      · rw [hself] at hsuspend ⊢
        unfold OSThread.place
        exact if_neg hsuspend
      · rw [hself]
        exact hok.ready halive

theorem wakeLoop_spec (left : Nat) (w : WaitQueue) (resched : Bool) (h : Settled os) :
    Settled (wakeLoop left os w resched).1 ∧ Gentle os (wakeLoop left os w resched).1 := by
  induction left generalizing os resched with
  | zero => exact ⟨h, Gentle.refl os⟩
  | succ left ih =>
    unfold wakeLoop
    split
    · exact ⟨h, Gentle.refl os⟩
    · next hw =>
      obtain ⟨hsettled, hgentle⟩ := wakeHead_spec h hw
      obtain ⟨hsettled', hgentle'⟩ := ih (resched || (os.wakeHead w).2) hsettled
      exact ⟨hsettled', hgentle.trans hgentle'⟩

theorem requeueRunning_spec (h : Settled os) (ht0 : t ≠ 0)
    (hrunning : (os.thread t).state = .running) :
    Settled (((os.setState t .ready).linkThreadOnRunQueue t
      (os.thread t).priority).markRunQueuePending (os.thread t).priority) := by
  obtain ⟨c, hc⟩ := h
  have hok := hc.ok t
  have halive := OSThread.alive_of_state hrunning (by decide)
  have hself := setState_thread_self os t .ready
  have hnone : (os.thread t).place = none := by
    unfold OSThread.place
    rw [hrunning]
  have hready : Apart (os.setState t .ready) c t := (hc.apart hnone).modify _
  have hlinked := hready.link ht0 (by rw [hself]) (by rw [hself]; exact hok.running hrunning)
    (by rw [hself]; exact hok.ready halive)
    (fun _ => hc.startable t (.inr hrunning))
  rw [hself] at hlinked
  exact ⟨_, hlinked⟩

/-- **SelectThread.** -/
theorem selectThread_spec (h : Sound os) (force : Bool) : (os.selectThread force).Sound := by
  unfold selectThread
  dsimp only
  split
  · exact h
  · split
    · exact h
    · split
      · exact h
      · split
        · next hrunning =>
          split
          · exact h
          · exact requeueRunning_spec h.1 hrunning.1 hrunning.2
        · exact h.1

/-- **OSWakeupThread.** -/
theorem wakeupThread_spec (h : Sound os) (w : WaitQueue) : (os.wakeupThread w).Sound := by
  unfold wakeupThread
  split
  · exact h
  · obtain ⟨hsettled, hgentle⟩ := wakeLoop_spec 256 w false h.1
    have hsound := h.gentle hsettled hgentle
    dsimp only
    split
    · exact selectThread_spec hsound false
    · exact hsound

/-! ## the choice -/

theorem cntlzw_spec {mask : BitVec 32} (h : mask ≠ 0) :
    cntlzw mask < 32 ∧ mask.getLsbD (31 - cntlzw mask) = true := by
  have hsome : ((List.range 32).find? fun p => mask.getLsbD (31 - p)).isSome := by
    rw [List.find?_isSome]
    by_contra hnone
    push Not at hnone
    refine h (BitVec.eq_of_getLsbD_eq fun i hi => ?_)
    have hbit := hnone (31 - i) (List.mem_range.mpr (by omega))
    rw [show 31 - (31 - i) = i by omega] at hbit
    rw [show (0 : BitVec 32).getLsbD i = false from BitVec.getLsbD_zero]
    simpa using hbit
  obtain ⟨p, hp⟩ := Option.isSome_iff_exists.mp hsome
  have hget : cntlzw mask = p := by
    unfold cntlzw
    rw [hp]
    rfl
  rw [hget]
  exact ⟨List.mem_range.mp (List.mem_of_find?_eq_some hp), by
    simpa using List.find?_some hp⟩

theorem Consistent.ready_of_mem (h : Consistent os c) {p : Int} (ht : t ∈ c (.run p)) :
    (os.thread t).state = .ready ∧ (os.thread t).suspend < 1 := by
  have hplace := (h.placed t (h.not_zero ht) _).mp ht
  unfold OSThread.place at hplace
  cases hs : (os.thread t).state with
  | ready =>
    simp only [hs] at hplace
    split at hplace
    · next hsuspend => exact ⟨rfl, hsuspend⟩
    · cases hplace
  | waiting =>
    simp only [hs] at hplace
    exact absurd hplace ((h.ok t).waiting hs p)
  | terminated | running | moribund => simp [hs] at hplace

/-- **The chosen thread runs.** -/
theorem dispatch_spec {running p : Nat} {ts : List Nat} (h : Consistent os c) (hp : p < 32)
    (hc : c (.run p) = t :: ts) : Sound (os.dispatch running p t) := by
  have ht : t ∈ c (.run p) := hc ▸ List.mem_cons_self
  have ht0 := h.not_zero ht
  obtain ⟨hready, hsuspend⟩ := h.ready_of_mem ht
  have hok := h.ok t
  have halive := OSThread.alive_of_state hready (by decide)
  have hlinked := h.linked.popRun hp hc
  unfold dispatch
  dsimp only at hlinked ⊢
  generalize hos : (if (os.popThreadQueueHead (.run p)).queues.head (.run p) = 0 then
    { os.popThreadQueueHead (.run p) with
      pending := (os.popThreadQueueHead (.run p)).pending &&& ~~~pendingBit p }
    else os.popThreadQueueHead (.run p)) = os₁ at *
  have hthread : os₁.thread = os.thread := by
    rw [← hos]
    split <;> rfl
  have hdead : ∀ u, os₁.isTerminated u = os.isTerminated u := by
    intro u
    rw [← hos]
    split <;> rfl
  have hapart := h.pop hc hlinked hthread hdead
  unfold setCurrentContext
  rw [if_neg ht0]
  -- every write from here on is to the record of the chosen thread or to the globals
  let f : OSThread → OSThread := fun r =>
    { r with queue := none, state := .running, contextState := r.contextState &&& ~~~0x2 }
  generalize hos₂ : ({ { (((os₁.setQueue t none).setState t .running).note (.picked t)) with
      runningContext := t } with currentContext := t } : GuestOs).modifyThread t (fun r =>
        { r with contextState := r.contextState &&& ~~~0x2 }) = os₂
  have hself : os₂.thread t = f (os.thread t) := by
    rw [← hos₂, modifyThread_self]
    show (fun r : OSThread => { r with contextState := r.contextState &&& ~~~0x2 })
      (((os₁.setQueue t none).setState t .running).thread t) = _
    rw [setState_thread_self, setQueue_thread_self, hthread]
  have hother : ∀ u, u ≠ t → os₂.thread u = os₁.thread u := by
    intro u hu
    rw [← hos₂, modifyThread_of_ne _ hu]
    show ((os₁.setQueue t none).setState t .running).thread u = _
    rw [setState_thread_of_ne _ _ hu, setQueue_thread_of_ne hu]
  have hapart₂ : Apart os₂ (update c (.run p) ts) t := by
    refine hapart.congr hother ?_ ?_ ?_
    · rw [← hos₂]
      rfl
    · rw [← hos₂]
      rfl
    · intro u _
      rw [← hos₂]
      rfl
  have hsettled : Settled os₂ := by
    refine ⟨_, hapart₂.close ?_ ?_ fun _ => ?_⟩
    · rw [hself]
      rfl
    · rw [hself]
      exact ⟨fun _ => hok.base halive, fun _ => hok.priority halive, fun _ => hok.runnable halive,
        fun _ => hsuspend, fun hs => (by cases hs)⟩
    · have hsame : os₂.isTerminated t = os₁.isTerminated t := by
        rw [← hos₂]
        rfl
      rw [hsame, hdead]
      exact h.startable t (.inl hready)
  have hrunning : os₂.runningContext = t := by
    rw [← hos₂]
    rfl
  have hcaller : Caller os₂ := by
    refine ⟨fun _ => ?_, fun _ => ?_, fun _ => ?_⟩
    · rw [← hos₂]
      rfl
    · rw [hrunning, hself]
      exact fun hs => by cases hs
    · rw [hrunning, hself]
      exact ⟨hok.base halive, (hok.priority halive).1, hok.runnable halive hsuspend⟩
  split
  · exact ⟨hsettled.register running, hcaller.gentle (Gentle.register os₂ running)⟩
  · exact ⟨hsettled, hcaller⟩

/-- a choice made in a consistent state -/
def Choice.Sound : Choice → Prop
  | .stay os => DolTranslator.Os.Sound os
  | .idle os => DolTranslator.Os.Sound os
  | .picked os _ => DolTranslator.Os.Sound os

/-- **The choice finds a thread at once**: the mask is exact and no queued thread is dead. -/
theorem pickThread_eq (running steps : Nat) (h : Settled os) (hpending : os.pending ≠ 0) :
    ∃ t ts c, Consistent os c ∧ c (.run (cntlzw os.pending)) = t :: ts ∧
      cntlzw os.pending < 32 ∧
      pickThread running (steps + 1) os =
        some (.picked (os.dispatch running (cntlzw os.pending) t) t) := by
  obtain ⟨c, hc⟩ := h
  obtain ⟨hlt, hbit⟩ := cntlzw_spec hpending
  have hne := (hc.linked.pending _ hlt).mp hbit
  have hhead : os.queues.head (.run (cntlzw os.pending)) ≠ 0 := fun h0 =>
    hne (hc.linked.holds.head_eq_zero.mp h0)
  obtain ⟨ts, hts⟩ := hc.head_eq hhead
  refine ⟨_, ts, c, hc, hts, hlt, ?_⟩
  have hmem : os.queues.head (.run (cntlzw os.pending)) ∈ c (.run (cntlzw os.pending)) :=
    hts ▸ List.mem_cons_self
  obtain ⟨hready, -⟩ := hc.ready_of_mem hmem
  have hlive := hc.startable _ (.inl hready)
  unfold pickThread
  rw [if_neg hpending]
  dsimp only
  rw [if_neg hhead, if_neg]
  rw [hready, hlive]
  decide

theorem pickThread_spec {running steps : Nat} {e : Choice} (h : Settled os)
    (hpending : os.pending ≠ 0) (hpick : pickThread running steps os = some e) :
    e.Sound := by
  cases steps with
  | zero => cases hpick
  | succ steps =>
    obtain ⟨t, ts, c, hc, hts, hlt, heq⟩ :=
      pickThread_eq running steps h hpending
    rw [heq] at hpick
    obtain rfl := Option.some.inj hpick
    exact dispatch_spec hc hlt hts

/-- **The choice**, when SelectThread has come to it. -/
theorem chooseThread_spec {fuel : Nat} {e : Choice} (h : Settled os)
    (hchoose : chooseThread fuel os = some e) : e.Sound := by
  unfold chooseThread at hchoose
  split at hchoose
  · obtain rfl := Option.some.inj hchoose
    have hcontext : (({ os with runningContext := 0 } : GuestOs).setCurrentContext
        os.idleThread).runningContext = 0 := by
      unfold setCurrentContext
      split <;> rfl
    refine ⟨?_, fun h0 => absurd hcontext h0, fun h0 => absurd hcontext h0,
      fun h0 => absurd hcontext h0⟩
    unfold setCurrentContext
    split
    · exact h.congr rfl rfl rfl fun _ => rfl
    · have hcurrent : Settled { os with runningContext := 0, currentContext := os.idleThread } :=
        h.congr rfl rfl rfl fun _ => rfl
      exact hcurrent.modify (.of_eq rfl .rfl rfl rfl rfl)
  · next hpending =>
    have hclear : Settled { os with reschedule := false } := h.congr rfl rfl rfl fun _ => rfl
    exact pickThread_spec hclear hpending hchoose

end DolTranslator.Os

/-!
## The search of SelectThread

The search looks at the head of the first run queue in the mask.  A dead head is dropped, and the
mask is read again; the first live head is taken.

* `Live os t`        the search does not drop `t`;
* `Relinked os os'`  only queue links, queue pointers and the mask have changed;
* `Swept os c n os' c'`   dead heads are gone from the run queues up to `n`, and those before `n` are
                     empty;
* `pickThread_found`  where the search ends, when it ends;
* `pickThread_total` it ends: each turn drops a queued thread.
-/

namespace DolTranslator.Os

open Function Intrusive GuestOs

variable {os os' os'' : GuestOs} {c c' c'' : QueueAddr → List Nat} {t u : Nat} {n p : Nat}

/-- neither the record nor the host context of the thread has ended -/
def Live (os : GuestOs) (t : Nat) : Prop :=
  ¬(threadStateIsTerminated (os.thread t).state = true ∨ os.isTerminated t = true)

/-! ## only the queues change -/

structure Relinked (os os' : GuestOs) : Prop extends Frame os os' where
  record : ∀ u, ∃ q, os'.thread u = { os.thread u with queue := q }
  held : os'.held = os.held

namespace Relinked

theorem refl (os : GuestOs) : Relinked os os := ⟨Frame.refl os, fun _ => ⟨_, rfl⟩, rfl⟩

theorem trans (h : Relinked os os') (h' : Relinked os' os'') : Relinked os os'' := by
  refine ⟨h.toFrame.trans h'.toFrame, fun u => ?_, h'.held.trans h.held⟩
  obtain ⟨q, hq⟩ := h.record u
  obtain ⟨q', hq'⟩ := h'.record u
  exact ⟨q', by rw [hq', hq]⟩

theorem state (h : Relinked os os') (u : Nat) : (os'.thread u).state = (os.thread u).state := by
  obtain ⟨q, hq⟩ := h.record u
  rw [hq]

theorem live (h : Relinked os os') (u : Nat) : Live os' u ↔ Live os u := by
  unfold Live
  rw [h.state u, h.dead u]

theorem remove (os : GuestOs) (t : Nat) : Relinked os (os.removeThreadFromQueue t) := by
  refine ⟨Frame.remove os t, fun u => ?_, ?_⟩
  · by_cases hu : u = t
    · subst hu
      exact ⟨none, removed_thread_self os u⟩
    · exact ⟨_, removed_thread_of_ne hu⟩
  · unfold removeThreadFromQueue
    split
    · rfl
    · unfold updatePendingMaskForQueue
      split
      · rfl
      · split <;> rfl

end Relinked

/-! ## what the search has dropped -/

structure Swept (os : GuestOs) (c : QueueAddr → List Nat) (n : Nat) (os' : GuestOs)
    (c' : QueueAddr → List Nat) : Prop where
  relinked : Relinked os os'
  linked : Linked os' c'
  empty : ∀ k : Nat, k < n → c' (.run k) = []
  dropped : ∀ q, ∃ dead, c q = dead ++ c' q ∧ ∀ u ∈ dead, ¬Live os u
  kept : ∀ q, (∀ k : Nat, k ≤ n → q ≠ .run k) → c' q = c q

namespace Swept

theorem refl (h : Linked os c) (hempty : ∀ k : Nat, k < n → c (.run k) = []) : Swept os c n os c where
  relinked := .refl os
  linked := h
  empty := hempty
  dropped q := ⟨[], rfl, by simp⟩
  kept _ _ := rfl

theorem drop {ts : List Nat} (hc : c (.run p) = t :: ts) (hp : p ≤ n) (hdead : ¬Live os t)
    (h : Swept (os.removeThreadFromQueue t) (update c (.run p) ts) n os' c') :
    Swept os c n os' c' := by
  have hfirst := Relinked.remove os t
  refine ⟨hfirst.trans h.relinked, h.linked, h.empty, fun q => ?_, fun q hq => ?_⟩
  · obtain ⟨dead, hdrop, hnot⟩ := h.dropped q
    have hnot' : ∀ u ∈ dead, ¬Live os u := fun u hu => by
      rw [← hfirst.live u]
      exact hnot u hu
    by_cases hq : q = .run p
    · subst hq
      rw [update_self] at hdrop
      refine ⟨t :: dead, by rw [hc, hdrop, List.cons_append], fun u hu => ?_⟩
      rcases List.mem_cons.mp hu with rfl | hu
      · exact hdead
      · exact hnot' u hu
    · rw [update_of_ne hq] at hdrop
      exact ⟨dead, hdrop, hnot'⟩
  · rw [h.kept q hq, update_of_ne (hq p hp)]

end Swept

/-! ## the first queue in the mask -/

theorem getLsbD_of_lt_cntlzw {mask : BitVec 32} {k : Nat} (hk : k < cntlzw mask) (h32 : k < 32) :
    mask.getLsbD (31 - k) = false := by
  cases hfind : (List.range 32).find? fun p => mask.getLsbD (31 - p) with
  | none =>
    have hnone := List.find?_eq_none.mp hfind k (List.mem_range.mpr h32)
    simpa using hnone
  | some p =>
    have hp : cntlzw mask = p := by
      unfold cntlzw
      rw [hfind]
      rfl
    rw [hp] at hk
    obtain ⟨-, as, bs, hsplit, has⟩ := List.find?_eq_some_iff_append.mp hfind
    have hsorted : (as ++ p :: bs).Pairwise (· < ·) := hsplit ▸ List.pairwise_lt_range
    have hmem : k ∈ as ++ p :: bs := hsplit ▸ List.mem_range.mpr h32
    rcases List.mem_append.mp hmem with hmem | hmem
    · simpa using has k hmem
    · have hafter := (List.pairwise_cons.mp (List.pairwise_append.mp hsorted).2.1).1
      rcases List.mem_cons.mp hmem with rfl | hmem
      · exact absurd hk (lt_irrefl _)
      · have hlt := hafter k hmem
        omega

namespace Linked

theorem empty_of_lt_cntlzw (h : Linked os c) {k : Nat} (hk : k < cntlzw os.pending) (h32 : k < 32) :
    c (.run k) = [] := by
  have hbit := getLsbD_of_lt_cntlzw hk h32
  have hiff := h.pending k h32
  rw [hbit] at hiff
  by_contra hne
  exact absurd (hiff.mpr hne) (by decide)

theorem first (h : Linked os c) (hpending : os.pending ≠ 0) :
    ∃ t ts, cntlzw os.pending < 32 ∧ c (.run (cntlzw os.pending)) = t :: ts ∧ t ≠ 0 ∧
      os.queues.head (.run (cntlzw os.pending)) = t := by
  obtain ⟨hlt, hbit⟩ := cntlzw_spec hpending
  have hne := (h.pending _ hlt).mp hbit
  obtain ⟨t, ts, hts⟩ := List.exists_cons_of_ne_nil hne
  refine ⟨t, ts, hlt, hts, h.holds.not_zero (hts ▸ List.mem_cons_self), ?_⟩
  rw [(h.holds.queue _).head_eq, hts]
  rfl

end Linked

/-- the search has drained the run queues, or stands before a live thread -/
def Choice.Found (os : GuestOs) (c : QueueAddr → List Nat) (running : Nat) : Choice → Prop
  | .stay os' => ∃ c', Swept os c 32 os' c' ∧ os'.pending = 0
  | .idle _ => False
  | .picked os'' t => ∃ (p : Nat) (os' : GuestOs) (c' : QueueAddr → List Nat) (ts : List Nat),
      p < 32 ∧ Swept os c p os' c' ∧ c' (.run p) = t :: ts ∧ Live os t ∧
        os'' = os'.dispatch running p t

def queued (c : QueueAddr → List Nat) : Nat := ∑ p ∈ Finset.range 32, (c (.run (p : Nat))).length

end DolTranslator.Os
