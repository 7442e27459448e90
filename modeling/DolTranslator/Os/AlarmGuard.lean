import DolTranslator.Os.Machine
import DolTranslator.Os.Consistency

/-!
# The recursion guard of ProcessAlarmQueue

The guard is one counter for all host contexts.

* `perform_disabled`   with the scheduler disabled every call returns to its caller;
* `Guarded`   the counter counts the dispatch loops on the stack of the executing context,
  and no other context stands in one;
* `alarm_guard_law`   what a run keeps when no alarm handler leaves a switch behind.
-/

namespace DolTranslator.Os

open Function Intrusive GuestOs Transition

variable {os os' : GuestOs} {t : Nat} {w : WaitQueue} {fuel : Nat} {e : Ending} {p : Int}

/-! ## the nesting count is the game's own -/

/-- the calls do not write the nesting count -/
def SameCount (os os' : GuestOs) : Prop := os'.disableCount = os.disableCount

theorem SameCount.trans {os'' : GuestOs} (h : SameCount os os') (h' : SameCount os' os'') :
    SameCount os os'' := Eq.trans h' h

theorem sameCount_insert {q : QueueAddr}
    (h : insertThreadIntoQueueByPriority fuel os q t p = some os') : SameCount os os' :=
  (Frame.insert h).disable

theorem sameCount_remove (os : GuestOs) (t : Nat) : SameCount os (os.removeThreadFromQueue t) :=
  (Frame.remove os t).disable

theorem sameCount_setPriority {x : GuestOs × Nat}
    (h : setThreadEffectivePriority fuel os t p = some x) : SameCount os x.1 := by
  unfold setThreadEffectivePriority at h
  split at h
  · obtain ⟨os₁, h₁, rfl⟩ := Option.map_eq_some_iff.mp h
    have hinsert := sameCount_insert h₁
    exact Eq.trans hinsert (sameCount_remove os t)
  · obtain rfl := Option.some.inj h
    rfl
  · obtain ⟨os₁, h₁, rfl⟩ := Option.map_eq_some_iff.mp h
    have hremove : SameCount os ((os.removeThreadFromQueue t).setPriority t p) :=
      sameCount_remove os t
    split at h₁
    · obtain rfl := Option.some.inj h₁
      exact hremove
    · exact hremove.trans (sameCount_insert h₁)
  · obtain rfl := Option.some.inj h
    rfl
  · obtain rfl := Option.some.inj h
    rfl

theorem sameCount_propagate {steps owner : Nat}
    (h : propagateToOwner fuel steps os owner = some os') : SameCount os os' := by
  induction steps generalizing os owner with
  | zero => cases h
  | succ steps ih =>
    unfold propagateToOwner at h
    split at h
    · obtain ⟨priority, -, h⟩ := Option.bind_eq_some_iff.mp h
      split at h
      · obtain rfl := Option.some.inj h
        rfl
      · obtain ⟨x, hx, h⟩ := Option.bind_eq_some_iff.mp h
        exact (sameCount_setPriority hx).trans (ih h)
    · obtain rfl := Option.some.inj h
      rfl

theorem sameCount_propagateMutex {m : Nat}
    (h : propagateMutexOwnerPriority fuel os m = some os') : SameCount os os' := by
  unfold propagateMutexOwnerPriority at h
  split at h
  · obtain rfl := Option.some.inj h
    rfl
  · exact sameCount_propagate h

theorem sameCount_promote {steps : Nat}
    (h : promoteThreadPriority fuel p steps os t = some os') : SameCount os os' := by
  induction steps generalizing os t with
  | zero => cases h
  | succ steps ih =>
    unfold promoteThreadPriority at h
    repeat' split at h
    · obtain rfl := Option.some.inj h
      rfl
    · obtain rfl := Option.some.inj h
      rfl
    · obtain rfl := Option.some.inj h
      rfl
    · obtain ⟨x, hx, h⟩ := Option.bind_eq_some_iff.mp h
      exact (sameCount_setPriority hx).trans (ih h)

theorem sameCount_register (os : GuestOs) (t : Nat) :
    SameCount os (os.registerMainThreadAsFiber t) := by
  unfold registerMainThreadAsFiber
  split <;> rfl

theorem sameCount_setCurrentContext (os : GuestOs) (c : Nat) :
    SameCount os (os.setCurrentContext c) := by
  unfold GuestOs.setCurrentContext
  split <;> rfl

theorem sameCount_clearContext (os : GuestOs) (c : Nat) : SameCount os (os.clearContext c) := by
  unfold GuestOs.clearContext
  split
  · rfl
  · dsimp only
    split <;> rfl

theorem sameCount_wakeHead (os : GuestOs) (w : WaitQueue) : SameCount os (os.wakeHead w).1 := by
  unfold wakeHead
  dsimp only
  split
  · rfl
  · split
    · split
      · exact sameCount_register _ _
      · rfl
    · rfl

theorem sameCount_wakeLoop (left : Nat) (os : GuestOs) (w : WaitQueue) (resched : Bool) :
    SameCount os (wakeLoop left os w resched).1 := by
  induction left generalizing os resched with
  | zero => rfl
  | succ left ih =>
    unfold wakeLoop
    split
    · rfl
    · exact (sameCount_wakeHead os w).trans (ih _ _)

theorem sameCount_adopt (os : GuestOs) : SameCount os os.adoptDefaultThread := by
  unfold adoptDefaultThread
  split
  · rfl
  · have hcontext := sameCount_setCurrentContext
      { os with runningContext := os.defaultThread } os.defaultThread
    exact Eq.trans (sameCount_register _ os.defaultThread) hcontext

theorem sameCount_exitGuestThread (os : GuestOs) (t : Nat) :
    SameCount os (os.exitGuestThread t) := by
  unfold exitGuestThread
  split <;> rfl

theorem sameCount_leaveThread (os : GuestOs) (t : Nat) (v : Option (BitVec 32)) :
    SameCount os (os.leaveThread t v) := by
  unfold leaveThread
  dsimp only
  have hclear := sameCount_clearContext os t
  refine SameCount.trans ?_ (sameCount_exitGuestThread _ t)
  split
  · exact hclear
  · split <;> exact hclear

theorem sameCount_makeRunnable (h : makeRunnable fuel os t = some os') : SameCount os os' := by
  obtain ⟨priority, -, h⟩ := Option.bind_eq_some_iff.mp h
  obtain ⟨os₁, h₁, rfl⟩ := Option.map_eq_some_iff.mp h
  have hinsert := sameCount_insert h₁
  exact hinsert

/-! ## with the scheduler disabled -/

/-- the call has returned, and the scheduler is disabled as before -/
def Ending.Disabled (e : Ending) : Prop := ∃ os, e = .returned os ∧ 1 ≤ os.disableCount

theorem Ending.Disabled.returned (h : 1 ≤ os.disableCount) : (Ending.returned os).Disabled :=
  ⟨os, rfl, h⟩

theorem Ending.Disabled.andThen (h : e.Disabled) (rest : List Rest) {f : GuestOs → Ending}
    (hf : ∀ os : GuestOs, 1 ≤ os.disableCount → (f os).Disabled) : (e.andThen rest f).Disabled := by
  obtain ⟨os, rfl, hos⟩ := h
  exact hf os hos

theorem SameCount.disabled (h : SameCount os os') (hd : 1 ≤ os.disableCount) :
    1 ≤ os'.disableCount := by
  rw [h]
  exact hd

theorem selectThread_disabled (hd : 1 ≤ os.disableCount) (force : Bool) :
    os.selectThread force = .returned os := if_pos hd

theorem rescheduleIfAsked_disabled (hd : 1 ≤ os.disableCount) : os.rescheduleIfAsked.Disabled := by
  unfold rescheduleIfAsked
  rw [selectThread_disabled hd, ite_self]
  exact .returned hd

theorem wakeupThread_disabled (hd : 1 ≤ os.disableCount) (w : WaitQueue) :
    (os.wakeupThread w).Disabled := by
  unfold wakeupThread
  split
  · exact .returned hd
  · have hcount := (sameCount_wakeLoop 256 os w false).disabled hd
    dsimp only
    rw [selectThread_disabled hcount, ite_self]
    exact .returned hcount

theorem sleepThread_disabled (hd : 1 ≤ os.disableCount) (h : sleepThread fuel os w = some e) :
    e.Disabled := by
  unfold sleepThread at h
  dsimp only at h
  have hcount := (sameCount_adopt os).disabled hd
  split at h
  · obtain rfl := Option.some.inj h
    exact .returned hd
  · split at h
    · obtain rfl := Option.some.inj h
      exact .returned hd
    · rw [if_pos (by omega)] at h
      obtain rfl := Option.some.inj h
      exact .returned hcount

theorem lockMutex_disabled {steps m : Nat} (hd : 1 ≤ os.disableCount)
    (h : lockMutex fuel steps os t m = some e) : e.Disabled := by
  induction steps generalizing os with
  | zero => cases h
  | succ steps ih =>
    unfold lockMutex at h
    split at h
    · obtain rfl := Option.some.inj h
      exact .returned hd
    · split at h
      · obtain rfl := Option.some.inj h
        exact .returned hd
      · obtain ⟨os₁, h₁, h⟩ := Option.bind_eq_some_iff.mp h
        obtain ⟨e₁, he₁, h⟩ := Option.bind_eq_some_iff.mp h
        have hcount : 1 ≤ os₁.disableCount := (sameCount_promote h₁).disabled hd
        obtain ⟨os₂, rfl, hos₂⟩ := sleepThread_disabled hcount he₁
        have hretry : 1 ≤ (os₂.modifyThread t fun r => { r with mutex := 0 }).disableCount := hos₂
        exact ih hretry h

theorem unlockMutex_disabled {m : Nat} (hd : 1 ≤ os.disableCount)
    (h : unlockMutex fuel os m = some e) : e.Disabled := by
  unfold unlockMutex at h
  dsimp only at h
  split at h
  · obtain rfl := Option.some.inj h
    exact .returned hd
  · split at h
    · obtain rfl := Option.some.inj h
      exact .returned hd
    · obtain ⟨os₁, h₁, rfl⟩ := Option.map_eq_some_iff.mp h
      refine wakeupThread_disabled ?_ _
      split at h₁
      · obtain ⟨priority, -, rfl⟩ := Option.map_eq_some_iff.mp h₁
        exact hd
      · obtain rfl := Option.some.inj h₁
        exact hd

theorem unlockAllMutex_disabled {guard : Nat} (hd : 1 ≤ os.disableCount) (t : Nat) :
    (unlockAllMutex guard os t).Disabled := by
  induction guard generalizing os with
  | zero => exact .returned hd
  | succ guard ih =>
    unfold unlockAllMutex
    dsimp only
    split
    · exact .returned hd
    · exact (wakeupThread_disabled (by exact hd) _).andThen _ fun _ hos => ih hos

theorem terminateThreadCommon_disabled (hd : 1 ≤ os.disableCount) (t : Nat)
    (v : Option (BitVec 32)) : (os.terminateThreadCommon t v).Disabled :=
  (unlockAllMutex_disabled ((sameCount_leaveThread os t v).disabled hd) t).andThen _
    fun _ hos => wakeupThread_disabled hos _

theorem cancelSelect_disabled (hd : 1 ≤ os.disableCount) : os.cancelSelect.Disabled := by
  unfold cancelSelect
  rw [selectThread_disabled hd, ite_self]
  exact .returned hd

theorem exitThread_disabled (hd : 1 ≤ os.disableCount) (v : BitVec 32) :
    (os.exitThread v).Disabled := by
  unfold exitThread
  split
  · exact .returned hd
  · refine (terminateThreadCommon_disabled hd _ _).andThen _ fun os' hos => ?_
    show (selectThread { os' with reschedule := true } false).Disabled
    rw [selectThread_disabled (by exact hos)]
    exact .returned hos

theorem cancelThread_disabled (hd : 1 ≤ os.disableCount) (t : Nat) :
    (os.cancelThread t).Disabled := by
  unfold cancelThread
  dsimp only
  split
  · exact .returned hd
  · refine (terminateThreadCommon_disabled ?_ _ _).andThen _ fun _ hos => cancelSelect_disabled hos
    split
    · split
      · exact (sameCount_remove os t).disabled hd
      · exact hd
    · exact hd
    · exact (sameCount_remove os t).disabled hd
    · exact hd
    · exact hd

theorem sameCount_joinMoribund (os : GuestOs) (caller t : Nat) :
    SameCount os (os.joinMoribund caller t) := by
  unfold joinMoribund
  split <;> rfl

theorem joinThread_disabled (hd : 1 ≤ os.disableCount) (h : joinThread fuel os t = some e) :
    e.Disabled := by
  unfold joinThread at h
  dsimp only at h
  split at h
  · obtain rfl := Option.some.inj h
    exact .returned hd
  · split at h
    · obtain ⟨e₁, he₁, h⟩ := Option.bind_eq_some_iff.mp h
      obtain ⟨os₁, rfl, hos₁⟩ := sleepThread_disabled hd he₁
      obtain ⟨os₂, h₂, rfl⟩ := Option.map_eq_some_iff.mp h
      obtain ⟨found, -, rfl⟩ := Option.map_eq_some_iff.mp h₂
      refine .returned ?_
      split
      · exact hos₁
      · exact (sameCount_joinMoribund os₁ _ t).disabled hos₁
    · obtain rfl := Option.some.inj h
      exact .returned ((sameCount_joinMoribund os _ t).disabled hd)

theorem detachThread_disabled (hd : 1 ≤ os.disableCount) (t : Nat) :
    (os.detachThread t).Disabled := by
  unfold detachThread
  dsimp only
  split
  · exact .returned hd
  · refine wakeupThread_disabled ?_ _
    split
    · exact (sameCount_exitGuestThread _ t).disabled hd
    · exact hd

theorem suspendThread_disabled (hd : 1 ≤ os.disableCount)
    (h : suspendThread fuel os t = some e) : e.Disabled := by
  unfold suspendThread at h
  dsimp only at h
  split at h
  · obtain rfl := Option.some.inj h
    exact .returned hd
  · split at h
    · obtain rfl := Option.some.inj h
      exact .returned hd
    · obtain ⟨os₁, h₁, rfl⟩ := Option.map_eq_some_iff.mp h
      refine rescheduleIfAsked_disabled ?_
      split at h₁
      · obtain rfl := Option.some.inj h₁
        exact (sameCount_remove _ t).disabled hd
      · obtain rfl := Option.some.inj h₁
        exact hd
      · obtain ⟨os₂, h₂, h₁⟩ := Option.bind_eq_some_iff.mp h₁
        refine (sameCount_propagateMutex h₁).disabled ?_
        have hremove : 1 ≤ ((((os.setSuspend t ((os.thread t).suspend + 1)).removeThreadFromQueue
            t).setPriority t 32)).disableCount := (sameCount_remove _ t).disabled hd
        split at h₂
        · obtain rfl := Option.some.inj h₂
          exact hremove
        · exact (sameCount_insert h₂).disabled hremove
      · obtain rfl := Option.some.inj h₁
        exact hd
      · obtain rfl := Option.some.inj h₁
        exact hd

theorem resumeThread_disabled (hd : 1 ≤ os.disableCount)
    (h : resumeThread fuel os t = some e) : e.Disabled := by
  unfold resumeThread at h
  dsimp only at h
  split at h
  · obtain rfl := Option.some.inj h
    exact .returned hd
  · split at h
    · obtain rfl := Option.some.inj h
      exact .returned hd
    · split at h
      · obtain rfl := Option.some.inj h
        exact .returned hd
      · obtain ⟨os₁, h₁, rfl⟩ := Option.map_eq_some_iff.mp h
        refine rescheduleIfAsked_disabled ?_
        split at h₁
        · obtain ⟨priority, -, h₁⟩ := Option.bind_eq_some_iff.mp h₁
          obtain ⟨os₂, h₂, h₁⟩ := Option.bind_eq_some_iff.mp h₁
          refine (sameCount_propagateMutex h₁).disabled ?_
          have hremove : 1 ≤ ((((os.setSuspend t ((os.thread t).suspend - 1)).removeThreadFromQueue
              t).setPriority t priority)).disableCount := (sameCount_remove _ t).disabled hd
          split at h₂
          · obtain rfl := Option.some.inj h₂
            exact hremove
          · exact (sameCount_insert h₂).disabled hremove
        · obtain ⟨os₂, h₂, rfl⟩ := Option.map_eq_some_iff.mp h₁
          have hrunnable := (sameCount_makeRunnable h₂).disabled hd
          split
          · exact (sameCount_register os₂ t).disabled hrunnable
          · exact hrunnable
        · split at h₁
          · obtain rfl := Option.some.inj h₁
            exact hd
          · exact (sameCount_makeRunnable h₁).disabled hd
        · obtain rfl := Option.some.inj h₁
          exact hd
        · obtain rfl := Option.some.inj h₁
          exact hd

/-- **With the scheduler disabled no call gets to a switch.** -/
theorem perform_disabled {call : Call} (hd : 1 ≤ os.disableCount)
    (h : perform fuel os call = some e) : e.Disabled := by
  cases call with
  | create t priority detached =>
    obtain rfl := Option.some.inj h
    refine .returned ?_
    unfold createThread
    repeat' split
    all_goals exact hd
  | resume t => exact resumeThread_disabled hd h
  | suspend t => exact suspendThread_disabled hd h
  | sleep w => exact sleepThread_disabled hd h
  | wakeup w =>
    obtain rfl := Option.some.inj h
    exact wakeupThread_disabled hd w
  | lock m =>
    simp only [perform] at h
    split at h
    · obtain rfl := Option.some.inj h
      exact .returned hd
    · exact lockMutex_disabled hd h
  | unlock m => exact unlockMutex_disabled hd h
  | exit v =>
    obtain rfl := Option.some.inj h
    exact exitThread_disabled hd v
  | cancel t =>
    obtain rfl := Option.some.inj h
    exact cancelThread_disabled hd t
  | join t => exact joinThread_disabled hd h
  | detach t =>
    obtain rfl := Option.some.inj h
    exact detachThread_disabled hd t
  | select force =>
    obtain rfl := Option.some.inj h
    rw [selectThread_disabled hd]
    exact .returned hd

/-! ## where the dispatch loops stand -/

def HostFrame.isDispatch : HostFrame → Bool
  | .alarms _ | .handler _ => true
  | .rest _ | .idle _ | .completions => false

namespace Machine

variable {m m' : Machine} {fs : List HostFrame}

/-- no host context is in a dispatch loop -/
def Free (m : Machine) : Prop :=
  m.alarmProcessDepth = 0 ∧ ∀ h, ∀ f ∈ m.stack h, f.isDispatch = false

/-- the executing host context is, and it is innermost there -/
def Dispatching (m : Machine) : Prop :=
  ∃ f fs, m.frames = f :: fs ∧ f.isDispatch = true ∧ m.alarmProcessDepth = 1 ∧
    Free { m.withFrames fs with alarmProcessDepth := 0 }

def Guarded (m : Machine) : Prop := m.Free ∨ m.Dispatching

theorem withFrames_frames (m : Machine) (fs : List HostFrame) : (m.withFrames fs).frames = fs :=
  update_self ..

theorem withFrames_withFrames (m : Machine) (fs gs : List HostFrame) :
    (m.withFrames fs).withFrames gs = m.withFrames gs := by
  show { m with stack := update (update m.stack m.host fs) m.host gs } = _
  rw [update_idem]
  rfl

theorem withFrames_self (m : Machine) : m.withFrames m.frames = m := by
  show { m with stack := update m.stack m.host (m.stack m.host) } = m
  rw [update_eq_self]

/-! ### outside the loops -/

theorem Free.withFrames (h : m.Free) (hfs : ∀ f ∈ fs, f.isDispatch = false) :
    (m.withFrames fs).Free := by
  refine ⟨h.1, fun x => ?_⟩
  show ∀ f ∈ update m.stack m.host fs x, _
  rw [update_apply]
  split
  · exact hfs
  · exact h.2 x

theorem Free.tail {f : HostFrame} (h : m.Free) (hframes : m.frames = f :: fs) :
    (m.withFrames fs).Free :=
  h.withFrames fun g hg => h.2 m.host g (by
    show g ∈ m.frames
    rw [hframes]
    exact List.mem_cons_of_mem f hg)

theorem Free.push (h : m.Free) (fs : List HostFrame) (hfs : ∀ f ∈ fs, f.isDispatch = false) : (m.push fs).Free :=
  h.withFrames fun f hf => (List.mem_append.mp hf).elim (hfs f) (h.2 m.host f)

theorem Free.withOs (h : m.Free) (os : GuestOs) : (m.withOs os).Free := h

theorem Free.switchToThread (h : m.Free) (t : Nat) : (m.switchToThread t).Free := by
  unfold Machine.switchToThread
  split
  · dsimp only
    split
    · exact h
    · have hpush := (h.withOs { m.os with currentGuestThread := t }).push
        [.rest (.switched m.os.currentGuestThread)]
        (by simp [HostFrame.isDispatch])
      exact hpush
  · exact h

theorem Free.settle (h : m.Free) (choice : Choice) : (m.settle choice).Free := by
  cases choice with
  | stay os => exact h
  | idle os => exact (h.withOs os).push _ (by simp [HostFrame.isDispatch])
  | picked os t => exact (h.withOs os).switchToThread t

theorem Free.finish (h : m.Free) (hm : m.finish fuel e = some m') : m'.Free := by
  cases e with
  | returned os =>
    obtain rfl := Option.some.inj hm
    exact h
  | choosing os rest =>
    obtain ⟨choice, -, rfl⟩ := Option.map_eq_some_iff.mp hm
    refine ((h.withOs os).push _ fun f hf => ?_).settle choice
    obtain ⟨r, -, rfl⟩ := List.mem_map.mp hf
    rfl

/-! ### inside them -/

theorem Dispatching.withOs (h : m.Dispatching) (os : GuestOs) : (m.withOs os).Dispatching := h

theorem Dispatching.replace (h : m.Dispatching) {f g : HostFrame} (hframes : m.frames = f :: fs)
    (hg : g.isDispatch = true) : (m.withFrames (g :: fs)).Dispatching := by
  obtain ⟨f', fs', hframes', -, hdepth, hfree⟩ := h
  obtain ⟨-, rfl⟩ := List.cons.inj (hframes.symm.trans hframes')
  refine ⟨g, fs, withFrames_frames m _, hg, hdepth, ?_⟩
  show Free { (m.withFrames (g :: fs)).withFrames fs with alarmProcessDepth := 0 }
  rw [withFrames_withFrames]
  exact hfree

theorem Dispatching.leave (h : m.Dispatching) {f g : HostFrame} (hframes : m.frames = f :: fs)
    (hg : g.isDispatch = false) (os : GuestOs) :
    Free { (m.withFrames (g :: fs)).withOs os with
      alarmProcessDepth := m.alarmProcessDepth - 1 } := by
  obtain ⟨f', fs', hframes', -, hdepth, hfree⟩ := h
  obtain ⟨-, rfl⟩ := List.cons.inj (hframes.symm.trans hframes')
  have hpush := hfree.push [g] (by simpa using hg)
  refine ⟨by show m.alarmProcessDepth - 1 = 0; omega, fun x f hf => hpush.2 x f ?_⟩
  show f ∈ update (update m.stack m.host fs) m.host ([g] ++ update m.stack m.host fs m.host) x
  rw [update_idem, update_self]
  exact hf

theorem Free.enter (h : m.Free) {f : HostFrame} (hf : f.isDispatch = true) :
    Dispatching { m.push [f] with alarmProcessDepth := m.alarmProcessDepth + 1 } := by
  refine ⟨f, m.frames, ?_, hf, by show m.alarmProcessDepth + 1 = 1; rw [h.1], ?_⟩
  · exact withFrames_frames m (f :: m.frames)
  · show Free { (m.withFrames (f :: m.frames)).withFrames m.frames with alarmProcessDepth := 0 }
    rw [withFrames_withFrames, withFrames_self]
    exact ⟨rfl, h.2⟩

/-! ## one step -/

/-- SelectThread is not called after the handler, or turns back at its first tests -/
def refusesReschedule (os : GuestOs) : Bool :=
  os.advancingRetrace ∨ os.reschedule = false ∨ 1 ≤ os.disableCount ∨
    (os.currentContext = 0 ∧ os.runningContext = 0) ∨ os.currentContext ≠ os.runningContext ∨
    (os.runningContext ≠ 0 ∧ (os.thread os.runningContext).state = .running ∧
      (os.thread os.runningContext).priority ≤ cntlzw os.pending)

/-- handlers call the OS with the scheduler disabled, and leave no switch to be made -/
def guardKept (m : Machine) : Event → Bool
  | .call _ =>
    match m.frames with
    | .handler _ :: _ => 1 ≤ m.os.disableCount
    | _ => true
  | .handlerReturns => refusesReschedule (decrementSchedulerDisableCount m.os)
  | _ => true

theorem runDeferredReschedule_of_refuses (h : refusesReschedule os = true) :
    runDeferredReschedule os = .returned os := by
  have h' := of_decide_eq_true h
  unfold runDeferredReschedule
  split
  · rfl
  · next hask =>
    rw [not_or, not_not] at hask
    unfold selectThread
    dsimp only
    split
    · rfl
    · split
      · rfl
      · split
        · rfl
        · next hdisabled hnone hcontext =>
          have hlow : os.runningContext ≠ 0 ∧ (os.thread os.runningContext).state = .running ∧
              (os.thread os.runningContext).priority ≤ cntlzw os.pending := by
            simpa [hask.1, hask.2, hdisabled, hnone, hcontext] using h'
          rw [if_pos ⟨hlow.1, hlow.2.1⟩, if_pos ⟨by simp, hlow.2.2⟩]

theorem Free.not_dispatch (h : m.Free) {f : HostFrame} (hframes : m.frames = f :: fs) :
    f.isDispatch = false :=
  h.2 m.host f (by
    show f ∈ m.frames
    rw [hframes]
    exact List.mem_cons_self)

theorem Free.next (h : m.Free) {event : Event} (hm : m.next fuel event = some m') :
    m'.Free ∨ m'.Dispatching ∧ m'.host = m.host := by
  cases event with
  | call c =>
    simp only [Machine.next] at hm
    split at hm
    · obtain ⟨e, -, hfinish⟩ := Option.bind_eq_some_iff.mp hm
      exact .inl (h.finish hfinish)
    · cases hm
  | rest =>
    simp only [Machine.next] at hm
    split at hm
    · next r fs hframes =>
      obtain ⟨e, -, hfinish⟩ := Option.bind_eq_some_iff.mp hm
      exact .inl ((h.tail hframes).finish hfinish)
    · cases hm
  | writeDisableCount n | retrace b | entryReturns | deferEntry =>
    simp only [Machine.next] at hm
    split at hm
    · obtain rfl := Option.some.inj hm
      exact .inl h
    · cases hm
  | processAlarmQueue n =>
    simp only [Machine.next] at hm
    split at hm
    · obtain rfl := Option.some.inj hm
      unfold Machine.processAlarmQueue
      split
      · exact .inl h
      · exact .inr ⟨h.enter rfl, rfl⟩
    · cases hm
  | alarm b | handlerReturns =>
    simp only [Machine.next] at hm
    split at hm
    · next hframes => cases h.not_dispatch hframes
    · cases hm
  | alarmsEnd =>
    simp only [Machine.next] at hm
    split at hm
    · next hframes => cases h.not_dispatch hframes
    · next hframes => cases h.not_dispatch hframes
    · cases hm
  | completionsEnd completed =>
    simp only [Machine.next] at hm
    split at hm
    · next hframes => exact .inl ((h.tail hframes).finish hm)
    · cases hm
  | leaveIdle =>
    simp only [Machine.next] at hm
    split at hm
    · next running fs hframes =>
      split at hm
      · cases hm
      · obtain ⟨choice, -, rfl⟩ := Option.map_eq_some_iff.mp hm
        exact .inl ((h.tail hframes).settle choice)
    · cases hm

theorem Dispatching.head (h : m.Dispatching) {f : HostFrame} (hframes : m.frames = f :: fs) :
    f.isDispatch = true := by
  obtain ⟨g, gs, hgs, hg, -⟩ := h
  obtain ⟨rfl, -⟩ := List.cons.inj (hgs.symm.trans hframes)
  exact hg

theorem Dispatching.next (h : m.Dispatching) {event : Event} (hok : m.guardKept event = true)
    (hm : m.next fuel event = some m') : m'.Free ∨ m'.Dispatching ∧ m'.host = m.host := by
  obtain ⟨f, fs, hframes, hf, -, -⟩ := id h
  cases event with
  | call c =>
    simp only [Machine.next] at hm
    split at hm
    · next hguest =>
      obtain ⟨e, hperform, hfinish⟩ := Option.bind_eq_some_iff.mp hm
      cases f with
      | handler left =>
        have hd : 1 ≤ m.os.disableCount := by simpa [guardKept, hframes] using hok
        obtain ⟨os, rfl, -⟩ := perform_disabled hd hperform
        obtain rfl := Option.some.inj hfinish
        exact .inr ⟨h.withOs os, rfl⟩
      | alarms left => simp [inGuestCode, hframes] at hguest
      | rest r => cases hf
      | idle running => cases hf
      | completions => cases hf
    · cases hm
  | writeDisableCount n | retrace b =>
    simp only [Machine.next] at hm
    split at hm
    · obtain rfl := Option.some.inj hm
      exact .inr ⟨h, rfl⟩
    · cases hm
  | processAlarmQueue n =>
    simp only [Machine.next] at hm
    split at hm
    · obtain rfl := Option.some.inj hm
      obtain ⟨-, -, -, -, hdepth, -⟩ := id h
      unfold Machine.processAlarmQueue
      rw [if_pos (.inr (by omega))]
      exact .inr ⟨h, rfl⟩
    · cases hm
  | alarm hasHandler =>
    simp only [Machine.next] at hm
    split at hm
    · next left gs hgs =>
      split at hm
      · obtain rfl := Option.some.inj hm
        exact .inr ⟨(h.replace hgs rfl).withOs _, rfl⟩
      · obtain rfl := Option.some.inj hm
        exact .inr ⟨h.replace hgs rfl, rfl⟩
    · cases hm
  | handlerReturns =>
    simp only [Machine.next] at hm
    split at hm
    · next left gs hgs =>
      rw [runDeferredReschedule_of_refuses hok] at hm
      obtain rfl := Option.some.inj hm
      exact .inr ⟨(h.replace hgs rfl).withOs _, rfl⟩
    · cases hm
  | alarmsEnd =>
    simp only [Machine.next] at hm
    split at hm
    · next left gs hgs =>
      obtain rfl := Option.some.inj hm
      exact .inl (h.leave hgs rfl m.os)
    · next left gs hgs =>
      obtain rfl := Option.some.inj hm
      exact .inl (h.leave hgs rfl _)
    · cases hm
  | rest | completionsEnd completed | leaveIdle | deferEntry =>
    simp only [Machine.next] at hm
    split at hm
    · next hgs => cases h.head hgs
    · cases hm
  | entryReturns => simp [Machine.next, hframes] at hm

theorem Boot.guarded (h : m.Boot) : m.Guarded := by
  refine .inl ⟨h.depth, fun x => ?_⟩
  by_cases hx : x = 0
  · rw [hx, h.frames]
    exact fun f hf => absurd hf List.not_mem_nil
  · rw [h.entries x hx]
    simp [HostFrame.isDispatch]

theorem Guarded.next (h : m.Guarded) {event : Event} (hok : m.guardKept event = true)
    (hm : m.next fuel event = some m') : m'.Free ∨ m'.Dispatching ∧ m'.host = m.host :=
  h.elim (fun hfree => hfree.next hm) fun hdispatch => hdispatch.next hok hm

end Machine

end DolTranslator.Os
