import Darwin.Kern.ThreadCallQueues
import Mathlib.Data.Int.Order.Basic

/-! # Callouts are not stranded

The timer is armed for the first delayed call, and there is somebody to take the first pending
one. Wake-ups come after the lock has been released, so the invariant counts those that are still
to be issued together with the threads that they are for.
-/
namespace Darwin.Kern
open Darwin.Lib List Option CalloutSystem

/-! ## The order of deadlines -/

theorem cmpTvalspec_le {t1 t2 : Tvalspec} : cmpTvalspec t1 t2 ≤ 0 ↔
    t1.tvSec < t2.tvSec ∨ t1.tvSec = t2.tvSec ∧ t1.tvNsec ≤ t2.tvNsec := by
  unfold cmpTvalspec
  split_ifs <;> omega

theorem cmpTvalspec_refl (t : Tvalspec) : cmpTvalspec t t ≤ 0 := by
  simp [cmpTvalspec_le]

theorem cmpTvalspec_trans {t1 t2 t3 : Tvalspec} (h : cmpTvalspec t1 t2 ≤ 0)
    (h' : cmpTvalspec t2 t3 ≤ 0) : cmpTvalspec t1 t3 ≤ 0 := by
  rw [cmpTvalspec_le] at *
  omega

theorem cmpTvalspec_total {t1 t2 : Tvalspec} (h : 0 ≤ cmpTvalspec t1 t2) :
    cmpTvalspec t2 t1 ≤ 0 := by
  unfold cmpTvalspec at *
  split_ifs at * <;> omega

section callouts
open Callouts
variable {s s' : Callouts} {c : ℕ} {r : ThreadCall}

/-! ## The timer -/

/-- The delayed calls are in the order of their deadlines, and the timer expires by then. -/
structure Timed (s : Callouts) : Prop where
  sorted : s.delayedCallQueue.Pairwise
    (fun c d => cmpTvalspec (s.call c).deadline (s.call d).deadline ≤ 0)
  armed : ∀ c ∈ s.delayedCallQueue, ∃ d, s.timer = some d ∧ cmpTvalspec d (s.call c).deadline ≤ 0

theorem Timed.of_head (hsorted : s.delayedCallQueue.Pairwise
      (fun c d => cmpTvalspec (s.call c).deadline (s.call d).deadline ≤ 0))
    (hhead : ∀ c, s.delayedCallQueue.head? = some c →
      ∃ d, s.timer = some d ∧ cmpTvalspec d (s.call c).deadline ≤ 0) : Timed s := by
  refine ⟨hsorted, ?_⟩
  intro c hc
  cases hqueue : s.delayedCallQueue with
  | nil => simp [hqueue] at hc
  | cons f rest =>
    rw [hqueue] at hc hsorted hhead
    obtain ⟨d, hd, hle⟩ := hhead f rfl
    refine ⟨d, hd, ?_⟩
    rcases mem_cons.mp hc with rfl | hc
    · exact hle
    · exact cmpTvalspec_trans hle (rel_of_pairwise_cons hsorted hc)

/-- Calls leave the queues. -/
structure Eased (s s' : Callouts) : Prop where
  delayed : s'.delayedCallQueue.Sublist s.delayedCallQueue
  deadline : ∀ c ∈ s'.delayedCallQueue, (s'.call c).deadline = (s.call c).deadline
  timer : s'.timer = s.timer
  pendingNum : s'.pendingCallNum ≤ s.pendingCallNum
  activeNum : s'.activeCallNum = s.activeCallNum
  threadNum : s'.callThreadNum = s.callThreadNum

theorem Eased.refl (s : Callouts) : Eased s s :=
  ⟨.refl _, fun _ _ => rfl, rfl, le_refl _, rfl, rfl⟩

theorem Eased.trans {s₁ s₂ s₃ : Callouts} (h : Eased s₁ s₂) (h' : Eased s₂ s₃) : Eased s₁ s₃ where
  delayed := h'.delayed.trans h.delayed
  deadline := fun c hc => (h'.deadline c hc).trans (h.deadline c (h'.delayed.subset hc))
  timer := h'.timer.trans h.timer
  pendingNum := h'.pendingNum.trans h.pendingNum
  activeNum := h'.activeNum.trans h.activeNum
  threadNum := h'.threadNum.trans h.threadNum

theorem Timed.eased (h : Timed s) (he : Eased s s') : Timed s' := by
  refine ⟨?_, ?_⟩
  · refine (h.sorted.sublist he.delayed).imp_of_mem ?_
    intro c d hc hd hle
    rwa [he.deadline c hc, he.deadline d hd]
  · intro c hc
    rw [he.timer, he.deadline c hc]
    exact h.armed c (he.delayed.subset hc)

theorem Timed.setCall (h : Timed s) (hc : c ∉ s.delayedCallQueue) : Timed (s.setCall c r) := by
  have hsame : ∀ c' ∈ s.delayedCallQueue, ((s.setCall c r).call c').deadline =
      (s.call c').deadline := by
    intro c' hc'
    have hne : c' ≠ c := by
      rintro rfl
      exact hc hc'
    simp [hne]
  refine ⟨h.sorted.imp_of_mem ?_, ?_⟩
  · intro c' d hc' hd hle
    rwa [hsame c' hc', hsame d hd]
  · intro c' hc'
    rw [hsame c' hc']
    exact h.armed c' hc'

@[simp] theorem setStatus_deadline {status : CallStatus} {c' : ℕ} :
    ((s.setStatus c status).call c').deadline = (s.call c').deadline := by
  by_cases h : c' = c
  · subst h
    simp [setStatus]
  · simp [setStatus, h]

theorem Eased.pendingCallDequeue : Eased s (s.pendingCallDequeue c) where
  delayed := .refl _
  deadline := fun _ _ => setStatus_deadline
  timer := rfl
  pendingNum := by
    rw [pendingCallDequeue_num]
    omega
  activeNum := rfl
  threadNum := rfl

theorem Eased.delayedCallDequeue : Eased s (s.delayedCallDequeue c) where
  delayed := erase_sublist
  deadline := fun _ _ => setStatus_deadline
  timer := rfl
  pendingNum := le_refl _
  activeNum := rfl
  threadNum := rfl

theorem Eased.release : Eased s (s.threadCallRelease c) := by
  unfold Callouts.threadCallRelease
  split_ifs
  · exact { Eased.refl s with }
  · exact .refl s

theorem Eased.removeFrom {dequeue : Callouts → ℕ → Callouts} (hdequeue : ∀ s c, Eased s (dequeue s c))
    (func spec : ℕ) (removeAll : Bool) (l : List ℕ) :
    ∀ s, Eased s (removeFrom dequeue func spec removeAll l s).1 := by
  induction l with
  | nil => exact Eased.refl
  | cons c rest ih =>
    intro s
    have hremoved := (hdequeue s c).trans (Eased.release (c := c))
    simp only [Callouts.removeFrom]
    split_ifs
    · exact hremoved.trans (ih _)
    · exact hremoved
    · exact ih s

theorem Eased.threadCallFuncCancel {func spec : ℕ} {cancelAll : Bool} :
    Eased s (s.threadCallFuncCancel func spec cancelAll) := by
  have hpending : Eased s (s.removeFromPendingQueue func spec cancelAll).1 :=
    Eased.removeFrom (fun _ _ => Eased.pendingCallDequeue) ..
  simp only [Callouts.threadCallFuncCancel]
  split_ifs
  · exact hpending
  · exact hpending.trans (Eased.removeFrom (fun _ _ => Eased.delayedCallDequeue) ..)

theorem Eased.threadCallCancel : Eased s (s.threadCallCancel c) := by
  unfold Callouts.threadCallCancel
  split
  · exact Eased.pendingCallDequeue.trans Eased.release
  · exact Eased.delayedCallDequeue.trans Eased.release
  · exact .refl s

/-! ### Delayed calls -/

theorem delayedInsert_sorted {call : ℕ → ThreadCall} {l : List ℕ}
    (h : l.Pairwise (fun c d => cmpTvalspec (call c).deadline (call d).deadline ≤ 0)) :
    (delayedInsert call c l).Pairwise
      (fun c d => cmpTvalspec (call c).deadline (call d).deadline ≤ 0) := by
  induction l with
  | nil => exact pairwise_singleton ..
  | cons current rest ih =>
    obtain ⟨hfirst, hrest⟩ := pairwise_cons.mp h
    simp only [delayedInsert]
    split_ifs with hneg hzero
    · refine pairwise_cons.mpr ⟨?_, h⟩
      intro d hd
      rcases mem_cons.mp hd with rfl | hd
      · exact hneg.le
      · exact cmpTvalspec_trans hneg.le (hfirst d hd)
    · have hle : cmpTvalspec (call current).deadline (call c).deadline ≤ 0 :=
        cmpTvalspec_total hzero.ge
      refine pairwise_cons.mpr ⟨?_, pairwise_cons.mpr ⟨?_, hrest⟩⟩
      · intro d hd
        rcases mem_cons.mp hd with rfl | hd
        · exact hle
        · exact hfirst d hd
      · exact fun d hd => cmpTvalspec_trans hzero.le (hfirst d hd)
    · refine pairwise_cons.mpr ⟨?_, ih hrest⟩
      intro d hd
      rcases mem_cons.mp ((delayedInsert_perm call c rest).subset hd) with rfl | hd
      · exact cmpTvalspec_total (not_lt.mp hneg)
      · exact hfirst d hd

theorem Timed.enqueueAndSetTimer (h : Timed s) : Timed (s.enqueueAndSetTimer c) := by
  have hdeadline : ∀ c', ((s.delayedCallEnqueue c).call c').deadline = (s.call c').deadline :=
    fun _ => setStatus_deadline
  have hsorted : (s.delayedCallEnqueue c).delayedCallQueue.Pairwise (fun d e =>
      cmpTvalspec ((s.delayedCallEnqueue c).call d).deadline
        ((s.delayedCallEnqueue c).call e).deadline ≤ 0) := by
    simp only [hdeadline]
    exact delayedInsert_sorted h.sorted
  simp only [Callouts.enqueueAndSetTimer]
  split_ifs with hfirst
  · refine Timed.of_head hsorted ?_
    intro c' hc'
    rw [Option.some.inj (hc'.symm.trans hfirst)]
    exact ⟨_, rfl, cmpTvalspec_refl _⟩
  · refine Timed.of_head hsorted ?_
    intro c' hc'
    have hmem := (delayedInsert_perm s.call c s.delayedCallQueue).subset (mem_of_head? hc')
    rw [hdeadline]
    rcases mem_cons.mp hmem with rfl | hmem
    · exact absurd hc' hfirst
    · exact h.armed c' hmem

theorem enqueueAndSetTimer_nums : (s.enqueueAndSetTimer c).pendingCallNum = s.pendingCallNum ∧
    (s.enqueueAndSetTimer c).activeCallNum = s.activeCallNum ∧
    (s.enqueueAndSetTimer c).callThreadNum = s.callThreadNum := by
  simp only [Callouts.enqueueAndSetTimer]
  split_ifs <;> exact ⟨rfl, rfl, rfl⟩

theorem expire_timed {timestamp : Tvalspec} (l : List ℕ) : ∀ s : Callouts, s.delayedCallQueue = l →
    s.delayedCallQueue.Pairwise (fun c d => cmpTvalspec (s.call c).deadline (s.call d).deadline ≤ 0) →
      Timed (expire timestamp l s).1 := by
  induction l with
  | nil =>
    intro s hl _
    refine ⟨?_, ?_⟩ <;> simp [expire, hl]
  | cons c rest ih =>
    intro s hl hsorted
    simp only [expire]
    split_ifs
    · refine ih _ (by simp [hl]) ?_
      simp only [delayedCallDequeue_deadline]
      exact hsorted.sublist erase_sublist
    · refine Timed.of_head hsorted ?_
      intro c' hc'
      change s.delayedCallQueue.head? = some c' at hc'
      rw [hl] at hc'
      cases hc'
      exact ⟨_, rfl, cmpTvalspec_refl _⟩

theorem expire_nums (timestamp : Tvalspec) (l : List ℕ) : ∀ s : Callouts,
    (expire timestamp l s).1.pendingCallNum = s.pendingCallNum ∧
      (expire timestamp l s).1.activeCallNum = s.activeCallNum ∧
      (expire timestamp l s).1.callThreadNum = s.callThreadNum := by
  induction l with
  | nil => exact fun _ => ⟨rfl, rfl, rfl⟩
  | cons c rest ih =>
    intro s
    simp only [expire]
    split_ifs
    · exact ih (s.delayedCallDequeue c)
    · exact ⟨rfl, rfl, rfl⟩

theorem Timed.setStatus (h : Timed s) {status : CallStatus} : Timed (s.setStatus c status) := by
  refine ⟨?_, ?_⟩
  · simp only [setStatus_deadline]
    exact h.sorted
  · simp only [setStatus_deadline]
    exact h.armed

theorem Timed.pendingCallEnqueue (h : Timed s) : Timed (s.pendingCallEnqueue c) :=
  have htimed : Timed { s with
      pendingCallQueue := s.pendingCallQueue ++ [c]
      pendingCallNum := s.pendingCallNum + 1 } := { h with }
  htimed.setStatus

theorem Timed.internalCallAllocate (h : Timed s) (halloc : s.internalCallAllocate = some (c, s')) :
    Timed s' := by
  unfold Callouts.internalCallAllocate at halloc
  split at halloc
  · cases halloc
  · cases halloc
    exact { h with }

theorem Timed.callThreadContinue (h : Timed s) {t : Option CalloutThread}
    (hs' : s.callThreadContinue = some (s', t)) : Timed s' := by
  obtain ⟨c, -, -, rfl⟩ | ⟨-, -, rfl⟩ | ⟨-, -, -, rfl⟩ := callThreadContinue_cases hs'
  · exact { h.eased (Eased.pendingCallDequeue.trans (Eased.release (c := c))) with }
  · exact h
  · exact { h with }

end callouts

/-! ## Threads and wake-ups -/

/-- The activate thread is woken, at once or next. -/
def Wake.activates : Wake → Bool
  | .callThread activate => activate
  | .activateThread => true

def Wake.wakesCallThread : Wake → Bool
  | .callThread _ => true
  | .activateThread => false

/-- The thread has a call. -/
def CalloutThread.active : CalloutThread → Bool
  | .taken .. | .running .. => true
  | .waiting | .runnable => false

/-- Threads are there for the pending calls, or wake-ups that are still to be issued. -/
structure Awake (s : Callouts) (wakes : List Wake) (threads : List CalloutThread)
    (activate : ActivateThread) : Prop where
  threadNum : s.callThreadNum = threads.length + (if activate = .creating then 1 else 0)
  activeNum : s.activeCallNum = threads.countP CalloutThread.active
  more : s.callThreadNum < s.activeCallNum + s.pendingCallNum →
    activate ≠ .waiting ∨ ∃ w ∈ wakes, w.activates = true
  woken : .waiting ∈ threads →
    s.pendingCallNum ≤ threads.count .runnable + wakes.countP Wake.wakesCallThread

section awake
variable {s s' : Callouts} {wakes wakes' : List Wake} {threads threads' : List CalloutThread}
  {activate : ActivateThread}

theorem Awake.perm (h : Awake s wakes threads activate) (hwakes : wakes.Perm wakes')
    (hthreads : threads.Perm threads') : Awake s wakes' threads' activate where
  threadNum := by rw [← hthreads.length_eq, h.threadNum]
  activeNum := by rw [← hthreads.countP_eq, h.activeNum]
  more := by
    intro hless
    rcases h.more hless with hne | ⟨w, hw, hactivates⟩
    · exact .inl hne
    · exact .inr ⟨w, hwakes.subset hw, hactivates⟩
  woken := by
    intro hwaiting
    rw [← hthreads.count_eq, ← hwakes.countP_eq]
    exact h.woken (hthreads.symm.subset hwaiting)

theorem Awake.fewer (h : Awake s wakes threads activate)
    (hpending : s'.pendingCallNum ≤ s.pendingCallNum) (hactive : s'.activeCallNum = s.activeCallNum)
    (hthread : s'.callThreadNum = s.callThreadNum) : Awake s' wakes threads activate where
  threadNum := hthread.trans h.threadNum
  activeNum := hactive.trans h.activeNum
  more := fun hless => h.more (by omega)
  woken := fun hwaiting => hpending.trans (h.woken hwaiting)

theorem Awake.enqueued (h : Awake s wakes threads activate)
    (hpending : s'.pendingCallNum = s.pendingCallNum + 1)
    (hactive : s'.activeCallNum = s.activeCallNum) (hthread : s'.callThreadNum = s.callThreadNum) :
    Awake s' (s'.callThreadWake :: wakes) threads activate where
  threadNum := hthread.trans h.threadNum
  activeNum := hactive.trans h.activeNum
  more := fun hless => .inr ⟨_, mem_cons_self, decide_eq_true hless⟩
  woken := by
    intro hwaiting
    have hwoken := h.woken hwaiting
    have hwake : Wake.wakesCallThread s'.callThreadWake = true := rfl
    rw [countP_cons_of_pos hwake]
    omega

theorem Awake.callThreadContinue (h : Awake s wakes (.runnable :: threads) activate)
    {t : Option CalloutThread} (hs' : s.callThreadContinue = some (s', t)) :
    Awake s' wakes (t.toList ++ threads) activate := by
  obtain ⟨hthreadNum, hactiveNum, hmore, hwoken⟩ := h
  have hactive : CalloutThread.active .runnable = false := rfl
  rw [length_cons] at hthreadNum
  rw [countP_cons_of_neg (by simp [hactive])] at hactiveNum
  rw [count_cons_self] at hwoken
  obtain ⟨c, -, rfl, rfl⟩ | ⟨hnone, rfl, rfl⟩ | ⟨hnone, hmin, rfl, rfl⟩ := callThreadContinue_cases hs'
  · have hpending : ((s.pendingCallDequeue c).threadCallRelease c).pendingCallNum =
        s.pendingCallNum - 1 := by
      unfold Callouts.threadCallRelease
      split_ifs <;> rfl
    have hthread : ((s.pendingCallDequeue c).threadCallRelease c).callThreadNum = s.callThreadNum :=
      Eased.threadNum (Eased.pendingCallDequeue.trans Eased.release)
    refine ⟨?_, ?_, ?_, ?_⟩
    · simpa only [hthread, toList_some, singleton_append, length_cons] using hthreadNum
    · have hactive' : CalloutThread.active (.taken c (s.call c).func (s.call c).spec) = true := rfl
      simp only [toList_some, singleton_append]
      rw [countP_cons_of_pos hactive', hactiveNum]
      rfl
    · simp only [hthread, hpending]
      exact fun hless => hmore (by omega)
    · intro hwaiting
      have hmem : .waiting ∈ threads := by simpa using hwaiting
      have hwoken' := hwoken (mem_cons_of_mem _ hmem)
      simp only [hpending, toList_some, singleton_append]
      rw [count_cons_of_ne (by simp)]
      omega
  · refine ⟨hthreadNum, ?_, hmore, ?_⟩
    · simpa [CalloutThread.active] using hactiveNum
    · exact fun _ => hnone.trans (by omega)
  · refine ⟨?_, hactiveNum, ?_, ?_⟩
    · simp only [toList_none, nil_append]
      omega
    · simp only [callThreadMin] at hmin ⊢
      omega
    · exact fun _ => hnone.trans (by omega)

theorem Awake.finished {c func spec : ℕ} (h : Awake s wakes (.running c func spec :: threads) activate) :
    Awake { s with activeCallNum := s.activeCallNum - 1 } wakes (.runnable :: threads) activate where
  threadNum := h.threadNum
  activeNum := by
    have hactive : CalloutThread.active (.running c func spec) = true := rfl
    have hnum := h.activeNum
    rw [countP_cons_of_pos hactive] at hnum
    rw [countP_cons_of_neg (by simp [CalloutThread.active])]
    simp only [hnum]
    omega
  more := fun hless => h.more (by simp only at hless; omega)
  woken := by
    intro hwaiting
    have hmem : .waiting ∈ threads := by simpa using hwaiting
    have hwoken := h.woken (mem_cons_of_mem _ hmem)
    rw [count_cons_of_ne (by simp)] at hwoken
    rw [count_cons_self]
    simp only
    omega

theorem Awake.started {c func spec : ℕ} (h : Awake s wakes (.taken c func spec :: threads) activate) :
    Awake s wakes (.running c func spec :: threads) activate where
  threadNum := h.threadNum
  activeNum := h.activeNum
  more := h.more
  woken := by
    intro hwaiting
    have hmem : .waiting ∈ threads := by simpa using hwaiting
    have hwoken := h.woken (mem_cons_of_mem _ hmem)
    rw [count_cons_of_ne (by simp)] at hwoken
    rwa [count_cons_of_ne (by simp)]

end awake

/-- What a segment with the lock keeps; it may end with `_call_thread_wake`. -/
structure Attends (s s' : Callouts) (wake : Option Wake) : Prop where
  timed : Timed s → Timed s'
  awake : ∀ {wakes threads activate}, Awake s wakes threads activate →
    Awake s' (wake.toList ++ wakes) threads activate

section segments
variable {s s' : Callouts} {c : ℕ} {transit : List ℕ} {wake : Option Wake}

theorem Attends.refl (s : Callouts) : Attends s s none := ⟨id, id⟩

theorem Attends.trans {s₁ s₂ s₃ : Callouts} (h : Attends s₁ s₂ none) (h' : Attends s₂ s₃ wake) :
    Attends s₁ s₃ wake :=
  ⟨fun ht => h'.timed (h.timed ht), fun ha => h'.awake (h.awake ha)⟩

theorem Eased.attends (h : Eased s s') : Attends s s' none :=
  ⟨fun ht => ht.eased h, fun ha => ha.fewer h.pendingNum h.activeNum h.threadNum⟩

theorem Attends.setCall {r : ThreadCall} (hc : c ∉ s.delayedCallQueue) :
    Attends s (s.setCall c r) none :=
  ⟨fun ht => ht.setCall hc, fun ha => ha.fewer (le_refl _) rfl rfl⟩

theorem Attends.pendingCallEnqueue :
    Attends s (s.pendingCallEnqueue c) (some (s.pendingCallEnqueue c).callThreadWake) :=
  ⟨Timed.pendingCallEnqueue, fun ha => ha.enqueued rfl rfl rfl⟩

theorem Attends.enqueueAndSetTimer : Attends s (s.enqueueAndSetTimer c) none := by
  obtain ⟨hpending, hactive, hthread⟩ := enqueueAndSetTimer_nums (s := s) (c := c)
  exact ⟨Timed.enqueueAndSetTimer, fun ha => ha.fewer hpending.le hactive hthread⟩

theorem Attends.internalCallAllocate (halloc : s.internalCallAllocate = some (c, s')) :
    Attends s s' none := by
  refine ⟨fun ht => ht.internalCallAllocate halloc, fun ha => ?_⟩
  unfold Callouts.internalCallAllocate at halloc
  split at halloc
  · cases halloc
  · cases halloc
    exact ha.fewer (le_refl _) rfl rfl

theorem Linked.not_delayed (h : Linked s transit) (hidle : (s.call c).status = .idle) :
    c ∉ s.delayedCallQueue := by
  rw [h.delayed, hidle]
  simp

theorem threadCallFunc_attends (h : Linked s transit) {func spec : ℕ} {uniqueCall : Bool}
    {r : Callouts × Option Wake} (hr : s.threadCallFunc func spec uniqueCall = some r) :
    Attends s r.1 r.2 := by
  unfold Callouts.threadCallFunc at hr
  split_ifs at hr with hfound
  · cases hr
    exact .refl s
  · obtain ⟨⟨c, s₁⟩, halloc, hr⟩ := bind_eq_some_iff.mp hr
    cases hr
    obtain ⟨hlinked, hloose, -⟩ := h.internalCallAllocate halloc
    exact (Attends.internalCallAllocate halloc).trans
      ((Attends.setCall (hlinked.not_delayed hloose.status)).trans Attends.pendingCallEnqueue)

theorem threadCallFuncDelayed_attends (h : Linked s transit) {func spec : ℕ} {deadline : Tvalspec}
    (hs' : s.threadCallFuncDelayed func spec deadline = some s') : Attends s s' none := by
  obtain ⟨⟨c, s₁⟩, halloc, hs'⟩ := bind_eq_some_iff.mp hs'
  cases hs'
  obtain ⟨hlinked, hloose, -⟩ := h.internalCallAllocate halloc
  exact (Attends.internalCallAllocate halloc).trans
    ((Attends.setCall (hlinked.not_delayed hloose.status)).trans Attends.enqueueAndSetTimer)

theorem threadCallEnterSpec_attends (h : Linked s transit) (spec : ℕ) :
    Attends s (s.threadCallEnterSpec c spec).1 (s.threadCallEnterSpec c spec).2 := by
  unfold Callouts.threadCallEnterSpec
  split_ifs with hidle
  · exact (Attends.setCall (h.not_delayed hidle)).trans Attends.pendingCallEnqueue
  · exact .refl s

theorem threadCallEnterSpecDelayed_attends (h : Linked s transit) (spec : ℕ) (deadline : Tvalspec) :
    Attends s (s.threadCallEnterSpecDelayed c spec deadline) none := by
  unfold Callouts.threadCallEnterSpecDelayed
  simp only
  split_ifs with hidle
  · exact (Attends.setCall (h.not_delayed hidle)).trans Attends.enqueueAndSetTimer
  · exact .refl s

theorem deliver_attends (l : List ℕ) :
    Attends s (s.deliver l).1 ((s.deliver l).2.bind Handler.wake) := by
  cases l with
  | nil => exact .refl s
  | cons c rest => exact Attends.pendingCallEnqueue

theorem delayedCallInterrupt_attends (timestamp : Tvalspec) :
    Attends s (s.delayedCallInterrupt timestamp).1
      ((s.delayedCallInterrupt timestamp).2.bind Handler.wake) := by
  have hexpire : Attends s (Callouts.expire timestamp s.delayedCallQueue { s with timer := none }).1
      none := by
    obtain ⟨hpending, hactive, hthread⟩ :=
      expire_nums timestamp s.delayedCallQueue { s with timer := none }
    exact ⟨fun ht => expire_timed _ _ rfl ht.sorted, fun ha => ha.fewer hpending.le hactive hthread⟩
  exact hexpire.trans (deliver_attends _)

end segments


section system
open CalloutSystem
variable {s s' : CalloutSystem} {e : CalloutEvent} {wakes : List Wake} {w : Wake}

theorem Awake.issue (h : Awake s.callouts (w :: wakes) s.threads s.activate) :
    Awake (s.issue w).1.callouts ((s.issue w).2.toList ++ wakes) (s.issue w).1.threads
      (s.issue w).1.activate := by
  cases w with
  | callThread activate =>
    have hmore : s.callouts.callThreadNum < s.callouts.activeCallNum + s.callouts.pendingCallNum →
        s.activate ≠ .waiting ∨ ∃ w ∈ (if activate then some Wake.activateThread else none).toList ++
          wakes, w.activates = true := by
      intro hless
      rcases h.more hless with hne | ⟨w, hw, hactivates⟩
      · exact .inl hne
      · right
        rcases mem_cons.mp hw with rfl | hw
        · exact ⟨.activateThread, by simp [show activate = true from hactivates], rfl⟩
        · exact ⟨w, mem_append_right _ hw, hactivates⟩
    have hcount : ((if activate then some Wake.activateThread else none).toList ++
        wakes).countP Wake.wakesCallThread = wakes.countP Wake.wakesCallThread := by
      cases activate <;> simp [Wake.wakesCallThread]
    have hwoken := h.woken
    have hwake : Wake.wakesCallThread (.callThread activate) = true := rfl
    rw [countP_cons_of_pos hwake] at hwoken
    simp only [issue, wakeCallThread]
    generalize (if activate then some Wake.activateThread else none).toList ++ wakes = rest at *
    split_ifs with hwaiting
    · have hperm := perm_cons_erase hwaiting
      have hlength := hperm.length_eq
      have hcountP := hperm.countP_eq CalloutThread.active
      have hrunnable := hperm.count_eq .runnable
      rw [count_cons_of_ne (by simp)] at hrunnable
      refine ⟨?_, ?_, hmore, ?_⟩
      · rw [h.threadNum, hlength]
        rfl
      · rw [h.activeNum, hcountP]
        rfl
      · intro _
        have hwoken' := hwoken hwaiting
        rw [hcount, count_cons_self]
        simp only
        omega
    · exact ⟨h.threadNum, h.activeNum, hmore, fun hmem => absurd hmem hwaiting⟩
  | activateThread =>
    have hwoken := h.woken
    rw [countP_cons_of_neg (by simp [Wake.wakesCallThread])] at hwoken
    simp only [issue, wakeActivateThread]
    split_ifs with hwaiting
    · refine ⟨?_, h.activeNum, fun _ => .inl (by simp), hwoken⟩
      simpa [hwaiting] using h.threadNum
    · exact ⟨h.threadNum, h.activeNum, fun _ => .inl hwaiting, hwoken⟩

/-! ## The system -/

/-- The wake-ups that are to be issued, those of interrupt handlers too. -/
def CalloutSystem.allWakes (s : CalloutSystem) : List Wake :=
  s.wakes ++ s.handlers.filterMap Handler.wake

structure CalloutSystem.Attended (s : CalloutSystem) : Prop where
  timed : Timed s.callouts
  awake : Awake s.callouts s.allWakes s.threads s.activate

theorem filterMap_wake_cons (hd : Handler) (l : List Handler) :
    (hd :: l).filterMap Handler.wake = hd.wake.toList ++ l.filterMap Handler.wake := by
  cases hwake : hd.wake <;> simp [hwake]

theorem issue_wakes (w : Wake) : (s.issue w).1.wakes = s.wakes := by
  cases w with
  | callThread =>
    simp only [issue, wakeCallThread]
    split_ifs <;> rfl
  | activateThread =>
    simp only [issue, wakeActivateThread]
    split_ifs <;> rfl

theorem becomes_attended (h : s.Attended) {r : Callouts × Option Wake}
    (hr : Attends s.callouts r.1 r.2) : (s.becomes r).Attended := by
  refine ⟨hr.timed h.timed, ?_⟩
  have hawake := hr.awake h.awake
  rwa [allWakes, ← append_assoc] at hawake

theorem withHandler_attended {handlers : List Handler} (h : s.Attended)
    (hhandlers : (s.handlers.filterMap Handler.wake).Perm (handlers.filterMap Handler.wake))
    {r : Callouts × Option Handler} (hr : Attends s.callouts r.1 (r.2.bind Handler.wake)) :
    ({ s with handlers := handlers }.withHandler r).Attended := by
  refine ⟨hr.timed h.timed, (hr.awake h.awake).perm ?_ (.refl _)⟩
  have hwakes : (r.2.toList ++ handlers).filterMap Handler.wake =
      (r.2.bind Handler.wake).toList ++ handlers.filterMap Handler.wake := by
    cases r.2 with
    | none => rfl
    | some hd => exact filterMap_wake_cons hd handlers
  simp only [allWakes, withHandler]
  rw [hwakes, ← append_assoc, ← append_assoc]
  exact perm_append_comm.append hhandlers

theorem withThread_attended {threads : List CalloutThread} {callouts : Callouts}
    {r : Callouts × Option CalloutThread} (htimed : Timed callouts)
    (hawake : Awake callouts s.allWakes (.runnable :: threads) s.activate)
    (hr : callouts.callThreadContinue = some r) :
    ({ s with threads := threads }.withThread r).Attended :=
  ⟨htimed.callThreadContinue hr, hawake.callThreadContinue hr⟩

theorem step_attended (h : s.Ok) (hattended : s.Attended)
    (hstep : s.step e = some s') : s'.Attended := by
  cases e with
  | func func spec uniqueCall =>
    obtain ⟨r, hr, rfl⟩ := map_eq_some_iff.mp hstep
    exact becomes_attended hattended (threadCallFunc_attends h.linked hr)
  | funcDelayed func spec deadline =>
    obtain ⟨r, hr, rfl⟩ := map_eq_some_iff.mp hstep
    exact becomes_attended hattended (threadCallFuncDelayed_attends h.linked hr)
  | funcCancel func spec cancelAll =>
    cases hstep
    exact becomes_attended hattended Eased.threadCallFuncCancel.attends
  | allocate c func spec =>
    obtain ⟨hfree, hstep⟩ := ite_none_left_eq_some.mp hstep
    cases hstep
    obtain ⟨hinternal, halloc⟩ := not_or.mp hfree
    have hnot : c ∉ s.callouts.delayedCallQueue := by
      intro hmem
      refine halloc (h.allocated c (by simpa using hinternal) (.inl ?_))
      rw [(h.linked.delayed c).mp hmem]
      simp
    have hattends := Attends.setCall (r := ⟨func, 0, spec, tvalspecZero, .idle⟩) hnot
    exact ⟨hattends.timed hattended.timed, hattends.awake hattended.awake⟩
  | free c =>
    obtain ⟨-, hstep⟩ := ite_none_right_eq_some.mp hstep
    cases hstep
    exact { hattended with }
  | enter c =>
    obtain ⟨-, hstep⟩ := ite_none_right_eq_some.mp hstep
    cases hstep
    exact becomes_attended hattended (threadCallEnterSpec_attends h.linked _)
  | enterSpec c spec =>
    obtain ⟨-, hstep⟩ := ite_none_right_eq_some.mp hstep
    cases hstep
    exact becomes_attended hattended (threadCallEnterSpec_attends h.linked spec)
  | enterDelayed c deadline =>
    obtain ⟨-, hstep⟩ := ite_none_right_eq_some.mp hstep
    cases hstep
    exact becomes_attended hattended (threadCallEnterSpecDelayed_attends h.linked _ deadline)
  | enterSpecDelayed c spec deadline =>
    obtain ⟨-, hstep⟩ := ite_none_right_eq_some.mp hstep
    cases hstep
    exact becomes_attended hattended (threadCallEnterSpecDelayed_attends h.linked spec deadline)
  | cancel c =>
    obtain ⟨-, hstep⟩ := ite_none_right_eq_some.mp hstep
    cases hstep
    exact becomes_attended hattended Eased.threadCallCancel.attends
  | interrupt timestamp =>
    simp only [step] at hstep
    split at hstep
    · cases hstep
    split_ifs at hstep
    cases hstep
    exact withHandler_attended hattended (.refl _) (delayedCallInterrupt_attends timestamp)
  | handlerWake hd w =>
    obtain ⟨⟨hmem, hwake⟩, hstep⟩ := ite_none_right_eq_some.mp hstep
    cases hstep
    obtain ⟨hcallouts, -, -⟩ := issue_same (s := s) w
    have hwakes : s.allWakes.Perm (w :: (s.wakes ++ (s.handlers.erase hd).filterMap Handler.wake)) := by
      have hperm := (perm_cons_erase hmem).filterMap Handler.wake
      rw [filterMap_wake_cons, hwake] at hperm
      exact (hperm.append_left s.wakes).trans perm_middle
    refine ⟨by simpa only [hcallouts] using hattended.timed, ?_⟩
    refine (Awake.issue (hattended.awake.perm hwakes (.refl _))).perm ?_ (.refl _)
    simp only [allWakes, filterMap_wake_cons, issue_wakes, ← append_assoc]
    exact perm_append_comm.append_right _
  | handlerGoesOn l =>
    obtain ⟨hmem, hstep⟩ := ite_none_right_eq_some.mp hstep
    cases hstep
    have hperm := (perm_cons_erase hmem).filterMap Handler.wake
    rw [filterMap_wake_cons] at hperm
    exact withHandler_attended hattended hperm (deliver_attends l)
  | wake w =>
    obtain ⟨hmem, hstep⟩ := ite_none_right_eq_some.mp hstep
    cases hstep
    obtain ⟨hcallouts, -, hhandlers⟩ := issue_same (s := s) w
    have hwakes : s.allWakes.Perm (w :: (s.wakes.erase w ++ s.handlers.filterMap Handler.wake)) :=
      (perm_cons_erase hmem).append_right _
    refine ⟨by simpa only [hcallouts] using hattended.timed, ?_⟩
    have hissued := Awake.issue (hattended.awake.perm hwakes (.refl _))
    rwa [← append_assoc, ← hhandlers] at hissued
  | threadGoesOn =>
    obtain ⟨hmem, hstep⟩ := ite_none_right_eq_some.mp hstep
    obtain ⟨r, hr, rfl⟩ := map_eq_some_iff.mp hstep
    exact withThread_attended hattended.timed
      (hattended.awake.perm (.refl _) (perm_cons_erase hmem)) hr
  | start c func spec =>
    obtain ⟨hmem, hstep⟩ := ite_none_right_eq_some.mp hstep
    cases hstep
    exact ⟨hattended.timed, (hattended.awake.perm (.refl _) (perm_cons_erase hmem)).started⟩
  | finish c func spec =>
    obtain ⟨hmem, hstep⟩ := ite_none_right_eq_some.mp hstep
    obtain ⟨r, hr, rfl⟩ := map_eq_some_iff.mp hstep
    have htimed : Timed { s.callouts with activeCallNum := s.callouts.activeCallNum - 1 } :=
      { hattended.timed with }
    exact withThread_attended htimed
      (hattended.awake.perm (.refl _) (perm_cons_erase hmem)).finished hr
  | activate =>
    obtain ⟨hrunnable, hstep⟩ := ite_none_right_eq_some.mp hstep
    cases hstep
    obtain ⟨htimed, hthreadNum, hactiveNum, hmore, hwoken⟩ := hattended
    unfold callActivateThread
    simp only
    split_ifs with hless
    · refine ⟨{ htimed with }, ?_, hactiveNum, fun _ => .inl (by simp), hwoken⟩
      simpa [hrunnable] using hthreadNum
    · refine ⟨{ htimed with }, ?_, hactiveNum, fun hless' => absurd hless' hless, hwoken⟩
      simpa [hrunnable] using hthreadNum
  | create =>
    obtain ⟨hcreating, hstep⟩ := ite_none_right_eq_some.mp hstep
    cases hstep
    obtain ⟨htimed, hthreadNum, hactiveNum, hmore, hwoken⟩ := hattended
    refine ⟨htimed, ?_, ?_, fun _ => .inl (by simp), ?_⟩
    · simpa [hcreating] using hthreadNum
    · simpa [CalloutThread.active] using hactiveNum
    · intro hwaiting
      have hwoken' := hwoken (by simpa using hwaiting)
      change _ ≤ (_ : ℤ) + s.allWakes.countP Wake.wakesCallThread
      rw [count_cons_self]
      simp only
      omega

theorem CalloutSystem.init_attended : init.Attended := by
  refine ⟨⟨List.Pairwise.nil, ?_⟩, rfl, rfl, fun _ => .inl ?_, fun _ => ?_⟩
  · simp [init]
  · simp [init]
  · simp [init]

theorem Awake.served {s : Callouts} {threads : List CalloutThread} {activate : ActivateThread}
    (h : Awake s [] threads activate) (hpending : 0 < s.pendingCallNum) :
    .runnable ∈ threads ∨ activate ≠ .waiting := by
  by_contra hnone
  obtain ⟨hrunnable, hwaiting⟩ := not_or.mp hnone
  rw [not_not] at hwaiting
  have hcount : threads.count .runnable = 0 := count_eq_zero_of_not_mem hrunnable
  -- Some thread is idle, or the activate thread would not wait; and it does not wait.
  have hidle : ¬ s.callThreadNum < s.activeCallNum + s.pendingCallNum := by
    intro hless
    rcases h.more hless with hne | ⟨w, hw, -⟩
    · exact hne hwaiting
    · exact not_mem_nil hw
  have hnowait : .waiting ∉ threads := by
    intro hmem
    have hwoken := h.woken hmem
    rw [hcount] at hwoken
    simp at hwoken
    omega
  have hactive : threads.countP CalloutThread.active = threads.length := by
    rw [countP_eq_length]
    intro t ht
    cases t with
    | waiting => exact absurd ht hnowait
    | runnable => exact absurd ht hrunnable
    | taken => rfl
    | running => rfl
  have hthreadNum := h.threadNum
  have hactiveNum := h.activeNum
  rw [hwaiting, if_neg (by simp)] at hthreadNum
  omega

/-- Every run in which nobody enters or frees an entry from outside between the moment when an
interrupt handler takes it from the delayed queue and when it becomes pending: the timer is armed
for the first delayed call or earlier; when no wake-up is outstanding, a pending call finds a
thread to take it or the activate thread; and the number of threads is right, with the thread that
is being created. -/
theorem calls_not_stranded {es : List CalloutEvent} (hrun :
    RunUnder CalloutSystem.Undisturbed (fun s e s' => s.step e = some s') init es s) :
    (∀ c, s.callouts.delayedCallQueue.head? = some c →
      ∃ d, s.callouts.timer = some d ∧ cmpTvalspec d (s.callouts.call c).deadline ≤ 0) ∧
    (s.allWakes = [] → s.callouts.pendingCallQueue ≠ [] →
      .runnable ∈ s.threads ∨ s.activate ≠ .waiting) ∧
    s.callouts.callThreadNum = s.threads.length + (if s.activate = .creating then 1 else 0) := by
  have hstep : ∀ (s : CalloutSystem) e s', s.Ok ∧ s.Attended → s.Undisturbed e →
      s.step e = some s' → s'.Ok ∧ s'.Attended :=
    fun _ _ _ h hundisturbed he => ⟨(step_ok h.1 hundisturbed he).1, step_attended h.1 h.2 he⟩
  obtain ⟨hok, hattended⟩ := RunUnder.invariant (I := fun s => s.Ok ∧ s.Attended) hstep hrun
    ⟨init_ok, init_attended⟩
  refine ⟨?_, ?_, hattended.awake.threadNum⟩
  · exact fun c hc => hattended.timed.armed c (mem_of_head? hc)
  · intro hwakes hpending
    have hawake := hattended.awake
    rw [hwakes] at hawake
    apply hawake.served
    rw [hok.linked.num]
    exact_mod_cast length_pos_iff.mpr hpending

end system

/-! ## Two runs -/

/-- While a handler wakes a thread for the first of two calls, the second one is entered for a
later time. It is then on the delayed queue twice, and leaves it once when it is cancelled. From the
second linking on, the queues of the source, which have one pair of links for a call, are no longer
these lists. -/
def enteredTwice : List CalloutEvent :=
  [.allocate 1000 1 1, .allocate 1001 2 2, .allocate 1002 3 3, .allocate 1003 4 4,
    .enterDelayed 1000 ⟨1, 0⟩, .enterDelayed 1001 ⟨1, 0⟩, .interrupt ⟨1, 0⟩,
    .enterDelayed 1002 ⟨5, 0⟩, .enterDelayed 1001 ⟨10, 0⟩,
    .handlerWake ⟨[1001], some (.callThread true)⟩ (.callThread true),
    .handlerWake ⟨[1001], some .activateThread⟩ .activateThread, .handlerGoesOn [1001],
    .cancel 1001, .enterDelayed 1001 ⟨3, 0⟩, .cancel 1001, .enterDelayed 1003 ⟨4, 0⟩,
    .cancel 1003, .cancel 1002,
    .handlerWake ⟨[], some (.callThread true)⟩ (.callThread true),
    .handlerWake ⟨[], some .activateThread⟩ .activateThread]

/-- The timer expires after the deadline of the first call. -/
theorem call_stranded : ∃ s, Run (fun s e s' => step s e = some s')
    init enteredTwice s ∧ s.allWakes = [] ∧
      s.callouts.delayedCallQueue.head? = some 1001 ∧
      ∀ d, s.callouts.timer = some d → 0 < cmpTvalspec d (s.callouts.call 1001).deadline := by
  have hrun : ∃ s, enteredTwice.foldlM step init = some s ∧
      s.allWakes = [] ∧ s.callouts.delayedCallQueue.head? = some 1001 ∧
      s.callouts.timer = some ⟨4, 0⟩ ∧ (s.callouts.call 1001).deadline = ⟨3, 0⟩ :=
    ⟨_, rfl, rfl, rfl, rfl, rfl⟩
  obtain ⟨s, hs, hwakes, hhead, htimer, hdeadline⟩ := hrun
  refine ⟨s, Run.of_foldlM hs, hwakes, hhead, ?_⟩
  intro d hd
  rw [htimer] at hd
  cases hd
  rw [hdeadline]
  decide

/-- One call becomes pending, and another one is delayed. -/
def enteredBoth : List CalloutEvent :=
  [.allocate 1000 1 1, .enterDelayed 1000 ⟨1, 0⟩, .allocate 1001 2 2, .enterDelayed 1001 ⟨5, 0⟩,
    .interrupt ⟨1, 0⟩, .handlerWake ⟨[], some (.callThread true)⟩ (.callThread true),
    .handlerWake ⟨[], some .activateThread⟩ .activateThread]

theorem calls_not_stranded_enteredBoth : ∃ s : CalloutSystem,
    s.callouts.pendingCallQueue = [1000] ∧
    (∃ d, s.callouts.timer = some d ∧ cmpTvalspec d (s.callouts.call 1001).deadline ≤ 0) ∧
    (.runnable ∈ s.threads ∨ s.activate ≠ .waiting) ∧
    s.callouts.callThreadNum = s.threads.length + (if s.activate = .creating then 1 else 0) := by
  have hrun : ∃ s, RunUnder CalloutSystem.Undisturbed (fun s e s' => step s e = some s')
      init enteredBoth s ∧ s.callouts.pendingCallQueue = [1000] ∧
      s.callouts.delayedCallQueue.head? = some 1001 ∧ s.allWakes = [] := by
    have hnone : ∀ {s : CalloutSystem} {e : CalloutEvent}, s.transits = [] → s.Undisturbed e := by
      intro s e htransits c hc
      rw [htransits] at hc
      exact absurd hc not_mem_nil
    exact ⟨_, .snoc (.snoc (.snoc (.snoc (.snoc (.snoc (.snoc (.nil _) ⟨hnone rfl, rfl⟩)
      ⟨hnone rfl, rfl⟩) ⟨hnone rfl, rfl⟩) ⟨hnone rfl, rfl⟩) ⟨hnone rfl, rfl⟩) ⟨hnone rfl, rfl⟩)
      ⟨hnone rfl, rfl⟩, rfl, rfl, rfl⟩
  obtain ⟨s, hs, hpending, hdelayed, hwakes⟩ := hrun
  obtain ⟨htimer, hserved, hnum⟩ := calls_not_stranded hs
  exact ⟨s, hpending, htimer 1001 hdelayed, hserved hwakes (by simp [hpending]), hnum⟩

end Darwin.Kern
