import Darwin.Kern.ThreadCall
import Darwin.Lib.Run
import Mathlib.Data.List.Nodup
import Mathlib.Data.List.TakeWhile

/-! # The queues of callouts

An entry is linked on one queue at most as long as an interrupt finds no more than one expired
call from outside, and that one first.
-/
namespace Darwin.Kern
open Darwin.Lib List Function Option CalloutSystem

/-! ## Entries on their queues -/

/-- The entries are linked as their status says; `transit` are the ones that handlers have on
their own queues. -/
structure Linked (s : Callouts) (transit : List ℕ) : Prop where
  pendingNodup : s.pendingCallQueue.Nodup
  delayedNodup : s.delayedCallQueue.Nodup
  idleNodup : (s.internalCallFreeQueue ++ transit).Nodup
  pending : ∀ c, c ∈ s.pendingCallQueue ↔ (s.call c).status = .pending
  delayed : ∀ c, c ∈ s.delayedCallQueue ↔ (s.call c).status = .delayed
  idle : ∀ c ∈ s.internalCallFreeQueue ++ transit, (s.call c).status = .idle
  internal : ∀ c ∈ s.internalCallFreeQueue, internalCall c = true
  num : s.pendingCallNum = s.pendingCallQueue.length

/-- The entry is on no queue. -/
structure Loose (s : Callouts) (transit : List ℕ) (c : ℕ) : Prop where
  status : (s.call c).status = .idle
  notIdle : c ∉ s.internalCallFreeQueue ++ transit

section callouts
open Callouts
variable {s : Callouts} {transit : List ℕ} {c c' : ℕ} {r : ThreadCall} {status : CallStatus}

/-! ### What the operations on one queue change -/

@[simp] theorem setCall_call : (s.setCall c r).call = update s.call c r := rfl

@[simp] theorem setStatus_status : ((s.setStatus c status).call c').status =
    if c' = c then status else (s.call c').status := by
  by_cases h : c' = c
  · subst h
    simp [setStatus]
  · simp [setStatus, h]

@[simp] theorem pendingCallEnqueue_pending : (s.pendingCallEnqueue c).pendingCallQueue =
    s.pendingCallQueue ++ [c] := rfl
@[simp] theorem pendingCallEnqueue_delayed : (s.pendingCallEnqueue c).delayedCallQueue =
    s.delayedCallQueue := rfl
@[simp] theorem pendingCallEnqueue_free : (s.pendingCallEnqueue c).internalCallFreeQueue =
    s.internalCallFreeQueue := rfl
@[simp] theorem pendingCallEnqueue_num : (s.pendingCallEnqueue c).pendingCallNum =
    s.pendingCallNum + 1 := rfl
@[simp] theorem pendingCallEnqueue_status : ((s.pendingCallEnqueue c).call c').status =
    if c' = c then .pending else (s.call c').status := setStatus_status

@[simp] theorem pendingCallDequeue_pending : (s.pendingCallDequeue c).pendingCallQueue =
    s.pendingCallQueue.erase c := rfl
@[simp] theorem pendingCallDequeue_delayed : (s.pendingCallDequeue c).delayedCallQueue =
    s.delayedCallQueue := rfl
@[simp] theorem pendingCallDequeue_free : (s.pendingCallDequeue c).internalCallFreeQueue =
    s.internalCallFreeQueue := rfl
@[simp] theorem pendingCallDequeue_num : (s.pendingCallDequeue c).pendingCallNum =
    s.pendingCallNum - 1 := rfl
@[simp] theorem pendingCallDequeue_status : ((s.pendingCallDequeue c).call c').status =
    if c' = c then .idle else (s.call c').status := setStatus_status

@[simp] theorem delayedCallEnqueue_pending : (s.delayedCallEnqueue c).pendingCallQueue =
    s.pendingCallQueue := rfl
@[simp] theorem delayedCallEnqueue_delayed : (s.delayedCallEnqueue c).delayedCallQueue =
    delayedInsert s.call c s.delayedCallQueue := rfl
@[simp] theorem delayedCallEnqueue_free : (s.delayedCallEnqueue c).internalCallFreeQueue =
    s.internalCallFreeQueue := rfl
@[simp] theorem delayedCallEnqueue_num : (s.delayedCallEnqueue c).pendingCallNum =
    s.pendingCallNum := rfl
@[simp] theorem delayedCallEnqueue_status : ((s.delayedCallEnqueue c).call c').status =
    if c' = c then .delayed else (s.call c').status := setStatus_status

@[simp] theorem delayedCallDequeue_pending : (s.delayedCallDequeue c).pendingCallQueue =
    s.pendingCallQueue := rfl
@[simp] theorem delayedCallDequeue_delayed : (s.delayedCallDequeue c).delayedCallQueue =
    s.delayedCallQueue.erase c := rfl
@[simp] theorem delayedCallDequeue_free : (s.delayedCallDequeue c).internalCallFreeQueue =
    s.internalCallFreeQueue := rfl
@[simp] theorem delayedCallDequeue_num : (s.delayedCallDequeue c).pendingCallNum =
    s.pendingCallNum := rfl
@[simp] theorem delayedCallDequeue_status : ((s.delayedCallDequeue c).call c').status =
    if c' = c then .idle else (s.call c').status := setStatus_status

theorem delayedInsert_perm (call : ℕ → ThreadCall) (c : ℕ) (l : List ℕ) :
    (delayedInsert call c l).Perm (c :: l) := by
  induction l with
  | nil => exact .refl _
  | cons current rest ih =>
    simp only [delayedInsert]
    split_ifs
    · exact .refl _
    · exact .swap ..
    · exact (ih.cons current).trans (.swap ..)

/-! ### They keep the entries linked -/

theorem Linked.perm {transit' : List ℕ} (h : Linked s transit) (hperm : transit.Perm transit') :
    Linked s transit' := by
  have happ := hperm.append_left s.internalCallFreeQueue
  exact { h with
    idleNodup := happ.nodup_iff.mp h.idleNodup
    idle := fun c hc => h.idle c (happ.mem_iff.mpr hc) }

theorem setCall_status (hstatus : r.status = (s.call c).status) :
    ((s.setCall c r).call c').status = (s.call c').status := by
  by_cases hc : c' = c
  · subst hc
    simpa using hstatus
  · simp [hc]

theorem Linked.setCall (h : Linked s transit) (hstatus : r.status = (s.call c).status) :
    Linked (s.setCall c r) transit :=
  { h with
    pending := fun c' => by rw [setCall_status hstatus]; exact h.pending c'
    delayed := fun c' => by rw [setCall_status hstatus]; exact h.delayed c'
    idle := fun c' hc => by rw [setCall_status hstatus]; exact h.idle c' hc }

theorem Loose.setCall (h : Loose s transit c') (hstatus : r.status = (s.call c).status) :
    Loose (s.setCall c r) transit c' :=
  ⟨by rw [setCall_status hstatus]; exact h.status, h.notIdle⟩

theorem Loose.ne (h : Loose s transit c) (hc' : c' ∈ s.internalCallFreeQueue ++ transit) : c' ≠ c := by
  rintro rfl
  exact h.notIdle hc'

theorem Linked.pendingCallEnqueue (h : Linked s transit) (hc : Loose s transit c) :
    Linked (s.pendingCallEnqueue c) transit := by
  have hpending : c ∉ s.pendingCallQueue := by
    rw [h.pending, hc.status]
    simp
  have hdelayed : c ∉ s.delayedCallQueue := by
    rw [h.delayed, hc.status]
    simp
  refine ⟨?_, h.delayedNodup, h.idleNodup, ?_, ?_, ?_, h.internal, by simp [h.num]⟩
  · exact nodup_append_comm.mp (nodup_cons.mpr ⟨hpending, h.pendingNodup⟩)
  · intro c'
    by_cases heq : c' = c
    · simp [heq]
    · simp [heq, h.pending]
  · intro c'
    by_cases heq : c' = c
    · simp [heq, hdelayed]
    · simp [heq, h.delayed]
  · intro c' hmem
    simpa [hc.ne hmem] using h.idle c' hmem

theorem Linked.delayedCallEnqueue (h : Linked s transit) (hc : Loose s transit c) :
    Linked (s.delayedCallEnqueue c) transit := by
  have hpending : c ∉ s.pendingCallQueue := by
    rw [h.pending, hc.status]
    simp
  have hdelayed : c ∉ s.delayedCallQueue := by
    rw [h.delayed, hc.status]
    simp
  have hperm := delayedInsert_perm s.call c s.delayedCallQueue
  refine ⟨h.pendingNodup, ?_, h.idleNodup, ?_, ?_, ?_, h.internal, h.num⟩
  · exact hperm.nodup_iff.mpr (nodup_cons.mpr ⟨hdelayed, h.delayedNodup⟩)
  · intro c'
    by_cases heq : c' = c
    · simp [heq, hpending]
    · simp [heq, h.pending]
  · intro c'
    rw [delayedCallEnqueue_delayed, hperm.mem_iff]
    by_cases heq : c' = c
    · simp [heq]
    · simp [heq, h.delayed]
  · intro c' hmem
    simpa [hc.ne hmem] using h.idle c' hmem

theorem Linked.not_idle (h : Linked s transit) (hc : (s.call c).status ≠ .idle) :
    c ∉ s.internalCallFreeQueue ++ transit := fun hmem => hc (h.idle c hmem)

theorem Linked.pendingCallDequeue (h : Linked s transit) (hc : c ∈ s.pendingCallQueue) :
    Linked (s.pendingCallDequeue c) transit ∧ Loose (s.pendingCallDequeue c) transit c := by
  have hstatus := (h.pending c).mp hc
  have hnot : c ∉ s.internalCallFreeQueue ++ transit := h.not_idle (by simp [hstatus])
  refine ⟨⟨h.pendingNodup.erase c, h.delayedNodup, h.idleNodup, ?_, ?_, ?_, h.internal, ?_⟩,
    by simp, hnot⟩
  · intro c'
    rw [pendingCallDequeue_pending, h.pendingNodup.mem_erase_iff, h.pending]
    by_cases heq : c' = c <;> simp [heq]
  · intro c'
    by_cases heq : c' = c
    · simp [heq, h.delayed, hstatus]
    · simp [heq, h.delayed]
  · intro c' hmem
    have heq : c' ≠ c := by
      rintro rfl
      exact hnot hmem
    simpa [heq] using h.idle c' hmem
  · have hpos := length_pos_of_mem hc
    rw [pendingCallDequeue_num, pendingCallDequeue_pending, length_erase_of_mem hc, h.num]
    omega

theorem Linked.delayedCallDequeue (h : Linked s transit) (hc : c ∈ s.delayedCallQueue) :
    Linked (s.delayedCallDequeue c) transit ∧ Loose (s.delayedCallDequeue c) transit c := by
  have hstatus := (h.delayed c).mp hc
  have hnot : c ∉ s.internalCallFreeQueue ++ transit := h.not_idle (by simp [hstatus])
  refine ⟨⟨h.pendingNodup, h.delayedNodup.erase c, h.idleNodup, ?_, ?_, ?_, h.internal, h.num⟩,
    by simp, hnot⟩
  · intro c'
    by_cases heq : c' = c
    · simp [heq, h.pending, hstatus]
    · simp [heq, h.pending]
  · intro c'
    rw [delayedCallDequeue_delayed, h.delayedNodup.mem_erase_iff, h.delayed]
    by_cases heq : c' = c <;> simp [heq]
  · intro c' hmem
    have heq : c' ≠ c := by
      rintro rfl
      exact hnot hmem
    simpa [heq] using h.idle c' hmem

theorem Linked.threadCallRelease (h : Linked s transit) (hc : Loose s transit c) :
    Linked (s.threadCallRelease c) transit := by
  unfold Callouts.threadCallRelease
  split_ifs with hinternal
  · have hperm : (s.internalCallFreeQueue ++ [c] ++ transit).Perm
        (c :: (s.internalCallFreeQueue ++ transit)) := by
      rw [append_assoc]
      exact perm_middle
    refine { h with idleNodup := ?_, idle := ?_, internal := ?_ }
    · exact hperm.nodup_iff.mpr (nodup_cons.mpr ⟨hc.notIdle, h.idleNodup⟩)
    · intro c' hmem
      rcases mem_cons.mp (hperm.mem_iff.mp hmem) with rfl | hmem
      · exact hc.status
      · exact h.idle c' hmem
    · intro c' hmem
      rcases mem_append.mp hmem with hmem | hmem
      · exact h.internal c' hmem
      · rwa [mem_singleton.mp hmem]
  · exact h

theorem Linked.internalCallAllocate (h : Linked s transit) {s' : Callouts}
    (halloc : s.internalCallAllocate = some (c, s')) :
    Linked s' transit ∧ Loose s' transit c ∧ internalCall c = true := by
  unfold Callouts.internalCallAllocate at halloc
  cases hfree : s.internalCallFreeQueue with
  | nil =>
    rw [hfree] at halloc
    cases halloc
  | cons d rest =>
    rw [hfree] at halloc
    cases halloc
    have hnodup := h.idleNodup
    have hidle := h.idle
    have hinternal := h.internal
    rw [hfree] at hnodup hidle hinternal
    obtain ⟨hnot, hrest⟩ := nodup_cons.mp hnodup
    refine ⟨{ h with idleNodup := hrest, idle := ?_, internal := ?_ }, ⟨?_, hnot⟩, ?_⟩
    · exact fun c' hmem => hidle c' (mem_cons_of_mem _ hmem)
    · exact fun c' hmem => hinternal c' (mem_cons_of_mem _ hmem)
    · exact hidle c mem_cons_self
    · exact hinternal c mem_cons_self

theorem Linked.cons (h : Linked s transit) (hc : Loose s transit c) : Linked s (c :: transit) := by
  have hperm : (s.internalCallFreeQueue ++ c :: transit).Perm
      (c :: (s.internalCallFreeQueue ++ transit)) := perm_middle
  refine { h with idleNodup := ?_, idle := ?_ }
  · exact hperm.nodup_iff.mpr (nodup_cons.mpr ⟨hc.notIdle, h.idleNodup⟩)
  · intro c' hmem
    rcases mem_cons.mp (hperm.mem_iff.mp hmem) with rfl | hmem
    · exact hc.status
    · exact h.idle c' hmem

theorem Linked.uncons (h : Linked s (c :: transit)) : Linked s transit ∧ Loose s transit c := by
  have hperm : (s.internalCallFreeQueue ++ c :: transit).Perm
      (c :: (s.internalCallFreeQueue ++ transit)) := perm_middle
  obtain ⟨hnot, hnodup⟩ := nodup_cons.mp (hperm.nodup_iff.mp h.idleNodup)
  refine ⟨{ h with idleNodup := hnodup, idle := ?_ }, ?_, hnot⟩
  · exact fun c' hmem => h.idle c' (hperm.mem_iff.mpr (mem_cons_of_mem _ hmem))
  · exact h.idle c (hperm.mem_iff.mpr mem_cons_self)

/-! ### Segments with the lock -/

/-- No entry from outside leaves the idle state. -/
def Calm (s s' : Callouts) : Prop :=
  ∀ c, internalCall c = false → (s.call c).status = .idle → (s'.call c).status = .idle

theorem Calm.refl (s : Callouts) : Calm s s := fun _ _ h => h

theorem Calm.trans {s₁ s₂ s₃ : Callouts} (h : Calm s₁ s₂) (h' : Calm s₂ s₃) : Calm s₁ s₃ :=
  fun c hc hidle => h' c hc (h c hc hidle)

theorem Calm.of_internal {s' : Callouts} (hc : internalCall c = true)
    (h : ∀ c', c' ≠ c → (s'.call c').status = (s.call c').status) : Calm s s' := by
  intro c' hc' hidle
  rw [h c' (by rintro rfl; rw [hc] at hc'; cases hc'), hidle]

theorem Calm.release : Calm s (s.threadCallRelease c) := by
  unfold Callouts.threadCallRelease
  split_ifs <;> exact Calm.refl _

theorem Calm.pendingCallDequeue : Calm s (s.pendingCallDequeue c) := by
  intro c' _ hidle
  simp [hidle]

theorem Calm.delayedCallDequeue : Calm s (s.delayedCallDequeue c) := by
  intro c' _ hidle
  simp [hidle]

theorem internalCallAllocate_call {s' : Callouts} (h : s.internalCallAllocate = some (c, s')) :
    s'.call = s.call := by
  unfold Callouts.internalCallAllocate at h
  split at h
  · cases h
  · cases h
    rfl

theorem threadCallFunc_linked (h : Linked s transit) {func spec : ℕ} {uniqueCall : Bool}
    {s' : Callouts} {w : Option Wake} (hs' : s.threadCallFunc func spec uniqueCall = some (s', w)) :
    Linked s' transit ∧ Calm s s' := by
  unfold Callouts.threadCallFunc at hs'
  split_ifs at hs' with hfound
  · cases hs'
    exact ⟨h, Calm.refl s⟩
  · obtain ⟨⟨c, s₁⟩, halloc, hs'⟩ := bind_eq_some_iff.mp hs'
    cases hs'
    obtain ⟨hlinked, hloose, hinternal⟩ := h.internalCallAllocate halloc
    refine ⟨(hlinked.setCall (by rfl)).pendingCallEnqueue (hloose.setCall (by rfl)), ?_⟩
    apply Calm.of_internal hinternal
    intro c' hne
    simp [hne, internalCallAllocate_call halloc]

@[simp] theorem enqueueAndSetTimer_status : ((s.enqueueAndSetTimer c).call c').status =
    if c' = c then .delayed else (s.call c').status := by
  simp only [Callouts.enqueueAndSetTimer]
  split_ifs <;> simp_all [Callouts.setDelayedCallTimer]

theorem Linked.enqueueAndSetTimer (h : Linked s transit) (hc : Loose s transit c) :
    Linked (s.enqueueAndSetTimer c) transit := by
  have hlinked := h.delayedCallEnqueue hc
  simp only [Callouts.enqueueAndSetTimer]
  split_ifs
  · exact { hlinked with }
  · exact hlinked

theorem threadCallFuncDelayed_linked (h : Linked s transit) {func spec : ℕ} {deadline : Tvalspec}
    {s' : Callouts} (hs' : s.threadCallFuncDelayed func spec deadline = some s') :
    Linked s' transit ∧ Calm s s' := by
  obtain ⟨⟨c, s₁⟩, halloc, hs'⟩ := bind_eq_some_iff.mp hs'
  cases hs'
  obtain ⟨hlinked, hloose, hinternal⟩ := h.internalCallAllocate halloc
  refine ⟨(hlinked.setCall (by rfl)).enqueueAndSetTimer (hloose.setCall (by rfl)), ?_⟩
  apply Calm.of_internal hinternal
  intro c' hne
  simp [hne, internalCallAllocate_call halloc]

theorem removeFrom_linked {dequeue : Callouts → ℕ → Callouts} (queue : Callouts → List ℕ)
    (hdequeue : ∀ s c, Linked s transit → c ∈ queue s →
      Linked (dequeue s c) transit ∧ Loose (dequeue s c) transit c)
    (hqueue : ∀ s c, queue ((dequeue s c).threadCallRelease c) = (queue s).erase c)
    (hcalm : ∀ s c, Calm s (dequeue s c)) (func spec : ℕ) (removeAll : Bool) (l : List ℕ) :
    ∀ s, Linked s transit → l.Nodup → (∀ c ∈ l, c ∈ queue s) →
      Linked (removeFrom dequeue func spec removeAll l s).1 transit ∧
        Calm s (removeFrom dequeue func spec removeAll l s).1 := by
  induction l with
  | nil => exact fun s h _ _ => ⟨h, Calm.refl s⟩
  | cons c rest ih =>
    intro s h hnodup hmem
    obtain ⟨hc, hrest⟩ := nodup_cons.mp hnodup
    simp only [removeFrom]
    split_ifs with hmatch hall
    · obtain ⟨hlinked, hloose⟩ := hdequeue s c h (hmem c mem_cons_self)
      have hreleased := hlinked.threadCallRelease hloose
      obtain ⟨hdone, hcalm'⟩ := ih _ hreleased hrest (by
        intro c' hc'
        rw [hqueue]
        have hne : c' ≠ c := by
          rintro rfl
          exact hc hc'
        exact (mem_erase_of_ne hne).mpr (hmem c' (mem_cons_of_mem _ hc')))
      exact ⟨hdone, ((hcalm s c).trans Calm.release).trans hcalm'⟩
    · obtain ⟨hlinked, hloose⟩ := hdequeue s c h (hmem c mem_cons_self)
      exact ⟨hlinked.threadCallRelease hloose, (hcalm s c).trans Calm.release⟩
    · exact ih s h hrest (fun c' hc' => hmem c' (mem_cons_of_mem _ hc'))

@[simp] theorem threadCallRelease_pending : (s.threadCallRelease c).pendingCallQueue =
    s.pendingCallQueue := by
  unfold Callouts.threadCallRelease
  split_ifs <;> rfl

@[simp] theorem threadCallRelease_delayed : (s.threadCallRelease c).delayedCallQueue =
    s.delayedCallQueue := by
  unfold Callouts.threadCallRelease
  split_ifs <;> rfl

theorem removeFromPendingQueue_linked (h : Linked s transit) (func spec : ℕ) (removeAll : Bool) :
    Linked (s.removeFromPendingQueue func spec removeAll).1 transit ∧
      Calm s (s.removeFromPendingQueue func spec removeAll).1 :=
  removeFrom_linked Callouts.pendingCallQueue (fun _ _ h hc => h.pendingCallDequeue hc)
    (by simp) (fun _ _ => Calm.pendingCallDequeue) func spec removeAll _ s h h.pendingNodup
    (fun _ hc => hc)

theorem removeFromDelayedQueue_linked (h : Linked s transit) (func spec : ℕ) (removeAll : Bool) :
    Linked (s.removeFromDelayedQueue func spec removeAll).1 transit ∧
      Calm s (s.removeFromDelayedQueue func spec removeAll).1 :=
  removeFrom_linked Callouts.delayedCallQueue (fun _ _ h hc => h.delayedCallDequeue hc)
    (by simp) (fun _ _ => Calm.delayedCallDequeue) func spec removeAll _ s h h.delayedNodup
    (fun _ hc => hc)

theorem threadCallFuncCancel_linked (h : Linked s transit) (func spec : ℕ) (cancelAll : Bool) :
    Linked (s.threadCallFuncCancel func spec cancelAll) transit ∧
      Calm s (s.threadCallFuncCancel func spec cancelAll) := by
  obtain ⟨hlinked, hcalm⟩ := removeFromPendingQueue_linked h func spec cancelAll
  simp only [Callouts.threadCallFuncCancel]
  split_ifs
  · exact ⟨hlinked, hcalm⟩
  · obtain ⟨hlinked', hcalm'⟩ := removeFromDelayedQueue_linked hlinked func spec cancelAll
    exact ⟨hlinked', hcalm.trans hcalm'⟩

theorem Linked.loose (h : Linked s transit) (hc : internalCall c = false)
    (hidle : (s.call c).status = .idle) (htransit : c ∉ transit) : Loose s transit c := by
  refine ⟨hidle, ?_⟩
  rw [mem_append]
  rintro (hmem | hmem)
  · rw [h.internal c hmem] at hc
    cases hc
  · exact htransit hmem

theorem threadCallEnterSpec_linked (h : Linked s transit) (hc : internalCall c = false)
    (htransit : c ∉ transit) (spec : ℕ) : Linked (s.threadCallEnterSpec c spec).1 transit ∧
      ∀ c', c' ≠ c → ((s.threadCallEnterSpec c spec).1.call c').status = (s.call c').status := by
  unfold Callouts.threadCallEnterSpec
  split_ifs with hidle
  · have hloose := h.loose hc hidle htransit
    refine ⟨(h.setCall (by rfl)).pendingCallEnqueue (hloose.setCall (by rfl)), ?_⟩
    intro c' hne
    simp [hne]
  · exact ⟨h, fun _ _ => rfl⟩

theorem threadCallEnterSpecDelayed_linked (h : Linked s transit) (hc : internalCall c = false)
    (htransit : c ∉ transit) (spec : ℕ) (deadline : Tvalspec) :
    Linked (s.threadCallEnterSpecDelayed c spec deadline) transit ∧ ∀ c', c' ≠ c →
      ((s.threadCallEnterSpecDelayed c spec deadline).call c').status = (s.call c').status := by
  unfold Callouts.threadCallEnterSpecDelayed
  simp only
  split_ifs with hidle
  · have hloose := h.loose hc hidle htransit
    refine ⟨(h.setCall (by rfl)).enqueueAndSetTimer (hloose.setCall (by rfl)), ?_⟩
    intro c' hne
    simp [hne]
  · exact ⟨h, fun _ _ => rfl⟩

@[simp] theorem threadCallRelease_call : (s.threadCallRelease c).call = s.call := by
  unfold Callouts.threadCallRelease
  split_ifs <;> rfl

theorem threadCallCancel_linked (h : Linked s transit) (c : ℕ) :
    Linked (s.threadCallCancel c) transit ∧ Calm s (s.threadCallCancel c) ∧
      ((s.threadCallCancel c).call c).status = .idle := by
  unfold Callouts.threadCallCancel
  cases hstatus : (s.call c).status with
  | idle => exact ⟨h, Calm.refl s, hstatus⟩
  | pending =>
    obtain ⟨hlinked, hloose⟩ := h.pendingCallDequeue ((h.pending c).mpr hstatus)
    exact ⟨hlinked.threadCallRelease hloose, Calm.pendingCallDequeue.trans Calm.release, by simp⟩
  | delayed =>
    obtain ⟨hlinked, hloose⟩ := h.delayedCallDequeue ((h.delayed c).mpr hstatus)
    exact ⟨hlinked.threadCallRelease hloose, Calm.delayedCallDequeue.trans Calm.release, by simp⟩

theorem callThreadContinue_cases {s' : Callouts} {t : Option CalloutThread}
    (hs' : s.callThreadContinue = some (s', t)) :
    (∃ c, c ∈ s.pendingCallQueue ∧ t = some (.taken c (s.call c).func (s.call c).spec) ∧ s' =
      { (s.pendingCallDequeue c).threadCallRelease c with activeCallNum := s.activeCallNum + 1 }) ∨
    (s.pendingCallNum ≤ 0 ∧ t = some .waiting ∧ s' = s) ∨
    (s.pendingCallNum ≤ 0 ∧ callThreadMin < s.callThreadNum - s.activeCallNum ∧ t = none ∧
      s' = { s with callThreadNum := s.callThreadNum - 1 }) := by
  unfold Callouts.callThreadContinue at hs'
  split_ifs at hs' with hpos hmin
  · cases hqueue : s.pendingCallQueue with
    | nil =>
      rw [hqueue] at hs'
      cases hs'
    | cons c rest =>
      rw [hqueue] at hs'
      cases hs'
      have hdequeue : Callouts.setStatus
          { s with pendingCallQueue := rest, pendingCallNum := s.pendingCallNum - 1 } c .idle =
            s.pendingCallDequeue c := by
        simp [Callouts.pendingCallDequeue, hqueue]
      refine .inl ⟨c, mem_cons_self, rfl, ?_⟩
      rw [hdequeue]
      unfold Callouts.threadCallRelease
      split_ifs <;> rfl
  · cases hs'
    exact .inr (.inl ⟨by omega, rfl, rfl⟩)
  · cases hs'
    exact .inr (.inr ⟨by omega, by omega, rfl, rfl⟩)

theorem callThreadContinue_linked (h : Linked s transit) {s' : Callouts} {t : Option CalloutThread}
    (hs' : s.callThreadContinue = some (s', t)) : Linked s' transit ∧ Calm s s' ∧
      ∀ c func spec, t = some (.taken c func spec) → (s.call c).status = .pending := by
  obtain ⟨c, hmem, rfl, rfl⟩ | ⟨-, rfl, rfl⟩ | ⟨-, -, rfl, rfl⟩ := callThreadContinue_cases hs'
  · obtain ⟨hlinked, hloose⟩ := h.pendingCallDequeue hmem
    refine ⟨{ hlinked.threadCallRelease hloose with }, ?_, ?_⟩
    · exact Calm.pendingCallDequeue.trans Calm.release
    · rintro _ _ _ ⟨⟩
      exact (h.pending c).mp hmem
  · exact ⟨h, Calm.refl _, by rintro _ _ _ ⟨⟩⟩
  · exact ⟨{ h with }, Calm.refl s, by rintro _ _ _ ⟨⟩⟩

@[simp] theorem delayedCallDequeue_deadline :
    ((s.delayedCallDequeue c).call c').deadline = (s.call c').deadline := by
  by_cases h : c' = c
  · subst h
    simp [Callouts.delayedCallDequeue, setStatus]
  · simp [Callouts.delayedCallDequeue, setStatus, h]

/-- The calls at the head of the delayed queue whose deadline has come. -/
def Callouts.expired (s : Callouts) (timestamp : Tvalspec) : List ℕ :=
  s.delayedCallQueue.takeWhile (fun c => cmpTvalspec (s.call c).deadline timestamp ≤ 0)

theorem expire_linked (timestamp : Tvalspec) (l : List ℕ) : ∀ (s : Callouts) (transit : List ℕ),
    Linked s transit → s.delayedCallQueue = l →
      Linked (expire timestamp l s).1 ((expire timestamp l s).2 ++ transit) ∧
      Calm s (expire timestamp l s).1 ∧ (expire timestamp l s).2 =
        l.takeWhile (fun c => cmpTvalspec (s.call c).deadline timestamp ≤ 0) := by
  induction l with
  | nil => exact fun s transit h _ => ⟨h, Calm.refl s, rfl⟩
  | cons c rest ih =>
    intro s transit h hl
    simp only [expire]
    split_ifs with hexpired
    · have hmem : c ∈ s.delayedCallQueue := by
        rw [hl]
        exact mem_cons_self
      obtain ⟨hlinked, hloose⟩ := h.delayedCallDequeue hmem
      obtain ⟨hdone, hcalm, htransit⟩ := ih _ _ (hlinked.cons hloose) (by simp [hl])
      refine ⟨hdone.perm perm_middle, Calm.delayedCallDequeue.trans hcalm, ?_⟩
      simp [htransit, hexpired]
    · refine ⟨{ h with }, Calm.refl s, ?_⟩
      simp [hexpired]

theorem deliver_linked {l : List ℕ} (h : Linked s (l ++ transit)) : Linked (s.deliver l).1
    (((s.deliver l).2.toList).flatMap Handler.intransitCallQueue ++ transit) := by
  cases l with
  | nil => exact h
  | cons c rest =>
    obtain ⟨hlinked, hloose⟩ := h.uncons
    simpa [Callouts.deliver] using hlinked.pendingCallEnqueue hloose

theorem deliver_status {l : List ℕ} (hc : c ∉ l) :
    ((s.deliver l).1.call c).status = (s.call c).status := by
  cases l with
  | nil => rfl
  | cons d rest =>
    have hne : c ≠ d := by
      rintro rfl
      exact hc mem_cons_self
    simp [Callouts.deliver, hne]

theorem deliver_transit {l : List ℕ}
    (hc : c ∈ ((s.deliver l).2.toList).flatMap Handler.intransitCallQueue) : c ∈ l := by
  cases l with
  | nil => simp [Callouts.deliver] at hc
  | cons d rest =>
    apply mem_cons_of_mem
    simpa [Callouts.deliver] using hc

end callouts

/-! ## The system -/

namespace CalloutSystem

/-- The entries that handlers have on their own queues. -/
def transits (s : CalloutSystem) : List ℕ := s.handlers.flatMap Handler.intransitCallQueue

/-- The entries of all queues. -/
def links (s : CalloutSystem) : List ℕ :=
  s.callouts.internalCallFreeQueue ++ s.callouts.pendingCallQueue ++ s.callouts.delayedCallQueue ++
    s.transits

/-- The entry is on a queue, or was when its status was set. -/
def Held (s : CalloutSystem) (c : ℕ) : Prop := (s.callouts.call c).status ≠ .idle ∨ c ∈ s.transits

structure Ok (s : CalloutSystem) : Prop where
  linked : Linked s.callouts s.transits
  allocated : ∀ c, internalCall c = false → s.Held c → s.allocated c = true

/-- Handlers have no entry from outside. -/
def Guarded (s : CalloutSystem) : Prop := ∀ c ∈ s.transits, internalCall c = true

/-- Of the calls that an interrupt finds expired only the first one may be from outside; a call
that a thread has taken is not cancelled before its function starts. -/
def Settled (s : CalloutSystem) : CalloutEvent → Prop
  | .interrupt timestamp => ∀ c ∈ (s.callouts.expired timestamp).tail, internalCall c = true
  | .cancel c => ∀ func spec, .taken c func spec ∉ s.threads
  | _ => True

end CalloutSystem

/-- The call that an event enters. -/
def CalloutEvent.enters : CalloutEvent → Option ℕ
  | .enter c => some c
  | .enterSpec c _ => some c
  | .enterDelayed c _ => some c
  | .enterSpecDelayed c _ _ => some c
  | _ => none

/-- No entry from outside that a handler has is entered or freed. -/
def CalloutSystem.Undisturbed (s : CalloutSystem) (e : CalloutEvent) : Prop :=
  ∀ c ∈ s.transits, internalCall c = false → e.enters ≠ some c ∧ e ≠ .free c

section system
open CalloutSystem
variable {s s' : CalloutSystem} {e : CalloutEvent} {c : ℕ}

theorem external_iff : s.external c = true ↔ internalCall c = false ∧ s.allocated c = true := by
  simp [external]

theorem CalloutSystem.Guarded.not_transit (h : s.Guarded) (hc : internalCall c = false) :
    c ∉ s.transits := by
  intro hmem
  rw [h c hmem] at hc
  cases hc

theorem CalloutSystem.Guarded.undisturbed (h : s.Guarded) : s.Undisturbed e :=
  fun _ hmem hc => absurd hmem (h.not_transit hc)

theorem CalloutSystem.Guarded.not_held (h : s.Guarded) (hc : internalCall c = false)
    (hidle : (s.callouts.call c).status = .idle) : ¬s.Held c := by
  rintro (hheld | hheld)
  · exact hheld hidle
  · exact h.not_transit hc hheld

theorem CalloutSystem.Ok.kept (h : s.Ok) (hlinked : Linked s'.callouts s'.transits)
    (hheld : ∀ c, internalCall c = false → s'.Held c → s.Held c)
    (halloc : s'.allocated = s.allocated) : s'.Ok := by
  refine ⟨hlinked, ?_⟩
  intro c hc hc'
  rw [halloc]
  exact h.allocated c hc (hheld c hc hc')

theorem Calm.held (hcalm : Calm s.callouts s'.callouts) (htransits : s'.transits = s.transits)
    (hc : internalCall c = false) (hheld : s'.Held c) : s.Held c := by
  rcases hheld with hheld | hheld
  · exact .inl (fun hidle => hheld (hcalm c hc hidle))
  · rw [htransits] at hheld
    exact .inr hheld

theorem CalloutSystem.Ok.entered (h : s.Ok) (hc : s.external c = true) {r : Callouts × Option Wake}
    (hr : Linked r.1 s.transits ∧ ∀ c', c' ≠ c → (r.1.call c').status = (s.callouts.call c').status) :
    (s.becomes r).Ok ∧ ∀ c', c' ≠ c → (s.becomes r).Held c' → s.Held c' := by
  have hheld : ∀ c', c' ≠ c → (s.becomes r).Held c' → s.Held c' := by
    intro c' hne hheld
    unfold CalloutSystem.Held at hheld ⊢
    rwa [becomes, hr.2 c' hne] at hheld
  refine ⟨⟨hr.1, ?_⟩, hheld⟩
  intro c' hc' hheld'
  by_cases heq : c' = c
  · rw [heq]
    exact (external_iff.mp hc).2
  · exact h.allocated c' hc' (hheld c' heq hheld')

theorem transits_perm {l l' : List Handler} (h : l.Perm l') :
    (l.flatMap Handler.intransitCallQueue).Perm (l'.flatMap Handler.intransitCallQueue) :=
  h.flatMap_right _

theorem issue_same (w : Wake) : (s.issue w).1.callouts = s.callouts ∧
    (s.issue w).1.allocated = s.allocated ∧ (s.issue w).1.handlers = s.handlers := by
  cases w with
  | callThread =>
    simp only [issue, wakeCallThread]
    split_ifs <;> exact ⟨rfl, rfl, rfl⟩
  | activateThread =>
    simp only [issue, wakeActivateThread]
    split_ifs <;> exact ⟨rfl, rfl, rfl⟩

theorem interrupt_ok (h : s.Ok) (timestamp : Tvalspec) :
    Linked (s.callouts.delayedCallInterrupt timestamp).1
      (s.withHandler (s.callouts.delayedCallInterrupt timestamp)).transits ∧
    ∀ c, internalCall c = false → (s.withHandler (s.callouts.delayedCallInterrupt timestamp)).Held c →
      s.Held c := by
  obtain ⟨hlinked, hcalm, hexpired⟩ := expire_linked timestamp s.callouts.delayedCallQueue
    { s.callouts with timer := none } s.transits { h.linked with } rfl
  have hdelayed : ∀ c ∈ (Callouts.expire timestamp s.callouts.delayedCallQueue
      { s.callouts with timer := none }).2, (s.callouts.call c).status ≠ .idle := by
    intro c hmem hidle
    rw [hexpired] at hmem
    have hdelayed := (h.linked.delayed c).mp ((List.takeWhile_prefix _).subset hmem)
    rw [hidle] at hdelayed
    cases hdelayed
  refine ⟨?_, ?_⟩
  · simpa [transits, withHandler, Callouts.delayedCallInterrupt]
      using deliver_linked hlinked
  · rintro c hc (hheld | hheld)
    · left
      intro hidle
      have hnot : c ∉ (Callouts.expire timestamp s.callouts.delayedCallQueue
          { s.callouts with timer := none }).2 := fun hmem => hdelayed c hmem hidle
      exact hheld ((deliver_status hnot).trans (hcalm c hc hidle))
    · simp only [transits, withHandler, flatMap_append,
        Callouts.delayedCallInterrupt] at hheld
      rcases mem_append.mp hheld with hheld | hheld
      · exact .inl (hdelayed c (deliver_transit hheld))
      · exact .inr hheld

theorem goesOn_perm {l : List ℕ} (hmem : ⟨l, none⟩ ∈ s.handlers) :
    s.transits.Perm (l ++ (s.handlers.erase ⟨l, none⟩).flatMap Handler.intransitCallQueue) :=
  transits_perm (perm_cons_erase hmem)

theorem goesOn_transits {l : List ℕ} (hmem : ⟨l, none⟩ ∈ s.handlers)
    (hc : c ∈ ({ s with handlers := s.handlers.erase ⟨l, none⟩ }.withHandler
      (s.callouts.deliver l)).transits) : c ∈ s.transits := by
  simp only [transits, withHandler, flatMap_append] at hc
  apply (goesOn_perm hmem).symm.subset
  rcases mem_append.mp hc with hc | hc
  · exact mem_append_left _ (deliver_transit hc)
  · exact mem_append_right _ hc

theorem goesOn_ok (h : s.Ok) {l : List ℕ} (hmem : ⟨l, none⟩ ∈ s.handlers) :
    Linked (s.callouts.deliver l).1
      ({ s with handlers := s.handlers.erase ⟨l, none⟩ }.withHandler (s.callouts.deliver l)).transits ∧
    ∀ c, ({ s with handlers := s.handlers.erase ⟨l, none⟩ }.withHandler
      (s.callouts.deliver l)).Held c → s.Held c := by
  refine ⟨?_, ?_⟩
  · simpa [transits, withHandler]
      using deliver_linked (h.linked.perm (goesOn_perm hmem))
  · rintro c (hheld | hheld)
    · by_cases hc : c ∈ l
      · exact .inr ((goesOn_perm hmem).symm.subset (mem_append_left _ hc))
      · left
        intro hidle
        exact hheld ((deliver_status hc).trans hidle)
    · exact .inr (goesOn_transits hmem hheld)

theorem handlerWake_transits {hd : Handler} (hmem : hd ∈ s.handlers) (w : Option Wake) :
    s.transits.Perm (({ hd with wake := w } :: s.handlers.erase hd).flatMap
      Handler.intransitCallQueue) := by
  have hperm : s.transits.Perm ((hd :: s.handlers.erase hd).flatMap Handler.intransitCallQueue) :=
    transits_perm (perm_cons_erase hmem)
  simpa only [flatMap_cons] using hperm

theorem step_ok (h : s.Ok) (hundisturbed : s.Undisturbed e) (hstep : s.step e = some s') : s'.Ok ∧
    ∀ c, internalCall c = false → e.enters ≠ some c → s'.Held c → s.Held c := by
  have hcalms : ∀ {s' : CalloutSystem}, Linked s'.callouts s'.transits →
      Calm s.callouts s'.callouts → s'.transits = s.transits → s'.allocated = s.allocated →
      s'.Ok ∧ ∀ c, internalCall c = false → e.enters ≠ some c → s'.Held c → s.Held c :=
    fun hlinked hcalm htransits halloc =>
      ⟨h.kept hlinked (fun _ hc => hcalm.held htransits hc) halloc,
        fun _ hc _ => hcalm.held htransits hc⟩
  have henters : ∀ {c : ℕ} {r : Callouts × Option Wake}, s.external c = true → e.enters = some c →
      (internalCall c = false → c ∉ s.transits →
        Linked r.1 s.transits ∧ ∀ c', c' ≠ c → (r.1.call c').status = (s.callouts.call c').status) →
      (s.becomes r).Ok ∧ ∀ c', internalCall c' = false → e.enters ≠ some c' →
        (s.becomes r).Held c' → s.Held c' := by
    intro c r hc he hr
    have hinternal := (external_iff.mp hc).1
    obtain ⟨hok, hheld⟩ := h.entered hc (hr hinternal (fun hmem =>
      (hundisturbed c hmem hinternal).1 he))
    refine ⟨hok, fun c' _ hne => hheld c' ?_⟩
    rintro rfl
    exact hne he
  cases e with
  | func func spec uniqueCall =>
    obtain ⟨r, hr, rfl⟩ := map_eq_some_iff.mp hstep
    obtain ⟨hlinked, hcalm⟩ := threadCallFunc_linked h.linked hr
    exact hcalms hlinked hcalm rfl rfl
  | funcDelayed func spec deadline =>
    obtain ⟨r, hr, rfl⟩ := map_eq_some_iff.mp hstep
    obtain ⟨hlinked, hcalm⟩ := threadCallFuncDelayed_linked h.linked hr
    exact hcalms hlinked hcalm rfl rfl
  | funcCancel func spec cancelAll =>
    cases hstep
    obtain ⟨hlinked, hcalm⟩ := threadCallFuncCancel_linked h.linked func spec cancelAll
    exact hcalms hlinked hcalm rfl rfl
  | allocate c func spec =>
    simp only [step] at hstep
    split_ifs at hstep with hfree
    cases hstep
    obtain ⟨hinternal, halloc⟩ := not_or.mp hfree
    have hidle : (s.callouts.call c).status = .idle := by
      by_contra hne
      exact halloc (h.allocated c (by simpa using hinternal) (.inl hne))
    have hheld : ∀ c', CalloutSystem.Held { s with
        callouts := s.callouts.threadCallAllocate c func spec
        allocated := update s.allocated c true } c' → s.Held c' := by
      rintro c' (hheld | hheld)
      · exact .inl (by rwa [Callouts.threadCallAllocate, setCall_status hidle.symm] at hheld)
      · exact .inr hheld
    refine ⟨⟨h.linked.setCall hidle.symm, ?_⟩, fun c' _ _ => hheld c'⟩
    intro c' hc' hheld'
    simp only [update_apply]
    split_ifs
    · rfl
    · exact h.allocated c' hc' (hheld c' hheld')
  | free c =>
    simp only [step] at hstep
    split_ifs at hstep with hfree
    cases hstep
    refine ⟨⟨h.linked, ?_⟩, fun _ _ _ hheld => hheld⟩
    intro c' hc' hheld
    have hne : c' ≠ c := by
      rintro rfl
      rcases hheld with hheld | hheld
      · exact hheld hfree.2
      · exact (hundisturbed c' hheld hc').2 rfl
    simpa [hne] using h.allocated c' hc' hheld
  | enter c =>
    obtain ⟨hc, hstep⟩ := ite_none_right_eq_some.mp hstep
    cases hstep
    exact henters hc rfl (fun hc htransit => threadCallEnterSpec_linked h.linked hc htransit _)
  | enterSpec c spec =>
    obtain ⟨hc, hstep⟩ := ite_none_right_eq_some.mp hstep
    cases hstep
    exact henters hc rfl (fun hc htransit => threadCallEnterSpec_linked h.linked hc htransit spec)
  | enterDelayed c deadline =>
    obtain ⟨hc, hstep⟩ := ite_none_right_eq_some.mp hstep
    cases hstep
    exact henters hc rfl (fun hc htransit =>
      threadCallEnterSpecDelayed_linked h.linked hc htransit _ deadline)
  | enterSpecDelayed c spec deadline =>
    obtain ⟨hc, hstep⟩ := ite_none_right_eq_some.mp hstep
    cases hstep
    exact henters hc rfl (fun hc htransit =>
      threadCallEnterSpecDelayed_linked h.linked hc htransit spec deadline)
  | cancel c =>
    obtain ⟨hc, hstep⟩ := ite_none_right_eq_some.mp hstep
    cases hstep
    obtain ⟨hlinked, hcalm, -⟩ := threadCallCancel_linked h.linked c
    exact hcalms hlinked hcalm rfl rfl
  | interrupt timestamp =>
    simp only [step] at hstep
    split at hstep
    · cases hstep
    split_ifs at hstep
    cases hstep
    obtain ⟨hlinked, hheld⟩ := interrupt_ok h timestamp
    exact ⟨h.kept hlinked hheld rfl, fun c hc _ => hheld c hc⟩
  | handlerWake hd w =>
    obtain ⟨⟨hmem, -⟩, hstep⟩ := ite_none_right_eq_some.mp hstep
    cases hstep
    obtain ⟨hcallouts, halloc, hhandlers⟩ := issue_same (s := s) w
    have hperm := handlerWake_transits hmem (s.issue w).2
    have hheld : ∀ c, CalloutSystem.Held { (s.issue w).1 with
        handlers := { hd with wake := (s.issue w).2 } :: s.handlers.erase hd } c → s.Held c := by
      rintro c (hheld | hheld)
      · exact .inl (by simpa only [hcallouts] using hheld)
      · exact .inr (hperm.symm.subset hheld)
    refine ⟨h.kept ?_ (fun c _ => hheld c) halloc, fun c _ _ => hheld c⟩
    simp only [hcallouts]
    exact h.linked.perm hperm
  | handlerGoesOn l =>
    obtain ⟨hmem, hstep⟩ := ite_none_right_eq_some.mp hstep
    cases hstep
    obtain ⟨hlinked, hheld⟩ := goesOn_ok h hmem
    exact ⟨h.kept hlinked (fun c _ => hheld c) rfl, fun c _ _ => hheld c⟩
  | wake w =>
    obtain ⟨-, hstep⟩ := ite_none_right_eq_some.mp hstep
    cases hstep
    obtain ⟨hcallouts, halloc, hhandlers⟩ := issue_same (s := s) w
    refine hcalms ?_ ?_ ?_ halloc
    · simp only [transits, hcallouts, hhandlers]
      exact h.linked
    · simp only [hcallouts]
      exact Calm.refl _
    · simp only [transits, hhandlers]
  | threadGoesOn =>
    obtain ⟨-, hstep⟩ := ite_none_right_eq_some.mp hstep
    obtain ⟨r, hr, rfl⟩ := map_eq_some_iff.mp hstep
    obtain ⟨hlinked, hcalm, -⟩ := callThreadContinue_linked h.linked hr
    exact hcalms hlinked hcalm rfl rfl
  | start c func spec =>
    obtain ⟨-, hstep⟩ := ite_none_right_eq_some.mp hstep
    cases hstep
    exact hcalms h.linked (Calm.refl _) rfl rfl
  | finish c func spec =>
    obtain ⟨-, hstep⟩ := ite_none_right_eq_some.mp hstep
    obtain ⟨r, hr, rfl⟩ := map_eq_some_iff.mp hstep
    have hlinked₀ : Linked { s.callouts with activeCallNum := s.callouts.activeCallNum - 1 }
        s.transits := { h.linked with }
    obtain ⟨hlinked, hcalm, -⟩ := callThreadContinue_linked hlinked₀ hr
    exact hcalms hlinked hcalm rfl rfl
  | activate =>
    obtain ⟨-, hstep⟩ := ite_none_right_eq_some.mp hstep
    cases hstep
    unfold callActivateThread
    simp only
    split_ifs
    · exact hcalms { h.linked with } (Calm.refl _) rfl rfl
    · exact hcalms h.linked (Calm.refl _) rfl rfl
  | create =>
    obtain ⟨-, hstep⟩ := ite_none_right_eq_some.mp hstep
    cases hstep
    exact hcalms h.linked (Calm.refl _) rfl rfl

theorem step_guarded (h : s.Ok) (hguarded : s.Guarded) (hsettled : s.Settled e)
    (hstep : s.step e = some s') : s'.Guarded := by
  cases e with
  | interrupt timestamp =>
    simp only [step] at hstep
    split at hstep
    · cases hstep
    split_ifs at hstep
    cases hstep
    obtain ⟨-, -, hexpired⟩ := expire_linked timestamp s.callouts.delayedCallQueue
      { s.callouts with timer := none } s.transits { h.linked with } rfl
    intro c hmem
    simp only [transits, withHandler, flatMap_append] at hmem
    rcases mem_append.mp hmem with hmem | hmem
    · apply hsettled c
      rw [Callouts.expired, ← hexpired]
      simp only [Callouts.delayedCallInterrupt] at hmem
      cases hl : (Callouts.expire timestamp s.callouts.delayedCallQueue { s.callouts with timer := none }).2 with
      | nil => simp [hl, Callouts.deliver] at hmem
      | cons d rest => simpa [hl, Callouts.deliver] using hmem
    · exact hguarded c hmem
  | handlerWake hd w =>
    obtain ⟨⟨hmem, -⟩, hstep⟩ := ite_none_right_eq_some.mp hstep
    cases hstep
    exact fun c hc => hguarded c ((handlerWake_transits hmem _).symm.subset hc)
  | handlerGoesOn l =>
    obtain ⟨hmem, hstep⟩ := ite_none_right_eq_some.mp hstep
    cases hstep
    exact fun c hc => hguarded c (goesOn_transits hmem hc)
  | wake w =>
    obtain ⟨-, hstep⟩ := ite_none_right_eq_some.mp hstep
    cases hstep
    obtain ⟨-, -, hhandlers⟩ := issue_same (s := s) w
    simpa only [CalloutSystem.Guarded, transits, hhandlers] using hguarded
  | func | funcDelayed =>
    obtain ⟨r, -, rfl⟩ := map_eq_some_iff.mp hstep
    exact hguarded
  | funcCancel =>
    cases hstep
    exact hguarded
  | threadGoesOn | finish =>
    obtain ⟨-, hstep⟩ := ite_none_right_eq_some.mp hstep
    obtain ⟨r, -, rfl⟩ := map_eq_some_iff.mp hstep
    exact hguarded
  | activate =>
    obtain ⟨-, hstep⟩ := ite_none_right_eq_some.mp hstep
    cases hstep
    unfold callActivateThread
    simp only
    split_ifs <;> exact hguarded
  | allocate =>
    obtain ⟨-, hstep⟩ := ite_none_left_eq_some.mp hstep
    cases hstep
    exact hguarded
  | _ =>
    obtain ⟨-, hstep⟩ := ite_none_right_eq_some.mp hstep
    cases hstep
    exact hguarded

/-! ## Calls after they are cancelled -/

/-- The entry from outside is idle, and no thread is about to start its function. -/
structure CalloutSystem.Quiet (s : CalloutSystem) (c : ℕ) : Prop where
  internal : internalCall c = false
  idle : (s.callouts.call c).status = .idle
  notTaken : ∀ func spec, .taken c func spec ∉ s.threads

theorem withThread_quiet {callouts : Callouts} {r : Callouts × Option CalloutThread}
    {threads threads' : List CalloutThread} (hquiet : s.Quiet c)
    (hthreads : ∀ t ∈ threads, t ∈ s.threads) (hthreads' : threads' = r.2.toList ++ threads)
    (htaken : ∀ c' func spec, r.2 = some (.taken c' func spec) →
      (callouts.call c').status = .pending) (hcall : callouts.call = s.callouts.call) :
    ∀ func spec, .taken c func spec ∉ threads' := by
  intro func spec hmem
  rw [hthreads'] at hmem
  rcases mem_append.mp hmem with hmem | hmem
  · have hpending := htaken c func spec (mem_toList.mp hmem)
    rw [hcall, hquiet.idle] at hpending
    cases hpending
  · exact hquiet.notTaken func spec (hthreads _ hmem)

theorem issue_threads {w : Wake} {t : CalloutThread} (ht : t ∈ (s.issue w).1.threads) :
    t = .runnable ∨ t ∈ s.threads := by
  cases w with
  | callThread =>
    simp only [issue, wakeCallThread] at ht
    split_ifs at ht
    · rcases mem_cons.mp ht with rfl | ht
      · exact .inl rfl
      · exact .inr (mem_of_mem_erase ht)
    · exact .inr ht
  | activateThread =>
    simp only [issue, wakeActivateThread] at ht
    split_ifs at ht <;> exact .inr ht

theorem step_quiet (h : s.Ok) (hguarded : s.Guarded) (hstep : s.step e = some s')
    (hquiet : s.Quiet c) (he : e.enters ≠ some c) : s'.Quiet c := by
  have hidle : (s'.callouts.call c).status = .idle := by
    by_contra hne
    exact hguarded.not_held hquiet.internal hquiet.idle
      ((step_ok h hguarded.undisturbed hstep).2 c hquiet.internal he (.inl hne))
  refine ⟨hquiet.internal, hidle, ?_⟩
  have hsame : ∀ {threads : List CalloutThread}, (∀ t ∈ threads, t = .runnable ∨ t ∈ s.threads) →
      ∀ func spec, .taken c func spec ∉ threads := by
    intro threads hthreads func spec hmem
    rcases hthreads _ hmem with ht | ht
    · cases ht
    · exact hquiet.notTaken func spec ht
  cases e with
  | func func spec uniqueCall =>
    obtain ⟨r, -, rfl⟩ := map_eq_some_iff.mp hstep
    exact hquiet.notTaken
  | funcDelayed func spec deadline =>
    obtain ⟨r, -, rfl⟩ := map_eq_some_iff.mp hstep
    exact hquiet.notTaken
  | funcCancel func spec cancelAll =>
    cases hstep
    exact hquiet.notTaken
  | interrupt timestamp =>
    simp only [step] at hstep
    split at hstep
    · cases hstep
    split_ifs at hstep
    cases hstep
    exact hquiet.notTaken
  | handlerWake hd w =>
    obtain ⟨-, hstep⟩ := ite_none_right_eq_some.mp hstep
    cases hstep
    exact hsame (fun t ht => issue_threads ht)
  | wake w =>
    obtain ⟨-, hstep⟩ := ite_none_right_eq_some.mp hstep
    cases hstep
    exact hsame (fun t ht => issue_threads ht)
  | threadGoesOn =>
    obtain ⟨-, hstep⟩ := ite_none_right_eq_some.mp hstep
    obtain ⟨r, hr, rfl⟩ := map_eq_some_iff.mp hstep
    exact withThread_quiet hquiet (fun t ht => mem_of_mem_erase ht) rfl
      (callThreadContinue_linked h.linked hr).2.2 rfl
  | start d func spec =>
    obtain ⟨-, hstep⟩ := ite_none_right_eq_some.mp hstep
    cases hstep
    intro func' spec' hmem
    rcases mem_cons.mp hmem with ht | ht
    · cases ht
    · exact hquiet.notTaken func' spec' (mem_of_mem_erase ht)
  | finish d func spec =>
    obtain ⟨-, hstep⟩ := ite_none_right_eq_some.mp hstep
    obtain ⟨r, hr, rfl⟩ := map_eq_some_iff.mp hstep
    have hlinked₀ : Linked { s.callouts with activeCallNum := s.callouts.activeCallNum - 1 }
        s.transits := { h.linked with }
    exact withThread_quiet hquiet (fun t ht => mem_of_mem_erase ht) rfl
      (callThreadContinue_linked hlinked₀ hr).2.2 rfl
  | activate =>
    obtain ⟨-, hstep⟩ := ite_none_right_eq_some.mp hstep
    cases hstep
    unfold callActivateThread
    simp only
    split_ifs <;> exact hquiet.notTaken
  | create =>
    obtain ⟨-, hstep⟩ := ite_none_right_eq_some.mp hstep
    cases hstep
    exact hsame (fun t ht => mem_cons.mp ht)
  | allocate d func spec =>
    obtain ⟨-, hstep⟩ := ite_none_left_eq_some.mp hstep
    cases hstep
    exact hquiet.notTaken
  | _ =>
    obtain ⟨-, hstep⟩ := ite_none_right_eq_some.mp hstep
    cases hstep
    exact hquiet.notTaken

theorem cancel_quiet (h : s.Ok) (hsettled : s.Settled (.cancel c))
    (hstep : s.step (.cancel c) = some s') : s'.Quiet c := by
  obtain ⟨hc, hstep⟩ := ite_none_right_eq_some.mp hstep
  cases hstep
  exact ⟨(external_iff.mp hc).1, (threadCallCancel_linked h.linked c).2.2, hsettled⟩

theorem CalloutSystem.init_ok : init.Ok := by
  refine ⟨⟨nodup_nil, nodup_nil, ?_, ?_, ?_, ?_, ?_, rfl⟩, ?_⟩
  · simpa [transits, init] using nodup_range
  · simp [init]
  · simp [init]
  · simp [init]
  · simp [init, internalCall]
  · simp [CalloutSystem.Held, transits, init]

theorem CalloutSystem.init_guarded : init.Guarded := by
  simp [CalloutSystem.Guarded, transits, init]

theorem CalloutSystem.Ok.links_nodup (h : s.Ok) : s.links.Nodup := by
  have hperm : s.links.Perm (s.callouts.internalCallFreeQueue ++ s.transits ++
      (s.callouts.pendingCallQueue ++ s.callouts.delayedCallQueue)) := by
    simp only [links, append_assoc]
    refine List.Perm.append_left _ ?_
    rw [← append_assoc]
    exact perm_append_comm
  rw [hperm.nodup_iff]
  refine h.linked.idleNodup.append (h.linked.pendingNodup.append h.linked.delayedNodup ?_) ?_
  · intro c hpending hdelayed
    have hstatus := (h.linked.pending c).mp hpending
    rw [(h.linked.delayed c).mp hdelayed] at hstatus
    cases hstatus
  · intro c hidle hmem
    have hstatus := h.linked.idle c hidle
    rcases mem_append.mp hmem with hmem | hmem
    · rw [(h.linked.pending c).mp hmem] at hstatus
      cases hstatus
    · rw [(h.linked.delayed c).mp hmem] at hstatus
      cases hstatus

theorem CalloutSystem.Ok.not_linked (h : s.Ok) (hguarded : s.Guarded) (hc : internalCall c = false)
    (hidle : (s.callouts.call c).status = .idle) : c ∉ s.links := by
  have hloose := (h.linked.loose hc hidle (hguarded.not_transit hc)).notIdle
  simp only [links, mem_append, not_or] at hloose ⊢
  refine ⟨⟨⟨hloose.1, ?_⟩, ?_⟩, hloose.2⟩
  · rw [h.linked.pending, hidle]
    simp
  · rw [h.linked.delayed, hidle]
    simp

/-- A call that is cancelled now does not start before it is entered again. -/
def CalloutSystem.CancelHolds (s : CalloutSystem) : Prop :=
  ∀ c s₁, s.Settled (.cancel c) → s.step (.cancel c) = some s₁ → ∀ es s',
    (∀ e ∈ es, e.enters ≠ some c) →
    RunUnder CalloutSystem.Settled (fun s e s' => s.step e = some s') s₁ es s' →
    ∀ func spec, s'.step (.start c func spec) = none

/-- Every run in which interrupts find the calls from outside first, and in which no call is
cancelled between the moment a thread takes it and the start of its function: an entry is on
one queue at most, an idle entry from outside on none, the number of pending calls is right, and
a call that has been cancelled does not start before it is entered again. -/
theorem calls_linked_once {es : List CalloutEvent} (hrun :
    RunUnder CalloutSystem.Settled (fun s e s' => s.step e = some s') init es s) :
    s.links.Nodup ∧
    (∀ c, internalCall c = false → (s.callouts.call c).status = .idle → c ∉ s.links) ∧
    s.callouts.pendingCallNum = s.callouts.pendingCallQueue.length ∧
    s.CancelHolds := by
  have hstep : ∀ (s : CalloutSystem) e s', s.Ok ∧ s.Guarded → s.Settled e → s.step e = some s' →
      s'.Ok ∧ s'.Guarded :=
    fun _ _ _ h hset he => ⟨(step_ok h.1 h.2.undisturbed he).1, step_guarded h.1 h.2 hset he⟩
  obtain ⟨hok, hguarded⟩ := RunUnder.invariant (I := fun s => s.Ok ∧ s.Guarded) hstep hrun
    ⟨init_ok, init_guarded⟩
  refine ⟨hok.links_nodup, fun c => hok.not_linked hguarded, hok.linked.num, ?_⟩
  intro c s₁ hsettled hcancel es' s' hes hrun'
  have hquiet : (s'.Ok ∧ s'.Guarded) ∧ s'.Quiet c := by
    induction hrun' with
    | nil => exact ⟨hstep _ _ _ ⟨hok, hguarded⟩ hsettled hcancel, cancel_quiet hok hsettled hcancel⟩
    | @snoc t u as e hpre he ih =>
      obtain ⟨hset, he⟩ := he
      obtain ⟨hok', hquiet'⟩ := ih (fun e he => hes e (mem_append_left _ he))
      exact ⟨hstep _ _ _ hok' hset he, step_quiet hok'.1 hok'.2 he hquiet'
        (hes e (mem_append_right _ mem_cons_self))⟩
  intro func spec
  simp only [step]
  exact if_neg (hquiet.2.notTaken func spec)

end system

/-! ## Two runs -/

/-- Two calls from outside are entered for the same time, and the interrupt finds both. While it
wakes a thread for the first one, the second one is entered again. -/
def enteredInTransit : List CalloutEvent :=
  [.allocate 1000 1 1, .allocate 1001 2 2, .enterDelayed 1000 ⟨1, 0⟩, .enterDelayed 1001 ⟨1, 0⟩,
    .interrupt ⟨1, 0⟩, .enter 1001]

/-- The second call is on the pending queue and on that of the handler. -/
theorem call_linked_twice : ∃ s, Run (fun s e s' => step s e = some s')
    init enteredInTransit s ∧
      1001 ∈ s.callouts.pendingCallQueue ∧ 1001 ∈ s.transits := by
  have hrun : ∃ s, enteredInTransit.foldlM step init = some s ∧
      1001 ∈ s.callouts.pendingCallQueue ∧ 1001 ∈ s.transits := ⟨_, rfl, by decide, by decide⟩
  obtain ⟨s, hs, hlinked⟩ := hrun
  exact ⟨s, Run.of_foldlM hs, hlinked⟩

/-- One call from outside is entered for a time, and becomes pending then. -/
def enteredDelayed : List CalloutEvent :=
  [.allocate 1000 1 1, .enterDelayed 1000 ⟨1, 0⟩, .interrupt ⟨1, 0⟩]

theorem calls_linked_once_enteredDelayed : ∃ s : CalloutSystem,
    1000 ∈ s.callouts.pendingCallQueue ∧ s.links.Nodup ∧
    (∀ c, internalCall c = false → (s.callouts.call c).status = .idle → c ∉ s.links) ∧
    s.callouts.pendingCallNum = s.callouts.pendingCallQueue.length ∧
    s.CancelHolds := by
  have hrun : ∃ s, RunUnder CalloutSystem.Settled (fun s e s' => step s e = some s')
      init enteredDelayed s ∧ 1000 ∈ s.callouts.pendingCallQueue := by
    refine ⟨_, .snoc (.snoc (.snoc (.nil _) ⟨trivial, rfl⟩) ⟨trivial, rfl⟩) ⟨?_, rfl⟩, ?_⟩
    · change ∀ c ∈ [], internalCall c = true
      exact fun c hc => absurd hc not_mem_nil
    · decide
  obtain ⟨s, hs, hpending⟩ := hrun
  exact ⟨s, hpending, calls_linked_once hs⟩

end Darwin.Kern
