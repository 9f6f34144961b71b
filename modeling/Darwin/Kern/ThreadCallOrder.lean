import Darwin.Kern.ThreadCallWakeups

/-! # The order in which delayed calls become pending

On one processor nothing comes between the turns of the interrupt, and a run is a sequence of calls
and interrupts. `_delayed_call_enqueue` puts an entry behind the first one with the same deadline, so
that the entries of one deadline are in order only as long as there are no more than two of them.
-/
namespace Darwin.Kern
open Darwin.Lib Function List

namespace Callouts

/-- The turns of the second loop of `_delayed_call_interrupt`, with nothing between them. -/
def deliverAll : List ℕ → Callouts → Callouts
  | [], s => s
  | c :: rest, s => deliverAll rest (s.deliver (c :: rest)).1

/-- `_delayed_call_interrupt` on the only processor. -/
def interruptAlone (s : Callouts) (timestamp : Tvalspec) : Callouts :=
  let r := expire timestamp s.delayedCallQueue { s with timer := none }
  deliverAll r.2 r.1

/-- The deadline is not after the timestamp. -/
def due (s : Callouts) (timestamp : Tvalspec) (c : ℕ) : Bool := cmpTvalspec (s.call c).deadline timestamp ≤ 0

end Callouts

/-- The callouts, and when each entry has been scheduled for the last time. -/
structure Agenda where
  callouts : Callouts
  stamp : ℕ → ℕ
  clock : ℕ

inductive AgendaEvent where
  | func (func spec : ℕ) (uniqueCall : Bool)
  | funcDelayed (func spec : ℕ) (deadline : Tvalspec)
  | funcCancel (func spec : ℕ) (cancelAll : Bool)
  | allocate (call func spec : ℕ)
  | enter (call : ℕ)
  | enterSpec (call spec : ℕ)
  | enterDelayed (call : ℕ) (deadline : Tvalspec)
  | enterSpecDelayed (call spec : ℕ) (deadline : Tvalspec)
  | cancel (call : ℕ)
  | interrupt (timestamp : Tvalspec)
  /-- A callout thread takes a call, or finds none. -/
  | threadGoesOn
  deriving DecidableEq, Repr

namespace Agenda

def becomes (s : Agenda) (callouts : Callouts) : Agenda := { s with callouts := callouts }

/-- The entry has been scheduled now. -/
def scheduled (s : Agenda) (c : ℕ) (callouts : Callouts) : Agenda :=
  ⟨callouts, update s.stamp c s.clock, s.clock + 1⟩

/-- An idle entry is scheduled, and another one stays as it is. -/
def entered (s : Agenda) (c : ℕ) (callouts : Callouts) : Agenda :=
  if (s.callouts.call c).status = .idle then s.scheduled c callouts else s.becomes callouts

/-- External entries are in memory that no other entry is in: one that is allocated is on no queue. -/
def step (s : Agenda) : AgendaEvent → Option Agenda
  | .func func spec uniqueCall => (s.callouts.threadCallFunc func spec uniqueCall).map (fun r => s.becomes r.1)
  | .funcDelayed func spec deadline => s.callouts.internalCallAllocate.bind (fun r =>
    (s.callouts.threadCallFuncDelayed func spec deadline).map (s.scheduled r.1))
  | .funcCancel func spec cancelAll => some (s.becomes (s.callouts.threadCallFuncCancel func spec cancelAll))
  | .allocate c func spec =>
    if internalCall c = false ∧ (s.callouts.call c).status = .idle then
      some (s.becomes (s.callouts.threadCallAllocate c func spec))
    else none
  | .enter c => if internalCall c then none else some (s.becomes (s.callouts.threadCallEnter c).1)
  | .enterSpec c spec => if internalCall c then none else some (s.becomes (s.callouts.threadCallEnterSpec c spec).1)
  | .enterDelayed c deadline =>
    if internalCall c then none else some (s.entered c (s.callouts.threadCallEnterDelayed c deadline))
  | .enterSpecDelayed c spec deadline =>
    if internalCall c then none else some (s.entered c (s.callouts.threadCallEnterSpecDelayed c spec deadline))
  | .cancel c => some (s.becomes (s.callouts.threadCallCancel c))
  | .interrupt timestamp => some (s.becomes (s.callouts.interruptAlone timestamp))
  | .threadGoesOn => s.callouts.callThreadContinue.map (fun r => s.becomes r.1)

def init : Agenda := ⟨CalloutSystem.init.callouts, fun _ => 0, 0⟩

/-- The deadline of the entry that the event puts on the delayed queue. -/
def schedules (s : Agenda) : AgendaEvent → Option Tvalspec
  | .funcDelayed _ _ deadline => some (Callouts.validDeadline deadline)
  | .enterDelayed c deadline | .enterSpecDelayed c _ deadline =>
    if (s.callouts.call c).status = .idle then some (Callouts.validDeadline deadline) else none
  | _ => none

/-- No more than one entry has the deadline of the new one. -/
def untied (s : Agenda) (e : AgendaEvent) : Bool :=
  (s.schedules e).all (fun deadline =>
    (s.callouts.delayedCallQueue.filter (fun c => (s.callouts.call c).deadline = deadline)).length ≤ 1)

/-- The delayed queue is sorted, entries with equal deadlines stand as they were scheduled, and an
interrupt moves just those that are due to the tail of the pending queue. -/
structure OrderHolds (s : Agenda) : Prop where
  sorted : s.callouts.delayedCallQueue.Pairwise
    (fun c d => cmpTvalspec (s.callouts.call c).deadline (s.callouts.call d).deadline ≤ 0)
  ties : s.callouts.delayedCallQueue.Pairwise
    (fun c d => (s.callouts.call c).deadline = (s.callouts.call d).deadline → s.stamp c < s.stamp d)
  interrupt : ∀ timestamp, (s.callouts.interruptAlone timestamp).pendingCallQueue =
      s.callouts.pendingCallQueue ++ s.callouts.delayedCallQueue.filter (s.callouts.due timestamp) ∧
    (s.callouts.interruptAlone timestamp).delayedCallQueue =
      s.callouts.delayedCallQueue.filter (fun c => !s.callouts.due timestamp c)

end Agenda

/-! ## The order of the queue -/

theorem cmpTvalspec_lt {t1 t2 : Tvalspec} : cmpTvalspec t1 t2 < 0 ↔
    t1.tvSec < t2.tvSec ∨ t1.tvSec = t2.tvSec ∧ t1.tvNsec < t2.tvNsec := by
  unfold cmpTvalspec
  split_ifs <;> omega

theorem cmpTvalspec_eq_zero {t1 t2 : Tvalspec} : cmpTvalspec t1 t2 = 0 ↔ t1 = t2 := by
  obtain ⟨sec1, nsec1⟩ := t1
  obtain ⟨sec2, nsec2⟩ := t2
  simp only [cmpTvalspec, Tvalspec.mk.injEq]
  constructor
  · intro h
    split_ifs at h with h1 h2
    · omega
    · exact ⟨by omega, by omega⟩
  · rintro ⟨rfl, rfl⟩
    simp

section callouts
open Callouts
variable {s s' : Callouts} {stamp : ℕ → ℕ} {c clock : ℕ} {l transit : List ℕ} {timestamp : Tvalspec}

/-- An earlier deadline, or the same one and an earlier time of scheduling. -/
def Precedes (call : ℕ → ThreadCall) (stamp : ℕ → ℕ) (c d : ℕ) : Prop :=
  cmpTvalspec (call c).deadline (call d).deadline < 0 ∨
    (call c).deadline = (call d).deadline ∧ stamp c < stamp d

theorem Precedes.le {call : ℕ → ThreadCall} {d : ℕ} (h : Precedes call stamp c d) :
    cmpTvalspec (call c).deadline (call d).deadline ≤ 0 := by
  rcases h with hlt | ⟨heq, -⟩
  · exact hlt.le
  · rw [heq]
    exact cmpTvalspec_refl _

theorem Precedes.tie {call : ℕ → ThreadCall} {d : ℕ} (h : Precedes call stamp c d)
    (heq : (call c).deadline = (call d).deadline) : stamp c < stamp d := by
  rcases h with hlt | ⟨-, htie⟩
  · rw [cmpTvalspec_eq_zero.mpr heq] at hlt
    exact absurd hlt (lt_irrefl 0)
  · exact htie

theorem delayedInsert_precedes {call : ℕ → ThreadCall} (h : l.Pairwise (Precedes call stamp))
    (hstamp : ∀ d ∈ l, stamp d < stamp c)
    (htie : (l.filter (fun d => (call d).deadline = (call c).deadline)).length ≤ 1) :
    (delayedInsert call c l).Pairwise (Precedes call stamp) := by
  induction l with
  | nil => exact pairwise_singleton ..
  | cons current rest ih =>
    obtain ⟨hfirst, hrest⟩ := pairwise_cons.mp h
    simp only [delayedInsert]
    split_ifs with hneg hzero
    · refine pairwise_cons.mpr ⟨?_, h⟩
      intro d hd
      rcases mem_cons.mp hd with rfl | hd
      · exact .inl hneg
      · have hle := (hfirst d hd).le
        rw [cmpTvalspec_lt] at hneg
        rw [cmpTvalspec_le] at hle
        exact .inl (cmpTvalspec_lt.mpr (by omega))
    · have heq := cmpTvalspec_eq_zero.mp hzero
      have hbehind : ∀ d ∈ rest, Precedes call stamp c d := by
        intro d hd
        rcases hfirst d hd with hlt | ⟨hsame, -⟩
        · rw [← heq] at hlt
          exact .inl hlt
        · -- a third entry of the deadline
          have hmem : d ∈ rest.filter (fun d => (call d).deadline = (call c).deadline) :=
            mem_filter.mpr ⟨hd, by simp [heq, hsame]⟩
          have hpos := length_pos_of_mem hmem
          rw [filter_cons_of_pos (by simp [heq]), length_cons] at htie
          omega
      refine pairwise_cons.mpr ⟨?_, pairwise_cons.mpr ⟨hbehind, hrest⟩⟩
      intro d hd
      rcases mem_cons.mp hd with rfl | hd
      · exact .inr ⟨heq.symm, hstamp current mem_cons_self⟩
      · exact hfirst d hd
    · have hlt : cmpTvalspec (call current).deadline (call c).deadline < 0 := by
        have hpos : 0 < cmpTvalspec (call c).deadline (call current).deadline := by omega
        unfold cmpTvalspec at *
        split_ifs at * <;> omega
      have hless : (rest.filter (fun d => (call d).deadline = (call c).deadline)).length ≤ 1 :=
        (List.Sublist.length_le ((sublist_cons_self current rest).filter _)).trans htie
      refine pairwise_cons.mpr ⟨?_, ih hrest (fun d hd => hstamp d (mem_cons_of_mem _ hd)) hless⟩
      intro d hd
      rcases mem_cons.mp ((delayedInsert_perm call c rest).subset hd) with rfl | hd
      · exact .inl hlt
      · exact hfirst d hd

/-- The delayed queue is in order. -/
def InOrder (s : Callouts) (stamp : ℕ → ℕ) : Prop := s.delayedCallQueue.Pairwise (Precedes s.call stamp)

/-- No entry comes to the delayed queue, and those that stay keep their deadlines. -/
structure Fewer (s s' : Callouts) : Prop where
  delayed : s'.delayedCallQueue.Sublist s.delayedCallQueue
  deadline : ∀ c ∈ s'.delayedCallQueue, (s'.call c).deadline = (s.call c).deadline

theorem Fewer.refl (s : Callouts) : Fewer s s := ⟨.refl _, fun _ _ => rfl⟩

theorem Fewer.trans {s₁ s₂ s₃ : Callouts} (h : Fewer s₁ s₂) (h' : Fewer s₂ s₃) : Fewer s₁ s₃ where
  delayed := h'.delayed.trans h.delayed
  deadline := fun c hc => (h'.deadline c hc).trans (h.deadline c (h'.delayed.subset hc))

theorem Eased.fewer (h : Eased s s') : Fewer s s' := ⟨h.delayed, h.deadline⟩

theorem Fewer.setCall {r : ThreadCall} (hc : c ∉ s.delayedCallQueue) : Fewer s (s.setCall c r) := by
  refine ⟨.refl _, fun d hd => ?_⟩
  have hne : d ≠ c := by
    rintro rfl
    exact hc hd
  simp [hne]

theorem Fewer.pendingCallEnqueue : Fewer s (s.pendingCallEnqueue c) := ⟨.refl _, fun _ _ => setStatus_deadline⟩

theorem Fewer.internalCallAllocate (halloc : s.internalCallAllocate = some (c, s')) : Fewer s s' := by
  unfold Callouts.internalCallAllocate at halloc
  split at halloc
  · cases halloc
  · cases halloc
    exact ⟨.refl _, fun _ _ => rfl⟩

theorem InOrder.fewer (h : InOrder s stamp) (hf : Fewer s s') : InOrder s' stamp := by
  refine (List.Pairwise.sublist hf.delayed h).imp_of_mem ?_
  intro c d hc hd hprec
  rwa [Precedes, hf.deadline c hc, hf.deadline d hd]

theorem InOrder.sorted (h : InOrder s stamp) : s.delayedCallQueue.Pairwise
    (fun c d => cmpTvalspec (s.call c).deadline (s.call d).deadline ≤ 0) := h.imp fun hprec => hprec.le

@[simp] theorem enqueueAndSetTimer_delayed : (s.enqueueAndSetTimer c).delayedCallQueue =
    delayedInsert s.call c s.delayedCallQueue := by
  simp only [Callouts.enqueueAndSetTimer]
  split_ifs <;> rfl

@[simp] theorem enqueueAndSetTimer_deadline {d : ℕ} :
    ((s.enqueueAndSetTimer c).call d).deadline = (s.call d).deadline := by
  simp only [Callouts.enqueueAndSetTimer]
  split_ifs <;> exact setStatus_deadline

theorem InOrder.enqueueAndSetTimer (h : InOrder s stamp) (hc : c ∉ s.delayedCallQueue)
    (hstamp : ∀ d ∈ s.delayedCallQueue, stamp d < clock)
    (htie : (s.delayedCallQueue.filter (fun d => (s.call d).deadline = (s.call c).deadline)).length ≤ 1) :
    InOrder (s.enqueueAndSetTimer c) (update stamp c clock) := by
  have hother : ∀ d ∈ s.delayedCallQueue, update stamp c clock d = stamp d := by
    intro d hd
    refine update_of_ne ?_ ..
    rintro rfl
    exact hc hd
  have hprec : s.delayedCallQueue.Pairwise (Precedes s.call (update stamp c clock)) := by
    refine h.imp_of_mem ?_
    intro d d' hd hd' hprec
    rwa [Precedes, hother d hd, hother d' hd']
  have hinsert := delayedInsert_precedes hprec (by
    intro d hd
    rw [hother d hd, update_self]
    exact hstamp d hd) htie
  rw [InOrder, enqueueAndSetTimer_delayed]
  refine hinsert.imp ?_
  intro d d' hprec
  simpa only [Precedes, enqueueAndSetTimer_deadline] using hprec

/-! ## The interrupt -/

theorem takeWhile_due (h : l.Pairwise (fun c d => cmpTvalspec (s.call c).deadline (s.call d).deadline ≤ 0)) :
    l.takeWhile (s.due timestamp) = l.filter (s.due timestamp) ∧
      l.dropWhile (s.due timestamp) = l.filter (fun c => !s.due timestamp c) := by
  induction l with
  | nil => exact ⟨rfl, rfl⟩
  | cons c rest ih =>
    obtain ⟨hfirst, hrest⟩ := pairwise_cons.mp h
    cases hdue : s.due timestamp c with
    | true => simp [hdue, ih hrest]
    | false =>
      have hnone : ∀ d ∈ rest, s.due timestamp d = false := by
        intro d hd
        simp only [due, decide_eq_false_iff_not] at *
        exact fun hle => hdue (cmpTvalspec_trans (hfirst d hd) hle)
      have hfilter : rest.filter (s.due timestamp) = [] :=
        filter_eq_nil_iff.mpr fun d hd => by simp [hnone d hd]
      have hall : rest.filter (fun c => !s.due timestamp c) = rest :=
        filter_eq_self.mpr fun d hd => by simp [hnone d hd]
      simp [hdue, hfilter, hall]

theorem expire_queues (timestamp : Tvalspec) (l : List ℕ) : ∀ s : Callouts, s.delayedCallQueue = l →
    (expire timestamp l s).2 = l.takeWhile (s.due timestamp) ∧
      (expire timestamp l s).1.delayedCallQueue = l.dropWhile (s.due timestamp) ∧
      (expire timestamp l s).1.pendingCallQueue = s.pendingCallQueue ∧
      ∀ d, ((expire timestamp l s).1.call d).deadline = (s.call d).deadline := by
  induction l with
  | nil => exact fun s hl => ⟨rfl, hl, rfl, fun _ => rfl⟩
  | cons c rest ih =>
    intro s hl
    have hdue : ∀ d, (s.delayedCallDequeue c).due timestamp d = s.due timestamp d := by
      intro d
      simp only [due, delayedCallDequeue_deadline]
    simp only [expire]
    split_ifs with hexpired
    · have hfirst : s.due timestamp c = true := decide_eq_true hexpired
      obtain ⟨hmoved, hleft, hpending, hdeadline⟩ := ih (s.delayedCallDequeue c) (by simp [hl])
      rw [funext hdue] at hmoved hleft
      refine ⟨by simp [hfirst, hmoved], by simp [hfirst, hleft], hpending, ?_⟩
      intro d
      rw [hdeadline, delayedCallDequeue_deadline]
    · have hfirst : s.due timestamp c = false := decide_eq_false hexpired
      refine ⟨by simp [hfirst], ?_, rfl, fun _ => rfl⟩
      rw [dropWhile_cons_of_neg (by simp [hfirst])]
      exact hl

theorem deliverAll_queues (l : List ℕ) : ∀ s : Callouts,
    (deliverAll l s).pendingCallQueue = s.pendingCallQueue ++ l ∧
      (deliverAll l s).delayedCallQueue = s.delayedCallQueue ∧
      ∀ d, ((deliverAll l s).call d).deadline = (s.call d).deadline := by
  induction l with
  | nil => exact fun s => ⟨(append_nil _).symm, rfl, fun _ => rfl⟩
  | cons c rest ih =>
    intro s
    obtain ⟨hpending, hdelayed, hdeadline⟩ := ih (s.pendingCallEnqueue c)
    refine ⟨?_, hdelayed, fun d => (hdeadline d).trans setStatus_deadline⟩
    rw [deliverAll]
    exact hpending.trans (by simp)

theorem deliverAll_linked (l : List ℕ) : ∀ s : Callouts, Linked s (l ++ []) → Linked (deliverAll l s) [] := by
  induction l with
  | nil => exact fun s h => h
  | cons c rest ih =>
    intro s h
    obtain ⟨hlinked, hloose⟩ := h.uncons
    exact ih _ (hlinked.pendingCallEnqueue hloose)

theorem interruptAlone_linked (h : Linked s []) (timestamp : Tvalspec) :
    Linked (s.interruptAlone timestamp) [] := by
  have hstart : Linked { s with timer := none } [] := { h with }
  exact deliverAll_linked _ _ (expire_linked timestamp _ _ [] hstart rfl).1

theorem InOrder.interruptAlone (h : InOrder s stamp) (timestamp : Tvalspec) :
    (s.interruptAlone timestamp).pendingCallQueue =
        s.pendingCallQueue ++ s.delayedCallQueue.filter (s.due timestamp) ∧
      (s.interruptAlone timestamp).delayedCallQueue =
        s.delayedCallQueue.filter (fun c => !s.due timestamp c) ∧
      ∀ d, ((s.interruptAlone timestamp).call d).deadline = (s.call d).deadline := by
  obtain ⟨hmoved, hleft, hpending, hdeadline⟩ :=
    expire_queues timestamp s.delayedCallQueue { s with timer := none } rfl
  obtain ⟨hpending', hdelayed', hdeadline'⟩ := deliverAll_queues
    (expire timestamp s.delayedCallQueue { s with timer := none }).2
    (expire timestamp s.delayedCallQueue { s with timer := none }).1
  obtain ⟨htake, hdrop⟩ := @takeWhile_due _ _ timestamp h.sorted
  refine ⟨?_, ?_, fun d => (hdeadline' d).trans (hdeadline d)⟩
  · rw [Callouts.interruptAlone, hpending', hpending, hmoved, ← htake]
    rfl
  · rw [Callouts.interruptAlone, hdelayed', hleft, ← hdrop]
    rfl

end callouts

/-! ## Runs -/

namespace Agenda

structure Ok (s : Agenda) : Prop where
  linked : Linked s.callouts []
  ordered : InOrder s.callouts s.stamp
  stamps : ∀ c ∈ s.callouts.delayedCallQueue, s.stamp c < s.clock

section step
variable {s s' : Agenda} {c : ℕ} {callouts : Callouts}

theorem Ok.becomes (h : s.Ok) (hlinked : Linked callouts []) (hf : Fewer s.callouts callouts) :
    (s.becomes callouts).Ok :=
  ⟨hlinked, h.ordered.fewer hf, fun c hc => h.stamps c (hf.delayed.subset hc)⟩

theorem Ok.scheduled (h : s.Ok) {before : Callouts} (hf : Fewer s.callouts before)
    (hlinked : Linked before []) (hloose : Loose before [] c)
    (htie : (s.callouts.delayedCallQueue.filter
      (fun d => (s.callouts.call d).deadline = (before.call c).deadline)).length ≤ 1) :
    (s.scheduled c (before.enqueueAndSetTimer c)).Ok := by
  have hnot := hlinked.not_delayed hloose.status
  have hless : (before.delayedCallQueue.filter
      (fun d => (before.call d).deadline = (before.call c).deadline)).length ≤ 1 := by
    rw [filter_congr fun d hd => by rw [hf.deadline d hd]]
    exact (List.Sublist.length_le (hf.delayed.filter _)).trans htie
  refine ⟨hlinked.enqueueAndSetTimer hloose, ?_, ?_⟩
  · exact (h.ordered.fewer hf).enqueueAndSetTimer hnot (fun d hd => h.stamps d (hf.delayed.subset hd)) hless
  · intro d hd
    change update s.stamp c s.clock d < s.clock + 1
    change d ∈ (before.enqueueAndSetTimer c).delayedCallQueue at hd
    rw [enqueueAndSetTimer_delayed] at hd
    rcases mem_cons.mp ((delayedInsert_perm _ _ _).subset hd) with rfl | hmem
    · rw [update_self]
      omega
    · have hne : d ≠ c := by
        rintro rfl
        exact hnot hmem
      rw [update_of_ne hne]
      have hlt := h.stamps d (hf.delayed.subset hmem)
      omega

theorem untied_iff {e : AgendaEvent} {deadline : Tvalspec} (hs : s.schedules e = some deadline) :
    s.untied e = true ↔ (s.callouts.delayedCallQueue.filter
      (fun c => (s.callouts.call c).deadline = deadline)).length ≤ 1 := by
  simp [untied, hs]

theorem Ok.entered (h : s.Ok) (hc : internalCall c = false) {spec : ℕ} {deadline : Tvalspec}
    (htie : (s.callouts.call c).status = .idle → (s.callouts.delayedCallQueue.filter
      (fun d => (s.callouts.call d).deadline = Callouts.validDeadline deadline)).length ≤ 1) :
    (s.entered c (s.callouts.threadCallEnterSpecDelayed c spec deadline)).Ok := by
  unfold Agenda.entered Callouts.threadCallEnterSpecDelayed
  simp only
  split_ifs with hidle
  · have hloose := h.linked.loose hc hidle not_mem_nil
    have hnot := h.linked.not_delayed hidle
    refine h.scheduled (Fewer.setCall hnot) (h.linked.setCall (by rfl)) (hloose.setCall (by rfl)) ?_
    simpa using htie hidle
  · exact h.becomes h.linked (Fewer.refl _)

theorem Ok.enteredSpec (h : s.Ok) (hc : internalCall c = false) (spec : ℕ) :
    (s.becomes (s.callouts.threadCallEnterSpec c spec).1).Ok := by
  refine h.becomes (threadCallEnterSpec_linked h.linked hc not_mem_nil spec).1 ?_
  unfold Callouts.threadCallEnterSpec
  split_ifs with hidle
  · exact (Fewer.setCall (h.linked.not_delayed hidle)).trans Fewer.pendingCallEnqueue
  · exact Fewer.refl _

theorem Ok.step (h : s.Ok) {e : AgendaEvent} (huntied : s.untied e = true) (hstep : s.step e = some s') :
    s'.Ok := by
  cases e with
  | func func spec uniqueCall =>
    obtain ⟨r, hr, rfl⟩ := Option.map_eq_some_iff.mp hstep
    refine h.becomes (threadCallFunc_linked h.linked hr).1 ?_
    unfold Callouts.threadCallFunc at hr
    split_ifs at hr with hfound
    · cases hr
      exact Fewer.refl _
    · obtain ⟨⟨c, s₁⟩, halloc, hr⟩ := Option.bind_eq_some_iff.mp hr
      cases hr
      obtain ⟨hlinked, hloose, -⟩ := h.linked.internalCallAllocate halloc
      exact (Fewer.internalCallAllocate halloc).trans
        ((Fewer.setCall (hlinked.not_delayed hloose.status)).trans Fewer.pendingCallEnqueue)
  | funcDelayed func spec deadline =>
    obtain ⟨⟨c, s₁⟩, halloc, hstep⟩ := Option.bind_eq_some_iff.mp hstep
    obtain ⟨callouts, hrun, rfl⟩ := Option.map_eq_some_iff.mp hstep
    obtain ⟨hlinked, hloose, -⟩ := h.linked.internalCallAllocate halloc
    have hf := (Fewer.internalCallAllocate halloc).trans
      (Fewer.setCall (r := { s₁.call c with
        func := func, spec := spec, specProto := 0, deadline := Callouts.validDeadline deadline })
        (hlinked.not_delayed hloose.status))
    simp only [Callouts.threadCallFuncDelayed, halloc, bind, Option.bind_some, Option.some.injEq] at hrun
    subst hrun
    refine h.scheduled hf (hlinked.setCall (by rfl)) (hloose.setCall (by rfl)) ?_
    simpa using (untied_iff rfl).mp huntied
  | funcCancel func spec cancelAll =>
    cases hstep
    exact h.becomes (threadCallFuncCancel_linked h.linked _ _ _).1 Eased.threadCallFuncCancel.fewer
  | allocate c func spec =>
    simp only [Agenda.step] at hstep
    split_ifs at hstep with hc
    cases hstep
    exact h.becomes (h.linked.setCall hc.2.symm) (Fewer.setCall (h.linked.not_delayed hc.2))
  | enter c =>
    simp only [Agenda.step] at hstep
    split_ifs at hstep with hc
    cases hstep
    exact h.enteredSpec (by simpa using hc) (s.callouts.call c).specProto
  | enterSpec c spec =>
    simp only [Agenda.step] at hstep
    split_ifs at hstep with hc
    cases hstep
    exact h.enteredSpec (by simpa using hc) spec
  | enterDelayed c deadline =>
    simp only [Agenda.step] at hstep
    split_ifs at hstep with hc
    cases hstep
    refine h.entered (by simpa using hc) fun hidle => ?_
    exact (untied_iff (by simp [schedules, hidle])).mp huntied
  | enterSpecDelayed c spec deadline =>
    simp only [Agenda.step] at hstep
    split_ifs at hstep with hc
    cases hstep
    refine h.entered (by simpa using hc) fun hidle => ?_
    exact (untied_iff (by simp [schedules, hidle])).mp huntied
  | cancel c =>
    cases hstep
    exact h.becomes (threadCallCancel_linked h.linked c).1 Eased.threadCallCancel.fewer
  | interrupt timestamp =>
    cases hstep
    obtain ⟨-, hleft, hdeadline⟩ := h.ordered.interruptAlone timestamp
    refine h.becomes (interruptAlone_linked h.linked timestamp) ⟨?_, fun d _ => hdeadline d⟩
    rw [hleft]
    exact filter_sublist
  | threadGoesOn =>
    obtain ⟨⟨callouts, t⟩, hrun, rfl⟩ := Option.map_eq_some_iff.mp hstep
    refine h.becomes (callThreadContinue_linked h.linked hrun).1 ?_
    obtain ⟨c, -, -, rfl⟩ | ⟨-, -, rfl⟩ | ⟨-, -, -, rfl⟩ := callThreadContinue_cases hrun
    · have heased : Eased s.callouts ((s.callouts.pendingCallDequeue c).threadCallRelease c) :=
        Eased.pendingCallDequeue.trans Eased.release
      exact ⟨heased.delayed, heased.deadline⟩
    · exact Fewer.refl _
    · exact ⟨.refl _, fun _ _ => rfl⟩

end step

theorem init_ok : init.Ok :=
  ⟨CalloutSystem.init_ok.linked, List.Pairwise.nil, fun _ hc => absurd hc not_mem_nil⟩

theorem Ok.orderHolds {s : Agenda} (h : s.Ok) : s.OrderHolds where
  sorted := h.ordered.sorted
  ties := h.ordered.imp fun hprec heq => hprec.tie heq
  interrupt := fun timestamp => ⟨(h.ordered.interruptAlone timestamp).1, (h.ordered.interruptAlone timestamp).2.1⟩

/-- In every run in which no entry is scheduled for a deadline that two others have, delayed calls
become pending in order. -/
theorem calls_in_order {es : List AgendaEvent} {s : Agenda}
    (hrun : RunUnder (fun s e => Agenda.untied s e = true) (fun s e s' => Agenda.step s e = some s') init es s) :
    s.OrderHolds :=
  (RunUnder.invariant (fun _ _ _ h huntied hstep => Ok.step h huntied hstep) hrun init_ok).orderHolds

/-- Three entries, of which two have the same deadline; one of these is cancelled and entered again. -/
def twoTied : List AgendaEvent :=
  [.allocate 1001 1 1, .allocate 1002 2 2, .allocate 1003 3 3, .enterDelayed 1001 ⟨5, 0⟩,
    .enterDelayed 1002 ⟨3, 0⟩, .enterDelayed 1003 ⟨5, 0⟩, .cancel 1001, .enterDelayed 1001 ⟨5, 0⟩]

theorem calls_in_order_twoTied : ∃ s, s.callouts.delayedCallQueue = [1002, 1003, 1001] ∧ OrderHolds s := by
  have hrun : ∃ s, twoTied.foldlM (fun s e => if s.untied e then Agenda.step s e else none) init = some s ∧
      s.callouts.delayedCallQueue = [1002, 1003, 1001] := ⟨_, rfl, rfl⟩
  obtain ⟨s, hs, hqueue⟩ := hrun
  exact ⟨s, hqueue, calls_in_order (RunUnder.of_foldlM hs)⟩

/-- Three entries are scheduled for one time. -/
def threeTied : List AgendaEvent :=
  [.allocate 1001 1 1, .allocate 1002 2 2, .allocate 1003 3 3, .enterDelayed 1001 ⟨5, 0⟩,
    .enterDelayed 1002 ⟨5, 0⟩, .enterDelayed 1003 ⟨5, 0⟩]

/-- The third one comes before the second one. -/
theorem third_before_second : ∃ s, Run (fun s e s' => Agenda.step s e = some s') init threeTied s ∧
    s.callouts.delayedCallQueue = [1001, 1003, 1002] ∧ s.stamp 1002 < s.stamp 1003 ∧ ¬ OrderHolds s := by
  have hrun : ∃ s, threeTied.foldlM Agenda.step init = some s ∧
      s.callouts.delayedCallQueue = [1001, 1003, 1002] ∧
      (s.callouts.call 1003).deadline = (s.callouts.call 1002).deadline ∧ s.stamp 1002 < s.stamp 1003 :=
    ⟨_, rfl, rfl, rfl, by decide⟩
  obtain ⟨s, hs, hqueue, hsame, hstamp⟩ := hrun
  refine ⟨s, Run.of_foldlM hs, hqueue, hstamp, fun h => ?_⟩
  have hties := h.ties
  rw [hqueue] at hties
  have hlt := rel_of_pairwise_cons (pairwise_cons.mp hties).2 (mem_singleton.mpr rfl) hsame
  exact absurd hstamp (Nat.lt_asymm hlt)

end Agenda

end Darwin.Kern
