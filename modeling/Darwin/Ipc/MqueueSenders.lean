import Darwin.Ipc.MqueueRuns
import Darwin.Lib.Listing

/-! # Blocked senders

A sender blocks when the queue of its port is full. Whoever makes room wakes a sender, and the
woken sender tries again.
-/
namespace Darwin.Ipc.MessageQueue
open Darwin.Lib

namespace State

/-- Thread `t` has been woken from a send to port `p` and has not run yet. -/
def Woken (s : State) (p t : ℕ) : Prop :=
  (∃ kmsg option timeout, s.phase t = .sending kmsg option timeout ∧ kmsg.remotePort = p) ∧
    (s.threads t).ithState = .success

/-- A sender stays blocked only while the queue is full, or will be when the woken senders have
used their turn. -/
def NoneStranded (s : State) (p : ℕ) : Prop :=
  (s.ports p).ipBlocked ≠ [] →
    ((s.ports p).ipQlimit : ℕ∞) ≤ (s.ports p).ipMsgcount + {t | s.Woken p t}.encard

/-- The property with the woken senders in a list. -/
def RoomAt (s : State) (p : ℕ) : Prop :=
  ∃ ws, Listing (s.Woken p) ws ∧
    ((s.ports p).ipBlocked ≠ [] → (s.ports p).ipQlimit ≤ (s.ports p).ipMsgcount + ws.length)

theorem RoomAt.noneStranded {s : State} {p : ℕ} (h : s.RoomAt p) : s.NoneStranded p := by
  obtain ⟨ws, hws, hle⟩ := h
  intro hb
  rw [hws.encard_eq]
  exact_mod_cast hle hb

/-! ## Steps and woken senders -/

/-- A step of thread `t`: the others stay where they are, and only receivers have their fields
changed. -/
structure AgreesOff (t : ℕ) (s s' : State) : Prop where
  phase : ∀ u, u ≠ t → s'.phase u = s.phase u
  threads : ∀ u, u ≠ t → (∀ q timeout, s.phase u ≠ .receiving q timeout) →
    s'.threads u = s.threads u

theorem AgreesOff.woken_iff {t : ℕ} {s s' : State} (h : AgreesOff t s s') {u : ℕ} (hu : u ≠ t)
    (p : ℕ) : s'.Woken p u ↔ s.Woken p u := by
  unfold Woken
  rw [h.phase u hu]
  refine and_congr_right ?_
  rintro ⟨kmsg, option, timeout, hp, -⟩
  rw [h.threads u hu (by simp [hp])]

theorem AgreesOff.setPhase (s : State) (t : ℕ) (ph : Phase) : AgreesOff t s (s.setPhase t ph) :=
  ⟨fun u hu => by simp [hu], fun _ _ _ => rfl⟩

theorem QueueOnly.agreesOff {s s' : State} (h : s.QueueOnly s') (hw : s.Waits) (t : ℕ) :
    AgreesOff t s s' :=
  ⟨fun u _ => by rw [h.phase], fun u _ hr => h.threads_of_phase hw hr⟩

theorem QueueOnly.woken_iff {s s' : State} (h : s.QueueOnly s') (hw : s.Waits) (p u : ℕ) :
    s'.Woken p u ↔ s.Woken p u :=
  (h.agreesOff hw (u + 1)).woken_iff (by omega) p

theorem AgreesOff.trans {t : ℕ} {s s' s'' : State} (h : AgreesOff t s s')
    (h' : AgreesOff t s' s'') : AgreesOff t s s'' := by
  refine ⟨fun u hu => (h'.phase u hu).trans (h.phase u hu), fun u hu hr => ?_⟩
  rw [h'.threads u hu (by rw [h.phase u hu]; exact hr), h.threads u hu hr]

theorem not_woken_of_phase {s : State} {t p : ℕ}
    (h : ∀ kmsg option timeout, s.phase t ≠ .sending kmsg option timeout) : ¬ s.Woken p t := by
  rintro ⟨⟨kmsg, option, timeout, hp, -⟩, -⟩
  exact h kmsg option timeout hp

theorem RoomAt.of_agreesOff {s s' : State} {p t : ℕ} (h : s.RoomAt p) (ha : AgreesOff t s s')
    (ht : ¬ s'.Woken p t)
    (hle : (s'.ports p).ipBlocked ≠ [] →
      (s'.ports p).ipQlimit ≤ (s'.ports p).ipMsgcount ∨
      (s.ports p).ipBlocked ≠ [] ∧ (s'.ports p).ipQlimit ≤ (s.ports p).ipQlimit ∧
        ((s.ports p).ipMsgcount + 1 ≤ (s'.ports p).ipMsgcount ∨
          ¬ s.Woken p t ∧ (s.ports p).ipMsgcount ≤ (s'.ports p).ipMsgcount)) : s'.RoomAt p := by
  obtain ⟨ws, hws, hroom⟩ := h
  refine ⟨ws.erase t, hws.erase ht (fun u hu => ha.woken_iff hu p), fun hb => ?_⟩
  have hlen := @List.le_length_erase ℕ _ _ t ws
  rcases hle hb with hfull | ⟨hb', hq, hm | ⟨hnot, hm⟩⟩
  · omega
  · have := hroom hb'
    omega
  · rw [List.erase_of_not_mem (fun hmem => hnot ((hws.mem_iff t).mp hmem))]
    have := hroom hb'
    omega

/-! ## Passes of the loop of a sender -/

@[simp] theorem accept_ipQlimit (s : State) (kmsg : Kmsg) (p : ℕ) :
    ((s.accept kmsg).ports p).ipQlimit = (s.ports p).ipQlimit := by
  by_cases hp : p = kmsg.remotePort
  · simp [hp, accept]
  · simp [accept, hp]

theorem accept_ipMsgcount (s : State) (kmsg : Kmsg) (p : ℕ) :
    ((s.accept kmsg).ports p).ipMsgcount =
      (s.ports p).ipMsgcount + if p = kmsg.remotePort then 1 else 0 := by
  by_cases hp : p = kmsg.remotePort
  · simp [hp, accept]
  · simp [accept, hp]

theorem RoomAt.sendPass {s : State} {p t : ℕ} {kmsg : Kmsg} (h : s.RoomAt p) (hw : s.Waits)
    (hport : s.Woken p t → p = kmsg.remotePort)
    (hcircular : s.Woken p t → kmsg.circular = true →
      (s.ports p).ipMsgcount < (s.ports p).ipQlimit → (s.ports p).ipBlocked = [])
    (alloc : ℕ → Bool) (option : SendOption) (timeout : ℕ) :
    (s.sendPass alloc t kmsg option timeout).1.RoomAt p := by
  obtain ⟨he, hwhy⟩ | ⟨hfull, he⟩ | ⟨kmsg', hremote, -, he⟩ :=
    sendPass_cases s alloc t kmsg option timeout
  · rw [he]
    refine h.of_agreesOff (.setPhase s t .idle) (not_woken_of_phase (by simp)) (fun hb => ?_)
    by_cases ht : s.Woken p t
    · refine .inl ?_
      by_contra hlt
      rw [hport ht] at hlt hb hcircular
      rcases hwhy with hfull | hcirc
      · exact hlt hfull
      · rw [hport ht] at ht
        exact hb (hcircular ht hcirc (not_le.mp hlt))
    · exact .inr ⟨hb, le_rfl, .inr ⟨ht, le_rfl⟩⟩
  · rw [he]
    refine h.of_agreesOff (t := t) ⟨fun u hu => by simp [hu], fun u hu _ => by simp [hu]⟩ ?_
      (fun hb => ?_)
    · rintro ⟨-, hstate⟩
      simp at hstate
    · by_cases hp : p = kmsg.remotePort
      · subst hp
        exact .inl (by simpa using hfull)
      · refine .inr ⟨by simpa [hp] using hb, by simp [hp], .inr ⟨mt hport hp, by simp [hp]⟩⟩
  · rw [he]
    have hq := (hw.accept kmsg').deliver_queueOnly alloc (s.home kmsg.remotePort) kmsg'
    have ha : AgreesOff t s (s.accept kmsg') := ⟨fun _ _ => rfl, fun _ _ _ => rfl⟩
    refine h.of_agreesOff ((ha.trans (hq.agreesOff (hw.accept kmsg') t)).trans (.setPhase _ t .idle))
      (not_woken_of_phase (by simp)) (fun hb => ?_)
    simp only [setPhase_ports, hq.blocked, hq.qlimit, hq.msgcount, accept_ipBlocked, accept_ipQlimit,
      accept_ipMsgcount] at hb ⊢
    by_cases hp : p = kmsg.remotePort
    · exact .inr ⟨hb, le_rfl, .inl (by simp [hremote, hp])⟩
    · exact .inr ⟨hb, le_rfl, .inr ⟨mt hport hp, by omega⟩⟩

theorem RoomAt.of_queueOnly {s s' : State} {p : ℕ} (h : s.RoomAt p) (hw : s.Waits)
    (hq : s.QueueOnly s') : s'.RoomAt p := by
  obtain ⟨ws, hws, hroom⟩ := h
  refine ⟨ws, hws.congr (hq.woken_iff hw p), ?_⟩
  rw [hq.blocked, hq.qlimit, hq.msgcount]
  exact hroom

theorem RoomAt.of_receiver {s s' : State} {p t : ℕ} (h : s.RoomAt p) (ha : AgreesOff t s s')
    (ht : ¬ s.Woken p t) (ht' : ¬ s'.Woken p t)
    (hports : (s'.ports p).ipBlocked = (s.ports p).ipBlocked ∧
      (s'.ports p).ipQlimit = (s.ports p).ipQlimit ∧
      (s'.ports p).ipMsgcount = (s.ports p).ipMsgcount) : s'.RoomAt p := by
  obtain ⟨hb, hq, hm⟩ := hports
  refine h.of_agreesOff ha ht' (fun hb' => .inr ⟨hb ▸ hb', hq.le, .inr ⟨ht, hm.ge⟩⟩)

/-! ## Receives, and the limit -/

theorem RoomAt.receivePass {s : State} {p t : ℕ} (h : s.RoomAt p) (ht : ¬ s.Woken p t)
    (alloc : Bool) (q : QueueName) (option : RcvOption) (maxSize timeout : ℕ)
    (list : Option ScatterList) :
    (s.receivePass alloc t q option maxSize timeout list).1.RoomAt p := by
  obtain he | ⟨-, he⟩ | ⟨kmsg, kmsgs, mr, -, he⟩ :=
    receivePass_cases s alloc t q option maxSize timeout list
  · rw [he]
    exact h.of_receiver (.setPhase s t .idle) ht (not_woken_of_phase (by simp)) ⟨rfl, rfl, rfl⟩
  · rw [he]
    exact h.of_receiver (t := t) ⟨fun u hu => by simp [hu], fun u hu _ => by simp [hu]⟩ ht
      (not_woken_of_phase (by simp)) ⟨rfl, rfl, rfl⟩
  · rw [he]
    refine h.of_receiver (t := t) ⟨fun u hu => by simp [hu, giveSeqno], fun _ _ _ => rfl⟩ ht
      (not_woken_of_phase (by simp)) ?_
    by_cases hp : p = kmsg.remotePort
    · simp [hp, giveSeqno]
    · simp [hp, giveSeqno]

theorem not_woken_of_mem {s : State} (hw : s.Waits) {p p' t : ℕ}
    (ht : t ∈ (s.ports p).ipBlocked) : ¬ s.Woken p' t := by
  rintro ⟨-, hstate⟩
  rw [(hw.senders p t ht).2] at hstate
  cases hstate

@[simp] theorem release_ipQlimit (s : State) (t : ℕ) (kmsg : Kmsg) (seqno p : ℕ) :
    ((s.release t kmsg seqno).ports p).ipQlimit = (s.ports p).ipQlimit := by
  by_cases hp : p = kmsg.remotePort
  · simp [hp, release]
  · simp [release, hp]

theorem release_ipMsgcount (s : State) (t : ℕ) (kmsg : Kmsg) (seqno p : ℕ) :
    ((s.release t kmsg seqno).ports p).ipMsgcount =
      (s.ports p).ipMsgcount - if p = kmsg.remotePort then 1 else 0 := by
  by_cases hp : p = kmsg.remotePort
  · simp [hp, release]
  · simp [release, hp]

theorem RoomAt.of_wake {s s' : State} {p p' : ℕ} (ts rest : List ℕ) (h : s.RoomAt p) (hw : s.Waits)
    (hb : (s.ports p').ipBlocked = ts ++ rest)
    (hwoken : ∀ u ∈ ts, s'.phase u = s.phase u ∧ (s'.threads u).ithState = .success)
    (hother : ∀ u, u ∉ ts → (s'.Woken p u ↔ s.Woken p u))
    (hsame : p ≠ p' → s'.ports p = s.ports p)
    (hrest : (s'.ports p').ipBlocked = rest)
    (hle : rest ≠ [] → (s'.ports p').ipQlimit + (s.ports p').ipMsgcount ≤
      (s.ports p').ipQlimit + (s'.ports p').ipMsgcount + ts.length) : s'.RoomAt p := by
  obtain ⟨ws, hws, hroom⟩ := h
  have hsending : ∀ u ∈ ts, u ∈ (s.ports p').ipBlocked := fun u hu => by simp [hb, hu]
  by_cases hp : p = p'
  · subst hp
    have hnd := hw.senders_nodup p
    rw [hb] at hnd
    refine ⟨ts ++ ws, hws.append (List.nodup_append.mp hnd).1 (fun u hu => ?_) hother, ?_⟩
    · refine ⟨not_woken_of_mem hw (hsending u hu), ?_, (hwoken u hu).2⟩
      rw [(hwoken u hu).1]
      exact (hw.senders p u (hsending u hu)).1
    · rw [hrest]
      intro hne
      have := hle hne
      have := hroom (by simp [hb, hne])
      simp only [List.length_append]
      omega
  · refine ⟨ws, hws.congr (fun u => ?_), ?_⟩
    · by_cases hu : u ∈ ts
      · refine iff_of_false ?_ (not_woken_of_mem hw (hsending u hu))
        obtain ⟨⟨k, option, timeout, hphase, hport⟩, -⟩ := hw.senders p' u (hsending u hu)
        rintro ⟨⟨k', option', timeout', hphase', hport'⟩, -⟩
        rw [(hwoken u hu).1, hphase] at hphase'
        cases hphase'
        exact hp (hport'.symm.trans hport)
      · exact hother u hu
    · rw [hsame hp]
      exact hroom

theorem RoomAt.finishReceive {s : State} {p t : ℕ} {mr : MachMsgReturn} {kmsg : Kmsg} {seqno : ℕ}
    (h : s.RoomAt p) (hw : s.Waits) (hphase : s.phase t = .taking mr kmsg seqno) :
    (s.finishReceive t kmsg seqno).RoomAt p := by
  have ht : ¬ s.Woken p t := not_woken_of_phase (by simp [hphase])
  unfold State.finishReceive
  obtain ⟨he, hwhy⟩ | ⟨sender, senders, hb, he⟩ :=
    wakeSender_cases (s.release t kmsg seqno) kmsg.remotePort
  · rw [he]
    refine h.of_agreesOff (t := t) ⟨fun u hu => by simp [hu, release], fun _ _ _ => rfl⟩
      (not_woken_of_phase (by simp)) (fun hb => ?_)
    by_cases hp : p = kmsg.remotePort
    · subst hp
      exact .inl (by simpa using hwhy.resolve_left hb)
    · simp only [setPhase_ports, release_ipBlocked, release_ipQlimit, release_ipMsgcount] at hb ⊢
      exact .inr ⟨hb, le_rfl, .inr ⟨ht, by simp [hp]⟩⟩
  · rw [he]
    rw [release_ipBlocked] at hb
    have hmem : sender ∈ (s.ports kmsg.remotePort).ipBlocked := by simp [hb]
    have hne : sender ≠ t := by
      rintro rfl
      obtain ⟨⟨_, _, _, hsending, -⟩, -⟩ := hw.senders _ sender hmem
      rw [hphase] at hsending
      cases hsending
    refine h.of_wake [sender] senders hw hb ?_ ?_ ?_ ?_ ?_
    · simp [hne, release]
    · intro u hu
      by_cases hut : u = t
      · subst hut
        exact iff_of_false (not_woken_of_phase (by simp)) ht
      · have hu : u ≠ sender := by simpa using hu
        simp [Woken, hu, hut, release]
    · intro hp
      simp [hp, release]
    · simp
    · intro _
      simp [release]
      omega

theorem RoomAt.setQlimit {s : State} {p : ℕ} (h : s.RoomAt p) (hw : s.Waits) (p' qlimit : ℕ) :
    (s.ipcPortSetQlimit p' qlimit).RoomAt p := by
  have hwake := List.take_append_drop (qlimit - (s.ports p').ipQlimit) (s.ports p').ipBlocked
  refine h.of_wake _ _ hw hwake.symm ?_ ?_ ?_ ?_ ?_
  · intro u hu
    simp [ipcPortSetQlimit, wakeAll_eq, hu]
  · intro u hu
    simp [Woken, ipcPortSetQlimit, wakeAll_eq, hu]
  · intro hp
    simp [ipcPortSetQlimit, wakeAll_eq, hp]
  · simp [ipcPortSetQlimit]
  · intro hrest
    have hlen : qlimit - (s.ports p').ipQlimit < (s.ports p').ipBlocked.length := by
      by_contra hge
      exact hrest (List.drop_eq_nil_of_le (by omega))
    simp [ipcPortSetQlimit, List.length_take]
    omega

/-! ## Runs -/

/-- A woken sender whose message is destroyed because it is circular leaves its turn unused. The
step is not of this kind, or nobody is left to take the turn. -/
def turnUsed (s : State) : Event → Bool
  | .resumeSend t _ _ =>
    match s.phase t with
    | .sending kmsg _ _ =>
      let port := s.ports kmsg.remotePort
      ¬ ((s.threads t).ithState = .success ∧ kmsg.circular ∧ port.ipMsgcount < port.ipQlimit ∧
        port.ipBlocked ≠ [])
    | _ => true
  | _ => true

theorem unblock_agreesOff (s : State) (p t : ℕ) : AgreesOff t s (s.unblock p t) :=
  ⟨fun _ _ => rfl, fun _ _ _ => rfl⟩

theorem RoomAt.unblock {s : State} {p t : ℕ} (h : s.RoomAt p) (ht : ¬ s.Woken p t) (p' : ℕ) :
    (s.unblock p' t).RoomAt p := by
  refine h.of_agreesOff (unblock_agreesOff s p' t) ht (fun hb => .inr ?_)
  rw [unblock_ports] at hb ⊢
  split at hb
  case isTrue hp =>
    subst hp
    simp only [if_true]
    refine ⟨fun hnil => hb (by simp [hnil]), le_rfl, .inr ⟨ht, le_rfl⟩⟩
  case isFalse hp =>
    simp only [if_neg hp]
    exact ⟨hb, le_rfl, .inr ⟨ht, le_rfl⟩⟩

theorem RoomAt.moves {s s' : State} {e : Event} {p : ℕ} (h : s.RoomAt p) (hw : s.Waits)
    (hused : s.turnUsed e = true) (hs : s.Moves e s') : s'.RoomAt p := by
  cases hs with
  | send hphase =>
    rename_i t kmsg option timeout alloc
    have ht : ¬ s.Woken p t := not_woken_of_phase (by simp [hphase])
    exact h.sendPass hw (fun hwoken => absurd hwoken ht) (fun hwoken => absurd hwoken ht) _ _ _
  | resumeSend hphase hwoken =>
    refine h.sendPass hw ?_ ?_ _ _ _
    · rintro ⟨⟨_, _, _, hp, hport⟩, -⟩
      rw [hphase] at hp
      cases hp
      exact hport.symm
    · rintro ⟨⟨_, _, _, hp, hport⟩, -⟩ hcircular hroom
      rw [hphase] at hp
      cases hp
      rw [← hport] at hroom ⊢
      simp only [turnUsed, hphase, decide_eq_true_eq] at hused
      by_contra hblocked
      exact hused ⟨hwoken, hcircular, hroom, hblocked⟩
  | interruptSend hphase hasleep =>
    have ht : ¬ s.Woken p _ := fun hwoken => hasleep hwoken.2
    exact (h.unblock ht _).of_receiver (.setPhase _ _ .idle) ht (not_woken_of_phase (by simp))
      ⟨rfl, rfl, rfl⟩
  | timeoutSend hphase hasleep =>
    have ht : ¬ s.Woken p _ := fun hwoken => hasleep hwoken.2
    exact (h.unblock ht _).sendPass (hw.unblock hphase).1 (fun hwoken => absurd hwoken ht)
      (fun hwoken => absurd hwoken ht) _ _ _
  | receive hphase hq => exact h.receivePass (not_woken_of_phase (by simp [hphase])) _ _ _ _ _ _
  | resumeReceive hphase hdecode =>
    rename_i t w alloc q timeout o
    have ht : ¬ s.Woken p t := not_woken_of_phase (by simp [hphase])
    unfold finishQueue
    split
    · exact h.of_receiver (.setPhase s t _) ht (not_woken_of_phase (by simp)) ⟨rfl, rfl, rfl⟩
    · exact h.of_receiver (.setPhase s t _) ht (not_woken_of_phase (by simp)) ⟨rfl, rfl, rfl⟩
  | interruptReceive hphase hdecode =>
    rename_i t w alloc q timeout
    have ht : ¬ s.Woken p t := not_woken_of_phase (by simp [hphase])
    have hl : AgreesOff t s (s.leaveQueue q t) := ⟨fun _ _ => rfl, fun _ _ _ => rfl⟩
    exact h.of_receiver (hl.trans (.setPhase _ t .idle)) ht (not_woken_of_phase (by simp))
      ⟨rfl, rfl, rfl⟩
  | timeoutReceive hphase hdecode =>
    rename_i t w alloc q timeout
    have ht : ¬ s.Woken p t := not_woken_of_phase (by simp [hphase])
    have hl : (s.leaveQueue q t).RoomAt p :=
      h.of_receiver (t := t) ⟨fun _ _ => rfl, fun _ _ _ => rfl⟩ ht ht ⟨rfl, rfl, rfl⟩
    exact hl.receivePass ht _ _ _ _ _ _
  | finishReceive hphase => exact h.finishReceive hw hphase
  | psetAdd hp => exact h.of_queueOnly hw (hw.psetAdd_queueOnly _ _ _)
  | psetRemove hp => exact h.of_queueOnly hw (hw.psetRemove_queueOnly _ _ _)
  | psetMove => exact h.of_queueOnly hw (hw.psetMove_queueOnly _ _ _ _)
  | psetDestroy => exact h.of_queueOnly hw (hw.psetDestroy_queueOnly _)
  | setQlimit => exact h.setQlimit hw _ _

theorem Initial.roomAt {s : State} (h : s.Initial) (p : ℕ) : s.RoomAt p := by
  refine ⟨[], .nil (fun t => not_woken_of_phase (by simp [h.phase])), fun hb => ?_⟩
  exact absurd (h.blocked p) hb

/-- In a run in which no turn is lost no sender is stranded. -/
theorem no_sender_stranded {s₀ s : State} {es : List Event} (h₀ : s₀.Initial)
    (hr : RunUnder (fun s e => s.turnUsed e = true) Steps s₀ es s) (p : ℕ) : s.NoneStranded p := by
  have hinv : s.Waits ∧ s.RoomAt p :=
    RunUnder.invariant (I := fun s => s.Waits ∧ s.RoomAt p)
      (fun s e s' h hused hs => ⟨h.1.moves hs.moves, h.2.moves h.1 hused hs.moves⟩)
      hr ⟨h₀.waits, h₀.roomAt p⟩
  exact hinv.2.noneStranded

end State

private def shortKmsg (circular : Bool) : Kmsg := ⟨0, 0, false, false, false, circular, 24, []⟩

private def shortReceive (t : ℕ) : Event :=
  .receive t (.port 0) ⟨false, false, false, 8⟩ 64 0 none true

/-- The state at the end of these events. -/
private def runEnd (es : List Event) : State :=
  (es.foldlM State.step (State.start 1)).getD (State.start 1)

private def plainFill : List Event :=
  [.send 1 (shortKmsg false) ⟨false, false⟩ 0 (fun _ => true),
    .send 2 (shortKmsg false) ⟨false, false⟩ 0 (fun _ => true),
    shortReceive 0, .finishReceive 0, .resumeSend 2 .awakened (fun _ => true),
    .send 3 (shortKmsg false) ⟨false, false⟩ 0 (fun _ => true)]

/-- The second sender takes the room that the receiver makes, and the third one is blocked. -/
theorem no_sender_stranded_plain :
    RunUnder (fun s e => State.turnUsed s e = true) State.Steps (State.start 1) plainFill
      (runEnd plainFill) ∧ ((runEnd plainFill).ports 0).ipBlocked = [3] ∧
      (runEnd plainFill).NoneStranded 0 := by
  have hr : RunUnder (fun s e => State.turnUsed s e = true) State.Steps (State.start 1) plainFill
      (runEnd plainFill) := RunUnder.of_foldlM rfl
  exact ⟨hr, by decide, State.no_sender_stranded (State.start_initial 1) hr 0⟩

private def circularFill : List Event :=
  [.send 1 (shortKmsg false) ⟨false, false⟩ 0 (fun _ => true),
    .send 2 (shortKmsg true) ⟨false, false⟩ 0 (fun _ => true),
    .send 3 (shortKmsg false) ⟨false, false⟩ 0 (fun _ => true),
    shortReceive 0, .finishReceive 0, .resumeSend 2 .awakened (fun _ => true)]

/-- The sender of a circular message is woken for the only room there is, and destroys its
message. The sender behind it stays blocked at an empty queue. -/
theorem circular_strands_sender :
    Run State.Steps (State.start 1) circularFill (runEnd circularFill) ∧
    ((runEnd circularFill).ports 0).ipBlocked = [3] ∧
    ((runEnd circularFill).ports 0).ipMsgcount = 0 ∧
    ((runEnd circularFill).ports 0).ipQlimit = 1 ∧
    (∀ t, ¬ (runEnd circularFill).Woken 0 t) ∧ ¬ (runEnd circularFill).NoneStranded 0 := by
  have hnone : ∀ t, ¬ (runEnd circularFill).Woken 0 t := by
    intro t
    match t with
    | 0 | 1 | 2 => exact State.not_woken_of_phase (fun _ _ _ h => (by cases h))
    | 3 => exact fun h => (by cases h.2)
    | n + 4 => exact State.not_woken_of_phase (fun _ _ _ h => (by cases h))
  refine ⟨Run.of_foldlM rfl, by decide, by decide, by decide, hnone, fun h => ?_⟩
  have hle := h (by decide)
  have hempty : {t | (runEnd circularFill).Woken 0 t} = ∅ := Set.eq_empty_of_forall_notMem hnone
  have hcounts : ((runEnd circularFill).ports 0).ipQlimit = 1 ∧
      ((runEnd circularFill).ports 0).ipMsgcount = 0 := by decide
  rw [hempty, Set.encard_empty, hcounts.1, hcounts.2] at hle
  simp at hle

end Darwin.Ipc.MessageQueue
