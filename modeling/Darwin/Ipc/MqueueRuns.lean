import Darwin.Ipc.MqueueArrival
import Darwin.Lib.Run

/-! # Threads that send and receive

The system takes one locked section after the other. A section that passes from the lock of a
port to the lock of its queue counts as one step: nobody else can reach the queue in between.
-/
namespace Darwin.Ipc.MessageQueue
open Darwin.Lib Function List

/-! ## The system -/

inductive Event where
  | send (t : ℕ) (kmsg : Kmsg) (option : SendOption) (timeout : ℕ) (alloc : ℕ → Bool)
  | resumeSend (t : ℕ) (w : WaitResult) (alloc : ℕ → Bool)
  | receive (t : ℕ) (q : QueueName) (option : RcvOption) (maxSize timeout : ℕ)
      (list : Option ScatterList) (alloc : Bool)
  | resumeReceive (t : ℕ) (w : WaitResult) (alloc : Bool)
  | finishReceive (t : ℕ)
  | psetAdd (ps p : ℕ) (alloc : ℕ → Bool)
  | psetRemove (ps p : ℕ) (alloc : ℕ → Bool)
  | psetMove (p : ℕ) (nset : Option ℕ) (alloc alloc' : ℕ → Bool)
  | psetDestroy (ps : ℕ)
  | setQlimit (p qlimit : ℕ)

namespace State

/-- `ipc_mqueue_copyin` finds the queue: the port is in no set, or the set is active. -/
def receivable (s : State) : QueueName → Bool
  | .port p => (s.ports p).ipPset = none
  | .pset ps => s.ipsActive ps

/-- A step of the system; there is none where the event cannot happen or the kernel panics. -/
def step (s : State) : Event → Option State
  | .send t kmsg option timeout alloc =>
    if s.phase t = .idle then some (s.sendPass alloc t kmsg option timeout).1 else none
  | .resumeSend t w alloc =>
    match s.phase t with
    | .sending kmsg option timeout =>
      (s.resumeSend alloc t w kmsg option timeout).map Prod.fst
    | _ => none
  | .receive t q option maxSize timeout list alloc =>
    if s.phase t = .idle ∧ s.receivable q then
      some (s.receivePass alloc t q option maxSize timeout list).1
    else none
  | .resumeReceive t w alloc =>
    match s.phase t with
    | .receiving q _ =>
      let r := s.resumeReceive alloc t w q
      if r.2.map Returned.outcome = some .panic then none else some r.1
    | _ => none
  | .finishReceive t =>
    match s.phase t with
    | .taking _ kmsg seqno => some (s.finishReceive t kmsg seqno)
    | _ => none
  | .psetAdd ps p alloc =>
    if s.ipsActive ps ∧ (s.ports p).ipPset = none then some (s.ipcPsetAdd alloc ps p) else none
  | .psetRemove ps p alloc =>
    if (s.ports p).ipPset = some ps then some (s.ipcPsetRemove alloc ps p) else none
  | .psetMove p nset alloc alloc' =>
    if nset.all s.ipsActive then some (s.ipcPsetMove alloc alloc' p nset) else none
  | .psetDestroy ps => if s.ipsActive ps then some (s.ipcPsetDestroy ps) else none
  | .setQlimit p qlimit => some (s.ipcPortSetQlimit p qlimit)

/-- The states a run starts from: no message and no waiting thread anywhere. -/
structure Initial (s : State) : Prop where
  mqueue : ∀ q, s.mqueue q = ⟨[], []⟩
  msgcount : ∀ p, (s.ports p).ipMsgcount = 0
  blocked : ∀ p, (s.ports p).ipBlocked = []
  seqno : ∀ p, (s.ports p).ipSeqno < 2 ^ 32
  phase : ∀ t, s.phase t = .idle
  log : s.log = ⟨fun _ => [], fun _ => [], fun _ => []⟩

theorem start_initial (qlimit : ℕ) : (start qlimit).Initial where
  mqueue _ := rfl
  msgcount _ := rfl
  blocked _ := rfl
  seqno _ := Nat.two_pow_pos 32
  phase _ := rfl
  log := rfl

abbrev Steps (s : State) (e : Event) (s' : State) : Prop := s.step e = some s'

/-! ## Who waits where -/

/-- Thread `t` is in a queue of waiting threads. -/
def Waiting (s : State) (t : ℕ) : Prop :=
  (∃ q, t ∈ (s.mqueue q).imqThreads) ∨ ∃ p, t ∈ (s.ports p).ipBlocked

/-- A thread waits in one queue at most, the one for what it is doing. -/
structure Waits (s : State) : Prop where
  receivers : ∀ q, ∀ t ∈ (s.mqueue q).imqThreads,
    (∃ timeout, s.phase t = .receiving q timeout) ∧ (s.threads t).ithState = .rcvInProgress
  receivers_nodup : ∀ q, (s.mqueue q).imqThreads.Nodup
  senders : ∀ p, ∀ t ∈ (s.ports p).ipBlocked,
    (∃ kmsg option timeout, s.phase t = .sending kmsg option timeout ∧ kmsg.remotePort = p) ∧
      (s.threads t).ithState = .sendInProgress
  senders_nodup : ∀ p, (s.ports p).ipBlocked.Nodup

theorem Initial.waits {s : State} (h : s.Initial) : s.Waits where
  receivers q t ht := by simp [h.mqueue] at ht
  receivers_nodup q := by simp [h.mqueue]
  senders p t ht := by simp [h.blocked] at ht
  senders_nodup p := by simp [h.blocked]

namespace Waits
variable {s s' : State} {t : ℕ}

theorem not_waiting_of_phase (h : s.Waits) (hr : ∀ q timeout, s.phase t ≠ .receiving q timeout)
    (hs : ∀ kmsg option timeout, s.phase t ≠ .sending kmsg option timeout) : ¬ s.Waiting t := by
  rintro (⟨q, ht⟩ | ⟨p, ht⟩)
  · obtain ⟨⟨timeout, hp⟩, -⟩ := h.receivers q t ht
    exact hr q timeout hp
  · obtain ⟨⟨kmsg, option, timeout, hp, -⟩, -⟩ := h.senders p t ht
    exact hs kmsg option timeout hp

theorem not_waiting_of_state (h : s.Waits) (hr : (s.threads t).ithState ≠ .rcvInProgress)
    (hs : (s.threads t).ithState ≠ .sendInProgress) : ¬ s.Waiting t := by
  rintro (⟨q, ht⟩ | ⟨p, ht⟩)
  · exact hr (h.receivers q t ht).2
  · exact hs (h.senders p t ht).2

theorem eq_of_mem_receivers (h : s.Waits) {q q' : QueueName} (ht : t ∈ (s.mqueue q).imqThreads)
    (ht' : t ∈ (s.mqueue q').imqThreads) : q = q' := by
  obtain ⟨⟨_, hp⟩, -⟩ := h.receivers q t ht
  obtain ⟨⟨_, hp'⟩, -⟩ := h.receivers q' t ht'
  rw [hp] at hp'
  cases hp'
  rfl

theorem eq_of_mem_senders (h : s.Waits) {p p' : ℕ} (ht : t ∈ (s.ports p).ipBlocked)
    (ht' : t ∈ (s.ports p').ipBlocked) : p = p' := by
  obtain ⟨⟨_, _, _, hp, hr⟩, -⟩ := h.senders p t ht
  obtain ⟨⟨_, _, _, hp', hr'⟩, -⟩ := h.senders p' t ht'
  rw [hp] at hp'
  cases hp'
  exact hr.symm.trans hr'

theorem not_mem_senders (h : s.Waits) {q : QueueName} {p : ℕ}
    (ht : t ∈ (s.mqueue q).imqThreads) : t ∉ (s.ports p).ipBlocked := by
  intro ht'
  have hq := (h.receivers q t ht).2
  rw [(h.senders p t ht').2] at hq
  cases hq

theorem shrink (h : s.Waits)
    (hq : ∀ q, (s'.mqueue q).imqThreads.Sublist (s.mqueue q).imqThreads)
    (hb : ∀ p, (s'.ports p).ipBlocked.Sublist (s.ports p).ipBlocked)
    (hsame : ∀ t, s'.Waiting t →
      s'.phase t = s.phase t ∧ (s'.threads t).ithState = (s.threads t).ithState) : s'.Waits where
  receivers q t ht := by
    rw [(hsame t (.inl ⟨q, ht⟩)).1, (hsame t (.inl ⟨q, ht⟩)).2]
    exact h.receivers q t ((hq q).subset ht)
  receivers_nodup q := (h.receivers_nodup q).sublist (hq q)
  senders p t ht := by
    rw [(hsame t (.inr ⟨p, ht⟩)).1, (hsame t (.inr ⟨p, ht⟩)).2]
    exact h.senders p t ((hb p).subset ht)
  senders_nodup p := (h.senders_nodup p).sublist (hb p)

theorem setPhase (h : s.Waits) (ht : ¬ s.Waiting t) (ph : Phase) : (s.setPhase t ph).Waits := by
  refine h.shrink (fun _ => List.Sublist.refl _) (fun _ => List.Sublist.refl _) (fun u hu => ⟨?_, rfl⟩)
  refine update_of_ne ?_ _ _
  rintro rfl
  exact ht hu

end Waits

/-! ## Steps on queues -/

/-- Between the states, receivers have been woken and messages have changed places. -/
structure QueueOnly (s s' : State) : Prop where
  phase : s'.phase = s.phase
  receivers : ∀ q, (s'.mqueue q).imqThreads.Sublist (s.mqueue q).imqThreads
  others : ∀ t, (∀ q, t ∉ (s.mqueue q).imqThreads) → s'.threads t = s.threads t
  still : ∀ q, ∀ t ∈ (s'.mqueue q).imqThreads, s'.threads t = s.threads t
  msgcount : ∀ p, (s'.ports p).ipMsgcount = (s.ports p).ipMsgcount
  qlimit : ∀ p, (s'.ports p).ipQlimit = (s.ports p).ipQlimit
  blocked : ∀ p, (s'.ports p).ipBlocked = (s.ports p).ipBlocked

namespace QueueOnly
variable {s s' s'' : State}

theorem refl (s : State) : s.QueueOnly s :=
  ⟨rfl, fun _ => List.Sublist.refl _, fun _ _ => rfl, fun _ _ _ => rfl, fun _ => rfl, fun _ => rfl,
    fun _ => rfl⟩

theorem trans (h : s.QueueOnly s') (h' : s'.QueueOnly s'') : s.QueueOnly s'' where
  phase := h'.phase.trans h.phase
  receivers q := (h'.receivers q).trans (h.receivers q)
  others t ht :=
    (h'.others t (fun q hq => ht q ((h.receivers q).subset hq))).trans (h.others t ht)
  still q t ht := (h'.still q t ht).trans (h.still q t ((h'.receivers q).subset ht))
  msgcount p := (h'.msgcount p).trans (h.msgcount p)
  qlimit p := (h'.qlimit p).trans (h.qlimit p)
  blocked p := (h'.blocked p).trans (h.blocked p)

theorem waits (h : s.QueueOnly s') (hw : s.Waits) : s'.Waits := by
  refine hw.shrink h.receivers (fun p => by rw [h.blocked p]) (fun t ht => ⟨by rw [h.phase], ?_⟩)
  rcases ht with ⟨q, ht⟩ | ⟨p, ht⟩
  · rw [h.still q t ht]
  · rw [h.blocked p] at ht
    rw [h.others t (fun q hq => hw.not_mem_senders hq ht)]

theorem threads_of_phase (h : s.QueueOnly s') (hw : s.Waits) {t : ℕ}
    (hr : ∀ q timeout, s.phase t ≠ .receiving q timeout) : s'.threads t = s.threads t := by
  refine h.others t (fun q hq => ?_)
  obtain ⟨⟨timeout, hp⟩, -⟩ := hw.receivers q t hq
  exact hr q timeout hp

end QueueOnly

@[simp] theorem delivered_phase {s : State} {q : QueueName} {kmsg : Kmsg} {rest : List ℕ}
    {threads' : ℕ → Thread} {taker : Option ℕ} :
    (s.delivered q kmsg rest threads' taker).phase = s.phase := by
  cases taker <;> rfl

theorem delivered_mqueue_of_ne {s : State} {q q' : QueueName} {kmsg : Kmsg} {rest : List ℕ}
    {threads' : ℕ → Thread} {taker : Option ℕ} (hq : q' ≠ q) :
    (s.delivered q kmsg rest threads' taker).mqueue q' = s.mqueue q' := by
  cases taker <;> exact update_of_ne hq _ _

theorem delivered_ports {s : State} {q : QueueName} {kmsg : Kmsg} {rest : List ℕ}
    {threads' : ℕ → Thread} {taker : Option ℕ} (p : ℕ) :
    ∃ seqno, (s.delivered q kmsg rest threads' taker).ports p =
      { s.ports p with ipSeqno := seqno } := by
  cases taker with
  | none => exact ⟨_, rfl⟩
  | some t =>
    by_cases hp : p = kmsg.remotePort
    · subst hp
      exact ⟨_, update_self ..⟩
    · exact ⟨_, update_of_ne hp _ _⟩

theorem Waits.deliver_queueOnly {s : State} (h : s.Waits) (alloc : ℕ → Bool) (q : QueueName)
    (kmsg : Kmsg) : s.QueueOnly (s.deliver alloc q kmsg) := by
  obtain ⟨refused, rest, taker, threads', ho, he⟩ := deliver_cases alloc q kmsg (h.receivers_nodup q)
  have hnd := h.receivers_nodup q
  rw [ho.split] at hnd
  have hmem : ∀ t, t ∈ refused ∨ t ∈ taker → t ∈ (s.mqueue q).imqThreads := by
    intro t ht
    rw [ho.split]
    rcases ht with ht | ht
    · exact mem_append_left _ ht
    · exact mem_append_right _ (mem_append_left _ (by simpa using ht))
  have hother : ∀ t, t ∉ (s.mqueue q).imqThreads → threads' t = s.threads t := fun t ht =>
    ho.others t (fun hr => ht (hmem t (.inl hr))) (fun hr => ht (hmem t (.inr hr)))
  rw [he]
  constructor
  · exact delivered_phase
  · intro q'
    by_cases hq : q' = q
    · rw [hq, delivered_imqThreads, ho.split]
      exact ((sublist_append_right _ _).trans (sublist_append_right _ _))
    · rw [delivered_mqueue_of_ne hq]
  · intro t ht
    rw [delivered_threads, hother t (ht q)]
  · intro q' t ht
    rw [delivered_threads]
    by_cases hq : q' = q
    · rw [hq, delivered_imqThreads] at ht
      have hdisj := (nodup_append.mp hnd).2.2
      have hdisj' := (nodup_append.mp (nodup_append.mp hnd).2.1).2.2
      refine ho.others t (fun hr => ?_) (fun hr => ?_)
      · exact hdisj t hr t (mem_append_right _ ht) rfl
      · exact hdisj' t (by simpa using hr) t ht rfl
    · rw [delivered_mqueue_of_ne hq] at ht
      exact hother t (fun ht' => hq (h.eq_of_mem_receivers ht ht'))
  all_goals
    intro p
    obtain ⟨seqno, hp⟩ := @delivered_ports s q kmsg rest threads' taker p
    rw [hp]

theorem Waits.foldl_deliver_queueOnly {s : State} (h : s.Waits) (alloc : ℕ → Bool) (q : QueueName)
    (kmsgs : List Kmsg) :
    s.QueueOnly (kmsgs.foldl (fun s kmsg => s.deliver alloc q kmsg) s) := by
  induction kmsgs generalizing s with
  | nil => exact .refl s
  | cons kmsg kmsgs ih =>
    have hd := h.deliver_queueOnly alloc q kmsg
    exact hd.trans (ih (hd.waits h))

theorem setMqueue_queueOnly (s : State) (q : QueueName) (kmsgs : List Kmsg) :
    s.QueueOnly (s.setMqueue q { s.mqueue q with imqMessages := kmsgs }) := by
  have hthreads : ∀ q', ((s.setMqueue q { s.mqueue q with imqMessages := kmsgs }).mqueue q').imqThreads =
      (s.mqueue q').imqThreads := by
    intro q'
    by_cases hq : q' = q
    · simp [setMqueue, hq]
    · simp [setMqueue, hq]
  exact ⟨rfl, fun q' => by rw [hthreads], fun _ _ => rfl, fun _ _ _ => rfl, fun _ => rfl,
    fun _ => rfl, fun _ => rfl⟩

theorem setPort_pset_queueOnly (s : State) (p : ℕ) (pset : Option ℕ) :
    s.QueueOnly (s.setPort p { s.ports p with ipPset := pset }) := by
  have hport : ∀ p', (s.setPort p { s.ports p with ipPset := pset }).ports p' =
      { s.ports p' with
        ipPset := ((s.setPort p { s.ports p with ipPset := pset }).ports p').ipPset } := by
    intro p'
    by_cases hp : p' = p
    · simp [setPort, hp]
    · simp [setPort, hp]
  refine ⟨rfl, fun _ => List.Sublist.refl _, fun _ _ => rfl, fun _ _ _ => rfl, ?_, ?_, ?_⟩
  all_goals
    intro p'
    rw [hport p']

theorem Waits.move_queueOnly {s : State} (h : s.Waits) (alloc : ℕ → Bool) (dest source : QueueName)
    (p : ℕ) : s.QueueOnly (s.ipcMqueueMove alloc dest source p) := by
  have hs := setMqueue_queueOnly s source
    ((s.mqueue source).imqMessages.filter (fun kmsg => kmsg.remotePort ≠ p))
  exact hs.trans ((hs.waits h).foldl_deliver_queueOnly alloc dest _)

theorem wakeAll_eq (s : State) (mr : MachMsgReturn) (ts : List ℕ) :
    s.wakeAll mr ts = { s with threads := fun t =>
      if t ∈ ts then { s.threads t with ithState := mr } else s.threads t } := by
  unfold wakeAll
  induction ts generalizing s with
  | nil => simp
  | cons t ts ih =>
    rw [foldl_cons, ih]
    simp only [setThread, State.mk.injEq, true_and, and_true]
    funext u
    by_cases hu : u = t
    · subst hu
      by_cases hts : u ∈ ts <;> simp [hts]
    · simp [hu]

theorem Waits.changed_queueOnly {s : State} (h : s.Waits) (q : QueueName) (mr : MachMsgReturn) :
    s.QueueOnly (s.ipcMqueueChanged q mr) := by
  have hq' : ∀ q', q' ≠ q → (s.ipcMqueueChanged q mr).mqueue q' = s.mqueue q' := by
    intro q' hq
    simp [ipcMqueueChanged, wakeAll_eq, setMqueue, hq]
  have hq : ((s.ipcMqueueChanged q mr).mqueue q).imqThreads = [] := by
    simp [ipcMqueueChanged, wakeAll_eq, setMqueue]
  have ht : ∀ t, t ∉ (s.mqueue q).imqThreads →
      (s.ipcMqueueChanged q mr).threads t = s.threads t := by
    intro t ht
    simp [ipcMqueueChanged, wakeAll_eq, setMqueue, ht]
  have hports : (s.ipcMqueueChanged q mr).ports = s.ports := by
    simp [ipcMqueueChanged, wakeAll_eq, setMqueue]
  refine ⟨?_, ?_, fun t hn => ht t (hn q), ?_, ?_, ?_, ?_⟩
  · simp [ipcMqueueChanged, wakeAll_eq, setMqueue]
  · intro q'
    by_cases he : q' = q
    · rw [he, hq]
      exact nil_sublist _
    · rw [hq' q' he]
  · intro q' t hmem
    by_cases he : q' = q
    · rw [he, hq] at hmem
      cases hmem
    · rw [hq' q' he] at hmem
      exact ht t (fun hmem' => he (h.eq_of_mem_receivers hmem hmem'))
  all_goals
    intro p
    rw [hports]

theorem Waits.psetAdd_queueOnly {s : State} (h : s.Waits) (alloc : ℕ → Bool) (ps p : ℕ) :
    s.QueueOnly (s.ipcPsetAdd alloc ps p) := by
  have h1 := setPort_pset_queueOnly s p (some ps)
  have h2 := (h1.waits h).move_queueOnly alloc (.pset ps) (.port p) p
  exact h1.trans (h2.trans ((h2.waits (h1.waits h)).changed_queueOnly (.port p) .rcvPortChanged))

theorem Waits.psetRemove_queueOnly {s : State} (h : s.Waits) (alloc : ℕ → Bool) (ps p : ℕ) :
    s.QueueOnly (s.ipcPsetRemove alloc ps p) := by
  have h1 := setPort_pset_queueOnly s p none
  exact h1.trans ((h1.waits h).move_queueOnly alloc (.port p) (.pset ps) p)

theorem Waits.psetMove_queueOnly {s : State} (h : s.Waits) (alloc alloc' : ℕ → Bool) (p : ℕ)
    (nset : Option ℕ) : s.QueueOnly (s.ipcPsetMove alloc alloc' p nset) := by
  unfold ipcPsetMove
  split
  · exact .refl s
  · exact h.psetAdd_queueOnly ..
  · exact h.psetRemove_queueOnly ..
  · split
    · exact .refl s
    · rename_i oset nset _ _
      have h1 := h.psetRemove_queueOnly alloc oset p
      exact h1.trans ((h1.waits h).psetAdd_queueOnly alloc' nset p)

theorem Waits.psetDestroy_queueOnly {s : State} (h : s.Waits) (ps : ℕ) :
    s.QueueOnly (s.ipcPsetDestroy ps) := by
  have h1 : s.QueueOnly { s with ipsActive := update s.ipsActive ps false } :=
    ⟨rfl, fun _ => List.Sublist.refl _, fun _ _ => rfl, fun _ _ _ => rfl, fun _ => rfl,
      fun _ => rfl, fun _ => rfl⟩
  exact h1.trans ((h1.waits h).changed_queueOnly (.pset ps) .rcvPortDied)

/-! ## Steps of senders and receivers -/

theorem sendPass_cases (s : State) (alloc : ℕ → Bool) (t : ℕ) (kmsg : Kmsg) (option : SendOption)
    (timeout : ℕ) :
    (s.sendPass alloc t kmsg option timeout).1 = s.setPhase t .idle ∧
      ((s.ports kmsg.remotePort).ipQlimit ≤ (s.ports kmsg.remotePort).ipMsgcount ∨
        kmsg.circular = true) ∨
    (s.ports kmsg.remotePort).ipQlimit ≤ (s.ports kmsg.remotePort).ipMsgcount ∧
      (s.sendPass alloc t kmsg option timeout).1 =
        ((s.setPort kmsg.remotePort { s.ports kmsg.remotePort with
          ipBlocked := (s.ports kmsg.remotePort).ipBlocked ++ [t] }).setThread t
          { s.threads t with ithState := .sendInProgress }).setPhase t
            (.sending kmsg option timeout) ∨
    ∃ kmsg', kmsg'.remotePort = kmsg.remotePort ∧
      kmsg'.serial = (s.log.accepted kmsg.remotePort).length ∧
      (s.sendPass alloc t kmsg option timeout).1 =
        ((s.accept kmsg').deliver alloc (s.home kmsg.remotePort) kmsg').setPhase t .idle := by
  unfold sendPass
  by_cases hroom : (s.ports kmsg.remotePort).ipMsgcount < (s.ports kmsg.remotePort).ipQlimit ∨
      option.always = true ∨ kmsg.sendOnce = true
  · by_cases hcircular : kmsg.circular = true
    · exact .inl ⟨by simp [hroom, hcircular], .inr hcircular⟩
    · refine .inr (.inr ⟨{ kmsg with serial := (s.log.accepted kmsg.remotePort).length }, rfl, rfl, ?_⟩)
      simp [hroom, hcircular]
  · have hfull : (s.ports kmsg.remotePort).ipQlimit ≤ (s.ports kmsg.remotePort).ipMsgcount := by
      by_contra h
      exact hroom (.inl (by omega))
    by_cases htimeout : option.timeout = true ∧ timeout = 0
    · exact .inl ⟨by simp [hroom, htimeout], .inl hfull⟩
    · exact .inr (.inl ⟨hfull, by simp [hroom, htimeout]⟩)

theorem receivePass_cases (s : State) (alloc : Bool) (t : ℕ) (q : QueueName) (option : RcvOption)
    (maxSize timeout : ℕ) (list : Option ScatterList) :
    (s.receivePass alloc t q option maxSize timeout list).1 = s.setPhase t .idle ∨
    (s.mqueue q).imqMessages = [] ∧
      (s.receivePass alloc t q option maxSize timeout list).1 =
        ((s.setMqueue q { s.mqueue q with imqThreads := (s.mqueue q).imqThreads ++ [t] }).setThread t
          { s.threads t with
            ithState := .rcvInProgress, ithMsize := maxSize, ithRcvOption := option
            ithList := list }).setPhase t (.receiving q timeout) ∨
    ∃ kmsg kmsgs mr, (s.mqueue q).imqMessages = kmsg :: kmsgs ∧
      (s.receivePass alloc t q option maxSize timeout list).1 =
        ((s.setMqueue q { s.mqueue q with imqMessages := kmsgs }).giveSeqno t kmsg).setPhase t
          (.taking mr kmsg (s.ports kmsg.remotePort).ipSeqno) := by
  unfold receivePass
  split
  case h_1 kmsg kmsgs hq =>
    dsimp only
    split
    case h_1 mr k n ho =>
      obtain ⟨rfl, rfl⟩ := receiveFirst_message ho
      refine .inr (.inr ⟨kmsg, kmsgs, mr, hq, ?_⟩)
      rw [ho]
      rfl
    case h_2 ho =>
      refine .inl ?_
      unfold finishQueue
      split
      · exact absurd ‹_› (ho _ _ _)
      · rfl
  case h_2 hq =>
    split
    · exact .inl rfl
    · exact .inr (.inl ⟨hq, rfl⟩)

/-! ## Waiting in every state of a run -/

theorem QueueOnly.not_waiting {s s' : State} (h : s.QueueOnly s') {t : ℕ} (ht : ¬ s.Waiting t) :
    ¬ s'.Waiting t := by
  rintro (⟨q, hq⟩ | ⟨p, hp⟩)
  · exact ht (.inl ⟨q, (h.receivers q).subset hq⟩)
  · exact ht (.inr ⟨p, h.blocked p ▸ hp⟩)

@[simp] theorem accept_ipBlocked (s : State) (kmsg : Kmsg) (p : ℕ) :
    ((s.accept kmsg).ports p).ipBlocked = (s.ports p).ipBlocked := by
  by_cases hp : p = kmsg.remotePort
  · simp [hp, accept, setPort, logAccepted]
  · simp [accept, setPort, logAccepted, hp]

@[simp] theorem waiting_accept {s : State} {kmsg : Kmsg} {t : ℕ} :
    (s.accept kmsg).Waiting t ↔ s.Waiting t := by
  simp only [Waiting, accept_ipBlocked]
  rfl

theorem Waits.accept {s : State} (h : s.Waits) (kmsg : Kmsg) : (s.accept kmsg).Waits :=
  h.shrink (fun _ => List.Sublist.refl _) (fun p => by rw [accept_ipBlocked])
    (fun _ _ => ⟨rfl, rfl⟩)

theorem Waits.block_sender {s : State} (h : s.Waits) {t : ℕ} (ht : ¬ s.Waiting t) (kmsg : Kmsg)
    (option : SendOption) (timeout : ℕ) :
    (((s.setPort kmsg.remotePort { s.ports kmsg.remotePort with
      ipBlocked := (s.ports kmsg.remotePort).ipBlocked ++ [t] }).setThread t
      { s.threads t with ithState := .sendInProgress }).setPhase t
        (.sending kmsg option timeout)).Waits where
  receivers q u hu := by
    have hne : u ≠ t := by
      rintro rfl
      exact ht (.inl ⟨q, hu⟩)
    simpa [hne] using h.receivers q u hu
  receivers_nodup := h.receivers_nodup
  senders p u hu := by
    by_cases hne : u = t
    · subst hne
      by_cases hp : p = kmsg.remotePort
      · simp [hp]
      · have hu : u ∈ (s.ports p).ipBlocked := by
          simpa [hp] using hu
        exact absurd (.inr ⟨p, hu⟩) ht
    · have hu : u ∈ (s.ports p).ipBlocked := by
        by_cases hp : p = kmsg.remotePort
        · subst hp
          simpa [hne] using hu
        · simpa [hp] using hu
      simpa [hne] using h.senders p u hu
  senders_nodup p := by
    by_cases hp : p = kmsg.remotePort
    · subst hp
      have hmem : t ∉ (s.ports kmsg.remotePort).ipBlocked := fun hm => ht (.inr ⟨_, hm⟩)
      simpa [nodup_append] using
        ⟨h.senders_nodup kmsg.remotePort, fun a ha he => hmem (he ▸ ha)⟩
    · simpa [hp] using h.senders_nodup p

theorem Waits.block_receiver {s : State} (h : s.Waits) {t : ℕ} (ht : ¬ s.Waiting t) (q : QueueName)
    (th : Thread) (hth : th.ithState = .rcvInProgress) (timeout : ℕ) :
    (((s.setMqueue q { s.mqueue q with
      imqThreads := (s.mqueue q).imqThreads ++ [t] }).setThread t th).setPhase t
        (.receiving q timeout)).Waits where
  receivers q' u hu := by
    by_cases hne : u = t
    · subst hne
      by_cases hq : q' = q
      · simp [hq, hth]
      · have hu : u ∈ (s.mqueue q').imqThreads := by
          simpa [hq] using hu
        exact absurd (.inl ⟨q', hu⟩) ht
    · have hu : u ∈ (s.mqueue q').imqThreads := by
        by_cases hq : q' = q
        · subst hq
          simpa [hne] using hu
        · simpa [hq] using hu
      simpa [hne] using h.receivers q' u hu
  receivers_nodup q' := by
    by_cases hq : q' = q
    · subst hq
      have hmem : t ∉ (s.mqueue q').imqThreads := fun hm => ht (.inl ⟨_, hm⟩)
      simpa [nodup_append] using
        ⟨h.receivers_nodup q', fun a ha he => hmem (he ▸ ha)⟩
    · simpa [hq] using h.receivers_nodup q'
  senders p u hu := by
    have hne : u ≠ t := by
      rintro rfl
      exact ht (.inr ⟨p, hu⟩)
    simpa [hne] using h.senders p u hu
  senders_nodup := h.senders_nodup

theorem Waits.sendPass {s : State} (h : s.Waits) {t : ℕ} (ht : ¬ s.Waiting t) (alloc : ℕ → Bool)
    (kmsg : Kmsg) (option : SendOption) (timeout : ℕ) :
    (s.sendPass alloc t kmsg option timeout).1.Waits := by
  obtain ⟨he, -⟩ | ⟨-, he⟩ | ⟨kmsg', -, -, he⟩ := sendPass_cases s alloc t kmsg option timeout
  · rw [he]
    exact h.setPhase ht _
  · rw [he]
    exact h.block_sender ht kmsg option timeout
  · rw [he]
    have hd := (h.accept kmsg').deliver_queueOnly alloc (s.home kmsg.remotePort) kmsg'
    exact (hd.waits (h.accept kmsg')).setPhase (hd.not_waiting (mt waiting_accept.mp ht)) _

@[simp] theorem giveSeqno_ipBlocked (s : State) (t : ℕ) (kmsg : Kmsg) (p : ℕ) :
    ((s.giveSeqno t kmsg).ports p).ipBlocked = (s.ports p).ipBlocked := by
  by_cases hp : p = kmsg.remotePort
  · simp [hp, giveSeqno, setPort, logDelivered]
  · simp [giveSeqno, setPort, logDelivered, hp]

theorem Waits.receivePass {s : State} (h : s.Waits) {t : ℕ} (ht : ¬ s.Waiting t) (alloc : Bool)
    (q : QueueName) (option : RcvOption) (maxSize timeout : ℕ) (list : Option ScatterList) :
    (s.receivePass alloc t q option maxSize timeout list).1.Waits := by
  obtain he | ⟨-, he⟩ | ⟨kmsg, kmsgs, mr, -, he⟩ :=
    receivePass_cases s alloc t q option maxSize timeout list
  · rw [he]
    exact h.setPhase ht _
  · rw [he]
    exact h.block_receiver ht q _ rfl timeout
  · rw [he]
    have hq := setMqueue_queueOnly s q kmsgs
    have hw : ((s.setMqueue q { s.mqueue q with imqMessages := kmsgs }).giveSeqno t kmsg).Waits :=
      (hq.waits h).shrink (fun _ => List.Sublist.refl _) (fun p => by rw [giveSeqno_ipBlocked])
        (fun _ _ => ⟨rfl, rfl⟩)
    refine hw.setPhase ?_ _
    rintro (⟨q', hm⟩ | ⟨p, hm⟩)
    · exact hq.not_waiting ht (.inl ⟨q', hm⟩)
    · rw [giveSeqno_ipBlocked] at hm
      exact hq.not_waiting ht (.inr ⟨p, hm⟩)

theorem unblock_ports (s : State) (p t p' : ℕ) :
    (s.unblock p t).ports p' = if p' = p then
      { s.ports p with ipBlocked := (s.ports p).ipBlocked.erase t } else s.ports p' := by
  by_cases hp : p' = p
  · simp [unblock, hp]
  · simp [unblock, hp]

theorem Waits.unblock {s : State} (h : s.Waits) {t : ℕ} {kmsg : Kmsg} {option : SendOption}
    {timeout : ℕ} (hphase : s.phase t = .sending kmsg option timeout) :
    (s.unblock kmsg.remotePort t).Waits ∧ ¬ (s.unblock kmsg.remotePort t).Waiting t := by
  constructor
  · refine h.shrink (fun _ => List.Sublist.refl _) (fun p => ?_) (fun _ _ => ⟨rfl, rfl⟩)
    rw [unblock_ports]
    split
    case isTrue hp =>
      rw [hp]
      exact erase_sublist
    case isFalse => exact List.Sublist.refl _
  · rintro (⟨q, hq⟩ | ⟨p, hp⟩)
    · obtain ⟨⟨_, hr⟩, -⟩ := h.receivers q t hq
      rw [hphase] at hr
      cases hr
    · rw [unblock_ports] at hp
      split at hp
      case isTrue => exact (h.senders_nodup kmsg.remotePort).not_mem_erase hp
      case isFalse hne =>
        obtain ⟨⟨_, _, _, hr, hport⟩, -⟩ := h.senders p t hp
        rw [hphase] at hr
        cases hr
        exact hne hport.symm

theorem resumeSend_cases {s s' : State} {alloc : ℕ → Bool} {t : ℕ} {w : WaitResult} {kmsg : Kmsg}
    {option : SendOption} {timeout : ℕ}
    (h : (s.resumeSend alloc t w kmsg option timeout).map Prod.fst = some s') :
    (s.threads t).ithState = .success ∧ s' = (s.sendPass alloc t kmsg option timeout).1 ∨
    (s.threads t).ithState ≠ .success ∧
      (s' = (s.unblock kmsg.remotePort t).setPhase t .idle ∨
        s' = ((s.unblock kmsg.remotePort t).sendPass alloc t kmsg option 0).1) := by
  unfold resumeSend at h
  split at h
  case isTrue hs => exact .inl ⟨hs, by simpa using h.symm⟩
  case isFalse hs =>
    refine .inr ⟨hs, ?_⟩
    cases w with
    | interrupted => exact .inl (by simpa using h.symm)
    | timedOut => exact .inr (by simpa using h.symm)
    | awakened => cases h
    | restart => cases h

theorem leaveQueue_mqueue (s : State) (q : QueueName) (t : ℕ) (q' : QueueName) :
    (s.leaveQueue q t).mqueue q' = if q' = q then
      { s.mqueue q with imqThreads := (s.mqueue q).imqThreads.erase t } else s.mqueue q' := by
  by_cases hq : q' = q
  · simp [leaveQueue, hq]
  · simp [leaveQueue, hq]

theorem Waits.leaveQueue {s : State} (h : s.Waits) {t : ℕ} {q : QueueName} {timeout : ℕ}
    (hphase : s.phase t = .receiving q timeout) :
    (s.leaveQueue q t).Waits ∧ ¬ (s.leaveQueue q t).Waiting t := by
  constructor
  · refine h.shrink (fun q' => ?_) (fun _ => List.Sublist.refl _) (fun _ _ => ⟨rfl, rfl⟩)
    rw [leaveQueue_mqueue]
    split
    case isTrue hq =>
      rw [hq]
      exact erase_sublist
    case isFalse => exact List.Sublist.refl _
  · rintro (⟨q', hq⟩ | ⟨p, hp⟩)
    · rw [leaveQueue_mqueue] at hq
      split at hq
      case isTrue => exact (h.receivers_nodup q).not_mem_erase hq
      case isFalse hne =>
        obtain ⟨⟨_, hr⟩, -⟩ := h.receivers q' t hq
        rw [hphase] at hr
        cases hr
        exact hne rfl
    · obtain ⟨⟨_, _, _, hr, -⟩, -⟩ := h.senders p t hp
      rw [hphase] at hr
      cases hr

theorem resumeReceive_cases {s : State} {alloc : Bool} {t : ℕ} {w : WaitResult} {q : QueueName}
    (h : (s.resumeReceive alloc t w q).2.map Returned.outcome ≠ some .panic) :
    (∃ o, (s.threads t).decode = some o ∧
      (s.resumeReceive alloc t w q).1 = s.finishQueue t o) ∨
    (s.threads t).decode = none ∧
      ((s.resumeReceive alloc t w q).1 = (s.leaveQueue q t).setPhase t .idle ∨
        (s.resumeReceive alloc t w q).1 = ((s.leaveQueue q t).receivePass alloc t q
          (s.threads t).ithRcvOption (s.threads t).ithMsize 0 (s.threads t).ithList).1) := by
  unfold resumeReceive at h ⊢
  cases hd : (s.threads t).decode with
  | some o => exact .inl ⟨o, rfl, by simp only [hd]⟩
  | none =>
    refine .inr ⟨rfl, ?_⟩
    simp only [hd] at h ⊢
    cases w with
    | interrupted => exact .inl rfl
    | timedOut => exact .inr rfl
    | awakened => exact absurd rfl h
    | restart => exact absurd rfl h

theorem decode_eq_none_iff {th : Thread} : th.decode = none ↔ th.ithState = .rcvInProgress := by
  unfold Thread.decode
  cases th.ithState with
  | rcvTooLarge | rcvScatterSmall =>
    dsimp only
    split <;> simp
  | _ => simp

theorem finishQueue_eq_setPhase (s : State) (t : ℕ) (o : Outcome) :
    ∃ ph, s.finishQueue t o = s.setPhase t ph := by
  unfold finishQueue
  split <;> exact ⟨_, rfl⟩

theorem wakeSender_cases (s : State) (p : ℕ) :
    s.wakeSender p = s ∧
      ((s.ports p).ipBlocked = [] ∨ (s.ports p).ipQlimit ≤ (s.ports p).ipMsgcount) ∨
    ∃ sender senders, (s.ports p).ipBlocked = sender :: senders ∧
      s.wakeSender p = (s.setPort p { s.ports p with ipBlocked := senders }).setThread sender
        { s.threads sender with ithState := .success } := by
  unfold wakeSender
  dsimp only
  split
  case h_1 hb => exact .inl ⟨rfl, .inl hb⟩
  case h_2 sender senders hb =>
    split
    case isTrue => exact .inr ⟨sender, senders, hb, rfl⟩
    case isFalse hlt => exact .inl ⟨rfl, .inr (by omega)⟩

theorem Waits.wakeSender {s : State} (h : s.Waits) (p : ℕ) : (s.wakeSender p).Waits := by
  obtain ⟨he, -⟩ | ⟨sender, senders, hb, he⟩ := wakeSender_cases s p
  · rw [he]
    exact h
  · rw [he]
    have hnd := h.senders_nodup p
    rw [hb] at hnd
    refine h.shrink (fun _ => List.Sublist.refl _) (fun p' => ?_) (fun t ht => ⟨rfl, ?_⟩)
    · by_cases hp : p' = p
      · simp [hp, hb]
      · simp [hp]
    · have hne : t ≠ sender := by
        rintro rfl
        have hmem : t ∈ (s.ports p).ipBlocked := by simp [hb]
        rcases ht with ⟨q, hq⟩ | ⟨p', hp'⟩
        · exact h.not_mem_senders hq hmem
        · by_cases hp : p' = p
          · simp [hp] at hp'
            exact (nodup_cons.mp hnd).1 hp'
          · simp [hp] at hp'
            exact hp (h.eq_of_mem_senders hp' hmem)
      simp [hne]

@[simp] theorem release_ipBlocked (s : State) (t : ℕ) (kmsg : Kmsg) (seqno p : ℕ) :
    ((s.release t kmsg seqno).ports p).ipBlocked = (s.ports p).ipBlocked := by
  by_cases hp : p = kmsg.remotePort
  · simp [hp, release]
  · simp [release, hp]

theorem wakeSender_phase (s : State) (p : ℕ) : (s.wakeSender p).phase = s.phase := by
  obtain ⟨he, -⟩ | ⟨_, _, _, he⟩ := wakeSender_cases s p
  · rw [he]
  · rw [he]
    rfl

theorem Waits.finishReceive {s : State} (h : s.Waits) {t : ℕ} {mr : MachMsgReturn} {kmsg : Kmsg}
    {seqno : ℕ} (hphase : s.phase t = .taking mr kmsg seqno) : (s.finishReceive t kmsg seqno).Waits := by
  have hr : (s.release t kmsg seqno).Waits :=
    h.shrink (fun _ => List.Sublist.refl _) (fun p => by rw [release_ipBlocked])
      (fun _ _ => ⟨rfl, rfl⟩)
  have hw := hr.wakeSender kmsg.remotePort
  have hp : ((s.release t kmsg seqno).wakeSender kmsg.remotePort).phase t = .taking mr kmsg seqno := by
    rw [wakeSender_phase]
    exact hphase
  refine hw.setPhase (hw.not_waiting_of_phase ?_ ?_) _
  · intro q timeout he
    rw [hp] at he
    cases he
  · intro kmsg option timeout he
    rw [hp] at he
    cases he

theorem Waits.setQlimit {s : State} (h : s.Waits) (p qlimit : ℕ) :
    (s.ipcPortSetQlimit p qlimit).Waits := by
  have hthreads : ∀ t, t ∉ (s.ports p).ipBlocked.take (qlimit - (s.ports p).ipQlimit) →
      (s.ipcPortSetQlimit p qlimit).threads t = s.threads t := by
    intro t ht
    simp [ipcPortSetQlimit, wakeAll_eq, ht]
  have hports : ∀ p', ((s.ipcPortSetQlimit p qlimit).ports p').ipBlocked =
      if p' = p then (s.ports p).ipBlocked.drop (qlimit - (s.ports p).ipQlimit)
      else (s.ports p').ipBlocked := by
    intro p'
    by_cases hp : p' = p
    · simp [ipcPortSetQlimit, hp]
    · simp [ipcPortSetQlimit, wakeAll_eq, hp]
  have hq : (s.ipcPortSetQlimit p qlimit).mqueue = s.mqueue := by
    simp [ipcPortSetQlimit, wakeAll_eq]
    rfl
  have hphase : (s.ipcPortSetQlimit p qlimit).phase = s.phase := by
    simp [ipcPortSetQlimit, wakeAll_eq]
    rfl
  refine h.shrink (fun q => by rw [hq]) (fun p' => ?_) (fun t ht => ⟨by rw [hphase], ?_⟩)
  · rw [hports]
    split
    case isTrue hp =>
      rw [hp]
      exact drop_sublist _ _
    case isFalse => exact List.Sublist.refl _
  · rw [hthreads t ?_]
    intro hmem
    have hmem' := mem_of_mem_take hmem
    rcases ht with ⟨q, ht⟩ | ⟨p', ht⟩
    · rw [hq] at ht
      exact h.not_mem_senders ht hmem'
    · rw [hports] at ht
      split at ht
      case isTrue hp =>
        have hdisj := disjoint_take_drop (h.senders_nodup p) (le_refl (qlimit - (s.ports p).ipQlimit))
        exact hdisj hmem ht
      case isFalse hp => exact hp (h.eq_of_mem_senders ht hmem')

/-- What a step can be, with what holds before it. -/
inductive Moves (s : State) : Event → State → Prop where
  | send {t kmsg option timeout alloc} (hphase : s.phase t = .idle) :
      Moves s (.send t kmsg option timeout alloc) (s.sendPass alloc t kmsg option timeout).1
  | resumeSend {t w alloc kmsg option timeout} (hphase : s.phase t = .sending kmsg option timeout)
      (hwoken : (s.threads t).ithState = .success) :
      Moves s (.resumeSend t w alloc) (s.sendPass alloc t kmsg option timeout).1
  | interruptSend {t w alloc kmsg option timeout}
      (hphase : s.phase t = .sending kmsg option timeout)
      (hasleep : (s.threads t).ithState ≠ .success) :
      Moves s (.resumeSend t w alloc) ((s.unblock kmsg.remotePort t).setPhase t .idle)
  | timeoutSend {t w alloc kmsg option timeout}
      (hphase : s.phase t = .sending kmsg option timeout)
      (hasleep : (s.threads t).ithState ≠ .success) :
      Moves s (.resumeSend t w alloc)
        ((s.unblock kmsg.remotePort t).sendPass alloc t kmsg option 0).1
  | receive {t q option maxSize timeout list alloc} (hphase : s.phase t = .idle)
      (hq : s.receivable q = true) :
      Moves s (.receive t q option maxSize timeout list alloc)
        (s.receivePass alloc t q option maxSize timeout list).1
  | resumeReceive {t w alloc q timeout o} (hphase : s.phase t = .receiving q timeout)
      (hdecode : (s.threads t).decode = some o) :
      Moves s (.resumeReceive t w alloc) (s.finishQueue t o)
  | interruptReceive {t w alloc q timeout} (hphase : s.phase t = .receiving q timeout)
      (hdecode : (s.threads t).decode = none) :
      Moves s (.resumeReceive t w alloc) ((s.leaveQueue q t).setPhase t .idle)
  | timeoutReceive {t w alloc q timeout} (hphase : s.phase t = .receiving q timeout)
      (hdecode : (s.threads t).decode = none) :
      Moves s (.resumeReceive t w alloc) ((s.leaveQueue q t).receivePass alloc t q
        (s.threads t).ithRcvOption (s.threads t).ithMsize 0 (s.threads t).ithList).1
  | finishReceive {t mr kmsg seqno} (hphase : s.phase t = .taking mr kmsg seqno) :
      Moves s (.finishReceive t) (s.finishReceive t kmsg seqno)
  | psetAdd {ps p alloc} (hp : (s.ports p).ipPset = none) :
      Moves s (.psetAdd ps p alloc) (s.ipcPsetAdd alloc ps p)
  | psetRemove {ps p alloc} (hp : (s.ports p).ipPset = some ps) :
      Moves s (.psetRemove ps p alloc) (s.ipcPsetRemove alloc ps p)
  | psetMove {p nset alloc alloc'} :
      Moves s (.psetMove p nset alloc alloc') (s.ipcPsetMove alloc alloc' p nset)
  | psetDestroy {ps} : Moves s (.psetDestroy ps) (s.ipcPsetDestroy ps)
  | setQlimit {p qlimit} : Moves s (.setQlimit p qlimit) (s.ipcPortSetQlimit p qlimit)

theorem Steps.moves {s s' : State} {e : Event} (h : s.Steps e s') : s.Moves e s' := by
  unfold Steps step at h
  cases e with
  | send t kmsg option timeout alloc =>
    obtain ⟨hphase, ⟨⟩⟩ := Option.ite_none_right_eq_some.mp h
    exact .send hphase
  | resumeSend t w alloc =>
    dsimp only at h
    split at h
    case h_1 kmsg option timeout hphase =>
      obtain ⟨hs, rfl⟩ | ⟨hs, rfl | rfl⟩ := resumeSend_cases h
      · exact .resumeSend hphase hs
      · exact .interruptSend hphase hs
      · exact .timeoutSend hphase hs
    case h_2 => cases h
  | receive t q option maxSize timeout list alloc =>
    obtain ⟨⟨hphase, hq⟩, ⟨⟩⟩ := Option.ite_none_right_eq_some.mp h
    exact .receive hphase hq
  | resumeReceive t w alloc =>
    dsimp only at h
    split at h
    case h_1 q timeout hphase =>
      obtain ⟨hpanic, he⟩ := Option.ite_none_left_eq_some.mp h
      cases he
      obtain ⟨o, hd, he⟩ | ⟨hd, he | he⟩ := resumeReceive_cases hpanic
      · rw [he]
        exact .resumeReceive hphase hd
      · rw [he]
        exact .interruptReceive hphase hd
      · rw [he]
        exact .timeoutReceive hphase hd
    case h_2 => cases h
  | finishReceive t =>
    dsimp only at h
    split at h
    case h_1 mr kmsg seqno hphase =>
      cases h
      exact .finishReceive hphase
    case h_2 => cases h
  | psetAdd ps p alloc =>
    obtain ⟨⟨-, hp⟩, ⟨⟩⟩ := Option.ite_none_right_eq_some.mp h
    exact .psetAdd hp
  | psetRemove ps p alloc =>
    obtain ⟨hp, ⟨⟩⟩ := Option.ite_none_right_eq_some.mp h
    exact .psetRemove hp
  | psetMove p nset alloc alloc' =>
    obtain ⟨-, ⟨⟩⟩ := Option.ite_none_right_eq_some.mp h
    exact .psetMove
  | psetDestroy ps =>
    obtain ⟨-, ⟨⟩⟩ := Option.ite_none_right_eq_some.mp h
    exact .psetDestroy
  | setQlimit p qlimit =>
    cases h
    exact .setQlimit

theorem Waits.not_waiting_idle {s : State} (h : s.Waits) {t : ℕ} (hphase : s.phase t = .idle) :
    ¬ s.Waiting t :=
  h.not_waiting_of_phase (by simp [hphase]) (by simp [hphase])

theorem Waits.not_waiting_woken {s : State} (h : s.Waits) {t : ℕ}
    (hwoken : (s.threads t).ithState = .success) : ¬ s.Waiting t :=
  h.not_waiting_of_state (by simp [hwoken]) (by simp [hwoken])

theorem Waits.not_waiting_decoded {s : State} (h : s.Waits) {t : ℕ} {q : QueueName} {timeout : ℕ}
    {o : Outcome} (hphase : s.phase t = .receiving q timeout)
    (hdecode : (s.threads t).decode = some o) : ¬ s.Waiting t := by
  rintro (⟨q', hq⟩ | ⟨p, hp⟩)
  · rw [decode_eq_none_iff.mpr (h.receivers q' t hq).2] at hdecode
    cases hdecode
  · obtain ⟨⟨_, _, _, hs, -⟩, -⟩ := h.senders p t hp
    rw [hphase] at hs
    cases hs

theorem Waits.moves {s s' : State} {e : Event} (h : s.Waits) (hs : s.Moves e s') : s'.Waits := by
  cases hs with
  | send hphase => exact h.sendPass (h.not_waiting_idle hphase) _ _ _ _
  | resumeSend hphase hwoken => exact h.sendPass (h.not_waiting_woken hwoken) _ _ _ _
  | interruptSend hphase hasleep => exact (h.unblock hphase).1.setPhase (h.unblock hphase).2 _
  | timeoutSend hphase hasleep => exact (h.unblock hphase).1.sendPass (h.unblock hphase).2 _ _ _ _
  | receive hphase hq => exact h.receivePass (h.not_waiting_idle hphase) _ _ _ _ _ _
  | resumeReceive hphase hdecode =>
    rename_i t w alloc q timeout o
    obtain ⟨ph, he⟩ := finishQueue_eq_setPhase s t o
    rw [he]
    exact h.setPhase (h.not_waiting_decoded hphase hdecode) _
  | interruptReceive hphase hdecode =>
    exact (h.leaveQueue hphase).1.setPhase (h.leaveQueue hphase).2 _
  | timeoutReceive hphase hdecode =>
    exact (h.leaveQueue hphase).1.receivePass (h.leaveQueue hphase).2 _ _ _ _ _ _
  | finishReceive hphase => exact h.finishReceive hphase
  | psetAdd hp => exact (h.psetAdd_queueOnly _ _ _).waits h
  | psetRemove hp => exact (h.psetRemove_queueOnly _ _ _).waits h
  | psetMove => exact (h.psetMove_queueOnly _ _ _ _).waits h
  | psetDestroy => exact (h.psetDestroy_queueOnly _).waits h
  | setQlimit => exact h.setQlimit _ _

end State

end Darwin.Ipc.MessageQueue
