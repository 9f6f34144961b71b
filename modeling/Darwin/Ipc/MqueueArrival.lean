import Darwin.Ipc.Mqueue

/-! # The order of arrival of message and receiver

A receive that finds its message in the queue tests it in `ipc_mqueue_receive`. A receive that
was there first is tested by the sender, and reads the verdict from `ith_state` later.
-/
namespace Darwin.Ipc.MessageQueue
open Darwin.Lib Function List

/-! ## What the check of a scatter list answers -/

def Descriptor.nonPort (d : Descriptor) : Bool := d.type ≠ machMsgPortDescriptor

/-- The pairs of gather and scatter descriptors that are compared. -/
def pairs (gather scatter : List Descriptor) : List (Descriptor × Descriptor) :=
  (gather.filter Descriptor.nonPort).zip (scatter.filter Descriptor.nonPort)

/-- The types match, and the scatter list has no descriptor at all for a region that needs one
or one with a buffer that is too small. -/
def ListTooSmall (gather scatter : List Descriptor) : Prop :=
  (∀ p ∈ pairs gather scatter, p.2.type = p.1.pairType) ∧
    (scatter = [] ∧ gather.filter Descriptor.nonPort ≠ [] ∨
      ∃ p ∈ pairs gather scatter, p.2.copy = machMsgOverwrite ∧ p.2.size < p.1.size)

instance (gather scatter : List Descriptor) : Decidable (ListTooSmall gather scatter) :=
  inferInstanceAs (Decidable (_ ∧ _))

theorem filter_nonPort_of_dropWhile {l : List Descriptor} :
    (l.dropWhile (fun d => d.type = machMsgPortDescriptor) = [] →
      l.filter Descriptor.nonPort = []) ∧
    ∀ s l', l.dropWhile (fun d => d.type = machMsgPortDescriptor) = s :: l' →
      l.filter Descriptor.nonPort = s :: l'.filter Descriptor.nonPort := by
  induction l with
  | nil => simp
  | cons d l ih =>
    by_cases hd : d.type = machMsgPortDescriptor
    · simpa [Descriptor.nonPort, hd] using ih
    · simp [Descriptor.nonPort, hd]

theorem checkScatterLoop_ok_true_iff {count : ℕ} {gather scatter : List Descriptor}
    {sizeError : Bool} (hcount : count ≠ 0) :
    checkScatterLoop true count gather scatter sizeError = .ok true ↔
      (∀ p ∈ pairs gather scatter, p.2.type = p.1.pairType) ∧
        (sizeError = true ∨
          ∃ p ∈ pairs gather scatter, p.2.copy = machMsgOverwrite ∧ p.2.size < p.1.size) := by
  induction gather generalizing scatter sizeError with
  | nil => simp [checkScatterLoop, pairs]
  | cons g gather ih =>
    by_cases hg : g.type = machMsgPortDescriptor
    · have hp : pairs (g :: gather) scatter = pairs gather scatter := by
        simp [pairs, Descriptor.nonPort, hg]
      rw [checkScatterLoop, if_pos hg, ih, hp]
    · rw [checkScatterLoop, if_neg hg, if_neg hcount]
      have hfilter : (g :: gather).filter Descriptor.nonPort =
          g :: gather.filter Descriptor.nonPort := by simp [Descriptor.nonPort, hg]
      cases hdrop : scatter.dropWhile (fun d => d.type = machMsgPortDescriptor) with
      | nil =>
        have hp : pairs (g :: gather) scatter = [] := by
          simp [pairs, filter_nonPort_of_dropWhile.1 hdrop]
        simp [hp]
      | cons s scatter' =>
        have hp : pairs (g :: gather) scatter = (g, s) :: pairs gather scatter' := by
          rw [pairs, hfilter, filter_nonPort_of_dropWhile.2 s scatter' hdrop]
          rfl
        rw [hp]
        simp only [forall_mem_cons, exists_mem_cons_iff]
        by_cases htype : s.type = g.pairType
        · by_cases hsmall : s.copy = machMsgOverwrite ∧ s.size < g.size
          · simp [hsmall, ih, htype]
          · simp [hsmall, ih, htype]
        · simp [htype]

theorem checkScatterLoop_no_descriptors {gather : List Descriptor} :
    checkScatterLoop true 0 gather [] false = .ok true ↔ ListTooSmall gather [] := by
  induction gather with
  | nil => simp [checkScatterLoop, ListTooSmall, pairs]
  | cons g gather ih =>
    by_cases hg : g.type = machMsgPortDescriptor
    · rw [checkScatterLoop, if_pos hg, ih]
      simp [ListTooSmall, pairs, Descriptor.nonPort, hg]
    · simp [checkScatterLoop, ListTooSmall, pairs, Descriptor.nonPort, hg]

theorem checkScatterLoop_large_error {count : ℕ} {gather scatter : List Descriptor}
    {sizeError : Bool} {mr : MachMsgReturn}
    (h : checkScatterLoop true count gather scatter sizeError = .error mr) :
    mr = .rcvInvalidType := by
  induction gather generalizing scatter sizeError with
  | nil => cases h
  | cons g gather ih =>
    simp only [checkScatterLoop, if_true] at h
    split at h
    · exact ih h
    · split at h
      · cases h
      · split at h
        · cases h
        · split at h
          · cases h
            rfl
          · split at h
            · exact ih h
            · exact ih h

theorem checkScatterLoop_not_large {count : ℕ} {gather scatter : List Descriptor} :
    checkScatterLoop false count gather scatter false = .ok false ∨
    checkScatterLoop false count gather scatter false = .error .rcvInvalidType ∨
    checkScatterLoop false count gather scatter false = .error .rcvScatterSmall := by
  induction gather generalizing scatter with
  | nil => exact .inl rfl
  | cons g gather ih =>
    rw [checkScatterLoop]
    split
    · exact ih
    · split
      · simp
      · split
        · exact .inl rfl
        · split
          · exact .inr (.inl rfl)
          · split
            · simp
            · exact ih

theorem ipcKmsgCheckScatter_cases (alloc : Bool) (kmsg : Kmsg) (large : Bool)
    (list : ScatterList) :
    ipcKmsgCheckScatter alloc kmsg large list = (.success, list) ∨
    ipcKmsgCheckScatter alloc kmsg large list = (.rcvInvalidType, list) ∨
    (ipcKmsgCheckScatter alloc kmsg large list).1 = .rcvScatterSmall ∨
    ipcKmsgCheckScatter alloc kmsg large list = (.rcvBodyErrorVmKernel, list) ∧ alloc = false ∧
      large = true := by
  unfold ipcKmsgCheckScatter
  cases large with
  | false =>
    obtain h | h | h := @checkScatterLoop_not_large list.descriptors.length kmsg.descriptors
      list.descriptors
    all_goals simp [h]
  | true =>
    cases h : checkScatterLoop true list.descriptors.length kmsg.descriptors list.descriptors
      false with
    | error mr => simp [checkScatterLoop_large_error h]
    | ok e => cases e <;> cases alloc <;> simp

theorem ipcKmsgCheckScatter_vmKernel_iff {alloc large : Bool} {kmsg : Kmsg} {list : ScatterList} :
    (ipcKmsgCheckScatter alloc kmsg large list).1 = .rcvBodyErrorVmKernel ↔
      alloc = false ∧ large = true ∧ ListTooSmall kmsg.descriptors list.descriptors := by
  unfold ipcKmsgCheckScatter
  cases large with
  | false =>
    obtain h | h | h := @checkScatterLoop_not_large list.descriptors.length kmsg.descriptors
      list.descriptors
    all_goals simp [h]
  | true =>
    have hok : checkScatterLoop true list.descriptors.length kmsg.descriptors list.descriptors
        false = .ok true ↔ ListTooSmall kmsg.descriptors list.descriptors := by
      by_cases hempty : list.descriptors = []
      · rw [hempty]
        exact checkScatterLoop_no_descriptors
      · rw [checkScatterLoop_ok_true_iff (by simpa using hempty)]
        simp [ListTooSmall, hempty]
    rw [← hok]
    cases h : checkScatterLoop true list.descriptors.length kmsg.descriptors list.descriptors
      false with
    | error mr => simp [checkScatterLoop_large_error h]
    | ok e => cases e <;> cases alloc <;> simp

/-! ## The two tests of a message -/

/-- The receive runs into a scatter list that is too small, and the kernel has no memory for the
list that it would return. -/
structure Shortage (alloc : Bool) (kmsg : Kmsg) (option : RcvOption) (maxSize : ℕ)
    (list : Option ScatterList) : Prop where
  newMessage : kmsg.oldFormat = false
  newReceive : option.oldFormat = false
  fits : kmsg.msghSize ≤ u32Sub maxSize option.requestedTrailerSize
  complex : kmsg.complex = true
  large : option.large = true
  list_small : ∃ l, list = some l ∧ ListTooSmall kmsg.descriptors l.descriptors
  no_memory : alloc = false

def Outcome.isMessage : Outcome → Bool
  | .message _ _ _ => true
  | _ => false

/-- What the sender tells a blocked receiver is what the receiver would have found out itself. -/
structure Verdict (o : Offer) (r : Returned) (kmsg : Kmsg) (seqno : ℕ) : Prop where
  taken : o.isTaken = r.outcome.isMessage
  list : (o.thread kmsg seqno).ithList = r.list
  decode : (o.thread kmsg seqno).decode = some r.outcome

variable {alloc : Bool} {kmsg : Kmsg} {th : Thread} {seqno : ℕ}

theorem verdict_of_old (hold : kmsg.oldFormat = true) :
    Verdict (offer alloc kmsg th)
      (receiveFirst alloc th.ithRcvOption th.ithMsize th.ithList kmsg seqno) kmsg seqno := by
  by_cases hopt : th.ithRcvOption.oldFormat = true
  · by_cases hsize : kmsg.msghSize ≤ th.ithMsize
    · have hsize' : ¬ th.ithMsize < kmsg.msghSize := by omega
      simp only [offer, receiveFirst, hold, hopt, hsize, hsize', if_true, if_false]
      exact ⟨rfl, rfl, rfl⟩
    · have hsize' : th.ithMsize < kmsg.msghSize := by omega
      simp only [offer, receiveFirst, hold, hopt, hsize, hsize', if_true, if_false]
      exact ⟨rfl, rfl, by simp [Offer.thread, Thread.decode, hopt]⟩
  · simp only [offer, receiveFirst, hold, hopt]
    exact ⟨rfl, rfl, rfl⟩

theorem verdict_of_old_receive (hnew : kmsg.oldFormat = false)
    (hopt : th.ithRcvOption.oldFormat = true) :
    Verdict (offer alloc kmsg th)
      (receiveFirst alloc th.ithRcvOption th.ithMsize th.ithList kmsg seqno) kmsg seqno := by
  by_cases hbad : kmsg.complex = true ∨ headerSize < kmsg.msghSize ∨ th.ithMsize < headerSize
  · simp only [offer, receiveFirst, hnew, hopt, hbad, if_true]
    exact ⟨rfl, rfl, rfl⟩
  · simp only [offer, receiveFirst, hnew, hopt, hbad, if_true]
    exact ⟨rfl, rfl, rfl⟩

theorem verdict_of_too_large (hnew : kmsg.oldFormat = false)
    (hopt : th.ithRcvOption.oldFormat = false)
    (hsize : u32Sub th.ithMsize th.ithRcvOption.requestedTrailerSize < kmsg.msghSize) :
    Verdict (offer alloc kmsg th)
      (receiveFirst alloc th.ithRcvOption th.ithMsize th.ithList kmsg seqno) kmsg seqno := by
  cases hlarge : th.ithRcvOption.large with
  | false =>
    simp only [offer, receiveFirst, hnew, hopt, hsize, hlarge, if_true]
    exact ⟨rfl, rfl, by simp [Offer.thread, Thread.decode, hopt, hlarge]⟩
  | true =>
    simp only [offer, receiveFirst, hnew, hopt, hsize, hlarge, if_true]
    exact ⟨rfl, rfl, by simp [Offer.thread, Thread.decode, hlarge]⟩

theorem vmKernel_rcvScatterSmall : MachMsgReturn.rcvScatterSmall.vmKernel = false := by decide

theorem verdict_of_fits (hnew : kmsg.oldFormat = false)
    (hopt : th.ithRcvOption.oldFormat = false)
    (hsize : ¬ u32Sub th.ithMsize th.ithRcvOption.requestedTrailerSize < kmsg.msghSize)
    (hshort : ¬ Shortage alloc kmsg th.ithRcvOption th.ithMsize th.ithList) :
    Verdict (offer alloc kmsg th)
      (receiveFirst alloc th.ithRcvOption th.ithMsize th.ithList kmsg seqno) kmsg seqno := by
  cases hcomplex : kmsg.complex with
  | false =>
    simp only [offer, receiveFirst, hnew, hopt, hsize, hcomplex]
    exact ⟨rfl, rfl, rfl⟩
  | true =>
    cases hlist : th.ithList with
    | none =>
      simp only [offer, receiveFirst, hnew, hopt, hsize, hcomplex, hlist]
      exact ⟨rfl, rfl, rfl⟩
    | some l =>
      simp only [offer, receiveFirst, hnew, hopt, hsize, hcomplex, hlist]
      obtain h | h | h | ⟨h, ha, hl⟩ :=
        ipcKmsgCheckScatter_cases alloc kmsg th.ithRcvOption.large l
      · simp only [h]
        exact ⟨rfl, rfl, rfl⟩
      · simp only [h]
        exact ⟨rfl, rfl, rfl⟩
      · cases hlarge : th.ithRcvOption.large with
        | false =>
          rw [hlarge] at h
          simp only [h, vmKernel_rcvScatterSmall]
          exact ⟨rfl, rfl, by simp [Offer.thread, Thread.decode, hopt, hlarge]⟩
        | true =>
          rw [hlarge] at h
          simp only [h, vmKernel_rcvScatterSmall]
          exact ⟨rfl, rfl, by simp [Offer.thread, Thread.decode, hlarge]⟩
      · refine absurd ⟨hnew, hopt, by omega, hcomplex, hl, ⟨l, hlist, ?_⟩, ha⟩ hshort
        exact (ipcKmsgCheckScatter_vmKernel_iff.mp (congrArg Prod.fst h)).2.2

theorem verdict_of_not_shortage
    (hshort : ¬ Shortage alloc kmsg th.ithRcvOption th.ithMsize th.ithList) :
    Verdict (offer alloc kmsg th)
      (receiveFirst alloc th.ithRcvOption th.ithMsize th.ithList kmsg seqno) kmsg seqno := by
  cases hnew : kmsg.oldFormat with
  | true => exact verdict_of_old hnew
  | false =>
    cases hopt : th.ithRcvOption.oldFormat with
    | true => exact verdict_of_old_receive hnew hopt
    | false =>
      by_cases hsize : u32Sub th.ithMsize th.ithRcvOption.requestedTrailerSize < kmsg.msghSize
      · exact verdict_of_too_large hnew hopt hsize
      · exact verdict_of_fits hnew hopt hsize hshort

theorem offer_of_shortage (h : Shortage alloc kmsg th.ithRcvOption th.ithMsize th.ithList) :
    ((offer alloc kmsg th).thread kmsg seqno).decode = some .panic ∧
    (receiveFirst alloc th.ithRcvOption th.ithMsize th.ithList kmsg seqno).outcome =
      .code .rcvBodyErrorVmKernel ∧
    (offer alloc kmsg th).isTaken = false := by
  obtain ⟨hnew, hopt, hfits, hcomplex, hlarge, ⟨l, hlist, hsmall⟩, ha⟩ := h
  have hvm : (ipcKmsgCheckScatter alloc kmsg th.ithRcvOption.large l).1 = .rcvBodyErrorVmKernel :=
    ipcKmsgCheckScatter_vmKernel_iff.mpr ⟨ha, hlarge, hsmall⟩
  have hsize : ¬ u32Sub th.ithMsize th.ithRcvOption.requestedTrailerSize < kmsg.msghSize := by omega
  simp only [offer, receiveFirst, hnew, hopt, hsize, hcomplex, hlist, hvm]
  exact ⟨rfl, rfl, rfl⟩

theorem receiveFirst_message {option : RcvOption} {maxSize : ℕ} {list : Option ScatterList}
    {k : Kmsg} {n : ℕ} {mr : MachMsgReturn}
    (h : (receiveFirst alloc option maxSize list kmsg seqno).outcome = .message mr k n) :
    kmsg = k ∧ seqno = n := by
  revert h
  fun_cases receiveFirst <;> simp +contextual [*]

theorem decode_of_taken (h : (offer alloc kmsg th).isTaken = true) :
    ∃ mr, ((offer alloc kmsg th).thread kmsg seqno).decode = some (.message mr kmsg seqno) := by
  by_cases hshort : Shortage alloc kmsg th.ithRcvOption th.ithMsize th.ithList
  · rw [(@offer_of_shortage _ _ _ seqno hshort).2.2] at h
    cases h
  · have hv := @verdict_of_not_shortage _ _ _ seqno hshort
    rw [hv.taken] at h
    unfold Outcome.isMessage at h
    split at h
    case h_1 mr k n ho =>
      obtain ⟨rfl, rfl⟩ := receiveFirst_message ho
      exact ⟨mr, hv.decode.trans (congrArg some ho)⟩
    case h_2 => cases h

theorem decode_of_refused (h : (offer alloc kmsg th).isTaken = false) (mr : MachMsgReturn) (k : Kmsg)
    (n : ℕ) : ((offer alloc kmsg th).thread kmsg seqno).decode ≠ some (.message mr k n) := by
  intro hd
  by_cases hshort : Shortage alloc kmsg th.ithRcvOption th.ithMsize th.ithList
  · rw [(@offer_of_shortage _ _ _ seqno hshort).1] at hd
    cases hd
  · have hv := @verdict_of_not_shortage _ _ _ seqno hshort
    rw [hv.decode] at hd
    rw [hv.taken, Option.some.inj hd] at h
    cases h

/-! ## The whole receive -/

namespace State

/-- Thread `t` has blocked in a receive on queue `q` and is the first in line. -/
structure WaitsFirst (s : State) (t : ℕ) (q : QueueName) (option : RcvOption) (maxSize : ℕ)
    (list : Option ScatterList) : Prop where
  messages : (s.mqueue q).imqMessages = []
  first : ∃ after, (s.mqueue q).imqThreads = t :: after
  nodup : (s.mqueue q).imqThreads.Nodup
  option : (s.threads t).ithRcvOption = option
  maxSize : (s.threads t).ithMsize = maxSize
  list : (s.threads t).ithList = list

theorem receivePass_waitsFirst {s : State} {alloc : Bool} {t : ℕ} {q : QueueName}
    {option : RcvOption} {maxSize timeout : ℕ} {list : Option ScatterList}
    (hq : s.mqueue q = ⟨[], []⟩) (hwait : ¬ (option.timeout = true ∧ timeout = 0)) :
    (s.receivePass alloc t q option maxSize timeout list).2 = none ∧
      (s.receivePass alloc t q option maxSize timeout list).1.WaitsFirst t q option maxSize list := by
  simp only [receivePass, hq, if_neg hwait]
  refine ⟨trivial, ?_⟩
  constructor <;> simp [setMqueue, setThread, setPhase]

/-- The message comes to queue `q`: a sender has it, or it moves there with its port. -/
inductive Arrives (alloc : ℕ → Bool) (q : QueueName) (kmsg : Kmsg) (s : State) : State → Prop where
  | send (u : ℕ) (option : SendOption) (timeout : ℕ)
      (hhome : s.home kmsg.remotePort = q)
      (hroom : (s.ports kmsg.remotePort).ipMsgcount < (s.ports kmsg.remotePort).ipQlimit ∨
        option.always = true ∨ kmsg.sendOnce = true)
      (hcircular : kmsg.circular = false)
      (hserial : kmsg.serial = (s.log.accepted kmsg.remotePort).length) :
      Arrives alloc q kmsg s (s.sendPass alloc u kmsg option timeout).1
  | move (source : QueueName) (more : List Kmsg) (hne : source ≠ q)
      (hfirst : (s.mqueue source).imqMessages.filter
        (fun m => m.remotePort = kmsg.remotePort) = kmsg :: more) :
      Arrives alloc q kmsg s (s.ipcMqueueMove alloc q source kmsg.remotePort)

/-- Between the two states the message has been given to thread `t`. -/
def Gave (s s' : State) (t : ℕ) (kmsg : Kmsg) : Prop :=
  ∃ d ∈ (s'.log.delivered kmsg.remotePort).drop (s.log.delivered kmsg.remotePort).length,
    d.thread = t ∧ d.kmsg = kmsg

/-- Nothing happens to thread `t`. -/
structure Bypasses (t : ℕ) (s s' : State) : Prop where
  threads : s'.threads t = s.threads t
  delivered : ∀ p, ∃ ds, s'.log.delivered p = s.log.delivered p ++ ds ∧ ∀ d ∈ ds, d.thread ≠ t

theorem Bypasses.trans {t : ℕ} {s₁ s₂ s₃ : State} (h : Bypasses t s₁ s₂) (h' : Bypasses t s₂ s₃) :
    Bypasses t s₁ s₃ := by
  refine ⟨h'.threads.trans h.threads, fun p => ?_⟩
  obtain ⟨ds, hds, hne⟩ := h.delivered p
  obtain ⟨ds', hds', hne'⟩ := h'.delivered p
  refine ⟨ds ++ ds', by rw [hds', hds, append_assoc], ?_⟩
  intro d hd
  exact (mem_append.mp hd).elim (hne d) (hne' d)

theorem delivered_log_none {s : State} {q : QueueName} {kmsg : Kmsg} {rest : List ℕ}
    {threads' : ℕ → Thread} : (s.delivered q kmsg rest threads' none).log = s.log := rfl

theorem delivered_log_some {s : State} {q : QueueName} {kmsg : Kmsg} {rest : List ℕ}
    {threads' : ℕ → Thread} {u : ℕ} :
    (s.delivered q kmsg rest threads' (some u)).log.delivered =
      update s.log.delivered kmsg.remotePort
        (s.log.delivered kmsg.remotePort ++ [⟨u, kmsg, (s.ports kmsg.remotePort).ipSeqno⟩]) := rfl

@[simp] theorem delivered_threads {s : State} {q : QueueName} {kmsg : Kmsg} {rest : List ℕ}
    {threads' : ℕ → Thread} {taker : Option ℕ} :
    (s.delivered q kmsg rest threads' taker).threads = threads' := by
  cases taker <;> rfl

@[simp] theorem delivered_imqThreads {s : State} {q : QueueName} {kmsg : Kmsg} {rest : List ℕ}
    {threads' : ℕ → Thread} {taker : Option ℕ} :
    ((s.delivered q kmsg rest threads' taker).mqueue q).imqThreads = rest := by
  cases taker <;> simp [State.delivered, setMqueue, giveSeqno, setPort, logDelivered]

theorem exists_delivered_log {s : State} {q : QueueName} {kmsg : Kmsg} {rest : List ℕ}
    {threads' : ℕ → Thread} {taker : Option ℕ} (p : ℕ) :
    ∃ ds, (s.delivered q kmsg rest threads' taker).log.delivered p = s.log.delivered p ++ ds ∧
      (∀ d ∈ ds, d.thread ∈ taker ∧ d.kmsg = kmsg) ∧ (p = kmsg.remotePort → taker ≠ none → ds ≠ []) := by
  cases taker with
  | none => exact ⟨[], by simp [delivered_log_none], by simp, by simp⟩
  | some u =>
    rw [delivered_log_some]
    by_cases hp : p = kmsg.remotePort
    · subst hp
      exact ⟨[_], update_self .., by simp, by simp⟩
    · exact ⟨[], by simp [update_of_ne hp], by simp, fun h => absurd h hp⟩

theorem deliver_bypasses {s : State} {alloc : ℕ → Bool} {q : QueueName} {kmsg : Kmsg} {t : ℕ}
    (hnd : (s.mqueue q).imqThreads.Nodup) (ht : t ∉ (s.mqueue q).imqThreads) :
    Bypasses t s (s.deliver alloc q kmsg) ∧
    ((s.deliver alloc q kmsg).mqueue q).imqThreads.Nodup ∧
    t ∉ ((s.deliver alloc q kmsg).mqueue q).imqThreads := by
  obtain ⟨refused, rest, taker, threads', ho, he⟩ := deliver_cases alloc q kmsg hnd
  rw [ho.split] at hnd ht
  have htaker : t ∉ taker := fun h => ht (by simp [Option.mem_def.mp h])
  have hrefused : t ∉ refused := fun h => ht (by simp [h])
  rw [he]
  refine ⟨⟨?_, fun p => ?_⟩, ?_, ?_⟩
  · rw [delivered_threads, ho.others t hrefused htaker]
  · obtain ⟨ds, hds, hmem, -⟩ := exists_delivered_log (s := s) p
    refine ⟨ds, hds, ?_⟩
    rintro d hd rfl
    exact htaker (hmem d hd).1
  · rw [delivered_imqThreads]
    exact (nodup_append.mp (nodup_append.mp hnd).2.1).2.1
  · rw [delivered_imqThreads]
    exact fun h => ht (by simp [h])

theorem foldl_deliver_bypasses {alloc : ℕ → Bool} {q : QueueName} {t : ℕ} {kmsgs : List Kmsg}
    {s : State} (hnd : (s.mqueue q).imqThreads.Nodup) (ht : t ∉ (s.mqueue q).imqThreads) :
    Bypasses t s (kmsgs.foldl (fun s kmsg => s.deliver alloc q kmsg) s) := by
  induction kmsgs generalizing s with
  | nil => exact ⟨rfl, fun p => ⟨[], by simp, by simp⟩⟩
  | cons kmsg kmsgs ih =>
    obtain ⟨h, hnd, ht⟩ := @deliver_bypasses s alloc q kmsg t hnd ht
    exact h.trans (ih hnd ht)

theorem length_le_length_deliver {s : State} {alloc : ℕ → Bool} {q : QueueName} {kmsg : Kmsg}
    {p : ℕ} (hnd : (s.mqueue q).imqThreads.Nodup) :
    (s.log.delivered p).length ≤ ((s.deliver alloc q kmsg).log.delivered p).length := by
  obtain ⟨refused, rest, taker, threads', -, he⟩ := deliver_cases alloc q kmsg hnd
  obtain ⟨ds, hds, -⟩ := exists_delivered_log (s := s) p
  rw [he, hds, length_append]
  omega

theorem Bypasses.gave_iff {t : ℕ} {s s' s'' : State} {kmsg : Kmsg} (h : Bypasses t s' s'')
    (hle : (s.log.delivered kmsg.remotePort).length ≤ (s'.log.delivered kmsg.remotePort).length) :
    s.Gave s'' t kmsg ↔ s.Gave s' t kmsg := by
  obtain ⟨ds, hds, hne⟩ := h.delivered kmsg.remotePort
  rw [Gave, Gave, hds, drop_append_of_le_length hle]
  constructor
  · rintro ⟨d, hd, ht, hk⟩
    rcases mem_append.mp hd with hd | hd
    · exact ⟨d, hd, ht, hk⟩
    · exact absurd ht (hne d hd)
  · rintro ⟨d, hd, ht, hk⟩
    exact ⟨d, mem_append_left _ hd, ht, hk⟩

theorem deliver_first {s : State} {alloc : ℕ → Bool} {q : QueueName} {kmsg : Kmsg} {t : ℕ}
    {after : List ℕ} (hnd : (s.mqueue q).imqThreads.Nodup)
    (hfirst : (s.mqueue q).imqThreads = t :: after) :
    (s.deliver alloc q kmsg).threads t =
      (offer (alloc t) kmsg (s.threads t)).thread kmsg (s.ports kmsg.remotePort).ipSeqno ∧
    (s.Gave (s.deliver alloc q kmsg) t kmsg ↔
      (offer (alloc t) kmsg (s.threads t)).isTaken = true) ∧
    ((s.deliver alloc q kmsg).mqueue q).imqThreads.Nodup ∧
    t ∉ ((s.deliver alloc q kmsg).mqueue q).imqThreads := by
  obtain ⟨refused, rest, taker, threads', ho, he⟩ := deliver_cases alloc q kmsg hnd
  rw [ho.split] at hnd hfirst
  have hcase : t ∈ refused ∧ t ∉ taker ∨ taker = some t := by
    cases refused with
    | nil =>
      cases taker with
      | none => simp [ho.rest_nil rfl] at hfirst
      | some u => exact .inr (by simpa using (List.cons.inj hfirst).1)
    | cons u refused =>
      obtain ⟨rfl, -⟩ := List.cons.inj hfirst
      refine .inl ⟨mem_cons_self, fun h => ?_⟩
      simp [Option.mem_def.mp h] at hnd
  have hrest : t ∉ rest := by
    have hdisj := (nodup_append.mp hnd).2.2
    have hdisj' := (nodup_append.mp (nodup_append.mp hnd).2.1).2.2
    intro h
    rcases hcase with ⟨hmem, -⟩ | rfl
    · exact hdisj t hmem t (mem_append_right _ h) rfl
    · exact hdisj' t (by simp) t h rfl
  rw [he, delivered_threads, delivered_imqThreads]
  refine ⟨?_, ?_, (nodup_append.mp (nodup_append.mp hnd).2.1).2.1, hrest⟩
  · exact ho.offered t (hcase.imp And.left Option.mem_def.mpr)
  · obtain ⟨ds, hds, hmem, hne⟩ :=
      @exists_delivered_log s q kmsg rest threads' taker kmsg.remotePort
    rw [Gave, hds, drop_left]
    constructor
    · rintro ⟨d, hd, rfl, -⟩
      exact ho.takes _ (hmem d hd).1
    · intro htaken
      rcases hcase with ⟨hr, -⟩ | rfl
      · rw [ho.refuses t hr] at htaken
        cases htaken
      · obtain ⟨d, hd⟩ := exists_mem_of_ne_nil ds (hne rfl (by simp))
        exact ⟨d, hd, by simpa [eq_comm] using (hmem d hd).1, (hmem d hd).2⟩

@[simp] theorem accept_ipSeqno (s : State) (kmsg : Kmsg) (p : ℕ) :
    ((s.accept kmsg).ports p).ipSeqno = (s.ports p).ipSeqno := by
  by_cases hp : p = kmsg.remotePort
  · simp [hp, accept, setPort, logAccepted]
  · simp [accept, setPort, logAccepted, hp]

theorem sendPass_of_room {s : State} {alloc : ℕ → Bool} {kmsg : Kmsg} {u : ℕ} {option : SendOption}
    {timeout : ℕ}
    (hroom : (s.ports kmsg.remotePort).ipMsgcount < (s.ports kmsg.remotePort).ipQlimit ∨
      option.always = true ∨ kmsg.sendOnce = true)
    (hcircular : kmsg.circular = false)
    (hserial : kmsg.serial = (s.log.accepted kmsg.remotePort).length) :
    (s.sendPass alloc u kmsg option timeout).1 =
      ((s.accept kmsg).deliver alloc (s.home kmsg.remotePort) kmsg).setPhase u .idle := by
  have hkmsg : { kmsg with serial := (s.log.accepted kmsg.remotePort).length } = kmsg := by
    rw [← hserial]
  rw [sendPass, if_neg (not_not.mpr hroom), if_neg (by simp [hcircular]), hkmsg]

theorem Arrives.first {alloc : ℕ → Bool} {q : QueueName} {kmsg : Kmsg} {t : ℕ} {after : List ℕ}
    {s s' : State} (h : s.Arrives alloc q kmsg s') (hnd : (s.mqueue q).imqThreads.Nodup)
    (hfirst : (s.mqueue q).imqThreads = t :: after) :
    s'.threads t =
      (offer (alloc t) kmsg (s.threads t)).thread kmsg (s.ports kmsg.remotePort).ipSeqno ∧
    (s.Gave s' t kmsg ↔ (offer (alloc t) kmsg (s.threads t)).isTaken = true) := by
  cases h with
  | send u option timeout hhome hroom hcircular hserial =>
    rw [sendPass_of_room hroom hcircular hserial, hhome]
    have hd := @deliver_first (s.accept kmsg) alloc q kmsg t after hnd hfirst
    rw [accept_ipSeqno] at hd
    exact ⟨hd.1, hd.2.1⟩
  | move source more hne hmore =>
    let s₁ := s.setMqueue source { s.mqueue source with
      imqMessages := (s.mqueue source).imqMessages.filter
        (fun m => m.remotePort ≠ kmsg.remotePort) }
    have hq : s₁.mqueue q = s.mqueue q := update_of_ne hne.symm _ _
    have hnd₁ : (s₁.mqueue q).imqThreads.Nodup := hq ▸ hnd
    obtain ⟨hthread, hgave, hnd', ht'⟩ :=
      @deliver_first s₁ alloc q kmsg t after hnd₁ (hq ▸ hfirst)
    have hrest : Bypasses t (s₁.deliver alloc q kmsg)
        (more.foldl (fun s kmsg => s.deliver alloc q kmsg) (s₁.deliver alloc q kmsg)) :=
      foldl_deliver_bypasses hnd' ht'
    rw [ipcMqueueMove, hmore]
    exact ⟨hrest.threads.trans hthread,
      (hrest.gave_iff (length_le_length_deliver hnd₁)).trans hgave⟩

end State

theorem receiveFirst_ne_panic (alloc : Bool) (option : RcvOption) (maxSize : ℕ)
    (list : Option ScatterList) (kmsg : Kmsg) (seqno : ℕ) :
    (receiveFirst alloc option maxSize list kmsg seqno).outcome ≠ .panic := by
  fun_cases receiveFirst <;> simp [*]

theorem State.receivePass_queued {s : State} {alloc : Bool} {t : ℕ} {q : QueueName}
    {option : RcvOption} {maxSize timeout : ℕ} {list : Option ScatterList} {kmsg : Kmsg}
    {rest : List Kmsg} (hq : (s.mqueue q).imqMessages = kmsg :: rest) :
    (s.receivePass alloc t q option maxSize timeout list).2 =
      some (receiveFirst alloc option maxSize list kmsg (s.ports kmsg.remotePort).ipSeqno) ∧
    (s.Gave (s.receivePass alloc t q option maxSize timeout list).1 t kmsg ↔
      (receiveFirst alloc option maxSize list kmsg
        (s.ports kmsg.remotePort).ipSeqno).outcome.isMessage = true) := by
  simp only [receivePass, hq]
  split
  case h_1 mr k n he =>
    refine ⟨rfl, ?_⟩
    rw [he]
    refine iff_of_true ⟨⟨t, kmsg, (s.ports kmsg.remotePort).ipSeqno⟩, ?_, rfl, rfl⟩ rfl
    simp [finishQueue, setPhase, giveSeqno, logDelivered, setPort, setMqueue]
  case h_2 he =>
    refine ⟨rfl, ?_⟩
    have hlog : (s.finishQueue t (receiveFirst alloc option maxSize list kmsg
        (s.ports kmsg.remotePort).ipSeqno).outcome).log = s.log := by
      unfold finishQueue
      split <;> rfl
    have hnot : (receiveFirst alloc option maxSize list kmsg
        (s.ports kmsg.remotePort).ipSeqno).outcome.isMessage = false := by
      unfold Outcome.isMessage
      split
      · exact absurd ‹_› (he _ _ _)
      · rfl
    rw [hnot, Gave, hlog, drop_length]
    simp

theorem State.resumeReceive_of_decode {s : State} {alloc : Bool} {t : ℕ} {w : WaitResult}
    {q : QueueName} {o : Outcome} (h : (s.threads t).decode = some o) :
    (s.resumeReceive alloc t w q).2 = some ⟨o, (s.threads t).ithList⟩ := by
  simp only [resumeReceive, h]

/-- The receive of a blocked thread has the same end as the receive of a message in the queue:
the same result, and the message goes or stays. -/
structure SameEnd (t : ℕ) (kmsg : Kmsg) (queued queued' : State) (r : Option Returned)
    (blocked blocked' : State) (r' : Option Returned) : Prop where
  returned : r' = r
  no_panic : ∀ list, r' ≠ some ⟨.panic, list⟩
  gave : blocked.Gave blocked' t kmsg ↔ queued.Gave queued' t kmsg

theorem arrival_order_iff {alloc : ℕ → Bool} {kmsg : Kmsg} {t : ℕ} {option : RcvOption}
    {maxSize timeout : ℕ} {list : Option ScatterList} {qq qb : QueueName} {rest : List Kmsg}
    {queued blocked blocked' : State} {alloc' : Bool} {w : WaitResult}
    (hqueued : (queued.mqueue qq).imqMessages = kmsg :: rest)
    (hblocked : blocked.WaitsFirst t qb option maxSize list)
    (hseqno : (blocked.ports kmsg.remotePort).ipSeqno = (queued.ports kmsg.remotePort).ipSeqno)
    (harrives : blocked.Arrives alloc qb kmsg blocked') :
    SameEnd t kmsg queued
        (queued.receivePass (alloc t) t qq option maxSize timeout list).1
        (queued.receivePass (alloc t) t qq option maxSize timeout list).2
        blocked blocked' (blocked'.resumeReceive alloc' t w qb).2 ↔
      ¬ Shortage (alloc t) kmsg option maxSize list := by
  obtain ⟨after, hfirst⟩ := hblocked.first
  obtain ⟨hthread, hgave⟩ := harrives.first hblocked.nodup hfirst
  obtain ⟨hreturned, hgave'⟩ :=
    @State.receivePass_queued queued (alloc t) t qq option maxSize timeout list kmsg rest hqueued
  obtain ⟨-, -, -, rfl, rfl, rfl⟩ := hblocked
  rw [← hseqno] at hreturned hgave'
  constructor
  · intro hsame hshort
    have hpanic := (@offer_of_shortage _ _ _ (blocked.ports kmsg.remotePort).ipSeqno hshort).1
    rw [← hthread] at hpanic
    exact hsame.no_panic _ (State.resumeReceive_of_decode hpanic)
  · intro hshort
    have hv := @verdict_of_not_shortage _ _ _ (blocked.ports kmsg.remotePort).ipSeqno hshort
    have hresumed := @State.resumeReceive_of_decode blocked' alloc' t w qb _
      ((congrArg Thread.decode hthread).trans hv.decode)
    rw [hthread, hv.list] at hresumed
    refine ⟨hresumed.trans hreturned.symm, fun list h => ?_, ?_⟩
    · rw [hresumed] at h
      exact receiveFirst_ne_panic _ _ _ _ _ _ (congrArg Returned.outcome (Option.some.inj h))
    · rw [hgave, hgave', hv.taken]

/-- A message with one region of a hundred bytes. -/
private def regionKmsg : Kmsg :=
  ⟨0, 0, false, false, true, false, 40, [⟨machMsgOolDescriptor, 100, 0⟩]⟩

/-- A receive into ten bytes that asks for the message to stay when it is larger. -/
private def largeOption : RcvOption := ⟨false, true, false, 8⟩

private def tenBytes : Option ScatterList := some ⟨40, [⟨machMsgOolDescriptor, 10, machMsgOverwrite⟩]⟩

private def regionSent : State :=
  ((State.start 5).sendPass (fun _ => true) 1 regionKmsg ⟨false, false⟩ 0).1

private def regionAwaited : State :=
  ((State.start 5).receivePass true 0 (.port 0) largeOption 64 0 tenBytes).1

theorem arrival_order_iff_region :
    SameEnd 0 regionKmsg regionSent
      (regionSent.receivePass true 0 (.port 0) largeOption 64 0 tenBytes).1
      (regionSent.receivePass true 0 (.port 0) largeOption 64 0 tenBytes).2
      regionAwaited (regionAwaited.sendPass (fun _ => true) 1 regionKmsg ⟨false, false⟩ 0).1
      ((regionAwaited.sendPass (fun _ => true) 1 regionKmsg ⟨false, false⟩ 0).1.resumeReceive true 0
        .awakened (.port 0)).2 ↔
    ¬ Shortage true regionKmsg largeOption 64 tenBytes := by
  have hwaits : regionAwaited.WaitsFirst 0 (.port 0) largeOption 64 tenBytes :=
    (State.receivePass_waitsFirst rfl (by decide)).2
  have harrives : regionAwaited.Arrives (fun _ => true) (.port 0) regionKmsg _ :=
    .send 1 ⟨false, false⟩ 0 rfl (by decide) rfl rfl
  have hqueued : (regionSent.mqueue (.port 0)).imqMessages = [regionKmsg] := by decide
  exact arrival_order_iff hqueued hwaits rfl harrives

/-- Without memory the receive that came first panics, and the other one returns an error. -/
theorem blocked_receive_panics :
    (regionSent.receivePass false 0 (.port 0) largeOption 64 0 tenBytes).2 =
      some ⟨.code .rcvBodyErrorVmKernel, tenBytes⟩ ∧
    ((regionAwaited.sendPass (fun _ => false) 1 regionKmsg ⟨false, false⟩ 0).1.resumeReceive true 0
      .awakened (.port 0)).2 = some ⟨.panic, tenBytes⟩ ∧
    ¬ SameEnd 0 regionKmsg regionSent
      (regionSent.receivePass false 0 (.port 0) largeOption 64 0 tenBytes).1
      (regionSent.receivePass false 0 (.port 0) largeOption 64 0 tenBytes).2
      regionAwaited (regionAwaited.sendPass (fun _ => false) 1 regionKmsg ⟨false, false⟩ 0).1
      ((regionAwaited.sendPass (fun _ => false) 1 regionKmsg ⟨false, false⟩ 0).1.resumeReceive true 0
        .awakened (.port 0)).2 := by
  refine ⟨by decide, by decide, fun h => h.no_panic tenBytes (by decide)⟩

end Darwin.Ipc.MessageQueue
