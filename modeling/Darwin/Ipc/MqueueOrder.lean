import Darwin.Ipc.MqueueRuns
import Darwin.Lib.Listing

/-! # The order of messages

What a port accepts is what it has delivered followed by what waits in its queue. A message that
has been delivered is in the hands of one thread until that thread has received it.
-/
namespace Darwin.Ipc.MessageQueue
open Darwin.Lib Function List

namespace State

/-- The message that thread `t` has been given and has not received yet. -/
def holds (s : State) (t : ℕ) : Option (Kmsg × ℕ) :=
  match s.phase t with
  | .taking _ kmsg seqno => some (kmsg, seqno)
  | .receiving _ _ =>
    match (s.threads t).decode with
    | some (.message _ kmsg seqno) => some (kmsg, seqno)
    | _ => none
  | _ => none

def InHand (s : State) (p : ℕ) (d : Delivery) : Prop :=
  s.holds d.thread = some (d.kmsg, d.seqno) ∧ d.kmsg.remotePort = p

/-- The messages of a port in its queue. -/
def queued (s : State) (p : ℕ) : List Kmsg :=
  (s.mqueue (s.home p)).imqMessages.filter (fun m => m.remotePort = p)

/-! ## One port -/

/-- The messages of a port, when `pending` are those that it has yet to deliver; `first` is its
first sequence number. -/
structure PortOrdered (first : ℕ) (pending : List Kmsg) (s : State) (p : ℕ) : Prop where
  accepted : s.log.accepted p = (s.log.delivered p).map Delivery.kmsg ++ pending
  remote : ∀ m ∈ s.log.accepted p, m.remotePort = p
  serial : (s.log.accepted p).map Kmsg.serial = List.range (s.log.accepted p).length
  seqno : (s.ports p).ipSeqno = u32 (first + (s.log.delivered p).length)
  seqnos : (s.log.delivered p).map Delivery.seqno =
    (List.range (s.log.delivered p).length).map (fun i => u32 (first + i))
  hands : ∃ hs, Listing (s.InHand p) hs ∧ (s.log.received p ++ hs).Perm (s.log.delivered p) ∧
    (s.ports p).ipMsgcount = pending.length + hs.length

namespace PortOrdered
variable {first : ℕ} {pending : List Kmsg} {s s' : State} {p : ℕ}

theorem frame (h : PortOrdered first pending s p)
    (haccepted : s'.log.accepted p = s.log.accepted p)
    (hdelivered : s'.log.delivered p = s.log.delivered p)
    (hreceived : s'.log.received p = s.log.received p)
    (hseqno : (s'.ports p).ipSeqno = (s.ports p).ipSeqno)
    (hmsgcount : (s'.ports p).ipMsgcount = (s.ports p).ipMsgcount)
    (hhands : ∀ d, s'.InHand p d ↔ s.InHand p d) : PortOrdered first pending s' p := by
  obtain ⟨hs, hl, hperm, hcount⟩ := h.hands
  refine ⟨?_, ?_, ?_, ?_, ?_, hs, hl.congr hhands, ?_, ?_⟩
  · rw [haccepted, hdelivered]
    exact h.accepted
  · rw [haccepted]
    exact h.remote
  · rw [haccepted]
    exact h.serial
  · rw [hseqno, hdelivered]
    exact h.seqno
  · rw [hdelivered]
    exact h.seqnos
  · rw [hreceived, hdelivered]
    exact hperm
  · rw [hmsgcount]
    exact hcount

theorem accept (h : PortOrdered first pending s p) {m : Kmsg}
    (hport : m.remotePort = p) (hserial : m.serial = (s.log.accepted p).length)
    (haccepted : s'.log.accepted p = s.log.accepted p ++ [m])
    (hdelivered : s'.log.delivered p = s.log.delivered p)
    (hreceived : s'.log.received p = s.log.received p)
    (hseqno : (s'.ports p).ipSeqno = (s.ports p).ipSeqno)
    (hmsgcount : (s'.ports p).ipMsgcount = (s.ports p).ipMsgcount + 1)
    (hhands : ∀ d, s'.InHand p d ↔ s.InHand p d) : PortOrdered first (pending ++ [m]) s' p := by
  obtain ⟨hs, hl, hperm, hcount⟩ := h.hands
  refine ⟨?_, ?_, ?_, ?_, ?_, hs, hl.congr hhands, ?_, ?_⟩
  · rw [haccepted, hdelivered, h.accepted, append_assoc]
  · rw [haccepted]
    intro m' hm'
    rcases mem_append.mp hm' with hm' | hm'
    · exact h.remote m' hm'
    · rw [mem_singleton.mp hm', hport]
  · rw [haccepted, map_append, h.serial, length_append, length_singleton,
      range_succ]
    simp [hserial]
  · rw [hseqno, hdelivered]
    exact h.seqno
  · rw [hdelivered]
    exact h.seqnos
  · rw [hreceived, hdelivered]
    exact hperm
  · rw [hmsgcount, hcount, length_append, length_singleton]
    omega

theorem hand {m : Kmsg} {t : ℕ} (h : PortOrdered first (m :: pending) s p)
    (haccepted : s'.log.accepted p = s.log.accepted p)
    (hdelivered : s'.log.delivered p = s.log.delivered p ++ [⟨t, m, (s.ports p).ipSeqno⟩])
    (hreceived : s'.log.received p = s.log.received p)
    (hseqno : (s'.ports p).ipSeqno = u32 ((s.ports p).ipSeqno + 1))
    (hmsgcount : (s'.ports p).ipMsgcount = (s.ports p).ipMsgcount)
    (hbefore : s.holds t = none) (hafter : s'.holds t = some (m, (s.ports p).ipSeqno))
    (hothers : ∀ u, u ≠ t → s'.holds u = s.holds u) : PortOrdered first pending s' p := by
  obtain ⟨hs, hl, hperm, hcount⟩ := h.hands
  have hm : m.remotePort = p := h.remote m (by simp [h.accepted])
  refine ⟨?_, ?_, ?_, ?_, ?_, ⟨t, m, (s.ports p).ipSeqno⟩ :: hs, ?_, ?_, ?_⟩
  · rw [haccepted, hdelivered, h.accepted]
    simp
  · rw [haccepted]
    exact h.remote
  · rw [haccepted]
    exact h.serial
  · rw [hseqno, hdelivered, h.seqno, length_append, length_singleton]
    simp [u32, Nat.add_assoc]
  · rw [hdelivered, map_append, h.seqnos, length_append, length_singleton,
      range_succ, map_append, h.seqno]
    simp
  · refine hl.cons ?_ ⟨hafter, hm⟩ ?_
    · rintro ⟨hd, -⟩
      rw [hbefore] at hd
      cases hd
    · rintro ⟨u, k, n⟩ hd
      unfold InHand
      by_cases hut : u = t
      · subst hut
        rw [hbefore, hafter]
        refine iff_of_false ?_ (by simp)
        rintro ⟨he, -⟩
        obtain ⟨rfl, rfl⟩ := Prod.mk.inj (Option.some.inj he)
        exact hd rfl
      · rw [hothers _ hut]
  · rw [hreceived, hdelivered]
    exact (perm_middle.trans (hperm.cons _)).trans
      (perm_append_singleton _ _).symm
  · rw [hmsgcount, hcount, length_cons, length_cons]
    omega

theorem take {m : Kmsg} {t n : ℕ} (h : PortOrdered first pending s p)
    (haccepted : s'.log.accepted p = s.log.accepted p)
    (hdelivered : s'.log.delivered p = s.log.delivered p)
    (hreceived : s'.log.received p = s.log.received p ++ [⟨t, m, n⟩])
    (hseqno : (s'.ports p).ipSeqno = (s.ports p).ipSeqno)
    (hmsgcount : (s'.ports p).ipMsgcount = (s.ports p).ipMsgcount - 1)
    (hm : m.remotePort = p)
    (hbefore : s.holds t = some (m, n)) (hafter : s'.holds t = none)
    (hothers : ∀ u, u ≠ t → s'.holds u = s.holds u) : PortOrdered first pending s' p := by
  obtain ⟨hs, hl, hperm, hcount⟩ := h.hands
  have hmem : ⟨t, m, n⟩ ∈ hs := (hl.mem_iff _).mpr ⟨hbefore, hm⟩
  refine ⟨?_, ?_, ?_, ?_, ?_, hs.erase ⟨t, m, n⟩, ?_, ?_, ?_⟩
  · rw [haccepted, hdelivered]
    exact h.accepted
  · rw [haccepted]
    exact h.remote
  · rw [haccepted]
    exact h.serial
  · rw [hseqno, hdelivered]
    exact h.seqno
  · rw [hdelivered]
    exact h.seqnos
  · refine hl.erase ?_ ?_
    · rintro ⟨hd, -⟩
      rw [hafter] at hd
      cases hd
    · rintro ⟨u, k, n'⟩ hd
      unfold InHand
      by_cases hut : u = t
      · subst hut
        rw [hbefore, hafter]
        refine iff_of_false (by simp) ?_
        rintro ⟨he, -⟩
        obtain ⟨rfl, rfl⟩ := Prod.mk.inj (Option.some.inj he)
        exact hd rfl
      · rw [hothers _ hut]
  · rw [hreceived, hdelivered, append_assoc, singleton_append]
    exact ((perm_cons_erase hmem).symm.append_left _).trans hperm
  · have hpos := length_pos_of_mem hmem
    rw [hmsgcount, hcount, length_erase_of_mem hmem]
    omega

end PortOrdered

/-! ## All ports -/

/-- The messages of all ports, when those in `flight` have left a queue or a sender and have not
come to a queue yet. -/
structure Ordered (first : ℕ → ℕ) (flight : List Kmsg) (s : State) : Prop where
  empty : ∀ q, (s.mqueue q).imqThreads ≠ [] → (s.mqueue q).imqMessages = []
  home : ∀ q, ∀ m ∈ (s.mqueue q).imqMessages, s.home m.remotePort = q
  port : ∀ p, PortOrdered (first p)
    (s.queued p ++ flight.filter (fun m => m.remotePort = p)) s p

/-- Nothing has changed for the messages. -/
structure SameMessages (s s' : State) : Prop where
  messages : ∀ q, (s'.mqueue q).imqMessages = (s.mqueue q).imqMessages
  threads : ∀ q, (s'.mqueue q).imqThreads ≠ [] →
    (s.mqueue q).imqThreads ≠ [] ∨ (s.mqueue q).imqMessages = []
  pset : ∀ p, (s'.ports p).ipPset = (s.ports p).ipPset
  seqno : ∀ p, (s'.ports p).ipSeqno = (s.ports p).ipSeqno
  msgcount : ∀ p, (s'.ports p).ipMsgcount = (s.ports p).ipMsgcount
  log : s'.log = s.log
  holds : ∀ t, s'.holds t = s.holds t

theorem home_congr {s s' : State} {p : ℕ} (h : (s'.ports p).ipPset = (s.ports p).ipPset) :
    s'.home p = s.home p := by
  unfold State.home
  rw [h]

variable {first : ℕ → ℕ} {flight : List Kmsg} {s s' : State}

theorem Ordered.of_same (h : Ordered first flight s) (hs : SameMessages s s') :
    Ordered first flight s' := by
  have hhome : ∀ p, s'.home p = s.home p := fun p => home_congr (hs.pset p)
  have hqueued : ∀ p, s'.queued p = s.queued p := fun p => by
    rw [queued, queued, hhome, hs.messages]
  refine ⟨fun q hq => ?_, fun q m hm => ?_, fun p => ?_⟩
  · rw [hs.messages]
    exact (hs.threads q hq).elim (h.empty q) id
  · rw [hs.messages] at hm
    rw [hhome]
    exact h.home q m hm
  · rw [hqueued]
    refine (h.port p).frame ?_ ?_ ?_ (hs.seqno p) (hs.msgcount p) ?_
    · rw [hs.log]
    · rw [hs.log]
    · rw [hs.log]
    · intro d
      unfold InHand
      rw [hs.holds]

theorem holds_eq_none_of_mem (hw : s.Waits) {q : QueueName} {t : ℕ}
    (ht : t ∈ (s.mqueue q).imqThreads) : s.holds t = none := by
  obtain ⟨⟨timeout, hphase⟩, hstate⟩ := hw.receivers q t ht
  unfold holds
  rw [hphase]
  simp only [decode_eq_none_iff.mpr hstate]

theorem holds_delivered (hw : s.Waits) {alloc : ℕ → Bool} {q : QueueName} {m : Kmsg}
    {refused rest : List ℕ} {taker : Option ℕ} {threads' : ℕ → Thread}
    (ho : Offered alloc m (s.ports m.remotePort).ipSeqno (s.mqueue q).imqThreads s.threads refused
      rest taker threads') (t : ℕ) :
    (s.delivered q m rest threads' taker).holds t =
      if t ∈ taker then some (m, (s.ports m.remotePort).ipSeqno) else s.holds t := by
  have hmem : ∀ u, u ∈ refused ∨ u ∈ taker → u ∈ (s.mqueue q).imqThreads := by
    intro u hu
    rw [ho.split]
    rcases hu with hu | hu
    · exact mem_append_left _ hu
    · exact mem_append_right _ (mem_append_left _ (by simpa using hu))
  by_cases ht : t ∈ taker
  · obtain ⟨mr, hd⟩ := @decode_of_taken (alloc t) m (s.threads t) (s.ports m.remotePort).ipSeqno
      (ho.takes t ht)
    obtain ⟨⟨timeout, hphase⟩, -⟩ := hw.receivers q t (hmem t (.inr ht))
    unfold holds
    rw [delivered_phase, delivered_threads, hphase, ho.offered t (.inr ht)]
    simp only [hd, if_pos ht]
  · rw [if_neg ht]
    by_cases hr : t ∈ refused
    · rw [holds_eq_none_of_mem hw (hmem t (.inl hr))]
      obtain ⟨⟨timeout, hphase⟩, -⟩ := hw.receivers q t (hmem t (.inl hr))
      unfold holds
      rw [delivered_phase, delivered_threads, hphase, ho.offered t (.inl hr)]
      dsimp only
      split
      case h_1 mr k n hd => exact absurd hd (decode_of_refused (ho.refuses t hr) mr k n)
      case h_2 => rfl
    · unfold holds
      rw [delivered_phase, delivered_threads, ho.others t hr ht]

theorem home_delivered {q : QueueName} {m : Kmsg} {rest : List ℕ} {taker : Option ℕ}
    {threads' : ℕ → Thread} (p : ℕ) :
    (s.delivered q m rest threads' taker).home p = s.home p := by
  obtain ⟨seqno, hp⟩ := @delivered_ports s q m rest threads' taker p
  exact home_congr (by rw [hp])

theorem PortOrdered.of_other {f : ℕ} {pending : List Kmsg} {p t : ℕ}
    (h : PortOrdered f pending s p) (haccepted : s'.log.accepted p = s.log.accepted p)
    (hdelivered : s'.log.delivered p = s.log.delivered p)
    (hreceived : s'.log.received p = s.log.received p)
    (hseqno : (s'.ports p).ipSeqno = (s.ports p).ipSeqno)
    (hmsgcount : (s'.ports p).ipMsgcount = (s.ports p).ipMsgcount)
    (hbefore : ∀ m ∈ s.holds t, m.1.remotePort ≠ p) (hafter : ∀ m ∈ s'.holds t, m.1.remotePort ≠ p)
    (hothers : ∀ u, u ≠ t → s'.holds u = s.holds u) : PortOrdered f pending s' p := by
  refine h.frame haccepted hdelivered hreceived hseqno hmsgcount (fun d => ?_)
  unfold InHand
  by_cases hd : d.thread = t
  · rw [hd]
    exact iff_of_false (fun hh => hafter _ hh.1 hh.2) (fun hh => hbefore _ hh.1 hh.2)
  · rw [hothers _ hd]

theorem filter_cons_of_remote {m : Kmsg} {p : ℕ} (hp : p ≠ m.remotePort) (l : List Kmsg) :
    (m :: l).filter (fun m => m.remotePort = p) = l.filter (fun m => m.remotePort = p) :=
  filter_cons_of_neg (by simpa using Ne.symm hp)

theorem Ordered.enqueue {m : Kmsg} (h : Ordered first (m :: flight) s) {threads' : ℕ → Thread}
    (hholds : ∀ t, (s.delivered (s.home m.remotePort) m [] threads' none).holds t = s.holds t) :
    Ordered first flight (s.delivered (s.home m.remotePort) m [] threads' none) := by
  have hmqueue : (s.delivered (s.home m.remotePort) m [] threads' none).mqueue
      (s.home m.remotePort) = ⟨(s.mqueue (s.home m.remotePort)).imqMessages ++ [m], []⟩ :=
    update_self ..
  have hqueued : ∀ p, (s.delivered (s.home m.remotePort) m [] threads' none).queued p =
      s.queued p ++ [m].filter (fun m => m.remotePort = p) := by
    intro p
    rw [queued, queued, home_delivered]
    by_cases hp : s.home p = s.home m.remotePort
    · rw [hp, hmqueue, filter_append]
    · rw [delivered_mqueue_of_ne hp, filter_cons_of_remote (fun he => hp (he ▸ rfl)),
        filter_nil, append_nil]
  refine ⟨fun q hq => ?_, fun q m' hm' => ?_, fun p => ?_⟩
  · by_cases he : q = s.home m.remotePort
    · rw [he, hmqueue] at hq
      exact absurd rfl hq
    · rw [delivered_mqueue_of_ne he] at hq ⊢
      exact h.empty q hq
  · rw [home_delivered]
    by_cases he : q = s.home m.remotePort
    · rw [he, hmqueue] at hm'
      rcases mem_append.mp hm' with hm' | hm'
      · rw [he, h.home _ m' hm']
      · rw [he, mem_singleton.mp hm']
    · rw [delivered_mqueue_of_ne he] at hm'
      exact h.home q m' hm'
  · rw [hqueued, append_assoc, ← filter_append, singleton_append]
    refine (h.port p).frame rfl rfl rfl rfl rfl (fun d => ?_)
    unfold InHand
    rw [hholds]

theorem Ordered.handOver {m : Kmsg} {t : ℕ} {rest : List ℕ} (h : Ordered first (m :: flight) s)
    {threads' : ℕ → Thread} (ht : t ∈ (s.mqueue (s.home m.remotePort)).imqThreads) (hw : s.Waits)
    (hholds : ∀ u, (s.delivered (s.home m.remotePort) m rest threads' (some t)).holds u =
      if u = t then some (m, (s.ports m.remotePort).ipSeqno) else s.holds u) :
    Ordered first flight (s.delivered (s.home m.remotePort) m rest threads' (some t)) := by
  have hnil : (s.mqueue (s.home m.remotePort)).imqMessages = [] :=
    h.empty _ (ne_nil_of_mem ht)
  have hmessages : ∀ q, ((s.delivered (s.home m.remotePort) m rest threads'
      (some t)).mqueue q).imqMessages = (s.mqueue q).imqMessages := by
    intro q
    by_cases he : q = s.home m.remotePort
    · subst he
      simp [State.delivered, giveSeqno]
    · rw [delivered_mqueue_of_ne he]
  have hqueued : ∀ p, (s.delivered (s.home m.remotePort) m rest threads' (some t)).queued p =
      s.queued p := by
    intro p
    rw [queued, queued, home_delivered, hmessages]
  refine ⟨fun q hq => ?_, fun q m' hm' => ?_, fun p => ?_⟩
  · rw [hmessages]
    by_cases he : q = s.home m.remotePort
    · rw [he, hnil]
    · rw [delivered_mqueue_of_ne he] at hq
      exact h.empty q hq
  · rw [hmessages] at hm'
    rw [home_delivered]
    exact h.home q m' hm'
  · rw [hqueued]
    have hp := h.port p
    by_cases he : p = m.remotePort
    · subst he
      have hq : s.queued m.remotePort = [] := by rw [queued, hnil, filter_nil]
      rw [hq, nil_append] at hp ⊢
      rw [filter_cons_of_pos (by simp)] at hp
      refine hp.hand rfl ?_ rfl ?_ ?_ (holds_eq_none_of_mem hw ht) ?_ ?_
      · rw [delivered_log_some, update_self]
      · simp [State.delivered, giveSeqno]
      · simp [State.delivered, giveSeqno]
      · rw [hholds, if_pos rfl]
      · intro u hu
        rw [hholds, if_neg hu]
    · rw [filter_cons_of_remote he] at hp
      refine hp.of_other (t := t) rfl ?_ rfl ?_ ?_ ?_ ?_ ?_
      · rw [delivered_log_some, update_of_ne he]
      · simp [State.delivered, giveSeqno, he]
      · simp [State.delivered, giveSeqno, he]
      · simp [holds_eq_none_of_mem hw ht]
      · rw [hholds, if_pos rfl]
        rintro _ ⟨⟩
        exact Ne.symm he
      · intro u hu
        rw [hholds, if_neg hu]

theorem Ordered.deliver {m : Kmsg} (h : Ordered first (m :: flight) s) (hw : s.Waits)
    (alloc : ℕ → Bool) : Ordered first flight (s.deliver alloc (s.home m.remotePort) m) := by
  obtain ⟨refused, rest, taker, threads', ho, he⟩ :=
    deliver_cases alloc (s.home m.remotePort) m (hw.receivers_nodup (s.home m.remotePort))
  rw [he]
  have hholds := holds_delivered hw ho
  cases taker with
  | none =>
    obtain rfl := ho.rest_nil rfl
    exact h.enqueue (fun t => by simpa using hholds t)
  | some t =>
    refine h.handOver ?_ hw (fun u => ?_)
    · rw [ho.split]
      simp
    · rw [hholds u]
      simp only [Option.mem_def, Option.some.injEq, eq_comm]

theorem ipPset_deliver (hw : s.Waits) (alloc : ℕ → Bool) (q : QueueName) (m : Kmsg) (p : ℕ) :
    ((s.deliver alloc q m).ports p).ipPset = (s.ports p).ipPset := by
  obtain ⟨refused, rest, taker, threads', -, he⟩ := deliver_cases alloc q m (hw.receivers_nodup q)
  obtain ⟨seqno, hp⟩ := @delivered_ports s q m rest threads' taker p
  rw [he, hp]

theorem ipPset_foldl_deliver (hw : s.Waits) (alloc : ℕ → Bool) (q : QueueName) (kmsgs : List Kmsg)
    (p : ℕ) : ((kmsgs.foldl (fun s m => s.deliver alloc q m) s).ports p).ipPset =
      (s.ports p).ipPset := by
  induction kmsgs generalizing s with
  | nil => rfl
  | cons m kmsgs ih =>
    rw [foldl_cons, ih ((hw.deliver_queueOnly alloc q m).waits hw), ipPset_deliver hw]

theorem Ordered.foldl_deliver {q : QueueName} {kmsgs : List Kmsg} (h : Ordered first kmsgs s)
    (hw : s.Waits) (hq : ∀ m ∈ kmsgs, s.home m.remotePort = q) (alloc : ℕ → Bool) :
    Ordered first [] (kmsgs.foldl (fun s m => s.deliver alloc q m) s) := by
  induction kmsgs generalizing s with
  | nil => exact h
  | cons m kmsgs ih =>
    have hm := hq m mem_cons_self
    have hd := h.deliver hw alloc
    rw [hm] at hd
    refine ih hd ((hw.deliver_queueOnly alloc q m).waits hw) (fun m' hm' => ?_)
    rw [home_congr (ipPset_deliver hw alloc q m _)]
    exact hq m' (mem_cons_of_mem _ hm')

/-! ## Ports that change their queue -/

theorem Ordered.rehome (h : Ordered first [] s) {p : ℕ} {pset : Option ℕ} {source : QueueName}
    (hsource : s.home p = source)
    (hdest : (s.setPort p { s.ports p with ipPset := pset }).home p ≠ source) :
    Ordered first ((s.mqueue source).imqMessages.filter (fun m => m.remotePort = p))
      ((s.setPort p { s.ports p with ipPset := pset }).setMqueue source
        { s.mqueue source with
          imqMessages := (s.mqueue source).imqMessages.filter (fun m => m.remotePort ≠ p) }) := by
  set s' := (s.setPort p { s.ports p with ipPset := pset }).setMqueue source
    { s.mqueue source with
      imqMessages := (s.mqueue source).imqMessages.filter (fun m => m.remotePort ≠ p) } with hs'
  have hdest : s'.home p ≠ source := hdest
  have hhome : ∀ r, r ≠ p → s'.home r = s.home r := fun r hr => home_congr (by simp [hs', hr])
  have hother : ∀ q, q ≠ source → s'.mqueue q = s.mqueue q := fun q hq => by simp [hs', hq]
  have hself : s'.mqueue source = { s.mqueue source with
      imqMessages := (s.mqueue source).imqMessages.filter (fun m => m.remotePort ≠ p) } := by
    simp [hs']
  have hne : ∀ q, q ≠ source → ∀ m ∈ (s.mqueue q).imqMessages, m.remotePort ≠ p := by
    rintro q hq m hm rfl
    exact hq ((h.home q m hm).symm.trans hsource)
  have hports : ∀ r, (s'.ports r).ipSeqno = (s.ports r).ipSeqno ∧
      (s'.ports r).ipMsgcount = (s.ports r).ipMsgcount := by
    intro r
    by_cases hr : r = p
    · simp [hs', hr]
    · simp [hs', hr]
  refine ⟨fun q hq => ?_, fun q m hm => ?_, fun r => ?_⟩
  · by_cases hq' : q = source
    · subst hq'
      rw [hself] at hq ⊢
      simp [h.empty q hq]
    · rw [hother q hq'] at hq ⊢
      exact h.empty q hq
  · by_cases hq' : q = source
    · subst hq'
      rw [hself] at hm
      obtain ⟨hm, hmp⟩ := mem_filter.mp hm
      rw [hhome _ (by simpa using hmp)]
      exact h.home q m hm
    · rw [hother q hq'] at hm
      rw [hhome _ (hne q hq' m hm)]
      exact h.home q m hm
  · have hpending : s'.queued r ++ ((s.mqueue source).imqMessages.filter
        (fun m => m.remotePort = p)).filter (fun m => m.remotePort = r) =
        s.queued r ++ ([] : List Kmsg).filter (fun m => m.remotePort = r) := by
      rw [filter_nil, append_nil, filter_filter]
      by_cases hr : r = p
      · subst hr
        have hnil : s'.queued r = [] := by
          rw [queued, hother _ hdest, filter_eq_nil_iff]
          intro m hm
          simpa using hne _ hdest m hm
        rw [hnil, nil_append, queued, hsource]
        simp
      · have hnil : (s.mqueue source).imqMessages.filter
            (fun m => decide (m.remotePort = r) && decide (m.remotePort = p)) = [] := by
          rw [filter_eq_nil_iff]
          intro m _
          simp only [Bool.and_eq_true, decide_eq_true_eq, not_and]
          rintro rfl
          exact hr
        rw [hnil, append_nil, queued, queued, hhome r hr]
        by_cases hq : s.home r = source
        · rw [hq, hself, filter_filter]
          refine filter_congr (fun m _ => ?_)
          by_cases hm : m.remotePort = r
          · simp [hm, hr]
          · simp [hm]
        · rw [hother _ hq]
    rw [hpending]
    refine (h.port r).frame rfl rfl rfl (hports r).1 (hports r).2 (fun d => ?_)
    rfl

theorem Ordered.changed (h : Ordered first flight s) (hw : s.Waits) (q : QueueName)
    {mr : MachMsgReturn} (hmr : mr = .rcvPortChanged ∨ mr = .rcvPortDied) :
    Ordered first flight (s.ipcMqueueChanged q mr) := by
  refine h.of_same ⟨fun q' => ?_, fun q' hq' => .inl ?_, ?_, ?_, ?_, ?_, fun t => ?_⟩
  · by_cases hq : q' = q
    · simp [ipcMqueueChanged, hq]
    · simp [ipcMqueueChanged, wakeAll_eq, hq]
  · exact fun hnil => hq' (sublist_nil.mp (hnil ▸ (hw.changed_queueOnly q mr).receivers q'))
  · simp [ipcMqueueChanged, wakeAll_eq]
  · simp [ipcMqueueChanged, wakeAll_eq]
  · simp [ipcMqueueChanged, wakeAll_eq]
  · simp [ipcMqueueChanged, wakeAll_eq]
  · by_cases ht : t ∈ (s.mqueue q).imqThreads
    · rw [holds_eq_none_of_mem hw ht]
      obtain ⟨⟨timeout, hphase⟩, -⟩ := hw.receivers q t ht
      unfold holds
      rw [(hw.changed_queueOnly q mr).phase, hphase]
      rcases hmr with rfl | rfl <;> simp [ipcMqueueChanged, wakeAll_eq, ht, Thread.decode]
    · unfold holds
      simp [ipcMqueueChanged, wakeAll_eq, ht]

theorem home_setPort (s : State) (p : ℕ) (port : Port) :
    (s.setPort p port).home p = match port.ipPset with
      | none => .port p
      | some ps => .pset ps := by
  cases hps : port.ipPset with
  | none => simp [State.home, hps]
  | some ps => simp [State.home, hps]

theorem Ordered.psetAdd (h : Ordered first [] s) (hw : s.Waits) {p : ℕ}
    (hp : (s.ports p).ipPset = none) (alloc : ℕ → Bool) (ps : ℕ) :
    Ordered first [] (s.ipcPsetAdd alloc ps p) := by
  have hw₁ := (setPort_pset_queueOnly s p (some ps)).waits hw
  have hmove : Ordered first []
      ((s.setPort p { s.ports p with ipPset := some ps }).ipcMqueueMove alloc (.pset ps) (.port p) p) := by
    refine (h.rehome (by simp [State.home, hp]) (by simp [home_setPort])).foldl_deliver
      ((setMqueue_queueOnly _ _ _).waits hw₁) (fun m hm => ?_) alloc
    obtain ⟨-, hm⟩ := mem_filter.mp hm
    have hm : m.remotePort = p := by simpa using hm
    simp [State.home, hm]
  exact hmove.changed ((hw₁.move_queueOnly _ _ _ _).waits hw₁) _ (.inl rfl)

theorem Ordered.psetRemove (h : Ordered first [] s) (hw : s.Waits) {p ps : ℕ}
    (hp : (s.ports p).ipPset = some ps) (alloc : ℕ → Bool) :
    Ordered first [] (s.ipcPsetRemove alloc ps p) := by
  have hw₁ := (setPort_pset_queueOnly s p none).waits hw
  refine (h.rehome (by simp [State.home, hp]) (by simp [home_setPort])).foldl_deliver
    ((setMqueue_queueOnly _ _ _).waits hw₁) (fun m hm => ?_) alloc
  obtain ⟨-, hm⟩ := mem_filter.mp hm
  have hm : m.remotePort = p := by simpa using hm
  simp [State.home, hm]

theorem Ordered.psetMove (h : Ordered first [] s) (hw : s.Waits) (alloc alloc' : ℕ → Bool) (p : ℕ)
    (nset : Option ℕ) : Ordered first [] (s.ipcPsetMove alloc alloc' p nset) := by
  unfold ipcPsetMove
  split
  case h_1 => exact h
  case h_2 nset hp => exact h.psetAdd hw hp alloc nset
  case h_3 oset hp => exact h.psetRemove hw hp alloc
  case h_4 oset nset hp =>
    split
    · exact h
    · have hr := h.psetRemove hw hp alloc
      have hq := hw.psetRemove_queueOnly alloc oset p
      refine hr.psetAdd (hq.waits hw) ?_ alloc' nset
      have hw' := (setPort_pset_queueOnly s p none).waits hw
      rw [ipcPsetRemove, ipcMqueueMove,
        ipPset_foldl_deliver ((setMqueue_queueOnly _ _ _).waits hw')]
      simp

theorem Ordered.psetDestroy (h : Ordered first [] s) (hw : s.Waits) (ps : ℕ) :
    Ordered first [] (s.ipcPsetDestroy ps) := by
  have hs : SameMessages s { s with ipsActive := update s.ipsActive ps false } :=
    ⟨fun _ => rfl, fun _ hq => .inl hq, fun _ => rfl, fun _ => rfl, fun _ => rfl, rfl, fun _ => rfl⟩
  have hw' : Waits { s with ipsActive := update s.ipsActive ps false } :=
    hw.shrink (fun _ => List.Sublist.refl _) (fun _ => List.Sublist.refl _) (fun _ _ => ⟨rfl, rfl⟩)
  exact (h.of_same hs).changed hw' (.pset ps) (.inr rfl)

/-! ## Threads that send and receive -/

theorem holds_setPhase_of_ne {t u : ℕ} {ph : Phase} (hu : u ≠ t) :
    (s.setPhase t ph).holds u = s.holds u := by
  unfold holds
  rw [setPhase_phase, update_of_ne hu, setPhase_threads]

theorem sameMessages_setPhase {t : ℕ} {ph : Phase} (h : (s.setPhase t ph).holds t = s.holds t) :
    SameMessages s (s.setPhase t ph) := by
  refine ⟨fun _ => rfl, fun _ hq => .inl hq, fun _ => rfl, fun _ => rfl, fun _ => rfl, rfl, fun u => ?_⟩
  by_cases hu : u = t
  · rw [hu, h]
  · exact holds_setPhase_of_ne hu

@[simp] theorem holds_setPhase_idle (s : State) (t : ℕ) : (s.setPhase t .idle).holds t = none := by
  simp [holds]

theorem holds_eq_none_of_idle {t : ℕ} (h : s.phase t = .idle) : s.holds t = none := by
  simp [holds, h]

theorem holds_eq_none_of_sending {t : ℕ} {kmsg : Kmsg} {option : SendOption} {timeout : ℕ}
    (h : s.phase t = .sending kmsg option timeout) : s.holds t = none := by
  simp [holds, h]

theorem holds_eq_none_of_decode {t : ℕ} {q : QueueName} {timeout : ℕ}
    (h : s.phase t = .receiving q timeout) (hd : (s.threads t).decode = none) : s.holds t = none := by
  simp [holds, h, hd]

theorem Ordered.accept {m : Kmsg} (h : Ordered first [] s)
    (hserial : m.serial = (s.log.accepted m.remotePort).length) :
    Ordered first [m] (s.accept m) := by
  have hpset : ∀ p, ((s.accept m).ports p).ipPset = (s.ports p).ipPset := by
    intro p
    by_cases hp : p = m.remotePort
    · simp [hp, State.accept]
    · simp [State.accept, hp]
  have hhome : ∀ p, (s.accept m).home p = s.home p := fun p => home_congr (hpset p)
  have hqueued : ∀ p, (s.accept m).queued p = s.queued p := by
    intro p
    rw [queued, queued, hhome]
    rfl
  refine ⟨h.empty, fun q m' hm' => ?_, fun p => ?_⟩
  · rw [hhome]
    exact h.home q m' hm'
  · have hp := h.port p
    rw [filter_nil, append_nil] at hp
    rw [hqueued]
    by_cases he : p = m.remotePort
    · subst he
      rw [filter_cons_of_pos (by simp), filter_nil]
      refine hp.accept rfl hserial ?_ rfl rfl (accept_ipSeqno s m _) ?_ (fun d => Iff.rfl)
      · simp [State.accept]
      · simp [State.accept]
    · rw [filter_cons_of_remote he, filter_nil, append_nil]
      refine hp.frame ?_ rfl rfl (accept_ipSeqno s m _) ?_ (fun d => Iff.rfl)
      · simp [State.accept, he]
      · simp [State.accept, he]

theorem Ordered.sendPass (h : Ordered first [] s) (hw : s.Waits) {t : ℕ}
    (hphase : ∀ q timeout, s.phase t ≠ .receiving q timeout) (hholds : s.holds t = none)
    (alloc : ℕ → Bool) (kmsg : Kmsg) (option : SendOption) (timeout : ℕ) :
    Ordered first [] (s.sendPass alloc t kmsg option timeout).1 := by
  obtain ⟨he, -⟩ | ⟨-, he⟩ | ⟨m, hremote, hserial, he⟩ :=
    sendPass_cases s alloc t kmsg option timeout
  · rw [he]
    exact h.of_same (sameMessages_setPhase (by rw [holds_setPhase_idle, hholds]))
  · rw [he]
    refine h.of_same ⟨fun _ => rfl, fun _ hq => .inl hq, fun p => ?_, fun p => ?_, fun p => ?_, rfl,
      fun u => ?_⟩
    · by_cases hp : p = kmsg.remotePort <;> simp [hp]
    · by_cases hp : p = kmsg.remotePort <;> simp [hp]
    · by_cases hp : p = kmsg.remotePort <;> simp [hp]
    · by_cases hu : u = t
      · rw [hu, hholds]
        simp [holds]
      · rw [holds_setPhase_of_ne hu]
        simp [holds, hu]
  · rw [he, ← hremote]
    have hw' := hw.accept m
    have hd := (h.accept (hremote ▸ hserial)).deliver hw' alloc
    have hhome : (s.accept m).home m.remotePort = s.home m.remotePort :=
      home_congr (by simp [State.accept])
    rw [hhome] at hd
    refine hd.of_same (sameMessages_setPhase ?_)
    have hq := hw'.deliver_queueOnly alloc (s.home m.remotePort) m
    rw [holds_setPhase_idle]
    unfold holds
    rw [hq.phase, hq.threads_of_phase hw' hphase]
    exact hholds.symm

theorem Ordered.take {q : QueueName} {t : ℕ} {kmsg : Kmsg} {kmsgs : List Kmsg}
    (h : Ordered first [] s) (hq : (s.mqueue q).imqMessages = kmsg :: kmsgs)
    (hholds : s.holds t = none) (mr : MachMsgReturn) :
    Ordered first [] (((s.setMqueue q { s.mqueue q with imqMessages := kmsgs }).giveSeqno t
      kmsg).setPhase t (.taking mr kmsg (s.ports kmsg.remotePort).ipSeqno)) := by
  set s' := ((s.setMqueue q { s.mqueue q with imqMessages := kmsgs }).giveSeqno t kmsg).setPhase t
    (.taking mr kmsg (s.ports kmsg.remotePort).ipSeqno) with hs'
  have hmqueue : s'.mqueue q = { s.mqueue q with imqMessages := kmsgs } := by
    simp [hs', giveSeqno]
  have hother : ∀ q', q' ≠ q → s'.mqueue q' = s.mqueue q' := fun q' hq' => by
    simp [hs', giveSeqno, hq']
  have hports : ∀ p, (s'.ports p).ipPset = (s.ports p).ipPset ∧
      (s'.ports p).ipMsgcount = (s.ports p).ipMsgcount := by
    intro p
    by_cases hp : p = kmsg.remotePort
    · simp [hs', giveSeqno, hp]
    · simp [hs', giveSeqno, hp]
  have hhome : ∀ p, s'.home p = s.home p := fun p => home_congr (hports p).1
  have hkmsg : s.home kmsg.remotePort = q := h.home q kmsg (by simp [hq])
  have hqueued : ∀ p, s.queued p =
      [kmsg].filter (fun m => m.remotePort = p) ++ s'.queued p := by
    intro p
    rw [queued, queued, hhome]
    by_cases hp : s.home p = q
    · rw [hp, hmqueue, hq, ← filter_append, singleton_append]
    · rw [hother _ hp, filter_cons_of_remote (by rintro rfl; exact hp hkmsg), filter_nil,
        nil_append]
  have hafter : s'.holds t = some (kmsg, (s.ports kmsg.remotePort).ipSeqno) := by
    simp [hs', holds]
  have hothers : ∀ u, u ≠ t → s'.holds u = s.holds u := fun u hu => holds_setPhase_of_ne hu
  refine ⟨fun q' hq' => ?_, fun q' m hm => ?_, fun p => ?_⟩
  · by_cases he : q' = q
    · subst he
      rw [hmqueue] at hq'
      rw [h.empty q' hq'] at hq
      cases hq
    · rw [hother q' he] at hq' ⊢
      exact h.empty q' hq'
  · rw [hhome]
    by_cases he : q' = q
    · subst he
      rw [hmqueue] at hm
      exact h.home q' m (hq ▸ mem_cons_of_mem _ hm)
    · rw [hother q' he] at hm
      exact h.home q' m hm
  · have hp := h.port p
    rw [hqueued p] at hp
    rw [filter_nil, append_nil] at hp ⊢
    by_cases he : p = kmsg.remotePort
    · subst he
      rw [filter_cons_of_pos (by simp), filter_nil, singleton_append] at hp
      refine hp.hand rfl ?_ rfl ?_ (hports _).2 hholds hafter hothers
      · simp [hs', giveSeqno]
      · simp [hs', giveSeqno]
    · rw [filter_cons_of_remote he, filter_nil, nil_append] at hp
      refine hp.of_other rfl ?_ rfl ?_ (hports p).2 ?_ ?_ hothers
      · simp [hs', giveSeqno, he]
      · simp [hs', giveSeqno, he]
      · simp [hholds]
      · rw [hafter]
        rintro _ ⟨⟩
        exact Ne.symm he

theorem Ordered.receivePass (h : Ordered first [] s) {t : ℕ} (hholds : s.holds t = none)
    (alloc : Bool) (q : QueueName) (option : RcvOption) (maxSize timeout : ℕ)
    (list : Option ScatterList) :
    Ordered first [] (s.receivePass alloc t q option maxSize timeout list).1 := by
  obtain he | ⟨hq, he⟩ | ⟨kmsg, kmsgs, mr, hq, he⟩ :=
    receivePass_cases s alloc t q option maxSize timeout list
  · rw [he]
    exact h.of_same (sameMessages_setPhase (by rw [holds_setPhase_idle, hholds]))
  · rw [he]
    refine h.of_same ⟨fun q' => ?_, fun q' hq' => ?_, fun _ => rfl, fun _ => rfl, fun _ => rfl, rfl,
      fun u => ?_⟩
    · by_cases hq' : q' = q <;> simp [hq']
    · by_cases he : q' = q
      · exact .inr (he ▸ hq)
      · exact .inl (by simpa [he] using hq')
    · by_cases hu : u = t
      · rw [hu, hholds]
        simp [holds, Thread.decode]
      · rw [holds_setPhase_of_ne hu]
        simp [holds, hu]
  · rw [he]
    exact h.take hq hholds mr

theorem sameMessages_wakeSender (hw : s.Waits) (p : ℕ) : SameMessages s (s.wakeSender p) := by
  obtain ⟨he, -⟩ | ⟨sender, senders, hb, he⟩ := wakeSender_cases s p
  · rw [he]
    exact ⟨fun _ => rfl, fun _ hq => .inl hq, fun _ => rfl, fun _ => rfl, fun _ => rfl, rfl,
      fun _ => rfl⟩
  · rw [he]
    obtain ⟨⟨_, _, _, hphase, -⟩, -⟩ := hw.senders p sender (by simp [hb])
    refine ⟨fun _ => rfl, fun _ hq => .inl hq, fun p' => ?_, fun p' => ?_, fun p' => ?_, rfl,
      fun u => ?_⟩
    · by_cases hp : p' = p <;> simp [hp]
    · by_cases hp : p' = p <;> simp [hp]
    · by_cases hp : p' = p <;> simp [hp]
    · by_cases hu : u = sender
      · simp [holds, hu, hphase]
      · simp [holds, hu]

theorem setPhase_wakeSender (s : State) (p t : ℕ) (ph : Phase) :
    (s.wakeSender p).setPhase t ph = (s.setPhase t ph).wakeSender p := by
  unfold wakeSender
  simp only [setPhase_ports]
  split
  · rfl
  · split <;> rfl

theorem Ordered.finishReceive (h : Ordered first [] s) (hw : s.Waits) {t : ℕ} {mr : MachMsgReturn}
    {kmsg : Kmsg} {seqno : ℕ} (hphase : s.phase t = .taking mr kmsg seqno) :
    Ordered first [] (s.finishReceive t kmsg seqno) := by
  rw [State.finishReceive, setPhase_wakeSender]
  set s' := (s.release t kmsg seqno).setPhase t .idle with hs'
  have hports : ∀ p, (s'.ports p).ipPset = (s.ports p).ipPset ∧
      (s'.ports p).ipSeqno = (s.ports p).ipSeqno := by
    intro p
    by_cases hp : p = kmsg.remotePort
    · simp [hs', release, hp]
    · simp [hs', release, hp]
  have hhome : ∀ p, s'.home p = s.home p := fun p => home_congr (hports p).1
  have hqueued : ∀ p, s'.queued p = s.queued p := fun p => by
    rw [queued, queued, hhome]
    rfl
  have hbefore : s.holds t = some (kmsg, seqno) := by simp [holds, hphase]
  have hafter : s'.holds t = none := holds_setPhase_idle _ t
  have hothers : ∀ u, u ≠ t → s'.holds u = s.holds u := fun u hu => holds_setPhase_of_ne hu
  have hordered : Ordered first [] s' := by
    refine ⟨h.empty, fun q m hm => ?_, fun p => ?_⟩
    · rw [hhome]
      exact h.home q m hm
    · have hp := h.port p
      rw [hqueued]
      by_cases he : p = kmsg.remotePort
      · subst he
        refine hp.take rfl rfl ?_ (hports _).2 ?_ rfl hbefore hafter hothers
        · simp [hs', release]
        · simp [hs', release]
      · refine hp.of_other rfl rfl ?_ (hports p).2 ?_ ?_ ?_ hothers
        · simp [hs', release, he]
        · simp [hs', release, he]
        · rw [hbefore]
          rintro _ ⟨⟩
          exact Ne.symm he
        · simp [hafter]
  have hw' : s'.Waits := by
    have hr : (s.release t kmsg seqno).Waits :=
      hw.shrink (fun _ => List.Sublist.refl _) (fun p => by rw [release_ipBlocked])
        (fun _ _ => ⟨rfl, rfl⟩)
    exact hr.setPhase (hr.not_waiting_of_phase (by simp [release, hphase]) (by simp [release, hphase])) _
  exact hordered.of_same (sameMessages_wakeSender hw' _)

theorem Ordered.setQlimit (h : Ordered first [] s) (hw : s.Waits) (p qlimit : ℕ) :
    Ordered first [] (s.ipcPortSetQlimit p qlimit) := by
  refine h.of_same ⟨?_, ?_, fun p' => ?_, fun p' => ?_, fun p' => ?_, ?_, fun u => ?_⟩
  · simp [ipcPortSetQlimit, wakeAll_eq]
  · simpa [ipcPortSetQlimit, wakeAll_eq] using fun q hq => .inl hq
  · by_cases hp : p' = p <;> simp [ipcPortSetQlimit, wakeAll_eq, hp]
  · by_cases hp : p' = p <;> simp [ipcPortSetQlimit, wakeAll_eq, hp]
  · by_cases hp : p' = p <;> simp [ipcPortSetQlimit, wakeAll_eq, hp]
  · simp [ipcPortSetQlimit, wakeAll_eq]
  · unfold holds
    by_cases hu : u ∈ (s.ports p).ipBlocked
    · obtain ⟨⟨_, _, _, hphase, -⟩, -⟩ := hw.senders p u hu
      simp [ipcPortSetQlimit, wakeAll_eq, hphase]
    · have hu : u ∉ (s.ports p).ipBlocked.take (qlimit - (s.ports p).ipQlimit) :=
        fun hmem => hu (mem_of_mem_take hmem)
      simp [ipcPortSetQlimit, wakeAll_eq, hu]

theorem sameMessages_unblock (s : State) (p t : ℕ) : SameMessages s (s.unblock p t) := by
  refine ⟨fun _ => rfl, fun _ hq => .inl hq, fun p' => ?_, fun p' => ?_, fun p' => ?_, rfl,
    fun _ => rfl⟩
  all_goals by_cases hp : p' = p <;> simp [unblock, hp]

theorem sameMessages_leaveQueue (s : State) (q : QueueName) (t : ℕ) :
    SameMessages s (s.leaveQueue q t) := by
  refine ⟨fun q' => ?_, fun q' hq' => .inl ?_, fun _ => rfl, fun _ => rfl, fun _ => rfl, rfl,
    fun _ => rfl⟩
  · by_cases hq : q' = q <;> simp [leaveQueue, hq]
  · rintro hnil
    refine hq' ?_
    by_cases hq : q' = q
    · subst hq
      simp [leaveQueue, hnil]
    · simp [leaveQueue, hq, hnil]

theorem sameMessages_finishQueue {t : ℕ} {q : QueueName} {timeout : ℕ} {o : Outcome}
    (hphase : s.phase t = .receiving q timeout) (hd : (s.threads t).decode = some o) :
    SameMessages s (s.finishQueue t o) := by
  unfold finishQueue
  split
  case h_1 mr kmsg seqno =>
    exact sameMessages_setPhase (by simp [holds, hphase, hd])
  case h_2 hne =>
    refine sameMessages_setPhase ?_
    rw [holds_setPhase_idle]
    unfold holds
    rw [hphase, hd]
    dsimp only
    split
    case h_1 mr kmsg seqno he => exact absurd (Option.some.inj he) (hne mr kmsg seqno)
    case h_2 => rfl

theorem Ordered.moves {e : Event} (h : Ordered first [] s) (hw : s.Waits) (hs : s.Moves e s') :
    Ordered first [] s' := by
  cases hs with
  | send hphase => exact h.sendPass hw (by simp [hphase]) (holds_eq_none_of_idle hphase) _ _ _ _
  | resumeSend hphase hwoken =>
    exact h.sendPass hw (by simp [hphase]) (holds_eq_none_of_sending hphase) _ _ _ _
  | interruptSend hphase hasleep =>
    refine (h.of_same (sameMessages_unblock s _ _)).of_same (sameMessages_setPhase ?_)
    rw [holds_setPhase_idle]
    exact (holds_eq_none_of_sending hphase).symm
  | timeoutSend hphase hasleep =>
    refine (h.of_same (sameMessages_unblock s _ _)).sendPass (hw.unblock hphase).1 ?_ ?_ _ _ _ _
    · intro q timeout hp
      cases hphase.symm.trans hp
    · exact holds_eq_none_of_sending hphase
  | receive hphase hq => exact h.receivePass (holds_eq_none_of_idle hphase) _ _ _ _ _ _
  | resumeReceive hphase hdecode => exact h.of_same (sameMessages_finishQueue hphase hdecode)
  | interruptReceive hphase hdecode =>
    refine (h.of_same (sameMessages_leaveQueue s _ _)).of_same (sameMessages_setPhase ?_)
    rw [holds_setPhase_idle]
    exact (holds_eq_none_of_decode hphase hdecode).symm
  | timeoutReceive hphase hdecode =>
    exact (h.of_same (sameMessages_leaveQueue s _ _)).receivePass
      (holds_eq_none_of_decode hphase hdecode) _ _ _ _ _ _
  | finishReceive hphase => exact h.finishReceive hw hphase
  | psetAdd hp => exact h.psetAdd hw hp _ _
  | psetRemove hp => exact h.psetRemove hw hp _
  | psetMove => exact h.psetMove hw _ _ _ _
  | psetDestroy => exact h.psetDestroy hw _
  | setQlimit => exact h.setQlimit hw _ _

theorem Initial.ordered (h : s.Initial) : Ordered (fun p => (s.ports p).ipSeqno) [] s := by
  have hholds : ∀ t, s.holds t = none := fun t => holds_eq_none_of_idle (h.phase t)
  have hqueued : ∀ p, s.queued p = [] := fun p => by simp [queued, h.mqueue]
  refine ⟨fun q hq => by simp [h.mqueue], fun q m hm => by simp [h.mqueue] at hm, fun p => ?_⟩
  rw [hqueued]
  refine ⟨by simp [h.log], by simp [h.log], by simp [h.log], ?_, by simp [h.log], [], ?_, ?_, ?_⟩
  · simp [h.log, u32_eq (h.seqno p)]
  · refine .nil (fun d => ?_)
    rintro ⟨hd, -⟩
    rw [hholds] at hd
    cases hd
  · simp [h.log]
  · simp [h.msgcount]

/-! ## Runs -/

/-- Where an accepted message can be. -/
inductive Place where
  | queue (q : QueueName)
  | hand (t : ℕ)
  | received

def At (s : State) (m : Kmsg) : Place → Prop
  | .queue q => m ∈ (s.mqueue q).imqMessages
  | .hand t => ∃ n, s.holds t = some (m, n)
  | .received => ∃ d ∈ s.log.received m.remotePort, d.kmsg = m

theorem PortOrdered.nodup {f p : ℕ} {pending : List Kmsg} (h : PortOrdered f pending s p) :
    (s.log.accepted p).Nodup := by
  refine List.Nodup.of_map Kmsg.serial ?_
  rw [h.serial]
  exact nodup_range

theorem Ordered.exists_unique_place (h : Ordered first [] s) {p : ℕ} {m : Kmsg}
    (hm : m ∈ s.log.accepted p) : ∃! pl, s.At m pl := by
  have hp := h.port p
  rw [filter_nil, append_nil] at hp
  obtain rfl := hp.remote m hm
  obtain ⟨hs, hl, hperm, -⟩ := hp.hands
  have hnd := hp.nodup
  rw [hp.accepted] at hnd hm
  -- the three lists of messages have no message in common
  have hnd' : (((s.log.received m.remotePort ++ hs).map Delivery.kmsg) ++
      s.queued m.remotePort).Nodup :=
    ((hperm.map Delivery.kmsg).append_right _).nodup_iff.mpr hnd
  rw [map_append] at hnd'
  have hqueue : ∀ q, s.At m (.queue q) ↔ q = s.home m.remotePort ∧ m ∈ s.queued m.remotePort := by
    intro q
    constructor
    · intro hq
      obtain rfl := h.home q m hq
      exact ⟨rfl, mem_filter.mpr ⟨hq, by simp⟩⟩
    · rintro ⟨rfl, hq⟩
      exact (mem_filter.mp hq).1
  have hhand : ∀ t, s.At m (.hand t) ↔ ∃ d ∈ hs, d.kmsg = m ∧ d.thread = t := by
    intro t
    constructor
    · rintro ⟨n, hn⟩
      exact ⟨⟨t, m, n⟩, (hl.mem_iff _).mpr ⟨hn, rfl⟩, rfl, rfl⟩
    · rintro ⟨d, hd, rfl, rfl⟩
      exact ⟨d.seqno, ((hl.mem_iff d).mp hd).1⟩
  have hreceived : s.At m .received ↔ m ∈ (s.log.received m.remotePort).map Delivery.kmsg := by
    simp [At]
  obtain ⟨hab, -, hc⟩ := nodup_append.mp hnd'
  obtain ⟨-, hb, ha⟩ := nodup_append.mp hab
  have hmem : m ∈ (s.log.received m.remotePort).map Delivery.kmsg ∨ m ∈ hs.map Delivery.kmsg ∨
      m ∈ s.queued m.remotePort := by
    rcases mem_append.mp hm with hm | hm
    · have := (hperm.map Delivery.kmsg).mem_iff.mpr hm
      rw [map_append, mem_append] at this
      exact this.imp_right .inl
    · exact .inr (.inr hm)
  rcases hmem with hr | hr | hr
  · refine ⟨.received, hreceived.mpr hr, fun pl hpl => ?_⟩
    cases pl with
    | queue q => exact absurd rfl (hc m (mem_append_left _ hr) m ((hqueue q).mp hpl).2)
    | hand t =>
      obtain ⟨d, hd, hdm, -⟩ := (hhand t).mp hpl
      exact absurd rfl (ha m hr m (mem_map.mpr ⟨d, hd, hdm⟩))
    | received => rfl
  · obtain ⟨d, hd, hdm⟩ := mem_map.mp hr
    refine ⟨.hand d.thread, (hhand _).mpr ⟨d, hd, hdm, rfl⟩, fun pl hpl => ?_⟩
    cases pl with
    | queue q => exact absurd rfl (hc m (mem_append_right _ hr) m ((hqueue q).mp hpl).2)
    | hand t =>
      obtain ⟨d', hd', hdm', rfl⟩ := (hhand t).mp hpl
      rw [inj_on_of_nodup_map hb hd' hd (hdm'.trans hdm.symm)]
    | received => exact absurd rfl (ha m (hreceived.mp hpl) m hr)
  · refine ⟨.queue (s.home m.remotePort), (hqueue _).mpr ⟨rfl, hr⟩, fun pl hpl => ?_⟩
    cases pl with
    | queue q => rw [((hqueue q).mp hpl).1]
    | hand t =>
      obtain ⟨d, hd, hdm, -⟩ := (hhand t).mp hpl
      exact absurd rfl (hc m (mem_append_right _ (mem_map.mpr ⟨d, hd, hdm⟩)) m hr)
    | received => exact absurd rfl (hc m (mem_append_left _ (hreceived.mp hpl)) m hr)

/-- What holds of the messages of a port in every state of a run from `s₀`. -/
structure Exact (s₀ s : State) (p : ℕ) : Prop where
  /-- Each accepted message is in one place. -/
  one_place : ∀ m ∈ s.log.accepted p, ∃! pl, s.At m pl
  accepted_nodup : (s.log.accepted p).Nodup
  queue_nodup : (s.queued p).Nodup
  received_nodup : ((s.log.received p).map Delivery.kmsg).Nodup
  /-- No message is delivered twice, and messages are delivered in the order of acceptance. -/
  in_order : (s.log.delivered p).map Delivery.kmsg <+: s.log.accepted p
  delivered_nodup : ((s.log.delivered p).map Delivery.kmsg).Nodup
  seqno : ∀ i, ∀ d ∈ (s.log.delivered p)[i]?, d.seqno = u32 ((s₀.ports p).ipSeqno + i)
  /-- What was delivered is what threads hold or have received, with these sequence numbers. -/
  delivered : ∀ d, d ∈ s.log.delivered p ↔ s.InHand p d ∨ d ∈ s.log.received p
  msgcount : ((s.ports p).ipMsgcount : ℕ∞) = (s.queued p).length + {d | s.InHand p d}.encard

theorem messages_exact {s₀ : State} {es : List Event} (h₀ : s₀.Initial) (hr : Run Steps s₀ es s)
    (p : ℕ) : Exact s₀ s p := by
  have hinv : s.Waits ∧ Ordered (fun p => (s₀.ports p).ipSeqno) [] s :=
    Run.invariant (I := fun s => s.Waits ∧ Ordered (fun p => (s₀.ports p).ipSeqno) [] s)
      (fun s e s' h hs => ⟨h.1.moves hs.moves, h.2.moves h.1 hs.moves⟩) hr
      ⟨h₀.waits, h₀.ordered⟩
  have hp := hinv.2.port p
  rw [filter_nil, append_nil] at hp
  have hnd := hp.nodup
  obtain ⟨hs, hl, hperm, hcount⟩ := hp.hands
  have hnd' := hnd
  rw [hp.accepted] at hnd'
  obtain ⟨hdelivered, hqueued, -⟩ := nodup_append.mp hnd'
  have hreceived := (hperm.map Delivery.kmsg).nodup_iff.mpr hdelivered
  rw [map_append] at hreceived
  refine ⟨fun m hm => hinv.2.exists_unique_place hm, hnd, hqueued, (nodup_append.mp hreceived).1,
    ⟨s.queued p, hp.accepted.symm⟩, hdelivered, fun i d hd => ?_, fun d => ?_, ?_⟩
  · obtain ⟨hi, hd⟩ := List.getElem?_eq_some_iff.mp hd
    have hmap := congrArg (fun l => l[i]?) hp.seqnos
    simpa [hi, hd] using hmap
  · rw [← hperm.mem_iff, mem_append, hl.mem_iff, or_comm]
  · rw [hl.encard_eq, hcount]
    push_cast
    rfl

end State

/-- A port joins a set on which a thread waits; of two messages the first goes to that thread and
the second to the queue. -/
private def setEvents : List Event :=
  [.psetAdd 7 0 (fun _ => true),
    .receive 1 (.pset 7) ⟨false, false, false, 8⟩ 64 0 none true,
    .send 2 ⟨0, 0, false, false, false, false, 24, []⟩ ⟨false, false⟩ 0 (fun _ => true),
    .send 2 ⟨0, 0, false, false, false, false, 28, []⟩ ⟨false, false⟩ 0 (fun _ => true),
    .resumeReceive 1 .awakened true, .finishReceive 1]

private def setEnd : State := (setEvents.foldlM State.step (State.start 5)).getD (State.start 5)

theorem messages_exact_set :
    Run State.Steps (State.start 5) setEvents setEnd ∧ (setEnd.log.accepted 0).length = 2 ∧
      (setEnd.log.received 0).length = 1 ∧ State.Exact (State.start 5) setEnd 0 := by
  have hr : Run State.Steps (State.start 5) setEvents setEnd := Run.of_foldlM rfl
  exact ⟨hr, by decide, by decide, State.messages_exact (State.start_initial 5) hr 0⟩

end Darwin.Ipc.MessageQueue
