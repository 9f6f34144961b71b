import Darwin.Lib.Run
import Darwin.Netat.AdspAck
import Darwin.Netat.AdspRead
import Mathlib.Algebra.Order.BigOperators.Group.List
import Mathlib.Algebra.Order.Group.Nat

/-! # Reads and the end of a stream

What has been received is what completed reads report, then what is attached to the first outstanding
read, then the receive queue. When the stream is closed, the outstanding reads are completed with
nothing, whatever is attached.
-/
namespace Darwin.Netat
open Darwin.Lib List Option

/-- A buffer that 16 bits count, with its read pointer in it. -/
structure Gbuf.Small (b : Gbuf) : Prop where
  length : b.bytes.length < 2 ^ 16
  below : b.below = 0

def Adspcmd.bytes (pb : Adspcmd) : List Byte := pb.data.flatMap Gbuf.bytes

/-- The bytes that a request tells its caller of. -/
def Adspcmd.reported (pb : Adspcmd) : List Byte := pb.bytes.take pb.actCount.toNat

def Adspcmd.Completed (pb : Adspcmd) : Bool := pb.ioResult = 0

namespace Ccb

/-- What all completed reads report. -/
def reported (sp : Ccb) : List Byte := (sp.sent.filter Adspcmd.Completed).flatMap Adspcmd.reported

def attached (sp : Ccb) : List Byte := sp.rpb.flatMap Adspcmd.bytes

def queued (sp : Ccb) : List Byte := sp.rbuf.flatMap Message.bytes ++ sp.crbuf.toList.flatMap Message.bytes

def stream (sp : Ccb) : List Byte := sp.reported ++ sp.attached ++ sp.queued

def queueBufs (sp : Ccb) : List Gbuf := sp.rbuf.flatMap Message.bufs ++ sp.crbuf.toList.flatMap Message.bufs

/-- The bytes and the blocks of the receive queue. -/
def left (sp : Ccb) : ℕ := sp.queued.length + sp.rbuf.length + sp.crbuf.toList.length

/-- The state of the receive side between two turns of the loop. -/
structure Reads (sp : Ccb) : Prop where
  ready : sp.rData = true ↔ sp.rbuf ≠ [] ∨ sp.crbuf ≠ none
  small : ∀ b ∈ sp.queueBufs, b.Small
  held : ∀ pb ∈ sp.rpb, ∀ b ∈ pb.data, b.below = 0
  count : ∀ pb ∈ sp.rpb, pb.bytes.length = pb.actCount.toNat
  room : ∀ pb ∈ sp.rpb, pb.reqCount ≠ 0 → pb.actCount < pb.reqCount
  tail : ∀ pb ∈ sp.rpb.tail, pb.bytes = []
  closed : sp.state = .closed → sp.rData = false → ∀ pb ∈ sp.rpb, pb.bytes = []
  alone : sp.rpb.tail = [] ∨ ∀ pb ∈ sp.rpb, pb.ioc = false

/-- Outside of the loop, nothing waits while there is data, and no ioctl waits. -/
structure Idle (sp : Ccb) : Prop extends Reads sp where
  idle : sp.rpb ≠ [] → sp.rData = false
  queue : ∀ pb ∈ sp.rpb, pb.ioc = false

end Ccb

/-- If the oldest data is more than 16 bits count, then what these count is more than the request has room
for. -/
def TurnFits (pb : Adspcmd) (sp : Ccb) : Prop :=
  ((oldest sp).1.map (fun b => b.bytes.length)).sum < 2 ^ 16 ∨
    pb.reqCount - pb.actCount < BitVec.ofNat 16 ((oldest sp).1.map (fun b => b.bytes.length)).sum

/-- So it is in each turn of the loop that takes data. -/
def LoopFits (avail : ℕ → Bool) : ℕ → Ccb → Prop
  | 0, _ => True
  | n + 1, sp =>
    match sp.rData, sp.rpb with
    | true, pb :: rest => (pb.reqCount ≠ 0 → TurnFits pb sp) ∧ LoopFits avail n (readTurn avail pb rest sp)
    | _, _ => True

section
variable {avail : ℕ → Bool} {sp sp' : Ccb} {pb pb' : Adspcmd} {rest : List Adspcmd}

/-! ## A turn of the loop -/

theorem Gbuf.Small.len_eq {b : Gbuf} (h : b.Small) : b.len = b.bytes.length := by
  rw [Gbuf.len, h.below, Nat.cast_zero, sub_zero]

theorem Gbuf.Small.ofInt_len {b : Gbuf} (h : b.Small) :
    BitVec.ofInt 16 b.len = BitVec.ofNat 16 b.bytes.length := by
  rw [h.len_eq, BitVec.ofInt_natCast]

theorem ofInt_msgsize {l : List Gbuf} (hsmall : ∀ b ∈ l, b.Small) :
    BitVec.ofInt 16 (gbufMsgsize l) = BitVec.ofNat 16 (l.map (fun b => b.bytes.length)).sum := by
  have hsum : gbufMsgsize l = ((l.map (fun b => b.bytes.length)).sum : ℕ) := by
    induction l with
    | nil => rfl
    | cons b l ih =>
      have hrest := ih fun b' hb' => hsmall b' (mem_cons_of_mem _ hb')
      rw [gbufMsgsize] at hrest ⊢
      rw [map_cons, sum_cons, map_cons, sum_cons, hrest, (hsmall b mem_cons_self).len_eq,
        Nat.cast_add]
  rw [hsum, BitVec.ofInt_natCast]

theorem Gbuf.Small.rinc {b : Gbuf} (h : b.Small) {n : ℕ} (hn : n ≤ b.bytes.length) : (b.rinc n).Small := by
  refine ⟨?_, ?_⟩
  · have hlength := h.length
    change (b.bytes.drop n).length < 2 ^ 16
    rw [length_drop]
    omega
  · change b.below + (n - b.bytes.length) = 0
    rw [h.below, Nat.sub_eq_zero_of_le hn]

theorem takeBufs_spec {cnt : BitVec 16} {l : List Gbuf} (hsmall : ∀ b ∈ l, b.Small)
    (h : cnt.toNat < (l.map (fun b => b.bytes.length)).sum) :
    ∃ taken b left cnt', takeBufs cnt l = (taken, b :: left, cnt') ∧ cnt'.toNat < b.bytes.length ∧
      taken.flatMap Gbuf.bytes ++ (b :: left).flatMap Gbuf.bytes = l.flatMap Gbuf.bytes ∧
      (taken.flatMap Gbuf.bytes).length + cnt'.toNat = cnt.toNat ∧ (∀ b' ∈ taken, b' ∈ l) ∧
      ∀ b' ∈ b :: left, b' ∈ l := by
  induction l generalizing cnt with
  | nil => cases h
  | cons b rest ih =>
    have hb : b.Small := hsmall b mem_cons_self
    have hofNat : (BitVec.ofInt 16 b.len).toNat = b.bytes.length := by
      rw [hb.ofInt_len, BitVec.toNat_ofNat]
      exact Nat.mod_eq_of_lt hb.length
    by_cases hle : BitVec.ofInt 16 b.len ≤ cnt
    · have hle' : b.bytes.length ≤ cnt.toNat := by
        rw [BitVec.le_def, hofNat] at hle
        exact hle
      have hsub : (cnt - BitVec.ofInt 16 b.len).toNat = cnt.toNat - b.bytes.length := by
        rw [BitVec.toNat_sub_of_le hle, hofNat]
      rw [map_cons, sum_cons] at h
      obtain ⟨taken, b', left, cnt', htake, hlt, hbytes, hcount, htaken, hmem⟩ :=
        @ih (cnt - BitVec.ofInt 16 b.len) (fun b' hb' => hsmall b' (mem_cons_of_mem _ hb'))
          (by rw [hsub]; omega)
      refine ⟨b :: taken, b', left, cnt', ?_, hlt, ?_, ?_, ?_, fun b'' hb'' => mem_cons_of_mem _ (hmem b'' hb'')⟩
      · rw [takeBufs, if_pos hle, htake]
      · rw [flatMap_cons, append_assoc, hbytes, flatMap_cons]
      · rw [flatMap_cons, length_append]
        omega
      · exact cons_subset_cons _ htaken
    · refine ⟨[], b, rest, cnt, ?_, ?_, rfl, ?_, nil_subset _, fun b' hb' => hb'⟩
      · rw [takeBufs, if_neg hle]
      · rw [BitVec.le_def, hofNat] at hle
        omega
      · exact Nat.zero_add _

/-- The state after the oldest data has been taken, as far as the request is concerned. -/
structure Moved (pb pb' : Adspcmd) (sp sp' : Ccb) : Prop where
  bytes : ∃ moved, pb'.bytes = pb.bytes ++ moved ∧ sp.queued = moved ++ sp'.queued
  small : ∀ b ∈ sp'.queueBufs, b.Small
  held : ∀ b ∈ pb'.data, b.below = 0
  count : pb'.bytes.length = pb'.actCount.toNat
  le : pb'.actCount ≤ pb'.reqCount
  reqCount : pb'.reqCount = pb.reqCount
  ioc : pb'.ioc = pb.ioc
  state : sp'.state = sp.state
  rData : sp'.rData = sp.rData
  sent : sp'.sent = sp.sent

theorem reported_append (hstate : sp'.sent = sp.sent ++ [{ pb with ioResult := 0 }])
    (hcount : pb.bytes.length = pb.actCount.toNat) : sp'.reported = sp.reported ++ pb.bytes := by
  have hcompleted : Adspcmd.Completed { pb with ioResult := 0 } = true := rfl
  rw [Ccb.reported, hstate, filter_append, filter_cons_of_pos hcompleted, filter_nil,
    flatMap_append, flatMap_cons, flatMap_nil, append_nil]
  refine congrArg _ ?_
  change pb.bytes.take pb.actCount.toNat = pb.bytes
  rw [← hcount, take_length]

theorem tail_bytes (h : ∀ pb ∈ rest, pb.bytes = []) : rest.flatMap Adspcmd.bytes = [] :=
  flatMap_eq_nil_iff.mpr h

theorem noMoreData_spec (h : sp.rData = true) :
    ((noMoreData sp).rData = true ↔ sp.rbuf ≠ [] ∨ sp.crbuf ≠ none) ∧ (noMoreData sp).rbuf = sp.rbuf ∧
      (noMoreData sp).crbuf = sp.crbuf ∧ (noMoreData sp).state = sp.state ∧ (noMoreData sp).sent = sp.sent := by
  rw [noMoreData]
  split_ifs with hempty
  · rw [Bool.and_eq_true, List.isEmpty_iff, isNone_iff_eq_none] at hempty
    refine ⟨iff_of_false (fun h => by cases h) ?_, rfl, rfl, rfl, rfl⟩
    rintro (hne | hne)
    · exact hne hempty.1
    · exact hne hempty.2
  · refine ⟨iff_of_true h ?_, rfl, rfl, rfl, rfl⟩
    rw [Bool.and_eq_true, List.isEmpty_iff, isNone_iff_eq_none, not_and_or] at hempty
    exact hempty

theorem completeRead_reads (hreads : sp.Reads) (hdata : sp.rData = true) (hrpb : sp.rpb = pb :: rest)
    (eom : Bool) (h : Moved pb pb' sp sp') :
    (completeRead pb' rest eom sp').Reads ∧ (completeRead pb' rest eom sp').stream = sp.stream ∧
      (completeRead pb' rest eom sp').state = sp.state := by
  obtain ⟨moved, hbytes, hqueued⟩ := h.bytes
  obtain ⟨hready, hrbuf, hcrbuf, hstate, hsent⟩ := noMoreData_spec (h.rData.trans hdata)
  have htail : ∀ q ∈ rest, q.bytes = [] := by
    have htail := hreads.tail
    rwa [hrpb] at htail
  have hrest : ∀ q ∈ rest, q ∈ sp.rpb := by
    intro q hq
    rw [hrpb]
    exact mem_cons_of_mem _ hq
  have hpb : pb ∈ sp.rpb := by
    rw [hrpb]
    exact mem_cons_self
  have hstream : sp.stream = sp.reported ++ pb'.bytes ++ sp'.queued := by
    rw [Ccb.stream, Ccb.attached, hrpb, flatMap_cons, tail_bytes htail, append_nil, hqueued, hbytes]
    simp only [append_assoc]
  rw [← hrbuf, ← hcrbuf] at hready
  have hsmall : ∀ b ∈ (noMoreData sp').queueBufs, b.Small := by
    rw [Ccb.queueBufs, hrbuf, hcrbuf]
    exact h.small
  have hqueue : (noMoreData sp').queued = sp'.queued := by rw [Ccb.queued, hrbuf, hcrbuf, Ccb.queued]
  simp only [completeRead]
  split_ifs with hdone
  · refine ⟨⟨hready, hsmall, fun q hq => hreads.held q (hrest q hq), fun q hq => hreads.count q (hrest q hq),
      fun q hq => hreads.room q (hrest q hq), fun q hq => htail q (mem_of_mem_tail hq), fun _ _ => htail, ?_⟩,
      ?_, hstate.trans h.state⟩
    · rcases hreads.alone with halone | halone
      · rw [hrpb] at halone
        exact .inl (congrArg List.tail (halone : rest = []))
      · exact .inr fun q hq => halone q (hrest q hq)
    · have hreported := @reported_append (noMoreData sp')
        { noMoreData sp' with rpb := rest, sent := (noMoreData sp').sent ++ [{ pb' with eom := eom, ioResult := 0 }] }
        { pb' with eom := eom } rfl h.count
      rw [Ccb.stream, hreported, hstream]
      change (noMoreData sp').reported ++ pb'.bytes ++ rest.flatMap Adspcmd.bytes ++ (noMoreData sp').queued = _
      rw [tail_bytes htail, append_nil, hqueue, Ccb.reported, hsent, h.sent]
      rfl
  · simp only [Bool.or_eq_true, Bool.and_eq_true, decide_eq_true_eq, not_or, beq_iff_eq, Bool.not_eq_true',
      not_and] at hdone
    obtain ⟨⟨-, hroom⟩, hclosed⟩ := hdone
    refine ⟨⟨hready, hsmall, ?_, ?_, ?_, htail, ?_, ?_⟩, ?_, hstate.trans h.state⟩
    · rintro q (_ | ⟨_, hq⟩)
      · exact h.held
      · exact hreads.held q (hrest q hq)
    · rintro q (_ | ⟨_, hq⟩)
      · exact h.count
      · exact hreads.count q (hrest q hq)
    · rintro q (_ | ⟨_, hq⟩)
      · exact fun _ => BitVec.not_le.mp hroom
      · exact hreads.room q (hrest q hq)
    · exact fun hstate' hfalse => absurd hfalse (hclosed hstate')
    · rcases hreads.alone with halone | halone
      · rw [hrpb] at halone
        exact .inl halone
      · right
        rintro q (_ | ⟨_, hq⟩)
        · exact h.ioc.trans (halone pb hpb)
        · exact halone q (hrest q hq)
    · rw [hstream, Ccb.stream]
      change (noMoreData sp').reported ++ (pb'.bytes ++ rest.flatMap Adspcmd.bytes) ++ (noMoreData sp').queued = _
      rw [tail_bytes htail, append_nil, hqueue, Ccb.reported, hsent, h.sent]
      rfl

theorem rinc_bytes (b : Gbuf) (n : ℕ) : (b.rinc n).bytes = b.bytes.drop n := rfl

theorem takePart_spec {mp : List Gbuf} (hsmall : ∀ b ∈ mp, b.Small) (hheld : ∀ b ∈ pb.data, b.below = 0)
    (hroom : pb.actCount < pb.reqCount) (hcount : pb.bytes.length = pb.actCount.toNat)
    (h : (pb.reqCount - pb.actCount).toNat < (mp.map (fun b => b.bytes.length)).sum) :
    ∃ pb' b left allocs, takePart avail pb mp sp = (pb', b :: left, { sp with allocs := allocs }) ∧
      (∃ moved, pb'.bytes = pb.bytes ++ moved ∧ mp.flatMap Gbuf.bytes = moved ++ (b :: left).flatMap Gbuf.bytes) ∧
      (∀ b' ∈ b :: left, b'.Small) ∧ (∀ b' ∈ pb'.data, b'.below = 0) ∧
      pb'.bytes.length = pb'.actCount.toNat ∧ pb'.reqCount = pb.reqCount ∧ pb'.ioc = pb.ioc ∧
      (pb'.actCount = pb'.reqCount ∨
        pb'.actCount < pb'.reqCount ∧ avail sp.allocs = false ∧ allocs = sp.allocs + 1) := by
  obtain ⟨taken, b, left, cnt, htake, hlt, hbytes, hlength, hmem', hmem⟩ := takeBufs_spec hsmall h
  have hroom' : (pb.reqCount - pb.actCount).toNat = pb.reqCount.toNat - pb.actCount.toNat :=
    BitVec.toNat_sub_of_le (BitVec.le_of_lt hroom)
  rw [BitVec.lt_def] at hroom
  have hleft : ∀ b' ∈ b :: left, b'.Small := fun b' hb' => hsmall b' (hmem b' hb')
  have hdata : ∀ b' ∈ pb.data ++ taken, b'.below = 0 := by
    intro b' hb'
    rcases mem_append.mp hb' with hb' | hb'
    · exact hheld b' hb'
    · exact (hsmall b' (hmem' b' hb')).below
  have htaken : ({ pb with actCount := pb.reqCount, data := pb.data ++ taken } : Adspcmd).bytes =
      pb.bytes ++ taken.flatMap Gbuf.bytes := flatMap_append
  simp only [takePart, htake]
  by_cases hzero : cnt = 0
  · rw [if_pos hzero]
    refine ⟨_, b, left, sp.allocs, rfl, ⟨_, htaken, hbytes.symm⟩, hleft, hdata, ?_, rfl, rfl, .inl rfl⟩
    rw [htaken, length_append, hcount]
    subst hzero
    change _ = pb.reqCount.toNat
    have hnone : (0 : BitVec 16).toNat = 0 := rfl
    omega
  · rw [if_neg hzero]
    cases havail : avail sp.allocs with
    | true =>
      refine ⟨_, _, left, sp.allocs + 1, rfl, ⟨taken.flatMap Gbuf.bytes ++ b.bytes.take cnt.toNat, ?_, ?_⟩, ?_, ?_, ?_,
        rfl, rfl, .inl rfl⟩
      · simp only [Adspcmd.bytes, flatMap_append, flatMap_cons, flatMap_nil, append_nil,
          append_assoc]
      · rw [← hbytes, flatMap_cons, flatMap_cons, rinc_bytes, append_assoc,
          ← append_assoc (b.bytes.take cnt.toNat), take_append_drop]
      · rintro b' (_ | ⟨_, hb'⟩)
        · exact (hleft b mem_cons_self).rinc hlt.le
        · exact hleft b' (mem_cons_of_mem _ hb')
      · intro b' hb'
        rcases mem_append.mp hb' with hb' | hb'
        · exact hdata b' hb'
        · rw [mem_singleton.mp hb']
          exact (hleft b mem_cons_self).below
      · simp only [Adspcmd.bytes, flatMap_append, flatMap_cons, flatMap_nil, append_nil,
          length_append, length_take]
        rw [Adspcmd.bytes] at hcount
        omega
    | false =>
      have hle : cnt ≤ pb.reqCount := by
        rw [BitVec.le_def]
        omega
      have hpos : 0 < cnt.toNat := Nat.pos_of_ne_zero fun hcnt => hzero (BitVec.eq_of_toNat_eq hcnt)
      have hact : (pb.reqCount - cnt).toNat = pb.reqCount.toNat - cnt.toNat := BitVec.toNat_sub_of_le hle
      refine ⟨_, b, left, sp.allocs + 1, rfl, ⟨_, htaken, hbytes.symm⟩, hleft, hdata, ?_, rfl, rfl,
        .inr ⟨?_, rfl, rfl⟩⟩
      · change ({ pb with actCount := pb.reqCount, data := pb.data ++ taken } : Adspcmd).bytes.length =
          (pb.reqCount - cnt).toNat
        rw [htaken, length_append, hcount, hact]
        omega
      · change pb.reqCount - cnt < pb.reqCount
        rw [BitVec.lt_def, hact]
        omega

theorem oldest_spec (h : sp.rbuf ≠ [] ∨ sp.crbuf ≠ none) : ∃ mp eom sp', oldest sp = (mp, eom, sp') ∧
    sp.queued = mp.flatMap Gbuf.bytes ++ sp'.queued ∧ sp.queueBufs = mp ++ sp'.queueBufs ∧
    sp' = { sp with rbuf := sp'.rbuf, crbuf := sp'.crbuf } ∧ (eom = false → sp'.rbuf = [] ∧ sp'.crbuf = none) ∧
    sp.left = (mp.flatMap Gbuf.bytes).length + sp'.left + 1 := by
  cases hrbuf : sp.rbuf with
  | cons m more =>
    refine ⟨m.bufs, true, { sp with rbuf := more }, ?_, ?_, ?_, rfl, (fun h => nomatch h), ?_⟩
    · simp only [oldest, hrbuf]
    · rw [Ccb.queued, hrbuf, flatMap_cons, append_assoc]
      rfl
    · rw [Ccb.queueBufs, hrbuf, flatMap_cons, append_assoc]
      rfl
    · simp only [Ccb.left, Ccb.queued, hrbuf, flatMap_cons, length_append, length_cons]
      rw [Message.bytes]
      omega
  | nil =>
    cases hcrbuf : sp.crbuf with
    | some m =>
      refine ⟨m.bufs, false, { sp with crbuf := none }, ?_, ?_, ?_, rfl, fun _ => ⟨hrbuf, rfl⟩, ?_⟩
      · simp only [oldest, hrbuf, hcrbuf]
      · simp only [Ccb.queued, hrbuf, hcrbuf, flatMap_nil, nil_append, toList_some,
          toList_none, flatMap_cons, append_nil, Message.bytes]
      · simp only [Ccb.queueBufs, hrbuf, hcrbuf, flatMap_nil, nil_append, toList_some,
          toList_none, flatMap_cons, append_nil]
      · simp only [Ccb.left, Ccb.queued, hrbuf, hcrbuf, flatMap_nil, nil_append, toList_some,
          toList_none, flatMap_cons, append_nil, length_nil, length_cons, Message.bytes]
    | none =>
      rcases h with h | h
      · exact absurd hrbuf h
      · exact absurd hcrbuf h

theorem restore_spec {eom : Bool} {b : Gbuf} {rest : List Gbuf}
    (h : eom = false → sp.rbuf = [] ∧ sp.crbuf = none) :
    (restore eom (b :: rest) sp).queued = (b :: rest).flatMap Gbuf.bytes ++ sp.queued ∧
      (restore eom (b :: rest) sp).queueBufs = b :: rest ++ sp.queueBufs ∧
      ((restore eom (b :: rest) sp).rbuf ≠ [] ∨ (restore eom (b :: rest) sp).crbuf ≠ none) ∧
      (restore eom (b :: rest) sp).left = ((b :: rest).flatMap Gbuf.bytes).length + sp.left + 1 ∧
      (restore eom (b :: rest) sp).state = sp.state ∧ (restore eom (b :: rest) sp).rData = sp.rData ∧
      (restore eom (b :: rest) sp).sent = sp.sent ∧ (restore eom (b :: rest) sp).allocs = sp.allocs := by
  cases eom with
  | true =>
    refine ⟨?_, ?_, .inl (cons_ne_nil _ _), ?_, rfl, rfl, rfl, rfl⟩
    · exact append_assoc _ _ _
    · exact append_assoc _ _ _
    · have hqueued : (restore true (b :: rest) sp).queued = (b :: rest).flatMap Gbuf.bytes ++ sp.queued :=
        append_assoc _ _ _
      rw [Ccb.left, hqueued, length_append, Ccb.left]
      change _ + (sp.rbuf.length + 1) + sp.crbuf.toList.length = _
      omega
  | false =>
    obtain ⟨hrbuf, hcrbuf⟩ := h rfl
    have hqueued : (restore false (b :: rest) sp).queued = (b :: rest).flatMap Gbuf.bytes ++ sp.queued := by
      simp only [restore, Ccb.queued, hrbuf, hcrbuf, ofBufs, Bool.false_eq_true, if_false, toList_some,
        toList_none, flatMap_nil, nil_append, flatMap_cons, append_nil, Message.bytes,
        Message.bufs]
    refine ⟨hqueued, ?_, .inr (some_ne_none _), ?_, rfl, rfl, rfl, rfl⟩
    · simp only [restore, Ccb.queueBufs, hrbuf, hcrbuf, ofBufs, Bool.false_eq_true, if_false, toList_some,
        toList_none, flatMap_nil, nil_append, flatMap_cons, append_nil, Message.bufs]
    · rw [Ccb.left, hqueued, length_append, Ccb.left]
      simp only [restore, hrbuf, hcrbuf, ofBufs, Bool.false_eq_true, if_false, toList_some,
        toList_none, length_nil, length_cons]
      omega

/-- A turn takes something from the queue and completes the request or empties the queue, or a buffer
could not be copied. -/
theorem readTurn_moved (hreads : sp.Reads) (hdata : sp.rData = true) (hrpb : sp.rpb = pb :: rest)
    (hreq : pb.reqCount ≠ 0) (hfits : TurnFits pb sp) : ∃ pb' eom sp',
    readTurn avail pb rest sp = completeRead pb' rest eom sp' ∧ Moved pb pb' sp sp' ∧
      (sp'.left < sp.left ∧ (eom = true ∨ pb'.reqCount ≤ pb'.actCount ∨ sp'.rbuf = [] ∧ sp'.crbuf = none) ∨
        sp'.left ≤ sp.left ∧ (sp'.rbuf ≠ [] ∨ sp'.crbuf ≠ none) ∧ eom = false ∧ pb'.actCount < pb'.reqCount ∧
          avail sp.allocs = false ∧ sp'.allocs = sp.allocs + 1) := by
  have hpb : pb ∈ sp.rpb := by
    rw [hrpb]
    exact mem_cons_self
  have hroom := hreads.room pb hpb hreq
  have hcount := hreads.count pb hpb
  obtain ⟨mp, eom, sp₁, holdest, hqueued, hbufs, hsp₁, hcurrent, hleft⟩ := oldest_spec (hreads.ready.mp hdata)
  have hsmall := hreads.small
  rw [hbufs] at hsmall
  have hmp : ∀ b ∈ mp, b.Small := fun b hb => hsmall b (mem_append_left _ hb)
  rw [TurnFits, holdest] at hfits
  dsimp only at hfits
  simp only [readTurn]
  rw [if_neg hreq, holdest]
  dsimp only
  rw [ofInt_msgsize hmp]
  have hsum : (mp.flatMap Gbuf.bytes).length = (mp.map (fun b => b.bytes.length)).sum := length_flatMap
  have hroom' : (pb.reqCount - pb.actCount).toNat = pb.reqCount.toNat - pb.actCount.toNat :=
    BitVec.toNat_sub_of_le (BitVec.le_of_lt hroom)
  have hofNat : (BitVec.ofNat 16 (mp.map (fun b => b.bytes.length)).sum).toNat =
      (mp.map (fun b => b.bytes.length)).sum % 2 ^ 16 := BitVec.toNat_ofNat _ _
  have hsum_le := Nat.mod_le (mp.map (fun b => b.bytes.length)).sum (2 ^ 16)
  by_cases hpart : pb.reqCount - pb.actCount < BitVec.ofNat 16 (mp.map (fun b => b.bytes.length)).sum
  · rw [if_pos hpart]
    rw [BitVec.lt_def, hofNat] at hpart
    obtain ⟨pb', b, left, allocs, htake, ⟨moved, hbytes, hmoved⟩, hsmall', hheld', hcount', hreq', hioc, hfull⟩ :=
      @takePart_spec avail sp₁ pb mp hmp (hreads.held pb hpb) hroom hcount (by omega)
    rw [htake]
    obtain ⟨hrestored, hrestored', hnonempty, hleft', hstate, hrData, hsent, hallocs⟩ :=
      @restore_spec { sp₁ with allocs := allocs } eom b left hcurrent
    have hlength := congrArg List.length hmoved
    rw [length_append] at hlength
    have hlength' := congrArg List.length hbytes
    rw [length_append] at hlength'
    change _ = _ + sp₁.left + 1 at hleft'
    dsimp only
    refine ⟨pb', false, _, rfl, ?_, ?_⟩
    · refine ⟨⟨moved, hbytes, ?_⟩, ?_, hheld', hcount', ?_, hreq', hioc, hstate.trans ?_, hrData.trans ?_,
        hsent.trans ?_⟩
      · rw [hqueued, hmoved, hrestored, append_assoc]
        rfl
      · intro b' hb'
        rw [hrestored'] at hb'
        rcases mem_append.mp hb' with hb' | hb'
        · exact hsmall' b' hb'
        · exact hsmall b' (mem_append_right _ hb')
      · rcases hfull with hfull | ⟨hlt, -⟩
        · rw [hfull]
          exact BitVec.le_refl _
        · exact BitVec.le_of_lt hlt
      all_goals rw [hsp₁]
    · rcases hfull with hfull | ⟨hlt, havail, hallocs'⟩
      · left
        refine ⟨?_, .inr (.inl (by rw [hfull]; exact BitVec.le_refl _))⟩
        rw [BitVec.lt_def] at hroom
        rw [hfull, hreq'] at hcount'
        omega
      · right
        refine ⟨by omega, hnonempty, rfl, hlt, ?_, ?_⟩
        · rw [hsp₁] at havail
          exact havail
        · rw [hallocs]
          change allocs = _
          rw [hallocs', hsp₁]
  · rw [if_neg hpart]
    have hshort : (mp.map (fun b => b.bytes.length)).sum < 2 ^ 16 := hfits.resolve_right hpart
    rw [BitVec.lt_def, hofNat, Nat.mod_eq_of_lt hshort] at hpart
    rw [Nat.mod_eq_of_lt hshort] at hofNat
    have hact : (pb.actCount + BitVec.ofNat 16 (mp.map (fun b => b.bytes.length)).sum).toNat =
        pb.actCount.toNat + (mp.map (fun b => b.bytes.length)).sum := by
      rw [BitVec.toNat_add, hofNat]
      exact Nat.mod_eq_of_lt (by omega)
    have hbytes : ({ pb with
        actCount := pb.actCount + BitVec.ofNat 16 (mp.map (fun b => b.bytes.length)).sum
        data := pb.data ++ mp } : Adspcmd).bytes = pb.bytes ++ mp.flatMap Gbuf.bytes := flatMap_append
    refine ⟨_, eom, sp₁, rfl, ?_, .inl ⟨by omega, ?_⟩⟩
    · refine ⟨⟨_, hbytes, hqueued⟩, fun b hb => hsmall b (mem_append_right _ hb), ?_, ?_, ?_, rfl, rfl, ?_, ?_,
        ?_⟩
      · intro b hb
        rcases mem_append.mp hb with hb | hb
        · exact hreads.held pb hpb b hb
        · exact (hmp b hb).below
      · rw [hbytes, length_append, hcount, hsum]
        exact hact.symm
      · rw [BitVec.le_def]
        change (pb.actCount + BitVec.ofNat 16 _).toNat ≤ pb.reqCount.toNat
        rw [BitVec.lt_def] at hroom
        omega
      all_goals rw [hsp₁]
    · cases eom with
      | true => exact .inl rfl
      | false => exact .inr (.inr (hcurrent rfl))

theorem readTurn_empty (hreads : sp.Reads) (hrpb : sp.rpb = pb :: rest)
    (hreq : pb.reqCount = 0) : (readTurn avail pb rest sp).Reads ∧
      (readTurn avail pb rest sp).stream = sp.stream ∧ (readTurn avail pb rest sp).state = sp.state := by
  have htail : ∀ q ∈ rest, q.bytes = [] := by
    have htail := hreads.tail
    rwa [hrpb] at htail
  have hrest : ∀ q ∈ rest, q ∈ sp.rpb := by
    intro q hq
    rw [hrpb]
    exact mem_cons_of_mem _ hq
  have hcount : pb.bytes.length = pb.actCount.toNat := hreads.count pb (by rw [hrpb]; exact mem_cons_self)
  rw [readTurn, if_pos hreq]
  refine ⟨⟨hreads.ready, hreads.small, fun q hq => hreads.held q (hrest q hq), fun q hq => hreads.count q (hrest q hq),
    fun q hq => hreads.room q (hrest q hq), fun q hq => htail q (mem_of_mem_tail hq), fun _ _ => htail, ?_⟩, ?_,
    rfl⟩
  · rcases hreads.alone with halone | halone
    · rw [hrpb] at halone
      exact .inl (congrArg List.tail (halone : rest = []))
    · exact .inr fun q hq => halone q (hrest q hq)
  · have hreported := @reported_append sp { sp with rpb := rest, sent := sp.sent ++ [{ pb with ioResult := 0 }] } pb
      rfl hcount
    rw [Ccb.stream, hreported, Ccb.stream, Ccb.attached, Ccb.attached, hrpb, flatMap_cons]
    simp only [tail_bytes htail, append_nil]
    rfl

/-! ## The loop -/

theorem readLoop_stop {n : ℕ} (hstop : sp.rData = false ∨ sp.rpb = []) (h : readLoop avail n sp = some sp') :
    sp' = sp := by
  cases n with
  | zero => cases h
  | succ n =>
    rw [readLoop] at h
    rcases hstop with hstop | hstop
    · rw [hstop] at h
      exact (Option.some.inj h).symm
    · rw [hstop] at h
      cases hdata : sp.rData with
      | true =>
        rw [hdata] at h
        exact (Option.some.inj h).symm
      | false =>
        rw [hdata] at h
        exact (Option.some.inj h).symm

theorem readLoop_reads {n : ℕ} (hreads : sp.Reads) (hfits : LoopFits avail n sp)
    (h : readLoop avail n sp = some sp') :
    sp'.Reads ∧ sp'.stream = sp.stream ∧ sp'.state = sp.state ∧ (sp'.rData = false ∨ sp'.rpb = []) := by
  induction n generalizing sp with
  | zero => cases h
  | succ n ih =>
    cases hdata : sp.rData with
    | false =>
      cases readLoop_stop (.inl hdata) h
      exact ⟨hreads, rfl, rfl, .inl hdata⟩
    | true =>
      cases hrpb : sp.rpb with
      | nil =>
        cases readLoop_stop (.inr hrpb) h
        exact ⟨hreads, rfl, rfl, .inr hrpb⟩
      | cons pb rest =>
        simp only [readLoop, LoopFits, hdata, hrpb] at h hfits
        have hturn : (readTurn avail pb rest sp).Reads ∧ (readTurn avail pb rest sp).stream = sp.stream ∧
            (readTurn avail pb rest sp).state = sp.state := by
          by_cases hreq : pb.reqCount = 0
          · exact readTurn_empty hreads hrpb hreq
          · obtain ⟨pb', eom, sp₁, hturn, hmoved, -⟩ := readTurn_moved hreads hdata hrpb hreq (hfits.1 hreq)
            rw [hturn]
            exact completeRead_reads hreads hdata hrpb eom hmoved
        obtain ⟨hreads', hstream, hstate⟩ := hturn
        obtain ⟨hreads'', hstream', hstate', hend⟩ := ih hreads' hfits.2 h
        exact ⟨hreads'', hstream'.trans hstream, hstate'.trans hstate, hend⟩

theorem completeRead_cases (eom : Bool) (hdata : sp'.rData = true) :
    (completeRead pb' rest eom sp').left = sp'.left ∧
      (eom = true ∨ pb'.reqCount ≤ pb'.actCount ∨ sp'.rbuf = [] ∧ sp'.crbuf = none →
        (completeRead pb' rest eom sp').rpb = rest ∨ (completeRead pb' rest eom sp').rData = false) ∧
      ((sp'.rbuf ≠ [] ∨ sp'.crbuf ≠ none) → eom = false → pb'.actCount < pb'.reqCount →
        (completeRead pb' rest eom sp').rpb = { pb' with eom := eom } :: rest ∧
          (completeRead pb' rest eom sp').rData = true) ∧
      (completeRead pb' rest eom sp').allocs = sp'.allocs := by
  obtain ⟨hready, hrbuf, hcrbuf, -, -⟩ := noMoreData_spec hdata
  have hleft : (noMoreData sp').left = sp'.left := by
    simp only [Ccb.left, Ccb.queued, hrbuf, hcrbuf]
  have hallocs : (noMoreData sp').allocs = sp'.allocs := by
    rw [noMoreData]
    split_ifs <;> rfl
  simp only [completeRead]
  split_ifs with hdone
  · refine ⟨hleft, fun _ => .inl rfl, ?_, hallocs⟩
    intro hnonempty heom hlt
    simp only [heom, hready.mpr hnonempty, BitVec.not_le.mpr hlt, Bool.false_or, decide_false, Bool.not_true,
      Bool.and_false, Bool.false_eq_true] at hdone
  · simp only [Bool.or_eq_true, decide_eq_true_eq, not_or] at hdone
    refine ⟨hleft, ?_, fun hnonempty _ _ => ⟨rfl, hready.mpr hnonempty⟩, hallocs⟩
    rintro (heom | hfull | ⟨hnil, hnone⟩)
    · exact absurd heom hdone.1.1
    · exact absurd hfull hdone.1.2
    · right
      by_contra htrue
      rcases hready.mp (Bool.eq_true_of_not_eq_false htrue) with hne | hne
      · exact hne hnil
      · exact hne hnone

theorem readLoop_left {n : ℕ} (hreads : sp.Reads) (hdata : sp.rData = true) (hrpb : sp.rpb = [pb])
    (hreq : pb.reqCount ≠ 0) (hfits : LoopFits avail n sp) (h : readLoop avail n sp = some sp') :
    sp'.left < sp.left := by
  induction n generalizing sp pb with
  | zero => cases h
  | succ n ih =>
    simp only [readLoop, LoopFits, hdata, hrpb] at h hfits
    obtain ⟨pb', eom, sp₁, hturn, hmoved, hcases⟩ :=
      @readTurn_moved avail sp pb [] hreads hdata hrpb hreq (hfits.1 hreq)
    obtain ⟨hreads', -, -⟩ := completeRead_reads hreads hdata hrpb eom hmoved
    obtain ⟨hleft, hends, hgoes, -⟩ := @completeRead_cases sp₁ pb' [] eom (hmoved.rData.trans hdata)
    rw [hturn] at h hfits
    rcases hcases with ⟨hlt, hend⟩ | ⟨hle, hnonempty, heom, hless, -, -⟩
    · cases readLoop_stop (hends hend).symm h
      omega
    · obtain ⟨hrpb', hdata'⟩ := hgoes hnonempty heom hless
      have hlt := ih hreads' hdata' hrpb' (by rw [← hmoved.reqCount] at hreq; exact hreq) hfits.2 h
      omega

theorem readLoop_returns (havail : ∀ n, ∃ m, n ≤ m ∧ avail m = true) (hreads : sp.Reads)
    (hdata : sp.rData = true) (hrpb : sp.rpb = [pb]) (hreq : pb.reqCount ≠ 0)
    (hfits : ∀ n, LoopFits avail n sp) : ∃ n sp', readLoop avail n sp = some sp' := by
  obtain ⟨m, hm, havail'⟩ := havail sp.allocs
  -- The distance to the next allocation that succeeds.
  induction hk : m - sp.allocs using Nat.strongRecOn generalizing sp pb with
  | _ k ih =>
    have hloop : ∀ n, readLoop avail (n + 1) sp = readLoop avail n (readTurn avail pb [] sp) := by
      intro n
      simp only [readLoop, hdata, hrpb]
    have hfits' : ∀ n, LoopFits avail n (readTurn avail pb [] sp) := by
      intro n
      have hfits := hfits (n + 1)
      simp only [LoopFits, hdata, hrpb] at hfits
      exact hfits.2
    have hfirst : TurnFits pb sp := by
      have hfits := hfits 1
      simp only [LoopFits, hdata, hrpb] at hfits
      exact hfits.1 hreq
    obtain ⟨pb', eom, sp₁, hturn, hmoved, hcases⟩ := @readTurn_moved avail sp pb [] hreads hdata hrpb hreq hfirst
    obtain ⟨hreads', -, -⟩ := completeRead_reads hreads hdata hrpb eom hmoved
    obtain ⟨-, hends, hgoes, hallocs⟩ := @completeRead_cases sp₁ pb' [] eom (hmoved.rData.trans hdata)
    rcases hcases with ⟨-, hend⟩ | ⟨-, hnonempty, heom, hless, hfailed, hnext⟩
    · refine ⟨2, completeRead pb' [] eom sp₁, ?_⟩
      rw [hloop, hturn, readLoop]
      rcases hends hend with hnil | hnone
      · rw [hnil]
        cases (completeRead pb' [] eom sp₁).rData <;> rfl
      · rw [hnone]
    · obtain ⟨hrpb', hdata'⟩ := hgoes hnonempty heom hless
      have hne : m ≠ sp.allocs := by
        rintro rfl
        rw [hfailed] at havail'
        cases havail'
      rw [hturn] at hfits' hloop
      obtain ⟨n, sp', hn⟩ := @ih (m - sp₁.allocs) (by omega) (completeRead pb' [] eom sp₁) { pb' with eom := eom }
        hreads' hdata' hrpb' (by rw [← hmoved.reqCount] at hreq; exact hreq) hfits' (by omega) (by omega)
      exact ⟨n + 1, sp', (hloop n).trans hn⟩

/-! ## The calls -/

theorem Ccb.Idle.frame (h : sp.Idle) (full : Bool) (send : SendPart) :
    Ccb.Idle { sp with rbufFull := full, send := send } :=
  ⟨⟨h.ready, h.small, h.held, h.count, h.room, h.tail, h.closed, h.alone⟩, h.idle, h.queue⟩

theorem openWindow_frame (sp : Ccb) : ∃ full send, openWindow sp = { sp with rbufFull := full, send := send } := by
  simp only [openWindow, calcRecvWdw]
  split_ifs with hfull
  all_goals exact ⟨_, _, rfl⟩

theorem reported_pending (hstate : sp'.sent = sp.sent ++ [pb]) (hresult : pb.ioResult ≠ 0) :
    sp'.reported = sp.reported := by
  have hpending : ¬ pb.Completed = true := by
    rw [Adspcmd.Completed, decide_eq_true_eq]
    exact hresult
  rw [Ccb.reported, hstate, filter_append, filter_cons_of_neg hpending, filter_nil, append_nil]
  rfl

theorem idle_of_no_reads (hrpb : sp.rpb = []) (hready : sp.rData = true ↔ sp.rbuf ≠ [] ∨ sp.crbuf ≠ none)
    (hsmall : ∀ b ∈ sp.queueBufs, b.Small) : sp.Idle := by
  refine ⟨⟨hready, hsmall, ?_, ?_, ?_, ?_, fun _ _ => ?_, .inl (by rw [hrpb, tail_nil])⟩, fun h => absurd hrpb h, ?_⟩ <;>
    rw [hrpb] <;> exact fun q hq => nomatch hq

theorem leftReads_idle (hreads : sp.Reads) (hend : sp.rData = false ∨ sp.rpb = []) :
    (leftReads avail sp).Idle ∧ (leftReads avail sp).stream = sp.stream ∧ (leftReads avail sp).state = sp.state ∧
      (sp.state = .closed → (leftReads avail sp).left = sp.left ∧ (leftReads avail sp).rpb = []) := by
  cases hrpb : sp.rpb with
  | nil =>
    have hsame : leftReads avail sp = sp := by simp only [leftReads, hrpb]
    rw [hsame]
    refine ⟨⟨hreads, fun h => absurd hrpb h, ?_⟩, rfl, rfl, fun _ => ⟨rfl, hrpb⟩⟩
    rw [hrpb]
    exact fun q hq => nomatch hq
  | cons pb rest =>
    have hdata : sp.rData = false := hend.resolve_right (by rw [hrpb]; exact cons_ne_nil _ _)
    have hpb : pb ∈ sp.rpb := by
      rw [hrpb]
      exact mem_cons_self
    have htail : ∀ q ∈ rest, q.bytes = [] := by
      have htail := hreads.tail
      rwa [hrpb] at htail
    have hempty : sp.rbuf = [] ∧ sp.crbuf = none := by
      have hready := mt hreads.ready.mpr (by rw [hdata]; exact Bool.false_ne_true)
      rw [not_or, not_not, not_not] at hready
      exact hready
    have hrest : pb.ioc = true → rest = [] := by
      intro hioc
      rcases hreads.alone with halone | halone
      · rwa [hrpb] at halone
      · have hfalse := halone pb hpb
        rw [hioc] at hfalse
        cases hfalse
    simp only [leftReads, hrpb]
    split_ifs with hclosed hioc havail
    · have hnone := hreads.closed hclosed hdata
      refine ⟨idle_of_no_reads rfl hreads.ready hreads.small, ?_, rfl, fun _ => ⟨rfl, rfl⟩⟩
      · have hreported : ((pb :: rest).map (fun pb : Adspcmd =>
            { pb with ioResult := 0, actCount := 0, eom := false })).flatMap Adspcmd.reported = [] := by
          rw [flatMap_eq_nil_iff]
          intro q hq
          obtain ⟨q', -, rfl⟩ := mem_map.mp hq
          exact take_zero
        have hall : ((pb :: rest).map (fun pb : Adspcmd =>
            { pb with ioResult := 0, actCount := 0, eom := false })).filter Adspcmd.Completed =
              (pb :: rest).map (fun pb : Adspcmd => { pb with ioResult := 0, actCount := 0, eom := false }) := by
          rw [filter_eq_self]
          intro q hq
          obtain ⟨q', -, rfl⟩ := mem_map.mp hq
          rfl
        rw [Ccb.stream, Ccb.reported, filter_append, hall, flatMap_append, hreported, append_nil,
          Ccb.stream, Ccb.attached, Ccb.attached, tail_bytes hnone]
        rfl
    · obtain rfl := hrest hioc
      have hreported := @reported_pending sp
        { sp with
          allocs := sp.allocs + 1
          rpb := [{ pb with ioc := false, ioResult := 1 }]
          sent := sp.sent ++ [{ pb with ioResult := 1, data := [] }] } { pb with ioResult := 1, data := [] } rfl
        one_ne_zero
      refine ⟨⟨⟨hreads.ready, hreads.small, ?_, ?_, ?_, ?_, ?_, .inl rfl⟩, fun _ => hdata, ?_⟩, ?_, rfl,
        fun h => absurd h hclosed⟩
      · rintro q (_ | ⟨_, hq⟩)
        · exact hreads.held pb hpb
        · cases hq
      · rintro q (_ | ⟨_, hq⟩)
        · exact hreads.count pb hpb
        · cases hq
      · rintro q (_ | ⟨_, hq⟩)
        · exact hreads.room pb hpb
        · cases hq
      · exact fun q hq => nomatch hq
      · exact fun h => absurd h hclosed
      · rintro q (_ | ⟨_, hq⟩)
        · rfl
        · cases hq
      · rw [Ccb.stream, hreported, Ccb.stream, Ccb.attached, Ccb.attached, hrpb]
        rfl
    · obtain rfl := hrest hioc
      -- Without the duplicate, what was attached is the current message again.
      have hsmall : ∀ b ∈ pb.data, b.Small := by
        intro b hb
        refine ⟨?_, hreads.held pb hpb b hb⟩
        have hcount := hreads.count pb hpb
        rw [Adspcmd.bytes, length_flatMap] at hcount
        have hle := single_le_sum (fun _ _ => Nat.zero_le _) _
          (mem_map_of_mem (f := fun b : Gbuf => b.bytes.length) hb)
        have hlt := pb.actCount.isLt
        omega
      cases hbufs : ofBufs pb.data with
      | none =>
        have hdata' : pb.data = [] := by
          cases hdata' : pb.data with
          | nil => rfl
          | cons b l =>
            rw [hdata'] at hbufs
            cases hbufs
        have hreported := @reported_pending sp
          { sp with
            allocs := sp.allocs + 1
            rpb := []
            sent := sp.sent ++ [{ pb with ioResult := errDSPQueueSize, data := [] }] }
          { pb with ioResult := errDSPQueueSize, data := [] } rfl (show errDSPQueueSize ≠ 0 by decide)
        refine ⟨idle_of_no_reads rfl hreads.ready hreads.small, ?_, rfl, fun h => absurd h hclosed⟩
        · rw [Ccb.stream, hreported, Ccb.stream, Ccb.attached, Ccb.attached, hrpb, flatMap_cons, Adspcmd.bytes,
            hdata']
          rfl
      | some mp =>
        have hreported := @reported_pending sp
          { sp with
            allocs := sp.allocs + 1
            rpb := []
            sent := sp.sent ++ [{ pb with ioResult := errDSPQueueSize, data := [] }]
            crbuf := some mp
            rData := true }
          { pb with ioResult := errDSPQueueSize, data := [] } rfl (show errDSPQueueSize ≠ 0 by decide)
        have hmp : mp.bytes = pb.bytes ∧ mp.bufs = pb.data := by
          cases hdata' : pb.data with
          | nil =>
            rw [hdata'] at hbufs
            cases hbufs
          | cons b l =>
            rw [hdata'] at hbufs
            cases hbufs
            rw [Adspcmd.bytes, hdata']
            exact ⟨rfl, rfl⟩
        refine ⟨idle_of_no_reads rfl (iff_of_true rfl (.inr (some_ne_none _))) ?_, ?_, rfl,
          fun h => absurd h hclosed⟩
        · intro b hb
          simp only [Ccb.queueBufs, hempty.1, flatMap_nil, nil_append, toList_some, flatMap_cons,
            append_nil, hmp.2] at hb
          exact hsmall b hb
        · rw [Ccb.stream, hreported, Ccb.stream]
          simp only [Ccb.attached, Ccb.queued, hrpb, hempty.1, hempty.2, flatMap_nil, flatMap_cons,
            nil_append, append_nil, toList_some, toList_none, hmp.1]
    · have hqueue : ∀ q ∈ sp.rpb, q.ioc = false := by
        rcases hreads.alone with halone | halone
        · intro q hq
          rw [hrpb] at halone hq
          change rest = [] at halone
          rw [halone, mem_singleton] at hq
          rw [hq]
          exact Bool.eq_false_of_not_eq_true hioc
        · exact halone
      exact ⟨⟨hreads, fun _ => hdata, hqueue⟩, rfl, rfl, fun h => absurd h hclosed⟩

theorem checkReadQueue_idle {fuel : ℕ} (hreads : sp.Reads) (hfits : LoopFits avail fuel sp)
    (h : checkReadQueue avail fuel sp = some sp') :
    sp'.Idle ∧ sp'.stream = sp.stream ∧ sp'.state = sp.state ∧ (sp.state = .closed → sp'.rpb = []) := by
  obtain ⟨sp₁, hloop, rfl⟩ := map_eq_some_iff.mp h
  obtain ⟨hreads₁, hstream, hstate, hend⟩ := readLoop_reads hreads hfits hloop
  obtain ⟨hidle, hstream', hstate', hclosed⟩ := @leftReads_idle avail sp₁ hreads₁ hend
  obtain ⟨full, send, hwindow⟩ := openWindow_frame (leftReads avail sp₁)
  rw [hwindow]
  refine ⟨hidle.frame full send, hstream'.trans hstream, hstate'.trans hstate, fun h => ?_⟩
  exact (hclosed (hstate.trans h)).2

/-! ## Packets -/

/-- The bytes of a packet from the next one that is expected, if the packet has it. -/
def inSequence (p : Packet) (sp : Ccb) : List Byte :=
  if GT p.frame.pktFirstByteSeq sp.recvSeq then [] else p.data.drop (sp.recvSeq - p.frame.pktFirstByteSeq).toNat

theorem currentWith_spec (crbuf : Option Message) (mp : Message) :
    (currentWith crbuf mp).bytes = crbuf.toList.flatMap Message.bytes ++ mp.bytes ∧
      (currentWith crbuf mp).bufs = crbuf.toList.flatMap Message.bufs ++ mp.bufs := by
  cases crbuf with
  | none => exact ⟨rfl, rfl⟩
  | some m => simp [currentWith, Message.bytes, Message.bufs, Message.linkb]

theorem linkData_spec {eom : Bool} {mp : Message} (hready : sp.rData = true ↔ sp.rbuf ≠ [] ∨ sp.crbuf ≠ none) :
    (linkData eom mp sp).queued = sp.queued ++ mp.bytes ∧
      (∀ b ∈ (linkData eom mp sp).queueBufs, b ∈ sp.queueBufs ∨ b ∈ mp.bufs) ∧
      (linkData eom mp sp).rData = true ∧
      ((linkData eom mp sp).rbuf ≠ [] ∨ (linkData eom mp sp).crbuf ≠ none) ∧
      (linkData eom mp sp).rpb = sp.rpb ∧ (linkData eom mp sp).sent = sp.sent ∧
      (linkData eom mp sp).state = sp.state := by
  cases hdata : sp.rData with
  | false =>
    have hempty : sp.rbuf = [] ∧ sp.crbuf = none := by
      have hready := mt hready.mpr (by rw [hdata]; exact Bool.false_ne_true)
      rw [not_or, not_not, not_not] at hready
      exact hready
    have hmp : ∀ b ∈ mp.bufs, b ∈ ([] : List Gbuf) ∨ b ∈ mp.bufs := fun b hb => .inr hb
    cases eom with
    | true =>
      simp only [linkData, hdata, Bool.not_false, if_true, Ccb.queued, Ccb.queueBufs, hempty.1, hempty.2,
        toList_none, flatMap_cons, flatMap_nil, append_nil, nil_append]
      exact ⟨trivial, hmp, trivial, .inl (cons_ne_nil _ _), trivial, trivial, trivial⟩
    | false =>
      simp only [linkData, hdata, Bool.not_false, if_true, Bool.false_eq_true, if_false, Ccb.queued, Ccb.queueBufs,
        hempty.1, hempty.2, toList_some, toList_none, flatMap_cons, flatMap_nil,
        append_nil, nil_append]
      exact ⟨trivial, hmp, trivial, .inr (some_ne_none _), trivial, trivial, trivial⟩
  | true =>
    obtain ⟨hbytes, hbufs⟩ := currentWith_spec sp.crbuf mp
    have hmem : ∀ b ∈ sp.rbuf.flatMap Message.bufs ++ (currentWith sp.crbuf mp).bufs,
        b ∈ sp.queueBufs ∨ b ∈ mp.bufs := by
      intro b hb
      rw [hbufs, ← append_assoc] at hb
      exact mem_append.mp hb
    cases eom with
    | true =>
      simp only [linkData, hdata, Bool.not_true, Bool.false_eq_true, if_false, if_true, Ccb.queued]
      refine ⟨?_, ?_, trivial, .inl (append_ne_nil_of_right_ne_nil _ (cons_ne_nil _ _)), trivial, trivial, trivial⟩
      · rw [flatMap_append, flatMap_cons, flatMap_nil, append_nil, hbytes, toList_none,
          flatMap_nil, append_nil, append_assoc]
      · intro b hb
        refine hmem b ?_
        simpa only [Ccb.queueBufs, flatMap_append, flatMap_cons, flatMap_nil, append_nil,
          toList_none] using hb
    | false =>
      simp only [linkData, hdata, Bool.not_true, Bool.false_eq_true, if_false, Ccb.queued]
      refine ⟨?_, ?_, trivial, .inr (some_ne_none _), trivial, trivial, trivial⟩
      · rw [toList_some, flatMap_cons, flatMap_nil, append_nil, hbytes, append_assoc]
      · intro b hb
        refine hmem b ?_
        simpa only [Ccb.queueBufs, flatMap_cons, flatMap_nil, append_nil, toList_some] using hb

theorem seq_window {recv : Word} {len : ℕ} (hlen : len < 2 ^ 11) (hfirst : ¬ GT first recv) :
    LTE (first + BitVec.ofNat 32 len) recv ↔ len ≤ (recv - first).toNat := by
  have hofNat : (BitVec.ofNat 32 len).toNat = len := by
    rw [BitVec.toNat_ofNat]
    exact Nat.mod_eq_of_lt (by omega)
  have hsub : first + BitVec.ofNat 32 len - recv = BitVec.ofNat 32 len - (recv - first) := by bv_omega
  have hneg : first - recv = 0 - (recv - first) := by bv_omega
  rw [GT, hneg, BitVec.toInt_eq_toNat_cond, BitVec.toNat_sub] at hfirst
  rw [LTE, hsub, BitVec.toInt_eq_toNat_cond, BitVec.toNat_sub, hofNat]
  have hzero : (0 : Word).toNat = 0 := rfl
  omega

/-- The bytes of a packet that have been received already, if it has new ones, are in its first buffer. -/
def Packet.HeadHolds (p : Packet) (sp : Ccb) : Prop :=
  ¬ GT p.frame.pktFirstByteSeq sp.recvSeq →
    ¬ LTE (p.frame.pktFirstByteSeq + BitVec.ofNat 32 p.data.length + BitVec.ofNat 32 p.eomCount) sp.recvSeq →
      p.header + (sp.recvSeq - p.frame.pktFirstByteSeq).toNat ≤ p.mp.head.bytes.length

theorem Packet.rinc_spec {p : Packet} {seen : ℕ} (h : p.header + seen ≤ p.mp.head.bytes.length) :
    Message.bytes ⟨p.mp.head.rinc (p.header + seen : ℕ), p.mp.cont⟩ = p.data.drop seen ∧
      ∀ b ∈ Message.bufs ⟨p.mp.head.rinc (p.header + seen : ℕ), p.mp.cont⟩, b.Small := by
  have hbytes : p.mp.bytes = p.mp.head.bytes ++ p.mp.cont.flatMap Gbuf.bytes := flatMap_cons
  have hsmall : ∀ b ∈ p.mp.bufs, b.Small := by
    intro b hb
    refine ⟨?_, p.below_eq b hb⟩
    have hlt := p.bytes_lt
    rw [Message.bytes, length_flatMap] at hlt
    have hle := single_le_sum (fun _ _ => Nat.zero_le _) _
      (mem_map_of_mem (f := fun b : Gbuf => b.bytes.length) hb)
    omega
  refine ⟨?_, ?_⟩
  · rw [Packet.data, drop_drop, hbytes, drop_append_of_le_length h]
    exact flatMap_cons
  · rintro b (_ | ⟨_, hb⟩)
    · exact (hsmall _ mem_cons_self).rinc h
    · exact hsmall b (mem_cons_of_mem _ hb)

theorem storeData_reads (p : Packet) (h : sp.Idle) (hhead : p.HeadHolds sp) : (storeData p sp).Reads ∧
    (storeData p sp).stream = sp.stream ++ inSequence p sp ∧ (storeData p sp).state = sp.state := by
  have hlen : p.data.length < 2 ^ 10 := by
    rw [Packet.data, length_drop]
    have hlt := p.bytes_lt
    omega
  have heom : p.eomCount ≤ 1 := by
    rw [Packet.eomCount]
    split_ifs <;> omega
  simp only [storeData]
  by_cases hmissed : GT p.frame.pktFirstByteSeq sp.recvSeq
  · rw [if_pos hmissed, inSequence, if_pos hmissed, append_nil]
    exact ⟨⟨h.ready, h.small, h.held, h.count, h.room, h.tail, h.closed, h.alone⟩, rfl, rfl⟩
  · have hsum : p.frame.pktFirstByteSeq + BitVec.ofNat 32 p.data.length + BitVec.ofNat 32 p.eomCount =
        p.frame.pktFirstByteSeq + BitVec.ofNat 32 (p.data.length + p.eomCount) := by
      rw [BitVec.ofNat_add, BitVec.add_assoc]
    have hhead' := hhead hmissed
    rw [hsum] at hhead'
    rw [if_neg hmissed, inSequence, if_neg hmissed, hsum]
    by_cases hold : LTE (p.frame.pktFirstByteSeq + BitVec.ofNat 32 (p.data.length + p.eomCount)) sp.recvSeq
    · have hseen := (seq_window (by omega) hmissed).mp hold
      rw [if_pos hold, drop_eq_nil_of_le (by omega), append_nil]
      exact ⟨h.toReads, rfl, rfl⟩
    · have hseen := mt (seq_window (by omega) hmissed).mpr hold
      rw [if_neg hold]
      have hcnt : ((sp.recvSeq - p.frame.pktFirstByteSeq).truncate 16).toInt =
          ((sp.recvSeq - p.frame.pktFirstByteSeq).toNat : ℤ) := by
        rw [truncate_toInt (by omega), if_pos (by omega)]
      obtain ⟨hmp, hsmall⟩ := Packet.rinc_spec (hhead' hold)
      rw [Nat.cast_add, ← hcnt] at hmp hsmall
      generalize (⟨p.mp.head.rinc (p.header + ((sp.recvSeq - p.frame.pktFirstByteSeq).truncate 16).toInt),
        p.mp.cont⟩ : Message) = mp at hmp hsmall ⊢
      rw [← hmp]
      generalize sp.recvSeq + (BitVec.ofInt 16 (p.data.length -
        ((sp.recvSeq - p.frame.pktFirstByteSeq).truncate 16).toInt)).signExtend 32 +
          BitVec.ofNat 32 p.eomCount = recvSeq
      obtain ⟨hqueued, hbufs, hdata, hnonempty, hrpb, hsent, hstate⟩ :=
        @linkData_spec { sp with badSeqCnt := 0, recvSeq := recvSeq } p.eom mp h.ready
      refine ⟨⟨iff_of_true hdata hnonempty, ?_, ?_, ?_, ?_, ?_, ?_, ?_⟩, ?_, hstate⟩
      · intro b hb
        rcases hbufs b hb with hb | hb
        · exact h.small b hb
        · exact hsmall b hb
      · rw [hrpb]
        exact h.held
      · rw [hrpb]
        exact h.count
      · rw [hrpb]
        exact h.room
      · rw [hrpb]
        exact h.tail
      · rw [hdata]
        exact fun _ hfalse => nomatch hfalse
      · rw [hrpb]
        exact .inr h.queue
      · rw [Ccb.stream, Ccb.reported, Ccb.attached, hrpb, hsent, hqueued, Ccb.stream, ← append_assoc]
        rfl

/-! ## Reads -/

/-- A request as it comes from the user, who waits for it. -/
structure Adspcmd.Fresh (pb : Adspcmd) : Prop where
  actCount : pb.actCount = 0
  data : pb.data = []
  ioc : pb.ioc = true

theorem Adspcmd.Fresh.bytes (h : pb.Fresh) : pb.bytes = [] := by
  rw [Adspcmd.bytes, h.data]
  rfl

theorem Adspcmd.Fresh.room (h : pb.Fresh) (hreq : pb.reqCount ≠ 0) : pb.actCount < pb.reqCount := by
  rw [h.actCount, BitVec.lt_def]
  have hzero : (0 : BitVec 16).toNat = 0 := rfl
  have hne : pb.reqCount.toNat ≠ 0 := fun heq => hreq (BitVec.eq_of_toNat_eq heq)
  omega

theorem append_reads (h : sp.Idle) (hfresh : pb'.Fresh) (hdata : pb.data = pb'.data)
    (hreq : pb.reqCount = pb'.reqCount) (hact : pb.actCount = pb'.actCount)
    (hioc : sp.rpb = [] ∨ pb.ioc = false) : Ccb.Reads { sp with rpb := sp.rpb ++ [pb] } := by
  have hnil : pb.bytes = [] := by
    rw [Adspcmd.bytes, hdata, hfresh.data]
    rfl
  have hmem : ∀ q ∈ sp.rpb ++ [pb], q ∈ sp.rpb ∨ q = pb := by
    intro q hq
    exact (mem_append.mp hq).imp_right mem_singleton.mp
  refine ⟨h.ready, h.small, ?_, ?_, ?_, ?_, ?_, ?_⟩
  · intro q hq
    rcases hmem q hq with hq | rfl
    · exact h.held q hq
    · rw [hdata, hfresh.data]
      exact fun b hb => nomatch hb
  · intro q hq
    rcases hmem q hq with hq | rfl
    · exact h.count q hq
    · rw [hnil, hact, hfresh.actCount]
      rfl
  · intro q hq
    rcases hmem q hq with hq | rfl
    · exact h.room q hq
    · rw [hact, hreq]
      exact hfresh.room
  · cases hrpb : sp.rpb with
    | nil => exact fun q hq => nomatch hq
    | cons first rest =>
      intro q hq
      have htail := h.tail
      rw [hrpb] at htail
      rcases mem_append.mp (show q ∈ rest ++ [pb] from hq) with hq | hq
      · exact htail q hq
      · rw [mem_singleton.mp hq]
        exact hnil
  · intro hclosed hdata q hq
    rcases hmem q hq with hq | rfl
    · exact h.closed hclosed hdata q hq
    · exact hnil
  · rcases hioc with hrpb | hioc
    · left
      change (sp.rpb ++ [pb]).tail = []
      rw [hrpb]
      rfl
    · right
      intro q hq
      rcases hmem q hq with hq | rfl
      · exact h.queue q hq
      · exact hioc

theorem append_stream (hnil : pb.bytes = []) : Ccb.stream { sp with rpb := sp.rpb ++ [pb] } = sp.stream := by
  have hattached : Ccb.attached { sp with rpb := sp.rpb ++ [pb] } = sp.attached := by
    rw [Ccb.attached, flatMap_append, flatMap_cons, flatMap_nil, hnil]
    exact (append_nil _)
  rw [Ccb.stream, hattached]
  rfl

theorem adspRead_idle {fuel : ℕ} (h : sp.Idle) (hfresh : pb.Fresh)
    (hfits : LoopFits avail fuel { sp with rpb := sp.rpb ++ [pb] }) (hread : adspRead avail fuel pb sp = some sp') :
    sp'.Idle ∧ sp'.stream = sp.stream ∧ sp'.state = sp.state ∧
      (sp.state = .closed → sp.attached = [] → sp'.attached = []) := by
  rw [adspRead] at hread
  split_ifs at hread with hstate hdirect hempty havail
  · cases hread
    refine ⟨⟨⟨h.ready, h.small, h.held, h.count, h.room, h.tail, h.closed, h.alone⟩, h.idle, h.queue⟩, ?_, rfl,
      fun _ hnone => hnone⟩
    have hreported := @reported_pending sp { sp with sent := sp.sent ++ [{ pb with ioResult := errState }] }
      { pb with ioResult := errState } rfl (show errState ≠ 0 by decide)
    rw [Ccb.stream, hreported]
    rfl
  · rw [Bool.and_eq_true, List.isEmpty_iff] at hdirect
    have hreads := append_reads h hfresh rfl rfl rfl (.inl hdirect.2)
    obtain ⟨hidle, hstream, hstate', hclosed⟩ := checkReadQueue_idle hreads hfits hread
    refine ⟨hidle, hstream.trans (append_stream hfresh.bytes), hstate', fun hclosed' _ => ?_⟩
    rw [Ccb.attached, hclosed hclosed']
    rfl
  · cases hread
    refine ⟨⟨⟨h.ready, h.small, h.held, h.count, h.room, h.tail, h.closed, h.alone⟩, h.idle, h.queue⟩, ?_, rfl,
      fun _ hnone => hnone⟩
    have hreported := @reported_append sp { sp with sent := sp.sent ++ [{ pb with ioResult := 0 }] } pb rfl
      (by rw [hfresh.bytes, hfresh.actCount]; rfl)
    rw [Ccb.stream, hreported, hfresh.bytes, append_nil]
    rfl
  · cases hread
    have hreads := @append_reads sp { pb with ioc := false, ioResult := 1 } pb h hfresh rfl rfl rfl (.inr rfl)
    have hdata : sp.rData = false := by
      by_contra htrue
      rw [Bool.eq_true_of_not_eq_false htrue, Bool.true_and, List.isEmpty_iff] at hdirect
      exact htrue (h.idle hdirect)
    refine ⟨⟨⟨hreads.ready, hreads.small, hreads.held, hreads.count, hreads.room, hreads.tail, hreads.closed, hreads.alone⟩,
      fun _ => hdata, ?_⟩, ?_, rfl, fun _ hnone => ?_⟩
    · intro q hq
      rcases mem_append.mp hq with hq | hq
      · exact h.queue q hq
      · rw [mem_singleton.mp hq]
    · have hreported := @reported_pending sp
        { sp with
          allocs := sp.allocs + 1
          rpb := sp.rpb ++ [{ pb with ioc := false, ioResult := 1 }]
          sent := sp.sent ++ [{ pb with ioResult := 1 }] } { pb with ioResult := 1 } rfl one_ne_zero
      have hstream := @append_stream sp { pb with ioc := false, ioResult := 1 } hfresh.bytes
      rw [Ccb.stream, hreported]
      exact hstream
    · rw [Ccb.attached, flatMap_append, flatMap_cons, flatMap_nil, append_nil]
      rw [Ccb.attached] at hnone
      change sp.rpb.flatMap Adspcmd.bytes ++ pb.bytes = []
      rw [hnone, hfresh.bytes]
      rfl
  · cases hread
    refine ⟨⟨⟨h.ready, h.small, h.held, h.count, h.room, h.tail, h.closed, h.alone⟩, h.idle, h.queue⟩, ?_, rfl,
      fun _ hnone => hnone⟩
    have hreported := @reported_pending sp
      { sp with allocs := sp.allocs + 1, sent := sp.sent ++ [{ pb with ioResult := errDSPQueueSize }] }
      { pb with ioResult := errDSPQueueSize } rfl (show errDSPQueueSize ≠ 0 by decide)
    rw [Ccb.stream, hreported]
    rfl

theorem adspRead_left {fuel : ℕ} (h : sp.Idle) (hclosed : sp.state = .closed) (hfresh : pb.Fresh)
    (hreq : pb.reqCount ≠ 0) (hfits : LoopFits avail fuel { sp with rpb := sp.rpb ++ [pb] })
    (hread : adspRead avail fuel pb sp = some sp') : sp'.left ≤ sp.left - 1 := by
  have hempty : sp.rData = false → sp.left = 0 := by
    intro hdata
    have hready := mt h.ready.mpr (by rw [hdata]; exact Bool.false_ne_true)
    rw [not_or, not_not, not_not] at hready
    rw [Ccb.left, Ccb.queued, hready.1, hready.2]
    rfl
  rw [adspRead, if_neg (fun hstate => hstate.2.2 hclosed)] at hread
  split_ifs at hread with hdirect hnone havail
  · rw [Bool.and_eq_true, List.isEmpty_iff] at hdirect
    have hreads := append_reads h hfresh rfl rfl rfl (.inl hdirect.2)
    obtain ⟨sp₁, hloop, rfl⟩ := map_eq_some_iff.mp hread
    obtain ⟨hreads₁, -, hstate, hend⟩ := readLoop_reads hreads hfits hloop
    have hlt := readLoop_left hreads hdirect.1 (by rw [hdirect.2]; rfl) hreq hfits hloop
    obtain ⟨-, -, -, hleft⟩ := @leftReads_idle avail sp₁ hreads₁ hend
    obtain ⟨full, send, hwindow⟩ := openWindow_frame (leftReads avail sp₁)
    rw [hwindow]
    change (leftReads avail sp₁).left ≤ sp.left - 1
    rw [(hleft (hstate.trans hclosed)).1]
    change sp₁.left < sp.left at hlt
    omega
  · exact absurd hnone.1 hreq
  all_goals
    have hdata : sp.rData = false := by
      by_contra htrue
      rw [Bool.eq_true_of_not_eq_false htrue, Bool.true_and, List.isEmpty_iff] at hdirect
      exact htrue (h.idle hdirect)
    cases hread
    change sp.left ≤ sp.left - 1
    rw [hempty hdata]

theorem adspRead_returns (havail : ∀ n, ∃ m, n ≤ m ∧ avail m = true) (h : sp.Idle) (hfresh : pb.Fresh)
    (hreq : pb.reqCount ≠ 0) (hfits : ∀ n, LoopFits avail n { sp with rpb := sp.rpb ++ [pb] }) :
    ∃ fuel sp', adspRead avail fuel pb sp = some sp' := by
  by_cases hdirect : (sp.rData && sp.rpb.isEmpty) = true
  · have hnil := hdirect
    rw [Bool.and_eq_true, List.isEmpty_iff] at hnil
    have hreads := append_reads h hfresh rfl rfl rfl (.inl hnil.2)
    obtain ⟨fuel, sp₁, hloop⟩ := readLoop_returns havail hreads hnil.1 (by rw [hnil.2]; rfl) hreq hfits
    by_cases hstate : sp.state ≠ .open ∧ sp.state ≠ .closing ∧ sp.state ≠ .closed
    · exact ⟨0, _, if_pos hstate⟩
    · refine ⟨fuel, openWindow (leftReads avail sp₁), ?_⟩
      rw [adspRead, if_neg hstate, if_pos hdirect, checkReadQueue, hloop]
      rfl
  · refine ⟨0, ?_⟩
    rw [adspRead, if_neg hdirect]
    split_ifs
    all_goals exact ⟨_, rfl⟩

end

/-! ## Runs -/

/-- A stream, and the bytes that have been received in sequence. -/
structure Stream where
  ccb : Ccb
  received : List Byte

inductive Event where
  | packet (ticks : Word) (p : Packet)
  | read (pb : Adspcmd)
  | close

namespace Stream

/-- The stream is open and has nothing yet. -/
structure Started (s : Stream) : Prop where
  state : s.ccb.state = .open
  queue : s.ccb.rbuf = [] ∧ s.ccb.crbuf = none ∧ s.ccb.rData = false
  rpb : s.ccb.rpb = []
  sent : s.ccb.sent = []
  received : s.received = []

/-- The state in which the event looks at the read queue. -/
def before (s : Stream) : Event → Ccb
  | .packet ticks p =>
    { storeData p s.ccb with
      send := checkRecvSeq ((storeData p s.ccb).state == .closing) ticks p.frame (storeData p s.ccb).send }
  | .read pb => { s.ccb with rpb := s.ccb.rpb ++ [pb] }
  | .close => { s.ccb with state := .closed }

/-- Packets come, and the stream is closed, while it is open; reads may come later, but then not for no
bytes. -/
def Step (avail : ℕ → Bool) (s : Stream) (e : Event) (t : Stream) : Prop :=
  match e with
  | .packet ticks p => s.ccb.state = .open ∧ (∃ fuel, rxData avail fuel ticks p s.ccb = some t.ccb) ∧
      t.received = s.received ++ inSequence p s.ccb
  | .read pb => pb.Fresh ∧ (s.ccb.state = .closed → pb.reqCount ≠ 0) ∧
      (∃ fuel, adspRead avail fuel pb s.ccb = some t.ccb) ∧ t.received = s.received
  | .close => s.ccb.state = .open ∧ (∃ fuel, checkReadQueue avail fuel (s.before .close) = some t.ccb) ∧
      t.received = s.received

/-- What a message has is counted, no outstanding read has bytes when the stream is closed, and what a packet
repeats is in its first buffer. -/
structure Fits (avail : ℕ → Bool) (s : Stream) (e : Event) : Prop where
  loop : ∀ n, LoopFits avail n (s.before e)
  close : e = .close → ∀ pb ∈ s.ccb.rpb, pb.actCount = 0
  packet : ∀ ticks p, e = .packet ticks p → p.HeadHolds s.ccb

structure Ok (s : Stream) : Prop where
  idle : s.ccb.Idle
  stream : s.ccb.stream = s.received
  state : s.ccb.state = .open ∨ s.ccb.state = .closed
  closed : s.ccb.state = .closed → s.ccb.attached = []

section
variable {avail : ℕ → Bool} {s s₀ t : Stream} {e : Event} {es : List Event}

theorem Started.ok (h : s.Started) : s.Ok := by
  obtain ⟨hrbuf, hcrbuf, hdata⟩ := h.queue
  refine ⟨⟨⟨?_, ?_, ?_, ?_, ?_, ?_, ?_, ?_⟩, ?_, ?_⟩, ?_, .inl h.state, ?_⟩
  · rw [hrbuf, hcrbuf, hdata]
    exact iff_of_false Bool.false_ne_true (by rintro (hne | hne) <;> exact hne rfl)
  · rw [Ccb.queueBufs, hrbuf, hcrbuf]
    exact fun b hb => nomatch hb
  · rw [h.rpb]
    exact fun q hq => nomatch hq
  · rw [h.rpb]
    exact fun q hq => nomatch hq
  · rw [h.rpb]
    exact fun q hq => nomatch hq
  · rw [h.rpb]
    exact fun q hq => nomatch hq
  · rw [h.rpb]
    exact fun _ _ q hq => nomatch hq
  · rw [h.rpb]
    exact .inl rfl
  · exact fun hne => absurd h.rpb hne
  · rw [h.rpb]
    exact fun q hq => nomatch hq
  · rw [Ccb.stream, Ccb.reported, Ccb.attached, Ccb.queued, h.sent, h.rpb, hrbuf, hcrbuf, h.received]
    rfl
  · rw [Ccb.attached, h.rpb]
    exact fun _ => rfl

theorem Ok.step (h : s.Ok) (hfits : s.Fits avail e) (hstep : s.Step avail e t) : t.Ok := by
  obtain ⟨hloop, hclose, hpacket⟩ := hfits
  cases e with
  | packet ticks p =>
    obtain ⟨hopen, ⟨fuel, hrx⟩, hreceived⟩ := hstep
    obtain ⟨hreads, hstream, hstate⟩ := storeData_reads p h.idle (hpacket ticks p rfl)
    have hreads' : (s.before (.packet ticks p)).Reads :=
      ⟨hreads.ready, hreads.small, hreads.held, hreads.count, hreads.room, hreads.tail, hreads.closed, hreads.alone⟩
    obtain ⟨hidle, hstream', hstate', -⟩ := checkReadQueue_idle hreads' (hloop fuel) hrx
    have hopen' : t.ccb.state = .open := hstate'.trans (hstate.trans hopen)
    refine ⟨hidle, ?_, .inl hopen', fun hclosed => ?_⟩
    · rw [hreceived, ← h.stream, ← hstream]
      exact hstream'
    · rw [hopen'] at hclosed
      cases hclosed
  | read pb =>
    obtain ⟨hfresh, -, ⟨fuel, hread⟩, hreceived⟩ := hstep
    obtain ⟨hidle, hstream, hstate, hclosed⟩ := adspRead_idle h.idle hfresh (hloop fuel) hread
    refine ⟨hidle, ?_, ?_, fun hclosed' => ?_⟩
    · rw [hstream, h.stream, hreceived]
    · rw [hstate]
      exact h.state
    · rw [hstate] at hclosed'
      exact hclosed hclosed' (h.closed hclosed')
  | close =>
    obtain ⟨hopen, ⟨fuel, hcheck⟩, hreceived⟩ := hstep
    have hnone : ∀ pb ∈ s.ccb.rpb, pb.bytes = [] := by
      intro pb hpb
      have hcount := h.idle.count pb hpb
      rw [hclose rfl pb hpb] at hcount
      exact eq_nil_of_length_eq_zero hcount
    have hreads : (s.before .close).Reads :=
      ⟨h.idle.ready, h.idle.small, h.idle.held, h.idle.count, h.idle.room, h.idle.tail, fun _ _ => hnone, h.idle.alone⟩
    obtain ⟨hidle, hstream, hstate, hclosed⟩ := checkReadQueue_idle hreads (hloop fuel) hcheck
    refine ⟨hidle, ?_, .inr hstate, fun _ => ?_⟩
    · rw [hreceived, ← h.stream]
      exact hstream
    · rw [Ccb.attached, hclosed rfl]
      rfl

theorem Ok.run (h : s.Ok) (hrun : RunUnder (Fits avail) (Step avail) s es t) : t.Ok :=
  hrun.invariant (fun _ _ _ h hfits hstep => h.step hfits hstep) h

theorem Ok.drain (h : s.Ok) (hclosed : s.ccb.state = .closed)
    (hrun : RunUnder (Fits avail) (Step avail) s es t) :
    t.ccb.state = .closed ∧ t.received = s.received ∧ t.ccb.left ≤ s.ccb.left - es.length := by
  induction hrun with
  | nil => exact ⟨hclosed, rfl, Nat.le_refl _⟩
  | @snoc t u es e hrun hlast ih =>
    obtain ⟨hclosed', hreceived, hleft⟩ := ih
    obtain ⟨hfits, hstep⟩ := hlast
    have hok := h.run hrun
    cases e with
    | packet ticks p =>
      obtain ⟨hopen, -⟩ := hstep
      rw [hclosed'] at hopen
      cases hopen
    | read pb =>
      obtain ⟨hfresh, hreq, ⟨fuel, hread⟩, hreceived'⟩ := hstep
      obtain ⟨-, -, hstate, -⟩ := adspRead_idle hok.idle hfresh (hfits.loop fuel) hread
      have hless := adspRead_left hok.idle hclosed' hfresh (hreq hclosed') (hfits.loop fuel) hread
      refine ⟨hstate.trans hclosed', hreceived'.trans hreceived, ?_⟩
      rw [length_append, length_singleton]
      omega
    | close =>
      obtain ⟨hopen, -⟩ := hstep
      rw [hclosed'] at hopen
      cases hopen

end

/-! ## Streams of a few bytes -/

/-- An open stream, without data in any queue. -/
def opened : Stream where
  ccb := {
    state := .open
    send := {
      firstRtmtSeq := 0
      sendWdwSeq := 0
      maxSendSeq := 0
      timerSeq := 0
      sendStamp := 0
      sbuf := []
      csbuf := none
      sData := false
      sapb := false
      frpb := false
      sendCtl := 0
      pktSendMax := 1
      pktSendCnt := 0
      roundTrip := 0
      deviation := 0
      rtmtInterval := 0
      waitingAck := false
      resentData := false
      sendDataAck := false
      sendAttnAck := false
      callSend := false
      noXmitFlow := false
      writeFlush := false
      retryTimer := false }
    recvSeq := 0
    badSeqCnt := 0
    rbuf := []
    crbuf := none
    rData := false
    rbuflen := 600
    rbufFull := false
    rpb := []
    sent := []
    allocs := 0 }
  received := []

def oneByte : Packet where
  frame := ⟨0, 0, 0, 0⟩
  header := 0
  mp := ⟨⟨[65], fun _ => 0, 0⟩, []⟩
  header_le := by decide
  bytes_lt := by decide
  below_eq := by decide

/-- Two bytes in a chain, behind a buffer with the header. -/
def chained (seq : Word) : Packet where
  frame := ⟨0, seq, 0, 0⟩
  header := 1
  mp := ⟨⟨[0], fun _ => 0, 0⟩, [⟨[65, 66], fun _ => 0, 0⟩]⟩
  header_le := by decide
  bytes_lt := by decide
  below_eq := by decide

def readOf (reqCount : BitVec 16) : Adspcmd := ⟨reqCount, 0, false, true, 0, []⟩

/-- The stream that a call leaves, if it returns. -/
def after (s : Stream) (ccb : Option Ccb) (received : List Byte) : Stream := ⟨ccb.getD s.ccb, received⟩

/-- The byte comes while no read waits. -/
def queuedByte : Stream := opened.after (rxData (fun _ => true) 1 0 oneByte opened.ccb) [65]

/-- Two more come, and two of the three are read. -/
def queuedMore : Stream := queuedByte.after (rxData (fun _ => true) 1 0 (chained 1) queuedByte.ccb) [65, 65, 66]

def halfRead : Stream := queuedMore.after (adspRead (fun _ => true) 2 (readOf 2) queuedMore.ccb) [65, 65, 66]

def halfClosed : Stream := halfRead.after (checkReadQueue (fun _ => true) 1 (halfRead.before .close)) [65, 65, 66]

/-- The rest is read when the stream is closed. -/
def drained : Stream := halfClosed.after (adspRead (fun _ => true) 2 (readOf 10) halfClosed.ccb) [65, 65, 66]

def drainedTwice : Stream := drained.after (adspRead (fun _ => true) 1 (readOf 10) drained.ccb) [65, 65, 66]

section
variable {avail : ℕ → Bool} {sp : Ccb} {pb : Adspcmd} {s : Stream}

theorem after_ccb {ccb : Option Ccb} {received : List Byte} (h : ccb.isSome = true) :
    ccb = some (s.after ccb received).ccb := by
  obtain ⟨sp, rfl⟩ := isSome_iff_exists.mp h
  rfl

theorem loopFits_stop (h : sp.rData = false ∨ sp.rpb.isEmpty = true) (n : ℕ) : LoopFits avail n sp := by
  cases n with
  | zero => trivial
  | succ n =>
    rcases h with h | h
    · rw [LoopFits, h]
      trivial
    · rw [LoopFits, List.isEmpty_iff.mp h]
      cases sp.rData <;> trivial

theorem loopFits_read (hrpb : s.ccb.rpb.isEmpty = true) (hfits : TurnFits pb (s.before (.read pb)))
    (hend : (readTurn avail pb [] (s.before (.read pb))).rData = false ∨
      (readTurn avail pb [] (s.before (.read pb))).rpb.isEmpty = true) (n : ℕ) :
    LoopFits avail n (s.before (.read pb)) := by
  have hone : (s.before (.read pb)).rpb = [pb] := by
    change s.ccb.rpb ++ [pb] = [pb]
    rw [List.isEmpty_iff.mp hrpb]
    rfl
  cases n with
  | zero => trivial
  | succ n =>
    rw [LoopFits, hone]
    cases (s.before (.read pb)).rData with
    | true => exact ⟨fun _ => hfits, loopFits_stop hend n⟩
    | false => trivial

end

/-- A read waits when the byte comes and gets it, and the stream is closed. -/
def waiting : Stream := opened.after (adspRead (fun _ => true) 1 (readOf 10) opened.ccb) []

def waitingByte : Stream := waiting.after (rxData (fun _ => true) 2 0 oneByte waiting.ccb) [65]

def waitingClosed : Stream := waitingByte.after (checkReadQueue (fun _ => true) 1 (waitingByte.before .close)) [65]

/-- The byte comes again, with another one, in a chain. -/
def repeated : Stream := queuedByte.after (rxData (fun _ => true) 1 0 (chained 0) queuedByte.ccb) [65, 66]

def repeatedRead : Stream := repeated.after (adspRead (fun _ => true) 2 (readOf 2) repeated.ccb) [65, 66]

end Stream

end Darwin.Netat
