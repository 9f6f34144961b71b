import Darwin.Netat.Adsp

/-! # Acknowledgements of the send queue

The send queue stands for bytes and the marks at the ends of messages, one sequence number each. An
acknowledgement that cuts a block in two frees its buffers up to the cut, and loses the mark with the
last of them; and what it frees of a block is counted in 16 bits.
-/
namespace Darwin.Netat
open List

inductive Symbol where
  | byte (b : Byte)
  | mark
  deriving DecidableEq, Repr

def Message.symbols (m : Message) : List Symbol := m.bytes.map .byte ++ [.mark]

namespace SendPart

/-- What the queue stands for, from `firstRtmtSeq` on. -/
def symbols (sp : SendPart) : List Symbol :=
  sp.sbuf.flatMap Message.symbols ++ sp.csbuf.toList.flatMap (fun m => m.bytes.map .byte)

def QueueEmpty (sp : SendPart) : Prop := sp.sbuf = [] ∧ sp.csbuf = none

end SendPart

def Message.LastEmpty (m : Message) : Prop := ∀ b ∈ m.bufs.getLast?, b.bytes = []

/-- A cut behind the first `k` symbols of the queue. If it falls into a block then less than 2^15 bytes
of the block are in front of it, and if these are all bytes of a message, in front of its mark, then the
message ends with an empty buffer. -/
def CutHolds (csbuf : Option Message) : List Message → ℕ → Prop
  | [], k => ∀ m ∈ csbuf, k < m.msgsize → k < 2 ^ 15
  | m :: rest, k =>
    if k ≤ m.msgsize then k < 2 ^ 15 ∧ (k = m.msgsize → m.LastEmpty)
    else k = m.msgsize + 1 ∨ CutHolds csbuf rest (k - (m.msgsize + 1))

/-- What an acknowledgement is to do to the queue, whether it is new or not, and to the window. -/
structure AckSettled (closing : Bool) (ticks : Word) (f : AdspFrame) (sp : SendPart) : Prop where
  dropped : GT f.pktNextRecvSeq sp.firstRtmtSeq → LTE f.pktNextRecvSeq sp.maxSendSeq →
    (checkRecvSeq closing ticks f sp).symbols =
      sp.symbols.drop (f.pktNextRecvSeq - sp.firstRtmtSeq).toNat ∧
    (checkRecvSeq closing ticks f sp).firstRtmtSeq = f.pktNextRecvSeq ∧
    ((checkRecvSeq closing ticks f sp).sData = true ↔ ¬ (checkRecvSeq closing ticks f sp).QueueEmpty)
  ignored : LTE f.pktNextRecvSeq sp.firstRtmtSeq ∨ GT f.pktNextRecvSeq sp.maxSendSeq →
    (checkRecvSeq closing ticks f sp).sbuf = sp.sbuf ∧ (checkRecvSeq closing ticks f sp).csbuf = sp.csbuf ∧
    (checkRecvSeq closing ticks f sp).firstRtmtSeq = sp.firstRtmtSeq
  window : GTE (checkRecvSeq closing ticks f sp).sendWdwSeq sp.sendWdwSeq

section
variable {first pkt : Word} {sp : SendPart} {m : Message}

/-! ## Sequence numbers -/

theorem lte_add {n : ℕ} (hn : n < 2 ^ 17) (hk : (pkt - first).toNat < 2 ^ 17) :
    LTE (first + BitVec.ofNat 32 n) pkt ↔ n ≤ (pkt - first).toNat := by
  have hofNat : (BitVec.ofNat 32 n).toNat = n := by
    rw [BitVec.toNat_ofNat]
    exact Nat.mod_eq_of_lt (by omega)
  have hsub : first + BitVec.ofNat 32 n - pkt = BitVec.ofNat 32 n - (pkt - first) := by bv_omega
  rw [LTE, hsub, BitVec.toInt_eq_toNat_cond, BitVec.toNat_sub, hofNat]
  omega

theorem truncate_toInt (hk : (pkt - first).toNat < 2 ^ 16) : ((pkt - first).truncate 16).toInt =
    if (pkt - first).toNat < 2 ^ 15 then ((pkt - first).toNat : ℤ) else (pkt - first).toNat - 2 ^ 16 := by
  rw [BitVec.toInt_eq_toNat_cond, BitVec.truncate_eq_setWidth, BitVec.toNat_setWidth, Nat.mod_eq_of_lt hk]
  split_ifs <;> omega

/-! ## Buffers -/

theorem Message.length_bytes (m : Message) : m.bytes.length = m.msgsize := by
  rw [Message.bytes, length_flatMap, Message.msgsize]

theorem Message.length_symbols (m : Message) : m.symbols.length = m.msgsize + 1 := by
  rw [Message.symbols, length_append, length_map, Message.length_bytes]
  rfl

theorem releaseFrom_lt {n : ℕ} (b : Gbuf) (rest : List Gbuf) (h : n < (Message.mk b rest).msgsize) :
    ∃ left, releaseFrom b rest n = some left ∧ left.bytes = (Message.mk b rest).bytes.drop n := by
  induction rest generalizing b n with
  | nil =>
    have hn : n < b.bytes.length := by simpa [Message.msgsize, Message.bufs] using h
    refine ⟨⟨b.rinc n, []⟩, ?_, ?_⟩
    · rw [releaseFrom, if_pos (by exact_mod_cast hn)]
    · simp [Message.bytes, Message.bufs, Gbuf.rinc]
  | cons b' rest ih =>
    by_cases hn : n < b.bytes.length
    · refine ⟨⟨b.rinc n, b' :: rest⟩, ?_, ?_⟩
      · rw [releaseFrom, if_pos (by exact_mod_cast hn)]
      · simp [Message.bytes, Message.bufs, Gbuf.rinc, drop_append, Nat.sub_eq_zero_of_le hn.le]
    · have hdrop : (Message.mk b (b' :: rest)).bytes.drop n =
          (Message.mk b' rest).bytes.drop (n - b.bytes.length) := by
        simp [Message.bytes, Message.bufs, drop_append, drop_eq_nil_of_le (Nat.not_lt.mp hn)]
      have hcast : (n : ℤ) - b.bytes.length = ((n - b.bytes.length : ℕ) : ℤ) := by omega
      rw [releaseFrom, if_neg (by exact_mod_cast hn), hcast, hdrop]
      by_cases hzero : n - b.bytes.length = 0
      · rw [if_neg (by simpa using hzero), hzero]
        exact ⟨_, rfl, rfl⟩
      · rw [if_pos (by simpa using hzero)]
        refine ih b' ?_
        have hsize : (Message.mk b (b' :: rest)).msgsize = b.bytes.length + (Message.mk b' rest).msgsize := rfl
        omega

theorem Message.lastEmpty_cons {b b' : Gbuf} {rest : List Gbuf} :
    (Message.mk b (b' :: rest)).LastEmpty ↔ (Message.mk b' rest).LastEmpty := by
  rw [Message.LastEmpty, Message.LastEmpty, Message.bufs, Message.bufs, List.getLast?_cons_cons]

theorem Message.lastEmpty_of_nil (h : m.bytes = []) : m.LastEmpty := by
  intro b hb
  exact flatMap_eq_nil_iff.mp h b (mem_of_getLast? hb)

theorem releaseFrom_all {n : ℕ} (b : Gbuf) (rest : List Gbuf) (h : n = (Message.mk b rest).msgsize)
    (hpos : 0 < n) :
    ((Message.mk b rest).LastEmpty → ∃ left, releaseFrom b rest n = some left ∧ left.bytes = []) ∧
      (¬ (Message.mk b rest).LastEmpty → releaseFrom b rest n = none) := by
  induction rest generalizing b n with
  | nil =>
    have hn : n = b.bytes.length := by simpa [Message.msgsize, Message.bufs] using h
    refine ⟨fun hlast => ?_, fun _ => ?_⟩
    · have hb : b.bytes = [] := hlast b rfl
      rw [hn, hb] at hpos
      cases hpos
    · rw [releaseFrom, if_neg (by omega)]
  | cons b' rest ih =>
    have hsize : (Message.mk b (b' :: rest)).msgsize = b.bytes.length + (Message.mk b' rest).msgsize := rfl
    have hcast : (n : ℤ) - b.bytes.length = ((n - b.bytes.length : ℕ) : ℤ) := by omega
    rw [releaseFrom, if_neg (by omega), hcast, Message.lastEmpty_cons]
    by_cases hzero : n - b.bytes.length = 0
    · have hnil : (Message.mk b' rest).bytes = [] := by
        apply eq_nil_of_length_eq_zero
        rw [Message.length_bytes]
        omega
      rw [if_neg (by simpa using hzero)]
      exact ⟨fun _ => ⟨_, rfl, hnil⟩, fun hlast => absurd (Message.lastEmpty_of_nil hnil) hlast⟩
    · rw [if_pos (by simpa using hzero)]
      exact ih b' (by omega) (by omega)

theorem releaseFrom_neg {len : ℤ} (b : Gbuf) (rest : List Gbuf) (h : len < 0) :
    ∃ left, releaseFrom b rest len = some left ∧ (Message.mk b rest).msgsize < left.msgsize := by
  obtain ⟨n, rfl⟩ := Int.eq_negSucc_of_lt_zero h
  refine ⟨⟨b.rinc (.negSucc n), rest⟩, ?_, ?_⟩
  · cases rest with
    | nil => rw [releaseFrom, if_pos (by omega)]
    | cons b' rest => rw [releaseFrom, if_pos (by omega)]
  · simp only [Message.msgsize, Message.bufs, Gbuf.rinc, map_cons, sum_cons, length_append,
      length_map, length_range]
    omega

/-- What is left of a block with the cut in it. -/
inductive Released (m : Message) (k : ℕ) : Option Message → Prop
  | cut {left : Message} (hshort : k < 2 ^ 15) (hlast : k = m.msgsize → m.LastEmpty)
      (hbytes : left.bytes = m.bytes.drop k) : Released m k (some left)
  | lost (hall : k = m.msgsize) (hlast : ¬ m.LastEmpty) : Released m k none
  | grown {left : Message} (hlong : ¬ k < 2 ^ 15) (hsize : m.msgsize < left.msgsize) : Released m k (some left)

theorem releaseData_released (hpos : 0 < (pkt - first).toNat) (hk : (pkt - first).toNat < 2 ^ 16)
    (hle : (pkt - first).toNat ≤ m.msgsize) :
    Released m (pkt - first).toNat (releaseData m ((pkt - first).truncate 16).toInt) := by
  rw [releaseData, truncate_toInt hk]
  by_cases hshort : (pkt - first).toNat < 2 ^ 15
  · rw [if_pos hshort]
    rcases Nat.lt_or_eq_of_le hle with hlt | heq
    · obtain ⟨left, hleft, hbytes⟩ := releaseFrom_lt m.head m.cont hlt
      rw [hleft]
      exact .cut hshort (fun heq => absurd heq hlt.ne) hbytes
    · obtain ⟨hempty, hnone⟩ := releaseFrom_all m.head m.cont heq hpos
      by_cases hlast : m.LastEmpty
      · obtain ⟨left, hleft, hbytes⟩ := hempty hlast
        rw [hleft]
        refine .cut hshort (fun _ => hlast) ?_
        rw [hbytes, drop_eq_nil_of_le]
        rw [Message.length_bytes, heq]
      · rw [hnone hlast]
        exact .lost heq hlast
  · rw [if_neg hshort]
    obtain ⟨left, hleft, hsize⟩ := @releaseFrom_neg ((pkt - first).toNat - 2 ^ 16) m.head m.cont (by omega)
    rw [hleft]
    exact .grown hshort hsize

/-! ## The loop -/

/-- The queue is left without its first `k` symbols. -/
structure Acked (pkt : Word) (k : ℕ) (sp r : SendPart) : Prop where
  symbols : r.symbols = sp.symbols.drop k
  firstRtmtSeq : r.firstRtmtSeq = pkt
  sData : r.sData = true ↔ ¬ r.QueueEmpty

theorem checkOkToClose_frame (sp : SendPart) : (checkOkToClose sp).2.sbuf = sp.sbuf ∧
    (checkOkToClose sp).2.csbuf = sp.csbuf ∧ (checkOkToClose sp).2.firstRtmtSeq = sp.firstRtmtSeq ∧
    (checkOkToClose sp).2.sData = sp.sData ∧ (checkOkToClose sp).2.sendWdwSeq = sp.sendWdwSeq := by
  rw [checkOkToClose]
  split_ifs <;> exact ⟨rfl, rfl, rfl, rfl, rfl⟩

theorem acked_empty {closing : Bool} {r : SendPart} {k : ℕ} (hbuf : r.sbuf = []) (hcsbuf : r.csbuf = none)
    (hdata : r.sData = false) (hfirst : r.firstRtmtSeq = pkt) (hk : sp.symbols.length ≤ k) :
    Acked pkt k sp (if closing then (checkOkToClose r).2 else r) := by
  obtain ⟨hbuf', hcsbuf', hfirst', hdata', -⟩ := checkOkToClose_frame r
  have hsymbols : ∀ q : SendPart, q.sbuf = [] → q.csbuf = none → q.symbols = sp.symbols.drop k := by
    intro q hq hq'
    rw [SendPart.symbols, hq, hq', drop_eq_nil_of_le hk]
    rfl
  cases closing with
  | false => exact ⟨hsymbols _ hbuf hcsbuf, hfirst, iff_of_false (by rw [if_neg (by decide), hdata]; decide)
      (not_not.mpr ⟨hbuf, hcsbuf⟩)⟩
  | true => exact ⟨hsymbols _ (hbuf'.trans hbuf) (hcsbuf'.trans hcsbuf), hfirst'.trans hfirst,
      iff_of_false (by rw [if_pos rfl, hdata', hdata]; decide)
        (not_not.mpr ⟨hbuf'.trans hbuf, hcsbuf'.trans hcsbuf⟩)⟩

theorem add_sub_eq {k : ℕ} (h : k = (pkt - first).toNat) : first + BitVec.ofNat 32 k = pkt := by
  rw [h, BitVec.ofNat_toNat, BitVec.setWidth_eq]
  bv_omega

theorem ackBlock_csbuf {closing : Bool} {k : ℕ} (hbuf : sp.sbuf = []) (hcsbuf : sp.csbuf = some m)
    (hdata : sp.sData = true) (hk : (pkt - sp.firstRtmtSeq).toNat = k) (hpos : 0 < k) (hle : k ≤ m.msgsize)
    (hsize : m.msgsize < 2 ^ 16) :
    (ackBlock closing pkt sp).2 = false ∧
      (CutHolds sp.csbuf [] k → Acked pkt k sp (ackBlock closing pkt sp).1) ∧
      (¬ CutHolds sp.csbuf [] k → (ackBlock closing pkt sp).1.symbols.length + k ≠ sp.symbols.length) := by
  have hsymbols : sp.symbols = m.bytes.map .byte := by
    rw [SendPart.symbols, hbuf, hcsbuf]
    exact append_nil _
  have hlength : sp.symbols.length = m.msgsize := by rw [hsymbols, length_map, Message.length_bytes]
  have hcut : CutHolds sp.csbuf [] k ↔ (k < m.msgsize → k < 2 ^ 15) := by
    rw [CutHolds, hcsbuf]
    exact ⟨fun h => h m rfl, fun h m' hm' => by cases hm'; exact h⟩
  have hlte : LTE (sp.firstRtmtSeq + BitVec.ofNat 32 0 + BitVec.ofNat 32 m.msgsize) pkt ↔ m.msgsize ≤ k := by
    rw [BitVec.add_zero, lte_add (by omega) (by omega), hk]
  rw [hcut]
  simp only [ackBlock, hbuf, hcsbuf]
  by_cases hwhole : m.msgsize ≤ k
  · have hempty : (([] : List Message).isEmpty && (none : Option Message).isNone) = true := rfl
    rw [if_pos (hlte.mpr hwhole), if_pos hempty]
    refine ⟨rfl, fun _ => ?_, fun h => absurd (fun hlt => absurd hlt (by omega)) h⟩
    refine acked_empty rfl rfl rfl (add_sub_eq ?_) (by omega)
    omega
  · have hreleased := @releaseData_released sp.firstRtmtSeq pkt m (by omega) (by omega) (by omega)
    rw [if_neg (fun h => hwhole (hlte.mp h)), if_neg (by decide)]
    rw [hk] at hreleased
    refine ⟨rfl, ?_⟩
    generalize releaseData m ((pkt - sp.firstRtmtSeq).truncate 16).toInt = left at hreleased ⊢
    cases hreleased with
    | cut hshort hlast hbytes =>
      refine ⟨fun _ => ⟨?_, rfl, iff_of_true hdata (fun h => by cases h.2)⟩, fun h => absurd (fun _ => hshort) h⟩
      rw [hsymbols, ← map_drop, ← hbytes]
      exact append_nil _
    | lost hall hlast => omega
    | @grown left hlong hgrown =>
      refine ⟨fun h => absurd (h (by omega)) hlong, fun _ => ?_⟩
      rw [hlength]
      simp only [SendPart.symbols, flatMap_nil, nil_append, Option.toList_some, flatMap_cons,
        append_nil, length_map, Message.length_bytes]
      omega

/-- The queue without its first message. -/
def SendPart.tail (sp : SendPart) (m : Message) (rest : List Message) : SendPart :=
  { sp with sbuf := rest, firstRtmtSeq := sp.firstRtmtSeq + BitVec.ofNat 32 (1 + m.msgsize) }

theorem symbols_cons {rest : List Message} (hbuf : sp.sbuf = m :: rest) :
    sp.symbols = m.symbols ++ (sp.tail m rest).symbols := by
  rw [SendPart.symbols, hbuf, flatMap_cons, append_assoc]
  rfl

theorem ackBlock_whole {closing : Bool} {k : ℕ} {rest : List Message} (hbuf : sp.sbuf = m :: rest)
    (hk : (pkt - sp.firstRtmtSeq).toNat = k) (hwhole : m.msgsize + 1 ≤ k) (hsize : k < 2 ^ 16) :
    ackBlock closing pkt sp =
      if rest.isEmpty && sp.csbuf.isNone then
        (if closing then (checkOkToClose { sp.tail m rest with sData := false, writeFlush := false }).2
          else { sp.tail m rest with sData := false, writeFlush := false }, false)
      else (sp.tail m rest, decide (m.msgsize + 1 < k)) := by
  have hsum : sp.firstRtmtSeq + BitVec.ofNat 32 1 + BitVec.ofNat 32 m.msgsize =
      sp.firstRtmtSeq + BitVec.ofNat 32 (1 + m.msgsize) := by
    rw [BitVec.ofNat_add, BitVec.add_assoc]
  have hlte : LTE (sp.firstRtmtSeq + BitVec.ofNat 32 1 + BitVec.ofNat 32 m.msgsize) pkt := by
    rw [hsum, lte_add (by omega) (by omega)]
    omega
  have hlt : LT (sp.firstRtmtSeq + BitVec.ofNat 32 (1 + m.msgsize)) pkt ↔ m.msgsize + 1 < k := by
    have hofNat : (BitVec.ofNat 32 (1 + m.msgsize)).toNat = 1 + m.msgsize := by
      rw [BitVec.toNat_ofNat]
      exact Nat.mod_eq_of_lt (by omega)
    have hsub : sp.firstRtmtSeq + BitVec.ofNat 32 (1 + m.msgsize) - pkt =
        BitVec.ofNat 32 (1 + m.msgsize) - (pkt - sp.firstRtmtSeq) := by bv_omega
    rw [LT, hsub, BitVec.toInt_eq_toNat_cond, BitVec.toNat_sub, hofNat]
    omega
  simp only [ackBlock, hbuf]
  rw [if_pos hlte]
  simp only [decide_eq_decide.mpr hlt]
  rfl

theorem ackBlock_cut {closing : Bool} {k : ℕ} {rest : List Message} (hbuf : sp.sbuf = m :: rest)
    (hdata : sp.sData = true) (hk : (pkt - sp.firstRtmtSeq).toNat = k) (hpos : 0 < k) (hle : k ≤ m.msgsize)
    (hsize : m.msgsize < 2 ^ 16) :
    (ackBlock closing pkt sp).2 = false ∧
      (CutHolds sp.csbuf sp.sbuf k → Acked pkt k sp (ackBlock closing pkt sp).1) ∧
      (¬ CutHolds sp.csbuf sp.sbuf k → (ackBlock closing pkt sp).1.symbols.length + k ≠ sp.symbols.length) := by
  have hsum : sp.firstRtmtSeq + BitVec.ofNat 32 1 + BitVec.ofNat 32 m.msgsize =
      sp.firstRtmtSeq + BitVec.ofNat 32 (1 + m.msgsize) := by
    rw [BitVec.ofNat_add, BitVec.add_assoc]
  have hlte : ¬ LTE (sp.firstRtmtSeq + BitVec.ofNat 32 1 + BitVec.ofNat 32 m.msgsize) pkt := by
    rw [hsum, lte_add (by omega) (by omega)]
    omega
  have hcut : CutHolds sp.csbuf sp.sbuf k ↔ k < 2 ^ 15 ∧ (k = m.msgsize → m.LastEmpty) := by
    rw [hbuf, CutHolds, if_pos hle]
  have hlength : sp.symbols.length = m.msgsize + 1 + (sp.tail m rest).symbols.length := by
    rw [symbols_cons hbuf, length_append, Message.length_symbols]
  have hleft : ∀ left : Option Message,
      ({ sp with sbuf := left.toList ++ rest, firstRtmtSeq := pkt } : SendPart).symbols =
        left.toList.flatMap Message.symbols ++ (sp.tail m rest).symbols := by
    intro left
    rw [SendPart.symbols, flatMap_append, append_assoc]
    rfl
  have hreleased := @releaseData_released sp.firstRtmtSeq pkt m (by omega) (by omega) (by omega)
  rw [hk] at hreleased
  have hblock : ackBlock closing pkt sp = ({ sp with
      sbuf := (releaseData m ((pkt - sp.firstRtmtSeq).truncate 16).toInt).toList ++ rest
      firstRtmtSeq := pkt }, false) := by
    simp only [ackBlock, hbuf]
    rw [if_neg hlte, if_pos trivial]
  rw [hblock, hcut]
  refine ⟨rfl, ?_⟩
  dsimp only
  generalize releaseData m ((pkt - sp.firstRtmtSeq).truncate 16).toInt = left at hreleased ⊢
  cases hreleased with
  | @cut left hshort hlast hbytes =>
    refine ⟨fun _ => ⟨?_, rfl, iff_of_true hdata (fun h => by cases h.1)⟩, fun h => absurd ⟨hshort, hlast⟩ h⟩
    rw [hleft, symbols_cons hbuf, drop_append_of_le_length (by rw [Message.length_symbols]; omega),
      Option.toList_some, flatMap_cons, flatMap_nil, append_nil, Message.symbols, Message.symbols,
      drop_append_of_le_length (by rw [length_map, Message.length_bytes]; omega), ← map_drop,
      hbytes]
  | lost hall hlast =>
    refine ⟨fun h => absurd (h.2 hall) hlast, fun _ => ?_⟩
    rw [hleft, hlength]
    simp only [Option.toList_none, flatMap_nil, nil_append]
    omega
  | @grown left hlong hgrown =>
    refine ⟨fun h => absurd h.1 hlong, fun _ => ?_⟩
    rw [hleft, hlength]
    simp only [Option.toList_some, flatMap_cons, flatMap_nil, append_nil, length_append,
      Message.length_symbols]
    omega

theorem ackBlocks_acked {closing : Bool} {k : ℕ} (hdata : sp.sData = true)
    (hk : (pkt - sp.firstRtmtSeq).toNat = k) (hpos : 0 < k) (hle : k ≤ sp.symbols.length)
    (hsize : sp.symbols.length < 2 ^ 16) :
    (CutHolds sp.csbuf sp.sbuf k → Acked pkt k sp (ackBlocks closing pkt (sp.sbuf.length + 1) sp)) ∧
      (¬ CutHolds sp.csbuf sp.sbuf k →
        (ackBlocks closing pkt (sp.sbuf.length + 1) sp).symbols.length + k ≠ sp.symbols.length) := by
  induction hbuf : sp.sbuf generalizing sp k with
  | nil =>
    have hsymbols : sp.symbols.length = (sp.csbuf.toList.map Message.msgsize).sum := by
      rw [SendPart.symbols, hbuf, flatMap_nil, nil_append, length_flatMap]
      simp only [length_map, Message.length_bytes]
    cases hcsbuf : sp.csbuf with
    | none =>
      rw [hsymbols, hcsbuf] at hle
      simp only [Option.toList_none, map_nil, sum_nil] at hle
      omega
    | some m =>
      rw [hsymbols, hcsbuf] at hle hsize
      simp only [Option.toList_some, map_cons, map_nil, sum_cons, sum_nil] at hle hsize
      obtain ⟨hagain, hholds, hfails⟩ := @ackBlock_csbuf pkt sp m closing k hbuf hcsbuf hdata hk hpos hle hsize
      rw [← hcsbuf]
      simp only [length_nil, ackBlocks, hagain, Bool.false_eq_true, if_false]
      exact ⟨hholds, hfails⟩
  | cons m rest ih =>
    have hlength : sp.symbols.length = m.msgsize + 1 + (sp.tail m rest).symbols.length := by
      rw [symbols_cons hbuf, length_append, Message.length_symbols]
    by_cases hwhole : m.msgsize + 1 ≤ k
    · have hdrop : (sp.tail m rest).symbols.drop (k - (m.msgsize + 1)) = sp.symbols.drop k := by
        have hnil : m.symbols.drop k = [] := drop_eq_nil_of_le (by rw [Message.length_symbols]; omega)
        rw [symbols_cons hbuf, drop_append, Message.length_symbols, hnil, nil_append]
      rw [ackBlocks, ackBlock_whole hbuf hk hwhole (by omega), CutHolds, if_neg (by omega)]
      cases hempty : rest.isEmpty && sp.csbuf.isNone with
      | true =>
        rw [Bool.and_eq_true, List.isEmpty_iff, Option.isNone_iff_eq_none] at hempty
        have hnil : (sp.tail m rest).symbols = [] := by
          rw [SendPart.symbols]
          change rest.flatMap _ ++ sp.csbuf.toList.flatMap _ = []
          rw [hempty.1, hempty.2]
          rfl
        rw [hnil] at hlength
        have heq : k = m.msgsize + 1 := by
          rw [length_nil] at hlength
          omega
        refine ⟨fun _ => ?_, fun h => absurd (.inl heq) h⟩
        exact acked_empty hempty.1 hempty.2 rfl (add_sub_eq (by omega)) (by rw [hlength, length_nil]; omega)
      | false =>
        have hnonempty : ¬ (sp.tail m rest).QueueEmpty := by
          rintro ⟨hrest, hcsbuf⟩
          change rest = [] at hrest
          change sp.csbuf = none at hcsbuf
          rw [hrest, hcsbuf] at hempty
          cases hempty
        by_cases heq : k = m.msgsize + 1
        · have hstop : ¬ m.msgsize + 1 < k := by omega
          simp only [hstop, decide_false, Bool.false_eq_true, if_false]
          refine ⟨fun _ => ⟨?_, add_sub_eq (by omega), iff_of_true hdata hnonempty⟩, fun h => absurd (.inl heq) h⟩
          rw [← hdrop, heq, Nat.sub_self, drop_zero]
        · have hagain : m.msgsize + 1 < k := by omega
          have hfirst : (pkt - (sp.tail m rest).firstRtmtSeq).toNat = k - (m.msgsize + 1) := by
            have hofNat : (BitVec.ofNat 32 (1 + m.msgsize)).toNat = 1 + m.msgsize := by
              rw [BitVec.toNat_ofNat]
              exact Nat.mod_eq_of_lt (by omega)
            have hsub : pkt - (sp.tail m rest).firstRtmtSeq =
                pkt - sp.firstRtmtSeq - BitVec.ofNat 32 (1 + m.msgsize) := by
              rw [SendPart.tail]
              bv_omega
            rw [hsub, BitVec.toNat_sub, hofNat]
            omega
          obtain ⟨hholds, hfails⟩ := @ih (sp.tail m rest) (k - (m.msgsize + 1)) hdata hfirst (by omega) (by omega)
            (by omega) rfl
          simp only [hagain, decide_true, Bool.false_eq_true, if_false, if_true]
          constructor
          · rintro (h | h)
            · exact absurd h heq
            · obtain ⟨hsymbols, hfirst', hdata'⟩ := hholds h
              exact ⟨hsymbols.trans hdrop, hfirst', hdata'⟩
          · intro h
            have hne := hfails (fun h' => h (.inr h'))
            rw [hlength]
            change (ackBlocks closing pkt (rest.length + 1) (sp.tail m rest)).symbols.length + k ≠ _
            omega
    · obtain ⟨hagain, hholds, hfails⟩ := @ackBlock_cut pkt sp m closing k rest hbuf hdata hk hpos (by omega)
        (by omega)
      rw [← hbuf]
      simp only [ackBlocks, hagain, Bool.false_eq_true, if_false]
      exact ⟨hholds, hfails⟩

/-! ## The packet -/

theorem ackBlock_window (closing : Bool) (pkt : Word) (sp : SendPart) :
    (ackBlock closing pkt sp).1.sendWdwSeq = sp.sendWdwSeq := by
  have hclose := fun sp => (checkOkToClose_frame sp).2.2.2.2
  simp only [ackBlock]
  cases hbuf : sp.sbuf with
  | nil =>
    cases hcsbuf : sp.csbuf with
    | none => rfl
    | some m =>
      dsimp only
      split_ifs
      · exact hclose _
      all_goals rfl
  | cons m rest =>
    dsimp only
    split_ifs
    · exact hclose _
    all_goals rfl

theorem ackBlocks_window (closing : Bool) (pkt : Word) (n : ℕ) (sp : SendPart) :
    (ackBlocks closing pkt n sp).sendWdwSeq = sp.sendWdwSeq := by
  induction n generalizing sp with
  | zero => rfl
  | succ n ih =>
    simp only [ackBlocks]
    split_ifs
    · exact (ih _).trans (ackBlock_window closing pkt sp)
    · exact ackBlock_window closing pkt sp

theorem ackTimer_frame (ticks pkt : Word) (sp : SendPart) : (ackTimer ticks pkt sp).sbuf = sp.sbuf ∧
    (ackTimer ticks pkt sp).csbuf = sp.csbuf ∧ (ackTimer ticks pkt sp).firstRtmtSeq = sp.firstRtmtSeq ∧
    (ackTimer ticks pkt sp).sData = sp.sData ∧ (ackTimer ticks pkt sp).sendWdwSeq = sp.sendWdwSeq := by
  rw [ackTimer]
  dsimp only
  split_ifs <;> exact ⟨rfl, rfl, rfl, rfl, rfl⟩

theorem ackData_window (closing : Bool) (ticks pkt : Word) (sp : SendPart) :
    (ackData closing ticks pkt sp).sendWdwSeq = sp.sendWdwSeq := by
  obtain ⟨-, -, -, -, hwindow⟩ := ackTimer_frame ticks pkt sp
  simp only [ackData]
  split_ifs
  · rfl
  · exact hwindow
  · exact hwindow
  · exact (ackBlocks_window _ _ _ _).trans hwindow
  · exact (ackBlocks_window _ _ _ _).trans hwindow

theorem ackData_ignored (closing : Bool) (ticks : Word)
    (h : LTE pkt sp.firstRtmtSeq ∨ GT pkt sp.maxSendSeq) :
    (ackData closing ticks pkt sp).sbuf = sp.sbuf ∧ (ackData closing ticks pkt sp).csbuf = sp.csbuf ∧
      (ackData closing ticks pkt sp).firstRtmtSeq = sp.firstRtmtSeq := by
  obtain ⟨hbuf, hcsbuf, hfirst, -, -⟩ := ackTimer_frame ticks pkt sp
  by_cases hsent : GT pkt sp.maxSendSeq
  · rw [ackData, if_pos hsent]
    exact ⟨rfl, rfl, rfl⟩
  · have hold : LTE pkt (ackTimer ticks pkt sp).firstRtmtSeq := by
      rw [hfirst]
      exact h.resolve_right hsent
    simp only [ackData]
    rw [if_neg hsent, if_pos hold]
    exact ⟨hbuf, hcsbuf, hfirst⟩

theorem new_bounds (hnew : GT pkt sp.firstRtmtSeq) (hsent : LTE pkt sp.maxSendSeq)
    (hsize : sp.symbols.length < 2 ^ 16)
    (hend : (sp.maxSendSeq - sp.firstRtmtSeq).toNat ≤ sp.symbols.length) :
    0 < (pkt - sp.firstRtmtSeq).toNat ∧ (pkt - sp.firstRtmtSeq).toNat ≤ sp.symbols.length := by
  have hsub : pkt - sp.maxSendSeq = pkt - sp.firstRtmtSeq - (sp.maxSendSeq - sp.firstRtmtSeq) := by bv_omega
  rw [GT, BitVec.toInt_eq_toNat_cond] at hnew
  rw [LTE, hsub, BitVec.toInt_eq_toNat_cond, BitVec.toNat_sub] at hsent
  omega

theorem not_lte_of_gt {x y : Word} (h : GT x y) : ¬ LTE x y := not_le.mpr h

theorem ackData_new (closing : Bool) (ticks : Word) (hnew : GT pkt sp.firstRtmtSeq)
    (hsent : LTE pkt sp.maxSendSeq) (hsize : sp.symbols.length < 2 ^ 16)
    (hend : (sp.maxSendSeq - sp.firstRtmtSeq).toNat ≤ sp.symbols.length)
    (hdata : sp.sData = true ↔ ¬ sp.QueueEmpty) :
    (CutHolds sp.csbuf sp.sbuf (pkt - sp.firstRtmtSeq).toNat →
      Acked pkt (pkt - sp.firstRtmtSeq).toNat sp (ackData closing ticks pkt sp)) ∧
    (¬ CutHolds sp.csbuf sp.sbuf (pkt - sp.firstRtmtSeq).toNat →
      (ackData closing ticks pkt sp).symbols.length + (pkt - sp.firstRtmtSeq).toNat ≠ sp.symbols.length) := by
  obtain ⟨hpos, hle⟩ := new_bounds hnew hsent hsize hend
  obtain ⟨hbuf, hcsbuf, hfirst, hdata', -⟩ := ackTimer_frame ticks pkt sp
  have hsymbols : (ackTimer ticks pkt sp).symbols = sp.symbols := by
    rw [SendPart.symbols, hbuf, hcsbuf]
    rfl
  have hsome : sp.sData = true := by
    refine hdata.mpr ?_
    rintro ⟨hnil, hnone⟩
    rw [SendPart.symbols, hnil, hnone] at hle
    exact absurd (Nat.lt_of_lt_of_le hpos hle) (Nat.lt_irrefl 0)
  have hstate : ackData closing ticks pkt sp =
      (if (ackBlocks closing pkt ((ackTimer ticks pkt sp).sbuf.length + 1) (ackTimer ticks pkt sp)).sData = true then
        { ackBlocks closing pkt ((ackTimer ticks pkt sp).sbuf.length + 1) (ackTimer ticks pkt sp) with callSend := true }
      else ackBlocks closing pkt ((ackTimer ticks pkt sp).sbuf.length + 1) (ackTimer ticks pkt sp)) := by
    have hnot : ¬ GT pkt sp.maxSendSeq := not_lt.mpr hsent
    simp only [ackData]
    rw [if_neg hnot, hfirst, if_neg (not_lte_of_gt hnew), hdata', hsome]
    rfl
  obtain ⟨hholds, hfails⟩ := @ackBlocks_acked pkt (ackTimer ticks pkt sp) closing (pkt - sp.firstRtmtSeq).toNat
    (hdata'.trans hsome) (by rw [hfirst]) hpos (by rw [hsymbols]; exact hle) (by rw [hsymbols]; exact hsize)
  rw [hcsbuf, hsymbols] at hfails
  rw [hcsbuf] at hholds
  rw [hstate, ← hbuf]
  generalize ackBlocks closing pkt ((ackTimer ticks pkt sp).sbuf.length + 1) (ackTimer ticks pkt sp) = r at hholds hfails
  constructor
  · intro h
    obtain ⟨hdrop, hpkt, hqueue⟩ := hholds h
    rw [hsymbols] at hdrop
    split_ifs
    · exact ⟨hdrop, hpkt, hqueue⟩
    · exact ⟨hdrop, hpkt, hqueue⟩
  · intro h
    split_ifs
    · exact hfails h
    · exact hfails h

theorem checkRecvSeq_queue (closing : Bool) (ticks : Word) (f : AdspFrame) (sp : SendPart) :
    ∃ sp' callSend sendDataAck, sp' = { sp with callSend := callSend, sendDataAck := sendDataAck } ∧
      (checkRecvSeq closing ticks f sp).sbuf = (ackData closing ticks f.pktNextRecvSeq sp').sbuf ∧
      (checkRecvSeq closing ticks f sp).csbuf = (ackData closing ticks f.pktNextRecvSeq sp').csbuf ∧
      (checkRecvSeq closing ticks f sp).firstRtmtSeq = (ackData closing ticks f.pktNextRecvSeq sp').firstRtmtSeq ∧
      (checkRecvSeq closing ticks f sp).sData = (ackData closing ticks f.pktNextRecvSeq sp').sData ∧
      GTE (checkRecvSeq closing ticks f sp).sendWdwSeq sp.sendWdwSeq := by
  have hself : ∀ x : Word, GTE x x := by
    intro x
    rw [GTE, BitVec.sub_self]
    decide
  simp only [checkRecvSeq]
  by_cases hack : f.descriptor &&& adspAckReqBit ≠ 0
  · rw [if_pos hack]
    refine ⟨_, true, true, rfl, ?_⟩
    split_ifs with hgt
    · rw [ackData_window] at hgt
      exact ⟨rfl, rfl, rfl, rfl, le_of_lt hgt⟩
    · exact ⟨rfl, rfl, rfl, rfl, by rw [ackData_window]; exact hself _⟩
  · rw [if_neg hack]
    refine ⟨_, sp.callSend, sp.sendDataAck, rfl, ?_⟩
    split_ifs with hgt
    · rw [ackData_window] at hgt
      exact ⟨rfl, rfl, rfl, rfl, le_of_lt hgt⟩
    · exact ⟨rfl, rfl, rfl, rfl, by rw [ackData_window]; exact hself _⟩

/-- An acknowledgement does what it is to do just when its cut through the queue holds. -/
theorem checkRecvSeq_settled_iff (closing : Bool) (ticks : Word) (f : AdspFrame) (sp : SendPart)
    (hsize : sp.symbols.length < 2 ^ 16) (hend : (sp.maxSendSeq - sp.firstRtmtSeq).toNat ≤ sp.symbols.length)
    (hdata : sp.sData = true ↔ ¬ sp.QueueEmpty) :
    AckSettled closing ticks f sp ↔
      (GT f.pktNextRecvSeq sp.firstRtmtSeq → LTE f.pktNextRecvSeq sp.maxSendSeq →
        CutHolds sp.csbuf sp.sbuf (f.pktNextRecvSeq - sp.firstRtmtSeq).toNat) := by
  obtain ⟨sp', _, _, hsp', hbuf, hcsbuf, hfirst, hdata', hwindow⟩ := checkRecvSeq_queue closing ticks f sp
  have hsymbols : (checkRecvSeq closing ticks f sp).symbols =
      (ackData closing ticks f.pktNextRecvSeq sp').symbols := by
    rw [SendPart.symbols, hbuf, hcsbuf]
    rfl
  have hempty : (checkRecvSeq closing ticks f sp).QueueEmpty ↔
      (ackData closing ticks f.pktNextRecvSeq sp').QueueEmpty := by
    rw [SendPart.QueueEmpty, hbuf, hcsbuf]
    rfl
  constructor
  · intro hsettled hnew hsent
    obtain ⟨hpos, hle⟩ := new_bounds hnew hsent hsize hend
    by_contra hcut
    obtain ⟨-, hfails⟩ := @ackData_new f.pktNextRecvSeq sp' closing ticks (by rw [hsp']; exact hnew)
      (by rw [hsp']; exact hsent) (by rw [hsp']; exact hsize) (by rw [hsp']; exact hend) (by rw [hsp']; exact hdata)
    have hne := hfails (by rw [hsp']; exact hcut)
    obtain ⟨hdrop, -, -⟩ := hsettled.dropped hnew hsent
    rw [hsymbols] at hdrop
    rw [hdrop, length_drop, hsp'] at hne
    change sp.symbols.length - (f.pktNextRecvSeq - sp.firstRtmtSeq).toNat +
      (f.pktNextRecvSeq - sp.firstRtmtSeq).toNat ≠ sp.symbols.length at hne
    omega
  · intro hcut
    refine ⟨fun hnew hsent => ?_, fun hold => ?_, hwindow⟩
    · obtain ⟨hholds, -⟩ := @ackData_new f.pktNextRecvSeq sp' closing ticks (by rw [hsp']; exact hnew)
        (by rw [hsp']; exact hsent) (by rw [hsp']; exact hsize) (by rw [hsp']; exact hend) (by rw [hsp']; exact hdata)
      obtain ⟨hdrop, hpkt, hqueue⟩ := hholds (by rw [hsp']; exact hcut hnew hsent)
      rw [hsymbols, hfirst, hdata', hempty]
      refine ⟨?_, hpkt, hqueue⟩
      rw [hdrop, hsp']
      rfl
    · obtain ⟨hbuf', hcsbuf', hfirst'⟩ := @ackData_ignored f.pktNextRecvSeq sp' closing ticks
        (by rw [hsp']; exact hold)
      rw [hbuf, hcsbuf, hfirst, hbuf', hcsbuf', hfirst', hsp']
      exact ⟨rfl, rfl, rfl⟩

end

/-- A stream that has sent one byte, and the mark of its message, and nothing before. -/
def oneByteSent : SendPart where
  firstRtmtSeq := 0
  sendWdwSeq := 10
  maxSendSeq := 2
  timerSeq := 0
  sendStamp := 0
  sbuf := [⟨⟨[65], fun _ => 0, 0⟩, []⟩]
  csbuf := none
  sData := true
  sapb := false
  frpb := false
  sendCtl := 0
  pktSendMax := 5
  pktSendCnt := 1
  roundTrip := 12
  deviation := 0
  rtmtInterval := 12
  waitingAck := false
  resentData := false
  sendDataAck := false
  sendAttnAck := false
  callSend := false
  noXmitFlow := false
  writeFlush := false
  retryTimer := false

/-- Two messages, of one byte and of two. -/
def twoMessagesSent : SendPart :=
  { oneByteSent with
    maxSendSeq := 5, sbuf := [⟨⟨[65], fun _ => 0, 0⟩, []⟩, ⟨⟨[66, 67], fun _ => 0, 0⟩, []⟩] }

/-- The first message and one byte of the second are acknowledged. -/
theorem checkRecvSeq_settled_iff_twoMessages :
    (checkRecvSeq false 0 ⟨0, 0, 3, 10⟩ twoMessagesSent).symbols = [.byte 67, .mark] ∧
    (AckSettled false 0 ⟨0, 0, 3, 10⟩ twoMessagesSent ↔
      (GT 3 twoMessagesSent.firstRtmtSeq → LTE 3 twoMessagesSent.maxSendSeq →
        CutHolds twoMessagesSent.csbuf twoMessagesSent.sbuf (3 - twoMessagesSent.firstRtmtSeq).toNat)) :=
  ⟨rfl, checkRecvSeq_settled_iff false 0 ⟨0, 0, 3, 10⟩ twoMessagesSent (by decide) (by decide)
    (iff_of_true rfl (fun h => by cases h.1))⟩

/-- The byte alone is acknowledged: the mark is gone too, and the stream still says that it has data. -/
theorem oneByte_mark_lost : (checkRecvSeq false 0 ⟨0, 0, 1, 10⟩ oneByteSent).QueueEmpty ∧
    (checkRecvSeq false 0 ⟨0, 0, 1, 10⟩ oneByteSent).sData = true ∧
    ¬ AckSettled false 0 ⟨0, 0, 1, 10⟩ oneByteSent := by
  refine ⟨⟨rfl, rfl⟩, rfl, fun hsettled => ?_⟩
  obtain ⟨hsymbols, -, -⟩ := hsettled.dropped (by decide) (by decide)
  have hlost : (checkRecvSeq false 0 ⟨0, 0, 1, 10⟩ oneByteSent).symbols = [] := rfl
  have hmark : oneByteSent.symbols.drop (1 - oneByteSent.firstRtmtSeq).toNat = [.mark] := rfl
  exact absurd (hlost.symm.trans (hsymbols.trans hmark)) (by decide)

end Darwin.Netat
