import Darwin.Hfs.FileGrowth
import Mathlib.Tactic.Ring

/-! # Where a file is on the volume

`MapFileBlockC` looks for the extent of an offset in the FCB and, when it is not there, in the
extents file. What it should find is said by the list of the blocks of all extents, one extent
behind the other.
-/
namespace Darwin.Hfs.FileExtents
open Darwin.Lib Darwin.Hfs.VolumeAllocation List ExtentRecord

/-! ## The mapping of the source -/

/-- The extent of an offset: its first file block, the block of the volume for that, and the
file block behind the extent. -/
structure FileRange where
  firstFABN : ℕ
  firstBlock : ℕ
  nextFABN : ℕ
  deriving DecidableEq, Repr

/-- The loop of `MapFileBlockFromFCB`; `wrap` is the width of `currentFABN`. -/
def walkExtents (wrap : ℕ → ℕ) (extents : ExtentRecord) : ℕ → ℕ → ℕ → ℕ → Option FileRange
  | 0, _, _, _ => none
  | n + 1, index, offsetBlocks, currentFABN =>
    let blockCount := (extents index).blockCount
    if blockCount = 0 then none
    else if offsetBlocks < blockCount then
      some ⟨currentFABN, (extents index).startBlock, wrap (currentFABN + blockCount)⟩
    else walkExtents wrap extents n (index + 1) (offsetBlocks - blockCount) (wrap (currentFABN + blockCount))

def u16 (x : ℕ) : ℕ := x % 2 ^ 16

/-- `MapFileBlockFromFCB`; `none` is `fxRangeErr`. -/
def File.mapFileBlockFromFCB (f : File) (offset : ℕ) : Option FileRange :=
  let offsetBlocks := offset / f.vcb.blockSize
  if f.isHFSPlus then walkExtents u32 f.fcbExtents 8 0 offsetBlocks 0
  else walkExtents u16 f.fcbExtents 3 0 offsetBlocks 0

/-- The search when the offset is not in the FCB. -/
def mapFromExtentFile (offset : ℕ) : FileM (Option FileRange) := do
  let r ← searchExtentFile offset
  if r.found then
    pure (some ⟨u32Sub r.nextBlock r.place.extent.blockCount, r.place.extent.startBlock, r.nextBlock⟩)
  else pure none

/-- The first sector, and the bytes that are contiguous from there on. -/
structure Mapping where
  startSector : ℕ
  availableBytes : ℕ
  deriving DecidableEq, Repr

def kSectorSize : ℕ := 512

/-- What `MapFileBlockC` returns for the extent of the offset. -/
def File.mapping (f : File) (vcbAlBlSt numberOfBytes offset : ℕ) (r : FileRange) : Mapping :=
  let dataEnd := u32 (r.nextFABN * f.vcb.blockSize)
  let dataEnd := if f.fcbPLen < dataEnd then f.fcbPLen else dataEnd
  let sectorsPerBlock := f.vcb.blockSize / kSectorSize
  let temp := u32Sub offset (u32 (r.firstFABN * f.vcb.blockSize)) / kSectorSize
  let temp := u32 (temp + u32 (r.firstBlock * sectorsPerBlock))
  let startSector := u32 (temp + vcbAlBlSt)
  let temp := u32Sub dataEnd offset
  ⟨startSector, if temp > numberOfBytes then numberOfBytes else temp⟩

/-- `MapFileBlockC`; `none` is `fxRangeErr`. The allocation blocks start at the sector `vcbAlBlSt`. -/
def mapFileBlockC (vcbAlBlSt numberOfBytes offset : ℕ) : FileM (Option Mapping) := do
  let f ← current
  let range ← match f.mapFileBlockFromFCB offset with
    | some range => pure (some range)
    | none => mapFromExtentFile offset
  pure (range.map (f.mapping vcbAlBlSt numberOfBytes offset))

/-! ## The blocks of a file in their order -/

def Extent.blockList (e : Extent) : List ℕ := List.range' e.startBlock e.blockCount

def ExtentRecord.entries (r : ExtentRecord) : List Extent := (List.range 8).map r

/-- All extents of the file; unused entries have no blocks. -/
def File.extents (f : File) : List Extent :=
  entries f.fcbExtents ++ f.overflow.flatMap (fun p => entries p.2)

/-- The block of the volume for each block of the file. -/
def File.blockList (f : File) : List ℕ := f.extents.flatMap Extent.blockList

def blockCount (es : List Extent) : ℕ := (es.map Extent.blockCount).sum

/-- The file block lies in the extent, which begins with the file block `first`. -/
structure Placed (es : List Extent) (block first : ℕ) (e : Extent) : Prop where
  split : ∃ pre post, es = pre ++ e :: post ∧ first = blockCount pre
  from_first : first ≤ block
  before_next : block < first + e.blockCount

@[simp] theorem blockCount_append (es es' : List Extent) :
    blockCount (es ++ es') = blockCount es + blockCount es' := by
  simp [blockCount]

theorem length_blockList (es : List Extent) : (es.flatMap Extent.blockList).length = blockCount es := by
  induction es with
  | nil => rfl
  | cons e es ih =>
    rw [flatMap_cons, length_append, ih, Extent.blockList, length_range']
    rfl

theorem Placed.getElem? {es : List Extent} {block first : ℕ} {e : Extent} (h : Placed es block first e) :
    (es.flatMap Extent.blockList)[block]? = some (e.startBlock + (block - first)) := by
  obtain ⟨⟨pre, post, rfl, rfl⟩, hfrom, hbefore⟩ := h
  have hlength := length_blockList pre
  have he : e.blockList.length = e.blockCount := length_range'
  rw [flatMap_append, List.getElem?_append_right (by omega), flatMap_cons,
    List.getElem?_append_left (by omega), hlength, Extent.blockList, List.getElem?_range' (by omega), Nat.one_mul]

theorem Placed.append {es : List Extent} {block first : ℕ} {e : Extent} (h : Placed es block first e)
    (front back : List Extent) :
    Placed (front ++ es ++ back) (blockCount front + block) (blockCount front + first) e := by
  obtain ⟨⟨pre, post, rfl, rfl⟩, hfrom, hbefore⟩ := h
  refine ⟨⟨front ++ pre, post ++ back, by simp, by simp⟩, by omega, by omega⟩

/-- The file blocks below the entry. -/
def ExtentRecord.before (r : ExtentRecord) (i : ℕ) : ℕ := ∑ k ∈ Finset.range i, (r k).blockCount

theorem ExtentRecord.before_succ (r : ExtentRecord) (i : ℕ) :
    before r (i + 1) = before r i + (r i).blockCount :=
  Finset.sum_range_succ _ _

theorem ExtentRecord.blockCount_map_range (r : ExtentRecord) (i : ℕ) :
    blockCount ((List.range i).map r) = before r i := by
  induction i with
  | zero => rfl
  | succ i ih =>
    rw [range_succ, map_append, blockCount_append, ih, before_succ]
    rfl

theorem ExtentRecord.blockCount_entries (r : ExtentRecord) : blockCount (entries r) = ExtentRecord.blocks r :=
  blockCount_map_range r 8

theorem ExtentRecord.placed {r : ExtentRecord} {i block : ℕ} (hi : i < 8)
    (hfrom : before r i ≤ block) (hbefore : block < before r (i + 1)) :
    Placed (entries r) block (before r i) (r i) := by
  refine ⟨⟨(List.range i).map r, (List.range' (i + 1) (7 - i)).map r, ?_, (blockCount_map_range r i).symm⟩, hfrom, ?_⟩
  · have hrange : ∀ i < 8, List.range 8 = List.range i ++ i :: List.range' (i + 1) (7 - i) := by decide
    rw [entries, hrange i hi, map_append, map_cons]
  · rwa [before_succ] at hbefore

theorem blockCount_overflow (ps : List (ℕ × ExtentRecord)) :
    blockCount (ps.flatMap fun p => entries p.2) = (ps.map fun p => ExtentRecord.blocks p.2).sum := by
  induction ps with
  | nil => rfl
  | cons p ps ih =>
    rw [flatMap_cons, blockCount_append, ih, blockCount_entries, map_cons, sum_cons]

theorem File.length_blockList (f : File) : f.blockList.length = f.blocks := by
  rw [File.blockList, FileExtents.length_blockList, File.extents, blockCount_append, blockCount_entries,
    blockCount_overflow, File.blocks]

/-! ## What the searches find -/

/-- The records of the file give its blocks in their order, and no byte count of it wraps. -/
structure File.Consistent (f : File) : Prop where
  blockSize : 0 < f.vcb.blockSize
  fcb : ∃ used, ExtentRecord.Packed f f.fcbExtents used ∧ (f.overflow ≠ [] → used = f.numExtentsPerRecord)
  chain : Chained f (ExtentRecord.blocks f.fcbExtents) f.overflow
  small : f.isHFSPlus = false → f.blocks < 2 ^ 16
  bytes : f.vcb.blockSize * f.blocks < 2 ^ 32
  length : f.fcbPLen ≤ f.vcb.blockSize * f.blocks

section record
variable {f : File} {r : ExtentRecord} {used : ℕ}

theorem ExtentRecord.Packed.before_used (h : ExtentRecord.Packed f r used) :
    before r used = ExtentRecord.blocks r := by
  rw [← h.sum_eq, before, Finset.range_eq_Ico]

theorem ExtentRecord.Packed.before_le (h : ExtentRecord.Packed f r used) {i : ℕ} (hi : i ≤ used) :
    before r i ≤ ExtentRecord.blocks r := by
  rw [← h.before_used]
  exact Finset.sum_le_sum_of_subset (Finset.range_subset_range.mpr hi)

theorem ExtentRecord.Packed.walkExtents (h : ExtentRecord.Packed f r used) {wrap : ℕ → ℕ}
    (hwrap : ∀ x ≤ ExtentRecord.blocks r, wrap x = x) (block : ℕ) : ∀ (n j : ℕ),
    j + n = f.numExtentsPerRecord → j ≤ used → before r j ≤ block →
    (block < ExtentRecord.blocks r → ∃ i < used,
      FileExtents.walkExtents wrap r n j (block - before r j) (before r j) =
        some ⟨before r i, (r i).startBlock, before r (i + 1)⟩ ∧
      before r i ≤ block ∧ block < before r (i + 1)) ∧
    (ExtentRecord.blocks r ≤ block →
      FileExtents.walkExtents wrap r n j (block - before r j) (before r j) = none)
  | 0, j, hjn, hj, hbefore => by
    have hroom := h.room
    obtain rfl : j = used := by omega
    rw [h.before_used] at hbefore
    exact ⟨fun hlt => absurd hbefore (Nat.not_le.mpr hlt), fun _ => rfl⟩
  | n + 1, j, hjn, hj, hbefore => by
    rcases Nat.eq_or_lt_of_le hj with rfl | hlt
    · rw [h.before_used] at hbefore ⊢
      refine ⟨fun hlt => absurd hbefore (Nat.not_le.mpr hlt), fun _ => ?_⟩
      rw [FileExtents.walkExtents, if_pos (h.empty j (le_refl _))]
    · have hnext := before_succ r j
      have hle := h.before_le (show j + 1 ≤ used from hlt)
      rw [FileExtents.walkExtents, if_neg (h.full j hlt).ne', ← hnext, hwrap _ hle]
      by_cases hhere : block - before r j < (r j).blockCount
      · rw [if_pos hhere]
        exact ⟨fun _ => ⟨j, hlt, rfl, hbefore, by omega⟩, fun hge => absurd hge (by omega)⟩
      · rw [if_neg hhere, Nat.sub_sub, ← hnext]
        exact h.walkExtents hwrap block n (j + 1) (by omega) hlt (by omega)

theorem ExtentRecord.Packed.searchExtents_found (h : ExtentRecord.Packed f r used) {block start : ℕ}
    (hsum : start + ExtentRecord.blocks r < 2 ^ 32) (hblock : block < start + ExtentRecord.blocks r) : ∀ (n j : ℕ),
    j + n = f.numExtentsPerRecord → j ≤ used → start + before r j ≤ block → ∃ i < used,
      FileExtents.searchExtents block r n j (start + before r j) =
        ⟨true, i, start + before r (i + 1)⟩ ∧
      start + before r i ≤ block ∧ block < start + before r (i + 1)
  | 0, j, hjn, hj, hbefore => by
    have hroom := h.room
    obtain rfl : j = used := by omega
    rw [h.before_used] at hbefore
    omega
  | n + 1, j, hjn, hj, hbefore => by
    rcases Nat.eq_or_lt_of_le hj with rfl | hlt
    · rw [h.before_used] at hbefore
      omega
    · have hnext := before_succ r j
      have hle := h.before_le (show j + 1 ≤ used from hlt)
      rw [FileExtents.searchExtents, if_neg (h.full j hlt).ne', u32_eq (by omega), Nat.add_assoc, ← hnext]
      by_cases hhere : block < start + before r (j + 1)
      · rw [if_pos hhere]
        exact ⟨j, hlt, rfl, hbefore, hhere⟩
      · rw [if_neg hhere]
        exact h.searchExtents_found hsum hblock n (j + 1) (by omega) hlt (by omega)

theorem ExtentRecord.Packed.search_found (h : ExtentRecord.Packed f r used) {block start : ℕ}
    (hsum : start + ExtentRecord.blocks r < 2 ^ 32) (hstart : start ≤ block)
    (hblock : block < start + ExtentRecord.blocks r) : ∃ i < used,
      searchExtentRecord f.numExtentsPerRecord block r start = ⟨true, i, start + before r (i + 1), false⟩ ∧
      start + before r i ≤ block ∧ block < start + before r (i + 1) := by
  obtain ⟨i, hi, hsearch, hfrom, hbefore⟩ := h.searchExtents_found hsum hblock f.numExtentsPerRecord 0 (by omega)
    (Nat.zero_le _) hstart
  refine ⟨i, hi, ?_, hfrom, hbefore⟩
  have hzero : start + before r 0 = start := rfl
  rw [hzero] at hsearch
  simp only [searchExtentRecord, hsearch, if_true]

end record

theorem Chained.split {f : File} {block : ℕ} {ps : List (ℕ × ExtentRecord)} : ∀ {n : ℕ}, Chained f n ps → n ≤ block →
    block < n + (ps.map fun p => ExtentRecord.blocks p.2).sum → ∃ front p back, ps = front ++ p :: back ∧
      p.1 = n + (front.map fun p => ExtentRecord.blocks p.2).sum ∧ (∃ used, 0 < used ∧ ExtentRecord.Packed f p.2 used) ∧
      p.1 ≤ block ∧ block < p.1 + ExtentRecord.blocks p.2 ∧ (∀ q ∈ front, q.1 < p.1) ∧ ∀ q ∈ back, block < q.1 := by
  induction ps with
  | nil =>
    intro n _ hn hlt
    rw [map_nil, sum_nil] at hlt
    omega
  | cons p ps ih =>
    rintro n ⟨hp, ⟨used, hpos, hpacked⟩, hrest⟩ hn hlt
    rw [map_cons, sum_cons] at hlt
    by_cases hhere : block < n + ExtentRecord.blocks p.2
    · refine ⟨[], p, ps, rfl, hp, ⟨used, hpos, hpacked⟩, by omega, by omega, fun q hq => absurd hq not_mem_nil, ?_⟩
      intro q hq
      have hq' := (hrest.bounds q hq).1
      omega
    · obtain ⟨front, q, back, rfl, hq, hused, hle, hlt', hfront, hback⟩ := ih hrest (by omega) (by omega)
      have hblocks := hpacked.blocks_pos hpos
      refine ⟨p :: front, q, back, rfl, ?_, hused, hle, hlt', ?_, hback⟩
      · rw [map_cons, sum_cons]
        omega
      · intro q' hq'
        rcases mem_cons.mp hq' with rfl | hq'
        · omega
        · exact hfront q' hq'

section search
variable {s : Io File}

/-- The calls on the extents file that find the record of a block. -/
def File.findCalls (f : File) (block : ℕ) : ℕ := if f.keyBlock block ∈ f.overflow.map Prod.fst then 1 else 2

/-- The calls that find the extent of a block; the FCB is searched first. -/
def File.mapCalls (f : File) (block : ℕ) : ℕ :=
  if block < ExtentRecord.blocks f.fcbExtents then 0 else f.findCalls block

theorem takes_findExtentRecord_of_split {block : ℕ} (hkey : s.st.keyBlock block = block)
    {front back : List (ℕ × ExtentRecord)} {p : ℕ × ExtentRecord} (hsplit : s.st.overflow = front ++ p :: back)
    (hle : p.1 ≤ block) (hfront : ∀ q ∈ front, q.1 < p.1) (hback : ∀ q ∈ back, block < q.1) :
    Takes Eq (findExtentRecord block) s (s.st.findCalls block) (fun r _ => r = some p) := by
  unfold findExtentRecord File.findCalls
  by_cases hp : p.1 = block
  · have hmem : s.st.keyBlock block ∈ s.st.overflow.map Prod.fst := by
      rw [hkey, ← hp, hsplit]
      exact mem_map_of_mem (mem_append_right _ mem_cons_self)
    have hfind : s.st.overflow.find? (fun q => q.1 = s.st.keyBlock block) = some p := by
      rw [hkey, hsplit, List.find?_append, List.find?_eq_none.mpr (fun q hq => ?_), List.find?_cons_of_pos (by simp [hp])]
      · rfl
      · have hlt := hfront q hq
        simp only [decide_eq_true_eq]
        omega
    rw [if_pos hmem]
    change Takes Eq _ _ (1 + 0) _
    apply (Takes.operation (Q := fun _ _ => True) rfl trivial).bind (fun _ _ => Eq.trans)
    rintro _ _ rfl -
    apply Takes.current_bind
    simp only [hfind]
    exact Takes.pure rfl rfl
  · have hne : ∀ q ∈ s.st.overflow, q.1 ≠ block := by
      intro q hq
      rw [hsplit] at hq
      rcases mem_append.mp hq with hq | hq
      · have hlt := hfront q hq
        omega
      · rcases mem_cons.mp hq with rfl | hq
        · exact hp
        · exact (hback q hq).ne'
    have hmem : s.st.keyBlock block ∉ s.st.overflow.map Prod.fst := by
      rw [hkey]
      intro hmem
      obtain ⟨q, hq, hqb⟩ := mem_map.mp hmem
      exact hne q hq hqb
    have hfind : s.st.overflow.find? (fun q => q.1 = s.st.keyBlock block) = none := by
      rw [hkey, List.find?_eq_none]
      intro q hq
      simpa using hne q hq
    have hlast : (s.st.overflow.filter (fun q => q.1 < s.st.keyBlock block)).getLast? = some p := by
      have hnone : back.filter (fun q => q.1 < block) = [] := by
        rw [filter_eq_nil_iff]
        intro q hq
        have hlt := hback q hq
        simp only [decide_eq_true_eq]
        omega
      have hlt : p.1 < block := by omega
      rw [hkey, hsplit, filter_append, filter_cons_of_pos (by simpa using hlt), hnone, List.getLast?_append]
      rfl
    rw [if_neg hmem]
    change Takes Eq _ _ (1 + 1) _
    apply (Takes.operation (Q := fun _ _ => True) rfl trivial).bind (fun _ _ => Eq.trans)
    rintro _ _ rfl -
    apply Takes.current_bind
    simp only [hfind, hlast]
    change Takes Eq _ _ (1 + 0) _
    apply (Takes.operation (Q := fun _ _ => True) rfl trivial).bind (fun _ _ => Eq.trans)
    rintro _ _ rfl -
    exact Takes.pure rfl rfl

/-- The entry of a file block, in the record of the key or in the FCB. -/
structure Found.Holds (x : Found) (f : File) (block nextBlock : ℕ) : Prop where
  index : x.index < f.numExtentsPerRecord
  placed : Placed f.extents block (nextBlock - x.extent.blockCount) x.extent
  next : x.extent.blockCount ≤ nextBlock
  inFcb : x.key = none → x.data = f.fcbExtents ∧ nextBlock = before f.fcbExtents (x.index + 1)
  inTree : ∀ k, x.key = some k → ∃ front back, f.overflow = front ++ (k, x.data) :: back ∧
    nextBlock = k + before x.data (x.index + 1)

theorem File.Consistent.keyBlock_eq {f : File} (hf : f.Consistent) {block : ℕ} (hb : block < f.blocks) :
    f.keyBlock block = block := by
  unfold File.keyBlock
  split_ifs with h
  · rfl
  · exact Nat.mod_eq_of_lt (hb.trans (hf.small (Bool.not_eq_true _ ▸ h)))

theorem File.Consistent.blocks_lt {f : File} (hf : f.Consistent) : f.blocks < 2 ^ 32 :=
  (Nat.le_mul_of_pos_left _ hf.blockSize).trans_lt hf.bytes

theorem takes_searchExtentFile_found (hf : s.st.Consistent) {pos : ℕ} (hpos : pos / s.st.vcb.blockSize < s.st.blocks) :
    Takes Eq (searchExtentFile pos) s (s.st.mapCalls (pos / s.st.vcb.blockSize))
      (fun r _ => r.found = true ∧ r.place.Holds s.st (pos / s.st.vcb.blockSize) r.nextBlock) := by
  obtain ⟨used, hpacked, hfull⟩ := hf.fcb
  have hroom := hpacked.room
  have height := s.st.numExtents_le
  have hlt32 := hf.blocks_lt
  have hle : ExtentRecord.blocks s.st.fcbExtents ≤ s.st.blocks := Nat.le_add_right _ _
  unfold searchExtentFile File.mapCalls
  apply Takes.current_bind
  generalize pos / s.st.vcb.blockSize = block at hpos ⊢
  by_cases hhere : block < ExtentRecord.blocks s.st.fcbExtents
  · have hsum : 0 + ExtentRecord.blocks s.st.fcbExtents < 2 ^ 32 := by omega
    obtain ⟨i, hi, hsearch, hfrom, hbefore⟩ := hpacked.search_found hsum (Nat.zero_le block) (by omega)
    rw [Nat.zero_add] at hsearch hfrom hbefore
    have hnext := before_succ s.st.fcbExtents i
    have hplaced := (placed (show i < 8 by omega) hfrom hbefore).append []
      (s.st.overflow.flatMap (fun p => entries p.2))
    rw [if_pos hhere]
    simp only [hsearch, true_or, if_true]
    refine Takes.pure rfl ⟨rfl, ⟨by dsimp only; omega, ?_, ?_, fun _ => ⟨rfl, rfl⟩, fun k hk => by cases hk⟩⟩
    · simp only [Found.extent, hnext, Nat.add_sub_cancel]
      simpa [blockCount, File.extents] using hplaced
    · simp only [Found.extent]
      omega
  · have hsum : 0 + ExtentRecord.blocks s.st.fcbExtents < 2 ^ 32 := by omega
    have hsearch := (hpacked.search (Nat.zero_le block) hsum).2 (by omega)
    have hne : s.st.overflow ≠ [] := by
      intro h
      rw [File.blocks, h, map_nil, sum_nil, Nat.add_zero] at hpos
      exact hhere hpos
    have hused : ¬ used < s.st.numExtentsPerRecord := by rw [hfull hne]; exact lt_irrefl _
    obtain ⟨front, p, back, hsplit, hp, ⟨used', -, hpacked'⟩, hle', hlt', hfront, hback⟩ :=
      hf.chain.split (by omega) hpos
    have hroom' := hpacked'.room
    have hsum : p.1 + ExtentRecord.blocks p.2 < 2 ^ 32 := by
      have hall := hlt32
      rw [File.blocks, hsplit, map_append, map_cons, sum_append, sum_cons] at hall
      omega
    obtain ⟨i, hi, hsearch', hfrom, hbefore⟩ := hpacked'.search_found hsum hle' hlt'
    have hnext := before_succ p.2 i
    rw [if_neg hhere]
    simp only [hsearch, hused, decide_false, Bool.false_eq_true, or_self, if_false]
    rw [← Nat.add_zero (s.st.findCalls block)]
    apply (takes_findExtentRecord_of_split (hf.keyBlock_eq hpos) hsplit hle' hfront hback).bind (fun _ _ => Eq.trans)
    rintro _ _ rfl rfl
    simp only [hsearch']
    refine Takes.pure rfl ⟨rfl, ⟨by dsimp only; omega, ?_, ?_, fun h => (by cases h), ?_⟩⟩
    · have hentry : Placed (entries p.2) (block - p.1) (before p.2 i) (p.2 i) :=
        placed (by omega) (by omega) (by omega)
      have hplaced := hentry.append (entries s.st.fcbExtents ++ front.flatMap fun q => entries q.2)
        (back.flatMap fun q => entries q.2)
      rw [blockCount_append, blockCount_entries, blockCount_overflow, ← hp,
        Nat.add_sub_cancel' hle'] at hplaced
      simp only [Found.extent, hnext, ← Nat.add_assoc, Nat.add_sub_cancel]
      rw [File.extents, hsplit, flatMap_append, flatMap_cons]
      simpa only [append_assoc] using hplaced
    · simp only [Found.extent]
      omega
    · rintro k hk
      cases hk
      exact ⟨front, back, hsplit, rfl⟩

/-! ## The mapping is right -/

/-- What is returned for an offset: the sector of the block that the list of blocks has there, and
bytes that reach neither behind the extent of the offset nor behind the end of the file. -/
structure Mapping.Right (m : Mapping) (f : File) (vcbAlBlSt numberOfBytes offset : ℕ) : Prop where
  sector : ∃ block, f.blockList[offset / f.vcb.blockSize]? = some block ∧ m.startSector =
    u32 (vcbAlBlSt + block * (f.vcb.blockSize / kSectorSize) + offset % f.vcb.blockSize / kSectorSize)
  inExtent : ∃ first e, Placed f.extents (offset / f.vcb.blockSize) first e ∧
    offset + m.availableBytes ≤ (first + e.blockCount) * f.vcb.blockSize
  inFile : offset + m.availableBytes ≤ f.fcbPLen
  wanted : m.availableBytes ≤ numberOfBytes
  positive : 0 < numberOfBytes → 0 < m.availableBytes

/-- The extent that has been found for an offset. -/
structure FileRange.Finds (r : FileRange) (f : File) (offset : ℕ) : Prop where
  placed : Placed f.extents (offset / f.vcb.blockSize) r.firstFABN ⟨r.firstBlock, r.nextFABN - r.firstFABN⟩
  le : r.firstFABN ≤ r.nextFABN

theorem Placed.cases_cons {es : List Extent} {a e : Extent} {block first : ℕ} (h : Placed (a :: es) block first e) :
    first = 0 ∧ e = a ∧ block < a.blockCount ∨
      a.blockCount ≤ first ∧ a.blockCount ≤ block ∧ Placed es (block - a.blockCount) (first - a.blockCount) e := by
  obtain ⟨⟨pre, post, hes, rfl⟩, hfrom, hbefore⟩ := h
  cases pre with
  | nil =>
    obtain ⟨rfl, rfl⟩ := List.cons.inj hes
    have hnil : blockCount [] = 0 := rfl
    exact Or.inl ⟨hnil, rfl, by omega⟩
  | cons b pre =>
    obtain ⟨rfl, rfl⟩ := List.cons.inj hes
    have hcons : blockCount (a :: pre) = a.blockCount + blockCount pre := by simp [blockCount]
    exact Or.inr ⟨by omega, by omega, ⟨pre, post, rfl, by omega⟩, by omega, by omega⟩

theorem Placed.unique {es : List Extent} {e e' : Extent} : ∀ {block first first' : ℕ}, Placed es block first e →
    Placed es block first' e' → first = first' ∧ e = e' := by
  induction es with
  | nil =>
    rintro block first first' ⟨⟨pre, post, hes, -⟩, -, -⟩
    cases pre <;> cases hes
  | cons a es ih =>
    intro block first first' h h'
    rcases h.cases_cons with ⟨rfl, rfl, hlt⟩ | ⟨hle, hle', hrest⟩
    · rcases h'.cases_cons with ⟨rfl, rfl, -⟩ | ⟨-, hge, -⟩
      · exact ⟨rfl, rfl⟩
      · omega
    · rcases h'.cases_cons with ⟨-, -, hlt⟩ | ⟨hge, -, hrest'⟩
      · omega
      · obtain ⟨hfirst, rfl⟩ := ih hrest hrest'
        exact ⟨by omega, rfl⟩

theorem Placed.next_le {es : List Extent} {block first : ℕ} {e : Extent} (h : Placed es block first e) :
    first + e.blockCount ≤ blockCount es := by
  obtain ⟨⟨pre, post, rfl, rfl⟩, -, -⟩ := h
  have hcons : blockCount (e :: post) = e.blockCount + blockCount post := by simp [blockCount]
  rw [blockCount_append, hcons]
  omega

theorem File.blockCount_extents (f : File) : blockCount f.extents = f.blocks := by
  rw [← FileExtents.length_blockList f.extents]
  exact f.length_blockList

theorem u32_add_u32 (a b c : ℕ) : u32 (u32 (a + u32 b) + c) = u32 (c + b + a) := by
  unfold u32
  omega

theorem sectors_eq {blockSize offset first : ℕ} (hsize : kSectorSize ∣ blockSize) (hpos : 0 < blockSize)
    (hfirst : first ≤ offset / blockSize) : (offset - first * blockSize) / kSectorSize =
      (offset / blockSize - first) * (blockSize / kSectorSize) + offset % blockSize / kSectorSize := by
  obtain ⟨k, rfl⟩ := hsize
  have hk : kSectorSize * k / kSectorSize = k := Nat.mul_div_cancel_left k (by decide)
  obtain ⟨d, hd⟩ := Nat.exists_eq_add_of_le hfirst
  have hoffset : offset = kSectorSize * k * (first + d) + offset % (kSectorSize * k) := by
    rw [← hd]
    exact (Nat.div_add_mod offset (kSectorSize * k)).symm
  have hrest : offset - first * (kSectorSize * k) = offset % (kSectorSize * k) + kSectorSize * (d * k) := by
    have hsplit : kSectorSize * k * (first + d) = first * (kSectorSize * k) + kSectorSize * (d * k) := by ring
    omega
  rw [hk, hd, Nat.add_sub_cancel_left, hrest, Nat.add_mul_div_left _ _ (by decide), Nat.add_comm]

theorem File.Consistent.mapping_right {f : File} (hf : f.Consistent) (hsize : kSectorSize ∣ f.vcb.blockSize)
    {offset : ℕ} (hoffset : offset < f.fcbPLen) {r : FileRange} (hr : r.Finds f offset) (vcbAlBlSt numberOfBytes : ℕ) :
    (f.mapping vcbAlBlSt numberOfBytes offset r).Right f vcbAlBlSt numberOfBytes offset := by
  have hpos := hf.blockSize
  have hfrom := hr.placed.from_first
  have hbefore := hr.placed.before_next
  have hle := hr.le
  have hnext : r.nextFABN ≤ f.blocks := by
    have h := hr.placed.next_le
    rw [f.blockCount_extents] at h
    dsimp only at h
    omega
  have hcount : r.firstFABN + (r.nextFABN - r.firstFABN) = r.nextFABN := by omega
  rw [hcount] at hbefore
  -- no number of bytes wraps
  have hend : r.nextFABN * f.vcb.blockSize < 2 ^ 32 := by
    have h := Nat.mul_le_mul_left f.vcb.blockSize hnext
    rw [Nat.mul_comm] at h
    exact h.trans_lt hf.bytes
  have hstart : r.firstFABN * f.vcb.blockSize ≤ offset :=
    (Nat.mul_le_mul_right _ hfrom).trans (Nat.div_mul_le_self _ _)
  have hbehind : offset < r.nextFABN * f.vcb.blockSize := (Nat.div_lt_iff_lt_mul hpos).mp hbefore
  have hlen := hf.length.trans_lt hf.bytes
  have hend' := u32_eq hend
  have hstart' : u32 (r.firstFABN * f.vcb.blockSize) = r.firstFABN * f.vcb.blockSize := u32_eq (by omega)
  have hsub : u32Sub offset (r.firstFABN * f.vcb.blockSize) = offset - r.firstFABN * f.vcb.blockSize :=
    u32Sub_eq hstart (by omega)
  have hbytes : ∀ dataEnd, offset < dataEnd → dataEnd < 2 ^ 32 → u32Sub dataEnd offset = dataEnd - offset :=
    fun dataEnd h h' => u32Sub_eq h.le h'
  constructor
  · refine ⟨_, hr.placed.getElem?, ?_⟩
    simp only [File.mapping, hstart', hsub, sectors_eq hsize hpos hfrom]
    rw [u32_add_u32, Nat.add_mul]
    congr 1
    omega
  · refine ⟨_, _, hr.placed, ?_⟩
    simp only [File.mapping, hend', hcount]
    split_ifs with h1 h2 h2
    · rw [hbytes _ hoffset hlen] at h2
      omega
    · rw [hbytes _ hoffset hlen] at h2 ⊢
      omega
    · rw [hbytes _ hbehind hend] at h2
      omega
    · rw [hbytes _ hbehind hend]
      omega
  · simp only [File.mapping, hend']
    split_ifs with h1 h2 h2
    · rw [hbytes _ hoffset hlen] at h2
      omega
    · rw [hbytes _ hoffset hlen]
      omega
    · rw [hbytes _ hbehind hend] at h2
      omega
    · rw [hbytes _ hbehind hend]
      omega
  · simp only [File.mapping]
    split_ifs with h1 h2 h2 <;> omega
  · intro hwant
    simp only [File.mapping, hend']
    split_ifs with h1 h2 h2
    · exact hwant
    · rw [hbytes _ hoffset hlen]
      omega
    · exact hwant
    · rw [hbytes _ hbehind hend]
      omega

theorem File.Consistent.mapFileBlockFromFCB {f : File} (hf : f.Consistent) (offset : ℕ) :
    (offset / f.vcb.blockSize < ExtentRecord.blocks f.fcbExtents → ∃ r,
      f.mapFileBlockFromFCB offset = some r ∧ r.Finds f offset) ∧
    (ExtentRecord.blocks f.fcbExtents ≤ offset / f.vcb.blockSize → f.mapFileBlockFromFCB offset = none) := by
  obtain ⟨used, hpacked, hfull⟩ := hf.fcb
  have hroom := hpacked.room
  have height := f.numExtents_le
  have hle : ExtentRecord.blocks f.fcbExtents ≤ f.blocks := Nat.le_add_right _ _
  have hlt32 := hf.blocks_lt
  have hwalk : ∃ wrap : ℕ → ℕ, (∀ x ≤ ExtentRecord.blocks f.fcbExtents, wrap x = x) ∧
      f.mapFileBlockFromFCB offset =
        FileExtents.walkExtents wrap f.fcbExtents f.numExtentsPerRecord 0 (offset / f.vcb.blockSize) 0 := by
    by_cases hplus : f.isHFSPlus = true
    · refine ⟨u32, fun x hx => u32_eq (by omega), ?_⟩
      simp only [File.mapFileBlockFromFCB, File.numExtentsPerRecord, hplus, if_true]
    · have hsmall := hf.small (Bool.not_eq_true _ ▸ hplus)
      refine ⟨u16, fun x hx => Nat.mod_eq_of_lt (by omega), ?_⟩
      simp only [File.mapFileBlockFromFCB, File.numExtentsPerRecord, hplus]
      rfl
  obtain ⟨wrap, hwrap, heq⟩ := hwalk
  obtain ⟨hin, hout⟩ := hpacked.walkExtents hwrap (offset / f.vcb.blockSize) f.numExtentsPerRecord 0
    (by omega) (Nat.zero_le _) (Nat.zero_le _)
  rw [heq]
  refine ⟨fun hlt => ?_, hout⟩
  obtain ⟨i, hi, hfound, hfrom, hbefore⟩ := hin hlt
  have hnext := before_succ f.fcbExtents i
  have hplaced := (placed (show i < 8 by omega) hfrom hbefore).append []
    (f.overflow.flatMap (fun p => entries p.2))
  refine ⟨_, hfound, ⟨?_, by dsimp only; omega⟩⟩
  dsimp only
  rw [hnext, Nat.add_sub_cancel_left]
  simpa [blockCount, File.extents] using hplaced

theorem takes_mapFromExtentFile (hf : s.st.Consistent) {offset : ℕ} (hoffset : offset / s.st.vcb.blockSize < s.st.blocks) :
    Takes Eq (mapFromExtentFile offset) s (s.st.mapCalls (offset / s.st.vcb.blockSize))
      (fun r _ => ∃ range, r = some range ∧ range.Finds s.st offset) := by
  unfold mapFromExtentFile
  rw [← Nat.add_zero (s.st.mapCalls _)]
  apply (takes_searchExtentFile_found hf hoffset).bind (fun _ _ => Eq.trans)
  rintro r _ rfl ⟨hfound, hholds⟩
  have hle := hholds.next
  have hnext := hholds.placed.next_le
  have hlt32 := hf.blocks_lt
  rw [s.st.blockCount_extents] at hnext
  rw [if_pos hfound]
  refine Takes.pure rfl ⟨_, rfl, ?_, ?_⟩
  · rw [u32Sub_eq hle (by omega)]
    dsimp only
    rw [Nat.sub_sub_self hle]
    exact hholds.placed
  · rw [u32Sub_eq hle (by omega)]
    exact Nat.sub_le _ _

theorem FileRange.Finds.unique {r r' : FileRange} {f : File} {offset : ℕ} (h : r.Finds f offset)
    (h' : r'.Finds f offset) : r = r' := by
  obtain ⟨hfirst, he⟩ := h.placed.unique h'.placed
  obtain ⟨hblock, hcount⟩ := Extent.mk.inj he
  have hle := h.le
  have hle' := h'.le
  cases r
  cases r'
  congr 1
  dsimp only at *
  omega

/-- For every offset in the file `MapFileBlockC` returns the sector of its block, with bytes up to
the end of its extent at most, when the calls on the extents file succeed. Where the FCB answers,
the search in the extents file would give the same. -/
theorem mapFileBlockC_right (hf : s.st.Consistent) (hsize : kSectorSize ∣ s.st.vcb.blockSize) {offset : ℕ}
    (hoffset : offset < s.st.fcbPLen) (vcbAlBlSt numberOfBytes : ℕ) :
    Takes Eq (mapFileBlockC vcbAlBlSt numberOfBytes offset) s (s.st.mapCalls (offset / s.st.vcb.blockSize))
      (fun r _ => ∃ m, r = some m ∧ m.Right s.st vcbAlBlSt numberOfBytes offset) ∧
    ∀ range, s.st.mapFileBlockFromFCB offset = some range → (mapFromExtentFile offset).run s = .ok (some range) s := by
  have hblock : offset / s.st.vcb.blockSize < s.st.blocks := by
    rw [Nat.div_lt_iff_lt_mul hf.blockSize, Nat.mul_comm]
    exact hoffset.trans_le hf.length
  have hsearch := takes_mapFromExtentFile hf hblock
  obtain ⟨hin, hout⟩ := hf.mapFileBlockFromFCB offset
  constructor
  · unfold mapFileBlockC
    apply Takes.current_bind
    rcases Nat.lt_or_ge (offset / s.st.vcb.blockSize) (ExtentRecord.blocks s.st.fcbExtents) with hlt | hge
    · obtain ⟨range, hrange, hfinds⟩ := hin hlt
      rw [hrange, File.mapCalls, if_pos hlt]
      exact Takes.pure rfl ⟨_, rfl, hf.mapping_right hsize hoffset hfinds _ _⟩
    · rw [hout hge, ← Nat.add_zero (s.st.mapCalls _)]
      apply hsearch.bind (fun _ _ => Eq.trans)
      rintro _ _ rfl ⟨range, rfl, hfinds⟩
      exact Takes.pure rfl ⟨_, rfl, hf.mapping_right hsize hoffset hfinds _ _⟩
  · intro range hrange
    have hlt : offset / s.st.vcb.blockSize < ExtentRecord.blocks s.st.fcbExtents := by
      by_contra hge
      rw [hout (Nat.not_lt.mp hge)] at hrange
      cases hrange
    obtain ⟨range', hrange', hfinds⟩ := hin hlt
    obtain rfl := Option.some.inj (hrange.symm.trans hrange')
    rw [File.mapCalls, if_pos hlt] at hsearch
    obtain ⟨_, t, hrun, rfl, range', rfl, hfinds'⟩ := hsearch.ok (fun i hi => absurd hi (Nat.not_lt_zero i))
    rw [hrun, hfinds'.unique hfinds]
    rfl

end search

/-- An HFS file of five blocks, two of them in a record of the extents file. -/
def fiveExtents : File :=
  { threeExtents with
    vcb := ⟨512, 512, 32, fun _ => true, fun _ => 0xff400000, 23, 23, 0⟩
    fcbPLen := 2560
    overflow := [(3, fun i => if i < 2 then ⟨2 * i + 7, 1⟩ else ⟨0, 0⟩)] }

theorem fiveExtents_packed {r : ExtentRecord} {n start : ℕ} (hr : ∀ i, r i = if i < n then ⟨2 * i + start, 1⟩ else ⟨0, 0⟩)
    (hn : n ≤ 3) (hstart : start + 2 * n ≤ 32) : ExtentRecord.Packed fiveExtents r n := by
  refine ⟨hn, fun i hi => ?_, fun i hi => ?_, fun i => ?_, fun _ i hi => ?_⟩
  · rw [hr, if_pos hi]
    exact Nat.one_pos
  · rw [hr, if_neg (by omega)]
  · rw [hr]
    split_ifs with h
    · change 2 * i + start + 1 ≤ 32
      omega
    · decide
  · rw [hr, if_neg (by omega)]

theorem fiveExtents_consistent : fiveExtents.Consistent := by
  refine ⟨by decide, ⟨3, fiveExtents_packed (fun _ => rfl) (by decide) (by decide), fun _ => rfl⟩,
    ⟨rfl, ⟨2, by decide, fiveExtents_packed (fun _ => rfl) (by decide) (by decide)⟩, trivial⟩,
    fun _ => by decide, by decide, by decide⟩

/-- The byte 2100 lies in the last block of the record. -/
theorem mapFileBlockC_right_fiveExtents :
    Takes Eq (mapFileBlockC 20 4096 2100) ⟨fun _ => true, 0, fiveExtents⟩ (fiveExtents.mapCalls 4)
      (fun r _ => ∃ m, r = some m ∧ m.Right fiveExtents 20 4096 2100) ∧
    ∀ range, fiveExtents.mapFileBlockFromFCB 2100 = some range →
      (mapFromExtentFile 2100).run ⟨fun _ => true, 0, fiveExtents⟩ = .ok (some range) ⟨fun _ => true, 0, fiveExtents⟩ :=
  @mapFileBlockC_right ⟨fun _ => true, 0, fiveExtents⟩ fiveExtents_consistent (by decide) 2100 (by decide) 20 4096

end Darwin.Hfs.FileExtents
