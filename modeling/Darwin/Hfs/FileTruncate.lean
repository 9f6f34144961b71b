import Darwin.Hfs.FileMapping
import Darwin.Hfs.VolumeRelease

/-! # Truncating a file

`TruncateFileC` keeps the extents up to the new end and gives back the blocks behind it: first
the rest of the record in which the end lies, then the records of the extents file behind that
one. With `truncateToExtent` the extent in which the end lies is kept as a whole.
-/
namespace Darwin.Hfs.FileExtents
open Darwin.Lib Darwin.Hfs.VolumeAllocation Function List ExtentRecord

/-! ## The source -/

/-- `BlockDeallocate` on the volume of the file. -/
def deallocate (startBlock numBlocks : ℕ) : FileM Unit := do
  let f ← current
  let r := blockDeallocate f.vcb startBlock numBlocks
  IoM.update (fun f => { f with vcb := r.2 })
  if r.1 = .noErr then pure () else throw .ioErr

/-- What `ReleaseExtents` reports. -/
structure Released where
  numReleasedAllocationBlocks : ℕ
  releasedLastExtent : Bool
  deriving DecidableEq, Repr

/-- The loop of `ReleaseExtents`, with the extents that are left as fuel. -/
def releaseExtentsFrom (extentRecord : ExtentRecord) : ℕ → ℕ → ℕ → FileM Released
  | 0, _, numReleased => pure ⟨numReleased, false⟩
  | n + 1, extentIndex, numReleased =>
    let numAllocationBlocks := (extentRecord extentIndex).blockCount
    if numAllocationBlocks = 0 then pure ⟨numReleased, true⟩
    else do
      deallocate (extentRecord extentIndex).startBlock numAllocationBlocks
      releaseExtentsFrom extentRecord n (extentIndex + 1) (u32 (numReleased + numAllocationBlocks))

def releaseExtents (extentRecord : ExtentRecord) : FileM Released := do
  let f ← current
  releaseExtentsFrom extentRecord f.numExtentsPerRecord 0 0

/-- `FindExtentRecord` without `allowPrevious`; `none` is `btNotFound`. -/
def findExactRecord (startBlock : ℕ) : FileM (Option (ℕ × ExtentRecord)) := do
  -- `BTSearchRecord`
  operation .btreeErr
  let f ← current
  pure (f.overflow.find? (fun p => p.1 = f.keyBlock startBlock))

/-- `DeleteExtentRecord`: `BTDeleteRecord` for the key. -/
def deleteExtentRecord (startBlock : ℕ) : FileM Unit := do
  operation .btreeErr
  let f ← current
  if f.overflow.any (fun p => p.1 = f.keyBlock startBlock) then
    IoM.update (fun f => { f with overflow := f.overflow.filter (fun p => p.1 ≠ f.keyBlock startBlock) })
  else throw .btreeErr

/-- The loop of `TruncateExtents`. Every turn but the last one deletes a record, so that the
number of turns is bounded. -/
def truncateExtentsLoop : ℕ → ℕ → FileM Unit
  | 0, _ => throw .notEnding
  | n + 1, startBlock => do
    let found ← findExactRecord startBlock
    match found with
    | none => pure ()
    | some p =>
      let r ← releaseExtents p.2
      deleteExtentRecord startBlock
      truncateExtentsLoop n (u32 (startBlock + r.numReleasedAllocationBlocks))

def truncateExtents (startBlock : ℕ) : FileM Unit := do
  let f ← current
  truncateExtentsLoop (f.overflow.length + 1) startBlock

def deallocateFork (catalogExtents : ExtentRecord) : FileM Unit := do
  let r ← releaseExtents catalogExtents
  if r.releasedLastExtent then pure () else truncateExtents r.numReleasedAllocationBlocks

/-- The extent record while its end is cut off, and the next file block to free. -/
structure Cut where
  extentRecord : ExtentRecord
  extentChanged : Bool
  nextBlock : ℕ

/-- The blocks of the last extent behind the new end are freed. -/
def shortenExtent (place : Found) (extentNextBlock nextBlock : ℕ) : FileM Cut :=
  let numBlocks := u32Sub extentNextBlock nextBlock
  if numBlocks ≠ 0 then do
    let startBlock := u32Sub (u32 (place.extent.startBlock + place.extent.blockCount)) numBlocks
    deallocate startBlock numBlocks
    let blockCount := u32Sub place.extent.blockCount numBlocks
    let extent : Extent := ⟨if blockCount = 0 then 0 else place.extent.startBlock, blockCount⟩
    pure ⟨update place.data place.index extent, true, extentNextBlock⟩
  else pure ⟨place.data, false, extentNextBlock⟩

/-- The loop that releases the extents behind the last one, with the extents left as fuel. -/
def releaseFollowing : ℕ → ℕ → Cut → FileM Cut
  | 0, _, cut => pure cut
  | n + 1, extentIndex, cut =>
    let extent := cut.extentRecord extentIndex
    if extent.blockCount ≠ 0 then do
      deallocate extent.startBlock extent.blockCount
      releaseFollowing n (extentIndex + 1)
        ⟨update cut.extentRecord extentIndex ⟨0, 0⟩, true, u32 (cut.nextBlock + extent.blockCount)⟩
    else pure cut

/-- The record at the new end; with `truncateToExtent` its last extent is kept as a whole. -/
def keepExtent (place : Found) (extentNextBlock nextBlock : ℕ) (truncateToExtent : Bool) : FileM Cut :=
  if truncateToExtent then pure ⟨place.data, false, extentNextBlock⟩
  else shortenExtent place extentNextBlock nextBlock

/-- The record is updated if an extent was changed. -/
def writeCut (key : Option ℕ) (cut : Cut) : FileM Unit :=
  if cut.extentChanged then updateExtentRecord key cut.extentRecord else pure ()

/-- The body of `TruncateFileC` for a new end of `peof` bytes behind the first `nextBlock` blocks. -/
def truncateBehind (peof nextBlock physNumBlocks : ℕ) (truncateToExtent : Bool) : FileM Unit := do
  let r ← searchExtentFile (u32Sub peof 1)
  if r.found = false then throw .fxRangeErr
  else
    let cut ← keepExtent r.place r.nextBlock nextBlock truncateToExtent
    let f ← current
    let cut ← releaseFollowing (f.numExtentsPerRecord - (r.place.index + 1)) (r.place.index + 1) cut
    writeCut r.place.key cut
    if cut.nextBlock < physNumBlocks then truncateExtents cut.nextBlock else pure ()

/-- The new end when nothing is left: all extents are released and the record in the FCB is zeroed. -/
def truncateAll : FileM Unit := do
  let f ← current
  let extentRecord := f.fcbExtents
  deallocateFork extentRecord
  let zeroed : ExtentRecord := fun i => if i < f.numExtentsPerRecord then ⟨0, 0⟩ else extentRecord i
  IoM.update (fun f => { f with fcbExtents := f.stored zeroed })

/-- `TruncateFileC`. -/
def truncateFileC (peof : ℕ) (truncateToExtent : Bool) : FileM Unit := do
  let f ← current
  let physNumBlocks := f.fcbPLen / f.vcb.blockSize
  let nextBlock := divideAndRoundUp peof f.vcb.blockSize
  let peof := u32 (nextBlock * f.vcb.blockSize)
  if peof ≥ 2 ^ 31 then throw .fileBoundsErr
  else
    IoM.update (fun f => { f with fcbPLen := peof })
    if peof = 0 then truncateAll
    else truncateBehind peof nextBlock physNumBlocks truncateToExtent

/-! ## The blocks of a record -/

namespace ExtentRecord

def blockList (r : ExtentRecord) : List ℕ := (entries r).flatMap Extent.blockList

/-- The blocks of the entries below the entry. -/
def upTo (r : ExtentRecord) (i : ℕ) : List ℕ := ((List.range i).map r).flatMap Extent.blockList

/-- The blocks from the entry on. -/
def onward (r : ExtentRecord) (i : ℕ) : List ℕ := ((List.range' i (8 - i)).map r).flatMap Extent.blockList

theorem length_blockList (r : ExtentRecord) : (blockList r).length = blocks r :=
  (FileExtents.length_blockList _).trans (blockCount_entries r)

theorem onward_succ (r : ExtentRecord) {i : ℕ} (hi : i < 8) : onward r i = (r i).blockList ++ onward r (i + 1) := by
  have hrange : 8 - i = (8 - (i + 1)) + 1 := by omega
  rw [onward, hrange, List.range'_succ, map_cons, flatMap_cons]
  rfl

theorem onward_eq_nil {r : ExtentRecord} {i : ℕ} (h : ∀ j, i ≤ j → (r j).blockCount = 0) : onward r i = [] := by
  rw [onward, flatMap_eq_nil_iff]
  intro e he
  obtain ⟨j, hj, rfl⟩ := mem_map.mp he
  rw [Extent.blockList, h j (mem_range'_1.mp hj).1]
  rfl

theorem onward_zero (r : ExtentRecord) : onward r 0 = blockList r := by
  rw [onward, blockList, entries, range_eq_range']

theorem upTo_append_onward (r : ExtentRecord) : ∀ {i : ℕ}, i ≤ 8 → upTo r i ++ onward r i = blockList r
  | 0, _ => onward_zero r
  | i + 1, hi => by
    rw [← upTo_append_onward r (show i ≤ 8 by omega), onward_succ r hi, upTo, upTo, range_succ, map_append,
      flatMap_append, append_assoc]
    simp

theorem upTo_congr {r r' : ExtentRecord} {i : ℕ} (h : ∀ j < i, r' j = r j) : upTo r' i = upTo r i := by
  rw [upTo, upTo, map_congr_left]
  intro j hj
  exact h j (mem_range.mp hj)

theorem length_upTo (r : ExtentRecord) (i : ℕ) : (upTo r i).length = before r i :=
  (FileExtents.length_blockList _).trans (blockCount_map_range r i)

/-- The record `r'` has the blocks of `r` below the entry `i` and the first `c` of that entry. -/
structure CutAt (r r' : ExtentRecord) (i c : ℕ) : Prop where
  below : ∀ j < i, r' j = r j
  here : r' i = ⟨(r i).startBlock, c⟩
  above : ∀ j, i < j → (r' j).blockCount = 0 ∧ (r' j = r j ∨ r' j = ⟨0, 0⟩)

section cut
variable {f : File} {r r' : ExtentRecord} {i c : ℕ}

theorem CutAt.packed (h : CutAt r r' i c) {used : ℕ} (hr : Packed f r used) (hi : i < used) (hpos : 0 < c)
    (hc : c ≤ (r i).blockCount) : Packed f r' (i + 1) := by
  have hroom := hr.room
  refine ⟨by omega, fun j hj => ?_, fun j hj => (h.above j hj).1, fun j => ?_, fun hplus j hj => ?_⟩
  · rcases Nat.lt_succ_iff_lt_or_eq.mp hj with hlt | rfl
    · rw [h.below j hlt]
      exact hr.full j (hlt.trans hi)
    · rw [h.here]
      exact hpos
  · have hin := hr.inside j
    rcases Nat.lt_trichotomy j i with hlt | rfl | hgt
    · rwa [h.below j hlt]
    · rw [h.here]
      dsimp only
      omega
    · rcases (h.above j hgt).2 with heq | heq
      · rwa [heq]
      · rw [heq]
        exact Nat.zero_le _
  · have hthree : f.numExtentsPerRecord = 3 := by
      unfold File.numExtentsPerRecord
      rw [hplus]
      rfl
    rcases (h.above j (by omega)).2 with heq | heq
    · rw [heq]
      exact hr.small hplus j hj
    · exact heq

theorem CutAt.blockList_eq (h : CutAt r r' i c) (hi : i < 8) :
    blockList r' = upTo r i ++ List.range' (r i).startBlock c := by
  rw [← upTo_append_onward r' hi.le, upTo_congr h.below, onward_succ r' hi, onward_eq_nil (fun j hj => (h.above j hj).1),
    append_nil, Extent.blockList, h.here]

theorem CutAt.append_eq (h : CutAt r r' i c) (hi : i < 8) (hc : c ≤ (r i).blockCount) :
    blockList r = blockList r' ++
      (List.range' ((r i).startBlock + c) ((r i).blockCount - c) ++ onward r (i + 1)) := by
  have hsplit : (r i).blockList =
      List.range' (r i).startBlock c ++ List.range' ((r i).startBlock + c) ((r i).blockCount - c) := by
    rw [Extent.blockList, List.range'_append_1, Nat.add_sub_of_le hc]
  rw [h.blockList_eq hi, ← upTo_append_onward r hi.le, onward_succ r hi, hsplit]
  simp only [append_assoc]

end cut

end ExtentRecord

theorem File.blockList_eq (f : File) :
    f.blockList = ExtentRecord.blockList f.fcbExtents ++
      f.overflow.flatMap (fun p => ExtentRecord.blockList p.2) := by
  rw [File.blockList, File.extents, flatMap_append, flatMap_assoc]
  rfl

/-! ## The single calls -/

/-- An error of the source, not of a loop that is cut off. -/
abbrev ExtendErr.Genuine (e : ExtendErr) : Prop := e ≠ .notEnding

/-- The file `t` is `f` with the blocks given back to the volume. -/
def File.Gives (f : File) (blocks : List ℕ) (t : File) : Prop :=
  ∃ vcb', Releases f.vcb blocks vcb' ∧ t = { f with vcb := vcb' }

theorem File.Gives.trans {f t u : File} {blocks blocks' : List ℕ} (h : f.Gives blocks t) (h' : t.Gives blocks' u) :
    f.Gives (blocks ++ blocks') u := by
  obtain ⟨vcb₁, hrel, rfl⟩ := h
  obtain ⟨vcb₂, hrel', rfl⟩ := h'
  exact ⟨vcb₂, hrel.trans hrel', rfl⟩

theorem File.Gives.nil (f : File) : f.Gives [] f := ⟨f.vcb, .nil _, rfl⟩

section records
variable {f t : File} {r : ExtentRecord} {used : ℕ}

theorem ExtentRecord.Packed.congr (h : Packed f r used) (hplus : t.isHFSPlus = f.isHFSPlus)
    (htotal : t.vcb.totalBlocks = f.vcb.totalBlocks) : Packed t r used := by
  refine ⟨?_, h.full, h.empty, ?_, ?_⟩
  · unfold File.numExtentsPerRecord
    rw [hplus]
    exact h.room
  · rw [htotal]
    exact h.inside
  · rw [hplus]
    exact h.small

theorem Chained.congr {ps : List (ℕ × ExtentRecord)} {n : ℕ} (h : Chained f n ps)
    (hplus : t.isHFSPlus = f.isHFSPlus) (htotal : t.vcb.totalBlocks = f.vcb.totalBlocks) : Chained t n ps := by
  induction ps generalizing n with
  | nil => trivial
  | cons p ps ih =>
    obtain ⟨hp, ⟨used, hpos, hpacked⟩, hrest⟩ := h
    exact ⟨hp, ⟨used, hpos, hpacked.congr hplus htotal⟩, ih hrest⟩

end records

section calls
variable {s : Io File}

theorem ensures_deallocate {startBlock numBlocks : ℕ} (hpos : 0 < numBlocks)
    (hin : startBlock + numBlocks ≤ s.st.vcb.totalBlocks) :
    Ensures ExtendErr.Genuine (deallocate startBlock numBlocks) s
      (fun _ t => s.st.Gives (List.range' startBlock numBlocks) t) := by
  unfold deallocate
  apply Ensures.current_bind
  apply Ensures.update_bind
  by_cases h : (blockDeallocate s.st.vcb startBlock numBlocks).1 = .noErr
  · rw [if_pos h]
    exact Ensures.pure ⟨_, Releases.one hpos hin (Prod.ext h rfl), rfl⟩
  · rw [if_neg h]
    exact Ensures.throw (by decide)

theorem ensures_releaseExtentsFrom {r : ExtentRecord} {used : ℕ} : ∀ (n j numReleased : ℕ) {s : Io File},
    Packed s.st r used → s.st.vcb.totalBlocks < 2 ^ 32 → j + n = s.st.numExtentsPerRecord → j ≤ used →
    ExtentRecord.before r j ≤ numReleased →
    numReleased + (blocks r - ExtentRecord.before r j) < 2 ^ 32 →
    Ensures ExtendErr.Genuine (releaseExtentsFrom r n j numReleased) s (fun p t => s.st.Gives (onward r j) t ∧
      p.numReleasedAllocationBlocks = numReleased + (blocks r - ExtentRecord.before r j) ∧
      (p.releasedLastExtent = true ↔ used < s.st.numExtentsPerRecord))
  | 0, j, numReleased, s, h, _, hjn, hj, hle, hsum => by
    have hroom := h.room
    obtain rfl : j = used := by omega
    rw [h.before_used, Nat.sub_self, onward_eq_nil h.empty]
    exact Ensures.pure ⟨.nil _, rfl, by simp only [Bool.false_eq_true, false_iff]; omega⟩
  | n + 1, j, numReleased, s, h, ht, hjn, hj, hle, hsum => by
    have height := s.st.numExtents_le
    rcases Nat.eq_or_lt_of_le hj with rfl | hlt
    · rw [releaseExtentsFrom, if_pos (h.empty j (le_refl _)), h.before_used, Nat.sub_self,
        onward_eq_nil h.empty]
      exact Ensures.pure ⟨.nil _, rfl, by simp only [true_iff]; omega⟩
    · have hnext := before_succ r j
      have hbefore := h.before_le (show j + 1 ≤ used from hlt)
      rw [releaseExtentsFrom, if_neg (h.full j hlt).ne', onward_succ r (by omega)]
      apply (ensures_deallocate (h.full j hlt) (h.inside j)).bind
      rintro _ env ops t ⟨vcb', hrel, rfl⟩
      obtain ⟨htotal, -⟩ := hrel.same ht
      rw [u32_eq (by omega)]
      refine (ensures_releaseExtentsFrom n (j + 1) _ (s := ⟨env, ops, { s.st with vcb := vcb' }⟩) (h.congr rfl htotal) (htotal.symm ▸ ht)
        (by change j + 1 + n = s.st.numExtentsPerRecord; omega) hlt (by omega) (by omega)).conseq ?_
      rintro p t ⟨hgives, hnum, hlast⟩
      exact ⟨File.Gives.trans ⟨vcb', hrel, rfl⟩ hgives, by omega, hlast⟩

theorem ensures_releaseExtents {r : ExtentRecord} {used : ℕ} (h : Packed s.st r used)
    (ht : s.st.vcb.totalBlocks < 2 ^ 32) (hsum : blocks r < 2 ^ 32) :
    Ensures ExtendErr.Genuine (releaseExtents r) s (fun p t => s.st.Gives (blockList r) t ∧
      p.numReleasedAllocationBlocks = blocks r ∧
      (p.releasedLastExtent = true ↔ used < s.st.numExtentsPerRecord)) := by
  have hzero : ExtentRecord.before r 0 = 0 := rfl
  unfold releaseExtents
  apply Ensures.current_bind
  refine (ensures_releaseExtentsFrom s.st.numExtentsPerRecord 0 0 h ht (by omega) (Nat.zero_le _) (le_refl _)
    (by omega)).conseq ?_
  rw [hzero, onward_zero, Nat.zero_add, Nat.sub_zero]
  exact fun _ _ hp => hp

theorem ensures_findExactRecord {startBlock : ℕ} (hkey : s.st.keyBlock startBlock = startBlock) :
    Ensures ExtendErr.Genuine (findExactRecord startBlock) s (fun found t =>
      found = s.st.overflow.find? (fun p => p.1 = startBlock) ∧ t = s.st) := by
  unfold findExactRecord
  apply (Ensures.operation (by decide)).bind
  rintro _ env ops t rfl
  apply Ensures.current_bind
  refine Ensures.pure ⟨?_, rfl⟩
  simp only [hkey]

theorem ensures_deleteExtentRecord {startBlock : ℕ} (hkey : s.st.keyBlock startBlock = startBlock)
    (hmem : startBlock ∈ s.st.overflow.map Prod.fst) :
    Ensures ExtendErr.Genuine (deleteExtentRecord startBlock) s (fun _ t =>
      t = { s.st with overflow := s.st.overflow.filter (fun p => p.1 ≠ startBlock) }) := by
  unfold deleteExtentRecord
  apply (Ensures.operation (by decide)).bind
  rintro _ env ops t rfl
  apply Ensures.current_bind
  obtain ⟨p, hp, hpk⟩ := mem_map.mp hmem
  have hany : s.st.overflow.any (fun p => p.1 = s.st.keyBlock startBlock) = true :=
    any_eq_true.mpr ⟨p, hp, by simp [hkey, hpk]⟩
  rw [if_pos hany]
  refine Ensures.update ?_
  simp only [hkey]

/-- The file has these numbers in keys as they are. -/
def File.KeysUpTo (f : File) (n : ℕ) : Prop := n < 2 ^ 32 ∧ (f.isHFSPlus = false → n < 2 ^ 16)

theorem File.KeysUpTo.keyBlock_eq {f : File} {n k : ℕ} (h : f.KeysUpTo n) (hk : k ≤ n) : f.keyBlock k = k := by
  unfold File.keyBlock
  split_ifs with hplus
  · rfl
  · exact Nat.mod_eq_of_lt (hk.trans_lt (h.2 (Bool.not_eq_true _ ▸ hplus)))

/-- `TruncateExtents` from the first record of the rest `ps` of the chain on: the records of the rest
are deleted with their blocks. -/
theorem ensures_truncateExtentsLoop {front : List (ℕ × ExtentRecord)} {ps : List (ℕ × ExtentRecord)} :
    ∀ {n startBlock : ℕ} {s : Io File}, s.st.overflow = front ++ ps → (∀ q ∈ front, q.1 < startBlock) →
    Chained s.st startBlock ps → s.st.vcb.totalBlocks < 2 ^ 32 → ps.length < n →
    s.st.KeysUpTo (startBlock + (ps.map fun p => blocks p.2).sum) →
    Ensures ExtendErr.Genuine (truncateExtentsLoop n startBlock) s (fun _ t => ∃ u,
      s.st.Gives (ps.flatMap fun p => blockList p.2) u ∧ t = { u with overflow := front }) := by
  induction ps with
  | nil =>
    intro n startBlock s hsplit hfront _ ht hn hkeys
    obtain ⟨n, rfl⟩ := Nat.exists_eq_add_of_lt hn
    have hnone : s.st.overflow.find? (fun p => p.1 = startBlock) = none := by
      rw [hsplit, append_nil, List.find?_eq_none]
      intro q hq
      simpa using (hfront q hq).ne
    rw [length_nil, Nat.zero_add, truncateExtentsLoop]
    apply (ensures_findExactRecord (hkeys.keyBlock_eq (Nat.le_add_right _ _))).bind
    rintro _ env ops t ⟨rfl, rfl⟩
    rw [hnone]
    refine Ensures.pure ⟨s.st, .nil _, ?_⟩
    rw [append_nil] at hsplit
    rw [← hsplit]
  | cons p ps ih =>
    rintro n startBlock s hsplit hfront ⟨hp, ⟨used, hpos, hpacked⟩, hrest⟩ ht hn hkeys
    obtain ⟨n, rfl⟩ : ∃ m, n = m + 1 := ⟨n - 1, by omega⟩
    rw [map_cons, sum_cons, ← Nat.add_assoc] at hkeys
    have hkey := hkeys.keyBlock_eq (k := startBlock) (by omega)
    have hbound := hkeys.1
    have hblocks := hpacked.blocks_pos hpos
    have hfind : s.st.overflow.find? (fun p => p.1 = startBlock) = some p := by
      rw [hsplit, List.find?_append, List.find?_eq_none.mpr (fun q hq => by simpa using (hfront q hq).ne),
        List.find?_cons_of_pos (by simp [hp])]
      rfl
    have hmem : startBlock ∈ s.st.overflow.map Prod.fst := by
      rw [hsplit, ← hp]
      exact mem_map_of_mem (mem_append_right _ mem_cons_self)
    -- the record itself is deleted, and no other has its key
    have hfilter : (front ++ p :: ps).filter (fun q => q.1 ≠ startBlock) = front ++ ps := by
      rw [filter_append, filter_cons_of_neg (by simp [hp]),
        filter_eq_self.mpr (fun q hq => by simpa using (hfront q hq).ne),
        filter_eq_self.mpr (fun q hq => ?_)]
      have hlt := (hrest.bounds q hq).1
      simp only [ne_eq, decide_not, Bool.not_eq_eq_eq_not, Bool.not_true, decide_eq_false_iff_not]
      omega
    rw [truncateExtentsLoop]
    apply (ensures_findExactRecord hkey).bind
    rintro _ env ops t ⟨rfl, rfl⟩
    rw [hfind]
    apply (ensures_releaseExtents (s := ⟨env, ops, s.st⟩) hpacked ht (by omega)).bind
    rintro r env ops _ ⟨⟨vcb', hrel, rfl⟩, hnum, -⟩
    obtain ⟨htotal, -⟩ := hrel.same ht
    apply (ensures_deleteExtentRecord (s := ⟨env, ops, { s.st with vcb := vcb' }⟩) hkey hmem).bind
    rintro _ env ops _ rfl
    dsimp only
    rw [hnum, u32_eq (by omega), hsplit, hfilter]
    have hchain : Chained { s.st with vcb := vcb', overflow := front ++ ps } _ ps := hrest.congr rfl htotal
    refine (ih (s := ⟨env, ops, { s.st with vcb := vcb', overflow := front ++ ps }⟩) rfl
      (fun q hq => (hfront q hq).trans_le (Nat.le_add_right _ _)) hchain
      (htotal.symm ▸ ht) (by rw [length_cons] at hn; omega) hkeys).conseq ?_
    rintro _ _ ⟨_, ⟨vcb'', hrel', rfl⟩, rfl⟩
    exact ⟨{ s.st with vcb := vcb'' }, ⟨vcb'', hrel.trans hrel', rfl⟩, rfl⟩

theorem ensures_truncateExtents {front ps : List (ℕ × ExtentRecord)} {startBlock : ℕ}
    (hsplit : s.st.overflow = front ++ ps) (hfront : ∀ q ∈ front, q.1 < startBlock) (h : Chained s.st startBlock ps)
    (ht : s.st.vcb.totalBlocks < 2 ^ 32)
    (hkeys : s.st.KeysUpTo (startBlock + (ps.map fun p => blocks p.2).sum)) :
    Ensures ExtendErr.Genuine (truncateExtents startBlock) s (fun _ t => ∃ u,
      s.st.Gives (ps.flatMap fun p => blockList p.2) u ∧ t = { u with overflow := front }) := by
  unfold truncateExtents
  apply Ensures.current_bind
  apply ensures_truncateExtentsLoop hsplit hfront h ht
  · rw [hsplit, length_append]
    omega
  · exact hkeys

theorem ensures_releaseFollowing {r : ExtentRecord} {used : ℕ} : ∀ (n j : ℕ) {s : Io File} {cut : Cut},
    Packed s.st r used → s.st.vcb.totalBlocks < 2 ^ 32 → j + n = s.st.numExtentsPerRecord → j ≤ used →
    (∀ k, j ≤ k → cut.extentRecord k = r k) →
    cut.nextBlock + (blocks r - ExtentRecord.before r j) < 2 ^ 32 →
    Ensures ExtendErr.Genuine (releaseFollowing n j cut) s (fun cut' t => s.st.Gives (onward r j) t ∧
      cut'.nextBlock = cut.nextBlock + (blocks r - ExtentRecord.before r j) ∧
      (∀ k < j, cut'.extentRecord k = cut.extentRecord k) ∧
      (∀ k, j ≤ k → (cut'.extentRecord k).blockCount = 0 ∧
        (cut'.extentRecord k = r k ∨ cut'.extentRecord k = ⟨0, 0⟩)) ∧
      (cut'.extentChanged = false → cut' = cut))
  | 0, j, s, cut, h, _, hjn, hj, hsame, hsum => by
    have hroom := h.room
    obtain rfl : j = used := by omega
    rw [h.before_used, Nat.sub_self, onward_eq_nil h.empty]
    refine Ensures.pure ⟨.nil _, rfl, fun _ _ => rfl, fun k hk => ?_, fun _ => rfl⟩
    rw [hsame k hk]
    exact ⟨h.empty k hk, .inl rfl⟩
  | n + 1, j, s, cut, h, ht, hjn, hj, hsame, hsum => by
    have height := s.st.numExtents_le
    have hentry := hsame j (le_refl _)
    unfold releaseFollowing
    dsimp only
    rw [hentry]
    rcases Nat.eq_or_lt_of_le hj with rfl | hlt
    · rw [if_neg (not_not.mpr (h.empty j (le_refl _))), h.before_used, Nat.sub_self,
        onward_eq_nil h.empty]
      refine Ensures.pure ⟨.nil _, rfl, fun _ _ => rfl, fun k hk => ?_, fun _ => rfl⟩
      rw [hsame k hk]
      exact ⟨h.empty k hk, .inl rfl⟩
    · have hnext := before_succ r j
      have hbefore := h.before_le (show j + 1 ≤ used from hlt)
      rw [if_pos (h.full j hlt).ne', onward_succ r (by omega)]
      apply (ensures_deallocate (h.full j hlt) (h.inside j)).bind
      rintro _ env ops t ⟨vcb', hrel, rfl⟩
      obtain ⟨htotal, -⟩ := hrel.same ht
      rw [u32_eq (by omega)]
      have hsame' : ∀ k, j + 1 ≤ k → update cut.extentRecord j ⟨0, 0⟩ k = r k := by
        intro k hk
        rw [update_of_ne (by omega), hsame k (by omega)]
      have hpacked : Packed { s.st with vcb := vcb' } r used := h.congr rfl htotal
      refine (ensures_releaseFollowing n (j + 1) (s := ⟨env, ops, { s.st with vcb := vcb' }⟩) hpacked
        (htotal.symm ▸ ht) (by change j + 1 + n = s.st.numExtentsPerRecord; omega) hlt hsame'
        (by dsimp only; omega)).conseq ?_
      rintro cut' t ⟨hgives, hblock, hbelow, habove, hchanged⟩
      refine ⟨File.Gives.trans ⟨vcb', hrel, rfl⟩ hgives, by dsimp only at hblock; omega, fun k hk => ?_,
        fun k hk => ?_, fun hfalse => ?_⟩
      · rw [hbelow k (by omega)]
        exact update_of_ne (by omega) _ _
      · rcases Nat.eq_or_lt_of_le hk with rfl | hgt
        · rw [hbelow j (Nat.lt_succ_self j)]
          dsimp only
          rw [update_self]
          exact ⟨rfl, .inr rfl⟩
        · exact habove k hgt
      · have hcut := hchanged hfalse
        rw [hcut] at hfalse
        cases hfalse

theorem ensures_shortenExtent {place : Found} {extentNextBlock nextBlock : ℕ}
    (ht : s.st.vcb.totalBlocks < 2 ^ 32) (hin : place.extent.startBlock + place.extent.blockCount ≤ s.st.vcb.totalBlocks)
    (hnext : extentNextBlock < 2 ^ 32) (hle : nextBlock ≤ extentNextBlock)
    (hlt : extentNextBlock - nextBlock < place.extent.blockCount) :
    Ensures ExtendErr.Genuine (shortenExtent place extentNextBlock nextBlock) s (fun cut t =>
      s.st.Gives (List.range' (place.extent.startBlock + (place.extent.blockCount - (extentNextBlock - nextBlock)))
        (extentNextBlock - nextBlock)) t ∧
      cut.nextBlock = extentNextBlock ∧
      cut.extentRecord = update place.data place.index
        ⟨place.extent.startBlock, place.extent.blockCount - (extentNextBlock - nextBlock)⟩ ∧
      (cut.extentChanged = false → cut.extentRecord = place.data)) := by
  unfold shortenExtent
  dsimp only
  rw [u32Sub_eq hle hnext]
  by_cases h0 : extentNextBlock - nextBlock = 0
  · rw [if_neg (not_not.mpr h0), h0]
    refine Ensures.pure ⟨.nil _, rfl, ?_, fun _ => rfl⟩
    rw [Nat.sub_zero]
    exact (update_eq_self place.index place.data).symm
  · have hstart : u32Sub (u32 (place.extent.startBlock + place.extent.blockCount)) (extentNextBlock - nextBlock) =
        place.extent.startBlock + (place.extent.blockCount - (extentNextBlock - nextBlock)) := by
      rw [u32_eq (by omega), u32Sub_eq (by omega) (by omega)]
      omega
    rw [if_pos h0, hstart, u32Sub_eq (by omega) (by omega), if_neg (by omega)]
    apply (ensures_deallocate (Nat.pos_of_ne_zero h0) (by omega)).bind
    rintro _ env ops t hgives
    exact Ensures.pure ⟨hgives, rfl, rfl, fun h => by cases h⟩

theorem Attempts.ensures {α : Type} {m : FileM α} {c : ℕ} {a : α} {t : File} (h : Attempts m s c a t) :
    Ensures ExtendErr.Genuine m s (fun b u => b = a ∧ u = t) := by
  by_cases hs : s.Succeeds c
  · have hrun := h.ok hs
    constructor
    · intro b s' hb
      rw [hrun] at hb
      cases hb
      exact ⟨rfl, rfl⟩
    · intro e s' hb
      rw [hrun] at hb
      cases hb
  · obtain ⟨e, s', hrun, he, -⟩ := h.error hs
    constructor
    · intro b t hb
      rw [hrun] at hb
      cases hb
    · intro e' t hb
      rw [hrun] at hb
      cases hb
      exact he

end calls

/-! ## The place of the new end -/

theorem Chained.append {f : File} {xs ys : List (ℕ × ExtentRecord)} {n : ℕ} (h : Chained f n xs)
    (h' : Chained f (n + (xs.map fun p => blocks p.2).sum) ys) : Chained f n (xs ++ ys) := by
  induction xs generalizing n with
  | nil => exact h'
  | cons p xs ih =>
    obtain ⟨hp, hpacked, hrest⟩ := h
    rw [map_cons, sum_cons, ← Nat.add_assoc] at h'
    exact ⟨hp, hpacked, ih hrest h'⟩

theorem Chained.of_append {f : File} {xs ys : List (ℕ × ExtentRecord)} {n : ℕ} (h : Chained f n (xs ++ ys)) :
    Chained f n xs ∧ Chained f (n + (xs.map fun p => blocks p.2).sum) ys := by
  induction xs generalizing n with
  | nil => exact ⟨trivial, h⟩
  | cons p xs ih =>
    obtain ⟨hp, hpacked, hrest⟩ := h
    rw [map_cons, sum_cons, ← Nat.add_assoc]
    exact ⟨⟨hp, hpacked, (ih hrest).1⟩, (ih hrest).2⟩

/-- The records of the extents file up to that of the place, with the extents `data` there. -/
def Found.recordsTo (x : Found) (front : List (ℕ × ExtentRecord)) (data : ExtentRecord) : List (ℕ × ExtentRecord) :=
  match x.key with
  | none => []
  | some k => front ++ [(k, data)]

/-- The first file block of the record. -/
def Found.start (x : Found) : ℕ := x.key.getD 0

/-- The place is an entry of the file, with the records `front` before it and `back` behind it. -/
structure Found.InFile (x : Found) (f : File) (used : ℕ) (front back : List (ℕ × ExtentRecord)) : Prop where
  packed : Packed f x.data used
  index : x.index < used
  overflow : f.overflow = x.recordsTo front x.data ++ back
  inFcb : x.key = none → x.data = f.fcbExtents
  inTree : ∀ k, x.key = some k → Chained f (blocks f.fcbExtents) front ∧
    k = blocks f.fcbExtents + (front.map fun p => blocks p.2).sum
  behind : Chained f (x.start + blocks x.data) back

theorem Found.Holds.inFile {x : Found} {f : File} (hf : f.Consistent) {block nextBlock : ℕ}
    (h : x.Holds f block nextBlock) : ∃ used front back, x.InFile f used front back ∧
      nextBlock = x.start + ExtentRecord.before x.data (x.index + 1) := by
  have hcount : 0 < (x.data x.index).blockCount := by
    have hfrom := h.placed.from_first
    have hbefore := h.placed.before_next
    change 0 < x.extent.blockCount
    omega
  have hused : ∀ {used : ℕ}, Packed f x.data used → x.index < used := by
    intro used hpacked
    by_contra hge
    exact hcount.ne' (hpacked.empty x.index (Nat.not_lt.mp hge))
  cases hk : x.key with
  | none =>
    obtain ⟨hdata, hnext⟩ := h.inFcb hk
    obtain ⟨used, hpacked, -⟩ := hf.fcb
    rw [← hdata] at hpacked hnext
    have hstart : x.start = 0 := by rw [Found.start, hk, Option.getD_none]
    refine ⟨used, [], f.overflow, ⟨hpacked, hused hpacked, ?_, fun _ => hdata, fun k hk' => ?_, ?_⟩, ?_⟩
    · rw [Found.recordsTo, hk, nil_append]
    · rw [hk] at hk'
      cases hk'
    · rw [hstart, Nat.zero_add, hdata]
      exact hf.chain
    · rw [hstart, Nat.zero_add]
      exact hnext
  | some k =>
    obtain ⟨front, back, hsplit, hnext⟩ := h.inTree k hk
    have hchain := hf.chain
    rw [hsplit] at hchain
    obtain ⟨hfront, hkey, ⟨used, -, hpacked⟩, hback⟩ := hchain.of_append
    dsimp only at hkey hpacked hback
    rw [← hkey] at hback
    have hstart : x.start = k := by rw [Found.start, hk, Option.getD_some]
    refine ⟨used, front, back, ⟨hpacked, hused hpacked, ?_, fun h' => ?_, fun k' hk' => ?_, ?_⟩, ?_⟩
    · rw [Found.recordsTo, hk, hsplit, append_assoc]
      rfl
    · rw [hk] at h'
      cases h'
    · rw [hk] at hk'
      obtain rfl := Option.some.inj hk'
      exact ⟨hfront, hkey⟩
    · rwa [hstart]
    · rw [hstart]
      exact hnext

section place
variable {x : Found} {f : File} {used : ℕ} {front back : List (ℕ × ExtentRecord)}

theorem Found.InFile.before_end (h : x.InFile f used front back) (data : ExtentRecord) :
    ∀ p ∈ x.recordsTo front data, p.1 ≤ x.start := by
  intro p hp
  cases hk : x.key with
  | none =>
    rw [Found.recordsTo, hk] at hp
    cases hp
  | some k =>
    obtain ⟨hfront, hkey⟩ := h.inTree k hk
    rw [Found.recordsTo, hk] at hp
    rw [Found.start, hk, Option.getD_some]
    rcases mem_append.mp hp with hp | hp
    · have := (hfront.bounds p hp).2
      omega
    · rw [mem_singleton.mp hp]

theorem Found.InFile.write_overflow (h : x.InFile f used front back) (data : ExtentRecord) :
    (f.write x.key data).overflow = x.recordsTo front data ++ back := by
  have hblocks := h.packed.blocks_pos (Nat.zero_lt_of_lt h.index)
  have hover := h.overflow
  cases hk : x.key with
  | none =>
    rw [Found.recordsTo, hk] at hover ⊢
    exact hover
  | some k =>
    obtain ⟨hfront, hkey⟩ := h.inTree k hk
    have hstart : x.start = k := by rw [Found.start, hk, Option.getD_some]
    rw [Found.recordsTo, hk] at hover ⊢
    dsimp only at hover ⊢
    have hback : back.map (fun p => if p.1 = k then (k, data) else p) = back := by
      conv_rhs => rw [← map_id back]
      apply map_congr_left
      intro p hp
      have hge := (h.behind.bounds p hp).1
      exact if_neg (by omega)
    rw [File.write, File.replaceRecord, hover, map_append, hback,
      replace_last (fun p hp => by have := (hfront.bounds p hp).2; omega)]

theorem Found.InFile.write_fcb (data : ExtentRecord) :
    (f.write x.key data).fcbExtents = if x.key = none then data else f.fcbExtents := by
  cases hk : x.key with
  | none => rfl
  | some k => rfl

theorem Found.InFile.write_self (h : x.InFile f used front back) : f.write x.key x.data = f := by
  have hover := h.write_overflow x.data
  rw [← h.overflow] at hover
  cases hk : x.key with
  | none => rw [h.inFcb hk, File.write]
  | some k =>
    rw [hk] at hover
    rw [File.write, File.replaceRecord] at hover ⊢
    dsimp only at hover
    rw [hover]

theorem Found.InFile.blockList_eq (h : x.InFile f used front back) {data : ExtentRecord} {c : ℕ} {t : File}
    (hcut : CutAt x.data data x.index c) (hc : c ≤ (x.data x.index).blockCount)
    (hfcb : t.fcbExtents = if x.key = none then data else f.fcbExtents) (hover : t.overflow = x.recordsTo front data) :
    f.blockList = t.blockList ++ (List.range' ((x.data x.index).startBlock + c) ((x.data x.index).blockCount - c) ++
      onward x.data (x.index + 1) ++ back.flatMap fun p => blockList p.2) := by
  have hindex : x.index < 8 := h.index.trans_le (h.packed.room.trans f.numExtents_le)
  have hdata := hcut.append_eq hindex hc
  have hall := h.overflow
  rw [File.blockList_eq, File.blockList_eq, hfcb, hover, hall]
  cases hk : x.key with
  | none =>
    rw [Found.recordsTo, Found.recordsTo, hk, if_pos rfl, ← h.inFcb hk, hdata]
    simp only [flatMap_nil, nil_append, append_nil, append_assoc]
  | some k =>
    rw [Found.recordsTo, Found.recordsTo, hk, if_neg (by simp)]
    simp only [flatMap_append, flatMap_cons, flatMap_nil, append_nil, append_assoc, hdata]

theorem Found.InFile.blocks_eq (h : x.InFile f used front back) {data : ExtentRecord} {t : File}
    {rest : List (ℕ × ExtentRecord)} (hfcb : t.fcbExtents = if x.key = none then data else f.fcbExtents)
    (hover : t.overflow = x.recordsTo front data ++ rest) :
    t.blocks = x.start + blocks data + (rest.map fun p => blocks p.2).sum := by
  rw [File.blocks, hfcb, hover]
  cases hk : x.key with
  | none =>
    rw [Found.recordsTo, Found.start, hk, if_pos rfl, nil_append, Option.getD_none, Nat.zero_add]
  | some k =>
    obtain ⟨-, hkey⟩ := h.inTree k hk
    rw [Found.recordsTo, Found.start, hk, if_neg (by simp), Option.getD_some, hkey, map_append, sum_append,
      map_append, sum_append, map_singleton, sum_singleton]
    dsimp only
    omega

theorem Found.InFile.blocks_self (h : x.InFile f used front back) :
    f.blocks = x.start + blocks x.data + (back.map fun p => blocks p.2).sum := by
  apply h.blocks_eq ?_ h.overflow
  split_ifs with hk
  · exact (h.inFcb hk).symm
  · rfl

theorem ExtentRecord.CutAt.blocks_eq {r r' : ExtentRecord} {i c : ℕ} (h : CutAt r r' i c) (hi : i < 8) :
    blocks r' = ExtentRecord.before r i + c := by
  rw [← length_blockList, h.blockList_eq hi, length_append, length_upTo,
    length_range']

theorem Found.InFile.chain (h : x.InFile f used front back) {data : ExtentRecord} {m : ℕ}
    (hdata : Packed f data m) (hpos : 0 < m) :
    Chained f (blocks (if x.key = none then data else f.fcbExtents)) (x.recordsTo front data) := by
  cases hk : x.key with
  | none =>
    rw [Found.recordsTo, hk]
    exact trivial
  | some k =>
    obtain ⟨hfront, hkey⟩ := h.inTree k hk
    rw [Found.recordsTo, hk, if_neg (by simp)]
    exact hfront.append ⟨hkey, ⟨m, hpos, hdata⟩, trivial⟩

end place

/-! ## The shortened file -/

/-- A file that can be truncated: its extents lie on the volume, where its blocks are not counted
as free, and its physical length reaches into its last record. -/
structure File.Truncatable (f : File) : Prop extends f.Consistent where
  total : f.vcb.totalBlocks < 2 ^ 32
  narrow : f.isHFSPlus = false → f.vcb.totalBlocks < 2 ^ 16
  room : f.blocks + f.vcb.freeBlocks ≤ f.vcb.totalBlocks
  reach : ∀ p ∈ f.overflow, p.1 < f.fcbPLen / f.vcb.blockSize

/-- The file block behind the extent that has the block. -/
def extentEnd : List Extent → ℕ → ℕ
  | [], _ => 0
  | e :: es, block => e.blockCount + if block < e.blockCount then 0 else extentEnd es (block - e.blockCount)

theorem Placed.extentEnd_eq {es : List Extent} {block first : ℕ} {e : Extent} (h : Placed es block first e) :
    extentEnd es block = first + e.blockCount := by
  obtain ⟨⟨pre, post, rfl, rfl⟩, hfrom, hbefore⟩ := h
  induction pre generalizing block with
  | nil =>
    change block < 0 + e.blockCount at hbefore
    rw [nil_append, extentEnd, if_pos (by omega)]
    exact Nat.add_comm _ _
  | cons e' pre ih =>
    have hcons : blockCount (e' :: pre) = e'.blockCount + blockCount pre := rfl
    rw [hcons] at hfrom hbefore ⊢
    rw [cons_append, extentEnd, if_neg (by omega), ih (by omega) (by omega), Nat.add_assoc]

/-- The blocks that are kept for a new length of `n` blocks. -/
def File.kept (f : File) (n : ℕ) (truncateToExtent : Bool) : ℕ :=
  if truncateToExtent = true ∧ n ≠ 0 then extentEnd f.extents (n - 1) else n

/-- The file `t` is `f` with a physical length of `n` blocks and the first `kept` blocks: the others
are given back, each by one call. -/
structure File.Truncated (f : File) (n kept : ℕ) (t : File) : Prop where
  blockList : t.blockList = f.blockList.take kept
  released : Releases f.vcb (f.blockList.drop kept) t.vcb
  cleared : ∀ b, bitAt t.vcb.bitmap b = if b ∈ f.blockList.drop kept then false else bitAt f.vcb.bitmap b
  free : t.vcb.freeBlocks = f.vcb.freeBlocks + (f.blocks - kept)
  freeBks : t.vcb = f.vcb ∨ updateVCBFreeBlks t.vcb = t.vcb
  records : ∀ p ∈ t.overflow, p.1 < n
  length : t.fcbPLen = n * f.vcb.blockSize
  truncatable : t.Truncatable

/-- The file `t` is `f` cut off behind `kept` blocks, with the blocks `gone` given back. -/
structure File.CutOff (f : File) (n kept : ℕ) (t : File) (gone : List ℕ) (used : ℕ) : Prop where
  blockList : f.blockList = t.blockList ++ gone
  blocks : t.blocks = kept
  released : Releases f.vcb gone t.vcb
  length : t.fcbPLen = f.fcbPLen
  isHFSPlus : t.isHFSPlus = f.isHFSPlus
  packed : Packed f t.fcbExtents used
  full : t.overflow ≠ [] → used = f.numExtentsPerRecord
  chain : Chained f (ExtentRecord.blocks t.fcbExtents) t.overflow
  records : ∀ p ∈ t.overflow, p.1 < n

theorem File.Truncatable.truncated {f t : File} (hf : f.Truncatable) {n kept used : ℕ} {gone : List ℕ}
    (h : File.CutOff { f with fcbPLen := n * f.vcb.blockSize } n kept t gone used) (hn : n ≤ kept) :
    f.Truncated n kept t := by
  obtain ⟨hsplit, hkept, hrel, hlength, hplus, hpacked, hfull, hchain, hrecords⟩ := h
  dsimp only at hrel hlength hplus
  change f.blockList = _ at hsplit
  have htake : (t.blockList ++ gone).take kept = t.blockList := by
    rw [take_left' (t.length_blockList.trans hkept)]
  have hdrop : (t.blockList ++ gone).drop kept = gone := by
    rw [drop_left' (t.length_blockList.trans hkept)]
  have hlen : gone.length = f.blocks - kept := by
    rw [← f.length_blockList, hsplit, length_append, t.length_blockList, hkept, Nat.add_sub_cancel_left]
  have hle : kept ≤ f.blocks := by
    rw [← f.length_blockList, hsplit, length_append, t.length_blockList]
    omega
  have hroom := hf.room
  have htotal := hf.total
  have hbytes := hf.bytes
  obtain ⟨hsame, hsize⟩ := hrel.same hf.total
  have hfree : t.vcb.freeBlocks = f.vcb.freeBlocks + (f.blocks - kept) := by
    rw [← hlen]
    exact hrel.freeBlocks hf.total (by omega)
  have hmul : f.vcb.blockSize * kept ≤ f.vcb.blockSize * f.blocks := Nat.mul_le_mul_left _ hle
  have hnum : t.numExtentsPerRecord = f.numExtentsPerRecord := by
    unfold File.numExtentsPerRecord
    rw [hplus]
  refine ⟨?_, ?_, ?_, hfree, ?_, hrecords, hlength, ⟨⟨?_, ⟨used, hpacked.congr hplus hsame, fun h => ?_⟩,
    hchain.congr hplus hsame, fun h => ?_, ?_, ?_⟩, ?_, fun h => ?_, ?_, fun p hp => ?_⟩⟩
  · rw [hsplit, htake]
  · rw [hsplit, hdrop]
    exact hrel
  · intro b
    rw [hsplit, hdrop]
    exact hrel.bitAt hf.total b
  · rcases hrel.vcbFreeBks hf.total with ⟨-, h⟩ | h
    · exact .inl h
    · exact .inr h
  · rw [hsize]
    exact hf.blockSize
  · rw [hnum]
    exact hfull h
  · have hsmall := hf.small (hplus ▸ h)
    omega
  · rw [hsize, hkept]
    omega
  · rw [hsize, hkept, hlength, Nat.mul_comm]
    exact Nat.mul_le_mul_left _ hn
  · rw [hsame]
    exact hf.total
  · rw [hsame]
    exact hf.narrow (hplus ▸ h)
  · rw [hsame, hfree, hkept]
    omega
  · rw [hlength, hsize, Nat.mul_div_cancel _ hf.blockSize]
    exact hrecords p hp

section truncate
variable {s : Io File}

theorem ensures_truncateAll (hf : s.st.Consistent) (ht : s.st.vcb.totalBlocks < 2 ^ 32) :
    Ensures ExtendErr.Genuine truncateAll s (fun _ t => t.fcbPLen = s.st.fcbPLen ∧ t.isHFSPlus = s.st.isHFSPlus ∧
      Releases s.st.vcb s.st.blockList t.vcb ∧ t.overflow = [] ∧ Packed s.st t.fcbExtents 0) := by
  obtain ⟨used, hpacked, hfull⟩ := hf.fcb
  have hlt := hf.blocks_lt
  have hle : blocks s.st.fcbExtents ≤ s.st.blocks := Nat.le_add_right _ _
  have hkeys : s.st.KeysUpTo s.st.blocks := ⟨hlt, hf.small⟩
  have hfork : Ensures ExtendErr.Genuine (deallocateFork s.st.fcbExtents) s (fun _ t => ∃ u,
      s.st.Gives s.st.blockList u ∧ t = { u with overflow := [] }) := by
    rw [File.blockList_eq]
    unfold deallocateFork
    apply (ensures_releaseExtents hpacked ht (by omega)).bind
    rintro r env ops _ ⟨⟨vcb', hrel, rfl⟩, hnum, hlast⟩
    obtain ⟨htotal, -⟩ := hrel.same ht
    by_cases hr : r.releasedLastExtent = true
    · have hnil : s.st.overflow = [] := by
        by_contra hne
        exact (hlast.mp hr).ne (hfull hne)
      rw [if_pos hr, hnil, flatMap_nil, append_nil]
      refine Ensures.pure ⟨{ s.st with vcb := vcb' }, ⟨vcb', hrel, rfl⟩, ?_⟩
      rw [← hnil]
    · have hchain : Chained { s.st with vcb := vcb' } (blocks s.st.fcbExtents) s.st.overflow :=
        hf.chain.congr rfl htotal
      rw [if_neg hr, hnum]
      have hsplit : ({ s.st with vcb := vcb' } : File).overflow = [] ++ s.st.overflow := rfl
      refine (ensures_truncateExtents (s := ⟨env, ops, { s.st with vcb := vcb' }⟩) hsplit
        (fun q hq => absurd hq not_mem_nil) hchain (htotal.symm ▸ ht) hkeys).conseq ?_
      rintro _ _ ⟨_, ⟨vcb'', hrel', rfl⟩, rfl⟩
      exact ⟨{ s.st with vcb := vcb'' }, ⟨vcb'', hrel.trans hrel', rfl⟩, rfl⟩
  unfold truncateAll
  apply Ensures.current_bind
  apply hfork.bind
  rintro _ env ops _ ⟨_, ⟨vcb', hrel, rfl⟩, rfl⟩
  refine Ensures.update ⟨rfl, rfl, hrel, rfl, ?_⟩
  have hzero : ∀ i, (if i < s.st.numExtentsPerRecord then (⟨0, 0⟩ : Extent) else s.st.fcbExtents i).blockCount = 0 := by
    intro i
    split_ifs with hi
    · rfl
    · exact hpacked.empty i (hpacked.room.trans (Nat.not_lt.mp hi))
  have hstored : ∀ r : ExtentRecord, (∀ i, (r i).blockCount = 0) → (∀ i, (r i).startBlock ≤ s.st.vcb.totalBlocks) →
      Packed s.st (s.st.stored r) 0 := by
    intro r hr hin
    refine ⟨Nat.zero_le _, fun i hi => absurd hi (Nat.not_lt_zero i), fun i _ => ?_, fun i => ?_, fun hhfs i hi => ?_⟩
    · unfold File.stored
      split_ifs
      · exact hr i
      · dsimp only
        split_ifs
        · dsimp only
          rw [hr i]
          rfl
        · rfl
    · unfold File.stored
      have hi := hin i
      split_ifs
      · rw [hr i]
        exact hi
      · dsimp only
        split_ifs
        · dsimp only
          rw [hr i]
          exact (Nat.mod_le _ _).trans hi
        · exact Nat.zero_le _
    · unfold File.stored
      rw [if_neg (by rw [hhfs]; exact Bool.false_ne_true)]
      exact if_neg (by omega)
  refine hstored _ hzero (fun i => ?_)
  split_ifs
  · exact Nat.zero_le _
  · have := hpacked.inside i
    omega

theorem ensures_keepExtent {place : Found} {extentNextBlock nextBlock : ℕ} {truncateToExtent : Bool}
    (ht : s.st.vcb.totalBlocks < 2 ^ 32) (hin : place.extent.startBlock + place.extent.blockCount ≤ s.st.vcb.totalBlocks)
    (hnext : extentNextBlock < 2 ^ 32) (hle : nextBlock ≤ extentNextBlock)
    (hlt : extentNextBlock - nextBlock < place.extent.blockCount) {kept c : ℕ}
    (hkept : kept = if truncateToExtent = true then extentNextBlock else nextBlock)
    (hc : c = place.extent.blockCount - (extentNextBlock - kept)) :
    Ensures ExtendErr.Genuine (keepExtent place extentNextBlock nextBlock truncateToExtent) s (fun cut t =>
      s.st.Gives (List.range' (place.extent.startBlock + c) (place.extent.blockCount - c)) t ∧
      cut.nextBlock = extentNextBlock ∧
      cut.extentRecord = update place.data place.index ⟨place.extent.startBlock, c⟩ ∧
      (cut.extentChanged = false → cut.extentRecord = place.data)) := by
  unfold keepExtent
  by_cases h : truncateToExtent = true
  · rw [if_pos h] at hkept ⊢
    have hall : c = place.extent.blockCount := by omega
    rw [hall, Nat.sub_self]
    exact Ensures.pure ⟨.nil _, rfl, (update_eq_self place.index place.data).symm, fun _ => rfl⟩
  · rw [if_neg h] at hkept ⊢
    rw [hkept] at hc
    have hgone : place.extent.blockCount - c = extentNextBlock - nextBlock := by omega
    rw [hgone, hc]
    exact ensures_shortenExtent ht hin hnext hle hlt

theorem ExtentRecord.Packed.stored_eq {f : File} {r : ExtentRecord} {used : ℕ} (h : Packed f r used)
    (hnarrow : f.isHFSPlus = false → f.vcb.totalBlocks < 2 ^ 16) : f.stored r = r := by
  unfold File.stored
  split_ifs with hplus
  · rfl
  · have hhfs : f.isHFSPlus = false := Bool.not_eq_true _ ▸ hplus
    have ht := hnarrow hhfs
    funext i
    have hi := h.inside i
    split_ifs with hi3
    · rw [Nat.mod_eq_of_lt (by omega), Nat.mod_eq_of_lt (by omega)]
    · exact (h.small hhfs i (by omega)).symm

theorem ensures_writeCut {x : Found} {used m : ℕ} {front back : List (ℕ × ExtentRecord)} {cut : Cut}
    (h : x.InFile s.st used front back) (hkeys : s.st.KeysUpTo s.st.blocks)
    (hnarrow : s.st.isHFSPlus = false → s.st.vcb.totalBlocks < 2 ^ 16)
    (hpacked : Packed s.st cut.extentRecord m)
    (hchanged : cut.extentChanged = false → cut.extentRecord = x.data) :
    Ensures ExtendErr.Genuine (writeCut x.key cut) s (fun _ t => t = s.st.write x.key cut.extentRecord) := by
  have hstored := hpacked.stored_eq hnarrow
  unfold writeCut
  by_cases hc : cut.extentChanged = true
  · rw [if_pos hc]
    cases hk : x.key with
    | none =>
      refine ((updateExtentRecord_none s cut.extentRecord).ensures).conseq ?_
      rintro _ t ⟨-, rfl⟩
      rw [hstored]
      rfl
    | some k =>
      have hover := h.overflow
      rw [Found.recordsTo, hk] at hover
      have hmem : (k, x.data) ∈ s.st.overflow := by
        rw [hover]
        simp
      have hkey : s.st.keyBlock k = k := by
        apply hkeys.keyBlock_eq
        obtain ⟨-, hk'⟩ := h.inTree k hk
        rw [File.blocks, hover, hk']
        simp only [map_append, sum_append]
        omega
      have hsome : (s.st.overflow.find? (fun p => p.1 = s.st.keyBlock k)).isSome := by
        rw [List.find?_isSome]
        exact ⟨_, hmem, by simp [hkey]⟩
      obtain ⟨p, hp⟩ := Option.isSome_iff_exists.mp hsome
      refine ((updateExtentRecord_some cut.extentRecord hp).ensures).conseq ?_
      rintro _ t ⟨-, rfl⟩
      rw [hstored, hkey]
      rfl
  · rw [if_neg hc]
    refine Ensures.pure ?_
    rw [hchanged (Bool.not_eq_true _ ▸ hc)]
    exact h.write_self.symm

theorem Found.InFile.congr {x : Found} {f t : File} {used : ℕ} {front back : List (ℕ × ExtentRecord)}
    (h : x.InFile f used front back) (hfcb : t.fcbExtents = f.fcbExtents) (hover : t.overflow = f.overflow)
    (hplus : t.isHFSPlus = f.isHFSPlus) (htotal : t.vcb.totalBlocks = f.vcb.totalBlocks) :
    x.InFile t used front back := by
  refine ⟨h.packed.congr hplus htotal, h.index, hover.trans h.overflow, fun hk => (h.inFcb hk).trans hfcb.symm,
    fun k hk => ?_, h.behind.congr hplus htotal⟩
  obtain ⟨hfront, hkey⟩ := h.inTree k hk
  rw [hfcb]
  exact ⟨hfront.congr hplus htotal, hkey⟩

theorem ensures_truncateRest {x : Found} {used : ℕ} {front back : List (ℕ × ExtentRecord)} {data : ExtentRecord}
    {physNumBlocks : ℕ} (h : x.InFile s.st used front back)
    (ht : s.st.vcb.totalBlocks < 2 ^ 32) (hreach : ∀ p ∈ back, p.1 < physNumBlocks)
    {t : File} (hst : t = s.st.write x.key data)
    (hkeys : s.st.KeysUpTo (x.start + blocks x.data + (back.map fun p => blocks p.2).sum))
    {env : ℕ → Bool} {ops : ℕ} :
    Ensures ExtendErr.Genuine (if x.start + blocks x.data < physNumBlocks then
        truncateExtents (x.start + blocks x.data) else pure ()) ⟨env, ops, t⟩ (fun _ t => ∃ u,
      (s.st.write x.key data).Gives (back.flatMap fun p => blockList p.2) u ∧
      t = { u with overflow := x.recordsTo front data }) := by
  have hover := h.write_overflow data
  have hpos := h.packed.blocks_pos (Nat.zero_lt_of_lt h.index)
  have hvcb : (s.st.write x.key data).vcb = s.st.vcb ∧ (s.st.write x.key data).isHFSPlus = s.st.isHFSPlus := by
    cases x.key <;> exact ⟨rfl, rfl⟩
  rw [hst]
  by_cases hmore : x.start + blocks x.data < physNumBlocks
  · rw [if_pos hmore]
    apply ensures_truncateExtents (s := ⟨env, ops, s.st.write x.key data⟩) hover
    · intro q hq
      have := h.before_end data q hq
      omega
    · exact h.behind.congr hvcb.2 (by rw [hvcb.1])
    · dsimp only
      rw [hvcb.1]
      exact ht
    · unfold File.KeysUpTo
      dsimp only
      rw [hvcb.2]
      exact hkeys
  · rw [if_neg hmore]
    have hback : back = [] := by
      cases back with
      | nil => rfl
      | cons p ps =>
        obtain ⟨hp, -, -⟩ := h.behind
        have := hreach p mem_cons_self
        omega
    subst hback
    rw [append_nil] at hover
    refine Ensures.pure ⟨s.st.write x.key data, .nil _, ?_⟩
    rw [← hover]

theorem ensures_truncateBehind (hf : s.st.Consistent) (ht : s.st.vcb.totalBlocks < 2 ^ 32)
    (hnarrow : s.st.isHFSPlus = false → s.st.vcb.totalBlocks < 2 ^ 16) {n physNumBlocks : ℕ}
    (hreach : ∀ p ∈ s.st.overflow, p.1 < physNumBlocks) (hpos : 0 < n) (hn : n ≤ s.st.blocks) (truncateToExtent : Bool) :
    Ensures ExtendErr.Genuine (truncateBehind (n * s.st.vcb.blockSize) n physNumBlocks truncateToExtent) s
      (fun _ t => n ≤ s.st.kept n truncateToExtent ∧
        ∃ gone used, s.st.CutOff n (s.st.kept n truncateToExtent) t gone used) := by
  have hlt := hf.blocks_lt
  have hsize := hf.blockSize
  have hbytes := hf.bytes
  have hmul : n * s.st.vcb.blockSize ≤ s.st.vcb.blockSize * s.st.blocks := by
    rw [Nat.mul_comm]
    exact Nat.mul_le_mul_left _ hn
  have hmulpos : s.st.vcb.blockSize ≤ n * s.st.vcb.blockSize := Nat.le_mul_of_pos_left _ hpos
  have hpeof : u32Sub (n * s.st.vcb.blockSize) 1 = n * s.st.vcb.blockSize - 1 := u32Sub_eq (by omega) (by omega)
  have hblock : (n * s.st.vcb.blockSize - 1) / s.st.vcb.blockSize = n - 1 := by
    rw [Nat.mul_comm, Nat.mul_sub_div 0 _ _ (by rw [Nat.mul_comm]; omega)]
    rw [Nat.zero_div]
  have hmapped : (n * s.st.vcb.blockSize - 1) / s.st.vcb.blockSize < s.st.blocks := by omega
  have hsearch := (takes_searchExtentFile_found hf hmapped).ensures
    (E := ExtendErr.Genuine) (fun e s' hrun => by rw [searchExtentFile_error hrun]; decide)
  unfold truncateBehind
  rw [hpeof]
  apply hsearch.bind
  rintro r env ops _ ⟨rfl, hfound, hholds⟩
  rw [hblock] at hholds
  obtain ⟨used, front, back, hplace, hnext⟩ := hholds.inFile hf
  have hend := hholds.placed.extentEnd_eq
  have hfrom := hholds.placed.from_first
  have hbefore := hholds.placed.before_next
  have hcount := hholds.next
  have hstep := before_succ r.place.data r.place.index
  change _ = _ + r.place.extent.blockCount at hstep
  obtain ⟨kept, hkept⟩ : ∃ k, s.st.kept n truncateToExtent = k := ⟨_, rfl⟩
  have hkeptif : kept = if truncateToExtent = true then r.nextBlock else n := by
    rw [← hkept, File.kept, hend, Nat.sub_add_cancel hcount]
    cases truncateToExtent
    · rfl
    · rw [if_pos ⟨rfl, hpos.ne'⟩, if_pos rfl]
  have hkeptle : n ≤ kept ∧ kept ≤ r.nextBlock := by
    split_ifs at hkeptif <;> omega
  obtain ⟨c, hc⟩ : ∃ c, c = r.place.extent.blockCount - (r.nextBlock - kept) := ⟨_, rfl⟩
  -- the sums over the file
  have hall := hplace.blocks_self
  have hgone := hplace.packed.before_le (show r.place.index + 1 ≤ used from hplace.index)
  have hnextlt : r.nextBlock < 2 ^ 32 := by omega
  rw [hkept, if_neg (by rw [hfound]; decide)]
  apply (ensures_keepExtent (s := ⟨env, ops, s.st⟩) ht (hplace.packed.inside _) hnextlt (by omega) (by omega) hkeptif hc).bind
  rintro cut env ops _ ⟨⟨vcb₁, hrel₁, rfl⟩, hcutnext, hcutrec, hcutchanged⟩
  obtain ⟨htotal₁, -⟩ := hrel₁.same ht
  apply Ensures.current_bind
  have hplace₁ : r.place.InFile { s.st with vcb := vcb₁ } used front back := hplace.congr rfl rfl rfl htotal₁
  have hroom := hplace.packed.room
  have hindex := hplace.index
  have hindex8 : r.place.index < 8 := hindex.trans_le (hroom.trans s.st.numExtents_le)
  have hbehind : ∀ k, r.place.index + 1 ≤ k → cut.extentRecord k = r.place.data k := by
    intro k hk
    rw [hcutrec, update_of_ne (by omega)]
  have hfuel : r.place.index + 1 + (s.st.numExtentsPerRecord - (r.place.index + 1)) = s.st.numExtentsPerRecord := by
    omega
  apply (ensures_releaseFollowing (s := ⟨env, ops, { s.st with vcb := vcb₁ }⟩) _ _ hplace₁.packed
    (htotal₁.trans_lt ht) hfuel hindex hbehind (by omega)).bind
  rintro cut' env ops _ ⟨⟨vcb₂, hrel₂, rfl⟩, hnext₂, hbelow, habove, hsame⟩
  obtain ⟨htotal₂, -⟩ := hrel₂.same (htotal₁.trans_lt ht)
  have hplace₂ : r.place.InFile { s.st with vcb := vcb₂ } used front back :=
    hplace.congr rfl rfl rfl (htotal₂.trans htotal₁)
  have hcut : CutAt r.place.data cut'.extentRecord r.place.index c := by
    refine ⟨fun j hj => ?_, ?_, fun j hj => habove j hj⟩
    · rw [hbelow j (by omega), hcutrec, update_of_ne (by omega)]
    · rw [hbelow _ (by omega), hcutrec, update_self]
      rfl
  have hcpos : 0 < c := by omega
  have hcle : c ≤ r.place.extent.blockCount := by omega
  have hpacked : Packed s.st cut'.extentRecord (r.place.index + 1) :=
    hcut.packed hplace.packed hindex hcpos hcle
  have hpacked₂ : Packed { s.st with vcb := vcb₂ } cut'.extentRecord (r.place.index + 1) :=
    hpacked.congr rfl (htotal₂.trans htotal₁)
  have hkeys : s.st.KeysUpTo s.st.blocks := ⟨hlt, hf.small⟩
  have hchanged : cut'.extentChanged = false → cut'.extentRecord = r.place.data := by
    intro h
    have heq := hsame h
    rw [heq] at h ⊢
    exact hcutchanged h
  have hnarrow₂ : s.st.isHFSPlus = false → vcb₂.totalBlocks < 2 ^ 16 := by
    intro h
    exact (htotal₂.trans htotal₁).trans_lt (hnarrow h)
  apply (ensures_writeCut (s := ⟨env, ops, { s.st with vcb := vcb₂ }⟩) hplace₂ hkeys hnarrow₂ hpacked₂ hchanged).bind
  rintro _ env ops t hwrite
  have hend₂ : cut'.nextBlock = r.place.start + blocks r.place.data := by
    rw [hnext₂, hcutnext]
    omega
  have hreach₂ : ∀ p ∈ back, p.1 < physNumBlocks := by
    intro p hp
    apply hreach p
    rw [hplace.overflow]
    exact mem_append_right _ hp
  have hkeys₂ := hkeys
  rw [hall] at hkeys₂
  rw [hend₂]
  refine (ensures_truncateRest (s := ⟨env, ops, { s.st with vcb := vcb₂ }⟩) hplace₂
    ((htotal₂.trans htotal₁).trans_lt ht) hreach₂ hwrite
    hkeys₂).conseq ?_
  rintro _ t ⟨u, ⟨vcb₃, hrel₃, hu⟩, htu⟩
  -- the file that is left
  have hwritten : ∀ {v : File}, (v.write r.place.key cut'.extentRecord).isHFSPlus = v.isHFSPlus ∧
      (v.write r.place.key cut'.extentRecord).fcbPLen = v.fcbPLen ∧
      (v.write r.place.key cut'.extentRecord).vcb = v.vcb := by
    intro v
    cases r.place.key <;> exact ⟨rfl, rfl, rfl⟩
  rw [hwritten.2.2] at hrel₃
  have hover : t.overflow = r.place.recordsTo front cut'.extentRecord ++ [] := by
    rw [htu, append_nil]
  have hfcb : t.fcbExtents = if r.place.key = none then cut'.extentRecord else s.st.fcbExtents := by
    rw [htu, hu]
    exact Found.InFile.write_fcb _
  have hleft := hplace.blocks_eq hfcb hover
  have hdata := hcut.blocks_eq hindex8
  rw [append_nil] at hover
  refine ⟨hkeptle.1, _, if r.place.key = none then r.place.index + 1 else s.st.numExtentsPerRecord,
    ⟨hplace.blockList_eq hcut hcle hfcb hover, ?_, ?_, ?_, ?_, ?_, fun hne => ?_, ?_, fun p hp => ?_⟩⟩
  · rw [map_nil, sum_nil] at hleft
    omega
  · rw [htu, hu]
    exact (hrel₁.trans hrel₂).trans hrel₃
  · rw [htu, hu]
    exact hwritten.2.1
  · rw [htu, hu]
    exact hwritten.1
  · rw [hfcb]
    split_ifs with hk
    · exact hpacked
    · obtain ⟨used₀, hpacked₀, hfull₀⟩ := hf.fcb
      have hne : s.st.overflow ≠ [] := by
        obtain ⟨k, hk⟩ := Option.ne_none_iff_exists'.mp hk
        rw [hplace.overflow, Found.recordsTo, hk]
        simp
      rwa [hfull₀ hne] at hpacked₀
  · rw [if_neg (fun hk => hne ?_)]
    rw [hover, Found.recordsTo, hk]
  · rw [hfcb, hover]
    exact hplace.chain hpacked (Nat.succ_pos _)
  · rw [hover] at hp
    have hle := hplace.before_end cut'.extentRecord p hp
    omega

theorem divideAndRoundUp_le {m d k : ℕ} (hd : 0 < d) (h : m ≤ d * k) : divideAndRoundUp m d ≤ k := by
  have hbound := (divideAndRoundUp_bounds m hd).2
  have hlt : divideAndRoundUp m d * d < (k + 1) * d := by
    rw [Nat.add_mul, Nat.one_mul, Nat.mul_comm k d]
    omega
  exact Nat.lt_succ_iff.mp (Nat.lt_of_mul_lt_mul_right hlt)

theorem File.Consistent.u32_mul {f : File} (hf : f.Consistent) {n : ℕ} (hn : n ≤ f.blocks) :
    u32 (n * f.vcb.blockSize) = n * f.vcb.blockSize := by
  have hmul : f.vcb.blockSize * n ≤ f.vcb.blockSize * f.blocks := Nat.mul_le_mul_left _ hn
  have hbytes := hf.bytes
  rw [Nat.mul_comm]
  exact u32_eq (by omega)

theorem ensures_truncateFileC (hf : s.st.Truncatable) {peof : ℕ} (hpeof : peof ≤ s.st.fcbPLen) (truncateToExtent : Bool) :
    Ensures ExtendErr.Genuine (truncateFileC peof truncateToExtent) s (fun _ t =>
      s.st.Truncated (divideAndRoundUp peof s.st.vcb.blockSize)
        (s.st.kept (divideAndRoundUp peof s.st.vcb.blockSize) truncateToExtent) t) := by
  have hn := divideAndRoundUp_le hf.blockSize (hpeof.trans hf.length)
  unfold truncateFileC
  apply Ensures.current_bind
  dsimp only
  generalize divideAndRoundUp peof s.st.vcb.blockSize = n at hn ⊢
  rw [hf.u32_mul hn]
  by_cases hbig : n * s.st.vcb.blockSize ≥ 2 ^ 31
  · rw [if_pos hbig]
    exact Ensures.throw (by decide)
  · rw [if_neg hbig]
    apply Ensures.update_bind
    -- the search does not look at the physical length
    have hcons : File.Consistent { s.st with fcbPLen := n * s.st.vcb.blockSize } := by
      obtain ⟨used, hpacked, hfull⟩ := hf.fcb
      refine ⟨hf.blockSize, ⟨used, hpacked.congr rfl rfl, hfull⟩, hf.chain.congr rfl rfl, hf.small, hf.bytes, ?_⟩
      dsimp only
      rw [Nat.mul_comm]
      exact Nat.mul_le_mul_left _ hn
    by_cases hzero : n * s.st.vcb.blockSize = 0
    · obtain rfl : n = 0 := (Nat.mul_eq_zero.mp hzero).resolve_right hf.blockSize.ne'
      rw [if_pos hzero]
      refine (ensures_truncateAll (s := ⟨s.env, s.ops, { s.st with fcbPLen := 0 * s.st.vcb.blockSize }⟩) hcons
        hf.total).conseq ?_
      rintro _ t ⟨hlen, hplus, hrel, hover, hpacked⟩
      have hkept : s.st.kept 0 truncateToExtent = 0 := if_neg (fun h => h.2 rfl)
      have hempty : blocks t.fcbExtents = 0 := by
        rw [← hpacked.sum_eq, Finset.Ico_self, Finset.sum_empty]
      have hblocks : t.blocks = 0 := by
        rw [File.blocks, hempty, hover]
        rfl
      have hnone : t.blockList = [] := length_eq_zero_iff.mp (t.length_blockList.trans hblocks)
      rw [hkept]
      refine @File.Truncatable.truncated _ _ hf _ _ _ s.st.blockList ⟨?_, hblocks, hrel, hlen, hplus, hpacked, fun hne => absurd hover hne, ?_,
        fun p hp => ?_⟩ (le_refl _)
      · rw [hnone]
        rfl
      · rw [hover]
        trivial
      · rw [hover] at hp
        cases hp
    · have hpos : 0 < n := Nat.pos_of_ne_zero (fun h => hzero (by rw [h, Nat.zero_mul]))
      rw [if_neg hzero]
      refine (ensures_truncateBehind (s := ⟨s.env, s.ops, { s.st with fcbPLen := n * s.st.vcb.blockSize }⟩) hcons
        hf.total hf.narrow hf.reach hpos hn truncateToExtent).conseq ?_
      rintro _ t ⟨hle, gone, used, hcut⟩
      exact hf.truncated hcut hle

/-- A truncation that returns leaves the blocks up to the new end, or up to the end of the extent in which
that lies, and gives back the others. The loops of every truncation end. -/
theorem truncateFileC_exact (hf : s.st.Truncatable) {peof : ℕ} (hpeof : peof ≤ s.st.fcbPLen) (truncateToExtent : Bool) :
    (∀ s', (truncateFileC peof truncateToExtent).run s = .ok () s' →
      s.st.Truncated (divideAndRoundUp peof s.st.vcb.blockSize)
        (s.st.kept (divideAndRoundUp peof s.st.vcb.blockSize) truncateToExtent) s'.st) ∧
    ∀ s', (truncateFileC peof truncateToExtent).run s ≠ .error .notEnding s' := by
  have h := ensures_truncateFileC hf hpeof truncateToExtent
  exact ⟨fun s' hrun => h.ok () s' hrun, fun s' hrun => h.error _ s' hrun rfl⟩

end truncate

theorem fiveExtents_truncatable : fiveExtents.Truncatable := by
  refine ⟨fiveExtents_consistent, by decide, fun _ => by decide, by decide, ?_⟩
  intro p hp
  rw [mem_singleton.mp hp]
  decide

/-- The new end lies in the record of the extents file. -/
theorem truncateFileC_exact_fiveExtents :
    (∃ s', (truncateFileC 1800 false).run ⟨fun _ => true, 0, fiveExtents⟩ = .ok () s' ∧
      fiveExtents.Truncated 4 4 s'.st) ∧
    ∀ s', (truncateFileC 1800 false).run ⟨fun _ => true, 0, fiveExtents⟩ ≠ .error .notEnding s' := by
  have h := @truncateFileC_exact ⟨fun _ => true, 0, fiveExtents⟩ fiveExtents_truncatable 1800 (by decide) false
  have hreturns : returns ((truncateFileC 1800 false).run ⟨fun _ => true, 0, fiveExtents⟩) = true := by decide +kernel
  obtain ⟨_, s', hrun⟩ := exists_of_returns hreturns
  exact ⟨⟨s', hrun, h.1 s' hrun⟩, h.2⟩

/-- A file of one extent on a volume of HFS Plus, whose free space is also counted in blocks twice as large. -/
def oneExtentPlus : File :=
  { fiveExtents with
    vcb := ⟨512, 1024, 32, fun _ => true, fun _ => 0xffc00000, 22, 11, 0⟩
    isHFSPlus := true
    fcbPLen := 1024
    fcbExtents := oneExtent 7 2
    overflow := [] }

theorem oneExtentPlus_truncatable : oneExtentPlus.Truncatable := by
  refine ⟨⟨by decide, ⟨1, ⟨by decide, fun i hi => ?_, fun i hi => ?_, fun i => ?_, fun h => ?_⟩, fun h => absurd rfl h⟩,
    trivial, fun h => ?_, by decide, by decide⟩, by decide, fun h => ?_, by decide, fun p hp => ?_⟩
  · obtain rfl : i = 0 := by omega
    decide
  · exact congrArg Extent.blockCount (if_neg (by omega))
  · change (oneExtent 7 2 i).startBlock + (oneExtent 7 2 i).blockCount ≤ 32
    unfold oneExtent
    split_ifs <;> decide
  · cases h
  · cases h
  · cases h
  · cases hp

/-- With `truncateToExtent` the block behind the new length is kept, and a block that is given back need
not show in `vcbFreeBks`. -/
theorem oneExtentPlus_keeps_block : oneExtentPlus.Truncatable ∧
    (returns ((truncateFileC 512 true).run ⟨fun _ => true, 0, oneExtentPlus⟩) = true ∧
      (finalState ((truncateFileC 512 true).run ⟨fun _ => true, 0, oneExtentPlus⟩)).blockList = [7, 8] ∧
      (finalState ((truncateFileC 512 true).run ⟨fun _ => true, 0, oneExtentPlus⟩)).fcbPLen = 512) ∧
    (returns ((truncateFileC 512 false).run ⟨fun _ => true, 0, oneExtentPlus⟩) = true ∧
      (finalState ((truncateFileC 512 false).run ⟨fun _ => true, 0, oneExtentPlus⟩)).blockList = [7] ∧
      (finalState ((truncateFileC 512 false).run ⟨fun _ => true, 0, oneExtentPlus⟩)).vcb.vcbFreeBks =
        oneExtentPlus.vcb.vcbFreeBks) := by
  refine ⟨oneExtentPlus_truncatable, ⟨?_, ?_, ?_⟩, ?_, ?_, ?_⟩
  all_goals decide +kernel

end Darwin.Hfs.FileExtents
