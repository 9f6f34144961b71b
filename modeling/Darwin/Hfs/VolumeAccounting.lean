import Darwin.Hfs.VolumeFind
import Darwin.Lib.Run
import Mathlib.Data.List.Pairwise

/-! # Accounting of the volume bitmap

The free count of a volume is the number of its clear bits, and the ranges handed out and
not given back are disjoint and marked, over every run of allocations and deallocations.
The second part says when a request for any blocks at all is met.
-/
namespace Darwin.Hfs.VolumeAllocation
open Darwin.Lib

/-- A volume whose free count is right. -/
structure Vcb.Counted (vcb : Vcb) : Prop where
  blockSize : 512 ≤ vcb.blockSize
  total : vcb.totalBlocks < 2 ^ 32
  count : vcb.freeBlocks = clearCount vcb.bitmap vcb.totalBlocks

/-- And whose bitmap can be read. -/
structure Vcb.Ok (vcb : Vcb) : Prop extends vcb.Counted where
  reads : ∀ k, vcb.readable k = true

theorem divideAndRoundUp_pos {n d : ℕ} (hn : 0 < n) : 0 < divideAndRoundUp n d := by
  unfold divideAndRoundUp
  dsimp only
  split_ifs with h
  · exact Nat.succ_pos _
  · rw [ne_eq, not_not] at h
    rcases Nat.eq_zero_or_pos (n / d) with h0 | hpos
    · rw [h0, Nat.zero_mul] at h
      omega
    · exact hpos

theorem divideAndRoundUp_lt {n d : ℕ} (hd : 512 ≤ d) (hn : n < 2 ^ 32) :
    divideAndRoundUp n d < 2 ^ 31 := by
  have h : n / d ≤ n / 512 := Nat.div_le_div_left hd (by omega)
  unfold divideAndRoundUp
  dsimp only
  split_ifs <;> omega

/-- An allocation either fails and leaves the bitmap as it was or marks a free range of at
least `least` and at most `most` blocks. -/
def Alloc.Sound (a : Alloc) (bitmap : Bitmap) (totalBlocks least most : ℕ) : Prop :=
  (a.err = .noErr ∧ least ≤ a.actualNumBlocks ∧ a.actualNumBlocks ≤ most ∧
    Allocated bitmap a.bitmap totalBlocks a.actualStartBlock a.actualNumBlocks) ∨
  (a.err ≠ .noErr ∧ a.bitmap = bitmap ∧ a.actualStartBlock = 0 ∧ a.actualNumBlocks = 0)

theorem blockAllocateAny_sound {vcb : Vcb} (hr : ∀ k, vcb.readable k = true)
    {startingBlock endingBlock maxBlocks totalBlocks : ℕ} (hs : startingBlock ≤ endingBlock)
    (he : endingBlock ≤ totalBlocks) (ht : totalBlocks < 2 ^ 32) (hmax : 0 < maxBlocks) {most : ℕ}
    (hmost : maxBlocks ≤ most) :
    (blockAllocateAny vcb startingBlock endingBlock maxBlocks).Sound vcb.bitmap totalBlocks 1
      most := by
  rcases blockAllocateAny_spec vcb hs (by omega) hmax (hr _) (fun i _ _ _ => hr _) with
    ⟨first, len, bitmap', -, hlen, hlen', halloc, hrun⟩ | ⟨-, hrun, -⟩
  · rw [hrun]
    exact Or.inl ⟨rfl, hlen, hlen'.trans hmost, Nat.le_trans halloc.inside he, halloc.clear, halloc.marked⟩
  · rw [hrun (fun i _ _ _ => hr _)]
    exact Or.inr ⟨by simp, rfl, rfl, rfl⟩

theorem blockAllocateContig_sound {vcb : Vcb} (hr : ∀ k, vcb.readable k = true)
    {startingBlock minBlocks : ℕ} (maxBlocks : ℕ) (hm : minBlocks < 2 ^ 31)
    (ht : vcb.totalBlocks < 2 ^ 32) (hs : startingBlock ≤ vcb.totalBlocks) :
    ∃ a, blockAllocateContig vcb startingBlock minBlocks maxBlocks = some a ∧
      a.Sound vcb.bitmap vcb.totalBlocks minBlocks (max minBlocks maxBlocks) := by
  -- the range found, from the starting block or from the beginning of the volume
  have hfound : ∃ r, ((blockFindContiguous vcb startingBlock vcb.totalBlocks minBlocks
        maxBlocks).bind (fun r => if r.1 = .dskFulErr then
          blockFindContiguous vcb 0 vcb.totalBlocks minBlocks maxBlocks else some r)) = some r ∧
      (r = (.dskFulErr, 0, 0) ∨ (r.1 = .noErr ∧ minBlocks ≤ r.2.2 ∧
        r.2.2 ≤ max minBlocks maxBlocks ∧ r.2.1 + r.2.2 ≤ vcb.totalBlocks ∧
        ∀ i, r.2.1 ≤ i → i < r.2.1 + r.2.2 → bitAt vcb.bitmap i = false)) := by
    rcases blockFindContiguous_spec hr maxBlocks hm ht hs with
      h | ⟨first, len, h, hlen, hmost, hin, hclear⟩
    · rcases blockFindContiguous_spec hr maxBlocks hm ht (Nat.zero_le _) with
        h' | ⟨first, len, h', hlen, hmost, hin, hclear⟩
      · refine ⟨(.dskFulErr, 0, 0), ?_, Or.inl rfl⟩
        rw [h, Option.bind_some, if_pos rfl, h']
      · refine ⟨(.noErr, first, len), ?_, Or.inr ⟨rfl, hlen, hmost, hin, hclear⟩⟩
        rw [h, Option.bind_some, if_pos rfl, h']
    · refine ⟨(.noErr, first, len), ?_, Or.inr ⟨rfl, hlen, hmost, hin, hclear⟩⟩
      rw [h, Option.bind_some, if_neg (by simp)]
  obtain ⟨r, hr', hcases⟩ := hfound
  rw [blockAllocateContig, hr']
  rcases hcases with rfl | ⟨hno, hlen, hmost, hin, hclear⟩
  · exact ⟨_, rfl, Or.inr ⟨by simp, by simp, by simp, by simp⟩⟩
  · obtain ⟨bitmap', hmark, hmarked⟩ := @blockMarkAllocated_spec vcb.readable vcb.bitmap r.2.1
      r.2.2 (fun k _ => hr k) (by omega)
    refine ⟨⟨.noErr, r.2.1, r.2.2, bitmap'⟩, ?_, Or.inl ⟨rfl, hlen, hmost, hin, hclear, hmarked⟩⟩
    simp [hno, hmark]

/-- What one call of `BlockAllocate` does to a sound volume. -/
structure Result.Sound (r : Result) (vcb : Vcb) (least most : ℕ) : Prop where
  counted : r.vcb.Counted
  sameReads : r.vcb.readable = vcb.readable
  same : r.vcb.totalBlocks = vcb.totalBlocks
  sameSize : r.vcb.blockSize = vcb.blockSize
  rover : r.vcb.nextAllocation = vcb.nextAllocation ∨
    r.err = .noErr ∧ r.vcb.nextAllocation = r.actualStartBlock
  enough : r.err = .noErr → least ≤ r.actualNumBlocks
  bounded : r.err = .noErr → r.actualNumBlocks ≤ most
  success : r.err = .noErr →
    Allocated vcb.bitmap r.vcb.bitmap vcb.totalBlocks r.actualStartBlock r.actualNumBlocks
  failure : r.err ≠ .noErr → r.vcb = vcb
  nothing : r.err ≠ .noErr → r.actualNumBlocks = 0

theorem Result.Sound.ok {r : Result} {vcb : Vcb} {least most : ℕ} (hr : r.Sound vcb least most) (h : vcb.Ok) :
    r.vcb.Ok :=
  ⟨hr.counted, fun k => by rw [hr.sameReads, h.reads k]⟩

theorem updateVCBFreeBlks_ok {vcb : Vcb} (h : vcb.Ok) : (updateVCBFreeBlks vcb).Ok :=
  ⟨⟨h.blockSize, h.total, h.count⟩, h.reads⟩

/-- What the end of `BlockAllocate` makes of an allocation that is sound or has broken off. -/
theorem finish_cases {vcb : Vcb} (h : vcb.Counted) (startingBlock : ℕ) {a : Alloc} {least most : ℕ}
    {P : Alloc → Prop} (hread : ∀ a, P a → a.err = .readErr)
    (ha : P a ∨ a.Sound vcb.bitmap vcb.totalBlocks least most) :
    ∃ r, some (if a.err = .noErr then
        ⟨.noErr, a.actualStartBlock, a.actualNumBlocks, updateVCBFreeBlks
          { vcb with
            bitmap := a.bitmap
            nextAllocation := if startingBlock = 0 then a.actualStartBlock else vcb.nextAllocation
            freeBlocks := u32Sub vcb.freeBlocks a.actualNumBlocks }⟩
      else ⟨a.err, a.actualStartBlock, a.actualNumBlocks, { vcb with bitmap := a.bitmap }⟩ : Result) = some r ∧
      ((∃ a, P a ∧ r = ⟨a.err, a.actualStartBlock, a.actualNumBlocks, { vcb with bitmap := a.bitmap }⟩) ∨
        r.Sound vcb least most) := by
  refine ⟨_, rfl, ?_⟩
  rcases ha with hbroken | ⟨hno, hlen, hmost, halloc⟩ | ⟨hne, hbm, -, hnum⟩
  · rw [if_neg (by rw [hread a hbroken]; decide)]
    exact .inl ⟨a, hbroken, rfl⟩
  · rw [if_pos hno]
    have hcount := halloc.marked.clearCount halloc.clear halloc.inside
    have hle := clearCount_le vcb.bitmap vcb.totalBlocks
    have ht := h.total
    have hsub : u32Sub vcb.freeBlocks a.actualNumBlocks = clearCount a.bitmap vcb.totalBlocks := by
      rw [h.count, u32Sub_eq (by omega) (by omega)]
      omega
    refine .inr ⟨⟨h.blockSize, h.total, hsub⟩, rfl, rfl, rfl, ?_,
      fun _ => hlen, fun _ => hmost, fun _ => halloc, fun hne => absurd rfl hne,
      fun hne => absurd rfl hne⟩
    by_cases h0 : startingBlock = 0
    · exact Or.inr ⟨rfl, if_pos h0⟩
    · exact Or.inl (if_neg h0)
  · rw [if_neg hne, hbm]
    exact .inr ⟨h, rfl, rfl, rfl, Or.inl rfl, fun hno => absurd hno hne, fun hno => absurd hno hne,
      fun hno => absurd hno hne, fun _ => rfl, fun _ => hnum⟩

/-- The calls the accounting theorem is about: the search starts on the volume, or right
behind its last block, and a request that need not be contiguous asks for something. -/
def Vcb.Admits (vcb : Vcb) (startingBlock bytesMaximum : ℕ) (forceContiguous : Bool) : Prop :=
  vcb.startFor startingBlock ≤ vcb.totalBlocks ∧ (forceContiguous = false → 0 < bytesMaximum)

/-- What `BlockAllocate` does when its parts may break off on a failed read instead of making a sound
allocation. -/
theorem blockAllocate_cases {vcb : Vcb} (h : vcb.Counted) {startingBlock bytesRequested bytesMaximum : ℕ}
    {forceContiguous : Bool} (hb : bytesRequested < 2 ^ 32)
    (ha : vcb.Admits startingBlock bytesMaximum forceContiguous) {P : Alloc → Prop}
    (hread : ∀ a, P a → a.err = .readErr)
    (hcontig : ∀ {start minBlocks : ℕ} (maxBlocks : ℕ), minBlocks < 2 ^ 31 → start ≤ vcb.totalBlocks →
      ∃ a, blockAllocateContig vcb start minBlocks maxBlocks = some a ∧
        (P a ∨ a.Sound vcb.bitmap vcb.totalBlocks minBlocks (max minBlocks maxBlocks)))
    (hany : ∀ {start stop maxBlocks most : ℕ}, start ≤ stop → stop ≤ vcb.totalBlocks → 0 < maxBlocks →
      maxBlocks ≤ most → P (blockAllocateAny vcb start stop maxBlocks) ∨
        (blockAllocateAny vcb start stop maxBlocks).Sound vcb.bitmap vcb.totalBlocks 1 most) :
    ∃ r, blockAllocate vcb startingBlock bytesRequested bytesMaximum forceContiguous = some r ∧
      ((∃ a, P a ∧ r = ⟨a.err, a.actualStartBlock, a.actualNumBlocks, { vcb with bitmap := a.bitmap }⟩) ∨
        r.Sound vcb (if forceContiguous then divideAndRoundUp bytesRequested vcb.blockSize else 1)
          (max (divideAndRoundUp bytesRequested vcb.blockSize)
            (divideAndRoundUp bytesMaximum vcb.blockSize))) := by
  obtain ⟨hstart, hmax⟩ := ha
  have hfail : ∀ least most, Result.Sound ⟨.dskFulErr, 0, 0, vcb⟩ vcb least most := fun _ _ =>
    ⟨h, rfl, rfl, rfl, Or.inl rfl, fun hno => absurd hno (by simp), fun hno => absurd hno (by simp),
      fun hno => absurd hno (by simp), fun _ => rfl, fun _ => rfl⟩
  unfold blockAllocate
  dsimp only
  by_cases h0 : vcb.freeBlocks = 0
  · rw [if_pos h0]
    exact ⟨_, rfl, .inr (hfail _ _)⟩
  · rw [if_neg h0]
    cases forceContiguous with
    | true =>
      by_cases hfew : vcb.freeBlocks < divideAndRoundUp bytesRequested vcb.blockSize
      · rw [if_pos ⟨rfl, hfew⟩]
        exact ⟨_, rfl, .inr (hfail _ _)⟩
      · rw [if_neg (fun hc => hfew hc.2), if_pos rfl]
        obtain ⟨a, hrun, hcases⟩ := hcontig (divideAndRoundUp bytesMaximum vcb.blockSize)
          (divideAndRoundUp_lt h.blockSize hb) hstart
        rw [hrun]
        exact finish_cases h startingBlock hread hcases
    | false =>
      have hpos : 0 < divideAndRoundUp bytesMaximum vcb.blockSize :=
        divideAndRoundUp_pos (hmax rfl)
      simp only [Bool.false_eq_true, false_and, if_false, Option.map_some]
      have hmost := le_max_right (divideAndRoundUp bytesRequested vcb.blockSize)
        (divideAndRoundUp bytesMaximum vcb.blockSize)
      apply finish_cases h startingBlock hread
      have hfirst := hany hstart (le_refl _) hpos hmost
      split_ifs with hful
      · rcases hfirst with hbroken | ⟨hno, -⟩ | ⟨-, hbm, -, -⟩
        · rw [hread _ hbroken] at hful
          cases hful
        · rw [hno] at hful
          cases hful
        · rw [hbm]
          exact hany (Nat.zero_le _) hstart hpos hmost
      · exact hfirst

theorem blockAllocate_sound {vcb : Vcb} (h : vcb.Ok) {startingBlock bytesRequested bytesMaximum : ℕ}
    {forceContiguous : Bool} (hb : bytesRequested < 2 ^ 32)
    (ha : vcb.Admits startingBlock bytesMaximum forceContiguous) :
    ∃ r, blockAllocate vcb startingBlock bytesRequested bytesMaximum forceContiguous = some r ∧
      r.Sound vcb (if forceContiguous then divideAndRoundUp bytesRequested vcb.blockSize else 1)
        (max (divideAndRoundUp bytesRequested vcb.blockSize)
          (divideAndRoundUp bytesMaximum vcb.blockSize)) := by
  obtain ⟨r, hrun, ⟨a, hbroken, -⟩ | hsound⟩ := blockAllocate_cases h.toCounted hb ha
    (fun _ (hbroken : False) => hbroken.elim)
    (fun maxBlocks hm hs => by
      obtain ⟨a, hrun, hsound⟩ := blockAllocateContig_sound h.reads maxBlocks hm h.total hs
      exact ⟨a, hrun, .inr hsound⟩)
    (fun hs he hmax hmost => .inr (blockAllocateAny_sound h.reads hs he h.total hmax hmost))
  · exact hbroken.elim
  · exact ⟨r, hrun, hsound⟩

theorem blockDeallocate_sound {vcb : Vcb} (h : vcb.Ok) {firstBlock numBlocks : ℕ}
    (hin : firstBlock + numBlocks ≤ vcb.totalBlocks)
    (hset : ∀ i, firstBlock ≤ i → i < firstBlock + numBlocks → bitAt vcb.bitmap i = true) :
    (blockDeallocate vcb firstBlock numBlocks).1 = .noErr ∧
    (blockDeallocate vcb firstBlock numBlocks).2.Ok ∧
    (blockDeallocate vcb firstBlock numBlocks).2.totalBlocks = vcb.totalBlocks ∧
    Marked vcb.bitmap (blockDeallocate vcb firstBlock numBlocks).2.bitmap firstBlock numBlocks
      false := by
  unfold blockDeallocate
  by_cases h0 : numBlocks = 0
  · subst h0
    rw [if_pos rfl]
    exact ⟨rfl, h, rfl, Marked.refl _ _ _⟩
  · have ht := h.total
    obtain ⟨bitmap', hmark, hmarked⟩ := @blockMarkFree_spec vcb.readable vcb.bitmap
      firstBlock numBlocks (fun k _ => h.reads k) (by omega)
    -- the old bitmap is the new one with the range marked
    have hback : Marked bitmap' vcb.bitmap firstBlock numBlocks true := by
      intro n
      rw [hmarked n]
      split_ifs with hn
      · exact hset n hn.1 hn.2
      · rfl
    have hcount := hback.clearCount (fun k h1 h2 => by rw [hmarked k, if_pos ⟨h1, h2⟩]) hin
    have hle := clearCount_le bitmap' vcb.totalBlocks
    have hadd : u32 (vcb.freeBlocks + numBlocks) = clearCount bitmap' vcb.totalBlocks := by
      rw [h.count, u32_eq (by omega)]
      omega
    rw [if_neg h0, hmark]
    simp only [ne_eq, not_true_eq_false, if_false]
    exact ⟨trivial, updateVCBFreeBlks_ok ⟨⟨h.blockSize, h.total, hadd⟩, h.reads⟩, rfl, hmarked⟩

/-! ## Whole runs -/

inductive Event where
  | allocate (startingBlock bytesRequested bytesMaximum : ℕ) (forceContiguous : Bool)
  | deallocate (firstBlock numBlocks : ℕ)
  | updateFreeCount
  deriving DecidableEq, Repr

/-- A volume with the ranges that were allocated and not given back. -/
structure Volume where
  vcb : Vcb
  live : List (ℕ × ℕ)

/-- One call. The arguments of `BlockAllocate` are `UInt32`; a range is given back as it was
obtained. -/
def Volume.step (s : Volume) : Event → Volume → Prop
  | .allocate startingBlock bytesRequested bytesMaximum forceContiguous, t =>
    bytesRequested < 2 ^ 32 ∧ bytesMaximum < 2 ^ 32 ∧
    ∃ r, blockAllocate s.vcb startingBlock bytesRequested bytesMaximum forceContiguous = some r ∧
      t = ⟨r.vcb, if r.err = .noErr then (r.actualStartBlock, r.actualNumBlocks) :: s.live else s.live⟩
  | .deallocate firstBlock numBlocks, t =>
    (firstBlock, numBlocks) ∈ s.live ∧
      t = ⟨(blockDeallocate s.vcb firstBlock numBlocks).2, s.live.erase (firstBlock, numBlocks)⟩
  | .updateFreeCount, t => t = ⟨(Hfs.VolumeAllocation.updateFreeCount s.vcb).2, s.live⟩

/-- The condition on a call, which speaks of the volume it is made on. -/
def Volume.Admits (s : Volume) : Event → Prop
  | .allocate startingBlock _ bytesMaximum forceContiguous =>
    s.vcb.Admits startingBlock bytesMaximum forceContiguous
  | .deallocate _ _ => True
  | .updateFreeCount => True

/-- The block lies in the range. -/
def InBlocks (range : ℕ × ℕ) (i : ℕ) : Prop := range.1 ≤ i ∧ i < range.1 + range.2

/-- What holds of a volume between calls. -/
structure Volume.Ok (s : Volume) : Prop where
  vcb : s.vcb.Ok
  inside : ∀ r ∈ s.live, r.1 + r.2 ≤ s.vcb.totalBlocks
  marked : ∀ r ∈ s.live, ∀ i, InBlocks r i → bitAt s.vcb.bitmap i = true
  disjoint : s.live.Pairwise (fun a b => ∀ i, ¬ (InBlocks a i ∧ InBlocks b i))

theorem Volume.Ok.allocated {s : Volume} (h : s.Ok) {r : Result} {least most : ℕ}
    (hr : r.Sound s.vcb least most) :
    Volume.Ok ⟨r.vcb, if r.err = .noErr then (r.actualStartBlock, r.actualNumBlocks) :: s.live
      else s.live⟩ := by
  by_cases hno : r.err = .noErr
  · rw [if_pos hno]
    obtain ⟨hin, hclear, hmark⟩ := hr.success hno
    refine ⟨hr.ok h.vcb, ?_, ?_, ?_⟩
    · intro q hq
      dsimp only
      rw [hr.same]
      rcases List.mem_cons.mp hq with rfl | hq
      · exact hin
      · exact h.inside q hq
    · intro q hq i hi
      dsimp only
      rw [hmark i]
      split_ifs with hi'
      · rfl
      · rcases List.mem_cons.mp hq with rfl | hq
        · exact absurd hi hi'
        · exact h.marked q hq i hi
    · refine List.pairwise_cons.mpr ⟨?_, h.disjoint⟩
      rintro q hq i ⟨h1, h2⟩
      have hset := h.marked q hq i h2
      rw [hclear i h1.1 h1.2] at hset
      cases hset
  · rw [if_neg hno, hr.failure hno]
    exact h

theorem Volume.Ok.deallocated {s : Volume} (h : s.Ok) {r : ℕ × ℕ} (hr : r ∈ s.live) :
    Volume.Ok ⟨(blockDeallocate s.vcb r.1 r.2).2, s.live.erase r⟩ := by
  obtain ⟨-, hok, htotal, hmark⟩ := blockDeallocate_sound h.vcb (h.inside r hr)
    (fun i h1 h2 => h.marked r hr i ⟨h1, h2⟩)
  -- the ranges that stay do not meet the one that goes
  have hperm := List.perm_cons_erase hr
  have hpair := hperm.pairwise_iff (R := fun a b => ∀ i, ¬ (InBlocks a i ∧ InBlocks b i))
    (fun {a b} hab i hi => hab i hi.symm) |>.mp h.disjoint
  obtain ⟨hhead, htail⟩ := List.pairwise_cons.mp hpair
  refine ⟨hok, ?_, ?_, htail⟩
  · intro q hq
    dsimp only
    rw [htotal]
    exact h.inside q (List.mem_of_mem_erase hq)
  · intro q hq i hi
    have hkeep := (hmark i).trans (if_neg (fun hi' => hhead q hq i ⟨hi', hi⟩))
    exact hkeep.trans (h.marked q (List.mem_of_mem_erase hq) i hi)

theorem updateFreeCount_same {vcb : Vcb} (h : vcb.Ok) :
    updateFreeCount vcb = (.noErr, updateVCBFreeBlks vcb) := by
  rw [updateFreeCount_spec h.reads h.total, ← h.count]

theorem Volume.Ok.step {s t : Volume} {e : Event} (h : s.Ok) (ha : s.Admits e) (he : s.step e t) :
    t.Ok := by
  cases e with
  | allocate startingBlock bytesRequested bytesMaximum forceContiguous =>
    obtain ⟨hb, -, r, hr, rfl⟩ := he
    obtain ⟨r', hr', hsound⟩ := blockAllocate_sound h.vcb hb ha
    obtain rfl := Option.some.inj (hr.symm.trans hr')
    exact h.allocated hsound
  | deallocate firstBlock numBlocks =>
    obtain ⟨hmem, rfl⟩ := he
    exact h.deallocated hmem
  | updateFreeCount =>
    obtain rfl := he
    rw [updateFreeCount_same h.vcb]
    exact ⟨updateVCBFreeBlks_ok h.vcb, h.inside, h.marked, h.disjoint⟩

/-- The accounting of the volume, in every state a run of admitted calls reaches: the free
count is the number of clear bits and is what `UpdateFreeCount` computes, the live ranges
are disjoint, and a further admitted allocation returns and either marks exactly a free
range on the volume or changes nothing. -/
theorem volume_accounting {vcb : Vcb} (h : vcb.Ok) {as : List Event} {t : Volume}
    (hr : RunUnder (fun s e => s.Admits e) Volume.step ⟨vcb, []⟩ as t) :
    t.vcb.freeBlocks = clearCount t.vcb.bitmap t.vcb.totalBlocks ∧
    t.live.Pairwise (fun a b => ∀ i, ¬ (InBlocks a i ∧ InBlocks b i)) ∧
    (updateFreeCount t.vcb).1 = .noErr ∧
    (updateFreeCount t.vcb).2.freeBlocks = t.vcb.freeBlocks ∧
    (∀ startingBlock bytesRequested bytesMaximum forceContiguous, bytesRequested < 2 ^ 32 →
      t.vcb.Admits startingBlock bytesMaximum forceContiguous →
      ∃ r, blockAllocate t.vcb startingBlock bytesRequested bytesMaximum forceContiguous = some r ∧
        (r.err = .noErr → r.actualStartBlock + r.actualNumBlocks ≤ t.vcb.totalBlocks ∧
          (∀ i, InBlocks (r.actualStartBlock, r.actualNumBlocks) i →
            bitAt t.vcb.bitmap i = false ∧ bitAt r.vcb.bitmap i = true) ∧
          (∀ i, ¬ InBlocks (r.actualStartBlock, r.actualNumBlocks) i →
            bitAt r.vcb.bitmap i = bitAt t.vcb.bitmap i)) ∧
        (r.err ≠ .noErr → r.vcb.bitmap = t.vcb.bitmap ∧ r.vcb.freeBlocks = t.vcb.freeBlocks)) := by
  have hok : t.Ok := RunUnder.invariant (fun s e t hs ha he => hs.step ha he) hr
    ⟨h, by simp, by simp, List.Pairwise.nil⟩
  refine ⟨hok.vcb.count, hok.disjoint, ?_, ?_, ?_⟩
  · rw [updateFreeCount_same hok.vcb]
  · rw [updateFreeCount_same hok.vcb]
    rfl
  · intro startingBlock bytesRequested bytesMaximum forceContiguous hb ha
    obtain ⟨r, hrun, hsound⟩ := blockAllocate_sound hok.vcb hb ha
    refine ⟨r, hrun, ?_, ?_⟩
    · intro hno
      obtain ⟨hin, hclear, hmark⟩ := hsound.success hno
      refine ⟨hin, ?_, ?_⟩
      · intro i hi
        exact ⟨hclear i hi.1 hi.2, (hmark i).trans (if_pos hi)⟩
      · intro i hi
        exact (hmark i).trans (if_neg hi)
    · intro hne
      rw [hsound.failure hne]
      exact ⟨rfl, rfl⟩

/-- A volume of ten blocks, the first of which is used. -/
def tenBlocks : Vcb := ⟨512, 512, 10, fun _ => true, fun _ => 0x800003ff, 9, 9, 0⟩

theorem tenBlocks_ok : tenBlocks.Ok := ⟨⟨by decide, by decide, by decide⟩, fun _ => rfl⟩

/-- Two blocks are taken on it and given back. -/
theorem volume_accounting_roundtrip : ∃ (as : List Event) (t : Volume),
    RunUnder (fun s e => s.Admits e) Volume.step ⟨tenBlocks, []⟩ as t ∧ as.length = 2 ∧
      t.vcb.freeBlocks = clearCount t.vcb.bitmap t.vcb.totalBlocks := by
  have hr : RunUnder (fun s e => s.Admits e) Volume.step ⟨tenBlocks, []⟩
      ([] ++ [.allocate 0 1024 1024 false] ++ [.deallocate 1 2]) _ :=
    .snoc (.snoc (.nil _) ⟨by simp [Volume.Admits, Vcb.Admits, Vcb.startFor, tenBlocks],
      by decide, by decide, _, rfl, rfl⟩) ⟨trivial, by decide, rfl⟩
  exact ⟨_, _, hr, rfl, (volume_accounting tenBlocks_ok hr).1⟩

/-- A starting block behind the volume: the range returned lies behind it too. -/
theorem start_behind_volume_allocates_there : tenBlocks.Ok ∧
    ∃ r, blockAllocate tenBlocks 20 512 512 false = some r ∧ r.err = .noErr ∧
      ¬ (r.actualStartBlock + r.actualNumBlocks ≤ tenBlocks.totalBlocks) :=
  ⟨tenBlocks_ok, _, rfl, rfl, by decide⟩

/-! ## Finding any free block -/

/-- The volume has something free, bitmap blocks of the volume can be read, and the search
starts on the volume. -/
structure Vcb.Serves (vcb : Vcb) (startingBlock : ℕ) : Prop where
  total : vcb.totalBlocks < 2 ^ 32
  reads : ∀ block, block < vcb.totalBlocks → vcb.readable (block / 4096) = true
  count : vcb.freeBlocks = clearCount vcb.bitmap vcb.totalBlocks
  free : ∃ i < vcb.totalBlocks, bitAt vcb.bitmap i = false
  start : vcb.startFor startingBlock < vcb.totalBlocks

/-- The search from the starting block finds nothing and runs into a bitmap block behind the
volume that cannot be read. -/
def Vcb.RunsOff (vcb : Vcb) (startingBlock : ℕ) : Prop :=
  vcb.totalBlocks % 4096 = 0 ∧
  (∀ i, vcb.startFor startingBlock ≤ i → i < vcb.totalBlocks → bitAt vcb.bitmap i = true) ∧
  vcb.readable (vcb.totalBlocks / 4096) = false

theorem Vcb.Serves.crossable {vcb : Vcb} {startingBlock : ℕ} (h : vcb.Serves startingBlock)
    {a b : ℕ} (hb : b < vcb.totalBlocks) : Crossable vcb.readable a b := by
  intro i _ hib _
  exact h.reads i (by omega)

theorem Vcb.Serves.blockAllocate_eq {vcb : Vcb} {startingBlock : ℕ} (h : vcb.Serves startingBlock)
    (bytesRequested bytesMaximum : ℕ) {a : Alloc}
    (ha : (if (blockAllocateAny vcb (vcb.startFor startingBlock) vcb.totalBlocks
        (divideAndRoundUp bytesMaximum vcb.blockSize)).err = .dskFulErr then
      blockAllocateAny { vcb with bitmap := (blockAllocateAny vcb (vcb.startFor startingBlock)
          vcb.totalBlocks (divideAndRoundUp bytesMaximum vcb.blockSize)).bitmap } 0
        (vcb.startFor startingBlock) (divideAndRoundUp bytesMaximum vcb.blockSize)
      else blockAllocateAny vcb (vcb.startFor startingBlock) vcb.totalBlocks
        (divideAndRoundUp bytesMaximum vcb.blockSize)) = a) :
    ∃ r, blockAllocate vcb startingBlock bytesRequested bytesMaximum false = some r ∧
      r.err = a.err ∧ r.actualNumBlocks = a.actualNumBlocks := by
  have h0 : vcb.freeBlocks ≠ 0 := by
    rw [h.count]
    exact (clearCount_pos.mpr h.free).ne'
  unfold blockAllocate
  simp only [if_neg h0, Bool.false_eq_true, false_and, if_false, Option.map_some, ha]
  refine ⟨_, rfl, ?_⟩
  by_cases hno : a.err = .noErr
  · rw [if_pos hno]
    exact ⟨hno.symm, rfl⟩
  · rw [if_neg hno]
    exact ⟨rfl, rfl⟩

theorem Vcb.Serves.fails {vcb : Vcb} {startingBlock : ℕ} (h : vcb.Serves startingBlock)
    (hoff : vcb.RunsOff startingBlock) (bytesRequested : ℕ) {bytesMaximum : ℕ}
    (hmax : 0 < bytesMaximum) :
    ∃ r, blockAllocate vcb startingBlock bytesRequested bytesMaximum false = some r ∧
      r.err = .readErr ∧ r.actualNumBlocks = 0 := by
  obtain ⟨hmod, hall, hunread⟩ := hoff
  have hs := h.start
  rcases blockAllocateAny_spec vcb hs.le h.total (divideAndRoundUp_pos (d := vcb.blockSize) hmax)
    (h.reads _ hs) (h.crossable (by omega)) with
    ⟨first, len, bitmap', h1, h2, -, halloc, -⟩ | ⟨-, -, hfail⟩
  · have hclear := halloc.clear first (le_refl _) (by omega)
    have hin := halloc.inside
    rw [hall first h1 (by omega)] at hclear
    cases hclear
  · have hrun := hfail (fun hc => by
      rw [hc vcb.totalBlocks hs (le_refl _) hmod] at hunread
      cases hunread)
    obtain ⟨r, hr, herr, hnum⟩ := h.blockAllocate_eq bytesRequested bytesMaximum rfl
    refine ⟨r, hr, ?_, ?_⟩
    · rw [herr, hrun]
      simp
    · rw [hnum, hrun]
      simp

theorem Vcb.Serves.succeeds {vcb : Vcb} {startingBlock : ℕ} (h : vcb.Serves startingBlock)
    (hon : ¬ vcb.RunsOff startingBlock) (bytesRequested : ℕ) {bytesMaximum : ℕ}
    (hmax : 0 < bytesMaximum) :
    ∃ r, blockAllocate vcb startingBlock bytesRequested bytesMaximum false = some r ∧
      r.err = .noErr ∧ 1 ≤ r.actualNumBlocks := by
  have hs := h.start
  have ht := h.total
  have hpos := divideAndRoundUp_pos (d := vcb.blockSize) hmax
  rcases blockAllocateAny_spec vcb hs.le h.total hpos (h.reads _ hs) (h.crossable (by omega)) with
    ⟨first, len, bitmap', -, h2, -, -, hrun⟩ | ⟨hall, hful, -⟩
  · obtain ⟨r, hr, herr, hnum⟩ := h.blockAllocate_eq bytesRequested bytesMaximum
      (a := ⟨.noErr, first, len, bitmap'⟩) (by rw [hrun]; simp)
    exact ⟨r, hr, herr, by rw [hnum]; exact h2⟩
  · -- nothing from the starting block on: the clear bit is before it
    have hfirst := hful (by
      intro i hi hit hm
      rcases Nat.eq_or_lt_of_le hit with rfl | hlt
      · by_contra hun
        exact hon ⟨hm, hall, by simpa using hun⟩
      · exact h.reads i hlt)
    obtain ⟨j, hj, hjc⟩ := h.free
    have hjs : j < vcb.startFor startingBlock := by
      by_contra hge
      rw [hall j (by omega) hj] at hjc
      cases hjc
    rcases blockAllocateAny_spec vcb (Nat.zero_le (vcb.startFor startingBlock)) (by omega) hpos
      (h.reads 0 (by omega)) (h.crossable (by omega)) with
      ⟨first, len, bitmap', -, h2, -, -, hrun⟩ | ⟨hall', -, -⟩
    · obtain ⟨r, hr, herr, hnum⟩ := h.blockAllocate_eq bytesRequested bytesMaximum
        (a := ⟨.noErr, first, len, bitmap'⟩) (by rw [hfirst, if_pos rfl]; exact hrun)
      exact ⟨r, hr, herr, by rw [hnum]; exact h2⟩
    · rw [hall' j (Nat.zero_le _) hjs] at hjc
      cases hjc

/-- A request for any blocks on a volume with a clear bit succeeds, except where the search
from the starting block finds none and has to read behind the end of the volume. -/
theorem blockAllocate_finds_space_iff {vcb : Vcb} {startingBlock bytesRequested bytesMaximum : ℕ}
    (h : vcb.Serves startingBlock) (hmax : 0 < bytesMaximum) :
    (∃ r, blockAllocate vcb startingBlock bytesRequested bytesMaximum false = some r ∧
      r.err = .noErr ∧ 1 ≤ r.actualNumBlocks) ↔ ¬ vcb.RunsOff startingBlock := by
  constructor
  · rintro ⟨r, hr, hno, -⟩ hoff
    obtain ⟨r', hr', herr, -⟩ := h.fails hoff bytesRequested hmax
    obtain rfl := Option.some.inj (hr.symm.trans hr')
    rw [hno] at herr
    cases herr
  · intro hon
    exact h.succeeds hon bytesRequested hmax

theorem tenBlocks_serves : tenBlocks.Serves 5 :=
  ⟨by decide, fun _ _ => rfl, by decide, ⟨3, by decide, by decide⟩, by decide⟩

theorem blockAllocate_finds_space_iff_tenBlocks : tenBlocks.Serves 5 ∧
    ∃ r, blockAllocate tenBlocks 5 512 512 false = some r ∧ r.err = .noErr ∧
      1 ≤ r.actualNumBlocks :=
  ⟨tenBlocks_serves, (blockAllocate_finds_space_iff tenBlocks_serves (by decide)).mpr
    (fun hoff => absurd hoff.1 (by decide))⟩

/-- One bitmap block with its last word full: the first word is free. -/
def fullTail : Vcb :=
  ⟨512, 512, 4096, fun k => decide (k = 0), fun i => if i = 0 then 0 else BitVec.allOnes 32,
    clearCount (fun i => if i = 0 then 0 else BitVec.allOnes 32) 4096, 32, 0⟩

/-- The last block of it is asked for first: the call fails though block 0 is free. -/
theorem full_tail_not_found : fullTail.Serves 4095 ∧
    ∃ r, blockAllocate fullTail 4095 512 512 false = some r ∧ r.err = .readErr ∧
      r.actualNumBlocks = 0 := by
  have hs : fullTail.Serves 4095 := by
    refine ⟨by decide, ?_, by simp only [fullTail], ⟨0, by decide, by decide⟩, by decide⟩
    intro block hb
    have hb' : block < 4096 := hb
    simp only [fullTail, decide_eq_true_eq]
    omega
  refine ⟨hs, hs.fails ⟨by decide, ?_, by decide⟩ 512 (by decide)⟩
  intro i h1 h2
  obtain rfl : i = 4095 := by
    have h1' : 4095 ≤ i := h1
    have h2' : i < 4096 := h2
    omega
  decide

end Darwin.Hfs.VolumeAllocation
