import Darwin.Hfs.VolumeRelease

/-! # Allocating while bitmap reads may fail

An allocation whose reads succeed is that of a volume on which every bitmap block can be read. One that
fails may have set bits by then, and has cleared none.
-/
namespace Darwin.Hfs.VolumeAllocation
open Darwin.Lib Function

/-- No bit is cleared. -/
def Keeps (bitmap bitmap' : Bitmap) : Prop := ∀ b, bitAt bitmap b = true → bitAt bitmap' b = true

theorem Keeps.trans {bitmap bitmap' bitmap'' : Bitmap} (h : Keeps bitmap bitmap') (h' : Keeps bitmap' bitmap'') :
    Keeps bitmap bitmap'' := fun b hb => h' b (h b hb)

theorem Keeps.marked {bitmap bitmap' : Bitmap} {first len : ℕ} (h : Marked bitmap bitmap' first len true) :
    Keeps bitmap bitmap' := by
  intro b hb
  rw [h b]
  split_ifs
  · rfl
  · exact hb

theorem keeps_update {bitmap : Bitmap} {k : ℕ} {word : BitVec 32} (h : bitmap k ||| word = word) :
    Keeps bitmap (update bitmap k word) := by
  intro b hb
  rw [bitAt_update]
  split_ifs with hk
  · rw [← h, BitVec.getMsbD_or, ← hk]
    exact Bool.or_eq_true_iff.mpr (.inl hb)
  · exact hb

/-! ## Taking any blocks -/

section
variable {readable : ℕ → Bool} {bitmap : Bitmap}

theorem Cursor.next_reads {block : ℕ} {c c' : Cursor} (h : c.next readable bitmap block = some c') :
    c.next (fun _ => true) bitmap block = some c' := by
  unfold Cursor.next at h ⊢
  dsimp only at h ⊢
  by_cases hmask : c.bitMask >>> 1 = 0
  · rw [if_pos hmask] at h ⊢
    by_cases hleft : c.wordsLeft - 1 = 0
    · rw [if_pos hleft] at h ⊢
      split_ifs at h
      exact h
    · rw [if_neg hleft] at h ⊢
      exact h
  · rw [if_neg hmask] at h ⊢
    exact h

theorem Cursor.next_covers {block : ℕ} {c c' : Cursor} (h : c.next readable bitmap block = some c')
    (hc : c.bitMask >>> 1 ≠ 0 → bitmap c.buffer ||| c.currentWord = c.currentWord) :
    bitmap c'.buffer ||| c'.currentWord = c'.currentWord := by
  unfold Cursor.next at h
  dsimp only at h
  split_ifs at h with hmask hleft hread
  · cases h
    exact BitVec.or_self
  · cases h
    exact BitVec.or_self
  · cases h
    exact hc hmask

theorem findFirst_reads : ∀ (n block : ℕ) {c : Cursor} {r : ℕ × Cursor},
    findFirst readable bitmap n block c = some r → findFirst (fun _ => true) bitmap n block c = some r
  | 0, _, _, _, h => h
  | n + 1, block, c, r, h => by
    rw [findFirst] at h ⊢
    by_cases hbit : c.currentWord &&& c.bitMask = 0
    · rw [if_pos hbit] at h ⊢
      exact h
    · rw [if_neg hbit] at h ⊢
      cases hnext : c.next readable bitmap (block + 1) with
      | none =>
        rw [hnext] at h
        cases h
      | some c' =>
        rw [hnext] at h
        rw [Cursor.next_reads hnext]
        exact findFirst_reads n (block + 1) h

end

/-- An allocation that has failed on a read. -/
structure Alloc.Breaks (a : Alloc) (bitmap : Bitmap) : Prop where
  err : a.err = .readErr
  nothing : a.actualNumBlocks = 0
  keeps : Keeps bitmap a.bitmap

theorem allocateRun_reads {readable : ℕ → Bool} {endingBlock start : ℕ} : ∀ (n : ℕ) {bitmap : Bitmap} {block : ℕ}
    {c : Cursor}, bitmap c.buffer ||| c.currentWord = c.currentWord →
    (allocateRun readable endingBlock start n bitmap block c).Breaks bitmap ∨
      allocateRun (fun _ => true) endingBlock start n bitmap block c =
        allocateRun readable endingBlock start n bitmap block c
  | 0, _, _, _, _ => .inr rfl
  | n + 1, bitmap, block, c, hcovers => by
    have hset : bitmap c.buffer ||| (c.currentWord ||| c.bitMask) = c.currentWord ||| c.bitMask := by
      rw [← BitVec.or_assoc, hcovers]
    have hstored : Keeps bitmap (if c.bitMask >>> 1 = 0 then
        update bitmap c.buffer (c.currentWord ||| c.bitMask) else bitmap) := by
      split_ifs
      · exact keeps_update hset
      · exact fun _ hb => hb
    rw [allocateRun, allocateRun]
    by_cases hbit : c.currentWord &&& c.bitMask = 0
    · rw [if_pos hbit, if_pos hbit]
      dsimp only
      by_cases hend : u32 (block + 1) = endingBlock
      · rw [if_pos hend, if_pos hend]
        exact .inr rfl
      · rw [if_neg hend, if_neg hend]
        cases hnext : Cursor.next readable (if c.bitMask >>> 1 = 0 then
            update bitmap c.buffer (c.currentWord ||| c.bitMask) else bitmap) (u32 (block + 1))
            { c with currentWord := c.currentWord ||| c.bitMask } with
        | none => exact .inl ⟨rfl, rfl, hstored⟩
        | some c' =>
          rw [Cursor.next_reads hnext]
          have hcovers' := Cursor.next_covers hnext (fun hmask => by
            rw [if_neg hmask]
            exact hset)
          exact (allocateRun_reads n hcovers').imp_left fun h => ⟨h.err, h.nothing, hstored.trans h.keeps⟩
    · rw [if_neg hbit, if_neg hbit]
      exact .inr rfl

/-- The same volume, of which every bitmap block can be read. -/
def Vcb.allReadable (vcb : Vcb) : Vcb := { vcb with readable := fun _ => true }

theorem blockAllocateAny_reads {vcb : Vcb} {startingBlock endingBlock maxBlocks totalBlocks : ℕ}
    (hs : startingBlock ≤ endingBlock) (he : endingBlock ≤ totalBlocks) (ht : totalBlocks < 2 ^ 32)
    (hmax : 0 < maxBlocks) {most : ℕ} (hmost : maxBlocks ≤ most) :
    (blockAllocateAny vcb startingBlock endingBlock maxBlocks).Breaks vcb.bitmap ∨
      (blockAllocateAny vcb startingBlock endingBlock maxBlocks).Sound vcb.bitmap totalBlocks 1 most := by
  have hsame : (blockAllocateAny vcb startingBlock endingBlock maxBlocks).Breaks vcb.bitmap ∨
      blockAllocateAny vcb.allReadable startingBlock endingBlock maxBlocks =
        blockAllocateAny vcb startingBlock endingBlock maxBlocks := by
    have hnone : Alloc.Breaks ⟨.readErr, 0, 0, vcb.bitmap⟩ vcb.bitmap := ⟨rfl, rfl, fun _ hb => hb⟩
    by_cases hread : readBitmapBlock vcb.readable startingBlock = true
    · have hread' : readBitmapBlock vcb.allReadable.readable startingBlock = true := rfl
      unfold blockAllocateAny
      dsimp only
      rw [if_pos hread, if_pos hread']
      cases hfirst : findFirst vcb.readable vcb.bitmap (endingBlock - startingBlock) startingBlock
          (Cursor.init vcb.bitmap startingBlock) with
      | none => exact .inl hnone
      | some r =>
        obtain ⟨b, c⟩ := r
        have hfirst' := findFirst_reads _ _ hfirst
        obtain ⟨b', -, -, -, -, hok, -⟩ := findFirst_spec (fun _ => true) (endingBlock - startingBlock) startingBlock
          (Cursor.init_at vcb.bitmap startingBlock) (Cursor.init_word vcb.bitmap startingBlock)
        obtain ⟨c', hc', hat, hword⟩ := hok (fun _ _ _ _ => rfl)
        rw [hfirst'] at hc'
        cases hc'
        rw [show findFirst vcb.allReadable.readable vcb.allReadable.bitmap (endingBlock - startingBlock) startingBlock
          (Cursor.init vcb.allReadable.bitmap startingBlock) = some (b, c) from hfirst']
        dsimp only
        by_cases hend : b = endingBlock
        · rw [if_pos hend, if_pos hend]
          exact .inr rfl
        · rw [if_neg hend, if_neg hend]
          exact allocateRun_reads _ (by rw [hat.buffer, hword, BitVec.or_self])
    · left
      unfold blockAllocateAny
      dsimp only
      rw [if_neg hread]
      exact hnone
  refine hsame.imp_right fun heq => ?_
  rw [← heq]
  exact @blockAllocateAny_sound vcb.allReadable (fun _ => rfl) _ _ _ _ hs he ht hmax _ hmost

/-! ## Finding a contiguous range -/

section
variable {readable : ℕ → Bool} {bitmap : Bitmap} {endingBlock minBlocks : ℕ}

theorem nextWord_reads : ∀ (n : ℕ) {s : Search}, nextWord readable bitmap minBlocks n s = .failed ∨
    nextWord (fun _ => true) bitmap minBlocks n s = nextWord readable bitmap minBlocks n s
  | 0, _ => .inr rfl
  | n + 1, s => by
    have hrec := @nextWord_reads n
    simp only [nextWord]
    by_cases hleft : s.wordsLeft ≠ 0
    · simp only [if_pos hleft]
      split_ifs
      · exact .inr rfl
      · exact hrec
      · exact .inr rfl
    · simp only [if_neg hleft]
      by_cases hread : readBitmapBlock readable s.currentBlock = true
      · have hread' : readBitmapBlock (fun _ => true) s.currentBlock = true := rfl
        simp only [if_pos hread, if_pos hread']
        split_ifs
        · exact .inr rfl
        · exact hrec
        · exact .inr rfl
      · simp only [if_neg hread]
        exact .inl trivial

theorem searchStep_reads {s : Search} : searchStep readable bitmap endingBlock minBlocks s = .failed ∨
    searchStep (fun _ => true) bitmap endingBlock minBlocks s = searchStep readable bitmap endingBlock minBlocks s := by
  have hread' : ∀ b, readBitmapBlock (fun _ => true) b = true := fun _ => rfl
  simp only [searchStep, hread']
  split_ifs
  all_goals first
    | exact .inr rfl
    | exact .inl rfl
    | exact nextWord_reads _

theorem searchLoop_reads : ∀ (n : ℕ) {s : Search},
    searchLoop readable bitmap endingBlock minBlocks n s = some none ∨
      searchLoop (fun _ => true) bitmap endingBlock minBlocks n s =
        searchLoop readable bitmap endingBlock minBlocks n s
  | 0, _ => .inr rfl
  | n + 1, s => by
    rw [searchLoop, searchLoop]
    rcases @searchStep_reads readable bitmap endingBlock minBlocks s with hfailed | hsame
    · rw [hfailed]
      exact .inl rfl
    · rw [hsame]
      cases searchStep readable bitmap endingBlock minBlocks s with
      | more t => exact searchLoop_reads n
      | done t => exact .inr rfl
      | failed => exact .inl rfl

theorem extendRun_reads {maxBlocks : ℕ} : ∀ (n block num : ℕ) {c : Cursor},
    (extendRun readable bitmap maxBlocks n block num c).1 = .readErr ∨
      extendRun (fun _ => true) bitmap maxBlocks n block num c = extendRun readable bitmap maxBlocks n block num c
  | 0, _, _, _ => .inr rfl
  | n + 1, block, num, c => by
    rw [extendRun, extendRun]
    split_ifs
    · exact .inr rfl
    · cases hnext : c.next readable bitmap (block + 1) with
      | none => exact .inl rfl
      | some c' =>
        rw [Cursor.next_reads hnext]
        exact extendRun_reads n (block + 1) (num + 1)
    · exact .inr rfl

end

/-- A search that fails on no read; where the block behind the range cannot be read, it is one for the least
number of blocks. -/
theorem blockFindContiguous_reads {vcb : Vcb} {startingBlock endingBlock minBlocks maxBlocks : ℕ} :
    (∃ first len, blockFindContiguous vcb startingBlock endingBlock minBlocks maxBlocks =
        some (.readErr, first, len)) ∨
      ∃ max', (max' = maxBlocks ∨ max' = minBlocks) ∧
        blockFindContiguous vcb.allReadable startingBlock endingBlock minBlocks max' =
          blockFindContiguous vcb startingBlock endingBlock minBlocks maxBlocks := by
  have hread' : ∀ b, readBitmapBlock (fun _ => true) b = true := fun _ => rfl
  have hreadable : vcb.allReadable.readable = fun _ => true := rfl
  have hbitmap : vcb.allReadable.bitmap = vcb.bitmap := rfl
  unfold blockFindContiguous
  rw [hreadable, hbitmap]
  generalize (2 : ℕ) ^ 35 = fuel
  by_cases hfew : u32Sub endingBlock startingBlock < minBlocks
  · exact .inr ⟨maxBlocks, .inl rfl, by rw [if_pos hfew, if_pos hfew]⟩
  simp only [if_neg hfew, if_pos (hread' _)]
  by_cases hread : readBitmapBlock vcb.readable (u32Sub (u32 (startingBlock + minBlocks)) 1) = true
  · simp only [if_pos hread]
    generalize Search.point vcb.bitmap _ = s₀
    rcases @searchLoop_reads vcb.readable vcb.bitmap endingBlock minBlocks fuel s₀ with hfailed | hsame
    · rw [hfailed]
      exact .inl ⟨0, 0, rfl⟩
    · rw [hsame]
      cases searchLoop vcb.readable vcb.bitmap endingBlock minBlocks fuel s₀ with
      | none => exact .inr ⟨maxBlocks, .inl rfl, rfl⟩
      | some found =>
        cases found with
        | none => exact .inl ⟨0, 0, rfl⟩
        | some t =>
          dsimp only
          by_cases hlow : u32 (t.freeBlocks + t.countedFreeBlocks) < minBlocks
          · simp only [if_pos hlow]
            exact .inr ⟨maxBlocks, .inl rfl, trivial⟩
          · simp only [if_neg hlow, hread', Bool.true_eq_false, and_false, if_false]
            generalize u32Sub t.stopBlock t.countedFreeBlocks = first
            by_cases hpeek : t.currentSector ≠ u32 (first + minBlocks) / 4096 ∧
                readBitmapBlock vcb.readable (u32 (first + minBlocks)) = false
            · refine .inr ⟨minBlocks, .inr rfl, ?_⟩
              rw [if_pos hpeek, if_neg (Nat.lt_irrefl _)]
            · simp only [if_neg hpeek]
              rcases @extendRun_reads vcb.readable vcb.bitmap maxBlocks (endingBlock - u32 (first + minBlocks))
                (u32 (first + minBlocks)) minBlocks (Cursor.init vcb.bitmap (u32 (first + minBlocks))) with herr | hsame'
              · by_cases hmore : minBlocks < maxBlocks
                · left
                  rw [if_pos hmore, herr]
                  exact ⟨_, _, rfl⟩
                · refine .inr ⟨maxBlocks, .inl rfl, ?_⟩
                  rw [if_neg hmore, if_neg hmore]
              · refine .inr ⟨maxBlocks, .inl rfl, ?_⟩
                rw [hsame']
  · rw [if_neg hread]
    exact .inl ⟨0, 0, rfl⟩

/-! ## Marking the range -/

section
variable {readable : ℕ → Bool}

theorem MarkPos.advance_bitmap {p q : MarkPos} (h : p.advance readable = .ok q) : q.bitmap = p.bitmap := by
  unfold MarkPos.advance at h
  dsimp only at h
  split_ifs at h
  · cases h
    rfl
  · cases h
    rfl

theorem MarkPos.advance_error {p : MarkPos} {bitmap : Bitmap} (h : p.advance readable = .error bitmap) :
    bitmap = p.bitmap := by
  unfold MarkPos.advance at h
  dsimp only at h
  split_ifs at h
  cases h
  rfl

theorem markWords_keeps (n : ℕ) : ∀ {p : MarkPos},
    (∀ q, markWords readable (BitVec.allOnes 32) n p = .ok q → Keeps p.bitmap q.bitmap) ∧
      ∀ bitmap, markWords readable (BitVec.allOnes 32) n p = .error bitmap → Keeps p.bitmap bitmap := by
  induction n with
  | zero =>
    intro p
    refine ⟨?_, fun _ h => by cases h⟩
    rintro q ⟨⟩
    exact fun _ hb => hb
  | succ n ih =>
    intro p
    rw [markWords]
    cases hadvance : p.advance readable with
    | error bitmap =>
      refine ⟨(fun _ h => by cases h), ?_⟩
      rintro _ ⟨⟩
      rw [MarkPos.advance_error hadvance]
      exact fun _ hb => hb
    | ok p' =>
      have hstore : Keeps p.bitmap (p'.store (BitVec.allOnes 32)).bitmap := by
        rw [← MarkPos.advance_bitmap hadvance]
        exact keeps_update BitVec.or_allOnes
      obtain ⟨hok, herror⟩ := @ih (p'.store (BitVec.allOnes 32))
      exact ⟨fun q h => hstore.trans (hok q h), fun bitmap h => hstore.trans (herror bitmap h)⟩

theorem blockMarkAllocated_keeps (bitmap : Bitmap) (startingBlock numBlocks : ℕ) :
    Keeps bitmap (blockMarkAllocated readable bitmap startingBlock numBlocks).2 := by
  have hput : ∀ word mask : BitVec 32, word ||| (word ||| mask) = word ||| mask := by
    intro word mask
    rw [← BitVec.or_assoc, BitVec.or_self]
  unfold blockMarkAllocated blockMark
  split_ifs
  · dsimp only
    generalize hp : MarkPos.mk bitmap startingBlock _ _ = p
    have hhead : Keeps bitmap (markHead (fun word mask => word ||| mask) p numBlocks).1.bitmap := by
      rw [show bitmap = p.bitmap by rw [← hp], markHead]
      dsimp only
      split_ifs
      · exact keeps_update (hput _ _)
      · exact keeps_update (hput _ _)
      · exact fun _ hb => hb
    generalize markHead (fun word mask => word ||| mask) p numBlocks = head at hhead ⊢
    refine hhead.trans ?_
    obtain ⟨hok, herror⟩ := @markWords_keeps readable (head.2 / 32) head.1
    unfold markRest
    cases hwords : markWords readable (BitVec.allOnes 32) (head.2 / 32) head.1 with
    | error bitmap' => exact herror _ hwords
    | ok q =>
      dsimp only
      split_ifs
      · cases hadvance : q.advance readable with
        | error bitmap' =>
          rw [MarkPos.advance_error hadvance]
          exact hok q hwords
        | ok q' =>
          refine (hok q hwords).trans ?_
          rw [← MarkPos.advance_bitmap hadvance]
          exact keeps_update (hput _ _)
      · exact hok q hwords
  · exact fun _ hb => hb

end

theorem blockMark_err {put : BitVec 32 → BitVec 32 → BitVec 32} {whole : BitVec 32} {readable : ℕ → Bool}
    (bitmap : Bitmap) (startingBlock numBlocks : ℕ) :
    (blockMark put whole readable bitmap startingBlock numBlocks).1 = .noErr ∨
      (blockMark put whole readable bitmap startingBlock numBlocks).1 = .readErr := by
  unfold blockMark
  split_ifs
  · dsimp only
    unfold markRest
    generalize markHead put _ numBlocks = head
    cases markWords readable whole (head.2 / 32) head.1 with
    | error bitmap' => exact .inr rfl
    | ok q =>
      dsimp only
      split_ifs
      · cases q.advance readable with
        | error bitmap' => exact .inr rfl
        | ok q' => exact .inl rfl
      · exact .inl rfl
  · exact .inr rfl

/-! ## An allocation -/

theorem blockAllocateContig_reads {vcb : Vcb} {startingBlock minBlocks : ℕ} (maxBlocks : ℕ) (hm : minBlocks < 2 ^ 31)
    (ht : vcb.totalBlocks < 2 ^ 32) (hs : startingBlock ≤ vcb.totalBlocks) :
    ∃ a, blockAllocateContig vcb startingBlock minBlocks maxBlocks = some a ∧
      (a.Breaks vcb.bitmap ∨ a.Sound vcb.bitmap vcb.totalBlocks minBlocks (max minBlocks maxBlocks)) := by
  have hone : ∀ start ≤ vcb.totalBlocks, ∃ r, blockFindContiguous vcb start vcb.totalBlocks minBlocks maxBlocks =
      some r ∧ (r = (.dskFulErr, 0, 0) ∨ r.1 = .readErr ∨ (r.1 = .noErr ∧ minBlocks ≤ r.2.2 ∧
        r.2.2 ≤ max minBlocks maxBlocks ∧ r.2.1 + r.2.2 ≤ vcb.totalBlocks ∧
        ∀ i, r.2.1 ≤ i → i < r.2.1 + r.2.2 → bitAt vcb.bitmap i = false)) := by
    intro start hstart
    rcases @blockFindContiguous_reads vcb start vcb.totalBlocks minBlocks maxBlocks with
      ⟨first, len, hfailed⟩ | ⟨max', hmax, hsame⟩
    · exact ⟨_, hfailed, .inr (.inl rfl)⟩
    · rw [← hsame]
      have hle : max minBlocks max' ≤ max minBlocks maxBlocks := by
        rcases hmax with rfl | rfl
        · exact le_refl _
        · rw [max_self]
          exact le_max_left _ _
      rcases @blockFindContiguous_spec vcb.allReadable (fun _ => rfl) start minBlocks max' hm ht hstart with
        hfull | ⟨first, len, hfound, hlen, hmost, hin, hclear⟩
      · exact ⟨_, hfull, .inl rfl⟩
      · exact ⟨_, hfound, .inr (.inr ⟨rfl, hlen, hmost.trans hle, hin, hclear⟩)⟩
  -- the range found, from the starting block or from the beginning of the volume
  have hfound : ∃ r, ((blockFindContiguous vcb startingBlock vcb.totalBlocks minBlocks
        maxBlocks).bind (fun r => if r.1 = .dskFulErr then
          blockFindContiguous vcb 0 vcb.totalBlocks minBlocks maxBlocks else some r)) = some r ∧
      (r = (.dskFulErr, 0, 0) ∨ r.1 = .readErr ∨ (r.1 = .noErr ∧ minBlocks ≤ r.2.2 ∧
        r.2.2 ≤ max minBlocks maxBlocks ∧ r.2.1 + r.2.2 ≤ vcb.totalBlocks ∧
        ∀ i, r.2.1 ≤ i → i < r.2.1 + r.2.2 → bitAt vcb.bitmap i = false)) := by
    obtain ⟨r, hr, hcases⟩ := hone startingBlock hs
    rw [hr, Option.bind_some]
    by_cases hfull : r.1 = .dskFulErr
    · rw [if_pos hfull]
      exact hone 0 (Nat.zero_le _)
    · rw [if_neg hfull]
      exact ⟨r, rfl, hcases⟩
  obtain ⟨r, hr, hcases⟩ := hfound
  rw [blockAllocateContig, hr, Option.map_some]
  refine ⟨_, rfl, ?_⟩
  rcases hcases with rfl | herr | ⟨hno, hlen, hmost, hin, hclear⟩
  · rw [if_pos (by decide)]
    exact .inr (.inr ⟨by simp, rfl, rfl, rfl⟩)
  · rw [if_pos (by rw [herr]; decide)]
    exact .inl ⟨herr, rfl, fun _ hb => hb⟩
  · rw [if_neg (by rw [hno]; decide)]
    have hkeeps := @blockMarkAllocated_keeps vcb.readable vcb.bitmap r.2.1 r.2.2
    cases hmark : blockMarkAllocated vcb.readable vcb.bitmap r.2.1 r.2.2 with
    | mk err bitmap' =>
      rw [hmark] at hkeeps
      dsimp only at hkeeps ⊢
      rcases @blockMark_err (fun word mask => word ||| mask) (BitVec.allOnes 32) vcb.readable vcb.bitmap r.2.1 r.2.2 with hnoErr | hread
      · have herr : err = .noErr := (congrArg Prod.fst hmark).symm.trans hnoErr
        subst herr
        obtain ⟨bitmap'', hall, hmarked⟩ := @blockMarkAllocated_spec (fun _ => true) vcb.bitmap r.2.1 r.2.2
          (fun _ _ => rfl) (by omega)
        have hsame := (blockMark_reads hmark).symm.trans hall
        rw [if_neg (by decide), (Prod.mk.inj hsame).2]
        exact .inr (.inl ⟨rfl, hlen, hmost, hin, hclear, hmarked⟩)
      · have herr : err = .readErr := (congrArg Prod.fst hmark).symm.trans hread
        subst herr
        rw [if_pos (by decide)]
        exact .inl ⟨rfl, rfl, hkeeps⟩

/-- A call of `BlockAllocate` that has failed on a read. -/
structure Result.Breaks (r : Result) (vcb : Vcb) : Prop where
  err : r.err = .readErr
  rest : r.vcb = { vcb with bitmap := r.vcb.bitmap }
  keeps : Keeps vcb.bitmap r.vcb.bitmap

theorem blockAllocate_reads {vcb : Vcb} (h : vcb.Counted) {startingBlock bytesRequested bytesMaximum : ℕ}
    {forceContiguous : Bool} (hb : bytesRequested < 2 ^ 32)
    (ha : vcb.Admits startingBlock bytesMaximum forceContiguous) :
    ∃ r, blockAllocate vcb startingBlock bytesRequested bytesMaximum forceContiguous = some r ∧
      (r.Breaks vcb ∨
        r.Sound vcb (if forceContiguous then divideAndRoundUp bytesRequested vcb.blockSize else 1)
          (max (divideAndRoundUp bytesRequested vcb.blockSize)
            (divideAndRoundUp bytesMaximum vcb.blockSize))) := by
  obtain ⟨r, hrun, ⟨a, hbreaks, rfl⟩ | hsound⟩ := blockAllocate_cases h hb ha (fun _ hbreaks => hbreaks.err)
    (fun maxBlocks hm hs => blockAllocateContig_reads maxBlocks hm h.total hs)
    (fun hs he hmax hmost => blockAllocateAny_reads hs he h.total hmax hmost)
  · exact ⟨_, hrun, .inl ⟨hbreaks.err, rfl, hbreaks.keeps⟩⟩
  · exact ⟨r, hrun, .inr hsound⟩

end Darwin.Hfs.VolumeAllocation
