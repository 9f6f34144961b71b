import Darwin.Hfs.VolumeScan

/-! # The search for a contiguous range of free blocks

`BlockFindContiguous` looks at a window of `minBlocks` blocks from its far end. A used
block moves the window behind it, and the free blocks seen on the way are not looked at
again. The invariant of the backward loop speaks of the window: its lower part was counted
before, its upper part has been seen since.
-/
namespace Darwin.Hfs.VolumeAllocation
open Darwin.Lib

section
variable {readable : ℕ → Bool} {bitmap : Bitmap} {endingBlock minBlocks : ℕ}

/-- The search stands at the bit of `block`. -/
structure Search.At (s : Search) (bitmap : Bitmap) (block : ℕ) : Prop where
  mask : s.bitMask = maskAt 32 (block % 32)
  sector : s.currentSector = block / 4096
  left : s.wordsLeft = block % 4096 / 32
  word : s.tempWord = bitmap (block / 32)

/-- The window of the search: `minBlocks` blocks below `endingBlock`, whose first
`countedFreeBlocks` are free and whose last `freeBlocks` are free. -/
structure Search.Window (s : Search) (bitmap : Bitmap) (endingBlock minBlocks : ℕ) : Prop where
  counted : s.countedFreeBlocks ≤ s.stopBlock
  size : s.currentBlock + s.freeBlocks + s.countedFreeBlocks + 1 = s.stopBlock + minBlocks
  above : s.stopBlock ≤ s.currentBlock + 1
  inside : s.currentBlock + s.freeBlocks < endingBlock
  low : ∀ i, s.stopBlock - s.countedFreeBlocks ≤ i → i < s.stopBlock → bitAt bitmap i = false
  high : ∀ i, s.currentBlock < i → i ≤ s.currentBlock + s.freeBlocks → bitAt bitmap i = false

/-- Enough free blocks in a row have been found, from `stopBlock - countedFreeBlocks` on. -/
structure Search.Found (s : Search) (bitmap : Bitmap) (endingBlock minBlocks : ℕ) : Prop where
  counted : s.countedFreeBlocks ≤ s.stopBlock
  stop : s.stopBlock ≤ endingBlock
  enough : minBlocks ≤ s.freeBlocks + s.countedFreeBlocks
  small : s.freeBlocks + s.countedFreeBlocks < 2 ^ 32
  inside : s.stopBlock - s.countedFreeBlocks + minBlocks ≤ endingBlock
  clear : ∀ i, s.stopBlock - s.countedFreeBlocks ≤ i →
    i < s.stopBlock - s.countedFreeBlocks + minBlocks → bitAt bitmap i = false

/-- The block at which the window begins. -/
def Search.first (s : Search) : ℕ := s.stopBlock - s.countedFreeBlocks

theorem Search.first_eq {s t : Search} (hstop : t.stopBlock = s.stopBlock)
    (hcounted : t.countedFreeBlocks = s.countedFreeBlocks) : t.first = s.first := by
  rw [Search.first, Search.first, hstop, hcounted]

/-- The blocks from `b` on are free, `minBlocks` of them. -/
def Run (bitmap : Bitmap) (minBlocks b : ℕ) : Prop :=
  ∀ i, b ≤ i → i < b + minBlocks → bitAt bitmap i = false

theorem Search.Found.run {s : Search} (h : s.Found bitmap endingBlock minBlocks) :
    Run bitmap minBlocks s.first := h.clear

/-- The window is the first one, or begins behind a used block; a range of free blocks does not
begin below it. -/
structure Search.Lowest (s : Search) (bitmap : Bitmap) (startingBlock minBlocks : ℕ) : Prop where
  start : s.countedFreeBlocks = 0 ∧ s.stopBlock = startingBlock ∨ startingBlock < s.first
  skipped : ∀ b, startingBlock ≤ b → Run bitmap minBlocks b → s.first ≤ b

/-- The current word has been reached from the word above because it has a used block, or the
window begins in it. -/
def Search.Entered (s : Search) : Prop :=
  s.tempWord ≠ 0 ∨ (s.currentBlock + s.freeBlocks) / 32 = s.currentBlock / 32

/-- The number of blocks does not wrap when a word of free blocks is added to it. -/
def Search.NoWrap (s : Search) (minBlocks : ℕ) : Prop :=
  s.countedFreeBlocks = 0 ∨ minBlocks + 32 < 2 ^ 32 ∨ minBlocks ≤ s.stopBlock ∧ s.stopBlock % 32 ≠ 0

theorem Search.Window.small {s : Search} (h : s.Window bitmap endingBlock minBlocks)
    (hwrap : s.NoWrap minBlocks) (he : endingBlock < 2 ^ 32) (hword : (s.currentBlock + 1) % 32 = 0) :
    s.freeBlocks + 32 + s.countedFreeBlocks < 2 ^ 32 := by
  obtain ⟨hcnt, hsize, habove, hins, -, -⟩ := h
  rcases hwrap with h0 | hsmall | ⟨hle, hmid⟩ <;> omega

theorem maskAt_last : (1 : BitVec 32) = maskAt 32 31 := by decide

theorem nextWord_word (hr : ∀ b < endingBlock, readBitmapBlock readable b = true) (n : ℕ) {s : Search}
    (hlt : s.currentBlock < endingBlock) (hword : (s.currentBlock + 1) % 32 = 0)
    (hsec : s.currentSector = (s.currentBlock + 1) / 4096)
    (hleft : s.wordsLeft = (s.currentBlock + 1) % 4096 / 32) :
    nextWord readable bitmap minBlocks (n + 1) s =
      if bitmap (s.currentBlock / 32) = 0 then
        if minBlocks ≤ u32 (u32 (s.freeBlocks + 32) + s.countedFreeBlocks) then
          .done ⟨s.stopBlock, u32Sub s.currentBlock 32, u32 (s.freeBlocks + 32), s.countedFreeBlocks,
            s.currentBlock / 4096, s.currentBlock % 4096 / 32, bitmap (s.currentBlock / 32), s.bitMask⟩
        else nextWord readable bitmap minBlocks n
          ⟨s.stopBlock, u32Sub s.currentBlock 32, u32 (s.freeBlocks + 32), s.countedFreeBlocks,
            s.currentBlock / 4096, s.currentBlock % 4096 / 32, bitmap (s.currentBlock / 32), s.bitMask⟩
      else .more ⟨s.stopBlock, s.currentBlock, s.freeBlocks, s.countedFreeBlocks,
        s.currentBlock / 4096, s.currentBlock % 4096 / 32, bitmap (s.currentBlock / 32), s.bitMask⟩ := by
  have hmoved : (if s.wordsLeft ≠ 0 then some { s with wordsLeft := s.wordsLeft - 1 }
      else if readBitmapBlock readable s.currentBlock = true then
        some { s with currentSector := s.currentBlock / 4096, wordsLeft := 127 } else none) =
      some { s with currentSector := s.currentBlock / 4096,
                    wordsLeft := s.currentBlock % 4096 / 32 } := by
    by_cases h0 : s.wordsLeft = 0
    · rw [if_neg (by simpa using h0), hr _ hlt, if_pos rfl]
      have h : s.currentBlock % 4096 / 32 = 127 := by omega
      rw [h]
    · rw [if_pos h0]
      have h1 : s.currentSector = s.currentBlock / 4096 := by omega
      have h2 : s.wordsLeft - 1 = s.currentBlock % 4096 / 32 := by omega
      rw [h2, ← h1]
  have hidx : s.currentBlock / 4096 * 128 + s.currentBlock % 4096 / 32 = s.currentBlock / 32 := by
    omega
  rw [nextWord, hmoved]
  dsimp only
  rw [hidx]

theorem nextWord_spec (hr : ∀ b < endingBlock, readBitmapBlock readable b = true)
    (he : endingBlock < 2 ^ 32) : ∀ (n : ℕ) {s : Search},
    s.Window bitmap endingBlock minBlocks → s.NoWrap minBlocks → (s.currentBlock + 1) % 32 = 0 →
    s.bitMask = maskAt 32 31 → s.currentSector = (s.currentBlock + 1) / 4096 →
    s.wordsLeft = (s.currentBlock + 1) % 4096 / 32 →
    minBlocks < 32 * n + s.freeBlocks + s.countedFreeBlocks →
    (∃ t, nextWord readable bitmap minBlocks n s = .done t ∧ t.Found bitmap endingBlock minBlocks ∧
      t.first = s.first) ∨
    (∃ t, nextWord readable bitmap minBlocks n s = .more t ∧
      t.Window bitmap endingBlock minBlocks ∧ t.At bitmap t.currentBlock ∧ t.tempWord ≠ 0 ∧
      t.stopBlock = s.stopBlock ∧ t.countedFreeBlocks = s.countedFreeBlocks ∧ t.currentBlock ≤ s.currentBlock ∧
      t.currentBlock + t.freeBlocks = s.currentBlock + s.freeBlocks)
  | 0, s, hwin, hwrap, hword, hmask, hsec, hleft, hn => by
    obtain ⟨-, hsize, habove, -⟩ := hwin
    omega
  | n + 1, s, hwin, hwrap, hword, hmask, hsec, hleft, hn => by
    have hsum := hwin.small hwrap he hword
    obtain ⟨hcnt, hsize, habove, hins, hlow, hhigh⟩ := hwin
    rw [nextWord_word hr n (by omega) hword hsec hleft]
    by_cases hz : bitmap (s.currentBlock / 32) = 0
    · have hzero : ∀ i, s.currentBlock < i + 32 → i ≤ s.currentBlock → bitAt bitmap i = false := by
        intro i h1 h2
        rw [bitAt, show i / 32 = s.currentBlock / 32 by omega, hz]
        simp
      rw [if_pos hz, u32_eq (x := s.freeBlocks + 32) (by omega),
        u32_eq (x := s.freeBlocks + 32 + s.countedFreeBlocks) (by omega)]
      by_cases hfound : minBlocks ≤ s.freeBlocks + 32 + s.countedFreeBlocks
      · rw [if_pos hfound]
        refine Or.inl ⟨_, rfl, ⟨hcnt, ?_, ?_, ?_, ?_, ?_⟩, Search.first_eq rfl rfl⟩
        · dsimp only
          omega
        · exact hfound
        · dsimp only
          omega
        · dsimp only
          omega
        · dsimp only
          intro i h1 h2
          rcases Nat.lt_or_ge i s.stopBlock with hi | hi
          · exact hlow i h1 hi
          · rcases Nat.lt_or_ge s.currentBlock i with hi' | hi'
            · exact hhigh i hi' (by omega)
            · exact hzero i (by omega) hi'
      · rw [if_neg hfound]
        have hsub : u32Sub s.currentBlock 32 = s.currentBlock - 32 := u32Sub_eq (by omega) (by omega)
        rw [hsub]
        have hwin' : Search.Window ⟨s.stopBlock, s.currentBlock - 32, s.freeBlocks + 32,
            s.countedFreeBlocks, s.currentBlock / 4096, s.currentBlock % 4096 / 32,
            bitmap (s.currentBlock / 32), s.bitMask⟩ bitmap endingBlock minBlocks := by
          refine ⟨hcnt, ?_, ?_, ?_, hlow, ?_⟩
          · dsimp only
            omega
          · dsimp only
            omega
          · dsimp only
            omega
          · dsimp only
            intro i h1 h2
            rcases Nat.lt_or_ge s.currentBlock i with hi | hi
            · exact hhigh i hi (by omega)
            · exact hzero i (by omega) hi
        rcases nextWord_spec hr he n hwin' hwrap (by dsimp only; omega) hmask (by dsimp only; omega)
          (by dsimp only; omega) (by dsimp only; omega) with hdone | ⟨t, ht, h1, h2, h3, h4, h5, h6, h7⟩
        · exact Or.inl hdone
        · dsimp only at h6 h7
          exact Or.inr ⟨t, ht, h1, h2, h3, h4, h5, by omega, by omega⟩
    · rw [if_neg hz]
      refine Or.inr ⟨_, rfl, ⟨hcnt, hsize, habove, hins, hlow, hhigh⟩, ⟨?_, rfl, rfl, rfl⟩, hz,
        rfl, rfl, le_refl _, rfl⟩
      dsimp only
      rw [hmask]
      congr 1
      omega

/-- Below block 0 the block number wraps and the loop goes on in a word that is not zero:
it ends at the last used bit of that word, with what was found still found. -/
theorem searchLoop_wrapped : ∀ (k n : ℕ) {s : Search}, k < 32 → k < n →
    s.Found bitmap endingBlock minBlocks → s.stopBlock = 0 →
    s.freeBlocks + s.countedFreeBlocks + k + 1 < 2 ^ 32 → s.bitMask = maskAt 32 k →
    s.tempWord ≠ 0 → (∀ i, k < i → i < 32 → s.tempWord.getMsbD i = false) →
    ∃ t, searchLoop readable bitmap endingBlock minBlocks n s = some (some t) ∧
      t.Found bitmap endingBlock minBlocks ∧ t.first = s.first
  | k, 0, s, hk, hn, hfound, hstop, hsmall, hmask, hne, hclear => by omega
  | k, n + 1, s, hk, hn, hfound, hstop, hsmall, hmask, hne, hclear => by
    have hge : ¬ (s.currentBlock < s.stopBlock) := by omega
    by_cases hbit : s.tempWord.getMsbD k = false
    · have ht : s.tempWord &&& s.bitMask = 0 := by
        rw [hmask]
        exact (and_maskAt_eq_zero hk).mpr hbit
      have hclear' : ∀ i, k ≤ i → i < 32 → s.tempWord.getMsbD i = false := by
        intro i h1 h2
        rcases Nat.eq_or_lt_of_le h1 with rfl | hlt
        · exact hbit
        · exact hclear i hlt h2
      cases k with
      | zero =>
        refine absurd (BitVec.eq_of_getMsbD_eq (fun i hi => ?_)) hne
        rw [hclear' i (by omega) hi]
        simp
      | succ k =>
        have hshift : s.bitMask <<< 1 = maskAt 32 k := by
          rw [hmask, maskAt_shiftLeft hk, if_neg (by omega)]
          rfl
        have hnz : maskAt 32 k ≠ 0 := by
          rw [Ne, maskAt_eq_zero]
          omega
        have hstep : searchStep readable bitmap endingBlock minBlocks s =
            .more { s with freeBlocks := s.freeBlocks + 1,
                           currentBlock := u32Sub s.currentBlock 1, bitMask := maskAt 32 k } := by
          simp only [searchStep, if_neg hge, if_pos ht, hshift, if_neg hnz]
          rw [u32_eq (by omega)]
        obtain ⟨t, ht', hf⟩ := searchLoop_wrapped k n (s := { s with
            freeBlocks := s.freeBlocks + 1, currentBlock := u32Sub s.currentBlock 1,
            bitMask := maskAt 32 k }) (by omega) (by omega)
          ⟨hfound.counted, hfound.stop, Nat.le_trans hfound.enough (by dsimp only; omega), by dsimp only; omega,
            hfound.inside, hfound.clear⟩ hstop (by dsimp only; omega) rfl hne
          (fun i h1 h2 => hclear' i (by omega) h2)
        refine ⟨t, ?_, hf.1, hf.2.trans (Search.first_eq rfl rfl)⟩
        simp only [searchLoop, hstep]
        exact ht'
    · have ht : ¬ (s.tempWord &&& s.bitMask = 0) := by
        rw [hmask, and_maskAt_eq_zero hk]
        exact hbit
      have hen : u32 (s.freeBlocks + s.countedFreeBlocks) ≥ minBlocks := by
        rw [u32_eq hfound.small]
        exact hfound.enough
      refine ⟨s, ?_, hfound, rfl⟩
      simp only [searchLoop, searchStep, if_neg hge, if_neg ht, if_pos hen]

theorem Search.Window.found {s : Search} (h : s.Window bitmap endingBlock minBlocks)
    (he : endingBlock < 2 ^ 32) (hlt : s.currentBlock < s.stopBlock) :
    s.Found bitmap endingBlock minBlocks := by
  obtain ⟨hcnt, hsize, habove, hins, hlow, hhigh⟩ := h
  refine ⟨hcnt, by omega, by omega, by omega, by omega, ?_⟩
  intro i h1 h2
  rcases Nat.lt_or_ge i s.stopBlock with hi | hi
  · exact hlow i h1 hi
  · exact hhigh i (by omega) (by omega)

/-- No `minBlocks` free blocks in a row between the two blocks. -/
def NoRun (bitmap : Bitmap) (startingBlock endingBlock minBlocks : ℕ) : Prop :=
  ∀ b, startingBlock ≤ b → b + minBlocks ≤ endingBlock → ¬ Run bitmap minBlocks b

/-- The same window with less of it left to look at. -/
structure Search.Below (t s : Search) (bitmap : Bitmap) (endingBlock minBlocks : ℕ) : Prop where
  window : t.Window bitmap endingBlock minBlocks
  pos : t.At bitmap t.currentBlock
  entered : t.Entered
  stop : t.stopBlock = s.stopBlock
  counted : t.countedFreeBlocks = s.countedFreeBlocks
  top : t.currentBlock + t.freeBlocks = s.currentBlock + s.freeBlocks
  lower : t.currentBlock < s.currentBlock

/-- What a free block at the start of a word comes to: the word below is looked at, or the block
is block 0 and the block number wraps. -/
inductive Search.Descends (s : Search) (readable : ℕ → Bool) (bitmap : Bitmap) (endingBlock minBlocks : ℕ) :
    Walk → Prop where
  | found {t : Search} : t.Found bitmap endingBlock minBlocks → t.first = s.first →
      32 < s.first + minBlocks ∨ readBitmapBlock readable (2 ^ 32 - 1) = true →
      Search.Descends s readable bitmap endingBlock minBlocks (.done t)
  | below {t : Search} : t.Below s bitmap endingBlock minBlocks →
      Search.Descends s readable bitmap endingBlock minBlocks (.more t)
  | wrapped {t : Search} : t.Found bitmap endingBlock minBlocks → t.first = s.first → t.stopBlock = 0 →
      t.freeBlocks + t.countedFreeBlocks ≤ 32 → t.bitMask = maskAt 32 31 → t.tempWord ≠ 0 →
      readBitmapBlock readable (2 ^ 32 - 1) = true →
      Search.Descends s readable bitmap endingBlock minBlocks (.more t)
  | failed : readBitmapBlock readable (2 ^ 32 - 1) = false → s.stopBlock = 0 → minBlocks ≤ 32 →
      Run bitmap minBlocks 0 → Search.Descends s readable bitmap endingBlock minBlocks .failed

/-- What a used block comes to: the window is moved behind it, or there is no place for that. When
the block number wraps at the upper end, the next turn gives up. -/
inductive Search.Skips (s : Search) (bitmap : Bitmap) (startingBlock endingBlock minBlocks : ℕ) : Walk → Prop where
  | noRun {t : Search} : NoRun bitmap startingBlock endingBlock minBlocks →
      u32 (t.freeBlocks + t.countedFreeBlocks) < minBlocks →
      Search.Skips s bitmap startingBlock endingBlock minBlocks (.done t)
  | moved {t : Search} : t.Window bitmap endingBlock minBlocks → t.At bitmap t.currentBlock → t.Entered →
      t.first = s.currentBlock + 1 → t.stopBlock = s.first + minBlocks →
      t.currentBlock = s.currentBlock + minBlocks → t.freeBlocks = 0 →
      Search.Skips s bitmap startingBlock endingBlock minBlocks (.more t)
  | gaveUp {t : Search} : NoRun bitmap startingBlock endingBlock minBlocks → t.currentBlock < t.stopBlock →
      u32 (t.freeBlocks + t.countedFreeBlocks) < minBlocks →
      Search.Skips s bitmap startingBlock endingBlock minBlocks (.more t)

theorem Search.Window.top {s : Search} (h : s.Window bitmap endingBlock minBlocks) :
    s.first + minBlocks = s.currentBlock + s.freeBlocks + 1 := by
  have hcnt := h.counted
  have hsize := h.size
  rw [Search.first]
  omega

theorem searchStep_inside (readable : ℕ → Bool) (he : endingBlock < 2 ^ 32) {s : Search}
    (hwin : s.Window bitmap endingBlock minBlocks) (hat : s.At bitmap s.currentBlock) (hent : s.Entered)
    (hge : s.stopBlock ≤ s.currentBlock) (hbit : bitAt bitmap s.currentBlock = false)
    (hw : s.currentBlock % 32 ≠ 0) : ∃ t,
    searchStep readable bitmap endingBlock minBlocks s = .more t ∧ t.Below s bitmap endingBlock minBlocks ∧
      t.currentBlock + 1 = s.currentBlock := by
  obtain ⟨hcnt, hsize, habove, hins, hlow, hhigh⟩ := hwin
  have ht : s.tempWord &&& s.bitMask = 0 := by
    rw [hat.mask, and_maskAt_eq_zero (by omega), hat.word]
    exact hbit
  have hshift : s.bitMask <<< 1 = maskAt 32 (s.currentBlock % 32 - 1) := by
    rw [hat.mask, maskAt_shiftLeft (by omega), if_neg hw]
  have hsub : u32Sub s.currentBlock 1 = s.currentBlock - 1 := u32Sub_eq (by omega) (by omega)
  simp only [searchStep, if_neg (not_lt.mpr hge), if_pos ht, hshift]
  rw [u32_eq (x := s.freeBlocks + 1) (by omega), if_neg (by rw [maskAt_eq_zero]; omega), hsub]
  refine ⟨_, rfl, ⟨⟨hcnt, ?_, ?_, ?_, hlow, ?_⟩, ⟨?_, ?_, ?_, ?_⟩, ?_, rfl, rfl, ?_, ?_⟩, ?_⟩
  · dsimp only
    omega
  · dsimp only
    omega
  · dsimp only
    omega
  · dsimp only
    intro i h1 h2
    rcases Nat.eq_or_lt_of_le (show s.currentBlock ≤ i by omega) with rfl | hlt
    · exact hbit
    · exact hhigh i hlt (by omega)
  · dsimp only
    rw [show s.currentBlock % 32 - 1 = (s.currentBlock - 1) % 32 by omega]
  · dsimp only
    rw [hat.sector]
    omega
  · dsimp only
    rw [hat.left]
    omega
  · dsimp only
    rw [hat.word, show s.currentBlock / 32 = (s.currentBlock - 1) / 32 by omega]
  · refine hent.imp_right (fun hsame => ?_)
    dsimp only
    omega
  · dsimp only
    omega
  · dsimp only
    omega
  · dsimp only
    omega

/-- The position at the label `NextWord`, below a free block at the start of a word. -/
def Search.descend (s : Search) : Search :=
  { s with freeBlocks := s.freeBlocks + 1, currentBlock := u32Sub s.currentBlock 1, bitMask := 1 }

theorem Search.descend_stopBlock (s : Search) : s.descend.stopBlock = s.stopBlock := by
  cases s
  rfl

theorem Search.descend_freeBlocks (s : Search) : s.descend.freeBlocks = s.freeBlocks + 1 := by
  cases s
  rfl

theorem Search.descend_countedFreeBlocks (s : Search) :
    s.descend.countedFreeBlocks = s.countedFreeBlocks := by
  cases s
  rfl

theorem Search.descend_currentSector (s : Search) : s.descend.currentSector = s.currentSector := by
  cases s
  rfl

theorem Search.descend_wordsLeft (s : Search) : s.descend.wordsLeft = s.wordsLeft := by
  cases s
  rfl

theorem Search.descend_currentBlock (s : Search) : s.descend.currentBlock = u32Sub s.currentBlock 1 := by
  cases s
  rfl

theorem Search.descend_bitMask (s : Search) : s.descend.bitMask = maskAt 32 31 := by
  cases s
  exact maskAt_last

theorem searchStep_word (readable : ℕ → Bool) (he : endingBlock < 2 ^ 32) {s : Search}
    (hwin : s.Window bitmap endingBlock minBlocks) (hat : s.At bitmap s.currentBlock)
    (hge : s.stopBlock ≤ s.currentBlock) (hbit : bitAt bitmap s.currentBlock = false)
    (hw : s.currentBlock % 32 = 0) : searchStep readable bitmap endingBlock minBlocks s =
      nextWord readable bitmap minBlocks (minBlocks / 32 + 2) s.descend := by
  have hins := hwin.inside
  have ht : s.tempWord &&& s.bitMask = 0 := by
    rw [hat.mask, and_maskAt_eq_zero (by omega), hat.word]
    exact hbit
  have hshift : s.bitMask <<< 1 = 0 := by
    rw [hat.mask, maskAt_shiftLeft (by omega), if_pos hw]
  simp only [searchStep, if_neg (not_lt.mpr hge), if_pos ht, hshift, if_true]
  rw [u32_eq (x := s.freeBlocks + 1) (by omega), Search.descend]

theorem Search.Window.descend (he : endingBlock < 2 ^ 32) {s : Search}
    (hwin : s.Window bitmap endingBlock minBlocks) (hge : s.stopBlock ≤ s.currentBlock)
    (hbit : bitAt bitmap s.currentBlock = false) (hpos : 0 < s.currentBlock) :
    s.descend.Window bitmap endingBlock minBlocks ∧ s.descend.currentBlock = s.currentBlock - 1 := by
  obtain ⟨hcnt, hsize, habove, hins, hlow, hhigh⟩ := hwin
  have hsub : s.descend.currentBlock = s.currentBlock - 1 := by
    rw [Search.descend_currentBlock]
    exact u32Sub_eq (by omega) (by omega)
  have hfree := s.descend_freeBlocks
  have hstop := s.descend_stopBlock
  have hcounted := s.descend_countedFreeBlocks
  refine ⟨⟨?_, ?_, ?_, ?_, ?_, ?_⟩, hsub⟩
  · rw [hstop, hcounted]
    exact hcnt
  · rw [hsub, hfree, hstop, hcounted]
    omega
  · rw [hsub, hstop]
    omega
  · rw [hsub, hfree]
    omega
  · rw [hstop, hcounted]
    exact hlow
  · rw [hsub, hfree]
    intro i h1 h2
    rcases Nat.eq_or_lt_of_le (show s.currentBlock ≤ i by omega) with rfl | hlt
    · exact hbit
    · exact hhigh i hlt (by omega)

theorem searchStep_descends (hr : ∀ b < endingBlock, readBitmapBlock readable b = true)
    (he : endingBlock < 2 ^ 32) {s : Search} (hwin : s.Window bitmap endingBlock minBlocks)
    (hat : s.At bitmap s.currentBlock) (hent : s.Entered) (hwrap : s.NoWrap minBlocks)
    (hge : s.stopBlock ≤ s.currentBlock) (hbit : bitAt bitmap s.currentBlock = false)
    (hw : s.currentBlock % 32 = 0) :
    s.Descends readable bitmap endingBlock minBlocks (searchStep readable bitmap endingBlock minBlocks s) := by
  have htop := hwin.top
  rw [searchStep_word readable he hwin hat hge hbit hw]
  rcases Nat.eq_zero_or_pos s.currentBlock with h0 | hpos
  · -- block 0: the window is the whole of what was asked for, and the block number wraps
    obtain ⟨hcnt, hsize, habove, hins, hlow, hhigh⟩ := hwin
    have hlast : u32Sub s.currentBlock 1 = 2 ^ 32 - 1 := by
      rw [h0]
      decide
    have hleft : s.wordsLeft = 0 := by
      rw [hat.left, h0]
    have hclear : ∀ i, s.stopBlock - s.countedFreeBlocks ≤ i →
        i < s.stopBlock - s.countedFreeBlocks + minBlocks → bitAt bitmap i = false := by
      intro i h1 h2
      rcases Nat.eq_or_lt_of_le (show s.currentBlock ≤ i by omega) with rfl | hlt
      · exact hbit
      · exact hhigh i hlt (by omega)
    have hword : minBlocks ≤ 32 := by
      rcases hent with hne | hsame
      · by_contra hlarge
        refine hne (BitVec.eq_of_getMsbD_eq (fun i hi => ?_))
        have hi' : bitAt bitmap i = false := hclear i (by omega) (by omega)
        rw [bitAt, show i / 32 = s.currentBlock / 32 by omega, Nat.mod_eq_of_lt hi, ← hat.word] at hi'
        rw [hi']
        simp
      · omega
    rw [Search.descend, hlast, nextWord]
    by_cases hread : readBitmapBlock readable (2 ^ 32 - 1) = true
    · simp only [hleft, ne_eq, not_true_eq_false, if_false, hread, if_true]
      by_cases hz : bitmap ((2 ^ 32 - 1) / 4096 * 128 + 127) = 0
      · rw [if_pos hz, u32_eq (x := s.freeBlocks + 1 + 32) (by omega),
          u32_eq (x := s.freeBlocks + 1 + 32 + s.countedFreeBlocks) (by omega), if_pos (by omega)]
        refine .found ⟨hcnt, ?_, ?_, ?_, ?_, hclear⟩ (Search.first_eq rfl rfl) (Or.inr hread)
        all_goals
          dsimp only
          omega
      · rw [if_neg hz]
        refine .wrapped ⟨hcnt, ?_, ?_, ?_, ?_, hclear⟩ (Search.first_eq rfl rfl) ?_ ?_ maskAt_last hz hread
        all_goals
          dsimp only
          omega
    · simp only [hleft, ne_eq, not_true_eq_false, if_false, hread]
      refine .failed (Bool.not_eq_true _ ▸ hread) (by omega) hword ?_
      intro i _ h2
      exact hclear i (by omega) (by omega)
  · obtain ⟨hwin', hsub⟩ := hwin.descend he hge hbit hpos
    have hfree := s.descend_freeBlocks
    have hstop := s.descend_stopBlock
    have hcounted := s.descend_countedFreeBlocks
    have hsec := s.descend_currentSector
    have hleft := s.descend_wordsLeft
    have hsec' := hat.sector
    have hleft' := hat.left
    have hsize' := hwin'.size
    have habove' := hwin'.above
    have hwrap' : s.descend.NoWrap minBlocks := by
      rw [Search.NoWrap, hstop, hcounted]
      exact hwrap
    rcases nextWord_spec hr he (minBlocks / 32 + 2) hwin' hwrap' (by omega) s.descend_bitMask
      (by omega) (by omega) (by omega) with
      ⟨t, ht', hf, hfirst⟩ | ⟨t, ht', h1, h2, h3, h4, h5, h6, h7⟩
    · rw [ht']
      exact .found hf (hfirst.trans (Search.first_eq hstop hcounted)) (Or.inl (by omega))
    · rw [ht']
      exact .below ⟨h1, h2, Or.inl h3, h4.trans hstop, h5.trans hcounted, by omega, by omega⟩

theorem Search.Lowest.behind {s : Search} {startingBlock : ℕ} (h : s.Lowest bitmap startingBlock minBlocks)
    (hwin : s.Window bitmap endingBlock minBlocks) (hbit : bitAt bitmap s.currentBlock = true) {b : ℕ}
    (hb : startingBlock ≤ b) (hrun : Run bitmap minBlocks b) : s.currentBlock + 1 ≤ b := by
  have hle := h.skipped b hb hrun
  have htop := hwin.top
  by_contra hlt
  have hfree := hrun s.currentBlock (by omega) (by omega)
  rw [hbit] at hfree
  cases hfree

theorem searchStep_used {startingBlock : ℕ} (hr : ∀ b < endingBlock, readBitmapBlock readable b = true)
    (he : endingBlock < 2 ^ 32) {s : Search} (hwin : s.Window bitmap endingBlock minBlocks)
    (hat : s.At bitmap s.currentBlock) (hfirst : s.Lowest bitmap startingBlock minBlocks)
    (hge : s.stopBlock ≤ s.currentBlock) (hbit : bitAt bitmap s.currentBlock = true) :
    s.Skips bitmap startingBlock endingBlock minBlocks (searchStep readable bitmap endingBlock minBlocks s) := by
  have hbehind := fun b => hfirst.behind hwin hbit (b := b)
  have htop := hwin.top
  obtain ⟨hcnt, hsize, habove, hins, hlow, hhigh⟩ := hwin
  have ht : ¬ (s.tempWord &&& s.bitMask = 0) := by
    rw [hat.mask, and_maskAt_eq_zero (by omega), hat.word]
    intro h
    rw [bitAt, h] at hbit
    cases hbit
  have hfew : u32 (s.freeBlocks + s.countedFreeBlocks) < minBlocks := by
    rw [u32_eq (by omega)]
    omega
  have hstop : u32 (s.currentBlock + 1 + s.freeBlocks) = s.currentBlock + 1 + s.freeBlocks :=
    u32_eq (by omega)
  have hpoint : ∀ {t : Search}, t.currentSector = t.currentBlock / 4096 →
      (t.point bitmap).At bitmap t.currentBlock := by
    intro t hsec
    refine ⟨rfl, hsec, rfl, ?_⟩
    simp only [Search.point, hsec]
    congr 1
    omega
  simp only [searchStep, if_neg (not_lt.mpr hge), if_neg ht, if_neg (not_le.mpr hfew), hstop]
  by_cases hend : u32 (s.currentBlock + minBlocks) ≥ endingBlock
  · rw [if_pos hend]
    refine .noRun (fun b hb hle hrun => ?_) hfew
    have hlt := hbehind b hb hrun
    rw [u32_eq (by omega)] at hend
    omega
  · rw [if_neg hend]
    -- the bitmap block of the new `currentBlock` is in the buffer, read now or before
    have hturn : ∀ {t : Search}, t.stopBlock = s.currentBlock + 1 + s.freeBlocks →
        t.currentBlock = u32 (s.currentBlock + minBlocks) → t.freeBlocks = 0 →
        t.countedFreeBlocks = s.freeBlocks → t.currentSector = t.currentBlock / 4096 →
        s.Skips bitmap startingBlock endingBlock minBlocks (.more (t.point bitmap)) := by
      intro t h1 h2 h3 h4 h5
      rcases Nat.lt_or_ge (s.currentBlock + minBlocks) (2 ^ 32) with hlt | hwrap
      · rw [u32_eq hlt] at h2 hend
        refine .moved ⟨?_, ?_, ?_, ?_, ?_, ?_⟩ (hpoint h5) (Or.inr ?_) ?_ ?_ h2 h3
        · simp only [Search.point, h1, h4]
          omega
        · simp only [Search.point, h1, h2, h3, h4]
          omega
        · simp only [Search.point, h1, h2]
          omega
        · simp only [Search.point, h2, h3]
          omega
        · simp only [Search.point, h1, h4]
          intro i hi1 hi2
          exact hhigh i (by omega) (by omega)
        · simp only [Search.point, h2, h3]
          intro i hi1 hi2
          omega
        · simp only [Search.point, h3, Nat.add_zero]
        · simp only [Search.first, Search.point, h1, h4]
          omega
        · simp only [Search.point, h1]
          omega
      · refine .gaveUp (fun b hb hle hrun => ?_) ?_ ?_
        · have hlt := hbehind b hb hrun
          omega
        · simp only [Search.point, h1, h2, u32]
          omega
        · simp only [Search.point, h3, h4]
          rw [u32_eq (by omega)]
          omega
    by_cases hsec : s.currentSector = u32 (s.currentBlock + minBlocks) / 4096
    · rw [if_neg (by simpa using hsec)]
      exact hturn rfl rfl rfl rfl hsec
    · rw [if_pos hsec, hr _ (by omega), if_pos rfl]
      exact hturn rfl rfl rfl rfl rfl

end

end Darwin.Hfs.VolumeAllocation
