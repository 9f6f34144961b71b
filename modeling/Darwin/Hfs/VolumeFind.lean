import Darwin.Hfs.VolumeContig

/-! # What the search for a contiguous range finds

The backward loop finds the lowest range of free blocks, or there is none. It goes wrong below
block 0, where the block number wraps, and with a window so large that the number of blocks
wraps; the forward loop goes wrong where the bitmap ends.
-/
namespace Darwin.Hfs.VolumeAllocation
open Darwin.Lib

section
variable {readable : ℕ → Bool} {bitmap : Bitmap} {startingBlock endingBlock minBlocks : ℕ}

/-- The window at block 0 is free, and the bitmap block of the wrapped number is not readable. -/
structure FailsAtZero (readable : ℕ → Bool) (bitmap : Bitmap) (startingBlock endingBlock minBlocks : ℕ) : Prop where
  start : startingBlock = 0
  word : minBlocks ≤ 32
  inside : minBlocks ≤ endingBlock
  free : Run bitmap minBlocks 0
  fails : readBitmapBlock readable (2 ^ 32 - 1) = false

/-- The window at block 0 is not free but one behind it is, and its size plus a word wraps. -/
def WrapsAround (bitmap : Bitmap) (startingBlock endingBlock minBlocks : ℕ) : Prop :=
  startingBlock = 0 ∧ minBlocks = 2 ^ 32 - 32 ∧ ¬ Run bitmap minBlocks 0 ∧
    ∃ b, b + minBlocks ≤ endingBlock ∧ Run bitmap minBlocks b

/-- What the backward loop comes to. -/
inductive Outcome (readable : ℕ → Bool) (bitmap : Bitmap) (startingBlock endingBlock minBlocks : ℕ) :
    Option Search → Prop where
  | found {t : Search} : t.Found bitmap endingBlock minBlocks → startingBlock ≤ t.first →
      (∀ b, startingBlock ≤ b → Run bitmap minBlocks b → t.first ≤ b) →
      ¬ FailsAtZero readable bitmap startingBlock endingBlock minBlocks →
      ¬ WrapsAround bitmap startingBlock endingBlock minBlocks →
      Outcome readable bitmap startingBlock endingBlock minBlocks (some t)
  | noRun {t : Search} : u32 (t.freeBlocks + t.countedFreeBlocks) < minBlocks →
      NoRun bitmap startingBlock endingBlock minBlocks ∨
        WrapsAround bitmap startingBlock endingBlock minBlocks →
      Outcome readable bitmap startingBlock endingBlock minBlocks (some t)
  | failed : FailsAtZero readable bitmap startingBlock endingBlock minBlocks →
      Outcome readable bitmap startingBlock endingBlock minBlocks none

theorem Search.Lowest.start_le {s : Search} (h : s.Lowest bitmap startingBlock minBlocks) :
    startingBlock ≤ s.first := by
  rcases h.start with ⟨h0, hstop⟩ | hlt
  · rw [Search.first, h0, hstop]
    exact Nat.le_refl _
  · exact hlt.le

theorem Search.Lowest.of_first_eq {s t : Search} (h : s.Lowest bitmap startingBlock minBlocks)
    (hstop : t.stopBlock = s.stopBlock) (hcounted : t.countedFreeBlocks = s.countedFreeBlocks) :
    t.Lowest bitmap startingBlock minBlocks := by
  have hfirst : t.first = s.first := Search.first_eq hstop hcounted
  exact ⟨by rw [hcounted, hstop, hfirst]; exact h.start, fun b hb hrun => hfirst ▸ h.skipped b hb hrun⟩

theorem Search.Lowest.moved {s t : Search} (h : s.Lowest bitmap startingBlock minBlocks)
    (hwin : s.Window bitmap endingBlock minBlocks) (hge : s.stopBlock ≤ s.currentBlock)
    (hbit : bitAt bitmap s.currentBlock = true) (hfirst : t.first = s.currentBlock + 1) :
    t.Lowest bitmap startingBlock minBlocks := by
  refine ⟨Or.inr ?_, fun b hb hrun => ?_⟩
  · have hle := h.start_le
    rw [Search.first] at hle
    omega
  · rw [hfirst]
    exact h.behind hwin hbit hb hrun

theorem Search.Found.outcome {s t : Search} (hfound : t.Found bitmap endingBlock minBlocks)
    (hlow : s.Lowest bitmap startingBlock minBlocks) (hfirst : t.first = s.first)
    (hzero : 32 < s.first + minBlocks ∨ 0 < s.first ∨ readBitmapBlock readable (2 ^ 32 - 1) = true)
    (hwrap : ¬ WrapsAround bitmap startingBlock endingBlock minBlocks) :
    Outcome readable bitmap startingBlock endingBlock minBlocks (some t) := by
  refine .found hfound (hfirst ▸ hlow.start_le) (fun b hb hrun => hfirst ▸ hlow.skipped b hb hrun) ?_ hwrap
  rintro ⟨hs, hle, -, hrun, hread⟩
  have hle0 := hlow.skipped 0 (by omega) hrun
  rcases hzero with h | h | h
  · omega
  · omega
  · rw [hread] at h
    cases h

/-! ## A window that wraps -/

/-- Once the number of blocks has wrapped, the words below do not make it large enough again before
the word of block 0, which has a used block. -/
theorem nextWord_wraps (hr : ∀ b < endingBlock, readBitmapBlock readable b = true) (hused : bitmap 0 ≠ 0) :
    ∀ (n : ℕ) {s : Search}, (s.currentBlock + 1) % 32 = 0 → s.currentBlock < endingBlock →
    u32 (s.freeBlocks + s.countedFreeBlocks) + (s.currentBlock + 1) + 64 = 2 ^ 32 →
    s.currentSector = (s.currentBlock + 1) / 4096 → s.wordsLeft = (s.currentBlock + 1) % 4096 / 32 →
    s.currentBlock < 32 * n → ∃ t, nextWord readable bitmap (2 ^ 32 - 32) n s = .more t ∧
      t.stopBlock = s.stopBlock ∧ t.currentBlock ≤ s.currentBlock ∧
      u32 (t.freeBlocks + t.countedFreeBlocks) < 2 ^ 32 - 32
  | 0, s, hword, hlt, hsum, hsec, hleft, hn => by omega
  | n + 1, s, hword, hlt, hsum, hsec, hleft, hn => by
    rw [nextWord_word hr n hlt hword hsec hleft]
    by_cases hz : bitmap (s.currentBlock / 32) = 0
    · have hpos : 32 ≤ s.currentBlock := by
        by_contra hsmall
        rw [show s.currentBlock / 32 = 0 by omega] at hz
        exact hused hz
      have hsub : u32Sub s.currentBlock 32 = s.currentBlock - 32 := by
        unfold u32 at hsum
        exact u32Sub_eq hpos (by omega)
      have hsum' : u32 (u32 (s.freeBlocks + 32) + s.countedFreeBlocks) + (s.currentBlock - 32 + 1) + 64 = 2 ^ 32 := by
        unfold u32 at hsum ⊢
        omega
      rw [if_pos hz, if_neg (by omega), hsub]
      obtain ⟨t, ht, h1, h2, h3⟩ := nextWord_wraps hr hused n (s := ⟨s.stopBlock, s.currentBlock - 32,
        u32 (s.freeBlocks + 32), s.countedFreeBlocks, s.currentBlock / 4096, s.currentBlock % 4096 / 32,
        bitmap (s.currentBlock / 32), s.bitMask⟩) (by dsimp only; omega) (by dsimp only; omega) hsum'
        (by dsimp only; omega) (by dsimp only; omega) (by dsimp only; omega)
      dsimp only at h1 h2
      exact ⟨t, ht, h1, by omega, h3⟩
    · rw [if_neg hz]
      refine ⟨_, rfl, rfl, le_refl _, ?_⟩
      dsimp only
      omega

/-- A window behind a used block that is complete when the block below it is block `2 ^ 32 - 33`. -/
structure Search.Lost (s : Search) (bitmap : Bitmap) (endingBlock : ℕ) : Prop where
  window : s.Window bitmap endingBlock (2 ^ 32 - 32)
  pos : s.At bitmap s.currentBlock
  entered : s.Entered
  lowest : s.Lowest bitmap 0 (2 ^ 32 - 32)
  behind : 0 < s.first
  stop : s.stopBlock = 2 ^ 32 - 32
  above : s.stopBlock ≤ s.currentBlock

section lost
variable {s : Search}

theorem Search.Lost.not_run (h : s.Lost bitmap endingBlock) : ¬ Run bitmap (2 ^ 32 - 32) 0 := by
  intro hrun
  have hle := h.lowest.skipped 0 (Nat.le_refl _) hrun
  have hpos := h.behind
  omega

theorem Search.Lost.first_le (h : s.Lost bitmap endingBlock) (he : endingBlock < 2 ^ 32) : s.first ≤ 31 := by
  have htop := h.window.top
  have hins := h.window.inside
  omega

theorem Search.Lost.used (h : s.Lost bitmap endingBlock) (he : endingBlock < 2 ^ 32) : bitmap 0 ≠ 0 := by
  intro hzero
  refine h.not_run (fun i _ hi => ?_)
  have hfirst := h.first_le he
  have hstop := h.stop
  rcases Nat.lt_or_ge i 32 with hlt | hge
  · rw [bitAt, show i / 32 = 0 by omega, hzero]
    simp
  · exact h.window.low i (by rw [← Search.first]; omega) (by omega)

theorem Search.Lost.searchStep (h : s.Lost bitmap endingBlock) (he : endingBlock < 2 ^ 32)
    (hr : ∀ b < endingBlock, readBitmapBlock readable b = true)
    (hbit : bitAt bitmap s.currentBlock = false) (hw : s.currentBlock % 32 = 0) :
    (∃ t, Darwin.Hfs.VolumeAllocation.searchStep readable bitmap endingBlock (2 ^ 32 - 32) s = .more t ∧
      t.currentBlock < t.stopBlock ∧ u32 (t.freeBlocks + t.countedFreeBlocks) < 2 ^ 32 - 32) ∧
    WrapsAround bitmap 0 endingBlock (2 ^ 32 - 32) := by
  have hfirst := h.first_le he
  have hstop := h.stop
  have habove := h.above
  have hins := h.window.inside
  have htop := h.window.top
  have hcur : s.currentBlock = 2 ^ 32 - 32 := by omega
  constructor
  · rw [searchStep_word readable he h.window h.pos h.above hbit hw]
    obtain ⟨hwin, hsub⟩ := h.window.descend he h.above hbit (by omega)
    have hfree := s.descend_freeBlocks
    have hstop' := s.descend_stopBlock
    have hcounted := s.descend_countedFreeBlocks
    have hsec := s.descend_currentSector
    have hleft := s.descend_wordsLeft
    have hsec' := h.pos.sector
    have hleft' := h.pos.left
    have hsize := hwin.size
    have hzero : bitmap (s.descend.currentBlock / 32) = 0 := by
      refine BitVec.eq_of_getMsbD_eq (fun i hi => ?_)
      have hclear := h.window.low (s.descend.currentBlock / 32 * 32 + i) (by rw [← Search.first]; omega) (by omega)
      rw [bitAt, show (s.descend.currentBlock / 32 * 32 + i) / 32 = s.descend.currentBlock / 32 by omega,
        show (s.descend.currentBlock / 32 * 32 + i) % 32 = i by omega] at hclear
      rw [hclear]
      simp
    have hsum : u32 (u32 (s.descend.freeBlocks + 32) + s.descend.countedFreeBlocks) = 0 := by
      unfold u32
      omega
    have hlow : u32Sub s.descend.currentBlock 32 = 2 ^ 32 - 65 := by
      rw [hsub, hcur, u32Sub_eq (by omega) (by omega)]
      norm_num
    rw [nextWord_word hr _ (by omega) (by omega) (by omega) (by omega), if_pos hzero, hsum, if_neg (by omega), hlow]
    obtain ⟨t, ht, h1, h2, h3⟩ := nextWord_wraps hr (h.used he) ((2 ^ 32 - 32) / 32 + 1) (s := ⟨s.descend.stopBlock,
      2 ^ 32 - 65, u32 (s.descend.freeBlocks + 32), s.descend.countedFreeBlocks, s.descend.currentBlock / 4096,
      s.descend.currentBlock % 4096 / 32, bitmap (s.descend.currentBlock / 32), s.descend.bitMask⟩)
      (by norm_num) (by dsimp only; omega) (by dsimp only; omega) (by dsimp only; omega) (by dsimp only; omega)
      (by norm_num)
    dsimp only at h1 h2
    exact ⟨t, ht, by omega, h3⟩
  · refine ⟨rfl, rfl, h.not_run, s.first, by omega, fun i h1 h2 => ?_⟩
    rcases Nat.lt_or_ge i s.stopBlock with hi | hi
    · exact h.window.low i h1 hi
    · rcases Nat.eq_or_lt_of_le (show s.currentBlock ≤ i by omega) with rfl | hlt
      · exact hbit
      · exact h.window.high i hlt (by omega)

end lost

theorem searchLoop_done {n : ℕ} {s : Search} (h : s.currentBlock < s.stopBlock) :
    searchLoop readable bitmap endingBlock minBlocks (n + 1) s = some (some s) := by
  simp only [searchLoop, searchStep, if_pos h]

theorem searchLoop_more {n : ℕ} {s t : Search}
    (h : searchStep readable bitmap endingBlock minBlocks s = .more t) :
    searchLoop readable bitmap endingBlock minBlocks (n + 1) s =
      searchLoop readable bitmap endingBlock minBlocks n t := by
  simp only [searchLoop, h]

theorem searchLoop_lost (hr : ∀ b < endingBlock, readBitmapBlock readable b = true)
    (he : endingBlock < 2 ^ 32) : ∀ (n : ℕ) {s : Search}, s.Lost bitmap endingBlock →
    s.currentBlock + 2 ≤ n + s.stopBlock →
    ∃ r, searchLoop readable bitmap endingBlock (2 ^ 32 - 32) n s = some r ∧
      Outcome readable bitmap 0 endingBlock (2 ^ 32 - 32) r
  | 0, s, hlost, hn => by
    have habove := hlost.above
    omega
  | n + 1, s, hlost, hn => by
    have habove := hlost.above
    cases hbit : bitAt bitmap s.currentBlock with
    | true =>
      have hskips := searchStep_used hr he hlost.window hlost.pos hlost.lowest habove hbit
      rw [searchLoop]
      generalize searchStep readable bitmap endingBlock (2 ^ 32 - 32) s = walk at hskips
      cases hskips with
      | noRun hno hfew => exact ⟨_, rfl, .noRun hfew (Or.inl hno)⟩
      | moved hwin _ _ _ _ hcur _ =>
        have hins := hwin.inside
        have hstop := hlost.stop
        omega
      | gaveUp hno hlt hfew =>
        obtain ⟨k, rfl⟩ : ∃ k, n = k + 1 := ⟨n - 1, by omega⟩
        exact ⟨_, searchLoop_done hlt, .noRun hfew (Or.inl hno)⟩
    | false =>
      by_cases hw : s.currentBlock % 32 = 0
      · obtain ⟨⟨t, hstep, hlt, hfew⟩, hwraps⟩ := hlost.searchStep he hr hbit hw
        obtain ⟨k, rfl⟩ : ∃ k, n = k + 1 := ⟨n - 1, by omega⟩
        rw [searchLoop_more hstep]
        exact ⟨t, searchLoop_done hlt, .noRun hfew (Or.inr hwraps)⟩
      · obtain ⟨t, hstep, hbelow, hcur⟩ := searchStep_inside readable he hlost.window hlost.pos hlost.entered habove hbit hw
        have hstop := hlost.stop
        have hstop' := hbelow.stop
        rw [searchLoop_more hstep]
        refine searchLoop_lost hr he n ⟨hbelow.window, hbelow.pos, hbelow.entered,
          hlost.lowest.of_first_eq hbelow.stop hbelow.counted, ?_, hstop'.trans hstop, by omega⟩ (by omega)
        rw [Search.first_eq hbelow.stop hbelow.counted]
        exact hlost.behind

/-! ## The backward loop -/

theorem Search.Window.outcome {s : Search} (h : s.Window bitmap endingBlock minBlocks) (he : endingBlock < 2 ^ 32)
    (hlow : s.Lowest bitmap startingBlock minBlocks) (hlt : s.currentBlock < s.stopBlock)
    (hgood : ¬ WrapsAround bitmap startingBlock endingBlock minBlocks) :
    Outcome readable bitmap startingBlock endingBlock minBlocks (some s) := by
  refine (h.found he hlt).outcome hlow rfl (Or.inr (Or.inl ?_)) hgood
  rcases hlow.start with ⟨h0, -⟩ | hlt'
  · rw [Search.first, h0]
    omega
  · omega

theorem Search.Window.noWrap {s t : Search} (hwin : t.Window bitmap endingBlock minBlocks)
    (he : endingBlock < 2 ^ 32) (hlow : s.Lowest bitmap startingBlock minBlocks)
    (hstop : t.stopBlock = s.first + minBlocks) (hgood : ¬ (startingBlock = 0 ∧ minBlocks = 2 ^ 32 - 32)) :
    t.NoWrap minBlocks := by
  have hins := hwin.inside
  have habove := hwin.above
  have hstart := hlow.start_le
  by_cases hsmall : minBlocks + 32 < 2 ^ 32
  · exact Or.inr (Or.inl hsmall)
  · exact Or.inr (Or.inr (by omega))

/-- The search stands in a window and has not missed a range of free blocks. -/
structure Search.Ok (s : Search) (bitmap : Bitmap) (startingBlock endingBlock minBlocks : ℕ) : Prop where
  window : s.Window bitmap endingBlock minBlocks
  pos : s.At bitmap s.currentBlock
  entered : s.Entered
  lowest : s.Lowest bitmap startingBlock minBlocks
  noWrap : s.NoWrap minBlocks
  good : s.first = 0 ∨ ¬ (startingBlock = 0 ∧ minBlocks = 2 ^ 32 - 32)

theorem Search.Ok.below {s t : Search} (h : s.Ok bitmap startingBlock endingBlock minBlocks)
    (hb : t.Below s bitmap endingBlock minBlocks) : t.Ok bitmap startingBlock endingBlock minBlocks := by
  refine ⟨hb.window, hb.pos, hb.entered, h.lowest.of_first_eq hb.stop hb.counted, ?_, ?_⟩
  · rw [Search.NoWrap, hb.stop, hb.counted]
    exact h.noWrap
  · rw [Search.first_eq hb.stop hb.counted]
    exact h.good

theorem Search.Ok.not_wraps {s : Search} (h : s.Ok bitmap startingBlock endingBlock minBlocks)
    (hrun : Run bitmap minBlocks s.first) : ¬ WrapsAround bitmap startingBlock endingBlock minBlocks := by
  rintro ⟨hs, hm, hno, -⟩
  rcases h.good with hfirst | hgood
  · rw [hfirst] at hrun
    exact hno hrun
  · exact hgood ⟨hs, hm⟩

theorem searchLoop_outcome (hr : ∀ b < endingBlock, readBitmapBlock readable b = true)
    (he : endingBlock < 2 ^ 32) : ∀ (n : ℕ) {s : Search}, s.Ok bitmap startingBlock endingBlock minBlocks →
    2 * (endingBlock - (s.currentBlock + s.freeBlocks)) + (s.currentBlock + 1 - s.stopBlock) + 40 ≤ n →
    ∃ r, searchLoop readable bitmap endingBlock minBlocks n s = some r ∧
      Outcome readable bitmap startingBlock endingBlock minBlocks r
  | 0, s, hok, hn => by omega
  | n + 1, s, hok, hn => by
    rcases Nat.lt_or_ge s.currentBlock s.stopBlock with hlt | hge
    · have hfound := hok.window.found he hlt
      exact ⟨_, searchLoop_done hlt, hok.window.outcome he hok.lowest hlt (hok.not_wraps hfound.run)⟩
    have hins := hok.window.inside
    have hsize := hok.window.size
    have htop := hok.window.top
    cases hbit : bitAt bitmap s.currentBlock with
    | true =>
      have hskips := searchStep_used hr he hok.window hok.pos hok.lowest hge hbit
      rw [searchLoop]
      generalize searchStep readable bitmap endingBlock minBlocks s = walk at hskips
      cases hskips with
      | noRun hno hfew => exact ⟨_, rfl, .noRun hfew (Or.inl hno)⟩
      | @moved t hwin hpos hent hfirst hstop hcur hfree =>
        have hins' := hwin.inside
        have hlow := hok.lowest.moved hok.window hge hbit hfirst
        by_cases hbad : startingBlock = 0 ∧ minBlocks = 2 ^ 32 - 32
        · obtain ⟨rfl, rfl⟩ := hbad
          have hfirst' := hok.good.resolve_right (fun hnot => hnot ⟨rfl, rfl⟩)
          exact searchLoop_lost hr he n ⟨hwin, hpos, hent, hlow, by omega, by omega, by omega⟩ (by omega)
        · have hwrap := hwin.noWrap he hok.lowest hstop hbad
          exact searchLoop_outcome hr he n ⟨hwin, hpos, hent, hlow, hwrap, Or.inr hbad⟩ (by omega)
      | gaveUp hno hlt hfew =>
        obtain ⟨k, rfl⟩ : ∃ k, n = k + 1 := ⟨n - 1, by omega⟩
        exact ⟨_, searchLoop_done hlt, .noRun hfew (Or.inl hno)⟩
    | false =>
      by_cases hw : s.currentBlock % 32 = 0
      · have hdescends := searchStep_descends hr he hok.window hok.pos hok.entered hok.noWrap hge hbit hw
        rw [searchLoop]
        generalize searchStep readable bitmap endingBlock minBlocks s = walk at hdescends
        cases hdescends with
        | @found t hfound hfirst hzero =>
          exact ⟨_, rfl, hfound.outcome hok.lowest hfirst (hzero.imp_right Or.inr) (hok.not_wraps (hfirst ▸ hfound.run))⟩
        | below hbelow =>
          have h1 := hbelow.top
          have h2 := hbelow.lower
          have h3 := hbelow.stop
          have h4 := hbelow.window.above
          exact searchLoop_outcome hr he n (hok.below hbelow) (by omega)
        | @wrapped t hfound hfirst hstop hsmall hmask hne hread =>
          obtain ⟨u, hu, hfu, hfirst'⟩ := searchLoop_wrapped 31 n (by omega) (by omega) hfound hstop (by omega)
            hmask hne (fun i h1 h2 => by omega)
          exact ⟨_, hu, hfu.outcome hok.lowest (hfirst'.trans hfirst) (Or.inr (Or.inr hread))
            (hok.not_wraps (hfirst ▸ hfound.run))⟩
        | failed hread hstop hmin hrun =>
          have hs := hok.lowest.start_le
          have hs' : s.first = 0 := by
            rw [Search.first]
            omega
          exact ⟨_, rfl, .failed ⟨by omega, hmin, by omega, hrun, hread⟩⟩
      · obtain ⟨t, hstep, hbelow, hcur⟩ := searchStep_inside readable he hok.window hok.pos hok.entered hge hbit hw
        have h1 := hbelow.top
        have h3 := hbelow.stop
        rw [searchLoop_more hstep]
        exact searchLoop_outcome hr he n (hok.below hbelow) (by omega)

/-- With nothing asked for and block 0 to start at, the search starts at the largest block
number. It ends in the word there, or in the one before if that word is zero. -/
theorem searchLoop_zeroWord : ∀ (k n : ℕ) {s : Search}, k < 32 → k + 40 < n →
    s.Found bitmap endingBlock 0 → s.stopBlock = 0 →
    s.freeBlocks + s.countedFreeBlocks + k + 70 < 2 ^ 32 → s.bitMask = maskAt 32 k →
    s.tempWord = 0 → s.wordsLeft ≠ 0 →
    ∃ t, searchLoop readable bitmap endingBlock 0 n s = some (some t) ∧ t.Found bitmap endingBlock 0
  | k, 0, s, hk, hn, hfound, hstop, hsmall, hmask, hzero, hleft => by omega
  | k, n + 1, s, hk, hn, hfound, hstop, hsmall, hmask, hzero, hleft => by
    have hge : ¬ (s.currentBlock < s.stopBlock) := by omega
    have ht : s.tempWord &&& s.bitMask = 0 := by
      rw [hzero]
      exact BitVec.zero_and
    have hfound' : ∀ {t : Search}, t.stopBlock = s.stopBlock →
        t.countedFreeBlocks = s.countedFreeBlocks → t.freeBlocks + t.countedFreeBlocks < 2 ^ 32 →
        t.Found bitmap endingBlock 0 := by
      intro t h1 h2 h3
      refine ⟨?_, ?_, Nat.zero_le _, h3, ?_, ?_⟩
      · rw [h1, h2]
        exact hfound.counted
      · rw [h1]
        exact hfound.stop
      · rw [h1, h2]
        exact hfound.inside
      · intro i hi1 hi2
        omega
    rw [searchLoop, searchStep, if_neg hge, if_pos ht]
    dsimp only
    rw [hmask, maskAt_shiftLeft hk, u32_eq (x := s.freeBlocks + 1) (by omega)]
    by_cases h0 : k = 0
    · rw [if_pos h0, if_pos rfl, nextWord]
      simp only [ne_eq, hleft, not_false_eq_true, if_true]
      by_cases hz : bitmap (s.currentSector * 128 + (s.wordsLeft - 1)) = 0
      · rw [if_pos hz, u32_eq (x := s.freeBlocks + 1 + 32) (by omega), if_pos (Nat.zero_le _)]
        exact ⟨_, rfl, hfound' rfl rfl (by dsimp only; omega)⟩
      · rw [if_neg hz]
        obtain ⟨t, ht', hf, -⟩ := searchLoop_wrapped (s := { s with
            freeBlocks := s.freeBlocks + 1, currentBlock := u32Sub s.currentBlock 1,
            wordsLeft := s.wordsLeft - 1, tempWord := bitmap (s.currentSector * 128 + (s.wordsLeft - 1)),
            bitMask := 1 }) 31 n (by omega) (by omega) (hfound' rfl rfl (by dsimp only; omega)) hstop
          (by dsimp only; omega) maskAt_last hz (fun i h1 h2 => by omega)
        exact ⟨t, ht', hf⟩
    · rw [if_neg h0, if_neg (by rw [maskAt_eq_zero]; omega)]
      exact searchLoop_zeroWord (k - 1) n (by omega) (by omega)
        (hfound' rfl rfl (by dsimp only; omega)) hstop (by dsimp only; omega) rfl hzero hleft

/-! ## The forward loop -/

/-- The forward loop adds free blocks behind the range. It fails when it has to read the bitmap
block behind the last block. -/
theorem extendRun_outcome (hr : ∀ b < endingBlock, readBitmapBlock readable b = true) (maxBlocks : ℕ) :
    ∀ (n block num : ℕ) {c : Cursor}, c.At block → c.currentWord = bitmap (block / 32) → block + n = endingBlock →
    num < maxBlocks →
    (∃ k, k ≤ n ∧ extendRun readable bitmap maxBlocks n block num c = (.noErr, num + k) ∧ num + k ≤ maxBlocks ∧
      Run bitmap k block ∧ ¬ (0 < n ∧ num + n < maxBlocks ∧ Run bitmap n block ∧ endingBlock % 4096 = 0 ∧
        readBitmapBlock readable endingBlock = false)) ∨
    extendRun readable bitmap maxBlocks n block num c = (.readErr, num + n) ∧ 0 < n ∧ num + n < maxBlocks ∧
      Run bitmap n block ∧ endingBlock % 4096 = 0 ∧ readBitmapBlock readable endingBlock = false
  | 0, block, num, c, hat, hword, hend, hmax =>
    Or.inl ⟨0, le_refl _, rfl, hmax.le, fun i h1 h2 => by omega, fun h => absurd h.1 (lt_irrefl _)⟩
  | n + 1, block, num, c, hat, hword, hend, hmax => by
    by_cases hbit : bitAt bitmap block = false
    · have ht : c.currentWord &&& c.bitMask = 0 := by
        rw [hat.test, hword]
        exact hbit
      by_cases hmax' : num + 1 = maxBlocks
      · refine Or.inl ⟨1, by omega, ?_, hmax'.le, ?_, by omega⟩
        · rw [extendRun, if_pos ht, if_pos hmax']
        · intro i h1 h2
          obtain rfl : i = block := by omega
          exact hbit
      have hcons : ∀ k, Run bitmap k (block + 1) → Run bitmap (k + 1) block := by
        intro k hrun i h1 h2
        rcases Nat.eq_or_lt_of_le h1 with rfl | hlt
        · exact hbit
        · exact hrun i hlt (by omega)
      by_cases hread : (block + 1) % 4096 = 0 ∧ readable ((block + 1) / 4096) = false
      · -- only the end of the search can be a block whose bitmap block is not readable
        have hlast : n = 0 := by
          by_contra hne
          have hread' := hr (block + 1) (by omega)
          rw [readBitmapBlock, hread.2] at hread'
          cases hread'
        subst hlast
        obtain rfl : endingBlock = block + 1 := by omega
        have hnone : Run bitmap 0 (block + 1) := fun i h1 h2 => by omega
        refine Or.inr ⟨?_, Nat.one_pos, by omega, hcons 0 hnone, hread.1, hread.2⟩
        rw [extendRun, if_pos ht, if_neg hmax', hat.next_fails bitmap hread.1 hread.2]
      · obtain ⟨c', hnext, hat', hw'⟩ := hat.next readable bitmap (fun h0 => by
          rw [not_and, Bool.not_eq_false] at hread
          exact hread h0)
        have hstep : extendRun readable bitmap maxBlocks (n + 1) block num c =
            extendRun readable bitmap maxBlocks n (block + 1) (num + 1) c' := by
          rw [extendRun, if_pos ht, if_neg hmax']
          simp only [hnext]
        rw [hstep]
        rcases extendRun_outcome hr maxBlocks n (block + 1) (num + 1) hat' (word_of_next hword hw') (by omega) (by omega) with
          ⟨k, hk, hrun, hle, hclear, hnot⟩ | ⟨hrun, hpos, hle, hclear, hmod, hfail⟩
        · refine Or.inl ⟨k + 1, by omega, ?_, by omega, hcons k hclear, ?_⟩
          · rw [hrun]
            congr 1
            omega
          · rintro ⟨-, hlt, hall, hmod, hfail⟩
            rcases Nat.eq_zero_or_pos n with rfl | hpos
            · rw [← hend] at hmod hfail
              exact hread ⟨hmod, hfail⟩
            · exact hnot ⟨hpos, by omega, fun i h1 h2 => hall i (by omega) (by omega), hmod, hfail⟩
        · refine Or.inr ⟨?_, by omega, by omega, hcons n hclear, hmod, hfail⟩
          rw [hrun]
          congr 1
          omega
    · have ht : ¬ (c.currentWord &&& c.bitMask = 0) := by
        rw [hat.test, hword]
        exact hbit
      refine Or.inl ⟨0, by omega, ?_, hmax.le, fun i h1 h2 => by omega, ?_⟩
      · rw [extendRun, if_neg ht]
        rfl
      · rintro ⟨-, -, hall, -⟩
        exact hbit (hall block (le_refl _) (by omega))

/-! ## The whole search -/

/-- The free blocks from `first` on go on to the end of the search, where the bitmap ends with a
bitmap block, and `maxBlocks` is not reached before. -/
structure OffEnd (readable : ℕ → Bool) (bitmap : Bitmap) (endingBlock minBlocks maxBlocks first : ℕ) : Prop where
  more : first + minBlocks < endingBlock
  fewer : endingBlock < first + maxBlocks
  free : Run bitmap (endingBlock - first) first
  whole : endingBlock % 4096 = 0
  fails : readBitmapBlock readable endingBlock = false

/-- The lowest range of free blocks is such a range. -/
def RunsOff (readable : ℕ → Bool) (bitmap : Bitmap) (startingBlock endingBlock minBlocks maxBlocks : ℕ) : Prop :=
  ∃ first, startingBlock ≤ first ∧ (∀ b, startingBlock ≤ b → Run bitmap minBlocks b → first ≤ b) ∧
    OffEnd readable bitmap endingBlock minBlocks maxBlocks first

/-- What `BlockFindContiguous` returns. -/
inductive Finds (vcb : Vcb) (startingBlock endingBlock minBlocks maxBlocks : ℕ) : Option (OSErr × ℕ × ℕ) → Prop where
  | found {first len : ℕ} : startingBlock ≤ first → minBlocks ≤ len → len ≤ max minBlocks maxBlocks →
      first + len ≤ endingBlock → Run vcb.bitmap len first →
      ¬ FailsAtZero vcb.readable vcb.bitmap startingBlock endingBlock minBlocks →
      ¬ WrapsAround vcb.bitmap startingBlock endingBlock minBlocks →
      ¬ RunsOff vcb.readable vcb.bitmap startingBlock endingBlock minBlocks maxBlocks →
      Finds vcb startingBlock endingBlock minBlocks maxBlocks (some (.noErr, first, len))
  | noRun : NoRun vcb.bitmap startingBlock endingBlock minBlocks ∨
        WrapsAround vcb.bitmap startingBlock endingBlock minBlocks →
      Finds vcb startingBlock endingBlock minBlocks maxBlocks (some (.dskFulErr, 0, 0))
  | failed : FailsAtZero vcb.readable vcb.bitmap startingBlock endingBlock minBlocks →
      Finds vcb startingBlock endingBlock minBlocks maxBlocks (some (.readErr, 0, 0))
  | ranOff {first len : ℕ} : RunsOff vcb.readable vcb.bitmap startingBlock endingBlock minBlocks maxBlocks →
      Finds vcb startingBlock endingBlock minBlocks maxBlocks (some (.readErr, first, len))

end

theorem Search.point_at (bitmap : Bitmap) {s : Search} (h : s.currentSector = s.currentBlock / 4096) :
    (s.point bitmap).At bitmap s.currentBlock := by
  refine ⟨rfl, h, rfl, ?_⟩
  simp only [Search.point, h]
  congr 1
  omega

theorem Search.point_ok (bitmap : Bitmap) {startingBlock endingBlock minBlocks : ℕ}
    (hpos : 0 < startingBlock + minBlocks) (hs : startingBlock + minBlocks ≤ endingBlock) :
    (Search.point bitmap ⟨startingBlock, startingBlock + minBlocks - 1, 0, 0,
      (startingBlock + minBlocks - 1) / 4096, 0, 0, 0⟩).Ok bitmap startingBlock endingBlock minBlocks := by
  have hfirst : (Search.point bitmap ⟨startingBlock, startingBlock + minBlocks - 1, 0, 0,
      (startingBlock + minBlocks - 1) / 4096, 0, 0, 0⟩).first = startingBlock := Nat.sub_zero _
  refine ⟨⟨Nat.zero_le _, ?_, ?_, ?_, ?_, ?_⟩, Search.point_at bitmap rfl, Or.inr rfl,
    ⟨Or.inl ⟨rfl, rfl⟩, fun b hb _ => hfirst ▸ hb⟩, Or.inl rfl, ?_⟩
  · simp only [Search.point]
    omega
  · simp only [Search.point]
    omega
  · simp only [Search.point]
    omega
  · simp only [Search.point]
    intro i h1 h2
    omega
  · simp only [Search.point]
    intro i h1 h2
    omega
  · rw [hfirst]
    omega

section
variable {vcb : Vcb} {startingBlock endingBlock minBlocks : ℕ} (maxBlocks : ℕ)

theorem blockFindContiguous_of_found {t : Search} (he : endingBlock < 2 ^ 32)
    (hr : ∀ b < endingBlock, readBitmapBlock vcb.readable b = true)
    (hfew : ¬ u32Sub endingBlock startingBlock < minBlocks)
    (hread : readBitmapBlock vcb.readable (u32Sub (u32 (startingBlock + minBlocks)) 1) = true)
    (hsearch : searchLoop vcb.readable vcb.bitmap endingBlock minBlocks (2 ^ 35)
      (Search.point vcb.bitmap ⟨startingBlock, u32Sub (u32 (startingBlock + minBlocks)) 1, 0, 0,
        u32Sub (u32 (startingBlock + minBlocks)) 1 / 4096, 0, 0, 0⟩) = some (some t))
    (hfound : t.Found vcb.bitmap endingBlock minBlocks) :
    (∃ len, blockFindContiguous vcb startingBlock endingBlock minBlocks maxBlocks = some (.noErr, t.first, len) ∧
      minBlocks ≤ len ∧ len ≤ max minBlocks maxBlocks ∧ t.first + len ≤ endingBlock ∧ Run vcb.bitmap len t.first ∧
      ¬ OffEnd vcb.readable vcb.bitmap endingBlock minBlocks maxBlocks t.first) ∨
    (∃ len, blockFindContiguous vcb startingBlock endingBlock minBlocks maxBlocks = some (.readErr, t.first, len)) ∧
      OffEnd vcb.readable vcb.bitmap endingBlock minBlocks maxBlocks t.first := by
  have hfirst : u32Sub t.stopBlock t.countedFreeBlocks = t.first :=
    u32Sub_eq hfound.counted (by have := hfound.stop; omega)
  have hinside : t.first + minBlocks ≤ endingBlock := hfound.inside
  have henough : ¬ u32 (t.freeBlocks + t.countedFreeBlocks) < minBlocks := by
    rw [u32_eq hfound.small]
    exact Nat.not_lt.mpr hfound.enough
  have hboth : ∀ k, Run vcb.bitmap k (t.first + minBlocks) → Run vcb.bitmap (minBlocks + k) t.first := by
    intro k hrun i h1 h2
    rcases Nat.lt_or_ge i (t.first + minBlocks) with hi | hi
    · exact hfound.run i h1 hi
    · exact hrun i hi (by omega)
  unfold blockFindContiguous
  simp only [hfew, hread, hsearch, henough, hfirst, if_false, if_true]
  rw [u32_eq (x := t.first + minBlocks) (by omega)]
  by_cases hstop : t.currentSector ≠ (t.first + minBlocks) / 4096 ∧
      readBitmapBlock vcb.readable (t.first + minBlocks) = false
  · rw [if_pos hstop]
    refine Or.inl ⟨_, rfl, le_refl _, le_max_left _ _, hinside, hfound.run, fun hoff => ?_⟩
    have hread' := hr _ hoff.more
    rw [hstop.2] at hread'
    cases hread'
  rw [if_neg hstop]
  by_cases hmax : minBlocks < maxBlocks
  · rw [if_pos hmax]
    rcases extendRun_outcome hr maxBlocks (endingBlock - (t.first + minBlocks)) (t.first + minBlocks) minBlocks
      (Cursor.init_at vcb.bitmap _) (Cursor.init_word vcb.bitmap _) (by omega) hmax with
      ⟨k, hk, hrun, hle, hclear, hnot⟩ | ⟨hrun, hpos', hle, hclear, hmod, hfail⟩
    · rw [hrun]
      refine Or.inl ⟨_, rfl, Nat.le_add_right _ _, le_max_of_le_right hle, by omega, hboth k hclear, ?_⟩
      rintro ⟨hlt, hlt', hall, hmod, hfail⟩
      exact hnot ⟨by omega, by omega, fun i h1 h2 => hall i (by omega) (by omega), hmod, hfail⟩
    · rw [hrun]
      refine Or.inr ⟨⟨_, rfl⟩, by omega, by omega, ?_, hmod, hfail⟩
      have hall := hboth _ hclear
      rwa [show minBlocks + (endingBlock - (t.first + minBlocks)) = endingBlock - t.first by omega] at hall
  · rw [if_neg hmax]
    refine Or.inl ⟨_, rfl, le_refl _, le_max_left _ _, hinside, hfound.run, fun hoff => ?_⟩
    have h1 := hoff.more
    have h2 := hoff.fewer
    omega

theorem blockFindContiguous_finds (hr : ∀ b < endingBlock, readBitmapBlock vcb.readable b = true)
    (he : endingBlock < 2 ^ 32) (hs : startingBlock ≤ endingBlock) (hpos : 0 < startingBlock + minBlocks) :
    Finds vcb startingBlock endingBlock minBlocks maxBlocks
      (blockFindContiguous vcb startingBlock endingBlock minBlocks maxBlocks) := by
  by_cases hfew : u32Sub endingBlock startingBlock < minBlocks
  · rw [blockFindContiguous, if_pos hfew]
    rw [u32Sub_eq hs he] at hfew
    exact .noRun (Or.inl (fun b hb hle _ => by omega))
  have hle : startingBlock + minBlocks ≤ endingBlock := by
    rw [u32Sub_eq hs he] at hfew
    omega
  have hcur : u32Sub (u32 (startingBlock + minBlocks)) 1 = startingBlock + minBlocks - 1 := by
    rw [u32_eq (by omega), u32Sub_eq (by omega) (by omega)]
  have hread : readBitmapBlock vcb.readable (u32Sub (u32 (startingBlock + minBlocks)) 1) = true := by
    rw [hcur]
    exact hr _ (by omega)
  obtain ⟨r, hsearch, houtcome⟩ := searchLoop_outcome hr he (2 ^ 35) (Search.point_ok vcb.bitmap hpos hle)
    (by simp only [Search.point]; omega)
  rw [← hcur] at hsearch
  cases houtcome with
  | failed hzero =>
    unfold blockFindContiguous
    simp only [hfew, hread, hsearch, if_false, if_true]
    exact .failed hzero
  | noRun hlow hno =>
    unfold blockFindContiguous
    simp only [hfew, hread, hsearch, hlow, if_false, if_true]
    exact .noRun hno
  | @found t hfound hstart hlowest hzero hwrap =>
    rcases blockFindContiguous_of_found maxBlocks he hr hfew hread hsearch hfound with
      ⟨len, heq, hlen, hmost, hin, hrun, hnot⟩ | ⟨⟨len, heq⟩, hoff⟩
    · rw [heq]
      refine .found hstart hlen hmost hin hrun hzero hwrap ?_
      -- a range that runs off the bitmap is the one that has been found
      rintro ⟨first, hs', hfirst', hoff⟩
      have h1 := hlowest first hs' (fun i h1 h2 => hoff.free i h1 (by have := hoff.more; omega))
      have h2 := hfirst' t.first hstart hfound.run
      obtain rfl : t.first = first := by omega
      exact hnot hoff
    · rw [heq]
      exact .ranOff ⟨t.first, hstart, hlowest, hoff⟩

end

theorem search_nothing (vcb : Vcb) :
    ∃ s, searchLoop vcb.readable vcb.bitmap vcb.totalBlocks 0 (2 ^ 35)
      (Search.point vcb.bitmap ⟨0, u32Sub (u32 (0 + 0)) 1, 0, 0, u32Sub (u32 (0 + 0)) 1 / 4096, 0, 0, 0⟩) =
        some (some s) ∧ s.Found vcb.bitmap vcb.totalBlocks 0 := by
  have hlast : u32Sub (u32 (0 + 0)) 1 = 2 ^ 32 - 1 := by decide
  rw [hlast]
  have hfound : (Search.point vcb.bitmap ⟨0, 2 ^ 32 - 1, 0, 0, (2 ^ 32 - 1) / 4096, 0, 0, 0⟩).Found
      vcb.bitmap vcb.totalBlocks 0 :=
    ⟨le_refl _, Nat.zero_le _, Nat.zero_le _, by norm_num [Search.point], Nat.zero_le _, fun i h1 h2 => by
      simp only [Search.point] at h2
      omega⟩
  have hmask : (Search.point vcb.bitmap
      ⟨0, 2 ^ 32 - 1, 0, 0, (2 ^ 32 - 1) / 4096, 0, 0, 0⟩).bitMask = maskAt 32 31 := by
    norm_num [Search.point]
  by_cases hz : vcb.bitmap ((2 ^ 32 - 1) / 4096 * 128 + (2 ^ 32 - 1) % 4096 / 32) = 0
  · exact @searchLoop_zeroWord vcb.readable vcb.bitmap vcb.totalBlocks 31 (2 ^ 35)
      _ (by omega) (by norm_num) hfound rfl (by norm_num [Search.point]) hmask hz
      (by norm_num [Search.point])
  · obtain ⟨s, h1, h2, -⟩ := @searchLoop_wrapped vcb.readable vcb.bitmap vcb.totalBlocks 0 31 (2 ^ 35)
      _ (by omega) (by norm_num) hfound rfl (by norm_num [Search.point]) hmask hz
      (fun i h1 h2 => by omega)
    exact ⟨s, h1, h2⟩

theorem blockFindContiguous_spec {vcb : Vcb} (hr : ∀ k, vcb.readable k = true)
    {startingBlock minBlocks : ℕ} (maxBlocks : ℕ) (hm : minBlocks < 2 ^ 31)
    (ht : vcb.totalBlocks < 2 ^ 32) (hs : startingBlock ≤ vcb.totalBlocks) :
    blockFindContiguous vcb startingBlock vcb.totalBlocks minBlocks maxBlocks =
      some (.dskFulErr, 0, 0) ∨
    ∃ first len, blockFindContiguous vcb startingBlock vcb.totalBlocks minBlocks maxBlocks =
        some (.noErr, first, len) ∧ minBlocks ≤ len ∧ len ≤ max minBlocks maxBlocks ∧
      first + len ≤ vcb.totalBlocks ∧
      ∀ i, first ≤ i → i < first + len → bitAt vcb.bitmap i = false := by
  have hread : ∀ b, readBitmapBlock vcb.readable b = true := fun b => hr _
  have hon : ∀ {b}, readBitmapBlock vcb.readable b ≠ false := by
    intro b
    rw [hread b]
    simp
  rcases Nat.eq_zero_or_pos (startingBlock + minBlocks) with h0 | hpos
  · obtain ⟨rfl, rfl⟩ : startingBlock = 0 ∧ minBlocks = 0 := by omega
    obtain ⟨t, hsearch, hfound⟩ := search_nothing vcb
    rcases blockFindContiguous_of_found maxBlocks ht (fun b _ => hread b) (Nat.not_lt_zero _) (hread _) hsearch hfound
      with ⟨len, heq, hlen, hmost, hin, hrun, -⟩ | ⟨-, hoff⟩
    · exact Or.inr ⟨t.first, len, heq, hlen, hmost, hin, hrun⟩
    · exact absurd hoff.fails hon
  · have hfinds := blockFindContiguous_finds maxBlocks (fun b _ => hread b) ht hs hpos
    generalize blockFindContiguous vcb startingBlock vcb.totalBlocks minBlocks maxBlocks = r at hfinds ⊢
    cases hfinds with
    | found hstart hlen hmost hin hrun => exact Or.inr ⟨_, _, rfl, hlen, hmost, hin, hrun⟩
    | noRun => exact Or.inl rfl
    | failed hzero => exact absurd hzero.fails hon
    | ranOff hoff =>
      obtain ⟨first, -, -, hoff⟩ := hoff
      exact absurd hoff.fails hon

/-- Bitmap blocks can be read when they hold a block of the volume, and only these. -/
def Vcb.ReadsBitmap (vcb : Vcb) : Prop := ∀ k, vcb.readable k = true ↔ k * 4096 < vcb.totalBlocks

theorem Vcb.ReadsBitmap.read {vcb : Vcb} (h : vcb.ReadsBitmap) {b : ℕ} (hb : b < vcb.totalBlocks) :
    readBitmapBlock vcb.readable b = true :=
  (h _).mpr (by omega)

/-- The search is right: it returns a free range of the size asked for if and only if there is one,
and the disk is full otherwise. -/
def FindsRange (vcb : Vcb) (startingBlock endingBlock minBlocks maxBlocks : ℕ) : Prop :=
  ((∃ first len, blockFindContiguous vcb startingBlock endingBlock minBlocks maxBlocks = some (.noErr, first, len) ∧
      startingBlock ≤ first ∧ first + len ≤ endingBlock ∧ minBlocks ≤ len ∧ len ≤ max minBlocks maxBlocks ∧
      Run vcb.bitmap len first) ↔
    ∃ b, startingBlock ≤ b ∧ b + minBlocks ≤ endingBlock ∧ Run vcb.bitmap minBlocks b) ∧
  ((¬ ∃ b, startingBlock ≤ b ∧ b + minBlocks ≤ endingBlock ∧ Run vcb.bitmap minBlocks b) →
    (blockFindContiguous vcb startingBlock endingBlock minBlocks maxBlocks).map Prod.fst = some .dskFulErr)

section
variable {vcb : Vcb} {startingBlock endingBlock minBlocks maxBlocks : ℕ}

theorem FindsRange.of_noRun (hno : NoRun vcb.bitmap startingBlock endingBlock minBlocks)
    (hfull : blockFindContiguous vcb startingBlock endingBlock minBlocks maxBlocks = some (.dskFulErr, 0, 0)) :
    FindsRange vcb startingBlock endingBlock minBlocks maxBlocks := by
  refine ⟨⟨?_, ?_⟩, fun _ => by rw [hfull]; rfl⟩
  · rintro ⟨first, len, hfound, -⟩
    rw [hfull] at hfound
    cases hfound
  · rintro ⟨b, hb, hle, hrun⟩
    exact absurd hrun (hno b hb hle)

theorem FindsRange.not_of_err {b : ℕ} (hb : startingBlock ≤ b) (hle : b + minBlocks ≤ endingBlock)
    (hrun : Run vcb.bitmap minBlocks b) {err : OSErr} {first len : ℕ} (herr : err ≠ .noErr)
    (heq : blockFindContiguous vcb startingBlock endingBlock minBlocks maxBlocks = some (err, first, len)) :
    ¬ FindsRange vcb startingBlock endingBlock minBlocks maxBlocks := by
  intro hfinds
  obtain ⟨first', len', hfound, -⟩ := hfinds.1.mpr ⟨b, hb, hle, hrun⟩
  rw [heq] at hfound
  cases hfound
  exact herr rfl

/-- The search is right unless it goes below block 0 and fails there, the number of blocks wraps, or
the range it has found runs off the end of the bitmap. -/
theorem blockFindContiguous_right_iff (hreads : vcb.ReadsBitmap) (ht : vcb.totalBlocks < 2 ^ 32)
    (hs : startingBlock ≤ endingBlock) (he : endingBlock ≤ vcb.totalBlocks) (hm : 0 < minBlocks) :
    FindsRange vcb startingBlock endingBlock minBlocks maxBlocks ↔
      ¬ FailsAtZero vcb.readable vcb.bitmap startingBlock endingBlock minBlocks ∧
      ¬ WrapsAround vcb.bitmap startingBlock endingBlock minBlocks ∧
      ¬ RunsOff vcb.readable vcb.bitmap startingBlock endingBlock minBlocks maxBlocks := by
  have hr : ∀ b < endingBlock, readBitmapBlock vcb.readable b = true := fun b hb => hreads.read (by omega)
  have hfinds := blockFindContiguous_finds maxBlocks hr (Nat.lt_of_le_of_lt he ht) hs (Nat.add_pos_right _ hm)
  generalize heq : blockFindContiguous vcb startingBlock endingBlock minBlocks maxBlocks = r at hfinds
  cases hfinds with
  | @found first len hstart hlen hmost hin hrun hzero hwrap hoff =>
    have hrange : ∃ b, startingBlock ≤ b ∧ b + minBlocks ≤ endingBlock ∧ Run vcb.bitmap minBlocks b :=
      ⟨first, hstart, by omega, fun i h1 h2 => hrun i h1 (by omega)⟩
    refine iff_of_true ⟨⟨fun _ => hrange, fun _ => ?_⟩, fun hnot => absurd hrange hnot⟩ ⟨hzero, hwrap, hoff⟩
    exact ⟨first, len, heq, hstart, hin, hlen, hmost, hrun⟩
  | noRun hno =>
    rcases hno with hno | hwrap
    · refine iff_of_true (FindsRange.of_noRun hno heq) ⟨?_, ?_, ?_⟩
      · intro hzero
        exact hno 0 hzero.start.le (by have := hzero.inside; omega) hzero.free
      · rintro ⟨rfl, -, -, b, hle, hrun⟩
        exact hno b (Nat.zero_le _) hle hrun
      · rintro ⟨first, hstart, -, hoff⟩
        exact hno first hstart hoff.more.le (fun i h1 h2 => hoff.free i h1 (by have := hoff.more; omega))
    · obtain ⟨hs0, -, -, b, hle, hrun⟩ := id hwrap
      exact iff_of_false (FindsRange.not_of_err (by omega) hle hrun (by decide) heq) (fun h => h.2.1 hwrap)
  | failed hzero =>
    refine iff_of_false (FindsRange.not_of_err hzero.start.le ?_ hzero.free (by decide) heq) (fun h => h.1 hzero)
    have hinside := hzero.inside
    omega
  | ranOff hoff =>
    obtain ⟨first, hstart, -, hend⟩ := id hoff
    refine iff_of_false (FindsRange.not_of_err hstart hend.more.le ?_ (by decide) heq) (fun h => h.2.2 hoff)
    exact fun i h1 h2 => hend.free i h1 (by have := hend.more; omega)

end

/-- A volume of 32 free blocks. -/
def freeVolume : Vcb where
  blockSize := 512
  vcbAlBlkSiz := 512
  totalBlocks := 32
  readable := fun k => decide (k * 4096 < 32)
  bitmap := fun _ => 0
  freeBlocks := 32
  vcbFreeBks := 32
  nextAllocation := 0

theorem freeVolume_reads : freeVolume.ReadsBitmap := fun _ => decide_eq_true_iff

/-- A block behind the first one is found. -/
theorem blockFindContiguous_right_freeVolume : FindsRange freeVolume 1 32 1 1 :=
  (blockFindContiguous_right_iff freeVolume_reads (by decide) (by decide) (by decide) (by decide)).mpr
    ⟨fun h => absurd h.start (by decide), fun h => absurd h.1 (by decide), fun ⟨_, _, _, h⟩ => by
      have h1 := h.more
      have h2 := h.fewer
      omega⟩

/-- From block 0 on the search for one block fails with a read error, although the block is free. -/
theorem freeVolume_not_found :
    freeVolume.ReadsBitmap ∧ blockFindContiguous freeVolume 0 32 1 1 = some (.readErr, 0, 0) ∧
      ¬ FindsRange freeVolume 0 32 1 1 := by
  have heq : blockFindContiguous freeVolume 0 32 1 1 = some (.readErr, 0, 0) := by decide
  have hrun : Run freeVolume.bitmap 1 0 := fun i _ _ => by simp [bitAt, freeVolume]
  exact ⟨freeVolume_reads, heq, FindsRange.not_of_err (Nat.le_refl 0) (by decide) hrun (by decide) heq⟩

end Darwin.Hfs.VolumeAllocation
