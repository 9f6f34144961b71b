import Darwin.Hfs.VolumeAllocation

/-! # Forward scans of the volume bitmap

The loops that move a mask through a word, a word pointer through a bitmap block and a
buffer through the bitmap see the bits one after the other. What each loop does is stated
on the bits of the bitmap.
-/
namespace Darwin.Hfs.VolumeAllocation
open Darwin.Lib Function

/-- The cursor stands at the bit of `block`. -/
structure Cursor.At (c : Cursor) (block : ℕ) : Prop where
  mask : c.bitMask = maskAt 32 (block % 32)
  buffer : c.buffer = block / 32
  left : c.wordsLeft = 128 - block / 32 % 128

theorem Cursor.init_at (bitmap : Bitmap) (block : ℕ) : (Cursor.init bitmap block).At block := by
  refine ⟨rfl, ?_, ?_⟩
  · simp only [Cursor.init]
    omega
  · simp only [Cursor.init]
    omega

theorem Cursor.init_word (bitmap : Bitmap) (block : ℕ) :
    (Cursor.init bitmap block).currentWord = bitmap (block / 32) := by
  rw [← (Cursor.init_at bitmap block).buffer]
  rfl

/-- Every bitmap block that starts after `a` and not behind `b` can be read. -/
def Crossable (readable : ℕ → Bool) (a b : ℕ) : Prop :=
  ∀ i, a < i → i ≤ b → i % 4096 = 0 → readable (i / 4096) = true

theorem Cursor.At.next {c : Cursor} {block : ℕ} (h : c.At block) (readable : ℕ → Bool)
    (bitmap : Bitmap) (hr : (block + 1) % 4096 = 0 → readable ((block + 1) / 4096) = true) :
    ∃ c', c.next readable bitmap (block + 1) = some c' ∧ c'.At (block + 1) ∧
      c'.currentWord = if (block + 1) % 32 = 0 then bitmap ((block + 1) / 32) else c.currentWord := by
  obtain ⟨hmask, hbuf, hleft⟩ := h
  by_cases hw : (block + 1) % 32 = 0
  · have hz : c.bitMask >>> 1 = 0 := by
      rw [hmask, maskAt_shift, maskAt_eq_zero]
      omega
    have hmask' : maskAt 32 0 = maskAt 32 ((block + 1) % 32) := by rw [hw]
    by_cases hb : (block + 1) % 4096 = 0
    · refine ⟨⟨bitmap ((block + 1) / 4096 * 128), maskAt 32 0, 128, (block + 1) / 4096 * 128⟩,
        ?_, ⟨hmask', ?_, ?_⟩, ?_⟩
      · have hl : c.wordsLeft - 1 = 0 := by omega
        simp only [Cursor.next, hz, hl, readBitmapBlock, hr hb, if_true]
      · dsimp only
        omega
      · dsimp only
        omega
      · rw [if_pos hw]
        dsimp only
        congr 1
        omega
    · refine ⟨⟨bitmap (c.buffer + 1), maskAt 32 0, c.wordsLeft - 1, c.buffer + 1⟩,
        ?_, ⟨hmask', ?_, ?_⟩, ?_⟩
      · have hl : c.wordsLeft - 1 ≠ 0 := by omega
        simp only [Cursor.next, hz, hl, if_true, if_false]
      · dsimp only
        omega
      · dsimp only
        omega
      · rw [if_pos hw]
        dsimp only
        congr 1
        omega
  · have hz : c.bitMask >>> 1 ≠ 0 := by
      rw [hmask, maskAt_shift, Ne, maskAt_eq_zero]
      omega
    refine ⟨{ c with bitMask := c.bitMask >>> 1 }, ?_, ⟨?_, ?_, ?_⟩, ?_⟩
    · simp only [Cursor.next, hz, if_false]
    · dsimp only
      rw [hmask, maskAt_shift]
      congr 1
      omega
    · dsimp only
      omega
    · dsimp only
      omega
    · rw [if_neg hw]

theorem Cursor.At.next_fails {c : Cursor} {block : ℕ} (h : c.At block) {readable : ℕ → Bool}
    (bitmap : Bitmap) (hb : (block + 1) % 4096 = 0) (hr : readable ((block + 1) / 4096) = false) :
    c.next readable bitmap (block + 1) = none := by
  obtain ⟨hmask, hbuf, hleft⟩ := h
  have hz : c.bitMask >>> 1 = 0 := by
    rw [hmask, maskAt_shift, maskAt_eq_zero]
    omega
  have hl : c.wordsLeft - 1 = 0 := by omega
  simp only [Cursor.next, hz, hl, readBitmapBlock, hr, if_true]
  simp

theorem Cursor.At.test {c : Cursor} {block : ℕ} (h : c.At block) :
    c.currentWord &&& c.bitMask = 0 ↔ c.currentWord.getMsbD (block % 32) = false := by
  rw [h.mask]
  exact and_maskAt_eq_zero (by omega)

theorem word_of_next {bitmap : Bitmap} {block : ℕ} {c c' : Cursor}
    (hw : c.currentWord = bitmap (block / 32))
    (hw' : c'.currentWord =
      if (block + 1) % 32 = 0 then bitmap ((block + 1) / 32) else c.currentWord) :
    c'.currentWord = bitmap ((block + 1) / 32) := by
  rw [hw']
  split_ifs with h
  · rfl
  · rw [hw]
    congr 1
    omega

/-- The scan for a clear bit passes over set bits and stops at the first clear one, or at
the end. It fails if a bitmap block it comes to cannot be read. -/
theorem findFirst_spec (readable : ℕ → Bool) {bitmap : Bitmap} : ∀ (n block : ℕ) {c : Cursor},
    c.At block → c.currentWord = bitmap (block / 32) →
    ∃ b, block ≤ b ∧ b ≤ block + n ∧ (∀ i, block ≤ i → i < b → bitAt bitmap i = true) ∧
      (b < block + n → bitAt bitmap b = false) ∧
      (Crossable readable block b → ∃ c', findFirst readable bitmap n block c = some (b, c') ∧
        c'.At b ∧ c'.currentWord = bitmap (b / 32)) ∧
      (¬ Crossable readable block b → findFirst readable bitmap n block c = none)
  | 0, block, c, hat, hword => by
    refine ⟨block, le_refl _, le_refl _, ?_, ?_, fun _ => ⟨c, rfl, hat, hword⟩, ?_⟩
    · intro i h1 h2
      omega
    · intro h
      omega
    · intro h
      refine absurd ?_ h
      intro i h1 h2
      omega
  | n + 1, block, c, hat, hword => by
    by_cases hbit : bitAt bitmap block = false
    · have ht : c.currentWord &&& c.bitMask = 0 := by
        rw [hat.test, hword]
        exact hbit
      refine ⟨block, le_refl _, by omega, ?_, fun _ => hbit, fun _ => ⟨c, ?_, hat, hword⟩, ?_⟩
      · intro i h1 h2
        omega
      · rw [findFirst, if_pos ht]
      · intro h
        refine absurd ?_ h
        intro i h1 h2
        omega
    · have hset : bitAt bitmap block = true := by simpa using hbit
      have ht : ¬ (c.currentWord &&& c.bitMask = 0) := by
        rw [hat.test, hword]
        exact hbit
      by_cases hcross : (block + 1) % 4096 = 0 → readable ((block + 1) / 4096) = true
      · obtain ⟨c', hnext, hat', hw'⟩ := hat.next readable bitmap hcross
        obtain ⟨b, h1, h2, hall, hclear, hok, hfail⟩ :=
          findFirst_spec readable n (block + 1) hat' (word_of_next hword hw')
        have hiff : Crossable readable block b ↔ Crossable readable (block + 1) b := by
          constructor
          · intro h i hi
            exact h i (by omega)
          · intro h i hi hib hm
            rcases Nat.lt_or_ge (block + 1) i with hlt | hge
            · exact h i hlt hib hm
            · obtain rfl : i = block + 1 := by omega
              exact hcross hm
        refine ⟨b, by omega, by omega, ?_, ?_, ?_, ?_⟩
        · intro i hi hib
          rcases Nat.eq_or_lt_of_le hi with rfl | hlt
          · exact hset
          · exact hall i hlt hib
        · intro h
          exact hclear (by omega)
        · intro h
          simp only [findFirst, if_neg ht, hnext]
          exact hok (hiff.mp h)
        · intro h
          simp only [findFirst, if_neg ht, hnext]
          exact hfail (fun h' => h (hiff.mpr h'))
      · obtain ⟨hm, hr⟩ := Classical.not_imp.mp hcross
        have hnone := hat.next_fails bitmap hm (by simpa using hr)
        -- the bits behind the failing read play no part
        obtain ⟨b, h1, h2, hall, hclear⟩ : ∃ b, block + 1 ≤ b ∧ b ≤ block + 1 + n ∧
            (∀ i, block + 1 ≤ i → i < b → bitAt bitmap i = true) ∧
            (b < block + 1 + n → bitAt bitmap b = false) := by
          obtain ⟨b, h1, h2, hall, hclear, -⟩ := findFirst_spec readable n (block + 1)
            (Cursor.init_at bitmap (block + 1)) (Cursor.init_word bitmap (block + 1))
          exact ⟨b, h1, h2, hall, hclear⟩
        refine ⟨b, by omega, by omega, ?_, fun h => hclear (by omega), ?_, ?_⟩
        · intro i hi hib
          rcases Nat.eq_or_lt_of_le hi with rfl | hlt
          · exact hset
          · exact hall i hlt hib
        · intro h
          exact absurd (h (block + 1) (by omega) h1 hm) hr
        · intro h
          simp only [findFirst, if_neg ht, hnone]

theorem Cursor.At.setBit {c : Cursor} {block : ℕ} (h : c.At block) (bitmap : Bitmap) :
    Marked (update bitmap (block / 32) c.currentWord)
      (update bitmap (block / 32) (c.currentWord ||| c.bitMask)) block 1 true := by
  intro n
  rw [bitAt_update, bitAt_update, h.mask, BitVec.getMsbD_or, getMsbD_maskAt (by omega)]
  have hn : (block ≤ n ∧ n < block + 1) ↔ n / 32 = block / 32 ∧ n % 32 = block % 32 := by omega
  by_cases hw : n / 32 = block / 32
  · by_cases hm : n % 32 = block % 32
    · rw [if_pos (hn.mpr ⟨hw, hm⟩)]
      simp [hw, hm]
    · rw [if_neg (fun h => hm (hn.mp h).2)]
      simp [hw, hm]
  · rw [if_neg (fun h => hw (hn.mp h).1)]
    simp [hw]

/-- The allocating loop marks the run of clear blocks it starts at, up to `endingBlock`. The
word in the register counts as stored. -/
theorem allocateRun_spec {readable : ℕ → Bool} {endingBlock start : ℕ} (he : endingBlock < 2 ^ 32) :
    ∀ (n : ℕ) {bitmap : Bitmap} {block : ℕ} {c : Cursor}, start ≤ block → block < endingBlock →
    endingBlock ≤ block + n → c.At block → Crossable readable block (endingBlock - 1) →
    ∃ len, block + len ≤ endingBlock ∧
      (∀ i, block ≤ i → i < block + len →
        bitAt (update bitmap (block / 32) c.currentWord) i = false) ∧
      (c.currentWord.getMsbD (block % 32) = false → 1 ≤ len) ∧
      ∃ bitmap', allocateRun readable endingBlock start n bitmap block c =
        ⟨.noErr, start, block + len - start, bitmap'⟩ ∧
        Marked (update bitmap (block / 32) c.currentWord) bitmap' block len true
  | 0, bitmap, block, c, hs, hb, hn, hat, hcross => by omega
  | n + 1, bitmap, block, c, hs, hb, hn, hat, hcross => by
    by_cases hbit : c.currentWord.getMsbD (block % 32) = false
    · have hset := hat.setBit bitmap
      have hsucc : u32 (block + 1) = block + 1 := u32_eq (by omega)
      have hsub : u32Sub (block + 1) start = block + 1 - start := u32Sub_eq (by omega) (by omega)
      have hclear : bitAt (update bitmap (block / 32) c.currentWord) block = false := by
        rw [bitAt_update, if_pos rfl]
        exact hbit
      by_cases hend : block + 1 = endingBlock
      · refine ⟨1, by omega, ?_, fun _ => le_refl _, _, ?_, hset⟩
        · intro i h1 h2
          obtain rfl : i = block := by omega
          exact hclear
        · rw [allocateRun, if_pos (hat.test.mpr hbit)]
          dsimp only
          rw [hsucc, if_pos hend, hsub, hat.buffer]
      · -- the register is stored exactly when the next word is loaded
        obtain ⟨c₂, hnext, hat₂, hw₂⟩ := Cursor.At.next
          (c := ⟨c.currentWord ||| c.bitMask, c.bitMask, c.wordsLeft, c.buffer⟩) ⟨hat.mask, hat.buffer, hat.left⟩
          readable (if c.bitMask >>> 1 = 0 then
            update bitmap c.buffer (c.currentWord ||| c.bitMask) else bitmap)
          (hcross (block + 1) (by omega) (by omega))
        have hz : c.bitMask >>> 1 = 0 ↔ (block + 1) % 32 = 0 := by
          rw [hat.mask, maskAt_shift, maskAt_eq_zero]
          omega
        have hsame : update (if c.bitMask >>> 1 = 0 then
              update bitmap c.buffer (c.currentWord ||| c.bitMask) else bitmap)
            ((block + 1) / 32) c₂.currentWord =
            update bitmap (block / 32) (c.currentWord ||| c.bitMask) := by
          rw [hw₂, hat.buffer]
          by_cases hm : (block + 1) % 32 = 0
          · rw [if_pos hm, if_pos (hz.mpr hm), update_eq_self]
          · rw [if_neg hm, if_neg (mt hz.mp hm)]
            congr 1
            omega
        obtain ⟨len, h1, h2, -, bitmap', hrun, hmark⟩ := @allocateRun_spec readable endingBlock start
          he n _ (block + 1) c₂ (by omega) (by omega) (by omega) hat₂
          (fun i hi => hcross i (by omega))
        rw [hsame] at h2 hmark
        refine ⟨1 + len, by omega, ?_, fun _ => by omega, bitmap', ?_, hset.append hmark⟩
        · intro i hi1 hi2
          rcases Nat.eq_or_lt_of_le hi1 with rfl | hlt
          · exact hclear
          · have h := h2 i hlt (by omega)
            rw [hset i, if_neg (by omega)] at h
            exact h
        · simp only [allocateRun, if_pos (hat.test.mpr hbit), hsucc, if_neg hend, hnext]
          rw [hrun]
          congr 1
          omega
    · refine ⟨0, by omega, ?_, fun h => absurd h hbit, _, ?_, Marked.refl _ _ _⟩
      · intro i h1 h2
        omega
      · rw [allocateRun, if_neg (mt hat.test.mp hbit), hat.buffer, u32Sub_eq hs (by omega)]
        rfl

/-- A run of clear blocks from `first` that an allocation below `endingBlock` has marked. -/
structure Allocated (bitmap bitmap' : Bitmap) (endingBlock first len : ℕ) : Prop where
  inside : first + len ≤ endingBlock
  clear : ∀ i, first ≤ i → i < first + len → bitAt bitmap i = false
  marked : Marked bitmap bitmap' first len true

/-- `BlockAllocateAny` takes blocks at the first clear bit. With no clear bit it runs into
the bitmap block behind `endingBlock` if that is where a bitmap block starts. -/
theorem blockAllocateAny_spec (vcb : Vcb) {startingBlock endingBlock maxBlocks : ℕ}
    (hs : startingBlock ≤ endingBlock) (he : endingBlock < 2 ^ 32) (hmax : 0 < maxBlocks)
    (hread : vcb.readable (startingBlock / 4096) = true)
    (hcross : Crossable vcb.readable startingBlock (endingBlock - 1)) :
    (∃ first len bitmap', startingBlock ≤ first ∧ 1 ≤ len ∧ len ≤ maxBlocks ∧
      Allocated vcb.bitmap bitmap' endingBlock first len ∧
      blockAllocateAny vcb startingBlock endingBlock maxBlocks = ⟨.noErr, first, len, bitmap'⟩) ∨
    ((∀ i, startingBlock ≤ i → i < endingBlock → bitAt vcb.bitmap i = true) ∧
      (Crossable vcb.readable startingBlock endingBlock →
        blockAllocateAny vcb startingBlock endingBlock maxBlocks = ⟨.dskFulErr, 0, 0, vcb.bitmap⟩) ∧
      (¬ Crossable vcb.readable startingBlock endingBlock →
        blockAllocateAny vcb startingBlock endingBlock maxBlocks = ⟨.readErr, 0, 0, vcb.bitmap⟩)) := by
  obtain ⟨b, hb1, hb2, hall, hclear, hok, hfail⟩ := findFirst_spec vcb.readable
    (endingBlock - startingBlock) startingBlock (Cursor.init_at vcb.bitmap startingBlock)
    (Cursor.init_word vcb.bitmap startingBlock)
  have hend : startingBlock + (endingBlock - startingBlock) = endingBlock := by omega
  rw [hend] at hb2 hclear
  rcases Nat.eq_or_lt_of_le hb2 with rfl | hlt
  · refine Or.inr ⟨hall, ?_, ?_⟩
    · intro h
      obtain ⟨c, hc, -⟩ := hok h
      simp only [blockAllocateAny, readBitmapBlock, hread, hc, if_true]
    · intro h
      simp only [blockAllocateAny, readBitmapBlock, hread, hfail h, if_true]
  · obtain ⟨c, hc, hat, hword⟩ := hok (fun i h1 h2 => hcross i h1 (by omega))
    have hcb : c.currentWord.getMsbD (b % 32) = false := by
      rw [hword]
      exact hclear hlt
    have hsame : update vcb.bitmap (b / 32) c.currentWord = vcb.bitmap := by
      rw [hword, update_eq_self]
    -- where the second loop stops: `endingBlock`, or earlier if that is `maxBlocks` away
    have hstop : ∃ stop, b < stop ∧ stop ≤ endingBlock ∧ stop ≤ b + maxBlocks ∧
        blockAllocateAny vcb startingBlock endingBlock maxBlocks =
          allocateRun vcb.readable stop b (2 ^ 32) vcb.bitmap b c := by
      simp only [blockAllocateAny, readBitmapBlock, hread, hc, if_true, if_neg hlt.ne]
      rw [u32Sub_eq hs he]
      generalize hm : (if maxBlocks > endingBlock - startingBlock then endingBlock - startingBlock
        else maxBlocks) = m
      have hm0 : 0 < m ∧ m ≤ endingBlock ∧ m ≤ maxBlocks := by
        split_ifs at hm
        · omega
        · omega
      rw [u32Sub_eq hm0.2.1 he]
      by_cases hnear : b < endingBlock - m
      · rw [if_pos hnear, u32_eq (by omega)]
        exact ⟨b + m, by omega, by omega, by omega, rfl⟩
      · rw [if_neg hnear]
        exact ⟨endingBlock, hlt, le_refl _, by omega, rfl⟩
    obtain ⟨stop, hs1, hs2, hs3, hrun⟩ := hstop
    obtain ⟨len, h1, h2, h3, bitmap', h4, h5⟩ := allocateRun_spec (by omega) (2 ^ 32) (le_refl b)
      hs1 (by omega) hat (fun i hi hi' => hcross i (by omega) (by omega))
    rw [hsame] at h2 h5
    refine Or.inl ⟨b, len, bitmap', hb1, h3 hcb, by omega, ⟨by omega, h2, h5⟩, ?_⟩
    rw [hrun, h4]
    congr 1
    omega

/-! ## Marking a range -/

theorem marked_store (bitmap : Bitmap) (word : BitVec 32) {v : Bool} (k a b : ℕ) (hb : b ≤ 32)
    (h : ∀ i, i < 32 → word.getMsbD i = if a ≤ i ∧ i < b then v else (bitmap k).getMsbD i) :
    Marked bitmap (update bitmap k word) (32 * k + a) (b - a) v := by
  intro n
  rw [bitAt_update]
  by_cases hk : n / 32 = k
  · subst hk
    rw [if_pos rfl, h (n % 32) (by omega)]
    by_cases hr : a ≤ n % 32 ∧ n % 32 < b
    · rw [if_pos hr, if_pos (by omega)]
    · rw [if_neg hr, if_neg (by omega)]
      rfl
  · rw [if_neg hk, if_neg (by omega)]

/-- The words left end at the end of the bitmap block that was read last. -/
structure MarkPos.Ok (p : MarkPos) : Prop where
  ends : p.startingBlock / 4096 * 128 + 128 = p.currentWord + p.wordsLeft
  left : p.wordsLeft ≤ 128

theorem MarkPos.Ok.advance {readable : ℕ → Bool} {p : MarkPos} (h : p.Ok)
    (hr : readable (p.currentWord / 128) = true)
    (hk : 32 * p.currentWord < 2 ^ 32) : ∃ p', p.advance readable = .ok p' ∧ p'.Ok ∧
      0 < p'.wordsLeft ∧ p'.currentWord = p.currentWord ∧ p'.bitmap = p.bitmap := by
  obtain ⟨hends, hleft⟩ := h
  by_cases h0 : p.wordsLeft = 0
  · have hu : u32 (p.startingBlock + 4096) = p.startingBlock + 4096 := u32_eq (by omega)
    refine ⟨⟨p.bitmap, p.startingBlock + 4096, (p.startingBlock + 4096) / 4096 * 128, 128⟩,
      ?_, ⟨?_, le_refl _⟩, ?_, ?_, rfl⟩
    · have hblock : (p.startingBlock + 4096) / 4096 = p.currentWord / 128 := by omega
      simp only [MarkPos.advance, h0, if_true, hu, readBitmapBlock, hblock, hr]
    · dsimp only
    · dsimp only
      omega
    · dsimp only
      omega
  · exact ⟨p, if_neg h0, ⟨hends, hleft⟩, Nat.pos_of_ne_zero h0, rfl, rfl⟩

theorem MarkPos.Ok.store {p : MarkPos} (h : p.Ok) (h0 : 0 < p.wordsLeft) (word : BitVec 32) :
    (p.store word).Ok := by
  obtain ⟨hends, hleft⟩ := h
  refine ⟨?_, ?_⟩
  · simp only [MarkPos.store]
    omega
  · simp only [MarkPos.store]
    omega

theorem markWords_spec {readable : ℕ → Bool} {whole : BitVec 32}
    {v : Bool} (hw : ∀ i, i < 32 → whole.getMsbD i = v) : ∀ (n : ℕ) {p : MarkPos}, p.Ok →
    (∀ k, p.currentWord < 128 * (k + 1) → 128 * k < p.currentWord + n → readable k = true) →
    32 * (p.currentWord + n) ≤ 2 ^ 32 → ∃ p', markWords readable whole n p = .ok p' ∧ p'.Ok ∧
      p'.currentWord = p.currentWord + n ∧
      Marked p.bitmap p'.bitmap (32 * p.currentWord) (32 * n) v
  | 0, p, hp, _, hn => ⟨p, rfl, hp, rfl, Marked.refl _ _ _⟩
  | n + 1, p, hp, hr, hn => by
    obtain ⟨q, hq, hqok, hq0, hqw, hqb⟩ := hp.advance (hr _ (by omega) (by omega)) (by omega)
    obtain ⟨p', hp', hok, hcw, hmark⟩ := markWords_spec hw n (hqok.store hq0 whole)
      (fun k hk hk' => by
        simp only [MarkPos.store] at hk hk'
        exact hr k (by omega) (by omega)) (by
      simp only [MarkPos.store]
      omega)
    have hone : Marked p.bitmap (q.store whole).bitmap (32 * p.currentWord) 32 v := by
      have h := marked_store q.bitmap whole q.currentWord 0 32 (le_refl _) (fun i hi => by
        rw [hw i hi, if_pos (by omega)])
      simpa only [MarkPos.store, hqw, hqb, Nat.add_zero, Nat.sub_zero] using h
    refine ⟨p', ?_, hok, ?_, ?_⟩
    · simp only [markWords, hq]
      exact hp'
    · rw [hcw]
      simp only [MarkPos.store]
      omega
    · have hcw' : 32 * (q.store whole).currentWord = 32 * p.currentWord + 32 := by
        simp only [MarkPos.store]
        omega
      rw [hcw'] at hmark
      have h := hone.append hmark
      rwa [show 32 + 32 * n = 32 * (n + 1) by omega] at h

/-- What the two marking routines do with a word and a mask. -/
def Puts (put : BitVec 32 → BitVec 32 → BitVec 32) (v : Bool) : Prop :=
  ∀ word mask i, i < 32 → (put word mask).getMsbD i =
    if mask.getMsbD i = true then v else word.getMsbD i

theorem puts_or : Puts (fun word mask => word ||| mask) true := by
  intro word mask i hi
  rw [BitVec.getMsbD_or]
  cases mask.getMsbD i <;> simp

theorem puts_and_not : Puts (fun word mask => word &&& ~~~mask) false := by
  intro word mask i hi
  rw [BitVec.getMsbD_and, BitVec.getMsbD_not]
  cases mask.getMsbD i <;> simp [hi]

theorem getMsbD_headMask {a i n b : ℕ} (hi : i < 32)
    (hb : (if 32 - a > n then n else 32 - a) = b) :
    (if 32 - a > n then (BitVec.allOnes 32 >>> a) &&& ~~~(BitVec.allOnes 32 >>> (a + b))
      else BitVec.allOnes 32 >>> a).getMsbD i = decide (a ≤ i ∧ i < a + b) := by
  split_ifs at hb ⊢ with h
  · rw [BitVec.getMsbD_and, BitVec.getMsbD_not, getMsbD_allOnes_shift, getMsbD_allOnes_shift]
    by_cases h1 : a ≤ i
    · by_cases h2 : a + b ≤ i
      · simp [h1, h2, hi]
      · simp [h1, h2, hi]
        omega
    · simp [h1]
  · rw [getMsbD_allOnes_shift]
    simp only [decide_eq_decide]
    omega

theorem getMsbD_tailMask {i n : ℕ} (hi : i < 32) :
    (~~~(BitVec.allOnes 32 >>> n)).getMsbD i = decide (i < n) := by
  rw [BitVec.getMsbD_not, getMsbD_allOnes_shift]
  by_cases h : n ≤ i
  · simp [h, hi]
  · simp [h, hi]
    omega

theorem markHead_spec {put : BitVec 32 → BitVec 32 → BitVec 32} {v : Bool} (hput : Puts put v)
    {p : MarkPos} (hp : p.Ok) (h0 : 0 < p.wordsLeft) (hcw : p.currentWord = p.startingBlock / 32)
    (numBlocks : ℕ) :
    (markHead put p numBlocks).1.Ok ∧ (markHead put p numBlocks).2 ≤ numBlocks ∧
    ((markHead put p numBlocks).2 ≠ 0 → 32 * (markHead put p numBlocks).1.currentWord =
      p.startingBlock + (numBlocks - (markHead put p numBlocks).2)) ∧
    Marked p.bitmap (markHead put p numBlocks).1.bitmap p.startingBlock
      (numBlocks - (markHead put p numBlocks).2) v := by
  unfold markHead
  by_cases hf : p.startingBlock % 32 = 0
  · simp only [hf, ne_eq, not_true_eq_false, if_false, Nat.sub_self, Nat.add_zero]
    refine ⟨hp, le_refl _, fun _ => ?_, Marked.refl _ _ _⟩
    rw [hcw]
    omega
  · simp only [hf, ne_eq, not_false_eq_true, if_true]
    generalize hnb : (if 32 - p.startingBlock % 32 > numBlocks then numBlocks
      else 32 - p.startingBlock % 32) = numBits
    have hnb' : numBits ≤ numBlocks ∧ p.startingBlock % 32 + numBits ≤ 32 ∧
        (numBits < numBlocks → p.startingBlock % 32 + numBits = 32) := by
      split_ifs at hnb <;> omega
    refine ⟨hp.store h0 _, by omega, ?_, ?_⟩
    · intro h
      simp only [MarkPos.store]
      omega
    · have hstart : 32 * p.currentWord + p.startingBlock % 32 = p.startingBlock := by omega
      have h := marked_store p.bitmap (put (p.bitmap p.currentWord) _) p.currentWord
        (p.startingBlock % 32) (p.startingBlock % 32 + numBits) hnb'.2.1 (v := v) (fun i hi => by
          rw [hput _ _ i hi, getMsbD_headMask hi hnb]
          simp only [decide_eq_true_eq])
      rw [hstart] at h
      have hlen : p.startingBlock % 32 + numBits - p.startingBlock % 32 =
          numBlocks - (numBlocks - numBits) := by omega
      rw [hlen] at h
      exact h

theorem markRest_spec {put : BitVec 32 → BitVec 32 → BitVec 32} {whole : BitVec 32} {v : Bool}
    (hput : Puts put v) (hw : ∀ i, i < 32 → whole.getMsbD i = v) {readable : ℕ → Bool}
    {p : MarkPos} (hp : p.Ok) {numBlocks : ℕ}
    (hr : ∀ k, p.currentWord < 128 * (k + 1) → 4096 * k < 32 * p.currentWord + numBlocks →
      readable k = true)
    (hn : 32 * p.currentWord + numBlocks ≤ 2 ^ 32) : ∃ bitmap',
      markRest put whole readable p numBlocks = (.noErr, bitmap') ∧
      Marked p.bitmap bitmap' (32 * p.currentWord) numBlocks v := by
  obtain ⟨q, hq, hqok, hqw, hmark⟩ := @markWords_spec readable _ _ hw (numBlocks / 32) _ hp
    (fun k hk hk' => hr k hk (by omega)) (by omega)
  by_cases h0 : numBlocks % 32 = 0
  · refine ⟨q.bitmap, ?_, ?_⟩
    · simp only [markRest, hq, h0, ne_eq, not_true_eq_false, if_false]
    · rwa [show 32 * (numBlocks / 32) = numBlocks by omega] at hmark
  · obtain ⟨u, hu, huok, hu0, huw, hub⟩ := hqok.advance (hr _ (by omega) (by omega)) (by omega)
    have htail := marked_store u.bitmap
      (put (u.bitmap u.currentWord) (~~~(BitVec.allOnes 32 >>> (numBlocks % 32)))) u.currentWord
      0 (numBlocks % 32) (by omega) (v := v) (fun i hi => by
        rw [hput _ _ i hi, getMsbD_tailMask hi]
        simp only [decide_eq_true_eq, Nat.zero_le, true_and])
    refine ⟨(u.store (put (u.bitmap u.currentWord)
      (~~~(BitVec.allOnes 32 >>> (numBlocks % 32))))).bitmap, ?_, ?_⟩
    · simp only [markRest, hq, ne_eq, h0, not_false_eq_true, if_true, hu]
    · have hpos : 32 * u.currentWord + 0 = 32 * p.currentWord + 32 * (numBlocks / 32) := by omega
      rw [hpos, Nat.sub_zero] at htail
      rw [← hub] at hmark
      have h := hmark.append htail
      rwa [show 32 * (numBlocks / 32) + numBlocks % 32 = numBlocks by omega] at h

/-- A bitmap block with a bit of the range; the one of `startingBlock` is read in any case. -/
def RangeBlock (startingBlock numBlocks k : ℕ) : Prop :=
  startingBlock < 4096 * (k + 1) ∧ 4096 * k < startingBlock + max numBlocks 1

/-- The marking routines change the bits of the range and no others, and they read the bitmap
blocks of the range and no others. -/
theorem blockMark_spec {put : BitVec 32 → BitVec 32 → BitVec 32} {whole : BitVec 32} {v : Bool}
    (hput : Puts put v) (hw : ∀ i, i < 32 → whole.getMsbD i = v) {readable : ℕ → Bool}
    (bitmap : Bitmap) {startingBlock numBlocks : ℕ}
    (hr : ∀ k, RangeBlock startingBlock numBlocks k → readable k = true)
    (hs : startingBlock + numBlocks ≤ 2 ^ 32) : ∃ bitmap',
      blockMark put whole readable bitmap startingBlock numBlocks = (.noErr, bitmap') ∧
      Marked bitmap bitmap' startingBlock numBlocks v := by
  generalize hp : MarkPos.mk bitmap startingBlock
    (startingBlock / 4096 * 128 + startingBlock % 4096 / 32)
    (128 - startingBlock % 4096 / 32) = p
  have hok : p.Ok ∧ 0 < p.wordsLeft ∧ p.currentWord = p.startingBlock / 32 := by
    rw [← hp]
    refine ⟨⟨?_, ?_⟩, ?_, ?_⟩
    all_goals
      dsimp only
      omega
  have hstart : p.startingBlock = startingBlock := by rw [← hp]
  have hbm : p.bitmap = bitmap := by rw [← hp]
  obtain ⟨hok1, hle, hpos, hmark⟩ := markHead_spec hput hok.1 hok.2.1 hok.2.2 numBlocks
  rw [hstart] at hpos
  rw [hstart, hbm] at hmark
  have hrun : blockMark put whole readable bitmap startingBlock numBlocks =
      markRest put whole readable (markHead put p numBlocks).1 (markHead put p numBlocks).2 := by
    have hfirst : readable (startingBlock / 4096) = true :=
      hr _ ⟨by omega, by omega⟩
    simp only [blockMark, readBitmapBlock, hfirst, if_true, hp]
  rw [hrun]
  generalize markHead put p numBlocks = head at hok1 hle hpos hmark ⊢
  by_cases h0 : head.2 = 0
  · refine ⟨head.1.bitmap, ?_, ?_⟩
    · simp [markRest, markWords, h0]
    · rwa [h0, Nat.sub_zero] at hmark
  · obtain ⟨bitmap', hrest, hmark'⟩ := @markRest_spec put whole v hput hw readable head.1 hok1
      head.2 (fun k hk hk' => hr k ⟨by have := hpos h0; omega, by have := hpos h0; omega⟩)
      (by have := hpos h0; omega)
    refine ⟨bitmap', hrest, ?_⟩
    rw [hpos h0] at hmark'
    have h := hmark.append hmark'
    rwa [show numBlocks - head.2 + head.2 = numBlocks by omega] at h

theorem blockMarkAllocated_spec {readable : ℕ → Bool} (bitmap : Bitmap)
    {startingBlock numBlocks : ℕ}
    (hr : ∀ k, RangeBlock startingBlock numBlocks k → readable k = true)
    (hs : startingBlock + numBlocks ≤ 2 ^ 32) :
    ∃ bitmap', blockMarkAllocated readable bitmap startingBlock numBlocks = (.noErr, bitmap') ∧
      Marked bitmap bitmap' startingBlock numBlocks true :=
  blockMark_spec puts_or (fun i hi => by rw [BitVec.getMsbD_allOnes]; simpa using hi) bitmap hr hs

theorem blockMarkFree_spec {readable : ℕ → Bool} (bitmap : Bitmap) {startingBlock numBlocks : ℕ}
    (hr : ∀ k, RangeBlock startingBlock numBlocks k → readable k = true)
    (hs : startingBlock + numBlocks ≤ 2 ^ 32) :
    ∃ bitmap', blockMarkFree readable bitmap startingBlock numBlocks = (.noErr, bitmap') ∧
      Marked bitmap bitmap' startingBlock numBlocks false :=
  blockMark_spec puts_and_not (fun i _ => by simp) bitmap hr hs

/-- Marking is exact and can be taken back, and it needs no bitmap block outside the range. -/
theorem blockMark_exact (vcb : Vcb) (startingBlock numBlocks : ℕ)
    (ht : vcb.totalBlocks < 2 ^ 32) (hin : startingBlock + numBlocks ≤ vcb.totalBlocks)
    (hr : ∀ k, RangeBlock startingBlock numBlocks k → vcb.readable k = true) :
    (∃ bitmap',
      blockMarkAllocated vcb.readable vcb.bitmap startingBlock numBlocks = (.noErr, bitmap') ∧
      (∀ b, bitAt bitmap' b = if startingBlock ≤ b ∧ b < startingBlock + numBlocks then true
        else bitAt vcb.bitmap b) ∧
      (∀ k, ¬ RangeBlock startingBlock numBlocks k → ∀ i, i < 128 →
        bitmap' (128 * k + i) = vcb.bitmap (128 * k + i)) ∧
      ((∀ b, startingBlock ≤ b → b < startingBlock + numBlocks → bitAt vcb.bitmap b = false) →
        blockMarkFree vcb.readable bitmap' startingBlock numBlocks = (.noErr, vcb.bitmap))) ∧
    (∃ bitmap',
      blockMarkFree vcb.readable vcb.bitmap startingBlock numBlocks = (.noErr, bitmap') ∧
      (∀ b, bitAt bitmap' b = if startingBlock ≤ b ∧ b < startingBlock + numBlocks then false
        else bitAt vcb.bitmap b) ∧
      (∀ k, ¬ RangeBlock startingBlock numBlocks k → ∀ i, i < 128 →
        bitmap' (128 * k + i) = vcb.bitmap (128 * k + i))) := by
  have hs : startingBlock + numBlocks ≤ 2 ^ 32 := by omega
  have hout : ∀ {bitmap' : Bitmap} {v : Bool}, Marked vcb.bitmap bitmap' startingBlock numBlocks v →
      ∀ k, ¬ RangeBlock startingBlock numBlocks k → ∀ i, i < 128 →
        bitmap' (128 * k + i) = vcb.bitmap (128 * k + i) := by
    intro bitmap' v hmarked k hk i hi
    apply hmarked.word_eq
    unfold RangeBlock at hk
    omega
  obtain ⟨bitmap₁, hset, hmarked₁⟩ := blockMarkAllocated_spec vcb.bitmap hr hs
  obtain ⟨bitmap₂, hclear, hmarked₂⟩ := blockMarkFree_spec vcb.bitmap hr hs
  refine ⟨⟨bitmap₁, hset, hmarked₁, hout hmarked₁, fun hfree => ?_⟩,
    bitmap₂, hclear, hmarked₂, hout hmarked₂⟩
  obtain ⟨bitmap₃, hback, hmarked₃⟩ := blockMarkFree_spec bitmap₁ hr hs
  have hsame : bitmap₃ = vcb.bitmap := Marked.undo hmarked₁ hmarked₃ hfree
  rw [hback, hsame]

/-- A range over the end of the first bitmap block of an empty bitmap. -/
theorem blockMark_exact_twoBitmapBlocks :
    (∃ bitmap', blockMarkAllocated (fun k => decide (k < 2)) (fun _ => 0) 4090 12 = (.noErr, bitmap') ∧
      blockMarkFree (fun k => decide (k < 2)) bitmap' 4090 12 = (.noErr, fun _ => 0)) := by
  obtain ⟨⟨bitmap', hset, -, -, hundo⟩, -⟩ := blockMark_exact
    ⟨4096, 4096, 8000, fun k => decide (k < 2), fun _ => 0, 8000, 8000, 0⟩ 4090 12 (by decide)
    (by decide) (by
      rintro k ⟨h1, h2⟩
      simp only [decide_eq_true_eq]
      omega)
  exact ⟨bitmap', hset, hundo (fun b _ _ => by simp [bitAt])⟩

/-! ## Counting -/

theorem countBits_spec : ∀ (n : ℕ) (temp : BitVec 32) (freeCount : ℕ),
    Nat.count (fun i => temp.getLsbD i = true) 32 ≤ n →
    countBits n temp freeCount = freeCount + Nat.count (fun i => temp.getLsbD i = true) 32
  | 0, temp, freeCount, h => by
    rw [countBits]
    omega
  | n + 1, temp, freeCount, h => by
    rw [countBits]
    split_ifs with h0
    · subst h0
      simp
    · have hc := count_and_sub_one h0
      rw [countBits_spec n _ _ (by omega)]
      omega

theorem countTail_spec : ∀ (n : ℕ) (temp : BitVec 32) (freeCount : ℕ), n ≤ 32 →
    countTail n temp freeCount = freeCount + Nat.count (fun i => temp.getMsbD i = true) n
  | 0, temp, freeCount, _ => rfl
  | n + 1, temp, freeCount, h => by
    have hbit : temp &&& maskAt 32 0 ≠ 0 ↔ temp.getMsbD 0 = true := by
      rw [Ne, and_maskAt_eq_zero (by omega)]
      simp
    have hshift : Nat.count (fun i => (temp <<< 1).getMsbD i = true) n =
        Nat.count (fun i => temp.getMsbD (i + 1) = true) n := by
      refine count_congr (fun i hi => ?_)
      rw [BitVec.getMsbD_shiftLeft, Nat.add_comm]
    rw [countTail, countTail_spec n _ _ (by omega), hshift, Nat.count_succ']
    by_cases hb : temp.getMsbD 0 = true
    · rw [if_pos (hbit.mpr hb), if_pos hb]
      omega
    · rw [if_neg (mt hbit.mp hb), if_neg hb]
      omega

theorem count_clear (bitmap : Bitmap) (k : ℕ) {n : ℕ} (hn : n ≤ 32) :
    Nat.count (fun i => bitAt bitmap (32 * k + i) = false) n =
      Nat.count (fun i => (~~~(bitmap k)).getMsbD i = true) n := by
  refine count_congr (fun i hi => ?_)
  rw [bitAt, BitVec.getMsbD_not, show (32 * k + i) / 32 = k by omega,
    show (32 * k + i) % 32 = i by omega]
  simp [show i < 32 by omega]

theorem countWords_spec {readable : ℕ → Bool} (hr : ∀ k, readable k = true) (bitmap : Bitmap) :
    ∀ (n freeCount : ℕ) {p : MarkPos}, p.Ok → 32 * (p.currentWord + n) ≤ 2 ^ 32 →
    ∃ p', countWords readable bitmap n freeCount p = some (freeCount +
        Nat.count (fun i => bitAt bitmap (32 * p.currentWord + i) = false) (32 * n), p') ∧
      p'.Ok ∧ p'.currentWord = p.currentWord + n
  | 0, freeCount, p, hp, hn => ⟨p, rfl, hp, rfl⟩
  | n + 1, freeCount, p, hp, hn => by
    obtain ⟨q, hq, hqok, hq0, hqw, -⟩ := hp.advance (hr _) (by omega)
    have hok : ({ q with currentWord := q.currentWord + 1, wordsLeft := q.wordsLeft - 1 } :
        MarkPos).Ok := by
      have h := hqok.store hq0 0
      exact ⟨h.ends, h.left⟩
    have hbits : countBits 32 (~~~(bitmap q.currentWord)) freeCount = freeCount +
        Nat.count (fun i => bitAt bitmap (32 * p.currentWord + i) = false) 32 := by
      rw [countBits_spec 32 _ _ (Nat.count_le _), ← count_getMsbD, hqw, count_clear _ _ (le_refl _)]
    obtain ⟨p', hp', hok', hcw⟩ := countWords_spec hr bitmap n
      (countBits 32 (~~~(bitmap q.currentWord)) freeCount) hok (by dsimp only; omega)
    refine ⟨p', ?_, hok', ?_⟩
    · simp only [countWords, hq]
      rw [hp', hbits]
      have hsplit : 32 * (n + 1) = 32 + 32 * n := by omega
      have hnext : 32 * (q.currentWord + 1) = 32 * p.currentWord + 32 := by omega
      simp only [hsplit, hnext, Nat.count_add, Nat.add_assoc]
    · rw [hcw]
      dsimp only
      omega

theorem updateFreeCount_spec {vcb : Vcb} (hr : ∀ k, vcb.readable k = true)
    (ht : vcb.totalBlocks < 2 ^ 32) : updateFreeCount vcb = (.noErr,
      updateVCBFreeBlks { vcb with freeBlocks := clearCount vcb.bitmap vcb.totalBlocks }) := by
  obtain ⟨p, hp, hok, hcw⟩ := @countWords_spec vcb.readable hr vcb.bitmap (vcb.totalBlocks / 32) 0
    ⟨vcb.bitmap, 0, 0, 128⟩ ⟨by norm_num, le_refl _⟩ (by dsimp only; omega)
  simp only [Nat.zero_add, Nat.mul_zero] at hp hcw
  by_cases h0 : vcb.totalBlocks % 32 = 0
  · have hall : 32 * (vcb.totalBlocks / 32) = vcb.totalBlocks := by omega
    simp only [updateFreeCount, readBitmapBlock, hr, if_true, hp, h0, ne_eq, not_true_eq_false,
      if_false, hall]
    rfl
  · obtain ⟨q, hq, -, -, hqw, -⟩ := hok.advance (hr _) (by omega)
    have hall : clearCount vcb.bitmap vcb.totalBlocks =
        Nat.count (fun i => bitAt vcb.bitmap i = false) (32 * (vcb.totalBlocks / 32)) +
        Nat.count (fun i => (~~~(vcb.bitmap q.currentWord)).getMsbD i = true)
          (vcb.totalBlocks % 32) := by
      rw [← count_clear vcb.bitmap q.currentWord (by omega), hqw, hcw, ← Nat.count_add,
        Nat.div_add_mod]
      rfl
    simp only [updateFreeCount, readBitmapBlock, hr, if_true, hp, h0, ne_eq, not_false_eq_true, hq]
    rw [countTail_spec _ _ _ (by omega), hall]

end Darwin.Hfs.VolumeAllocation
