import Darwin.Hfs.VolumeAccounting

/-! # Giving back ranges one after the other

`BlockDeallocate` may fail to read the bitmap. When it succeeds it has cleared the bits of its
range, whatever else can be read; a file gives back its extents by a series of such calls.
-/
namespace Darwin.Hfs.VolumeAllocation
open Darwin.Lib

/-! ## What could be read does not matter -/

theorem MarkPos.advance_reads {readable : ℕ → Bool} {p q : MarkPos} (h : p.advance readable = .ok q) :
    p.advance (fun _ => true) = .ok q := by
  unfold MarkPos.advance at h ⊢
  by_cases h0 : p.wordsLeft = 0
  · rw [if_pos h0] at h ⊢
    dsimp only at h ⊢
    split_ifs at h
    exact h
  · rw [if_neg h0] at h ⊢
    exact h

theorem markWords_reads {readable : ℕ → Bool} {whole : BitVec 32} : ∀ (n : ℕ) {p q : MarkPos},
    markWords readable whole n p = .ok q → markWords (fun _ => true) whole n p = .ok q
  | 0, _, _, h => h
  | n + 1, p, q, h => by
    cases hp : p.advance readable with
    | error bitmap =>
      rw [markWords, hp] at h
      cases h
    | ok p' =>
      rw [markWords, hp] at h
      rw [markWords, MarkPos.advance_reads hp]
      exact markWords_reads n h

theorem markRest_reads {put : BitVec 32 → BitVec 32 → BitVec 32} {whole : BitVec 32} {readable : ℕ → Bool}
    {p : MarkPos} {numBlocks : ℕ} {bitmap' : Bitmap}
    (h : markRest put whole readable p numBlocks = (.noErr, bitmap')) :
    markRest put whole (fun _ => true) p numBlocks = (.noErr, bitmap') := by
  unfold markRest at h ⊢
  cases hw : markWords readable whole (numBlocks / 32) p with
  | error bitmap =>
    rw [hw] at h
    cases h
  | ok q =>
    rw [hw] at h
    rw [markWords_reads _ hw]
    dsimp only at h ⊢
    by_cases h0 : numBlocks % 32 ≠ 0
    · rw [if_pos h0] at h ⊢
      cases ha : q.advance readable with
      | error bitmap =>
        rw [ha] at h
        cases h
      | ok u =>
        rw [ha] at h
        rw [MarkPos.advance_reads ha]
        exact h
    · rw [if_neg h0] at h ⊢
      exact h

theorem blockMark_reads {put : BitVec 32 → BitVec 32 → BitVec 32} {whole : BitVec 32} {readable : ℕ → Bool}
    {bitmap bitmap' : Bitmap} {startingBlock numBlocks : ℕ}
    (h : blockMark put whole readable bitmap startingBlock numBlocks = (.noErr, bitmap')) :
    blockMark put whole (fun _ => true) bitmap startingBlock numBlocks = (.noErr, bitmap') := by
  unfold blockMark at h ⊢
  split_ifs at h
  · rw [if_pos (by rfl)]
    exact markRest_reads h
  · cases h

theorem blockMarkFree_noErr {readable : ℕ → Bool} {bitmap bitmap' : Bitmap} {startingBlock numBlocks : ℕ}
    (hs : startingBlock + numBlocks ≤ 2 ^ 32)
    (h : blockMarkFree readable bitmap startingBlock numBlocks = (.noErr, bitmap')) :
    Marked bitmap bitmap' startingBlock numBlocks false := by
  obtain ⟨bitmap'', hmark, hmarked⟩ := @blockMarkFree_spec (fun _ => true) bitmap _ _ (fun _ _ => rfl) hs
  have hsame := (blockMark_reads h).symm.trans hmark
  rw [(Prod.mk.inj hsame).2]
  exact hmarked

/-! ## A series of calls -/

/-- The blocks of the list are given back by calls for the ranges it consists of. -/
inductive Releases : Vcb → List ℕ → Vcb → Prop
  | nil (vcb : Vcb) : Releases vcb [] vcb
  | cons {vcb vcb₁ vcb' : Vcb} {firstBlock numBlocks : ℕ} {blocks : List ℕ} (hpos : 0 < numBlocks)
      (hin : firstBlock + numBlocks ≤ vcb.totalBlocks)
      (hcall : blockDeallocate vcb firstBlock numBlocks = (.noErr, vcb₁)) (hrest : Releases vcb₁ blocks vcb') :
      Releases vcb (List.range' firstBlock numBlocks ++ blocks) vcb'

theorem Releases.trans {vcb vcb₁ vcb' : Vcb} {blocks blocks' : List ℕ} (h : Releases vcb blocks vcb₁)
    (h' : Releases vcb₁ blocks' vcb') : Releases vcb (blocks ++ blocks') vcb' := by
  induction h with
  | nil vcb => exact h'
  | cons hpos hin hcall _ ih =>
    rw [List.append_assoc]
    exact .cons hpos hin hcall (ih h')

theorem Releases.one {vcb vcb' : Vcb} {firstBlock numBlocks : ℕ} (hpos : 0 < numBlocks)
    (hin : firstBlock + numBlocks ≤ vcb.totalBlocks)
    (hcall : blockDeallocate vcb firstBlock numBlocks = (.noErr, vcb')) :
    Releases vcb (List.range' firstBlock numBlocks) vcb' := by
  have h := Releases.cons hpos hin hcall (.nil vcb')
  rwa [List.append_nil] at h

theorem blockDeallocate_noErr {vcb vcb' : Vcb} {firstBlock numBlocks : ℕ} (hpos : 0 < numBlocks)
    (hin : firstBlock + numBlocks ≤ 2 ^ 32) (h : blockDeallocate vcb firstBlock numBlocks = (.noErr, vcb')) :
    Marked vcb.bitmap vcb'.bitmap firstBlock numBlocks false ∧ vcb'.freeBlocks = u32 (vcb.freeBlocks + numBlocks) ∧
    vcb'.totalBlocks = vcb.totalBlocks ∧ vcb'.blockSize = vcb.blockSize ∧ updateVCBFreeBlks vcb' = vcb' := by
  unfold blockDeallocate at h
  rw [if_neg hpos.ne'] at h
  dsimp only at h
  by_cases herr : (blockMarkFree vcb.readable vcb.bitmap firstBlock numBlocks).1 = .noErr
  · rw [if_neg (not_not.mpr herr)] at h
    obtain ⟨-, rfl⟩ := Prod.mk.inj h
    exact ⟨blockMarkFree_noErr hin (Prod.ext herr rfl), rfl, rfl, rfl, rfl⟩
  · rw [if_pos herr] at h
    exact absurd (Prod.mk.inj h).1 herr

section series
variable {vcb vcb' : Vcb} {blocks : List ℕ}

theorem Releases.same (h : Releases vcb blocks vcb') (ht : vcb.totalBlocks < 2 ^ 32) :
    vcb'.totalBlocks = vcb.totalBlocks ∧ vcb'.blockSize = vcb.blockSize := by
  induction h with
  | nil vcb => exact ⟨rfl, rfl⟩
  | cons hpos hin hcall _ ih =>
    obtain ⟨-, -, htotal, hsize, -⟩ := blockDeallocate_noErr hpos (hin.trans ht.le) hcall
    obtain ⟨htotal', hsize'⟩ := ih (htotal.symm ▸ ht)
    exact ⟨htotal'.trans htotal, hsize'.trans hsize⟩

theorem Releases.bitAt (h : Releases vcb blocks vcb') (ht : vcb.totalBlocks < 2 ^ 32) (b : ℕ) :
    bitAt vcb'.bitmap b = if b ∈ blocks then false else Lib.bitAt vcb.bitmap b := by
  induction h with
  | nil vcb => rw [if_neg List.not_mem_nil]
  | @cons _ _ _ _ _ rest hpos hin hcall _ ih =>
    obtain ⟨hmark, -, htotal, -, -⟩ := blockDeallocate_noErr hpos (hin.trans ht.le) hcall
    rw [ih (htotal.symm ▸ ht), hmark b]
    simp only [List.mem_append, List.mem_range'_1]
    by_cases hrest : b ∈ rest
    · rw [if_pos hrest, if_pos (.inr hrest)]
    · rw [if_neg hrest]
      simp only [hrest, or_false]

theorem Releases.freeBlocks (h : Releases vcb blocks vcb') (ht : vcb.totalBlocks < 2 ^ 32)
    (hroom : vcb.freeBlocks + blocks.length < 2 ^ 32) : vcb'.freeBlocks = vcb.freeBlocks + blocks.length := by
  induction h with
  | nil vcb => rfl
  | cons hpos hin hcall _ ih =>
    obtain ⟨-, hfree, htotal, -, -⟩ := blockDeallocate_noErr hpos (hin.trans ht.le) hcall
    rw [List.length_append, List.length_range'] at hroom ⊢
    rw [u32_eq (by omega)] at hfree
    rw [ih (htotal.symm ▸ ht) (by omega), hfree, Nat.add_assoc]

theorem Releases.vcbFreeBks (h : Releases vcb blocks vcb') (ht : vcb.totalBlocks < 2 ^ 32) :
    (blocks = [] ∧ vcb' = vcb) ∨ updateVCBFreeBlks vcb' = vcb' := by
  induction h with
  | nil vcb => exact .inl ⟨rfl, rfl⟩
  | cons hpos hin hcall hrest ih =>
    obtain ⟨-, -, htotal, -, hfinal⟩ := blockDeallocate_noErr hpos (hin.trans ht.le) hcall
    rcases ih (htotal.symm ▸ ht) with ⟨-, rfl⟩ | h
    · exact .inr hfinal
    · exact .inr h

end series

end Darwin.Hfs.VolumeAllocation
