import Darwin.Vm.VnodePager

/-! # The map of a pager

What a map shows does not depend on its form, and does not change when it grows.
-/
namespace Darwin.Vm
open List

variable {v v' : Vstruct} {ws : List PmapWord} {es : List PfEntry} {e : PfEntry} {n page q : ℕ}
  {kget : KgetSite → Bool}

/-! ## Words -/

theorem mod_lt_entries (page : ℕ) : page % pagemapEntries < pagemapEntries := Nat.mod_lt page (Nat.succ_pos 15)

@[simp] theorem foundEntry_null : foundEntry .null = none := rfl

theorem foundEntry_eq (h : e.index ≠ indexNull) : foundEntry e = some e := if_neg h

/-- What a direct map shows. -/
def directSlot (ws : List PmapWord) (page : ℕ) : Option PfEntry :=
  match ws[page]? with
  | some (.entry e) => foundEntry e
  | _ => none

/-- What an indirect map shows. -/
def blockSlot (ws : List PmapWord) (page : ℕ) : Option PfEntry :=
  match ws[page / pagemapEntries]? with
  | some (.block entries) => entries[page % pagemapEntries]?.bind foundEntry
  | _ => none

def Vstruct.slot (v : Vstruct) (page : ℕ) : Option PfEntry :=
  if indirPagemap v.vsSize then blockSlot v.vsPmap page else directSlot v.vsPmap page

structure DirectOk (ws : List PmapWord) (n : ℕ) : Prop where
  length : ws.length = n
  words : ∀ w ∈ ws, ∃ e, w = .entry e

/-- Entries behind the last page are null, as the object may grow without a new map. -/
structure BlocksOk (ws : List PmapWord) (n : ℕ) : Prop where
  length : ws.length = indirPagemapEntries n
  words : ∀ w ∈ ws, w = .null ∨ ∃ es, w = .block es ∧ es.length = pagemapEntries
  beyond : ∀ page, n ≤ page → blockSlot ws page = none

structure Vstruct.MapOk (v : Vstruct) : Prop where
  direct : ¬ indirPagemap v.vsSize → DirectOk v.vsPmap v.vsSize
  blocks : indirPagemap v.vsSize → BlocksOk v.vsPmap v.vsSize

theorem Vstruct.slot_direct (h : ¬ indirPagemap v.vsSize) : v.slot page = directSlot v.vsPmap page := if_neg h

theorem Vstruct.slot_blocks (h : indirPagemap v.vsSize) : v.slot page = blockSlot v.vsPmap page := if_pos h

theorem DirectOk.word (h : DirectOk ws n) (hp : page < n) : ∃ e, ws[page]? = some (.entry e) := by
  have hlt : page < ws.length := h.length.symm ▸ hp
  obtain ⟨e, he⟩ := h.words ws[page] (getElem_mem hlt)
  exact ⟨e, (List.getElem?_eq_getElem hlt).trans (congrArg some he)⟩

theorem DirectOk.beyond (h : DirectOk ws n) (hp : n ≤ page) : directSlot ws page = none := by
  rw [directSlot, List.getElem?_eq_none (h.length.trans_le hp)]

theorem BlocksOk.word (h : BlocksOk ws n) (hp : page < n) : ws[page / pagemapEntries]? = some .null ∨
    ∃ es, ws[page / pagemapEntries]? = some (.block es) ∧ es.length = pagemapEntries := by
  have hlt : page / pagemapEntries < ws.length := by
    rw [h.length, indirPagemapEntries, pagemapEntries]
    omega
  rw [List.getElem?_eq_getElem hlt]
  rcases h.words ws[page / pagemapEntries] (getElem_mem hlt) with hnull | ⟨es, hes, hlen⟩
  · exact .inl (congrArg some hnull)
  · exact .inr ⟨es, congrArg some hes, hlen⟩

theorem blockSlot_null (h : ws[page / pagemapEntries]? = some .null) : blockSlot ws page = none := by
  rw [blockSlot, h]

theorem blockSlot_block (h : ws[page / pagemapEntries]? = some (.block es)) :
    blockSlot ws page = es[page % pagemapEntries]?.bind foundEntry := by
  rw [blockSlot, h]

theorem Vstruct.MapOk.beyond (h : v.MapOk) (hp : v.vsSize ≤ page) : v.slot page = none := by
  by_cases hind : indirPagemap v.vsSize
  · rw [slot_blocks hind]
    exact (h.blocks hind).beyond page hp
  · rw [slot_direct hind]
    exact (h.direct hind).beyond hp

theorem Vstruct.MapOk.lt_of_slot (h : v.MapOk) (hs : v.slot page = some e) : page < v.vsSize := by
  by_contra hge
  rw [h.beyond (not_lt.mp hge)] at hs
  cases hs

theorem Vstruct.word_eq {i : ℕ} {w : PmapWord} (h : v.vsPmap[i]? = some w) : v.word i = .ok w := by
  rw [Vstruct.word, h]

theorem Vstruct.MapOk.lookup (h : v.MapOk) (fOffset : ℕ) : pagerfileLookup v fOffset = .ok (v.slot (atop fOffset)) := by
  rw [pagerfileLookup]
  by_cases hsize : v.vsSize ≤ atop fOffset
  · rw [h.beyond hsize]
    simp only [bind, Except.bind, pure, Except.pure, if_pos hsize]
  · simp only [bind, Except.bind, pure, Except.pure, if_neg hsize]
    by_cases hind : indirPagemap v.vsSize
    · rw [if_pos hind, slot_blocks hind]
      rcases (h.blocks hind).word (not_le.mp hsize) with hnull | ⟨es, hes, hlen⟩
      · rw [word_eq hnull, blockSlot_null hnull]
        rfl
      · have hlt : atop fOffset % pagemapEntries < es.length := hlen.symm ▸ mod_lt_entries _
        rw [word_eq hes, blockSlot_block hes]
        simp only [PmapWord.asBlock, blockEntry, List.getElem?_eq_getElem hlt, Option.bind_some]
    · rw [if_neg hind, slot_direct hind]
      obtain ⟨e, he⟩ := (h.direct hind).word (not_le.mp hsize)
      rw [word_eq he, directSlot, he]
      rfl

/-! ## Growth -/

theorem directEntries_spec (h : ∀ w ∈ ws, ∃ e, w = .entry e) :
    ∃ es, directEntries ws = .ok es ∧ ws = es.map .entry := by
  induction ws with
  | nil => exact ⟨[], rfl, rfl⟩
  | cons w rest ih =>
    obtain ⟨⟨e, rfl⟩, hrest⟩ := forall_mem_cons.mp h
    obtain ⟨es, hes, heq⟩ := ih hrest
    refine ⟨e :: es, ?_, by rw [map_cons, ← heq]⟩
    simp only [directEntries, PmapWord.asEntry, bind, Except.bind, hes, pure, Except.pure]

theorem blockSlot_replicate (k page : ℕ) : blockSlot (List.replicate k .null) page = none := by
  rw [blockSlot, List.getElem?_replicate]
  split
  · rename_i heq
    split at heq <;> cases heq
  · rfl

theorem nullWords_ok (n : ℕ) : BlocksOk (List.replicate (indirPagemapEntries n) .null) n :=
  ⟨length_replicate, fun _ hw => .inl (eq_of_mem_replicate hw), fun page _ => blockSlot_replicate _ page⟩

theorem blockSlot_append (k : ℕ) : blockSlot (ws ++ List.replicate k .null) page = blockSlot ws page := by
  by_cases hlt : page / pagemapEntries < ws.length
  · rw [blockSlot, List.getElem?_append_left hlt, blockSlot]
  · rw [blockSlot, List.getElem?_append_right (not_lt.mp hlt), List.getElem?_replicate, blockSlot,
      List.getElem?_eq_none (not_lt.mp hlt)]
    split
    · rename_i heq
      split at heq <;> cases heq
    · rfl

theorem directSlot_append (k : ℕ) : directSlot (ws ++ List.replicate k (.entry .null)) page = directSlot ws page := by
  by_cases hlt : page < ws.length
  · rw [directSlot, List.getElem?_append_left hlt, directSlot]
  · rw [directSlot, List.getElem?_append_right (not_lt.mp hlt), List.getElem?_replicate, directSlot,
      List.getElem?_eq_none (not_lt.mp hlt)]
    split
    · rename_i heq
      split at heq <;> cases heq
      rfl
    · rfl

theorem blockSlot_first (hlen : es.length ≤ pagemapEntries) (k : ℕ) :
    blockSlot (.block (es ++ List.replicate (pagemapEntries - es.length) .null) :: List.replicate k .null) page =
      directSlot (es.map .entry) page := by
  by_cases hfirst : page < pagemapEntries
  · rw [blockSlot, Nat.div_eq_of_lt hfirst, Nat.mod_eq_of_lt hfirst, directSlot, List.getElem?_map]
    by_cases hlt : page < es.length
    · simp [List.getElem?_append_left hlt, List.getElem?_eq_getElem hlt]
    · simp only [List.getElem?_cons_zero, List.getElem?_append_right (not_lt.mp hlt), List.getElem?_replicate,
        List.getElem?_eq_none (not_lt.mp hlt), Option.map_none]
      split_ifs <;> rfl
  · have hdiv : page / pagemapEntries = (page / pagemapEntries - 1) + 1 := by
      rw [pagemapEntries] at *
      omega
    rw [blockSlot, hdiv, List.getElem?_cons_succ, List.getElem?_replicate, directSlot,
      List.getElem?_eq_none (by rw [length_map]; omega)]
    split
    · rename_i heq
      split at heq <;> cases heq
    · rfl

/-- A map of the right form for the new size that shows the same. -/
structure Expanded (v : Vstruct) (newSize : ℕ) (v' : Vstruct) : Prop where
  vsPf : v'.vsPf = v.vsPf
  vsSize : v'.vsSize = newSize
  map : v'.MapOk
  slot : ∀ page, v'.slot page = v.slot page

theorem indirPagemap_mono {m : ℕ} (h : indirPagemap n = true) (hle : n ≤ m) : indirPagemap m = true := by
  simp only [indirPagemap, decide_eq_true_eq] at h ⊢
  omega

theorem expanded_blocks {newSize : ℕ} (hind : indirPagemap newSize = true) (hlen : ws.length = indirPagemapEntries newSize)
    (hwords : ∀ w ∈ ws, w = .null ∨ ∃ es, w = .block es ∧ es.length = pagemapEntries) (h : v.MapOk)
    (hsize : v.vsSize < newSize) (hslot : ∀ page, blockSlot ws page = v.slot page) :
    Expanded v newSize { v with vsPmap := ws, vsSize := newSize } := by
  refine ⟨rfl, rfl, ⟨fun hnot => absurd hind hnot, fun _ => ⟨hlen, hwords, ?_⟩⟩, ?_⟩
  · intro page hp
    rw [hslot]
    exact h.beyond (by change newSize ≤ page at hp; omega)
  · intro page
    rw [Vstruct.slot_blocks hind]
    exact hslot page

theorem slot_empty (h : v.MapOk) (hzero : v.vsSize = 0) : v.slot page = none := h.beyond (by omega)

theorem Vstruct.MapOk.expand (kget : KgetSite → Bool) (h : v.MapOk) (hsize : v.vsSize < n) :
    expandMap kget v n = .ok none ∨ ∃ v', expandMap kget v n = .ok (some v') ∧ Expanded v n v' := by
  rw [expandMap]
  by_cases hnew : indirPagemap n
  · rw [if_pos hnew]
    by_cases hzero : v.vsSize = 0
    · rw [if_pos hzero]
      by_cases hmem : kget .map
      · rw [if_pos hmem]
        refine .inr ⟨_, rfl, expanded_blocks hnew length_replicate (nullWords_ok n).words h hsize ?_⟩
        intro page
        rw [blockSlot_replicate, slot_empty h hzero]
      · exact .inl (if_neg hmem)
    rw [if_neg hzero]
    by_cases hold : indirPagemap v.vsSize
    · rw [if_pos hold]
      have hblocks := h.blocks hold
      by_cases hsame : indirPagemapEntries n = indirPagemapEntries v.vsSize
      · rw [if_pos hsame]
        refine .inr ⟨_, rfl, expanded_blocks hnew (hblocks.length.trans hsame.symm) hblocks.words h hsize ?_⟩
        exact fun page => (slot_blocks hold).symm
      rw [if_neg hsame]
      by_cases hmem : kget .map
      · rw [if_pos hmem]
        have htake : v.vsPmap.take (indirPagemapEntries v.vsSize) = v.vsPmap :=
          take_of_length_le hblocks.length.le
        rw [htake]
        have hmore : indirPagemapEntries v.vsSize ≤ indirPagemapEntries n := by
          rw [indirPagemapEntries, indirPagemapEntries, pagemapEntries]
          omega
        refine .inr ⟨_, rfl, expanded_blocks hnew ?_ ?_ h hsize ?_⟩
        · rw [length_append, length_replicate, hblocks.length]
          omega
        · intro w hw
          rcases mem_append.mp hw with hw | hw
          · exact hblocks.words w hw
          · exact .inl (eq_of_mem_replicate hw)
        · intro page
          rw [blockSlot_append, slot_blocks hold]
      · exact .inl (if_neg hmem)
    · rw [if_neg hold]
      have hdirect := h.direct hold
      by_cases hmem : kget .map
      · rw [if_pos hmem]
        by_cases hfirst : kget .firstBlock
        · rw [if_pos hfirst, take_of_length_le hdirect.length.le]
          obtain ⟨es, hes, hmap⟩ := directEntries_spec hdirect.words
          have hcount : v.vsSize = es.length := by
            rw [← hdirect.length, hmap, length_map]
          have hle : es.length ≤ pagemapEntries := by
            simp only [indirPagemap, decide_eq_true_eq] at hold
            omega
          rw [hes]
          refine .inr ⟨_, rfl, expanded_blocks hnew ?_ ?_ h hsize ?_⟩
          · rw [length_cons, length_replicate]
            exact Nat.sub_add_cancel (Nat.succ_pos _)
          · refine forall_mem_cons.mpr ⟨.inr ⟨_, rfl, ?_⟩, fun w hw => .inl (eq_of_mem_replicate hw)⟩
            rw [length_append, length_replicate]
            omega
          · intro page
            rw [hcount, blockSlot_first hle, ← hmap, slot_direct hold]
        · exact .inl (if_neg hfirst)
      · exact .inl (if_neg hmem)
  · rw [if_neg hnew]
    have hold : ¬ indirPagemap v.vsSize := fun hold => hnew (indirPagemap_mono hold hsize.le)
    have hdirect := h.direct hold
    by_cases hmem : kget .map
    · rw [if_pos hmem, take_of_length_le hdirect.length.le]
      refine .inr ⟨_, rfl, rfl, rfl, ⟨fun _ => ⟨?_, ?_⟩, fun hind => absurd hind hnew⟩, ?_⟩
      · rw [length_append, length_replicate, hdirect.length]
        exact Nat.add_sub_cancel' hsize.le
      · intro w hw
        rcases mem_append.mp hw with hw | hw
        · exact hdirect.words w hw
        · exact ⟨_, eq_of_mem_replicate hw⟩
      · intro page
        rw [slot_direct hnew, directSlot_append, slot_direct hold]
    · exact .inl (if_neg hmem)

/-! ## The place of a page -/

/-- The block that the page is in is there. -/
def Vstruct.HasPlace (v : Vstruct) (page : ℕ) : Prop :=
  page < v.vsSize ∧ (indirPagemap v.vsSize = true → ∃ es, v.vsPmap[page / pagemapEntries]? = some (.block es))

theorem Vstruct.MapOk.place_of_slot (h : v.MapOk) (hs : v.slot page = some e) : v.HasPlace page := by
  have hlt := h.lt_of_slot hs
  refine ⟨hlt, fun hind => ?_⟩
  rcases (h.blocks hind).word hlt with hnull | ⟨es, hes, -⟩
  · rw [slot_blocks hind, blockSlot_null hnull] at hs
    cases hs
  · exact ⟨es, hes⟩

theorem allocBlock_place (hp : v.HasPlace page) : allocBlock kget v page = .ok (some v) := by
  rw [allocBlock]
  by_cases hind : indirPagemap v.vsSize
  · obtain ⟨es, hes⟩ := hp.2 hind
    simp only [if_pos hind, Vstruct.word_eq hes, PmapWord.asBlock, bind, Except.bind, pure, Except.pure]
  · rw [if_neg hind]
    rfl

theorem blockSlot_set (hlt : page / pagemapEntries < ws.length) :
    blockSlot (ws.set (page / pagemapEntries) (.block es)) q =
      if q / pagemapEntries = page / pagemapEntries then es[q % pagemapEntries]?.bind foundEntry
      else blockSlot ws q := by
  split_ifs with heq
  · rw [blockSlot, heq, List.getElem?_set_self hlt]
  · rw [blockSlot, List.getElem?_set_ne (Ne.symm heq), blockSlot]

theorem Vstruct.MapOk.allocBlock (kget : KgetSite → Bool) (h : v.MapOk) (hlt : page < v.vsSize) :
    Vm.allocBlock kget v page = .ok none ∨
      ∃ v', Vm.allocBlock kget v page = .ok (some v') ∧ Expanded v v.vsSize v' ∧ v'.HasPlace page := by
  by_cases hind : indirPagemap v.vsSize
  · have hblocks := h.blocks hind
    rcases hblocks.word hlt with hnull | ⟨es, hes, -⟩
    · rw [Vm.allocBlock, if_pos hind]
      simp only [word_eq hnull, PmapWord.asBlock, bind, Except.bind, pure, Except.pure]
      by_cases hmem : kget .block
      · have hin : page / pagemapEntries < v.vsPmap.length := (List.getElem?_eq_some_iff.mp hnull).1
        have hslot : ∀ q, blockSlot (v.vsPmap.set (page / pagemapEntries)
            (.block (List.replicate pagemapEntries .null))) q = v.slot q := by
          intro q
          rw [blockSlot_set hin, slot_blocks hind]
          split_ifs with heq
          · rw [blockSlot_null (heq ▸ hnull), List.getElem?_replicate,
              if_pos (mod_lt_entries q)]
            rfl
          · rfl
        rw [if_pos hmem]
        refine .inr ⟨_, rfl, ⟨rfl, rfl, ⟨fun hnot => absurd hind hnot, fun _ => ⟨?_, ?_, ?_⟩⟩, ?_⟩, hlt, fun _ => ?_⟩
        · rw [length_set]
          exact hblocks.length
        · intro w hw
          rcases mem_or_eq_of_mem_set hw with hw | rfl
          · exact hblocks.words w hw
          · exact .inr ⟨_, rfl, length_replicate⟩
        · intro q hq
          exact (hslot q).trans (h.beyond hq)
        · intro q
          rw [slot, if_pos hind]
          exact hslot q
        · exact ⟨_, List.getElem?_set_self hin⟩
      · exact .inl (if_neg hmem)
    · have hplace : v.HasPlace page := ⟨hlt, fun _ => ⟨es, hes⟩⟩
      exact .inr ⟨v, allocBlock_place hplace, ⟨rfl, rfl, h, fun _ => rfl⟩, hplace⟩
  · have hplace : v.HasPlace page := ⟨hlt, fun hind' => absurd hind' hind⟩
    exact .inr ⟨v, allocBlock_place hplace, ⟨rfl, rfl, h, fun _ => rfl⟩, hplace⟩

theorem Vstruct.MapOk.putEntry (h : v.MapOk) (hp : v.HasPlace page) (he : e.index ≠ indexNull) :
    ∃ v', Vm.putEntry v page e = .ok v' ∧ v'.MapOk ∧ v'.vsPf = v.vsPf ∧ v'.slot page = some e ∧
      ∀ q ≠ page, v'.slot q = v.slot q := by
  rw [Vm.putEntry]
  by_cases hind : indirPagemap v.vsSize
  · have hblocks := h.blocks hind
    obtain ⟨es, hes⟩ := hp.2 hind
    have hin : page / pagemapEntries < v.vsPmap.length := (List.getElem?_eq_some_iff.mp hes).1
    have hlen : es.length = pagemapEntries := by
      rcases hblocks.words _ (mem_of_getElem? hes) with heq | ⟨es', heq, hlen⟩
      · cases heq
      · cases heq
        exact hlen
    have hmod : page % pagemapEntries < es.length := hlen.symm ▸ mod_lt_entries _
    have hslot : ∀ q, blockSlot (v.vsPmap.set (page / pagemapEntries)
        (.block (es.set (page % pagemapEntries) e))) q = if q = page then some e else v.slot q := by
      intro q
      rw [blockSlot_set hin, slot_blocks hind]
      split_ifs with hdiv hq hq
      · rw [hq, List.getElem?_set_self hmod, Option.bind_some, foundEntry_eq he]
      · have hne : page % pagemapEntries ≠ q % pagemapEntries := by
          intro hmods
          rw [← Nat.div_add_mod q pagemapEntries, ← hmods, hdiv, Nat.div_add_mod] at hq
          exact hq rfl
        rw [List.getElem?_set_ne hne, blockSlot_block (hdiv ▸ hes)]
      · exact absurd (hq ▸ rfl) hdiv
      · rfl
    simp only [if_pos hind, word_eq hes, PmapWord.asBlock, bind, Except.bind, pure, Except.pure]
    refine ⟨_, rfl, ⟨fun hnot => absurd hind hnot, fun _ => ⟨?_, ?_, ?_⟩⟩, rfl, ?_, ?_⟩
    · rw [length_set]
      exact hblocks.length
    · intro w hw
      rcases mem_or_eq_of_mem_set hw with hw | rfl
      · exact hblocks.words w hw
      · exact .inr ⟨_, rfl, by rw [length_set, hlen]⟩
    · intro q hq
      rw [hslot, if_neg (Nat.ne_of_gt (hp.1.trans_le hq))]
      exact h.beyond hq
    · rw [slot, if_pos hind]
      exact (hslot page).trans (if_pos rfl)
    · intro q hq
      rw [slot, if_pos hind]
      exact (hslot q).trans (if_neg hq)
  · have hdirect := h.direct hind
    have hin : page < v.vsPmap.length := hdirect.length.symm ▸ hp.1
    rw [if_neg hind]
    refine ⟨_, rfl, ⟨fun _ => ⟨?_, ?_⟩, fun hind' => absurd hind' hind⟩, rfl, ?_, ?_⟩
    · rw [length_set]
      exact hdirect.length
    · intro w hw
      rcases mem_or_eq_of_mem_set hw with hw | rfl
      · exact hdirect.words w hw
      · exact ⟨e, rfl⟩
    · rw [slot, if_neg hind, directSlot, List.getElem?_set_self hin]
      exact foundEntry_eq he
    · intro q hq
      rw [slot, if_neg hind, directSlot, List.getElem?_set_ne (Ne.symm hq), slot_direct hind, directSlot]

end Darwin.Vm
