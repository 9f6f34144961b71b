import Darwin.Lib.Run
import Darwin.Pdisk.MapAdd

/-! # Maps that calls lead to

The entry of the map itself is the first one, and the only one of its type. The number of entries is
held under a limit that is set when the map is made, and never again.
-/
namespace Darwin.Pdisk
open Darwin.Lib List

namespace PartitionMap

structure Sound (m : PartitionMap) : Prop where
  linked : m.Linked
  tiled : m.Tiled
  numbered : m.Numbered
  whole : ∃ e rest, m.baseOrder = e :: rest ∧ e.data.type = kMapType ∧
    ∀ x ∈ rest, x.data.type ≠ kMapType
  room : m.blocksInMap ≤ m.maximumInMap
  bound : m.maximumInMap ≤ 63

theorem kFreeType_ne : kFreeType ≠ kMapType := by decide

section add
variable {m : PartitionMap} {cur : Entry} {name dptype : List Char} {base length : ℕ}

theorem toU32_nonneg {n : ℤ} (hlow : 0 ≤ n) (hhigh : n < 2 ^ 32) : (toU32 n : ℤ) = n := by
  rw [toU32, Int.emod_eq_of_lt hlow hhigh, Int.toNat_of_nonneg hlow]

theorem AddAction.value_bounds (act : AddAction) : 0 ≤ act.value ∧ act.value ≤ 2 := by
  cases act <;> decide

theorem Sound.blocks_nonneg (h : m.Linked) : 0 ≤ m.blocksInMap := by
  rw [h.count]
  exact Int.natCast_nonneg _

theorem overflows_iff (hcount : 0 ≤ m.blocksInMap) (hroom : m.blocksInMap ≤ m.maximumInMap)
    (hbound : m.maximumInMap ≤ 63) (act : AddAction) :
    m.overflows act ↔ m.maximumInMap < m.blocksInMap + act.value := by
  obtain ⟨hlow, hhigh⟩ := AddAction.value_bounds act
  have hlimit : m.limit = m.maximumInMap := if_neg (by omega)
  have hleft := toU32_nonneg (n := m.maximumInMap) (by omega) (by omega)
  have hright := toU32_nonneg (n := m.blocksInMap + act.value) (by omega) (by omega)
  rw [PartitionMap.overflows, hlimit]
  omega

theorem Linked.add {pre post : List Entry} (h : m.Linked) (ht : m.Tiled)
    (hsplit : m.baseOrder = pre ++ cur :: post)
    (hfind : m.baseOrder.find? (fun cur => cur.data.includes base length) = some cur)
    (hfree : cur.data.type = kFreeType) (hroom : ¬ m.overflows (addPlan cur.data base length).act)
    (hpos : 1 ≤ length) (hend : base + length < 2 ^ 32) :
    ∃ m', m.addPartitionToMap (fun _ => true) name dptype base length = (m', true) ∧
      Placed m pre cur post (createData name dptype base length) (addPlan cur.data base length).act m' ∧
      m'.Numbered := by
  obtain ⟨hbase, hstop⟩ := (includes_iff ht (mem_of_find?_eq_some hfind)).mp
    (List.find?_some (p := fun cur : Entry => cur.data.includes base length) hfind)
  rw [show u32 (base + length) = base + length from Nat.mod_eq_of_lt hend] at hstop
  obtain ⟨m', hm'⟩ : ∃ m', m' = m.place (fun _ => true) cur (addPlan cur.data base length)
    (createData name dptype base length) := ⟨_, rfl⟩
  have hplaced : Placed m pre cur post (createData name dptype base length)
      (addPlan cur.data base length).act m' := by
    rw [hm']
    exact h.place ht hsplit hfree hpos hbase hstop
  obtain ⟨hlinked, hnumbered, heq, hmedium⟩ := hplaced.linked.renumber rfl
  refine ⟨_, ?_, ⟨hlinked, hmedium.media.trans hplaced.media,
    hmedium.maximum.trans hplaced.maximum, ?_⟩, hnumbered⟩
  · rw [PartitionMap.addPartitionToMap, hfind]
    dsimp only
    rw [if_neg (not_not.mpr hfree), if_neg hroom, if_neg (show ¬ true = false by decide), ← hm']
  · rw [heq]
    exact hplaced.pieces

theorem Placed.tiled {pre post : List Entry} {data : Dpme} {act : AddAction} {m' : PartitionMap}
    (h : Placed m pre cur post data act m') (ht : m.Tiled) (hsplit : m.baseOrder = pre ++ cur :: post) :
    m'.Tiled := by
  obtain ⟨front, p, back, heq, -, -, -, hcovers⟩ := h.pieces
  exact ht.covers (l := [cur]) h.media (by rw [hsplit, append_assoc]; rfl) heq hcovers

theorem Placed.blocks {pre post : List Entry} {data : Dpme} {act : AddAction} {m' : PartitionMap}
    (h : Placed m pre cur post data act m') (hl : m.Linked) (hsplit : m.baseOrder = pre ++ cur :: post) :
    m'.blocksInMap = m.blocksInMap + act.value := by
  obtain ⟨front, p, back, heq, -, hact, -, -⟩ := h.pieces
  have hbefore := congrArg List.length hsplit
  have hafter := congrArg List.length heq
  rw [length_append, length_cons] at hbefore
  rw [length_append, length_append, length_append, length_cons] at hafter
  rw [h.linked.count, hl.count, ← hact]
  omega

theorem Sound.add (h : m.Sound) (hpos : 1 ≤ length) (hend : base + length < 2 ^ 32)
    (htype : dptype.take DPISTRLEN ≠ kMapType) :
    (m.addPartitionToMap (fun _ => true) name dptype base length).1.Sound ∧
      (m.addPartitionToMap (fun _ => true) name dptype base length).1.baseOrder.head? =
        m.baseOrder.head? := by
  by_cases haccepted : (m.addPartitionToMap (fun _ => true) name dptype base length).2 = true
  · obtain ⟨cur, hfind, hfree, hroom, -⟩ := addPartitionToMap_true_iff.mp haccepted
    obtain ⟨pre, post, hsplit⟩ := append_of_mem (mem_of_find?_eq_some hfind)
    obtain ⟨m', heq, hplaced, hnumbered⟩ :=
      @Linked.add m cur name dptype base length pre post h.linked h.tiled hsplit hfind hfree hroom hpos hend
    rw [heq]
    dsimp only
    obtain ⟨e, rest, hwhole, hmap, hrest⟩ := h.whole
    have hmax : m'.maximumInMap = m.maximumInMap := by
      rw [hplaced.maximum, if_neg (fun hboth => htype hboth.2.2)]
    have hblocks := hplaced.blocks h.linked hsplit
    have hover := overflows_iff (Sound.blocks_nonneg h.linked) h.room h.bound
      (addPlan cur.data base length).act
    have hlimit : m'.blocksInMap ≤ m'.maximumInMap := by
      rw [hblocks, hmax]
      exact Int.not_lt.mp (fun hlt => hroom (hover.mpr hlt))
    have htiled := hplaced.tiled h.tiled hsplit
    -- the partition of the map itself is not the one that is cut
    rw [hwhole] at hsplit
    obtain ⟨front, p, back, hbase, hpieces, -⟩ := hplaced.pieces
    cases pre with
    | nil =>
      obtain ⟨rfl, -⟩ := List.cons.inj hsplit
      exact absurd (hfree.symm.trans hmap) kFreeType_ne
    | cons first pre =>
      obtain ⟨rfl, hrestEq⟩ := List.cons.inj hsplit
      refine ⟨⟨hplaced.linked, htiled, hnumbered, ⟨e, _, hbase, hmap, fun x hx => ?_⟩, hlimit,
        hmax ▸ h.bound⟩, by rw [hbase, hwhole]; rfl⟩
      have hmem : x ∈ pre ++ (front ++ ⟨p, createData name dptype base length⟩ :: back) ++ post := hx
      rw [append_assoc, mem_append, mem_append, mem_append, mem_cons] at hmem
      rcases hmem with hx | (hx | rfl | hx) | hx
      · exact hrest x (hrestEq ▸ mem_append_left _ hx)
      · rw [hpieces x (mem_append_left _ hx)]
        exact kFreeType_ne
      · exact htype
      · rw [hpieces x (mem_append_right _ hx)]
        exact kFreeType_ne
      · exact hrest x (hrestEq ▸ mem_append_right _ (mem_cons_of_mem _ hx))
  · rw [addPartitionToMap_false (Bool.not_eq_true _ ▸ haccepted)]
    exact ⟨h, rfl⟩

end add

/-! ## Deletion -/

section delete
variable {m m' : PartitionMap} {pre post : List Entry} {e : Entry}

theorem Deleted.tiled (h : Deleted m pre e post m') (ht : m.Tiled)
    (hsplit : m.baseOrder = pre ++ e :: post) : m'.Tiled := by
  obtain ⟨pre', before, behind, post', data, hpre, hpost, heq, -, -, -, -, hcovers⟩ := h.joined
  have hold : m.baseOrder = pre' ++ (before ++ e :: behind) ++ post' := by
    rw [hsplit, hpre, hpost]
    simp only [append_assoc, cons_append]
  have hnew : m'.baseOrder = pre' ++ [⟨e.address, data⟩] ++ post' := by
    rw [heq, append_assoc]
    rfl
  exact ht.covers h.medium.media hold hnew hcovers

theorem Sound.delete (h : m.Sound) (he : e ∈ m.baseOrder) :
    (m.deletePartitionFromMap true e.address).Sound ∧
      (m.deletePartitionFromMap true e.address).baseOrder.head? = m.baseOrder.head? ∧
      (m.deletePartitionFromMap true e.address).blocksInMap ≤ m.blocksInMap := by
  obtain ⟨pre, post, hsplit⟩ := append_of_mem he
  by_cases htype : e.data.type = kMapType
  · rw [PartitionMap.deletePartitionFromMap, h.linked.entryAt hsplit]
    dsimp only
    rw [if_pos htype]
    exact ⟨h, rfl, Int.le_refl _⟩
  · obtain ⟨m', hm'⟩ : ∃ m', m' = m.deletePartitionFromMap true e.address := ⟨_, rfl⟩
    have hdeleted : Deleted m pre e post m' := hm' ▸ h.linked.delete h.tiled hsplit htype
    rw [← hm']
    obtain ⟨first, rest, hwhole, hmap, hrest⟩ := h.whole
    obtain ⟨pre', before, behind, post', data, hpre, hpost, heq, hfree, hsides, -, -, -⟩ := hdeleted.joined
    have hlength := congrArg List.length hsplit
    have hlength' := congrArg List.length heq
    rw [hpre, hpost] at hlength
    simp only [length_append, length_cons] at hlength hlength'
    have hcount := h.linked.count
    have hcount' := hdeleted.linked.count
    have hroom := h.room
    have hless : m'.blocksInMap ≤ m.blocksInMap := by omega
    have hlimit : m'.blocksInMap ≤ m'.maximumInMap := by
      rw [hdeleted.medium.maximum]
      omega
    have htiled := hdeleted.tiled h.tiled hsplit
    rw [hwhole, hpre, hpost] at hsplit
    cases pre' with
    | nil =>
      -- the first partition would be deleted, or joined as a free one
      exfalso
      cases before with
      | nil =>
        obtain ⟨rfl, -⟩ := List.cons.inj hsplit
        exact htype hmap
      | cons p before =>
        obtain ⟨rfl, -⟩ := List.cons.inj hsplit
        exact kFreeType_ne ((hsides first mem_cons_self).symm.trans hmap)
    | cons p pre' =>
      obtain ⟨rfl, hrestEq⟩ := List.cons.inj hsplit
      refine ⟨⟨hdeleted.linked, htiled, hdeleted.numbered, ⟨first, _, heq, hmap, fun x hx => ?_⟩, hlimit,
        hdeleted.medium.maximum ▸ h.bound⟩, by rw [heq, hwhole]; rfl, hless⟩
      have hmem : x ∈ pre' ++ ⟨e.address, data⟩ :: post' := hx
      rw [mem_append, mem_cons] at hmem
      rcases hmem with hx | rfl | hx
      · refine hrest x ?_
        rw [hrestEq]
        exact mem_append_left _ (mem_append_left _ hx)
      · rw [hfree]
        exact kFreeType_ne
      · refine hrest x ?_
        rw [hrestEq]
        exact mem_append_right _ (mem_cons_of_mem _ (mem_append_right _ hx))

end delete

end PartitionMap

end Darwin.Pdisk
