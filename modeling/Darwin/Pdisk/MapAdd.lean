import Darwin.Pdisk.MapPieces

/-! # A partition is added

A request that lies in a free partition gets one piece of it; what is left in front and behind stays
free.
-/
namespace Darwin.Pdisk
open Darwin.Lib List

/-! ## Sizes -/

section plan
variable {data : Dpme} {base length : ℕ}

theorem addPlan_inside (hbase : data.pblockStart ≤ base)
    (hstop : base + length ≤ data.pblockStart + data.pblocks)
    (hmedia : data.pblockStart + data.pblocks < 2 ^ 32) : addPlan data base length =
      if data.pblockStart = base then
        if data.pblocks = length then ⟨.kReplace, 0, 0, 0, 0⟩
        else ⟨.kAdd, base + length, data.pblocks - length, 0, 0⟩
      else if data.pblockStart + data.pblocks = base + length then
        ⟨.kAdd, data.pblockStart, base - data.pblockStart, 0, 0⟩
      else ⟨.kSplit, base + length, data.pblocks - (length + (base - data.pblockStart)),
        data.pblockStart, base - data.pblockStart⟩ := by
  rw [addPlan, u32_eq hmedia, u32_eq (x := base + length) (by omega)]
  by_cases hstart : data.pblockStart = base
  · rw [if_pos hstart, if_pos hstart, u32Sub_eq (by omega) (by omega)]
  · rw [if_neg hstart, if_neg hstart]
    by_cases hlast : data.pblockStart + data.pblocks = base + length
    · rw [if_pos hlast, if_pos hlast, u32Sub_eq (by omega) (by omega)]
    · have hnew := u32_eq (x := length + (base - data.pblockStart)) (by omega)
      rw [if_neg hlast, if_neg hlast, u32Sub_eq (by omega) (by omega)]
      dsimp only
      rw [hnew, u32Sub_eq (by omega) (by omega)]

end plan

namespace PartitionMap

/-- The data is a piece of what the entry was, and the other pieces are free. -/
structure Placed (m : PartitionMap) (pre : List Entry) (cur : Entry) (post : List Entry) (data : Dpme)
    (act : AddAction) (m' : PartitionMap) : Prop where
  linked : m'.Linked
  media : m'.mediaSize = m.mediaSize
  maximum : m'.maximumInMap =
    if act ≠ .kReplace ∧ m.maximumInMap < 0 ∧ data.type = kMapType then toInt data.pblocks
    else m.maximumInMap
  pieces : ∃ front p back, m'.baseOrder = pre ++ (front ++ ⟨p, data⟩ :: back) ++ post ∧
    (∀ x ∈ front ++ back, x.data.type = kFreeType) ∧
    ((front.length + back.length : ℕ) : ℤ) = act.value ∧
    (cur.data.pblockStart = data.pblockStart → front = []) ∧
    Covers [cur.data] ((front ++ ⟨p, data⟩ :: back).map Entry.data)

section place
variable {m : PartitionMap} {pre post : List Entry} {cur : Entry} {data : Dpme}

theorem covers_front {d d₁ d₂ : Dpme} (hstart : d₁.pblockStart = d.pblockStart)
    (hnext : d₂.pblockStart = d₁.pblockStart + d₁.pblocks) (hpos₁ : 0 < d₁.pblocks)
    (hpos₂ : 0 < d₂.pblocks) (hsum : d₁.pblocks + d₂.pblocks = d.pblocks) : Covers [d] [d₁, d₂] := by
  rintro base stop ⟨hbase, hpos, hstop⟩
  have hstop' : base + d.pblocks = stop := hstop
  refine ⟨by omega, hpos₁, by omega, hpos₂, ?_⟩
  rw [Tiles]
  omega

theorem Tiled.order (h : m.Tiled) (hsplit : m.baseOrder = pre ++ cur :: post) :
    (∀ x ∈ pre, x.data.pblockStart < cur.data.pblockStart) ∧
      ∀ x ∈ post, cur.data.pblockStart + cur.data.pblocks ≤ x.data.pblockStart := by
  obtain ⟨stop, hpre, hpos, rfl, hpost⟩ := h.split hsplit
  refine ⟨fun x hx => ?_, fun x hx => (hpost.bounds (mem_map_of_mem hx)).1⟩
  have hbounds := hpre.bounds (mem_map_of_mem hx)
  omega

theorem Linked.place (h : m.Linked) (ht : m.Tiled) (hsplit : m.baseOrder = pre ++ cur :: post)
    (hfree : cur.data.type = kFreeType) (hpos : 1 ≤ data.pblocks)
    (hbase : cur.data.pblockStart ≤ data.pblockStart)
    (hstop : data.pblockStart + data.pblocks ≤ cur.data.pblockStart + cur.data.pblocks) :
    Placed m pre cur post data (addPlan cur.data data.pblockStart data.pblocks).act
      (m.place (fun _ => true) cur (addPlan cur.data data.pblockStart data.pblocks) data) := by
  have hcur : cur ∈ m.baseOrder := by
    rw [hsplit]
    exact mem_append_right _ mem_cons_self
  have hbounds := ht.bounds hcur
  have hmedia := ht.media
  obtain ⟨hpre, hpost⟩ := ht.order hsplit
  rw [addPlan_inside hbase hstop (by omega)]
  by_cases hstart : cur.data.pblockStart = data.pblockStart
  · rw [if_pos hstart]
    by_cases hwhole : cur.data.pblocks = data.pblocks
    · -- the whole partition
      rw [if_pos hwhole]
      refine ⟨h.setData hsplit data, rfl, ?_, [], cur.address, [], ?_, fun x hx => ?_, rfl, fun _ => rfl,
        covers_same hstart.symm hwhole.symm⟩
      · rw [if_neg (fun hact => hact.1 rfl)]
        rfl
      · rw [append_assoc]
        exact h.setData_eq hsplit data
      · cases hx
    · -- its beginning
      rw [if_neg hwhole]
      obtain ⟨rest, hrest⟩ : ∃ rest : Dpme, rest = { cur.data with
        pblockStart := data.pblockStart + data.pblocks
        pblocks := cur.data.pblocks - data.pblocks } := ⟨_, rfl⟩
      have hrestStart : rest.pblockStart = data.pblockStart + data.pblocks := by rw [hrest]
      have hrestBlocks : rest.pblocks = cur.data.pblocks - data.pblocks := by rw [hrest]
      have hrestFree : rest.type = kFreeType := by rw [hrest]; exact hfree
      have hset := h.setData_eq hsplit rest
      obtain ⟨m', hadd, hlinked, heq, hmed, hmax⟩ := (h.setData hsplit rest).addData data hset
        (fun x hx => by have hlt := hpre x hx; omega)
        (fun x hx => by
          obtain rfl : ⟨cur.address, rest⟩ = x := Option.some.inj hx
          change data.pblockStart ≤ rest.pblockStart
          omega) ((m.setData cur.address rest).diskAddress cur.address)
      rw [PartitionMap.place]
      dsimp only
      rw [← hrest, hadd]
      dsimp only
      rw [if_neg (fun hact => by cases hact.1)]
      refine ⟨hlinked, hmed, ?_, [], m.nextAddress, [⟨cur.address, rest⟩], ?_, fun x hx => ?_, rfl, fun _ => rfl, ?_⟩
      · rw [hmax]
        simp only [ne_eq, reduceCtorEq, not_false_eq_true, true_and]
        rfl
      · rw [heq, append_assoc]
        rfl
      · rw [nil_append, mem_singleton] at hx
        rw [hx]
        exact hrestFree
      · have hcovers : Covers [cur.data] [data, rest] :=
          covers_front hstart.symm hrestStart hpos (by omega) (by omega)
        exact hcovers
  · rw [if_neg hstart]
    by_cases hlast : cur.data.pblockStart + cur.data.pblocks = data.pblockStart + data.pblocks
    · -- its end
      rw [if_pos hlast]
      obtain ⟨rest, hrest⟩ : ∃ rest : Dpme, rest = { cur.data with
        pblockStart := cur.data.pblockStart
        pblocks := data.pblockStart - cur.data.pblockStart } := ⟨_, rfl⟩
      have hrestStart : rest.pblockStart = cur.data.pblockStart := by rw [hrest]
      have hrestBlocks : rest.pblocks = data.pblockStart - cur.data.pblockStart := by rw [hrest]
      have hrestFree : rest.type = kFreeType := by rw [hrest]; exact hfree
      have hset := (h.setData_eq hsplit rest).trans (append_cons _ _ _)
      obtain ⟨m', hadd, hlinked, heq, hmed, hmax⟩ := (h.setData hsplit rest).addData data hset
        (fun x hx => by
          rcases mem_append.mp hx with hx | hx
          · have hlt := hpre x hx
            omega
          · rw [mem_singleton.mp hx]
            change rest.pblockStart < data.pblockStart
            omega)
        (fun x hx => by
          have hle := hpost x (mem_of_mem_head? hx)
          omega) ((m.setData cur.address rest).diskAddress cur.address)
      rw [PartitionMap.place]
      dsimp only
      rw [← hrest, hadd]
      dsimp only
      rw [if_neg (fun hact => by cases hact.1)]
      refine ⟨hlinked, hmed, ?_, [⟨cur.address, rest⟩], m.nextAddress, [], ?_, fun x hx => ?_, rfl,
        fun heq' => absurd heq' hstart, ?_⟩
      · rw [hmax]
        simp only [ne_eq, reduceCtorEq, not_false_eq_true, true_and]
        rfl
      · rw [heq, append_assoc, append_assoc]
        rfl
      · rw [append_nil, mem_singleton] at hx
        rw [hx]
        exact hrestFree
      · have hcovers : Covers [cur.data] [rest, data] :=
          covers_front hrestStart (by omega) (by omega) hpos (by omega)
        exact hcovers
    · -- its middle
      rw [if_neg hlast]
      obtain ⟨rest, hrest⟩ : ∃ rest : Dpme, rest = { cur.data with
        pblockStart := data.pblockStart + data.pblocks
        pblocks := cur.data.pblocks - (data.pblocks + (data.pblockStart - cur.data.pblockStart)) } :=
        ⟨_, rfl⟩
      obtain ⟨first, hfirst⟩ : ∃ first : Dpme, first = createData kFreeName kFreeType
        cur.data.pblockStart (data.pblockStart - cur.data.pblockStart) := ⟨_, rfl⟩
      have hrestStart : rest.pblockStart = data.pblockStart + data.pblocks := by rw [hrest]
      have hrestBlocks : rest.pblocks =
        cur.data.pblocks - (data.pblocks + (data.pblockStart - cur.data.pblockStart)) := by rw [hrest]
      have hrestFree : rest.type = kFreeType := by rw [hrest]; exact hfree
      have hfirstStart : first.pblockStart = cur.data.pblockStart := by rw [hfirst]; rfl
      have hfirstBlocks : first.pblocks = data.pblockStart - cur.data.pblockStart := by rw [hfirst]; rfl
      have hfirstFree : first.type = kFreeType := by rw [hfirst]; exact createData_free _ _ _
      have hset := h.setData_eq hsplit rest
      obtain ⟨m₁, hadd₁, hlinked₁, heq₁, hmed₁, hmax₁⟩ :=
        (h.setData hsplit rest).addData data hset
        (fun x hx => by have hlt := hpre x hx; omega)
        (fun x hx => by
          obtain rfl : ⟨cur.address, rest⟩ = x := Option.some.inj hx
          change data.pblockStart ≤ rest.pblockStart
          omega) ((m.setData cur.address rest).diskAddress cur.address)
      obtain ⟨m₂, hadd₂, hlinked₂, heq₂, hmed₂, hmax₂⟩ := hlinked₁.addData first heq₁
        (fun x hx => by have hlt := hpre x hx; omega)
        (fun x hx => by
          obtain rfl : ⟨(m.setData cur.address rest).nextAddress, data⟩ = x := Option.some.inj hx
          change first.pblockStart ≤ data.pblockStart
          omega) (m₁.diskAddress cur.address)
      rw [PartitionMap.place]
      dsimp only
      rw [← hrest, ← hfirst, hadd₁]
      dsimp only
      rw [if_pos ⟨rfl, rfl⟩, hadd₂, Option.getD_some]
      refine ⟨hlinked₂, hmed₂.trans hmed₁, ?_, [⟨m₁.nextAddress, first⟩], m.nextAddress,
        [⟨cur.address, rest⟩], ?_, fun x hx => ?_, rfl, fun heq' => absurd heq' hstart, ?_⟩
      · have hnot : ¬ (m₁.maximumInMap < 0 ∧ first.type = kMapType) := fun hboth => by
          rw [hfirstFree] at hboth
          exact absurd hboth.2 (by decide)
        rw [hmax₂, if_neg hnot, hmax₁]
        simp only [ne_eq, reduceCtorEq, not_false_eq_true, true_and]
        rfl
      · rw [heq₂, append_assoc]
        rfl
      · rcases mem_append.mp hx with hx | hx
        · rw [mem_singleton.mp hx]
          exact hfirstFree
        · rw [mem_singleton.mp hx]
          exact hrestFree
      · rintro base stop ⟨hb, hp, hs⟩
        have hs' : base + cur.data.pblocks = stop := hs
        refine ⟨?_, ?_, ?_, ?_, ?_, ?_, ?_⟩
        · change first.pblockStart = base
          omega
        · change 0 < first.pblocks
          omega
        · change data.pblockStart = base + first.pblocks
          omega
        · exact hpos
        · change rest.pblockStart = base + first.pblocks + data.pblocks
          omega
        · change 0 < rest.pblocks
          omega
        · change base + first.pblocks + data.pblocks + rest.pblocks = stop
          omega

end place

end PartitionMap

end Darwin.Pdisk
