import Darwin.Pdisk.MapResize

/-! # Calls on a partition map

From the map of `init_partition_map`, over any calls. `maximum_in_map` stays what the first map was
long: a map that is smaller now can outgrow its partition, a larger one refuses additions for which it
has room, and one that is made smaller can lose its entry.
-/
namespace Darwin.Pdisk
open Darwin.Lib PartitionMap List

/-- The routines, with all memory that they ask for. -/
inductive MapCall where
  | add (name dptype : List Char) (base length : ℕ)
  | delete (address : ℕ)
  | resize (newSize : ℤ)

def MapCall.run (m : PartitionMap) : MapCall → PartitionMap
  | .add name dptype base length => (m.addPartitionToMap (fun _ => true) name dptype base length).1
  | .delete address => m.deletePartitionFromMap true address
  | .resize newSize => m.resizeMap (fun _ => true) newSize

/-- Requests that are not empty and do not wrap, of another type than the map's; an entry of the map; a
`long`. -/
def MapCall.Proper (m : PartitionMap) : MapCall → Prop
  | .add _ dptype base length =>
    1 ≤ length ∧ base + length < 2 ^ 32 ∧ dptype.take DPISTRLEN ≠ kMapType
  | .delete address => ∃ e ∈ m.baseOrder, e.address = address
  | .resize newSize => -2 ^ 31 ≤ newSize ∧ newSize < 2 ^ 31

/-- A resize does not lose the map. -/
def MapCall.KeepsMap (m : PartitionMap) : MapCall → Prop
  | .resize newSize => ¬ m.LosesMap newSize
  | _ => True

/-! ## The first map -/

section init
variable {mediaSize : ℕ}

theorem initPartitionMap_sound (hmin : 4 ≤ mediaSize) (hmedia : mediaSize < 2 ^ 32) :
    (initPartitionMap mediaSize).Sound ∧ ∃ e rest, (initPartitionMap mediaSize).baseOrder = e :: rest ∧
      e.data.type = kMapType ∧ e.data.pblockStart = 1 ∧ (∀ x ∈ rest, x.data.type ≠ kMapType) ∧
      (initPartitionMap mediaSize).maximumInMap = e.data.pblocks := by
  obtain ⟨d, hd⟩ : ∃ d, d = createData kFreeName kFreeType 1 (mediaSize - 1) := ⟨_, rfl⟩
  have hfree : d.type = kFreeType := by
    rw [hd]
    exact createData_free _ _ _
  have hstart : d.pblockStart = 1 := by rw [hd]; rfl
  have hblocks : d.pblocks = mediaSize - 1 := by rw [hd]; rfl
  have hempty : (newMap mediaSize).Linked :=
    ⟨nodup_nil, List.Perm.refl _, fun e he => absurd he not_mem_nil, rfl⟩
  obtain ⟨m, hadd, hlinked, hbase, hmed, hmax⟩ := @Linked.addData (newMap mediaSize) [] [] hempty d rfl
    (fun x hx => absurd hx not_mem_nil) (fun x hx => by cases hx) 1
  rw [nil_append] at hbase
  have htiled : m.Tiled := by
    refine ⟨?_, hmed ▸ hmedia⟩
    rw [hbase, hmed]
    exact ⟨hstart, by change 0 < d.pblocks; omega, by change 1 + d.pblocks = mediaSize; omega⟩
  have hmax' : m.maximumInMap = -1 := by
    rw [hmax, if_neg (fun hboth => kFreeType_ne (hfree.symm.trans hboth.2))]
    rfl
  have hcount : m.blocksInMap = 1 := by
    rw [hlinked.count, hbase]
    rfl
  obtain ⟨size, hsize⟩ : ∃ size, size = if mediaSize ≤ 128 then 2 else 63 := ⟨_, rfl⟩
  have hsizes : 2 ≤ size ∧ size ≤ 63 ∧ size + 2 ≤ mediaSize := by
    by_cases hsmall : mediaSize ≤ 128
    · rw [if_pos hsmall] at hsize
      omega
    · rw [if_neg hsmall] at hsize
      omega
  have hinit : initPartitionMap mediaSize =
      (m.addPartitionToMap (fun _ => true) "Apple".toList kMapType 1 size).1 := by
    rw [initPartitionMap, ← hd, hadd, Option.getD_some, ← hsize]
  have hsplit : m.baseOrder = [] ++ ⟨(newMap mediaSize).nextAddress, d⟩ :: [] := hbase
  have hfind : m.baseOrder.find? (fun cur => cur.data.includes 1 size) =
      some ⟨(newMap mediaSize).nextAddress, d⟩ := by
    have hincludes : d.includes 1 size = true := by
      have hmem : (⟨(newMap mediaSize).nextAddress, d⟩ : Entry) ∈ m.baseOrder := by
        rw [hbase]
        exact mem_cons_self
      refine (includes_iff htiled hmem).mpr ⟨Nat.le_of_eq hstart, ?_⟩
      change u32 (1 + size) ≤ d.pblockStart + d.pblocks
      rw [show u32 (1 + size) = 1 + size from Nat.mod_eq_of_lt (by omega)]
      omega
    rw [hbase]
    exact List.find?_cons_of_pos (p := fun cur : Entry => cur.data.includes 1 size) hincludes
  have hact : (addPlan d 1 size).act = .kAdd := by
    rw [addPlan_inside (by omega) (by omega) (by omega), if_pos hstart, if_neg (by omega)]
  have hroom : ¬ m.overflows (addPlan d 1 size).act := by
    have hlimit : toU32 m.limit = mediaSize := by
      rw [PartitionMap.limit, hmax', if_pos (by decide), hmed]
      change toU32 (toInt mediaSize) = mediaSize
      rw [toU32, toInt]
      split <;> omega
    rw [hact, PartitionMap.overflows, hlimit, hcount]
    have htwo : toU32 (1 + AddAction.kAdd.value) = 2 := by decide
    omega
  obtain ⟨m', heq, hplaced, hnumbered⟩ := @Linked.add m _ "Apple".toList kMapType 1 size [] [] hlinked
    htiled hsplit hfind hfree hroom (by omega) (by omega)
  obtain ⟨front, p, back, hpieces, hsides, hvalue, hfirst, -⟩ := hplaced.pieces
  obtain rfl : front = [] := hfirst hstart
  rw [append_nil, nil_append] at hpieces
  have htype : (createData "Apple".toList kMapType 1 size).type = kMapType :=
    (by decide : kMapType.take DPISTRLEN = kMapType)
  have hmaximum : m'.maximumInMap = size := by
    rw [hplaced.maximum, hact, if_pos ⟨by decide, by omega, htype⟩]
    change toInt size = size
    rw [toInt, if_pos (by omega)]
  have hlength := hplaced.blocks hlinked hsplit
  have hone : AddAction.kAdd.value = 1 := rfl
  rw [hact] at hlength
  rw [hinit, heq]
  refine ⟨⟨hplaced.linked, hplaced.tiled htiled hsplit, hnumbered, ⟨_, back, hpieces, htype, ?_⟩, ?_, ?_⟩,
    _, back, hpieces, htype, rfl, ?_, hmaximum⟩
  · exact fun x hx => by rw [hsides x hx]; exact kFreeType_ne
  · change m'.blocksInMap ≤ m'.maximumInMap
    omega
  · change m'.maximumInMap ≤ 63
    omega
  · exact fun x hx => by rw [hsides x hx]; exact kFreeType_ne

end init

/-! ## Steps -/

theorem PartitionMap.Sound.call {m : PartitionMap} {call : MapCall} (h : m.Sound)
    (hproper : call.Proper m) (hkeeps : call.KeepsMap m) : (call.run m).Sound := by
  cases call with
  | add name dptype base length => exact (h.add hproper.1 hproper.2.1 hproper.2.2).1
  | delete address =>
    obtain ⟨e, he, rfl⟩ := hproper
    exact (h.delete he).1
  | resize newSize =>
    obtain ⟨e, rest, hbase, hmap, hrest⟩ := h.whole
    rw [MapCall.run]
    cases h.resize hbase hmap hrest hproper.2 with
    | kept hsame _ =>
      rw [hsame]
      exact h
    | lost hlost _ => exact absurd hlost hkeeps
    | resized _ _ hsound _ => exact hsound

/-- The runs of calls from a new map, each of them under a condition. -/
abbrev MapRun (C : PartitionMap → MapCall → Prop) : PartitionMap → List MapCall → PartitionMap → Prop :=
  RunUnder (fun m (call : MapCall) => call.Proper m ∧ C m call) (fun m (call : MapCall) m' => call.run m = m')

theorem MapRun.sound {C : PartitionMap → MapCall → Prop} (hC : ∀ m call, C m call → call.KeepsMap m)
    {mediaSize : ℕ} (hmin : 4 ≤ mediaSize) (hmedia : mediaSize < 2 ^ 32) {calls : List MapCall}
    {m : PartitionMap} (hr : MapRun C (initPartitionMap mediaSize) calls m) : m.Sound := by
  refine hr.invariant (I := PartitionMap.Sound) ?_ (initPartitionMap_sound hmin hmedia).1
  rintro m call _ h ⟨hproper, hcond⟩ rfl
  exact h.call hproper (hC m call hcond)

/-! ## `resize_map` is all or nothing -/

/-- Nothing is changed, or the one entry of the map has the new size and the other partitions are as
they were. There is an entry of the map. -/
structure AllOrNothing (m : PartitionMap) (newSize : ℤ) (m' : PartitionMap) : Prop where
  outcome : m' = m ∨ ((∃ e ∈ m'.baseOrder, e.data.type = kMapType ∧ e.data.pblockStart = 1 ∧
    e.data.pblocks = toU32 newSize ∧ ∀ x ∈ m'.baseOrder, x.data.type = kMapType → x = e) ∧
    m'.others = m.others)
  mapped : ∃ e ∈ m'.baseOrder, e.data.type = kMapType

/-- In the maps that calls lead to, as long as none of these lost the map, a resize is all or nothing
unless it is to a smaller size, with no free partition behind the map, and the entries are as many as
the limit that was set first. -/
theorem resize_all_or_nothing_iff (mediaSize : ℕ) (hmin : 4 ≤ mediaSize) (hmedia : mediaSize < 2 ^ 32)
    (calls : List MapCall) (m : PartitionMap)
    (hr : MapRun (fun m call => call.KeepsMap m) (initPartitionMap mediaSize) calls m)
    (newSize : ℤ) (hhigh : newSize < 2 ^ 31) :
    AllOrNothing m newSize (m.resizeMap (fun _ => true) newSize) ↔ ¬ m.LosesMap newSize := by
  have h : m.Sound := MapRun.sound (fun _ _ hkeeps => hkeeps) hmin hmedia hr
  obtain ⟨e, rest, hbase, hmap, hrest⟩ := h.whole
  cases h.resize hbase hmap hrest hhigh with
  | kept hsame hnot =>
    rw [hsame]
    exact iff_of_true ⟨.inl rfl, e, by rw [hbase]; exact mem_cons_self, hmap⟩ hnot
  | lost hlost hgone =>
    refine iff_of_false (fun hall => ?_) (not_not.mpr hlost)
    obtain ⟨x, hx, hxmap⟩ := hall.mapped
    exact hgone x hx hxmap
  | resized hnot hresized _ _ =>
    obtain ⟨x, others, hbase', hxmap, hstart, hsize, hothers⟩ := hresized.whole
    have hx : x ∈ (m.resizeMap (fun _ => true) newSize).baseOrder := by
      rw [hbase']
      exact mem_cons_self
    refine iff_of_true ⟨.inr ⟨⟨x, hx, hxmap, hstart, hsize, fun y hy hymap => ?_⟩, hresized.others⟩,
      x, hx, hxmap⟩ hnot
    exact Sound.map_unique hbase' hothers hy hymap

/-- A partition has been added and deleted and the map has been made shorter, when it is made 10 blocks
long. -/
theorem resize_all_or_nothing_ten : ∃ m,
    MapRun (fun m call => call.KeepsMap m) (initPartitionMap 1000)
      [.add [] "Apple_HFS".toList 100 50, .delete 2, .resize 20] m ∧
    AllOrNothing m 10 (m.resizeMap (fun _ => true) 10) := by
  have hr : MapRun (fun m call => call.KeepsMap m) (initPartitionMap 1000)
      [.add [] "Apple_HFS".toList 100 50, .delete 2, .resize 20] _ :=
    .snoc (.snoc (.snoc (.nil _) ⟨⟨⟨by decide, by decide, by decide⟩, trivial⟩, rfl⟩)
      ⟨⟨by unfold MapCall.Proper; decide +kernel, trivial⟩, rfl⟩)
      ⟨⟨⟨by decide, by decide⟩, by unfold MapCall.KeepsMap PartitionMap.LosesMap; decide +kernel⟩, rfl⟩
  exact ⟨_, hr, (resize_all_or_nothing_iff 1000 (by decide) (by decide) _ _ hr 10 (by decide)).mpr
    (by unfold PartitionMap.LosesMap; decide +kernel)⟩

/-- A map of 2 blocks becomes one of 10, the rest of the medium a partition, and then the map is to have
5 blocks: its entry is gone. -/
theorem resize_loses_map : ∃ m,
    MapRun (fun _ _ => True) (initPartitionMap 100)
      [.resize 10, .add [] "Apple_HFS".toList 11 89] m ∧
    ¬ AllOrNothing m 5 (m.resizeMap (fun _ => true) 5) := by
  refine ⟨_, .snoc (.snoc (.nil _) ⟨⟨⟨by decide, by decide⟩, trivial⟩, rfl⟩)
    ⟨⟨⟨by decide, by decide, by decide⟩, trivial⟩, rfl⟩, fun hall => ?_⟩
  obtain ⟨e, he, hmap⟩ := hall.mapped
  revert hmap
  have hnone : ∀ e ∈ (((MapCall.add [] "Apple_HFS".toList 11 89).run
      ((MapCall.resize 10).run (initPartitionMap 100))).resizeMap (fun _ => true) 5).baseOrder,
      e.data.type ≠ kMapType := by decide +kernel
  exact hnone e he

/-! ## The map fits its partition -/

/-- The length of the partition of the map. -/
def PartitionMap.mapLength (m : PartitionMap) : ℕ :=
  match m.baseOrder.find? (fun e => e.data.type = kMapType) with
  | none => 0
  | some e => e.data.pblocks

/-- There are not more entries than the partition of the map has blocks, and each is written to one of
these blocks. -/
def PartitionMap.FitsPartition (m : PartitionMap) : Prop :=
  ∃ e ∈ m.baseOrder, e.data.type = kMapType ∧ m.baseOrder.length ≤ e.data.pblocks ∧
    ∀ x ∈ m.baseOrder, e.data.pblockStart ≤ m.diskAddress x.address ∧
      m.diskAddress x.address < e.data.pblockStart + e.data.pblocks

/-- Where an addition is refused for lack of room, the partition of the map is too short for it. -/
def MapCall.FairlyRefused (m : PartitionMap) : MapCall → Prop
  | .add _ _ base length =>
    ∀ cur, m.baseOrder.find? (fun cur => cur.data.includes base length) = some cur →
      cur.data.type = kFreeType → m.overflows (addPlan cur.data base length).act →
      (m.mapLength : ℤ) < m.blocksInMap + (addPlan cur.data base length).act.value
  | .delete _ => True
  | .resize _ => True

/-- The number of entries that an addition leads to does not lie between the limit that was set first
and the length of the map's partition; a resize does not lose the map. -/
def MapCall.LimitHolds (m : PartitionMap) : MapCall → Prop
  | .add _ _ base length =>
    ∀ cur, m.baseOrder.find? (fun cur => cur.data.includes base length) = some cur →
      cur.data.type = kFreeType →
      ¬ (min m.maximumInMap m.mapLength < m.blocksInMap + (addPlan cur.data base length).act.value ∧
        m.blocksInMap + (addPlan cur.data base length).act.value ≤ max m.maximumInMap m.mapLength)
  | .delete _ => True
  | .resize newSize => ¬ m.LosesMap newSize

section fits
variable {m : PartitionMap} {e : Entry} {rest : List Entry}

theorem mapLength_eq (hbase : m.baseOrder = e :: rest) (hmap : e.data.type = kMapType) :
    m.mapLength = e.data.pblocks := by
  rw [PartitionMap.mapLength, Sound.find hbase hmap]

theorem PartitionMap.Sound.fitsPartition_iff (h : m.Sound) : m.FitsPartition ↔ m.blocksInMap ≤ m.mapLength := by
  obtain ⟨e, rest, hbase, hmap, hrest⟩ := h.whole
  have hcount := h.linked.count
  have htiles := h.tiled.tiles
  rw [hbase] at htiles
  have hstart : e.data.pblockStart = 1 := htiles.1
  rw [mapLength_eq hbase hmap]
  constructor
  · rintro ⟨x, hx, hxmap, hlength, -⟩
    obtain rfl := Sound.map_unique hbase hrest hx hxmap
    omega
  · intro hle
    refine ⟨e, by rw [hbase]; exact mem_cons_self, hmap, by omega, fun x hx => ?_⟩
    have hnumber := h.numbered x hx
    omega

theorem mapLength_of_head {m' : PartitionMap} (h : m.Sound) (hhead : m'.baseOrder.head? = m.baseOrder.head?) :
    m'.mapLength = m.mapLength := by
  obtain ⟨e, rest, hbase, hmap, -⟩ := h.whole
  rw [hbase, List.head?_cons] at hhead
  obtain ⟨rest', hbase'⟩ := List.head?_eq_some_iff.mp hhead
  rw [mapLength_eq hbase hmap, mapLength_eq hbase' hmap]

theorem PartitionMap.Sound.limitHolds_iff (h : m.Sound) (hfits : m.FitsPartition) {call : MapCall}
    (hproper : call.Proper m) :
    (call.run m).FitsPartition ∧ call.FairlyRefused m ↔ call.LimitHolds m := by
  obtain ⟨e, rest, hbase, hmap, hrest⟩ := h.whole
  have hle := h.fitsPartition_iff.mp hfits
  cases call with
  | add name dptype base length =>
    obtain ⟨hpos, hend, htype⟩ := hproper
    obtain ⟨hsound, hhead⟩ := @PartitionMap.Sound.add m name dptype base length h hpos hend htype
    have hlength := mapLength_of_head h hhead
    rw [MapCall.run, MapCall.FairlyRefused, MapCall.LimitHolds, hsound.fitsPartition_iff]
    cases hfind : m.baseOrder.find? (fun cur => cur.data.includes base length) with
    | none =>
      have hrefused : (m.addPartitionToMap (fun _ => true) name dptype base length).1 = m := by
        rw [PartitionMap.addPartitionToMap, hfind]
      rw [hrefused]
      exact iff_of_true ⟨hle, fun cur hcur => by cases hcur⟩ (fun cur hcur => by cases hcur)
    | some cur =>
      by_cases hfree : cur.data.type = kFreeType
      · have hover := overflows_iff (Sound.blocks_nonneg h.linked) h.room h.bound
          (addPlan cur.data base length).act
        have honly : ∀ {P : Entry → Prop}, (∀ cur', some cur = some cur' → cur'.data.type = kFreeType →
            P cur') ↔ P cur :=
          ⟨fun hall => hall cur rfl hfree, fun hcur cur' heq _ => Option.some.inj heq ▸ hcur⟩
        rw [honly, honly]
        by_cases hroom : m.overflows (addPlan cur.data base length).act
        · have hrefused : (m.addPartitionToMap (fun _ => true) name dptype base length).1 = m := by
            rw [PartitionMap.addPartitionToMap, hfind]
            dsimp only
            rw [if_neg (not_not.mpr hfree), if_pos hroom]
          have hlt := hover.mp hroom
          rw [hrefused]
          constructor
          · rintro ⟨-, hfair⟩
            have hfair' := hfair hroom
            omega
          · exact fun hlimit => ⟨hle, fun _ => by omega⟩
        · obtain ⟨pre, post, hsplit⟩ := append_of_mem (mem_of_find?_eq_some hfind)
          obtain ⟨m', heq, hplaced, hnumbered⟩ := @Linked.add m cur name dptype base length pre post
            h.linked h.tiled hsplit hfind hfree hroom hpos hend
          have hblocks := hplaced.blocks h.linked hsplit
          have hge : ¬ m.maximumInMap < m.blocksInMap + (addPlan cur.data base length).act.value :=
            fun hlt => hroom (hover.mpr hlt)
          rw [hlength, heq]
          dsimp only
          rw [hblocks]
          constructor
          · rintro ⟨hfit, -⟩
            omega
          · exact fun hlimit => ⟨by omega, fun hno => absurd hno hroom⟩
      · have hrefused : (m.addPartitionToMap (fun _ => true) name dptype base length).1 = m := by
          rw [PartitionMap.addPartitionToMap, hfind]
          dsimp only
          rw [if_pos hfree]
        rw [hrefused]
        exact iff_of_true ⟨hle, fun cur' hcur hfree' => absurd (Option.some.inj hcur ▸ hfree') hfree⟩
          (fun cur' hcur hfree' => absurd (Option.some.inj hcur ▸ hfree') hfree)
  | delete address =>
    obtain ⟨x, hx, rfl⟩ := hproper
    obtain ⟨hsound, hhead, hless⟩ := h.delete hx
    rw [MapCall.run, MapCall.FairlyRefused, MapCall.LimitHolds, and_true, hsound.fitsPartition_iff,
      mapLength_of_head h hhead]
    exact iff_of_true (by omega) trivial
  | resize newSize =>
    rw [MapCall.run, MapCall.FairlyRefused, MapCall.LimitHolds, and_true]
    cases h.resize hbase hmap hrest hproper.2 with
    | kept hsame hnot =>
      rw [hsame]
      exact iff_of_true hfits hnot
    | lost hlost hgone =>
      refine iff_of_false (fun hfit => ?_) (not_not.mpr hlost)
      obtain ⟨x, hx, hxmap, -⟩ := hfit
      exact hgone x hx hxmap
    | resized hnot hresized hsound hsize =>
      obtain ⟨x, others, hbase', hxmap, -, hxsize, -⟩ := hresized.whole
      rw [mapLength_eq hbase hmap] at hle
      refine iff_of_true (hsound.fitsPartition_iff.mpr ?_) hnot
      rw [mapLength_eq hbase' hxmap, hxsize]
      rcases hsize with hsize | ⟨hsize, hgrows⟩
      · exact hsize
      · omega

theorem MapCall.LimitHolds.keepsMap {call : MapCall} (h : call.LimitHolds m) : call.KeepsMap m := by
  cases call with
  | add name dptype base length => trivial
  | delete address => trivial
  | resize newSize => exact h

end fits

/-- In the maps that calls lead to, as long as all of these met the condition, the entries fit the
partition of the map; and the next call keeps it so and refuses fairly just when it meets the condition. -/
theorem map_fits_partition_iff (mediaSize : ℕ) (hmin : 4 ≤ mediaSize) (hmedia : mediaSize < 2 ^ 32)
    (calls : List MapCall) (m : PartitionMap)
    (hr : MapRun (fun m call => call.LimitHolds m) (initPartitionMap mediaSize) calls m) :
    m.FitsPartition ∧ ∀ call : MapCall, call.Proper m →
      ((call.run m).FitsPartition ∧ call.FairlyRefused m ↔ call.LimitHolds m) := by
  have hinit : (initPartitionMap mediaSize).Sound ∧ (initPartitionMap mediaSize).FitsPartition := by
    obtain ⟨h, e, rest, hbase, hmap, -, -, hmax⟩ := initPartitionMap_sound hmin hmedia
    refine ⟨h, h.fitsPartition_iff.mpr ?_⟩
    rw [mapLength_eq hbase hmap, ← hmax]
    exact h.room
  have hall : m.Sound ∧ m.FitsPartition := by
    refine hr.invariant (I := fun m => m.Sound ∧ m.FitsPartition) ?_ hinit
    rintro m call _ ⟨h, hfits⟩ ⟨hproper, hlimit⟩ rfl
    exact ⟨h.call hproper hlimit.keepsMap, ((h.limitHolds_iff hfits hproper).mpr hlimit).1⟩
  exact ⟨hall.2, fun call hproper => hall.1.limitHolds_iff hall.2 hproper⟩

/-- The map has been made shorter, and a partition has been added and deleted, when another one is
added. -/
theorem map_fits_partition_ten : ∃ m,
    MapRun (fun m call => call.LimitHolds m) (initPartitionMap 1000)
      [.resize 10, .add [] "Apple_HFS".toList 100 50, .delete 3] m ∧
    ((MapCall.add [] "Apple_HFS".toList 200 50).run m).FitsPartition ∧
      (MapCall.add [] "Apple_HFS".toList 200 50).FairlyRefused m := by
  have hr : MapRun (fun m call => call.LimitHolds m) (initPartitionMap 1000)
      [.resize 10, .add [] "Apple_HFS".toList 100 50, .delete 3] _ :=
    .snoc (.snoc (.snoc (.nil _)
      ⟨⟨⟨by decide, by decide⟩, by unfold MapCall.LimitHolds PartitionMap.LosesMap; decide +kernel⟩, rfl⟩)
      ⟨⟨⟨by decide, by decide, by decide⟩, fun cur hcur _ => by
        obtain rfl := Option.some.inj ((by decide +kernel : ((MapCall.resize 10).run
          (initPartitionMap 1000)).baseOrder.find? (fun cur => cur.data.includes 100 50) =
            some ⟨1, ⟨11, 989, kFreeName, kFreeType⟩⟩).symm.trans hcur)
        decide +kernel⟩, rfl⟩)
      ⟨⟨by unfold MapCall.Proper; decide +kernel, trivial⟩, rfl⟩
  refine ⟨_, hr, ((map_fits_partition_iff 1000 (by decide) (by decide) _ _ hr).2
    (.add [] "Apple_HFS".toList 200 50) ⟨by decide, by decide, by decide⟩).mpr (fun cur hcur _ => ?_)⟩
  obtain rfl := Option.some.inj ((by decide +kernel : ((MapCall.delete 3).run
    ((MapCall.add [] "Apple_HFS".toList 100 50).run ((MapCall.resize 10).run
      (initPartitionMap 1000)))).baseOrder.find? (fun cur => cur.data.includes 200 50) =
        some ⟨3, ⟨11, 989, kFreeName, kFreeType⟩⟩).symm.trans hcur)
  decide +kernel

/-- A map that was made 4 blocks long has 6 entries after two additions. A map that was made 10 blocks
long, with 2 entries, refuses an addition that needs 4. -/
theorem map_outgrows :
    ¬ ((MapCall.add [] "Apple_HFS".toList 300 50).run ((MapCall.add [] "Apple_HFS".toList 100 50).run
      ((MapCall.resize 4).run (initPartitionMap 1000)))).FitsPartition ∧
    ¬ (MapCall.add [] "Apple_HFS".toList 50 5).FairlyRefused
      ((MapCall.resize 10).run (initPartitionMap 100)) := by
  constructor
  · rintro ⟨e, he, hmap, hlength, -⟩
    revert hmap hlength
    have hlong : ∀ e ∈ ((MapCall.add [] "Apple_HFS".toList 300 50).run
        ((MapCall.add [] "Apple_HFS".toList 100 50).run
          ((MapCall.resize 4).run (initPartitionMap 1000)))).baseOrder,
        e.data.type = kMapType → ¬ ((MapCall.add [] "Apple_HFS".toList 300 50).run
          ((MapCall.add [] "Apple_HFS".toList 100 50).run
            ((MapCall.resize 4).run (initPartitionMap 1000)))).baseOrder.length ≤ e.data.pblocks := by
      decide +kernel
    exact hlong e he
  · intro hfair
    have hlt := hfair ⟨1, ⟨11, 89, kFreeName, kFreeType⟩⟩ (by decide +kernel) (by decide) (by decide +kernel)
    revert hlt
    decide +kernel

end Darwin.Pdisk
