import Darwin.Netat.ZoneCounts

/-! # Calls on the zone table

While `zt_clr_zmap` never takes the last bit of a slot, and no name has a letter whose case
`upshift8` fails to see, the table serves its users over any sequence of calls.
-/
namespace Darwin.Netat
open Darwin.Lib Function

/-- The routes and names that calls are about, in a routing table of `n` entries. -/
def ZoneCall.Proper (n : ℕ) : ZoneCall → Prop
  | .learn route zname => route < n ∧ 1 ≤ zname.len ∧ zname.len ≤ 32
  | .clear route znum => route < n ∧ 1 ≤ znum ∧ znum ≤ ZT_MAX
  | .remove route => route < n

/-- A name whose letters all have a case for `upshift8`; a cleared bit that is not the last of its slot. -/
def ZoneCall.Kept (charSigned : Bool) (s : ZoneState) : ZoneCall → Prop
  | .learn _ zname => Plain charSigned zname
  | .clear route znum =>
    isSet (s.zmaps route) (zoneNum znum) = true → 2 ≤ (s.table (zoneNum znum)).zoneCount
  | .remove _ => True

/-- What holds between calls. -/
structure Zones (charSigned : Bool) (n : ℕ) (s : ZoneState) : Prop where
  counted : Counted charSigned n s
  released : SlotsReleased s
  plain : ∀ i < s.ztMaxEntry, Plain charSigned (s.table i).zone

section steps
variable {charSigned : Bool} {n route num : ℕ} {s : ZoneState} {zname : Nvestr}

/-! ## A zone is learned -/

theorem ztSetZmap_zone (s : ZoneState) (znum route i : ℕ) :
    ((ztSetZmap s znum route).table i).zone = (s.table i).zone := by
  unfold ztSetZmap
  dsimp only
  by_cases hset : (!isSet (s.zmaps route) (zoneNum znum)) = true
  · rw [if_pos hset]
    dsimp only
    rw [setCount_zone]
  · rw [if_neg hset]

theorem ztSetZmap_max (s : ZoneState) (znum route : ℕ) :
    (ztSetZmap s znum route).ztMaxEntry = s.ztMaxEntry := by
  unfold ztSetZmap
  dsimp only
  by_cases hset : (!isSet (s.zmaps route) (zoneNum znum)) = true
  · rw [if_pos hset]
  · rw [if_neg hset]

theorem Zones.setZmap (h : Zones charSigned n s) (hn : n < 2 ^ 15) (hroute : route < n)
    (hi : s.Names charSigned zname num) : Zones charSigned n (ztSetZmap s (num + 1) route) := by
  obtain ⟨hlt, hused, -⟩ := hi
  have hset := h.counted.setZmap (by omega) hroute hlt (h.counted.named num hlt hused)
    (fun j hj => h.counted.distinct num j hj.symm hlt hused)
  refine ⟨hset.1, hset.2 (fun i hi _ => h.released i hi), fun i hi => ?_⟩
  rw [ztSetZmap_zone]
  exact h.plain i ((ztSetZmap_max s _ _) ▸ hi)

/-- A free slot, with the name copied to it. -/
def nameSlot (s : ZoneState) (num : ℕ) (zname : Nvestr) : ZoneState :=
  { s with
    table := update s.table num
      { s.table num with zone := copyName zname (s.table num).zone }
    changed := true }

theorem nameSlot_of_ne {i : ℕ} (hi : i ≠ num) : (nameSlot s num zname).table i = s.table i :=
  update_of_ne hi _ _

theorem nameSlot_self : (nameSlot s num zname).table num =
    { s.table num with zone := copyName zname (s.table num).zone } := update_self _ _ _

theorem Counted.takesName (h : Counted charSigned n s) (hfree : (s.table num).zoneCount = 0) :
    Counted charSigned n (nameSlot s num zname) := by
  refine h.lower rfl (fun _ _ _ _ hset => hset) (fun i hi => ?_) (fun i hi hused => ?_)
  · have hcount : ((nameSlot s num zname).table i).zoneCount = (s.table i).zoneCount := by
      by_cases hnum : i = num
      · rw [hnum, nameSlot_self]
      · rw [nameSlot_of_ne hnum]
    rw [hcount]
    exact h.count i hi
  · by_cases hnum : i = num
    · rw [hnum, nameSlot_self] at hused
      exact absurd hfree hused
    · rw [nameSlot_of_ne hnum] at hused ⊢
      exact ⟨hused, rfl⟩

theorem Zones.newZone (h : Zones charSigned n s) (hn : n < 2 ^ 15) (hroute : route < n)
    (hlt : num < s.ztMaxEntry) (hfree : (s.table num).zoneCount = 0) (hlen : 0 < zname.len)
    (hplain : Plain charSigned zname) (hnone : ∀ i, ¬ s.Names charSigned zname i) :
    Zones charSigned n (ztSetZmap (nameSlot s num zname) (num + 1) route) := by
  have hcopy : ((nameSlot s num zname).table num).zone = copyName zname (s.table num).zone := by
    rw [nameSlot_self]
  have htakes : Counted charSigned n (nameSlot s num zname) := h.counted.takesName hfree
  have hset := htakes.setZmap (by omega) hroute hlt (by rw [hcopy]; exact hlen) (fun j hj hjn => by
      obtain ⟨hjlt, hjused, hjsame⟩ := hjn
      rw [hcopy, nameSlot_of_ne hj] at hjsame
      rw [nameSlot_of_ne hj] at hjused
      exact hnone j ⟨hjlt, hjused, (copyName_sameName _ _).symm.trans hjsame⟩)
  refine ⟨hset.1, hset.2 (fun i hi hne hzero => ?_), fun i hi => ?_⟩
  · rw [nameSlot_of_ne hne] at hzero ⊢
    exact h.released i hi hzero
  · rw [ztSetZmap_max] at hi
    rw [ztSetZmap_zone]
    by_cases hnum : i = num
    · rw [hnum, hcopy]
      intro hsigned j hj
      have hsame : (copyName zname (s.table num).zone).str j = zname.str j := if_pos hj
      rw [hsame]
      exact hplain hsigned j hj
    · rw [nameSlot_of_ne hnum]
      exact h.plain i hi

theorem Zones.learn (h : Zones charSigned n s) (hn : n < 2 ^ 15) (hroute : route < n)
    (hlen : 0 < zname.len) (hplain : Plain charSigned zname) :
    Zones charSigned n ((ZoneCall.learn route zname).run charSigned s) := by
  have hindex : ∀ i < s.ztMaxEntry, i + 1 ≠ ZT_MAXEDOUT := by
    intro i hi
    have hsize := h.counted.size
    rw [ZT_MAXEDOUT]
    omega
  rw [ZoneCall.run, ztAddZonename]
  rcases @ztFindZname_cases charSigned s zname hlen with ⟨i, hi, hfind⟩ | ⟨hnone, hfind⟩
  · rw [hfind]
    dsimp only
    rw [if_pos (Nat.succ_ne_zero i)]
    dsimp only
    rw [if_neg (hindex i hi.1)]
    exact h.setZmap hn hroute hi
  · rw [hfind]
    dsimp only
    rw [if_neg (show ¬ (0 ≠ 0) from fun hne => hne rfl)]
    split
    · dsimp only
      rw [if_pos rfl]
      exact h
    · next i hsome =>
      have hlt := List.mem_range.mp (List.mem_of_find?_eq_some hsome)
      have hfree := List.find?_some hsome
      simp only [Bool.and_eq_true, beq_iff_eq] at hfree
      dsimp only
      rw [if_neg (hindex i hlt)]
      exact h.newZone hn hroute hlt hfree.1 hlen hplain hnone

/-! ## A bit is taken away -/

theorem users_erase {t : ZoneState} {i : ℕ}
    (hself : isSet (t.zmaps route) i = false) (hother : ∀ r, r ≠ route → t.zmaps r = s.zmaps r) :
    users n t i = (users n s i).erase route := by
  ext r
  rw [Finset.mem_erase, mem_users, mem_users]
  by_cases hr : r = route
  · subst hr
    rw [hself]
    exact ⟨fun h => absurd h.2 Bool.false_ne_true, fun h => absurd rfl h.1⟩
  · rw [hother r hr]
    exact ⟨fun h => ⟨hr, h⟩, And.right⟩

theorem Zones.clear (h : Zones charSigned n s) (hn : n < 2 ^ 15) (hroute : route < n)
    (hnum : num < ZT_MAX) (hkept : isSet (s.zmaps route) num = true → 2 ≤ (s.table num).zoneCount) :
    Zones charSigned n ((ZoneCall.clear route (num + 1)).run charSigned s) := by
  rw [ZoneCall.run, ztClrZmap, zoneNum_succ hnum]
  by_cases hset : isSet (s.zmaps route) num = true
  · rw [if_pos hset]
    have hlt := h.counted.inside route hroute num hnum hset
    have htwo := hkept hset
    have hcount := h.counted.count num hlt
    have hbound := users_card_le n s num
    obtain ⟨t, ht⟩ : ∃ t, t = { s with
        zmaps := update s.zmaps route (flipBit (s.zmaps route) num)
        table := setCount s.table num ((s.table num).zoneCount + (2 ^ 16 - 1)) } := ⟨_, rfl⟩
    have hmod : ((s.table num).zoneCount + (2 ^ 16 - 1)) % 2 ^ 16 = (s.table num).zoneCount - 1 := by
      omega
    have hself : t.table num = ⟨(s.table num).zoneCount - 1, (s.table num).zone⟩ := by
      rw [ht, ← hmod]
      exact update_self _ _ _
    have hne : ∀ i, i ≠ num → t.table i = s.table i := fun i hi => by
      rw [ht]
      exact setCount_of_ne hi
    have hmax : t.ztMaxEntry = s.ztMaxEntry := by rw [ht]
    have hzmap : t.zmaps route = flipBit (s.zmaps route) num := by
      rw [ht]
      exact update_self _ _ _
    have hother : ∀ r, r ≠ route → t.zmaps r = s.zmaps r := fun r hr => by
      rw [ht]
      exact update_of_ne hr _ _
    have hbit : isSet (t.zmaps route) num = false := by
      rw [hzmap, isSet_flipBit, hset, decide_eq_true rfl]
      rfl
    have hkeep : ∀ i, i ≠ num → isSet (t.zmaps route) i = isSet (s.zmaps route) i := fun i hi => by
      rw [hzmap, isSet_flipBit, decide_eq_false hi, Bool.false_xor]
    rw [← ht]
    refine ⟨h.counted.lower hmax (fun r _ m _ hm => ?_) (fun i hi => ?_) (fun i hi hused => ?_),
      fun i hi hzero => ?_, fun i hi => ?_⟩
    · by_cases hr : r = route
      · subst hr
        by_cases hm' : m = num
        · rw [hm']
          exact hset
        · rw [hkeep m hm'] at hm
          exact hm
      · rw [hother r hr] at hm
        exact hm
    · by_cases hi' : i = num
      · rw [hi', hself, users_erase hbit hother, Finset.card_erase_of_mem (mem_users.mpr ⟨hroute, hset⟩),
          ← hcount]
      · have husers : users n t i = users n s i := by
          ext r
          rw [mem_users, mem_users]
          by_cases hr : r = route
          · rw [hr, hkeep i hi']
          · rw [hother r hr]
        rw [hne i hi', husers]
        exact h.counted.count i hi
    · by_cases hi' : i = num
      · rw [hi', hself]
        exact ⟨by omega, rfl⟩
      · rw [hne i hi'] at hused ⊢
        exact ⟨hused, rfl⟩
    · rw [hmax] at hi
      by_cases hi' : i = num
      · rw [hi', hself] at hzero
        have hzero' : (s.table num).zoneCount - 1 = 0 := hzero
        omega
      · rw [hne i hi'] at hzero ⊢
        exact h.released i hi hzero
    · rw [hmax] at hi
      by_cases hi' : i = num
      · rw [hi', hself]
        exact h.plain num hlt
      · rw [hne i hi']
        exact h.plain i hi
  · rw [if_neg hset]
    exact h

/-! ## A route is removed -/

theorem release_count (e : ZtEntry) : e.release.zoneCount = e.zoneCount - 1 := rfl

theorem release_zone_of_ne {e : ZtEntry} (he : e.release.zoneCount ≠ 0) : e.release.zone = e.zone :=
  if_neg he

theorem release_len {e : ZtEntry} (he : e.release.zoneCount = 0) : e.release.zone.len = 0 := by
  rw [show e.release.zone = { e.zone with len := 0 } from if_pos he]

theorem release_plain {e : ZtEntry} (he : Plain charSigned e.zone) : Plain charSigned e.release.zone := by
  by_cases hzero : e.release.zoneCount = 0
  · intro _ j hj
    rw [release_len hzero] at hj
    exact absurd hj (Nat.not_lt_zero j)
  · rw [release_zone_of_ne hzero]
    exact he

theorem Zones.remove (h : Zones charSigned n s) (hroute : route < n) :
    Zones charSigned n ((ZoneCall.remove route).run charSigned s) := by
  obtain ⟨hmax, hzmaps, htable⟩ := ztRemoveZones_spec (s := s) (h.counted.inside route hroute)
  rw [ZoneCall.run]
  obtain ⟨t, ht⟩ : ∃ t, t = { ztRemoveZones s (s.zmaps route) with
      zmaps := update (ztRemoveZones s (s.zmaps route)).zmaps route (fun _ => 0) } := ⟨_, rfl⟩
  have hmax' : t.ztMaxEntry = s.ztMaxEntry := by rw [ht, ← hmax]
  have hclear : t.zmaps route = fun _ => 0 := by
    rw [ht]
    exact update_self _ _ _
  have hother : ∀ r, r ≠ route → t.zmaps r = s.zmaps r := fun r hr => by
    rw [ht, ← congrFun hzmaps r]
    exact update_of_ne hr _ _
  have hslot : ∀ i < s.ztMaxEntry, t.table i =
      if isSet (s.zmaps route) i = true then (s.table i).release else s.table i := fun i hi => by
    rw [ht, ← htable i (Nat.lt_of_lt_of_le hi h.counted.size)]
  rw [← ht]
  refine ⟨h.counted.lower hmax' (fun r _ m _ hm => ?_) (fun i hi => ?_) (fun i hi hused => ?_),
    fun i hi hzero => ?_, fun i hi => ?_⟩
  · by_cases hr : r = route
    · rw [hr, hclear, isSet_zero] at hm
      cases hm
    · rw [hother r hr] at hm
      exact hm
  · have husers := users_erase (n := n) (s := s) (i := i) (by rw [hclear, isSet_zero]) hother
    rw [hslot i hi, husers]
    by_cases hset : isSet (s.zmaps route) i = true
    · rw [if_pos hset, release_count, Finset.card_erase_of_mem (mem_users.mpr ⟨hroute, hset⟩),
        h.counted.count i hi]
    · rw [if_neg hset, Finset.erase_eq_of_notMem (fun hmem => hset (mem_users.mp hmem).2)]
      exact h.counted.count i hi
  · rw [hslot i hi] at hused ⊢
    by_cases hset : isSet (s.zmaps route) i = true
    · rw [if_pos hset] at hused ⊢
      refine ⟨fun hzero => hused ?_, release_zone_of_ne hused⟩
      rw [release_count, hzero]
    · rw [if_neg hset] at hused ⊢
      exact ⟨hused, rfl⟩
  · rw [hmax'] at hi
    rw [hslot i hi] at hzero ⊢
    by_cases hset : isSet (s.zmaps route) i = true
    · rw [if_pos hset] at hzero ⊢
      exact release_len hzero
    · rw [if_neg hset] at hzero ⊢
      exact h.released i hi hzero
  · rw [hmax'] at hi
    rw [hslot i hi]
    by_cases hset : isSet (s.zmaps route) i = true
    · rw [if_pos hset]
      exact release_plain (h.plain i hi)
    · rw [if_neg hset]
      exact h.plain i hi

end steps

/-! ## Every run -/

theorem Zones.step {charSigned : Bool} {n : ℕ} {s : ZoneState} {call : ZoneCall}
    (h : Zones charSigned n s) (hn : n < 2 ^ 15) (hproper : call.Proper n)
    (hkept : call.Kept charSigned s) : Zones charSigned n (call.run charSigned s) := by
  cases call with
  | learn route zname => exact h.learn hn hproper.1 hproper.2.1 hkept
  | clear route znum =>
    obtain ⟨hroute, hone, hmax⟩ := hproper
    obtain ⟨num, rfl⟩ : ∃ num, znum = num + 1 := ⟨znum - 1, by omega⟩
    have hnum : num < ZT_MAX := hmax
    rw [ZoneCall.Kept, zoneNum_succ hnum] at hkept
    exact h.clear hn hroute hnum hkept
  | remove route => exact h.remove hproper

theorem Zones.init (charSigned : Bool) (n ztableSize : ℕ) :
    Zones charSigned n (zoneTableInit ztableSize) := by
  have hclear : ∀ r i, isSet ((zoneTableInit ztableSize).zmaps r) i = false := fun _ _ => isSet_zero
  refine ⟨⟨min_le_right _ _, fun r _ m _ hset => ?_, fun i _ => ?_, fun i _ hused => absurd rfl hused,
    fun i _ _ _ hused => absurd rfl hused⟩, fun _ _ _ => rfl, fun _ _ _ j hj => absurd hj (Nat.not_lt_zero j)⟩
  · rw [hclear] at hset
    cases hset
  · have hempty : users n (zoneTableInit ztableSize) i = ∅ := by
      refine Finset.filter_eq_empty_iff.mpr (fun r _ => ?_)
      rw [hclear]
      exact Bool.false_ne_true
    rw [hempty]
    rfl

/-- What the zone table does for the routes. -/
structure ZonesServe (charSigned : Bool) (n : ℕ) (s : ZoneState) : Prop where
  counted : ∀ i < s.ztMaxEntry, (s.table i).zoneCount = (users n s i).card
  distinct : ∀ i < s.ztMaxEntry, ∀ j < s.ztMaxEntry, i ≠ j → (s.table i).zoneCount ≠ 0 →
    (s.table j).zoneCount ≠ 0 → ¬ EqualIgnoringCase (s.table i).zone (s.table j).zone
  found : ∀ zname, 0 < zname.len → Plain charSigned zname → ∀ i < s.ztMaxEntry,
    (ztFindZname charSigned s zname = i + 1 ↔
      (s.table i).zoneCount ≠ 0 ∧ EqualIgnoringCase zname (s.table i).zone)
  full : ∀ zname, ztFindZname charSigned s zname = 0 →
    (ztAddZonename charSigned s zname).2 = ZT_MAXEDOUT →
    ∀ i < s.ztMaxEntry, ∃ route < n, isSet (s.zmaps route) i = true

section serve
variable {charSigned : Bool} {n : ℕ} {s : ZoneState} {zname : Nvestr}

theorem Zones.found_iff (h : Zones charSigned n s) (hlen : 0 < zname.len)
    (hplain : Plain charSigned zname) {i : ℕ} (hi : i < s.ztMaxEntry) :
    ztFindZname charSigned s zname = i + 1 ↔
      (s.table i).zoneCount ≠ 0 ∧ EqualIgnoringCase zname (s.table i).zone := by
  rw [← hplain.sameName_iff (h.plain i hi)]
  rcases @ztFindZname_cases charSigned s zname hlen with ⟨j, hj, hfind⟩ | ⟨hnone, hfind⟩
  · rw [hfind]
    constructor
    · intro hji
      have hji' : j = i := Nat.succ.inj hji
      exact hji' ▸ hj.2
    · intro hnames
      rw [h.counted.names_unique hj ⟨hi, hnames⟩]
  · rw [hfind]
    exact ⟨fun hzero => absurd hzero.symm (Nat.succ_ne_zero i), fun hnames => absurd ⟨hi, hnames⟩ (hnone i)⟩

theorem Zones.full (h : Zones charSigned n s) (hunknown : ztFindZname charSigned s zname = 0)
    (hfull : (ztAddZonename charSigned s zname).2 = ZT_MAXEDOUT) {i : ℕ} (hi : i < s.ztMaxEntry) :
    ∃ route < n, isSet (s.zmaps route) i = true := by
  rw [ztAddZonename, hunknown] at hfull
  dsimp only at hfull
  rw [if_neg (show ¬ (0 ≠ 0) from fun hne => hne rfl)] at hfull
  split at hfull
  · next hnone =>
    refine (h.counted.used_iff hi).mp (fun hzero => ?_)
    refine List.find?_eq_none.mp hnone i (List.mem_range.mpr hi) ?_
    rw [hzero, h.released i hi hzero]
    rfl
  · next j hsome =>
    have hlt := List.mem_range.mp (List.mem_of_find?_eq_some hsome)
    have hsize := h.counted.size
    dsimp only at hfull
    rw [ZT_MAXEDOUT] at hfull
    omega

theorem Zones.serve (h : Zones charSigned n s) : ZonesServe charSigned n s where
  counted := h.counted.count
  distinct i hi j hj hne hiused hjused hsame :=
    h.counted.distinct i j hne hi hiused
      ⟨hj, hjused, ((h.plain i hi).sameName_iff (h.plain j hj)).mpr hsame⟩
  found _ hlen hplain _ hi := h.found_iff hlen hplain hi
  full _ hunknown hfull _ hi := h.full hunknown hfull hi

end serve

/-- From an empty table, over calls that take no slot's last bit away by `zt_clr_zmap` and bring names
whose letters `upshift8` knows. The routing table has at most as many entries as a `short` counts. -/
theorem zone_table_serves (charSigned : Bool) (n ztableSize : ℕ) (hn : n < 2 ^ 15)
    (calls : List ZoneCall) (t : ZoneState)
    (hr : RunUnder (fun s (call : ZoneCall) => call.Proper n ∧ call.Kept charSigned s)
      (fun s (call : ZoneCall) t => call.run charSigned s = t) (zoneTableInit ztableSize) calls t) :
    ZonesServe charSigned n t := by
  have hstep : ∀ s (call : ZoneCall) t, Zones charSigned n s → call.Proper n ∧ call.Kept charSigned s →
      call.run charSigned s = t → Zones charSigned n t := by
    rintro s call _ h ⟨hproper, hkept⟩ rfl
    exact h.step hn hproper hkept
  exact (hr.invariant hstep (Zones.init charSigned n ztableSize)).serve

/-- Two routes learn the zone `A`, and one of them loses it, learns `B` and goes. -/
def twoRoutes : List ZoneCall :=
  [.learn 0 ⟨1, fun _ => 0x41⟩, .learn 1 ⟨1, fun _ => 0x41⟩, .clear 0 1, .learn 0 ⟨1, fun _ => 0x42⟩, .remove 0]

theorem zone_table_serves_two : ∃ t, ZonesServe true 2 t ∧
    t = twoRoutes.foldl (fun s call => call.run true s) (zoneTableInit 2) ∧ (t.table 0).zoneCount = 1 := by
  have hA : Plain true ⟨1, fun _ => 0x41⟩ := fun _ _ _ => (by decide : (0x41 : BitVec 8) ∉ lowerCase)
  have hB : Plain true ⟨1, fun _ => 0x42⟩ := fun _ _ _ => (by decide : (0x42 : BitVec 8) ∉ lowerCase)
  have hlearn : ∀ route < 2, ∀ c, ZoneCall.Proper 2 (.learn route ⟨1, fun _ => c⟩) :=
    fun route hroute c => ⟨hroute, le_refl 1, (by decide : 1 ≤ 32)⟩
  exact ⟨_, zone_table_serves true 2 2 (by decide) twoRoutes _
    (.snoc (.snoc (.snoc (.snoc (.snoc (.nil _) ⟨⟨hlearn 0 (by decide) _, hA⟩, rfl⟩)
      ⟨⟨hlearn 1 (by decide) _, hA⟩, rfl⟩) ⟨⟨⟨by decide, by decide, by decide⟩, fun _ => by decide +kernel⟩, rfl⟩)
      ⟨⟨hlearn 0 (by decide) _, hB⟩, rfl⟩) ⟨⟨(by decide : 0 < 2), trivial⟩, rfl⟩), rfl, by decide +kernel⟩

/-- In a table of one slot the only route of `A` is cleared: the slot has no route, and `B` finds the
table full. Where a `char` has a sign, one letter in its two cases makes two zones. -/
theorem zone_table_fails :
    ¬ ZonesServe true 1 ((ZoneCall.clear 0 1).run true
      ((ZoneCall.learn 0 ⟨1, fun _ => 0x41⟩).run true (zoneTableInit 1))) ∧
    ¬ ZonesServe true 1 ((ZoneCall.learn 0 ⟨1, fun _ => 0x8a⟩).run true
      ((ZoneCall.learn 0 ⟨1, fun _ => 0x80⟩).run true (zoneTableInit 2))) := by
  constructor
  · intro h
    obtain ⟨route, hroute, hset⟩ := h.full ⟨1, fun _ => 0x42⟩ (by decide +kernel) (by decide +kernel)
      0 (by decide +kernel)
    obtain rfl : route = 0 := by omega
    revert hset
    decide +kernel
  · intro h
    refine h.distinct 0 (by decide +kernel) 1 (by decide +kernel) (by decide) (by decide +kernel)
      (by decide +kernel) ⟨by decide +kernel, fun j hj => ?_⟩
    have hj' : j < 1 := hj
    obtain rfl : j = 0 := by omega
    decide +kernel

end Darwin.Netat
