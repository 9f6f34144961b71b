import Darwin.Lib.Run
import Darwin.Netat.ZoneTable

/-! # Zones are counted

A slot counts the bitmaps with its bit. Of the routines that take a bit away only `zt_remove_zones`
takes the name away with the last one; a slot whose last bit `zt_clr_zmap` takes keeps its name and
is lost.
-/
namespace Darwin.Netat
open Darwin.Lib Function List

/-! ## Bits of a bitmap -/

section bits
variable {zmap : ZoneMap} {num m : ℕ}

theorem bit_eq : ∀ b : BitVec 8, ∀ k : Fin 8, (b &&& 0x80#8 >>> k.val != 0) = b.getMsbD k.val := by
  decide +kernel

theorem mask_bit : ∀ j k : Fin 8, (0x80#8 >>> j.val).getMsbD k.val = decide (k = j) := by decide

theorem or_mask (b : BitVec 8) (j k : Fin 8) : ((b ||| 0x80#8 >>> j.val) &&& 0x80#8 >>> k.val != 0) =
    (decide (k = j) || (b &&& 0x80#8 >>> k.val != 0)) := by
  rw [bit_eq, bit_eq, BitVec.getMsbD_or, mask_bit, Bool.or_comm]

theorem xor_mask (b : BitVec 8) (j k : Fin 8) : ((b ^^^ 0x80#8 >>> j.val) &&& 0x80#8 >>> k.val != 0) =
    (decide (k = j) ^^ (b &&& 0x80#8 >>> k.val != 0)) := by
  rw [bit_eq, bit_eq, BitVec.getMsbD_xor, mask_bit, Bool.xor_comm]

theorem shift_mask (b : BitVec 8) (j : Fin 8) :
    (b <<< j.val &&& 0x80#8 ≠ 0) ↔ (b &&& 0x80#8 >>> j.val != 0) = true := by
  have hfirst := bit_eq (b <<< j.val) 0
  rw [BitVec.getMsbD_shiftLeft] at hfirst
  rw [bit_eq, ← bne_iff_ne]
  refine (iff_of_eq (congrArg (· = true) hfirst)).trans ?_
  simp

theorem place_eq {i j : ℕ} : i = j ↔ i / 8 = j / 8 ∧ (Fin.ofNat 8 i = Fin.ofNat 8 j) := by
  rw [Fin.ext_iff]
  change i = j ↔ i / 8 = j / 8 ∧ i % 8 = j % 8
  omega

@[simp] theorem isSet_zero : isSet (fun _ => 0) m = false := by
  rw [isSet]
  simp

theorem isSet_setBit : isSet (setBit zmap num) m = (decide (m = num) || isSet zmap m) := by
  rw [isSet, setBit, isSet, mask, mask]
  by_cases hbyte : m / 8 = num / 8
  · rw [hbyte, update_self]
    have hor := or_mask (zmap (num / 8)) (Fin.ofNat 8 num) (Fin.ofNat 8 m)
    refine hor.trans ?_
    have hplace : decide (Fin.ofNat 8 m = Fin.ofNat 8 num) = decide (m = num) := by
      rw [decide_eq_decide, place_eq (i := m)]
      exact ⟨fun h => ⟨hbyte, h⟩, And.right⟩
    rw [hplace]
    rfl
  · rw [update_of_ne hbyte]
    have hne : m ≠ num := fun h => hbyte (by rw [h])
    rw [decide_eq_false hne, Bool.false_or]

theorem isSet_flipBit : isSet (flipBit zmap num) m = (decide (m = num) ^^ isSet zmap m) := by
  rw [isSet, flipBit, isSet, mask, mask]
  by_cases hbyte : m / 8 = num / 8
  · rw [hbyte, update_self]
    have hxor := xor_mask (zmap (num / 8)) (Fin.ofNat 8 num) (Fin.ofNat 8 m)
    refine hxor.trans ?_
    have hplace : decide (Fin.ofNat 8 m = Fin.ofNat 8 num) = decide (m = num) := by
      rw [decide_eq_decide, place_eq (i := m)]
      exact ⟨fun h => ⟨hbyte, h⟩, And.right⟩
    rw [hplace]
    rfl
  · rw [update_of_ne hbyte]
    have hne : m ≠ num := fun h => hbyte (by rw [h])
    rw [decide_eq_false hne, Bool.false_xor]

end bits

/-! ## The loops of `zt_remove_zones` -/

section remove
variable {zmap : ZoneMap} {places : List (ℕ × ℕ)} {s : ZoneState}

/-- The bit of a place of the two loops. -/
def placeNum (p : ℕ × ℕ) : ℕ := p.1 * 8 + p.2

theorem isSet_place {i j : ℕ} (hj : j < 8) :
    zmap i <<< j &&& 0x80#8 ≠ 0 ↔ isSet zmap (placeNum (i, j)) = true := by
  have hdiv : (i * 8 + j) / 8 = i := by omega
  have hmod : (i * 8 + j) % 8 = j := by omega
  rw [isSet, mask, placeNum, hdiv, hmod]
  exact shift_mask (zmap i) ⟨j, hj⟩

theorem removePlaces_spec (hbits : ∀ p ∈ places, p.2 < 8) (hnodup : (places.map placeNum).Nodup)
    (hinside : ∀ p ∈ places, isSet zmap (placeNum p) = true → placeNum p < s.ztMaxEntry) :
    (removePlaces zmap places s).ztMaxEntry = s.ztMaxEntry ∧
      (removePlaces zmap places s).zmaps = s.zmaps ∧
      ∀ i, (removePlaces zmap places s).table i =
        if i ∈ places.map placeNum ∧ isSet zmap i = true then (s.table i).release else s.table i := by
  induction places generalizing s with
  | nil => exact ⟨rfl, rfl, fun i => (if_neg (by simp)).symm⟩
  | cons p places ih =>
    obtain ⟨i, j⟩ := p
    obtain ⟨hj, hbits⟩ := forall_mem_cons.mp hbits
    rw [map_cons, nodup_cons] at hnodup
    obtain ⟨hnot, hnodup⟩ := hnodup
    obtain ⟨hhere, hinside⟩ := forall_mem_cons.mp hinside
    rw [removePlaces]
    by_cases hset : isSet zmap (placeNum (i, j)) = true
    · have hlt : i * 8 + j < s.ztMaxEntry := hhere hset
      rw [if_pos ((isSet_place hj).mpr hset)]
      dsimp only
      rw [if_neg (Nat.not_le.mpr hlt)]
      obtain ⟨hmax, hzmaps, htable⟩ := ih (s := { s with
        table := update s.table (i * 8 + j) (s.table (i * 8 + j)).release
        changed := true }) hbits hnodup hinside
      refine ⟨hmax, hzmaps, fun k => ?_⟩
      rw [htable k]
      dsimp only
      by_cases hk : k = placeNum (i, j)
      · subst hk
        rw [if_neg (fun h => hnot h.1), if_pos ⟨mem_cons_self, hset⟩]
        exact update_self _ _ _
      · have hk' : k ≠ i * 8 + j := hk
        rw [update_of_ne hk']
        by_cases hmem : k ∈ places.map placeNum ∧ isSet zmap k = true
        · rw [if_pos hmem, if_pos ⟨mem_cons_of_mem _ hmem.1, hmem.2⟩]
        · rw [if_neg hmem, if_neg (fun h => hmem ⟨(mem_cons.mp h.1).resolve_left hk, h.2⟩)]
    · rw [if_neg (fun h => hset ((isSet_place hj).mp h))]
      obtain ⟨hmax, hzmaps, htable⟩ := ih hbits hnodup hinside
      refine ⟨hmax, hzmaps, fun k => ?_⟩
      rw [htable k]
      by_cases hmem : k ∈ places.map placeNum ∧ isSet zmap k = true
      · rw [if_pos hmem, if_pos ⟨mem_cons_of_mem _ hmem.1, hmem.2⟩]
      · refine (if_neg hmem).trans (if_neg ?_).symm
        rintro ⟨hk, hkset⟩
        rcases mem_cons.mp hk with rfl | hk
        · exact hset hkset
        · exact hmem ⟨hk, hkset⟩

theorem mem_zmapPlaces {p : ℕ × ℕ} : p ∈ zmapPlaces zmap ↔ p.1 < ZT_BYTES ∧ p.2 < 8 ∧ zmap p.1 ≠ 0 := by
  rw [zmapPlaces, mem_flatMap]
  constructor
  · rintro ⟨i, hi, hp⟩
    by_cases hzero : zmap i ≠ 0
    · rw [if_pos hzero] at hp
      obtain ⟨j, hj, rfl⟩ := mem_map.mp hp
      exact ⟨mem_range.mp hi, mem_range.mp hj, hzero⟩
    · rw [if_neg hzero] at hp
      cases hp
  · rintro ⟨hi, hj, hzero⟩
    refine ⟨p.1, mem_range.mpr hi, ?_⟩
    rw [if_pos hzero]
    exact mem_map.mpr ⟨p.2, mem_range.mpr hj, rfl⟩

theorem zmapPlaces_nodup (zmap : ZoneMap) : ((zmapPlaces zmap).map placeNum).Nodup := by
  refine List.Nodup.map_on ?_ ?_
  · intro p hp q hq heq
    have hp' := mem_zmapPlaces.mp hp
    have hq' := mem_zmapPlaces.mp hq
    simp only [placeNum] at heq
    ext
    · omega
    · omega
  · rw [zmapPlaces, nodup_flatMap]
    refine ⟨fun i _ => ?_, nodup_range.imp (fun {i k} hne => ?_)⟩
    · by_cases hzero : zmap i ≠ 0
      · rw [if_pos hzero]
        exact nodup_range.map (fun _ _ h => congrArg Prod.snd h)
      · rw [if_neg hzero]
        exact nodup_nil
    · intro p hp hq
      have hfst : ∀ {l : ℕ}, p ∈ (if zmap l ≠ 0 then (List.range 8).map (fun j => (l, j)) else []) →
          p.1 = l := by
        intro l hl
        by_cases hzero : zmap l ≠ 0
        · rw [if_pos hzero] at hl
          obtain ⟨j, -, rfl⟩ := mem_map.mp hl
          rfl
        · rw [if_neg hzero] at hl
          cases hl
      exact hne ((hfst hp).symm.trans (hfst hq))

theorem place_of_isSet {num : ℕ} (hnum : num < ZT_MAX) (hset : isSet zmap num = true) :
    num ∈ (zmapPlaces zmap).map placeNum := by
  refine mem_map.mpr ⟨(num / 8, num % 8), mem_zmapPlaces.mpr ⟨?_, ?_, ?_⟩, ?_⟩
  · rw [ZT_MAX] at hnum
    rw [ZT_BYTES, ZT_MAX]
    omega
  · exact Nat.mod_lt _ (by decide)
  · intro hzero
    rw [isSet, hzero] at hset
    simp at hset
  · rw [placeNum]
    omega

theorem ztRemoveZones_spec (hinside : ∀ num < ZT_MAX, isSet zmap num = true → num < s.ztMaxEntry) :
    (ztRemoveZones s zmap).ztMaxEntry = s.ztMaxEntry ∧ (ztRemoveZones s zmap).zmaps = s.zmaps ∧
      ∀ i < ZT_MAX, (ztRemoveZones s zmap).table i =
        if isSet zmap i = true then (s.table i).release else s.table i := by
  have hlt : ∀ p ∈ zmapPlaces zmap, placeNum p < ZT_MAX := by
    intro p hp
    obtain ⟨hi, hj, -⟩ := mem_zmapPlaces.mp hp
    rw [ZT_BYTES, ZT_MAX] at hi
    rw [placeNum, ZT_MAX]
    omega
  obtain ⟨hmax, hzmaps, htable⟩ := removePlaces_spec (s := s) (fun p hp => (mem_zmapPlaces.mp hp).2.1)
    (zmapPlaces_nodup zmap) (fun p hp => hinside _ (hlt p hp))
  refine ⟨hmax, hzmaps, fun i hi => (htable i).trans ?_⟩
  by_cases hset : isSet zmap i = true
  · rw [if_pos ⟨place_of_isSet hi hset, hset⟩, if_pos hset]
  · rw [if_neg (fun h => hset h.2), if_neg hset]

end remove

/-! ## Names -/

/-- Equal as `zt_find_zname` compares. -/
def SameName (charSigned : Bool) (a b : Nvestr) : Prop :=
  a.len = b.len ∧ ∀ j < a.len, zoneChar charSigned (a.str j) = zoneChar charSigned (b.str j)

/-- Equal ignoring case, by the tables of `upshift8`. -/
abbrev EqualIgnoringCase : Nvestr → Nvestr → Prop := SameName false

/-- Where a `char` has a sign, the name has none of the small letters that `upshift8` misses. -/
def Plain (charSigned : Bool) (zname : Nvestr) : Prop :=
  charSigned = true → ∀ j < zname.len, zname.str j ∉ lowerCase

section names
variable {charSigned : Bool} {a b c : Nvestr}

theorem SameName.symm (h : SameName charSigned a b) : SameName charSigned b a :=
  ⟨h.1.symm, fun j hj => (h.2 j (h.1 ▸ hj)).symm⟩

theorem SameName.trans (h : SameName charSigned a b) (h' : SameName charSigned b c) :
    SameName charSigned a c :=
  ⟨h.1.trans h'.1, fun j hj => (h.2 j hj).trans (h'.2 j (h.1 ▸ hj))⟩

theorem zoneChar_plain : ∀ ch : BitVec 8, ch ∉ lowerCase → zoneChar true ch = zoneChar false ch := by
  decide +kernel

theorem Plain.sameName_iff (ha : Plain charSigned a) (hb : Plain charSigned b) :
    SameName charSigned a b ↔ EqualIgnoringCase a b := by
  cases charSigned with
  | false => exact Iff.rfl
  | true =>
    refine and_congr_right (fun hlen => forall₂_congr (fun j hj => ?_))
    rw [zoneChar_plain _ (ha rfl j hj), zoneChar_plain _ (hb rfl j (hlen ▸ hj))]

theorem sameName_iff : SameName charSigned a b ↔ a.len = b.len ∧ zoneEqual charSigned a b = true := by
  rw [SameName, zoneEqual, all_eq_true]
  simp only [mem_range, beq_iff_eq]

theorem copyName_sameName (a b : Nvestr) : SameName charSigned (copyName a b) a :=
  ⟨rfl, fun _ hj => congrArg (zoneChar charSigned) (if_pos hj)⟩

end names

/-! ## The invariant -/

/-- The routes of the table with `n` entries that have the bit of a slot. -/
def users (n : ℕ) (s : ZoneState) (i : ℕ) : Finset ℕ :=
  (Finset.range n).filter (fun route => isSet (s.zmaps route) i = true)

/-- What is searched for: a slot with this name that is in use. -/
def ZoneState.Names (charSigned : Bool) (s : ZoneState) (zname : Nvestr) (i : ℕ) : Prop :=
  i < s.ztMaxEntry ∧ (s.table i).zoneCount ≠ 0 ∧ SameName charSigned zname (s.table i).zone

structure Counted (charSigned : Bool) (n : ℕ) (s : ZoneState) : Prop where
  size : s.ztMaxEntry ≤ ZT_MAX
  inside : ∀ route < n, ∀ num < ZT_MAX, isSet (s.zmaps route) num = true → num < s.ztMaxEntry
  count : ∀ i < s.ztMaxEntry, (s.table i).zoneCount = (users n s i).card
  named : ∀ i < s.ztMaxEntry, (s.table i).zoneCount ≠ 0 → 0 < (s.table i).zone.len
  distinct : ∀ i j, i ≠ j → i < s.ztMaxEntry → (s.table i).zoneCount ≠ 0 →
    ¬ s.Names charSigned (s.table i).zone j

/-- A slot without routes has no name. -/
def SlotsReleased (s : ZoneState) : Prop :=
  ∀ i < s.ztMaxEntry, (s.table i).zoneCount = 0 → (s.table i).zone.len = 0

section state
variable {charSigned : Bool} {n i num route : ℕ} {s : ZoneState} {zname : Nvestr}

theorem users_card_le (n : ℕ) (s : ZoneState) (i : ℕ) : (users n s i).card ≤ n :=
  (Finset.card_filter_le _ _).trans_eq (Finset.card_range n)

theorem mem_users {r : ℕ} : r ∈ users n s i ↔ r < n ∧ isSet (s.zmaps r) i = true := by
  rw [users, Finset.mem_filter, Finset.mem_range]

theorem Counted.used_iff (h : Counted charSigned n s) (hi : i < s.ztMaxEntry) :
    (s.table i).zoneCount ≠ 0 ↔ ∃ r < n, isSet (s.zmaps r) i = true := by
  rw [h.count i hi, Finset.card_ne_zero]
  exact ⟨fun ⟨r, hr⟩ => ⟨r, mem_users.mp hr⟩, fun ⟨r, hr⟩ => ⟨r, mem_users.mpr hr⟩⟩

theorem names_iff : s.Names charSigned zname i ↔ i < s.ztMaxEntry ∧
    (!((s.table i).zoneCount == 0 || zname.len != (s.table i).zone.len) &&
      zoneEqual charSigned zname (s.table i).zone) = true := by
  rw [ZoneState.Names, sameName_iff]
  simp only [Bool.and_eq_true, Bool.not_eq_true', Bool.or_eq_false_iff, beq_eq_false_iff_ne,
    bne_eq_false_iff_eq]
  constructor
  · rintro ⟨hi, hcount, hsame, hequal⟩
    exact ⟨hi, ⟨hcount, hsame⟩, hequal⟩
  · rintro ⟨hi, ⟨hcount, hsame⟩, hequal⟩
    exact ⟨hi, hcount, hsame, hequal⟩

theorem ztFindZname_cases (hlen : 0 < zname.len) :
    (∃ i, s.Names charSigned zname i ∧ ztFindZname charSigned s zname = i + 1) ∨
      ((∀ i, ¬ s.Names charSigned zname i) ∧ ztFindZname charSigned s zname = 0) := by
  rw [ztFindZname, if_neg (Nat.ne_of_gt hlen)]
  split
  · next hnone =>
    refine .inr ⟨fun i hi => ?_, rfl⟩
    obtain ⟨hlt, hmatch⟩ := names_iff.mp hi
    exact List.find?_eq_none.mp hnone i (mem_range.mpr hlt) hmatch
  · next i hsome =>
    have hmatch := List.find?_some hsome
    exact .inl ⟨i, names_iff.mpr ⟨mem_range.mp (mem_of_find?_eq_some hsome), hmatch⟩, rfl⟩

theorem Counted.names_unique (h : Counted charSigned n s) {j : ℕ} (hi : s.Names charSigned zname i)
    (hj : s.Names charSigned zname j) : i = j := by
  by_contra hne
  exact h.distinct i j hne hi.1 hi.2.1 ⟨hj.1, hj.2.1, hi.2.2.symm.trans hj.2.2⟩

/-! ## Bits are set and cleared -/

theorem mem_users_update {zmap : ZoneMap} {table : ℕ → ZtEntry} {r : ℕ} (hroute : route < n) :
    r ∈ users n { s with zmaps := update s.zmaps route zmap, table := table } i ↔
      (r = route ∧ isSet zmap i = true) ∨ (r ≠ route ∧ r ∈ users n s i) := by
  rw [mem_users, mem_users]
  dsimp only
  by_cases hr : r = route
  · subst hr
    rw [update_self]
    exact ⟨fun h => .inl ⟨rfl, h.2⟩, fun h => h.elim (fun h => ⟨hroute, h.2⟩) (fun h => absurd rfl h.1)⟩
  · rw [update_of_ne hr]
    exact ⟨fun h => .inr ⟨hr, h⟩, fun h => h.elim (fun h => absurd h.1 hr) And.right⟩

theorem zoneNum_succ (hnum : num < ZT_MAX) : zoneNum (num + 1) = num := by
  rw [ZT_MAX] at hnum
  rw [zoneNum]
  omega

theorem setCount_self {table : ℕ → ZtEntry} {count : ℕ} (hcount : count < 2 ^ 16) :
    setCount table num count num = ⟨count, (table num).zone⟩ := by
  rw [setCount, update_self, Nat.mod_eq_of_lt hcount]

theorem setCount_of_ne {table : ℕ → ZtEntry} {count : ℕ} (hi : i ≠ num) :
    setCount table num count i = table i := update_of_ne hi _ _

theorem setCount_zone {table : ℕ → ZtEntry} {count : ℕ} (i : ℕ) :
    (setCount table num count i).zone = (table i).zone := by
  by_cases hi : i = num
  · subst hi
    rw [setCount, update_self]
  · rw [setCount_of_ne hi]

theorem Counted.lower {t : ZoneState} (h : Counted charSigned n s) (hmax : t.ztMaxEntry = s.ztMaxEntry)
    (hinside : ∀ route < n, ∀ num < ZT_MAX, isSet (t.zmaps route) num = true →
      isSet (s.zmaps route) num = true)
    (hcount : ∀ i < s.ztMaxEntry, (t.table i).zoneCount = (users n t i).card)
    (hzone : ∀ i < s.ztMaxEntry, (t.table i).zoneCount ≠ 0 →
      (s.table i).zoneCount ≠ 0 ∧ (t.table i).zone = (s.table i).zone) : Counted charSigned n t := by
  refine ⟨hmax ▸ h.size, fun route hroute num hnum hset => ?_, hmax ▸ hcount, fun i hi hused => ?_,
    fun i j hne hi hused hj => ?_⟩
  · rw [hmax]
    exact h.inside route hroute num hnum (hinside route hroute num hnum hset)
  · rw [hmax] at hi
    obtain ⟨hold, hsame⟩ := hzone i hi hused
    rw [hsame]
    exact h.named i hi hold
  · rw [hmax] at hi
    obtain ⟨hlt, hjused, hjsame⟩ := hj
    rw [hmax] at hlt
    obtain ⟨hold, hsame⟩ := hzone i hi hused
    obtain ⟨hjold, hjzone⟩ := hzone j hlt hjused
    rw [hsame, hjzone] at hjsame
    exact h.distinct i j hne hi hold ⟨hlt, hjold, hjsame⟩

theorem Counted.setZmap (h : Counted charSigned n s) (hn : n < 2 ^ 16) (hroute : route < n)
    (hnum : num < s.ztMaxEntry) (hname : 0 < (s.table num).zone.len)
    (hother : ∀ j, j ≠ num → ¬ s.Names charSigned (s.table num).zone j) :
    Counted charSigned n (ztSetZmap s (num + 1) route) ∧
      ((∀ i < s.ztMaxEntry, i ≠ num → (s.table i).zoneCount = 0 → (s.table i).zone.len = 0) →
        SlotsReleased (ztSetZmap s (num + 1) route)) := by
  have hlt : num < ZT_MAX := Nat.lt_of_lt_of_le hnum h.size
  rw [ztSetZmap, zoneNum_succ hlt]
  by_cases hset : isSet (s.zmaps route) num = true
  · rw [hset, Bool.not_true, if_neg Bool.false_ne_true]
    refine ⟨h, fun hreleased i hi hzero => ?_⟩
    by_cases hi' : i = num
    · subst hi'
      exact absurd hzero ((h.used_iff hi).mpr ⟨route, hroute, hset⟩)
    · exact hreleased i hi hi' hzero
  · rw [Bool.not_eq_true] at hset
    rw [hset, Bool.not_false, if_pos rfl]
    obtain ⟨t, ht⟩ : ∃ t, t = { s with
        zmaps := update s.zmaps route (setBit (s.zmaps route) num)
        table := setCount s.table num ((s.table num).zoneCount + 1) } := ⟨_, rfl⟩
    have hnew : users n t num = insert route (users n s num) := by
      ext r
      rw [ht, mem_users_update hroute, isSet_setBit, Finset.mem_insert]
      by_cases hr : r = route
      · simp [hr]
      · simp [hr]
    have hsame : ∀ i, i ≠ num → users n t i = users n s i := by
      intro i hi
      ext r
      rw [ht, mem_users_update hroute, isSet_setBit, decide_eq_false hi, Bool.false_or]
      by_cases hr : r = route
      · subst hr
        simp [mem_users, hroute]
      · simp [hr]
    have hnot : route ∉ users n s num := fun hmem => by
      rw [(mem_users.mp hmem).2] at hset
      cases hset
    have hcard : (users n t num).card = (s.table num).zoneCount + 1 := by
      rw [hnew, Finset.card_insert_of_notMem hnot, h.count num hnum]
    have hbound := users_card_le n t num
    have hself : t.table num = ⟨(s.table num).zoneCount + 1, (s.table num).zone⟩ := by
      rw [ht]
      exact setCount_self (by omega)
    have hne : ∀ i, i ≠ num → t.table i = s.table i := fun i hi => by
      rw [ht]
      exact setCount_of_ne hi
    have hzone : ∀ i, (t.table i).zone = (s.table i).zone := fun i => by
      rw [ht]
      exact setCount_zone i
    have hmax : t.ztMaxEntry = s.ztMaxEntry := by rw [ht]
    rw [← ht]
    refine ⟨⟨hmax ▸ h.size, fun r hr m hm hbit => ?_, fun i hi => ?_, fun i hi hused => ?_,
      fun i j hij hi hused hj => ?_⟩, fun hreleased i hi hzero => ?_⟩
    · rw [hmax]
      rw [ht] at hbit
      dsimp only at hbit
      by_cases hr' : r = route
      · subst hr'
        rw [update_self, isSet_setBit] at hbit
        rcases (Bool.or_eq_true _ _).mp hbit with heq | hold
        · rw [of_decide_eq_true heq]
          exact hnum
        · exact h.inside r hr m hm hold
      · rw [update_of_ne hr'] at hbit
        exact h.inside r hr m hm hbit
    · rw [hmax] at hi
      by_cases hi' : i = num
      · subst hi'
        rw [hself, hcard]
      · rw [hne i hi', hsame i hi', h.count i hi]
    · rw [hmax] at hi
      rw [hzone]
      by_cases hi' : i = num
      · subst hi'
        exact hname
      · rw [hne i hi'] at hused
        exact h.named i hi hused
    · obtain ⟨hjlt, hjused, hjsame⟩ := hj
      rw [hmax] at hi hjlt
      rw [hzone, hzone] at hjsame
      by_cases hi' : i = num
      · subst hi'
        rw [hne j hij.symm] at hjused
        exact hother j hij.symm ⟨hjlt, hjused, hjsame⟩
      · rw [hne i hi'] at hused
        by_cases hj' : j = num
        · subst hj'
          exact hother i hi' ⟨hi, hused, hjsame.symm⟩
        · rw [hne j hj'] at hjused
          exact h.distinct i j hij hi hused ⟨hjlt, hjused, hjsame⟩
    · rw [hmax] at hi
      by_cases hi' : i = num
      · subst hi'
        rw [hself] at hzero
        cases hzero
      · rw [hne i hi'] at hzero ⊢
        exact hreleased i hi hi' hzero

end state

end Darwin.Netat
