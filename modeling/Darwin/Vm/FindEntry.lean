import Darwin.Vm.MapInsert

/-! # `vm_map_find_entry` and the end of the address space

The search rounds addresses up in 32 bits. An entry near the last address sends it to address 0, and
from there on it takes whatever it finds.
-/
namespace Darwin.Vm
open Darwin.Lib Function List

variable {D : Type} {s s' : Maps D} {m : VmMap} {l p q : List ℕ} {id a e k size start : ℕ}
  {object : Option ℕ}

/-! ## Rounding -/

theorem dvd_alignUp (hk : k ≤ 32) : 2 ^ k ∣ alignUp start (2 ^ k - 1) := by
  have hmask : 2 ^ 32 - 1 - (2 ^ k - 1) = 2 ^ k * (2 ^ (32 - k) - 1) := by
    have hpos := Nat.two_pow_pos k
    rw [Nat.mul_sub, ← pow_add, Nat.add_sub_cancel' hk]
    omega
  apply Nat.dvd_of_mod_eq_zero
  rw [alignUp, hmask, Nat.and_mod_two_pow, Nat.mul_mod_right, Nat.and_zero]

theorem alignUp_wrapped (hk : k ≤ 32) (hstart : start < 2 ^ 32)
    (h : 2 ^ 32 ≤ start + (2 ^ k - 1)) : alignUp start (2 ^ k - 1) = 0 := by
  have hpos := Nat.two_pow_pos k
  have hle := Nat.pow_le_pow_right (n := 2) (by decide) hk
  apply Nat.eq_zero_of_dvd_of_lt (dvd_alignUp hk)
  have hand : alignUp start (2 ^ k - 1) ≤ u32 (start + (2 ^ k - 1)) := Nat.and_le_left
  rw [u32] at hand
  omega

theorem alignUp_lt (start mask : ℕ) : alignUp start mask < 2 ^ 32 :=
  Nat.lt_of_le_of_lt Nat.and_le_left (Nat.mod_lt _ (by decide))

/-! ## The gaps that are looked at -/

namespace VmMap

/-- Where the space behind an entry begins. -/
def endOf (m : VmMap) (e : ℕ) : ℕ := if e = 0 then m.minOffset else (m.entry e).vmeEnd

/-- The gaps behind `e` and behind each of the entries that follow it. -/
def gaps (m : VmMap) : ℕ → List ℕ → List (ℕ × ℕ)
  | e, [] => [(m.endOf e, m.maxOffset)]
  | e, next :: q => (m.endOf e, (m.entry next).vmeStart) :: m.gaps next q

/-- The gaps from the cached pointer on. -/
def freeGaps (m : VmMap) : List (ℕ × ℕ) :=
  m.gaps m.firstFree
    (if m.firstFree = 0 then m.entries else (m.entries.dropWhile (· ≠ m.firstFree)).tail)

theorem gaps_head (m : VmMap) (e : ℕ) (q : List ℕ) : ∃ limit gs,
    m.gaps e q = (m.endOf e, limit) :: gs := by
  cases q with
  | nil => exact ⟨_, _, rfl⟩
  | cons next q => exact ⟨_, _, rfl⟩

end VmMap

/-- One of the gaps is rounded past the last address, and none of those before it ends the
search. -/
def Wraps (maxOffset size mask : ℕ) (gaps : List (ℕ × ℕ)) : Prop :=
  size ≤ maxOffset ∧ (∃ g ∈ gaps, 2 ^ 32 ≤ g.1 + mask) ∧
    ∀ g ∈ gaps, g.1 + mask < 2 ^ 32 →
      alignUp g.1 mask + size ≤ maxOffset ∧ g.2 < alignUp g.1 mask + size

instance (maxOffset size mask : ℕ) (gaps : List (ℕ × ℕ)) :
    Decidable (Wraps maxOffset size mask gaps) :=
  inferInstanceAs (Decidable (_ ∧ _ ∧ _))

theorem wraps_cons {maxOffset mask : ℕ} {g : ℕ × ℕ} {gs : List (ℕ × ℕ)}
    (hg : g.1 + mask < 2 ^ 32) : Wraps maxOffset size mask (g :: gs) ↔
      (alignUp g.1 mask + size ≤ maxOffset ∧ g.2 < alignUp g.1 mask + size) ∧
        Wraps maxOffset size mask gs := by
  rw [Wraps, Wraps, exists_mem_cons_iff, forall_mem_cons,
    or_iff_right (Nat.not_le.mpr hg), imp_iff_right hg]
  tauto

namespace MapOk

theorem freeGaps_eq (h : MapOk m l) : ∃ p q, l = p ++ q ∧ p.getLastD 0 = m.firstFree ∧
    m.freeGaps = m.gaps (p.getLastD 0) q := by
  rw [VmMap.freeGaps, h.entries_eq]
  by_cases hz : m.firstFree = 0
  · exact ⟨[], l, rfl, hz.symm, by rw [if_pos hz, hz]; rfl⟩
  · rw [if_neg hz]
    obtain ⟨p, q, rfl⟩ := append_of_mem ((mem_cons.mp h.firstFree).resolve_left hz)
    have hnot := h.notMem_left
    refine ⟨p ++ [m.firstFree], q, by rw [append_assoc, singleton_append],
      getLastD_concat, ?_⟩
    have hdrop : (p ++ m.firstFree :: q).dropWhile (· ≠ m.firstFree) = m.firstFree :: q := by
      rw [dropWhile_append_of_pos (fun x hx => by
        rw [decide_eq_true_iff]
        rintro rfl
        exact hnot hx), dropWhile_cons_of_neg (by simp)]
    rw [hdrop, getLastD_concat]
    rfl

theorem endOf_last (h : MapOk m (p ++ q)) : m.endOf (p.getLastD 0) = m.minOffset ∧ p = [] ∨
    ∃ p₀ b, p = p₀ ++ [b] ∧ m.endOf (p.getLastD 0) = (m.entry b).vmeEnd := by
  rcases eq_nil_or_concat p with rfl | ⟨p₀, b, rfl⟩
  · exact .inl ⟨rfl, rfl⟩
  · have hb : b ≠ 0 := h.pos (by simp)
    rw [concat_eq_append, getLastD_concat]
    exact .inr ⟨p₀, b, rfl, if_neg hb⟩

theorem endOf_lt (h : MapOk m (p ++ q)) (hlt : m.minOffset < 2 ^ 32) :
    m.endOf (p.getLastD 0) < 2 ^ 32 := by
  rcases h.endOf_last with ⟨heq, rfl⟩ | ⟨p₀, b, rfl, heq⟩
  · rw [heq]
    exact hlt
  · rw [heq]
    exact Nat.lt_of_le_of_lt (h.valid (by simp)).2.2 h.bound

theorem minOffset_le_endOf (h : MapOk m (p ++ q)) : m.minOffset ≤ m.endOf (p.getLastD 0) := by
  rcases h.endOf_last with ⟨heq, rfl⟩ | ⟨p₀, b, rfl, heq⟩
  · exact heq.ge
  · have hval := h.valid (e := b) (by simp)
    omega

theorem end_le_endOf (h : MapOk m (p ++ q)) {y : ℕ} (hy : y ∈ p) :
    (m.entry y).vmeEnd ≤ m.endOf (p.getLastD 0) := by
  rcases h.endOf_last with ⟨-, rfl⟩ | ⟨p₀, b, rfl, heq⟩
  · cases hy
  · rw [heq]
    rcases mem_append.mp hy with hy | hy
    · rw [append_assoc] at h
      exact (h.sorted hy mem_cons_self).trans (h.valid (by simp)).2.1
    · rw [mem_singleton.mp hy]

theorem endOf_le {b : ℕ} (h : MapOk m (p ++ b :: q)) :
    m.endOf (p.getLastD 0) ≤ (m.entry b).vmeStart := by
  rcases h.endOf_last with ⟨heq, rfl⟩ | ⟨p₀, y, rfl, heq⟩
  · rw [heq]
    exact (h.valid (by simp)).1
  · rw [heq]
    exact h.sorted (by simp) mem_cons_self

end MapOk

/-! ## The search -/

/-- A range that the search may answer, with what lies before it and behind it. -/
structure Fits (m : VmMap) (k size x : ℕ) (p q : List ℕ) : Prop where
  aligned : 2 ^ k ∣ x
  min : m.minOffset ≤ x
  max : x + size ≤ m.maxOffset
  before : ∀ y ∈ p, (m.entry y).vmeEnd ≤ x
  behind : ∀ y ∈ q, x + size ≤ (m.entry y).vmeStart

theorem findEntryLoop_wrapped (hk : k ≤ 32) (hmin : m.minOffset < 2 ^ 32) (hsize : size ≤ m.maxOffset)
    {fuel : ℕ} : ∀ {p q : List ℕ}, MapOk m (p ++ q) → q.length < fuel →
      2 ^ 32 ≤ m.endOf (p.getLastD 0) + (2 ^ k - 1) →
      (∀ g ∈ m.gaps (p.getLastD 0) q, 2 ^ 32 ≤ g.1 + (2 ^ k - 1)) ∧
        ∃ p' q', p ++ q = p' ++ q' ∧ 2 ^ 32 ≤ m.endOf (p'.getLastD 0) + (2 ^ k - 1) ∧
          m.findEntryLoop size (2 ^ k - 1) fuel (p.getLastD 0) (m.endOf (p.getLastD 0)) =
            .ok (some (p'.getLastD 0, 0)) := by
  induction fuel with
  | zero =>
    intro p q _ hfuel
    cases hfuel
  | succ fuel ih =>
    intro p q hok hfuel hwrap
    rw [VmMap.findEntryLoop, alignUp_wrapped hk (hok.endOf_lt hmin) hwrap, Nat.zero_add,
      u32_eq (Nat.lt_of_le_of_lt hsize hok.bound), if_neg (by omega), hok.ring.next_last]
    cases q with
    | nil =>
      rw [headD_nil, if_pos (.inl rfl), VmMap.gaps, forall_mem_singleton]
      exact ⟨hwrap, p, [], rfl, hwrap, rfl⟩
    | cons b q =>
      have hb : b ≠ 0 := hok.pos (mem_append_right p mem_cons_self)
      have hle := hok.endOf_le
      have hval := hok.valid (mem_append_right p (mem_cons_self (a := b) (l := q)))
      have hlast : (p ++ [b]).getLastD 0 = b := getLastD_concat
      have hend : m.endOf b = (m.entry b).vmeEnd := if_neg hb
      have hrest := ih (p := p ++ [b]) (q := q)
        (by rwa [append_assoc, singleton_append]) (Nat.lt_of_succ_lt_succ hfuel)
        (by rw [hlast]; omega)
      rw [hlast, append_assoc, singleton_append] at hrest
      obtain ⟨hgaps, p', q', heq, hfrom, hloop⟩ := hrest
      rw [VmMap.gaps, forall_mem_cons, headD_cons]
      refine ⟨⟨hwrap, hgaps⟩, ?_⟩
      by_cases hfit : b = 0 ∨ size ≤ (m.entry b).vmeStart
      · rw [if_pos hfit]
        exact ⟨p, b :: q, rfl, hwrap, rfl⟩
      · rw [if_neg hfit, ← hend]
        exact ⟨p', q', heq, hfrom, hloop⟩

theorem findEntryLoop_cases (hk : k ≤ 32) (hmin : m.minOffset < 2 ^ 32) (hsize : size < 2 ^ 32)
    {fuel : ℕ} : ∀ {p q : List ℕ}, MapOk m (p ++ q) → q.length < fuel →
      (¬ Wraps m.maxOffset size (2 ^ k - 1) (m.gaps (p.getLastD 0) q) ∧
        (m.findEntryLoop size (2 ^ k - 1) fuel (p.getLastD 0) (m.endOf (p.getLastD 0)) = .ok none ∨
          ∃ p' q' x, p ++ q = p' ++ q' ∧ Fits m k size x p' q' ∧
            m.findEntryUnwrapped size (2 ^ k - 1) fuel (p.getLastD 0) (m.endOf (p.getLastD 0)) ∧
            m.findEntryLoop size (2 ^ k - 1) fuel (p.getLastD 0) (m.endOf (p.getLastD 0)) =
              .ok (some (p'.getLastD 0, x)))) ∨
      (Wraps m.maxOffset size (2 ^ k - 1) (m.gaps (p.getLastD 0) q) ∧
        ∃ p' q', p ++ q = p' ++ q' ∧ 2 ^ 32 ≤ m.endOf (p'.getLastD 0) + (2 ^ k - 1) ∧
          m.findEntryLoop size (2 ^ k - 1) fuel (p.getLastD 0) (m.endOf (p.getLastD 0)) =
            .ok (some (p'.getLastD 0, 0))) := by
  induction fuel with
  | zero =>
    intro p q _ hfuel
    cases hfuel
  | succ fuel ih =>
    intro p q hok hfuel
    have hbound := hok.bound
    obtain ⟨limit, gs, hgaps⟩ := m.gaps_head (p.getLastD 0) q
    by_cases hwrap : 2 ^ 32 ≤ m.endOf (p.getLastD 0) + (2 ^ k - 1)
    · by_cases hle : size ≤ m.maxOffset
      · obtain ⟨hall, hfound⟩ := findEntryLoop_wrapped hk hmin hle hok hfuel hwrap
        refine .inr ⟨⟨hle, ⟨_, hgaps ▸ mem_cons_self, hwrap⟩, fun g hg hlt => ?_⟩, hfound⟩
        exact absurd hlt (Nat.not_lt.mpr (hall g hg))
      · refine .inl ⟨fun hw => hle hw.1, .inl ?_⟩
        rw [VmMap.findEntryLoop, alignUp_wrapped hk (hok.endOf_lt hmin) hwrap, Nat.zero_add, u32_eq hsize,
          if_pos (.inl (Nat.lt_of_not_le hle))]
    · rw [Nat.not_le] at hwrap
      have hx := le_alignUp hwrap
      have hdvd : 2 ^ k ∣ alignUp (m.endOf (p.getLastD 0)) (2 ^ k - 1) := dvd_alignUp hk
      have hlt := alignUp_lt (m.endOf (p.getLastD 0)) (2 ^ k - 1)
      rw [VmMap.findEntryLoop, VmMap.findEntryUnwrapped]
      generalize hxdef : alignUp (m.endOf (p.getLastD 0)) (2 ^ k - 1) = x at hx hdvd hlt
      by_cases hout : m.maxOffset < u32 (x + size) ∨ u32 (x + size) < x
      · rw [if_pos hout]
        refine .inl ⟨fun hw => ?_, .inl rfl⟩
        rw [hgaps, wraps_cons hwrap, hxdef] at hw
        have hroom := hw.1.1
        rw [u32_eq (by omega)] at hout
        omega
      · have hstop : u32 (x + size) = x + size := by
          rw [u32] at hout ⊢
          omega
        rw [if_neg hout, hok.ring.next_last, and_iff_right hwrap]
        rw [hstop] at hout ⊢
        have hfits : ∀ q, (∀ y ∈ q, x + size ≤ (m.entry y).vmeStart) → Fits m k size x p q :=
          fun q hq => ⟨hdvd, hok.minOffset_le_endOf.trans hx, by omega,
            fun y hy => (hok.end_le_endOf hy).trans hx, hq⟩
        cases q with
        | nil =>
          rw [VmMap.gaps, wraps_cons hwrap, hxdef, headD_nil, if_pos (.inl rfl)]
          refine .inl ⟨fun hw => absurd hw.1.1 (Nat.not_le.mpr hw.1.2), .inr
            ⟨p, [], x, rfl, hfits [] (by simp), fun hne => absurd rfl hne, rfl⟩⟩
        | cons b q =>
          have hb : b ≠ 0 := hok.pos (mem_append_right p mem_cons_self)
          rw [VmMap.gaps, wraps_cons hwrap, hxdef, headD_cons]
          by_cases hfit : x + size ≤ (m.entry b).vmeStart
          · rw [if_pos (.inr hfit)]
            refine .inl ⟨fun hw => absurd hfit (Nat.not_le.mpr hw.1.2), .inr ⟨p, b :: q, x, rfl,
              hfits _ (fun y hy => hfit.trans (hok.start_le hy)), fun _ hlt => ?_, rfl⟩⟩
            exact absurd hfit (Nat.not_le.mpr hlt)
          · have hlast : (p ++ [b]).getLastD 0 = b := getLastD_concat
            have hend : m.endOf b = (m.entry b).vmeEnd := if_neg hb
            have hrest := ih (p := p ++ [b]) (q := q)
              (by rwa [append_assoc, singleton_append]) (Nat.lt_of_succ_lt_succ hfuel)
            rw [hlast, append_assoc, singleton_append, hend] at hrest
            rw [if_neg (not_or.mpr ⟨hb, hfit⟩),
              and_iff_right (a := x + size ≤ m.maxOffset ∧ (m.entry b).vmeStart < x + size) (by omega),
              imp_iff_right hb, imp_iff_right (Nat.lt_of_not_le hfit)]
            exact hrest

/-! ## The call -/

/-- What the caller relies on: an aligned range in which nothing was mapped, and a map that is well
formed with the entry for it. -/
def FindsEntry (s : Maps D) (id : ℕ) (m : VmMap) (size mask : ℕ) (object : Option ℕ) : Prop :=
  ∀ a e s', vmMapFindEntry s id size mask object = .ok (.success, a, e, s') →
    (mask + 1) ∣ a ∧ m.minOffset ≤ a ∧ a + size ≤ m.maxOffset ∧
      (∀ x, a ≤ x → x < a + size → m.view x = none) ∧
      ∃ m' l', s'.table id = some m' ∧ MapOk m' l' ∧
        ∃ r ∈ l'.map m'.entry, r.vmeStart ≤ a ∧ r.vmeEnd = a + size

theorem FoundEntry.record {stop : ℕ} {rs ts : List VmMapEntry} (h : FoundEntry start stop rs ts)
    (hvalid : ∀ r ∈ rs, r.vmeStart ≤ r.vmeEnd) :
    ∃ r ∈ ts, r.vmeStart ≤ start ∧ r.vmeEnd = stop := by
  cases h with
  | new rs ts r =>
    exact ⟨_, mem_append_right _ mem_cons_self, Nat.le_refl start, rfl⟩
  | extend rs ts r hr =>
    have hle := hvalid r (mem_append_right _ mem_cons_self)
    exact ⟨_, mem_append_right _ mem_cons_self, hr ▸ hle, rfl⟩

theorem Fits.view {x : ℕ} (hok : MapOk m (p ++ q)) (h : Fits m k size x p q) {y : ℕ} (hx : x ≤ y)
    (hy : y < x + size) : m.view y = none := by
  rw [hok.view_eq, viewOf_eq_none, forall_mem_map]
  intro b hb
  rcases mem_append.mp hb with hb | hb
  · have := h.before b hb
    omega
  · have := h.behind b hb
    omega

theorem vmMapFindEntry_address {mask entry x : ℕ} {code : KernReturn} (hm : s.table id = some m)
    (hr : m.findEntryLoop size mask (m.nentries + 1) m.firstFree (m.endOf m.firstFree) =
      .ok (some (entry, x))) (h : vmMapFindEntry s id size mask object = .ok (code, a, e, s')) :
    a = x := by
  replace h := Maps.bind_getMap hm h
  change (m.findEntryLoop size mask (m.nentries + 1) m.firstFree (m.endOf m.firstFree) >>= _) = _ at h
  rw [hr] at h
  have haddress := congrArg (Except.map (fun result => result.2.1)) h
  exact (Except.ok.inj haddress).symm

theorem vmMapFindEntry_new {mask entry x : ℕ} (hm : s.table id = some m)
    (hr : m.findEntryLoop size mask (m.nentries + 1) m.firstFree (m.endOf m.firstFree) =
      .ok (some (entry, x)))
    (hnew : ¬ (entry ≠ 0 ∧ object.any (fun o => (m.entry entry).extendsWired o x) = true)) :
    vmMapFindEntry s id size mask object = .ok (.success, x, m.fresh, s.setMap id
      { { m with
          fresh := m.fresh + 1
          entry := update m.entry m.fresh
            ((m.entry m.fresh).found x (u32 (x + size))) }.entryLink entry m.fresh with
        size := u32 (m.size + size), firstFree := m.fresh, hint := m.fresh }) := by
  rw [VmMap.endOf] at hr
  rw [vmMapFindEntry]
  simp only [Maps.getMap_eq hm, bind, Except.bind, hr, if_neg hnew]
  rfl

theorem vmMapFindEntry_wrapped {mask : ℕ} (hm : s.table id = some m) (hok : MapOk m (p ++ q))
    (hr : m.findEntryLoop size mask (m.nentries + 1) m.firstFree (m.endOf m.firstFree) =
      .ok (some (p.getLastD 0, 0))) (hpos : 0 < m.endOf (p.getLastD 0)) :
    ¬ FindsEntry s id m size mask object := by
  intro hfinds
  have hnew : ¬ (p.getLastD 0 ≠ 0 ∧
      object.any (fun o => (m.entry (p.getLastD 0)).extendsWired o 0) = true) := by
    rintro ⟨hne, hany⟩
    rw [VmMap.endOf, if_neg hne] at hpos
    cases object with
    | none => cases hany
    | some o =>
      rw [Option.any_some, VmMapEntry.extendsWired, decide_eq_true_iff] at hany
      omega
  obtain ⟨-, hmin, -, -, m', l', hm', hok', -⟩ := hfinds _ _ _ (vmMapFindEntry_new hm hr hnew)
  cases Maps.setMap_self.symm.trans hm'
  rcases hok.endOf_last with ⟨heq, -⟩ | ⟨p₀, b, rfl, heq⟩
  · omega
  · have hring := hok.ring.link rfl hok.fresh_notMem
    have hl : l' = (p₀ ++ [b]) ++ m.fresh :: q := by
      have hlength : (p₀ ++ [b] ++ m.fresh :: q).length = m.nentries + 1 := by
        rw [hok.count]
        simp only [length_append, length_cons, Nat.add_assoc]
      have hwalk := hring.walk_header
      rw [hlength] at hwalk
      exact hok'.entries_eq.symm.trans hwalk
    subst hl
    have hne : b ≠ m.fresh := by
      rintro rfl
      exact hok.fresh_notMem (by simp)
    have hsorted := hok'.sorted (e := b) (x := m.fresh) (by simp) mem_cons_self
    change (update m.entry m.fresh _ b).vmeEnd ≤
      (update m.entry m.fresh _ m.fresh).vmeStart at hsorted
    rw [update_of_ne hne, update_self] at hsorted
    rw [heq] at hpos
    exact absurd hsorted (Nat.not_le.mpr hpos)

/-- The entry that is found is valid unless the search wraps before it comes to a gap. -/
theorem vm_map_find_entry_valid_iff (hm : s.table id = some m) (hok : MapOk m l)
    (hbounds : m.minOffset < m.maxOffset) (hsize : size < 2 ^ 32) (hk : k ≤ 32) :
    FindsEntry s id m size (2 ^ k - 1) object ↔ ¬ Wraps m.maxOffset size (2 ^ k - 1) m.freeGaps := by
  obtain ⟨p, q, rfl, hfirst, hgaps⟩ := hok.freeGaps_eq
  have hpos := Nat.two_pow_pos k
  have hle := Nat.pow_le_pow_right (n := 2) (by decide) hk
  have hfuel : q.length < m.nentries + 1 := by
    rw [hok.count, length_append]
    omega
  have hloop := findEntryLoop_cases hk (hbounds.trans hok.bound) hsize hok hfuel
  rw [hgaps]
  rw [hfirst] at hloop ⊢
  rcases hloop with ⟨hw, hr | ⟨p', q', x, heq, hfits, hsafe, hr⟩⟩ | ⟨hw, p', q', heq, hfrom, hr⟩
  · refine iff_of_true (fun a e s' h => ?_) hw
    replace h := Maps.bind_getMap hm h
    change (m.findEntryLoop size (2 ^ k - 1) (m.nentries + 1) m.firstFree (m.endOf m.firstFree) >>= _) =
      _ at h
    rw [hr] at h
    cases h
  · refine iff_of_true (fun a e s' h => ?_) hw
    obtain ⟨hfail, -⟩ | ⟨-, m', l', rfl, hfound⟩ := vmMapFindEntry_spec hm hok hsize hsafe h
    · exact absurd rfl hfail
    obtain rfl := vmMapFindEntry_address hm hr h
    have hrecord := hfound.records.record (fun r hr => by
      obtain ⟨y, hy, rfl⟩ := mem_map.mp hr
      exact (hok.valid hy).2.1)
    rw [heq] at hok
    have hdvd := hfits.aligned
    refine ⟨by rwa [Nat.sub_add_cancel hpos], hfits.min, hfits.max,
      fun y hy hy' => hfits.view hok hy hy', m', l', Maps.setMap_self, hfound.ok, hrecord⟩
  · refine iff_of_false ?_ (not_not_intro hw)
    rw [heq] at hok
    exact vmMapFindEntry_wrapped hm hok hr (by omega)

/-- A map with one entry of a page, which ends a page below the end of the map. -/
def highMap : VmMap where
  next e := if e = 0 then 1 else 0
  prev e := if e = 0 then 1 else 0
  entry e :=
    if e = 0 then { VmMapEntry.zero with vmeStart := 4096, vmeEnd := 4294963200 }
    else { VmMapEntry.zero with
      vmeStart := 4294955008, vmeEnd := 4294959104, protection := 3, maxProtection := 7 }
  fresh := 2
  nentries := 1
  size := 4096
  isMainMap := true
  refCount := 1
  hint := 1
  firstFree := 1

theorem highMap_ok : MapOk highMap [1] where
  ring := ⟨by decide, by decide⟩
  count := rfl
  laid := ⟨by decide, by decide⟩
  bound := by decide
  hint := by decide
  firstFree := by decide
  fresh := by decide

def highMaps : Maps ℕ := (Maps.empty ℕ).setMap 0 highMap

/-- 64 KB at a multiple of 64 KB are given out at address 0, where the map does not begin. -/
theorem vm_map_find_entry_valid_high :
    ¬ FindsEntry highMaps 0 highMap 65536 (2 ^ 16 - 1) none :=
  fun h => absurd ((vm_map_find_entry_valid_iff Maps.setMap_self highMap_ok (by decide) (by decide)
    (by decide)).mp h) (by decide +kernel)

end Darwin.Vm
