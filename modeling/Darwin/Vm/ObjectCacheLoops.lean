import Darwin.Vm.ObjectCacheOk

/-! # The loops of the object cache

The loops end because each turn that does not leave a loop at once takes an object out of memory.
-/
namespace Darwin.Vm
open Darwin.Lib List

variable {s s' s'' : ObjectCache} {ext ext' : ℕ → ℕ} {o x : ℕ} {ob ob' : CacheObject} {n fuel : ℕ}

namespace ObjectCache

/-- What every loop keeps. -/
structure Shrinks (s s' : ObjectCache) : Prop where
  next : s'.next = s.next
  vmCacheMax : s'.vmCacheMax = s.vmCacheMax
  live : s'.liveNum ≤ s.liveNum
  dead : ∀ o, s.table o = none → s'.table o = none
  room : s'.vmObjectCached ≤ s.vmObjectCached ∨ s'.vmObjectCached ≤ s.vmCacheMax

theorem Shrinks.refl (s : ObjectCache) : Shrinks s s := ⟨rfl, rfl, le_rfl, fun _ => id, .inl le_rfl⟩

theorem Shrinks.trans (h : Shrinks s s') (h' : Shrinks s' s'') : Shrinks s s'' := by
  refine ⟨h'.next.trans h.next, h'.vmCacheMax.trans h.vmCacheMax, h'.live.trans h.live,
    fun o ho => h'.dead o (h.dead o ho), ?_⟩
  rcases h'.room with hroom | hroom
  · exact h.room.imp hroom.trans hroom.trans
  · rw [h.vmCacheMax] at hroom
    exact .inr hroom

theorem shrinks_set (ho : s.table o = some ob) : Shrinks s (s.set o ob') := by
  refine ⟨rfl, rfl, (liveNum_set ho).le, ?_, .inl le_rfl⟩
  intro x hx
  rw [set_of_ne, hx]
  rintro rfl
  cases ho.symm.trans hx

theorem Ok.shrinks_terminated (h : s.Ok ext) (ho : s.table o = some ob) : Shrinks s (s.terminated o ob) := by
  have hlive := terminated_liveNum (h.bounded o ob ho) ho
  refine ⟨rfl, rfl, by omega, ?_, .inl le_rfl⟩
  intro x hx
  rw [terminated_of_ne, hx]
  rintro rfl
  cases ho.symm.trans hx

theorem Ok.released (h : s.Ok (addRef ext (some o))) (ho : s.table o = some ob) (hmore : ob.refCount - 1 ≠ 0) :
    (s.set o { ob with refCount := ob.refCount - 1 }).Ok ext := by
  have hrefs := h.refs o ob ho
  rw [addRef_self] at hrefs
  push_cast at hrefs
  refine h.set ho rfl rfl ?_ ?_ (h.persist o ob ho) (fun heq => absurd heq hmore) ?_
  · rw [addRef_self]
    push_cast
    omega
  · exact fun x hx => (addRef_of_ne (fun heq => hx (Option.some.inj heq).symm)).symm
  · constructor
    · exact fun heq => absurd heq hmore
    · intro heq
      omega

/-- The state with the object on the list. -/
def listed (s : ObjectCache) (o : ℕ) (ob : CacheObject) : ObjectCache :=
  { s.set o { ob with refCount := ob.refCount - 1 } with
    vmObjectCachedList := s.vmObjectCachedList ++ [o]
    vmObjectCached := s.vmObjectCached + 1 }

theorem Ok.listed (h : s.Ok (addRef ext (some o))) (ho : s.table o = some ob) (hone : ob.refCount - 1 = 0)
    (hpers : ob.canPersist = true) : (s.listed o ob).Ok ext := by
  have hnew : o ∉ s.vmObjectCachedList := by
    intro hmem
    obtain ⟨obx, hobx, hzero⟩ := (h.cached o).mp hmem
    cases ho.symm.trans hobx
    omega
  refine h.change ho rfl rfl ?_ ?_ (h.persist o ob ho) (fun _ => hpers) ?_ ?_ ?_ ?_
  · rw [addRef_self]
    push_cast
    omega
  · exact fun x hx => (addRef_of_ne (fun heq => hx (Option.some.inj heq).symm)).symm
  · simp [hone]
  · intro x hx
    simp [hx]
  · refine nodup_append.mpr ⟨h.cachedNodup, nodup_singleton o, ?_⟩
    intro x hx y hy heq
    exact hnew (mem_singleton.mp hy ▸ heq ▸ hx)
  · rw [h.num, length_append]
    rfl

theorem Ok.finalize (h : s.Ok (addRef ext (some o))) (ho : s.table o = some ob) (hone : ob.refCount - 1 = 0)
    (hgo : ¬ (ob.canPersist = true ∧ 0 < ob.residentPageCount)) :
    ∃ s₁, s₁.Ok (addRef ext ob.shadow) ∧ Shrinks s s₁ ∧ s₁.liveNum + 1 = s.liveNum ∧
      ∀ fuel, deallocateLoop (fuel + 1) s (some o) = deallocateLoop fuel s₁ ob.shadow := by
  let ob₀ : CacheObject := { ob with refCount := ob.refCount - 1 }
  have ho₀ : (s.set o ob₀).table o = some ob₀ := set_self
  have hterm := h.terminated ho (by omega)
  have hstate : (s.set o ob₀).terminated o ob₀ = s.terminated o ob := by
    simp only [ObjectCache.terminated, ObjectCache.set, setBucket, free, Function.update_idem]
    rfl
  refine ⟨s.terminated o ob, hterm, h.shrinks_terminated ho, terminated_liveNum (h.bounded o ob ho) ho, ?_⟩
  intro fuel
  have hremove : (s.set o ob₀).vmObjectRemove ob.pager = .ok ((s.set o ob₀).setBucket (vmObjectHash ob.pager)
      (((s.set o ob₀).vmObjectHashtable (vmObjectHash ob.pager)).erase o)) := by
    rw [vmObjectRemove, removeEntry_eq (o := o)]
    · rfl
    · intro x hx
      obtain ⟨obx, p, hobx, hp, -⟩ := h.entries _ x hx
      by_cases hxo : x = o
      · subst hxo
        exact ⟨ob₀, ho₀, by simp [ob₀]⟩
      · refine ⟨obx, (set_of_ne hxo).trans hobx, fun heq => ?_, fun heq => absurd heq hxo⟩
        exact h.pagers x obx o ob p hobx ho hp (heq ▸ hp)
  rw [deallocateLoop]
  simp only [get_eq ho, bind, Except.bind, pure, Except.pure]
  rw [if_neg (not_not.mpr hone), if_neg hgo, hremove]
  exact congrArg (deallocateLoop fuel · ob.shadow) hstate

/-! ## Eviction -/

theorem Ok.evict (h : s.Ok ext) {rest : List ℕ} (hlist : s.vmObjectCachedList = o :: rest) :
    ∃ s₁ ob₁, (∀ deallocate, ObjectCache.evict deallocate s = deallocate s₁ (some o)) ∧
      s₁.Ok (addRef ext (some o)) ∧ s₁.table o = some ob₁ ∧ ob₁.refCount - 1 = 0 ∧ ob₁.canPersist = false ∧
      Shrinks s s₁ := by
  obtain ⟨ob, ho, hzero⟩ := (h.cached o).mp (hlist ▸ mem_cons_self)
  have hmem := h.persist o ob ho (h.idle o ob ho hzero)
  have hrev := h.revived ho
  have hfound : s.vmObjectLookup ob.pager = .ok (some o, s.revived o ob) := by
    rcases h.lookup ob.pager with ⟨x, obx, hx, hpager, -, hrun⟩ | ⟨-, hnone⟩
    · obtain ⟨oby, p, hy, hp, -⟩ := h.entries _ o hmem
      cases ho.symm.trans hy
      cases h.pagers x obx o ob p hx ho (hpager.trans hp) hp
      cases ho.symm.trans hx
      exact hrun
    · exact absurd rfl (hnone o ob ho hmem)
  have hself : (s.revived o ob).table o = some { ob with refCount := ob.refCount + 1 } := revived_self
  refine ⟨(s.revived o ob).set o { ob with refCount := ob.refCount + 1, canPersist := false },
    { ob with refCount := ob.refCount + 1, canPersist := false }, ?_, ?_, set_self, ?_, rfl, ?_⟩
  · intro deallocate
    rw [ObjectCache.evict, hlist]
    simp only [get_eq ho, bind, Except.bind, hfound, if_true, cacheObject, get_eq hself]
  · refine hrev.set hself rfl rfl rfl (fun _ _ => rfl) (fun hf => by cases hf) ?_ .rfl
    intro heq
    change ob.refCount + 1 = 0 at heq
    omega
  · change ob.refCount + 1 - 1 = 0
    omega
  · refine Shrinks.trans ?_ (shrinks_set hself)
    refine ⟨?_, ?_, (revived_liveNum ho).le, ?_, .inl ?_⟩
    · rw [ObjectCache.revived, if_pos hzero]
      rfl
    · rw [ObjectCache.revived, if_pos hzero]
      rfl
    · intro x hx
      have hne : x ≠ o := by
        rintro rfl
        cases ho.symm.trans hx
      rw [ObjectCache.revived, if_pos hzero, set_of_ne hne, hx]
    · rw [ObjectCache.revived, if_pos hzero]
      change s.vmObjectCached - 1 ≤ s.vmObjectCached
      omega

/-! ## Deallocation -/

/-- `n` objects are enough for the loop to end. -/
def Deallocates (n : ℕ) : Prop :=
  ∀ fuel s object ext, liveNum s ≤ n → 3 * n + 2 ≤ fuel → Ok s (addRef ext object) →
    ∃ s', deallocateLoop fuel s object = .ok s' ∧ s'.Ok ext ∧ Shrinks s s'

def Trims (n : ℕ) : Prop :=
  ∀ fuel s ext, liveNum s ≤ n → 3 * n + 1 ≤ fuel → Ok s ext →
    ∃ s', trimLoop fuel s = .ok s' ∧ s'.Ok ext ∧ Shrinks s s' ∧ s'.vmObjectCached ≤ s.vmCacheMax

theorem Deallocates.evict (hn : Deallocates n) (h : s.Ok ext) (hlist : s.vmObjectCachedList ≠ [])
    (hlive : s.liveNum ≤ n + 1) (hfuel : 3 * n + 3 ≤ fuel) :
    ∃ s', ObjectCache.evict (deallocateLoop fuel) s = .ok s' ∧ s'.Ok ext ∧ Shrinks s s' ∧
      s'.liveNum + 1 ≤ s.liveNum := by
  obtain ⟨o, rest, hlist⟩ := exists_cons_of_ne_nil hlist
  obtain ⟨s₁, ob₁, hrun₁, hok₁, ho₁, hone₁, hpers₁, hshr₁⟩ := h.evict hlist
  have hgo : ¬ (ob₁.canPersist = true ∧ 0 < ob₁.residentPageCount) := by simp [hpers₁]
  obtain ⟨s₂, hok₂, hshr₂, hlive₂, hrun₂⟩ := hok₁.finalize ho₁ hone₁ hgo
  obtain ⟨fuel, rfl⟩ : ∃ k, fuel = k + 1 := ⟨fuel - 1, by omega⟩
  have hle₁ := hshr₁.live
  obtain ⟨s', hrun, hok, hshr⟩ := hn fuel s₂ ob₁.shadow ext (by omega) (by omega) hok₂
  have hle := hshr.live
  refine ⟨s', ?_, hok, (hshr₁.trans hshr₂).trans hshr, by omega⟩
  rw [hrun₁, hrun₂, hrun]

theorem Ok.live_of_cached (h : s.Ok ext) (hlist : s.vmObjectCachedList ≠ []) : 0 < s.liveNum := by
  obtain ⟨o, rest, hlist⟩ := exists_cons_of_ne_nil hlist
  obtain ⟨ob, ho, -⟩ := (h.cached o).mp (hlist ▸ mem_cons_self)
  exact liveNum_pos (h.bounded o ob ho) ho

theorem Ok.cached_ne_nil (h : s.Ok ext) (hmany : (s.vmCacheMax : ℤ) < s.vmObjectCached) :
    s.vmObjectCachedList ≠ [] := by
  intro hnil
  rw [h.num, hnil] at hmany
  simp only [length_nil] at hmany
  omega

theorem trimLoop_done (hfew : ¬ (s.vmCacheMax : ℤ) < s.vmObjectCached) : trimLoop (fuel + 1) s = .ok s := by
  rw [trimLoop, if_neg hfew]
  rfl

theorem trims_zero : Trims 0 := by
  intro fuel s ext hlive hfuel h
  obtain ⟨fuel, rfl⟩ : ∃ k, fuel = k + 1 := ⟨fuel - 1, by omega⟩
  have hfew : ¬ (s.vmCacheMax : ℤ) < s.vmObjectCached := by
    intro hmany
    have hpos := h.live_of_cached (h.cached_ne_nil hmany)
    omega
  exact ⟨s, trimLoop_done hfew, h, .refl s, not_lt.mp hfew⟩

theorem Trims.succ (ht : Trims n) (hn : Deallocates n) : Trims (n + 1) := by
  intro fuel s ext hlive hfuel h
  obtain ⟨fuel, rfl⟩ : ∃ k, fuel = k + 1 := ⟨fuel - 1, by omega⟩
  by_cases hmany : (s.vmCacheMax : ℤ) < s.vmObjectCached
  · obtain ⟨s₁, hrun₁, hok₁, hshr₁, hlive₁⟩ := hn.evict h (h.cached_ne_nil hmany) hlive
      (show 3 * n + 3 ≤ fuel by omega)
    obtain ⟨s', hrun, hok, hshr, hroom⟩ := ht fuel s₁ ext (by omega) (by omega) hok₁
    refine ⟨s', ?_, hok, hshr₁.trans hshr, hshr₁.vmCacheMax ▸ hroom⟩
    rw [trimLoop, if_pos hmany]
    simp only [bind, Except.bind, hrun₁, hrun]
  · exact ⟨s, trimLoop_done hmany, h, .refl s, not_lt.mp hmany⟩

theorem deallocateLoop_none (fuel : ℕ) (s : ObjectCache) : deallocateLoop fuel s none = .ok s := by
  cases fuel <;> rw [deallocateLoop]

theorem deallocates_zero : Deallocates 0 := by
  intro fuel s object ext hlive hfuel h
  cases object with
  | none =>
    rw [addRef_none] at h
    exact ⟨s, deallocateLoop_none fuel s, h, .refl s⟩
  | some o =>
    obtain ⟨ob, ho⟩ := h.held o (by rw [addRef_self]; omega)
    have hpos := liveNum_pos (h.bounded o ob ho) ho
    omega

theorem Deallocates.succ (hn : Deallocates n) (ht : Trims (n + 1)) : Deallocates (n + 1) := by
  intro fuel s object ext hlive hfuel h
  obtain ⟨fuel, rfl⟩ : ∃ k, fuel = k + 1 := ⟨fuel - 1, by omega⟩
  cases object with
  | none =>
    rw [addRef_none] at h
    exact ⟨s, deallocateLoop_none _ s, h, .refl s⟩
  | some o =>
    obtain ⟨ob, ho⟩ := h.held o (by rw [addRef_self]; omega)
    by_cases hone : ob.refCount - 1 = 0
    · by_cases hstay : ob.canPersist = true ∧ 0 < ob.residentPageCount
      · -- the object goes on the list, which may be too long now
        have hlisted := h.listed ho hone hstay.1
        have hlive' : (s.listed o ob).liveNum = s.liveNum := liveNum_set ho
        obtain ⟨s', hrun, hok, hshr, hroom⟩ := ht fuel (s.listed o ob) ext (hlive'.le.trans hlive) (by omega) hlisted
        refine ⟨s', ?_, hok, hshr.next, hshr.vmCacheMax, hshr.live.trans hlive'.le, ?_, .inr hroom⟩
        · rw [deallocateLoop]
          simp only [get_eq ho, bind, Except.bind]
          rw [if_neg (not_not.mpr hone), if_pos hstay]
          exact hrun
        · intro x hx
          exact hshr.dead x ((shrinks_set ho).dead x hx)
      · obtain ⟨s₁, hok₁, hshr₁, hlive₁, hrun₁⟩ := h.finalize ho hone hstay
        obtain ⟨s', hrun, hok, hshr⟩ := hn fuel s₁ ob.shadow ext (by omega) (by omega) hok₁
        exact ⟨s', (hrun₁ fuel).trans hrun, hok, hshr₁.trans hshr⟩
    · refine ⟨_, ?_, h.released ho hone, shrinks_set ho⟩
      rw [deallocateLoop]
      simp only [get_eq ho, bind, Except.bind, pure, Except.pure]
      rw [if_pos hone]

theorem loops_end (n : ℕ) : Deallocates n ∧ Trims n := by
  induction n with
  | zero => exact ⟨deallocates_zero, trims_zero⟩
  | succ n ih =>
    have htrim := ih.2.succ ih.1
    exact ⟨ih.1.succ htrim, htrim⟩

theorem liveNum_le (s : ObjectCache) : s.liveNum ≤ s.next := referrers_le

theorem Ok.deallocate {object : Option ℕ} (h : s.Ok (addRef ext object)) :
    ∃ s', s.vmObjectDeallocate object = .ok s' ∧ s'.Ok ext ∧ Shrinks s s' :=
  (loops_end s.next).1 s.turns s object ext s.liveNum_le le_rfl h

theorem Ok.cacheTrim (h : s.Ok ext) :
    ∃ s', s.vmObjectCacheTrim = .ok s' ∧ s'.Ok ext ∧ Shrinks s s' := by
  obtain ⟨s', hrun, hok, hshr, -⟩ := (loops_end s.next).2 s.turns s ext s.liveNum_le
    (by rw [turns]; omega) h
  exact ⟨s', hrun, hok, hshr⟩

theorem Ok.evictOne (h : s.Ok ext) (hlist : s.vmObjectCachedList ≠ []) :
    ∃ s', ObjectCache.evict vmObjectDeallocate s = .ok s' ∧ s'.Ok ext ∧ Shrinks s s' ∧ s'.liveNum + 1 ≤ s.liveNum := by
  obtain ⟨o, rest, hlist'⟩ := exists_cons_of_ne_nil hlist
  obtain ⟨s₁, -, hrun₁, -, -, -, -, hshr₁⟩ := h.evict hlist'
  have hpos := h.live_of_cached hlist
  obtain ⟨s', hrun, hok⟩ := (loops_end (s.next - 1)).1.evict h hlist
    (by have := s.liveNum_le; omega)
    (show 3 * (s.next - 1) + 3 ≤ s.turns by have := s.liveNum_le; rw [turns]; omega)
  refine ⟨s', ?_, hok⟩
  rw [hrun₁] at hrun ⊢
  rw [vmObjectDeallocate, turns, hshr₁.next]
  exact hrun

theorem Ok.clearLoop (h : s.Ok ext) (hfuel : s.liveNum + 1 ≤ fuel) :
    ∃ s', ObjectCache.clearLoop fuel s = .ok s' ∧ s'.Ok ext ∧ Shrinks s s' := by
  induction fuel generalizing s with
  | zero => omega
  | succ fuel ih =>
    by_cases hlist : s.vmObjectCachedList = []
    · refine ⟨s, ?_, h, .refl s⟩
      rw [ObjectCache.clearLoop, if_pos hlist]
      rfl
    · obtain ⟨s₁, hrun₁, hok₁, hshr₁, hlive₁⟩ := h.evictOne hlist
      obtain ⟨s', hrun, hok, hshr⟩ := ih hok₁ (by omega)
      refine ⟨s', ?_, hok, hshr₁.trans hshr⟩
      rw [ObjectCache.clearLoop, if_neg hlist]
      simp only [bind, Except.bind, hrun₁, hrun]

theorem Ok.cacheSteal (h : s.Ok ext) (num : ℕ) :
    ∃ r s', s.vmObjectCacheSteal num = .ok (r, s') ∧ s'.Ok ext ∧ Shrinks s s' := by
  induction num generalizing s with
  | zero => exact ⟨0, s, rfl, h, .refl s⟩
  | succ num ih =>
    by_cases hlist : s.vmObjectCachedList = []
    · refine ⟨0, s, ?_, h, .refl s⟩
      rw [vmObjectCacheSteal, if_pos hlist]
    · obtain ⟨s₁, hrun₁, hok₁, hshr₁, -⟩ := h.evictOne hlist
      obtain ⟨r, s', hrun, hok, hshr⟩ := ih hok₁
      refine ⟨r + 1, s', ?_, hok, hshr₁.trans hshr⟩
      rw [vmObjectCacheSteal, if_neg hlist]
      simp only [bind, Except.bind, hrun₁, hrun, pure, Except.pure]

end ObjectCache

end Darwin.Vm
