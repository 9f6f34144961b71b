import Darwin.Lib.Run
import Darwin.Vm.ObjectCacheLoops

/-! # Runs of the object cache

Every event that clients may cause keeps the cache well formed, and none stops the kernel.
-/
namespace Darwin.Vm
open Darwin.Lib Function List

variable {s s' s'' : ObjectCache} {ext held : ℕ → ℕ} {o x t p : ℕ} {ob : CacheObject}

namespace ObjectCache

/-- What every event keeps. -/
structure Retains (s s' : ObjectCache) : Prop where
  vmCacheMax : s'.vmCacheMax = s.vmCacheMax
  dead : ∀ o < s.next, s.table o = none → s'.table o = none
  room : s'.vmObjectCached ≤ s.vmObjectCached ∨ s'.vmObjectCached ≤ s.vmCacheMax

theorem Shrinks.retains (h : Shrinks s s') : Retains s s' := ⟨h.vmCacheMax, fun o _ => h.dead o, h.room⟩

theorem Retains.trans_shrinks (h : Retains s s') (hs : Shrinks s' s'') : Retains s s'' := by
  refine ⟨hs.vmCacheMax.trans h.vmCacheMax, fun o hlt ho => hs.dead o (h.dead o hlt ho), ?_⟩
  rcases hs.room with hroom | hroom
  · exact h.room.imp hroom.trans hroom.trans
  · rw [h.vmCacheMax] at hroom
    exact .inr hroom

theorem retains_set {t : CacheObject} (ho : s.table o = some ob) : Retains s (s.set o t) :=
  (shrinks_set ho).retains

/-! ## Allocation -/

theorem Ok.next_free (h : s.Ok ext) : s.table s.next = none := by
  cases hn : s.table s.next with
  | none => rfl
  | some ob => exact absurd (h.bounded _ _ hn) (lt_irrefl _)

theorem Ok.allocate (h : s.Ok ext) : s.vmObjectAllocate.Ok (addRef ext (some s.next)) := by
  have hself : s.vmObjectAllocate.table s.next = some ⟨1, none, none, false, 0⟩ := set_self
  have hother : ∀ x, x ≠ s.next → s.vmObjectAllocate.table x = s.table x := fun x hx => set_of_ne hx
  have hne : ∀ x obx, s.table x = some obx → x ≠ s.next := by
    rintro x obx hx rfl
    cases h.next_free.symm.trans hx
  have hcases : ∀ x obx, s.vmObjectAllocate.table x = some obx →
      (x = s.next ∧ obx = ⟨1, none, none, false, 0⟩) ∨ (x ≠ s.next ∧ s.table x = some obx) := by
    intro x obx hx
    by_cases hxn : x = s.next
    · subst hxn
      exact .inl ⟨rfl, Option.some.inj (hx.symm.trans hself)⟩
    · exact .inr ⟨hxn, (hother x hxn).symm.trans hx⟩
  have hshadows : ∀ x, s.vmObjectAllocate.shadowers x = s.shadowers x := by
    intro x
    have hlast : s.vmObjectAllocate.shadowOf s.next = none := shadowOf_eq hself
    change referrers _ (s.next + 1) x = _
    rw [referrers_succ, hlast, if_neg (by simp), Nat.add_zero]
    refine referrers_congr (fun y hy => ?_)
    rw [shadowOf, shadowOf, hother y hy.ne]
  have hnone : s.shadowers s.next = 0 := by
    refine referrers_eq_zero (fun y _ hy => ?_)
    cases hoby : s.table y with
    | none =>
      rw [shadowOf, hoby] at hy
      cases hy
    | some oby =>
      rw [shadowOf_eq hoby] at hy
      obtain ⟨obt, hobt⟩ := h.shadow y oby s.next hoby hy
      cases h.next_free.symm.trans hobt
  have hext : ext s.next = 0 := by
    by_contra hpos
    obtain ⟨obx, hx⟩ := h.held s.next hpos
    cases h.next_free.symm.trans hx
  refine ⟨?_, ?_, ?_, ?_, ?_, h.cachedNodup, h.num, ?_, h.entriesNodup, ?_, ?_, ?_⟩
  · intro x obx hx
    change x < s.next + 1
    rcases hcases x obx hx with ⟨rfl, -⟩ | ⟨-, hx⟩
    · omega
    · exact (h.bounded x obx hx).trans (Nat.lt_succ_self _)
  · intro x obx hx
    rw [hshadows]
    rcases hcases x obx hx with ⟨rfl, rfl⟩ | ⟨hxn, hx⟩
    · rw [hnone, addRef_self, hext]
      rfl
    · rw [addRef_of_ne (fun heq => hxn (Option.some.inj heq).symm)]
      exact h.refs x obx hx
  · intro x hx
    by_cases hxn : x = s.next
    · rw [hxn]
      exact ⟨_, hself⟩
    · rw [addRef_of_ne (fun heq => hxn (Option.some.inj heq).symm)] at hx
      obtain ⟨obx, hobx⟩ := h.held x hx
      exact ⟨obx, (hother x hxn).trans hobx⟩
  · intro x obx t hx ht
    rcases hcases x obx hx with ⟨-, rfl⟩ | ⟨-, hx⟩
    · cases ht
    · obtain ⟨obt, hobt⟩ := h.shadow x obx t hx ht
      exact ⟨obt, (hother t (hne t obt hobt)).trans hobt⟩
  · intro x
    change x ∈ s.vmObjectCachedList ↔ _
    rw [h.cached x]
    constructor
    · rintro ⟨obx, hx, hzero⟩
      exact ⟨obx, (hother x (hne x obx hx)).trans hx, hzero⟩
    · rintro ⟨obx, hx, hzero⟩
      rcases hcases x obx hx with ⟨-, rfl⟩ | ⟨-, hx⟩
      · cases hzero
      · exact ⟨obx, hx, hzero⟩
  · intro b x hx
    obtain ⟨obx, q, hobx, hq⟩ := h.entries b x hx
    exact ⟨obx, q, (hother x (hne x obx hobx)).trans hobx, hq⟩
  · intro x obx y oby q hx hy hpx hpy
    rcases hcases x obx hx with ⟨-, rfl⟩ | ⟨-, hx⟩
    · cases hpx
    rcases hcases y oby hy with ⟨-, rfl⟩ | ⟨-, hy⟩
    · cases hpy
    exact h.pagers x obx y oby q hx hy hpx hpy
  · intro x obx hx hpers
    rcases hcases x obx hx with ⟨-, rfl⟩ | ⟨-, hx⟩
    · cases hpers
    · exact h.persist x obx hx hpers
  · intro x obx hx hzero
    rcases hcases x obx hx with ⟨-, rfl⟩ | ⟨-, hx⟩
    · cases hzero
    · exact h.idle x obx hx hzero

theorem retains_allocate (s : ObjectCache) : Retains s s.vmObjectAllocate :=
  ⟨rfl, fun _ hlt ho => (set_of_ne hlt.ne).trans ho, .inl le_rfl⟩

/-! ## Pagers and shadows -/

theorem Ok.unpaged (h : s.Ok ext) (ho : s.table o = some ob) (hpager : ob.pager = none) :
    (∀ b, o ∉ s.vmObjectHashtable b) ∧ ob.canPersist = false := by
  have hout : ∀ b, o ∉ s.vmObjectHashtable b := by
    intro b hmem
    obtain ⟨obx, q, hobx, hq, -⟩ := h.entries b o hmem
    cases ho.symm.trans hobx
    cases hpager.symm.trans hq
  refine ⟨hout, ?_⟩
  cases hpers : ob.canPersist with
  | false => rfl
  | true => exact absurd (h.persist o ob ho hpers) (hout _)

theorem Ok.setpager (h : s.Ok ext) (ho : s.table o = some ob) (hpager : ob.pager = none)
    (hnew : CacheSystem.NewPager s p) : (s.set o { ob with pager := some p }).Ok ext := by
  obtain ⟨hout, hpers⟩ := h.unpaged ho hpager
  have hshadows : ∀ x, (s.set o { ob with pager := some p }).shadowers x = s.shadowers x := by
    intro x
    exact congrArg (referrers · s.next x) (shadowOf_set ho rfl)
  refine ⟨?_, ?_, ?_, ?_, ?_, h.cachedNodup, h.num, ?_, h.entriesNodup, ?_, ?_, ?_⟩
  · intro x obx hx
    rcases set_cases hx with ⟨rfl, -⟩ | ⟨-, hx⟩
    · exact h.bounded x ob ho
    · exact h.bounded x obx hx
  · intro x obx hx
    rw [hshadows]
    rcases set_cases hx with ⟨rfl, rfl⟩ | ⟨-, hx⟩
    · exact h.refs x ob ho
    · exact h.refs x obx hx
  · intro x hx
    obtain ⟨obx, hobx⟩ := h.held x hx
    exact set_live hobx
  · intro x obx t hx ht
    obtain ⟨obt, hobt⟩ : ∃ obt, s.table t = some obt := by
      rcases set_cases hx with ⟨rfl, rfl⟩ | ⟨-, hx⟩
      · exact h.shadow x ob t ho ht
      · exact h.shadow x obx t hx ht
    exact set_live hobt
  · intro x
    change x ∈ s.vmObjectCachedList ↔ _
    rw [h.cached x]
    by_cases hxo : x = o
    · subst hxo
      rw [set_self, ho]
      simp
    · rw [set_of_ne hxo]
  · intro b x hx
    obtain ⟨obx, q, hobx, hq⟩ := h.entries b x hx
    refine ⟨obx, q, (set_of_ne ?_).trans hobx, hq⟩
    rintro rfl
    exact hout b hx
  · intro x obx y oby q hx hy hpx hpy
    rcases set_cases hx with ⟨rfl, rfl⟩ | ⟨-, hx'⟩
    · rcases set_cases hy with ⟨rfl, rfl⟩ | ⟨-, hy'⟩
      · rfl
      · exact absurd (hpy.trans hpx.symm) (hnew y oby hy')
    · rcases set_cases hy with ⟨rfl, rfl⟩ | ⟨-, hy'⟩
      · exact absurd (hpx.trans hpy.symm) (hnew x obx hx')
      · exact h.pagers x obx y oby q hx' hy' hpx hpy
  · intro x obx hx hpers'
    rcases set_cases hx with ⟨rfl, rfl⟩ | ⟨-, hx⟩
    · cases hpers.symm.trans hpers'
    · exact h.persist x obx hx hpers'
  · intro x obx hx hzero
    rcases set_cases hx with ⟨rfl, rfl⟩ | ⟨-, hx⟩
    · exact h.idle x ob ho hzero
    · exact h.idle x obx hx hzero

theorem Ok.reference (h : s.Ok ext) (ho : s.table o = some ob) (hext : ext o ≠ 0) :
    s.vmObjectReference (some o) = .ok (s.set o { ob with refCount := ob.refCount + 1 }) ∧
      (s.set o { ob with refCount := ob.refCount + 1 }).Ok (addRef ext (some o)) := by
  have hrefs := h.refs o ob ho
  have hnot : ¬ ob.refCount + 1 = 0 := by omega
  constructor
  · rw [vmObjectReference, get_eq ho]
    rfl
  · refine h.set ho rfl rfl ?_ (fun x hx => addRef_of_ne (fun heq => hx (Option.some.inj heq).symm))
      (h.persist o ob ho) (fun hzero => absurd hzero hnot) ⟨fun hzero => absurd hzero hnot, ?_⟩
    · rw [addRef_self]
      push_cast
      omega
    · intro hzero
      omega

theorem Ok.enter (h : s.Ok ext) (ho : s.table o = some ob) (hpager : ob.pager = some p)
    (hout : o ∉ s.vmObjectHashtable (vmObjectHash (some p))) :
    (((s.set o { ob with canPersist := true }).setBucket (vmObjectHash (some p))
      (s.vmObjectHashtable (vmObjectHash (some p)) ++ [o])).Ok ext) := by
  let s₁ : ObjectCache := s.setBucket (vmObjectHash (some p)) (s.vmObjectHashtable (vmObjectHash (some p)) ++ [o])
  have hbucket : ∀ b x, x ∈ s₁.vmObjectHashtable b →
      x ∈ s.vmObjectHashtable b ∨ (x = o ∧ b = vmObjectHash (some p)) := by
    intro b x hx
    change x ∈ update s.vmObjectHashtable _ _ b at hx
    by_cases hb : b = vmObjectHash (some p)
    · subst hb
      rw [update_self] at hx
      rcases mem_append.mp hx with hx | hx
      · exact .inl hx
      · exact .inr ⟨mem_singleton.mp hx, rfl⟩
    · rw [update_of_ne hb] at hx
      exact .inl hx
  have hmore : ∀ b x, x ∈ s.vmObjectHashtable b → x ∈ s₁.vmObjectHashtable b := by
    intro b x hx
    change x ∈ update s.vmObjectHashtable _ _ b
    by_cases hb : b = vmObjectHash (some p)
    · subst hb
      rw [update_self]
      exact mem_append_left _ hx
    · rw [update_of_ne hb]
      exact hx
  have hself : o ∈ s₁.vmObjectHashtable (vmObjectHash (some p)) := by
    change o ∈ update s.vmObjectHashtable _ _ _
    rw [update_self]
    exact mem_append_right _ (mem_singleton_self o)
  have hok : s₁.Ok ext := by
    refine ⟨h.bounded, h.refs, h.held, h.shadow, h.cached, h.cachedNodup, h.num, ?_, ?_, h.pagers, ?_, h.idle⟩
    · intro b x hx
      rcases hbucket b x hx with hx | ⟨rfl, rfl⟩
      · exact h.entries b x hx
      · exact ⟨ob, p, ho, hpager, rfl⟩
    · intro b
      change (update s.vmObjectHashtable _ _ b).Nodup
      by_cases hb : b = vmObjectHash (some p)
      · subst hb
        rw [update_self]
        refine nodup_append.mpr ⟨h.entriesNodup _, nodup_singleton o, ?_⟩
        intro x hx y hy heq
        exact hout (mem_singleton.mp hy ▸ heq ▸ hx)
      · rw [update_of_ne hb]
        exact h.entriesNodup b
    · exact fun x obx hx hpers => hmore _ x (h.persist x obx hx hpers)
  refine hok.set (ho : _ = some ob) rfl rfl rfl (fun _ _ => rfl) (fun _ => ?_) (fun _ => rfl) .rfl
  rw [hpager]
  exact hself

theorem Ok.shadowed (h : s.Ok (addRef ext (some t))) (ho : s.table o = some ob) (hnone : ob.shadow = none) :
    (s.set o { ob with shadow := some t }).Ok ext := by
  obtain ⟨obt, hobt⟩ := h.held t (by rw [addRef_self]; omega)
  have hcases : ∀ x obx, (s.set o { ob with shadow := some t }).table x = some obx →
      ∃ obx', s.table x = some obx' ∧ obx = { obx' with shadow := obx.shadow } ∧
        (obx.shadow = obx'.shadow ∨ obx.shadow = some t) := by
    intro x obx hx
    rcases set_cases hx with ⟨rfl, rfl⟩ | ⟨-, hx⟩
    · exact ⟨ob, ho, rfl, .inr rfl⟩
    · exact ⟨obx, hx, rfl, .inl rfl⟩
  have hlive : ∀ x obx, s.table x = some obx → ∃ sh, (s.set o { ob with shadow := some t }).table x =
      some { obx with shadow := sh } := by
    intro x obx hx
    by_cases hxo : x = o
    · subst hxo
      cases ho.symm.trans hx
      exact ⟨some t, set_self⟩
    · exact ⟨obx.shadow, (set_of_ne hxo).trans hx⟩
  have hshadows : ∀ x, (s.set o { ob with shadow := some t }).shadowers x =
      s.shadowers x + if some t = some x then 1 else 0 := by
    intro x
    have hupdate := referrers_update (f := s.shadowOf) (a := x) (some t) (h.bounded o ob ho)
    rw [shadowOf_eq ho, hnone, if_neg (by simp), Nat.add_zero] at hupdate
    have hfun : (s.set o { ob with shadow := some t }).shadowOf = update s.shadowOf o (some t) := by
      funext y
      by_cases hyo : y = o
      · subst hyo
        rw [update_self, shadowOf_eq set_self]
      · rw [update_of_ne hyo, shadowOf, set_of_ne hyo, shadowOf]
    rw [shadowers, hfun]
    exact hupdate
  refine ⟨?_, ?_, ?_, ?_, ?_, h.cachedNodup, h.num, ?_, h.entriesNodup, ?_, ?_, ?_⟩
  · intro x obx hx
    obtain ⟨obx', hx', -⟩ := hcases x obx hx
    exact h.bounded x obx' hx'
  · intro x obx hx
    obtain ⟨obx', hx', heq, -⟩ := hcases x obx hx
    have hrefs := h.refs x obx' hx'
    rw [heq, hshadows]
    rw [addRef] at hrefs
    push_cast at hrefs ⊢
    omega
  · intro x hx
    obtain ⟨obx, hobx⟩ := h.held x (by rw [addRef]; omega)
    obtain ⟨sh, hsh⟩ := hlive x obx hobx
    exact ⟨_, hsh⟩
  · intro x obx u hx hu
    obtain ⟨obx', hx', -, hsh⟩ := hcases x obx hx
    obtain ⟨obu, hobu⟩ : ∃ obu, s.table u = some obu := by
      rcases hsh with hsh | hsh
      · exact h.shadow x obx' u hx' (hsh.symm.trans hu)
      · cases hsh.symm.trans hu
        exact ⟨obt, hobt⟩
    obtain ⟨sh, hobu'⟩ := hlive u obu hobu
    exact ⟨_, hobu'⟩
  · intro x
    change x ∈ s.vmObjectCachedList ↔ _
    rw [h.cached x]
    constructor
    · rintro ⟨obx, hx, hzero⟩
      obtain ⟨sh, hsh⟩ := hlive x obx hx
      exact ⟨_, hsh, hzero⟩
    · rintro ⟨obx, hx, hzero⟩
      obtain ⟨obx', hx', heq, -⟩ := hcases x obx hx
      rw [heq] at hzero
      exact ⟨obx', hx', hzero⟩
  · intro b x hx
    obtain ⟨obx, q, hobx, hq⟩ := h.entries b x hx
    obtain ⟨sh, hsh⟩ := hlive x obx hobx
    exact ⟨_, q, hsh, hq⟩
  · intro x obx y oby q hx hy hpx hpy
    obtain ⟨obx', hx', heqx, -⟩ := hcases x obx hx
    obtain ⟨oby', hy', heqy, -⟩ := hcases y oby hy
    rw [heqx] at hpx
    rw [heqy] at hpy
    exact h.pagers x obx' y oby' q hx' hy' hpx hpy
  · intro x obx hx hpers
    obtain ⟨obx', hx', heq, -⟩ := hcases x obx hx
    rw [heq] at hpers ⊢
    exact h.persist x obx' hx' hpers
  · intro x obx hx hzero
    obtain ⟨obx', hx', heq, -⟩ := hcases x obx hx
    rw [heq] at hzero ⊢
    exact h.idle x obx' hx' hzero

end ObjectCache

/-! ## Events -/

namespace CacheSystem
open ObjectCache

variable {s s' : CacheSystem} {e : CacheEvent} {es : List CacheEvent} {vmCacheMax : ℕ}

theorem gain_eq : gain held o = addRef held (some o) := by
  funext x
  by_cases hx : x = o
  · rw [hx, gain, update_self, addRef_self]
  · rw [gain, update_of_ne hx, addRef_of_ne (fun heq => hx (Option.some.inj heq).symm)]

theorem addRef_lose (ho : held o ≠ 0) : addRef (lose held o) (some o) = held := by
  funext x
  by_cases hx : x = o
  · rw [hx, addRef_self, lose, update_self]
    omega
  · rw [addRef_of_ne (fun heq => hx (Option.some.inj heq).symm), lose, update_of_ne hx]

/-- What clients hold counts, and the list is not too long. -/
structure Ok (s : CacheSystem) : Prop where
  cache : s.cache.Ok s.held
  room : s.cache.vmObjectCached ≤ s.cache.vmCacheMax

theorem Ok.next (h : s.Ok) {cache : ObjectCache} {held : ℕ → ℕ} (hc : cache.Ok held) (hk : Retains s.cache cache) :
    Ok ⟨cache, held⟩ := by
  refine ⟨hc, ?_⟩
  change cache.vmObjectCached ≤ cache.vmCacheMax
  have hroom := h.room
  rw [hk.vmCacheMax]
  rcases hk.room with hle | hle
  · exact hle.trans hroom
  · exact hle

theorem init_ok (vmCacheMax : ℕ) : (init vmCacheMax).Ok := by
  refine ⟨⟨?_, ?_, ?_, ?_, ?_, nodup_nil, rfl, ?_, fun _ => nodup_nil, ?_, ?_, ?_⟩, ?_⟩
  · rintro o ob ⟨⟩
  · rintro o ob ⟨⟩
  · exact fun o ho => absurd rfl ho
  · rintro o ob t ⟨⟩
  · refine fun o => ⟨fun ho => absurd ho not_mem_nil, ?_⟩
    rintro ⟨ob, ⟨⟩, -⟩
  · exact fun b o ho => absurd ho not_mem_nil
  · rintro o ob o' ob' p ⟨⟩
  · rintro o ob ⟨⟩
  · rintro o ob ⟨⟩
  · exact Int.natCast_nonneg vmCacheMax

theorem Ok.lookupStep (h : s.Ok) (pager : Option ℕ) :
    ∃ s', s.step (.lookup pager) = .ok s' ∧ s'.Ok ∧ Retains s.cache s'.cache := by
  rcases h.cache.lookup pager with ⟨o, ob, ho, -, -, hrun⟩ | ⟨hrun, -⟩
  · have hkeeps : Retains s.cache (s.cache.revived o ob) := by
      rw [revived]
      split_ifs
      · refine ⟨rfl, (retains_set (t := { ob with refCount := ob.refCount + 1 }) ho).dead, .inl ?_⟩
        change s.cache.vmObjectCached - 1 ≤ s.cache.vmObjectCached
        omega
      · exact retains_set ho
    refine ⟨⟨s.cache.revived o ob, gain s.held o⟩, ?_, h.next ?_ hkeeps, hkeeps⟩
    · rw [step, hrun]
      rfl
    · rw [gain_eq]
      exact h.cache.revived ho
  · refine ⟨s, ?_, h, (Shrinks.refl s.cache).retains⟩
    rw [step, hrun]
    rfl

theorem Ok.enterStep (h : s.Ok) (ho : s.cache.table o = some ob) (hpager : ob.pager = none)
    (hnew : NewPager s.cache p) : ∃ s', s.step (.enter o p) = .ok s' ∧ s'.Ok ∧ Retains s.cache s'.cache := by
  have hset := h.cache.setpager ho hpager hnew
  have hself : (s.cache.set o { ob with pager := some p }).table o = some { ob with pager := some p } := set_self
  have hent := hset.enter hself rfl ((h.cache.unpaged ho hpager).1 _)
  have hkeeps : Retains s.cache ((s.cache.set o { ob with pager := some p }).set o
      { ob with pager := some p, canPersist := true }) := (shrinks_set ho).retains.trans_shrinks (shrinks_set hself)
  refine ⟨⟨_, s.held⟩, ?_, h.next hent ⟨hkeeps.vmCacheMax, hkeeps.dead, hkeeps.room⟩,
    ⟨hkeeps.vmCacheMax, hkeeps.dead, hkeeps.room⟩⟩
  rw [step, vmObjectSetpager, get_eq ho]
  simp only [bind, Except.bind, pure, Except.pure, vmObjectEnter, get_eq hself]
  rfl

theorem Ok.deallocateStep (h : s.Ok) (ho : s.held o ≠ 0) :
    ∃ s', s.step (.deallocate o) = .ok s' ∧ s'.Ok ∧ Retains s.cache s'.cache := by
  have hcache := h.cache
  rw [← addRef_lose ho] at hcache
  obtain ⟨cache, hrun, hok, hshr⟩ := hcache.deallocate
  refine ⟨⟨cache, lose s.held o⟩, ?_, h.next hok hshr.retains, hshr.retains⟩
  rw [step, hrun]
  rfl

theorem Ok.cacheObjectStep (h : s.Ok) (ho : s.held o ≠ 0) {shouldCache : Bool}
    (hent : shouldCache = true → Entered s.cache o) :
    ∃ s', s.step (.cacheObject o shouldCache) = .ok s' ∧ s'.Ok ∧ Retains s.cache s'.cache := by
  obtain ⟨ob, hob⟩ := h.cache.held o ho
  have hset : (s.cache.set o { ob with canPersist := shouldCache }).Ok s.held := by
    refine h.cache.set hob rfl rfl rfl (fun _ _ => rfl) (fun hpers => ?_) (fun hzero => ?_) .rfl
    · obtain ⟨ob', hob', hmem⟩ := hent hpers
      cases hob.symm.trans hob'
      exact hmem
    · have hrefs := h.cache.refs o ob hob
      change ob.refCount = 0 at hzero
      omega
  have hkeeps : Retains s.cache (s.cache.set o { ob with canPersist := shouldCache }) := retains_set hob
  rw [← addRef_lose ho] at hset
  obtain ⟨cache, hrun, hok, hshr⟩ := hset.deallocate
  refine ⟨⟨cache, lose s.held o⟩, ?_, h.next hok (hkeeps.trans_shrinks hshr), hkeeps.trans_shrinks hshr⟩
  rw [step, vmObjectCacheObject, ObjectCache.cacheObject, get_eq hob]
  simp only [bind, Except.bind, hrun]
  rfl

theorem Ok.step (h : s.Ok) (ha : Allowed s e) :
    ∃ s', s.step e = .ok s' ∧ s'.Ok ∧ Retains s.cache s'.cache := by
  cases e with
  | allocate =>
    refine ⟨_, rfl, h.next ?_ (retains_allocate s.cache), retains_allocate s.cache⟩
    rw [gain_eq]
    exact h.cache.allocate
  | shadow o t =>
    obtain ⟨-, ht, ob, ho, hnone⟩ := ha
    have hcache := h.cache
    rw [← addRef_lose ht] at hcache
    refine ⟨⟨_, lose s.held t⟩, ?_, h.next (hcache.shadowed ho hnone) (retains_set ho), retains_set ho⟩
    rw [CacheSystem.step, get_eq ho]
    rfl
  | enter o p =>
    obtain ⟨-, hnew, ob, ho, hpager⟩ := ha
    exact h.enterStep ho hpager hnew
  | setpager o p =>
    obtain ⟨-, hnew, ob, ho, hpager⟩ := ha
    refine ⟨⟨_, s.held⟩, ?_, h.next (h.cache.setpager ho hpager hnew) (retains_set ho), retains_set ho⟩
    rw [CacheSystem.step, vmObjectSetpager, get_eq ho]
    rfl
  | pages o count =>
    obtain ⟨ob, ho⟩ := Option.ne_none_iff_exists'.mp ha
    have hset : (s.cache.set o { ob with residentPageCount := count }).Ok s.held :=
      h.cache.set ho rfl rfl rfl (fun _ _ => rfl) (h.cache.persist o ob ho) (h.cache.idle o ob ho) .rfl
    refine ⟨⟨_, s.held⟩, ?_, h.next hset (retains_set ho), retains_set ho⟩
    rw [CacheSystem.step, get_eq ho]
    rfl
  | lookup pager => exact h.lookupStep pager
  | reference o =>
    obtain ⟨ob, hob⟩ := h.cache.held o ha
    obtain ⟨hrun, hok⟩ := h.cache.reference hob ha
    refine ⟨⟨_, gain s.held o⟩, ?_, h.next (gain_eq ▸ hok) (retains_set hob), retains_set hob⟩
    rw [CacheSystem.step, hrun]
    rfl
  | deallocate o => exact h.deallocateStep ha
  | cacheObject o shouldCache => exact h.cacheObjectStep ha.1 ha.2
  | trim =>
    obtain ⟨cache, hrun, hok, hshr⟩ := h.cache.cacheTrim
    refine ⟨⟨cache, s.held⟩, ?_, h.next hok hshr.retains, hshr.retains⟩
    rw [CacheSystem.step, hrun]
    rfl
  | steal num =>
    obtain ⟨r, cache, hrun, hok, hshr⟩ := h.cache.cacheSteal num
    refine ⟨⟨cache, s.held⟩, ?_, h.next hok hshr.retains, hshr.retains⟩
    rw [CacheSystem.step, hrun]
    rfl
  | clear =>
    obtain ⟨cache, hrun, hok, hshr⟩ := h.cache.clearLoop (Nat.succ_le_succ s.cache.liveNum_le)
    refine ⟨⟨cache, s.held⟩, ?_, h.next hok hshr.retains, hshr.retains⟩
    rw [CacheSystem.step, vmObjectCacheClear, hrun]
    rfl

/-- The events that clients cause, and what they lead to. -/
abbrev Runs : CacheSystem → List CacheEvent → CacheSystem → Prop :=
  RunUnder Allowed (fun s e s' => s.step e = .ok s')

theorem Runs.ok (hr : Runs (init vmCacheMax) es s) : s.Ok ∧ s.cache.vmCacheMax = vmCacheMax := by
  refine RunUnder.invariant (I := fun s => s.Ok ∧ s.cache.vmCacheMax = vmCacheMax) ?_ hr ⟨init_ok vmCacheMax, rfl⟩
  rintro s e s' ⟨h, hmax⟩ ha hstep
  obtain ⟨s'', hstep', hok, hret⟩ := h.step ha
  cases hstep.symm.trans hstep'
  exact ⟨hok, hret.vmCacheMax.trans hmax⟩

/-- The list holds the objects without references, each can be looked up, and there are not too many;
lookups find live objects only, nothing that clients do stops the kernel, and what is gone stays gone. -/
theorem cache_accounted (hr : Runs (init vmCacheMax) es s) :
    (∀ o, o ∈ s.cache.vmObjectCachedList ↔ ∃ ob, s.cache.table o = some ob ∧ ob.refCount = 0) ∧
      s.cache.vmObjectCachedList.Nodup ∧ (∀ o ∈ s.cache.vmObjectCachedList, Entered s.cache o) ∧
      s.cache.vmObjectCached = s.cache.vmObjectCachedList.length ∧ s.cache.vmObjectCached ≤ vmCacheMax ∧
      (∀ pager o cache, s.cache.vmObjectLookup pager = .ok (some o, cache) →
        ∃ ob, s.cache.table o = some ob ∧ ob.pager = pager) ∧
      ∀ e, Allowed s e → ∃ s', s.step e = .ok s' ∧
        ∀ o < s.cache.next, s.cache.table o = none → s'.cache.table o = none := by
  obtain ⟨h, hmax⟩ := hr.ok
  refine ⟨h.cache.cached, h.cache.cachedNodup, ?_, h.cache.num, hmax ▸ h.room, ?_, ?_⟩
  · intro o hmem
    obtain ⟨ob, ho, hzero⟩ := (h.cache.cached o).mp hmem
    exact ⟨ob, ho, h.cache.persist o ob ho (h.cache.idle o ob ho hzero)⟩
  · intro pager o cache hrun
    rcases h.cache.lookup pager with ⟨x, ob, hx, hpager, -, hfound⟩ | ⟨hnone, -⟩
    · cases hfound.symm.trans hrun
      exact ⟨ob, hx, hpager⟩
    · cases hnone.symm.trans hrun
  · intro e ha
    obtain ⟨s', hstep, -, hret⟩ := h.step ha
    exact ⟨s', hstep, hret.dead⟩

theorem cache_accounted_listed : ∃ s, Runs (init 1) [.allocate, .enter 0 7, .pages 0 3, .deallocate 0] s ∧
    s.cache.vmObjectCachedList = [0] ∧ s.cache.vmObjectCached ≤ 1 := by
  have h₁ : Runs (init 1) [.allocate] ⟨(init 1).cache.vmObjectAllocate, gain (init 1).held 0⟩ :=
    .snoc (.nil (init 1)) ⟨trivial, rfl⟩
  have hnew : NewPager (init 1).cache.vmObjectAllocate 7 := by
    intro o ob ho
    rcases set_cases ho with ⟨-, rfl⟩ | ⟨-, ho⟩
    · simp
    · cases ho
  have h₂ : Runs (init 1) [.allocate, .enter 0 7] _ := .snoc h₁ ⟨⟨by decide, hnew, _, rfl, rfl⟩, rfl⟩
  have h₃ : Runs (init 1) [.allocate, .enter 0 7, .pages 0 3] _ := .snoc h₂ ⟨Option.some_ne_none _, rfl⟩
  have h₄ : Runs (init 1) [.allocate, .enter 0 7, .pages 0 3, .deallocate 0] _ := .snoc h₃ ⟨Nat.one_ne_zero, rfl⟩
  exact ⟨_, h₄, rfl, (cache_accounted h₄).2.2.2.2.1⟩

end CacheSystem

end Darwin.Vm
