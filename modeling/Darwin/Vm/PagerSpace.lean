import Darwin.Lib.Ownership
import Darwin.Vm.PagerFiles
import Darwin.Vm.PagerMap

/-! # Paging space

Every page of a pager file that is in use belongs to one page of one pager.
-/
namespace Darwin.Vm
open Darwin.Lib Function

variable {s s' s₁ : PagingSpace} {v v' : Vstruct} {f : PagerFile} {vs pf page n fOffset size : ℕ} {e w : PfEntry}
  {es seen : List PfEntry} {ws : List PmapWord} {kget : KgetSite → Bool} {flag : BmapFlag}

namespace PagingSpace

/-- What the map of a pager has for a page. -/
def slot (s : PagingSpace) (k : ℕ × ℕ) : Option PfEntry := (s.vstruct k.1).bind (fun v => v.slot k.2)

structure Ok (s : PagingSpace) : Prop where
  files : s.FilesOk
  maps : ∀ vs v, s.vstruct vs = some v → v.MapOk
  prefers : ∀ vs v, s.vstruct vs = some v → ∃ f, s.pagerFile v.vsPf = some f
  owned : Owned s.slot s.Used

theorem slot_eq (h : s.vstruct vs = some v) : s.slot (vs, page) = v.slot page := by
  rw [slot, h]
  rfl

theorem getVstruct_eq (h : s.vstruct vs = some v) : s.getVstruct vs = .ok v := by
  rw [getVstruct, h]

@[simp] theorem setVstruct_self : (s.setVstruct vs v).vstruct vs = some v := update_self ..
theorem setVstruct_of_ne {x : ℕ} (h : x ≠ vs) : (s.setVstruct vs v).vstruct x = s.vstruct x :=
  update_of_ne h ..

theorem setVstruct_same (h : s.vstruct vs = some v) : s.setVstruct vs v = s := by
  rw [setVstruct, ← h, update_eq_self]

theorem Ok.used_of_slot (h : s.Ok) {k : ℕ × ℕ} (hs : s.slot k = some e) : s.Used e :=
  (h.owned.used_iff e).mpr ⟨k, hs⟩

theorem FilesOk.of_vstruct (h : s.FilesOk) (hfile : s'.pagerFile = s.pagerFile)
    (hcount : s'.pagerFileCount = s.pagerFileCount) : s'.FilesOk := by
  refine ⟨hcount ▸ h.count, ?_, ?_⟩
  · rw [hfile, hcount]
    exact h.live
  · rw [hfile]
    exact h.file

theorem used_of_file (hfile : s'.pagerFile = s.pagerFile) : s'.Used w ↔ s.Used w := by
  rw [Used, Used, hfile]

/-! ## Room for a page -/

/-- The space is ready for a page of its own: the map has room, and what was there is given up. -/
structure Ready (s : PagingSpace) (vs page : ℕ) (v : Vstruct) (s₁ : PagingSpace) (v₁ : Vstruct) : Prop where
  files : s₁.FilesOk
  count : s₁.pagerFileCount = s.pagerFileCount
  vstruct : s₁.vstruct = update s.vstruct vs (some v₁)
  prefer : v₁.vsPf = v.vsPf
  map : v₁.MapOk
  slot : ∀ q, v₁.slot q = v.slot q
  place : v₁.HasPlace page
  owned : Owned (fun k => if k = (vs, page) then none else s.slot k) s₁.Used

/-- A call that fails may leave a larger map behind, and nothing else. -/
structure Unchanged (s s' : PagingSpace) : Prop where
  pagerFile : s'.pagerFile = s.pagerFile
  count : s'.pagerFileCount = s.pagerFileCount
  maps : ∀ vs v', s'.vstruct vs = some v' → ∃ v, s.vstruct vs = some v ∧ v'.vsPf = v.vsPf ∧ v'.MapOk ∧
    ∀ q, v'.slot q = v.slot q
  live : ∀ vs, s'.vstruct vs = none → s.vstruct vs = none

theorem Unchanged.refl (h : s.Ok) : Unchanged s s :=
  ⟨rfl, rfl, fun vs v hv => ⟨v, hv, rfl, h.maps vs v hv, fun _ => rfl⟩, fun _ => id⟩

theorem Unchanged.slot (h : Unchanged s s') (k : ℕ × ℕ) : s'.slot k = s.slot k := by
  rw [PagingSpace.slot, PagingSpace.slot]
  cases hv' : s'.vstruct k.1 with
  | none =>
    rw [h.live k.1 hv']
  | some v' =>
    obtain ⟨v, hv, -, -, hslot⟩ := h.maps k.1 v' hv'
    rw [hv]
    exact hslot k.2

theorem Unchanged.ok (h : Unchanged s s') (hok : s.Ok) : s'.Ok := by
  refine ⟨hok.files.of_vstruct h.pagerFile h.count, ?_, ?_, ?_⟩
  · intro vs v' hv'
    obtain ⟨-, -, -, hmap, -⟩ := h.maps vs v' hv'
    exact hmap
  · intro vs v' hv'
    obtain ⟨v, hv, hpf, -⟩ := h.maps vs v' hv'
    rw [h.pagerFile, hpf]
    exact hok.prefers vs v hv
  · exact hok.owned.congr h.slot (fun w => used_of_file h.pagerFile)

theorem unchanged_set (h : s.Ok) (hv : s.vstruct vs = some v) (he : Expanded v n v') :
    Unchanged s (s.setVstruct vs v') := by
  refine ⟨rfl, rfl, ?_, ?_⟩
  · intro x w hw
    by_cases hx : x = vs
    · subst hx
      rw [setVstruct_self] at hw
      cases hw
      exact ⟨v, hv, he.vsPf, he.map, he.slot⟩
    · rw [setVstruct_of_ne hx] at hw
      exact ⟨w, hw, rfl, h.maps x w hw, fun _ => rfl⟩
  · intro x hx
    by_cases hxv : x = vs
    · subst hxv
      rw [setVstruct_self] at hx
      cases hx
    · rwa [setVstruct_of_ne hxv] at hx

theorem Vstruct.MapOk.refl_expanded (h : v.MapOk) : Expanded v v.vsSize v := ⟨rfl, rfl, h, fun _ => rfl⟩

theorem Expanded.trans {v'' : Vstruct} {m : ℕ} (h : Expanded v n v') (h' : Expanded v' m v'') : Expanded v m v'' :=
  ⟨h'.vsPf.trans h.vsPf, h'.vsSize, h'.map, fun q => (h'.slot q).trans (h.slot q)⟩

theorem Ok.room (kget : KgetSite → Bool) (page : ℕ) (h : s.Ok) (hv : s.vstruct vs = some v) :
    (∃ s', bmapRoom kget s vs page = .ok (false, s') ∧ Unchanged s s') ∨
      ∃ n v', bmapRoom kget s vs page = .ok (true, s.setVstruct vs v') ∧ Expanded v n v' ∧ v'.HasPlace page := by
  have hmap := h.maps vs v hv
  have hgrown : growMap kget v page = .ok none ∨
      ∃ n v', growMap kget v page = .ok (some v') ∧ Expanded v n v' ∧ page < n := by
    rw [growMap]
    split_ifs with hsize
    · rcases hmap.expand kget hsize with hnone | ⟨v', hrun, he⟩
      · exact .inl hnone
      · exact .inr ⟨page + 1, v', hrun, he, Nat.lt_succ_self page⟩
    · exact .inr ⟨v.vsSize, v, rfl, Vstruct.MapOk.refl_expanded hmap, by omega⟩
  rw [bmapRoom, getVstruct_eq hv]
  simp only [bind, Except.bind]
  rcases hgrown with hnone | ⟨n, v₁, hsome, he₁, hlt⟩
  · rw [hnone]
    exact .inl ⟨s, rfl, .refl h⟩
  · rw [hsome]
    rcases he₁.map.allocBlock kget (he₁.vsSize.symm ▸ hlt) with hnone | ⟨v₂, hrun₂, he₂, hplace⟩
    · simp only [hnone]
      exact .inl ⟨_, rfl, unchanged_set h hv he₁⟩
    · simp only [hrun₂]
      exact .inr ⟨_, v₂, rfl, Expanded.trans he₁ he₂, hplace⟩

theorem room_of_place (hv : s.vstruct vs = some v) (hp : v.HasPlace page) :
    bmapRoom kget s vs page = .ok (true, s) := by
  have hsize : ¬ v.vsSize < page + 1 := by
    have hlt := hp.1
    omega
  rw [bmapRoom, getVstruct_eq hv]
  simp only [bind, Except.bind, pure, Except.pure, growMap, if_neg hsize, allocBlock_place hp, setVstruct_same hv]

/-! ## Preparation -/

theorem Ok.lookup (h : s.Ok) (hv : s.vstruct vs = some v) (fOffset : ℕ) :
    pagerfileLookup v fOffset = .ok (s.slot (vs, atop fOffset)) := by
  rw [(h.maps vs v hv).lookup, slot_eq hv]

theorem Ok.index_good (h : s.Ok) {k : ℕ × ℕ} (hs : s.slot k = some e) :
    e.index ≠ 0 ∧ ¬ s.pagerFileCount < e.index := by
  obtain ⟨f, hf, -⟩ := h.used_of_slot hs
  have hlive := (h.files.live e.index).mp ⟨f, hf⟩
  omega

theorem Ok.prepare_read (kget : KgetSite → Bool) (fOffset : ℕ) (h : s.Ok) (hv : s.vstruct vs = some v) :
    bmapPrepare kget s vs fOffset .read = .ok (match s.slot (vs, atop fOffset) with
      | none => (.done .failure none, s)
      | some entry => (.done .success entry, s)) := by
  rw [bmapPrepare, getVstruct_eq hv]
  simp only [bind, Except.bind, h.lookup hv]
  cases hs : s.slot (vs, atop fOffset) with
  | none => simp [pure, Except.pure]
  | some e =>
    have hgood := (h.index_good hs).2
    simp [hgood, pure, Except.pure]

theorem Ok.prepare_write (kget : KgetSite → Bool) (fOffset : ℕ) (h : s.Ok) (hv : s.vstruct vs = some v) :
    (∃ s', bmapPrepare kget s vs fOffset .write = .ok (.done .failure none, s') ∧ Unchanged s s') ∨
    (∃ e, bmapPrepare kget s vs fOffset .write = .ok (.done .success (some e), s) ∧
      s.slot (vs, atop fOffset) = some e) ∨
    ∃ s₁ v₁, bmapPrepare kget s vs fOffset .write = .ok (.place, s₁) ∧ Ready s vs (atop fOffset) v s₁ v₁ := by
  rw [bmapPrepare, getVstruct_eq hv]
  simp only [bind, Except.bind, h.lookup hv]
  cases hs : s.slot (vs, atop fOffset) with
  | none =>
    simp only [Option.mem_def, reduceCtorEq, false_and, exists_false, if_false, bmapPrepare.makeRoom, bind, Except.bind]
    rcases h.room kget (atop fOffset) hv with ⟨s', hrun, hun⟩ | ⟨n, v', hrun, he, hplace⟩
    · rw [hrun]
      exact .inl ⟨s', rfl, hun⟩
    · rw [hrun]
      refine .inr (.inr ⟨_, v', rfl, h.files.of_vstruct rfl rfl, rfl, rfl, he.vsPf, he.map, he.slot, hplace, ?_⟩)
      refine h.owned.congr (fun k => ?_) (fun w => used_of_file rfl)
      split_ifs with hk
      · rw [hk, hs]
      · rfl
  | some e =>
    obtain ⟨hzero, hgood⟩ := h.index_good hs
    have hused := h.used_of_slot hs
    obtain ⟨f, hf, hlt, hset⟩ := h.used_of_slot hs
    simp only [Option.mem_def, Option.some.injEq, exists_eq_left', hgood, if_false, bmapRewrite, hzero, bind,
      Except.bind, h.files.pagerFileList_eq hf]
    by_cases hhint : f.pfHint < e.offset
    · obtain ⟨s₁, hrun₁, hfiles₁, hused₁, hvs₁, hcount₁⟩ := h.files.deallocpage hused
      have hv₁ : s₁.vstruct vs = some v := hvs₁ ▸ hv
      have hplace := (h.maps vs v hv).place_of_slot ((slot_eq hv).symm.trans hs)
      simp only [if_pos hhint, hrun₁, pure, Except.pure, bmapPrepare.makeRoom, bind, Except.bind,
        room_of_place hv₁ hplace]
      refine .inr (.inr ⟨s₁, v, rfl, hfiles₁, hcount₁, ?_, rfl, h.maps vs v hv, fun _ => rfl, hplace, ?_⟩)
      · rw [hvs₁, ← hv, update_eq_self]
      · exact h.owned.release hs (if_pos rfl) (fun k hk => if_neg hk) hused₁
    · simp only [if_neg hhint, pure, Except.pure]
      exact .inr (.inl ⟨e, rfl, rfl⟩)

theorem Ready.prefers {v₁ : Vstruct} (h : Ready s vs page v s₁ v₁) (hok : s.Ok) (hv : s.vstruct vs = some v) :
    ∃ f, s₁.pagerFile v.vsPf = some f := by
  rw [h.files.live, h.count, ← hok.files.live]
  exact hok.prefers vs v hv

theorem Ready.getsPage {v₁ : Vstruct} {s₂ : PagingSpace} (h : Ready s vs page v s₁ v₁) (hok : s.Ok)
    (hv : s.vstruct vs = some v) (hpage : atop fOffset = page)
    (hrun : vnodePagerFindpage s₁ v.vsPf = .ok (.success, e, s₂)) (hfound : Found s₁ e s₂) :
    ∃ s', bmapPlace s₁ vs fOffset = .ok (.success, some e, s') ∧ s'.Ok ∧
      (∀ x, s'.vstruct x = none ↔ s.vstruct x = none) ∧ s'.slot (vs, page) = some e ∧
      ∀ k ≠ (vs, page), s'.slot k = s.slot k := by
  have hv₁ : s₁.vstruct vs = some v₁ := h.vstruct ▸ update_self ..
  obtain ⟨hfiles, hnull, hfresh, hused, hvs, hcount⟩ := hfound
  obtain ⟨v₂, hput, hmap₂, hpf₂, hself, hother⟩ := h.map.putEntry h.place hnull
  have hslot_of_ne : ∀ k : ℕ × ℕ, k ≠ (vs, page) → (s₂.setVstruct vs v₂).slot k = s.slot k := by
    rintro ⟨x, q⟩ hk
    by_cases hx : x = vs
    · subst hx
      have hq : q ≠ page := fun heq => hk (heq ▸ rfl)
      rw [slot_eq setVstruct_self, hother q hq, h.slot q, slot_eq hv]
    · rw [PagingSpace.slot, setVstruct_of_ne hx, hvs, h.vstruct, update_of_ne hx, PagingSpace.slot]
  have hslot_self : (s₂.setVstruct vs v₂).slot (vs, page) = some e := by
    rw [slot_eq setVstruct_self, hself]
  refine ⟨s₂.setVstruct vs v₂, ?_, ⟨hfiles.of_vstruct rfl rfl, ?_, ?_, ?_⟩, ?_, hslot_self, hslot_of_ne⟩
  · rw [bmapPlace, getVstruct_eq hv₁]
    simp only [bind, Except.bind, h.prefer, hrun, hpage, hput]
    rfl
  · intro x w hw
    by_cases hx : x = vs
    · subst hx
      rw [setVstruct_self] at hw
      cases hw
      exact hmap₂
    · rw [setVstruct_of_ne hx, hvs, h.vstruct, update_of_ne hx] at hw
      exact hok.maps x w hw
  · intro x w hw
    change ∃ g, s₂.pagerFile w.vsPf = some g
    rw [hfiles.live, hcount, h.count, ← hok.files.live]
    by_cases hx : x = vs
    · subst hx
      rw [setVstruct_self] at hw
      cases hw
      rw [hpf₂, h.prefer]
      exact hok.prefers x v hv
    · rw [setVstruct_of_ne hx, hvs, h.vstruct, update_of_ne hx] at hw
      exact hok.prefers x w hw
  · refine h.owned.take hfresh (if_pos rfl) hslot_self ?_ hused
    intro k hk
    rw [hslot_of_ne k hk, if_neg hk]
  · intro x
    by_cases hx : x = vs
    · subst hx
      rw [setVstruct_self, hv]
      simp
    · rw [setVstruct_of_ne hx, hvs, h.vstruct, update_of_ne hx]

end PagingSpace

end Darwin.Vm
