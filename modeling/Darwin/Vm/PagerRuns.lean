import Darwin.Lib.Run
import Darwin.Vm.PagerDealloc

/-! # Runs of the default pager

Pager files are added, and pagers come, write and read pages, and go.
-/
namespace Darwin.Vm
open Darwin.Lib Function

/-- The paging space, and the slot that each page of each pager was last given. -/
structure PagingSystem where
  space : PagingSpace
  assigned : ℕ → ℕ → Option PfEntry

/-- `swapon` is `vnode_pager_file_init`. A pager is created at an address that was not in use. -/
inductive PagingEvent where
  | swapon (hiwat : UInt32) (memory : ℕ → Bool)
  | create (vs pf size : ℕ) (kget : KgetSite → Bool)
  | bmap (vs fOffset : ℕ) (flag : BmapFlag) (kget : KgetSite → Bool)
  | dealloc (vs : ℕ)

variable {s s' : PagingSpace} {v : Vstruct} {vs pf fOffset size : ℕ} {e : PfEntry} {kget : KgetSite → Bool}
  {hiwat : UInt32} {memory : ℕ → Bool}

namespace PagingSpace

/-- `pagerfile_lookup` on a pager. -/
def lookup (s : PagingSpace) (vs fOffset : ℕ) : Except PagerStop (Option PfEntry) := do
  pagerfileLookup (← s.getVstruct vs) fOffset

/-- When a write comes to look for a page, the preferred file has a free one. -/
def PrefersFree (s : PagingSpace) (vs fOffset : ℕ) (kget : KgetSite → Bool) : Prop :=
  ∀ s₁ v f, bmapPrepare kget s vs fOffset .write = .ok (.place, s₁) → s₁.vstruct vs = some v →
    s₁.pagerFile v.vsPf = some f → f.pfPfree ≠ 0

theorem Ok.lookup_eq (h : s.Ok) (hv : s.vstruct vs = some v) : s.lookup vs fOffset = .ok (s.slot (vs, atop fOffset)) := by
  rw [PagingSpace.lookup, getVstruct_eq hv]
  exact h.lookup hv fOffset

/-! ## New files and pagers -/

theorem Ok.fileInit (hiwat : UInt32) (memory : ℕ → Bool) (h : s.Ok) (hroom : s.pagerFileCount + 1 < maxPagerFiles) :
    ∃ s', vnodePagerFileInit s hiwat memory = .ok s' ∧ s'.Ok ∧ s'.vstruct = s.vstruct ∧
      s'.pagerFileCount = s.pagerFileCount + 1 := by
  have hnew : s.pagerFile (s.pagerFileCount + 1) = none := by
    cases hf : s.pagerFile (s.pagerFileCount + 1) with
    | none => rfl
    | some f =>
      have hlive := (h.files.live (s.pagerFileCount + 1)).mp ⟨f, hf⟩
      omega
  have hsize : atop hiwat.toNat ≤ 2 ^ 20 := by
    have hlt : hiwat.toNat < 2 ^ 32 := hiwat.toBitVec.isLt
    rw [atop, pageSize]
    omega
  let npgs := atop hiwat.toNat
  let f : PagerFile := ⟨fun i => if i < npgs then false else memory i, npgs, npgs, -1, 0, 0⟩
  have hok : f.Ok := by
    refine ⟨hsize, ?_, fun p hp => absurd hp (Nat.not_lt_zero p)⟩
    have hall : ∀ p ∈ Finset.range npgs, (some ∘ f.pfBmap) p = some false := by
      intro p hp
      exact congrArg some (if_pos (Finset.mem_range.mp hp))
    change npgs = referrers (some ∘ f.pfBmap) npgs false
    rw [referrers, Finset.filter_true_of_mem hall, Finset.card_range]
  have hother : ∀ q, q ≠ s.pagerFileCount + 1 → update s.pagerFile (s.pagerFileCount + 1) (some f) q =
      s.pagerFile q := fun q hq => update_of_ne hq ..
  have hself : update s.pagerFile (s.pagerFileCount + 1) (some f) (s.pagerFileCount + 1) = some f :=
    update_self ..
  refine ⟨{ s with
      pagerFileCount := s.pagerFileCount + 1
      pagerFile := update s.pagerFile (s.pagerFileCount + 1) (some f) }, if_pos hroom,
    ⟨⟨hroom, ?_, ?_⟩, h.maps, ?_, ?_⟩, rfl, rfl⟩
  · intro q
    simp only
    by_cases hq : q = s.pagerFileCount + 1
    · rw [hq, hself]
      simp
    · rw [hother q hq, h.files.live]
      omega
  · intro q g hg
    by_cases hq : q = s.pagerFileCount + 1
    · cases hself.symm.trans (hq ▸ hg)
      exact hok
    · exact h.files.file q g ((hother q hq).symm.trans hg)
  · intro x w hw
    obtain ⟨g, hg⟩ := h.prefers x w hw
    refine ⟨g, (hother _ ?_).trans hg⟩
    intro heq
    cases hnew.symm.trans (heq ▸ hg)
  · refine h.owned.congr (fun _ => rfl) (fun w => ?_)
    by_cases hw : w.index = s.pagerFileCount + 1
    · constructor
      · rintro ⟨g, hg, hlt, hset⟩
        cases hself.symm.trans (hw ▸ hg)
        have hclear : f.pfBmap w.offset = false := if_pos hlt
        cases hclear.symm.trans hset
      · rintro ⟨g, hg, -⟩
        cases hnew.symm.trans (hw ▸ hg)
    · rw [Used, Used]
      simp only [hother w.index hw]

theorem new_map (pf size : ℕ) : ∃ ws, ws = (if indirPagemap size then
    List.replicate (indirPagemapEntries size) PmapWord.null else List.replicate size (.entry .null)) ∧
      (Vstruct.mk pf ws size).MapOk ∧ ∀ q, (Vstruct.mk pf ws size).slot q = none := by
  refine ⟨_, rfl, ?_⟩
  by_cases hind : indirPagemap size
  · rw [if_pos hind]
    refine ⟨⟨fun hnot => absurd hind hnot, fun _ => nullWords_ok size⟩, fun q => ?_⟩
    exact (if_pos hind).trans (blockSlot_replicate _ q)
  · rw [if_neg hind]
    refine ⟨⟨fun _ => ⟨List.length_replicate, fun w hw => ⟨_, List.eq_of_mem_replicate hw⟩⟩,
      fun hind' => absurd hind' hind⟩, fun q => ?_⟩
    have hslot := @directSlot_append [] q size
    rw [List.nil_append] at hslot
    exact (if_neg hind).trans hslot

theorem Ok.create (kget : KgetSite → Bool) (size : ℕ) (h : s.Ok) (hfresh : s.vstruct vs = none) (hpf : s.pagerFile pf ≠ none) :
    (pagerfilePagerCreate kget s vs pf size = .ok (false, s)) ∨
      ∃ s', pagerfilePagerCreate kget s vs pf size = .ok (true, s') ∧ s'.Ok ∧ (∀ q, s'.slot (vs, q) = none) ∧
        (∀ x ≠ vs, s'.vstruct x = s.vstruct x) := by
  obtain ⟨f, hf⟩ := Option.ne_none_iff_exists'.mp hpf
  obtain ⟨ws, hws, hmap, hslot⟩ := new_map pf (atop (roundPage size))
  rw [pagerfilePagerCreate]
  by_cases hvs : kget .vstruct
  · by_cases hmem : atop (roundPage size) ≠ 0 ∧ (!kget .map) = true
    · simp only [hvs, Bool.not_true, Bool.false_eq_true, if_false, if_pos hmem]
      exact .inl rfl
    · simp only [hvs, Bool.not_true, Bool.false_eq_true, if_false, if_neg hmem, ← hws, bind, Except.bind,
        getFile_eq hf, pure, Except.pure]
      obtain ⟨hfiles, hused⟩ := h.files.touch hf { f with pfCount := f.pfCount + 1 } rfl rfl rfl rfl
      have hnone : ∀ q, (((s.setFile pf { f with pfCount := f.pfCount + 1 }).setVstruct vs
          ⟨pf, ws, atop (roundPage size)⟩).slot (vs, q)) = none := by
        intro q
        rw [slot_eq setVstruct_self]
        exact hslot q
      refine .inr ⟨_, rfl, ⟨hfiles.of_vstruct rfl rfl, ?_, ?_, ?_⟩, hnone, fun x hx => setVstruct_of_ne hx⟩
      · intro x w hw
        by_cases hx : x = vs
        · subst hx
          cases setVstruct_self.symm.trans hw
          exact hmap
        · exact h.maps x w ((setVstruct_of_ne hx).symm.trans hw)
      · intro x w hw
        change ∃ g, (s.setFile pf { f with pfCount := f.pfCount + 1 }).pagerFile w.vsPf = some g
        rw [hfiles.live, setFile_count, ← h.files.live]
        by_cases hx : x = vs
        · subst hx
          cases setVstruct_self.symm.trans hw
          exact ⟨f, hf⟩
        · exact h.prefers x w ((setVstruct_of_ne hx).symm.trans hw)
      · refine h.owned.congr (fun k => ?_) (fun w => (used_of_file rfl).trans (hused w))
        obtain ⟨x, q⟩ := k
        by_cases hx : x = vs
        · subst hx
          rw [hnone, slot, hfresh]
          rfl
        · rw [slot, setVstruct_of_ne hx]
          rfl
  · simp only [hvs, Bool.not_false, if_true]
    exact .inl rfl

theorem Ok.write (kget : KgetSite → Bool) (fOffset : ℕ) (h : s.Ok) (hv : s.vstruct vs = some v) (hfree : s.PrefersFree vs fOffset kget) :
    (∃ s', pagerfileBmap kget s vs fOffset .write = .ok (.failure, none, s') ∧ Unchanged s s') ∨
    ∃ e s', pagerfileBmap kget s vs fOffset .write = .ok (.success, some e, s') ∧ s'.Ok ∧
      (∀ x, s'.vstruct x = none ↔ s.vstruct x = none) ∧ s'.slot (vs, atop fOffset) = some e ∧
      ∀ k ≠ (vs, atop fOffset), s'.slot k = s.slot k := by
  rw [pagerfileBmap]
  rcases h.prepare_write kget fOffset hv with ⟨s', hrun, hun⟩ | ⟨e, hrun, hslot⟩ |
    ⟨s₁, v₁, hrun, hready⟩
  · rw [hrun]
    exact .inl ⟨s', rfl, hun⟩
  · rw [hrun]
    exact .inr ⟨e, s, rfl, h, fun _ => .rfl, hslot, fun _ _ => rfl⟩
  · have hv₁ : s₁.vstruct vs = some v₁ := hready.vstruct ▸ update_self ..
    obtain ⟨f, hf⟩ := hready.prefers h hv
    obtain ⟨e, s₂, hsearch, hfound⟩ := hready.files.found v.vsPf s₁.pagerFileCount hf
      (hfree s₁ v₁ f hrun hv₁ (hready.prefer.symm ▸ hf))
    obtain ⟨s', hplace, hok, hlive, hself, hother⟩ := hready.getsPage h hv rfl hsearch hfound
    rw [hrun]
    exact .inr ⟨e, s', hplace, hok, hlive, hself, hother⟩

theorem Ok.write_returns (kget : KgetSite → Bool) (fOffset : ℕ) (h : s.Ok) (hv : s.vstruct vs = some v) :
    Returns (pagerfileBmap kget s vs fOffset .write) (fun r => r.2.2.Ok) := by
  rw [pagerfileBmap]
  rcases h.prepare_write kget fOffset hv with ⟨s', hrun, hun⟩ | ⟨e, hrun, -⟩ | ⟨s₁, v₁, hrun, hready⟩
  · rw [hrun]
    exact .pure (hun.ok h)
  · rw [hrun]
    exact .pure h
  · rw [hrun]
    intro r hr
    change bmapPlace s₁ vs fOffset = .ok r at hr
    have hv₁ : s₁.vstruct vs = some v₁ := hready.vstruct ▸ update_self ..
    have hplace := hr
    rw [bmapPlace, getVstruct_eq hv₁] at hr
    simp only [bind, Except.bind, hready.prefer] at hr
    cases hsearch : vnodePagerFindpage s₁ v.vsPf with
    | error stop =>
      rw [hsearch] at hr
      cases hr
    | ok found =>
      obtain ⟨result, e, s₂⟩ := found
      obtain ⟨hresult, hfound⟩ := hready.files.findpage_returns (s₁.pagerFileCount + 1) v.vsPf (Nat.le_refl _) _ hsearch
      obtain rfl : result = .success := hresult
      obtain ⟨s', hplaced, hok, -⟩ := hready.getsPage h hv rfl hsearch hfound
      cases hplace.symm.trans hplaced
      exact hok

theorem Ok.bmap_returns (kget : KgetSite → Bool) (vs fOffset : ℕ) (flag : BmapFlag) (h : s.Ok) :
    Returns (pagerfileBmap kget s vs fOffset flag) (fun r => r.2.2.Ok) := by
  cases hv : s.vstruct vs with
  | none =>
    rw [pagerfileBmap, bmapPrepare, getVstruct, hv]
    exact .error _
  | some v =>
    cases flag with
    | read =>
      rw [pagerfileBmap, h.prepare_read kget fOffset hv]
      cases s.slot (vs, atop fOffset) with
      | none => exact .pure h
      | some e => exact .pure h
    | write => exact h.write_returns kget fOffset hv

/-- A call that fails shows nothing new. -/
structure Same (s s' : PagingSpace) : Prop where
  pagerFile : s'.pagerFile = s.pagerFile
  lookup : ∀ vs fOffset, s'.lookup vs fOffset = s.lookup vs fOffset

theorem Unchanged.same (hun : Unchanged s s') (h : s.Ok) : Same s s' := by
  refine ⟨hun.pagerFile, fun vs fOffset => ?_⟩
  cases hv' : s'.vstruct vs with
  | none =>
    rw [PagingSpace.lookup, PagingSpace.lookup, getVstruct, getVstruct, hv', hun.live vs hv']
  | some v' =>
    obtain ⟨v, hv, -⟩ := hun.maps vs v' hv'
    rw [(hun.ok h).lookup_eq hv', h.lookup_eq hv, hun.slot]

end PagingSpace

/-! ## Events -/

namespace PagingSystem
open PagingSpace

variable {s s' : PagingSystem} {ev : PagingEvent} {evs : List PagingEvent}

def assign (assigned : ℕ → ℕ → Option PfEntry) (vs page : ℕ) (entry : Option PfEntry) : ℕ → ℕ → Option PfEntry :=
  update assigned vs (update (assigned vs) page entry)

/-- A new pager has no pages. -/
def forget (assigned : ℕ → ℕ → Option PfEntry) (vs : ℕ) : ℕ → ℕ → Option PfEntry :=
  update assigned vs (fun _ => none)

/-- The result of the call, and what follows it. -/
def step (s : PagingSystem) : PagingEvent → Except PagerStop (PagerReturn × PagingSystem)
  | .swapon hiwat memory => do
    return (.success, { s with space := ← vnodePagerFileInit s.space hiwat memory })
  | .create vs pf size kget => do
    match ← pagerfilePagerCreate kget s.space vs pf size with
    | (false, space) => return (.failure, { s with space := space })
    | (true, space) => return (.success, ⟨space, forget s.assigned vs⟩)
  | .bmap vs fOffset flag kget => do
    match ← pagerfileBmap kget s.space vs fOffset flag with
    | (.failure, _, space) => return (.failure, { s with space := space })
    | (.success, entry, space) => return (.success, ⟨space, assign s.assigned vs (atop fOffset) entry⟩)
  | .dealloc vs => do
    return (.success, ⟨← vnodeDealloc s.space vs, forget s.assigned vs⟩)

/-- There are not too many pager files. Pagers prefer an existing one, and are used while they exist. -/
def Allowed (s : PagingSystem) : PagingEvent → Prop
  | .swapon _ _ => s.space.pagerFileCount + 1 < maxPagerFiles
  | .create vs pf _ _ => s.space.vstruct vs = none ∧ s.space.pagerFile pf ≠ none
  | .bmap vs fOffset flag kget => s.space.vstruct vs ≠ none ∧ (flag = .write → s.space.PrefersFree vs fOffset kget)
  | .dealloc vs => s.space.vstruct vs ≠ none

def init : PagingSystem := ⟨⟨fun _ => none, 0, fun _ => none⟩, fun _ _ => none⟩

abbrev Runs : PagingSystem → List PagingEvent → PagingSystem → Prop :=
  RunUnder Allowed (fun s ev s' => ∃ r, s.step ev = .ok (r, s'))

/-- The maps show the slots that were assigned. -/
structure Ok (s : PagingSystem) : Prop where
  space : s.space.Ok
  assigned : ∀ vs page, s.space.vstruct vs ≠ none → s.space.slot (vs, page) = s.assigned vs page

theorem init_ok : init.Ok := by
  refine ⟨⟨⟨by decide, ?_, ?_⟩, ?_, ?_, ?_, ?_⟩, ?_⟩
  · intro pf
    constructor
    · rintro ⟨f, ⟨⟩⟩
    · rintro ⟨hlow, hhigh⟩
      exact absurd (hlow.trans hhigh) (by decide)
  · rintro pf f ⟨⟩
  · rintro vs v ⟨⟩
  · rintro vs v ⟨⟩
  · intro w
    constructor
    · rintro ⟨f, ⟨⟩, -⟩
    · rintro ⟨k, ⟨⟩⟩
  · rintro k k' w ⟨⟩
  · exact fun vs page hv => absurd rfl hv

theorem Ok.swaponStep (hiwat : UInt32) (memory : ℕ → Bool) (h : s.Ok) (hroom : s.space.pagerFileCount + 1 < maxPagerFiles) :
    ∃ s', s.step (.swapon hiwat memory) = .ok (.success, s') ∧ s'.Ok ∧
      s'.space.pagerFileCount = s.space.pagerFileCount + 1 := by
  obtain ⟨space, hrun, hok, hvs, hcount⟩ := h.space.fileInit hiwat memory hroom
  refine ⟨⟨space, s.assigned⟩, ?_, ⟨hok, ?_⟩, hcount⟩
  · rw [step, hrun]
    rfl
  · intro vs page hv
    rw [slot, hvs]
    exact h.assigned vs page (hvs ▸ hv)

theorem Ok.createStep (h : s.Ok) (hfresh : s.space.vstruct vs = none) (hpf : s.space.pagerFile pf ≠ none) :
    ∃ r s', s.step (.create vs pf size kget) = .ok (r, s') ∧ s'.Ok ∧ (r = .failure → Same s.space s'.space) := by
  rcases h.space.create kget size hfresh hpf with hrun | ⟨space, hrun, hok, hnone, hother⟩
  · refine ⟨.failure, s, ?_, h, fun _ => ⟨rfl, fun _ _ => rfl⟩⟩
    rw [step, hrun]
    rfl
  · refine ⟨.success, ⟨space, forget s.assigned vs⟩, ?_, ⟨hok, ?_⟩, fun hr => by cases hr⟩
    · rw [step, hrun]
      rfl
    · intro x page hx
      change space.slot (x, page) = update s.assigned vs (fun _ => none) x page
      by_cases hxv : x = vs
      · subst hxv
        rw [hnone, update_self]
      · rw [update_of_ne hxv, slot, hother x hxv]
        exact h.assigned x page (hother x hxv ▸ hx)

theorem Ok.readStep (h : s.Ok) (hv : s.space.vstruct vs ≠ none) :
    ∃ r s', s.step (.bmap vs fOffset .read kget) = .ok (r, s') ∧ s'.Ok ∧ (r = .failure → Same s.space s'.space) := by
  obtain ⟨v, hv'⟩ := Option.ne_none_iff_exists'.mp hv
  have hprepare := h.space.prepare_read kget fOffset hv'
  cases hs : s.space.slot (vs, atop fOffset) with
  | none =>
    refine ⟨.failure, s, ?_, h, fun _ => ⟨rfl, fun _ _ => rfl⟩⟩
    rw [step, pagerfileBmap, hprepare, hs]
    rfl
  | some e =>
    refine ⟨.success, ⟨s.space, assign s.assigned vs (atop fOffset) (some e)⟩, ?_, ⟨h.space, ?_⟩, fun hr => by cases hr⟩
    · rw [step, pagerfileBmap, hprepare, hs]
      rfl
    · intro x page hx
      have hassigned := h.assigned vs (atop fOffset) hv
      rw [assign, ← hs, hassigned, update_eq_self, update_eq_self]
      exact h.assigned x page hx

theorem Ok.writeStep (h : s.Ok) (hv : s.space.vstruct vs ≠ none) (hfree : s.space.PrefersFree vs fOffset kget) :
    ∃ r s', s.step (.bmap vs fOffset .write kget) = .ok (r, s') ∧ s'.Ok ∧ (r = .failure → Same s.space s'.space) := by
  obtain ⟨v, hv'⟩ := Option.ne_none_iff_exists'.mp hv
  rcases h.space.write kget fOffset hv' hfree with
    ⟨space, hrun, hun⟩ | ⟨e, space, hrun, hok, hlive, hself, hother⟩
  · refine ⟨.failure, ⟨space, s.assigned⟩, ?_, ⟨hun.ok h.space, ?_⟩, fun _ => hun.same h.space⟩
    · rw [step, hrun]
      rfl
    · intro x page hx
      rw [hun.slot]
      exact h.assigned x page (fun hnone => hx (by
        cases hx' : space.vstruct x with
        | none => rfl
        | some w =>
          obtain ⟨w', hw', -⟩ := hun.maps x w hx'
          cases hnone.symm.trans hw'))
  · refine ⟨.success, ⟨space, assign s.assigned vs (atop fOffset) (some e)⟩, ?_, ⟨hok, ?_⟩, fun hr => by cases hr⟩
    · rw [step, hrun]
      rfl
    · intro x page hx
      have hx' : s.space.vstruct x ≠ none := fun hnone => hx ((hlive x).mpr hnone)
      change space.slot (x, page) = update s.assigned vs _ x page
      by_cases hxv : x = vs
      · subst hxv
        rw [update_self]
        by_cases hp : page = atop fOffset
        · rw [hp, hself, update_self]
        · rw [hother _ (fun heq => hp (Prod.mk.inj heq).2), update_of_ne hp]
          exact h.assigned x page hx'
      · rw [hother _ (fun heq => hxv (Prod.mk.inj heq).1), update_of_ne hxv]
        exact h.assigned x page hx'

theorem Ok.deallocStep (h : s.Ok) (hv : s.space.vstruct vs ≠ none) :
    ∃ s', s.step (.dealloc vs) = .ok (.success, s') ∧ s'.Ok := by
  obtain ⟨v, hv'⟩ := Option.ne_none_iff_exists'.mp hv
  obtain ⟨space, hrun, hok, hvs⟩ := h.space.dealloc hv'
  refine ⟨⟨space, forget s.assigned vs⟩, ?_, ⟨hok, ?_⟩⟩
  · rw [step, hrun]
    rfl
  · intro x page hx
    change space.vstruct x ≠ none at hx
    change space.slot (x, page) = update s.assigned vs (fun _ => none) x page
    have hxv : x ≠ vs := by
      rintro rfl
      exact hx (hvs ▸ update_self ..)
    rw [hvs, update_of_ne hxv] at hx
    rw [slot, hvs, update_of_ne hxv, update_of_ne hxv]
    exact h.assigned x page hx

theorem Ok.step (h : s.Ok) (ha : Allowed s ev) :
    ∃ r s', s.step ev = .ok (r, s') ∧ s'.Ok ∧ (r = .failure → Same s.space s'.space) := by
  cases ev with
  | swapon hiwat memory =>
    obtain ⟨s', hrun, hok, -⟩ := h.swaponStep hiwat memory ha
    exact ⟨.success, s', hrun, hok, fun hr => by cases hr⟩
  | create vs pf size kget => exact h.createStep ha.1 ha.2
  | bmap vs fOffset flag kget =>
    cases flag with
    | read => exact h.readStep ha.1
    | write => exact h.writeStep ha.1 (ha.2 rfl)
  | dealloc vs =>
    obtain ⟨s', hrun, hok⟩ := h.deallocStep ha
    exact ⟨.success, s', hrun, hok, fun hr => by cases hr⟩

theorem Runs.ok (hr : Runs init evs s) : s.Ok := by
  refine RunUnder.invariant ?_ hr init_ok
  rintro s ev s' h ha ⟨r, hstep⟩
  obtain ⟨r', s'', hstep', hok, -⟩ := h.step ha
  cases hstep.symm.trans hstep'
  exact hok

/-- Every page in use belongs to one page of one pager, the counts and hints of the files are right, a
lookup shows what was assigned last, and a call that fails changes nothing of this. -/
theorem paging_space_owned (hr : Runs init evs s) :
    (∀ pf f p, s.space.pagerFile pf = some f → p < f.pfNpgs →
      (f.pfBmap p = true ↔ ∃! k : ℕ × ℕ, s.space.slot k = some ⟨pf, p⟩)) ∧
    (∀ pf f, s.space.pagerFile pf = some f → f.pfPfree = f.clearBits ∧ ∀ p < f.pfHint, f.pfBmap p = true) ∧
    (∀ vs fOffset, s.space.vstruct vs ≠ none → s.space.lookup vs fOffset = .ok (s.assigned vs (atop fOffset))) ∧
    ∀ ev, Allowed s ev → ∃ r s', s.step ev = .ok (r, s') ∧ (r = .failure → Same s.space s'.space) := by
  have h := hr.ok
  refine ⟨?_, ?_, ?_, ?_⟩
  · intro pf f p hf hp
    have hiff : f.pfBmap p = true ↔ s.space.Used ⟨pf, p⟩ := by
      constructor
      · exact fun hset => ⟨f, hf, hp, hset⟩
      · rintro ⟨g, hg, -, hset⟩
        cases hf.symm.trans hg
        exact hset
    rw [hiff, h.space.owned.used_iff]
    constructor
    · rintro ⟨k, hk⟩
      exact ⟨k, hk, fun k' hk' => h.space.owned.inj k' k _ hk' hk⟩
    · rintro ⟨k, hk, -⟩
      exact ⟨k, hk⟩
  · intro pf f hf
    have hok := h.space.files.file pf f hf
    exact ⟨hok.pfree, hok.hint⟩
  · intro vs fOffset hv
    obtain ⟨v, hv'⟩ := Option.ne_none_iff_exists'.mp hv
    rw [h.space.lookup_eq hv', h.assigned vs _ hv]
  · intro ev ha
    obtain ⟨r, s', hstep, -, hsame⟩ := h.step ha
    exact ⟨r, s', hstep, hsame⟩

/-- A pager writes its first page. -/
theorem paging_space_owned_written : ∃ s, Runs init [.swapon 8192 (fun _ => true), .create 5 1 4096 (fun _ => true),
    .bmap 5 0 .write (fun _ => true)] s ∧ s.space.lookup 5 0 = .ok (some ⟨1, 0⟩) := by
  have h₁ : Runs init [.swapon 8192 (fun _ => true)] _ := .snoc (.nil init) ⟨(by decide : 1 < 16), .success, rfl⟩
  have h₂ : Runs init [.swapon 8192 (fun _ => true), .create 5 1 4096 (fun _ => true)] _ :=
    .snoc h₁ ⟨⟨rfl, Option.some_ne_none _⟩, .success, rfl⟩
  have h₃ : Runs init [.swapon 8192 (fun _ => true), .create 5 1 4096 (fun _ => true),
      .bmap 5 0 .write (fun _ => true)] _ :=
    .snoc h₂ ⟨⟨Option.some_ne_none _, fun _ s₁ v f hrun hv hf => by
      cases hrun
      cases hv
      cases hf
      exact Nat.succ_ne_zero 1⟩, .success, rfl⟩
  exact ⟨_, h₃, (paging_space_owned h₃).2.2.1 5 0 (Option.some_ne_none _)⟩

theorem swapon_runs (n : ℕ) (hn : n < maxPagerFiles) (hiwat : UInt32) (memory : ℕ → Bool) :
    ∃ s, Runs init (List.replicate n (.swapon hiwat memory)) s ∧ s.space.pagerFileCount = n := by
  induction n with
  | zero => exact ⟨init, .nil init, rfl⟩
  | succ n ih =>
    obtain ⟨s, hr, hcount⟩ := ih (by omega)
    have hroom : s.space.pagerFileCount + 1 < maxPagerFiles := by omega
    obtain ⟨s', hstep, -, hcount'⟩ := hr.ok.swaponStep hiwat memory hroom
    refine ⟨s', ?_, hcount'.trans (congrArg Nat.succ hcount)⟩
    rw [List.replicate_succ']
    exact .snoc hr ⟨hroom, .success, hstep⟩

/-- The sixteenth pager file has no place in the array. -/
theorem sixteenth_file : ∃ s, Runs init (List.replicate 15 (.swapon 4096 (fun _ => false))) s ∧
    s.step (.swapon 4096 (fun _ => false)) = .error .overrun := by
  obtain ⟨s, hr, hcount⟩ := swapon_runs 15 (by decide) 4096 (fun _ => false)
  refine ⟨s, hr, ?_⟩
  rw [step, vnodePagerFileInit, hcount]
  rfl

end PagingSystem

end Darwin.Vm
