import Darwin.Vm.MapAllocate

/-! # Moves

`vm_move` allocates a range, copies into it and gives it back when the copy has failed. Where
it fails, the source and the destination are as before, unless the copy has destroyed the
source.
-/
namespace Darwin.Vm
open Darwin.Lib List

variable {D : Type} {s s' u u' : Maps D} {g : Objects D} {m m₁ d d₁ : VmMap} {l l₁ p q : List ℕ}
  {id e x y a b start stop lo hi : ℕ} {rs ts : List VmMapEntry} {K : Prop}

/-! ## The way back -/

/-- The records of a map to which the range was added. What stands for an object there stands for it in
front of the range too. -/
structure Added (K : Prop) (kernelObject lo hi : ℕ) (rs : List VmMapEntry) : Prop where
  nonempty : ∀ r ∈ rs, r.vmeStart < r.vmeEnd
  quiet : ∀ r ∈ rs, r.vmeStart < hi → lo < r.vmeEnd → r.Plain ∧ (K → ∀ o, r.object = .object o →
    o ≠ kernelObject ∧ ∃ a < lo, ∃ t, viewOf rs a = some t ∧ t.object = .object o)

/-- The map with the records `rs` on the way back: of the range that was added some may be gone, and
nothing else. -/
structure Returning (K : Prop) (s : Maps D) (id lo hi : ℕ) (header : VmMapEntry) (rs : List VmMapEntry)
    (u : Maps D) : Prop where
  good : Good u
  kernelObject : u.kernelObject = s.kernelObject
  contents : K → SameContents s.objects u.objects
  map : ∃ c l, u.table id = some c ∧ MapOk c l ∧ c.entry 0 = header ∧ PiecesOf (l.map c.entry) rs ∧
    (∀ a, ¬ (lo ≤ a ∧ a < hi) → c.view a = viewOf rs a) ∧ (K → Counted u.objects (l.map c.entry))

namespace Returning
variable {header : VmMapEntry}

theorem refl (hg : Good s) (hm : s.table id = some m) (hok : MapOk m l)
    (hc : K → Counted s.objects (l.map m.entry)) :
    Returning K s id lo hi (m.entry 0) (l.map m.entry) s :=
  ⟨hg, rfl, fun _ => .refl _, m, l, hm, hok, rfl, .refl _, fun _ _ => hok.view_eq ▸ rfl, hc⟩

theorem hinted (h : Returning K s id lo hi header rs u) (hh : Hinted u u') :
    Returning K s id lo hi header rs u' := by
  obtain ⟨c, l, hc, hok, hheader, hpieces, hview, hcounted⟩ := h.map
  obtain ⟨x, hx, hc'⟩ := hh.get hc hok
  have hkernel : u'.kernelObject = u.kernelObject := by
    obtain ⟨hint, -, rfl⟩ := hh
    rfl
  refine ⟨hh.good h.good, hkernel.trans h.kernelObject, ?_, _, l, hc', hok.setHint hx, hheader, hpieces,
    hview, ?_⟩
  · rw [hh.objects]
    exact h.contents
  · rw [hh.objects]
    exact hcounted

theorem elsewhere {id' : ℕ} (h : Returning K s id lo hi header rs u) (hg : Good u')
    (hbut : SurvivesBut id' u u') (hid : id ≠ id') (hsome : (u'.table id).isSome)
    (hobjects : u'.objects = u.objects) : Returning K s id lo hi header rs u' := by
  obtain ⟨c, l, hc, hok, hheader, hpieces, hview, hcounted⟩ := h.map
  obtain ⟨c', hc'⟩ := Option.isSome_iff_exists.mp hsome
  obtain ⟨n, hn⟩ := hbut.table id c' hid hc'
  cases hc.symm.trans hn
  refine ⟨hg, hbut.kernelObject.trans h.kernelObject, ?_, c', l, hc', hok.setRefCount c'.refCount, hheader,
    hpieces, hview, ?_⟩
  · rw [hobjects]
    exact h.contents
  · rw [hobjects]
    exact hcounted

theorem delete (h : Returning K s id lo hi header rs u) (hadd : Added K s.kernelObject lo hi rs) (hxy : x < y)
    (hclear : ∀ a, x ≤ a → a < y → ¬ (lo ≤ a ∧ a < hi) → viewOf rs a = none)
    (hrun : vmMapDelete u id x y = .ok u') :
    Returning K s id lo hi header rs u' ∧ (∀ id', id' ≠ id → u.ShowsSame u' id') := by
  obtain ⟨c, l, hc, hok, hheader, hpieces, hview, hcounted⟩ := h.map
  obtain ⟨hothers, hrecounts⟩ := vmMapDelete_quiet (K := K) hc hok (fun _ t ht hty hxt => by
    obtain ⟨r, hr, hpiece⟩ := hpieces t ht
    have hs := hpiece.start
    have he := hpiece.stop
    have hin := hpiece.inside
    have hsize := hadd.nonempty r hr
    have hsame := hpiece.clipTo _ (Nat.le_refl _)
    have hmap := congrArg VmMapEntry.isAMap hsame
    have hsub := congrArg VmMapEntry.isSubMap hsame
    have hobject := congrArg VmMapEntry.object hsame
    -- what meets the deleted range shows something there, which was added
    have hcov : viewOf rs (max x t.vmeStart) ≠ none := by
      rw [Ne, viewOf_eq_none]
      exact fun hnone => hnone r hr (by omega)
    have hmem : lo ≤ max x t.vmeStart ∧ max x t.vmeStart < hi := by
      by_contra hout
      exact hcov (hclear _ (le_max_left _ _) (max_lt hxy hty) hout)
    obtain ⟨hplain, hshown⟩ := hadd.quiet r hr (by omega) (by omega)
    refine ⟨⟨hmap.trans hplain.1, hsub.trans hplain.2⟩, fun hK o ho => ?_⟩
    obtain ⟨hne, w, hw, v, hv, hvo⟩ := hshown hK o (hobject.symm.trans ho)
    rw [h.kernelObject]
    refine ⟨hne, w, ?_, v, (hview w (by omega)).trans hv, hvo⟩
    by_contra hxw
    rw [hclear w (by omega) (by omega) (by omega)] at hv
    cases hv) hrun
  obtain ⟨hg', hbut, c', l', hc', hdel⟩ := vmMapDelete_spec h.good hc hok hrun
  refine ⟨⟨hg', hbut.kernelObject.trans h.kernelObject, fun hK => ?_, c', l', hc', hdel.ok,
    hdel.header.trans hheader, hdel.pieces.trans hpieces, fun a ha => ?_, fun hK => ?_⟩,
    fun id' hid => hbut.showsSame hid (hothers id' hid)⟩
  · exact (h.contents hK).trans ((hrecounts hK hxy c' hc').objects (hcounted hK)).2
  · rw [hdel.ok.view_eq, hdel.view, ← hok.view_eq]
    split_ifs with hr
    · exact (hclear a hr.1 hr.2 ha).symm
    · exact hview a ha
  · rw [← hdel.ok.entries_eq]
    exact ((hrecounts hK hxy c' hc').objects (hcounted hK)).1

theorem copied {src len srcAddr : ℕ} {srcDestroy : Bool} {code : KernReturn} (hg : Good s)
    (hm : s.table src = some m₁) (hok : MapOk m₁ l) (hne : ∀ e ∈ l, (m₁.entry e).vmeStart < (m₁.entry e).vmeEnd)
    (hd : s.table id = some d₁) (hokd : MapOk d₁ l₁) (hadd : Added K s.kernelObject lo hi (l₁.map d₁.entry))
    (hc : K → Counted s.objects (l₁.map d₁.entry))
    (hclear : ¬ u32 (srcAddr + len) < srcAddr →
      ¬ CopyAllowed m₁ d₁ lo (u32 (lo + len)) srcAddr (u32 (srcAddr + len)) false → srcDestroy = true →
      srcAddr < u32 (srcAddr + len) ∧ ∀ a, srcAddr ≤ a → a < u32 (srcAddr + len) →
        (id = src → ¬ (lo ≤ a ∧ a < hi)) → m₁.view a = none)
    (h : vmMapCopy s id src lo len srcAddr false srcDestroy = .ok (code, s')) (hcode : code ≠ .success) :
    Returning K s id lo hi (d₁.entry 0) (l₁.map d₁.entry) s' ∧ ∀ id', id' ≠ id → s.ShowsSame s' id' := by
  have hstart : Returning K s id lo hi (d₁.entry 0) (l₁.map d₁.entry) s := .refl hg hd hokd hc
  rcases vmMapCopy_cases hg hm hd h with ⟨-, rfl, -⟩ | ⟨hwrap, hsuccess, hfail⟩
  · exact ⟨hstart, fun id' _ => (Hinted.refl hg).showsSame hg id'⟩
  obtain ⟨u, hh, hrun⟩ := hfail hcode
  split at hrun
  · rename_i hdestroy
    obtain ⟨hlt, hnone⟩ := hclear (fun hw => hwrap (.inr hw)) (fun hall => hcode (hsuccess.mpr hall)) hdestroy
    by_cases hid : id = src
    · subst hid
      cases hm.symm.trans hd
      obtain ⟨hback, hothers⟩ := (hstart.hinted hh).delete hadd hlt (fun a hlow hhigh hout => by
        rw [← hokd.view_eq]
        exact hnone a hlow hhigh fun _ => hout) hrun
      exact ⟨hback, fun id' hid' => (hh.showsSame hg id').trans (hothers id' hid')⟩
    · obtain ⟨x, hx, hmu⟩ := hh.get hm hok
      have hidle : ∀ a, srcAddr ≤ a → a < u32 (srcAddr + len) → m₁.view a = none :=
        fun a hlow hhigh => hnone a hlow hhigh fun heq => absurd heq hid
      have hsame := showsSame_of_delete (hh.good hg) hmu (hok.setHint hx) hne hidle hrun
      obtain ⟨hg', hbut, -⟩ := vmMapDelete_spec (hh.good hg) hmu (hok.setHint hx) hrun
      have hobjects := (vmMapDelete_idle hmu (hok.setHint hx) hne (fun a hlow hhigh hmapped => by
        refine mapped_iff_view.mp hmapped ?_
        rw [← hidle a hlow hhigh, hok.view_eq]) hrun).2 hlt
      obtain ⟨y, -, hdu⟩ := hh.get hd hokd
      obtain ⟨c, hc', -⟩ := hsame id _ hdu
      exact ⟨(hstart.hinted hh).elsewhere hg' hbut hid (by rw [hc']; rfl) hobjects,
        fun id' _ => (hh.showsSame hg id').trans (hsame id')⟩
  · cases hrun
    exact ⟨hstart.hinted hh, fun id' _ => hh.showsSame hg id'⟩

end Returning

/-! ## Moves -/

/-- The length of the region that `vm_move` moves. -/
def moveSize (srcAddr numBytes : ℕ) : ℕ :=
  u32Sub (roundPage (u32 (srcAddr + numBytes))) (truncPage srcAddr)

theorem moveSize_aligned (srcAddr numBytes : ℕ) : moveSize srcAddr numBytes % pageSize = 0 ∧
    moveSize srcAddr numBytes < 2 ^ 32 := by
  simp only [moveSize, u32Sub, roundPage, truncPage, u32, pageSize]
  omega

/-- There is room for the region, which cannot be read as a whole, is to be deallocated and is there. -/
def MoveDestroys (m d : VmMap) (src srcAddr dst numBytes : ℕ) (srcDealloc : Bool) : Prop :=
  numBytes ≠ 0 ∧ srcDealloc = true ∧ m.isMainMap = true ∧ d.isMainMap = true ∧
    ¬ u32 (truncPage srcAddr + moveSize srcAddr numBytes) < truncPage srcAddr ∧
    (∃ dstStart, d.HasRoom (moveSize srcAddr numBytes) dstStart ∧
      ¬ Allowed (if dst = src then newRange dstStart (dstStart + moveSize srcAddr numBytes) ::
          m.entries.map m.entry else m.entries.map m.entry) (truncPage srcAddr)
        (u32 (truncPage srcAddr + moveSize srcAddr numBytes)) vmProtRead) ∧
    ∃ a, truncPage srcAddr ≤ a ∧ a < u32 (truncPage srcAddr + moveSize srcAddr numBytes) ∧
      m.view a ≠ none

theorem VmMap.HasRoom.unique {length : ℕ} (h : d.HasRoom length start) (h' : d.HasRoom length stop) :
    start = stop := by
  obtain ⟨⟨e, he⟩, -⟩ := h
  obtain ⟨⟨e', he'⟩, -⟩ := h'
  cases he.symm.trans he'
  rfl

theorem copyAllowed_iff {src dst : ℕ} (hm : s.table src = some m) (hd : s.table dst = some d) (hok : MapOk d l)
    (hlt : lo < hi) (hfree : Free (l.map d.entry) lo hi)
    (hins : HasInserted s.objects g none 0 lo hi d d₁ l l₁)
    (hm₁ : ({ s with objects := g }.setMap dst d₁).table src = some m₁) :
    CopyAllowed m₁ d₁ lo hi a b false ↔ (m.isMainMap = true → d.isMainMap = true →
      Allowed (if dst = src then newRange lo hi :: m.entries.map m.entry else m.entries.map m.entry) a b
        vmProtRead) := by
  have hvalid : ∀ r ∈ l.map d.entry, r.vmeStart ≤ r.vmeEnd :=
    forall_mem_map.mpr fun e he => (hok.valid he).2.1
  have hallowed : d.isMainMap = true → ∀ {prot a b : ℕ}, Allowed (l₁.map d₁.entry) a b prot ↔
      Allowed (newRange lo hi :: l.map d.entry) a b prot := by
    intro hmain prot a b
    have hrecords := hins.records
    rw [hmain] at hrecords
    exact hrecords.allowed_iff hvalid hlt
  rw [CopyAllowed, hins.isMainMap, hins.ok.entries_eq]
  simp only [Bool.false_eq_true, if_false]
  by_cases hid : dst = src
  · subst hid
    cases hm.symm.trans hd
    cases Maps.setMap_self.symm.trans hm₁
    rw [if_pos rfl, hins.isMainMap, hins.ok.entries_eq, hok.entries_eq]
    constructor
    · exact fun h h₁ h₂ => (hallowed h₂).mp (h h₁ h₂).1
    · exact fun h h₁ h₂ => ⟨(hallowed h₂).mpr (h h₁ h₂), (hallowed h₂).mpr (allowed_newRange hfree hlt)⟩
  · have hsame : m₁ = m := by
      rw [Maps.setMap_of_ne (Ne.symm hid)] at hm₁
      exact Option.some.inj (hm₁.symm.trans hm)
    rw [if_neg hid, hsame]
    constructor
    · exact fun h h₁ h₂ => (h h₁ h₂).1
    · exact fun h h₁ h₂ => ⟨h h₁ h₂, (hallowed h₂).mpr (allowed_newRange hfree hlt)⟩

theorem vmDeallocate_view {size : ℕ} {code : KernReturn} (hg : Good s)
    (h : vmDeallocate s id start size = .ok (code, s')) {id' : ℕ} {m' : VmMap}
    (hm' : s'.table id' = some m') :
    ∃ m, s.table id' = some m ∧ ∀ a, m.view a = none → m'.view a = none := by
  rw [vmDeallocate] at h
  split at h
  · cases h
    exact ⟨m', hm', fun a ha => ha⟩
  obtain ⟨m, hm, h⟩ := ok_of_bind h
  replace hm := Maps.table_of_getMap hm
  obtain ⟨s₁, hs₁, h⟩ := ok_of_bind h
  cases h
  obtain ⟨l, hok⟩ := hg id m hm
  obtain ⟨-, hbut, m₁, l₁, hm₁, hdel⟩ := vmMapDelete_spec hg hm hok hs₁
  by_cases hid : id' = id
  · subst hid
    cases hm₁.symm.trans hm'
    refine ⟨m, hm, fun a ha => ?_⟩
    rw [hdel.ok.view_eq, hdel.view, ← hok.view_eq, ha, ite_self]
  · obtain ⟨c, hc⟩ := hbut.table id' m' hid hm'
    exact ⟨_, hc, fun a ha => ha⟩

theorem vmMove_cases {src srcAddr dst numBytes : ℕ} {srcDealloc : Bool} {code : KernReturn}
    (h : vmMove s src srcAddr dst numBytes srcDealloc = .ok (code, a, s')) :
    code = .success ∨ (numBytes ≠ 0 ∧ ∃ result dstStart s₁,
      vmAllocate s dst 0 (moveSize srcAddr numBytes) true = .ok (result, dstStart, s₁) ∧
      ((result ≠ .success ∧ s' = s₁) ∨ (result = .success ∧ ∃ s₂ done,
        vmMapCopy s₁ dst src dstStart (moveSize srcAddr numBytes) (truncPage srcAddr) false
          srcDealloc = .ok (code, s₂) ∧ code ≠ .success ∧
        vmDeallocate s₂ dst dstStart (moveSize srcAddr numBytes) = .ok (done, s')))) := by
  rw [vmMove] at h
  split at h
  · cases h
    exact .inl rfl
  rename_i hbytes
  obtain ⟨⟨result, dstStart, s₁⟩, hs₁, h⟩ := ok_of_bind h
  dsimp only at h
  split at h
  · rename_i hresult
    cases h
    exact .inr ⟨hbytes, _, dstStart, _, hs₁, .inl ⟨hresult, rfl⟩⟩
  rename_i hresult
  obtain ⟨⟨result', s₂⟩, hs₂, h⟩ := ok_of_bind h
  dsimp only at h
  split at h
  · cases h
    exact .inl rfl
  · rename_i hne
    obtain ⟨⟨done, s₃⟩, hs₃, h⟩ := ok_of_bind h
    cases h
    exact .inr ⟨hbytes, result, dstStart, s₁, hs₁,
      .inr ⟨Decidable.not_not.mp hresult, s₂, done, hs₂, hne, hs₃⟩⟩

theorem vmDeallocate_eq {size : ℕ} {code : KernReturn} (hd : s.table id = some d)
    (hbound : d.maxOffset < 2 ^ 32) (hstart : start % pageSize = 0) (hsize : size % pageSize = 0)
    (hpos : 0 < size) (hmin : d.minOffset ≤ start) (hmax : start + size ≤ d.maxOffset)
    (h : vmDeallocate s id start size = .ok (code, s')) :
    vmMapDelete s id start (start + size) = .ok s' := by
  have hlt : start + size < 2 ^ 32 := Nat.lt_of_le_of_lt hmax hbound
  have haligned : (start + size) % pageSize = 0 := by
    rw [pageSize] at hstart hsize ⊢
    omega
  rw [vmDeallocate, if_neg (Nat.ne_of_gt hpos), truncPage_of_aligned hstart, u32_eq hlt,
    roundPage_of_aligned haligned hlt] at h
  replace h := Maps.bind_getMap hd h
  have hcheck : d.rangeCheck start (start + size) = (start, start + size) := by
    simp only [VmMap.rangeCheck, if_neg (Nat.not_lt.mpr hmin), if_neg (Nat.not_lt.mpr hmax),
      if_neg (Nat.not_lt.mpr (Nat.le_add_right start size))]
  rw [hcheck] at h
  obtain ⟨s₁, hs₁, h⟩ := ok_of_bind h
  cases h
  exact hs₁

theorem vmMove_destroys {src srcAddr dst numBytes : ℕ} {srcDealloc : Bool} {code : KernReturn}
    (hp : Proper s) (hm : s.table src = some m) (hd : s.table dst = some d) (ha : d.PageAligned)
    (h : vmMove s src srcAddr dst numBytes srcDealloc = .ok (code, x, s'))
    (hbad : MoveDestroys m d src srcAddr dst numBytes srcDealloc) :
    code ≠ .success ∧ ¬ LeftAlone s s' src dst := by
  obtain ⟨hbytes, hdealloc, hmain, hmain', hwrap, ⟨start, hroom, hrefused⟩, a, hlow, hhigh, hview⟩ := hbad
  have hg := hp.good
  obtain ⟨ld, hokd⟩ := hg dst d hd
  rw [vmMove, if_neg hbytes] at h
  obtain ⟨⟨result, dstStart, s₁⟩, hs₁, h⟩ := ok_of_bind h
  rcases vmAllocate_spec hg hd hokd ha (moveSize_aligned _ _) hs₁ with
    ⟨-, -, hnone⟩ | ⟨-, hz, -⟩ | ⟨rfl, hpos, hroom', -, hbound, ⟨-, -, hfree⟩, d₁, l₁, g, rfl, hins⟩
  · exact absurd hroom (hnone start)
  · obtain ⟨-, -, hlt, -⟩ := hroom
    rw [hz, u32] at hlt
    omega
  cases hroom.unique hroom'
  have hg₁ : Good ({ s with objects := g }.setMap dst d₁) :=
    Good.setMap (s := { s with objects := g }) hg hins.ok
  have hd₁ : ({ s with objects := g }.setMap dst d₁).table dst = some d₁ := Maps.setMap_self
  obtain ⟨m₁, hm₁⟩ : ∃ m₁, ({ s with objects := g }.setMap dst d₁).table src = some m₁ := by
    by_cases hid : src = dst
    · exact ⟨d₁, hid ▸ hd₁⟩
    · exact ⟨m, (Maps.setMap_of_ne hid).trans hm⟩
  simp only [ne_eq, not_true_eq_false, if_false] at h
  obtain ⟨⟨result', s₂⟩, hs₂, h⟩ := ok_of_bind h
  replace hs₂ : vmMapCopy _ dst src start (moveSize srcAddr numBytes) (truncPage srcAddr) false srcDealloc =
    .ok (result', s₂) := hs₂
  -- the copy is refused, and destroys the source
  rcases vmMapCopy_cases hg₁ hm₁ hd₁ hs₂ with ⟨-, -, hwrap'⟩ | ⟨-, hcode, hfail⟩
  · rw [u32_eq hbound] at hwrap'
    omega
  have hne : result' ≠ .success := by
    intro hs
    have hall := hcode.mp hs
    rw [u32_eq hbound, copyAllowed_iff hm hd hokd (Nat.lt_add_of_pos_right hpos) hfree hins hm₁] at hall
    exact hrefused (hall hmain hmain')
  dsimp only at h
  rw [if_neg hne] at h
  obtain ⟨⟨done, s₃⟩, hs₃, h⟩ := ok_of_bind h
  cases h
  refine ⟨hne, fun hleft => ?_⟩
  obtain ⟨m', hm', hsame⟩ := hleft.source m hm
  obtain ⟨u, hh, hrun⟩ := hfail hne
  rw [if_pos hdealloc] at hrun
  obtain ⟨l₁, hok₁⟩ := hg₁ src m₁ hm₁
  obtain ⟨y, hy, hmu⟩ := hh.get hm₁ hok₁
  obtain ⟨hg₂, -, m₂, l₂, hm₂, hdel⟩ := vmMapDelete_spec (hh.good hg₁) hmu (hok₁.setHint hy) hrun
  obtain ⟨m₂', hm₂', hnone⟩ := vmDeallocate_view hg₂ hs₃ hm'
  cases hm₂.symm.trans hm₂'
  apply hview
  rw [← hsame]
  apply hnone
  rw [hdel.ok.view_eq, hdel.view, if_pos ⟨hlow, hhigh⟩]

theorem added_of_inserted [Zero D] (hd : s.table id = some d) (hok : MapOk d l)
    (hne : ∀ e ∈ l, (d.entry e).vmeStart < (d.entry e).vmeEnd) (hlt : lo < hi)
    (hfree : Free (l.map d.entry) lo hi) (hins : HasInserted s.objects g none 0 lo hi d d₁ l l₁) :
    Added (∃ ext, s.Backed ext) s.kernelObject lo hi (l₁.map d₁.entry) := by
  have hsize := hins.records.forall (P := fun r => r.vmeStart < r.vmeEnd) (forall_mem_map.mpr hne)
    (fun r => by
      obtain ⟨hs, he⟩ := inserted_extent r d.isMainMap none 0 lo hi
      rwa [hs, he]) (fun r hr hold => by
      rw [extends_end hr] at hold
      exact hold.trans hlt)
  refine ⟨hsize, fun t ht hstop hstart => ?_⟩
  obtain ⟨hplain, hobject⟩ := hins.records.quiet hfree t ht hstop hstart
  refine ⟨hplain, fun ⟨ext, hb⟩ o ho => ?_⟩
  obtain ⟨r, hr, htried, hro, hend, hsame⟩ := hobject o ho
  -- the entry that was extended begins in front of the range
  have hrs : ∀ r ∈ l.map d.entry, r.vmeStart < r.vmeEnd := forall_mem_map.mpr hne
  have hpos := hrs r hr
  exact ⟨(hb.tried hd hok hr htried).2.1 rfl o hro, t.vmeStart, by omega, t.clipTo t.vmeStart,
    hins.ok.laid.viewOf_eq ht (Nat.le_refl _) (hsize t ht), ho⟩

theorem vmMove_leftAlone [Zero D] {src srcAddr dst numBytes : ℕ} {srcDealloc : Bool} {code : KernReturn}
    (hp : Proper s) (hm : s.table src = some m) (hd : s.table dst = some d) (ha : d.PageAligned)
    (h : vmMove s src srcAddr dst numBytes srcDealloc = .ok (code, x, s'))
    (hgood : ¬ MoveDestroys m d src srcAddr dst numBytes srcDealloc) (hcode : code ≠ .success) :
    LeftAlone s s' src dst ∧ ((∃ ext, s.Backed ext) → s.KeptBy s'.objects) := by
  have hg := hp.good
  obtain ⟨l, hokd, hne⟩ := hp dst d hd
  have hsize := moveSize_aligned srcAddr numBytes
  obtain hs | ⟨hbytes, result, dstStart, s₁, hs₁, ⟨hfail, rfl⟩ | ⟨rfl, s₂, done, hs₂, -, hs₃⟩⟩ :=
    vmMove_cases h
  · exact absurd hs hcode
  · rcases vmAllocate_spec hg hd hokd ha hsize hs₁ with ⟨-, hh, -⟩ | ⟨hs, -⟩ | ⟨hs, -⟩
    · refine ⟨⟨hh.showsSame hg src, hh.showsSame hg dst⟩, fun _ o k _ => ?_⟩
      rw [hh.objects]
    · exact absurd hs hfail
    · exact absurd hs hfail
  generalize hlen : moveSize srcAddr numBytes = size at hs₁ hs₂ hs₃ hsize
  rcases vmAllocate_spec hg hd hokd ha hsize hs₁ with
    ⟨hn, -⟩ | ⟨-, rfl, rfl⟩ |
      ⟨-, hpos, hroom, halign, hbound, ⟨hmin, hmax, hfree⟩, d₁, l₁, g, rfl, hins⟩
  · exact absurd rfl hn
  · -- nothing was allocated
    rw [vmDeallocate, if_pos rfl] at hs₃
    cases hs₃
    obtain ⟨hleft, hsame⟩ := (vmMapCopy_leftAlone_iff hp hm hd hs₂).mpr (by
      rintro ⟨-, -, -, a, hlow, hhigh, -⟩
      rw [u32] at hhigh
      omega) hcode
    exact ⟨hleft, fun _ o k _ => hsame.contents o k⟩
  have hlt : dstStart < dstStart + size := Nat.lt_add_of_pos_right hpos
  have hg₁ : Good ({ s with objects := g }.setMap dst d₁) :=
    Good.setMap (s := { s with objects := g }) hg hins.ok
  have hd₁ : ({ s with objects := g }.setMap dst d₁).table dst = some d₁ := Maps.setMap_self
  have hadd := added_of_inserted hd hokd hne hlt hfree hins
  have hcounted : (∃ ext, s.Backed ext) → Counted g (l₁.map d₁.entry) := by
    rintro ⟨ext, hb⟩
    exact (hb.allocated hd hokd hins).2.2
  obtain ⟨m₁, hm₁, lm, hokm, hnem, hview⟩ : ∃ m₁, ({ s with objects := g }.setMap dst d₁).table src = some m₁ ∧
      ∃ lm, MapOk m₁ lm ∧ (∀ e ∈ lm, (m₁.entry e).vmeStart < (m₁.entry e).vmeEnd) ∧
        ∀ a, (dst = src → ¬ (dstStart ≤ a ∧ a < dstStart + size)) → m₁.view a = m.view a := by
    by_cases hid : dst = src
    · subst hid
      cases hm.symm.trans hd
      refine ⟨d₁, hd₁, l₁, hins.ok, forall_mem_map.mp hadd.nonempty, fun a hout => ?_⟩
      rw [hins.ok.view_eq, hins.records.view (hout rfl) hlt, ← hokd.view_eq]
    · obtain ⟨lm, hokm, hnem⟩ := hp src m hm
      exact ⟨m, (Maps.setMap_of_ne (Ne.symm hid)).trans hm, lm, hokm, hnem, fun _ _ => rfl⟩
  obtain ⟨hback, hothers⟩ := Returning.copied hg₁ hm₁ hokm hnem hd₁ hins.ok hadd hcounted (fun hwrap hrefused hdealloc => by
      rw [u32_eq hbound, copyAllowed_iff hm hd hokd hlt hfree hins hm₁] at hrefused
      push Not at hrefused
      obtain ⟨hmain, hmain', hnot⟩ := hrefused
      refine ⟨?_, fun a hlow hhigh hout => ?_⟩
      · rw [u32] at hwrap ⊢
        have := hsize.2
        omega
      · rw [hview a hout]
        by_contra hshown
        subst hlen
        exact hgood ⟨hbytes, hdealloc, hmain, hmain', hwrap, ⟨dstStart, hroom, hnot⟩, a, hlow, hhigh, hshown⟩)
    hs₂ hcode
  -- the allocation is given back
  obtain ⟨d₂, l₂, hd₂, hok₂, hheader, -⟩ := hback.map
  have hbounds : d₂.minOffset = d.minOffset ∧ d₂.maxOffset = d.maxOffset := by
    rw [VmMap.minOffset, VmMap.maxOffset, hheader, hins.header]
    exact ⟨rfl, rfl⟩
  have hrun := vmDeallocate_eq hd₂ hok₂.bound halign hsize.1 hpos (by omega) (by omega) hs₃
  obtain ⟨hback', hothers'⟩ := hback.delete hadd hlt (fun a hlow hhigh hout => absurd ⟨hlow, hhigh⟩ hout) hrun
  obtain ⟨-, -, d₃, l₃, hd₃, hdel⟩ := vmMapDelete_spec hback.good hd₂ hok₂ hrun
  have hdst : s.ShowsSame s' dst := by
    intro d' hd'
    cases hd.symm.trans hd'
    obtain ⟨d₄, -, hd₄, -, -, -, hview', -⟩ := hback'.map
    cases hd₃.symm.trans hd₄
    refine ⟨d₃, hd₃, fun a => ?_⟩
    by_cases hr : dstStart ≤ a ∧ a < dstStart + size
    · rw [hdel.ok.view_eq, hdel.view, if_pos hr, hokd.view_eq, viewOf_of_free hfree hr]
    · rw [hview' a hr, hins.records.view hr hlt, ← hokd.view_eq]
  refine ⟨⟨?_, hdst⟩, fun hK o k hshows => ?_⟩
  · by_cases hid : dst = src
    · exact hid ▸ hdst
    · intro m' hm'
      exact ((hothers src (Ne.symm hid)).trans (hothers' src (Ne.symm hid))) m'
        ((Maps.setMap_of_ne (Ne.symm hid)).trans hm')
  · obtain ⟨ext, hb⟩ := hK
    rw [(hback'.contents ⟨ext, hb⟩).contents o k]
    exact (hb.allocated hd hokd hins).2.1 o k hshows

/-! ## Maps with allocated ranges -/

theorem Proper.setMap (h : Proper s) (hok : MapOk m l)
    (hne : ∀ e ∈ l, (m.entry e).vmeStart < (m.entry e).vmeEnd) : Proper (s.setMap id m) := by
  intro id' m' hm'
  by_cases hid : id' = id
  · subst hid
    cases Maps.setMap_self.symm.trans hm'
    exact ⟨l, hok, hne⟩
  · exact h id' m' ((Maps.setMap_of_ne hid).symm.trans hm')

theorem Proper.create (h : Proper s) (min : ℕ) {max : ℕ} (hmax : max < 2 ^ 32) :
    Proper (vmMapCreate s min max).2 := by
  obtain ⟨m, heq, hok, -⟩ := vmMapCreate_spec s min hmax
  rw [heq]
  exact h.setMap hok (by simp)

theorem Proper.insert (h : Proper s) {object : Option ℕ} {offset : ℕ} {code : KernReturn}
    (hrun : vmMapInsert s id object offset start stop = .ok (code, s')) : Proper s' := by
  obtain ⟨m, hm, -⟩ := ok_of_bind hrun
  replace hm := Maps.table_of_getMap hm
  obtain ⟨l, hok, hne⟩ := h id m hm
  rcases vmMapInsert_spec hm hok hrun with
    ⟨-, -, hint, hhint, rfl⟩ | ⟨-, ⟨-, hlt, -⟩, m', l', g, rfl, hins⟩
  · exact h.setMap (hok.setHint hhint) hne
  · have hnew := hins.records.forall (P := fun r => r.vmeStart < r.vmeEnd)
      (forall_mem_map.mpr hne) (fun r => by
        obtain ⟨hs, he⟩ := inserted_extent r m.isMainMap object offset start stop
        rwa [hs, he]) (fun r hr hold => by
        rw [extends_end hr] at hold
        exact hold.trans hlt)
    exact Proper.setMap (s := { s with objects := g }) h hins.ok (forall_mem_map.mp hnew)

theorem proper_empty : Proper (Maps.empty D) := by
  intro id m hm
  cases hm

/-- The kernel object, and an object with a page. -/
def pageObjects : Objects ℕ where
  table := fun o =>
    if o = 0 then some (vmObjectTemplate 4096)
    else if o = 1 then some { vmObjectTemplate 4096 with memq := [⟨0, 7⟩] }
    else none
  next := 2

/-- A map that shows the page. -/
def shownPage : Except Stop (KernReturn × Maps ℕ) :=
  vmMapInsert { (vmMapCreate (Maps.empty ℕ) 4096 65536).2 with objects := pageObjects } 0 (some 1) 0 4096 8192

theorem shownPage_proper {code : KernReturn} {s : Maps ℕ} (h : shownPage = .ok (code, s)) : Proper s := by
  refine Proper.insert ?_ h
  exact proper_empty.create 4096 (by decide)

theorem pageObjects_cases {o : ℕ} {ob : VmObject ℕ} (h : pageObjects.table o = some ob) :
    (o = 0 ∨ o = 1) ∧ ob.size = 4096 ∧ ob.shadow = none ∧ ob.refCount = 1 := by
  simp only [pageObjects] at h
  split_ifs at h with h0 h1
  · cases h
    exact ⟨.inl h0, rfl, rfl, rfl⟩
  · cases h
    exact ⟨.inr h1, rfl, rfl, rfl⟩

theorem pageObjects_ok : pageObjects.Ok (fun o => if o < 2 then 1 else 0) := by
  refine ⟨fun o ob ho => ?_, fun o ob ho => ?_, fun o ob ho => ?_, fun o hpos => ?_⟩
  · change o < 2
    have := (pageObjects_cases ho).1
    omega
  · refine ⟨[o], .cons ho ?_⟩
    rw [(pageObjects_cases ho).2.2.1]
    exact .nil
  · rw [(pageObjects_cases ho).2.2.2]
    rcases (pageObjects_cases ho).1 with rfl | rfl <;> rfl
  · have hlt : o < 2 := by
      by_contra hge
      rw [if_neg hge] at hpos
      omega
    obtain rfl | rfl : o = 0 ∨ o = 1 := by omega
    · exact ⟨_, rfl⟩
    · exact ⟨_, rfl⟩

theorem shownPage_spec {s : Maps ℕ} (h : shownPage = .ok (.success, s)) :
    s.objects = pageObjects ∧ s.kernelObject = 0 ∧ ∃ m e, s.table 0 = some m ∧
      (∀ id m', s.table id = some m' → id = 0 ∧ m' = m) ∧ MapOk m [e] ∧ m.minOffset = 4096 ∧
      (m.entry e).vmeStart = 4096 ∧
      (m.entry e).vmeEnd = 8192 ∧ (m.entry e).offset = 0 ∧ (m.entry e).object = .object 1 := by
  obtain ⟨m, heq, hok, -, hmain, hmin, -⟩ := vmMapCreate_spec (Maps.empty ℕ) 4096 (by decide : 65536 < 2 ^ 32)
  rw [shownPage, heq] at h
  have hm : ((Maps.empty ℕ).setMap 0 m).table 0 = some m := Maps.setMap_self
  rcases vmMapInsert_spec (s := { (Maps.empty ℕ).setMap 0 m with next := 1, objects := pageObjects }) hm hok h with
    ⟨hne, -⟩ | ⟨-, -, m', l', g, rfl, hins⟩
  · exact absurd rfl hne
  have hrecords := hins.records
  rw [hmain, map_nil] at hrecords
  obtain ⟨r, hr, hg⟩ : ∃ r : VmMapEntry, l'.map m'.entry = [r.inserted true (some 1) 0 4096 8192] ∧
      g = pageObjects := by
    generalize hrs : ([] : List VmMapEntry) = rs at hrecords
    generalize l'.map m'.entry = ts at hrecords
    cases hrecords with
    | new rs ts r hT =>
      obtain ⟨rfl, rfl⟩ := append_eq_nil_iff.mp hrs.symm
      refine ⟨r, rfl, hT.resolve_right ?_⟩
      rintro ⟨t, ht, -⟩
      cases ht
    | extend rs ts r hr ho => cases ho
  obtain ⟨e, rfl, he⟩ := map_eq_singleton_iff.mp hr
  refine ⟨hg, rfl, m', e, Maps.setMap_self, fun id m'' hm'' => ?_, hins.ok, (congrArg VmMapEntry.vmeStart hins.header).trans hmin, ?_⟩
  · by_cases hid : id = 0
    · subst hid
      cases Maps.setMap_self.symm.trans hm''
      exact ⟨rfl, rfl⟩
    · cases ((Maps.setMap_of_ne hid).symm.trans hm'').symm.trans (Maps.setMap_of_ne hid)
  · rw [he]
    exact ⟨rfl, rfl, rfl, rfl⟩

theorem shownPage_backed {s : Maps ℕ} (h : shownPage = .ok (.success, s)) :
    s.Backed (fun o => if o < 2 then 1 else 0) := by
  obtain ⟨hobjects, hkernel, m, e, hm, honly, hok, -, hs, he, hoffset, hobject⟩ := shownPage_spec h
  have hentries : m.entries = [e] := hok.entries_eq
  have hholds : ∀ o y, s.Holds o y → o = 1 ∧ y = (0, e) := by
    rintro o ⟨id, e'⟩ ⟨m', hm', he', ho⟩
    obtain ⟨rfl, rfl⟩ := honly _ _ hm'
    rw [hentries, mem_singleton] at he'
    subst he'
    rw [hobject] at ho
    cases ho
    exact ⟨rfl, rfl⟩
  have hchain : ∀ o, o = 0 ∨ o = 1 → pageObjects.chainOf 2 (some o) = [o] := by
    rintro o (rfl | rfl) <;> rfl
  refine ⟨hobjects ▸ pageObjects_ok, fun o ys hn hys => ?_, fun o ob id m' e' hob hm' he' ho => ?_,
    fun o ob hob => ?_, fun o ob hob => ?_, fun o ob x k hob hshows => ?_⟩
  · rw [hkernel]
    cases ys with
    | nil =>
      rw [length_nil, Nat.zero_add]
      split_ifs <;> omega
    | cons y ys =>
      have hall : ∀ z ∈ y :: ys, z = (0, e) := fun z hz => (hholds o z (hys z hz)).2
      obtain ⟨rfl, -⟩ := hholds o y (hys y mem_cons_self)
      have hlen : (y :: ys).length ≤ [((0 : ℕ), e)].length :=
        (hn.subperm fun z hz => mem_singleton.mpr (hall z hz)).length_le
      rw [length_singleton] at hlen
      simpa using hlen
  · obtain ⟨rfl, rfl⟩ := honly id m' hm'
    rw [hentries, mem_singleton] at he'
    rw [hobjects] at hob
    rw [he', hs, he, hoffset, (pageObjects_cases hob).2.1]
  · rw [hobjects] at hob
    rw [(pageObjects_cases hob).2.1]
    decide
  · rw [hobjects] at hob ⊢
    change pageObjects.Unwrapped _ (pageObjects.chainOf 2 (some o)) 0
    rw [hchain o (pageObjects_cases hob).1, (pageObjects_cases hob).2.1]
    exact ⟨by decide, trivial⟩
  · obtain ⟨id, m', a, v, hm', hv, hvo, rfl⟩ := hshows
    obtain ⟨rfl, rfl⟩ := honly id m' hm'
    rw [hok.view_eq, map_singleton] at hv
    obtain ⟨r, hr, hrs, hre, rfl⟩ := viewOf_eq_some hv
    rw [mem_singleton.mp hr] at hrs hre hvo ⊢
    obtain rfl : 1 = x := VmMapObject.object.inj (hobject.symm.trans hvo)
    rw [hobjects] at hob ⊢
    change pageObjects.Within o _ (pageObjects.chainOf 2 (some 1)) _
    rw [hchain 1 (.inr rfl), (pageObjects_cases hob).2.1]
    refine ⟨fun _ => ?_, fun _ => trivial⟩
    change u32 ((m'.entry e).offset + (a - (m'.entry e).vmeStart)) < 4096
    rw [hs, hoffset, u32]
    omega

end Darwin.Vm
