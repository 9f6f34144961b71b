import Darwin.Vm.PagerHipage

/-! # Truncation of pager files

When a pager goes, each pager file that it had pages in is cut down to its new highest page. The sizes
set spare all pages in use and the low water mark. Pages above both may stay in the file all the same:
the record of the highest page is not lowered when no page is left, nor by pages that move, and a file
is not cut at all when what is in use ends below the mark.
-/
namespace Darwin.Vm
open Darwin.Lib Function List

/-- `ptoa` on words of 32 bits. -/
def ptoa (x : ℕ) : ℕ := u32 (x * pageSize)

/-- The paging space with the marks and sizes of its files. `cuts` has the sizes that
`vnode_pager_truncate` has set in the last event. -/
structure SwapSystem where
  space : PagingSpace
  pfLowat : ℕ → ℕ
  vnodeSize : ℕ → ℕ
  cuts : List (ℕ × ℕ)

/-- `size` is that of the new file, and `setattr` the files on which `VOP_SETATTR` succeeds. -/
inductive SwapEvent where
  | swapon (lowat hiwat size : UInt32) (memory : ℕ → Bool)
  | create (vs pf size : ℕ) (kget : KgetSite → Bool)
  | bmap (vs fOffset : ℕ) (flag : BmapFlag) (kget : KgetSite → Bool)
  | dealloc (vs : ℕ) (setattr : ℕ → Bool)

namespace SwapSystem

/-- `vnode_pager_truncate` with what it does to the file. -/
def vnodePagerTruncate (setattr : ℕ → Bool) (s : SwapSystem) (entry : PfEntry) : Except PagerStop SwapSystem := do
  let f ← s.space.pagerFileList entry.index
  if (entry.offset : ℤ) < f.pfHipage then return s
  let space ← Vm.vnodePagerTruncate s.space entry
  let f ← space.pagerFileList entry.index
  let truncpage := (f.pfHipage + 1).toNat
  if s.pfLowat entry.index = 0 ∨ truncpage ≤ s.pfLowat entry.index ∨ s.vnodeSize entry.index < ptoa truncpage then
    return { s with space := space }
  return { s with
    space := space
    vnodeSize := if setattr entry.index then update s.vnodeSize entry.index (ptoa truncpage) else s.vnodeSize
    cuts := (entry.index, ptoa truncpage) :: s.cuts }

def truncateSeen (setattr : ℕ → Bool) : List PfEntry → SwapSystem → Except PagerStop SwapSystem
  | [], s => .ok s
  | e :: rest, s => do truncateSeen setattr rest (← s.vnodePagerTruncate setattr e)

def vnodeDealloc (setattr : ℕ → Bool) (s : SwapSystem) (vs : ℕ) : Except PagerStop SwapSystem := do
  let v ← s.space.getVstruct vs
  let (space, seen) ← deallocMap s.space v
  let f ← space.getFile v.vsPf
  let s ← truncateSeen setattr seen { s with space := space.setFile v.vsPf { f with pfCount := f.pfCount - 1 } }
  return { s with space := { s.space with vstruct := update s.space.vstruct vs none } }

/-- A page that is written may extend the file. -/
def pagedOut (vnodeSize : ℕ → ℕ) : BmapFlag → Option PfEntry → ℕ → ℕ
  | .write, some entry =>
    let last := u32 (ptoa entry.offset + pageSize)
    if vnodeSize entry.index < last then update vnodeSize entry.index last else vnodeSize
  | _, _ => vnodeSize

def step (s : SwapSystem) : SwapEvent → Except PagerStop (PagerReturn × SwapSystem)
  | .swapon lowat hiwat size memory => do
    let space ← vnodePagerFileInit s.space hiwat memory
    return (.success, {
      space := space
      pfLowat := update s.pfLowat space.pagerFileCount (atop (roundPage lowat.toNat))
      vnodeSize := update s.vnodeSize space.pagerFileCount (if lowat < size then lowat else size).toNat
      cuts := [] })
  | .create vs pf size kget => do
    let (made, space) ← pagerfilePagerCreate kget s.space vs pf size
    return (if made then .success else .failure, { s with space := space, cuts := [] })
  | .bmap vs fOffset flag kget => do
    let (result, entry, space) ← pagerfileBmap kget s.space vs fOffset flag
    return (result, { s with space := space, vnodeSize := pagedOut s.vnodeSize flag entry, cuts := [] })
  | .dealloc vs setattr => do return (.success, ← vnodeDealloc setattr { s with cuts := [] } vs)

/-- A pager is created at an address that is not in use, for a pager file that is there. -/
def Allowed (s : SwapSystem) : SwapEvent → Prop
  | .create vs pf _ _ => s.space.vstruct vs = none ∧ s.space.pagerFile pf ≠ none
  | _ => True

def init : SwapSystem := ⟨PagingSystem.init.space, fun _ => 0, fun _ => 0, []⟩

abbrev Runs : SwapSystem → List SwapEvent → SwapSystem → Prop :=
  RunUnder Allowed (fun s ev s' => ∃ r, s.step ev = .ok (r, s'))

/-! ## What is to hold -/

/-- The size has no page that is neither in use, nor below one in use, nor below the mark. -/
def TrimmedTo (used : ℕ → Prop) (lowat size : ℕ) : Prop :=
  ∀ p, lowat ≤ p → (∀ q, used q → q < p) → size ≤ p * pageSize

def Trimmed (s : SwapSystem) (pf : ℕ) : Prop :=
  TrimmedTo (fun p => s.space.Used ⟨pf, p⟩) (s.pfLowat pf) (s.vnodeSize pf)

/-- The size spares the pages in use and those below the mark. -/
def Spares (s : SwapSystem) (pf size : ℕ) : Prop :=
  (∀ p, s.space.Used ⟨pf, p⟩ → p * pageSize < size) ∧ s.pfLowat pf * pageSize ≤ size

/-- The page stays in use when the pager goes. -/
def Kept (s : SwapSystem) (vs pf p : ℕ) : Prop :=
  s.space.Used ⟨pf, p⟩ ∧ ∀ page, s.space.slot (vs, page) ≠ some ⟨pf, p⟩

/-- The pager has the last page in use of the file. -/
def HasLast (s : SwapSystem) (vs pf p : ℕ) : Prop :=
  (∃ page, s.space.slot (vs, page) = some ⟨pf, p⟩) ∧ ∀ q, s.space.Used ⟨pf, q⟩ → q ≤ p

/-- The file is small enough without the pages of the pager, or its last page is the recorded one, a page
above the mark is kept, and the file can be cut. -/
def Trims (s : SwapSystem) (setattr : ℕ → Bool) (vs pf : ℕ) (f : PagerFile) (last : ℕ) : Prop :=
  TrimmedTo (s.Kept vs pf) (s.pfLowat pf) (s.vnodeSize pf) ∨
    f.pfHipage = last ∧ setattr pf = true ∧ ∃ p, s.pfLowat pf ≤ p ∧ s.Kept vs pf p

structure Ok (s : SwapSystem) : Prop where
  space : s.space.Ok
  high : s.space.FilesHigh
  cuts : ∀ c ∈ s.cuts, s.Spares c.1 c.2

variable {s s' : SwapSystem} {setattr : ℕ → Bool} {f : PagerFile} {pf vs last : ℕ} {e : PfEntry} {seen : List PfEntry}
  {ev : SwapEvent} {evs : List SwapEvent} {r : PagerReturn}

/-- A page of the file that is not in use. -/
def Given (s : PagingSpace) (e : PfEntry) : Prop :=
  ∃ f, s.pagerFile e.index = some f ∧ e.offset < f.pfNpgs ∧ f.pfBmap e.offset = false

/-! ## One file -/

/-- The new record is the last page in use before the one that was given up. Where there is none the old
one stays. -/
def NewHigh (f : PagerFile) (n : ℕ) (hipage : ℤ) : Prop :=
  (∃ i : ℕ, hipage = i ∧ i < n ∧ f.pfBmap i = true ∧ ∀ j, i < j → j < n → f.pfBmap j = false) ∨
    hipage = f.pfHipage ∧ ∀ j < n, f.pfBmap j = false

theorem setFile_same {t : PagingSpace} (hf : t.pagerFile pf = some f) : t.setFile pf f = t := by
  rw [PagingSpace.setFile, ← hf, update_eq_self]

theorem truncate_space {t : PagingSpace} (h : t.FilesOk) (hf : t.pagerFile e.index = some f)
    (hle : ¬ (e.offset : ℤ) < f.pfHipage) : ∃ hipage, NewHigh f e.offset hipage ∧
      Vm.vnodePagerTruncate t e = .ok (t.setFile e.index { f with pfHipage := hipage }) := by
  rw [Vm.vnodePagerTruncate, h.pagerFileList_eq hf]
  simp only [bind, Except.bind, pure, Except.pure]
  rw [if_neg hle]
  cases hscan : (List.range e.offset).reverse.find? f.pfBmap with
  | some i =>
    obtain ⟨hlt, hset, hclear⟩ := scan_some hscan
    exact ⟨i, .inl ⟨i, rfl, hlt, hset, hclear⟩, rfl⟩
  | none => exact ⟨f.pfHipage, .inr ⟨rfl, fun j hj => scan_none hscan hj⟩, congrArg Except.ok (setFile_same hf).symm⟩

/-- What a call does that looks for the record anew. -/
structure Recorded (setattr : ℕ → Bool) (s : SwapSystem) (e : PfEntry) (f : PagerFile) (hipage : ℤ) (s' : SwapSystem) :
    Prop where
  high : NewHigh f e.offset hipage
  space : s'.space = s.space.setFile e.index { f with pfHipage := hipage }
  lowat : s'.pfLowat = s.pfLowat
  size : (s.pfLowat e.index = 0 ∨ (hipage + 1).toNat ≤ s.pfLowat e.index ∨
        s.vnodeSize e.index < ptoa (hipage + 1).toNat) ∧ s'.vnodeSize = s.vnodeSize ∧ s'.cuts = s.cuts ∨
    s.pfLowat e.index < (hipage + 1).toNat ∧ ptoa (hipage + 1).toNat ≤ s.vnodeSize e.index ∧
      s'.vnodeSize = (if setattr e.index then update s.vnodeSize e.index (ptoa (hipage + 1).toNat)
        else s.vnodeSize) ∧ s'.cuts = (e.index, ptoa (hipage + 1).toNat) :: s.cuts

theorem truncate_cases (h : s.space.FilesOk) (hf : s.space.pagerFile e.index = some f)
    (hrun : s.vnodePagerTruncate setattr e = .ok s') :
    (e.offset : ℤ) < f.pfHipage ∧ s' = s ∨ f.pfHipage ≤ e.offset ∧ ∃ hipage, Recorded setattr s e f hipage s' := by
  rw [vnodePagerTruncate, h.pagerFileList_eq hf] at hrun
  simp only [bind, Except.bind, pure, Except.pure] at hrun
  by_cases hlow : (e.offset : ℤ) < f.pfHipage
  · rw [if_pos hlow] at hrun
    cases hrun
    exact .inl ⟨hlow, rfl⟩
  · obtain ⟨hipage, hhigh, hspace⟩ := truncate_space h hf hlow
    have hfiles := (h.touch hf { f with pfHipage := hipage } rfl rfl rfl rfl).1
    rw [if_neg hlow, hspace] at hrun
    dsimp only at hrun
    rw [hfiles.pagerFileList_eq PagingSpace.setFile_self] at hrun
    dsimp only at hrun
    refine .inr ⟨not_lt.mp hlow, hipage, ?_⟩
    by_cases hspared : s.pfLowat e.index = 0 ∨ (hipage + 1).toNat ≤ s.pfLowat e.index ∨
        s.vnodeSize e.index < ptoa (hipage + 1).toNat
    · rw [if_pos hspared] at hrun
      cases hrun
      exact ⟨hhigh, rfl, rfl, .inl ⟨hspared, rfl, rfl⟩⟩
    · rw [if_neg hspared] at hrun
      cases hrun
      push Not at hspared
      exact ⟨hhigh, rfl, rfl, .inr ⟨hspared.2.1, hspared.2.2, rfl, rfl⟩⟩

theorem NewHigh.highOk {hipage : ℤ} (h : NewHigh f e.offset hipage) (hok : f.HighOk) (hlt : e.offset < f.pfNpgs)
    (hclear : f.pfBmap e.offset = false) (hle : f.pfHipage ≤ e.offset) :
    PagerFile.HighOk { f with pfHipage := hipage } := by
  rcases h with ⟨i, rfl, hi, -, hbetween⟩ | ⟨rfl, -⟩
  · refine ⟨hok.npgs, ?_, fun p hp hset => ?_⟩
    · change (i : ℤ) < f.pfNpgs
      omega
    · have hpe : p ≠ e.offset := by
        rintro rfl
        cases hclear.symm.trans hset
      have hp' := hok.used p hp hset
      change (p : ℤ) ≤ i
      by_contra hgt
      have hzero := hbetween p (by omega) (by omega)
      cases hzero.symm.trans hset
  · exact hok

/-- What no call changes. -/
structure Keeps (s s' : SwapSystem) : Prop where
  files : s'.space.FilesOk
  high : s'.space.FilesHigh
  used : ∀ w, s'.space.Used w ↔ s.space.Used w
  given : ∀ x, Given s.space x → Given s'.space x
  lowat : s'.pfLowat = s.pfLowat
  cuts : ∀ c ∈ s'.cuts, s'.Spares c.1 c.2

structure SameFile (pf : ℕ) (s s' : SwapSystem) : Prop where
  file : s'.space.pagerFile pf = s.space.pagerFile pf
  size : s'.vnodeSize pf = s.vnodeSize pf

theorem Keeps.trans {s'' : SwapSystem} (h : Keeps s s') (h' : Keeps s' s'') : Keeps s s'' :=
  ⟨h'.files, h'.high, fun w => (h'.used w).trans (h.used w), fun x hx => h'.given x (h.given x hx),
    h'.lowat.trans h.lowat, h'.cuts⟩

theorem SameFile.trans {s'' : SwapSystem} (h : SameFile pf s s') (h' : SameFile pf s' s'') : SameFile pf s s'' :=
  ⟨h'.file.trans h.file, h'.size.trans h.size⟩

theorem spares_congr (hused : ∀ w, s'.space.Used w ↔ s.space.Used w) (hlowat : s'.pfLowat = s.pfLowat) (size : ℕ) :
    s'.Spares pf size ↔ s.Spares pf size := by
  rw [Spares, Spares, hlowat]
  simp only [hused]

theorem ptoa_eq {x : ℕ} (hx : x < 2 ^ 20) : ptoa x = x * pageSize := by
  rw [ptoa, u32, pageSize]
  omega

theorem truncate_keeps (h : Keeps s s) (hgiven : Given s.space e) (hrun : s.vnodePagerTruncate setattr e = .ok s') :
    Keeps s s' ∧ ∀ q ≠ e.index, SameFile q s s' := by
  obtain ⟨f, hf, hlt, hclear⟩ := hgiven
  rcases truncate_cases h.files hf hrun with ⟨-, rfl⟩ | ⟨hle, hipage, hrec⟩
  · exact ⟨h, fun q _ => ⟨rfl, rfl⟩⟩
  · have hok := hrec.high.highOk (h.high e.index f hf) hlt hclear hle
    obtain ⟨hfiles, hused⟩ := h.files.touch hf { f with pfHipage := hipage } rfl rfl rfl rfl
    rw [← hrec.space] at hfiles hused
    have hother : ∀ q ≠ e.index, s'.space.pagerFile q = s.space.pagerFile q := by
      intro q hq
      rw [hrec.space, PagingSpace.setFile_of_ne hq]
    have hself : s'.space.pagerFile e.index = some { f with pfHipage := hipage } := by
      rw [hrec.space, PagingSpace.setFile_self]
    refine ⟨⟨hfiles, hrec.space ▸ h.high.setFile hok, hused, ?_, hrec.lowat, ?_⟩, fun q hq => ⟨hother q hq, ?_⟩⟩
    · rintro x ⟨g, hg, hx⟩
      by_cases hxe : x.index = e.index
      · rw [hxe] at hg
        cases hf.symm.trans hg
        exact ⟨{ f with pfHipage := hipage }, (congrArg _ hxe).trans hself, hx⟩
      · exact ⟨g, (hother _ hxe).trans hg, hx⟩
    · rcases hrec.size with ⟨-, -, hcuts⟩ | ⟨hlowat, -, -, hcuts⟩
      · rw [hcuts]
        exact fun c hc => (spares_congr hused hrec.lowat c.2).mpr (h.cuts c hc)
      · rw [hcuts]
        refine forall_mem_cons.mpr ⟨(spares_congr hused hrec.lowat _).mpr ⟨fun p hp => ?_, ?_⟩,
          fun c hc => (spares_congr hused hrec.lowat c.2).mpr (h.cuts c hc)⟩
        · obtain ⟨g, hg, hpg, hset⟩ := (hused _).mpr hp
          cases hself.symm.trans hg
          have hhigh := hok.hipage
          have hnpgs := hok.npgs
          have hbound := hok.used p hpg hset
          dsimp only at hhigh hnpgs hbound
          rw [ptoa_eq (by omega)]
          exact Nat.mul_lt_mul_of_pos_right (by omega) (by decide)
        · have hhigh := hok.hipage
          have hnpgs := hok.npgs
          dsimp only at hhigh hnpgs
          rw [ptoa_eq (by omega)]
          exact Nat.mul_le_mul_right _ hlowat.le
    · rcases hrec.size with ⟨-, hsize, -⟩ | ⟨-, -, hsize, -⟩
      · rw [hsize]
      · rw [hsize]
        split_ifs
        · exact update_of_ne hq ..
        · rfl

theorem truncate_trims (hfiles : s.space.FilesOk) (hhigh : s.space.FilesHigh) (hf : s.space.pagerFile e.index = some f)
    (hlt : e.offset < f.pfNpgs) (hbefore : ∀ q, s.space.Used ⟨e.index, q⟩ → q < e.offset)
    (hle : (e.offset : ℤ) ≤ f.pfHipage) (hlowat : s.pfLowat e.index ≠ 0) (hrun : s.vnodePagerTruncate setattr e = .ok s') :
    TrimmedTo (fun q => s.space.Used ⟨e.index, q⟩) (s.pfLowat e.index) (s'.vnodeSize e.index) ↔
      TrimmedTo (fun q => s.space.Used ⟨e.index, q⟩) (s.pfLowat e.index) (s.vnodeSize e.index) ∨
        f.pfHipage = e.offset ∧ setattr e.index = true ∧
          ∃ q, s.pfLowat e.index ≤ q ∧ s.space.Used ⟨e.index, q⟩ := by
  have hused : ∀ q, s.space.Used ⟨e.index, q⟩ ↔ q < f.pfNpgs ∧ f.pfBmap q = true := by
    intro q
    rw [PagingSpace.Used, hf]
    simp
  have hnpgs := (hhigh e.index f hf).npgs
  rcases truncate_cases hfiles hf hrun with ⟨hlow, rfl⟩ | ⟨hge, hipage, hrec⟩
  · exact (or_iff_left (fun hand => absurd hand.1 (Int.ne_of_gt hlow))).symm
  · have heq : f.pfHipage = e.offset := le_antisymm hge hle
    rcases hrec.high with ⟨i, rfl, hi, hset, hbetween⟩ | ⟨rfl, hnone⟩
    · -- the last page that is kept
      have hiused : s.space.Used ⟨e.index, i⟩ := (hused i).mpr ⟨hi.trans hlt, hset⟩
      have hlast : ∀ q, s.space.Used ⟨e.index, q⟩ → q ≤ i := by
        intro q hq
        by_contra hgt
        have hzero := hbetween q (by omega) (hbefore q hq)
        cases hzero.symm.trans ((hused q).mp hq).2
      have hpage : ((i : ℤ) + 1).toNat = i + 1 := rfl
      have htrims : ∀ size, size ≤ (i + 1) * pageSize →
          TrimmedTo (fun q => s.space.Used ⟨e.index, q⟩) (s.pfLowat e.index) size := by
        intro size hsize p _ hp
        exact hsize.trans (Nat.mul_le_mul_right _ (hp i hiused))
      rcases hrec.size with ⟨hspared, hsize, -⟩ | ⟨habove, -, hsize, -⟩
      · rw [hsize]
        refine (or_iff_left_of_imp ?_).symm
        rintro ⟨-, -, q, hq, hqused⟩
        have hqi := hlast q hqused
        rw [hpage] at hspared
        rcases hspared with hzero | hbelow | hsmall
        · exact absurd hzero hlowat
        · omega
        · rw [ptoa_eq (by omega)] at hsmall
          exact htrims _ hsmall.le
      · rw [hpage] at habove hsize
        rw [hsize]
        by_cases hset : setattr e.index = true
        · rw [if_pos hset, update_self, ptoa_eq (by omega)]
          exact iff_of_true (htrims _ (Nat.le_refl _)) (.inr ⟨heq, hset, i, Nat.le_of_lt_succ habove, hiused⟩)
        · rw [if_neg hset]
          exact (or_iff_left (fun hand => hset hand.2.1)).symm
    · -- no page is kept, and the record stays
      have hempty : ∀ q, ¬ s.space.Used ⟨e.index, q⟩ := by
        intro q hq
        cases (hnone q (hbefore q hq)).symm.trans ((hused q).mp hq).2
      have hor : ∀ size, (TrimmedTo (fun q => s.space.Used ⟨e.index, q⟩) (s.pfLowat e.index) size ∨
          f.pfHipage = e.offset ∧ setattr e.index = true ∧
            ∃ q, s.pfLowat e.index ≤ q ∧ s.space.Used ⟨e.index, q⟩) ↔
          TrimmedTo (fun q => s.space.Used ⟨e.index, q⟩) (s.pfLowat e.index) size := by
        intro size
        apply or_iff_left
        rintro ⟨-, -, q, -, hq⟩
        exact hempty q hq
      rw [hor]
      have hpage : (f.pfHipage + 1).toNat = e.offset + 1 := by
        rw [heq]
        rfl
      rcases hrec.size with ⟨-, hsize, -⟩ | ⟨habove, hsmall, hsize, -⟩
      · rw [hsize]
      · rw [hpage] at habove hsize hsmall
        rw [hsize]
        by_cases hset : setattr e.index = true
        · rw [if_pos hset, update_self]
          rw [ptoa_eq (by omega)] at hsmall ⊢
          -- the page that was given up is still in the file
          have hin : ∀ size, (e.offset + 1) * pageSize ≤ size →
              ¬ TrimmedTo (fun q => s.space.Used ⟨e.index, q⟩) (s.pfLowat e.index) size := by
            intro size hsize htrim
            have hcut := htrim e.offset (Nat.le_of_lt_succ habove) (fun q hq => absurd hq (hempty q))
            rw [Nat.add_mul, pageSize] at hsize
            rw [pageSize] at hcut
            omega
          exact iff_of_false (hin _ (Nat.le_refl _)) (hin _ hsmall)
        · rw [if_neg hset]

/-! ## All files -/

theorem truncateSeen_keeps (seen : List PfEntry) (h : Keeps s s) (hgiven : ∀ e ∈ seen, Given s.space e)
    (hrun : truncateSeen setattr seen s = .ok s') :
    Keeps s s' ∧ ∀ q ∉ seen.map PfEntry.index, SameFile q s s' := by
  induction seen generalizing s with
  | nil =>
    cases hrun
    exact ⟨h, fun q _ => ⟨rfl, rfl⟩⟩
  | cons e rest ih =>
    obtain ⟨he, hrest⟩ := forall_mem_cons.mp hgiven
    rw [truncateSeen] at hrun
    cases hfirst : s.vnodePagerTruncate setattr e with
    | error stop =>
      rw [hfirst] at hrun
      cases hrun
    | ok s₁ =>
      rw [hfirst] at hrun
      obtain ⟨hkeeps, hframe⟩ := truncate_keeps h he hfirst
      have hself : Keeps s₁ s₁ := ⟨hkeeps.files, hkeeps.high, fun _ => .rfl, fun _ => id, rfl, hkeeps.cuts⟩
      obtain ⟨hkeeps', hframe'⟩ := ih hself (fun x hx => hkeeps.given x (hrest x hx)) hrun
      refine ⟨hkeeps.trans hkeeps', fun q hq => ?_⟩
      rw [map_cons, mem_cons, not_or] at hq
      exact (hframe q hq.1).trans (hframe' q hq.2)

theorem truncateSeen_at (h : Keeps s s) (hgiven : ∀ e ∈ seen, Given s.space e) (hnodup : (seen.map PfEntry.index).Nodup)
    (he : e ∈ seen) (hrun : truncateSeen setattr seen s = .ok s') :
    ∃ s₁ s₂, s₁.vnodePagerTruncate setattr e = .ok s₂ ∧ Keeps s s₁ ∧ SameFile e.index s s₁ ∧ SameFile e.index s₂ s' := by
  induction seen generalizing s with
  | nil => cases he
  | cons x rest ih =>
    obtain ⟨hx, hrest⟩ := forall_mem_cons.mp hgiven
    obtain ⟨hnot, hnodup'⟩ := nodup_cons.mp hnodup
    rw [truncateSeen] at hrun
    cases hfirst : s.vnodePagerTruncate setattr x with
    | error stop =>
      rw [hfirst] at hrun
      cases hrun
    | ok s₁ =>
      rw [hfirst] at hrun
      obtain ⟨hkeeps, hframe⟩ := truncate_keeps h hx hfirst
      have hself : Keeps s₁ s₁ := ⟨hkeeps.files, hkeeps.high, fun _ => .rfl, fun _ => id, rfl, hkeeps.cuts⟩
      have hgiven' : ∀ e ∈ rest, Given s₁.space e := fun y hy => hkeeps.given y (hrest y hy)
      rcases mem_cons.mp he with rfl | he
      · exact ⟨s, s₁, hfirst, h, ⟨rfl, rfl⟩, (truncateSeen_keeps rest hself hgiven' hrun).2 e.index hnot⟩
      · have hne : e.index ≠ x.index := fun heq => hnot (heq ▸ mem_map_of_mem he)
        obtain ⟨t, t', ht, hkeeps', hsame, hsame'⟩ := ih hself hgiven' hnodup' he hrun
        exact ⟨t, t', ht, hkeeps.trans hkeeps', (hframe _ hne).trans hsame, hsame'⟩

/-! ## The end of a pager -/

theorem truncate_simulates (setattr : ℕ → Bool) (s : SwapSystem) (e : PfEntry) :
    Returns (s.vnodePagerTruncate setattr e) (fun s' => Vm.vnodePagerTruncate s.space e = .ok s'.space) := by
  rw [vnodePagerTruncate]
  refine .bind_eq (fun f hf => .ite (fun hlow => .pure ?_) (fun hlow => ?_))
  · rw [Vm.vnodePagerTruncate, hf]
    exact if_pos hlow
  · exact .bind_eq (fun space hspace => .bind_eq (fun g _ => .ite (fun _ => .pure hspace) (fun _ => .pure hspace)))

theorem truncateSeen_simulates (seen : List PfEntry) (s : SwapSystem) :
    Returns (truncateSeen setattr seen s) (fun s' => Vm.truncateSeen seen s.space = .ok s'.space) := by
  induction seen generalizing s with
  | nil => exact .pure rfl
  | cons e rest ih =>
    rw [truncateSeen]
    refine .bind (truncate_simulates setattr s e) (fun s₁ hs₁ => (ih s₁).mono (fun s' hs' => ?_))
    rw [Vm.truncateSeen, hs₁]
    exact hs'

theorem vnodeDealloc_simulates (setattr : ℕ → Bool) (s : SwapSystem) (vs : ℕ) :
    Returns (vnodeDealloc setattr s vs) (fun s' => Vm.vnodeDealloc s.space vs = .ok s'.space) := by
  rw [vnodeDealloc]
  refine .bind_eq (fun v hv => .bind_eq (fun given hgiven => .bind_eq (fun f hf => ?_)))
  obtain ⟨t, seen⟩ := given
  refine .bind (truncateSeen_simulates seen _) (fun w hw => .pure ?_)
  rw [Vm.vnodeDealloc, hv]
  simp only [bind, Except.bind, hgiven]
  simp only [hf, hw]
  rfl

theorem freed_used {t u : PagingSpace} {v : Vstruct} {n : ℕ} (h : t.Ok) (hv : t.vstruct vs = some v)
    (hn : v.vsSize ≤ n) (hfreed : PagingSpace.Freed t.slot vs t n u seen) (w : PfEntry) :
    u.Used w ↔ t.Used w ∧ ∀ page, t.slot (vs, page) ≠ some w := by
  rw [hfreed.owned.used_iff, h.owned.used_iff]
  simp only [← h.restFrom_all hv hn]
  constructor
  · rintro ⟨k, hk⟩
    split_ifs at hk with hkv
    refine ⟨⟨k, hk⟩, fun page hpage => hkv ?_⟩
    rw [h.owned.inj _ _ _ hk hpage]
  · rintro ⟨⟨k, hk⟩, hno⟩
    refine ⟨k, (if_neg ?_).trans hk⟩
    rintro rfl
    exact hno k.2 hk

theorem Ok.dealloc (h : s.Ok) (hrun : vnodeDealloc setattr s vs = .ok s') :
    s'.Ok ∧ ∀ pf f last, s.space.pagerFile pf = some f → s.pfLowat pf ≠ 0 → s.HasLast vs pf last →
      (s'.Trimmed pf ↔ s.Trims setattr vs pf f last) := by
  have hspace := vnodeDealloc_simulates setattr s vs s' hrun
  rw [vnodeDealloc] at hrun
  cases hv : s.space.vstruct vs with
  | none =>
    rw [PagingSpace.getVstruct, hv] at hrun
    cases hrun
  | some v =>
    obtain ⟨n, t, seen, hmap, hn, hfreed⟩ := h.space.freeMap hv
    obtain ⟨hhigh, hmarks, hreleased, hcovers⟩ := h.space.noted h.high hv _ hmap
    obtain ⟨g, hg⟩ : ∃ g, t.pagerFile v.vsPf = some g := by
      rw [hfreed.files.live, hfreed.count, ← h.space.files.live]
      exact h.space.prefers vs v hv
    obtain ⟨hfiles, hused⟩ := hfreed.files.touch hg { g with pfCount := g.pfCount - 1 } rfl rfl rfl rfl
    have hgok := hhigh v.vsPf g hg
    obtain ⟨u, hu⟩ : ∃ u : SwapSystem, u = { s with space := t.setFile v.vsPf { g with pfCount := g.pfCount - 1 } } := ⟨_, rfl⟩
    simp only [bind, Except.bind, PagingSpace.getVstruct_eq hv, hmap, PagingSpace.getFile_eq hg, ← hu] at hrun
    cases hloop : truncateSeen setattr seen u with
    | error stop =>
      rw [hloop] at hrun
      cases hrun
    | ok w =>
      rw [hloop] at hrun
      cases hrun
      have huspace : u.space = t.setFile v.vsPf { g with pfCount := g.pfCount - 1 } := by rw [hu]
      have hulowat : u.pfLowat = s.pfLowat := by rw [hu]
      have husize : u.vnodeSize = s.vnodeSize := by rw [hu]
      have hucuts : u.cuts = s.cuts := by rw [hu]
      rw [← huspace] at hfiles hused
      have humarks : u.space.marks = s.space.marks := by
        rw [huspace]
        exact Eq.trans (PagingSpace.marks_setFile hg (by rfl) (by rfl)) hmarks
      have hkept : ∀ q p, u.space.Used ⟨q, p⟩ ↔ s.Kept vs q p :=
        fun q p => (hused _).trans (freed_used h.space hv hn hfreed ⟨q, p⟩)
      have hkeeps : Keeps u u := by
        refine ⟨hfiles, huspace ▸ hhigh.setFile ⟨hgok.npgs, hgok.hipage, hgok.used⟩, fun _ => .rfl, fun _ => id, rfl, ?_⟩
        intro c hc
        rw [hucuts] at hc
        rw [Spares, hulowat]
        exact ⟨fun p hp => (h.cuts c hc).1 p ((hkept _ _).mp hp).1, (h.cuts c hc).2⟩
      have hfile : ∀ q f, s.space.pagerFile q = some f →
          ∃ f', u.space.pagerFile q = some f' ∧ f'.pfNpgs = f.pfNpgs ∧ f'.pfHipage = f.pfHipage := by
        intro q f hf
        have hq := congrFun humarks q
        rw [PagingSpace.marks, PagingSpace.marks, hf, Option.map_some, Option.map_eq_some_iff] at hq
        obtain ⟨f', hf', heq⟩ := hq
        exact ⟨f', hf', (Prod.mk.inj heq).1, (Prod.mk.inj heq).2⟩
      have hgiven : ∀ e ∈ seen, Given u.space e := by
        intro e he
        obtain ⟨page, hpage⟩ := hreleased e he
        obtain ⟨f, hf, hlt, -⟩ := h.space.used_of_slot hpage
        obtain ⟨f', hf', hnpgs, -⟩ := hfile e.index f hf
        refine ⟨f', hf', hnpgs.symm ▸ hlt, ?_⟩
        by_contra hset
        exact ((hkept e.index e.offset).mp ⟨f', hf', hnpgs.symm ▸ hlt, by simpa using hset⟩).2 page hpage
      obtain ⟨hw, -⟩ := truncateSeen_keeps seen hkeeps hgiven hloop
      refine ⟨⟨?_, hw.high.of_pagerFile rfl, hw.cuts⟩, ?_⟩
      · obtain ⟨space, hdealloc, hok, -⟩ := h.space.dealloc hv
        cases hspace.symm.trans hdealloc
        exact hok
      · rintro pf f last hf hlowat ⟨⟨page, hpage⟩, hlast⟩
        obtain ⟨x, hx, hindex, hle⟩ := hcovers page ⟨pf, last⟩ hpage
        obtain ⟨page', hpage'⟩ := hreleased x hx
        have hxused := h.space.used_of_slot hpage'
        obtain rfl : x = ⟨pf, last⟩ := by
          obtain ⟨i, o⟩ := x
          obtain rfl : i = pf := hindex
          rw [Nat.le_antisymm (hlast o hxused) hle]
        obtain ⟨s₁, s₂, hcut, hkeeps₁, hsame₁, hsame₂⟩ := truncateSeen_at hkeeps hgiven hfreed.seen.nodup hx hloop
        obtain ⟨f', hf', hnpgs, hhipage⟩ := hfile pf f hf
        have hf₁ : s₁.space.pagerFile pf = some f' := hsame₁.file.trans hf'
        have hfun : (fun q => s₁.space.Used ⟨pf, q⟩) = s.Kept vs pf :=
          funext (fun q => propext ((hkeeps₁.used _).trans (hkept pf q)))
        have hfun' : (fun q => w.space.Used ⟨pf, q⟩) = s.Kept vs pf :=
          funext (fun q => propext ((hw.used _).trans (hkept pf q)))
        obtain ⟨f₀, hf₀, hlt, hset⟩ := hxused
        cases hf.symm.trans hf₀
        have hbefore : ∀ q, s₁.space.Used ⟨pf, q⟩ → q < last := by
          intro q hq
          obtain ⟨hqused, hqkept⟩ := (hkept pf q).mp ((hkeeps₁.used _).mp hq)
          refine lt_of_le_of_ne (hlast q hqused) ?_
          rintro rfl
          exact hqkept page hpage
        have htrims := truncate_trims hkeeps₁.files hkeeps₁.high hf₁ (hnpgs.symm ▸ hlt) hbefore
          (hhipage.symm ▸ (h.high pf f hf).used last hlt hset) (by rw [hkeeps₁.lowat, hulowat]; exact hlowat) hcut
        have hlowats : s₁.pfLowat = s.pfLowat := hkeeps₁.lowat.trans hulowat
        have hlowatw : w.pfLowat = s.pfLowat := hw.lowat.trans hulowat
        have hsizes : s₁.vnodeSize pf = s.vnodeSize pf := hsame₁.size.trans (congrFun husize pf)
        dsimp only at htrims
        rw [hfun, hlowats, hsizes, hhipage, ← hsame₂.size] at htrims
        change TrimmedTo (fun q => w.space.Used ⟨pf, q⟩) (w.pfLowat pf) (w.vnodeSize pf) ↔ _
        rw [hfun', hlowatw, htrims, Trims]
        simp only [hkeeps₁.used, hkept]

/-! ## Runs -/

theorem init_ok : init.Ok := by
  refine ⟨PagingSystem.init_ok.space, fun pf f hf => ?_, fun c hc => ?_⟩
  · cases hf
  · cases hc

theorem Ok.step (h : s.Ok) (ha : Allowed s ev) (hrun : s.step ev = .ok (r, s')) : s'.Ok := by
  cases ev with
  | swapon lowat hiwat size memory =>
    by_cases hroom : s.space.pagerFileCount + 1 < maxPagerFiles
    · obtain ⟨space, hinit, hok, -⟩ := h.space.fileInit hiwat memory hroom
      rw [SwapSystem.step, hinit] at hrun
      cases hrun
      exact ⟨hok, h.high.fileInit hiwat memory space hinit, fun c hc => by cases hc⟩
    · have hinit : vnodePagerFileInit s.space hiwat memory = .error .overrun := if_neg hroom
      rw [SwapSystem.step, hinit] at hrun
      cases hrun
  | create vs pf size kget =>
    rcases h.space.create kget size ha.1 ha.2 with hfail | ⟨space, hmade, hok, -⟩
    · rw [SwapSystem.step, hfail] at hrun
      cases hrun
      exact ⟨h.space, h.high, fun c hc => by cases hc⟩
    · have hhigh := h.high.create kget vs pf size _ hmade
      rw [SwapSystem.step, hmade] at hrun
      cases hrun
      exact ⟨hok, hhigh, fun c hc => by cases hc⟩
  | bmap vs fOffset flag kget =>
    cases hbmap : pagerfileBmap kget s.space vs fOffset flag with
    | error stop =>
      rw [SwapSystem.step, hbmap] at hrun
      cases hrun
    | ok out =>
      have hok := h.space.bmap_returns kget vs fOffset flag _ hbmap
      have hhigh := h.high.bmap kget vs fOffset flag _ hbmap
      rw [SwapSystem.step, hbmap] at hrun
      cases hrun
      exact ⟨hok, hhigh, fun c hc => by cases hc⟩
  | dealloc vs setattr =>
    cases hdealloc : vnodeDealloc setattr { s with cuts := [] } vs with
    | error stop =>
      rw [SwapSystem.step, hdealloc] at hrun
      cases hrun
    | ok w =>
      rw [SwapSystem.step, hdealloc] at hrun
      cases hrun
      have hstart : Ok { s with cuts := [] } := ⟨h.space, h.high, fun c hc => by cases hc⟩
      exact (hstart.dealloc hdealloc).1

theorem Runs.ok (hr : Runs init evs s) : s.Ok := by
  refine RunUnder.invariant ?_ hr init_ok
  rintro s ev s' h ha ⟨r, hstep⟩
  exact h.step ha hstep

/-- No page in use is above the recorded one, and every size that was set spares the pages in use and the
mark. The end of a pager that has the last page of a file leaves no page in it to be cut just when the
file was small enough before, or the cut is made. -/
theorem truncate_spares (hr : Runs init evs s) :
    (∀ pf f p, s.space.pagerFile pf = some f → s.space.Used ⟨pf, p⟩ → (p : ℤ) ≤ f.pfHipage) ∧
    (∀ c ∈ s.cuts, s.Spares c.1 c.2) ∧
    ∀ vs setattr r s' pf f last, s.step (.dealloc vs setattr) = .ok (r, s') → s.space.pagerFile pf = some f →
      s.pfLowat pf ≠ 0 → s.HasLast vs pf last → (s'.Trimmed pf ↔ s.Trims setattr vs pf f last) := by
  have h := hr.ok
  refine ⟨?_, h.cuts, ?_⟩
  · rintro pf f p hf ⟨g, hg, hlt, hset⟩
    cases hf.symm.trans hg
    exact (h.high pf f hf).used p hlt hset
  · intro vs setattr r s' pf f last hrun hf hlowat hlast
    have hstart : Ok { s with cuts := [] } := ⟨h.space, h.high, fun c hc => by cases hc⟩
    cases hdealloc : vnodeDealloc setattr { s with cuts := [] } vs with
    | error stop =>
      rw [SwapSystem.step, hdealloc] at hrun
      cases hrun
    | ok w =>
      rw [SwapSystem.step, hdealloc] at hrun
      cases hrun
      exact (hstart.dealloc hdealloc).2 pf f last hf hlowat hlast

/-- Two pagers share a file of four pages with a mark of one. The one with the last page goes, and the file
is cut to the two pages that are kept. -/
theorem truncate_spares_two : ∃ evs s r s', Runs init evs s ∧ s.step (.dealloc 6 (fun _ => true)) = .ok (r, s') ∧
    s.HasLast 6 1 2 ∧ s'.Trimmed 1 ∧ s'.vnodeSize 1 = 8192 := by
  have h₁ : Runs init [.swapon 4096 16384 4096 (fun _ => true)] _ := .snoc (.nil init) ⟨trivial, .success, rfl⟩
  have h₂ : Runs init (_ ++ [.create 5 1 8192 (fun _ => true)]) _ :=
    .snoc h₁ ⟨⟨rfl, Option.some_ne_none _⟩, .success, rfl⟩
  have h₃ : Runs init (_ ++ [.create 6 1 4096 (fun _ => true)]) _ :=
    .snoc h₂ ⟨⟨rfl, Option.some_ne_none _⟩, .success, rfl⟩
  have h₄ : Runs init (_ ++ [.bmap 5 0 .write (fun _ => true)]) _ := .snoc h₃ ⟨trivial, .success, rfl⟩
  have h₅ : Runs init (_ ++ [.bmap 5 4096 .write (fun _ => true)]) _ := .snoc h₄ ⟨trivial, .success, rfl⟩
  have h₆ : Runs init (_ ++ [.bmap 6 0 .write (fun _ => true)]) _ := .snoc h₅ ⟨trivial, .success, rfl⟩
  refine ⟨_, _, .success, _, h₆, rfl, ?last, ((truncate_spares h₆).2.2 6 (fun _ => true) .success _ 1 _ 2 rfl rfl
    (by decide) ?last).mpr (.inr ⟨rfl, rfl, 1, by decide, ⟨_, rfl, by decide, by decide⟩, ?kept⟩), by decide⟩
  case last =>
    refine ⟨⟨0, rfl⟩, ?_⟩
    rintro q ⟨g, hg, hlt, hset⟩
    cases hg
    change q < 4 at hlt
    by_contra hq
    obtain rfl : q = 3 := by omega
    exact absurd hset (by decide)
  case kept =>
    intro page hpage
    cases page with
    | zero => cases hpage
    | succ n => cases hpage

/-- A pager is alone with two pages in a file with a mark of one. When it goes no page is in use, and the file
keeps the size of two. -/
theorem last_page_stays : ∃ evs s r s', Runs init evs s ∧ s.step (.dealloc 5 (fun _ => true)) = .ok (r, s') ∧
    s.pfLowat 1 = 1 ∧ s.HasLast 5 1 1 ∧ (∀ p, ¬ s'.space.Used ⟨1, p⟩) ∧ s'.vnodeSize 1 = 8192 ∧ ¬ s'.Trimmed 1 := by
  have h₁ : Runs init [.swapon 4096 8192 4096 (fun _ => true)] _ := .snoc (.nil init) ⟨trivial, .success, rfl⟩
  have h₂ : Runs init (_ ++ [.create 5 1 8192 (fun _ => true)]) _ :=
    .snoc h₁ ⟨⟨rfl, Option.some_ne_none _⟩, .success, rfl⟩
  have h₃ : Runs init (_ ++ [.bmap 5 0 .write (fun _ => true)]) _ := .snoc h₂ ⟨trivial, .success, rfl⟩
  have h₄ : Runs init (_ ++ [.bmap 5 4096 .write (fun _ => true)]) _ := .snoc h₃ ⟨trivial, .success, rfl⟩
  refine ⟨_, _, .success, _, h₄, rfl, by decide, ⟨⟨1, rfl⟩, ?_⟩, ?unused, by decide,
    fun htrimmed => absurd (htrimmed 1 (by decide) (fun q hq => absurd hq (?unused q))) (by decide)⟩
  case unused =>
    rintro p ⟨g, hg, hlt, hset⟩
    cases hg
    change p < 2 at hlt
    obtain rfl | rfl : p = 0 ∨ p = 1 := by omega
    · exact absurd hset (by decide)
    · exact absurd hset (by decide)
  · rintro q ⟨g, hg, hlt, -⟩
    cases hg
    exact Nat.le_of_lt_succ hlt

end SwapSystem

end Darwin.Vm
