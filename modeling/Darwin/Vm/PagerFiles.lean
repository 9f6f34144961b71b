import Darwin.Lib.Referrers
import Darwin.Lib.Returns
import Darwin.Vm.VnodePager

/-! # Pages of pager files

The bit map of a pager file, its count of free pages and its hint agree.
-/
namespace Darwin.Vm
open Darwin.Lib Function

variable {s s' : PagingSpace} {f : PagerFile} {pf p q : ℕ} {e w : PfEntry}

/-- The number of free pages. -/
def PagerFile.clearBits (f : PagerFile) : ℕ := referrers (some ∘ f.pfBmap) f.pfNpgs false

theorem clearBits_update (f' : PagerFile) {b : Bool} (hp : p < f.pfNpgs)
    (hmap : f'.pfBmap = update f.pfBmap p b) (hnpgs : f'.pfNpgs = f.pfNpgs) :
    f'.clearBits + (if f.pfBmap p = false then 1 else 0) = f.clearBits + if b = false then 1 else 0 := by
  have hupdate := referrers_update (f := some ∘ f.pfBmap) (a := false) (some b) hp
  rw [← comp_update, ← hmap] at hupdate
  simpa [PagerFile.clearBits, hnpgs] using hupdate

structure PagerFile.Ok (f : PagerFile) : Prop where
  npgs : f.pfNpgs ≤ 2 ^ 20
  pfree : f.pfPfree = f.clearBits
  hint : ∀ p < f.pfHint, f.pfBmap p = true

namespace PagingSpace

structure FilesOk (s : PagingSpace) : Prop where
  count : s.pagerFileCount < maxPagerFiles
  live : ∀ pf, (∃ f, s.pagerFile pf = some f) ↔ 1 ≤ pf ∧ pf ≤ s.pagerFileCount
  file : ∀ pf f, s.pagerFile pf = some f → f.Ok

/-- The page is in use. -/
def Used (s : PagingSpace) (e : PfEntry) : Prop :=
  ∃ f, s.pagerFile e.index = some f ∧ e.offset < f.pfNpgs ∧ f.pfBmap e.offset = true

@[simp] theorem setFile_self : (s.setFile pf f).pagerFile pf = some f := update_self ..
theorem setFile_of_ne (h : q ≠ pf) : (s.setFile pf f).pagerFile q = s.pagerFile q := update_of_ne h ..
@[simp] theorem setFile_count : (s.setFile pf f).pagerFileCount = s.pagerFileCount := rfl
@[simp] theorem setFile_vstruct : (s.setFile pf f).vstruct = s.vstruct := rfl

theorem getFile_eq (h : s.pagerFile pf = some f) : s.getFile pf = .ok f := by
  rw [getFile, h]

theorem FilesOk.pagerFileList_eq (h : s.FilesOk) (hf : s.pagerFile pf = some f) : s.pagerFileList pf = .ok f := by
  have hcount := h.count
  have hle := ((h.live pf).mp ⟨f, hf⟩).2
  rw [pagerFileList, if_pos (by omega), getFile_eq hf]

theorem FilesOk.setFile (h : s.FilesOk) (hf : s.pagerFile pf = some f) {f' : PagerFile} (hok : f'.Ok) :
    (s.setFile pf f').FilesOk := by
  refine ⟨h.count, ?_, ?_⟩
  · intro q
    rw [setFile_count, ← h.live q]
    by_cases hq : q = pf
    · subst hq
      simp [hf]
    · rw [setFile_of_ne hq]
  · intro q g hg
    by_cases hq : q = pf
    · subst hq
      rw [setFile_self] at hg
      cases hg
      exact hok
    · rw [setFile_of_ne hq] at hg
      exact h.file q g hg

theorem used_setFile (f' : PagerFile) {b : Bool} (hf : s.pagerFile pf = some f) (hp : p < f.pfNpgs)
    (hmap : f'.pfBmap = update f.pfBmap p b) (hnpgs : f'.pfNpgs = f.pfNpgs) :
    (s.setFile pf f').Used w ↔ if w = ⟨pf, p⟩ then b = true else s.Used w := by
  rw [Used]
  by_cases hw : w.index = pf
  · subst hw
    rw [setFile_self]
    simp only [Option.some.injEq, exists_eq_left', hnpgs, hmap]
    by_cases ho : w.offset = p
    · subst ho
      rw [if_pos rfl, update_self]
      exact and_iff_right hp
    · rw [if_neg (fun heq => ho (congrArg PfEntry.offset heq)), update_of_ne ho, Used, hf]
      simp
  · rw [setFile_of_ne hw, if_neg (fun heq => hw (congrArg PfEntry.index heq)), Used]

end PagingSpace

/-! ## The search -/

theorem PagerFile.Ok.clear_exists (h : f.Ok) (hfree : f.pfPfree ≠ 0) : ∃ p < f.pfNpgs, f.pfBmap p = false := by
  by_contra hall
  push Not at hall
  refine hfree (h.pfree.trans (referrers_eq_zero (fun p hp heq => ?_)))
  exact hall p hp (Option.some.inj heq)

theorem PagerFile.byteFull_iff {bp : ℕ} : f.byteFull bp = true ↔ ∀ i < nbby, f.pfBmap (bp * nbby + i) = true := by
  simp [byteFull]

theorem PagerFile.Ok.searchPage (h : f.Ok) (hfree : f.pfPfree ≠ 0) :
    f.searchPage < f.pfNpgs ∧ f.pfBmap f.searchPage = false ∧ ∀ p < f.searchPage, f.pfBmap p = true := by
  obtain ⟨q, hq, hclear⟩ := h.clear_exists hfree
  have hhint : f.pfHint ≤ q := by
    by_contra hlt
    rw [h.hint q (by omega)] at hclear
    cases hclear
  have hbyte : f.byteFull (q / nbby) = false := by
    rw [Bool.eq_false_iff]
    intro hfull
    have hbit := PagerFile.byteFull_iff.mp hfull (q % nbby) (Nat.mod_lt q (by decide))
    rw [Nat.mul_comm, Nat.div_add_mod, hclear] at hbit
    cases hbit
  obtain ⟨bp, hbp⟩ : ∃ bp, (List.range' (f.pfHint / nbby) (howmany f.pfNpgs nbby - f.pfHint / nbby)).find?
      (fun bp => !f.byteFull bp) = some bp := by
    refine Option.isSome_iff_exists.mp (List.find?_isSome.mpr ⟨q / nbby, ?_, by simp [hbyte]⟩)
    rw [List.mem_range'_1, howmany, nbby]
    omega
  obtain ⟨hnotfull, hin, hbefore⟩ := List.find?_range'_eq_some.mp hbp
  obtain ⟨i, hi⟩ : ∃ i, (List.range nbby).find? (fun i => !f.pfBmap (bp * nbby + i)) = some i := by
    refine Option.isSome_iff_exists.mp (List.find?_isSome.mpr ?_)
    by_contra hall
    push Not at hall
    have hfull : f.byteFull bp = true :=
      PagerFile.byteFull_iff.mpr (fun i hi => by simpa using hall i (List.mem_range.mpr hi))
    simp [hfull] at hnotfull
  obtain ⟨hfound, hlt, hfirst⟩ := List.find?_range_eq_some.mp hi
  have hpage : f.searchPage = bp * nbby + i := by
    rw [PagerFile.searchPage, hbp]
    simp only [hi, Option.getD_some]
  have hset : ∀ p < bp * nbby + i, f.pfBmap p = true := by
    intro p hp
    by_cases hph : p < f.pfHint
    · exact h.hint p hph
    by_cases hpb : p / nbby < bp
    · have hfull := hbefore (p / nbby) (Nat.div_le_div_right (not_lt.mp hph)) hpb
      have hbit := PagerFile.byteFull_iff.mp (by simpa using hfull) (p % nbby) (Nat.mod_lt p (by decide))
      rwa [Nat.mul_comm, Nat.div_add_mod] at hbit
    · have hdiv := Nat.div_add_mod p nbby
      have hmod := Nat.mod_lt p (show 0 < nbby by decide)
      rw [nbby] at *
      have hbit := hfirst (p - bp * 8) (by omega)
      rw [show bp * 8 + (p - bp * 8) = p by omega] at hbit
      simpa using hbit
  rw [hpage]
  refine ⟨?_, by simpa using hfound, hset⟩
  by_contra hge
  rw [hset q (by omega)] at hclear
  cases hclear

/-! ## Allocation and deallocation -/

namespace PagingSpace

theorem FilesOk.allocpage (h : s.FilesOk) (hf : s.pagerFile pf = some f) (hfree : f.pfPfree ≠ 0) :
    ∃ page f', vnodePagerAllocpage s pf = .ok (some page, s.setFile pf f') ∧ f'.Ok ∧ page < f.pfNpgs ∧
      f.pfBmap page = false ∧ f'.pfBmap = update f.pfBmap page true ∧ f'.pfNpgs = f.pfNpgs := by
  have hok := h.file pf f hf
  obtain ⟨hlt, hclear, hbelow⟩ := hok.searchPage hfree
  let f' : PagerFile := { f with
    pfHipage := if f.pfHipage < f.searchPage then f.searchPage else f.pfHipage
    pfBmap := update f.pfBmap f.searchPage true
    pfPfree := f.pfPfree - 1
    pfHint := f.searchPage }
  refine ⟨f.searchPage, f', ?_, ⟨hok.npgs, ?_, ?_⟩, hlt, hclear, rfl, rfl⟩
  · rw [vnodePagerAllocpage, getFile_eq hf]
    simp only [bind, Except.bind, pure, Except.pure]
    rw [if_neg hfree, if_neg (by omega)]
  · have hcount := clearBits_update f' hlt rfl rfl
    have hpfree := hok.pfree
    rw [if_pos hclear, if_neg (by simp)] at hcount
    change f.pfPfree - 1 = _
    omega
  · intro p hp
    by_cases hps : p = f.searchPage
    · rw [hps]
      exact update_self ..
    · exact (update_of_ne hps ..).trans (hbelow p hp)

theorem FilesOk.findpageLoop (preferPf fuel : ℕ) (h : s.FilesOk) (hf : s.pagerFile pf = some f) (hfree : f.pfPfree ≠ 0) :
    ∃ page f', Vm.findpageLoop preferPf (fuel + 1) s pf = .ok (.success, ⟨pf, page⟩, s.setFile pf f') ∧ f'.Ok ∧
      page < f.pfNpgs ∧ f.pfBmap page = false ∧ ∀ w, (s.setFile pf f').Used w ↔ s.Used w ∨ w = ⟨pf, page⟩ := by
  obtain ⟨page, f', hrun, hok', hlt, hclear, hmap, hnpgs⟩ := h.allocpage hf hfree
  have hpf := (h.live pf).mp ⟨f, hf⟩
  have hcount := h.count
  have hsize := (h.file pf f hf).npgs
  have hindex : pf % 2 ^ 8 = pf := Nat.mod_eq_of_lt (by rw [maxPagerFiles] at hcount; omega)
  have hoffset : page % 2 ^ 24 = page := Nat.mod_eq_of_lt (by omega)
  refine ⟨page, f', ?_, hok', hlt, hclear, fun w => ?_⟩
  · rw [Vm.findpageLoop, hrun]
    simp only [bind, Except.bind, pure, Except.pure, hindex, hoffset]
  · rw [used_setFile _ hf hlt hmap hnpgs]
    split_ifs with hw
    · simp [hw]
    · simp [hw]

/-- A page was free, and is in use now. -/
structure Found (s : PagingSpace) (e : PfEntry) (s' : PagingSpace) : Prop where
  files : s'.FilesOk
  index : e.index ≠ indexNull
  fresh : ¬ s.Used e
  used : ∀ w, s'.Used w ↔ s.Used w ∨ w = e
  vstruct : s'.vstruct = s.vstruct
  count : s'.pagerFileCount = s.pagerFileCount

theorem FilesOk.found (preferPf fuel : ℕ) (h : s.FilesOk) (hf : s.pagerFile pf = some f) (hfree : f.pfPfree ≠ 0) :
    ∃ e s', Vm.findpageLoop preferPf (fuel + 1) s pf = .ok (.success, e, s') ∧ Found s e s' := by
  obtain ⟨page, f', hrun, hok', -, hclear, hused⟩ := h.findpageLoop preferPf fuel hf hfree
  refine ⟨⟨pf, page⟩, s.setFile pf f', hrun, h.setFile hf hok', ?_, ?_, hused, rfl, rfl⟩
  · rw [indexNull]
    exact Nat.ne_of_gt ((h.live pf).mp ⟨f, hf⟩).1
  · rintro ⟨g, hg, -, hset⟩
    cases hf.symm.trans hg
    cases hclear.symm.trans hset

theorem FilesOk.findpage_returns {preferPf : ℕ} (fuel pf : ℕ) (h : s.FilesOk) (hle : preferPf ≤ pf) :
    Returns (Vm.findpageLoop preferPf fuel s pf) (fun r => r.1 = .success ∧ Found s r.2.1 r.2.2) := by
  induction fuel generalizing pf with
  | zero => exact .error _
  | succ fuel ih =>
    cases hf : s.pagerFile pf with
    | none =>
      rw [Vm.findpageLoop, vnodePagerAllocpage, getFile, hf]
      exact .error _
    | some f =>
      by_cases hfree : f.pfPfree = 0
      · rw [Vm.findpageLoop, vnodePagerAllocpage, getFile_eq hf]
        simp only [bind, Except.bind, pure, Except.pure]
        rw [if_pos hfree]
        simp only [show preferPf ≠ pf + 1 by omega, if_false]
        exact ih (pf + 1) (by omega)
      · obtain ⟨e, s', hrun, hfound⟩ := h.found preferPf fuel hf hfree
        rw [hrun]
        exact .pure ⟨rfl, hfound⟩

theorem deallocpage_null (he : e.index = indexNull) : vnodePagerDeallocpage s e = .ok s := by
  rw [vnodePagerDeallocpage, if_pos he]
  rfl

theorem FilesOk.index_ne_null (h : s.FilesOk) (he : s.Used e) : e.index ≠ indexNull := by
  obtain ⟨f, hf, -⟩ := he
  exact Nat.ne_of_gt ((h.live e.index).mp ⟨f, hf⟩).1

theorem FilesOk.deallocpage (h : s.FilesOk) (he : s.Used e) :
    ∃ s', vnodePagerDeallocpage s e = .ok s' ∧ s'.FilesOk ∧ (∀ w, s'.Used w ↔ s.Used w ∧ w ≠ e) ∧
      s'.vstruct = s.vstruct ∧ s'.pagerFileCount = s.pagerFileCount := by
  have hnull := h.index_ne_null he
  obtain ⟨f, hf, hlt, hset⟩ := he
  have hok := h.file e.index f hf
  let f' : PagerFile := { f with
    pfHint := if e.offset < f.pfHint then e.offset else f.pfHint
    pfBmap := update f.pfBmap e.offset false
    pfPfree := f.pfPfree + 1 }
  have hok' : f'.Ok := by
    refine ⟨hok.npgs, ?_, ?_⟩
    · have hcount := clearBits_update f' hlt rfl rfl
      have hpfree := hok.pfree
      rw [if_neg (by simp [hset]), if_pos rfl] at hcount
      change f.pfPfree + 1 = _
      omega
    · intro p hp
      change p < if e.offset < f.pfHint then e.offset else f.pfHint at hp
      have hne : p ≠ e.offset ∧ p < f.pfHint := by
        split_ifs at hp <;> omega
      exact (update_of_ne hne.1 ..).trans (hok.hint p hne.2)
  refine ⟨s.setFile e.index f', ?_, h.setFile hf hok', ?_, rfl, rfl⟩
  · rw [vnodePagerDeallocpage, if_neg hnull, h.pagerFileList_eq hf]
    simp only [bind, Except.bind, pure, Except.pure]
    rw [if_neg (by omega)]
  · intro w
    rw [used_setFile f' hf hlt rfl rfl]
    split_ifs with hw
    · simp [hw]
    · simp only [iff_self_and]
      exact fun _ => hw

end PagingSpace

end Darwin.Vm
