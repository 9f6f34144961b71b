import Darwin.Vm.PagerFiles

/-! # The search for a page in some pager file

The walk from the preferred file tests each file itself for the end of the queue, never the head, so
it does not come back to the first file. It is right as long as it ends before the last one is left.
-/
namespace Darwin.Vm
open Darwin.Lib

namespace PagingSpace

/-- `vnode_pager_findpage` with the preferred file, or `none` for `PAGER_FILE_NULL`. -/
def findpage (s : PagingSpace) (preferPf : Option ℕ) : Except PagerStop (PagerReturn × PfEntry × PagingSpace) :=
  match preferPf with
  | some pf => vnodePagerFindpage s pf
  | none => if s.pagerFileCount = 0 then .ok (.failure, .null, s) else vnodePagerFindpage s 1

/-- The file has no free page. -/
def full (s : PagingSpace) (pf : ℕ) : Bool :=
  match s.pagerFile pf with
  | some f => f.pfPfree = 0
  | none => true

/-- The files in the order of the queue, from `pf` on and around its head. -/
def cyclic (s : PagingSpace) (pf : ℕ) : List ℕ :=
  List.range' pf (s.pagerFileCount + 1 - pf) ++ List.range' 1 (pf - 1)

/-- The search takes a free page of the first file in cyclic order that has one, and fails without a
change when there is none. -/
def FindsPage (s : PagingSpace) (preferPf : Option ℕ) : Prop :=
  match (s.cyclic (preferPf.getD 1)).find? (fun pf => !s.full pf) with
  | some pf => ∃ f page s', s.findpage preferPf = .ok (.success, ⟨pf, page⟩, s') ∧ s.pagerFile pf = some f ∧
      page < f.pfNpgs ∧ f.pfBmap page = false ∧ (∀ w, s'.Used w ↔ s.Used w ∨ w = ⟨pf, page⟩) ∧
      ∀ q, q ≠ pf → s'.pagerFile q = s.pagerFile q
  | none => s.findpage preferPf = .ok (.failure, .null, s)

section walk
variable {s : PagingSpace} {f : PagerFile} {pf n fuel preferPf : ℕ}

theorem findpageLoop_full (hf : s.pagerFile pf = some f) (hfull : s.full pf = true) (hne : preferPf ≠ pf + 1) :
    findpageLoop preferPf (fuel + 1) s pf = findpageLoop preferPf fuel s (pf + 1) := by
  have hpfree : f.pfPfree = 0 := by simpa [full, hf] using hfull
  rw [findpageLoop, vnodePagerAllocpage, getFile_eq hf]
  simp only [bind, Except.bind, pure, Except.pure]
  rw [if_pos hpfree]
  simp only [if_neg hne]

theorem findpageLoop_passes (h : s.FilesOk) (hpf : 1 ≤ pf) (hprefer : preferPf ≤ pf)
    (hlast : pf + n ≤ s.pagerFileCount + 1) (hfull : ∀ q, pf ≤ q → q < pf + n → s.full q = true) :
    findpageLoop preferPf (fuel + n) s pf = findpageLoop preferPf fuel s (pf + n) := by
  induction n generalizing pf with
  | zero => rfl
  | succ n ih =>
    obtain ⟨f, hf⟩ := (h.live pf).mpr ⟨hpf, by omega⟩
    have hrest : ∀ q, pf + 1 ≤ q → q < pf + 1 + n → s.full q = true :=
      fun q hle hlt => hfull q (by omega) (by omega)
    rw [← Nat.add_assoc, findpageLoop_full hf (hfull pf (Nat.le_refl pf) (by omega)) (by omega),
      ih (by omega) (by omega) (by omega) hrest, Nat.add_right_comm pf 1 n, Nat.add_assoc]

theorem findpageLoop_strays (h : s.FilesOk) : findpageLoop preferPf fuel s (s.pagerFileCount + 1) = .error .stray := by
  cases fuel with
  | zero => rfl
  | succ fuel =>
    have hnone : s.pagerFile (s.pagerFileCount + 1) = none := by
      rw [Option.eq_none_iff_forall_ne_some]
      intro f hf
      have hlive := ((h.live (s.pagerFileCount + 1)).mp ⟨f, hf⟩).2
      omega
    rw [findpageLoop, vnodePagerAllocpage, getFile, hnone]
    rfl

end walk

/-- Of a set of files with the preferred one among them, or with none preferred, the search is right
just when some file from there to the last of the queue has a free page. -/
theorem findpage_iff {s : PagingSpace} (h : s.FilesOk) (hne : s.pagerFileCount ≠ 0) {preferPf : Option ℕ}
    (hprefer : ∀ pf ∈ preferPf, ∃ f, s.pagerFile pf = some f) :
    s.FindsPage preferPf ↔ ∃ pf, preferPf.getD 1 ≤ pf ∧ pf ≤ s.pagerFileCount ∧ s.full pf = false := by
  obtain ⟨start, hstart⟩ : ∃ start, preferPf.getD 1 = start := ⟨_, rfl⟩
  have hrange : 1 ≤ start ∧ start ≤ s.pagerFileCount := by
    cases preferPf with
    | none =>
      obtain rfl : 1 = start := hstart
      omega
    | some pf =>
      obtain rfl : pf = start := hstart
      exact (h.live pf).mp (hprefer pf rfl)
  have hrun : s.findpage preferPf = findpageLoop start (s.pagerFileCount + 1) s start := by
    cases preferPf with
    | none =>
      obtain rfl : 1 = start := hstart
      exact if_neg hne
    | some pf =>
      obtain rfl : pf = start := hstart
      rfl
  rw [FindsPage, cyclic, hstart, hrun, List.find?_append]
  cases hfind : (List.range' start (s.pagerFileCount + 1 - start)).find? (fun pf => !s.full pf) with
  | some pf =>
    obtain ⟨hfree, hin, hbefore⟩ := List.find?_range'_eq_some.mp hfind
    rw [List.mem_range'_1] at hin
    have hfree' : s.full pf = false := by simpa using hfree
    obtain ⟨f, hf⟩ := (h.live pf).mpr ⟨by omega, by omega⟩
    have hpasses : findpageLoop start (s.pagerFileCount - pf + start + 1 + (pf - start)) s start =
        findpageLoop start (s.pagerFileCount - pf + start + 1) s (start + (pf - start)) :=
      findpageLoop_passes h hrange.1 (Nat.le_refl start) (by omega)
        (fun q hle hlt => by simpa using hbefore q hle (by omega))
    rw [show s.pagerFileCount - pf + start + 1 + (pf - start) = s.pagerFileCount + 1 by omega,
      show start + (pf - start) = pf by omega] at hpasses
    have hpfree : f.pfPfree ≠ 0 := by simpa [full, hf] using hfree'
    obtain ⟨page, f', hfound, -, hlt, hclear, hused⟩ :=
      h.findpageLoop start (s.pagerFileCount - pf + start) hf hpfree
    refine iff_of_true ?_ ⟨pf, by omega, by omega, hfree'⟩
    exact ⟨f, page, s.setFile pf f', hpasses.trans hfound, hf, hlt, hclear, hused, fun q hq => setFile_of_ne hq⟩
  | none =>
    have hall : ∀ pf, start ≤ pf → pf ≤ s.pagerFileCount → s.full pf = true := by
      intro pf hle hlast
      simpa using List.find?_range'_eq_none.mp hfind pf hle (by omega)
    have hstray : findpageLoop start (s.pagerFileCount + 1) s start = .error .stray := by
      have hpasses : findpageLoop start (start + (s.pagerFileCount + 1 - start)) s start =
          findpageLoop start start s (start + (s.pagerFileCount + 1 - start)) :=
        findpageLoop_passes h hrange.1 (Nat.le_refl start) (by omega)
          (fun q hle hlt => hall q hle (by omega))
      rw [show start + (s.pagerFileCount + 1 - start) = s.pagerFileCount + 1 by omega] at hpasses
      exact hpasses.trans (findpageLoop_strays h)
    refine iff_of_false ?_ ?_
    · rw [hstray]
      split
      · rintro ⟨f, page, s', hok, -⟩
        cases hok
      · intro hok
        cases hok
    · rintro ⟨pf, hle, hlast, hfree⟩
      rw [hall pf hle hlast] at hfree
      cases hfree

/-- Two files of one page, of which the second one is full. -/
def lastFull : PagingSpace where
  pagerFile pf := if pf = 1 then some ⟨fun _ => false, 1, 1, -1, 0, 0⟩
    else if pf = 2 then some ⟨fun _ => true, 1, 0, 0, 0, 0⟩ else none
  pagerFileCount := 2
  vstruct _ := none

theorem lastFull_ok : lastFull.FilesOk := by
  refine ⟨by decide, ?_, ?_⟩
  · intro pf
    have hcases : pf = 1 ∨ pf = 2 ∨ pf ≠ 1 ∧ pf ≠ 2 := by omega
    obtain rfl | rfl | ⟨h1, h2⟩ := hcases
    · exact iff_of_true ⟨_, rfl⟩ (by decide)
    · exact iff_of_true ⟨_, rfl⟩ (by decide)
    · refine iff_of_false ?_ (fun hle => ?_)
      · simp [lastFull, h1, h2]
      · have hcount : lastFull.pagerFileCount = 2 := rfl
        omega
  · intro pf f hf
    simp only [lastFull] at hf
    split_ifs at hf
    · cases hf
      exact ⟨by decide, by decide, fun p hp => absurd hp (Nat.not_lt_zero p)⟩
    · cases hf
      exact ⟨by decide, by decide, fun p hp => absurd hp (Nat.not_lt_zero p)⟩

/-- With the second file preferred there is a free page, and the head of the queue is used as a file. -/
theorem findpage_leaves_queue : lastFull.FilesOk ∧ lastFull.cyclic 2 = [2, 1] ∧ lastFull.full 1 = false ∧
    lastFull.findpage (some 2) = .error .stray ∧ ¬ lastFull.FindsPage (some 2) := by
  have hrun : lastFull.findpage (some 2) = .error .stray := rfl
  refine ⟨lastFull_ok, rfl, rfl, hrun, ?_⟩
  change ¬ ∃ f page s', lastFull.findpage (some 2) = .ok (.success, ⟨1, page⟩, s') ∧ _
  rintro ⟨f, page, s', hok, -⟩
  rw [hrun] at hok
  cases hok

/-- With the first one preferred the search is right. -/
theorem findpage_iff_first : lastFull.FindsPage (some 1) := by
  have hlive : ∀ pf ∈ some 1, ∃ f, lastFull.pagerFile pf = some f := by
    intro pf hpf
    cases hpf
    exact ⟨_, rfl⟩
  exact (findpage_iff lastFull_ok (by decide) hlive).mpr ⟨1, by decide, by decide, by decide⟩

end PagingSpace

end Darwin.Vm
