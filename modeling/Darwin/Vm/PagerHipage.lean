import Darwin.Vm.PagerRuns

/-! # The highest page of a pager file

No page in use is above the recorded highest one. The record rises with the pages that are taken, and is
looked for anew only from the highest page of each file that the end of a pager has given up.
-/
namespace Darwin.Vm
open Darwin.Lib Function List

variable {s s' : PagingSpace} {v : Vstruct} {f : PagerFile} {vs pf n : ℕ} {e : PfEntry} {es seen seen' : List PfEntry}
  {slot : ℕ × ℕ → Option PfEntry} {kget : KgetSite → Bool}

structure PagerFile.HighOk (f : PagerFile) : Prop where
  npgs : f.pfNpgs < 2 ^ 20
  hipage : f.pfHipage < f.pfNpgs
  used : ∀ p < f.pfNpgs, f.pfBmap p = true → (p : ℤ) ≤ f.pfHipage

namespace PagingSpace

def FilesHigh (s : PagingSpace) : Prop := ∀ pf f, s.pagerFile pf = some f → f.HighOk

theorem FilesHigh.setFile (h : s.FilesHigh) (hf : f.HighOk) : (s.setFile pf f).FilesHigh := by
  intro q g hg
  by_cases hq : q = pf
  · subst hq
    cases setFile_self.symm.trans hg
    exact hf
  · exact h q g ((setFile_of_ne hq).symm.trans hg)

theorem FilesHigh.of_pagerFile (h : s.FilesHigh) (heq : s'.pagerFile = s.pagerFile) : s'.FilesHigh := by
  rw [FilesHigh, heq]
  exact h

theorem pagerFile_of_get (hf : s.getFile pf = .ok f) : s.pagerFile pf = some f := by
  rw [getFile] at hf
  split at hf
  · cases hf
    assumption
  · cases hf

theorem pagerFile_of_list (hf : s.pagerFileList pf = .ok f) : s.pagerFile pf = some f := by
  rw [pagerFileList] at hf
  split_ifs at hf
  exact pagerFile_of_get hf

/-- What a page that is given up does not change. -/
def marks (s : PagingSpace) (pf : ℕ) : Option (ℕ × ℤ) := (s.pagerFile pf).map (fun f => (f.pfNpgs, f.pfHipage))

theorem marks_setFile {f' : PagerFile} (hf : s.pagerFile pf = some f) (hnpgs : f'.pfNpgs = f.pfNpgs)
    (hhipage : f'.pfHipage = f.pfHipage) : (s.setFile pf f').marks = s.marks := by
  funext q
  by_cases hq : q = pf
  · subst hq
    rw [marks, setFile_self, marks, hf, Option.map_some, Option.map_some, hnpgs, hhipage]
  · rw [marks, setFile_of_ne hq, marks]

/-! ## Pages taken and given up -/

theorem FilesHigh.allocpage (pf : ℕ) (h : s.FilesHigh) :
    Returns (vnodePagerAllocpage s pf) (fun r => r.2.FilesHigh) := by
  cases hf : s.pagerFile pf with
  | none =>
    rw [vnodePagerAllocpage, getFile, hf]
    exact .error _
  | some f =>
    have hok := h pf f hf
    have hhigh := hok.hipage
    rw [vnodePagerAllocpage, getFile_eq hf]
    simp only [bind, Except.bind, pure, Except.pure]
    by_cases hfree : f.pfPfree = 0
    · rw [if_pos hfree]
      exact .pure h
    rw [if_neg hfree]
    by_cases hpage : f.pfNpgs ≤ f.searchPage
    · rw [if_pos hpage]
      exact .error _
    · rw [if_neg hpage]
      refine .pure (h.setFile ⟨hok.npgs, ?_, fun p hp hset => ?_⟩)
      · change (if f.pfHipage < f.searchPage then (f.searchPage : ℤ) else f.pfHipage) < f.pfNpgs
        split_ifs <;> omega
      · change (p : ℤ) ≤ if f.pfHipage < f.searchPage then (f.searchPage : ℤ) else f.pfHipage
        by_cases hps : p = f.searchPage
        · split_ifs <;> omega
        · have hle := hok.used p hp ((update_of_ne hps ..).symm.trans hset)
          split_ifs <;> omega

theorem FilesHigh.findpageLoop (preferPf fuel pf : ℕ) (h : s.FilesHigh) :
    Returns (Vm.findpageLoop preferPf fuel s pf) (fun r => r.2.2.FilesHigh) := by
  induction fuel generalizing s pf with
  | zero => exact .error _
  | succ fuel ih =>
    rw [Vm.findpageLoop]
    refine .bind (h.allocpage pf) (fun r hr => ?_)
    obtain ⟨result, s₁⟩ := r
    cases result with
    | some page => exact .pure hr
    | none => exact .ite (fun _ => .pure hr) (fun _ => ih (pf + 1) hr)

theorem FilesHigh.deallocpage (e : PfEntry) (h : s.FilesHigh) :
    Returns (vnodePagerDeallocpage s e) (fun s' => s'.FilesHigh ∧ s'.marks = s.marks) := by
  rw [vnodePagerDeallocpage]
  refine .ite (fun _ => .pure ⟨h, rfl⟩) (fun _ => .bind_eq (fun f hf => ?_))
  have hok := h e.index f (pagerFile_of_list hf)
  simp only [bind, Except.bind, pure, Except.pure]
  by_cases hpage : f.pfNpgs ≤ e.offset
  · rw [if_pos hpage]
    exact .error _
  · rw [if_neg hpage]
    refine .pure ⟨h.setFile ⟨hok.npgs, hok.hipage, fun p hp hset => hok.used p hp ?_⟩,
      marks_setFile (pagerFile_of_list hf) rfl rfl⟩
    change update f.pfBmap e.offset false p = true at hset
    by_cases hpe : p = e.offset
    · rw [hpe, update_self] at hset
      cases hset
    · rwa [update_of_ne hpe] at hset

/-! ## Writes -/

theorem bmapRoom_pagerFile (s : PagingSpace) (vs fPage : ℕ) :
    Returns (bmapRoom kget s vs fPage) (fun r => r.2.pagerFile = s.pagerFile) := by
  rw [bmapRoom]
  refine .bind_eq (fun v _ => .bind_eq (fun grown _ => ?_))
  cases grown with
  | none => exact .pure rfl
  | some v =>
    refine .bind_eq (fun made _ => ?_)
    cases made with
    | none => exact .pure rfl
    | some v => exact .pure rfl

theorem FilesHigh.makeRoom (vs fOffset : ℕ) (h : s.FilesHigh) :
    Returns (bmapPrepare.makeRoom kget vs fOffset s) (fun r => r.2.FilesHigh) := by
  rw [bmapPrepare.makeRoom]
  refine .bind (bmapRoom_pagerFile s vs (atop fOffset)) (fun r hr => ?_)
  obtain ⟨room, s₁⟩ := r
  cases room with
  | true => exact .pure (h.of_pagerFile hr)
  | false => exact .pure (h.of_pagerFile hr)

theorem FilesHigh.rewrite (e : PfEntry) (h : s.FilesHigh) : Returns (bmapRewrite s e) (fun r => r.2.FilesHigh) := by
  rw [bmapRewrite]
  by_cases hzero : e.index = 0
  · rw [if_pos hzero]
    exact .error _
  · rw [if_neg hzero]
    refine .bind_eq (fun f _ => .ite (fun _ => ?_) (fun _ => .pure h))
    exact .bind (h.deallocpage e) (fun s₁ hs₁ => .pure hs₁.1)

theorem FilesHigh.prepare (kget : KgetSite → Bool) (vs fOffset : ℕ) (flag : BmapFlag) (h : s.FilesHigh) :
    Returns (bmapPrepare kget s vs fOffset flag) (fun r => r.2.FilesHigh) := by
  rw [bmapPrepare]
  refine .bind_eq (fun v _ => .bind_eq (fun found _ => ?_))
  split_ifs with hbad
  · exact .error _
  · cases flag with
    | read =>
      cases found with
      | none => exact .pure h
      | some e => exact .pure h
    | write =>
      cases found with
      | none => exact h.makeRoom vs fOffset
      | some e =>
        refine .bind (h.rewrite e) (fun r hr => ?_)
        obtain ⟨given, s₁⟩ := r
        cases given with
        | true => exact hr.makeRoom vs fOffset
        | false => exact .pure hr

theorem FilesHigh.bmap (kget : KgetSite → Bool) (vs fOffset : ℕ) (flag : BmapFlag) (h : s.FilesHigh) :
    Returns (pagerfileBmap kget s vs fOffset flag) (fun r => r.2.2.FilesHigh) := by
  rw [pagerfileBmap]
  refine .bind (h.prepare kget vs fOffset flag) (fun r hr => ?_)
  obtain ⟨stage, s₁⟩ := r
  cases stage with
  | done result entry => exact .pure hr
  | place =>
    change Returns (bmapPlace s₁ vs fOffset) _
    rw [bmapPlace]
    refine .bind_eq (fun v _ => .bind (hr.findpageLoop v.vsPf _ v.vsPf) (fun found hfound => ?_))
    obtain ⟨result, e, s₂⟩ := found
    cases result with
    | failure => exact .pure hfound
    | success => exact .bind_eq (fun w _ => .pure (hfound.of_pagerFile rfl))

/-! ## New files and pagers -/

theorem FilesHigh.fileInit (hiwat : UInt32) (memory : ℕ → Bool) (h : s.FilesHigh) :
    Returns (vnodePagerFileInit s hiwat memory) FilesHigh := by
  have hlt : hiwat.toNat < 2 ^ 32 := hiwat.toBitVec.isLt
  rw [vnodePagerFileInit]
  refine .ite (fun _ => .pure ?_) (fun _ => .error _)
  intro q g hg
  by_cases hq : q = s.pagerFileCount + 1
  · subst hq
    cases (update_self ..).symm.trans hg
    refine ⟨?_, ?_, fun p hp hset => ?_⟩
    · change atop hiwat.toNat < _
      rw [atop, pageSize]
      omega
    · change (-1 : ℤ) < (atop hiwat.toNat : ℕ)
      omega
    · cases (if_pos hp).symm.trans hset
  · exact h q g ((update_of_ne hq ..).symm.trans hg)

theorem FilesHigh.create (kget : KgetSite → Bool) (vs pf size : ℕ) (h : s.FilesHigh) :
    Returns (pagerfilePagerCreate kget s vs pf size) (fun r => r.2.FilesHigh) := by
  rw [pagerfilePagerCreate]
  refine .ite (fun _ => .pure h) (fun _ => .ite (fun _ => .pure h) (fun _ => .bind_eq (fun f hf => .pure ?_)))
  have hok := h pf f (pagerFile_of_get hf)
  have hhigh : (s.setFile pf { f with pfCount := f.pfCount + 1 }).FilesHigh := h.setFile ⟨hok.npgs, hok.hipage, hok.used⟩
  exact hhigh.of_pagerFile rfl

/-! ## The end of a pager -/

/-- What the loops have seen when they have come to page `n`: the highest page given up of each file. -/
structure Noted (slot : ℕ × ℕ → Option PfEntry) (vs n : ℕ) (seen : List PfEntry) : Prop where
  released : ∀ e ∈ seen, ∃ i < n, slot (vs, i) = some e
  covers : ∀ i < n, ∀ e, slot (vs, i) = some e → ∃ x ∈ seen, x.index = e.index ∧ e.offset ≤ x.offset

theorem visitFile_returns (seen : List PfEntry) (i : ℕ) : Returns (visitFile e seen i) (fun seen' =>
    (∀ x ∈ seen', x ∈ seen ∨ x = e) ∧
      ∀ y, y ∈ seen ∨ y = e → ∃ x ∈ seen', x.index = y.index ∧ y.offset ≤ x.offset) := by
  induction seen generalizing i with
  | nil =>
    refine .ite (fun _ => .pure ⟨fun x hx => .inr (mem_singleton.mp hx), ?_⟩) (fun _ => .error _)
    rintro y (hy | rfl)
    · cases hy
    · exact ⟨y, mem_singleton_self y, rfl, Nat.le_refl _⟩
  | cons x rest ih =>
    rw [visitFile]
    refine .ite (fun hx => .pure ⟨?_, ?_⟩) (fun hx => .bind (ih (i + 1)) (fun seen' h => .pure ⟨?_, ?_⟩))
    · intro z hz
      rcases mem_cons.mp hz with rfl | hz
      · -- the larger offset is that of one of the two
        rcases Nat.le_total e.offset x.offset with hle | hle
        · rw [Nat.max_eq_left hle]
          exact .inl (mem_cons_self ..)
        · rw [Nat.max_eq_right hle, hx]
          exact .inr rfl
      · exact .inl (mem_cons_of_mem x hz)
    · rintro y (hy | rfl)
      · rcases mem_cons.mp hy with rfl | hy
        · exact ⟨_, mem_cons_self .., rfl, Nat.le_max_left ..⟩
        · exact ⟨y, mem_cons_of_mem _ hy, rfl, Nat.le_refl _⟩
      · exact ⟨_, mem_cons_self .., hx, Nat.le_max_right ..⟩
    · intro z hz
      rcases mem_cons.mp hz with rfl | hz
      · exact .inl (mem_cons_self ..)
      · exact (h.1 z hz).imp_left (mem_cons_of_mem x)
    · intro y hy
      have hcases : y = x ∨ y ∈ rest ∨ y = e := by
        rcases hy with hy | hy
        · exact (mem_cons.mp hy).imp_right .inl
        · exact .inr (.inr hy)
      rcases hcases with rfl | hy
      · exact ⟨y, mem_cons_self .., rfl, Nat.le_refl _⟩
      · obtain ⟨z, hz, hle⟩ := h.2 y hy
        exact ⟨z, mem_cons_of_mem x hz, hle⟩

theorem Noted.visit (h : Noted slot vs n seen) (he : slot (vs, n) = some e) :
    Returns (visitFile e seen 0) (Noted slot vs (n + 1)) := by
  refine (visitFile_returns seen 0).mono (fun seen' hseen' => ⟨?_, ?_⟩)
  · intro x hx
    rcases hseen'.1 x hx with hx | rfl
    · obtain ⟨i, hi, hslot⟩ := h.released x hx
      exact ⟨i, by omega, hslot⟩
    · exact ⟨n, Nat.lt_succ_self n, he⟩
  · intro i hi y hy
    by_cases hin : i < n
    · obtain ⟨x, hx, hindex, hle⟩ := h.covers i hin y hy
      obtain ⟨z, hz, hindex', hle'⟩ := hseen'.2 x (.inl hx)
      exact ⟨z, hz, hindex'.trans hindex, hle.trans hle'⟩
    · obtain rfl : i = n := by omega
      cases he.symm.trans hy
      exact hseen'.2 e (.inr rfl)

theorem Noted.skip (h : Noted slot vs n seen) (hnone : slot (vs, n) = none) : Noted slot vs (n + 1) seen := by
  refine ⟨fun e he => ?_, fun i hi e he => ?_⟩
  · obtain ⟨i, hi, hslot⟩ := h.released e he
    exact ⟨i, by omega, hslot⟩
  · by_cases hin : i < n
    · exact h.covers i hin e he
    · obtain rfl : i = n := by omega
      cases hnone.symm.trans he

theorem Noted.deallocEntries (es : List PfEntry) (h : Noted slot vs n seen) (hhigh : s.FilesHigh)
    (hslot : ∀ i e, es[i]? = some e → slot (vs, n + i) = foundEntry e) :
    Returns (Vm.deallocEntries es s seen) (fun r => r.1.FilesHigh ∧ r.1.marks = s.marks ∧
      Noted slot vs (n + es.length) r.2) := by
  induction es generalizing n s seen with
  | nil => exact .pure ⟨hhigh, rfl, h⟩
  | cons e rest ih =>
    have hhead : slot (vs, n) = foundEntry e := hslot 0 e rfl
    have htail : ∀ i e', rest[i]? = some e' → slot (vs, n + 1 + i) = foundEntry e' := by
      intro i e' he'
      rw [Nat.add_assoc, Nat.add_comm 1]
      exact hslot (i + 1) e' he'
    rw [Vm.deallocEntries, length_cons, Nat.add_comm rest.length, ← Nat.add_assoc]
    refine .bind (hhigh.deallocpage e) (fun s₁ hs₁ => ?_)
    by_cases hnull : e.index = indexNull
    · rw [if_pos hnull, ← hs₁.2]
      exact ih (h.skip (hhead.trans (if_pos hnull))) hs₁.1 htail
    · rw [if_neg hnull, ← hs₁.2]
      exact .bind (h.visit (hhead.trans (foundEntry_eq hnull))) (fun seen₁ hseen₁ => ih hseen₁ hs₁.1 htail)

theorem Ok.noted (h : s.Ok) (hhigh : s.FilesHigh) (hv : s.vstruct vs = some v) :
    Returns (deallocMap s v) (fun r => r.1.FilesHigh ∧ r.1.marks = s.marks ∧ (∀ e ∈ r.2, ∃ page, s.slot (vs, page) = some e) ∧
      ∀ page e, s.slot (vs, page) = some e → ∃ x ∈ r.2, x.index = e.index ∧ e.offset ≤ x.offset) := by
  obtain ⟨es, hlen, hslot, hmap⟩ := deallocMap_eq (h.maps vs v hv)
  have hstart : Noted s.slot vs 0 [] := by
    refine ⟨fun e he => ?_, fun i hi => absurd hi (Nat.not_lt_zero i)⟩
    cases he
  have hentries : ∀ i e, es[i]? = some e → s.slot (vs, 0 + i) = foundEntry e := by
    intro i e he
    rw [Nat.zero_add, slot_eq hv, hslot, he]
    rfl
  rw [hmap]
  refine (hstart.deallocEntries es hhigh hentries).mono ?_
  rintro r ⟨hr, hmarks, hnoted⟩
  refine ⟨hr, hmarks, fun e he => ?_, fun page e he => hnoted.covers page ?_ e he⟩
  · obtain ⟨i, -, hi⟩ := hnoted.released e he
    exact ⟨i, hi⟩
  · have hlt := (h.maps vs v hv).lt_of_slot ((slot_eq hv).symm.trans he)
    omega

end PagingSpace

/-! ## The search for a new high page -/

theorem scan_some {bits : ℕ → Bool} {i : ℕ} (h : (List.range n).reverse.find? bits = some i) :
    i < n ∧ bits i = true ∧ ∀ j, i < j → j < n → bits j = false := by
  induction n with
  | zero => cases h
  | succ n ih =>
    rw [range_succ, reverse_append, reverse_singleton, singleton_append, List.find?_cons] at h
    cases hbit : bits n with
    | true =>
      rw [hbit] at h
      cases h
      exact ⟨Nat.lt_succ_self _, hbit, fun j hlt hj => absurd hj (by omega)⟩
    | false =>
      rw [hbit] at h
      obtain ⟨hlt, hset, hclear⟩ := ih h
      refine ⟨by omega, hset, fun j hij hj => ?_⟩
      by_cases hjn : j = n
      · rw [hjn, hbit]
      · exact hclear j hij (by omega)

theorem scan_none {bits : ℕ → Bool} (h : (List.range n).reverse.find? bits = none) {j : ℕ} (hj : j < n) :
    bits j = false := by
  have hall := List.find?_eq_none.mp h j (by simpa using hj)
  simpa using hall

end Darwin.Vm
