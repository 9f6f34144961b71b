import Mathlib.Data.Finset.Card
import Mathlib.Order.Interval.Finset.Nat
import Darwin.Vm.PagerSpace

/-! # The end of a pager

The loop over the map gives up page after page.
-/
namespace Darwin.Vm
open Darwin.Lib Function List

variable {s s' : PagingSpace} {v : Vstruct} {f : PagerFile} {vs pf n : ℕ} {e w : PfEntry}
  {es seen : List PfEntry} {ws : List PmapWord} {slot : ℕ × ℕ → Option PfEntry}

namespace PagingSpace

/-- The slots that are left when the loop has come to page `n` of the pager. -/
def restFrom (slot : ℕ × ℕ → Option PfEntry) (vs n : ℕ) (k : ℕ × ℕ) : Option PfEntry :=
  if k.1 = vs ∧ k.2 < n then none else slot k

theorem restFrom_zero (k : ℕ × ℕ) : restFrom slot vs 0 k = slot k := if_neg (by simp)

theorem restFrom_self : restFrom slot vs n (vs, n) = slot (vs, n) := if_neg (by simp)

theorem restFrom_succ_self : restFrom slot vs (n + 1) (vs, n) = none := if_pos ⟨rfl, Nat.lt_succ_self n⟩

theorem restFrom_succ_of_ne {k : ℕ × ℕ} (hk : k ≠ (vs, n)) : restFrom slot vs (n + 1) k = restFrom slot vs n k := by
  have hiff : (k.1 = vs ∧ k.2 < n + 1) ↔ (k.1 = vs ∧ k.2 < n) := by
    refine and_congr_right (fun hvs => ⟨fun hlt => ?_, fun hlt => hlt.trans (Nat.lt_succ_self n)⟩)
    have hne : k.2 ≠ n := fun heq => hk (Prod.ext hvs heq)
    omega
  rw [restFrom, restFrom]
  simp only [hiff]

theorem restFrom_skip (hnone : slot (vs, n) = none) (k : ℕ × ℕ) : restFrom slot vs (n + 1) k = restFrom slot vs n k := by
  by_cases hk : k = (vs, n)
  · rw [hk, restFrom_succ_self, restFrom_self, hnone]
  · exact restFrom_succ_of_ne hk

/-! ## The files seen -/

/-- The files seen are pager files, each once. -/
structure SeenOk (s : PagingSpace) (seen : List PfEntry) : Prop where
  nodup : (seen.map PfEntry.index).Nodup
  live : ∀ e ∈ seen, ∃ f, s.pagerFile e.index = some f

theorem SeenOk.length_lt (h : SeenOk s seen) (hfiles : s.FilesOk) : seen.length < maxPagerFiles := by
  have hsub : (seen.map PfEntry.index).toFinset ⊆ Finset.Icc 1 s.pagerFileCount := by
    intro i hi
    obtain ⟨e, he, rfl⟩ := mem_map.mp (mem_toFinset.mp hi)
    exact Finset.mem_Icc.mpr ((hfiles.live e.index).mp (h.live e he))
  have hcard := Finset.card_le_card hsub
  rw [toFinset_card_of_nodup h.nodup, length_map, Nat.card_Icc] at hcard
  have hcount := hfiles.count
  omega

theorem visitFile_spec (i : ℕ) (hlen : i + seen.length < maxPagerFiles) :
    ∃ seen', visitFile e seen i = .ok seen' ∧
      seen'.map PfEntry.index = if e.index ∈ seen.map PfEntry.index then seen.map PfEntry.index
        else seen.map PfEntry.index ++ [e.index] := by
  induction seen generalizing i with
  | nil => exact ⟨[e], if_pos (by simpa using hlen), rfl⟩
  | cons x rest ih =>
    rw [visitFile]
    by_cases hx : x.index = e.index
    · rw [if_pos hx]
      exact ⟨_, rfl, by simp [hx]⟩
    · rw [if_neg hx]
      obtain ⟨seen', hrun, hmap⟩ := ih (i + 1) (by rw [length_cons] at hlen; omega)
      refine ⟨x :: seen', by simp only [bind, Except.bind, hrun, pure, Except.pure], ?_⟩
      rw [map_cons, hmap]
      simp only [map_cons, mem_cons, Ne.symm hx, false_or]
      split_ifs <;> rfl

theorem SeenOk.visit (h : SeenOk s seen) (hfiles : s.FilesOk) (hf : s.pagerFile e.index = some f) :
    ∃ seen', visitFile e seen 0 = .ok seen' ∧ SeenOk s seen' := by
  obtain ⟨seen', hrun, hmap⟩ := visitFile_spec (e := e) 0 (by rw [Nat.zero_add]; exact h.length_lt hfiles)
  have hlive : ∀ i ∈ seen.map PfEntry.index, ∃ f, s.pagerFile i = some f := by
    intro i hi
    obtain ⟨x, hx, rfl⟩ := mem_map.mp hi
    exact h.live x hx
  refine ⟨seen', hrun, ?_, ?_⟩
  · rw [hmap]
    split_ifs with hin
    · exact h.nodup
    · exact nodup_append.mpr ⟨h.nodup, nodup_singleton _, fun a ha b hb heq =>
        hin (mem_singleton.mp hb ▸ heq ▸ ha)⟩
  · intro x hx
    have hxi := mem_map_of_mem (f := PfEntry.index) hx
    rw [hmap] at hxi
    split_ifs at hxi
    · exact hlive x.index hxi
    · rcases mem_append.mp hxi with hxi | hxi
      · exact hlive x.index hxi
      · rw [mem_singleton.mp hxi]
        exact ⟨f, hf⟩

theorem SeenOk.congr (h : SeenOk s seen) (hs : s.FilesOk) (hs' : s'.FilesOk)
    (hcount : s'.pagerFileCount = s.pagerFileCount) : SeenOk s' seen := by
  refine ⟨h.nodup, fun e he => ?_⟩
  rw [hs'.live, hcount, ← hs.live]
  exact h.live e he

/-! ## The loops -/

/-- What the loops have done when they have come to page `n`. -/
structure Freed (slot : ℕ × ℕ → Option PfEntry) (vs : ℕ) (s : PagingSpace) (n : ℕ) (s' : PagingSpace)
    (seen : List PfEntry) : Prop where
  files : s'.FilesOk
  owned : Owned (restFrom slot vs n) s'.Used
  vstruct : s'.vstruct = s.vstruct
  count : s'.pagerFileCount = s.pagerFileCount
  seen : SeenOk s' seen

theorem deallocEntries_spec (es : List PfEntry) (h : Freed slot vs s n s' seen)
    (hslot : ∀ i e, es[i]? = some e → slot (vs, n + i) = foundEntry e) :
    ∃ t seen', deallocEntries es s' seen = .ok (t, seen') ∧ Freed slot vs s (n + es.length) t seen' := by
  induction es generalizing n s' seen with
  | nil => exact ⟨s', seen, rfl, h⟩
  | cons e rest ih =>
    have hhead : slot (vs, n) = foundEntry e := hslot 0 e rfl
    have htail : ∀ i e', rest[i]? = some e' → slot (vs, n + 1 + i) = foundEntry e' := by
      intro i e' he'
      rw [Nat.add_assoc, Nat.add_comm 1]
      exact hslot (i + 1) e' he'
    have hlen : n + (e :: rest).length = n + 1 + rest.length := by
      rw [length_cons]
      omega
    rw [deallocEntries, hlen]
    by_cases hnull : e.index = indexNull
    · have hnone : slot (vs, n) = none := hhead.trans (if_pos hnull)
      obtain ⟨t, seen', hrun, hfreed⟩ := ih ⟨h.files, h.owned.congr (restFrom_skip hnone) (fun _ => .rfl),
        h.vstruct, h.count, h.seen⟩ htail
      refine ⟨t, seen', ?_, hfreed⟩
      simp only [deallocpage_null hnull, bind, Except.bind, if_pos hnull, pure, Except.pure, hrun]
    · have hsome : slot (vs, n) = some e := hhead.trans (foundEntry_eq hnull)
      have hself := restFrom_self.trans hsome
      have hused : s'.Used e := (h.owned.used_iff e).mpr ⟨_, hself⟩
      obtain ⟨s₁, hrun₁, hfiles₁, hused₁, hvs₁, hcount₁⟩ := h.files.deallocpage hused
      have howned₁ : Owned (restFrom slot vs (n + 1)) s₁.Used :=
        h.owned.release hself restFrom_succ_self (fun k hk => restFrom_succ_of_ne hk) hused₁
      have hseen₁ := h.seen.congr h.files hfiles₁ hcount₁
      obtain ⟨f, hf⟩ : ∃ f, s₁.pagerFile e.index = some f := by
        obtain ⟨f, hf, -⟩ := hused
        rw [hfiles₁.live, hcount₁, ← h.files.live]
        exact ⟨f, hf⟩
      obtain ⟨seen₁, hvisit, hseen₁⟩ := hseen₁.visit hfiles₁ hf
      obtain ⟨t, seen', hrun, hfreed⟩ := ih ⟨hfiles₁, howned₁, hvs₁.trans h.vstruct, hcount₁.trans h.count, hseen₁⟩ htail
      refine ⟨t, seen', ?_, hfreed⟩
      simp only [hrun₁, bind, Except.bind, if_neg hnull, hvisit, hrun]

/-- The entries of a block; where there is no block they are null. -/
def wordEntries : PmapWord → List PfEntry
  | .block es => es
  | _ => List.replicate pagemapEntries .null

theorem wordEntries_length {w : PmapWord} (hw : w = .null ∨ ∃ es, w = .block es ∧ es.length = pagemapEntries) :
    (wordEntries w).length = pagemapEntries := by
  rcases hw with rfl | ⟨es, rfl, hes⟩
  · exact length_replicate
  · exact hes

theorem flatMap_length (hwords : ∀ w ∈ ws, w = .null ∨ ∃ es, w = .block es ∧ es.length = pagemapEntries) :
    (ws.flatMap wordEntries).length = ws.length * pagemapEntries := by
  induction ws with
  | nil => rfl
  | cons w rest ih =>
    obtain ⟨hw, hrest⟩ := forall_mem_cons.mp hwords
    rw [flatMap_cons, length_append, wordEntries_length hw, ih hrest, length_cons, Nat.add_mul]
    omega

theorem deallocEntries_append (xs ys : List PfEntry) : deallocEntries (xs ++ ys) s seen =
    deallocEntries xs s seen >>= fun r => deallocEntries ys r.1 r.2 := by
  induction xs generalizing s seen with
  | nil => rfl
  | cons e rest ih =>
    rw [cons_append, deallocEntries, deallocEntries]
    cases vnodePagerDeallocpage s e with
    | error stop => rfl
    | ok s₁ =>
      simp only [bind, Except.bind] at ih ⊢
      by_cases hnull : e.index = indexNull
      · simp only [if_pos hnull, pure, Except.pure]
        exact ih
      · simp only [if_neg hnull]
        cases visitFile e seen 0 with
        | error stop => rfl
        | ok seen₁ => exact ih

theorem deallocEntries_nulls (k : ℕ) : deallocEntries (List.replicate k .null) s seen = .ok (s, seen) := by
  induction k with
  | zero => rfl
  | succ k ih =>
    rw [replicate_succ, deallocEntries, deallocpage_null rfl]
    exact ih

theorem deallocBlocks_eq (hwords : ∀ w ∈ ws, w = .null ∨ ∃ es, w = .block es ∧ es.length = pagemapEntries) :
    deallocBlocks ws s seen = deallocEntries (ws.flatMap wordEntries) s seen := by
  induction ws generalizing s seen with
  | nil => rfl
  | cons w rest ih =>
    obtain ⟨hw, hrest⟩ := forall_mem_cons.mp hwords
    rw [deallocBlocks, flatMap_cons, deallocEntries_append]
    rcases hw with rfl | ⟨es, rfl, -⟩
    · simp only [PmapWord.asBlock, wordEntries, deallocEntries_nulls, bind, Except.bind, ih hrest]
    · simp only [PmapWord.asBlock, wordEntries, bind, Except.bind, ih hrest]

theorem blockSlot_eq (page : ℕ) (hwords : ∀ w ∈ ws, w = .null ∨ ∃ es, w = .block es ∧ es.length = pagemapEntries) :
    blockSlot ws page = (ws.flatMap wordEntries)[page]?.bind foundEntry := by
  induction ws generalizing page with
  | nil => rfl
  | cons w rest ih =>
    obtain ⟨hw, hrest⟩ := forall_mem_cons.mp hwords
    have hlen := wordEntries_length hw
    rw [flatMap_cons]
    by_cases hpage : page < pagemapEntries
    · rw [List.getElem?_append_left (hlen.symm ▸ hpage)]
      have hfirst : (w :: rest)[page / pagemapEntries]? = some w := by
        rw [Nat.div_eq_of_lt hpage]
        rfl
      rcases hw with rfl | ⟨es, rfl, -⟩
      · have hnulls : wordEntries .null = List.replicate pagemapEntries .null := rfl
        rw [blockSlot_null hfirst, hnulls, List.getElem?_replicate, if_pos hpage]
        rfl
      · rw [blockSlot_block hfirst, Nat.mod_eq_of_lt hpage, wordEntries]
    · have hdiv : page / pagemapEntries = (page - pagemapEntries) / pagemapEntries + 1 := by
        rw [pagemapEntries] at *
        omega
      have hmod : page % pagemapEntries = (page - pagemapEntries) % pagemapEntries := by
        rw [pagemapEntries] at *
        omega
      rw [List.getElem?_append_right (hlen.symm ▸ not_lt.mp hpage), hlen, ← ih _ hrest, blockSlot, blockSlot, hdiv, hmod,
        List.getElem?_cons_succ]

theorem deallocMap_eq (h : v.MapOk) : ∃ es, v.vsSize ≤ es.length ∧
    (∀ page, v.slot page = es[page]?.bind foundEntry) ∧ ∀ s, Vm.deallocMap s v = deallocEntries es s [] := by
  by_cases hind : indirPagemap v.vsSize
  · have hblocks := h.blocks hind
    refine ⟨v.vsPmap.flatMap wordEntries, ?_, fun page => ?_, fun s => ?_⟩
    · rw [flatMap_length hblocks.words, hblocks.length, indirPagemapEntries, pagemapEntries]
      omega
    · rw [Vstruct.slot_blocks hind, blockSlot_eq page hblocks.words]
    · rw [Vm.deallocMap, if_pos hind, take_of_length_le hblocks.length.le, deallocBlocks_eq hblocks.words]
  · have hdirect := h.direct hind
    obtain ⟨es, hes, heq⟩ := directEntries_spec hdirect.words
    refine ⟨es, ?_, fun page => ?_, fun s => ?_⟩
    · rw [← hdirect.length, heq, length_map]
    · rw [Vstruct.slot_direct hind, directSlot, heq, List.getElem?_map]
      cases es[page]? <;> rfl
    · rw [Vm.deallocMap, if_neg hind, take_of_length_le hdirect.length.le, hes]
      rfl

/-! ## The end -/

theorem FilesOk.touch (h : s.FilesOk) (hf : s.pagerFile pf = some f) (f' : PagerFile) (hmap : f'.pfBmap = f.pfBmap)
    (hnpgs : f'.pfNpgs = f.pfNpgs) (hpfree : f'.pfPfree = f.pfPfree) (hhint : f'.pfHint = f.pfHint) :
    (s.setFile pf f').FilesOk ∧ ∀ w, (s.setFile pf f').Used w ↔ s.Used w := by
  have hok := h.file pf f hf
  refine ⟨h.setFile hf ⟨hnpgs.symm ▸ hok.npgs, ?_, ?_⟩, ?_⟩
  · rw [hpfree, PagerFile.clearBits, hmap, hnpgs]
    exact hok.pfree
  · rw [hhint, hmap]
    exact hok.hint
  · intro w
    rw [Used, Used]
    by_cases hw : w.index = pf
    · subst hw
      rw [setFile_self, hf]
      simp [hmap, hnpgs]
    · rw [setFile_of_ne hw]

theorem truncate_spec (h : s.FilesOk) (hf : ∃ f, s.pagerFile e.index = some f) :
    ∃ s', vnodePagerTruncate s e = .ok s' ∧ s'.FilesOk ∧ (∀ w, s'.Used w ↔ s.Used w) ∧
      s'.vstruct = s.vstruct ∧ s'.pagerFileCount = s.pagerFileCount := by
  obtain ⟨f, hf⟩ := hf
  rw [vnodePagerTruncate, h.pagerFileList_eq hf]
  simp only [bind, Except.bind, pure, Except.pure]
  split_ifs
  · exact ⟨s, rfl, h, fun _ => .rfl, rfl, rfl⟩
  split
  · rename_i i _
    obtain ⟨hfiles, hused⟩ := h.touch hf { f with pfHipage := i } rfl rfl rfl rfl
    exact ⟨_, rfl, hfiles, hused, rfl, rfl⟩
  · exact ⟨s, rfl, h, fun _ => .rfl, rfl, rfl⟩

theorem truncateSeen_spec (seen : List PfEntry) (h : s.FilesOk) (hseen : ∀ e ∈ seen, ∃ f, s.pagerFile e.index = some f) :
    ∃ s', truncateSeen seen s = .ok s' ∧ s'.FilesOk ∧ (∀ w, s'.Used w ↔ s.Used w) ∧
      s'.vstruct = s.vstruct ∧ s'.pagerFileCount = s.pagerFileCount := by
  induction seen generalizing s with
  | nil => exact ⟨s, rfl, h, fun _ => .rfl, rfl, rfl⟩
  | cons e rest ih =>
    obtain ⟨hhead, htail⟩ := forall_mem_cons.mp hseen
    obtain ⟨s₁, hrun₁, hfiles₁, hused₁, hvs₁, hcount₁⟩ := truncate_spec h hhead
    obtain ⟨s', hrun, hfiles, hused, hvs, hcount⟩ := ih hfiles₁ (fun x hx => by
      rw [hfiles₁.live, hcount₁, ← h.live]
      exact htail x hx)
    refine ⟨s', ?_, hfiles, fun w => (hused w).trans (hused₁ w), hvs.trans hvs₁, hcount.trans hcount₁⟩
    simp only [truncateSeen, bind, Except.bind, hrun₁, hrun]

theorem Ok.restFrom_all (h : s.Ok) (hv : s.vstruct vs = some v) (hn : v.vsSize ≤ n) (k : ℕ × ℕ) :
    (if k.1 = vs then none else s.slot k) = restFrom s.slot vs n k := by
  rw [restFrom]
  by_cases hk : k.1 = vs
  · by_cases hlt : k.2 < n
    · rw [if_pos hk, if_pos ⟨hk, hlt⟩]
    · rw [if_pos hk, if_neg (fun hand => hlt hand.2), PagingSpace.slot, hk, hv]
      exact ((h.maps vs v hv).beyond (by omega)).symm
  · rw [if_neg hk, if_neg (fun hand => hk hand.1)]

theorem Ok.freeMap (h : s.Ok) (hv : s.vstruct vs = some v) :
    ∃ n t seen, deallocMap s v = .ok (t, seen) ∧ v.vsSize ≤ n ∧ Freed s.slot vs s n t seen := by
  obtain ⟨es, hlen, hslot, hmap⟩ := deallocMap_eq (h.maps vs v hv)
  have hstart : Freed s.slot vs s 0 s [] :=
    ⟨h.files, h.owned.congr restFrom_zero (fun _ => .rfl), rfl, rfl, ⟨nodup_nil, by simp⟩⟩
  obtain ⟨t, seen, hrun, hfreed⟩ := deallocEntries_spec es hstart (by
    intro i e he
    rw [Nat.zero_add, slot_eq hv, hslot, he]
    rfl)
  exact ⟨0 + es.length, t, seen, (hmap s).trans hrun, by omega, hfreed⟩

theorem Ok.dealloc (h : s.Ok) (hv : s.vstruct vs = some v) :
    ∃ s', vnodeDealloc s vs = .ok s' ∧ s'.Ok ∧ s'.vstruct = update s.vstruct vs none := by
  obtain ⟨n, t, seen, hrun, hn, hfreed⟩ := h.freeMap hv
  obtain ⟨f, hf⟩ : ∃ f, t.pagerFile v.vsPf = some f := by
    rw [hfreed.files.live, hfreed.count, ← h.files.live]
    exact h.prefers vs v hv
  obtain ⟨hfiles₁, hused₁⟩ := hfreed.files.touch hf { f with pfCount := f.pfCount - 1 } rfl rfl rfl rfl
  obtain ⟨u, hrun₂, hfiles₂, hused₂, hvs₂, hcount₂⟩ := truncateSeen_spec seen hfiles₁ (by
    intro e he
    rw [hfiles₁.live, setFile_count, ← hfreed.files.live]
    exact hfreed.seen.live e he)
  have hvs : u.vstruct = s.vstruct := hvs₂.trans hfreed.vstruct
  have hcount : u.pagerFileCount = s.pagerFileCount := hcount₂.trans hfreed.count
  have hcases : ∀ x w, update u.vstruct vs none x = some w → x ≠ vs ∧ s.vstruct x = some w := by
    intro x w hw
    by_cases hx : x = vs
    · rw [hx, update_self] at hw
      cases hw
    · rw [update_of_ne hx, hvs] at hw
      exact ⟨hx, hw⟩
  refine ⟨{ u with vstruct := update u.vstruct vs none }, ?_, ⟨hfiles₂.of_vstruct rfl rfl, ?_, ?_, ?_⟩, ?_⟩
  · rw [vnodeDealloc, getVstruct_eq hv]
    simp only [bind, Except.bind, hrun, getFile_eq hf, hrun₂]
    rfl
  · exact fun x w hw => h.maps x w (hcases x w hw).2
  · intro x w hw
    change ∃ g, u.pagerFile w.vsPf = some g
    rw [hfiles₂.live, hcount, ← h.files.live]
    exact h.prefers x w (hcases x w hw).2
  · refine hfreed.owned.congr (fun k => ?_) (fun w => ?_)
    · rw [← h.restFrom_all hv hn k, PagingSpace.slot]
      change (update u.vstruct vs none k.1).bind _ = _
      split_ifs with hk
      · rw [hk, update_self]
        rfl
      · rw [update_of_ne hk, hvs]
        rfl
    · exact (used_of_file rfl).trans ((hused₂ w).trans (hused₁ w))
  · exact congrArg (update · vs none) hvs

end PagingSpace

end Darwin.Vm
