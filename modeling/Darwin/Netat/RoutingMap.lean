import Darwin.Netat.RoutingTree

/-! # The routing table is an interval map

The tree below `RT_table_start` is sorted by the ranges of its entries, and a list of zeroed entries
hangs at `RT_table_freelist`. Each call keeps that, and does to the routes what it does to the map.
-/
namespace Darwin.Netat
open Darwin.Lib Function List
open Darwin.Lib.SearchTree (Tree)
open Darwin.Lib.LinkedTree

/-- Zeroed entries, each linked to the next through its right field. -/
def FreeList (m : Heap Ref Route) : Option Ref → List Ref → Prop
  | p, [] => p = none
  | p, q :: rest => p = some q ∧ (m q).left = none ∧ (m q).value = .zero ∧ FreeList m (m q).right rest

/-- The ranges stand in order, and none has network 0. -/
structure Ascending (tree : Tree Ref Route) : Prop where
  sorted : tree.toList.Pairwise (fun p q => p.2.netStop < q.2.lowEnd)
  ranges : ∀ p ∈ tree.toList, 0 < p.2.lowEnd ∧ p.2.lowEnd ≤ p.2.netStop

structure Sound (t : RoutingTable) (tree : Tree Ref Route) (free : List Ref) : Prop where
  hangs : Hangs t.mem (some .start) (.node .nil .start .zero tree)
  freelist : FreeList t.mem t.freelist free
  parts : (cells tree ++ free).Perm ((List.range t.maxEntry).map Ref.entry)
  ascending : Ascending tree

section lists
variable {m m' : Heap Ref Route} {p : Option Ref} {free : List Ref} {tree : Tree Ref Route} {n : ℕ}

theorem FreeList.congr (h : FreeList m p free) (heq : ∀ q ∈ free, m' q = m q) : FreeList m' p free := by
  induction free generalizing p with
  | nil => exact h
  | cons q rest ih =>
    obtain ⟨hp, hleft, hvalue, hrest⟩ := h
    have hq := heq q mem_cons_self
    refine ⟨hp, by rw [hq, hleft], by rw [hq, hvalue], ?_⟩
    rw [hq]
    exact ih hrest (fun x hx => heq x (mem_cons_of_mem q hx))

theorem netProbe_eq {r : Route} : netProbe n r = .eq ↔ r.Contains n := by
  rw [netProbe, Route.Contains]
  by_cases hstop : r.netStop < n
  · rw [if_pos hstop]
    exact iff_of_false nofun (fun h => by omega)
  · rw [if_neg hstop]
    by_cases hlow : n < r.lowEnd
    · rw [if_pos hlow]
      exact iff_of_false nofun (fun h => by omega)
    · rw [if_neg hlow]
      exact iff_of_true rfl ⟨by omega, by omega⟩

theorem Ascending.probe_sorted (h : Ascending tree) (n : ℕ) :
    Probe.Sorted (fun x => netProbe n x.2) tree.toList := by
  refine h.sorted.imp_of_mem (fun {a b} _ hb hab hne => ?_)
  have hrange := h.ranges b hb
  dsimp only [netProbe] at hne ⊢
  by_cases hstop : a.2.netStop < n
  · rw [if_pos hstop] at hne
    exact absurd rfl hne
  · rw [if_neg (by omega), if_pos (by omega)]

theorem RouteArgs.lowEnd_route (a : RouteArgs) (h : a.nStart ≤ a.nStop) (hpos : 0 < a.nStop) :
    0 < a.route.lowEnd ∧ a.route.lowEnd ≤ a.route.netStop := by
  have hstart : a.route.netStart = a.nStart := rfl
  have hstop : a.route.netStop = a.nStop := rfl
  rw [Route.lowEnd, hstart, hstop]
  by_cases hzero : a.nStart = 0
  · rw [if_neg (not_not.mpr hzero)]
    exact ⟨hpos, Nat.le_refl _⟩
  · rw [if_pos hzero]
    exact ⟨Nat.pos_of_ne_zero hzero, h⟩

end lists

theorem rtTableInit_sound {size : ℕ} (hsize : 1 ≤ size) :
    Sound (rtTableInit size) .nil ((List.range size).map Ref.entry) := by
  have hfree : ∀ k i, i + k = size → 0 < k → FreeList (rtTableInit size).mem (some (.entry i))
      ((List.range' i k).map Ref.entry) := by
    intro k
    induction k with
    | zero => omega
    | succ k ih =>
      intro i hik _
      rw [List.range'_succ, map_cons]
      refine ⟨rfl, rfl, rfl, ?_⟩
      have hright : ((rtTableInit size).mem (.entry i)).right =
          if i + 1 < size then some (.entry (i + 1)) else none := rfl
      rw [hright]
      by_cases hlast : k = 0
      · subst hlast
        rw [if_neg (by omega)]
        rfl
      · rw [if_pos (by omega)]
        exact ih (i + 1) (by omega) (by omega)
  refine ⟨⟨rfl, rfl, rfl, rfl⟩, ?_, List.Perm.refl _, ⟨List.Pairwise.nil, nofun⟩⟩
  rw [range_eq_range']
  exact hfree size 0 (by omega) (by omega)

section calls
variable {t : RoutingTable} {tree : Tree Ref Route} {free : List Ref} {passes n : ℕ}

theorem Sound.nodup (h : Sound t tree free) : (cells tree ++ free).Nodup :=
  h.parts.nodup_iff.mpr (nodup_range.map (fun _ _ h => Ref.entry.inj h))

theorem Sound.count (h : Sound t tree free) : tree.toList.length + free.length = t.maxEntry := by
  have hlength := h.parts.length_eq
  rw [length_append, cells_length, length_map, length_range] at hlength
  exact hlength

theorem Sound.not_start (h : Sound t tree free) : Ref.start ∉ cells tree ++ free := by
  intro hmem
  obtain ⟨i, -, hi⟩ := mem_map.mp (h.parts.mem_iff.mp hmem)
  cases hi

theorem Sound.root_nodup (h : Sound t tree free) :
    (LinkedTree.cells (.node .nil .start .zero tree : Tree Ref Route)).Nodup := by
  rw [cells_node, cells_nil, nil_append, nodup_cons]
  exact ⟨fun hmem => h.not_start (mem_append_left _ hmem), (nodup_append.mp h.nodup).1⟩

theorem Sound.lookup (h : Sound t tree free) (hn : 0 < n) (hpasses : t.maxEntry + 1 < passes) :
    ∃ found, rtBlookup passes t n = some found ∧
      (∀ p, found = some p → (t.mem p).value ∈ tree.toList.map Prod.snd ∧ (t.mem p).value.Contains n) ∧
      (found = none → ∀ r ∈ tree.toList.map Prod.snd, ¬ r.Contains n) := by
  have hcount := h.count
  have hzero : netProbe n .zero = .gt := if_pos hn
  have hfind : find (netProbe n) (.node .nil .start .zero tree) = find (netProbe n) tree := by
    rw [find, hzero]
  refine ⟨_, h.hangs.search_eq (by rw [SearchTree.Tree.toList]; simp [SearchTree.Tree.toList]; omega), ?_, ?_⟩
  · intro p hp
    rw [hfind] at hp
    obtain ⟨⟨q, r⟩, hq, rfl⟩ := Option.map_eq_some_iff.mp hp
    obtain ⟨hmem, hcontains⟩ := find_mem hq
    have hvalue : (t.mem q).value = r := h.hangs.2.2.2.value hmem
    dsimp only
    rw [hvalue]
    exact ⟨mem_map_of_mem hmem, netProbe_eq.mp hcontains⟩
  · intro hnone r hr
    rw [hfind, Option.map_eq_none_iff] at hnone
    obtain ⟨x, hx, rfl⟩ := mem_map.mp hr
    rw [← netProbe_eq]
    exact find_none (h.ascending.probe_sorted n) hnone x hx

theorem Ascending.insert (h : Ascending tree) {r : Route} (hr : 0 < r.lowEnd ∧ r.lowEnd ≤ r.netStop)
    (hdisjoint : ∀ s ∈ tree.toList.map Prod.snd, r.Disjoint s) (new : Ref) :
    Ascending (insert (fun s => s.netStop < r.netStop) new r tree) ∧
      ((insert (fun s => s.netStop < r.netStop) new r tree).toList).Perm ((new, r) :: tree.toList) := by
  have hmono : tree.toList.Pairwise (fun y z => decide (z.2.netStop < r.netStop) = true →
      decide (y.2.netStop < r.netStop) = true) := by
    refine h.sorted.imp_of_mem (fun {y z} _ hz hyz hlt => ?_)
    have hrange := h.ranges z hz
    rw [decide_eq_true_iff] at hlt ⊢
    omega
  obtain ⟨xs, ys, hold, hnew, hxs, hys⟩ := toList_insert (fun s => s.netStop < r.netStop) new r tree hmono
  have hperm : ((LinkedTree.insert (fun s => s.netStop < r.netStop) new r tree).toList).Perm
      ((new, r) :: tree.toList) := by
    rw [hnew, hold]
    exact perm_middle
  have hranges := h.ranges
  have hsorted := h.sorted
  refine ⟨⟨?_, fun p hp => ?_⟩, hperm⟩
  · rw [hold] at hsorted hdisjoint hranges
    obtain ⟨hsx, hsy, hcross⟩ := pairwise_append.mp hsorted
    rw [hnew]
    refine pairwise_append.mpr ⟨hsx, pairwise_cons.mpr ⟨fun y hy => ?_, hsy⟩, fun x hx => ?_⟩
    · have hstop := hys y hy
      rw [decide_eq_true_iff, not_lt] at hstop
      rcases hdisjoint y.2 (mem_map_of_mem (mem_append_right _ hy)) with hlt | hlt
      · exact hlt
      · omega
    · have hstop := hxs x hx
      rw [decide_eq_true_iff] at hstop
      have hrange := hranges x (mem_append_left _ hx)
      refine forall_mem_cons.mpr ⟨?_, fun y hy => hcross x hx y hy⟩
      rcases hdisjoint x.2 (mem_map_of_mem (mem_append_left _ hx)) with hlt | hlt
      · omega
      · exact hlt
  · rcases mem_cons.mp (hperm.mem_iff.mp hp) with rfl | hp
    · exact hr
    · exact h.ranges p hp

theorem Sound.insert {new : Ref} {a : RouteArgs} (h : Sound t tree (new :: free))
    (hpos : 0 < a.nStop) (hle : a.nStart ≤ a.nStop)
    (hdisjoint : ∀ s ∈ tree.toList.map Prod.snd, a.route.Disjoint s) (hpasses : t.maxEntry < passes) :
    ∃ t' parent, rtInsert passes t a = some (t', some parent) ∧ t'.maxEntry = t.maxEntry ∧
      ∃ tree', Sound t' tree' free ∧ (tree'.toList).Perm ((new, a.route) :: tree.toList) := by
  have hcount := h.count
  rw [length_cons] at hcount
  obtain ⟨hhead, hleft, hvalue, hrest⟩ := h.freelist
  have hnodup := h.nodup
  obtain ⟨htree, hfree, hapart⟩ := nodup_append.mp hnodup
  have hnewFree : new ∉ free := (nodup_cons.mp hfree).1
  have hnewTree : new ∉ cells tree := fun hmem => hapart new hmem new mem_cons_self rfl
  have hnewStart : new ≠ .start := fun heq =>
    h.not_start (heq ▸ mem_append_right _ mem_cons_self)
  obtain ⟨mem, hmem⟩ : ∃ mem, mem = update t.mem new ⟨none, none, a.route⟩ := ⟨_, rfl⟩
  have hkeep : ∀ x, x ≠ new → mem x = t.mem x := fun x hx => by
    rw [hmem, update_of_ne hx]
  have hcell : mem new = ⟨none, none, a.route⟩ := by
    rw [hmem, update_self]
  have hroot : Hangs mem (some .start) (.node .nil .start .zero tree) := by
    refine h.hangs.congr (fun x hx => hkeep x ?_)
    rintro rfl
    rw [cells_node, cells_nil, nil_append, mem_cons] at hx
    exact hx.elim hnewStart hnewTree
  have hlength : (SearchTree.Tree.node .nil Ref.start .zero tree).toList.length ≤ passes := by
    simp only [SearchTree.Tree.toList, length_append, length_cons, length_nil]
    omega
  obtain ⟨parent, right, hplace, hparent, hhangs⟩ := hroot.place_link (fun s => s.netStop < a.nStop)
    h.root_nodup (by
      rw [cells_node, cells_nil, nil_append, mem_cons, not_or]
      exact ⟨hnewStart, hnewTree⟩) hcell hlength
  have hparentFree : ∀ x ∈ free, x ≠ parent := by
    rintro x hx rfl
    rw [cells_node, cells_nil, nil_append, mem_cons] at hparent
    rcases hparent with rfl | hparent
    · exact h.not_start (mem_append_right _ (mem_cons_of_mem _ hx))
    · exact hapart x hparent x (mem_cons_of_mem _ hx) rfl
  obtain ⟨hascending, hperm⟩ := h.ascending.insert (a.lowEnd_route hle hpos) hdisjoint new
  have hinserts : rtInsert passes t a = some
      ({ t with
        mem := link mem parent right (some new)
        freelist := (t.mem new).right
        changed := true }, some parent) := by
    have hentry : (⟨(t.mem new).left, none, a.fill (t.mem new).value⟩ : RtEntry) = ⟨none, none, a.route⟩ := by
      rw [hleft, hvalue]
      rfl
    have hstop : (mem new).value.netStop = a.nStop := by
      rw [hcell]
      rfl
    rw [rtInsert, hhead]
    dsimp only
    rw [hentry, ← hmem, rtBinsert]
    dsimp only
    rw [hstop, hplace]
    rfl
  refine ⟨_, parent, hinserts, rfl,
    LinkedTree.insert (fun s => s.netStop < a.nStop) new a.route tree, ⟨?_, ?_, ?_, hascending⟩, hperm⟩
  · have hgo : decide (Route.zero.netStop < a.nStop) = true := decide_eq_true hpos
    rw [LinkedTree.insert, if_pos hgo] at hhangs
    exact hhangs
  · refine hrest.congr (fun x hx => ?_)
    have hne : x ≠ new := fun heq => hnewFree (heq ▸ hx)
    exact (link_of_ne (hparentFree x hx)).trans (hkeep x hne)
  · have hcells : (cells (LinkedTree.insert (fun s => s.netStop < a.nStop) new a.route tree)).Perm
        (new :: cells tree) := hperm.map Prod.fst
    exact ((hcells.append_right free).trans perm_middle.symm).trans h.parts

theorem Sound.insert_full {a : RouteArgs} (h : Sound t tree []) : rtInsert passes t a = some (t, none) := by
  have hnone : t.freelist = none := h.freelist
  rw [rtInsert, hnone]

theorem Ascending.split (h : Ascending tree) {b : Ref} {r : Route} (hmem : (b, r) ∈ tree.toList)
    (hr : r.Contains n) : ∃ xs ys, tree.toList = xs ++ (b, r) :: ys ∧
      (∀ x ∈ xs ++ ys, ¬ x.2.Contains n) ∧
      (erase (netProbe n) tree).toList = xs ++ ys := by
  obtain ⟨xs, ys, hsplit⟩ := append_of_mem hmem
  have hsorted := h.probe_sorted n
  rw [hsplit] at hsorted
  obtain ⟨-, hbehind, hcross⟩ := pairwise_append.mp hsorted
  have hhere : netProbe n r = .eq := netProbe_eq.mpr hr
  have hxs : ∀ x ∈ xs, netProbe n x.2 = .gt := fun x hx => by
    by_contra hne
    have hlt : netProbe n r = .lt := hcross x hx (b, r) mem_cons_self hne
    rw [hhere] at hlt
    cases hlt
  have hys : ∀ y ∈ ys, netProbe n y.2 = .lt := fun y hy =>
    (pairwise_cons.mp hbehind).1 y hy (by simp [hhere])
  have hothers : ∀ x ∈ xs ++ ys, netProbe n x.2 ≠ .eq := fun x hx => by
    rcases mem_append.mp hx with hx | hx
    · simp [hxs x hx]
    · simp [hys x hx]
  refine ⟨xs, ys, hsplit, fun x hx => netProbe_eq.not.mp (hothers x hx), ?_⟩
  rw [toList_erase (h.probe_sorted n), hsplit, filter_append, filter_cons, if_neg (by simp [hhere]),
    filter_eq_self.mpr (fun x hx => by simpa using hothers x (mem_append_left _ hx)),
    filter_eq_self.mpr (fun x hx => by simpa using hothers x (mem_append_right _ hx))]

theorem Sound.delete_none (h : Sound t tree free) (hn : 0 < n) (unset : Ref)
    (hnone : ∀ r ∈ tree.toList.map Prod.snd, ¬ r.Contains n) (hpasses : t.maxEntry + 1 < passes) :
    rtDelete passes unset t n = some (t, none) := by
  have hcount := h.count
  have hzero : netProbe n .zero = .gt := if_pos hn
  have hfind : find (netProbe n) (.node .nil .start .zero tree) = none := by
    rw [find, hzero]
    dsimp only
    cases hf : find (netProbe n) tree with
    | none => rfl
    | some x =>
      obtain ⟨hmem, hcontains⟩ := find_mem hf
      exact absurd (netProbe_eq.mp hcontains) (hnone _ (mem_map_of_mem hmem))
  have hlength : (SearchTree.Tree.node .nil Ref.start .zero tree).toList.length < passes := by
    simp only [SearchTree.Tree.toList, length_append, length_cons, length_nil]
    omega
  obtain ⟨last, hsearch⟩ := h.hangs.searchParent_none hfind hlength unset
  rw [rtDelete, rtBdelete, hsearch]
  rfl

theorem Sound.delete (h : Sound t tree free) (hn : 0 < n) (unset : Ref) {r : Route}
    (hr : r ∈ tree.toList.map Prod.snd) (hcontains : r.Contains n) (hpasses : t.maxEntry + 1 < passes) :
    ∃ t' b, rtDelete passes unset t n = some (t', some b) ∧ t'.maxEntry = t.maxEntry ∧
      ∃ tree', Sound t' tree' (b :: free) ∧
        (tree'.toList.map Prod.snd) = (tree.toList.map Prod.snd).filter (fun s => ¬ s.Contains n) := by
  have hcount := h.count
  have hzero : netProbe n .zero = .gt := if_pos hn
  obtain ⟨b, w, hfind⟩ : ∃ b w, find (netProbe n) tree = some (b, w) := by
    cases hf : find (netProbe n) tree with
    | none =>
      obtain ⟨x, hx, rfl⟩ := mem_map.mp hr
      exact absurd (netProbe_eq.mpr hcontains) (find_none (h.ascending.probe_sorted n) hf x hx)
    | some x => exact ⟨x.1, x.2, rfl⟩
  have hroot : find (netProbe n) (.node .nil .start .zero tree) = some (b, w) := by
    rw [find, hzero]
    exact hfind
  obtain ⟨hmem, hhere⟩ := find_mem hfind
  obtain ⟨xs, ys, hsplit, hothers, herase⟩ := h.ascending.split hmem (netProbe_eq.mp hhere)
  have hlength : (SearchTree.Tree.node .nil Ref.start .zero tree).toList.length < passes := by
    simp only [SearchTree.Tree.toList, length_append, length_cons, length_nil]
    omega
  obtain ⟨parent, mem, next, hsearch, hprune, hhangs, hkeep⟩ := h.hangs.erase h.root_nodup
    (by rw [h.hangs.2.1, hzero]; simp) hroot hlength (Nat.le_of_lt hlength) unset
  have hnodup := h.nodup
  obtain ⟨htree, hfree, hapart⟩ := nodup_append.mp hnodup
  have hcells : cells tree = xs.map Prod.fst ++ b :: ys.map Prod.fst := by
    rw [cells, hsplit, map_append, map_cons]
  have hcells' : cells (erase (netProbe n) tree) = xs.map Prod.fst ++ ys.map Prod.fst := by
    rw [cells, herase, map_append]
  have hb : b ∈ cells tree := mem_map_of_mem hmem
  have hbErased : b ∉ cells (erase (netProbe n) tree) := by
    rw [hcells] at htree
    rw [hcells']
    exact (nodup_middle.mp htree).notMem
  have hbStart : b ≠ .start := fun heq => h.not_start (heq ▸ mem_append_left _ hb)
  have hdeletes : rtDelete passes unset t n = some
      ({ t with
        mem := update (replaceChild mem parent b next) b ⟨none, t.freelist, .zero⟩
        freelist := some b
        changed := true }, some b) := by
    rw [rtDelete, rtBdelete, hsearch]
    dsimp only
    rw [hprune]
    rfl
  rw [LinkedTree.erase, hzero] at hhangs
  refine ⟨_, b, hdeletes, rfl, erase (netProbe n) tree, ⟨?_, ?_, ?_, ?_, ?_⟩, ?_⟩
  · refine hhangs.congr (fun x hx => update_of_ne ?_ _ _)
    rintro rfl
    rw [cells_node, cells_nil, nil_append, mem_cons] at hx
    exact hx.elim hbStart hbErased
  · have hself : update (replaceChild mem parent b next) b
        (⟨none, t.freelist, .zero⟩ : RtEntry) b = ⟨none, t.freelist, .zero⟩ := update_self _ _ _
    refine ⟨rfl, congrArg Cell.left hself, congrArg Cell.value hself, ?_⟩
    · dsimp only
      rw [hself]
      refine h.freelist.congr (fun x hx => ?_)
      have hxb : x ≠ b := fun heq => hapart b hb x hx heq.symm
      refine (update_of_ne hxb _ _).trans (hkeep x ?_)
      rw [cells_node, cells_nil, nil_append, mem_cons, not_or]
      exact ⟨fun heq => h.not_start (heq ▸ mem_append_right _ hx), fun hmem' => hapart x hmem' x hx rfl⟩
  · refine List.Perm.trans ?_ h.parts
    rw [hcells, hcells']
    exact perm_middle.trans (perm_middle.symm.append_right free)
  · have hsub : (erase (netProbe n) tree).toList.Sublist tree.toList := by
      rw [herase, hsplit]
      exact (List.Sublist.refl xs).append (sublist_cons_self _ _)
    exact h.ascending.sorted.sublist hsub
  · intro p hp
    refine h.ascending.ranges p ?_
    rw [herase] at hp
    rw [hsplit, mem_append, mem_cons]
    exact (mem_append.mp hp).imp id .inr
  · have hstay : ∀ zs : List (Ref × Route), (∀ x ∈ zs, ¬ x.2.Contains n) →
        (zs.map Prod.snd).filter (fun s => ¬ s.Contains n) = zs.map Prod.snd := by
      intro zs hzs
      refine filter_eq_self.mpr (fun s hs => ?_)
      obtain ⟨x, hx, rfl⟩ := mem_map.mp hs
      exact decide_eq_true (hzs x hx)
    have hw : w.Contains n := netProbe_eq.mp hhere
    rw [herase, hsplit, map_append, map_append, map_cons, filter_append,
      filter_cons, if_neg (by simpa using hw), hstay xs (fun x hx => hothers x (mem_append_left _ hx)),
      hstay ys (fun x hx => hothers x (mem_append_right _ hx))]

theorem FreeList.next_mem (h : FreeList t.mem p free) {q r : Ref} (hq : q ∈ free)
    (hr : (t.mem q).right = some r) : r ∈ free := by
  induction free generalizing p with
  | nil => cases hq
  | cons x rest ih =>
    obtain ⟨-, -, -, hrest⟩ := h
    rcases mem_cons.mp hq with rfl | hq
    · cases rest with
      | nil =>
        rw [show (t.mem q).right = none from hrest] at hr
        cases hr
      | cons y rest =>
        rw [hrest.1] at hr
        cases hr
        simp
    · exact mem_cons_of_mem x (ih hrest hq)

theorem FreeList.all_free (h : FreeList t.mem p free) (hp : ∀ q, p = some q → t.Free q) :
    ∀ x ∈ free, t.Free x := by
  induction free generalizing p with
  | nil => exact fun x hx => absurd hx not_mem_nil
  | cons q rest ih =>
    obtain ⟨hq, -, -, hrest⟩ := h
    have hfree := hp q hq
    exact forall_mem_cons.mpr ⟨hfree, ih hrest (fun r hr => .next hfree hr)⟩

theorem Sound.free_iff (h : Sound t tree free) {q : Ref} : t.Free q ↔ q ∈ free := by
  constructor
  · intro hq
    induction hq with
    | head hp =>
      have hlist := h.freelist
      rw [hp] at hlist
      cases free with
      | nil => cases hlist
      | cons x rest =>
        cases hlist.1
        exact mem_cons_self
    | next _ hr ih => exact h.freelist.next_mem ih hr
  · exact h.freelist.all_free (fun q hq => .head hq) q

theorem Sound.inUse_iff (h : Sound t tree free) {q : Ref} : t.InUse q ↔ q = .start ∨ q ∈ cells tree := by
  have hreach := h.hangs.reaches_iff (y := q)
  rw [cells_node, cells_nil, nil_append, mem_cons] at hreach
  exact hreach

theorem Sound.serves (h : Sound t tree free) {present : List Route}
    (hpresent : present.Perm (tree.toList.map Prod.snd)) : Serves t present := by
  have hcount := h.count
  have hlength := hpresent.length_eq
  rw [length_map] at hlength
  have hmem : ∀ q, q ∈ cells tree ++ free ↔ ∃ i < t.maxEntry, q = .entry i := by
    intro q
    rw [h.parts.mem_iff, mem_map]
    constructor
    · rintro ⟨i, hi, rfl⟩
      exact ⟨i, mem_range.mp hi, rfl⟩
    · rintro ⟨i, hi, rfl⟩
      exact ⟨i, mem_range.mpr hi, rfl⟩
  have hapart := (nodup_append.mp h.nodup).2.2
  refine ⟨fun n hn passes hpasses => ?_, fun q hq => ?_, fun q hq => ?_, fun i hi => ?_, ?_⟩
  · obtain ⟨found, hfound, hsome, hnone⟩ := h.lookup hn hpasses
    exact ⟨found, hfound, fun q hq => ⟨hpresent.mem_iff.mpr (hsome q hq).1, (hsome q hq).2⟩,
      fun hf r hr => hnone hf r (hpresent.mem_iff.mp hr)⟩
  · exact (h.inUse_iff.mp hq).imp id (fun hq => (hmem q).mp (mem_append_left _ hq))
  · exact (hmem q).mp (mem_append_right _ (h.free_iff.mp hq))
  · rw [h.inUse_iff, h.free_iff]
    constructor
    · rintro (hstart | htree) hfree
      · cases hstart
      · exact hapart _ htree _ hfree rfl
    · intro hfree
      exact .inr ((mem_append.mp ((hmem _).mpr ⟨i, hi, rfl⟩)).resolve_right hfree)
  · constructor
    · intro hlt
      obtain ⟨q, hq⟩ := exists_mem_of_length_pos (show 0 < free.length by omega)
      obtain ⟨i, hi, rfl⟩ := (hmem q).mp (mem_append_right _ hq)
      refine ⟨i, hi, fun huse => ?_⟩
      rcases h.inUse_iff.mp huse with hstart | htree
      · cases hstart
      · exact hapart _ htree _ hq rfl
    · rintro ⟨i, hi, hunused⟩
      have hfree := (mem_append.mp ((hmem _).mpr ⟨i, hi, rfl⟩)).resolve_left
        (fun htree => hunused (h.inUse_iff.mpr (.inr htree)))
      have hpos := length_pos_of_mem hfree
      omega

theorem Sound.call (h : Sound t tree free) {present : List Route}
    (hpresent : present.Perm (tree.toList.map Prod.snd)) {call : Call} (hproper : call.Proper present)
    (hpasses : t.maxEntry + 1 < passes) (unset : Ref) :
    ∃ t', call.run passes unset t = some (t', (call.spec t.maxEntry present).2) ∧
      t'.maxEntry = t.maxEntry ∧ ∃ tree' free', Sound t' tree' free' ∧
        (call.spec t.maxEntry present).1.Perm (tree'.toList.map Prod.snd) := by
  have hcount := h.count
  have hlength := hpresent.length_eq
  rw [length_map] at hlength
  cases call with
  | insert a =>
    obtain ⟨hpos, hle, hdisjoint⟩ := hproper
    rw [Call.run, Call.spec]
    cases free with
    | nil =>
      rw [length_nil] at hcount
      rw [h.insert_full, if_neg (by omega)]
      exact ⟨t, rfl, rfl, tree, [], h, hpresent⟩
    | cons new free =>
      rw [length_cons] at hcount
      obtain ⟨t', parent, hinserts, hmax, tree', hsound, hperm⟩ := h.insert hpos hle
        (fun s hs => hdisjoint s (hpresent.mem_iff.mpr hs)) (Nat.lt_of_succ_lt hpasses)
      rw [hinserts, if_pos (by omega)]
      exact ⟨t', rfl, hmax, tree', free, hsound,
        (hpresent.cons a.route).trans (hperm.map Prod.snd).symm⟩
  | delete n netStart =>
    rw [Call.run, Call.spec]
    have hpos : 0 < n := hproper
    by_cases hsome : ∃ r ∈ present, r.Contains n
    · obtain ⟨r, hr, hcontains⟩ := hsome
      obtain ⟨t', b, hdeletes, hmax, tree', hsound, herased⟩ := h.delete hpos unset
        (hpresent.mem_iff.mp hr) hcontains hpasses
      have hany : present.any (fun r => r.Contains n) = true :=
        any_eq_true.mpr ⟨r, hr, decide_eq_true hcontains⟩
      rw [hdeletes, hany]
      refine ⟨t', rfl, hmax, tree', b :: free, hsound, ?_⟩
      rw [herased]
      exact hpresent.filter _
    · have hnone : ∀ r ∈ present, ¬ r.Contains n := fun r hr hcontains => hsome ⟨r, hr, hcontains⟩
      have hany : present.any (fun r => r.Contains n) = false :=
        any_eq_false.mpr (fun r hr => by simpa using hnone r hr)
      have hkeeps : present.filter (fun r => ¬ r.Contains n) = present :=
        filter_eq_self.mpr (fun r hr => decide_eq_true (hnone r hr))
      rw [h.delete_none hpos unset (fun r hr => hnone r (hpresent.mem_iff.mpr hr)) hpasses, hany, hkeeps]
      exact ⟨t, rfl, rfl, tree, free, h, hpresent⟩

theorem Sound.calls {calls : List Call} (h : Sound t tree free) {present : List Route}
    (hpresent : present.Perm (tree.toList.map Prod.snd)) (hproper : ProperCalls t.maxEntry calls present)
    (hpasses : t.maxEntry + 1 < passes) (unset : Ref) :
    ∃ t', runCalls passes unset calls t = some (t', (specCalls t.maxEntry calls present).2) ∧
      Serves t' (specCalls t.maxEntry calls present).1 := by
  induction calls generalizing t tree free present with
  | nil => exact ⟨t, rfl, h.serves hpresent⟩
  | cons call calls ih =>
    obtain ⟨hcall, hcalls⟩ := hproper
    obtain ⟨t₁, hrun, hmax, tree₁, free₁, hsound, hperm⟩ := h.call hpresent hcall hpasses unset
    obtain ⟨t₂, hruns, hserves⟩ := ih hsound hperm
      (by rw [hmax]; exact hcalls) (by rw [hmax]; exact hpasses)
    rw [hmax] at hruns hserves
    refine ⟨t₂, ?_, hserves⟩
    rw [runCalls, hrun]
    dsimp only
    rw [hruns]
    rfl

end calls

/-- After any calls that insert disjoint ranges and do not delete network 0 the table is the interval
map of these calls, and each of them returned what it should. -/
theorem routing_table_refines (size : ℕ) (hsize : 1 ≤ size) (unset : Ref) (calls : List Call)
    (hproper : ProperCalls size calls []) (passes : ℕ) (hpasses : size + 1 < passes) :
    ∃ t, runCalls passes unset calls (rtTableInit size) = some (t, (specCalls size calls []).2) ∧
      Serves t (specCalls size calls []).1 :=
  (rtTableInit_sound hsize).calls (List.Perm.refl _) hproper hpasses unset

/-- A table of two entries: two networks, of which the first is deleted. -/
theorem routing_table_refines_two : ∃ t,
    runCalls 4 .start [.insert ⟨5, 0, 1, 2, 3, 4, 8⟩, .insert ⟨9, 7, 1, 2, 3, 4, 8⟩, .delete 5 0]
        (rtTableInit 2) = some (t, [true, true, true]) ∧
      Serves t [⟨9, 7, 1, 2, 0, 3, 4, 8, 0, 0⟩] :=
  routing_table_refines 2 (by decide) .start
    [.insert ⟨5, 0, 1, 2, 3, 4, 8⟩, .insert ⟨9, 7, 1, 2, 3, 4, 8⟩, .delete 5 0]
    ⟨⟨by decide, by decide, by decide⟩, ⟨by decide, by decide, by decide⟩,
      show 0 < 5 by decide, trivial⟩ 4 (by decide)

/-- `RT_DELETE` of network 0 finds `RT_table_start` itself, and takes it for a free entry: the route
that was there is not found any more. -/
theorem delete_zero_loses : ∃ t,
    runCalls 4 .start [.insert ⟨5, 0, 1, 2, 3, 4, 8⟩, .delete 0 0] (rtTableInit 2) =
        some (t, [true, true]) ∧
      rtBlookup 4 t 5 = some none ∧ t.Free .start ∧
      (specCalls 2 [.insert ⟨5, 0, 1, 2, 3, 4, 8⟩, .delete 0 0] []).1 =
        [⟨5, 0, 1, 2, 0, 3, 4, 8, 0, 0⟩] :=
  ⟨_, rfl, rfl, .head rfl, rfl⟩

end Darwin.Netat
