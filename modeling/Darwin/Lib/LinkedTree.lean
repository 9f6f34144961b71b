import Darwin.Lib.SearchTree
import Darwin.Lib.SortedSearch
import Mathlib.Logic.Relation

/-! # Binary trees of linked cells

A heap of cells with a left and a right link. A tree hangs at a link when the cells are linked as the
tree is. The loops over the cells are compared with functions on the tree: the search, the insertion
below a leaf, and the removal of a cell whose left subtree goes below the leftmost cell of the right
one.
-/
namespace Darwin.Lib.LinkedTree
open Function List
open SearchTree (Tree)
variable {ρ α : Type}

structure Cell (ρ α : Type) where
  left : Option ρ
  right : Option ρ
  value : α
  deriving DecidableEq, Repr

abbrev Heap (ρ α : Type) := ρ → Cell ρ α

/-- The tree hangs at the link. -/
def Hangs (m : Heap ρ α) : Option ρ → Tree ρ α → Prop
  | p, .nil => p = none
  | p, .node l q a r => p = some q ∧ (m q).value = a ∧ Hangs m (m q).left l ∧ Hangs m (m q).right r

def cells (t : Tree ρ α) : List ρ := t.toList.map Prod.fst

/-! ## On trees -/

/-- The value that a probe is equal to: it is `.lt` where the search goes left. -/
def find (c : α → Ordering) : Tree ρ α → Option (ρ × α)
  | .nil => none
  | .node l q a r =>
    match c a with
    | .gt => find c r
    | .lt => find c l
    | .eq => some (q, a)

/-- A new leaf, to the right of the values that say so. -/
def insert (goRight : α → Bool) (q : ρ) (a : α) : Tree ρ α → Tree ρ α
  | .nil => .node .nil q a .nil
  | .node l p b r =>
    if goRight b then .node l p b (insert goRight q a r) else .node (insert goRight q a l) p b r

/-- The tree `s` below the leftmost cell of another. -/
def hangLeft (s : Tree ρ α) : Tree ρ α → Tree ρ α
  | .nil => s
  | .node l q a r => .node (hangLeft s l) q a r

def erase (c : α → Ordering) : Tree ρ α → Tree ρ α
  | .nil => .nil
  | .node l q a r =>
    match c a with
    | .gt => .node l q a (erase c r)
    | .lt => .node (erase c l) q a r
    | .eq => hangLeft l r

/-! ## On cells -/

/-- The loop of a search; `none` when it has not ended after so many passes. -/
def search (m : Heap ρ α) (c : α → Ordering) : ℕ → Option ρ → Option (Option ρ)
  | 0, _ => none
  | _ + 1, none => some none
  | passes + 1, some p =>
    match c (m p).value with
    | .gt => search m c passes (m p).right
    | .lt => search m c passes (m p).left
    | .eq => some (some p)

/-- The same with the cell that was passed last. -/
def searchParent (m : Heap ρ α) (c : α → Ordering) : ℕ → ρ → Option ρ → Option (ρ × Option ρ)
  | 0, _, _ => none
  | _ + 1, previous, none => some (previous, none)
  | passes + 1, previous, some p =>
    match c (m p).value with
    | .gt => searchParent m c passes p (m p).right
    | .lt => searchParent m c passes p (m p).left
    | .eq => some (previous, some p)

/-- The last cell on the way to the left. -/
def leftmost (m : Heap ρ α) : ℕ → ρ → Option ρ
  | 0, _ => none
  | passes + 1, p =>
    match (m p).left with
    | none => some p
    | some q => leftmost m passes q

/-- The cell below which there is place for a new one, and whether that is on its right. -/
def place (m : Heap ρ α) (goRight : α → Bool) : ℕ → ρ → Option (ρ × Bool)
  | 0, _ => none
  | passes + 1, p =>
    if goRight (m p).value then
      match (m p).right with
      | some q => place m goRight passes q
      | none => some (p, true)
    else
      match (m p).left with
      | some q => place m goRight passes q
      | none => some (p, false)

variable [DecidableEq ρ]

def setLeft (m : Heap ρ α) (p : ρ) (q : Option ρ) : Heap ρ α :=
  update m p { m p with left := q }

def setRight (m : Heap ρ α) (p : ρ) (q : Option ρ) : Heap ρ α :=
  update m p { m p with right := q }

def link (m : Heap ρ α) (p : ρ) (right : Bool) (q : Option ρ) : Heap ρ α :=
  if right then setRight m p q else setLeft m p q

/-- The subtrees of a cell become one, which hangs at the link that is returned. -/
def prune (m : Heap ρ α) (passes : ℕ) (found : ρ) : Option (Heap ρ α × Option ρ) :=
  match (m found).right with
  | none => some (m, (m found).left)
  | some next => (leftmost m passes next).map (fun last => (setLeft m last (m found).left, some next))

/-- The link of the parent to a cell is set to what hangs there instead. -/
def replaceChild (m : Heap ρ α) (parent found : ρ) (next : Option ρ) : Heap ρ α :=
  if (m parent).left = some found then setLeft m parent next else setRight m parent next

section trees
omit [DecidableEq ρ]
variable {m m' : Heap ρ α} {p q : Option ρ} {s t l r : Tree ρ α} {x y : ρ} {a : α} {c : α → Ordering}
  {goRight : α → Bool}

@[simp] theorem cells_nil : cells (.nil : Tree ρ α) = [] := rfl

@[simp] theorem cells_node : cells (.node l x a r) = cells l ++ x :: cells r := by
  simp [cells, SearchTree.Tree.toList]

@[simp] theorem toList_hangLeft : (hangLeft s t).toList = s.toList ++ t.toList := by
  induction t with
  | nil => simp [hangLeft, SearchTree.Tree.toList]
  | node l q a r ih => simp [hangLeft, SearchTree.Tree.toList, ih]

theorem cells_hangLeft : cells (hangLeft s t) = cells s ++ cells t := by
  simp [cells]

theorem cells_length (t : Tree ρ α) : (cells t).length = t.toList.length := length_map ..

theorem Hangs.congr (h : Hangs m p t) (heq : ∀ x ∈ cells t, m' x = m x) : Hangs m' p t := by
  induction t generalizing p with
  | nil => exact h
  | node l y a r ihl ihr =>
    obtain ⟨hp, ha, hl, hr⟩ := h
    have hy : m' y = m y := heq y (by simp)
    refine ⟨hp, by rw [hy, ha], ?_, ?_⟩
    · rw [hy]
      exact ihl hl (fun x hx => heq x (by simp [hx]))
    · rw [hy]
      exact ihr hr (fun x hx => heq x (by simp [hx]))

theorem Hangs.value (h : Hangs m p t) {b : α} (hy : (y, b) ∈ t.toList) : (m y).value = b := by
  induction t generalizing p with
  | nil => cases hy
  | node l z a r ihl ihr =>
    obtain ⟨-, ha, hl, hr⟩ := h
    rcases mem_append.mp hy with hy | hy
    · exact ihl hl hy
    · rcases mem_cons.mp hy with heq | hy
      · cases heq
        exact ha
      · exact ihr hr hy

theorem Hangs.mem_cells (h : Hangs m (some x) t) : x ∈ cells t := by
  cases t with
  | nil => cases h
  | node l y a r =>
    obtain ⟨hy, -⟩ := h
    cases hy
    simp

theorem Hangs.nil_of_none (h : Hangs m none t) : t = .nil := by
  cases t with
  | nil => rfl
  | node l y a r => cases h.1

/-- One link of a cell. -/
def Child (m : Heap ρ α) (x y : ρ) : Prop := (m x).left = some y ∨ (m x).right = some y

theorem Hangs.child_mem (h : Hangs m p t) (hx : x ∈ cells t) (hchild : Child m x y) : y ∈ cells t := by
  induction t generalizing p with
  | nil => cases hx
  | node l z a r ihl ihr =>
    obtain ⟨-, -, hl, hr⟩ := h
    rw [cells_node, mem_append, mem_cons] at hx ⊢
    rcases hx with hx | rfl | hx
    · exact .inl (ihl hl hx)
    · rcases hchild with hleft | hright
      · exact .inl (hleft ▸ hl).mem_cells
      · exact .inr (.inr (hright ▸ hr).mem_cells)
    · exact .inr (.inr (ihr hr hx))

theorem Hangs.reaches_iff (h : Hangs m (some x) t) :
    Relation.ReflTransGen (Child m) x y ↔ y ∈ cells t := by
  constructor
  · intro hreach
    induction hreach with
    | refl => exact h.mem_cells
    | tail _ hchild ih => exact h.child_mem ih hchild
  · intro hy
    induction t generalizing x with
    | nil => cases hy
    | node l z a r ihl ihr =>
      obtain ⟨hz, -, hl, hr⟩ := h
      cases hz
      rw [cells_node, mem_append, mem_cons] at hy
      rcases hy with hy | rfl | hy
      · cases hleft : (m z).left with
        | none =>
          obtain rfl := (hleft ▸ hl).nil_of_none
          cases hy
        | some q => exact .head (.inl hleft) (ihl (hleft ▸ hl) hy)
      · exact .refl
      · cases hright : (m z).right with
        | none =>
          obtain rfl := (hright ▸ hr).nil_of_none
          cases hy
        | some q => exact .head (.inr hright) (ihr (hright ▸ hr) hy)

theorem Hangs.search_eq (h : Hangs m p t) {passes : ℕ} (hpasses : t.toList.length < passes) :
    search m c passes p = some ((find c t).map Prod.fst) := by
  induction t generalizing p passes with
  | nil =>
    obtain rfl : p = none := h
    cases passes with
    | zero => omega
    | succ passes => rfl
  | node l y a r ihl ihr =>
    obtain ⟨rfl, ha, hl, hr⟩ := h
    cases passes with
    | zero => omega
    | succ passes =>
      rw [SearchTree.Tree.toList, length_append, length_cons] at hpasses
      rw [search, find, ha]
      cases c a with
      | gt => exact ihr hr (by omega)
      | lt => exact ihl hl (by omega)
      | eq => rfl

theorem Hangs.searchParent_none (h : Hangs m p t) (hfind : find c t = none) {passes : ℕ}
    (hpasses : t.toList.length < passes) (previous : ρ) :
    ∃ last, searchParent m c passes previous p = some (last, none) := by
  induction t generalizing p passes previous with
  | nil =>
    obtain rfl : p = none := h
    cases passes with
    | zero => omega
    | succ passes => exact ⟨previous, rfl⟩
  | node l y v r ihl ihr =>
    obtain ⟨rfl, hv, hl, hr⟩ := h
    rw [SearchTree.Tree.toList, length_append, length_cons] at hpasses
    rw [find] at hfind
    cases passes with
    | zero => omega
    | succ passes =>
      rw [searchParent, hv]
      cases hc : c v with
      | gt =>
        rw [hc] at hfind
        exact ihr hr hfind (show r.toList.length < passes by omega) y
      | lt =>
        rw [hc] at hfind
        exact ihl hl hfind (show l.toList.length < passes by omega) y
      | eq =>
        rw [hc] at hfind
        cases hfind

theorem find_mem {b : α} (h : find c t = some (x, b)) : (x, b) ∈ t.toList ∧ c b = .eq := by
  induction t with
  | nil => cases h
  | node l y a r ihl ihr =>
    rw [find] at h
    rw [SearchTree.Tree.toList]
    cases hc : c a with
    | gt =>
      rw [hc] at h
      exact ⟨mem_append_right _ (mem_cons_of_mem _ (ihr h).1), (ihr h).2⟩
    | lt =>
      rw [hc] at h
      exact ⟨mem_append_left _ (ihl h).1, (ihl h).2⟩
    | eq =>
      rw [hc] at h
      cases h
      exact ⟨by simp, hc⟩

theorem nodup_node (h : (cells (.node l y a r)).Nodup) :
    (cells l).Nodup ∧ (cells r).Nodup ∧ y ∉ cells l ∧ y ∉ cells r ∧ ∀ x ∈ cells l, x ∉ cells r := by
  rw [cells_node, nodup_append, nodup_cons] at h
  obtain ⟨hl, ⟨hy, hr⟩, hdisjoint⟩ := h
  exact ⟨hl, hr, fun hyl => hdisjoint y hyl y (by simp) rfl, hy,
    fun x hxl hxr => hdisjoint x hxl x (by simp [hxr]) rfl⟩

theorem find_none (h : Probe.Sorted (fun x => c x.2) t.toList) (hfind : find c t = none) :
    ∀ x ∈ t.toList, c x.2 ≠ .eq := by
  induction t with
  | nil => exact fun x hx => absurd hx not_mem_nil
  | node l y a r ihl ihr =>
    rw [find] at hfind
    obtain ⟨hl, har, hcross⟩ := pairwise_append.mp h
    obtain ⟨ha, hr⟩ := pairwise_cons.mp har
    have hleft : c a ≠ .lt → ∀ x ∈ l.toList, c x.2 = .gt := fun hne x hx =>
      by_contra (fun hgt => hne (hcross x hx (y, a) mem_cons_self hgt))
    have hright : c a ≠ .gt → ∀ x ∈ r.toList, c x.2 = .lt := fun hne x hx => ha x hx hne
    rw [SearchTree.Tree.toList]
    cases hc : c a with
    | gt =>
      rw [hc] at hfind
      refine forall_mem_append.mpr ⟨fun x hx => ?_, forall_mem_cons.mpr ⟨?_, ihr hr hfind⟩⟩
      · simp [hleft (by simp [hc]) x hx]
      · simp [hc]
    | lt =>
      rw [hc] at hfind
      refine forall_mem_append.mpr ⟨ihl hl hfind, forall_mem_cons.mpr ⟨?_, fun x hx => ?_⟩⟩
      · simp [hc]
      · simp [hright (by simp [hc]) x hx]
    | eq =>
      rw [hc] at hfind
      cases hfind

theorem toList_erase (h : Probe.Sorted (fun x => c x.2) t.toList) :
    (erase c t).toList = t.toList.filter (fun x => c x.2 ≠ .eq) := by
  induction t with
  | nil => rfl
  | node l y a r ihl ihr =>
    obtain ⟨hl, har, hcross⟩ := pairwise_append.mp h
    obtain ⟨ha, hr⟩ := pairwise_cons.mp har
    have hleft : c a ≠ .lt → l.toList.filter (fun x => c x.2 ≠ .eq) = l.toList := fun hne =>
      filter_eq_self.mpr (fun x hx => by
        have hgt : c x.2 = .gt := by_contra (fun hgt => hne (hcross x hx (y, a) mem_cons_self hgt))
        simp [hgt])
    have hright : c a ≠ .gt → r.toList.filter (fun x => c x.2 ≠ .eq) = r.toList := fun hne =>
      filter_eq_self.mpr (fun x hx => by simp [ha x hx hne])
    rw [erase, SearchTree.Tree.toList, filter_append, filter_cons]
    cases hc : c a with
    | gt =>
      rw [hleft (by simp [hc]), if_pos (by simp), ← ihr hr]
      rfl
    | lt =>
      rw [hright (by simp [hc]), if_pos (by simp), ← ihl hl]
      rfl
    | eq =>
      rw [hleft (by simp [hc]), hright (by simp [hc]), if_neg (by simp)]
      exact toList_hangLeft

theorem toList_insert (goRight : α → Bool) (x : ρ) (a : α) (t : Tree ρ α)
    (h : t.toList.Pairwise (fun y z => goRight z.2 = true → goRight y.2 = true)) :
    ∃ xs ys, t.toList = xs ++ ys ∧ (insert goRight x a t).toList = xs ++ (x, a) :: ys ∧
      (∀ y ∈ xs, goRight y.2 = true) ∧ ∀ y ∈ ys, ¬ goRight y.2 = true := by
  induction t with
  | nil => exact ⟨[], [], rfl, rfl, nofun, nofun⟩
  | node l y b r ihl ihr =>
    obtain ⟨hl, hbr, hcross⟩ := pairwise_append.mp h
    obtain ⟨hb, hr⟩ := pairwise_cons.mp hbr
    rw [insert]
    by_cases hright : goRight b = true
    · obtain ⟨xs, ys, hold, hnew, hxs, hys⟩ := ihr hr
      refine ⟨l.toList ++ (y, b) :: xs, ys, ?_, ?_, ?_, hys⟩
      · simp [SearchTree.Tree.toList, hold]
      · simp [hright, SearchTree.Tree.toList, hnew]
      · exact forall_mem_append.mpr ⟨fun z hz => hcross z hz (y, b) mem_cons_self hright,
          forall_mem_cons.mpr ⟨hright, hxs⟩⟩
    · obtain ⟨xs, ys, hold, hnew, hxs, hys⟩ := ihl hl
      refine ⟨xs, ys ++ (y, b) :: r.toList, ?_, ?_, hxs, ?_⟩
      · simp [SearchTree.Tree.toList, hold]
      · simp [hright, SearchTree.Tree.toList, hnew]
      · exact forall_mem_append.mpr ⟨hys,
          forall_mem_cons.mpr ⟨hright, fun z hz hgo => hright (hb z hz hgo)⟩⟩

end trees

section heaps
variable {m m' : Heap ρ α} {p q : Option ρ} {s t l r : Tree ρ α} {x y : ρ} {a : α} {c : α → Ordering}
  {goRight : α → Bool}

theorem setLeft_of_ne (h : y ≠ x) : setLeft m x q y = m y := update_of_ne h _ _

theorem setRight_of_ne (h : y ≠ x) : setRight m x q y = m y := update_of_ne h _ _

@[simp] theorem setLeft_self : setLeft m x q x = { m x with left := q } := update_self _ _ _

@[simp] theorem setRight_self : setRight m x q x = { m x with right := q } := update_self _ _ _

theorem link_of_ne {right : Bool} (h : y ≠ x) : link m x right q y = m y := by
  cases right with
  | true => exact setRight_of_ne h
  | false => exact setLeft_of_ne h

theorem replaceChild_of_ne {z : ρ} (h : y ≠ x) : replaceChild m x z q y = m y := by
  rw [replaceChild]
  by_cases hleft : (m x).left = some z
  · rw [if_pos hleft, setLeft_of_ne h]
  · rw [if_neg hleft, setRight_of_ne h]

theorem Hangs.place_link (goRight : α → Bool) {b : ρ} (h : Hangs m (some b) t) (hnodup : (cells t).Nodup) (hx : x ∉ cells t)
    (hcell : m x = ⟨none, none, a⟩) {passes : ℕ} (hpasses : t.toList.length ≤ passes) :
    ∃ parent right, place m goRight passes b = some (parent, right) ∧ parent ∈ cells t ∧
      Hangs (link m parent right (some x)) (some b) (insert goRight x a t) := by
  induction t generalizing b passes with
  | nil => cases h
  | node l y v r ihl ihr =>
    obtain ⟨hl', hr', hyl, hyr, hdisjoint⟩ := nodup_node hnodup
    obtain ⟨heq, hv, hl, hr⟩ := h
    cases heq
    rw [cells_node, mem_append, mem_cons, not_or, not_or] at hx
    obtain ⟨hxl, hxy, hxr⟩ := hx
    rw [SearchTree.Tree.toList, length_append, length_cons] at hpasses
    have hleaf : ∀ m' : Heap ρ α, m' x = ⟨none, none, a⟩ → Hangs m' (some x) (.node .nil x a .nil) := by
      intro m' hm'
      refine ⟨rfl, by rw [hm'], ?_, ?_⟩
      · rw [hm']
        rfl
      · rw [hm']
        rfl
    cases passes with
    | zero => omega
    | succ passes =>
      rw [place, insert, hv]
      by_cases hright : goRight v = true
      · rw [if_pos hright, if_pos hright]
        cases hq : (m y).right with
        | none =>
          obtain rfl := (hq ▸ hr).nil_of_none
          refine ⟨y, true, rfl, by simp, rfl, ?_, ?_, ?_⟩
          · simpa [link] using hv
          · simp only [link, if_true, setRight_self]
            exact hl.congr (fun z hz => setRight_of_ne (fun h => hyl (h ▸ hz)))
          · simp only [link, if_true, setRight_self]
            exact hleaf _ ((setRight_of_ne hxy).trans hcell)
        | some q =>
          rw [hq] at hr
          obtain ⟨parent, right, hplace, hparent, hhangs⟩ := ihr hr hr' hxr (show r.toList.length ≤ passes by omega)
          have hy : y ≠ parent := fun h => hyr (h ▸ hparent)
          refine ⟨parent, right, hplace, by simp [hparent], rfl, ?_, ?_, ?_⟩
          · rw [link_of_ne hy, hv]
          · rw [link_of_ne hy]
            exact hl.congr (fun z hz => link_of_ne (fun h => hdisjoint z hz (h ▸ hparent)))
          · rw [link_of_ne hy, hq]
            exact hhangs
      · rw [if_neg hright, if_neg hright]
        cases hq : (m y).left with
        | none =>
          obtain rfl := (hq ▸ hl).nil_of_none
          refine ⟨y, false, rfl, by simp, rfl, ?_, ?_, ?_⟩
          · simpa [link] using hv
          · simp only [link, Bool.false_eq_true, if_false, setLeft_self]
            exact hleaf _ ((setLeft_of_ne hxy).trans hcell)
          · simp only [link, Bool.false_eq_true, if_false, setLeft_self]
            exact hr.congr (fun z hz => setLeft_of_ne (fun h => hyr (h ▸ hz)))
        | some q =>
          rw [hq] at hl
          obtain ⟨parent, right, hplace, hparent, hhangs⟩ := ihl hl hl' hxl (show l.toList.length ≤ passes by omega)
          have hy : y ≠ parent := fun h => hyl (h ▸ hparent)
          refine ⟨parent, right, hplace, by simp [hparent], rfl, ?_, ?_, ?_⟩
          · rw [link_of_ne hy, hv]
          · rw [link_of_ne hy, hq]
            exact hhangs
          · rw [link_of_ne hy]
            exact hr.congr (fun z hz => link_of_ne (fun h => hdisjoint parent hparent (h ▸ hz)))

theorem Hangs.leftmost_hangLeft {b : ρ} (h : Hangs m (some b) t) (hs : Hangs m q s)
    (hnodup : (cells t).Nodup) (hdisjoint : ∀ x ∈ cells s, x ∉ cells t) {passes : ℕ}
    (hpasses : t.toList.length ≤ passes) :
    ∃ last, leftmost m passes b = some last ∧ last ∈ cells t ∧
      Hangs (setLeft m last q) (some b) (hangLeft s t) := by
  induction t generalizing b passes with
  | nil => cases h
  | node l y v r ihl ihr =>
    obtain ⟨hl', hr', hyl, hyr, hlr⟩ := nodup_node hnodup
    obtain ⟨heq, hv, hl, hr⟩ := h
    cases heq
    rw [SearchTree.Tree.toList, length_append, length_cons] at hpasses
    cases passes with
    | zero => omega
    | succ passes =>
      rw [leftmost]
      cases hleft : (m y).left with
      | none =>
        obtain rfl := (hleft ▸ hl).nil_of_none
        refine ⟨y, rfl, by simp, rfl, by simpa using hv, ?_, ?_⟩
        · rw [setLeft_self]
          exact hs.congr (fun z hz => setLeft_of_ne (fun h => hdisjoint z hz (by simp [h])))
        · rw [setLeft_self]
          exact hr.congr (fun z hz => setLeft_of_ne (fun h => hyr (h ▸ hz)))
      | some d =>
        rw [hleft] at hl
        obtain ⟨last, hlast, hmem, hhangs⟩ := ihl hl hl'
          (fun x hx hxl => hdisjoint x hx (by simp [hxl]))
          (show l.toList.length ≤ passes by omega)
        have hy : y ≠ last := fun h => hyl (h ▸ hmem)
        refine ⟨last, hlast, by simp [hmem], rfl, ?_, ?_, ?_⟩
        · rw [setLeft_of_ne hy, hv]
        · rw [setLeft_of_ne hy, hleft]
          exact hhangs
        · rw [setLeft_of_ne hy]
          exact hr.congr (fun z hz => setLeft_of_ne (fun h => hlr last hmem (h ▸ hz)))

theorem Hangs.prune {b : ρ} (h : Hangs m (some b) (.node l b a r)) (hnodup : (cells (.node l b a r)).Nodup)
    {passes : ℕ} (hpasses : r.toList.length ≤ passes) :
    ∃ m' next, prune m passes b = some (m', next) ∧ Hangs m' next (hangLeft l r) ∧
      ∀ x, x ∉ cells r → m' x = m x := by
  obtain ⟨hl', hr', hbl, hbr, hlr⟩ := nodup_node hnodup
  obtain ⟨-, -, hl, hr⟩ := h
  rw [LinkedTree.prune]
  cases hright : (m b).right with
  | none =>
    obtain rfl := (hright ▸ hr).nil_of_none
    exact ⟨m, (m b).left, rfl, hl, fun _ _ => rfl⟩
  | some next =>
    rw [hright] at hr
    obtain ⟨last, hlast, hmem, hhangs⟩ := hr.leftmost_hangLeft hl hr' hlr hpasses
    refine ⟨setLeft m last (m b).left, some next, ?_, hhangs, fun x hx => ?_⟩
    · dsimp only
      rw [hlast]
      rfl
    · exact setLeft_of_ne (fun h => hx (h ▸ hmem))

theorem Hangs.replace_right {b : ρ} {v : α} {next : Option ρ} (hv : (m y).value = v)
    (hl : Hangs m (m y).left l) (hnodup : (cells (.node l y v r)).Nodup) (hb : b ∈ cells r)
    (hkeep : ∀ x, x ∉ cells r → m' x = m x) (ht : Hangs m' next t) (hsub : ∀ x ∈ cells t, x ∈ cells r) :
    Hangs (replaceChild m' y b next) (some y) (.node l y v t) := by
  obtain ⟨hl', hr', hyl, hyr, hlr⟩ := nodup_node hnodup
  have hy : m' y = m y := hkeep y hyr
  have hleft : (m' y).left ≠ some b := by
    rw [hy]
    intro hb'
    exact hlr b (Hangs.mem_cells (hb' ▸ hl)) hb
  rw [replaceChild, if_neg hleft]
  refine ⟨rfl, ?_, ?_, ?_⟩
  · rw [setRight_self, hy]
    exact hv
  · rw [setRight_self, hy]
    refine hl.congr (fun z hz => ?_)
    have hne : z ≠ y := fun h => hyl (h ▸ hz)
    rw [setRight_of_ne hne, hkeep z (hlr z hz)]
  · rw [setRight_self]
    exact ht.congr (fun z hz => setRight_of_ne (fun h => hyr (h ▸ hsub z hz)))

theorem Hangs.replace_left {b : ρ} {v : α} {next : Option ρ} (hv : (m y).value = v)
    (hleft : (m y).left = some b) (hr : Hangs m (m y).right r) (hnodup : (cells (.node l y v r)).Nodup)
    (hkeep : ∀ x, x ∉ cells l → m' x = m x) (ht : Hangs m' next t) (hsub : ∀ x ∈ cells t, x ∈ cells l) :
    Hangs (replaceChild m' y b next) (some y) (.node t y v r) := by
  obtain ⟨hl', hr', hyl, hyr, hlr⟩ := nodup_node hnodup
  have hy : m' y = m y := hkeep y hyl
  rw [replaceChild, if_pos (by rw [hy, hleft])]
  refine ⟨rfl, ?_, ?_, ?_⟩
  · rw [setLeft_self, hy]
    exact hv
  · rw [setLeft_self]
    exact ht.congr (fun z hz => setLeft_of_ne (fun h => hyl (h ▸ hsub z hz)))
  · rw [setLeft_self, hy]
    refine hr.congr (fun z hz => ?_)
    have hne : z ≠ y := fun h => hyr (h ▸ hz)
    rw [setLeft_of_ne hne, hkeep z (fun hzl => hlr z hzl hz)]

theorem Hangs.erase {b : ρ} {w : α} (h : Hangs m (some y) t) (hnodup : (cells t).Nodup)
    (hroot : c (m y).value ≠ .eq) (hfind : find c t = some (b, w)) {passes more : ℕ}
    (hpasses : t.toList.length < passes) (hmore : t.toList.length ≤ more) (previous : ρ) :
    ∃ parent m' next, searchParent m c passes previous (some y) = some (parent, some b) ∧
      LinkedTree.prune m more b = some (m', next) ∧
      Hangs (replaceChild m' parent b next) (some y) (erase c t) ∧
      ∀ x, x ∉ cells t → replaceChild m' parent b next x = m x := by
  induction t generalizing y passes previous with
  | nil => cases h
  | node l d v r ihl ihr =>
    have hnodup' := hnodup
    obtain ⟨hl', hr', hdl, hdr, hlr⟩ := nodup_node hnodup
    obtain ⟨heq, hv, hl, hr⟩ := h
    cases heq
    rw [SearchTree.Tree.toList, length_append, length_cons] at hpasses hmore
    rw [hv] at hroot
    rw [find] at hfind
    rw [LinkedTree.erase]
    have hcells : ∀ {x}, x ∉ cells (.node l d v r) → x ≠ d ∧ x ∉ cells l ∧ x ∉ cells r := by
      intro x hx
      rw [cells_node, mem_append, mem_cons, not_or, not_or] at hx
      exact ⟨hx.2.1, hx.1, hx.2.2⟩
    obtain ⟨passes, rfl⟩ : ∃ k, passes = k + 1 := ⟨passes - 1, by omega⟩
    rw [searchParent, hv]
    cases hc : c v with
    | eq => exact absurd hc hroot
    | gt =>
      rw [hc] at hfind
      dsimp only at hfind ⊢
      cases r with
      | nil => cases hfind
      | node l₁ z v₁ r₁ =>
        obtain ⟨hz, hv₁, hl₁, hr₁⟩ := hr
        have hright : Hangs m (some z) (.node l₁ z v₁ r₁) := ⟨rfl, hv₁, hl₁, hr₁⟩
        rw [hz]
        by_cases hhere : c v₁ = .eq
        · -- it is the right child
          obtain ⟨passes, rfl⟩ : ∃ k, passes = k + 1 := ⟨passes - 1, by omega⟩
          rw [find, hhere] at hfind
          cases hfind
          rw [searchParent, hv₁, hhere, LinkedTree.erase, hhere]
          rw [SearchTree.Tree.toList, length_append, length_cons] at hmore
          obtain ⟨m', next, hprune, hhangs, hkeep⟩ := hright.prune hr'
            (show r₁.toList.length ≤ more by omega)
          have hkeep' : ∀ x, x ∉ cells (.node l₁ b w r₁) → m' x = m x := by
            intro x hx
            rw [cells_node, mem_append, mem_cons, not_or, not_or] at hx
            exact hkeep x hx.2.2
          refine ⟨d, m', next, rfl, hprune, ?_, fun x hx => ?_⟩
          · refine Hangs.replace_right hv hl hnodup' (by simp) hkeep' hhangs (fun x hx => ?_)
            rw [cells_hangLeft, mem_append] at hx
            rw [cells_node, mem_append, mem_cons]
            exact hx.elim .inl (fun h => .inr (.inr h))
          · obtain ⟨hne, -, hxr⟩ := hcells hx
            rw [replaceChild_of_ne hne, hkeep' x hxr]
        · obtain ⟨parent, m', next, hsearch, hprune, hhangs, hkeep⟩ :=
            ihr hright hr' (by rw [hv₁]; exact hhere) hfind
              (show (SearchTree.Tree.node l₁ z v₁ r₁).toList.length < passes by omega) (by omega) d
          refine ⟨parent, m', next, hsearch, hprune, ⟨rfl, ?_, ?_, ?_⟩, fun x hx => hkeep x (hcells hx).2.2⟩
          · rw [hkeep d hdr, hv]
          · rw [hkeep d hdr]
            exact hl.congr (fun x hx => hkeep x (hlr x hx))
          · rw [hkeep d hdr, hz]
            exact hhangs
    | lt =>
      rw [hc] at hfind
      dsimp only at hfind ⊢
      cases l with
      | nil => cases hfind
      | node l₁ z v₁ r₁ =>
        obtain ⟨hz, hv₁, hl₁, hr₁⟩ := hl
        have hleft : Hangs m (some z) (.node l₁ z v₁ r₁) := ⟨rfl, hv₁, hl₁, hr₁⟩
        rw [hz]
        by_cases hhere : c v₁ = .eq
        · -- it is the left child
          obtain ⟨passes, rfl⟩ : ∃ k, passes = k + 1 := ⟨passes - 1, by omega⟩
          rw [find, hhere] at hfind
          cases hfind
          rw [searchParent, hv₁, hhere, LinkedTree.erase, hhere]
          rw [SearchTree.Tree.toList, length_append, length_cons] at hmore
          obtain ⟨m', next, hprune, hhangs, hkeep⟩ := hleft.prune hl'
            (show r₁.toList.length ≤ more by omega)
          have hkeep' : ∀ x, x ∉ cells (.node l₁ b w r₁) → m' x = m x := by
            intro x hx
            rw [cells_node, mem_append, mem_cons, not_or, not_or] at hx
            exact hkeep x hx.2.2
          refine ⟨d, m', next, rfl, hprune, ?_, fun x hx => ?_⟩
          · refine Hangs.replace_left hv hz hr hnodup' hkeep' hhangs (fun x hx => ?_)
            rw [cells_hangLeft, mem_append] at hx
            rw [cells_node, mem_append, mem_cons]
            exact hx.elim .inl (fun h => .inr (.inr h))
          · obtain ⟨hne, hxl, -⟩ := hcells hx
            rw [replaceChild_of_ne hne, hkeep' x hxl]
        · obtain ⟨parent, m', next, hsearch, hprune, hhangs, hkeep⟩ :=
            ihl hleft hl' (by rw [hv₁]; exact hhere) hfind
              (show (SearchTree.Tree.node l₁ z v₁ r₁).toList.length < passes by omega) (by omega) d
          refine ⟨parent, m', next, hsearch, hprune, ⟨rfl, ?_, ?_, ?_⟩, fun x hx => hkeep x (hcells hx).2.1⟩
          · rw [hkeep d hdl, hv]
          · rw [hkeep d hdl, hz]
            exact hhangs
          · rw [hkeep d hdl]
            exact hr.congr (fun x hx => hkeep x (fun hxl => hlr x hxl hx))

end heaps

end Darwin.Lib.LinkedTree
