import Darwin.Lib.Run
import Darwin.Lib.SearchTree
import Mathlib.Order.Fin.Basic

/-! # The splay tree of a space

The tree is kept unassembled between the operations: a middle tree, and a left and a right
tree each with a hole, to which `ist_ltreep` and `ist_rtreep` point. The holes are the ends
of the spines.
-/
namespace Darwin.Ipc
open Darwin.Lib Darwin.Lib.SearchTree Function List

/-- A name, `mach_port_t`. -/
abbrev MachPort := Fin (2 ^ 32)

def machPortSmallest : MachPort := ⟨0, by omega⟩

def machPortLargest : MachPort := ⟨2 ^ 32 - 1, by omega⟩

abbrev STree (α : Type) := Tree MachPort α

/-- The three trees the search leaves. -/
structure Parts (α : Type) where
  tree : STree α
  ltree : LeftSpine MachPort α
  rtree : RightSpine MachPort α

structure Splay (α : Type) where
  istName : MachPort
  istRoot : STree α
  istLtree : LeftSpine MachPort α
  istRtree : RightSpine MachPort α

variable {α : Type}

/-- `ipc_splay_prim_lookup`. A failed assertion is `none`, here and below. -/
def ipcSplayPrimLookup (name : MachPort) :
    STree α → LeftSpine MachPort α → RightSpine MachPort α → Option (Parts α)
  | .nil, _, _ => none
  | .node lchild tname e rchild, ltree, rtree =>
    if name = tname then some ⟨.node lchild tname e rchild, ltree, rtree⟩
    else if name < tname then
      match lchild with
      | .nil => some ⟨.node .nil tname e rchild, ltree, rtree⟩
      | .node ll lname le lr =>
        if name < lname ∧ ll.isNil = false then
          -- rotate_right, link_right
          ipcSplayPrimLookup name ll ltree ((lname, le, .node lr tname e rchild) :: rtree)
        else if lname < name ∧ lr.isNil = false then
          -- link_right, link_left
          ipcSplayPrimLookup name lr ((ll, lname, le) :: ltree) ((tname, e, rchild) :: rtree)
        else ipcSplayPrimLookup name (.node ll lname le lr) ltree ((tname, e, rchild) :: rtree)
    else
      match rchild with
      | .nil => some ⟨.node lchild tname e .nil, ltree, rtree⟩
      | .node rl rname re rr =>
        if rname < name ∧ rr.isNil = false then
          -- rotate_left, link_left
          ipcSplayPrimLookup name rr ((.node lchild tname e rl, rname, re) :: ltree) rtree
        else if name < rname ∧ rl.isNil = false then
          -- link_left, link_right
          ipcSplayPrimLookup name rl ((lchild, tname, e) :: ltree) ((rname, re, rr) :: rtree)
        else ipcSplayPrimLookup name (.node rl rname re rr) ((lchild, tname, e) :: ltree) rtree

def ipcSplayPrimAssemble : Parts α → Option (STree α)
  | ⟨.nil, _, _⟩ => none
  | ⟨.node l n e r, ltree, rtree⟩ => some (.node (fillLeft ltree l) n e (fillRight rtree r))

def ipcSplayTreeInit (s : Splay α) : Splay α := { s with istRoot := .nil }

/-- The assembled tree becomes the middle tree. -/
def Splay.reset (s : Splay α) : STree α → Splay α
  | .nil => { s with istRoot := .nil }
  | .node l n e r => ⟨n, .node l n e r, [], []⟩

def Splay.parts (s : Splay α) : Parts α := ⟨s.istRoot, s.istLtree, s.istRtree⟩

/-- The search with which the operations start, unless the last one was for the same name. -/
def Splay.search (s : Splay α) (name : MachPort) : Option (Parts α) :=
  if s.istName ≠ name then
    (ipcSplayPrimAssemble s.parts).bind (fun root => ipcSplayPrimLookup name root [] [])
  else some s.parts

def ipcSplayTreePick (s : Splay α) : Option (MachPort × α) :=
  match s.istRoot with
  | .nil => none
  | .node _ n e _ => some (n, e)

def ipcSplayTreeLookup (s : Splay α) (name : MachPort) : Option (Splay α × Option α) :=
  match s.istRoot with
  | .nil => some (s, none)
  | .node .. => (s.search name).bind (fun p =>
    match p.tree with
    | .nil => none
    | .node _ tname e _ =>
      some (⟨name, p.tree, p.ltree, p.rtree⟩, if name ≠ tname then none else some e))

def ipcSplayTreeInsert (s : Splay α) (name : MachPort) (entry : α) : Option (Splay α) :=
  match s.istRoot with
  | .nil => some ⟨name, .node .nil name entry .nil, [], []⟩
  | .node .. => (s.search name).bind (fun p =>
    match p.tree with
    | .nil => none
    | .node l tname _ r =>
      if tname = name then none
      else if name < tname then
        if l.isNil then
          some ⟨name, .node (fillLeft p.ltree .nil) name entry (fillRight p.rtree p.tree), [], []⟩
        else none
      else if r.isNil then
        some ⟨name, .node (fillLeft p.ltree p.tree) name entry (fillRight p.rtree .nil), [], []⟩
      else none)

/-- The two trees that a deletion leaves become one. -/
def joinTrees (root saved : STree α) : Option (STree α) :=
  if root.isNil then some saved
  else if saved.isNil then some root
  else
    ((ipcSplayPrimLookup machPortLargest root [] []).bind ipcSplayPrimAssemble).bind (fun root =>
      match root with
      | .node l n e .nil => some (.node l n e saved)
      | _ => none)

def ipcSplayTreeDelete [DecidableEq α] (s : Splay α) (name : MachPort) (entry : α) :
    Option (Splay α) :=
  match s.istRoot with
  | .nil => none
  | .node .. => (s.search name).bind (fun p =>
    match p.tree with
    | .nil => none
    | .node l tname e r =>
      if tname = name ∧ e = entry then
        (joinTrees (fillLeft p.ltree l) (fillRight p.rtree r)).map s.reset
      else none)

/-- `ipc_splay_tree_split`: the tree and the tree `small`, whose old contents are lost. -/
def ipcSplayTreeSplit (s : Splay α) (name : MachPort) (small : Splay α) :
    Option (Splay α × Splay α) :=
  match s.istRoot with
  | .nil => some (s, ipcSplayTreeInit small)
  | .node .. => (s.search name).bind (fun p =>
    match p.tree with
    | .nil => none
    | .node l tname e r =>
      if tname < name then
        if r.isNil then
          some (s.reset (fillRight p.rtree .nil), ⟨tname, .node (fillLeft p.ltree l) tname e r, [], []⟩)
        else none
      else some (⟨name, .node .nil tname e r, [], p.rtree⟩, small.reset (fillLeft p.ltree l)))

def ipcSplayTreeJoin (s small : Splay α) : Option (Splay α × Splay α) :=
  match small.istRoot with
  | .nil => some (s, small)
  | .node .. => (ipcSplayPrimAssemble small.parts).bind (fun sroot =>
    match s.istRoot with
    | .nil => some (s.reset sroot, ipcSplayTreeInit small)
    | .node .. => ((s.search machPortSmallest).bind ipcSplayPrimAssemble).bind (fun root =>
      match root, sroot with
      | .node .nil n e r, .node _ sn _ _ =>
        if sn < n then some (s.reset (.node sroot n e r), ipcSplayTreeInit small) else none
      | _, _ => none))

/-- `ipc_splay_tree_bounds`: the next names below and above, `~0` and `0` where there is none. -/
def ipcSplayTreeBounds (s : Splay α) (name : MachPort) : Option (Splay α × MachPort × MachPort) :=
  match s.istRoot with
  | .nil => some (s, machPortLargest, machPortSmallest)
  | .node .. => (s.search name).bind (fun p =>
    match p.tree with
    | .nil => none
    | .node _ rname _ _ =>
      let lower := if rname ≤ name then rname
        else match p.ltree with
          | [] => machPortLargest
          | (_, n, _) :: _ => n
      let upper := if name ≤ rname then rname
        else match p.rtree with
          | [] => machPortSmallest
          | (n, _, _) :: _ => n
      some (⟨name, p.tree, p.ltree, p.rtree⟩, lower, upper))

/-! ## The search -/

def Parts.inorder (p : Parts α) : List (MachPort × α) :=
  leftList p.ltree ++ (p.tree.toList ++ rightList p.rtree)

/-- The name is at the root, or belongs in the place of a missing child of the root. -/
def Settled (name : MachPort) : STree α → Prop
  | .nil => False
  | .node l n _ r => name = n ∨ (name < n ∧ l = .nil) ∨ (n < name ∧ r = .nil)

/-- The left tree is below the name, the right tree above it, and the middle tree is where
the name belongs. -/
structure Parts.At (p : Parts α) (name : MachPort) : Prop where
  ordered : Ordered p.inorder
  below : Below (leftList p.ltree) name
  above : Above (rightList p.rtree) name
  settled : Settled name p.tree

theorem ipcSplayPrimLookup_spec {name : MachPort} {t : STree α} {ltree : LeftSpine MachPort α}
    {rtree : RightSpine MachPort α} (ht : t ≠ .nil)
    (ho : Ordered (leftList ltree ++ (t.toList ++ rightList rtree)))
    (hl : Below (leftList ltree) name) (hr : Above (rightList rtree) name) :
    ∃ p, ipcSplayPrimLookup name t ltree rtree = some p ∧
      p.inorder = leftList ltree ++ (t.toList ++ rightList rtree) ∧ p.At name := by
  fun_induction ipcSplayPrimLookup name t ltree rtree with
  | case1 => exact absurd rfl ht
  | case2 lchild e rchild ltree rtree => exact ⟨_, rfl, rfl, ho, hl, hr, .inl rfl⟩
  | case3 tname e rchild ltree rtree hne hlt =>
    exact ⟨_, rfl, rfl, ho, hl, hr, .inr (.inl ⟨hlt, rfl⟩)⟩
  | case4 tname e rchild ltree rtree hne hlt ll lname le lr hc ih =>
    have heq : leftList ltree ++ ((SearchTree.Tree.node (.node ll lname le lr) tname e rchild).toList ++
        rightList rtree) = leftList ltree ++ (ll.toList ++
          rightList ((lname, le, .node lr tname e rchild) :: rtree)) := by
      simp [SearchTree.Tree.toList, rightList]
    rw [heq] at ho ⊢
    exact ih (SearchTree.Tree.isNil_eq_false.mp hc.2) ho hl (above_rightList_cons ho hc.1)
  | case5 tname e rchild ltree rtree hne hlt ll lname le lr hc hc' ih =>
    have heq : leftList ltree ++ ((SearchTree.Tree.node (.node ll lname le lr) tname e rchild).toList ++
        rightList rtree) = leftList ((ll, lname, le) :: ltree) ++ (lr.toList ++
          rightList ((tname, e, rchild) :: rtree)) := by
      simp [SearchTree.Tree.toList, leftList, rightList]
    rw [heq] at ho ⊢
    exact ih (SearchTree.Tree.isNil_eq_false.mp hc'.2) ho (below_leftList_cons ho hc'.1)
      (above_rightList_cons ho hlt)
  | case6 tname e rchild ltree rtree hne hlt ll lname le lr hc hc' ih =>
    have heq : leftList ltree ++ ((SearchTree.Tree.node (.node ll lname le lr) tname e rchild).toList ++
        rightList rtree) = leftList ltree ++ ((SearchTree.Tree.node ll lname le lr).toList ++
          rightList ((tname, e, rchild) :: rtree)) := by
      simp [SearchTree.Tree.toList, rightList]
    rw [heq] at ho ⊢
    exact ih (fun h => (by cases h)) ho hl (above_rightList_cons ho hlt)
  | case7 lchild tname e ltree rtree hne hlt =>
    have hgt : tname < name := lt_of_le_of_ne (not_lt.mp hlt) (Ne.symm hne)
    exact ⟨_, rfl, rfl, ho, hl, hr, .inr (.inr ⟨hgt, rfl⟩)⟩
  | case8 lchild tname e ltree rtree hne hlt rl rname re rr hc ih =>
    have heq : leftList ltree ++ ((SearchTree.Tree.node lchild tname e (.node rl rname re rr)).toList ++
        rightList rtree) = leftList ((.node lchild tname e rl, rname, re) :: ltree) ++
          (rr.toList ++ rightList rtree) := by
      simp [SearchTree.Tree.toList, leftList]
    rw [heq] at ho ⊢
    exact ih (SearchTree.Tree.isNil_eq_false.mp hc.2) ho (below_leftList_cons ho hc.1) hr
  | case9 lchild tname e ltree rtree hne hlt rl rname re rr hc hc' ih =>
    have hgt : tname < name := lt_of_le_of_ne (not_lt.mp hlt) (Ne.symm hne)
    have heq : leftList ltree ++ ((SearchTree.Tree.node lchild tname e (.node rl rname re rr)).toList ++
        rightList rtree) = leftList ((lchild, tname, e) :: ltree) ++
          (rl.toList ++ rightList ((rname, re, rr) :: rtree)) := by
      simp [SearchTree.Tree.toList, leftList, rightList]
    rw [heq] at ho ⊢
    exact ih (SearchTree.Tree.isNil_eq_false.mp hc'.2) ho (below_leftList_cons ho hgt)
      (above_rightList_cons ho hc'.1)
  | case10 lchild tname e ltree rtree hne hlt rl rname re rr hc hc' ih =>
    have hgt : tname < name := lt_of_le_of_ne (not_lt.mp hlt) (Ne.symm hne)
    have heq : leftList ltree ++ ((SearchTree.Tree.node lchild tname e (.node rl rname re rr)).toList ++
        rightList rtree) = leftList ((lchild, tname, e) :: ltree) ++
          ((SearchTree.Tree.node rl rname re rr).toList ++ rightList rtree) := by
      simp [SearchTree.Tree.toList, leftList]
    rw [heq] at ho ⊢
    exact ih (fun h => (by cases h)) ho (below_leftList_cons ho hgt) hr

theorem Parts.At.above_tree {p : Parts α} {name n : MachPort} {l r : STree α} {e : α}
    (h : p.At name) (hp : p.tree = .node l n e r) (hlt : name < n) :
    l = .nil ∧ Above (p.tree.toList ++ rightList p.rtree) name := by
  have hs := h.settled
  rw [hp] at hs
  have hl : l = .nil := by
    rcases hs with heq | ⟨-, hl⟩ | ⟨hgt, -⟩
    · exact absurd heq hlt.ne
    · exact hl
    · exact absurd hgt hlt.le.not_gt
  refine ⟨hl, above_append.mpr ⟨?_, h.above⟩⟩
  have ho := (ordered_append.mp (ordered_append.mp h.ordered).2.1).1
  rw [hp, hl] at ho ⊢
  exact above_cons.mpr ⟨hlt, Above.mono (pairwise_cons.mp ho).1 hlt.le⟩

theorem Parts.At.below_tree {p : Parts α} {name n : MachPort} {l r : STree α} {e : α}
    (h : p.At name) (hp : p.tree = .node l n e r) (hgt : n < name) :
    r = .nil ∧ Below (leftList p.ltree ++ p.tree.toList) name := by
  have hs := h.settled
  rw [hp] at hs
  have hr : r = .nil := by
    rcases hs with heq | ⟨hlt, -⟩ | ⟨-, hr⟩
    · exact absurd heq hgt.ne'
    · exact absurd hlt hgt.le.not_gt
    · exact hr
  refine ⟨hr, below_append.mpr ⟨h.below, ?_⟩⟩
  have ho := (ordered_append.mp (ordered_append.mp h.ordered).2.1).1
  rw [hp, hr] at ho ⊢
  exact below_append.mpr ⟨(ordered_middle.mp ho).2.2.1.mono hgt.le, below_cons.mpr ⟨hgt, Below.nil _⟩⟩

theorem Parts.At.exists_node {p : Parts α} {name : MachPort} (h : p.At name) :
    ∃ l n e r, p.tree = .node l n e r := by
  have hs := h.settled
  cases hp : p.tree with
  | nil =>
    rw [hp] at hs
    exact hs.elim
  | node l n e r => exact ⟨l, n, e, r, rfl⟩

theorem ipcSplayPrimAssemble_spec {p : Parts α} (hp : p.tree ≠ .nil) :
    ∃ t, ipcSplayPrimAssemble p = some t ∧ t.toList = p.inorder ∧ t ≠ .nil := by
  obtain ⟨tree, ltree, rtree⟩ := p
  cases tree with
  | nil => exact absurd rfl hp
  | node l n e r =>
    refine ⟨_, rfl, ?_, fun h => (by cases h)⟩
    simp [SearchTree.Tree.toList, toList_fillLeft, toList_fillRight, Parts.inorder]

/-! ## The invariant -/

/-- The names and entries in order; the other fields count only when there is a root. -/
def Splay.inorder (s : Splay α) : List (MachPort × α) :=
  if s.istRoot.isNil then [] else s.parts.inorder

/-- The tree is in order and taken apart at the name of the last lookup, and it stands for
the map. -/
structure Splay.Holds (s : Splay α) (m : MachPort → Option α) : Prop where
  placed : s.istRoot ≠ .nil → s.parts.At s.istName
  represents : Represents s.inorder m

theorem Splay.inorder_of_ne {s : Splay α} (h : s.istRoot ≠ .nil) : s.inorder = s.parts.inorder := by
  rw [Splay.inorder, SearchTree.Tree.isNil_eq_false.mpr h]
  rfl

theorem Splay.reset_inorder (s : Splay α) (t : STree α) : (s.reset t).inorder = t.toList := by
  cases t with
  | nil => rfl
  | node l n e r =>
    change leftList [] ++ ((SearchTree.Tree.node l n e r).toList ++ rightList []) = _
    simp [leftList, rightList]

theorem Splay.reset_placed (s : Splay α) {t : STree α} (ht : Ordered t.toList) :
    (s.reset t).istRoot ≠ .nil → (s.reset t).parts.At (s.reset t).istName := by
  cases t with
  | nil => exact fun h => absurd rfl h
  | node l n e r =>
    intro _
    refine ⟨?_, Below.nil _, Above.nil _, .inl rfl⟩
    change Ordered (leftList [] ++ ((SearchTree.Tree.node l n e r).toList ++ rightList []))
    simpa [leftList, rightList] using ht

theorem Splay.reset_holds (s : Splay α) {t : STree α} {m : MachPort → Option α}
    (h : Represents t.toList m) : (s.reset t).Holds m := by
  refine ⟨s.reset_placed h.ordered, ?_⟩
  rw [s.reset_inorder]
  exact h

theorem Splay.init_holds (s : Splay α) : (ipcSplayTreeInit s).Holds (fun _ => none) :=
  ⟨fun h => absurd rfl h, Represents.nil⟩

theorem Parts.At.holds {p : Parts α} {name : MachPort} {m : MachPort → Option α} (h : p.At name)
    (hm : Represents p.inorder m) : Splay.Holds ⟨name, p.tree, p.ltree, p.rtree⟩ m := by
  refine ⟨fun _ => h, ?_⟩
  obtain ⟨l, n, e, r, hp⟩ := h.exists_node
  rw [Splay.inorder_of_ne (by rw [hp]; exact fun h => (by cases h))]
  exact hm

section operations
variable {s small : Splay α} {m m' : MachPort → Option α}

theorem Splay.Holds.map_eq_none (h : s.Holds m) (hs : s.istRoot = .nil) : m = fun _ => none := by
  have hr := h.represents
  rw [Splay.inorder, hs] at hr
  exact hr.map_unique Represents.nil

theorem Splay.Holds.search (h : s.Holds m) (hs : s.istRoot ≠ .nil) (name : MachPort) :
    ∃ p, s.search name = some p ∧ p.At name ∧ Represents p.inorder m := by
  have hat := h.placed hs
  have hrep := h.represents
  rw [Splay.inorder_of_ne hs] at hrep
  rw [Splay.search]
  by_cases hn : s.istName = name
  · rw [if_neg (not_not.mpr hn)]
    rw [hn] at hat
    exact ⟨_, rfl, hat, hrep⟩
  · rw [if_pos hn]
    obtain ⟨t, ht, hlist, hne⟩ := ipcSplayPrimAssemble_spec (show s.parts.tree ≠ .nil from hs)
    have heq : leftList [] ++ (t.toList ++ rightList []) = t.toList := by
      simp [leftList, rightList]
    obtain ⟨p, hp, hin, hpat⟩ := @ipcSplayPrimLookup_spec α name t [] [] hne
      (by rw [heq, hlist]; exact hat.ordered) (Below.nil _) (Above.nil _)
    rw [heq, hlist] at hin
    refine ⟨p, ?_, hpat, by rw [hin]; exact hrep⟩
    rw [ht, Option.bind_some]
    exact hp

theorem Splay.Holds.lookup (h : s.Holds m) (name : MachPort) :
    ∃ s', ipcSplayTreeLookup s name = some (s', m name) ∧ s'.Holds m := by
  unfold ipcSplayTreeLookup
  split
  · next hs => exact ⟨s, by rw [h.map_eq_none hs], h⟩
  · next hs =>
    obtain ⟨p, hp, hat, hrep⟩ := h.search (by rw [hs]; exact fun h => (by cases h)) name
    obtain ⟨l, n, e, r, ht⟩ := hat.exists_node
    refine ⟨_, ?_, hat.holds hrep⟩
    rw [hp, Option.bind_some, ht]
    by_cases hn : name = n
    · have hmem : (n, e) ∈ p.inorder := by simp [Parts.inorder, ht, SearchTree.Tree.toList]
      simp [hn, (hrep.mem _ _).mp hmem]
    · have hnone : m name = none := by
        apply hrep.eq_none
        intro q hq
        rw [Parts.inorder] at hq
        rcases lt_or_gt_of_ne hn with hlt | hgt
        · rcases mem_append.mp hq with hq | hq
          · exact (hat.below q hq).ne
          · exact ((hat.above_tree ht hlt).2 q hq).ne'
        · rw [← append_assoc] at hq
          rcases mem_append.mp hq with hq | hq
          · exact ((hat.below_tree ht hgt).2 q hq).ne
          · exact (hat.above q hq).ne'
      simp [hn, hnone]

theorem Splay.Holds.pick (h : s.Holds m) :
    (ipcSplayTreePick s = none → ∀ name, m name = none) ∧
      ∀ name e, ipcSplayTreePick s = some (name, e) → m name = some e := by
  unfold ipcSplayTreePick
  cases hs : s.istRoot with
  | nil =>
    rw [h.map_eq_none hs]
    exact ⟨fun _ _ => rfl, fun _ _ h => (by cases h)⟩
  | node l n e r =>
    refine ⟨fun h => (by cases h), ?_⟩
    intro name e' heq
    cases heq
    apply (h.represents.mem n e).mp
    rw [Splay.inorder_of_ne (by rw [hs]; exact fun h => (by cases h))]
    simp [Parts.inorder, Splay.parts, hs, SearchTree.Tree.toList]

theorem Splay.Holds.insert (h : s.Holds m) {name : MachPort} (hm : m name = none) (entry : α) :
    ∃ s', ipcSplayTreeInsert s name entry = some s' ∧
      s'.Holds (update m name (some entry)) := by
  unfold ipcSplayTreeInsert
  split
  · next hs =>
    refine ⟨_, rfl, ?_⟩
    apply Splay.reset_holds s (t := .node .nil name entry .nil)
    have hrep := @Represents.insert _ _ _ [] [] name m (by
      rw [h.map_eq_none hs]
      exact Represents.nil) (Below.nil _) (Above.nil _) entry
    exact hrep
  · next hs =>
    obtain ⟨p, hp, hat, hrep⟩ := h.search (by rw [hs]; exact fun h => (by cases h)) name
    obtain ⟨l, n, e, r, ht⟩ := hat.exists_node
    have hne : n ≠ name := by
      rintro rfl
      have hmem : (n, e) ∈ p.inorder := by simp [Parts.inorder, ht, SearchTree.Tree.toList]
      rw [(hrep.mem _ _).mp hmem] at hm
      cases hm
    rw [hp, Option.bind_some, ht]
    rcases lt_or_gt_of_ne hne with hgt | hlt
    · obtain ⟨hr, hbelow⟩ := hat.below_tree ht hgt
      have hnil : r.isNil = true := SearchTree.Tree.isNil_eq_true.mpr hr
      simp only [hne, hgt.le.not_gt, hnil, if_false, if_true]
      refine ⟨_, rfl, ?_⟩
      apply Splay.reset_holds s (t := .node (fillLeft p.ltree (.node l n e r)) name entry
        (fillRight p.rtree .nil))
      rw [← ht]
      rw [Parts.inorder, ← append_assoc] at hrep
      have := hrep.insert hbelow hat.above entry
      simpa [SearchTree.Tree.toList, toList_fillLeft, toList_fillRight] using this
    · obtain ⟨hl, habove⟩ := hat.above_tree ht hlt
      have hnil : l.isNil = true := SearchTree.Tree.isNil_eq_true.mpr hl
      simp only [hne, hlt, hnil, if_false, if_true]
      refine ⟨_, rfl, ?_⟩
      apply Splay.reset_holds s (t := .node (fillLeft p.ltree .nil) name entry
        (fillRight p.rtree (.node l n e r)))
      rw [← ht]
      have := hrep.insert hat.below habove entry
      simpa [SearchTree.Tree.toList, toList_fillLeft, toList_fillRight] using this

theorem largest_to_root {t : STree α} (ht : t ≠ .nil) (ho : Ordered t.toList) :
    ∃ l n e, (ipcSplayPrimLookup machPortLargest t [] []).bind ipcSplayPrimAssemble =
      some (.node l n e .nil) ∧ (SearchTree.Tree.node l n e .nil).toList = t.toList := by
  have heq : leftList [] ++ (t.toList ++ rightList []) = t.toList := by
    simp [leftList, rightList]
  obtain ⟨p, hp, hin, hat⟩ := @ipcSplayPrimLookup_spec α machPortLargest t [] [] ht
    (by rw [heq]; exact ho) (Below.nil _) (Above.nil _)
  rw [heq] at hin
  obtain ⟨l, n, e, r, htree⟩ := hat.exists_node
  -- nothing is above the largest name, so the root has no right subtree
  have htop : ∀ k : MachPort, k ≤ machPortLargest := fun k => Fin.le_def.mpr (by
    change k.val ≤ 2 ^ 32 - 1
    omega)
  have hright : rightList p.rtree = [] := hat.above.eq_nil htop
  have hr : r = .nil := by
    rcases (htop n).lt_or_eq with hlt | heq
    · exact (hat.below_tree htree hlt).1
    · have ho := (ordered_append.mp (ordered_append.mp hat.ordered).2.1).1
      rw [htree] at ho
      have habove := (ordered_middle.mp ho).2.2.2
      rw [heq] at habove
      exact SearchTree.Tree.toList_eq_nil.mp (habove.eq_nil htop)
  have hfill : fillRight p.rtree (.nil : STree α) = .nil := by
    apply SearchTree.Tree.toList_eq_nil.mp
    rw [toList_fillRight, hright]
    rfl
  obtain ⟨tree, ltree, rtree⟩ := p
  subst htree hr
  simp only at hfill hright
  refine ⟨fillLeft ltree l, n, e, ?_, ?_⟩
  · rw [hp, Option.bind_some, ipcSplayPrimAssemble, hfill]
  · rw [← hin]
    simp [SearchTree.Tree.toList, toList_fillLeft, Parts.inorder, hright]

theorem joinTrees_spec {root saved : STree α} (ho : Ordered (root.toList ++ saved.toList)) :
    ∃ t, joinTrees root saved = some t ∧ t.toList = root.toList ++ saved.toList := by
  unfold joinTrees
  cases hroot : root.isNil with
  | true =>
    rw [SearchTree.Tree.isNil_eq_true.mp hroot]
    exact ⟨saved, rfl, rfl⟩
  | false =>
    cases hsaved : saved.isNil with
    | true =>
      rw [SearchTree.Tree.isNil_eq_true.mp hsaved]
      exact ⟨root, rfl, (append_nil _).symm⟩
    | false =>
      obtain ⟨l, n, e, hbig, hlist⟩ := largest_to_root (SearchTree.Tree.isNil_eq_false.mp hroot)
        (ordered_append.mp ho).1
      refine ⟨.node l n e saved, ?_, ?_⟩
      · simp [hbig]
      · rw [← hlist]
        simp [SearchTree.Tree.toList]

theorem Splay.Holds.delete [DecidableEq α] (h : s.Holds m) {name : MachPort} {entry : α}
    (hm : m name = some entry) :
    ∃ s', ipcSplayTreeDelete s name entry = some s' ∧ s'.Holds (update m name none) := by
  unfold ipcSplayTreeDelete
  split
  · next hs =>
    rw [h.map_eq_none hs] at hm
    cases hm
  · next hs =>
    obtain ⟨p, hp, hat, hrep⟩ := h.search (by rw [hs]; exact fun h => (by cases h)) name
    obtain ⟨l, n, e, r, ht⟩ := hat.exists_node
    have hn : n = name := by
      by_contra hne
      have hmem := (hrep.mem _ _).mpr hm
      rw [Parts.inorder] at hmem
      rcases lt_or_gt_of_ne hne with hgt | hlt
      · rw [← append_assoc] at hmem
        rcases mem_append.mp hmem with hmem | hmem
        · exact lt_irrefl _ ((hat.below_tree ht hgt).2 _ hmem)
        · exact lt_irrefl _ (hat.above _ hmem)
      · rcases mem_append.mp hmem with hmem | hmem
        · exact lt_irrefl _ (hat.below _ hmem)
        · exact lt_irrefl _ ((hat.above_tree ht hlt).2 _ hmem)
    subst hn
    have hmem : (n, e) ∈ p.inorder := by simp [Parts.inorder, ht, SearchTree.Tree.toList]
    have he : e = entry := hrep.eq_of_mem hmem ((hrep.mem _ _).mpr hm)
    have heq : p.inorder = (leftList p.ltree ++ l.toList) ++ (n, e) ::
        (r.toList ++ rightList p.rtree) := by
      simp [Parts.inorder, ht, SearchTree.Tree.toList]
    rw [heq] at hrep
    have hdel := hrep.delete
    have hlist : (fillLeft p.ltree l).toList ++ (fillRight p.rtree r).toList =
        (leftList p.ltree ++ l.toList) ++ (r.toList ++ rightList p.rtree) := by
      rw [toList_fillLeft, toList_fillRight]
    obtain ⟨t, hjoin, htlist⟩ := @joinTrees_spec α (fillLeft p.ltree l) (fillRight p.rtree r)
      (by rw [hlist]; exact hdel.ordered)
    refine ⟨s.reset t, ?_, Splay.reset_holds s (by rw [htlist, hlist]; exact hdel)⟩
    simp [hp, ht, he, hjoin]

theorem Splay.Holds.split (h : s.Holds m) (name : MachPort) (small : Splay α) :
    ∃ s' small', ipcSplayTreeSplit s name small = some (s', small') ∧
      s'.Holds (fun n => if n < name then none else m n) ∧
      small'.Holds (fun n => if n < name then m n else none) := by
  unfold ipcSplayTreeSplit
  split
  · next hs =>
    obtain rfl := h.map_eq_none hs
    exact ⟨_, _, rfl, by simpa using h, by simpa using Splay.init_holds small⟩
  · next hs =>
    obtain ⟨p, hp, hat, hrep⟩ := h.search (by rw [hs]; exact fun h => (by cases h)) name
    obtain ⟨l, n, e, r, ht⟩ := hat.exists_node
    rw [hp, Option.bind_some, ht]
    by_cases hlt : n < name
    · obtain ⟨hr, hbelow⟩ := hat.below_tree ht hlt
      have hnil : r.isNil = true := SearchTree.Tree.isNil_eq_true.mpr hr
      simp only [hlt, hnil, if_true]
      rw [Parts.inorder, ← append_assoc] at hrep
      have hge : ∀ q ∈ rightList p.rtree, name ≤ q.1 := fun q hq => (hat.above q hq).le
      refine ⟨_, _, rfl, Splay.reset_holds s ?_, ?_⟩
      · rw [toList_fillRight]
        exact hrep.above hbelow hge
      · apply Splay.reset_holds small (t := .node (fillLeft p.ltree l) n e r)
        have := hrep.below hbelow hge
        simpa [ht, SearchTree.Tree.toList, toList_fillLeft] using this
    · simp only [hlt, if_false]
      have hle : name ≤ n := not_lt.mp hlt
      have hsplit : p.inorder = (leftList p.ltree ++ l.toList) ++
          ((SearchTree.Tree.node .nil n e r).toList ++ rightList p.rtree) := by
        simp [Parts.inorder, ht, SearchTree.Tree.toList]
      rw [hsplit] at hrep
      have hmid := hrep.ordered
      have hmid' : Ordered ((leftList p.ltree ++ l.toList) ++ (n, e) :: (r.toList ++ rightList p.rtree)) := by
        simpa [SearchTree.Tree.toList] using hmid
      have hbelow : Below (leftList p.ltree ++ l.toList) name := by
        refine below_append.mpr ⟨hat.below, ?_⟩
        rcases hle.lt_or_eq with hlt' | heq
        · rw [(hat.above_tree ht hlt').1]
          exact Below.nil _
        · rw [heq]
          exact (below_append.mp (ordered_middle.mp hmid').2.2.1).2
      have hge : ∀ q ∈ (SearchTree.Tree.node .nil n e r).toList ++ rightList p.rtree, name ≤ q.1 := by
        intro q hq
        rcases mem_cons.mp (show q ∈ (n, e) :: (r.toList ++ rightList p.rtree) by
          simpa [SearchTree.Tree.toList] using hq) with rfl | hq
        · exact hle
        · exact hle.trans ((ordered_middle.mp hmid').2.2.2 q hq).le
      refine ⟨_, _, rfl, ?_, Splay.reset_holds small ?_⟩
      · have hup := hrep.above hbelow hge
        apply Parts.At.holds (p := ⟨.node .nil n e r, [], p.rtree⟩)
        · refine ⟨hup.ordered, Below.nil _, hat.above, ?_⟩
          rcases hle.lt_or_eq with hlt' | heq
          · exact .inr (.inl ⟨hlt', rfl⟩)
          · exact .inl heq
        · exact hup
      · rw [toList_fillLeft]
        exact hrep.below hbelow hge

theorem Splay.Holds.join (h : s.Holds m) (h' : small.Holds m')
    (hlt : ∀ k k', m' k ≠ none → m k' ≠ none → k < k') :
    ∃ s' small', ipcSplayTreeJoin s small = some (s', small') ∧ s'.Holds (union m' m) ∧
      small'.Holds (fun _ => none) := by
  unfold ipcSplayTreeJoin
  split
  · next hsmall =>
    obtain rfl := h'.map_eq_none hsmall
    have hunion : union (fun _ => none) m = m := by
      funext k
      simp [union]
    exact ⟨_, _, rfl, by rw [hunion]; exact h, h'⟩
  · next hsmall =>
    have hsmallne : small.istRoot ≠ .nil := by
      rw [hsmall]
      exact fun h => (by cases h)
    have hrep' := h'.represents
    rw [Splay.inorder_of_ne hsmallne] at hrep'
    obtain ⟨sroot, hass, hslist, hsne⟩ :=
      ipcSplayPrimAssemble_spec (show small.parts.tree ≠ .nil from hsmallne)
    rw [← hslist] at hrep'
    rw [hass, Option.bind_some]
    split
    · next hs =>
      obtain rfl := h.map_eq_none hs
      have hunion : union m' (fun _ => none) = m' := by
        funext k
        simp [union]
      refine ⟨_, _, rfl, ?_, Splay.init_holds small⟩
      rw [hunion]
      exact Splay.reset_holds s hrep'
    · next hs =>
      obtain ⟨p, hp, hat, hrep⟩ := h.search (by rw [hs]; exact fun h => (by cases h)) machPortSmallest
      obtain ⟨l, n, e, r, ht⟩ := hat.exists_node
      -- nothing is below the smallest name, so the root has no left subtree
      have hbot : ∀ k : MachPort, machPortSmallest ≤ k := fun k => Fin.le_def.mpr (Nat.zero_le _)
      have hleft : leftList p.ltree = [] := hat.below.eq_nil hbot
      have hl : l = .nil := by
        rcases (hbot n).lt_or_eq with hlt | heq
        · exact (hat.above_tree ht hlt).1
        · have ho := (ordered_append.mp (ordered_append.mp hat.ordered).2.1).1
          rw [ht] at ho
          have hbelow := (ordered_middle.mp ho).2.2.1
          rw [← heq] at hbelow
          exact SearchTree.Tree.toList_eq_nil.mp (hbelow.eq_nil hbot)
      have hfill : fillLeft p.ltree (.nil : STree α) = .nil := by
        apply SearchTree.Tree.toList_eq_nil.mp
        rw [toList_fillLeft, hleft]
        rfl
      have hroot : ipcSplayPrimAssemble p = some (.node .nil n e (fillRight p.rtree r)) := by
        obtain ⟨tree, ltree, rtree⟩ := p
        subst ht hl
        simp only [ipcSplayPrimAssemble]
        rw [show fillLeft ltree (.nil : STree α) = .nil from hfill]
      have hin : p.inorder = (n, e) :: (fillRight p.rtree r).toList := by
        simp [Parts.inorder, hleft, ht, hl, SearchTree.Tree.toList, toList_fillRight]
      rw [hin] at hrep
      rw [hp, Option.bind_some, hroot, Option.bind_some]
      cases sroot with
      | nil => exact absurd rfl hsne
      | node sl sn se sr =>
        have hbetween : ∀ q ∈ (SearchTree.Tree.node sl sn se sr).toList, ∀ q' ∈ (n, e) :: (fillRight p.rtree r).toList,
            q.1 < q'.1 := by
          intro q hq q' hq'
          apply hlt
          · rw [(hrep'.mem q.1 q.2).mp hq]
            exact fun h => (by cases h)
          · rw [(hrep.mem q'.1 q'.2).mp hq']
            exact fun h => (by cases h)
        have hsn : sn < n := hbetween (sn, se) (by simp [SearchTree.Tree.toList]) (n, e) mem_cons_self
        simp only [hsn, if_true]
        refine ⟨_, _, rfl, Splay.reset_holds s ?_, Splay.init_holds small⟩
        exact hrep'.append hrep hbetween

/-- The largest name of the map up to `name`, or `~0`. -/
def IsLower (m : MachPort → Option α) (name lower : MachPort) : Prop :=
  ((∃ a, m lower = some a) ∧ lower ≤ name ∧ ∀ k a, m k = some a → k ≤ name → k ≤ lower) ∨
    (lower = machPortLargest ∧ ∀ k a, m k = some a → ¬ k ≤ name)

/-- The smallest name of the map from `name` on, or `0`. -/
def IsUpper (m : MachPort → Option α) (name upper : MachPort) : Prop :=
  ((∃ a, m upper = some a) ∧ name ≤ upper ∧ ∀ k a, m k = some a → name ≤ k → upper ≤ k) ∨
    (upper = machPortSmallest ∧ ∀ k a, m k = some a → ¬ name ≤ k)

theorem isLower_of_split {xs ys : List (MachPort × α)} {name n : MachPort} {e : α}
    (hrep : Represents (xs ++ (n, e) :: ys) m) (hn : n ≤ name) (hys : Above ys name) :
    IsLower m name n := by
  refine .inl ⟨⟨e, (hrep.mem n e).mp (by simp)⟩, hn, ?_⟩
  intro k a hk hle
  have hmem := (hrep.mem k a).mpr hk
  rcases mem_append.mp hmem with hmem | hmem
  · exact ((ordered_middle.mp hrep.ordered).2.2.1 _ hmem).le
  · rcases mem_cons.mp hmem with heq | hmem
    · exact (Prod.mk.inj heq).1.le
    · exact absurd hle (not_le_of_gt (hys _ hmem))

theorem isUpper_of_split {xs ys : List (MachPort × α)} {name n : MachPort} {e : α}
    (hrep : Represents (xs ++ (n, e) :: ys) m) (hn : name ≤ n) (hxs : Below xs name) :
    IsUpper m name n := by
  refine .inl ⟨⟨e, (hrep.mem n e).mp (by simp)⟩, hn, ?_⟩
  intro k a hk hle
  have hmem := (hrep.mem k a).mpr hk
  rcases mem_append.mp hmem with hmem | hmem
  · exact absurd hle (not_le_of_gt (hxs _ hmem))
  · rcases mem_cons.mp hmem with heq | hmem
    · exact (Prod.mk.inj heq).1.ge
    · exact ((ordered_middle.mp hrep.ordered).2.2.2 _ hmem).le

theorem Splay.Holds.bounds (h : s.Holds m) (name : MachPort) :
    ∃ s' lower upper, ipcSplayTreeBounds s name = some (s', lower, upper) ∧ s'.Holds m ∧
      IsLower m name lower ∧ IsUpper m name upper := by
  unfold ipcSplayTreeBounds
  split
  · next hs =>
    obtain rfl := h.map_eq_none hs
    exact ⟨_, _, _, rfl, h, .inr ⟨rfl, fun _ _ h => (by cases h)⟩,
      .inr ⟨rfl, fun _ _ h => (by cases h)⟩⟩
  · next hs =>
    obtain ⟨p, hp, hat, hrep⟩ := h.search (by rw [hs]; exact fun h => (by cases h)) name
    obtain ⟨l, n, e, r, ht⟩ := hat.exists_node
    rw [hp, Option.bind_some]
    have hholds := hat.holds hrep
    have hmid : p.inorder = (leftList p.ltree ++ l.toList) ++ (n, e) ::
        (r.toList ++ rightList p.rtree) := by
      simp [Parts.inorder, ht, SearchTree.Tree.toList]
    have hmid' : Represents ((leftList p.ltree ++ l.toList) ++ (n, e) ::
        (r.toList ++ rightList p.rtree)) m := by
      rw [← hmid]
      exact hrep
    obtain ⟨-, -, hbelow, habove⟩ := ordered_middle.mp hmid'.ordered
    have hlow : n ≤ name → IsLower m name n := by
      intro hle
      apply isLower_of_split hmid' hle
      rcases hle.lt_or_eq with hlt | heq
      · rw [(hat.below_tree ht hlt).1]
        exact hat.above
      · rw [← heq]
        exact habove
    have hup : name ≤ n → IsUpper m name n := by
      intro hle
      apply isUpper_of_split hmid' hle
      rcases hle.lt_or_eq with hlt | heq
      · rw [(hat.above_tree ht hlt).1]
        simpa [SearchTree.Tree.toList] using hat.below
      · rw [heq]
        exact hbelow
    simp only [ht]
    rw [← ht]
    refine ⟨_, _, _, rfl, hholds, ?_, ?_⟩
    · by_cases hle : n ≤ name
      · rw [if_pos hle]
        exact hlow hle
      rw [if_neg hle]
      have hgt : name < n := not_le.mp hle
      have habove' := (hat.above_tree ht hgt).2
      cases hl : p.ltree with
      | nil =>
        refine .inr ⟨rfl, ?_⟩
        intro k a hk hkn
        have hmem := (hrep.mem k a).mpr hk
        rw [Parts.inorder, hl] at hmem
        exact absurd (habove' _ hmem) (not_lt_of_ge hkn)
      | cons x ltree =>
        obtain ⟨xl, xn, xe⟩ := x
        have hb := hat.below
        have hsplit : p.inorder = (leftList ltree ++ xl.toList) ++ (xn, xe) ::
            (p.tree.toList ++ rightList p.rtree) := by
          simp [Parts.inorder, hl, leftList]
        rw [hsplit] at hrep
        apply isLower_of_split hrep _ habove'
        exact (hb (xn, xe) (by simp [hl, leftList])).le
    · by_cases hle : name ≤ n
      · rw [if_pos hle]
        exact hup hle
      rw [if_neg hle]
      have hlt : n < name := not_le.mp hle
      have hbelow' := (hat.below_tree ht hlt).2
      cases hr : p.rtree with
      | nil =>
        refine .inr ⟨rfl, ?_⟩
        intro k a hk hkn
        have hmem := (hrep.mem k a).mpr hk
        rw [Parts.inorder, hr, rightList, append_nil] at hmem
        exact absurd (hbelow' _ hmem) (not_lt_of_ge hkn)
      | cons x rtree =>
        obtain ⟨xn, xe, xr⟩ := x
        have ha := hat.above
        have hsplit : p.inorder = (leftList p.ltree ++ p.tree.toList) ++ (xn, xe) ::
            (xr.toList ++ rightList rtree) := by
          simp [Parts.inorder, hr, rightList]
        rw [hsplit] at hrep
        apply isUpper_of_split hrep _ hbelow'
        exact (ha (xn, xe) (by simp [hr, rightList])).le

end operations

/-! ## Every sequence of operations on a family of trees -/

/-- The operations, on the trees named by numbers. -/
inductive SplayOp (α : Type) where
  | lookup (i : ℕ) (name : MachPort)
  | insert (i : ℕ) (name : MachPort) (entry : α)
  | delete (i : ℕ) (name : MachPort) (entry : α)
  | pick (i : ℕ)
  | split (i : ℕ) (name : MachPort) (small : ℕ)
  | join (i small : ℕ)

/-- What an operation returns. -/
inductive SplayAnswer (α : Type) where
  | found (e : Option α)
  | picked (e : Option (MachPort × α))
  | done

abbrev SplayFamily (α : Type) := ℕ → Splay α

def SplayFamily.step [DecidableEq α] (f : SplayFamily α) :
    SplayOp α → Option (SplayFamily α × SplayAnswer α)
  | .lookup i name => (ipcSplayTreeLookup (f i) name).map (fun r =>
    (update f i r.1, .found r.2))
  | .insert i name entry => (ipcSplayTreeInsert (f i) name entry).map (fun s =>
    (update f i s, .done))
  | .delete i name entry => (ipcSplayTreeDelete (f i) name entry).map (fun s =>
    (update f i s, .done))
  | .pick i => some (f, .picked (ipcSplayTreePick (f i)))
  | .split i name small => (ipcSplayTreeSplit (f i) name (f small)).map (fun r =>
    (update (update f i r.1) small r.2, .done))
  | .join i small => (ipcSplayTreeJoin (f i) (f small)).map (fun r =>
    (update (update f i r.1) small r.2, .done))

/-! ### The finite maps -/

abbrev MapFamily (α : Type) := ℕ → MachPort → Option α

/-- The condition under which an operation may be called. -/
def SplayOp.Allowed (m : MapFamily α) : SplayOp α → Prop
  | .lookup _ _ => True
  | .insert i name _ => m i name = none
  | .delete i name entry => m i name = some entry
  | .pick _ => True
  | .split i _ small => i ≠ small
  | .join i small => i ≠ small ∧ ∀ k k', m small k ≠ none → m i k' ≠ none → k < k'

/-- What an operation does to the maps. -/
def MapFamily.step (m : MapFamily α) : SplayOp α → MapFamily α
  | .lookup _ _ => m
  | .insert i name entry => update m i (update (m i) name (some entry))
  | .delete i name _ => update m i (update (m i) name none)
  | .pick _ => m
  | .split i name small => update (update m i
      (fun n => if n < name then none else m i n)) small (fun n => if n < name then m i n else none)
  | .join i small => update (update m i (union (m small) (m i))) small
      (fun _ => none)

/-- The answer that the maps allow. -/
def SplayOp.Answers (m : MapFamily α) : SplayOp α → SplayAnswer α → Prop
  | .lookup i name, a => a = .found (m i name)
  | .pick i, a => (a = .picked none ∧ ∀ name, m i name = none) ∨
      ∃ name e, a = .picked (some (name, e)) ∧ m i name = some e
  | _, a => a = .done

theorem holds_update {f : SplayFamily α} {m : MapFamily α} (h : ∀ i, (f i).Holds (m i)) {i : ℕ}
    {s : Splay α} {mi : MachPort → Option α} (hs : s.Holds mi) (j : ℕ) :
    (update f i s j).Holds (update m i mi j) := by
  by_cases hj : j = i
  · rw [hj, update_self, update_self]
    exact hs
  · rw [update_of_ne hj, update_of_ne hj]
    exact h j

theorem SplayFamily.step_spec [DecidableEq α] {f : SplayFamily α} {m : MapFamily α}
    (h : ∀ i, (f i).Holds (m i)) {op : SplayOp α} (hop : op.Allowed m) :
    ∃ f' a, f.step op = some (f', a) ∧ op.Answers m a ∧ ∀ i, (f' i).Holds (m.step op i) := by
  cases op with
  | lookup i name =>
    obtain ⟨s', hrun, hs'⟩ := (h i).lookup name
    refine ⟨_, _, by rw [SplayFamily.step, hrun, Option.map_some], rfl, ?_⟩
    intro j
    have := @holds_update α f m h i s' (m i) hs' j
    rwa [update_eq_self] at this
  | insert i name entry =>
    obtain ⟨s', hrun, hs'⟩ := (h i).insert hop entry
    exact ⟨_, _, by rw [SplayFamily.step, hrun, Option.map_some], rfl, holds_update h hs'⟩
  | delete i name entry =>
    obtain ⟨s', hrun, hs'⟩ := (h i).delete hop
    exact ⟨_, _, by rw [SplayFamily.step, hrun, Option.map_some], rfl, holds_update h hs'⟩
  | pick i =>
    refine ⟨_, _, rfl, ?_, h⟩
    obtain ⟨hnone, hsome⟩ := (h i).pick
    cases hp : ipcSplayTreePick (f i) with
    | none => exact .inl ⟨rfl, hnone hp⟩
    | some r => exact .inr ⟨r.1, r.2, rfl, hsome r.1 r.2 hp⟩
  | split i name small =>
    obtain ⟨s', small', hrun, hs', hsmall'⟩ := (h i).split name (f small)
    exact ⟨_, _, by rw [SplayFamily.step, hrun, Option.map_some], rfl,
      holds_update (holds_update h hs') hsmall'⟩
  | join i small =>
    obtain ⟨s', small', hrun, hs', hsmall'⟩ := (h i).join (h small) hop.2
    exact ⟨_, _, by rw [SplayFamily.step, hrun, Option.map_some], rfl,
      holds_update (holds_update h hs') hsmall'⟩

/-- The trees and the maps side by side. -/
def stepBoth [DecidableEq α] (s : SplayFamily α × MapFamily α) (op : SplayOp α)
    (t : SplayFamily α × MapFamily α) : Prop :=
  op.Allowed s.2 ∧ ∃ a, s.1.step op = some (t.1, a) ∧ t.2 = s.2.step op

theorem stepBoth_holds [DecidableEq α] (s : SplayFamily α × MapFamily α) (op : SplayOp α)
    (t : SplayFamily α × MapFamily α) (h : ∀ i, (s.1 i).Holds (s.2 i)) (hstep : stepBoth s op t) :
    ∀ i, (t.1 i).Holds (t.2 i) := by
  obtain ⟨hop, a, hrun, hmap⟩ := hstep
  obtain ⟨f', a', hrun', -, hok⟩ := SplayFamily.step_spec h hop
  rw [hrun'] at hrun
  cases hrun
  rw [hmap]
  exact hok

/-- In every run from empty trees the trees are search trees taken apart at the last name,
they stand for the maps, and every allowed operation passes its assertions and answers as the
maps do. -/
theorem splay_refines_map [DecidableEq α] {f₀ f : SplayFamily α} {m : MapFamily α}
    {ops : List (SplayOp α)} (h₀ : ∀ i, (f₀ i).istRoot = .nil)
    (hrun : Run stepBoth (f₀, fun _ _ => none) ops (f, m)) :
    (∀ i, (f i).istRoot ≠ .nil → (f i).parts.At (f i).istName) ∧
    (∀ i, Represents (f i).inorder (m i)) ∧
    ∀ op : SplayOp α, op.Allowed m → ∃ f' a, f.step op = some (f', a) ∧ op.Answers m a ∧
      ∀ i, ((f' i).istRoot ≠ .nil → (f' i).parts.At (f' i).istName) ∧
        Represents (f' i).inorder (m.step op i) := by
  have hstart : ∀ i, (f₀ i).Holds (fun _ => none) := by
    intro i
    have := Splay.init_holds (f₀ i)
    rwa [ipcSplayTreeInit, ← h₀ i] at this
  have hok := Run.invariant stepBoth_holds hrun hstart
  refine ⟨fun i => (hok i).placed, fun i => (hok i).represents, ?_⟩
  intro op hop
  obtain ⟨f', a, hstep, hans, hok'⟩ := SplayFamily.step_spec hok hop
  exact ⟨f', a, hstep, hans, fun i => ⟨(hok' i).placed, (hok' i).represents⟩⟩

/-- Three entries, a failing lookup between them, and a split at its name. -/
theorem splay_refines_map_split :
    ∃ (ops : List (SplayOp ℕ)) (f : SplayFamily ℕ) (m : MapFamily ℕ),
      Run stepBoth (fun _ => ⟨0, .nil, [], []⟩, fun _ _ => none) ops (f, m) ∧
      ops.length = 5 ∧ m 1 7 = some 70 ∧ (7, 70) ∈ (f 1).inorder := by
  have h1 := Run.snoc (Run.nil (fun _ => ⟨0, .nil, [], []⟩, fun _ _ => none))
    (show stepBoth _ (.insert 0 7 70) (_, _) from ⟨rfl, _, rfl, rfl⟩)
  have h2 := h1.snoc (show stepBoth _ (.insert 0 3 30) (_, _) from ⟨rfl, _, rfl, rfl⟩)
  have h3 := h2.snoc (show stepBoth _ (.insert 0 9 90) (_, _) from ⟨rfl, _, rfl, rfl⟩)
  have h4 := h3.snoc (show stepBoth _ (.lookup 0 8) (_, _) from ⟨trivial, _, rfl, rfl⟩)
  have h5 := h4.snoc (show stepBoth _ (.split 0 8 1) (_, _) from ⟨Nat.zero_ne_one, _, rfl, rfl⟩)
  refine ⟨_, _, _, h5, rfl, rfl, ?_⟩
  exact (((splay_refines_map (fun _ => rfl) h5).2.1 1).mem 7 70).mpr rfl

end Darwin.Ipc
