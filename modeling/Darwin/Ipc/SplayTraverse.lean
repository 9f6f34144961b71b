import Darwin.Ipc.Splay

/-! # The traversal of a splay tree

The traversal goes through the tree in order by pointer inversion: on the way down the child
pointer of an entry is turned to its parent. The entries above the current one are frames,
and the comparison of names by which the code finds the turned pointer must agree with them.
-/
namespace Darwin.Ipc
open Darwin.Lib Darwin.Lib.SearchTree List
variable {α β : Type}

/-- An entry whose left or right child pointer leads to its parent. -/
inductive Frame (α : Type) where
  | left (name : MachPort) (entry : α) (rchild : STree α)
  | right (lchild : STree α) (name : MachPort) (entry : α)

/-- The fields `ist_ltree` and `ist_rtree` during a traversal. -/
structure Traversal (α : Type) where
  current : STree α
  parents : List (Frame α)

/-- A traversal stops at an entry, or ends with a tree. -/
abbrev Traversed (α : Type) := Traversal α ⊕ STree α

def traverseLeft : STree α → List (Frame α) → Traversal α
  | .nil, parents => ⟨.nil, parents⟩
  | .node l n e r, parents =>
    if l.isNil then ⟨.node l n e r, parents⟩ else traverseLeft l (.left n e r :: parents)

/-- The label `traverse_back`; `none` where the comparison finds the wrong pointer. -/
def traverseBack : STree α → List (Frame α) → Option (Traversed α)
  | current, [] => some (.inr current)
  | .nil, _ :: _ => none
  | .node l cn ce r, .left n e rchild :: parents =>
    if cn < n then some (.inl ⟨.node (.node l cn ce r) n e rchild, parents⟩) else none
  | .node l cn ce r, .right lchild n e :: parents =>
    if cn < n then none else traverseBack (.node lchild n e (.node l cn ce r)) parents

def traverseRight (l : STree α) (n : MachPort) (e : α) (r : STree α) (parents : List (Frame α)) :
    Option (Traversed α) :=
  if r.isNil then traverseBack (.node l n e r) parents
  else some (.inl (traverseLeft r (.right l n e :: parents)))

def ipcSplayTraverseStart (s : Splay α) : Option (Traversal α) :=
  (ipcSplayPrimAssemble s.parts).map (fun current => traverseLeft current [])

/-- The current entry is a leaf and is deleted. -/
def deleteLeaf (name : MachPort) : List (Frame α) → Option (Traversed α)
  | [] => some (.inr .nil)
  | .left n e rchild :: parents =>
    if name < n then some (.inl ⟨.node .nil n e rchild, parents⟩) else none
  | .right lchild n e :: parents =>
    if name < n then none else traverseBack (.node lchild n e .nil) parents

def ipcSplayTraverseNext (t : Traversal α) (delete : Bool) : Option (Traversed α) :=
  match t.current with
  | .nil => none
  | .node l n e r =>
    if delete = false then traverseRight l n e r t.parents
    else if l.isNil then
      if r.isNil then deleteLeaf n t.parents
      else some (.inl (traverseLeft r t.parents))
    else if r.isNil then traverseBack l t.parents
    else
      ((ipcSplayPrimLookup machPortLargest l [] []).bind ipcSplayPrimAssemble).bind (fun current =>
        match current with
        | .node l' n' e' .nil => traverseRight l' n' e' r t.parents
        | _ => none)

def ipcSplayTraverseFinish (s : Splay α) (root : STree α) : Splay α := s.reset root

/-- The loop over the entries. The body says whether the entry is deleted. -/
def traverseLoop (body : β → MachPort → α → Option (β × Bool)) :
    ℕ → Traversal α → β → Option (β × STree α)
  | 0, _, _ => none
  | fuel + 1, t, b =>
    match t.current with
    | .nil => none
    | .node _ n e _ => (body b n e).bind (fun r =>
      (ipcSplayTraverseNext t r.2).bind (fun x =>
        match x with
        | .inl t' => traverseLoop body fuel t' r.1
        | .inr root => some (r.1, root)))

/-- A whole traversal; there are as many rounds as entries. -/
def Splay.traverse (s : Splay α) (body : β → MachPort → α → Option (β × Bool)) (b : β) :
    Option (β × Splay α) :=
  match ipcSplayTraverseStart s with
  | none => some (b, s)
  | some t => (traverseLoop body s.inorder.length t b).map (fun r =>
    (r.1, ipcSplayTraverseFinish s r.2))

/-! ## The order of the entries -/

def before : List (Frame α) → List (MachPort × α)
  | [] => []
  | .left _ _ _ :: parents => before parents
  | .right l n e :: parents => before parents ++ (l.toList ++ [(n, e)])

def after : List (Frame α) → List (MachPort × α)
  | [] => []
  | .left n e r :: parents => (n, e) :: (r.toList ++ after parents)
  | .right _ _ _ :: parents => after parents

/-- The traversal is at the entry `q`, with `xs` behind it and `ys` to come. -/
def Traversal.Shows (t : Traversal α) (xs : List (MachPort × α)) (q : MachPort × α)
    (ys : List (MachPort × α)) : Prop :=
  ∃ l r, t.current = .node l q.1 q.2 r ∧ before t.parents ++ l.toList = xs ∧
    r.toList ++ after t.parents = ys

/-- The traversal goes on to the first of `ys`, or ends when there is none. -/
def Continues (x : Option (Traversed α)) (xs : List (MachPort × α)) :
    List (MachPort × α) → Prop
  | [] => ∃ t, x = some (.inr t) ∧ t.toList = xs
  | q :: ys => ∃ t, x = some (.inl t) ∧ t.Shows xs q ys

theorem traverseLeft_shows : ∀ {t : STree α} {parents : List (Frame α)}, t ≠ .nil →
    ∃ q ys, t.toList ++ after parents = q :: ys ∧
      (traverseLeft t parents).Shows (before parents) q ys := by
  intro t
  induction t with
  | nil => exact fun h => absurd rfl h
  | node l n e r ihl _ =>
    intro parents _
    cases hl : l.isNil with
    | true =>
      have hnil := SearchTree.Tree.isNil_eq_true.mp hl
      subst hnil
      refine ⟨(n, e), r.toList ++ after parents, rfl, .nil, r, rfl, ?_, rfl⟩
      simp [SearchTree.Tree.toList, traverseLeft, SearchTree.Tree.isNil]
    | false =>
      obtain ⟨q, ys, hlist, hshows⟩ := @ihl (.left n e r :: parents) (SearchTree.Tree.isNil_eq_false.mp hl)
      refine ⟨q, ys, ?_, ?_⟩
      · rw [← hlist]
        simp [SearchTree.Tree.toList, after]
      · rw [traverseLeft, hl]
        exact hshows

theorem traverseBack_continues : ∀ {parents : List (Frame α)} {current : STree α},
    current ≠ .nil → Ordered (before parents ++ (current.toList ++ after parents)) →
    Continues (traverseBack current parents) (before parents ++ current.toList) (after parents) := by
  intro parents
  induction parents with
  | nil =>
    intro current hne _
    cases current with
    | nil => exact absurd rfl hne
    | node l cn ce r => exact ⟨_, rfl, rfl⟩
  | cons f parents ih =>
    intro current hne ho
    cases current with
    | nil => exact absurd rfl hne
    | node l cn ce r =>
      cases f with
      | left n e rchild =>
        have hlt : cn < n := by
          have := (ordered_append.mp (ordered_append.mp ho).2.1).2.2 (cn, ce) (by simp [SearchTree.Tree.toList])
            (n, e) (by simp [after])
          exact this
        rw [traverseBack, if_pos hlt]
        exact ⟨_, rfl, _, _, rfl, rfl, rfl⟩
      | right lchild n e =>
        have hgt : n < cn := by
          have := (ordered_append.mp ho).2.2 (n, e) (by simp [before]) (cn, ce) (by simp [SearchTree.Tree.toList])
          exact this
        rw [traverseBack, if_neg hgt.le.not_gt]
        have heq : before parents ++ ((SearchTree.Tree.node lchild n e (.node l cn ce r)).toList ++ after parents) =
            before (.right lchild n e :: parents) ++ ((SearchTree.Tree.node l cn ce r).toList ++
              after (.right lchild n e :: parents)) := by
          simp [before, after, SearchTree.Tree.toList]
        have hgo := @ih (.node lchild n e (.node l cn ce r)) (fun h => (by cases h))
          (by rw [heq]; exact ho)
        have hxs : before parents ++ (SearchTree.Tree.node lchild n e (.node l cn ce r)).toList =
            before (.right lchild n e :: parents) ++ (SearchTree.Tree.node l cn ce r).toList := by
          simp [before, SearchTree.Tree.toList]
        rw [hxs] at hgo
        exact hgo

theorem Continues.of_left {t : STree α} {parents : List (Frame α)} (ht : t ≠ .nil) :
    Continues (some (.inl (traverseLeft t parents))) (before parents) (t.toList ++ after parents) := by
  obtain ⟨q, ys, hlist, hshows⟩ := @traverseLeft_shows α t parents ht
  rw [hlist]
  exact ⟨_, rfl, hshows⟩

theorem traverseRight_continues {l r : STree α} {n : MachPort} {e : α} {parents : List (Frame α)}
    (ho : Ordered (before parents ++ ((SearchTree.Tree.node l n e r).toList ++ after parents))) :
    Continues (traverseRight l n e r parents) (before parents ++ (l.toList ++ [(n, e)]))
      (r.toList ++ after parents) := by
  unfold traverseRight
  cases hr : r.isNil with
  | true =>
    have hnil := SearchTree.Tree.isNil_eq_true.mp hr
    subst hnil
    exact traverseBack_continues (fun h => (by cases h)) ho
  | false => exact @Continues.of_left α r (.right l n e :: parents) (SearchTree.Tree.isNil_eq_false.mp hr)

theorem deleteLeaf_continues {name : MachPort} {parents : List (Frame α)} {entry : α}
    (ho : Ordered (before parents ++ (name, entry) :: after parents)) :
    Continues (deleteLeaf name parents) (before parents) (after parents) := by
  obtain ⟨hb, ha, hbelow, habove⟩ := ordered_middle.mp ho
  cases parents with
  | nil => exact ⟨_, rfl, rfl⟩
  | cons f parents =>
    cases f with
    | left n e rchild =>
      have hlt : name < n := habove (n, e) (by simp [after])
      rw [deleteLeaf, if_pos hlt]
      exact ⟨_, rfl, _, _, rfl, append_nil _, rfl⟩
    | right lchild n e =>
      have hgt : n < name := hbelow (n, e) (by simp [before])
      rw [deleteLeaf, if_neg hgt.le.not_gt]
      have ho' : Ordered (before parents ++ ((SearchTree.Tree.node lchild n e .nil).toList ++ after parents)) := by
        have := ordered_append.mpr ⟨hb, ha, fun p hp q hq => (hbelow p hp).trans (habove q hq)⟩
        simpa [before, after, SearchTree.Tree.toList] using this
      exact traverseBack_continues (fun h => (by cases h)) ho'

theorem ipcSplayTraverseNext_continues {t : Traversal α} {xs ys : List (MachPort × α)}
    {q : MachPort × α} (h : t.Shows xs q ys) (ho : Ordered (xs ++ q :: ys)) (delete : Bool) :
    Continues (ipcSplayTraverseNext t delete) (if delete then xs else xs ++ [q]) ys := by
  obtain ⟨n, e⟩ := q
  obtain ⟨l, r, hcur, rfl, rfl⟩ := h
  have hfull : before t.parents ++ ((SearchTree.Tree.node l n e r).toList ++ after t.parents) =
      before t.parents ++ l.toList ++ (n, e) :: (r.toList ++ after t.parents) := by
    simp [SearchTree.Tree.toList]
  unfold ipcSplayTraverseNext
  rw [hcur]
  cases delete with
  | false =>
    have := @traverseRight_continues α l r n e t.parents (by rw [hfull]; exact ho)
    rw [← append_assoc] at this
    exact this
  | true =>
    obtain ⟨hb, ha, hbelow, habove⟩ := ordered_middle.mp ho
    have hrest : Ordered ((before t.parents ++ l.toList) ++ (r.toList ++ after t.parents)) :=
      ordered_append.mpr ⟨hb, ha, fun p hp q hq => (hbelow p hp).trans (habove q hq)⟩
    cases hl : l.isNil with
    | true =>
      have hnil := SearchTree.Tree.isNil_eq_true.mp hl
      subst hnil
      cases hr : r.isNil with
      | true =>
        have hnil := SearchTree.Tree.isNil_eq_true.mp hr
        subst hnil
        have := @deleteLeaf_continues α n t.parents e (by simpa [SearchTree.Tree.toList] using ho)
        simpa [SearchTree.Tree.toList, SearchTree.Tree.isNil] using this
      | false =>
        have := @Continues.of_left α r t.parents (SearchTree.Tree.isNil_eq_false.mp hr)
        simpa [SearchTree.Tree.toList, hl, hr] using this
    | false =>
      cases hr : r.isNil with
      | true =>
        have hnil := SearchTree.Tree.isNil_eq_true.mp hr
        subst hnil
        have := @traverseBack_continues α t.parents l (SearchTree.Tree.isNil_eq_false.mp hl)
          (by simpa [SearchTree.Tree.toList] using hrest)
        simpa [SearchTree.Tree.toList, hl, hr] using this
      | false =>
        obtain ⟨l', n', e', hbig, hlist⟩ := largest_to_root (SearchTree.Tree.isNil_eq_false.mp hl)
          (ordered_append.mp hb).2.1
        simp only [Bool.true_eq_false, hl, hr, if_false, if_true, hbig, Option.bind_some]
        have heq : before t.parents ++ ((SearchTree.Tree.node l' n' e' r).toList ++ after t.parents) =
            (before t.parents ++ l.toList) ++ (r.toList ++ after t.parents) := by
          rw [← hlist]
          simp [SearchTree.Tree.toList]
        have := @traverseRight_continues α l' r n' e' t.parents (by rw [heq]; exact hrest)
        have hlist' : before t.parents ++ (l'.toList ++ [(n', e')]) = before t.parents ++ l.toList := by
          rw [← hlist]
          simp [SearchTree.Tree.toList]
        rw [hlist'] at this
        exact this

/-! ## The loop -/

/-- The same loop on the list of the entries: the result and the entries that stay. -/
def visit (body : β → MachPort → α → Option (β × Bool)) :
    List (MachPort × α) → β → Option (β × List (MachPort × α))
  | [], b => some (b, [])
  | q :: qs, b => (body b q.1 q.2).bind (fun r => (visit body qs r.1).map (fun v =>
    (v.1, if r.2 then v.2 else q :: v.2)))

theorem traverseLoop_visit {body : β → MachPort → α → Option (β × Bool)} :
    ∀ {ys xs : List (MachPort × α)} {q : MachPort × α} {t : Traversal α} {b b' : β}
      {kept : List (MachPort × α)}, t.Shows xs q ys → Ordered (xs ++ q :: ys) →
      visit body (q :: ys) b = some (b', kept) →
      ∃ root, traverseLoop body (ys.length + 1) t b = some (b', root) ∧ root.toList = xs ++ kept := by
  intro ys
  induction ys with
  | nil =>
    intro xs q t b b' kept hshows ho hvisit
    obtain ⟨⟨b₁, del⟩, hbody, hvisit⟩ := Option.bind_eq_some_iff.mp hvisit
    obtain ⟨root, hnext, hlist⟩ := ipcSplayTraverseNext_continues hshows ho del
    obtain ⟨l, r, hcur, -, -⟩ := hshows
    cases hvisit
    refine ⟨root, ?_, ?_⟩
    · simp [traverseLoop, hcur, hbody, hnext]
    · rw [hlist]
      cases del <;> simp
  | cons q' ys ih =>
    intro xs q t b b' kept hshows ho hvisit
    obtain ⟨⟨b₁, del⟩, hbody, hvisit⟩ := Option.bind_eq_some_iff.mp hvisit
    obtain ⟨⟨b₂, kept'⟩, hrest, heq⟩ := Option.map_eq_some_iff.mp hvisit
    obtain ⟨t', hnext, hshows'⟩ := ipcSplayTraverseNext_continues hshows ho del
    have ho' : Ordered ((if del then xs else xs ++ [q]) ++ q' :: ys) := by
      cases del with
      | true =>
        obtain ⟨hxs, hys, hlt⟩ := ordered_append.mp ho
        exact ordered_append.mpr ⟨hxs, (pairwise_cons.mp hys).2,
          fun p hp p' hp' => hlt p hp p' (mem_cons_of_mem _ hp')⟩
      | false => simpa using ho
    obtain ⟨root, hloop, hlist⟩ := ih hshows' ho' hrest
    obtain ⟨l, r, hcur, -, -⟩ := hshows
    cases heq
    refine ⟨root, ?_, ?_⟩
    · rw [length_cons, traverseLoop, hcur]
      simp [hbody, hnext, hloop]
    · rw [hlist]
      cases del <;> simp

theorem visit_sublist {body : β → MachPort → α → Option (β × Bool)} :
    ∀ {xs : List (MachPort × α)} {b b' : β} {kept : List (MachPort × α)},
      visit body xs b = some (b', kept) → kept.Sublist xs := by
  intro xs
  induction xs with
  | nil =>
    intro b b' kept hvisit
    cases hvisit
    exact List.Sublist.refl _
  | cons q xs ih =>
    intro b b' kept hvisit
    obtain ⟨⟨b₁, del⟩, -, hvisit⟩ := Option.bind_eq_some_iff.mp hvisit
    obtain ⟨⟨b₂, kept'⟩, hrest, heq⟩ := Option.map_eq_some_iff.mp hvisit
    cases heq
    cases del with
    | true => exact (ih hrest).cons q
    | false => exact (ih hrest).cons_cons q

theorem Splay.traverse_kept {s : Splay α} (ho : Ordered s.inorder)
    {body : β → MachPort → α → Option (β × Bool)} {b b' : β} {kept : List (MachPort × α)}
    (hvisit : visit body s.inorder b = some (b', kept)) :
    ∃ s', s.traverse body b = some (b', s') ∧ s'.inorder = kept ∧
      (s'.istRoot ≠ .nil → s'.parts.At s'.istName) := by
  have hkept := ho.sublist (visit_sublist hvisit)
  by_cases hs : s.istRoot = .nil
  · have hin : s.inorder = [] := by
      rw [Splay.inorder, hs]
      rfl
    rw [hin] at hvisit
    cases hvisit
    refine ⟨s, ?_, hin, fun hne => absurd hs hne⟩
    rw [Splay.traverse, ipcSplayTraverseStart, Splay.parts, hs]
    rfl
  · obtain ⟨t, hass, hlist, hne⟩ := ipcSplayPrimAssemble_spec (show s.parts.tree ≠ .nil from hs)
    obtain ⟨q, ys, hq, hshows⟩ := @traverseLeft_shows α t [] hne
    rw [after, append_nil, hlist, ← Splay.inorder_of_ne hs] at hq
    rw [hq] at hvisit ho
    obtain ⟨root, hloop, hroot⟩ := traverseLoop_visit hshows ho hvisit
    have hroot' : root.toList = kept := hroot
    refine ⟨s.reset root, ?_, (s.reset_inorder root).trans hroot', s.reset_placed (hroot'.symm ▸ hkept)⟩
    rw [Splay.traverse, ipcSplayTraverseStart, hass, Option.map_some, hq]
    simp [hloop, ipcSplayTraverseFinish]

theorem Splay.Holds.traverse {s : Splay α} {m : MachPort → Option α} (h : s.Holds m)
    {body : β → MachPort → α → Option (β × Bool)} {b b' : β} {kept : List (MachPort × α)}
    (hvisit : visit body s.inorder b = some (b', kept)) :
    ∃ s', s.traverse body b = some (b', s') ∧ ∀ m', Represents kept m' → s'.Holds m' := by
  obtain ⟨s', hrun, hin, hplaced⟩ := Splay.traverse_kept h.represents.ordered hvisit
  refine ⟨s', hrun, fun m' hm' => ⟨hplaced, ?_⟩⟩
  rw [hin]
  exact hm'

theorem traverseLoop_visit_some {body : β → MachPort → α → Option (β × Bool)} :
    ∀ {fuel : ℕ} {ys xs : List (MachPort × α)} {q : MachPort × α} {t : Traversal α} {b b' : β}
      {root : STree α}, t.Shows xs q ys → Ordered (xs ++ q :: ys) →
      traverseLoop body fuel t b = some (b', root) → ∃ kept, visit body (q :: ys) b = some (b', kept) := by
  intro fuel
  induction fuel with
  | zero =>
    intro ys xs q t b b' root _ _ hrun
    cases hrun
  | succ fuel ih =>
    intro ys xs q t b b' root hshows ho hrun
    have hshows' := hshows
    obtain ⟨l, r, hcur, -, -⟩ := hshows'
    rw [traverseLoop, hcur] at hrun
    obtain ⟨⟨b₁, del⟩, hbody, hrun⟩ := Option.bind_eq_some_iff.mp hrun
    obtain ⟨x, hnext, hrun⟩ := Option.bind_eq_some_iff.mp hrun
    have hcont := ipcSplayTraverseNext_continues hshows ho del
    rw [hnext] at hcont
    cases ys with
    | nil =>
      obtain ⟨root', heq, -⟩ := hcont
      cases heq
      cases hrun
      rw [visit, hbody]
      exact ⟨_, rfl⟩
    | cons q' ys =>
      obtain ⟨t', heq, hshows''⟩ := hcont
      cases heq
      have ho' : Ordered ((if del then xs else xs ++ [q]) ++ q' :: ys) := by
        cases del with
        | true =>
          obtain ⟨hxs, hys, hlt⟩ := ordered_append.mp ho
          exact ordered_append.mpr ⟨hxs, (pairwise_cons.mp hys).2,
            fun p hp p' hp' => hlt p hp p' (mem_cons_of_mem _ hp')⟩
        | false => simpa using ho
      obtain ⟨kept, hvisit⟩ := ih hshows'' ho' hrun
      rw [visit, hbody, Option.bind_some, hvisit]
      exact ⟨_, rfl⟩

theorem Splay.Holds.of_traverse {s s' : Splay α} {m : MachPort → Option α} (h : s.Holds m)
    {body : β → MachPort → α → Option (β × Bool)} {b b' : β}
    (hrun : s.traverse body b = some (b', s')) :
    ∃ kept, visit body s.inorder b = some (b', kept) ∧ ∀ m', Represents kept m' → s'.Holds m' := by
  have hvisit : ∃ kept, visit body s.inorder b = some (b', kept) := by
    by_cases hs : s.istRoot = .nil
    · have hin : s.inorder = [] := by
        rw [Splay.inorder, hs]
        rfl
      rw [Splay.traverse, ipcSplayTraverseStart, Splay.parts, hs] at hrun
      cases hrun
      rw [hin]
      exact ⟨[], rfl⟩
    · obtain ⟨t, hass, hlist, hne⟩ := ipcSplayPrimAssemble_spec (show s.parts.tree ≠ .nil from hs)
      obtain ⟨q, ys, hq, hshows⟩ := @traverseLeft_shows α t [] hne
      rw [after, append_nil, hlist, ← Splay.inorder_of_ne hs] at hq
      have ho := h.represents.ordered
      rw [Splay.traverse, ipcSplayTraverseStart, hass] at hrun
      obtain ⟨⟨b₁, root⟩, hloop, heq⟩ := Option.map_eq_some_iff.mp hrun
      cases heq
      rw [hq] at ho ⊢
      exact traverseLoop_visit_some hshows ho hloop
  obtain ⟨kept, hvisit⟩ := hvisit
  obtain ⟨s'', hrun', hholds⟩ := h.traverse hvisit
  rw [hrun'] at hrun
  cases hrun
  exact ⟨kept, hvisit, hholds⟩

end Darwin.Ipc
