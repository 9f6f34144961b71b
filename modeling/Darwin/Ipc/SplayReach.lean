import Darwin.Ipc.SplayTraverse

/-! # The states that a splay tree comes to

The operations on a tree may come in any order, and a traversal between them may delete any of the
entries it visits.
-/
namespace Darwin.Ipc
open Darwin.Lib Darwin.Lib.SearchTree Function
variable {α : Type}

/-! ## A traversal with given flags -/

/-- The body notes the entry; `flags` are the values of `delete`, in the order of the calls. -/
def noteVisit (flags : ℕ → Bool) (seen : List (MachPort × α)) (name : MachPort) (entry : α) :
    Option (List (MachPort × α) × Bool) :=
  some (seen ++ [(name, entry)], flags seen.length)

/-- The entries that are not flagged; `i` is the place of the first one. -/
def unflagged (flags : ℕ → Bool) : ℕ → List (MachPort × α) → List (MachPort × α)
  | _, [] => []
  | i, q :: xs => if flags i then unflagged flags (i + 1) xs else q :: unflagged flags (i + 1) xs

theorem visit_noteVisit (flags : ℕ → Bool) (xs seen : List (MachPort × α)) :
    visit (noteVisit flags) xs seen = some (seen ++ xs, unflagged flags seen.length xs) := by
  induction xs generalizing seen with
  | nil => simp [visit, unflagged]
  | cons q xs ih =>
    rw [visit, noteVisit, Option.bind_some, ih, Option.map_some, unflagged]
    simp

/-- A traversal returns every entry once, in the order of the names, and leaves a search tree of
those that were not flagged. -/
theorem traverse_visits_all {s : Splay α} (ho : Ordered s.inorder) (flags : ℕ → Bool) :
    ∃ s', s.traverse (noteVisit flags) [] = some (s.inorder, s') ∧
      s'.inorder = unflagged flags 0 s.inorder ∧ Ordered s'.inorder ∧
      (s'.istRoot ≠ .nil → s'.parts.At s'.istName) := by
  have hvisit := visit_noteVisit flags s.inorder []
  obtain ⟨s', hrun, hin, hplaced⟩ := Splay.traverse_kept ho hvisit
  refine ⟨s', hrun, hin, ?_, hplaced⟩
  rw [hin]
  exact ho.sublist (visit_sublist hvisit)

/-- A tree of five, whose root has two children, loses its first, its middle and its last entry. -/
theorem traverse_visits_all_five :
    ∃ s s' : Splay ℕ, s.inorder = [(1, 10), (2, 20), (4, 40), (6, 60), (7, 70)] ∧
      s.traverse (noteVisit (fun i => i % 2 = 0)) [] = some (s.inorder, s') ∧
      s'.inorder = [(2, 20), (6, 60)] := by
  let s : Splay ℕ :=
    ⟨4, .node (.node (.node .nil 1 10 .nil) 2 20 .nil) 4 40 (.node .nil 6 60 (.node .nil 7 70 .nil)), [], []⟩
  have hin : s.inorder = [(1, 10), (2, 20), (4, 40), (6, 60), (7, 70)] := rfl
  obtain ⟨s', hrun, hkept, -⟩ := @traverse_visits_all ℕ s
    (by rw [hin]; exact List.isChain_iff_pairwise.mp (by decide)) (fun i => i % 2 = 0)
  refine ⟨s, s', hin, hrun, ?_⟩
  rw [hkept, hin]
  rfl

/-! ## Every sequence of operations -/

/-- An operation on one of a family of trees. -/
inductive SplayCall (α : Type) where
  | op (o : SplayOp α)
  | bounds (i : ℕ) (name : MachPort)
  | traverse (i : ℕ) (flags : ℕ → Bool)

/-- The operation may be called on what the trees hold, and it returns. -/
def SplayCall.Steps [DecidableEq α] (f : SplayFamily α) : SplayCall α → SplayFamily α → Prop
  | .op o, f' => ∃ m : MapFamily α, (∀ i, Represents (f i).inorder (m i)) ∧ o.Allowed m ∧
      ∃ a, f.step o = some (f', a)
  | .bounds i name, f' => ∃ r, ipcSplayTreeBounds (f i) name = some r ∧ f' = update f i r.1
  | .traverse i flags, f' => ∃ r, (f i).traverse (noteVisit flags) [] = some r ∧
      f' = update f i r.2

/-- Every tree stands for some map. -/
def SplayFamily.Sound (f : SplayFamily α) : Prop := ∀ i, ∃ m, (f i).Holds m

theorem SplayFamily.Sound.update {f : SplayFamily α} (h : f.Sound) (i : ℕ) {s : Splay α}
    {m : MachPort → Option α} (hs : s.Holds m) :
    SplayFamily.Sound (update f i s) := by
  intro j
  by_cases hj : j = i
  · subst hj
    rw [update_self]
    exact ⟨m, hs⟩
  · rw [update_of_ne hj]
    exact h j

theorem SplayCall.steps_sound [DecidableEq α] (f : SplayFamily α) (c : SplayCall α)
    (f' : SplayFamily α) (h : f.Sound) (hstep : c.Steps f f') : f'.Sound := by
  cases c with
  | op o =>
    obtain ⟨m, hm, hop, a, hrun⟩ := hstep
    have hholds : ∀ i, (f i).Holds (m i) := by
      intro i
      obtain ⟨m', hm'⟩ := h i
      exact ⟨hm'.placed, hm i⟩
    obtain ⟨f'', a', hrun', -, hok⟩ := SplayFamily.step_spec hholds hop
    rw [hrun'] at hrun
    cases hrun
    exact fun i => ⟨_, hok i⟩
  | bounds i name =>
    obtain ⟨r, hrun, rfl⟩ := hstep
    obtain ⟨m, hm⟩ := h i
    obtain ⟨s', lower, upper, hrun', hs', -⟩ := hm.bounds name
    rw [hrun'] at hrun
    cases hrun
    exact h.update i hs'
  | traverse i flags =>
    obtain ⟨r, hrun, rfl⟩ := hstep
    obtain ⟨m, hm⟩ := h i
    obtain ⟨s', hrun', -, ho, hplaced⟩ := traverse_visits_all hm.represents.ordered flags
    rw [hrun'] at hrun
    cases hrun
    obtain ⟨m', hm'⟩ := ho.exists_represents
    exact h.update i ⟨hplaced, hm'⟩

theorem SplayFamily.empty_holds {f₀ : SplayFamily α} (h₀ : ∀ i, (f₀ i).istRoot = .nil) (i : ℕ) :
    (f₀ i).Holds (fun _ => none) := by
  have := Splay.init_holds (f₀ i)
  rwa [ipcSplayTreeInit, ← h₀ i] at this

theorem SplayCall.run_of_stepBoth [DecidableEq α] {f₀ : SplayFamily α}
    (h₀ : ∀ i, (f₀ i).istRoot = .nil) {ops : List (SplayOp α)} {t : SplayFamily α × MapFamily α}
    (hrun : Run stepBoth (f₀, fun _ _ => none) ops t) :
    Run (fun f c f' => SplayCall.Steps f c f') f₀ (ops.map .op) t.1 := by
  induction hrun with
  | nil => exact .nil f₀
  | snoc hr hstep ih =>
    have hholds := Run.invariant stepBoth_holds hr (SplayFamily.empty_holds h₀)
    obtain ⟨hop, a, hrun, -⟩ := hstep
    rw [List.map_append]
    exact .snoc ih ⟨_, fun i => (hholds i).represents, hop, a, hrun⟩

/-- In every state that the operations lead to from empty trees, the bounds of every name are
tight, and asking for them leaves the entries as they are. -/
theorem bounds_tight [DecidableEq α] {f₀ f : SplayFamily α} {calls : List (SplayCall α)}
    (h₀ : ∀ i, (f₀ i).istRoot = .nil) (hrun : Run (fun f c f' => SplayCall.Steps f c f') f₀ calls f)
    (i : ℕ) (name : MachPort) :
    ∃ m s' lower upper, Represents (f i).inorder m ∧
      ipcSplayTreeBounds (f i) name = some (s', lower, upper) ∧ Represents s'.inorder m ∧
      IsLower m name lower ∧ IsUpper m name upper := by
  have hstart : f₀.Sound := fun j => ⟨_, SplayFamily.empty_holds h₀ j⟩
  obtain ⟨m, hm⟩ := Run.invariant SplayCall.steps_sound hrun hstart i
  obtain ⟨s', lower, upper, hbounds, hs', hlower, hupper⟩ := hm.bounds name
  exact ⟨m, s', lower, upper, hm.represents, hbounds, hs'.represents, hlower, hupper⟩

/-- Entries 3, 7 and 9; a traversal deletes the middle one, and 8 lies between the others. -/
theorem bounds_tight_between : ∃ (f : SplayFamily ℕ) (m : MachPort → Option ℕ) (s' : Splay ℕ)
    (lower upper : MachPort), Represents (f 0).inorder m ∧ (f 0).inorder = [(3, 30), (9, 90)] ∧
      ipcSplayTreeBounds (f 0) 8 = some (s', lower, upper) ∧ Represents s'.inorder m ∧
      IsLower m 8 lower ∧ IsUpper m 8 upper := by
  have h1 := Run.snoc (Run.nil (fun _ => ⟨0, .nil, [], []⟩, fun _ _ => none))
    (show stepBoth _ (.insert 0 7 70) (_, _) from ⟨rfl, _, rfl, rfl⟩)
  have h2 := h1.snoc (show stepBoth _ (.insert 0 3 30) (_, _) from ⟨rfl, _, rfl, rfl⟩)
  have h3 := h2.snoc (show stepBoth _ (.insert 0 9 90) (_, _) from ⟨rfl, _, rfl, rfl⟩)
  have h4 := (SplayCall.run_of_stepBoth (fun _ => rfl) h3).snoc
    (show SplayCall.Steps _ (.traverse 0 (fun i => i = 1)) _ from ⟨_, rfl, rfl⟩)
  obtain ⟨m, s', lower, upper, hm, hbounds, hs', hlower, hupper⟩ :=
    bounds_tight (fun _ => rfl) h4 0 8
  exact ⟨_, m, s', lower, upper, hm, rfl, hbounds, hs', hlower, hupper⟩

end Darwin.Ipc
