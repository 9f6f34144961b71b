import Mathlib.Data.List.Pairwise
import Mathlib.Order.Basic
import Mathlib.Logic.Function.Basic
import Mathlib.Data.Set.Card

/-! # Search trees, their spines and the finite maps they stand for

A tree is read in order as a list of keys and values. A spine is a tree with a hole: at the
right end for a left spine, at the left end for a right spine. An ordered list stands for a
finite map.
-/
namespace Darwin.Lib.SearchTree
open Function List
variable {κ α : Type*}

inductive Tree (κ α : Type*) where
  | nil
  | node (lchild : Tree κ α) (name : κ) (entry : α) (rchild : Tree κ α)
  deriving DecidableEq, Repr

def Tree.isNil : Tree κ α → Bool
  | .nil => true
  | .node .. => false

/-- The keys and values in order. -/
def Tree.toList : Tree κ α → List (κ × α)
  | .nil => []
  | .node l k a r => l.toList ++ (k, a) :: r.toList

/-- The nodes from the hole up, each with its left subtree. -/
abbrev LeftSpine (κ α : Type*) := List (Tree κ α × κ × α)

/-- The nodes from the hole up, each with its right subtree. -/
abbrev RightSpine (κ α : Type*) := List (κ × α × Tree κ α)

def fillLeft : LeftSpine κ α → Tree κ α → Tree κ α
  | [], t => t
  | (l, k, a) :: s, t => fillLeft s (.node l k a t)

def fillRight : RightSpine κ α → Tree κ α → Tree κ α
  | [], t => t
  | (k, a, r) :: s, t => fillRight s (.node t k a r)

def leftList : LeftSpine κ α → List (κ × α)
  | [] => []
  | (l, k, a) :: s => leftList s ++ (l.toList ++ [(k, a)])

def rightList : RightSpine κ α → List (κ × α)
  | [] => []
  | (k, a, r) :: s => (k, a) :: (r.toList ++ rightList s)

theorem Tree.isNil_eq_true {t : Tree κ α} : t.isNil = true ↔ t = .nil := by
  cases t with
  | nil => exact ⟨fun _ => rfl, fun _ => rfl⟩
  | node l k a r => exact ⟨fun h => (by cases h), fun h => (by cases h)⟩

theorem Tree.isNil_eq_false {t : Tree κ α} : t.isNil = false ↔ t ≠ .nil := by
  rw [← Bool.not_eq_true, Tree.isNil_eq_true]

theorem Tree.toList_eq_nil {t : Tree κ α} : t.toList = [] ↔ t = .nil := by
  cases t with
  | nil => exact ⟨fun _ => rfl, fun _ => rfl⟩
  | node l k a r => simp [Tree.toList]

theorem toList_fillLeft (s : LeftSpine κ α) (t : Tree κ α) :
    (fillLeft s t).toList = leftList s ++ t.toList := by
  induction s generalizing t with
  | nil => rfl
  | cons x s ih =>
    obtain ⟨l, k, a⟩ := x
    rw [fillLeft, ih]
    simp [leftList, Tree.toList]

theorem toList_fillRight (s : RightSpine κ α) (t : Tree κ α) :
    (fillRight s t).toList = t.toList ++ rightList s := by
  induction s generalizing t with
  | nil => simp [fillRight, rightList]
  | cons x s ih =>
    obtain ⟨k, a, r⟩ := x
    rw [fillRight, ih]
    simp [rightList, Tree.toList]

/-! ## Changes of values -/

/-- The value of the key `k` is changed. -/
def Tree.modify [DecidableEq κ] (k : κ) (f : α → α) : Tree κ α → Tree κ α
  | .nil => .nil
  | .node l n a r => .node (l.modify k f) n (if n = k then f a else a) (r.modify k f)

/-- The same change of a list of keys and values. -/
def modifyAt [DecidableEq κ] (k : κ) (f : α → α) (p : κ × α) : κ × α :=
  (p.1, if p.1 = k then f p.2 else p.2)

def LeftSpine.modify [DecidableEq κ] (k : κ) (f : α → α) (s : LeftSpine κ α) : LeftSpine κ α :=
  s.map (fun x => (x.1.modify k f, modifyAt k f x.2))

def RightSpine.modify [DecidableEq κ] (k : κ) (f : α → α) (s : RightSpine κ α) : RightSpine κ α :=
  s.map (fun x => (x.1, (modifyAt k f (x.1, x.2.1)).2, x.2.2.modify k f))

theorem Tree.toList_modify [DecidableEq κ] (k : κ) (f : α → α) (t : Tree κ α) :
    (t.modify k f).toList = t.toList.map (modifyAt k f) := by
  induction t with
  | nil => rfl
  | node l n a r ihl ihr => simp [Tree.modify, Tree.toList, ihl, ihr, modifyAt]

theorem leftList_modify [DecidableEq κ] (k : κ) (f : α → α) (s : LeftSpine κ α) :
    leftList (LeftSpine.modify k f s) = (leftList s).map (modifyAt k f) := by
  induction s with
  | nil => rfl
  | cons x s ih =>
    have hcons : LeftSpine.modify k f (x :: s) =
        (x.1.modify k f, modifyAt k f x.2) :: LeftSpine.modify k f s := rfl
    obtain ⟨l, n, a⟩ := x
    rw [hcons]
    simp [leftList, modifyAt, ih, Tree.toList_modify]

theorem rightList_modify [DecidableEq κ] (k : κ) (f : α → α) (s : RightSpine κ α) :
    rightList (RightSpine.modify k f s) = (rightList s).map (modifyAt k f) := by
  induction s with
  | nil => rfl
  | cons x s ih =>
    have hcons : RightSpine.modify k f (x :: s) =
        (x.1, (modifyAt k f (x.1, x.2.1)).2, x.2.2.modify k f) :: RightSpine.modify k f s := rfl
    obtain ⟨n, a, r⟩ := x
    rw [hcons]
    simp [rightList, modifyAt, ih, Tree.toList_modify]

/-! ## Ordered lists -/

section order
variable [LinearOrder κ]

def Ordered (xs : List (κ × α)) : Prop := xs.Pairwise (fun p q => p.1 < q.1)

/-- All keys are below `k`. -/
def Below (xs : List (κ × α)) (k : κ) : Prop := ∀ p ∈ xs, p.1 < k

/-- All keys are above `k`. -/
def Above (xs : List (κ × α)) (k : κ) : Prop := ∀ p ∈ xs, k < p.1

variable {xs ys : List (κ × α)} {k : κ} {a : α}

theorem ordered_append : Ordered (xs ++ ys) ↔
    Ordered xs ∧ Ordered ys ∧ ∀ p ∈ xs, ∀ q ∈ ys, p.1 < q.1 :=
  pairwise_append

theorem ordered_middle : Ordered (xs ++ (k, a) :: ys) ↔
    Ordered xs ∧ Ordered ys ∧ Below xs k ∧ Above ys k := by
  rw [ordered_append]
  constructor
  · rintro ⟨hxs, hys, hlt⟩
    obtain ⟨habove, hys⟩ := pairwise_cons.mp hys
    exact ⟨hxs, hys, fun p hp => hlt p hp _ mem_cons_self, habove⟩
  · rintro ⟨hxs, hys, hbelow, habove⟩
    refine ⟨hxs, pairwise_cons.mpr ⟨habove, hys⟩, ?_⟩
    intro p hp q hq
    rcases mem_cons.mp hq with rfl | hq
    · exact hbelow p hp
    · exact (hbelow p hp).trans (habove q hq)

theorem Below.nil (k : κ) : Below ([] : List (κ × α)) k := fun _ h => (by cases h)

theorem Above.nil (k : κ) : Above ([] : List (κ × α)) k := fun _ h => (by cases h)

theorem below_append : Below (xs ++ ys) k ↔ Below xs k ∧ Below ys k := by
  simp only [Below, mem_append, or_imp, forall_and]

theorem above_append : Above (xs ++ ys) k ↔ Above xs k ∧ Above ys k := by
  simp only [Above, mem_append, or_imp, forall_and]

theorem below_cons {k' : κ} : Below ((k', a) :: xs) k ↔ k' < k ∧ Below xs k := by
  simp only [Below, mem_cons, forall_eq_or_imp]

theorem above_cons {k' : κ} : Above ((k', a) :: xs) k ↔ k < k' ∧ Above xs k := by
  simp only [Above, mem_cons, forall_eq_or_imp]

theorem Below.mono {k' : κ} (h : Below xs k) (hk : k ≤ k') : Below xs k' :=
  fun p hp => (h p hp).trans_le hk

theorem Above.mono {k' : κ} (h : Above xs k) (hk : k' ≤ k) : Above xs k' :=
  fun p hp => hk.trans_lt (h p hp)

theorem Below.eq_nil (h : Below xs k) (hk : ∀ k', k ≤ k') : xs = [] := by
  cases xs with
  | nil => rfl
  | cons p xs => exact absurd (h p mem_cons_self) (not_lt_of_ge (hk _))

theorem Above.eq_nil (h : Above xs k) (hk : ∀ k', k' ≤ k) : xs = [] := by
  cases xs with
  | nil => rfl
  | cons p xs => exact absurd (h p mem_cons_self) (not_lt_of_ge (hk _))

theorem below_leftList_cons {l : Tree κ α} {s : LeftSpine κ α} {n : κ}
    (h : Ordered (leftList ((l, n, a) :: s) ++ ys)) (hn : n < k) :
    Below (leftList ((l, n, a) :: s)) k := by
  have hs := (ordered_append.mp h).1
  rw [leftList, ← append_assoc] at hs ⊢
  have hbelow := (ordered_middle.mp hs).2.2.1
  exact below_append.mpr ⟨hbelow.mono hn.le, below_cons.mpr ⟨hn, Below.nil k⟩⟩

theorem above_rightList_cons {r : Tree κ α} {s : RightSpine κ α} {n : κ}
    (h : Ordered (xs ++ (ys ++ rightList ((n, a, r) :: s)))) (hn : k < n) :
    Above (rightList ((n, a, r) :: s)) k := by
  have hs := (ordered_append.mp (ordered_append.mp h).2.1).2.1
  have habove := (pairwise_cons.mp hs).1
  exact above_cons.mpr ⟨hn, Above.mono habove hn.le⟩

/-! ## Finite maps -/

/-- The list is in order and its pairs are those of the map. -/
structure Represents (xs : List (κ × α)) (m : κ → Option α) : Prop where
  ordered : Ordered xs
  mem : ∀ k a, (k, a) ∈ xs ↔ m k = some a

variable {m m' : κ → Option α}

theorem Represents.nil : Represents ([] : List (κ × α)) (fun _ => none) := by
  refine ⟨List.Pairwise.nil, ?_⟩
  intro k a
  simp

theorem Represents.eq_none (h : Represents xs m) {k : κ} (hk : ∀ p ∈ xs, p.1 ≠ k) : m k = none := by
  cases hm : m k with
  | none => rfl
  | some a => exact absurd rfl (hk _ ((h.mem k a).mpr hm))

theorem Represents.insert (h : Represents (xs ++ ys) m) (hx : Below xs k) (hy : Above ys k) (a : α) :
    Represents (xs ++ (k, a) :: ys) (update m k (some a)) := by
  obtain ⟨hxs, hys, -⟩ := ordered_append.mp h.ordered
  have hnone : m k = none := by
    apply h.eq_none
    intro p hp
    rcases mem_append.mp hp with hp | hp
    · exact (hx p hp).ne
    · exact (hy p hp).ne'
  refine ⟨ordered_middle.mpr ⟨hxs, hys, hx, hy⟩, ?_⟩
  intro k' a'
  have hmem : (k', a') ∈ xs ++ (k, a) :: ys ↔ (k' = k ∧ a' = a) ∨ (k', a') ∈ xs ++ ys := by
    simp only [mem_append, mem_cons, Prod.mk.injEq]
    exact or_left_comm
  rw [hmem, h.mem]
  by_cases hk : k' = k
  · subst hk
    rw [update_self, hnone]
    simp [eq_comm]
  · rw [update_of_ne hk]
    simp [hk]

theorem Represents.delete (h : Represents (xs ++ (k, a) :: ys) m) :
    Represents (xs ++ ys) (update m k none) := by
  obtain ⟨hxs, hys, hx, hy⟩ := ordered_middle.mp h.ordered
  refine ⟨ordered_append.mpr ⟨hxs, hys, fun p hp q hq => (hx p hp).trans (hy q hq)⟩, ?_⟩
  intro k' a'
  by_cases hk : k' = k
  · subst hk
    rw [update_self]
    constructor
    · intro hmem
      rcases mem_append.mp hmem with hmem | hmem
      · exact absurd (hx _ hmem) (lt_irrefl _)
      · exact absurd (hy _ hmem) (lt_irrefl _)
    · intro hn
      cases hn
  · rw [update_of_ne hk, ← h.mem]
    simp [hk]

theorem Represents.below (h : Represents (xs ++ ys) m) (hx : Below xs k) (hy : ∀ p ∈ ys, k ≤ p.1) :
    Represents xs (fun n => if n < k then m n else none) := by
  refine ⟨(ordered_append.mp h.ordered).1, ?_⟩
  intro k' a'
  by_cases hk : k' < k
  · simp only [hk, if_true, ← h.mem, mem_append]
    constructor
    · exact .inl
    · rintro (hmem | hmem)
      · exact hmem
      · exact absurd (hy _ hmem) (not_le_of_gt hk)
  · simp only [hk, if_false]
    constructor
    · intro hmem
      exact absurd (hx _ hmem) hk
    · intro hn
      cases hn

theorem Represents.above (h : Represents (xs ++ ys) m) (hx : Below xs k) (hy : ∀ p ∈ ys, k ≤ p.1) :
    Represents ys (fun n => if n < k then none else m n) := by
  refine ⟨(ordered_append.mp h.ordered).2.1, ?_⟩
  intro k' a'
  by_cases hk : k' < k
  · simp only [hk, if_true]
    constructor
    · intro hmem
      exact absurd (hy _ hmem) (not_le_of_gt hk)
    · intro hn
      cases hn
  · simp only [hk, if_false, ← h.mem, mem_append]
    constructor
    · exact .inr
    · rintro (hmem | hmem)
      · exact absurd (hx _ hmem) hk
      · exact hmem

/-- The two maps together, the first where both have a value. -/
def union (m m' : κ → Option α) : κ → Option α := fun k => (m k).or (m' k)

theorem Represents.append (h : Represents xs m) (h' : Represents ys m')
    (hlt : ∀ p ∈ xs, ∀ q ∈ ys, p.1 < q.1) : Represents (xs ++ ys) (union m m') := by
  refine ⟨ordered_append.mpr ⟨h.ordered, h'.ordered, hlt⟩, ?_⟩
  intro k a
  rw [mem_append, h.mem, h'.mem, union]
  cases hm : m k with
  | none => simp
  | some b =>
    have hb := (h.mem k b).mpr hm
    have : m' k ≠ some a := fun ha => absurd (hlt _ hb _ ((h'.mem k a).mpr ha)) (lt_irrefl _)
    simp [this]

theorem Represents.eq_of_mem (h : Represents xs m) {a a' : α} (ha : (k, a) ∈ xs)
    (ha' : (k, a') ∈ xs) : a = a' := by
  rw [h.mem] at ha ha'
  rw [ha] at ha'
  exact Option.some.inj ha'

theorem ordered_modify {f : α → α} (k : κ) : Ordered (xs.map (modifyAt k f)) ↔ Ordered xs :=
  pairwise_map

theorem below_modify {f : α → α} (n : κ) : Below (xs.map (modifyAt n f)) k ↔ Below xs k :=
  forall_mem_map

theorem above_modify {f : α → α} (n : κ) : Above (xs.map (modifyAt n f)) k ↔ Above xs k :=
  forall_mem_map

theorem Represents.modify (h : Represents xs m) (k : κ) (f : α → α) :
    Represents (xs.map (modifyAt k f)) (fun n => if n = k then (m n).map f else m n) := by
  refine ⟨(ordered_modify k).mpr h.ordered, ?_⟩
  intro n a
  rw [mem_map]
  constructor
  · rintro ⟨⟨n', a'⟩, hmem, heq⟩
    have hm := (h.mem n' a').mp hmem
    simp only [modifyAt, Prod.mk.injEq] at heq
    obtain ⟨rfl, rfl⟩ := heq
    by_cases hk : n' = k
    · simp only [hk, if_true]
      rw [← hk, hm]
      rfl
    · simp only [hk, if_false]
      exact hm
  · intro hm
    by_cases hk : n = k
    · simp only [hk, if_true] at hm
      obtain ⟨a', hm', rfl⟩ := Option.map_eq_some_iff.mp hm
      exact ⟨(k, a'), (h.mem k a').mpr hm', by simp [modifyAt, hk]⟩
    · simp only [hk, if_false] at hm
      exact ⟨(n, a), (h.mem n a).mpr hm, by simp [modifyAt, hk]⟩

theorem Ordered.exists_represents (h : Ordered xs) : ∃ m, Represents xs m := by
  induction xs with
  | nil => exact ⟨_, Represents.nil⟩
  | cons p xs ih =>
    obtain ⟨k, a⟩ := p
    obtain ⟨habove, hxs⟩ := pairwise_cons.mp h
    obtain ⟨m, hm⟩ := ih hxs
    exact ⟨_, @Represents.insert _ _ _ [] xs k m hm (Below.nil k) habove a⟩

theorem Represents.map_unique (h : Represents xs m) (h' : Represents xs m') : m = m' := by
  funext k
  apply Option.ext
  intro a
  rw [← h.mem, ← h'.mem]

theorem Represents.nodup (h : Represents xs m) : (xs.map Prod.fst).Nodup := by
  rw [nodup_iff_pairwise_ne, pairwise_map]
  exact h.ordered.imp fun h => h.ne

theorem Represents.length (h : Represents xs m) : xs.length = Set.ncard {k | m k ≠ none} := by
  have hset : {k | m k ≠ none} = ((xs.map Prod.fst).toFinset : Set κ) := by
    ext k
    simp only [Set.mem_ofPred_eq, coe_toFinset, mem_map]
    constructor
    · intro hk
      obtain ⟨a, ha⟩ := Option.ne_none_iff_exists'.mp hk
      exact ⟨(k, a), (h.mem k a).mpr ha, rfl⟩
    · rintro ⟨⟨k', a⟩, hmem, rfl⟩
      rw [(h.mem k' a).mp hmem]
      exact fun h => (by cases h)
  rw [hset, Set.ncard_coe_finset, toFinset_card_of_nodup h.nodup, length_map]

end order

end Darwin.Lib.SearchTree
