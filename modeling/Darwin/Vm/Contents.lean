import Darwin.Vm.Object
import Darwin.Lib.Referrers

/-! # What an object shows

The contents of an object at an offset: its page there, in memory or at its pager, else
what its shadow shows at the offset in the shadow, and zero at the end of the chain.
-/
namespace Darwin.Vm
open Darwin.Lib List

variable {D : Type}

/-- The page of the object itself. -/
def VmObject.held (ob : VmObject D) (offset : ℕ) : Option D :=
  ((ob.vmPageLookup offset).map Page.data).or (ob.paged offset)

namespace Objects
variable {g g' : Objects D} {o x object size : ℕ} {l l' : List ℕ}

def held (g : Objects D) (o offset : ℕ) : Option D :=
  (g.table o).bind (fun ob => ob.held offset)

def shadowOf (g : Objects D) (o : ℕ) : Option ℕ := (g.table o).bind VmObject.shadow

def shadowOffsetOf (g : Objects D) (o : ℕ) : ℕ :=
  ((g.table o).map VmObject.shadowOffset).getD 0

/-- The objects on the way down from `object`. -/
def chainOf (g : Objects D) : ℕ → Option ℕ → List ℕ
  | _, none => []
  | 0, some _ => []
  | fuel + 1, some o => o :: g.chainOf fuel (g.shadowOf o)

/-- What a search along the objects finds. -/
def visible [Zero D] (g : Objects D) : List ℕ → ℕ → D
  | [], _ => 0
  | o :: rest, offset =>
    match g.held o offset with
    | some d => d
    | none => g.visible rest (u32 (offset + g.shadowOffsetOf o))

def contents [Zero D] (g : Objects D) (o offset : ℕ) : D :=
  g.visible (g.chainOf g.next (some o)) offset

/-- The search does not come to `object` at or beyond `size`. -/
def Within (g : Objects D) (object size : ℕ) : List ℕ → ℕ → Prop
  | [], _ => True
  | o :: rest, offset => (o = object → offset < size) ∧
      (g.held o offset = none → g.Within object size rest (u32 (offset + g.shadowOffsetOf o)))

/-- No offset below `size` wraps around on the way down, the first of the objects being
entered at offset `start`. -/
def Unwrapped (g : Objects D) (size : ℕ) : List ℕ → ℕ → Prop
  | [], _ => True
  | o :: rest, start => start + size ≤ 2 ^ 32 ∧
      g.Unwrapped size rest (start + g.shadowOffsetOf o)

/-- The objects from `object` to one without a shadow. -/
inductive Chain (g : Objects D) : Option ℕ → List ℕ → Prop where
  | nil : Chain g none []
  | cons {o : ℕ} {ob : VmObject D} {l : List ℕ} (h : g.table o = some ob)
      (hl : Chain g ob.shadow l) : Chain g (some o) (o :: l)

/-! ## Chains -/

theorem Chain.unique {object : Option ℕ} (h : g.Chain object l) (h' : g.Chain object l') :
    l = l' := by
  induction h generalizing l' with
  | nil =>
    cases h'
    rfl
  | cons ho _ ih =>
    cases h' with
    | cons ho' hl' =>
      cases ho.symm.trans ho'
      rw [ih hl']

theorem Chain.live {object : Option ℕ} (h : g.Chain object l) :
    ∀ x ∈ l, ∃ ob, g.table x = some ob := by
  induction h with
  | nil => simp
  | cons ho _ ih =>
    intro x hx
    rcases mem_cons.mp hx with rfl | hx
    · exact ⟨_, ho⟩
    · exact ih x hx

theorem Chain.from_mem {object : Option ℕ} (h : g.Chain object l) (hx : x ∈ l) :
    ∃ l', g.Chain (some x) l' ∧ l' <:+ l := by
  induction h with
  | nil => simp at hx
  | cons ho hl ih =>
    rcases mem_cons.mp hx with rfl | hx
    · exact ⟨_, .cons ho hl, suffix_rfl⟩
    · obtain ⟨l', hl', hsuf⟩ := ih hx
      exact ⟨l', hl', hsuf.trans (suffix_cons _ _)⟩

theorem Chain.nodup {object : Option ℕ} (h : g.Chain object l) : l.Nodup := by
  induction h with
  | nil => exact nodup_nil
  | cons ho hl ih =>
    refine nodup_cons.mpr ⟨?_, ih⟩
    intro hmem
    obtain ⟨l', hl', hsuf⟩ := hl.from_mem hmem
    have heq := hl'.unique (.cons ho hl)
    have hlen := hsuf.length_le
    rw [heq, length_cons] at hlen
    omega

theorem Chain.congr {object : Option ℕ} (h : g.Chain object l)
    (hx : ∀ x ∈ l, ∃ ob, g'.table x = some ob ∧ g.shadowOf x = ob.shadow) :
    g'.Chain object l := by
  induction h with
  | nil => exact .nil
  | @cons o ob l ho hl ih =>
    obtain ⟨ob', ho', hsh⟩ := hx o mem_cons_self
    have hsh' : ob'.shadow = ob.shadow := by rw [← hsh, shadowOf, ho, Option.bind_some]
    apply Chain.cons ho'
    rw [hsh']
    exact ih (fun x hmem => hx x (mem_cons_of_mem _ hmem))

theorem visible_congr [Zero D] (hx : ∀ x ∈ l, (∀ offset, g'.held x offset = g.held x offset) ∧
    g'.shadowOffsetOf x = g.shadowOffsetOf x) (offset : ℕ) :
    g'.visible l offset = g.visible l offset := by
  induction l generalizing offset with
  | nil => rfl
  | cons o l ih =>
    have hrest := ih (fun x hmem => hx x (mem_cons_of_mem _ hmem))
    obtain ⟨hheld, hoff⟩ := hx o mem_cons_self
    simp only [visible, hheld, hoff, hrest]

theorem within_of_notMem (h : object ∉ l) (offset : ℕ) : g.Within object size l offset := by
  induction l generalizing offset with
  | nil => trivial
  | cons o l ih =>
    rw [mem_cons, not_or] at h
    exact ⟨fun heq => absurd heq.symm h.1, fun _ => ih h.2 _⟩

theorem Unwrapped.mono {start start' : ℕ} (h : g.Unwrapped size l start) (hle : start' ≤ start) :
    g.Unwrapped size l start' := by
  induction l generalizing start start' with
  | nil => trivial
  | cons o l ih => exact ⟨by have := h.1; omega, ih h.2 (by omega)⟩

theorem unwrapped_congr {start : ℕ} (hx : ∀ x ∈ l, g'.shadowOffsetOf x = g.shadowOffsetOf x)
    (h : g.Unwrapped size l start) : g'.Unwrapped size l start := by
  induction l generalizing start with
  | nil => trivial
  | cons o l ih =>
    refine ⟨h.1, ?_⟩
    rw [hx o mem_cons_self]
    exact ih (fun x hmem => hx x (mem_cons_of_mem _ hmem)) h.2

theorem Chain.chainOf_eq {object : Option ℕ} (h : g.Chain object l) {fuel : ℕ}
    (hfuel : l.length ≤ fuel) : g.chainOf fuel object = l := by
  induction h generalizing fuel with
  | nil => cases fuel <;> rfl
  | cons ho hl ih =>
    cases fuel with
    | zero => simp at hfuel
    | succ fuel =>
      rw [length_cons] at hfuel
      rw [chainOf, shadowOf, ho, Option.bind_some, ih (by omega)]

/-! ## Well-formed graphs -/

/-- How many objects have `o` as their shadow. -/
def shadowers (g : Objects D) (o : ℕ) : ℕ := referrers g.shadowOf g.next o

/-- A finite graph in which every chain ends and every reference count is true: `ext` counts
the references from outside the graph, which are all to objects of the graph. -/
structure Ok (g : Objects D) (ext : ℕ → ℕ) : Prop where
  bounded : ∀ o ob, g.table o = some ob → o < g.next
  ends : ∀ o ob, g.table o = some ob → ∃ l, g.Chain (some o) l
  refs : ∀ o ob, g.table o = some ob → ob.refCount = ext o + g.shadowers o
  live : ∀ o, 1 ≤ ext o → ∃ ob, g.table o = some ob

variable {ext : ℕ → ℕ} {ob : VmObject D}

theorem Ok.chain_length (h : g.Ok ext) {object : Option ℕ} (hl : g.Chain object l) :
    l.length ≤ g.next := by
  have hsub : l.toFinset ⊆ Finset.range g.next := by
    intro x hx
    obtain ⟨ob, hob⟩ := hl.live x (mem_toFinset.mp hx)
    exact Finset.mem_range.mpr (h.bounded x ob hob)
  have hcard := Finset.card_le_card hsub
  rwa [toFinset_card_of_nodup hl.nodup, Finset.card_range] at hcard

theorem Ok.contents_eq [Zero D] (h : g.Ok ext) (hl : g.Chain (some o) l) (offset : ℕ) :
    g.contents o offset = g.visible l offset := by
  rw [contents, hl.chainOf_eq (h.chain_length hl)]

theorem Ok.chain_self (h : g.Ok ext) (ho : g.table o = some ob) :
    ∃ l, g.Chain (some o) (o :: l) ∧ g.Chain ob.shadow l := by
  obtain ⟨l, hl⟩ := h.ends o ob ho
  cases hl with
  | cons ho' hl =>
    cases ho.symm.trans ho'
    exact ⟨_, .cons ho hl, hl⟩

theorem shadowOf_eq (ho : g.table o = some ob) : g.shadowOf o = ob.shadow := by
  rw [shadowOf, ho, Option.bind_some]

theorem held_eq (ho : g.table o = some ob) (offset : ℕ) : g.held o offset = ob.held offset := by
  rw [held, ho, Option.bind_some]

theorem shadowOffsetOf_eq (ho : g.table o = some ob) : g.shadowOffsetOf o = ob.shadowOffset := by
  rw [shadowOffsetOf, ho, Option.map_some, Option.getD_some]

theorem Ok.shadow_live (h : g.Ok ext) (ho : g.table o = some ob) {s : ℕ}
    (hs : ob.shadow = some s) : ∃ sh, g.table s = some sh := by
  obtain ⟨l, -, hl⟩ := h.chain_self ho
  rw [hs] at hl
  cases hl with
  | cons hsh _ => exact ⟨_, hsh⟩

end Objects

end Darwin.Vm
