import Darwin.Ipc.EntryGrow
import Darwin.Lib.Run

/-! # The name space over whole runs

A space from its creation on, with the names that are in use and their contents.
-/
namespace Darwin.Ipc
open Darwin.Lib Darwin.Lib.SearchTree Function Option

/-! ## The allocators -/

section alloc
variable {sizes : TableSizes} {mem : ℕ → Bool}

/-- The slot `i` is new for the name, and the caller's store makes it an entry. -/
def AllocatedSlot (sizes : TableSizes) (live : MachPort → Option Contents) (s' : Space)
    (name : MachPort) (ref : EntryRef) : Prop :=
  live name = none ∧ ∀ c : Contents, c.type ≠ PortType.none →
    ∃ T fl, SpaceOk sizes (s'.store c ref) T fl ∧
      (s'.store c ref).liveName T = update live name (some c)

theorem SpaceOk.alloc : ∀ {fuel : ℕ} {v v' : SpaceHash} {T : TreeMap} {fl : List ℕ}
    {r : Option (MachPort × ℕ)}, SpaceOk sizes v.space T fl →
    ipcEntryAlloc sizes mem fuel v = some (v', r) →
    match r with
    | none => ∃ T' fl', SpaceOk sizes v'.space T' fl' ∧ v'.space.liveName T' = v.space.liveName T
    | some (name, i) => AllocatedSlot sizes (v.space.liveName T) v'.space name (.table i) := by
  intro fuel
  induction fuel with
  | zero =>
    intro v v' T fl r _ hrun
    cases hrun
  | succ fuel ih =>
    intro v v' T fl r h hrun
    rw [ipcEntryAlloc] at hrun
    rcases h.get with ⟨-, hget⟩ | ⟨i, fl', name, s', -, hget, hfree, hstore⟩
    · simp only [hget, bind_some] at hrun
      obtain ⟨⟨v₁, kr⟩, hgrow, hrun⟩ := bind_eq_some_iff.mp hrun
      obtain ⟨T₁, fl₁, hok₁, hlive₁⟩ := h.growTable hgrow
      simp only at hrun
      split at hrun
      · have := ih hok₁ hrun
        rw [hlive₁] at this
        exact this
      · cases hrun
        exact ⟨T₁, fl₁, hok₁, hlive₁⟩
    · simp only [hget, bind_some] at hrun
      cases hrun
      exact ⟨hfree, fun c hc => ⟨T, fl', hstore c hc⟩⟩

/-- What `ipc_entry_alloc_name` returns: nothing, the entry that has the name already, or a
new entry. -/
def AllocNameOk (sizes : TableSizes) (live : MachPort → Option Contents) (name : MachPort)
    (s' : Space) : Option EntryRef → Prop
  | none => ∃ T fl, SpaceOk sizes s' T fl ∧ s'.liveName T = live
  | some ref => ∃ x, s'.deref ref = some x ∧
    ((x.ieBits.type ≠ PortType.none ∧ live name ≠ none ∧ ref = s'.locate name ∧
        ∃ T fl, SpaceOk sizes s' T fl ∧ s'.liveName T = live) ∨
      (x.ieBits.type = PortType.none ∧ AllocatedSlot sizes live s' name ref))

/-- The same for a round, behind which another one may follow. -/
def AllocName.Ok (sizes : TableSizes) (live : MachPort → Option Contents) (name : MachPort) :
    AllocName → Prop
  | .done v' _ ref => AllocNameOk sizes live name v'.space ref
  | .again v' _ => ∃ T' fl', SpaceOk sizes v'.space T' fl' ∧ v'.space.liveName T' = live

theorem SpaceOk.allocNameTree {iteAlloc treeEntry : Bool} {v : SpaceHash} {T : TreeMap} {fl : List ℕ}
    {name : MachPort} {r : AllocName} (h : SpaceOk sizes v.space T fl)
    (hvalid : machPortValid name = true)
    (hslot : 0 < machPortIndex name → machPortIndex name < v.space.isTable.size →
      (v.space.isTable.entry (machPortIndex name)).ieBits.type ≠ PortType.none ∧
      (v.space.isTable.entry (machPortIndex name)).ieBits.gen ≠ machPortGen name)
    (hrun : allocNameTree sizes mem iteAlloc name treeEntry v = some r) :
    r.Ok sizes (v.space.liveName T) name := by
  have hnamed : ¬ v.space.named name = true := by
    intro hn
    obtain ⟨hp, hl, -, hg⟩ := Space.named_iff.mp hn
    exact (hslot hp hl).2 hg
  have hlookup : ∃ tree, tree.Holds T ∧ (if 0 < v.space.isTreeTotal then
      ipcSplayTreeLookup v.space.isTree name else some (v.space.isTree, none)) =
      some (tree, T name) := by
    split
    · obtain ⟨tree, hrun, hholds⟩ := h.holds.lookup name
      exact ⟨tree, hholds, hrun⟩
    · next hzero =>
      have hT : T name = none := by
        by_contra hne
        exact hzero (h.total_pos hne)
      exact ⟨v.space.isTree, h.holds, by rw [hT]⟩
  obtain ⟨tree, hholds, hlook⟩ := hlookup
  have hok := h.setTree hholds
  unfold Darwin.Ipc.allocNameTree at hrun
  simp only [hlook, bind_some] at hrun
  cases hT : T name with
  | some e =>
    simp only [hT] at hrun
    have htype := (h.entries.tree name e hT).2.2.2
    rw [if_neg (by rw [PortType.isNone_eq_true]; exact htype)] at hrun
    cases hrun
    refine ⟨e, ?_, .inl ⟨htype, ?_, ?_, T, fl, hok, rfl⟩⟩
    · change tree.find? name = _
      rw [hholds.find?, hT]
    · rw [Space.liveName, if_neg hnamed, hT]
      exact fun h => (by cases h)
    · exact (if_neg hnamed).symm
  | none =>
    simp only [hT] at hrun
    split at hrun
    · obtain ⟨⟨v₁, kr⟩, hgrow, hrun⟩ := bind_eq_some_iff.mp hrun
      obtain ⟨T₁, fl₁, hok₁, hlive₁⟩ := SpaceOk.growTable (v := v.setTree tree) hok hgrow
      simp only at hrun
      split at hrun
      · cases hrun
      · split at hrun
        · cases hrun
          exact ⟨T₁, fl₁, hok₁, hlive₁⟩
        · cases hrun
          exact ⟨T₁, fl₁, hok₁, hlive₁⟩
    · split at hrun
      · obtain ⟨v₁, hins, heq⟩ := map_eq_some_iff.mp hrun
        cases heq
        obtain ⟨v₂, hrun₂, hfree, -, hfind, hstore⟩ := SpaceOk.insertTree (v := v.setTree tree) hok
          hvalid hT hslot
        rw [hrun₂] at hins
        cases hins
        exact ⟨Entry.zero, hfind, .inr ⟨rfl, hfree, fun c hc => ⟨_, fl, hstore c hc⟩⟩⟩
      · split at hrun
        · cases hrun
          exact ⟨T, fl, hok, rfl⟩
        · cases hrun
          exact ⟨T, fl, hok, rfl⟩

theorem SpaceOk.allocNameRound {iteAlloc treeEntry : Bool} {v : SpaceHash} {T : TreeMap} {fl : List ℕ}
    {name : MachPort} {r : AllocName} (h : SpaceOk sizes v.space T fl)
    (hvalid : machPortValid name = true)
    (hrun : allocNameRound sizes mem iteAlloc name treeEntry v = some r) :
    r.Ok sizes (v.space.liveName T) name := by
  unfold Darwin.Ipc.allocNameRound at hrun
  simp only at hrun
  split at hrun
  · next hin =>
    split at hrun
    · next hnone =>
      have hfree := (h.entries.free _).mpr ⟨hin.1, hin.2, PortType.isNone_eq_true.mp hnone⟩
      obtain ⟨t, fl', htake, hnew, htype, hsize, hstore⟩ := h.takeFree hfree
      obtain ⟨t', ht', heq⟩ := map_eq_some_iff.mp hrun
      rw [htake] at ht'
      cases ht'
      cases heq
      refine ⟨t.entry (machPortIndex name), ?_, .inr ⟨htype, hnew, fun c hc => ⟨T, fl', hstore c hc⟩⟩⟩
      exact if_pos (by rw [show (v.setTable t).space.isTable.size = t.size from rfl, hsize]; exact hin.2)
    · next hused =>
      have htype : (v.space.isTable.entry (machPortIndex name)).ieBits.type ≠ PortType.none := by
        rw [PortType.isNone_eq_true] at hused
        exact hused
      split at hrun
      · next hgen =>
        cases hrun
        have hnamed : v.space.named name = true :=
          Space.named_iff.mpr ⟨hin.1, hin.2, htype, hgen⟩
        refine ⟨v.space.isTable.entry (machPortIndex name), if_pos hin.2, .inl ⟨htype, ?_, ?_, T, fl, h, rfl⟩⟩
        · rw [Space.liveName, if_pos hnamed]
          exact fun h => (by cases h)
        · rw [Space.locate, if_pos hnamed]
      · next hgen => exact h.allocNameTree hvalid (fun _ _ => ⟨htype, hgen⟩) hrun
  · next hout =>
    exact h.allocNameTree hvalid (fun hp hl => absurd ⟨hp, hl⟩ hout) hrun

theorem SpaceOk.allocName {iteAlloc : Bool} {name : MachPort} {v v' : SpaceHash} {T : TreeMap}
    {fl : List ℕ} {kr : KernReturn} {ref : Option EntryRef} (h : SpaceOk sizes v.space T fl)
    (hrun : ipcEntryAllocName sizes mem iteAlloc name v = some (v', kr, ref)) :
    AllocNameOk sizes (v.space.liveName T) name v'.space ref := by
  unfold ipcEntryAllocName at hrun
  split at hrun
  swap
  · cases hrun
  next hvalid =>
  generalize sizes.rounds + 2 = fuel at hrun
  generalize false = treeEntry at hrun
  induction fuel generalizing v T fl treeEntry with
  | zero => cases hrun
  | succ fuel ih =>
    rw [allocNameLoop] at hrun
    obtain ⟨r, hround, hrun⟩ := bind_eq_some_iff.mp hrun
    have hr := h.allocNameRound hvalid hround
    cases r with
    | done v₁ kr₁ ref₁ =>
      cases hrun
      exact hr
    | again v₁ treeEntry₁ =>
      obtain ⟨T₁, fl₁, hok₁, hlive₁⟩ := hr
      have := ih hok₁ _ hrun
      rw [hlive₁] at this
      exact this

end alloc

/-! ## A new space -/

theorem linked_range' (next : ℕ → ℕ) : ∀ (k i : ℕ),
    (∀ j, i ≤ j → j < i + k → next j = j + 1) → next (i + k) = 0 →
    IndexList.Linked next i (List.range' (i + 1) k) := by
  intro k
  induction k with
  | zero => exact fun i _ hlast => hlast
  | succ k ih =>
    intro i hnext hlast
    refine ⟨hnext i (Nat.le_refl _) (by omega), Nat.succ_ne_zero i, ih (i + 1) ?_ ?_⟩
    · exact fun j h1 h2 => hnext j (by omega) (by omega)
    · rw [show i + 1 + k = i + (k + 1) by omega]
      exact hlast

theorem TableSizes.its_pos (sizes : TableSizes) {i : ℕ} (hi : i ≤ sizes.last + 1) :
    0 < sizes.its i := by
  induction i with
  | zero => exact sizes.pos
  | succ i ih => exact Nat.lt_of_lt_of_le (ih (by omega)) (sizes.le_succ (by omega))

theorem spaceCreate_ok (sizes : TableSizes) (self : ℕ) {initial : ℕ} (hi : initial ≤ sizes.last) :
    SpaceOk sizes (ipcSpaceCreate sizes self initial) (fun _ => none)
      (List.range' 1 (sizes.its initial - 1)) := by
  have hpos : 0 < sizes.its initial := sizes.its_pos (by omega)
  have hmem : ∀ i, i ∈ List.range' 1 (sizes.its initial - 1) ↔ 0 < i ∧ i < sizes.its initial := by
    intro i
    rw [List.mem_range'_1]
    omega
  have hindex : ∀ i, ¬ TreeIndex (fun _ => none) i := fun i ⟨_, hn, _⟩ => hn rfl
  refine ⟨Nat.succ_pos _, Nat.succ_le_succ hi, rfl, Splay.init_holds Splay.raw, ?_⟩
  refine ⟨hpos, sizes.le_succ hi, sizes.lt_bound (by exact Nat.succ_le_succ hi), ⟨rfl, rfl⟩, ?_,
    List.nodup_range', ?_, fun _ _ => ⟨rfl, rfl⟩, ?_, fun _ hn => absurd rfl hn,
    fun _ _ h => (by cases h), ?_, ?_⟩
  · apply linked_range' _ (sizes.its initial - 1) 0
    · intro j _ hj
      exact if_neg (by omega)
    · exact if_pos (by omega)
  · intro i
    rw [hmem]
    exact ⟨fun h => ⟨h.1, h.2, rfl⟩, fun h => ⟨h.1, h.2.1⟩⟩
  · exact fun i _ => ⟨fun h => (by cases h), fun h => absurd h (hindex i)⟩
  · simp [ipcSpaceCreate]
  · simp [ipcSpaceCreate, hindex]

/-! ## Runs -/

/-- A space, the global hash table, and the names in use with their contents. -/
structure NameState where
  v : SpaceHash
  live : MachPort → Option Contents

/-- The operations on a space. A caller that gets a new entry stores the contents `c`. -/
inductive NameEvent where
  | get (c : Contents)
  | alloc (mem : ℕ → Bool) (c : Contents)
  | allocName (mem : ℕ → Bool) (iteAlloc : Bool) (name : MachPort) (c : Contents)
  | store (name : MachPort) (c : Contents)
  | dealloc (name : MachPort)
  | growTable (mem : ℕ → Bool) (target : Option ℕ)
  | lookup (name : MachPort)
  | hashInsert (obj : ℕ) (name : MachPort) (ref : EntryRef)
  | hashDelete (obj : ℕ) (name : MachPort) (ref : EntryRef)
  | hashLookup (obj : ℕ)

def NameState.setSpace (st : NameState) (s : Space) : NameState :=
  { st with v := { st.v with space := s } }

/-- A new entry gets its contents, which have a type. -/
def NameState.fill (st : NameState) (name : MachPort) (ref : EntryRef) (c : Contents) :
    Option NameState :=
  if c.type = PortType.none then none
  else some ⟨{ st.v with space := st.v.space.store c ref }, update st.live name (some c)⟩

/-- An operation with what its caller does then; `none` when an assertion fails or the caller
uses a name that is not in use. -/
def NameState.step (sizes : TableSizes) (st : NameState) : NameEvent → Option NameState
  | .get c => (ipcEntryGet st.v.space).bind (fun (s, r) =>
    match r with
    | none => some (st.setSpace s)
    | some (name, i) => (st.setSpace s).fill name (.table i) c)
  | .alloc mem c => (ipcEntryAlloc sizes mem (sizes.rounds + 1) st.v).bind (fun (v, r) =>
    match r with
    | none => some { st with v := v }
    | some (name, i) => { st with v := v : NameState }.fill name (.table i) c)
  | .allocName mem iteAlloc name c =>
    (ipcEntryAllocName sizes mem iteAlloc name st.v).bind (fun (v, _, ref) =>
    match ref with
    | none => some { st with v := v }
    | some ref => (v.space.deref ref).bind (fun e =>
      if e.ieBits.type.isNone then { st with v := v : NameState }.fill name ref c
      else some { st with v := v }))
  | .store name c => if st.live name = none then none else st.fill name (st.v.space.locate name) c
  | .dealloc name =>
    if st.live name = none then none
    else (ipcEntryDealloc sizes st.v name (st.v.space.locate name)).map (fun v =>
      ⟨v, update st.live name none⟩)
  | .growTable mem target => (ipcEntryGrowTable sizes mem target sizes.rounds st.v).map
    (fun r => { st with v := r.1 })
  | .lookup name => (ipcEntryLookup st.v.space name).map (fun r => st.setSpace r.1)
  | .hashInsert obj name ref => (ipcHashInsert st.v obj name ref).map (fun v => { st with v := v })
  | .hashDelete obj name ref => (ipcHashDelete st.v obj name ref).map (fun v => { st with v := v })
  | .hashLookup obj => (ipcHashLookup st.v obj).map (fun r => { st with v := r.1 })

/-- A run from a new space whose table has the size with the number `initial`. -/
def NameRun (sizes : TableSizes) (self initial : ℕ) (g : GlobalHash) (es : List NameEvent)
    (st : NameState) : Prop :=
  Run (fun st e st' => NameState.step sizes st e = some st')
    ⟨⟨ipcSpaceCreate sizes self initial, g⟩, fun _ => none⟩ es st

/-- The entries are in order, and the names that they have are those in use. -/
def NameState.Ok (sizes : TableSizes) (st : NameState) : Prop :=
  ∃ T fl, SpaceOk sizes st.v.space T fl ∧ st.v.space.liveName T = st.live

section runs
variable {sizes : TableSizes} {self initial : ℕ} {g : GlobalHash} {st st' : NameState}
  {es : List NameEvent}

theorem AllocatedSlot.fill {live : MachPort → Option Contents} {v : SpaceHash} {name : MachPort}
    {ref : EntryRef} {c : Contents} (h : AllocatedSlot sizes live v.space name ref)
    (hfill : NameState.fill ⟨v, live⟩ name ref c = some st') : st'.Ok sizes := by
  unfold NameState.fill at hfill
  split at hfill
  · cases hfill
  · next hc =>
    cases hfill
    exact h.2 c hc

theorem NameState.Ok.step {e : NameEvent} (h : st.Ok sizes) (hstep : st.step sizes e = some st') :
    st'.Ok sizes := by
  obtain ⟨T, fl, hok, hlive⟩ := h
  cases e with
  | get c =>
    simp only [NameState.step] at hstep
    rcases hok.get with ⟨-, hget⟩ | ⟨i, fl', name, s', -, hget, hfree, hstore⟩
    · rw [hget] at hstep
      cases hstep
      exact ⟨T, fl, hok, hlive⟩
    · rw [hget] at hstep
      rw [hlive] at hfree hstore
      exact AllocatedSlot.fill ⟨hfree, fun c hc => ⟨T, fl', hstore c hc⟩⟩ hstep
  | alloc mem c =>
    simp only [NameState.step] at hstep
    obtain ⟨⟨v, r⟩, hrun, hstep⟩ := bind_eq_some_iff.mp hstep
    have hr := hok.alloc hrun
    rw [hlive] at hr
    cases r with
    | none =>
      cases hstep
      exact hr
    | some r => exact AllocatedSlot.fill hr hstep
  | allocName mem iteAlloc name c =>
    simp only [NameState.step] at hstep
    obtain ⟨⟨v, kr, ref⟩, hrun, hstep⟩ := bind_eq_some_iff.mp hstep
    have hr := hok.allocName hrun
    rw [hlive] at hr
    cases ref with
    | none =>
      cases hstep
      exact hr
    | some ref =>
      obtain ⟨x, hx, hr⟩ := hr
      simp only [hx, bind_some] at hstep
      rcases hr with ⟨htype, -, -, hr⟩ | ⟨htype, hr⟩
      · rw [if_neg (by rw [PortType.isNone_eq_true]; exact htype)] at hstep
        cases hstep
        exact hr
      · rw [if_pos (PortType.isNone_eq_true.mpr htype)] at hstep
        exact hr.fill hstep
  | store name c =>
    simp only [NameState.step] at hstep
    split at hstep
    · cases hstep
    · next hname =>
      unfold NameState.fill at hstep
      split at hstep
      · cases hstep
      · next hc =>
        cases hstep
        rw [← hlive] at hname ⊢
        obtain ⟨T', hok', hlive'⟩ := hok.store hname hc
        exact ⟨T', fl, hok', hlive'⟩
  | dealloc name =>
    simp only [NameState.step] at hstep
    split at hstep
    · cases hstep
    · next hname =>
      obtain ⟨v', hrun, rfl⟩ := map_eq_some_iff.mp hstep
      rw [← hlive] at hname ⊢
      exact hok.dealloc hname hrun
  | growTable mem target =>
    simp only [NameState.step] at hstep
    obtain ⟨⟨v', kr⟩, hrun, rfl⟩ := map_eq_some_iff.mp hstep
    rw [← hlive]
    exact hok.growTable hrun
  | lookup name =>
    simp only [NameState.step] at hstep
    obtain ⟨⟨s', r⟩, hrun, rfl⟩ := map_eq_some_iff.mp hstep
    obtain ⟨tree, hholds, hlook⟩ := hok.lookup name
    rw [hlook] at hrun
    cases hrun
    exact ⟨T, fl, hok.setTree hholds, hlive⟩
  | hashInsert obj name ref =>
    obtain ⟨v', hrun, rfl⟩ := map_eq_some_iff.mp hstep
    have hsame := ipcHashInsert_same hrun
    exact ⟨T, fl, hok.same hsame, (hsame.liveName T).trans hlive⟩
  | hashDelete obj name ref =>
    obtain ⟨v', hrun, rfl⟩ := map_eq_some_iff.mp hstep
    have hsame := ipcHashDelete_same hrun
    exact ⟨T, fl, hok.same hsame, (hsame.liveName T).trans hlive⟩
  | hashLookup obj =>
    obtain ⟨⟨v', r⟩, hrun, rfl⟩ := map_eq_some_iff.mp hstep
    have hsame := ipcHashLookup_same hrun
    refine ⟨T, fl, ?_, ?_⟩
    · rw [hsame]
      exact hok
    · rw [hsame]
      exact hlive

theorem NameRun.ok (hi : initial ≤ sizes.last) (hrun : NameRun sizes self initial g es st) :
    st.Ok sizes := by
  have hstart : NameState.Ok sizes ⟨⟨ipcSpaceCreate sizes self initial, g⟩, fun _ => none⟩ := by
    refine ⟨_, _, spaceCreate_ok sizes self hi, ?_⟩
    funext n
    simp [Space.liveName, Space.named, ipcSpaceCreate, Bits.ofGen]
  have hstep : ∀ s e t, NameState.Ok sizes s → s.step sizes e = some t → t.Ok sizes :=
    fun _ _ _ h hs => h.step hs
  exact Run.invariant hstep hrun hstart

/-! ## The representation invariant -/

def Space.treeNames (s : Space) : List MachPort := s.isTree.inorder.map Prod.fst

/-- The free list, the collision bits and the counters of a space. -/
structure Space.InOrder (sizes : TableSizes) (s : Space) : Prop where
  free : ∃ fl : List ℕ, IndexList.Linked (fun i => (s.isTable.entry i).ieRequest) 0 fl ∧ fl.Nodup ∧
    ∀ i, i ∈ fl ↔ 0 < i ∧ i < s.isTable.size ∧ (s.isTable.entry i).ieBits.type = PortType.none
  collision : ∀ i < s.isTable.size, (s.isTable.entry i).ieBits.collision = true ↔
    ∃ n ∈ s.treeNames, machPortIndex n = i
  apart : ∀ i, 0 < i → i < s.isTable.size → (s.isTable.entry i).ieBits.type = PortType.none →
    ∀ n ∈ s.treeNames, machPortIndex n ≠ i
  names : s.treeNames.Nodup
  total : s.isTreeTotal = s.treeNames.length
  small : s.isTreeSmall = Set.ncard {i | s.isTable.size ≤ i ∧ i < sizes.its s.isTableNext ∧
    ∃ n ∈ s.treeNames, machPortIndex n = i}

theorem Splay.Holds.mem_names {tree : Splay Entry} {T : TreeMap} (h : tree.Holds T) (n : MachPort) :
    n ∈ tree.inorder.map Prod.fst ↔ T n ≠ none := by
  rw [List.mem_map, ne_none_iff_exists']
  constructor
  · rintro ⟨⟨n, x⟩, hp, rfl⟩
    exact ⟨x, (h.represents.mem n x).mp hp⟩
  · rintro ⟨x, hx⟩
    exact ⟨(n, x), (h.represents.mem n x).mpr hx, rfl⟩

theorem SpaceOk.inOrder {s : Space} {T : TreeMap} {fl : List ℕ} (h : SpaceOk sizes s T fl) :
    s.InOrder sizes := by
  have hindex : ∀ i, (∃ n ∈ s.treeNames, machPortIndex n = i) ↔ TreeIndex T i := by
    intro i
    constructor
    · rintro ⟨n, hn, hni⟩
      exact ⟨n, (h.holds.mem_names n).mp hn, hni⟩
    · rintro ⟨n, hn, hni⟩
      exact ⟨n, (h.holds.mem_names n).mpr hn, hni⟩
  refine ⟨⟨fl, h.entries.linked, h.entries.nodup, h.entries.free⟩, ?_, ?_, h.holds.represents.nodup,
    ?_, ?_⟩
  · intro i hi
    rw [hindex]
    exact h.entries.collision i hi
  · intro i hpos hlt htype n hn hni
    exact h.entries.not_treeIndex ((h.entries.free i).mpr ⟨hpos, hlt, htype⟩)
      ((hindex i).mp ⟨n, hn, hni⟩)
  · rw [Space.treeNames, List.length_map, h.holds.represents.length]
    exact h.entries.total
  · simp only [hindex]
    exact h.entries.small

/-- The allocators never hand out a name that is in use. -/
structure NameState.Fresh (sizes : TableSizes) (st : NameState) : Prop where
  get : ∀ s name i, ipcEntryGet st.v.space = some (s, some (name, i)) → st.live name = none
  alloc : ∀ mem fuel v name i, ipcEntryAlloc sizes mem fuel st.v = some (v, some (name, i)) →
    st.live name = none
  allocName : ∀ mem iteAlloc name v kr ref x,
    ipcEntryAllocName sizes mem iteAlloc name st.v = some (v, kr, some ref) →
    v.space.deref ref = some x → x.ieBits.type = PortType.none → st.live name = none

theorem NameState.Ok.fresh (h : st.Ok sizes) : st.Fresh sizes := by
  obtain ⟨T, fl, hok, hlive⟩ := h
  refine ⟨?_, ?_, ?_⟩ <;> rw [← hlive]
  · intro s name i hrun
    rcases hok.get with ⟨-, hget⟩ | ⟨i', fl', name', s', -, hget, hfree, -⟩
    · rw [hget] at hrun
      cases hrun
    · rw [hget] at hrun
      cases hrun
      exact hfree
  · intro mem fuel v name i hrun
    exact (hok.alloc hrun).1
  · intro mem iteAlloc name v kr ref x hrun hx htype
    obtain ⟨y, hy, h⟩ := hok.allocName hrun
    rw [hx] at hy
    cases hy
    rcases h with ⟨hne, -⟩ | ⟨-, hslot⟩
    · exact absurd htype hne
    · exact hslot.1

theorem SpaceOk.live_iff {s : Space} {T : TreeMap} {fl : List ℕ} (h : SpaceOk sizes s T fl)
    (name : MachPort) :
    s.liveName T name ≠ none ↔ s.named name = true ∨ name ∈ s.treeNames := by
  rw [Space.treeNames, h.holds.mem_names, Space.liveName]
  by_cases hn : s.named name = true
  · simp [hn]
  · simp [hn]

/-- In every state that a run from a new space reaches, the entries are in order, the names in
use are those of the table and of the tree, and no allocator hands out one of them. -/
theorem name_space_invariant (hi : initial ≤ sizes.last)
    (hrun : NameRun sizes self initial g es st) :
    st.v.space.InOrder sizes ∧ st.Fresh sizes ∧
      ∀ name, st.live name ≠ none ↔ st.v.space.named name = true ∨ name ∈ st.v.space.treeNames := by
  have h := hrun.ok hi
  obtain ⟨T, fl, hok, hlive⟩ := id h
  refine ⟨hok.inOrder, h.fresh, ?_⟩
  rw [← hlive]
  exact hok.live_iff

end runs

/-- The state behind the operations, when none of them fails. -/
def runNames (sizes : TableSizes) (self initial : ℕ) (g : GlobalHash) (es : List NameEvent) :
    Option NameState :=
  es.foldlM (NameState.step sizes) ⟨⟨ipcSpaceCreate sizes self initial, g⟩, fun _ => none⟩

def receiveRight (obj : ℕ) : Contents := ⟨false, false, ⟨false, true, false, false, false⟩, 0, obj, 0⟩

theorem NameRun.of_isSome {sizes : TableSizes} {self initial : ℕ} {g : GlobalHash}
    {es : List NameEvent} (h : (runNames sizes self initial g es).isSome = true) :
    NameRun sizes self initial g es ((runNames sizes self initial g es).get h) :=
  Run.of_foldlM (some_get h).symm

/-- The slot of a name that is deallocated goes to a tree entry with the same index, and then
the table grows. -/
def pullEvents : List NameEvent :=
  [.get (receiveRight 64), .allocName (fun _ => true) true (machPortMake 1 5) (receiveRight 128),
    .allocName (fun _ => true) true (machPortMake 17 7) (receiveRight 192),
    .store (machPortMake 1 0) (receiveRight 0), .dealloc (machPortMake 1 0), .growTable (fun _ => true) none]

theorem pullEvents_run : (runNames ipcTableEntries 16 0 ⟨0, fun _ => []⟩ pullEvents).isSome = true := by
  decide +kernel

theorem name_space_invariant_pull : ∃ st,
    NameRun ipcTableEntries 16 0 ⟨0, fun _ => []⟩ pullEvents st ∧
    st.v.space.InOrder ipcTableEntries ∧ st.Fresh ipcTableEntries ∧
      ∀ name, st.live name ≠ none ↔ st.v.space.named name = true ∨ name ∈ st.v.space.treeNames :=
  have hrun := NameRun.of_isSome pullEvents_run
  ⟨_, hrun, name_space_invariant (Nat.zero_le _) hrun⟩

/-! ## Lookup -/

/-- `ipc_entry_lookup` finds the entry of the name when the name is in use, and nothing
otherwise: never the first slot, and never the entry of another name. -/
def NameState.LookupExact (st : NameState) (name : MachPort) : Prop :=
  ∃ s r, ipcEntryLookup st.v.space name = some (s, r) ∧ (r = none ↔ st.live name = none) ∧
    ∀ ref, r = some ref → (s.deref ref).map Entry.contents = st.live name ∧ ref ≠ .table 0 ∧
      ∀ name' s', ipcEntryLookup st.v.space name' = some (s', some ref) → name' = name

section lookup
variable {sizes : TableSizes} {self initial : ℕ} {g : GlobalHash} {st : NameState}
  {es : List NameEvent}

theorem SpaceOk.deref_locate {s : Space} {T : TreeMap} {fl : List ℕ} (h : SpaceOk sizes s T fl)
    (name : MachPort) : (s.deref (s.locate name)).map Entry.contents = s.liveName T name := by
  by_cases hn : s.named name = true
  · rw [Space.locate, if_pos hn, Space.liveName, if_pos hn, Space.deref,
      if_pos (Space.named_iff.mp hn).2.1, map_some]
  · rw [Space.locate, if_neg hn, Space.liveName, if_neg hn, Space.deref, h.holds.find?]

theorem locate_injective {s : Space} {name name' : MachPort} (h : s.locate name = s.locate name') :
    name = name' := by
  unfold Space.locate at h
  split at h
  · next hn =>
    split at h
    · next hn' =>
      have hi : machPortIndex name = machPortIndex name' := by injection h
      apply machPort_ext hi
      rw [← (Space.named_iff.mp hn).2.2.2, ← (Space.named_iff.mp hn').2.2.2, hi]
    · cases h
  · split at h
    · cases h
    · injection h

/-- For every run and every name, lookup is exact unless the name is the one of the first slot
and in use. -/
theorem lookup_exact_iff (hi : initial ≤ sizes.last) (hrun : NameRun sizes self initial g es st)
    (name : MachPort) :
    st.LookupExact name ↔ name ≠ reservedName ∨ st.live name = none := by
  obtain ⟨T, fl, hok, hlive⟩ := hrun.ok hi
  rw [← hlive]
  obtain ⟨tree, hholds, hlook⟩ := hok.lookup name
  constructor
  · rintro ⟨s, r, hrun, hnone, -⟩
    by_cases hr : name = reservedName
    · rw [hlook, if_pos hr] at hrun
      cases hrun
      rw [← hlive] at hnone
      exact .inr (hnone.mp rfl)
    · exact .inl hr
  · intro hcond
    refine ⟨_, _, hlook, ?_, ?_⟩
    · rw [← hlive]
      split
      · next hr =>
        rcases hcond with hne | hcond
        · exact absurd hr hne
        · simp [hcond]
      · rw [map_eq_none_iff]
    · intro ref href
      split at href
      · cases href
      · obtain ⟨c, hc, rfl⟩ := map_eq_some_iff.mp href
        refine ⟨?_, ?_, ?_⟩
        · rw [← hlive]
          exact (hok.setTree hholds).deref_locate name
        · unfold Space.locate
          split
          · next hn =>
            intro h
            injection h with h
            exact absurd h (Space.named_iff.mp hn).1.ne'
          · exact fun h => (by cases h)
        · intro name' s' hrun'
          obtain ⟨tree', -, hlook'⟩ := hok.lookup name'
          rw [hlook'] at hrun'
          injection hrun' with hrun'
          injection hrun' with _ hrun'
          split at hrun'
          · cases hrun'
          · obtain ⟨-, -, hloc⟩ := map_eq_some_iff.mp hrun'
            exact locate_injective hloc

end lookup

theorem lookup_exact_iff_pull : ∃ st, NameRun ipcTableEntries 16 0 ⟨0, fun _ => []⟩ pullEvents st ∧
    (st.LookupExact 0x105 ↔ (0x105 : MachPort) ≠ reservedName ∨ st.live 0x105 = none) :=
  have hrun := NameRun.of_isSome pullEvents_run
  ⟨_, hrun, lookup_exact_iff (Nat.zero_le _) hrun 0x105⟩

/-- The name `0xff` gets a tree entry, and the first slot has its generation. -/
def reservedEvents : List NameEvent :=
  [.allocName (fun _ => true) true reservedName (receiveRight 64)]

theorem reservedEvents_run :
    (runNames ipcTableEntries 16 0 ⟨0, fun _ => []⟩ reservedEvents).isSome = true := by
  decide +kernel

theorem lookup_reserved_missing : ∃ st,
    NameRun ipcTableEntries 16 0 ⟨0, fun _ => []⟩ reservedEvents st ∧
    machPortValid reservedName = true ∧ st.live reservedName ≠ none ∧
    (∃ s, ipcEntryLookup st.v.space reservedName = some (s, none)) ∧
    ¬ st.LookupExact reservedName := by
  have hrun := NameRun.of_isSome reservedEvents_run
  have hlive : ((runNames ipcTableEntries 16 0 ⟨0, fun _ => []⟩ reservedEvents).get
      reservedEvents_run).live reservedName ≠ none := by
    decide +kernel
  have hlook : (ipcEntryLookup ((runNames ipcTableEntries 16 0 ⟨0, fun _ => []⟩ reservedEvents).get
      reservedEvents_run).v.space reservedName).map Prod.snd = some none := by
    decide +kernel
  obtain ⟨⟨s, r⟩, hr, rfl⟩ := map_eq_some_iff.mp hlook
  refine ⟨_, hrun, by decide, hlive, ⟨s, hr⟩, ?_⟩
  rintro ⟨s', r', hr', hnone, -⟩
  rw [hr] at hr'
  cases hr'
  exact hlive (hnone.mp rfl)

end Darwin.Ipc
