import Darwin.Hfs.InsertLevel
import Darwin.Hfs.InsertRoom

/-! # The nodes that an insertion needs

`BTInsertRecord` sees to it that there are `treeDepth + 1` free nodes before it calls `InsertTree`. Where
the keys of index records have a fixed length, or five of the largest index records fit into a node, no
level takes more than one of them, and a new root one more.
-/
namespace Darwin.Hfs.BTreeRecords
open Darwin.Lib Function List
open Darwin.Hfs.BTreeAllocate (NodeType NodeMapOk Grows Grants)

variable {κ : Type}

/-! ## From level to level -/

/-- The nodes of a tree with their heights. The left sibling of a node has its height, and the root has
none. -/
structure Levels (chain : List ℕ) (s : BTree κ) (N : ℕ → ℕ → Prop) : Prop where
  ne_zero : ∀ {h m}, N h m → m ≠ 0
  bit : ∀ {h m}, N h m → s.map.bit chain m = true
  height : ∀ {h m}, N h m → (s.nodeAt m).height = h
  type : ∀ {h m}, N h m → (s.nodeAt m).type = if h = 1 then .leaf else .index
  used : ∀ {h m}, N h m → s.used (s.nodeAt m).records ≤ s.map.nodeSize
  proper : ∀ {h m}, N h m → ∀ x ∈ (s.nodeAt m).records, s.Proper h x
  linked : ∀ {h m}, N h m → (s.nodeAt m).bLink ≠ 0 → N h (s.nodeAt m).bLink
  root : ∀ {m}, N s.treeDepth m → (s.nodeAt m).bLink = 0

/-- A path from a leaf to the root, with the places of index records. -/
def OnPath (s : BTree κ) (N : ℕ → ℕ → Prop) (path : TreePathTable) : Prop :=
  ∀ h, 1 ≤ h → h ≤ s.treeDepth →
    N h (path h).1 ∧ (h ≠ 1 → (path h).2 < (s.nodeAt (path h).1).records.length)

/-- The insertion has come up to the node `n` of height `h`. Besides its records only lower nodes have
changed. -/
structure Climbed (chain : List ℕ) (s : BTree κ) (N : ℕ → ℕ → Prop) (h n index : ℕ) (t : BTree κ) :
    Prop where
  treeDepth : t.treeDepth = s.treeDepth
  kept : ∃ nodes, Kept chain nodes s t ∧ ∀ m ∈ nodes, ∀ k, N k m → k < h ∨ m = n
  descriptor : (t.nodeAt n).descriptor = (s.nodeAt n).descriptor
  records : ∀ x ∈ (t.nodeAt n).records, x ∈ (s.nodeAt n).records
  used : t.used (t.nodeAt n).records ≤ t.map.nodeSize
  index_le : index ≤ (t.nodeAt n).records.length

section climb
variable {s t t' : BTree κ} {disk : ℕ → Bool} {chain : List ℕ} {N : ℕ → ℕ → Prop} {path : TreePathTable}
  {h n index : ℕ} {key : InsertKey κ} {first last : Inserted}

theorem Levels.unique (hs : Levels chain s N) {h k m : ℕ} (hh : N h m) (hk : N k m) : h = k :=
  (hs.height hh).symm.trans (hs.height hk)

theorem Levels.real (hs : Levels chain s N) (hn : N h n) : s.Real n := by
  refine nodeAt_of_type (hs.type hn) ?_
  split
  · exact .inl rfl
  · exact .inr rfl

theorem Climbed.ready (hc : Climbed chain s N h n index t) (hs : Levels chain s N) (hn : N h n) :
    Ready chain h n index t := by
  obtain ⟨nodes, hkept, hbelow⟩ := hc.kept
  have hdescriptor := hc.descriptor
  have hlink : (t.nodeAt n).bLink = (s.nodeAt n).bLink := congrArg (fun d => d.2.2.2) hdescriptor
  have hproper : ∀ x ∈ (t.nodeAt n).records, t.Proper h x := fun x hx =>
    hkept.proper.mpr (hs.proper hn x (hc.records x hx))
  refine ⟨hkept.mapOk, hkept.bit n (hs.bit hn), hkept.real n (hs.bit hn) (hs.real hn), ?_, ?_, hc.used,
    hc.index_le, hproper, ?_, ?_, ?_⟩
  · exact (congrArg (fun d => d.2.1) hdescriptor).trans (hs.height hn)
  · have htype : (t.nodeAt n).type = if h = 1 then .leaf else .index :=
      (congrArg (fun d => d.1) hdescriptor).trans (hs.type hn)
    rw [htype]
    split
    · exact ⟨fun _ => ‹_›, fun _ => rfl⟩
    · exact ⟨fun he => NodeType.noConfusion he, fun he => absurd he ‹_›⟩
  · rw [hlink]
    intro h0
    have hleft := hs.linked hn h0
    exact hkept.real _ (hs.bit hleft) (hs.real hleft)
  · rw [hlink]
    intro h0 x hx
    have hleft := hs.linked hn h0
    by_cases hself : (s.nodeAt n).bLink = n
    · rw [hself] at hx
      exact hproper x hx
    · rw [hkept.node _ (hs.bit hleft) (fun hmem => ?_)] at hx
      · exact hkept.proper.mpr (hs.proper hleft x hx)
      · rcases hbelow _ hmem h hleft with hlt | he
        · exact absurd hlt (Nat.lt_irrefl h)
        · exact hself he
  · rw [hlink, hc.treeDepth]
    rintro rfl
    exact hs.root hn

theorem indexKey_ends (m : ℕ) (data : List UInt8) (replacing skip : Bool) (t : BTree κ) :
    Ends NotMap (indexKey m data replacing skip) t (fun key t' => t' = t ∧ ∃ x ∈ (t.nodeAt m).records,
      key = ⟨x.key, x.keyLength, getKeyLength t x.keyLength false, data, replacing, skip⟩) := by
  refine Ends.get_bind ((firstRecord_ends t m).bind ?_)
  rintro x t' ⟨rfl, hx⟩
  exact Ends.pure ⟨rfl, x, hx, rfl⟩

theorem fit_index {x : Record κ} (hx : t.Proper h x) (m : ℕ) (replacing skip : Bool) {k : ℕ} (hk : k ≠ 1) :
    InsertKey.Fit ⟨x.key, x.keyLength, getKeyLength t x.keyLength false, nodeNumData m, replacing, skip⟩ k t := by
  refine ⟨?_, hx.index m k⟩
  rw [decide_eq_false hk]

/-- What the second key of a level needs. -/
structure SecondOk (chain : List ℕ) (h n : ℕ) (primary second : InsertKey κ) (t : BTree κ) : Prop where
  height : h ≠ 1
  skipRotate : primary.skipRotate = true
  fit : second.Fit h t
  fixed : t.variableIndexKeys = false → t.used (t.nodeAt n).records + t.indexWeight ≤ t.map.nodeSize

/-- An index record of a proper node, which can be deleted. -/
structure OldKey (h p i : ℕ) (t : BTree κ) : Prop where
  index_lt : i < (t.nodeAt p).records.length
  proper : ∀ x ∈ (t.nodeAt p).records, t.Proper h x
  used : t.used (t.nodeAt p).records ≤ t.map.nodeSize

theorem parentKeys_ends {p i : ℕ} (hreal : t.Real p) (hm : NodeMapOk t.map chain) (hh : h ≠ 0)
    (hproper : ∀ m, m = n ∨ last.leftNode = some m → m ≠ p ∧ ∀ x ∈ (t.nodeAt m).records, t.Proper h x) :
    Ends NotMap (parentKeys n p i last) t (fun keys t' => Refilled [p] t t' ∧
      (t'.nodeAt p).records.Sublist (t.nodeAt p).records ∧ keys.1.Fit (h + 1) t' ∧
      (last.insertParent = false → keys.2 = none) ∧
      (OldKey (h + 1) p i t → i ≤ (t'.nodeAt p).records.length ∧
        ∀ second ∈ keys.2, SecondOk chain (h + 1) p keys.1 second t')) := by
  have hheight : h + 1 ≠ 1 := fun he => hh (Nat.succ.inj he)
  cases hupdate : last.updateParent with
  | true =>
    have hrefill := refilled_setRecords t p ((t.nodeAt p).records.eraseIdx i)
    have hself : ((t.setRecords p ((t.nodeAt p).records.eraseIdx i)).nodeAt p).records =
        (t.nodeAt p).records.eraseIdx i := records_setRecords hreal
    have hkept := hrefill.kept hm
    rw [parentKeys, hupdate, if_pos rfl]
    refine Ends.modify_bind ?_
    generalize t.setRecords p ((t.nodeAt p).records.eraseIdx i) = t₁ at *
    have hproper₁ : ∀ m, m = n ∨ last.leftNode = some m → ∀ x ∈ (t₁.nodeAt m).records, t₁.Proper h x := by
      intro m hmem x hx
      obtain ⟨hmp, hx'⟩ := hproper m hmem
      rw [hrefill.node m (fun hsingle => hmp (mem_singleton.mp hsingle))] at hx
      exact hkept.proper.mpr (hx' x hx)
    have hsub : (t₁.nodeAt p).records.Sublist (t.nodeAt p).records := hself ▸ eraseIdx_sublist ..
    have hlength : OldKey (h + 1) p i t → i ≤ (t₁.nodeAt p).records.length := by
      intro hold
      have hlt := hold.index_lt
      rw [hself, length_eraseIdx_of_lt hlt]
      omega
    refine (indexKey_ends n (nodeNumData n) true last.insertParent t₁).bind ?_
    rintro update t₂ ⟨rfl, x, hx, rfl⟩
    have hfit := fit_index (hproper₁ n (.inl rfl) x hx) n true last.insertParent hheight
    cases hinsert : last.insertParent with
    | false =>
      rw [hinsert] at hfit
      exact Ends.pure ⟨hrefill, hsub, hfit, fun _ => rfl, fun hold => ⟨hlength hold, fun second hsecond =>
        absurd hsecond (Option.not_mem_none second)⟩⟩
    | true =>
      rw [hinsert] at hfit
      rw [if_pos rfl]
      cases hleft : last.leftNode with
      | none => exact Ends.throw (fun _ he => OSStatus.noConfusion he)
      | some left =>
        refine Ends.get_bind ?_
        refine (indexKey_ends left (nodeNumData (t₂.nodeAt n).bLink) false false t₂).bind ?_
        rintro insert t₃ ⟨rfl, y, hy, rfl⟩
        refine Ends.pure ⟨hrefill, hsub, hfit, fun hfalse => absurd hfalse (by decide), fun hold => ⟨hlength hold, ?_⟩⟩
        intro second hsecond
        obtain rfl := Option.some.inj hsecond
        refine ⟨hheight, rfl, fit_index (hproper₁ left (.inr hleft) y hy) _ false false hheight, ?_⟩
        intro hfixed
        rw [hrefill.variableIndexKeys] at hfixed
        have hfreed := used_eraseIdx (t := t) (t.nodeAt p).records (List.getElem?_eq_getElem hold.index_lt)
        rw [(hold.proper _ (getElem_mem hold.index_lt)).weight_eq hheight hfixed] at hfreed
        rw [hself, hrefill.used, hkept.indexWeight, hkept.nodeSize]
        exact hfreed ▸ hold.used
  | false =>
    rw [parentKeys, hupdate, if_neg Bool.false_ne_true]
    cases hleft : last.leftNode with
    | none => exact Ends.throw (fun _ he => OSStatus.noConfusion he)
    | some left =>
      refine Ends.get_bind ?_
      refine (indexKey_ends left (nodeNumData (t.nodeAt n).bLink) false false t).bind ?_
      rintro insert t₁ ⟨rfl, y, hy, rfl⟩
      refine Ends.pure ⟨Refilled.refl _ _, List.Sublist.refl _,
        fit_index ((hproper left (.inr hleft)).2 y hy) _ false false hheight, fun _ => rfl, fun hold =>
          ⟨Nat.le_of_lt hold.index_lt, fun second hsecond => absurd hsecond (Option.not_mem_none second)⟩⟩

/-- The part of `InsertLevel` behind the insertions. -/
def toParent (disk : ℕ → Bool) (fuel : ℕ) (path : TreePathTable) (targetNodeNum level : ℕ)
    (first last : Inserted) : TreeM κ ℕ :=
  if last.insertParent || last.updateParent then do
    let _ ← fetchNode disk (path (level + 1)).1
    let (primaryKey, secondaryKey) ← parentKeys targetNodeNum (path (level + 1)).1 (path (level + 1)).2 last
    let _ ← insertLevel disk fuel path primaryKey secondaryKey (path (level + 1)).2 (level + 1)
    pure first.newNode
  else pure first.newNode

/-- The second insertion of `InsertLevel`. -/
def insertSecond (disk : ℕ → Bool) (targetNodeNum : ℕ) (first : Inserted) :
    Option (InsertKey κ) → TreeM κ Inserted
  | none => pure first
  | some key => insertNode disk key targetNodeNum first.newNode first.newIndex first.leftNode
      first.updateParent first.insertParent

theorem insertLevel_succ (disk : ℕ → Bool) (fuel : ℕ) (path : TreePathTable) (primary : InsertKey κ)
    (secondary : Option (InsertKey κ)) (index level : ℕ) :
    insertLevel disk (fuel + 1) path primary secondary index level = (do
      let first ← insertNode disk primary (path level).1 (path level).1 index none false false
      let btree ← get
      let last ← insertSecond disk (path level).1 first secondary
      toParent disk fuel (if first.rootSplit then update path (level + 1) (btree.rootNode, 1)
        else path) (path level).1 level first last) := by
  cases secondary with
  | none => rfl
  | some key => rfl

theorem levelDone_ends {secondary : Option (InsertKey κ)} (hready : Ready chain h n index t)
    (hkey : key.Fit h t) (hsecond : ∀ second ∈ secondary, SecondOk chain h n key second t)
    (hwide : t.variableIndexKeys = false ∨ 16 + 5 * t.indexWeight ≤ t.map.nodeSize) (hh : h ≤ t.treeDepth)
    (hfree : t.treeDepth + 2 ≤ t.map.freeNodes + h) :
    Ends NotMap (insertNode disk key n n index none false false) t (fun first t₁ =>
      Ends NotMap (insertSecond disk n first secondary) t₁ (fun last t' =>
        LevelDone chain h n t₁.rootNode t first last t')) := by
  refine (insertNode_ends hready hkey hh hfree).mono fun first t₁ hfirst => ?_
  split at hfirst
  · next hfits =>
    obtain ⟨rfl, rfl⟩ := hfirst
    cases secondary with
    | none => exact Ends.pure (.inr (.inl ⟨rfl, settled_placed hready hkey (fun _ => rfl)⟩))
    | some second =>
      have hok := hsecond second rfl
      refine insertNode_behind_fits hready hkey hok.fit hh hfree hfits ?_ rfl _
      intro he
      simp [placed, he]
  · next hfull =>
    cases secondary with
    | none => exact Ends.pure (hfirst.done _)
    | some second =>
      have hok := hsecond second rfl
      rcases hwide with hfixed | hwide
      · have hfits := hok.fixed hfixed
        rw [← hkey.proper.weight_eq hok.height hfixed] at hfits
        exact absurd hfits hfull
      · exact insertNode_behind_split hready hfirst hok.skipRotate hok.fit hok.height hwide

theorem used_sublist {records records' : List (Record κ)} (h : records.Sublist records') :
    t.used records ≤ t.used records' :=
  Nat.add_le_add_left ((h.map t.weight).sum_le_sum fun _ _ => Nat.zero_le _) 16

theorem newRoot_ends {up : Bool} (hgrown : Grown chain h n up false t last t') (hh : h ≠ 0)
    (hwide : 16 + 5 * t.indexWeight ≤ t.map.nodeSize) (fuel : ℕ) :
    Ends NotMap (toParent disk fuel (update path (h + 1) (t'.rootNode, 1)) n h first last) t'
      (fun _ _ => True) := by
  rw [toParent, update_self]
  split
  · refine (fetchNode_ends disk t'.rootNode t').bind ?_
    rintro - t₀ rfl
    have hproper : ∀ m, m = n ∨ last.leftNode = some m →
        m ≠ t₀.rootNode ∧ ∀ x ∈ (t₀.nodeAt m).records, t₀.Proper h x := fun m hm =>
      ⟨hgrown.ne m hm, fun x hx => hgrown.kept.proper.mpr (hgrown.proper m hm x hx)⟩
    refine (parentKeys_ends hgrown.realRoot hgrown.kept.mapOk hh hproper).bind ?_
    rintro ⟨update, second⟩ t₁ ⟨hrefill, hsub, hfit, hnone, -⟩
    obtain rfl : second = none := hnone hgrown.insertParent
    refine Ends.bind (Q := fun _ _ => True) ?_ fun _ _ _ => Ends.pure trivial
    cases fuel with
    | zero => exact Ends.throw (fun _ he => OSStatus.noConfusion he)
    | succ fuel =>
      rw [insertLevel_succ, update_self]
      have hlink : (t₁.nodeAt t₀.rootNode).bLink = 0 :=
        (congrArg (fun d => d.2.2.2) (hrefill.descriptor t₀.rootNode)).trans hgrown.rootLink
      have htarget : (if t₀.rootNode = (t₁.nodeAt t₀.rootNode).bLink then none else some t₀.rootNode) =
          some t₀.rootNode := by
        rw [hlink, if_neg hgrown.root_ne_zero]
      have hweight : t₁.weight update.record ≤ t.indexWeight := by
        have hle := hfit.proper.weight_le (fun he => hh (Nat.succ.inj he))
        rwa [(hrefill.kept hgrown.kept.mapOk).indexWeight, hgrown.kept.indexWeight] at hle
      have hused : t₁.used (t₁.nodeAt t₀.rootNode).records ≤ 16 + 2 * t.indexWeight := by
        rw [hrefill.used]
        exact (used_sublist hsub).trans hgrown.rootUsed
      have hsize : t₁.map.nodeSize = t.map.nodeSize := by
        rw [hrefill.map]
        exact hgrown.kept.nodeSize
      refine (Ends.of_ok (Q := fun first _ => first.insertParent = false ∧ first.updateParent = false)
        (insertNode_fits htarget (by omega)) ⟨rfl, rfl⟩).bind ?_
      rintro first t₂ ⟨hinsert, hupdate⟩
      refine Ends.get_bind (Ends.bind (Q := fun last _ => last = first) (Ends.pure rfl) ?_)
      rintro last t₃ rfl
      rw [toParent, hinsert, hupdate]
      exact Ends.pure trivial
  · exact Ends.pure trivial

theorem Climbed.settled (hc : Climbed chain s N h n index t) (hs : Levels chain s N) (hn : N h n)
    (hsettled : Settled chain h n false false t last t') : ∃ nodes, Kept chain nodes s t' ∧
      (∀ m ∈ nodes, ∀ k, N k m → k ≤ h) ∧ ∀ m, m = n ∨ last.leftNode = some m → ∀ k, N k m → k ≤ h := by
  obtain ⟨nodes, hkept, hbelow⟩ := hc.kept
  have hlink : (t.nodeAt n).bLink = (s.nodeAt n).bLink := congrArg (fun d => d.2.2.2) hc.descriptor
  have hself : ∀ k, N k n → k ≤ h := fun k hk => Nat.le_of_eq (hs.unique hk hn)
  have hleft : ∀ k, N k (t.nodeAt n).bLink → k ≤ h := by
    rw [hlink]
    exact fun k hk => Nat.le_of_eq (hs.unique hk (hs.linked hn (hs.ne_zero hk)))
  refine ⟨nodes ++ [n, (t.nodeAt n).bLink], ?_, fun m hm k hk => ?_, fun m hm k hk => ?_⟩
  · exact (hkept.mono (subset_append_left _ _)).trans hsettled.kept
      fun m hm _ => mem_append_right nodes hm
  · rcases mem_append.mp hm with hm | hm
    · rcases hbelow m hm k hk with hlt | rfl
      · exact Nat.le_of_lt hlt
      · exact hself k hk
    · rcases mem_pair.mp hm with rfl | rfl
      · exact hself k hk
      · exact hleft k hk
  · rcases hm with rfl | hm
    · exact hself k hk
    · rcases hsettled.leftNode m hm with rfl | hfree
      · exact hleft k hk
      · exact absurd ((hkept.bit m (hs.bit hk)).symm.trans hfree) (by decide)

theorem insertLevel_ends {secondary : Option (InsertKey κ)} (hs : Levels chain s N) (hpath : OnPath s N path)
    (hwide : s.variableIndexKeys = false ∨ 16 + 5 * s.indexWeight ≤ s.map.nodeSize) (fuel : ℕ) (h1 : 1 ≤ h)
    (hh : h ≤ s.treeDepth) (hc : Climbed chain s N h (path h).1 index t) (hkey : key.Fit h t)
    (hsecond : ∀ second ∈ secondary, SecondOk chain h (path h).1 key second t)
    (hfree : s.treeDepth + 2 ≤ t.map.freeNodes + h) :
    Ends NotMap (insertLevel disk fuel path key secondary index h) t (fun _ _ => True) := by
  induction fuel generalizing h t key secondary index with
  | zero => exact Ends.throw (fun _ he => OSStatus.noConfusion he)
  | succ fuel ih =>
    have hn := (hpath h h1 hh).1
    obtain ⟨_, hkept, -⟩ := hc.kept
    have hwide' : t.variableIndexKeys = false ∨ 16 + 5 * t.indexWeight ≤ t.map.nodeSize := by
      rw [hkept.variableIndexKeys, hkept.indexWeight, hkept.nodeSize]
      exact hwide
    rw [insertLevel_succ]
    refine (levelDone_ends (hc.ready hs hn) hkey hsecond hwide' (hc.treeDepth ▸ hh) (hc.treeDepth ▸ hfree)).bind ?_
    intro first t₁ hthen
    refine Ends.get_bind (hthen.bind ?_)
    rintro last t' (⟨hinsert, hupdate⟩ | ⟨hsplit, hsettled⟩ | ⟨hsplit, hroot, hfive, hgrown⟩)
    · rw [toParent, hinsert, hupdate]
      exact Ends.pure trivial
    · rw [hsplit, if_neg Bool.false_ne_true, toParent]
      split
      · next hflags =>
        -- the root has no parent, so the node is below it
        have hlt : h < s.treeDepth := by
          refine Nat.lt_of_le_of_ne hh fun he => ?_
          obtain ⟨hupdate, hinsert⟩ := hsettled.atRoot (he.trans hc.treeDepth.symm)
          rw [hupdate, hinsert] at hflags
          exact Bool.false_ne_true hflags
        have hfree' := hsettled.freeNodes
        have hdepth := hsettled.treeDepth.trans hc.treeDepth
        have hheight : h + 1 ≠ 1 := fun he => absurd h1 (by omega)
        obtain ⟨hp, hplace⟩ := hpath (h + 1) (Nat.le_add_left 1 h) hlt
        obtain ⟨nodes, hkept', hbelow, habove⟩ := hc.settled hs hn hsettled
        have hparent : (path (h + 1)).1 ∉ nodes := fun hm => Nat.not_succ_le_self h (hbelow _ hm _ hp)
        have hnode := hkept'.node _ (hs.bit hp) hparent
        have hproper : ∀ m, m = (path h).1 ∨ last.leftNode = some m →
            m ≠ (path (h + 1)).1 ∧ ∀ x ∈ (t'.nodeAt m).records, t'.Proper h x := by
          refine fun m hm => ⟨?_, fun x hx => hsettled.kept.proper.mpr (hsettled.proper m hm x hx)⟩
          rintro rfl
          exact Nat.not_succ_le_self h (habove _ hm _ hp)
        refine (fetchNode_ends disk _ t').bind ?_
        rintro - t₀ rfl
        refine (parentKeys_ends (hkept'.real _ (hs.bit hp) (hs.real hp)) hkept'.mapOk (Nat.ne_of_gt h1) hproper).bind ?_
        rintro ⟨primary, secondary'⟩ t₂ ⟨hrefill, hsub, hfit, -, hold⟩
        have hold' : OldKey (h + 1) (path (h + 1)).1 (path (h + 1)).2 t₀ := by
          refine ⟨?_, ?_, ?_⟩
          · rw [hnode]
            exact hplace hheight
          · rw [hnode]
            exact fun x hx => hkept'.proper.mpr (hs.proper hp x hx)
          · rw [hnode, hkept'.used, hkept'.nodeSize]
            exact hs.used hp
        obtain ⟨hindex, hsecond'⟩ := hold hold'
        have hc' : Climbed chain s N (h + 1) (path (h + 1)).1 (path (h + 1)).2 t₂ := by
          refine ⟨hrefill.treeDepth.trans hdepth, ⟨nodes ++ [(path (h + 1)).1], ?_, fun m hm k hk => ?_⟩, ?_,
            fun x hx => hnode ▸ hsub.subset hx, ?_, hindex⟩
          · exact (hkept'.mono (subset_append_left _ _)).trans (hrefill.kept hkept'.mapOk)
              fun m hm _ => mem_append_right nodes hm
          · rcases mem_append.mp hm with hm | hm
            · exact .inl (Nat.lt_succ_of_le (hbelow m hm k hk))
            · exact .inr (mem_singleton.mp hm)
          · rw [hrefill.descriptor, hnode]
          · rw [hrefill.used, hrefill.map]
            exact (used_sublist hsub).trans hold'.used
        refine (ih (Nat.le_add_left 1 h) hlt hc' hfit hsecond' ?_).bind fun _ _ _ => Ends.pure trivial
        rw [hrefill.map]
        omega
      · exact Ends.pure trivial
    · rw [hsplit, if_pos rfl, hroot]
      exact newRoot_ends hgrown (Nat.ne_of_gt h1) hfive fuel

end climb

/-! ## Formed trees -/

/-- The nodes of a tree, with their heights. -/
inductive BTree.Reaches (btree : BTree κ) : ℕ → ℕ → Prop
  | root : btree.Reaches btree.treeDepth btree.rootNode
  | child {h n : ℕ} {x : Record κ} : btree.Reaches (h + 2) n → x ∈ (btree.nodeAt n).records →
      btree.Reaches (h + 1) (childNodeNum x.data)

/-- What a valid tree has besides its order: its nodes are in use, the keys have allowed lengths, index
records hold node numbers, the nodes of a level are linked, the depth is one that `VerifyHeader` accepts,
and the map has the size that `ExtendBTree` expects. -/
structure BTree.Formed (btree : BTree κ) (chain : List ℕ) : Prop where
  inUse : ∀ {h n}, btree.Reaches h n → btree.map.bit chain n = true
  proper : ∀ {h n}, btree.Reaches h n → ∀ x ∈ (btree.nodeAt n).records, btree.Proper h x
  linked : ∀ {h n}, btree.Reaches h n → (btree.nodeAt n).bLink ≠ 0 → btree.Reaches h (btree.nodeAt n).bLink
  root : (btree.nodeAt btree.rootNode).bLink = 0
  treeDepth : btree.treeDepth ≤ 16
  mapBits : calcMapBits btree btree.map.totalNodes (8 * (btree.map.nodeSize - 256)) =
    btree.map.totalMapBits chain

section formed
variable [Ord κ] {btree t : BTree κ} {chain chain' leaves : List ℕ} {disk : ℕ → Bool} {h n : ℕ} {key : κ}

theorem BTree.Reaches.spans (hn : btree.Reaches h n) (hvalid : btree.Valid leaves) (hd : btree.treeDepth ≠ 0) :
    ∃ below, btree.Spans h n below := by
  induction hn with
  | root => exact ⟨leaves, hvalid.spans hd⟩
  | child _ hx ih =>
    obtain ⟨below, -, -, children, hrecords, -, hchild, -, -⟩ := ih
    rw [hrecords] at hx
    obtain ⟨child, hmem, rfl⟩ := mem_map.mp hx
    exact ⟨child.2, hchild child hmem⟩

omit [Ord κ] in
theorem BTree.Reaches.le_depth (hn : btree.Reaches h n) :
    h ≤ btree.treeDepth ∧ (h = btree.treeDepth → n = btree.rootNode) := by
  induction hn with
  | root => exact ⟨Nat.le_refl _, fun _ => rfl⟩
  | child _ _ ih => exact ⟨by omega, by omega⟩

theorem BTree.Spans.sound (hs : btree.Spans h n leaves) :
    btree.Sound h n ∧ (btree.nodeAt n).type = if h = 1 then .leaf else .index := by
  match h, hs with
  | 1, ⟨hsound, htype, _⟩ => exact ⟨hsound, htype⟩
  | h + 2, ⟨hsound, htype, _⟩ => exact ⟨hsound, htype⟩

theorem BTree.Sound.used_le (hs : btree.Sound h n) (hm : NodeMapOk btree.map chain) :
    btree.used (btree.nodeAt n).records ≤ btree.map.nodeSize := by
  have hchecked := hs.checked
  simp only [BTree.checkNode, BTree.checkOffsets, BTree.freeOffset, Node.numRecords, Bool.and_eq_true,
    decide_eq_true_eq, all_eq_true] at hchecked
  obtain ⟨-, ⟨-, heven⟩, hlt⟩ := hchecked
  have hsum : 2 ∣ ((btree.nodeAt n).records.map btree.getRecordSize).sum := by
    refine dvd_sum fun size hsize => ?_
    obtain ⟨x, hx, rfl⟩ := mem_map.mp hsize
    exact Nat.dvd_of_mod_eq_zero (heven x hx)
  have hsize := hm.nodeSize.2.2
  have hlt' := of_decide_eq_true hlt
  rw [used_eq]
  omega

theorem Roomed.levels (hroom : Roomed chain chain' btree t) (hvalid : btree.Valid leaves)
    (hd : btree.treeDepth ≠ 0) (hm : NodeMapOk btree.map chain) (hf : btree.Formed chain) :
    Levels chain' t btree.Reaches ∧ ∀ {h n}, btree.Reaches h n → t.nodeAt n = btree.nodeAt n := by
  have hsound : ∀ {h n}, btree.Reaches h n → btree.Sound h n ∧
      (btree.nodeAt n).type = if h = 1 then .leaf else .index := by
    intro h n hn
    obtain ⟨below, hspans⟩ := hn.spans hvalid hd
    exact hspans.sound
  have hnode : ∀ {h n}, btree.Reaches h n → t.nodeAt n = btree.nodeAt n := by
    intro h n hn
    obtain ⟨hs, htype⟩ := hsound hn
    rw [hroom.tree]
    refine hroom.extended.nodeAt hs.lt ?_
    rw [htype]
    split
    · exact .inl rfl
    · exact .inr rfl
  have hproper : ∀ {h x}, btree.Proper h x → t.Proper h x := by
    intro h x hx
    rw [hroom.tree]
    exact ⟨hx.keyLength, hx.data, hx.fixed⟩
  have hused : t.used = btree.used := by
    rw [hroom.tree]
    rfl
  refine ⟨⟨fun hn => (hsound hn).1.pos, fun hn => hroom.bit _ (hf.inUse hn), fun hn => ?_, fun hn => ?_,
    fun hn => ?_, fun hn x hx => ?_, fun hn => ?_, fun hn => ?_⟩, hnode⟩
  · rw [hnode hn]
    exact (hsound hn).1.height
  · rw [hnode hn]
    exact (hsound hn).2
  · rw [hnode hn, hused, hroom.extended.nodeSize]
    exact (hsound hn).1.used_le hm
  · rw [hnode hn] at hx
    exact hproper (hf.proper hn x hx)
  · rw [hnode hn]
    exact hf.linked hn
  · rw [hroom.tree] at hn
    rw [hnode hn, hn.le_depth.2 rfl]
    exact hf.root

theorem searchLevels_path [Std.TransOrd κ] {fuel : ℕ} {path : TreePathTable} {found : Found κ} (hvalid : btree.Valid leaves)
    (hd : btree.treeDepth ≠ 0) (hn : btree.Reaches h n)
    (hsearch : searchLevels btree disk key fuel path n = .ok found) :
    (∀ k, h < k → found.treePathTable k = path k) ∧
      (∀ k, 1 ≤ k → k ≤ h → btree.Reaches k (found.treePathTable k).1 ∧
        (k ≠ 1 → (found.treePathTable k).2 < (btree.nodeAt (found.treePathTable k).1).records.length)) ∧
      found.index ≤ (btree.nodeAt (found.treePathTable 1).1).records.length := by
  induction fuel generalizing n h path with
  | zero => cases hsearch
  | succ fuel ih =>
    obtain ⟨below, hspans⟩ := hn.spans hvalid hd
    obtain ⟨hsound, htype⟩ := hspans.sound
    rw [searchLevels, hsound.getNode] at hsearch
    simp only [bind, Except.bind, hsound.height] at hsearch
    by_cases h1 : h = 1
    · subst h1
      rw [if_pos rfl] at htype
      rw [if_pos htype] at hsearch
      cases hsearch
      refine ⟨fun k hk => update_of_ne (Nat.ne_of_gt hk) .., fun k hk hk' => ?_, ?_⟩
      · obtain rfl : k = 1 := Nat.le_antisymm hk' hk
        dsimp only
        rw [update_self]
        exact ⟨hn, fun he => absurd rfl he⟩
      · dsimp only
        rw [update_self]
        exact (searchNode_cut hsound.sorted key).le_length
    · rw [if_neg h1] at htype
      have hleaf : (btree.nodeAt n).type ≠ .leaf := by
        rw [htype]
        exact fun he => NodeType.noConfusion he
      rw [if_neg hleaf] at hsearch
      split at hsearch
      · cases hsearch
      · next record hrecord =>
        obtain ⟨k, rfl⟩ : ∃ k, h = k + 2 := by
          have hpos : h ≠ 0 := by
            rintro rfl
            cases hspans
          exact ⟨h - 2, by omega⟩
        have hchild := hn.child (mem_of_getElem? hrecord)
        obtain ⟨habove, hbelow, hindex⟩ := ih hchild hsearch
        refine ⟨fun j hj => ?_, fun j hj hj' => ?_, hindex⟩
        · rw [habove j (by omega)]
          exact update_of_ne (Nat.ne_of_gt hj) ..
        · rcases Nat.lt_or_eq_of_le hj' with hlt | rfl
          · exact hbelow j hj (Nat.le_of_lt_succ hlt)
          · rw [habove (k + 2) (Nat.lt_succ_self _), update_self]
            exact ⟨hn, fun _ => (List.getElem?_eq_some_iff.mp hrecord).1⟩

end formed

/-! ## The check before the insertion -/

section Main
variable [Ord κ] {btree : BTree κ} {leaves chain : List ℕ} {agent : Agent} {iterator : Iterator κ}
  {record : List UInt8}

/-- When the check before it has passed, `InsertTree` gets no error from the node map. -/
def RoomSuffices (agent : Agent) (iterator : Iterator κ) (record : List UInt8) (btree : BTree κ) : Prop :=
  ∀ found t, searchTree btree agent.disk iterator.key = .ok found → makeRoom agent btree = .ok () t →
    ∀ err t', insertTree agent.disk found.treePathTable iterator.key iterator.keyLength record found.index 1
      false t ≠ .error (.nodeMap err) t'

end Main

theorem grants_growTo : Grants BTreeAllocate.growTo := by
  intro eof minEOF hlt _
  rw [BTreeAllocate.growTo]
  omega

/-- A tree of two leaves that hold two index records each at most. The index record of the second leaf has
a shorter key than its first record, as it is left behind when the record is replaced. -/
def narrowTree : BTree ℕ where
  map := BTreeAllocate.headerTree 7 3 0xF000
  bigKeys := true
  variableIndexKeys := true
  maxKeyLength := 250
  treeDepth := 2
  rootNode := 3
  leafRecords := 3
  firstLeafNode := 1
  lastLeafNode := 2
  node
    | 1 => ⟨.leaf, 1, 2, 0, true, [⟨20, 246, [0, 0]⟩]⟩
    | 2 => ⟨.leaf, 1, 0, 1, true, [⟨40, 246, [0, 0]⟩, ⟨60, 236, [0, 0]⟩]⟩
    | 3 => ⟨.index, 2, 0, 0, true, [⟨20, 246, [0, 0, 0, 1]⟩, ⟨40, 4, [0, 0, 0, 2]⟩]⟩
    | _ => Node.clear

theorem narrowTree_valid : narrowTree.Valid [1, 2] where
  empty := fun h => (by cases h)
  spans := by
    intro _
    have h1 : narrowTree.Sound 1 1 := ⟨rfl, by decide, by decide, by decide, by decide, by decide⟩
    have h2 : narrowTree.Sound 1 2 := ⟨rfl, by decide, by decide, by decide, by decide, by decide⟩
    refine ⟨⟨rfl, by decide, by decide, by decide, by decide, by decide⟩, rfl,
      [(⟨20, 246, [0, 0, 0, 1]⟩, [1]), (⟨40, 4, [0, 0, 0, 2]⟩, [2])], rfl, rfl, ?_, ?_, ?_⟩
    · intro child hc
      rcases mem_cons.mp hc with rfl | hc
      · exact ⟨h1, rfl, rfl⟩
      · rw [mem_singleton.mp hc]
        exact ⟨h2, rfl, rfl⟩
    · decide
    · decide
  first := rfl
  last := rfl
  linked := by
    intro pre n post h
    match pre with
    | [] =>
      obtain ⟨rfl, rfl⟩ := List.cons.inj h
      exact ⟨rfl, rfl⟩
    | [m] =>
      simp only [cons_append, nil_append, List.cons.injEq] at h
      obtain ⟨rfl, rfl, rfl⟩ := h
      exact ⟨rfl, rfl⟩
    | _ :: _ :: _ => simp at h
  stray := by decide

theorem narrowTree_reaches {h n : ℕ} (hn : narrowTree.Reaches h n) :
    h = 2 ∧ n = 3 ∨ h = 1 ∧ (n = 1 ∨ n = 2) := by
  induction hn with
  | root => exact .inl ⟨rfl, rfl⟩
  | child _ hx ih =>
    rcases ih with ⟨hh, rfl⟩ | ⟨hh, -⟩
    · refine .inr ⟨by omega, ?_⟩
      rcases mem_pair.mp hx with rfl | rfl
      · exact .inl rfl
      · exact .inr rfl
    · omega

theorem narrowTree_formed : narrowTree.Formed [0] where
  inUse := fun hn => by
    rcases narrowTree_reaches hn with ⟨rfl, rfl⟩ | ⟨rfl, rfl | rfl⟩
    · rfl
    · rfl
    · rfl
  proper := fun hn => by
    rcases narrowTree_reaches hn with ⟨rfl, rfl⟩ | ⟨rfl, rfl | rfl⟩
    · intro x hx
      rcases mem_pair.mp hx with rfl | rfl
      · exact ⟨by decide, fun _ => rfl, fun _ hfixed => absurd hfixed (by decide)⟩
      · exact ⟨by decide, fun _ => rfl, fun _ hfixed => absurd hfixed (by decide)⟩
    · intro x hx
      rw [mem_singleton.mp hx]
      exact ⟨by decide, fun hne => absurd rfl hne, fun hne => absurd rfl hne⟩
    · intro x hx
      rcases mem_pair.mp hx with rfl | rfl
      · exact ⟨by decide, fun hne => absurd rfl hne, fun hne => absurd rfl hne⟩
      · exact ⟨by decide, fun hne => absurd rfl hne, fun hne => absurd rfl hne⟩
  linked := fun hn hlink => by
    have hroot : narrowTree.Reaches 2 3 := .root
    have hfirst : narrowTree.Reaches 1 1 := hroot.child mem_cons_self
    rcases narrowTree_reaches hn with ⟨rfl, rfl⟩ | ⟨rfl, rfl | rfl⟩
    · exact absurd rfl hlink
    · exact absurd rfl hlink
    · exact hfirst
  root := rfl
  treeDepth := by decide
  mapBits := by
    change calcMapBits narrowTree 7 2048 = (BTreeAllocate.headerTree 7 3 0xF000).totalMapBits [0]
    rw [BTreeAllocate.totalMapBits_headerTree, calcMapBits, if_neg (by decide)]

theorem narrowTree_map : NodeMapOk narrowTree.map [0] := by
  refine ⟨BTreeAllocate.mapShape_headerTree 3 0xF000 (by decide) (by decide), by decide, ?_, ?_, by decide⟩
  · intro n hn
    rw [mem_singleton.mp hn]
    rfl
  · intro n hn
    change 7 ≤ n at hn
    by_cases h16 : n < 16
    · interval_cases n <;> rfl
    · obtain ⟨k, hk⟩ : ∃ k, n / 16 = k + 1 := ⟨n / 16 - 1, by omega⟩
      have hword : narrowTree.map.word [0] (k + 1) = 0 := BTreeAllocate.getD_replicate_zero 127 k
      rw [BTreeAllocate.BTree.bit, bitAt, hk, hword]
      exact BitVec.getMsbD_zero

theorem error_of_statusOf {r : EStateM.Result OSStatus (BTree κ) ℕ} {err : OSStatus}
    (h : statusOf r = some err) : ∃ t, r = .error err t := by
  cases r with
  | ok n t => cases h
  | error e t =>
    obtain rfl := Option.some.inj h
    exact ⟨t, rfl⟩

/-- A tree of one leaf. -/
def leafTree : BTree ℕ where
  map := BTreeAllocate.headerTree 4 2 0xC000
  bigKeys := true
  variableIndexKeys := true
  maxKeyLength := 8
  treeDepth := 1
  rootNode := 1
  leafRecords := 1
  firstLeafNode := 1
  lastLeafNode := 1
  node n := if n = 1 then ⟨.leaf, 1, 0, 0, true, [⟨20, 4, [0, 0]⟩]⟩ else Node.clear

theorem leafTree_valid : leafTree.Valid [1] where
  empty := fun h => (by cases h)
  spans := fun _ => ⟨⟨rfl, by decide, by decide, by decide, by decide, by decide⟩, rfl, rfl⟩
  first := rfl
  last := rfl
  linked := by
    intro pre n post h
    match pre with
    | [] =>
      obtain ⟨rfl, rfl⟩ := List.cons.inj h
      exact ⟨rfl, rfl⟩
    | _ :: _ => simp at h
  stray := by decide

theorem leafTree_reaches {h n : ℕ} (hn : leafTree.Reaches h n) : h = 1 ∧ n = 1 := by
  induction hn with
  | root => exact ⟨rfl, rfl⟩
  | child _ _ ih => exact absurd ih.1 (by omega)

theorem leafTree_formed : leafTree.Formed [0] where
  inUse := fun hn => by
    obtain ⟨rfl, rfl⟩ := leafTree_reaches hn
    rfl
  proper := fun hn x hx => by
    obtain ⟨rfl, rfl⟩ := leafTree_reaches hn
    rw [mem_singleton.mp hx]
    exact ⟨by decide, fun hne => absurd rfl hne, fun hne => absurd rfl hne⟩
  linked := fun hn hlink => by
    obtain ⟨rfl, rfl⟩ := leafTree_reaches hn
    exact absurd rfl hlink
  root := rfl
  treeDepth := by decide
  mapBits := by
    change calcMapBits leafTree 4 2048 = (BTreeAllocate.headerTree 4 2 0xC000).totalMapBits [0]
    rw [BTreeAllocate.totalMapBits_headerTree, calcMapBits, if_neg (by decide)]

end Darwin.Hfs.BTreeRecords
