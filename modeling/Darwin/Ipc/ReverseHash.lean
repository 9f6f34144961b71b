import Darwin.Ipc.EntryDealloc

/-! # Both reverse hash tables of a space

An object that is in the reverse hash of a space has a name there. The local hash table has
it when the entry of the name is in the table, the global one when it is in the tree.
-/
namespace Darwin.Ipc
open Darwin.Lib Darwin.Lib.SearchTree Function List Option

/-- The objects in the reverse hash of a space, each with its name. -/
abbrev RevMap := ℕ → Option MachPort

/-! ## The buckets -/

/-- The items of a space in the buckets are the given ones, in their places and once each. -/
structure GlobalOk (g : GlobalHash) (sp : ℕ) (items : RevMap) : Prop where
  mem : ∀ b x, x ∈ g.bucket b → x.space = sp →
    b = ihGlobalHash g.mask sp x.obj ∧ items x.obj = some x.name
  item : ∀ obj n, items obj = some n → ⟨sp, obj, n⟩ ∈ g.bucket (ihGlobalHash g.mask sp obj)
  once : ∀ b, ((g.bucket b).filter (fun x => x.space = sp)).Nodup

section lists
variable {β : Type*}

theorem not_mem_eraseP {l : List β} {p q : β → Bool} {a : β} (hnodup : (l.filter q).Nodup)
    (hq : q a = true) (hp : p a = true) (huniq : ∀ x ∈ l, p x = true → x = a) :
    a ∉ l.eraseP p := by
  intro hmem
  by_cases ha : a ∈ l
  · obtain ⟨x, l₁, l₂, hbefore, hx, rfl, herase⟩ := exists_of_eraseP ha hp
    have hxa : x = a := huniq x (mem_append_right _ mem_cons_self) hx
    subst hxa
    rw [herase, mem_append] at hmem
    rcases hmem with hmem | hmem
    · exact hbefore x hmem hp
    · rw [filter_append, filter_cons_of_pos hq] at hnodup
      have := (nodup_cons.mp (List.Nodup.of_append_right hnodup)).1
      exact this (mem_filter.mpr ⟨hmem, hq⟩)
  · exact ha (mem_of_mem_eraseP hmem)

end lists

section global
variable {g : GlobalHash} {sp : ℕ} {items : RevMap}

theorem setBucket_bucket (g : GlobalHash) (i : ℕ) (l : List GlobalItem) (b : ℕ) :
    (g.setBucket i l).bucket b = if b = i then l else g.bucket b := by
  unfold GlobalHash.setBucket
  exact update_apply ..

theorem GlobalOk.setBucket (h : GlobalOk g sp items) {i : ℕ} {l : List GlobalItem}
    {items' : RevMap} (hnodup : (l.filter (fun x => x.space = sp)).Nodup)
    (hmem : ∀ x ∈ l, x.space = sp → i = ihGlobalHash g.mask sp x.obj ∧ items' x.obj = some x.name)
    (hother : ∀ obj, i ≠ ihGlobalHash g.mask sp obj → items' obj = items obj)
    (hitem : ∀ obj n, items' obj = some n → i = ihGlobalHash g.mask sp obj → ⟨sp, obj, n⟩ ∈ l) :
    GlobalOk (g.setBucket i l) sp items' := by
  refine ⟨?_, ?_, ?_⟩
  · intro b x hx hself
    rw [setBucket_bucket] at hx
    split at hx
    · next hb =>
      rw [hb]
      exact hmem x hx hself
    · next hb =>
      obtain ⟨h1, h2⟩ := h.mem b x hx hself
      have hne : i ≠ ihGlobalHash g.mask sp x.obj := by
        rw [← h1]
        exact fun h => hb h.symm
      exact ⟨h1, by rw [hother _ hne]; exact h2⟩
  · intro obj n hn
    change _ ∈ (g.setBucket i l).bucket (ihGlobalHash g.mask sp obj)
    rw [setBucket_bucket]
    split
    · next hb => exact hitem obj n hn hb.symm
    · next hb =>
      rw [hother obj (fun h => hb h.symm)] at hn
      exact h.item obj n hn
  · intro b
    rw [setBucket_bucket]
    split
    · exact hnodup
    · exact h.once b

theorem GlobalOk.lookup (h : GlobalOk g sp items) (obj : ℕ) :
    ∃ g', ipcHashGlobalLookup g sp obj = (g', items obj) ∧ GlobalOk g' sp items := by
  unfold ipcHashGlobalLookup
  simp only
  cases hfind : (g.bucket (ihGlobalHash g.mask sp obj)).find?
      (fun x => x.obj = obj ∧ x.space = sp) with
  | none =>
    refine ⟨g, ?_, h⟩
    cases hi : items obj with
    | none => rfl
    | some n =>
      have := List.find?_eq_none.mp hfind _ (h.item obj n hi)
      simp at this
  | some x =>
    have hx := mem_of_find?_eq_some hfind
    have hp := List.find?_some hfind
    simp only [decide_eq_true_eq] at hp
    obtain ⟨hb, hname⟩ := h.mem _ x hx hp.2
    rw [hp.1] at hname
    refine ⟨_, by rw [hname], ?_⟩
    -- the item is only moved to the front of its bucket
    have hperm : (x :: (g.bucket (ihGlobalHash g.mask sp obj)).eraseP
        (fun x => x.obj = obj ∧ x.space = sp)).Perm (g.bucket (ihGlobalHash g.mask sp obj)) := by
      obtain ⟨y, l₁, l₂, hbefore, hy, heq, herase⟩ := @List.exists_of_eraseP _
        (fun x : GlobalItem => x.obj = obj ∧ x.space = sp) _ x hx (decide_eq_true hp)
      have hxy : y = x := by
        have hnone : l₁.find? (fun x => x.obj = obj ∧ x.space = sp) = none :=
          List.find?_eq_none.mpr fun z hz => hbefore z hz
        rw [heq, List.find?_append, hnone, List.find?_cons, hy] at hfind
        exact Option.some.inj hfind
      rw [herase, heq, hxy]
      exact perm_middle.symm
    refine h.setBucket ((hperm.filter _).nodup_iff.mpr (h.once _)) ?_ (fun _ _ => rfl) ?_
    · intro y hy hself
      exact h.mem _ y (hperm.mem_iff.mp hy) hself
    · intro o n hn ho
      rw [hperm.mem_iff, ho]
      exact h.item o n hn

theorem GlobalOk.insert (h : GlobalOk g sp items) {obj : ℕ} {name : MachPort}
    (hobj : items obj = none) :
    GlobalOk (g.setBucket (ihGlobalHash g.mask sp obj)
      (⟨sp, obj, name⟩ :: g.bucket (ihGlobalHash g.mask sp obj))) sp
      (update items obj (some name)) := by
  have hne : ∀ x ∈ g.bucket (ihGlobalHash g.mask sp obj), x.space = sp → x.obj ≠ obj := by
    intro x hx hself ho
    have := (h.mem _ x hx hself).2
    rw [ho, hobj] at this
    cases this
  refine h.setBucket ?_ ?_ ?_ ?_
  · rw [filter_cons_of_pos (by simp), nodup_cons]
    refine ⟨?_, h.once _⟩
    intro hmem
    exact hne _ (mem_filter.mp hmem).1 rfl rfl
  · intro x hx hself
    rcases mem_cons.mp hx with rfl | hx
    · exact ⟨rfl, update_self ..⟩
    · obtain ⟨h1, h2⟩ := h.mem _ x hx hself
      exact ⟨h1, by rw [update_of_ne (hne x hx hself)]; exact h2⟩
  · intro o ho
    rw [update_of_ne]
    rintro rfl
    exact ho rfl
  · intro o n hn ho
    by_cases hoo : o = obj
    · subst hoo
      rw [update_self] at hn
      cases hn
      exact mem_cons_self
    · rw [update_of_ne hoo] at hn
      rw [ho]
      exact mem_cons_of_mem _ (h.item o n hn)

theorem GlobalOk.delete (h : GlobalOk g sp items) {obj : ℕ} {name : MachPort}
    (hobj : items obj = some name) (hinj : ∀ o, items o = some name → o = obj) :
    (g.bucket (ihGlobalHash g.mask sp obj)).any (fun x => x.space = sp ∧ x.name = name) = true ∧
    GlobalOk (g.setBucket (ihGlobalHash g.mask sp obj)
      ((g.bucket (ihGlobalHash g.mask sp obj)).eraseP (fun x => x.space = sp ∧ x.name = name)))
      sp (update items obj none) := by
  have hitem := h.item obj name hobj
  have huniq : ∀ x ∈ g.bucket (ihGlobalHash g.mask sp obj),
      decide (x.space = sp ∧ x.name = name) = true → x = ⟨sp, obj, name⟩ := by
    intro x hx hp
    obtain ⟨hself, hname⟩ := of_decide_eq_true hp
    have ho := (h.mem _ x hx hself).2
    rw [hname] at ho
    have := hinj _ ho
    cases x
    simp_all
  refine ⟨any_eq_true.mpr ⟨_, hitem, by simp⟩, h.setBucket ?_ ?_ ?_ ?_⟩
  · exact (h.once _).sublist (eraseP_sublist.filter _)
  · intro x hx hself
    obtain ⟨h1, h2⟩ := h.mem _ x (mem_of_mem_eraseP hx) hself
    refine ⟨h1, ?_⟩
    rw [update_of_ne]
    · exact h2
    · intro ho
      have hname : x.name = name := by
        rw [ho, hobj] at h2
        exact (Option.some.inj h2).symm
      have hxx : x = ⟨sp, obj, name⟩ := by
        cases x
        simp_all
      rw [hxx] at hx
      exact not_mem_eraseP (h.once _) (by simp) (by simp) huniq hx
  · intro o ho
    rw [update_of_ne]
    rintro rfl
    exact ho rfl
  · intro o n hn ho
    have hoo : o ≠ obj := by
      rintro rfl
      rw [update_self] at hn
      cases hn
    rw [update_of_ne hoo] at hn
    rw [ho]
    refine (mem_eraseP_of_neg ?_).mpr (h.item o n hn)
    simp only [true_and, decide_eq_true_eq]
    rintro rfl
    exact hoo (hinj o hn)

end global

/-! ## The reverse hash of a space -/

/-- The index of the object in the local hash table. -/
def Space.slotOf (s : Space) (rev : RevMap) (obj : ℕ) : Option ℕ :=
  (rev obj).bind (fun n => if s.named n then some (machPortIndex n) else none)

/-- The name of the object in the global hash table. -/
def Space.treeNameOf (s : Space) (rev : RevMap) (obj : ℕ) : Option MachPort :=
  (rev obj).bind (fun n => if s.named n then none else some n)

/-- The objects of `rev` are in the reverse hash of the space, and no others. -/
structure ReverseOk (v : SpaceHash) (rev : RevMap) : Prop where
  table : HashOk v.space.isTable (v.space.slotOf rev)
  tree : GlobalOk v.global v.space.self (v.space.treeNameOf rev)
  inj : ∀ o o' n, rev o = some n → rev o' = some n → o = o'
  count : v.space.isTreeHash = Set.ncard {n | ∃ o, v.space.treeNameOf rev o = some n}

section reverse
variable {v v' : SpaceHash} {rev : RevMap} {s : Space} {obj : ℕ} {name : MachPort}

theorem slotOf_eq_some {i : ℕ} : s.slotOf rev obj = some i ↔
    ∃ n, rev obj = some n ∧ s.named n = true ∧ machPortIndex n = i := by
  unfold Space.slotOf
  rw [bind_eq_some_iff]
  constructor
  · rintro ⟨n, hn, hi⟩
    split at hi
    · next hnamed => exact ⟨n, hn, hnamed, Option.some.inj hi⟩
    · cases hi
  · rintro ⟨n, hn, hnamed, hi⟩
    exact ⟨n, hn, by rw [if_pos hnamed, hi]⟩

theorem treeNameOf_eq_some : s.treeNameOf rev obj = some name ↔
    rev obj = some name ∧ ¬ s.named name = true := by
  unfold Space.treeNameOf
  rw [bind_eq_some_iff]
  constructor
  · rintro ⟨n, hn, hi⟩
    split at hi
    · cases hi
    · next hnamed =>
      cases hi
      exact ⟨hn, hnamed⟩
  · rintro ⟨hn, hnamed⟩
    exact ⟨name, hn, by rw [if_neg hnamed]⟩

theorem ReverseOk.treeInj (h : ReverseOk v rev) {o : ℕ}
    (ho : v.space.treeNameOf rev o = some name) (hobj : v.space.treeNameOf rev obj = some name) :
    o = obj :=
  h.inj o obj name (treeNameOf_eq_some.mp ho).1 (treeNameOf_eq_some.mp hobj).1

theorem ReverseOk.count_pos (h : ReverseOk v rev) (hobj : v.space.treeNameOf rev obj = some name) :
    0 < v.space.isTreeHash := by
  rw [h.count]
  exact (Set.ncard_pos).mpr ⟨name, obj, hobj⟩

theorem Space.named_make (h : s.named name = true) :
    machPortMake (machPortIndex name) (s.isTable.entry (machPortIndex name)).ieBits.gen = name := by
  rw [(Space.named_iff.mp h).2.2.2]
  exact machPortMake_index_gen name

theorem ReverseOk.lookup (h : ReverseOk v rev) (obj : ℕ) :
    ∃ g, ipcHashLookup v obj =
        some ({ v with global := g }, (rev obj).map (fun n => (n, v.space.locate n))) ∧
      ReverseOk { v with global := g } rev := by
  unfold ipcHashLookup
  rw [h.table.lookup, map_some]
  cases hslot : v.space.slotOf rev obj with
  | some i =>
    obtain ⟨n, hn, hnamed, rfl⟩ := slotOf_eq_some.mp hslot
    refine ⟨v.global, ?_, h⟩
    simp only [hn, map_some, Space.named_make hnamed, Space.locate, hnamed, if_true]
  | none =>
    have hnot : ∀ n, rev obj = some n → v.space.treeNameOf rev obj = some n := by
      intro n hn
      refine treeNameOf_eq_some.mpr ⟨hn, fun hnamed => ?_⟩
      rw [slotOf_eq_some.mpr ⟨n, hn, hnamed, rfl⟩] at hslot
      cases hslot
    have hmap : (v.space.treeNameOf rev obj).map (fun n => (n, EntryRef.tree n)) =
        (rev obj).map (fun n => (n, v.space.locate n)) := by
      cases hr : rev obj with
      | none => simp [Space.treeNameOf, hr]
      | some n =>
        have ht := hnot n hr
        rw [ht, map_some, map_some, Space.locate, if_neg (treeNameOf_eq_some.mp ht).2]
    by_cases hcount : 0 < v.space.isTreeHash
    · obtain ⟨g, hrun, hg⟩ := h.tree.lookup obj
      refine ⟨g, ?_, h.table, hg, h.inj, h.count⟩
      simp only [hcount, if_true, hrun, hmap]
    · refine ⟨v.global, ?_, h⟩
      rw [← hmap]
      simp only [hcount, if_false]
      cases ht : v.space.treeNameOf rev obj with
      | none => rfl
      | some n => exact absurd (h.count_pos ht) hcount

theorem SameEntries.named {s s' : Space} (h : SameEntries s.isTable s'.isTable) :
    s'.named = s.named := by
  funext n
  unfold Space.named
  rw [h.size, h.bits]

theorem slotOf_congr {s s' : Space} (h : s'.named = s.named) : s'.slotOf rev = s.slotOf rev := by
  unfold Space.slotOf
  rw [h]

theorem treeNameOf_congr {s s' : Space} (h : s'.named = s.named) :
    s'.treeNameOf rev = s.treeNameOf rev := by
  unfold Space.treeNameOf
  rw [h]

theorem slotOf_update (s : Space) (rev : RevMap) (obj : ℕ) (r : Option MachPort) :
    s.slotOf (update rev obj r) = update (s.slotOf rev) obj
      (r.bind (fun n => if s.named n then some (machPortIndex n) else none)) := by
  funext o
  unfold Space.slotOf
  by_cases ho : o = obj
  · rw [ho, update_self, update_self]
  · rw [update_of_ne ho, update_of_ne ho]

theorem treeNameOf_update (s : Space) (rev : RevMap) (obj : ℕ) (r : Option MachPort) :
    s.treeNameOf (update rev obj r) = update (s.treeNameOf rev) obj
      (r.bind (fun n => if s.named n then none else some n)) := by
  funext o
  unfold Space.treeNameOf
  by_cases ho : o = obj
  · rw [ho, update_self, update_self]
  · rw [update_of_ne ho, update_of_ne ho]

theorem slotOf_eq_none (h : rev obj = none) : s.slotOf rev obj = none := by
  rw [Space.slotOf, h]
  rfl

theorem treeNameOf_eq_none (h : rev obj = none) : s.treeNameOf rev obj = none := by
  rw [Space.treeNameOf, h]
  rfl

theorem revMap_inj_insert (h : ∀ o o' n, rev o = some n → rev o' = some n → o = o')
    (hname : ∀ o, rev o ≠ some name) (o o' : ℕ) (n : MachPort)
    (ho : update rev obj (some name) o = some n)
    (ho' : update rev obj (some name) o' = some n) : o = o' := by
  by_cases h1 : o = obj
  · by_cases h2 : o' = obj
    · rw [h1, h2]
    · rw [update_of_ne h2] at ho'
      rw [h1, update_self] at ho
      cases ho
      exact absurd ho' (hname o')
  · rw [update_of_ne h1] at ho
    by_cases h2 : o' = obj
    · rw [h2, update_self] at ho'
      cases ho'
      exact absurd ho (hname o)
    · rw [update_of_ne h2] at ho'
      exact h o o' n ho ho'

theorem revMap_inj_delete (h : ∀ o o' n, rev o = some n → rev o' = some n → o = o')
    (o o' : ℕ) (n : MachPort) (ho : update rev obj none o = some n)
    (ho' : update rev obj none o' = some n) : o = o' := by
  have hne : ∀ k, update rev obj none k = some n → rev k = some n := by
    intro k hk
    by_cases hko : k = obj
    · rw [hko, update_self] at hk
      cases hk
    · rwa [update_of_ne hko] at hk
  exact h o o' n (hne o ho) (hne o' ho')

theorem ReverseOk.insertTable (h : ReverseOk v rev) (hnull : obj ≠ 0) (hobj : rev obj = none)
    (hname : ∀ o, rev o ≠ some name) (hnamed : v.space.named name = true)
    (hfilled : (v.space.isTable.entry (machPortIndex name)).ieObject = obj) :
    ∃ t, ipcHashLocalInsert v.space.isTable obj (machPortIndex name) = some t ∧
      SameEntries v.space.isTable t ∧ ReverseOk (v.setTable t) (update rev obj (some name)) := by
  obtain ⟨hpos, hlt, -⟩ := Space.named_iff.mp hnamed
  obtain ⟨t, hrun, hsame, hok⟩ := h.table.insert
    (⟨hnull, hpos, hlt, hfilled, slotOf_eq_none hobj⟩ : HashState.Inserts _ obj (machPortIndex name))
  have hsn : (v.setTable t).space.named = v.space.named := SameEntries.named hsame
  refine ⟨t, hrun, hsame, ?_, ?_, revMap_inj_insert h.inj hname, ?_⟩
  · rw [slotOf_congr hsn, slotOf_update, bind_some, if_pos hnamed]
    exact hok
  · rw [treeNameOf_congr hsn, treeNameOf_update, bind_some, if_pos hnamed,
      ← treeNameOf_eq_none hobj, update_eq_self]
    exact h.tree
  · rw [treeNameOf_congr hsn, treeNameOf_update, bind_some, if_pos hnamed,
      ← treeNameOf_eq_none hobj, update_eq_self]
    exact h.count

theorem ReverseOk.insertTree (h : ReverseOk v rev) (hobj : rev obj = none)
    (hname : ∀ o, rev o ≠ some name) (hnamed : ¬ v.space.named name = true)
    (htotal : v.space.isTreeHash + 1 ≤ v.space.isTreeTotal) :
    ∃ v', ipcHashGlobalInsert v obj name = some v' ∧
      ReverseOk v' (update rev obj (some name)) := by
  refine ⟨_, if_pos htotal, ?_, ?_, revMap_inj_insert h.inj hname, ?_⟩
  · change HashOk v.space.isTable (v.space.slotOf (update rev obj (some name)))
    rw [slotOf_update, bind_some, if_neg hnamed, ← slotOf_eq_none hobj,
      update_eq_self]
    exact h.table
  · change GlobalOk _ v.space.self (v.space.treeNameOf (update rev obj (some name)))
    rw [treeNameOf_update, bind_some, if_neg hnamed]
    exact h.tree.insert (treeNameOf_eq_none hobj)
  · change v.space.isTreeHash + 1 = Set.ncard {n | ∃ o,
      v.space.treeNameOf (update rev obj (some name)) o = some n}
    have hset : {n | ∃ o, v.space.treeNameOf (update rev obj (some name)) o = some n} =
        insert name {n | ∃ o, v.space.treeNameOf rev o = some n} := by
      ext n
      simp only [Set.mem_insert_iff, Set.mem_ofPred_eq]
      rw [treeNameOf_update, bind_some, if_neg hnamed]
      constructor
      · rintro ⟨o, ho⟩
        by_cases hoo : o = obj
        · rw [hoo, update_self] at ho
          exact .inl (Option.some.inj ho).symm
        · rw [update_of_ne hoo] at ho
          exact .inr ⟨o, ho⟩
      · rintro (rfl | ⟨o, ho⟩)
        · exact ⟨obj, update_self ..⟩
        · refine ⟨o, ?_⟩
          rw [update_of_ne]
          · exact ho
          · rintro rfl
            rw [treeNameOf_eq_none hobj] at ho
            cases ho
    rw [hset, Set.ncard_insert_of_notMem, ← h.count]
    rintro ⟨o, ho⟩
    exact hname o (treeNameOf_eq_some.mp ho).1

theorem ReverseOk.deleteTree (h : ReverseOk v rev) (hobj : rev obj = some name)
    (hnamed : ¬ v.space.named name = true) :
    ∃ v', ipcHashGlobalDelete v obj name = some v' ∧
      ReverseOk v' (update rev obj none) := by
  have htree := treeNameOf_eq_some.mpr ⟨hobj, hnamed⟩
  obtain ⟨hany, hok⟩ := h.tree.delete htree (fun o ho => h.treeInj ho htree)
  have hpos := h.count_pos htree
  refine ⟨_, if_pos ⟨hpos, hany⟩, ?_, ?_, revMap_inj_delete h.inj, ?_⟩
  · change HashOk v.space.isTable (v.space.slotOf (update rev obj none))
    have hslot : v.space.slotOf rev obj = none := by
      rw [Space.slotOf, hobj, bind_some, if_neg hnamed]
    rw [slotOf_update, bind_none, ← hslot, update_eq_self]
    exact h.table
  · change GlobalOk _ v.space.self (v.space.treeNameOf (update rev obj none))
    rw [treeNameOf_update]
    exact hok
  · change v.space.isTreeHash - 1 = Set.ncard {n | ∃ o,
      v.space.treeNameOf (update rev obj none) o = some n}
    have hset : {n | ∃ o, v.space.treeNameOf (update rev obj none) o = some n} =
        {n | ∃ o, v.space.treeNameOf rev o = some n} \ {name} := by
      ext n
      simp only [Set.mem_sdiff, Set.mem_singleton_iff, Set.mem_ofPred_eq]
      rw [treeNameOf_update, bind_none]
      constructor
      · rintro ⟨o, ho⟩
        have hoo : o ≠ obj := by
          rintro rfl
          rw [update_self] at ho
          cases ho
        rw [update_of_ne hoo] at ho
        refine ⟨⟨o, ho⟩, ?_⟩
        rintro rfl
        exact hoo (h.treeInj ho htree)
      · rintro ⟨⟨o, ho⟩, hne⟩
        refine ⟨o, ?_⟩
        rw [update_of_ne]
        · exact ho
        · rintro rfl
          rw [htree] at ho
          exact hne (Option.some.inj ho).symm
    have hmem : name ∈ {n | ∃ o, v.space.treeNameOf rev o = some n} := ⟨obj, htree⟩
    rw [hset, Set.ncard_sdiff_singleton_of_mem hmem, ← h.count]

theorem ReverseOk.change (h : ReverseOk v rev) (hself : v'.space.self = v.space.self)
    (hglobal : v'.global = v.global) (hcount : v'.space.isTreeHash = v.space.isTreeHash)
    (hsize : v'.space.isTable.size = v.space.isTable.size)
    (hslots : v'.space.isTable.slots = v.space.isTable.slots)
    (hnamed : ∀ o n, rev o = some n → v'.space.named n = v.space.named n)
    (hobj : ∀ o n, rev o = some n → v.space.named n = true →
      (v'.space.isTable.entry (machPortIndex n)).ieObject =
        (v.space.isTable.entry (machPortIndex n)).ieObject) :
    ReverseOk v' rev := by
  have hslot : v'.space.slotOf rev = v.space.slotOf rev := by
    funext o
    unfold Space.slotOf
    cases hr : rev o with
    | none => rfl
    | some n => rw [bind_some, bind_some, hnamed o n hr]
  have htree : v'.space.treeNameOf rev = v.space.treeNameOf rev := by
    funext o
    unfold Space.treeNameOf
    cases hr : rev o with
    | none => rfl
    | some n => rw [bind_some, bind_some, hnamed o n hr]
  refine ⟨?_, ?_, h.inj, ?_⟩
  · rw [hslot]
    refine h.table.change hsize hslots ?_
    intro o i hi
    obtain ⟨n, hn, hnn, rfl⟩ := slotOf_eq_some.mp hi
    exact hobj o n hn hnn
  · rw [hglobal, hself, htree]
    exact h.tree
  · rw [hcount, htree]
    exact h.count

theorem ipcHashGlobalDelete_table (h : ipcHashGlobalDelete v obj name = some v') :
    v'.space.isTable = v.space.isTable := by
  unfold ipcHashGlobalDelete at h
  simp only at h
  split at h
  · cases h
    rfl
  · cases h

theorem ipcHashGlobalDelete_setTable (v : SpaceHash) (t : Table) (obj : ℕ) (name : MachPort) :
    ipcHashGlobalDelete (v.setTable t) obj name =
      (ipcHashGlobalDelete v obj name).map (fun v' => v'.setTable t) := by
  unfold ipcHashGlobalDelete
  simp only
  rw [apply_ite (Option.map _), map_some, map_none]
  rfl

theorem ReverseOk.rehome (h : ReverseOk v rev) {t : Table} {tentry : Entry}
    (hsize : t.size = v.space.isTable.size) (hslots : t.slots = v.space.isTable.slots)
    (hnamed : ∀ o n, rev o = some n → n ≠ name → (v.setTable t).space.named n = v.space.named n)
    (hobj : ∀ o n, rev o = some n → v.space.named n = true →
      (t.entry (machPortIndex n)).ieObject = (v.space.isTable.entry (machPortIndex n)).ieObject)
    (hbefore : ¬ v.space.named name = true) (hafter : (v.setTable t).space.named name = true)
    (hfilled : (t.entry (machPortIndex name)).ieObject = tentry.ieObject)
    (hnull : tentry.ieBits.type = PortType.sendRight → tentry.ieObject ≠ 0)
    (hsend : tentry.ieBits.type = PortType.sendRight → rev tentry.ieObject = some name)
    (hother : tentry.ieBits.type ≠ PortType.sendRight → ∀ o, rev o ≠ some name) :
    ∃ v', Darwin.Ipc.rehome (v.setTable t) tentry name = some v' ∧ ReverseOk v' rev := by
  unfold Darwin.Ipc.rehome
  split
  · next htype =>
    have hrev := hsend htype
    obtain ⟨vd, hdel, hokd⟩ := h.deleteTree hrev hbefore
    have htable := ipcHashGlobalDelete_table hdel
    have hvd : vd.space.named = v.space.named := by
      unfold Space.named
      rw [htable]
    have hne : ∀ o n, update rev tentry.ieObject none o = some n →
        rev o = some n ∧ n ≠ name := by
      intro o n ho
      by_cases hoo : o = tentry.ieObject
      · rw [hoo, update_self] at ho
        cases ho
      · rw [update_of_ne hoo] at ho
        refine ⟨ho, ?_⟩
        rintro rfl
        exact hoo (h.inj _ _ _ ho hrev)
    have hok₁ : ReverseOk (vd.setTable t) (update rev tentry.ieObject none) := by
      refine hokd.change rfl rfl rfl ?_ ?_ ?_ ?_
      · rw [htable]
        exact hsize
      · rw [htable]
        exact hslots
      · intro o n ho
        rw [hvd]
        exact hnamed o n (hne o n ho).1 (hne o n ho).2
      · intro o n ho hn
        rw [hvd] at hn
        rw [htable]
        exact hobj o n (hne o n ho).1 hn
    obtain ⟨t', hins, -, hok₂⟩ := hok₁.insertTable (hnull htype) (update_self ..)
      (fun o ho => (hne o name ho).2 rfl) hafter hfilled
    rw [update_idem, ← hrev, update_eq_self] at hok₂
    refine ⟨_, ?_, hok₂⟩
    rw [ipcHashGlobalDelete_setTable, hdel, map_some, bind_some]
    exact map_eq_some_iff.mpr ⟨t', hins, rfl⟩
  · next htype =>
    refine ⟨_, rfl, ?_⟩
    refine h.change rfl rfl rfl hsize hslots ?_ hobj
    intro o n ho
    refine hnamed o n ho ?_
    rintro rfl
    exact hother htype o ho

end reverse

/-! ## Which names are in the reverse hash -/

/-- The names in the reverse hash are those of the pure send rights. -/
structure SendOk (live : MachPort → Option Contents) (rev : RevMap) : Prop where
  mem : ∀ obj n, rev obj = some n ↔
    ∃ c, live n = some c ∧ c.type = PortType.sendRight ∧ c.object = obj
  notNull : ∀ n c, live n = some c → c.type = PortType.sendRight → c.object ≠ 0

end Darwin.Ipc
