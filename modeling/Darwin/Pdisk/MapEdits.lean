import Darwin.Lib.KeyedList
import Darwin.Pdisk.AddRange

/-! # Edits of a partition map

What the insertion and the deletion of entries do to the two lists, as long as these list the same
entries and the entries tile the medium.
-/
namespace Darwin.Pdisk
open Darwin.Lib List

/-! ## Insertion in order -/

section order
variable {α : Type*} {key : α → ℕ} {entry : α} {l pre post : List α}

theorem insertBehind_perm (hfirst : ∀ x ∈ l.head?, key x ≤ key entry) (hl : l ≠ []) :
    (insertBehind key entry l).Perm (entry :: l) := by
  induction l with
  | nil => exact absurd rfl hl
  | cons cur l ih =>
    have hcur : key cur ≤ key entry := hfirst cur rfl
    cases l with
    | nil =>
      rw [insertBehind, if_pos hcur]
      exact List.Perm.swap _ _ _
    | cons next l =>
      rw [insertBehind]
      by_cases hnext : key entry ≤ key next
      · rw [if_pos ⟨hcur, hnext⟩]
        exact List.Perm.swap _ _ _
      · rw [if_neg (fun h => hnext h.2)]
        have hbehind := ih (fun x hx => by
          obtain rfl : next = x := Option.some.inj hx
          exact Nat.le_of_not_le hnext) (cons_ne_nil _ _)
        exact (hbehind.cons cur).trans (List.Perm.swap _ _ _)

theorem insertInOrder_perm : (insertInOrder key entry l).Perm (entry :: l) := by
  cases l with
  | nil => exact List.Perm.refl _
  | cons cur l =>
    rw [insertInOrder]
    by_cases hfirst : key entry ≤ key cur
    · rw [if_pos hfirst]
    · rw [if_neg hfirst]
      refine insertBehind_perm (fun x hx => ?_) (cons_ne_nil _ _)
      obtain rfl : cur = x := Option.some.inj hx
      exact Nat.le_of_not_le hfirst

theorem insertBehind_between (hpre : ∀ x ∈ pre, key x < key entry) (hne : pre ≠ [])
    (hpost : ∀ x ∈ post.head?, key entry ≤ key x) :
    insertBehind key entry (pre ++ post) = pre ++ entry :: post := by
  induction pre with
  | nil => exact absurd rfl hne
  | cons cur pre ih =>
    obtain ⟨hcur, hpre⟩ := forall_mem_cons.mp hpre
    cases pre with
    | nil =>
      cases post with
      | nil => exact if_pos (Nat.le_of_lt hcur)
      | cons next post => exact if_pos ⟨Nat.le_of_lt hcur, hpost next rfl⟩
    | cons next pre =>
      have hnext : ¬ key entry ≤ key next := Nat.not_le.mpr (hpre next mem_cons_self)
      have hrest := ih hpre (cons_ne_nil _ _)
      rw [cons_append, cons_append, insertBehind, if_neg (fun h => hnext h.2)]
      rw [cons_append] at hrest
      rw [hrest]
      rfl

theorem insertInOrder_between (hpre : ∀ x ∈ pre, key x < key entry)
    (hpost : ∀ x ∈ post.head?, key entry ≤ key x) :
    insertInOrder key entry (pre ++ post) = pre ++ entry :: post := by
  cases pre with
  | nil =>
    cases post with
    | nil => rfl
    | cons next post => exact if_pos (hpost next rfl)
  | cons cur pre =>
    have hcur : ¬ key entry ≤ key cur := Nat.not_le.mpr (hpre cur mem_cons_self)
    rw [cons_append, insertInOrder, if_neg hcur]
    exact insertBehind_between hpre (cons_ne_nil _ _) hpost

end order

/-! ## The two lists -/

namespace PartitionMap

/-- The two lists list the same entries, and their number is known. -/
structure Linked (m : PartitionMap) : Prop where
  nodup : (m.baseOrder.map Entry.address).Nodup
  disk : m.diskOrder.Perm (m.baseOrder.map Entry.address)
  fresh : ∀ e ∈ m.baseOrder, e.address < m.nextAddress
  count : m.blocksInMap = m.baseOrder.length

/-- The disk addresses are those of the first blocks. -/
def Numbered (m : PartitionMap) : Prop :=
  ∀ e ∈ m.baseOrder, 1 ≤ m.diskAddress e.address ∧ m.diskAddress e.address ≤ m.baseOrder.length

/-- Nothing but the lists is changed. -/
structure SameMedium (m m' : PartitionMap) : Prop where
  media : m'.mediaSize = m.mediaSize
  maximum : m'.maximumInMap = m.maximumInMap

theorem SameMedium.trans {m₁ m₂ m₃ : PartitionMap} (h : SameMedium m₁ m₂) (h' : SameMedium m₂ m₃) :
    SameMedium m₁ m₃ := ⟨h'.media.trans h.media, h'.maximum.trans h.maximum⟩

section edits
variable {m : PartitionMap} {pre post : List Entry} {e : Entry} {data : Dpme}

theorem Linked.keyed (h : m.Linked) (hsplit : m.baseOrder = pre ++ e :: post) :
    Keyed Entry.address pre e post := by
  have hnodup := h.nodup
  rw [hsplit] at hnodup
  exact keyed_of_nodup hnodup

theorem Linked.entryAt (h : m.Linked) (hsplit : m.baseOrder = pre ++ e :: post) :
    m.entryAt e.address = some e := by
  rw [PartitionMap.entryAt, hsplit]
  exact (h.keyed hsplit).find

theorem Linked.nextByBase (h : m.Linked) (hsplit : m.baseOrder = pre ++ e :: post) :
    m.nextByBase e.address = post.head? := by
  rw [PartitionMap.nextByBase, hsplit, (h.keyed hsplit).dropWhile, tail_cons]

theorem Linked.prevByBase (h : m.Linked) (hsplit : m.baseOrder = pre ++ e :: post) :
    m.prevByBase e.address = pre.getLast? := by
  rw [PartitionMap.prevByBase, hsplit, (h.keyed hsplit).takeWhile]

theorem Linked.setData_eq (h : m.Linked) (hsplit : m.baseOrder = pre ++ e :: post) (data : Dpme) :
    (m.setData e.address data).baseOrder = pre ++ ⟨e.address, data⟩ :: post := by
  rw [PartitionMap.setData]
  dsimp only
  rw [hsplit]
  exact (h.keyed hsplit).map (fun e => { e with data })

theorem Linked.setData (h : m.Linked) (hsplit : m.baseOrder = pre ++ e :: post) (data : Dpme) :
    (m.setData e.address data).Linked := by
  have heq := h.setData_eq hsplit data
  have haddresses : (m.setData e.address data).baseOrder.map Entry.address =
      m.baseOrder.map Entry.address := by
    rw [heq, hsplit, map_append, map_append, map_cons, map_cons]
  refine ⟨haddresses ▸ h.nodup, haddresses ▸ h.disk, fun x hx => ?_, ?_⟩
  · have hmem : x.address ∈ m.baseOrder.map Entry.address := haddresses ▸ mem_map_of_mem hx
    obtain ⟨y, hy, hxy⟩ := mem_map.mp hmem
    rw [← hxy]
    exact h.fresh y hy
  · have hlength := congrArg List.length haddresses
    rw [length_map, length_map] at hlength
    rw [hlength]
    exact h.count

theorem Linked.deleteEntry_eq (h : m.Linked) (hsplit : m.baseOrder = pre ++ e :: post) :
    (m.deleteEntry e.address).baseOrder = pre ++ post := by
  rw [PartitionMap.deleteEntry]
  dsimp only
  rw [hsplit]
  exact (h.keyed hsplit).filter

theorem Linked.deleteEntry (h : m.Linked) (hsplit : m.baseOrder = pre ++ e :: post) :
    (m.deleteEntry e.address).Linked := by
  have heq := h.deleteEntry_eq hsplit
  have hnodup := h.nodup
  have hdisk := h.disk
  have hcount := h.count
  rw [hsplit, map_append, map_cons] at hnodup hdisk
  rw [hsplit, length_append, length_cons] at hcount
  have hmiddle : (pre.map Entry.address ++ e.address :: post.map Entry.address).Perm
      (e.address :: (pre.map Entry.address ++ post.map Entry.address)) := perm_middle
  refine ⟨?_, ?_, fun x hx => ?_, ?_⟩
  · rw [heq, map_append]
    exact (nodup_cons.mp (hmiddle.nodup_iff.mp hnodup)).2
  · rw [heq, map_append]
    have herase := (hdisk.trans hmiddle).erase e.address
    rw [erase_cons_head] at herase
    exact herase
  · rw [heq] at hx
    refine h.fresh x ?_
    rw [hsplit]
    rcases mem_append.mp hx with hx | hx
    · exact mem_append_left _ hx
    · exact mem_append_right _ (mem_cons_of_mem _ hx)
  · rw [heq, length_append]
    change m.blocksInMap - 1 = _
    omega

theorem Linked.addData (h : m.Linked) (data : Dpme) (hsplit : m.baseOrder = pre ++ post)
    (hpre : ∀ x ∈ pre, x.data.pblockStart < data.pblockStart)
    (hpost : ∀ x ∈ post.head?, data.pblockStart ≤ x.data.pblockStart) (index : ℕ) :
    ∃ m', m.addDataToMap true data index = some m' ∧ m'.Linked ∧
      m'.baseOrder = pre ++ ⟨m.nextAddress, data⟩ :: post ∧ m'.mediaSize = m.mediaSize ∧
      m'.maximumInMap =
        if m.maximumInMap < 0 ∧ data.type = kMapType then toInt data.pblocks else m.maximumInMap := by
  obtain ⟨m', hm'⟩ : ∃ m', m.addDataToMap true data index = some m' := ⟨_, rfl⟩
  have heq := Option.some.inj (hm'.symm.trans (if_pos rfl))
  have hbase : m'.baseOrder = pre ++ ⟨m.nextAddress, data⟩ :: post := by
    rw [heq]
    dsimp only
    rw [hsplit]
    exact insertInOrder_between hpre hpost
  have hnew : m.nextAddress ∉ m.baseOrder.map Entry.address := by
    intro hmem
    obtain ⟨x, hx, hxa⟩ := mem_map.mp hmem
    have hlt := h.fresh x hx
    omega
  have hperm : (m'.baseOrder.map Entry.address).Perm
      (m.nextAddress :: m.baseOrder.map Entry.address) := by
    rw [hbase, hsplit, map_append, map_append, map_cons]
    exact perm_middle
  refine ⟨m', hm', ⟨?_, ?_, fun x hx => ?_, ?_⟩, hbase, by rw [heq], by rw [heq]⟩
  · exact hperm.nodup_iff.mpr (nodup_cons.mpr ⟨hnew, h.nodup⟩)
  · have hdisk : m'.diskOrder.Perm (m.nextAddress :: m.diskOrder) := by
      rw [heq]
      exact insertInOrder_perm
    exact (hdisk.trans (h.disk.cons _)).trans hperm.symm
  · have hnext : m'.nextAddress = m.nextAddress + 1 := by rw [heq]
    have hmem := hperm.mem_iff.mp (mem_map_of_mem (f := Entry.address) hx)
    rcases mem_cons.mp hmem with hself | hold
    · omega
    · obtain ⟨y, hy, hxy⟩ := mem_map.mp hold
      have hlt := h.fresh y hy
      omega
  · have hlength := hperm.length_eq
    rw [length_map, length_cons, length_map] at hlength
    rw [hlength]
    have hcount := h.count
    have hblocks : m'.blocksInMap = m.blocksInMap + 1 := by rw [heq]
    rw [hblocks, hcount]
    push_cast
    rfl

theorem Linked.renumber (h : m.Linked) {m' : PartitionMap}
    (hm' : m' = { m.renumberDiskAddresses with changed := true }) :
    m'.Linked ∧ m'.Numbered ∧ m'.baseOrder = m.baseOrder ∧ SameMedium m m' := by
  subst hm'
  refine ⟨⟨h.nodup, h.disk, h.fresh, h.count⟩, fun e he => ?_, rfl, rfl, rfl⟩
  have hmem : e.address ∈ m.diskOrder := h.disk.mem_iff.mpr (mem_map_of_mem he)
  have hlength := h.disk.length_eq
  rw [length_map] at hlength
  have hidx := idxOf_lt_length_of_mem hmem
  rw [hlength] at hidx
  have hnumber : ({ m.renumberDiskAddresses with changed := true } : PartitionMap).diskAddress e.address =
      m.diskOrder.idxOf e.address + 1 := if_pos hmem
  rw [hnumber]
  exact ⟨Nat.succ_pos _, hidx⟩

end edits

end PartitionMap

end Darwin.Pdisk
