import Darwin.Hfs.NodeMap

/-! # Extending a B-tree file

`ExtendBTree` counts the bits of the map, lets the agent extend the file, links new map
nodes behind the last one and marks them in the map. The operations of each part are
counted, so that for every failing operation it is known what was done before.
-/
namespace Darwin.Hfs.BTreeAllocate
open Darwin.Lib Function List

/-! ## Counting the bits of the map -/

theorem takes_countMapBits {last : ℕ} {front : List ℕ} :
    ∀ {fuel total : ℕ} {node : Option ℕ} {s : Io BTree},
    Walkable s.st node (front ++ [last]) → (front ++ [last]).Nodup → front.length < fuel →
    total + s.st.totalMapBits (front ++ [last]) < 2 ^ 32 →
    Takes Eq (countMapBits fuel node total) s (walkCost node + 2 * front.length)
      (fun pos _ => pos = ⟨last, total + s.st.totalMapBits front,
        total + s.st.totalMapBits (front ++ [last])⟩) := by
  induction front with
  | nil =>
    intro fuel total node s hw hnodup hfuel hbits
    obtain ⟨fuel, rfl⟩ : ∃ f, fuel = f + 1 := ⟨fuel - 1, by omega⟩
    have h0 : node = none → last = 0 := by
      rintro rfl
      simpa using hw.ahead.1
    have hlink : (s.st.node last).fLink = 0 := (hw.tail (by simp) h0).ahead
    have hone : s.st.totalMapBits [last] = s.st.mapBits last := by
      rw [totalMapBits_cons]
      rfl
    rw [countMapBits]
    apply (takes_getMapNode hw).bind (fun _ _ => Eq.trans)
    rintro n _ rfl rfl
    apply Takes.current_bind
    dsimp only
    rw [if_neg (by simpa using hlink)]
    apply Takes.pure rfl
    rw [nil_append, hone] at hbits ⊢
    rw [u32_eq hbits]
    rfl
  | cons n front ih =>
    intro fuel total node s hw hnodup hfuel hbits
    obtain ⟨fuel, rfl⟩ : ∃ f, fuel = f + 1 := ⟨fuel - 1, by omega⟩
    rw [cons_append] at hw hnodup hbits
    obtain ⟨hn, hnodup'⟩ := nodup_cons.mp hnodup
    have h0 : node = none → n = 0 := by
      rintro rfl
      simpa using hw.ahead.1
    have hw' := hw.tail hn h0
    have hlink : (s.st.node n).fLink ≠ 0 := by
      have := hw'.ahead
      cases front with
      | nil => exact this.1 ▸ this.2.1
      | cons m ms => exact this.1 ▸ this.2.1
    rw [totalMapBits_cons] at hbits
    rw [countMapBits, length_cons, show walkCost node + 2 * (front.length + 1) =
      walkCost node + (walkCost (some n) + 2 * front.length) by simp only [walkCost]; omega]
    apply (takes_getMapNode hw).bind (fun _ _ => Eq.trans)
    rintro k _ rfl rfl
    apply Takes.current_bind
    dsimp only
    rw [if_pos hlink, u32_eq (by omega)]
    apply (ih (s := ⟨s.env, s.ops + walkCost node, s.st⟩) hw' hnodup' (by simpa using hfuel)
      (by dsimp only; omega)).conseq
    · exact fun _ h => h
    · rintro pos _ rfl rfl
      simp only [cons_append, totalMapBits_cons, Nat.add_assoc]

/-! ## The new map nodes -/

/-- The tree with `count` linked and empty map nodes from `first` on. -/
def BTree.withMapNodes (btree : BTree) (first count : ℕ) : BTree :=
  { btree with node := fun n =>
      if first ≤ n ∧ n < first + count then
        ⟨.map, if n + 1 < first + count then n + 1 else 0,
          List.replicate ((btree.nodeSize - 20) / 2) 0⟩
      else btree.node n }

def SameTotal (btree btree' : BTree) : Prop := btree'.totalNodes = btree.totalNodes

theorem SameTotal.refl (btree : BTree) : SameTotal btree btree := rfl

theorem SameTotal.trans {b b' b'' : BTree} (h : SameTotal b b') (h' : SameTotal b' b'') :
    SameTotal b b'' := Eq.trans h' h

theorem takes_initMapNode (s : Io BTree) (n fLink : ℕ) :
    Takes SameTotal (initMapNode n fLink) s 2 (fun _ t => t = s.st.setNode n
      ⟨.map, fLink, List.replicate ((s.st.nodeSize - 20) / 2) 0⟩) := by
  have hnew : Takes SameTotal (getNewNode n) s (1 + 0)
      (fun _ t => t = s.st.setNode n ⟨.index, 0, []⟩) := by
    have hop := Takes.operation (SameTotal.refl s.st) (e := OSStatus.agentErr)
      (Q := fun _ t => t = s.st) rfl
    apply hop.bind (fun _ _ => SameTotal.trans)
    rintro _ _ - rfl
    exact Takes.update rfl rfl
  change Takes SameTotal _ s (1 + 0 + 1) _
  apply hnew.bind (fun _ _ => SameTotal.trans)
  rintro _ _ - rfl
  apply Takes.update_bind (F := SameTotal)
  · apply Takes.operation (SameTotal.refl _)
    simp only [BTree.setNode, update_idem]
  · exact fun _ h => h

theorem takes_initMapNodes {more : ℕ} : ∀ {n : ℕ} {s : Io BTree}, n + more + 1 < 2 ^ 32 →
    Takes SameTotal (initMapNodes more n) s (2 * (more + 1))
      (fun _ t => t = s.st.withMapNodes n (more + 1)) := by
  induction more with
  | zero =>
    intro n s hn
    apply (takes_initMapNode s n 0).conseq (fun _ h => h)
    rintro _ _ - rfl
    simp only [BTree.setNode, BTree.withMapNodes]
    congr 1
    funext m
    by_cases hm : m = n
    · simp [hm]
    · rw [update_of_ne hm, if_neg (by omega)]
  | succ more ih =>
    intro n s hn
    rw [initMapNodes, u32_eq (by omega), show 2 * (more + 1 + 1) = 2 + 2 * (more + 1) by omega]
    apply (takes_initMapNode s n (n + 1)).bind (fun _ _ => SameTotal.trans)
    rintro _ _ - rfl
    apply (ih (by omega)).conseq (fun _ h => h)
    rintro _ _ - rfl
    simp only [BTree.setNode, BTree.withMapNodes]
    congr 1
    funext m
    by_cases hm : m = n
    · rw [if_neg (by omega), if_pos (by omega), if_pos (by omega), hm, update_self]
    · by_cases hin : n + 1 ≤ m ∧ m < n + 1 + (more + 1)
      · rw [if_pos hin, if_pos (show n ≤ m ∧ m < n + (more + 1 + 1) by omega)]
        simp only [show m + 1 < n + (more + 1 + 1) ↔ m + 1 < n + 1 + (more + 1) by omega]
      · rw [if_neg hin, if_neg (by omega), update_of_ne hm]

/-! ## Marking the new map nodes -/

section Marking
variable {last old start total size : ℕ}

/-- The places of the records from the last old one on: number 0 begins at bit `start` and
ends at `total`, and each new record has `size` bits. -/
def posAt (last old start total size : ℕ) : ℕ → MapPos
  | 0 => ⟨last, start, total⟩
  | i + 1 => ⟨old + i, total + i * size, total + (i + 1) * size⟩

/-- The number of the record that holds bit `n`. -/
def recordOf (total size n : ℕ) : ℕ := if n < total then 0 else (n - total) / size + 1

/-- The records of the map, from the last old one on. -/
structure Records (btree : BTree) (last old start total size count : ℕ) : Prop where
  sizePos : 0 < size
  startLe : start ≤ total
  fits : total + count * size < 2 ^ 31
  oldPos : 0 < old
  inFile : old + count ≤ btree.totalNodes
  lastBits : btree.mapBits last = total - start
  bits : ∀ i < count, btree.mapBits (old + i) = size
  lastNext : 0 < count → (btree.node last).fLink = old
  next : ∀ i, i + 1 < count → (btree.node (old + i)).fLink = old + (i + 1)
  ends : (btree.node (posAt last old start total size count).mapNode).fLink = 0

theorem Records.of_same {btree btree' : BTree} {count : ℕ}
    (h : Records btree last old start total size count) (hs : SameShape btree btree') :
    Records btree' last old start total size count where
  sizePos := h.sizePos
  startLe := h.startLe
  fits := h.fits
  oldPos := h.oldPos
  inFile := hs.totalNodes ▸ h.inFile
  lastBits := by rw [BTree.mapBits, hs.length]; exact h.lastBits
  bits i hi := by rw [BTree.mapBits, hs.length]; exact h.bits i hi
  lastNext hc := (hs.fLink last).trans (h.lastNext hc)
  next i hi := (hs.fLink _).trans (h.next i hi)
  ends := (hs.fLink _).trans h.ends

theorem recordOf_mono {n m : ℕ} (h : n ≤ m) : recordOf total size n ≤ recordOf total size m := by
  rw [recordOf, recordOf]
  split_ifs
  · exact Nat.zero_le _
  · exact Nat.zero_le _
  · omega
  · exact Nat.succ_le_succ (Nat.div_le_div_right (by omega))

theorem lt_posAt_recordOf {n : ℕ} (hsize : 0 < size) :
    n < (posAt last old start total size (recordOf total size n)).totalMapBits := by
  rw [recordOf]
  split_ifs with h
  · exact h
  · have := Nat.lt_div_mul_add hsize (a := n - total)
    simp only [posAt, Nat.add_mul, Nat.one_mul]
    omega

theorem posAt_le_of_lt_recordOf {n i : ℕ} (h : i < recordOf total size n) :
    (posAt last old start total size i).totalMapBits ≤ n := by
  rw [recordOf] at h
  split_ifs at h with hn
  · exact absurd h (Nat.not_lt_zero i)
  · have hmul : i * size ≤ n - total :=
      (Nat.mul_le_mul_right size (Nat.le_of_lt_succ h)).trans (Nat.div_mul_le_self _ _)
    cases i with
    | zero =>
      simp only [posAt]
      omega
    | succ i =>
      simp only [posAt]
      omega

theorem posAt_recStartBit_le {n i : ℕ} (h : i ≤ recordOf total size n) (hstart : start ≤ n) :
    (posAt last old start total size i).recStartBit ≤ n := by
  cases i with
  | zero => exact hstart
  | succ i =>
    have := @posAt_le_of_lt_recordOf last old start total size n i h
    cases i with
    | zero =>
      simp only [posAt] at this ⊢
      omega
    | succ i => exact this

theorem Records.mapBits {btree : BTree} {count i : ℕ}
    (h : Records btree last old start total size count) (hi : i ≤ count) :
    btree.mapBits (posAt last old start total size i).mapNode =
      (posAt last old start total size i).totalMapBits -
        (posAt last old start total size i).recStartBit := by
  cases i with
  | zero => exact h.lastBits
  | succ i =>
    have hbits := h.bits i (by omega)
    simp only [posAt, Nat.succ_mul]
    omega

theorem Records.fLink {btree : BTree} {count i : ℕ}
    (h : Records btree last old start total size count) (hi : i < count) :
    (btree.node (posAt last old start total size i).mapNode).fLink = old + i := by
  cases i with
  | zero => exact h.lastNext hi
  | succ i => exact h.next i hi

theorem Records.totalMapBits_lt {btree : BTree} {count i : ℕ}
    (h : Records btree last old start total size count) (hi : i ≤ count) :
    (posAt last old start total size i).totalMapBits < 2 ^ 31 := by
  have hfits := h.fits
  cases i with
  | zero =>
    simp only [posAt]
    omega
  | succ i =>
    have := Nat.mul_le_mul_right size hi
    simp only [posAt]
    omega

theorem Records.posAt_succ {btree : BTree} {count i : ℕ}
    (h : Records btree last old start total size count) (hi : i < count) :
    (⟨old + i, (posAt last old start total size i).totalMapBits,
      u32 ((posAt last old start total size i).totalMapBits + btree.mapBits (old + i))⟩ : MapPos) =
      posAt last old start total size (i + 1) := by
  have hlt := h.totalMapBits_lt (i := i + 1) (by omega)
  have hsum : (posAt last old start total size i).totalMapBits = total + i * size := by
    cases i with
    | zero => simp [posAt]
    | succ i => rfl
  rw [hsum, h.bits i hi]
  simp only [posAt, Nat.succ_mul] at hlt ⊢
  rw [u32_eq (by omega), Nat.add_assoc]

theorem takes_seekMapRecord {n count : ℕ} : ∀ {steps fuel i : ℕ} {s : Io BTree},
    Records s.st last old start total size count → recordOf total size n = i + steps →
    recordOf total size n ≤ count → start ≤ n → steps < fuel →
    Takes Eq (seekMapRecord n fuel (posAt last old start total size i)) s (2 * steps)
      (fun pos _ => pos = posAt last old start total size (recordOf total size n)) := by
  intro steps
  induction steps with
  | zero =>
    intro fuel i s h hrec hcount hstart hfuel
    obtain ⟨fuel, rfl⟩ : ∃ f, fuel = f + 1 := ⟨fuel - 1, by omega⟩
    rw [Nat.add_zero] at hrec
    have hlow := @posAt_recStartBit_le last old start total size n i (by omega) hstart
    have hhigh := @lt_posAt_recordOf last old start total size n h.sizePos
    have hbound := h.totalMapBits_lt (i := i) (by omega)
    rw [hrec] at hhigh ⊢
    apply Takes.current_bind
    rw [if_neg]
    · exact Takes.pure rfl rfl
    · rw [h.mapBits (by omega), u32Sub_eq hlow (by omega)]
      omega
  | succ steps ih =>
    intro fuel i s h hrec hcount hstart hfuel
    obtain ⟨fuel, rfl⟩ : ∃ f, fuel = f + 1 := ⟨fuel - 1, by omega⟩
    have hlow := @posAt_recStartBit_le last old start total size n i (by omega) hstart
    have hpast := @posAt_le_of_lt_recordOf last old start total size n i (by omega)
    have hbound := h.totalMapBits_lt hcount
    have hhigh := @lt_posAt_recordOf last old start total size n h.sizePos
    have hfile := h.inFile
    have hold := h.oldPos
    rw [show 2 * (steps + 1) = 1 + (1 + 2 * steps) by omega]
    apply Takes.current_bind
    rw [if_pos]
    · dsimp only
      rw [h.fLink (by omega), if_neg (by omega)]
      apply (takes_updateNode s).bind (fun _ _ => Eq.trans)
      rintro _ _ rfl -
      apply (takes_getNode _ (by dsimp only; omega)).bind (fun _ _ => Eq.trans)
      rintro _ _ rfl -
      rw [h.posAt_succ (by omega)]
      exact ih h (by omega) hcount hstart (by omega)
    · rw [h.mapBits (by omega), u32Sub_eq hlow (by omega)]
      omega

theorem Records.totalMapBits_range {btree : BTree} {count : ℕ}
    (h : Records btree last old start total size count) :
    ∀ {i : ℕ}, i ≤ count → btree.totalMapBits (List.range' old i) = i * size := by
  intro i
  induction i with
  | zero =>
    intro _
    rw [Nat.zero_mul]
    rfl
  | succ i ih =>
    intro hi
    have hone : btree.totalMapBits [old + i] = size := by
      rw [totalMapBits_cons, h.bits i hi]
      rfl
    rw [List.range'_concat, totalMapBits_append, ih (by omega), Nat.one_mul, hone, Nat.succ_mul]

theorem Records.split {btree : BTree} {count i : ℕ} {front : List ℕ}
    (h : Records btree last old start total size count) (hfront : btree.totalMapBits front = start)
    (hi : i ≤ count) : ∃ pre post,
      front ++ last :: List.range' old count =
        pre ++ (posAt last old start total size i).mapNode :: post ∧
      btree.totalMapBits pre = (posAt last old start total size i).recStartBit := by
  cases i with
  | zero => exact ⟨front, List.range' old count, rfl, hfront⟩
  | succ i =>
    refine ⟨front ++ last :: List.range' old i, List.range' (old + i + 1) (count - i - 1), ?_, ?_⟩
    · have hsplit : List.range' old count =
          List.range' old i ++ (old + i) :: List.range' (old + i + 1) (count - i - 1) := by
        have hparts := @List.range'_append_1 old i (count - i - 1 + 1)
        rw [show i + (count - i - 1 + 1) = count by omega, List.range'_succ] at hparts
        exact hparts.symm
      rw [hsplit]
      simp [posAt]
    · have hle := h.startLe
      rw [totalMapBits_append, totalMapBits_cons, hfront, h.lastBits,
        h.totalMapBits_range (by omega)]
      simp only [posAt]
      omega

/-- What marking changes: words of map records. -/
def SameMap (btree btree' : BTree) : Prop :=
  SameShape btree btree' ∧ btree'.freeNodes = btree.freeNodes

theorem SameMap.refl (btree : BTree) : SameMap btree btree := ⟨SameShape.refl btree, rfl⟩

theorem SameMap.trans {b b' b'' : BTree} (h : SameMap b b') (h' : SameMap b' b'') :
    SameMap b b'' := ⟨h.1.trans h'.1, h'.2.trans h.2⟩

theorem seekMapRecord_wraps {n count : ℕ} (hn : n < start) : ∀ {fuel i : ℕ} {s : Io BTree},
    Records s.st last old start total size count → i ≤ count → ∃ e s',
      (seekMapRecord n fuel (posAt last old start total size i)).run s = .error e s' ∧
        s'.st = s.st := by
  intro fuel
  induction fuel with
  | zero =>
    intro i s _ _
    exact ⟨.noResult, s, rfl, rfl⟩
  | succ fuel ih =>
    intro i s h hi
    have hbound := h.totalMapBits_lt hi
    have hbits := h.mapBits hi
    have hle : start ≤ (posAt last old start total size i).recStartBit := by
      cases i with
      | zero => exact le_refl _
      | succ i => exact h.startLe.trans (Nat.le_add_right total (i * size))
    have hlt : (posAt last old start total size i).recStartBit < 2 ^ 31 := by
      cases i with
      | zero => exact Nat.lt_of_le_of_lt h.startLe hbound
      | succ i =>
        simp only [posAt, Nat.succ_mul] at hbound ⊢
        omega
    have hpast : s.st.mapBits (posAt last old start total size i).mapNode ≤
        u32Sub n (posAt last old start total size i).recStartBit := by
      rw [hbits, u32Sub, Nat.mod_eq_of_lt (a := (posAt _ _ _ _ _ _).recStartBit) (by omega),
        Nat.mod_eq_of_lt (by omega)]
      omega
    rw [seekMapRecord, current_bind_apply, if_pos hpast]
    dsimp only
    rcases Nat.lt_or_eq_of_le hi with hi' | rfl
    · have hfile := h.inFile
      have hold := h.oldPos
      rw [h.fLink hi', if_neg (by omega)]
      rcases (takes_updateNode s).run_cases with ⟨_, t, hup, rfl, -⟩ | ⟨e, s', herr, hs'⟩
      · rw [bind_ok hup]
        rcases (takes_getNode (n := old + i) ⟨s.env, s.ops + 1, s.st⟩
          (by dsimp only; omega)).run_cases with ⟨_, t, hget, rfl, -⟩ | ⟨e, s', herr, hs'⟩
        · rw [bind_ok hget, h.posAt_succ hi']
          obtain ⟨e, s', hrun, hs'⟩ := ih (s := ⟨s.env, s.ops + 1 + 1, s.st⟩) h hi'
          exact ⟨e, s', hrun, hs'⟩
        · exact ⟨e, s', bind_error herr, hs'.symm⟩
      · exact ⟨e, s', bind_error herr, hs'.symm⟩
    · rw [h.ends]
      exact ⟨.fsBTNoMoreMapNodesErr, s, rfl, rfl⟩

theorem Records.mark {btree : BTree} {count n : ℕ} {front : List ℕ}
    (h : Records btree last old start total size count) (hfront : btree.totalMapBits front = start)
    (hnodup : (front ++ last :: List.range' old count).Nodup) (hstart : start ≤ n)
    (hcount : recordOf total size n ≤ count) :
    let pos := posAt last old start total size (recordOf total size n)
    let bitInRecord := u32Sub n pos.recStartBit
    MapMarked btree (btree.setWord pos.mapNode (bitInRecord / 16)
      ((btree.node pos.mapNode).mapRecord.getD (bitInRecord / 16) 0 |||
        1#16 <<< (15 - bitInRecord % 16))) (front ++ last :: List.range' old count) n 1 true := by
  intro pos bitInRecord
  have hlow := @posAt_recStartBit_le last old start total size n _ (le_refl _) hstart
  have hhigh := @lt_posAt_recordOf last old start total size n h.sizePos
  have hbound := h.totalMapBits_lt hcount
  have hbits := h.mapBits hcount
  obtain ⟨pre, post, hchain, hpre⟩ := h.split hfront hcount
  have hrel : bitInRecord = n - btree.totalMapBits pre := by
    rw [hpre]
    exact u32Sub_eq hlow (by omega)
  have hlow' : btree.totalMapBits pre ≤ n := hpre ▸ hlow
  have hhigh' : n < btree.totalMapBits pre + btree.mapBits pos.mapNode := by
    rw [hbits, hpre]
    omega
  rw [hrel, word_of_bit hchain hlow' hhigh', mask_of_bit hlow']
  exact mapMarked_setWord hchain hnodup hlow' hhigh' (marked_or _ (by omega) n)

theorem takes_markMapNode {fuel count more n i c : ℕ} {front : List ℕ} {s : Io BTree}
    {Q : Unit → BTree → Prop} (h : Records s.st last old start total size count)
    (hfront : s.st.totalMapBits front = start)
    (hnodup : (front ++ last :: List.range' old count).Nodup) (hstart : start ≤ n)
    (hi : i ≤ recordOf total size n) (hcount : recordOf total size n ≤ count)
    (hfuel : count < fuel)
    (hmore : ∀ t ops, SameMap s.st t →
      MapMarked s.st t (front ++ last :: List.range' old count) n 1 true →
      Takes SameMap (markMapNodes fuel more (n + 1)
        (posAt last old start total size (recordOf total size n))) ⟨s.env, ops, t⟩ c Q) :
    Takes SameMap (markMapNodes fuel (more + 1) n (posAt last old start total size i)) s
      (2 * (recordOf total size n - i) + c) Q := by
  have hhigh := @lt_posAt_recordOf last old start total size n h.sizePos
  have hbound := h.totalMapBits_lt hcount
  have hseek := takes_seekMapRecord h (show recordOf total size n =
    i + (recordOf total size n - i) by omega) hcount hstart (show _ < fuel by omega)
  have hmark := h.mark hfront hnodup hstart hcount
  have hseek' : Takes SameMap (seekMapRecord n fuel (posAt last old start total size i)) s
      (2 * (recordOf total size n - i)) (fun pos t =>
        pos = posAt last old start total size (recordOf total size n) ∧ t = s.st) := by
    apply hseek.conseq
    · rintro _ rfl
      exact SameMap.refl _
    · rintro _ _ rfl rfl
      exact ⟨rfl, rfl⟩
  rw [markMapNodes, u32_eq (by omega)]
  apply hseek'.bind (fun _ _ => SameMap.trans)
  rintro pos _ - ⟨rfl, rfl⟩
  have hsame : SameMap s.st _ := ⟨hmark.shape, setWord_freeNodes _ _ _ _⟩
  apply Takes.update_bind (hmore _ _ hsame hmark)
  intro t ht
  exact hsame.trans ht

theorem takes_markMapNodes {fuel count more : ℕ} {front : List ℕ} :
    ∀ {n i : ℕ} {s : Io BTree}, Records s.st last old start total size count →
    s.st.totalMapBits front = start → (front ++ last :: List.range' old count).Nodup →
    start ≤ n → i ≤ recordOf total size n → recordOf total size (n + more) ≤ count →
    count < fuel →
    Takes SameMap (markMapNodes fuel (more + 1) n (posAt last old start total size i)) s
      (2 * (recordOf total size (n + more) - i)) (fun _ t =>
        MapMarked s.st t (front ++ last :: List.range' old count) n (more + 1) true) := by
  induction more with
  | zero =>
    intro n i s h hfront hnodup hstart hi hcount hfuel
    apply takes_markMapNode (c := 0) h hfront hnodup hstart hi hcount hfuel
    intro t ops _ hmark
    exact Takes.pure (SameMap.refl t) hmark
  | succ more ih =>
    intro n i s h hfront hnodup hstart hi hcount hfuel
    have hmono := @recordOf_mono total size n (n + (more + 1)) (by omega)
    have hmono' := @recordOf_mono total size n (n + 1) (by omega)
    rw [show 2 * (recordOf total size (n + (more + 1)) - i) =
      2 * (recordOf total size n - i) +
        2 * (recordOf total size (n + 1 + more) - recordOf total size n) by
          rw [show n + 1 + more = n + (more + 1) by omega]; omega]
    apply takes_markMapNode h hfront hnodup hstart hi (by omega) hfuel
    intro t ops hsame hmark
    apply (ih (s := ⟨s.env, ops, t⟩) (h.of_same hsame.1) ((hsame.1.totalMapBits front).trans hfront)
      hnodup (by omega) hmono' (by rw [show n + 1 + more = n + (more + 1) by omega]; exact hcount)
      hfuel).conseq (fun _ h => h)
    intro _ u _ hrest
    refine ⟨hmark.shape.trans hrest.shape, ?_, ?_⟩
    · rw [show more + 1 + 1 = 1 + (more + 1) by omega]
      exact hmark.marked.append hrest.marked
    · intro m hm
      exact (hrest.others m hm).trans (hmark.others m hm)

end Marking

/-! ## The tree with its new map nodes -/

/-- The number of bits of a new map record. -/
def recordBits (nodeSize : ℕ) : ℕ := 16 * ((nodeSize - 20) / 2)

/-- The tree after the new map nodes were linked, before they are marked. -/
def BTree.grown (btree : BTree) (last newTotalNodes count : ℕ) : BTree :=
  ({ btree with totalNodes := newTotalNodes }.setFLink last btree.totalNodes).withMapNodes
    btree.totalNodes count

theorem newMapNodes_bounds {nodeSize new total : ℕ} (hsize : 512 ≤ nodeSize)
    (heven : nodeSize % 2 = 0) (hlt : total < new) :
    (newMapNodes nodeSize new total - 1) * recordBits nodeSize ≤ new - total ∧
      new - total < newMapNodes nodeSize new total * recordBits nodeSize ∧
      newMapNodes nodeSize new total ≤ new - total := by
  have hrec : recordBits nodeSize = 8 * (nodeSize - 20) := by
    rw [recordBits]
    omega
  have hpos : 2 ≤ recordBits nodeSize := by omega
  rw [newMapNodes, Nat.div_div_eq_div_mul, ← hrec, Nat.add_sub_cancel]
  refine ⟨Nat.div_mul_le_self _ _, ?_, ?_⟩
  · rw [Nat.succ_mul]
    exact Nat.lt_div_mul_add (by omega)
  · have : (new - total) / recordBits nodeSize < new - total :=
      Nat.div_lt_self (by omega) (by omega)
    omega

section Grown
variable {btree : BTree} {front : List ℕ} {last new : ℕ}

theorem grown_node_old {n count : ℕ} (hn : n < btree.totalNodes) :
    (btree.grown last new count).node n =
      if n = last then { btree.node last with fLink := btree.totalNodes } else btree.node n := by
  simp only [BTree.grown, BTree.withMapNodes, BTree.setFLink, BTree.setNode]
  rw [if_neg (by omega)]
  split_ifs with h
  · rw [h, update_self]
  · rw [update_of_ne h]

theorem grown_node_new {i count : ℕ} (hi : i < count) :
    (btree.grown last new count).node (btree.totalNodes + i) =
      ⟨.map, if i + 1 < count then btree.totalNodes + (i + 1) else 0,
        List.replicate ((btree.nodeSize - 20) / 2) 0⟩ := by
  simp only [BTree.grown, BTree.withMapNodes, BTree.setFLink, BTree.setNode]
  rw [if_pos (by omega)]
  by_cases h : i + 1 < count
  · rw [if_pos h, if_pos (by omega)]
    rfl
  · rw [if_neg h, if_neg (by omega)]

theorem grown_mapRecord_old {n count : ℕ} (hn : n < btree.totalNodes) :
    ((btree.grown last new count).node n).mapRecord = (btree.node n).mapRecord := by
  rw [grown_node_old hn]
  split_ifs with h
  · rw [h]
  · rfl

theorem grown_totalMapBits {ns : List ℕ} {count : ℕ} (h : ∀ n ∈ ns, n < btree.totalNodes) :
    (btree.grown last new count).totalMapBits ns = btree.totalMapBits ns := by
  rw [BTree.totalMapBits, BTree.totalMapBits,
    mapWords_congr (fun n hn => grown_mapRecord_old (h n hn))]

theorem records_grown (h : MapShape btree (front ++ [last]))
    (hnew : btree.totalMapBits (front ++ [last]) < new) (hmax : new < 2 ^ 23) :
    Records (btree.grown last new
        (newMapNodes btree.nodeSize new (btree.totalMapBits (front ++ [last]))))
      last btree.totalNodes (btree.totalMapBits front) (btree.totalMapBits (front ++ [last]))
      (recordBits btree.nodeSize)
      (newMapNodes btree.nodeSize new (btree.totalMapBits (front ++ [last]))) := by
  obtain ⟨hsize, hsize', heven⟩ := h.nodeSize
  obtain ⟨hlow, hhigh, hcount⟩ := newMapNodes_bounds hsize heven hnew
  have hcovers := h.covers
  have hlast := h.inFile last (by simp)
  have hsum : btree.totalMapBits (front ++ [last]) =
      btree.totalMapBits front + btree.mapBits last := by
    rw [totalMapBits_append, totalMapBits_cons]
    rfl
  have hpos : 0 < newMapNodes btree.nodeSize new (btree.totalMapBits (front ++ [last])) :=
    Nat.succ_pos _
  have hrec : recordBits btree.nodeSize < 2 ^ 19 := by
    rw [recordBits]
    omega
  generalize newMapNodes btree.nodeSize new (btree.totalMapBits (front ++ [last])) = count at *
  refine ⟨?_, by omega, ?_, by omega, ?_, ?_, ?_, ?_, ?_, ?_⟩
  · rw [recordBits]
    omega
  · obtain ⟨c, rfl⟩ : ∃ c, count = c + 1 := ⟨count - 1, by omega⟩
    rw [Nat.add_sub_cancel] at hlow
    rw [Nat.succ_mul]
    omega
  · change btree.totalNodes + count ≤ new
    omega
  · rw [BTree.mapBits, grown_mapRecord_old hlast, hsum, Nat.add_sub_cancel_left]
    rfl
  · intro i hi
    rw [BTree.mapBits, grown_node_new hi, length_replicate, recordBits]
  · intro _
    rw [grown_node_old hlast, if_pos rfl]
  · intro i hi
    rw [grown_node_new (by omega), if_pos hi]
  · obtain ⟨c, rfl⟩ : ∃ c, count = c + 1 := ⟨count - 1, by omega⟩
    rw [posAt, grown_node_new (by omega), if_neg (by omega)]

end Grown

/-! ## The nodes behind the new end of the file -/

section Adding
variable {s : Io BTree} {front : List ℕ} {last new : ℕ}

theorem takes_addMapNodes_fits (start : ℕ) (hfit : new ≤ s.st.totalMapBits (front ++ [last])) :
    Takes (fun _ t => t.totalNodes = new) (addMapNodes s.st.totalNodes new
        ⟨last, start, s.st.totalMapBits (front ++ [last])⟩) s 1
      (fun _ t => t = { s.st with
        totalNodes := new
        freeNodes := u32 (s.st.freeNodes + u32Sub new s.st.totalNodes) }) := by
  apply Takes.current_bind
  apply Takes.update_bind (F := SameTotal)
  · rw [if_neg (by dsimp only; omega)]
    change Takes SameTotal _ _ (1 + 0) _
    have hrel := Takes.operation (e := OSStatus.agentErr) (F := SameTotal)
      (Q := fun _ t => t = { s.st with totalNodes := new })
      (s := ⟨s.env, s.ops, { s.st with totalNodes := new }⟩) rfl rfl
    apply hrel.bind (fun _ _ => SameTotal.trans)
    rintro _ _ - rfl
    exact Takes.update rfl rfl
  · exact fun _ h => h

theorem addMapNodes_fits_error (start : ℕ) (hfit : new ≤ s.st.totalMapBits (front ++ [last]))
    {e : OSStatus} {s' : Io BTree} (herr : (addMapNodes s.st.totalNodes new
      ⟨last, start, s.st.totalMapBits (front ++ [last])⟩).run s = .error e s') :
    s'.st = { s.st with totalNodes := new } := by
  rw [addMapNodes, current_bind_apply, update_bind_apply, if_neg (by dsimp only; omega)] at herr
  rcases (takes_releaseNode ⟨s.env, s.ops, { s.st with totalNodes := new }⟩).run_cases with
    ⟨_, t, hok, -, -⟩ | ⟨e', s'', herr', hst⟩
  · rw [bind_ok hok] at herr
    cases herr
  · rw [bind_error herr'] at herr
    cases herr
    exact hst.symm

theorem MapShape.nodup_grown {btree : BTree} (h : MapShape btree (front ++ [last])) (count : ℕ) :
    (front ++ last :: List.range' btree.totalNodes count).Nodup := by
  rw [show front ++ last :: List.range' btree.totalNodes count =
    (front ++ [last]) ++ List.range' btree.totalNodes count by simp]
  apply nodup_append.mpr
  refine ⟨h.nodup, nodup_range', ?_⟩
  intro n hn m hm
  have := h.inFile n hn
  have := (mem_range'_1.mp hm).1
  omega

/-- The number of operations behind the new end of the file. -/
def extendOps (btree : BTree) (chain : List ℕ) (newTotalNodes : ℕ) : ℕ :=
  let count := newMapNodes btree.nodeSize newTotalNodes (btree.totalMapBits chain)
  if newTotalNodes ≤ btree.totalMapBits chain then 1
  else 2 * count + (2 * recordOf (btree.totalMapBits chain) (recordBits btree.nodeSize)
    (btree.totalNodes + (count - 1)) + 1)

theorem takes_addMapNodes_links (h : MapShape s.st (front ++ [last]))
    (hnew : s.st.totalMapBits (front ++ [last]) < new) (hmax : new < 2 ^ 23)
    (hstart : s.st.totalMapBits front ≤ s.st.totalNodes) :
    let count := newMapNodes s.st.nodeSize new (s.st.totalMapBits (front ++ [last]))
    Takes (fun _ t => t.totalNodes = new) (addMapNodes s.st.totalNodes new
        ⟨last, s.st.totalMapBits front, s.st.totalMapBits (front ++ [last])⟩) s
      (extendOps s.st (front ++ [last]) new)
      (fun _ t => ∃ t', MapMarked (s.st.grown last new count) t'
          (front ++ last :: List.range' s.st.totalNodes count) s.st.totalNodes count true ∧
        t = { t' with
          freeNodes := u32 (s.st.freeNodes + u32Sub (u32Sub new s.st.totalNodes) count) }) := by
  intro count
  have hrecords := records_grown h hnew hmax
  have hcovers := h.covers
  have hfile := hrecords.inFile
  have hpos : 0 < count := Nat.succ_pos _
  change s.st.totalNodes + count ≤ new at hfile
  have hrecord : recordOf (s.st.totalMapBits (front ++ [last])) (recordBits s.st.nodeSize)
      (s.st.totalNodes + (count - 1)) ≤ count := by
    rw [recordOf]
    split_ifs
    · omega
    · have := Nat.div_le_self (s.st.totalNodes + (count - 1) - s.st.totalMapBits (front ++ [last]))
        (recordBits s.st.nodeSize)
      omega
  have hfront : (s.st.grown last new count).totalMapBits front = s.st.totalMapBits front :=
    grown_totalMapBits (fun n hn => h.inFile n (by simp [hn]))
  rw [extendOps, if_neg (by omega)]
  apply Takes.current_bind
  apply Takes.update_bind (F := SameTotal)
  · rw [if_pos hnew]
    apply Takes.update_bind (F := SameTotal)
    · have hinit := @takes_initMapNodes (count - 1) s.st.totalNodes ⟨s.env, s.ops,
        BTree.setFLink { s.st with totalNodes := new } last s.st.totalNodes⟩ (by omega)
      rw [show count - 1 + 1 = count by omega] at hinit
      apply hinit.bind (fun _ _ => SameTotal.trans)
      rintro _ _ - rfl
      have hmark := @takes_markMapNodes last s.st.totalNodes _ _ _ (new + 1) count (count - 1)
        front s.st.totalNodes 0 ⟨s.env, s.ops + 2 * count, s.st.grown last new count⟩ hrecords
        hfront (h.nodup_grown count) hstart (Nat.zero_le _) hrecord (by omega)
      rw [show count - 1 + 1 = count by omega, Nat.sub_zero] at hmark
      have hweak : ∀ t, SameMap (s.st.grown last new count) t →
          SameTotal (s.st.grown last new count) t := fun t ht => ht.1.totalNodes
      apply Takes.bind (hmark.conseq hweak (fun _ t hs hm => And.intro hs hm))
        (fun _ _ => SameTotal.trans)
      rintro _ t - ⟨hs, hm⟩
      have hup := Takes.operation (e := OSStatus.agentErr) (F := SameTotal)
        (Q := fun _ u => u = t) (s := ⟨s.env, s.ops + 2 * count + 2 * recordOf
          (s.st.totalMapBits (front ++ [last])) (recordBits s.st.nodeSize)
          (s.st.totalNodes + (count - 1)), t⟩) rfl rfl
      change Takes SameTotal _ _ (1 + 0) _
      apply hup.bind (fun _ _ => SameTotal.trans)
      rintro _ u - rfl
      apply Takes.update rfl
      refine ⟨u, hm, ?_⟩
      rw [show u.freeNodes = s.st.freeNodes from hs.2]
    · exact fun _ h => h
  · exact fun _ h => h

/-- A file that ends before the last map record is never extended: the walk to the record of
the first new map node finds none. -/
theorem addMapNodes_wraps (h : MapShape s.st (front ++ [last]))
    (hnew : s.st.totalMapBits (front ++ [last]) < new) (hmax : new < 2 ^ 23)
    (hstart : s.st.totalNodes < s.st.totalMapBits front) : ∃ e s',
      (addMapNodes s.st.totalNodes new
        ⟨last, s.st.totalMapBits front, s.st.totalMapBits (front ++ [last])⟩).run s = .error e s' ∧
      s'.st.totalNodes = new := by
  have hrecords := records_grown h hnew hmax
  have hfile := hrecords.inFile
  generalize hcount : newMapNodes s.st.nodeSize new (s.st.totalMapBits (front ++ [last])) = count
    at hrecords hfile
  have hpos : 0 < count := hcount ▸ Nat.succ_pos _
  change s.st.totalNodes + count ≤ new at hfile
  have hinit := @takes_initMapNodes (count - 1) s.st.totalNodes ⟨s.env, s.ops,
    BTree.setFLink { s.st with totalNodes := new } last s.st.totalNodes⟩ (by omega)
  rw [show count - 1 + 1 = count by omega] at hinit
  rw [addMapNodes, current_bind_apply, update_bind_apply, if_pos hnew]
  dsimp only
  rw [hcount, update_bind_apply]
  rcases hinit.run_cases with ⟨_, t, hok, -, rfl⟩ | ⟨e, s', herr, hs'⟩
  · obtain ⟨c, rfl⟩ : ∃ c, count = c + 1 := ⟨count - 1, by omega⟩
    obtain ⟨e, s', hseek, hs'⟩ := @seekMapRecord_wraps last s.st.totalNodes _ _ _ _ (c + 1) hstart
      (new + 1) 0 ⟨s.env, s.ops + 2 * (c + 1), s.st.grown last new (c + 1)⟩ hrecords (Nat.zero_le _)
    refine ⟨e, s', ?_, ?_⟩
    · rw [bind_ok hok, markMapNodes]
      exact bind_error (bind_error hseek)
    · rw [hs']
      rfl
  · exact ⟨e, s', bind_error herr, hs'⟩

end Adding

/-! ## The whole routine -/

/-- The end of the file after the agent was asked for `newTotalNodes` nodes, if it was not
asked or has succeeded. -/
def agentEOF (setEndOfForkProc : ℕ → ℕ → ℕ × Bool) (btree : BTree) (newTotalNodes : ℕ) :
    Option ℕ :=
  let minEOF := u32 (newTotalNodes * btree.nodeSize)
  if btree.fcbEOF < minEOF then
    if (setEndOfForkProc btree.fcbEOF minEOF).2 = true then
      some (u32 (setEndOfForkProc btree.fcbEOF minEOF).1)
    else none
  else some btree.fcbEOF

section Extending
variable {s : Io BTree} {chain front : List ℕ} {last newTotalNodes : ℕ}
  {setEndOfForkProc : ℕ → ℕ → ℕ × Bool}

theorem MapShape.eq_append {btree : BTree} (h : MapShape btree chain) :
    ∃ front last, chain = front ++ [last] := by
  rcases eq_nil_or_concat chain with rfl | ⟨front, last, rfl⟩
  · exact absurd h.links id
  · exact ⟨front, last, concat_eq_append⟩

theorem takes_countMapBits_chain (h : MapShape s.st (front ++ [last])) :
    Takes Eq (countMapBits (s.st.totalNodes + 1) none 0) s (1 + 2 * front.length)
      (fun pos _ => pos = ⟨last, s.st.totalMapBits front, s.st.totalMapBits (front ++ [last])⟩) := by
  have hlength := h.length_le
  have hbound := h.bounded
  rw [length_append, length_singleton] at hlength
  have hcount := takes_countMapBits h.walkable h.nodup (show _ < s.st.totalNodes + 1 by omega)
    (show 0 + _ < 2 ^ 32 by omega)
  simp only [Nat.zero_add] at hcount
  exact hcount

theorem extendBTree_count_fails (setEndOfForkProc : ℕ → ℕ → ℕ × Bool)
    (h : MapShape s.st (front ++ [last]))
    (hlt : s.st.totalNodes < newTotalNodes) (hs : ¬ s.Succeeds (1 + 2 * front.length)) :
    ∃ e s', (extendBTree setEndOfForkProc newTotalNodes).run s = .error e s' ∧ s'.st = s.st := by
  obtain ⟨e, s', herr, hst⟩ := (takes_countMapBits_chain h).error hs
  refine ⟨e, s', ?_, hst.symm⟩
  rw [extendBTree, current_bind_apply, if_neg (by omega)]
  exact bind_error herr

theorem extendBTree_counted (setEndOfForkProc : ℕ → ℕ → ℕ × Bool)
    (h : MapShape s.st (front ++ [last]))
    (hlt : s.st.totalNodes < newTotalNodes) (hs : s.Succeeds (1 + 2 * front.length)) :
    match agentEOF setEndOfForkProc s.st newTotalNodes with
    | none => ∃ e s' eof, (extendBTree setEndOfForkProc newTotalNodes).run s = .error e s' ∧
        s'.st = { s.st with fcbEOF := eof }
    | some eof => (extendBTree setEndOfForkProc newTotalNodes).run s =
        (addMapNodes s.st.totalNodes (eof / s.st.nodeSize)
          ⟨last, s.st.totalMapBits front, s.st.totalMapBits (front ++ [last])⟩).run
            ⟨s.env, s.ops + (1 + 2 * front.length), { s.st with fcbEOF := eof }⟩ := by
  obtain ⟨pos, _, hok, rfl, rfl⟩ := (takes_countMapBits_chain h).ok hs
  have hrun := fun f => @bind_ok _ _ _ Unit _ f _ _ _ hok
  rw [extendBTree, current_bind_apply, if_neg (by omega), hrun]
  rw [agentEOF]
  dsimp only
  by_cases heof : s.st.fcbEOF < u32 (newTotalNodes * s.st.nodeSize)
  · rw [if_pos heof, if_pos heof, update_bind_apply]
    by_cases hsuccess : (setEndOfForkProc s.st.fcbEOF (u32 (newTotalNodes * s.st.nodeSize))).2 = true
    · rw [if_pos hsuccess, if_pos hsuccess]
    · rw [if_neg hsuccess, if_neg hsuccess]
      exact ⟨_, _, _, rfl, rfl⟩
  · rw [if_neg heof, if_neg heof]

theorem agentEOF_lt {btree : BTree} (h : MapShape btree chain) {eof : ℕ}
    (heof : agentEOF setEndOfForkProc btree newTotalNodes = some eof) : eof < 2 ^ 32 := by
  rw [agentEOF] at heof
  split_ifs at heof
  · cases heof
    exact Nat.mod_lt _ (by omega)
  · cases heof
    exact h.fcbEOF

theorem MapShape.div_lt {btree : BTree} (h : MapShape btree chain) {eof : ℕ}
    (heof : eof < 2 ^ 32) : eof / btree.nodeSize < 2 ^ 23 := by
  have hsize := h.nodeSize.1
  apply Nat.div_lt_of_lt_mul
  calc eof < 512 * 2 ^ 23 := by omega
    _ ≤ btree.nodeSize * 2 ^ 23 := Nat.mul_le_mul_right _ hsize

theorem MapShape.setEOF {btree : BTree} (h : MapShape btree chain) {eof : ℕ}
    (heof : eof < 2 ^ 32) : MapShape { btree with fcbEOF := eof } chain :=
  { h with
    fcbEOF := heof
    links := (@links_congr btree { btree with fcbEOF := eof } (fun _ => rfl) chain).mpr h.links }

/-- An error leaves the counts of nodes and the chain of map nodes as they were. -/
def ExtendAtomic (setEndOfForkProc : ℕ → ℕ → ℕ × Bool) (newTotalNodes : ℕ) (s : Io BTree) :
    Prop :=
  ∀ e s', (extendBTree setEndOfForkProc newTotalNodes).run s = .error e s' →
    s'.st.totalNodes = s.st.totalNodes ∧ s'.st.freeNodes = s.st.freeNodes ∧
      ∀ ns, ns.head? = some 0 → (Links s'.st ns ↔ Links s.st ns)

/-- No operation fails behind the change of the number of nodes: there is nothing to do, an
operation fails while the map is counted, the agent fails, the file has as many nodes as
before, or everything succeeds and the last map record begins in the file. -/
def ExtendSafe (setEndOfForkProc : ℕ → ℕ → ℕ × Bool) (newTotalNodes : ℕ) (s : Io BTree)
    (chain : List ℕ) : Prop :=
  newTotalNodes ≤ s.st.totalNodes ∨ ¬ s.Succeeds (2 * chain.length - 1) ∨
    ∀ eof, agentEOF setEndOfForkProc s.st newTotalNodes = some eof →
      eof / s.st.nodeSize = s.st.totalNodes ∨
        s.Succeeds (2 * chain.length - 1 + extendOps s.st chain (eof / s.st.nodeSize)) ∧
          (eof / s.st.nodeSize ≤ s.st.totalMapBits chain ∨
            s.st.totalMapBits chain.dropLast ≤ s.st.totalNodes)

/-- The routine behind the new end of the file returns exactly when its operations succeed
and the last map record begins in the file. -/
theorem addMapNodes_returns_iff (h : MapShape s.st (front ++ [last])) {new : ℕ}
    (hmax : new < 2 ^ 23) :
    (∃ s', (addMapNodes s.st.totalNodes new
        ⟨last, s.st.totalMapBits front, s.st.totalMapBits (front ++ [last])⟩).run s = .ok () s') ↔
      s.Succeeds (extendOps s.st (front ++ [last]) new) ∧
        (new ≤ s.st.totalMapBits (front ++ [last]) ∨ s.st.totalMapBits front ≤ s.st.totalNodes) := by
  by_cases hfit : new ≤ s.st.totalMapBits (front ++ [last])
  · have hops : extendOps s.st (front ++ [last]) new = 1 := if_pos hfit
    have htakes := takes_addMapNodes_fits (s.st.totalMapBits front) hfit
    rw [hops]
    constructor
    · rintro ⟨s', hok⟩
      exact ⟨(htakes.of_ok hok).1, .inl hfit⟩
    · rintro ⟨hs, -⟩
      obtain ⟨_, _, hok, -, -⟩ := htakes.ok hs
      exact ⟨_, hok⟩
  · by_cases hstart : s.st.totalMapBits front ≤ s.st.totalNodes
    · have htakes := takes_addMapNodes_links h (Nat.lt_of_not_le hfit) hmax hstart
      constructor
      · rintro ⟨s', hok⟩
        exact ⟨(htakes.of_ok hok).1, .inr hstart⟩
      · rintro ⟨hs, -⟩
        obtain ⟨_, _, hok, -, -⟩ := htakes.ok hs
        exact ⟨_, hok⟩
    · obtain ⟨e, s'', herr, -⟩ := addMapNodes_wraps h (Nat.lt_of_not_le hfit) hmax
        (Nat.lt_of_not_le hstart)
      constructor
      · rintro ⟨s', hok⟩
        rw [herr] at hok
        cases hok
      · rintro ⟨-, hfit' | hstart'⟩
        · exact absurd hfit' hfit
        · exact absurd hstart' hstart

theorem addMapNodes_error (h : MapShape s.st (front ++ [last])) {new : ℕ} (hmax : new < 2 ^ 23)
    {e : OSStatus} {s' : Io BTree} (herr : (addMapNodes s.st.totalNodes new
      ⟨last, s.st.totalMapBits front, s.st.totalMapBits (front ++ [last])⟩).run s = .error e s') :
    s'.st.totalNodes = new := by
  by_cases hfit : new ≤ s.st.totalMapBits (front ++ [last])
  · rw [addMapNodes_fits_error _ hfit herr]
  · by_cases hstart : s.st.totalMapBits front ≤ s.st.totalNodes
    · exact ((takes_addMapNodes_links h (Nat.lt_of_not_le hfit) hmax hstart).of_error herr).2
    · obtain ⟨e', s'', herr', hs''⟩ := addMapNodes_wraps h (Nat.lt_of_not_le hfit) hmax
        (Nat.lt_of_not_le hstart)
      rw [herr] at herr'
      cases herr'
      exact hs''

/-- With a new end of the file, the routine is atomic if and only if the number of nodes stays
or all further operations succeed. -/
theorem extendBTree_atomic_eof (h : MapShape s.st (front ++ [last]))
    (hlt : s.st.totalNodes < newTotalNodes) (hs : s.Succeeds (1 + 2 * front.length)) {eof : ℕ}
    (heof : agentEOF setEndOfForkProc s.st newTotalNodes = some eof) :
    ExtendAtomic setEndOfForkProc newTotalNodes s ↔
      eof / s.st.nodeSize = s.st.totalNodes ∨
        s.Succeeds (1 + 2 * front.length +
            extendOps s.st (front ++ [last]) (eof / s.st.nodeSize)) ∧
          (eof / s.st.nodeSize ≤ s.st.totalMapBits (front ++ [last]) ∨
            s.st.totalMapBits front ≤ s.st.totalNodes) := by
  have hrun := extendBTree_counted setEndOfForkProc h hlt hs
  rw [heof] at hrun
  have hlt32 := agentEOF_lt h heof
  have hmax := h.div_lt hlt32
  let s₁ : Io BTree := ⟨s.env, s.ops + (1 + 2 * front.length), { s.st with fcbEOF := eof }⟩
  have hshape : MapShape s₁.st (front ++ [last]) := h.setEOF hlt32
  have hreturns := addMapNodes_returns_iff hshape hmax
  constructor
  · intro hatomic
    by_cases hsame : eof / s.st.nodeSize = s.st.totalNodes
    · exact .inl hsame
    · right
      cases hres : (extendBTree setEndOfForkProc newTotalNodes).run s with
      | ok a s' =>
        obtain ⟨hsucc, hstart⟩ := hreturns.mp ⟨s', hrun.symm.trans hres⟩
        exact ⟨(Io.succeeds_add _).mpr ⟨hs, hsucc⟩, hstart⟩
      | error e s' =>
        have htotal := addMapNodes_error hshape hmax (hrun.symm.trans hres)
        exact absurd (htotal.symm.trans (hatomic e s' hres).1) hsame
  · rintro hsafe e s' herr
    rcases hsafe with hsame | ⟨hsucc, hstart⟩
    · have hfit : eof / s.st.nodeSize ≤ s₁.st.totalMapBits (front ++ [last]) := hsame ▸ h.covers
      rw [addMapNodes_fits_error _ hfit (hrun.symm.trans herr)]
      exact ⟨hsame, rfl, fun ns _ => @links_congr s.st
        { s₁.st with totalNodes := eof / s.st.nodeSize } (fun _ => rfl) ns⟩
    · obtain ⟨s'', hok⟩ := hreturns.mpr ⟨((Io.succeeds_add _).mp hsucc).2, hstart⟩
      have hcontra := herr.symm.trans (hrun.trans hok)
      cases hcontra

/-- Extending a file is atomic exactly when no operation fails behind the change of the
number of nodes. -/
theorem extendBTree_atomic_iff (h : MapShape s.st chain) :
    ExtendAtomic setEndOfForkProc newTotalNodes s ↔
      ExtendSafe setEndOfForkProc newTotalNodes s chain := by
  obtain ⟨front, last, rfl⟩ := h.eq_append
  have hcost : 2 * (front ++ [last]).length - 1 = 1 + 2 * front.length := by
    rw [length_append, length_singleton]
    omega
  rw [ExtendSafe, hcost, dropLast_concat]
  by_cases hlt : s.st.totalNodes < newTotalNodes
  · by_cases hs : s.Succeeds (1 + 2 * front.length)
    · rw [or_iff_right (Nat.not_le.mpr hlt), or_iff_right (not_not.mpr hs)]
      cases heof : agentEOF setEndOfForkProc s.st newTotalNodes with
      | none =>
        have hrun := extendBTree_counted setEndOfForkProc h hlt hs
        rw [heof] at hrun
        obtain ⟨e, s', eof, herr, hst⟩ := hrun
        refine iff_of_true ?_ (by simp)
        intro e' s'' herr'
        rw [herr] at herr'
        cases herr'
        rw [hst]
        exact ⟨rfl, rfl, fun ns _ => @links_congr s.st { s.st with fcbEOF := eof } (fun _ => rfl) ns⟩
      | some eof =>
        rw [extendBTree_atomic_eof h hlt hs heof]
        constructor
        · intro hsafe eof' heof'
          obtain rfl : eof = eof' := Option.some.inj heof'
          exact hsafe
        · intro hsafe
          exact hsafe eof rfl
    · obtain ⟨e, s', herr, hst⟩ := extendBTree_count_fails setEndOfForkProc h hlt hs
      refine iff_of_true ?_ (.inr (.inl hs))
      intro e' s'' herr'
      rw [herr] at herr'
      cases herr'
      rw [hst]
      exact ⟨rfl, rfl, fun _ _ => Iff.rfl⟩
  · refine iff_of_true ?_ (.inl (Nat.le_of_not_lt hlt))
    intro e s' herr
    rw [extendBTree, current_bind_apply, if_pos (Nat.le_of_not_lt hlt)] at herr
    cases herr

/-- With reliable operations a file of two nodes is extended to three. -/
theorem extendBTree_atomic_iff_reliable : ExtendAtomic (fun _ minEOF => (minEOF, true)) 3
    ⟨fun _ => true, 0, headerTree 2 0 0xC000⟩ :=
  (extendBTree_atomic_iff (mapShape_headerTree 0 0xC000 (by decide) (by decide))).mpr
    (.inr (.inr fun _ _ => .inr ⟨fun _ _ => rfl, .inr (Nat.zero_le _)⟩))

set_option maxRecDepth 4000 in
/-- The first new map node cannot be fetched: the file has 3000 nodes according to the control
block, and the chain of map nodes goes on to a node that is none. -/
theorem failed_new_map_node_changes_totalNodes : MapShape (headerTree 2 0 0xC000) [0] ∧
    ¬ ExtendAtomic (fun _ minEOF => (minEOF, true)) 3000
      ⟨fun i => decide (i ≠ 1), 0, headerTree 2 0 0xC000⟩ := by
  refine ⟨mapShape_headerTree 0 0xC000 (by decide) (by decide), ?_⟩
  intro hatomic
  have htotal := (hatomic .agentErr _ rfl).1
  exact absurd htotal (by decide)

end Extending

end Darwin.Hfs.BTreeAllocate
