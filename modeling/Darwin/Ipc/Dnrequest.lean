import Darwin.Ipc.Entry

/-! # Tables of dead-name requests

A port keeps the dead-name requests for its rights in a table. Element 0 is the head of the
list of free elements; an element is free when its name is null.
-/
namespace Darwin.Ipc
open Darwin.Lib Function List

/-- An element of the table. `notify` is a union: the send-once right of a request, or the index
of the next free element. -/
structure PortRequest where
  iprName : MachPort
  notify : ℕ
  deriving DecidableEq, Repr

/-- A table in memory. `iprSize` is the number of its size. -/
structure RequestTable where
  address : ℕ
  iprSize : ℕ
  elements : List PortRequest
  deriving DecidableEq, Repr

/-- `ipc_table_dnrequests` as `ipc_table_init` makes it, for pages of 4096 bytes: 63 sizes for
requests of 8 bytes, and zero behind them. -/
def ipcTableDnrequests (its : ℕ) : ℕ := (ipcTableFill 63 2 8 4096).getD its 0

theorem ipcTableFill_dnrequests : (ipcTableFill 63 2 8 4096).length = 63 ∧
    (1 :: ipcTableFill 63 2 8 4096).IsChain (· < ·) := by
  decide +kernel

theorem ipcTableDnrequests_lt {its : ℕ} (h : ipcTableDnrequests (its + 1) ≠ 0) :
    ipcTableDnrequests its < ipcTableDnrequests (its + 1) := by
  obtain ⟨-, hchain⟩ := ipcTableFill_dnrequests
  have hlt : its + 1 < (ipcTableFill 63 2 8 4096).length := by
    by_contra hge
    exact h (getD_eq_default _ _ (by omega))
  rw [ipcTableDnrequests, ipcTableDnrequests, getD_eq_getElem _ _ (by omega),
    getD_eq_getElem _ _ hlt]
  exact isChain_iff_getElem.mp hchain.tail its (by simpa using hlt)

theorem one_lt_ipcTableDnrequests {its : ℕ} (h : ipcTableDnrequests its ≠ 0) :
    1 < ipcTableDnrequests its := by
  have hlt : its < (ipcTableFill 63 2 8 4096).length := by
    by_contra hge
    exact h (getD_eq_default _ _ (by omega))
  have hall := (pairwise_cons.mp (isChain_iff_pairwise.mp ipcTableFill_dnrequests.2)).1
  rw [ipcTableDnrequests, getD_eq_getElem _ _ hlt]
  exact hall _ (getElem_mem hlt)

namespace RequestTable

def request (t : RequestTable) (i : ℕ) : PortRequest := t.elements.getD i ⟨machPortSmallest, 0⟩

def put (t : RequestTable) (i : ℕ) (r : PortRequest) : RequestTable :=
  { t with elements := t.elements.set i r }

/-- `table->ipr_next`. -/
def iprNext (t : RequestTable) : ℕ := (t.request 0).notify

def setNext (t : RequestTable) (next : ℕ) : RequestTable :=
  t.put 0 { t.request 0 with notify := next }

/-- The first free element becomes a request. -/
def take (t : RequestTable) (name : MachPort) (soright : ℕ) : RequestTable :=
  (t.setNext (t.request t.iprNext).notify).put t.iprNext ⟨name, soright⟩

/-- The element goes back to the free list. -/
def giveBack (t : RequestTable) (index : ℕ) : RequestTable :=
  (t.put index ⟨machPortSmallest, t.iprNext⟩).setNext index

def rename (t : RequestTable) (index : ℕ) (nname : MachPort) : RequestTable :=
  t.put index { t.request index with iprName := nname }

/-- A new element behind the others, and the first one of the free list. -/
def addElement (t : RequestTable) : RequestTable :=
  setNext { t with elements := t.elements ++ [⟨machPortSmallest, t.iprNext⟩] } t.elements.length

/-- The old table in new memory; without one, only the head of the free list. -/
def copied (otable : Option RequestTable) (address its : ℕ) : RequestTable :=
  match otable with
  | none => ⟨address, its, [⟨machPortSmallest, 0⟩]⟩
  | some t => ⟨address, its, t.elements⟩

/-- The table of the size `its`: the loop adds the elements that the old one does not have. -/
def grown (otable : Option RequestTable) (address its : ℕ) : RequestTable :=
  let ntable := copied otable address its
  addElement^[ipcTableDnrequests its - ntable.elements.length] ntable

def IsFree (t : RequestTable) (i : ℕ) : Prop :=
  0 < i ∧ i < t.elements.length ∧ (t.request i).iprName = machPortSmallest

/-- Element `i` is a request. -/
def Holds (t : RequestTable) (i : ℕ) (name : MachPort) (soright : ℕ) : Prop :=
  0 < i ∧ i < t.elements.length ∧ name ≠ machPortSmallest ∧ t.request i = ⟨name, soright⟩

abbrev FreeList (t : RequestTable) : List ℕ → Prop :=
  IndexList.FreeList (fun i => (t.request i).notify) t.IsFree

structure Ok (t : RequestTable) : Prop where
  size : t.elements.length = ipcTableDnrequests t.iprSize
  pos : 0 < t.elements.length
  free : ∃ fl, t.FreeList fl

section change
variable {t : RequestTable} {i j next : ℕ} {r : PortRequest} {name n : MachPort} {soright so : ℕ}

@[simp] theorem put_length : (t.put i r).elements.length = t.elements.length := by simp [put]

@[simp] theorem put_iprSize : (t.put i r).iprSize = t.iprSize := rfl

theorem put_request (hi : i < t.elements.length) :
    (t.put i r).request = update t.request i r := by
  funext j
  by_cases hj : j = i
  · subst hj
    simp [request, put, getD_eq_getElem?_getD, hi]
  · rw [update_of_ne hj]
    simp [request, put, getD_eq_getElem?_getD, List.getElem?_set_ne (Ne.symm hj)]

theorem put_notify (hi : i < t.elements.length) : (fun j => ((t.put i r).request j).notify) =
    update (fun j => (t.request j).notify) i r.notify := by
  funext j
  rw [put_request hi]
  by_cases hj : j = i
  · simp [hj]
  · simp [hj]

theorem isFree_put (hi : i < t.elements.length) (h0 : 0 < i) : (t.put i r).IsFree j ↔
    (j = i ∧ r.iprName = machPortSmallest) ∨ (j ≠ i ∧ t.IsFree j) := by
  by_cases hj : j = i
  · simp [IsFree, put_request hi, hj, hi, h0]
  · simp [IsFree, put_request hi, hj]

theorem holds_put (hi : i < t.elements.length) (h0 : 0 < i) : (t.put i r).Holds j n so ↔
    (j = i ∧ n ≠ machPortSmallest ∧ r = ⟨n, so⟩) ∨ (j ≠ i ∧ t.Holds j n so) := by
  by_cases hj : j = i
  · simp [Holds, put_request hi, hj, hi, h0]
  · simp [Holds, put_request hi, hj]

@[simp] theorem setNext_length : (t.setNext next).elements.length = t.elements.length := put_length

@[simp] theorem setNext_iprSize : (t.setNext next).iprSize = t.iprSize := rfl

theorem setNext_notify (hpos : 0 < t.elements.length) :
    (fun j => ((t.setNext next).request j).notify) =
      update (fun j => (t.request j).notify) 0 next := put_notify hpos

theorem setNext_request (hpos : 0 < t.elements.length) (h0 : 0 < i) :
    (t.setNext next).request i = t.request i := by
  rw [setNext, put_request hpos, update_of_ne (by omega)]

theorem isFree_setNext (hpos : 0 < t.elements.length) : (t.setNext next).IsFree i ↔ t.IsFree i := by
  refine and_congr_right fun h0 => ?_
  rw [setNext_request hpos h0, setNext_length]

theorem holds_setNext (hpos : 0 < t.elements.length) :
    (t.setNext next).Holds i n so ↔ t.Holds i n so := by
  refine and_congr_right fun h0 => ?_
  rw [setNext_request hpos h0, setNext_length]

theorem Holds.not_isFree (h : t.Holds i n so) : ¬ t.IsFree i := by
  rintro ⟨-, -, hname⟩
  obtain ⟨-, -, hne, hr⟩ := h
  rw [hr] at hname
  exact hne hname

theorem Ok.isFree_iprNext (h : t.Ok) (hne : t.iprNext ≠ 0) : t.IsFree t.iprNext := by
  obtain ⟨fl, hfl⟩ := h.free
  obtain ⟨rest, hrest⟩ := hfl.eq_cons hne
  apply (hfl.mem _).mp
  rw [hrest]
  exact mem_cons_self

theorem Ok.take (h : t.Ok) (hne : t.iprNext ≠ 0) (hname : name ≠ machPortSmallest) :
    (t.take name soright).Ok := by
  obtain ⟨fl, hfl⟩ := h.free
  obtain ⟨rest, rfl⟩ := hfl.eq_cons hne
  obtain ⟨h0, hlt, -⟩ := h.isFree_iprNext hne
  have hlt' : t.iprNext < (t.setNext (t.request t.iprNext).notify).elements.length := by
    simpa using hlt
  refine ⟨by simpa [RequestTable.take] using h.size, by simpa [RequestTable.take] using h.pos,
    rest, ?_⟩
  rw [FreeList, RequestTable.take, put_notify hlt', setNext_notify h.pos]
  apply hfl.pop
  intro i
  rw [isFree_put hlt' h0, isFree_setNext h.pos]
  simp [hname, and_comm, iprNext]

theorem Ok.holds_take (h : t.Ok) (hne : t.iprNext ≠ 0) (hname : name ≠ machPortSmallest) :
    (t.take name soright).Holds i n so ↔
      (i = t.iprNext ∧ n = name ∧ so = soright) ∨ t.Holds i n so := by
  have hfree := h.isFree_iprNext hne
  rw [RequestTable.take, holds_put (by simpa using hfree.2.1) hfree.1, holds_setNext h.pos]
  constructor
  · rintro (⟨rfl, -, hr⟩ | ⟨-, hold⟩)
    · cases hr
      exact .inl ⟨rfl, rfl, rfl⟩
    · exact .inr hold
  · rintro (⟨rfl, rfl, rfl⟩ | hold)
    · exact .inl ⟨rfl, hname, rfl⟩
    · exact .inr ⟨fun heq => (heq ▸ hold).not_isFree hfree, hold⟩

theorem Ok.giveBack (h : t.Ok) (hi : t.Holds i n so) : (t.giveBack i).Ok := by
  obtain ⟨fl, hfl⟩ := h.free
  have hused := hi.not_isFree
  obtain ⟨h0, hlt, -⟩ := hi
  have hpos : 0 < (t.put i ⟨machPortSmallest, t.iprNext⟩).elements.length := by
    simpa using h.pos
  refine ⟨by simpa [RequestTable.giveBack] using h.size,
    by simpa [RequestTable.giveBack] using h.pos, i :: fl, ?_⟩
  rw [FreeList, RequestTable.giveBack, setNext_notify hpos, put_notify hlt]
  apply hfl.push (by omega) hused
  intro j
  rw [isFree_setNext hpos, isFree_put hlt h0]
  by_cases hj : j = i
  · simp [hj]
  · simp [hj]

theorem Ok.holds_giveBack (h : t.Ok) (hi : t.Holds i n so) {n' : MachPort} {so' : ℕ} :
    (t.giveBack i).Holds j n' so' ↔ j ≠ i ∧ t.Holds j n' so' := by
  obtain ⟨h0, hlt, -⟩ := hi
  have hpos : 0 < (t.put i ⟨machPortSmallest, t.iprNext⟩).elements.length := by
    simpa using h.pos
  rw [RequestTable.giveBack, holds_setNext hpos, holds_put hlt h0]
  constructor
  · rintro (⟨rfl, hne, hr⟩ | hold)
    · cases hr
      exact absurd rfl hne
    · exact hold
  · exact .inr

theorem Ok.rename (h : t.Ok) (hi : t.Holds i n so) (hname : name ≠ machPortSmallest) :
    (t.rename i name).Ok := by
  obtain ⟨fl, hfl⟩ := h.free
  have hused := hi.not_isFree
  obtain ⟨h0, hlt, -⟩ := hi
  refine ⟨by simpa [RequestTable.rename] using h.size, by simpa [RequestTable.rename] using h.pos,
    fl, ?_⟩
  rw [FreeList, RequestTable.rename, put_notify hlt, update_eq_self]
  refine hfl.congr rfl (fun _ _ => rfl) ?_
  intro j
  rw [isFree_put hlt h0]
  by_cases hj : j = i
  · simp [hj, hname, hused]
  · simp [hj]

theorem holds_rename (hi : t.Holds i n so) (hname : name ≠ machPortSmallest) {n' : MachPort}
    {so' : ℕ} : (t.rename i name).Holds j n' so' ↔
      (j = i ∧ n' = name ∧ so' = so) ∨ (j ≠ i ∧ t.Holds j n' so') := by
  obtain ⟨h0, hlt, -, hr⟩ := hi
  rw [RequestTable.rename, holds_put hlt h0, hr]
  constructor
  · rintro (⟨rfl, -, hr⟩ | hold)
    · cases hr
      exact .inl ⟨rfl, rfl, rfl⟩
    · exact .inr hold
  · rintro (⟨rfl, rfl, rfl⟩ | hold)
    · exact .inl ⟨rfl, hname, rfl⟩
    · exact .inr hold

@[simp] theorem addElement_length : t.addElement.elements.length = t.elements.length + 1 := by
  simp [addElement]

@[simp] theorem addElement_iprSize : t.addElement.iprSize = t.iprSize := rfl

theorem addElement_request (hpos : 0 < t.elements.length) : t.addElement.request =
    update (update t.request t.elements.length ⟨machPortSmallest, t.iprNext⟩) 0
      { t.request 0 with notify := t.elements.length } := by
  have hsnoc : RequestTable.request
      ⟨t.address, t.iprSize, t.elements ++ [⟨machPortSmallest, t.iprNext⟩]⟩ =
        update t.request t.elements.length ⟨machPortSmallest, t.iprNext⟩ := by
    funext j
    rcases lt_trichotomy j t.elements.length with hj | rfl | hj
    · rw [update_of_ne (by omega), request, request, getD_append _ _ _ _ hj]
    · simp [request, getD_eq_getElem?_getD]
    · rw [update_of_ne (by omega), request, request,
        getD_eq_default t.elements _ (by omega),
        getD_eq_default _ _ (by simp only [length_append, length_singleton]; omega)]
  rw [addElement, setNext, put_request (by simp only [length_append]; omega), hsnoc,
    update_of_ne (by omega)]

theorem isFree_addElement (hpos : 0 < t.elements.length) :
    t.addElement.IsFree i ↔ i = t.elements.length ∨ t.IsFree i := by
  rw [IsFree, IsFree, addElement_request hpos, addElement_length]
  by_cases h0 : i = 0
  · subst h0
    simp
    omega
  · rw [update_of_ne h0]
    by_cases hi : i = t.elements.length
    · simp [hi, hpos]
    · rw [update_of_ne hi]
      simp only [hi, false_or, show i < t.elements.length + 1 ↔ i < t.elements.length by omega]

theorem holds_addElement (hpos : 0 < t.elements.length) :
    t.addElement.Holds i n so ↔ t.Holds i n so := by
  rw [Holds, Holds, addElement_request hpos, addElement_length]
  refine and_congr_right fun h0 => ?_
  rw [update_of_ne (by omega)]
  by_cases hi : i = t.elements.length
  · subst hi
    simp only [update_self, lt_irrefl, false_and, iff_false, not_and, PortRequest.mk.injEq]
    rintro - hne rfl
    exact absurd rfl hne
  · rw [update_of_ne hi]
    simp only [show i < t.elements.length + 1 ↔ i < t.elements.length by omega]

theorem FreeList.addElement {fl : List ℕ} (h : t.FreeList fl) (hpos : 0 < t.elements.length) :
    t.addElement.FreeList (t.elements.length :: fl) := by
  have hnotify : (fun i => (t.addElement.request i).notify) = update (update
      (fun i => (t.request i).notify) t.elements.length (t.request 0).notify) 0 t.elements.length := by
    funext i
    rw [addElement_request hpos]
    by_cases h0 : i = 0
    · simp [h0]
    · by_cases hi : i = t.elements.length
      · simp [hi, iprNext, update_of_ne (show t.elements.length ≠ 0 by omega)]
      · simp [hi, h0]
  rw [FreeList, hnotify]
  refine IndexList.FreeList.push h (by omega) ?_ (fun i => isFree_addElement hpos)
  rintro ⟨-, hlt, -⟩
  exact lt_irrefl _ hlt

theorem addElement_iterate (hpos : 0 < t.elements.length) (hfree : ∃ fl, t.FreeList fl) (k : ℕ) :
    (addElement^[k] t).elements.length = t.elements.length + k ∧
      (addElement^[k] t).iprSize = t.iprSize ∧ (∃ fl, (addElement^[k] t).FreeList fl) ∧
      ∀ i n so, (addElement^[k] t).Holds i n so ↔ t.Holds i n so := by
  induction k with
  | zero => exact ⟨rfl, rfl, hfree, fun _ _ _ => Iff.rfl⟩
  | succ k ih =>
    obtain ⟨hlen, hsize, ⟨fl, hfl⟩, hholds⟩ := ih
    have hpos' : 0 < (addElement^[k] t).elements.length := by omega
    rw [iterate_succ_apply']
    refine ⟨?_, hsize, ⟨_, FreeList.addElement hfl hpos'⟩, ?_⟩
    · rw [addElement_length, hlen]
      omega
    · intro i n so
      rw [holds_addElement hpos', hholds]

end change

/-! ## Growing -/

/-- Without a table there is no request. -/
def HoldsIn (table : Option RequestTable) (i : ℕ) (name : MachPort) (soright : ℕ) : Prop :=
  ∃ t, table = some t ∧ t.Holds i name soright

def OkIn (table : Option RequestTable) : Prop := ∀ t, table = some t → t.Ok

theorem copied_spec {otable : Option RequestTable} (h : OkIn otable) (address its : ℕ) :
    0 < (copied otable address its).elements.length ∧ (copied otable address its).iprSize = its ∧
      (∃ fl, (copied otable address its).FreeList fl) ∧
      ∀ i n so, (copied otable address its).Holds i n so ↔ HoldsIn otable i n so := by
  cases otable with
  | none =>
    refine ⟨by simp [copied], rfl, ⟨[], rfl, nodup_nil, ?_⟩, ?_⟩
    · intro i
      simp only [not_mem_nil, false_iff]
      rintro ⟨h0, hlt, -⟩
      simp only [copied, length_singleton] at hlt
      omega
    · intro i n so
      refine iff_of_false ?_ ?_
      · rintro ⟨h0, hlt, -⟩
        simp only [copied, length_singleton] at hlt
        omega
      · rintro ⟨t, ht, -⟩
        cases ht
  | some t =>
    refine ⟨(h t rfl).pos, rfl, (h t rfl).free, ?_⟩
    intro i n so
    constructor
    · exact fun hold => ⟨t, rfl, hold⟩
    · rintro ⟨_, ht, hold⟩
      cases ht
      exact hold

theorem grown_spec {otable : Option RequestTable} (h : OkIn otable) {its : ℕ} (address : ℕ)
    (hsize : (copied otable address its).elements.length ≤ ipcTableDnrequests its) :
    (grown otable address its).Ok ∧
      ∀ i n so, (grown otable address its).Holds i n so ↔ HoldsIn otable i n so := by
  obtain ⟨hpos, hits, hfree, hholds⟩ := copied_spec h address its
  obtain ⟨hlen, hits', hfree', hholds'⟩ := addElement_iterate hpos hfree
    (ipcTableDnrequests its - (copied otable address its).elements.length)
  refine ⟨⟨?_, ?_, hfree'⟩, fun i n so => (hholds' i n so).trans (hholds i n so)⟩
  · rw [grown, hlen, hits', hits]
    omega
  · rw [grown, hlen]
    omega

end RequestTable

end Darwin.Ipc
