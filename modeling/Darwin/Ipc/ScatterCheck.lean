import Darwin.Ipc.KmsgCopyout
import Darwin.Ipc.MqueueArrival

/-! # The check of a scatter list

`ipc_kmsg_check_scatter` pairs the descriptors of a message with those of the receiver's scatter
list before the message is taken, and `ipc_kmsg_copyout_body` pairs them again. The two walks are
compared here, and the list that the check builds when the receiver's is too small.
-/
namespace Darwin.Ipc.MessageQueue

def Descriptor.isPort (d : Descriptor) : Bool := d.type = machMsgPortDescriptor

theorem nonPort_eq (d : Descriptor) : d.nonPort = !d.isPort := by
  simp [Descriptor.nonPort, Descriptor.isPort]

theorem pairs_eq (gather scatter : List Descriptor) : pairs gather scatter =
    (gather.filter (!·.isPort)).zip (scatter.filter (!·.isPort)) := by
  rw [pairs, funext nonPort_eq]

/-- The scatter descriptor has the type that the gather descriptor asks for. -/
def Agrees (p : Descriptor × Descriptor) : Prop := p.2.type = p.1.pairType

/-- The region that the scatter descriptor wants overwritten is smaller than what comes. -/
def TooSmall (p : Descriptor × Descriptor) : Prop := p.2.copy = machMsgOverwrite ∧ p.2.size < p.1.size

instance (p : Descriptor × Descriptor) : Decidable (Agrees p) := inferInstanceAs (Decidable (_ = _))

instance (p : Descriptor × Descriptor) : Decidable (TooSmall p) := inferInstanceAs (Decidable (_ ∧ _))

/-- The pairs that the loop of the check compares, until it returns. -/
def checkScatterPairs (large : Bool) (count : ℕ) :
    List Descriptor → List Descriptor → List (Descriptor × Descriptor)
  | [], _ => []
  | g :: gather, scatter =>
    if g.type = machMsgPortDescriptor then checkScatterPairs large count gather scatter
    else if count = 0 then []
    else
      match scatter.dropWhile (fun d => d.type = machMsgPortDescriptor) with
      | [] => []
      | s :: scatter =>
        if s.type ≠ g.pairType then [(g, s)]
        else if (s.copy = machMsgOverwrite ∧ s.size < g.size) ∧ large = false then [(g, s)]
        else (g, s) :: checkScatterPairs large count gather scatter

section check
variable {large : Bool} {count : ℕ} {gather scatter rest : List Descriptor} {g s : Descriptor}
  {e : MachMsgReturn} {small : Bool}

@[simp] theorem pairs_nil : pairs [] scatter = [] := rfl

theorem pairs_port (hg : g.isPort = true) : pairs (g :: gather) scatter = pairs gather scatter := by
  simp [pairs_eq, hg]

theorem filter_dropWhile_port (scatter : List Descriptor) :
    (scatter.dropWhile (fun d => d.type = machMsgPortDescriptor)).filter (!·.isPort) =
      scatter.filter (!·.isPort) := by
  induction scatter with
  | nil => rfl
  | cons s scatter ih =>
    by_cases hs : s.type = machMsgPortDescriptor
    · simpa [Descriptor.isPort, hs] using ih
    · simp [hs]

theorem isPort_of_dropWhile
    (hs : scatter.dropWhile (fun d => d.type = machMsgPortDescriptor) = s :: rest) :
    s.isPort = false := by
  have hhead := List.head?_dropWhile_not (fun d => decide (d.type = machMsgPortDescriptor)) scatter
  rw [hs] at hhead
  exact hhead

theorem pairs_cons (hg : g.isPort = false)
    (hs : scatter.dropWhile (fun d => d.type = machMsgPortDescriptor) = s :: rest) :
    pairs (g :: gather) scatter = (g, s) :: pairs gather rest := by
  rw [pairs_eq, ← filter_dropWhile_port scatter, hs]
  simp [pairs_eq, hg, isPort_of_dropWhile hs]

theorem pairs_done (hs : scatter.dropWhile (fun d => d.type = machMsgPortDescriptor) = []) :
    pairs gather scatter = [] := by
  rw [pairs_eq, ← filter_dropWhile_port scatter, hs]
  simp

theorem checkScatterLoop_large (hcount : count ≠ 0) :
    checkScatterLoop true count gather scatter small =
      if ∀ p ∈ pairs gather scatter, Agrees p then
        .ok (small || decide (∃ p ∈ pairs gather scatter, TooSmall p))
      else .error .rcvInvalidType := by
  induction gather generalizing scatter small with
  | nil => simp [checkScatterLoop]
  | cons g gather ih =>
    by_cases hg : g.type = machMsgPortDescriptor
    · rw [checkScatterLoop, if_pos hg, ih, pairs_port (by simp [Descriptor.isPort, hg])]
    · rw [checkScatterLoop, if_neg hg, if_neg hcount]
      have hport : g.isPort = false := by simp [Descriptor.isPort, hg]
      cases hs : scatter.dropWhile (fun d => d.type = machMsgPortDescriptor) with
      | nil => simp [pairs_done hs]
      | cons s rest =>
        rw [pairs_cons hport hs]
        by_cases hagrees : Agrees (g, s)
        · have htype : s.type = g.pairType := hagrees
          by_cases hsmall : TooSmall (g, s)
          · have hlt : s.copy = machMsgOverwrite ∧ s.size < g.size := hsmall
            simp [htype, hlt, ih, hagrees, hsmall, -Prod.forall, -Prod.exists]
          · have hlt : ¬ (s.copy = machMsgOverwrite ∧ s.size < g.size) := hsmall
            simp [htype, hlt, ih, hagrees, hsmall, -Prod.forall, -Prod.exists]
        · have htype : ¬ s.type = g.pairType := hagrees
          simp [htype, hagrees, -Prod.forall]

theorem checkScatterLoop_sizeError {r : Bool}
    (h : checkScatterLoop large count gather scatter true = .ok r) : r = true := by
  induction gather generalizing scatter with
  | nil => simpa [checkScatterLoop] using h.symm
  | cons g gather ih =>
    rw [checkScatterLoop] at h
    split at h
    · exact ih h
    · split at h
      · split at h
        · simpa using h.symm
        · cases h
      · split at h
        · simpa using h.symm
        · split at h
          · cases h
          · split at h
            · split at h
              · exact ih h
              · cases h
            · exact ih h

theorem checkScatterLoop_error (h : checkScatterLoop large count gather scatter small = .error e) :
    e = .rcvInvalidType ∨ e = .rcvScatterSmall := by
  induction gather generalizing scatter small with
  | nil => cases h
  | cons g gather ih =>
    rw [checkScatterLoop] at h
    split at h
    · exact ih h
    · split at h
      · split at h
        · cases h
        · simp at h
          exact .inr h.symm
      · split at h
        · cases h
        · split at h
          · simp at h
            exact .inl h.symm
          · split at h
            · split at h
              · exact ih h
              · simp at h
                exact .inr h.symm
            · exact ih h

theorem checkScatterLoop_success (hcount : count ≠ 0)
    (h : checkScatterLoop large count gather scatter small = .ok false) :
    checkScatterPairs large count gather scatter = pairs gather scatter ∧
      ∀ p ∈ pairs gather scatter, Agrees p ∧ ¬ TooSmall p := by
  induction gather generalizing scatter small with
  | nil => simp [checkScatterPairs]
  | cons g gather ih =>
    by_cases hg : g.type = machMsgPortDescriptor
    · rw [checkScatterLoop, if_pos hg] at h
      rw [checkScatterPairs, if_pos hg, pairs_port (by simp [Descriptor.isPort, hg])]
      exact ih h
    · rw [checkScatterLoop, if_neg hg, if_neg hcount] at h
      rw [checkScatterPairs, if_neg hg, if_neg hcount]
      have hport : g.isPort = false := by simp [Descriptor.isPort, hg]
      cases hs : scatter.dropWhile (fun d => d.type = machMsgPortDescriptor) with
      | nil => simp [pairs_done hs]
      | cons s rest =>
        rw [hs] at h
        rw [pairs_cons hport hs]
        by_cases htype : s.type = g.pairType
        · by_cases hsmall : s.copy = machMsgOverwrite ∧ s.size < g.size
          · cases large with
            | true =>
              -- the size error stays to the end
              simp only [htype, hsmall, ne_eq, not_true_eq_false, if_false, if_true, and_self] at h
              exact absurd (checkScatterLoop_sizeError h) (by decide)
            | false => simp [htype, hsmall] at h
          · simp only [htype, hsmall, ne_eq, not_true_eq_false, if_false] at h
            obtain ⟨hpairs, hall⟩ := ih h
            refine ⟨by simp [htype, hsmall, hpairs], fun p hp => ?_⟩
            rcases List.mem_cons.mp hp with rfl | hp
            · exact ⟨htype, hsmall⟩
            · exact hall p hp
        · simp [htype] at h

theorem checkScatterLoop_empty : checkScatterLoop large 0 gather scatter small =
    if ∀ g ∈ gather, g.isPort = true then .ok small
    else if large then .ok true else .error .rcvScatterSmall := by
  induction gather with
  | nil => simp [checkScatterLoop]
  | cons g gather ih =>
    by_cases hg : g.type = machMsgPortDescriptor
    · rw [checkScatterLoop, if_pos hg, ih]
      simp [Descriptor.isPort, hg]
    · have hnot : ¬ ∀ g' ∈ g :: gather, g'.isPort = true := by simp [Descriptor.isPort, hg]
      rw [checkScatterLoop, if_neg hg, if_pos rfl, if_neg hnot]

theorem checkScatterPairs_empty : checkScatterPairs large 0 gather scatter = [] := by
  induction gather with
  | nil => rfl
  | cons g gather ih =>
    rw [checkScatterPairs, ih]
    simp

/-- The types agree, and some region is too small, or there is no scatter descriptor at all. -/
def SizeError (gather scatter : List Descriptor) : Prop :=
  (∀ p ∈ pairs gather scatter, Agrees p) ∧
    (scatter = [] ∧ (∃ g ∈ gather, g.isPort = false) ∨ ∃ p ∈ pairs gather scatter, TooSmall p)

theorem pairs_nil_right : pairs gather [] = [] := by simp [pairs_eq]

theorem checkScatterLoop_sizeError_iff :
    checkScatterLoop true scatter.length gather scatter false = .ok true ↔ SizeError gather scatter := by
  by_cases hnil : scatter = []
  · subst hnil
    rw [List.length_nil, checkScatterLoop_empty, SizeError, pairs_nil_right]
    simp
  · rw [checkScatterLoop_large (by simpa using hnil), SizeError]
    by_cases hall : ∀ p ∈ pairs gather scatter, Agrees p
    · rw [if_pos hall]
      simp [hnil, and_iff_right hall, -Prod.exists, -Prod.forall]
    · rw [if_neg hall]
      exact iff_of_false (by simp) (fun h => hall h.1)

variable {alloc : Bool} {kmsg : Kmsg} {list : ScatterList}

theorem checkScatter_small_iff :
    (ipcKmsgCheckScatter alloc kmsg true list).1 = .rcvScatterSmall ↔
      alloc = true ∧ SizeError kmsg.descriptors list.descriptors := by
  rw [← checkScatterLoop_sizeError_iff, ipcKmsgCheckScatter]
  cases h : checkScatterLoop true list.descriptors.length kmsg.descriptors list.descriptors false with
  | error e =>
    have hne : e ≠ .rcvScatterSmall := by
      rintro rfl
      by_cases hnil : list.descriptors = []
      · rw [hnil, List.length_nil, checkScatterLoop_empty] at h
        split at h
        · cases h
        · simp at h
      · rw [checkScatterLoop_large (by simpa using hnil)] at h
        split at h
        · cases h
        · simp at h
    simp [hne]
  | ok sizeError =>
    cases sizeError with
    | false => simp
    | true => cases alloc <;> simp

theorem checkScatter_newList (kmsg : Kmsg) (list : ScatterList)
    (h : SizeError kmsg.descriptors list.descriptors) :
    ipcKmsgCheckScatter true kmsg true list = (.rcvScatterSmall,
      { msghSize := bodySize + descriptorSize * kmsg.descriptors.length
        descriptors := kmsg.descriptors.map gatherDescriptor }) := by
  rw [ipcKmsgCheckScatter, checkScatterLoop_sizeError_iff.mpr h]
  rfl

theorem checkScatter_success (h : (ipcKmsgCheckScatter alloc kmsg large list).1 = .success) :
    checkScatterPairs large list.descriptors.length kmsg.descriptors list.descriptors =
        pairs kmsg.descriptors list.descriptors ∧
      ∀ p ∈ pairs kmsg.descriptors list.descriptors, Agrees p ∧ ¬ TooSmall p := by
  have hloop : checkScatterLoop large list.descriptors.length kmsg.descriptors list.descriptors false =
      .ok false := by
    rw [ipcKmsgCheckScatter] at h
    split at h
    · rename_i e he
      rcases checkScatterLoop_error he with rfl | rfl
      · cases h
      · cases h
    · assumption
    · split at h
      · cases h
      · cases h
  by_cases hnil : list.descriptors = []
  · rw [hnil, List.length_nil, checkScatterPairs_empty, pairs_nil_right]
    exact ⟨rfl, by simp⟩
  · exact checkScatterLoop_success (by simpa using hnil) hloop

end check

end Darwin.Ipc.MessageQueue

namespace Darwin.Ipc.Kmsg
open Darwin.Lib

/-! ## The copyout -/

/-- The words of a descriptor that the check reads. -/
def Descriptor.raw : Descriptor → MessageQueue.Descriptor
  | .port _ => ⟨MessageQueue.machMsgPortDescriptor, 0, 0⟩
  | .outOfLine dsc => ⟨MessageQueue.machMsgOolDescriptor, dsc.size, dsc.copy⟩
  | .oolPorts dsc => ⟨MessageQueue.machMsgOolPortsDescriptor, dsc.objects.length, dsc.copy⟩

def rawPair (p : Descriptor × Descriptor) : MessageQueue.Descriptor × MessageQueue.Descriptor :=
  (p.1.raw, p.2.raw)

/-- The scatter descriptor that the copyout consults for a descriptor of the body. -/
def consulted (sstart : Option (List Descriptor)) : Descriptor → Option Descriptor
  | .port _ => none
  | _ => (skipPortDescriptors sstart).bind List.head?

/-- The pairs of the loop of the copyout, in the order in which it comes to them. -/
def copyoutPairs (R : Receiver) (st : Delivered) : List Descriptor → List (Descriptor × Descriptor)
  | [] => []
  | d :: rest =>
    ((consulted st.sstart d).toList.map (fun s => (st.view R d, s))) ++
      copyoutPairs R (copyoutDescriptor R st rest (st.view R d)) rest

/-- Where the loop stands in the scatter list; nothing but ports is left when it has lost it. -/
def Stands (sstart : Option (List Descriptor)) (scatter : List Descriptor) : Prop :=
  sstart = some scatter ∨ sstart = none ∧ scatter.dropWhile (fun d => d matches .port _) = []

section walk
variable {R : Receiver} {st : Delivered} {sstart : Option (List Descriptor)}
  {scatter rest : List Descriptor} {d s : Descriptor}

theorem raw_view (R : Receiver) (st : Delivered) (d : Descriptor) : (st.view R d).raw = d.raw := by
  unfold Delivered.view
  split
  · cases d with
    | oolPorts dsc => simp [freed, Descriptor.raw, OolPortsDescriptor.strayed]
    | port dsc => rfl
    | outOfLine dsc => rfl
  · rfl

theorem map_raw_dropWhile (scatter : List Descriptor) :
    (scatter.map Descriptor.raw).dropWhile (fun d => d.type = MessageQueue.machMsgPortDescriptor) =
      (scatter.dropWhile (fun d => d matches .port _)).map Descriptor.raw := by
  rw [List.dropWhile_map]
  congr 2
  funext d
  cases d <;> rfl

theorem Stands.skip (h : Stands sstart scatter) : skipPortDescriptors sstart =
    if scatter.dropWhile (fun d => d matches .port _) = [] then none
    else some (scatter.dropWhile (fun d => d matches .port _)) := by
  rcases h with rfl | ⟨rfl, hnil⟩
  · rw [skipPortDescriptors, Option.map_some]
    cases hs : scatter.dropWhile (fun d => d matches .port _) with
    | nil => rfl
    | cons s rest => rfl
  · rw [if_pos hnil]
    rfl

theorem sstart_copyoutDescriptor (R : Receiver) (st : Delivered) (rest : List Descriptor)
    (d : Descriptor) : (copyoutDescriptor R st rest d).sstart = nextScatter st.sstart d := by
  obtain ⟨d', new, hd⟩ := copyoutDescriptor_handled R st rest d
  exact hd.sstart

theorem nextScatter_view (R : Receiver) (st : Delivered) (d : Descriptor) :
    nextScatter sstart (st.view R d) = nextScatter sstart d := by
  unfold Delivered.view
  split
  · cases d <;> rfl
  · rfl

theorem nextScatter_other (hd : d.raw.isPort = false) :
    nextScatter sstart d = incrementScatter (skipPortDescriptors sstart) := by
  cases d with
  | port dsc => cases hd
  | outOfLine dsc => rfl
  | oolPorts dsc => rfl

theorem consulted_other (hd : d.raw.isPort = false) :
    consulted sstart d = (skipPortDescriptors sstart).bind List.head? := by
  cases d with
  | port dsc => cases hd
  | outOfLine dsc => rfl
  | oolPorts dsc => rfl

theorem consulted_port (sstart : Option (List Descriptor)) (hd : d.raw.isPort = true) :
    consulted sstart d = none ∧ nextScatter sstart d = sstart := by
  cases d with
  | port dsc => exact ⟨rfl, rfl⟩
  | outOfLine dsc => cases hd
  | oolPorts dsc => cases hd

theorem copyoutPairs_eq (R : Receiver) (st : Delivered) (body : List Descriptor)
    (h : Stands st.sstart scatter) :
    (copyoutPairs R st body).map rawPair =
      MessageQueue.pairs (body.map Descriptor.raw) (scatter.map Descriptor.raw) := by
  induction body generalizing st scatter with
  | nil => rfl
  | cons d body ih =>
    rw [copyoutPairs, List.map_append, List.map_cons]
    have hnext : (copyoutDescriptor R st body (st.view R d)).sstart = nextScatter st.sstart d := by
      rw [sstart_copyoutDescriptor, nextScatter_view]
    cases hport : d.raw.isPort with
    | true =>
      obtain ⟨hnone, hsame⟩ := consulted_port st.sstart hport
      rw [MessageQueue.pairs_port hport, hnone, ih _ (by rw [hnext, hsame]; exact h)]
      rfl
    | false =>
      have hskip := h.skip
      have hraw := map_raw_dropWhile scatter
      rw [nextScatter_other hport] at hnext
      rw [consulted_other hport]
      cases hs : scatter.dropWhile (fun d => d matches .port _) with
      | nil =>
        rw [hs, if_pos rfl] at hskip
        rw [hs, List.map_nil] at hraw
        rw [hskip] at hnext ⊢
        rw [MessageQueue.pairs_done hraw, ih _ (.inr ⟨hnext, hs⟩), MessageQueue.pairs_done hraw]
        rfl
      | cons s rest =>
        rw [hs, if_neg (List.cons_ne_nil _ _)] at hskip
        rw [hs, List.map_cons] at hraw
        rw [hskip] at hnext ⊢
        rw [MessageQueue.pairs_cons hport hraw, ih _ (.inl hnext)]
        simp [rawPair, raw_view]

end walk

/-! ## The check and the copyout -/

/-- The words of a `struct ipc_kmsg` in front of the message: the links, `ikm_size`,
`ikm_marequest`, the two of `ikm_sender`, and `ikm_delta`. -/
def ikmOverhead : ℕ := 28

/-- `ikm_plus_overhead`, which is what `ikm_alloc` asks `kalloc` for. -/
def ikmPlusOverhead (size : ℕ) : ℕ := u32 (size + ikmOverhead)

/-- Where the last descriptor of a list ends that has this many of them. -/
def listEnd (count : ℕ) : ℕ :=
  ikmOverhead + MessageQueue.headerSize + MessageQueue.bodySize + MessageQueue.descriptorSize * count

/-- The check of the message with this body and of a scatter list of this size. -/
def checkBody (alloc : Bool) (kmsg : MessageQueue.Kmsg) (large : Bool) (size : ℕ)
    (body scatter : List Descriptor) : MessageQueue.MachMsgReturn × MessageQueue.ScatterList :=
  MessageQueue.ipcKmsgCheckScatter alloc { kmsg with descriptors := body.map Descriptor.raw } large
    ⟨size, scatter.map Descriptor.raw⟩

/-- What a receiver relies on: after a check with success the copyout makes just the pairs that the
check has compared, of one type, and no region that it overwrites is too small; and a list that the
check builds lies in the memory that was allocated for it. -/
structure Covers (alloc : Bool) (kmsg : MessageQueue.Kmsg) (large : Bool) (size : ℕ)
    (body scatter : List Descriptor) : Prop where
  pairs : (checkBody alloc kmsg large size body scatter).1 = .success → ∀ R : Receiver,
    (copyoutPairs R ⟨[], [], some scatter, false, 0, []⟩ body).map rawPair =
        MessageQueue.checkScatterPairs large scatter.length (body.map Descriptor.raw)
          (scatter.map Descriptor.raw) ∧
      ∀ p ∈ copyoutPairs R ⟨[], [], some scatter, false, 0, []⟩ body, p.2.raw.type = p.1.raw.type ∧
        (p.2.raw.copy = overwriteCopy → p.1.raw.size ≤ p.2.raw.size)
  fits : large = true → (checkBody alloc kmsg large size body scatter).1 = .rcvScatterSmall →
    listEnd (checkBody alloc kmsg large size body scatter).2.descriptors.length ≤
      ikmPlusOverhead (checkBody alloc kmsg large size body scatter).2.msghSize

theorem new_list_short (count : ℕ) :
    ikmPlusOverhead (MessageQueue.bodySize + MessageQueue.descriptorSize * count) < listEnd count := by
  have hle := Nat.mod_le (MessageQueue.bodySize + MessageQueue.descriptorSize * count + ikmOverhead)
    (2 ^ 32)
  rw [ikmPlusOverhead, listEnd, MessageQueue.headerSize, u32]
  omega

theorem pairType_raw {d : Descriptor} (hd : d.raw.isPort = false) : d.raw.pairType = d.raw.type := by
  cases d with
  | port dsc => cases hd
  | outOfLine dsc => rfl
  | oolPorts dsc => rfl

theorem pair_fits {p : Descriptor × Descriptor} {gather scatter : List MessageQueue.Descriptor}
    (hp : rawPair p ∈ MessageQueue.pairs gather scatter) (hagrees : MessageQueue.Agrees (rawPair p))
    (hsmall : ¬ MessageQueue.TooSmall (rawPair p)) : p.2.raw.type = p.1.raw.type ∧
      (p.2.raw.copy = overwriteCopy → p.1.raw.size ≤ p.2.raw.size) := by
  have hport : p.1.raw.isPort = false := by
    rw [MessageQueue.pairs_eq] at hp
    have hmem := (List.of_mem_zip hp).1
    simpa using (List.mem_filter.mp hmem).2
  refine ⟨hagrees.trans (pairType_raw hport), fun hcopy => ?_⟩
  by_contra hlt
  exact hsmall ⟨hcopy, Nat.lt_of_not_le hlt⟩

/-- A list of the check's own making never fits; everything else is as it should be. -/
theorem covers_iff (alloc : Bool) (kmsg : MessageQueue.Kmsg) (large : Bool) (size : ℕ)
    (body scatter : List Descriptor) : Covers alloc kmsg large size body scatter ↔
      ¬ (large = true ∧ alloc = true ∧
        MessageQueue.SizeError (body.map Descriptor.raw) (scatter.map Descriptor.raw)) := by
  constructor
  · rintro ⟨-, hfits⟩ ⟨rfl, rfl, hsize⟩
    have hlist := MessageQueue.checkScatter_newList
      { kmsg with descriptors := body.map Descriptor.raw } ⟨size, scatter.map Descriptor.raw⟩ hsize
    have hle := hfits rfl (congrArg Prod.fst hlist)
    rw [checkBody, hlist, List.length_map] at hle
    exact absurd hle (Nat.not_le_of_lt (new_list_short _))
  · intro hnot
    refine ⟨fun hsuccess R => ?_, fun hlarge hsmall => ?_⟩
    · obtain ⟨hpairs, hall⟩ := MessageQueue.checkScatter_success hsuccess
      have hcopy := copyoutPairs_eq R ⟨[], [], some scatter, false, 0, []⟩ body (.inl rfl)
      rw [List.length_map] at hpairs
      refine ⟨hcopy.trans hpairs.symm, fun p hp => ?_⟩
      have hmem : rawPair p ∈ MessageQueue.pairs (body.map Descriptor.raw) (scatter.map Descriptor.raw) := by
        rw [← hcopy]
        exact List.mem_map_of_mem hp
      obtain ⟨hagrees, hsmall⟩ := hall _ hmem
      exact pair_fits hmem hagrees hsmall
    · subst hlarge
      exact absurd ⟨rfl, MessageQueue.checkScatter_small_iff.mp hsmall⟩ hnot

/-- Memory of eight bytes for a receiver without scatter descriptors. -/
theorem new_list_overruns : ∃ list : MessageQueue.ScatterList,
    checkBody true ⟨1, 2, false, false, true, false, 40, []⟩ true 28
        [.outOfLine ⟨4096, 8, false, virtualCopy⟩] [] = (.rcvScatterSmall, list) ∧
      ikmPlusOverhead list.msghSize = 44 ∧ listEnd list.descriptors.length = 68 ∧
      ¬ Covers true ⟨1, 2, false, false, true, false, 40, []⟩ true 28
        [.outOfLine ⟨4096, 8, false, virtualCopy⟩] [] := by
  refine ⟨_, rfl, by decide, by decide, fun h => ?_⟩
  have hle := h.fits rfl rfl
  revert hle
  decide

end Darwin.Ipc.Kmsg
