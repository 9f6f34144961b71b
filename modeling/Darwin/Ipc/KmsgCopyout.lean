import Darwin.Ipc.KmsgBody

/-! # Copying out the body of a message

`ipc_kmsg_copyout_body` hands the rights and the memory of a message to the receiver. It goes
on after an error. When there is no room for an array of ports it cleans the whole body, and
not the array. The code is that of `MACH_OLD_VM_COPY`.
-/
namespace Darwin.Ipc.Kmsg
open Darwin.Lib List

inductive KernReturn where
  | invalidTask
  | invalidCapability
  | invalidAddress
  | noSpace
  | resourceShortage
  | urefsOverflow
  deriving DecidableEq, Repr

/-- `MACH_MSG_IPC_SPACE` -/
def ipcSpace : ℕ := 0x2000

/-- `MACH_MSG_VM_SPACE` -/
def vmSpace : ℕ := 0x1000

/-- `MACH_MSG_IPC_KERNEL` -/
def ipcKernel : ℕ := 0x800

/-- `MACH_MSG_VM_KERNEL` -/
def vmKernel : ℕ := 0x400

/-- What the calls made for descriptor `i`, and for slot `j` of its array, answer. -/
structure Receiver where
  /-- the name in the local table of a live space, when the port is not dead -/
  ipcHashLocalLookup : ℕ → ℕ → Option ℕ
  ipcObjectCopyout : ℕ → ℕ → Except KernReturn ℕ
  /-- `vm_allocate` in the map of the receiver -/
  vmAllocate : ℕ → Except KernReturn ℕ
  /-- `vm_move` out of `ipc_soft_map` -/
  vmMove : ℕ → Except KernReturn ℕ
  /-- `vm_map_copy` over memory of the receiver -/
  vmMapCopy : ℕ → Option KernReturn
  /-- the words that the kernel reads at an address that is not a buffer of the message -/
  memory : ℕ → ℕ → ℕ

/-- `ipc_kmsg_copyout_object`: error bits, the name and what has happened. -/
def ipcKmsgCopyoutObject (R : Receiver) (i j object msgtName : ℕ) : ℕ × ℕ × List Event :=
  let slow : ℕ × ℕ × List Event :=
    match R.ipcObjectCopyout i j with
    | .ok name => (0, name, [.give object msgtName])
    | .error .invalidCapability => (0, portDead, [.ipcObjectDestroy object msgtName])
    | .error .resourceShortage => (ipcKernel, portNull, [.ipcObjectDestroy object msgtName])
    | .error _ => (ipcSpace, portNull, [.ipcObjectDestroy object msgtName])
  if !ioValid object then (0, object, [])
  else if msgtName ≠ portSend then slow
  else
    match R.ipcHashLocalLookup i j with
    | some name => (0, name, [.give object msgtName])
    | none => slow

/-- The error bit of a failed call for memory. -/
def vmError : KernReturn → ℕ
  | .resourceShortage => vmKernel
  | _ => vmSpace

/-- `SKIP_PORT_DESCRIPTORS`; `none` is `MACH_MSG_DESCRIPTOR_NULL` -/
def skipPortDescriptors (sstart : Option (List Descriptor)) : Option (List Descriptor) :=
  match sstart.map (·.dropWhile (fun d => d matches .port _)) with
  | some (d :: rest) => some (d :: rest)
  | _ => none

/-- `INCREMENT_SCATTER` -/
def incrementScatter (sstart : Option (List Descriptor)) : Option (List Descriptor) :=
  sstart.map List.tail

/-- The address of the receiver that the scatter list has to be overwritten. -/
def overwrites (sstart : Option (List Descriptor)) : Option ℕ :=
  match sstart with
  | some (.outOfLine dsc :: _) => if dsc.copy = overwriteCopy then some dsc.address else none
  | some (.oolPorts dsc :: _) => if dsc.copy = overwriteCopy then some dsc.address else none
  | _ => none

/-- The state of the loop: the descriptors that are done, in the receiver's form, and what the
loop has found them to be; whether the body has been cleaned. -/
structure Delivered where
  done : List Descriptor
  found : List Descriptor
  sstart : Option (List Descriptor)
  cleaned : Bool
  mr : ℕ
  events : List Event
  deriving DecidableEq, Repr

def copyoutSlots (R : Receiver) (i disposition : ℕ) : ℕ → List ℕ → ℕ × List ℕ × List Event
  | _, [] => (0, [], [])
  | j, object :: rest =>
    let r := ipcKmsgCopyoutObject R i j object disposition
    let t := copyoutSlots R i disposition (j + 1) rest
    (r.1 ||| t.1, r.2.1 :: t.2.1, r.2.2 ++ t.2.2)

/-- The array as words at another address, where the kernel has no buffer. -/
def OolPortsDescriptor.strayed (R : Receiver) (address : ℕ) (dsc : OolPortsDescriptor) :
    OolPortsDescriptor :=
  { dsc with objects := (List.range dsc.objects.length).map (R.memory address) }

/-- A descriptor of the body after the body has been cleaned: its array is free memory, whose
words are no longer determined. -/
def freed (R : Receiver) : Descriptor → Descriptor
  | .oolPorts dsc => .oolPorts (dsc.strayed R dsc.address)
  | d => d

/-- What the loop finds in place of a descriptor that it has not come to yet. -/
def Delivered.view (R : Receiver) (st : Delivered) (d : Descriptor) : Descriptor :=
  if st.cleaned then freed R d else d

def copyoutPort (R : Receiver) (st : Delivered) (dsc : PortDescriptor) : Delivered :=
  let r := ipcKmsgCopyoutObject R st.done.length 0 dsc.name dsc.disposition
  { st with
    done := st.done ++ [.port { dsc with name := r.2.1 }]
    mr := st.mr ||| r.1
    events := st.events ++ r.2.2 }

def copyoutMemory (R : Receiver) (st : Delivered) (dsc : OolDescriptor) : Delivered :=
  let i := st.done.length
  let sstart := skipPortDescriptors st.sstart
  if dsc.address = 0 then
    { st with done := st.done ++ [.outOfLine dsc], sstart := incrementScatter sstart }
  else
    let taken := match overwrites sstart with
      | some rcvAddr =>
        match R.vmMapCopy i with
        | none => Except.ok rcvAddr
        | some kr => .error kr
      | none => R.vmMove i
    let copy := if (overwrites sstart).isSome then overwriteCopy else allocateCopy
    let events := st.events ++ [.vmDeallocate .ipcSoftMap dsc.address dsc.size]
    match taken with
    | .ok rcvAddr =>
      { st with
        done := st.done ++ [.outOfLine { dsc with address := rcvAddr, copy := copy }]
        sstart := incrementScatter sstart
        events := events }
    | .error kr =>
      { st with
        done := st.done ++ [.outOfLine { dsc with address := 0, copy := copy }]
        sstart := incrementScatter sstart
        mr := st.mr ||| vmError kr
        events := events }

/-- The array of the receiver: the one of the scatter list, or memory that is allocated. -/
def receiverArray (R : Receiver) (i : ℕ) (sstart : Option (List Descriptor)) :
    Except KernReturn ℕ :=
  match overwrites sstart with
  | some addr => .ok addr
  | none => R.vmAllocate i

def copyoutPorts (R : Receiver) (st : Delivered) (rest : List Descriptor)
    (dsc : OolPortsDescriptor) : Delivered :=
  let i := st.done.length
  let sstart := skipPortDescriptors st.sstart
  if dsc.length = 0 then
    { st with done := st.done ++ [.oolPorts dsc], sstart := incrementScatter sstart }
  else
    let copy := if (overwrites sstart).isSome then overwriteCopy else allocateCopy
    match receiverArray R i sstart with
    | .error kr =>
      { st with
        done := st.done ++ [.oolPorts { dsc.strayed R 0 with address := 0, copy := copy }]
        sstart := incrementScatter sstart
        cleaned := true
        mr := st.mr ||| vmError kr
        -- all of `body->msgh_descriptor_count` descriptors, as they are by now
        events := st.events ++
          ipcKmsgCleanBody (st.done ++ .oolPorts { dsc with copy := copy } :: rest.map (st.view R)) }
    | .ok addr =>
      let r := copyoutSlots R i dsc.disposition 0 dsc.objects
      { st with
        done := st.done ++ [.oolPorts { dsc.strayed R addr with address := addr, copy := copy }]
        sstart := incrementScatter sstart
        mr := st.mr ||| r.1
        events := st.events ++ r.2.2 ++
          [.copyoutmap addr r.2.1, .kfree dsc.address dsc.length] }

/-- One descriptor, as the loop finds it. -/
def copyoutDescriptor (R : Receiver) (st : Delivered) (rest : List Descriptor) (d : Descriptor) :
    Delivered :=
  let st := { st with found := st.found ++ [d] }
  match d with
  | .port dsc => copyoutPort R st dsc
  | .outOfLine dsc => copyoutMemory R st dsc
  | .oolPorts dsc => copyoutPorts R st rest dsc

def copyoutLoop (R : Receiver) (st : Delivered) : List Descriptor → Delivered
  | [] => st
  | d :: rest => copyoutLoop R (copyoutDescriptor R st rest (st.view R d)) rest

/-- `ipc_kmsg_copyout_body`, with the scatter list of the receiver -/
def ipcKmsgCopyoutBody (R : Receiver) (body : List Descriptor)
    (list : Option (List Descriptor)) : Delivered :=
  copyoutLoop R ⟨[], [], list, false, 0, []⟩ body

/-! ## What a body carries -/

def carriedRights : Descriptor → List (ℕ × ℕ)
  | .port dsc => ([dsc.name].filter ioValid).map (·, dsc.disposition)
  | .outOfLine _ => []
  | .oolPorts dsc =>
    if dsc.length = 0 then [] else (dsc.objects.filter ioValid).map (·, dsc.disposition)

def carriedArrays : Descriptor → List (ℕ × ℕ)
  | .oolPorts dsc => if dsc.length = 0 then [] else [(dsc.address, dsc.length)]
  | _ => []

def carriedMemory : Descriptor → List (ℕ × ℕ)
  | .outOfLine dsc => if dsc.address = 0 then [] else [(dsc.address, dsc.size)]
  | _ => []

/-- Each right that the body carries has gone to the space or been destroyed once, and no other
word has been used as an object; each buffer is freed once; and the loop has found each
descriptor as it was in the message. -/
structure Consumed (body : List Descriptor) (out : Delivered) : Prop where
  rights : (out.events.filterMap Event.consumed).Perm (body.flatMap carriedRights)
  arrays : (out.events.filterMap Event.kfreed).Perm (body.flatMap carriedArrays)
  memory : (out.events.filterMap Event.softFreed).Perm (body.flatMap carriedMemory)
  intact : out.found = body

/-- Cleaning the descriptor does nothing. -/
def Idle : Descriptor → Prop
  | .port dsc => ioValid dsc.name = false
  | .outOfLine dsc => dsc.size = 0
  | .oolPorts dsc => dsc.objects.length = 0

/-- Cleaning does nothing to what the copyout has left in place of descriptor `i`: for a port,
the space has not given it a name. -/
def LeftIdle (R : Receiver) (i : ℕ) : Descriptor → Prop
  | .port dsc => ioValid (ipcKmsgCopyoutObject R i 0 dsc.name dsc.disposition).2.1 = false
  | d => Idle d

/-- There is no room for the array of the descriptor. -/
def Fails (R : Receiver) (i : ℕ) (sstart : Option (List Descriptor)) : Descriptor → Prop
  | .oolPorts dsc =>
    dsc.length ≠ 0 ∧ ∃ kr, receiverArray R i (skipPortDescriptors sstart) = .error kr
  | _ => False

/-- Where the scatter list stands after the descriptor. -/
def nextScatter (sstart : Option (List Descriptor)) : Descriptor → Option (List Descriptor)
  | .port _ => sstart
  | _ => incrementScatter (skipPortDescriptors sstart)

/-- The descriptors from number `i` on, where `idle` says that cleaning does nothing to those in
front of them: an array has no room only when every other descriptor is idle by then. -/
def AloneFrom (R : Receiver) :
    ℕ → Prop → Option (List Descriptor) → List Descriptor → Prop
  | _, _, _, [] => True
  | i, idle, sstart, d :: rest =>
    (Fails R i sstart d → idle ∧ ∀ d' ∈ rest, Idle d') ∧
      AloneFrom R (i + 1) (idle ∧ LeftIdle R i d) (nextScatter sstart d) rest

/-! ## One descriptor -/

section step
variable {R : Receiver} {st : Delivered} {rest : List Descriptor} {d : Descriptor}

theorem Fails.array {i : ℕ} {sstart : Option (List Descriptor)} (h : Fails R i sstart d) :
    ∃ dsc, d = .oolPorts dsc := by
  cases d with
  | oolPorts dsc => exact ⟨dsc, rfl⟩
  | port dsc => cases h
  | outOfLine dsc => cases h

theorem consumed_copyoutObject (R : Receiver) (i j object msgtName : ℕ) :
    (ipcKmsgCopyoutObject R i j object msgtName).2.2.filterMap Event.consumed =
        ([object].filter ioValid).map (·, msgtName) ∧
      (ipcKmsgCopyoutObject R i j object msgtName).2.2.filterMap Event.kfreed = [] ∧
      (ipcKmsgCopyoutObject R i j object msgtName).2.2.filterMap Event.softFreed = [] := by
  unfold ipcKmsgCopyoutObject
  dsimp only
  by_cases ho : ioValid object
  · rw [if_neg (by simp [ho])]
    have hone : ([object].filter ioValid).map (·, msgtName) = [(object, msgtName)] := by simp [ho]
    rw [hone]
    split
    · split <;> exact ⟨rfl, rfl, rfl⟩
    · split
      · exact ⟨rfl, rfl, rfl⟩
      · split <;> exact ⟨rfl, rfl, rfl⟩
  · rw [if_pos (by simp [ho])]
    simp [ho]

theorem consumed_copyoutSlots (R : Receiver) (i disposition j : ℕ) (objects : List ℕ) :
    (copyoutSlots R i disposition j objects).2.2.filterMap Event.consumed =
        (objects.filter ioValid).map (·, disposition) ∧
      (copyoutSlots R i disposition j objects).2.2.filterMap Event.kfreed = [] ∧
      (copyoutSlots R i disposition j objects).2.2.filterMap Event.softFreed = [] := by
  induction objects generalizing j with
  | nil => exact ⟨rfl, rfl, rfl⟩
  | cons object objects ih =>
    obtain ⟨h₁, h₂, h₃⟩ := consumed_copyoutObject R i j object disposition
    obtain ⟨i₁, i₂, i₃⟩ := ih (j + 1)
    rw [copyoutSlots]
    dsimp only
    refine ⟨?_, ?_, ?_⟩ <;> rw [filterMap_append]
    · rw [h₁, i₁, ← map_append, ← filter_append, singleton_append]
    · rw [h₂, i₂, append_nil]
    · rw [h₃, i₃, append_nil]

/-- What one descriptor does: it uses up what it carries, or the whole body is cleaned. -/
structure Handled (R : Receiver) (st : Delivered) (rest : List Descriptor) (d : Descriptor)
    (st' : Delivered) (d' : Descriptor) (new : List Event) : Prop where
  found : st'.found = st.found ++ [d]
  sstart : st'.sstart = nextScatter st.sstart d
  done : st'.done = st.done ++ [d']
  idle : Idle d' ↔ LeftIdle R st.done.length d
  events : st'.events = st.events ++ new
  cases : ¬ Fails R st.done.length st.sstart d ∧ st'.cleaned = st.cleaned ∧
      new.filterMap Event.consumed = carriedRights d ∧
      new.filterMap Event.kfreed = carriedArrays d ∧
      new.filterMap Event.softFreed = carriedMemory d ∨
    Fails R st.done.length st.sstart d ∧ st'.cleaned = true ∧
      new = ipcKmsgCleanBody (st.done ++ d :: rest.map (st.view R))

theorem copyoutDescriptor_handled (R : Receiver) (st : Delivered) (rest : List Descriptor)
    (d : Descriptor) :
    ∃ d' new, Handled R st rest d (copyoutDescriptor R st rest d) d' new := by
  cases d with
  | port dsc =>
    obtain ⟨h₁, h₂, h₃⟩ := consumed_copyoutObject R st.done.length 0 dsc.name dsc.disposition
    exact ⟨_, _, rfl, rfl, rfl, Iff.rfl, rfl, .inl ⟨id, rfl, h₁, h₂, h₃⟩⟩
  | outOfLine dsc =>
    rw [copyoutDescriptor, copyoutMemory]
    dsimp only
    by_cases ha : dsc.address = 0
    · rw [if_pos ha]
      refine ⟨_, [], rfl, rfl, rfl, Iff.rfl, (append_nil _).symm,
        .inl ⟨id, rfl, rfl, rfl, ?_⟩⟩
      rw [carriedMemory, if_pos ha]
      rfl
    · rw [if_neg ha]
      have hmem : [Event.vmDeallocate .ipcSoftMap dsc.address dsc.size].filterMap Event.softFreed =
          carriedMemory (.outOfLine dsc) := by
        rw [carriedMemory, if_neg ha]
        rfl
      split
      · exact ⟨_, _, rfl, rfl, rfl, Iff.rfl, rfl, .inl ⟨id, rfl, rfl, rfl, hmem⟩⟩
      · exact ⟨_, _, rfl, rfl, rfl, Iff.rfl, rfl, .inl ⟨id, rfl, rfl, rfl, hmem⟩⟩
  | oolPorts dsc =>
    rw [copyoutDescriptor, copyoutPorts]
    dsimp only
    by_cases hlen : dsc.length = 0
    · rw [if_pos hlen]
      refine ⟨_, [], rfl, rfl, rfl, Iff.rfl, (append_nil _).symm,
        .inl ⟨fun hf => hf.1 hlen, rfl, ?_, ?_, rfl⟩⟩
      · rw [carriedRights, if_pos hlen]
        rfl
      · rw [carriedArrays, if_pos hlen]
        rfl
    · rw [if_neg hlen]
      have hstray : ∀ address, Idle (.oolPorts (dsc.strayed R address)) ↔
          LeftIdle R st.done.length (.oolPorts dsc) := by
        intro address
        simp [LeftIdle, Idle, OolPortsDescriptor.strayed]
      cases harray : receiverArray R st.done.length (skipPortDescriptors st.sstart) with
      | error kr =>
        refine ⟨_, _, rfl, rfl, rfl, hstray 0, rfl, .inr ⟨⟨hlen, kr, harray⟩, rfl, ?_⟩⟩
        rw [ipcKmsgCleanBody, ipcKmsgCleanBody, flatMap_append, flatMap_append]
        rfl
      | ok addr =>
        obtain ⟨h₁, h₂, h₃⟩ :=
          consumed_copyoutSlots R st.done.length dsc.disposition 0 dsc.objects
        refine ⟨_, _, rfl, rfl, rfl, hstray addr, append_assoc _ _ _,
          .inl ⟨fun hf => ?_, rfl, ?_, ?_, ?_⟩⟩
        · obtain ⟨-, kr, hkr⟩ := hf
          rw [harray] at hkr
          cases hkr
        · rw [filterMap_append, h₁, carriedRights, if_neg hlen]
          exact append_nil _
        · rw [filterMap_append, h₂, carriedArrays, if_neg hlen]
          rfl
        · rw [filterMap_append, h₃]
          rfl

end step

/-! ## Counting -/

/-- How many things the events have used up. -/
def tally (p : Event → Option (ℕ × ℕ)) (events : List Event) : ℕ := (events.filterMap p).length

/-- How many things the descriptors have. -/
def load (c : Descriptor → List (ℕ × ℕ)) (ds : List Descriptor) : ℕ := (ds.flatMap c).length

section counting
variable {R : Receiver} {st : Delivered} {rest : List Descriptor} {d : Descriptor}
  {p : Event → Option (ℕ × ℕ)} {c : Descriptor → List (ℕ × ℕ)}

@[simp] theorem tally_append (e e' : List Event) : tally p (e ++ e') = tally p e + tally p e' := by
  simp [tally]

@[simp] theorem tally_cleanBody_nil : tally p (ipcKmsgCleanBody []) = 0 := rfl

@[simp] theorem tally_cleanBody_cons (ds : List Descriptor) :
    tally p (ipcKmsgCleanBody (d :: ds)) =
      tally p (cleanDescriptor d) + tally p (ipcKmsgCleanBody ds) := by
  simp [ipcKmsgCleanBody, tally]

@[simp] theorem tally_cleanBody_append (ds ds' : List Descriptor) :
    tally p (ipcKmsgCleanBody (ds ++ ds')) =
      tally p (ipcKmsgCleanBody ds) + tally p (ipcKmsgCleanBody ds') := by
  simp [ipcKmsgCleanBody, tally]

@[simp] theorem load_nil : load c [] = 0 := rfl

@[simp] theorem load_cons (ds : List Descriptor) : load c (d :: ds) = (c d).length + load c ds := by
  simp [load]

@[simp] theorem load_append (ds ds' : List Descriptor) :
    load c (ds ++ ds') = load c ds + load c ds' := by
  simp [load]

/-- A right that a port descriptor carries. -/
def portRights : Descriptor → List (ℕ × ℕ)
  | .port dsc => carriedRights (.port dsc)
  | _ => []

theorem tally_cleanDescriptor (d : Descriptor) :
    (carriedArrays d).length ≤ tally Event.kfreed (cleanDescriptor d) ∧
      (carriedRights d).length ≤ tally Event.consumed (cleanDescriptor d) := by
  have hconsumed : ∀ disposition objects,
      tally Event.consumed (destroyObjects disposition objects) =
        (objects.filter ioValid).length := by
    intro disposition objects
    rw [tally, destroyObjects, filterMap_map, length_filterMap_eq_countP]
    exact countP_eq_length.mpr (fun _ _ => rfl)
  cases d with
  | port dsc =>
    rw [cleanDescriptor, hconsumed]
    simp [carriedArrays, carriedRights]
  | outOfLine dsc => simp [carriedArrays, carriedRights]
  | oolPorts dsc =>
    by_cases hlen : dsc.length = 0
    · simp [carriedArrays, carriedRights, hlen]
    · have hcount : dsc.objects.length ≠ 0 := by
        intro h0
        exact hlen (by simp [OolPortsDescriptor.length, h0, u32])
      rw [cleanDescriptor, if_neg hcount, tally_append, tally_append, hconsumed, carriedArrays,
        carriedRights, if_neg hlen, if_neg hlen, length_map]
      refine ⟨?_, Nat.le_add_right _ _⟩
      exact Nat.le_add_left _ _

theorem copyoutLoop_grows (hstep : ∀ (st : Delivered) (rest : List Descriptor) (d : Descriptor),
      tally p st.events + (c d).length ≤
        tally p (copyoutDescriptor R st rest (st.view R d)).events)
    (st : Delivered) (rest : List Descriptor) :
    tally p st.events + load c rest ≤ tally p (copyoutLoop R st rest).events := by
  induction rest generalizing st with
  | nil => simp [copyoutLoop]
  | cons d rest ih =>
    have hd := hstep st rest d
    have hrest := ih (copyoutDescriptor R st rest (st.view R d))
    rw [load_cons, copyoutLoop]
    omega

theorem view_arrays (R : Receiver) (st : Delivered) (d : Descriptor) :
    (carriedArrays (st.view R d)).length = (carriedArrays d).length := by
  unfold Delivered.view
  split
  · cases d with
    | oolPorts dsc =>
      have hlen : (dsc.strayed R dsc.address).length = dsc.length := by
        simp [OolPortsDescriptor.length, OolPortsDescriptor.strayed]
      rw [freed, carriedArrays, carriedArrays, hlen]
      rfl
    | port dsc => rfl
    | outOfLine dsc => rfl
  · rfl

theorem view_memory (R : Receiver) (st : Delivered) (d : Descriptor) :
    carriedMemory (st.view R d) = carriedMemory d := by
  unfold Delivered.view
  split
  · cases d <;> rfl
  · rfl

theorem view_portRights (R : Receiver) (st : Delivered) (d : Descriptor) :
    portRights (st.view R d) = portRights d := by
  unfold Delivered.view
  split
  · cases d <;> rfl
  · rfl

theorem grows_kfreed (R : Receiver) (st : Delivered) (rest : List Descriptor) (d : Descriptor) :
    tally Event.kfreed st.events + (carriedArrays d).length ≤
      tally Event.kfreed (copyoutDescriptor R st rest (st.view R d)).events := by
  obtain ⟨d', new, hd⟩ := copyoutDescriptor_handled R st rest (st.view R d)
  rw [hd.events, tally_append, ← view_arrays R st d]
  rcases hd.cases with ⟨-, -, -, hk, -⟩ | ⟨-, -, rfl⟩
  · rw [tally, tally, hk]
  · have hclean := (tally_cleanDescriptor (st.view R d)).1
    rw [tally_cleanBody_append, tally_cleanBody_cons]
    omega

theorem grows_softFreed (R : Receiver) (st : Delivered) (rest : List Descriptor)
    (d : Descriptor) :
    tally Event.softFreed st.events + (carriedMemory d).length ≤
      tally Event.softFreed (copyoutDescriptor R st rest (st.view R d)).events := by
  obtain ⟨d', new, hd⟩ := copyoutDescriptor_handled R st rest (st.view R d)
  rw [hd.events, tally_append, ← view_memory R st d]
  rcases hd.cases with ⟨-, -, -, -, hs⟩ | ⟨hf, -, -⟩
  · rw [tally, tally, hs]
  · obtain ⟨dsc, hv⟩ := hf.array
    simp [hv, carriedMemory]

theorem grows_consumed (R : Receiver) (st : Delivered) (rest : List Descriptor)
    (d : Descriptor) :
    tally Event.consumed st.events + (portRights d).length ≤
      tally Event.consumed (copyoutDescriptor R st rest (st.view R d)).events := by
  obtain ⟨d', new, hd⟩ := copyoutDescriptor_handled R st rest (st.view R d)
  rw [hd.events, tally_append, ← view_portRights R st d]
  rcases hd.cases with ⟨-, -, hc, -, -⟩ | ⟨hf, -, -⟩
  · cases hv : st.view R d with
    | port dsc =>
      rw [hv] at hc
      rw [tally, tally, hc]
      exact Nat.le_refl _
    | outOfLine dsc => simp [portRights]
    | oolPorts dsc => simp [portRights]
  · obtain ⟨dsc, hv⟩ := hf.array
    simp [hv, portRights]

theorem load_le_tally_cleanBody (ds : List Descriptor) :
    load carriedRights ds ≤ tally Event.consumed (ipcKmsgCleanBody ds) := by
  induction ds with
  | nil => exact Nat.le_refl _
  | cons d ds ih =>
    have hd := (tally_cleanDescriptor d).2
    rw [load_cons, tally_cleanBody_cons]
    omega

theorem tally_of_not_idle (h : ¬ Idle d) :
    (∃ dsc, d = .port dsc ∧ 0 < tally Event.consumed (cleanDescriptor d) ∧
      0 < (portRights d).length) ∨
    0 < tally Event.kfreed (cleanDescriptor d) ∨ 0 < tally Event.softFreed (cleanDescriptor d) := by
  cases d with
  | port dsc =>
    have hvalid : ioValid dsc.name = true := by simpa [Idle] using h
    refine .inl ⟨dsc, rfl, ?_, ?_⟩
    · simp [cleanDescriptor, destroyObjects, hvalid, tally, Event.consumed]
    · simp [portRights, carriedRights, hvalid]
  | outOfLine dsc =>
    refine .inr (.inr ?_)
    have hsize : dsc.size ≠ 0 := h
    rw [cleanDescriptor, if_neg hsize]
    exact Nat.one_pos
  | oolPorts dsc =>
    refine .inr (.inl ?_)
    have hcount : dsc.objects.length ≠ 0 := h
    rw [cleanDescriptor, if_neg hcount, tally_append]
    exact Nat.lt_add_left _ Nat.one_pos

theorem tally_mem_le {ds : List Descriptor} (h : d ∈ ds) :
    tally p (cleanDescriptor d) ≤ tally p (ipcKmsgCleanBody ds) := by
  obtain ⟨front, back, rfl⟩ := append_of_mem h
  rw [tally_cleanBody_append, tally_cleanBody_cons]
  omega

theorem load_mem_le {ds : List Descriptor} (h : d ∈ ds) : (c d).length ≤ load c ds := by
  obtain ⟨front, back, rfl⟩ := append_of_mem h
  rw [load_append, load_cons]
  omega

end counting

/-! ## The whole body -/

/-- What the loop keeps while no array has failed next to something that is not idle: just the
descriptors in front have been used up. -/
structure Even (front rest : List Descriptor) (idle : Prop) (st : Delivered) : Prop where
  rights : st.events.filterMap Event.consumed = front.flatMap carriedRights
  arrays : st.events.filterMap Event.kfreed = front.flatMap carriedArrays
  memory : st.events.filterMap Event.softFreed = front.flatMap carriedMemory
  found : st.found = front
  idle : (∀ d ∈ st.done, Idle d) ↔ idle
  cleaned : st.cleaned = true → ∀ d ∈ rest, Idle d

section body
variable {R : Receiver} {st : Delivered} {front rest : List Descriptor} {d : Descriptor}
  {idle : Prop}

theorem cleanDescriptor_of_idle (h : Idle d) : cleanDescriptor d = [] := by
  cases d with
  | port dsc =>
    have hvalid : ioValid dsc.name = false := h
    simp [cleanDescriptor, destroyObjects, hvalid]
  | outOfLine dsc => exact if_pos h
  | oolPorts dsc => exact if_pos h

theorem cleanBody_of_idle {ds : List Descriptor} (h : ∀ d ∈ ds, Idle d) :
    ipcKmsgCleanBody ds = [] :=
  flatMap_eq_nil_iff.mpr (fun d hd => cleanDescriptor_of_idle (h d hd))

theorem not_fails_of_idle {i : ℕ} {sstart : Option (List Descriptor)} (h : Idle d) :
    ¬ Fails R i sstart d := by
  intro hf
  obtain ⟨dsc, rfl⟩ := hf.array
  have hcount : dsc.objects.length = 0 := h
  exact hf.1 (by simp [OolPortsDescriptor.length, hcount, u32])

theorem Even.view (h : Even front (d :: rest) idle st) : st.view R d = d := by
  unfold Delivered.view
  split
  · rename_i hcleaned
    have hidle := h.cleaned hcleaned d mem_cons_self
    cases d with
    | oolPorts dsc =>
      have hnil : dsc.objects = [] := length_eq_zero_iff.mp hidle
      obtain ⟨address, objects, deallocate, copy, disposition⟩ := dsc
      obtain rfl : objects = [] := hnil
      rfl
    | port dsc => rfl
    | outOfLine dsc => rfl
  · rfl

theorem Even.map_view (h : Even front (d :: rest) idle st)
    (hf : Fails R st.done.length st.sstart d) : rest.map (st.view R) = rest := by
  have hnot : st.cleaned = false := by
    rw [← Bool.not_eq_true]
    intro hcleaned
    exact not_fails_of_idle (h.cleaned hcleaned d mem_cons_self) hf
  refine (map_congr_left fun e _ => ?_).trans (map_id rest)
  rw [Delivered.view, if_neg (by simp [hnot])]
  rfl

theorem cleanDescriptor_array {dsc : OolPortsDescriptor} (hlen : dsc.length ≠ 0) :
    (cleanDescriptor (.oolPorts dsc)).filterMap Event.consumed = carriedRights (.oolPorts dsc) ∧
      (cleanDescriptor (.oolPorts dsc)).filterMap Event.kfreed = carriedArrays (.oolPorts dsc) ∧
      (cleanDescriptor (.oolPorts dsc)).filterMap Event.softFreed =
        carriedMemory (.oolPorts dsc) := by
  have hcount : dsc.objects.length ≠ 0 := by
    intro h0
    exact hlen (by simp [OolPortsDescriptor.length, h0, u32])
  rw [cleanDescriptor, if_neg hcount, carriedRights, carriedArrays, if_neg hlen, if_neg hlen]
  refine ⟨?_, ?_, ?_⟩ <;> rw [filterMap_append]
  · have hdestroy : (destroyObjects dsc.disposition dsc.objects).filterMap Event.consumed =
        (dsc.objects.filter ioValid).map (·, dsc.disposition) := by
      rw [destroyObjects, filterMap_map, ← filterMap_eq_map]
      rfl
    rw [hdestroy]
    exact append_nil _
  · rw [kfreed_destroyObjects]
    rfl
  · rw [softFreed_destroyObjects]
    rfl

theorem Even.step (h : Even front (d :: rest) idle st)
    (halone : Fails R st.done.length st.sstart d → idle ∧ ∀ d' ∈ rest, Idle d') :
    Even (front ++ [d]) rest (idle ∧ LeftIdle R st.done.length d)
      (copyoutDescriptor R st rest (st.view R d)) := by
  rw [h.view]
  obtain ⟨d', new, hd⟩ := copyoutDescriptor_handled R st rest d
  have hidle : (∀ e ∈ (copyoutDescriptor R st rest d).done, Idle e) ↔
      idle ∧ LeftIdle R st.done.length d := by
    rw [hd.done, ← h.idle, ← hd.idle]
    simp [or_imp, forall_and]
  have hnew : new.filterMap Event.consumed = carriedRights d ∧
      new.filterMap Event.kfreed = carriedArrays d ∧
      new.filterMap Event.softFreed = carriedMemory d ∧
      ((copyoutDescriptor R st rest d).cleaned = true → ∀ e ∈ rest, Idle e) := by
    rcases hd.cases with ⟨-, hcl, hc, hk, hs⟩ | ⟨hf, -, hclean⟩
    · refine ⟨hc, hk, hs, fun hcleaned e he => ?_⟩
      exact h.cleaned (hcl ▸ hcleaned) e (mem_cons_of_mem d he)
    · obtain ⟨hfront, hrest⟩ := halone hf
      obtain ⟨dsc, rfl⟩ := hf.array
      have hview := h.map_view hf
      have hown : new = cleanDescriptor (.oolPorts dsc) := by
        rw [hclean, hview, ipcKmsgCleanBody, flatMap_append, flatMap_cons]
        have h₁ := cleanBody_of_idle (h.idle.mpr hfront)
        have h₂ := cleanBody_of_idle hrest
        rw [ipcKmsgCleanBody] at h₁ h₂
        rw [h₁, h₂, nil_append, append_nil]
      obtain ⟨hc, hk, hs⟩ := cleanDescriptor_array hf.1
      rw [hown]
      exact ⟨hc, hk, hs, fun _ => hrest⟩
  obtain ⟨hc, hk, hs, hcl⟩ := hnew
  refine ⟨?_, ?_, ?_, ?_, hidle, hcl⟩
  · rw [hd.events, filterMap_append, h.rights, hc]
    simp
  · rw [hd.events, filterMap_append, h.arrays, hk]
    simp
  · rw [hd.events, filterMap_append, h.memory, hs]
    simp
  · rw [hd.found, h.found]

theorem Even.overused (h : Even front (d :: rest) idle st)
    (hf : Fails R st.done.length st.sstart d) (hbad : ¬ (idle ∧ ∀ e ∈ rest, Idle e)) :
    ¬ Consumed (front ++ d :: rest)
      (copyoutLoop R (copyoutDescriptor R st rest (st.view R d)) rest) := by
  intro hc
  obtain ⟨d', new, hd⟩ := copyoutDescriptor_handled R st rest d
  have hview := h.map_view hf
  rw [h.view] at hc
  rcases hd.cases with ⟨hnf, -⟩ | ⟨-, -, hnew⟩
  · exact hnf hf
  rw [hview] at hnew
  subst hnew
  -- the three tallies at the end, by what has been counted before and what is still to come
  have hk := copyoutLoop_grows (grows_kfreed R) (copyoutDescriptor R st rest d) rest
  have hs := copyoutLoop_grows (grows_softFreed R) (copyoutDescriptor R st rest d) rest
  have hr := copyoutLoop_grows (grows_consumed R) (copyoutDescriptor R st rest d) rest
  have hkc : tally Event.kfreed (copyoutLoop R (copyoutDescriptor R st rest d) rest).events =
      load carriedArrays (front ++ d :: rest) := hc.arrays.length_eq
  have hsc : tally Event.softFreed (copyoutLoop R (copyoutDescriptor R st rest d) rest).events =
      load carriedMemory (front ++ d :: rest) := hc.memory.length_eq
  have hrc : tally Event.consumed (copyoutLoop R (copyoutDescriptor R st rest d) rest).events =
      load carriedRights (front ++ d :: rest) := hc.rights.length_eq
  have hk₀ : tally Event.kfreed st.events = load carriedArrays front :=
    congrArg List.length h.arrays
  have hs₀ : tally Event.softFreed st.events = load carriedMemory front :=
    congrArg List.length h.memory
  have hr₀ : tally Event.consumed st.events = load carriedRights front :=
    congrArg List.length h.rights
  obtain ⟨hka, hra⟩ := tally_cleanDescriptor d
  have hrest := load_le_tally_cleanBody rest
  have hmem : carriedMemory d = [] := by
    obtain ⟨dsc, rfl⟩ := hf.array
    rfl
  rw [hd.events, tally_append, tally_cleanBody_append, tally_cleanBody_cons] at hk hs hr
  rw [load_append, load_cons] at hkc hsc hrc
  rw [hmem, length_nil] at hsc
  obtain ⟨e, he, hne⟩ : ∃ e, (e ∈ st.done ∨ e ∈ rest) ∧ ¬ Idle e := by
    by_contra hall
    push Not at hall
    exact hbad ⟨h.idle.mp fun e he => hall e (.inl he), fun e he => hall e (.inr he)⟩
  have hextra : ∀ p, tally p (cleanDescriptor e) ≤
      tally p (ipcKmsgCleanBody st.done) + tally p (ipcKmsgCleanBody rest) := by
    intro p
    rcases he with he | he
    · exact Nat.le_add_right_of_le (tally_mem_le he)
    · exact Nat.le_add_left_of_le (tally_mem_le he)
  rcases tally_of_not_idle hne with ⟨dsc, rfl, hpos, hport⟩ | hpos | hpos
  · rcases he with he | he
    · have := @tally_mem_le _ Event.consumed _ he
      omega
    · have := @load_mem_le _ portRights _ he
      omega
  · have := hextra Event.kfreed
    omega
  · have := hextra Event.softFreed
    omega

theorem Even.consumed_iff (h : Even front rest idle st) :
    Consumed (front ++ rest) (copyoutLoop R st rest) ↔
      AloneFrom R st.done.length idle st.sstart rest := by
  induction rest generalizing front idle st with
  | nil =>
    rw [append_nil]
    refine ⟨fun _ => trivial, fun _ => ⟨?_, ?_, ?_, h.found⟩⟩
    · exact .of_eq h.rights
    · exact .of_eq h.arrays
    · exact .of_eq h.memory
  | cons d rest ih =>
    rw [copyoutLoop, AloneFrom]
    by_cases halone : Fails R st.done.length st.sstart d → idle ∧ ∀ e ∈ rest, Idle e
    · obtain ⟨d', new, hd⟩ := copyoutDescriptor_handled R st rest d
      have hnext := ih (h.step halone)
      rw [h.view, append_assoc, singleton_append] at hnext
      rw [h.view, hnext, hd.sstart, hd.done, length_append]
      exact ⟨fun hrest => ⟨halone, hrest⟩, And.right⟩
    · obtain ⟨hf, hbad⟩ := Classical.not_imp.mp halone
      exact ⟨fun hc => absurd hc (h.overused hf hbad), fun ha => absurd ha.1 halone⟩

end body

/-- The copyout of a body uses up what the body carries exactly once just when each array for
which there is no room is, by then, the only descriptor that cleaning does something to. -/
theorem copyout_body_consumed_iff (R : Receiver) (body : List Descriptor)
    (list : Option (List Descriptor)) :
    Consumed body (ipcKmsgCopyoutBody R body list) ↔ AloneFrom R 0 True list body := by
  have hstart : Even [] body True ⟨[], [], list, false, 0, []⟩ :=
    ⟨rfl, rfl, rfl, rfl, by simp, fun h => (by cases h)⟩
  exact hstart.consumed_iff

/-- A receiver whose address space is full. -/
def fullReceiver : Receiver where
  ipcHashLocalLookup := fun _ _ => none
  ipcObjectCopyout := fun _ _ => .ok 0x103
  vmAllocate := fun _ => .error .noSpace
  vmMove := fun _ => .error .noSpace
  vmMapCopy := fun _ => some .noSpace
  memory := fun _ _ => 0

/-- A port in front of an array for which there is no room: the name that the receiver has got
for the port is destroyed as an object. -/
theorem copied_out_name_destroyed :
    .ipcObjectDestroy 0x103 portSend ∈ (ipcKmsgCopyoutBody fullReceiver
        [.port ⟨0x20000, portSend⟩,
          .oolPorts ⟨0x30000, [0x40000], false, virtualCopy, portSend⟩] none).events ∧
      ¬ Consumed
        [.port ⟨0x20000, portSend⟩, .oolPorts ⟨0x30000, [0x40000], false, virtualCopy, portSend⟩]
        (ipcKmsgCopyoutBody fullReceiver [.port ⟨0x20000, portSend⟩,
          .oolPorts ⟨0x30000, [0x40000], false, virtualCopy, portSend⟩] none) := by
  refine ⟨by decide, fun hc => ?_⟩
  have hlen := hc.rights.length_eq
  revert hlen
  decide

end Darwin.Ipc.Kmsg
