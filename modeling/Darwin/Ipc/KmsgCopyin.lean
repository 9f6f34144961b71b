import Darwin.Ipc.KmsgBody

/-! # Copying in the body of a message

`ipc_kmsg_copyin_body` takes the rights and the memory that the descriptors of a message
name. When it fails half-way it gives up what it has taken. The code is that of
`MACH_OLD_VM_COPY` and `OLD_VM_CODE`.
-/
namespace Darwin.Ipc.Kmsg
open Darwin.Lib List

/-- A descriptor as the sender has written it. -/
inductive RawDescriptor where
  | known (dsc : Descriptor)
  | other (type : ℕ)
  deriving DecidableEq, Repr

/-- What the calls made for descriptor `i`, and for slot `j` of its array, answer. -/
structure Sender where
  /-- a page is `2 ^ pageShift` bytes -/
  pageShift : Fin 32
  /-- `ipc_object_copyin`; the object may be `IO_DEAD` -/
  ipcObjectCopyin : ℕ → ℕ → Option ℕ
  ipcPortCheckCircularity : ℕ → ℕ → Bool
  /-- `vm_allocate` in `ipc_kernel_copy_map` -/
  vmAllocate : Option {paddr : ℕ // 0 < paddr}
  /-- `copyin` of out-of-line data succeeds -/
  copyin : ℕ → Bool
  /-- `vm_move` into `ipc_soft_map` -/
  vmMove : ℕ → Option ℕ
  /-- `kalloc`, zero when there is no memory -/
  kalloc : ℕ → ℕ
  /-- `copyinmap` of an array succeeds -/
  copyinmap : ℕ → Bool
  /-- the words at the address zero and above -/
  lowMemory : ℕ → ℕ

/-- The message: where its header stands, `msgh_size`, `msgh_descriptor_count` and what is
behind the count, which the sender need not have filled. -/
structure Message where
  header : Header
  address : ℕ
  msghSize : ℕ
  descriptorCount : ℕ
  memory : ℕ → RawDescriptor

/-- The first descriptor, behind a `mach_msg_base_t` of 28 bytes. -/
def Message.saddr (m : Message) : ℕ := m.address + 28

def Message.eaddr (m : Message) : ℕ := u32 (m.saddr + 12 * m.descriptorCount)

/-- `&kmsg->ikm_header + msgh_size`, which counts `msgh_size` headers and not bytes -/
def Message.limit (m : Message) : ℕ := u32 (m.address + 24 * m.msghSize)

/-- The descriptors from `saddr` to `eaddr`. -/
def Message.descriptors (m : Message) : List RawDescriptor :=
  (List.range ((m.eaddr - m.saddr + 11) / 12)).map m.memory

inductive SendError where
  | msgTooSmall
  | invalidType
  | invalidRight
  | invalidMemory
  | noBuffer
  | vmKernel
  deriving DecidableEq, Repr

/-- The pages that a descriptor needs in the kernel's copy map. -/
def copySpace (S : Sender) : RawDescriptor → ℕ
  | .known (.outOfLine dsc) =>
    if dsc.copy = physicalCopy ∧ !dsc.deallocate then roundPage S.pageShift dsc.size else 0
  | _ => 0

/-- The initial pass: the space needed, or `none` for a copy option that does not exist. -/
def initialPass (S : Sender) : ℕ → List RawDescriptor → Option ℕ
  | spaceNeeded, [] => some spaceNeeded
  | spaceNeeded, .known (.outOfLine dsc) :: rest =>
    if dsc.copy ≠ physicalCopy ∧ dsc.copy ≠ virtualCopy then none
    else initialPass S (u32 (spaceNeeded + copySpace S (.known (.outOfLine dsc)))) rest
  | spaceNeeded, _ :: rest => initialPass S spaceNeeded rest

/-- The state of the loop: the descriptors that are done, in the kernel's form, what is left
of the space in the copy map, and what has happened. -/
structure Copied where
  done : List Descriptor
  paddr : ℕ
  spaceNeeded : ℕ
  complex : Bool
  circular : Bool
  events : List Event
  deriving DecidableEq, Repr

structure Failure where
  mr : SendError
  events : List Event
  deriving DecidableEq, Repr

/-- The clean-up of a failure at the current descriptor, after the calls in `extra`. -/
def Copied.fail (st : Copied) (h : Header) (mr : SendError) (extra : List Event) :
    Except Failure Copied :=
  .error ⟨mr, st.events ++ extra ++ ipcKmsgCleanPartial h st.done st.paddr st.spaceNeeded⟩

/-- The right that an object stands for has been taken from the space. -/
def acquisition (disposition object : ℕ) : List Event :=
  if ioValid object then [.acquire object disposition] else []

def copyinPort (S : Sender) (h : Header) (st : Copied) (dsc : PortDescriptor) :
    Except Failure Copied :=
  let i := st.done.length
  let disposition := ipcObjectCopyinType dsc.disposition
  if !typePortAny dsc.disposition then st.fail h .invalidType []
  else if !machPortValid dsc.name then
    .ok { st with done := st.done ++ [.port ⟨dsc.name, disposition⟩], complex := true }
  else
    match S.ipcObjectCopyin i 0 with
    | none => st.fail h .invalidRight []
    | some object =>
      .ok { st with
        done := st.done ++ [.port ⟨object, disposition⟩]
        complex := true
        circular := st.circular ||
          (disposition == portReceive && S.ipcPortCheckCircularity i 0)
        events := st.events ++ acquisition disposition object }

def copyinMemory (S : Sender) (h : Header) (st : Copied) (dsc : OolDescriptor) :
    Except Failure Copied :=
  let i := st.done.length
  if dsc.size = 0 then
    .ok { st with done := st.done ++ [.outOfLine { dsc with address := 0 }], complex := true }
  else if dsc.copy = physicalCopy ∧ !dsc.deallocate then
    if !S.copyin i then st.fail h .invalidMemory []
    else
      match S.vmMove i with
      | none => st.fail h .vmKernel []
      | some copy =>
        .ok { st with
          done := st.done ++ [.outOfLine { dsc with address := copy }]
          paddr := st.paddr + roundPage S.pageShift dsc.size
          spaceNeeded := u32Sub st.spaceNeeded (roundPage S.pageShift dsc.size)
          complex := true
          events := st.events ++ [.vmMove .ipcSoftMap copy dsc.size,
            .vmDeallocate .ipcKernelCopyMap st.paddr dsc.size] }
  else
    match S.vmMove i with
    | none => st.fail h .invalidMemory []
    | some copy =>
      .ok { st with
        done := st.done ++ [.outOfLine { dsc with address := copy }]
        complex := true
        events := st.events ++ [.vmMove .ipcSoftMap copy dsc.size] ++
          if dsc.deallocate then [.vmDeallocate .task dsc.address dsc.size] else [] }

/-- The loop over an array. `front` are the slots that are done, `refused` is the name that
could not be copied in. -/
structure Slots where
  front : List ℕ
  circular : Bool
  events : List Event
  refused : Option ℕ
  deriving DecidableEq, Repr

def copyinSlots (S : Sender) (i disposition : ℕ) (s : Slots) : List ℕ → Slots
  | [] => s
  | port :: rest =>
    if !machPortValid port then
      copyinSlots S i disposition { s with front := s.front ++ [port] } rest
    else
      match S.ipcObjectCopyin i s.front.length with
      | none => { s with refused := some port }
      | some object =>
        copyinSlots S i disposition
          { s with
            front := s.front ++ [object]
            circular := s.circular ||
              (disposition == portReceive && S.ipcPortCheckCircularity i s.front.length)
            events := s.events ++ acquisition disposition object }
          rest

def copyinPorts (S : Sender) (h : Header) (st : Copied) (dsc : OolPortsDescriptor) :
    Except Failure Copied :=
  let i := st.done.length
  let disposition := ipcObjectCopyinType dsc.disposition
  if dsc.length = 0 then
    .ok { st with
      done := st.done ++ [.oolPorts { dsc with
        address := 0
        objects := (List.range dsc.objects.length).map S.lowMemory }]
      complex := true }
  else if S.kalloc i = 0 then st.fail h .noBuffer []
  else
    let data := S.kalloc i
    let taken : List Event := [.kalloc data dsc.length]
    if !S.copyinmap i then st.fail h .invalidMemory (taken ++ [.kfree data dsc.length])
    else if !typePortAny dsc.disposition then
      st.fail h .invalidType (taken ++ [.kfree data dsc.length])
    else
      let unmapped : List Event :=
        if dsc.deallocate then [.vmDeallocate .task dsc.address dsc.length] else []
      let s := copyinSlots S i disposition ⟨[], st.circular, [], none⟩ dsc.objects
      match s.refused with
      | some port =>
        -- the clean-up tests `port`, the refused name, where it means each slot
        let slots := s.front.filter (fun _ => machPortValid port)
        st.fail h .invalidRight (taken ++ unmapped ++ s.events ++
          slots.map (.ipcObjectDestroy · disposition) ++ [.kfree data dsc.length])
      | none =>
        .ok { st with
          done := st.done ++ [.oolPorts { dsc with
            address := data
            objects := s.front
            disposition := disposition }]
          complex := true
          circular := s.circular
          events := st.events ++ (taken ++ unmapped ++ s.events) }

def copyinDescriptor (S : Sender) (h : Header) (st : Copied) :
    RawDescriptor → Except Failure Copied
  | .known (.port dsc) => copyinPort S h st dsc
  | .known (.outOfLine dsc) => copyinMemory S h st dsc
  | .known (.oolPorts dsc) => copyinPorts S h st dsc
  | .other _ => st.fail h .invalidType []

/-- `ipc_kmsg_copyin_body` -/
def ipcKmsgCopyinBody (S : Sender) (m : Message) : Except Failure (Header × Copied) :=
  let cleaned := ipcKmsgCleanPartial m.header [] 0 0
  if m.eaddr ≤ m.saddr ∨ m.limit < m.eaddr then .error ⟨.msgTooSmall, cleaned⟩
  else
    match initialPass S 0 m.descriptors with
    | none => .error ⟨.invalidType, cleaned⟩
    | some spaceNeeded => do
      let start ←
        if 0 < spaceNeeded then
          match S.vmAllocate with
          | none => .error ⟨.vmKernel, cleaned⟩
          | some paddr => .ok (paddr.1, [Event.vmAllocate .ipcKernelCopyMap paddr.1 spaceNeeded])
        else .ok (0, [])
      let st ← m.descriptors.foldlM (copyinDescriptor S m.header)
        ⟨[], start.1, spaceNeeded, false, m.header.circular, start.2⟩
      .ok ({ m.header with
        complex := m.header.complex && st.complex
        circular := st.circular }, st)

/-! ## What a failed copyin owes -/

/-- The region of the kernel's copy map that has been reserved. -/
def region (events : List Event) : ℕ × ℕ :=
  (events.filterMap Event.copyMapReserved).head?.getD (0, 0)

/-- Every right that has been taken is destroyed once, as what it was recorded, with the
rights of the header and nothing else; every piece of memory is given back once. -/
structure Clean (S : Sender) (h : Header) (events : List Event) : Prop where
  rights : (events.filterMap Event.destroyed).Perm
    (h.rights ++ events.filterMap Event.acquired)
  arrays : (events.filterMap Event.kfreed).Perm (events.filterMap Event.kalloced)
  memory : (events.filterMap Event.softFreed).Perm (events.filterMap Event.softMoved)
  space : CoversOnce (region events).1 (region events).2
    (events.filterMap (Event.copyMapFreed S.pageShift))

/-- The name in slot `j` is valid and cannot be copied in. -/
def Refused (S : Sender) (i : ℕ) (objects : List ℕ) (j : ℕ) : Prop :=
  ∃ name, objects[j]? = some name ∧ machPortValid name ∧ S.ipcObjectCopyin i j = none

/-- The name in slot `j` is valid and is copied in as a port that is not dead. -/
def Live (S : Sender) (i : ℕ) (objects : List ℕ) (j : ℕ) : Prop :=
  ∃ name object, objects[j]? = some name ∧ machPortValid name ∧
    S.ipcObjectCopyin i j = some object ∧ ioValid object

/-- The descriptor gets through the copyin. -/
def Accepted (S : Sender) (i : ℕ) : RawDescriptor → Prop
  | .known (.port dsc) =>
    typePortAny dsc.disposition ∧ (machPortValid dsc.name → S.ipcObjectCopyin i 0 ≠ none)
  | .known (.outOfLine dsc) => dsc.size ≠ 0 →
    (dsc.copy = physicalCopy ∧ !dsc.deallocate → S.copyin i) ∧ S.vmMove i ≠ none
  | .known (.oolPorts dsc) => dsc.length ≠ 0 →
    S.kalloc i ≠ 0 ∧ S.copyinmap i ∧ typePortAny dsc.disposition ∧
      ∀ j, ¬ Refused S i dsc.objects j
  | .other _ => False

/-- The slots in front of the first name that is refused all hold live ports. -/
def Unmixed (S : Sender) (i : ℕ) : RawDescriptor → Prop
  | .known (.oolPorts dsc) =>
    dsc.length ≠ 0 → S.kalloc i ≠ 0 → S.copyinmap i → typePortAny dsc.disposition →
      ∀ j, Refused S i dsc.objects j → (∀ k < j, ¬ Refused S i dsc.objects k) →
        ∀ k < j, Live S i dsc.objects k
  | _ => True

/-- The number of bytes of an array wraps to zero, although it has slots. -/
def wrapped : Descriptor → Bool
  | .oolPorts dsc => dsc.length = 0 ∧ dsc.objects.length ≠ 0
  | _ => false

def RawDescriptor.wrapped : RawDescriptor → Bool
  | .known d => Kmsg.wrapped d
  | .other _ => false

open Classical in
/-- The descriptors from number `i` on, when those in front of them use `used` bytes of the
`space` that is reserved: up to the first that is not accepted, no array's length wraps and
the physical copies fit, and in that one nothing dead is in front of what is refused. -/
def SoundFrom (S : Sender) (space : ℕ) : ℕ → ℕ → List RawDescriptor → Prop
  | _, _, [] => True
  | i, used, d :: rest =>
    if Accepted S i d then
      d.wrapped = false ∧ used + copySpace S d ≤ space ∧
        SoundFrom S space (i + 1) (used + copySpace S d) rest
    else Unmixed S i d

/-- The descriptors of a message that gets to the loop are sound. -/
def Sound (S : Sender) (m : Message) : Prop :=
  ∀ space, m.saddr < m.eaddr → m.eaddr ≤ m.limit → initialPass S 0 m.descriptors = some space →
    (0 < space → S.vmAllocate ≠ none) → SoundFrom S space 0 0 m.descriptors

/-! ## The loop over an array -/

section slots
variable {S : Sender} {i disposition : ℕ} {s : Slots} {objects front rest : List ℕ}

theorem ioValid_eq_machPortValid (w : ℕ) : ioValid w = machPortValid w := rfl

/-- The slots that are done: none of them was refused, the live ones are those that hold a
valid object, and the events have taken these. -/
structure SlotsOk (S : Sender) (i disposition : ℕ) (objects front : List ℕ)
    (events : List Event) : Prop where
  passed : ∀ k < front.length, ¬ Refused S i objects k
  live : ∀ k object, front[k]? = some object → (ioValid object ↔ Live S i objects k)
  events : events = (front.filter ioValid).map (.acquire · disposition)

theorem SlotsOk.push {events : List Event} {object : ℕ} {new : List Event}
    (h : SlotsOk S i disposition objects front events)
    (hpass : ¬ Refused S i objects front.length)
    (hlive : ioValid object ↔ Live S i objects front.length)
    (hnew : new = ([object].filter ioValid).map (.acquire · disposition)) :
    SlotsOk S i disposition objects (front ++ [object]) (events ++ new) := by
  refine ⟨fun k hk => ?_, fun k w hw => ?_, ?_⟩
  · rcases Nat.lt_succ_iff_lt_or_eq.mp (by simpa using hk) with hlt | rfl
    · exact h.passed k hlt
    · exact hpass
  · rcases Nat.lt_trichotomy k front.length with hlt | rfl | hgt
    · exact h.live k w (by rwa [List.getElem?_append_left hlt] at hw)
    · rw [List.getElem?_concat_length] at hw
      obtain rfl := Option.some.inj hw
      exact hlive
    · rw [List.getElem?_eq_none (by simp; omega)] at hw
      exact absurd hw (by simp)
  · rw [h.events, hnew, filter_append, map_append]

theorem copyinSlots_spec (hsplit : ∃ pre, objects = pre ++ rest ∧ pre.length = s.front.length)
    (hs : SlotsOk S i disposition objects s.front s.events) (hnone : s.refused = none) :
    SlotsOk S i disposition objects (copyinSlots S i disposition s rest).front
        (copyinSlots S i disposition s rest).events ∧
      ((copyinSlots S i disposition s rest).refused = none →
        (copyinSlots S i disposition s rest).front.length = objects.length) ∧
      ∀ port, (copyinSlots S i disposition s rest).refused = some port →
        machPortValid port ∧
          Refused S i objects (copyinSlots S i disposition s rest).front.length := by
  induction rest generalizing s with
  | nil =>
    obtain ⟨pre, rfl, hlen⟩ := hsplit
    exact ⟨hs, fun _ => by simp [copyinSlots, hlen], fun port hport => by
      rw [copyinSlots, hnone] at hport
      cases hport⟩
  | cons port rest ih =>
    obtain ⟨pre, rfl, hlen⟩ := hsplit
    have hat : (pre ++ port :: rest)[s.front.length]? = some port := by simp [← hlen]
    have hnext : ∀ w : ℕ, ∃ pre', pre ++ port :: rest = pre' ++ rest ∧
        pre'.length = (s.front ++ [w]).length := fun w => ⟨pre ++ [port], by simp, by simp [hlen]⟩
    rw [copyinSlots]
    by_cases hvalid : machPortValid port
    · rw [if_neg (by simp [hvalid])]
      cases hcopy : S.ipcObjectCopyin i s.front.length with
      | none =>
        refine ⟨hs, fun h => (by cases h), fun p hp => ?_⟩
        obtain rfl := Option.some.inj hp
        exact ⟨hvalid, port, hat, hvalid, hcopy⟩
      | some object =>
        refine ih (hnext object) (hs.push ?_ ?_ ?_) hnone
        · rintro ⟨name, -, -, hnone⟩
          exact absurd (hcopy.symm.trans hnone) (by simp)
        · constructor
          · intro ho
            exact ⟨port, object, hat, hvalid, hcopy, ho⟩
          · rintro ⟨name, object', -, -, hcopy', ho⟩
            obtain rfl := Option.some.inj (hcopy.symm.trans hcopy')
            exact ho
        · rw [acquisition]
          by_cases ho : ioValid object
          · simp [ho]
          · simp [ho]
    · rw [if_pos (by simp [hvalid])]
      rw [← append_nil s.events]
      refine ih (hnext port) (hs.push ?_ ?_ ?_) hnone
      · rintro ⟨name, hname, hv, -⟩
        obtain rfl := Option.some.inj (hat.symm.trans hname)
        exact hvalid hv
      · constructor
        · intro ho
          exact absurd ho hvalid
        · rintro ⟨name, -, hname, hv, -⟩
          obtain rfl := Option.some.inj (hat.symm.trans hname)
          exact absurd hv hvalid
      · have hinvalid : ioValid port = false := by
          rw [ioValid_eq_machPortValid]
          simpa using hvalid
        simp [hinvalid]

/-- A whole array: the slots that come out of it are ok, and either every name is accepted
or the first that is refused is the one behind them. -/
theorem copyinSlots_all (S : Sender) (i disposition : ℕ) (circular : Bool) (objects : List ℕ) :
    let s := copyinSlots S i disposition ⟨[], circular, [], none⟩ objects
    SlotsOk S i disposition objects s.front s.events ∧
      (s.refused = none → s.front.length = objects.length) ∧
      ∀ port, s.refused = some port →
        machPortValid port ∧ Refused S i objects s.front.length := by
  refine copyinSlots_spec ⟨[], rfl, rfl⟩ ⟨fun k hk => ?_, fun k w hw => ?_, rfl⟩ rfl
  · exact absurd hk (Nat.not_lt_zero k)
  · simp at hw

theorem SlotsOk.unmixed_iff {events : List Event}
    (h : SlotsOk S i disposition objects front events) (hrefused : Refused S i objects front.length) :
    (∀ j, Refused S i objects j → (∀ k < j, ¬ Refused S i objects k) →
      ∀ k < j, Live S i objects k) ↔ ∀ w ∈ front, ioValid w := by
  constructor
  · intro hlive w hw
    obtain ⟨k, hk, rfl⟩ := mem_iff_getElem.mp hw
    exact (h.live k _ (List.getElem?_eq_getElem hk)).mpr
      (hlive front.length hrefused h.passed k hk)
  · intro hvalid j hj hfirst k hkj
    -- there is only one first refused slot
    have hjfront : j = front.length := by
      rcases Nat.lt_trichotomy j front.length with hlt | rfl | hgt
      · exact absurd hj (h.passed j hlt)
      · rfl
      · exact absurd hrefused (hfirst front.length hgt)
    subst hjfront
    exact (h.live k _ (List.getElem?_eq_getElem hkj)).mp (hvalid _ (getElem_mem hkj))

end slots

/-! ## One descriptor -/

/-- The events take just what cleaning the descriptor gives back, but for an array whose
length wraps: cleaning that one frees memory which nobody has allocated. -/
structure Takes (new : List Event) (d : Descriptor) : Prop where
  destroyed : new.filterMap Event.destroyed = []
  kfreed : new.filterMap Event.kfreed = []
  softFreed : new.filterMap Event.softFreed = []
  copyMapReserved : new.filterMap Event.copyMapReserved = []
  rights : wrapped d = false →
    (cleanDescriptor d).filterMap Event.destroyed = new.filterMap Event.acquired
  arrays : wrapped d = false →
    (cleanDescriptor d).filterMap Event.kfreed = new.filterMap Event.kalloced
  wrapped : wrapped d = true →
    ((cleanDescriptor d).filterMap Event.kfreed).length =
      (new.filterMap Event.kalloced).length + 1
  memory : (cleanDescriptor d).filterMap Event.softFreed = new.filterMap Event.softMoved

/-- What one descriptor that is accepted changes. -/
structure Advance (S : Sender) (d : RawDescriptor) (st st' : Copied) (d' : Descriptor)
    (new : List Event) : Prop where
  accepted : Accepted S st.done.length d
  done : st'.done = st.done ++ [d']
  events : st'.events = st.events ++ new
  wrapped : Kmsg.wrapped d' = d.wrapped
  takes : Takes new d'
  paddr : st'.paddr = st.paddr + copySpace S d
  spaceNeeded : st.spaceNeeded < 2 ^ 32 →
    st'.spaceNeeded = u32Sub st.spaceNeeded (copySpace S d)
  consecutive : Consecutive st.paddr (new.filterMap (Event.copyMapFreed S.pageShift))
  extent : extent (new.filterMap (Event.copyMapFreed S.pageShift)) = copySpace S d

/-- What a failure at the descriptor leaves: what the descriptor itself has taken is given
back before the rest is cleaned, but for slots that are not live. -/
structure Stop (S : Sender) (h : Header) (d : RawDescriptor) (st : Copied) (f : Failure)
    (extra : List Event) : Prop where
  accepted : ¬ Accepted S st.done.length d
  events : f.events =
    st.events ++ extra ++ ipcKmsgCleanPartial h st.done st.paddr st.spaceNeeded
  unmixed : (extra.filterMap Event.destroyed).Perm (extra.filterMap Event.acquired) ↔
    Unmixed S st.done.length d
  arrays : extra.filterMap Event.kfreed = extra.filterMap Event.kalloced
  memory : extra.filterMap Event.softFreed = extra.filterMap Event.softMoved
  copyMapReserved : extra.filterMap Event.copyMapReserved = []
  copyMapFreed : extra.filterMap (Event.copyMapFreed S.pageShift) = []

section descriptor
variable {S : Sender} {h : Header} {st st' : Copied} {f : Failure}

theorem u32Sub_zero {x : ℕ} (hx : x < 2 ^ 32) : u32Sub x 0 = x := u32Sub_eq (Nat.zero_le x) hx

theorem takes_acquisition (disposition object : ℕ) :
    Takes (acquisition disposition object) (.port ⟨object, disposition⟩) := by
  by_cases ho : ioValid object
  · have hclean : cleanDescriptor (.port ⟨object, disposition⟩) =
        [.ipcObjectDestroy object disposition] := by simp [cleanDescriptor, destroyObjects, ho]
    rw [acquisition, if_pos ho]
    refine ⟨rfl, rfl, rfl, rfl, fun _ => ?_, fun _ => ?_, fun hw => (by cases hw), ?_⟩ <;>
      rw [hclean] <;> rfl
  · have hclean : cleanDescriptor (.port ⟨object, disposition⟩) = [] := by
      simp [cleanDescriptor, destroyObjects, ho]
    rw [acquisition, if_neg ho]
    refine ⟨rfl, rfl, rfl, rfl, fun _ => ?_, fun _ => ?_, fun hw => (by cases hw), ?_⟩ <;>
      rw [hclean] <;> rfl

theorem Stop.of_fail {d : RawDescriptor} {mr : SendError} (hf : st.fail h mr [] = .error f)
    (ha : ¬ Accepted S st.done.length d) (hu : Unmixed S st.done.length d) :
    Stop S h d st f [] := by
  obtain rfl : _ = f := Except.error.inj hf
  exact ⟨ha, rfl, ⟨fun _ => hu, fun _ => .nil⟩, rfl, rfl, rfl, rfl⟩

theorem copyinPort_cases (dsc : PortDescriptor) :
    (∃ st' d' new, copyinPort S h st dsc = .ok st' ∧
      Advance S (.known (.port dsc)) st st' d' new) ∨
    ∃ f extra, copyinPort S h st dsc = .error f ∧ Stop S h (.known (.port dsc)) st f extra := by
  rw [copyinPort]
  by_cases htype : typePortAny dsc.disposition
  · rw [if_neg (by simp [htype])]
    by_cases hvalid : machPortValid dsc.name
    · rw [if_neg (by simp [hvalid])]
      cases hcopy : S.ipcObjectCopyin st.done.length 0 with
      | none =>
        exact .inr ⟨_, _, rfl, .of_fail rfl (fun ha => ha.2 hvalid hcopy) trivial⟩
      | some object =>
        refine .inl ⟨_, _, _, rfl, ⟨htype, fun _ => by simp [hcopy]⟩, rfl, rfl, rfl,
          takes_acquisition _ _, rfl, fun hlt => (u32Sub_zero hlt).symm, ?_, ?_⟩
        · rw [acquisition]
          split <;> trivial
        · rw [acquisition]
          split <;> rfl
    · rw [if_pos (by simp [hvalid])]
      have htakes := takes_acquisition (ipcObjectCopyinType dsc.disposition) dsc.name
      rw [acquisition, if_neg (by simpa [ioValid_eq_machPortValid] using hvalid)] at htakes
      exact .inl ⟨_, _, [], rfl, ⟨htype, fun hv => absurd hv hvalid⟩, rfl,
        (append_nil _).symm, rfl, htakes, rfl, fun hlt => (u32Sub_zero hlt).symm, trivial, rfl⟩
  · rw [if_pos (by simp [htype])]
    exact .inr ⟨_, _, rfl, .of_fail rfl (fun ha => htype ha.1) trivial⟩

theorem takes_vmMove {dsc : OolDescriptor} (hsize : dsc.size ≠ 0) (copy paddr : ℕ)
    {new : List Event} (hnew : new = [.vmDeallocate .ipcKernelCopyMap paddr dsc.size] ∨
      new = [.vmDeallocate .task paddr dsc.size] ∨ new = []) :
    Takes (.vmMove .ipcSoftMap copy dsc.size :: new) (.outOfLine { dsc with address := copy }) := by
  have hclean : cleanDescriptor (.outOfLine { dsc with address := copy }) =
      [.vmDeallocate .ipcSoftMap copy dsc.size] := by simp [cleanDescriptor, hsize]
  rcases hnew with rfl | rfl | rfl <;>
    refine ⟨rfl, rfl, rfl, rfl, fun _ => ?_, fun _ => ?_, fun hw => (by cases hw), ?_⟩ <;>
    rw [hclean] <;> rfl

theorem copyinMemory_cases (dsc : OolDescriptor) :
    (∃ st' d' new, copyinMemory S h st dsc = .ok st' ∧
      Advance S (.known (.outOfLine dsc)) st st' d' new) ∨
    ∃ f extra, copyinMemory S h st dsc = .error f ∧
      Stop S h (.known (.outOfLine dsc)) st f extra := by
  rw [copyinMemory]
  by_cases hsize : dsc.size = 0
  · have hspace : copySpace S (.known (.outOfLine dsc)) = 0 := by simp [copySpace, hsize]
    have hclean : cleanDescriptor (.outOfLine { dsc with address := 0 }) = [] := by
      simp [cleanDescriptor, hsize]
    rw [if_pos hsize]
    refine .inl ⟨_, _, [], rfl, fun hne => absurd hsize hne, rfl, (append_nil _).symm, rfl,
      ?_, by simp [hspace], fun hlt => ?_, trivial, hspace.symm⟩
    · refine ⟨rfl, rfl, rfl, rfl, fun _ => ?_, fun _ => ?_, fun hw => (by cases hw), ?_⟩ <;>
        rw [hclean] <;> rfl
    · rw [hspace, u32Sub_zero hlt]
  · rw [if_neg hsize]
    by_cases hphys : dsc.copy = physicalCopy ∧ !dsc.deallocate
    · have hspace : copySpace S (.known (.outOfLine dsc)) = roundPage S.pageShift dsc.size := by
        rw [copySpace, if_pos hphys]
      rw [if_pos hphys]
      by_cases hcopyin : S.copyin st.done.length
      · rw [if_neg (by simp [hcopyin])]
        cases hmove : S.vmMove st.done.length with
        | none =>
          exact .inr ⟨_, _, rfl, .of_fail rfl (fun ha => (ha hsize).2 hmove) trivial⟩
        | some copy =>
          refine .inl ⟨_, _, _, rfl, fun _ => ⟨fun _ => hcopyin, by simp [hmove]⟩, rfl, rfl, rfl,
            takes_vmMove hsize copy st.paddr (.inl rfl), by rw [hspace], fun _ => by rw [hspace],
            ⟨rfl, trivial⟩, ?_⟩
          rw [hspace]
          rfl
      · rw [if_pos (by simp [hcopyin])]
        exact .inr ⟨_, _, rfl, .of_fail rfl (fun ha => hcopyin ((ha hsize).1 hphys)) trivial⟩
    · have hspace : copySpace S (.known (.outOfLine dsc)) = 0 := by rw [copySpace, if_neg hphys]
      rw [if_neg hphys]
      cases hmove : S.vmMove st.done.length with
      | none =>
        exact .inr ⟨_, _, rfl, .of_fail rfl (fun ha => (ha hsize).2 hmove) trivial⟩
      | some copy =>
        refine .inl ⟨_, .outOfLine { dsc with address := copy }, .vmMove .ipcSoftMap copy dsc.size ::
          if dsc.deallocate then [.vmDeallocate .task dsc.address dsc.size] else [], rfl,
          fun _ => ⟨fun hp => absurd hp hphys, by simp [hmove]⟩, rfl, by simp, rfl,
          takes_vmMove hsize copy dsc.address ?_, by simp [hspace], fun hlt => ?_, ?_, ?_⟩
        · split <;> simp
        · rw [hspace, u32Sub_zero hlt]
        · split <;> trivial
        · rw [hspace]
          split <;> rfl

/-- The events of an array up to its slots: they take the array and the live slots. -/
structure ArrayTaken (S : Sender) (data length disposition : ℕ) (front : List ℕ)
    (events : List Event) : Prop where
  acquired : events.filterMap Event.acquired = (front.filter ioValid).map (·, disposition)
  kalloced : events.filterMap Event.kalloced = [(data, length)]
  softMoved : events.filterMap Event.softMoved = []
  destroyed : events.filterMap Event.destroyed = []
  kfreed : events.filterMap Event.kfreed = []
  softFreed : events.filterMap Event.softFreed = []
  copyMapReserved : events.filterMap Event.copyMapReserved = []
  copyMapFreed : events.filterMap (Event.copyMapFreed S.pageShift) = []

theorem SlotsOk.arrayTaken {i disposition data length : ℕ} {objects front : List ℕ}
    {events unmapped : List Event} (hs : SlotsOk S i disposition objects front events)
    (address : ℕ) (hu : unmapped = [.vmDeallocate .task address length] ∨ unmapped = []) :
    ArrayTaken S data length disposition front
      ([.kalloc data length] ++ unmapped ++ events) := by
  have hslots : ∀ p : Event → Option (ℕ × ℕ), (∀ w, p (.acquire w disposition) = none) →
      events.filterMap p = [] := by
    intro p hp
    rw [hs.events, filterMap_map]
    simp [hp]
  have hacquired : events.filterMap Event.acquired =
      (front.filter ioValid).map (·, disposition) := by
    rw [hs.events, filterMap_map, ← filterMap_eq_map]
    rfl
  constructor <;> rw [filterMap_append]
  · rw [hacquired]
    rcases hu with rfl | rfl <;> rfl
  all_goals
    rw [hslots _ (fun _ => rfl)]
    rcases hu with rfl | rfl <;> rfl

theorem ArrayTaken.takes (dsc : OolPortsDescriptor) {events : List Event}
    (h : ArrayTaken S dsc.address dsc.length dsc.disposition dsc.objects events)
    (hlen : dsc.length ≠ 0) : Takes events (.oolPorts dsc) := by
  have hcount : dsc.objects.length ≠ 0 := by
    intro h0
    exact hlen (by simp [OolPortsDescriptor.length, h0, u32])
  have hclean : cleanDescriptor (.oolPorts dsc) =
      destroyObjects dsc.disposition dsc.objects ++ [.kfree dsc.address dsc.length] := by
    rw [cleanDescriptor, if_neg hcount]
  refine ⟨h.destroyed, h.kfreed, h.softFreed, h.copyMapReserved, fun _ => ?_, fun _ => ?_,
    fun hw => ?_, ?_⟩
  · rw [hclean, h.acquired, filterMap_append, destroyed_destroyObjects]
    exact append_nil _
  · rw [hclean, h.kalloced, filterMap_append, kfreed_destroyObjects]
    rfl
  · simp [Kmsg.wrapped, hlen] at hw
  · rw [hclean, h.softMoved, filterMap_append, softFreed_destroyObjects]
    rfl

theorem ArrayTaken.unmixed {data length disposition : ℕ} {front : List ℕ} {events : List Event}
    (h : ArrayTaken S data length disposition front events) :
    let extra := events ++ front.map (.ipcObjectDestroy · disposition) ++ [.kfree data length]
    ((extra.filterMap Event.destroyed).Perm (extra.filterMap Event.acquired) ↔
      ∀ w ∈ front, ioValid w) ∧
      extra.filterMap Event.kfreed = extra.filterMap Event.kalloced ∧
      extra.filterMap Event.softFreed = extra.filterMap Event.softMoved ∧
      extra.filterMap Event.copyMapReserved = [] ∧
      extra.filterMap (Event.copyMapFreed S.pageShift) = [] := by
  have hdestroy : ∀ p : Event → Option (ℕ × ℕ),
      (∀ w, p (.ipcObjectDestroy w disposition) = none) →
      (front.map (Event.ipcObjectDestroy · disposition)).filterMap p = [] := by
    intro p hp
    rw [filterMap_map]
    simp [hp]
  refine ⟨?_, ?_, ?_, ?_, ?_⟩
  · have hd : (events ++ front.map (Event.ipcObjectDestroy · disposition) ++
        [Event.kfree data length]).filterMap Event.destroyed = front.map (·, disposition) := by
      rw [filterMap_append, filterMap_append, h.destroyed, destroyed_map]
      exact append_nil _
    have ha : (events ++ front.map (Event.ipcObjectDestroy · disposition) ++
        [Event.kfree data length]).filterMap Event.acquired =
          (front.filter ioValid).map (·, disposition) := by
      rw [filterMap_append, filterMap_append, h.acquired, hdestroy _ (fun _ => rfl),
        append_nil]
      exact append_nil _
    rw [hd, ha]
    constructor
    · intro hperm
      have hlen := hperm.length_eq
      rw [length_map, length_map] at hlen
      exact length_filter_eq_length_iff.mp hlen.symm
    · intro hvalid
      rw [filter_eq_self.mpr hvalid]
  · rw [filterMap_append, filterMap_append, h.kfreed, hdestroy _ (fun _ => rfl),
      filterMap_append, filterMap_append, h.kalloced, hdestroy _ (fun _ => rfl)]
    rfl
  · rw [filterMap_append, filterMap_append, h.softFreed, hdestroy _ (fun _ => rfl),
      filterMap_append, filterMap_append, h.softMoved, hdestroy _ (fun _ => rfl)]
    rfl
  · rw [filterMap_append, filterMap_append, h.copyMapReserved,
      hdestroy _ (fun _ => rfl)]
    rfl
  · rw [filterMap_append, filterMap_append, h.copyMapFreed, hdestroy _ (fun _ => rfl)]
    rfl

theorem Stop.of_fail_array {dsc : OolPortsDescriptor} {mr : SendError} {data : ℕ}
    (hf : st.fail h mr ([.kalloc data dsc.length] ++ [.kfree data dsc.length]) = .error f)
    (ha : ¬ Accepted S st.done.length (.known (.oolPorts dsc)))
    (hu : Unmixed S st.done.length (.known (.oolPorts dsc))) :
    Stop S h (.known (.oolPorts dsc)) st f
      ([.kalloc data dsc.length] ++ [.kfree data dsc.length]) := by
  obtain rfl : _ = f := Except.error.inj hf
  exact ⟨ha, rfl, ⟨fun _ => hu, fun _ => .nil⟩, rfl, rfl, rfl, rfl⟩

theorem copyinPorts_cases (dsc : OolPortsDescriptor) :
    (∃ st' d' new, copyinPorts S h st dsc = .ok st' ∧
      Advance S (.known (.oolPorts dsc)) st st' d' new) ∨
    ∃ f extra, copyinPorts S h st dsc = .error f ∧
      Stop S h (.known (.oolPorts dsc)) st f extra := by
  rw [copyinPorts]
  dsimp only
  by_cases hlen : dsc.length = 0
  · rw [if_pos hlen]
    refine .inl ⟨_, _, [], rfl, fun hne => absurd hlen hne, rfl, (append_nil _).symm, ?_, ?_,
      rfl, fun hlt => (u32Sub_zero hlt).symm, trivial, rfl⟩
    · simp [RawDescriptor.wrapped, Kmsg.wrapped, OolPortsDescriptor.length]
    · by_cases hcount : dsc.objects.length = 0
      · refine ⟨rfl, rfl, rfl, rfl, fun _ => ?_, fun _ => ?_, fun hw => ?_, ?_⟩
        · simp [cleanDescriptor, hcount]
        · simp [cleanDescriptor, hcount]
        · simp [Kmsg.wrapped, hcount] at hw
        · simp [cleanDescriptor, hcount]
      · have hlen' := hlen
        rw [OolPortsDescriptor.length] at hlen'
        refine ⟨rfl, rfl, rfl, rfl, fun hw => ?_, fun hw => ?_, fun _ => ?_, ?_⟩
        · simp [Kmsg.wrapped, OolPortsDescriptor.length, hcount, hlen'] at hw
        · simp [Kmsg.wrapped, OolPortsDescriptor.length, hcount, hlen'] at hw
        · rw [cleanDescriptor, if_neg (by simpa using hcount), filterMap_append,
            kfreed_destroyObjects]
          rfl
        · rw [cleanDescriptor, if_neg (by simpa using hcount), filterMap_append,
            softFreed_destroyObjects]
          rfl
  rw [if_neg hlen]
  by_cases hkalloc : S.kalloc st.done.length = 0
  · rw [if_pos hkalloc]
    exact .inr ⟨_, _, rfl, .of_fail rfl (fun ha => (ha hlen).1 hkalloc)
      (fun _ hk => absurd hkalloc hk)⟩
  rw [if_neg hkalloc]
  by_cases hmap : S.copyinmap st.done.length
  swap
  · rw [if_pos (by simp [hmap])]
    exact .inr ⟨_, _, rfl, .of_fail_array rfl (fun ha => hmap (ha hlen).2.1)
      (fun _ _ hm => absurd hm hmap)⟩
  rw [if_neg (by simp [hmap])]
  by_cases htype : typePortAny dsc.disposition
  swap
  · rw [if_pos (by simp [htype])]
    exact .inr ⟨_, _, rfl, .of_fail_array rfl (fun ha => htype (ha hlen).2.2.1)
      (fun _ _ _ ht => absurd ht htype)⟩
  rw [if_neg (by simp [htype])]
  obtain ⟨hslots, hall, hrefused⟩ := copyinSlots_all S st.done.length
    (ipcObjectCopyinType dsc.disposition) st.circular dsc.objects
  generalize copyinSlots S st.done.length (ipcObjectCopyinType dsc.disposition)
    ⟨[], st.circular, [], none⟩ dsc.objects = s at hslots hall hrefused ⊢
  have htaken : ArrayTaken S (S.kalloc st.done.length) dsc.length
      (ipcObjectCopyinType dsc.disposition) s.front ([.kalloc (S.kalloc st.done.length) dsc.length] ++
        (if dsc.deallocate then [.vmDeallocate .task dsc.address dsc.length] else []) ++
        s.events) := by
    refine hslots.arrayTaken dsc.address ?_
    split <;> simp
  cases hs : s.refused with
  | some port =>
    obtain ⟨hport, href⟩ := hrefused port hs
    have hfilter : s.front.filter (fun _ => machPortValid port) = s.front :=
      filter_eq_self.mpr (fun _ _ => hport)
    have hextra := htaken.unmixed
    refine .inr ⟨_, _, rfl, fun ha => (ha hlen).2.2.2 _ href, rfl, ?_, ?_, ?_, ?_, ?_⟩
    · rw [hfilter]
      refine hextra.1.trans ((hslots.unmixed_iff href).symm.trans ?_)
      exact ⟨fun hu _ _ _ _ => hu, fun hu => hu hlen hkalloc hmap htype⟩
    · rw [hfilter]
      exact hextra.2.1
    · rw [hfilter]
      exact hextra.2.2.1
    · rw [hfilter]
      exact hextra.2.2.2.1
    · rw [hfilter]
      exact hextra.2.2.2.2
  | none =>
    have hlength : u32 (4 * s.front.length) = dsc.length := by
      rw [hall hs, OolPortsDescriptor.length]
    have htakes : Takes _ (.oolPorts { dsc with
        address := S.kalloc st.done.length
        objects := s.front
        disposition := ipcObjectCopyinType dsc.disposition }) :=
      ArrayTaken.takes { dsc with
        address := S.kalloc st.done.length
        objects := s.front
        disposition := ipcObjectCopyinType dsc.disposition }
        (by rw [OolPortsDescriptor.length, hlength]; exact htaken)
        (by rw [OolPortsDescriptor.length, hlength]; exact hlen)
    refine .inl ⟨_, _, _, rfl, fun _ => ⟨hkalloc, hmap, htype, fun j hj => ?_⟩, rfl, rfl, ?_,
      htakes, rfl, fun hlt => (u32Sub_zero hlt).symm, ?_, ?_⟩
    · obtain ⟨name, hname, -, -⟩ := id hj
      have hjlt : j < dsc.objects.length := (List.getElem?_eq_some_iff.mp hname).1
      exact hslots.passed j (by rw [hall hs]; exact hjlt) hj
    · simp [RawDescriptor.wrapped, Kmsg.wrapped, OolPortsDescriptor.length, hall hs]
    · rw [htaken.copyMapFreed]
      trivial
    · rw [htaken.copyMapFreed]
      rfl

theorem copyinDescriptor_cases (S : Sender) (h : Header) (st : Copied) (d : RawDescriptor) :
    (∃ st' d' new, copyinDescriptor S h st d = .ok st' ∧ Advance S d st st' d' new) ∨
    ∃ f extra, copyinDescriptor S h st d = .error f ∧ Stop S h d st f extra := by
  cases d with
  | known d =>
    cases d with
    | port dsc => exact copyinPort_cases dsc
    | outOfLine dsc => exact copyinMemory_cases dsc
    | oolPorts dsc => exact copyinPorts_cases dsc
  | other type => exact .inr ⟨_, _, rfl, .of_fail rfl id trivial⟩

end descriptor

/-! ## The whole body -/

/-- What the loop keeps: the events owe what cleaning the descriptors that are done gives
back, and the part of the copy map that is used is released. -/
structure Owes (S : Sender) (base space used : ℕ) (st : Copied) : Prop where
  destroyed : st.events.filterMap Event.destroyed = []
  kfreed : st.events.filterMap Event.kfreed = []
  softFreed : st.events.filterMap Event.softFreed = []
  region : region st.events = (base, space)
  rights : st.done.all (!wrapped ·) →
    (ipcKmsgCleanBody st.done).filterMap Event.destroyed = st.events.filterMap Event.acquired
  arrays : st.done.all (!wrapped ·) →
    (ipcKmsgCleanBody st.done).filterMap Event.kfreed = st.events.filterMap Event.kalloced
  wrapped : ((ipcKmsgCleanBody st.done).filterMap Event.kfreed).length =
    (st.events.filterMap Event.kalloced).length + st.done.countP wrapped
  memory : (ipcKmsgCleanBody st.done).filterMap Event.softFreed =
    st.events.filterMap Event.softMoved
  paddr : st.paddr = base + used
  consecutive : Consecutive base (st.events.filterMap (Event.copyMapFreed S.pageShift))
  extent : extent (st.events.filterMap (Event.copyMapFreed S.pageShift)) = used
  pages : 2 ^ S.pageShift.1 ∣ st.spaceNeeded
  spaceNeeded_lt : st.spaceNeeded < 2 ^ 32
  left : (st.spaceNeeded + used) % 2 ^ 32 = space
  based : base = 0 → space = 0

section body
variable {S : Sender} {h : Header} {base space used : ℕ} {st st' : Copied} {f : Failure}
  {d : RawDescriptor} {d' : Descriptor} {new extra : List Event}

theorem pageShift_le (S : Sender) : S.pageShift.1 ≤ 32 := by omega

theorem dvd_copySpace (S : Sender) (d : RawDescriptor) : 2 ^ S.pageShift.1 ∣ copySpace S d := by
  unfold copySpace
  split
  · split
    · exact dvd_roundPage
    · exact dvd_zero _
  · exact dvd_zero _

theorem dvd_u32 {k x : ℕ} (hk : k ≤ 32) (hx : 2 ^ k ∣ x) : 2 ^ k ∣ u32 x :=
  (Nat.dvd_mod_iff (Nat.pow_dvd_pow 2 hk)).mpr hx

theorem dvd_u32Sub {k a b : ℕ} (hk : k ≤ 32) (ha : 2 ^ k ∣ a) (hb : 2 ^ k ∣ b) :
    2 ^ k ∣ u32Sub a b := by
  have hpow : 2 ^ k ∣ 2 ^ 32 := Nat.pow_dvd_pow 2 hk
  rw [u32Sub]
  refine (Nat.dvd_mod_iff hpow).mpr (Nat.dvd_sub (dvd_add ha hpow) ?_)
  exact (Nat.dvd_mod_iff hpow).mpr hb

theorem region_append (hnew : new.filterMap Event.copyMapReserved = []) (events : List Event) :
    region (events ++ new) = region events := by
  rw [region, region, filterMap_append, hnew, append_nil]

theorem Owes.advance (ho : Owes S base space used st) (ha : Advance S d st st' d' new) :
    Owes S base space (used + copySpace S d) st' := by
  have hclean : ipcKmsgCleanBody st'.done = ipcKmsgCleanBody st.done ++ cleanDescriptor d' := by
    simp [ha.done, ipcKmsgCleanBody]
  have hsub := ha.spaceNeeded ho.spaceNeeded_lt
  refine ⟨?_, ?_, ?_, ?_, fun hall => ?_, fun hall => ?_, ?_, ?_, ?_, ?_, ?_, ?_, ?_, ?_, ho.based⟩
  · rw [ha.events, filterMap_append, ho.destroyed, ha.takes.destroyed, append_nil]
  · rw [ha.events, filterMap_append, ho.kfreed, ha.takes.kfreed, append_nil]
  · rw [ha.events, filterMap_append, ho.softFreed, ha.takes.softFreed, append_nil]
  · rw [ha.events, region_append ha.takes.copyMapReserved, ho.region]
  · rw [ha.done, all_append, Bool.and_eq_true] at hall
    rw [hclean, ha.events, filterMap_append, filterMap_append, ho.rights hall.1,
      ha.takes.rights (by simpa using hall.2)]
  · rw [ha.done, all_append, Bool.and_eq_true] at hall
    rw [hclean, ha.events, filterMap_append, filterMap_append, ho.arrays hall.1,
      ha.takes.arrays (by simpa using hall.2)]
  · rw [hclean, ha.events, ha.done, filterMap_append, filterMap_append,
      length_append, length_append, countP_append, ho.wrapped]
    cases hw : Kmsg.wrapped d' with
    | true =>
      rw [ha.takes.wrapped hw]
      simp [hw]
      omega
    | false =>
      rw [ha.takes.arrays hw]
      simp [hw]
      omega
  · rw [hclean, ha.events, filterMap_append, filterMap_append, ho.memory,
      ha.takes.memory]
  · rw [ha.paddr, ho.paddr, Nat.add_assoc]
  · rw [ha.events, filterMap_append, consecutive_append, ho.extent, ← ho.paddr]
    exact ⟨ho.consecutive, ha.consecutive⟩
  · rw [ha.events, filterMap_append, extent_append, ho.extent, ha.extent]
  · rw [hsub]
    exact dvd_u32Sub (pageShift_le S) ho.pages (dvd_copySpace S d)
  · rw [hsub]
    exact Nat.mod_lt _ (by decide)
  · rw [hsub, ← ho.left, u32Sub]
    have hlt := Nat.mod_lt (copySpace S d) (show 0 < 2 ^ 32 by decide)
    omega

theorem cleanPartial_events (S : Sender) (h : Header) (body : List Descriptor)
    (paddr length : ℕ) :
    (ipcKmsgCleanPartial h body paddr length).filterMap Event.destroyed =
        h.rights ++ (ipcKmsgCleanBody body).filterMap Event.destroyed ∧
      (ipcKmsgCleanPartial h body paddr length).filterMap Event.kfreed =
        (ipcKmsgCleanBody body).filterMap Event.kfreed ∧
      (ipcKmsgCleanPartial h body paddr length).filterMap Event.softFreed =
        (ipcKmsgCleanBody body).filterMap Event.softFreed ∧
      (ipcKmsgCleanPartial h body paddr length).filterMap Event.acquired = [] ∧
      (ipcKmsgCleanPartial h body paddr length).filterMap Event.kalloced = [] ∧
      (ipcKmsgCleanPartial h body paddr length).filterMap Event.softMoved = [] ∧
      (ipcKmsgCleanPartial h body paddr length).filterMap Event.copyMapReserved = [] ∧
      (ipcKmsgCleanPartial h body paddr length).filterMap (Event.copyMapFreed S.pageShift) =
        if paddr ≠ 0 then [(paddr, roundPage S.pageShift length)] else [] := by
  have hbody := cleanBody_takesNothing S.pageShift body
  rw [ipcKmsgCleanPartial, Header.rights]
  refine ⟨?_, ?_, ?_, ?_, ?_, ?_, ?_, ?_⟩ <;> rw [filterMap_append]
  · split <;> split <;> rfl
  · split <;> split <;> rfl
  · split <;> split <;> rfl
  · rw [hbody.acquired]
    split <;> split <;> rfl
  · rw [hbody.kalloced]
    split <;> split <;> rfl
  · rw [hbody.softMoved]
    split <;> split <;> rfl
  · rw [hbody.copyMapReserved]
    split <;> split <;> rfl
  · rw [hbody.copyMapFreed]
    split <;> split <;> rfl

theorem perm_rights_iff {α : Type} {taken given rest extra : List α} :
    (given ++ (rest ++ taken)).Perm (rest ++ (taken ++ extra)) ↔ given.Perm extra := by
  have hcomm : (rest ++ (taken ++ extra)).Perm (extra ++ (rest ++ taken)) := by
    rw [← append_assoc]
    exact perm_append_comm
  constructor
  · intro hp
    exact (perm_append_right_iff _).mp (hp.trans hcomm)
  · intro hp
    exact (hp.append_right _).trans hcomm.symm

/-- The part of the copy map that is left is released with the rest of it, unless more has
been used than was reserved. -/
theorem Owes.space_iff (ho : Owes S base space used st) :
    CoversOnce base space (st.events.filterMap (Event.copyMapFreed S.pageShift) ++
      if st.paddr ≠ 0 then [(st.paddr, roundPage S.pageShift st.spaceNeeded)] else []) ↔
      used ≤ space := by
  have hround : roundPage S.pageShift st.spaceNeeded = st.spaceNeeded :=
    roundPage_of_dvd (pageShift_le S) ho.pages ho.spaceNeeded_lt
  have hleft := ho.left
  have hlt := ho.spaceNeeded_lt
  have hpaddr := ho.paddr
  rw [Consecutive.coversOnce_iff]
  · rw [extent_append, ho.extent]
    by_cases hp : st.paddr = 0
    · have hspace := ho.based (by omega)
      rw [if_neg (by simpa using hp), extent_nil]
      omega
    · rw [if_pos hp, extent_cons, extent_nil, hround]
      omega
  · rw [consecutive_append, ho.extent, ← hpaddr]
    refine ⟨ho.consecutive, ?_⟩
    split
    · exact ⟨rfl, trivial⟩
    · trivial

theorem Stop.clean_iff (ho : Owes S base space used st) (hs : Stop S h d st f extra) :
    Clean S h f.events ↔
      (st.done.all (!wrapped ·) ∧ used ≤ space) ∧ Unmixed S st.done.length d := by
  obtain ⟨hd, hk, hsf, hac, hka, hsm, hres, hfree⟩ :=
    cleanPartial_events S h st.done st.paddr st.spaceNeeded
  have hkfreed : f.events.filterMap Event.kfreed =
      extra.filterMap Event.kfreed ++ (ipcKmsgCleanBody st.done).filterMap Event.kfreed := by
    rw [hs.events, filterMap_append, filterMap_append, ho.kfreed, hk, nil_append]
  have hkalloced : f.events.filterMap Event.kalloced =
      st.events.filterMap Event.kalloced ++ extra.filterMap Event.kalloced := by
    rw [hs.events, filterMap_append, filterMap_append, hka, append_nil]
  have hdestroyed : f.events.filterMap Event.destroyed = extra.filterMap Event.destroyed ++
      (h.rights ++ (ipcKmsgCleanBody st.done).filterMap Event.destroyed) := by
    rw [hs.events, filterMap_append, filterMap_append, ho.destroyed, hd, nil_append]
  have hacquired : f.events.filterMap Event.acquired =
      st.events.filterMap Event.acquired ++ extra.filterMap Event.acquired := by
    rw [hs.events, filterMap_append, filterMap_append, hac, append_nil]
  have hspace : CoversOnce (region f.events).1 (region f.events).2
      (f.events.filterMap (Event.copyMapFreed S.pageShift)) ↔ used ≤ space := by
    rw [← ho.space_iff, hs.events, filterMap_append, filterMap_append, hs.copyMapFreed,
      hfree, append_nil, region_append hres, region_append hs.copyMapReserved, ho.region]
  constructor
  · intro hc
    have hcount : st.done.countP wrapped = 0 := by
      have hlen := hc.arrays.length_eq
      rw [hkfreed, hkalloced, length_append, length_append, ho.wrapped, hs.arrays] at hlen
      omega
    have hall : st.done.all (!wrapped ·) := by
      rw [all_eq_true]
      intro d hd
      simpa using countP_eq_zero.mp hcount d hd
    refine ⟨⟨hall, hspace.mp hc.space⟩, hs.unmixed.mp ?_⟩
    have hr := hc.rights
    rw [hdestroyed, hacquired, ho.rights hall] at hr
    exact perm_rights_iff.mp hr
  · rintro ⟨⟨hall, hused⟩, hu⟩
    refine ⟨?_, ?_, ?_, hspace.mpr hused⟩
    · rw [hdestroyed, hacquired, ho.rights hall]
      exact perm_rights_iff.mpr (hs.unmixed.mpr hu)
    · rw [hkfreed, hkalloced, hs.arrays, ho.arrays hall]
      exact perm_append_comm
    · rw [hs.events, filterMap_append, filterMap_append, filterMap_append,
        filterMap_append, ho.softFreed, hs.memory, hsf, hsm, ho.memory, append_nil]
      exact perm_append_comm

theorem Owes.clean_iff {rest : List RawDescriptor} (ho : Owes S base space used st)
    (hf : rest.foldlM (copyinDescriptor S h) st = .error f) :
    Clean S h f.events ↔ (st.done.all (!Kmsg.wrapped ·) ∧ used ≤ space) ∧
      SoundFrom S space st.done.length used rest := by
  induction rest generalizing st used with
  | nil => cases hf
  | cons d rest ih =>
    rw [foldlM_cons] at hf
    rw [SoundFrom]
    rcases copyinDescriptor_cases S h st d with ⟨st', d', new, hok, ha⟩ | ⟨f', extra, herr, hs⟩
    · rw [hok] at hf
      have hnext := ih (ho.advance ha) hf
      have hlen : st'.done.length = st.done.length + 1 := by simp [ha.done]
      have hwrapped : st'.done.all (!Kmsg.wrapped ·) =
          (st.done.all (!Kmsg.wrapped ·) && !d.wrapped) := by simp [ha.done, ha.wrapped]
      rw [if_pos ha.accepted, hnext, hwrapped, hlen]
      simp only [Bool.and_eq_true, Bool.not_eq_true']
      constructor
      · rintro ⟨⟨⟨hall, hd⟩, hused⟩, hrest⟩
        exact ⟨⟨hall, by omega⟩, hd, hused, hrest⟩
      · rintro ⟨⟨hall, -⟩, hd, hused, hrest⟩
        exact ⟨⟨⟨hall, hd⟩, hused⟩, hrest⟩
    · rw [herr] at hf
      obtain rfl : f' = f := Except.error.inj hf
      rw [if_neg hs.accepted]
      exact hs.clean_iff ho

theorem initialPass_spec {start : ℕ} {ds : List RawDescriptor} (hlt : start < 2 ^ 32)
    (hdvd : 2 ^ S.pageShift.1 ∣ start) (hp : initialPass S start ds = some space) :
    space < 2 ^ 32 ∧ 2 ^ S.pageShift.1 ∣ space := by
  induction ds generalizing start with
  | nil =>
    obtain rfl := Option.some.inj hp
    exact ⟨hlt, hdvd⟩
  | cons d ds ih =>
    have hnext : ∀ {d}, u32 (start + copySpace S d) < 2 ^ 32 ∧
        2 ^ S.pageShift.1 ∣ u32 (start + copySpace S d) := fun {d} =>
      ⟨Nat.mod_lt _ (by decide), dvd_u32 (pageShift_le S) (dvd_add hdvd (dvd_copySpace S d))⟩
    rcases d with (dsc | dsc | dsc) | type
    · exact ih hlt hdvd hp
    · rw [initialPass] at hp
      split at hp
      · cases hp
      · exact ih hnext.1 hnext.2 hp
    · exact ih hlt hdvd hp
    · exact ih hlt hdvd hp

theorem Owes.start {paddr : ℕ} {circular : Bool} {events : List Event} (hlt : space < 2 ^ 32)
    (hdvd : 2 ^ S.pageShift.1 ∣ space)
    (hev : events = [.vmAllocate .ipcKernelCopyMap paddr space] ∧ 0 < paddr ∨
      events = [] ∧ paddr = 0 ∧ space = 0) :
    Owes S paddr space 0 ⟨[], paddr, space, false, circular, events⟩ := by
  rcases hev with ⟨rfl, hpos⟩ | ⟨rfl, rfl, rfl⟩
  · exact ⟨rfl, rfl, rfl, rfl, fun _ => rfl, fun _ => rfl, rfl, rfl, rfl, trivial, rfl, hdvd, hlt,
      Nat.mod_eq_of_lt hlt, fun h0 => by omega⟩
  · exact ⟨rfl, rfl, rfl, rfl, fun _ => rfl, fun _ => rfl, rfl, rfl, rfl, trivial, rfl, hdvd, hlt,
      rfl, fun _ => rfl⟩

theorem error_of_bind_ok {α β ε : Type} {x : Except ε α} {g : α → β} {e : ε}
    (hx : (x >>= fun a => .ok (g a)) = .error e) : x = .error e := by
  cases x with
  | ok a => cases hx
  | error e' => exact congrArg _ (Except.error.inj hx)

theorem clean_header (S : Sender) (h : Header) : Clean S h (ipcKmsgCleanPartial h [] 0 0) := by
  obtain ⟨hd, hk, hsf, hac, hka, hsm, hres, hfree⟩ :=
    cleanPartial_events S h [] 0 0
  refine ⟨?_, ?_, ?_, ?_⟩
  · rw [hd, hac]
    exact .refl _
  · rw [hk, hka]
    exact .refl _
  · rw [hsf, hsm]
    exact .refl _
  · rw [hfree, region, hres]
    intro x
    simp [covers]

/-- A copyin of the body that fails leaves nothing behind and destroys nothing that it has not
taken just when, in front of the descriptor where it fails, no array's length wraps and the
physical copies fit in the space that was reserved, and no slot in front of the refused one is
null or dead. -/
theorem copyin_body_clean_iff {m : Message} (hf : ipcKmsgCopyinBody S m = .error f) :
    Clean S m.header f.events ↔ Sound S m := by
  rw [ipcKmsgCopyinBody] at hf
  dsimp only at hf
  split at hf
  case isTrue hsmall =>
    obtain rfl := Except.error.inj hf
    exact ⟨fun _ space hs he => by omega, fun _ => clean_header S m.header⟩
  case isFalse hsmall =>
  split at hf
  case h_1 hpass =>
    obtain rfl := Except.error.inj hf
    refine ⟨fun _ space hs he hp => ?_, fun _ => clean_header S m.header⟩
    rw [hpass] at hp
    cases hp
  case h_2 space hpass =>
  obtain ⟨hlt, hdvd⟩ := initialPass_spec (show 0 < 2 ^ 32 by decide) (dvd_zero _) hpass
  have hsound : ∀ ok : 0 < space → S.vmAllocate ≠ none,
      Sound S m ↔ SoundFrom S space 0 0 m.descriptors := by
    intro ok
    constructor
    · intro hs
      exact hs space (by omega) (by omega) hpass ok
    · intro hs space' _ _ hpass' _
      obtain rfl := Option.some.inj (hpass.symm.trans hpass')
      exact hs
  by_cases hspace : 0 < space
  · rw [if_pos hspace] at hf
    cases halloc : S.vmAllocate with
    | none =>
      rw [halloc] at hf
      obtain rfl := Except.error.inj hf
      refine ⟨fun _ space' _ _ hpass' ok => ?_, fun _ => clean_header S m.header⟩
      obtain rfl := Option.some.inj (hpass.symm.trans hpass')
      exact absurd halloc (ok hspace)
    | some paddr =>
      rw [halloc] at hf
      rw [hsound (by simp [halloc]), (Owes.start hlt hdvd (.inl ⟨rfl, paddr.2⟩)).clean_iff
        (error_of_bind_ok hf)]
      simp
  · rw [if_neg hspace] at hf
    have hzero : space = 0 := by omega
    rw [hsound (fun hpos => absurd hpos hspace),
      (Owes.start hlt hdvd (.inr ⟨rfl, rfl, hzero⟩)).clean_iff (error_of_bind_ok hf)]
    simp

end body

/-- A sender with memory enough, none of whose names can be copied in. -/
def refusingSender : Sender where
  pageShift := 12
  ipcObjectCopyin := fun _ _ => none
  ipcPortCheckCircularity := fun _ _ => false
  vmAllocate := none
  copyin := fun _ => true
  vmMove := fun _ => none
  kalloc := fun _ => 0x30000
  copyinmap := fun _ => true
  lowMemory := fun _ => 0

/-- A message of 40 bytes with one array of names, which it asks to copy send rights of. -/
def arrayMessage (names : List ℕ) : Message where
  header := ⟨0x20000, portNull, portSend, 0, true, false⟩
  address := 0x10000
  msghSize := 40
  descriptorCount := 1
  memory := fun _ => .known (.oolPorts ⟨0x4000, names, false, virtualCopy, copySend⟩)

/-- A sender whose second descriptor is refused at its second name. -/
def takingSender : Sender :=
  { refusingSender with ipcObjectCopyin := fun i j => if i = 1 ∧ j = 1 then none else some 0x20000 }

/-- A port in front of an array of two names. -/
def portAndArrayMessage : Message where
  header := ⟨0x20000, portNull, portSend, 0, true, false⟩
  address := 0x10000
  msghSize := 52
  descriptorCount := 2
  memory i := .known (if i = 0 then .port ⟨0x101, copySend⟩
    else .oolPorts ⟨0x4000, [0x102, 0x103], false, virtualCopy, copySend⟩)

/-- The port and the first slot have been copied in by then, and their rights are destroyed. -/
theorem copyin_body_clean_iff_refused :
    ∃ f, ipcKmsgCopyinBody takingSender portAndArrayMessage = .error f ∧
      f.events.count (.ipcObjectDestroy 0x20000 portSend) = 3 ∧
      (Clean takingSender portAndArrayMessage.header f.events ↔
        Sound takingSender portAndArrayMessage) :=
  ⟨_, rfl, by decide, copyin_body_clean_iff rfl⟩

/-- An array whose first slot is null and whose second name is refused: the null slot is
passed to `ipc_object_destroy`. -/
theorem null_slot_destroyed :
    ∃ f, ipcKmsgCopyinBody refusingSender (arrayMessage [portNull, 0x103]) = .error f ∧
      f.mr = .invalidRight ∧ .ipcObjectDestroy portNull portSend ∈ f.events ∧
      ¬ Clean refusingSender (arrayMessage [portNull, 0x103]).header f.events := by
  refine ⟨_, rfl, rfl, by decide, fun hc => ?_⟩
  have hlen := hc.rights.length_eq
  revert hlen
  decide

end Darwin.Ipc.Kmsg
