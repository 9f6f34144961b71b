import Darwin.Ipc.RightOps

/-! # Taking back a copyin

Two ports of a message die in the wrong order: `ipc_right_copyin_undo` gives the entry the right
back that `ipc_right_copyin` took, as a dead name. A space is locked from the one to the other.
-/
namespace Darwin.Ipc
open Darwin.Lib Function List

/-! ## The undo -/

/-- The bits of an entry become those of a dead name. -/
def Contents.toDeadName (c : Contents) (urefs : ℕ) : Contents :=
  { c with compat := false, marequest := false, type := .deadNameRight, urefs := urefs }

/-- The user reference that a move took; a copy took none. -/
def undoUrefs (name : MachPort) (entry : Contents) (msgtName : MsgType) (limit : ℕ) :
    Kernel Contents :=
  if msgtName = .copySend then pure entry
  else do
    assert (entry.urefs < limit)
    call (.entryStore name { entry with urefs := entry.urefs + 1 })
    pure { entry with urefs := entry.urefs + 1 }

/-- The entry has been left without a right. -/
def undoMoved (name : MachPort) (entry : Contents) (msgtName : MsgType) (urefs : ℕ) : Kernel Unit := do
  assert (msgtName = .moveSend ∨ msgtName = .moveSendOnce)
  assert (entry.type = .none)
  assert (entry.object = 0)
  call (.entryStore name (entry.toDeadName urefs))

def undoEntry (name : MachPort) (entry : Contents) (msgtName : MsgType) (object : CopyinObject)
    (soright : Option ℕ) : Kernel Unit :=
  if soright ≠ none then do
    assert (object ≠ .dead)
    undoMoved name entry msgtName 2
  else if entry.type = .none then undoMoved name entry msgtName 1
  else if entry.type = .deadNameRight then do
    assert (entry.object = 0)
    assert (object = .dead)
    assert (0 < entry.urefs)
    let _ ← undoUrefs name entry msgtName machPortUrefsMax
    pure ()
  else do
    assert (msgtName = .moveSend ∨ msgtName = .copySend)
    assert (entry.type = .sendRight)
    assert (object = .port entry.object)
    assert (0 < entry.urefs)
    let entry ← undoUrefs name entry msgtName (machPortUrefsMax - 1)
    -- the entry becomes a dead name, or goes away if it is a compat entry
    let _ ← ipcRightCheck entry.object name entry
    pure ()

def ipcRightCopyinUndo (name : MachPort) (entry : Contents) (msgtName : MsgType)
    (object : CopyinObject) (soright : Option ℕ) : Kernel Unit := do
  assert (msgtName = .moveSend ∨ msgtName = .copySend ∨ msgtName = .moveSendOnce)
  undoEntry name entry msgtName object soright
  match object with
  | .dead => pure ()
  | .port port => call (.ipRelease port)

/-! ## A space and its ports

What the operations do, one at a time. An operation fails where it would be called on an entry,
a pair of the reverse hash or a reference that is not there. -/

structure SpaceState where
  entries : MachPort → Option Contents
  reverse : ℕ → Option MachPort
  ports : ℕ → Port
  references : ℕ → ℕ
  sent : List Notification
  clock : ℕ

namespace SpaceState

def setEntry (s : SpaceState) (name : MachPort) (c : Option Contents) : SpaceState :=
  { s with entries := update s.entries name c }

def setReverse (s : SpaceState) (port : ℕ) (name : Option MachPort) : SpaceState :=
  { s with reverse := update s.reverse port name }

def setPort (s : SpaceState) (port : ℕ) (p : Port) : SpaceState :=
  { s with ports := update s.ports port p }

def reference (s : SpaceState) (port : ℕ) : SpaceState :=
  { s with references := update s.references port (s.references port + 1) }

def release (s : SpaceState) (port : ℕ) : SpaceState :=
  { s with references := update s.references port (s.references port - 1) }

def send (s : SpaceState) (l : List Notification) : SpaceState := { s with sent := s.sent ++ l }

theorem setEntry_setEntry (s : SpaceState) (name : MachPort) (c c' : Option Contents) :
    (s.setEntry name c).setEntry name c' = s.setEntry name c' := by
  simp [setEntry]

theorem setEntry_self {s : SpaceState} {name : MachPort} {c : Option Contents}
    (h : s.entries name = c) : s.setEntry name c = s := by
  simp [setEntry, ← h]

theorem setEntry_entries (s : SpaceState) (name : MachPort) (c : Option Contents) :
    (s.setEntry name c).entries name = c := by
  simp [setEntry]

def step : (o : KernelOp) → SpaceState → Option (o.Ans × SpaceState)
  | .entryLookup name, s => some (s.entries name, s)
  | .entryGet, s => some (none, s)
  | .entryAllocName _, s => some (none, s)
  | .entryDealloc name, s =>
    if (s.entries name).any (fun c => c.object = 0 ∧ c.request = 0) then some ((), s.setEntry name none)
    else none
  | .entryStore name c, s => if (s.entries name).isSome then some ((), s.setEntry name (some c)) else none
  | .entryGrowTable, s => some (false, s)
  | .hashLookup port, s =>
    some ((s.reverse port).bind (fun name => (s.entries name).map (fun c => (name, c))), s)
  | .hashInsert port name, s => if s.reverse port = none then some ((), s.setReverse port (some name)) else none
  | .hashDelete port name, s => if s.reverse port = some name then some ((), s.setReverse port none) else none
  | .ipLock port, s => some (s.ports port, s)
  | .ipRead port, s => some (s.ports port, s)
  | .ipStore port p, s => some ((), s.setPort port p)
  | .ipReference port, s => some ((), s.reference port)
  | .ipRelease port, s => if 0 < s.references port then some ((), s.release port) else none
  | .portTimestamp, s => some (s.clock, s)
  | .checkCircularity _ _, s => some (false, s)
  | .notify n, s => some ((), s.send [n])

end SpaceState

open SpaceState

/-- The program returns, with this result and in this state. -/
def Returns {α : Type} (p : Kernel α) (s : SpaceState) (a : α) (s' : SpaceState) : Prop :=
  p.eval step s = some (.ok a, s')

section rules
variable {α β : Type} {p : Kernel α} {f : α → Kernel β} {s s₁ s' : SpaceState} {a a' : α} {b : β}
  {name : MachPort} {c : Contents} {port : ℕ} {u : Unit}

theorem Returns.iff (h : Returns p s a s₁) (a' : α) (s' : SpaceState) :
    Returns p s a' s' ↔ a' = a ∧ s' = s₁ := by
  rw [Returns, h, Option.some.injEq, Prod.mk.injEq, Except.ok.injEq]
  exact and_congr eq_comm eq_comm

@[simp] theorem returns_pure : Returns (pure a') s a s' ↔ a = a' ∧ s' = s := by
  simp [Returns, eq_comm]

@[simp] theorem returns_bind : Returns (p >>= f) s b s' ↔ ∃ a s₁, Returns p s a s₁ ∧ Returns (f a) s₁ b s' := by
  rw [Returns, Program.eval_bind]
  cases hp : p.eval step s with
  | none => simp [Returns, hp]
  | some r =>
    obtain ⟨r, s₁⟩ := r
    cases r with
    | error e => simp [Returns, hp]
    | ok a => simp [Returns, hp]

@[simp] theorem returns_fail {e : Assertion} : Returns (Program.fail e : Kernel α) s a s' ↔ False := by
  simp [Returns]

@[simp] theorem returns_assert {x : Bool} : Returns (assert x) s u s' ↔ x = true ∧ s' = s := by
  cases x <;> simp [assert]

@[simp] theorem returns_assertSrights {x : Bool} :
    Returns (assertSrights x) s u s' ↔ x = true ∧ s' = s := by
  cases x <;> simp [assertSrights]

@[simp] theorem returns_assertSorights {x : Bool} :
    Returns (assertSorights x) s u s' ↔ x = true ∧ s' = s := by
  cases x <;> simp [assertSorights]

theorem returns_call {o : KernelOp} {x x₀ : o.Ans} {s₀ : SpaceState}
    (h : step o s = some (x₀, s₀)) : Returns (call o) s x s' ↔ x = x₀ ∧ s' = s₀ := by
  change (step o s).bind (fun r => some (Except.ok r.1, r.2)) = some (.ok x, s') ↔ _
  simp [h, eq_comm]

theorem returns_call_if {o : KernelOp} {x x₀ : o.Ans} {s₀ : SpaceState} {P : Prop} [Decidable P]
    (h : step o s = if P then some (x₀, s₀) else none) :
    Returns (call o) s x s' ↔ P ∧ x = x₀ ∧ s' = s₀ := by
  change (step o s).bind (fun r => some (Except.ok r.1, r.2)) = some (.ok x, s') ↔ _
  by_cases hP : P
  · simp [h, hP, eq_comm]
  · simp [h, hP]

@[simp] theorem returns_entryStore : Returns (α := Unit) (call (.entryStore name c)) s u s' ↔
    (s.entries name).isSome = true ∧ s' = s.setEntry name (some c) :=
  (returns_call_if rfl).trans (by simp)

@[simp] theorem returns_entryDealloc : Returns (α := Unit) (call (.entryDealloc name)) s u s' ↔
    (s.entries name).any (fun c => c.object = 0 ∧ c.request = 0) = true ∧ s' = s.setEntry name none :=
  (returns_call_if rfl).trans (by simp)

@[simp] theorem returns_hashDelete : Returns (α := Unit) (call (.hashDelete port name)) s u s' ↔
    s.reverse port = some name ∧ s' = s.setReverse port none :=
  (returns_call_if rfl).trans (by simp)

@[simp] theorem returns_ipLock {P : Port} : Returns (α := Port) (call (.ipLock port)) s P s' ↔
    P = s.ports port ∧ s' = s := returns_call rfl

@[simp] theorem returns_ipRead {P : Port} : Returns (α := Port) (call (.ipRead port)) s P s' ↔
    P = s.ports port ∧ s' = s := returns_call rfl

@[simp] theorem returns_ipStore {P : Port} : Returns (α := Unit) (call (.ipStore port P)) s u s' ↔
    s' = s.setPort port P := (returns_call rfl).trans (by simp)

@[simp] theorem returns_ipReference : Returns (α := Unit) (call (.ipReference port)) s u s' ↔
    s' = s.reference port := (returns_call rfl).trans (by simp)

@[simp] theorem returns_ipRelease : Returns (α := Unit) (call (.ipRelease port)) s u s' ↔
    0 < s.references port ∧ s' = s.release port := (returns_call_if rfl).trans (by simp)

@[simp] theorem returns_portTimestamp {t : ℕ} : Returns (α := ℕ) (call .portTimestamp) s t s' ↔
    t = s.clock ∧ s' = s := returns_call rfl

@[simp] theorem returns_notify {n : Notification} : Returns (α := Unit) (call (.notify n)) s u s' ↔
    s' = s.send [n] := (returns_call rfl).trans (by simp)

end rules

/-! ## The death of a port -/

/-- The notifications for these elements of a table of dead-name requests. -/
def deadNotices (l : List PortRequest) : List Notification :=
  (l.filter (fun r => r.iprName ≠ machPortSmallest)).map (fun r => .deadName r.notify r.iprName)

/-- What is sent when a port dies. -/
def Port.deathNotices (p : Port) : List Notification :=
  p.ipNsrequest.toList.map .sendOnce ++
    (p.ipDnrequests.map (fun t => deadNotices t.elements.tail)).getD []

namespace SpaceState

/-- The port dies, and the reference goes that its receiver had. -/
def died (s : SpaceState) (port : ℕ) : SpaceState :=
  { s with
    ports := update s.ports port
      { s.ports port with ipActive := false, data := .timestamp s.clock }
    references := update s.references port (s.references port - 1)
    sent := s.sent ++ (s.ports port).deathNotices }

/-- The port dies if it is alive. -/
def dies (s : SpaceState) (port : ℕ) : SpaceState :=
  if (s.ports port).ipActive then s.died port else s

theorem dies_entries (s : SpaceState) (port : ℕ) : (s.dies port).entries = s.entries := by
  rw [dies]
  split
  · rfl
  · rfl

theorem dies_reverse (s : SpaceState) (port : ℕ) : (s.dies port).reverse = s.reverse := by
  rw [dies]
  split
  · rfl
  · rfl

theorem dies_dead (s : SpaceState) (port : ℕ) : ((s.dies port).ports port).ipActive = false := by
  by_cases ha : (s.ports port).ipActive = true
  · simp [dies, died, ha]
  · simp [dies, ha]

end SpaceState

/-- The port of an object dies, if there is one and it is alive. -/
def letDie : CopyinObject → Kernel Unit
  | .dead => pure ()
  | .port port => do
    let p ← call (.ipLock port)
    if p.ipActive then killPort port else pure ()

section death
variable {s : SpaceState} {port : ℕ}

@[simp] theorem returns_notifyDeadNames {l : List PortRequest} {u : Unit} {s' : SpaceState} :
    Returns (notifyDeadNames l) s u s' ↔ s' = s.send (deadNotices l) := by
  induction l generalizing s with
  | nil => simp [notifyDeadNames, deadNotices, send]
  | cons r l ih =>
    by_cases hr : r.iprName = machPortSmallest
    · simp [notifyDeadNames, hr, deadNotices, ih]
    · simp [notifyDeadNames, hr, deadNotices, ih, send]

theorem returns_killPort (href : 0 < s.references port) : Returns (killPort port) s () (s.died port) := by
  cases hns : (s.ports port).ipNsrequest <;> cases hdn : (s.ports port).ipDnrequests <;>
    simp [killPort, hns, hdn, send, setPort, release,
      died, Port.deathNotices, href]

theorem returns_letDie (port : ℕ) (href : (s.ports port).ipActive = true → 0 < s.references port) :
    Returns (letDie (.port port)) s () (s.dies port) := by
  by_cases ha : (s.ports port).ipActive = true
  · simpa [letDie, dies, ha] using returns_killPort (href ha)
  · simp [letDie, dies, ha]

end death

/-! ## The check of a dead port -/

/-- The entry names the port, which is alive or has not yet been found dead, and it has one
reference to the port. While it is alive its receiver has another one. -/
structure HeldPort (s : SpaceState) (name : MachPort) (c : Contents) : Prop where
  entry : s.entries name = some c
  named : name ≠ machPortSmallest
  referenced : 0 < s.references c.object
  received : (s.ports c.object).ipActive = true → 1 < s.references c.object
  request : (s.ports c.object).ipActive = true → c.request ≠ 0 →
    ∃ t so, (s.ports c.object).ipDnrequests = some t ∧ t.Holds c.request name so
  compat : c.compat = true → c.request ≠ 0

/-- The two rights that can be found dead. -/
inductive Sender (s : SpaceState) (name : MachPort) : Contents → Prop where
  | send {c : Contents} : c.type = .sendRight → 0 < c.urefs → c.urefs < machPortUrefsMax →
    s.reverse c.object = some name →
    ((s.ports c.object).ipActive = true → 0 < (s.ports c.object).ipSrights) → Sender s name c
  | sendOnce {c : Contents} : c.type = .sendOnceRight → c.urefs = 1 → c.marequest = false →
    ((s.ports c.object).ipActive = true → 0 < (s.ports c.object).ipSorights) → Sender s name c

/-- The entries that the undo is about. -/
inductive Held (s : SpaceState) (name : MachPort) : Contents → Prop where
  | right {c : Contents} : HeldPort s name c → Sender s name c → Held s name c
  | deadName {urefs : ℕ} : s.entries name = some (.deadName urefs) → 0 < urefs →
    urefs ≤ machPortUrefsMax → Held s name (.deadName urefs)

/-- The dead name that a right turns into, with a user reference for its request. -/
def Contents.asDeadName (c : Contents) : Contents :=
  .deadName (if c.request = 0 then c.urefs else c.urefs + 1)

/-- What the check of a dead port leaves. -/
def SpaceState.checked (s : SpaceState) (name : MachPort) (c : Contents) : SpaceState :=
  { s with
    entries := update s.entries name (if c.compat then none else some c.asDeadName)
    reverse := if c.type.send then update s.reverse c.object none else s.reverse
    references := update s.references c.object (s.references c.object - 1) }

section check
variable {s : SpaceState} {name : MachPort} {c : Contents}

theorem returns_check_dead (hdead : (s.ports c.object).ipActive = false)
    (hsender : Sender s name c) (hentry : (s.entries name).isSome = true)
    (href : 0 < s.references c.object) (hcompat : c.compat = true → c.request ≠ 0) :
    Returns (ipcRightCheck c.object name c) s (if c.compat then .gone else .dead c.asDeadName)
      (s.checked name c) := by
  have hmax : 1 < machPortUrefsMax := by decide
  cases hsender with
  | send htype hpos hlt hrev _ =>
    by_cases hc : c.compat = true
    · simp [ipcRightCheck, hdead, htype, PortType.sendRight, hpos, hrev, href, hc, hcompat hc,
        deallocEntry, hentry, checked, setEntry, setReverse,
        release]
    · simp [ipcRightCheck, hdead, htype, PortType.sendRight, hpos, hrev, href, hc, hlt,
        hentry, checked, setEntry, setReverse,
        release, Contents.asDeadName]
  | sendOnce htype hone hma _ =>
    by_cases hc : c.compat = true
    · simp [ipcRightCheck, hdead, htype, PortType.sendOnceRight, hone, hma, href, hc, hcompat hc,
        deallocEntry, hentry, checked, setEntry, release]
    · simp [ipcRightCheck, hdead, htype, PortType.sendOnceRight, hone, hma, href, hc, hmax,
        hentry, checked, setEntry, release, Contents.asDeadName]

end check

/-! ## The request of the entry

A request that was cancelled is no longer sent when the port dies: the caller of the undo sends it.
-/

theorem deadNotices_append (l l' : List PortRequest) :
    deadNotices (l ++ l') = deadNotices l ++ deadNotices l' := by
  simp [deadNotices]

theorem deadNotices_set {l : List PortRequest} {i : ℕ} (hi : i < l.length) (next : ℕ)
    (hname : l[i].iprName ≠ machPortSmallest) :
    (deadNotices (l.set i ⟨machPortSmallest, next⟩) ++
        [Notification.deadName l[i].notify l[i].iprName]).Perm
      (deadNotices l) := by
  have hsplit : l = l.take i ++ l[i] :: l.drop (i + 1) := by simp
  have hone : deadNotices [l[i]] = [.deadName l[i].notify l[i].iprName] := by
    simp [deadNotices, hname]
  have hfree : deadNotices [⟨machPortSmallest, next⟩] = [] := by simp [deadNotices]
  rw [set_eq_take_append_cons_drop, if_pos hi]
  conv_rhs => rw [hsplit]
  rw [← singleton_append, ← singleton_append (l := l.drop (i + 1)), deadNotices_append,
    deadNotices_append, deadNotices_append, deadNotices_append, hone, hfree, nil_append,
    append_assoc]
  exact perm_append_comm.append_left _

theorem RequestTable.Holds.notices_giveBack {t : RequestTable} {i so : ℕ} {name : MachPort}
    (h : t.Holds i name so) :
    (deadNotices (t.giveBack i).elements.tail ++ [Notification.deadName so name]).Perm
      (deadNotices t.elements.tail) := by
  obtain ⟨hpos, hlt, hname, hr⟩ := h
  obtain ⟨i, rfl⟩ : ∃ k, i = k + 1 := ⟨i - 1, by omega⟩
  obtain ⟨head, l, hl⟩ : ∃ head l, t.elements = head :: l :=
    exists_cons_of_length_pos (by omega)
  have hi : i < l.length := by
    rw [hl] at hlt
    simpa using hlt
  have hel : l[i] = ⟨name, so⟩ := by
    simpa [RequestTable.request, hl, hi] using hr
  have hset : (t.giveBack (i + 1)).elements.tail = l.set i ⟨machPortSmallest, t.iprNext⟩ := by
    simp [RequestTable.giveBack, RequestTable.setNext, RequestTable.put, hl]
  have hperm := deadNotices_set hi t.iprNext (by rw [hel]; exact hname)
  rw [hset]
  simpa [hl, hel] using hperm

/-- What the caller of the undo sends for a request that was cancelled. -/
def sorightNotices (name : MachPort) (soright : Option ℕ) : List Notification :=
  soright.toList.map (fun so => .deadName so name)

section cancel
variable {s : SpaceState} {name : MachPort} {c : Contents}

theorem Port.deathNotices_giveBack {p : Port} {t : RequestTable} (ht : p.ipDnrequests = some t) {i so : ℕ}
    (h : t.Holds i name so) :
    (Port.deathNotices { p with ipDnrequests := some (t.giveBack i) } ++ sorightNotices name (some so)).Perm
      p.deathNotices := by
  rw [Port.deathNotices, Port.deathNotices, ht, append_assoc]
  exact h.notices_giveBack.append_left _

theorem HeldPort.returns_dncancel (h : HeldPort s name c) (ha : (s.ports c.object).ipActive = true) :
    ∃ so P, Returns (ipcRightDncancel c.object name c) s (so, { c with request := 0 })
        ((s.setEntry name (some { c with request := 0 })).setPort c.object P) ∧
      P.ipActive = true ∧
      (c.compat = false → (so = none ↔ c.request = 0) ∧
        (P.deathNotices ++ sorightNotices name so).Perm (s.ports c.object).deathNotices) := by
  by_cases h0 : c.request = 0
  · have hsame : ({ c with request := 0 } : Contents) = c := by rw [← h0]
    refine ⟨none, s.ports c.object, ?_, ha, fun _ => ⟨by simp [h0], ?_⟩⟩
    · simp [ipcRightDncancel, h0, hsame, setEntry, setPort, ← h.entry]
    · simp [sorightNotices]
  · obtain ⟨t, so, ht, hold⟩ := h.request ha h0
    have hr := hold.2.2.2
    refine ⟨if c.compat then none else some so,
      { s.ports c.object with ipDnrequests := some (t.giveBack c.request) }, ?_, ha,
      fun hc => ⟨by simp [hc, h0], ?_⟩⟩
    · simp [ipcRightDncancel, ipcPortDncancel, h0, ha, ht, hr, h.named, h.entry,
        setEntry, setPort]
    · simpa [hc] using Port.deathNotices_giveBack ht hold

end cancel

/-! ## The copyin of a live right -/

/-- The last right of the entry is in the message; the entry is without object and request. -/
def Contents.moved (c : Contents) (urefs : ℕ) : Contents :=
  { c with type := .none, urefs := urefs, object := 0, request := 0 }

namespace SpaceState

/-- A right was copied, and the entry stays. -/
def copied (s : SpaceState) (name : MachPort) (c : Contents) (urefs : ℕ) : SpaceState :=
  { s with
    entries := update s.entries name (some { c with urefs := urefs })
    ports := update s.ports c.object
      { s.ports c.object with ipSrights := (s.ports c.object).ipSrights + 1 }
    references := update s.references c.object (s.references c.object + 1) }

/-- The last right of the entry was moved, and with it the reference of the entry. -/
def takenOut (s : SpaceState) (name : MachPort) (c : Contents) (urefs : ℕ) (p : Port) : SpaceState :=
  { s with
    entries := update s.entries name (some (c.moved urefs))
    reverse := if c.type.send then update s.reverse c.object none else s.reverse
    ports := update s.ports c.object p }

end SpaceState

section copyin
variable {s : SpaceState} {self : ℕ} {name : MachPort} {c : Contents}

theorem returns_check_active (name : MachPort) (ha : (s.ports c.object).ipActive = true) :
    Returns (ipcRightCheck c.object name c) s (.active (s.ports c.object)) s := by
  simp [ipcRightCheck, ha]

theorem HeldPort.returns_copySend (h : HeldPort s name c)
    (ha : (s.ports c.object).ipActive = true) (htype : c.type = .sendRight) (hpos : 0 < c.urefs)
    (hsrights : 0 < (s.ports c.object).ipSrights) :
    Returns (copyinCopySend name c true) s ⟨.ok (.port c.object, none), c⟩ (s.copied name c c.urefs) := by
  have hcheck := (returns_check_active name ha).iff
  have hsend : c.type.send = true := by rw [htype]; rfl
  have hdead : c.type.deadName = false := by rw [htype]; rfl
  have hsame : update s.entries name (some c) = s.entries := by simp [← h.entry]
  simp [copyinCopySend, hsend, hdead, hpos, hcheck, hsrights, copied, hsame,
    setPort, reference]

theorem HeldPort.returns_moveSend (h : HeldPort s name c)
    (ha : (s.ports c.object).ipActive = true) (htype : c.type = .sendRight) (hpos : 1 < c.urefs)
    (hsrights : 0 < (s.ports c.object).ipSrights) :
    Returns (copyinMoveSend self name c true) s
      ⟨.ok (.port c.object, none), { c with urefs := c.urefs - 1 }⟩ (s.copied name c (c.urefs - 1)) := by
  have hcheck := (returns_check_active name ha).iff
  simp [copyinMoveSend, htype, PortType.sendRight, show 0 < c.urefs by omega,
    show c.urefs ≠ 1 by omega, hcheck, hsrights, copied, h.entry, setEntry,
    setPort, reference]

theorem returns_moveLastSend (ha : (s.ports c.object).ipActive = true) (htype : c.type = .sendRight) (hone : c.urefs = 1)
    (hsrights : 0 < (s.ports c.object).ipSrights) (hrev : s.reverse c.object = some name)
    {so : Option ℕ} {p : Port}
    (hcancel : Returns (ipcRightDncancel c.object name c) s (so, { c with request := 0 })
        ((s.setEntry name (some { c with request := 0 })).setPort c.object p)) :
    Returns (copyinMoveSend self name c true) s ⟨.ok (.port c.object, so), c.moved 0⟩
      (s.takenOut name c 0 p) := by
  have hcheck := (returns_check_active name ha).iff
  have hcancel' := hcancel.iff
  have htype' : PortType.sendRight.send = true := rfl
  simp [copyinMoveSend, moveLastSend, htype, PortType.sendRight, hone, hcheck, hsrights, hcancel',
    hrev, takenOut, setEntry, setPort, setReverse,
    Contents.clearSend, Contents.moved, PortType.none]

theorem returns_moveSendOnce (ha : (s.ports c.object).ipActive = true) (htype : c.type = .sendOnceRight) (hone : c.urefs = 1)
    (hma : c.marequest = false) (hsorights : 0 < (s.ports c.object).ipSorights)
    {so : Option ℕ} {p : Port}
    (hcancel : Returns (ipcRightDncancel c.object name c) s (so, { c with request := 0 })
        ((s.setEntry name (some { c with request := 0 })).setPort c.object p)) :
    Returns (copyinMoveSendOnce name c true) s ⟨.ok (.port c.object, so), c.moved 1⟩
      (s.takenOut name c 1 p) := by
  have hcheck := (returns_check_active name ha).iff
  have hcancel' := hcancel.iff
  simp [copyinMoveSendOnce, htype, PortType.sendOnceRight, hone, hma, hcheck, hsorights, hcancel',
    takenOut, setEntry, setPort, Contents.moved, PortType.none]

end copyin

/-! ## The undo of a copyin -/

/-- The ports of the message die, and the entry gets its right back. -/
def takeBack (name : MachPort) (entry : Contents) (msgtName : MsgType) (object : CopyinObject)
    (soright : Option ℕ) : Kernel Unit := do
  letDie object
  ipcRightCopyinUndo name entry msgtName object soright

/-- The port of the entry dies, and the entry is checked. -/
def settle (name : MachPort) (c : Contents) : Kernel Unit :=
  if c.type = .deadNameRight then pure ()
  else do
    letDie (.port c.object)
    let _ ← ipcRightCheck c.object name c
    pure ()

/-- The dead name that is left when one of its user references is moved. -/
def Contents.movedDead (urefs : ℕ) : Contents :=
  if urefs = 1 then { Contents.deadName 1 with type := .none } else .deadName (urefs - 1)

section dead
variable {s : SpaceState} {self : ℕ} {name : MachPort} {urefs : ℕ} {msgtName : MsgType}

theorem returns_copyDead (hpos : 0 < urefs) :
    Returns (copyDead true (.deadName urefs)) s ⟨.ok (.dead, none), .deadName urefs⟩ s := by
  simp [copyDead, assertDead, Contents.deadName, hpos]

theorem returns_moveDead (hentry : s.entries name = some (.deadName urefs)) (hpos : 0 < urefs) :
    Returns (moveDead true name (.deadName urefs)) s
      ⟨.ok (.dead, none), Contents.movedDead urefs⟩ (s.setEntry name (some (Contents.movedDead urefs))) := by
  by_cases hone : urefs = 1
  · simp [moveDead, assertDead, Contents.movedDead, Contents.deadName, hone, hentry, PortType.none,
      PortType.deadNameRight]
  · simp [moveDead, assertDead, Contents.movedDead, Contents.deadName, hone, hentry, hpos]

theorem returns_takeBack_copyDead (hpos : 0 < urefs) :
    Returns (takeBack name (.deadName urefs) .copySend .dead none) s () s := by
  simp [takeBack, letDie, ipcRightCopyinUndo, undoEntry, undoUrefs, Contents.deadName,
    PortType.deadNameRight, PortType.none, hpos]

theorem returns_takeBack_moveDead (hentry : s.entries name = some (.deadName urefs))
    (hpos : 0 < urefs) (hmax : urefs ≤ machPortUrefsMax)
    (hmsgt : msgtName = .moveSend ∨ msgtName = .moveSendOnce) :
    Returns (takeBack name (Contents.movedDead urefs) msgtName .dead none)
      (s.setEntry name (some (Contents.movedDead urefs))) () s := by
  have hsame := setEntry_self hentry
  have hne : msgtName ≠ .copySend := by rcases hmsgt with rfl | rfl <;> simp
  have hany : msgtName = .moveSend ∨ msgtName = .copySend ∨ msgtName = .moveSendOnce :=
    hmsgt.imp_right .inr
  rw [Contents.deadName] at hsame
  by_cases hone : urefs = 1
  · subst hone
    simp [takeBack, letDie, ipcRightCopyinUndo, undoEntry, undoMoved, Contents.movedDead,
      Contents.deadName, Contents.toDeadName, hmsgt, hany, setEntry_entries,
      setEntry_setEntry, hsame]
  · have hle : 1 ≤ urefs := hpos
    have hlt : urefs - 1 < machPortUrefsMax := by omega
    have htype : PortType.deadNameRight ≠ PortType.none := by decide
    simp [takeBack, letDie, ipcRightCopyinUndo, undoEntry, undoUrefs, Contents.movedDead,
      Contents.deadName, htype, hmsgt, hne, hone, hlt, show 1 < urefs by omega,
      Nat.sub_add_cancel hle, setEntry_entries, setEntry_setEntry, hsame]

theorem deadName_takeBack (self : ℕ) (hentry : s.entries name = some (.deadName urefs)) (hpos : 0 < urefs)
    (hmax : urefs ≤ machPortUrefsMax)
    (hmsgt : msgtName = .copySend ∨ msgtName = .moveSend ∨ msgtName = .moveSendOnce) :
    ∃ entry s₁, Returns (ipcRightCopyin self name (.deadName urefs) true msgtName) s
        ⟨.ok (.dead, none), entry⟩ s₁ ∧
      Returns (takeBack name entry msgtName .dead none) s₁ () s := by
  rcases hmsgt with rfl | hmove
  · exact ⟨_, _, returns_copyDead hpos, returns_takeBack_copyDead hpos⟩
  · refine ⟨_, _, ?_, returns_takeBack_moveDead hentry hpos hmax hmove⟩
    rcases hmove with rfl | rfl
    · exact returns_moveDead hentry hpos
    · exact returns_moveDead hentry hpos

end dead

section settle
variable {s : SpaceState} {name : MachPort} {c : Contents}

theorem Sender.of_dead (h : Sender s name c) {s' : SpaceState} (hrev : s'.reverse = s.reverse)
    (hdead : (s'.ports c.object).ipActive = false) : Sender s' name c := by
  cases h with
  | send htype hpos hlt hr _ => exact .send htype hpos hlt (by rw [hrev]; exact hr) (by simp [hdead])
  | sendOnce htype hone hma _ => exact .sendOnce htype hone hma (by simp [hdead])

theorem Sender.of_sendRight (h : Sender s name c) (htype : c.type = .sendRight) : 0 < c.urefs ∧
    c.urefs < machPortUrefsMax ∧ s.reverse c.object = some name ∧
    ((s.ports c.object).ipActive = true → 0 < (s.ports c.object).ipSrights) := by
  cases h with
  | send _ hpos hlt hrev hsrights => exact ⟨hpos, hlt, hrev, hsrights⟩
  | sendOnce honce =>
    rw [htype] at honce
    exact absurd honce (by decide)

theorem Sender.of_sendOnceRight (h : Sender s name c) (htype : c.type = .sendOnceRight) :
    c.urefs = 1 ∧ c.marequest = false ∧
    ((s.ports c.object).ipActive = true → 0 < (s.ports c.object).ipSorights) := by
  cases h with
  | send hsend =>
    rw [htype] at hsend
    exact absurd hsend (by decide)
  | sendOnce _ hone hma hsorights => exact ⟨hone, hma, hsorights⟩

theorem Sender.type_ne (h : Sender s name c) : c.type ≠ .deadNameRight := by
  cases h with
  | send htype => rw [htype]; decide
  | sendOnce htype => rw [htype]; decide

theorem HeldPort.dies_referenced (h : HeldPort s name c) : 0 < (s.dies c.object).references c.object := by
  by_cases ha : (s.ports c.object).ipActive = true
  · have hrefs : 1 < s.references c.object := h.received ha
    simp only [dies, died, ha, if_true, update_self]
    omega
  · simpa [dies, ha] using h.referenced

theorem HeldPort.returns_settle (h : HeldPort s name c) (hsender : Sender s name c) :
    Returns (settle name c) s () ((s.dies c.object).checked name c) := by
  have hdie := returns_letDie c.object (fun ha => (Nat.zero_lt_one.trans (h.received ha)))
  have hentry : ((s.dies c.object).entries name).isSome = true := by
    simp [dies_entries, h.entry]
  have hcheck := returns_check_dead (s.dies_dead c.object)
    (hsender.of_dead (s.dies_reverse c.object) (s.dies_dead c.object)) hentry h.dies_referenced h.compat
  simp only [settle, hsender.type_ne, if_false, returns_bind, returns_pure]
  exact ⟨(), _, hdie, _, _, hcheck, trivial, rfl⟩

theorem returns_undo_moved (name : MachPort) (urefs : ℕ)
    (hentry : (s.entries name).isSome = true) (href : 0 < s.references c.object) {msgtName : MsgType}
    (hmsgt : msgtName = .moveSend ∨ msgtName = .moveSendOnce) (so : Option ℕ) :
    Returns (ipcRightCopyinUndo name (c.moved urefs) msgtName (.port c.object) so) s ()
      ((s.setEntry name (some (.deadName (if so = none then 1 else 2)))).release c.object) := by
  have hany : msgtName = .moveSend ∨ msgtName = .copySend ∨ msgtName = .moveSendOnce :=
    hmsgt.imp_right .inr
  cases so with
  | none =>
    simp [ipcRightCopyinUndo, undoEntry, undoMoved, hmsgt, hany, Contents.moved,
      Contents.toDeadName, Contents.deadName, hentry, setEntry, href]
  | some so =>
    simp [ipcRightCopyinUndo, undoEntry, undoMoved, hmsgt, hany, Contents.moved,
      Contents.toDeadName, Contents.deadName, hentry, setEntry, href]

theorem returns_undo_copied (name : MachPort) (hdead : (s.ports c.object).ipActive = false)
    (htype : c.type = .sendRight) (hpos : 0 < c.urefs) (hsender : Sender s name c)
    (hentry : (s.entries name).isSome = true) (href : 1 < s.references c.object)
    (hcompat : c.compat = true → c.request ≠ 0) :
    Returns (ipcRightCopyinUndo name c .copySend (.port c.object) none) s ()
      ((s.checked name c).release c.object) := by
  have hcheck := returns_check_dead hdead hsender hentry (Nat.zero_lt_one.trans href) hcompat
  have hcheck' := hcheck.iff
  simp [ipcRightCopyinUndo, undoEntry, undoUrefs, htype, PortType.sendRight, PortType.none,
    PortType.deadNameRight, hpos, hcheck', checked, href]

theorem returns_undo_movedOne (name : MachPort) (hdead : (s.ports c.object).ipActive = false)
    (htype : c.type = .sendRight) (hmany : 1 < c.urefs) (hmax : c.urefs < machPortUrefsMax)
    (hsender : Sender (s.setEntry name (some c)) name c) (hentry : (s.entries name).isSome = true)
    (href : 1 < s.references c.object) (hcompat : c.compat = true → c.request ≠ 0) :
    Returns (ipcRightCopyinUndo name { c with urefs := c.urefs - 1 } .moveSend (.port c.object) none)
      s () ((s.checked name c).release c.object) := by
  have hsame : ({ c with urefs := c.urefs - 1 + 1 } : Contents) = c := by
    rw [Nat.sub_add_cancel hmany.le]
  have hcheck := returns_check_dead (s := s.setEntry name (some c)) hdead hsender
    (by simp [setEntry]) (Nat.zero_lt_one.trans href) hcompat
  rw [show (s.setEntry name (some c)).checked name c = s.checked name c by
    simp [checked, setEntry]] at hcheck
  have hcheck' := hcheck.iff
  have href' : 0 < (s.checked name c).references c.object := by simp [checked, href]
  have hsend : (c.type = .sendRight) = True := eq_true htype
  have hnone : c.type ≠ .none := by rw [htype]; decide
  have hname : c.type ≠ .deadNameRight := by rw [htype]; decide
  have hlt : c.urefs - 1 < machPortUrefsMax - 1 := by omega
  simp [ipcRightCopyinUndo, undoEntry, undoUrefs, hnone, hname, hsend, hmany, hlt, hsame, hentry,
    hcheck', href']

end settle

/-! ## Both orders -/

/-- The copyin finds a right that it can take. A dead right of a compat entry is refused: the name
is not valid any more. -/
inductive Fits (s : SpaceState) : Contents → MsgType → Prop where
  | copySend {c : Contents} : (s.ports c.object).ipActive = true → c.type = .sendRight → Fits s c .copySend
  | moveSend {c : Contents} : (s.ports c.object).ipActive = true → c.type = .sendRight → Fits s c .moveSend
  | moveSendOnce {c : Contents} : (s.ports c.object).ipActive = true → c.type = .sendOnceRight →
    Fits s c .moveSendOnce
  | dead {c : Contents} {msgtName : MsgType} : (s.ports c.object).ipActive = false →
    c.compat = false → msgtName = .copySend ∨ msgtName = .moveSend ∨ msgtName = .moveSendOnce →
    Fits s c msgtName
  | deadName {urefs : ℕ} {msgtName : MsgType} :
    msgtName = .copySend ∨ msgtName = .moveSend ∨ msgtName = .moveSendOnce →
    Fits s (.deadName urefs) msgtName

/-- The last right of a compat entry is moved while its port lives. -/
def CompatMoved (s : SpaceState) (c : Contents) (msgtName : MsgType) : Prop :=
  c.compat = true ∧ (s.ports c.object).ipActive = true ∧ msgtName ≠ .copySend ∧ c.urefs = 1

/-- The undo has led to the same entries, hash and references as the check; each request was sent
once, the one of the send-once right by the caller. -/
structure Restored (name : MachPort) (soright : Option ℕ) (undone settled : SpaceState) : Prop where
  entries : undone.entries = settled.entries
  reverse : undone.reverse = settled.reverse
  references : undone.references = settled.references
  accounted : (undone.sent ++ sorightNotices name soright).Perm settled.sent

section orders
variable {s : SpaceState} {self : ℕ} {name : MachPort} {c : Contents} {msgtName : MsgType}

theorem Restored.refl (s : SpaceState) : Restored name none s s :=
  ⟨rfl, rfl, rfl, by simp [sorightNotices]⟩

theorem Sender.asDeadName (h : Sender s name c) : 0 < c.asDeadName.urefs ∧
    c.asDeadName.urefs ≤ machPortUrefsMax := by
  have hmax : 2 ≤ machPortUrefsMax := by decide
  cases h with
  | send _ hpos hlt =>
    rw [Contents.asDeadName, Contents.deadName]
    dsimp only
    split <;> omega
  | sendOnce _ hone =>
    rw [Contents.asDeadName, Contents.deadName]
    dsimp only
    split <;> omega

theorem HeldPort.undo_moved (h : HeldPort s name c) (hsender : Sender s name c)
    (ha : (s.ports c.object).ipActive = true) (hone : c.urefs = 1)
    (urefs : ℕ) (hmsgt : msgtName = .moveSend ∨ msgtName = .moveSendOnce) {so : Option ℕ} {p : Port}
    (hp : p.ipActive = true)
    (hperm : c.compat = false → (so = none ↔ c.request = 0) ∧
      (p.deathNotices ++ sorightNotices name so).Perm (s.ports c.object).deathNotices) :
    ∃ s₂ s₃, Returns (takeBack name (c.moved urefs) msgtName (.port c.object) so)
        (s.takenOut name c urefs p) () s₂ ∧
      Returns (settle name c) s () s₃ ∧ (Restored name so s₂ s₃ ↔ c.compat = false) := by
  have hrefs : 1 < s.references c.object := h.received ha
  have hports : ((s.takenOut name c urefs p).ports c.object).ipActive = true := by
    simpa [takenOut] using hp
  have hdie := returns_letDie (s := s.takenOut name c urefs p) c.object
    (fun _ => Nat.zero_lt_one.trans hrefs)
  rw [dies, if_pos hports] at hdie
  have hundo := returns_undo_moved (s := (s.takenOut name c urefs p).died c.object) (c := c)
    name urefs (by simp [died, takenOut])
    (by simp [died, takenOut, hrefs]) hmsgt so
  refine ⟨_, _, returns_bind.mpr ⟨(), _, hdie, hundo⟩, h.returns_settle hsender, ?_⟩
  rw [dies, if_pos ha]
  constructor
  · intro hr
    have hentries := congrFun hr.entries name
    by_contra hc
    simp [release, setEntry, checked, hc] at hentries
  · intro hc
    obtain ⟨hreq, hperm⟩ := hperm hc
    have hdead : Contents.deadName (if so = none then 1 else 2) = c.asDeadName := by
      by_cases h0 : c.request = 0
      · simp [Contents.asDeadName, hreq.mpr h0, h0, hone]
      · simp [Contents.asDeadName, mt hreq.mp h0, h0, hone]
    refine ⟨?_, rfl, ?_, ?_⟩
    · simp [release, setEntry, checked, died,
        takenOut, hdead, hc]
    · simp [release, setEntry, checked, died,
        takenOut]
    · have hsent : (s.takenOut name c urefs p).sent ++ p.deathNotices ++ sorightNotices name so =
          s.sent ++ (p.deathNotices ++ sorightNotices name so) := append_assoc _ _ _
      simp only [release, setEntry, checked, died]
      rw [show (s.takenOut name c urefs p).ports c.object = p by simp [takenOut], hsent]
      exact hperm.append_left _

theorem HeldPort.undo_copied (h : HeldPort s name c) (hsender : Sender s name c)
    (ha : (s.ports c.object).ipActive = true) {urefs : ℕ}
    (hundo : Returns (ipcRightCopyinUndo name { c with urefs := urefs } msgtName (.port c.object) none)
      ((s.copied name c urefs).died c.object) ()
      ((((s.copied name c urefs).died c.object).checked name c).release c.object)) :
    ∃ s₂ s₃, Returns (takeBack name { c with urefs := urefs } msgtName (.port c.object) none)
        (s.copied name c urefs) () s₂ ∧
      Returns (settle name c) s () s₃ ∧ Restored name none s₂ s₃ := by
  have hports : ((s.copied name c urefs).ports c.object).ipActive = true := by
    simpa [copied] using ha
  have hdie := returns_letDie (s := s.copied name c urefs) c.object
    (fun _ => by simp [copied])
  rw [dies, if_pos hports] at hdie
  refine ⟨_, _, returns_bind.mpr ⟨(), _, hdie, hundo⟩, h.returns_settle hsender, ?_⟩
  rw [dies, if_pos ha]
  refine ⟨?_, rfl, ?_, ?_⟩
  · simp [release, checked, died, copied]
  · simp [release, checked, died, copied]
  · simp [release, checked, died, copied, sorightNotices,
      Port.deathNotices]

theorem Fits.disposition (h : Fits s c msgtName) :
    msgtName = .copySend ∨ msgtName = .moveSend ∨ msgtName = .moveSendOnce := by
  cases h with
  | copySend => exact .inl rfl
  | moveSend => exact .inr (.inl rfl)
  | moveSendOnce => exact .inr (.inr rfl)
  | dead _ _ hmsgt => exact hmsgt
  | deadName hmsgt => exact hmsgt

theorem HeldPort.returns_copyin_dead (h : HeldPort s name c) (hsender : Sender s name c)
    (hdead : (s.ports c.object).ipActive = false) (hc : c.compat = false)
    (hmsgt : msgtName = .copySend ∨ msgtName = .moveSend ∨ msgtName = .moveSendOnce) {r : Copyin}
    {s₁ : SpaceState}
    (hcopyin : Returns (ipcRightCopyin self name c.asDeadName true msgtName) (s.checked name c) r s₁) :
    Returns (ipcRightCopyin self name c true msgtName) s r s₁ := by
  have hcheck := returns_check_dead hdead hsender (by simp [h.entry]) h.referenced h.compat
  have hcheck' := hcheck.iff
  have hpos : 0 < c.urefs ∧ c.type.deadName = false ∧
      (c.type.send || c.type.sendOnce) = true := by
    cases hsender with
    | send htype hpos => exact ⟨hpos, by rw [htype]; rfl, by rw [htype]; rfl⟩
    | sendOnce htype hone => exact ⟨by omega, by rw [htype]; rfl, by rw [htype]; rfl⟩
  obtain ⟨hpos, hname, hsend⟩ := hpos
  have htype : c.asDeadName.type.deadName = true := rfl
  rcases hmsgt with rfl | rfl | rfl
  · simpa [ipcRightCopyin, copyinCopySend, hname, hsend, hpos, hcheck', hc, htype] using hcopyin
  · simpa [ipcRightCopyin, copyinMoveSend, hname, hsend, hpos, hcheck', hc, htype] using hcopyin
  · simpa [ipcRightCopyin, copyinMoveSendOnce, hname, hsend, hpos, hcheck', hc, htype] using hcopyin

/-- The copyin takes a right that fits. Then the port dies and the copyin is undone: this comes to
the same as the death and one check of the entry, unless the last right of a compat entry was moved. -/
theorem copyin_undo_iff (h : Held s name c) (hfit : Fits s c msgtName) :
    ∃ r object soright s₁ s₂ s₃, Returns (ipcRightCopyin self name c true msgtName) s r s₁ ∧
      r.result = .ok (object, soright) ∧
      Returns (takeBack name r.entry msgtName object soright) s₁ () s₂ ∧
      Returns (settle name c) s () s₃ ∧
      (Restored name soright s₂ s₃ ↔ ¬ CompatMoved s c msgtName) := by
  cases h with
  | @deadName urefs hentry hpos hmax =>
    obtain ⟨entry, s₁, hcopyin, hundo⟩ :=
      deadName_takeBack self hentry hpos hmax hfit.disposition
    have hsettle : Returns (settle name (.deadName urefs)) s () s := by
      simp [settle, Contents.deadName]
    have hnot : ¬ CompatMoved s (.deadName urefs) msgtName := by
      simp [CompatMoved, Contents.deadName]
    exact ⟨_, _, _, _, _, _, hcopyin, rfl, hundo, hsettle, iff_of_true (.refl s) hnot⟩
  | right h hsender =>
    cases hfit with
    | copySend ha htype =>
      obtain ⟨hpos, -, -, hsrights⟩ := hsender.of_sendRight htype
      have hundo := returns_undo_copied (s := (s.copied name c c.urefs).died c.object) name
        (by simp [died]) htype hpos (hsender.of_dead rfl (by simp [died]))
        (by simp [died, copied])
        (by simpa [died, copied] using h.received ha) h.compat
      obtain ⟨s₂, s₃, hback, hsettle, hsame⟩ := h.undo_copied hsender ha hundo
      have hnot : ¬ CompatMoved s c .copySend := by simp [CompatMoved]
      exact ⟨_, _, _, _, s₂, s₃, h.returns_copySend ha htype hpos (hsrights ha), rfl, hback, hsettle,
        iff_of_true hsame hnot⟩
    | moveSend ha htype =>
      obtain ⟨hpos, hlt, hrev, hsrights⟩ := hsender.of_sendRight htype
      by_cases hone : c.urefs = 1
      · obtain ⟨so, p, hcancel, hp, hperm⟩ := h.returns_dncancel ha
        obtain ⟨s₂, s₃, hback, hsettle, hiff⟩ := h.undo_moved hsender ha hone 0
          (show MsgType.moveSend = .moveSend ∨ _ from .inl rfl) hp hperm
        have hmoved : CompatMoved s c .moveSend ↔ c.compat = true := by simp [CompatMoved, ha, hone]
        refine ⟨_, _, _, _, s₂, s₃, returns_moveLastSend ha htype hone (hsrights ha) hrev hcancel, rfl,
          hback, hsettle, ?_⟩
        rw [hiff, hmoved, Bool.not_eq_true]
      · have hmany : 1 < c.urefs := by omega
        have hundo := returns_undo_movedOne (s := (s.copied name c (c.urefs - 1)).died c.object)
          name (by simp [died]) htype hmany hlt
          (hsender.of_dead rfl (by simp [died, setEntry]))
          (by simp [died, copied])
          (by simpa [died, copied] using h.received ha) h.compat
        obtain ⟨s₂, s₃, hback, hsettle, hsame⟩ := h.undo_copied hsender ha hundo
        have hnot : ¬ CompatMoved s c .moveSend := by simp [CompatMoved, hone]
        exact ⟨_, _, _, _, s₂, s₃, h.returns_moveSend ha htype hmany (hsrights ha), rfl, hback, hsettle,
          iff_of_true hsame hnot⟩
    | moveSendOnce ha htype =>
      obtain ⟨hone, hma, hsorights⟩ := hsender.of_sendOnceRight htype
      obtain ⟨so, p, hcancel, hp, hperm⟩ := h.returns_dncancel ha
      obtain ⟨s₂, s₃, hback, hsettle, hiff⟩ := h.undo_moved hsender ha hone 1
        (show _ ∨ MsgType.moveSendOnce = .moveSendOnce from .inr rfl) hp hperm
      have hmoved : CompatMoved s c .moveSendOnce ↔ c.compat = true := by simp [CompatMoved, ha, hone]
      refine ⟨_, _, _, _, s₂, s₃, returns_moveSendOnce ha htype hone hma (hsorights ha) hcancel, rfl,
        hback, hsettle, ?_⟩
      rw [hiff, hmoved, Bool.not_eq_true]
    | dead hdead hc hmsgt =>
      have hentry : (s.checked name c).entries name = some c.asDeadName := by
        simp [checked, hc]
      obtain ⟨hpos, hle⟩ := hsender.asDeadName
      obtain ⟨entry, s₁, hcopyin, hundo⟩ := deadName_takeBack self hentry hpos hle hmsgt
      have hsettle := h.returns_settle hsender
      rw [dies, if_neg (by simp [hdead])] at hsettle
      have hnot : ¬ CompatMoved s c msgtName := by simp [CompatMoved, hdead]
      exact ⟨_, _, _, _, _, _, h.returns_copyin_dead hsender hdead hc hmsgt hcopyin, rfl, hundo,
        hsettle, iff_of_true (.refl _) hnot⟩
    | deadName => exact absurd rfl hsender.type_ne

end orders

/-- A send right for port 7 under the name 3, with a request in element 1. -/
def oneEntry (compat : Bool) : Contents := ⟨compat, false, .sendRight, 1, 7, 1⟩

def oneRight (compat : Bool) : SpaceState where
  entries := fun name => if name = machPortMake 0 3 then some (oneEntry compat) else none
  reverse := fun port => if port = 7 then some (machPortMake 0 3) else none
  ports := fun _ => ⟨true, .receiver 1, machPortMake 0 5, 0, 1, 0, none, none,
    some ⟨4096, 0, [⟨machPortSmallest, 0⟩, ⟨machPortMake 0 3, 9⟩]⟩⟩
  references := fun _ => 2
  sent := []
  clock := 0

theorem oneRight_heldPort (compat : Bool) : HeldPort (oneRight compat) 3 (oneEntry compat) where
  entry := rfl
  named := by decide
  referenced := Nat.two_pos
  received := fun _ => Nat.one_lt_two
  request := fun _ _ => ⟨_, 9, rfl, Nat.one_pos, Nat.one_lt_two, by decide, rfl⟩
  compat := fun _ => by simp [oneEntry]

theorem oneRight_sender (compat : Bool) : Sender (oneRight compat) 3 (oneEntry compat) :=
  .send rfl Nat.one_pos (by simp [oneEntry, machPortUrefsMax]) rfl (fun _ => Nat.one_pos)

theorem copyin_undo_iff_oneRight : ∃ r object soright s₁ s₂ s₃,
    Returns (ipcRightCopyin 2 3 (oneEntry false) true .moveSend) (oneRight false) r s₁ ∧
      r.result = .ok (object, soright) ∧
      Returns (takeBack 3 r.entry .moveSend object soright) s₁ () s₂ ∧
      Returns (settle 3 (oneEntry false)) (oneRight false) () s₃ ∧
      (Restored 3 soright s₂ s₃ ↔ ¬ CompatMoved (oneRight false) (oneEntry false) .moveSend) :=
  copyin_undo_iff (.right (oneRight_heldPort false) (oneRight_sender false)) (.moveSend rfl rfl)

/-- The compat entry is a dead name after the undo; the check would have removed it. -/
theorem compat_entry_stays : Held (oneRight true) 3 (oneEntry true) ∧
    Fits (oneRight true) (oneEntry true) .moveSend ∧
    ∃ r object soright s₁ s₂ s₃,
      Returns (ipcRightCopyin 2 3 (oneEntry true) true .moveSend) (oneRight true) r s₁ ∧
      r.result = .ok (object, soright) ∧
      Returns (takeBack 3 r.entry .moveSend object soright) s₁ () s₂ ∧
      Returns (settle 3 (oneEntry true)) (oneRight true) () s₃ ∧
      ¬ Restored 3 soright s₂ s₃ := by
  have h := oneRight_heldPort true
  have hsender := oneRight_sender true
  obtain ⟨so, p, hcancel, hp, hperm⟩ := h.returns_dncancel rfl
  obtain ⟨s₂, s₃, hback, hsettle, hiff⟩ := h.undo_moved hsender rfl rfl 0
    (show MsgType.moveSend = .moveSend ∨ _ from .inl rfl) hp hperm
  refine ⟨.right h hsender, .moveSend rfl rfl, _, _, _, _, s₂, s₃,
    returns_moveLastSend rfl rfl rfl (by decide) rfl hcancel, rfl, hback, hsettle, ?_⟩
  rw [hiff]
  decide

end Darwin.Ipc
