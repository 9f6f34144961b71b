import Darwin.Ipc.Right
import Darwin.Lib.Chain
import Darwin.Lib.Run

/-! # Ports in transit

A port whose receive right is in a message has the port that the message goes to as its
destination. `ipc_port_check_circularity` keeps the destinations from going round.
-/
namespace Darwin.Ipc
open Darwin.Lib Darwin.Lib.Chain Function Option

abbrev Ports := ℕ → Port

/-! ## The check -/

/-- `ip_destination`; `none` when the union holds something else. -/
def Port.ipDestination (p : Port) : Option (Option ℕ) :=
  match p.data with
  | .destination dest => some dest
  | _ => none

/-- The destination of a port that is in transit. -/
def Port.transit (p : Port) : Option (Option ℕ) :=
  if p.ipActive = false ∨ p.ipReceiverName ≠ machPortSmallest then some none else p.ipDestination

def Port.inLimbo (p : Port) : Bool :=
  p.ipActive ∧ p.ipReceiverName = machPortSmallest ∧ p.ipDestination = some none

/-- The search for the end of the chain. -/
def seekBase (ports : Ports) : ℕ → ℕ → Option ℕ
  | 0, _ => none
  | fuel + 1, base =>
    match (ports base).transit with
    | none => none
    | some none => some base
    | some (some dest) => seekBase ports fuel dest

/-- The loop that unlocks the chain when it is circular. -/
def unlockCircle (ports : Ports) : ℕ → Option ℕ → Option Unit
  | 0, _ => none
  | _ + 1, none => some ()
  | fuel + 1, some dest =>
    if (ports dest).ipActive ∧ (ports dest).ipReceiverName = machPortSmallest then
      (ports dest).ipDestination.bind (unlockCircle ports fuel)
    else none

/-- The loop that unlocks the chain from `port` to `base`. -/
def unlockChain (ports : Ports) (base : ℕ) : ℕ → ℕ → Option Unit
  | 0, _ => none
  | fuel + 1, port =>
    if port = base then
      if (ports base).transit = some none then some () else none
    else if (ports port).ipActive ∧ (ports port).ipReceiverName = machPortSmallest then
      match (ports port).ipDestination with
      | some (some dest) => unlockChain ports base fuel dest
      | _ => none
    else none

/-- The label `not_circular`. -/
def notCircular (fuel : ℕ) (ports : Ports) (port dest base : ℕ) : Option (Bool × Ports) :=
  if (ports port).inLimbo then
    let ports := update ports port { ports port with data := .destination (some dest) }
    (unlockChain ports base fuel port).map (fun _ => (false, ports))
  else none

/-- The part of the check that locks the whole chain. -/
def checkChain (fuel : ℕ) (ports : Ports) (port dest : ℕ) : Option (Bool × Ports) :=
  (seekBase ports fuel dest).bind (fun base =>
    if port = base then
      if (ports port).inLimbo then
        (unlockCircle ports fuel (some dest)).map (fun _ => (true, ports))
      else none
    else notCircular fuel ports port dest base)

/-- `ipc_port_check_circularity`. `lockTry` says whether `ip_lock_try` gets the lock. -/
def ipcPortCheckCircularity (fuel : ℕ) (lockTry : Bool) (ports : Ports) (port dest : ℕ) :
    Option (Bool × Ports) :=
  if port = dest then some (true, ports)
  else
    (if lockTry then (ports dest).transit.map Option.isNone else some false).bind (fun quick =>
      if quick then notCircular fuel ports port dest dest else checkChain fuel ports port dest)

/-! ## The chain of a port -/

/-- The links of the ports in transit. -/
def Ports.next (ports : Ports) (port : ℕ) : Option ℕ := (ports port).transit.join

/-- The destinations of the ports in transit do not go round. -/
structure TransitOk (ports : Ports) : Prop where
  union : ∀ port, (ports port).transit ≠ none
  acyclic : Acyclic ports.next
  finite : {port | ports.next port ≠ none}.Finite

section chain
variable {ports : Ports} {port dest base fuel : ℕ}

theorem TransitOk.transit (h : TransitOk ports) (port : ℕ) :
    (ports port).transit = some (ports.next port) := by
  obtain ⟨t, ht⟩ := ne_none_iff_exists'.mp (h.union port)
  rw [Ports.next, ht, join_some]

theorem inLimbo_iff : (ports port).inLimbo = true ↔ (ports port).ipActive = true ∧
    (ports port).ipReceiverName = machPortSmallest ∧ (ports port).ipDestination = some none := by
  simp [Port.inLimbo]

theorem next_of_limbo (h : (ports port).inLimbo = true) : ports.next port = none := by
  obtain ⟨hactive, hname, hdest⟩ := inLimbo_iff.mp h
  simp [Ports.next, Port.transit, hactive, hname, hdest]

theorem transit_of_next (h : ports.next port = some dest) : (ports port).ipActive = true ∧
    (ports port).ipReceiverName = machPortSmallest ∧
      (ports port).ipDestination = some (some dest) := by
  rw [Ports.next, Port.transit] at h
  split_ifs at h with hout
  · cases h
  · simp only [not_or, Bool.not_eq_false, ne_eq, not_not] at hout
    exact ⟨hout.1, hout.2, join_eq_some_iff.mp h⟩

theorem TransitOk.seekBase_eq (h : TransitOk ports) : ∀ (fuel base : ℕ),
    seekBase ports fuel base = walk ports.next fuel base := by
  intro fuel
  induction fuel with
  | zero => exact fun _ => rfl
  | succ fuel ih =>
    intro base
    rw [seekBase, walk, h.transit]
    cases ports.next base with
    | none => rfl
    | some dest => exact ih dest

theorem unlockCircle_of_walk (hlimbo : (ports port).inLimbo = true) : ∀ {fuel dest : ℕ},
    walk ports.next fuel dest = some port → unlockCircle ports (fuel + 1) (some dest) = some () := by
  intro fuel
  induction fuel with
  | zero =>
    intro dest h
    cases h
  | succ fuel ih =>
    intro dest h
    rw [walk] at h
    split at h
    · cases h
      obtain ⟨hactive, hname, hdest⟩ := inLimbo_iff.mp hlimbo
      simp [unlockCircle, hactive, hname, hdest]
    · next d hd =>
      obtain ⟨hactive, hname, hdest⟩ := transit_of_next hd
      rw [unlockCircle, if_pos ⟨hactive, hname⟩, hdest]
      exact ih h

theorem unlockChain_of_walk (h : ∀ port, (ports port).transit = some (ports.next port)) :
    ∀ {fuel port : ℕ}, walk ports.next fuel port = some base →
      unlockChain ports base fuel port = some () := by
  intro fuel
  induction fuel with
  | zero =>
    intro port hw
    cases hw
  | succ fuel ih =>
    intro port hw
    have hend := (walk_end hw).2
    rw [walk] at hw
    split at hw
    · cases hw
      rw [unlockChain, if_pos rfl, h, hend, if_pos rfl]
    · next d hd =>
      obtain ⟨hactive, hname, hdest⟩ := transit_of_next hd
      have hne : port ≠ base := by
        rintro rfl
        rw [hend] at hd
        cases hd
      rw [unlockChain, if_neg hne, if_pos ⟨hactive, hname⟩, hdest]
      exact ih hw

end chain

/-! ## What a change of a port does to the chains -/

section change
variable {ports : Ports} {port dest base fuel : ℕ} {p : Port}

theorem next_update (ports : Ports) (port : ℕ) (p : Port) :
    Ports.next (update ports port p) =
      update ports.next port p.transit.join := by
  funext q
  by_cases hq : q = port
  · simp [Ports.next, hq]
  · simp [Ports.next, hq]

theorem TransitOk.leave (h : TransitOk ports) (hp : p.transit = some none) :
    TransitOk (update ports port p) := by
  refine ⟨?_, ?_, ?_⟩
  · intro q
    by_cases hq : q = port
    · simp [hq, hp]
    · rw [update_of_ne hq]
      exact h.union q
  · rw [next_update, hp, join_some]
    exact h.acyclic.unlink port
  · rw [next_update]
    exact finite_update h.finite port

theorem TransitOk.same (h : TransitOk ports) (hp : p.transit = (ports port).transit) :
    TransitOk (update ports port p) := by
  have hnext : Ports.next (update ports port p) = ports.next := by
    rw [next_update, hp]
    exact update_eq_self port ports.next
  refine ⟨?_, ?_, ?_⟩
  · intro q
    by_cases hq : q = port
    · rw [hq, update_self, hp]
      exact h.union port
    · rw [update_of_ne hq]
      exact h.union q
  · rw [hnext]
    exact h.acyclic
  · rw [hnext]
    exact h.finite

theorem transit_linked (h : (ports port).inLimbo = true) (dest : ℕ) :
    { ports port with data := .destination (some dest) : Port }.transit = some (some dest) := by
  obtain ⟨hactive, hname, -⟩ := inLimbo_iff.mp h
  simp [Port.transit, Port.ipDestination, hactive, hname]

theorem TransitOk.enter (h : TransitOk ports) (hlimbo : (ports port).inLimbo = true)
    (hnot : ¬ Reaches ports.next dest port) : TransitOk (update ports port
      { ports port with data := .destination (some dest) }) := by
  refine ⟨?_, ?_, ?_⟩
  · intro q
    by_cases hq : q = port
    · rw [hq, update_self, transit_linked hlimbo]
      exact some_ne_none _
    · rw [update_of_ne hq]
      exact h.union q
  · rw [next_update, transit_linked hlimbo, join_some]
    exact h.acyclic.link (next_of_limbo hlimbo) hnot
  · rw [next_update]
    exact finite_update h.finite port

theorem TransitOk.notCircular_returns (h : TransitOk ports) (hlimbo : (ports port).inLimbo = true)
    (hnot : ¬ Reaches ports.next dest port) (hw : walk ports.next fuel dest = some base) :
    notCircular (fuel + 1) ports port dest base = some (false, update ports port
      { ports port with data := .destination (some dest) }) := by
  have hnext := next_update ports port { ports port with data := .destination (some dest) }
  rw [transit_linked hlimbo, join_some] at hnext
  have hwalk : walk (Ports.next (update ports port
      { ports port with data := .destination (some dest) })) (fuel + 1) port = some base := by
    rw [hnext, walk, update_self]
    exact (walk_update hnot).trans hw
  rw [notCircular, if_pos hlimbo]
  simp only
  rw [unlockChain_of_walk (h.enter hlimbo hnot).transit hwalk]
  rfl

end change

/-- What `ipc_port_check_circularity` returns, and the ports then. -/
def CheckedCircularity (ports : Ports) (port dest : ℕ) (circular : Bool) (ports' : Ports) : Prop :=
  (circular = true ↔ dest = port ∨ Reaches ports.next dest port) ∧
    ports' = if circular then ports
      else update ports port { ports port with data := .destination (some dest) }

section check
variable {ports ports' : Ports} {port dest base fuel : ℕ} {lockTry circular : Bool}

theorem eq_base_iff (hlimbo : (ports port).inLimbo = true)
    (hw : walk ports.next fuel dest = some base) : port = base ↔ Reaches ports.next dest port := by
  obtain ⟨hreach, hend⟩ := walk_end hw
  constructor
  · rintro rfl
    exact hreach
  · intro hr
    exact (Reaches.eq_of_end (hr.reaches_end hreach hend) (next_of_limbo hlimbo)).symm

theorem TransitOk.check_returns (h : TransitOk ports) (hlimbo : (ports port).inLimbo = true)
    (lockTry : Bool) (dest : ℕ) : ∃ enough, ∀ fuel ≥ enough, ∃ circular ports',
      ipcPortCheckCircularity fuel lockTry ports port dest = some (circular, ports') := by
  by_cases hself : port = dest
  · refine ⟨0, fun fuel _ => ⟨true, ports, ?_⟩⟩
    rw [ipcPortCheckCircularity, if_pos hself]
  obtain ⟨n, base, hw⟩ := h.acyclic.exists_walk h.finite dest
  refine ⟨n + 1, fun fuel hfuel => ?_⟩
  obtain ⟨k, rfl⟩ : ∃ k, fuel = k + 1 := ⟨fuel - 1, by omega⟩
  have hk : walk ports.next k dest = some base := walk_mono hw (by omega)
  have hchain : ∃ circular ports', checkChain (k + 1) ports port dest = some (circular, ports') := by
    rw [checkChain, h.seekBase_eq, walk_mono hk (Nat.le_succ k), bind_some]
    by_cases hpb : port = base
    · refine ⟨true, ports, ?_⟩
      rw [if_pos hpb, if_pos hlimbo, unlockCircle_of_walk hlimbo (hpb ▸ hk), map_some]
    · rw [if_neg hpb]
      exact ⟨false, _,
        h.notCircular_returns hlimbo (fun hr => hpb ((eq_base_iff hlimbo hk).mpr hr)) hk⟩
  rw [ipcPortCheckCircularity, if_neg hself]
  cases lockTry with
  | false => exact hchain
  | true =>
    rw [if_pos rfl, h.transit, map_some, bind_some]
    cases hnext : ports.next dest with
    | some d => exact hchain
    | none =>
      have hbd : base = dest := Reaches.eq_of_end (walk_end hk).1 hnext
      rw [hbd] at hk
      exact ⟨false, _,
        h.notCircular_returns hlimbo (fun hr => hself ((eq_base_iff hlimbo hk).mpr hr)) hk⟩

theorem notCircular_eq (h : notCircular fuel ports port dest base = some (circular, ports')) :
    circular = false ∧ ports' = update ports port
      { ports port with data := .destination (some dest) } := by
  rw [notCircular] at h
  split_ifs at h
  obtain ⟨_, -, hr⟩ := map_eq_some_iff.mp h
  cases hr
  exact ⟨rfl, rfl⟩

theorem checked_notCircular (hrun : notCircular fuel ports port dest base = some (circular, ports'))
    (hself : dest ≠ port) (hr : ¬ Reaches ports.next dest port) :
    CheckedCircularity ports port dest circular ports' := by
  obtain ⟨rfl, rfl⟩ := notCircular_eq hrun
  refine ⟨?_, rfl⟩
  simp [hself, hr]

theorem TransitOk.checked_chain (h : TransitOk ports) (hlimbo : (ports port).inLimbo = true)
    (hself : dest ≠ port) (hrun : checkChain fuel ports port dest = some (circular, ports')) :
    CheckedCircularity ports port dest circular ports' := by
  rw [checkChain, h.seekBase_eq] at hrun
  obtain ⟨base, hw, hrun⟩ := bind_eq_some_iff.mp hrun
  have hbase := eq_base_iff hlimbo hw
  split_ifs at hrun with hpb
  · obtain ⟨_, -, hr⟩ := map_eq_some_iff.mp hrun
    cases hr
    exact ⟨by simp [hbase.mp hpb], rfl⟩
  · exact checked_notCircular hrun hself (fun hr => hpb (hbase.mpr hr))

theorem TransitOk.checked (h : TransitOk ports) (hlimbo : (ports port).inLimbo = true)
    (hrun : ipcPortCheckCircularity fuel lockTry ports port dest = some (circular, ports')) :
    CheckedCircularity ports port dest circular ports' := by
  rw [ipcPortCheckCircularity] at hrun
  split_ifs at hrun with hself hlock
  · cases hrun
    exact ⟨by simp [hself], rfl⟩
  · rw [h.transit, map_some, bind_some] at hrun
    cases hnext : ports.next dest with
    | some d =>
      rw [hnext] at hrun
      exact h.checked_chain hlimbo (Ne.symm hself) hrun
    | none =>
      rw [hnext] at hrun
      apply checked_notCircular hrun (Ne.symm hself)
      intro hr
      exact hself (Reaches.eq_of_end hr hnext)
  · exact h.checked_chain hlimbo (Ne.symm hself) hrun

theorem TransitOk.check_ok (h : TransitOk ports) (hlimbo : (ports port).inLimbo = true)
    (hrun : ipcPortCheckCircularity fuel lockTry ports port dest = some (circular, ports')) :
    TransitOk ports' := by
  obtain ⟨hiff, rfl⟩ := h.checked hlimbo hrun
  cases circular with
  | true => exact h
  | false =>
    apply h.enter hlimbo
    intro hr
    cases hiff.mpr (.inr hr)

end check

/-! ## Every way into and out of transit -/

/-- The operations on ports that `ipc_port_destroy` calls. -/
def transitSpec : Program.Spec KernelOp.Ans Ports where
  pre _ _ := True
  post
    | .ipLock port, ports, p, ports' => p = ports port ∧ ports' = ports
    | .ipRead port, ports, p, ports' => p = ports port ∧ ports' = ports
    | .ipStore port p, ports, _, ports' => ports' = update ports port p
    | .ipRelease _, ports, _, ports' => ports' = ports
    | .portTimestamp, ports, _, ports' => ports' = ports
    | .checkCircularity port dest, ports, circular, ports' =>
      ∃ fuel lockTry, ipcPortCheckCircularity fuel lockTry ports port dest = some (circular, ports')
    | .notify _, ports, _, ports' => ports' = ports
    | _, _, _, _ => False

inductive TransitEvent where
  | check (lockTry : Bool) (port dest : ℕ)
  | copyout (port space : ℕ) (name : MachPort)
  | moveReceive (port : ℕ)
  | destroy (port : ℕ)

/-- One step: a check of a port in limbo, a receive right that comes into a space or is moved
out of one, or `ipc_port_destroy`. -/
def transitStep (ports : Ports) : TransitEvent → Ports → Prop
  | .check lockTry port dest, ports' => (ports port).inLimbo = true ∧ ∃ fuel circular,
    ipcPortCheckCircularity fuel lockTry ports port dest = some (circular, ports')
  | .copyout port space name, ports' => (ports port).ipActive = true ∧
    (ports port).ipReceiverName = machPortSmallest ∧ name ≠ machPortSmallest ∧
    ports' = update ports port ((ports port).received space name)
  | .moveReceive port, ports' => (ports port).ipActive = true ∧
    (ports port).ipReceiverName ≠ machPortSmallest ∧
    ports' = update ports port (ports port).intoLimbo
  | .destroy port, ports' => (ipcPortDestroy port).Runs transitSpec ports (.ok ()) ports'

section steps
variable {ports ports' ports₀ : Ports} {port : ℕ}

/-- No run of the program brings the destinations out of order. -/
def KeepsTransit {α : Type} (m : Kernel α) : Prop := ∀ ports, TransitOk ports →
  m.wp transitSpec (fun _ ports' => TransitOk ports') (fun _ _ => True) ports

theorem KeepsTransit.bind {α β : Type} {m : Kernel α} {f : α → Kernel β} (hm : KeepsTransit m)
    (hf : ∀ a, KeepsTransit (f a)) : KeepsTransit (m >>= f) := by
  intro ports h
  rw [Program.wp_bind]
  exact Program.wp_mono (hm ports h) (fun a ports' h' => hf a ports' h') (fun _ _ _ => trivial)

theorem keepsTransit_pure {α : Type} (a : α) : KeepsTransit (pure a : Kernel α) := fun _ h => h

theorem keepsTransit_notify (n : Notification) : KeepsTransit (call (.notify n)) := by
  intro ports h
  refine ⟨trivial, ?_⟩
  rintro _ ports' rfl
  exact h

theorem keepsTransit_release (port : ℕ) : KeepsTransit (call (.ipRelease port)) := by
  intro ports h
  refine ⟨trivial, ?_⟩
  rintro _ ports' rfl
  exact h

theorem keepsTransit_notifyDeadNames : ∀ l, KeepsTransit (notifyDeadNames l) := by
  intro l
  induction l with
  | nil => exact keepsTransit_pure ()
  | cons r l ih =>
    rw [notifyDeadNames]
    split_ifs
    · exact ih
    · exact (keepsTransit_notify _).bind (fun _ => ih)

theorem wp_ipRead {Q : Port → Ports → Prop} (h : Q (ports port) ports) :
    (call (.ipRead port)).wp transitSpec Q (fun _ _ => True) ports := by
  refine ⟨trivial, ?_⟩
  rintro p ports' ⟨rfl, rfl⟩
  exact h

theorem wp_ipLock {Q : Port → Ports → Prop} (h : Q (ports port) ports) :
    (call (.ipLock port)).wp transitSpec Q (fun _ _ => True) ports := wp_ipRead h

theorem wp_ipStore {p : Port} {Q : Unit → Ports → Prop} (h : Q () (update ports port p)) :
    (call (.ipStore port p)).wp transitSpec Q (fun _ _ => True) ports := by
  refine ⟨trivial, ?_⟩
  rintro _ ports' rfl
  exact h

theorem wp_ipRelease {Q : Unit → Ports → Prop} (h : Q () ports) :
    (call (.ipRelease port)).wp transitSpec Q (fun _ _ => True) ports := by
  refine ⟨trivial, ?_⟩
  rintro _ ports' rfl
  exact h

theorem wp_portTimestamp {Q : ℕ → Ports → Prop} (h : ∀ t, Q t ports) :
    (call .portTimestamp).wp transitSpec Q (fun _ _ => True) ports := by
  refine ⟨trivial, ?_⟩
  rintro t ports' rfl
  exact h t

theorem wp_assert {b : Bool} {Q : Unit → Ports → Prop} (h : b = true → Q () ports) :
    (assert b).wp transitSpec Q (fun _ _ => True) ports := by
  cases b with
  | true => exact h rfl
  | false => trivial

theorem wp_assertSrights {b : Bool} {Q : Unit → Ports → Prop} (h : b = true → Q () ports) :
    (assertSrights b).wp transitSpec Q (fun _ _ => True) ports := by
  cases b with
  | true => exact h rfl
  | false => trivial

theorem wp_assertSorights {b : Bool} {Q : Unit → Ports → Prop} (h : b = true → Q () ports) :
    (assertSorights b).wp transitSpec Q (fun _ _ => True) ports := by
  cases b with
  | true => exact h rfl
  | false => trivial

theorem keepsTransit_killPort (port : ℕ) : KeepsTransit (killPort port) := by
  intro ports h
  simp only [killPort, Program.wp_bind]
  apply wp_ipRead
  apply wp_portTimestamp
  intro t
  apply wp_ipStore
  have hdead : TransitOk (update ports port
      { ports port with ipActive := false, data := .timestamp t }) := h.leave (by simp [Port.transit])
  have hdeadNames : ∀ names, KeepsTransit (do
      notifyDeadNames names
      call (.ipRelease port)) :=
    fun names => (keepsTransit_notifyDeadNames names).bind (fun _ => keepsTransit_release port)
  generalize ({ ports port with ipActive := false, data := .timestamp t } : Port) = p' at *
  cases (ports port).ipNsrequest with
  | none =>
    cases (ports port).ipDnrequests with
    | none => exact keepsTransit_release port _ hdead
    | some table => exact hdeadNames _ _ hdead
  | some nsrequest =>
    refine (keepsTransit_notify _).bind (fun _ => ?_) _ hdead
    cases (ports port).ipDnrequests with
    | none => exact keepsTransit_release port
    | some table => exact hdeadNames _

theorem transit_dropSend (p : Port) : p.dropSend.1.transit = p.transit := by
  rw [Port.dropSend]
  split_ifs
  · cases p.ipNsrequest with
    | none => rfl
    | some nsrequest => rfl
  · rfl

theorem keepsTransit_dropSend (port : ℕ) : KeepsTransit (dropSend port) := by
  intro ports h
  simp only [dropSend, Program.wp_bind]
  apply wp_ipRead
  apply wp_assertSrights
  intro _
  apply wp_ipStore
  exact h.same (transit_dropSend _)

theorem keepsTransit_releaseSend (port : ℕ) : KeepsTransit (ipcPortReleaseSend port) := by
  intro ports h
  simp only [ipcPortReleaseSend, Program.wp_bind]
  apply wp_ipLock
  apply wp_ipRelease
  split_ifs
  · refine (keepsTransit_dropSend port).bind (fun nsrequest => ?_) ports h
    cases nsrequest with
    | none => exact keepsTransit_pure ()
    | some nsrequest => exact keepsTransit_notify _
  · exact h

theorem keepsTransit_releaseSonce (port : ℕ) : KeepsTransit (ipcPortReleaseSonce port) := by
  intro ports h
  simp only [ipcPortReleaseSonce, Program.wp_bind]
  apply wp_ipLock
  apply wp_ipRelease
  split_ifs
  · simp only [Program.wp_bind]
    apply wp_assertSorights
    intro _
    apply wp_ipStore
    exact h.same rfl
  · exact h

theorem keepsTransit_destroy (port : ℕ) : KeepsTransit (ipcPortDestroy port) := by
  intro ports h
  simp only [ipcPortDestroy, Program.wp_bind]
  apply wp_ipRead
  apply wp_assert
  intro hactive
  apply wp_assert
  intro _
  cases hpd : (ports port).ipPdrequest with
  | none => exact keepsTransit_killPort port ports h
  | some pdrequest =>
    simp only [Program.wp_bind]
    apply wp_ipStore
    have hlimbo : TransitOk (update ports port { ports port with
        ipPdrequest := none, ipReceiverName := machPortSmallest, data := .destination none }) :=
      h.leave (by simp [Port.transit, Port.ipDestination])
    refine ⟨trivial, ?_⟩
    rintro circular ports' ⟨fuel, lockTry, hrun⟩
    have hok := hlimbo.check_ok (by simp [Port.inLimbo, Port.ipDestination, hactive]) hrun
    cases circular with
    | false => exact keepsTransit_notify _ ports' hok
    | true =>
      have hkill : ∀ _ : Unit, KeepsTransit (killPort port) := fun _ => keepsTransit_killPort port
      cases pdrequest with
      | send sright => exact (keepsTransit_releaseSend sright).bind hkill ports' hok
      | sonce soright => exact (keepsTransit_releaseSonce soright).bind hkill ports' hok

theorem TransitOk.step {e : TransitEvent} (h : TransitOk ports) (hstep : transitStep ports e ports') :
    TransitOk ports' := by
  cases e with
  | check lockTry port dest =>
    obtain ⟨hlimbo, fuel, circular, hrun⟩ := hstep
    exact h.check_ok hlimbo hrun
  | copyout port space name =>
    obtain ⟨-, -, hname, rfl⟩ := hstep
    exact h.leave (by simp [Port.transit, Port.received, hname])
  | moveReceive port =>
    obtain ⟨-, -, rfl⟩ := hstep
    exact h.leave (by simp [Port.transit, Port.intoLimbo, Port.ipDestination])
  | destroy port => exact Program.Runs.post hstep (keepsTransit_destroy port ports h)

/-- No port is in transit: each one is dead, received or in limbo. -/
def NoneInTransit (ports : Ports) : Prop := ∀ port, (ports port).transit = some none

theorem NoneInTransit.ok (h : NoneInTransit ports) : TransitOk ports := by
  have hnext : ports.next = fun _ => none := by
    funext port
    rw [Ports.next, h port, join_some]
  refine ⟨?_, ?_, ?_⟩
  · intro port
    rw [h port]
    exact some_ne_none none
  · intro port hcycle
    obtain ⟨q, hq, -⟩ := Relation.TransGen.head'_iff.mp hcycle
    rw [Link, hnext] at hq
    cases hq
  · rw [hnext]
    simp

/-- Ports in transit never form a cycle. A check of a port in limbo comes to an end, finds the
port on the chain of the destination exactly when it is there and then changes nothing, and
otherwise puts the port in transit. -/
theorem transit_acyclic (h : NoneInTransit ports₀) {es : List TransitEvent}
    (hr : Run transitStep ports₀ es ports) : Acyclic ports.next ∧
      ∀ port, (ports port).inLimbo = true → ∀ lockTry dest, ∃ enough, ∀ fuel ≥ enough,
        ∃ circular ports',
          ipcPortCheckCircularity fuel lockTry ports port dest = some (circular, ports') ∧
          (circular = true ↔ dest = port ∨ Reaches ports.next dest port) ∧
          ports' = if circular then ports
            else update ports port { ports port with data := .destination (some dest) } := by
  have hok : TransitOk ports := Run.invariant (fun _ _ _ hs hstep => hs.step hstep) hr h.ok
  refine ⟨hok.acyclic, ?_⟩
  intro port hlimbo lockTry dest
  obtain ⟨enough, hreturns⟩ := hok.check_returns hlimbo lockTry dest
  refine ⟨enough, fun fuel hfuel => ?_⟩
  obtain ⟨circular, ports', hrun⟩ := hreturns fuel hfuel
  obtain ⟨hiff, heq⟩ := hok.checked hlimbo hrun
  exact ⟨circular, ports', hrun, hiff, heq⟩

end steps

def limboPort : Port := ⟨true, .destination none, machPortSmallest, 0, 0, 0, none, none, none⟩

/-- Port 1 goes to port 2, which then cannot go to port 1. -/
theorem transit_acyclic_two : ∃ ports,
    Run transitStep (fun _ => limboPort) [.check true 1 2] ports ∧ Acyclic ports.next ∧
      ∃ enough, ∀ fuel ≥ enough,
        ipcPortCheckCircularity fuel false ports 2 1 = some (true, ports) := by
  let ports : Ports := update (fun _ => limboPort) 1
    { limboPort with data := .destination (some 2) }
  have hr : Run transitStep (fun _ => limboPort) ([] ++ [.check true 1 2]) ports :=
    .snoc (.nil _) ⟨rfl, 2, false, rfl⟩
  obtain ⟨hacyclic, hcheck⟩ := transit_acyclic (fun _ => rfl) hr
  refine ⟨ports, hr, hacyclic, ?_⟩
  obtain ⟨enough, hall⟩ := hcheck 2 rfl false 1
  refine ⟨enough, fun fuel hfuel => ?_⟩
  obtain ⟨circular, ports', hrun, hiff, heq⟩ := hall fuel hfuel
  have hreach : Reaches ports.next 1 2 := Relation.ReflTransGen.single rfl
  have hcircular : circular = true := hiff.mpr (.inr hreach)
  rw [hrun, heq, hcircular]
  rfl

end Darwin.Ipc
