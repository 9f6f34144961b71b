import Darwin.Lib.LinkedTree
import Mathlib.Logic.Relation

/-! # The AppleTalk routing table

`rt_table_init`, `rt_blookup`, `rt_insert` and `rt_bdelete` of `ddp_rtmptable.c`, and the macro
`RT_DELETE` of `routing_tables.h`. The entries in use make a tree below `RT_table_start`, which is an
entry with network 0 outside of the table; the others are linked through their right fields.
-/
namespace Darwin.Netat
open Darwin.Lib
open Darwin.Lib.SearchTree (Tree)
open Darwin.Lib.LinkedTree

/-- The fields of `RT_entry` behind its two links; the zone bitmap is one number. -/
structure Route where
  netStop : ℕ
  netStart : ℕ
  nextIRNet : ℕ
  nextIRNode : ℕ
  zoneBitMap : ℕ
  netDist : ℕ
  netPort : ℕ
  entryState : ℕ
  rtmpFlag : ℕ
  aurpFlag : ℕ
  deriving DecidableEq, Repr

/-- After `bzero`. -/
def Route.zero : Route := ⟨0, 0, 0, 0, 0, 0, 0, 0, 0, 0⟩

/-- `RT_table_start`, or an entry of `RT_table`. -/
inductive Ref where
  | start
  | entry (i : ℕ)
  deriving DecidableEq, Repr

abbrev RtEntry := Cell Ref Route

def zeroEntry : RtEntry := ⟨none, none, .zero⟩

structure RoutingTable where
  mem : Heap Ref Route
  maxEntry : ℕ
  freelist : Option Ref
  /-- `AT_ST_RT_CHANGED` -/
  changed : Bool

/-- `RT_table[0]` up to the last entry are linked to each other. -/
def rtTableInit (rtableSize : ℕ) : RoutingTable where
  mem
    | .start => zeroEntry
    | .entry i => ⟨none, if i + 1 < rtableSize then some (.entry (i + 1)) else none, .zero⟩
  maxEntry := rtableSize
  freelist := some (.entry 0)
  changed := true

/-- The first network of an entry; an entry of a network that is not extended has none. -/
def Route.lowEnd (r : Route) : ℕ := if r.netStart ≠ 0 then r.netStart else r.netStop

/-- Where the loops of `rt_blookup` and `rt_bdelete` go at an entry. -/
def netProbe (netNumber : ℕ) (r : Route) : Ordering :=
  if r.netStop < netNumber then .gt
  else if netNumber < r.lowEnd then .lt
  else .eq

/-- The loops of the functions may make so many passes; `none` when that is not enough. -/
def rtBlookup (passes : ℕ) (t : RoutingTable) (netNumber : ℕ) : Option (Option Ref) :=
  search t.mem (netProbe netNumber) passes (some .start)

/-- It returns the entry below which the new one is. -/
def rtBinsert (passes : ℕ) (t : RoutingTable) (newEntry : Ref) : Option (RoutingTable × Ref) :=
  let netStop := (t.mem newEntry).value.netStop
  (place t.mem (fun r => r.netStop < netStop) passes .start).map (fun (ptree, right) =>
    ({ t with mem := link t.mem ptree right (some newEntry), changed := true }, ptree))

/-- The arguments of `rt_insert`. -/
structure RouteArgs where
  nStop : ℕ
  nStart : ℕ
  nxNet : ℕ
  nxNode : ℕ
  ntDist : ℕ
  ntPort : ℕ
  entS : ℕ
  deriving DecidableEq, Repr

/-- The fields that `rt_insert` sets. -/
def RouteArgs.fill (a : RouteArgs) (r : Route) : Route :=
  { r with
    netStop := a.nStop
    netStart := a.nStart
    nextIRNet := a.nxNet
    nextIRNode := a.nxNode
    netDist := a.ntDist
    netPort := a.ntPort
    entryState := a.entS
    zoneBitMap := 0 }

def rtInsert (passes : ℕ) (t : RoutingTable) (a : RouteArgs) : Option (RoutingTable × Option Ref) :=
  match t.freelist with
  | none => some (t, none)
  | some new =>
    let entry := t.mem new
    (rtBinsert passes
      { t with
        mem := Function.update t.mem new ⟨entry.left, none, a.fill entry.value⟩
        freelist := entry.right
        changed := true } new).map (fun r => (r.1, some r.2))

/-- `unset` is what `pprevious` points at before the loop sets it. -/
def rtBdelete (passes : ℕ) (unset : Ref) (t : RoutingTable) (netStop : ℕ) :
    Option (RoutingTable × Option Ref) :=
  match searchParent t.mem (netProbe netStop) passes unset (some .start) with
  | none => none
  | some (_, none) => some (t, none)
  | some (pprevious, some rtFound) =>
    (prune t.mem passes rtFound).map (fun (mem, pnext) =>
      ({ t with mem := replaceChild mem pprevious rtFound pnext, changed := true }, some rtFound))

/-- The macro `RT_DELETE`; it returns what it has found. -/
def rtDelete (passes : ℕ) (unset : Ref) (t : RoutingTable) (netStop : ℕ) :
    Option (RoutingTable × Option Ref) :=
  (rtBdelete passes unset t netStop).map (fun (t, found) =>
    match found with
    | none => (t, none)
    | some found =>
      ({ t with
        mem := Function.update t.mem found ⟨none, t.freelist, .zero⟩
        freelist := some found }, some found))

/-! ## Calls -/

/-- The second argument of `RT_DELETE` is not read. -/
inductive Call where
  | insert (a : RouteArgs)
  | delete (netStop netStart : ℕ)
  deriving DecidableEq, Repr

/-- The call, and whether it has returned an entry. -/
def Call.run (passes : ℕ) (unset : Ref) (t : RoutingTable) : Call → Option (RoutingTable × Bool)
  | .insert a => (rtInsert passes t a).map (fun r => (r.1, r.2.isSome))
  | .delete netStop _ => (rtDelete passes unset t netStop).map (fun r => (r.1, r.2.isSome))

def runCalls (passes : ℕ) (unset : Ref) : List Call → RoutingTable → Option (RoutingTable × List Bool)
  | [], t => some (t, [])
  | call :: calls, t =>
    match call.run passes unset t with
    | none => none
    | some (t, done) => (runCalls passes unset calls t).map (fun r => (r.1, done :: r.2))

/-! ## The interval map -/

/-- The network belongs to the route. -/
def Route.Contains (r : Route) (netNumber : ℕ) : Prop := r.lowEnd ≤ netNumber ∧ netNumber ≤ r.netStop

instance (r : Route) (netNumber : ℕ) : Decidable (r.Contains netNumber) :=
  inferInstanceAs (Decidable (_ ∧ _))

/-- The ranges have no network in common. -/
def Route.Disjoint (r s : Route) : Prop := r.netStop < s.lowEnd ∨ s.netStop < r.lowEnd

instance (r s : Route) : Decidable (r.Disjoint s) := inferInstanceAs (Decidable (_ ∨ _))

/-- The route with these arguments, as it is in the table. -/
def RouteArgs.route (a : RouteArgs) : Route := a.fill .zero

/-- A map with room for `size` routes: what a call leaves of those that are present, and whether it
finds room or a route. -/
def Call.spec (size : ℕ) (present : List Route) : Call → List Route × Bool
  | .insert a => if present.length < size then (a.route :: present, true) else (present, false)
  | .delete netStop _ =>
    (present.filter (fun r => ¬ r.Contains netStop), present.any (fun r => r.Contains netStop))

def specCalls (size : ℕ) : List Call → List Route → List Route × List Bool
  | [], present => (present, [])
  | call :: calls, present =>
    ((specCalls size calls (call.spec size present).1).1,
      (call.spec size present).2 :: (specCalls size calls (call.spec size present).1).2)

/-- A range that is inserted is disjoint from those that are present, and network 0 is not deleted. -/
def Call.Proper (present : List Route) : Call → Prop
  | .insert a => 0 < a.nStop ∧ a.nStart ≤ a.nStop ∧ ∀ r ∈ present, a.route.Disjoint r
  | .delete netStop _ => 0 < netStop

def ProperCalls (size : ℕ) : List Call → List Route → Prop
  | [], _ => True
  | call :: calls, present => call.Proper present ∧ ProperCalls size calls (call.spec size present).1

/-! ## What the table is to be -/

/-- One link of the tree. -/
def RoutingTable.Child (t : RoutingTable) (p q : Ref) : Prop :=
  (t.mem p).left = some q ∨ (t.mem p).right = some q

/-- Reachable from `RT_table_start`. -/
def RoutingTable.InUse (t : RoutingTable) (p : Ref) : Prop := Relation.ReflTransGen t.Child .start p

/-- On `RT_table_freelist`. -/
inductive RoutingTable.Free (t : RoutingTable) : Ref → Prop
  | head {p : Ref} : t.freelist = some p → t.Free p
  | next {p q : Ref} : t.Free p → (t.mem p).right = some q → t.Free q

/-- Each lookup ends and finds the route of a network with all its fields, and the entries in use and
the free ones are those of the table, each of one kind. -/
structure Serves (t : RoutingTable) (present : List Route) : Prop where
  lookup : ∀ netNumber, 0 < netNumber → ∀ passes, t.maxEntry + 1 < passes →
    ∃ found, rtBlookup passes t netNumber = some found ∧
      (∀ p, found = some p → (t.mem p).value ∈ present ∧ (t.mem p).value.Contains netNumber) ∧
      (found = none → ∀ r ∈ present, ¬ r.Contains netNumber)
  used : ∀ p, t.InUse p → p = .start ∨ ∃ i < t.maxEntry, p = .entry i
  unused : ∀ p, t.Free p → ∃ i < t.maxEntry, p = .entry i
  parts : ∀ i < t.maxEntry, (t.InUse (.entry i) ↔ ¬ t.Free (.entry i))
  full : present.length < t.maxEntry ↔ ∃ i < t.maxEntry, ¬ t.InUse (.entry i)

end Darwin.Netat
