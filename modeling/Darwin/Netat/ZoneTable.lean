import Mathlib.Data.BitVec
import Mathlib.Data.Finset.Card
import Mathlib.Data.Finset.Range
import Mathlib.Logic.Function.Basic

/-! # The AppleTalk zone table

The routines on zones of `ddp_rtmptable.c`. A route has a bitmap of its zones, and a slot of the zone
table counts the routes that have its bit.
-/
namespace Darwin.Netat
open Function

/-! ## Names -/

/-- `at_nvestr_t` -/
structure Nvestr where
  len : ℕ
  str : ℕ → BitVec 8

/-- A `char` as an integer. -/
def charValue (charSigned : Bool) (c : BitVec 8) : ℤ := if charSigned then c.toInt else c.toNat

def lowerCase : List (BitVec 8) :=
  [0x8a, 0x8c, 0x8d, 0x8e, 0x96, 0x9a, 0x9f, 0xbe, 0xbf, 0xcf, 0x9b, 0x8b, 0x88]

def upperCase : List (BitVec 8) :=
  [0x80, 0x81, 0x82, 0x83, 0x84, 0x85, 0x86, 0xae, 0xaf, 0xce, 0xcd, 0xcc, 0xcb]

/-- `upshift8` of `ddp_r_zip.c`. The tables are of unsigned characters, and the argument is a `char`. -/
def upshift8 (charSigned : Bool) (ch : BitVec 8) : BitVec 8 :=
  match (lowerCase.zip upperCase).find? (fun p => charValue charSigned ch = p.1.toNat) with
  | none => ch
  | some p => p.2

/-- A character as `zt_find_zname` compares it. -/
def zoneChar (charSigned : Bool) (c : BitVec 8) : BitVec 8 :=
  let c := if 97 ≤ charValue charSigned c ∧ charValue charSigned c ≤ 122 then c - 32 else c
  if c &&& 0x80#8 ≠ 0 then upshift8 charSigned c else c

/-- The inner loop of `zt_find_zname`. -/
def zoneEqual (charSigned : Bool) (zname zone : Nvestr) : Bool :=
  (List.range zname.len).all (fun j =>
    zoneChar charSigned (zname.str j) == zoneChar charSigned (zone.str j))

/-! ## The table -/

structure ZtEntry where
  zoneCount : ℕ
  zone : Nvestr

/-- The bytes of a `ZoneBitMap`. -/
abbrev ZoneMap := ℕ → BitVec 8

def ZT_MAX : ℕ := 1024

def ZT_BYTES : ℕ := ZT_MAX / 8

def ZT_MAXEDOUT : ℕ := ZT_MAX + 1

/-- The zone table, and the bitmaps of the routing table. -/
structure ZoneState where
  table : ℕ → ZtEntry
  ztMaxEntry : ℕ
  zmaps : ℕ → ZoneMap
  /-- `AT_ST_ZT_CHANGED` -/
  changed : Bool

/-- After `rt_table_init`. -/
def zoneTableInit (ztableSize : ℕ) : ZoneState where
  table _ := ⟨0, ⟨0, fun _ => 0⟩⟩
  ztMaxEntry := min ztableSize ZT_MAX
  zmaps _ := fun _ => 0
  changed := true

def ztFindZname (charSigned : Bool) (s : ZoneState) (zname : Nvestr) : ℕ :=
  if zname.len = 0 then 0
  else
    match (List.range s.ztMaxEntry).find? (fun i =>
        !((s.table i).zoneCount == 0 || zname.len != (s.table i).zone.len) &&
          zoneEqual charSigned zname (s.table i).zone) with
    | none => 0
    | some i => i + 1

/-- `bcopy` of the bytes of a name, and its length. -/
def copyName (zname zone : Nvestr) : Nvestr :=
  ⟨zname.len, fun j => if j < zname.len then zname.str j else zone.str j⟩

def ztAddZonename (charSigned : Bool) (s : ZoneState) (zname : Nvestr) : ZoneState × ℕ :=
  let res := ztFindZname charSigned s zname
  if res ≠ 0 then (s, res)
  else
    match (List.range s.ztMaxEntry).find? (fun i =>
        (s.table i).zoneCount == 0 && (s.table i).zone.len == 0) with
    | none => (s, ZT_MAXEDOUT)
    | some i =>
      ({ s with
        table := update s.table i
          { s.table i with zone := copyName zname (s.table i).zone }
        changed := true }, i + 1)

/-- `znum - 1` in sixteen bits. -/
def zoneNum (znum : ℕ) : ℕ := (znum + (2 ^ 16 - 1)) % 2 ^ 16

def mask (num : ℕ) : BitVec 8 := 0x80#8 >>> (num % 8)

def isSet (zmap : ZoneMap) (num : ℕ) : Bool := zmap (num / 8) &&& mask num != 0

def setBit (zmap : ZoneMap) (num : ℕ) : ZoneMap :=
  update zmap (num / 8) (zmap (num / 8) ||| mask num)

def flipBit (zmap : ZoneMap) (num : ℕ) : ZoneMap :=
  update zmap (num / 8) (zmap (num / 8) ^^^ mask num)

/-- The count of a slot becomes another number of sixteen bits. -/
def setCount (table : ℕ → ZtEntry) (num count : ℕ) : ℕ → ZtEntry :=
  update table num { table num with zoneCount := count % 2 ^ 16 }

def ztSetZmap (s : ZoneState) (znum route : ℕ) : ZoneState :=
  let num := zoneNum znum
  if !isSet (s.zmaps route) num then
    { s with
      zmaps := update s.zmaps route (setBit (s.zmaps route) num)
      table := setCount s.table num ((s.table num).zoneCount + 1) }
  else s

def ztClrZmap (s : ZoneState) (znum route : ℕ) : ZoneState :=
  let num := zoneNum znum
  if isSet (s.zmaps route) num then
    { s with
      zmaps := update s.zmaps route (flipBit (s.zmaps route) num)
      table := setCount s.table num ((s.table num).zoneCount + (2 ^ 16 - 1)) }
  else s

/-- A route less for a slot; the last one takes its name away. -/
def ZtEntry.release (e : ZtEntry) : ZtEntry :=
  { zoneCount := e.zoneCount - 1
    zone := if e.zoneCount - 1 = 0 then { e.zone with len := 0 } else e.zone }

/-- The inner body of `zt_remove_zones`, for the bits `j` of the bytes `i`. -/
def removePlaces (zmap : ZoneMap) : List (ℕ × ℕ) → ZoneState → ZoneState
  | [], s => s
  | (i, j) :: places, s =>
    if zmap i <<< j &&& 0x80#8 ≠ 0 then
      let index := i * 8 + j
      if s.ztMaxEntry ≤ index then s
      else
        removePlaces zmap places
          { s with table := update s.table index (s.table index).release, changed := true }
    else removePlaces zmap places s

/-- The order of the two loops; bytes that are zero are passed over. -/
def zmapPlaces (zmap : ZoneMap) : List (ℕ × ℕ) :=
  (List.range ZT_BYTES).flatMap (fun i => if zmap i ≠ 0 then (List.range 8).map (fun j => (i, j)) else [])

def ztRemoveZones (s : ZoneState) (zmap : ZoneMap) : ZoneState := removePlaces zmap (zmapPlaces zmap) s

/-! ## Calls -/

inductive ZoneCall where
  /-- `zt_add_zonename`, and `zt_set_zmap` unless the table is full -/
  | learn (route : ℕ) (zname : Nvestr)
  | clear (route znum : ℕ)
  /-- `zt_remove_zones` before the entry of the route is zeroed -/
  | remove (route : ℕ)

def ZoneCall.run (charSigned : Bool) (s : ZoneState) : ZoneCall → ZoneState
  | .learn route zname =>
    let (s, result) := ztAddZonename charSigned s zname
    if result = ZT_MAXEDOUT then s else ztSetZmap s result route
  | .clear route znum => ztClrZmap s znum route
  | .remove route =>
    let s := ztRemoveZones s (s.zmaps route)
    { s with zmaps := update s.zmaps route (fun _ => 0) }

end Darwin.Netat
