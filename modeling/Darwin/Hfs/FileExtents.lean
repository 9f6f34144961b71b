import Darwin.Hfs.VolumeAccounting
import Darwin.Lib.Fallible
import Mathlib.Algebra.BigOperators.Group.Finset.Basic

/-! # The extents of a file and how it grows

A fork has its first extents in the FCB and the others in records of the extents file,
under the number of the first file block that a record maps. `ExtendFileC` allocates
blocks and enters them in the last record. The calls on the extents B-tree are operations
that may fail; one that fails leaves the records of the fork as they are. For a new record
the tree may extend the extents file, by blocks of the same volume. On an HFS volume the
records have three extents and block numbers of 16 bits.
-/
namespace Darwin.Hfs.FileExtents
open Darwin.Lib Darwin.Hfs.VolumeAllocation

structure Extent where
  startBlock : ℕ
  blockCount : ℕ
  deriving DecidableEq, Repr

/-- The entries of `HFSPlusExtentRecord`; the entries from the eighth on are not used. -/
abbrev ExtentRecord := ℕ → Extent

/-- A fork on its volume. The records of the extents file are in the order of their keys. -/
structure File where
  vcb : Vcb
  isHFSPlus : Bool
  isExtentsFile : Bool
  fcbClmpSize : ℕ
  fcbPLen : ℕ
  fcbExtents : ExtentRecord
  overflow : List (ℕ × ExtentRecord)
  /-- What the extents file does on the volume when a record is added to so many of the fork, and
  whether it has room for the record then. -/
  growth : ℕ → Vcb → Bool × Vcb

inductive ExtendErr where
  | fileBoundsErr
  | dskFulErr
  | ioErr
  | fxOvFlErr
  | btreeErr
  | duplicateErr
  | fxRangeErr
  | notEnding
  deriving DecidableEq, Repr

def File.numExtentsPerRecord (f : File) : ℕ := if f.isHFSPlus then 8 else 3

/-- The first block of a key as it is written in the key. -/
def File.keyBlock (f : File) (startBlock : ℕ) : ℕ :=
  if f.isHFSPlus then startBlock else startBlock % 2 ^ 16

/-- A record as it reads back after it was stored: `ExtentsToExtDataRec` keeps three
extents of 16-bit numbers. -/
def File.stored (f : File) (extents : ExtentRecord) : ExtentRecord :=
  if f.isHFSPlus then extents
  else fun i => if i < 3 then ⟨(extents i).startBlock % 2 ^ 16, (extents i).blockCount % 2 ^ 16⟩
    else ⟨0, 0⟩

abbrev FileM := IoM ExtendErr File

/-! ## Searching -/

/-- Where `SearchExtentRecord` stops. -/
structure RecordSearch where
  found : Bool
  extentIndex : ℕ
  endingFABNPlusOne : ℕ
  deriving DecidableEq, Repr

/-- The loop of `SearchExtentRecord`, with the extents that are left as fuel. -/
def searchExtents (searchFABN : ℕ) (extentData : ExtentRecord) : ℕ → ℕ → ℕ → RecordSearch
  | 0, extentIndex, ending => ⟨false, extentIndex, ending⟩
  | n + 1, extentIndex, ending =>
    let numAllocationBlocks := (extentData extentIndex).blockCount
    if numAllocationBlocks = 0 then ⟨false, extentIndex, ending⟩
    else if searchFABN < u32 (ending + numAllocationBlocks) then
      ⟨true, extentIndex, u32 (ending + numAllocationBlocks)⟩
    else searchExtents searchFABN extentData n (extentIndex + 1) (u32 (ending + numAllocationBlocks))

/-- The outputs of `SearchExtentRecord`; it returns `fxRangeErr` when nothing is found. -/
structure RecordResult where
  found : Bool
  foundExtentIndex : ℕ
  endingFABNPlusOne : ℕ
  noMoreExtents : Bool
  deriving DecidableEq, Repr

def searchExtentRecord (numberOfExtents searchFABN : ℕ) (extentData : ExtentRecord)
    (extentDataStartFABN : ℕ) : RecordResult :=
  let s := searchExtents searchFABN extentData numberOfExtents 0 extentDataStartFABN
  if s.found then ⟨true, s.extentIndex, s.endingFABNPlusOne, false⟩
  else ⟨false, s.extentIndex - 1, s.endingFABNPlusOne, decide (s.extentIndex < numberOfExtents)⟩

/-- The record and the entry a search ends at; the key `none` is the record in the FCB, for
which the source has the key length 0. -/
structure Found where
  key : Option ℕ
  data : ExtentRecord
  index : ℕ

def Found.extent (x : Found) : Extent := x.data x.index

structure FileSearch where
  found : Bool
  place : Found
  nextBlock : ℕ

/-- `FindExtentRecord` with `allowPrevious`: the record of this key or the one before it;
`none` is `btNotFound`. -/
def findExtentRecord (startBlock : ℕ) : FileM (Option (ℕ × ExtentRecord)) := do
  -- `BTSearchRecord`
  operation .btreeErr
  let f ← current
  match f.overflow.find? (fun p => p.1 = f.keyBlock startBlock) with
  | some p => pure (some p)
  | none =>
    -- `BTIterateRecord`
    operation .btreeErr
    pure (f.overflow.filter (fun p => p.1 < f.keyBlock startBlock)).getLast?

def searchExtentFile (filePosition : ℕ) : FileM FileSearch := do
  let f ← current
  let filePositionBlock := filePosition / f.vcb.blockSize
  let r := searchExtentRecord f.numExtentsPerRecord filePositionBlock f.fcbExtents 0
  let inFcb : FileSearch :=
    ⟨r.found, ⟨none, f.fcbExtents, r.foundExtentIndex⟩, r.endingFABNPlusOne⟩
  if r.found ∨ r.noMoreExtents then pure inFcb
  else
    let p ← findExtentRecord filePositionBlock
    match p with
    | none => pure inFcb
    | some (startBlock, data) =>
      let r := searchExtentRecord f.numExtentsPerRecord filePositionBlock data startBlock
      pure ⟨r.found, ⟨some startBlock, data, r.foundExtentIndex⟩, r.endingFABNPlusOne⟩

/-! ## Writing a record -/

def File.replaceRecord (f : File) (key : ℕ) (data : ExtentRecord) : File :=
  { f with overflow := f.overflow.map (fun p => if p.1 = key then (key, data) else p) }

def insertInOrder (key : ℕ) (data : ExtentRecord) : List (ℕ × ExtentRecord) → List (ℕ × ExtentRecord)
  | [] => [(key, data)]
  | p :: ps => if key < p.1 then (key, data) :: p :: ps else p :: insertInOrder key data ps

/-- `UpdateExtentRecord`: the record in the FCB is set; one in the extents file is searched
(`BTSearchRecord`) and replaced (`BTReplaceRecord`). -/
def updateExtentRecord (key : Option ℕ) (extentData : ExtentRecord) : FileM Unit :=
  match key with
  | none => IoM.update (fun f => { f with fcbExtents := f.stored extentData })
  | some startBlock => do
    operation .btreeErr
    let f ← current
    match f.overflow.find? (fun p => p.1 = f.keyBlock startBlock) with
    | none => throw .btreeErr
    | some _ =>
      operation .btreeErr
      IoM.update (fun f => f.replaceRecord (f.keyBlock startBlock) (f.stored extentData))

/-- `CreateExtentRecord`: `BTInsertRecord` under the key, which extends a full tree first. -/
def createExtentRecord (startBlock : ℕ) (extents : ExtentRecord) : FileM Unit := do
  let f ← current
  if f.overflow.any (fun p => p.1 = f.keyBlock startBlock) then throw .duplicateErr
  else
    let room := f.growth f.overflow.length f.vcb
    IoM.update (fun f => { f with vcb := room.2 })
    if room.1 then
      operation .btreeErr
      IoM.update (fun f => { f with
        overflow := insertInOrder (f.keyBlock startBlock) (f.stored extents) f.overflow })
    else throw .btreeErr

/-! ## Extending -/

/-- The piece of the volume that `BlockAllocate` gave is entered behind the last extent. -/
def addExtent (found : Found) (nextBlock startBlock actualStartBlock actualNumBlocks : ℕ) :
    FileM Found := do
  if actualStartBlock = startBlock then
    -- the last extent has grown
    let data := Function.update found.data found.index
      { found.extent with blockCount := u32 (found.extent.blockCount + actualNumBlocks) }
    updateExtentRecord found.key data
    pure { found with data := data }
  else
    let f ← current
    let index := if found.extent.blockCount ≠ 0 then found.index + 1 else found.index
    if index = f.numExtentsPerRecord then
      -- the record is full
      if f.isExtentsFile then throw .fxOvFlErr
      else
        let data : ExtentRecord :=
          fun i => if i = 0 then ⟨actualStartBlock, actualNumBlocks⟩ else ⟨0, 0⟩
        createExtentRecord nextBlock data
        pure ⟨some nextBlock, data, 0⟩
    else
      let data := Function.update found.data index ⟨actualStartBlock, actualNumBlocks⟩
      updateExtentRecord found.key data
      pure { found with data := data, index := index }

/-- What is still to be allocated. -/
structure Want where
  bytesToAdd : ℕ
  maximumBytes : ℕ
  wantContig : Bool
  deriving DecidableEq, Repr

/-- The amounts after a piece of `bytesThisExtent` bytes. -/
def Want.after (w : Want) (bytesThisExtent : ℕ) : Want :=
  if bytesThisExtent > w.bytesToAdd then { w with bytesToAdd := 0 }
  else { w with bytesToAdd := w.bytesToAdd - bytesThisExtent
                maximumBytes := u32Sub w.maximumBytes bytesThisExtent }

/-- The loop of `ExtendFileC`. Every turn but the first one that fails allocates a block, so
that the number of turns is bounded. -/
def extendLoop (forceContig : Bool) : ℕ → Found → Want → ℕ → FileM Unit
  | 0, _, _, _ => throw .notEnding
  | n + 1, found, want, nextBlock => do
    let f ← current
    let startBlock := u32 (found.extent.startBlock + found.extent.blockCount)
    match blockAllocate f.vcb startBlock want.bytesToAdd want.maximumBytes want.wantContig with
    | none => throw .notEnding
    | some r =>
      IoM.update (fun f => { f with vcb := r.vcb })
      if r.err = .dskFulErr ∧ (forceContig ∨ (want.wantContig = false ∧ r.actualNumBlocks = 0)) then
        throw .dskFulErr
      else if r.err = .dskFulErr ∧ want.wantContig then
        -- no big chunk: get whatever there is
        if want.bytesToAdd = 0 then pure ()
        else extendLoop forceContig n found { want with wantContig := false } nextBlock
      else if r.err = .readErr then throw .ioErr
      else
        let found ← addExtent found nextBlock startBlock r.actualStartBlock r.actualNumBlocks
        let bytesThisExtent := u32 (r.actualNumBlocks * f.vcb.blockSize)
        let want := want.after bytesThisExtent
        IoM.update (fun f => { f with fcbPLen := u32 (f.fcbPLen + bytesThisExtent) })
        if forceContig then
          if want.bytesToAdd ≠ 0 then throw .dskFulErr else pure ()
        else if want.bytesToAdd = 0 then pure ()
        else extendLoop forceContig n found want (u32 (nextBlock + r.actualNumBlocks))

/-- The checks before the search, with the numbers of bytes to ask for. -/
def File.request (f : File) (bytesToAdd : ℕ) (allOrNothing : Bool) : Except ExtendErr Want :=
  if bytesToAdd ≥ 2 ^ 31 then .error .fileBoundsErr
  else if u32 (f.fcbPLen + bytesToAdd) ≥ 2 ^ 31 then .error .fileBoundsErr
  else
    let blocksToAdd := divideAndRoundUp bytesToAdd f.vcb.blockSize
    let bytesToAdd := u32 (blocksToAdd * f.vcb.blockSize)
    let maximumBytes := if f.fcbClmpSize > f.vcb.blockSize then
      u32 (divideAndRoundUp bytesToAdd f.fcbClmpSize * f.fcbClmpSize) else bytesToAdd
    let tooBig := u32 (f.fcbPLen + bytesToAdd) ≥ 2 ^ 31
    if tooBig ∧ allOrNothing then .error .fileBoundsErr
    else
      -- one block less keeps the file below the limit
      let blocksToAdd := if tooBig then u32Sub blocksToAdd 1 else blocksToAdd
      let bytesToAdd := if tooBig then u32Sub bytesToAdd f.vcb.blockSize else bytesToAdd
      if allOrNothing ∧ blocksToAdd > f.vcb.freeBlocks then .error .dskFulErr
      else .ok ⟨bytesToAdd, maximumBytes, true⟩

/-- The body of `ExtendFileC` behind the checks. -/
def extendBy (want : Want) (forceContig : Bool) : FileM Unit := do
  let f ← current
  let peof := u32 (f.fcbPLen + want.bytesToAdd)
  let r ← searchExtentFile (u32Sub peof 1)
  if r.found then IoM.update (fun f => { f with fcbPLen := peof })
  else
    -- the end of the last extent
    let peof := u32 (r.nextBlock * f.vcb.blockSize)
    let bytesThisExtent := u32Sub peof f.fcbPLen
    IoM.update (fun f => { f with fcbPLen := peof })
    extendLoop forceContig (2 ^ 32 + 2) r.place
      { want with bytesToAdd := u32Sub want.bytesToAdd bytesThisExtent } r.nextBlock

/-- `ExtendFileC`; the number of bytes that were added goes with the result. -/
def extendFileC (bytesToAdd : ℕ) (allOrNothing forceContig : Bool) : FileM Unit := do
  let f ← current
  match f.request bytesToAdd allOrNothing with
  | .error e => throw e
  | .ok want => extendBy want forceContig

/-- The output `actualBytesAdded` of a call that leaves the file `f'`. -/
def actualBytesAdded (f f' : File) : ℕ := u32Sub f'.fcbPLen f.fcbPLen

end Darwin.Hfs.FileExtents
