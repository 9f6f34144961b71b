import Darwin.Lib.BitWords

/-! # The volume bitmap of HFS and HFS Plus

The allocation and deallocation of blocks on the volume bitmap. The bitmap is a sequence
of 32-bit words (`kBitsPerWord`), read in bitmap blocks of 128 words (`kWordsPerBlock`),
that is 4096 bits (`kBitsPerBlock`). A buffer is the cached copy of a bitmap block, so a
store through it changes the bitmap; a pointer into a buffer is the index of its word in
the whole bitmap. Block numbers and counts are `UInt32`.
-/
namespace Darwin.Hfs.VolumeAllocation
open Darwin.Lib Function

/-- The bitmap as its words. -/
abbrev Bitmap := ℕ → BitVec 32

/-- The results of the routines. `readErr` stands for the errors of a bitmap read, which
are never `dskFulErr`. -/
inductive OSErr where
  | noErr
  | dskFulErr
  | readErr
  deriving DecidableEq, Repr

/-- The fields of `ExtendedVCB` the allocator uses. `readable k` tells whether bitmap block
`k` can be read: past the end of the bitmap it is up to the device and, on HFS Plus, to the
length of the allocation file. -/
structure Vcb where
  blockSize : ℕ
  vcbAlBlkSiz : ℕ
  totalBlocks : ℕ
  readable : ℕ → Bool
  bitmap : Bitmap
  freeBlocks : ℕ
  vcbFreeBks : ℕ
  nextAllocation : ℕ

def divideAndRoundUp (numerator denominator : ℕ) : ℕ :=
  let quotient := numerator / denominator
  if quotient * denominator ≠ numerator then quotient + 1 else quotient

/-- `ReadBitmapBlock` for the bitmap block that holds the bit of `block`. -/
def readBitmapBlock (readable : ℕ → Bool) (block : ℕ) : Bool := readable (block / 4096)

/-! ## Scanning forwards -/

/-- The position of a forward scan: the word at `buffer` in a register, the mask of the
current bit and the words left in this bitmap block. -/
structure Cursor where
  currentWord : BitVec 32
  bitMask : BitVec 32
  wordsLeft : ℕ
  buffer : ℕ
  deriving DecidableEq, Repr

/-- The set-up of a scan at `block`, after its bitmap block has been read. -/
def Cursor.init (bitmap : Bitmap) (block : ℕ) : Cursor :=
  let wordIndexInBlock := block % 4096 / 32
  let buffer := block / 4096 * 128 + wordIndexInBlock
  { currentWord := bitmap buffer, bitMask := maskAt 32 (block % 32),
    wordsLeft := 128 - wordIndexInBlock, buffer := buffer }

/-- The step to the next bit, which is the bit of `block`; `none` when the next bitmap
block has to be read and cannot be. -/
def Cursor.next (readable : ℕ → Bool) (bitmap : Bitmap) (block : ℕ) (c : Cursor) : Option Cursor :=
  let mask := c.bitMask >>> 1
  if mask = 0 then
    if c.wordsLeft - 1 = 0 then
      if readBitmapBlock readable block then
        some { currentWord := bitmap (block / 4096 * 128), bitMask := maskAt 32 0,
               wordsLeft := 128, buffer := block / 4096 * 128 }
      else none
    else some { currentWord := bitmap (c.buffer + 1), bitMask := maskAt 32 0,
                wordsLeft := c.wordsLeft - 1, buffer := c.buffer + 1 }
  else some { c with bitMask := mask }

/-- The first loop of `BlockAllocateAny`, with the number of blocks up to `endingBlock` as
fuel: the first clear bit, or the end. -/
def findFirst (readable : ℕ → Bool) (bitmap : Bitmap) : ℕ → ℕ → Cursor → Option (ℕ × Cursor)
  | 0, block, c => some (block, c)
  | n + 1, block, c =>
    if c.currentWord &&& c.bitMask = 0 then some (block, c)
    else match c.next readable bitmap (block + 1) with
      | none => none
      | some c' => findFirst readable bitmap n (block + 1) c'

/-- What an allocation returns, with the bitmap it leaves. -/
structure Alloc where
  err : OSErr
  actualStartBlock : ℕ
  actualNumBlocks : ℕ
  bitmap : Bitmap

/-- The second loop of `BlockAllocateAny`: allocate consecutive blocks up to the first used
one, or to `endingBlock`. The last word is stored after the loop. -/
def allocateRun (readable : ℕ → Bool) (endingBlock start : ℕ) : ℕ → Bitmap → ℕ → Cursor → Alloc
  | 0, bitmap, block, c =>
    ⟨.noErr, start, u32Sub block start, update bitmap c.buffer c.currentWord⟩
  | n + 1, bitmap, block, c =>
    if c.currentWord &&& c.bitMask = 0 then
      let c : Cursor := { c with currentWord := c.currentWord ||| c.bitMask }
      let block := u32 (block + 1)
      if block = endingBlock then
        ⟨.noErr, start, u32Sub block start, update bitmap c.buffer c.currentWord⟩
      else
        let mask : BitVec 32 := c.bitMask >>> 1
        let bitmap := if mask = 0 then update bitmap c.buffer c.currentWord else bitmap
        match c.next readable bitmap block with
        | none => ⟨.readErr, 0, 0, bitmap⟩
        | some c' => allocateRun readable endingBlock start n bitmap block c'
    else ⟨.noErr, start, u32Sub block start, update bitmap c.buffer c.currentWord⟩

def blockAllocateAny (vcb : Vcb) (startingBlock endingBlock maxBlocks : ℕ) : Alloc :=
  let maxBlocks := if maxBlocks > u32Sub endingBlock startingBlock then
    u32Sub endingBlock startingBlock else maxBlocks
  if readBitmapBlock vcb.readable startingBlock then
    match findFirst vcb.readable vcb.bitmap (endingBlock - startingBlock) startingBlock
        (Cursor.init vcb.bitmap startingBlock) with
    | none => ⟨.readErr, 0, 0, vcb.bitmap⟩
    | some (block, c) =>
      if block = endingBlock then ⟨.dskFulErr, 0, 0, vcb.bitmap⟩
      else
        let endingBlock := if block < u32Sub endingBlock maxBlocks then u32 (block + maxBlocks)
          else endingBlock
        -- the block number meets `endingBlock` within one turn around its range
        allocateRun vcb.readable endingBlock block (2 ^ 32) vcb.bitmap block c
  else ⟨.readErr, 0, 0, vcb.bitmap⟩

/-! ## Marking a range -/

/-- The position of a marking loop. `startingBlock` is a block of the bitmap block that was
read last. -/
structure MarkPos where
  bitmap : Bitmap
  startingBlock : ℕ
  currentWord : ℕ
  wordsLeft : ℕ

/-- Read in the next bitmap block when no words are left; the error keeps the bitmap as
stored so far. -/
def MarkPos.advance (readable : ℕ → Bool) (p : MarkPos) : Except Bitmap MarkPos :=
  if p.wordsLeft = 0 then
    let startingBlock := u32 (p.startingBlock + 4096)
    if readBitmapBlock readable startingBlock then
      .ok ⟨p.bitmap, startingBlock, startingBlock / 4096 * 128, 128⟩
    else .error p.bitmap
  else .ok p

/-- Store a word and move to the next one. -/
def MarkPos.store (p : MarkPos) (word : BitVec 32) : MarkPos :=
  ⟨update p.bitmap p.currentWord word, p.startingBlock, p.currentWord + 1, p.wordsLeft - 1⟩

/-- The loop over whole words of `BlockMarkAllocated` and `BlockMarkFree`. -/
def markWords (readable : ℕ → Bool) (whole : BitVec 32) : ℕ → MarkPos → Except Bitmap MarkPos
  | 0, p => .ok p
  | n + 1, p =>
    match p.advance readable with
    | .error bitmap => .error bitmap
    | .ok p => markWords readable whole n (p.store whole)

/-- A first word that is not whole is treated on its own: the position behind it and the
number of blocks left. -/
def markHead (put : BitVec 32 → BitVec 32 → BitVec 32) (p : MarkPos) (numBlocks : ℕ) : MarkPos × ℕ :=
  let firstBit := p.startingBlock % 32
  let allOnes := BitVec.allOnes 32
  if firstBit ≠ 0 then
    let numBits := if 32 - firstBit > numBlocks then numBlocks else 32 - firstBit
    let mask := if 32 - firstBit > numBlocks then
      (allOnes >>> firstBit) &&& ~~~(allOnes >>> (firstBit + numBits)) else allOnes >>> firstBit
    (p.store (put (p.bitmap p.currentWord) mask), numBlocks - numBits)
  else (p, numBlocks)

/-- The whole words and then the first bits of one more word. -/
def markRest (put : BitVec 32 → BitVec 32 → BitVec 32) (whole : BitVec 32) (readable : ℕ → Bool)
    (p : MarkPos) (numBlocks : ℕ) : OSErr × Bitmap :=
  match markWords readable whole (numBlocks / 32) p with
  | .error bitmap => (.readErr, bitmap)
  | .ok p =>
    if numBlocks % 32 ≠ 0 then
      match p.advance readable with
      | .error bitmap => (.readErr, bitmap)
      | .ok p =>
        let mask := ~~~(BitVec.allOnes 32 >>> (numBlocks % 32))
        (.noErr, (p.store (put (p.bitmap p.currentWord) mask)).bitmap)
    else (.noErr, p.bitmap)

/-- The common body of `BlockMarkAllocated` and `BlockMarkFree`: `put` changes the bits of a
mask in a word and `whole` is a word all of whose bits are changed. -/
def blockMark (put : BitVec 32 → BitVec 32 → BitVec 32) (whole : BitVec 32)
    (readable : ℕ → Bool) (bitmap : Bitmap) (startingBlock numBlocks : ℕ) : OSErr × Bitmap :=
  if readBitmapBlock readable startingBlock then
    let wordIndexInBlock := startingBlock % 4096 / 32
    let head := markHead put ⟨bitmap, startingBlock,
      startingBlock / 4096 * 128 + wordIndexInBlock, 128 - wordIndexInBlock⟩ numBlocks
    markRest put whole readable head.1 head.2
  else (.readErr, bitmap)

def blockMarkAllocated : (ℕ → Bool) → Bitmap → ℕ → ℕ → OSErr × Bitmap :=
  blockMark (fun word mask => word ||| mask) (BitVec.allOnes 32)

def blockMarkFree : (ℕ → Bool) → Bitmap → ℕ → ℕ → OSErr × Bitmap :=
  blockMark (fun word mask => word &&& ~~~mask) 0

/-! ## Contiguous allocation -/

/-- The variables of the backward search of `BlockFindContiguous`. The buffer holds bitmap
block `currentSector` and the current word is the word `wordsLeft` of it. -/
structure Search where
  stopBlock : ℕ
  currentBlock : ℕ
  freeBlocks : ℕ
  countedFreeBlocks : ℕ
  currentSector : ℕ
  wordsLeft : ℕ
  tempWord : BitVec 32
  bitMask : BitVec 32
  deriving DecidableEq, Repr

/-- How a stretch of the search ends: it goes on, it leaves the loop or a read fails. -/
inductive Walk where
  | more (s : Search)
  | done (s : Search)
  | failed
  deriving DecidableEq, Repr

/-- Point the search at the bit of `currentBlock`, with its bitmap block in the buffer. -/
def Search.point (bitmap : Bitmap) (s : Search) : Search :=
  let wordIndexInBlock := s.currentBlock % 4096 / 32
  { s with wordsLeft := wordIndexInBlock,
           tempWord := bitmap (s.currentSector * 128 + wordIndexInBlock),
           bitMask := maskAt 32 (s.currentBlock % 32) }

/-- The statements from the label `NextWord`. A word of free blocks is skipped as a whole;
each such turn adds 32 to `freeBlocks`, so that there is one turn for each 32 of `minBlocks`
and one more. -/
def nextWord (readable : ℕ → Bool) (bitmap : Bitmap) (minBlocks : ℕ) : ℕ → Search → Walk
  | 0, s => .more s
  | n + 1, s =>
    let moved : Option Search :=
      if s.wordsLeft ≠ 0 then some { s with wordsLeft := s.wordsLeft - 1 }
      else if readBitmapBlock readable s.currentBlock then
        some { s with currentSector := s.currentBlock / 4096, wordsLeft := 127 }
      else none
    match moved with
    | none => .failed
    | some s =>
      let s := { s with tempWord := bitmap (s.currentSector * 128 + s.wordsLeft) }
      if s.tempWord = 0 then
        let s := { s with freeBlocks := u32 (s.freeBlocks + 32),
                          currentBlock := u32Sub s.currentBlock 32 }
        if u32 (s.freeBlocks + s.countedFreeBlocks) ≥ minBlocks then .done s
        else nextWord readable bitmap minBlocks n s
      else .more s

/-- One turn of the backward loop. -/
def searchStep (readable : ℕ → Bool) (bitmap : Bitmap) (endingBlock minBlocks : ℕ) (s : Search) :
    Walk :=
  if s.currentBlock < s.stopBlock then .done s
  else if s.tempWord &&& s.bitMask = 0 then
    let s := { s with freeBlocks := u32 (s.freeBlocks + 1),
                      currentBlock := u32Sub s.currentBlock 1, bitMask := s.bitMask <<< 1 }
    if s.bitMask = 0 then
      nextWord readable bitmap minBlocks (minBlocks / 32 + 2) { s with bitMask := 1 }
    else .more s
  else if u32 (s.freeBlocks + s.countedFreeBlocks) ≥ minBlocks then .done s
  else
    -- a used block: look for the rest of `minBlocks` behind the free blocks already seen
    let s' := { s with stopBlock := u32 (s.currentBlock + 1 + s.freeBlocks),
                       currentBlock := u32 (s.currentBlock + minBlocks) }
    if s'.currentBlock ≥ endingBlock then .done s'
    else
      let s' := { s' with countedFreeBlocks := s.freeBlocks, freeBlocks := 0 }
      if s'.currentSector ≠ s'.currentBlock / 4096 then
        if readBitmapBlock readable s'.currentBlock then
          .more ({ s' with currentSector := s'.currentBlock / 4096 }.point bitmap)
        else .failed
      else .more (s'.point bitmap)

/-- The backward loop; `none` when the fuel is used up. -/
def searchLoop (readable : ℕ → Bool) (bitmap : Bitmap) (endingBlock minBlocks : ℕ) :
    ℕ → Search → Option (Option Search)
  | 0, _ => none
  | n + 1, s =>
    match searchStep readable bitmap endingBlock minBlocks s with
    | .failed => some none
    | .done s => some (some s)
    | .more s => searchLoop readable bitmap endingBlock minBlocks n s

/-- The forward loop of `BlockFindContiguous`, with the blocks up to `endingBlock` as fuel. It
counts the blocks, also those before a failed read. -/
def extendRun (readable : ℕ → Bool) (bitmap : Bitmap) (maxBlocks : ℕ) :
    ℕ → ℕ → ℕ → Cursor → OSErr × ℕ
  | 0, _, actualNumBlocks, _ => (.noErr, actualNumBlocks)
  | n + 1, block, actualNumBlocks, c =>
    if c.currentWord &&& c.bitMask = 0 then
      if actualNumBlocks + 1 = maxBlocks then (.noErr, actualNumBlocks + 1)
      else match c.next readable bitmap (block + 1) with
        | none => (.readErr, actualNumBlocks + 1)
        | some c' => extendRun readable bitmap maxBlocks n (block + 1) (actualNumBlocks + 1) c'
    else (.noErr, actualNumBlocks)

/-- `BlockFindContiguous`: the first block and the number of blocks. -/
def blockFindContiguous (vcb : Vcb) (startingBlock endingBlock minBlocks maxBlocks : ℕ) :
    Option (OSErr × ℕ × ℕ) :=
  if u32Sub endingBlock startingBlock < minBlocks then some (.dskFulErr, 0, 0)
  else
    let currentBlock := u32Sub (u32 (startingBlock + minBlocks)) 1
    if readBitmapBlock vcb.readable currentBlock then
      let s : Search := Search.point vcb.bitmap
        ⟨startingBlock, currentBlock, 0, 0, currentBlock / 4096, 0, 0, 0⟩
      match searchLoop vcb.readable vcb.bitmap endingBlock minBlocks (2 ^ 35) s with
      | none => none
      | some none => some (.readErr, 0, 0)
      | some (some s) =>
        if u32 (s.freeBlocks + s.countedFreeBlocks) < minBlocks then some (.dskFulErr, 0, 0)
        else
          let actualStartBlock := u32Sub s.stopBlock s.countedFreeBlocks
          let currentBlock := u32 (actualStartBlock + minBlocks)
          if s.currentSector ≠ currentBlock / 4096 ∧
              readBitmapBlock vcb.readable currentBlock = false then
            some (.noErr, actualStartBlock, minBlocks)
          else if minBlocks < maxBlocks then
            let extended := extendRun vcb.readable vcb.bitmap maxBlocks (endingBlock - currentBlock)
              currentBlock minBlocks (Cursor.init vcb.bitmap currentBlock)
            some (extended.1, actualStartBlock, extended.2)
          else some (.noErr, actualStartBlock, minBlocks)
    else some (.readErr, 0, 0)

def blockAllocateContig (vcb : Vcb) (startingBlock minBlocks maxBlocks : ℕ) : Option Alloc :=
  let first := blockFindContiguous vcb startingBlock vcb.totalBlocks minBlocks maxBlocks
  let found := first.bind (fun r => if r.1 = .dskFulErr then
    blockFindContiguous vcb 0 vcb.totalBlocks minBlocks maxBlocks else some r)
  found.map (fun r =>
    if r.1 ≠ .noErr then ⟨r.1, 0, 0, vcb.bitmap⟩
    else
      let marked := blockMarkAllocated vcb.readable vcb.bitmap r.2.1 r.2.2
      if marked.1 ≠ .noErr then ⟨marked.1, 0, 0, marked.2⟩
      else ⟨.noErr, r.2.1, r.2.2, marked.2⟩)

/-! ## The entry points -/

/-- `UpdateVCBFreeBlks`: the free space in blocks of the size that the HFS structure gives. -/
def updateVCBFreeBlks (vcb : Vcb) : Vcb :=
  let hfsCompatabilityFreeBlocks :=
    u32 (vcb.freeBlocks * (vcb.blockSize / 512)) / (vcb.vcbAlBlkSiz / 512)
  { vcb with vcbFreeBks := if hfsCompatabilityFreeBlocks > 0xFFFF then 0xFFFF
                           else hfsCompatabilityFreeBlocks }

/-- The result of `BlockAllocate` with the volume it leaves. -/
structure Result where
  err : OSErr
  actualStartBlock : ℕ
  actualNumBlocks : ℕ
  vcb : Vcb

/-- The starting block that is used: 0 stands for the roving pointer. -/
def Vcb.startFor (vcb : Vcb) (startingBlock : ℕ) : ℕ :=
  if startingBlock = 0 then vcb.nextAllocation else startingBlock

/-- `BlockAllocate`; `none` when the search for a contiguous range does not end. -/
def blockAllocate (vcb : Vcb) (startingBlock bytesRequested bytesMaximum : ℕ)
    (forceContiguous : Bool) : Option Result :=
  let minBlocks := divideAndRoundUp bytesRequested vcb.blockSize
  let maxBlocks := divideAndRoundUp bytesMaximum vcb.blockSize
  if vcb.freeBlocks = 0 then some ⟨.dskFulErr, 0, 0, vcb⟩
  else if forceContiguous ∧ vcb.freeBlocks < minBlocks then some ⟨.dskFulErr, 0, 0, vcb⟩
  else
    let start := vcb.startFor startingBlock
    let alloc : Option Alloc :=
      if forceContiguous then blockAllocateContig vcb start minBlocks maxBlocks
      else
        let a := blockAllocateAny vcb start vcb.totalBlocks maxBlocks
        some (if a.err = .dskFulErr then
          blockAllocateAny { vcb with bitmap := a.bitmap } 0 start maxBlocks else a)
    alloc.map (fun a =>
      let vcb := { vcb with bitmap := a.bitmap }
      if a.err = .noErr then
        ⟨.noErr, a.actualStartBlock, a.actualNumBlocks, updateVCBFreeBlks
          { vcb with
            nextAllocation := if startingBlock = 0 then a.actualStartBlock else vcb.nextAllocation
            freeBlocks := u32Sub vcb.freeBlocks a.actualNumBlocks }⟩
      else ⟨a.err, a.actualStartBlock, a.actualNumBlocks, vcb⟩)

def blockDeallocate (vcb : Vcb) (firstBlock numBlocks : ℕ) : OSErr × Vcb :=
  if numBlocks = 0 then (.noErr, vcb)
  else
    let marked := blockMarkFree vcb.readable vcb.bitmap firstBlock numBlocks
    let vcb := { vcb with bitmap := marked.2 }
    if marked.1 ≠ .noErr then (marked.1, vcb)
    else (.noErr, updateVCBFreeBlks { vcb with freeBlocks := u32 (vcb.freeBlocks + numBlocks) })

/-- The loop that counts the set bits of `temp`. -/
def countBits : ℕ → BitVec 32 → ℕ → ℕ
  | 0, _, freeCount => freeCount
  | n + 1, temp, freeCount =>
    if temp = 0 then freeCount else countBits n (temp &&& (temp - 1)) (freeCount + 1)

/-- The loop that looks at the first bits of `temp`. -/
def countTail : ℕ → BitVec 32 → ℕ → ℕ
  | 0, _, freeCount => freeCount
  | n + 1, temp, freeCount =>
    countTail n (temp <<< 1) (if temp &&& maskAt 32 0 ≠ 0 then freeCount + 1 else freeCount)

/-- The words `UpdateFreeCount` scans: the count, the word pointer, the words left and the
block number of the bitmap block, with `none` for a failed read. -/
def countWords (readable : ℕ → Bool) (bitmap : Bitmap) :
    ℕ → ℕ → MarkPos → Option (ℕ × MarkPos)
  | 0, freeCount, p => some (freeCount, p)
  | n + 1, freeCount, p =>
    match p.advance readable with
    | .error _ => none
    | .ok p => countWords readable bitmap n (countBits 32 (~~~(bitmap p.currentWord)) freeCount)
        { p with currentWord := p.currentWord + 1, wordsLeft := p.wordsLeft - 1 }

def updateFreeCount (vcb : Vcb) : OSErr × Vcb :=
  let counted : Option ℕ :=
    if readBitmapBlock vcb.readable 0 then
      match countWords vcb.readable vcb.bitmap (vcb.totalBlocks / 32) 0 ⟨vcb.bitmap, 0, 0, 128⟩ with
      | none => none
      | some (freeCount, p) =>
        if vcb.totalBlocks % 32 ≠ 0 then
          match p.advance vcb.readable with
          | .error _ => none
          | .ok p => some (countTail (vcb.totalBlocks % 32) (~~~(vcb.bitmap p.currentWord)) freeCount)
        else some freeCount
    else none
  match counted with
  | none => (.readErr, vcb)
  | some freeCount => (.noErr, updateVCBFreeBlks { vcb with freeBlocks := freeCount })

end Darwin.Hfs.VolumeAllocation
