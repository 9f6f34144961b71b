import Darwin.Vm.MapCopy

/-! # Paging to files

A pager file has a bit for each of its pages. A pager has a map from the pages of an object to pages
of pager files: an array of entries while it is small, and then an array of blocks of entries, which
come into being one by one.
-/
namespace Darwin.Vm
open Darwin.Lib Function

/-- `index` has 8 bits and `offset` 24. -/
structure PfEntry where
  index : ℕ
  offset : ℕ
  deriving DecidableEq, Repr

def indexNull : ℕ := 0

/-- What is written over new memory. -/
def PfEntry.null : PfEntry := ⟨indexNull, 0⟩

structure PagerFile where
  pfBmap : ℕ → Bool
  pfNpgs : ℕ
  pfPfree : ℕ
  pfHipage : ℤ
  pfHint : ℕ
  pfCount : ℤ

/-- A word of a page map: an entry in a direct map, the null pointer or a block in an indirect one. -/
inductive PmapWord where
  | entry (e : PfEntry)
  | null
  | block (entries : List PfEntry)
  deriving DecidableEq, Repr

structure Vstruct where
  vsPf : ℕ
  vsPmap : List PmapWord
  vsSize : ℕ
  deriving DecidableEq, Repr

/-- A pager file is named by its `pf_index`, which is also its place in `pager_files`. -/
structure PagingSpace where
  pagerFile : ℕ → Option PagerFile
  pagerFileCount : ℕ
  vstruct : ℕ → Option Vstruct

/-- What stops the kernel. -/
inductive PagerStop where
  /-- vnode_pager_allocpage -/
  | allocpage
  /-- vnode_pager_deallocpage -/
  | deallocpage
  /-- pagerfile_bmap: bad index -/
  | badIndex
  /-- pagerfile_bmap: 0 index -/
  | zeroIndex
  /-- Memory is not what it is used as. -/
  | stray
  /-- A place behind the end of `pager_file_list` or `seen_files` is used. -/
  | overrun
  deriving DecidableEq, Repr

inductive PagerReturn where
  | success
  | failure
  deriving DecidableEq, Repr

/-- The places where memory is asked for without waiting. -/
inductive KgetSite where
  | vstruct
  | map
  | firstBlock
  | block
  deriving DecidableEq, Repr

def maxPagerFiles : ℕ := 16
def nbby : ℕ := 8
def pagemapEntries : ℕ := 16

def atop (x : ℕ) : ℕ := x / pageSize

def howmany (x y : ℕ) : ℕ := (x + (y - 1)) / y

def indirPagemapEntries (npgs : ℕ) : ℕ := (npgs - 1) / pagemapEntries + 1

def indirPagemap (size : ℕ) : Bool := pagemapEntries < size

namespace PagingSpace

def getFile (s : PagingSpace) (pf : ℕ) : Except PagerStop PagerFile :=
  match s.pagerFile pf with
  | some f => .ok f
  | none => .error .stray

def setFile (s : PagingSpace) (pf : ℕ) (f : PagerFile) : PagingSpace :=
  { s with pagerFile := update s.pagerFile pf (some f) }

/-- `pager_file_list`. -/
def pagerFileList (s : PagingSpace) (index : ℕ) : Except PagerStop PagerFile :=
  if index < maxPagerFiles then s.getFile index else .error .overrun

def getVstruct (s : PagingSpace) (vs : ℕ) : Except PagerStop Vstruct :=
  match s.vstruct vs with
  | some v => .ok v
  | none => .error .stray

def setVstruct (s : PagingSpace) (vs : ℕ) (v : Vstruct) : PagingSpace :=
  { s with vstruct := update s.vstruct vs (some v) }

end PagingSpace

/-! ## Pages of a pager file -/

/-- All bits of the byte are set. -/
def PagerFile.byteFull (f : PagerFile) (bp : ℕ) : Bool := (List.range nbby).all (fun i => f.pfBmap (bp * nbby + i))

/-- The page where the search from the hint ends. -/
def PagerFile.searchPage (f : PagerFile) : ℕ :=
  match (List.range' (f.pfHint / nbby) (howmany f.pfNpgs nbby - f.pfHint / nbby)).find? (fun bp => !f.byteFull bp) with
  | some bp => bp * nbby + ((List.range nbby).find? (fun i => !f.pfBmap (bp * nbby + i))).getD nbby
  | none => max (f.pfHint / nbby) (howmany f.pfNpgs nbby) * nbby

/-- The page, or `none` for -1. -/
def vnodePagerAllocpage (s : PagingSpace) (pf : ℕ) : Except PagerStop (Option ℕ × PagingSpace) := do
  let f ← s.getFile pf
  if f.pfPfree = 0 then return (none, s)
  let page := f.searchPage
  if f.pfNpgs ≤ page then throw .allocpage
  return (some page, s.setFile pf { f with
    pfHipage := if f.pfHipage < page then page else f.pfHipage
    pfBmap := update f.pfBmap page true
    pfPfree := f.pfPfree - 1
    pfHint := page })

/-- The loop over the pager files; behind the last one comes the head of the queue, which is none. -/
def findpageLoop (preferPf : ℕ) : ℕ → PagingSpace → ℕ → Except PagerStop (PagerReturn × PfEntry × PagingSpace)
  | 0, _, _ => .error .stray
  | fuel + 1, s, pf => do
    let (result, s) ← vnodePagerAllocpage s pf
    match result with
    | some page => return (.success, ⟨pf % 2 ^ 8, page % 2 ^ 24⟩, s)
    | none =>
      if preferPf = pf + 1 then return (.failure, .null, s)
      else findpageLoop preferPf fuel s (pf + 1)

/-- The preferred file is that of a pager. -/
def vnodePagerFindpage (s : PagingSpace) (preferPf : ℕ) : Except PagerStop (PagerReturn × PfEntry × PagingSpace) :=
  findpageLoop preferPf (s.pagerFileCount + 1) s preferPf

def vnodePagerDeallocpage (s : PagingSpace) (entry : PfEntry) : Except PagerStop PagingSpace := do
  if entry.index = indexNull then return s
  let f ← s.pagerFileList entry.index
  if f.pfNpgs ≤ entry.offset then throw .deallocpage
  return s.setFile entry.index { f with
    pfHint := if entry.offset < f.pfHint then entry.offset else f.pfHint
    pfBmap := update f.pfBmap entry.offset false
    pfPfree := f.pfPfree + 1 }

/-! ## The map of a pager -/

/-- A word that is used as an entry. -/
def PmapWord.asEntry : PmapWord → Except PagerStop PfEntry
  | .entry e => .ok e
  | .null | .block _ => .error .stray

/-- A word that is used as a pointer to a block. -/
def PmapWord.asBlock : PmapWord → Except PagerStop (Option (List PfEntry))
  | .null => .ok none
  | .block entries => .ok (some entries)
  | .entry _ => .error .stray

def Vstruct.word (v : Vstruct) (i : ℕ) : Except PagerStop PmapWord :=
  match v.vsPmap[i]? with
  | some w => .ok w
  | none => .error .stray

def blockEntry (entries : List PfEntry) (i : ℕ) : Except PagerStop PfEntry :=
  match entries[i]? with
  | some e => .ok e
  | none => .error .stray

def foundEntry (e : PfEntry) : Option PfEntry := if e.index = indexNull then none else some e

/-- The entry, or `none` for `FALSE`. -/
def pagerfileLookup (v : Vstruct) (fOffset : ℕ) : Except PagerStop (Option PfEntry) := do
  let fPage := atop fOffset
  if v.vsSize ≤ fPage then return none
  if indirPagemap v.vsSize then
    match ← (← v.word (fPage / pagemapEntries)).asBlock with
    | none => return none
    | some entries => return foundEntry (← blockEntry entries (fPage % pagemapEntries))
  else return foundEntry (← (← v.word fPage).asEntry)

/-- The entries of the words of a direct map. -/
def directEntries : List PmapWord → Except PagerStop (List PfEntry)
  | [] => .ok []
  | w :: rest => return (← w.asEntry) :: (← directEntries rest)

/-- The map of an object that has grown, or `none` when there is no memory for it. The map may stay
where it is. -/
def expandMap (kget : KgetSite → Bool) (v : Vstruct) (newSize : ℕ) : Except PagerStop (Option Vstruct) := do
  if indirPagemap newSize then
    if v.vsSize = 0 then
      if kget .map then
        return some { v with vsPmap := List.replicate (indirPagemapEntries newSize) .null, vsSize := newSize }
      else return none
    else if indirPagemap v.vsSize then
      if indirPagemapEntries newSize = indirPagemapEntries v.vsSize then return some { v with vsSize := newSize }
      else if kget .map then
        let old := v.vsPmap.take (indirPagemapEntries v.vsSize)
        return some { v with
          vsPmap := old ++ List.replicate (indirPagemapEntries newSize - indirPagemapEntries v.vsSize) .null
          vsSize := newSize }
      else return none
    else if kget .map then
      if kget .firstBlock then
        let old ← directEntries (v.vsPmap.take v.vsSize)
        return some { v with
          vsPmap := .block (old ++ List.replicate (pagemapEntries - v.vsSize) .null) ::
            List.replicate (indirPagemapEntries newSize - 1) .null
          vsSize := newSize }
      else return none
    else return none
  else if kget .map then
    return some { v with
      vsPmap := v.vsPmap.take v.vsSize ++ List.replicate (newSize - v.vsSize) (.entry .null)
      vsSize := newSize }
  else return none

inductive BmapFlag where
  | read
  | write
  deriving DecidableEq, Repr

/-- What `pagerfile_bmap` has come to when it does not return. -/
inductive BmapStage where
  | done (result : PagerReturn) (entry : Option PfEntry)
  /-- It looks for a page next. -/
  | place
  deriving DecidableEq, Repr

/-- Whether the page is given up, because there is a free one before it. -/
def bmapRewrite (s : PagingSpace) (entry : PfEntry) : Except PagerStop (Bool × PagingSpace) := do
  if entry.index = 0 then throw .zeroIndex
  let f ← s.pagerFileList entry.index
  if f.pfHint < entry.offset then return (true, ← vnodePagerDeallocpage s entry)
  else return (false, s)

/-- The block that the page is in, when the map is indirect. -/
def allocBlock (kget : KgetSite → Bool) (v : Vstruct) (fPage : ℕ) : Except PagerStop (Option Vstruct) := do
  if indirPagemap v.vsSize then
    let indirBlock := fPage / pagemapEntries
    match ← (← v.word indirBlock).asBlock with
    | some _ => return some v
    | none =>
      if kget .block then
        return some { v with vsPmap := v.vsPmap.set indirBlock (.block (List.replicate pagemapEntries .null)) }
      else return none
  else return some v

/-- If the object has grown, the page map is expanded. -/
def growMap (kget : KgetSite → Bool) (v : Vstruct) (fPage : ℕ) : Except PagerStop (Option Vstruct) :=
  if v.vsSize < fPage + 1 then expandMap kget v (fPage + 1) else .ok (some v)

/-- Whether there is memory to make room for the page in the map. -/
def bmapRoom (kget : KgetSite → Bool) (s : PagingSpace) (vs fPage : ℕ) : Except PagerStop (Bool × PagingSpace) := do
  let v ← s.getVstruct vs
  match ← growMap kget v fPage with
  | none => return (false, s)
  | some v =>
    match ← allocBlock kget v fPage with
    | none => return (false, s.setVstruct vs v)
    | some v => return (true, s.setVstruct vs v)

/-- `pagerfile_bmap` to where it looks for a page. -/
def bmapPrepare (kget : KgetSite → Bool) (s : PagingSpace) (vs fOffset : ℕ) (flag : BmapFlag) :
    Except PagerStop (BmapStage × PagingSpace) := do
  let found ← pagerfileLookup (← s.getVstruct vs) fOffset
  if ∃ entry ∈ found, s.pagerFileCount < entry.index then throw .badIndex
  match flag, found with
  | .read, none => return (.done .failure none, s)
  | .read, some entry => return (.done .success entry, s)
  | .write, none => makeRoom s
  | .write, some entry =>
    match ← bmapRewrite s entry with
    | (true, s) => makeRoom s
    | (false, s) => return (.done .success entry, s)
where
  makeRoom (s : PagingSpace) : Except PagerStop (BmapStage × PagingSpace) := do
    match ← bmapRoom kget s vs (atop fOffset) with
    | (true, s) => return (.place, s)
    | (false, s) => return (.done .failure none, s)

/-- The word that gets the entry. -/
def putEntry (v : Vstruct) (fPage : ℕ) (entry : PfEntry) : Except PagerStop Vstruct := do
  if indirPagemap v.vsSize then
    let indirBlock := fPage / pagemapEntries
    match ← (← v.word indirBlock).asBlock with
    | none => throw .stray
    | some entries =>
      return { v with vsPmap := v.vsPmap.set indirBlock (.block (entries.set (fPage % pagemapEntries) entry)) }
  else return { v with vsPmap := v.vsPmap.set fPage (.entry entry) }

/-- The rest of `pagerfile_bmap`. -/
def bmapPlace (s : PagingSpace) (vs fOffset : ℕ) :
    Except PagerStop (PagerReturn × Option PfEntry × PagingSpace) := do
  let v ← s.getVstruct vs
  let (result, entry, s) ← vnodePagerFindpage s v.vsPf
  match result with
  | .failure => return (.failure, none, s)
  | .success => return (.success, some entry, s.setVstruct vs (← putEntry v (atop fOffset) entry))

def pagerfileBmap (kget : KgetSite → Bool) (s : PagingSpace) (vs fOffset : ℕ) (flag : BmapFlag) :
    Except PagerStop (PagerReturn × Option PfEntry × PagingSpace) := do
  let (stage, s) ← bmapPrepare kget s vs fOffset flag
  match stage with
  | .done result entry => return (result, entry, s)
  | .place => bmapPlace s vs fOffset

/-! ## Creation and end of a pager -/

/-- Whether there is a pager at `vs` now, which was not in use. -/
def pagerfilePagerCreate (kget : KgetSite → Bool) (s : PagingSpace) (vs pf size : ℕ) :
    Except PagerStop (Bool × PagingSpace) := do
  if !kget .vstruct then return (false, s)
  let vsSize := atop (roundPage size)
  if vsSize ≠ 0 ∧ !kget .map then return (false, s)
  let vsPmap := if indirPagemap vsSize then List.replicate (indirPagemapEntries vsSize) .null
    else List.replicate vsSize (.entry .null)
  let f ← s.getFile pf
  return (true, (s.setFile pf { f with pfCount := f.pfCount + 1 }).setVstruct vs ⟨pf, vsPmap, vsSize⟩)

/-- The static array `seen_files`. -/
def visitFile (entry : PfEntry) : List PfEntry → ℕ → Except PagerStop (List PfEntry)
  | [], i => if i < maxPagerFiles then .ok [entry] else .error .overrun
  | e :: rest, i =>
    if e.index = entry.index then .ok (⟨e.index, max e.offset entry.offset⟩ :: rest)
    else return e :: (← visitFile entry rest (i + 1))

/-- `vnode_pager_deallocpage` and `visit_file` for each entry. -/
def deallocEntries : List PfEntry → PagingSpace → List PfEntry → Except PagerStop (PagingSpace × List PfEntry)
  | [], s, seen => .ok (s, seen)
  | e :: rest, s, seen => do
    let s ← vnodePagerDeallocpage s e
    let seen ← if e.index = indexNull then pure seen else visitFile e seen 0
    deallocEntries rest s seen

def deallocBlocks : List PmapWord → PagingSpace → List PfEntry → Except PagerStop (PagingSpace × List PfEntry)
  | [], s, seen => .ok (s, seen)
  | w :: rest, s, seen => do
    match ← w.asBlock with
    | none => deallocBlocks rest s seen
    | some entries => do
      let (s, seen) ← deallocEntries entries s seen
      deallocBlocks rest s seen

/-- The pages in the map of a pager, block by block or entry by entry. -/
def deallocMap (s : PagingSpace) (v : Vstruct) : Except PagerStop (PagingSpace × List PfEntry) :=
  if indirPagemap v.vsSize then deallocBlocks (v.vsPmap.take (indirPagemapEntries v.vsSize)) s []
  else do deallocEntries (← directEntries (v.vsPmap.take v.vsSize)) s []

/-- What becomes of the highest page. -/
def vnodePagerTruncate (s : PagingSpace) (entry : PfEntry) : Except PagerStop PagingSpace := do
  let f ← s.pagerFileList entry.index
  if (entry.offset : ℤ) < f.pfHipage then return s
  match (List.range entry.offset).reverse.find? f.pfBmap with
  | some i => return s.setFile entry.index { f with pfHipage := i }
  | none => return s

def truncateSeen : List PfEntry → PagingSpace → Except PagerStop PagingSpace
  | [], s => .ok s
  | e :: rest, s => do truncateSeen rest (← vnodePagerTruncate s e)

/-- The pager is one of a swap file. -/
def vnodeDealloc (s : PagingSpace) (vs : ℕ) : Except PagerStop PagingSpace := do
  let v ← s.getVstruct vs
  let (s, seen) ← deallocMap s v
  let f ← s.getFile v.vsPf
  let s ← truncateSeen seen (s.setFile v.vsPf { f with pfCount := f.pfCount - 1 })
  return { s with vstruct := update s.vstruct vs none }

/-- `vnode_pager_file_init`; `memory` is what the new bit map holds before it is cleared. -/
def vnodePagerFileInit (s : PagingSpace) (hiwat : UInt32) (memory : ℕ → Bool) : Except PagerStop PagingSpace :=
  let npgs := atop hiwat.toNat
  let index := s.pagerFileCount + 1
  if index < maxPagerFiles then
    .ok { s with
      pagerFileCount := index
      pagerFile := update s.pagerFile index (some
        { pfBmap := fun i => if i < npgs then false else memory i
          pfNpgs := npgs
          pfPfree := npgs
          pfHipage := -1
          pfHint := 0
          pfCount := 0 }) }
  else .error .overrun

end Darwin.Vm
