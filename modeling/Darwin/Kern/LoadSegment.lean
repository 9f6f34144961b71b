import Darwin.Kern.PageMap

/-! # Loading a segment

`load_segment` allocates the pages of a segment and copies the file into them, by way of a temporary
map. The last page goes through the kernel's map when it has to be filled up with zeros.
-/
namespace Darwin.Kern
open Darwin.Lib

/-- The numbers of a segment command. -/
structure SegmentCommand where
  vmaddr : Word
  vmsize : Word
  fileoff : Word
  filesize : Word
  maxprot : Word
  initprot : Word

/-- A file behind its pager, with `vnode_size`. The bytes after its end are zero. -/
structure PagedFile where
  byte : ℕ → Byte
  size : Word
  beyond : ∀ o, size.toNat ≤ o → byte o = 0

def PagedFile.object (file : PagedFile) : PagedObject := fun o k => file.byte (o.toNat + k)

/-- The map that is loaded into, and the kernel's. -/
structure SegmentMaps where
  map : PageMap
  kernel : PageMap

namespace SegmentCommand

/-- The last page is not whole, and it is not the end of the file, behind which the pager has zeros. -/
def LastPage (scp : SegmentCommand) (size pagerOffset : Word) : Prop :=
  roundPage scp.filesize ≠ scp.filesize ∧
    (size = 0 ∨ scp.fileoff + pagerOffset + scp.filesize ≠ size)

instance (scp : SegmentCommand) (size pagerOffset : Word) :
    Decidable (scp.LastPage size pagerOffset) :=
  inferInstanceAs (Decidable (_ ∧ _))

/-- The last page is copied into the kernel, filled up, and copied to the map. -/
def copyLastPage (scp : SegmentCommand) (temp : PageMap) (destAddr : Word) (s : SegmentMaps) :
    Except LoadReturn Unit × SegmentMaps :=
  let truncAddr := truncPage scp.filesize
  match s.kernel.vmMapFind .null 0 0 pageSize true with
  | none => (.error .nospace, s)
  | some (tmpAddr, kernel) =>
    match vmMapCopy kernel temp tmpAddr pageSize truncAddr with
    | none => (.error .failure, { s with kernel := kernel.vmDeallocate tmpAddr pageSize })
    | some kernel =>
      let kernel := kernel.bzero (tmpAddr + (scp.filesize - truncAddr))
        (roundPage scp.filesize - scp.filesize)
      match vmMapCopy s.map kernel (destAddr + truncAddr) pageSize tmpAddr with
      | none => (.error .failure, { s with kernel := kernel.vmDeallocate tmpAddr pageSize })
      | some map => (.ok (), ⟨map, kernel.vmDeallocate tmpAddr pageSize⟩)

def copyRest (temp : PageMap) (destAddr copysize srcAddr : Word) (s : SegmentMaps) :
    Except LoadReturn Unit × SegmentMaps :=
  match vmMapCopy s.map temp destAddr copysize srcAddr with
  | none => (.error .failure, s)
  | some map => (.ok (), { s with map := map })

/-- The file is mapped into a temporary map, and copied from there. -/
def copyFile (scp : SegmentCommand) (file : PagedFile) (pagerOffset destAddr : Word) (s : SegmentMaps) :
    Except LoadReturn Unit × SegmentMaps :=
  let copysize := roundPage scp.filesize
  let copyoffset := scp.fileoff + pagerOffset
  if copysize.msb then (.error .badmacho, s)
  else if copysize = 0 then (.ok (), s)
  else
    match (PageMap.create 0 copysize).vmMapFind file.object copyoffset 0 copysize false with
    | none => (.error .nospace, s)
    | some (srcAddr, temp) =>
      if scp.LastPage file.size pagerOffset then
        match scp.copyLastPage temp destAddr s with
        | (.error e, s) => (.error e, s)
        | (.ok (), s) => copyRest temp destAddr (truncPage scp.filesize) srcAddr s
      else copyRest temp destAddr copysize srcAddr s

/-- The protections are set at the end. -/
def protectSegment (scp : SegmentCommand) (destAddr vmsize : Word) (map : PageMap) : PageMap :=
  let map := if scp.maxprot ≠ vmProtDefault then
    map.vmMapProtect destAddr (destAddr + vmsize) scp.maxprot true else map
  if scp.initprot ≠ vmProtDefault then
    map.vmMapProtect destAddr (destAddr + vmsize) scp.initprot false else map

def loadSegment (scp : SegmentCommand) (file : PagedFile) (pagerOffset machoSize : Word)
    (result : LoadResult) (s : SegmentMaps) : Except LoadReturn LoadResult × SegmentMaps :=
  let vmsize := roundPage scp.vmsize
  if machoSize < scp.fileoff + scp.filesize then (.error .badmacho, s)
  else if vmsize.msb then (.error .badmacho, s)
  else if vmsize = 0 then (.ok result, s)
  else
    match s.map.vmMapFind .null 0 (truncPage scp.vmaddr) vmsize false with
    | none => (.error .nospace, s)
    | some (destAddr, map) =>
      match scp.copyFile file pagerOffset destAddr { s with map := map } with
      | (.error e, s) => (.error e, s)
      | (.ok (), s) =>
        (.ok (if scp.fileoff = 0 ∧ scp.filesize ≠ 0 then { result with machHeader := destAddr } else result),
          { s with map := scp.protectSegment destAddr vmsize s.map })

/-! ## Sizes -/

/-- The sizes that are refused before anything is changed. -/
def Refused (scp : SegmentCommand) (machoSize : Word) : Prop :=
  machoSize < scp.fileoff + scp.filesize ∨ (roundPage scp.vmsize).msb = true

/-- The segment has room for its part of the file, and no size of it wraps around. -/
structure Fits (scp : SegmentCommand) (pagerOffset : Word) : Prop where
  memory : scp.vmsize.toNat + 4096 ≤ 2 ^ 32
  covers : scp.filesize.toNat ≤ (roundPage scp.vmsize).toNat
  slice : scp.filesize = 0 ∨ (scp.fileoff.toNat + scp.filesize.toNat < 2 ^ 32 ∧
    pagerOffset.toNat + scp.fileoff.toNat + scp.filesize.toNat ≤ 2 ^ 32)

/-- The page of the copy that is written first into the map cannot be written there, and it is behind
the segment. -/
def Blocked (scp : SegmentCommand) (size pagerOffset : Word) (map : PageMap) : Prop :=
  ∃ i, pages (roundPage scp.vmsize) ≤ i ∧ i < pages (roundPage scp.filesize) ∧
    (scp.LastPage size pagerOffset → i + 1 = pages (roundPage scp.filesize)) ∧
    ¬ (map.page (pageAt (truncPage scp.vmaddr) i)).any (fun p => p.protection &&& vmProtWrite = vmProtWrite)

/-- The copy ends before it reaches the map: its size is negative, or the kernel's map has no page
for the last one, or the map does not allow it. -/
def CopyStops (scp : SegmentCommand) (size pagerOffset : Word) (s : SegmentMaps) : Prop :=
  (roundPage scp.filesize).msb = true ∨
    (roundPage scp.filesize ≠ 0 ∧ scp.LastPage size pagerOffset ∧
      s.kernel.vmMapFind .null 0 0 pageSize true = none) ∨
    scp.Blocked size pagerOffset s.map

/-- There is no room for the segment, or the copy of the file ends before it reaches the map. -/
def Stops (scp : SegmentCommand) (size pagerOffset : Word) (s : SegmentMaps) : Prop :=
  roundPage scp.vmsize ≠ 0 ∧
    (s.map.vmMapFind .null 0 (truncPage scp.vmaddr) (roundPage scp.vmsize) false = none ∨
      scp.CopyStops size pagerOffset s)

/-- What the segment shows behind its address. -/
def content (scp : SegmentCommand) (file : PagedFile) (pagerOffset : Word) (x : ℕ) : Byte :=
  if x < scp.filesize.toNat then file.byte (pagerOffset.toNat + scp.fileoff.toNat + x) else 0

def pageContent (scp : SegmentCommand) (file : PagedFile) (pagerOffset : Word) (i : ℕ) (k : Fin 4096) :
    Byte :=
  scp.content file pagerOffset (4096 * i + k)

variable {scp : SegmentCommand} {file : PagedFile} {pagerOffset : Word}

theorem Fits.sizes (h : scp.Fits pagerOffset) (hv : (roundPage scp.vmsize).msb = false) :
    (roundPage scp.filesize).toNat = (scp.filesize.toNat + 4095) / 4096 * 4096 ∧
      (roundPage scp.filesize).toNat ≤ (roundPage scp.vmsize).toNat ∧
      (roundPage scp.vmsize).toNat < 2 ^ 31 := by
  have hlt : (roundPage scp.vmsize).toNat < 2 ^ 31 := by
    rw [BitVec.msb_eq_decide, decide_eq_false_iff_not, Nat.not_le] at hv
    exact hv
  have hcovers := h.covers
  have hmod := toNat_roundPage scp.vmsize
  rw [toNat_roundPage scp.filesize]
  omega

theorem toNat_copyoffset (h : scp.Fits pagerOffset) (hf : scp.filesize ≠ 0) :
    (scp.fileoff + pagerOffset).toNat = pagerOffset.toNat + scp.fileoff.toNat := by
  have hslice := (h.slice.resolve_left hf).2
  have hpos : scp.filesize.toNat ≠ 0 := fun heq => hf (BitVec.eq_of_toNat_eq heq)
  rw [BitVec.toNat_add_of_lt (by omega), Nat.add_comm]

theorem object_eq (h : scp.Fits pagerOffset) (hf : scp.filesize ≠ 0) {i : ℕ} {k : Fin 4096}
    (hx : 4096 * i + k < scp.filesize.toNat) :
    file.object (pageAt (scp.fileoff + pagerOffset) i) k = scp.pageContent file pagerOffset i k := by
  have hoff := toNat_copyoffset h hf
  have hslice := (h.slice.resolve_left hf).2
  rw [PagedFile.object, toNat_pageAt (by omega), pageContent, content, if_pos hx, hoff]
  exact congrArg file.byte (by omega)

theorem object_eq_of_end (h : scp.Fits pagerOffset) (hf : scp.filesize ≠ 0)
    (hend : file.size ≠ 0 ∧ scp.fileoff + pagerOffset + scp.filesize = file.size) {i : ℕ}
    {k : Fin 4096} (hi : 4096 * i < scp.filesize.toNat) :
    file.object (pageAt (scp.fileoff + pagerOffset) i) k = scp.pageContent file pagerOffset i k := by
  by_cases hx : 4096 * i + k < scp.filesize.toNat
  · exact object_eq h hf hx
  · have hoff := toNat_copyoffset h hf
    have hslice := (h.slice.resolve_left hf).2
    have hsize : file.size.toNat ≠ 0 := fun heq => hend.1 (BitVec.eq_of_toNat_eq heq)
    have heq : (scp.fileoff + pagerOffset + scp.filesize).toNat = file.size.toNat :=
      congrArg BitVec.toNat hend.2
    rw [BitVec.toNat_add, hoff] at heq
    rw [PagedFile.object, toNat_pageAt (by omega), pageContent, content, if_neg hx, hoff]
    exact file.beyond _ (by omega)

/-! ## The copy of the file -/

variable {map : PageMap} {destAddr vmsize : Word} {r : ℕ} {s : SegmentMaps}

/-- The map has pages for the segment that can be written. -/
structure Room (map : PageMap) (destAddr vmsize : Word) : Prop where
  nonzero : 0 < pages vmsize
  inside : destAddr.toNat + vmsize.toNat < 2 ^ 32
  writable : map.Writable destAddr (pages vmsize)

theorem Room.start (h : Room map destAddr vmsize) :
    map.CheckProtection destAddr destAddr vmProtWrite := by
  obtain ⟨p, hp, -⟩ := h.writable 0 h.nonzero
  rw [pageAt_zero] at hp
  exact PageMap.checkProtection_self hp

theorem Room.paint (h : Room map destAddr vmsize) {start : Word} {c : ℕ → Fin 4096 → Byte} {n : ℕ}
    (hn : n ≤ 2 ^ 20) : Room (map.paint start c n) destAddr vmsize :=
  ⟨h.nonzero, h.inside, h.writable.paint hn⟩

theorem copyRest_eq {len : Word} (copysize : Word) (object : PagedObject) (copyoffset : Word) {s : SegmentMaps}
    {n : ℕ} (hroom : Room s.map destAddr vmsize) (hlen : len.toNat = 4096 * n)
    (hle : len.toNat ≤ vmsize.toNat) (hn : n ≤ pages copysize) (hpos : 0 < pages copysize) :
    copyRest (.showing copysize object copyoffset) destAddr len 0 s =
      (.ok (), { s with map := s.map.paint destAddr (fun i => object (pageAt copyoffset i)) n }) := by
  have hinside := hroom.inside
  have hzero : (0 : Word).toNat = 0 := rfl
  have hwrite : s.map.Writable destAddr n := by
    intro i hi
    apply hroom.writable i
    rw [pages]
    omega
  have hcopy := vmMapCopy_eq_paint (fun i => object (pageAt copyoffset i)) vmProtAll hlen
    (by omega) (by rw [hzero]; omega) hwrite hroom.start
    (fun i hi => PageMap.showing_page copysize object copyoffset (Nat.lt_of_lt_of_le hi hn))
    (PageMap.checkProtection_self (PageMap.showing_page copysize object copyoffset hpos))
  rw [copyRest, hcopy]

theorem bzero_page {m : PageMap} {a len start : Word} {byte : Fin 4096 → Byte} {p q : Word}
    (hp : m.page a = some ⟨byte, p, q⟩) (hstart : start.toNat = a.toNat + r)
    (hlen : len.toNat = 4096 - r) : (m.bzero start len).page a =
      some ⟨fun k => if r ≤ k.val then 0 else byte k, p, q⟩ := by
  rw [PageMap.bzero]
  dsimp only
  rw [hp, Option.map_some]
  refine congrArg (fun b => some (Page.mk b p q)) ?_
  funext k
  by_cases hk : r ≤ k.val
  · rw [if_pos (by omega), if_pos hk]
  · rw [if_neg (by omega), if_neg hk]

theorem copyLastPage_eq (scp : SegmentCommand) (object : PagedObject) (copyoffset : Word) {tmpAddr : Word} {s : SegmentMaps}
    {kernel : PageMap} {q : ℕ} (hroom : Room s.map destAddr vmsize)
    (hq : scp.filesize.toNat = 4096 * q + r) (hr : 0 < r ∧ r < 4096)
    (hsize : 4096 * (q + 1) ≤ vmsize.toNat)
    (hfind : s.kernel.vmMapFind .null 0 0 pageSize true = some (tmpAddr, kernel)) :
    ∃ kernel', scp.copyLastPage (.showing (roundPage scp.filesize) object copyoffset) destAddr s =
      (.ok (), ⟨s.map.paint (pageAt destAddr q)
        (fun _ k => if r ≤ k.val then 0 else object (pageAt copyoffset q) k) 1, kernel'⟩) := by
  have hinside := hroom.inside
  have hpage : pageSize.toNat = 4096 := rfl
  have hz : (0 : Word).toNat = 0 := rfl
  have htrunc : (truncPage scp.filesize).toNat = 4096 * q := by
    rw [toNat_truncPage]
    omega
  have hround : (roundPage scp.filesize).toNat = 4096 * (q + 1) := by
    rw [toNat_roundPage]
    omega
  have hpages : pages (roundPage scp.filesize) = q + 1 := by
    rw [pages, hround]
    omega
  have htruncAt : truncPage scp.filesize = pageAt 0 q := by
    apply BitVec.eq_of_toNat_eq
    rw [htrunc, toNat_pageAt (by rw [hz]; omega), hz, Nat.zero_add]
  have hdest : (pageAt destAddr q).toNat = destAddr.toNat + 4096 * q := toNat_pageAt (by omega)
  have hdestAt : destAddr + truncPage scp.filesize = pageAt destAddr q := by
    apply BitVec.eq_of_toNat_eq
    rw [BitVec.toNat_add_of_lt (by omega), hdest, htrunc]
  -- the page in the kernel's map
  obtain ⟨-, -, hlt, -, hkernel⟩ := PageMap.vmMapInsert_eq_some (PageMap.vmMapFind_anywhere hfind)
  have hsub : tmpAddr + pageSize - tmpAddr = pageSize := by rw [BitVec.add_comm, BitVec.add_sub_cancel]
  have hone : pages pageSize = 1 := rfl
  rw [hsub, hone] at hkernel
  have htmp : tmpAddr.toNat + 4096 < 2 ^ 32 := by
    rw [BitVec.lt_def, BitVec.toNat_add, hpage] at hlt
    have := tmpAddr.isLt
    omega
  have hkpage : kernel.page (pageAt tmpAddr 0) =
      some ⟨PagedObject.null (pageAt 0 0), vmProtDefault, vmProtAll⟩ := by
    rw [hkernel]
    exact PageMap.onRange_at Nat.one_le_two_pow Nat.zero_lt_one
  have hpainted := PageMap.paint_at (fun _ => object (pageAt copyoffset q))
    Nat.one_le_two_pow Nat.zero_lt_one hkpage
  rw [pageAt_zero] at hkpage hpainted
  have htpage := PageMap.showing_page (i := q) (roundPage scp.filesize) object copyoffset (by omega)
  rw [← htruncAt] at htpage
  have hcopy := vmMapCopy_page htmp (by omega) hkpage (by decide) htpage
  -- its end is filled with zeros
  have hsubr : (scp.filesize - truncPage scp.filesize).toNat = r := by
    rw [BitVec.toNat_sub_of_le (by rw [BitVec.le_def]; omega)]
    omega
  have hstart : (tmpAddr + (scp.filesize - truncPage scp.filesize)).toNat = tmpAddr.toNat + r := by
    rw [BitVec.toNat_add_of_lt (by omega), hsubr]
  have hlen : (roundPage scp.filesize - scp.filesize).toNat = 4096 - r := by
    rw [BitVec.toNat_sub_of_le (by rw [BitVec.le_def]; omega)]
    omega
  have hfilled := bzero_page hpainted hstart hlen
  generalize hfill : PageMap.bzero _ _ _ = filled at hfilled
  -- and it is copied to the map
  obtain ⟨p, hp, hw⟩ := hroom.writable q (by rw [pages]; omega)
  have hback := vmMapCopy_page (by omega) htmp hp hw hfilled
  refine ⟨filled.vmDeallocate tmpAddr pageSize, ?_⟩
  unfold copyLastPage
  simp only [hfind, hcopy, hfill, hdestAt]
  rw [hback]

/-- The copy can be made: if a page of the kernel is needed, there is one. -/
def Copies (scp : SegmentCommand) (size pagerOffset : Word) (kernel : PageMap) : Prop :=
  scp.filesize = 0 ∨
    (scp.LastPage size pagerOffset → (kernel.vmMapFind .null 0 0 pageSize true).isSome)

theorem roundPage_eq_zero (h : scp.filesize = 0) : roundPage scp.filesize = 0 := by
  rw [h]
  rfl

theorem copyFile_run (hmsb : (roundPage scp.filesize).msb = false) (hcopysize : roundPage scp.filesize ≠ 0)
    (s : SegmentMaps) : scp.copyFile file pagerOffset destAddr s =
      let temp := PageMap.showing (roundPage scp.filesize) file.object (scp.fileoff + pagerOffset)
      if scp.LastPage file.size pagerOffset then
        match scp.copyLastPage temp destAddr s with
        | (.error e, s) => (.error e, s)
        | (.ok (), s) => copyRest temp destAddr (truncPage scp.filesize) 0 s
      else copyRest temp destAddr (roundPage scp.filesize) 0 s := by
  unfold copyFile
  simp only [hmsb, Bool.false_eq_true, if_false, if_neg hcopysize, PageMap.vmMapFind_create hcopysize]

theorem Fits.roundPage_filesize (h : scp.Fits pagerOffset) (hv : (roundPage scp.vmsize).msb = false) :
    (roundPage scp.filesize).msb = false ∧ (scp.filesize ≠ 0 → roundPage scp.filesize ≠ 0) := by
  obtain ⟨hround, hle, hbound⟩ := h.sizes hv
  refine ⟨?_, ?_⟩
  · rw [BitVec.msb_eq_decide, decide_eq_false_iff_not]
    omega
  · intro hf heq
    have hpos : scp.filesize.toNat ≠ 0 := fun hz => hf (BitVec.eq_of_toNat_eq hz)
    have hzero : (roundPage scp.filesize).toNat = 0 := congrArg BitVec.toNat heq
    omega

theorem copyFile_eq (h : scp.Fits pagerOffset) (hv : (roundPage scp.vmsize).msb = false) {s : SegmentMaps}
    (hroom : Room s.map destAddr (roundPage scp.vmsize))
    (hcopies : scp.Copies file.size pagerOffset s.kernel) :
    ∃ kernel, scp.copyFile file pagerOffset destAddr s = (.ok (),
      ⟨s.map.paint destAddr (scp.pageContent file pagerOffset) (pages (roundPage scp.filesize)), kernel⟩) := by
  obtain ⟨hround, hle, hbound⟩ := h.sizes hv
  obtain ⟨hmsb, hcopysize⟩ := h.roundPage_filesize hv
  by_cases hf : scp.filesize = 0
  · refine ⟨s.kernel, ?_⟩
    rw [roundPage_eq_zero hf]
    unfold copyFile
    rw [if_neg (by rw [hmsb]; decide), if_pos (roundPage_eq_zero hf)]
    rfl
  have hpos : scp.filesize.toNat ≠ 0 := fun heq => hf (BitVec.eq_of_toNat_eq heq)
  have hpages : 4096 * pages (roundPage scp.filesize) = (roundPage scp.filesize).toNat := by
    rw [pages]
    omega
  rw [copyFile_run hmsb (hcopysize hf)]
  dsimp only
  by_cases hlast : scp.LastPage file.size pagerOffset
  · -- the last page by way of the kernel, then the whole pages
    obtain ⟨r, hr⟩ : ∃ r, r = scp.filesize.toNat % 4096 := ⟨_, rfl⟩
    obtain ⟨q, hq⟩ : ∃ q, q = scp.filesize.toNat / 4096 := ⟨_, rfl⟩
    have hrpos : r ≠ 0 := by
      intro hzero
      refine hlast.1 (BitVec.eq_of_toNat_eq ?_)
      rw [hround]
      omega
    have htrunc : (truncPage scp.filesize).toNat = 4096 * q := by
      rw [toNat_truncPage]
      omega
    have hsucc : pages (roundPage scp.filesize) = q + 1 := by omega
    obtain ⟨⟨tmpAddr, kernel⟩, hfind⟩ := Option.isSome_iff_exists.mp (hcopies.resolve_left hf hlast)
    obtain ⟨kernel', hlastPage⟩ := copyLastPage_eq (r := r) (q := q) scp file.object
      (scp.fileoff + pagerOffset) hroom (by omega) (by omega) (by omega) hfind
    have hpaint : (s.map.paint (pageAt destAddr q) (fun _ k => if r ≤ k.val then 0 else
        file.object (pageAt (scp.fileoff + pagerOffset) q) k) 1).paint destAddr
          (fun i => file.object (pageAt (scp.fileoff + pagerOffset) i)) q =
        s.map.paint destAddr (scp.pageContent file pagerOffset) (q + 1) := by
      refine PageMap.paint_succ (hsucc ▸ pages_le _) (fun i hi => ?_) ?_
      · funext k
        exact object_eq h hf (by omega)
      · funext k
        by_cases hk : r ≤ k.val
        · rw [if_pos hk, pageContent, content, if_neg (by omega)]
        · rw [if_neg hk]
          exact object_eq h hf (by omega)
    refine ⟨kernel', ?_⟩
    rw [if_pos hlast, hlastPage]
    dsimp only
    rw [copyRest_eq (n := q) _ _ _ (hroom.paint Nat.one_le_two_pow) htrunc, hpaint, hsucc]
    · omega
    · omega
    · omega
  · -- all pages at once
    have hrest := copyRest_eq (s := s) (roundPage scp.filesize) file.object
      (scp.fileoff + pagerOffset) hroom hpages.symm hle (Nat.le_refl _) (by omega)
    have hpaint : s.map.paint destAddr
          (fun i => file.object (pageAt (scp.fileoff + pagerOffset) i)) (pages (roundPage scp.filesize)) =
        s.map.paint destAddr (scp.pageContent file pagerOffset) (pages (roundPage scp.filesize)) := by
      refine PageMap.paint_congr (pages_le _) (fun i hi => ?_)
      funext k
      by_cases hwhole : roundPage scp.filesize = scp.filesize
      · have hsize := congrArg BitVec.toNat hwhole
        exact object_eq h hf (by omega)
      · have hend : file.size ≠ 0 ∧ scp.fileoff + pagerOffset + scp.filesize = file.size := by
          refine ⟨fun hz => hlast ⟨hwhole, .inl hz⟩, ?_⟩
          by_contra hne
          exact hlast ⟨hwhole, .inr hne⟩
        exact object_eq_of_end h hf hend (by omega)
    refine ⟨s.kernel, ?_⟩
    rw [if_neg hlast, hrest, hpaint]

theorem last_page {size : Word} {i : ℕ}
    (hlast : scp.LastPage size pagerOffset) (hi : i + 1 = pages (roundPage scp.filesize)) :
    destAddr + truncPage scp.filesize = pageAt destAddr i := by
  have hround := toNat_roundPage scp.filesize
  have hne : (roundPage scp.filesize).toNat ≠ scp.filesize.toNat :=
    fun heq => hlast.1 (BitVec.eq_of_toNat_eq heq)
  have hlt := (roundPage scp.filesize).isLt
  rw [pages] at hi
  have htrunc : truncPage scp.filesize = pageSize * BitVec.ofNat 32 i := by
    apply BitVec.eq_of_toNat_eq
    have hpage : pageSize.toNat = 4096 := rfl
    rw [toNat_truncPage, BitVec.toNat_mul, BitVec.toNat_ofNat, hpage]
    omega
  rw [htrunc, pageAt]

theorem copyLastPage_map (temp : PageMap) {s : SegmentMaps}
    (h : s.kernel.vmMapFind .null 0 0 pageSize true = none ∨
      ¬ (s.map.page (destAddr + truncPage scp.filesize)).any
        (fun p => p.protection &&& vmProtWrite = vmProtWrite)) :
    ∃ e s', scp.copyLastPage temp destAddr s = (.error e, s') ∧ s'.map = s.map := by
  unfold copyLastPage
  dsimp only
  cases hfind : s.kernel.vmMapFind .null 0 0 pageSize true with
  | none => exact ⟨_, _, rfl, rfl⟩
  | some found =>
    obtain ⟨tmpAddr, kernel⟩ := found
    have hpage := h.resolve_left (by rw [hfind]; exact Option.some_ne_none _)
    dsimp only
    cases vmMapCopy kernel temp tmpAddr pageSize (truncPage scp.filesize) with
    | none => exact ⟨_, _, rfl, rfl⟩
    | some kernel =>
      dsimp only
      rw [vmMapCopy_eq_none (i := 0) _ _ (by decide) (by rw [pageAt_zero]; exact hpage)]
      exact ⟨_, _, rfl, rfl⟩

theorem copyFile_stops (h : scp.CopyStops file.size pagerOffset s)
    (hsame : ∀ i, pages (roundPage scp.vmsize) ≤ i → i < pages (roundPage scp.filesize) →
      map.page (pageAt destAddr i) = s.map.page (pageAt (truncPage scp.vmaddr) i)) :
    ∃ e s', scp.copyFile file pagerOffset destAddr { s with map := map } = (.error e, s') ∧
      s'.map = map := by
  cases hmsb : (roundPage scp.filesize).msb with
  | true =>
    unfold copyFile
    dsimp only
    rw [if_pos hmsb]
    exact ⟨_, _, rfl, rfl⟩
  | false =>
    have hstop := h.resolve_left (by rw [hmsb]; decide)
    have hcopysize : roundPage scp.filesize ≠ 0 := by
      rcases hstop with ⟨hpos, -⟩ | ⟨i, -, hi, -⟩
      · exact hpos
      · intro hz
        rw [hz] at hi
        exact absurd hi (Nat.not_lt_zero i)
    rw [copyFile_run hmsb hcopysize]
    dsimp only
    by_cases hlast : scp.LastPage file.size pagerOffset
    · rw [if_pos hlast]
      have hcopy : ∃ e s', scp.copyLastPage (.showing (roundPage scp.filesize) file.object
          (scp.fileoff + pagerOffset)) destAddr { s with map := map } = (.error e, s') ∧
            s'.map = map := by
        apply copyLastPage_map
        rcases hstop with ⟨-, -, hfull⟩ | ⟨i, hfrom, hi, hlastPage, hpage⟩
        · exact .inl hfull
        · refine .inr ?_
          rw [last_page hlast (hlastPage hlast), hsame i hfrom hi]
          exact hpage
      obtain ⟨e, s', hrun, hmap⟩ := hcopy
      rw [hrun]
      exact ⟨e, s', rfl, hmap⟩
    · rw [if_neg hlast]
      obtain ⟨i, hfrom, hi, -, hpage⟩ := hstop.resolve_left (fun hfull => hlast hfull.2.1)
      rw [copyRest, vmMapCopy_eq_none _ _ hi (by rw [hsame i hfrom hi]; exact hpage)]
      exact ⟨_, _, rfl, rfl⟩

theorem copyStops_of_not (h : scp.Fits pagerOffset) (hv : (roundPage scp.vmsize).msb = false) {size : Word}
    (hcopies : ¬ scp.Copies size pagerOffset s.kernel) : scp.CopyStops size pagerOffset s := by
  rw [Copies, not_or, Classical.not_imp, Option.not_isSome_iff_eq_none] at hcopies
  obtain ⟨hf, hlast, hfind⟩ := hcopies
  exact .inr (.inl ⟨(h.roundPage_filesize hv).2 hf, hlast, hfind⟩)

/-! ## Confinement -/

/-- Loading keeps to the file's part and to the segment's addresses, and what it leaves there is the
contents of the segment. -/
structure Confined (scp : SegmentCommand) (file : PagedFile) (pagerOffset machoSize : Word)
    (result : LoadResult) (s : SegmentMaps) : Prop where
  /-- The map does not depend on any other byte of the file. -/
  slice : ∀ file' : PagedFile, file'.size = file.size →
    (∀ o, pagerOffset.toNat ≤ o → o < pagerOffset.toNat + machoSize.toNat → file'.byte o = file.byte o) →
    (scp.loadSegment file' pagerOffset machoSize result s).2.map =
      (scp.loadSegment file pagerOffset machoSize result s).2.map
  inside : ∀ a : Word, ¬ ((truncPage scp.vmaddr).toNat ≤ a.toNat ∧
      a.toNat < (truncPage scp.vmaddr).toNat + (roundPage scp.vmsize).toNat) →
    (scp.loadSegment file pagerOffset machoSize result s).2.map.page a = s.map.page a
  loaded : ∀ r, (scp.loadSegment file pagerOffset machoSize result s).1 = .ok r →
    scp.vmaddr.toNat % 4096 = 0 → scp.fileoff.toNat % 4096 = 0 →
    (∀ i < scp.filesize.toNat,
      (scp.loadSegment file pagerOffset machoSize result s).2.map.byteAt (scp.vmaddr + BitVec.ofNat 32 i) =
        some (file.byte (pagerOffset.toNat + scp.fileoff.toNat + i))) ∧
    ∀ i, scp.filesize.toNat ≤ i → i < scp.vmsize.toNat →
      (scp.loadSegment file pagerOffset machoSize result s).2.map.byteAt (scp.vmaddr + BitVec.ofNat 32 i) =
        some 0

theorem protectSegment_outside {a : Word}
    (ha : ¬ (destAddr.toNat ≤ a.toNat ∧ a.toNat < (destAddr + vmsize).toNat)) :
    (scp.protectSegment destAddr vmsize map).page a = map.page a := by
  have hmax : (if scp.maxprot ≠ vmProtDefault then
      map.vmMapProtect destAddr (destAddr + vmsize) scp.maxprot true else map).page a = map.page a := by
    by_cases h : scp.maxprot ≠ vmProtDefault
    · rw [if_pos h, PageMap.vmMapProtect_outside ha]
    · rw [if_neg h]
  rw [protectSegment]
  by_cases h : scp.initprot ≠ vmProtDefault
  · rw [if_pos h, PageMap.vmMapProtect_outside ha, hmax]
  · rw [if_neg h, hmax]

theorem protectSegment_byte (scp : SegmentCommand) (destAddr vmsize : Word) {a : Word} {p : Page} (hp : map.page a = some p) :
    ∃ p', (scp.protectSegment destAddr vmsize map).page a = some p' ∧ p'.byte = p.byte := by
  have hmax : ∃ p', (if scp.maxprot ≠ vmProtDefault then
      map.vmMapProtect destAddr (destAddr + vmsize) scp.maxprot true else map).page a = some p' ∧
        p'.byte = p.byte := by
    by_cases h : scp.maxprot ≠ vmProtDefault
    · rw [if_pos h]
      exact PageMap.vmMapProtect_byte hp
    · rw [if_neg h]
      exact ⟨p, hp, rfl⟩
  obtain ⟨p₁, hp₁, hbyte⟩ := hmax
  rw [protectSegment]
  by_cases h : scp.initprot ≠ vmProtDefault
  · rw [if_pos h]
    obtain ⟨p₂, hp₂, hbyte₂⟩ := PageMap.vmMapProtect_byte hp₁
    exact ⟨p₂, hp₂, hbyte₂.trans hbyte⟩
  · rw [if_neg h]
    exact ⟨p₁, hp₁, hbyte⟩

/-- A page for the segment as `vm_map_find` leaves it. -/
def emptyPage : Page := ⟨fun _ => 0, vmProtDefault, vmProtAll⟩

/-- The pages of the segment are new. -/
structure Allocated (m map : PageMap) (destAddr vmsize : Word) : Prop where
  nowrap : destAddr.toNat + vmsize.toNat < 2 ^ 32
  eq : map = m.onRange destAddr (fun _ _ => some emptyPage) (pages vmsize)

theorem allocated {m : PageMap} {addr : Word}
    (h : m.vmMapFind .null 0 addr vmsize false = some (destAddr, map)) :
    destAddr = addr ∧ Allocated m map addr vmsize := by
  obtain ⟨rfl, hins⟩ := PageMap.vmMapFind_fixed h
  obtain ⟨-, -, hlt, -, heq⟩ := PageMap.vmMapInsert_eq_some hins
  rw [BitVec.add_comm, BitVec.add_sub_cancel] at heq
  refine ⟨rfl, ?_, heq⟩
  rw [BitVec.lt_def, BitVec.toNat_add] at hlt
  have := destAddr.isLt
  omega

theorem Allocated.page {m : PageMap} (h : Allocated m map destAddr vmsize) {i : ℕ}
    (hi : i < pages vmsize) : map.page (pageAt destAddr i) = some emptyPage := by
  rw [h.eq]
  exact PageMap.onRange_at (pages_le vmsize) hi

theorem Allocated.room {m : PageMap} (h : Allocated m map destAddr vmsize) (hpos : 0 < pages vmsize) :
    Room map destAddr vmsize :=
  ⟨hpos, h.nowrap, fun _ hi => ⟨emptyPage, h.page hi, by decide⟩⟩

theorem Allocated.outside {m : PageMap} (h : Allocated m map destAddr vmsize) {a : Word}
    (ha : ¬ (destAddr.toNat ≤ a.toNat ∧ a.toNat < destAddr.toNat + vmsize.toNat)) :
    map.page a = m.page a := by
  have hnowrap := h.nowrap
  rw [h.eq]
  apply PageMap.onRange_outside
  · rw [pages]
    omega
  · rw [pages]
    omega

/-- The segment's pages after the file has been copied and the protections have been set. -/
def finished (scp : SegmentCommand) (file : PagedFile) (pagerOffset destAddr : Word) (map : PageMap) :
    PageMap :=
  scp.protectSegment destAddr (roundPage scp.vmsize)
    (map.paint destAddr (scp.pageContent file pagerOffset) (pages (roundPage scp.filesize)))

section runs
variable {machoSize : Word} {result : LoadResult} {s : SegmentMaps} {m : PageMap}

theorem loadSegment_refused (file : PagedFile) (h : scp.Refused machoSize) :
    scp.loadSegment file pagerOffset machoSize result s = (.error .badmacho, s) := by
  unfold loadSegment
  dsimp only
  by_cases hsize : machoSize < scp.fileoff + scp.filesize
  · rw [if_pos hsize]
  · rw [if_neg hsize, if_pos (h.resolve_left hsize)]

theorem loadSegment_checked (file : PagedFile) (pagerOffset : Word) (result : LoadResult) (s : SegmentMaps)
    (h : ¬ scp.Refused machoSize) (hzero : roundPage scp.vmsize ≠ 0) :
    scp.loadSegment file pagerOffset machoSize result s =
      match s.map.vmMapFind .null 0 (truncPage scp.vmaddr) (roundPage scp.vmsize) false with
      | none => (.error .nospace, s)
      | some (destAddr, map) =>
        match scp.copyFile file pagerOffset destAddr { s with map := map } with
        | (.error e, s) => (.error e, s)
        | (.ok (), s) =>
          (.ok (if scp.fileoff = 0 ∧ scp.filesize ≠ 0 then { result with machHeader := destAddr } else result),
            { s with map := scp.protectSegment destAddr (roundPage scp.vmsize) s.map }) := by
  rw [Refused, not_or] at h
  unfold loadSegment
  dsimp only
  rw [if_neg h.1, if_neg h.2, if_neg hzero]

theorem pos_pages (h : scp.Fits pagerOffset) (hzero : roundPage scp.vmsize ≠ 0) :
    0 < pages (roundPage scp.vmsize) ∧
      4096 * pages (roundPage scp.vmsize) = (roundPage scp.vmsize).toNat := by
  have hmod := toNat_roundPage scp.vmsize
  have hpos : (roundPage scp.vmsize).toNat ≠ 0 := fun heq => hzero (BitVec.eq_of_toNat_eq heq)
  have := h.memory
  rw [pages]
  omega

theorem content_congr {file' : PagedFile} (h : scp.Fits pagerOffset) (hr : ¬ scp.Refused machoSize)
    (hsame : ∀ o, pagerOffset.toNat ≤ o → o < pagerOffset.toNat + machoSize.toNat →
      file'.byte o = file.byte o) :
    scp.pageContent file' pagerOffset = scp.pageContent file pagerOffset := by
  funext i k
  rw [pageContent, pageContent, content, content]
  by_cases hx : 4096 * i + k.val < scp.filesize.toNat
  · rw [if_pos hx, if_pos hx]
    have hf : scp.filesize ≠ 0 := by
      intro hz
      rw [hz] at hx
      exact Nat.not_lt_zero _ hx
    have hle : (scp.fileoff + scp.filesize).toNat ≤ machoSize.toNat := by
      rw [Refused, not_or] at hr
      exact Nat.le_of_not_lt hr.1
    rw [BitVec.toNat_add_of_lt (h.slice.resolve_left hf).1] at hle
    exact hsame _ (by omega) (by omega)
  · rw [if_neg hx, if_neg hx]

theorem finished_byteAt (h : scp.Fits pagerOffset) (hv : (roundPage scp.vmsize).msb = false)
    (halloc : Allocated m map scp.vmaddr (roundPage scp.vmsize)) (haligned : scp.vmaddr.toNat % 4096 = 0)
    {i : ℕ} (hi : i < (roundPage scp.vmsize).toNat) :
    (scp.finished file pagerOffset scp.vmaddr map).byteAt (scp.vmaddr + BitVec.ofNat 32 i) =
      some (scp.content file pagerOffset i) := by
  obtain ⟨hround, hle, hbound⟩ := h.sizes hv
  have hnowrap := halloc.nowrap
  have hmod := toNat_roundPage scp.vmsize
  have hi32 : (BitVec.ofNat 32 i).toNat = i := by
    rw [BitVec.toNat_ofNat, Nat.mod_eq_of_lt (by omega)]
  have ha : (scp.vmaddr + BitVec.ofNat 32 i).toNat = scp.vmaddr.toNat + i := by
    rw [BitVec.toNat_add_of_lt (by omega), hi32]
  have htrunc : truncPage (scp.vmaddr + BitVec.ofNat 32 i) = pageAt scp.vmaddr (i / 4096) := by
    apply BitVec.eq_of_toNat_eq
    rw [toNat_truncPage, toNat_pageAt (by omega), ha]
    omega
  have hindex : (scp.vmaddr + BitVec.ofNat 32 i).toNat % 4096 = i % 4096 := by
    rw [ha]
    omega
  have hpage := halloc.page (i := i / 4096) (by rw [pages]; omega)
  -- the page before the protections are set
  have hpainted : ∃ p, (map.paint scp.vmaddr (scp.pageContent file pagerOffset)
      (pages (roundPage scp.filesize))).page (pageAt scp.vmaddr (i / 4096)) = some p ∧
      p.byte = scp.pageContent file pagerOffset (i / 4096) := by
    by_cases hj : i / 4096 < pages (roundPage scp.filesize)
    · exact ⟨_, PageMap.paint_at _ (pages_le _) hj hpage, rfl⟩
    · refine ⟨emptyPage, ?_, ?_⟩
      · rw [PageMap.paint, PageMap.onRange_of_ne, hpage]
        intro j hjlt heq
        have hinj := pageAt_inj scp.vmaddr (Nat.le_refl (2 ^ 20)) (i / 4096) (by omega) j
          (Nat.lt_of_lt_of_le hjlt (pages_le _)) heq
        omega
      · funext k
        rw [pageContent, content, if_neg]
        · rfl
        · rw [pages] at hj
          omega
  obtain ⟨p, hp, hbyte⟩ := hpainted
  obtain ⟨p', hp', hbyte'⟩ := scp.protectSegment_byte scp.vmaddr (roundPage scp.vmsize) hp
  rw [PageMap.byteAt, htrunc, finished, hp', Option.map_some, hbyte', hbyte, pageContent]
  have hx : 4096 * (i / 4096) + (scp.vmaddr + BitVec.ofNat 32 i).toNat % 4096 = i := by
    rw [hindex]
    omega
  dsimp only
  rw [hx]

theorem finished_outside (file : PagedFile) (h : scp.Fits pagerOffset) (hv : (roundPage scp.vmsize).msb = false)
    (halloc : Allocated m map destAddr (roundPage scp.vmsize)) {a : Word}
    (ha : ¬ (destAddr.toNat ≤ a.toNat ∧ a.toNat < destAddr.toNat + (roundPage scp.vmsize).toNat)) :
    (scp.finished file pagerOffset destAddr map).page a = m.page a := by
  obtain ⟨hround, hle, hbound⟩ := h.sizes hv
  have hnowrap := halloc.nowrap
  rw [finished, protectSegment_outside (by rw [BitVec.toNat_add_of_lt hnowrap]; exact ha), PageMap.paint,
    PageMap.onRange_outside, halloc.outside ha]
  · rw [pages]
    omega
  · rw [pages]
    omega

theorem msb_of_not (h : ¬ scp.Refused machoSize) : (roundPage scp.vmsize).msb = false := by
  rw [Refused, not_or, Bool.not_eq_true] at h
  exact h.2

theorem loadSegment_finished (file : PagedFile) (result : LoadResult) (h : scp.Fits pagerOffset) (hr : ¬ scp.Refused machoSize)
    (hzero : roundPage scp.vmsize ≠ 0)
    (hfind : s.map.vmMapFind .null 0 (truncPage scp.vmaddr) (roundPage scp.vmsize) false =
      some (destAddr, map))
    (hcopies : scp.Copies file.size pagerOffset s.kernel) :
    ∃ r kernel, scp.loadSegment file pagerOffset machoSize result s =
      (.ok r, ⟨scp.finished file pagerOffset destAddr map, kernel⟩) := by
  obtain ⟨rfl, halloc⟩ := allocated hfind
  obtain ⟨kernel, hcopy⟩ := copyFile_eq (s := { s with map := map }) h (msb_of_not hr)
    (halloc.room (pos_pages h hzero).1) hcopies
  have hrun := loadSegment_checked file pagerOffset result s hr hzero
  rw [hfind] at hrun
  dsimp only at hrun
  rw [hcopy] at hrun
  exact ⟨_, kernel, hrun⟩

theorem loadSegment_stops (result : LoadResult) (hr : ¬ scp.Refused machoSize)
    (hzero : roundPage scp.vmsize ≠ 0)
    (hfind : s.map.vmMapFind .null 0 (truncPage scp.vmaddr) (roundPage scp.vmsize) false =
      some (destAddr, map))
    (hstops : scp.CopyStops file.size pagerOffset s) :
    ∃ e s', scp.loadSegment file pagerOffset machoSize result s = (.error e, s') ∧ s'.map = map := by
  obtain ⟨rfl, halloc⟩ := allocated hfind
  have hcopy : ∃ e s', scp.copyFile file pagerOffset (truncPage scp.vmaddr) { s with map := map } =
      (.error e, s') ∧ s'.map = map := by
    refine copyFile_stops hstops (fun i hfrom hi => ?_)
    rw [halloc.eq]
    apply PageMap.onRange_of_ne
    intro j hj heq
    have hij := pageAt_inj _ (Nat.le_refl (2 ^ 20)) i (Nat.lt_of_lt_of_le hi (pages_le _)) j
      (Nat.lt_of_lt_of_le hj (pages_le _)) heq
    omega
  obtain ⟨e, s', hrun, hmap⟩ := hcopy
  refine ⟨e, s', (loadSegment_checked file pagerOffset result s hr hzero).trans ?_, hmap⟩
  rw [hfind]
  dsimp only
  rw [hrun]

theorem loadSegment_full (file : PagedFile) (hr : ¬ scp.Refused machoSize) (hzero : roundPage scp.vmsize ≠ 0)
    (hfind : s.map.vmMapFind .null 0 (truncPage scp.vmaddr) (roundPage scp.vmsize) false = none) :
    scp.loadSegment file pagerOffset machoSize result s = (.error .nospace, s) := by
  refine (loadSegment_checked file pagerOffset result s hr hzero).trans ?_
  rw [hfind]

theorem loadSegment_empty (file : PagedFile) (pagerOffset : Word) (result : LoadResult) (s : SegmentMaps)
    (hr : ¬ scp.Refused machoSize) (hzero : roundPage scp.vmsize = 0) :
    scp.loadSegment file pagerOffset machoSize result s = (.ok result, s) := by
  rw [Refused, not_or] at hr
  unfold loadSegment
  dsimp only
  rw [if_neg hr.1, if_neg hr.2, if_pos hzero]

theorem confined_of_error
    (h : ∀ file' : PagedFile, file'.size = file.size →
      ∃ e s', scp.loadSegment file' pagerOffset machoSize result s = (.error e, s') ∧ s'.map = m)
    (hout : ∀ a : Word, ¬ ((truncPage scp.vmaddr).toNat ≤ a.toNat ∧
      a.toNat < (truncPage scp.vmaddr).toNat + (roundPage scp.vmsize).toNat) → m.page a = s.map.page a) :
    scp.Confined file pagerOffset machoSize result s := by
  obtain ⟨e, s', hrun, hmap⟩ := h file rfl
  refine ⟨fun file' hsize _ => ?_, fun a ha => ?_, fun r hok => ?_⟩
  · obtain ⟨e', s'', hrun', hmap'⟩ := h file' hsize
    rw [hrun, hrun', hmap, hmap']
  · rw [hrun, hmap]
    exact hout a ha
  · rw [hrun] at hok
    cases hok

theorem confined_of_stops (hr : ¬ scp.Refused machoSize) (hzero : roundPage scp.vmsize ≠ 0)
    (hfind : s.map.vmMapFind .null 0 (truncPage scp.vmaddr) (roundPage scp.vmsize) false =
      some (destAddr, map))
    (hstops : scp.CopyStops file.size pagerOffset s) :
    scp.Confined file pagerOffset machoSize result s := by
  obtain ⟨rfl, halloc⟩ := allocated hfind
  refine confined_of_error (fun file' hsize => ?_) (fun a ha => halloc.outside ha)
  exact loadSegment_stops result hr hzero hfind (by rw [hsize]; exact hstops)

end runs

/-- A file of three pages. The first is filled with zeros, and the third with ones. -/
def threePages (second : Byte) : PagedFile where
  byte o := if o < 0x1000 then 0 else if o < 0x2000 then second else if o < 0x3000 then 1 else 0
  size := 0x3000
  beyond o ho := by
    have hsize : (0x3000 : Word).toNat = 0x3000 := rfl
    rw [if_neg (by omega), if_neg (by omega), if_neg (by omega)]

def segmentAt (vmsize fileoff filesize : Word) : SegmentCommand :=
  ⟨0x1000, vmsize, fileoff, filesize, vmProtDefault, vmProtDefault⟩

/-- A map in which the third page is taken. -/
def takenMaps : SegmentMaps where
  map := ⟨0, 0x10000, fun a => if a = 0x2000 then some emptyPage else none⟩
  kernel := .create 0 0x10000

end SegmentCommand

end Darwin.Kern
