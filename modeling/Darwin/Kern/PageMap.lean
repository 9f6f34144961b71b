import Darwin.Kern.MachLoader
import Darwin.Lib.Sweep

/-! # What a map shows

An address map as a loaded segment sees it: the page at each address, with its protections. Each
entry is one page long, so that no entry is ever clipped. A page stands for what its object shows
there: a copied page has its contents for itself.
-/
namespace Darwin.Kern
open Darwin.Lib

abbrev Byte := BitVec 8

def vmProtRead : Word := 1
def vmProtWrite : Word := 2
def vmProtExecute : Word := 4
def vmProtDefault : Word := 3
def vmProtAll : Word := 7

structure Page where
  byte : Fin 4096 → Byte
  protection : Word
  maxProtection : Word

structure PageMap where
  minOffset : Word
  maxOffset : Word
  page : Word → Option Page

/-- The page that an object shows at an offset. -/
abbrev PagedObject := Word → Fin 4096 → Byte

/-- `VM_OBJECT_NULL` is filled with zeros. -/
def PagedObject.null : PagedObject := fun _ _ => 0

/-- How many pages a range has. -/
def pages (length : Word) : ℕ := length.toNat / 4096

def pageAt (start : Word) (i : ℕ) : Word := start + pageSize * BitVec.ofNat 32 i

namespace PageMap

/-- `vm_map_create`. -/
def create (min max : Word) : PageMap := ⟨min, max, fun _ => none⟩

/-- No page of the range is there yet. -/
def Free (m : PageMap) (start : Word) (n : ℕ) : Prop := ∀ i < n, (m.page (pageAt start i)).isNone

instance (m : PageMap) (start : Word) (n : ℕ) : Decidable (m.Free start n) :=
  inferInstanceAs (Decidable (∀ i < n, _))

def onRange (m : PageMap) (start : Word) (change : ℕ → Option Page → Option Page) (n : ℕ) : PageMap :=
  { m with page := sweep (pageAt start) change n m.page }

def vmMapInsert (m : PageMap) (object : PagedObject) (offset start stop : Word) : Option PageMap :=
  if start < m.minOffset ∨ m.maxOffset < stop ∨ stop ≤ start then none
  else if m.Free start (pages (stop - start)) then
    some (m.onRange start
      (fun i _ => some ⟨object (pageAt offset i), vmProtDefault, vmProtAll⟩) (pages (stop - start)))
  else none

/-- The pages of all addresses. -/
def spaceTurns : ℕ := 2 ^ 20

/-- The search of `vm_map_find` for space. -/
def findLoop (m : PageMap) (length : Word) : ℕ → Word → Option Word
  | 0, _ => none
  | n + 1, start =>
    let stop := start + length
    if m.maxOffset < stop ∨ stop < start then none
    else if m.Free start (pages length) then some start
    else m.findLoop length n (start + pageSize)

/-- The answer is the address with the new map. -/
def vmMapFind (m : PageMap) (object : PagedObject) (offset addr length : Word) (findSpace : Bool) :
    Option (Word × PageMap) :=
  if findSpace then
    let start := if addr < m.minOffset then m.minOffset else addr
    (m.findLoop length spaceTurns start).bind (fun start =>
      (m.vmMapInsert object offset start (start + length)).map (start, ·))
  else (m.vmMapInsert object offset addr (addr + length)).map (addr, ·)

/-- `vm_deallocate` of whole pages. -/
def vmDeallocate (m : PageMap) (start size : Word) : PageMap :=
  m.onRange start (fun _ _ => none) (pages size)

/-- `vm_map_check_protection`: the start has to be mapped even if the range is empty. -/
def CheckProtection (m : PageMap) (start stop protection : Word) : Prop :=
  (m.page start).isSome ∧ ∀ i < pages (stop - start),
    (m.page (pageAt start i)).any (fun p => p.protection &&& protection = protection)

instance (m : PageMap) (start stop protection : Word) :
    Decidable (m.CheckProtection start stop protection) :=
  inferInstanceAs (Decidable (_ ∧ ∀ i < pages (stop - start), _))

end PageMap

/-- A page of the destination after the copy of `src`, as `vm_map_copy_entry` leaves it. -/
def Page.copied (dst src : Page) : Page :=
  { dst with
    byte := src.byte
    protection := if src.protection &&& vmProtExecute ≠ 0 then
      dst.protection ||| (vmProtExecute &&& dst.maxProtection) else dst.protection }

/-- `vm_map_copy` from one map to another; none stands for an error, and nothing is copied then. -/
def vmMapCopy (dst src : PageMap) (dstAddr len srcAddr : Word) : Option PageMap :=
  let srcEnd := srcAddr + len
  let dstEnd := dstAddr + len
  if dstEnd < dstAddr ∨ srcEnd < srcAddr then none
  else if ¬ src.CheckProtection srcAddr srcEnd vmProtRead then none
  else if ¬ dst.CheckProtection dstAddr dstEnd vmProtWrite then none
  else
    some (dst.onRange dstAddr (fun i d =>
      match d, src.page (pageAt srcAddr i) with
      | some d, some s => some (d.copied s)
      | d, _ => d) (pages len))

namespace PageMap

def protectPage (newProt : Word) (setMax : Bool) (p : Page) : Page :=
  if setMax then { p with maxProtection := newProt, protection := newProt &&& p.protection }
  else { p with protection := newProt }

/-- The map after `vm_map_protect`, whose result nobody looks at. -/
def vmMapProtect (m : PageMap) (start stop newProt : Word) (setMax : Bool) : PageMap :=
  let start := if start < m.minOffset then m.minOffset else start
  let stop := if m.maxOffset < stop then m.maxOffset else stop
  let start := if stop < start then stop else start
  let n := pages (stop - start)
  if ∀ i < n, (m.page (pageAt start i)).all (fun p => newProt &&& p.maxProtection = newProt) then
    m.onRange start (fun _ => Option.map (protectPage newProt setMax)) n
  else m

/-- `bzero` of addresses that are mapped. -/
def bzero (m : PageMap) (addr len : Word) : PageMap :=
  { m with page := fun a => (m.page a).map (fun p => { p with
      byte := fun k =>
        if addr.toNat ≤ a.toNat + k ∧ a.toNat + k < addr.toNat + len.toNat then 0 else p.byte k }) }

/-- The byte at an address. -/
def byteAt (m : PageMap) (a : Word) : Option Byte :=
  (m.page (truncPage a)).map (fun p => p.byte ⟨a.toNat % 4096, Nat.mod_lt _ (by decide)⟩)

end PageMap

/-! ## Words and pages -/

theorem toNat_truncPage (x : Word) : (truncPage x).toNat = x.toNat / 4096 * 4096 := by
  have hbit : ∀ i : Fin 32, (~~~(pageSize - 1)).getLsbD i = decide (12 ≤ i.val) := by decide
  have heq : truncPage x = (x >>> 12) <<< 12 := by
    apply BitVec.eq_of_getLsbD_eq
    intro i hi
    rw [truncPage, BitVec.getLsbD_and, hbit ⟨i, hi⟩, BitVec.getLsbD_shiftLeft, BitVec.getLsbD_ushiftRight]
    by_cases h : 12 ≤ i
    · simp [h, hi, Nat.not_lt.mpr h, Nat.add_sub_cancel' h]
    · simp [h, Nat.lt_of_not_le h]
  rw [heq, BitVec.toNat_shiftLeft, BitVec.toNat_ushiftRight, Nat.shiftLeft_eq, Nat.shiftRight_eq_div_pow]
  have hx := x.isLt
  omega

theorem toNat_roundPage (x : Word) :
    (roundPage x).toNat = (x.toNat + 4095) % 2 ^ 32 / 4096 * 4096 := by
  have h : roundPage x = truncPage (x + 4095) := rfl
  rw [h, toNat_truncPage, BitVec.toNat_add]
  rfl

theorem toNat_pageAt {start : Word} {i : ℕ} (h : start.toNat + 4096 * i < 2 ^ 32) :
    (pageAt start i).toNat = start.toNat + 4096 * i := by
  have hs : pageSize.toNat = 4096 := rfl
  rw [pageAt, BitVec.toNat_add, BitVec.toNat_mul, BitVec.toNat_ofNat, hs]
  omega

theorem pageAt_zero (start : Word) : pageAt start 0 = start := by
  simp [pageAt]

theorem pageAt_inj (start : Word) {n : ℕ} (hn : n ≤ 2 ^ 20) :
    ∀ i < n, ∀ j < n, pageAt start i = pageAt start j → i = j := by
  intro i hi j hj heq
  have hs : pageSize.toNat = 4096 := rfl
  have h := congrArg BitVec.toNat heq
  simp only [pageAt, BitVec.toNat_add, BitVec.toNat_mul, BitVec.toNat_ofNat, hs] at h
  have := start.isLt
  omega

theorem pages_le (length : Word) : pages length ≤ 2 ^ 20 := by
  have := length.isLt
  rw [pages]
  omega

/-! ## What the calls do -/

namespace PageMap
variable {m m' : PageMap} {object : PagedObject} {offset start stop a : Word} {n i : ℕ}
  {change change' : ℕ → Option Page → Option Page}

theorem onRange_at (hn : n ≤ 2 ^ 20) (hi : i < n) :
    (m.onRange start change n).page (pageAt start i) = change i (m.page (pageAt start i)) :=
  sweep_place (pageAt_inj start hn) hi

theorem onRange_of_ne (h : ∀ i < n, a ≠ pageAt start i) :
    (m.onRange start change n).page a = m.page a :=
  sweep_of_ne h

theorem onRange_outside (h : start.toNat + 4096 * n ≤ 2 ^ 32)
    (ha : ¬ (start.toNat ≤ a.toNat ∧ a.toNat < start.toNat + 4096 * n)) :
    (m.onRange start change n).page a = m.page a := by
  apply onRange_of_ne
  rintro i hi rfl
  rw [toNat_pageAt (by omega)] at ha
  omega

theorem onRange_congr (hn : n ≤ 2 ^ 20)
    (h : ∀ i < n, change i (m.page (pageAt start i)) = change' i (m.page (pageAt start i))) :
    m.onRange start change n = m.onRange start change' n := by
  rw [onRange, onRange, sweep_congr (pageAt_inj start hn) h]

theorem vmMapInsert_eq_some (h : m.vmMapInsert object offset start stop = some m') :
    m.minOffset ≤ start ∧ stop ≤ m.maxOffset ∧ start < stop ∧
      m.Free start (pages (stop - start)) ∧
      m' = m.onRange start (fun i _ => some ⟨object (pageAt offset i), vmProtDefault, vmProtAll⟩)
        (pages (stop - start)) := by
  rw [vmMapInsert] at h
  by_cases hbad : start < m.minOffset ∨ m.maxOffset < stop ∨ stop ≤ start
  · rw [if_pos hbad] at h
    cases h
  · rw [if_neg hbad] at h
    rw [not_or, not_or, BitVec.not_lt, BitVec.not_lt, BitVec.not_le] at hbad
    by_cases hfree : m.Free start (pages (stop - start))
    · rw [if_pos hfree] at h
      exact ⟨hbad.1, hbad.2.1, hbad.2.2, hfree, (Option.some.inj h).symm⟩
    · rw [if_neg hfree] at h
      cases h

theorem vmMapFind_fixed {addr addr' length : Word}
    (h : m.vmMapFind object offset addr length false = some (addr', m')) :
    addr' = addr ∧ m.vmMapInsert object offset addr (addr + length) = some m' := by
  rw [vmMapFind, if_neg (by decide), Option.map_eq_some_iff] at h
  obtain ⟨m₁, hins, heq⟩ := h
  cases heq
  exact ⟨rfl, hins⟩

theorem vmMapFind_anywhere {addr addr' length : Word}
    (h : m.vmMapFind object offset addr length true = some (addr', m')) :
    m.vmMapInsert object offset addr' (addr' + length) = some m' := by
  rw [vmMapFind, if_pos rfl, Option.bind_eq_some_iff] at h
  obtain ⟨start, -, hins⟩ := h
  rw [Option.map_eq_some_iff] at hins
  obtain ⟨m₁, hins, heq⟩ := hins
  cases heq
  exact hins

/-- A new map that shows an object from an offset on. -/
def showing (length : Word) (object : PagedObject) (offset : Word) : PageMap :=
  (create 0 length).onRange 0
    (fun i _ => some ⟨object (pageAt offset i), vmProtDefault, vmProtAll⟩) (pages length)

theorem vmMapFind_create {length : Word} (h : length ≠ 0) :
    (create 0 length).vmMapFind object offset 0 length false =
      some (0, showing length object offset) := by
  have hstop : (0 : Word) + length = length := BitVec.zero_add length
  have hbad : ¬ ((0 : Word) < (create 0 length).minOffset ∨ (create 0 length).maxOffset < length ∨
      length ≤ 0) := by
    rintro (hlt | hlt | hle)
    · exact absurd hlt (BitVec.lt_irrefl 0)
    · exact absurd hlt (BitVec.lt_irrefl length)
    · exact h (BitVec.le_zero_iff.mp hle)
  have hsub : length - 0 = length := BitVec.sub_zero length
  have hfree : (create 0 length).Free 0 (pages length) := fun _ _ => rfl
  rw [vmMapFind, if_neg (by decide), hstop, vmMapInsert, if_neg hbad, hsub, if_pos hfree]
  rfl

theorem showing_page (length : Word) (object : PagedObject) (offset : Word) (hi : i < pages length) :
    (showing length object offset).page (pageAt 0 i) =
      some ⟨object (pageAt offset i), vmProtDefault, vmProtAll⟩ :=
  onRange_at (pages_le length) hi

theorem checkProtection_self {p : Page} {protection : Word} (hp : m.page a = some p) :
    m.CheckProtection a a protection := by
  refine ⟨?_, ?_⟩
  · rw [hp]
    rfl
  · rw [BitVec.sub_self]
    exact fun i hi => absurd hi (Nat.not_lt_zero i)

/-- The pages of the range can be written. -/
def Writable (m : PageMap) (start : Word) (n : ℕ) : Prop :=
  ∀ i < n, ∃ p, m.page (pageAt start i) = some p ∧ p.protection &&& vmProtWrite = vmProtWrite

/-- The pages of the range show a new contents. -/
def paint (m : PageMap) (start : Word) (content : ℕ → Fin 4096 → Byte) (n : ℕ) : PageMap :=
  m.onRange start (fun i => Option.map (fun p => { p with byte := content i })) n

theorem Writable.paint {content : ℕ → Fin 4096 → Byte} {start' : Word} {n' : ℕ} (hn : n' ≤ 2 ^ 20)
    (h : m.Writable start n) : (m.paint start' content n').Writable start n := by
  intro i hi
  obtain ⟨p, hp, hw⟩ := h i hi
  by_cases hx : ∃ j < n', pageAt start i = pageAt start' j
  · obtain ⟨j, hj, heq⟩ := hx
    rw [heq] at hp ⊢
    refine ⟨{ p with byte := content j }, ?_, hw⟩
    rw [PageMap.paint, onRange_at hn hj, hp, Option.map_some]
  · refine ⟨p, ?_, hw⟩
    rw [PageMap.paint, onRange_of_ne (fun j hj heq => hx ⟨j, hj, heq⟩), hp]

theorem paint_at (content : ℕ → Fin 4096 → Byte) {p : Page} (hn : n ≤ 2 ^ 20) (hi : i < n)
    (hp : m.page (pageAt start i) = some p) :
    (m.paint start content n).page (pageAt start i) = some { p with byte := content i } := by
  rw [paint, onRange_at hn hi, hp, Option.map_some]

theorem paint_congr {content content' : ℕ → Fin 4096 → Byte} (hn : n ≤ 2 ^ 20)
    (h : ∀ i < n, content i = content' i) : m.paint start content n = m.paint start content' n := by
  refine onRange_congr hn (fun i hi => ?_)
  rw [h i hi]

theorem paint_succ {content content' : ℕ → Fin 4096 → Byte} {last : Fin 4096 → Byte}
    (hn : n + 1 ≤ 2 ^ 20) (h : ∀ i < n, content i = content' i) (hlast : last = content' n) :
    (m.paint (pageAt start n) (fun _ => last) 1).paint start content n =
      m.paint start content' (n + 1) := by
  have hinj := pageAt_inj start hn
  have hzero := pageAt_zero (pageAt start n)
  refine congrArg (fun f => { m with page := f }) ?_
  change ((m.paint (pageAt start n) (fun _ => last) 1).paint start content n).page =
    (m.paint start content' (n + 1)).page
  funext a
  by_cases hlow : ∃ i < n, a = pageAt start i
  · obtain ⟨i, hi, rfl⟩ := hlow
    have hne : ∀ j < 1, pageAt start i ≠ pageAt (pageAt start n) j := by
      intro j hj heq
      obtain rfl : j = 0 := Nat.lt_one_iff.mp hj
      rw [hzero] at heq
      exact Nat.ne_of_lt hi (hinj i (Nat.lt_succ_of_lt hi) n (Nat.lt_succ_self n) heq)
    rw [paint, onRange_at (Nat.le_of_succ_le hn) hi, paint, onRange_of_ne hne, paint,
      onRange_at hn (Nat.lt_succ_of_lt hi), h i hi]
  · have hnlow : ∀ i < n, a ≠ pageAt start i := fun i hi heq => hlow ⟨i, hi, heq⟩
    rw [paint, onRange_of_ne hnlow]
    by_cases heq : a = pageAt start n
    · have hone : (m.paint (pageAt start n) (fun _ => last) 1).page (pageAt (pageAt start n) 0) =
          (m.page (pageAt (pageAt start n) 0)).map (fun p => { p with byte := last }) :=
        onRange_at Nat.one_le_two_pow Nat.zero_lt_one
      rw [hzero] at hone
      rw [heq, hone, paint, onRange_at hn (Nat.lt_succ_self n), hlast]
    · have hne : ∀ j < 1, a ≠ pageAt (pageAt start n) j := by
        intro j hj
        obtain rfl : j = 0 := Nat.lt_one_iff.mp hj
        rw [hzero]
        exact heq
      rw [paint, onRange_of_ne hne, paint, onRange_of_ne]
      intro i hi
      rcases Nat.lt_succ_iff_lt_or_eq.mp hi with hlt | rfl
      · exact hnlow i hlt
      · exact heq

theorem vmMapProtect_outside {newProt : Word} {setMax : Bool}
    (ha : ¬ (start.toNat ≤ a.toNat ∧ a.toNat < stop.toNat)) :
    (m.vmMapProtect start stop newProt setMax).page a = m.page a := by
  rw [vmMapProtect]
  generalize hstop : (if m.maxOffset < stop then m.maxOffset else stop) = stop'
  generalize hstart : (if start < m.minOffset then m.minOffset else start) = start'
  have hle : stop'.toNat ≤ stop.toNat := by
    rw [← hstop]
    by_cases h : m.maxOffset < stop
    · rw [if_pos h]
      exact Nat.le_of_lt h
    · rw [if_neg h]
  have hge : start.toNat ≤ start'.toNat := by
    rw [← hstart]
    by_cases h : start < m.minOffset
    · rw [if_pos h]
      exact Nat.le_of_lt h
    · rw [if_neg h]
  generalize hfrom : (if stop' < start' then stop' else start') = from'
  have hfrom' : from'.toNat ≤ stop'.toNat ∧ (from'.toNat < stop'.toNat → start.toNat ≤ from'.toNat) := by
    rw [← hfrom]
    by_cases h : stop' < start'
    · rw [if_pos h]
      exact ⟨Nat.le_refl _, fun hlt => absurd hlt (Nat.lt_irrefl _)⟩
    · rw [if_neg h]
      exact ⟨Nat.le_of_not_lt h, fun _ => hge⟩
  have hsub : (stop' - from').toNat = stop'.toNat - from'.toNat := BitVec.toNat_sub_of_le hfrom'.1
  have hpages : 4096 * pages (stop' - from') ≤ stop'.toNat - from'.toNat := by
    rw [pages, hsub]
    omega
  have hlt := stop'.isLt
  refine iteInduction (motive := fun x : PageMap => x.page a = m.page a) (fun _ => ?_) (fun _ => rfl)
  apply onRange_outside
  · omega
  · omega

theorem vmMapProtect_byte {newProt : Word} {setMax : Bool} {p : Page} (hp : m.page a = some p) :
    ∃ p', (m.vmMapProtect start stop newProt setMax).page a = some p' ∧ p'.byte = p.byte := by
  rw [vmMapProtect]
  refine iteInduction (motive := fun x : PageMap => ∃ p', x.page a = some p' ∧ p'.byte = p.byte)
    (fun _ => ?_) (fun _ => ⟨p, hp, rfl⟩)
  generalize (if (if m.maxOffset < stop then m.maxOffset else stop) <
    (if start < m.minOffset then m.minOffset else start) then
      (if m.maxOffset < stop then m.maxOffset else stop)
    else (if start < m.minOffset then m.minOffset else start)) = from'
  generalize hn : pages _ = n
  have hle : n ≤ 2 ^ 20 := hn ▸ pages_le _
  by_cases hx : ∃ i < n, a = pageAt from' i
  · obtain ⟨i, hi, rfl⟩ := hx
    refine ⟨protectPage newProt setMax p, ?_, ?_⟩
    · rw [onRange_at hle hi, hp, Option.map_some]
    · cases setMax <;> rfl
  · refine ⟨p, ?_, rfl⟩
    rw [onRange_of_ne (fun i hi heq => hx ⟨i, hi, heq⟩), hp]

end PageMap

theorem Page.copied_default (p : Page) (byte : Fin 4096 → Byte) (maxProtection : Word) :
    p.copied ⟨byte, vmProtDefault, maxProtection⟩ = { p with byte := byte } := by
  have h : ¬ vmProtDefault &&& vmProtExecute ≠ 0 := by decide
  rw [Page.copied, if_neg h]

theorem vmMapCopy_eq_paint {dst src : PageMap} {dstAddr len srcAddr : Word} {n : ℕ}
    (content : ℕ → Fin 4096 → Byte) (maxProtection : Word) (hlen : len.toNat = 4096 * n)
    (hdst : dstAddr.toNat + len.toNat < 2 ^ 32) (hsrc : srcAddr.toNat + len.toNat < 2 ^ 32)
    (hwrite : dst.Writable dstAddr n) (hdstStart : dst.CheckProtection dstAddr dstAddr vmProtWrite)
    (hread : ∀ i < n, src.page (pageAt srcAddr i) = some ⟨content i, vmProtDefault, maxProtection⟩)
    (hsrcStart : src.CheckProtection srcAddr srcAddr vmProtRead) :
    vmMapCopy dst src dstAddr len srcAddr = some (dst.paint dstAddr content n) := by
  have hpages : pages len = n := by
    rw [pages, hlen]
    omega
  have hsub : ∀ x : Word, x + len - x = len := fun x => by rw [BitVec.add_comm, BitVec.add_sub_cancel]
  have hwrap : ¬ (dstAddr + len < dstAddr ∨ srcAddr + len < srcAddr) := by
    rw [BitVec.lt_def, BitVec.lt_def, BitVec.toNat_add_of_lt hdst, BitVec.toNat_add_of_lt hsrc]
    omega
  have hcheckSrc : src.CheckProtection srcAddr (srcAddr + len) vmProtRead := by
    refine ⟨hsrcStart.1, ?_⟩
    rw [hsub, hpages]
    intro i hi
    rw [hread i hi, Option.any_some]
    exact decide_eq_true (by decide : vmProtDefault &&& vmProtRead = vmProtRead)
  have hcheckDst : dst.CheckProtection dstAddr (dstAddr + len) vmProtWrite := by
    refine ⟨hdstStart.1, ?_⟩
    rw [hsub, hpages]
    intro i hi
    obtain ⟨p, hp, hw⟩ := hwrite i hi
    rw [hp, Option.any_some]
    exact decide_eq_true hw
  rw [vmMapCopy, if_neg hwrap, if_neg (not_not.mpr hcheckSrc), if_neg (not_not.mpr hcheckDst), hpages,
    PageMap.paint]
  refine congrArg some (PageMap.onRange_congr (hpages ▸ pages_le len) ?_)
  intro i hi
  obtain ⟨p, hp, -⟩ := hwrite i hi
  rw [hread i hi, hp]
  exact congrArg some (p.copied_default (content i) maxProtection)

theorem vmMapCopy_eq_none {dst : PageMap} {dstAddr len : Word} {i : ℕ} (src : PageMap) (srcAddr : Word)
    (hi : i < pages len)
    (hpage : ¬ (dst.page (pageAt dstAddr i)).any (fun p => p.protection &&& vmProtWrite = vmProtWrite)) :
    vmMapCopy dst src dstAddr len srcAddr = none := by
  have hsub : dstAddr + len - dstAddr = len := by rw [BitVec.add_comm, BitVec.add_sub_cancel]
  have hdst : ¬ dst.CheckProtection dstAddr (dstAddr + len) vmProtWrite := by
    intro hcheck
    have hall := hcheck.2 i
    rw [hsub] at hall
    exact hpage (hall hi)
  rw [vmMapCopy, if_pos hdst, ite_self, ite_self]

theorem vmMapCopy_page {dst src : PageMap} {dstAddr srcAddr maxProtection : Word} {d : Page}
    {byte : Fin 4096 → Byte} (hdst : dstAddr.toNat + 4096 < 2 ^ 32) (hsrc : srcAddr.toNat + 4096 < 2 ^ 32)
    (hd : dst.page dstAddr = some d) (hw : d.protection &&& vmProtWrite = vmProtWrite)
    (hs : src.page srcAddr = some ⟨byte, vmProtDefault, maxProtection⟩) :
    vmMapCopy dst src dstAddr pageSize srcAddr = some (dst.paint dstAddr (fun _ => byte) 1) := by
  refine vmMapCopy_eq_paint (n := 1) (fun _ => byte) maxProtection rfl hdst hsrc ?_
    (PageMap.checkProtection_self hd) ?_ (PageMap.checkProtection_self hs)
  · intro i hi
    obtain rfl : i = 0 := Nat.lt_one_iff.mp hi
    rw [pageAt_zero]
    exact ⟨d, hd, hw⟩
  · intro i hi
    obtain rfl : i = 0 := Nat.lt_one_iff.mp hi
    rw [pageAt_zero]
    exact hs

end Darwin.Kern
