import Darwin.Hfs.FileExtents
import Darwin.Hfs.VolumeReads
import Mathlib.Algebra.BigOperators.Intervals
import Mathlib.Data.List.Basic

/-! # Growing a file does not leak blocks

The blocks that `ExtendFileC` marks in the volume bitmap are the blocks it enters in the
extent records, as long as the records can be written without a block for the extents file.
A record that cannot be written leaves the blocks of its piece marked, and so does a bitmap
read that fails on the way.
-/
namespace Darwin.Hfs.FileExtents
open Darwin.Lib Darwin.Hfs.VolumeAllocation Function List

/-! ## The blocks of a file -/

def Extent.Covers (e : Extent) (b : ℕ) : Prop :=
  e.startBlock ≤ b ∧ b < e.startBlock + e.blockCount

def ExtentRecord.Lists (r : ExtentRecord) (b : ℕ) : Prop := ∃ i < 8, (r i).Covers b

def ExtentRecord.blocks (r : ExtentRecord) : ℕ := ∑ i ∈ Finset.range 8, (r i).blockCount

/-- The block is listed in an extent record of the file. -/
def File.Lists (f : File) (b : ℕ) : Prop :=
  ExtentRecord.Lists f.fcbExtents b ∨ ∃ p ∈ f.overflow, ExtentRecord.Lists p.2 b

/-- The total of the block counts of the extent records. -/
def File.blocks (f : File) : ℕ :=
  ExtentRecord.blocks f.fcbExtents + (f.overflow.map (fun p => ExtentRecord.blocks p.2)).sum

/-- The bits that became set are the bits of the blocks that became listed, and the physical
length is that of the listed blocks. -/
def NoLeak (f f' : File) : Prop :=
  (∀ b, (bitAt f.vcb.bitmap b = false ∧ bitAt f'.vcb.bitmap b = true) ↔
    (¬ f.Lists b ∧ f'.Lists b)) ∧
  f'.fcbPLen = f'.vcb.blockSize * f'.blocks

/-- The extent `e'` is `e` with `n` blocks from `start` on. -/
structure Extent.Grows (e e' : Extent) (start n : ℕ) : Prop where
  count : e'.blockCount = e.blockCount + n
  covers : ∀ b, e'.Covers b ↔ e.Covers b ∨ (start ≤ b ∧ b < start + n)

theorem Extent.grows_end (e : Extent) (n : ℕ) :
    e.Grows ⟨e.startBlock, e.blockCount + n⟩ (e.startBlock + e.blockCount) n := by
  constructor
  · rfl
  · intro b
    simp only [Extent.Covers]
    omega

theorem Extent.grows_empty {e : Extent} (he : e.blockCount = 0) (start n : ℕ) :
    e.Grows ⟨start, n⟩ start n := by
  constructor
  · rw [he, Nat.zero_add]
  · intro b
    simp only [Extent.Covers, he]
    omega

theorem ExtentRecord.lists_update {r : ExtentRecord} {i start n : ℕ} {e : Extent} (hi : i < 8)
    (h : (r i).Grows e start n) (b : ℕ) :
    ExtentRecord.Lists (update r i e) b ↔
      ExtentRecord.Lists r b ∨ (start ≤ b ∧ b < start + n) := by
  constructor
  · rintro ⟨j, hj, hb⟩
    by_cases hji : j = i
    · subst hji
      rw [update_self, h.covers] at hb
      exact hb.imp_left (fun hb => ⟨j, hj, hb⟩)
    · rw [update_of_ne hji] at hb
      exact .inl ⟨j, hj, hb⟩
  · rintro (⟨j, hj, hb⟩ | hb)
    · by_cases hji : j = i
      · subst hji
        exact ⟨j, hj, by rw [update_self, h.covers]; exact .inl hb⟩
      · exact ⟨j, hj, by rwa [update_of_ne hji]⟩
    · exact ⟨i, hi, by rw [update_self, h.covers]; exact .inr hb⟩

theorem ExtentRecord.blocks_update {r : ExtentRecord} {i start n : ℕ} {e : Extent} (hi : i < 8)
    (h : (r i).Grows e start n) :
    ExtentRecord.blocks (update r i e) = ExtentRecord.blocks r + n := by
  have hmem : i ∈ Finset.range 8 := Finset.mem_range.mpr hi
  have hrest : ∑ j ∈ (Finset.range 8).erase i, (update r i e j).blockCount =
      ∑ j ∈ (Finset.range 8).erase i, (r j).blockCount := by
    apply Finset.sum_congr rfl
    intro j hj
    rw [update_of_ne (Finset.ne_of_mem_erase hj)]
  unfold ExtentRecord.blocks
  rw [← Finset.add_sum_erase _ _ hmem, ← Finset.add_sum_erase _ (fun j => (r j).blockCount) hmem,
    hrest, update_self, h.count]
  omega

/-- A record of one extent. -/
def oneExtent (start n : ℕ) : ExtentRecord := fun i => if i = 0 then ⟨start, n⟩ else ⟨0, 0⟩

theorem oneExtent_eq (start n : ℕ) :
    oneExtent start n = update (fun _ => (⟨0, 0⟩ : Extent)) 0 ⟨start, n⟩ := by
  funext i
  simp only [oneExtent, update_apply]

theorem oneExtent_lists (start n b : ℕ) :
    ExtentRecord.Lists (oneExtent start n) b ↔ start ≤ b ∧ b < start + n := by
  rw [oneExtent_eq, ExtentRecord.lists_update (by decide) (Extent.grows_empty rfl start n)]
  constructor
  · rintro (⟨i, -, hb⟩ | hb)
    · simp only [Extent.Covers] at hb
      omega
    · exact hb
  · exact .inr

theorem oneExtent_blocks (start n : ℕ) : ExtentRecord.blocks (oneExtent start n) = n := by
  rw [oneExtent_eq, ExtentRecord.blocks_update (by decide) (Extent.grows_empty rfl start n)]
  simp [ExtentRecord.blocks]

/-! ## A sound file -/

/-- A record whose extents fill its first entries and lie on the volume. -/
structure ExtentRecord.Packed (f : File) (r : ExtentRecord) (used : ℕ) : Prop where
  room : used ≤ f.numExtentsPerRecord
  full : ∀ i < used, 0 < (r i).blockCount
  empty : ∀ i, used ≤ i → (r i).blockCount = 0
  inside : ∀ i, (r i).startBlock + (r i).blockCount ≤ f.vcb.totalBlocks
  small : f.isHFSPlus = false → ∀ i, 3 ≤ i → r i = ⟨0, 0⟩

/-- The records of the extents file follow each other from the file block `n` on. -/
def Chained (f : File) : ℕ → List (ℕ × ExtentRecord) → Prop
  | _, [] => True
  | n, p :: ps => p.1 = n ∧ (∃ used, 0 < used ∧ ExtentRecord.Packed f p.2 used) ∧
    Chained f (n + ExtentRecord.blocks p.2) ps

/-- What the volume and the length of a file have to do with its extents. -/
structure File.Sound (f : File) : Prop where
  vcb : f.vcb.Counted
  rover : f.vcb.nextAllocation ≤ f.vcb.totalBlocks
  small : f.isHFSPlus = false → f.vcb.totalBlocks < 2 ^ 16
  room : f.blocks + f.vcb.freeBlocks ≤ f.vcb.totalBlocks
  marked : ∀ b, f.Lists b → bitAt f.vcb.bitmap b = true
  length : f.fcbPLen = f.vcb.blockSize * f.blocks

/-- A file as it is found on a volume in order. -/
structure File.Ok (f : File) : Prop extends f.Sound where
  fcb : ∃ used, ExtentRecord.Packed f f.fcbExtents used ∧
    (f.overflow ≠ [] → used = f.numExtentsPerRecord)
  chain : Chained f (ExtentRecord.blocks f.fcbExtents) f.overflow

/-! ## When all records can be written -/

/-- The entry of the last extent, and whether its record is in the extents file. -/
structure Slot where
  inTree : Bool
  index : ℕ
  extent : Extent
  deriving DecidableEq, Repr

def Found.slot (x : Found) : Slot := ⟨x.key.isSome, x.index, x.extent⟩

/-- How a piece is entered: the entry that takes it, the calls on the extents file, and whether the entry is
in a new record. -/
structure Entry where
  slot : Slot
  calls : ℕ
  isNew : Bool
  deriving DecidableEq, Repr

/-- The entry for a piece; `none` when the extents file itself would need a record there. -/
def Slot.next (numExtentsPerRecord : ℕ) (isExtentsFile : Bool) (x : Slot) (start n : ℕ) : Option Entry :=
  let updates := if x.inTree then 2 else 0
  if start = u32 (x.extent.startBlock + x.extent.blockCount) then
    some ⟨⟨x.inTree, x.index, ⟨x.extent.startBlock, u32 (x.extent.blockCount + n)⟩⟩, updates, false⟩
  else
    let index := if x.extent.blockCount ≠ 0 then x.index + 1 else x.index
    if index = numExtentsPerRecord then
      if isExtentsFile then none else some ⟨⟨true, 0, ⟨start, n⟩⟩, 1, true⟩
    else some ⟨⟨x.inTree, index, ⟨start, n⟩⟩, updates, false⟩

/-- How many records the extents file has of the fork then. -/
def Entry.records (y : Entry) (records : ℕ) : ℕ := if y.isNew then records + 1 else records

/-- Each piece that `BlockAllocate` gives can be entered: the calls on the extents file succeed, and it has room
for a new record without another block. And when `BlockAllocate` fails, it has set no bit. -/
def File.CanEnter (f : File) (env : ℕ → Bool) (forceContig : Bool) :
    (turns ops records : ℕ) → Vcb → Slot → Want → Prop
  | 0, _, _, _, _, _ => True
  | n + 1, ops, records, vcb, x, want =>
    match blockAllocate vcb (u32 (x.extent.startBlock + x.extent.blockCount)) want.bytesToAdd want.maximumBytes
      want.wantContig with
    | none => True
    | some r =>
      if r.err = .noErr then
        match x.next f.numExtentsPerRecord f.isExtentsFile r.actualStartBlock r.actualNumBlocks with
        | none => False
        | some y =>
          Io.Succeeds ⟨env, ops, f⟩ y.calls ∧ (y.isNew = true → f.growth records r.vcb = (true, r.vcb)) ∧
            (forceContig = true ∨ (want.after (u32 (r.actualNumBlocks * vcb.blockSize))).bytesToAdd = 0 ∨
              f.CanEnter env forceContig n (ops + y.calls) (y.records records) r.vcb y.slot
                (want.after (u32 (r.actualNumBlocks * vcb.blockSize))))
      else if r.err = .dskFulErr ∧ want.wantContig = true ∧ forceContig = false ∧ want.bytesToAdd ≠ 0 then
        f.CanEnter env forceContig n ops records r.vcb x { want with wantContig := false }
      else ∀ b, bitAt r.vcb.bitmap b = true → bitAt vcb.bitmap b = true

/-- How many of the first `n` entries are used. -/
def ExtentRecord.used (r : ExtentRecord) (n : ℕ) : ℕ :=
  Nat.count (fun i => (r i).blockCount ≠ 0) n

/-- The last extent of the file. -/
def File.last (f : File) : Found :=
  match f.overflow.getLast? with
  | none => ⟨none, f.fcbExtents, ExtentRecord.used f.fcbExtents f.numExtentsPerRecord - 1⟩
  | some p => ⟨some p.1, p.2, ExtentRecord.used p.2 f.numExtentsPerRecord - 1⟩

/-- The calls on the extents file that a search for a file block makes. -/
def File.searchCalls (f : File) (block : ℕ) : ℕ :=
  if block < ExtentRecord.blocks f.fcbExtents ∨
      ExtentRecord.used f.fcbExtents f.numExtentsPerRecord < f.numExtentsPerRecord then 0
  else if f.keyBlock block ∈ f.overflow.map Prod.fst then 1 else 2

/-- The file block that is searched for a request. -/
def File.searched (f : File) (want : Want) : ℕ :=
  u32Sub (u32 (f.fcbPLen + want.bytesToAdd)) 1 / f.vcb.blockSize

/-- The search key of the block, cut to 16 bits on an HFS volume, is not before a record. -/
def File.Reaches (f : File) (block : ℕ) : Prop := ∀ p ∈ f.overflow, p.1 ≤ f.keyBlock block

/-- All new pieces can be entered, unless the request was refused, a call of the search failed or there is nothing
to add. -/
def Enters (s : Io File) (bytesToAdd : ℕ) (allOrNothing forceContig : Bool) : Prop :=
  ∀ want, s.st.request bytesToAdd allOrNothing = .ok want →
    s.Succeeds (s.st.searchCalls (s.st.searched want)) → s.st.blocks ≤ s.st.searched want →
    s.st.CanEnter s.env forceContig (2 ^ 32 + 2) (s.ops + s.st.searchCalls (s.st.searched want)) s.st.overflow.length
      s.st.vcb s.st.last.slot want

/-! ## The extents file -/

/-- What the extents file may do on a volume to have room for a record: nothing, or it takes blocks. -/
structure Vcb.Grows (vcb vcb' : Vcb) : Prop where
  counted : vcb'.Counted
  rover : vcb'.nextAllocation ≤ vcb'.totalBlocks
  same : vcb'.totalBlocks = vcb.totalBlocks
  sameSize : vcb'.blockSize = vcb.blockSize
  took : vcb' = vcb ∨ ∃ b, bitAt vcb.bitmap b = false ∧ bitAt vcb'.bitmap b = true

/-- The extents file gives no block back, and leaves a volume in order when it has room. -/
structure File.TreeGrows (f : File) : Prop where
  keeps : ∀ k vcb, Keeps vcb.bitmap (f.growth k vcb).2.bitmap
  grows : ∀ k vcb, vcb.Counted → vcb.nextAllocation ≤ vcb.totalBlocks → (f.growth k vcb).1 = true →
    Vcb.Grows vcb (f.growth k vcb).2

theorem freeBlocks_le {vcb vcb' : Vcb} (h : vcb.Counted) (h' : vcb'.Counted)
    (hkeeps : Keeps vcb.bitmap vcb'.bitmap) (hsame : vcb'.totalBlocks = vcb.totalBlocks) :
    vcb'.freeBlocks ≤ vcb.freeBlocks := by
  rw [h.count, h'.count, hsame]
  apply Nat.count_mono_left
  intro b _ hb
  by_contra hset
  rw [hkeeps b (Bool.eq_true_of_not_eq_false hset)] at hb
  cases hb

/-! ## Entering one piece -/

/-- The program makes `c` calls and has the effect `t`, or fails without effect. -/
structure Attempts {α : Type} (m : FileM α) (s : Io File) (c : ℕ) (a : α) (t : File) : Prop where
  ok : s.Succeeds c → m.run s = .ok a ⟨s.env, s.ops + c, t⟩
  error : ¬ s.Succeeds c → ∃ e s', m.run s = .error e s' ∧ e ≠ .notEnding ∧ s'.st = s.st

theorem Attempts.bind_pure {α β : Type} {m : FileM α} {s : Io File} {c : ℕ} {a : α} {t : File}
    (h : Attempts m s c a t) (b : α → β) : Attempts (m >>= fun a => pure (b a)) s c (b a) t := by
  constructor
  · intro hs
    exact bind_ok (h.ok hs)
  · intro hs
    obtain ⟨e, s', hm, he⟩ := h.error hs
    exact ⟨e, s', bind_error hm, he⟩

theorem Attempts.operation_bind {β : Type} {s : Io File} {c : ℕ} {b : β} {t : File}
    {f : Unit → FileM β} (hf : Attempts (f ()) ⟨s.env, s.ops + 1, s.st⟩ c b t) :
    Attempts (operation .btreeErr >>= f) s (1 + c) b t := by
  have hone : s.Succeeds 1 ↔ s.env s.ops = true := by
    constructor
    · intro h
      exact h 0 Nat.one_pos
    · intro h i hi
      obtain rfl : i = 0 := by omega
      exact h
  constructor
  · intro hs
    obtain ⟨h1, h2⟩ := (Io.succeeds_add s.st).mp hs
    rw [bind_ok ((operation_run _ s).trans (if_pos (hone.mp h1))), hf.ok h2, Nat.add_assoc]
  · intro hs
    by_cases h1 : s.Succeeds 1
    · have h2 : ¬ Io.Succeeds ⟨s.env, s.ops + 1, s.st⟩ c :=
        fun h2 => hs ((Io.succeeds_add s.st).mpr ⟨h1, h2⟩)
      obtain ⟨e, s', hm, he, hst⟩ := hf.error h2
      exact ⟨e, s', (bind_ok ((operation_run _ s).trans (if_pos (hone.mp h1)))).trans hm, he, hst⟩
    · exact ⟨_, _, bind_error ((operation_run _ s).trans (if_neg (mt hone.mpr h1))), by decide, rfl⟩

theorem Attempts.current_bind {β : Type} {s : Io File} {c : ℕ} {b : β} {t : File}
    {f : File → FileM β} (hf : Attempts (f s.st) s c b t) : Attempts (current >>= f) s c b t :=
  ⟨fun hs => hf.ok hs, fun hs => hf.error hs⟩

theorem attempts_update (s : Io File) (g : File → File) : Attempts (IoM.update g) s 0 () (g s.st) := by
  constructor
  · intro _
    rfl
  · intro hs
    exact absurd (fun i hi => absurd hi (Nat.not_lt_zero i)) hs

theorem updateExtentRecord_none (s : Io File) (data : ExtentRecord) :
    Attempts (updateExtentRecord none data) s 0 ()
      { s.st with fcbExtents := s.st.stored data } :=
  attempts_update s (fun f => { f with fcbExtents := f.stored data })

theorem updateExtentRecord_some {s : Io File} {k : ℕ} {p : ℕ × ExtentRecord} (data : ExtentRecord)
    (h : s.st.overflow.find? (fun p => p.1 = s.st.keyBlock k) = some p) :
    Attempts (updateExtentRecord (some k) data) s 2 ()
      (s.st.replaceRecord (s.st.keyBlock k) (s.st.stored data)) := by
  apply @Attempts.operation_bind _ s 1
  apply Attempts.current_bind
  simp only [h]
  apply @Attempts.operation_bind _ ⟨s.env, s.ops + 1, s.st⟩ 0
  exact attempts_update _ _

theorem createExtentRecord_run {s : Io File} {k : ℕ} (data : ExtentRecord)
    (h : ∀ p ∈ s.st.overflow, p.1 ≠ s.st.keyBlock k) :
    (s.Succeeds 1 ∧ (s.st.growth s.st.overflow.length s.st.vcb).1 = true →
      (createExtentRecord k data).run s = .ok () ⟨s.env, s.ops + 1, { s.st with
        vcb := (s.st.growth s.st.overflow.length s.st.vcb).2
        overflow := insertInOrder (s.st.keyBlock k) (s.st.stored data) s.st.overflow }⟩) ∧
    (¬ (s.Succeeds 1 ∧ (s.st.growth s.st.overflow.length s.st.vcb).1 = true) →
      ∃ s', (createExtentRecord k data).run s = .error .btreeErr s' ∧
        s'.st = { s.st with vcb := (s.st.growth s.st.overflow.length s.st.vcb).2 }) := by
  have hany : ¬ s.st.overflow.any (fun p => p.1 = s.st.keyBlock k) = true := by
    intro hany
    obtain ⟨p, hp, hk⟩ := any_eq_true.mp hany
    exact h p hp (of_decide_eq_true hk)
  unfold createExtentRecord
  rw [current_bind_apply, if_neg hany]
  dsimp only
  rw [update_bind_apply]
  constructor
  · rintro ⟨hone, hroom⟩
    have hrun : ∀ t : File, (operation ExtendErr.btreeErr).run ⟨s.env, s.ops, t⟩ = .ok () ⟨s.env, s.ops + 1, t⟩ :=
      fun t => (operation_run _ _).trans (if_pos (hone 0 Nat.one_pos))
    rw [if_pos hroom, bind_ok (hrun _)]
    rfl
  · intro hnot
    by_cases hroom : (s.st.growth s.st.overflow.length s.st.vcb).1 = true
    · have hone : ¬ s.env s.ops = true := by
        intro hone
        refine hnot ⟨fun i hi => ?_, hroom⟩
        obtain rfl : i = 0 := by omega
        exact hone
      have hrun : ∀ t : File, (operation ExtendErr.btreeErr).run ⟨s.env, s.ops, t⟩ = .error .btreeErr ⟨s.env, s.ops + 1, t⟩ :=
        fun t => (operation_run _ _).trans (if_neg hone)
      rw [if_pos hroom, bind_error (hrun _)]
      exact ⟨_, rfl, rfl⟩
    · rw [if_neg hroom]
      exact ⟨_, rfl, rfl⟩

/-- The file `t` is `f` with the blocks of one more piece listed. -/
structure File.Adds (f t : File) (start n : ℕ) : Prop where
  vcb : t.vcb = f.vcb
  isHFSPlus : t.isHFSPlus = f.isHFSPlus
  isExtentsFile : t.isExtentsFile = f.isExtentsFile
  growth : t.growth = f.growth
  fcbPLen : t.fcbPLen = f.fcbPLen
  lists : ∀ b, t.Lists b ↔ f.Lists b ∨ (start ≤ b ∧ b < start + n)
  blocks : t.blocks = f.blocks + n

/-- The place is the last extent of the file, with nothing behind it. -/
structure Found.At (x : Found) (f : File) : Prop where
  index : x.index < f.numExtentsPerRecord
  empty : ∀ i, x.index < i → (x.data i).blockCount = 0
  inside : ∀ i, (x.data i).startBlock + (x.data i).blockCount ≤ f.vcb.totalBlocks
  small : f.isHFSPlus = false → ∀ i, 3 ≤ i → x.data i = ⟨0, 0⟩
  fcb : x.key = none → x.data = f.fcbExtents ∧ f.overflow = []
  tree : ∀ k, x.key = some k →
    ∃ front, f.overflow = front ++ [(k, x.data)] ∧ ∀ p ∈ front, p.1 < k
  keys : ∀ p ∈ f.overflow, p.1 < f.blocks

theorem File.numExtents_le (f : File) : f.numExtentsPerRecord ≤ 8 := by
  unfold File.numExtentsPerRecord
  split_ifs <;> omega

theorem insertInOrder_last {key : ℕ} (data : ExtentRecord) {ps : List (ℕ × ExtentRecord)}
    (h : ∀ p ∈ ps, p.1 < key) : insertInOrder key data ps = ps ++ [(key, data)] := by
  induction ps with
  | nil => rfl
  | cons p ps ih =>
    rw [insertInOrder, if_neg (h p (by simp)).not_gt, ih (fun q hq => h q (by simp [hq]))]
    rfl

section entering
variable {f : File}

theorem File.Sound.keyBlock_eq (hf : f.Sound) {k : ℕ} (hk : k ≤ f.blocks) : f.keyBlock k = k := by
  unfold File.keyBlock
  split_ifs with h
  · rfl
  · have hsmall := hf.small (by simpa using h)
    have hroom := hf.room
    exact Nat.mod_eq_of_lt (by omega)

theorem File.Sound.stored_eq (hf : f.Sound) {r : ExtentRecord}
    (hin : ∀ i, (r i).startBlock + (r i).blockCount ≤ f.vcb.totalBlocks)
    (hsmall : f.isHFSPlus = false → ∀ i, 3 ≤ i → r i = ⟨0, 0⟩) : f.stored r = r := by
  unfold File.stored
  split_ifs with h
  · rfl
  · have hplus : f.isHFSPlus = false := by simpa using h
    have ht := hf.small hplus
    funext i
    have hi := hin i
    split_ifs with hi3
    · rw [Nat.mod_eq_of_lt (by omega), Nat.mod_eq_of_lt (by omega)]
    · exact (hsmall hplus i (by omega)).symm

/-- The file with its last record changed. -/
def File.write (f : File) : Option ℕ → ExtentRecord → File
  | none, data => { f with fcbExtents := data }
  | some k, data => f.replaceRecord k data

theorem replace_last {front : List (ℕ × ExtentRecord)} {k : ℕ} (h : ∀ p ∈ front, p.1 < k)
    (r data : ExtentRecord) :
    (front ++ [(k, r)]).map (fun p => if p.1 = k then (k, data) else p) = front ++ [(k, data)] := by
  have hfront : front.map (fun p => if p.1 = k then (k, data) else p) = front := by
    conv_rhs => rw [← map_id front]
    apply map_congr_left
    intro p hp
    exact if_neg (h p hp).ne
  rw [map_append, hfront]
  simp

theorem File.lists_append {front : List (ℕ × ExtentRecord)} {k : ℕ} {r : ExtentRecord}
    (h : f.overflow = front ++ [(k, r)]) (b : ℕ) :
    f.Lists b ↔ (ExtentRecord.Lists f.fcbExtents b ∨ ∃ p ∈ front, ExtentRecord.Lists p.2 b) ∨
      ExtentRecord.Lists r b := by
  unfold File.Lists
  rw [h]
  simp only [mem_append, mem_singleton, or_and_right, exists_or, exists_eq_left, or_assoc]

theorem File.blocks_append {front : List (ℕ × ExtentRecord)} {k : ℕ} {r : ExtentRecord}
    (h : f.overflow = front ++ [(k, r)]) :
    f.blocks = ExtentRecord.blocks f.fcbExtents +
      (front.map (fun p => ExtentRecord.blocks p.2)).sum + ExtentRecord.blocks r := by
  unfold File.blocks
  rw [h, map_append, sum_append]
  simp [Nat.add_assoc]

theorem Found.At.adds_write {x : Found} (hx : x.At f) {i start n : ℕ} {e : Extent} (hi : i < 8)
    (h : (x.data i).Grows e start n) :
    f.Adds (f.write x.key (update x.data i e)) start n := by
  cases hk : x.key with
  | none =>
    obtain ⟨hdata, hov⟩ := hx.fcb hk
    refine ⟨rfl, rfl, rfl, rfl, rfl, ?_, ?_⟩
    · intro b
      simp only [File.write, File.Lists, hov, not_mem_nil, false_and, exists_false, or_false]
      rw [ExtentRecord.lists_update hi h, hdata]
    · simp only [File.write, File.blocks, hov, map_nil, sum_nil, Nat.add_zero]
      rw [ExtentRecord.blocks_update hi h, hdata]
  | some k =>
    obtain ⟨front, hov, hfront⟩ := hx.tree k hk
    have hnew : (f.write (some k) (update x.data i e)).overflow =
        front ++ [(k, update x.data i e)] := by
      simp only [File.write, File.replaceRecord, hov]
      exact replace_last hfront _ _
    refine ⟨rfl, rfl, rfl, rfl, rfl, ?_, ?_⟩
    · intro b
      rw [File.lists_append hnew, File.lists_append hov, ExtentRecord.lists_update hi h, ← or_assoc]
      rfl
    · rw [File.blocks_append hnew, File.blocks_append hov, ExtentRecord.blocks_update hi h]
      simp only [File.write, File.replaceRecord]
      omega

theorem Found.At.write {x : Found} (hx : x.At f) {i start n : ℕ} {e : Extent}
    (hi : i < f.numExtentsPerRecord) (hge : x.index ≤ i) (h : (x.data i).Grows e start n)
    (he : e.startBlock + e.blockCount ≤ f.vcb.totalBlocks) :
    Found.At ⟨x.key, update x.data i e, i⟩ (f.write x.key (update x.data i e)) := by
  have hi8 : i < 8 := hi.trans_le f.numExtents_le
  have hadds := hx.adds_write hi8 h
  have hnum : (f.write x.key (update x.data i e)).numExtentsPerRecord =
      f.numExtentsPerRecord := by
    unfold File.numExtentsPerRecord
    rw [hadds.isHFSPlus]
  have hkeys : (f.write x.key (update x.data i e)).overflow.map Prod.fst =
      f.overflow.map Prod.fst := by
    cases x.key with
    | none => rfl
    | some k =>
      simp only [File.write, File.replaceRecord, map_map]
      apply map_congr_left
      intro p _
      simp only [comp]
      split_ifs with hp
      · exact hp.symm
      · rfl
  constructor
  · rw [hnum]
    exact hi
  · intro j hj
    have hji : j ≠ i := (show i < j from hj).ne'
    dsimp only
    rw [update_of_ne hji]
    exact hx.empty j (by dsimp only at hj; omega)
  · intro j
    rw [hadds.vcb]
    dsimp only
    by_cases hji : j = i
    · rw [hji, update_self]
      exact he
    · rw [update_of_ne hji]
      exact hx.inside j
  · intro hplus j hj
    rw [hadds.isHFSPlus] at hplus
    have hji : j ≠ i := by
      have : f.numExtentsPerRecord = 3 := by
        unfold File.numExtentsPerRecord
        rw [hplus]
        rfl
      omega
    dsimp only
    rw [update_of_ne hji]
    exact hx.small hplus j hj
  · intro hk
    dsimp only at hk
    rw [hk]
    exact ⟨rfl, (hx.fcb hk).2⟩
  · intro k hk
    dsimp only at hk
    obtain ⟨front, hov, hfront⟩ := hx.tree k hk
    refine ⟨front, ?_, hfront⟩
    rw [hk]
    simp only [File.write, File.replaceRecord, hov]
    exact replace_last hfront _ _
  · intro p hp
    have hmem : p.1 ∈ f.overflow.map Prod.fst := by
      rw [← hkeys]
      exact mem_map_of_mem hp
    obtain ⟨q, hq, hqp⟩ := mem_map.mp hmem
    have := hx.keys q hq
    rw [hadds.blocks]
    omega

theorem Found.At.update_attempts {s : Io File} {x : Found} (hx : x.At s.st) (hf : s.st.Sound)
    {data : ExtentRecord} (hstored : s.st.stored data = data) :
    Attempts (updateExtentRecord x.key data) s (if x.key.isSome then 2 else 0) ()
      (s.st.write x.key data) := by
  cases hk : x.key with
  | none =>
    have h := updateExtentRecord_none s data
    rw [hstored] at h
    exact h
  | some k =>
    obtain ⟨front, hov, -⟩ := hx.tree k hk
    have hmem : (k, x.data) ∈ s.st.overflow := by
      rw [hov]
      simp
    have hkey : s.st.keyBlock k = k := hf.keyBlock_eq (hx.keys _ hmem).le
    have hsome : (s.st.overflow.find? (fun p => p.1 = s.st.keyBlock k)).isSome := by
      rw [List.find?_isSome]
      exact ⟨_, hmem, by simp [hkey]⟩
    obtain ⟨p, hp⟩ := Option.isSome_iff_exists.mp hsome
    have h := updateExtentRecord_some data hp
    rw [hstored, hkey] at h
    exact h

theorem Found.At.update_entry {s : Io File} {x : Found} (hx : x.At s.st) (hf : s.st.Sound)
    {i start n : ℕ} {e : Extent} (hi : i < s.st.numExtentsPerRecord) (hge : x.index ≤ i)
    (h : (x.data i).Grows e start n) (he : e.startBlock + e.blockCount ≤ s.st.vcb.totalBlocks) :
    ∃ x' t, Attempts (updateExtentRecord x.key (update x.data i e) >>=
        fun _ => pure (⟨x.key, update x.data i e, i⟩ : Found)) s
        (if x.key.isSome then 2 else 0) x' t ∧
      x'.slot = ⟨x.key.isSome, i, e⟩ ∧ x'.At t ∧ s.st.Adds t start n ∧
      t.overflow.length = s.st.overflow.length := by
  have hat := hx.write hi hge h he
  have hadds := hx.adds_write (hi.trans_le s.st.numExtents_le) h
  have hstored : s.st.stored (update x.data i e) = update x.data i e := by
    apply hf.stored_eq
    · intro j
      have := hat.inside j
      rwa [hadds.vcb] at this
    · intro hplus
      apply hat.small
      rw [hadds.isHFSPlus, hplus]
  refine ⟨_, _, (hx.update_attempts hf hstored).bind_pure _, ?_, hat, hadds, ?_⟩
  · simp only [Found.slot, Found.extent, update_self]
  · cases x.key with
    | none => rfl
    | some k => exact length_map _

theorem Found.At.create_record {s : Io File} {x : Found} (hx : x.At s.st) (hf : s.st.Sound)
    (hgrow : s.st.TreeGrows) (hrover : s.st.vcb.nextAllocation ≤ s.st.vcb.totalBlocks) {start n : ℕ} (hn : 0 < n)
    (hin : start + n ≤ s.st.vcb.totalBlocks) :
    (s.Succeeds 1 ∧ (s.st.growth s.st.overflow.length s.st.vcb).1 = true →
      ∃ x' t, (createExtentRecord s.st.blocks (oneExtent start n) >>=
          fun _ => pure (⟨some s.st.blocks, oneExtent start n, 0⟩ : Found)).run s =
            .ok x' ⟨s.env, s.ops + 1, t⟩ ∧
        x'.slot = ⟨true, 0, ⟨start, n⟩⟩ ∧ x'.At t ∧
        File.Adds { s.st with vcb := (s.st.growth s.st.overflow.length s.st.vcb).2 } t start n ∧
        t.overflow.length = s.st.overflow.length + 1) ∧
    (¬ (s.Succeeds 1 ∧ (s.st.growth s.st.overflow.length s.st.vcb).1 = true) →
      ∃ s', (createExtentRecord s.st.blocks (oneExtent start n) >>=
          fun _ => pure (⟨some s.st.blocks, oneExtent start n, 0⟩ : Found)).run s = .error .btreeErr s' ∧
        s'.st = { s.st with vcb := (s.st.growth s.st.overflow.length s.st.vcb).2 }) := by
  have hkey : s.st.keyBlock s.st.blocks = s.st.blocks := hf.keyBlock_eq (le_refl _)
  have hinside : ∀ i, (oneExtent start n i).startBlock + (oneExtent start n i).blockCount ≤
      s.st.vcb.totalBlocks := by
    intro i
    unfold oneExtent
    split_ifs
    · exact hin
    · exact Nat.zero_le _
  have hsmall : ∀ i, 3 ≤ i → oneExtent start n i = ⟨0, 0⟩ := fun i hi => if_neg (by omega)
  obtain ⟨hok, herror⟩ := @createExtentRecord_run s s.st.blocks (oneExtent start n) (by
    intro p hp
    rw [hkey]
    exact (hx.keys p hp).ne)
  rw [hkey, hf.stored_eq hinside (fun _ => hsmall), insertInOrder_last _ hx.keys] at hok
  constructor
  · rintro hserved
    have hsame := (hgrow.grows _ _ hf.vcb hrover hserved.2).same
    refine ⟨_, _, bind_ok (hok hserved), rfl, ?_, ⟨rfl, rfl, rfl, rfl, rfl, ?_, ?_⟩, ?_⟩
    · have hblocks := @File.blocks_append { s.st with
        vcb := (s.st.growth s.st.overflow.length s.st.vcb).2
        overflow := s.st.overflow ++ [(s.st.blocks, oneExtent start n)] } _ _ _ rfl
      have hpos : 0 < s.st.numExtentsPerRecord := (Nat.zero_le _).trans_lt hx.index
      refine ⟨hpos, fun i hi => ?_, fun i => ?_, fun _ => hsmall, fun hk => (by cases hk), ?_, ?_⟩
      · dsimp only at hi ⊢
        rw [oneExtent, if_neg (by omega)]
      · dsimp only
        rw [hsame]
        exact hinside i
      · intro k hk
        obtain rfl := Option.some.inj hk
        exact ⟨s.st.overflow, rfl, hx.keys⟩
      · intro p hp
        rw [hblocks, oneExtent_blocks]
        have hle : p.1 ≤ s.st.blocks := by
          rcases mem_append.mp hp with hp | hp
          · exact (hx.keys p hp).le
          · rw [mem_singleton.mp hp]
        simp only [File.blocks] at hle ⊢
        omega
    · intro b
      rw [File.lists_append rfl, oneExtent_lists]
      rfl
    · rw [File.blocks_append rfl, oneExtent_blocks]
      rfl
    · exact length_append
  · intro hnot
    obtain ⟨s', hrun, hst⟩ := herror hnot
    exact ⟨s', bind_error hrun, hst⟩

/-- The calls succeed, and the extents file has room for a new record. -/
def Entry.Served (y : Entry) (s : Io File) : Prop :=
  s.Succeeds y.calls ∧ (y.isNew = true → (s.st.growth s.st.overflow.length s.st.vcb).1 = true)

/-- The volume when the piece has been entered. -/
def Entry.vcb (y : Entry) (f : File) : Vcb := if y.isNew then (f.growth f.overflow.length f.vcb).2 else f.vcb

theorem Entry.keeps (y : Entry) {f : File} (h : f.TreeGrows) : Keeps f.vcb.bitmap (y.vcb f).bitmap := by
  unfold Entry.vcb
  split_ifs
  · exact h.keeps _ _
  · exact fun _ hb => hb

/-- What a program that enters a piece does: it enters it, or fails and may leave the extents file longer. -/
structure Enters.One (m : FileM Found) (s : Io File) (y : Entry) (start n : ℕ) : Prop where
  ok : y.Served s → ∃ x' t, m.run s = .ok x' ⟨s.env, s.ops + y.calls, t⟩ ∧ x'.slot = y.slot ∧ x'.At t ∧
    File.Adds { s.st with vcb := y.vcb s.st } t start n ∧ t.overflow.length = y.records s.st.overflow.length
  error : ¬ y.Served s → ∃ e s' vcb, m.run s = .error e s' ∧ e ≠ .notEnding ∧ s'.st = { s.st with vcb := vcb } ∧
    Keeps s.st.vcb.bitmap vcb.bitmap

theorem Attempts.one {m : FileM Found} {s : Io File} {slot : Slot} {c : ℕ} {x' : Found} {t : File} {start n : ℕ}
    (h : Attempts m s c x' t) (hslot : x'.slot = slot) (hat : x'.At t) (hadds : s.st.Adds t start n)
    (hlength : t.overflow.length = s.st.overflow.length) : Enters.One m s ⟨slot, c, false⟩ start n := by
  constructor
  · rintro ⟨hs, -⟩
    exact ⟨x', t, h.ok hs, hslot, hat, hadds, hlength⟩
  · intro hnot
    obtain ⟨e, s', hrun, he, hst⟩ := h.error fun hs => hnot ⟨hs, fun hnew => nomatch hnew⟩
    exact ⟨e, s', s.st.vcb, hrun, he, hst, fun _ hb => hb⟩

theorem addExtent_spec {s : Io File} {x : Found} (hx : x.At s.st) (hf : s.st.Sound) (hgrow : s.st.TreeGrows)
    {start n : ℕ} (hin : start + n ≤ s.st.vcb.totalBlocks)
    (hn : 0 < n ∨ (x.key = none ∧ x.extent.blockCount = 0)) :
    (x.slot.next s.st.numExtentsPerRecord s.st.isExtentsFile start n = none →
      (addExtent x s.st.blocks (u32 (x.extent.startBlock + x.extent.blockCount)) start n).run s =
        .error .fxOvFlErr s) ∧
    ∀ y, x.slot.next s.st.numExtentsPerRecord s.st.isExtentsFile start n = some y →
      Enters.One (addExtent x s.st.blocks (u32 (x.extent.startBlock + x.extent.blockCount)) start n) s y start n := by
  have htotal := hf.vcb.total
  have hend : u32 (x.extent.startBlock + x.extent.blockCount) =
      x.extent.startBlock + x.extent.blockCount := u32_eq ((hx.inside x.index).trans_lt htotal)
  have hnext : x.slot.next s.st.numExtentsPerRecord s.st.isExtentsFile start n =
      if start = u32 (x.extent.startBlock + x.extent.blockCount) then
        some ⟨⟨x.key.isSome, x.index, ⟨x.extent.startBlock, u32 (x.extent.blockCount + n)⟩⟩,
          if x.key.isSome then 2 else 0, false⟩
      else if (if x.extent.blockCount ≠ 0 then x.index + 1 else x.index) =
          s.st.numExtentsPerRecord then
        if s.st.isExtentsFile then none else some ⟨⟨true, 0, ⟨start, n⟩⟩, 1, true⟩
      else some ⟨⟨x.key.isSome, if x.extent.blockCount ≠ 0 then x.index + 1 else x.index,
        ⟨start, n⟩⟩, if x.key.isSome then 2 else 0, false⟩ := rfl
  rw [hnext]
  unfold addExtent
  simp only [hend]
  by_cases hstart : start = x.extent.startBlock + x.extent.blockCount
  · -- the last extent grows
    subst hstart
    have hcount : u32 (x.extent.blockCount + n) = x.extent.blockCount + n := u32_eq (by omega)
    simp only [if_true, hcount]
    refine ⟨fun h => (by cases h), ?_⟩
    intro y hy
    obtain rfl := Option.some.inj hy
    obtain ⟨x', t, hatt, hslot, hat, hadds, hlength⟩ := hx.update_entry hf hx.index (le_refl _)
      (Extent.grows_end x.extent n) (by dsimp only; omega)
    exact hatt.one hslot hat hadds hlength
  · simp only [if_neg hstart]
    obtain ⟨index, hindex⟩ : ∃ i, (if x.extent.blockCount ≠ 0 then x.index + 1 else x.index) = i :=
      ⟨_, rfl⟩
    simp only [hindex]
    have hlt := hx.index
    by_cases hfull : index = s.st.numExtentsPerRecord
    · have hpos : 0 < n := by
        rcases hn with hn | ⟨-, hempty⟩
        · exact hn
        · rw [if_neg (not_not.mpr hempty)] at hindex
          omega
      by_cases hext : s.st.isExtentsFile = true
      · refine ⟨fun _ => ?_, ?_⟩
        · rw [current_bind_apply, if_pos hfull, if_pos hext]
          rfl
        · intro y hy
          rw [if_pos hfull, if_pos hext] at hy
          cases hy
      · refine ⟨fun h => ?_, ?_⟩
        · rw [if_pos hfull, if_neg hext] at h
          cases h
        · intro y hy
          rw [if_pos hfull, if_neg hext] at hy
          obtain rfl := Option.some.inj hy
          obtain ⟨hok, herror⟩ := hx.create_record hf hgrow hf.rover hpos hin
          constructor
          · rintro ⟨hs, hroom⟩
            rw [current_bind_apply, if_pos hfull, if_neg hext]
            exact hok ⟨hs, hroom rfl⟩
          · intro hnot
            rw [current_bind_apply, if_pos hfull, if_neg hext]
            obtain ⟨s', hrun, hst⟩ := herror fun h => hnot ⟨h.1, fun _ => h.2⟩
            exact ⟨_, s', _, hrun, by decide, hst, hgrow.keeps _ _⟩
    · have hempty : (x.data index).blockCount = 0 := by
        by_cases h0 : x.extent.blockCount = 0
        · rw [if_neg (not_not.mpr h0)] at hindex
          rw [← hindex]
          exact h0
        · rw [if_pos h0] at hindex
          exact hx.empty index (by omega)
      have hge : x.index ≤ index ∧ index ≤ x.index + 1 := by
        split_ifs at hindex <;> omega
      refine ⟨fun h => ?_, ?_⟩
      · rw [if_neg hfull] at h
        cases h
      · intro y hy
        rw [if_neg hfull] at hy
        obtain rfl := Option.some.inj hy
        obtain ⟨x', t, hatt, hslot, hat, hadds, hlength⟩ := hx.update_entry hf (by omega) hge.1
          (Extent.grows_empty hempty start n) hin
        refine Attempts.one (Attempts.current_bind ?_) hslot hat hadds hlength
        rw [if_neg hfull]
        exact hatt

end entering

/-! ## The loop -/

/-- A file `f` at the beginning of a call, and what has become of it. -/
structure Kept (f f' : File) : Prop where
  isHFSPlus : f'.isHFSPlus = f.isHFSPlus
  isExtentsFile : f'.isExtentsFile = f.isExtentsFile
  growth : f'.growth = f.growth
  marked : ∀ b, f.Lists b → bitAt f.vcb.bitmap b = true
  keeps : Keeps f.vcb.bitmap f'.vcb.bitmap

theorem File.Sound.kept {f : File} (hf : f.Sound) : Kept f f :=
  ⟨rfl, rfl, rfl, hf.marked, fun _ hb => hb⟩

theorem File.Sound.noLeak {f : File} (hf : f.Sound) : NoLeak f f := by
  refine ⟨fun b => ?_, hf.length⟩
  constructor
  · rintro ⟨h1, h2⟩
    rw [h1] at h2
    cases h2
  · rintro ⟨h1, h2⟩
    exact absurd h2 h1

theorem Kept.free {f₀ f : File} (hg : Kept f₀ f) {b : ℕ} (hb : bitAt f.vcb.bitmap b = false) :
    bitAt f₀.vcb.bitmap b = false := by
  by_contra hset
  rw [hg.keeps b (Bool.eq_true_of_not_eq_false hset)] at hb
  cases hb

theorem Kept.numExtents {f₀ f : File} (hg : Kept f₀ f) : f.numExtentsPerRecord = f₀.numExtentsPerRecord := by
  unfold File.numExtentsPerRecord
  rw [hg.isHFSPlus]

section pieces
variable {f₀ f : File} {r : Result} {least most : ℕ}

theorem free_of_sound (hr : r.Sound f.vcb least most) (hf : f.vcb.Counted) (hno : r.err = .noErr) :
    r.vcb.freeBlocks + r.actualNumBlocks = f.vcb.freeBlocks := by
  obtain ⟨hin, hclear, hmark⟩ := hr.success hno
  have hcount := hmark.clearCount hclear hin
  rw [hr.counted.count, hf.count, hr.same]
  omega

theorem keeps_of_sound (hr : r.Sound f.vcb least most) : Keeps f.vcb.bitmap r.vcb.bitmap := by
  by_cases hno : r.err = .noErr
  · exact Keeps.marked (hr.success hno).marked
  · rw [hr.failure hno]
    exact fun _ hb => hb

theorem File.Sound.took (hf : f.Sound) (hr : r.Sound f.vcb least most) :
    File.Sound { f with vcb := r.vcb } := by
  refine ⟨hr.counted, ?_, ?_, ?_, ?_, ?_⟩
  · dsimp only
    rw [hr.same]
    rcases hr.rover with h | ⟨hno, h⟩
    · rw [h]
      exact hf.rover
    · have := (hr.success hno).inside
      omega
  · dsimp only
    rw [hr.same]
    exact hf.small
  · have hroom := hf.room
    dsimp only [File.blocks] at hroom ⊢
    rw [hr.same]
    by_cases hno : r.err = .noErr
    · have := free_of_sound hr hf.vcb hno
      omega
    · rw [hr.failure hno]
      exact hroom
  · intro b hb
    exact keeps_of_sound hr b (hf.marked b hb)
  · dsimp only [File.blocks]
    rw [hr.sameSize]
    exact hf.length

theorem Kept.not_noLeak (hg : Kept f₀ f) {t : File} {b : ℕ} (hwas : bitAt f.vcb.bitmap b = false)
    (hnow : bitAt t.vcb.bitmap b = true) (hlists : ¬ t.Lists b) : ¬ NoLeak f₀ t := by
  rintro ⟨hbits, -⟩
  exact hlists ((hbits b).mp ⟨hg.free hwas, hnow⟩).2

theorem Kept.leak (hg : Kept f₀ f) (hf : f.Sound) (hr : r.Sound f.vcb least most) (hno : r.err = .noErr)
    (hpos : 0 < r.actualNumBlocks) {vcb : Vcb} (hkeeps : Keeps r.vcb.bitmap vcb.bitmap) :
    ¬ NoLeak f₀ { f with vcb := vcb } := by
  obtain ⟨-, hclear, hmark⟩ := hr.success hno
  have hwas : bitAt f.vcb.bitmap r.actualStartBlock = false := hclear _ (le_refl _) (by omega)
  refine hg.not_noLeak (b := r.actualStartBlock) hwas (hkeeps _ ?_) fun hlist => ?_
  · rw [hmark, if_pos ⟨le_refl _, by omega⟩]
  · rw [hf.marked _ hlist] at hwas
    cases hwas

theorem Kept.breaks (hg : Kept f₀ f) (hf : f.Sound) (hr : r.Breaks f.vcb) :
    NoLeak f₀ { f with vcb := r.vcb } ↔
      NoLeak f₀ f ∧ ∀ b, bitAt r.vcb.bitmap b = true → bitAt f.vcb.bitmap b = true := by
  have hsize : r.vcb.blockSize = f.vcb.blockSize := by rw [hr.rest]
  constructor
  · intro hno
    have hnone : ∀ b, bitAt r.vcb.bitmap b = true → bitAt f.vcb.bitmap b = true := by
      intro b hb
      by_contra hwas
      exact @Kept.not_noLeak _ _ hg { f with vcb := r.vcb } b (Bool.eq_false_of_not_eq_true hwas) hb
        (fun hlist => hwas (hf.marked b hlist)) hno
    refine ⟨⟨fun b => ?_, hf.length⟩, hnone⟩
    exact (and_congr_right fun _ => ⟨hr.keeps b, hnone b⟩).trans (hno.1 b)
  · rintro ⟨hno, hnone⟩
    refine ⟨fun b => (and_congr_right fun _ => ⟨hnone b, hr.keeps b⟩).trans (hno.1 b), ?_⟩
    change f.fcbPLen = r.vcb.blockSize * f.blocks
    rw [hsize]
    exact hf.length

theorem Kept.enter (hg : Kept f₀ f) (hf : f.Sound) (hr : r.Sound f.vcb least most)
    (hno : r.err = .noErr) {vcb : Vcb} (hgrows : Vcb.Grows r.vcb vcb) (hkeeps : Keeps r.vcb.bitmap vcb.bitmap)
    {t : File} (ht : File.Adds { f with vcb := vcb } t r.actualStartBlock r.actualNumBlocks)
    (hlen : f.fcbPLen + r.actualNumBlocks * f.vcb.blockSize < 2 ^ 32) {t' : File}
    (ht' : t' = { t with fcbPLen := u32 (t.fcbPLen + r.actualNumBlocks * f.vcb.blockSize) }) :
    t'.Sound ∧ Kept f₀ t' ∧ (NoLeak f₀ t' ↔ NoLeak f₀ f ∧ vcb = r.vcb) := by
  obtain ⟨-, hclear, hmark⟩ := hr.success hno
  have htook := hf.took hr
  have hfree := free_of_sound hr hf.vcb hno
  have hfree' := freeBlocks_le htook.vcb hgrows.counted hkeeps hgrows.same
  have hblocks : t.blocks = f.blocks + r.actualNumBlocks := ht.blocks
  have hlength : u32 (t.fcbPLen + r.actualNumBlocks * f.vcb.blockSize) = t.vcb.blockSize * t.blocks := by
    rw [ht.fcbPLen, u32_eq hlen, ht.vcb, hblocks]
    dsimp only
    rw [hgrows.sameSize, hr.sameSize, hf.length, Nat.mul_add, Nat.mul_comm r.actualNumBlocks]
  have hmarked : ∀ b, t.Lists b → bitAt t.vcb.bitmap b = true := by
    intro b hb
    rw [ht.vcb]
    apply hkeeps
    rcases (ht.lists b).mp hb with hb | hb
    · exact htook.marked b hb
    · rw [hmark b, if_pos hb]
  have hsound : t'.Sound := by
    subst ht'
    refine ⟨?_, ?_, ?_, ?_, hmarked, hlength⟩
    · dsimp only
      rw [ht.vcb]
      exact hgrows.counted
    · dsimp only
      rw [ht.vcb]
      exact hgrows.rover
    · dsimp only
      rw [ht.vcb, ht.isHFSPlus]
      dsimp only
      rw [hgrows.same]
      exact htook.small
    · have hroom := hf.room
      change t.blocks + t.vcb.freeBlocks ≤ t.vcb.totalBlocks
      rw [ht.vcb, hblocks]
      dsimp only at hfree' ⊢
      rw [hgrows.same, hr.same]
      omega
  have hkept : Kept f₀ t' := by
    subst ht'
    refine ⟨ht.isHFSPlus.trans hg.isHFSPlus, ht.isExtentsFile.trans hg.isExtentsFile, ht.growth.trans hg.growth,
      hg.marked, ?_⟩
    change Keeps f₀.vcb.bitmap t.vcb.bitmap
    rw [ht.vcb]
    exact (hg.keeps.trans (keeps_of_sound hr)).trans hkeeps
  refine ⟨hsound, hkept, ?_⟩
  have hvcb : t'.vcb = vcb := by
    rw [ht']
    exact ht.vcb
  have hlists : ∀ b, t'.Lists b ↔ f.Lists b ∨ r.actualStartBlock ≤ b ∧ b < r.actualStartBlock + r.actualNumBlocks := by
    rw [ht']
    exact ht.lists
  -- the bits of the piece are new, and so are its blocks
  have hpiece : ∀ b, r.actualStartBlock ≤ b ∧ b < r.actualStartBlock + r.actualNumBlocks →
      bitAt f₀.vcb.bitmap b = false ∧ bitAt r.vcb.bitmap b = true ∧ ¬ f₀.Lists b := by
    intro b hb
    have h0 := hg.free (hclear b hb.1 hb.2)
    refine ⟨h0, by rw [hmark b, if_pos hb], fun hlist => ?_⟩
    rw [hg.marked b hlist] at h0
    cases h0
  constructor
  · intro hnoLeak
    have hsame : vcb = r.vcb := by
      refine hgrows.took.resolve_right ?_
      rintro ⟨b, hwas, hnow⟩
      have hwas' : bitAt f.vcb.bitmap b = false := by
        by_contra hset
        rw [keeps_of_sound hr b (Bool.eq_true_of_not_eq_false hset)] at hwas
        cases hwas
      refine hg.not_noLeak hwas' (by rw [hvcb]; exact hnow) ?_ hnoLeak
      rw [hlists]
      rintro (hlist | hb)
      · rw [hf.marked b hlist] at hwas'
        cases hwas'
      · rw [(hpiece b hb).2.1] at hwas
        cases hwas
    subst hsame
    refine ⟨⟨fun b => ?_, hf.length⟩, rfl⟩
    have hb := hnoLeak.1 b
    rw [hvcb, hlists, hmark b] at hb
    by_cases hin : r.actualStartBlock ≤ b ∧ b < r.actualStartBlock + r.actualNumBlocks
    · have hclear' := hclear b hin.1 hin.2
      refine iff_of_false (fun h => ?_) (fun h => ?_)
      · rw [hclear'] at h
        cases h.2
      · rw [hf.marked b h.2] at hclear'
        cases hclear'
    · rw [if_neg hin] at hb
      exact hb.trans (and_congr_right fun _ => or_iff_left hin)
  · rintro ⟨hnoLeak, rfl⟩
    refine ⟨fun b => ?_, ?_⟩
    · rw [hvcb, hlists, hmark b]
      by_cases hin : r.actualStartBlock ≤ b ∧ b < r.actualStartBlock + r.actualNumBlocks
      · obtain ⟨h0, -, hnot⟩ := hpiece b hin
        rw [if_pos hin]
        exact iff_of_true ⟨h0, rfl⟩ ⟨hnot, .inr hin⟩
      · rw [if_neg hin]
        exact (hnoLeak.1 b).trans (and_congr_right fun _ => (or_iff_left hin).symm)
    · exact hsound.length

end pieces

theorem divideAndRoundUp_bounds (m : ℕ) {d : ℕ} (hd : 0 < d) :
    m ≤ divideAndRoundUp m d * d ∧ divideAndRoundUp m d * d < m + d := by
  have hdiv := Nat.div_add_mod m d
  have hmod := Nat.mod_lt m hd
  have hcomm := Nat.mul_comm d (m / d)
  unfold divideAndRoundUp
  dsimp only
  split_ifs with h
  · rw [Nat.add_mul, Nat.one_mul]
    omega
  · omega

theorem Found.At.congr {x : Found} {f f' : File} (hx : x.At f)
    (hplus : f'.isHFSPlus = f.isHFSPlus) (htotal : f'.vcb.totalBlocks = f.vcb.totalBlocks)
    (hfcb : f'.fcbExtents = f.fcbExtents) (hov : f'.overflow = f.overflow) : x.At f' := by
  have hnum : f'.numExtentsPerRecord = f.numExtentsPerRecord := by
    unfold File.numExtentsPerRecord
    rw [hplus]
  have hblocks : f'.blocks = f.blocks := by
    unfold File.blocks
    rw [hfcb, hov]
  refine ⟨?_, hx.empty, ?_, ?_, ?_, ?_, ?_⟩
  · rw [hnum]
    exact hx.index
  · rw [htotal]
    exact hx.inside
  · rw [hplus]
    exact hx.small
  · rw [hfcb, hov]
    exact hx.fcb
  · rw [hov]
    exact hx.tree
  · rw [hov, hblocks]
    exact hx.keys

/-- What the loop needs of the amounts and of the number of turns. -/
structure Want.Fits (want : Want) (f : File) (x : Found) (turns : ℕ) : Prop where
  most : want.bytesToAdd ≤ want.maximumBytes
  length : f.fcbPLen + want.maximumBytes + f.vcb.blockSize ≤ 2 ^ 32
  asks : 0 < want.bytesToAdd ∨ want.wantContig = true ∧ x.key = none ∧ x.extent.blockCount = 0
  turns : f.vcb.freeBlocks + (if want.wantContig then 1 else 0) < turns

theorem Want.Fits.allocate {want : Want} {f : File} {x : Found} {turns : ℕ}
    (h : want.Fits f x turns) (hf : f.Sound) (hx : x.At f) :
    ∃ r, blockAllocate f.vcb (u32 (x.extent.startBlock + x.extent.blockCount)) want.bytesToAdd
        want.maximumBytes want.wantContig = some r ∧
      (r.Breaks f.vcb ∨
        r.Sound f.vcb (if want.wantContig then divideAndRoundUp want.bytesToAdd f.vcb.blockSize else 1)
          (max (divideAndRoundUp want.bytesToAdd f.vcb.blockSize)
            (divideAndRoundUp want.maximumBytes f.vcb.blockSize))) := by
  have hlen := h.length
  have hmost := h.most
  have hsize := hf.vcb.blockSize
  have hend : u32 (x.extent.startBlock + x.extent.blockCount) ≤ f.vcb.totalBlocks :=
    (Nat.mod_le _ _).trans (hx.inside x.index)
  apply blockAllocate_reads hf.vcb (by omega)
  constructor
  · unfold Vcb.startFor
    split_ifs
    · exact hf.rover
    · exact hend
  · intro hany
    rcases h.asks with hpos | ⟨hcontig, -⟩
    · omega
    · rw [hany] at hcontig
      cases hcontig

theorem Found.next_of_empty {x : Found} {m : ℕ} (hkey : x.key = none)
    (hempty : x.extent.blockCount = 0) (hlt : x.index < m) (isExtentsFile : Bool) (start n : ℕ) :
    ∃ y, x.slot.next m isExtentsFile start n = some ⟨y, 0, false⟩ := by
  have hne : x.index ≠ m := hlt.ne
  simp only [Found.slot, Slot.next, hkey, hempty, Option.isSome_none, Bool.false_eq_true, if_false,
    ne_eq, not_true_eq_false, if_neg hne]
  by_cases hstart : start = u32 (x.extent.startBlock + 0)
  · rw [if_pos hstart]
    exact ⟨_, rfl⟩
  · rw [if_neg hstart]
    exact ⟨_, rfl⟩

theorem Slot.next_end {x : Slot} {y : Entry} {m start n total : ℕ} {isExtentsFile : Bool}
    (h : x.next m isExtentsFile start n = some y) (ht : total < 2 ^ 32)
    (hx : x.extent.startBlock + x.extent.blockCount ≤ total) (hin : start + n ≤ total) :
    y.slot.extent.startBlock + y.slot.extent.blockCount = start + n := by
  unfold Slot.next at h
  rw [u32_eq (x := x.extent.startBlock + x.extent.blockCount) (by omega)] at h
  dsimp only at h
  by_cases hstart : start = x.extent.startBlock + x.extent.blockCount
  · rw [if_pos hstart, u32_eq (by omega)] at h
    cases h
    dsimp only
    omega
  · rw [if_neg hstart] at h
    split_ifs at h <;> cases h <;> rfl

theorem extendLoop_noErr {forceContig : Bool} {n : ℕ} {s : Io File} {x : Found} {want : Want}
    {r : Result} {next : ℕ}
    (hr : blockAllocate s.st.vcb (u32 (x.extent.startBlock + x.extent.blockCount)) want.bytesToAdd
      want.maximumBytes want.wantContig = some r) (hno : r.err = .noErr) :
    (extendLoop forceContig (n + 1) x want next).run s = (do
      let found ← addExtent x next (u32 (x.extent.startBlock + x.extent.blockCount))
        r.actualStartBlock r.actualNumBlocks
      IoM.update (fun f => { f with
        fcbPLen := u32 (f.fcbPLen + u32 (r.actualNumBlocks * s.st.vcb.blockSize)) })
      if forceContig then
        if (want.after (u32 (r.actualNumBlocks * s.st.vcb.blockSize))).bytesToAdd ≠ 0 then
          throw .dskFulErr
        else pure ()
      else if (want.after (u32 (r.actualNumBlocks * s.st.vcb.blockSize))).bytesToAdd = 0 then pure ()
      else
        extendLoop forceContig n found
          (want.after (u32 (r.actualNumBlocks * s.st.vcb.blockSize)))
          (u32 (next + r.actualNumBlocks)) : FileM Unit).run
      { s with st := { s.st with vcb := r.vcb } } := by
  rw [extendLoop, current_bind_apply]
  simp only [hr]
  rw [update_bind_apply, if_neg (by rw [hno]; simp), if_neg (by rw [hno]; simp),
    if_neg (by rw [hno]; simp)]

/-- The amounts after a piece, for a turn that goes on: the request was for any blocks, and
fewer are wanted by the size of the piece. -/
theorem Want.Fits.after {want : Want} {f t : File} {x y : Found} {n : ℕ} {r : Result}
    (h : want.Fits f x (n + 1)) (hf : f.vcb.Counted)
    (hr : r.Sound f.vcb (if want.wantContig then divideAndRoundUp want.bytesToAdd f.vcb.blockSize
      else 1) (max (divideAndRoundUp want.bytesToAdd f.vcb.blockSize)
        (divideAndRoundUp want.maximumBytes f.vcb.blockSize)))
    (hno : r.err = .noErr) (hsize' : t.vcb.blockSize = f.vcb.blockSize) (hfree' : t.vcb.freeBlocks ≤ r.vcb.freeBlocks)
    (hlen : t.fcbPLen = f.fcbPLen + r.actualNumBlocks * f.vcb.blockSize)
    (hmore : (want.after (r.actualNumBlocks * f.vcb.blockSize)).bytesToAdd ≠ 0) :
    (want.after (r.actualNumBlocks * f.vcb.blockSize)).Fits t y n := by
  have hsize := hf.blockSize
  have hmost := h.most
  have hlength := h.length
  have hturns := h.turns
  have henough := hr.enough hno
  have hfree := free_of_sound (f := f) hr hf hno
  have hle : ¬ r.actualNumBlocks * f.vcb.blockSize > want.bytesToAdd := by
    intro hgt
    rw [Want.after, if_pos hgt] at hmore
    exact hmore rfl
  rw [Want.after, if_neg hle] at hmore ⊢
  dsimp only at hmore
  -- a contiguous piece is all that was wanted
  have hany : want.wantContig = false := by
    cases hc : want.wantContig with
    | false => rfl
    | true =>
      rw [hc, if_pos rfl] at henough
      have hbound := (divideAndRoundUp_bounds want.bytesToAdd (d := f.vcb.blockSize) (by omega)).1
      have := Nat.mul_le_mul_right f.vcb.blockSize henough
      omega
  rw [hany] at henough hturns
  simp only [Bool.false_eq_true, if_false] at henough hturns
  have hsub : u32Sub want.maximumBytes (r.actualNumBlocks * f.vcb.blockSize) =
      want.maximumBytes - r.actualNumBlocks * f.vcb.blockSize := u32Sub_eq (by omega) (by omega)
  refine ⟨?_, ?_, .inl ?_, ?_⟩
  · dsimp only
    rw [hsub]
    omega
  · dsimp only
    rw [hsub, hlen, hsize']
    omega
  · dsimp only
    omega
  · dsimp only
    rw [hany]
    simp only [Bool.false_eq_true, if_false]
    omega

theorem Want.Fits.piece_bytes {want : Want} {f : File} {x : Found} {n num : ℕ} (h : want.Fits f x n)
    (hf : f.vcb.Counted) (hnum : num ≤ max (divideAndRoundUp want.bytesToAdd f.vcb.blockSize)
      (divideAndRoundUp want.maximumBytes f.vcb.blockSize)) :
    f.fcbPLen + num * f.vcb.blockSize < 2 ^ 32 := by
  have hsize := hf.blockSize
  have hlength := h.length
  have hmost := h.most
  rcases le_max_iff.mp hnum with hle | hle
  · have hbound := (divideAndRoundUp_bounds want.bytesToAdd (d := f.vcb.blockSize) (by omega)).2
    have := Nat.mul_le_mul_right f.vcb.blockSize hle
    omega
  · have hbound := (divideAndRoundUp_bounds want.maximumBytes (d := f.vcb.blockSize) (by omega)).2
    have := Nat.mul_le_mul_right f.vcb.blockSize hle
    omega

/-- A run that ends, whatever its result. -/
def Ends (r : EStateM.Result ExtendErr (Io File) Unit) : Prop := ∀ s, r ≠ .error .notEnding s

theorem extendLoop_spec {f₀ : File} (hgrow : f₀.TreeGrows) {forceContig : Bool} : ∀ {n : ℕ} {s : Io File} {x : Found}
    {want : Want}, x.At s.st → s.st.Sound → Kept f₀ s.st → want.Fits s.st x n →
    Ends ((extendLoop forceContig n x want s.st.blocks).run s) ∧
    (NoLeak f₀ (finalState ((extendLoop forceContig n x want s.st.blocks).run s)) ↔
      NoLeak f₀ s.st ∧
        f₀.CanEnter s.env forceContig n s.ops s.st.overflow.length s.st.vcb x.slot want) := by
  intro n
  induction n with
  | zero =>
    intro s x want _ _ _ hw
    exact absurd hw.turns (Nat.not_lt_zero _)
  | succ n ih =>
    intro s x want hx hf hg hw
    obtain ⟨r, hrun, hcases⟩ := hw.allocate hf hx
    have hslot : x.slot.extent = x.extent := rfl
    have hgrow' : s.st.TreeGrows := by
      refine ⟨fun k vcb => ?_, fun k vcb => ?_⟩
      · rw [hg.growth]
        exact hgrow.keeps k vcb
      · rw [hg.growth]
        exact hgrow.grows k vcb
    rcases hcases with hbreaks | hr
    · -- a read has failed
      rw [extendLoop, current_bind_apply, File.CanEnter]
      simp only [hslot, hrun]
      rw [update_bind_apply, if_neg (by rw [hbreaks.err]; simp), if_neg (by rw [hbreaks.err]; simp),
        if_pos hbreaks.err, if_neg (by rw [hbreaks.err]; simp), if_neg (by rw [hbreaks.err]; simp)]
      exact ⟨fun _ h => (by cases h), hg.breaks hf hbreaks⟩
    by_cases hno : r.err = .noErr
    · have hpos : 0 < r.actualNumBlocks ∨ (x.key = none ∧ x.extent.blockCount = 0) := by
        have henough := hr.enough hno
        rcases hw.asks with hB | ⟨-, h⟩
        · have := divideAndRoundUp_pos (d := s.st.vcb.blockSize) hB
          refine .inl ?_
          split_ifs at henough <;> omega
        · exact .inr h
      have hbytes := hw.piece_bytes hf.vcb (hr.bounded hno)
      have hu : u32 (r.actualNumBlocks * s.st.vcb.blockSize) =
          r.actualNumBlocks * s.st.vcb.blockSize := u32_eq (by omega)
      have hin := (hr.success hno).inside
      obtain ⟨s₁, hs₁⟩ : ∃ s₁ : Io File, s₁ = { s with st := { s.st with vcb := r.vcb } } := ⟨_, rfl⟩
      have hadd := @addExtent_spec s₁ x (by rw [hs₁]; exact hx.congr rfl hr.same rfl rfl)
        (by rw [hs₁]; exact hf.took hr) (by rw [hs₁]; exact ⟨hgrow'.keeps, hgrow'.grows⟩)
        r.actualStartBlock r.actualNumBlocks (by rw [hs₁]; dsimp only; rw [hr.same]; exact hin) hpos
      rw [show s₁.st.blocks = s.st.blocks by rw [hs₁]; rfl,
        show s₁.st.numExtentsPerRecord = f₀.numExtentsPerRecord by rw [hs₁, ← hg.numExtents]; rfl,
        show s₁.st.isExtentsFile = f₀.isExtentsFile by rw [hs₁, ← hg.isExtentsFile]] at hadd
      obtain ⟨hnone, hsome⟩ := hadd
      rw [extendLoop_noErr hrun hno, File.CanEnter, ← hs₁]
      simp only [hslot, hrun, if_pos hno, hu]
      -- a piece of no blocks is put into a first entry that is free
      have hnum : (∀ y, x.slot.next f₀.numExtentsPerRecord f₀.isExtentsFile r.actualStartBlock r.actualNumBlocks =
          some y → ¬ y.Served s₁) → 0 < r.actualNumBlocks := by
        intro hnot
        rcases hpos with h | ⟨hkey, hempty⟩
        · exact h
        · obtain ⟨y, hy⟩ := Found.next_of_empty hkey hempty (hg.numExtents ▸ hx.index) f₀.isExtentsFile
            r.actualStartBlock r.actualNumBlocks
          exact absurd ⟨fun i hi => absurd hi (Nat.not_lt_zero i), fun hnew => nomatch hnew⟩ (hnot _ hy)
      cases hnext : x.slot.next f₀.numExtentsPerRecord f₀.isExtentsFile r.actualStartBlock r.actualNumBlocks with
      | none =>
        rw [bind_error (hnone hnext)]
        refine ⟨fun _ h => (by cases h), iff_of_false ?_ fun h => h.2⟩
        simp only [finalState, hs₁]
        exact hg.leak hf hr hno (hnum fun y hy => by rw [hnext] at hy; cases hy) fun _ hb => hb
      | some y =>
        obtain ⟨hok, herror⟩ := hsome y hnext
        dsimp only
        have hgrowth : (s₁.st.growth s₁.st.overflow.length s₁.st.vcb) = f₀.growth s.st.overflow.length r.vcb := by
          rw [hs₁, ← hg.growth]
        by_cases hserved : y.Served s₁
        · obtain ⟨x', t, hrun', hslot', hat, hadds, hlength⟩ := hok hserved
          have hs : Io.Succeeds ⟨s.env, s.ops, f₀⟩ y.calls := by
            have hs := hserved.1
            rw [hs₁] at hs
            exact hs
          have hvcb₁ : s₁.st.vcb = r.vcb := by rw [hs₁]
          have htook := hf.took hr
          have hgrows : Vcb.Grows r.vcb (y.vcb s₁.st) := by
            unfold Entry.vcb
            split_ifs with hnew
            · rw [hvcb₁]
              refine (show s₁.st.TreeGrows by rw [hs₁]; exact ⟨hgrow'.keeps, hgrow'.grows⟩).grows _ _ htook.vcb
                htook.rover ?_
              rw [← hvcb₁]
              exact hserved.2 hnew
            · rw [hvcb₁]
              exact ⟨htook.vcb, htook.rover, rfl, rfl, .inl rfl⟩
          have hkeeps : Keeps r.vcb.bitmap (y.vcb s₁.st).bitmap := by
            rw [← hvcb₁]
            exact y.keeps (by rw [hs₁]; exact ⟨hgrow'.keeps, hgrow'.grows⟩)
          have hnew : y.vcb s₁.st = r.vcb ↔ (y.isNew = true → f₀.growth s.st.overflow.length r.vcb = (true, r.vcb)) := by
            unfold Entry.vcb
            rw [← hgrowth, hvcb₁]
            split_ifs with hnew
            · have hroom := hserved.2 hnew
              rw [hvcb₁] at hroom
              exact ⟨fun h _ => Prod.ext hroom h, fun h => congrArg Prod.snd (h hnew)⟩
            · exact iff_of_true rfl fun h => absurd h hnew
          obtain ⟨t', ht'⟩ : ∃ t' : File, t' = { t with
            fcbPLen := u32 (t.fcbPLen + r.actualNumBlocks * s.st.vcb.blockSize) } := ⟨_, rfl⟩
          obtain ⟨hsound, hkept, hiff⟩ := hg.enter hf hr hno hgrows hkeeps (by rw [hs₁] at hadds ⊢; exact hadds) hbytes ht'
          rw [bind_ok hrun', update_bind_apply]
          dsimp only
          rw [← ht']
          have hdone : NoLeak f₀ t' ↔ NoLeak f₀ s.st ∧ Io.Succeeds ⟨s.env, s.ops, f₀⟩ y.calls ∧
              (y.isNew = true → f₀.growth s.st.overflow.length r.vcb = (true, r.vcb)) ∧ True := by
            rw [hiff, hnew]
            simp only [hs, true_and, and_true]
          by_cases hforce : forceContig = true
          · simp only [hforce, true_or, if_true]
            split_ifs
            · exact ⟨fun _ h => (by cases h), hdone⟩
            · exact ⟨fun _ h => (by cases h), hdone⟩
          · rw [if_neg hforce]
            by_cases hzero : (want.after (r.actualNumBlocks * s.st.vcb.blockSize)).bytesToAdd = 0
            · rw [if_pos hzero]
              simp only [hzero, true_or, or_true]
              exact ⟨fun _ h => (by cases h), hdone⟩
            · have hplen : t'.fcbPLen = s.st.fcbPLen + r.actualNumBlocks * s.st.vcb.blockSize := by
                rw [ht']
                dsimp only
                rw [hadds.fcbPLen, hs₁, u32_eq hbytes]
              have hvcb' : t'.vcb = y.vcb s₁.st := by
                rw [ht']
                exact hadds.vcb
              have hblocks : u32 (s.st.blocks + r.actualNumBlocks) = t'.blocks := by
                have hroom := hf.room
                have hfree := free_of_sound hr hf.vcb hno
                have htotal := hf.vcb.total
                rw [u32_eq (by omega), ht']
                exact (hadds.blocks.trans (by rw [hs₁]; rfl)).symm
              have hlast : x'.extent.startBlock + x'.extent.blockCount =
                  r.actualStartBlock + r.actualNumBlocks := by
                have := Slot.next_end hnext hf.vcb.total (hx.inside x.index) hin
                rw [← hslot'] at this
                exact this
              have hrecords : t'.overflow.length = y.records s.st.overflow.length := by
                rw [ht']
                exact hlength.trans (by rw [hs₁])
              rw [if_neg hzero, hblocks, or_iff_right hforce, or_iff_right hzero]
              obtain ⟨hends, hrest⟩ := @ih ⟨s₁.env, s₁.ops + y.calls, t'⟩ x'
                (want.after (r.actualNumBlocks * s.st.vcb.blockSize))
                (by rw [ht']; exact hat.congr rfl rfl rfl rfl) hsound hkept
                (hw.after hf.vcb hr hno (by rw [hvcb', hgrows.sameSize, hr.sameSize])
                  (by rw [hvcb']; exact freeBlocks_le htook.vcb hgrows.counted hkeeps hgrows.same) hplen hzero)
              refine ⟨hends, hrest.trans ?_⟩
              have henv : s₁.env = s.env ∧ s₁.ops = s.ops := by rw [hs₁]; exact ⟨rfl, rfl⟩
              dsimp only
              rw [hiff, hnew, hvcb', hrecords, hslot', henv.1, henv.2]
              constructor
              · rintro ⟨⟨hnoLeak, hroom⟩, hmore⟩
                rw [hnew.mpr hroom] at hmore
                exact ⟨hnoLeak, hs, hroom, hmore⟩
              · rintro ⟨hnoLeak, -, hroom, hmore⟩
                rw [hnew.mpr hroom]
                exact ⟨⟨hnoLeak, hroom⟩, hmore⟩
        · obtain ⟨e, s', vcb, hm, he, hst, hkeeps⟩ := herror hserved
          rw [bind_error hm]
          refine ⟨fun _ h => he (by cases h; rfl), iff_of_false ?_ ?_⟩
          · simp only [finalState, hst, hs₁]
            refine hg.leak hf hr hno (hnum fun y' hy' => ?_) ?_
            · rw [hnext] at hy'
              cases hy'
              exact hserved
            · rw [hs₁] at hkeeps
              exact hkeeps
          · rintro ⟨-, hs, hroom, -⟩
            refine hserved ⟨?_, fun hnew => ?_⟩
            · rw [hs₁]
              exact hs
            · rw [hgrowth, hroom hnew]
    · -- nothing was taken: the volume is as before
      have hvcb := hr.failure hno
      have hnum := hr.nothing hno
      have hst : ({ s.st with vcb := r.vcb } : File) = s.st := by rw [hvcb]
      have hsame : NoLeak f₀ s.st ↔ NoLeak f₀ s.st ∧
          ∀ b, bitAt r.vcb.bitmap b = true → bitAt s.st.vcb.bitmap b = true := by
        rw [hvcb]
        exact (and_iff_left fun _ hb => hb).symm
      rw [extendLoop, File.CanEnter, current_bind_apply]
      simp only [hslot, hrun, if_neg hno]
      rw [update_bind_apply, hst]
      by_cases hful : r.err = .dskFulErr
      · by_cases hforce : forceContig = true
        · rw [if_pos ⟨hful, .inl hforce⟩, if_neg (fun h => by rw [hforce] at h; cases h.2.2.1)]
          exact ⟨fun _ h => (by cases h), hsame⟩
        · cases hc : want.wantContig with
          | false =>
            rw [if_pos ⟨hful, .inr ⟨rfl, hnum⟩⟩, if_neg (fun h => Bool.false_ne_true h.2.1)]
            exact ⟨fun _ h => (by cases h), hsame⟩
          | true =>
            rw [if_neg (fun h => h.2.elim hforce (fun h => Bool.false_ne_true h.1.symm)),
              if_pos ⟨hful, rfl⟩]
            by_cases hzero : want.bytesToAdd = 0
            · rw [if_pos hzero, if_neg (fun h => h.2.2.2 hzero)]
              exact ⟨fun _ h => (by cases h), hsame⟩
            · rw [if_neg hzero, if_pos ⟨hful, rfl, Bool.eq_false_of_not_eq_true hforce, hzero⟩, hvcb]
              have hturns := hw.turns
              rw [hc, if_pos rfl] at hturns
              exact ih hx hf hg ⟨hw.most, hw.length, .inl (by dsimp only; omega),
                by simp only [Bool.false_eq_true, if_false]; omega⟩
      · have hread : r.err = .readErr := by
          cases h : r.err with
          | noErr => exact absurd h hno
          | dskFulErr => exact absurd h hful
          | readErr => rfl
        rw [if_neg (fun h => hful h.1), if_neg (fun h => hful h.1), if_pos hread,
          if_neg (fun h => hful h.1)]
        exact ⟨fun _ h => (by cases h), hsame⟩

/-! ## The search -/

section search
variable {f : File} {r : ExtentRecord} {used : ℕ}

theorem ExtentRecord.Packed.count_eq (h : ExtentRecord.Packed f r used) :
    ExtentRecord.used r f.numExtentsPerRecord = used := by
  have hroom := h.room
  have hiff : ∀ k < f.numExtentsPerRecord, ((r k).blockCount ≠ 0 ↔ k < used) := by
    intro k _
    constructor
    · intro hk
      by_contra hge
      exact hk (h.empty k (by omega))
    · intro hk
      exact (h.full k hk).ne'
  unfold ExtentRecord.used
  rw [count_congr hiff]
  have hcount : ∀ n, Nat.count (fun k => k < used) n = min n used := by
    intro n
    induction n with
    | zero => simp
    | succ n ih =>
      rw [Nat.count_succ, ih]
      split_ifs <;> omega
  rw [hcount]
  omega

theorem ExtentRecord.Packed.sum_eq (h : ExtentRecord.Packed f r used) :
    ∑ i ∈ Finset.Ico 0 used, (r i).blockCount = ExtentRecord.blocks r := by
  have hle : used ≤ 8 := h.room.trans f.numExtents_le
  unfold ExtentRecord.blocks
  rw [Finset.range_eq_Ico, ← Finset.sum_Ico_consecutive _ (Nat.zero_le used) hle]
  have hrest : ∑ i ∈ Finset.Ico used 8, (r i).blockCount = 0 := by
    apply Finset.sum_eq_zero
    intro i hi
    exact h.empty i (Finset.mem_Ico.mp hi).1
  omega

theorem ExtentRecord.Packed.blocks_pos (h : ExtentRecord.Packed f r used) (hpos : 0 < used) :
    0 < ExtentRecord.blocks r := by
  rw [← h.sum_eq, Finset.sum_eq_sum_Ico_succ_bot hpos]
  have := h.full 0 hpos
  omega

theorem ExtentRecord.Packed.searchExtents (h : ExtentRecord.Packed f r used) {block : ℕ} :
    ∀ (n j e : ℕ), j + n = f.numExtentsPerRecord → j ≤ used → e ≤ block →
    e + ∑ i ∈ Finset.Ico j used, (r i).blockCount < 2 ^ 32 →
    (block < e + ∑ i ∈ Finset.Ico j used, (r i).blockCount →
      (FileExtents.searchExtents block r n j e).found = true) ∧
    (e + ∑ i ∈ Finset.Ico j used, (r i).blockCount ≤ block →
      FileExtents.searchExtents block r n j e =
        ⟨false, used, e + ∑ i ∈ Finset.Ico j used, (r i).blockCount⟩) := by
  intro n
  induction n with
  | zero =>
    intro j e hjn hj he hsum
    have hroom := h.room
    obtain rfl : j = used := by omega
    rw [Finset.Ico_self, Finset.sum_empty, Nat.add_zero]
    exact ⟨fun hlt => absurd hlt (by omega), fun _ => rfl⟩
  | succ n ih =>
    intro j e hjn hj he hsum
    rcases Nat.eq_or_lt_of_le hj with rfl | hlt
    · rw [Finset.Ico_self, Finset.sum_empty, Nat.add_zero]
      refine ⟨fun hlt => absurd hlt (by omega), fun _ => ?_⟩
      rw [FileExtents.searchExtents, if_pos (h.empty j (le_refl _))]
    · rw [Finset.sum_eq_sum_Ico_succ_bot hlt] at hsum ⊢
      have hpos := h.full j hlt
      rw [FileExtents.searchExtents, if_neg hpos.ne', u32_eq (by omega)]
      by_cases hhere : block < e + (r j).blockCount
      · rw [if_pos hhere]
        exact ⟨fun _ => rfl, fun hge => absurd hge (by omega)⟩
      · rw [if_neg hhere, ← Nat.add_assoc]
        exact ih (j + 1) (e + (r j).blockCount) (by omega) hlt (by omega) (by omega)

theorem ExtentRecord.Packed.search (h : ExtentRecord.Packed f r used) {block start : ℕ}
    (hstart : start ≤ block) (hsum : start + ExtentRecord.blocks r < 2 ^ 32) :
    (block < start + ExtentRecord.blocks r →
      (searchExtentRecord f.numExtentsPerRecord block r start).found = true) ∧
    (start + ExtentRecord.blocks r ≤ block →
      searchExtentRecord f.numExtentsPerRecord block r start =
        ⟨false, used - 1, start + ExtentRecord.blocks r, decide (used < f.numExtentsPerRecord)⟩) := by
  obtain ⟨hfound, hnot⟩ := @ExtentRecord.Packed.searchExtents f r used h block f.numExtentsPerRecord 0
    start (by omega) (Nat.zero_le _) hstart (by rw [h.sum_eq]; exact hsum)
  rw [h.sum_eq] at hfound hnot
  constructor
  · intro hlt
    simp only [searchExtentRecord, hfound hlt, if_true]
  · intro hge
    simp only [searchExtentRecord, hnot hge, Bool.false_eq_true, if_false]

theorem Chained.bounds {ps : List (ℕ × ExtentRecord)} : ∀ {n : ℕ}, Chained f n ps →
    ∀ p ∈ ps, n ≤ p.1 ∧ p.1 < n + (ps.map (fun p => ExtentRecord.blocks p.2)).sum := by
  induction ps with
  | nil =>
    intro n _ p hp
    cases hp
  | cons q ps ih =>
    rintro n ⟨hq, ⟨used, hpos, hpacked⟩, hrest⟩ p hp
    have hblocks := hpacked.blocks_pos hpos
    rw [map_cons, sum_cons]
    rcases mem_cons.mp hp with rfl | hp
    · omega
    · have := ih hrest p hp
      omega

theorem Chained.last {front : List (ℕ × ExtentRecord)} {p : ℕ × ExtentRecord} : ∀ {n : ℕ},
    Chained f n (front ++ [p]) →
    p.1 = n + (front.map (fun q => ExtentRecord.blocks q.2)).sum ∧
    (∃ used, 0 < used ∧ ExtentRecord.Packed f p.2 used) ∧ ∀ q ∈ front, q.1 < p.1 := by
  induction front with
  | nil =>
    rintro n ⟨hp, hpacked, -⟩
    exact ⟨hp, hpacked, fun q hq => (by cases hq)⟩
  | cons q front ih =>
    rintro n ⟨hq, ⟨used, hpos, hpacked⟩, hrest⟩
    obtain ⟨hp, hlast, hlt⟩ := ih hrest
    have hblocks := hpacked.blocks_pos hpos
    refine ⟨?_, hlast, ?_⟩
    · rw [map_cons, sum_cons]
      omega
    · intro q' hq'
      rcases mem_cons.mp hq' with rfl | hq'
      · omega
      · exact hlt q' hq'

theorem takes_findExtentRecord {s : Io File} {block : ℕ} (hreach : s.st.Reaches block)
    (hlast : ∀ front p, s.st.overflow = front ++ [p] → ∀ q ∈ front, q.1 < p.1) :
    Takes Eq (findExtentRecord block) s
      (if s.st.keyBlock block ∈ s.st.overflow.map Prod.fst then 1 else 2)
      (fun r _ => r = s.st.overflow.getLast?) := by
  unfold findExtentRecord
  by_cases hmem : s.st.keyBlock block ∈ s.st.overflow.map Prod.fst
  · rw [if_pos hmem]
    obtain ⟨q₀, hq₀, hkey₀⟩ := mem_map.mp hmem
    have hsome : (s.st.overflow.find? (fun p => p.1 = s.st.keyBlock block)).isSome := by
      rw [List.find?_isSome]
      exact ⟨q₀, hq₀, decide_eq_true hkey₀⟩
    obtain ⟨q, hq⟩ := Option.isSome_iff_exists.mp hsome
    have hqmem := mem_of_find?_eq_some hq
    have hqkey : q.1 = s.st.keyBlock block := of_decide_eq_true (List.find?_some hq :)
    -- no record is behind the one that was found
    have hlq : s.st.overflow.getLast? = some q := by
      rcases eq_nil_or_concat s.st.overflow with h | ⟨front, p, h⟩
      · rw [h] at hqmem
        cases hqmem
      · rw [concat_eq_append] at h
        have hle := hreach p (by rw [h]; simp)
        rw [h] at hqmem
        rcases mem_append.mp hqmem with hfront | hp
        · have := hlast front p h q hfront
          omega
        · rw [h, mem_singleton.mp hp]
          simp
    change Takes Eq _ _ (1 + 0) _
    apply (Takes.operation (Q := fun _ _ => True) rfl trivial).bind (fun _ _ => Eq.trans)
    rintro _ _ rfl -
    apply Takes.current_bind
    simp only [hq]
    exact Takes.pure rfl hlq.symm
  · rw [if_neg hmem]
    have hnone : s.st.overflow.find? (fun p => p.1 = s.st.keyBlock block) = none := by
      rw [List.find?_eq_none]
      intro p hp hk
      exact hmem (mem_map.mpr ⟨p, hp, of_decide_eq_true hk⟩)
    have hall : s.st.overflow.filter (fun p => p.1 < s.st.keyBlock block) = s.st.overflow := by
      rw [filter_eq_self]
      intro p hp
      have hne : p.1 ≠ s.st.keyBlock block := fun h => hmem (mem_map.mpr ⟨p, hp, h⟩)
      exact decide_eq_true (lt_of_le_of_ne (hreach p hp) hne)
    change Takes Eq _ _ (1 + 1) _
    apply (Takes.operation (Q := fun _ _ => True) rfl trivial).bind (fun _ _ => Eq.trans)
    rintro _ _ rfl -
    apply Takes.current_bind
    simp only [hnone, hall]
    change Takes Eq _ _ (1 + 0) _
    apply (Takes.operation (Q := fun _ _ => True) rfl trivial).bind (fun _ _ => Eq.trans)
    rintro _ _ rfl -
    exact Takes.pure rfl rfl

theorem File.Ok.last_at (hf : f.Ok) : f.last.At f := by
  have hnum : 0 < f.numExtentsPerRecord := by
    unfold File.numExtentsPerRecord
    split_ifs <;> omega
  have hplace : ∀ {key : Option ℕ} {r : ExtentRecord} {used : ℕ}, ExtentRecord.Packed f r used →
      (key = none → r = f.fcbExtents ∧ f.overflow = []) →
      (∀ k, key = some k → ∃ front, f.overflow = front ++ [(k, r)] ∧ ∀ p ∈ front, p.1 < k) →
      Found.At ⟨key, r, ExtentRecord.used r f.numExtentsPerRecord - 1⟩ f := by
    intro key r used hr hfcb htree
    have hroom := hr.room
    refine ⟨?_, ?_, hr.inside, hr.small, hfcb, htree, fun p hp => (hf.chain.bounds p hp).2⟩
    · dsimp only
      rw [hr.count_eq]
      omega
    · intro i hi
      dsimp only at hi ⊢
      rw [hr.count_eq] at hi
      exact hr.empty i (by omega)
  unfold File.last
  rcases eq_nil_or_concat f.overflow with h | ⟨front, p, h⟩
  · obtain ⟨used, hpacked, -⟩ := hf.fcb
    simp only [h, List.getLast?_nil]
    exact hplace hpacked (fun _ => ⟨rfl, h⟩) (fun k hk => (by cases hk))
  · rw [concat_eq_append] at h
    have hchain := hf.chain
    rw [h] at hchain
    obtain ⟨-, ⟨used, -, hpacked⟩, hlt⟩ := hchain.last
    simp only [h, List.getLast?_append, List.getLast?_singleton, Option.some_or]
    apply hplace hpacked (fun hk => (by cases hk))
    intro k hk
    obtain rfl := Option.some.inj hk
    exact ⟨front, h, hlt⟩

theorem takes_searchExtentFile {s : Io File} (hf : s.st.Ok) {pos : ℕ}
    (hreach : s.st.Reaches (pos / s.st.vcb.blockSize)) :
    Takes Eq (searchExtentFile pos) s (s.st.searchCalls (pos / s.st.vcb.blockSize))
      (fun r _ => (pos / s.st.vcb.blockSize < s.st.blocks → r.found = true) ∧
        (s.st.blocks ≤ pos / s.st.vcb.blockSize → r = ⟨false, s.st.last, s.st.blocks⟩)) := by
  obtain ⟨used, hpacked, hfull⟩ := hf.fcb
  have hroom := hf.room
  have htotal := hf.vcb.total
  generalize hblock : pos / s.st.vcb.blockSize = block at hreach ⊢
  have hle : ExtentRecord.blocks s.st.fcbExtents ≤ s.st.blocks := Nat.le_add_right _ _
  obtain ⟨hin, hout⟩ := @ExtentRecord.Packed.search _ _ _ hpacked block 0 (Nat.zero_le _) (by omega)
  rw [Nat.zero_add] at hin hout
  unfold searchExtentFile File.searchCalls
  rw [hpacked.count_eq]
  apply Takes.current_bind
  simp only [hblock]
  by_cases hhere : block < ExtentRecord.blocks s.st.fcbExtents
  · rw [if_pos (.inl (hin hhere)), if_pos (.inl hhere)]
    exact Takes.pure rfl ⟨fun _ => hin hhere, fun hge => absurd hge (by omega)⟩
  · have hres := hout (by omega)
    by_cases hmore : used < s.st.numExtentsPerRecord
    · -- the record in the FCB is not full
      have hov : s.st.overflow = [] := by
        by_contra hne
        exact hmore.ne (hfull hne)
      rw [if_pos (.inr (by rw [hres]; exact decide_eq_true hmore)), if_pos (.inr hmore)]
      apply Takes.pure rfl
      have hblocks : s.st.blocks = ExtentRecord.blocks s.st.fcbExtents := by
        simp [File.blocks, hov]
      refine ⟨fun hlt => absurd hlt (by omega), fun _ => ?_⟩
      rw [hres, hblocks]
      simp [File.last, hov, hpacked.count_eq]
    · rw [if_neg (by rw [hres]; simp [hmore]), if_neg (fun h => h.elim hhere hmore)]
      have hlast : ∀ front p, s.st.overflow = front ++ [p] → ∀ q ∈ front, q.1 < p.1 := by
        intro front p h
        have hchain := hf.chain
        rw [h] at hchain
        exact hchain.last.2.2
      rw [← Nat.add_zero (if s.st.keyBlock block ∈ s.st.overflow.map Prod.fst then 1 else 2)]
      apply (takes_findExtentRecord hreach hlast).bind (fun _ _ => Eq.trans)
      rintro _ _ rfl rfl
      rcases eq_nil_or_concat s.st.overflow with h | ⟨front, p, h⟩
      · simp only [h, List.getLast?_nil]
        apply Takes.pure rfl
        have hblocks : s.st.blocks = ExtentRecord.blocks s.st.fcbExtents := by
          simp [File.blocks, h]
        refine ⟨fun hlt => absurd hlt (by omega), fun _ => ?_⟩
        rw [hres, hblocks]
        simp [File.last, h, hpacked.count_eq]
      · rw [concat_eq_append] at h
        have hchain := hf.chain
        rw [h] at hchain
        obtain ⟨hkey, ⟨used', -, hpacked'⟩, -⟩ := hchain.last
        have hblocks := File.blocks_append (f := s.st) (k := p.1) (r := p.2) h
        have hpre := hreach p (by rw [h]; simp)
        have hpb : p.1 ≤ block := by
          unfold File.keyBlock at hpre
          split_ifs at hpre
          · exact hpre
          · exact hpre.trans (Nat.mod_le _ _)
        obtain ⟨hin', hout'⟩ := hpacked'.search hpb (by omega)
        simp only [h, List.getLast?_append, List.getLast?_singleton, Option.some_or]
        apply Takes.pure rfl
        constructor
        · intro hlt
          exact hin' (by omega)
        · intro hge
          rw [hout' (by omega)]
          simp only [File.last, h, List.getLast?_append, List.getLast?_singleton, Option.some_or,
            hpacked'.count_eq]
          congr 1
          omega

end search

theorem searchExtentFile_error {pos : ℕ} {s s' : Io File} {e : ExtendErr}
    (h : (searchExtentFile pos).run s = .error e s') : e = .btreeErr := by
  have hfind : ∀ block {p : ExtendErr} {t : Io File},
      (findExtentRecord block).run s = .error p t → p = .btreeErr := by
    intro block p t hrun
    unfold findExtentRecord at hrun
    by_cases h1 : s.env s.ops = true
    · rw [bind_ok ((operation_run _ s).trans (if_pos h1)), current_bind_apply] at hrun
      cases hq : s.st.overflow.find? (fun p => p.1 = s.st.keyBlock block) with
      | some q =>
        simp only [hq] at hrun
        cases hrun
      | none =>
        simp only [hq] at hrun
        by_cases h2 : s.env (s.ops + 1) = true
        · rw [bind_ok ((operation_run _ _).trans (if_pos h2))] at hrun
          cases hrun
        · rw [bind_error ((operation_run _ _).trans (if_neg h2))] at hrun
          cases hrun
          rfl
    · rw [bind_error ((operation_run _ s).trans (if_neg h1))] at hrun
      cases hrun
      rfl
  unfold searchExtentFile at h
  rw [current_bind_apply] at h
  dsimp only at h
  split_ifs at h
  · cases h
  · cases hrun : (findExtentRecord (pos / s.st.vcb.blockSize)).run s with
    | ok q t =>
      rw [bind_ok hrun] at h
      cases q with
      | none => cases h
      | some q => cases h
    | error p t =>
      rw [bind_error hrun] at h
      cases h
      exact hfind _ hrun

theorem File.request_ok {f : File} (hf : f.vcb.Counted) {bytesToAdd : ℕ} {allOrNothing : Bool}
    {want : Want} (hsum : f.fcbPLen + bytesToAdd < 2 ^ 32)
    (hclump : f.fcbClmpSize + 2 * f.vcb.blockSize ≤ 2 ^ 31)
    (h : f.request bytesToAdd allOrNothing = .ok want) :
    want.wantContig = true ∧ want.bytesToAdd ≤ want.maximumBytes ∧
      f.fcbPLen + want.maximumBytes + f.vcb.blockSize ≤ 2 ^ 32 := by
  have hsize := hf.blockSize
  unfold File.request at h
  rw [u32_eq hsum] at h
  by_cases h1 : bytesToAdd ≥ 2 ^ 31
  · rw [if_pos h1] at h
    cases h
  rw [if_neg h1] at h
  by_cases h2 : f.fcbPLen + bytesToAdd ≥ 2 ^ 31
  · rw [if_pos h2] at h
    cases h
  rw [if_neg h2] at h
  dsimp only at h
  obtain ⟨hlow, hhigh⟩ := divideAndRoundUp_bounds bytesToAdd (d := f.vcb.blockSize) (by omega)
  rw [u32_eq (x := divideAndRoundUp bytesToAdd f.vcb.blockSize * f.vcb.blockSize) (by omega)] at h
  generalize hR : divideAndRoundUp bytesToAdd f.vcb.blockSize * f.vcb.blockSize = R at h hlow hhigh
  obtain ⟨hlow', hhigh'⟩ : R ≤ (if f.fcbClmpSize > f.vcb.blockSize then
        u32 (divideAndRoundUp R f.fcbClmpSize * f.fcbClmpSize) else R) ∧
      (if f.fcbClmpSize > f.vcb.blockSize then
        u32 (divideAndRoundUp R f.fcbClmpSize * f.fcbClmpSize) else R) ≤ R + f.fcbClmpSize := by
    split_ifs with hbig
    · obtain ⟨hl, hh⟩ := divideAndRoundUp_bounds R (d := f.fcbClmpSize) (by omega)
      rw [u32_eq (by omega)]
      omega
    · omega
  generalize (if f.fcbClmpSize > f.vcb.blockSize then
    u32 (divideAndRoundUp R f.fcbClmpSize * f.fcbClmpSize) else R) = M at h hlow' hhigh'
  rw [u32_eq (x := f.fcbPLen + R) (by omega)] at h
  split_ifs at h with h3 h4 h5
  · -- one block less
    cases h
    have hle : f.vcb.blockSize ≤ R := by
      rw [← hR]
      apply Nat.le_mul_of_pos_left
      rcases Nat.eq_zero_or_pos (divideAndRoundUp bytesToAdd f.vcb.blockSize) with h0 | h0
      · rw [h0, Nat.zero_mul] at hR
        omega
      · exact h0
    dsimp only
    rw [u32Sub_eq hle (by omega)]
    exact ⟨rfl, by omega, by omega⟩
  · cases h
    exact ⟨rfl, hlow', by dsimp only; omega⟩

theorem File.request_error {f : File} {bytesToAdd : ℕ} {allOrNothing : Bool} {e : ExtendErr}
    (h : f.request bytesToAdd allOrNothing = .error e) : e ≠ .notEnding := by
  unfold File.request at h
  dsimp only at h
  split_ifs at h <;> (cases h; decide)

theorem File.Ok.last_of_empty {f : File} (hf : f.Ok) (h0 : f.blocks = 0) :
    f.last.key = none ∧ f.last.extent.blockCount = 0 := by
  have hov : f.overflow = [] := by
    by_contra hne
    obtain ⟨p, hp⟩ := exists_mem_of_ne_nil _ hne
    have := hf.last_at.keys p hp
    omega
  obtain ⟨used, hpacked, -⟩ := hf.fcb
  have hblocks : ExtentRecord.blocks f.fcbExtents = 0 := Nat.eq_zero_of_add_eq_zero_right h0
  have hused : used = 0 := by
    by_contra hne
    have := hpacked.blocks_pos (Nat.pos_of_ne_zero hne)
    omega
  simp only [File.last, Found.extent, hov, List.getLast?_nil, hpacked.count_eq, hused]
  exact ⟨trivial, hpacked.empty 0 (by omega)⟩

theorem File.Ok.searched_lt {f : File} (hf : f.Ok) {want : Want}
    (hlen : f.fcbPLen + want.bytesToAdd < 2 ^ 32) :
    f.searched want < f.blocks ↔ want.bytesToAdd = 0 ∧ 0 < f.blocks := by
  have hsize := hf.vcb.blockSize
  have hpos : 0 < f.vcb.blockSize := by omega
  have hplen := hf.length
  unfold File.searched
  rw [u32_eq hlen, Nat.div_lt_iff_lt_mul hpos, Nat.mul_comm, ← hplen]
  rcases Nat.eq_zero_or_pos (f.fcbPLen + want.bytesToAdd) with h0 | h0
  · have hblocks : f.blocks = 0 := by
      have : f.vcb.blockSize * f.blocks = 0 := by omega
      rcases Nat.mul_eq_zero.mp this with h | h
      · omega
      · exact h
    rw [h0]
    simp only [show u32Sub 0 1 = 2 ^ 32 - 1 by decide]
    omega
  · rw [u32Sub_eq h0 hlen]
    have hiff : 0 < f.blocks ↔ 0 < f.fcbPLen := by
      rw [hplen]
      constructor
      · intro h
        exact Nat.mul_pos hpos h
      · intro h
        exact Nat.pos_of_mul_pos_left h
    omega

theorem extendBy_spec {s : Io File} (hf : s.st.Ok) (hgrow : s.st.TreeGrows) {want : Want} {forceContig : Bool}
    (hcontig : want.wantContig = true) (hmost : want.bytesToAdd ≤ want.maximumBytes)
    (hlen : s.st.fcbPLen + want.maximumBytes + s.st.vcb.blockSize ≤ 2 ^ 32)
    (hreach : s.st.Reaches (s.st.searched want)) :
    Ends ((extendBy want forceContig).run s) ∧
    (NoLeak s.st (finalState ((extendBy want forceContig).run s)) ↔
      (s.Succeeds (s.st.searchCalls (s.st.searched want)) → s.st.blocks ≤ s.st.searched want →
        s.st.CanEnter s.env forceContig (2 ^ 32 + 2) (s.ops + s.st.searchCalls (s.st.searched want))
          s.st.overflow.length s.st.vcb s.st.last.slot want)) := by
  have hsize := hf.vcb.blockSize
  have hnoLeak := hf.toSound.noLeak
  have hsearch := @takes_searchExtentFile s hf (u32Sub (u32 (s.st.fcbPLen + want.bytesToAdd)) 1) hreach
  change Takes Eq _ s (s.st.searchCalls (s.st.searched want)) _ at hsearch
  unfold extendBy
  rw [current_bind_apply]
  by_cases hs : s.Succeeds (s.st.searchCalls (s.st.searched want))
  · obtain ⟨r, t, hrun, rfl, hfound, hnot⟩ := hsearch.ok hs
    change s.st.searched want < s.st.blocks → r.found = true at hfound
    change s.st.blocks ≤ s.st.searched want → _ at hnot
    rw [bind_ok hrun]
    by_cases hin : s.st.searched want < s.st.blocks
    · -- enough blocks are allocated already
      have hzero := ((hf.searched_lt (by omega)).mp hin).1
      rw [if_pos (hfound hin), hzero, Nat.add_zero, u32_eq (by omega)]
      exact ⟨fun _ h => (by cases h), iff_of_true hnoLeak (fun _ hge => absurd hge (by omega))⟩
    · have hout : s.st.blocks ≤ s.st.searched want := by omega
      obtain rfl := hnot hout
      have hpeof : u32 (s.st.blocks * s.st.vcb.blockSize) = s.st.fcbPLen := by
        rw [Nat.mul_comm, ← hf.length, u32_eq (by omega)]
      have hsub : u32Sub s.st.fcbPLen s.st.fcbPLen = 0 := by
        rw [u32Sub_eq (le_refl _) (by omega), Nat.sub_self]
      have hzero : u32Sub want.bytesToAdd 0 = want.bytesToAdd := u32Sub_eq (Nat.zero_le _) (by omega)
      rw [if_neg (by simp)]
      simp only [hpeof, hsub, hzero]
      rw [update_bind_apply]
      have hasks : 0 < want.bytesToAdd ∨ want.wantContig = true ∧ s.st.last.key = none ∧
          s.st.last.extent.blockCount = 0 := by
        rcases Nat.eq_zero_or_pos want.bytesToAdd with h0 | h0
        · refine .inr ⟨hcontig, hf.last_of_empty ?_⟩
          by_contra hne
          exact hin ((hf.searched_lt (by omega)).mpr ⟨h0, Nat.pos_of_ne_zero hne⟩)
        · exact .inl h0
      have hturns : s.st.vcb.freeBlocks + (if want.wantContig then 1 else 0) < 2 ^ 32 + 2 := by
        have hroom := hf.room
        have htotal := hf.vcb.total
        rw [if_pos hcontig]
        omega
      obtain ⟨hends, hiff⟩ := @extendLoop_spec s.st hgrow forceContig (2 ^ 32 + 2)
        ⟨s.env, s.ops + s.st.searchCalls (s.st.searched want), s.st⟩ s.st.last want hf.last_at
        hf.toSound hf.toSound.kept ⟨hmost, hlen, hasks, hturns⟩
      exact ⟨hends, hiff.trans ⟨fun h _ _ => h.2, fun h => ⟨hnoLeak, h hs hout⟩⟩⟩
  · obtain ⟨e, s', hrun, hst⟩ := hsearch.error hs
    rw [bind_error hrun]
    refine ⟨fun _ h => ?_, iff_of_true ?_ (fun h => absurd h hs)⟩
    · cases h
      cases searchExtentFile_error hrun
    · simp only [finalState, ← hst]
      exact hnoLeak

/-- `ExtendFileC` ends. The blocks that it marks are the blocks that it enters in the extent
records, and the length is right, exactly when every record it has to write can be written, without
a block for the extents file, and no failing call of `BlockAllocate` sets a bit. -/
theorem extendFileC_noLeak_iff {s : Io File} (hf : s.st.Ok) (hgrow : s.st.TreeGrows) {bytesToAdd : ℕ}
    {allOrNothing forceContig : Bool} (hsum : s.st.fcbPLen + bytesToAdd < 2 ^ 32)
    (hclump : s.st.fcbClmpSize + 2 * s.st.vcb.blockSize ≤ 2 ^ 31)
    (hreach : ∀ want, s.st.request bytesToAdd allOrNothing = .ok want →
      s.st.Reaches (s.st.searched want)) :
    Ends ((extendFileC bytesToAdd allOrNothing forceContig).run s) ∧
    (NoLeak s.st (finalState ((extendFileC bytesToAdd allOrNothing forceContig).run s)) ↔
      Enters s bytesToAdd allOrNothing forceContig) := by
  unfold extendFileC Enters
  rw [current_bind_apply]
  cases hreq : s.st.request bytesToAdd allOrNothing with
  | error e =>
    refine ⟨fun _ h => ?_, iff_of_true hf.toSound.noLeak (fun _ h => (by cases h))⟩
    cases h
    exact absurd rfl (File.request_error hreq)
  | ok want =>
    obtain ⟨hcontig, hmost, hlen⟩ := File.request_ok hf.vcb hsum hclump hreq
    obtain ⟨hends, hiff⟩ := @extendBy_spec s hf hgrow want forceContig hcontig hmost hlen (hreach want hreq)
    refine ⟨hends, hiff.trans ?_⟩
    constructor
    · intro h want' hw
      cases hw
      exact h
    · intro h
      exact h want rfl

/-- An HFS file of three blocks, with a record in the FCB that is full. -/
def threeExtents : File where
  vcb := ⟨512, 512, 32, fun _ => true, fun _ => 0xfe000000, 25, 25, 0⟩
  isHFSPlus := false
  isExtentsFile := false
  fcbClmpSize := 512
  fcbPLen := 1536
  fcbExtents := fun i => if i < 3 then ⟨2 * i + 1, 1⟩ else ⟨0, 0⟩
  overflow := []
  growth := fun _ vcb => (true, vcb)

theorem threeExtents_grows : threeExtents.TreeGrows :=
  ⟨fun _ _ _ hb => hb, fun _ _ hcounted hrover _ => ⟨hcounted, hrover, rfl, rfl, .inl rfl⟩⟩

theorem threeExtents_ok : threeExtents.Ok := by
  have hextent : ∀ i, threeExtents.fcbExtents i = if i < 3 then ⟨2 * i + 1, 1⟩ else ⟨0, 0⟩ :=
    fun _ => rfl
  refine ⟨⟨⟨by decide, by decide, by decide⟩, by decide, fun _ => by decide, by decide, ?_,
    by decide⟩, ⟨3, ⟨by decide, ?_, ?_, ?_, ?_⟩, fun h => absurd rfl h⟩, trivial⟩
  · rintro b (⟨i, hi, hb⟩ | ⟨p, hp, -⟩)
    · rw [Extent.Covers, hextent] at hb
      split_ifs at hb with h3
      · obtain rfl : b = 2 * i + 1 := by
          dsimp only at hb
          omega
        have hset : ∀ j < 3, bitAt threeExtents.vcb.bitmap (2 * j + 1) = true := by decide
        exact hset i h3
      · dsimp only at hb
        omega
    · cases hp
  · intro i hi
    rw [hextent, if_pos hi]
    exact Nat.one_pos
  · intro i hi
    rw [hextent, if_neg (by omega)]
  · intro i
    rw [hextent]
    split_ifs with h3
    · change 2 * i + 1 + 1 ≤ 32
      omega
    · decide
  · intro _ i hi
    rw [hextent, if_neg (by omega)]

theorem threeExtents_request {want : Want} (h : threeExtents.request 512 false = .ok want) :
    want = ⟨512, 512, true⟩ := by
  have : threeExtents.request 512 false = .ok ⟨512, 512, true⟩ := by
    simp [File.request, threeExtents, u32, divideAndRoundUp]
  rw [this] at h
  cases h
  rfl

/-- One block more for it, with an extents file that takes the new record. -/
theorem extendFileC_noLeak_iff_threeExtents : threeExtents.Ok ∧
    NoLeak threeExtents
      (finalState ((extendFileC 512 false false).run ⟨fun _ => true, 0, threeExtents⟩)) := by
  refine ⟨threeExtents_ok, ((@extendFileC_noLeak_iff ⟨fun _ => true, 0, threeExtents⟩ threeExtents_ok
    threeExtents_grows 512 false false (by decide) (by decide) (fun _ _ p hp => by cases hp)).2).mpr ?_⟩
  intro want hw _ _
  obtain rfl := threeExtents_request hw
  rw [show (2 : ℕ) ^ 32 + 2 = (2 ^ 32 + 1) + 1 from rfl, File.CanEnter]
  exact ⟨fun _ _ => rfl, fun _ => rfl, .inr (.inl rfl)⟩

set_option maxRecDepth 4000 in
/-- The extents file fails with the third call, which inserts the new record: block 7 is marked
and not listed. -/
theorem failed_insert_leaks_block : threeExtents.Ok ∧
    ¬ NoLeak threeExtents (finalState ((extendFileC 512 false false).run
      ⟨fun i => decide (i < 2), 0, threeExtents⟩)) := by
  refine ⟨threeExtents_ok, fun h => ?_⟩
  obtain ⟨hnot, hlist⟩ := (h.1 7).mp ⟨by decide, by rfl⟩
  exact hnot hlist

end Darwin.Hfs.FileExtents
