import Darwin.Hfs.Lockf
import Darwin.Lib.Run
import Mathlib.Tactic.Linarith
import Mathlib.Data.List.Pairwise

/-! # Byte-range semantics of the HFS lock list

The abstract state is the lock type each owner holds at each byte. Every list operation
of `hfs_setlock` and `hfs_clearlock` refines the POSIX update of that map, and keeps one
owner's locks sorted and disjoint.
-/
namespace Darwin.Hfs.Lockf
open Darwin.Lib List

/-- The byte `x` lies in the range of the lock; an end of -1 is the end of the file. -/
def InRange (start stop x : ℤ) : Prop := start ≤ x ∧ (stop = -1 ∨ x ≤ stop)

instance (start stop x : ℤ) : Decidable (InRange start stop x) :=
  inferInstanceAs (Decidable (_ ∧ _))

def HfsLockf.Covers (l : HfsLockf) (x : ℤ) : Prop := InRange l.lfStart l.lfEnd x

instance (l : HfsLockf) (x : ℤ) : Decidable (l.Covers x) :=
  inferInstanceAs (Decidable (InRange _ _ _))

/-- The lock type an owner holds at a byte. -/
abbrev Held := ℕ → ℤ → Option LockType

def held (L : List HfsLockf) : Held := fun o x =>
  (L.find? (fun l => l.lfId = o ∧ l.Covers x)).map HfsLockf.lfType

/-- The POSIX meaning of a completed operation. -/
def applyOp (h : Held) : Op → Held
  | .set id start stop type => fun o x => if o = id ∧ InRange start stop x then some type else h o x
  | .clear id start stop => fun o x => if o = id ∧ InRange start stop x then none else h o x

/-- A range with a first byte, and a last byte before the largest `off_t`. -/
def Ranged (start stop : ℤ) : Prop :=
  0 ≤ start ∧ start < 2 ^ 63 ∧ (stop = -1 ∨ (start ≤ stop ∧ stop < 2 ^ 63 - 1))

instance (start stop : ℤ) : Decidable (Ranged start stop) := inferInstanceAs (Decidable (_ ∧ _))

def HfsLockf.Ranged (l : HfsLockf) : Prop := Lockf.Ranged l.lfStart l.lfEnd

/-- `a` ends before `b` starts. -/
def Before (a b : HfsLockf) : Prop := a.lfEnd ≠ -1 ∧ a.lfEnd < b.lfStart

/-- The locks of one owner stand in order and are disjoint. -/
def OwnSorted (L : List HfsLockf) : Prop := L.Pairwise (fun a b => a.lfId = b.lfId → Before a b)

def Holds (L : List HfsLockf) (o : ℕ) (x : ℤ) (t : LockType) : Prop :=
  ∃ l ∈ L, l.lfId = o ∧ l.Covers x ∧ l.lfType = t

theorem Before.not_covers {a b : HfsLockf} (h : Before a b) {x : ℤ} (ha : a.Covers x) :
    ¬ b.Covers x := by
  simp only [Before, HfsLockf.Covers, InRange] at *
  omega

theorem OwnSorted.eq_of_covers {L : List HfsLockf} (h : OwnSorted L) {a b : HfsLockf}
    (ha : a ∈ L) (hb : b ∈ L) (hid : a.lfId = b.lfId) {x : ℤ} (hax : a.Covers x)
    (hbx : b.Covers x) : a = b := by
  induction L with
  | nil => simp at ha
  | cons c L ih =>
    obtain ⟨hc, hL⟩ := pairwise_cons.mp h
    rcases mem_cons.mp ha with hac | ha'
    · rcases mem_cons.mp hb with hbc | hb'
      · exact hac.trans hbc.symm
      · exact absurd hbx ((hac ▸ hc b hb' (hac ▸ hid)).not_covers hax)
    · rcases mem_cons.mp hb with hbc | hb'
      · exact absurd hax ((hbc ▸ hc a ha' (hbc ▸ hid.symm)).not_covers hbx)
      · exact ih hL ha' hb'

theorem held_eq_some_iff {L : List HfsLockf} (h : OwnSorted L) (o : ℕ) (x : ℤ) (t : LockType) :
    held L o x = some t ↔ Holds L o x t := by
  constructor
  · intro ht
    obtain ⟨l, hl, rfl⟩ := Option.map_eq_some_iff.mp ht
    have hp := List.find?_some hl
    simp only [decide_eq_true_eq] at hp
    exact ⟨l, mem_of_find?_eq_some hl, hp.1, hp.2, rfl⟩
  · rintro ⟨l, hl, rfl, hx, rfl⟩
    have hs : (L.find? (fun k => decide (k.lfId = l.lfId ∧ k.Covers x))).isSome = true :=
      List.find?_isSome.mpr ⟨l, hl, by simp [hx]⟩
    obtain ⟨k, hk⟩ := Option.isSome_iff_exists.mp hs
    have hp := List.find?_some hk
    simp only [decide_eq_true_eq] at hp
    have he := h.eq_of_covers (mem_of_find?_eq_some hk) hl hp.1 hp.2 hx
    simp only [held, hk, Option.map_some, he]

theorem held_congr {L R : List HfsLockf} (hL : OwnSorted L) (hR : OwnSorted R) {o : ℕ} {x : ℤ}
    (h : ∀ t, Holds L o x t ↔ Holds R o x t) : held L o x = held R o x := by
  apply Option.ext
  intro t
  rw [held_eq_some_iff hL, held_eq_some_iff hR, h]

/-! ## The overlap search -/

theorem overlapCase_isSome {lf lock : HfsLockf} (hf : lf.Ranged) (hl : lock.Ranged) :
    ∃ c, overlapCase lf lock = some c := by
  simp only [HfsLockf.Ranged, Ranged] at hf hl
  unfold overlapCase
  split_ifs
  all_goals first | exact ⟨_, rfl⟩ | omega

/-- What each answer says about the two ranges. -/
def CaseFact (lf lock : HfsLockf) : OvCase → Prop
  | .noOverlap => Before lf lock ∨ Before lock lf
  | .equal => lf.lfStart = lock.lfStart ∧ lf.lfEnd = lock.lfEnd
  | .containsLock => lf.lfStart ≤ lock.lfStart ∧ lock.lfEnd ≠ -1 ∧
      (lock.lfEnd ≤ lf.lfEnd ∨ lf.lfEnd = -1) ∧
      ¬ (lf.lfStart = lock.lfStart ∧ lf.lfEnd = lock.lfEnd)
  | .insideLock => lock.lfStart ≤ lf.lfStart ∧
      (lock.lfEnd = -1 ∨ (lf.lfEnd ≠ -1 ∧ lf.lfEnd ≤ lock.lfEnd))
  | .startsBefore => lf.lfStart < lock.lfStart ∧ (lock.lfStart ≤ lf.lfEnd ∨ lf.lfEnd = -1) ∧
      (lock.lfEnd = -1 ∨ (lf.lfEnd ≠ -1 ∧ lf.lfEnd < lock.lfEnd))
  | .endsAfter => lock.lfStart < lf.lfStart ∧ lock.lfEnd ≠ -1 ∧ lf.lfStart ≤ lock.lfEnd ∧
      (lock.lfEnd < lf.lfEnd ∨ lf.lfEnd = -1)

theorem overlapCase_fact {lf lock : HfsLockf} {c : OvCase} (h : overlapCase lf lock = some c) :
    CaseFact lf lock c := by
  unfold overlapCase at h
  split_ifs at h
  all_goals
    obtain rfl := Option.some.inj h
    simp only [CaseFact, Before]
    omega

/-- The list the overlap search stops at: its head is a lock of ours in the position the
answer tells, or, with no overlap, the first of our locks that lies behind the request. -/
def Found (lock : HfsLockf) (c : OvCase) (rest : List HfsLockf) : Prop :=
  (c = .noOverlap ∧ ∀ ov ∈ rest.head?, ov.lfId = lock.lfId ∧ Before lock ov) ∨
  (c ≠ .noOverlap ∧ ∃ ov tl, rest = ov :: tl ∧ ov.lfId = lock.lfId ∧ CaseFact ov lock c)

theorem hfsFindoverlap_spec {lock : HfsLockf} (hl : lock.Ranged) :
    ∀ L : List HfsLockf, (∀ l ∈ L, l.Ranged) →
      ∃ c skipped rest, hfsFindoverlap lock .self L = some (c, skipped, rest) ∧
        L = skipped ++ rest ∧ (∀ a ∈ skipped, a.lfId = lock.lfId → Before a lock) ∧
        Found lock c rest
  | [], _ => ⟨.noOverlap, [], [], rfl, rfl, by simp, by simp [Found]⟩
  | lf :: L, hL => by
    obtain ⟨c, skipped, rest, he, hs, hb, hf⟩ :=
      hfsFindoverlap_spec hl L (fun l h => hL l (mem_cons_of_mem _ h))
    by_cases hid : lf.lfId = lock.lfId
    · obtain ⟨c', hc'⟩ := overlapCase_isSome (hL lf mem_cons_self) hl
      have hfact := overlapCase_fact hc'
      cases c' with
      | noOverlap =>
        by_cases hstop : lock.lfEnd ≠ -1 ∧ lf.lfStart > lock.lfEnd
        · refine ⟨.noOverlap, [], lf :: L, ?_, rfl, by simp, ?_⟩
          · simp [hfsFindoverlap, hid, hc', hstop.1, hstop.2]
          · refine Or.inl ⟨rfl, ?_⟩
            intro ov hov
            simp only [List.head?_cons, Option.mem_def, Option.some.injEq] at hov
            subst hov
            exact ⟨hid, hstop⟩
        · refine ⟨c, lf :: skipped, rest, ?_, by simp [hs], ?_, hf⟩
          · simp only [hfsFindoverlap, hid, hc', he, hstop]
            simp
          · intro a ha haid
            rcases mem_cons.mp ha with rfl | ha
            · simp only [CaseFact, Before] at hfact hstop ⊢
              omega
            · exact hb a ha haid
      | equal | containsLock | insideLock | startsBefore | endsAfter =>
        refine ⟨_, [], lf :: L, ?_, rfl, by simp, Or.inr ⟨?_, lf, L, rfl, hid, hfact⟩⟩
        · simp [hfsFindoverlap, hid, hc']
        · simp
    · refine ⟨c, lf :: skipped, rest, ?_, by simp [hs], ?_, hf⟩
      · simp [hfsFindoverlap, hid, he]
      · intro a ha haid
        rcases mem_cons.mp ha with rfl | ha
        · exact absurd haid hid
        · exact hb a ha haid

/-! ## List edits -/

/-- `res` is `L` with the owner's type on the range of `lock` replaced by `v`. -/
structure Updated (L res : List HfsLockf) (lock : HfsLockf) (v : Option LockType) : Prop where
  ranged : ∀ l ∈ res, l.Ranged
  sorted : OwnSorted res
  holds : ∀ o x t, Holds res o x t ↔
    if o = lock.lfId ∧ lock.Covers x then v = some t else Holds L o x t

theorem offT_eq {x : ℤ} (h : -2 ^ 63 ≤ x) (h' : x < 2 ^ 63) : offT x = x := by
  unfold offT
  rw [Int.bmod_eq_emod]
  split <;> omega

theorem ownSorted_append {A B : List HfsLockf} : OwnSorted (A ++ B) ↔
    OwnSorted A ∧ OwnSorted B ∧ ∀ a ∈ A, ∀ b ∈ B, a.lfId = b.lfId → Before a b :=
  pairwise_append

theorem ownSorted_cons {a : HfsLockf} {B : List HfsLockf} : OwnSorted (a :: B) ↔
    (∀ b ∈ B, a.lfId = b.lfId → Before a b) ∧ OwnSorted B :=
  pairwise_cons

theorem Before.trans {a b c : HfsLockf} (hb : b.Ranged) (h : Before a b) (h' : Before b c) :
    Before a c := by
  simp only [Before, HfsLockf.Ranged, Ranged] at *
  omega

theorem before_of_head {lock : HfsLockf} {rest : List HfsLockf} (hr : ∀ l ∈ rest, l.Ranged)
    (hs : OwnSorted rest)
    (h : ∀ ov ∈ rest.head?, ov.lfId = lock.lfId ∧ Before lock ov) :
    ∀ b ∈ rest, b.lfId = lock.lfId → Before lock b := by
  intro b hb hid
  cases rest with
  | nil => simp at hb
  | cons ov tl =>
    obtain ⟨hov, hlt⟩ := h ov rfl
    rcases mem_cons.mp hb with rfl | hb
    · exact hlt
    · exact hlt.trans (hr ov mem_cons_self)
        ((ownSorted_cons.mp hs).1 b hb (hov.trans hid.symm))

theorem holds_append {A B : List HfsLockf} {o : ℕ} {x : ℤ} {t : LockType} :
    Holds (A ++ B) o x t ↔ Holds A o x t ∨ Holds B o x t := by
  simp only [Holds, mem_append]
  grind

theorem holds_cons {a : HfsLockf} {B : List HfsLockf} {o : ℕ} {x : ℤ} {t : LockType} :
    Holds (a :: B) o x t ↔ (a.lfId = o ∧ a.Covers x ∧ a.lfType = t) ∨ Holds B o x t := by
  simp only [Holds, mem_cons]
  grind

@[simp] theorem holds_nil {o : ℕ} {x : ℤ} {t : LockType} : ¬ Holds [] o x t := by simp [Holds]

theorem not_holds_of_before {lock : HfsLockf} {A : List HfsLockf}
    (h : ∀ a ∈ A, a.lfId = lock.lfId → Before a lock ∨ Before lock a) {x : ℤ} {t : LockType}
    (hx : lock.Covers x) : ¬ Holds A lock.lfId x t := by
  rintro ⟨a, ha, hid, hax, -⟩
  rcases h a ha hid with h | h
  · exact h.not_covers hax hx
  · exact h.not_covers hx hax

theorem updated_link {L A B : List HfsLockf} {lock : HfsLockf} (hl : lock.Ranged)
    (hr : ∀ l ∈ A ++ B, l.Ranged) (hs : OwnSorted (A ++ B))
    (hA : ∀ a ∈ A, a.lfId = lock.lfId → Before a lock)
    (hB : ∀ b ∈ B, b.lfId = lock.lfId → Before lock b)
    (hL : ∀ o x t, ¬ (o = lock.lfId ∧ lock.Covers x) → (Holds (A ++ B) o x t ↔ Holds L o x t)) :
    Updated L (A ++ lock :: B) lock (some lock.lfType) := by
  obtain ⟨hsA, hsB, hAB⟩ := ownSorted_append.mp hs
  refine ⟨?_, ?_, ?_⟩
  · intro l h
    simp only [mem_append, mem_cons] at h hr
    rcases h with h | rfl | h
    · exact hr l (Or.inl h)
    · exact hl
    · exact hr l (Or.inr h)
  · refine ownSorted_append.mpr ⟨hsA, ownSorted_cons.mpr ⟨fun b hb hid => hB b hb hid.symm, hsB⟩, ?_⟩
    intro a ha b hb hid
    rcases mem_cons.mp hb with rfl | hb
    · exact hA a ha hid
    · exact hAB a ha b hb hid
  · intro o x t
    rw [holds_append, holds_cons]
    split_ifs with h
    · obtain ⟨rfl, hx⟩ := h
      have h1 := not_holds_of_before (t := t) (fun a ha hid => Or.inl (hA a ha hid)) hx
      have h2 := not_holds_of_before (t := t) (fun a ha hid => Or.inr (hB a ha hid)) hx
      simp [h1, h2, hx]
    · rw [← hL o x t h, holds_append]
      constructor
      · rintro (h' | ⟨rfl, hx, -⟩ | h')
        · exact Or.inl h'
        · exact absurd ⟨rfl, hx⟩ h
        · exact Or.inr h'
      · rintro (h' | h')
        · exact Or.inl h'
        · exact Or.inr (Or.inr h')

theorem updated_clear {L R : List HfsLockf} {lock : HfsLockf} (hr : ∀ l ∈ R, l.Ranged)
    (hs : OwnSorted R) (hR : ∀ a ∈ R, a.lfId = lock.lfId → Before a lock ∨ Before lock a)
    (hL : ∀ o x t, ¬ (o = lock.lfId ∧ lock.Covers x) → (Holds R o x t ↔ Holds L o x t)) :
    Updated L R lock none := by
  refine ⟨hr, hs, ?_⟩
  intro o x t
  split_ifs with h
  · obtain ⟨rfl, hx⟩ := h
    simpa using not_holds_of_before (t := t) hR hx
  · exact hL o x t h

/-- `a` is a piece of `b`. -/
def Piece (a b : HfsLockf) : Prop :=
  a.lfId = b.lfId ∧ b.lfStart ≤ a.lfStart ∧ (b.lfEnd = -1 ∨ (a.lfEnd ≠ -1 ∧ a.lfEnd ≤ b.lfEnd))

theorem Piece.before_left {a b c : HfsLockf} (h : Piece a b) (hc : Before c b) : Before c a := by
  simp only [Piece, Before] at *
  omega

theorem Piece.before_right {a b c : HfsLockf} (h : Piece a b) (hc : Before b c) : Before a c := by
  simp only [Piece, Before] at *
  omega

theorem ownSorted_pieces {A B P : List HfsLockf} {ov : HfsLockf} (h : OwnSorted (A ++ ov :: B))
    (hP : OwnSorted P) (hp : ∀ p ∈ P, Piece p ov) : OwnSorted (A ++ (P ++ B)) := by
  obtain ⟨hA, hB, hAB⟩ := ownSorted_append.mp h
  obtain ⟨hov, hB⟩ := ownSorted_cons.mp hB
  refine ownSorted_append.mpr ⟨hA, ownSorted_append.mpr ⟨hP, hB, ?_⟩, ?_⟩
  · intro p h b hb hid
    exact (hp p h).before_right (hov b hb ((hp p h).1.symm.trans hid))
  · intro a ha b hb hid
    rcases mem_append.mp hb with hb | hb
    · exact (hp b hb).before_left (hAB a ha ov mem_cons_self (hid.trans (hp b hb).1))
    · exact hAB a ha b (mem_cons_of_mem _ hb) hid

theorem holds_pieces {A B P : List HfsLockf} {ov lock : HfsLockf} (hov : ov.lfId = lock.lfId)
    (hp : ∀ x, ¬ lock.Covers x → ∀ t, (Holds P ov.lfId x t ↔ ov.Covers x ∧ ov.lfType = t))
    (hid : ∀ p ∈ P, p.lfId = ov.lfId) (o : ℕ) (x : ℤ) (t : LockType)
    (h : ¬ (o = lock.lfId ∧ lock.Covers x)) :
    Holds (A ++ (P ++ B)) o x t ↔ Holds (A ++ ov :: B) o x t := by
  simp only [holds_append, holds_cons]
  have hP : Holds P o x t ↔ ov.lfId = o ∧ ov.Covers x ∧ ov.lfType = t := by
    by_cases ho : o = ov.lfId
    · subst ho
      rw [hp x (fun hx => h ⟨hov, hx⟩) t]
      simp
    · constructor
      · rintro ⟨p, hpP, rfl, -, -⟩
        exact absurd (hid p hpP) ho
      · rintro ⟨rfl, -⟩
        exact absurd rfl ho
  rw [hP]

theorem endsAfter_piece {ov lock : HfsLockf} (hov : ov.Ranged) (hl : lock.Ranged)
    (hc : CaseFact ov lock .endsAfter) :
    let p := { hfsWakelock ov with lfStart := offT (lock.lfEnd + 1) }
    Piece p ov ∧ p.Ranged ∧ Before lock p ∧
      ∀ x, ¬ lock.Covers x → ∀ t, (Holds [p] ov.lfId x t ↔ ov.Covers x ∧ ov.lfType = t) := by
  simp only [CaseFact, HfsLockf.Ranged, Ranged] at hc hov hl
  have he : offT (lock.lfEnd + 1) = lock.lfEnd + 1 := offT_eq (by omega) (by omega)
  simp only [hfsWakelock, he, Piece, HfsLockf.Ranged, Ranged, Before, holds_cons, holds_nil,
    HfsLockf.Covers, InRange, or_false, true_and]
  refine ⟨by omega, by omega, by omega, ?_⟩
  intro x hx t
  constructor
  · rintro ⟨h, rfl⟩
    exact ⟨by omega, rfl⟩
  · rintro ⟨h, rfl⟩
    exact ⟨by omega, rfl⟩

theorem startsBefore_piece {ov lock : HfsLockf} (hov : ov.Ranged) (hl : lock.Ranged)
    (hc : CaseFact ov lock .startsBefore) :
    let p := { hfsWakelock ov with lfEnd := offT (lock.lfStart - 1) }
    Piece p ov ∧ p.Ranged ∧ Before p lock ∧
      ∀ x, ¬ lock.Covers x → ∀ t, (Holds [p] ov.lfId x t ↔ ov.Covers x ∧ ov.lfType = t) := by
  simp only [CaseFact, HfsLockf.Ranged, Ranged] at hc hov hl
  have he : offT (lock.lfStart - 1) = lock.lfStart - 1 := offT_eq (by omega) (by omega)
  simp only [hfsWakelock, he, Piece, HfsLockf.Ranged, Ranged, Before, holds_cons, holds_nil,
    HfsLockf.Covers, InRange, or_false, true_and]
  refine ⟨by omega, by omega, by omega, ?_⟩
  intro x hx t
  constructor
  · rintro ⟨h, rfl⟩
    exact ⟨by omega, rfl⟩
  · rintro ⟨h, rfl⟩
    exact ⟨by omega, rfl⟩

theorem insideLock_piece {ov lock : HfsLockf} (hc : CaseFact ov lock .insideLock) :
    ∀ x, ¬ lock.Covers x → ∀ t, (Holds [] ov.lfId x t ↔ ov.Covers x ∧ ov.lfType = t) := by
  simp only [CaseFact] at hc
  intro x hx t
  simp only [HfsLockf.Covers, InRange, holds_nil, false_iff, not_and] at hx ⊢
  omega

theorem hfsSplit_pieces {ov lock : HfsLockf} (fresh : ℕ) (hov : ov.Ranged) (hl : lock.Ranged)
    (hc : CaseFact ov lock .containsLock) :
    let parts := hfsSplit fresh (hfsWakelock ov) lock
    (∀ p ∈ parts.1, Piece p ov ∧ p.Ranged ∧ Before p lock) ∧
    (∀ p ∈ parts.2, Piece p ov ∧ p.Ranged ∧ Before lock p) ∧ OwnSorted (parts.1 ++ parts.2) ∧
      ∀ x, ¬ lock.Covers x → ∀ t,
        (Holds (parts.1 ++ parts.2) ov.lfId x t ↔ ov.Covers x ∧ ov.lfType = t) := by
  simp only [CaseFact, HfsLockf.Ranged, Ranged] at hc hov hl
  have he : offT (lock.lfEnd + 1) = lock.lfEnd + 1 := offT_eq (by omega) (by omega)
  have hs : offT (lock.lfStart - 1) = lock.lfStart - 1 := offT_eq (by omega) (by omega)
  simp only [hfsSplit, hfsWakelock, he, hs]
  split_ifs with h1 h2
  all_goals
    simp only [mem_cons, not_mem_nil, or_false, nil_append, append_nil,
      cons_append, forall_eq, Piece, HfsLockf.Ranged, Ranged, Before, holds_cons, holds_nil,
      HfsLockf.Covers, InRange, ownSorted_cons, true_and, false_implies, implies_true]
  · refine ⟨by omega, by simp [OwnSorted], ?_⟩
    intro x hx t
    grind
  · refine ⟨by omega, by simp [OwnSorted], ?_⟩
    intro x hx t
    grind
  · refine ⟨by omega, by omega, ⟨by omega, by simp [OwnSorted]⟩, ?_⟩
    intro x hx t
    grind

/-- `hfs_setlock` once the new lock is on the list: what remains to be visited starts
behind the start of the lock, so only the cases 0, 3 and 5 can arise. -/
theorem setlockLoop_linked (fresh : ℕ) : ∀ (fuel : ℕ) (lock : HfsLockf)
    (before mid block : List HfsLockf) (woken : List ℕ), block.length < fuel → lock.Ranged →
    (∀ l ∈ before ++ (mid ++ block), l.Ranged) → OwnSorted (before ++ (mid ++ block)) →
    (∀ a ∈ before, a.lfId = lock.lfId → Before a lock) → (∀ a ∈ mid, a.lfId ≠ lock.lfId) →
    (∀ b ∈ block, b.lfId = lock.lfId → lock.lfStart < b.lfStart) →
    ∃ e, setlockLoop fresh fuel lock false before mid block woken = some e ∧
      Updated (before ++ (mid ++ block)) e.list lock (some lock.lfType) := by
  intro fuel
  induction fuel with
  | zero => intro _ _ _ _ _ h; omega
  | succ fuel ih =>
    intro lock before mid block woken hfuel hl hr hs hbef hmid hblk
    obtain ⟨c, skipped, rest, he, rfl, hskip, hfound⟩ := hfsFindoverlap_spec hl block
      (fun l h => hr l (by simp [h]))
    have hrskip : ∀ a ∈ skipped, a.lfId ≠ lock.lfId := by
      intro a ha hid
      have h1 := hskip a ha hid
      have h2 := hblk a (by simp [ha]) hid
      have h3 := hr a (by simp [ha])
      simp only [Before, HfsLockf.Ranged, Ranged] at h1 h3
      omega
    have hmid' : ∀ a ∈ mid ++ skipped, a.lfId ≠ lock.lfId := by
      intro a ha
      rcases mem_append.mp ha with ha | ha
      · exact hmid a ha
      · exact hrskip a ha
    have hs' : OwnSorted ((before ++ (mid ++ skipped)) ++ rest) := by
      simpa [append_assoc] using hs
    rw [setlockLoop]
    simp only [he]
    rcases hfound with ⟨rfl, hhead⟩ | ⟨hc, ov, tl, rfl, hov, hfact⟩
    · refine ⟨_, rfl, ?_⟩
      have hrest := before_of_head (fun l h => hr l (by simp [h])) (ownSorted_append.mp hs').2.1 hhead
      simp only [append_assoc]
      refine updated_link hl hr hs hbef ?_ (fun o x t h => Iff.rfl)
      intro b hb hid
      rcases mem_append.mp hb with hb | hb
      · exact absurd hid (hmid b hb)
      · rcases mem_append.mp hb with hb | hb
        · exact absurd hid (hrskip b hb)
        · exact hrest b hb hid
    · have hovr := hr ov (by simp)
      have hlt := hblk ov (by simp) hov
      cases c with
      | noOverlap => exact absurd rfl hc
      | equal => simp only [CaseFact] at hfact; omega
      | containsLock => simp only [CaseFact] at hfact; omega
      | startsBefore => simp only [CaseFact] at hfact; omega
      | insideLock =>
        have hdrop : OwnSorted (before ++ ((mid ++ skipped) ++ tl)) := by
          have := ownSorted_pieces (P := []) hs' (by simp [OwnSorted]) (by simp)
          simpa [append_assoc] using this
        have hr' : ∀ l ∈ before ++ ((mid ++ skipped) ++ tl), l.Ranged := by
          intro l h
          apply hr
          simp only [mem_append, mem_cons] at h ⊢
          tauto
        have hblk' : ∀ b ∈ tl, b.lfId = lock.lfId → lock.lfStart < b.lfStart :=
          fun b hb => hblk b (by simp [hb])
        have hlen : tl.length < fuel := by
          simp only [length_append, length_cons] at hfuel
          omega
        have hlift : ∀ {res : List HfsLockf}, Updated (before ++ ((mid ++ skipped) ++ tl)) res lock
            (some lock.lfType) → Updated (before ++ (mid ++ (skipped ++ ov :: tl))) res lock
            (some lock.lfType) := by
          intro res hu
          refine ⟨hu.ranged, hu.sorted, fun o x t => ?_⟩
          rw [hu.holds o x t]
          split_ifs with h
          · rfl
          · have := holds_pieces (A := before ++ (mid ++ skipped)) (B := tl) (P := []) hov
              (insideLock_piece hfact) (by simp) o x t h
            simpa [append_assoc] using this
        simp only [Bool.false_eq_true, ↓reduceIte]
        split_ifs
        · obtain ⟨e, he, hu⟩ := ih lock before (mid ++ skipped) tl _ hlen hl hr' hdrop hbef hmid' hblk'
          exact ⟨e, he, hlift hu⟩
        · obtain ⟨e, he, hu⟩ := ih { lock with lfBlkhd := lock.lfBlkhd ++ ov.lfBlkhd } before
            (mid ++ skipped) tl _ hlen hl hr' hdrop hbef hmid' hblk'
          exact ⟨e, he, hlift ⟨hu.ranged, hu.sorted, hu.holds⟩⟩
      | endsAfter =>
        obtain ⟨hpiece, hpr, hpb, hph⟩ := endsAfter_piece hovr hl hfact
        have hsP := ownSorted_pieces (P := [_]) hs' (by simp [OwnSorted]) (by simpa using hpiece)
        refine ⟨_, rfl, ?_⟩
        simp only [append_assoc, cons_append, nil_append] at hsP ⊢
        refine updated_link hl ?_ hsP hbef ?_ ?_
        · intro l h
          simp only [mem_append, mem_cons] at h hr
          rcases h with h | h | h | rfl | h
          · exact hr l (Or.inl h)
          · exact hr l (Or.inr (Or.inl h))
          · exact hr l (Or.inr (Or.inr (Or.inl h)))
          · exact hpr
          · exact hr l (Or.inr (Or.inr (Or.inr (Or.inr h))))
        · intro b hb hid
          simp only [mem_append, mem_cons] at hb
          rcases hb with hb | hb | rfl | hb
          · exact absurd hid (hmid b hb)
          · exact absurd hid (hrskip b hb)
          · exact hpb
          · have hob := (ownSorted_cons.mp (ownSorted_append.mp hs').2.1).1 b hb (hov.trans hid.symm)
            exact hpb.trans hpr (hpiece.before_right hob)
        · intro o x t h
          have := holds_pieces (A := before ++ (mid ++ skipped)) (B := tl) hov hph
            (by simp [hfsWakelock]) o x t h
          simpa [append_assoc] using this

theorem Updated.congr_lock {L res : List HfsLockf} {l k : HfsLockf} {v : Option LockType}
    (h : Updated L res l v) (hid : l.lfId = k.lfId) (hs : l.lfStart = k.lfStart)
    (he : l.lfEnd = k.lfEnd) : Updated L res k v := by
  refine ⟨h.ranged, h.sorted, fun o x t => ?_⟩
  have hc : (o = l.lfId ∧ l.Covers x) ↔ (o = k.lfId ∧ k.Covers x) := by
    simp only [HfsLockf.Covers, hid, hs, he]
  rw [h.holds o x t]
  split_ifs with h1 h2 h2
  · rfl
  · exact absurd (hc.mp h1) h2
  · exact absurd (hc.mpr h2) h1
  · rfl

theorem Updated.of_drop {A B res : List HfsLockf} {ov lock : HfsLockf} {v : Option LockType}
    (hov : ov.lfId = lock.lfId) (hfact : CaseFact ov lock .insideLock)
    (hu : Updated (A ++ B) res lock v) : Updated (A ++ ov :: B) res lock v := by
  refine ⟨hu.ranged, hu.sorted, fun o x t => ?_⟩
  rw [hu.holds o x t]
  split_ifs with h
  · rfl
  · exact holds_pieces (P := []) hov (insideLock_piece hfact) (by simp) o x t h

theorem Updated.of_cut {A B res : List HfsLockf} {ov lock : HfsLockf} {v : Option LockType}
    (hovr : ov.Ranged) (hl : lock.Ranged) (hov : ov.lfId = lock.lfId)
    (hfact : CaseFact ov lock .startsBefore)
    (hu : Updated (A ++ { hfsWakelock ov with lfEnd := offT (lock.lfStart - 1) } :: B) res lock v) :
    Updated (A ++ ov :: B) res lock v := by
  obtain ⟨-, -, -, hph⟩ := startsBefore_piece hovr hl hfact
  refine ⟨hu.ranged, hu.sorted, fun o x t => ?_⟩
  rw [hu.holds o x t]
  split_ifs with h
  · rfl
  · exact holds_pieces (P := [_]) hov hph (by simp [hfsWakelock]) o x t h

theorem setlockLoop_updated (fresh fuel : ℕ) {lock : HfsLockf} {L : List HfsLockf}
    (hfuel : L.length < fuel) (hl : lock.Ranged) (hr : ∀ l ∈ L, l.Ranged) (hs : OwnSorted L) :
    ∃ e, setlockLoop fresh fuel lock true [] [] L [] = some e ∧
      Updated L e.list lock (some lock.lfType) := by
  obtain ⟨fuel, rfl⟩ : ∃ k, fuel = k + 1 := ⟨fuel - 1, by omega⟩
  obtain ⟨c, skipped, rest, he, rfl, hskip, hfound⟩ := hfsFindoverlap_spec hl L hr
  obtain ⟨hss, hsr, -⟩ := ownSorted_append.mp hs
  rw [setlockLoop]
  simp only [he]
  rcases hfound with ⟨rfl, hhead⟩ | ⟨hc, ov, tl, rfl, hov, hfact⟩
  · refine ⟨_, rfl, ?_⟩
    have hrest := before_of_head (fun l h => hr l (by simp [h])) hsr hhead
    exact updated_link hl hr hs hskip hrest (fun o x t _ => Iff.rfl)
  · have hovr := hr ov (by simp)
    obtain ⟨hovtl, hstl⟩ := ownSorted_cons.mp hsr
    have htl : ∀ b ∈ tl, b.lfId = lock.lfId → Before ov b := fun b hb hid =>
      hovtl b hb (hov.trans hid.symm)
    have hlen : tl.length < fuel := by
      simp only [length_append, length_cons] at hfuel
      omega
    have hrtl : ∀ l ∈ skipped ++ tl, l.Ranged := by
      intro l h
      apply hr
      simp only [mem_append, mem_cons] at h ⊢
      tauto
    have hstl : OwnSorted (skipped ++ tl) :=
      ownSorted_pieces (P := []) hs (by simp [OwnSorted]) (by simp)
    cases c with
    | noOverlap => exact absurd rfl hc
    | equal =>
      have hequal : ∀ k : HfsLockf, k.lfId = ov.lfId → k.lfStart = ov.lfStart →
          k.lfEnd = ov.lfEnd → k.lfType = lock.lfType →
          Updated (skipped ++ ov :: tl) (skipped ++ k :: tl) lock (some lock.lfType) := by
        intro k hid hks hke hkt
        obtain ⟨hst, hen⟩ := hfact
        refine Updated.congr_lock (l := k) (hkt ▸ updated_link ?_ hrtl hstl ?_ ?_ ?_)
          (hid.trans hov) (hks.trans hst) (hke.trans hen)
        · simpa only [HfsLockf.Ranged, hks, hke] using hovr
        · intro a ha hida
          have := hskip a ha (hida.trans (hid.trans hov))
          simp only [Before] at this ⊢
          omega
        · intro b hb hidb
          have := htl b hb (hidb.trans (hid.trans hov))
          simp only [Before] at this ⊢
          omega
        · intro o x t h
          refine holds_pieces (P := []) hid.symm ?_ (by simp) o x t h
          intro y hy t
          simp only [HfsLockf.Covers, hks, hke] at hy ⊢
          simp [hy]
      simp only [↓reduceIte, nil_append]
      split_ifs
      · exact ⟨_, rfl, hequal _ rfl rfl rfl rfl⟩
      · exact ⟨_, rfl, hequal _ rfl rfl rfl rfl⟩
    | containsLock =>
      simp only [↓reduceIte, nil_append]
      split_ifs with htype
      · refine ⟨_, rfl, hr, hs, fun o x t => ?_⟩
        split_ifs with h
        · obtain ⟨rfl, hx⟩ := h
          have hox : ov.Covers x := by
            simp only [CaseFact, HfsLockf.Covers, InRange] at hfact hx ⊢
            omega
          constructor
          · rintro ⟨k, hk, hkid, hkx, rfl⟩
            rw [hs.eq_of_covers hk (by simp) (hkid.trans hov.symm) hkx hox, htype]
          · intro h
            exact ⟨ov, by simp, hov, hox, htype.trans (Option.some.inj h)⟩
        · exact Iff.rfl
      · obtain ⟨h1, h2, h3, h4⟩ := hfsSplit_pieces fresh hovr hl hfact
        refine ⟨_, rfl, ?_⟩
        generalize hfsSplit fresh (hfsWakelock ov) lock = parts at h1 h2 h3 h4
        have hpiece : ∀ p ∈ parts.1 ++ parts.2, Piece p ov := by
          intro p hp
          rcases mem_append.mp hp with hp | hp
          · exact (h1 p hp).1
          · exact (h2 p hp).1
        have hsP := ownSorted_pieces hs h3 hpiece
        have hassoc : skipped ++ (parts.1 ++ parts.2 ++ tl) =
            (skipped ++ parts.1) ++ (parts.2 ++ tl) := by simp
        rw [← append_assoc]
        refine updated_link hl ?_ (hassoc ▸ hsP) ?_ ?_ ?_
        · intro l h
          simp only [mem_append, mem_cons] at h hr
          rcases h with (h | h) | h | h
          · exact hr l (Or.inl h)
          · exact (h1 l h).2.1
          · exact (h2 l h).2.1
          · exact hr l (Or.inr (Or.inr h))
        · intro a ha hid
          rcases mem_append.mp ha with ha | ha
          · exact hskip a ha hid
          · exact (h1 a ha).2.2
        · intro b hb hid
          rcases mem_append.mp hb with hb | hb
          · exact (h2 b hb).2.2
          · have hob := htl b hb hid
            simp only [CaseFact, Before, HfsLockf.Ranged, Ranged] at hfact hob hovr ⊢
            omega
        · intro o x t h
          rw [← hassoc]
          exact holds_pieces hov h4 (fun p hp => (hpiece p hp).1) o x t h
    | insideLock =>
      have hblk : ∀ b ∈ tl, b.lfId = lock.lfId → lock.lfStart < b.lfStart := by
        intro b hb hid
        have hob := htl b hb hid
        simp only [CaseFact, Before, HfsLockf.Ranged, Ranged] at hfact hob hovr
        omega
      simp only [↓reduceIte, nil_append]
      split_ifs
      · obtain ⟨e, he, hu⟩ := setlockLoop_linked fresh fuel lock skipped [] tl ov.lfBlkhd hlen hl
          hrtl hstl hskip (by simp) hblk
        exact ⟨e, he, hu.of_drop hov hfact⟩
      · obtain ⟨e, he, hu⟩ := setlockLoop_linked fresh fuel
          { lock with lfBlkhd := lock.lfBlkhd ++ ov.lfBlkhd } skipped [] tl [] hlen hl
          hrtl hstl hskip (by simp) hblk
        exact ⟨e, he, Updated.of_drop hov hfact (hu.congr_lock (k := lock) rfl rfl rfl)⟩
    | startsBefore =>
      obtain ⟨hpiece, hpr, hpb, -⟩ := startsBefore_piece hovr hl hfact
      have hsP := ownSorted_pieces (P := [_]) hs (by simp [OwnSorted]) (by simpa using hpiece)
      have hblk : ∀ b ∈ tl, b.lfId = lock.lfId → lock.lfStart < b.lfStart := by
        intro b hb hid
        have hob := htl b hb hid
        simp only [CaseFact, Before, HfsLockf.Ranged, Ranged] at hfact hob hovr
        omega
      have hpre : ∀ a ∈ skipped ++ [{ hfsWakelock ov with lfEnd := offT (lock.lfStart - 1) }],
          a.lfId = lock.lfId → Before a lock := by
        intro a ha hid
        rcases mem_append.mp ha with ha | ha
        · exact hskip a ha hid
        · exact mem_singleton.mp ha ▸ hpb
      have hrP : ∀ l ∈ (skipped ++ [{ hfsWakelock ov with lfEnd := offT (lock.lfStart - 1) }]) ++
          ([] ++ tl), l.Ranged := by
        intro l h
        rcases mem_append.mp h with h | h
        · rcases mem_append.mp h with h | h
          · exact hrtl l (mem_append_left _ h)
          · exact mem_singleton.mp h ▸ hpr
        · exact hrtl l (mem_append_right _ h)
      simp only [↓reduceIte, nil_append]
      obtain ⟨e, he, hu⟩ := setlockLoop_linked fresh fuel lock _ [] tl ov.lfBlkhd
        hlen hl hrP (by simpa [append_assoc] using hsP) hpre (by simp) hblk
      refine ⟨e, he, ?_⟩
      simp only [append_assoc, cons_append, nil_append] at hu
      exact hu.of_cut hovr hl hov hfact
    | endsAfter =>
      obtain ⟨hpiece, hpr, hpb, hph⟩ := endsAfter_piece hovr hl hfact
      have hsP := ownSorted_pieces (P := [_]) hs (by simp [OwnSorted]) (by simpa using hpiece)
      simp only [↓reduceIte, nil_append]
      refine ⟨_, rfl, updated_link hl ?_ hsP hskip ?_ ?_⟩
      · intro l h
        rcases mem_append.mp h with h | h
        · exact hrtl l (mem_append_left _ h)
        · rcases mem_cons.mp h with rfl | h
          · exact hpr
          · exact hrtl l (mem_append_right _ h)
      · intro b hb hid
        rcases mem_cons.mp hb with rfl | hb
        · exact hpb
        · exact hpb.trans hpr (hpiece.before_right (htl b hb hid))
      · intro o x t h
        exact holds_pieces hov hph (by simp [hfsWakelock]) o x t h

theorem clearlockLoop_updated (fresh : ℕ) : ∀ (fuel : ℕ) {lock : HfsLockf}
    {before L : List HfsLockf} {woken : List ℕ}, L.length < fuel → lock.Ranged →
    (∀ l ∈ before ++ L, l.Ranged) → OwnSorted (before ++ L) →
    (∀ a ∈ before, a.lfId = lock.lfId → Before a lock) →
    ∃ e, clearlockLoop fresh fuel lock before L woken = some e ∧
      Updated (before ++ L) e.list lock none := by
  intro fuel
  induction fuel with
  | zero => intro _ _ _ _ h; omega
  | succ fuel ih =>
    intro lock before L woken hfuel hl hr hs hbef
    obtain ⟨c, skipped, rest, he, rfl, hskip, hfound⟩ := hfsFindoverlap_spec hl L
      (fun l h => hr l (by simp [h]))
    rw [← append_assoc] at hs hr ⊢
    have hpre : ∀ a ∈ before ++ skipped, a.lfId = lock.lfId → Before a lock := by
      intro a ha hid
      rcases mem_append.mp ha with ha | ha
      · exact hbef a ha hid
      · exact hskip a ha hid
    obtain ⟨-, hsr, -⟩ := ownSorted_append.mp hs
    rw [clearlockLoop]
    simp only [he]
    rcases hfound with ⟨rfl, hhead⟩ | ⟨hc, ov, tl, rfl, hov, hfact⟩
    · have hrest := before_of_head (fun l h => hr l (by simp [h])) hsr hhead
      refine ⟨_, rfl, updated_clear hr hs ?_ (fun o x t _ => Iff.rfl)⟩
      intro a ha hid
      rcases mem_append.mp ha with ha | ha
      · exact Or.inl (hpre a ha hid)
      · exact Or.inr (hrest a ha hid)
    · have hovr := hr ov (by simp)
      obtain ⟨hovtl, -⟩ := ownSorted_cons.mp hsr
      have htl : ∀ b ∈ tl, b.lfId = lock.lfId → Before ov b := fun b hb hid =>
        hovtl b hb (hov.trans hid.symm)
      have hlen : tl.length < fuel := by
        simp only [length_append, length_cons] at hfuel
        omega
      have hrtl : ∀ l ∈ (before ++ skipped) ++ tl, l.Ranged := by
        intro l h
        rcases mem_append.mp h with h | h
        · exact hr l (mem_append_left _ h)
        · exact hr l (mem_append_right _ (mem_cons_of_mem _ h))
      have hstl : OwnSorted ((before ++ skipped) ++ tl) :=
        ownSorted_pieces (P := []) hs (by simp [OwnSorted]) (by simp)
      cases c with
      | noOverlap => exact absurd rfl hc
      | equal =>
        refine ⟨_, rfl, updated_clear hrtl hstl ?_ ?_⟩
        · intro a ha hid
          rcases mem_append.mp ha with ha | ha
          · exact Or.inl (hpre a ha hid)
          · have := htl a ha hid
            simp only [CaseFact, Before] at hfact this ⊢
            omega
        · intro o x t h
          refine holds_pieces (P := []) hov ?_ (by simp) o x t h
          intro y hy t
          simp only [CaseFact, HfsLockf.Covers, InRange] at hfact hy ⊢
          simp only [holds_nil, false_iff, not_and]
          omega
      | containsLock =>
        obtain ⟨h1, h2, h3, h4⟩ := hfsSplit_pieces fresh hovr hl hfact
        refine ⟨_, rfl, ?_⟩
        dsimp only
        generalize hfsSplit fresh (hfsWakelock ov) lock = parts at h1 h2 h3 h4 ⊢
        have hpiece : ∀ p ∈ parts.1 ++ parts.2, Piece p ov ∧ p.Ranged ∧
            (Before p lock ∨ Before lock p) := by
          intro p hp
          rcases mem_append.mp hp with hp | hp
          · exact ⟨(h1 p hp).1, (h1 p hp).2.1, Or.inl (h1 p hp).2.2⟩
          · exact ⟨(h2 p hp).1, (h2 p hp).2.1, Or.inr (h2 p hp).2.2⟩
        refine updated_clear ?_ (ownSorted_pieces hs h3 (fun p hp => (hpiece p hp).1)) ?_ ?_
        · intro l h
          rcases mem_append.mp h with h | h
          · exact hrtl l (mem_append_left _ h)
          · rcases mem_append.mp h with h | h
            · exact (hpiece l h).2.1
            · exact hrtl l (mem_append_right _ h)
        · intro a ha hid
          rcases mem_append.mp ha with ha | ha
          · exact Or.inl (hpre a ha hid)
          · rcases mem_append.mp ha with ha | ha
            · exact (hpiece a ha).2.2
            · have hob := htl a ha hid
              simp only [CaseFact, Before, HfsLockf.Ranged, Ranged] at hfact hob hovr ⊢
              omega
        · intro o x t h
          exact holds_pieces hov h4 (fun p hp => (hpiece p hp).1.1) o x t h
      | insideLock =>
        obtain ⟨e, he, hu⟩ := @ih lock _ _ (woken ++ ov.lfBlkhd) hlen hl hrtl hstl hpre
        exact ⟨e, he, hu.of_drop hov hfact⟩
      | startsBefore =>
        obtain ⟨hpiece, hpr, hpb, -⟩ := startsBefore_piece hovr hl hfact
        have hsP := ownSorted_pieces (P := [_]) hs (by simp [OwnSorted]) (by simpa using hpiece)
        have hpre' : ∀ a ∈ before ++ skipped ++
            [{ hfsWakelock ov with lfEnd := offT (lock.lfStart - 1) }],
            a.lfId = lock.lfId → Before a lock := by
          intro a ha hid
          rcases mem_append.mp ha with ha | ha
          · exact hpre a ha hid
          · exact mem_singleton.mp ha ▸ hpb
        have hrP : ∀ l ∈ (before ++ skipped ++
            [{ hfsWakelock ov with lfEnd := offT (lock.lfStart - 1) }]) ++ tl, l.Ranged := by
          intro l h
          rcases mem_append.mp h with h | h
          · rcases mem_append.mp h with h | h
            · exact hrtl l (mem_append_left _ h)
            · exact mem_singleton.mp h ▸ hpr
          · exact hrtl l (mem_append_right _ h)
        obtain ⟨e, he, hu⟩ := @ih lock _ _ (woken ++ ov.lfBlkhd) hlen hl hrP
          (by simpa [append_assoc] using hsP) hpre'
        refine ⟨e, he, Updated.of_cut hovr hl hov hfact ?_⟩
        simpa only [append_assoc, cons_append, nil_append] using hu
      | endsAfter =>
        obtain ⟨hpiece, hpr, hpb, hph⟩ := endsAfter_piece hovr hl hfact
        have hsP := ownSorted_pieces (P := [_]) hs (by simp [OwnSorted]) (by simpa using hpiece)
        refine ⟨_, rfl, updated_clear ?_ hsP ?_ ?_⟩
        · intro l h
          rcases mem_append.mp h with h | h
          · exact hrtl l (mem_append_left _ h)
          · rcases mem_cons.mp h with rfl | h
            · exact hpr
            · exact hrtl l (mem_append_right _ h)
        · intro a ha hid
          rcases mem_append.mp ha with ha | ha
          · exact Or.inl (hpre a ha hid)
          · rcases mem_cons.mp ha with rfl | ha
            · exact Or.inr hpb
            · exact Or.inr (hpb.trans hpr (hpiece.before_right (htl a ha hid)))
        · intro o x t h
          exact holds_pieces hov hph (by simp [hfsWakelock]) o x t h

/-! ## Whole runs -/

/-- Owners that meet at a byte both hold shared locks there. -/
def Compatible (L : List HfsLockf) : Prop := ∀ o o' x t t', o ≠ o' → Holds L o x t →
  Holds L o' x t' → t ≠ .wrlck ∧ t' ≠ .wrlck

theorem hfsGetblock_isSome {lock : HfsLockf} (hl : lock.Ranged) {L : List HfsLockf}
    (hr : ∀ l ∈ L, l.Ranged) : ∃ b, hfsGetblock lock L = some b := by
  induction L with
  | nil => exact ⟨_, rfl⟩
  | cons lf L ih =>
    obtain ⟨b, hb⟩ := ih (fun l h => hr l (mem_cons_of_mem _ h))
    obtain ⟨c, hc⟩ := overlapCase_isSome (hr lf mem_cons_self) hl
    rw [hfsGetblock, hc, hb]
    by_cases hself : lf.lfId = lock.lfId
    · exact ⟨b, if_pos hself⟩
    · rw [if_neg hself]
      cases c with
      | noOverlap => exact ⟨b, rfl⟩
      | equal | containsLock | insideLock | startsBefore | endsAfter =>
        by_cases hw : lock.lfType = .wrlck ∨ lf.lfType = .wrlck
        · exact ⟨_, if_pos hw⟩
        · exact ⟨_, if_neg hw⟩

theorem hfsGetblock_none {lock : HfsLockf} {L : List HfsLockf}
    (h : hfsGetblock lock L = some none) {l : HfsLockf} (hl : l ∈ L) (hid : l.lfId ≠ lock.lfId)
    {x : ℤ} (hlx : l.Covers x) (hx : lock.Covers x) : lock.lfType ≠ .wrlck ∧ l.lfType ≠ .wrlck := by
  induction L with
  | nil => simp at hl
  | cons lf L ih =>
    rw [hfsGetblock] at h
    by_cases hself : lf.lfId = lock.lfId
    · rw [if_pos hself] at h
      rcases mem_cons.mp hl with rfl | hl
      · exact absurd hself hid
      · exact ih h hl
    · rw [if_neg hself] at h
      cases hc : overlapCase lf lock with
      | none => simp [hc] at h
      | some c =>
        have hfact := overlapCase_fact hc
        rw [hc] at h
        cases c with
        | noOverlap =>
          rcases mem_cons.mp hl with rfl | hl
          · rcases hfact with hb | hb
            · exact absurd hx (hb.not_covers hlx)
            · exact absurd hlx (hb.not_covers hx)
          · exact ih h hl
        | equal | containsLock | insideLock | startsBefore | endsAfter =>
          by_cases hw : lock.lfType = .wrlck ∨ lf.lfType = .wrlck
          · simp [hw] at h
          · rcases mem_cons.mp hl with rfl | hl
            · exact not_or.mp hw
            · exact ih (by simpa [hw] using h) hl

theorem holds_map {f : HfsLockf → HfsLockf} (hid : ∀ l, (f l).lfId = l.lfId)
    (hs : ∀ l, (f l).lfStart = l.lfStart) (he : ∀ l, (f l).lfEnd = l.lfEnd)
    (ht : ∀ l, (f l).lfType = l.lfType) {L : List HfsLockf} {o : ℕ} {x : ℤ} {t : LockType} :
    Holds (L.map f) o x t ↔ Holds L o x t := by
  simp [Holds, HfsLockf.Covers, hid, hs, he, ht]

/-- What the lock list of a file satisfies between calls. -/
structure RangesOk (L : List HfsLockf) : Prop where
  ranged : ∀ l ∈ L, l.Ranged
  sorted : OwnSorted L
  compatible : Compatible L

theorem RangesOk.map {L : List HfsLockf} (h : RangesOk L) {f : HfsLockf → HfsLockf}
    (hid : ∀ l, (f l).lfId = l.lfId) (hs : ∀ l, (f l).lfStart = l.lfStart)
    (he : ∀ l, (f l).lfEnd = l.lfEnd) (ht : ∀ l, (f l).lfType = l.lfType) :
    RangesOk (L.map f) ∧ held (L.map f) = held L := by
  have hsorted : OwnSorted (L.map f) := by
    simp only [OwnSorted, pairwise_map, hid, Before, he, hs]
    exact h.sorted
  refine ⟨⟨?_, hsorted, ?_⟩, ?_⟩
  · intro l hl
    obtain ⟨k, hk, rfl⟩ := mem_map.mp hl
    simpa only [HfsLockf.Ranged, hs, he] using h.ranged k hk
  · intro o o' x t t' ho hh hh'
    exact h.compatible o o' x t t' ho ((holds_map hid hs he ht).mp hh) ((holds_map hid hs he ht).mp hh')
  · funext o x
    exact held_congr hsorted h.sorted (fun t => holds_map hid hs he ht)

theorem Updated.held_eq {L res : List HfsLockf} {lock : HfsLockf} {v : Option LockType}
    (h : Updated L res lock v) (hL : OwnSorted L) (o : ℕ) (x : ℤ) :
    held res o x = if o = lock.lfId ∧ InRange lock.lfStart lock.lfEnd x then v else held L o x := by
  apply Option.ext
  intro t
  rw [held_eq_some_iff h.sorted, h.holds]
  by_cases hc : o = lock.lfId ∧ InRange lock.lfStart lock.lfEnd x
  · rw [if_pos hc, if_pos (show o = lock.lfId ∧ lock.Covers x from hc)]
  · rw [if_neg hc, if_neg (show ¬ (o = lock.lfId ∧ lock.Covers x) from hc), held_eq_some_iff hL]

theorem RangesOk.cleared {L res : List HfsLockf} {lock : HfsLockf} (h : RangesOk L)
    (hu : Updated L res lock none) : RangesOk res := by
  refine ⟨hu.ranged, hu.sorted, ?_⟩
  intro o o' x t t' ho hh hh'
  rw [hu.holds] at hh hh'
  split_ifs at hh hh' with h1 h2
  all_goals first | contradiction | exact h.compatible o o' x t t' ho hh hh'

theorem RangesOk.granted {L res : List HfsLockf} {lock : HfsLockf} (h : RangesOk L)
    (hb : hfsGetblock lock L = some none) (hu : Updated L res lock (some lock.lfType)) :
    RangesOk res := by
  refine ⟨hu.ranged, hu.sorted, ?_⟩
  have hmeet : ∀ o x t, o ≠ lock.lfId → lock.Covers x → Holds L o x t →
      lock.lfType ≠ .wrlck ∧ t ≠ .wrlck := by
    rintro o x t ho hx ⟨l, hl, rfl, hlx, rfl⟩
    exact hfsGetblock_none hb hl ho hlx hx
  intro o o' x t t' ho hh hh'
  rw [hu.holds] at hh hh'
  split_ifs at hh hh' with h1 h2
  · exact absurd (h1.1.trans h2.1.symm) ho
  · obtain rfl := Option.some.inj hh
    exact hmeet o' x t' (fun e => ho (h1.1.trans e.symm)) h1.2 hh'
  · rename_i h2
    obtain rfl := Option.some.inj hh'
    exact (hmeet o x t (fun e => ho (e.trans h2.1.symm)) h2.2 hh).symm
  · exact h.compatible o o' x t t' ho hh hh'

theorem hfsClearlock_spec (unlock : HfsLockf) (hp : Hfsnode) (h : RangesOk hp.hLockf)
    (hl : unlock.Ranged) :
    ∃ hp', hfsClearlock unlock hp = some hp' ∧ RangesOk hp'.hLockf ∧
      held hp'.hLockf = applyOp (held hp.hLockf) (.clear unlock.lfId unlock.lfStart unlock.lfEnd) ∧
      hp'.sleepers.map Sleeper.lock = hp.sleepers.map Sleeper.lock := by
  obtain ⟨e, he, hu⟩ := @clearlockLoop_updated hp.nextAddr (hp.hLockf.length + 1)
    unlock [] hp.hLockf [] (Nat.lt_succ_self _) hl h.ranged h.sorted (by simp)
  rw [nil_append] at hu
  refine ⟨⟨e.list, wakeup e.woken hp.sleepers, hp.nextAddr + 1⟩, ?_, h.cleared hu, ?_, ?_⟩
  · simp only [hfsClearlock, he]
  · funext o x
    exact hu.held_eq h.sorted o x
  · simp only [wakeup, map_map]
    refine map_congr_left (fun w _ => ?_)
    simp only [Function.comp_apply]
    split <;> rfl

theorem grant_spec {lock : HfsLockf} {hp : Hfsnode} (h : RangesOk hp.hLockf) (hl : lock.Ranged)
    (hb : hfsGetblock lock hp.hLockf = some none) :
    ∃ r, grant lock hp = some r ∧ RangesOk r.node.hLockf ∧
      held r.node.hLockf = r.ops.foldl applyOp (held hp.hLockf) ∧
      r.node.sleepers.map Sleeper.lock = hp.sleepers.map Sleeper.lock := by
  obtain ⟨e, he, hu⟩ := setlockLoop_updated hp.nextAddr (hp.hLockf.length + 1)
    (Nat.lt_succ_self _) hl h.ranged h.sorted
  refine ⟨⟨⟨e.list, wakeup e.woken hp.sleepers, hp.nextAddr + 1⟩, .granted,
    [.set lock.lfId lock.lfStart lock.lfEnd lock.lfType]⟩, ?_, h.granted hb hu, ?_, ?_⟩
  · simp only [grant, he]
  · funext o x
    exact hu.held_eq h.sorted o x
  · simp only [wakeup, map_map]
    refine map_congr_left (fun w _ => ?_)
    simp only [Function.comp_apply]
    split <;> rfl

/-- A file whose lock list is right and whose suspended requests have sound ranges. -/
structure Sound (hp : Hfsnode) : Prop where
  ranges : RangesOk hp.hLockf
  sleepers : ∀ w ∈ hp.sleepers, w.lock.Ranged

theorem Sound.init : Sound Hfsnode.init :=
  ⟨⟨by simp [Hfsnode.init], by simp [Hfsnode.init, OwnSorted],
    by simp [Compatible, Holds, Hfsnode.init]⟩, by simp [Hfsnode.init]⟩

/-- The call leaves a sound file whose meaning is updated by the completed operations. -/
def Result.Refines (r : Result) (hp : Hfsnode) : Prop :=
  Sound r.node ∧ held r.node.hLockf = r.ops.foldl applyOp (held hp.hLockf)

theorem ranged_of_map_eq {sl sl' : List Sleeper} (h : sl'.map Sleeper.lock = sl.map Sleeper.lock)
    (hr : ∀ w ∈ sl, w.lock.Ranged) : ∀ w ∈ sl', w.lock.Ranged := by
  intro w hw
  have hm : w.lock ∈ sl.map Sleeper.lock := h ▸ mem_map_of_mem hw
  obtain ⟨v, hv, he⟩ := mem_map.mp hm
  exact he ▸ hr v hv

theorem sleepOn_spec (proc : ℕ) {lock : HfsLockf} (block : HfsLockf) {hp : Hfsnode}
    (h : Sound hp) (hl : lock.Ranged) : Sound (sleepOn proc lock block hp) ∧
      held (sleepOn proc lock block hp).hLockf = held hp.hLockf := by
  obtain ⟨hok, hheld⟩ := h.ranges.map
    (f := fun a => if a.addr = block.addr then { a with lfBlkhd := a.lfBlkhd ++ [lock.addr] } else a)
    (by intro l; split <;> rfl) (by intro l; split <;> rfl)
    (by intro l; split <;> rfl) (by intro l; split <;> rfl)
  refine ⟨⟨hok, ?_⟩, hheld⟩
  intro w hw
  rcases mem_cons.mp hw with rfl | hw
  · exact hl
  · exact h.sleepers w hw

theorem clearlock_sound (unlock : HfsLockf) (hp : Hfsnode) {hp' : Hfsnode} (h : Sound hp)
    (hl : unlock.Ranged) (he : hfsClearlock unlock hp = some hp') : Sound hp' ∧
      held hp'.hLockf = applyOp (held hp.hLockf) (.clear unlock.lfId unlock.lfStart unlock.lfEnd) := by
  obtain ⟨hp'', he', hok, hheld, hsl⟩ := hfsClearlock_spec unlock hp h.ranges hl
  obtain rfl := Option.some.inj (he'.symm.trans he)
  exact ⟨⟨hok, ranged_of_map_eq hsl h.sleepers⟩, hheld⟩

/-- How a pass of the loop of `hfs_setlock` can end. -/
theorem hfsSetlock_cases {proc : ℕ} {lock : HfsLockf} {channels : WaitChannels} {hp : Hfsnode} {r : Result}
    (he : hfsSetlock proc lock channels hp = some r) :
    (hfsGetblock lock hp.hLockf = some none ∧ grant lock hp = some r) ∨
      ∃ block, hfsGetblock lock hp.hLockf = some (some block) ∧ (r.node = hp ∧ r.ops = [] ∨
        (∃ hp', hfsClearlock { lock with lfType := .unlck } hp = some hp' ∧
          r = ⟨sleepOn proc lock block hp', .sleeps, [.clear lock.lfId lock.lfStart lock.lfEnd]⟩) ∨
        r = ⟨sleepOn proc lock block hp, .sleeps, []⟩) := by
  unfold hfsSetlock at he
  cases hb : hfsGetblock lock hp.hLockf with
  | none => simp [hb] at he
  | some b =>
    rw [hb] at he
    cases b with
    | none => exact .inl ⟨rfl, he⟩
    | some block =>
      refine .inr ⟨block, rfl, ?_⟩
      dsimp only at he
      by_cases hw : lock.lfFlags.wait = false
      · rw [if_pos hw] at he
        obtain rfl := Option.some.inj he
        exact .inl ⟨rfl, rfl⟩
      · rw [if_neg hw] at he
        generalize (if lock.lfFlags.posix = true ∧ block.lfFlags.posix = true then
          deadlockWalk hp channels lock.lfId maxdepth block.lfId else some false) = walk at he
        rcases walk with _ | _ | _
        · simp at he
        · dsimp only at he
          by_cases hf : lock.lfFlags.flock = true ∧ lock.lfType = .wrlck
          · rw [if_pos hf] at he
            cases hc : hfsClearlock { lock with lfType := .unlck } hp with
            | none => simp [hc] at he
            | some hp' =>
              rw [hc] at he
              exact .inr (.inl ⟨hp', rfl, (Option.some.inj he).symm⟩)
          · rw [if_neg hf] at he
            exact .inr (.inr (Option.some.inj he).symm)
        · obtain rfl := Option.some.inj he
          exact .inl ⟨rfl, rfl⟩

theorem hfsSetlock_refines {proc : ℕ} (lock : HfsLockf) {channels : WaitChannels} (hp : Hfsnode)
    {r : Result} (h : Sound hp) (hl : lock.Ranged)
    (he : hfsSetlock proc lock channels hp = some r) : r.Refines hp := by
  obtain ⟨hb, he⟩ | ⟨block, -, ⟨hnode, hops⟩ | ⟨hp', hc, rfl⟩ | rfl⟩ := hfsSetlock_cases he
  · obtain ⟨r', he', hok, hheld, hsl⟩ := grant_spec h.ranges hl hb
    obtain rfl := Option.some.inj (he'.symm.trans he)
    exact ⟨⟨hok, ranged_of_map_eq hsl h.sleepers⟩, hheld⟩
  · rw [Result.Refines, hnode, hops]
    exact ⟨h, rfl⟩
  · obtain ⟨hs, hheld⟩ := clearlock_sound { lock with lfType := .unlck } hp h hl hc
    obtain ⟨hs', hheld'⟩ := sleepOn_spec proc block hs hl
    exact ⟨hs', hheld'.trans hheld⟩
  · exact sleepOn_spec proc block h hl

/-- The range of a new request. -/
def Event.Ranged : Event → Prop
  | .setlock r _ => Lockf.Ranged r.start r.stop
  | .clearlock r => Lockf.Ranged r.start r.stop
  | .resume _ _ => True
  | .interrupt _ => True

instance : (e : Event) → Decidable e.Ranged
  | .setlock r _ => inferInstanceAs (Decidable (Lockf.Ranged r.start r.stop))
  | .clearlock r => inferInstanceAs (Decidable (Lockf.Ranged r.start r.stop))
  | .resume _ _ => inferInstanceAs (Decidable True)
  | .interrupt _ => inferInstanceAs (Decidable True)

theorem step_refines {hp : Hfsnode} {e : Event} {r : Result} (h : Sound hp) (hr : e.Ranged)
    (he : step hp e = some r) : r.Refines hp := by
  cases e with
  | setlock q channels =>
    simp only [step] at he
    split_ifs at he
    exact hfsSetlock_refines (q.lock hp.nextAddr)
      { hp with nextAddr := hp.nextAddr + 1 } ⟨h.ranges, h.sleepers⟩ hr he
  | clearlock q =>
    simp only [step] at he
    split_ifs at he
    obtain ⟨hp', hc, rfl⟩ := Option.map_eq_some_iff.mp he
    exact clearlock_sound { q.lock hp.nextAddr with lfType := .unlck }
      { hp with nextAddr := hp.nextAddr + 1 }
      ⟨h.ranges, h.sleepers⟩ hr hc
  | resume addr channels =>
    simp only [step] at he
    cases hw : hp.sleeper addr with
    | none => simp [hw] at he
    | some w =>
      rw [hw] at he
      dsimp only at he
      split_ifs at he
      exact hfsSetlock_refines w.lock (hp.forget addr)
        ⟨h.ranges, fun v hv => h.sleepers v (mem_of_mem_filter hv)⟩
        (h.sleepers w (mem_of_find?_eq_some hw)) he
  | interrupt addr =>
    simp only [step] at he
    cases hw : hp.sleeper addr with
    | none => simp [hw] at he
    | some w =>
      rw [hw] at he
      have hsl : ∀ v ∈ (hp.forget addr).sleepers, v.lock.Ranged :=
        fun v hv => h.sleepers v (mem_of_mem_filter hv)
      cases hn : w.lfNext with
      | none =>
        simp only [hn, Option.some.injEq] at he
        subst he
        exact ⟨⟨h.ranges, hsl⟩, rfl⟩
      | some a =>
        simp only [hn, Option.some.injEq] at he
        subst he
        obtain ⟨hok, hheld⟩ := h.ranges.map
          (f := fun l => if l.addr = a then { l with lfBlkhd := l.lfBlkhd.erase addr } else l)
          (by intro l; split <;> rfl) (by intro l; split <;> rfl)
          (by intro l; split <;> rfl) (by intro l; split <;> rfl)
        exact ⟨⟨hok, hsl⟩, hheld⟩

/-- A file with the list operations completed on it so far. -/
abbrev Traced := Hfsnode × List Op

def stepTraced (s : Traced) (e : Event) (t : Traced) : Prop :=
  ∃ r, step s.1 e = some r ∧ t = (r.node, s.2 ++ r.ops)

/-- What POSIX says is held after the operations. -/
def posixHeld (ops : List Op) : Held := ops.foldl applyOp (fun _ _ => none)

theorem run_refines {as : List Event} {t : Traced}
    (hr : RunUnder (fun _ e => e.Ranged) stepTraced (Hfsnode.init, []) as t) :
    Sound t.1 ∧ held t.1.hLockf = posixHeld t.2 := by
  refine RunUnder.invariant (I := fun t => Sound t.1 ∧ held t.1.hLockf = posixHeld t.2) ?_ hr ?_
  · rintro s e t ⟨hs, hheld⟩ hc ⟨r, he, rfl⟩
    obtain ⟨hs', hheld'⟩ := step_refines hs hc he
    refine ⟨hs', ?_⟩
    rw [hheld', hheld, posixHeld, posixHeld, foldl_append]
  · exact ⟨Sound.init, rfl⟩

/-- The lock list after any run of requests with sound ranges. The owner's locks are
disjoint, an exclusive lock meets no lock of another owner, each byte is held as POSIX
says, and a further clear, or set that no other owner's lock blocks, completes. -/
theorem lock_list_meets_posix {as : List Event} {t : Traced}
    (hr : RunUnder (fun _ e => e.Ranged) stepTraced (Hfsnode.init, []) as t) :
    t.1.hLockf.Pairwise (fun a b => a.lfId = b.lfId → ∀ x, ¬ (a.Covers x ∧ b.Covers x)) ∧
    (∀ a ∈ t.1.hLockf, ∀ b ∈ t.1.hLockf, a.lfId ≠ b.lfId → ∀ x, a.Covers x → b.Covers x →
      a.lfType ≠ .wrlck ∧ b.lfType ≠ .wrlck) ∧
    held t.1.hLockf = posixHeld t.2 ∧
    (∀ q : Request, Ranged q.start q.stop → (∀ w ∈ t.1.sleepers, w.proc ≠ q.proc) →
      (∃ hp, step t.1 (.clearlock q) = some ⟨hp, .cleared, [.clear q.id q.start q.stop]⟩) ∧
      (q.type ≠ .unlck → hfsGetblock (q.lock t.1.nextAddr) t.1.hLockf = some none →
        ∀ channels, ∃ hp, step t.1 (.setlock q channels) = some ⟨hp, .granted, [.set q.id q.start q.stop q.type]⟩)) := by
  obtain ⟨hs, hheld⟩ := run_refines hr
  refine ⟨?_, ?_, hheld, ?_⟩
  · refine hs.ranges.sorted.imp ?_
    rintro a b h hid x ⟨hax, hbx⟩
    exact (h hid).not_covers hax hbx
  · intro a ha b hb hid x hax hbx
    exact hs.ranges.compatible _ _ x _ _ hid ⟨a, ha, rfl, hax, rfl⟩ ⟨b, hb, rfl, hbx, rfl⟩
  · intro q hq hproc
    have hidle : ¬ (t.1.sleepers.any (fun w => w.proc = q.proc) = true) := by
      simpa using hproc
    refine ⟨?_, ?_⟩
    · obtain ⟨hp, he, -⟩ := hfsClearlock_spec
        { q.lock t.1.nextAddr with lfType := .unlck }
        { t.1 with nextAddr := t.1.nextAddr + 1 } hs.ranges hq
      refine ⟨hp, ?_⟩
      rw [step, if_neg hidle, he]
      rfl
    · intro hu hb channels
      obtain ⟨e, he, -⟩ := @setlockLoop_updated (t.1.nextAddr + 1) (t.1.hLockf.length + 1)
        (q.lock t.1.nextAddr) _ (Nat.lt_succ_self _) hq hs.ranges.ranged hs.ranges.sorted
      refine ⟨⟨e.list, wakeup e.woken t.1.sleepers, t.1.nextAddr + 2⟩, ?_⟩
      have hc : ¬ (t.1.sleepers.any (fun w => w.proc = q.proc) = true ∨ q.type = .unlck) :=
        not_or.mpr ⟨hidle, hu⟩
      rw [step, if_neg hc]
      simp only [hfsSetlock, hb, grant, he]
      rfl

/-- An owner that turns the middle of its exclusive lock into a shared one has three locks. -/
theorem lock_list_meets_posix_split :
    ∃ (as : List Event) (t : Traced), RunUnder (fun _ e => e.Ranged) stepTraced
      (Hfsnode.init, []) as t ∧ t.1.hLockf.length = 3 ∧ held t.1.hLockf = posixHeld t.2 := by
  have hr : RunUnder (fun _ e => e.Ranged) stepTraced (Hfsnode.init, [])
      ([] ++ [.setlock ⟨1, ⟨false, true, false⟩, .wrlck, 0, 10, 1⟩ ⟨[], false⟩] ++
        [.setlock ⟨1, ⟨false, true, false⟩, .rdlck, 3, 5, 1⟩ ⟨[], false⟩]) _ :=
    .snoc (.snoc (.nil _) ⟨by decide, _, rfl, rfl⟩) ⟨by decide, _, rfl, rfl⟩
  exact ⟨_, _, hr, rfl, (lock_list_meets_posix hr).2.2.1⟩

/-- A negative `l_len` reaches the list as a reversed range; the split around it leaves
one owner with two locks on the bytes 2 to 4. -/
theorem reversed_range_overlaps :
    advlockRange 5 (-3) = some (5, 1) ∧
    ∃ (as : List Event) (t : Traced), Run stepTraced (Hfsnode.init, []) as t ∧
      ¬ t.1.hLockf.Pairwise (fun a b => a.lfId = b.lfId → ∀ x, ¬ (a.Covers x ∧ b.Covers x)) := by
  refine ⟨by decide, _, _, .snoc (.snoc (.nil _)
    (a := .setlock ⟨1, ⟨false, true, false⟩, .wrlck, 0, 10, 1⟩ ⟨[], false⟩) ⟨_, rfl, rfl⟩)
    (a := .setlock ⟨1, ⟨false, true, false⟩, .rdlck, 5, 1, 1⟩ ⟨[], false⟩) ⟨_, rfl, rfl⟩, ?_⟩
  intro h
  have hpair := (pairwise_cons.mp h).1 _ (mem_cons_of_mem _ mem_cons_self) rfl 3
  exact hpair (by decide)

end Darwin.Hfs.Lockf

