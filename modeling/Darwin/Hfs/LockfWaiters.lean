import Darwin.Hfs.LockfRanges
import Mathlib.Data.List.Perm.Basic
import Mathlib.Data.List.Nodup

/-! # Waiters of the HFS lock list

Every request that sleeps in `hfs_setlock` stands on the blocked list of one lock of the
file, the one its `lf_next` points to. The blocked lists and the back pointers are compared
as lists of pairs: a lock and a request that waits for it.
-/
namespace Darwin.Hfs.Lockf
open Darwin.Lib Function List

/-- The pairs the blocked lists record. -/
def waits (L : List HfsLockf) : List (ℕ × ℕ) := L.flatMap (fun l => l.lfBlkhd.map (l.addr, ·))

/-- The pairs the back pointers record. -/
def pointers (sl : List Sleeper) : List (ℕ × ℕ) :=
  sl.filterMap (fun w => w.lfNext.map (·, w.lock.addr))

theorem waits_append (A B : List HfsLockf) : waits (A ++ B) = waits A ++ waits B :=
  flatMap_append

theorem waits_cons (l : HfsLockf) (L : List HfsLockf) :
    waits (l :: L) = l.lfBlkhd.map (l.addr, ·) ++ waits L :=
  flatMap_cons

@[simp] theorem waits_nil : waits [] = [] := rfl

theorem mem_waits {L : List HfsLockf} {a w : ℕ} :
    (a, w) ∈ waits L ↔ ∃ l ∈ L, l.addr = a ∧ w ∈ l.lfBlkhd := by
  simp only [waits, mem_flatMap, mem_map, Prod.mk.injEq]
  grind

theorem mem_pointers {sl : List Sleeper} {a w : ℕ} :
    (a, w) ∈ pointers sl ↔ ∃ s ∈ sl, s.lfNext = some a ∧ s.lock.addr = w := by
  simp only [pointers, mem_filterMap, Option.map_eq_some_iff, Prod.mk.injEq]
  grind

/-! ## The list edits -/

/-- The request would swallow one of its owner's locks that has waiters, other than by
turning an exclusive lock into a shared one. -/
def SwallowsWaiters (lock : HfsLockf) (L : List HfsLockf) : Prop :=
  ∃ ov ∈ L, ov.lfId = lock.lfId ∧ overlapCase ov lock = some .insideLock ∧
    ¬ (lock.lfType = .rdlck ∧ ov.lfType = .wrlck) ∧ ov.lfBlkhd ≠ []

instance (lock : HfsLockf) (L : List HfsLockf) : Decidable (SwallowsWaiters lock L) :=
  inferInstanceAs (Decidable (∃ ov ∈ L, _))

/-- An edit of `L` drops the pairs it wakes and no others, and brings in the addresses `new`. -/
def Edits (L : List HfsLockf) (woken new : List ℕ) (e : Edit) : Prop :=
  ∃ gone, e.woken = woken ++ gone.map Prod.snd ∧
    (waits L).Perm (waits e.list ++ gone) ∧
    ∀ a, (e.list.map HfsLockf.addr).count a ≤ (L.map HfsLockf.addr ++ new).count a

theorem hfsFindoverlap_some {lock : HfsLockf} : ∀ {L : List HfsLockf} {c : OvCase}
    {skipped rest : List HfsLockf}, hfsFindoverlap lock .self L = some (c, skipped, rest) →
    L = skipped ++ rest ∧
    (c ≠ .noOverlap → ∀ ov ∈ rest.head?, ov.lfId = lock.lfId ∧ overlapCase ov lock = some c)
  | [], c, skipped, rest, h => by
    simp only [hfsFindoverlap, Option.some.injEq, Prod.mk.injEq] at h
    obtain ⟨rfl, rfl, rfl⟩ := h
    simp
  | lf :: L, c, skipped, rest, h => by
    have hnext : (hfsFindoverlap lock .self L).map (fun r => (r.1, lf :: r.2.1, r.2.2)) =
        some (c, skipped, rest) → lf :: L = skipped ++ rest ∧ (c ≠ .noOverlap →
          ∀ ov ∈ rest.head?, ov.lfId = lock.lfId ∧ overlapCase ov lock = some c) := by
      intro hm
      obtain ⟨⟨c', s', r'⟩, hr, he⟩ := Option.map_eq_some_iff.mp hm
      simp only [Prod.mk.injEq] at he
      obtain ⟨rfl, rfl, rfl⟩ := he
      obtain ⟨rfl, hov⟩ := hfsFindoverlap_some hr
      exact ⟨rfl, hov⟩
    simp only [hfsFindoverlap] at h
    by_cases hself : lf.lfId = lock.lfId
    · rw [if_neg (by simp [hself])] at h
      cases hc : overlapCase lf lock with
      | none => simp [hc] at h
      | some c' =>
        rw [hc] at h
        cases c' with
        | noOverlap =>
          dsimp only at h
          split_ifs at h
          · simp only [Option.some.injEq, Prod.mk.injEq] at h
            obtain ⟨rfl, rfl, rfl⟩ := h
            simp
          · exact hnext h
        | equal | containsLock | insideLock | startsBefore | endsAfter =>
          simp only [Option.some.injEq, Prod.mk.injEq] at h
          obtain ⟨rfl, rfl, rfl⟩ := h
          simp [hself, hc]
    · rw [if_pos (by simp [hself])] at h
      exact hnext h

theorem Edits.of_turn {L M : List HfsLockf} {woken new : List ℕ} {e : Edit} {a : ℕ} {B : List ℕ}
    (hw : ∀ p, (waits L).count p = (waits M).count p + (B.map (a, ·)).count p)
    (ha : ∀ x, (M.map HfsLockf.addr).count x ≤ (L.map HfsLockf.addr).count x)
    (h : Edits M (woken ++ B) new e) : Edits L woken new e := by
  obtain ⟨gone, hwoken, hperm, hcount⟩ := h
  refine ⟨B.map (a, ·) ++ gone, ?_, ?_, ?_⟩
  · simp [hwoken, comp_def]
  · rw [perm_iff_count] at hperm ⊢
    intro p
    have h1 := hperm p
    have h2 := hw p
    simp only [count_append] at h1 ⊢
    omega
  · intro x
    have h1 := hcount x
    have h2 := ha x
    simp only [count_append] at h1 ⊢
    omega

theorem Edits.of_last {L M : List HfsLockf} {woken new : List ℕ} (a : ℕ) {B : List ℕ}
    (hw : ∀ p, (waits L).count p = (waits M).count p + (B.map (a, ·)).count p)
    (ha : ∀ x, (M.map HfsLockf.addr).count x ≤ (L.map HfsLockf.addr ++ new).count x) :
    Edits L woken new ⟨M, woken ++ B⟩ := by
  refine ⟨B.map (a, ·), by simp [comp_def], ?_, ha⟩
  rw [perm_iff_count]
  intro p
  rw [count_append, hw p]

theorem Edits.of_quiet {L M : List HfsLockf} {woken new : List ℕ}
    (hw : ∀ p, (waits L).count p = (waits M).count p)
    (ha : ∀ x, (M.map HfsLockf.addr).count x ≤ (L.map HfsLockf.addr ++ new).count x) :
    Edits L woken new ⟨M, woken⟩ := by
  simpa using @Edits.of_last L M woken new 0 [] (by simpa using hw) ha

theorem hfsSplit_edit (fresh : ℕ) (ov lock : HfsLockf) :
    waits (hfsSplit fresh (hfsWakelock ov) lock).1 = [] ∧
    waits (hfsSplit fresh (hfsWakelock ov) lock).2 = [] ∧
    ∀ x, ((hfsSplit fresh (hfsWakelock ov) lock).1.map HfsLockf.addr).count x +
      ((hfsSplit fresh (hfsWakelock ov) lock).2.map HfsLockf.addr).count x ≤
        [ov.addr, fresh].count x := by
  unfold hfsSplit
  split_ifs
  all_goals
    refine ⟨rfl, rfl, ?_⟩
    intro x
    simp only [hfsWakelock, map_nil, map_cons, count_nil, count_cons]
    omega

theorem setlockLoop_edits (fresh : ℕ) : ∀ (fuel : ℕ) {lock : HfsLockf} {needtolink : Bool}
    {before mid block : List HfsLockf} {woken : List ℕ} {e : Edit},
    (needtolink = true → mid = []) → lock.lfBlkhd = [] → ¬ SwallowsWaiters lock block →
    setlockLoop fresh fuel lock needtolink before mid block woken = some e →
    Edits (before ++ mid ++ block) woken [lock.addr, fresh] e := by
  intro fuel
  induction fuel with
  | zero => intro _ _ _ _ _ _ _ _ _ _ h; simp [setlockLoop] at h
  | succ fuel ih =>
    intro lock needtolink before mid block woken e hmid hblk hsw h
    rw [setlockLoop] at h
    cases hf : hfsFindoverlap lock .self block with
    | none => simp [hf] at h
    | some r =>
      obtain ⟨c, skipped, rest⟩ := r
      obtain ⟨rfl, hov⟩ := hfsFindoverlap_some hf
      have hsw' : ∀ ov tl, rest = ov :: tl → ¬ SwallowsWaiters lock tl := by
        rintro ov tl rfl ⟨k, hk, hrest⟩
        exact hsw ⟨k, by simp [hk], hrest⟩
      rw [hf] at h
      cases c with
      | noOverlap =>
        dsimp only at h
        split_ifs at h with hn
        · obtain rfl := Option.some.inj h
          obtain rfl := hmid hn
          refine .of_quiet (fun p => ?_) (fun x => ?_)
          · simp [waits_append, waits_cons, hblk]
          · simp [count_cons]
        · obtain rfl := Option.some.inj h
          refine .of_quiet (fun p => ?_) (fun x => ?_)
          · simp [waits_append, waits_cons, hblk]
          · simp [count_cons]
            omega
      | equal =>
        rcases rest with _ | ⟨ov, rest⟩
        · simp at h
        · dsimp only at h
          split_ifs at h with hn hd
          · obtain rfl := Option.some.inj h
            obtain rfl := hmid hn
            refine .of_last ov.addr (fun p => ?_) (fun x => ?_)
            · simp [waits_append, waits_cons, hfsWakelock]
              omega
            · simp [count_cons, hfsWakelock]
          · obtain rfl := Option.some.inj h
            obtain rfl := hmid hn
            refine .of_quiet (fun p => ?_) (fun x => ?_)
            · simp [waits_append, waits_cons]
            · simp [count_cons]
      | containsLock =>
        rcases rest with _ | ⟨ov, rest⟩
        · simp at h
        · dsimp only at h
          split_ifs at h with hn hd
          · obtain rfl := Option.some.inj h
            obtain rfl := hmid hn
            refine .of_quiet (fun p => ?_) (fun x => ?_)
            · simp [waits_append]
            · simp [count_cons]
          · obtain rfl := Option.some.inj h
            obtain rfl := hmid hn
            obtain ⟨h1, h2, h3⟩ := hfsSplit_edit fresh ov lock
            refine .of_last ov.addr (fun p => ?_) (fun x => ?_)
            · simp [waits_append, waits_cons, h1, h2, hblk]
              omega
            · have h3 := h3 x
              simp [count_cons] at h3 ⊢
              omega
      | insideLock =>
        rcases rest with _ | ⟨ov, rest⟩
        · simp at h
        · obtain ⟨hid, hcase⟩ := hov (by simp) ov rfl
          dsimp only at h
          split_ifs at h with hd hn
          · obtain rfl := hmid hn
            refine .of_turn (a := ov.addr) (fun p => ?_) (fun x => ?_)
              (ih (by simp) hblk (hsw' ov rest rfl) h)
            · simp [waits_append, waits_cons]
              omega
            · simp [count_cons]
          · refine .of_turn (a := ov.addr) (fun p => ?_) (fun x => ?_)
              (ih (by simp) hblk (hsw' ov rest rfl) h)
            · simp [waits_append, waits_cons]
              omega
            · simp [count_cons]
          all_goals
            have hov0 : ov.lfBlkhd = [] := by
              by_contra hne
              exact hsw ⟨ov, by simp, hid, hcase, hd, hne⟩
            rw [hov0, append_nil] at h
          · rename_i hn
            obtain rfl := hmid hn
            have hrest := ih (by simp) hblk (hsw' ov rest rfl) h
            refine .of_turn (a := ov.addr) (B := []) (fun p => ?_) (fun x => ?_)
              (by rwa [append_nil])
            · simp [waits_append, waits_cons, hov0]
            · simp [count_cons]
          · have hrest := ih (by simp) hblk (hsw' ov rest rfl) h
            refine .of_turn (a := ov.addr) (B := []) (fun p => ?_) (fun x => ?_)
              (by rwa [append_nil])
            · simp [waits_append, waits_cons, hov0]
            · simp [count_cons]
      | startsBefore =>
        rcases rest with _ | ⟨ov, rest⟩
        · simp at h
        · dsimp only at h
          split_ifs at h with hn
          obtain rfl := hmid hn
          refine .of_turn (a := ov.addr) (fun p => ?_) (fun x => ?_)
            (ih (by simp) hblk (hsw' ov rest rfl) h)
          · simp [waits_append, waits_cons, hfsWakelock]
            omega
          · simp [count_cons, hfsWakelock]
      | endsAfter =>
        rcases rest with _ | ⟨ov, rest⟩
        · simp at h
        · dsimp only at h
          split_ifs at h with hn
          · obtain rfl := Option.some.inj h
            obtain rfl := hmid hn
            refine .of_last ov.addr (fun p => ?_) (fun x => ?_)
            · simp [waits_append, waits_cons, hfsWakelock, hblk]
              omega
            · simp [count_cons, hfsWakelock]
              omega
          · obtain rfl := Option.some.inj h
            refine .of_last ov.addr (fun p => ?_) (fun x => ?_)
            · simp [waits_append, waits_cons, hfsWakelock, hblk]
              omega
            · simp [count_cons, hfsWakelock]
              omega

theorem clearlockLoop_edits (fresh : ℕ) : ∀ (fuel : ℕ) {unlock : HfsLockf}
    {before lf : List HfsLockf} {woken : List ℕ} {e : Edit},
    clearlockLoop fresh fuel unlock before lf woken = some e →
    Edits (before ++ lf) woken [fresh] e := by
  intro fuel
  induction fuel with
  | zero => intro _ _ _ _ _ h; simp [clearlockLoop] at h
  | succ fuel ih =>
    intro unlock before lf woken e h
    rw [clearlockLoop] at h
    cases hf : hfsFindoverlap unlock .self lf with
    | none => simp [hf] at h
    | some r =>
      obtain ⟨c, skipped, rest⟩ := r
      obtain ⟨rfl, -⟩ := hfsFindoverlap_some hf
      rw [hf] at h
      rcases rest with _ | ⟨ov, rest⟩
      · cases c with
        | noOverlap =>
          obtain rfl := Option.some.inj h
          refine .of_quiet (fun p => ?_) (fun x => ?_)
          · simp
          · simp [count_cons]
        | equal | containsLock | insideLock | startsBefore | endsAfter => simp at h
      · cases c with
        | noOverlap =>
          obtain rfl := Option.some.inj h
          refine .of_quiet (fun p => ?_) (fun x => ?_)
          · simp [waits_append]
          · simp [count_cons]
        | equal =>
          obtain rfl := Option.some.inj h
          refine .of_last ov.addr (fun p => ?_) (fun x => ?_)
          · simp [waits_append, waits_cons]
            omega
          · simp [count_cons]
            omega
        | containsLock =>
          obtain rfl := Option.some.inj h
          obtain ⟨h1, h2, h3⟩ := hfsSplit_edit fresh ov unlock
          refine .of_last ov.addr (fun p => ?_) (fun x => ?_)
          · simp [waits_append, waits_cons, h1, h2]
            omega
          · have h3 := h3 x
            simp [count_cons] at h3 ⊢
            omega
        | insideLock =>
          refine .of_turn (a := ov.addr) (fun p => ?_) (fun x => ?_) (ih h)
          · simp [waits_append, waits_cons]
            omega
          · simp [count_cons]
        | startsBefore =>
          refine .of_turn (a := ov.addr) (fun p => ?_) (fun x => ?_) (ih h)
          · simp [waits_append, waits_cons, hfsWakelock]
            omega
          · simp [count_cons, hfsWakelock]
        | endsAfter =>
          obtain rfl := Option.some.inj h
          refine .of_last ov.addr (fun p => ?_) (fun x => ?_)
          · simp [waits_append, waits_cons, hfsWakelock]
            omega
          · simp [count_cons, hfsWakelock]

/-! ## The waiting requests -/

/-- What holds of the waiters of a file between calls. -/
structure WaitersOk (hp : Hfsnode) : Prop where
  addrs : (hp.hLockf.map HfsLockf.addr ++ hp.sleepers.map (fun w => w.lock.addr)).Nodup
  below : ∀ a ∈ hp.hLockf.map HfsLockf.addr ++ hp.sleepers.map (fun w => w.lock.addr),
    a < hp.nextAddr
  blkhd : ∀ w ∈ hp.sleepers, w.lock.lfBlkhd = []
  asleep : ∀ w ∈ hp.sleepers, w.asleep = w.lfNext.isSome
  waits : (Lockf.waits hp.hLockf).Perm (pointers hp.sleepers)

theorem pointers_wakeup (woken : List ℕ) (sl : List Sleeper) :
    pointers (wakeup woken sl) = (pointers sl).filter (fun p => p.2 ∉ woken) := by
  induction sl with
  | nil => rfl
  | cons w sl ih =>
    simp only [wakeup, pointers] at ih
    by_cases hw : w.lock.addr ∈ woken
    · cases hn : w.lfNext <;> simp [wakeup, pointers, hw, hn, ih]
    · cases hn : w.lfNext <;> simp [wakeup, pointers, hw, hn, ih]

theorem pointers_snd_sublist (sl : List Sleeper) :
    ((pointers sl).map Prod.snd).Sublist (sl.map (fun w => w.lock.addr)) := by
  induction sl with
  | nil => simp [pointers]
  | cons w sl ih =>
    simp only [pointers] at ih
    cases hn : w.lfNext with
    | none => simpa [pointers, hn] using ih.cons _
    | some a => simpa [pointers, hn] using ih

theorem waits_wakeup {L : List HfsLockf} {sl : List Sleeper} {new : List ℕ} {e : Edit}
    (hsl : (sl.map (fun w => w.lock.addr)).Nodup) (h : (waits L).Perm (pointers sl))
    (he : Edits L [] new e) : (waits e.list).Perm (pointers (wakeup e.woken sl)) := by
  obtain ⟨gone, hwoken, hperm, -⟩ := he
  rw [nil_append] at hwoken
  have hp : (waits e.list ++ gone).Perm (pointers sl) := hperm.symm.trans h
  have hnodup : ((waits e.list ++ gone).map Prod.snd).Nodup :=
    (hp.map Prod.snd).nodup_iff.mpr ((pointers_snd_sublist sl).nodup hsl)
  rw [map_append, nodup_append] at hnodup
  have hkeep : (waits e.list).filter (fun p => p.2 ∉ e.woken) = waits e.list := by
    rw [filter_eq_self]
    intro p hp
    simp only [decide_eq_true_eq, hwoken]
    intro hg
    exact hnodup.2.2 p.2 (mem_map_of_mem hp) p.2 hg rfl
  have hdrop : gone.filter (fun p => p.2 ∉ e.woken) = [] := by
    rw [filter_eq_nil_iff]
    intro p hp
    simp only [decide_eq_true_eq, not_not, hwoken]
    exact mem_map_of_mem hp
  have hf := hp.filter (fun p => p.2 ∉ e.woken)
  rwa [filter_append, hkeep, hdrop, append_nil, ← pointers_wakeup] at hf

theorem wakeup_addrs (woken : List ℕ) (sl : List Sleeper) :
    (wakeup woken sl).map (fun w => w.lock.addr) = sl.map (fun w => w.lock.addr) := by
  simp only [wakeup, map_map]
  refine map_congr_left (fun w _ => ?_)
  simp only [comp_apply]
  split <;> rfl

theorem WaitersOk.edit {hp : Hfsnode} (h : WaitersOk hp) {new : List ℕ} {n : ℕ} {e : Edit}
    (he : Edits hp.hLockf [] new e)
    (hnew : (hp.hLockf.map HfsLockf.addr ++ new ++ hp.sleepers.map (fun w => w.lock.addr)).Nodup)
    (hbelow : ∀ a ∈ new, a < n) (hn : hp.nextAddr ≤ n) :
    WaitersOk ⟨e.list, wakeup e.woken hp.sleepers, n⟩ := by
  have hcount : ∀ x, (e.list.map HfsLockf.addr ++ hp.sleepers.map (fun w => w.lock.addr)).count x ≤
      (hp.hLockf.map HfsLockf.addr ++ new ++ hp.sleepers.map (fun w => w.lock.addr)).count x := by
    intro x
    obtain ⟨-, -, -, hc⟩ := he
    have hc := hc x
    simp only [count_append] at hc ⊢
    omega
  have hsl : (hp.sleepers.map (fun w => w.lock.addr)).Nodup := (nodup_append.mp h.addrs).2.1
  refine ⟨?_, ?_, ?_, ?_, waits_wakeup hsl h.waits he⟩
  · rw [wakeup_addrs, nodup_iff_count_le_one]
    intro x
    exact (hcount x).trans (nodup_iff_count_le_one.mp hnew x)
  · rw [wakeup_addrs]
    intro a ha
    have hmem := count_pos_iff.mp ((count_pos_iff.mpr ha).trans_le (hcount a))
    rcases mem_append.mp hmem with hm | hm
    · rcases mem_append.mp hm with hm | hm
      · exact (h.below a (mem_append_left _ hm)).trans_le hn
      · exact hbelow a hm
    · exact (h.below a (mem_append_right _ hm)).trans_le hn
  · intro w hw
    obtain ⟨v, hv, rfl⟩ := mem_map.mp hw
    have hb := h.blkhd v hv
    split
    · exact hb
    · exact hb
  · intro w hw
    obtain ⟨v, hv, rfl⟩ := mem_map.mp hw
    have ha := h.asleep v hv
    split
    · rfl
    · exact ha

/-- The address is given to no lock and to no request of the file. -/
def Unused (hp : Hfsnode) (a : ℕ) : Prop :=
  a ∉ hp.hLockf.map HfsLockf.addr ++ hp.sleepers.map (fun w => w.lock.addr)

theorem WaitersOk.unused {hp : Hfsnode} (h : WaitersOk hp) {a : ℕ} (ha : hp.nextAddr ≤ a) :
    Unused hp a := by
  intro hm
  exact absurd (h.below a hm) (not_lt.mpr ha)

theorem hfsClearlock_run {unlock : HfsLockf} {hp hp' : Hfsnode} (hc : hfsClearlock unlock hp = some hp') :
    ∃ e, clearlockLoop hp.nextAddr (hp.hLockf.length + 1) unlock [] hp.hLockf [] = some e ∧
      hp' = ⟨e.list, wakeup e.woken hp.sleepers, hp.nextAddr + 1⟩ := by
  unfold hfsClearlock at hc
  split at hc
  · cases hc
  · next e he => exact ⟨e, he, (Option.some.inj hc).symm⟩

theorem WaitersOk.clearlock {unlock : HfsLockf} {hp hp' : Hfsnode} (h : WaitersOk hp)
    (hc : hfsClearlock unlock hp = some hp') : WaitersOk hp' := by
  obtain ⟨e, he, rfl⟩ := hfsClearlock_run hc
  have hun := h.unused (le_refl hp.nextAddr)
  refine h.edit (clearlockLoop_edits _ _ he) ?_ (by simp) (Nat.le_succ _)
  have hnd := h.addrs
  simp only [Unused, mem_append, not_or] at hun
  simp only [nodup_append, mem_append, mem_singleton] at hnd ⊢
  grind

theorem WaitersOk.grant {lock : HfsLockf} {hp : Hfsnode} {r : Result} (h : WaitersOk hp)
    (hb : lock.lfBlkhd = []) (hun : Unused hp lock.addr) (hlt : lock.addr < hp.nextAddr)
    (hsw : ¬ SwallowsWaiters lock hp.hLockf) (hg : Lockf.grant lock hp = some r) :
    WaitersOk r.node := by
  unfold Lockf.grant at hg
  cases he : setlockLoop hp.nextAddr (hp.hLockf.length + 1) lock true [] [] hp.hLockf [] with
  | none => simp [he] at hg
  | some e =>
    simp only [he, Option.some.injEq] at hg
    subst hg
    have hun' := h.unused (le_refl hp.nextAddr)
    refine h.edit (setlockLoop_edits _ _ (fun _ => rfl) hb hsw he) ?_ ?_ (Nat.le_succ _)
    · have hnd := h.addrs
      have hne : lock.addr ≠ hp.nextAddr := hlt.ne
      simp only [Unused, mem_append, not_or] at hun hun'
      simp only [nodup_append, mem_append, mem_cons] at hnd ⊢
      grind
    · intro a ha
      simp only [mem_cons, not_mem_nil, or_false] at ha
      omega

theorem map_off_addr {A : List HfsLockf} {x : ℕ} (h : ∀ a ∈ A, a.addr ≠ x)
    (f : HfsLockf → HfsLockf) : A.map (fun a => if a.addr = x then f a else a) = A := by
  induction A with
  | nil => rfl
  | cons a A ih =>
    rw [map_cons, if_neg (h a mem_cons_self),
      ih (fun b hb => h b (mem_cons_of_mem _ hb))]

theorem map_at_addr {L : List HfsLockf} (h : (L.map HfsLockf.addr).Nodup) {l : HfsLockf}
    (hl : l ∈ L) (f : HfsLockf → HfsLockf) : ∃ A B, L = A ++ l :: B ∧
      L.map (fun a => if a.addr = l.addr then f a else a) = A ++ f l :: B := by
  obtain ⟨A, B, rfl⟩ := append_of_mem hl
  refine ⟨A, B, rfl, ?_⟩
  simp only [map_append, map_cons, nodup_append, nodup_cons, mem_map,
    mem_cons] at h
  rw [map_append, map_cons, if_pos rfl, map_off_addr, map_off_addr]
  · intro b hb he
    exact h.2.1.1 ⟨b, hb, he⟩
  · intro a ha he
    exact h.2.2 a.addr ⟨a, ha, rfl⟩ l.addr (Or.inl rfl) he

theorem map_addr_eq {f : HfsLockf → HfsLockf} (hf : ∀ l, (f l).addr = l.addr) (x : ℕ)
    (L : List HfsLockf) :
    (L.map (fun a => if a.addr = x then f a else a)).map HfsLockf.addr = L.map HfsLockf.addr := by
  rw [map_map]
  refine map_congr_left (fun a _ => ?_)
  simp only [comp_apply]
  split
  · exact hf a
  · rfl

theorem WaitersOk.sleepOn {proc : ℕ} {lock block : HfsLockf} {hp : Hfsnode} (h : WaitersOk hp)
    (hb : lock.lfBlkhd = []) (hun : Unused hp lock.addr) (hlt : lock.addr < hp.nextAddr)
    (hblock : block.addr ∈ hp.hLockf.map HfsLockf.addr) :
    WaitersOk (Lockf.sleepOn proc lock block hp) := by
  have haddr : (insertBlocked block.addr lock.addr hp.hLockf).map HfsLockf.addr =
      hp.hLockf.map HfsLockf.addr :=
    map_addr_eq (f := fun a => { a with lfBlkhd := a.lfBlkhd ++ [lock.addr] }) (fun _ => rfl) _ _
  refine ⟨?_, ?_, ?_, ?_, ?_⟩
  · have hnd := h.addrs
    simp only [Lockf.sleepOn, haddr]
    simp only [Unused, mem_append, not_or] at hun
    simp only [nodup_append, map_cons, nodup_cons, mem_cons] at hnd ⊢
    grind
  · have hbel := h.below
    simp only [Lockf.sleepOn, haddr]
    simp only [map_cons, mem_append, mem_cons] at hbel ⊢
    grind
  · intro w hw
    rcases mem_cons.mp hw with rfl | hw
    · exact hb
    · exact h.blkhd w hw
  · intro w hw
    rcases mem_cons.mp hw with rfl | hw
    · rfl
    · exact h.asleep w hw
  · obtain ⟨l, hl, hla⟩ := mem_map.mp hblock
    obtain ⟨A, B, hL, hmap⟩ := map_at_addr (nodup_append.mp h.addrs).1 hl
      (fun a => { a with lfBlkhd := a.lfBlkhd ++ [lock.addr] })
    have hw := h.waits
    simp only [Lockf.sleepOn, insertBlocked, ← hla]
    rw [hmap]
    rw [hL] at hw
    rw [perm_iff_count] at hw ⊢
    intro p
    have hp := hw p
    simp only [pointers] at hp
    simp only [waits_append, waits_cons, pointers, count_append, map_append,
      map_cons, map_nil, filterMap_cons, Option.map_some, count_cons,
      count_nil] at hp ⊢
    omega

theorem sleeper_split {hp : Hfsnode} (h : WaitersOk hp) {addr : ℕ} {w : Sleeper}
    (hw : hp.sleeper addr = some w) : w.lock.addr = addr ∧
      ∃ A B, hp.sleepers = A ++ w :: B ∧ (hp.forget addr).sleepers = A ++ B := by
  have haddr : w.lock.addr = addr := by simpa using List.find?_some hw
  obtain ⟨A, B, hsl⟩ := append_of_mem (mem_of_find?_eq_some hw)
  refine ⟨haddr, A, B, hsl, ?_⟩
  have hnd := (nodup_append.mp h.addrs).2.1
  rw [hsl] at hnd
  simp only [map_append, map_cons, nodup_append, nodup_cons, mem_map,
    mem_cons] at hnd
  simp only [Hfsnode.forget, hsl, filter_append]
  rw [filter_cons_of_neg (by simp [haddr]), filter_eq_self.mpr, filter_eq_self.mpr]
  · intro v hv
    simp only [ne_eq, decide_eq_true_eq]
    intro he
    exact hnd.2.1.1 ⟨v, hv, he.trans haddr.symm⟩
  · intro v hv
    simp only [ne_eq, decide_eq_true_eq]
    intro he
    exact hnd.2.2 v.lock.addr ⟨v, hv, rfl⟩ w.lock.addr (Or.inl rfl) (he.trans haddr.symm)

theorem WaitersOk.forget {hp : Hfsnode} (h : WaitersOk hp) {addr : ℕ} {w : Sleeper}
    (hw : hp.sleeper addr = some w) {L : List HfsLockf}
    (hL : L.map HfsLockf.addr = hp.hLockf.map HfsLockf.addr)
    (hwaits : (Lockf.waits hp.hLockf).Perm
      ((w.lfNext.map (·, addr)).toList ++ Lockf.waits L)) :
    WaitersOk ({ hp with hLockf := L }.forget addr) ∧
      Unused ({ hp with hLockf := L }.forget addr) addr := by
  obtain ⟨haddr, A, B, hsl, hfor⟩ := sleeper_split h hw
  have hfor' : ({ hp with hLockf := L }.forget addr).sleepers = A ++ B := hfor
  have hnd := h.addrs
  have hbel := h.below
  rw [hsl] at hnd hbel
  refine ⟨⟨?_, ?_, ?_, ?_, ?_⟩, ?_⟩
  · rw [hfor']
    simp only [Hfsnode.forget, hL]
    refine hnd.sublist (List.Sublist.append_left (List.Sublist.map _ ?_) _)
    exact List.Sublist.append_left (sublist_cons_self _ _) _
  · rw [hfor']
    simp only [Hfsnode.forget, hL]
    intro a ha
    apply hbel a
    simp only [map_append, map_cons, mem_append, mem_cons] at ha ⊢
    tauto
  · intro v hv
    exact h.blkhd v (mem_of_mem_filter hv)
  · intro v hv
    exact h.asleep v (mem_of_mem_filter hv)
  · have hp := h.waits
    rw [hfor']
    rw [hsl] at hp
    rw [perm_iff_count] at hp hwaits ⊢
    intro p
    have h1 := hp p
    have h2 := hwaits p
    simp only [Hfsnode.forget, pointers, filterMap_append, count_append,
      filterMap_cons, haddr] at h1 h2 ⊢
    cases hn : w.lfNext with
    | none =>
      simp only [hn, Option.map_none, Option.toList_none, count_nil] at h1 h2
      omega
    | some a =>
      simp only [hn, Option.map_some, Option.toList_some, count_cons, count_nil] at h1 h2
      omega
  · simp only [Unused]
    rw [hfor']
    simp only [Hfsnode.forget, hL]
    simp only [map_append, map_cons, nodup_append, nodup_cons,
      mem_append, mem_cons, haddr] at hnd ⊢
    grind

/-! ## The calls -/

theorem hfsGetblock_some {lock block : HfsLockf} {L : List HfsLockf}
    (h : hfsGetblock lock L = some (some block)) : block ∈ L ∧ block.lfId ≠ lock.lfId := by
  induction L with
  | nil => simp [hfsGetblock] at h
  | cons lf L ih =>
    rw [hfsGetblock] at h
    have hrest : hfsGetblock lock L = some (some block) →
        block ∈ lf :: L ∧ block.lfId ≠ lock.lfId := fun h' =>
      ⟨mem_cons_of_mem _ (ih h').1, (ih h').2⟩
    by_cases hself : lf.lfId = lock.lfId
    · rw [if_pos hself] at h
      exact hrest h
    · rw [if_neg hself] at h
      cases hc : overlapCase lf lock with
      | none => simp [hc] at h
      | some c =>
        rw [hc] at h
        cases c with
        | noOverlap => exact hrest h
        | equal | containsLock | insideLock | startsBefore | endsAfter =>
          by_cases hw : lock.lfType = .wrlck ∨ lf.lfType = .wrlck
          · rw [if_pos hw] at h
            obtain rfl := Option.some.inj (Option.some.inj h)
            exact ⟨mem_cons_self, hself⟩
          · exact hrest (by simpa [hw] using h)

theorem clearlockLoop_keeps (fresh : ℕ) : ∀ (fuel : ℕ) {unlock : HfsLockf}
    {before lf : List HfsLockf} {woken : List ℕ} {e : Edit},
    clearlockLoop fresh fuel unlock before lf woken = some e →
    ∀ l ∈ before ++ lf, l.lfId ≠ unlock.lfId → l ∈ e.list := by
  intro fuel
  induction fuel with
  | zero => intro _ _ _ _ _ h; simp [clearlockLoop] at h
  | succ fuel ih =>
    intro unlock before lf woken e h l hl hid
    rw [clearlockLoop] at h
    cases hf : hfsFindoverlap unlock .self lf with
    | none => simp [hf] at h
    | some r =>
      obtain ⟨c, skipped, rest⟩ := r
      obtain ⟨rfl, hov⟩ := hfsFindoverlap_some hf
      rw [hf] at h
      rcases rest with _ | ⟨ov, rest⟩
      · cases c with
        | noOverlap =>
          obtain rfl := Option.some.inj h
          simpa using hl
        | equal | containsLock | insideLock | startsBefore | endsAfter => simp at h
      · have hl' : c ≠ .noOverlap → l ∈ before ++ skipped ++ rest := by
          intro hc
          have hne : l ≠ ov := fun he => hid (he ▸ (hov hc ov rfl).1)
          simp only [mem_append, mem_cons] at hl ⊢
          tauto
        cases c with
        | noOverlap =>
          obtain rfl := Option.some.inj h
          simpa using hl
        | equal =>
          obtain rfl := Option.some.inj h
          exact hl' (by simp)
        | containsLock =>
          obtain rfl := Option.some.inj h
          have hm := hl' (by simp)
          simp only [mem_append] at hm ⊢
          tauto
        | insideLock => exact ih h l (hl' (by simp)) hid
        | startsBefore =>
          refine ih h l ?_ hid
          have hm := hl' (by simp)
          simp only [mem_append, mem_cons] at hm ⊢
          tauto
        | endsAfter =>
          obtain rfl := Option.some.inj h
          have hm := hl' (by simp)
          simp only [mem_append, mem_cons] at hm ⊢
          tauto

theorem hfsClearlock_keeps {unlock l : HfsLockf} {hp hp' : Hfsnode}
    (hc : hfsClearlock unlock hp = some hp') (hl : l ∈ hp.hLockf) (hid : l.lfId ≠ unlock.lfId) :
    l ∈ hp'.hLockf := by
  obtain ⟨e, he, rfl⟩ := hfsClearlock_run hc
  exact clearlockLoop_keeps _ _ he l hl hid

theorem hfsClearlock_unused {unlock : HfsLockf} {hp hp' : Hfsnode}
    (hc : hfsClearlock unlock hp = some hp') {a : ℕ} (hun : Unused hp a) (hlt : a < hp.nextAddr) :
    Unused hp' a ∧ a < hp'.nextAddr := by
  obtain ⟨e, he, rfl⟩ := hfsClearlock_run hc
  obtain ⟨-, -, -, hcount⟩ := clearlockLoop_edits _ _ he
  refine ⟨?_, hlt.trans (Nat.lt_succ_self _)⟩
  have hne : hp.nextAddr ≠ a := hlt.ne'
  have hca := hcount a
  simp only [Unused, mem_append, not_or] at hun ⊢
  rw [wakeup_addrs]
  refine ⟨?_, hun.2⟩
  intro hm
  have hpos := count_pos_iff.mpr hm
  simp [count_append, count_eq_zero.mpr hun.1, hne] at hca
  omega

theorem hfsSetlock_waiters {proc : ℕ} {lock : HfsLockf} {channels : WaitChannels} {hp : Hfsnode}
    {r : Result} (h : WaitersOk hp) (hb : lock.lfBlkhd = []) (hun : Unused hp lock.addr)
    (hlt : lock.addr < hp.nextAddr)
    (hsw : hfsGetblock lock hp.hLockf = some none → ¬ SwallowsWaiters lock hp.hLockf)
    (he : hfsSetlock proc lock channels hp = some r) : WaitersOk r.node := by
  obtain ⟨hg, he⟩ | ⟨block, hg, hcases⟩ := hfsSetlock_cases he
  · exact h.grant hb hun hlt (hsw hg) he
  · obtain ⟨hmem, hid⟩ := hfsGetblock_some hg
    rcases hcases with ⟨hnode, -⟩ | ⟨hp', hc, rfl⟩ | rfl
    · rw [hnode]
      exact h
    · obtain ⟨hun', hlt'⟩ := hfsClearlock_unused hc hun hlt
      exact (h.clearlock hc).sleepOn hb hun' hlt' (mem_map_of_mem (hfsClearlock_keeps hc hmem hid))
    · exact h.sleepOn hb hun hlt (mem_map_of_mem hmem)

/-- The call would be granted and swallow a lock that has waiters. -/
def Event.Swallows (hp : Hfsnode) : Event → Prop
  | .setlock r _ => hfsGetblock (r.lock hp.nextAddr) hp.hLockf = some none ∧
      SwallowsWaiters (r.lock hp.nextAddr) hp.hLockf
  | .clearlock _ => False
  | .resume addr _ => ∃ w ∈ hp.sleeper addr, hfsGetblock w.lock hp.hLockf = some none ∧
      SwallowsWaiters w.lock hp.hLockf
  | .interrupt _ => False

instance (hp : Hfsnode) : (e : Event) → Decidable (e.Swallows hp)
  | .setlock _ _ => inferInstanceAs (Decidable (_ ∧ _))
  | .clearlock _ => inferInstanceAs (Decidable False)
  | .resume addr _ => inferInstanceAs (Decidable (∃ w ∈ hp.sleeper addr, _))
  | .interrupt _ => inferInstanceAs (Decidable False)

theorem WaitersOk.bump {hp : Hfsnode} (h : WaitersOk hp) :
    WaitersOk { hp with nextAddr := hp.nextAddr + 1 } :=
  ⟨h.addrs, fun a ha => (h.below a ha).trans (Nat.lt_succ_self _), h.blkhd, h.asleep, h.waits⟩

theorem WaitersOk.forget_woken {hp : Hfsnode} (h : WaitersOk hp) {addr : ℕ} {w : Sleeper}
    (hw : hp.sleeper addr = some w) (hn : w.lfNext = none) :
    WaitersOk (hp.forget addr) ∧ Unused (hp.forget addr) addr :=
  h.forget hw rfl (by simp [hn])

theorem WaitersOk.removeBlocked {hp : Hfsnode} (h : WaitersOk hp) {addr a : ℕ} {w : Sleeper}
    (hw : hp.sleeper addr = some w) (hn : w.lfNext = some a) :
    (Lockf.waits hp.hLockf).Perm ((a, addr) :: Lockf.waits (removeBlocked a addr hp.hLockf)) := by
  have haddr : w.lock.addr = addr := by simpa using List.find?_some hw
  have hmem : (a, addr) ∈ Lockf.waits hp.hLockf := by
    rw [h.waits.mem_iff, mem_pointers]
    exact ⟨w, mem_of_find?_eq_some hw, hn, haddr⟩
  obtain ⟨l, hl, rfl, hblk⟩ := mem_waits.mp hmem
  obtain ⟨A, B, hL, hmap⟩ := map_at_addr (nodup_append.mp h.addrs).1 hl
    (fun k => { k with lfBlkhd := k.lfBlkhd.erase addr })
  have hperm : (l.lfBlkhd.map (l.addr, ·)).Perm
      ((l.addr, addr) :: (l.lfBlkhd.erase addr).map (l.addr, ·)) :=
    (perm_cons_erase hblk).map (l.addr, ·)
  rw [Lockf.removeBlocked, hmap, hL]
  rw [perm_iff_count] at hperm ⊢
  intro p
  have hp := hperm p
  simp only [waits_append, waits_cons, count_append, count_cons] at hp ⊢
  omega

theorem step_waiters {hp : Hfsnode} {e : Event} {r : Result} (h : WaitersOk hp)
    (hsw : ¬ e.Swallows hp) (he : step hp e = some r) : WaitersOk r.node := by
  cases e with
  | setlock q channels =>
    simp only [step] at he
    split_ifs at he
    refine hfsSetlock_waiters h.bump rfl (h.unused (le_refl _)) (Nat.lt_succ_self _) ?_ he
    intro hg hs
    exact hsw ⟨hg, hs⟩
  | clearlock q =>
    simp only [step] at he
    split_ifs at he
    obtain ⟨hp', hc, rfl⟩ := Option.map_eq_some_iff.mp he
    exact h.bump.clearlock hc
  | resume addr channels =>
    simp only [step] at he
    cases hw : hp.sleeper addr with
    | none => simp [hw] at he
    | some w =>
      rw [hw] at he
      dsimp only at he
      split_ifs at he with ha
      have hmem := mem_of_find?_eq_some hw
      have haddr : w.lock.addr = addr := by simpa using List.find?_some hw
      have hn : w.lfNext = none := by
        have hs := h.asleep w hmem
        rw [Bool.eq_false_iff.mpr ha] at hs
        simpa using hs.symm
      obtain ⟨hf, hun⟩ := h.forget_woken hw hn
      refine hfsSetlock_waiters hf (h.blkhd w hmem) (haddr ▸ hun) ?_ ?_ he
      · exact h.below _ (mem_append_right _ (mem_map_of_mem hmem))
      · intro hg hs
        exact hsw ⟨w, hw, hg, hs⟩
  | interrupt addr =>
    simp only [step] at he
    cases hw : hp.sleeper addr with
    | none => simp [hw] at he
    | some w =>
      rw [hw] at he
      cases hn : w.lfNext with
      | none =>
        simp only [hn, Option.some.injEq] at he
        subst he
        exact (h.forget_woken hw hn).1
      | some a =>
        simp only [hn, Option.some.injEq] at he
        subst he
        refine (h.forget hw ?_ ?_).1
        · exact map_addr_eq (f := fun k => { k with lfBlkhd := k.lfBlkhd.erase addr })
            (fun _ => rfl) _ _
        · simpa [hn] using h.removeBlocked hw hn

/-! ## Whole runs -/

def stepNode (hp : Hfsnode) (e : Event) (hp' : Hfsnode) : Prop :=
  ∃ r, stepEarly hp e = some r ∧ hp' = r.node

/-- `tsleep` returns 0 to a request that nobody has woken. -/
def Event.Early (hp : Hfsnode) : Event → Prop
  | .resume addr _ => ∃ w ∈ hp.sleeper addr, w.asleep = true
  | _ => False

instance (hp : Hfsnode) : (e : Event) → Decidable (e.Early hp)
  | .setlock _ _ => inferInstanceAs (Decidable False)
  | .clearlock _ => inferInstanceAs (Decidable False)
  | .resume addr _ => inferInstanceAs (Decidable (∃ w ∈ hp.sleeper addr, _))
  | .interrupt _ => inferInstanceAs (Decidable False)

theorem step_of_stepEarly {hp : Hfsnode} {e : Event} {r : Result} (hearly : ¬ e.Early hp)
    (he : stepEarly hp e = some r) : step hp e = some r := by
  cases e with
  | setlock q channels => exact he
  | clearlock q => exact he
  | interrupt addr => exact he
  | resume addr channels =>
    rw [stepEarly] at he
    rw [step]
    cases hw : hp.sleeper addr with
    | none =>
      rw [hw] at he
      cases he
    | some w =>
      rw [hw] at he
      have hawake : ¬ w.asleep = true := fun ha => hearly ⟨w, hw, ha⟩
      dsimp only at he ⊢
      rw [if_neg hawake]
      exact he

/-- The steps in which every waiter keeps its lock: the range is sound, no lock with waiters is
swallowed, and no sleep ends before the request is woken. -/
def Keeps (hp : Hfsnode) (e : Event) : Prop := e.Ranged ∧ ¬ e.Swallows hp ∧ ¬ e.Early hp

instance (hp : Hfsnode) (e : Event) : Decidable (Keeps hp e) :=
  inferInstanceAs (Decidable (_ ∧ _ ∧ _))

theorem run_waiters {as : List Event} {t : Hfsnode}
    (hr : RunUnder Keeps stepNode Hfsnode.init as t) :
    WaitersOk t ∧ Sound t := by
  refine RunUnder.invariant (I := fun t => WaitersOk t ∧ Sound t) ?_ hr ?_
  · rintro s e t ⟨hw, hs⟩ ⟨hrange, hsw, hearly⟩ ⟨r, he, rfl⟩
    replace he := step_of_stepEarly hearly he
    exact ⟨step_waiters hw hsw he, (step_refines hs hrange he).1⟩
  · exact ⟨⟨by simp [Hfsnode.init], by simp [Hfsnode.init], by simp [Hfsnode.init],
      by simp [Hfsnode.init], .refl _⟩, Sound.init⟩

theorem WaitersOk.waitsFor {hp : Hfsnode} (h : WaitersOk hp) {w : Sleeper}
    (hw : w ∈ hp.sleepers) (ha : w.asleep = true) :
    ∃ l ∈ hp.hLockf, w.lfNext = some l.addr ∧ w.lock.addr ∈ l.lfBlkhd := by
  have hs : w.lfNext.isSome = true := (h.asleep w hw).symm.trans ha
  obtain ⟨a, hn⟩ := Option.isSome_iff_exists.mp hs
  have hmem : (a, w.lock.addr) ∈ Lockf.waits hp.hLockf := by
    rw [h.waits.mem_iff, mem_pointers]
    exact ⟨w, hw, hn, rfl⟩
  obtain ⟨l, hl, rfl, hblk⟩ := mem_waits.mp hmem
  exact ⟨l, hl, hn, hblk⟩

theorem WaitersOk.next_of_blocked {hp : Hfsnode} (h : WaitersOk hp) {w : Sleeper}
    (hw : w ∈ hp.sleepers) {l : HfsLockf} (hl : l ∈ hp.hLockf) (hb : w.lock.addr ∈ l.lfBlkhd) :
    w.lfNext = some l.addr := by
  have hmem : (l.addr, w.lock.addr) ∈ pointers hp.sleepers := by
    rw [← h.waits.mem_iff, mem_waits]
    exact ⟨l, hl, rfl, hb⟩
  obtain ⟨v, hv, hn, hva⟩ := mem_pointers.mp hmem
  have hnd := (nodup_append.mp h.addrs).2.1
  obtain rfl := inj_on_of_nodup_map hnd hv hw hva
  exact hn

theorem WaitersOk.eq_of_addr {hp : Hfsnode} (h : WaitersOk hp) {l l' : HfsLockf}
    (hl : l ∈ hp.hLockf) (hl' : l' ∈ hp.hLockf) (ha : l.addr = l'.addr) : l = l' :=
  inj_on_of_nodup_map (nodup_append.mp h.addrs).1 hl hl' ha

theorem WaitersOk.count_blocked {hp : Hfsnode} (h : WaitersOk hp) {l : HfsLockf}
    (hl : l ∈ hp.hLockf) {w : ℕ} (hb : w ∈ l.lfBlkhd) : l.lfBlkhd.count w = 1 := by
  have hnd : ((Lockf.waits hp.hLockf).map Prod.snd).Nodup :=
    (h.waits.map Prod.snd).nodup_iff.mpr
      ((pointers_snd_sublist _).nodup (nodup_append.mp h.addrs).2.1)
  obtain ⟨A, B, hL⟩ := append_of_mem hl
  rw [hL, waits_append, waits_cons, map_append, map_append] at hnd
  have hblk := (nodup_append.mp (nodup_append.mp hnd).2.1).1
  rw [map_map] at hblk
  exact count_eq_one_of_mem (by simpa [comp_def] using hblk) hb

theorem WaitersOk.deadlockWalk_isSome {hp : Hfsnode} (h : WaitersOk hp) (channels : WaitChannels)
    (id : ℕ) : ∀ depth wproc, ∃ b, deadlockWalk hp channels id depth wproc = some b
  | 0, _ => ⟨false, rfl⟩
  | depth + 1, wproc => by
    rw [deadlockWalk]
    by_cases hset : wproc ∉ channels.set
    · exact ⟨false, if_pos hset⟩
    rw [if_neg hset]
    cases hf : hp.sleepers.find? (fun w => w.proc = wproc ∧ w.asleep = true) with
    | none => exact ⟨channels.elsewhere, rfl⟩
    | some w =>
      have hw := List.find?_some hf
      simp only [decide_eq_true_eq] at hw
      obtain ⟨l, hl, hn, -⟩ := h.waitsFor (mem_of_find?_eq_some hf) hw.2
      have hs : (hp.hLockf.find? (fun k => k.addr = l.addr)).isSome = true :=
        List.find?_isSome.mpr ⟨l, hl, by simp⟩
      obtain ⟨k, hk⟩ := Option.isSome_iff_exists.mp hs
      simp only [hn, Option.bind_some, hk]
      split_ifs
      · exact ⟨_, rfl⟩
      · exact ⟨_, rfl⟩
      · exact h.deadlockWalk_isSome channels id depth k.lfId

theorem hfsSetlock_isSome (proc : ℕ) (lock : HfsLockf) (channels : WaitChannels) {hp : Hfsnode}
    (h : WaitersOk hp) (hs : Sound hp) (hl : lock.Ranged) :
    ∃ r, hfsSetlock proc lock channels hp = some r := by
  obtain ⟨b, hb⟩ := hfsGetblock_isSome hl hs.ranges.ranged
  rw [hfsSetlock, hb]
  cases b with
  | none =>
    obtain ⟨r, hr, -⟩ := grant_spec hs.ranges hl hb
    exact ⟨r, hr⟩
  | some block =>
    obtain ⟨walk, hwalk⟩ := h.deadlockWalk_isSome channels lock.lfId maxdepth block.lfId
    obtain ⟨hp', hc, -⟩ := hfsClearlock_spec { lock with lfType := .unlck } hp hs.ranges hl
    simp only [hwalk, hc]
    split_ifs
    all_goals first | exact ⟨_, rfl⟩ | (cases walk <;> exact ⟨_, rfl⟩)

/-- In every state reached by requests with sound ranges that swallow no lock with
waiters, while `tsleep` returns 0 to woken requests only, a sleeping request stands once on the blocked list of one lock, which is on the
list of the file and is the one its `lf_next` points to. The walk of the deadlock check
meets live locks only, and a further such request does not fail. -/
theorem sleeping_request_on_one_live_lock {as : List Event} {t : Hfsnode}
    (hr : RunUnder Keeps stepNode Hfsnode.init as t) :
    (∀ w ∈ t.sleepers, w.asleep = true → ∃ l ∈ t.hLockf, w.lfNext = some l.addr ∧
      l.lfBlkhd.count w.lock.addr = 1 ∧
      ∀ l' ∈ t.hLockf, w.lock.addr ∈ l'.lfBlkhd ∨ w.lfNext = some l'.addr → l' = l) ∧
    (∀ channels id depth wproc, deadlockWalk t channels id depth wproc ≠ none) ∧
    (∀ (q : Request) (channels : WaitChannels), Ranged q.start q.stop → q.type ≠ .unlck →
      (∀ w ∈ t.sleepers, w.proc ≠ q.proc) → step t (.setlock q channels) ≠ none) := by
  obtain ⟨hw, hs⟩ := run_waiters hr
  refine ⟨?_, ?_, ?_⟩
  · intro w hmem ha
    obtain ⟨l, hl, hn, hb⟩ := hw.waitsFor hmem ha
    refine ⟨l, hl, hn, hw.count_blocked hl hb, ?_⟩
    intro l' hl' h
    have hn' : w.lfNext = some l'.addr := h.elim (hw.next_of_blocked hmem hl') id
    exact hw.eq_of_addr hl' hl (Option.some.inj (hn'.symm.trans hn))
  · intro channels id depth wproc hnone
    obtain ⟨b, hb⟩ := hw.deadlockWalk_isSome channels id depth wproc
    simp [hb] at hnone
  · intro q channels hq hu hproc hnone
    have hc : ¬ (t.sleepers.any (fun w => w.proc = q.proc) = true ∨ q.type = .unlck) :=
      not_or.mpr ⟨by simpa using hproc, hu⟩
    obtain ⟨r, hr⟩ := hfsSetlock_isSome q.proc (q.lock t.nextAddr) channels hw.bump ⟨hs.ranges, hs.sleepers⟩ hq
    rw [step, if_neg hc, hr] at hnone
    simp at hnone

/-- Two shared locks on one byte and a writer that waits for the first of them. -/
theorem sleeping_request_on_one_live_lock_writer :
    ∃ (as : List Event) (t : Hfsnode),
      RunUnder Keeps stepNode Hfsnode.init as t ∧
      ∃ w ∈ t.sleepers, w.asleep = true ∧ ∃ l ∈ t.hLockf, w.lfNext = some l.addr := by
  have hr : RunUnder Keeps stepNode Hfsnode.init
      ([] ++ [.setlock ⟨1, ⟨true, true, false⟩, .rdlck, 0, -1, 1⟩ ⟨[], false⟩] ++
        [.setlock ⟨2, ⟨true, true, false⟩, .wrlck, 0, 4, 2⟩ ⟨[], false⟩]) _ :=
    .snoc (.snoc (.nil _) ⟨by decide, _, rfl, rfl⟩) ⟨by decide, _, rfl, rfl⟩
  refine ⟨_, _, hr, _, mem_cons_self, rfl, ?_⟩
  obtain ⟨l, hl, hn, -⟩ := (sleeping_request_on_one_live_lock hr).1 _ mem_cons_self rfl
  exact ⟨l, hl, hn⟩

/-- An owner grows the lock that another process waits for. The new lock takes the waiter
over and the old one is freed, but the waiter still points to it. And a sleep that ends early puts its
request on the blocked list once more. -/
theorem waiters_lose_their_lock :
    (∃ (as : List Event) (t : Hfsnode), (∀ e ∈ as, e.Ranged) ∧ Run stepNode Hfsnode.init as t ∧
      (∃ w ∈ t.sleepers, w.asleep = true ∧ ∀ l ∈ t.hLockf, w.lfNext ≠ some l.addr) ∧
      deadlockWalk t ⟨[2], false⟩ 1 maxdepth 2 = none) ∧
    ∃ (as : List Event) (t : Hfsnode), (∀ e ∈ as, e.Ranged) ∧ Run stepNode Hfsnode.init as t ∧
      ∃ w ∈ t.sleepers, w.asleep = true ∧ ∃ l ∈ t.hLockf, l.lfBlkhd.count w.lock.addr = 2 := by
  constructor
  · refine ⟨[] ++ [.setlock ⟨1, ⟨true, true, false⟩, .wrlck, 2, 3, 1⟩ ⟨[], false⟩] ++
      [.setlock ⟨2, ⟨true, true, false⟩, .wrlck, 2, 3, 2⟩ ⟨[], false⟩] ++
      [.setlock ⟨1, ⟨true, true, false⟩, .wrlck, 0, 10, 1⟩ ⟨[], false⟩], _, by decide,
      .snoc (.snoc (.snoc (.nil _) ⟨_, rfl, rfl⟩) ⟨_, rfl, rfl⟩) ⟨_, rfl, rfl⟩,
      ⟨_, mem_cons_self, rfl, ?_⟩, rfl⟩
    decide
  · refine ⟨[] ++ [.setlock ⟨1, ⟨true, true, false⟩, .wrlck, 2, 3, 1⟩ ⟨[], false⟩] ++
      [.setlock ⟨2, ⟨true, true, false⟩, .wrlck, 2, 3, 2⟩ ⟨[], false⟩] ++
      [.resume 2 ⟨[], false⟩], _, by decide,
      .snoc (.snoc (.snoc (.nil _) ⟨_, rfl, rfl⟩) ⟨_, rfl, rfl⟩) ⟨_, rfl, rfl⟩,
      _, mem_cons_self, rfl, _, mem_cons_self, ?_⟩
    decide

end Darwin.Hfs.Lockf
