import Mathlib.Data.List.Basic
import Mathlib.Data.Int.Init
import Mathlib.Algebra.Group.Nat.Defs

/-! # Advisory byte-range locks on an HFS node

The lock list of one `hfsnode`, the requests blocked on its locks and the two entry
points `hfs_setlock` and `hfs_clearlock`. The chain through `lf_next` from `h_lockf` is a
list; a lock that is not on it has been freed. The `lf_next` of a request that sleeps is
the lock it waits for and is kept with the sleeper.
-/
namespace Darwin.Hfs.Lockf

inductive LockType where
  | rdlck
  | unlck
  | wrlck
  deriving DecidableEq, Repr

structure Flags where
  wait : Bool
  posix : Bool
  flock : Bool
  deriving DecidableEq, Repr

/-- `struct hfslockf`. `addr` is the address of the structure and `lfBlkhd` holds the
addresses of the requests on its blocked list. -/
structure HfsLockf where
  addr : ℕ
  lfFlags : Flags
  lfType : LockType
  lfStart : ℤ
  lfEnd : ℤ
  lfId : ℕ
  lfBlkhd : List ℕ
  deriving DecidableEq, Repr

/-- `off_t` arithmetic is 64-bit and signed. -/
def offT (x : ℤ) : ℤ := Int.bmod x (2 ^ 64)

/-- The six answers of `hfs_findoverlap`, numbered 0 to 5 in the source. -/
inductive OvCase where
  | noOverlap
  | equal
  | containsLock
  | insideLock
  | startsBefore
  | endsAfter
  deriving DecidableEq, Repr

inductive Whose where
  | self
  | others
  deriving DecidableEq, Repr

/-- The chain of range tests in `hfs_findoverlap`; `none` is its final `panic`. -/
def overlapCase (lf lock : HfsLockf) : Option OvCase :=
  if (lf.lfEnd ≠ -1 ∧ lock.lfStart > lf.lfEnd) ∨ (lock.lfEnd ≠ -1 ∧ lf.lfStart > lock.lfEnd) then
    some .noOverlap
  else if lf.lfStart = lock.lfStart ∧ lf.lfEnd = lock.lfEnd then
    some .equal
  else if lf.lfStart ≤ lock.lfStart ∧ lock.lfEnd ≠ -1 ∧ (lf.lfEnd ≥ lock.lfEnd ∨ lf.lfEnd = -1) then
    some .containsLock
  else if lock.lfStart ≤ lf.lfStart ∧
      (lock.lfEnd = -1 ∨ (lf.lfEnd ≠ -1 ∧ lock.lfEnd ≥ lf.lfEnd)) then
    some .insideLock
  else if lf.lfStart < lock.lfStart ∧ (lf.lfEnd ≥ lock.lfStart ∨ lf.lfEnd = -1) then
    some .startsBefore
  else if lf.lfStart > lock.lfStart ∧ lock.lfEnd ≠ -1 ∧ (lf.lfEnd > lock.lfEnd ∨ lf.lfEnd = -1) then
    some .endsAfter
  else none

/-- `hfs_findoverlap`: the case, the locks passed over (so that `*prev` is the link after
them) and the list whose head is `*overlap`. -/
def hfsFindoverlap (lock : HfsLockf) (type : Whose) :
    List HfsLockf → Option (OvCase × List HfsLockf × List HfsLockf)
  | [] => some (.noOverlap, [], [])
  | lf :: rest =>
    let next := (hfsFindoverlap lock type rest).map (fun r => (r.1, lf :: r.2.1, r.2.2))
    if (type = .self ∧ lf.lfId ≠ lock.lfId) ∨ (type = .others ∧ lf.lfId = lock.lfId) then next
    else match overlapCase lf lock with
      | none => none
      | some .noOverlap =>
        -- a list of one owner is sorted, so the search for our own locks may stop here
        if type = .self ∧ lock.lfEnd ≠ -1 ∧ lf.lfStart > lock.lfEnd then
          some (.noOverlap, [], lf :: rest)
        else next
      | some c => some (c, [], lf :: rest)

/-- `hfs_getblock`: `none` is the `panic` of the overlap search, `some none` is `NOLOCKF`. -/
def hfsGetblock (lock : HfsLockf) : List HfsLockf → Option (Option HfsLockf)
  | [] => some none
  | lf :: rest =>
    if lf.lfId = lock.lfId then hfsGetblock lock rest
    else match overlapCase lf lock with
      | none => none
      | some .noOverlap => hfsGetblock lock rest
      | some _ =>
        if lock.lfType = .wrlck ∨ lf.lfType = .wrlck then some (some lf)
        else hfsGetblock lock rest

/-- `hfs_wakelock` empties the blocked list of a lock. Its waiters are collected and
woken by `wakeup` below. -/
def hfsWakelock (listhead : HfsLockf) : HfsLockf := { listhead with lfBlkhd := [] }

/-- `hfs_split lock1 lock2`: what stands in the list from `lock1` up to its old successor,
without `lock2`, as the part before and the part after `lock2`. `fresh` is the address the
allocator gives for the third piece. -/
def hfsSplit (fresh : ℕ) (lock1 lock2 : HfsLockf) : List HfsLockf × List HfsLockf :=
  if lock1.lfStart = lock2.lfStart then
    ([], [{ lock1 with lfStart := offT (lock2.lfEnd + 1) }])
  else if lock1.lfEnd = lock2.lfEnd then
    ([{ lock1 with lfEnd := offT (lock2.lfStart - 1) }], [])
  else
    ([{ lock1 with lfEnd := offT (lock2.lfStart - 1) }],
      [{ lock1 with addr := fresh, lfStart := offT (lock2.lfEnd + 1), lfBlkhd := [] }])

/-- A list after an edit, with the waiters that were woken on the way. -/
structure Edit where
  list : List HfsLockf
  woken : List ℕ
  deriving DecidableEq, Repr

/-- The loop of `hfs_setlock` after the blocking check, from the link the source calls
`prev`. While `needtolink` is set, `before` is the list up to that link; afterwards the new
lock stands between `before` and `mid`. An `equal`, `containsLock` or `startsBefore`
answer for a lock that is already linked would free or relink it: `none`, as for the
`panic` of the search. Every turn but the last drops one lock from `block`. -/
def setlockLoop (fresh : ℕ) : ℕ → HfsLockf → Bool → List HfsLockf → List HfsLockf →
    List HfsLockf → List ℕ → Option Edit
  | 0, _, _, _, _, _, _ => none
  | fuel + 1, lock, needtolink, before, mid, block, woken =>
    match hfsFindoverlap lock .self block with
    | none => none
    | some (.noOverlap, skipped, rest) =>
      if needtolink then some ⟨before ++ skipped ++ lock :: rest, woken⟩
      else some ⟨before ++ lock :: (mid ++ skipped ++ rest), woken⟩
    | some (_, _, []) => none
    | some (.equal, skipped, overlap :: rest) =>
      if needtolink then
        if lock.lfType = .rdlck ∧ overlap.lfType = .wrlck then
          some ⟨before ++ skipped ++ { hfsWakelock overlap with lfType := lock.lfType } :: rest,
            woken ++ overlap.lfBlkhd⟩
        else some ⟨before ++ skipped ++ { overlap with lfType := lock.lfType } :: rest, woken⟩
      else none
    | some (.containsLock, skipped, overlap :: rest) =>
      if needtolink then
        if overlap.lfType = lock.lfType then some ⟨before ++ skipped ++ overlap :: rest, woken⟩
        else
          let parts := hfsSplit fresh (hfsWakelock overlap) lock
          some ⟨before ++ skipped ++ (parts.1 ++ lock :: (parts.2 ++ rest)),
            woken ++ overlap.lfBlkhd⟩
      else none
    | some (.insideLock, skipped, overlap :: rest) =>
      let before' := if needtolink then before ++ skipped else before
      let mid' := if needtolink then [] else mid ++ skipped
      if lock.lfType = .rdlck ∧ overlap.lfType = .wrlck then
        setlockLoop fresh fuel lock false before' mid' rest (woken ++ overlap.lfBlkhd)
      else
        -- the waiters move to the new lock, their own `lf_next` is left as it is
        setlockLoop fresh fuel { lock with lfBlkhd := lock.lfBlkhd ++ overlap.lfBlkhd } false
          before' mid' rest woken
    | some (.startsBefore, skipped, overlap :: rest) =>
      if needtolink then
        setlockLoop fresh fuel lock false
          (before ++ skipped ++ [{ hfsWakelock overlap with lfEnd := offT (lock.lfStart - 1) }])
          [] rest (woken ++ overlap.lfBlkhd)
      else none
    | some (.endsAfter, skipped, overlap :: rest) =>
      let overlap' := { hfsWakelock overlap with lfStart := offT (lock.lfEnd + 1) }
      if needtolink then
        some ⟨before ++ skipped ++ lock :: overlap' :: rest, woken ++ overlap.lfBlkhd⟩
      else some ⟨before ++ lock :: (mid ++ skipped ++ overlap' :: rest), woken ++ overlap.lfBlkhd⟩

/-- `hfs_clearlock` from the link `prev`, with `before` the list up to it. -/
def clearlockLoop (fresh : ℕ) : ℕ → HfsLockf → List HfsLockf → List HfsLockf → List ℕ → Option Edit
  | 0, _, _, _, _ => none
  | fuel + 1, unlock, before, lf, woken =>
    match hfsFindoverlap unlock .self lf with
    | none => none
    | some (.noOverlap, skipped, rest) => some ⟨before ++ skipped ++ rest, woken⟩
    | some (_, _, []) => none
    | some (.equal, skipped, overlap :: rest) =>
      some ⟨before ++ skipped ++ rest, woken ++ overlap.lfBlkhd⟩
    | some (.containsLock, skipped, overlap :: rest) =>
      let parts := hfsSplit fresh (hfsWakelock overlap) unlock
      some ⟨before ++ skipped ++ (parts.1 ++ parts.2 ++ rest), woken ++ overlap.lfBlkhd⟩
    | some (.insideLock, skipped, overlap :: rest) =>
      clearlockLoop fresh fuel unlock (before ++ skipped) rest (woken ++ overlap.lfBlkhd)
    | some (.startsBefore, skipped, overlap :: rest) =>
      clearlockLoop fresh fuel unlock
        (before ++ skipped ++ [{ hfsWakelock overlap with lfEnd := offT (unlock.lfStart - 1) }])
        rest (woken ++ overlap.lfBlkhd)
    | some (.endsAfter, skipped, overlap :: rest) =>
      some ⟨before ++ skipped ++
        { hfsWakelock overlap with lfStart := offT (unlock.lfEnd + 1) } :: rest,
        woken ++ overlap.lfBlkhd⟩

/-- A request inside `hfs_setlock`, past its `TAILQ_INSERT_TAIL`. `lfNext` is the lock it
waits for, `NOLOCKF` once it has been woken; `asleep` is whether its process still has the
request as its wait channel. -/
structure Sleeper where
  proc : ℕ
  lock : HfsLockf
  lfNext : Option ℕ
  asleep : Bool
  deriving DecidableEq, Repr

/-- The lock state of one file: `h_lockf`, the suspended requests and the allocator. -/
structure Hfsnode where
  hLockf : List HfsLockf
  sleepers : List Sleeper
  nextAddr : ℕ
  deriving DecidableEq, Repr

/-- What `hfs_wakelock` does to the requests it removes from a blocked list. -/
def wakeup (woken : List ℕ) (sl : List Sleeper) : List Sleeper :=
  sl.map (fun w => if w.lock.addr ∈ woken then { w with lfNext := none, asleep := false } else w)

/-- The list operations a call completed, in order: the granted sets and the clears. -/
inductive Op where
  | set (id : ℕ) (start stop : ℤ) (type : LockType)
  | clear (id : ℕ) (start stop : ℤ)
  deriving DecidableEq, Repr

inductive Outcome where
  | granted
  | eagain
  | edeadlk
  | sleeps
  | interrupted
  | cleared
  deriving DecidableEq, Repr

structure Result where
  node : Hfsnode
  outcome : Outcome
  ops : List Op
  deriving DecidableEq, Repr

/-- `hfs_clearlock`. -/
def hfsClearlock (unlock : HfsLockf) (hp : Hfsnode) : Option Hfsnode :=
  match clearlockLoop hp.nextAddr (hp.hLockf.length + 1) unlock [] hp.hLockf [] with
  | none => none
  | some e => some { hLockf := e.list, sleepers := wakeup e.woken hp.sleepers, nextAddr := hp.nextAddr + 1 }

/-- `hfsmaxlockdepth`. -/
def maxdepth : ℕ := 50

/-- What the deadlock walk finds outside of the file: the processes whose `p_wchan` is set, and its
answer once it reaches one of them that does not wait for a lock of this file. Nothing in this source
sets `p_wchan`, so that the first is empty. -/
structure WaitChannels where
  set : List ℕ
  elsewhere : Bool
  deriving DecidableEq, Repr

/-- The walk along the wait channels: `some true` when it comes back to `id`. It reads the
lock each `lf_next` points to; `none` when that lock is no longer on the list. -/
def deadlockWalk (hp : Hfsnode) (channels : WaitChannels) (id : ℕ) : ℕ → ℕ → Option Bool
  | 0, _ => some false
  | depth + 1, wproc =>
    if wproc ∉ channels.set then some false
    else match hp.sleepers.find? (fun w => w.proc = wproc ∧ w.asleep = true) with
    | none => some channels.elsewhere
    | some w =>
      match w.lfNext.bind (fun a => hp.hLockf.find? (fun l => l.addr = a)) with
      | none => none
      | some waitblock =>
        if waitblock.lfFlags.posix = false then some false
        else if waitblock.lfId = id then some true
        else deadlockWalk hp channels id depth waitblock.lfId

/-- `TAILQ_INSERT_TAIL (&block->lf_blkhd, lock, lf_block)`. -/
def insertBlocked (block waiter : ℕ) (l : List HfsLockf) : List HfsLockf :=
  l.map (fun a => if a.addr = block then { a with lfBlkhd := a.lfBlkhd ++ [waiter] } else a)

/-- `TAILQ_REMOVE (&lock->lf_next->lf_blkhd, lock, lf_block)`. -/
def removeBlocked (block waiter : ℕ) (l : List HfsLockf) : List HfsLockf :=
  l.map (fun a => if a.addr = block then { a with lfBlkhd := a.lfBlkhd.erase waiter } else a)

/-- The part of `hfs_setlock` from the end of its blocking loop. -/
def grant (lock : HfsLockf) (hp : Hfsnode) : Option Result :=
  match setlockLoop hp.nextAddr (hp.hLockf.length + 1) lock true [] [] hp.hLockf [] with
  | none => none
  | some e =>
    some { node := { hLockf := e.list, sleepers := wakeup e.woken hp.sleepers,
                     nextAddr := hp.nextAddr + 1 },
           outcome := .granted,
           ops := [.set lock.lfId lock.lfStart lock.lfEnd lock.lfType] }

/-- The request goes to sleep on `block`. -/
def sleepOn (proc : ℕ) (lock block : HfsLockf) (hp : Hfsnode) : Hfsnode :=
  { hp with hLockf := insertBlocked block.addr lock.addr hp.hLockf,
            sleepers := ⟨proc, lock, some block.addr, true⟩ :: hp.sleepers }

/-- `hfs_setlock` by `proc`, from the top of its blocking loop until it returns or sleeps. -/
def hfsSetlock (proc : ℕ) (lock : HfsLockf) (channels : WaitChannels) (hp : Hfsnode) : Option Result :=
  match hfsGetblock lock hp.hLockf with
  | none => none
  | some none => grant lock hp
  | some (some block) =>
    if lock.lfFlags.wait = false then some ⟨hp, .eagain, []⟩
    else
      let walk := if lock.lfFlags.posix ∧ block.lfFlags.posix then
        deadlockWalk hp channels lock.lfId maxdepth block.lfId else some false
      match walk with
      | none => none
      | some true => some ⟨hp, .edeadlk, []⟩
      | some false =>
        -- a `flock` request gives up its shared locks before it waits for an exclusive one
        if lock.lfFlags.flock ∧ lock.lfType = .wrlck then
          match hfsClearlock { lock with lfType := .unlck } hp with
          | none => none
          | some hp' => some ⟨sleepOn proc lock block hp', .sleeps,
              [.clear lock.lfId lock.lfStart lock.lfEnd]⟩
        else some ⟨sleepOn proc lock block hp, .sleeps, []⟩

/-- The range `hfs_advlock` computes from `l_start` (already made absolute) and `l_len`;
`none` is `EINVAL`. The sign of `l_len` is not looked at. -/
def advlockRange (start len : ℤ) : Option (ℤ × ℤ) :=
  if start < 0 then none
  else some (start, if len = 0 then -1 else offT (offT (start + len) - 1))

/-- A request as `hfs_advlock` builds it; the structure is allocated by the call. -/
structure Request where
  proc : ℕ
  flags : Flags
  type : LockType
  start : ℤ
  stop : ℤ
  id : ℕ
  deriving DecidableEq, Repr

def Request.lock (r : Request) (addr : ℕ) : HfsLockf :=
  ⟨addr, r.flags, r.type, r.start, r.stop, r.id, []⟩

inductive Event where
  /-- a new `hfs_setlock` call -/
  | setlock (r : Request) (channels : WaitChannels)
  /-- a new `hfs_clearlock` call -/
  | clearlock (r : Request)
  /-- `tsleep` returns 0 to a woken request, which looks for a blocking lock again -/
  | resume (addr : ℕ) (channels : WaitChannels)
  /-- `tsleep` returns an error -/
  | interrupt (addr : ℕ)
  deriving DecidableEq, Repr

def Hfsnode.sleeper (hp : Hfsnode) (addr : ℕ) : Option Sleeper :=
  hp.sleepers.find? (fun w => w.lock.addr = addr)

def Hfsnode.forget (hp : Hfsnode) (addr : ℕ) : Hfsnode :=
  { hp with sleepers := hp.sleepers.filter (fun w => w.lock.addr ≠ addr) }

/-- One uninterrupted stretch of one process inside the lock code. A process that sleeps
makes no new request, and `tsleep` returns 0 to a request that has been woken only; `stepEarly` has
the other returns. -/
def step (hp : Hfsnode) : Event → Option Result
  | .setlock r channels =>
    if hp.sleepers.any (fun w => w.proc = r.proc) ∨ r.type = .unlck then none
    else hfsSetlock r.proc (r.lock hp.nextAddr) channels { hp with nextAddr := hp.nextAddr + 1 }
  | .clearlock r =>
    if hp.sleepers.any (fun w => w.proc = r.proc) then none
    else (hfsClearlock { r.lock hp.nextAddr with lfType := .unlck }
        { hp with nextAddr := hp.nextAddr + 1 }).map
      (fun hp' => ⟨hp', .cleared, [.clear r.id r.start r.stop]⟩)
  | .resume addr channels =>
    match hp.sleeper addr with
    | none => none
    | some w => if w.asleep then none else hfsSetlock w.proc w.lock channels (hp.forget addr)
  | .interrupt addr =>
    match hp.sleeper addr with
    | none => none
    | some w =>
      let hp' := match w.lfNext with
        | none => hp
        | some a => { hp with hLockf := removeBlocked a addr hp.hLockf }
      some ⟨hp'.forget addr, .interrupted, []⟩

/-- `step`, and `tsleep` may also return 0 to a request that nobody has woken: its sleep has been
interrupted, and there is no signal to deliver any more. The request is then still on a blocked list,
and the loop goes on as for one that has been woken. -/
def stepEarly (hp : Hfsnode) : Event → Option Result
  | .resume addr channels =>
    match hp.sleeper addr with
    | none => none
    | some w => hfsSetlock w.proc w.lock channels (hp.forget addr)
  | e => step hp e

/-- A file with no locks. -/
def Hfsnode.init : Hfsnode := ⟨[], [], 0⟩

end Darwin.Hfs.Lockf
