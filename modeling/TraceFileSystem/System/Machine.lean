import TraceFileSystem.Lib.Machine
import TraceFileSystem.Ops.TracedOps
import Mathlib.Logic.Function.Basic

/-!
# Threads, mounts and the lock

Any number of threads perform traced operations on any number of mounts.  The logging tail of an
operation is cut into the steps between which other threads can run: take `trfs_lock`, read the
mask, fill the record, write its header and path, write its auxiliary data, release the lock.  The
lock belongs to a superblock, while the counter `trecord_id` is shared by all of them.

* `Stage` is where the holder of a lock stands in its tail and `Stage.next` is one step of it.  A
  holder that is stopped by the kernel stays `dead` and never releases its lock.
* `SysState` is the whole system.  Besides operations there are the `TR_SET_BMAP` command, which
  sets the mask under the lock (`hw2/tr_ioctl.c`), mount attempts, which reset the counter when they
  begin, whether or not they will succeed (`trfs_mount` of `trfs/main.c`), and unmounting, which
  removes the log.
* `step` is one step of the system, labelled by an `Event`; `Steps` lists once what a step can do.

Three ghost fields of a mount and one of the system remember what happened: which tails have read
which mask, which tails have been given which number, where in the log which number stands, and how
many numbers were drawn.
-/

namespace Trfs

/-! ### The holder of a lock -/

/-- Where the holder of `trfs_lock` stands in its logging tail. -/
inductive Stage where
  /-- The lock has just been taken. -/
  | locked
  /-- The mask has been read. -/
  | masked (a : FillArgs)
  /-- `fill_record` has returned zero. -/
  | filled (r : TrRecord)
  /-- `append_record` has made its first write. -/
  | header (r : TrRecord) (ret : ℤ)
  /-- The lock is about to be released. -/
  | leaving
  /-- The thread was stopped by the kernel. -/
  | dead
  deriving DecidableEq

/-- A step inside the lock, with what the environment decides in it. -/
inductive TailStep where
  | mask
  | fill (pages : PageEnv)
  | writeHeader (o : WriteOutcome)
  | writeAux (o : WriteOutcome)
  deriving DecidableEq

/-- The kernel after `fill_record` was stopped: the number has been drawn, and both pages stay
allocated. -/
def Kernel.afterFillFault (k : Kernel) (pages : PageEnv) : Kernel :=
  { k with
    trecordId := k.trecordId + 1
    ledger := pages.auxPage.toList ++ pages.pathPage.toList ++ k.ledger }

/-- One step of the holder of a lock. -/
def Stage.next (k : Kernel) (sb : SbInfo) (tail : Tail) : Stage → TailStep →
    Option (Kernel × SbInfo × Stage)
  | .locked, .mask => some (k, sb, .masked (tail.fillArgs sb.umask))
  | .masked a, .fill pages =>
    match fillRecord pages k a with
    | .error _ => some (k.afterFillFault pages, sb, .dead)
    | .ok (k', .error _) => some (k', sb, .leaving)
    | .ok (k', .ok r) => some (k', sb, .filled r)
  | .filled r, .writeHeader o =>
    match appendHeader sb k r o with
    | .error _ => some (k, sb, .dead)
    | .ok (sb', k', ret) => some (k', sb', .header r ret)
  | .header r ret, .writeAux o =>
    match appendAux sb k r o ret with
    | .error _ => some (k, sb, .dead)
    | .ok (sb', k', _) => some (k', sb', .leaving)
  | _, _ => none

/-! ### The system -/

/-- The holder of a lock: its thread, the tail it executes and where it stands. -/
structure Holder where
  thread : ℕ
  tail : Tail
  stage : Stage
  deriving DecidableEq

/-- A mounted trfs file system. -/
structure Mount where
  sb : SbInfo
  holder : Option Holder
  /-- Ghost: the tails that have read the mask, with the mask they read, in order. -/
  entered : List (Tail × BitVec 64)
  /-- Ghost: the tails that were given a number, with the number, in order. -/
  numbered : List (Tail × CInt)
  /-- Ghost: the headers in the log, by position and number, in order. -/
  headers : List (ℕ × CInt)
  deriving DecidableEq

/-- What a thread is doing. -/
inductive Thread where
  | idle
  /-- Waiting for the lock of a mount. -/
  | waiting (mnt : ℕ) (tail : Tail)
  /-- Holding the lock of a mount. -/
  | inside (mnt : ℕ)
  /-- Stopped by the kernel outside the lock. -/
  | stopped
  deriving DecidableEq

/-- The state of the system. -/
structure SysState where
  kernel : Kernel
  mounts : ℕ → Option Mount
  threads : ℕ → Thread
  /-- How many calls of `trfs_mount` have reset the counter and not come to an end. -/
  attempts : ℕ
  /-- Ghost: how many record numbers were drawn. -/
  drawn : ℕ

/-- What can happen. -/
inductive Event where
  /-- A thread reaches the logging tail of an operation. -/
  | arrive (t : ℕ) (op : TracedOp)
  /-- A waiting thread takes the lock. -/
  | lock (t : ℕ)
  /-- The holder of a lock takes a step. -/
  | work (t : ℕ) (e : TailStep)
  /-- The holder of a lock releases it and the operation returns. -/
  | unlock (t : ℕ)
  /-- `TR_SET_BMAP` on a mount. -/
  | setBmap (mnt : ℕ) (umask : BitVec 64)
  /-- `trfs_mount` is called. -/
  | mountBegins
  /-- A mount attempt fails. -/
  | mountFails
  /-- A mount attempt succeeds. -/
  | mount (mnt : ℕ) (trPage : List UInt8)
  /-- Unmounting. -/
  | umount (mnt : ℕ)
  deriving DecidableEq

/-- A thread at the logging tail of an operation: it waits for the lock of the superblock, or has
been stopped looking for it. -/
def Tail.arrives (tail : Tail) : Thread :=
  match tail.inode with
  | some i => .waiting i.mnt tail
  | none => .stopped

/-- The headers in the log after its holder has taken a step.  A first write of `append_record` that
moves the position forward adds a header.  When a position moves back, the headers whose number is
no longer before it are given up to the next write. -/
def Mount.headersAfter (m : Mount) (sb : SbInfo) (stage : Stage) : List (ℕ × CInt) :=
  let written :=
    match stage with
    | .header r _ =>
      if m.sb.log.fPos < sb.log.fPos then m.headers ++ [(m.sb.log.fPos.toNat, r.recId)]
      else m.headers
    | _ => m.headers
  written.filter fun p => p.1 + recIdSize ≤ sb.log.fPos.toNat

/-- The mount after its holder has taken a step. -/
def Mount.after (m : Mount) (h : Holder) (e : TailStep) (sb : SbInfo) (stage : Stage) : Mount where
  sb := sb
  holder := some { h with stage := stage }
  entered := if e = .mask then m.entered ++ [(h.tail, m.sb.umask)] else m.entered
  numbered :=
    match stage with
    | .filled r => m.numbered ++ [(h.tail, r.recId)]
    | _ => m.numbered
  headers := m.headersAfter sb stage

/-- A new mount. -/
def Mount.fresh (trPage : List UInt8) : Mount where
  sb := .mounted trPage
  holder := none
  entered := []
  numbered := []
  headers := []

/-- How many numbers a step inside the lock draws. -/
def drawsNumber (k k' : Kernel) : ℕ :=
  if k'.trecordId = k.trecordId then 0 else 1

namespace SysState

/-- Replace a mount. -/
def setMount (s : SysState) (n : ℕ) (m : Option Mount) : SysState :=
  { s with mounts := Function.update s.mounts n m }

/-- Replace what a thread does. -/
def setThread (s : SysState) (t : ℕ) (th : Thread) : SysState :=
  { s with threads := Function.update s.threads t th }

/-- `trfs_mount` resets the counter before anything else. -/
def beginMount (s : SysState) : SysState :=
  { s with kernel := { s.kernel with trecordId := -1 }, attempts := s.attempts + 1 }

/-- A call of `trfs_mount` comes to an end. -/
def endMount (s : SysState) : SysState :=
  { s with attempts := s.attempts - 1 }

section

variable (s : SysState) (n n' : ℕ) (m : Option Mount) (th : Thread)

@[simp] theorem mounts_setMount_self : (s.setMount n m).mounts n = m := by
  simp [setMount]

@[simp] theorem threads_setThread_self : (s.setThread n th).threads n = th := by
  simp [setThread]

variable {n n'}

@[simp] theorem mounts_setMount_of_ne (h : n' ≠ n) : (s.setMount n m).mounts n' = s.mounts n' := by
  simp [setMount, h]

@[simp] theorem threads_setThread_of_ne (h : n' ≠ n) :
    (s.setThread n th).threads n' = s.threads n' := by
  simp [setThread, h]

end

/-- The holder of the lock of the mount that a thread is inside. -/
def holding (s : SysState) (t : ℕ) : Option (ℕ × Mount × Holder) :=
  match s.threads t with
  | .inside n =>
    match s.mounts n with
    | some m =>
      match m.holder with
      | some h => if h.thread = t then some (n, m, h) else none
      | none => none
    | none => none
  | _ => none

/-- One step of the system; `none` when the event cannot happen. -/
def step (s : SysState) : Event → Option SysState
  | .arrive t op => if s.threads t = .idle then some (s.setThread t op.plan.tail.arrives) else none
  | .lock t =>
    match s.threads t with
    | .waiting n tail =>
      match s.mounts n with
      | some m =>
        if m.holder = none then
          some ((s.setMount n (some { m with holder := some ⟨t, tail, .locked⟩ })).setThread t
            (.inside n))
        else none
      | none => none
    | _ => none
  | .work t e =>
    match s.holding t with
    | some (n, m, h) =>
      match h.stage.next s.kernel m.sb h.tail e with
      | some (k, sb, stage) =>
        some { s.setMount n (some (m.after h e sb stage)) with
          kernel := k, drawn := s.drawn + drawsNumber s.kernel k }
      | none => none
    | none => none
  | .unlock t =>
    match s.holding t with
    | some (n, m, h) =>
      if h.stage = .leaving then
        some ((s.setMount n (some { m with holder := none })).setThread t .idle)
      else none
    | none => none
  | .setBmap n umask =>
    match s.mounts n with
    | some m =>
      if m.holder = none then
        some (s.setMount n (some { m with sb := { m.sb with umask := umask } }))
      else none
    | none => none
  | .mountBegins => some s.beginMount
  | .mountFails => if 0 < s.attempts then some s.endMount else none
  | .mount n trPage =>
    if 0 < s.attempts ∧ s.mounts n = none then
      some (s.endMount.setMount n (some (.fresh trPage)))
    else none
  | .umount n =>
    match s.mounts n with
    | some m => if m.holder = none then some (s.setMount n none) else none
    | none => none

/-- A thread that holds a lock is the holder of the mount it is inside. -/
theorem holding_eq_some {s : SysState} {t n : ℕ} {m : Mount} {h : Holder}
    (hh : s.holding t = some (n, m, h)) :
    s.threads t = .inside n ∧ s.mounts n = some m ∧ m.holder = some h := by
  unfold holding at hh
  split at hh
  · next n' hthread =>
    split at hh
    · next m' hmount =>
      split at hh
      · next h' hholder =>
        split at hh
        · cases hh
          exact ⟨hthread, hmount, hholder⟩
        · cases hh
      · cases hh
    · cases hh
  · cases hh

/-- What a step can do, case by case. -/
inductive Steps (s : SysState) : Event → SysState → Prop
  | arrive (t : ℕ) (op : TracedOp) (hidle : s.threads t = .idle) :
      Steps s (.arrive t op) (s.setThread t op.plan.tail.arrives)
  | lock (t n : ℕ) (tail : Tail) (m : Mount) (hwaiting : s.threads t = .waiting n tail)
      (hmount : s.mounts n = some m) (hfree : m.holder = none) :
      Steps s (.lock t)
        ((s.setMount n (some { m with holder := some ⟨t, tail, .locked⟩ })).setThread t (.inside n))
  | work (t n : ℕ) (m : Mount) (h : Holder) (e : TailStep) (k : Kernel) (sb : SbInfo)
      (stage : Stage) (hholding : s.holding t = some (n, m, h))
      (hnext : h.stage.next s.kernel m.sb h.tail e = some (k, sb, stage)) :
      Steps s (.work t e)
        { s.setMount n (some (m.after h e sb stage)) with
          kernel := k, drawn := s.drawn + drawsNumber s.kernel k }
  | unlock (t n : ℕ) (m : Mount) (h : Holder) (hmount : s.mounts n = some m)
      (hholder : m.holder = some h) (hleaving : h.stage = .leaving) :
      Steps s (.unlock t) ((s.setMount n (some { m with holder := none })).setThread t .idle)
  | setBmap (n : ℕ) (umask : BitVec 64) (m : Mount) (hmount : s.mounts n = some m)
      (hfree : m.holder = none) :
      Steps s (.setBmap n umask)
        (s.setMount n (some { m with sb := { m.sb with umask := umask } }))
  | mountBegins : Steps s .mountBegins s.beginMount
  | mountFails (hattempt : 0 < s.attempts) : Steps s .mountFails s.endMount
  | mount (n : ℕ) (trPage : List UInt8) (hattempt : 0 < s.attempts) (hnew : s.mounts n = none) :
      Steps s (.mount n trPage) (s.endMount.setMount n (some (.fresh trPage)))
  | umount (n : ℕ) (m : Mount) (hmount : s.mounts n = some m) (hfree : m.holder = none) :
      Steps s (.umount n) (s.setMount n none)

/-- Every step is one of these cases. -/
theorem steps_of_step {s s' : SysState} {e : Event} (h : s.step e = some s') : Steps s e s' := by
  cases e with
  | arrive t op =>
    simp only [step] at h
    split at h
    · next hidle =>
      cases h
      exact .arrive t op hidle
    · cases h
  | lock t =>
    simp only [step] at h
    split at h
    · next n tail hwaiting =>
      split at h
      · next m hmount =>
        split at h
        · next hfree =>
          cases h
          exact .lock t n tail m hwaiting hmount hfree
        · cases h
      · cases h
    · cases h
  | work t e =>
    simp only [step] at h
    split at h
    · next n m h' hholding =>
      split at h
      · next k sb stage hnext =>
        cases h
        exact .work t n m h' e k sb stage hholding hnext
      · cases h
    · cases h
  | unlock t =>
    simp only [step] at h
    split at h
    · next n m h' hholding =>
      obtain ⟨-, hmount, hholder⟩ := holding_eq_some hholding
      split at h
      · next hleaving =>
        cases h
        exact .unlock t n m h' hmount hholder hleaving
      · cases h
    · cases h
  | setBmap n umask =>
    simp only [step] at h
    split at h
    · next m hmount =>
      split at h
      · next hfree =>
        cases h
        exact .setBmap n umask m hmount hfree
      · cases h
    · cases h
  | mountBegins =>
    cases h
    exact .mountBegins
  | mountFails =>
    simp only [step] at h
    split at h
    · next hattempt =>
      cases h
      exact .mountFails hattempt
    · cases h
  | mount n trPage =>
    simp only [step] at h
    split at h
    · next hnew =>
      cases h
      exact .mount n trPage hnew.1 hnew.2
    · cases h
  | umount n =>
    simp only [step] at h
    split at h
    · next m hmount =>
      split at h
      · next hfree =>
        cases h
        exact .umount n m hmount hfree
      · cases h
    · cases h

end SysState

end Trfs
