import TraceFileSystem.Lib.Machine
import TraceFileSystem.Mount.Outcomes

/-!
# Mounts come and go

Any number of superblocks are mounted and unmounted in any order, on any number of lower file
systems, and a mount can fail at any of its steps.

* `LifeState` has the mounts, those that got stuck in a fault, what trfs holds of the lower file
  systems, the directory entries under which the log files lie, and the counter `trecord_id`, which
  every mount resets.  Other processes create, remove and rename files there.
* `LifeState.Mounts` has the three outcomes of a mount.
* `LifeState.Accounted` is the invariant: a log file is open for every mount and for every stuck
  one, no two of them have the same, and every entry leads to a file of another process, to one of
  these logs, or to the log of an unmount that could not unlink it.

`accounted_of_run` carries it along every run.  `mount_of_stuck` says what a stuck mount means for
the next one with the same log.
-/

namespace Trfs

namespace Mount

open LabelledSystem

/-! ### Superblocks and their logs -/

/-- A superblock of trfs. -/
structure Superblock where
  id : ℕ
  /-- The lower superblock. -/
  lower : ℕ
  /-- The log file. -/
  log : ℕ
  /-- What the mount holds. -/
  account : MountState

/-- The superblocks of trfs, what they hold of the lower file systems, and the directory entries in
which the logs lie. -/
structure LifeState where
  /-- The file to which an entry leads. -/
  entries : ℕ → Option ℕ
  /-- The next file or superblock. -/
  next : ℕ
  /-- The files that other processes have created. -/
  foreign : List ℕ
  /-- The mounted superblocks. -/
  live : List Superblock
  /-- The superblocks whose mount has faulted. -/
  stuck : List Superblock
  /-- The logs that `vfs_unlink` has refused to unlink. -/
  kept : List ℕ
  /-- The references of trfs to the lower superblocks. -/
  sActive : ℕ → ℤ
  /-- The log files that trfs has open. -/
  openLogs : ℤ
  trecordId : CInt

/-- What happens to the superblocks of trfs, and what other processes do to the entries. -/
inductive LifeEvent where
  /-- `mount -t trfs -o tfile=…`, where the path of the log leads to `entry`. -/
  | mount (lower entry : ℕ) (env : MountEnv)
  /-- An unmount, and whether `vfs_unlink` succeeds. -/
  | umount (id : ℕ) (unlinks : Bool)
  /-- A record gets its number. -/
  | record (id : ℕ)
  | create (entry : ℕ)
  | remove (entry : ℕ)
  | rename (entry entry' : ℕ)

namespace LifeEvent

/-- The functions of the kernel that a mount calls do not return zero for an error. -/
def Regular : LifeEvent → Prop
  | mount _ _ env => env.ErrorsNonzero
  | _ => True

/-- Another process removes or replaces an entry. -/
def Removes (entry : ℕ) : LifeEvent → Prop
  | remove entry' => entry' = entry
  | rename entry' entry'' => entry' = entry ∨ entry'' = entry
  | _ => False

end LifeEvent

namespace LifeState

open MountState (held_start held_mounted)

/-- Nothing is mounted. -/
def empty : LifeState where
  entries := fun _ => none
  next := 0
  foreign := []
  live := []
  stuck := []
  kept := []
  sActive := 0
  openLogs := 0
  trecordId := 0

/-- The log that `filp_open` opens with `O_CREAT`. -/
def logAt (s : LifeState) (entry : ℕ) : ℕ :=
  (s.entries entry).getD s.next

/-- What a program of the mount has taken and given back. -/
def charge (s : LifeState) (lower : ℕ) (before after : MountState) : LifeState :=
  { s with
    sActive := s.sActive + Pi.single lower (after.held .lowerActive - before.held .lowerActive)
    openLogs := s.openLogs + (after.held .logFile - before.held .logFile) }

/-- The entry of a log that a mount has opened. -/
def enter (s : LifeState) (entry : ℕ) (after : MountState) : LifeState :=
  if after.acquired .logFile = 0 then s
  else { s with entries := Function.update s.entries entry (some (s.logAt entry)) }

/-- `trfs_read_super`. -/
def readSuper (s : LifeState) (lower entry : ℕ) (env : MountEnv) : LifeState :=
  let sb := fun account => { id := s.next, lower, log := s.logAt entry, account : Superblock }
  match trfsReadSuper (env.exclusive (s.entries entry).isSome) .start with
  | .ok err last =>
    let s' := { (s.charge lower .start last).enter entry last with next := s.next + 1 }
    if err = 0 then { s' with live := sb last :: s.live } else s'
  | .error _ last =>
    { (s.charge lower .start last).enter entry last with
      next := s.next + 1
      stuck := sb last :: s.stuck }

/-- `trfs_mount` resets the counter before it calls `mount_nodev`. -/
def reset (s : LifeState) : LifeState :=
  { s with trecordId := -1 }

/-- `trfs_mount`. -/
def mount (s : LifeState) (lower entry : ℕ) (env : MountEnv) : LifeState :=
  s.reset.readSuper lower entry env

/-- `SAFE_REMOVE`: the entry of a file is removed, wherever it is, unless `vfs_unlink` fails. -/
def unlink (s : LifeState) (log : ℕ) (unlinks : Bool) : LifeState :=
  if unlinks then
    { s with entries := fun entry => if s.entries entry = some log then none else s.entries entry }
  else { s with kept := log :: s.kept }

/-- An unmount. -/
def umount (s : LifeState) (sb : Superblock) (unlinks : Bool) : LifeState :=
  let s' := { s with live := s.live.eraseP (·.id = sb.id) }
  match killSb sb.account with
  | .ok true last => (s'.charge sb.lower sb.account last).unlink sb.log unlinks
  | .ok false last => s'.charge sb.lower sb.account last
  | .error _ last =>
    { s'.charge sb.lower sb.account last with stuck := { sb with account := last } :: s.stuck }

/-- One event. -/
def step (s : LifeState) : LifeEvent → Option LifeState
  | .mount lower entry env => some (s.mount lower entry env)
  | .umount id unlinks => (s.live.find? (·.id = id)).map fun sb => s.umount sb unlinks
  | .record id =>
    (s.live.find? (·.id = id)).map fun _ => { s with trecordId := s.trecordId + 1 }
  | .create entry =>
    match s.entries entry with
    | some _ => none
    | none => some { s with
        entries := Function.update s.entries entry (some s.next)
        next := s.next + 1
        foreign := s.next :: s.foreign }
  | .remove entry => some { s with entries := Function.update s.entries entry none }
  | .rename entry entry' =>
    match s.entries entry with
    | none => none
    | some log => some { s with
        entries := Function.update (Function.update s.entries entry none) entry' (some log) }

/-- All files that lie under an entry, or that trfs has open. -/
def files (s : LifeState) : List ℕ :=
  s.live.map (·.log) ++ s.stuck.map (·.log) ++ (s.kept ++ s.foreign)

/-- The files are distinct, every entry leads to one of them, and no two entries lead to the
same. -/
structure Filed (entries : ℕ → Option ℕ) (files : List ℕ) (next : ℕ) : Prop where
  distinct : files.Nodup
  below : ∀ log ∈ files, log < next
  owned : ∀ entry, ∀ log ∈ entries entry, log ∈ files
  oneEntry : ∀ entry entry', ∀ log ∈ entries entry, log ∈ entries entry' → entry = entry'

/-- What trfs holds of the lower file systems belongs to a superblock, and so does every log.  A
superblock that has got stuck may have lost its reference to the lower one. -/
structure Accounted (s : LifeState) : Prop where
  account : ∀ sb ∈ s.live, sb.account = .mounted
  sActive : ∀ lower, (s.live.countP (·.lower = lower) : ℤ) ≤ s.sActive lower ∧
    s.sActive lower ≤ s.live.countP (·.lower = lower) + s.stuck.countP (·.lower = lower)
  openLogs : s.openLogs = s.live.length + s.stuck.length
  filed : Filed s.entries s.files s.next

/-! ### What a mount and an unmount do -/

/-- The state behind a mount that has opened its log, when it holds so many references to the lower
superblock. -/
def withLog (s : LifeState) (lower entry : ℕ) (references : ℤ) : LifeState :=
  { s with
    entries := Function.update s.entries entry (some s.next)
    next := s.next + 1
    sActive := s.sActive + Pi.single lower references
    openLogs := s.openLogs + 1 }

/-- The three outcomes of a mount. -/
inductive Mounts (s : LifeState) (lower entry : ℕ) : LifeState → Prop
  | fails : Mounts s lower entry { s with next := s.next + 1 }
  | works : s.entries entry = none → Mounts s lower entry { s.withLog lower entry 1 with
      live := ⟨s.next, lower, s.next, .mounted⟩ :: s.live }
  | faults (last : MountState) : s.entries entry = none → last.Stuck →
    Mounts s lower entry { s.withLog lower entry (last.held .lowerActive) with
      stuck := ⟨s.next, lower, s.next, last⟩ :: s.stuck }

section

variable {s : LifeState} {entry : ℕ} {env : MountEnv}

/-- An entry that is there is not opened. -/
theorem entries_eq_none (h : (env.exclusive (s.entries entry).isSome).GetsLog) :
    s.entries entry = none := by
  obtain ⟨-, -, hopen⟩ := h.opensLog
  cases hentry : s.entries entry with
  | none => rfl
  | some log =>
    rw [hentry] at hopen
    cases hopen

/-- A mount that works. -/
theorem readSuper_of_getsRoot (hlog : (env.exclusive (s.entries entry).isSome).GetsLog)
    (hroot : env.GetsRoot) (lower : ℕ) :
    s.readSuper lower entry env = { s.withLog lower entry 1 with
      live := ⟨s.next, lower, s.next, .mounted⟩ :: s.live } := by
  have hread := trfsReadSuper_of_works hlog ⟨hroot.1, hroot.2, hroot.3, hroot.4⟩
  have hacquired : MountState.mounted.acquired .logFile ≠ 0 := one_ne_zero
  have hheld : MountState.mounted.held .logFile = 1 := held_mounted (by decide)
  have hlower : MountState.mounted.held .lowerActive = 1 := held_mounted (by decide)
  simp only [readSuper, hread, if_true]
  simp only [charge, enter, hacquired, hheld, hlower, held_start, sub_zero, if_false, logAt,
    entries_eq_none hlog, Option.getD_none, withLog]

/-- A mount that fails behind its log. -/
theorem readSuper_of_not_getsRoot (hlog : (env.exclusive (s.entries entry).isSome).GetsLog)
    (hroot : ¬env.GetsRoot) (lower : ℕ) : ∃ last : MountState, last.Stuck ∧
      s.readSuper lower entry env = { s.withLog lower entry (last.held .lowerActive) with
        stuck := ⟨s.next, lower, s.next, last⟩ :: s.stuck } := by
  obtain ⟨f, last, hread, hstuck⟩ := trfsReadSuper_of_not_getsRoot hlog fun h =>
    hroot ⟨h.1, h.2, h.3, h.4⟩
  refine ⟨last, hstuck, ?_⟩
  simp only [readSuper, hread]
  simp only [charge, enter, hstuck.logFile, hstuck.heldLog, held_start, sub_zero, one_ne_zero,
    if_false, logAt, entries_eq_none hlog, Option.getD_none, withLog]

/-- A mount that does not open its log. -/
theorem readSuper_of_not_getsLog (hlog : ¬(env.exclusive (s.entries entry).isSome).GetsLog)
    (herr : env.ErrorsNonzero) (lower : ℕ) :
    s.readSuper lower entry env = { s with next := s.next + 1 } := by
  have herr' : (env.exclusive (s.entries entry).isSome).ErrorsNonzero := by
    refine ⟨herr.kernPath, herr.getnameKernel, ?_⟩
    cases s.entries entry with
    | none => exact herr.filpOpen
    | some log => exact fun h => absurd (Except.error.inj h) (by decide)
  obtain ⟨err, last, hread, hne, hempty⟩ := trfsReadSuper_of_not_getsLog herr' hlog
  simp only [readSuper, hread, hne, if_false, charge, enter, hempty.logFile, hempty.heldLog,
    hempty.heldLower, held_start, sub_self, Pi.single_zero, add_zero, if_true]

/-- Every mount resets the counter and has one of the three outcomes. -/
theorem mounts (s : LifeState) (lower entry : ℕ) (herr : env.ErrorsNonzero) :
    s.reset.Mounts lower entry (s.mount lower entry env) := by
  rw [mount]
  generalize s.reset = s
  by_cases hlog : (env.exclusive (s.entries entry).isSome).GetsLog
  · have hentry : s.entries entry = none := entries_eq_none hlog
    by_cases hroot : env.GetsRoot
    · rw [readSuper_of_getsRoot hlog hroot]
      exact .works hentry
    · obtain ⟨last, hstuck, hread⟩ := readSuper_of_not_getsRoot hlog hroot lower
      rw [hread]
      exact .faults last hentry hstuck
  · rw [readSuper_of_not_getsLog hlog herr]
    exact .fails

end

/-- An unmount gives back the references and the log, and unlinks the log if it can. -/
theorem umount_of_mounted (s : LifeState) {sb : Superblock} (h : sb.account = .mounted)
    (unlinks : Bool) :
    s.umount sb unlinks = unlink { s with
      live := s.live.eraseP (·.id = sb.id)
      sActive := s.sActive - Pi.single sb.lower 1
      openLogs := s.openLogs - 1 } sb.log unlinks := by
  obtain ⟨last, hkill, hsettled, -⟩ := killSb_mounted
  have hheld : ∀ r, last.held r = 0 := fun r => by
    rw [MountState.held, (hsettled r).2, sub_self]
  have hlower : MountState.mounted.held .lowerActive = 1 := held_mounted (by decide)
  have hlog : MountState.mounted.held .logFile = 1 := held_mounted (by decide)
  simp only [umount, h, hkill, charge, hheld, hlower, hlog, zero_add, Pi.single_neg, sub_eq_add_neg]

/-- A superblock that is unmounted is one of the mounts, and the others stay. -/
theorem exists_of_find {s : LifeState} {id : ℕ} {sb : Superblock}
    (h : s.live.find? (·.id = id) = some sb) :
    ∃ front back, s.live = front ++ sb :: back ∧ s.live.eraseP (·.id = sb.id) = front ++ back := by
  obtain ⟨hid, front, back, hlive, hfront⟩ := List.find?_eq_some_iff_append.mp h
  have hsb : sb.id = id := by simpa using hid
  refine ⟨front, back, hlive, ?_⟩
  rw [hlive, hsb, List.eraseP_append_right _ (by simpa using hfront),
    List.eraseP_cons_of_pos (by simpa using hsb)]

/-! ### The invariant -/

namespace Filed

variable {entries : ℕ → Option ℕ} {files : List ℕ} {next : ℕ}

/-- A new file gets an entry. -/
theorem insert (h : Filed entries files next) (entry : ℕ) :
    Filed (Function.update entries entry (some next)) (next :: files) (next + 1) := by
  have hnew : next ∉ files := fun hmem => (h.below next hmem).false
  have hold : ∀ entry', entries entry' ≠ some next := fun entry' hentry =>
    hnew (h.owned entry' next hentry)
  refine ⟨List.nodup_cons.mpr ⟨hnew, h.distinct⟩, ?_, ?_, ?_⟩
  · intro log hlog
    rcases List.mem_cons.mp hlog with rfl | hlog
    · exact Nat.lt_succ_self _
    · exact (h.below log hlog).trans (Nat.lt_succ_self _)
  · intro entry' log hlog
    by_cases heq : entry' = entry
    · subst heq
      rw [Function.update_self, Option.mem_some_iff] at hlog
      exact hlog ▸ List.mem_cons_self
    · rw [Function.update_of_ne heq] at hlog
      exact List.mem_cons_of_mem _ (h.owned entry' log hlog)
  · intro entry₁ entry₂ log h₁ h₂
    by_cases heq₁ : entry₁ = entry <;> by_cases heq₂ : entry₂ = entry
    · exact heq₁.trans heq₂.symm
    · subst heq₁
      rw [Function.update_self, Option.mem_some_iff] at h₁
      rw [Function.update_of_ne heq₂, ← h₁] at h₂
      exact absurd h₂ (hold entry₂)
    · subst heq₂
      rw [Function.update_self, Option.mem_some_iff] at h₂
      rw [Function.update_of_ne heq₁, ← h₂] at h₁
      exact absurd h₁ (hold entry₁)
    · rw [Function.update_of_ne heq₁] at h₁
      rw [Function.update_of_ne heq₂] at h₂
      exact h.oneEntry entry₁ entry₂ log h₁ h₂

/-- A file whose entry is removed is gone. -/
theorem unlink {log : ℕ} (h : Filed entries (log :: files) next) :
    Filed (fun entry => if entries entry = some log then none else entries entry) files next := by
  have hsub : ∀ entry log', (if entries entry = some log then none else entries entry) =
      some log' → log' ≠ log ∧ entries entry = some log' := by
    intro entry log' hentry
    split at hentry
    · cases hentry
    · rename_i hne
      exact ⟨fun heq => hne (heq ▸ hentry), hentry⟩
  refine ⟨(List.nodup_cons.mp h.distinct).2, ?_, ?_, ?_⟩
  · exact fun log' hlog' => h.below log' (List.mem_cons_of_mem _ hlog')
  · intro entry log' hentry
    obtain ⟨hne, hentry⟩ := hsub entry log' hentry
    exact List.mem_of_ne_of_mem hne (h.owned entry log' hentry)
  · intro entry₁ entry₂ log' h₁ h₂
    exact h.oneEntry entry₁ entry₂ log' (hsub entry₁ log' h₁).2 (hsub entry₂ log' h₂).2

/-- The order of the files does not matter. -/
theorem perm {files' : List ℕ} (h : Filed entries files next) (hperm : files.Perm files') :
    Filed entries files' next where
  distinct := hperm.nodup_iff.mp h.distinct
  below := fun log hlog => h.below log (hperm.mem_iff.mpr hlog)
  owned := fun entry log hlog => hperm.mem_iff.mp (h.owned entry log hlog)
  oneEntry := h.oneEntry

/-- A number is not used. -/
theorem skip (h : Filed entries files next) : Filed entries files (next + 1) :=
  { h with below := fun log hlog => (h.below log hlog).trans (Nat.lt_succ_self _) }

/-- The entries are moved, and some of them are removed. -/
theorem moved {entries' : ℕ → Option ℕ} (h : Filed entries files next) {σ : ℕ → ℕ}
    (hσ : σ.Injective) (hsub : ∀ entry, ∀ log ∈ entries' entry, log ∈ entries (σ entry)) :
    Filed entries' files next where
  distinct := h.distinct
  below := h.below
  owned := fun entry log hlog => h.owned _ log (hsub entry log hlog)
  oneEntry := fun entry entry' log hlog hlog' =>
    hσ (h.oneEntry _ _ log (hsub entry log hlog) (hsub entry' log hlog'))

/-- An entry is removed. -/
theorem remove (h : Filed entries files next) (entry : ℕ) :
    Filed (Function.update entries entry none) files next := by
  refine h.moved Function.injective_id fun entry' log hlog => ?_
  by_cases heq : entry' = entry
  · rw [heq, Function.update_self] at hlog
    cases hlog
  · rwa [Function.update_of_ne heq] at hlog

/-- An entry is renamed, and replaces the one that is there. -/
theorem rename (h : Filed entries files next) {entry file : ℕ} (hfile : entries entry = some file)
    (entry' : ℕ) :
    Filed (Function.update (Function.update entries entry none) entry' (some file)) files
      next := by
  refine h.moved (Equiv.swap entry entry').injective fun entry'' log hlog => ?_
  by_cases heq' : entry'' = entry'
  · rw [heq', Function.update_self, ← hfile] at hlog
    rwa [heq', Equiv.swap_apply_right]
  · rw [Function.update_of_ne heq'] at hlog
    by_cases heq : entry'' = entry
    · rw [heq, Function.update_self] at hlog
      cases hlog
    · rw [Function.update_of_ne heq] at hlog
      rwa [Equiv.swap_apply_of_ne_of_ne heq heq']

end Filed

namespace Accounted

variable {s : LifeState}

/-- The counter does not matter. -/
theorem reset (h : s.Accounted) : s.reset.Accounted :=
  ⟨h.account, h.sActive, h.openLogs, h.filed⟩

/-- A mount keeps the invariant, whatever its outcome is. -/
theorem mount (h : s.Accounted) {lower entry : ℕ} {s' : LifeState}
    (hmount : s.Mounts lower entry s') : s'.Accounted := by
  cases hmount with
  | fails => exact { h with filed := h.filed.skip }
  | works hentry =>
    refine ⟨?_, fun lower' => ?_, ?_, h.filed.insert entry⟩
    · exact List.forall_mem_cons.mpr ⟨rfl, h.account⟩
    · have hbounds := h.sActive lower'
      simp only [List.countP_cons, decide_eq_true_eq, Pi.add_apply, Pi.single_apply,
        withLog, eq_comm (a := lower')]
      split <;> omega
    · simp only [withLog, h.openLogs, List.length_cons]
      omega
  | faults last hentry hstuck =>
    have hheld := Finset.mem_Icc.mp hstuck.heldLower
    refine ⟨h.account, fun lower' => ?_, ?_, ?_⟩
    · have hbounds := h.sActive lower'
      simp only [List.countP_cons, decide_eq_true_eq, Pi.add_apply, Pi.single_apply,
        withLog, eq_comm (a := lower')]
      split <;> omega
    · simp only [withLog, h.openLogs, List.length_cons]
      omega
    · refine (h.filed.insert entry).perm ?_
      simp only [files, withLog, List.map_cons, List.append_assoc, List.cons_append]
      exact List.perm_middle.symm

/-- So does an unmount. -/
theorem umount (h : s.Accounted) {id : ℕ} {sb : Superblock}
    (hsb : s.live.find? (·.id = id) = some sb) (unlinks : Bool) :
    (s.umount sb unlinks).Accounted := by
  obtain ⟨front, back, hlive, herase⟩ := exists_of_find hsb
  have hperm : s.live.Perm (sb :: (front ++ back)) := hlive ▸ List.perm_middle
  have hmounted : sb.account = .mounted := h.account sb (hperm.mem_iff.mpr List.mem_cons_self)
  rw [umount_of_mounted s hmounted, herase]
  have hfiles : s.files.Perm (sb.log :: ((front ++ back).map (·.log) ++ s.stuck.map (·.log) ++
      (s.kept ++ s.foreign))) := ((hperm.map _).append_right _).append_right _
  have haccount : ∀ sb' ∈ front ++ back, sb'.account = .mounted := fun sb' hsb' =>
    h.account sb' (hperm.mem_iff.mpr (List.mem_cons_of_mem _ hsb'))
  have hsActive (lower : ℕ) :
      ((front ++ back).countP (·.lower = lower) : ℤ) ≤
          (s.sActive - Pi.single sb.lower 1 : ℕ → ℤ) lower ∧
        (s.sActive - Pi.single sb.lower 1 : ℕ → ℤ) lower ≤
          (front ++ back).countP (·.lower = lower) + s.stuck.countP (·.lower = lower) := by
    have hbounds := h.sActive lower
    rw [hperm.countP_eq, List.countP_cons] at hbounds
    simp only [decide_eq_true_eq] at hbounds
    simp only [Pi.sub_apply, Pi.single_apply, eq_comm (a := lower)]
    split at hbounds <;> simp only [*, if_true, if_false] <;> omega
  have hopen : s.openLogs - 1 = (front ++ back).length + s.stuck.length := by
    have hlen := h.openLogs
    rw [hperm.length_eq, List.length_cons] at hlen
    rw [hlen]
    omega
  cases unlinks with
  | true => exact ⟨haccount, hsActive, hopen, (h.filed.perm hfiles).unlink⟩
  | false => exact ⟨haccount, hsActive, hopen, h.filed.perm (hfiles.trans List.perm_middle.symm)⟩

/-- Every event keeps the invariant. -/
theorem step (h : s.Accounted) {e : LifeEvent} {s' : LifeState} (he : e.Regular)
    (hstep : s.step e = some s') : s'.Accounted := by
  cases e with
  | mount lower entry env =>
    cases hstep
    exact h.reset.mount (s.mounts lower entry he)
  | umount id unlinks =>
    obtain ⟨sb, hsb, rfl⟩ := Option.map_eq_some_iff.mp hstep
    exact h.umount hsb unlinks
  | record id =>
    obtain ⟨sb, -, rfl⟩ := Option.map_eq_some_iff.mp hstep
    exact ⟨h.account, h.sActive, h.openLogs, h.filed⟩
  | create entry =>
    rw [LifeState.step] at hstep
    split at hstep
    · cases hstep
    · cases hstep
      refine { h with filed := (h.filed.insert entry).perm ?_ }
      simp only [files, ← List.append_assoc]
      exact List.perm_middle.symm
  | remove entry =>
    cases hstep
    exact { h with filed := h.filed.remove entry }
  | rename entry entry' =>
    rw [LifeState.step] at hstep
    split at hstep
    · cases hstep
    · rename_i log hlog
      cases hstep
      exact { h with filed := h.filed.rename hlog entry' }

end Accounted

/-- The log of a stuck superblock lies under an entry. -/
def LeftBehind (entry id : ℕ) (s : LifeState) : Prop :=
  ∃ sb ∈ s.stuck, sb.id = id ∧ s.entries entry = some sb.log

/-- A log that is left behind stays, unless another process removes it. -/
theorem LeftBehind.step {entry id : ℕ} {s s' : LifeState} {e : LifeEvent}
    (h : s.LeftBehind entry id) (haccounted : s.Accounted) (he : e.Regular)
    (hremoves : ¬e.Removes entry) (hstep : s.step e = some s') : s'.LeftBehind entry id := by
  obtain ⟨sb, hsb, hid, hentry⟩ := h
  cases e with
  | mount lower entry' env =>
    cases hstep
    have hmounts := s.mounts lower entry' he
    generalize s.mount lower entry' env = s' at hmounts ⊢
    cases hmounts with
    | fails => exact ⟨sb, hsb, hid, hentry⟩
    | works hnone =>
      have hne : entry ≠ entry' := fun heq => by cases (heq ▸ hentry).symm.trans hnone
      exact ⟨sb, hsb, hid, (Function.update_of_ne hne _ _).trans hentry⟩
    | faults last hnone =>
      have hne : entry ≠ entry' := fun heq => by cases (heq ▸ hentry).symm.trans hnone
      exact ⟨sb, List.mem_cons_of_mem _ hsb, hid, (Function.update_of_ne hne _ _).trans hentry⟩
  | record id' =>
    obtain ⟨sb', -, rfl⟩ := Option.map_eq_some_iff.mp hstep
    exact ⟨sb, hsb, hid, hentry⟩
  | umount id' unlinks =>
    obtain ⟨sb', hsb', rfl⟩ := Option.map_eq_some_iff.mp hstep
    have hlive : sb' ∈ s.live := List.mem_of_find?_eq_some hsb'
    -- the log of a mount is not the log of a stuck one
    have hne : sb.log ≠ sb'.log := by
      have hlogs := (List.nodup_append'.mp haccounted.filed.distinct).1
      have hdisjoint := (List.nodup_append'.mp hlogs).2.2
      exact fun heq => hdisjoint (List.mem_map_of_mem hlive) (heq ▸ List.mem_map_of_mem hsb)
    rw [umount_of_mounted s (haccounted.account sb' hlive)]
    cases unlinks with
    | true =>
      refine ⟨sb, hsb, hid, ?_⟩
      simp only [unlink, if_true, hentry, Option.some_inj, hne, if_false]
    | false => exact ⟨sb, hsb, hid, hentry⟩
  | create entry' =>
    rw [LifeState.step] at hstep
    split at hstep
    · cases hstep
    · rename_i hnone
      cases hstep
      have hne : entry ≠ entry' := fun heq => by cases (heq ▸ hentry).symm.trans hnone
      exact ⟨sb, hsb, hid, (Function.update_of_ne hne _ _).trans hentry⟩
  | remove entry' =>
    cases hstep
    have hne : entry ≠ entry' := fun heq => hremoves heq.symm
    exact ⟨sb, hsb, hid, (Function.update_of_ne hne _ _).trans hentry⟩
  | rename entry' entry'' =>
    have hne : entry ≠ entry' := fun heq => hremoves (.inl heq.symm)
    have hne' : entry ≠ entry'' := fun heq => hremoves (.inr heq.symm)
    rw [LifeState.step] at hstep
    split at hstep
    · cases hstep
    · cases hstep
      refine ⟨sb, hsb, hid, ?_⟩
      simp only [Function.update_of_ne hne', Function.update_of_ne hne]
      exact hentry

end LifeState

end Mount

end Trfs
