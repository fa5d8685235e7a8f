import TraceFileSystem.Cache.InodeCache
import TraceFileSystem.Record.FillRecord

/-!
# References to lower inodes

An inode of trfs holds one reference to the lower inode it stands for: `trfs_iget` takes it with
`igrab`, and `trfs_evict_inode` gives it back.  Whoever calls `trfs_iget` has a reference of his
own, which it does not touch; `trfs_nfs_get_inode` gets one from `ilookup`.

`RefState.lowerRefs` counts the references that trfs has taken and not given back.  It is the number
of inodes that stand for the lower inode as long as allocations and `igrab` succeed and nothing
comes from NFS; these are exactly the calls that keep it so (`conserved_iff`):

* when no inode can be allocated, `trfs_iget` gives back a reference it has not taken;
* when `igrab` fails, the new inode stays in the hash table;
* `trfs_nfs_get_inode` does not give back the reference from `ilookup`, and when there is none it
  passes NULL on.
-/

namespace Trfs

open LabelledSystem

/-- The inodes of a mount, and the references to lower inodes that trfs has taken and not given
back. -/
structure RefState where
  cache : InodeCache
  lowerRefs : LowerInode → ℤ

namespace RefState

/-- A new mount. -/
def boot : RefState where
  cache := .empty
  lowerRefs _ := 0

/-- A reference is taken. -/
def grab (s : RefState) (l : LowerInode) : RefState :=
  { s with lowerRefs := Function.update s.lowerRefs l (s.lowerRefs l + 1) }

/-- A reference is given back. -/
def iput (s : RefState) (l : LowerInode) : RefState :=
  { s with lowerRefs := Function.update s.lowerRefs l (s.lowerRefs l - 1) }

/-- `trfs_iget`, which returns an inode or an error.  `alloc` is whether `iget5_locked` can allocate
an inode, `igrab` whether the lower inode can be grabbed. -/
def trfsIget (s : RefState) (lower : Option LowerInode) (alloc igrab : Bool) :
    Except Fault (RefState × Option ℕ) :=
  match lower with
  | none => .error .nullDeref
  | some l =>
    match s.cache.find l with
    | some i => .ok (s, some i)
    | none =>
      if alloc = false then .ok (s.iput l, none)
      else
        let i := s.cache.next
        let s := { s with cache := s.cache.insert l }
        if igrab = false then .ok (s, none)
        else
          let s := s.grab l
          .ok ({ s with cache := (s.cache.setLower i (some l)).unlockNew i }, some i)

/-- `trfs_nfs_get_inode`, when `ilookup` returns `looked`. -/
def trfsNfsGetInode (s : RefState) (looked : Option LowerInode) (alloc igrab : Bool) :
    Except Fault (RefState × Option ℕ) :=
  match looked with
  | none => s.trfsIget none alloc igrab
  | some l => (s.grab l).trfsIget (some l) alloc igrab

/-- `trfs_evict_inode`, after which the inode leaves the hash table.  Giving back NULL does
nothing. -/
def trfsEvictInode (s : RefState) (i : ℕ) : RefState :=
  let lower := (s.cache.inode i).lower
  let s := { s with cache := ((s.cache.startEvict i).setLower i none).unhash i }
  match lower with
  | none => s
  | some l => s.iput l

end RefState

/-- Calls, with what their environment decides. -/
inductive RefCall where
  /-- `trfs_iget` from interposition or from the mount. -/
  | iget (l : LowerInode) (alloc igrab : Bool)
  /-- `trfs_nfs_get_inode`. -/
  | nfsGetInode (ino : ℕ) (looked : Option LowerInode) (alloc igrab : Bool)
  /-- The last reference to an inode is dropped. -/
  | evictInode (i : ℕ)

namespace RefState

/-- A call.  The lower file system finds inodes by their numbers, and an inode that is new or not
there is not evicted. -/
def call (s : RefState) : RefCall → Option (Except Fault (RefState × Option ℕ))
  | .iget l alloc igrab => some (s.trfsIget (some l) alloc igrab)
  | .nfsGetInode ino looked alloc igrab =>
    if ∀ l ∈ looked, l.ino = ino then some (s.trfsNfsGetInode looked alloc igrab) else none
  | .evictInode i =>
    if i ∈ s.cache.chain ∧ (s.cache.inode i).isNew = false then
      some (.ok (s.trfsEvictInode i, some i))
    else none

/-- One call of a sequence.  After a fault there is no next one. -/
def step (s : RefState) (c : RefCall) : Option RefState :=
  match s.call c with
  | some (.ok (s', _)) => some s'
  | _ => none

/-- The inodes that stand for a lower inode. -/
def serving (s : RefState) (l : LowerInode) : ℕ :=
  s.cache.chain.countP fun i => (s.cache.inode i).lower = some l

/-- Trfs holds one reference for each inode that stands for a lower one. -/
def Balanced (s : RefState) : Prop :=
  ∀ l, s.lowerRefs l = s.serving l

/-- A call keeps the references: it does not fault, afterwards there is one reference for each
inode, and if it fails, there are the same references and the same inodes as before. -/
def Conserves (s : RefState) (c : RefCall) : Prop :=
  match s.call c with
  | none => True
  | some (.error _) => False
  | some (.ok (s', some _)) => s'.Balanced
  | some (.ok (s', none)) =>
    s'.Balanced ∧ s'.lowerRefs = s.lowerRefs ∧ s'.cache.chain = s.cache.chain

end RefState

/-- The calls that do not fail, except for those of `trfs_nfs_get_inode` in which both mistakes
cancel each other. -/
def RefCall.Fine (s : RefState) : RefCall → Prop
  | .iget l alloc igrab => s.cache.find l ≠ none ∨ alloc = true ∧ igrab = true
  | .nfsGetInode ino looked alloc _ => (∀ l ∈ looked, l.ino = ino) →
      alloc = false ∧ ∃ l ∈ looked, s.cache.find l = none
  | .evictInode _ => True

/-! ### What the calls do to the numbers of inodes -/

namespace RefState

variable {s s' : RefState} {c : RefCall} {l : LowerInode} {i : ℕ}

/-- There is one reference for each inode that stands for a lower one, in a hash table in order. -/
structure Inv (s : RefState) : Prop where
  hashed : s.cache.Hashed
  balanced : s.Balanced

/-- A new mount has no inodes. -/
theorem inv_boot : boot.Inv where
  hashed := ⟨List.nodup_nil, by simp [boot, InodeCache.empty], by simp [boot, InodeCache.empty]⟩
  balanced _ := rfl

/-- The state after a new inode was filled in. -/
def filled (s : RefState) (l : LowerInode) : RefState :=
  { s with cache := ((s.cache.insert l).setLower s.cache.next (some l)).unlockNew s.cache.next }

/-- What the inodes stand for after a new one was filled in. -/
theorem lower_filled (s : RefState) (l : LowerInode) (j : ℕ) :
    ((s.filled l).cache.inode j).lower =
      if j = s.cache.next then some l else (s.cache.inode j).lower := by
  by_cases hj : j = s.cache.next
  · subst hj
    simp [filled, InodeCache.unlockNew, InodeCache.setLower]
  · rw [if_neg hj]
    simp [filled, InodeCache.unlockNew, InodeCache.setLower, InodeCache.inode_modify_of_ne hj,
      InodeCache.insert, Function.update_of_ne hj]

/-- One more inode stands for the lower inode. -/
theorem serving_filled (hs : s.cache.Hashed) (l l' : LowerInode) :
    (s.filled l).serving l' = s.serving l' + if l' = l then 1 else 0 := by
  have hold : s.cache.chain.countP (fun i => ((s.filled l).cache.inode i).lower = some l') =
      s.serving l' := by
    refine List.countP_congr fun i hi => ?_
    rw [lower_filled, if_neg (hs.lt i hi).ne]
  have hnew : ((s.filled l).cache.inode s.cache.next).lower = some l := by
    rw [lower_filled, if_pos rfl]
  have hchain : (s.filled l).cache.chain = s.cache.next :: s.cache.chain := rfl
  rw [serving, hchain, List.countP_cons, hold, hnew]
  simp [eq_comm]

/-- The hash table after an inode was evicted. -/
theorem cache_evict (s : RefState) (i : ℕ) :
    (s.trfsEvictInode i).cache = ((s.cache.startEvict i).setLower i none).unhash i := by
  unfold trfsEvictInode
  cases (s.cache.inode i).lower <;> rfl

/-- One inode less stands for the lower inode. -/
theorem serving_evict (hs : s.cache.Hashed) (hi : i ∈ s.cache.chain) (l' : LowerInode) :
    (s.trfsEvictInode i).serving l' + (if (s.cache.inode i).lower = some l' then 1 else 0) =
      s.serving l' := by
  have hothers : (s.cache.chain.erase i).countP
      (fun j => ((s.trfsEvictInode i).cache.inode j).lower = some l') =
      (s.cache.chain.erase i).countP fun j => (s.cache.inode j).lower = some l' := by
    refine List.countP_congr fun j hj => ?_
    have hji : j ≠ i := (hs.nodup.mem_erase_iff.mp hj).1
    rw [cache_evict]
    simp [InodeCache.unhash, InodeCache.setLower, InodeCache.startEvict,
      InodeCache.inode_modify_of_ne hji]
  have hchain : (s.trfsEvictInode i).cache.chain = s.cache.chain.erase i := by
    rw [cache_evict]
    rfl
  rw [serving, hchain, hothers, serving, (List.perm_cons_erase hi).countP_eq, List.countP_cons]
  simp

/-- The references after an inode was evicted. -/
theorem lowerRefs_evict (s : RefState) (i : ℕ) (l' : LowerInode) :
    (s.trfsEvictInode i).lowerRefs l' + (if (s.cache.inode i).lower = some l' then 1 else 0) =
      s.lowerRefs l' := by
  unfold trfsEvictInode
  cases (s.cache.inode i).lower with
  | none => simp
  | some l =>
    by_cases hl : l' = l
    · simp [iput, hl]
    · simp [iput, Function.update_of_ne hl, Ne.symm hl]

/-- Evicting an inode gives its reference back. -/
theorem Inv.evict (hs : s.Inv) (hi : i ∈ s.cache.chain) : (s.trfsEvictInode i).Inv where
  hashed := by
    rw [cache_evict]
    exact ((hs.hashed.startEvict i).setLower fun l' hl' => (by cases hl')).unhash i
  balanced l' := by
    have hrefs := lowerRefs_evict s i l'
    have hserving := serving_evict hs.hashed hi l'
    have hbalanced := hs.balanced l'
    rw [hbalanced, ← hserving] at hrefs
    push_cast at hrefs
    exact add_right_cancel hrefs

/-- A new inode that is filled in. -/
theorem hashed_filled (hs : s.cache.Hashed) (l : LowerInode) : (s.filled l).cache.Hashed := by
  have hfilled : ((s.cache.insert l).setLower s.cache.next (some l)).Hashed := by
    refine (hs.insert l).setLower fun l' hl' => ?_
    cases hl'
    simp [InodeCache.insert, trfsInodeSet]
  exact hfilled.unlockNew _

/-- A new inode with a reference. -/
theorem Inv.grab_filled (hs : s.Inv) (l : LowerInode) : ((s.filled l).grab l).Inv where
  hashed := hashed_filled hs.hashed l
  balanced l' := by
    have hserving : ((s.filled l).grab l).serving l' = s.serving l' + if l' = l then 1 else 0 :=
      serving_filled hs.hashed l l'
    rw [hserving]
    by_cases hl : l' = l
    · subst hl
      simp [grab, filled, hs.balanced l']
    · simp [grab, filled, hl, hs.balanced l']

/-- A reference too much. -/
theorem not_balanced_grab (hs : s.Balanced) (l : LowerInode) : ¬(s.grab l).Balanced := by
  intro h
  have hl := h l
  have hserving : (s.grab l).serving l = s.serving l := rfl
  rw [hserving, ← hs l] at hl
  simp [grab] at hl

/-- An inode that is found is returned. -/
theorem trfsIget_of_found (h : s.cache.find l = some i) (alloc igrab : Bool) :
    s.trfsIget (some l) alloc igrab = .ok (s, some i) := by
  simp only [trfsIget, h]

/-- Without an inode, a reference is given back. -/
theorem trfsIget_of_noAlloc (h : s.cache.find l = none) (igrab : Bool) :
    s.trfsIget (some l) false igrab = .ok (s.iput l, none) := by
  simp only [trfsIget, h, if_true]

/-- Without a reference, the new inode stays. -/
theorem trfsIget_of_noGrab (h : s.cache.find l = none) :
    s.trfsIget (some l) true false = .ok ({ s with cache := s.cache.insert l }, none) := by
  simp [trfsIget, h]

/-- A new inode is filled in and has a reference. -/
theorem trfsIget_of_new (h : s.cache.find l = none) :
    s.trfsIget (some l) true true = .ok ((s.filled l).grab l, some s.cache.next) := by
  simp only [trfsIget, h, Bool.true_eq_false, if_false]
  rfl

/-- A new inode that stays is in the hash table. -/
theorem chain_insert_ne (c : InodeCache) (l : LowerInode) : (c.insert l).chain ≠ c.chain := by
  intro h
  have hlen := congrArg List.length h
  simp [InodeCache.insert] at hlen

/-- A reference that is given back is one less. -/
theorem lowerRefs_iput_ne (s : RefState) (l : LowerInode) : (s.iput l).lowerRefs ≠ s.lowerRefs := by
  intro h
  have hl := congrFun h l
  simp [iput] at hl

/-- `trfs_iget` keeps the references exactly if it finds an inode, or gets one and grabs the lower
inode. -/
theorem Inv.conserves_iget_iff (hs : s.Inv) (l : LowerInode) (alloc igrab : Bool) :
    s.Conserves (.iget l alloc igrab) ↔ (RefCall.iget l alloc igrab).Fine s := by
  unfold Conserves RefCall.Fine call
  cases hfind : s.cache.find l with
  | some i =>
    simp only [trfsIget_of_found hfind]
    exact ⟨fun _ => .inl (by simp [hfind]), fun _ => hs.balanced⟩
  | none =>
    cases alloc with
    | false =>
      simp only [trfsIget_of_noAlloc hfind]
      exact ⟨fun h => absurd h.2.1 (lowerRefs_iput_ne s l), fun h => (by simp [hfind] at h)⟩
    | true =>
      cases igrab with
      | false =>
        simp only [trfsIget_of_noGrab hfind]
        exact ⟨fun h => absurd h.2.2 (chain_insert_ne _ l), fun h => (by simp [hfind] at h)⟩
      | true =>
        simp only [trfsIget_of_new hfind]
        exact ⟨fun _ => .inr (by simp), fun _ => (hs.grab_filled l).balanced⟩

/-- `trfs_nfs_get_inode` keeps the references exactly if the reference from `ilookup` is given back
because no inode can be allocated. -/
theorem Inv.conserves_nfs_iff (hs : s.Inv) (ino : ℕ) (looked : Option LowerInode)
    (alloc igrab : Bool) : s.Conserves (.nfsGetInode ino looked alloc igrab) ↔
      (RefCall.nfsGetInode ino looked alloc igrab).Fine s := by
  unfold Conserves RefCall.Fine call
  by_cases hino : ∀ l ∈ looked, l.ino = ino
  · simp only [if_pos hino]
    refine Iff.trans ?_ (forall_prop_of_true hino).symm
    cases looked with
    | none => simp [trfsNfsGetInode, trfsIget]
    | some l =>
      have hgrab := not_balanced_grab hs.balanced l
      cases hfind : s.cache.find l with
      | some i =>
        have hfind' : (s.grab l).cache.find l = some i := hfind
        simp only [trfsNfsGetInode, trfsIget_of_found hfind']
        exact ⟨fun h => absurd h hgrab, fun h => (by simp [hfind] at h)⟩
      | none =>
        have hfind' : (s.grab l).cache.find l = none := hfind
        cases alloc with
        | false =>
          have hback : ((s.grab l).iput l).lowerRefs = s.lowerRefs := by
            simp [grab, iput]
          simp only [trfsNfsGetInode, trfsIget_of_noAlloc hfind']
          refine ⟨fun _ => (by simp [hfind]), fun _ => ⟨?_, hback, rfl⟩⟩
          intro l'
          rw [hback]
          exact hs.balanced l'
        | true =>
          cases igrab with
          | false =>
            simp only [trfsNfsGetInode, trfsIget_of_noGrab hfind']
            exact ⟨fun h => absurd h.2.2 (chain_insert_ne _ l), fun h => (by simp at h)⟩
          | true =>
            simp only [trfsNfsGetInode, trfsIget_of_new hfind']
            refine ⟨fun h => ?_, fun h => (by simp at h)⟩
            exact absurd h (not_balanced_grab (hs.grab_filled l).balanced l)
  · simp only [if_neg hino]
    exact ⟨fun _ h => absurd h hino, fun _ => trivial⟩

/-- A call keeps the references exactly if it is one of the fine ones. -/
theorem Inv.conserves_iff (hs : s.Inv) : s.Conserves c ↔ c.Fine s := by
  cases c with
  | iget l alloc igrab => exact hs.conserves_iget_iff l alloc igrab
  | nfsGetInode ino looked alloc igrab => exact hs.conserves_nfs_iff ino looked alloc igrab
  | evictInode i =>
    unfold Conserves RefCall.Fine call
    by_cases hi : i ∈ s.cache.chain ∧ (s.cache.inode i).isNew = false
    · simp only [if_pos hi]
      exact ⟨fun _ => trivial, fun _ => (hs.evict hi.1).balanced⟩
    · simp only [if_neg hi]

/-- `trfs_iget` keeps the hash table in order. -/
theorem hashed_trfsIget (hs : s.cache.Hashed) {lower : Option LowerInode} {alloc igrab : Bool}
    {r : Option ℕ} (h : s.trfsIget lower alloc igrab = .ok (s', r)) : s'.cache.Hashed := by
  cases lower with
  | none => cases h
  | some l =>
    cases hfind : s.cache.find l with
    | some i =>
      rw [trfsIget_of_found hfind] at h
      cases h
      exact hs
    | none =>
      cases alloc with
      | false =>
        rw [trfsIget_of_noAlloc hfind] at h
        cases h
        exact hs
      | true =>
        cases igrab with
        | false =>
          rw [trfsIget_of_noGrab hfind] at h
          cases h
          exact hs.insert l
        | true =>
          rw [trfsIget_of_new hfind] at h
          cases h
          exact hashed_filled hs l

/-- Every call keeps the hash table in order. -/
theorem Inv.hashed_call (hs : s.Inv) {r : Option ℕ} (h : s.call c = some (.ok (s', r))) :
    s'.cache.Hashed := by
  cases c with
  | iget l alloc igrab => exact hashed_trfsIget hs.hashed (Option.some_inj.mp h)
  | nfsGetInode ino looked alloc igrab =>
    obtain ⟨-, h⟩ := Option.ite_none_right_eq_some.mp h
    cases looked with
    | none => cases h
    | some l =>
      have higet : (s.grab l).trfsIget (some l) alloc igrab = .ok (s', r) := Option.some_inj.mp h
      exact hashed_trfsIget (s := s.grab l) hs.hashed higet
  | evictInode i =>
    obtain ⟨⟨hi, -⟩, h⟩ := Option.ite_none_right_eq_some.mp h
    cases h
    exact (hs.evict hi).hashed

/-- After a call that keeps the references, the invariant holds. -/
theorem Inv.step (hs : s.Inv) (hc : s.Conserves c) (hstep : s.step c = some s') : s'.Inv := by
  unfold RefState.step at hstep
  split at hstep
  · next s₁ r hcall =>
    cases hstep
    refine ⟨hs.hashed_call hcall, ?_⟩
    unfold Conserves at hc
    rw [hcall] at hc
    cases r with
    | some i => exact hc
    | none => exact hc.1
  · cases hstep

end RefState

/-- **References are conserved.**  For every sequence of calls on a new mount: every call of the
sequence keeps the references if and only if every call is one of the fine ones. -/
theorem conserved_iff (cs : List RefCall) :
    RunAllowed RefState.step RefState.Conserves .boot cs ↔
      RunAllowed RefState.step RefCall.Fine .boot cs := by
  have hiff (s : RefState) (c : RefCall) (hs : s.Inv) : s.Conserves c ↔ c.Fine s := hs.conserves_iff
  have hstep (s : RefState) (c : RefCall) (s' : RefState) (hs : s.Inv) (hc : s.Conserves c)
      (hstep : s.step c = some s') : s'.Inv := hs.step hc hstep
  exact runAllowed_congr hiff hstep RefState.inv_boot

/-- The four ways to lose count, each with the first call on a new mount: no inode can be allocated,
the lower inode cannot be grabbed, `ilookup` finds nothing, and `ilookup` finds an inode. -/
theorem not_conserved_failures :
    ¬RunAllowed RefState.step RefState.Conserves .boot [.iget ⟨0, 7⟩ false true] ∧
      ¬RunAllowed RefState.step RefState.Conserves .boot [.iget ⟨0, 7⟩ true false] ∧
      ¬RunAllowed RefState.step RefState.Conserves .boot [.nfsGetInode 7 none true true] ∧
      ¬RunAllowed RefState.step RefState.Conserves .boot
        [.nfsGetInode 7 (some ⟨0, 7⟩) true true] := by
  have hfind : RefState.boot.cache.find ⟨0, 7⟩ = none := rfl
  refine ⟨?_, ?_, ?_, ?_⟩ <;> intro h <;> have hfine := RefState.inv_boot.conserves_iff.mp h.1
  · simp [RefCall.Fine, hfind] at hfine
  · simp [RefCall.Fine, hfind] at hfine
  · simp [RefCall.Fine] at hfine
  · simp [RefCall.Fine] at hfine

end Trfs
