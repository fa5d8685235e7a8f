import TraceFileSystem.Lib.Machine

/-!
# The inodes of a mount

The inodes of trfs that are in the hash table, and what `iget5_locked`, `trfs_iget` and
`trfs_evict_inode` do to them.

An inode is found by the callback `trfs_inode_test`, which compares the lower inode it stands for.
The callback `trfs_inode_set` does nothing: a new inode is put into the hash table before it stands
for anything, and `trfs_iget` makes it stand for a lower inode afterwards.
-/

namespace Trfs

/-- A lower inode, with its number. -/
structure LowerInode where
  addr : ℕ
  ino : ℕ
  deriving DecidableEq

/-- An inode of trfs in the hash table.  `lower` is NULL before the inode is filled in and while it
is evicted, `isNew` is `I_NEW` and `freeing` is `I_FREEING`. -/
structure UpperInode where
  hashval : ℕ
  lower : Option LowerInode
  isNew : Bool
  freeing : Bool
  deriving DecidableEq

/-- The inodes in the hash table, the newest one first. -/
structure InodeCache where
  chain : List ℕ
  inode : ℕ → UpperInode
  next : ℕ

/-- `trfs_inode_test`. -/
def trfsInodeTest (u : UpperInode) (l : LowerInode) : Bool :=
  u.lower = some l

/-- `trfs_inode_set`. -/
def trfsInodeSet (u : UpperInode) (_ : LowerInode) : UpperInode :=
  u

namespace InodeCache

/-- A mount without inodes. -/
def empty : InodeCache where
  chain := []
  inode _ := ⟨0, none, false, false⟩
  next := 0

/-- The search in the hash table. -/
def find (c : InodeCache) (l : LowerInode) : Option ℕ :=
  c.chain.find? fun i => (c.inode i).hashval = l.ino && trfsInodeTest (c.inode i) l

/-- A change to an inode. -/
def modify (c : InodeCache) (i : ℕ) (f : UpperInode → UpperInode) : InodeCache :=
  { c with inode := Function.update c.inode i (f (c.inode i)) }

/-- A new inode is set up for a lower one and put into the hash table. -/
def insert (c : InodeCache) (l : LowerInode) : InodeCache where
  chain := c.next :: c.chain
  inode := Function.update c.inode c.next (trfsInodeSet ⟨l.ino, none, true, false⟩ l)
  next := c.next + 1

/-- `trfs_set_lower_inode`. -/
def setLower (c : InodeCache) (i : ℕ) (l : Option LowerInode) : InodeCache :=
  c.modify i fun u => { u with lower := l }

/-- `unlock_new_inode`. -/
def unlockNew (c : InodeCache) (i : ℕ) : InodeCache :=
  c.modify i fun u => { u with isNew := false }

/-- The last reference is gone, and the inode is about to be evicted. -/
def startEvict (c : InodeCache) (i : ℕ) : InodeCache :=
  c.modify i fun u => { u with freeing := true }

/-- An inode that was evicted leaves the hash table. -/
def unhash (c : InodeCache) (i : ℕ) : InodeCache :=
  { c with chain := c.chain.erase i }

variable {c : InodeCache} {i j : ℕ} {l : LowerInode}

/-- What is found stands for the lower inode. -/
theorem of_find_eq_some (h : c.find l = some i) : i ∈ c.chain ∧ (c.inode i).lower = some l := by
  have htest := List.find?_some h
  rw [Bool.and_eq_true, trfsInodeTest, decide_eq_true_iff] at htest
  exact ⟨List.mem_of_find?_eq_some h, of_decide_eq_true htest.2⟩

/-- Inodes that stand for lower ones are hashed by their numbers, and addresses from `next` on are
not in use. -/
structure Hashed (c : InodeCache) : Prop where
  nodup : c.chain.Nodup
  lt : ∀ i ∈ c.chain, i < c.next
  hashval : ∀ i ∈ c.chain, ∀ l, (c.inode i).lower = some l → (c.inode i).hashval = l.ino

/-- If nothing is found, no inode stands for the lower inode. -/
theorem Hashed.lower_ne (hc : c.Hashed) (h : c.find l = none) (hi : i ∈ c.chain) :
    (c.inode i).lower ≠ some l := by
  intro hl
  have htest := List.find?_eq_none.mp h i hi
  simp [trfsInodeTest, hl, hc.hashval i hi l hl] at htest

/-- A change to an inode is seen in this inode. -/
@[simp] theorem inode_modify_self (c : InodeCache) (i : ℕ) (f : UpperInode → UpperInode) :
    (c.modify i f).inode i = f (c.inode i) :=
  Function.update_self _ _ _

/-- It is not seen in another one. -/
theorem inode_modify_of_ne (h : j ≠ i) (f : UpperInode → UpperInode) :
    (c.modify i f).inode j = c.inode j :=
  Function.update_of_ne h _ _

/-- An inode for which another lower inode is filled in is freed no earlier. -/
theorem freeing_setLower (c : InodeCache) (i j : ℕ) (l : Option LowerInode) :
    ((c.setLower i l).inode j).freeing = (c.inode j).freeing := by
  by_cases h : j = i
  · rw [h, setLower, inode_modify_self]
  · rw [setLower, inode_modify_of_ne h]

/-- A new inode stands for nothing. -/
theorem Hashed.insert (hc : c.Hashed) (l : LowerInode) : (c.insert l).Hashed where
  nodup := List.nodup_cons.mpr ⟨fun h => lt_irrefl _ (hc.lt _ h), hc.nodup⟩
  lt i hi := by
    rcases List.mem_cons.mp hi with rfl | hi
    · exact Nat.lt_succ_self _
    · exact Nat.lt_succ_of_lt (hc.lt i hi)
  hashval i hi l' hl' := by
    by_cases hnew : i = c.next
    · subst hnew
      simp [InodeCache.insert, trfsInodeSet] at hl'
    · have hi := (List.mem_cons.mp hi).resolve_left hnew
      simp only [InodeCache.insert, Function.update_of_ne hnew] at hl' ⊢
      exact hc.hashval i hi l' hl'

/-- A change to an inode that keeps it hashed by the number of its lower inode. -/
theorem Hashed.modify (hc : c.Hashed) {f : UpperInode → UpperInode}
    (hf : i ∈ c.chain → ∀ l, (f (c.inode i)).lower = some l → (f (c.inode i)).hashval = l.ino) :
    (c.modify i f).Hashed where
  nodup := hc.nodup
  lt := hc.lt
  hashval j hj l hl := by
    by_cases hji : j = i
    · subst hji
      rw [inode_modify_self] at hl ⊢
      exact hf hj l hl
    · rw [inode_modify_of_ne hji] at hl ⊢
      exact hc.hashval j hj l hl

/-- An inode is made to stand for a lower inode with its number, or for none. -/
theorem Hashed.setLower (hc : c.Hashed) {l : Option LowerInode}
    (hl : ∀ l' ∈ l, (c.inode i).hashval = l'.ino) : (c.setLower i l).Hashed :=
  hc.modify fun _ l' hl' => hl l' hl'

/-- An inode is no longer new. -/
theorem Hashed.unlockNew (hc : c.Hashed) (i : ℕ) : (c.unlockNew i).Hashed :=
  hc.modify fun hi => hc.hashval i hi

/-- An inode is about to be evicted. -/
theorem Hashed.startEvict (hc : c.Hashed) (i : ℕ) : (c.startEvict i).Hashed :=
  hc.modify fun hi => hc.hashval i hi

/-- An inode leaves the hash table. -/
theorem Hashed.unhash (hc : c.Hashed) (i : ℕ) : (c.unhash i).Hashed where
  nodup := hc.nodup.erase i
  lt j hj := hc.lt j (List.mem_of_mem_erase hj)
  hashval j hj := hc.hashval j (List.mem_of_mem_erase hj)

end InodeCache

end Trfs
