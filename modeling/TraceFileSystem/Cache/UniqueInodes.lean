import TraceFileSystem.Cache.InodeCache

/-!
# One inode for each lower inode

Any number of calls of `trfs_iget` on one mount, interleaved with each other and with the eviction
of inodes.  A call takes four steps: `iget5_locked`, which finds an inode or puts a new one into the
hash table, `igrab`, `trfs_set_lower_inode` and `unlock_new_inode`.

Between the first and the third step a new inode stands for no lower inode, so that nobody finds it.
As long as nobody else asks for the same lower inode in the meantime, there is one inode for it
(`uniqueUpper_of_run`).  Two calls that put a new inode into the hash table one after the other
leave two of them (`not_uniqueUpper_race`).
-/

namespace Trfs

open LabelledSystem

/-- A call of `trfs_iget` for a lower inode that has not returned, with the inode it works on. -/
inductive IgetCall where
  /-- It has found the inode, and waits until it is not new. -/
  | found (l : LowerInode) (i : ℕ)
  /-- It has put a new inode into the hash table. -/
  | fresh (l : LowerInode) (i : ℕ)
  /-- `igrab` has succeeded. -/
  | grabbed (l : LowerInode) (i : ℕ)
  /-- `trfs_set_lower_inode` is done. -/
  | filled (l : LowerInode) (i : ℕ)
  deriving DecidableEq

namespace IgetCall

/-- The inode a call works on. -/
def inode : IgetCall → ℕ
  | found _ i | fresh _ i | grabbed _ i | filled _ i => i

/-- The lower inode a call is for. -/
def target : IgetCall → LowerInode
  | found l _ | fresh l _ | grabbed l _ | filled l _ => l

/-- The call is between `iget5_locked` and `trfs_set_lower_inode`. -/
def unset : IgetCall → Bool
  | fresh _ _ | grabbed _ _ => true
  | found _ _ | filled _ _ => false

/-- It is there for a certain lower inode. -/
def unsetFor (l : LowerInode) (c : IgetCall) : Bool :=
  c.unset && c.target = l

end IgetCall

/-- The inodes of the mount, the calls that have not returned, the references that calls have
returned and that are still in use, and those that were lost. -/
structure IgetState where
  cache : InodeCache
  calls : List IgetCall
  refs : List (LowerInode × ℕ)
  lost : List ℕ

/-- Steps of calls and of evictions. -/
inductive IgetEvent where
  /-- `iget5_locked`, for which an inode can be allocated or not. -/
  | iget5Locked (l : LowerInode) (alloc : Bool)
  /-- `iget5_locked` and `trfs_iget` return an inode that is not new. -/
  | wake (l : LowerInode) (i : ℕ)
  /-- `igrab` of the lower inode, which may fail. -/
  | igrab (l : LowerInode) (i : ℕ) (ok : Bool)
  | setLowerInode (l : LowerInode) (i : ℕ)
  | unlockNewInode (l : LowerInode) (i : ℕ)
  /-- A reference is dropped. -/
  | iput (l : LowerInode) (i : ℕ)
  /-- `trfs_evict_inode`. -/
  | evictInode (i : ℕ)
  /-- An inode that was evicted leaves the hash table. -/
  | unhash (i : ℕ)
  deriving DecidableEq

namespace IgetState

/-- A new mount. -/
def boot : IgetState where
  cache := .empty
  calls := []
  refs := []
  lost := []

/-- The inodes to which somebody has a reference, once for each reference. -/
def holders (s : IgetState) : List ℕ :=
  s.calls.map IgetCall.inode ++ s.refs.map Prod.snd ++ s.lost

/-- One step.  A call that finds an inode that is being freed waits, and so does one that has found
an inode which is new.  When `igrab` fails, the call returns without giving the new inode back. -/
def step (s : IgetState) : IgetEvent → Option IgetState
  | .iget5Locked l alloc =>
    match s.cache.find l with
    | some i =>
      if (s.cache.inode i).freeing then none
      else some { s with calls := .found l i :: s.calls }
    | none =>
      if alloc then
        some { s with cache := s.cache.insert l, calls := .fresh l s.cache.next :: s.calls }
      else some s
  | .wake l i =>
    if .found l i ∈ s.calls ∧ (s.cache.inode i).isNew = false then
      some { s with calls := s.calls.erase (.found l i), refs := (l, i) :: s.refs }
    else none
  | .igrab l i ok =>
    if .fresh l i ∈ s.calls then
      if ok then some { s with calls := .grabbed l i :: s.calls.erase (.fresh l i) }
      else some { s with calls := s.calls.erase (.fresh l i), lost := i :: s.lost }
    else none
  | .setLowerInode l i =>
    if .grabbed l i ∈ s.calls then
      some { s with
        cache := s.cache.setLower i (some l)
        calls := .filled l i :: s.calls.erase (.grabbed l i) }
    else none
  | .unlockNewInode l i =>
    if .filled l i ∈ s.calls then
      some { s with
        cache := s.cache.unlockNew i
        calls := s.calls.erase (.filled l i)
        refs := (l, i) :: s.refs }
    else none
  | .iput l i =>
    if (l, i) ∈ s.refs then
      let s' := { s with refs := s.refs.erase (l, i) }
      if i ∈ s'.holders then some s' else some { s' with cache := s.cache.startEvict i }
    else none
  | .evictInode i =>
    if i ∈ s.cache.chain ∧ (s.cache.inode i).freeing = true then
      some { s with cache := s.cache.setLower i none }
    else none
  | .unhash i =>
    if i ∈ s.cache.chain ∧ (s.cache.inode i).freeing = true ∧ (s.cache.inode i).lower = none then
      some { s with cache := s.cache.unhash i }
    else none

/-- An inode in the hash table that is not being freed and stands for a lower inode. -/
def Serves (s : IgetState) (i : ℕ) (l : LowerInode) : Prop :=
  i ∈ s.cache.chain ∧ (s.cache.inode i).freeing = false ∧ (s.cache.inode i).lower = some l

/-- There is one inode for each lower inode, and all calls for a lower inode whose results are in
use have returned the same one. -/
structure UniqueUpper (s : IgetState) : Prop where
  serves : ∀ i j l, s.Serves i l → s.Serves j l → i = j
  refs : ∀ i j l, (l, i) ∈ s.refs → (l, j) ∈ s.refs → i = j

end IgetState

/-- Nobody asks for a lower inode while a new inode for it does not stand for it yet. -/
def IgetEvent.Apart (s : IgetState) : IgetEvent → Prop
  | .iget5Locked l _ => ∀ c ∈ s.calls, c.unsetFor l = false
  | _ => True

instance IgetEvent.decidableApart (s : IgetState) (e : IgetEvent) : Decidable (e.Apart s) :=
  match e with
  | .iget5Locked l _ => inferInstanceAs (Decidable (∀ c ∈ s.calls, c.unsetFor l = false))
  | .wake _ _ | .igrab _ _ _ | .setLowerInode _ _ | .unlockNewInode _ _ | .iput _ _ | .evictInode _
  | .unhash _ => .isTrue trivial

/-! ### The invariant -/

/-- What is true of the inode of a call: it stands for nothing yet, or for the lower inode of the
call. -/
def IgetCall.Ok (cache : InodeCache) (c : IgetCall) : Prop :=
  if c.unset then (cache.inode c.inode).lower = none ∧ (cache.inode c.inode).hashval = c.target.ino
  else (cache.inode c.inode).lower = some c.target

namespace IgetState

/-- The invariant.  Inodes that somebody has a reference to are in the hash table, and for every
lower inode there is either one inode that stands for it, or one call that is about to make one
stand for it, or neither. -/
structure Inv (s : IgetState) : Prop where
  hashed : s.cache.Hashed
  held : ∀ i ∈ s.holders, i ∈ s.cache.chain ∧ (s.cache.inode i).freeing = false
  refs : ∀ r ∈ s.refs, (s.cache.inode r.2).lower = some r.1
  calls : ∀ c ∈ s.calls, c.Ok s.cache
  once : ∀ l, s.calls.countP (IgetCall.unsetFor l) ≤ 1
  apart : ∀ c ∈ s.calls, c.unset = true → ∀ i, ¬s.Serves i c.target
  own : ∀ c ∈ s.calls, ∀ c' ∈ s.calls, c.unset = true → c'.unset = true → c.inode = c'.inode →
    c.target = c'.target
  unique : ∀ i j l, s.Serves i l → s.Serves j l → i = j

variable {s s' : IgetState} {c c' : IgetCall} {i j : ℕ} {l : LowerInode}

/-- Somebody has a reference to an inode. -/
theorem mem_holders : i ∈ s.holders ↔
    (∃ c ∈ s.calls, c.inode = i) ∨ (∃ r ∈ s.refs, r.2 = i) ∨ i ∈ s.lost := by
  rw [holders, List.mem_append, List.mem_append, List.mem_map, List.mem_map, or_assoc]

/-- Calls end, references are dropped, and calls leave a reference to what they have found or filled
in. -/
theorem Inv.mono (hs : s.Inv) (hcache : s'.cache = s.cache) (hcalls : s'.calls.Sublist s.calls)
    (hrefs : ∀ r ∈ s'.refs, r ∈ s.refs ∨ ∃ c ∈ s.calls, c.unset = false ∧ r = (c.target, c.inode))
    (hlost : ∀ i ∈ s'.lost, i ∈ s.holders) : s'.Inv where
  hashed := hcache ▸ hs.hashed
  held i hi := by
    rw [hcache]
    refine hs.held i ?_
    rcases mem_holders.mp hi with ⟨c, hc, rfl⟩ | ⟨r, hr, rfl⟩ | hi
    · exact mem_holders.mpr (.inl ⟨c, hcalls.subset hc, rfl⟩)
    · rcases hrefs r hr with hr | ⟨c, hc, -, rfl⟩
      · exact mem_holders.mpr (.inr (.inl ⟨r, hr, rfl⟩))
      · exact mem_holders.mpr (.inl ⟨c, hc, rfl⟩)
    · exact hlost i hi
  refs r hr := by
    rw [hcache]
    rcases hrefs r hr with hr | ⟨c, hc, hset, rfl⟩
    · exact hs.refs r hr
    · have hok := hs.calls c hc
      rwa [IgetCall.Ok, hset] at hok
  calls c hc := hcache ▸ hs.calls c (hcalls.subset hc)
  once l := hcalls.countP_le.trans (hs.once l)
  apart c hc hunset i hserves := by
    rw [Serves, hcache] at hserves
    exact hs.apart c (hcalls.subset hc) hunset i hserves
  own c hc c' hc' := hs.own c (hcalls.subset hc) c' (hcalls.subset hc')
  unique i j l hi hj := by
    rw [Serves, hcache] at hi hj
    exact hs.unique i j l hi hj

/-- A change to the hash table that concerns none of the inodes in use, and after which no other
inodes stand for lower ones. -/
theorem Inv.frame (hs : s.Inv) {cache : InodeCache} (hhashed : cache.Hashed)
    (hheld : ∀ i ∈ s.holders, i ∈ cache.chain ∧ (cache.inode i).freeing = false ∧
      (cache.inode i).lower = (s.cache.inode i).lower ∧
      (cache.inode i).hashval = (s.cache.inode i).hashval)
    (hserves : ∀ i l, { s with cache := cache }.Serves i l → s.Serves i l) :
    { s with cache := cache }.Inv where
  hashed := hhashed
  held i hi := ⟨(hheld i hi).1, (hheld i hi).2.1⟩
  refs r hr := by
    rw [(hheld r.2 (mem_holders.mpr (.inr (.inl ⟨r, hr, rfl⟩)))).2.2.1]
    exact hs.refs r hr
  calls c hc := by
    obtain ⟨-, -, hlower, hhashval⟩ := hheld c.inode (mem_holders.mpr (.inl ⟨c, hc, rfl⟩))
    rw [IgetCall.Ok, hlower, hhashval]
    exact hs.calls c hc
  once := hs.once
  apart c hc hunset i hi := hs.apart c hc hunset i (hserves i _ hi)
  own := hs.own
  unique i j l hi hj := hs.unique i j l (hserves i l hi) (hserves j l hj)

/-- A call begins, or comes to its next step. -/
theorem Inv.addCall (hs : s.Inv) (hchain : c.inode ∈ s.cache.chain)
    (hfreeing : (s.cache.inode c.inode).freeing = false) (hok : c.Ok s.cache)
    (hunset : c.unset = true → (∀ c' ∈ s.calls, c'.unset = true → c'.target ≠ c.target ∧
      c'.inode ≠ c.inode) ∧ ∀ i, ¬s.Serves i c.target) :
    { s with calls := c :: s.calls }.Inv where
  hashed := hs.hashed
  held i hi := by
    rcases mem_holders.mp hi with ⟨c', hc', rfl⟩ | hi
    · rcases List.mem_cons.mp hc' with rfl | hc'
      · exact ⟨hchain, hfreeing⟩
      · exact hs.held _ (mem_holders.mpr (.inl ⟨c', hc', rfl⟩))
    · exact hs.held i (mem_holders.mpr (.inr hi))
  refs := hs.refs
  calls := List.forall_mem_cons.mpr ⟨hok, hs.calls⟩
  once l := by
    rw [List.countP_cons]
    split
    · next hl =>
      -- no other call is there for the same lower inode
      rw [IgetCall.unsetFor, Bool.and_eq_true, decide_eq_true_iff] at hl
      have hzero : s.calls.countP (IgetCall.unsetFor l) = 0 := by
        rw [List.countP_eq_zero]
        intro c' hc' hl'
        rw [IgetCall.unsetFor, Bool.and_eq_true, decide_eq_true_iff] at hl'
        exact ((hunset hl.1).1 c' hc' hl'.1).1 (hl'.2.trans hl.2.symm)
      rw [hzero]
    · exact hs.once l
  apart := List.forall_mem_cons.mpr ⟨fun h => (hunset h).2, hs.apart⟩
  own := by
    refine List.forall_mem_cons.mpr ⟨List.forall_mem_cons.mpr ⟨fun _ _ _ => rfl, ?_⟩, ?_⟩
    · intro c' hc' h h' heq
      exact absurd heq.symm ((hunset h).1 c' hc' h').2
    · intro c' hc'
      refine List.forall_mem_cons.mpr ⟨?_, hs.own c' hc'⟩
      intro h' h heq
      exact absurd heq ((hunset h).1 c' hc' h').2
  unique := hs.unique

/-- Beside a call that is between `iget5_locked` and `trfs_set_lower_inode` there is no other one
for the same lower inode, and no other one with its inode. -/
theorem Inv.others (hs : s.Inv) (hc : c ∈ s.calls) (hunset : c.unset = true) :
    ∀ c' ∈ s.calls.erase c, c'.unset = true → c'.target ≠ c.target ∧ c'.inode ≠ c.inode := by
  intro c' hc' hunset'
  have htarget : c'.target ≠ c.target := by
    intro htarget
    have hcount := hs.once c.target
    rw [(List.perm_cons_erase hc).countP_eq, List.countP_cons, if_pos] at hcount
    · have hpos : 0 < (s.calls.erase c).countP (IgetCall.unsetFor c.target) :=
        List.countP_pos_iff.mpr ⟨c', hc', by simp [IgetCall.unsetFor, hunset', htarget]⟩
      omega
    · simp [IgetCall.unsetFor, hunset]
  refine ⟨htarget, fun hinode => htarget ?_⟩
  exact hs.own c' (List.mem_of_mem_erase hc') c hc hunset' hunset hinode

/-- A new inode stands for nothing. -/
theorem serves_of_insert {l' : LowerInode} (h : { s with cache := s.cache.insert l }.Serves i l') :
    s.Serves i l' := by
  obtain ⟨hchain, hfreeing, hlower⟩ := h
  by_cases hnew : i = s.cache.next
  · subst hnew
    simp [InodeCache.insert, trfsInodeSet] at hlower
  · have hchain := (List.mem_cons.mp hchain).resolve_left hnew
    simp only [InodeCache.insert, Function.update_of_ne hnew] at hfreeing hlower
    exact ⟨hchain, hfreeing, hlower⟩

/-- A call puts a new inode for a lower inode into the hash table, if there is none and no other
call is about to fill one in. -/
theorem Inv.insert (hs : s.Inv) (hapart : ∀ c ∈ s.calls, c.unsetFor l = false)
    (hfind : s.cache.find l = none) :
    { s with cache := s.cache.insert l, calls := .fresh l s.cache.next :: s.calls }.Inv := by
  have hnew (i : ℕ) (hi : i ∈ s.holders) : i ≠ s.cache.next := (hs.hashed.lt i (hs.held i hi).1).ne
  have hframe : { s with cache := s.cache.insert l }.Inv := by
    refine hs.frame (hs.hashed.insert l) ?_ fun _ _ => serves_of_insert
    intro i hi
    have hinode : (s.cache.insert l).inode i = s.cache.inode i :=
      Function.update_of_ne (hnew i hi) _ _
    rw [hinode]
    exact ⟨List.mem_cons_of_mem _ (hs.held i hi).1, (hs.held i hi).2, rfl, rfl⟩
  have hself : (s.cache.insert l).inode s.cache.next = ⟨l.ino, none, true, false⟩ :=
    Function.update_self _ _ _
  refine hframe.addCall (c := .fresh l s.cache.next) List.mem_cons_self (congrArg _ hself)
    ⟨congrArg _ hself, congrArg _ hself⟩ fun _ => ⟨?_, ?_⟩
  · intro c' hc' hunset
    refine ⟨?_, hnew _ (mem_holders.mpr (.inl ⟨c', hc', rfl⟩))⟩
    rintro rfl
    have := hapart c' hc'
    simp [IgetCall.unsetFor, hunset, IgetCall.target] at this
  · intro i hserves
    obtain ⟨hchain, -, hlower⟩ := serves_of_insert hserves
    exact hs.hashed.lower_ne hfind hchain hlower

/-- A lower inode is filled in: only its inode stands for something else. -/
theorem serves_of_setLower {l' : LowerInode}
    (h : { s with cache := s.cache.setLower i (some l) }.Serves j l') :
    j = i ∧ l' = l ∨ s.Serves j l' := by
  obtain ⟨hchain, hfreeing, hlower⟩ := h
  by_cases hji : j = i
  · subst hji
    rw [InodeCache.setLower, InodeCache.inode_modify_self, Option.some_inj] at hlower
    exact .inl ⟨rfl, hlower.symm⟩
  · rw [InodeCache.setLower, InodeCache.inode_modify_of_ne hji] at hlower
    exact .inr ⟨hchain, (s.cache.freeing_setLower i j _).symm.trans hfreeing, hlower⟩

/-- A lower inode for which there is neither an inode nor a call is filled in where nobody looks at
it. -/
theorem Inv.fill (hs : s.Inv) (hhashval : (s.cache.inode i).hashval = l.ino)
    (hrefs : ∀ r ∈ s.refs, r.2 ≠ i) (hcalls : ∀ c ∈ s.calls, c.inode ≠ i)
    (htarget : ∀ c ∈ s.calls, c.unset = true → c.target ≠ l) (hapart : ∀ j, ¬s.Serves j l) :
    { s with cache := s.cache.setLower i (some l) }.Inv where
  hashed := by
    refine hs.hashed.setLower fun l' hl' => ?_
    cases hl'
    exact hhashval
  held j hj := by
    obtain ⟨hchain, hfreeing⟩ := hs.held j hj
    exact ⟨hchain, (s.cache.freeing_setLower i j _).trans hfreeing⟩
  refs r hr := by
    rw [InodeCache.setLower, InodeCache.inode_modify_of_ne (hrefs r hr)]
    exact hs.refs r hr
  calls c hc := by
    rw [IgetCall.Ok, InodeCache.setLower, InodeCache.inode_modify_of_ne (hcalls c hc)]
    exact hs.calls c hc
  once := hs.once
  apart c hc hunset j hj := by
    rcases serves_of_setLower hj with ⟨-, hl⟩ | hj
    · exact htarget c hc hunset hl
    · exact hs.apart c hc hunset j hj
  own := hs.own
  unique j j' l' hj hj' := by
    rcases serves_of_setLower hj with ⟨hji, hl⟩ | hold
    · rcases serves_of_setLower hj' with ⟨hji', -⟩ | hold'
      · rw [hji, hji']
      · exact absurd (hl ▸ hold') (hapart j')
    · rcases serves_of_setLower hj' with ⟨-, hl⟩ | hold'
      · exact absurd (hl ▸ hold) (hapart j)
      · exact hs.unique j j' l' hold hold'

/-- A new inode is made to stand for a lower inode. -/
theorem Inv.setLower (hs : s.Inv) (hc : .grabbed l i ∈ s.calls) :
    { s with
      cache := s.cache.setLower i (some l)
      calls := .filled l i :: s.calls.erase (.grabbed l i) }.Inv := by
  obtain ⟨hchain, hfreeing⟩ := hs.held i (mem_holders.mpr (.inl ⟨_, hc, rfl⟩))
  obtain ⟨hlower, hhashval⟩ := hs.calls _ hc
  have hothers := hs.others hc rfl
  have hapart : ∀ j, ¬s.Serves j l := hs.apart _ hc rfl
  have herased : { s with calls := s.calls.erase (.grabbed l i) }.Inv :=
    hs.mono rfl List.erase_sublist (fun r hr => .inl hr) fun j hj =>
      mem_holders.mpr (.inr (.inr hj))
  have hrefs : ∀ r ∈ s.refs, r.2 ≠ i := by
    intro r hr hri
    have hr' := hs.refs r hr
    rw [hri] at hr'
    cases hr'.symm.trans hlower
  have hcalls : ∀ c ∈ s.calls.erase (.grabbed l i), c.inode ≠ i := by
    intro c hc' hci
    have hok := hs.calls c (List.mem_of_mem_erase hc')
    cases hunset : c.unset with
    | true => exact (hothers c hc' hunset).2 hci
    | false =>
      rw [IgetCall.Ok, hunset, hci] at hok
      cases hok.symm.trans hlower
  have hfilled := herased.fill hhashval hrefs hcalls
    (fun c hc' hunset => (hothers c hc' hunset).1) hapart
  refine hfilled.addCall (c := .filled l i) hchain ?_ ?_ fun h => (by cases h)
  · exact (s.cache.freeing_setLower i i _).trans hfreeing
  · change ((s.cache.setLower i (some l)).inode i).lower = some l
    rw [InodeCache.setLower, InodeCache.inode_modify_self]

/-- `igrab` succeeds. -/
theorem Inv.grab (hs : s.Inv) (hc : .fresh l i ∈ s.calls) :
    { s with calls := .grabbed l i :: s.calls.erase (.fresh l i) }.Inv := by
  obtain ⟨hchain, hfreeing⟩ := hs.held i (mem_holders.mpr (.inl ⟨_, hc, rfl⟩))
  have herased : { s with calls := s.calls.erase (.fresh l i) }.Inv :=
    hs.mono rfl List.erase_sublist (fun r hr => .inl hr) fun j hj => mem_holders.mpr
    (.inr (.inr hj))
  have hok : (IgetCall.fresh l i).Ok s.cache := hs.calls _ hc
  have hapart : ∀ j, ¬s.Serves j l := hs.apart _ hc rfl
  exact herased.addCall (c := .grabbed l i) hchain hfreeing hok fun _ => ⟨hs.others hc rfl, hapart⟩

/-- A call returns what it has found or filled in. -/
theorem Inv.return (hs : s.Inv) (hc : c ∈ s.calls) (hset : c.unset = false) :
    { s with calls := s.calls.erase c, refs := (c.target, c.inode) :: s.refs }.Inv := by
  refine hs.mono rfl List.erase_sublist ?_ fun j hj => mem_holders.mpr (.inr (.inr hj))
  refine List.forall_mem_cons.mpr ⟨.inr ⟨c, hc, hset, rfl⟩, fun r hr => .inl hr⟩

/-- `unlock_new_inode`. -/
theorem Inv.unlockNew (hs : s.Inv) (i : ℕ) : { s with cache := s.cache.unlockNew i }.Inv := by
  have hsame (j : ℕ) : ((s.cache.unlockNew i).inode j).lower = (s.cache.inode j).lower ∧
      ((s.cache.unlockNew i).inode j).freeing = (s.cache.inode j).freeing ∧
      ((s.cache.unlockNew i).inode j).hashval = (s.cache.inode j).hashval := by
    by_cases hji : j = i
    · subst hji
      simp [InodeCache.unlockNew]
    · simp [InodeCache.unlockNew, InodeCache.inode_modify_of_ne hji]
  refine hs.frame (hs.hashed.unlockNew i) ?_ ?_
  · intro j hj
    obtain ⟨hlower, hfreeing, hhashval⟩ := hsame j
    exact ⟨(hs.held j hj).1, hfreeing.trans (hs.held j hj).2, hlower, hhashval⟩
  · rintro j l ⟨hchain, hfreeing, hlower⟩
    obtain ⟨hlower', hfreeing', -⟩ := hsame j
    exact ⟨hchain, hfreeing'.symm.trans hfreeing, hlower'.symm.trans hlower⟩

/-- An inode to which nobody has a reference is changed such that it is being freed. -/
theorem Inv.modifyFree (hs : s.Inv) (hi : i ∉ s.holders) {f : UpperInode → UpperInode}
    (hfree : (f (s.cache.inode i)).freeing = true)
    (hhashed : (s.cache.modify i f).Hashed) : { s with cache := s.cache.modify i f }.Inv := by
  refine hs.frame hhashed ?_ ?_
  · intro j hj
    have hji : j ≠ i := fun h => hi (h ▸ hj)
    rw [InodeCache.inode_modify_of_ne hji]
    exact ⟨(hs.held j hj).1, (hs.held j hj).2, rfl, rfl⟩
  · rintro j l ⟨hchain, hfreeing, hlower⟩
    by_cases hji : j = i
    · subst hji
      rw [InodeCache.inode_modify_self, hfree] at hfreeing
      cases hfreeing
    · rw [InodeCache.inode_modify_of_ne hji] at hfreeing hlower
      exact ⟨hchain, hfreeing, hlower⟩

/-- A reference is dropped; the last one starts the eviction. -/
theorem Inv.iput (hs : s.Inv) (hstep : s.step (.iput l i) = some s') : s'.Inv := by
  have herased : { s with refs := s.refs.erase (l, i) }.Inv :=
    hs.mono rfl (List.Sublist.refl _) (fun r hr => .inl (List.mem_of_mem_erase hr))
      fun j hj => mem_holders.mpr (.inr (.inr hj))
  simp only [step] at hstep
  split at hstep
  · split at hstep
    · cases hstep
      exact herased
    · next hi =>
      cases hstep
      exact herased.modifyFree hi rfl (hs.hashed.startEvict i)
  · cases hstep

/-- Nobody has a reference to an inode that is being freed. -/
theorem Inv.not_mem_holders (hs : s.Inv) (hfreeing : (s.cache.inode i).freeing = true) :
    i ∉ s.holders := by
  intro hi
  rw [(hs.held i hi).2] at hfreeing
  cases hfreeing

/-- An inode leaves the hash table. -/
theorem Inv.unhash (hs : s.Inv) (hfreeing : (s.cache.inode i).freeing = true) :
    { s with cache := s.cache.unhash i }.Inv := by
  refine hs.frame (hs.hashed.unhash i) ?_ ?_
  · intro j hj
    have hji : j ≠ i := fun h => hs.not_mem_holders hfreeing (h ▸ hj)
    exact ⟨(List.mem_erase_of_ne hji).mpr (hs.held j hj).1, (hs.held j hj).2, rfl, rfl⟩
  · rintro j l ⟨hchain, hserves⟩
    exact ⟨List.mem_of_mem_erase hchain, hserves⟩

/-- **One step** keeps the invariant, if nobody asks for a lower inode too early. -/
theorem Inv.step (hs : s.Inv) {e : IgetEvent} (he : e.Apart s) (hstep : s.step e = some s') :
    s'.Inv := by
  cases e with
  | iget5Locked l alloc =>
    simp only [IgetState.step] at hstep
    split at hstep
    · next i hfind =>
      obtain ⟨hchain, hlower⟩ := InodeCache.of_find_eq_some hfind
      split at hstep
      · cases hstep
      · next hfreeing =>
        cases hstep
        exact hs.addCall (c := .found l i) hchain (Bool.eq_false_iff.mpr hfreeing) hlower
          fun h => (by cases h)
    · next hfind =>
      split at hstep
      · cases hstep
        exact hs.insert he hfind
      · cases hstep
        exact hs
  | wake l i =>
    obtain ⟨⟨hc, -⟩, hs'⟩ := Option.ite_none_right_eq_some.mp hstep
    cases hs'
    exact hs.return hc rfl
  | igrab l i ok =>
    obtain ⟨hc, hs'⟩ := Option.ite_none_right_eq_some.mp hstep
    cases ok with
    | true =>
      cases hs'
      exact hs.grab hc
    | false =>
      cases hs'
      refine hs.mono rfl List.erase_sublist (fun r hr => .inl hr) ?_
      refine List.forall_mem_cons.mpr ⟨mem_holders.mpr (.inl ⟨_, hc, rfl⟩), ?_⟩
      exact fun j hj => mem_holders.mpr (.inr (.inr hj))
  | setLowerInode l i =>
    obtain ⟨hc, hs'⟩ := Option.ite_none_right_eq_some.mp hstep
    cases hs'
    exact hs.setLower hc
  | unlockNewInode l i =>
    obtain ⟨hc, hs'⟩ := Option.ite_none_right_eq_some.mp hstep
    cases hs'
    exact (hs.unlockNew i).return hc rfl
  | iput l i => exact hs.iput hstep
  | evictInode i =>
    obtain ⟨⟨-, hfreeing⟩, hs'⟩ := Option.ite_none_right_eq_some.mp hstep
    cases hs'
    refine hs.modifyFree (hs.not_mem_holders hfreeing) hfreeing ?_
    exact hs.hashed.setLower fun l' hl' => (by cases hl')
  | unhash i =>
    obtain ⟨⟨-, hfreeing, -⟩, hs'⟩ := Option.ite_none_right_eq_some.mp hstep
    cases hs'
    exact hs.unhash hfreeing

/-- A new mount has no inodes. -/
theorem inv_boot : boot.Inv where
  hashed := ⟨List.nodup_nil, by simp [boot, InodeCache.empty], by simp [boot, InodeCache.empty]⟩
  held i hi := by simp [boot, holders] at hi
  refs r hr := by cases hr
  calls c hc := by cases hc
  once l := Nat.zero_le _
  apart c hc := by cases hc
  own c hc := by cases hc
  unique i j l hi := by cases hi.1

/-- The invariant gives uniqueness. -/
theorem Inv.uniqueUpper (hs : s.Inv) : s.UniqueUpper where
  serves := hs.unique
  refs i j l hi hj := by
    have hserves (i : ℕ) (hi : (l, i) ∈ s.refs) : s.Serves i l :=
      have hheld := hs.held i (mem_holders.mpr (.inr (.inl ⟨_, hi, rfl⟩)))
      ⟨hheld.1, hheld.2, hs.refs _ hi⟩
    exact hs.unique i j l (hserves i hi) (hserves j hj)

end IgetState

/-- **One inode for each lower inode.**  Take any number of calls of `trfs_iget` on a mount, in any
interleaving with each other and with evictions, such that nobody calls `iget5_locked` for a lower
inode while another call for it is between its own `iget5_locked` and `trfs_set_lower_inode`.  Then
no two inodes in the hash table stand for the same lower inode, and all calls for a lower inode
whose results are in use have returned the same inode. -/
theorem uniqueUpper_of_run {es : List IgetEvent} {s : IgetState}
    (hrun : run IgetState.step .boot es = some s)
    (hes : RunAllowed IgetState.step IgetEvent.Apart .boot es) : s.UniqueUpper :=
  (run_invariant (fun _ _ _ hs he hstep => IgetState.Inv.step hs he hstep) IgetState.inv_boot hes
    hrun).uniqueUpper

/-! ### Two calls -/

/-- A lower inode. -/
def lowerInode7 : LowerInode := ⟨0, 7⟩

/-- One call after the other. -/
def igetTwice : List IgetEvent :=
  [.iget5Locked lowerInode7 true, .igrab lowerInode7 0 true, .setLowerInode lowerInode7 0,
    .iget5Locked lowerInode7 true, .unlockNewInode lowerInode7 0, .wake lowerInode7 0]

/-- The second call begins before the first one has made its inode stand for the lower inode. -/
def igetRace : List IgetEvent :=
  [.iget5Locked lowerInode7 true, .iget5Locked lowerInode7 true,
    .igrab lowerInode7 0 true, .setLowerInode lowerInode7 0, .unlockNewInode lowerInode7 0,
    .igrab lowerInode7 1 true, .setLowerInode lowerInode7 1, .unlockNewInode lowerInode7 1]

/-- When the second call begins after the inode stands for the lower inode, both get the same
one. -/
theorem uniqueUpper_igetTwice :
    ∃ s, run IgetState.step .boot igetTwice = some s ∧
      s.refs = [(lowerInode7, 0), (lowerInode7, 0)] ∧ s.UniqueUpper := by
  have hrefs : (run IgetState.step .boot igetTwice).map IgetState.refs =
      some [(lowerInode7, 0), (lowerInode7, 0)] := by
    decide
  obtain ⟨s, hrun, hrefs⟩ := Option.map_eq_some_iff.mp hrefs
  exact ⟨s, hrun, hrefs, uniqueUpper_of_run hrun (by decide)⟩

/-- When it begins before, two inodes stand for the lower inode, and the calls return different
ones. -/
theorem not_uniqueUpper_race :
    ∃ s, run IgetState.step .boot igetRace = some s ∧
      s.Serves 0 lowerInode7 ∧ s.Serves 1 lowerInode7 ∧
      s.refs = [(lowerInode7, 1), (lowerInode7, 0)] ∧ ¬s.UniqueUpper := by
  have hend : (run IgetState.step .boot igetRace).map (fun s =>
      (s.cache.chain, s.cache.inode 0, s.cache.inode 1, s.refs)) =
      some ([1, 0], ⟨7, some lowerInode7, false, false⟩, ⟨7, some lowerInode7, false, false⟩,
        [(lowerInode7, 1), (lowerInode7, 0)]) := by
    decide
  obtain ⟨s, hrun, hs⟩ := Option.map_eq_some_iff.mp hend
  simp only [Prod.mk.injEq] at hs
  obtain ⟨hchain, hzero, hone, hrefs⟩ := hs
  have hserves0 : s.Serves 0 lowerInode7 := by simp [IgetState.Serves, hchain, hzero]
  have hserves1 : s.Serves 1 lowerInode7 := by simp [IgetState.Serves, hchain, hone]
  refine ⟨s, hrun, hserves0, hserves1, hrefs, fun hunique => ?_⟩
  cases hunique.serves 0 1 _ hserves0 hserves1

end Trfs
