import TraceFileSystem.Concurrency.SameDirectory

/-!
# New directories

`trfs_mkdir` makes the new directory visible in `trfs_interpose` and appends its record afterwards.
A call inside the new directory locks the new directory only, so nothing keeps it from being
recorded first (`not_makersFirst_insideBefore`).  If nothing is called on a name inside a directory
before the record of its `mkdir` has been written, the record of a directory comes before the
records of everything in it and below it (`makersFirst_of_run`).

* `FsState.Known` is the invariant: the directories on the way to a known directory, and those in
  which the names of the present calls stand, have their records.
* A pathname is made from the dentries as they are when the record is filled; `FsState.under`
  remembers the directories on the way at this time.
-/

namespace Trfs

open LabelledSystem Journal

/-! ### Names and directories -/

namespace Task

/-- A directory is made in a directory in which the call has a name. -/
theorem mem_names_of_madeIn {k : Task} {p : ℕ} (h : k.op.madeIn = some p) : p ∈ k.names := by
  unfold TracedOp.madeIn at h
  unfold names
  split at h
  · next hop =>
    split at h
    · cases h
      rw [hop]
      exact List.mem_singleton_self _
    · cases h
  · cases h

/-- A dentry is moved into a directory in which the call has a name. -/
theorem mem_names_of_movedTo {k : Task} {p : ℕ} (h : k.op.movedTo = some p) : p ∈ k.names := by
  unfold TracedOp.movedTo at h
  unfold names
  split at h
  · next hop =>
    split at h
    · cases h
      rw [hop]
      exact List.mem_cons_of_mem _ (List.mem_singleton_self _)
    · cases h
  · cases h

end Task

namespace DirTree

variable {tree : DirTree} {x p d : ℕ}

/-- A directory on the way to the root is the directory itself or further up. -/
theorem eq_or_mem_tail (hx : x ∈ tree.chain d) : x = d ∨ x ∈ (tree.chain d).tail := by
  rcases tree.head_eq d with hd | ⟨l, hl⟩
  · rw [hd] at hx
    cases hx
  · rw [hl] at hx ⊢
    exact List.mem_cons.mp hx

/-- What was known is known after a directory was added. -/
theorem chain_add_ne_nil (p : ℕ) (h : tree.chain x ≠ []) : (tree.add d p).chain x ≠ [] := by
  by_cases hx : x = d
  · rw [hx, chain_add_self]
    exact List.cons_ne_nil _ _
  · rwa [chain_add_of_ne tree p hx]

/-- What lies above a directory after a directory was added. -/
theorem mem_tail_chain_add {y : ℕ} (hx : x ∈ ((tree.add d p).chain y).tail) :
    x ∈ (tree.chain y).tail ∨ x ∈ tree.chain p := by
  by_cases hy : y = d
  · rw [hy, chain_add_self, List.tail_cons] at hx
    exact .inr hx
  · rw [chain_add_of_ne tree p hy] at hx
    exact .inl hx

/-- What lies above a directory after a move. -/
theorem mem_tail_chain_move {y : ℕ} (hy : y ∈ ((tree.move x p).chain d).tail) :
    y ∈ (tree.chain d).tail ∨ y ∈ tree.chain p := by
  change y ∈ (tree.rerouted x p (tree.chain d)).tail at hy
  unfold rerouted at hy
  split at hy
  · next hx =>
    rcases tree.head_eq d with hd | ⟨l, hl⟩
    · rw [hd] at hx
      cases hx
    · rw [hl] at hx hy ⊢
      by_cases hdx : d = x
      · rw [hdx, List.takeWhile_cons_of_neg (by simp), List.nil_append, List.tail_cons] at hy
        exact .inr hy
      · rw [List.takeWhile_cons_of_pos (by simpa using hdx), List.cons_append, List.tail_cons,
          List.mem_append, List.mem_cons] at hy
        rw [List.tail_cons]
        rcases hy with hy | rfl | hy
        · exact .inl ((List.takeWhile_sublist _).subset hy)
        · exact .inl ((List.mem_cons.mp hx).resolve_left (Ne.symm hdx))
        · exact .inr hy
  · exact .inl hy

end DirTree

/-! ### The invariant -/

namespace FsState

/-- The record of the call that has made a directory was written. -/
def Logged (s : FsState) (d : ℕ) : Prop :=
  ∀ k, s.maker d = some k → k ∈ s.written

instance (s : FsState) (d : ℕ) : Decidable (s.Logged d) :=
  inferInstanceAs (Decidable (∀ k ∈ s.maker d, k ∈ s.written))

/-- The names of a call stand in known directories which have their records. -/
def NamesLogged (s : FsState) (k : Task) : Prop :=
  ∀ d ∈ k.names, s.tree.chain d ≠ [] ∧ s.Logged d

/-- Directories have their records before anything is done in them. -/
structure Known (s : FsState) : Prop where
  calls : ∀ t k phase, s.doing t = some ⟨k, phase⟩ → s.NamesLogged k
  makers : ∀ d k, s.maker d = some k → s.NamesLogged k
  ancestors : ∀ d, ∀ x ∈ (s.tree.chain d).tail, s.Logged x
  under_known : ∀ k, ∀ x ∈ s.under k, s.tree.chain x ≠ []
  under_logged : ∀ k ∉ s.written, ∀ x ∈ s.under k, s.Logged x
  under_before : ∀ k ∈ s.written, ∀ x ∈ s.under k, ∀ a, s.maker x = some a → Before s.written a k

variable {s s' : FsState} {k : Task} {d p x : ℕ}

/-- The directories on the way to a directory with a record have their records. -/
theorem Known.logged_of_mem_chain (hs : s.Known) (hp : s.Logged p) (hx : x ∈ s.tree.chain p) :
    s.Logged x := by
  rcases DirTree.eq_or_mem_tail hx with rfl | hx
  · exact hp
  · exact hs.ancestors p x hx

/-- The directories on the way to the names of a call have their records. -/
theorem Known.logged_of_mem_flatMap (hs : s.Known) (hk : s.NamesLogged k)
    (hx : x ∈ k.names.flatMap s.tree.chain) : s.tree.chain x ≠ [] ∧ s.Logged x := by
  obtain ⟨d, hd, hx⟩ := List.mem_flatMap.mp hx
  exact ⟨s.tree.closed d x hx, hs.logged_of_mem_chain (hk d hd).2 hx⟩

/-- Calls come and go. -/
theorem Known.of_doing (hs : s.Known) (htree : s'.tree = s.tree) (hwritten : s'.written = s.written)
    (hmaker : s'.maker = s.maker) (hunder : s'.under = s.under)
    (hcalls : ∀ t k phase, s'.doing t = some ⟨k, phase⟩ → s.NamesLogged k) : s'.Known := by
  obtain ⟨h₁, h₂, h₃, h₄, h₅, h₆⟩ := hs
  have hlogged : s'.Logged = s.Logged := by
    unfold Logged
    rw [hwritten, hmaker]
  have hnames : s'.NamesLogged = s.NamesLogged := by
    unfold NamesLogged
    rw [htree, hlogged]
  constructor
  · rwa [hnames]
  · rwa [hmaker, hnames]
  · rwa [htree, hlogged]
  · rwa [htree, hunder]
  · rwa [hwritten, hunder, hlogged]
  · rwa [hwritten, hunder, hmaker]

/-- The activity of a thread that goes on with its call. -/
theorem Known.setDoing (hs : s.Known) {t : ℕ} {phase : Phase}
    (hdoing : s.doing t = some ⟨k, phase⟩) (a : Option Activity) (ha : ∀ b ∈ a, b.task = k) :
    ∀ t' k' phase', Function.update s.doing t a t' = some ⟨k', phase'⟩ → s.NamesLogged k' := by
  intro t' k' phase' h
  by_cases hne : t' = t
  · rw [hne, Function.update_self] at h
    obtain rfl : k' = k := ha ⟨k', phase'⟩ h
    exact hs.calls t k' phase hdoing
  · rw [Function.update_of_ne hne] at h
    exact hs.calls t' k' phase' h

/-- The tree changes: what was known stays known, and what is above has its record. -/
theorem Known.setTree (hs : s.Known) (tree : DirTree)
    (hknown : ∀ x, s.tree.chain x ≠ [] → tree.chain x ≠ [])
    (hancestors : ∀ d, ∀ x ∈ (tree.chain d).tail, s.Logged x) : { s with tree := tree }.Known := by
  have hnames : ∀ k, s.NamesLogged k → { s with tree := tree }.NamesLogged k := by
    intro k hk d hd
    exact ⟨hknown d (hk d hd).1, (hk d hd).2⟩
  constructor
  · exact fun t k phase h => hnames k (hs.calls t k phase h)
  · exact fun d k h => hnames k (hs.makers d k h)
  · exact hancestors
  · exact fun k x hx => hknown x (hs.under_known k x hx)
  · exact hs.under_logged
  · exact hs.under_before

/-- A directory becomes known inside a directory with a record. -/
theorem Known.add (hs : s.Known) (d : ℕ) (hp : s.Logged p) :
    { s with tree := s.tree.add d p }.Known := by
  refine hs.setTree _ (fun x hx => DirTree.chain_add_ne_nil p hx) fun y x hx => ?_
  rcases DirTree.mem_tail_chain_add hx with hx | hx
  · exact hs.ancestors y x hx
  · exact hs.logged_of_mem_chain hp hx

/-- A directory is moved into a directory with a record. -/
theorem Known.move (hs : s.Known) (x : ℕ) (hp : s.Logged p) :
    { s with tree := s.tree.move x p }.Known := by
  refine hs.setTree _ (fun y hy => DirTree.rerouted_ne_nil hy) fun d y hy => ?_
  rcases DirTree.mem_tail_chain_move hy with hy | hy
  · exact hs.ancestors d y hy
  · exact hs.logged_of_mem_chain hp hy

/-- A new directory has been made below, and nobody knows it yet. -/
theorem Known.make (hs : s.Known) (hnames : s.NamesLogged k)
    (hfresh : s.maker d = none ∧ s.tree.chain d = []) :
    { s with maker := Function.update s.maker d (some k) }.Known := by
  have hmaker {x : ℕ} (hx : s.tree.chain x ≠ []) :
      Function.update s.maker d (some k) x = s.maker x := by
    refine Function.update_of_ne ?_ _ _
    rintro rfl
    exact hx hfresh.2
  have hlogged {x : ℕ} (hx : s.tree.chain x ≠ []) (h : s.Logged x) :
      { s with maker := Function.update s.maker d (some k) }.Logged x := by
    intro a ha
    exact h a ((hmaker hx).symm.trans ha)
  have hnames' {k' : Task} (h : s.NamesLogged k') :
      { s with maker := Function.update s.maker d (some k) }.NamesLogged k' :=
    fun x hx => ⟨(h x hx).1, hlogged (h x hx).1 (h x hx).2⟩
  constructor
  · exact fun t k' phase h => hnames' (hs.calls t k' phase h)
  · intro x k' h
    by_cases hx : x = d
    · rw [hx] at h
      cases (Function.update_self d _ s.maker).symm.trans h
      exact hnames' hnames
    · exact hnames' (hs.makers x k' ((Function.update_of_ne hx _ _).symm.trans h))
  · intro y x hx
    exact hlogged (s.tree.closed y x (List.mem_of_mem_tail hx)) (hs.ancestors y x hx)
  · exact hs.under_known
  · exact fun k' hk' x hx => hlogged (hs.under_known k' x hx) (hs.under_logged k' hk' x hx)
  · intro k' hk' x hx a ha
    exact hs.under_before k' hk' x hx a ((hmaker (hs.under_known k' x hx)).symm.trans ha)

/-- A record is filled. -/
theorem Known.fill (hs : s.Known) (hnames : s.NamesLogged k) (hnew : k ∉ s.written) :
    { s with under := Function.update s.under k (k.names.flatMap s.tree.chain) }.Known := by
  have hunder {k' : Task} {x : ℕ}
      (hx : x ∈ Function.update s.under k (k.names.flatMap s.tree.chain) k') :
      (k' = k ∧ s.tree.chain x ≠ [] ∧ s.Logged x) ∨ x ∈ s.under k' := by
    by_cases hk : k' = k
    · rw [hk, Function.update_self] at hx
      exact .inl ⟨hk, hs.logged_of_mem_flatMap hnames hx⟩
    · rw [Function.update_of_ne hk] at hx
      exact .inr hx
  constructor
  · exact hs.calls
  · exact hs.makers
  · exact hs.ancestors
  · intro k' x hx
    rcases hunder hx with ⟨-, hx, -⟩ | hx
    · exact hx
    · exact hs.under_known k' x hx
  · intro k' hk' x hx
    rcases hunder hx with ⟨-, -, hx⟩ | hx
    · exact hx
    · exact hs.under_logged k' hk' x hx
  · intro k' hk' x hx a ha
    rcases hunder hx with ⟨rfl, -⟩ | hx
    · exact absurd hk' hnew
    · exact hs.under_before k' hk' x hx a ha

/-- A header is written: the directories on the way to its names have theirs already. -/
theorem Known.write (hs : s.Known) (hnew : k ∉ s.written) :
    { s with written := s.written ++ [k] }.Known := by
  have hlogged {x : ℕ} (h : s.Logged x) : { s with written := s.written ++ [k] }.Logged x :=
    fun a ha => List.mem_append_left _ (h a ha)
  have hnames {k' : Task} (h : s.NamesLogged k') :
      { s with written := s.written ++ [k] }.NamesLogged k' :=
    fun x hx => ⟨(h x hx).1, hlogged (h x hx).2⟩
  constructor
  · exact fun t k' phase h => hnames (hs.calls t k' phase h)
  · exact fun d k' h => hnames (hs.makers d k' h)
  · exact fun d x hx => hlogged (hs.ancestors d x hx)
  · exact hs.under_known
  · intro k' hk' x hx
    exact hlogged (hs.under_logged k' (fun h => hk' (List.mem_append_left _ h)) x hx)
  · intro k' hk' x hx a ha
    rcases List.mem_append.mp hk' with hk' | hk'
    · exact (hs.under_before k' hk' x hx a ha).mono (List.sublist_append_left _ _)
    · obtain rfl : k' = k := List.mem_singleton.mp hk'
      exact Before.of_mem (hs.under_logged k' hnew x hx a ha) k'

/-- A step inside `trfs_lock`. -/
theorem Known.afterWork (hs : s.Known) (hnames : s.NamesLogged k) {h : Holder} {e : TailStep}
    {kernel : Kernel} {sb : SbInfo} {stage : Stage}
    (hnew : (stage.beforeHeader = true ∨ ∃ r ret, stage = .header r ret) → k ∉ s.written) :
    (s.afterWork k h e kernel sb stage).Known := by
  cases stage with
  | filled r =>
    exact (hs.fill hnames (hnew (.inl rfl))).of_doing rfl rfl rfl rfl
      (hs.fill hnames (hnew (.inl rfl))).calls
  | header r ret =>
    have hwrite := hs.write (hnew (.inr ⟨r, ret, rfl⟩))
    by_cases hwrites : s.mnt.writesHeader sb (.header r ret) = true
    · exact hwrite.of_doing rfl (if_pos hwrites) rfl rfl hwrite.calls
    · exact hs.of_doing rfl (if_neg hwrites) rfl rfl hs.calls
  | _ => exact hs.of_doing rfl rfl rfl rfl hs.calls

end FsState

/-! ### Runs -/

/-- An operation is called on names inside directories that have their records. -/
def FsEvent.AfterRecord (s : FsState) : FsEvent → Prop
  | .enter _ op home object => ∀ d ∈ Task.names ⟨s.started, op, home, object⟩, s.Logged d
  | _ => True

instance (s : FsState) : (e : FsEvent) → Decidable (e.AfterRecord s)
  | .enter _ op home object =>
    inferInstanceAs (Decidable (∀ d ∈ Task.names ⟨s.started, op, home, object⟩, s.Logged d))
  | .lockDir _ _ | .perform _ | .interpose _ | .lock _ | .work _ _ | .unlock _ | .unlockDir _ _
  | .leave _ | .lookup _ | .setBmap _ | .elsewhere _ => .isTrue trivial

namespace FsState

variable {s s' : FsState}

/-- **One step** keeps the records of directories ahead. -/
theorem Known.step (hs : s.Known) (hinv : s.Inv) {e : FsEvent} (he : e.AfterRecord s)
    (hstep : s.step e = some s') : s'.Known := by
  have hsame (k : Task) (phase : Phase) : ∀ b ∈ some (⟨k, phase⟩ : Activity), b.task = k := by
    rintro _ ⟨⟩
    rfl
  cases steps_of_step hstep with
  | enter t op home object k hk hidle hnames =>
    refine hs.of_doing rfl rfl rfl rfl fun t' k' phase h => ?_
    by_cases hne : t' = t
    · rw [hne] at h
      cases (Function.update_self t _ s.doing).symm.trans h
      rw [FsEvent.AfterRecord, ← hk] at he
      exact fun d hd => ⟨hnames d hd, he d hd⟩
    · exact hs.calls t' k' phase ((Function.update_of_ne hne _ _).symm.trans h)
  | lockDir t d k rest hdoing hd hfree =>
    exact hs.of_doing rfl rfl rfl rfl (hs.setDoing hdoing _ (hsame k _))
  | perform t k hdoing hfresh =>
    have hcalls := hs.setDoing hdoing _ (hsame k .performed)
    by_cases hmade : k.op.madeIn.isSome = true
    · have hfresh := hfresh.resolve_left (Option.isSome_iff_ne_none.mp hmade)
      have hmake := hs.make (hs.calls t k _ hdoing) hfresh
      exact hmake.of_doing rfl rfl (if_pos hmade) rfl
        (hmake.setDoing hdoing _ (hsame k .performed))
    · exact hs.of_doing rfl rfl (if_neg hmade) rfl hcalls
  | interpose t k phase hdoing hphase =>
    unfold afterInterpose
    split
    · next p happears =>
      have hmem := Task.mem_names_of_madeIn (TracedOp.madeIn_of_appearsIn happears)
      have hadd := hs.add k.object (hs.calls t k _ hdoing p hmem).2
      exact hadd.of_doing rfl rfl rfl rfl (hadd.setDoing hdoing _ (hsame k phase))
    · exact hs.of_doing rfl rfl rfl rfl (hs.setDoing hdoing _ (hsame k phase))
  | lock t k hdoing hfree => exact hs.of_doing rfl rfl rfl rfl (hs.setDoing hdoing _ (hsame k _))
  | work t e k h kernel sb stage hdoing hholder hthread hnext =>
    refine hs.afterWork (hs.calls t k _ hdoing) fun hstage => ?_
    refine (hinv.calls t k _ hdoing).unwritten ?_
    rw [hholder]
    exact Stage.beforeHeader_of_next hnext hstage
  | unlock t k h hdoing hholder hleaving =>
    exact hs.of_doing rfl rfl rfl rfl (hs.setDoing hdoing _ (hsame k _))
  | unlockDir t d k rest hdoing hheld =>
    exact hs.of_doing rfl rfl rfl rfl (hs.setDoing hdoing _ (hsame k _))
  | leave t k hdoing =>
    unfold afterReturn
    split
    · next p hmoved =>
      have hmove := hs.move k.object
        (hs.calls t k _ hdoing p (Task.mem_names_of_movedTo hmoved)).2
      exact hmove.of_doing rfl rfl rfl rfl (hmove.setDoing hdoing none (by simp))
    · exact hs.of_doing rfl rfl rfl rfl (hs.setDoing hdoing none (by simp))
  | lookup d p k hmaker hmade hunknown =>
    exact hs.add d (hs.makers d k hmaker p (Task.mem_names_of_madeIn hmade)).2
  | setBmap umask hfree => exact hs.of_doing rfl rfl rfl rfl hs.calls
  | elsewhere k => exact hs.of_doing rfl rfl rfl rfl hs.calls

/-- Before anything is done no directory has a maker. -/
theorem known_boot (kernel : Kernel) (trPage : List UInt8) (tree : DirTree) :
    (boot kernel trPage tree).Known where
  calls _ _ _ h := by cases h
  makers _ _ h := by cases h
  ancestors _ _ _ _ h := by cases h
  under_known _ _ h := absurd h List.not_mem_nil
  under_logged _ _ _ h := absurd h List.not_mem_nil
  under_before _ h := absurd h List.not_mem_nil

/-- The record of the call that has made a directory was written before every record in the log with
a name under this directory, and stands before it if it is still in the log. -/
def MakersFirst (s : FsState) : Prop :=
  ∀ d a, s.maker d = some a → ∀ q b, (q, b) ∈ s.records → d ∈ s.under b →
    Before s.written a b ∧ ∀ p, (p, a) ∈ s.records → p < q

end FsState

/-- **Directories first.**  In every run in which operations are called on names inside a directory
only after the record of its `mkdir` has been written, the record of a directory comes before the
records of everything done under it. -/
theorem makersFirst_of_run {kernel : Kernel} {trPage : List UInt8} {tree : DirTree}
    {es : List FsEvent} {s : FsState}
    (hrun : run FsState.step (.boot kernel trPage tree) es = some s)
    (hes : RunAllowed FsState.step (fun s e => e.AfterRecord s) (.boot kernel trPage tree) es) :
    s.MakersFirst ∧ s.records.map Prod.fst = s.mnt.headers.map Prod.fst ∧ s.mnt.Placed := by
  have hstep (s : FsState) (e : FsEvent) (s' : FsState)
      (hinv : ((s.Inv ∧ s.Recorded) ∧ s.Known) ∧
        Ordered (fun _ _ => False) s.effects s.written s.Pending)
      (he : e.AfterRecord s) (hstep : s.step e = some s') :
      ((s'.Inv ∧ s'.Recorded) ∧ s'.Known) ∧
        Ordered (fun _ _ => False) s'.effects s'.written s'.Pending := by
    obtain ⟨⟨⟨hinv, hrec⟩, hknown⟩, hord⟩ := hinv
    exact ⟨⟨⟨hinv.step hstep, hrec.step hstep⟩, hknown.step hinv he hstep⟩,
      hinv.ordered_step hord (fun _ _ _ _ _ h => h.elim) hstep⟩
  have hboot : (((FsState.boot kernel trPage tree).Inv ∧
      (FsState.boot kernel trPage tree).Recorded) ∧ (FsState.boot kernel trPage tree).Known) ∧
      Ordered (fun _ _ => False) [] [] (FsState.boot kernel trPage tree).Pending :=
    ⟨⟨⟨FsState.inv_boot _ _ _, FsState.recorded_boot _ _ _⟩, FsState.known_boot _ _ _⟩,
      Ordered.nil _ _⟩
  obtain ⟨⟨⟨-, hrec⟩, hknown⟩, hord⟩ := run_invariant hstep hboot hes hrun
  refine ⟨fun d a hmaker q b hq hunder => ?_, hrec.positions, hrec.placed⟩
  have hb : b ∈ s.written := hrec.owners.subset (List.mem_map_of_mem hq)
  have hbefore := hknown.under_before b hb d hunder a hmaker
  exact ⟨hbefore, fun p hp => hrec.lt_of_before hord.nodup_records hbefore hp hq⟩

/-- The dentry of `/l/f`. -/
def dentryLF : Dentry where
  path := ⟨[47, 108, 47, 102], by decide⟩
  path_ne := by decide

/-- A call that creates `/l/f` in the directory that `makeL` has made. -/
def createLF : Task := ⟨1, .create ⟨0⟩ 7 dentryLF 0 0 0, 0, 8⟩

/-- The records, the maker of `/l` and what the names of `createLF` are under, after a list of
events on a new mount with an empty root. -/
def recordsUnder (es : List FsEvent) : Option (List (ℕ × Task) × Option Task × List ℕ) :=
  (run FsState.step (.boot ⟨-1, [], []⟩ [] .root) es).map fun s =>
    (s.records, s.maker 7, s.under createLF)

/-- Reading off the state. -/
theorem exists_of_recordsUnder {es : List FsEvent} {records : List (ℕ × Task)} {maker : Option Task}
    {under : List ℕ} (h : recordsUnder es = some (records, maker, under)) :
    ∃ s, run FsState.step (.boot ⟨-1, [], []⟩ [] .root) es = some s ∧ s.records = records ∧
      s.maker 7 = maker ∧ s.under createLF = under := by
  obtain ⟨s, hrun, heq⟩ := Option.map_eq_some_iff.mp h
  cases heq
  exact ⟨s, hrun, rfl, rfl, rfl⟩

/-- `/l/f` is created after `/l` was made. -/
def insideAfter : List FsEvent :=
  beginCall 0 makeL.op 0 7 ++ finishCall 0 makeL.op ++ beginCall 1 createLF.op 0 8 ++
    finishCall 1 createLF.op

/-- The record of `/l` comes first. -/
theorem makersFirst_insideAfter :
    ∃ s, run FsState.step (.boot ⟨-1, [], []⟩ [] .root) insideAfter = some s ∧
      s.records = [(0, makeL), (34, createLF)] ∧ s.maker 7 = some makeL ∧
      s.under createLF = [7, 0] ∧ s.MakersFirst := by
  have h : recordsUnder insideAfter = some ([(0, makeL), (34, createLF)], some makeL, [7, 0]) := by
    decide +kernel
  have hes : RunAllowed FsState.step (fun s e => e.AfterRecord s) (.boot ⟨-1, [], []⟩ [] .root)
      insideAfter := by
    decide +kernel
  obtain ⟨s, hrun, hrecords, hmaker, hunder⟩ := exists_of_recordsUnder h
  exact ⟨s, hrun, hrecords, hmaker, hunder, (makersFirst_of_run hrun hes).1⟩

/-- `/l/f` is created while `trfs_mkdir` is between the interposition of `/l` and its record. -/
def insideBefore : List FsEvent :=
  beginCall 0 makeL.op 0 7 ++ [.interpose 0] ++ beginCall 1 createLF.op 0 8 ++
    finishCall 1 createLF.op ++ (finishCall 0 makeL.op).tail

/-- The record of `/l/f` comes first. -/
theorem not_makersFirst_insideBefore :
    ∃ s, run FsState.step (.boot ⟨-1, [], []⟩ [] .root) insideBefore = some s ∧ ¬s.MakersFirst := by
  have h : recordsUnder insideBefore = some ([(0, createLF), (36, makeL)], some makeL, [7, 0]) := by
    decide +kernel
  obtain ⟨s, hrun, hrecords, hmaker, hunder⟩ := exists_of_recordsUnder h
  refine ⟨s, hrun, fun hfirst => ?_⟩
  have hlt := (hfirst 7 makeL hmaker 0 createLF (by simp [hrecords]) (by simp [hunder])).2 36
    (by simp [hrecords])
  exact absurd hlt (by decide)

end Trfs
