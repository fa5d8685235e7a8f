import TraceFileSystem.Replay.Buffers
import TraceFileSystem.System.Consistency
import TraceFileSystem.Treplay.Chunks

/-!
# Does the replay tool come to an end?

The inner loop of the replay tool moves on by the `rec_size` it finds in the log, so it ends if
every size in the log is positive, and if the paths of the records stay within the buffers of the
tool.  The sizes are computed by `fill_record` in sixteen bits.  For a write whose count leaves room
for header and path in a `short`, when taken modulo `2 ^ 16`, the size is the length of the record.

* `Tail.Replayable` is what the tool needs of a record that is filled: its size has not wrapped, and
  its paths fit a buffer behind the current directory.  Nothing is asked of operations that fill no
  record, since their type is not traced or there are no pages.
* `replayEnds_of_run` says that the tool ends on the log of a mount if every record that was filled
  there is of this kind.  The statement is about every interleaving of any number of threads on any
  number of mounts.

For other counts the size wraps.  A write of 65502 bytes to `/l` gets the length `-34` and the size
`0`: its data is not written, but its header is, and the inner loop stays at it forever
(`not_replayEnds_zeroSize`).
-/

namespace Trfs

open ByteStore LabelledSystem

variable {W : Type*}

/-- The tool ends: both loops are left, every turn of the inner loop moves forward in the buffer,
and no path overruns its buffer. -/
def ReplayEnds (env : ReplayEnv W) (m : Mem) (w : W) : Prop :=
  (∃ n, ((replayStep env)^[n] (replayStart env m w)).pc = .out) ∧
    (∀ n, ((replayStep env)^[n] (replayStart env m w)).pc = .inner →
      ((replayStep env)^[n] (replayStart env m w)).buf <
        ((replayStep env)^[n] (replayStart env m w)).limit →
      ((replayStep env)^[n] (replayStart env m w)).buf <
        ((replayStep env)^[n + 1] (replayStart env m w)).buf) ∧
    ∀ n, ∀ p ∈ ((replayStep env)^[n] (replayStart env m w)).parsed,
      p.record.ResolvesWithin env.cwd

/-- On a log of well-formed records that fits one chunk the tool ends, if their paths fit the
buffers. -/
theorem replayEnds_frames {env : ReplayEnv W} {recs : List LogRecord} (hlog : env.log = frames recs)
    (hstrict : env.flags.strict = false) (hwf : ∀ r ∈ recs, r.WellFormed)
    (hwithin : ∀ r ∈ recs, r.ResolvesWithin env.cwd) (hsize : env.log.length ≤ chunkSize) (m : Mem)
    (w : W) : ReplayEnds env m w := by
  rw [hlog] at hsize
  have hal := chunkAligned_of_le hsize
  have hmax : ((frames recs).length : ℤ) ≤ intMax := by
    have : (chunkSize : ℤ) ≤ intMax := by decide
    omega
  have hrun (n : ℕ) := alignedRun_iterate hlog hstrict hwf hmax hal m w n
  refine ⟨?_, fun n hpc hlt => ?_, fun n p hp => ?_⟩
  · obtain ⟨n, hout, -⟩ := aligned_replays hlog hstrict hwf hmax hal m w
    exact ⟨n, hout⟩
  · have hturn := ((hrun n).innerTurn hlog hstrict hwf hal hpc hlt).2.1
    rw [Function.iterate_succ_apply', replayStep, hpc]
    dsimp only
    rwa [if_pos hlt]
  · obtain ⟨done, rest, hsync⟩ := (hrun n).run.sync
    refine hwithin p.record ?_
    rw [hsync.split, ← hsync.parsed]
    exact List.mem_append_left _ (List.mem_map_of_mem hp)

/-! ### What the VFS passes to the operations -/

namespace TracedOp

/-- What the VFS passes: symlink targets have between one and 4095 bytes.  A write passes between
one byte and `MAX_RW_COUNT` bytes, and not a multiple of `2 ^ 16`. -/
def Passed : TracedOp → Prop
  | symlink _ _ _ symname _ _ => 1 ≤ symname.strlen ∧ symname.strlen ≤ 4095
  | write _ _ buf count _ => ∃ data, buf = .user data ∧ data.length = count ∧ 1 ≤ count ∧
      count ≤ 0x7ffff000 ∧ count % 65536 ≠ 0
  | _ => True

/-- Such an operation is one that the VFS can call. -/
theorem Passed.called {op : TracedOp} (h : op.Passed) : op.Called := by
  cases op with
  | symlink => exact h
  | write dentry fFlags buf count vfs =>
    obtain ⟨data, hbuf, hlen, -⟩ := h
    exact .inl ⟨data, hbuf, hlen⟩
  | _ => trivial

end TracedOp

namespace Tail

/-- The length of the second path of a tail, if it has one. -/
def secondLen (t : Tail) : ℕ :=
  match t.aux with
  | .dentry d => d.path.strlen
  | .chars _ => 0

/-- A tail with a path that does not fit a page, told by its lengths. -/
theorem tooLong_iff (t : Tail) : t.TooLong ↔ pageSize ≤ t.dentry.path.strlen ∨
    (t.type = .rename ∨ t.type = .link) ∧ pageSize ≤ t.secondLen := by
  have hpage : ¬pageSize ≤ 0 := by decide
  unfold TooLong secondLen
  cases t.aux with
  | dentry d => simp
  | chars p => simp [hpage]

instance (t : Tail) : Decidable t.TooLong := decidable_of_iff' _ t.tooLong_iff

/-- The replay tool, started in some directory, can go on behind the record of a tail: none is
written, since a path does not fit a page, or its size is that of a `short` and each path fits a
buffer behind the directory. -/
def Replayable (cwd : List UInt8) (t : Tail) : Prop :=
  t.TooLong ∨ headerSize + t.dentry.path.strlen + t.storedLen.toNat ≤ 32767 ∧
    cwd.length + t.dentry.path.strlen ≤ 4095 ∧ cwd.length + t.secondLen ≤ 4095

instance (cwd : List UInt8) (t : Tail) : Decidable (t.Replayable cwd) :=
  inferInstanceAs (Decidable (_ ∨ _))

/-- The tail of an operation as the VFS passes it. -/
def Passed (t : Tail) : Prop :=
  ∃ op : TracedOp, op.Passed ∧ op.plan.tail = t

variable {t : Tail} {cwd : List UInt8}

/-- An operation as the VFS passes it, whose record can be replayed, is loggable. -/
theorem Passed.loggable (h : t.Passed) (ht : t.Replayable cwd) : t.Loggable := by
  by_cases hlong : t.TooLong
  · exact .inr hlong
  obtain ⟨hsize, -⟩ := ht.resolve_left hlong
  obtain ⟨op, hop, rfl⟩ := h
  refine .inl (hop.called.fits hlong ?_)
  cases op with
  | write dentry fFlags buf count vfs =>
    obtain ⟨data, -, -, -, -, hmod⟩ := hop
    have hlen : (BitVec.setWidth 16 (BitVec.ofNat 32 count)).toNat = count % 65536 := by
      simp only [BitVec.toNat_setWidth, BitVec.toNat_ofNat]
      omega
    exact ⟨.inr fun hdvd => hmod (Nat.mod_eq_zero_of_dvd hdvd), hlen ▸ hsize⟩
  | _ => trivial

/-- What auxiliary data a tail in the format can have. -/
theorem Fits.aux_cases (h : t.Fits) : t.type = .fwrite ∨ t.args.auxBytes.length ≤ t.secondLen ∨
    t.type = .symlink ∧ t.args.auxBytes.length ≤ 4095 := by
  have hok := h.aux_ok
  simp only [FillArgs.auxOk, args, RecType.ofCode?_code] at hok
  cases htype : t.type with
  | fwrite => exact .inl rfl
  | symlink =>
    simp only [htype] at hok
    obtain ⟨str, haux, -, -, hlt⟩ := hok
    refine .inr (.inr ⟨rfl, ?_⟩)
    simp only [FillArgs.auxBytes, args, haux, CharPtr.bytes]
    exact Nat.le_of_lt_succ hlt
  | rename | link =>
    simp only [htype] at hok
    obtain ⟨d, haux, -⟩ := hok
    exact .inr (.inl (by simp [FillArgs.auxBytes, args, haux, secondLen, CString.strlen]))
  | fcreat | dcreat | unlink =>
    simp only [htype] at hok
    exact .inr (.inl (by simp [FillArgs.auxBytes, args, hok, CharPtr.bytes]))
  | fread | dread =>
    simp only [htype] at hok

/-- The paths of the record of a tail stay within the buffers of the tool. -/
theorem Replayable.resolvesWithin (h : t.Replayable cwd) (hfits : t.Fits) (recId : CInt) :
    (t.args.logRecord recId).ResolvesWithin cwd := by
  obtain ⟨-, hpath, hsecond⟩ := h.resolve_left (Fits.not_tooLong hfits)
  have hle : t.args.auxLogged.length ≤ t.args.auxBytes.length := List.length_take_le' _ _
  refine LogRecord.resolvesWithin_of_le hpath (fun hwrite => ?_) fun hwrite hsymlink => ?_
  · rcases Fits.aux_cases hfits with htype | haux | ⟨-, haux⟩
    · exact absurd (congrArg RecType.code htype) hwrite
    · exact (hle.trans haux).trans (by omega)
    · exact hle.trans haux
  · rcases Fits.aux_cases hfits with htype | haux | ⟨htype, -⟩
    · exact absurd (congrArg RecType.code htype) hwrite
    · have hlen := hle.trans haux
      exact (Nat.add_le_add_left hlen _).trans hsecond
    · exact absurd (congrArg RecType.code htype) hsymlink

end Tail

/-! ### Every run -/

/-- The events of the runs considered: operations as the VFS passes them, and writes to the log that
complete unless their count is negative. -/
def Event.Passed : Event → Prop
  | arrive _ op => op.Passed
  | work _ e => e.Completes
  | _ => True

/-- The events of a whole operation that the VFS passes. -/
theorem Event.passed_wholeOp {op : TracedOp} (h : op.Passed) (t : ℕ) :
    ∀ e ∈ wholeOp t op, e.Passed := by
  simp [wholeOp, Passed, TailStep.Completes, h]

namespace SysState

/-- A record that the event fills on a mount can be replayed. -/
def FillsReplayable (n : ℕ) (cwd : List UInt8) (s : SysState) (e : Event) : Prop :=
  ∀ tail ∈ s.fills n e, tail.Replayable cwd

instance (n : ℕ) (cwd : List UInt8) (s : SysState) (e : Event) :
    Decidable (s.FillsReplayable n cwd e) :=
  inferInstanceAs (Decidable (∀ tail ∈ s.fills n e, _))

/-- A mount with a given number is consistent, and its records can be replayed. -/
structure ReplayableAt (n : ℕ) (cwd : List UInt8) (s : SysState) : Prop where
  tails : s.Tails Tail.Passed
  consistent : s.ConsistentAt n
  numbered : ∀ m, s.mounts n = some m → ∀ p ∈ m.numbered, p.1.Replayable cwd

variable {s s' : SysState} {n : ℕ} {cwd : List UInt8}

/-- A holder that gets a record from `fill_record` has filled it. -/
theorem fills_of_filled {t : ℕ} {m : Mount} {h : Holder} (hholding : s.holding t = some (n, m, h))
    {e : TailStep} {k : Kernel} {sb : SbInfo} {r : TrRecord}
    (hnext : h.stage.next s.kernel m.sb h.tail e = some (k, sb, .filled r)) :
    s.fills n (.work t e) = some h.tail := by
  cases hstage : h.stage with
  | masked a =>
    cases e with
    | fill pages =>
      rw [hstage, Stage.next] at hnext
      split at hnext
      · cases hnext
      · cases hnext
      · next hfill =>
        obtain ⟨htype, hpages⟩ := available_of_fillRecord hfill
        exact fills_of_holding hholding hstage htype hpages
    | _ => rw [hstage] at hnext; cases hnext
  | locked => cases e <;> rw [hstage] at hnext <;> cases hnext
  | filled r' =>
    cases e with
    | writeHeader o => rw [hstage, Stage.next] at hnext; split at hnext <;> cases hnext
    | _ => rw [hstage] at hnext; cases hnext
  | header r' ret =>
    cases e with
    | writeAux o => rw [hstage, Stage.next] at hnext; split at hnext <;> cases hnext
    | _ => rw [hstage] at hnext; cases hnext
  | leaving => cases e <;> rw [hstage] at hnext <;> cases hnext
  | dead => cases e <;> rw [hstage] at hnext <;> cases hnext

/-- **One step of the system** keeps the records of a mount such that they can be replayed, if the
one that it fills there can be. -/
theorem ReplayableAt.step (hs : s.ReplayableAt n cwd) {e : Event} (he : e.Passed)
    (hfills : s.FillsReplayable n cwd e) (hstep : s.step e = some s') : s'.ReplayableAt n cwd where
  tails := by
    refine hs.tails.step ?_ hstep
    rintro t op rfl
    exact ⟨op, he, rfl⟩
  consistent := by
    have hcompletes : e.Completes := by
      cases e with
      | work t e => exact he
      | _ => trivial
    refine hs.consistent.step hcompletes (fun tail h => ?_) hstep
    exact (hs.tails.of_fills h).loggable (hfills tail h)
  numbered := by
    have hnum := hs.numbered
    cases steps_of_step hstep with
    | arrive t op hidle => exact hnum
    | lock t n' tail m hwaiting hmount hfree =>
      refine mount_setMount hnum ?_
      rintro rfl _ ⟨⟩
      exact hnum m hmount
    | work t n' m h e k sb stage hholding hnext =>
      obtain ⟨-, hmount, -⟩ := holding_eq_some hholding
      refine mount_setMount hnum ?_
      rintro rfl _ ⟨⟩
      cases stage with
      | filled r =>
        intro p hp
        rcases List.mem_append.mp hp with hp | hp
        · exact hnum m hmount p hp
        · obtain rfl := List.mem_singleton.mp hp
          exact hfills h.tail (fills_of_filled hholding hnext)
      | _ => exact hnum m hmount
    | unlock t n' m h hmount hholder hleaving =>
      refine mount_setMount hnum ?_
      rintro rfl _ ⟨⟩
      exact hnum m hmount
    | setBmap n' umask m hmount hfree =>
      refine mount_setMount hnum ?_
      rintro rfl _ ⟨⟩
      exact hnum m hmount
    | mountBegins => exact hnum
    | mountFails hattempt => exact hnum
    | mount n' trPage hattempt hnew =>
      refine mount_setMount (s := s.endMount) hnum ?_
      rintro rfl _ ⟨⟩ p hp
      cases hp
    | umount n' m hmount hfree => exact mount_setMount hnum (by simp)

/-- Before the first mount there is nothing to be replayed. -/
theorem replayableAt_boot (k : Kernel) (n : ℕ) (cwd : List UInt8) :
    (boot k).ReplayableAt n cwd where
  tails := ⟨fun t n tail h => by simp [boot] at h, fun n m h => by simp [boot] at h⟩
  consistent m h := by simp [boot] at h
  numbered m h := by simp [boot] at h

end SysState

/-- **The tool ends.**  In every run in which every record that is filled on a mount can be replayed
in a directory, on the mount at rest, if its log fits one chunk, the replay tool without flags ends
on that log in this directory, whatever the system calls return. -/
theorem replayEnds_of_run {k : Kernel} {es : List Event} {s : SysState}
    (hrun : run SysState.step (.boot k) es = some s) (hpassed : ∀ e ∈ es, e.Passed) {n : ℕ}
    {cwd : List UInt8}
    (hfills : RunAllowed SysState.step (SysState.FillsReplayable n cwd) (.boot k) es) {mnt : Mount}
    (hmnt : s.mounts n = some mnt) (hrest : mnt.AtRest) (hsize : mnt.sb.log.data.length ≤ 16384)
    (sys : Syscalls W) (m : Mem) (w : W) :
    ReplayEnds ⟨sys, ⟨false, false⟩, cwd, mnt.sb.log.data⟩ m w := by
  have hreplayable : s.ReplayableAt n cwd :=
    run_invariant (fun _ _ _ hs he hstep => SysState.ReplayableAt.step hs he.1 he.2 hstep)
      (SysState.replayableAt_boot k n cwd)
      ((runAllowed_of_forall (fun e he _ => hpassed e he) _).and hfills) hrun
  have hcons := hreplayable.consistent mnt hmnt
  obtain ⟨rs, hpre, hlog⟩ := hcons.log_of_atRest hrest
  have hdata : mnt.sb.log.data = frames rs := by rw [hlog]; rfl
  refine replayEnds_frames hdata rfl (fun r hr => hcons.wellFormed r (hpre.subset hr))
    (fun r hr => ?_) hsize m w
  obtain ⟨p, hp, rfl⟩ := List.mem_map.mp (hpre.subset hr)
  exact (hreplayable.numbered mnt hmnt p hp).resolvesWithin (hcons.fits p hp) p.2

/-- 65502 bytes are written to `/l`. -/
def wrapWrite : TracedOp :=
  .write ⟨dentryL, ⟨0⟩⟩ 1 (.user (List.replicate 65502 0)) 65502 65502

/-- The VFS passes it. -/
theorem passed_wrapWrite : wrapWrite.Passed :=
  ⟨_, rfl, List.length_replicate, by norm_num, by norm_num, by norm_num⟩

/-- 65502 bytes are written while nothing is traced, and a byte while everything is. -/
def untracedThenTraced : List Event :=
  [.mountBegins, .mount 0 [], .setBmap 0 0, .arrive 0 wrapWrite, .lock 0, .work 0 .mask,
      .work 0 (.fill ⟨some 0, some 1⟩), .unlock 0, .setBmap 0 (-1)] ++
    wholeOp 0 writeL

/-- The tool ends on the log, which has the record of the second write. -/
theorem replayEnds_untracedThenTraced :
    ∃ s m, run SysState.step (.boot ⟨0, [], []⟩) untracedThenTraced = some s ∧
      s.mounts 0 = some m ∧ m.sb.log.data.length = 35 ∧
      ReplayEnds ⟨Syscalls.refusing, ⟨false, false⟩, [47, 116], m.sb.log.data⟩ (fun _ => 0) () := by
  have hlog : (logAfterEvents untracedThenTraced).map (fun log => log.data.length) = some 35 := by
    decide +kernel
  obtain ⟨log, hlog, hlen⟩ := Option.map_eq_some_iff.mp hlog
  obtain ⟨s, m, hrun, hm, hfree, rfl⟩ := exists_of_logAfterEvents hlog
  have hbyte : writeL.Passed :=
    ⟨[97], rfl, rfl, by norm_num, by norm_num, by norm_num⟩
  have hpassed : ∀ e ∈ untracedThenTraced, e.Passed := by
    simp [untracedThenTraced, wholeOp, Event.Passed, TailStep.Completes, passed_wrapWrite, hbyte]
  exact ⟨s, m, hrun, hm, hlen, replayEnds_of_run hrun hpassed (by decide +kernel) hm
    (Mount.atRest_of_free hfree) (by rw [hlen]; norm_num) _ _ _⟩

/-! ### A size that wraps -/

/-- The inner loop does not move forward over a first record whose size is not positive. -/
theorem not_replayEnds_of_recSize {env : ReplayEnv W} {h : Header} {rest : List UInt8}
    (hlog : env.log = h.bytes ++ rest) (hsize : env.log.length ≤ chunkSize)
    (hrec : h.recSize.toInt ≤ 0) (m : Mem) (w : W) : ¬ReplayEnds env m w := by
  rintro ⟨-, hforward, -⟩
  have hpos : 0 < env.log.length := by
    rw [hlog, List.length_append, Header.length_bytes]
    have : 0 < headerSize := by decide
    omega
  have hmax : (env.log.length : ℤ) ≤ intMax := by
    have : (chunkSize : ℤ) ≤ intMax := by decide
    omega
  have hread : replayStep env (replayStart env m w) =
      { replayStart env m w with
        pc := .inner
        offset := env.log.length
        mem := load m 0 env.log
        buf := 0
        limit := env.log.length } := by
    have hlt : (0 : ℤ) < statSize env.log := by
      rw [statSize_eq hmax]
      omega
    simp [replayStep, replayStart, hlt, List.take_of_length_le hsize]
  have hheader : headerAt (load m 0 env.log) 0 = h := by
    apply headerAt_of_bytes
    have hmem := readBytes_load m 0 env.log
    rw [← h.length_bytes]
    rw [hlog] at hmem ⊢
    exact readBytes_append_left hmem
  have hone : (replayStep env)^[1] (replayStart env m w) = _ := hread
  have htwo : (replayStep env)^[1 + 1] (replayStart env m w) =
      replayStep env ((replayStep env)^[1] (replayStart env m w)) := rfl
  have hturn := hforward 1
  rw [htwo, hone] at hturn
  have hlt : (0 : ℤ) < env.log.length := by omega
  simp only [replayStep, hlt, if_true, innerTurn, recordAt, hheader] at hturn
  have := hturn trivial trivial
  omega

/-- A mount on which 65502 bytes are written to `/l`. -/
def wrapEvents : List Event :=
  .mountBegins :: .mount 0 [] :: wholeOp 0 wrapWrite

/-- The header of the record that is logged for it: the length is `-34` and the size is zero. -/
def wrapHeader : Header where
  recId := 0
  recFlags := 1
  permFlags := 0
  result := 65502
  recSize := 0
  pathLen := 2
  type := RecType.fwrite.code
  auxLen := BitVec.ofInt 16 (-34)

/-- The log of that write is 34 bytes long, and the tool does not end on it. -/
theorem not_replayEnds_zeroSize :
    (∀ e ∈ wrapEvents, e.Passed) ∧
      ∃ s m, run SysState.step (.boot ⟨0, [], []⟩) wrapEvents = some s ∧ s.mounts 0 = some m ∧
        m.AtRest ∧ m.sb.log.data.length ≤ 16384 ∧
        ¬ReplayEnds ⟨Syscalls.refusing, ⟨false, false⟩, [], m.sb.log.data⟩ (fun _ => 0) () := by
  have hlog : logAfterEvents wrapEvents = some (.holding (wrapHeader.bytes ++ [47, 108])) := by
    decide +kernel
  obtain ⟨s, m, hrun, hm, hfree, hlog⟩ := exists_of_logAfterEvents hlog
  have hdata : m.sb.log.data = wrapHeader.bytes ++ [47, 108] := by rw [hlog]; rfl
  have hsize : m.sb.log.data.length ≤ 16384 := by
    rw [hdata, List.length_append, Header.length_bytes]
    decide
  refine ⟨?_, s, m, hrun, hm, Mount.atRest_of_free hfree, hsize,
    not_replayEnds_of_recSize hdata hsize (by decide) _ _⟩
  simpa [wrapEvents, Event.Passed] using Event.passed_wholeOp passed_wrapWrite 0

end Trfs
