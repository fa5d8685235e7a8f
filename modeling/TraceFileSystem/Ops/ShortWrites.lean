import TraceFileSystem.Log.WriteSizes
import TraceFileSystem.Ops.WritePaths

/-!
# Writes that the lower file cuts short

The lower file may accept fewer bytes than it was given.  `trfs_write` returns their number to the
caller and puts it into the result field of the record, but it passes the count of the request on to
`fill_record`, so the record has the whole buffer as its data.

`RecordsAccepted` is what the replay needs: the log grows by a record that `treplay` parses with the
accepted bytes as its data.  `recordsAccepted_iff` shows that this is the case only for writes that
the lower file accepts completely.
-/

namespace Trfs

open LittleEndian ByteStore

variable {L A : Type*}

/-- A frame decodes in one way only. -/
theorem DecodesTo.unique {frame path path' data data' : List UInt8}
    (h : DecodesTo frame path data) (h' : DecodesTo frame path' data') :
    path = path' ∧ data = data' := by
  have hm := readBytes_load (fun _ => 0) 0 frame
  obtain ⟨hpath, hdata, -⟩ := h _ 0 hm
  obtain ⟨hpath', hdata', -⟩ := h' _ 0 hm
  exact ⟨hpath.symm.trans hpath', hdata.symm.trans hdata'⟩

/-- `trfs_write` returns and appends one record to the log, from which the replay tool recovers the
path and the given data. -/
def RecordsData (f : LowerFile L A) (env : TailEnv) (dentry : PosDentry) (fFlags : CInt) (pos : ℤ)
    (data : List UInt8) (s : WriteState L A) (logged : List UInt8) : Prop :=
  ∃ s' pos' ret frame, f.trfsWrite env dentry fFlags pos data s = .ok (s', pos', ret) ∧
    s'.op.sb.log.committed = s.op.sb.log.committed ++ frame ∧
    s'.op.sb.log.fPos = s.op.sb.log.fPos + frame.length ∧
    DecodesTo frame dentry.path.bytes logged

/-- The data of the record are the bytes that the lower file accepted. -/
def RecordsAccepted (f : LowerFile L A) (env : TailEnv) (dentry : PosDentry) (fFlags : CInt)
    (pos : ℤ) (data : List UInt8) (s : WriteState L A) : Prop :=
  RecordsData f env dentry fFlags pos data s
    (data.take (f.write f.flags s.lower pos data).2.2.toInt.toNat)

/-- The data that a write records are determined. -/
theorem RecordsData.unique {f : LowerFile L A} {env : TailEnv} {dentry : PosDentry} {fFlags : CInt}
    {pos : ℤ} {data logged logged' : List UInt8} {s : WriteState L A}
    (h : RecordsData f env dentry fFlags pos data s logged)
    (h' : RecordsData f env dentry fFlags pos data s logged') : logged = logged' := by
  obtain ⟨s₁, pos₁, ret₁, frame, hrun, hlog, -, hdecodes⟩ := h
  obtain ⟨s₂, pos₂, ret₂, frame', hrun', hlog', -, hdecodes'⟩ := h'
  cases hrun.symm.trans hrun'
  obtain rfl : frame = frame' := List.append_cancel_left (hlog.symm.trans hlog')
  exact (hdecodes.unique hdecodes').2

section

variable (f : LowerFile L A) {env : TailEnv} {dentry : PosDentry} (fFlags : CInt) (pos : ℤ)
  {data : List UInt8} {s : WriteState L A}

/-- Whatever the lower file returns, the record has the whole buffer. -/
theorem recordsData_all (hpath : dentry.path.strlen ≤ 4095) (hne : 1 ≤ data.length)
    (hsize : headerSize + dentry.path.strlen + data.length ≤ 32767)
    (hpos : 0 ≤ s.op.sb.log.fPos) (htype : traces s.op.sb.umask .fwrite)
    (hpages : env.pages.available) (hheader : env.header = .complete)
    (haux : env.aux = .complete) : RecordsData f env dentry fFlags pos data s data := by
  let w := f.write f.flags s.lower pos data
  let p := Trfs.trfsWrite dentry fFlags (.user data) data.length w.2.2
  let r := p.tail.args.logRecord (s.op.kernel.trecordId + 1)
  have hfits : p.tail.Fits :=
    FillArgs.framed_ofWrite (Nat.lt_succ_of_le hpath) (List.length_pos_iff.mp hne) hsize
  have hinode : p.tail.inode = some dentry.inode := rfl
  have hworks : env.Works p.tail := ⟨hpages, hheader, .inr haux⟩
  obtain ⟨op, hrun, hcommitted, hfpos, -⟩ := Plan.run_of_works hinode htype hfits hworks hpos
  have hlogged : p.tail.args.auxLogged = data := by
    have hbytes : p.tail.args.auxBytes = data := rfl
    exact FillArgs.auxLogged_eq_of_lt (by rw [hbytes]; omega)
  have hdecodes : DecodesTo r.frame dentry.path.bytes data := by
    have h := decodesTo_frame (FillArgs.wellFormed_logRecord hfits (s.op.kernel.trecordId + 1))
    rwa [show (p.tail.args.logRecord _).aux = data from hlogged] at h
  have hwrite : f.trfsWrite env dentry fFlags pos data s =
      .ok (⟨w.1, if 0 ≤ w.2.2.toInt then f.attrs w.1 else s.upper, op⟩, w.2.1, p.ret) := by
    simp only [LowerFile.trfsWrite, p, w] at hrun ⊢
    rw [hrun]
  exact ⟨_, _, _, r.frame, hwrite, hcommitted, hfpos, hdecodes⟩

/-- **Short writes.**  For a traced write within the format whose record is logged completely, and
for every number of bytes that the lower file accepts, the data of the record are the bytes accepted
if and only if the lower file accepts all of them. -/
theorem recordsAccepted_iff (hpath : dentry.path.strlen ≤ 4095) (hne : 1 ≤ data.length)
    (hsize : headerSize + dentry.path.strlen + data.length ≤ 32767)
    (hpos : 0 ≤ s.op.sb.log.fPos) (htype : traces s.op.sb.umask .fwrite)
    (hpages : env.pages.available) (hheader : env.header = .complete)
    (haux : env.aux = .complete) {n : ℕ} (hn : n ≤ data.length)
    (hret : (f.write f.flags s.lower pos data).2.2.toInt = n) :
    RecordsAccepted f env dentry fFlags pos data s ↔ n = data.length := by
  have hall := recordsData_all f fFlags pos hpath hne hsize hpos htype hpages hheader haux
  rw [RecordsAccepted, hret, Int.toNat_natCast]
  constructor
  · intro haccepted
    have hlen := congrArg List.length (haccepted.unique hall)
    rwa [List.length_take_of_le hn] at hlen
  · rintro rfl
    rwa [List.take_length]

end

/-- A lower file that accepts at most the given number of bytes. -/
def shortFile (n : ℕ) : LowerFile (List UInt8) ℕ where
  flags := ⟨false, false⟩
  write _ l pos data := (pwrite l pos.toNat (data.take n), pos + min n data.length,
    BitVec.ofNat 32 (min n data.length))
  writeIter _ l pos segs := (pwrite l pos.toNat (segs.flatten.take n),
    pos + min n segs.flatten.length, BitVec.ofNat 32 (min n segs.flatten.length))
  hasWriteIter := true
  attrs := List.length

/-- A write of two bytes that the lower file accepts. -/
theorem recordsAccepted_two :
    RecordsAccepted (shortFile 2) .working ⟨dentryL, ⟨0⟩⟩ 1 0 [97, 98] writeStateL :=
  (recordsAccepted_iff _ 1 0 (by decide) (by decide) (by decide) le_rfl (by decide) (by decide) rfl
    rfl (n := 2) le_rfl rfl).mpr rfl

/-- A write of two bytes of which the lower file accepts one: the record has both. -/
theorem not_recordsAccepted_one :
    ((shortFile 1).write ⟨false, false⟩ [] 0 [97, 98]).1 = [97] ∧
      RecordsData (shortFile 1) .working ⟨dentryL, ⟨0⟩⟩ 1 0 [97, 98] writeStateL [97, 98] ∧
      ¬RecordsAccepted (shortFile 1) .working ⟨dentryL, ⟨0⟩⟩ 1 0 [97, 98] writeStateL := by
  have hall : RecordsData (shortFile 1) .working ⟨dentryL, ⟨0⟩⟩ 1 0 [97, 98] writeStateL [97, 98] :=
    recordsData_all _ 1 0 (by decide) (by decide) (by decide) le_rfl (by decide) (by decide) rfl rfl
  refine ⟨by decide, hall, ?_⟩
  intro haccepted
  exact absurd (haccepted.unique hall) (by decide)

end Trfs
