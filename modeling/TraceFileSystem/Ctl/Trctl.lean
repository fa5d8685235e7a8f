import TraceFileSystem.Ctl.Ioctl
import TraceFileSystem.Lib.Numerals

/-!
# The arguments of the control tool

`trctl` sets the bitmap to `all`, to `none` or to a number of the base sixteen.  The number is
checked by `isvalidhex` and converted by `strtoul`, which go over the string separately.

* `trctl` is the part of `main` that turns the arguments into a request.
* `Argument.IsHex` are the strings that are meant to be accepted, with the digits behind `0x`.

Both loops agree on them, and eighteen characters are never too many for a bitmap
(`trctl_hex`).
-/

namespace Trfs

namespace Ctl

open Numerals

/-- `MAX_ARG_STRLEN`. -/
def maxArgStrlen : ℕ := 32 * pageSize

/-- An argument of a program.  `execve` passes none that is longer, its terminator included. -/
structure Argument extends CString where
  short : bytes.length < maxArgStrlen

/-- A character of a string, or the terminator. -/
def charAt (s : CString) (i : ℕ) : UInt8 := s.bytes.getD i 0

/-- The loop of `isvalidhex` at index `i`, with `n` characters to go. -/
def scanHex (hex : CString) : (n i : ℕ) → Bool
  | 0, _ => true
  | n + 1, i => if isxdigit (charAt hex i) then scanHex hex n (i + 1) else false

/-- `isvalidhex`. -/
def isvalidhex (hex : CString) : Bool :=
  let slen : CInt := BitVec.ofNat 32 hex.strlen
  if 18 < slen.toInt then false
  else
    let valid := scanHex hex (slen.toInt - 2).toNat 2
    charAt hex 0 = 48 && tolower (charAt hex 1) = 120 && valid

/-- What `main` asks the device for. -/
inductive Request where
  /-- Nothing: a message is printed, and the exit status is `1`. -/
  | usage (message : List UInt8)
  | getBmap (mntpath : CString)
  | setBmap (args : TrArg)
  deriving DecidableEq

/-- The characters of a text. -/
def charsOf (text : String) : List UInt8 := text.toList.map fun c => UInt8.ofNat c.toNat

/-- The message for arguments that are not accepted. -/
def usage (argv : List Argument) : Request :=
  let prog := (argv.head?.map fun a => a.bytes).getD (charsOf "(null)")
  .usage (charsOf "Usage: " ++ prog ++ charsOf " [all | none | 0xNN]\n")

/-- `"all"`. -/
def allWord : List UInt8 := [97, 108, 108]

/-- `"none"`. -/
def noneWord : List UInt8 := [110, 111, 110, 101]

/-- The arguments as `main` of `trctl` takes them, the name of the program first. -/
def trctl : (argv : List Argument) → Request
  | [_, mntpath] => .getBmap mntpath.toCString
  | [prog, bitmap, mntpath] =>
    if bitmap.bytes = allWord then .setBmap ⟨-1, mntpath.toCString⟩
    else if bitmap.bytes = noneWord then .setBmap ⟨0, mntpath.toCString⟩
    else if isvalidhex bitmap.toCString then
      .setBmap ⟨(strtoul 16 bitmap.bytes).number, mntpath.toCString⟩
    else usage [prog, bitmap, mntpath]
  | argv => usage argv

/-- The string is `0x` or `0X` and at most sixteen digits `ds`. -/
def Argument.IsHex (s : Argument) (ds : List UInt8) : Prop :=
  ∃ x, (x = 120 ∨ x = 88) ∧ s.bytes = 48 :: x :: ds ∧ ds.length ≤ 16 ∧
    ∀ c ∈ ds, isxdigit c = true

/-- The loop goes over the digits that are left. -/
theorem scanHex_eq_all (hex : CString) {ds : List UInt8} {i : ℕ} (h : hex.bytes.drop i = ds) :
    scanHex hex ds.length i = ds.all isxdigit := by
  induction ds generalizing i with
  | nil => rfl
  | cons c ds ih =>
    have hc : charAt hex i = c := by
      rw [charAt, List.getD_eq_getElem?_getD, ← List.head?_drop, h]
      rfl
    have hds : hex.bytes.drop (i + 1) = ds := by rw [← List.tail_drop, h, List.tail_cons]
    rw [List.length_cons, scanHex, hc, ih hds, List.all_cons]
    cases isxdigit c <;> rfl

/-- The length of an argument is not changed by its conversion to `int`. -/
theorem Argument.toInt_slen (s : Argument) :
    (BitVec.ofNat 32 s.strlen : CInt).toInt = s.strlen := by
  have hshort : s.strlen < 131072 := s.short
  have hnat : (BitVec.ofNat 32 s.strlen : CInt).toNat = s.strlen := by
    rw [BitVec.toNat_ofNat, Nat.mod_eq_of_lt (by omega)]
  rw [BitVec.toInt_eq_toNat_of_lt (by omega), hnat]

/-- `isvalidhex` accepts the strings that it is meant to accept. -/
theorem Argument.isvalidhex_iff (s : Argument) :
    isvalidhex s.toCString = true ↔ ∃ ds, s.IsHex ds := by
  have hslen := s.toInt_slen
  simp only [isvalidhex, hslen]
  cases hbytes : s.bytes with
  | nil =>
    refine iff_of_false ?_ ?_
    · simp [charAt, hbytes]
    · rintro ⟨ds, x, -, heq, -⟩
      rw [hbytes] at heq
      cases heq
  | cons a rest =>
    cases rest with
    | nil =>
      refine iff_of_false ?_ ?_
      · have hx : tolower 0 ≠ 120 := by decide
        simp [charAt, hbytes, hx]
      · rintro ⟨ds, x, -, heq, -⟩
        rw [hbytes] at heq
        cases heq
    | cons x ds =>
      have hlen : (s.strlen : ℤ) = ds.length + 2 := by
        simp [CString.strlen, hbytes]
        ring
      have hzero : charAt s.toCString 0 = a := by simp [charAt, hbytes]
      have hone : charAt s.toCString 1 = x := by simp [charAt, hbytes]
      have hscan : scanHex s.toCString ds.length 2 = ds.all isxdigit :=
        scanHex_eq_all _ (by rw [hbytes]; rfl)
      have htogo : ((ds.length : ℤ) + 2 - 2).toNat = ds.length := by omega
      rw [hlen, htogo, hscan, hzero, hone]
      by_cases hlong : 16 < ds.length
      · rw [if_pos (by omega)]
        refine iff_of_false (by decide) ?_
        rintro ⟨ds', x', -, heq, hle, -⟩
        rw [hbytes] at heq
        cases heq
        omega
      · rw [if_neg (by omega)]
        simp only [Bool.and_eq_true, decide_eq_true_eq, List.all_eq_true, tolower_eq_x_iff]
        constructor
        · rintro ⟨⟨rfl, hx⟩, hds⟩
          exact ⟨ds, x, hx, hbytes, by omega, hds⟩
        · rintro ⟨ds', x', hx, heq, -, hds⟩
          rw [hbytes] at heq
          cases heq
          exact ⟨⟨rfl, hx⟩, hds⟩

/-- At most sixteen digits are converted without overflow, up to the end of the digits. -/
theorem Argument.IsHex.strtoul_eq {s : Argument} {ds : List UInt8} (h : s.IsHex ds) :
    (strtoul 16 s.bytes).number.toNat = value 16 ds ∧ (strtoul 16 s.bytes).erange = false ∧
      ∀ c ∈ (strtoul 16 s.bytes).rest, isxdigit c = false := by
  obtain ⟨x, hx, hbytes, hle, hds⟩ := h
  have hlower : tolower x = 120 := (tolower_eq_x_iff x).mpr hx
  rw [hbytes]
  by_cases hempty : ds = []
  · subst hempty
    rw [strtoul_mark hlower]
    refine ⟨rfl, rfl, fun c hc => ?_⟩
    rw [List.mem_singleton] at hc
    subst hc
    rcases hx with rfl | rfl <;> decide
  · have hlt : value 16 ds < 2 ^ 64 := by
      calc value 16 ds < 16 ^ ds.length := value_lt (by decide) hds
        _ ≤ 16 ^ 16 := Nat.pow_le_pow_right (by decide) hle
        _ = 2 ^ 64 := by decide
    rw [strtoul_hex hlower hempty hds hlt]
    refine ⟨?_, rfl, fun c hc => absurd hc List.not_mem_nil⟩
    rw [BitVec.toNat_ofNat, Nat.mod_eq_of_lt hlt]

/-- The request for a string that is accepted as a number. -/
theorem Argument.IsHex.trctl_eq {s : Argument} {ds : List UInt8} (h : s.IsHex ds)
    (prog mntpath : Argument) : trctl [prog, s, mntpath] =
      .setBmap ⟨(strtoul 16 s.bytes).number, mntpath.toCString⟩ := by
  have hvalid : isvalidhex s.toCString = true := s.isvalidhex_iff.mpr ⟨ds, h⟩
  obtain ⟨x, -, hbytes, -⟩ := h
  have hall : s.bytes ≠ allWord := by
    rw [hbytes]
    intro heq
    cases heq
  have hnone : s.bytes ≠ noneWord := by
    rw [hbytes]
    intro heq
    cases heq
  simp only [trctl, if_neg hall, if_neg hnone, if_pos hvalid]

/-- **Numbers are parsed exactly.**  An argument other than `all` and `none` is accepted if and only
if it is `0x` or `0X` and at most sixteen digits.  The bitmap is then the value of the digits, which
is in range, and no digit is left.  Two arguments give the same bitmap if and only if their digits
agree up to leading zeros and the case of letters. -/
theorem trctl_hex (prog s mntpath : Argument) (hall : s.bytes ≠ allWord)
    (hnone : s.bytes ≠ noneWord) :
    ((∃ args, trctl [prog, s, mntpath] = .setBmap args) ↔ ∃ ds, s.IsHex ds) ∧
      ∀ ds, s.IsHex ds →
        (∃ args, trctl [prog, s, mntpath] = .setBmap args ∧
          args.bitmap = (strtoul 16 s.bytes).number ∧ args.bitmap.toNat = value 16 ds) ∧
        (strtoul 16 s.bytes).erange = false ∧
        (∀ c ∈ (strtoul 16 s.bytes).rest, isxdigit c = false) ∧
        ∀ s' ds', Argument.IsHex s' ds' →
          (trctl [prog, s, mntpath] = trctl [prog, s', mntpath] ↔
            canonical ds = canonical ds') := by
  refine ⟨⟨?_, ?_⟩, ?_⟩
  · rintro ⟨args, hargs⟩
    simp only [trctl, if_neg hall, if_neg hnone] at hargs
    by_cases hvalid : isvalidhex s.toCString = true
    · exact s.isvalidhex_iff.mp hvalid
    · rw [if_neg hvalid] at hargs
      cases hargs
  · rintro ⟨ds, hds⟩
    exact ⟨_, hds.trctl_eq prog mntpath⟩
  · intro ds hds
    obtain ⟨hnumber, herange, hrest⟩ := hds.strtoul_eq
    refine ⟨⟨_, hds.trctl_eq prog mntpath, rfl, hnumber⟩, herange, hrest, ?_⟩
    intro s' ds' hds'
    have hnumber' := hds'.strtoul_eq.1
    have hdigits := hds.choose_spec.2.2.2
    have hdigits' := hds'.choose_spec.2.2.2
    have hvalues := value_eq_iff (by decide) (by decide) hdigits hdigits'
    rw [hds.trctl_eq, hds'.trctl_eq, ← hvalues, ← hnumber, ← hnumber', BitVec.toNat_inj]
    simp only [Request.setBmap.injEq, TrArg.mk.injEq, and_true]

/-- `0x1f` is accepted, and it is the same bitmap as `0X01F`. -/
theorem trctl_hex_1f :
    ∃ prog s s' mntpath : Argument, s.bytes = [48, 120, 49, 102] ∧
      s'.bytes = [48, 88, 48, 49, 70] ∧ (∃ args, trctl [prog, s, mntpath] = .setBmap args) ∧
      trctl [prog, s, mntpath] = trctl [prog, s', mntpath] := by
  let prog : Argument := ⟨⟨[116], by decide⟩, by decide⟩
  let s : Argument := ⟨⟨[48, 120, 49, 102], by decide⟩, by decide⟩
  let s' : Argument := ⟨⟨[48, 88, 48, 49, 70], by decide⟩, by decide⟩
  have hs : s.IsHex [49, 102] :=
    ⟨120, by decide, rfl, by decide, List.all_eq_true.mp (by decide)⟩
  have hs' : s'.IsHex [48, 49, 70] :=
    ⟨88, by decide, rfl, by decide, List.all_eq_true.mp (by decide)⟩
  obtain ⟨haccepted, hsame⟩ := trctl_hex prog s prog (by decide) (by decide)
  exact ⟨prog, s, s', prog, rfl, rfl, haccepted.mpr ⟨_, hs⟩,
    ((hsame _ hs).2.2.2 s' _ hs').mpr (by decide)⟩

end Ctl

end Trfs
