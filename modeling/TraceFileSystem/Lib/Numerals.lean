import Mathlib.Tactic
import Mathlib.Data.List.TakeWhile
import Mathlib.Data.Nat.Digits.Lemmas

/-!
# Numerals

Character classes of the C library in its default locale, the value of a numeral in a base of at
most thirty-six, and `strtoul` on a machine with an `unsigned long` of sixty-four bits.

* `digit?` is the value of a character as a digit, in either case of a letter.
* `value` is the positional value of a numeral.  Two numerals have the same value if and only if
  they are the same after leading zeros are removed and letters are made small
  (`value_eq_iff`).
* `strtoul` converts the longest numeral at the beginning of a string, behind white space, a sign
  and, for the base sixteen, `0x`.
-/

namespace Numerals

/-- `isspace`. -/
def isspace (c : UInt8) : Bool := c.toNat = 32 ∨ (9 ≤ c.toNat ∧ c.toNat ≤ 13)

/-- `tolower`. -/
def tolower (c : UInt8) : UInt8 :=
  if 65 ≤ c.toNat ∧ c.toNat ≤ 90 then UInt8.ofNat (c.toNat + 32) else c

/-- The value of a digit or a letter. -/
def digit? (c : UInt8) : Option ℕ :=
  if 48 ≤ c.toNat ∧ c.toNat ≤ 57 then some (c.toNat - 48)
  else if 97 ≤ c.toNat ∧ c.toNat ≤ 122 then some (c.toNat - 87)
  else if 65 ≤ c.toNat ∧ c.toNat ≤ 90 then some (c.toNat - 55)
  else none

/-- The character is a digit in a base. -/
def isDigit (base : ℕ) (c : UInt8) : Bool := (digit? c).any (· < base)

/-- `isxdigit`. -/
def isxdigit (c : UInt8) : Bool := isDigit 16 c

/-- The value of a digit; other characters count as zero. -/
def digitValue (c : UInt8) : ℕ := (digit? c).getD 0

/-- The small character for a digit. -/
def digitChar (d : ℕ) : UInt8 := UInt8.ofNat (if d < 10 then 48 + d else 87 + d)

/-- The values of the digits of a numeral, the most significant one first. -/
def digitValues (ds : List UInt8) : List ℕ := ds.map digitValue

/-- The positional value of a numeral. -/
def value (base : ℕ) (ds : List UInt8) : ℕ := Nat.ofDigits base (digitValues ds).reverse

/-- The numeral without leading zeros and with small letters. -/
def canonical (ds : List UInt8) : List UInt8 := (ds.map tolower).dropWhile (· == 48)

/-! ### Digits -/

section Digits

variable {base : ℕ} {c : UInt8} {ds ds' : List UInt8}

/-- A digit has a value below the base. -/
theorem digit?_of_isDigit (h : isDigit base c = true) :
    digit? c = some (digitValue c) ∧ digitValue c < base := by
  obtain ⟨d, hd, hlt⟩ := (Option.any_eq_true _ _).mp h
  rw [digitValue, hd]
  exact ⟨rfl, of_decide_eq_true hlt⟩

/-- The value of a digit determines the small character for it. -/
theorem tolower_of_digit? {d : ℕ} (h : digit? c = some d) : tolower c = digitChar d := by
  unfold digit? at h
  split_ifs at h with hdecimal hsmall hcapital
  · cases h
    have hlow : ¬(65 ≤ c.toNat ∧ c.toNat ≤ 90) := by omega
    rw [tolower, if_neg hlow, digitChar, if_pos (by omega), Nat.add_sub_cancel' hdecimal.1,
      UInt8.ofNat_toNat]
  · cases h
    have hlow : ¬(65 ≤ c.toNat ∧ c.toNat ≤ 90) := by omega
    rw [tolower, if_neg hlow, digitChar, if_neg (by omega), Nat.add_sub_cancel' (by omega),
      UInt8.ofNat_toNat]
  · cases h
    rw [tolower, if_pos hcapital, digitChar, if_neg (by omega)]
    congr 1
    omega

/-- The digits up to thirty-five have different characters. -/
theorem digitValue_digitChar {d : ℕ} (h : d < 36) : digitValue (digitChar d) = d := by
  revert d
  decide

/-- All values of a numeral are below the base. -/
theorem digitValues_lt (h : ∀ c ∈ ds, isDigit base c = true) : ∀ d ∈ digitValues ds, d < base := by
  intro d hd
  obtain ⟨c, hc, rfl⟩ := List.mem_map.mp hd
  exact (digit?_of_isDigit (h c hc)).2

/-- The small characters of a numeral are those of its values. -/
theorem map_tolower (h : ∀ c ∈ ds, isDigit base c = true) :
    ds.map tolower = (digitValues ds).map digitChar := by
  rw [digitValues, List.map_map]
  refine List.map_congr_left fun c hc => ?_
  exact tolower_of_digit? (digit?_of_isDigit (h c hc)).1

/-- A numeral of `n` digits is below the `n`-th power of the base. -/
theorem value_lt (hbase : 1 < base) (h : ∀ c ∈ ds, isDigit base c = true) :
    value base ds < base ^ ds.length := by
  have hlt := Nat.ofDigits_lt_base_pow_length (l := (digitValues ds).reverse) hbase fun d hd =>
    digitValues_lt h d (List.mem_reverse.mp hd)
  rwa [List.length_reverse, digitValues, List.length_map] at hlt

/-- The digits of the value, without leading zeros. -/
theorem digits_ofDigits_reverse (hbase : 1 < base) {l : List ℕ} (h : ∀ d ∈ l, d < base) :
    Nat.digits base (Nat.ofDigits base l.reverse) = (l.dropWhile (· == 0)).reverse := by
  induction l with
  | nil => simp
  | cons d l ih =>
    obtain ⟨hd, hl⟩ := List.forall_mem_cons.mp h
    by_cases hzero : d = 0
    · subst hzero
      rw [List.reverse_cons, Nat.ofDigits_append_zero, List.dropWhile_cons_of_pos rfl]
      exact ih hl
    · rw [List.dropWhile_cons_of_neg (by simpa using hzero)]
      refine Nat.digits_ofDigits base hbase _ (fun e he => h e (List.mem_reverse.mp he)) fun _ => ?_
      rw [List.getLast_reverse, List.head_cons]
      exact hzero

/-- Leading zeros are the values that are zero. -/
theorem canonical_eq (hbase : base ≤ 36) (h : ∀ c ∈ ds, isDigit base c = true) :
    canonical ds = ((digitValues ds).dropWhile (· == 0)).map digitChar := by
  rw [canonical, map_tolower h, List.dropWhile_map]
  congr 1
  have hlt := digitValues_lt h
  generalize digitValues ds = l at hlt
  induction l with
  | nil => rfl
  | cons d l ih =>
    obtain ⟨hd, hl⟩ := List.forall_mem_cons.mp hlt
    by_cases hzero : d = 0
    · subst hzero
      rw [List.dropWhile_cons_of_pos rfl, List.dropWhile_cons_of_pos rfl]
      exact ih hl
    · have hchar : digitChar d ≠ 48 := by
        intro hchar
        have hvalue := digitValue_digitChar (hd.trans_le hbase)
        rw [hchar] at hvalue
        exact hzero hvalue.symm
      rw [List.dropWhile_cons_of_neg (by simpa using hchar),
        List.dropWhile_cons_of_neg (by simpa using hzero)]

/-- Values up to thirty-five are found again from their characters. -/
theorem map_digitValue_digitChar {l : List ℕ} (h : ∀ d ∈ l, d < 36) :
    digitValues (l.map digitChar) = l := by
  rw [digitValues, List.map_map]
  calc l.map (digitValue ∘ digitChar) = l.map id :=
        List.map_congr_left fun d hd => digitValue_digitChar (h d hd)
    _ = l := List.map_id l

/-- Two numerals have the same value if and only if they are the same up to leading zeros and the
case of letters. -/
theorem value_eq_iff (hbase : 1 < base) (hle : base ≤ 36) (h : ∀ c ∈ ds, isDigit base c = true)
    (h' : ∀ c ∈ ds', isDigit base c = true) :
    value base ds = value base ds' ↔ canonical ds = canonical ds' := by
  have hdigits := digits_ofDigits_reverse hbase (digitValues_lt h)
  have hdigits' := digits_ofDigits_reverse hbase (digitValues_lt h')
  have hback {ds : List UInt8} (h : ∀ c ∈ ds, isDigit base c = true) :
      digitValues (canonical ds) = (digitValues ds).dropWhile (· == 0) := by
    rw [canonical_eq hle h]
    refine map_digitValue_digitChar fun d hd => ?_
    exact (digitValues_lt h d ((List.dropWhile_sublist _).subset hd)).trans_le hle
  constructor
  · intro heq
    rw [value, value] at heq
    rw [heq, hdigits'] at hdigits
    rw [canonical_eq hle h, canonical_eq hle h', List.reverse_injective hdigits]
  · intro heq
    rw [value, value, ← Nat.digits_inj_iff (b := base), hdigits, hdigits', ← hback h, ← hback h',
      heq]

end Digits

/-! ### Conversion -/

/-- What `strtoul` finds: the number, what follows it in the string, and whether the number was out
of range. -/
structure Conversion where
  number : BitVec 64
  rest : List UInt8
  erange : Bool
  deriving DecidableEq

/-- The sign of a numeral, and the string behind it. -/
def sign : List UInt8 → Bool × List UInt8
  | 45 :: s => (true, s)
  | 43 :: s => (false, s)
  | s => (false, s)

/-- The string behind `0x`, which counts for the base sixteen if a digit follows. -/
def behindMark (base : ℕ) : List UInt8 → List UInt8
  | 48 :: x :: c :: s =>
    if base = 16 ∧ tolower x = 120 ∧ isDigit base c = true then c :: s else 48 :: x :: c :: s
  | s => s

/-- `strtoul`.  Without a digit there is no conversion, and a number that is out of range becomes
the largest one. -/
def strtoul (base : ℕ) (nptr : List UInt8) : Conversion :=
  let (negative, s) := sign (nptr.dropWhile isspace)
  let s := behindMark base s
  let ds := s.takeWhile (isDigit base)
  let rest := s.dropWhile (isDigit base)
  if ds = [] then ⟨0, nptr, false⟩
  else if 2 ^ 64 ≤ value base ds then ⟨-1, rest, true⟩
  else ⟨if negative then -BitVec.ofNat 64 (value base ds) else BitVec.ofNat 64 (value base ds),
    rest, false⟩

/-- Both cases of the letter behind the zero. -/
theorem tolower_eq_x_iff (x : UInt8) : tolower x = 120 ↔ x = 120 ∨ x = 88 := by
  constructor
  · intro h
    unfold tolower at h
    split_ifs at h with hcapital
    · have hsmall : (UInt8.ofNat (x.toNat + 32)).toNat = x.toNat + 32 :=
        Nat.mod_eq_of_lt (by omega)
      have hnat : x.toNat + 32 = 120 := hsmall.symm.trans (congrArg UInt8.toNat h)
      have hx : x.toNat = 88 := by omega
      exact .inr (UInt8.toNat_inj.mp hx)
    · exact .inl h
  · rintro (rfl | rfl) <;> decide

/-- A numeral of the base sixteen that begins with `0x` and is in range is converted completely. -/
theorem strtoul_hex {x : UInt8} {ds : List UInt8} (hx : tolower x = 120) (hne : ds ≠ [])
    (hds : ∀ c ∈ ds, isDigit 16 c = true) (hlt : value 16 ds < 2 ^ 64) :
    strtoul 16 (48 :: x :: ds) = ⟨BitVec.ofNat 64 (value 16 ds), [], false⟩ := by
  obtain ⟨c, ds, rfl⟩ := List.exists_cons_of_ne_nil hne
  have hspace : (48 :: x :: c :: ds).dropWhile isspace = 48 :: x :: c :: ds :=
    List.dropWhile_cons_of_neg (by decide)
  have hsign : sign (48 :: x :: c :: ds) = (false, 48 :: x :: c :: ds) := rfl
  have hmark : behindMark 16 (48 :: x :: c :: ds) = c :: ds :=
    if_pos ⟨rfl, hx, hds c List.mem_cons_self⟩
  have htake : (c :: ds).takeWhile (isDigit 16) = c :: ds := List.takeWhile_eq_self_iff.mpr hds
  have hdrop : (c :: ds).dropWhile (isDigit 16) = [] := List.dropWhile_eq_nil_iff.mpr hds
  simp only [strtoul, hspace, hsign, hmark, htake, hdrop, if_neg hne, if_neg (not_le.mpr hlt)]
  rfl

/-- Without a digit behind `0x` the zero is converted. -/
theorem strtoul_mark {x : UInt8} (hx : tolower x = 120) : strtoul 16 [48, x] = ⟨0, [x], false⟩ := by
  rcases (tolower_eq_x_iff x).mp hx with rfl | rfl <;> decide

end Numerals
