import Mathlib.Tactic

/-!
# Formats with numbers

Text that a program prints with a format in which decimal numbers and fixed text take turns.  When
no piece of text behind a number begins with a digit, the numbers can be read back, whatever
follows.

* `decimal` is a number as `%d` prints it, and `formatFields` is a list of numbers, each with the
  text behind it.
* `decimal_append_inj` and `formatFields_append_inj` read them back.  `flatMap_inj` does it for a
  list made of several parts, each of which can be read back.
-/

namespace Formats

/-- Fixed text. -/
def lit (s : String) : List Char :=
  s.toList

@[simp] theorem lit_newline : lit "\n" = ['\n'] := rfl

/-- A number as `%d` prints it. -/
def decimal (z : ℤ) : List Char :=
  if z < 0 then '-' :: Nat.toDigits 10 z.natAbs else Nat.toDigits 10 z.natAbs

/-- A number is not read on into the text. -/
def EndsNumber (s : List Char) : Prop :=
  ∀ c ∈ s.head?, c.isDigit = false

/-- A text behind a number may go on. -/
theorem endsNumber_append {s : List Char} (hne : s ≠ []) (hs : EndsNumber s) (t : List Char) :
    EndsNumber (s ++ t) := by
  obtain ⟨c, cs, rfl⟩ := List.exists_cons_of_ne_nil hne
  exact hs

instance (s : List Char) : Decidable (EndsNumber s) :=
  match s with
  | [] => .isTrue fun c hc => by cases hc
  | c :: _ => decidable_of_iff (c.isDigit = false) (by simp [EndsNumber])

variable {s s' : List Char} {n n' : ℕ} {z z' : ℤ}

/-- The digits in front of a text. -/
theorem takeWhile_toDigits (n : ℕ) (hs : EndsNumber s) :
    (Nat.toDigits 10 n ++ s).takeWhile Char.isDigit = Nat.toDigits 10 n := by
  have hdigits : ∀ c ∈ Nat.toDigits 10 n, c.isDigit = true := fun c hc =>
    Nat.isDigit_of_mem_toDigits (by decide) (by decide) hc
  rw [List.takeWhile_append_of_pos hdigits]
  cases s with
  | nil => simp
  | cons c s => simp [hs c rfl]

/-- A natural number is read back. -/
theorem toDigits_append_inj (hs : EndsNumber s) (hs' : EndsNumber s')
    (h : Nat.toDigits 10 n ++ s = Nat.toDigits 10 n' ++ s') : n = n' ∧ s = s' := by
  have hdigits : Nat.toDigits 10 n = Nat.toDigits 10 n' := by
    rw [← takeWhile_toDigits n hs, h, takeWhile_toDigits n' hs']
  refine ⟨?_, List.append_cancel_left (hdigits ▸ h)⟩
  calc n = Nat.ofDigitChars 10 (Nat.toDigits 10 n) 0 := Nat.ofDigitChars_ten_toDigits.symm
    _ = Nat.ofDigitChars 10 (Nat.toDigits 10 n') 0 := by rw [hdigits]
    _ = n' := Nat.ofDigitChars_ten_toDigits

/-- The first digit of a natural number is not a sign. -/
theorem toDigits_append_ne (n : ℕ) (s t : List Char) : Nat.toDigits 10 n ++ s ≠ '-' :: t := by
  obtain ⟨c, ds, hds⟩ := List.exists_cons_of_ne_nil (Nat.toDigits_ne_nil (n := n) (b := 10))
  intro h
  have hdigit : c.isDigit = true :=
    Nat.isDigit_of_mem_toDigits (by decide) (by decide) (hds ▸ List.mem_cons_self)
  rw [hds, List.cons_append, List.cons.injEq] at h
  rw [h.1] at hdigit
  exact absurd hdigit (by decide)

/-- A number is read back. -/
theorem decimal_append_inj (hs : EndsNumber s) (hs' : EndsNumber s')
    (h : decimal z ++ s = decimal z' ++ s') : z = z' ∧ s = s' := by
  unfold decimal at h
  split at h
  · next hz =>
    split at h
    · next hz' =>
      rw [List.cons_append, List.cons_append, List.cons.injEq] at h
      obtain ⟨hn, hrest⟩ := toDigits_append_inj hs hs' h.2
      exact ⟨by omega, hrest⟩
    · next hz' => exact absurd h.symm (toDigits_append_ne _ _ _)
  · next hz =>
    split at h
    · next hz' => exact absurd h (toDigits_append_ne _ _ _)
    · next hz' =>
      obtain ⟨hn, hrest⟩ := toDigits_append_inj hs hs' h
      exact ⟨by omega, hrest⟩

/-- A word is read back up to a character that does not occur in it. -/
theorem append_cons_inj {c : Char} {w w' : List Char} (hw : c ∉ w) (hw' : c ∉ w')
    (h : w ++ c :: s = w' ++ c :: s') : w = w' ∧ s = s' := by
  have htake {v t : List Char} (hv : c ∉ v) : (v ++ c :: t).takeWhile (· ≠ c) = v := by
    have hpos : ∀ d ∈ v, (decide (d ≠ c)) = true := by
      intro d hd
      rw [decide_eq_true_eq]
      rintro rfl
      exact hv hd
    rw [List.takeWhile_append_of_pos hpos, List.takeWhile_cons_of_neg (by simp),
      List.append_nil]
  obtain rfl : w = w' := by rw [← htake hw, h, htake hw']
  exact ⟨rfl, (List.cons.inj (List.append_cancel_left h)).2⟩

/-- Numbers, each with the text behind it. -/
def formatFields (fs : List (ℤ × List Char)) : List Char :=
  fs.flatMap fun f => decimal f.1 ++ f.2

/-- Numbers in the same format are read back. -/
theorem formatFields_append_inj {fs fs' : List (ℤ × List Char)}
    (hformat : fs.map Prod.snd = fs'.map Prod.snd)
    (hends : ∀ t ∈ fs.map Prod.snd, t ≠ [] ∧ EndsNumber t)
    (h : formatFields fs ++ s = formatFields fs' ++ s') : fs = fs' ∧ s = s' := by
  induction fs generalizing fs' with
  | nil =>
    obtain rfl : fs' = [] := by simpa using hformat.symm
    exact ⟨rfl, h⟩
  | cons f fs ih =>
    cases fs' with
    | nil => simp at hformat
    | cons f' fs' =>
      rw [List.map_cons, List.map_cons, List.cons.injEq] at hformat
      obtain ⟨hend, hends⟩ := List.forall_mem_cons.mp hends
      have hstop := endsNumber_append hend.1 hend.2
      simp only [formatFields, List.flatMap_cons, List.append_assoc] at h
      rw [← hformat.1] at h
      obtain ⟨hz, htext⟩ := decimal_append_inj (hstop _) (hstop _) h
      obtain ⟨hfs, hs⟩ := ih hformat.2 hends (List.append_cancel_left htext)
      exact ⟨by rw [hfs, Prod.ext hz hformat.1], hs⟩

/-- A list made of parts that can be read back, whatever follows, and are not empty. -/
theorem flatMap_inj {α β : Type*} {text : α → List β} {l l' : List α}
    (hne : ∀ a, text a ≠ [])
    (hinj : ∀ a ∈ l, ∀ a' ∈ l', ∀ s s', text a ++ s = text a' ++ s' → a = a' ∧ s = s')
    (h : l.flatMap text = l'.flatMap text) : l = l' := by
  induction l generalizing l' with
  | nil =>
    cases l' with
    | nil => rfl
    | cons a' l' =>
      rw [List.flatMap_nil, List.flatMap_cons, eq_comm, List.append_eq_nil_iff] at h
      exact absurd h.1 (hne a')
  | cons a l ih =>
    cases l' with
    | nil =>
      rw [List.flatMap_nil, List.flatMap_cons, List.append_eq_nil_iff] at h
      exact absurd h.1 (hne a)
    | cons a' l' =>
      rw [List.flatMap_cons, List.flatMap_cons] at h
      obtain ⟨rfl, hrest⟩ := hinj a List.mem_cons_self a' List.mem_cons_self _ _ h
      rw [ih (fun b hb b' hb' => hinj b (List.mem_cons_of_mem a hb) b'
        (List.mem_cons_of_mem a hb')) hrest]

end Formats
