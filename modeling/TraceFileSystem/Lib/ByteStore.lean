import TraceFileSystem.Lib.LittleEndian

/-!
# Positional writes and byte-addressed memory

Two views of stored bytes are used side by side.

* A *file* is a list of bytes; `pwrite data pos bytes` overwrites from the offset `pos` on, padding
  with zeros when the offset lies beyond the end, and `prefixAt data pos` is what a reader sees in
  `[0, pos)`.
* A *memory* is a function from (possibly negative) addresses to bytes; `readBytes m o n` is the
  block of `n` bytes at address `o`, and `load m o bytes` overwrites a block.

A block read splits where a list is split (`readBytes_add`), which is how the position of a field
inside a larger record is computed.
-/

namespace ByteStore

/-! ### Files -/

/-- The bytes of a file in `[0, pos)`; a hole past the end reads as zeros. -/
def prefixAt (data : List UInt8) (pos : ℕ) : List UInt8 :=
  data.takeD pos 0

/-- The file after writing `bytes` at the offset `pos`. -/
def pwrite (data : List UInt8) (pos : ℕ) (bytes : List UInt8) : List UInt8 :=
  prefixAt data pos ++ bytes ++ data.drop (pos + bytes.length)

/-- The prefix up to an offset has the length of the offset. -/
@[simp] theorem length_prefixAt (data : List UInt8) (pos : ℕ) :
    (prefixAt data pos).length = pos := by
  simp [prefixAt]

/-- Up to its own length a file is its own prefix. -/
@[simp] theorem prefixAt_length (data : List UInt8) : prefixAt data data.length = data := by
  rw [prefixAt, List.takeD_eq_take _ le_rfl, List.take_length]

/-- A prefix within a file does not see what is appended to it. -/
theorem prefixAt_append_left (data rest : List UInt8) :
    prefixAt (data ++ rest) data.length = data := by
  rw [prefixAt, List.takeD_eq_take _ (by simp), List.take_left]

/-- A write ends exactly where its bytes end. -/
theorem prefixAt_pwrite (data : List UInt8) (pos : ℕ) (bytes : List UInt8) :
    prefixAt (pwrite data pos bytes) (pos + bytes.length) = prefixAt data pos ++ bytes := by
  have hlen : pos + bytes.length = (prefixAt data pos ++ bytes).length := by simp
  rw [pwrite, hlen, prefixAt_append_left]

/-- A write leaves the bytes before its offset as they were. -/
theorem prefixAt_pwrite_self (data : List UInt8) (pos : ℕ) (bytes : List UInt8) :
    prefixAt (pwrite data pos bytes) pos = prefixAt data pos := by
  have hlen : pos = (prefixAt data pos).length := by simp
  conv_lhs => rw [hlen]
  rw [pwrite, List.append_assoc, length_prefixAt]
  have := prefixAt_append_left (prefixAt data pos) (bytes ++ data.drop (pos + bytes.length))
  rwa [length_prefixAt] at this

/-- A prefix agrees with the file as far as the file goes. -/
theorem take_prefixAt {data : List UInt8} {k pos : ℕ} (hpos : k ≤ pos) (hk : k ≤ data.length) :
    (prefixAt data pos).take k = data.take k := by
  induction k generalizing data pos with
  | zero => rw [List.take_zero, List.take_zero]
  | succ k ih =>
    obtain ⟨b, data, rfl⟩ := List.exists_cons_of_length_pos (Nat.zero_lt_of_lt hk)
    obtain ⟨pos, rfl⟩ := Nat.exists_eq_add_of_lt (Nat.zero_lt_of_lt hpos)
    have htail : (prefixAt data pos).take k = data.take k :=
      ih (by omega) (Nat.le_of_succ_le_succ hk)
    rw [zero_add, prefixAt, List.takeD_succ, List.take_succ_cons, List.take_succ_cons, ← htail]
    rfl

/-- A write leaves the bytes of a file before its offset as they were. -/
theorem take_pwrite {data : List UInt8} (bytes : List UInt8) {k pos : ℕ} (hpos : k ≤ pos)
    (hk : k ≤ data.length) : (pwrite data pos bytes).take k = data.take k := by
  rw [pwrite, List.append_assoc, List.take_append_of_le_length (by simpa using hpos),
    take_prefixAt hpos hk]

/-- The bytes of a write are found at its offset. -/
theorem drop_pwrite (data : List UInt8) (pos : ℕ) (bytes : List UInt8) :
    (pwrite data pos bytes).drop pos = bytes ++ data.drop (pos + bytes.length) := by
  rw [pwrite, List.append_assoc, List.drop_left' (length_prefixAt data pos)]

/-- A write never makes a file shorter. -/
theorem length_le_length_pwrite (data : List UInt8) (pos : ℕ) (bytes : List UInt8) :
    data.length ≤ (pwrite data pos bytes).length := by
  simp only [pwrite, List.length_append, length_prefixAt, List.length_drop]
  omega

/-- Writing at the end of a file appends. -/
theorem pwrite_length (data bytes : List UInt8) :
    pwrite data data.length bytes = data ++ bytes := by
  simp [pwrite]

/-- Two writes, the second one starting where the first one ended, are one write. -/
theorem pwrite_pwrite (data : List UInt8) (pos : ℕ) (bytes bytes' : List UInt8) :
    pwrite (pwrite data pos bytes) (pos + bytes.length) bytes' =
      pwrite data pos (bytes ++ bytes') := by
  have hdrop : (pwrite data pos bytes).drop (pos + bytes.length + bytes'.length) =
      data.drop (pos + (bytes ++ bytes').length) := by
    rw [pwrite, ← List.drop_drop, List.drop_left' (by simp), List.drop_drop, List.length_append,
      add_assoc]
  rw [pwrite, prefixAt_pwrite, hdrop, pwrite]
  simp only [List.append_assoc]

/-- Writing at the start of a block overwrites its first bytes. -/
theorem pwrite_zero (data bytes : List UInt8) :
    pwrite data 0 bytes = bytes ++ data.drop bytes.length := by
  simp [pwrite, prefixAt]

/-- A write that ends within a block does not make it longer. -/
theorem length_pwrite_of_le {data bytes : List UInt8} {pos : ℕ}
    (h : pos + bytes.length ≤ data.length) : (pwrite data pos bytes).length = data.length := by
  rw [pwrite, List.length_append, List.length_append, List.length_drop, length_prefixAt]
  omega

/-! ### Memory -/

/-- A byte-addressed memory; addresses before the start of a block are negative. -/
abbrev Mem := ℤ → UInt8

/-- The block of `n` bytes at address `o`. -/
def readBytes (m : Mem) (o : ℤ) (n : ℕ) : List UInt8 :=
  (List.range n).map fun i : ℕ => m (o + (i : ℤ))

/-- The memory after storing `bytes` from address `o` on. -/
def load (m : Mem) (o : ℤ) (bytes : List UInt8) : Mem := fun a =>
  if o ≤ a ∧ a < o + bytes.length then bytes.getD (a - o).toNat 0 else m a

/-- A block has the length asked for. -/
@[simp] theorem length_readBytes (m : Mem) (o : ℤ) (n : ℕ) : (readBytes m o n).length = n := by
  simp [readBytes]

/-- Reading a block in two pieces. -/
theorem readBytes_add (m : Mem) (o : ℤ) (a b : ℕ) :
    readBytes m o (a + b) = readBytes m o a ++ readBytes m (o + a) b := by
  simp only [readBytes, List.range_add, List.map_append, List.map_map]
  congr 1
  apply List.map_congr_left
  intro i _
  simp [add_assoc]

/-- A memory that holds a concatenation holds its first part. -/
theorem readBytes_append_left {m : Mem} {o : ℤ} {l r : List UInt8}
    (h : readBytes m o (l ++ r).length = l ++ r) : readBytes m o l.length = l := by
  rw [List.length_append, readBytes_add] at h
  exact (List.append_inj h (by simp)).1

/-- A memory that holds a concatenation holds its second part right after the first. -/
theorem readBytes_append_right {m : Mem} {o : ℤ} {l r : List UInt8}
    (h : readBytes m o (l ++ r).length = l ++ r) :
    readBytes m (o + l.length) r.length = r := by
  rw [List.length_append, readBytes_add] at h
  exact (List.append_inj h (by simp)).2

/-- A block inside a larger block that has been read. -/
theorem readBytes_sub (m : Mem) (o : ℤ) {n b k : ℕ} (h : b + k ≤ n) :
    readBytes m (o + b) k = ((readBytes m o n).drop b).take k := by
  obtain ⟨c, rfl⟩ := Nat.exists_eq_add_of_le h
  rw [Nat.add_assoc, readBytes_add, List.drop_left' (by simp), readBytes_add,
    List.take_left' (by simp)]

/-- A block inside a window of a file that lies in memory. -/
theorem readBytes_window {m : Mem} {data : List UInt8} {start n b k : ℕ}
    (hm : readBytes m 0 n = (data.drop start).take n) (h : b + k ≤ n) :
    readBytes m b k = (data.drop (start + b)).take k := by
  have hsub := readBytes_sub m 0 h
  rw [zero_add, hm, List.drop_take, List.drop_drop, List.take_take,
    Nat.min_eq_left (by omega)] at hsub
  exact hsub

/-- A loaded block is read back. -/
theorem readBytes_load (m : Mem) (o : ℤ) (bytes : List UInt8) :
    readBytes (load m o bytes) o bytes.length = bytes := by
  apply List.ext_getElem
  · simp
  · intro i hi hi'
    simp [readBytes, load, hi']

end ByteStore
