import Mathlib

/-!
# Byte strings, little-endian fields and byte files

The vocabulary of a binary format: byte strings, the fixed-width little-endian
integers that `struct` writes, slice assignment on a mutable buffer, and a file
seen as the list of its bytes that is read and written at offsets.
-/

namespace BPTreeDB.Lib

/-- A byte. -/
abbrev Byte := Fin 256

instance byteNeZero : NeZero 256 := ⟨by decide⟩

/-- A byte string.  Byte strings are compared lexicographically. -/
abbrev Bytes := List Byte

/-! ## Little-endian integers -/

/-- The `width` low bytes of `n`, least significant byte first. -/
def packLE : (width : ℕ) → (n : ℕ) → Bytes
  | 0, _ => []
  | width + 1, n => Fin.ofNat 256 n :: packLE width (n / 256)

/-- The number whose little-endian digits are the given bytes. -/
def unpackLE : Bytes → ℕ
  | [] => 0
  | b :: rest => b.val + 256 * unpackLE rest

@[simp] theorem length_packLE (width n : ℕ) : (packLE width n).length = width := by
  induction width generalizing n with
  | zero => rfl
  | succ width ih => simp [packLE, ih]

theorem unpackLE_packLE {width n : ℕ} (hn : n < 256 ^ width) : unpackLE (packLE width n) = n := by
  induction width generalizing n with
  | zero =>
      have : n = 0 := by simpa using hn
      simp [packLE, unpackLE, this]
  | succ width ih =>
      have hrest : n / 256 < 256 ^ width := by
        rw [Nat.div_lt_iff_lt_mul (by norm_num)]
        simpa [pow_succ] using hn
      simp only [packLE, unpackLE, ih hrest, Fin.ofNat]
      omega

theorem packLE_unpackLE (bytes : Bytes) : packLE bytes.length (unpackLE bytes) = bytes := by
  induction bytes with
  | nil => rfl
  | cons b bytes ih =>
      have hb := b.isLt
      have hdiv : unpackLE (b :: bytes) / 256 = unpackLE bytes := by
        rw [unpackLE]
        omega
      have hmod : Fin.ofNat 256 (unpackLE (b :: bytes)) = b := by
        apply Fin.ext
        simp only [unpackLE, Fin.ofNat]
        omega
      rw [List.length_cons, packLE, hdiv, hmod, ih]

theorem unpackLE_lt (bytes : Bytes) : unpackLE bytes < 256 ^ bytes.length := by
  induction bytes with
  | nil => simp [unpackLE]
  | cons b bytes ih =>
      have hb := b.isLt
      rw [unpackLE, List.length_cons, pow_succ]
      omega

/-! ## Files as byte lists -/

/-- The bytes `[offset, offset + count)` of a file, cut at the end of the file. -/
def readAt (file : Bytes) (offset count : ℕ) : Bytes :=
  (file.drop offset).take count

/-- The file after `data` was written at `offset`; a gap past the end of the file
is filled with zero bytes. -/
def writeAt (file : Bytes) (offset : ℕ) (data : Bytes) : Bytes :=
  file.take offset ++ List.replicate (offset - file.length) 0 ++ data ++
    file.drop (offset + data.length)

/-- Assignment to the slice `[start, stop)` of a mutable buffer.  As for a
`bytearray`, the buffer changes its length when `data` is longer or shorter than
the part it replaces. -/
def sliceAssign (buffer : Bytes) (start stop : ℕ) (data : Bytes) : Bytes :=
  buffer.take start ++ data ++ buffer.drop (max start stop)

/-! ## Reading back -/

/-- A slice that is wholly inside the data. -/
theorem readAt_of_drop {data bytes tail : Bytes} {offset : ℕ}
    (hdrop : data.drop offset = bytes ++ tail) : readAt data offset bytes.length = bytes := by
  rw [readAt, hdrop, List.take_left' rfl]

/-- Appending does not change a slice that is wholly inside the file. -/
theorem readAt_append {file : Bytes} {offset count : ℕ}
    (hlen : (readAt file offset count).length = count) (tail : Bytes) :
    readAt (file ++ tail) offset count = readAt file offset count := by
  unfold readAt at *
  cases count with
  | zero => simp
  | succ count =>
      simp only [List.length_take, List.length_drop] at hlen
      rw [List.drop_append_of_le_length (by omega), List.take_append_of_le_length]
      rw [List.length_drop]
      omega

/-- The bytes just written. -/
theorem readAt_writeAt_self (file data : Bytes) (offset : ℕ) :
    readAt (writeAt file offset data) offset data.length = data := by
  have hlen : (file.take offset ++ List.replicate (offset - file.length) (0 : Byte)).length =
      offset := by
    simp only [List.length_append, List.length_take, List.length_replicate]
    omega
  have hdrop : (writeAt file offset data).drop offset =
      data ++ file.drop (offset + data.length) := by
    rw [writeAt, List.append_assoc, List.drop_left' hlen]
  exact readAt_of_drop hdrop

/-- A write changes only the bytes it covers. -/
theorem readAt_writeAt_of_disjoint {file data : Bytes} {offset o n : ℕ}
    (hinside : (readAt file o n).length = n)
    (hdisjoint : o + n ≤ offset ∨ offset + data.length ≤ o) :
    readAt (writeAt file offset data) o n = readAt file o n := by
  rcases Nat.eq_zero_or_pos n with rfl | hn
  · simp [readAt]
  have hlen : o + n ≤ file.length := by
    simp only [readAt, List.length_take, List.length_drop] at hinside
    omega
  rcases hdisjoint with h | h
  · have htake : (readAt (file.take offset) o n).length = n := by
      simp only [readAt, List.length_take, List.length_drop]
      omega
    rw [writeAt, List.append_assoc, List.append_assoc, readAt_append htake, readAt, readAt,
      List.drop_take, List.take_take, min_eq_left (by omega)]
  · have hgap : offset - file.length = 0 := by omega
    have hstart : (file.take offset ++ data).length = offset + data.length := by
      simp only [List.length_append, List.length_take]
      omega
    have hdrop : (writeAt file offset data).drop o = file.drop o := by
      rw [writeAt, hgap, List.replicate_zero, List.append_nil, List.drop_append, hstart,
        List.drop_of_length_le (by omega), List.nil_append, List.drop_drop]
      congr 1
      omega
    rw [readAt, readAt, hdrop]

theorem length_writeAt (file data : Bytes) (offset : ℕ) :
    (writeAt file offset data).length = max file.length (offset + data.length) := by
  simp only [writeAt, List.length_append, List.length_take, List.length_replicate, List.length_drop]
  omega

end BPTreeDB.Lib
