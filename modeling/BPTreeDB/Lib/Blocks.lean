import BPTreeDB.Lib.Bytes

/-!
# Files of pages

A file that is written in pages of `P` bytes, each of which is stored as a whole.  Where some of
the writes are lost, every page is the old one or the new one; `MixesPages` says so of the pages
that there were before, and leaves open what comes behind them.
-/

namespace BPTreeDB.Lib

variable {file file' old new bytes data : Bytes} {P x : ℕ}

/-! ## Page by page -/

theorem readAt_prefix (h : file <+: file') (offset count : ℕ) :
    readAt file offset count <+: readAt file' offset count :=
  (h.drop offset).take count

/-- A file begins with another one if each of its pages does. -/
theorem prefix_of_pages (hP : 0 < P) (hpages : ∀ x, x * P < file.length →
    readAt file (x * P) P <+: readAt bytes (x * P) P) : file <+: bytes := by
  apply List.prefix_iff_getElem?.mpr
  intro i hi
  have hstart : i / P * P ≤ i := Nat.div_mul_le_self i P
  have hend : i - i / P * P < P := by
    have := Nat.div_add_mod i P
    have := Nat.mod_lt i hP
    have := Nat.mul_comm P (i / P)
    omega
  -- The byte `i` stands at the same place of its page in both files.
  have hbyte : ∀ l : Bytes, (readAt l (i / P * P) P)[i - i / P * P]? = l[i]? := by
    intro l
    rw [readAt, List.getElem?_take_of_lt hend, List.getElem?_drop, Nat.add_sub_cancel' hstart]
  have hinside : i - i / P * P < (readAt file (i / P * P) P).length := by
    rw [readAt, List.length_take, List.length_drop]
    omega
  calc bytes[i]? = (readAt bytes (i / P * P) P)[i - i / P * P]? := (hbyte bytes).symm
    _ = some (readAt file (i / P * P) P)[i - i / P * P] :=
        List.prefix_iff_getElem?.mp (hpages (i / P) (by omega)) _ hinside
    _ = (readAt file (i / P * P) P)[i - i / P * P]? := (List.getElem?_eq_getElem hinside).symm
    _ = file[i]? := hbyte file
    _ = some file[i] := List.getElem?_eq_getElem hi

/-- A write of one page leaves the others as they are. -/
theorem readAt_writeAt_page {y : ℕ} (hdata : data.length = P) (hinside : x * P ≤ file.length)
    (hne : y ≠ x) : readAt (writeAt file (x * P) data) (y * P) P = readAt file (y * P) P := by
  rcases Nat.lt_or_gt_of_ne hne with hlt | hgt
  · have hbefore : y * P + P ≤ x * P := by
      rw [← Nat.succ_mul]
      exact Nat.mul_le_mul_right P hlt
    refine readAt_writeAt_of_disjoint ?_ (.inl hbefore)
    rw [readAt, List.length_take, List.length_drop]
    omega
  · have hbehind : x * P + P ≤ y * P := by
      rw [← Nat.succ_mul]
      exact Nat.mul_le_mul_right P hgt
    have hstart : (file.take (x * P) ++ data).length = x * P + P := by
      rw [List.length_append, List.length_take, min_eq_left hinside, hdata]
    have hdrop : (writeAt file (x * P) data).drop (y * P) = file.drop (y * P) := by
      rw [writeAt, Nat.sub_eq_zero_of_le hinside, List.replicate_zero, List.append_nil, hdata,
        List.drop_append, List.drop_of_length_le (by omega), List.nil_append, List.drop_drop,
        hstart, Nat.add_sub_cancel' hbehind]
    rw [readAt, readAt, hdrop]

/-! ## Mixed files -/

/-- Every page of the file `old` is in `bytes` as it is there or as it is in `new`. -/
def MixesPages (P : ℕ) (old new bytes : Bytes) : Prop :=
  ∀ x, x * P < old.length → readAt bytes (x * P) P = readAt old (x * P) P ∨
    readAt bytes (x * P) P = readAt new (x * P) P

theorem mixesPages_old (P : ℕ) (old new : Bytes) : MixesPages P old new old :=
  fun _ _ => .inl rfl

/-- Where the file has only grown, its old bytes are there. -/
theorem MixesPages.grown (h : MixesPages P old new bytes) (hP : 0 < P) (hgrown : old <+: new) :
    old <+: bytes := by
  refine prefix_of_pages hP fun x hx => ?_
  rcases h x hx with hold | hnew
  · rw [hold]
  · rw [hnew]
    exact readAt_prefix hgrown _ _

/-- Where only the first page was written, the file is the old one or the new one. -/
theorem MixesPages.firstPage (h : MixesPages P old (writeAt old 0 data) bytes) (hP : 0 < P)
    (hdata : data.length = P) (hlength : P ≤ old.length) :
    old <+: bytes ∨ writeAt old 0 data <+: bytes := by
  have hsame : (writeAt old 0 data).length = old.length := by
    rw [length_writeAt]
    omega
  have hothers : ∀ x, x ≠ 0 → readAt (writeAt old 0 data) (x * P) P = readAt old (x * P) P := by
    intro x hx
    have := readAt_writeAt_page (x := 0) hdata (by omega : 0 * P ≤ old.length) hx
    rwa [Nat.zero_mul] at this
  have hrest : ∀ x, x ≠ 0 → x * P < old.length →
      readAt bytes (x * P) P = readAt old (x * P) P := by
    intro x hx hinside
    rcases h x hinside with hold | hnew
    · exact hold
    · rw [hnew, hothers x hx]
  rcases h 0 (by omega) with hfirst | hfirst
  · refine .inl (prefix_of_pages hP fun x hx => ?_)
    by_cases hzero : x = 0
    · rw [hzero, hfirst]
    · rw [hrest x hzero hx]
  · refine .inr (prefix_of_pages hP fun x hx => ?_)
    by_cases hzero : x = 0
    · rw [hzero, hfirst]
    · rw [hothers x hzero, hrest x hzero (by omega)]

end BPTreeDB.Lib
