import BPTreeDB.PageStore.Invariant

/-!
# The split point

`_choose_split_point` looks for a slot index near the byte midpoint at which both
halves are at least `0.4` of a page, and falls back to the midpoint.

With slots of at most a fifth of the page, and a page that is over its limit by at
most one slot, either choice leaves both halves non-empty and within a page.  On
pages of at least 256 bytes with room for two slots beside two underpopulated
halves, the search succeeds.
-/

namespace BPTreeDB.PageStore

open Lib Codec BPlusTree

/-! ## Prefix sums -/

section PrefixSums

variable {sizes : List ℕ} {cap : ℕ}

theorem length_cumulativeSizes (total : ℕ) (sizes : List ℕ) :
    (cumulativeSizes total sizes).length = sizes.length := by
  induction sizes generalizing total with
  | nil => rfl
  | cons x sizes ih => simp [cumulativeSizes, ih]

theorem getLast?_cumulativeSizes (total : ℕ) (sizes : List ℕ) :
    (cumulativeSizes total sizes).getLast?.getD total = total + sizes.sum := by
  induction sizes generalizing total with
  | nil => simp [cumulativeSizes]
  | cons x sizes ih =>
      have hrest := ih (total + x)
      cases hlast : (cumulativeSizes (total + x) sizes).getLast? with
      | none =>
          simp only [hlast, Option.getD_none] at hrest
          simp only [cumulativeSizes, List.getLast?_cons, hlast, Option.getD_none,
            Option.getD_some, List.sum_cons]
          omega
      | some y =>
          simp only [hlast, Option.getD_some] at hrest
          simp only [cumulativeSizes, List.getLast?_cons, hlast, Option.getD_some,
            List.sum_cons]
          omega

/-- `bisect_right` on the prefix sums finds the longest prefix within `v`. -/
theorem bisectRight_cumulativeSizes (total v : ℕ) (hv : total ≤ v) (sizes : List ℕ) :
    let m := bisectRight (cumulativeSizes total sizes) v
    total + (sizes.take m).sum ≤ v ∧ m ≤ sizes.length ∧
      (m < sizes.length → v < total + (sizes.take (m + 1)).sum) := by
  induction sizes generalizing total with
  | nil => simp [cumulativeSizes, bisectRight, hv]
  | cons x sizes ih =>
      simp only [bisectRight, cumulativeSizes] at ih ⊢
      by_cases hx : total + x ≤ v
      · have := ih (total + x) hx
        simp only [hx, decide_true, List.takeWhile_cons_of_pos, List.length_cons,
          List.take_succ_cons, List.sum_cons]
        omega
      · simp only [hx, decide_false, Bool.false_eq_true, not_false_eq_true,
          List.takeWhile_cons_of_neg, List.length_nil, List.take_zero, List.sum_nil,
          List.length_cons, List.take_succ_cons, List.sum_cons]
        omega

theorem sum_take_succ_le (hcap : ∀ x ∈ sizes, x ≤ cap) (n : ℕ) :
    (sizes.take (n + 1)).sum ≤ (sizes.take n).sum + cap := by
  rcases lt_or_ge n sizes.length with hn | hn
  · rw [List.take_succ_eq_append_getElem hn, List.sum_append, List.sum_singleton]
    have := hcap _ (List.getElem_mem hn)
    omega
  · rw [List.take_of_length_le hn, List.take_of_length_le (by omega)]
    omega

theorem sum_take_add_sum_drop (sizes : List ℕ) (n : ℕ) :
    (sizes.take n).sum + (sizes.drop n).sum = sizes.sum := by
  rw [← List.sum_append, List.take_append_drop]

end PrefixSums

/-! ## Halves -/

/-- The number of slots that a split promotes instead of keeping: the median of an
internal page. -/
def medianCount : Page → ℕ
  | .leaf _ => 0
  | .internal _ => 1

theorem splitHalvesAreBalanced_iff (pageSize : ℕ) (page : Page) (i : ℕ) :
    splitHalvesAreBalanced pageSize page i = true ↔
      2 * pageSize ≤ 5 * (pageHeaderSize + ((slotSizes page).take i).sum) ∧
      2 * pageSize ≤ 5 * (pageHeaderSize + ((slotSizes page).drop (i + medianCount page)).sum) := by
  cases page <;>
    simp [splitHalvesAreBalanced, splitHalves, isPageUnderpopulated, calculatePageSize,
      slotSizes, medianCount, List.map_take, List.map_drop]

/-- Every index with a slot on both sides is tried. -/
theorem mem_splitOffsets {n : ℕ} {i m : ℕ} (hi : i < n) (hm : m < n) :
    (i : ℤ) ∈ (splitOffsets n).map fun offset => (m : ℤ) + offset := by
  simp only [List.mem_map, splitOffsets, List.mem_cons, List.mem_flatMap]
  refine ⟨(i : ℤ) - m, ?_, by omega⟩
  rcases lt_trichotomy i m with h | h | h
  · exact .inr ⟨m - i - 1, List.mem_range.mpr (by omega), by simp; omega⟩
  · exact .inl (by omega)
  · exact .inr ⟨i - m - 1, List.mem_range.mpr (by omega), by simp; omega⟩

/-- What a split at slot index `i` gives. -/
structure SplitFits (pageSize : ℕ) (page : Page) (i : ℕ) : Prop where
  pos : 1 ≤ i
  lt : i + medianCount page < (slotSizes page).length
  left : pageHeaderSize + ((slotSizes page).take i).sum ≤ pageSize
  right : pageHeaderSize + ((slotSizes page).drop (i + medianCount page)).sum ≤ pageSize

section Choice

variable {pageSize cap : ℕ} {page : Page}

/-- The largest size of an underpopulated page. -/
def maxUnder (pageSize : ℕ) : ℕ := (2 * pageSize - 1) / 5

theorem medianCount_le_one (page : Page) : medianCount page ≤ 1 := by
  cases page <;> simp [medianCount]

theorem sum_take_add_medianCount_le (hcap : ∀ x ∈ slotSizes page, x ≤ cap) (i : ℕ) :
    ((slotSizes page).take (i + medianCount page)).sum ≤
      ((slotSizes page).take i).sum + medianCount page * cap := by
  cases page with
  | leaf p => simp [medianCount]
  | internal p => simpa [medianCount] using sum_take_succ_le hcap i

/-- The byte midpoint of a page. -/
def byteMidpoint (page : Page) : ℕ :=
  bisectRight (cumulativeSizes 0 (slotSizes page)) ((slotSizes page).sum / 2)

/-- `_choose_split_point` in terms of the midpoint. -/
theorem chooseSplitPoint_eq (pageSize : ℕ) (page : Page) :
    chooseSplitPoint pageSize page =
      match ((splitOffsets (slotSizes page).length).map fun o => (byteMidpoint page : ℤ) + o).find?
        fun c : ℤ => decide (1 ≤ c ∧ c < (slotSizes page).length) &&
          splitHalvesAreBalanced pageSize page c.toNat with
      | some candidate => candidate.toNat
      | none => byteMidpoint page := by
  have htotal : ((cumulativeSizes 0 (slotSizes page)).getLast?.getD 0) = (slotSizes page).sum := by
    simpa using getLast?_cumulativeSizes 0 (slotSizes page)
  simp only [chooseSplitPoint, htotal, length_cumulativeSizes]
  rfl

/-- The midpoint is tried first. -/
theorem chooseSplitPoint_eq_byteMidpoint (hpos : 1 ≤ byteMidpoint page)
    (hlt : byteMidpoint page < (slotSizes page).length)
    (hbal : splitHalvesAreBalanced pageSize page (byteMidpoint page) = true) :
    chooseSplitPoint pageSize page = byteMidpoint page := by
  rw [chooseSplitPoint_eq, splitOffsets, List.map_cons, List.find?_cons_of_pos]
  · simp
  · simp [hpos, hlt, hbal]

theorem chooseSplitPoint_cases (pageSize : ℕ) (page : Page)
    (hm : byteMidpoint page < (slotSizes page).length) :
    (1 ≤ chooseSplitPoint pageSize page ∧
        chooseSplitPoint pageSize page < (slotSizes page).length ∧
        splitHalvesAreBalanced pageSize page (chooseSplitPoint pageSize page) = true) ∨
      (chooseSplitPoint pageSize page = byteMidpoint page ∧
        ∀ i, 1 ≤ i → i < (slotSizes page).length →
          splitHalvesAreBalanced pageSize page i = false) := by
  rw [chooseSplitPoint_eq]
  split
  · rename_i c hfind
    have hc := List.find?_some hfind
    simp only [Bool.and_eq_true, decide_eq_true_eq] at hc
    obtain ⟨⟨hpos, hlt⟩, hbal⟩ := hc
    have hcpos : 1 ≤ c.toNat := by omega
    have hclt : c.toNat < (slotSizes page).length := by omega
    exact .inl ⟨hcpos, hclt, hbal⟩
  · rename_i hfind
    refine .inr ⟨rfl, fun i hi1 hin => ?_⟩
    have := List.find?_eq_none.mp hfind (i : ℤ) (mem_splitOffsets hin hm)
    simp only [Bool.and_eq_true, decide_eq_true_eq, Int.toNat_natCast] at this
    rw [← Bool.not_eq_true]
    intro hbal
    exact this ⟨by omega, hbal⟩

/-- The midpoint splits the bytes evenly up to one slot. -/
theorem byteMidpoint_spec (hcap : ∀ x ∈ slotSizes page, x ≤ cap)
    (hlarge : 2 * cap + 2 ≤ (slotSizes page).sum) :
    1 ≤ byteMidpoint page ∧ byteMidpoint page + medianCount page < (slotSizes page).length ∧
      ((slotSizes page).take (byteMidpoint page)).sum ≤ (slotSizes page).sum / 2 ∧
      (slotSizes page).sum / 2 < ((slotSizes page).take (byteMidpoint page)).sum + cap := by
  set sizes := slotSizes page with hsizes
  have hbis := bisectRight_cumulativeSizes 0 (sizes.sum / 2) (Nat.zero_le _) sizes
  simp only [Nat.zero_add] at hbis
  obtain ⟨hle, hlen, hnext⟩ := hbis
  rw [show bisectRight (cumulativeSizes 0 sizes) (sizes.sum / 2) = byteMidpoint page from rfl] at *
  have hlt : byteMidpoint page < sizes.length := by
    by_contra hge
    rw [List.take_of_length_le (by omega)] at hle
    omega
  have hstep := sum_take_succ_le hcap (byteMidpoint page)
  have hpos : 1 ≤ byteMidpoint page := by
    by_contra hzero
    have hgt := hnext hlt
    simp only [show byteMidpoint page = 0 by omega, List.take_zero, List.sum_nil] at hgt hstep
    omega
  refine ⟨hpos, ?_, hle, by have := hnext hlt; omega⟩
  by_contra hge
  have hmed := medianCount_le_one page
  have hall : sizes.take (byteMidpoint page + 1) = sizes :=
    List.take_of_length_le (by omega)
  rw [hall] at hstep
  omega

/-- Some split leaves two halves that are not underpopulated. -/
theorem exists_balanced (hcap : ∀ x ∈ slotSizes page, x ≤ cap) (hP : 112 ≤ pageSize)
    (hover : pageSize < calculatePageSize page)
    (hroom : 2 * maxUnder pageSize + (medianCount page + 1) * cap ≤ pageSize + pageHeaderSize) :
    ∃ i, 1 ≤ i ∧ i < (slotSizes page).length ∧ splitHalvesAreBalanced pageSize page i = true := by
  simp only [calculatePageSize, pageHeaderSize, maxUnder, Nat.succ_mul] at hover hroom
  -- The first prefix that is not underpopulated.
  obtain ⟨hle, hlen, hnext⟩ := bisectRight_cumulativeSizes 0 ((2 * pageSize - 1) / 5 - 32)
    (Nat.zero_le _) (slotSizes page)
  set m := bisectRight (cumulativeSizes 0 (slotSizes page)) ((2 * pageSize - 1) / 5 - 32)
  have hlt : m < (slotSizes page).length := by
    by_contra hge
    rw [List.take_of_length_le (by omega)] at hle
    omega
  have hleft := hnext hlt
  have hstep := sum_take_succ_le hcap m
  have hmed := sum_take_add_medianCount_le hcap (m + 1)
  have hsum := sum_take_add_sum_drop (slotSizes page) (m + 1 + medianCount page)
  have hright : (2 * pageSize - 1) / 5 + 1 ≤
      32 + ((slotSizes page).drop (m + 1 + medianCount page)).sum := by omega
  refine ⟨m + 1, by omega, ?_, ?_⟩
  · by_contra hge
    rw [List.drop_of_length_le (by omega), List.sum_nil] at hright
    omega
  · rw [splitHalvesAreBalanced_iff]
    simp only [pageHeaderSize]
    omega

/-- The chosen split leaves two halves that fit. -/
theorem chooseSplitPoint_fits (hcap : ∀ x ∈ slotSizes page, x ≤ cap) (hP : 112 ≤ pageSize)
    (hfifth : 5 * cap + 12 ≤ pageSize) (hover : pageSize < calculatePageSize page)
    (hslack : calculatePageSize page ≤ pageSize + cap) :
    SplitFits pageSize page (chooseSplitPoint pageSize page) := by
  simp only [calculatePageSize, pageHeaderSize] at hover hslack
  obtain ⟨hmpos, hmlt, hmle, hmgt⟩ := byteMidpoint_spec hcap (by omega)
  have hmed := medianCount_le_one page
  -- On small pages the midpoint itself is balanced, on large ones balance bounds the halves.
  have hsmall : pageSize < 148 →
      splitHalvesAreBalanced pageSize page (byteMidpoint page) = true := by
    intro hlt
    have hstep := sum_take_add_medianCount_le hcap (byteMidpoint page)
    have hsum := sum_take_add_sum_drop (slotSizes page) (byteMidpoint page + medianCount page)
    rw [splitHalvesAreBalanced_iff]
    simp only [pageHeaderSize]
    have : medianCount page * cap ≤ cap := by
      simpa using Nat.mul_le_mul_right cap hmed
    omega
  have hmid : SplitFits pageSize page (byteMidpoint page) := by
    have hsum := sum_take_add_sum_drop (slotSizes page) (byteMidpoint page + medianCount page)
    have hmono : ((slotSizes page).take (byteMidpoint page)).sum ≤
        ((slotSizes page).take (byteMidpoint page + medianCount page)).sum :=
      (List.take_sublist_take_left (by omega)).sum_le_sum (by simp)
    refine ⟨hmpos, hmlt, ?_, ?_⟩ <;> simp only [pageHeaderSize] <;> omega
  rcases chooseSplitPoint_cases pageSize page (by omega) with ⟨hpos, hlt, hbal⟩ | ⟨hmidpoint, -⟩
  · rcases lt_or_ge pageSize 148 with hsize | hsize
    · rw [chooseSplitPoint_eq_byteMidpoint hmpos (by omega) (hsmall hsize)]
      exact hmid
    · set i := chooseSplitPoint pageSize page
      rw [splitHalvesAreBalanced_iff] at hbal
      simp only [pageHeaderSize] at hbal
      have hsum := sum_take_add_sum_drop (slotSizes page) (i + medianCount page)
      have hmono : ((slotSizes page).take i).sum ≤
          ((slotSizes page).take (i + medianCount page)).sum :=
        (List.take_sublist_take_left (by omega)).sum_le_sum (by simp)
      refine ⟨hpos, ?_, ?_, ?_⟩
      · by_contra hge
        rw [List.drop_of_length_le (by omega), List.sum_nil] at hbal
        omega
      · simp only [pageHeaderSize]
        omega
      · simp only [pageHeaderSize]
        omega
  · rw [hmidpoint]
    exact hmid

/-- Where there is room for it, the chosen split is balanced. -/
theorem chooseSplitPoint_balanced (hcap : ∀ x ∈ slotSizes page, x ≤ cap)
    (hfifth : 5 * cap + 12 ≤ pageSize) (hover : pageSize < calculatePageSize page)
    (hlarge : 112 ≤ pageSize)
    (hroom : 2 * maxUnder pageSize + (medianCount page + 1) * cap ≤ pageSize + pageHeaderSize) :
    splitHalvesAreBalanced pageSize page (chooseSplitPoint pageSize page) = true := by
  obtain ⟨i, hi1, hin, hbal⟩ := exists_balanced hcap hlarge hover hroom
  simp only [calculatePageSize, pageHeaderSize] at hover
  obtain ⟨-, hmlt, -, -⟩ := byteMidpoint_spec hcap (by omega)
  rcases chooseSplitPoint_cases pageSize page (by omega) with ⟨-, -, h⟩ | ⟨-, hnone⟩
  · exact h
  · rw [hnone i hi1 hin] at hbal
    cases hbal

end Choice

end BPTreeDB.PageStore
