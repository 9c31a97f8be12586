import BPTreeDB.PageStore.PageContents

/-!
# The choice of the split point

`_choose_split_point` walks outward from the byte midpoint and takes the first index at which
both halves are at least `0.4` of a page.  The walk comes to every index with a slot on both
sides, the nearer ones first, so it finds the nearest balanced index if there is one.
-/

namespace BPTreeDB.PageStore

open Lib Codec BPlusTree

variable {P : ℕ} {page : Page}

/-! ## Slots within the record cap -/

/-- The slots of a page respect the record cap: they are records that `put` accepts, or
separators that are keys of such records. -/
def WithinCap (P : ℕ) : Page → Prop
  | .leaf p => ∀ slot ∈ p.slots,
      (calculateLeafRecordSize slot.key slot.value : ℤ) ≤ getMaxLeafRecordSize P
  | .internal p => ∀ slot ∈ p.slots,
      (calculateLeafRecordSize slot.key [] : ℤ) ≤ getMaxLeafRecordSize P

/-- The size of the largest slot within the record cap, with its directory entry. -/
def maxSlotSize (P : ℕ) : Page → ℕ
  | .leaf _ => slotEntrySize + (getMaxLeafRecordSize P).toNat
  | .internal _ =>
      slotEntrySize + lengthFieldSize + (getMaxLeafRecordSize P - lengthFieldSize * 2).toNat +
        pageIdFieldSize

theorem WithinCap.slotSizes_le (h : WithinCap P page) :
    ∀ x ∈ slotSizes page, x ≤ maxSlotSize P page := by
  cases page with
  | leaf p =>
      intro x hx
      obtain ⟨slot, hslot, rfl⟩ := List.mem_map.mp hx
      have hcap := h slot hslot
      simp only [calculateLeafRecordSize, lengthFieldSize] at hcap
      simp only [leafSlotSize, maxSlotSize, lengthFieldSize]
      omega
  | internal p =>
      intro x hx
      obtain ⟨slot, hslot, rfl⟩ := List.mem_map.mp hx
      have hcap := h slot hslot
      simp only [calculateLeafRecordSize, lengthFieldSize, List.length_nil] at hcap
      simp only [internalSlotSize, maxSlotSize, lengthFieldSize]
      omega

/-- Five maximal slots fit on a page. -/
theorem five_maxSlotSize_le (hP : 256 ≤ P) (page : Page) : 5 * maxSlotSize P page + 12 ≤ P := by
  cases page with
  | leaf p =>
      simp only [maxSlotSize, getMaxLeafRecordSize, slotEntrySize, pageHeaderSize]
      omega
  | internal p =>
      simp only [maxSlotSize, getMaxLeafRecordSize, slotEntrySize, pageHeaderSize, lengthFieldSize,
        pageIdFieldSize]
      omega

/-! ## The walk outward -/

/-- The offsets are tried in the order of their distance. -/
theorem pairwise_splitOffsets (n : ℕ) :
    (splitOffsets n).Pairwise fun a b => a.natAbs ≤ b.natAbs := by
  unfold splitOffsets
  rw [List.pairwise_cons, List.pairwise_flatMap]
  refine ⟨fun a _ => Nat.zero_le _, fun i _ => ?_, ?_⟩
  · rw [List.pairwise_pair]
    omega
  · apply List.pairwise_lt_range.imp
    intro i j hij x hx y hy
    simp only [List.mem_cons, List.not_mem_nil, or_false] at hx hy
    omega

/-- The distance of a slot index from the byte midpoint. -/
def midpointDistance (page : Page) (i : ℕ) : ℕ := ((i : ℤ) - byteMidpoint page).natAbs

/-- A balanced index is not nearer to the byte midpoint than the chosen one, which is balanced
as well. -/
theorem chooseSplitPoint_nearest (hm : byteMidpoint page < (slotSizes page).length) {j : ℕ}
    (hpos : 1 ≤ j) (hlt : j < (slotSizes page).length)
    (hbalanced : splitHalvesAreBalanced P page j = true) :
    splitHalvesAreBalanced P page (chooseSplitPoint P page) = true ∧
      midpointDistance page (chooseSplitPoint P page) ≤ midpointDistance page j := by
  set good := fun c : ℤ => decide (1 ≤ c ∧ c < (slotSizes page).length) &&
    splitHalvesAreBalanced P page c.toNat with hgood
  set candidates := (splitOffsets (slotSizes page).length).map fun o => (byteMidpoint page : ℤ) + o
    with hcandidates
  have hj : good j = true := by
    simp only [hgood, Int.toNat_natCast, hbalanced, Bool.and_true, decide_eq_true_eq]
    omega
  have hmem : (j : ℤ) ∈ candidates := mem_splitOffsets hlt hm
  obtain ⟨c, hfind⟩ := Option.isSome_iff_exists.mp (List.find?_isSome.mpr ⟨(j : ℤ), hmem, hj⟩)
  have hchoice : chooseSplitPoint P page = c.toNat := by
    rw [chooseSplitPoint_eq, ← hcandidates, ← hgood, hfind]
  obtain ⟨hc, before, after, hsplit, hbefore⟩ := List.find?_eq_some_iff_append.mp hfind
  simp only [hgood, Bool.and_eq_true, decide_eq_true_eq] at hc
  obtain ⟨⟨hcpos, -⟩, hcbalanced⟩ := hc
  rw [hchoice]
  refine ⟨hcbalanced, ?_⟩
  -- What the walk comes to after `c` is at least as far away.
  have hpairwise : candidates.Pairwise fun a b : ℤ =>
      (a - byteMidpoint page).natAbs ≤ (b - byteMidpoint page).natAbs := by
    rw [hcandidates, List.pairwise_map]
    simpa using pairwise_splitOffsets (slotSizes page).length
  rw [hsplit, List.pairwise_append] at hpairwise
  rw [hsplit] at hmem
  have hle : (c - byteMidpoint page).natAbs ≤ ((j : ℤ) - byteMidpoint page).natAbs := by
    rcases List.mem_append.mp hmem with hmem | hmem
    · have hfalse := hbefore j hmem
      rw [hj] at hfalse
      cases hfalse
    · rcases List.mem_cons.mp hmem with heq | hmem
      · rw [heq]
      · exact List.rel_of_pairwise_cons hpairwise.2.1 hmem
  unfold midpointDistance
  rw [Int.toNat_of_nonneg (by omega)]
  exact hle

/-! ## What a split leaves -/

/-- Both halves of a split at slot index `i` are at least `0.4` of a page. -/
def BalancedSplit (P : ℕ) (page : Page) (i : ℕ) : Prop :=
  2 * P ≤ 5 * calculatePageSize (splitHalves page i).1 ∧
    2 * P ≤ 5 * calculatePageSize (splitHalves page i).2

theorem balancedSplit_iff (P : ℕ) (page : Page) (i : ℕ) :
    BalancedSplit P page i ↔ splitHalvesAreBalanced P page i = true := by
  simp [BalancedSplit, splitHalvesAreBalanced, isPageUnderpopulated]

/-- The parts of a split have the slots of its halves. -/
theorem splitParts_halves {i : ℕ} (hi : i + medianCount page < slotCount page) (new lsn : ℕ) :
    ∃ key left right, splitParts page i new lsn = .ok (key, left, right) ∧
      slotSizes left = (slotSizes page).take i ∧
      slotSizes right = (slotSizes page).drop (i + medianCount page) := by
  cases page with
  | leaf p =>
      simp only [slotCount, medianCount, Nat.add_zero] at hi
      obtain ⟨first, rest, hdrop⟩ : ∃ first rest, p.slots.drop i = first :: rest :=
        List.exists_cons_of_ne_nil (by simpa using hi)
      refine ⟨first.key, .leaf { p with slots := p.slots.take i, rightSiblingPageId := new },
        .leaf ⟨lsn, p.rightSiblingPageId, first :: rest⟩, ?_, ?_, ?_⟩
      · simp only [splitParts, hdrop]
      · simp [slotSizes, List.map_take]
      · simp [slotSizes, medianCount, ← hdrop, List.map_drop]
  | internal p =>
      simp only [slotCount, medianCount] at hi
      obtain ⟨median, rest, hdrop⟩ : ∃ median rest, p.slots.drop i = median :: rest :=
        List.exists_cons_of_ne_nil (by simp; omega)
      have hrest : p.slots.drop (i + 1) = rest := by
        rw [← List.drop_drop, hdrop, List.drop_one, List.tail_cons]
      refine ⟨median.key, .internal { p with slots := p.slots.take i },
        .internal ⟨lsn, median.childPageId, rest⟩, ?_, ?_, ?_⟩
      · simp only [splitParts, hdrop]
      · simp [slotSizes, List.map_take]
      · simp [slotSizes, medianCount, ← hrest, List.map_drop]

/-- A page that is over its limit by at most one slot: the chosen index has a slot on both
sides, it is the nearest balanced one if there is a balanced one at all, and the two pages of
the split are not empty and within the limit. -/
theorem split_point_optimal (hP : 256 ≤ P) (page : Page) (hcap : WithinCap P page)
    (hover : P < calculatePageSize page)
    (hslack : calculatePageSize page ≤ P + maxSlotSize P page) :
    1 ≤ chooseSplitPoint P page ∧ chooseSplitPoint P page ≤ slotCount page - 1 ∧
      (∀ j, 1 ≤ j → j ≤ slotCount page - 1 → BalancedSplit P page j →
        BalancedSplit P page (chooseSplitPoint P page) ∧
          midpointDistance page (chooseSplitPoint P page) ≤ midpointDistance page j) ∧
      ∀ new lsn, ∃ key left right,
        splitParts page (chooseSplitPoint P page) new lsn = .ok (key, left, right) ∧
        slotCount left ≠ 0 ∧ slotCount right ≠ 0 ∧
        calculatePageSize left ≤ P ∧ calculatePageSize right ≤ P := by
  have hsizes := hcap.slotSizes_le
  have hfive := five_maxSlotSize_le hP page
  have hfits := chooseSplitPoint_fits hsizes (by omega) hfive hover hslack
  have hcount := length_slotSizes page
  have hlt := hfits.lt
  rw [hcount] at hlt
  refine ⟨hfits.pos, by omega, fun j hpos hle hbalanced => ?_, fun new lsn => ?_⟩
  · have hlarge : 2 * maxSlotSize P page + 2 ≤ (slotSizes page).sum := by
      simp only [calculatePageSize, pageHeaderSize] at hover
      omega
    obtain ⟨-, hmidpoint, -⟩ := byteMidpoint_spec hsizes hlarge
    rw [balancedSplit_iff] at hbalanced ⊢
    exact chooseSplitPoint_nearest (by omega) hpos (by omega) hbalanced
  · obtain ⟨key, left, right, hparts, hleft, hright⟩ := splitParts_halves hlt new lsn
    refine ⟨key, left, right, hparts, ?_, ?_, ?_, ?_⟩
    · have := hfits.pos
      rw [← length_slotSizes, hleft, List.length_take]
      omega
    · rw [← length_slotSizes, hright, List.length_drop]
      omega
    · rw [calculatePageSize, hleft]
      exact hfits.left
    · rw [calculatePageSize, hright]
      exact hfits.right

/-- Six maximal records, one more than a page of 256 bytes takes. -/
def crowdedSlots : List LeafSlot :=
  [⟨[1], List.replicate 27 0⟩, ⟨[2], List.replicate 27 0⟩, ⟨[3], List.replicate 27 0⟩,
    ⟨[4], List.replicate 27 0⟩, ⟨[5], List.replicate 27 0⟩, ⟨[6], List.replicate 27 0⟩]

def crowdedLeaf : Page := .leaf ⟨0, 0, crowdedSlots⟩

theorem split_point_optimal_crowded : chooseSplitPoint 256 crowdedLeaf = 3 ∧
    ∀ j, 1 ≤ j → j ≤ slotCount crowdedLeaf - 1 → BalancedSplit 256 crowdedLeaf j →
      BalancedSplit 256 crowdedLeaf (chooseSplitPoint 256 crowdedLeaf) ∧
        midpointDistance crowdedLeaf (chooseSplitPoint 256 crowdedLeaf) ≤
          midpointDistance crowdedLeaf j := by
  have hcap : WithinCap 256 crowdedLeaf := show ∀ slot ∈ crowdedSlots,
    (calculateLeafRecordSize slot.key slot.value : ℤ) ≤ getMaxLeafRecordSize 256 by decide
  exact ⟨by decide,
    (split_point_optimal (by decide) crowdedLeaf hcap (by decide) (by decide)).2.2.1⟩

end BPTreeDB.PageStore
