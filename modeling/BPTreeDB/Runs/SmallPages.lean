import BPTreeDB.Runs.LeafBalance

/-!
# Small pages

The constructor of the pager admits every page on which the meta page fits.  A leaf step
asks for more: a donor on the right must have a second record, from which the separator is
read after the first one has moved.  A donor is taken as it is when it is not
underpopulated, so the step is safe where a single record never makes up `0.4` of a page.
On the few page sizes where it can, the step raises `IndexError`, unless the record cap
admits no more than the empty record, when the tree never grows beyond one leaf.
-/

namespace BPTreeDB.Runs

open Lib Eng Codec Lib.Program PageStore Engine

variable {R : Regime} {L H : ℕ} {T : Tree H} {C : Content} {M : KeyMap} {w : World}

/-- In every run on an unbounded pool, the leaf step of a further accepted insert or of a
further delete does not raise `IndexError`. -/
def LeafStepsWork (P : ℕ) : Prop :=
  ∀ (config : Config) (calls : List TreeCall) (w : World), config.pageSizeBytes = P →
    Reached config false calls w →
      (∀ key value lsn w', (calculateLeafRecordSize key value : ℤ) ≤ getMaxLeafRecordSize P →
        BPlusTree.insertLeafStep key value lsn w ≠ .error .indexError w') ∧
      ∀ key lsn w', BPlusTree.deleteLeafStep key lsn w ≠ .error .indexError w'

/-! ## Where a lone record is thin -/

theorem leafStepsWork_of_thin {P : ℕ}
    (hP : 112 ≤ P ∧ 5 * (pageHeaderSize + (P - pageHeaderSize) / 5) < 2 * P) : LeafStepsWork P := by
  rintro config calls w rfl hreached
  have hmin : minPageSize ≤ config.pageSizeBytes := by
    have := hP.1
    simp only [minPageSize, metaPageNoCrcSize, crc32FieldSize]
    omega
  obtain ⟨-, hset, L, C, M, -, H, T, hholding⟩ :=
    hreached.holding (R := leafRegime config.pageSizeBytes hP) rfl hmin
      fun c _ => within_leafRegime hP c
  refine ⟨fun key value lsn w' hfits herror => ?_, fun key lsn w' herror => ?_⟩
  · obtain ⟨step, w₁, hrun⟩ := insertLeafStep_returns tightMode_not_escape
      (hholding.mono (Nat.le_add_right L lsn)) (tightMode_allows hset) hP.1 (.inr trivial)
      (Nat.le_add_left lsn L) hfits (key_le_of_accepted hfits)
    rw [hrun] at herror
    cases herror
  · obtain ⟨step, w₁, hrun⟩ := deleteLeafStep_returns tightMode_not_escape
      (hholding.mono (Nat.le_add_right L lsn)) (tightMode_allows hset) hP.1 (.inr trivial)
      (Nat.le_add_left lsn L) key
    rw [hrun] at herror
    cases herror

/-! ## Where only the empty record is accepted -/

/-- A subtree below the root holds a record. -/
theorem exists_keyToken : ∀ {h : ℕ} {t : Tree h}, Tree.Good R false h t →
    ∃ key, keyToken key ∈ tokens (Tree.items h t) := by
  intro h
  induction h with
  | zero =>
      intro t hgood
      obtain ⟨l, rfl⟩ := t.exists_leaf
      have hleaf : R.LeafGood false l.slots := hgood
      obtain ⟨s, hs⟩ := List.exists_mem_of_ne_nil _ (hleaf.nonempty rfl)
      refine ⟨s.key, ?_⟩
      simp only [Tree.items_leaf, tokens_cons, Item.tokens_leaf, tokens_nil, List.append_nil]
      exact List.mem_map_of_mem hs
  | succ h ih =>
      intro t hgood
      obtain ⟨n, rfl⟩ := t.exists_node
      obtain ⟨key, hkey⟩ := ih hgood.2.1
      refine ⟨key, ?_⟩
      rw [Tree.items_node, tokens_append]
      exact List.mem_append_left _ hkey

/-- Without a key that is longer than the empty one there is no separator, since the
records to its left would have smaller keys. -/
theorem height_eq_zero (hgood : Tree.Good R true H T) (hordered : Ordered (Tree.items H T))
    (hmax : R.maxKey = 0) : H = 0 := by
  cases H with
  | zero => rfl
  | succ h =>
      exfalso
      obtain ⟨n, rfl⟩ := T.exists_node
      have hnode : R.NodeGood true (n.rest.map Prod.fst) := hgood.1
      obtain ⟨s, hs⟩ := List.exists_mem_of_ne_nil _ hnode.nonempty
      have hempty : s = [] := List.eq_nil_of_length_eq_zero (by
        have := hnode.capped s hs
        omega)
      obtain ⟨key, hkey⟩ := exists_keyToken hgood.2.1
      have hsorted := hordered.sorted
      rw [Tree.items_node, tokens_append, List.pairwise_append] at hsorted
      have hsep : sepToken s ∈ tokens (n.rest.flatMap fun e => .sep e.1 :: Tree.items h e.2) := by
        obtain ⟨e, he, rfl⟩ := List.mem_map.mp hs
        refine List.mem_flatMap.mpr ⟨.sep e.1, List.mem_flatMap.mpr
          ⟨e, he, List.mem_cons_self ..⟩, ?_⟩
        simp
      have hlt := keyToken_lt_sepToken.mp (hsorted.2.2 _ hkey _ hsep)
      rw [hempty] at hlt
      exact absurd hlt (List.not_lt_nil key)

theorem leafStepsWork_of_small {P : ℕ} (hmin : minPageSize ≤ P) (hP : P ≤ 116) :
    LeafStepsWork P := by
  rintro config calls w rfl hreached
  obtain ⟨-, hset, L, C, M, -, H, T, hholding⟩ := hreached.plain hmin
  have hmax : (plainRegime config.pageSizeBytes).maxKey = 0 := by
    simp only [plainRegime, pageHeaderSize]
    omega
  have hH := height_eq_zero hholding.good hholding.inv.ordered hmax
  refine ⟨fun key value lsn w' hfits herror => ?_, fun key lsn w' herror => ?_⟩
  · have hlarge : 112 ≤ config.pageSizeBytes := by
      simp only [calculateLeafRecordSize, getMaxLeafRecordSize, lengthFieldSize, pageHeaderSize,
        slotEntrySize] at hfits
      omega
    obtain ⟨step, w₁, hrun⟩ := insertLeafStep_returns tightMode_not_escape
      (hholding.mono (Nat.le_add_right L lsn)) (tightMode_allows hset) hlarge (.inl hH)
      (Nat.le_add_left lsn L) hfits (key_le_of_accepted hfits)
    rw [hrun] at herror
    cases herror
  · obtain ⟨step, w₁, hrun⟩ : ∃ step w₁, BPlusTree.deleteLeafStep key lsn w = .ok step w₁ := by
      by_cases hlarge : 112 ≤ config.pageSizeBytes
      · exact deleteLeafStep_returns tightMode_not_escape (hholding.mono (Nat.le_add_right L lsn))
          (tightMode_allows hset) hlarge (.inl hH) (Nat.le_add_left lsn L) key
      · -- No record is ever accepted, so there is none to delete.
        obtain ⟨result, w₁, page, A, B, o, hfind, hderef, hl, hcapped, -⟩ :=
          leafStep_returns tightMode_not_escape (hholding.mono (Nat.le_add_right L lsn))
            (tightMode_allows hset) (Nat.le_add_left lsn L) key
        have hslots : page.slots = [] := by
          refine List.eq_nil_iff_forall_not_mem.mpr fun s hs => ?_
          have hle := (hcapped s hs).1
          simp only [leafSlotSize, Regime.slotCap, plainRegime, slotEntrySize, lengthFieldSize,
            pageHeaderSize] at hle
          omega
        refine ⟨none, w₁, ?_⟩
        rw [BPlusTree.deleteLeafStep, run_bind_ok hfind, run_bind_ok hderef]
        simp [BPlusTree.findSlot, hslots]
    rw [hrun] at herror
    cases herror

/-! ## Where a lone record is enough -/

/-- Records of six keys in two leaves, of which one in each is left. -/
def loneRecords (valueLength : ℕ) : List TreeCall :=
  ([1, 2, 3, 4, 5, 6].map fun b => .insert [b] (List.replicate valueLength 0) 1) ++
    [5, 6, 1, 2].map fun b => .delete [b] 1

/-- The value lengths for which a leaf with a single record is not underpopulated. -/
def loneValueLength (P : ℕ) : ℕ := if P ≤ 121 then 0 else if P ≤ 125 then 1 else 2

def pageConfig (P : ℕ) : Config := ⟨P, 8, 0, fun _ _ => false⟩

set_option maxRecDepth 100000 in
theorem lone_donor_raises : ∀ P ∈ [117, 118, 119, 120, 121, 122, 123, 124, 125, 127],
    raisedBy (openAndRun (loneRecords (loneValueLength P)) (newTree (pageConfig P) false)) = none ∧
      raisedBy ((do
        openAndRun (loneRecords (loneValueLength P))
        BPlusTree.deleteLeafStep [3] 1) (newTree (pageConfig P) false)) = some .indexError := by
  decide +kernel

theorem not_leafStepsWork {P : ℕ} (hP : P ∈ [117, 118, 119, 120, 121, 122, 123, 124, 125, 127]) :
    ¬ LeafStepsWork P := by
  intro hwork
  obtain ⟨hreturns, hraises⟩ := lone_donor_raises P hP
  obtain ⟨⟨⟩, w, hrun⟩ := raisedBy_eq_none hreturns
  obtain ⟨w', hraise⟩ := raisedBy_eq_some hraises
  rw [run_bind_ok hrun] at hraise
  exact (hwork (pageConfig P) _ w rfl (reached_of_run hrun)).2 [3] 1 w' hraise

/-! ## Every page size -/

/-- The page sizes that the constructor admits and on which leaf steps never raise
`IndexError`. -/
theorem leaf_steps_work_iff (P : ℕ) (hP : minPageSize ≤ P) :
    LeafStepsWork P ↔ P ≤ 116 ∨ P = 126 ∨ 128 ≤ P := by
  constructor
  · intro hwork
    by_contra hsize
    refine not_leafStepsWork ?_ hwork
    simp only [List.mem_cons, List.not_mem_nil, or_false]
    omega
  · rintro (hsmall | hthin)
    · exact leafStepsWork_of_small hP hsmall
    · refine leafStepsWork_of_thin ?_
      simp only [pageHeaderSize]
      omega

theorem leaf_steps_work_default : minPageSize ≤ 4096 ∧ (LeafStepsWork 4096 ↔
    4096 ≤ 116 ∨ 4096 = 126 ∨ 128 ≤ 4096) :=
  ⟨by decide, leaf_steps_work_iff 4096 (by decide)⟩

/-- On pages of `127` bytes, which the constructor admits, a leaf step raises
`IndexError`. -/
theorem lone_donor_raises_127 : ¬ ∀ P, minPageSize ≤ P → LeafStepsWork P :=
  fun h => not_leafStepsWork (by decide) (h 127 (by decide))

end BPTreeDB.Runs
