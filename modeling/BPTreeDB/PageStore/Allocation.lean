import BPTreeDB.Lib.Growth
import BPTreeDB.PageStore.Operations

/-!
# How many page ids an operation takes

A split allocates a sibling and perhaps a root, and a merge frees a page and perhaps the
root, each of which may start a new freelist page.  So every round of the rebalancing loop
takes at most two new ids, and an operation at most two for each level and four.
-/

namespace BPTreeDB.PageStore

open Lib Lib.Program Codec BPlusTree

variable {α : Type} {R : Regime} {L H : ℕ} {T : Tree H} {S S' : Store} {key value : Bytes}
  {lsn : ℕ}

/-- The program takes at most `k` new page ids. -/
abbrev Takes (k : ℕ) (x : StoreM α) : Prop := GrowsBy (fun S : Store => S.next) k x

/-! ## Steps that take none -/

theorem takes_raise (e : Err) : Takes 0 (raise e : StoreM α) := growsBy_throw _

theorem takes_codec (x : Except Err α) : Takes 0 (codec x) := by
  cases x with
  | ok a => exact growsBy_pure a
  | error e => exact takes_raise e

theorem takes_require (c : Prop) [Decidable c] : Takes 0 (require c) := by
  unfold require
  split
  · exact growsBy_pure _
  · exact growsBy_throw _

theorem takes_touch (pageId : ℕ) : Takes 0 (touch pageId) := by
  intro S
  unfold touch require
  rw [run_bind_ok (run_get S)]
  by_cases hmem : pageId ∈ S.touched
  · rw [if_pos hmem]
    exact le_rfl
  · rw [if_neg hmem]
    by_cases hbudget : 0 < S.budget
    · rw [if_pos hbudget]
      exact le_rfl
    · rw [if_neg hbudget]
      exact le_rfl

theorem takes_deref (pageId : ℕ) : Takes 0 (deref pageId) := by
  refine growsBy_get.step fun S => ?_
  split
  · exact growsBy_pure _
  · exact growsBy_throw _

theorem takes_derefInternal (pageId : ℕ) : Takes 0 (derefInternal pageId) := by
  refine (takes_deref pageId).step fun page => ?_
  cases page with
  | internal p => exact growsBy_pure p
  | leaf p => exact takes_raise _

theorem takes_derefLeaf (pageId : ℕ) : Takes 0 (derefLeaf pageId) := by
  refine (takes_deref pageId).step fun page => ?_
  cases page with
  | leaf p => exact growsBy_pure p
  | internal p => exact takes_raise _

theorem takes_getPage (pageId : ℕ) : Takes 0 (getPage pageId) :=
  growsBy_get.step fun _ => (takes_require _).step fun _ => takes_touch pageId

theorem takes_assign (pageId : ℕ) (page : Page) : Takes 0 (assign pageId page) :=
  growsBy_modify fun _ => le_rfl

theorem takes_drop (pageId : ℕ) : Takes 0 (drop pageId) := growsBy_modify fun _ => le_rfl

theorem takes_setRoot (pageId : ℕ) : Takes 0 (setRoot pageId) := growsBy_modify fun _ => le_rfl

theorem takes_insertPage (pageId : ℕ) (page : Page) (lsn : ℕ) :
    Takes 0 (insertPage pageId page lsn) :=
  growsBy_get.step fun _ => (takes_require _).step fun _ => (takes_touch pageId).step fun _ =>
    growsBy_modify fun _ => le_rfl

theorem takes_markDirty (pageId lsn : ℕ) : Takes 0 (markDirty pageId lsn) := by
  intro S
  cases hpage : S.pages pageId with
  | none =>
      have hderef : deref pageId S = .error .undisciplined S := by simp [deref, run_bind, hpage]
      rw [markDirty, run_bind_error hderef]
      exact le_rfl
  | some page =>
      have hderef : deref pageId S = .ok page S := by simp [deref, run_bind, hpage]
      rw [markDirty, run_bind_ok hderef, run_bind_ok (run_get S), require]
      by_cases hmem : pageId ∈ S.touched
      · rw [if_pos hmem]
        exact le_rfl
      · rw [if_neg hmem]
        exact le_rfl

/-! ## The allocator -/

theorem takes_bumpAllocateOnePage : Takes 1 bumpAllocateOnePage := fun _ => le_rfl

theorem takes_allocatePage : Takes 1 allocatePage := by
  intro S
  rw [allocatePage, run_bind_ok (run_get S)]
  cases S.chain with
  | nil => exact takes_bumpAllocateOnePage S
  | cons e rest =>
      dsimp only
      cases e.2.getLast? with
      | none => exact Nat.le_succ _
      | some pageId =>
          dsimp only [require]
          split
          · exact Nat.le_succ _
          · exact Nat.le_succ _

theorem takes_pushFreelistHead (pageId : ℕ) : Takes 1 (pushFreelistHead pageId) := by
  intro S
  have hbump : bumpAllocateOnePage S = .ok S.next { S with next := S.next + 1 } := rfl
  rw [pushFreelistHead, run_bind_ok hbump, run_bind_ok (run_get _)]
  unfold require
  split
  · exact le_rfl
  · exact le_rfl

theorem takes_freePage (pageId : ℕ) : Takes 1 (freePage pageId) := by
  intro S
  rw [freePage, run_bind_ok (run_get S)]
  cases S.chain with
  | nil => exact takes_pushFreelistHead pageId S
  | cons e rest =>
      dsimp only
      split
      · exact Nat.le_succ _
      · exact takes_pushFreelistHead pageId S

/-! ## Rebalancing -/

theorem takes_splitPage (pageId : ℕ) (parentPageId : Option ℕ) (lsn : ℕ) :
    Takes 2 (splitPage pageId parentPageId lsn) := by
  refine growsBy_get.step fun S => (takes_deref pageId).step fun content => ?_
  show Takes (1 + 1) _
  refine takes_allocatePage.bind fun sibling => ?_
  refine (takes_codec _).step fun parts => ?_
  obtain ⟨promotedKey, left, right⟩ := parts
  refine (takes_assign _ _).step fun _ => (takes_markDirty _ _).step fun _ => ?_
  refine (takes_insertPage _ _ _).step fun _ => ?_
  cases parentPageId with
  | none =>
      refine takes_allocatePage.last fun newRoot => ?_
      exact (takes_insertPage _ _ _).step fun _ => (takes_setRoot _).step fun _ => growsBy_pure _
  | some parent =>
      refine GrowsBy.mono ?_ (Nat.zero_le 1)
      exact (takes_getPage _).step fun _ => (takes_derefInternal _).step fun _ =>
        (takes_assign _ _).step fun _ => growsBy_pure _

theorem takes_fetchSibling (isLeft : Bool) (pageId : Option ℕ) :
    Takes 0 (fetchSibling isLeft pageId) := by
  cases pageId with
  | none => exact growsBy_pure _
  | some pageId => exact (takes_getPage _).step fun _ => growsBy_pure _

theorem takes_determineSameParentSiblings (parent : InternalPage) (parentSlotIdx : ℤ) :
    Takes 0 (determineSameParentSiblings parent parentSlotIdx) :=
  (takes_fetchSibling _ _).step fun _ => (takes_fetchSibling _ _).step fun _ => growsBy_pure _

theorem takes_tryRedistributeSlots (donor recipient parent parentSeparatorIdx : ℕ)
    (donorIsLeft : Bool) :
    Takes 0 (tryRedistributeSlots donor recipient parent parentSeparatorIdx donorIsLeft) := by
  refine growsBy_get.step fun S => (takes_derefInternal parent).step fun parentPage => ?_
  cases parentPage.slots[parentSeparatorIdx]? with
  | none => exact takes_raise _
  | some parentSlot =>
      refine (takes_deref donor).step fun donorPage => ?_
      refine (takes_deref recipient).step fun recipientPage => ?_
      dsimp only
      split
      · exact (takes_assign _ _).step fun _ => (takes_assign _ _).step fun _ =>
          (takes_assign _ _).step fun _ => growsBy_pure _
      · exact growsBy_pure _
      · exact (takes_assign _ _).step fun _ => (takes_assign _ _).step fun _ =>
          (takes_assign _ _).step fun _ => takes_raise _

theorem takes_redistributeWith (pageId parent : ℕ) (parentSlotIdx : ℤ) (siblings : List SiblingId) :
    Takes 0 (redistributeWith pageId parent parentSlotIdx siblings) := by
  induction siblings with
  | nil => exact growsBy_pure _
  | cons sibling rest ih =>
      refine (takes_tryRedistributeSlots _ _ _ _ _).step fun moved => ?_
      split
      · exact growsBy_pure _
      · exact ih

theorem takes_mergeWith (pageId parentPageId : ℕ) (parentSlotIdx : ℤ) (lsn : ℕ)
    (siblings : List SiblingId) :
    Takes 2 (mergeWith pageId parentPageId parentSlotIdx lsn siblings) := by
  induction siblings with
  | nil => exact (growsBy_pure _).mono (Nat.zero_le 2)
  | cons sibling rest ih =>
      rw [mergeWith]
      refine growsBy_get.step fun S => ?_
      dsimp only
      refine (takes_derefInternal _).step fun parentPage => (takes_deref _).step fun into => ?_
      refine (takes_deref _).step fun other => (takes_codec _).step fun probe => ?_
      split
      · exact ih
      · refine (takes_assign _ _).step fun _ => ?_
        split
        · exact (takes_raise _).mono (Nat.zero_le 2)
        · refine (takes_assign _ _).step fun _ => (takes_markDirty _ _).step fun _ => ?_
          refine (takes_markDirty _ _).step fun _ => (takes_drop _).step fun _ => ?_
          show Takes (1 + 1) _
          refine (takes_freePage _).bind fun _ => growsBy_get.step fun S' => ?_
          split
          · refine (takes_setRoot _).step fun _ => (takes_drop _).step fun _ => ?_
            exact (takes_freePage _).last fun _ => growsBy_pure _
          · exact (growsBy_pure _).mono (Nat.zero_le 1)

theorem takes_redistributeOrMergePage (pageId : ℕ) (pathItem : Option PathItem) (lsn : ℕ) :
    Takes 2 (redistributeOrMergePage pageId pathItem lsn) := by
  unfold redistributeOrMergePage
  cases pathItem with
  | none => exact (growsBy_pure _).mono (Nat.zero_le 2)
  | some item =>
      refine (takes_require _).step fun _ => (takes_getPage _).step fun _ => ?_
      refine (takes_derefInternal _).step fun parentPage => (takes_require _).step fun _ => ?_
      refine (takes_determineSameParentSiblings _ _).step fun siblings => ?_
      refine (takes_redistributeWith _ _ _ _).step fun moved => ?_
      cases moved with
      | some sibling =>
          refine GrowsBy.mono ?_ (Nat.zero_le 2)
          refine (takes_markDirty _ _).step fun _ => (takes_markDirty _ _).step fun _ => ?_
          refine growsBy_get.step fun S => (takes_deref _).step fun parentContent => ?_
          split
          · exact growsBy_pure _
          · exact (takes_markDirty _ _).step fun _ => growsBy_pure _
      | none =>
          refine (takes_mergeWith _ _ _ _ _).last fun merged => ?_
          cases merged with
          | some modifiedParent => exact growsBy_pure _
          | none => exact takes_raise _

/-- Every round takes at most two ids. -/
theorem takes_balanceLoop (lsn fuel : ℕ) :
    ∀ (pageId : ℕ) (path : List PathItem), Takes (2 * fuel) (balanceLoop lsn fuel pageId path) := by
  induction fuel with
  | zero => exact fun _ _ => takes_raise _
  | succ fuel ih =>
      intro pageId path
      have hround : 2 * (fuel + 1) = 2 + 2 * fuel := by ring
      rw [balanceLoop, hround]
      refine growsBy_get.step fun S => (takes_deref _).step fun content => ?_
      split
      · exact (takes_splitPage _ _ _).bind fun parent => ih _ _
      · split
        · refine (takes_redistributeOrMergePage _ _ _).bind fun next => ?_
          cases next with
          | some parent => exact ih _ _
          | none => exact (growsBy_pure _).mono (Nat.zero_le _)
        · exact (takes_markDirty _ _).mono (Nat.zero_le _)

/-! ## Operations -/

theorem takes_balanceAndWriteTree (pageId : ℕ) (path : List PathItem) (lsn : ℕ) :
    Takes (2 * (path.length + 2)) (balanceAndWriteTree pageId path lsn) :=
  takes_balanceLoop _ _ _ _

/-- A descent goes through every level and takes no id. -/
theorem Resting.findLeaf_path (hr : Resting R L T S) (hn : H + 1 ≤ S.budget) (key : Bytes) :
    ∃ leafPageId path S₁, findLeaf key S = .ok (leafPageId, path) S₁ ∧ path.length = H ∧
      S₁.next = S.next := by
  obtain ⟨S₁, c, l, -, hfind, hcontent, -⟩ := findLeaf_spec (n := 0) hr key (by omega)
  refine ⟨l.id, c.path.reverse, S₁, hfind, ?_, congrArg Content.next hcontent⟩
  rw [List.length_reverse]
  exact c.length_path

theorem Resting.insert_next_le (hr : Resting R L T S) (hn : H + 1 ≤ S.budget)
    (hrun : insert key value lsn S = .ok () S') : S'.next ≤ S.next + 2 * (H + 2) := by
  obtain ⟨leafPageId, path, S₁, hfind, hlength, hnext⟩ := hr.findLeaf_path hn key
  obtain ⟨⟨⟩, S₀, hcheck, hrun⟩ := bind_eq_ok.mp hrun
  have hsame : S₀ = S := by
    unfold raiseIfRecordTooLarge at hcheck
    rw [run_bind_ok (run_get S)] at hcheck
    split at hcheck
    · cases hcheck
    · cases hcheck
      rfl
  rw [hsame, run_bind_ok hfind] at hrun
  have hrest : Takes (2 * (path.length + 2)) (do
      let page ← derefLeaf leafPageId
      assign leafPageId (.leaf { page with slots := upsertSlot page.slots key value })
      balanceAndWriteTree leafPageId path lsn) :=
    (takes_derefLeaf _).step fun _ => (takes_assign _ _).step fun _ =>
      takes_balanceAndWriteTree _ _ _
  calc S'.next ≤ S₁.next + 2 * (path.length + 2) := hrest.ok hrun
    _ = S.next + 2 * (H + 2) := by rw [hnext, hlength]

theorem Resting.delete_next_le (hr : Resting R L T S) (hn : H + 1 ≤ S.budget) {wasDeleted : Bool}
    (hrun : delete key lsn S = .ok wasDeleted S') : S'.next ≤ S.next + 2 * (H + 2) := by
  obtain ⟨leafPageId, path, S₁, hfind, hlength, hnext⟩ := hr.findLeaf_path hn key
  rw [PageStore.delete, run_bind_ok hfind] at hrun
  obtain ⟨page, S₂, hderef, hrun⟩ := bind_eq_ok.mp hrun
  have hleaf : S₂.next ≤ S₁.next := (takes_derefLeaf _).ok hderef
  have hrest : S'.next ≤ S₂.next + 2 * (path.length + 2) := by
    cases hslot : findSlot page key with
    | none =>
        simp only [hslot] at hrun
        cases hrun
        exact Nat.le_add_right _ _
    | some slot =>
        simp only [hslot] at hrun
        have htakes : Takes (2 * (path.length + 2)) (do
            assign leafPageId (.leaf { page with
              slots := page.slots.eraseIdx (bisectLeft (page.slots.map (·.key)) key) })
            balanceAndWriteTree leafPageId path lsn
            return true : StoreM Bool) :=
          (takes_assign _ _).step fun _ => (takes_balanceAndWriteTree _ _ _).last fun _ =>
            growsBy_pure true
        exact htakes.ok hrun
  calc S'.next ≤ S₂.next + 2 * (path.length + 2) := hrest
    _ ≤ S₁.next + 2 * (path.length + 2) := Nat.add_le_add_right hleaf _
    _ = S.next + 2 * (H + 2) := by rw [hnext, hlength]

end BPTreeDB.PageStore
