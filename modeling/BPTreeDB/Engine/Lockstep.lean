import BPTreeDB.Engine.Allocator

/-!
# The tree of the engine runs in lockstep with the page store

Function by function, `tree.py` over page objects and the buffer pool runs in lockstep
with the same algorithm over the page store.  The list of live page objects shrinks as
soon as the source no longer uses them.
-/

namespace BPTreeDB.Engine

open Lib Eng Codec BPlusTree Lib.Program

variable {mode : Mode} {live : List (ℕ × Ref)} {w : World} {S : PageStore.Store}

/-! ## Descending -/

theorem lockstep_findLeafLoop (key : Bytes) (fuel : ℕ) :
    ∀ (pageId : ℕ) (page : Ref) (path : List PathItem) (w : World) (S : PageStore.Store),
      Sim mode [(pageId, page)] w S →
      Lockstep mode (fun a b w' S' => a.leafPageId = b.1 ∧ a.path = b.2 ∧
        Sim mode [(a.leafPageId, a.leafPage)] w' S') (findLeafLoop key fuel pageId page path w)
        (PageStore.findLeafLoop key fuel pageId path S) := by
  induction fuel with
  | zero => exact fun _ _ _ _ _ hs => hs.raise .diverges
  | succ fuel ih =>
      intro pageId page path w S hs
      refine (hs.deref (List.mem_singleton_self _)).bind ?_
      rintro content _ w S ⟨rfl, -, hs⟩
      cases content with
      | leaf p => exact ⟨rfl, rfl, hs⟩
      | internal p =>
          dsimp only
          cases hchild : childAt p (childSlotIndex p key) with
          | none => exact hs.raise .indexError
          | some child =>
              dsimp only
              refine (hs.forgetAll.get (by simp)).bind ?_
              intro ref _ w S hs
              exact ih child ref _ w S hs

theorem lockstep_findLeaf (key : Bytes) (hs : Sim mode [] w S) :
    Lockstep mode (fun a b w' S' => a.leafPageId = b.1 ∧ a.path = b.2 ∧
      Sim mode [(a.leafPageId, a.leafPage)] w' S') (findLeaf key w) (PageStore.findLeaf key S) := by
  refine hs.getMeta_get.bind ?_
  rintro m S₀ w S ⟨-, hroot, hnext, hs⟩
  rw [hroot, hnext]
  refine (hs.get (by simp)).bind ?_
  intro ref _ w S hs
  exact lockstep_findLeafLoop key _ _ _ _ w S hs

/-! ## Splitting -/

theorem lockstep_splitPage {pageId : ℕ} {page : Ref} (parentPageId : Option ℕ) (lsn : ℕ)
    (hs : Sim mode [(pageId, page)] w S) :
    Lockstep mode (fun a b w' S' => a.1 = b ∧ Sim mode [a] w' S')
      (splitPage pageId parentPageId page lsn w)
        (PageStore.splitPage pageId parentPageId lsn S) := by
  refine hs.getMeta_get.bind ?_
  rintro m S₀ w S ⟨hsize, -, -, hs⟩
  rw [hsize]
  refine (hs.deref (List.mem_singleton_self _)).bind ?_
  rintro content _ w S ⟨rfl, -, hs⟩
  refine hs.allocatePage.bind ?_
  rintro new _ w S ⟨rfl, hs⟩
  refine (hs.codec _).bind ?_
  rintro ⟨promoted, left, right⟩ _ w S ⟨rfl, -, hs⟩
  refine (hs.assign (List.mem_singleton_self _) left).bind ?_
  intro _ _ w S hs
  refine (hs.markDirty pageId lsn).bind ?_
  intro _ _ w S hs
  refine (hs.insert right lsn).bind ?_
  intro _ _ w S hs
  have hs := hs.forgetAll
  cases parentPageId with
  | none =>
      refine hs.allocatePage.bind ?_
      rintro root _ w S ⟨rfl, hs⟩
      refine (hs.insert _ lsn).bind ?_
      intro ref _ w S hs
      refine (hs.setRoot root).bind ?_
      intro _ _ w S hs
      exact ⟨rfl, hs⟩
  | some parentPageId =>
      refine (hs.get (by simp)).bind ?_
      intro ref _ w S hs
      refine (hs.derefInternal (List.mem_singleton_self _)).bind ?_
      rintro parent _ w S ⟨rfl, hs⟩
      refine (hs.assign (List.mem_singleton_self _) _).bind ?_
      intro _ _ w S hs
      exact ⟨rfl, hs⟩

/-! ## Redistribution -/

/-- A sibling without its page object. -/
def siblingId (s : Sibling) : PageStore.SiblingId := ⟨s.isLeft, s.pageId⟩

/-- The page objects of some siblings. -/
def siblingHandles (siblings : List Sibling) : List (ℕ × Ref) :=
  siblings.map fun s => (s.pageId, s.page)

theorem separatorIdx_siblingId (s : Sibling) (idx : ℤ) :
    PageStore.separatorIdx (siblingId s) idx = separatorIdx s idx := rfl

theorem lockstep_fetchSibling (isLeft : Bool) (pageId : Option ℕ) (hs : Sim mode live w S)
    (hid : ∀ x ∈ pageId, x ∉ live.map Prod.fst) :
    Lockstep mode (fun a b w' S' => a.map siblingId = b ∧ a.map (·.pageId) = pageId.toList ∧
      Sim mode (siblingHandles a ++ live) w' S')
      (fetchSibling isLeft pageId w) (PageStore.fetchSibling isLeft pageId S) := by
  cases pageId with
  | none => exact ⟨rfl, rfl, hs⟩
  | some pageId =>
      refine (hs.get (hid pageId rfl)).bind ?_
      intro ref _ w S hs
      exact ⟨rfl, rfl, hs⟩

theorem lockstep_determineSameParentSiblings (parent : InternalPage) (idx : ℤ)
    (hs : Sim mode live w S)
    (hid : (live.map Prod.fst ++ PageStore.siblingIds parent idx).Nodup) :
    Lockstep mode (fun a b w' S' => a.map siblingId = b ∧
      a.map (·.pageId) = PageStore.siblingIds parent idx ∧
      Sim mode (siblingHandles a ++ live) w' S') (determineSameParentSiblings parent idx w)
      (PageStore.determineSameParentSiblings parent idx S) := by
  obtain ⟨-, hnodup, hdisjoint⟩ := List.nodup_append.mp hid
  refine (lockstep_fetchSibling true _ hs fun x hx hmem =>
    hdisjoint x hmem x (List.mem_append_left _ (by simpa using hx)) rfl).bind ?_
  rintro left _ w S ⟨rfl, hleft, hs⟩
  refine (lockstep_fetchSibling false _ hs fun x hx hmem => ?_).bind ?_
  · rw [List.map_append, List.mem_append] at hmem
    rcases hmem with hmem | hmem
    · have hx' : x ∈ left.map (·.pageId) := by simpa [siblingHandles] using hmem
      rw [hleft] at hx'
      exact (List.nodup_append.mp hnodup).2.2 x hx' x (by simpa using hx) rfl
    · exact hdisjoint x hmem x (List.mem_append_right _ (by simpa using hx)) rfl
  · rintro right _ w S ⟨rfl, hright, hs⟩
    refine ⟨by simp, by simp [PageStore.siblingIds, hleft, hright], hs.forget fun e he => ?_⟩
    simp only [siblingHandles, List.map_append, List.mem_append] at he ⊢
    tauto

theorem lockstep_tryRedistributeSlots {donorId recipientId parentId : ℕ}
    {donor recipient parent : Ref}
    (idx : ℕ) (isLeft : Bool) (hs : Sim mode live w S) (hdonor : (donorId, donor) ∈ live)
    (hrecipient : (recipientId, recipient) ∈ live) (hparent : (parentId, parent) ∈ live) :
    Lockstep mode (fun a b w' S' => a = b ∧ Sim mode live w' S')
      (tryRedistributeSlots donor recipient parent idx isLeft w)
      (PageStore.tryRedistributeSlots donorId recipientId parentId idx isLeft S) := by
  refine hs.getMeta_get.bind ?_
  rintro m S₀ w S ⟨hsize, -, -, hs⟩
  refine (hs.derefInternal hparent).bind ?_
  rintro parentPage _ w S ⟨rfl, hs⟩
  cases parentPage.slots[idx]? with
  | none => exact hs.raise .indexError
  | some slot =>
      dsimp only
      refine (hs.deref hdonor).bind ?_
      rintro donorPage _ w S ⟨rfl, -, hs⟩
      refine (hs.deref hrecipient).bind ?_
      rintro recipientPage _ w S ⟨rfl, -, hs⟩
      rw [hsize]
      -- Both levels run the same rotation on the same contents; only its result matters from here
      -- on.
      generalize rotateSlots S₀.pageSize isLeft (slotCount donorPage + 2)
        ⟨donorPage, recipientPage, slot.key⟩ = result
      obtain ⟨r, outcome⟩ := result
      have hstore : Lockstep mode (fun _ _ w' S' => Sim mode live w' S')
          ((do
            assign donor r.donor
            assign recipient r.recipient
            assign parent (.internal (setSeparator parentPage idx r.separator)) : Eng Unit) w)
          ((do
            PageStore.assign donorId r.donor
            PageStore.assign recipientId r.recipient
            PageStore.assign parentId (.internal (setSeparator parentPage idx r.separator)) :
              PageStore.StoreM Unit) S) := by
        refine (hs.assign hdonor _).bind ?_
        intro _ _ w S hs
        refine (hs.assign hrecipient _).bind ?_
        intro _ _ w S hs
        exact hs.assign hparent _
      cases outcome with
      | succeeded =>
          refine hstore.bind ?_
          intro _ _ w S hs
          exact ⟨rfl, hs⟩
      -- The backups are put back, so neither level stores anything.
      | donorExhausted => exact ⟨rfl, hs⟩
      | raised e =>
          refine hstore.bind ?_
          intro _ _ w S hs
          exact hs.raise e

theorem lockstep_redistributeWith {pageId parentId : ℕ} {page parent : Ref} (idx : ℤ)
    (hpage : (pageId, page) ∈ live) (hparent : (parentId, parent) ∈ live)
    (siblings : List Sibling) :
    ∀ (w : World) (S : PageStore.Store), Sim mode live w S →
      (∀ s ∈ siblings, (s.pageId, s.page) ∈ live) →
      Lockstep mode (fun a b w' S' => a.map siblingId = b ∧ Sim mode live w' S')
        (redistributeWith page parent idx siblings w)
        (PageStore.redistributeWith pageId parentId idx (siblings.map siblingId) S) := by
  induction siblings with
  | nil => exact fun _ _ hs _ => ⟨rfl, hs⟩
  | cons sibling rest ih =>
      intro w S hs hlive
      refine (lockstep_tryRedistributeSlots _ _ hs (hlive sibling (List.mem_cons_self ..)) hpage
        hparent).bind ?_
      rintro rescued _ w S ⟨rfl, hs⟩
      cases rescued with
      | true => exact ⟨rfl, hs⟩
      | false => exact ih w S hs fun s hs => hlive s (List.mem_cons_of_mem _ hs)

/-! ## Merging -/

/-- The page object that a round hands to the next one. -/
def nextHandle : Option (ℕ × Ref) → List (ℕ × Ref)
  | some handle => [handle]
  | none => []

theorem mergeIds_siblingId (pageId : ℕ) (page : Ref) (s : Sibling) :
    PageStore.mergeIds pageId (siblingId s) =
      ((mergePages pageId page s).intoId, (mergePages pageId page s).fromId) := by
  unfold PageStore.mergeIds mergePages siblingId
  dsimp only
  split <;> rfl

theorem mergePages_mem {pageId : ℕ} {page : Ref} {s : Sibling} (hpage : (pageId, page) ∈ live)
    (hs : (s.pageId, s.page) ∈ live) :
    ((mergePages pageId page s).intoId, (mergePages pageId page s).into) ∈ live ∧
      ((mergePages pageId page s).fromId, (mergePages pageId page s).from_) ∈ live := by
  unfold mergePages
  split
  · exact ⟨hs, hpage⟩
  · exact ⟨hpage, hs⟩

theorem lockstep_mergeWith {pageId parentId : ℕ} {page parent : Ref} (idx : ℤ) (lsn : ℕ)
    (hpage : (pageId, page) ∈ live) (hparent : (parentId, parent) ∈ live) (hne : parentId ≠ pageId)
    (siblings : List Sibling) :
    ∀ (w : World) (S : PageStore.Store), Sim mode live w S →
      (∀ s ∈ siblings, (s.pageId, s.page) ∈ live ∧ parentId ≠ s.pageId) →
      Lockstep mode (fun a b w' S' => a.map (Option.map Prod.fst) = b ∧
        Sim mode (nextHandle (a.getD none)) w' S')
        (mergeWith pageId page parentId parent idx lsn siblings w)
        (PageStore.mergeWith pageId parentId idx lsn (siblings.map siblingId) S) := by
  induction siblings with
  | nil => exact fun _ _ hs _ => ⟨rfl, hs.forgetAll⟩
  | cons sibling rest ih =>
      intro w S hs hlive
      obtain ⟨hsibling, hneSibling⟩ := hlive sibling (List.mem_cons_self ..)
      obtain ⟨hinto, hfrom⟩ := mergePages_mem hpage hsibling
      -- The parent stays: it is not the page that the merge frees.
      have hneFrom : parentId ≠ (mergePages pageId page sibling).fromId := by
        unfold mergePages
        split
        · exact hne
        · exact hneSibling
      refine hs.getMeta_get.bind ?_
      rintro m S₀ w S ⟨hsize, -, -, hs⟩
      rw [mergeIds_siblingId pageId page sibling, hsize]
      refine (hs.derefInternal hparent).bind ?_
      rintro parentPage _ w S ⟨rfl, hs⟩
      refine (hs.deref hinto).bind ?_
      rintro into _ w S ⟨rfl, -, hs⟩
      refine (hs.deref hfrom).bind ?_
      rintro from_ _ w S ⟨rfl, -, hs⟩
      rw [separatorIdx_siblingId]
      refine (hs.codec _).bind ?_
      rintro probe _ w S ⟨rfl, -, hs⟩
      by_cases hover : S₀.pageSize < calculatePageSize probe
      · rw [if_pos hover, if_pos hover]
        exact ih w S hs fun s hs => hlive s (List.mem_cons_of_mem _ hs)
      · rw [if_neg hover, if_neg hover]
        refine (hs.assign hinto _).bind ?_
        intro _ _ w S hs
        by_cases hidx : parentPage.slots.length ≤ separatorIdx sibling idx
        · rw [if_pos hidx, if_pos hidx]
          exact hs.raise .indexError
        · rw [if_neg hidx, if_neg hidx]
          refine (hs.assign hparent _).bind ?_
          intro _ _ w S hs
          refine (hs.markDirty _ lsn).bind ?_
          intro _ _ w S hs
          refine (hs.markDirty _ lsn).bind ?_
          intro _ _ w S hs
          refine (hs.drop _).bind ?_
          intro _ _ w S hs
          refine (hs.freePage _).bind ?_
          intro _ _ w S hs
          refine hs.getMeta_get.bind ?_
          rintro m S₁ w S ⟨-, hroot, -, hs⟩
          rw [hroot]
          -- Both programs compare the parent with the same root.
          by_cases hcollapse : parentPage.slots.eraseIdx (separatorIdx sibling idx) = [] ∧
              parentId = S₁.root
          · rw [if_pos hcollapse, if_pos hcollapse]
            refine (hs.setRoot _).bind ?_
            intro _ _ w S hs
            refine (hs.drop _).bind ?_
            intro _ _ w S hs
            refine (hs.freePage _).bind ?_
            intro _ _ w S hs
            exact ⟨rfl, hs.forgetAll⟩
          · rw [if_neg hcollapse, if_neg hcollapse]
            refine ⟨rfl, hs.forget fun e he => ?_⟩
            rw [List.mem_singleton.mp he]
            exact List.mem_filter.mpr ⟨hparent, by simpa using hneFrom⟩

/-! ## One round and the cascade -/

theorem lockstep_redistributeOrMergePage {pageId : ℕ} {page : Ref} (item : Option PathItem)
    (lsn : ℕ) (hs : Sim mode [(pageId, page)] w S) :
    Lockstep mode (fun a b w' S' => a.map Prod.fst = b ∧ Sim mode (nextHandle a) w' S')
      (redistributeOrMergePage pageId item page lsn w)
      (PageStore.redistributeOrMergePage pageId item lsn S) := by
  cases item with
  | none => exact ⟨rfl, hs.forgetAll⟩
  | some item =>
      obtain ⟨parentId, idx⟩ := item
      refine Lockstep.require fun hne => ?_
      refine (hs.get (by simpa using hne)).bind ?_
      intro parent _ w S hs
      refine (hs.derefInternal (List.mem_cons_self ..)).bind ?_
      rintro parentPage _ w S ⟨rfl, hs⟩
      -- The page, its parent and its siblings are different pages; else one handle would stand for
      -- two.
      refine Lockstep.require fun hnodup => ?_
      have hperm : (pageId :: parentId :: PageStore.siblingIds parentPage idx).Perm
          ([parentId, pageId] ++ PageStore.siblingIds parentPage idx) := .swap _ _ _
      refine (lockstep_determineSameParentSiblings parentPage idx hs
        (hperm.nodup_iff.mp hnodup)).bind ?_
      rintro siblings _ w S ⟨rfl, hids, hs⟩
      have hlive : ∀ s ∈ siblings, (s.pageId, s.page) ∈
          siblingHandles siblings ++ [(parentId, parent), (pageId, page)] := fun s hs =>
        List.mem_append_left _ (List.mem_map_of_mem (f := fun s : Sibling => (s.pageId, s.page)) hs)
      have hneSibling : ∀ s ∈ siblings, parentId ≠ s.pageId := by
        intro s hs heq
        have hmem : s.pageId ∈ PageStore.siblingIds parentPage idx := by
          rw [← hids]
          exact List.mem_map_of_mem hs
        have := (List.nodup_cons.mp (List.nodup_cons.mp hnodup).2).1
        exact this (heq ▸ hmem)
      refine (lockstep_redistributeWith idx (by simp) (by simp) siblings w S hs hlive).bind ?_
      rintro rescuer _ w S ⟨rfl, hs⟩
      cases rescuer with
      | some sibling =>
          refine (hs.markDirty _ lsn).bind ?_
          intro _ _ w S hs
          refine (hs.markDirty _ lsn).bind ?_
          intro _ _ w S hs
          refine hs.getMeta_get.bind ?_
          rintro m S₀ w S ⟨hsize, -, -, hs⟩
          rw [hsize]
          refine (hs.deref (List.mem_append_right _ (List.mem_cons_self ..))).bind ?_
          rintro content _ w S ⟨rfl, -, hs⟩
          -- The assertion behind a rescue, the same at both levels.
          by_cases hlimits : (isPageOverpopulated S₀.pageSize content ||
              isPageUnderpopulated S₀.pageSize content) = true
          · rw [if_pos hlimits, if_pos hlimits]
            exact ⟨rfl, hs.forget fun e he => by rw [List.mem_singleton.mp he]; simp⟩
          · rw [if_neg hlimits, if_neg hlimits]
            refine (hs.markDirty _ lsn).bind ?_
            intro _ _ w S hs
            exact ⟨rfl, hs.forgetAll⟩
      | none =>
          refine (lockstep_mergeWith idx lsn (by simp) (by simp) hne siblings w S hs
            fun s hs => ⟨hlive s hs, hneSibling s hs⟩).bind ?_
          rintro merged _ w S ⟨rfl, hs⟩
          cases merged with
          | none => exact hs.raise _
          | some modified => exact ⟨rfl, hs⟩

theorem lockstep_balanceLoop (lsn fuel : ℕ) :
    ∀ (pageId : ℕ) (page : Ref) (path : List PathItem) (w : World) (S : PageStore.Store),
      Sim mode [(pageId, page)] w S →
      Lockstep mode (fun _ _ w' S' => Sim mode [] w' S') (balanceLoop lsn fuel pageId page path w)
        (PageStore.balanceLoop lsn fuel pageId path S) := by
  induction fuel with
  | zero => exact fun _ _ _ _ _ hs => hs.raise .diverges
  | succ fuel ih =>
      intro pageId page path w S hs
      refine hs.getMeta_get.bind ?_
      rintro m S₀ w S ⟨hsize, hroot, -, hs⟩
      rw [hsize, hroot]
      refine (hs.deref (List.mem_singleton_self _)).bind ?_
      rintro content _ w S ⟨rfl, -, hs⟩
      by_cases hover : isPageOverpopulated S₀.pageSize content = true
      · rw [if_pos hover, if_pos hover]
        refine (lockstep_splitPage _ lsn hs).bind ?_
        rintro ⟨parentId, parent⟩ _ w S ⟨rfl, hs⟩
        exact ih parentId parent _ w S hs
      · rw [if_neg hover, if_neg hover]
        by_cases hunder : isPageUnderpopulated S₀.pageSize content = true ∧ pageId ≠ S₀.root
        · rw [if_pos hunder, if_pos hunder]
          refine (lockstep_redistributeOrMergePage path.head? lsn hs).bind ?_
          rintro next _ w S ⟨rfl, hs⟩
          cases next with
          | none => exact hs
          | some handle => exact ih handle.1 handle.2 _ w S hs
        · rw [if_neg hunder, if_neg hunder]
          refine (hs.markDirty _ lsn).mono ?_
          exact fun _ _ _ _ hs => hs.forgetAll

/-! ## Public operations -/

theorem lockstep_raiseIfRecordTooLarge (key value : Bytes) (hs : Sim mode live w S) :
    Lockstep mode (fun _ _ w' S' => Sim mode live w' S') (raiseIfRecordTooLarge key value w)
      (PageStore.raiseIfRecordTooLarge key value S) := by
  refine hs.getMeta_get.bind ?_
  rintro m S₀ w S ⟨hsize, -, -, hs⟩
  rw [hsize]
  by_cases hlarge : getMaxLeafRecordSize S₀.pageSize < calculateLeafRecordSize key value
  · simp only [if_pos hlarge]
    exact hs.raise _
  · simp only [if_neg hlarge]
    exact hs

/-- `BPlusTree.search`. -/
theorem lockstep_search (key : Bytes) (hs : Sim mode [] w S) :
    Lockstep mode (fun a b w' S' => a = b ∧ Sim mode [] w' S') (BPlusTree.search key w)
      (PageStore.search key S) := by
  refine (lockstep_findLeaf key hs).bind ?_
  rintro result ⟨leafId, path⟩ w S ⟨rfl, -, hs⟩
  refine (hs.derefLeaf (List.mem_singleton_self _)).bind ?_
  rintro page _ w S ⟨rfl, hs⟩
  exact ⟨rfl, hs.forgetAll⟩

/-- `BPlusTree.insert`. -/
theorem lockstep_insert (key value : Bytes) (lsn : ℕ) (hs : Sim mode [] w S) :
    Lockstep mode (fun _ _ w' S' => Sim mode [] w' S') (BPlusTree.insert key value lsn w)
      (PageStore.insert key value lsn S) := by
  refine (lockstep_raiseIfRecordTooLarge key value hs).bind ?_
  intro _ _ w S hs
  refine (lockstep_findLeaf key hs).bind ?_
  rintro result ⟨leafId, path⟩ w S ⟨rfl, rfl, hs⟩
  refine (hs.derefLeaf (List.mem_singleton_self _)).bind ?_
  rintro page _ w S ⟨rfl, hs⟩
  refine (hs.assign (List.mem_singleton_self _) _).bind ?_
  intro _ _ w S hs
  exact lockstep_balanceLoop lsn _ _ _ _ w S hs

/-- `BPlusTree.delete`. -/
theorem lockstep_delete (key : Bytes) (lsn : ℕ) (hs : Sim mode [] w S) :
    Lockstep mode (fun a b w' S' => a = b ∧ Sim mode [] w' S') (BPlusTree.delete key lsn w)
      (PageStore.delete key lsn S) := by
  refine (lockstep_findLeaf key hs).bind ?_
  rintro result ⟨leafId, path⟩ w S ⟨rfl, rfl, hs⟩
  refine (hs.derefLeaf (List.mem_singleton_self _)).bind ?_
  rintro page _ w S ⟨rfl, hs⟩
  cases hfind : findSlot page key with
  | none =>
      dsimp only
      exact ⟨rfl, hs.forgetAll⟩
  | some slot =>
      dsimp only
      refine (hs.assign (List.mem_singleton_self _) _).bind ?_
      intro _ _ w S hs
      refine (lockstep_balanceLoop lsn _ _ _ _ w S hs).bind ?_
      intro _ _ w S hs
      exact ⟨rfl, hs⟩

/-! ## Scanning -/

/-- Without room to keep, what was touched does not matter. -/
theorem Sim.of_loose (hloose : ¬ mode.strict) {S' : PageStore.Store} (hs : Sim mode live w S)
    (hcontent : S'.toContent = S.toContent) (hpending : S'.pending = S.pending) :
    Sim mode live w S' := by
  have hpages : S'.pages = S.pages := congrArg PageStore.Content.pages hcontent
  have hsize : S'.pageSize = S.pageSize := congrArg PageStore.Content.pageSize hcontent
  have hroot : S'.root = S.root := congrArg PageStore.Content.root hcontent
  have hnext : S'.next = S.next := congrArg PageStore.Content.next hcontent
  have hchain : S'.chain = S.chain := congrArg PageStore.Content.chain hcontent
  refine ⟨hs.isOpen, hs.data, ?_, ?_, ?_, fun h => absurd h hloose, hs.power⟩
  · rw [hsize]
    exact hs.pageSize
  · rw [hsize, hroot, hnext, hchain]
    exact hs.metaPage
  · rw [hsize, hpages, hpending]
    exact hs.pool

theorem Sim.derefLeaf_cases {pageId : ℕ} {ref : Ref} (hs : Sim mode live w S)
    (hmem : (pageId, ref) ∈ live) :
    (∃ leaf, BPlusTree.derefLeaf ref w = .ok leaf w ∧ PageStore.derefLeaf pageId S = .ok leaf S) ∨
      ∃ e, BPlusTree.derefLeaf ref w = .error e w ∧
        PageStore.derefLeaf pageId S = .error (.raised e) S := by
  obtain ⟨page, hpage, hobject⟩ := hs.pool.object (pageId, ref) (by simp [handles, hmem])
  cases page with
  | leaf leaf =>
      refine .inl ⟨leaf, ?_, ?_⟩
      · simp [BPlusTree.derefLeaf, Eng.deref, run_bind, hobject]
      · simp [PageStore.derefLeaf, PageStore.deref, run_bind, hpage]
  | internal q =>
      refine .inr ⟨.assertionError "isinstance(page, LeafPage)", ?_, ?_⟩
      · simp [BPlusTree.derefLeaf, Eng.deref, run_bind, hobject]
      · simp [PageStore.derefLeaf, PageStore.deref, PageStore.raise, run_bind, hpage]

theorem lockstep_scanLoop (hloose : ¬ mode.strict) (stop : Option Bytes) (fuel : ℕ) :
    ∀ (page : LeafPage) (idx : ℕ) (w : World) (S : PageStore.Store), Sim mode [] w S →
      S.pending = [] →
      Lockstep mode (fun a b w' S' => a = b ∧ Sim mode [] w' S')
        (scanLoop stop fuel page idx w) (PageStore.scanLoop stop fuel page idx S) := by
  induction fuel with
  | zero => exact fun _ _ _ _ hs _ => hs.raise .diverges
  | succ fuel ih =>
      intro page idx w S hs hpending
      rw [scanLoop, PageStore.scanLoop]
      generalize scanSlots stop (page.slots.drop idx) = result
      obtain ⟨pairs, more⟩ := result
      dsimp only
      by_cases hmore : more = true ∧ 0 < page.rightSiblingPageId
      · rw [if_pos hmore, if_pos hmore]
        cases hpage : S.pages page.rightSiblingPageId with
        | none =>
            have : PageStore.derefLeaf page.rightSiblingPageId S = .error .undisciplined S := by
              simp [PageStore.derefLeaf, PageStore.deref, run_bind, hpage]
            rw [run_bind_error this]
            exact .of_undefined rfl
        | some next =>
            -- The page is fetched as if the scan had one page to spend.
            have hs1 : Sim mode [] w { S with touched := [], budget := 1 } :=
              hs.of_loose hloose rfl rfl
            rcases hs1.fetch (by simp) hpage (by simp [hpending])
              (.inr ⟨by simp, by simp, rfl, rfl⟩) with ⟨ref, w', hget, hs2⟩ | ⟨-, hget⟩
            · have hs3 : Sim mode [(page.rightSiblingPageId, ref)] w' S :=
                hs2.of_loose hloose rfl rfl
              rw [run_bind_ok hget]
              rcases hs3.derefLeaf_cases (List.mem_singleton_self _) with
                ⟨leaf, hengine, hstore⟩ | ⟨e, hengine, hstore⟩
              · rw [run_bind_ok hengine, run_bind_ok hstore]
                refine (ih leaf 0 w' S hs3.forgetAll hpending).bind ?_
                rintro rest _ w S ⟨rfl, hs⟩
                exact ⟨rfl, hs⟩
              · rw [run_bind_error hengine, run_bind_error hstore]
                exact hs3.raise e
            · rw [run_bind_error hget]
              exact .of_escape (.inl ⟨hloose, .inl rfl⟩)
      · rw [if_neg hmore, if_neg hmore]
        exact ⟨rfl, hs⟩

/-- `BPlusTree.scan`, fully consumed. -/
theorem lockstep_scan (hloose : ¬ mode.strict) (start stop : Option Bytes) (hs : Sim mode [] w S)
    {S₁ : PageStore.Store} {found : ℕ × List PathItem}
    (hfind : PageStore.findLeaf (start.getD []) S = .ok found S₁) (hpending : S₁.pending = []) :
    Lockstep mode (fun a b w' S' => a = b ∧ Sim mode [] w' S') (BPlusTree.scan start stop w)
      (PageStore.scan start stop S) := by
  have hdescent := lockstep_findLeaf (start.getD []) hs
  rw [BPlusTree.scan, PageStore.scan, run_bind, run_bind]
  rw [hfind] at hdescent ⊢
  cases hrun : findLeaf (start.getD []) w with
  | error e w' =>
      rw [hrun] at hdescent
      exact .of_escape hdescent
  | ok result w' =>
      rw [hrun] at hdescent
      obtain ⟨hleaf, -, hs'⟩ := hdescent
      dsimp only
      rw [← hleaf]
      rcases hs'.derefLeaf_cases (List.mem_singleton_self _) with
        ⟨leaf, hengine, hstore⟩ | ⟨e, hengine, hstore⟩
      · obtain ⟨m, hget, -, hmeta, -⟩ := hs'.getMeta
        rw [run_bind_ok hengine, run_bind_ok hstore, run_bind_ok hget, run_bind_ok (run_get S₁),
          hmeta.next]
        exact lockstep_scanLoop hloose stop _ leaf _ w' S₁ hs'.forgetAll hpending
      · rw [run_bind_error hengine, run_bind_error hstore]
        exact hs'.raise e

end BPTreeDB.Engine
