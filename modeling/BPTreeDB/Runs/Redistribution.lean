import BPTreeDB.Model.Redistribution
import BPTreeDB.PageStore.SplitChoice
import BPTreeDB.Runs.TreeRuns

/-!
# Redistribution is all or nothing

A round of `_try_redistribute_slots` keeps what is read through the left page, the separator
and the right page, and changes nothing else than what the backups restore.  So the function
either leaves two pages that are at least `0.4` full and read as before, or it gives back the
three pages as they were.
-/

namespace BPTreeDB.Runs

open Lib Eng Codec Lib.Program PageStore BPlusTree

variable {P : ℕ} {pages : Neighbours} {isLeft : Bool}

/-! ## Restoring -/

/-- What restoring does not touch: the type of a page, its LSN and its right sibling. -/
def pageFrame : Page → Bool × ℕ × ℕ
  | .leaf p => (true, p.lastModifiedLsn, p.rightSiblingPageId)
  | .internal p => (false, p.lastModifiedLsn, 0)

theorem restorePage_eq {page backup : Page} (h : pageFrame page = pageFrame backup) :
    restorePage page backup = backup := by
  cases page with
  | leaf p =>
      cases backup with
      | leaf q => simp_all [pageFrame, restorePage]
      | internal q => simp [pageFrame] at h
  | internal p =>
      cases backup with
      | leaf q => simp [pageFrame] at h
      | internal q => simp_all [pageFrame, restorePage]

/-- Moving a slot touches nothing else. -/
theorem rotateSlot_frame (isLeft : Bool) (r : Rotation) :
    pageFrame (rotateSlot isLeft r).1.donor = pageFrame r.donor ∧
      pageFrame (rotateSlot isLeft r).1.recipient = pageFrame r.recipient := by
  obtain ⟨donor, recipient, separator⟩ := r
  cases donor with
  | leaf donor =>
      cases recipient with
      | internal recipient => exact ⟨rfl, rfl⟩
      | leaf recipient =>
          cases isLeft with
          | true =>
              simp only [rotateSlot, if_true]
              cases donor.slots.getLast? <;> exact ⟨rfl, rfl⟩
          | false =>
              simp only [rotateSlot, Bool.false_eq_true, if_false]
              rcases donor.slots with _ | ⟨slot, _ | ⟨first, rest⟩⟩ <;> exact ⟨rfl, rfl⟩
  | internal donor =>
      cases recipient with
      | leaf recipient => exact ⟨rfl, rfl⟩
      | internal recipient =>
          cases isLeft with
          | true =>
              simp only [rotateSlot, if_true]
              cases donor.slots.getLast? <;> exact ⟨rfl, rfl⟩
          | false =>
              simp only [rotateSlot, Bool.false_eq_true, if_false]
              rcases donor.slots with _ | ⟨slot, rest⟩ <;> exact ⟨rfl, rfl⟩

theorem rotateSlots_frame (isLeft : Bool) (fuel : ℕ) (r : Rotation) :
    pageFrame (rotateSlots P isLeft fuel r).1.donor = pageFrame r.donor ∧
      pageFrame (rotateSlots P isLeft fuel r).1.recipient = pageFrame r.recipient := by
  induction fuel generalizing r with
  | zero => exact ⟨rfl, rfl⟩
  | succ fuel ih =>
      have hround := rotateSlot_frame isLeft r
      rw [rotateSlots]
      split
      · generalize rotateSlot isLeft r = round at hround ⊢
        obtain ⟨r', e | e⟩ := round
        · dsimp only at hround ⊢
          split
          · exact hround
          · obtain ⟨hdonor, hrecipient⟩ := ih r'
            exact ⟨hdonor.trans hround.1, hrecipient.trans hround.2⟩
        · exact hround
      · exact ⟨rfl, rfl⟩

/-- The three pages are restored as they were. -/
theorem restoreNeighbours_eq (pages : Neighbours) (idx : ℕ) (isLeft : Bool) (fuel : ℕ)
    (key : Bytes) :
    let r := (rotateSlots P isLeft fuel ⟨pages.donor, pages.recipient, key⟩).1
    restoreNeighbours ⟨r.donor, r.recipient, setSeparator pages.parent idx r.separator⟩ pages =
      pages := by
  intro r
  obtain ⟨hdonor, hrecipient⟩ :=
    rotateSlots_frame (P := P) isLeft fuel ⟨pages.donor, pages.recipient, key⟩
  unfold restoreNeighbours
  rw [restorePage_eq hdonor, restorePage_eq hrecipient]
  rfl

/-! ## What is read through two neighbours -/

/-- What is read from left to right: records, or a leftmost child and slots. -/
inductive Reading where
  | records (slots : List LeafSlot)
  | children (leftmostChildPageId : ℕ) (slots : List InternalSlot)
  deriving DecidableEq, Repr

/-- The reading through a left page, the separator and a right page. -/
def readThrough (left : Page) (separator : Bytes) (right : Page) : Option Reading :=
  match left, right with
  | .leaf left, .leaf right => some (.records (left.slots ++ right.slots))
  | .internal left, .internal right =>
      some (.children left.leftmostChildPageId
        (left.slots ++ ⟨separator, right.leftmostChildPageId⟩ :: right.slots))
  | _, _ => none

/-- The reading of the root page of a tree. -/
def treeReading : (h : ℕ) → Tree h → Reading
  | 0, l => .records (Leaf.slots l)
  | h + 1, n => .children (Tree.id h (Node.first n))
      ((Node.rest n).map fun e => ⟨e.1, Tree.id h e.2⟩)

theorem treeReading_node {h : ℕ} (n : Node (Tree h)) : treeReading (h + 1) (.node n) =
    .children (Tree.id h n.first) (n.rest.map fun e => ⟨e.1, Tree.id h e.2⟩) :=
  rfl

/-- A rotation in progress reads as the merge of its pages. -/
theorem readThrough_of_rotating {R : Regime} {h bId : ℕ} {m a b : Tree h} {s : Bytes} {r : Rotation}
    (hr : Rotating R isLeft h m bId a s b r) :
    readThrough (pick isLeft r.donor r.recipient) r.separator (pick isLeft r.recipient r.donor) =
      some (treeReading h m) := by
  have hleft : stripLsn (pick isLeft r.donor r.recipient) = Tree.page h a := by
    cases isLeft with
    | true => exact hr.donor
    | false => exact hr.recipient
  have hright : stripLsn (pick isLeft r.recipient r.donor) = Tree.page h b := by
    cases isLeft with
    | true => exact hr.recipient
    | false => exact hr.donor
  rw [← hr.merge, hr.separator]
  cases h with
  | zero =>
      obtain ⟨a, rfl⟩ := a.exists_leaf
      obtain ⟨b, rfl⟩ := b.exists_leaf
      rw [eq_leaf_of_stripLsn hleft, eq_leaf_of_stripLsn hright]
      rfl
  | succ h =>
      obtain ⟨a, rfl⟩ := a.exists_node
      obtain ⟨b, rfl⟩ := b.exists_node
      rw [eq_internal_of_stripLsn hleft, eq_internal_of_stripLsn hright]
      rw [Tree.merge_node, treeReading_node]
      simp [readThrough]

/-! ## The start of a redistribution -/

/-- A child that stands for its page id. -/
def childOf (pageId : ℕ) : Tree 0 := .leaf ⟨pageId, 0, []⟩

/-- An internal page as a tree of height one. -/
def nodeOf (p : InternalPage) : Node (Tree 0) :=
  ⟨0, childOf p.leftmostChildPageId, p.slots.map fun slot => (slot.key, childOf slot.childPageId)⟩

theorem stripLsn_nodeOf (p : InternalPage) :
    stripLsn (.internal p) = Tree.page 1 (.node (nodeOf p)) := by
  simp [stripLsn, BufferPool.setLsn, nodeOf, childOf, Function.comp_def]

/-- Both pages are leaves, or both are internal pages. -/
def SameType : Page → Page → Prop
  | .leaf _, .leaf _ => True
  | .internal _, .internal _ => True
  | _, _ => False

theorem cappedSlots_of_withinCap (hP : 256 ≤ P) {p : LeafPage} (h : WithinCap P (.leaf p)) :
    (plainRegime P).CappedSlots p.slots := by
  intro slot hslot
  have hcap := h slot hslot
  simp only [calculateLeafRecordSize, getMaxLeafRecordSize, lengthFieldSize, slotEntrySize,
    pageHeaderSize] at hcap
  simp only [leafSlotSize, Regime.slotCap, plainRegime, lengthFieldSize, slotEntrySize,
    pageHeaderSize]
  omega

theorem length_le_of_withinCap (hP : 256 ≤ P) {p : InternalPage} (h : WithinCap P (.internal p))
    {slot : InternalSlot} (hslot : slot ∈ p.slots) : slot.key.length ≤ (plainRegime P).maxKey := by
  have hcap := h slot hslot
  simp only [calculateLeafRecordSize, getMaxLeafRecordSize, lengthFieldSize, slotEntrySize,
    pageHeaderSize, List.length_nil] at hcap
  simp only [plainRegime, pageHeaderSize]
  omega

theorem cappedKeys_of_withinCap (hP : 256 ≤ P) {p : InternalPage} (h : WithinCap P (.internal p)) :
    (plainRegime P).CappedKeys ((nodeOf p).rest.map Prod.fst) := by
  intro key hkey
  simp only [nodeOf, List.map_map, List.mem_map, Function.comp_apply] at hkey
  obtain ⟨slot, hslot, rfl⟩ := hkey
  exact length_le_of_withinCap hP h hslot

/-- Two neighbouring pages within the cap are at the start of a rotation. -/
theorem exists_rotating (hP : 256 ≤ P) {left right : Page} (htype : SameType left right)
    (hleft : WithinCap P left) (hright : WithinCap P right) {key : Bytes}
    (hkey : key.length ≤ (plainRegime P).maxKey) :
    ∃ (h bId : ℕ) (m a b : Tree h), ∀ isLeft, Rotating (plainRegime P) isLeft h m bId a key b
      ⟨pick isLeft left right, pick isLeft right left, key⟩ := by
  cases left with
  | leaf p =>
      cases right with
      | internal q => exact htype.elim
      | leaf q =>
          have hp := cappedSlots_of_withinCap hP hleft
          have hq := cappedSlots_of_withinCap hP hright
          refine ⟨0, p.rightSiblingPageId, _, .leaf ⟨0, p.rightSiblingPageId, p.slots⟩,
            .leaf ⟨p.rightSiblingPageId, q.rightSiblingPageId, q.slots⟩, fun isLeft =>
            ⟨rfl, rfl, rfl, ?_, hkey, ?_, ?_, rfl⟩⟩
          · intro slot hslot
            rcases List.mem_append.mp hslot with hslot | hslot
            · exact hp slot hslot
            · exact hq slot hslot
          · cases isLeft <;> rfl
          · cases isLeft <;> rfl
  | internal p =>
      cases right with
      | leaf q => exact htype.elim
      | internal q =>
          refine ⟨1, 0, _, .node (nodeOf p), .node (nodeOf q), fun isLeft =>
            ⟨rfl, rfl, trivial, ?_, hkey, ?_, ?_, rfl⟩⟩
          · rw [Tree.capped_merge]
            exact ⟨cappedKeys_of_withinCap hP hleft, cappedKeys_of_withinCap hP hright,
              fun _ => hkey⟩
          · cases isLeft
            · exact stripLsn_nodeOf q
            · exact stripLsn_nodeOf p
          · cases isLeft
            · exact stripLsn_nodeOf p
            · exact stripLsn_nodeOf q

/-! ## All or nothing -/

/-- A redistribution that succeeded.  `separator` was the key between the pages before. -/
structure Redistributed (P : ℕ) (idx : ℕ) (donorIsLeft : Bool) (separator : Bytes)
    (pages pages' : Neighbours) : Prop where
  donor : 2 * P ≤ 5 * calculatePageSize pages'.donor ∧ calculatePageSize pages'.donor ≤ P
  recipient : 2 * P ≤ 5 * calculatePageSize pages'.recipient ∧
    calculatePageSize pages'.recipient ≤ P
  /-- Only the named separator of the parent has changed, and the reading is the old one. -/
  separator : ∃ key, pages'.parent = setSeparator pages.parent idx key ∧
    readThrough (pages'.left donorIsLeft) key (pages'.right donorIsLeft) =
      readThrough (pages.left donorIsLeft) separator (pages.right donorIsLeft) ∧
    ∀ p, pages'.right donorIsLeft = .leaf p → p.slots.head?.map (·.key) = some key

/-- A fresh separator is the first key of the leaf on the right. -/
theorem head_of_fresh {R : Regime} {h bId : ℕ} {m a b : Tree h} {s : Bytes} {r : Rotation}
    (hr : Rotating R isLeft h m bId a s b r) (hfresh : Tree.Fresh h s b) {p : LeafPage}
    (hp : pick isLeft r.recipient r.donor = .leaf p) : p.slots.head?.map (·.key) = some s := by
  have hright : stripLsn (pick isLeft r.recipient r.donor) = Tree.page h b := by
    cases isLeft with
    | true => exact hr.recipient
    | false => exact hr.donor
  cases h with
  | zero =>
      obtain ⟨b, rfl⟩ := b.exists_leaf
      obtain ⟨slot, rest, hslots, rfl⟩ := hfresh
      rw [eq_leaf_of_stripLsn hright] at hp
      cases hp
      rw [show b.slots = slot :: rest from hslots]
      rfl
  | succ h =>
      obtain ⟨b, rfl⟩ := b.exists_node
      rw [eq_internal_of_stripLsn hright] at hp
      cases hp

/-- On pages within the caps, a redistribution for an underpopulated page returns: it has
succeeded, or nothing has changed. -/
theorem redistribution_all_or_nothing (hP : 256 ≤ P) (pages : Neighbours) (idx : ℕ)
    (donorIsLeft : Bool) (separator : InternalSlot)
    (hseparator : pages.parent.slots[idx]? = some separator)
    (htype : SameType pages.donor pages.recipient) (hdonor : WithinCap P pages.donor)
    (hrecipient : WithinCap P pages.recipient) (hparent : WithinCap P (.internal pages.parent))
    (hunder : 5 * calculatePageSize pages.recipient < 2 * P)
    (hhealthy : 2 * P ≤ 5 * calculatePageSize pages.donor)
    (hfits : calculatePageSize pages.donor ≤ P) :
    ∃ rescued pages', redistribute P pages idx donorIsLeft = (.ok rescued, pages') ∧
      (rescued = false → pages' = pages) ∧
      (rescued = true → Redistributed P idx donorIsLeft separator.key pages pages') := by
  have hkey := length_le_of_withinCap hP hparent (List.mem_of_getElem? hseparator)
  obtain ⟨h, bId, m, a, b, hr⟩ : ∃ (h bId : ℕ) (m a b : Tree h),
      Rotating (plainRegime P) donorIsLeft h m bId a separator.key b
        ⟨pages.donor, pages.recipient, separator.key⟩ := by
    cases donorIsLeft with
    | true =>
        obtain ⟨h, bId, m, a, b, hr⟩ := exists_rotating hP htype hdonor hrecipient hkey
        exact ⟨h, bId, m, a, b, hr true⟩
    | false =>
        have htype' : SameType pages.recipient pages.donor := by
          revert htype
          cases pages.donor <;> cases pages.recipient <;> exact id
        obtain ⟨h, bId, m, a, b, hr⟩ := exists_rotating hP htype' hrecipient hdonor hkey
        exact ⟨h, bId, m, a, b, hr false⟩
  have hspec := rotateSlots_spec (R := plainRegime P) (show 112 ≤ P by omega)
    (slotCount pages.donor + 2) hr (Nat.lt_add_of_pos_right (by decide))
    (.inl (by
      show ¬ 2 * P ≤ 5 * calculatePageSize pages.recipient
      omega))
  have hrestore := restoreNeighbours_eq (P := P) pages idx donorIsLeft (slotCount pages.donor + 2)
    separator.key
  unfold redistribute
  rw [hseparator]
  dsimp only at hrestore ⊢
  change RotationSpec (plainRegime P) donorIsLeft h m bId _ (rotateSlots P donorIsLeft _ _) at hspec
  generalize rotateSlots P donorIsLeft (slotCount pages.donor + 2)
    ⟨pages.donor, pages.recipient, separator.key⟩ = result at hspec hrestore ⊢
  obtain ⟨r, outcome⟩ := result
  cases outcome with
  | succeeded =>
      obtain ⟨⟨a', s', b', hr', hfresh⟩, -, -, hd, hc, hdle, hcle⟩ := hspec
      obtain rfl := hr'.separator
      refine ⟨true, _, rfl, fun h => ?_, fun _ => ⟨⟨hd, hdle.trans hfits⟩, ⟨hc, ?_⟩, ?_⟩⟩
      · cases h
      · have hcap := (plainRegime P).slotCap_le (show 112 ≤ P by omega) h
        simp only [maxUnder, plainRegime] at hcle hcap
        show calculatePageSize r.recipient ≤ P
        omega
      · refine ⟨r.separator, rfl, ?_, fun p hp => head_of_fresh hr' hfresh hp⟩
        exact (readThrough_of_rotating hr').trans (readThrough_of_rotating hr).symm
  | donorExhausted =>
      refine ⟨false, _, rfl, fun _ => hrestore, fun h => ?_⟩
      cases h
  | raised e =>
      have hthin : 2 * P ≤ 5 * (pageHeaderSize + (plainRegime P).slotCap h) := hspec.2 hhealthy
      have hcap := (plainRegime P).slotCap_le (show 112 ≤ P by omega) h
      simp only [pageHeaderSize, plainRegime] at hthin hcap
      omega

/-- Two leaves that trade slots: the left one is full, the right one holds one record. -/
def tradingLeaves : Neighbours :=
  ⟨.leaf ⟨0, 2, [⟨[1], List.replicate 27 0⟩, ⟨[2], List.replicate 27 0⟩,
      ⟨[3], List.replicate 27 0⟩, ⟨[4], List.replicate 27 0⟩, ⟨[5], List.replicate 27 0⟩]⟩,
    .leaf ⟨0, 0, [⟨[6], []⟩]⟩, ⟨0, 1, [⟨[6], 2⟩]⟩⟩

/-- The left leaf has no record to spare. -/
def poorLeaves : Neighbours :=
  ⟨.leaf ⟨0, 2, [⟨[1], List.replicate 12 0⟩, ⟨[2], List.replicate 12 0⟩,
      ⟨[3], List.replicate 12 0⟩]⟩,
    .leaf ⟨0, 0, [⟨[6], List.replicate 12 0⟩, ⟨[7], List.replicate 12 0⟩]⟩, ⟨0, 1, [⟨[6], 2⟩]⟩⟩

/-- The full leaf gives two records away.  The other one tries to, and takes its record back. -/
theorem redistribution_all_or_nothing_leaves :
    (∃ pages', redistribute 256 tradingLeaves 0 true = (.ok true, pages') ∧
      pages'.parent.slots = [⟨[4], 2⟩] ∧
      Redistributed 256 0 true [6] tradingLeaves pages') ∧
    redistribute 256 poorLeaves 0 true = (.ok false, poorLeaves) := by
  refine ⟨?_, ?_⟩
  · obtain ⟨rescued, pages', hrun, -, htraded⟩ :=
      redistribution_all_or_nothing (P := 256) (by decide) tradingLeaves 0 true ⟨[6], 2⟩ rfl trivial
        (by unfold tradingLeaves WithinCap; decide) (by unfold tradingLeaves WithinCap; decide)
        (by unfold tradingLeaves WithinCap; decide) (by decide) (by decide) (by decide)
    have hrescued : (redistribute 256 tradingLeaves 0 true).1 = .ok true := by rfl
    have hparent : (redistribute 256 tradingLeaves 0 true).2.parent.slots = [⟨[4], 2⟩] := by rfl
    rw [hrun] at hrescued hparent
    cases hrescued
    exact ⟨pages', hrun, hparent, htraded rfl⟩
  · obtain ⟨rescued, pages', hrun, hrestored, -⟩ :=
      redistribution_all_or_nothing (P := 256) (by decide) poorLeaves 0 true ⟨[6], 2⟩ rfl trivial
        (by unfold poorLeaves WithinCap; decide) (by unfold poorLeaves WithinCap; decide)
        (by unfold poorLeaves WithinCap; decide) (by decide) (by decide) (by decide)
    have hrescued : (redistribute 256 poorLeaves 0 true).1 = .ok false := by rfl
    rw [hrun] at hrescued
    cases hrescued
    rw [hrun, hrestored rfl]

/-! ## On page objects -/

/-- The three page objects get the contents. -/
def storeNeighbours (donor recipient parent : Ref) (pages : Neighbours) : Eng Unit := do
  assign donor pages.donor
  assign recipient pages.recipient
  assign parent (.internal pages.parent)

/-- What `redistribute` does to the contents of three page objects. -/
def redistributeObjects (pageSizeBytes : ℕ) (donor recipient parent : Ref) (pages : Neighbours)
    (idx : ℕ) (donorIsLeft : Bool) : Eng Bool :=
  match redistribute pageSizeBytes pages idx donorIsLeft with
  | (.ok rescued, pages') => do
      storeNeighbours donor recipient parent pages'
      return rescued
  | (.error e, pages') => do
      storeNeighbours donor recipient parent pages'
      throw e

theorem assign_self {w : World} {ref : Ref} {page : Page} (h : w.pool.objects[ref]? = some page) :
    Eng.assign ref page w = .ok () w := by
  obtain ⟨hlt, rfl⟩ := List.getElem?_eq_some_iff.mp h
  unfold Eng.assign
  simp [run_modify]

theorem storeNeighbours_self {w : World} {donor recipient parent : Ref}
    (hdonor : w.pool.objects[donor]? = some pages.donor)
    (hrecipient : w.pool.objects[recipient]? = some pages.recipient)
    (hparent : w.pool.objects[parent]? = some (.internal pages.parent)) :
    storeNeighbours donor recipient parent pages w = .ok () w := by
  rw [storeNeighbours, run_bind_ok (assign_self hdonor), run_bind_ok (assign_self hrecipient)]
  exact assign_self hparent

/-- `_try_redistribute_slots` of the engine, which leaves the backups out, does the same. -/
theorem tryRedistributeSlots_eq {w : World} {m : MetaPage} {donor recipient parent : Ref}
    (hm : w.pager.metaPage = some m) (hdonor : w.pool.objects[donor]? = some pages.donor)
    (hrecipient : w.pool.objects[recipient]? = some pages.recipient)
    (hparent : w.pool.objects[parent]? = some (.internal pages.parent)) (idx : ℕ)
    (donorIsLeft : Bool) : BPlusTree.tryRedistributeSlots donor recipient parent idx donorIsLeft w =
      redistributeObjects m.pageSizeBytes donor recipient parent pages idx donorIsLeft w := by
  have hmeta : Pager.getMeta w = .ok m w := by simp [Pager.getMeta, run_bind, hm]
  have hinternal : Eng.derefInternal parent w = .ok pages.parent w := by
    simp [Eng.derefInternal, Eng.deref, run_bind, hparent]
  have hself := storeNeighbours_self hdonor hrecipient hparent
  rw [BPlusTree.tryRedistributeSlots, run_bind_ok hmeta, run_bind_ok hinternal, redistributeObjects,
    redistribute]
  cases hseparator : pages.parent.slots[idx]? with
  | none =>
      dsimp only
      rw [run_bind_ok hself]
  | some separator =>
      have hrestore := restoreNeighbours_eq (P := m.pageSizeBytes) pages idx donorIsLeft
        (slotCount pages.donor + 2) separator.key
      have hderef : Eng.deref donor w = .ok pages.donor w := by simp [Eng.deref, run_bind, hdonor]
      have hderef' : Eng.deref recipient w = .ok pages.recipient w := by
        simp [Eng.deref, run_bind, hrecipient]
      dsimp only at hrestore ⊢
      rw [run_bind_ok hderef, run_bind_ok hderef']
      generalize rotateSlots m.pageSizeBytes donorIsLeft (slotCount pages.donor + 2)
        ⟨pages.donor, pages.recipient, separator.key⟩ = result at hrestore ⊢
      obtain ⟨r, outcome⟩ := result
      cases outcome with
      | succeeded => rfl
      | donorExhausted =>
          dsimp only at hrestore ⊢
          rw [hrestore, run_bind_ok hself]
      | raised e => rfl

end BPTreeDB.Runs
