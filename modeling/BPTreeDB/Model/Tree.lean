import BPTreeDB.Model.Cache

/-!
# The B+ tree

The algorithms of `tree.py`.  The computations on page contents (where to split,
how to redistribute slots, what a merge gives) are functions on pages; the
functions that fetch, allocate and mark pages are programs of the engine and
work on references to page objects.
-/

namespace BPTreeDB.BPlusTree

open Lib Eng Codec

/-! ## Binary search

`bisect` on a sorted list is the number of elements that stay to the left. -/

/-- `bisect.bisect_left`. -/
def bisectLeft {α : Type} [LT α] [DecidableLT α] (keys : List α) (key : α) : ℕ :=
  (keys.takeWhile fun k => decide (k < key)).length

/-- `bisect.bisect_right`. -/
def bisectRight {α : Type} [LE α] [DecidableLE α] (keys : List α) (key : α) : ℕ :=
  (keys.takeWhile fun k => decide (k ≤ key)).length

/-- `bisect.insort` of a slot of an internal page. -/
def insortInternal (slots : List InternalSlot) (slot : InternalSlot) : List InternalSlot :=
  slots.insertIdx (bisectRight (slots.map (·.key)) slot.key) slot

/-- `bisect.insort` of a slot of a leaf page. -/
def insortLeaf (slots : List LeafSlot) (slot : LeafSlot) : List LeafSlot :=
  slots.insertIdx (bisectRight (slots.map (·.key)) slot.key) slot

/-! ## Population limits -/

/-- `_is_page_overpopulated`. -/
def isPageOverpopulated (pageSizeBytes : ℕ) (page : Page) : Bool :=
  pageSizeBytes < calculatePageSize page

/-- `_is_page_underpopulated`, `size < 0.4 * page_size`.  For the page sizes that
fit the 32-bit field of the meta page, the float product is the exact value when
that is an integer and lies strictly between two integers otherwise, so the
comparison is exact. -/
def isPageUnderpopulated (pageSizeBytes : ℕ) (page : Page) : Bool :=
  5 * calculatePageSize page < 2 * pageSizeBytes

/-! ## Splitting -/

/-- The two halves of a hypothetical split at `splitSlotIdx`; the median of an
internal page belongs to neither. -/
def splitHalves (page : Page) (splitSlotIdx : ℕ) : Page × Page :=
  match page with
  | .leaf p => (.leaf ⟨0, 0, p.slots.take splitSlotIdx⟩, .leaf ⟨0, 0, p.slots.drop splitSlotIdx⟩)
  | .internal p =>
      (.internal ⟨0, 0, p.slots.take splitSlotIdx⟩,
        .internal ⟨0, 0, p.slots.drop (splitSlotIdx + 1)⟩)

/-- `_split_halves_are_balanced`. -/
def splitHalvesAreBalanced (pageSizeBytes : ℕ) (page : Page) (splitSlotIdx : ℕ) : Bool :=
  let (left, right) := splitHalves page splitSlotIdx
  !(isPageUnderpopulated pageSizeBytes left || isPageUnderpopulated pageSizeBytes right)

/-- The running sums of a list of slot sizes. -/
def cumulativeSizes : (total : ℕ) → List ℕ → List ℕ
  | _, [] => []
  | total, size :: rest => (total + size) :: cumulativeSizes (total + size) rest

/-- The offsets `0, 1, -1, 2, -2, …` tried around the byte midpoint. -/
def splitOffsets (slotCount : ℕ) : List ℤ :=
  0 :: (List.range (slotCount - 1)).flatMap fun i : ℕ => [(i : ℤ) + 1, -((i : ℤ) + 1)]

/-- `_choose_split_point`, for a page that has slots. -/
def chooseSplitPoint (pageSizeBytes : ℕ) (page : Page) : ℕ :=
  let slotCumulativeSizes := cumulativeSizes 0 (slotSizes page)
  let totalBody := slotCumulativeSizes.getLast?.getD 0
  let byteMidpoint := bisectRight slotCumulativeSizes (totalBody / 2)
  let slotCount := slotCumulativeSizes.length
  let candidates : List ℤ := (splitOffsets slotCount).map fun offset => byteMidpoint + offset
  match candidates.find? fun c : ℤ =>
      decide (1 ≤ c ∧ c < slotCount) && splitHalvesAreBalanced pageSizeBytes page c.toNat with
  | some candidate => candidate.toNat
  | none => byteMidpoint

/-! ## Redistribution -/

/-- The contents that a redistribution changes: the donor, the recipient and the
separator key between them in their parent. -/
structure Rotation where
  donor : Page
  recipient : Page
  separator : Bytes
  deriving DecidableEq, Repr

/-- The body of the loop of `_try_redistribute_slots`: move one slot over.  An
exception leaves the pages as far changed as they are at that moment. -/
def rotateSlot (donorIsLeft : Bool) (r : Rotation) : Rotation × Option Err :=
  match r.donor, r.recipient with
  | .leaf donor, .leaf recipient =>
      if donorIsLeft then
        match donor.slots.getLast? with
        | none => (r, some .indexError)
        | some slot =>
            (⟨.leaf { donor with slots := donor.slots.dropLast },
              .leaf { recipient with slots := slot :: recipient.slots }, slot.key⟩, none)
      else
        match donor.slots with
        | [] => (r, some .indexError)
        | slot :: rest =>
            let moved : Rotation := ⟨.leaf { donor with slots := rest },
              .leaf { recipient with slots := recipient.slots ++ [slot] }, r.separator⟩
            match rest with
            | [] => (moved, some .indexError)
            | first :: _ => ({ moved with separator := first.key }, none)
  | .internal donor, .internal recipient =>
      if donorIsLeft then
        let pulledDown : InternalSlot := ⟨r.separator, recipient.leftmostChildPageId⟩
        let recipient := { recipient with slots := pulledDown :: recipient.slots }
        match donor.slots.getLast? with
        | none => (⟨.internal donor, .internal recipient, r.separator⟩, some .indexError)
        | some slot =>
            (⟨.internal { donor with slots := donor.slots.dropLast },
              .internal { recipient with leftmostChildPageId := slot.childPageId },
              slot.key⟩, none)
      else
        let pulledDown : InternalSlot := ⟨r.separator, donor.leftmostChildPageId⟩
        let recipient := { recipient with slots := recipient.slots ++ [pulledDown] }
        match donor.slots with
        | [] => (⟨.internal donor, .internal recipient, r.separator⟩, some .indexError)
        | slot :: rest =>
            (⟨.internal { donor with leftmostChildPageId := slot.childPageId, slots := rest },
              .internal recipient, slot.key⟩, none)
  | _, _ => (r, some (.assertionError "isinstance(recipient_page, type(donor_page))"))

/-- How the loop of `_try_redistribute_slots` ends. -/
inductive RotationOutcome where
  | succeeded
  | donorExhausted
  | raised (e : Err)
  deriving DecidableEq, Repr

/-- The loop of `_try_redistribute_slots`.  Every round takes a slot from the donor
or raises, so `fuel` beyond its number of slots is never used up. -/
def rotateSlots (pageSizeBytes : ℕ) (donorIsLeft : Bool) :
    (fuel : ℕ) → Rotation → Rotation × RotationOutcome
  | 0, r => (r, .raised .diverges)
  | fuel + 1, r =>
      if isPageUnderpopulated pageSizeBytes r.recipient then
        match rotateSlot donorIsLeft r with
        | (r, some e) => (r, .raised e)
        | (r, none) =>
            if isPageUnderpopulated pageSizeBytes r.donor then (r, .donorExhausted)
            else rotateSlots pageSizeBytes donorIsLeft fuel r
      else (r, .succeeded)

/-- The number of slots of a page. -/
def slotCount : Page → ℕ
  | .leaf p => p.slots.length
  | .internal p => p.slots.length

/-- The internal page with the key of one separator replaced. -/
def setSeparator (page : InternalPage) (separatorIdx : ℕ) (key : Bytes) : InternalPage :=
  { page with slots := page.slots.modify separatorIdx fun slot => { slot with key } }

/-! ## Merging -/

/-- The probe page of a merge: `mergeFrom` appended to `mergeInto`, for internal
pages with the separator pulled down between them. -/
def mergeProbe (mergeInto mergeFrom : Page) (separator : Option InternalSlot) :
    Except Err Page :=
  match mergeInto, mergeFrom with
  | .leaf into, .leaf from_ =>
      .ok (.leaf ⟨0, from_.rightSiblingPageId, into.slots ++ from_.slots⟩)
  | .internal into, .internal from_ =>
      match separator with
      | none => .error .indexError
      | some separator =>
          let pulledDown : InternalSlot := ⟨separator.key, from_.leftmostChildPageId⟩
          .ok (.internal ⟨0, into.leftmostChildPageId, into.slots ++ pulledDown :: from_.slots⟩)
  | _, _ => .error (.assertionError "isinstance(merge_from_page, type(merge_into_page))")

/-! ## Descending -/

/-- One step of a descent: the page and the slot followed, `-1` for its leftmost child. -/
structure PathItem where
  parentPageId : ℕ
  parentSlotIndex : ℤ
  deriving DecidableEq, Repr

/-- The leaf that a descent reached and the path to it. -/
structure LeafSearchResult where
  leafPageId : ℕ
  leafPage : Ref
  path : List PathItem

/-- The slot to follow for `key` in an internal page. -/
def childSlotIndex (page : InternalPage) (key : Bytes) : ℤ :=
  (bisectRight (page.slots.map (·.key)) key : ℤ) - 1

/-- The child behind a slot index, `-1` for the leftmost child. -/
def childAt (page : InternalPage) (slotIdx : ℤ) : Option ℕ :=
  if slotIdx = -1 then some page.leftmostChildPageId
  else (page.slots[slotIdx.toNat]?).map (·.childPageId)

/-- The loop of `_find_leaf`. -/
def findLeafLoop (key : Bytes) :
    (fuel : ℕ) → (pageId : ℕ) → (page : Ref) → (path : List PathItem) → Eng LeafSearchResult
  | 0, _, _, _ => throw .diverges
  | fuel + 1, pageId, page, path => do
      match ← deref page with
      | .leaf _ => return ⟨pageId, page, path⟩
      | .internal p =>
          let slotIdx := childSlotIndex p key
          match childAt p slotIdx with
          | none => throw .indexError
          | some childPageId =>
              let child ← BufferPool.get childPageId
              findLeafLoop key fuel childPageId child (path ++ [⟨pageId, slotIdx⟩])

/-- `_find_leaf`.  A descent through more pages than were ever allocated goes round
in a circle. -/
def findLeaf (key : Bytes) : Eng LeafSearchResult := do
  let m ← Pager.getMeta
  let page ← BufferPool.get m.rootPageId
  findLeafLoop key (m.nextPageId + 1) m.rootPageId page []

/-- The leaf page behind a reference. -/
def derefLeaf (ref : Ref) : Eng LeafPage := do
  match ← deref ref with
  | .leaf page => return page
  | .internal _ => throw (.assertionError "isinstance(page, LeafPage)")

/-! ## The rebalancing cascade -/

/-- The parts of a split: the key to promote, the left half that stays on the page
and the new right sibling. -/
def splitParts (page : Page) (splitSlotIdx newSiblingPageId lsn : ℕ) :
    Except Err (Bytes × Page × Page) :=
  match page with
  | .leaf p =>
      match p.slots.drop splitSlotIdx with
      | [] => .error .indexError
      | first :: rest =>
          .ok (first.key,
            .leaf { p with slots := p.slots.take splitSlotIdx,
                           rightSiblingPageId := newSiblingPageId },
            .leaf ⟨lsn, p.rightSiblingPageId, first :: rest⟩)
  | .internal p =>
      match p.slots.drop splitSlotIdx with
      | [] => .error .indexError
      | median :: rest =>
          .ok (median.key,
            .internal { p with slots := p.slots.take splitSlotIdx },
            .internal ⟨lsn, median.childPageId, rest⟩)

/-- `_split_page`. -/
def splitPage (pageId : ℕ) (parentPageId : Option ℕ) (page : Ref) (lsn : ℕ) :
    Eng (ℕ × Ref) := do
  let m ← Pager.getMeta
  let content ← deref page
  let splitSlotIdx := chooseSplitPoint m.pageSizeBytes content
  let newSiblingPageId ← Pager.allocatePage
  let (promotedKey, left, right) ←
    codec (splitParts content splitSlotIdx newSiblingPageId lsn)
  assign page left
  BufferPool.markDirty pageId lsn
  let _ ← BufferPool.insert newSiblingPageId right lsn
  match parentPageId with
  | none =>
      let newRootPageId ← Pager.allocatePage
      let newRoot ← BufferPool.insert newRootPageId
        (.internal ⟨lsn, pageId, [⟨promotedKey, newSiblingPageId⟩]⟩) lsn
      Pager.updateMeta fun m => { m with rootPageId := newRootPageId }
      return (newRootPageId, newRoot)
  | some parentPageId =>
      let parent ← BufferPool.get parentPageId
      let parentPage ← derefInternal parent
      assign parent (.internal { parentPage with
        slots := insortInternal parentPage.slots ⟨promotedKey, newSiblingPageId⟩ })
      return (parentPageId, parent)

/-- A sibling under the same parent. -/
structure Sibling where
  isLeft : Bool
  pageId : ℕ
  page : Ref

/-- The id of the left sibling in `_determine_same_parent_siblings`. -/
def leftSiblingId (parent : InternalPage) (parentSlotIdx : ℤ) : Option ℕ :=
  if parentSlotIdx = 0 then some parent.leftmostChildPageId
  else if 0 < parentSlotIdx ∧ parentSlotIdx < parent.slots.length then
    (parent.slots[(parentSlotIdx - 1).toNat]?).map (·.childPageId)
  else none

/-- The id of the right sibling in `_determine_same_parent_siblings`. -/
def rightSiblingId (parent : InternalPage) (parentSlotIdx : ℤ) : Option ℕ :=
  if parentSlotIdx = -1 ∧ 1 ≤ parent.slots.length then
    (parent.slots[0]?).map (·.childPageId)
  else if 0 ≤ parentSlotIdx ∧ parentSlotIdx < (parent.slots.length : ℤ) - 1 then
    (parent.slots[(parentSlotIdx + 1).toNat]?).map (·.childPageId)
  else none

/-- Fetch a sibling, if there is one. -/
def fetchSibling (isLeft : Bool) : Option ℕ → Eng (List Sibling)
  | none => return []
  | some pageId => do return [⟨isLeft, pageId, ← BufferPool.get pageId⟩]

/-- `_determine_same_parent_siblings`: the siblings that exist, the left one first. -/
def determineSameParentSiblings (parent : InternalPage) (parentSlotIdx : ℤ) :
    Eng (List Sibling) := do
  let left ← fetchSibling true (leftSiblingId parent parentSlotIdx)
  let right ← fetchSibling false (rightSiblingId parent parentSlotIdx)
  return left ++ right

/-- The slot of the separator between a page and its sibling. -/
def separatorIdx (sibling : Sibling) (parentSlotIdx : ℤ) : ℕ :=
  (if sibling.isLeft then parentSlotIdx else parentSlotIdx + 1).toNat

/-- `_try_redistribute_slots`.  When the donor runs out, the source restores the
three pages from deep copies, so nothing has changed. -/
def tryRedistributeSlots (donor recipient parent : Ref) (parentSeparatorIdx : ℕ)
    (donorIsLeft : Bool) : Eng Bool := do
  let m ← Pager.getMeta
  let parentPage ← derefInternal parent
  match parentPage.slots[parentSeparatorIdx]? with
  | none => throw .indexError
  | some parentSlot =>
      let donorPage ← deref donor
      let recipientPage ← deref recipient
      let (r, outcome) := rotateSlots m.pageSizeBytes donorIsLeft (slotCount donorPage + 2)
        ⟨donorPage, recipientPage, parentSlot.key⟩
      let store : Eng Unit := do
        assign donor r.donor
        assign recipient r.recipient
        assign parent (.internal (setSeparator parentPage parentSeparatorIdx r.separator))
      match outcome with
      | .succeeded => store; return true
      | .donorExhausted => return false
      | .raised e => store; throw e

/-- The redistribution loop of `_redistribute_or_merge_page`: the first sibling that
could rescue the page. -/
def redistributeWith (page parent : Ref) (parentSlotIdx : ℤ) :
    List Sibling → Eng (Option Sibling)
  | [] => return none
  | sibling :: rest => do
      if ← tryRedistributeSlots sibling.page page parent (separatorIdx sibling parentSlotIdx)
          sibling.isLeft then
        return some sibling
      else redistributeWith page parent parentSlotIdx rest

/-- The pages of a merge, which always goes into the left one. -/
structure MergePages where
  intoId : ℕ
  fromId : ℕ
  into : Ref
  from_ : Ref

def mergePages (pageId : ℕ) (page : Ref) (sibling : Sibling) : MergePages :=
  if sibling.isLeft then ⟨sibling.pageId, pageId, sibling.page, page⟩
  else ⟨pageId, sibling.pageId, page, sibling.page⟩

/-- The surviving page of a merge keeps its own LSN field. -/
def mergedContent (into probe : Page) : Page :=
  BufferPool.setLsn (BufferPool.pageLsn into) probe

/-- The merge loop of `_redistribute_or_merge_page`: `none` if no merge fits, else
the parent to revisit, if any. -/
def mergeWith (pageId : ℕ) (page : Ref) (parentPageId : ℕ) (parent : Ref) (parentSlotIdx : ℤ)
    (lsn : ℕ) : List Sibling → Eng (Option (Option (ℕ × Ref)))
  | [] => return none
  | sibling :: rest => do
      let m ← Pager.getMeta
      let pages := mergePages pageId page sibling
      let idx := separatorIdx sibling parentSlotIdx
      let parentPage ← derefInternal parent
      let into ← deref pages.into
      let from_ ← deref pages.from_
      let probe ← codec (mergeProbe into from_ parentPage.slots[idx]?)
      if m.pageSizeBytes < calculatePageSize probe then
        mergeWith pageId page parentPageId parent parentSlotIdx lsn rest
      else
        assign pages.into (mergedContent into probe)
        if parentPage.slots.length ≤ idx then throw .indexError
        let slots := parentPage.slots.eraseIdx idx
        assign parent (.internal { parentPage with slots })
        BufferPool.markDirty pages.intoId lsn
        BufferPool.markDirty parentPageId lsn
        BufferPool.delete pages.fromId
        Pager.freePage pages.fromId
        let m ← Pager.getMeta
        -- The last separator of the root is gone: its only child becomes the root.
        if slots = [] ∧ parentPageId = m.rootPageId then
          Pager.updateMeta fun m => { m with rootPageId := parentPage.leftmostChildPageId }
          BufferPool.delete parentPageId
          Pager.freePage parentPageId
          return some none
        else
          return some (some (parentPageId, parent))

/-- `_redistribute_or_merge_page`. -/
def redistributeOrMergePage (pageId : ℕ) (pathItem : Option PathItem) (page : Ref) (lsn : ℕ) :
    Eng (Option (ℕ × Ref)) := do
  match pathItem with
  | none => return none
  | some ⟨parentPageId, parentSlotIdx⟩ =>
      let parent ← BufferPool.get parentPageId
      let parentPage ← derefInternal parent
      let siblings ← determineSameParentSiblings parentPage parentSlotIdx
      match ← redistributeWith page parent parentSlotIdx siblings with
      | some sibling =>
          BufferPool.markDirty pageId lsn
          BufferPool.markDirty sibling.pageId lsn
          let m ← Pager.getMeta
          let parentContent ← deref parent
          -- The rewritten separator may have over- or underpopulated the parent;
          -- the cascade then deals with it before it is marked dirty.
          if isPageOverpopulated m.pageSizeBytes parentContent ||
              isPageUnderpopulated m.pageSizeBytes parentContent then
            return some (parentPageId, parent)
          else
            BufferPool.markDirty parentPageId lsn
            return none
      | none =>
          match ← mergeWith pageId page parentPageId parent parentSlotIdx lsn siblings with
          | some modifiedParent => return modifiedParent
          | none => throw (.assertionError
              "Expected to either redistribute or merge the pages. This should not happen.")

/-- The loop of `_balance_and_write_tree`; `path` is the rest of the path stack, its
top first. -/
def balanceLoop (lsn : ℕ) :
    (fuel : ℕ) → (pageId : ℕ) → (page : Ref) → (path : List PathItem) → Eng Unit
  | 0, _, _, _ => throw .diverges
  | fuel + 1, pageId, page, path => do
      let m ← Pager.getMeta
      let content ← deref page
      if isPageOverpopulated m.pageSizeBytes content then
        let (parentPageId, parent) ←
          splitPage pageId (path.head?.map (·.parentPageId)) page lsn
        balanceLoop lsn fuel parentPageId parent path.tail
      else if isPageUnderpopulated m.pageSizeBytes content ∧ pageId ≠ m.rootPageId then
        match ← redistributeOrMergePage pageId path.head? page lsn with
        | some (parentPageId, parent) => balanceLoop lsn fuel parentPageId parent path.tail
        | none => return
      else
        BufferPool.markDirty pageId lsn

/-- `_balance_and_write_tree`.  Every round climbs one level; a round above the path
is only needed for a new root. -/
def balanceAndWriteTree (modifiedPageId : ℕ) (modifiedPage : Ref) (path : List PathItem)
    (lsn : ℕ) : Eng Unit :=
  balanceLoop lsn (path.length + 2) modifiedPageId modifiedPage path.reverse

/-! ## Public operations -/

/-- `raise_if_record_too_large`. -/
def raiseIfRecordTooLarge (key value : Bytes) : Eng Unit := do
  let m ← Pager.getMeta
  let limit := getMaxLeafRecordSize m.pageSizeBytes
  let actual := calculateLeafRecordSize key value
  if limit < actual then throw (.recordTooLarge limit actual)

/-- The slot of a leaf that holds `key`, if there is one. -/
def findSlot (page : LeafPage) (key : Bytes) : Option LeafSlot :=
  match page.slots[bisectLeft (page.slots.map (·.key)) key]? with
  | some slot => if slot.key = key then some slot else none
  | none => none

/-- `BPlusTree.search`. -/
def search (key : Bytes) : Eng (Option Bytes) := do
  let result ← findLeaf key
  let page ← derefLeaf result.leafPage
  return (findSlot page key).map (·.value)

/-- The slots of a leaf after `key` was inserted or overwritten. -/
def upsertSlot (slots : List LeafSlot) (key value : Bytes) : List LeafSlot :=
  let slotIdx := bisectLeft (slots.map (·.key)) key
  match slots[slotIdx]? with
  | some slot =>
      if slot.key = key then slots.set slotIdx { slot with value }
      else insortLeaf slots ⟨key, value⟩
  | none => insortLeaf slots ⟨key, value⟩

/-- `BPlusTree.insert`. -/
def insert (key value : Bytes) (lsn : ℕ) : Eng Unit := do
  raiseIfRecordTooLarge key value
  let result ← findLeaf key
  let page ← derefLeaf result.leafPage
  assign result.leafPage (.leaf { page with slots := upsertSlot page.slots key value })
  balanceAndWriteTree result.leafPageId result.leafPage result.path lsn

/-- `BPlusTree.delete`. -/
def delete (key : Bytes) (lsn : ℕ) : Eng Bool := do
  let result ← findLeaf key
  let page ← derefLeaf result.leafPage
  match findSlot page key with
  | none => return false
  | some _ =>
      let slotIdx := bisectLeft (page.slots.map (·.key)) key
      assign result.leafPage (.leaf { page with slots := page.slots.eraseIdx slotIdx })
      balanceAndWriteTree result.leafPageId result.leafPage result.path lsn
      return true

/-- The pairs that one leaf contributes to a scan, and whether the scan goes on to
the next leaf. -/
def scanSlots (endKeyExclusive : Option Bytes) : List LeafSlot → List (Bytes × Bytes) × Bool
  | [] => ([], true)
  | slot :: rest =>
      match endKeyExclusive with
      | some endKey =>
          if endKey ≤ slot.key then ([], false)
          else
            let (pairs, more) := scanSlots (some endKey) rest
            ((slot.key, slot.value) :: pairs, more)
      | none =>
          let (pairs, more) := scanSlots none rest
          ((slot.key, slot.value) :: pairs, more)

/-- The leaf walk of `BPlusTree.scan`, run to its end by a caller that changes
nothing meanwhile. -/
def scanLoop (endKeyExclusive : Option Bytes) :
    (fuel : ℕ) → (page : LeafPage) → (startSlotIdx : ℕ) → Eng (List (Bytes × Bytes))
  | 0, _, _ => throw .diverges
  | fuel + 1, page, startSlotIdx => do
      let (pairs, more) := scanSlots endKeyExclusive (page.slots.drop startSlotIdx)
      if more ∧ 0 < page.rightSiblingPageId then
        let next ← derefLeaf (← BufferPool.get page.rightSiblingPageId)
        return pairs ++ (← scanLoop endKeyExclusive fuel next 0)
      else return pairs

/-- `BPlusTree.scan`, fully consumed. -/
def scan (startKeyInclusive endKeyExclusive : Option Bytes) : Eng (List (Bytes × Bytes)) := do
  let startKey := startKeyInclusive.getD []
  let result ← findLeaf startKey
  let page ← derefLeaf result.leafPage
  let m ← Pager.getMeta
  scanLoop endKeyExclusive (m.nextPageId + 1) page
    (bisectLeft (page.slots.map (·.key)) startKey)

end BPTreeDB.BPlusTree
