import BPTreeDB.Model.Tree
import BPTreeDB.Lib.Program

/-!
# The tree over an ideal page store

The algorithms of `tree.py` once more, over a store that keeps every page in
memory and in which a page is named by its id alone: no cache, no eviction, no page
objects, no bytes.  This is the layer on which the B+ tree is proved correct;
`Pool` shows that the engine refines it.

The store also watches how its pages are used, and gives up with the fault
`undisciplined` when a rule is broken that the buffer pool relies on:

* `pending`: a page that was changed but not marked dirty yet is not fetched again;
* `touched`, `budget`: an operation touches at most as many distinct pages as its
  budget allows;
* a page is created under an id that is not in use, the allocator never hands out a
  page of the freelist chain, and no page is on that chain twice.
-/

namespace BPTreeDB.PageStore

open Lib Codec BPlusTree

/-- Why a program of the page store stops: an exception of the source, or a broken
rule of the store. -/
inductive Fault where
  | undisciplined
  | raised (e : Err)
  deriving DecidableEq

/-- What the page store holds: the pages of the tree and the state of the allocator. -/
structure Content where
  pageSize : ℕ
  pages : ℕ → Option Page
  root : ℕ
  next : ℕ
  /-- The freelist pages in chain order, each with the ids it lists. -/
  chain : List (ℕ × List ℕ)

/-- The ideal page store. -/
structure Store extends Content where
  /-- Pages that were changed and not marked dirty yet. -/
  pending : List ℕ
  /-- Pages that the current operation has touched. -/
  touched : List ℕ
  /-- How many more pages the current operation may touch. -/
  budget : ℕ

/-- A program over the page store. -/
abbrev StoreM := EStateM Fault Store

/-! ## Pages -/

/-- Raise an exception of the source. -/
def raise {α : Type} (e : Err) : StoreM α := throw (.raised e)

/-- Run a computation of the codec. -/
def codec {α : Type} : Except Err α → StoreM α
  | .ok a => pure a
  | .error e => raise e

/-- A rule of the store. -/
def require (c : Prop) [Decidable c] : StoreM Unit :=
  if c then pure () else throw .undisciplined

/-- Count a page that the current operation uses. -/
def touch (pageId : ℕ) : StoreM Unit := do
  let S ← get
  if pageId ∈ S.touched then pure ()
  else
    require (0 < S.budget)
    set { S with touched := pageId :: S.touched, budget := S.budget - 1 }

/-- `BufferPool.get`. -/
def getPage (pageId : ℕ) : StoreM Unit := do
  let S ← get
  require (pageId ∉ S.pending ∧ (S.pages pageId).isSome)
  touch pageId

/-- The content of a page. -/
def deref (pageId : ℕ) : StoreM Page := do
  match (← get).pages pageId with
  | some page => return page
  | none => throw .undisciplined

def derefInternal (pageId : ℕ) : StoreM InternalPage := do
  match ← deref pageId with
  | .internal page => return page
  | .leaf _ => raise (.assertionError "isinstance(page, InternalPage)")

def derefLeaf (pageId : ℕ) : StoreM LeafPage := do
  match ← deref pageId with
  | .leaf page => return page
  | .internal _ => raise (.assertionError "isinstance(page, LeafPage)")

/-- The store with one page replaced. -/
def Store.setPage (S : Store) (pageId : ℕ) (page : Option Page) : Store :=
  { S with pages := Function.update S.pages pageId page }

/-- Change a page in place. -/
def assign (pageId : ℕ) (page : Page) : StoreM Unit :=
  modify fun S => { S.setPage pageId (some page) with pending := pageId :: S.pending }

/-- `BufferPool.mark_dirty`. -/
def markDirty (pageId lsn : ℕ) : StoreM Unit := do
  let page ← deref pageId
  let S ← get
  require (pageId ∈ S.touched)
  set { S.setPage pageId (some (BufferPool.setLsn (max (BufferPool.pageLsn page) lsn) page)) with
    pending := S.pending.filter (· ≠ pageId) }

/-- `BufferPool.insert`. -/
def insertPage (pageId : ℕ) (page : Page) (lsn : ℕ) : StoreM Unit := do
  let S ← get
  require (S.pages pageId = none ∧ pageId ∉ S.pending)
  touch pageId
  modify fun S => S.setPage pageId (some (BufferPool.setLsn lsn page))

/-- `BufferPool.delete`. -/
def drop (pageId : ℕ) : StoreM Unit :=
  modify fun S =>
    { S.setPage pageId none with pending := S.pending.filter (· ≠ pageId) }

/-! ## The allocator -/

/-- `_bump_allocate_one_page`. -/
def bumpAllocateOnePage : StoreM ℕ := do
  let S ← get
  set { S with next := S.next + 1 }
  return S.next

/-- `allocate_page`. -/
def allocatePage : StoreM ℕ := do
  let S ← get
  match S.chain with
  | [] => bumpAllocateOnePage
  | (head, freed) :: rest =>
      match freed.getLast? with
      | some pageId =>
          require (pageId ∉ S.chain.map Prod.fst)
          set { S with chain := (head, freed.dropLast) :: rest }
          return pageId
      | none =>
          set { S with chain := rest }
          return head

/-- Start a new freelist head that lists `pageId`. -/
def pushFreelistHead (pageId : ℕ) : StoreM Unit := do
  let newHeadPageId ← bumpAllocateOnePage
  let S ← get
  require (newHeadPageId ≠ 0 ∧ newHeadPageId ∉ S.chain.map Prod.fst)
  set { S with chain := (newHeadPageId, [pageId]) :: S.chain }

/-- `free_page`. -/
def freePage (pageId : ℕ) : StoreM Unit := do
  let S ← get
  match S.chain with
  | [] => pushFreelistHead pageId
  | (head, freed) :: rest =>
      if freed.length < getMaxFreedIdsPerFreelistPage S.pageSize then
        set { S with chain := (head, freed ++ [pageId]) :: rest }
      else pushFreelistHead pageId

/-- Install a new root. -/
def setRoot (pageId : ℕ) : StoreM Unit :=
  modify fun S => { S with root := pageId }

/-! ## Descending -/

/-- The loop of `_find_leaf`. -/
def findLeafLoop (key : Bytes) :
    (fuel : ℕ) → (pageId : ℕ) → (path : List PathItem) → StoreM (ℕ × List PathItem)
  | 0, _, _ => raise .diverges
  | fuel + 1, pageId, path => do
      match ← deref pageId with
      | .leaf _ => return (pageId, path)
      | .internal p =>
          let slotIdx := childSlotIndex p key
          match childAt p slotIdx with
          | none => raise .indexError
          | some childPageId =>
              getPage childPageId
              findLeafLoop key fuel childPageId (path ++ [⟨pageId, slotIdx⟩])

/-- `_find_leaf`. -/
def findLeaf (key : Bytes) : StoreM (ℕ × List PathItem) := do
  let S ← get
  getPage S.root
  findLeafLoop key (S.next + 1) S.root []

/-! ## The rebalancing cascade -/

/-- `_split_page`. -/
def splitPage (pageId : ℕ) (parentPageId : Option ℕ) (lsn : ℕ) : StoreM ℕ := do
  let S ← get
  let content ← deref pageId
  let splitSlotIdx := chooseSplitPoint S.pageSize content
  let newSiblingPageId ← allocatePage
  let (promotedKey, left, right) ←
    codec (splitParts content splitSlotIdx newSiblingPageId lsn)
  assign pageId left
  markDirty pageId lsn
  insertPage newSiblingPageId right lsn
  match parentPageId with
  | none =>
      let newRootPageId ← allocatePage
      insertPage newRootPageId (.internal ⟨lsn, pageId, [⟨promotedKey, newSiblingPageId⟩]⟩) lsn
      setRoot newRootPageId
      return newRootPageId
  | some parentPageId =>
      getPage parentPageId
      let parentPage ← derefInternal parentPageId
      assign parentPageId (.internal { parentPage with
        slots := insortInternal parentPage.slots ⟨promotedKey, newSiblingPageId⟩ })
      return parentPageId

/-- A sibling under the same parent. -/
structure SiblingId where
  isLeft : Bool
  pageId : ℕ
  deriving DecidableEq

def fetchSibling (isLeft : Bool) : Option ℕ → StoreM (List SiblingId)
  | none => return []
  | some pageId => do
      getPage pageId
      return [⟨isLeft, pageId⟩]

/-- The ids of the siblings that exist, the left one first. -/
def siblingIds (parent : InternalPage) (parentSlotIdx : ℤ) : List ℕ :=
  (leftSiblingId parent parentSlotIdx).toList ++ (rightSiblingId parent parentSlotIdx).toList

/-- `_determine_same_parent_siblings`. -/
def determineSameParentSiblings (parent : InternalPage) (parentSlotIdx : ℤ) :
    StoreM (List SiblingId) := do
  let left ← fetchSibling true (leftSiblingId parent parentSlotIdx)
  let right ← fetchSibling false (rightSiblingId parent parentSlotIdx)
  return left ++ right

/-- The slot of the separator between a page and its sibling. -/
def separatorIdx (sibling : SiblingId) (parentSlotIdx : ℤ) : ℕ :=
  (if sibling.isLeft then parentSlotIdx else parentSlotIdx + 1).toNat

/-- `_try_redistribute_slots`. -/
def tryRedistributeSlots (donor recipient parent : ℕ) (parentSeparatorIdx : ℕ)
    (donorIsLeft : Bool) : StoreM Bool := do
  let S ← get
  let parentPage ← derefInternal parent
  match parentPage.slots[parentSeparatorIdx]? with
  | none => raise .indexError
  | some parentSlot =>
      let donorPage ← deref donor
      let recipientPage ← deref recipient
      let (r, outcome) := rotateSlots S.pageSize donorIsLeft (slotCount donorPage + 2)
        ⟨donorPage, recipientPage, parentSlot.key⟩
      let store : StoreM Unit := do
        assign donor r.donor
        assign recipient r.recipient
        assign parent (.internal (setSeparator parentPage parentSeparatorIdx r.separator))
      match outcome with
      | .succeeded => store; return true
      | .donorExhausted => return false
      | .raised e => store; raise e

/-- The redistribution loop of `_redistribute_or_merge_page`. -/
def redistributeWith (pageId parent : ℕ) (parentSlotIdx : ℤ) :
    List SiblingId → StoreM (Option SiblingId)
  | [] => return none
  | sibling :: rest => do
      if ← tryRedistributeSlots sibling.pageId pageId parent
          (separatorIdx sibling parentSlotIdx) sibling.isLeft then
        return some sibling
      else redistributeWith pageId parent parentSlotIdx rest

/-- The pages of a merge: into the left one, from the right one. -/
def mergeIds (pageId : ℕ) (sibling : SiblingId) : ℕ × ℕ :=
  if sibling.isLeft then (sibling.pageId, pageId) else (pageId, sibling.pageId)

/-- The merge loop of `_redistribute_or_merge_page`. -/
def mergeWith (pageId parentPageId : ℕ) (parentSlotIdx : ℤ) (lsn : ℕ) :
    List SiblingId → StoreM (Option (Option ℕ))
  | [] => return none
  | sibling :: rest => do
      let S ← get
      let (intoId, fromId) := mergeIds pageId sibling
      let idx := separatorIdx sibling parentSlotIdx
      let parentPage ← derefInternal parentPageId
      let into ← deref intoId
      let from_ ← deref fromId
      let probe ← codec (mergeProbe into from_ parentPage.slots[idx]?)
      if S.pageSize < calculatePageSize probe then
        mergeWith pageId parentPageId parentSlotIdx lsn rest
      else
        assign intoId (mergedContent into probe)
        if parentPage.slots.length ≤ idx then raise .indexError
        let slots := parentPage.slots.eraseIdx idx
        assign parentPageId (.internal { parentPage with slots })
        markDirty intoId lsn
        markDirty parentPageId lsn
        drop fromId
        freePage fromId
        if slots = [] ∧ parentPageId = (← get).root then
          setRoot parentPage.leftmostChildPageId
          drop parentPageId
          freePage parentPageId
          return some none
        else
          return some (some parentPageId)

/-- The message of the exception that the source takes to be unreachable. -/
def stuckMessage : String :=
  "Expected to either redistribute or merge the pages. This should not happen."

/-- `_redistribute_or_merge_page`. -/
def redistributeOrMergePage (pageId : ℕ) (pathItem : Option PathItem) (lsn : ℕ) :
    StoreM (Option ℕ) := do
  match pathItem with
  | none => return none
  | some ⟨parentPageId, parentSlotIdx⟩ =>
      require (parentPageId ≠ pageId)
      getPage parentPageId
      let parentPage ← derefInternal parentPageId
      require ((pageId :: parentPageId :: siblingIds parentPage parentSlotIdx).Nodup)
      let siblings ← determineSameParentSiblings parentPage parentSlotIdx
      match ← redistributeWith pageId parentPageId parentSlotIdx siblings with
      | some sibling =>
          markDirty pageId lsn
          markDirty sibling.pageId lsn
          let S ← get
          let parentContent ← deref parentPageId
          if isPageOverpopulated S.pageSize parentContent ||
              isPageUnderpopulated S.pageSize parentContent then
            return some parentPageId
          else
            markDirty parentPageId lsn
            return none
      | none =>
          match ← mergeWith pageId parentPageId parentSlotIdx lsn siblings with
          | some modifiedParent => return modifiedParent
          | none => raise (.assertionError stuckMessage)

/-- The loop of `_balance_and_write_tree`. -/
def balanceLoop (lsn : ℕ) : (fuel : ℕ) → (pageId : ℕ) → (path : List PathItem) → StoreM Unit
  | 0, _, _ => raise .diverges
  | fuel + 1, pageId, path => do
      let S ← get
      let content ← deref pageId
      if isPageOverpopulated S.pageSize content then
        let parentPageId ← splitPage pageId (path.head?.map (·.parentPageId)) lsn
        balanceLoop lsn fuel parentPageId path.tail
      else if isPageUnderpopulated S.pageSize content ∧ pageId ≠ S.root then
        match ← redistributeOrMergePage pageId path.head? lsn with
        | some parentPageId => balanceLoop lsn fuel parentPageId path.tail
        | none => return
      else
        markDirty pageId lsn

/-- `_balance_and_write_tree`. -/
def balanceAndWriteTree (pageId : ℕ) (path : List PathItem) (lsn : ℕ) : StoreM Unit :=
  balanceLoop lsn (path.length + 2) pageId path.reverse

/-! ## Public operations -/

/-- `raise_if_record_too_large`. -/
def raiseIfRecordTooLarge (key value : Bytes) : StoreM Unit := do
  let limit := getMaxLeafRecordSize (← get).pageSize
  let actual := calculateLeafRecordSize key value
  if limit < actual then raise (.recordTooLarge limit actual)

/-- `BPlusTree.search`. -/
def search (key : Bytes) : StoreM (Option Bytes) := do
  let (leafPageId, _) ← findLeaf key
  let page ← derefLeaf leafPageId
  return (findSlot page key).map (·.value)

/-- `BPlusTree.insert`. -/
def insert (key value : Bytes) (lsn : ℕ) : StoreM Unit := do
  raiseIfRecordTooLarge key value
  let (leafPageId, path) ← findLeaf key
  let page ← derefLeaf leafPageId
  assign leafPageId (.leaf { page with slots := upsertSlot page.slots key value })
  balanceAndWriteTree leafPageId path lsn

/-- `BPlusTree.delete`. -/
def delete (key : Bytes) (lsn : ℕ) : StoreM Bool := do
  let (leafPageId, path) ← findLeaf key
  let page ← derefLeaf leafPageId
  match findSlot page key with
  | none => return false
  | some _ =>
      let slotIdx := bisectLeft (page.slots.map (·.key)) key
      assign leafPageId (.leaf { page with slots := page.slots.eraseIdx slotIdx })
      balanceAndWriteTree leafPageId path lsn
      return true

/-- The leaf walk of `BPlusTree.scan`.  A scan keeps no page, so every leaf is
fetched with a fresh budget. -/
def scanLoop (endKeyExclusive : Option Bytes) :
    (fuel : ℕ) → (page : LeafPage) → (startSlotIdx : ℕ) → StoreM (List (Bytes × Bytes))
  | 0, _, _ => raise .diverges
  | fuel + 1, page, startSlotIdx => do
      let (pairs, more) := scanSlots endKeyExclusive (page.slots.drop startSlotIdx)
      if more ∧ 0 < page.rightSiblingPageId then
        let next ← derefLeaf page.rightSiblingPageId
        return pairs ++ (← scanLoop endKeyExclusive fuel next 0)
      else return pairs

/-- `BPlusTree.scan`, fully consumed. -/
def scan (startKeyInclusive endKeyExclusive : Option Bytes) :
    StoreM (List (Bytes × Bytes)) := do
  let startKey := startKeyInclusive.getD []
  let (leafPageId, _) ← findLeaf startKey
  let page ← derefLeaf leafPageId
  scanLoop endKeyExclusive ((← get).next + 1) page
    (bisectLeft (page.slots.map (·.key)) startKey)

end BPTreeDB.PageStore
