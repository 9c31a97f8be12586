import BPTreeDB.Model.DB

/-!
# Scan iterators

`DB.scan` returns a generator: its body starts at the first `next()`, runs to a `yield`
and resumes there at the following `next()`.  Here one `next()` is one run of the body from
where it stands to the next `yield` or to its end.
-/

namespace BPTreeDB.DB

open Lib Eng Codec

/-- Where the body of the generator stands. -/
inductive Generator where
  | created
  /-- At the `yield` in a leaf; the `islice` goes on with the slot of this index. -/
  | suspended (leafPage : Ref) (nextSlotIdx : ℕ)
  | finished
  deriving DecidableEq, Repr

/-- The iterator that `DB.scan` returns. -/
structure ScanIterator where
  versionSnapshot : ℕ
  startKeyInclusive : Option Bytes
  endKeyExclusive : Option Bytes
  generator : Generator
  deriving DecidableEq, Repr

/-- `DB.scan`, up to the return of the iterator. -/
def scanIterator (startKeyInclusive endKeyExclusive : Option PyArg) : Eng ScanIterator := do
  checkIfOpened
  let startKey ← ensureBound startKeyInclusive "start_key_inclusive"
  let endKey ← ensureBound endKeyExclusive "end_key_exclusive"
  return ⟨(← MonadState.get).versionCounter, startKey, endKey, .created⟩

namespace ScanIterator

/-- `check_version`. -/
def checkVersion (it : ScanIterator) : Eng Unit := do
  if it.versionSnapshot ≠ (← MonadState.get).versionCounter then throw .concurrentPageModification

/-- What `next()` gives: a pair and the generator at its `yield`, or the end of the
iteration. -/
abbrev Step := Option ((Bytes × Bytes) × Generator)

/-- The test on `end_key_exclusive`. -/
def reachedEnd (it : ScanIterator) (key : Bytes) : Bool :=
  match it.endKeyExclusive with
  | none => false
  | some endKey => decide (endKey ≤ key)

/-- The loops of `BPlusTree.scan` up to the next `yield`, from a slot of a leaf on.
`slots` are the elements of the list that the `islice` walks. -/
def walk (it : ScanIterator) :
    (fuel : ℕ) → (leafPage : Ref) → (slots : List LeafSlot) → (slotIdx : ℕ) → Eng Step
  | 0, _, _, _ => throw .diverges
  | fuel + 1, leafPage, slots, slotIdx => do
      match slots[slotIdx]? with
      | some slot =>
          if it.reachedEnd slot.key then return none
          -- The check before the `yield`.
          it.checkVersion
          return some ((slot.key, slot.value), .suspended leafPage (slotIdx + 1))
      | none =>
          let page ← BPlusTree.derefLeaf leafPage
          if 0 < page.rightSiblingPageId then
            let right ← BufferPool.get page.rightSiblingPageId
            let rightPage ← BPlusTree.derefLeaf right
            walk it fuel right rightPage.slots 0
          else return none

/-- A walk through more leaves than were ever allocated goes round in a circle. -/
def walkFuel (w : World) : ℕ :=
  (w.pager.metaPage.map (·.nextPageId)).getD 0 + 1

/-- `next()`.  A split or a merge gives a page another list of slots, while a suspended
`islice` keeps the list it has: `walked` are the elements of that list when the generator
resumes. -/
def next (it : ScanIterator) (walked : List LeafSlot) : Eng Step := do
  match it.generator with
  | .created =>
      let startKey := it.startKeyInclusive.getD []
      let result ← BPlusTree.findLeaf startKey
      let page ← BPlusTree.derefLeaf result.leafPage
      it.walk (walkFuel (← MonadState.get)) result.leafPage page.slots
        (BPlusTree.bisectLeft (page.slots.map (·.key)) startKey)
  | .suspended leafPage nextSlotIdx =>
      -- The check behind the `yield`.
      it.checkVersion
      it.walk (walkFuel (← MonadState.get)) leafPage walked nextSlotIdx
  | .finished => return none

end ScanIterator

end BPTreeDB.DB
