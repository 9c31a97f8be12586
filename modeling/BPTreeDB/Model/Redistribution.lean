import BPTreeDB.Model.Tree

/-!
# Redistribution with its backups

`_try_redistribute_slots` moves slots between two page objects, writes the separator key into
a slot object of their parent, and when the donor runs out takes the slots and the leftmost
children of all three pages back from deep copies.  Here the function works on the contents
of the three page objects, with the copies made and restored as the source does it.
-/

namespace BPTreeDB.BPlusTree

open Lib Eng Codec

/-- The contents of the three page objects. -/
structure Neighbours where
  donor : Page
  recipient : Page
  parent : InternalPage
  deriving DecidableEq, Repr

/-- The page on the left. -/
def Neighbours.left (pages : Neighbours) (donorIsLeft : Bool) : Page :=
  if donorIsLeft then pages.donor else pages.recipient

/-- The page on the right. -/
def Neighbours.right (pages : Neighbours) (donorIsLeft : Bool) : Page :=
  if donorIsLeft then pages.recipient else pages.donor

/-- What a page takes back from its backup. -/
def restorePage : (page backup : Page) → Page
  | .leaf page, .leaf backup => .leaf { page with slots := backup.slots }
  | .internal page, .internal backup =>
      .internal { page with
        slots := backup.slots, leftmostChildPageId := backup.leftmostChildPageId }
  | page, _ => page

/-- The restored pages.  The leftmost child of the parent was not changed. -/
def restoreNeighbours (pages backup : Neighbours) : Neighbours where
  donor := restorePage pages.donor backup.donor
  recipient := restorePage pages.recipient backup.recipient
  parent := { pages.parent with slots := backup.parent.slots }

/-- `_try_redistribute_slots` on the contents of the pages.  An exception leaves them as far
changed as they are at that moment. -/
def redistribute (pageSizeBytes : ℕ) (pages : Neighbours) (parentSeparatorIdx : ℕ)
    (donorIsLeft : Bool) : Except Err Bool × Neighbours :=
  match pages.parent.slots[parentSeparatorIdx]? with
  | none => (.error .indexError, pages)
  | some parentSlot =>
      let backup := pages
      let (r, outcome) := rotateSlots pageSizeBytes donorIsLeft (slotCount pages.donor + 2)
        ⟨pages.donor, pages.recipient, parentSlot.key⟩
      -- The separator is written into a slot object of the parent.
      let moved : Neighbours :=
        ⟨r.donor, r.recipient, setSeparator pages.parent parentSeparatorIdx r.separator⟩
      match outcome with
      | .succeeded => (.ok true, moved)
      | .donorExhausted => (.ok false, restoreNeighbours moved backup)
      | .raised e => (.error e, moved)

end BPTreeDB.BPlusTree
