import BPTreeDB.Lib.Bytes

/-!
# Domain entities and exceptions

The records of `entities.py` and the exceptions that the engine can raise.  A
page that the tree works on is a `Page`; a page as the codec sees it is an
`AnyPage`, which may also be a freelist page.
-/

namespace BPTreeDB

open Lib

/-- The entries of the write-ahead log. -/
inductive WALRecord where
  | put (lsn : ℕ) (key value : Bytes)
  | delete (lsn : ℕ) (key : Bytes)
  | checkpoint (lsn rootPageId freelistHead nextPageId : ℕ)
  deriving DecidableEq, Repr

/-- The log sequence number of a record. -/
def WALRecord.lsn : WALRecord → ℕ
  | .put lsn _ _ => lsn
  | .delete lsn _ => lsn
  | .checkpoint lsn _ _ _ => lsn

/-- The first page of the data file, the global state of the database. -/
structure MetaPage where
  pageSizeBytes : ℕ
  rootPageId : ℕ
  nextPageId : ℕ
  freelistHeadPageId : ℕ
  lastCheckpointLsn : ℕ
  deriving DecidableEq, Repr

/-- A separator key and the child to its right. -/
structure InternalSlot where
  key : Bytes
  childPageId : ℕ
  deriving DecidableEq, Repr

/-- An internal node: it routes searches through its separator keys. -/
structure InternalPage where
  lastModifiedLsn : ℕ
  leftmostChildPageId : ℕ
  slots : List InternalSlot
  deriving DecidableEq, Repr

/-- A key with its value. -/
structure LeafSlot where
  key : Bytes
  value : Bytes
  deriving DecidableEq, Repr

/-- A leaf: it holds the key/value pairs and a link to the leaf on its right. -/
structure LeafPage where
  lastModifiedLsn : ℕ
  rightSiblingPageId : ℕ
  slots : List LeafSlot
  deriving DecidableEq, Repr

/-- A page that lists freed page ids for reuse by the allocator. -/
structure FreelistPage where
  lastModifiedLsn : ℕ
  nextFreelistPageId : ℕ
  freedPageIds : List ℕ
  deriving DecidableEq, Repr

/-- A page of the tree. -/
inductive Page where
  | leaf (page : LeafPage)
  | internal (page : InternalPage)
  deriving DecidableEq, Repr

/-- Any page that the codec can encode. -/
inductive AnyPage where
  | tree (page : Page)
  | freelist (page : FreelistPage)
  deriving DecidableEq, Repr

/-- The exceptions that leave the engine.  `diverges` marks a `while` loop of the
source that would not end, and `powerLoss` a machine that stops in the middle of
an operation: no handler of the source catches it. -/
inductive Err where
  | closed
  | corrupted (message : String)
  | checksum (expected actual : ℕ)
  | recordTooLarge (limit : ℤ) (actual : ℕ)
  | concurrentPageModification
  | bufferPoolOverflow
  | keyError (pageId : ℕ)
  | indexError
  | assertionError (message : String)
  | valueError (message : String)
  | typeError (message : String)
  | structError
  | eofError
  | zeroDivision
  | diverges
  | powerLoss
  deriving DecidableEq, Repr

/-- `DBCorruptedError`, of which `DBChecksumError` is a subclass. -/
def IsCorruptedError (e : Err) : Prop :=
  (∃ message, e = .corrupted message) ∨ ∃ expected actual, e = .checksum expected actual

end BPTreeDB
