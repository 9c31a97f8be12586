import BPTreeDB.Model.Entities

/-!
# Wire format of pages and WAL records

The encoders and decoders of `codec.py`.  `struct` refuses a number that does
not fit its field and a buffer that is too short for the fields read from it;
both are the exception `structError` here.
-/

namespace BPTreeDB.Codec

open Lib

/-! ## Field sizes -/

def lengthFieldSize : ℕ := 4
def crc32FieldSize : ℕ := 4
def pageIdFieldSize : ℕ := 8
/-- `struct.calcsize("<QB")`. -/
def walRecordHeaderSize : ℕ := 9
/-- `struct.calcsize("<8sIIQQQQ")`. -/
def metaPageNoCrcSize : ℕ := 48
/-- `struct.calcsize("<B3sIIIQQ")`. -/
def pageHeaderSize : ℕ := 32
/-- `struct.calcsize("<II")`. -/
def slotEntrySize : ℕ := 8

/-- The magic prefix `BPTREEDB` of a data file. -/
def dataFileMagicPrefix : Bytes := [66, 80, 84, 82, 69, 69, 68, 66]
def dataFileVersion : ℕ := 1
def minPageSize : ℕ := metaPageNoCrcSize + crc32FieldSize

/-! ## Packing and unpacking -/

/-- `struct.pack` of one unsigned little-endian field. -/
def pack (width n : ℕ) : Except Err Bytes :=
  if n < 256 ^ width then .ok (packLE width n) else .error .structError

/-- `struct.unpack_from` of one unsigned little-endian field. -/
def unpackFrom (data : Bytes) (offset width : ℕ) : Except Err ℕ :=
  if offset + width ≤ data.length then .ok (unpackLE (readAt data offset width))
  else .error .structError

/-- `BufferWriter.write_length_prefixed_bytes` on an empty writer. -/
def lengthPrefixed (value : Bytes) : Except Err Bytes := do
  return (← pack lengthFieldSize value.length) ++ value

/-- `BufferReader.read_length_prefixed_bytes` at `offset`: the payload and the
offset after it.  The payload is a slice, so it is cut at the end of the data. -/
def readLengthPrefixed (data : Bytes) (offset : ℕ) : Except Err (Bytes × ℕ) := do
  let length ← unpackFrom data offset lengthFieldSize
  let start := offset + lengthFieldSize
  return (readAt data start length, start + length)

/-! ## CRC-32 -/

/-- One shift of the reflected CRC-32 register. -/
def crc32Shift (crc : UInt32) : UInt32 :=
  if crc &&& 1 = 1 then (crc >>> 1) ^^^ 0xEDB88320 else crc >>> 1

/-- The register after one more byte. -/
def crc32Byte (crc : UInt32) (b : Byte) : UInt32 :=
  let crc := crc ^^^ UInt32.ofNat b.val
  crc32Shift (crc32Shift (crc32Shift (crc32Shift
    (crc32Shift (crc32Shift (crc32Shift (crc32Shift crc)))))))

/-- `zlib.crc32`. -/
def crc32 (data : Bytes) : ℕ :=
  (data.foldl crc32Byte 0xFFFFFFFF ^^^ 0xFFFFFFFF).toNat

/-- `verify_crc32`: the last four bytes are the CRC of the bytes before them. -/
def verifyCrc32 (data : Bytes) : Except Err Unit := do
  let actual := crc32 (data.take (data.length - crc32FieldSize))
  let tail := data.drop (data.length - crc32FieldSize)
  if tail.length ≠ crc32FieldSize then throw .structError
  let expected := unpackLE tail
  if actual ≠ expected then throw (.checksum expected actual)

/-! ## WAL records -/

/-- The tag byte of a record. -/
def walOperationType : WALRecord → ℕ
  | .put .. => 1
  | .delete .. => 2
  | .checkpoint .. => 3

def encodeWalPayload : WALRecord → Except Err Bytes
  | .put _ key value => do return (← lengthPrefixed key) ++ (← lengthPrefixed value)
  | .delete _ key => lengthPrefixed key
  | .checkpoint _ rootPageId freelistHead nextPageId => do
      return (← pack 8 rootPageId) ++ (← pack 8 freelistHead) ++ (← pack 8 nextPageId)

/-- `encode_wal_record`: length prefix, header, payload and CRC. -/
def encodeWalRecord (record : WALRecord) : Except Err Bytes := do
  let payload ← encodeWalPayload record
  let header := (← pack 8 record.lsn) ++ (← pack 1 (walOperationType record))
  let length ← pack lengthFieldSize (header.length + payload.length + crc32FieldSize)
  let body := length ++ header ++ payload
  return body ++ packLE crc32FieldSize (crc32 body)

/-- `decode_wal_record`, on the bytes of one whole record. -/
def decodeWalRecord (data : Bytes) : Except Err WALRecord := do
  verifyCrc32 data
  let lsn ← unpackFrom data 4 8
  let opType ← unpackFrom data 12 1
  match opType with
  | 1 =>
      let (key, offset) ← readLengthPrefixed data 13
      let (value, _) ← readLengthPrefixed data offset
      return .put lsn key value
  | 2 =>
      let (key, _) ← readLengthPrefixed data 13
      return .delete lsn key
  | 3 =>
      let rootPageId ← unpackFrom data 13 8
      let freelistHead ← unpackFrom data 21 8
      let nextPageId ← unpackFrom data 29 8
      return .checkpoint lsn rootPageId freelistHead nextPageId
  | _ => throw (.valueError ("Unknown operation type " ++ toString opType))

/-- `decode_next_wal_record_from_file`: the record that starts at the head of the
unread bytes, with the bytes that follow it.  The file position has moved past the
record also when its checksum does not match, so the rest is returned either way. -/
def decodeNextWalRecord (unread : Bytes) : Except Err WALRecord × Bytes :=
  if unread.length < lengthFieldSize then (.error .eofError, [])
  else
    let recordLength := unpackLE (unread.take lengthFieldSize)
    let total := lengthFieldSize + recordLength
    if unread.length < total then (.error .eofError, [])
    else (decodeWalRecord (unread.take total), unread.drop total)

/-! ## The meta page -/

/-- `encode_meta_page`. -/
def encodeMetaPage (page : MetaPage) : Except Err Bytes := do
  let fields := dataFileMagicPrefix ++ (← pack 4 dataFileVersion) ++
    (← pack 4 page.pageSizeBytes) ++ (← pack 8 page.rootPageId) ++
    (← pack 8 page.nextPageId) ++ (← pack 8 page.freelistHeadPageId) ++
    (← pack 8 page.lastCheckpointLsn)
  let encoded := fields ++ packLE crc32FieldSize (crc32 fields)
  -- `bytes(n)` raises a `ValueError` for a negative count.
  if page.pageSizeBytes < encoded.length then throw (.valueError "negative count")
  return encoded ++ List.replicate (page.pageSizeBytes - encoded.length) 0

/-- `decode_meta_page`. -/
def decodeMetaPage (data : Bytes) : Except Err MetaPage := do
  let data := data.take (metaPageNoCrcSize + crc32FieldSize)
  if data.take dataFileMagicPrefix.length ≠ dataFileMagicPrefix then
    throw (.corrupted "Magic prefix not found")
  verifyCrc32 data
  if data.length < metaPageNoCrcSize then throw .structError
  return {
    pageSizeBytes := unpackLE (readAt data 12 4)
    rootPageId := unpackLE (readAt data 16 8)
    nextPageId := unpackLE (readAt data 24 8)
    freelistHeadPageId := unpackLE (readAt data 32 8)
    lastCheckpointLsn := unpackLE (readAt data 40 8) }

/-! ## Tree and freelist pages -/

def encodeLeafSlot (slot : LeafSlot) : Except Err Bytes := do
  return (← lengthPrefixed slot.key) ++ (← lengthPrefixed slot.value)

def encodeInternalSlot (slot : InternalSlot) : Except Err Bytes := do
  return (← lengthPrefixed slot.key) ++ (← pack pageIdFieldSize slot.childPageId)

/-- The slot loop of `encode_page`: pack each record backward from `recordEnd` and
collect its directory entry.  A record that would start before the page gives a
negative offset, which `struct` refuses to pack. -/
def packRecords : (buffer : Bytes) → (recordEnd : ℕ) → (directory : Bytes) → List Bytes →
    Except Err (Bytes × ℕ × Bytes)
  | buffer, recordEnd, directory, [] => .ok (buffer, recordEnd, directory)
  | buffer, recordEnd, directory, record :: rest => do
      if recordEnd < record.length then throw .structError
      let start := recordEnd - record.length
      let entry := (← pack 4 start) ++ (← pack 4 record.length)
      packRecords (sliceAssign buffer start recordEnd record) start (directory ++ entry) rest

/-- The page header. -/
def encodeHeader (pageType count freeSpaceStart freeSpaceEnd lsn pageIdField : ℕ) :
    Except Err Bytes := do
  return (← pack 1 pageType) ++ [0, 0, 0] ++ (← pack 4 count) ++ (← pack 4 freeSpaceStart) ++
    (← pack 4 freeSpaceEnd) ++ (← pack 8 lsn) ++ (← pack 8 pageIdField)

/-- Header and directory are written last, over the start of the buffer. -/
def finishPage (buffer header body : Bytes) : Bytes :=
  let buffer := sliceAssign buffer 0 header.length header
  sliceAssign buffer header.length (header.length + body.length) body

def encodeSlotted (pageType lsn pageIdField pageSizeBytes : ℕ) (records : List Bytes) :
    Except Err Bytes := do
  let (buffer, recordEnd, directory) ←
    packRecords (List.replicate pageSizeBytes 0) pageSizeBytes [] records
  let header ← encodeHeader pageType records.length
    (pageHeaderSize + slotEntrySize * records.length) recordEnd lsn pageIdField
  return finishPage buffer header directory

/-- `encode_page`. -/
def encodePage (page : AnyPage) (pageSizeBytes : ℕ) : Except Err Bytes :=
  match page with
  | .tree (.internal p) => do
      let records ← p.slots.mapM encodeInternalSlot
      encodeSlotted 1 p.lastModifiedLsn p.leftmostChildPageId pageSizeBytes records
  | .tree (.leaf p) => do
      let records ← p.slots.mapM encodeLeafSlot
      encodeSlotted 2 p.lastModifiedLsn p.rightSiblingPageId pageSizeBytes records
  | .freelist p => do
      let ids ← p.freedPageIds.mapM (pack pageIdFieldSize)
      let header ← encodeHeader 3 p.freedPageIds.length 0 0 p.lastModifiedLsn
        p.nextFreelistPageId
      return finishPage (List.replicate pageSizeBytes 0) header ids.flatten

def decodeLeafSlot (record : Bytes) : Except Err LeafSlot := do
  let (key, offset) ← readLengthPrefixed record 0
  let (value, _) ← readLengthPrefixed record offset
  return ⟨key, value⟩

def decodeInternalSlot (record : Bytes) : Except Err InternalSlot := do
  let (key, offset) ← readLengthPrefixed record 0
  let childPageId ← unpackFrom record offset pageIdFieldSize
  return ⟨key, childPageId⟩

/-- The slot loop of `decode_page`: follow `count` directory entries from `offset`. -/
def decodeSlots {α : Type} (decodeSlot : Bytes → Except Err α) (data : Bytes) :
    (count offset : ℕ) → Except Err (List α)
  | 0, _ => .ok []
  | count + 1, offset => do
      let recordOffset ← unpackFrom data offset 4
      let recordLength ← unpackFrom data (offset + 4) 4
      let slot ← decodeSlot (readAt data recordOffset recordLength)
      return slot :: (← decodeSlots decodeSlot data count (offset + slotEntrySize))

/-- The id loop of `decode_page` for a freelist page. -/
def decodeIds (data : Bytes) : (count offset : ℕ) → Except Err (List ℕ)
  | 0, _ => .ok []
  | count + 1, offset => do
      let pageId ← unpackFrom data offset pageIdFieldSize
      return pageId :: (← decodeIds data count (offset + pageIdFieldSize))

/-- `decode_page`. -/
def decodePage (data : Bytes) : Except Err AnyPage := do
  if data.length < pageHeaderSize then throw .structError
  let count := unpackLE (readAt data 4 4)
  let lsn := unpackLE (readAt data 16 8)
  let pageIdField := unpackLE (readAt data 24 8)
  let pageType := unpackLE (readAt data 0 1)
  match pageType with
  | 1 =>
      let slots ← decodeSlots decodeInternalSlot data count pageHeaderSize
      return .tree (.internal ⟨lsn, pageIdField, slots⟩)
  | 2 =>
      let slots ← decodeSlots decodeLeafSlot data count pageHeaderSize
      return .tree (.leaf ⟨lsn, pageIdField, slots⟩)
  | 3 =>
      let ids ← decodeIds data count pageHeaderSize
      return .freelist ⟨lsn, pageIdField, ids⟩
  | _ => throw (.valueError ("Unknown page type " ++ toString pageType))

/-! ## Sizes -/

/-- `calculate_slot_size(slot, include_meta=True)` of a leaf slot. -/
def leafSlotSize (slot : LeafSlot) : ℕ :=
  slotEntrySize + lengthFieldSize * 2 + slot.key.length + slot.value.length

/-- `calculate_slot_size(slot, include_meta=True)` of an internal slot. -/
def internalSlotSize (slot : InternalSlot) : ℕ :=
  slotEntrySize + lengthFieldSize + slot.key.length + pageIdFieldSize

/-- The slot sizes of a page, directory entries included. -/
def slotSizes : Page → List ℕ
  | .leaf p => p.slots.map leafSlotSize
  | .internal p => p.slots.map internalSlotSize

/-- `calculate_page_size`. -/
def calculatePageSize (page : Page) : ℕ :=
  pageHeaderSize + (slotSizes page).sum

/-- `calculate_leaf_record_size`. -/
def calculateLeafRecordSize (key value : Bytes) : ℕ :=
  lengthFieldSize * 2 + key.length + value.length

/-- `get_max_leaf_record_size`: a fifth of the page body, less the directory entry. -/
def getMaxLeafRecordSize (pageSizeBytes : ℕ) : ℤ :=
  ((pageSizeBytes : ℤ) - pageHeaderSize) / 5 - slotEntrySize

/-- `get_max_freed_ids_per_freelist_page`. -/
def getMaxFreedIdsPerFreelistPage (pageSizeBytes : ℕ) : ℤ :=
  ((pageSizeBytes : ℤ) - pageHeaderSize) / pageIdFieldSize

end BPTreeDB.Codec
