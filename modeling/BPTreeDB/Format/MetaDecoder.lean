import BPTreeDB.Format.MetaPage

/-!
# What the meta page decoder accepts

`decode_meta_page` checks the magic prefix and the checksum of the first 52 bytes, and
nothing else.  On a block that passes both it reads the fields, whatever the format version
and the page size are.
-/

namespace BPTreeDB.Codec

open Lib

variable {m : MetaPage} {data : Bytes} {e : Err}

/-- The bytes that the decoder looks at. -/
def metaBlock (data : Bytes) : Bytes := data.take (metaPageNoCrcSize + crc32FieldSize)

/-- The format version in the block. -/
def versionField (data : Bytes) : ℕ := unpackLE (readAt (metaBlock data) 8 4)

/-- The page size in the block. -/
def pageSizeField (data : Bytes) : ℕ := unpackLE (readAt (metaBlock data) 12 4)

/-- The block has the magic prefix and its own checksum. -/
structure Checked (data : Bytes) : Prop where
  magic : (metaBlock data).take dataFileMagicPrefix.length = dataFileMagicPrefix
  crc : verifyCrc32 (metaBlock data) = .ok ()

/-- The meta page that the fields of a block give. -/
def metaOf (data : Bytes) : MetaPage where
  pageSizeBytes := pageSizeField data
  rootPageId := unpackLE (readAt (metaBlock data) 16 8)
  nextPageId := unpackLE (readAt (metaBlock data) 24 8)
  freelistHeadPageId := unpackLE (readAt (metaBlock data) 32 8)
  lastCheckpointLsn := unpackLE (readAt (metaBlock data) 40 8)

theorem length_metaBlock (h : 52 ≤ data.length) : (metaBlock data).length = 52 := by
  simp only [metaBlock, metaPageNoCrcSize, crc32FieldSize, List.length_take]
  omega

theorem decodeMetaPage_of_checked (h : 52 ≤ data.length) (hchecked : Checked data) :
    decodeMetaPage data = .ok (metaOf data) := by
  have hlen : ¬ (metaBlock data).length < metaPageNoCrcSize := by
    rw [length_metaBlock h, metaPageNoCrcSize]
    norm_num
  have hmagic := hchecked.magic
  have hcrc := hchecked.crc
  unfold metaBlock at hlen hmagic hcrc
  simp only [decodeMetaPage, hmagic, hcrc, ne_eq, not_true_eq_false, if_false, if_neg hlen, bind,
    Except.bind, pure, Except.pure]
  rfl

theorem decodeMetaPage_of_not_checked (h : 52 ≤ data.length) (hchecked : ¬ Checked data) :
    ∃ e, decodeMetaPage data = .error e ∧ IsCorruptedError e := by
  by_cases hmagic : (metaBlock data).take dataFileMagicPrefix.length = dataFileMagicPrefix
  · obtain hcrc | ⟨expected, actual, hcrc⟩ := verifyCrc32_cases (metaBlock data) (by
        rw [length_metaBlock h, crc32FieldSize]
        norm_num)
    · exact absurd ⟨hmagic, hcrc⟩ hchecked
    · refine ⟨_, ?_, .inr ⟨expected, actual, rfl⟩⟩
      unfold metaBlock at hmagic hcrc
      simp only [decodeMetaPage, hmagic, hcrc, ne_eq, not_true_eq_false, if_false, bind,
        Except.bind]
  · refine ⟨_, ?_, .inl ⟨"Magic prefix not found", rfl⟩⟩
    unfold metaBlock at hmagic
    simp only [decodeMetaPage, ne_eq, hmagic, not_false_eq_true, if_true]
    rfl

/-! ## The format that this version writes -/

/-- The first bytes of `data` are those of the encoded meta page. -/
def IsFormat (data : Bytes) (m : MetaPage) : Prop :=
  minPageSize ≤ m.pageSizeBytes ∧
    ∃ bytes, encodeMetaPage m = .ok bytes ∧ data.take minPageSize = bytes.take minPageSize

theorem isFormat_iff : IsFormat data m ↔ MetaEncodable m ∧ metaBlock data = metaBytes m := by
  have htake : ∀ tail : Bytes, (metaBytes m ++ tail).take minPageSize = metaBytes m :=
    fun tail => List.take_left' (length_metaBytes m)
  constructor
  · rintro ⟨-, bytes, hencode, hblock⟩
    have hencodable := metaEncodable_of_encodeMetaPage hencode
    rw [encodeMetaPage_eq_ok hencodable] at hencode
    obtain rfl := Except.ok.inj hencode
    rw [htake] at hblock
    exact ⟨hencodable, hblock⟩
  · rintro ⟨hencodable, hblock⟩
    refine ⟨hencodable.large, _, encodeMetaPage_eq_ok hencodable, ?_⟩
    rw [htake]
    exact hblock

theorem IsFormat.decode (h : IsFormat data m) : decodeMetaPage data = .ok m := by
  obtain ⟨hencodable, hblock⟩ := isFormat_iff.mp h
  have hdata : data = metaBytes m ++ data.drop (metaPageNoCrcSize + crc32FieldSize) := by
    rw [← hblock, metaBlock, List.take_append_drop]
  rw [hdata]
  exact decodeMetaPage_metaBytes hencodable _

theorem IsFormat.version (h : IsFormat data m) : versionField data = dataFileVersion := by
  obtain ⟨-, hblock⟩ := isFormat_iff.mp h
  have hread : readAt (metaBytes m) 8 (packLE 4 dataFileVersion).length =
    packLE 4 dataFileVersion := by
    apply readAt_of_drop
    simp only [metaBytes, metaFields, List.append_assoc]
    exact List.drop_left' rfl
  rw [length_packLE] at hread
  rw [versionField, hblock, hread, unpackLE_packLE (by norm_num [dataFileVersion])]

/-- A slice of a block is the packed number that it holds. -/
theorem packLE_readAt {block : Bytes} {offset width : ℕ} (h : offset + width ≤ block.length) :
    packLE width (unpackLE (readAt block offset width)) = readAt block offset width := by
  have hlen : (readAt block offset width).length = width := by
    rw [readAt, List.length_take, List.length_drop]
    omega
  have hpack := packLE_unpackLE (readAt block offset width)
  rwa [hlen] at hpack

theorem readAt_append_drop (block : Bytes) (offset width : ℕ) :
    readAt block offset width ++ block.drop (offset + width) = block.drop offset := by
  rw [readAt, ← List.drop_drop, List.take_append_drop]

theorem crc32_of_verifyCrc32 {block : Bytes} (h : verifyCrc32 block = .ok ()) :
    packLE 4 (crc32 (block.take (block.length - crc32FieldSize))) =
      block.drop (block.length - crc32FieldSize) := by
  unfold verifyCrc32 at h
  dsimp only at h
  split at h
  · cases h
  · rename_i hlen
    split at h
    · cases h
    · rename_i hcrc
      have hpack := packLE_unpackLE (block.drop (block.length - crc32FieldSize))
      rw [not_not.mp hlen] at hpack
      rw [not_not.mp hcrc]
      exact hpack

/-- A block with the checks, this version and any page size is that of its fields. -/
theorem metaBlock_eq (h : 52 ≤ data.length) (hchecked : Checked data)
    (hversion : versionField data = dataFileVersion) :
      metaBlock data = metaBytes (metaOf data) := by
  have hlen := length_metaBlock h
  have hmagic : (metaBlock data).take 8 = dataFileMagicPrefix := hchecked.magic
  have hcrc := crc32_of_verifyCrc32 hchecked.crc
  have hversion : packLE 4 dataFileVersion = readAt (metaBlock data) 8 4 := by
    rw [← hversion, versionField, packLE_readAt (by omega)]
  have hfields : (metaBlock data).take 48 = metaFields (metaOf data) := by
    have hwhole : (metaBlock data).take 48 ++ (metaBlock data).drop 48 =
        metaFields (metaOf data) ++ (metaBlock data).drop 48 := by
      simp only [metaFields, metaOf, pageSizeField, List.append_assoc]
      rw [packLE_readAt (by omega), packLE_readAt (by omega), packLE_readAt (by omega),
        packLE_readAt (by omega), packLE_readAt (by omega), hversion, readAt_append_drop,
        readAt_append_drop, readAt_append_drop, readAt_append_drop, readAt_append_drop,
        readAt_append_drop, ← hmagic, List.take_append_drop, List.take_append_drop]
    exact List.append_cancel_right hwhole
  rw [hlen, crc32FieldSize] at hcrc
  rw [metaBytes, ← hfields, hcrc, List.take_append_drop]

theorem metaEncodable_metaOf (hsize : minPageSize ≤ pageSizeField data) :
    MetaEncodable (metaOf data) := by
  have hfield : ∀ offset width, unpackLE (readAt (metaBlock data) offset width) < 256 ^ width := by
    intro offset width
    calc unpackLE (readAt (metaBlock data) offset width)
        < 256 ^ (readAt (metaBlock data) offset width).length := unpackLE_lt _
      _ ≤ 256 ^ width := Nat.pow_le_pow_right (by norm_num) (by
          rw [readAt, List.length_take]
          exact min_le_left _ _)
  exact ⟨hsize, hfield _ _, hfield _ _, hfield _ _, hfield _ _, hfield _ _⟩

/-- The decoder accepts exactly the encoded meta pages, and rejects everything else with
`DBCorruptedError`. -/
structure DecodesFormat (data : Bytes) : Prop where
  accepts : ∀ m, decodeMetaPage data = .ok m ↔ IsFormat data m
  rejects : ∀ e, decodeMetaPage data = .error e → IsCorruptedError e

/-- The decoder does so on a block that fails the checks, and on one that passes them only
with this version and a usable page size. -/
theorem meta_decoder_exact (data : Bytes) (h : 52 ≤ data.length) :
    DecodesFormat data ↔
      (Checked data → versionField data = dataFileVersion ∧ minPageSize ≤ pageSizeField data) := by
  constructor
  · rintro ⟨haccepts, -⟩ hchecked
    have hformat := (haccepts _).mp (decodeMetaPage_of_checked h hchecked)
    exact ⟨hformat.version, hformat.1⟩
  · intro hfields
    by_cases hchecked : Checked data
    · obtain ⟨hversion, hsize⟩ := hfields hchecked
      have hdecode := decodeMetaPage_of_checked h hchecked
      have hformat : IsFormat data (metaOf data) :=
        isFormat_iff.mpr ⟨metaEncodable_metaOf hsize, metaBlock_eq h hchecked hversion⟩
      refine ⟨fun m => ⟨fun hm => ?_, IsFormat.decode⟩, fun e he => ?_⟩
      · rw [hdecode] at hm
        obtain rfl := Except.ok.inj hm
        exact hformat
      · rw [hdecode] at he
        cases he
    · obtain ⟨e, hdecode, hcorrupted⟩ := decodeMetaPage_of_not_checked h hchecked
      refine ⟨fun m => ⟨fun hm => ?_, IsFormat.decode⟩, fun e' he => ?_⟩
      · rw [hdecode] at hm
        cases hm
      · rw [hdecode] at he
        obtain rfl := Except.error.inj he
        exact hcorrupted

/-- The fields of a meta page of format version 2, with its checksum. -/
def secondVersion : Bytes :=
  let fields := dataFileMagicPrefix ++ packLE 4 2 ++ packLE 4 256 ++ packLE 8 1 ++ packLE 8 2 ++
    packLE 8 0 ++ packLE 8 0
  fields ++ packLE 4 (crc32 fields)

theorem meta_decoder_exact_new : DecodesFormat (metaBytes ⟨256, 1, 2, 0, 0⟩) :=
  (meta_decoder_exact (metaBytes ⟨256, 1, 2, 0, 0⟩) (by simp)).mpr fun _ => by decide +kernel

/-- A file of another version is opened as if it were of this one. -/
theorem other_version_accepted : 52 ≤ secondVersion.length ∧
    decodeMetaPage secondVersion = .ok ⟨256, 1, 2, 0, 0⟩ ∧
      ¬ IsFormat secondVersion ⟨256, 1, 2, 0, 0⟩ := by
  refine ⟨by decide, by decide +kernel, fun hformat => ?_⟩
  have hversion := hformat.version
  exact absurd hversion (by decide +kernel)

end BPTreeDB.Codec
