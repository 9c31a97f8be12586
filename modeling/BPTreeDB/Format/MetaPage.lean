import BPTreeDB.Format.Pages

/-!
# The meta page round trip

`encode_meta_page` writes a checksummed block of fixed size and pads it to a page;
`decode_meta_page` looks at that block only, so it reads the meta page from any number of
bytes that covers it.
-/

namespace BPTreeDB.Codec

open Lib

variable {m : MetaPage} {data tail : Bytes}

theorem crc32_lt (data : Bytes) : crc32 data < 256 ^ 4 := by
  have := UInt32.toNat_lt (data.foldl crc32Byte 0xFFFFFFFF ^^^ 0xFFFFFFFF)
  unfold crc32
  norm_num at this ⊢
  exact this

/-- A block that ends with its own checksum. -/
theorem verifyCrc32_self (body : Bytes) :
    verifyCrc32 (body ++ packLE 4 (crc32 body)) = .ok () := by
  have hlen : (body ++ packLE 4 (crc32 body)).length - crc32FieldSize = body.length := by
    simp [crc32FieldSize]
  simp only [verifyCrc32, hlen, List.take_left, List.drop_left, length_packLE,
    unpackLE_packLE (crc32_lt body)]
  rw [if_neg (by simp [crc32FieldSize]), if_neg (by simp)]
  rfl

/-- `verify_crc32` on a block that is long enough: it passes, or it raises a checksum error. -/
theorem verifyCrc32_cases (block : Bytes) (h : crc32FieldSize ≤ block.length) :
    verifyCrc32 block = .ok () ∨
      ∃ expected actual, verifyCrc32 block = .error (.checksum expected actual) := by
  have htail : (block.drop (block.length - crc32FieldSize)).length = crc32FieldSize := by
    rw [List.length_drop]
    omega
  unfold verifyCrc32
  dsimp only
  rw [if_neg (not_not_intro htail)]
  split
  · exact .inr ⟨_, _, rfl⟩
  · exact .inl rfl

/-- The fields of the meta page. -/
def metaFields (m : MetaPage) : Bytes :=
  dataFileMagicPrefix ++ packLE 4 dataFileVersion ++ packLE 4 m.pageSizeBytes ++
    packLE 8 m.rootPageId ++ packLE 8 m.nextPageId ++ packLE 8 m.freelistHeadPageId ++
    packLE 8 m.lastCheckpointLsn

/-- The fields and their checksum. -/
def metaBytes (m : MetaPage) : Bytes := metaFields m ++ packLE 4 (crc32 (metaFields m))

@[simp] theorem length_metaFields (m : MetaPage) : (metaFields m).length = 48 := by
  simp [metaFields, dataFileMagicPrefix]

@[simp] theorem length_metaBytes (m : MetaPage) : (metaBytes m).length = 52 := by
  simp [metaBytes]

/-- The meta pages that the format can hold. -/
structure MetaEncodable (m : MetaPage) : Prop where
  large : minPageSize ≤ m.pageSizeBytes
  pageSize : m.pageSizeBytes < 256 ^ 4
  root : m.rootPageId < 256 ^ 8
  next : m.nextPageId < 256 ^ 8
  head : m.freelistHeadPageId < 256 ^ 8
  lsn : m.lastCheckpointLsn < 256 ^ 8

theorem encodeMetaPage_eq_ok (h : MetaEncodable m) :
    encodeMetaPage m =
      .ok (metaBytes m ++ List.replicate (m.pageSizeBytes - minPageSize) 0) := by
  have hlarge := h.large
  simp only [minPageSize, metaPageNoCrcSize, crc32FieldSize] at hlarge
  have hlen : (metaFields m ++ packLE crc32FieldSize (crc32 (metaFields m))).length = 52 := by
    simp [crc32FieldSize]
  simp only [encodeMetaPage, pack_eq_ok (show dataFileVersion <
    256 ^ 4 by norm_num [dataFileVersion]),
    pack_eq_ok h.pageSize, pack_eq_ok h.root, pack_eq_ok h.next, pack_eq_ok h.head,
    pack_eq_ok h.lsn, bind, Except.bind, pure, Except.pure]
  rw [← metaFields, hlen, if_neg (by omega)]
  rfl

theorem metaEncodable_of_encodeMetaPage (h : encodeMetaPage m = .ok data) : MetaEncodable m := by
  obtain ⟨_, hversion, h⟩ := bind_eq_ok.mp h
  obtain ⟨_, hsize, h⟩ := bind_eq_ok.mp h
  obtain ⟨_, hroot, h⟩ := bind_eq_ok.mp h
  obtain ⟨_, hnext, h⟩ := bind_eq_ok.mp h
  obtain ⟨_, hhead, h⟩ := bind_eq_ok.mp h
  obtain ⟨_, hlsn, h⟩ := bind_eq_ok.mp h
  refine ⟨?_, (pack_ok_iff.mp hsize).1, (pack_ok_iff.mp hroot).1, (pack_ok_iff.mp hnext).1,
    (pack_ok_iff.mp hhead).1, (pack_ok_iff.mp hlsn).1⟩
  by_contra hsmall
  obtain ⟨-, rfl⟩ := pack_ok_iff.mp hsize
  obtain ⟨-, rfl⟩ := pack_ok_iff.mp hroot
  obtain ⟨-, rfl⟩ := pack_ok_iff.mp hnext
  obtain ⟨-, rfl⟩ := pack_ok_iff.mp hhead
  obtain ⟨-, rfl⟩ := pack_ok_iff.mp hlsn
  obtain ⟨-, rfl⟩ := pack_ok_iff.mp hversion
  rw [← metaFields, if_pos] at h
  · cases h
  · simp only [List.length_append, length_metaFields, length_packLE, crc32FieldSize]
    simp only [minPageSize, metaPageNoCrcSize, crc32FieldSize] at hsmall
    omega

/-- `decode_meta_page` reads the meta page back, whatever follows it. -/
theorem decodeMetaPage_metaBytes (h : MetaEncodable m) (tail : Bytes) :
    decodeMetaPage (metaBytes m ++ tail) = .ok m := by
  have htake : (metaBytes m ++ tail).take (metaPageNoCrcSize + crc32FieldSize) = metaBytes m :=
    List.take_left' (length_metaBytes m)
  have hmagic : (metaBytes m).take dataFileMagicPrefix.length = dataFileMagicPrefix := by
    simp only [metaBytes, metaFields, List.append_assoc]
    exact List.take_left' rfl
  have hfield : ∀ {width n offset : ℕ} {front back : Bytes}, n < 256 ^ width →
      metaBytes m = front ++ (packLE width n ++ back) → front.length = offset →
      unpackLE (readAt (metaBytes m) offset width) = n := by
    intro width n offset front back hn heq hfront
    have hread : readAt (metaBytes m) offset (packLE width n).length = packLE width n :=
      readAt_of_drop (by rw [heq, List.drop_left' hfront])
    rw [length_packLE] at hread
    rw [hread, unpackLE_packLE hn]
  have hsize : unpackLE (readAt (metaBytes m) 12 4) = m.pageSizeBytes :=
    hfield h.pageSize (by simp only [metaBytes, metaFields, List.append_assoc]
                          rw [← List.append_assoc]) (by simp [dataFileMagicPrefix])
  have hroot : unpackLE (readAt (metaBytes m) 16 8) = m.rootPageId :=
    hfield h.root (by simp only [metaBytes, metaFields, List.append_assoc]
                      iterate 2 rw [← List.append_assoc]) (by simp [dataFileMagicPrefix])
  have hnext : unpackLE (readAt (metaBytes m) 24 8) = m.nextPageId :=
    hfield h.next (by simp only [metaBytes, metaFields, List.append_assoc]
                      iterate 3 rw [← List.append_assoc]) (by simp [dataFileMagicPrefix])
  have hhead : unpackLE (readAt (metaBytes m) 32 8) = m.freelistHeadPageId :=
    hfield h.head (by simp only [metaBytes, metaFields, List.append_assoc]
                      iterate 4 rw [← List.append_assoc]) (by simp [dataFileMagicPrefix])
  have hlsn : unpackLE (readAt (metaBytes m) 40 8) = m.lastCheckpointLsn :=
    hfield h.lsn (by simp only [metaBytes, metaFields, List.append_assoc]
                     iterate 5 rw [← List.append_assoc]) (by simp [dataFileMagicPrefix])
  have hcrc : verifyCrc32 (metaBytes m) = .ok () := verifyCrc32_self _
  have hlen : ¬ (metaBytes m).length < metaPageNoCrcSize := by simp [metaPageNoCrcSize]
  simp only [decodeMetaPage, htake, hmagic, hcrc, hsize, hroot, hnext, hhead, hlsn, if_neg hlen]
  rfl

end BPTreeDB.Codec
