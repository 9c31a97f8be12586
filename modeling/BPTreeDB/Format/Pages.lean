import BPTreeDB.Model.Codec

/-!
# Encoded pages

`encode_page` packs the records of a page backward from its end and then writes the
header and the slot directory over its start.  When the page fits, the two parts do not
meet: the encoded page is header, directory, zero bytes and the records in reverse
order, and `decode_page` reads the page back.
-/

namespace BPTreeDB.Codec

open Lib

variable {α : Type} {P : ℕ}

/-! ## Fields -/

theorem pack_eq_ok {width n : ℕ} (hn : n < 256 ^ width) : pack width n = .ok (packLE width n) := by
  rw [pack, if_pos hn]

theorem pack_ok_iff {width n : ℕ} {bytes : Bytes} :
    pack width n = .ok bytes ↔ n < 256 ^ width ∧ bytes = packLE width n := by
  unfold pack
  split
  · rename_i h
    simp [h, eq_comm]
  · rename_i h
    simp [h]

theorem bind_eq_ok {β : Type} {x : Except Err α} {f : α → Except Err β} {b : β} :
    (x >>= f) = .ok b ↔ ∃ a, x = .ok a ∧ f a = .ok b := by
  cases x with
  | ok a => exact ⟨fun h => ⟨a, rfl, h⟩, fun ⟨a', h, hf⟩ => by cases h; exact hf⟩
  | error e =>
      constructor
      · intro h
        cases h
      · rintro ⟨a, h, -⟩
        cases h

/-- A field is read where it stands. -/
theorem unpackFrom_of_drop {data tail : Bytes} {offset width n : ℕ} (hwidth : 0 < width)
    (hn : n < 256 ^ width) (hdrop : data.drop offset = packLE width n ++ tail) :
    unpackFrom data offset width = .ok n := by
  have hlen := congrArg List.length hdrop
  simp only [List.length_drop, List.length_append, length_packLE] at hlen
  have hread := readAt_of_drop hdrop
  rw [length_packLE] at hread
  rw [unpackFrom, if_pos (by omega), hread, unpackLE_packLE hn]

/-- A length-prefixed payload. -/
def prefixed (value : Bytes) : Bytes := packLE 4 value.length ++ value

theorem lengthPrefixed_eq_ok {value : Bytes} (hlen : value.length < 256 ^ 4) :
    lengthPrefixed value = .ok (prefixed value) := by
  rw [lengthPrefixed, lengthFieldSize, pack_eq_ok hlen]
  rfl

theorem lengthPrefixed_ok_iff {value bytes : Bytes} :
    lengthPrefixed value = .ok bytes ↔ value.length < 256 ^ 4 ∧ bytes = prefixed value := by
  constructor
  · intro h
    obtain ⟨length, hlength, h⟩ := bind_eq_ok.mp h
    obtain ⟨hlen, rfl⟩ := pack_ok_iff.mp hlength
    cases h
    exact ⟨hlen, rfl⟩
  · rintro ⟨hlen, rfl⟩
    exact lengthPrefixed_eq_ok hlen

@[simp] theorem length_prefixed (value : Bytes) : (prefixed value).length = 4 + value.length := by
  simp [prefixed]

/-- A length-prefixed payload is read where it stands. -/
theorem readLengthPrefixed_of_drop {data value tail : Bytes} {offset : ℕ}
    (hlen : value.length < 256 ^ 4) (hdrop : data.drop offset = prefixed value ++ tail) :
    readLengthPrefixed data offset = .ok (value, offset + (prefixed value).length) := by
  rw [prefixed, List.append_assoc] at hdrop
  have hfield := unpackFrom_of_drop (by norm_num) hlen hdrop
  have hdrop' : data.drop (offset + 4) = value ++ tail := by
    rw [← List.drop_drop, hdrop, List.drop_left' (length_packLE _ _)]
  have hvalue := readAt_of_drop hdrop'
  rw [readLengthPrefixed, lengthFieldSize, hfield]
  simp only [bind, Except.bind, hvalue, pure, Except.pure, length_prefixed]
  congr 2
  omega

/-! ## Records packed from the end -/

/-- The number of bytes of some records. -/
def totalLength (records : List Bytes) : ℕ := (records.map List.length).sum

@[simp] theorem totalLength_nil : totalLength [] = 0 := rfl

@[simp] theorem totalLength_cons (r : Bytes) (records : List Bytes) :
    totalLength (r :: records) = r.length + totalLength records := by
  simp [totalLength]

theorem length_flatten_reverse (records : List Bytes) :
    records.reverse.flatten.length = totalLength records := by
  induction records with
  | nil => rfl
  | cons r records ih =>
      rw [List.reverse_cons, List.flatten_append, List.length_append, ih, totalLength_cons]
      simp
      omega

/-- The directory of records packed backward from `recordEnd`. -/
def directoryOf : (recordEnd : ℕ) → List Bytes → Bytes
  | _, [] => []
  | recordEnd, r :: records =>
      packLE 4 (recordEnd - r.length) ++ packLE 4 r.length ++
        directoryOf (recordEnd - r.length) records

@[simp] theorem length_directoryOf (recordEnd : ℕ) (records : List Bytes) :
    (directoryOf recordEnd records).length = slotEntrySize * records.length := by
  induction records generalizing recordEnd with
  | nil => rfl
  | cons r records ih =>
      simp only [directoryOf, List.length_append, length_packLE, ih, List.length_cons,
        slotEntrySize]
      omega

/-- The slot loop of `encode_page`, when the records fit. -/
theorem packRecords_eq (records : List Bytes) :
    ∀ (buffer : Bytes) (recordEnd : ℕ) (directory : Bytes), totalLength records ≤ recordEnd →
      recordEnd ≤ buffer.length → recordEnd < 256 ^ 4 →
      packRecords buffer recordEnd directory records =
        .ok (buffer.take (recordEnd - totalLength records) ++ records.reverse.flatten ++
            buffer.drop recordEnd,
          recordEnd - totalLength records, directory ++ directoryOf recordEnd records) := by
  induction records with
  | nil =>
      intro buffer recordEnd directory _ _ _
      simp [packRecords, directoryOf]
  | cons r records ih =>
      intro buffer recordEnd directory hfits hbuffer hend
      rw [totalLength_cons] at hfits
      have hstart : recordEnd - r.length + r.length = recordEnd := by omega
      have hnot : ¬ recordEnd < r.length := by omega
      set buffer' := sliceAssign buffer (recordEnd - r.length) recordEnd r with hbuffer'
      have hslice : buffer' = buffer.take (recordEnd - r.length) ++ r ++ buffer.drop recordEnd := by
        rw [hbuffer', sliceAssign, max_eq_right (by omega)]
      have hlength : buffer'.length = buffer.length := by
        rw [hslice]
        simp only [List.length_append, List.length_take, List.length_drop]
        omega
      have hrec := ih buffer' (recordEnd - r.length)
        (directory ++ (packLE 4 (recordEnd - r.length) ++
        packLE 4 r.length)) (by omega) (by omega) (by omega)
      rw [packRecords, if_neg hnot]
      dsimp only
      rw [pack_eq_ok (show recordEnd - r.length < 256 ^ 4 by omega),
        pack_eq_ok (show r.length < 256 ^ 4 by omega)]
      simp only [bind, Except.bind] at hrec ⊢
      rw [← hbuffer', hrec]
      have htake : buffer'.take (recordEnd - r.length - totalLength records) =
          buffer.take (recordEnd - (r.length + totalLength records)) := by
        rw [hslice, List.append_assoc, List.take_append_of_le_length
          (by rw [List.length_take]; omega), List.take_take]
        congr 1
        omega
      have hdrop : buffer'.drop (recordEnd - r.length) = r ++ buffer.drop recordEnd := by
        rw [hslice, List.append_assoc, List.drop_left' (by rw [List.length_take]; omega)]
      rw [htake, hdrop, totalLength_cons, List.reverse_cons, List.flatten_append]
      simp only [List.flatten_cons, List.flatten_nil, List.append_nil, List.append_assoc,
        directoryOf,
        Nat.sub_sub]

/-- The slot loop of `decode_page` reads back what the slot loop of `encode_page` packed. -/
theorem decodeSlots_eq (decodeSlot : Bytes → Except Err α) {data : Bytes} (records : List Bytes) :
    ∀ (offset recordEnd : ℕ) (tail tail' : Bytes), totalLength records ≤ recordEnd →
      recordEnd < 256 ^ 4 → data.drop offset = directoryOf recordEnd records ++ tail →
      data.drop (recordEnd - totalLength records) = records.reverse.flatten ++ tail' →
      decodeSlots decodeSlot data records.length offset = records.mapM decodeSlot := by
  induction records with
  | nil => intro _ _ _ _ _ _ _ _; rfl
  | cons r records ih =>
      intro offset recordEnd tail tail' hfits hend hdirectory hrecords
      rw [totalLength_cons] at hfits hrecords
      simp only [directoryOf, List.append_assoc] at hdirectory
      have hoffset := unpackFrom_of_drop (by norm_num)
        (show recordEnd - r.length < 256 ^ 4 by omega) hdirectory
      have hdirectory' : data.drop (offset + 4) = packLE 4 r.length ++
          (directoryOf (recordEnd - r.length) records ++ tail) := by
        rw [← List.drop_drop, hdirectory, List.drop_left' (length_packLE _ _)]
      have hlength := unpackFrom_of_drop (by norm_num) (show r.length < 256 ^ 4 by omega)
        hdirectory'
      have hrest : data.drop (offset + slotEntrySize) =
          directoryOf (recordEnd - r.length) records ++ tail := by
        rw [slotEntrySize, show offset + 8 = offset + 4 + 4 by omega, ← List.drop_drop, hdirectory',
          List.drop_left' (length_packLE _ _)]
      rw [List.reverse_cons, List.flatten_append, List.append_assoc] at hrecords
      simp only [List.flatten_cons, List.flatten_nil, List.append_nil] at hrecords
      have hdrop : data.drop (recordEnd - r.length) = r ++ tail' := by
        have hsplit : recordEnd - r.length =
            recordEnd - (r.length + totalLength records) + totalLength records := by omega
        rw [hsplit, ← List.drop_drop, hrecords, List.drop_left' (length_flatten_reverse _)]
      have hrecord := readAt_of_drop hdrop
      have hrec := ih (offset + slotEntrySize) (recordEnd - r.length) tail (r ++ tail') (by omega)
        (by omega) hrest (by rw [Nat.sub_sub]; exact hrecords)
      rw [List.length_cons, decodeSlots, hoffset, hlength]
      simp only [bind, Except.bind, hrecord, hrec, List.mapM_cons]

/-! ## The header -/

/-- The bytes of a page header. -/
def headerOf (pageType count freeSpaceStart freeSpaceEnd lsn pageIdField : ℕ) : Bytes :=
  packLE 1 pageType ++ [0, 0, 0] ++ packLE 4 count ++ packLE 4 freeSpaceStart ++
    packLE 4 freeSpaceEnd ++ packLE 8 lsn ++ packLE 8 pageIdField

@[simp] theorem length_headerOf (t count s e lsn field : ℕ) :
    (headerOf t count s e lsn field).length = pageHeaderSize := by
  simp [headerOf, pageHeaderSize]

theorem encodeHeader_eq_ok {t count s e lsn field : ℕ} (ht : t < 256 ^ 1) (hcount : count < 256 ^ 4)
    (hs : s < 256 ^ 4) (he : e < 256 ^ 4) (hlsn : lsn < 256 ^ 8) (hfield : field < 256 ^ 8) :
    encodeHeader t count s e lsn field = .ok (headerOf t count s e lsn field) := by
  rw [encodeHeader, pack_eq_ok ht, pack_eq_ok hcount, pack_eq_ok hs, pack_eq_ok he, pack_eq_ok hlsn,
    pack_eq_ok hfield]
  rfl

/-- The fields that `decode_page` reads from a header. -/
theorem read_headerOf {t count s e lsn field : ℕ} (ht : t < 256 ^ 1) (hcount : count < 256 ^ 4)
    (hlsn : lsn < 256 ^ 8) (hfield : field < 256 ^ 8) (tail : Bytes) :
    let data := headerOf t count s e lsn field ++ tail
    unpackLE (readAt data 0 1) = t ∧ unpackLE (readAt data 4 4) = count ∧
      unpackLE (readAt data 16 8) = lsn ∧ unpackLE (readAt data 24 8) = field := by
  intro data
  have hlen := length_packLE
  have hdata : data = packLE 1 t ++ ([0, 0, 0] ++ (packLE 4 count ++ (packLE 4 s ++ (packLE 4 e ++
      (packLE 8 lsn ++ (packLE 8 field ++ tail)))))) := by
    simp [data, headerOf]
  have h0 : data.drop 0 = packLE 1 t ++ ([0, 0, 0] ++ (packLE 4 count ++ (packLE 4 s ++
      (packLE 4 e ++ (packLE 8 lsn ++ (packLE 8 field ++ tail)))))) := hdata
  have h4 : data.drop 4 = packLE 4 count ++ (packLE 4 s ++ (packLE 4 e ++ (packLE 8 lsn ++
      (packLE 8 field ++ tail)))) := by
    rw [hdata, ← List.append_assoc, List.drop_left' (by simp)]
  have h16 : data.drop 16 = packLE 8 lsn ++ (packLE 8 field ++ tail) := by
    rw [show 16 = 4 + (4 + (4 + 4)) by norm_num, ← List.drop_drop, h4, ← List.drop_drop,
      List.drop_left' (hlen 4 _), ← List.drop_drop, List.drop_left' (hlen 4 _),
      List.drop_left' (hlen 4 _)]
  have h24 : data.drop 24 = packLE 8 field ++ tail := by
    rw [show 24 = 16 + 8 by norm_num, ← List.drop_drop, h16, List.drop_left' (hlen 8 _)]
  have r0 := readAt_of_drop h0
  have r4 := readAt_of_drop h4
  have r16 := readAt_of_drop h16
  have r24 := readAt_of_drop h24
  rw [hlen] at r0 r4 r16 r24
  exact ⟨by rw [r0, unpackLE_packLE ht], by rw [r4, unpackLE_packLE hcount],
    by rw [r16, unpackLE_packLE hlsn], by rw [r24, unpackLE_packLE hfield]⟩

theorem finishPage_eq {buffer header body : Bytes} (_ : header.length ≤ buffer.length) :
    finishPage buffer header body =
      header ++ body ++ buffer.drop (header.length + body.length) := by
  rw [finishPage]
  have hfirst : sliceAssign buffer 0 header.length header = header ++
    buffer.drop header.length := by
    simp [sliceAssign]
  rw [hfirst, sliceAssign, max_eq_right (by omega), List.take_left' rfl, ← List.drop_drop,
    List.drop_left' rfl, List.drop_drop]

/-! ## Slotted pages -/

/-- The bytes of a page with the given records. -/
def slottedPage (t lsn field P : ℕ) (records : List Bytes) : Bytes :=
  headerOf t records.length (pageHeaderSize + slotEntrySize * records.length)
      (P - totalLength records) lsn field ++
    directoryOf P records ++
    List.replicate (P - totalLength records -
      (pageHeaderSize + slotEntrySize * records.length)) 0 ++
    records.reverse.flatten

/-- The size of a page with the given records. -/
def slottedSize (records : List Bytes) : ℕ :=
  pageHeaderSize + slotEntrySize * records.length + totalLength records

theorem length_slottedPage {t lsn field : ℕ} {records : List Bytes}
    (hfits : slottedSize records ≤ P) :
    (slottedPage t lsn field P records).length = P := by
  simp only [slottedSize] at hfits
  simp only [slottedPage, List.length_append, length_headerOf, length_directoryOf,
    List.length_replicate, length_flatten_reverse]
  omega

theorem encodeSlotted_eq_ok {t lsn field : ℕ} {records : List Bytes} (ht : t < 256 ^ 1)
    (hP : P < 256 ^ 4) (hlsn : lsn < 256 ^ 8) (hfield : field < 256 ^ 8)
    (hfits : slottedSize records ≤ P) :
    encodeSlotted t lsn field P records = .ok (slottedPage t lsn field P records) := by
  simp only [slottedSize, pageHeaderSize, slotEntrySize] at hfits
  have hpack := packRecords_eq records (List.replicate P 0) P [] (by omega) (by simp) hP
  have hheader := encodeHeader_eq_ok (s := pageHeaderSize + slotEntrySize * records.length)
    (e := P - totalLength records) ht (show records.length < 256 ^ 4 by omega)
    (by simp only [pageHeaderSize, slotEntrySize]; omega) (by omega) hlsn hfield
  rw [encodeSlotted, hpack]
  simp only [bind, Except.bind, hheader, pure, Except.pure, List.nil_append]
  have hzeros : (List.replicate P (0 : Byte)).take (P - totalLength records) =
      List.replicate (P - totalLength records) 0 := by
    rw [List.take_replicate, min_eq_left (by omega)]
  rw [List.drop_replicate, Nat.sub_self, List.replicate_zero, List.append_nil, hzeros,
    finishPage_eq (by
      simp only [length_headerOf, pageHeaderSize, List.length_append, List.length_replicate]
      omega), slottedPage, length_headerOf, length_directoryOf,
    List.drop_append_of_le_length (by
      simp only [pageHeaderSize, slotEntrySize, List.length_replicate]
      omega), List.drop_replicate, List.append_assoc, List.append_assoc, List.append_assoc]

/-- The slots of an encoded page. -/
theorem decodeSlots_slottedPage (decodeSlot : Bytes → Except Err α) (t lsn field : ℕ)
    {records : List Bytes} (hP : P < 256 ^ 4) (hfits : slottedSize records ≤ P) :
    decodeSlots decodeSlot (slottedPage t lsn field P records) records.length pageHeaderSize =
      records.mapM decodeSlot := by
  simp only [slottedSize] at hfits
  have hdirectory : (slottedPage t lsn field P records).drop pageHeaderSize =
      directoryOf P records ++ (List.replicate (P - totalLength records -
        (pageHeaderSize + slotEntrySize * records.length)) 0 ++ records.reverse.flatten) := by
    rw [slottedPage, List.append_assoc, List.append_assoc, List.drop_left' (length_headerOf ..)]
  have hrecords : (slottedPage t lsn field P records).drop (P - totalLength records) =
      records.reverse.flatten ++ [] := by
    rw [slottedPage, List.drop_left', List.append_nil]
    simp only [List.length_append, length_headerOf, length_directoryOf, List.length_replicate]
    omega
  exact decodeSlots_eq decodeSlot records _ P _ _ (by omega) hP hdirectory hrecords

/-! ## Slots -/

def leafRecord (slot : LeafSlot) : Bytes := prefixed slot.key ++ prefixed slot.value

def internalRecord (slot : InternalSlot) : Bytes :=
  prefixed slot.key ++ packLE 8 slot.childPageId

theorem encodeLeafSlot_eq_ok {slot : LeafSlot} (hkey : slot.key.length < 256 ^ 4)
    (hvalue : slot.value.length < 256 ^ 4) : encodeLeafSlot slot = .ok (leafRecord slot) := by
  rw [encodeLeafSlot, lengthPrefixed_eq_ok hkey, lengthPrefixed_eq_ok hvalue]
  rfl

theorem encodeInternalSlot_eq_ok {slot : InternalSlot} (hkey : slot.key.length < 256 ^ 4)
    (hchild : slot.childPageId < 256 ^ 8) :
    encodeInternalSlot slot = .ok (internalRecord slot) := by
  rw [encodeInternalSlot, lengthPrefixed_eq_ok hkey, pageIdFieldSize, pack_eq_ok hchild]
  rfl

theorem decodeLeafSlot_leafRecord {slot : LeafSlot} (hkey : slot.key.length < 256 ^ 4)
    (hvalue : slot.value.length < 256 ^ 4) : decodeLeafSlot (leafRecord slot) = .ok slot := by
  have hfirst := readLengthPrefixed_of_drop hkey
    (show (leafRecord slot).drop 0 = prefixed slot.key ++ prefixed slot.value from rfl)
  have hdrop : (leafRecord slot).drop (0 + (prefixed slot.key).length) =
      prefixed slot.value ++ [] := by
    rw [Nat.zero_add, leafRecord, List.drop_left' rfl, List.append_nil]
  have hsecond := readLengthPrefixed_of_drop hvalue hdrop
  rw [decodeLeafSlot, hfirst]
  simp only [bind, Except.bind, hsecond, pure, Except.pure]

theorem decodeInternalSlot_internalRecord {slot : InternalSlot} (hkey : slot.key.length < 256 ^ 4)
    (hchild : slot.childPageId < 256 ^ 8) :
    decodeInternalSlot (internalRecord slot) = .ok slot := by
  have hfirst := readLengthPrefixed_of_drop hkey
    (show (internalRecord slot).drop 0 = prefixed slot.key ++ packLE 8 slot.childPageId from rfl)
  have hdrop : (internalRecord slot).drop (0 + (prefixed slot.key).length) =
      packLE 8 slot.childPageId ++ [] := by
    rw [Nat.zero_add, internalRecord, List.drop_left' rfl, List.append_nil]
  have hsecond := unpackFrom_of_drop (by norm_num) hchild hdrop
  rw [decodeInternalSlot, hfirst]
  simp only [bind, Except.bind, pageIdFieldSize, hsecond, pure, Except.pure]

theorem mapM_eq_ok {β : Type} {f : α → Except Err β} {g : α → β} {l : List α}
    (h : ∀ a ∈ l, f a = .ok (g a)) : l.mapM f = .ok (l.map g) := by
  induction l with
  | nil => rfl
  | cons a l ih =>
      rw [List.mapM_cons, h a (List.mem_cons_self ..),
        ih fun x hx => h x (List.mem_cons_of_mem _ hx)]
      rfl

theorem mapM_map_eq_ok {β : Type} {f : β → Except Err α} {g : α → β} {l : List α}
    (h : ∀ a ∈ l, f (g a) = .ok a) : (l.map g).mapM f = .ok l := by
  induction l with
  | nil => rfl
  | cons a l ih =>
      rw [List.map_cons, List.mapM_cons, h a (List.mem_cons_self ..),
        ih fun x hx => h x (List.mem_cons_of_mem _ hx)]
      rfl

/-! ## Whole pages -/

theorem slottedSize_leafRecord (p : LeafPage) :
    slottedSize (p.slots.map leafRecord) = calculatePageSize (.leaf p) := by
  simp only [slottedSize, calculatePageSize, slotSizes, totalLength, List.length_map, List.map_map]
  induction p.slots with
  | nil => rfl
  | cons s slots ih =>
      simp only [List.length_cons, List.map_cons, List.sum_cons, leafSlotSize,
        leafRecord, List.length_append, length_prefixed, slotEntrySize, lengthFieldSize,
        Function.comp_def] at ih ⊢
      omega

theorem slottedSize_internalRecord (p : InternalPage) :
    slottedSize (p.slots.map internalRecord) = calculatePageSize (.internal p) := by
  simp only [slottedSize, calculatePageSize, slotSizes, totalLength, List.length_map, List.map_map]
  induction p.slots with
  | nil => rfl
  | cons s slots ih =>
      simp only [List.length_cons, List.map_cons, List.sum_cons,
        internalSlotSize, internalRecord, List.length_append, length_prefixed, length_packLE,
        slotEntrySize, lengthFieldSize, pageIdFieldSize, Function.comp_def] at ih ⊢
      omega

/-- A page that the format can hold: it fits, and its numbers fit their fields. -/
def Encodable (P : ℕ) : AnyPage → Prop
  | .tree (.leaf p) => P < 256 ^ 4 ∧ calculatePageSize (.leaf p) ≤ P ∧
      p.lastModifiedLsn < 256 ^ 8 ∧ p.rightSiblingPageId < 256 ^ 8
  | .tree (.internal p) => P < 256 ^ 4 ∧ calculatePageSize (.internal p) ≤ P ∧
      p.lastModifiedLsn < 256 ^ 8 ∧ p.leftmostChildPageId < 256 ^ 8 ∧
      ∀ s ∈ p.slots, s.childPageId < 256 ^ 8
  | .freelist p => P < 256 ^ 4 ∧ pageHeaderSize + pageIdFieldSize * p.freedPageIds.length ≤ P ∧
      p.lastModifiedLsn < 256 ^ 8 ∧ p.nextFreelistPageId < 256 ^ 8 ∧
      ∀ x ∈ p.freedPageIds, x < 256 ^ 8

theorem le_sum_of_mem {l : List ℕ} {x : ℕ} (h : x ∈ l) : x ≤ l.sum :=
  List.single_le_sum (by simp) x h

theorem leafSlot_le_size {p : LeafPage} {s : LeafSlot} (hs : s ∈ p.slots) :
    s.key.length + s.value.length ≤ calculatePageSize (.leaf p) := by
  have : leafSlotSize s ≤ (slotSizes (.leaf p)).sum := le_sum_of_mem (List.mem_map_of_mem hs)
  simp only [leafSlotSize, calculatePageSize] at this ⊢
  omega

theorem internalSlot_le_size {p : InternalPage} {s : InternalSlot} (hs : s ∈ p.slots) :
    s.key.length ≤ calculatePageSize (.internal p) := by
  have : internalSlotSize s ≤ (slotSizes (.internal p)).sum :=
    le_sum_of_mem (List.mem_map_of_mem hs)
  simp only [internalSlotSize, calculatePageSize] at this ⊢
  omega

/-- What `decode_page` does after the header. -/
def decodeBody (data : Bytes) (t count lsn field : ℕ) : Except Err AnyPage :=
  match t with
  | 1 => do
      let slots ← decodeSlots decodeInternalSlot data count pageHeaderSize
      return .tree (.internal ⟨lsn, field, slots⟩)
  | 2 => do
      let slots ← decodeSlots decodeLeafSlot data count pageHeaderSize
      return .tree (.leaf ⟨lsn, field, slots⟩)
  | 3 => do
      let ids ← decodeIds data count pageHeaderSize
      return .freelist ⟨lsn, field, ids⟩
  | _ => throw (.valueError ("Unknown page type " ++ toString t))

theorem decodePage_headerOf {t count s e lsn field : ℕ} (ht : t < 256 ^ 1)
    (hcount : count < 256 ^ 4)
    (hlsn : lsn < 256 ^ 8) (hfield : field < 256 ^ 8) {data tail : Bytes}
    (hdata : data = headerOf t count s e lsn field ++ tail) :
    decodePage data = decodeBody data t count lsn field := by
  obtain ⟨h0, h4, h16, h24⟩ := read_headerOf (s := s) (e := e) ht hcount hlsn hfield tail
  have hlen : ¬ data.length < pageHeaderSize := by
    rw [hdata, List.length_append, length_headerOf]
    omega
  rw [← hdata] at h0 h4 h16 h24
  rw [decodePage, if_neg hlen]
  simp only [h0, h4, h16, h24]
  rfl

/-- The id loop of `decode_page` reads the ids of a freelist page back. -/
theorem decodeIds_eq {data : Bytes} (ids : List ℕ) :
    ∀ (offset : ℕ) (tail : Bytes), (∀ x ∈ ids, x < 256 ^ 8) →
      data.drop offset = (ids.map (packLE 8)).flatten ++ tail →
      decodeIds data ids.length offset = .ok ids := by
  induction ids with
  | nil => intro _ _ _ _; rfl
  | cons x ids ih =>
      intro offset tail hids hdrop
      rw [List.map_cons, List.flatten_cons, List.append_assoc] at hdrop
      have hfirst := unpackFrom_of_drop (by norm_num) (hids x (List.mem_cons_self ..)) hdrop
      have hrest : data.drop (offset + pageIdFieldSize) = (ids.map (packLE 8)).flatten ++ tail := by
        rw [pageIdFieldSize, ← List.drop_drop, hdrop, List.drop_left' (length_packLE _ _)]
      have hrec := ih (offset + pageIdFieldSize) tail
        (fun y hy => hids y (List.mem_cons_of_mem _ hy)) hrest
      rw [List.length_cons, decodeIds, pageIdFieldSize, hfirst]
      rw [pageIdFieldSize] at hrec
      simp only [bind, Except.bind, hrec, pure, Except.pure]

theorem length_flatten_packLE (ids : List ℕ) : (ids.map (packLE 8)).flatten.length =
    8 * ids.length := by
  induction ids with
  | nil => rfl
  | cons x ids ih =>
      simp only [List.map_cons, List.flatten_cons, List.length_append, length_packLE, ih,
        List.length_cons]
      omega

theorem leafSlot_lengths {p : LeafPage} (h : Encodable P (.tree (.leaf p))) :
    ∀ s ∈ p.slots, s.key.length < 256 ^ 4 ∧ s.value.length < 256 ^ 4 := by
  intro s hs
  obtain ⟨hP, hfits, -, -⟩ := h
  have := leafSlot_le_size hs
  constructor <;> omega

theorem internalSlot_lengths {p : InternalPage} (h : Encodable P (.tree (.internal p))) :
    ∀ s ∈ p.slots, s.key.length < 256 ^ 4 := by
  intro s hs
  obtain ⟨hP, hfits, -, -, -⟩ := h
  have := internalSlot_le_size hs
  omega

/-- The bytes of a leaf page. -/
def leafBytes (P : ℕ) (p : LeafPage) : Bytes :=
  slottedPage 2 p.lastModifiedLsn p.rightSiblingPageId P (p.slots.map leafRecord)

/-- The bytes of an internal page. -/
def internalBytes (P : ℕ) (p : InternalPage) : Bytes :=
  slottedPage 1 p.lastModifiedLsn p.leftmostChildPageId P (p.slots.map internalRecord)

theorem encodePage_leaf {p : LeafPage} (h : Encodable P (.tree (.leaf p))) :
    encodePage (.tree (.leaf p)) P = .ok (leafBytes P p) := by
  have hslot := leafSlot_lengths h
  have hrecords : p.slots.mapM encodeLeafSlot = .ok (p.slots.map leafRecord) :=
    mapM_eq_ok fun s hs => encodeLeafSlot_eq_ok (hslot s hs).1 (hslot s hs).2
  obtain ⟨hP, hfits, hlsn, hfield⟩ := h
  rw [← slottedSize_leafRecord p] at hfits
  rw [encodePage, hrecords]
  exact encodeSlotted_eq_ok (by norm_num) hP hlsn hfield hfits

theorem encodePage_internal {p : InternalPage} (h : Encodable P (.tree (.internal p))) :
    encodePage (.tree (.internal p)) P = .ok (internalBytes P p) := by
  have hslot := internalSlot_lengths h
  obtain ⟨hP, hfits, hlsn, hfield, hchildren⟩ := h
  have hrecords : p.slots.mapM encodeInternalSlot = .ok (p.slots.map internalRecord) :=
    mapM_eq_ok fun s hs => encodeInternalSlot_eq_ok (hslot s hs) (hchildren s hs)
  rw [← slottedSize_internalRecord p] at hfits
  rw [encodePage, hrecords]
  exact encodeSlotted_eq_ok (by norm_num) hP hlsn hfield hfits

theorem encodeLeafPage_spec {p : LeafPage} (h : Encodable P (.tree (.leaf p))) :
    ∃ data, encodePage (.tree (.leaf p)) P = .ok data ∧ data.length = P ∧
      decodePage data = .ok (.tree (.leaf p)) := by
  have hslot := leafSlot_lengths h
  have hencode := encodePage_leaf h
  obtain ⟨hP, hfits, hlsn, hfield⟩ := h
  rw [← slottedSize_leafRecord p] at hfits
  have hcount : (p.slots.map leafRecord).length < 256 ^ 4 := by
    simp only [slottedSize, pageHeaderSize, slotEntrySize] at hfits
    omega
  refine ⟨leafBytes P p, hencode, length_slottedPage hfits, ?_⟩
  have hdecode := decodeSlots_slottedPage decodeLeafSlot 2 p.lastModifiedLsn p.rightSiblingPageId
    hP hfits
  rw [mapM_map_eq_ok fun s hs => decodeLeafSlot_leafRecord (hslot s hs).1 (hslot s hs).2]
    at hdecode
  rw [leafBytes, decodePage_headerOf (show 2 < 256 ^ 1 by norm_num) hcount hlsn hfield
    (by rw [slottedPage, List.append_assoc, List.append_assoc]), decodeBody, hdecode]
  rfl

theorem encodeInternalPage_spec {p : InternalPage} (h : Encodable P (.tree (.internal p))) :
    ∃ data, encodePage (.tree (.internal p)) P = .ok data ∧ data.length = P ∧
      decodePage data = .ok (.tree (.internal p)) := by
  have hslot := internalSlot_lengths h
  have hencode := encodePage_internal h
  obtain ⟨hP, hfits, hlsn, hfield, hchildren⟩ := h
  rw [← slottedSize_internalRecord p] at hfits
  have hcount : (p.slots.map internalRecord).length < 256 ^ 4 := by
    simp only [slottedSize, pageHeaderSize, slotEntrySize] at hfits
    omega
  refine ⟨internalBytes P p, hencode, length_slottedPage hfits, ?_⟩
  have hdecode := decodeSlots_slottedPage decodeInternalSlot 1 p.lastModifiedLsn
    p.leftmostChildPageId hP hfits
  rw [mapM_map_eq_ok fun s hs => decodeInternalSlot_internalRecord (hslot s hs)
    (hchildren s hs)] at hdecode
  rw [internalBytes, decodePage_headerOf (show 1 < 256 ^ 1 by norm_num) hcount hlsn hfield
    (by rw [slottedPage, List.append_assoc, List.append_assoc]), decodeBody, hdecode]
  rfl

/-- The bytes of a freelist page. -/
def freelistBytes (P : ℕ) (p : FreelistPage) : Bytes :=
  headerOf 3 p.freedPageIds.length 0 0 p.lastModifiedLsn p.nextFreelistPageId ++
    ((p.freedPageIds.map (packLE 8)).flatten ++
      List.replicate (P - (pageHeaderSize + pageIdFieldSize * p.freedPageIds.length)) 0)

theorem encodeFreelistPage_spec {p : FreelistPage} (h : Encodable P (.freelist p)) :
    ∃ data, encodePage (.freelist p) P = .ok data ∧ data.length = P ∧
      decodePage data = .ok (.freelist p) := by
  obtain ⟨hP, hfits, hlsn, hfield, hids⟩ := h
  have hlen := length_flatten_packLE p.freedPageIds
  have hheader := length_headerOf 3 p.freedPageIds.length 0 0 p.lastModifiedLsn
    p.nextFreelistPageId
  simp only [pageHeaderSize, pageIdFieldSize] at hfits hheader
  have hcount : p.freedPageIds.length < 256 ^ 4 := by omega
  refine ⟨freelistBytes P p, ?_, ?_, ?_⟩
  · have hencode := encodeHeader_eq_ok (show 3 < 256 ^ 1 by norm_num) hcount
      (show 0 < 256 ^ 4 by norm_num) (show 0 < 256 ^ 4 by norm_num) hlsn hfield
    have hpacked : p.freedPageIds.mapM (pack pageIdFieldSize) =
        .ok (p.freedPageIds.map (packLE 8)) := mapM_eq_ok fun x hx => pack_eq_ok (hids x hx)
    have hroom : (headerOf 3 p.freedPageIds.length 0 0 p.lastModifiedLsn
        p.nextFreelistPageId).length ≤ (List.replicate P (0 : Byte)).length := by
      rw [hheader, List.length_replicate]
      omega
    rw [encodePage, hpacked]
    simp only [bind, Except.bind, hencode, pure, Except.pure]
    rw [finishPage_eq hroom, List.drop_replicate, hheader, hlen, List.append_assoc, freelistBytes,
      pageHeaderSize, pageIdFieldSize]
  · simp only [freelistBytes, List.length_append, hheader, hlen, List.length_replicate,
      pageHeaderSize, pageIdFieldSize]
    omega
  · have hread := decodeIds_eq p.freedPageIds pageHeaderSize _ hids
      (show (freelistBytes P p).drop pageHeaderSize = _ from List.drop_left' hheader)
    rw [decodePage_headerOf (show 3 < 256 ^ 1 by norm_num) hcount hlsn hfield
      (show freelistBytes P p = _ from rfl), decodeBody, hread]
    rfl

/-- A page that the format can hold is encoded in exactly one page and read back as it was. -/
theorem encodePage_spec {page : AnyPage} (h : Encodable P page) :
    ∃ data, encodePage page P = .ok data ∧ data.length = P ∧ decodePage data = .ok page := by
  match page, h with
  | .tree (.leaf p), h => exact encodeLeafPage_spec h
  | .tree (.internal p), h => exact encodeInternalPage_spec h
  | .freelist p, h => exact encodeFreelistPage_spec h

/-! ## What a successful encoding says -/

theorem encodeHeader_ok {t count s e lsn field : ℕ} {bytes : Bytes}
    (h : encodeHeader t count s e lsn field = .ok bytes) :
    e < 256 ^ 4 ∧ lsn < 256 ^ 8 ∧ field < 256 ^ 8 := by
  obtain ⟨_, -, h⟩ := bind_eq_ok.mp h
  obtain ⟨_, -, h⟩ := bind_eq_ok.mp h
  obtain ⟨_, -, h⟩ := bind_eq_ok.mp h
  obtain ⟨_, he, h⟩ := bind_eq_ok.mp h
  obtain ⟨_, hlsn, h⟩ := bind_eq_ok.mp h
  obtain ⟨_, hfield, h⟩ := bind_eq_ok.mp h
  exact ⟨(pack_ok_iff.mp he).1, (pack_ok_iff.mp hlsn).1, (pack_ok_iff.mp hfield).1⟩

theorem encodeSlotted_ok {t lsn field : ℕ} {records : List Bytes} {bytes : Bytes}
    (h : encodeSlotted t lsn field P records = .ok bytes) : lsn < 256 ^ 8 ∧ field < 256 ^ 8 := by
  obtain ⟨⟨_, _, _⟩, -, h⟩ := bind_eq_ok.mp h
  obtain ⟨_, hheader, -⟩ := bind_eq_ok.mp h
  exact (encodeHeader_ok hheader).2

theorem mapM_ok {β : Type} {f : α → Except Err β} {l : List α} {r : List β}
    (h : l.mapM f = .ok r) : ∀ a ∈ l, ∃ b, f a = .ok b := by
  induction l generalizing r with
  | nil => simp
  | cons a l ih =>
      rw [List.mapM_cons] at h
      obtain ⟨b, hb, h⟩ := bind_eq_ok.mp h
      obtain ⟨bs, hbs, -⟩ := bind_eq_ok.mp h
      intro x hx
      rcases List.mem_cons.mp hx with rfl | hx
      · exact ⟨b, hb⟩
      · exact ih hbs x hx

/-- The size that `encode_page` does not check. -/
def Fits (P : ℕ) : AnyPage → Prop
  | .tree page => calculatePageSize page ≤ P
  | .freelist p => pageHeaderSize + pageIdFieldSize * p.freedPageIds.length ≤ P

/-- A page that fits and could be encoded is one that the format can hold. -/
theorem encodable_of_encodePage {page : AnyPage} {data : Bytes} (hP : P < 256 ^ 4)
    (hfits : Fits P page) (h : encodePage page P = .ok data) : Encodable P page := by
  match page, hfits with
  | .tree (.leaf p), hfits =>
      obtain ⟨records, -, h⟩ := bind_eq_ok.mp h
      obtain ⟨hlsn, hfield⟩ := encodeSlotted_ok h
      exact ⟨hP, hfits, hlsn, hfield⟩
  | .tree (.internal p), hfits =>
      obtain ⟨records, hrecords, h⟩ := bind_eq_ok.mp h
      obtain ⟨hlsn, hfield⟩ := encodeSlotted_ok h
      refine ⟨hP, hfits, hlsn, hfield, fun s hs => ?_⟩
      obtain ⟨record, hrecord⟩ := mapM_ok hrecords s hs
      obtain ⟨_, -, hrecord⟩ := bind_eq_ok.mp hrecord
      obtain ⟨_, hchild, -⟩ := bind_eq_ok.mp hrecord
      exact (pack_ok_iff.mp hchild).1
  | .freelist p, hfits =>
      obtain ⟨ids, hids, h⟩ := bind_eq_ok.mp h
      obtain ⟨_, hheader, -⟩ := bind_eq_ok.mp h
      obtain ⟨-, hlsn, hfield⟩ := encodeHeader_ok hheader
      refine ⟨hP, hfits, hlsn, hfield, fun x hx => ?_⟩
      obtain ⟨_, hpack⟩ := mapM_ok hids x hx
      exact (pack_ok_iff.mp hpack).1

/-! ## Malformed pages -/

/-- What `decode_page` raises on bytes that are no page. -/
def FormatError (e : Err) : Prop := e = .structError ∨ ∃ message, e = .valueError message

/-- The computation raises format errors only. -/
def Decodes (x : Except Err α) : Prop := ∀ e, x = .error e → FormatError e

theorem decodes_ok (a : α) : Decodes (.ok a : Except Err α) := by
  intro e h
  cases h

theorem decodes_error {e : Err} (he : FormatError e) : Decodes (.error e : Except Err α) := by
  intro e' h
  cases h
  exact he

theorem Decodes.bind {β : Type} {x : Except Err α} {f : α → Except Err β} (hx : Decodes x)
    (hf : ∀ a, Decodes (f a)) : Decodes (x >>= f) := by
  intro e h
  cases x with
  | ok a => exact hf a e h
  | error e' =>
      cases h
      exact hx _ rfl

theorem decodes_unpackFrom (data : Bytes) (offset width : ℕ) :
    Decodes (unpackFrom data offset width) := by
  unfold unpackFrom
  split
  · exact decodes_ok _
  · exact decodes_error (.inl rfl)

theorem decodes_readLengthPrefixed (data : Bytes) (offset : ℕ) :
    Decodes (readLengthPrefixed data offset) :=
  (decodes_unpackFrom _ _ _).bind fun _ => decodes_ok _

theorem decodes_decodeSlots {decodeSlot : Bytes → Except Err α}
    (hslot : ∀ record, Decodes (decodeSlot record)) (data : Bytes) (count offset : ℕ) :
    Decodes (decodeSlots decodeSlot data count offset) := by
  induction count generalizing offset with
  | zero => exact decodes_ok _
  | succ count ih =>
      refine (decodes_unpackFrom _ _ _).bind fun _ => (decodes_unpackFrom _ _ _).bind fun _ => ?_
      exact (hslot _).bind fun _ => (ih _).bind fun _ => decodes_ok _

theorem decodes_decodeIds (data : Bytes) (count offset : ℕ) :
    Decodes (decodeIds data count offset) := by
  induction count generalizing offset with
  | zero => exact decodes_ok _
  | succ count ih =>
      exact (decodes_unpackFrom _ _ _).bind fun _ => (ih _).bind fun _ => decodes_ok _

/-- `decode_page` raises format errors only. -/
theorem decodes_decodePage (data : Bytes) : Decodes (decodePage data) := by
  unfold decodePage
  split
  · exact decodes_error (.inl rfl)
  · dsimp only
    split
    · refine (decodes_decodeSlots (fun record => ?_) _ _ _).bind fun _ => decodes_ok _
      exact (decodes_readLengthPrefixed _ _).bind fun _ => (decodes_unpackFrom _ _ _).bind fun _ =>
        decodes_ok _
    · refine (decodes_decodeSlots (fun record => ?_) _ _ _).bind fun _ => decodes_ok _
      exact (decodes_readLengthPrefixed _ _).bind fun _ =>
        (decodes_readLengthPrefixed _ _).bind fun _ => decodes_ok _
    · exact (decodes_decodeIds _ _ _).bind fun _ => decodes_ok _
    · exact decodes_error (.inr ⟨_, rfl⟩)

end BPTreeDB.Codec
