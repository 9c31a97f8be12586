import BPTreeDB.Format.Pages

/-!
# The free space of a page

The header of a slotted page says where its free space starts and ends.  The encoder
computes both from the records it packs; the tree computes the size of a page from its
slots.  The two agree.
-/

namespace BPTreeDB.Codec

open Lib

variable {P : ℕ}

/-- The `free_space_start` field of the page header. -/
def freeSpaceStart (data : Bytes) : ℕ := unpackLE (readAt data 8 4)

/-- The `free_space_end` field of the page header. -/
def freeSpaceEnd (data : Bytes) : ℕ := unpackLE (readAt data 12 4)

theorem freeSpace_headerOf (t count lsn field : ℕ) {s e : ℕ} (hs : s < 256 ^ 4) (he : e < 256 ^ 4)
    (tail : Bytes) :
    freeSpaceStart (headerOf t count s e lsn field ++ tail) = s ∧
      freeSpaceEnd (headerOf t count s e lsn field ++ tail) = e := by
  have hlen := length_packLE
  have h8 : (headerOf t count s e lsn field ++ tail).drop 8 =
      packLE 4 s ++ (packLE 4 e ++ (packLE 8 lsn ++ (packLE 8 field ++ tail))) := by
    simp only [headerOf, List.append_assoc]
    rw [← List.append_assoc, ← List.append_assoc, List.drop_left' (by simp)]
  have h12 : (headerOf t count s e lsn field ++ tail).drop 12 =
      packLE 4 e ++ (packLE 8 lsn ++ (packLE 8 field ++ tail)) := by
    rw [show 12 = 8 + 4 by norm_num, ← List.drop_drop, h8, List.drop_left' (hlen 4 _)]
  have r8 := readAt_of_drop h8
  have r12 := readAt_of_drop h12
  rw [hlen] at r8 r12
  exact ⟨by rw [freeSpaceStart, r8, unpackLE_packLE hs], by rw [freeSpaceEnd, r12,
    unpackLE_packLE he]⟩

/-- Between directory and records a page has the space that its size leaves. -/
theorem freeSpace_slottedPage {t lsn field : ℕ} {records : List Bytes} (hP : P < 256 ^ 4)
    (hfits : slottedSize records ≤ P) :
    (freeSpaceEnd (slottedPage t lsn field P records) : ℤ) -
      freeSpaceStart (slottedPage t lsn field P records) = P - slottedSize records := by
  simp only [slottedSize, pageHeaderSize, slotEntrySize] at hfits ⊢
  obtain ⟨hstart, hend⟩ := freeSpace_headerOf t records.length lsn field
    (s := pageHeaderSize + slotEntrySize * records.length) (e := P - totalLength records)
      (by simp only [pageHeaderSize, slotEntrySize]; omega) (by omega)
    (directoryOf P records ++ (List.replicate (P - totalLength records -
      (pageHeaderSize + slotEntrySize * records.length)) 0 ++ records.reverse.flatten))
  rw [← List.append_assoc, ← List.append_assoc, ← slottedPage] at hstart hend
  rw [hstart, hend]
  simp only [pageHeaderSize, slotEntrySize]
  omega

/-- The page is no larger than `P` by the tree's own count, and its ids and LSN have 64
bits. -/
def WithinFormat (P : ℕ) : AnyPage → Prop
  | .tree (.leaf p) => calculatePageSize (.leaf p) ≤ P ∧
      p.lastModifiedLsn < 2 ^ 64 ∧ p.rightSiblingPageId < 2 ^ 64
  | .tree (.internal p) => calculatePageSize (.internal p) ≤ P ∧
      p.lastModifiedLsn < 2 ^ 64 ∧ p.leftmostChildPageId < 2 ^ 64 ∧
      ∀ s ∈ p.slots, s.childPageId < 2 ^ 64
  | .freelist p => p.freedPageIds.length ≤ getMaxFreedIdsPerFreelistPage P ∧
      p.lastModifiedLsn < 2 ^ 64 ∧ p.nextFreelistPageId < 2 ^ 64 ∧
      ∀ x ∈ p.freedPageIds, x < 2 ^ 64

theorem WithinFormat.encodable {page : AnyPage} (hP : P < 2 ^ 32) (h : WithinFormat P page) :
    Encodable P page := by
  have h4 : (256 : ℕ) ^ 4 = 2 ^ 32 := by norm_num
  have h8 : (256 : ℕ) ^ 8 = 2 ^ 64 := by norm_num
  match page, h with
  | .tree (.leaf p), h =>
      rw [Encodable, h4, h8]
      exact ⟨hP, h⟩
  | .tree (.internal p), h =>
      rw [Encodable, h4, h8]
      exact ⟨hP, h⟩
  | .freelist p, h =>
      obtain ⟨hlen, hrest⟩ := h
      rw [Encodable, h4, h8]
      refine ⟨hP, ?_, hrest⟩
      simp only [getMaxFreedIdsPerFreelistPage, pageHeaderSize, pageIdFieldSize] at hlen ⊢
      omega

/-- Every page that the format can hold is encoded in exactly one page and read back, and
the free space of a slotted page is what its calculated size leaves. -/
theorem page_round_trip (P : ℕ) (page : AnyPage) (hP : P < 2 ^ 32) (h : WithinFormat P page) :
    ∃ data, encodePage page P = .ok data ∧ data.length = P ∧ decodePage data = .ok page ∧
      ∀ p, page = .tree p →
        (freeSpaceEnd data : ℤ) - freeSpaceStart data = P - calculatePageSize p := by
  have hencodable := h.encodable hP
  obtain ⟨data, hencode, hlength, hdecode⟩ := encodePage_spec hencodable
  refine ⟨data, hencode, hlength, hdecode, ?_⟩
  rintro p rfl
  have hP' : P < 256 ^ 4 := by
    norm_num at hP ⊢
    exact hP
  cases p with
  | leaf p =>
      rw [encodePage_leaf hencodable] at hencode
      obtain rfl := Except.ok.inj hencode
      rw [leafBytes, ← slottedSize_leafRecord p]
      exact freeSpace_slottedPage hP' (by rw [slottedSize_leafRecord]; exact h.1)
  | internal p =>
      rw [encodePage_internal hencodable] at hencode
      obtain rfl := Except.ok.inj hencode
      rw [internalBytes, ← slottedSize_internalRecord p]
      exact freeSpace_slottedPage hP' (by rw [slottedSize_internalRecord]; exact h.1)

/-- A leaf that fills its page exactly. -/
theorem page_round_trip_full : ∃ data,
    encodePage (.tree (.leaf ⟨3, 0, [⟨[], []⟩, ⟨[1], [2, 3]⟩]⟩)) 67 = .ok data ∧
      data.length = 67 ∧ decodePage data = .ok (.tree (.leaf ⟨3, 0, [⟨[], []⟩, ⟨[1], [2, 3]⟩]⟩)) ∧
      (freeSpaceEnd data : ℤ) - freeSpaceStart data = 0 := by
  obtain ⟨data, hencode, hlength, hdecode, hspace⟩ :=
    page_round_trip 67 (.tree (.leaf ⟨3, 0, [⟨[], []⟩, ⟨[1], [2, 3]⟩]⟩)) (by norm_num)
      ⟨by decide, by norm_num, by norm_num⟩
  exact ⟨data, hencode, hlength, hdecode, hspace _ rfl⟩

end BPTreeDB.Codec
