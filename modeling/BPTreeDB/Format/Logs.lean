import BPTreeDB.Format.MetaPage
import BPTreeDB.Model.Wal
import BPTreeDB.Lib.Program

/-!
# Logs

A log file is a sequence of encoded records, perhaps followed by a torn record of which
only a part was written.  A part of a record is shorter than its length field says, so
reading the log back gives the whole records and stops without an exception, as long as
their LSNs are consecutive.
-/

namespace BPTreeDB.Codec

open Lib

variable {r : WALRecord} {data tail : Bytes}

/-! ## One record -/

/-- The payload of a record. -/
def payloadBytes : WALRecord → Bytes
  | .put _ key value => prefixed key ++ prefixed value
  | .delete _ key => prefixed key
  | .checkpoint _ root head next => packLE 8 root ++ packLE 8 head ++ packLE 8 next

/-- What the checksum of a record covers. -/
def recordBody (r : WALRecord) : Bytes :=
  packLE 4 (13 + (payloadBytes r).length) ++ (packLE 8 r.lsn ++ packLE 1 (walOperationType r)) ++
    payloadBytes r

/-- The bytes of a record. -/
def recordBytes (r : WALRecord) : Bytes := recordBody r ++ packLE 4 (crc32 (recordBody r))

/-- The fields of a payload fit. -/
def PayloadEncodable : WALRecord → Prop
  | .put _ key value => key.length < 256 ^ 4 ∧ value.length < 256 ^ 4
  | .delete _ key => key.length < 256 ^ 4
  | .checkpoint _ root head next => root < 256 ^ 8 ∧ head < 256 ^ 8 ∧ next < 256 ^ 8

/-- The records that the format can hold. -/
structure WalEncodable (r : WALRecord) : Prop where
  lsn : r.lsn < 256 ^ 8
  payload : PayloadEncodable r
  length : 13 + (payloadBytes r).length < 256 ^ 4

theorem walOperationType_lt (r : WALRecord) : walOperationType r < 256 ^ 1 := by
  cases r <;> simp [walOperationType]

theorem length_recordBytes (r : WALRecord) :
    (recordBytes r).length = 4 + (13 + (payloadBytes r).length) := by
  simp only [recordBytes, recordBody, List.length_append, length_packLE]
  omega

theorem encodeWalPayload_ok_iff :
    encodeWalPayload r = .ok data ↔ PayloadEncodable r ∧ data = payloadBytes r := by
  cases r with
  | put lsn key value =>
      constructor
      · intro h
        obtain ⟨_, hkey, h⟩ := bind_eq_ok.mp h
        obtain ⟨_, hvalue, h⟩ := bind_eq_ok.mp h
        obtain ⟨hkeyLength, rfl⟩ := lengthPrefixed_ok_iff.mp hkey
        obtain ⟨hvalueLength, rfl⟩ := lengthPrefixed_ok_iff.mp hvalue
        cases h
        exact ⟨⟨hkeyLength, hvalueLength⟩, rfl⟩
      · rintro ⟨⟨hkey, hvalue⟩, rfl⟩
        simp only [encodeWalPayload, lengthPrefixed_eq_ok hkey, lengthPrefixed_eq_ok hvalue]
        rfl
  | delete lsn key => exact lengthPrefixed_ok_iff
  | checkpoint lsn root head next =>
      constructor
      · intro h
        obtain ⟨_, hroot, h⟩ := bind_eq_ok.mp h
        obtain ⟨_, hhead, h⟩ := bind_eq_ok.mp h
        obtain ⟨_, hnext, h⟩ := bind_eq_ok.mp h
        obtain ⟨hrootFits, rfl⟩ := pack_ok_iff.mp hroot
        obtain ⟨hheadFits, rfl⟩ := pack_ok_iff.mp hhead
        obtain ⟨hnextFits, rfl⟩ := pack_ok_iff.mp hnext
        cases h
        exact ⟨⟨hrootFits, hheadFits, hnextFits⟩, rfl⟩
      · rintro ⟨⟨hroot, hhead, hnext⟩, rfl⟩
        simp only [encodeWalPayload, pack_eq_ok hroot, pack_eq_ok hhead, pack_eq_ok hnext]
        rfl

/-- `encode_wal_record` succeeds on the records that the format can hold. -/
theorem encodeWalRecord_ok_iff :
    encodeWalRecord r = .ok data ↔ WalEncodable r ∧ data = recordBytes r := by
  have hop := walOperationType_lt r
  have hlen : (packLE 8 r.lsn ++ packLE 1 (walOperationType r)).length + (payloadBytes r).length +
      crc32FieldSize = 13 + (payloadBytes r).length := by
    simp only [List.length_append, length_packLE, crc32FieldSize]
    omega
  constructor
  · intro h
    obtain ⟨payload, hpayload, h⟩ := bind_eq_ok.mp h
    obtain ⟨lsn, hlsn, h⟩ := bind_eq_ok.mp h
    obtain ⟨op, hop', h⟩ := bind_eq_ok.mp h
    obtain ⟨length, hlength, h⟩ := bind_eq_ok.mp h
    obtain ⟨hencodable, rfl⟩ := encodeWalPayload_ok_iff.mp hpayload
    obtain ⟨hlsnFits, rfl⟩ := pack_ok_iff.mp hlsn
    obtain ⟨-, rfl⟩ := pack_ok_iff.mp hop'
    rw [hlen] at hlength
    obtain ⟨hlengthFits, rfl⟩ := pack_ok_iff.mp hlength
    cases h
    exact ⟨⟨hlsnFits, hencodable, hlengthFits⟩, rfl⟩
  · rintro ⟨h, rfl⟩
    have hpayload := encodeWalPayload_ok_iff.mpr ⟨h.payload, rfl⟩
    have hlength := pack_eq_ok h.length
    simp only [encodeWalRecord, hpayload, pack_eq_ok h.lsn, pack_eq_ok hop, bind, Except.bind]
    rw [hlen, lengthFieldSize, hlength]
    rfl

theorem encodeWalRecord_eq_ok (h : WalEncodable r) : encodeWalRecord r = .ok (recordBytes r) :=
  encodeWalRecord_ok_iff.mpr ⟨h, rfl⟩

/-- `decode_wal_record` reads a record back. -/
theorem decodeWalRecord_recordBytes (h : WalEncodable r) :
    decodeWalRecord (recordBytes r) = .ok r := by
  set crc := packLE 4 (crc32 (recordBody r)) with hcrc
  have heq : recordBytes r = packLE 4 (13 + (payloadBytes r).length) ++ (packLE 8 r.lsn ++
      (packLE 1 (walOperationType r) ++ (payloadBytes r ++ crc))) := by
    simp only [recordBytes, recordBody, List.append_assoc, hcrc]
  have hdrop : ∀ (front back : Bytes) (offset : ℕ), recordBytes r = front ++ back →
      front.length = offset → (recordBytes r).drop offset = back := by
    intro front back offset heq hfront
    rw [heq, List.drop_left' hfront]
  have hlsn : unpackFrom (recordBytes r) 4 8 = .ok r.lsn :=
    unpackFrom_of_drop (by norm_num) h.lsn (hdrop _ _ 4 heq (by simp))
  have hop : unpackFrom (recordBytes r) 12 1 = .ok (walOperationType r) := by
    refine unpackFrom_of_drop (by norm_num) (walOperationType_lt r)
      (hdrop (packLE 4 (13 + (payloadBytes r).length) ++ packLE 8 r.lsn) _ 12
        (heq.trans (List.append_assoc ..).symm) (by simp))
  have hpayload : (recordBytes r).drop 13 = payloadBytes r ++ crc := by
    refine hdrop (packLE 4 (13 + (payloadBytes r).length) ++ (packLE 8 r.lsn ++
      packLE 1 (walOperationType r))) _ 13 ?_ (by simp)
    rw [heq]
    simp only [List.append_assoc]
  have hafter : ∀ (front back : Bytes) (offset : ℕ), payloadBytes r ++ crc = front ++ back →
      13 + front.length = offset → (recordBytes r).drop offset = back := by
    intro front back offset hsplit hoffset
    rw [← hoffset, ← List.drop_drop, hpayload, hsplit, List.drop_left' rfl]
  have hverify : verifyCrc32 (recordBytes r) = .ok () := verifyCrc32_self _
  have hencodable := h.payload
  unfold decodeWalRecord
  rw [hverify]
  simp only [hlsn, hop, bind, Except.bind]
  cases r with
  | put lsn key value =>
      have hkey := readLengthPrefixed_of_drop hencodable.1
        (hpayload.trans (List.append_assoc ..))
      have hvalue := readLengthPrefixed_of_drop hencodable.2
        (hafter (prefixed key) _ _ (List.append_assoc ..) rfl)
      simp only [walOperationType, hkey, hvalue, WALRecord.lsn]
      rfl
  | delete lsn key =>
      have hkey := readLengthPrefixed_of_drop hencodable hpayload
      simp only [walOperationType, hkey, WALRecord.lsn]
      rfl
  | checkpoint lsn root head next =>
      have hsplit : payloadBytes (.checkpoint lsn root head next) ++ crc =
          packLE 8 root ++ (packLE 8 head ++ (packLE 8 next ++ crc)) := by
        simp only [payloadBytes, List.append_assoc]
      have hroot := unpackFrom_of_drop (by norm_num) hencodable.1 (hpayload.trans hsplit)
      have hhead := unpackFrom_of_drop (by norm_num) hencodable.2.1
        (hafter (packLE 8 root) _ 21 hsplit (by simp))
      have hnext := unpackFrom_of_drop (by norm_num) hencodable.2.2
        (hafter (packLE 8 root ++ packLE 8 head) _ 29
          (hsplit.trans (List.append_assoc ..).symm) (by simp))
      simp only [walOperationType, hroot, hhead, hnext, WALRecord.lsn]
      rfl

/-- The length field of a record. -/
theorem unpackLE_take_recordBytes (h : WalEncodable r) (tail : Bytes) :
    unpackLE ((recordBytes r ++ tail).take 4) = 13 + (payloadBytes r).length := by
  have heq : recordBytes r ++ tail = packLE 4 (13 + (payloadBytes r).length) ++
      ((packLE 8 r.lsn ++ packLE 1 (walOperationType r)) ++ payloadBytes r ++
        packLE 4 (crc32 (recordBody r)) ++ tail) := by
    simp only [recordBytes, recordBody, List.append_assoc]
  rw [heq, List.take_left' (length_packLE _ _), unpackLE_packLE h.length]

/-- A whole record at the head of the unread bytes is read back. -/
theorem decodeNextWalRecord_recordBytes (h : WalEncodable r) (tail : Bytes) :
    decodeNextWalRecord (recordBytes r ++ tail) = (.ok r, tail) := by
  have hlen := length_recordBytes r
  have htotal : lengthFieldSize + unpackLE ((recordBytes r ++ tail).take lengthFieldSize) =
      (recordBytes r).length := by
    rw [lengthFieldSize, unpackLE_take_recordBytes h, hlen]
  unfold decodeNextWalRecord
  rw [if_neg (by simp only [List.length_append, lengthFieldSize]; omega)]
  dsimp only
  rw [htotal, if_neg (by simp), List.take_left' rfl, List.drop_left' rfl,
    decodeWalRecord_recordBytes h]

/-- A part of a record: what a crash leaves of the last one. -/
def Torn (part : Bytes) : Prop :=
  ∃ r, WalEncodable r ∧ part <+: recordBytes r ∧ part ≠ recordBytes r

theorem torn_nil : Torn [] :=
  ⟨.delete 0 [], ⟨by norm_num [WALRecord.lsn], by simp [PayloadEncodable],
    by simp [payloadBytes]⟩, List.nil_prefix, by simp [recordBytes, recordBody, packLE]⟩

/-- A part of a record ends the log. -/
theorem Torn.decodeNextWalRecord {part : Bytes} (h : Torn part) :
    decodeNextWalRecord part = (.error .eofError, []) := by
  obtain ⟨r, hr, ⟨rest, hrest⟩, hne⟩ := h
  have hlen := length_recordBytes r
  have hshort : part.length < (recordBytes r).length := by
    rw [← hrest, List.length_append]
    have hpos : rest ≠ [] := by
      rintro rfl
      rw [List.append_nil] at hrest
      exact hne hrest
    have := List.length_pos_of_ne_nil hpos
    omega
  unfold Codec.decodeNextWalRecord
  split
  · rfl
  · rename_i hlong
    have hfield : unpackLE (part.take lengthFieldSize) = 13 + (payloadBytes r).length := by
      have hlong : 4 ≤ part.length := not_lt.mp hlong
      have htake : (recordBytes r ++ []).take 4 = part.take 4 := by
        rw [List.append_nil, ← hrest, List.take_append_of_le_length hlong]
      rw [lengthFieldSize, ← htake, unpackLE_take_recordBytes hr]
    simp only [hfield]
    rw [if_pos]
    rw [lengthFieldSize, ← hlen]
    exact hshort

end BPTreeDB.Codec

namespace BPTreeDB.WAL

open Lib Eng Codec Lib.Program

variable {r : WALRecord} {rs : List WALRecord} {n : ℕ} {part : Bytes}

/-! ## Whole logs -/

/-- The bytes of a log. -/
def logBytes (rs : List WALRecord) : Bytes := rs.flatMap recordBytes

/-- The records of a log, each with the position behind it. -/
def positioned : ℕ → List WALRecord → List (WALRecord × ℕ)
  | _, [] => []
  | position, r :: rs =>
      (r, position + (recordBytes r).length) :: positioned (position + (recordBytes r).length) rs

/-- The LSNs of the records are `n`, `n + 1` and so on. -/
def Numbered : ℕ → List WALRecord → Prop
  | _, [] => True
  | n, r :: rs => r.lsn = n ∧ Numbered (n + 1) rs

@[simp] theorem logBytes_nil : logBytes [] = [] := rfl

@[simp] theorem logBytes_cons (r : WALRecord) (rs : List WALRecord) :
    logBytes (r :: rs) = recordBytes r ++ logBytes rs := rfl

@[simp] theorem logBytes_append (rs ss : List WALRecord) :
    logBytes (rs ++ ss) = logBytes rs ++ logBytes ss := by
  simp [logBytes]

theorem numbered_append {ss : List WALRecord} :
    Numbered n (rs ++ ss) ↔ Numbered n rs ∧ Numbered (n + rs.length) ss := by
  induction rs generalizing n with
  | nil => simp [Numbered]
  | cons r rs ih =>
      have hlen : n + 1 + rs.length = n + (r :: rs).length := by
        rw [List.length_cons]
        omega
      rw [List.cons_append, Numbered, Numbered, ih, hlen, and_assoc]

theorem Numbered.lsn_mem (h : Numbered n rs) (hr : r ∈ rs) : n ≤ r.lsn ∧ r.lsn < n + rs.length := by
  induction rs generalizing n with
  | nil => cases hr
  | cons s rs ih =>
      obtain ⟨hs, hrest⟩ := h
      rw [List.length_cons]
      rcases List.mem_cons.mp hr with rfl | hr
      · omega
      · have := ih hrest hr
        omega

/-- Dropping the records below an LSN. -/
theorem Numbered.filter_eq_drop (h : Numbered n rs) (k : ℕ) :
    rs.filter (fun r => decide (n + k ≤ r.lsn)) = rs.drop k := by
  induction rs generalizing n k with
  | nil => simp
  | cons r rs ih =>
      obtain ⟨hr, hrest⟩ := h
      cases k with
      | zero =>
          have hall : ∀ s ∈ r :: rs, decide (n + 0 ≤ s.lsn) = true := by
            intro s hs
            rcases List.mem_cons.mp hs with rfl | hs
            · simp [hr]
            · have := hrest.lsn_mem hs
              simp only [decide_eq_true_eq]
              omega
          rw [List.filter_eq_self.mpr hall, List.drop_zero]
      | succ k =>
          have hdrop := ih hrest k
          rw [List.filter_cons_of_neg (by simp [hr]), List.drop_succ_cons, ← hdrop]
          congr 1
          funext s
          congr 1
          have : n + (k + 1) = n + 1 + k := by omega
          rw [this]

theorem Numbered.drop (h : Numbered n rs) (k : ℕ) : Numbered (n + k) (rs.drop k) := by
  induction rs generalizing n k with
  | nil => simp [Numbered]
  | cons r rs ih =>
      cases k with
      | zero => exact h
      | succ k =>
          have := ih h.2 k
          rw [List.drop_succ_cons, show n + (k + 1) = n + 1 + k by omega]
          exact this

/-- The loop of `_iter_records` on whole records followed by a torn one. -/
theorem iterLoop_log (hpart : Torn part) : ∀ {rs : List WALRecord} {n : ℕ}
    (fuel position lastLsn : ℕ),
    Numbered n rs → (∀ r ∈ rs, WalEncodable r) → 1 ≤ n → (lastLsn = 0 ∨ n = lastLsn + 1) →
      (logBytes rs ++ part).length < fuel →
      iterLoop fuel (logBytes rs ++ part) position lastLsn false =
        ⟨positioned position rs, none⟩ := by
  intro rs
  induction rs with
  | nil =>
      intro n fuel position lastLsn _ _ _ _ hfuel
      cases fuel with
      | zero => cases hfuel
      | succ fuel =>
          rw [logBytes_nil, List.nil_append, iterLoop]
          simp only [hpart.decodeNextWalRecord, positioned]
  | cons r rs ih =>
      intro n fuel position lastLsn hnumbered hencodable hn hlast hfuel
      cases fuel with
      | zero => cases hfuel
      | succ fuel =>
          obtain ⟨hlsn, hrest⟩ := hnumbered
          have hr := hencodable r (List.mem_cons_self ..)
          have hlen := length_recordBytes r
          rw [logBytes_cons, List.append_assoc] at hfuel ⊢
          rw [List.length_append] at hfuel
          have hsequential : ¬ (lastLsn ≠ 0 ∧ r.lsn ≠ lastLsn + 1) := by
            rcases hlast with hlast | hlast
            · simp [hlast]
            · simp [hlsn, hlast]
          have hnext := ih fuel (position + (recordBytes r).length) r.lsn hrest
            (fun s hs => hencodable s (List.mem_cons_of_mem _ hs)) (by omega) (.inr (by rw [hlsn]))
            (by omega)
          have hposition : (recordBytes r ++ (logBytes rs ++ part)).length -
              (logBytes rs ++ part).length = (recordBytes r).length := by
            rw [List.length_append]
            omega
          rw [iterLoop]
          simp only [decodeNextWalRecord_recordBytes hr, Bool.false_eq_true, if_false,
            if_neg hsequential, hposition, hnext, positioned]

/-- A log with a torn tail is read back without an exception. -/
theorem iterRecords_log (hnumbered : Numbered n rs) (hencodable : ∀ r ∈ rs, WalEncodable r)
    (hn : 1 ≤ n) (hpart : Torn part) :
    iterRecords (logBytes rs ++ part) = ⟨positioned 0 rs, none⟩ :=
  iterLoop_log hpart _ 0 0 hnumbered hencodable hn (.inl rfl) (Nat.lt_succ_self _)

theorem map_fst_positioned (position : ℕ) (rs : List WALRecord) :
    (positioned position rs).map Prod.fst = rs := by
  induction rs generalizing position with
  | nil => rfl
  | cons r rs ih => rw [positioned, List.map_cons, ih]

/-- The records that `truncate_before` keeps. -/
theorem encodeFrom_positioned (lsn position : ℕ) (hencodable : ∀ r ∈ rs, WalEncodable r) :
    encodeFrom lsn (positioned position rs) =
      .ok (logBytes (rs.filter fun r => decide (lsn ≤ r.lsn))) := by
  induction rs generalizing position with
  | nil => rfl
  | cons r rs ih =>
      have hrest := ih (position + (recordBytes r).length)
        fun s hs => hencodable s (List.mem_cons_of_mem _ hs)
      rw [positioned, encodeFrom]
      by_cases hkeep : lsn ≤ r.lsn
      · rw [if_pos hkeep, List.filter_cons_of_pos (by simpa using hkeep), hrest,
          encodeWalRecord_eq_ok (hencodable r (List.mem_cons_self ..))]
        rfl
      · rw [if_neg hkeep, List.filter_cons_of_neg (by simpa using hkeep), hrest]

/-! ## Replaying -/

/-- The callback on one record after the other. -/
def replayAll (callback : WALRecord → Eng Unit) : List WALRecord → Eng Unit
  | [] => pure ()
  | r :: rs => do
      modify fun w => { w with wal := { w.wal with currentLsn := r.lsn } }
      callback r
      replayAll callback rs

/-- The position behind the last record is the length of the whole records. -/
theorem replayLoop_positioned (callback : WALRecord → Eng Unit) (position : ℕ)
    (rs : List WALRecord) :
    replayLoop callback (positioned position rs) position =
      replayAll callback rs >>= fun _ => pure (position + (logBytes rs).length) := by
  induction rs generalizing position with
  | nil =>
      rw [positioned, replayLoop, replayAll, pure_bind, logBytes_nil, List.length_nil, Nat.add_zero]
  | cons r rs ih =>
      rw [positioned, replayLoop, replayAll, ih, logBytes_cons, List.length_append]
      simp only [bind_assoc, Nat.add_assoc]

end BPTreeDB.WAL
