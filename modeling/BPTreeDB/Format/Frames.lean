import BPTreeDB.Format.Logs

/-!
# Reading arbitrary bytes as a log

The length fields cut the bytes of a log into frames.  The reader decodes one frame after
the other: a frame whose checksum does not match is skipped, a record behind such a frame or
out of sequence is corruption, and a frame that has its checksum but not the shape of a
record raises what the decoder raises.
-/

namespace BPTreeDB.WAL

open Lib Eng Codec Lib.Program

variable {unread frame : Bytes} {frames front back : List Bytes} {position last : ℕ} {broken : Bool}

/-! ## Frames -/

/-- The frames that the length fields cut off.  Every frame has a length field, so `fuel` up
to the number of bytes is enough. -/
def framesOf : (fuel : ℕ) → (unread : Bytes) → List Bytes
  | 0, _ => []
  | fuel + 1, unread =>
      if unread.length < lengthFieldSize then []
      else
        let total := lengthFieldSize + unpackLE (unread.take lengthFieldSize)
        if unread.length < total then []
        else unread.take total :: framesOf fuel (unread.drop total)

/-- The frames of a log. -/
def logFrames (log : Bytes) : List Bytes := framesOf log.length log

/-- The loop of `_iter_records`, frame by frame. -/
def readFrames : (position lastLsn : ℕ) → (broken : Bool) → List Bytes → Iteration
  | _, _, _, [] => ⟨[], none⟩
  | position, lastLsn, broken, frame :: rest =>
      match decodeWalRecord frame with
      | .error (.checksum _ _) => readFrames (position + frame.length) lastLsn true rest
      | .error e => ⟨[], some e⟩
      | .ok record =>
          if broken then
            ⟨[], some (.corrupted "WAL contains a broken record followed by a valid record")⟩
          else if lastLsn ≠ 0 ∧ record.lsn ≠ lastLsn + 1 then
            ⟨[], some (.corrupted ("WAL contains non-sequential LSNs: " ++ toString lastLsn ++
              " followed by " ++ toString record.lsn))⟩
          else
            let tail := readFrames (position + frame.length) record.lsn false rest
            { tail with records := (record, position + frame.length) :: tail.records }

/-- Behind its checksum a record is read field by field. -/
theorem decodes_decodeWalRecord (hcrc : verifyCrc32 frame = .ok ()) :
    Decodes (decodeWalRecord frame) := by
  unfold decodeWalRecord
  rw [hcrc]
  refine (decodes_ok ()).bind fun _ => (decodes_unpackFrom _ _ _).bind fun lsn =>
    (decodes_unpackFrom _ _ _).bind fun opType => ?_
  split
  · exact (decodes_readLengthPrefixed _ _).bind fun _ =>
      (decodes_readLengthPrefixed _ _).bind fun _ => decodes_ok _
  · exact (decodes_readLengthPrefixed _ _).bind fun _ => decodes_ok _
  · exact (decodes_unpackFrom _ _ _).bind fun _ => (decodes_unpackFrom _ _ _).bind fun _ =>
      (decodes_unpackFrom _ _ _).bind fun _ => decodes_ok _
  · exact decodes_error (.inr ⟨_, rfl⟩)

/-- What decoding a frame can raise. -/
theorem decodeWalRecord_error {e : Err} (hlen : lengthFieldSize ≤ frame.length)
    (h : decodeWalRecord frame = .error e) :
    (verifyCrc32 frame ≠ .ok () ∧ ∃ expected actual, e = .checksum expected actual) ∨
      (verifyCrc32 frame = .ok () ∧ FormatError e) := by
  rcases verifyCrc32_cases frame (by exact hlen) with hcrc | ⟨expected, actual, hcrc⟩
  · exact .inr ⟨hcrc, decodes_decodeWalRecord hcrc e h⟩
  · unfold decodeWalRecord at h
    rw [hcrc] at h
    obtain rfl := Except.error.inj h
    exact .inl ⟨by simp [hcrc], expected, actual, rfl⟩

theorem length_of_mem_framesOf : ∀ {fuel : ℕ} {unread : Bytes}, frame ∈ framesOf fuel unread →
    lengthFieldSize ≤ frame.length := by
  intro fuel
  induction fuel with
  | zero =>
      intro unread h
      cases h
  | succ fuel ih =>
      intro unread h
      rw [framesOf] at h
      split at h
      · cases h
      · dsimp only at h
        split at h
        · cases h
        · rename_i hlong
          rcases List.mem_cons.mp h with rfl | h
          · rw [List.length_take]
            omega
          · exact ih h

/-- The reader is a loop over the frames; it never runs out of fuel. -/
theorem iterLoop_eq_readFrames (fuel : ℕ) : ∀ (unread : Bytes) (position last : ℕ) (broken : Bool),
    unread.length ≤ fuel → iterLoop (fuel + 1) unread position last broken =
      readFrames position last broken (framesOf fuel unread) := by
  induction fuel with
  | zero =>
      intro unread position last broken h
      obtain rfl : unread = [] := List.length_eq_zero_iff.mp (Nat.le_zero.mp h)
      rfl
  | succ fuel ih =>
      intro unread position last broken h
      rw [iterLoop, framesOf, decodeNextWalRecord]
      by_cases hshort : unread.length < lengthFieldSize
      · rw [if_pos hshort, if_pos hshort]
        rfl
      · rw [if_neg hshort, if_neg hshort]
        dsimp only
        by_cases hcut : unread.length < lengthFieldSize + unpackLE (unread.take lengthFieldSize)
        · rw [if_pos hcut, if_pos hcut]
          rfl
        · rw [if_neg hcut, if_neg hcut]
          generalize htotal : lengthFieldSize + unpackLE (unread.take lengthFieldSize) = total at *
          -- Each frame takes at least its length field, which pays for the fuel.
          have hpos : 4 ≤ total := by
            rw [← htotal, lengthFieldSize]
            omega
          have hlen : (unread.take total).length = unread.length - (unread.drop total).length := by
            rw [List.length_take, List.length_drop]
            omega
          have hrest : (unread.drop total).length ≤ fuel := by
            rw [List.length_drop]
            omega
          rw [readFrames, hlen]
          cases hdecode : decodeWalRecord (unread.take total) with
          | ok record =>
              dsimp only
              split
              · rfl
              · split
                · rfl
                · rw [ih _ _ _ _ hrest]
          | error e =>
              rcases decodeWalRecord_error
                (by rw [List.length_take, lengthFieldSize]; omega) hdecode
                with ⟨-, expected, actual, rfl⟩ | ⟨-, rfl | ⟨message, rfl⟩⟩
              · exact ih _ _ _ _ hrest
              · rfl
              · rfl

theorem iterRecords_eq (log : Bytes) : iterRecords log = readFrames 0 0 false (logFrames log) :=
  iterLoop_eq_readFrames log.length log 0 0 false le_rfl

/-! ## The shape of a frame -/

/-- The last four bytes are the checksum of the bytes before them. -/
def ChecksumMatches (frame : Bytes) : Prop :=
  crc32FieldSize ≤ frame.length ∧ crc32 (frame.take (frame.length - crc32FieldSize)) =
    unpackLE (frame.drop (frame.length - crc32FieldSize))

/-- The LSN behind the length field. -/
def frameLsn (frame : Bytes) : ℕ := unpackLE (readAt frame 4 8)

/-- The operation tag behind the LSN. -/
def frameTag (frame : Bytes) : ℕ := unpackLE (readAt frame 12 1)

/-- The length field of the key behind the tag. -/
def frameKeyLength (frame : Bytes) : ℕ := unpackLE (readAt frame 13 4)

/-- The shape of a record: room for length field, LSN and tag, one of the three tags, and
behind it what the reader of that operation unpacks.  A PUT needs the length fields of its key
and of the value behind the key, a DELETE the length field of its key, a CHECKPOINT its three
page ids.  The bytes of the value, or of the key of a DELETE, may be cut off by the end of
the frame: they are a slice. -/
def RecordShaped (frame : Bytes) : Prop :=
  13 ≤ frame.length ∧
    (frameTag frame = 1 ∧ 21 + frameKeyLength frame ≤ frame.length ∨
      frameTag frame = 2 ∧ 17 ≤ frame.length ∨ frameTag frame = 3 ∧ 37 ≤ frame.length)

/-- A frame that has its checksum and not the shape of a record. -/
def MalformedFrame (frame : Bytes) : Prop := ChecksumMatches frame ∧ ¬ RecordShaped frame

/-- A frame that fails the checksum. -/
def BrokenFrame (frame : Bytes) : Prop := verifyCrc32 frame ≠ .ok ()

theorem verifyCrc32_iff (frame : Bytes) : verifyCrc32 frame = .ok () ↔ ChecksumMatches frame := by
  have hlen : (frame.drop (frame.length - crc32FieldSize)).length = crc32FieldSize ↔
      crc32FieldSize ≤ frame.length := by
    rw [List.length_drop]
    omega
  unfold verifyCrc32 ChecksumMatches
  rw [← hlen]
  generalize frame.drop (frame.length - crc32FieldSize) = tail
  generalize crc32 (frame.take (frame.length - crc32FieldSize)) = actual
  by_cases htail : tail.length = crc32FieldSize
  · by_cases hcrc : actual = unpackLE tail
    · simp [htail, hcrc, pure, Except.pure]
    · simp [htail, hcrc, throw, throwThe, MonadExceptOf.throw]
  · simp [htail, bind, Except.bind, throw, throwThe, MonadExceptOf.throw]

theorem brokenFrame_iff : BrokenFrame frame ↔ ¬ ChecksumMatches frame :=
  not_congr (verifyCrc32_iff frame)

theorem unpackFrom_ok_iff {data : Bytes} {offset width n : ℕ} :
    unpackFrom data offset width = .ok n ↔
      offset + width ≤ data.length ∧ unpackLE (readAt data offset width) = n := by
  unfold unpackFrom
  split
  · rename_i h
    simp [h]
  · rename_i h
    simp [h]

theorem readLengthPrefixed_ok_iff {data payload : Bytes} {offset end_ : ℕ} :
    readLengthPrefixed data offset = .ok (payload, end_) ↔ offset + 4 ≤ data.length ∧
      readAt data (offset + 4) (unpackLE (readAt data offset 4)) = payload ∧
        offset + 4 + unpackLE (readAt data offset 4) = end_ := by
  unfold readLengthPrefixed
  rw [Codec.bind_eq_ok]
  constructor
  · rintro ⟨length, hlength, h⟩
    obtain ⟨hlen, rfl⟩ := unpackFrom_ok_iff.mp hlength
    cases h
    exact ⟨hlen, rfl, rfl⟩
  · rintro ⟨hlen, rfl, rfl⟩
    exact ⟨_, unpackFrom_ok_iff.mpr ⟨hlen, rfl⟩, rfl⟩

/-- A frame with its checksum and the shape of a record is a record. -/
theorem decodeWalRecord_of_shaped (hcrc : ChecksumMatches frame) (h : RecordShaped frame) :
    ∃ r, decodeWalRecord frame = .ok r := by
  obtain ⟨hheader, hbody⟩ := h
  have hlsn : unpackFrom frame 4 8 = .ok (frameLsn frame) :=
    unpackFrom_ok_iff.mpr ⟨by omega, rfl⟩
  have htag : unpackFrom frame 12 1 = .ok (frameTag frame) :=
    unpackFrom_ok_iff.mpr ⟨by omega, rfl⟩
  have hok : ∀ {α β : Type} (a : α) (g : α → Except Err β), (Except.ok a >>= g) = g a :=
    fun _ _ => rfl
  unfold decodeWalRecord
  rw [(verifyCrc32_iff frame).mpr hcrc, hok, hlsn, hok, htag, hok]
  rcases hbody with ⟨htag, hbody⟩ | ⟨htag, hbody⟩ | ⟨htag, hbody⟩
  · rw [htag]
    unfold frameKeyLength at hbody
    exact ⟨_, Codec.bind_eq_ok.mpr ⟨(_, _), readLengthPrefixed_ok_iff.mpr ⟨by omega, rfl, rfl⟩,
      Codec.bind_eq_ok.mpr ⟨(_, _), readLengthPrefixed_ok_iff.mpr ⟨by omega, rfl, rfl⟩, rfl⟩⟩⟩
  · rw [htag]
    exact ⟨_, Codec.bind_eq_ok.mpr ⟨(_, _), readLengthPrefixed_ok_iff.mpr ⟨by omega, rfl, rfl⟩,
      rfl⟩⟩
  · rw [htag]
    exact ⟨_, Codec.bind_eq_ok.mpr ⟨_, unpackFrom_ok_iff.mpr ⟨by omega, rfl⟩,
      Codec.bind_eq_ok.mpr ⟨_, unpackFrom_ok_iff.mpr ⟨by omega, rfl⟩,
        Codec.bind_eq_ok.mpr ⟨_, unpackFrom_ok_iff.mpr ⟨by omega, rfl⟩, rfl⟩⟩⟩⟩

/-- Nothing else is. -/
theorem shaped_of_decodeWalRecord {r : WALRecord} (h : decodeWalRecord frame = .ok r) :
    ChecksumMatches frame ∧ RecordShaped frame ∧ r.lsn = frameLsn frame := by
  unfold decodeWalRecord at h
  obtain ⟨_, hcrc, h⟩ := Codec.bind_eq_ok.mp h
  obtain ⟨lsn, hlsn, h⟩ := Codec.bind_eq_ok.mp h
  obtain ⟨opType, hop, h⟩ := Codec.bind_eq_ok.mp h
  obtain ⟨-, rfl⟩ := unpackFrom_ok_iff.mp hlsn
  obtain ⟨hheader, htag⟩ := unpackFrom_ok_iff.mp hop
  refine ⟨(verifyCrc32_iff frame).mp hcrc, ?_⟩
  split at h
  case h_1 =>
    obtain ⟨⟨key, offset⟩, hkey, h⟩ := Codec.bind_eq_ok.mp h
    dsimp only at h
    obtain ⟨⟨value, end_⟩, hvalue, hrecord⟩ := Codec.bind_eq_ok.mp h
    obtain ⟨hlen, -, rfl⟩ := readLengthPrefixed_ok_iff.mp hkey
    obtain ⟨hlen', -, -⟩ := readLengthPrefixed_ok_iff.mp hvalue
    obtain rfl := Except.ok.inj hrecord
    exact ⟨⟨hheader, .inl ⟨htag, by unfold frameKeyLength; omega⟩⟩, rfl⟩
  case h_2 =>
    obtain ⟨⟨key, offset⟩, hkey, h⟩ := Codec.bind_eq_ok.mp h
    obtain ⟨hlen, -, -⟩ := readLengthPrefixed_ok_iff.mp hkey
    cases h
    exact ⟨⟨hheader, .inr (.inl ⟨htag, hlen⟩)⟩, rfl⟩
  case h_3 =>
    obtain ⟨root, hroot, h⟩ := Codec.bind_eq_ok.mp h
    obtain ⟨head, hhead, h⟩ := Codec.bind_eq_ok.mp h
    obtain ⟨next, hnext, h⟩ := Codec.bind_eq_ok.mp h
    obtain ⟨hlen, -⟩ := unpackFrom_ok_iff.mp hnext
    cases h
    exact ⟨⟨hheader, .inr (.inr ⟨htag, hlen⟩)⟩, rfl⟩
  case h_4 => cases h
/-! ## Malformed frames -/

/-- Each LSN is the one after the LSN before it.  The reader takes an LSN of 0 for the
beginning. -/
def Sequential (lsns : List ℕ) : Prop := lsns.IsChain fun a b => a = 0 ∨ b = a + 1

/-- Frames that the reader passes: records with consecutive LSNs, then frames that fail their
checksum. -/
def Passable (last : ℕ) (broken : Bool) (frames : List Bytes) : Prop :=
  ∃ valid rest : List Bytes, frames = valid ++ rest ∧
    (∀ frame ∈ valid, ChecksumMatches frame ∧ RecordShaped frame) ∧
    Sequential (last :: valid.map frameLsn) ∧ (∀ frame ∈ rest, ¬ ChecksumMatches frame) ∧
    (broken = true → valid = [])

theorem passable_nil : Passable last broken [] :=
  ⟨[], [], rfl, by simp, List.isChain_singleton _, by simp, fun _ => rfl⟩

/-- One frame more: a record in sequence, or a frame that fails its checksum. -/
theorem passable_cons (hcrc : ChecksumMatches frame) (hshape : RecordShaped frame) :
    Passable last broken (frame :: frames) ↔
      broken = false ∧ (last = 0 ∨ frameLsn frame = last + 1) ∧
        Passable (frameLsn frame) false frames := by
  constructor
  · rintro ⟨valid, rest, heq, hvalid, hsequential, hrest, hbroken⟩
    cases valid with
    | nil =>
        rw [List.nil_append] at heq
        exact absurd hcrc (hrest frame (heq ▸ List.mem_cons_self ..))
    | cons x valid =>
        obtain ⟨rfl, rfl⟩ := List.cons.inj heq
        have hopen : broken = false := by
          cases broken with
          | true => exact absurd (hbroken rfl) (by simp)
          | false => rfl
        obtain ⟨hlink, hsequential⟩ := List.isChain_cons_cons.mp hsequential
        exact ⟨hopen, hlink, valid, rest, rfl, fun y hy => hvalid y (List.mem_cons_of_mem _ hy),
          hsequential, hrest, by simp⟩
  · rintro ⟨rfl, hlink, valid, rest, rfl, hvalid, hsequential, hrest, -⟩
    refine ⟨frame :: valid, rest, rfl, fun y hy => ?_,
      List.isChain_cons_cons.mpr ⟨hlink, hsequential⟩, hrest, by simp⟩
    rcases List.mem_cons.mp hy with rfl | hy
    · exact ⟨hcrc, hshape⟩
    · exact hvalid y hy

theorem passable_cons_broken (hbroken : ¬ ChecksumMatches frame) :
    Passable last broken (frame :: frames) ↔ Passable last true frames := by
  constructor
  · rintro ⟨valid, rest, heq, hvalid, -, hrest, -⟩
    cases valid with
    | nil =>
        rw [List.nil_append] at heq
        exact ⟨[], frames, rfl, by simp, List.isChain_singleton _,
          fun x hx => hrest x (heq ▸ List.mem_cons_of_mem _ hx), fun _ => rfl⟩
    | cons x valid =>
        obtain ⟨rfl, -⟩ := List.cons.inj heq
        exact absurd (hvalid frame (List.mem_cons_self ..)).1 hbroken
  · rintro ⟨valid, rest, rfl, -, -, hrest, hnil⟩
    obtain rfl := hnil rfl
    refine ⟨[], frame :: rest, rfl, by simp, List.isChain_singleton _, fun x hx => ?_,
      fun _ => rfl⟩
    rcases List.mem_cons.mp hx with rfl | hx
    · exact hbroken
    · exact hrest x hx

/-- A malformed frame behind frames that the reader passes. -/
def MeetsMalformed (last : ℕ) (broken : Bool) (frames : List Bytes) : Prop :=
  ∃ front frame back, frames = front ++ frame :: back ∧ Passable last broken front ∧
    MalformedFrame frame

theorem meetsMalformed_cons :
    MeetsMalformed last broken (frame :: frames) ↔ MalformedFrame frame ∨
      ∃ front x back, frames = front ++ x :: back ∧ Passable last broken (frame :: front) ∧
        MalformedFrame x := by
  constructor
  · rintro ⟨front, x, back, heq, hpass, hx⟩
    cases front with
    | nil =>
        obtain ⟨rfl, rfl⟩ := List.cons.inj heq
        exact .inl hx
    | cons y front =>
        obtain ⟨rfl, rfl⟩ := List.cons.inj heq
        exact .inr ⟨front, x, back, rfl, hpass, hx⟩
  · rintro (hframe | ⟨front, x, back, rfl, hpass, hx⟩)
    · exact ⟨[], frame, frames, rfl, passable_nil, hframe⟩
    · exact ⟨frame :: front, x, back, rfl, hpass, hx⟩

theorem isCorruptedError_corrupted (message : String) : IsCorruptedError (.corrupted message) :=
  .inl ⟨message, rfl⟩

theorem not_isCorruptedError_of_formatError {e : Err} (h : FormatError e) :
    ¬ IsCorruptedError e := by
  rcases h with rfl | ⟨message, rfl⟩
  · simp [IsCorruptedError]
  · simp [IsCorruptedError]

/-- The reader raises another exception than `DBCorruptedError` exactly if it meets a
malformed frame. -/
theorem readFrames_escapes_iff (frames : List Bytes) :
    ∀ (position last : ℕ) (broken : Bool), (∀ frame ∈ frames, lengthFieldSize ≤ frame.length) →
      ((∃ e, (readFrames position last broken frames).error = some e ∧ ¬ IsCorruptedError e) ↔
        MeetsMalformed last broken frames) := by
  induction frames with
  | nil =>
      intro position last broken _
      constructor
      · rintro ⟨e, he, -⟩
        cases he
      · rintro ⟨front, frame, back, heq, -⟩
        cases front <;> cases heq
  | cons frame frames ih =>
      intro position last broken hlen
      have hrest := fun x hx => hlen x (List.mem_cons_of_mem frame hx)
      rw [meetsMalformed_cons, readFrames]
      cases hdecode : decodeWalRecord frame with
      | ok r =>
          obtain ⟨hcrc, hshape, hlsn⟩ := shaped_of_decodeWalRecord hdecode
          have hwell : ¬ MalformedFrame frame := fun h => h.2 hshape
          simp only [hwell, false_or, passable_cons hcrc hshape, ← hlsn]
          cases broken with
          | true =>
              constructor
              · rintro ⟨e, he, hnot⟩
                cases he
                exact absurd (isCorruptedError_corrupted _) hnot
              · rintro ⟨front, x, back, -, ⟨h, -⟩, -⟩
                cases h
          | false =>
              -- A gap in the LSNs is an exception that the reader documents.
              by_cases hjump : last ≠ 0 ∧ r.lsn ≠ last + 1
              · simp only [Bool.false_eq_true, if_false, if_pos hjump]
                constructor
                · rintro ⟨e, he, hnot⟩
                  cases he
                  exact absurd (isCorruptedError_corrupted _) hnot
                · rintro ⟨front, x, back, -, ⟨-, hlink, -⟩, -⟩
                  rcases hlink with h | h
                  · exact absurd h hjump.1
                  · exact absurd h hjump.2
              · have hlink : last = 0 ∨ r.lsn = last + 1 := by
                  by_contra hnot
                  exact hjump (not_or.mp hnot)
                simp only [Bool.false_eq_true, if_false, if_neg hjump, ih _ r.lsn false hrest,
                  MeetsMalformed, hlink, true_and]
      | error e =>
          rcases decodeWalRecord_error (hlen frame (List.mem_cons_self ..)) hdecode with
            ⟨hcrc, expected, actual, rfl⟩ | ⟨hcrc, hformat⟩
          · rw [Ne, verifyCrc32_iff] at hcrc
            have hwell : ¬ MalformedFrame frame := fun h => hcrc h.1
            simp only [hwell, false_or, passable_cons_broken hcrc]
            exact ih _ last true hrest
          · rw [verifyCrc32_iff] at hcrc
            -- The checksum matches and the decoder raises, so the frame has not the shape of a
            -- record.
            have hmalformed : MalformedFrame frame := by
              refine ⟨hcrc, fun hshape => ?_⟩
              obtain ⟨r, hr⟩ := decodeWalRecord_of_shaped hcrc hshape
              rw [hdecode] at hr
              cases hr
            simp only [hmalformed, true_or, iff_true]
            rcases hformat with rfl | ⟨message, rfl⟩
            · exact ⟨_, rfl, not_isCorruptedError_of_formatError (.inl rfl)⟩
            · exact ⟨_, rfl, not_isCorruptedError_of_formatError (.inr ⟨message, rfl⟩)⟩

theorem iterRecords_escapes_iff (log : Bytes) :
    (∃ e, (iterRecords log).error = some e ∧ ¬ IsCorruptedError e) ↔
      MeetsMalformed 0 false (logFrames log) := by
  rw [iterRecords_eq]
  exact readFrames_escapes_iff _ 0 0 false fun _ h => length_of_mem_framesOf h

/-- A reader that raises nothing has passed all frames. -/
theorem passable_of_readFrames (frames : List Bytes) :
    ∀ (position last : ℕ) (broken : Bool), (∀ frame ∈ frames, lengthFieldSize ≤ frame.length) →
      (readFrames position last broken frames).error = none → Passable last broken frames := by
  induction frames with
  | nil => exact fun _ _ _ _ _ => passable_nil
  | cons frame frames ih =>
      intro position last broken hlen hread
      have hrest := fun x hx => hlen x (List.mem_cons_of_mem frame hx)
      rw [readFrames] at hread
      cases hdecode : decodeWalRecord frame with
      | ok r =>
          simp only [hdecode] at hread
          obtain ⟨hcrc, hshape, hlsn⟩ := shaped_of_decodeWalRecord hdecode
          rw [passable_cons hcrc hshape, ← hlsn]
          cases broken with
          | true => cases hread
          | false =>
              by_cases hjump : last ≠ 0 ∧ r.lsn ≠ last + 1
              · simp only [Bool.false_eq_true, if_false, if_pos hjump] at hread
                cases hread
              · simp only [Bool.false_eq_true, if_false, if_neg hjump] at hread
                refine ⟨rfl, ?_, ih _ _ _ hrest hread⟩
                by_contra hnot
                exact hjump (not_or.mp hnot)
      | error e =>
          simp only [hdecode] at hread
          rcases decodeWalRecord_error (hlen frame (List.mem_cons_self ..)) hdecode with
            ⟨hcrc, expected, actual, rfl⟩ | ⟨hcrc, rfl | ⟨message, rfl⟩⟩
          · rw [Ne, verifyCrc32_iff] at hcrc
            rw [passable_cons_broken hcrc]
            exact ih _ _ _ hrest hread
          · cases hread
          · cases hread

/-- Where the reader has passed, no record stands behind a broken frame. -/
theorem Passable.broken_behind {bad good : Bytes} {middle : List Bytes}
    (h : Passable last broken (front ++ bad :: (middle ++ good :: back)))
    (hbad : ¬ ChecksumMatches bad) : ¬ ChecksumMatches good := by
  induction front generalizing last broken with
  | nil =>
      rw [List.nil_append, passable_cons_broken hbad] at h
      obtain ⟨valid, rest, heq, -, -, hrest, hnil⟩ := h
      obtain rfl := hnil rfl
      apply hrest good
      rw [← List.nil_append rest, ← heq]
      simp
  | cons frame front ih =>
      by_cases hbroken : ChecksumMatches frame
      · obtain ⟨valid, rest, heq, hvalid, hsequential, hrest, hnil⟩ := h
        cases valid with
        | nil =>
            rw [List.nil_append] at heq
            exact absurd hbroken (hrest frame (heq ▸ List.mem_cons_self ..))
        | cons x valid =>
            obtain ⟨rfl, htail⟩ := List.cons.inj heq
            have hpass : Passable (frameLsn frame) false
                (front ++ bad :: (middle ++ good :: back)) :=
              ⟨valid, rest, htail, fun y hy => hvalid y (List.mem_cons_of_mem _ hy),
                (List.isChain_cons_cons.mp hsequential).2, hrest, fun h => by cases h⟩
            exact ih hpass
      · rw [List.cons_append, passable_cons_broken hbroken] at h
        exact ih h

end BPTreeDB.WAL
