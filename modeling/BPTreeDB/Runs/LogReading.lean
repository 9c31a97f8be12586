import BPTreeDB.Engine.Recovery
import BPTreeDB.Format.Frames
import BPTreeDB.Runs.LogFailures

/-!
# Reading the log

What `replay` makes of the bytes in the log file: of a log with a torn tail, of arbitrary
bytes, and of a log with broken records in the middle.
-/

namespace BPTreeDB.Runs

open Lib Eng Codec Lib.Program Engine WAL

variable {w w' : World} {f : FileState} {rs : List WALRecord} {callback : WALRecord → Eng Unit}

/-! ## A log with a torn tail -/

/-- `replay` runs the callback on exactly the given records, in order, and then cuts the file
behind them. -/
def Replays (w : World) (rs : List WALRecord) : Prop :=
  ∃ f, w.disk.wal = some f ∧ ∀ callback, WAL.replay callback w =
    (replayAll callback rs >>= fun _ => cutTail f rs) (withLsn w 0)

/-- What a replay of `rs` leaves behind: the file holds exactly the records, and the counter
stands at the last LSN. -/
structure Replayed (rs : List WALRecord) (w : World) : Prop where
  isOpen : w.wal.isOpen = true
  power : w.power = none
  file : w.disk.wal = some ⟨logBytes rs, logBytes rs⟩
  lsn : w.wal.currentLsn = lastLsn rs

theorem replays_of_readable {part : Bytes} (hopen : w.wal.isOpen = true) (hf : w.disk.wal = some f)
    (hcontent : f.content = logBytes rs ++ part) (hread : Readable rs) (hpart : Torn part) :
    Replays w rs :=
  ⟨f, hf, fun callback => replay_eq hopen hf hcontent hread hpart callback⟩

/-- A replay with a callback that leaves the log alone. -/
theorem Replays.replayed (h : Replays w rs) (hopen : w.wal.isOpen = true) (hpower : w.power = none)
    (hcallback : LeavesLog callback) : ∃ w', WAL.replay callback w = .ok () w' ∧
      Replayed rs w' := by
  obtain ⟨f, hf, hreplay⟩ := h
  obtain ⟨w₁, hall, hopen₁, hpower₁, -, hlsn⟩ := replayAll_of_leavesLog hcallback rs
    (w := withLsn w 0) hopen hpower hf
  refine ⟨withLog w₁ none ⟨logBytes rs, logBytes rs⟩, ?_, hopen₁, rfl, rfl, ?_⟩
  · rw [hreplay, run_bind_ok hall]
    exact cutTail_eq hopen₁ hpower₁ f rs
  · refine hlsn.trans ?_
    by_cases hrs : rs = []
    · rw [if_pos hrs, hrs]
      rfl
    · rw [if_neg hrs]

theorem logHolds_of_replayed (h : Replayed rs w) (hread : Readable rs) :
    LogHolds rs [] w ∧ (UpToDate rs w ∨ rs = []) := by
  obtain ⟨base, hnumbered⟩ := hread.numbered
  by_cases hrs : rs = []
  · subst hrs
    refine ⟨⟨h.isOpen, h.power, by simp [h.file], by simp, ⟨0, trivial, Nat.zero_le _⟩, torn_nil⟩,
      .inr rfl⟩
  · have hlsn := h.lsn.trans (lastLsn_eq hnumbered hrs)
    exact ⟨⟨h.isOpen, h.power, by simp [h.file], hread.encodable, ⟨base, hnumbered, hlsn.ge⟩,
      torn_nil⟩, .inl ⟨base, hnumbered, hlsn.symm⟩⟩

/-- The encoded records are a log. -/
theorem mapM_encodeWalRecord {encoded : List Bytes} (h : rs.mapM encodeWalRecord = .ok encoded) :
    encoded.flatten = logBytes rs ∧ ∀ r ∈ rs, WalEncodable r := by
  have hencodable : ∀ r ∈ rs, WalEncodable r := by
    intro r hr
    obtain ⟨bytes, hbytes⟩ := mapM_ok h r hr
    exact (encodeWalRecord_ok_iff.mp hbytes).1
  rw [mapM_eq_ok fun r hr => encodeWalRecord_eq_ok (hencodable r hr)] at h
  obtain rfl := Except.ok.inj h
  exact ⟨rfl, hencodable⟩

/-- The round trip of a log that ends in a strict part of a further record: a replay delivers the
records, removes the tail
and leaves the counter at the last LSN, and so the log goes on with the next append. -/
theorem log_round_trip (rs : List WALRecord) (n : ℕ) (encoded : List Bytes) (next : WALRecord)
    (nextBytes part : Bytes) (w : World) (f : FileState) (callback : WALRecord → Eng Unit)
    (hn : 1 ≤ n) (hnumbered : Numbered n rs) (hencoded : rs.mapM encodeWalRecord = .ok encoded)
    (hnext : encodeWalRecord next = .ok nextBytes) (hpart : part <+: nextBytes)
    (hstrict : part ≠ nextBytes) (hopen : w.wal.isOpen = true) (hpower : w.power = none)
      (hf : w.disk.wal = some f)
    (hcontent : f.content = encoded.flatten ++ part) (hcallback : LeavesLog callback) :
    Replays w rs ∧ ∃ w', WAL.replay callback w = .ok () w' ∧
      w'.disk.wal.map (·.content) = some encoded.flatten ∧ w'.wal.currentLsn = lastLsn rs ∧
      ∀ (c : AppendCall) (bytes : Bytes), encodeWalRecord (c.record (lastLsn rs + 1)) = .ok bytes →
        ∃ w'', c.run w' = .ok (lastLsn rs + 1) w'' ∧
          Replays w'' (rs ++ [c.record (lastLsn rs + 1)]) ∧
          ∃ w₃, WAL.replay callback w'' = .ok () w₃ := by
  obtain ⟨hbytes, hencodable⟩ := mapM_encodeWalRecord hencoded
  obtain ⟨hnextEncodable, rfl⟩ := encodeWalRecord_ok_iff.mp hnext
  have hread : Readable rs := ⟨hencodable, n - 1, by rwa [Nat.sub_add_cancel hn]⟩
  have hreplays : Replays w rs := replays_of_readable hopen hf (by rw [hcontent, hbytes]) hread
    ⟨next, hnextEncodable, hpart, hstrict⟩
  obtain ⟨w', hrun, hreplayed⟩ := hreplays.replayed hopen hpower hcallback
  refine ⟨hreplays, w', hrun, by rw [hreplayed.file, hbytes]; rfl, hreplayed.lsn, ?_⟩
  intro c bytes hc
  obtain ⟨hcEncodable, -⟩ := encodeWalRecord_ok_iff.mp hc
  obtain ⟨hholds, hup⟩ := logHolds_of_replayed hreplayed hread
  have hrunc : ∃ lsn w'', c.run w' = .ok lsn w'' := by
    have houtcome := append_outcome hreplayed.isOpen hreplayed.file (c.record (lastLsn rs + 1))
    rw [c.run_eq, hreplayed.lsn]
    generalize WAL.append (c.record (lastLsn rs + 1)) w' = r at *
    cases houtcome with
    | refused hnot => exact absurd hcEncodable hnot
    | lostBefore _ hlost => exact absurd hreplayed.power hlost
    | lostBetween _ hlost => exact absurd hreplayed.power hlost
    | done _ _ => exact ⟨_, _, rfl⟩
  obtain ⟨lsn, w'', hc'⟩ := hrunc
  obtain ⟨hholds'', hup'', rfl⟩ := hholds.append hup hc'
  rw [hreplayed.lsn] at *
  obtain ⟨f'', hf'', hcontent'', -⟩ := hholds''.file
  obtain ⟨base'', hnumbered'', -⟩ := hholds''.numbered
  have hreplays'' : Replays w'' (rs ++ [c.record (lastLsn rs + 1)]) :=
    replays_of_readable hholds''.isOpen hf'' hcontent'' ⟨hholds''.encodable, base'', hnumbered''⟩
      torn_nil
  obtain ⟨w₃, hrun₃, -⟩ := hreplays''.replayed hholds''.isOpen hholds''.power hcallback
  exact ⟨w'', hc', hreplays'', w₃, hrun₃⟩

/-- Three records from LSN 3 on. -/
def threeRecords : List WALRecord := [.put 3 [1] [2], .delete 4 [9], .checkpoint 5 1 0 2]

theorem walEncodable_threeRecords : ∀ r ∈ threeRecords, WalEncodable r := by
  have hput : WalEncodable (.put 3 [1] [2]) :=
    ⟨by norm_num [WALRecord.lsn], by simp [PayloadEncodable], by simp [payloadBytes, prefixed]⟩
  have hdelete : WalEncodable (.delete 4 [9]) :=
    ⟨by norm_num [WALRecord.lsn], by simp [PayloadEncodable], by simp [payloadBytes, prefixed]⟩
  have hcheckpoint : WalEncodable (.checkpoint 5 1 0 2) :=
    ⟨by norm_num [WALRecord.lsn], by simp [PayloadEncodable], by simp [payloadBytes]⟩
  simp [threeRecords, hput, hdelete, hcheckpoint]

/-- A log of three records, with a part of a fourth one behind them. -/
def tornLog : World :=
  { emptyLog with disk := ⟨none, some (FileState.empty.write
    ((threeRecords.map recordBytes).flatten ++ (recordBytes (.put 6 [1] [])).take 5)),
      none, none⟩ }

theorem log_round_trip_tornLog : Replays tornLog threeRecords ∧
    ∃ w', WAL.replay (fun _ => pure ()) tornLog = .ok () w' ∧
      w'.disk.wal.map (·.content) = some (threeRecords.map recordBytes).flatten ∧
      w'.wal.currentLsn = 5 ∧ ∃ w'', WAL.appendPut [7] [8] w' = .ok 6 w'' ∧
        Replays w'' (threeRecords ++ [.put 6 [7] [8]]) := by
  have htail : WalEncodable (.put 6 [1] []) :=
    ⟨by norm_num [WALRecord.lsn], by simp [PayloadEncodable], by simp [payloadBytes, prefixed]⟩
  have hnext : WalEncodable (.put 6 [7] [8]) :=
    ⟨by norm_num [WALRecord.lsn], by simp [PayloadEncodable], by simp [payloadBytes, prefixed]⟩
  obtain ⟨hreplays, w', hrun, hfile, hlsn, happend⟩ := log_round_trip threeRecords 3
    (threeRecords.map recordBytes) (.put 6 [1] []) (recordBytes (.put 6 [1] []))
    ((recordBytes (.put 6 [1] [])).take 5) tornLog _ (fun _ => pure ()) (by norm_num)
    ⟨rfl, rfl, rfl, trivial⟩
    (mapM_eq_ok fun r hr => encodeWalRecord_eq_ok (walEncodable_threeRecords r hr))
    (encodeWalRecord_eq_ok htail) (List.take_prefix 5 _)
    (fun h => by
      have hlen := congrArg List.length h
      rw [List.length_take, length_recordBytes] at hlen
      omega)
    rfl rfl rfl (by simp [FileState.write, FileState.empty]) (fun r w => ⟨w, rfl, rfl, rfl, id⟩)
  obtain ⟨w'', hput, hreplays'', -⟩ := happend (.put [7] [8]) _ (encodeWalRecord_eq_ok hnext)
  exact ⟨hreplays, w', hrun, hfile, hlsn, w'', hput, hreplays''⟩

/-! ## Arbitrary bytes -/

/-- Reading the bytes as a log ends, with records or with `DBCorruptedError`: for the caller
of `peek_records`, and for a replay whose callback leaves the log alone. -/
structure ReadsTotally (log : Bytes) : Prop where
  peek : ∀ e, (iterRecords log).error = some e → IsCorruptedError e
  replay : ∀ (callback : WALRecord → Eng Unit) (w : World) (f : FileState), LeavesLog callback →
    w.wal.isOpen = true → w.power = none → w.disk.wal = some f → f.content = log →
      ∀ e w', WAL.replay callback w = .error e w' → IsCorruptedError e

/-- The callback loop of a replay, on whatever records the reader found. -/
theorem replayLoop_of_leavesLog (hcallback : LeavesLog callback) (records : List (WALRecord × ℕ)) :
    ∀ (position : ℕ) {w : World}, w.wal.isOpen = true → w.power = none → w.disk.wal = some f →
      ∃ end_ w', replayLoop callback records position w = .ok end_ w' ∧ w'.wal.isOpen = true ∧
        w'.power = none ∧ w'.disk.wal = some f := by
  induction records with
  | nil => exact fun position {w} hopen hpower hf => ⟨position, w, rfl, hopen, hpower, hf⟩
  | cons entry records ih =>
      intro _ w hopen hpower hf
      obtain ⟨r, position⟩ := entry
      obtain ⟨w₁, hrun, hwal, hdisk, hpower₁⟩ := hcallback r (withLsn w r.lsn)
      obtain ⟨end_, w', hrest, hopen', hpower', hf'⟩ := ih position (w := w₁)
        (by rw [hwal]; exact hopen) (hpower₁ hpower) (hdisk.trans hf)
      refine ⟨end_, w', ?_, hopen', hpower', hf'⟩
      rw [replayLoop, run_bind_ok (show (modify fun w : World => { w with wal := { w.wal with
        currentLsn := r.lsn } } : Eng Unit) w = .ok () (withLsn w r.lsn) from rfl),
          run_bind_ok hrun]
      exact hrest

/-- A replay raises what the reader raises. -/
theorem replay_error (hcallback : LeavesLog callback) (hopen : w.wal.isOpen = true)
    (hpower : w.power = none) (hf : w.disk.wal = some f) {e : Err}
    (h : WAL.replay callback w = .error e w') : (iterRecords f.content).error = some e := by
  obtain ⟨end_, w₁, hloop, hopen₁, hpower₁, hf₁⟩ := replayLoop_of_leavesLog hcallback
    (iterRecords f.content).records 0 (w := withLsn w 0) hopen hpower hf
  rw [WAL.replay, run_bind_ok (walFile_eq hopen hf), run_bind_ok (show (modify fun w : World =>
    { w with wal := { w.wal with currentLsn := 0 } } : Eng Unit) w = .ok () (withLsn w 0) from rfl),
    run_bind_ok hloop] at h
  cases herror : (iterRecords f.content).error with
  | some e' =>
      simp only [herror] at h
      cases h
      rfl
  | none =>
      simp only [herror] at h
      obtain ⟨hlost, -⟩ | ⟨power, hpower₂, hcall⟩ := fileSystemCall_cases w₁
      · rw [hpower₁] at hlost
        cases hlost
      · obtain rfl := hpower₂ hpower₁
        rw [run_bind_ok hcall, run_bind_ok (show WAL.setFile _ _ = .ok () (withLog w₁ none
          (f.write (f.content.take end_))) from rfl)] at h
        obtain ⟨hlost, -⟩ | ⟨power, -, hsync⟩ := walFsync_cases
          (w := withLog w₁ none (f.write (f.content.take end_))) hopen₁ rfl
        · cases hlost
        · rw [hsync] at h
          cases h

/-- Reading is total exactly on the bytes in which the reader meets no frame that has its
checksum but not the shape of a record. -/
theorem log_reading_total_iff (log : Bytes) :
    ReadsTotally log ↔ ¬ MeetsMalformed 0 false (logFrames log) := by
  rw [← iterRecords_escapes_iff]
  constructor
  · rintro htotal ⟨e, he, hnot⟩
    exact hnot (htotal.peek e he)
  · intro hnot
    have hpeek : ∀ e, (iterRecords log).error = some e → IsCorruptedError e := by
      intro e he
      by_contra hcorrupted
      exact hnot ⟨e, he, hcorrupted⟩
    refine ⟨hpeek, fun callback w f hcallback hopen hpower hf hlog e w' hreplay => hpeek e ?_⟩
    rw [← hlog]
    exact replay_error hcallback hopen hpower hf hreplay

/-- Zero bytes, which a file system may leave behind a log, are a frame with a matching
checksum. -/
theorem zero_bytes_escape : ¬ ReadsTotally (List.replicate 4 0) := by
  intro h
  have herror : (iterRecords (List.replicate 4 0)).error = some .structError := by decide +kernel
  have hcorrupted := h.peek _ herror
  simp [IsCorruptedError] at hcorrupted

/-! ## Broken records in the middle of a log -/

/-- The bytes in the place of a record: the record itself, or bytes of the same length with
the same length field that fail the checksum. -/
def Damages (r : WALRecord) (frame : Bytes) : Prop :=
  frame = recordBytes r ∨ (frame.length = (recordBytes r).length ∧
    frame.take lengthFieldSize = (recordBytes r).take lengthFieldSize ∧ BrokenFrame frame)

theorem Damages.frame {r : WALRecord} {frame : Bytes} (hr : WalEncodable r) (h : Damages r frame) :
    lengthFieldSize ≤ frame.length ∧
      lengthFieldSize + unpackLE (frame.take lengthFieldSize) = frame.length ∧
      ¬ MalformedFrame frame := by
  have hlen := length_recordBytes r
  have hfield := unpackLE_take_recordBytes hr []
  rw [List.append_nil] at hfield
  rcases h with rfl | ⟨hlength, htake, hbroken⟩
  · obtain ⟨-, hshape, -⟩ := shaped_of_decodeWalRecord (decodeWalRecord_recordBytes hr)
    refine ⟨by rw [hlen, lengthFieldSize]; omega, ?_, fun h => h.2 hshape⟩
    rw [lengthFieldSize, hfield, hlen]
  · refine ⟨by rw [hlength, hlen, lengthFieldSize]; omega, ?_,
      fun h => brokenFrame_iff.mp hbroken h.1⟩
    rw [htake, hlength, lengthFieldSize, hfield, hlen]

/-- The length fields cut a damaged log into its frames. -/
theorem framesOf_damaged {frames : List Bytes} (hencodable : ∀ r ∈ rs, WalEncodable r)
    (h : List.Forall₂ Damages rs frames) :
    ∀ fuel, frames.flatten.length ≤ fuel → framesOf fuel frames.flatten = frames := by
  induction h with
  | nil =>
      intro fuel _
      cases fuel <;> rfl
  | @cons r frame rs frames hframe hrest ih =>
      intro fuel hfuel
      obtain ⟨hlen, htotal, -⟩ := hframe.frame (hencodable r (List.mem_cons_self ..))
      have hpos : 4 ≤ frame.length := hlen
      rw [List.flatten_cons, List.length_append] at hfuel
      cases fuel with
      | zero => omega
      | succ fuel =>
          rw [framesOf, List.flatten_cons, List.length_append,
            if_neg (by rw [lengthFieldSize]; omega), List.take_append_of_le_length hlen]
          dsimp only
          rw [htotal, if_neg (by omega), List.take_left' rfl, List.drop_left' rfl,
            ih (fun r hr => hencodable r (List.mem_cons_of_mem _ hr)) fuel (by omega)]

/-- The reader does not pass a record behind a broken one. -/
theorem iterRecords_damaged {frames front middle back : List Bytes} {bad good : Bytes}
    (hencodable : ∀ r ∈ rs, WalEncodable r) (h : List.Forall₂ Damages rs frames)
    (hframes : frames = front ++ bad :: (middle ++ good :: back)) (hbad : BrokenFrame bad)
    (hgood : ¬ BrokenFrame good) :
    ∃ e, (iterRecords frames.flatten).error = some e ∧ IsCorruptedError e := by
  have hwell : ∀ frame ∈ frames, lengthFieldSize ≤ frame.length ∧ ¬ MalformedFrame frame := by
    intro frame hframe
    obtain ⟨i, hi, rfl⟩ := List.getElem_of_mem hframe
    have hlen := h.length_eq
    have hr : rs[i] ∈ rs := List.getElem_mem _
    obtain ⟨hlength, -, hmalformed⟩ := (h.get (by omega) hi).frame (hencodable _ hr)
    exact ⟨hlength, hmalformed⟩
  rw [iterRecords_eq, logFrames, framesOf_damaged hencodable h _ le_rfl]
  cases herror : (readFrames 0 0 false frames).error with
  | none =>
      have hpassable := passable_of_readFrames frames 0 0 false (fun x hx => (hwell x hx).1) herror
      rw [hframes] at hpassable
      have hbehind := hpassable.broken_behind (brokenFrame_iff.mp hbad)
      exact absurd (brokenFrame_iff.mpr hbehind) hgood
  | some e =>
      refine ⟨e, rfl, ?_⟩
      by_contra hnot
      obtain ⟨front', x, back', hsplit, -, hx⟩ :=
        (readFrames_escapes_iff frames 0 0 false fun x hx => (hwell x hx).1).mp ⟨e, herror, hnot⟩
      exact (hwell x (by rw [hsplit]; simp)).2 hx

/-- `_recover` on a log that cannot be read raises, and leaves everything as it was. -/
theorem recover_raises {m : MetaPage} (hm : w.pager.metaPage = some m) (hopen : w.wal.isOpen = true)
    (hf : w.disk.wal = some f) {e : Err} (he : (iterRecords f.content).error = some e) :
    DB.recover w = .error e w := by
  have hphase : DB.replayPhase w = .error e w :=
    (replayPhase_error (repairAndReplay_raises (w :=
      withEviction w false) hm hopen hf he)).trans rfl
  exact run_bind_error hphase

/-- The error path of `open` closes both files; a pager with nothing to flush writes
nothing. -/
theorem closeFilesAndRaise_eq {e : Err} {g : FileState} (he : e ≠ .powerLoss)
    (hpower : w.power = none) (hwal : w.wal.isOpen = true) (hf : w.disk.wal = some f)
    (hpager : w.pager.isOpen = true) (hg : w.disk.data = some g)
    (hmeta : w.pager.isMetaDirty = false) (hfree : w.pager.dirtyFreelistPageIds = []) :
    ∃ w', DB.closeFilesAndRaise e w = .error e w' ∧ w'.disk.data = some g.fsync ∧
      w'.disk.wal = some f.fsync ∧ w'.pool = w.pool ∧ w'.pager.metaPage = w.pager.metaPage := by
  obtain ⟨hlost, -⟩ | ⟨power, hpower₁, hclose⟩ := walClose_cases hwal hf
  · rw [hpower] at hlost
    cases hlost
  · obtain rfl := hpower₁ hpower
    have hpublish : publishMeta (withClosedLog w none f.fsync) =
        .ok () (withClosedLog w none f.fsync) := by
      rw [publishMeta, run_bind_ok (run_get _), if_neg]
      · rfl
      · show ¬ w.pager.isMetaDirty = true
        rw [hmeta]
        exact Bool.false_ne_true
    obtain ⟨hlost, -⟩ | ⟨power, -, hsync⟩ := pagerFsync_cases
      (w := withClosedLog w none f.fsync) hpager hg
    · cases hlost
    · have hpagerClose : ∃ w', Pager.close (withClosedLog w none f.fsync) = .ok () w' ∧
          w'.disk.data = some g.fsync ∧ w'.disk.wal = some f.fsync ∧ w'.pool = w.pool ∧
            w'.pager.metaPage = w.pager.metaPage := by
        rw [pagerClose_eq (w := withClosedLog w none f.fsync) hpager,
          if_neg (by simp [withClosedLog, withLog, hfree]),
          run_bind_ok (run_pure _ _), run_bind_ok hpublish]
        exact ⟨_, run_bind_ok hsync, rfl, rfl, rfl, rfl⟩
      obtain ⟨w', hrun, hrest⟩ := hpagerClose
      refine ⟨w', ?_, hrest⟩
      rw [DB.closeFilesAndRaise, if_neg he]
      dsimp only
      rw [run_bind_ok hclose, run_bind_ok hrun]
      rfl

/-- A database whose log has a broken record before a good one: `open` raises
`DBCorruptedError`, applies nothing, and leaves both files as they were. -/
theorem damaged_log_rejected (config : Config) (disk : Disk) (data log : FileState) (m : MetaPage)
    (rs : List WALRecord) (frames front middle back : List Bytes) (bad good : Bytes)
    (hP : minPageSize ≤ config.pageSizeBytes) (hdata : disk.data = some data)
    (hmeta : MetaEncodable m) (hmetaBytes : metaBytes m <+: data.content)
    (hencodable : ∀ r ∈ rs, WalEncodable r)
    (hdamaged : List.Forall₂ Damages rs frames)
    (hframes : frames = front ++ bad :: (middle ++ good :: back)) (hbad : BrokenFrame bad)
    (hgood : ¬ BrokenFrame good) (hlog : disk.wal = some log)
    (hcontent : log.content = frames.flatten) :
    ∃ e w', DB.open_ (DB.handle config disk none) = .error e w' ∧ IsCorruptedError e ∧
      w'.pool = (DB.handle config disk none).pool ∧ w'.pager.metaPage = some m ∧
      w'.disk.data.map (·.content) = some data.content ∧
      w'.disk.wal.map (·.content) = some log.content := by
  obtain ⟨e, he, hcorrupted⟩ := iterRecords_damaged hencodable hdamaged hframes hbad hgood
  rw [← hcontent] at he
  have hpager := pagerOpen_existing (w := DB.handle config disk none) rfl hdata hP hmeta hmetaBytes
  obtain ⟨hlost, -⟩ | ⟨power, hpower, hwal⟩ := walOpen_cases (w := { DB.handle config disk none with
    pager := { (DB.handle config disk none).pager with
      isOpen := true, metaPage := some m, pageSizeBytes := m.pageSizeBytes } }) rfl hlog
  · cases hlost
  · obtain rfl := hpower rfl
    have hrecover := recover_raises (w := withOpenLog { DB.handle config disk none with
      pager := { (DB.handle config disk none).pager with
        isOpen := true, metaPage := some m, pageSizeBytes := m.pageSizeBytes } } none)
          rfl rfl hlog he
    have hnot : e ≠ .powerLoss := by
      rintro rfl
      simp [IsCorruptedError] at hcorrupted
    obtain ⟨w', hclose, hdata', hwal', hpool', hmeta'⟩ := closeFilesAndRaise_eq (e := e)
      (w := withOpenLog { DB.handle config disk none with
        pager := { (DB.handle config disk none).pager with
          isOpen := true, metaPage := some m, pageSizeBytes := m.pageSizeBytes } } none)
      hnot rfl rfl hlog rfl hdata rfl rfl
    refine ⟨e, w', ?_, hcorrupted, hpool', hmeta', by rw [hdata']; rfl, by rw [hwal']; rfl⟩
    rw [DB.open_, run_bind_ok hpager, run_bind_ok hwal]
    exact run_bind_error ((run_tryCatch_error hrecover).trans hclose)

/-- The record `.put 1 [1] [2]` with its key changed. -/
def brokenPut : Bytes :=
  (recordBytes (.put 1 [1] [2])).set 17 7

theorem damaged_log_rejected_sample : ∃ e w', DB.open_ (DB.handle smallConfig
      ⟨some ⟨metaBytes (emptyMeta 256), []⟩,
        some ⟨[brokenPut, recordBytes (.delete 2 [1])].flatten, []⟩, none, none⟩ none) =
        .error e w' ∧ IsCorruptedError e := by
  have hput : WalEncodable (.put 1 [1] [2]) :=
    ⟨by norm_num [WALRecord.lsn], by simp [PayloadEncodable], by simp [payloadBytes, prefixed]⟩
  have hdelete : WalEncodable (.delete 2 [1]) :=
    ⟨by norm_num [WALRecord.lsn], by simp [PayloadEncodable], by simp [payloadBytes, prefixed]⟩
  have hbad : BrokenFrame brokenPut := by
    have hcheck : (verifyCrc32 brokenPut).isOk = false := by decide +kernel
    intro h
    rw [h] at hcheck
    cases hcheck
  have hgood : ¬ BrokenFrame (recordBytes (.delete 2 [1])) :=
    not_not_intro (verifyCrc32_self (recordBody (.delete 2 [1])))
  have hdamaged : List.Forall₂ Damages [.put 1 [1] [2], .delete 2 [1]]
      [brokenPut, recordBytes (.delete 2 [1])] :=
    .cons (.inr ⟨by simp [brokenPut], by decide +kernel, hbad⟩) (.cons (.inl rfl) .nil)
  obtain ⟨e, w', hopen, hcorrupted, -⟩ := damaged_log_rejected smallConfig
    ⟨some ⟨metaBytes (emptyMeta 256), []⟩,
      some ⟨[brokenPut, recordBytes (.delete 2 [1])].flatten, []⟩, none, none⟩
    _ _ (emptyMeta 256) _ _ [] [] [] brokenPut (recordBytes (.delete 2 [1])) (by decide) rfl
    ⟨by decide, by norm_num [emptyMeta], by norm_num [emptyMeta], by norm_num [emptyMeta],
      by norm_num [emptyMeta], by norm_num [emptyMeta]⟩ (List.prefix_refl _)
    (by
      intro r hr
      rcases List.mem_cons.mp hr with rfl | hr
      · exact hput
      · obtain rfl := List.mem_singleton.mp hr
        exact hdelete) hdamaged rfl hbad hgood rfl rfl
  exact ⟨e, w', hopen, hcorrupted⟩

end BPTreeDB.Runs
