import BPTreeDB.Engine.Log
import BPTreeDB.Runs.TreeRuns

/-!
# Appends that fail

`_append` advances the LSN counter before it writes, and leaves in the file what a failed
write has persisted.  As long as no append writes anything after a failed one, opening the
log again delivers exactly the records whose append returned.  An append that returns after
a failed one leaves a gap in the LSNs, and the log cannot be opened any more.
-/

namespace BPTreeDB.Runs

open Lib Eng Codec Lib.Program Engine WAL

variable {w w' : World} {rs returned : List WALRecord} {n : ℕ}

/-! ## Appends -/

/-- A call that appends to the log. -/
inductive AppendCall where
  | put (key value : Bytes)
  | delete (key : Bytes)
  | checkpoint (rootPageId freelistHead nextPageId : ℕ)
  deriving DecidableEq, Repr

/-- The record of an append. -/
def AppendCall.record (lsn : ℕ) : AppendCall → WALRecord
  | .put key value => .put lsn key value
  | .delete key => .delete lsn key
  | .checkpoint root head next => .checkpoint lsn root head next

/-- An append that returns. -/
def AppendCall.run : AppendCall → Eng ℕ
  | .put key value => WAL.appendPut key value
  | .delete key => WAL.appendDelete key
  | .checkpoint root head next => WAL.appendCheckpoint root head next

/-- An append whose write or fsync raises after at most `persisted` bytes of the record, and
never all of them, have reached the file.  The caller carries on. -/
def AppendCall.fails (persisted : ℕ) (c : AppendCall) : Eng Unit := do
  let f ← WAL.file
  let record := c.record ((← get).wal.currentLsn + 1)
  let encoded ← codec (encodeWalRecord record)
  modify fun w => { w with wal := { w.wal with currentLsn := record.lsn } }
  WAL.setFile (f.write (f.content ++ encoded.dropLast.take persisted))

/-- A sequence of appends, each of which returns, or fails after some bytes; the value is
the list of the records whose append returned. -/
def runAppends : List (AppendCall × Option ℕ) → Eng (List WALRecord)
  | [] => return []
  | (c, none) :: rest => do
      let lsn ← c.run
      return c.record lsn :: (← runAppends rest)
  | (c, some persisted) :: rest => do
      c.fails persisted
      runAppends rest

/-- No append returns, and at most one leaves a part of its record behind, the last one that
leaves anything. -/
def OnlyFails : List (AppendCall × Option ℕ) → Prop
  | [] => True
  | (_, none) :: _ => False
  | (_, some 0) :: rest => OnlyFails rest
  | (_, some (_ + 1)) :: rest => ∀ e ∈ rest, e.2 = some 0

/-- No append writes anything after a failed one.  On an empty log, failed appends that
leave nothing behind may come first. -/
def Undisturbed : (logIsEmpty : Bool) → List (AppendCall × Option ℕ) → Prop
  | _, [] => True
  | _, (_, none) :: rest => Undisturbed false rest
  | true, (_, some 0) :: rest => Undisturbed true rest
  | _, rest => OnlyFails rest

/-! ## The log during a run -/

/-- The open log holds the records, numbered up to the current LSN, and a torn part. -/
structure LogHolds (rs : List WALRecord) (part : Bytes) (w : World) : Prop where
  isOpen : w.wal.isOpen = true
  power : w.power = none
  content : w.disk.wal.map (·.content) = some (logBytes rs ++ part)
  encodable : ∀ r ∈ rs, WalEncodable r
  numbered : ∃ base, Numbered (base + 1) rs ∧ base + rs.length ≤ w.wal.currentLsn
  torn : Torn part

/-- The LSN counter stands at the last record. -/
def UpToDate (rs : List WALRecord) (w : World) : Prop :=
  ∃ base, Numbered (base + 1) rs ∧ base + rs.length = w.wal.currentLsn

theorem LogHolds.file {part : Bytes} (h : LogHolds rs part w) :
    ∃ f, w.disk.wal = some f ∧ f.content = logBytes rs ++ part ∧ WAL.file w = .ok f w := by
  obtain ⟨f, hf, hcontent⟩ := Option.map_eq_some_iff.mp h.content
  exact ⟨f, hf, hcontent, by simp [WAL.file, run_bind, h.isOpen, hf]⟩

theorem AppendCall.lsn_record (c : AppendCall) (lsn : ℕ) : (c.record lsn).lsn = lsn := by
  cases c <;> rfl

theorem AppendCall.run_eq (c : AppendCall) :
    c.run w = WAL.append (c.record (w.wal.currentLsn + 1)) w := by
  cases c <;> rfl

/-- An append that returns adds its record to a log without a torn tail. -/
theorem LogHolds.append (h : LogHolds rs [] w) (hup : UpToDate rs w ∨ rs = []) {c : AppendCall}
    {lsn : ℕ} (hrun : c.run w = .ok lsn w') :
    LogHolds (rs ++ [c.record lsn]) [] w' ∧ UpToDate (rs ++ [c.record lsn]) w' ∧
      lsn = w.wal.currentLsn + 1 := by
  obtain ⟨f, hf, hcontent, hfile⟩ := h.file
  have houtcome := append_outcome h.isOpen hf (c.record (w.wal.currentLsn + 1))
  rw [c.run_eq] at hrun
  rw [hrun] at houtcome
  obtain ⟨hencodable, hw', rfl⟩ : WalEncodable (c.record (w.wal.currentLsn + 1)) ∧
      w' = withLog (withLsn w (w.wal.currentLsn + 1)) none
        (appendedFile f (c.record (w.wal.currentLsn + 1))).fsync ∧ lsn = w.wal.currentLsn + 1 := by
    cases houtcome with
    | done hencodable hpower =>
        rw [hpower h.power, c.lsn_record]
        exact ⟨hencodable, rfl, rfl⟩
  have hlsn := c.lsn_record (w.wal.currentLsn + 1)
  have hnumbered : ∃ base, Numbered (base + 1) (rs ++ [c.record (w.wal.currentLsn + 1)]) ∧
      base + (rs ++ [c.record (w.wal.currentLsn + 1)]).length = w.wal.currentLsn + 1 := by
    rcases hup with ⟨base, hnumbered, hbase⟩ | rfl
    · refine ⟨base, numbered_append.mpr ⟨hnumbered, ?_, trivial⟩, ?_⟩
      · rw [hlsn]
        omega
      · rw [List.length_append, List.length_singleton]
        omega
    · exact ⟨w.wal.currentLsn, ⟨hlsn, trivial⟩, rfl⟩
  obtain ⟨base, hnumbered, hbase⟩ := hnumbered
  subst hw'
  refine ⟨⟨h.isOpen, rfl, ?_, fun r hr => ?_, ⟨base, hnumbered, hbase.le⟩, torn_nil⟩,
    ⟨base, hnumbered, hbase⟩, rfl⟩
  · simp [withLog, appendedFile, FileState.write, FileState.fsync, hcontent, logBytes]
  · rcases List.mem_append.mp hr with hr | hr
    · exact h.encodable r hr
    · rw [List.mem_singleton.mp hr]
      exact hencodable

/-- A failed append leaves a torn record behind, or nothing. -/
theorem LogHolds.fails {part : Bytes} (h : LogHolds rs part w) {c : AppendCall} {persisted : ℕ}
    (hleft : part = [] ∨ persisted = 0) (hrun : c.fails persisted w = .ok () w') :
    ∃ part', LogHolds rs part' w' ∧ (persisted = 0 → part' = part) := by
  obtain ⟨f, hf, hcontent, hfile⟩ := h.file
  rw [AppendCall.fails, run_bind_ok hfile, run_bind_ok (run_get w)] at hrun
  cases hcodec : encodeWalRecord (c.record (w.wal.currentLsn + 1)) with
  | error e =>
      rw [hcodec] at hrun
      cases hrun
  | ok encoded =>
      obtain ⟨hencodable, rfl⟩ := encodeWalRecord_ok_iff.mp hcodec
      rw [hcodec] at hrun
      cases hrun
      obtain ⟨base, hnumbered, hbase⟩ := h.numbered
      set record := c.record (w.wal.currentLsn + 1) with hrecord
      have hlsn : record.lsn = w.wal.currentLsn + 1 := c.lsn_record _
      have htorn : Torn (part ++ (recordBytes record).dropLast.take persisted) := by
        rcases hleft with rfl | rfl
        · refine ⟨record, hencodable, ?_, fun heq => ?_⟩
          · exact (List.take_prefix _ _).trans (List.dropLast_prefix _)
          · have hlen := congrArg List.length heq
            have hpos := length_recordBytes record
            simp only [List.nil_append, List.length_take, List.length_dropLast] at hlen
            omega
        · simpa using h.torn
      refine ⟨part ++ (recordBytes record).dropLast.take persisted,
        ⟨h.isOpen, h.power, ?_, h.encodable, ⟨base, hnumbered, ?_⟩, htorn⟩, ?_⟩
      · simp [FileState.write, hcontent]
      · show base + rs.length ≤ record.lsn
        omega
      · rintro rfl
        simp

/-! ## Runs of appends -/

theorem runAppends_nothing {part : Bytes} : ∀ {appends : List (AppendCall × Option ℕ)} {w : World},
    LogHolds rs part w → (∀ e ∈ appends, e.2 = some 0) → runAppends appends w = .ok returned w' →
      returned = [] ∧ LogHolds rs part w' := by
  intro appends
  induction appends with
  | nil =>
      intro w h _ hrun
      cases hrun
      exact ⟨rfl, h⟩
  | cons e appends ih =>
      intro w h hall hrun
      obtain ⟨c, outcome⟩ := e
      obtain rfl : outcome = some 0 := hall _ (List.mem_cons_self ..)
      obtain ⟨_, w₁, hfails, hrun⟩ := bind_eq_ok.mp hrun
      obtain ⟨part', h₁, hpart⟩ := h.fails (.inr rfl) hfails
      rw [hpart rfl] at h₁
      exact ih h₁ (fun e he => hall e (List.mem_cons_of_mem _ he)) hrun

theorem runAppends_onlyFails : ∀ {appends : List (AppendCall × Option ℕ)} {w : World},
    LogHolds rs [] w → OnlyFails appends → runAppends appends w = .ok returned w' →
      returned = [] ∧ ∃ part, LogHolds rs part w' := by
  intro appends
  induction appends with
  | nil =>
      intro w h _ hrun
      cases hrun
      exact ⟨rfl, [], h⟩
  | cons e appends ih =>
      intro w h hfails hrun
      obtain ⟨c, outcome⟩ := e
      cases outcome with
      | none => cases hfails
      | some persisted =>
          obtain ⟨_, w₁, hrun₁, hrest⟩ := bind_eq_ok.mp hrun
          obtain ⟨part, h₁, hpart⟩ := h.fails (.inl rfl) hrun₁
          cases persisted with
          | zero =>
              rw [hpart rfl] at h₁
              exact ih h₁ hfails hrest
          | succ persisted =>
              obtain ⟨hnil, h₂⟩ := runAppends_nothing h₁ hfails hrest
              exact ⟨hnil, part, h₂⟩

/-- An undisturbed run adds the records whose append returned. -/
theorem runAppends_undisturbed : ∀ {appends : List (AppendCall × Option ℕ)} {rs : List WALRecord}
    {returned : List WALRecord} {w : World}, LogHolds rs [] w → (UpToDate rs w ∨ rs = []) →
      Undisturbed rs.isEmpty appends → runAppends appends w = .ok returned w' →
      ∃ part, LogHolds (rs ++ returned) part w' := by
  intro appends
  induction appends with
  | nil =>
      intro rs returned w h _ _ hrun
      cases hrun
      exact ⟨[], by rw [List.append_nil]; exact h⟩
  | cons e appends ih =>
      intro rs returned w h hup hundisturbed hrun
      obtain ⟨c, outcome⟩ := e
      cases outcome with
      | none =>
          obtain ⟨lsn, w₁, happend, hrun⟩ := bind_eq_ok.mp hrun
          obtain ⟨returned', w₂, hrest, hrun⟩ := bind_eq_ok.mp hrun
          cases hrun
          obtain ⟨h₁, hup₁, -⟩ := h.append hup happend
          have hrest' : Undisturbed (rs ++ [c.record lsn]).isEmpty appends := by
            rw [show (rs ++ [c.record lsn]).isEmpty = false by simp]
            cases rs.isEmpty <;> exact hundisturbed
          have hdone := ih h₁ (.inl hup₁) hrest' hrest
          rwa [List.append_assoc] at hdone
      | some persisted =>
          by_cases hempty : rs = [] ∧ persisted = 0
          -- Nothing was logged and nothing of the record survives: the log is as good as new.
          · obtain ⟨rfl, rfl⟩ := hempty
            obtain ⟨_, w₁, hfails, hrun⟩ := bind_eq_ok.mp hrun
            obtain ⟨part, h₁, hpart⟩ := h.fails (.inr rfl) hfails
            rw [hpart rfl] at h₁
            exact ih h₁ (.inr rfl) hundisturbed hrun
          -- Behind this failure every append fails, so nothing more is returned.
          · have honly : OnlyFails ((c, some persisted) :: appends) := by
              cases rs with
              | nil =>
                  cases persisted with
                  | zero => exact absurd ⟨rfl, rfl⟩ hempty
                  | succ persisted => exact hundisturbed
              | cons r rs =>
                  cases persisted with
                  | zero => exact hundisturbed
                  | succ persisted => exact hundisturbed
            obtain ⟨rfl, part, hdone⟩ := runAppends_onlyFails h honly hrun
            exact ⟨part, by rw [List.append_nil]; exact hdone⟩

/-! ## Opening the log again -/

/-- A new handle opens the log that another one left behind, and replays it. -/
def reopenAndReplay (callback : WALRecord → Eng Unit) : Eng Unit := do
  WAL.open_
  WAL.replay callback

/-- The callback runs on exactly the given records, in order, before the torn tail is cut. -/
def Delivers (w : World) (rs : List WALRecord) : Prop :=
  ∃ w₁ f, WAL.open_ w = .ok () w₁ ∧ ∀ callback, reopenAndReplay callback w =
    (replayAll callback rs >>= fun _ => cutTail f rs) w₁

theorem open_log {disk : Disk} {f : FileState} (hf : disk.wal = some f) (config : Config) :
    ∃ w₁, WAL.open_ (DB.handle config disk none) = .ok () w₁ ∧ w₁.wal.isOpen = true ∧
      w₁.wal.currentLsn = 0 ∧ w₁.power = none ∧ w₁.disk.wal = some f := by
  obtain ⟨hlost, -⟩ | ⟨power, hpower, hopen⟩ := walOpen_cases
    (w := DB.handle config disk none) rfl hf
  · cases hlost
  · exact ⟨_, hopen, rfl, rfl, hpower rfl, hf⟩

/-- Appends after which nothing more is written than what failed leave a log that delivers
exactly the records whose append returned, with consecutive LSNs. -/
theorem appends_delivered (config : Config) (rs returned : List WALRecord) (w w' : World)
    (appends : List (AppendCall × Option ℕ)) (h : LogHolds rs [] w) (hup : UpToDate rs w ∨ rs = [])
    (hundisturbed : Undisturbed rs.isEmpty appends)
    (hrun : runAppends appends w = .ok returned w') :
    Delivers (DB.handle config w'.disk none) (rs ++ returned) ∧
      (∃ base, Numbered (base + 1) (rs ++ returned)) ∧
      ∃ w'', reopenAndReplay (fun _ => pure ()) (DB.handle config w'.disk none) = .ok () w'' := by
  obtain ⟨part, hdone⟩ := runAppends_undisturbed h hup hundisturbed hrun
  obtain ⟨f, hf, hcontent, -⟩ := hdone.file
  obtain ⟨base, hnumbered, -⟩ := hdone.numbered
  have hread : Readable (rs ++ returned) := ⟨hdone.encodable, base, hnumbered⟩
  obtain ⟨w₁, hopen, hisOpen, hlsn, hpower, hf₁⟩ := open_log hf config
  have hreset : withLsn w₁ 0 = w₁ := by
    unfold withLsn
    rw [← hlsn]
  have hdelivers : ∀ callback, reopenAndReplay callback (DB.handle config w'.disk none) =
      (replayAll callback (rs ++ returned) >>= fun _ => cutTail f (rs ++ returned)) w₁ := by
    intro callback
    rw [reopenAndReplay, run_bind_ok hopen, replay_eq hisOpen hf₁ hcontent hread hdone.torn, hreset]
  refine ⟨⟨w₁, f, hopen, hdelivers⟩, ⟨base, hnumbered⟩, ?_⟩
  rw [hdelivers]
  -- A callback that does nothing leaves the log open, so the tail can be cut.
  obtain ⟨w₂, hreplay, hopen₂, hpower₂, -, -⟩ := replayAll_of_leavesLog
    (show LeavesLog fun _ => pure () from fun r w => ⟨w, rfl, rfl, rfl, id⟩) (rs ++ returned)
    hisOpen hpower hf₁
  exact ⟨_, (run_bind_ok hreplay).trans (cutTail_eq hopen₂ hpower₂ f _)⟩

/-- A log that was just created. -/
def emptyLog : World :=
  { DB.handle smallConfig ⟨none, some .empty, none, none⟩ none with wal := ⟨true, 0⟩ }

theorem logHolds_emptyLog : LogHolds [] [] emptyLog :=
  ⟨rfl, rfl, rfl, by simp, ⟨0, trivial, le_rfl⟩, torn_nil⟩

set_option maxRecDepth 100000 in
/-- A put, and a put that fails after three bytes. -/
theorem appends_delivered_torn : ∃ returned w',
    runAppends [(.put [1] [2], none), (.put [3] [4], some 3)] emptyLog = .ok returned w' ∧
      Delivers (DB.handle smallConfig w'.disk none) returned ∧
      ∃ w'', reopenAndReplay (fun _ => pure ()) (DB.handle smallConfig w'.disk none) =
        .ok () w'' := by
  have hrun : raisedBy (runAppends [(.put [1] [2], none), (.put [3] [4], some 3)] emptyLog) =
      none := by
    decide +kernel
  obtain ⟨returned, w', hw'⟩ := raisedBy_eq_none hrun
  obtain ⟨hdelivers, -, hreplay⟩ := appends_delivered smallConfig [] returned emptyLog w' _
    logHolds_emptyLog (.inr rfl) (by simp [Undisturbed, OnlyFails]) hw'
  exact ⟨returned, w', hw', hdelivers, hreplay⟩

/-- Two puts with a failed one between them. -/
def gapAppends : List (AppendCall × Option ℕ) :=
  [(.put [1] [], none), (.put [2] [], some 0), (.put [3] [], none)]

/-- The exception of a replay after some appends. -/
def replayError (appends : List (AppendCall × Option ℕ)) : Option Err :=
  match runAppends appends emptyLog with
  | .ok _ w => raisedBy (reopenAndReplay (fun _ => pure ()) (DB.handle smallConfig w.disk none))
  | .error e _ => some e

set_option maxRecDepth 100000 in
/-- An append after a failed one leaves a gap, and the log cannot be opened. -/
theorem log_unreadable_after_gap :
    ¬ ∀ (config : Config) (rs returned : List WALRecord) (w w' : World)
      (appends : List (AppendCall × Option ℕ)), LogHolds rs [] w → (UpToDate rs w ∨ rs = []) →
      runAppends appends w = .ok returned w' →
        ∃ w'', reopenAndReplay (fun _ => pure ()) (DB.handle config w'.disk none) = .ok () w'' := by
  intro hopens
  have hrun : raisedBy (runAppends gapAppends emptyLog) = none := by
    decide +kernel
  have herror : replayError gapAppends =
      some (.corrupted "WAL contains non-sequential LSNs: 1 followed by 3") := by
    decide +kernel
  obtain ⟨returned, w', hw'⟩ := raisedBy_eq_none hrun
  obtain ⟨w'', hw''⟩ := hopens smallConfig [] returned emptyLog w' gapAppends logHolds_emptyLog
    (.inr rfl) hw'
  rw [replayError, hw'] at herror
  dsimp only at herror
  rw [hw''] at herror
  cases herror

end BPTreeDB.Runs
