import BPTreeDB.Runs.TreeRuns

/-!
# Between two checkpoints the data file only grows

`put`, `get`, `delete` and `scan` change pages in memory only.  Unless one of them runs a
checkpoint, the data file keeps the bytes it had and grows by zero-filled pages, whether
the calls return or raise.
-/

namespace BPTreeDB.Runs

open Lib Eng Codec Lib.Program PageStore Engine

variable {α : Type} {w w' : World}

/-! ## Calls of a handle -/

/-- The calls of an open handle that read or change the map. -/
inductive DBCall where
  | put (key value : DB.PyArg)
  | get (key : DB.PyArg)
  | delete (key : DB.PyArg)
  | scan (start stop : Option DB.PyArg)

/-- `_maybe_checkpoint` with another checkpoint. -/
def maybeCheckpointWith (checkpoint : Eng Unit) : Eng Unit := do
  if ← DB.shouldCheckpoint then checkpoint

/-- A call with another checkpoint. -/
def DBCall.runWith (checkpoint : Eng Unit) : DBCall → Eng Unit
  | .put key value => do
      DB.checkIfOpened
      let key ← DB.ensureBytesType key "key"
      let value ← DB.ensureBytesType value "value"
      BPlusTree.raiseIfRecordTooLarge key value
      maybeCheckpointWith checkpoint
      DB.logAndInsert key value
      maybeCheckpointWith checkpoint
  | .get key => do
      let _ ← DB.get key
  | .delete key => do
      DB.checkIfOpened
      let key ← DB.ensureBytesType key "key"
      if (← BPlusTree.search key).isNone then return
      maybeCheckpointWith checkpoint
      DB.logAndDelete key
      maybeCheckpointWith checkpoint
  | .scan start stop => do
      let _ ← DB.scan start stop

/-- A call, without its value. -/
def DBCall.run : DBCall → Eng Unit
  | .put key value => DB.put key value
  | .get key => do let _ ← DB.get key
  | .delete key => do let _ ← DB.delete key
  | .scan start stop => do let _ ← DB.scan start stop

theorem DBCall.runWith_checkpoint (c : DBCall) : c.runWith DB.checkpoint = c.run := by
  cases c with
  | put key value => rfl
  | get key => rfl
  | delete key =>
      simp only [runWith, run, DB.delete, bind_assoc]
      refine bind_congr fun _ => bind_congr fun key => bind_congr fun found => ?_
      split
      · rfl
      · simp only [bind_assoc, pure_bind, bind_pure_unit]
        rfl
  | scan start stop => rfl

/-- The process after a sequence of calls; the caller carries on after an exception. -/
def afterWith (checkpoint : Eng Unit) : List DBCall → World → World
  | [], w => w
  | c :: rest, w => afterWith checkpoint rest (final (c.runWith checkpoint w))

def after : List DBCall → World → World
  | [], w => w
  | c :: rest, w => after rest (final (c.run w))

/-- No checkpoint runs during the calls: what they do does not depend on it. -/
def WithoutCheckpoint (calls : List DBCall) (w : World) : Prop :=
  ∀ checkpoint, afterWith checkpoint calls w = after calls w

theorem maybeCheckpointWith_returns {checkpoint : Eng Unit} {e : Err}
    (h : maybeCheckpointWith (throw e) w = .ok () w') :
    maybeCheckpointWith checkpoint w = .ok () w' := by
  obtain ⟨b, w₁, hshould, hrest⟩ := bind_eq_ok.mp h
  cases b with
  | true => cases hrest
  | false => exact bind_eq_ok.mpr ⟨false, w₁, hshould, hrest⟩

/-- A call that returns although every checkpoint would raise runs no checkpoint. -/
theorem DBCall.runWith_of_returns {e : Err} (c : DBCall) (h : c.runWith (throw e) w = .ok () w')
    (checkpoint : Eng Unit) : c.runWith checkpoint w = .ok () w' := by
  cases c with
  | put key value =>
      obtain ⟨_, w₁, hopened, h⟩ := bind_eq_ok.mp h
      obtain ⟨key, w₂, hkey, h⟩ := bind_eq_ok.mp h
      obtain ⟨value, w₃, hvalue, h⟩ := bind_eq_ok.mp h
      obtain ⟨_, w₄, hsize, h⟩ := bind_eq_ok.mp h
      obtain ⟨_, w₅, hfirst, h⟩ := bind_eq_ok.mp h
      obtain ⟨_, w₆, hinsert, hsecond⟩ := bind_eq_ok.mp h
      rw [runWith, run_bind_ok hopened, run_bind_ok hkey, run_bind_ok hvalue, run_bind_ok hsize,
        run_bind_ok (maybeCheckpointWith_returns hfirst), run_bind_ok hinsert]
      exact maybeCheckpointWith_returns hsecond
  | get key => exact h
  | delete key =>
      obtain ⟨_, w₁, hopened, h⟩ := bind_eq_ok.mp h
      obtain ⟨key, w₂, hkey, h⟩ := bind_eq_ok.mp h
      obtain ⟨found, w₃, hsearch, h⟩ := bind_eq_ok.mp h
      rw [runWith, run_bind_ok hopened, run_bind_ok hkey, run_bind_ok hsearch]
      by_cases hfound : found.isNone
      · rw [if_pos hfound] at h ⊢
        exact h
      · rw [if_neg hfound] at h ⊢
        obtain ⟨_, w₄, hfirst, h⟩ := bind_eq_ok.mp h
        obtain ⟨_, w₅, hdelete, hsecond⟩ := bind_eq_ok.mp h
        rw [run_bind_ok (maybeCheckpointWith_returns hfirst), run_bind_ok hdelete]
        exact maybeCheckpointWith_returns hsecond
  | scan start stop => exact h

/-- Every call returns although every checkpoint would raise. -/
def returnWithoutCheckpoint : List DBCall → World → Bool
  | [], _ => true
  | c :: rest, w =>
      (raisedBy (c.runWith (throw .diverges) w)).isNone &&
        returnWithoutCheckpoint rest (final (c.run w))

theorem withoutCheckpoint_of_returns {calls : List DBCall} (w : World)
    (h : returnWithoutCheckpoint calls w = true) : WithoutCheckpoint calls w := by
  intro checkpoint
  induction calls generalizing w with
  | nil => rfl
  | cons c rest ih =>
      unfold returnWithoutCheckpoint at h
      obtain ⟨hc, hrest⟩ := (Bool.and_eq_true _ _).mp h
      obtain ⟨⟨⟩, w', hrun⟩ := raisedBy_eq_none (Option.isNone_iff_eq_none.mp hc)
      have hsame : final (c.runWith checkpoint w) = final (c.run w) := by
        rw [c.runWith_of_returns hrun checkpoint, ← c.runWith_checkpoint,
          c.runWith_of_returns hrun DB.checkpoint]
      calc afterWith checkpoint (c :: rest) w
          = afterWith checkpoint rest (final (c.run w)) := by rw [afterWith, hsame]
        _ = after (c :: rest) w := ih _ hrest

/-! ## What a call writes -/

/-- From `w` to `w'` the data file kept its bytes and grew by zero-filled pages. -/
structure DataGrows (w w' : World) : Prop where
  pageSize : w'.pager.pageSizeBytes = w.pager.pageSizeBytes
  data : ∃ k, w'.disk.data = w.disk.data.map (grow (k * w.pager.pageSizeBytes))

theorem DataGrows.of_eq (hsize : w'.pager.pageSizeBytes = w.pager.pageSizeBytes)
    (hdata : w'.disk.data = w.disk.data) : DataGrows w w' :=
  ⟨hsize, 0, by simp [hdata, grow_zero]⟩

theorem DataGrows.of_noSteal (h : NoSteal w w') : DataGrows w w' := by
  obtain ⟨k, hdata, -⟩ := h.data
  exact ⟨congrArg Frozen.pageSizeBytes h.frozen, k, hdata⟩

instance : Std.Refl DataGrows := ⟨fun _ => .of_eq rfl rfl⟩

theorem DataGrows.trans {w'' : World} (h : DataGrows w w') (h' : DataGrows w' w'') :
    DataGrows w w'' := by
  obtain ⟨k, hdata⟩ := h.data
  obtain ⟨k', hdata'⟩ := h'.data
  refine ⟨h'.pageSize.trans h.pageSize, k + k', ?_⟩
  rw [hdata', hdata, h.pageSize, Option.map_map, Nat.add_mul]
  congr 1
  funext f
  exact grow_grow _ _ _

instance : IsTrans World DataGrows := ⟨fun _ _ _ => DataGrows.trans⟩

theorem dataGrows_of_noSteal {x : Eng α} (h : Keeps NoSteal x) : Keeps DataGrows x :=
  fun w => .of_noSteal (h w)

theorem dataGrows_append (record : WALRecord) : Keeps DataGrows (WAL.append record) := by
  have hfile : Keeps DataGrows WAL.file := by
    refine keeps_get.bind fun w => ?_
    split
    · exact keeps_pure _
    · exact keeps_throw _
  have hset : ∀ f, Keeps DataGrows (WAL.setFile f) := fun f => keeps_modify fun w => .of_eq rfl rfl
  have hcall : Keeps DataGrows fileSystemCall := dataGrows_of_noSteal noSteal_fileSystemCall
  refine hfile.bind fun f => (dataGrows_of_noSteal (keeps_codec _)).bind fun encoded => ?_
  refine (keeps_modify fun w => .of_eq rfl rfl).bind fun _ => hcall.bind fun _ => ?_
  refine (hset _).bind fun _ => ?_
  unfold WAL.fsync
  exact (hfile.bind fun f => hcall.bind fun _ => hset _).bind fun _ => keeps_pure _

theorem dataGrows_logAndInsert (key value : Bytes) :
    Keeps DataGrows (DB.logAndInsert key value) := by
  unfold DB.logAndInsert WAL.appendPut
  refine (keeps_get.bind fun w => dataGrows_append _).bind fun lsn => ?_
  refine (dataGrows_of_noSteal (noSteal_steps.treeInsert key value lsn)).bind fun _ => ?_
  exact keeps_modify fun w => .of_eq rfl rfl

theorem dataGrows_logAndDelete (key : Bytes) : Keeps DataGrows (DB.logAndDelete key) := by
  unfold DB.logAndDelete WAL.appendDelete
  refine (keeps_get.bind fun w => dataGrows_append _).bind fun lsn => ?_
  refine (dataGrows_of_noSteal (noSteal_steps.treeDelete key lsn)).bind fun _ => ?_
  refine (dataGrows_of_noSteal (keeps_assert _ _)).bind fun _ => ?_
  exact keeps_modify fun w => .of_eq rfl rfl

/-- Where no checkpoint runs, a call writes no page. -/
theorem DBCall.dataGrows (c : DBCall) : Keeps DataGrows (c.runWith (pure ())) := by
  have hmaybe : Keeps DataGrows (maybeCheckpointWith (pure ())) := by
    refine keeps_shouldCheckpoint.bind fun b => ?_
    split
    · exact keeps_pure _
    · exact keeps_pure _
  cases c with
  | put key value =>
      refine keeps_checkIfOpened.bind fun _ => (keeps_ensureBytesType key _).bind fun key => ?_
      refine (keeps_ensureBytesType value _).bind fun value => ?_
      refine (dataGrows_of_noSteal (keeps_raiseIfRecordTooLarge key value)).bind fun _ => ?_
      exact hmaybe.bind fun _ => (dataGrows_logAndInsert key value).bind fun _ => hmaybe
  | get key =>
      refine Keeps.bind ?_ fun _ => keeps_pure _
      refine keeps_checkIfOpened.bind fun _ => (keeps_ensureBytesType key _).bind fun key => ?_
      exact dataGrows_of_noSteal (noSteal_steps.search key)
  | delete key =>
      refine keeps_checkIfOpened.bind fun _ => (keeps_ensureBytesType key _).bind fun key => ?_
      refine (dataGrows_of_noSteal (noSteal_steps.search key)).bind fun found => ?_
      split
      · exact keeps_pure _
      · exact hmaybe.bind fun _ => (dataGrows_logAndDelete key).bind fun _ => hmaybe
  | scan start stop =>
      refine Keeps.bind ?_ fun _ => keeps_pure _
      refine keeps_checkIfOpened.bind fun _ => (keeps_ensureBound start _).bind fun start => ?_
      refine (keeps_ensureBound stop _).bind fun stop => ?_
      exact dataGrows_of_noSteal (noSteal_steps.scan start stop)

theorem dataGrows_after (calls : List DBCall) (w : World) :
    DataGrows w (afterWith (pure ()) calls w) := by
  induction calls generalizing w with
  | nil => exact Std.Refl.refl w
  | cons c calls ih => exact (c.dataGrows w).trans (ih _)

/-- Calls during which no checkpoint runs leave the bytes of the data file as they were and
add zero-filled pages only. -/
theorem no_steal (calls : List DBCall) (w : World) (hcalls : WithoutCheckpoint calls w) :
    ∃ k, (after calls w).disk.data =
      w.disk.data.map fun f => ⟨f.content ++ List.replicate (k * w.pager.pageSizeBytes) 0,
        f.synced⟩ := by
  obtain ⟨k, hdata⟩ := (dataGrows_after calls w).data
  rw [hcalls] at hdata
  exact ⟨k, hdata⟩

/-- A database that is opened on an empty directory. -/
def freshHandle : World :=
  DB.handle ⟨256, 20, 100000, fun _ _ => false⟩ ⟨none, none, none, none⟩ none

/-- Twelve records fill four leaves.  Without nine of them the tree is one leaf again, and three
more records split it into pages off the freelist. -/
def growAndShrink : List DBCall :=
  (List.range 12).map (fun b => .put (.bytes [Fin.ofNat 256 b]) (.bytes (List.replicate 27 0))) ++
    (List.range 9).map (fun b => .delete (.bytes [Fin.ofNat 256 b])) ++
    (List.range 3).map (fun b =>
      .put (.bytes [Fin.ofNat 256 (20 + b)]) (.bytes (List.replicate 27 0)))

/-- Six pages were allocated, page `6` heads the freelist and the root is a page off it. -/
def hasReusedPages (w : World) : Bool :=
  match w.pager.metaPage with
  | none => false
  | some m => m.nextPageId == 7 && m.freelistHeadPageId == 6 && m.rootPageId == 5

theorem eq_of_hasReusedPages (h : hasReusedPages w = true) : ∃ m, w.pager.metaPage = some m ∧
    m.nextPageId = 7 ∧ m.freelistHeadPageId = 6 ∧ m.rootPageId = 5 := by
  unfold hasReusedPages at h
  split at h
  · cases h
  · rename_i m hm
    simp only [Bool.and_eq_true, beq_iff_eq, and_assoc] at h
    exact ⟨m, hm, h⟩

set_option maxRecDepth 100000 in
theorem exists_growAndShrink : ∃ w, DB.open_ freshHandle = .ok () w ∧
    returnWithoutCheckpoint growAndShrink w = true ∧
      hasReusedPages (after growAndShrink w) = true := by
  have hruns : endsIn (fun w => returnWithoutCheckpoint growAndShrink w &&
      hasReusedPages (after growAndShrink w)) (DB.open_ freshHandle) = true := by
    decide +kernel
  cases hopen : DB.open_ freshHandle with
  | ok a w =>
      rw [hopen] at hruns
      exact ⟨w, rfl, (Bool.and_eq_true _ _).mp hruns⟩
  | error e w =>
      rw [hopen] at hruns
      cases hruns

/-- Pages were allocated, freed and allocated again, and none was written. -/
theorem no_steal_put : ∃ w m, DB.open_ freshHandle = .ok () w ∧
    WithoutCheckpoint growAndShrink w ∧
      (after growAndShrink w).pager.metaPage = some m ∧
        m.nextPageId = 7 ∧ m.freelistHeadPageId = 6 ∧ m.rootPageId = 5 ∧
      ∃ k, (after growAndShrink w).disk.data = w.disk.data.map fun f =>
        ⟨f.content ++ List.replicate (k * w.pager.pageSizeBytes) 0, f.synced⟩ := by
  obtain ⟨w, hopen, hreturn, hreused⟩ := exists_growAndShrink
  obtain ⟨m, hm, hnext, hhead, hroot⟩ := eq_of_hasReusedPages hreused
  have hwithout := withoutCheckpoint_of_returns w hreturn
  exact ⟨w, m, hopen, hwithout, hm, hnext, hhead, hroot, no_steal growAndShrink w hwithout⟩

end BPTreeDB.Runs
