import BPTreeDB.Engine.Recovery
import BPTreeDB.Runs.TreeRuns

/-!
# Handles between two calls

A handle is ready if its process holds a tree with the records of a map and its log holds
records numbered up to the LSN counter.  Every public operation that returns takes a ready
handle to a ready handle and answers as the map does; a close leaves the map in the files
alone, and an open that finds such files makes the handle ready again.
-/

namespace BPTreeDB.Runs

open Lib Eng Codec Lib.Program PageStore Engine DB

variable {R : Regime} {L H : ℕ} {T : Tree H} {C C' : Content} {M M' : KeyMap} {w w' : World}
  {m : MetaPage} {f : FileState} {rs : List WALRecord}

/-! ## Ready handles -/

/-- The process holds the map `M` in the pages `C`, and its log is in order. -/
structure Ready (R : Regime) (M : KeyMap) (C : Content) (w : World) : Prop where
  stands : ∃ (H : ℕ) (T : Tree H), Holding R w.wal.currentLsn M C T w
  log : ∃ rs f, LogOf rs f w
  power : w.power = none

theorem Holding.congr (h : Holding R L M C T w) (hpager : w'.pager = w.pager)
    (hpool : w'.pool = w.pool)
    (hdata : w'.disk.data.map (·.content) = w.disk.data.map (·.content)) : Holding R L M C T w' :=
  h.of_quiet (h.quiet.congr hpager hpool hdata)

/-- A change of the counters of the handle is not noticed. -/
theorem Ready.congr (h : Ready R M C w) (hpager : w'.pager = w.pager) (hpool : w'.pool = w.pool)
    (hdisk : w'.disk = w.disk) (hwal : w'.wal = w.wal) (hpower : w'.power = w.power) :
    Ready R M C w' := by
  obtain ⟨H, T, hholding⟩ := h.stands
  obtain ⟨rs, f, hlog⟩ := h.log
  refine ⟨⟨H, T, ?_⟩, ⟨rs, f, ?_⟩, hpower.trans h.power⟩
  · rw [hwal]
    exact Holding.congr hholding hpager hpool (by rw [hdisk])
  · refine ⟨?_, ?_, hlog.content, hlog.encodable, ?_⟩
    · rw [hwal]
      exact hlog.isOpen
    · rw [hdisk]
      exact hlog.file
    · rw [hwal]
      exact hlog.numbered

theorem Ready.metaPage (h : Ready R M C w) :
    ∃ m, w.pager.metaPage = some m ∧ MetaSim m C.pageSize C.root C.next := by
  obtain ⟨H, T, hholding⟩ := h.stands
  obtain ⟨m, hm, hfields, -⟩ := hholding.quiet.metaPage
  exact ⟨m, hm, hfields⟩

/-- The log of the world after a checkpoint. -/
theorem logOf_checkpointed {power : Option ℕ} {content : Bytes} {cache : List (ℕ × CachedPage)}
    (hencodable : WalEncodable (checkpointRecord m m.lastCheckpointLsn))
    (hpos : 0 < m.lastCheckpointLsn) :
    ∃ f, LogOf [checkpointRecord m m.lastCheckpointLsn] f
      (checkpointed w power content cache m) := by
  refine ⟨_, rfl, rfl, by simp, by simpa using hencodable, m.lastCheckpointLsn - 1,
    ⟨?_, trivial⟩, ?_⟩
  · show m.lastCheckpointLsn = m.lastCheckpointLsn - 1 + 1
    omega
  · show m.lastCheckpointLsn - 1 + 1 = m.lastCheckpointLsn
    omega

/-- A checkpoint keeps the map. -/
theorem Ready.checkpoint (hR : Sized R) (h : Ready R M C w) (hm : w.pager.metaPage = some m)
    (hrun : DB.checkpoint w = .ok () w') : CheckpointDone C m w w' ∧ Ready R M C w' := by
  obtain ⟨H, T, hholding⟩ := h.stands
  obtain ⟨rs, f, hlog⟩ := h.log
  have hlarge : minPageSize ≤ C.pageSize := by
    rw [hholding.pageSize]
    exact hR.large
  have hdone := checkpoint_done (hR.storable hholding) hlarge hholding.quiet hm hlog hrun
  refine ⟨hdone, ?_⟩
  have hencodable := hdone.encodable
  have hquiet := hdone.quiet
  obtain ⟨power, content, cache, hpower, rfl, -⟩ := hdone.eq
  refine ⟨⟨H, T, ?_⟩, ⟨_, logOf_checkpointed hencodable (Nat.succ_pos _)⟩, hpower h.power⟩
  exact (hholding.of_quiet hquiet).mono (Nat.le_succ _)

/-- A checkpoint that may run. -/
theorem Ready.maybeCheckpoint (hR : Sized R) (h : Ready R M C w)
    (hrun : DB.maybeCheckpoint w = .ok () w') : Ready R M C w' ∧ w'.isOpened = w.isOpened := by
  obtain ⟨b, w₁, hshould, hrest⟩ := bind_eq_ok.mp hrun
  have hsame : w₁ = w := by
    exact (keeps_shouldCheckpoint (R := Eq)).ok hshould |>.symm
  subst hsame
  cases b with
  | false =>
      cases hrest
      exact ⟨h, rfl⟩
  | true =>
      obtain ⟨m, hm, -⟩ := h.metaPage
      obtain ⟨hdone, hready⟩ := h.checkpoint hR hm hrest
      obtain ⟨power, content, cache, -, rfl, -⟩ := hdone.eq
      exact ⟨hready, rfl⟩

/-! ## Changing the tree -/

/-- An append to the log keeps the map. -/
theorem Ready.append (h : Ready R M C w) {r : WALRecord} {lsn : ℕ}
    (hr : r.lsn = w.wal.currentLsn + 1) (hrun : WAL.append r w = .ok lsn w') :
    Ready R M C w' ∧ w'.wal.currentLsn = lsn ∧ w'.isOpened = w.isOpened := by
  obtain ⟨H, T, hholding⟩ := h.stands
  obtain ⟨rs, f, hlog⟩ := h.log
  have houtcome := append_outcome hlog.isOpen hlog.file r
  rw [hrun] at houtcome
  cases houtcome with
  | done hencodable hpower =>
      obtain ⟨base, hnumbered, hbase⟩ := hlog.numbered
      refine ⟨⟨⟨H, T, ?_⟩, ⟨rs ++ [r], _, hlog.isOpen, rfl, ?_, fun q hq => ?_, base, ?_, ?_⟩,
        hpower h.power⟩, rfl, rfl⟩
      · have hle : w.wal.currentLsn ≤ r.lsn := by omega
        exact Holding.congr (hholding.mono hle) rfl rfl rfl
      · simp [appendedFile, FileState.write, FileState.fsync, hlog.content]
      · rcases List.mem_append.mp hq with hq | hq
        · exact hlog.encodable q hq
        · rw [List.mem_singleton.mp hq]
          exact hencodable
      · exact WAL.numbered_append.mpr ⟨hnumbered, by omega, trivial⟩
      · show base + (rs ++ [r]).length = r.lsn
        rw [List.length_append, List.length_singleton]
        omega

/-- An operation of the tree leaves the log alone. -/
theorem Ready.of_noSteal (h : Ready R M C w) (hsteal : NoSteal w w')
    (hholds : ∃ (H : ℕ) (T : Tree H), Holding R w.wal.currentLsn M' C' T w') :
    Ready R M' C' w' := by
  have hwal : w'.wal = w.wal := congrArg Frozen.wal hsteal.frozen
  have hfile : w'.disk.wal = w.disk.wal := congrArg Frozen.walFile hsteal.frozen
  obtain ⟨rs, f, hlog⟩ := h.log
  refine ⟨?_, ⟨rs, f, ?_, hfile.trans hlog.file, hlog.content, hlog.encodable, ?_⟩,
    hsteal.power h.power⟩
  · rw [hwal]
    exact hholds
  · rw [hwal]
    exact hlog.isOpen
  · rw [hwal]
    exact hlog.numbered

theorem NoSteal.isOpened (h : NoSteal w w') : w'.isOpened = w.isOpened :=
  congrArg Frozen.isOpened h.frozen

variable {P : ℕ} {key value : Bytes} {lsn : ℕ}

/-- An insert that returned has changed the map. -/
theorem holding_insert (h : Holding (plainRegime P) L M C T w) (hlsn : lsn ≤ L)
    (hrun : BPlusTree.insert key value lsn w = .ok () w') :
    ∃ (C' : Content) (H' : ℕ) (T' : Tree H'),
      Holding (plainRegime P) L (Function.update M key (some value)) C' T' w' := by
  have hfits : (calculateLeafRecordSize key value : ℤ) ≤
      getMaxLeafRecordSize (plainRegime P).pageSize := by
    by_contra hlarge
    rw [insert_tooLarge h.quiet key value lsn (by
      rw [h.pageSize]
      exact lt_of_not_ge hlarge)] at hrun
    cases hrun
  rcases h.insert (looseMode_allows (C := C)) le_rfl hfits (key_le_of_accepted hfits) hlsn with
    ⟨w₁, S, hengine, -, hdone⟩ | ⟨e, w₁, hengine, -⟩
  · rw [hengine] at hrun
    cases hrun
    exact ⟨S.toContent, hdone.holding⟩
  · rw [hengine] at hrun
    cases hrun

/-- A delete that returned has changed the map. -/
theorem holding_delete (h : Holding (plainRegime P) L M C T w) (hlsn : lsn ≤ L) {deleted : Bool}
    (hrun : BPlusTree.delete key lsn w = .ok deleted w') :
    ∃ (C' : Content) (H' : ℕ) (T' : Tree H'),
      Holding (plainRegime P) L (Function.update M key none) C' T' w' := by
  rcases h.delete (looseMode_allows (C := C)) le_rfl key hlsn with
    ⟨w₁, S, hengine, -, hdone⟩ | ⟨e, w₁, hengine, -⟩
  · rw [hengine] at hrun
    cases hrun
    exact ⟨S.toContent, hdone.holding⟩
  · rw [hengine] at hrun
    cases hrun

theorem Ready.insert (h : Ready (plainRegime P) M C w) (hlsn : lsn ≤ w.wal.currentLsn)
    (hrun : BPlusTree.insert key value lsn w = .ok () w') :
    (∃ C', Ready (plainRegime P) (Function.update M key (some value)) C' w') ∧
      w'.isOpened = w.isOpened := by
  have hsteal := (noSteal_steps.treeInsert key value lsn).ok hrun
  obtain ⟨H, T, hholding⟩ := h.stands
  obtain ⟨C', H', T', hholding'⟩ := holding_insert hholding hlsn hrun
  exact ⟨⟨C', h.of_noSteal hsteal ⟨H', T', hholding'⟩⟩, NoSteal.isOpened hsteal⟩

theorem Ready.delete (h : Ready (plainRegime P) M C w) (hlsn : lsn ≤ w.wal.currentLsn)
    {deleted : Bool} (hrun : BPlusTree.delete key lsn w = .ok deleted w') :
    (∃ C', Ready (plainRegime P) (Function.update M key none) C' w') ∧
      w'.isOpened = w.isOpened := by
  have hsteal := (noSteal_steps.treeDelete key lsn).ok hrun
  obtain ⟨H, T, hholding⟩ := h.stands
  obtain ⟨C', H', T', hholding'⟩ := holding_delete hholding hlsn hrun
  exact ⟨⟨C', h.of_noSteal hsteal ⟨H', T', hholding'⟩⟩, NoSteal.isOpened hsteal⟩

/-- A search answers as the map does. -/
theorem Ready.search (h : Ready R M C w) {found : Option Bytes}
    (hrun : BPlusTree.search key w = .ok found w') :
    found = M key ∧ Ready R M C w' ∧ w'.isOpened = w.isOpened := by
  have hsteal := (noSteal_steps.search key).ok hrun
  obtain ⟨H, T, hholding⟩ := h.stands
  rcases hholding.search (looseMode_allows (C := C)) le_rfl key with
    ⟨w₁, S, hengine, -, hcontent, hdone⟩ | ⟨e, w₁, hengine, -⟩
  · rw [hengine] at hrun
    cases hrun
    exact ⟨rfl, h.of_noSteal hsteal (hcontent ▸ hdone.holding), NoSteal.isOpened hsteal⟩
  · rw [hengine] at hrun
    cases hrun

/-- The pairs are the records of the map in a range, in strictly increasing order. -/
structure ListsRange (M : KeyMap) (start stop : Option Bytes) (pairs : List (Bytes × Bytes)) :
    Prop where
  sorted : (pairs.map Prod.fst).Pairwise (· < ·)
  mem_iff : ∀ k v, (k, v) ∈ pairs ↔
    M k = some v ∧ (∀ s, start = some s → s ≤ k) ∧ ∀ s, stop = some s → k < s

theorem Holding.listsRange (h : Holding R L M C T w) (start stop : Option Bytes) :
    ListsRange M start stop (inRange (start.getD []) stop (entriesOf (Tree.items H T))) := by
  refine ⟨pairwise_inRange h.inv.ordered.sorted_entries, fun k v => ?_⟩
  rw [mem_inRange h.records]
  have hnil : ([] : Bytes) ≤ k := not_lt.mp (List.not_lt_nil k)
  cases start <;> cases stop <;> simp [hnil]

/-- A scan that is consumed lists a range of the map. -/
theorem Ready.scan (h : Ready R M C w) {start stop : Option Bytes} {pairs : List (Bytes × Bytes)}
    (hrun : BPlusTree.scan start stop w = .ok pairs w') :
    ListsRange M start stop pairs ∧ Ready R M C w' ∧ w'.isOpened = w.isOpened := by
  have hsteal := (noSteal_steps.scan start stop).ok hrun
  obtain ⟨H, T, hholding⟩ := h.stands
  rcases hholding.scan start stop with ⟨w₁, hengine, hholding'⟩ | ⟨e, w₁, hengine, -⟩
  · rw [hengine] at hrun
    cases hrun
    exact ⟨Holding.listsRange hholding start stop, h.of_noSteal hsteal ⟨H, T, hholding'⟩,
      NoSteal.isOpened hsteal⟩
  · rw [hengine] at hrun
    cases hrun

/-! ## Public operations -/

/-- A call of a public operation of an open handle. -/
inductive Call where
  | put (key value : Bytes)
  | get (key : Bytes)
  | delete (key : Bytes)
  | scan (start stop : Option Bytes)
  | checkpoint
  deriving DecidableEq, Repr

/-- What a call returns. -/
inductive Answer where
  | nothing
  | value (found : Option Bytes)
  | deleted (wasDeleted : Bool)
  | pairs (pairs : List (Bytes × Bytes))
  deriving DecidableEq, Repr

def Call.run : Call → Eng Answer
  | .put key value => do
      DB.put (.bytes key) (.bytes value)
      return .nothing
  | .get key => return .value (← DB.get (.bytes key))
  | .delete key => return .deleted (← DB.delete (.bytes key))
  | .scan start stop => return .pairs (← DB.scan (start.map .bytes) (stop.map .bytes))
  | .checkpoint => do
      DB.checkpoint
      return .nothing

/-- The map after a call. -/
def Call.after (M : KeyMap) : Call → KeyMap
  | .put key value => Function.update M key (some value)
  | .delete key => Function.update M key none
  | _ => M

/-- The answer of the map to a call. -/
def Call.Answers (M : KeyMap) : Call → Answer → Prop
  | .get key, answer => answer = .value (M key)
  | .delete key, answer => answer = .deleted (M key).isSome
  | .scan start stop, answer => ∃ pairs, answer = .pairs pairs ∧ ListsRange M start stop pairs
  | _, answer => answer = .nothing

/-- A call that changes the pages: a `put`, or a `delete` of a key that is there. -/
def Call.Changes (M : KeyMap) : Call → Prop
  | .put _ _ => True
  | .delete key => M key ≠ none
  | _ => False

theorem checkIfOpened_eq (hrun : DB.checkIfOpened w = .ok () w') : w' = w :=
  ((keeps_checkIfOpened (R := Eq)).ok hrun).symm

theorem Ready.put (hR : Sized (plainRegime P)) (h : Ready (plainRegime P) M C w)
    (hrun : DB.put (.bytes key) (.bytes value) w = .ok () w') :
    (∃ C', Ready (plainRegime P) (Function.update M key (some value)) C' w') ∧
      w'.isOpened = w.isOpened := by
  obtain ⟨_, w₁, hopened, hput⟩ := bind_eq_ok.mp hrun
  obtain rfl := checkIfOpened_eq hopened
  have hput : (BPlusTree.raiseIfRecordTooLarge key value >>= fun _ =>
    DB.maybeCheckpoint >>= fun _ =>
      DB.logAndInsert key value >>= fun _ => DB.maybeCheckpoint) w₁ = .ok () w' := hput
  obtain ⟨_, w₂, hsize, hput⟩ := bind_eq_ok.mp hput
  obtain rfl := (keeps_raiseIfRecordTooLarge (R := Eq) key value).ok hsize
  obtain ⟨_, w₃, hfirst, hput⟩ := bind_eq_ok.mp hput
  obtain ⟨h₃, hopened₃⟩ := h.maybeCheckpoint hR hfirst
  obtain ⟨_, w₄, hlog, hsecond⟩ := bind_eq_ok.mp hput
  obtain ⟨lsn, w₅, happend, hlog⟩ := bind_eq_ok.mp hlog
  obtain ⟨h₅, hlsn, hopened₅⟩ := h₃.append (r := .put (w₃.wal.currentLsn + 1) key value) rfl happend
  obtain ⟨_, w₆, hinsert, hcount⟩ := bind_eq_ok.mp hlog
  obtain ⟨⟨C', h₆⟩, hopened₆⟩ := h₅.insert (le_of_eq hlsn.symm) hinsert
  cases hcount
  have h₇ : Ready (plainRegime P) (Function.update M key (some value)) C'
      { w₆ with versionCounter := w₆.versionCounter + 1 } := h₆.congr rfl rfl rfl rfl rfl
  obtain ⟨h', hopened'⟩ := h₇.maybeCheckpoint hR hsecond
  exact ⟨⟨C', h'⟩, hopened'.trans (hopened₆.trans (hopened₅.trans hopened₃))⟩

theorem Ready.dbDelete (hR : Sized (plainRegime P)) (h : Ready (plainRegime P) M C w)
    {deleted : Bool} (hrun : DB.delete (.bytes key) w = .ok deleted w') :
    deleted = (M key).isSome ∧ w'.isOpened = w.isOpened ∧
      ∃ C', Ready (plainRegime P) (Function.update M key none) C' w' ∧ (M key = none → C' = C) := by
  obtain ⟨_, w₁, hopened, hdelete⟩ := bind_eq_ok.mp hrun
  obtain rfl := checkIfOpened_eq hopened
  have hdelete : (BPlusTree.search key >>= fun found =>
      if found.isNone then pure false else do
        DB.maybeCheckpoint
        DB.logAndDelete key
        DB.maybeCheckpoint
        return true) w₁ = .ok deleted w' := hdelete
  obtain ⟨found, w₂, hsearch, hdelete⟩ := bind_eq_ok.mp hdelete
  obtain ⟨rfl, h₂, hopened₂⟩ := h.search hsearch
  cases hkey : M key with
  | none =>
      rw [hkey] at hdelete
      cases hdelete
      -- An absent key leaves before the first checkpoint.
      have hsame : Function.update M key none = M := Function.update_eq_self_iff.mpr hkey.symm
      rw [hsame]
      exact ⟨rfl, hopened₂, C, h₂, fun _ => rfl⟩
  | some v =>
      rw [hkey] at hdelete
      have hdelete : (DB.maybeCheckpoint >>= fun _ => DB.logAndDelete key >>= fun _ =>
          DB.maybeCheckpoint >>= fun _ => pure true) w₂ = .ok deleted w' := hdelete
      obtain ⟨_, w₃, hfirst, hdelete⟩ := bind_eq_ok.mp hdelete
      obtain ⟨h₃, hopened₃⟩ := h₂.maybeCheckpoint hR hfirst
      obtain ⟨_, w₄, hlog, hdelete⟩ := bind_eq_ok.mp hdelete
      obtain ⟨lsn, w₅, happend, hlog⟩ := bind_eq_ok.mp hlog
      obtain ⟨h₅, hlsn, hopened₅⟩ := h₃.append (r :=
        .delete (w₃.wal.currentLsn + 1) key) rfl happend
      obtain ⟨wasDeleted, w₆, htree, hlog⟩ := bind_eq_ok.mp hlog
      obtain ⟨⟨C', h₆⟩, hopened₆⟩ := h₅.delete (le_of_eq hlsn.symm) htree
      obtain ⟨_, w₇, hassert, hcount⟩ := bind_eq_ok.mp hlog
      -- The assertion that the tree found the key, which the search saw, does not fail.
      obtain rfl := (keeps_assert (R := Eq) _ _).ok hassert
      cases hcount
      have h₇ : Ready (plainRegime P) (Function.update M key none) C'
          { w₆ with versionCounter := w₆.versionCounter + 1 } := h₆.congr rfl rfl rfl rfl rfl
      obtain ⟨_, w₈, hsecond, hpure⟩ := bind_eq_ok.mp hdelete
      cases hpure
      obtain ⟨h', hopened'⟩ := h₇.maybeCheckpoint hR hsecond
      refine ⟨rfl, ?_, C', h', fun hnone => by cases hnone⟩
      exact hopened'.trans (hopened₆.trans (hopened₅.trans (hopened₃.trans hopened₂)))

theorem ensureBound_bytes (bound : Option Bytes) (paramName : String) :
    DB.ensureBound (bound.map .bytes) paramName = pure bound := by
  cases bound <;> rfl

/-- A call that returns answers as the map does, and leaves a ready handle. -/
theorem Call.step (hR : Sized (plainRegime P)) (h : Ready (plainRegime P) M C w) {c : Call}
    {answer : Answer} (hrun : c.run w = .ok answer w') :
    c.Answers M answer ∧ w'.isOpened = w.isOpened ∧
      ∃ C', Ready (plainRegime P) (c.after M) C' w' ∧ (¬ c.Changes M → C' = C) := by
  cases c with
  | put key value =>
      obtain ⟨_, w₁, hput, hpure⟩ := bind_eq_ok.mp hrun
      cases hpure
      obtain ⟨⟨C', h'⟩, hopened⟩ := h.put hR hput
      exact ⟨rfl, hopened, C', h', fun hnot => absurd trivial hnot⟩
  | get key =>
      obtain ⟨found, w₁, hget, hpure⟩ := bind_eq_ok.mp hrun
      cases hpure
      obtain ⟨_, w₂, hcheck, hsearch⟩ := bind_eq_ok.mp hget
      obtain rfl := checkIfOpened_eq hcheck
      obtain ⟨rfl, h', hopened⟩ := h.search (show BPlusTree.search key _ = _ from hsearch)
      exact ⟨rfl, hopened, C, h', fun _ => rfl⟩
  | delete key =>
      obtain ⟨deleted, w₁, hdelete, hpure⟩ := bind_eq_ok.mp hrun
      cases hpure
      obtain ⟨rfl, hopened, C', h', hsame⟩ := h.dbDelete hR hdelete
      exact ⟨rfl, hopened, C', h', fun hnot => hsame (not_not.mp hnot)⟩
  | scan start stop =>
      obtain ⟨pairs, w₁, hscan, hpure⟩ := bind_eq_ok.mp hrun
      cases hpure
      obtain ⟨_, w₂, hcheck, hbounds⟩ := bind_eq_ok.mp hscan
      obtain rfl := checkIfOpened_eq hcheck
      rw [ensureBound_bytes, ensureBound_bytes, pure_bind, pure_bind] at hbounds
      obtain ⟨hlists, h', hopened⟩ := h.scan hbounds
      exact ⟨⟨pairs, rfl, hlists⟩, hopened, C, h', fun _ => rfl⟩
  | checkpoint =>
      obtain ⟨_, w₁, hcheckpoint, hpure⟩ := bind_eq_ok.mp hrun
      cases hpure
      obtain ⟨m, hm, -⟩ := h.metaPage
      obtain ⟨hdone, h'⟩ := h.checkpoint hR hm hcheckpoint
      obtain ⟨power, content, cache, -, rfl, -⟩ := hdone.eq
      exact ⟨rfl, rfl, C, h', fun _ => rfl⟩

/-! ## Closing -/

/-- The bytes of a log that holds the record of the last checkpoint alone. -/
def restingLog (m : MetaPage) : Bytes := recordBytes (checkpointRecord m m.lastCheckpointLsn)

/-- The files of a closed database hold the map `M` in the pages `C`. -/
structure Saved (R : Regime) (M : KeyMap) (C : Content) (m : MetaPage) (disk : Disk) : Prop where
  data : ∃ content, disk.data = some ⟨content, content⟩ ∧ Image content m C
  log : disk.wal = some ⟨restingLog m, restingLog m⟩
  encodable : WalEncodable (checkpointRecord m m.lastCheckpointLsn)
  pos : 0 < m.lastCheckpointLsn
  tree : ∃ (H : ℕ) (T : Tree H), StoreInv m.lastCheckpointLsn C T ∧ Tree.Good R true H T ∧
    C.pageSize = R.pageSize ∧ Represents M (entriesOf (Tree.items H T))

/-- A closed handle whose pool holds unchanged pages of `C` only. -/
structure Idle (C : Content) (w : World) : Prop where
  pager : w.pager.isOpen = false
  wal : w.wal.isOpen = false
  power : w.power = none
  pageSize : minPageSize ≤ w.pager.pageSizeBytes
  freelist : w.pager.freelistCache = []
  pool : CleanPool C w.pool

theorem Quiet.cleanPool (hq : Quiet w C) (hclean : ∀ e ∈ w.pool.cache, e.2.isDirty = false) :
    CleanPool C w.pool :=
  ⟨hq.pool.nodup, hq.pool.object, hq.pool.single, hclean⟩

/-- The world after the page file was closed. -/
def released (w : World) (f : FileState) : World :=
  { w with
    disk := { w.disk with data := some f.fsync }
    pager := { w.pager with isOpen := false, freelistCache := [], dirtyFreelistPageIds := [] } }

/-- `Pager.close` with nothing to write. -/
theorem pagerClose_clean (hopen : w.pager.isOpen = true) (hf : w.disk.data = some f)
    (hdirty : w.pager.dirtyFreelistPageIds = []) (hmeta : w.pager.isMetaDirty = false)
    (hpower : w.power = none) : Pager.close w = .ok () (released w f) := by
  have hpublish : publishMeta w = .ok () w := by
    rw [publishMeta, run_bind_ok (run_get w), if_neg (by simp [hmeta])]
    rfl
  rw [pagerClose_eq hopen, if_neg (by simp [hdirty]), pure_bind, run_bind_ok hpublish, releaseFile]
  obtain ⟨hlost, -⟩ | ⟨power, hnone, hsync⟩ := pagerFsync_cases hopen hf
  · rw [hpower] at hlost
    cases hlost
  · rw [run_bind_ok hsync, hnone hpower, ← hpower]
    rfl

/-- The stages of a `close` that returned. -/
theorem close_eq_ok (hopened : w.isOpened = true) (hrun : DB.close w = .ok () w') :
    ∃ w₁ w₂ w₃, DB.checkpoint w = .ok () w₁ ∧ WAL.close w₁ = .ok () w₂ ∧
      Pager.close w₂ = .ok () w₃ ∧ w' = { w₃ with isOpened := false, versionCounter := 0 } := by
  rw [DB.close, run_bind_ok (run_get w), if_neg (by simp [hopened])] at hrun
  obtain ⟨_, w₃, htry, hmark⟩ := bind_eq_ok.mp hrun
  cases hmark
  cases hfiles : DB.closeFiles w with
  | ok _ w₄ =>
      rw [run_tryCatch_ok hfiles] at htry
      cases htry
      obtain ⟨_, w₁, hcheckpoint, hfiles⟩ := bind_eq_ok.mp hfiles
      obtain ⟨_, w₂, hwal, hpager⟩ := bind_eq_ok.mp hfiles
      exact ⟨w₁, w₂, w₃, hcheckpoint, hwal, hpager, rfl⟩
  | error e w₄ =>
      rw [run_tryCatch_error hfiles] at htry
      obtain ⟨_, w₅, -, hthrow⟩ := bind_eq_ok.mp htry
      cases hthrow

/-- A close leaves the map in the files. -/
theorem Ready.close (hR : Sized R) (h : Ready R M C w) (hopened : w.isOpened = true)
    (hrun : DB.close w = .ok () w') : (∃ m, Saved R M C m w'.disk) ∧ Idle C w' := by
  obtain ⟨w₁, w₂, w₃, hcheckpoint, hwal, hpager, rfl⟩ := close_eq_ok hopened hrun
  obtain ⟨m, hm, -⟩ := h.metaPage
  obtain ⟨hdone, hready⟩ := h.checkpoint hR hm hcheckpoint
  obtain ⟨H, T, hholding⟩ := hready.stands
  have hencodable := hdone.encodable
  obtain ⟨power, content, cache, hpower, rfl, himage, hclean, -⟩ := hdone.eq
  obtain rfl := hpower h.power
  set m' := checkpointMeta m (w.wal.currentLsn + 1) with hm'
  obtain ⟨hlost, -⟩ | ⟨power, hnone, hclose⟩ :=
    walClose_cases (w := checkpointed w none content cache m') rfl rfl
  · cases hlost
  obtain rfl := hnone rfl
  rw [hclose] at hwal
  cases hwal
  have hrelease := pagerClose_clean
    (w := withClosedLog (checkpointed w none content cache m') none
      (⟨restingLog m', restingLog m'⟩ : FileState).fsync)
    (f := ⟨content, content⟩) hholding.quiet.isOpen rfl rfl rfl rfl
  cases hpager.symm.trans hrelease
  have hpool : CleanPool C (checkpointed w none content cache m').pool :=
    Quiet.cleanPool hholding.quiet hclean
  have hlsn : (checkpointed w none content cache m').wal.currentLsn = m'.lastCheckpointLsn := rfl
  rw [hlsn] at hholding
  refine ⟨⟨m', ⟨content, rfl, himage⟩, rfl, hencodable, Nat.succ_pos _, H, T, hholding.inv,
    hholding.good, hholding.pageSize, hholding.records⟩, rfl, rfl, rfl, ?_, rfl,
    hpool⟩
  have hsize : w.pager.pageSizeBytes = C.pageSize := hholding.quiet.pageSize
  show minPageSize ≤ w.pager.pageSizeBytes
  rw [hsize, hholding.pageSize]
  exact hR.large

/-! ## Opening -/

/-- The replay of a log that holds the record of the last checkpoint alone. -/
theorem repairAndReplay_resting (hopen : w.wal.isOpen = true)
    (hf : w.disk.wal = some ⟨restingLog m, restingLog m⟩) (hm : w.pager.metaPage = some m)
    (hencodable : WalEncodable (checkpointRecord m m.lastCheckpointLsn))
    (hpos : 0 < m.lastCheckpointLsn) (hpower : w.power = none) :
    ∃ dirty, DB.repairAndReplay w = .ok ()
      (withLog (withLsn (repaired w m dirty) m.lastCheckpointLsn) none
        ⟨restingLog m, restingLog m⟩) := by
  have hread : Readable [checkpointRecord m m.lastCheckpointLsn] := by
    refine ⟨by simpa using hencodable, m.lastCheckpointLsn - 1, ?_, trivial⟩
    show m.lastCheckpointLsn = m.lastCheckpointLsn - 1 + 1
    omega
  obtain ⟨dirty, hrun⟩ := repairAndReplay_eq [checkpointRecord m m.lastCheckpointLsn] [] hopen
    hf (by simp [restingLog]) hread torn_nil hm
  refine ⟨dirty, ?_⟩
  have hmeta : repairedMeta m [checkpointRecord m m.lastCheckpointLsn] = m := by
    simp [repairedMeta, newestMeta, WAL.positioned, checkpointRecord, DB.latestCheckpoint]
  rw [hrun, hmeta]
  have happly := replayAll_skip (w := withLsn (repaired w m dirty) 0)
    (r := checkpointRecord m m.lastCheckpointLsn) [] (by simp [repaired, withLsn, checkpointRecord,
      WALRecord.lsn])
  rw [run_bind_ok happly]
  have hcut := cutTail_eq (w := withLsn (repaired w m dirty) m.lastCheckpointLsn) hopen hpower
    ⟨restingLog m, restingLog m⟩ [checkpointRecord m m.lastCheckpointLsn]
  refine hcut.trans ?_
  simp [restingLog]

/-- The world that the checkpoint of a recovery starts in. -/
theorem ready_of_recovered (h : Saved R M C m w.disk) (hpager : w.pager.isOpen = true)
    (hwal : w.wal.isOpen = true) (hlsn : w.wal.currentLsn = m.lastCheckpointLsn)
    (hm : w.pager.metaPage = some m) (hsize : w.pager.pageSizeBytes = m.pageSizeBytes)
    (hpower : w.power = none) (hfree : w.pager.freelistCache = []) (hpool : CleanPool C w.pool) :
    Ready R M C w := by
  obtain ⟨content, hdata, himage⟩ := h.data
  obtain ⟨H, T, hinv, hgood, hP, hrecords⟩ := h.tree
  refine ⟨⟨H, T, ?_, ?_, hgood, hP, hrecords⟩, ⟨[checkpointRecord m m.lastCheckpointLsn], _, hwal,
    h.log, ?_, ?_, ?_⟩, hpower⟩
  · exact himage.pagesOn.quiet_of_clean hpager hdata (hsize.trans himage.fields.pageSize) hm
      himage.fields hpool hfree
  · rw [hlsn]
    exact hinv
  · simp [restingLog]
  · simpa using h.encodable
  · have hpos := h.pos
    refine ⟨m.lastCheckpointLsn - 1, ⟨?_, trivial⟩, ?_⟩
    · show m.lastCheckpointLsn = m.lastCheckpointLsn - 1 + 1
      omega
    · rw [hlsn]
      show m.lastCheckpointLsn - 1 + 1 = m.lastCheckpointLsn
      omega

/-- An open that returns finds the map in the files. -/
theorem Saved.open_ (hR : Sized R) (h : Saved R M C m w.disk) (hidle : Idle C w)
    (hrun : DB.open_ w = .ok () w') : Ready R M C w' ∧ w'.isOpened = true := by
  obtain ⟨w₁, w₂, w₃, hpager, hwal, hrecover, rfl⟩ := open_eq_ok hrun
  obtain ⟨content, hdata, himage⟩ := h.data
  rw [pagerOpen_existing hidle.pager hdata hidle.pageSize himage.encodable
    himage.metaPage] at hpager
  cases hpager
  set w₁ : World := { w with pager := { w.pager with
    isOpen := true, metaPage := some m, pageSizeBytes := m.pageSizeBytes } } with hw₁
  obtain ⟨hlost, -⟩ | ⟨power, hnone, hopen⟩ := walOpen_cases (w := w₁) hidle.wal h.log
  · cases hidle.power.symm.trans hlost
  obtain rfl := hnone hidle.power
  rw [hopen] at hwal
  cases hwal
  obtain ⟨w₄, hreplay, hcheckpoint⟩ := recover_eq_ok hrecover
  obtain ⟨dirty, hresting⟩ := repairAndReplay_resting
    (w := withEviction (withOpenLog w₁ none) false)
    rfl h.log rfl h.encodable h.pos rfl
  cases hreplay.symm.trans hresting
  set w₅ := withEviction (withLog (withLsn (repaired (withEviction (withOpenLog w₁ none) false) m
    dirty) m.lastCheckpointLsn) none ⟨restingLog m, restingLog m⟩) w.pool.evictionEnabled with hw₅
  have hsaved : Saved R M C m w₅.disk := ⟨⟨content, hdata, himage⟩, rfl, h.encodable, h.pos, h.tree⟩
  have hclean : CleanPool C w₅.pool :=
    ⟨hidle.pool.nodup, hidle.pool.object, hidle.pool.single, hidle.pool.clean⟩
  have hready : Ready R M C w₅ :=
    ready_of_recovered hsaved rfl rfl rfl rfl rfl rfl hidle.freelist hclean
  obtain ⟨-, hready₃⟩ := hready.checkpoint hR rfl hcheckpoint
  exact ⟨hready₃.congr rfl rfl rfl rfl rfl, rfl⟩

/-- `WAL.open` in a directory without a log. -/
theorem walOpen_new (hclosed : w.wal.isOpen = false) (hlog : w.disk.wal = none)
    (htemp : w.disk.walTemp = none) (hpower : w.power = none) :
    WAL.open_ w = .ok () { w with
      disk := { w.disk with wal := some .empty }, wal := ⟨true, 0⟩ } := by
  simp [WAL.open_, run_bind, hclosed, htemp, hlog, fileSystemCall, hpower]

/-- A directory without files. -/
def emptyDirectory : Disk := ⟨none, none, none, none⟩

/-- An open in an empty directory makes a database with the empty map. -/
theorem ready_of_new (hdisk : w.disk = emptyDirectory) (hidle : Idle C w)
    (hcache : w.pool.cache = []) (hrun : DB.open_ w = .ok () w') :
    Sized (plainRegime w.pager.pageSizeBytes) ∧ w'.isOpened = true ∧
      Ready (plainRegime w.pager.pageSizeBytes) (fun _ => none)
        (emptyContent w.pager.pageSizeBytes) w' := by
  obtain ⟨w₁, w₂, w₃, hpager, hwal, hrecover, rfl⟩ := open_eq_ok hrun
  have hboot := pagerOpen_new hidle.pager (by rw [hdisk]; rfl) hidle.pageSize
  rw [hpager] at hboot
  obtain ⟨hsmall, content, power, hpower, himage, rfl⟩ := hboot
  obtain rfl := hpower hidle.power
  set P := w.pager.pageSizeBytes with hP
  set w₁ := withMeta { w with pager := { w.pager with isOpen := true } } none ⟨content, content⟩
    (emptyMeta P) false with hw₁
  have hR : Sized (plainRegime P) := ⟨hidle.pageSize, hsmall⟩
  rw [walOpen_new (w := w₁) hidle.wal (by rw [hw₁]; simp [withMeta, hdisk, emptyDirectory])
    (by rw [hw₁]; simp [withMeta, hdisk, emptyDirectory]) rfl] at hwal
  cases hwal
  set w₂ : World := { w₁ with disk := { w₁.disk with wal := some .empty }, wal :=
    ⟨true, 0⟩ } with hw₂
  obtain ⟨w₄, hreplay, hcheckpoint⟩ := recover_eq_ok hrecover
  -- An empty log: nothing is repaired, nothing is replayed and no tail is cut.
  obtain ⟨dirty, hempty⟩ := repairAndReplay_eq (w := withEviction w₂ false) (f := .empty) [] []
    rfl rfl rfl ⟨by simp, 0, trivial⟩ torn_nil rfl
  have hcut := cutTail_eq (w :=
    withLsn (repaired (withEviction w₂ false) (emptyMeta P) dirty) 0) rfl
    rfl .empty []
  cases hreplay.symm.trans (hempty.trans hcut)
  set w₅ := withEviction (withLog (withLsn (repaired (withEviction w₂ false) (emptyMeta P) dirty) 0)
    none ⟨[], []⟩) w.pool.evictionEnabled with hw₅
  have hheader : pageHeaderSize ≤ P := by
    have := hidle.pageSize
    simp only [minPageSize, metaPageNoCrcSize, crc32FieldSize, pageHeaderSize] at this ⊢
    omega
  have hquiet : Quiet w₅ (emptyContent P) :=
    himage.pagesOn.quiet (f := ⟨content, content⟩) rfl rfl rfl rfl himage.fields hcache
      hidle.freelist
  have hready : Ready (plainRegime P) (fun _ => none) (emptyContent P) w₅ :=
    ⟨⟨0, emptyTree, hquiet, storeInv_empty P, good_emptyTree hheader, rfl, represents_empty⟩,
      ⟨[], _, rfl, rfl, rfl, by simp, 0, trivial, rfl⟩, rfl⟩
  obtain ⟨-, hready₃⟩ := hready.checkpoint hR rfl hcheckpoint
  exact ⟨hR, rfl, hready₃.congr rfl rfl rfl rfl rfl⟩

end BPTreeDB.Runs
