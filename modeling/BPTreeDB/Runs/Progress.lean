import BPTreeDB.Engine.Reading
import BPTreeDB.PageStore.Allocation
import BPTreeDB.PageStore.Height
import BPTreeDB.Runs.Lives
import BPTreeDB.Runs.Sessions

/-!
# Calls that return

A call may raise although nothing is wrong with its arguments: the buffer pool may have no
clean page left to evict, the LSN counter or the page ids may outgrow their fields.  Here is
when it does not.

Descents come first.  They read a page on every level of the tree, and there are few levels:
logarithmically many in the number of keys.  So a pool that has room for the pages of three
paths, at every dirty ratio below the one that makes a checkpoint due, has room for every
operation: before an operation the pool is checkpointed, or below that ratio.
-/

namespace BPTreeDB.Runs

open Lib Eng Codec Lib.Program Lib.Transitions PageStore Engine DB

variable {R : Regime} {L H P h k n : ℕ} {T : Tree H} {M M' : KeyMap} {C : Content} {w w' : World}
  {rs : List WALRecord} {config : Config} {key value : Bytes} {c : Call}

/-! ## Descents -/

/-- A descent reads a page on every level. -/
theorem Holding.findLeaf_path (hh : Holding R L M C T w) {result : BPlusTree.LeafSearchResult}
    (hrun : BPlusTree.findLeaf key w = .ok result w') : result.path.length = H := by
  obtain ⟨leafPageId, path, S₁, hfind, hlength, -⟩ :=
    (hh.resting (H + 1)).findLeaf_path le_rfl key
  have hlock := lockstep_findLeaf key
    (hh.quiet.sim (looseMode_allows (C := C) (n := H + 1)))
  rw [hrun, hfind] at hlock
  obtain ⟨-, hpath, -⟩ := hlock
  rw [hpath]
  exact hlength

/-- The pool has room for an operation on a tree of `h + 1` levels. -/
def Roomy (h : ℕ) (w : World) : Prop :=
  w.pool.dirtyCount + touchBound h ≤ w.pool.capacityPages

/-- The process is well sized for trees of `h + 1` levels: the pool is roomy when nothing is
dirty, and at every dirty count for which no checkpoint is due. -/
structure Ample (h : ℕ) (w : World) : Prop where
  power : w.power = none
  room : touchBound h ≤ w.pool.capacityPages
  due : ∀ d, w.config.dirtyRatioExceeds d w.pool.capacityPages = false →
    d + touchBound h ≤ w.pool.capacityPages

theorem Ample.of_setup (ha : Ample h w) (hsetup : SameSetup w w') : Ample h w' := by
  refine ⟨hsetup.power ha.power, ?_, fun d hd => ?_⟩
  · rw [hsetup.capacity]
    exact ha.room
  · rw [hsetup.config, hsetup.capacity] at hd
    rw [hsetup.capacity]
    exact ha.due d hd

theorem Roomy.spacious (hr : Roomy h w) : Spacious w := by
  unfold Roomy touchBound at hr
  unfold Spacious
  omega

theorem touchBound_mono (hH : H ≤ h) : touchBound H ≤ touchBound h := by
  unfold touchBound
  omega

theorem Roomy.allows (hr : Roomy h w) (hpower : w.power = none) (hH : H ≤ h) :
    tightMode.Allows (touchBound H) C w := by
  refine ⟨fun _ _ => ?_, fun _ => hpower, fun _ _ _ _ => trivial, fun _ h => by cases h⟩
  calc w.pool.dirtyCount + touchBound H ≤ w.pool.dirtyCount + touchBound h :=
        Nat.add_le_add_left (touchBound_mono hH) _
    _ ≤ w.pool.capacityPages := hr

/-- The half-full rule holds on every level. -/
def HalfFull (R : Regime) : Prop := ∀ h, R.healthyAt h

theorem HalfFull.not_jams (hfull : HalfFull R) : ¬ Jams R := by
  rintro ⟨e, h, hunhealthy, -⟩
  exact hunhealthy (hfull h)

/-- A tree with fewer than `4 * 3 ^ h` records has at most `h + 1` levels. -/
theorem Holding.height_le (hfull : HalfFull R) (hh : Holding R L M C T w)
    (hsmall : (stored M).ncard < 4 * 3 ^ h) : H ≤ h := by
  have hfanout : R.Fanout 2 3 := fanout_full (hfull 0) (hfull 1)
  rcases hfanout.height_bound hh.good hh.inv.ordered hh.records with rfl | hbound
  · exact Nat.zero_le h
  · have hlt : 4 * 3 ^ (H - 1) < 4 * 3 ^ h := lt_of_le_of_lt hbound hsmall
    have hexp : H - 1 < h := (Nat.pow_lt_pow_iff_right (by norm_num)).mp
      (Nat.lt_of_mul_lt_mul_left hlt)
    omega

/-! ## Programs that return -/

/-- A process in which calls return: it is alive and well sized, and its counters have `l` LSNs
and `k` page ids left. -/
structure Serving (R : Regime) (h : ℕ) (M : KeyMap) (w : World) (l k : ℕ) : Prop where
  alive : ∃ C rs, Alive R M C rs w ∧ C.next + k < 256 ^ 8
  isOpened : w.isOpened = true
  ample : Ample h w
  lsn : w.wal.currentLsn + l < 256 ^ 8

variable {l : ℕ}

theorem Serving.mono {l' k' : ℕ} (hs : Serving R h M w l k) (hl : l' ≤ l) (hk : k' ≤ k) :
    Serving R h M w l' k' := by
  obtain ⟨C, rs, halive, hnext⟩ := hs.alive
  exact ⟨⟨C, rs, halive, by omega⟩, hs.isOpened, hs.ample, by have := hs.lsn; omega⟩

/-- A step that only reads. -/
theorem Serving.of_noSteal (hs : Serving R h M w l k) (hsteal : NoSteal w w')
    (halive : ∀ C rs, Alive R M C rs w → Alive R M C rs w') : Serving R h M w' l k := by
  obtain ⟨C, rs, hw, hnext⟩ := hs.alive
  have hopened : w'.isOpened = w.isOpened := congrArg Frozen.isOpened hsteal.frozen
  have hlsn : w'.wal.currentLsn = w.wal.currentLsn :=
    congrArg (fun f => f.wal.currentLsn) hsteal.frozen
  refine ⟨⟨C, rs, halive C rs hw, hnext⟩, hopened.trans hs.isOpened,
    hs.ample.of_setup (.of_noSteal hsteal), ?_⟩
  rw [hlsn]
  exact hs.lsn

/-! ### Automatic checkpoints -/

theorem Serving.fitsFormat (hs : Serving R h M w (l + 1) k) : FitsFormat w := by
  obtain ⟨C, rs, halive, hnext⟩ := hs.alive
  obtain ⟨m, hm, hfields⟩ := halive.metaPage
  have hlsn := hs.lsn
  refine ⟨by omega, fun m' hm' => ?_⟩
  obtain rfl : m = m' := Option.some.inj (hm.symm.trans hm')
  rw [hfields.next]
  omega

theorem Serving.checkpoint (hR : Sized R) (hs : Serving R h M w (l + 1) k) :
    ∃ w', DB.checkpoint w = .ok () w' ∧ Serving R h M w' l k ∧ Roomy h w' := by
  obtain ⟨C, rs, halive, hnext⟩ := hs.alive
  obtain ⟨w', hrun⟩ := halive.checkpoint_returns hR hs.ample.power hs.fitsFormat
  obtain ⟨m, halive', hopened, hwritten⟩ := halive.checkpoint hR hrun
  have hample := hs.ample.of_setup hwritten.setup
  have hlsn' : w'.wal.currentLsn = w.wal.currentLsn + 1 := halive'.anchored.lsn
  have hlsn := hs.lsn
  refine ⟨w', hrun, ⟨⟨C, _, halive', hnext⟩, hopened.trans hs.isOpened, hample, by omega⟩, ?_⟩
  unfold Roomy
  rw [hwritten.pool, Nat.zero_add]
  exact hample.room

/-- Whether a checkpoint is due, on a process with an open log and a pool. -/
theorem shouldCheckpoint_returns (hlog : ∃ f, w.disk.wal = some f)
    (hcapacity : w.pool.capacityPages ≠ 0) : ∃ b, DB.shouldCheckpoint w = .ok b w ∧
      (b = false → w.config.dirtyRatioExceeds w.pool.dirtyCount w.pool.capacityPages = false) := by
  obtain ⟨f, hf⟩ := hlog
  have hsize : WAL.sizeBytes w = .ok f.content.length w := by
    simp only [WAL.sizeBytes, run_bind, run_get, hf, run_pure]
  by_cases hlarge : w.config.checkpointWalSizeBytes < (f.content.length : ℤ)
  · refine ⟨true, ?_, fun hfalse => absurd hfalse (by simp)⟩
    rw [DB.shouldCheckpoint, run_bind_ok hsize, run_bind_ok (run_get w), if_pos hlarge]
    rfl
  · refine ⟨_, ?_, id⟩
    rw [DB.shouldCheckpoint, run_bind_ok hsize, run_bind_ok (run_get w), if_neg hlarge,
      BufferPool.dirtyRatioExceeds, run_bind_ok (run_get w), if_neg hcapacity]
    rfl

theorem Serving.maybeCheckpoint (hR : Sized R) (hs : Serving R h M w (l + 1) k) :
    ∃ w', DB.maybeCheckpoint w = .ok () w' ∧ Serving R h M w' l k ∧ Roomy h w' := by
  obtain ⟨C, rs, halive, -⟩ := hs.alive
  have hcapacity : w.pool.capacityPages ≠ 0 := by
    have hroom := hs.ample.room
    unfold touchBound at hroom
    omega
  obtain ⟨b, hshould, hnot⟩ := shouldCheckpoint_returns ⟨_, halive.anchored.log⟩ hcapacity
  cases b with
  | false =>
      refine ⟨w, ?_, hs.mono (Nat.le_succ l) le_rfl, hs.ample.due _ (hnot rfl)⟩
      rw [DB.maybeCheckpoint, run_bind_ok hshould]
      rfl
  | true =>
      obtain ⟨w', hrun, hserving⟩ := hs.checkpoint hR
      refine ⟨w', ?_, hserving⟩
      rw [DB.maybeCheckpoint, run_bind_ok hshould]
      exact hrun

/-! ### Changes of the tree -/

theorem walEncodable_put {lsn : ℕ} (hP : P < 256 ^ 4) (hlsn : lsn < 256 ^ 8)
    (hfits : (calculateLeafRecordSize key value : ℤ) ≤ getMaxLeafRecordSize P) :
    WalEncodable (.put lsn key value) := by
  simp only [calculateLeafRecordSize, getMaxLeafRecordSize, lengthFieldSize, pageHeaderSize,
    slotEntrySize] at hfits
  refine ⟨hlsn, ⟨by omega, by omega⟩, ?_⟩
  simp only [payloadBytes, prefixed, List.length_append, length_packLE]
  omega

/-- A page has room for its header and the slot of a key that is stored. -/
theorem Holding.key_lt (hh : Holding R L M C T w) (hfound : M key ≠ none) :
    key.length + 28 ≤ R.pageSize := by
  obtain ⟨v, hv⟩ := Option.ne_none_iff_exists'.mp hfound
  have hcapped := (Tree.Good.capped_entries H T hh.good ⟨key, v⟩ ((hh.records key v).mp hv)).1
  simp only [leafSlotSize, Regime.slotCap, slotEntrySize, lengthFieldSize,
    pageHeaderSize] at hcapped
  omega

theorem walEncodable_delete {lsn : ℕ} (hP : P < 256 ^ 4) (hlsn : lsn < 256 ^ 8)
    (hkey : key.length + 28 ≤ P) : WalEncodable (.delete lsn key) := by
  have hlength : key.length < 256 ^ 4 := by omega
  refine ⟨hlsn, hlength, ?_⟩
  simp only [payloadBytes, prefixed, List.length_append, length_packLE]
  omega

/-- A record that can be encoded is logged. -/
theorem Alive.append_returns (hw : Alive R M C rs w) (hpower : w.power = none) {r : WALRecord}
    (hencodable : WalEncodable r) :
    ∃ f, WAL.append r w = .ok r.lsn (withLog (withLsn w r.lsn) none f) := by
  have houtcome := append_outcome hw.isOpen hw.anchored.log r
  cases hrun : WAL.append r w with
  | ok lsn w' =>
      rw [hrun] at houtcome
      cases houtcome with
      | done _ hnone => exact ⟨_, by rw [hnone hpower]⟩
  | error e w' =>
      exfalso
      rw [hrun] at houtcome
      cases houtcome with
      | refused hnot => exact hnot hencodable
      | lostBefore _ hlost => exact hlost hpower
      | lostBetween _ hlost => exact hlost hpower

/-- The world after a logged change. -/
theorem sameSetup_of_logged {lsn : ℕ} {f : FileState}
    (hsteal : NoSteal (withLog (withLsn w lsn) none f) w') :
    SameSetup w { w' with versionCounter := w'.versionCounter + 1 } := by
  have hkept := SameSetup.of_noSteal hsteal
  exact ⟨hkept.config, hkept.capacity, fun _ => hkept.power rfl⟩

theorem Alive.logAndInsert_returns (hfull : HalfFull R) (hw : Alive R M C rs w)
    (hh : Holding R w.wal.currentLsn M C T w) (hpower : w.power = none) (hroomy : Roomy h w)
    (hH : H ≤ h) (hencodable : WalEncodable (.put (w.wal.currentLsn + 1) key value))
    (hfits : (calculateLeafRecordSize key value : ℤ) ≤ getMaxLeafRecordSize R.pageSize)
    (hkey : key.length ≤ R.maxKey) :
    ∃ w', DB.logAndInsert key value w = .ok () w' ∧ SameSetup w w' := by
  obtain ⟨f, happend⟩ := hw.append_returns hpower hencodable
  set w₁ := withLog (withLsn w (w.wal.currentLsn + 1)) none f with hw₁
  have hh₁ : Holding R (w.wal.currentLsn + 1) M C T w₁ :=
    Holding.congr (hh.mono (Nat.le_succ _)) rfl rfl rfl
  have hroomy₁ : Roomy h w₁ := hroomy
  rcases hh₁.insert (hroomy₁.allows rfl hH) le_rfl hfits hkey le_rfl with
    ⟨w₂, S, hinsert, -⟩ | ⟨e, w₂, -, he⟩
  · refine ⟨{ w₂ with versionCounter := w₂.versionCounter + 1 }, ?_, ?_⟩
    · have happend' : WAL.appendPut key value w = .ok (w.wal.currentLsn + 1) w₁ := happend
      rw [DB.logAndInsert, run_bind_ok happend', run_bind_ok hinsert]
      rfl
    · exact sameSetup_of_logged ((noSteal_steps.treeInsert key value _).ok hinsert)
  · exact absurd he (not_or.mpr ⟨tightMode_not_escape e, fun ht => hfull.not_jams ⟨e, ht⟩⟩)

theorem Alive.logAndDelete_returns (hfull : HalfFull R) (hw : Alive R M C rs w)
    (hh : Holding R w.wal.currentLsn M C T w) (hpower : w.power = none) (hroomy : Roomy h w)
    (hH : H ≤ h) (hencodable : WalEncodable (.delete (w.wal.currentLsn + 1) key))
    (hfound : M key ≠ none) : ∃ w', DB.logAndDelete key w = .ok () w' ∧ SameSetup w w' := by
  obtain ⟨f, happend⟩ := hw.append_returns hpower hencodable
  set w₁ := withLog (withLsn w (w.wal.currentLsn + 1)) none f with hw₁
  have hh₁ : Holding R (w.wal.currentLsn + 1) M C T w₁ :=
    Holding.congr (hh.mono (Nat.le_succ _)) rfl rfl rfl
  have hroomy₁ : Roomy h w₁ := hroomy
  rcases hh₁.delete (hroomy₁.allows rfl hH) le_rfl key le_rfl with
    ⟨w₂, S, hdelete, -⟩ | ⟨e, w₂, -, he⟩
  · refine ⟨{ w₂ with versionCounter := w₂.versionCounter + 1 }, ?_, ?_⟩
    · have happend' : WAL.appendDelete key w = .ok (w.wal.currentLsn + 1) w₁ := happend
      rw [DB.logAndDelete, run_bind_ok happend', run_bind_ok hdelete,
        Option.isSome_iff_ne_none.mpr hfound]
      rfl
    · exact sameSetup_of_logged ((noSteal_steps.treeDelete key _).ok hdelete)
  · exact absurd he (not_or.mpr ⟨tightMode_not_escape e, fun ht => hfull.not_jams ⟨e, ht⟩⟩)

/-- The page ids that the operation of a record takes. -/
theorem Holding.next_le_of_record (hh : Holding R L M C T w) {r : WALRecord} {C' : Content}
    (hcontent : recordOnContent r C = some C') : C'.next ≤ C.next + 2 * (H + 2) := by
  have hbudget : H + 1 ≤ 3 * C.next + 2 := by
    have hbound := touchBound_le hh
    unfold touchBound at hbound
    omega
  cases r with
  | put lsn key value =>
      obtain ⟨_, S, hrun, rfl⟩ := contentOf_eq_some hcontent
      exact (hh.resting (3 * C.next + 2)).insert_next_le hbudget hrun
  | delete lsn key =>
      obtain ⟨_, S, hrun, rfl⟩ := contentOf_eq_some hcontent
      exact (hh.resting (3 * C.next + 2)).delete_next_le hbudget hrun
  | checkpoint lsn root head next =>
      cases hcontent
      exact Nat.le_add_right _ _

/-- A change that is asked to return on a roomy process: its record takes one LSN, and its
operation two page ids for each level and two more. -/
def Returning (R : Regime) (h : ℕ) (M M' : KeyMap) (change : Eng Unit) : Prop :=
  ∀ {w : World} {l k : ℕ}, Serving R h M w (l + 1) (k + 2 * (h + 2)) → Roomy h w →
    ∃ w', change w = .ok () w' ∧ Serving R h M' w' l k

/-- A change that carried out its record. -/
theorem Serving.carried {change : Eng Unit} {r : WALRecord}
    (hs : Serving R h M w (l + 1) (k + 2 * (h + 2))) (hr : r.lsn = w.wal.currentLsn + 1)
    (hheight : ∀ {H : ℕ} {T : Tree H} {C : Content}, Holding R w.wal.currentLsn M C T w → H ≤ h)
    (hcarries : ∀ C rs, Alive R M C rs w → Carries R M C rs r w (change w))
    (hrun : change w = .ok () w') (hsetup : SameSetup w w') :
    Serving R h (afterRecord M r) w' l k := by
  obtain ⟨C, rs, halive, hnext⟩ := hs.alive
  obtain ⟨H, T, hholding⟩ := halive.stands
  obtain ⟨hopened, C', hcontent, halive'⟩ := (hcarries C rs halive).returned w' hrun
  have hids : C'.next + k < 256 ^ 8 := by
    have hH := hheight hholding
    calc C'.next + k ≤ C.next + 2 * (H + 2) + k :=
          Nat.add_le_add_right (Holding.next_le_of_record hholding hcontent) k
      _ ≤ C.next + (k + 2 * (h + 2)) := by omega
      _ < 256 ^ 8 := hnext
  have hlsn' : w'.wal.currentLsn = r.lsn := halive'.anchored.lsn.trans (lastLsn_append rs r)
  have hlsn := hs.lsn
  exact ⟨⟨C', _, halive', hids⟩, hopened.trans hs.isOpened, hs.ample.of_setup hsetup, by omega⟩

theorem returning_put (hR : Sized R) (hfull : HalfFull R)
    (hsmall : (stored M).ncard < 4 * 3 ^ h)
    (hfits : (calculateLeafRecordSize key value : ℤ) ≤ getMaxLeafRecordSize R.pageSize)
    (hkey : key.length ≤ R.maxKey) :
    Returning R h M (Function.update M key (some value)) (DB.logAndInsert key value) := by
  intro w l k hs hroomy
  obtain ⟨C, rs, halive, -⟩ := hs.alive
  obtain ⟨H, T, hholding⟩ := halive.stands
  have hlsn := hs.lsn
  have hencodable : WalEncodable (.put (w.wal.currentLsn + 1) key value) :=
    walEncodable_put hR.small (by omega) hfits
  obtain ⟨w', hrun, hsetup⟩ := halive.logAndInsert_returns hfull hholding hs.ample.power hroomy
    (Holding.height_le hfull hholding hsmall) hencodable hfits hkey
  refine ⟨w', hrun, hs.carried (r := .put (w.wal.currentLsn + 1) key value) rfl
    (fun hh => Holding.height_le hfull hh hsmall) ?_ hrun hsetup⟩
  exact fun C rs halive => halive.carries_put fun _ => hkey

theorem returning_delete (hR : Sized R) (hfull : HalfFull R)
    (hsmall : (stored M).ncard < 4 * 3 ^ h) (hfound : M key ≠ none) :
    Returning R h M (Function.update M key none) (DB.logAndDelete key) := by
  intro w l k hs hroomy
  obtain ⟨C, rs, halive, -⟩ := hs.alive
  obtain ⟨H, T, hholding⟩ := halive.stands
  have hlsn := hs.lsn
  have hencodable : WalEncodable (.delete (w.wal.currentLsn + 1) key) :=
    walEncodable_delete hR.small (by omega) (Holding.key_lt hholding hfound)
  obtain ⟨w', hrun, hsetup⟩ := halive.logAndDelete_returns hfull hholding hs.ample.power hroomy
    (Holding.height_le hfull hholding hsmall) hencodable hfound
  refine ⟨w', hrun, hs.carried (r := .delete (w.wal.currentLsn + 1) key) rfl
    (fun hh => Holding.height_le hfull hh hsmall) ?_ hrun hsetup⟩
  exact fun C rs halive => halive.carries_delete

/-- A change between two automatic checkpoints takes three LSNs at most. -/
theorem Serving.betweenCheckpoints (hR : Sized R) {change : Eng Unit}
    (hs : Serving R h M w (l + 3) (k + 2 * (h + 2))) (hchange : Returning R h M M' change) :
    ∃ w', betweenCheckpoints change w = .ok () w' ∧ Serving R h M' w' l k ∧ Spacious w' := by
  obtain ⟨w₁, hfirst, hs₁, hroomy⟩ := hs.maybeCheckpoint (l := l + 2) hR
  obtain ⟨w₂, hmiddle, hs₂⟩ := hchange (l := l + 1) hs₁ hroomy
  obtain ⟨w', hlast, hs', hroomy'⟩ := hs₂.maybeCheckpoint hR
  refine ⟨w', ?_, hs', hroomy'.spacious⟩
  rw [Runs.betweenCheckpoints, run_bind_ok hfirst, run_bind_ok hmiddle]
  exact hlast

/-! ### Reads -/

theorem Serving.search (hs : Serving R h M w l k) (hspace : Spacious w) (key : Bytes) :
    ∃ w', BPlusTree.search key w = .ok (M key) w' ∧ Serving R h M w' l k ∧ Spacious w' := by
  obtain ⟨C, rs, halive, -⟩ := hs.alive
  obtain ⟨H, T, hholding⟩ := halive.stands
  obtain ⟨w', hrun⟩ := hholding.search_returns hspace key
  refine ⟨w', hrun, ?_, (readInvariant_spacious.search key w hspace).1 _ w' hrun⟩
  exact hs.of_noSteal ((noSteal_steps.search key).ok hrun) fun C rs hw => (hw.search hrun).2

theorem Serving.scan (hs : Serving R h M w l k) (hspace : Spacious w)
    (start stop : Option Bytes) :
    ∃ pairs w', BPlusTree.scan start stop w = .ok pairs w' ∧ Serving R h M w' l k ∧
      Spacious w' := by
  obtain ⟨C, rs, halive, -⟩ := hs.alive
  obtain ⟨H, T, hholding⟩ := halive.stands
  obtain ⟨w', hrun⟩ := hholding.scan_returns hspace start stop
  refine ⟨_, w', hrun, ?_, (readInvariant_spacious.scan start stop w hspace).1 _ w' hrun⟩
  exact hs.of_noSteal ((noSteal_steps.scan start stop).ok hrun) fun C rs hw => (hw.scan hrun).2

/-! ## Calls that return -/

/-- A `put` of a record that fits on a page, with a key within the cap. -/
def Call.Fits (R : Regime) : Call → Prop
  | .put key value => (calculateLeafRecordSize key value : ℤ) ≤ getMaxLeafRecordSize R.pageSize ∧
      key.length ≤ R.maxKey
  | _ => True

theorem Call.Fits.within (hfits : c.Fits R) : c.Within R := by
  cases c with
  | put key value => exact fun _ => hfits.2
  | _ => trivial

/-- A call takes three LSNs at most, and two page ids for each level and two more. -/
theorem Serving.run (hR : Sized R) (hfull : HalfFull R)
    (hs : Serving R h M w (l + 3) (k + 2 * (h + 2))) (hspace : Spacious w)
    (hsmall : (stored M).ncard < 4 * 3 ^ h) (hfits : c.Fits R) :
    ∃ answer w', c.run w = .ok answer w' ∧ Serving R h (c.after M) w' l k ∧ Spacious w' := by
  obtain ⟨C, rs, halive, -⟩ := hs.alive
  obtain ⟨H, T, hholding⟩ := halive.stands
  -- A reading call takes nothing, so what is left is more than enough.
  have hless : Serving R h M w l k := hs.mono (Nat.le_add_right l 3) (Nat.le_add_right k _)
  have hcheck : DB.checkIfOpened w = .ok () w := by
    simp [DB.checkIfOpened, run_bind, hs.isOpened]
  cases c with
  | put key value =>
      obtain ⟨hrecord, hkey⟩ := hfits
      obtain ⟨w', hrun, hs', hspace'⟩ :=
        hs.betweenCheckpoints hR (returning_put hR hfull hsmall hrecord hkey)
      rcases put_cases key value hs.isOpened hholding.quiet with ⟨hlarge, -⟩ | ⟨-, hput⟩
      · rw [hholding.pageSize] at hlarge
        exact absurd hlarge (not_lt.mpr hrecord)
      · exact ⟨.nothing, w', run_bind_ok (hput.trans hrun), hs', hspace'⟩
  | get key =>
      obtain ⟨w', hrun, hs', hspace'⟩ := hless.search hspace key
      have hget : DB.get (.bytes key) w = .ok (M key) w' := (run_bind_ok hcheck).trans hrun
      exact ⟨.value (M key), w', run_bind_ok hget, hs', hspace'⟩
  | delete key =>
      obtain ⟨w₁, hsearch, hs₁, hspace₁⟩ := hs.search hspace key
      have hdelete : DB.delete (.bytes key) w = _ := delete_eq hs.isOpened
      rw [run_bind_ok hsearch] at hdelete
      cases hkey : M key with
      | none =>
          have hsame : Function.update M key none = M := Function.update_eq_self_iff.mpr hkey.symm
          rw [hkey] at hdelete
          refine ⟨.deleted false, w₁, run_bind_ok hdelete, ?_, hspace₁⟩
          show Serving R h (Function.update M key none) w₁ l k
          rw [hsame]
          exact hs₁.mono (Nat.le_add_right l 3) (Nat.le_add_right k _)
      | some v =>
          -- A key that is there: the change and the two checkpoints around it take the three LSNs.
          have hfound : M key ≠ none := by simp [hkey]
          obtain ⟨w', hrun, hs', hspace'⟩ :=
            hs₁.betweenCheckpoints hR (returning_delete hR hfull hsmall hfound)
          rw [hkey] at hdelete
          have hrest : DB.delete (.bytes key) w = .ok true w' := hdelete.trans (run_bind_ok hrun)
          exact ⟨.deleted true, w', run_bind_ok hrest, hs', hspace'⟩
  | scan start stop =>
      obtain ⟨pairs, w', hrun, hs', hspace'⟩ := hless.scan hspace start stop
      have hscan : DB.scan (start.map .bytes) (stop.map .bytes) w = .ok pairs w' := by
        refine (run_bind_ok hcheck).trans ?_
        rw [ensureBound_bytes, ensureBound_bytes, pure_bind, pure_bind]
        exact hrun
      exact ⟨.pairs pairs, w', run_bind_ok hscan, hs', hspace'⟩
  | checkpoint =>
      obtain ⟨w', hrun, hs', hroomy⟩ := hs.checkpoint (l := l + 2) hR
      refine ⟨.nothing, w', run_bind_ok hrun, ?_, hroomy.spacious⟩
      exact hs'.mono (Nat.le_add_right l 2) (Nat.le_add_right k _)

/-- The record of a `put` is within the cap on records, and its key is short. -/
def Call.Accepted (P : ℕ) : Call → Prop
  | .put key value => (calculateLeafRecordSize key value : ℤ) ≤ getMaxLeafRecordSize P ∧
      key.length ≤ shortKeyLength P
  | _ => True

theorem Call.Accepted.fits (hP : 256 ≤ P) (haccepted : c.Accepted P) :
    c.Fits (fullRegime P hP) := by
  cases c with
  | put key value => exact haccepted
  | _ => trivial

end BPTreeDB.Runs
