import BPTreeDB.Runs.Sessions

/-!
# What a checkpoint leaves

After a checkpoint that returned, nothing is dirty, the data file alone holds the tree and
the freelist of the process under the meta page of the process, and the log is one
CHECKPOINT record that says the same.  This holds in every run of sessions in which no
call raises and no handle is out of step.
-/

namespace BPTreeDB.Runs

open Lib Eng Codec Lib.Program PageStore Engine DB

variable {R : Regime} {C : Content} {M : KeyMap} {w w' : World} {m : MetaPage}

/-- The tree page of the data file under an id. -/
def fileTreePage (w : World) (x : ℕ) : Option Page :=
  match filePage w x with
  | some (.tree page) => some page
  | _ => none

/-- The freelist page of the data file under an id. -/
def fileFreelistPage (w : World) (x : ℕ) : Option FreelistPage :=
  match filePage w x with
  | some (.freelist page) => some page
  | _ => none

/-- The state of a process that holds the map `M`, right after a checkpoint. -/
structure Checkpointed (M : KeyMap) (w : World) (m : MetaPage) : Prop where
  cleanPages : ∀ e ∈ w.pool.cache, e.2.isDirty = false
  cleanFreelist : w.pager.dirtyFreelistPageIds = []
  metaPage : w.pager.metaPage = some m
  metaOnDisk : decodeMetaPage (readAt (dataContent w) 0 w.pager.pageSizeBytes) = .ok m
  /-- The pages reached in the file are those reached in memory, with the same contents. -/
  tree : ∀ x, (InTree (fileTreePage w) m.rootPageId x ↔ InTree (treePage w) m.rootPageId x) ∧
    (InTree (treePage w) m.rootPageId x →
      ∃ page, treePage w x = some page ∧ fileTreePage w x = some page)
  freelist : ∃ chain, ChainFrom (fun x page => freelistPage w x = some page)
      m.freelistHeadPageId chain ∧
    ChainFrom (fun x page => fileFreelistPage w x = some page) m.freelistHeadPageId chain
  records : ∃ (H : ℕ) (T : Tree H), Tree.id H T = m.rootPageId ∧ Shows (fileTreePage w) H T ∧
    Represents M (entriesOf (Tree.items H T))
  log : ∃ bytes, w.disk.wal.map (·.content) = some bytes ∧
    encodeWalRecord (.checkpoint m.lastCheckpointLsn m.rootPageId m.freelistHeadPageId
      m.nextPageId) = .ok bytes
  lsn : w.wal.currentLsn = m.lastCheckpointLsn

theorem fileTreePage_eq {page : Page} {x : ℕ}
    (h : OnDisk (dataContent w) w.pager.pageSizeBytes x (.tree page)) :
    fileTreePage w x = some page := by
  rw [fileTreePage, filePage_eq_some.mpr h]

theorem fileFreelistPage_eq {page : FreelistPage} {x : ℕ}
    (h : OnDisk (dataContent w) w.pager.pageSizeBytes x (.freelist page)) :
    fileFreelistPage w x = some page := by
  rw [fileFreelistPage, filePage_eq_some.mpr h]

/-- A checkpoint of a ready handle. -/
theorem Ready.checkpointed (hR : Sized R) (h : Ready R M C w)
    (hrun : DB.checkpoint w = .ok () w') : ∃ m, Checkpointed M w' m := by
  obtain ⟨m, hm, -⟩ := h.metaPage
  obtain ⟨hdone, hready⟩ := h.checkpoint hR hm hrun
  obtain ⟨H, T, hholding⟩ := hready.stands
  have hencodable := hdone.encodable
  have hq := hdone.quiet
  obtain ⟨power, content, cache, -, rfl, himage, hclean, -⟩ := hdone.eq
  set m' := checkpointMeta m (w.wal.currentLsn + 1) with hm'
  set w' := checkpointed w power content cache m' with hw'
  have hsize : w'.pager.pageSizeBytes = C.pageSize := hq.pageSize
  have hpages : PagesOn (dataContent w') m'.freelistHeadPageId C := himage.pagesOn
  have hfile : ∀ x page, C.pages x = some page → fileTreePage w' x = some page := by
    intro x page hpage
    refine fileTreePage_eq ?_
    rw [hsize]
    exact hpages.pages x page hpage
  have hshows : Shows (fileTreePage w') H T := by
    intro p hp
    obtain ⟨page, hpage, hstrip⟩ := hholding.inv.holds.stores p hp
    exact ⟨page, hfile _ _ hpage, hstrip.1⟩
  have hid : Tree.id H T = m'.rootPageId := by
    rw [himage.fields.root, hholding.inv.root]
  obtain ⟨m₁, hm₁, hfields, hchain⟩ := hholding.quiet.freelist
  obtain rfl : m' = m₁ := Option.some.inj hm₁
  refine ⟨m', hclean, rfl, rfl, ?_, fun x => ⟨?_, fun hx => ?_⟩, ⟨C.chain, hchain, ?_⟩,
    ⟨H, T, hid, hshows, hholding.records⟩, ⟨_, rfl, encodeWalRecord_eq_ok hencodable⟩, rfl⟩
  · refine decodeMeta_of_prefix ?_ himage.encodable himage.metaPage
    rw [hsize, hholding.pageSize]
    exact hR.large
  · rw [← hid, hshows.inTree_iff, hholding.shows.inTree_iff]
  · rw [himage.fields.root] at hx
    obtain ⟨page, hpage, hmemory⟩ := Holding.page_of_inTree hholding hx
    exact ⟨page, hmemory, hfile x page hpage⟩
  · refine hpages.chain.congr fun x _ page hpage => fileFreelistPage_eq ?_
    rw [hsize]
    exact hpage

/-- In every run of sessions in which no call raises and no handle is out of step, a
checkpoint that returns leaves the map in the data file and one record in the log. -/
theorem checkpoint_postcondition (configs : ℕ → Config) (sessions : List HandleSession)
    (last : HandleSession) (answers : List (List Answer)) (w w' : World)
    (hconfigs : ∀ i, minPageSize ≤ (configs i).pageSizeBytes)
    (hstep : InStep (fun _ => none) ∅ ∅ (sessions ++ [last]))
    (h : Reaches configs sessions last answers w) (hrun : DB.checkpoint w = .ok () w') :
    ∃ m, Checkpointed (sessionsAfter (fun _ => none) (sessions ++ [last])) w' m := by
  obtain ⟨-, P, C, hR, hready⟩ := h.ready hconfigs hstep
  exact hready.checkpointed hR hrun

/-- The state after a checkpoint passes a test. -/
def afterCheckpoint (test : World → Bool) (w : World) : Bool :=
  match DB.checkpoint w with
  | .ok _ w' => test w'
  | .error _ _ => false

theorem exists_of_afterCheckpoint {test : World → Bool} (h : afterCheckpoint test w = true) :
    ∃ w', DB.checkpoint w = .ok () w' ∧ test w' = true := by
  rw [afterCheckpoint] at h
  cases hrun : DB.checkpoint w with
  | ok _ w' =>
      rw [hrun] at h
      exact ⟨w', rfl, h⟩
  | error e w' =>
      rw [hrun] at h
      cases h

set_option maxRecDepth 100000 in
theorem checkpoint_postcondition_restart : ∃ answers w w',
    Reaches plainConfigs [splitSession] readSession answers w ∧ DB.checkpoint w = .ok () w' ∧
      ∃ m, Checkpointed (sessionsAfter (fun _ => none) [splitSession, readSession]) w' m := by
  obtain ⟨answers, w, h, htest⟩ := exists_of_reachesWith plainConfigs [splitSession] readSession
    (fun _ w => afterCheckpoint (fun _ => true) w) (by decide +kernel)
  obtain ⟨w', hrun, -⟩ := exists_of_afterCheckpoint htest
  exact ⟨answers, w, w', h, hrun, checkpoint_postcondition plainConfigs [splitSession] readSession
    answers w w' minPageSize_le_plainConfigs inStep_restart h hrun⟩

/-- The root in memory is not the root in the file. -/
def rootsDiffer (w : World) : Bool :=
  decide (w.pager.metaPage.map (·.rootPageId) = some 3 ∧ treePage w 3 ≠ fileTreePage w 3)

set_option maxRecDepth 100000 in
/-- A handle that is opened again after another one has changed the map checkpoints a tree
that is not the one in the file. -/
theorem checkpoint_of_stale_pages : ¬ ∀ (configs : ℕ → Config) (sessions : List HandleSession)
    (last : HandleSession) (answers : List (List Answer)) (w w' : World),
    (∀ i, minPageSize ≤ (configs i).pageSizeBytes) → Reaches configs sessions last answers w →
      DB.checkpoint w = .ok () w' →
      ∃ m, Checkpointed (sessionsAfter (fun _ => none) (sessions ++ [last])) w' m := by
  intro hall
  obtain ⟨answers, w, h, htest⟩ := exists_of_reachesWith plainConfigs fillSessions staleSession
    (fun _ w => afterCheckpoint rootsDiffer w) (by decide +kernel)
  obtain ⟨w', hrun, hdiffer⟩ := exists_of_afterCheckpoint htest
  obtain ⟨m, hm⟩ := hall plainConfigs _ _ answers w w' minPageSize_le_plainConfigs h hrun
  obtain ⟨hroot, hne⟩ := of_decide_eq_true hdiffer
  rw [hm.metaPage, Option.map_some, Option.some.injEq] at hroot
  have hinTree : InTree (treePage w') m.rootPageId 3 := by
    rw [hroot]
    exact .root
  obtain ⟨page, hmemory, hfile⟩ := (hm.tree 3).2 hinTree
  exact hne (hmemory.trans hfile.symm)

end BPTreeDB.Runs
