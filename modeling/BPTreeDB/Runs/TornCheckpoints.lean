import BPTreeDB.Engine.Overwriting
import BPTreeDB.Runs.CheckpointState
import BPTreeDB.Runs.LogDiscipline
import BPTreeDB.Runs.MixedPages

/-!
# Checkpoints that are torn

A checkpoint writes its pages in place, before its record is durable.  A machine that stops in
between leaves a data file with some pages of the last checkpoint and some new ones, under the
old meta page.  `RecordsOnly` says when this does no harm: since the last checkpoint no page
was allocated, freed or moved, and only the records of leaves have changed.  Then the file
holds an ordered tree, with the old or the new records between any two separators, and the log
has every operation since the last checkpoint.  To re-execute them restores each key that they
touch, and the other keys have never changed.

The re-execution may move records differently than the process did before it was stopped.
Therefore it must not get stuck, and keys are short here.
-/

namespace BPTreeDB.Runs

open Lib Eng Codec Lib.Program Lib.Transitions PageStore Engine DB WAL

variable {R : Regime} {L H lsn : ℕ} {T : Tree H} {M M₀ N : KeyMap} {C C' C₀ D : Content}
  {w w' : World} {disk disk' : Disk} {r : WALRecord} {rs : List WALRecord} {m m₀ : MetaPage}
  {content content' : Bytes} {e : Err} {key : Bytes}

/-! ## Re-execution from other pages -/

/-- The record of a PUT is within the cap. -/
def RecordFits (R : Regime) : WALRecord → Prop
  | .put _ key value => (calculateLeafRecordSize key value : ℤ) ≤ getMaxLeafRecordSize R.pageSize
  | _ => True

/-- A record that could be re-executed fits. -/
theorem HoldsMap.fits (h : HoldsMap R L M C) (hrun : recordOnContent r C = some C') :
    RecordFits R r := by
  cases r with
  | put l key value =>
      obtain ⟨H, T, hresting, -⟩ := h.resting
      by_contra hlarge
      rw [recordOnContent, TreeCall.onContent,
        PageStore.insert_tooLarge hresting (lt_of_not_ge hlarge)] at hrun
      cases hrun
  | delete l key => trivial
  | checkpoint l root head next => trivial

/-- Where rebalancing does not get stuck, every record that fits can be re-executed. -/
theorem HoldsMap.recordOnContent (h : HoldsMap R L M C) (hjams : ¬ Jams R) (hlsn : r.lsn ≤ L)
    (hwithin : RecordWithin R r) (hfits : RecordFits R r) :
    ∃ C', Runs.recordOnContent r C = some C' ∧ HoldsMap R L (afterRecord M r) C' := by
  cases r with
  | put l key value => exact h.insert hjams hlsn hfits (hwithin hfits)
  | delete l key => exact h.delete hjams hlsn key
  | checkpoint l root head next => exact ⟨C, rfl, h⟩

/-- The meta page of the last checkpoint: the newer of the one in the data file and the newest
CHECKPOINT record of the log. -/
def startingMeta (disk : Disk) : Option MetaPage :=
  disk.data.bind fun file =>
    (decodeMetaPage file.content).toOption.map fun m => repairedMeta m disk.loggedRecords

/-- The root, the counter of page ids and the head of the freelist are those of the last
checkpoint. -/
def StartKept (w : World) : Prop :=
  ∃ m m₀, w.pager.metaPage = some m ∧ startingMeta w.disk = some m₀ ∧
    m.rootPageId = m₀.rootPageId ∧ m.nextPageId = m₀.nextPageId ∧
      m.freelistHeadPageId = m₀.freelistHeadPageId

/-- Since the last checkpoint only records of leaves have changed: the root, the counter of
page ids and the freelist are those of the checkpoint, and a dirty page differs from the page
in the data file in the records of a leaf at most. -/
structure RecordsOnly (w : World) : Prop where
  metaPage : StartKept w
  freelist : w.pager.dirtyFreelistPageIds = []
  pages : ∀ x cached, (x, cached) ∈ w.pool.cache → cached.isDirty = true → ∃ p q,
    filePage w x = some (.tree p) ∧ w.pool.objects[cached.page]? = some q ∧ SameShape p q

theorem startingMeta_eq (hanchor : Anchor R M₀ m₀ rs (dataContent w) C₀)
    (hdata : w.disk.data.isSome) (hrecords : w.disk.loggedRecords = rs) :
    startingMeta w.disk = some (repairedMeta m₀ rs) := by
  obtain ⟨file, hfile⟩ := Option.isSome_iff_exists.mp hdata
  have hcontent : dataContent w = file.content := by simp [dataContent, hfile]
  obtain ⟨tail, htail⟩ := hanchor.metaPage
  have hdecode : decodeMetaPage file.content = .ok m₀ := by
    rw [← hcontent, ← htail]
    exact decodeMetaPage_metaBytes hanchor.encodable tail
  unfold startingMeta
  rw [hfile, Option.bind_some, hdecode, hrecords]
  rfl

/-- A checkpoint in the state `w` stops behind its record, or only records have changed. -/
def Mild (w : World) : Prop := CheckpointTorn w → RecordsOnly w

def MaybeMild (w : World) : Prop := DB.shouldCheckpoint w = .ok true w → Mild w

def ChangeMild (change : Eng Unit) (w : World) : Prop :=
  MaybeMild w ∧ ∀ w₁ w₂, DB.maybeCheckpoint w = .ok () w₁ → change w₁ = .ok () w₂ → MaybeMild w₂

/-- The same for the checkpoints that a call takes. -/
def Call.Mild (w : World) : Call → Prop
  | .put key value => ChangeMild (DB.logAndInsert key value) w
  | .delete key => ∀ value w₁, BPlusTree.search key w = .ok (some value) w₁ →
      ChangeMild (DB.logAndDelete key) w₁
  | .checkpoint => Runs.Mild w
  | _ => True

section Mild

variable (hR : Sized R) (hjams : ¬ Jams R)

include hR hjams

end Mild

end BPTreeDB.Runs
