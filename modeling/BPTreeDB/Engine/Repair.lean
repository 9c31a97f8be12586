import BPTreeDB.Engine.Recovery
import BPTreeDB.Model.Crash

/-!
# The meta page that a recovery starts from

`repairedMeta m rs` is the meta page `m` of the data file or the newest CHECKPOINT record of
the log, whichever is newer.  An operation that is logged does not change it, and a
CHECKPOINT record that is logged takes its place.
-/

namespace BPTreeDB.Engine

open Lib Eng Codec Lib.Program PageStore WAL

variable {r : WALRecord} {rs : List WALRecord} {m : MetaPage} {n lsn root head next : ℕ}
  {latest : Option (ℕ × ℕ × ℕ × ℕ)}

theorem positioned_append (position : ℕ) (rs : List WALRecord) (r : WALRecord) :
    positioned position (rs ++ [r]) = positioned position rs ++
      [(r, position + (logBytes rs).length + (recordBytes r).length)] := by
  induction rs generalizing position with
  | nil => simp [positioned]
  | cons q rs ih =>
      rw [List.cons_append, positioned, ih, positioned, logBytes_cons, List.length_append,
        List.cons_append]
      congr 4
      omega

/-- A record that is a PUT or a DELETE. -/
def IsOperation : WALRecord → Prop
  | .checkpoint .. => False
  | _ => True

theorem checkpoint_or_operation (r : WALRecord) :
    (∃ lsn root head next, r = .checkpoint lsn root head next) ∨ IsOperation r := by
  cases r with
  | checkpoint lsn root head next => exact .inl ⟨lsn, root, head, next, rfl⟩
  | put lsn key value => exact .inr trivial
  | delete lsn key => exact .inr trivial

/-- The newer of a CHECKPOINT record and one found before. -/
def newer (lsn root head next : ℕ) : Option (ℕ × ℕ × ℕ × ℕ) → Option (ℕ × ℕ × ℕ × ℕ)
  | none => some (lsn, root, head, next)
  | some latest => if latest.1 < lsn then some (lsn, root, head, next) else some latest

theorem latestCheckpoint_checkpoint (p : ℕ) (ps : List (WALRecord × ℕ)) :
    DB.latestCheckpoint ((.checkpoint lsn root head next, p) :: ps) latest =
      DB.latestCheckpoint ps (newer lsn root head next latest) := by
  cases latest with
  | none => rfl
  | some latest => rfl

theorem latestCheckpoint_operation (hr : IsOperation r) (p : ℕ) (ps : List (WALRecord × ℕ)) :
    DB.latestCheckpoint ((r, p) :: ps) latest = DB.latestCheckpoint ps latest := by
  cases r with
  | put lsn key value => cases latest <;> rfl
  | delete lsn key => cases latest <;> rfl
  | checkpoint lsn root head next => exact hr.elim

theorem latestCheckpoint_append (ps qs : List (WALRecord × ℕ)) :
    ∀ {latest : Option (ℕ × ℕ × ℕ × ℕ)}, DB.latestCheckpoint (ps ++ qs) latest =
      DB.latestCheckpoint qs (DB.latestCheckpoint ps latest) := by
  induction ps with
  | nil => exact fun {_} => rfl
  | cons entry ps ih =>
      intro latest
      obtain ⟨r, p⟩ := entry
      obtain ⟨lsn, root, head, next, rfl⟩ | hr := checkpoint_or_operation r
      · rw [List.cons_append, latestCheckpoint_checkpoint, latestCheckpoint_checkpoint, ih]
      · rw [List.cons_append, latestCheckpoint_operation hr, latestCheckpoint_operation hr, ih]

/-- The newest CHECKPOINT record is one of the records, or the one found before. -/
theorem latestCheckpoint_lt {bound : ℕ} (rs : List WALRecord) (hrs : ∀ r ∈ rs, r.lsn < bound) :
    ∀ {position : ℕ} {latest : Option (ℕ × ℕ × ℕ × ℕ)}, (∀ l, latest = some l → l.1 < bound) →
      ∀ l, DB.latestCheckpoint (positioned position rs) latest = some l → l.1 < bound := by
  induction rs with
  | nil => exact fun {_ _} hlatest l hl => hlatest l hl
  | cons r rs ih =>
      intro position latest hlatest
      have hrest : ∀ q ∈ rs, q.lsn < bound := fun q hq => hrs q (List.mem_cons_of_mem _ hq)
      have hlsn := hrs r (List.mem_cons_self ..)
      rw [positioned]
      obtain ⟨lsn, root, head, next, rfl⟩ | hr := checkpoint_or_operation r
      · rw [latestCheckpoint_checkpoint]
        refine ih hrest fun l hl => ?_
        unfold newer at hl
        split at hl
        · cases hl
          exact hlsn
        · split at hl
          · cases hl
            exact hlsn
          · exact hlatest l hl
      · rw [latestCheckpoint_operation hr]
        exact ih hrest hlatest

/-! ## The repaired meta page -/

/-- An operation that is logged does not move the starting point. -/
theorem repairedMeta_append (hr : IsOperation r) :
    repairedMeta m (rs ++ [r]) = repairedMeta m rs := by
  unfold repairedMeta newestMeta
  rw [positioned_append, latestCheckpoint_append, latestCheckpoint_operation hr]
  rfl

/-- A CHECKPOINT record that is logged is the new starting point. -/
theorem repairedMeta_checkpoint (hrs : ∀ r ∈ rs, r.lsn < lsn) (hm : m.lastCheckpointLsn < lsn) :
    repairedMeta m (rs ++ [.checkpoint lsn root head next]) =
      { m with rootPageId := root, freelistHeadPageId := head, nextPageId := next,
               lastCheckpointLsn := lsn } := by
  have hlatest : DB.latestCheckpoint (positioned 0 (rs ++ [.checkpoint lsn root head next])) none =
      some (lsn, root, head, next) := by
    rw [positioned_append, latestCheckpoint_append, latestCheckpoint_checkpoint]
    show newer lsn root head next _ = _
    have hbound : ∀ l, DB.latestCheckpoint (positioned 0 rs) none = some l → l.1 < lsn :=
      latestCheckpoint_lt rs hrs (by simp)
    cases hprevious : DB.latestCheckpoint (positioned 0 rs) none with
    | none => rfl
    | some l =>
        rw [newer, if_pos (hbound l hprevious)]
  unfold repairedMeta newestMeta
  rw [hlatest]
  exact if_neg (by omega)

/-- A meta page that is at least as new as all records stays. -/
theorem repairedMeta_eq (hrs : ∀ r ∈ rs, r.lsn ≤ m.lastCheckpointLsn) : repairedMeta m rs = m := by
  have hbound : ∀ l, DB.latestCheckpoint (positioned 0 rs) none = some l →
      l.1 < m.lastCheckpointLsn + 1 :=
    latestCheckpoint_lt rs (fun r hr => Nat.lt_succ_of_le (hrs r hr)) (by simp)
  unfold repairedMeta newestMeta
  cases hlatest : DB.latestCheckpoint (positioned 0 rs) none with
  | none => rfl
  | some l =>
      obtain ⟨lsn, root, head, next⟩ := l
      exact if_pos (Nat.le_of_lt_succ (hbound _ hlatest))

@[simp] theorem repairedMeta_pageSizeBytes :
    (repairedMeta m rs).pageSizeBytes = m.pageSizeBytes := by
  unfold repairedMeta newestMeta
  split
  · rfl
  · split <;> rfl

/-- The repair never goes back. -/
theorem le_repairedMeta : m.lastCheckpointLsn ≤ (repairedMeta m rs).lastCheckpointLsn := by
  unfold repairedMeta newestMeta
  split
  · exact le_rfl
  · split
    · exact le_rfl
    · exact Nat.le_of_lt (not_le.mp ‹_›)

/-! ## Continuing a log -/

theorem readable_nil : Readable [] := ⟨by simp, 0, trivial⟩

/-- The records of a log have LSNs up to the last one. -/
theorem Readable.lsn_le (h : Readable rs) (hr : r ∈ rs) : r.lsn ≤ lastLsn rs := by
  obtain ⟨base, hnumbered⟩ := h.numbered
  have hlast := lastLsn_eq hnumbered (List.ne_nil_of_mem hr)
  have := (hnumbered.lsn_mem hr).2
  omega

theorem lastLsn_append (rs : List WALRecord) (r : WALRecord) : lastLsn (rs ++ [r]) = r.lsn := by
  rw [lastLsn, List.getLast?_concat]
  rfl

/-- A log can be continued with the next LSN. -/
theorem Readable.append (h : Readable rs) (hencodable : WalEncodable r)
    (hlsn : r.lsn = lastLsn rs + 1) : Readable (rs ++ [r]) := by
  refine ⟨fun q hq => ?_, ?_⟩
  · rcases List.mem_append.mp hq with hq | hq
    · exact h.encodable q hq
    · rw [List.mem_singleton.mp hq]
      exact hencodable
  · by_cases hrs : rs = []
    · subst hrs
      exact ⟨0, hlsn, trivial⟩
    · obtain ⟨base, hnumbered⟩ := h.numbered
      have hlast := lastLsn_eq hnumbered hrs
      exact ⟨base, numbered_append.mpr ⟨hnumbered, by omega, trivial⟩⟩

end BPTreeDB.Engine
