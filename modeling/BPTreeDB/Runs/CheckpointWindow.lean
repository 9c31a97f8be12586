import BPTreeDB.Runs.PublishedCheckpoints
import BPTreeDB.Runs.TornCheckpoints

/-!
# Before the CHECKPOINT record

A checkpoint fsyncs the data pages before its record is durable.  A machine that stops in
between, and rolls every file back to its last fsync, leaves the new pages under the meta page
of the checkpoint before.  That does no harm where this meta page still describes the pages:
the root, the counter of page ids and the head of the freelist are as they were.  The log is
re-executed on pages that have its changes already, and gives the same map.  Where a page was
allocated or freed since the last checkpoint, or the root has moved, records are lost.
-/

namespace BPTreeDB.Runs

open Lib Eng Codec Lib.Program Lib.Transitions PageStore Engine DB WAL

variable {R : Regime} {P : ℕ} {M : KeyMap} {C : Content} {w w' : World} {disk disk' : Disk}
  {rs : List WALRecord} {config : Config} {power : Option ℕ} {lsn : ℕ} {e : Err}

/-! ## The condition -/

/-- The pages of the process under the meta page of the last checkpoint. -/
theorem StartKept.anchor {M₀ : KeyMap} {m m₀ : MetaPage} {C₀ : Content} {content : Bytes}
    (h : StartKept w) (halive : Alive R M C rs w) (hm : w.pager.metaPage = some m)
    (hanchor : Anchor R M₀ m₀ rs (dataContent w) C₀)
    (hpages : PagesOn content m.freelistHeadPageId C) (hmeta : metaBytes m₀ <+: content) :
    Anchor R M m₀ rs content C := by
  obtain ⟨H, T, hholding⟩ := halive.stands
  obtain ⟨m', m₁, hm', hstart, hroot, hnext, hhead⟩ := h
  obtain rfl : m = m' := Option.some.inj (hm.symm.trans hm')
  rw [startingMeta_eq hanchor hholding.quiet.data halive.anchored.loggedRecords] at hstart
  obtain rfl := Option.some.inj hstart
  obtain ⟨m', hm', hfields⟩ := halive.metaPage
  obtain rfl : m = m' := Option.some.inj (hm.symm.trans hm')
  have hsize : C.pageSize = C₀.pageSize :=
    hholding.pageSize.trans hanchor.map.pageSize.symm
  refine ⟨hanchor.encodable, hmeta, hanchor.log, hanchor.within, hanchor.lsn, ⟨?_, ?_, ?_⟩, ?_,
    halive.anchored.lsn ▸ halive.holdsMap⟩
  · rw [hanchor.fields.pageSize, hsize]
  · rw [← hroot, hfields.root]
  · rw [← hnext, hfields.next]
  · rwa [← hhead]

/-- What happens to a database: an event of its life, or a checkpoint that stops before its
record is durable, by the call `c` of a process or by a recovery. -/
inductive WindowEvent where
  | event (e : LifeEvent)
  | window (c : Call) (carried late : Bool)

/-- The key of a `put` is short. -/
def WindowEvent.Short (P : ℕ) : WindowEvent → Prop
  | .event e => e.Short P
  | .window (.put key _) _ _ => key.length ≤ shortKeyLength P
  | _ => True

/-- The event is no call that stops, and no checkpoint that has fsynced the data pages. -/
def WindowEvent.Early : WindowEvent → Prop
  | .event (.failed _) => False
  | .window _ _ late => late = false
  | _ => True

/-- The key of a `put` is within the cap of the regime. -/
def WindowEvent.Within (R : Regime) : WindowEvent → Prop
  | .event e => e.Within R
  | .window c _ _ => c.Within R

theorem WindowEvent.Short.within (hP : 256 ≤ P) {e : WindowEvent} (h : e.Short P) :
    e.Within (fullRegime P hP) := by
  cases e with
  | event e => exact LifeEvent.Short.within hP h
  | window c carried late =>
      cases c with
      | put key value => exact fun _ => h
      | _ => trivial

theorem WindowEvent.within_plain (e : WindowEvent) : e.Within (plainRegime P) := by
  cases e with
  | event e => exact e.within_plain
  | window c carried late => exact c.within_plain

/-- The map is not jammed. -/
def MapState.Free : MapState → Prop
  | .jammed _ => False
  | _ => True

/-- Where rebalancing does not get stuck no map is jammed, and none is without a change that
stops. -/
theorem MapStep.free {t t' : MapState} {e : LifeEvent} {s' : Site} (h : MapStep t e t')
    (hfree : t.Free) (hholds : LifeHolds R s' t')
    (hallowed : ¬ Jams R ∨ (WindowEvent.event e).Early) : t'.Free := by
  cases h with
  | jammed M c =>
      rcases hallowed with hjams | hearly
      · cases s' with
        | running w => exact hholds.elim
        | files disk => exact absurd hholds.1 hjams
      · exact hearly.elim
  | stillJammed M => exact hfree.elim
  | _ => trivial

end BPTreeDB.Runs
