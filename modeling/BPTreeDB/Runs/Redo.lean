import BPTreeDB.Engine.Repair
import BPTreeDB.Runs.TreeRuns

/-!
# Re-executing logged operations

A PUT or DELETE record stands for an operation of the tree.  What it does is said twice:
`afterRecord` is its effect on the map, and `recordOnContent` its effect on the pages of an
ideal page store, which has neither cache nor file.

A recovery re-executes the records behind the newest checkpoint on a pool that does not
evict.  Such a replay leaves the lockstep with the ideal page store nowhere: it returns where
`redone` says that the ideal store can execute the records, and then holds the pages and the
map that follow from them.  Since the page store is deterministic, records whose operations
returned when they were logged can be re-executed, whatever the pool had cached then.
-/

namespace BPTreeDB.Runs

open Lib Eng Codec Lib.Program PageStore Engine DB WAL

variable {R : Regime} {L H lsn : ℕ} {T : Tree H} {M : KeyMap} {C C' : Content} {w w' : World}
  {r : WALRecord} {rs : List WALRecord} {key value : Bytes}

/-! ## The effect of a record -/

/-- The map after a record has been re-applied. -/
def afterRecord (M : KeyMap) : WALRecord → KeyMap
  | .put _ key value => Function.update M key (some value)
  | .delete _ key => Function.update M key none
  | .checkpoint .. => M

/-- The map after the records behind `lsn` have been re-applied. -/
def restored (lsn : ℕ) (M : KeyMap) : List WALRecord → KeyMap
  | [] => M
  | r :: rs => restored lsn (if r.lsn ≤ lsn then M else afterRecord M r) rs

/-- The pages after a record has been re-applied, if an ideal page store can do so. -/
def recordOnContent : WALRecord → Content → Option Content
  | .put lsn key value, C => (TreeCall.insert key value lsn).onContent C
  | .delete lsn key, C => (TreeCall.delete key lsn).onContent C
  | .checkpoint .., C => some C

/-- The pages after one record of a replay behind `lsn`. -/
def redoneOne (lsn : ℕ) (C : Content) (r : WALRecord) : Option Content :=
  if r.lsn ≤ lsn then some C else recordOnContent r C

/-- The pages after the records behind `lsn` have been re-applied. -/
def redone (lsn : ℕ) (C : Content) : List WALRecord → Option Content
  | [] => some C
  | r :: rs => (redoneOne lsn C r).bind fun C' => redone lsn C' rs

/-- The key of a record is within the cap of the regime. -/
def RecordWithin (R : Regime) : WALRecord → Prop
  | .put lsn key value => (TreeCall.insert key value lsn).Within R
  | _ => True

theorem restored_append (lsn : ℕ) (rs : List WALRecord) (r : WALRecord) :
    ∀ {M : KeyMap}, restored lsn M (rs ++ [r]) =
      if r.lsn ≤ lsn then restored lsn M rs else afterRecord (restored lsn M rs) r := by
  induction rs with
  | nil => exact fun {M} => rfl
  | cons q rs ih => exact fun {M} => ih

theorem restored_skip (hrs : ∀ r ∈ rs, r.lsn ≤ lsn) : restored lsn M rs = M := by
  induction rs with
  | nil => rfl
  | cons r rs ih =>
      rw [restored, if_pos (hrs r (List.mem_cons_self ..))]
      exact ih fun q hq => hrs q (List.mem_cons_of_mem _ hq)

theorem redone_append (lsn : ℕ) (rs : List WALRecord) (r : WALRecord) :
    ∀ {C : Content}, redone lsn C (rs ++ [r]) =
      (redone lsn C rs).bind fun C' => redoneOne lsn C' r := by
  induction rs with
  | nil =>
      intro C
      show (redoneOne lsn C r).bind some = redoneOne lsn C r
      exact Option.bind_fun_some _
  | cons q rs ih =>
      intro C
      rw [List.cons_append, redone, redone, Option.bind_assoc]
      congr 1
      funext C'
      exact ih

theorem redone_skip (hrs : ∀ r ∈ rs, r.lsn ≤ lsn) : redone lsn C rs = some C := by
  induction rs with
  | nil => rfl
  | cons r rs ih =>
      rw [redone, redoneOne, if_pos (hrs r (List.mem_cons_self ..)), Option.bind_some]
      exact ih fun q hq => hrs q (List.mem_cons_of_mem _ hq)

/-! ## Inserts and deletes that return -/

/-- An operation of the page store that returned, with nothing pending, and whose pages hold
the map `M`. -/
def Applied {α : Type} (R : Regime) (L : ℕ) (M : KeyMap) (w : World) :
    EStateM.Result Fault Store α → Prop
  | .ok _ S => S.pending = [] ∧ ∃ (H : ℕ) (T : Tree H), Holding R L M S.toContent T w
  | .error _ _ => False

/-- An insert that returned did to the map and to the pages what its record stands for. -/
theorem insert_applied (h : Holding R L M C T w) (hlsn : lsn ≤ L)
    (hwithin : (TreeCall.insert key value lsn).Within R)
    (hrun : BPlusTree.insert key value lsn w = .ok () w') :
    Applied R L (Function.update M key (some value)) w'
      (PageStore.insert key value lsn (idealStore C)) := by
  have hfits : (calculateLeafRecordSize key value : ℤ) ≤ getMaxLeafRecordSize R.pageSize := by
    by_contra hlarge
    rw [insert_tooLarge h.quiet key value lsn (by
      rw [h.pageSize]
      exact lt_of_not_ge hlarge)] at hrun
    cases hrun
  rcases h.insert (looseMode_allows (C := C)) (touchBound_le h) hfits (hwithin hfits) hlsn with
    ⟨w₁, S, hengine, hstore, hdone⟩ | ⟨e, w₁, hengine, -⟩
  · rw [hengine] at hrun
    cases hrun
    rw [idealStore, hstore]
    exact ⟨hdone.pending, hdone.holding⟩
  · rw [hengine] at hrun
    cases hrun

/-- The same for a delete. -/
theorem delete_applied (h : Holding R L M C T w) (hlsn : lsn ≤ L) {deleted : Bool}
    (hrun : BPlusTree.delete key lsn w = .ok deleted w') :
    deleted = (M key).isSome ∧
      Applied R L (Function.update M key none) w' (PageStore.delete key lsn (idealStore C)) := by
  rcases h.delete (looseMode_allows (C := C)) (touchBound_le h) key hlsn with
    ⟨w₁, S, hengine, hstore, hdone⟩ | ⟨e, w₁, hengine, -⟩
  · rw [hengine] at hrun
    cases hrun
    rw [idealStore, hstore]
    exact ⟨rfl, hdone.pending, hdone.holding⟩
  · rw [hengine] at hrun
    cases hrun

/-- The pages after an operation that returned. -/
theorem Applied.content {α : Type} {r : EStateM.Result Fault Store α} (h : Applied R L M w r) :
    ∃ C', contentOf r = some C' ∧ ∃ (H : ℕ) (T : Tree H), Holding R L M C' T w := by
  cases r with
  | ok a S => exact ⟨S.toContent, rfl, h.2⟩
  | error e S => exact h.elim

/-! ## Pools that do not evict -/

/-- The pool does not evict, and the machine keeps its power. -/
structure Unhurried (w : World) : Prop where
  eviction : w.pool.evictionEnabled = false
  power : w.power = none

theorem Unhurried.of_noSteal (h : Unhurried w) (hsteal : NoSteal w w') : Unhurried w' :=
  ⟨(congrArg Frozen.evictionEnabled hsteal.frozen).trans h.eviction, hsteal.power h.power⟩

theorem Unhurried.allows (h : Unhurried w) (n : ℕ) : tightMode.Allows n C w := by
  refine ⟨fun _ henabled => ?_, fun _ => h.power, fun _ _ _ _ => trivial, fun _ h => by cases h⟩
  rw [h.eviction] at henabled
  cases henabled

/-- What the ideal page store returned for a call. -/
theorem contentOf_eq_some {α : Type} {result : EStateM.Result Fault Store α}
    (h : contentOf result = some C) : ∃ a S, result = .ok a S ∧ S.toContent = C := by
  cases result with
  | ok a S =>
      cases h
      exact ⟨a, S, rfl, rfl⟩
  | error e S => cases h

/-- Without eviction an insert returns where the ideal page store does. -/
theorem insert_returns (h : Holding R L M C T w) (hslow : Unhurried w)
    (hstore : (TreeCall.insert key value lsn).onContent C = some C') :
    ∃ w', BPlusTree.insert key value lsn w = .ok () w' := by
  obtain ⟨⟨⟩, S, hrun, -⟩ := contentOf_eq_some hstore
  have hlock := lockstep_insert key value lsn (h.quiet.sim (hslow.allows (3 * C.next + 2)))
  obtain ⟨⟨⟩, w', hengine, -⟩ := returns_of_lockstep hlock tightMode_not_escape hrun
  exact ⟨w', hengine⟩

theorem delete_returns (h : Holding R L M C T w) (hslow : Unhurried w)
    (hstore : (TreeCall.delete key lsn).onContent C = some C') :
    ∃ deleted w', BPlusTree.delete key lsn w = .ok deleted w' := by
  obtain ⟨_, S, hrun, -⟩ := contentOf_eq_some hstore
  have hlock := lockstep_delete key lsn (h.quiet.sim (hslow.allows (3 * C.next + 2)))
  obtain ⟨deleted, w', hengine, -⟩ := returns_of_lockstep hlock tightMode_not_escape hrun
  exact ⟨deleted, w', hengine⟩

/-! ## One record of a replay -/

/-- A record that was re-applied had its effect, or was skipped. -/
theorem applyWalRecord_effect (h : Holding R L M C T w) (hlsn : r.lsn ≤ L)
    (hwithin : RecordWithin R r) (hrun : DB.applyWalRecord r w = .ok () w') :
    ∃ C', redoneOne w.recoveryLastCheckpointLsn C r = some C' ∧
      ∃ (H' : ℕ) (T' : Tree H'), Holding R L
        (if r.lsn ≤ w.recoveryLastCheckpointLsn then M else afterRecord M r) C' T' w' := by
  unfold redoneOne
  by_cases hskip : r.lsn ≤ w.recoveryLastCheckpointLsn
  · rw [applyWalRecord_skip hskip] at hrun
    cases hrun
    rw [if_pos hskip, if_pos hskip]
    exact ⟨C, rfl, H, T, h⟩
  · rw [if_neg hskip, if_neg hskip]
    unfold DB.applyWalRecord at hrun
    rw [run_bind_ok (run_get w), if_neg hskip] at hrun
    cases r with
    | put lsn key value => exact (insert_applied h hlsn hwithin hrun).content
    | delete lsn key =>
        obtain ⟨deleted, w₁, hdelete, hpure⟩ := bind_eq_ok.mp hrun
        cases hpure
        exact (delete_applied h hlsn hdelete).2.content
    | checkpoint lsn root head next =>
        cases hrun
        exact ⟨C, rfl, H, T, h⟩

/-- Without eviction a record can be re-applied where the ideal page store can execute it. -/
theorem applyWalRecord_returns (h : Holding R L M C T w) (hslow : Unhurried w)
    (hstore : redoneOne w.recoveryLastCheckpointLsn C r = some C') :
    ∃ w', DB.applyWalRecord r w = .ok () w' := by
  unfold redoneOne at hstore
  by_cases hskip : r.lsn ≤ w.recoveryLastCheckpointLsn
  · exact ⟨w, applyWalRecord_skip hskip⟩
  · rw [if_neg hskip] at hstore
    unfold DB.applyWalRecord
    rw [run_bind_ok (run_get w), if_neg hskip]
    cases r with
    | put lsn key value => exact insert_returns h hslow hstore
    | delete lsn key =>
        obtain ⟨deleted, w', hdelete⟩ := delete_returns h hslow hstore
        exact ⟨w', run_bind_ok hdelete⟩
    | checkpoint lsn root head next => exact ⟨w, rfl⟩

/-! ## Whole replays -/

theorem holding_withLsn (h : Holding R L M C T w) (lsn : ℕ) :
    Holding R L M C T (withLsn w lsn) := by
  refine h.of_quiet (h.quiet.congr ?_ ?_ ?_)
  all_goals rfl

/-- A replay that returned has restored the map, and has the pages of the ideal replay. -/
theorem replayAll_effect (rs : List WALRecord) : ∀ {M : KeyMap} {C : Content} {H : ℕ} {T : Tree H}
    {w : World}, Holding R L M C T w → (∀ r ∈ rs, r.lsn ≤ L ∧ RecordWithin R r) →
      replayAll DB.applyWalRecord rs w = .ok () w' →
      ∃ C', redone w.recoveryLastCheckpointLsn C rs = some C' ∧ ∃ (H' : ℕ) (T' : Tree H'),
        Holding R L (restored w.recoveryLastCheckpointLsn M rs) C' T' w' := by
  induction rs with
  | nil =>
      intro M C H T w h _ hrun
      cases hrun
      exact ⟨C, rfl, H, T, h⟩
  | cons r rs ih =>
      intro M C H T w h hrs hrun
      rw [replayAll_cons] at hrun
      obtain ⟨_, w₁, happly, hrest⟩ := bind_eq_ok.mp hrun
      obtain ⟨hlsn, hwithin⟩ := hrs r (List.mem_cons_self ..)
      obtain ⟨C₁, hone, H₁, T₁, h₁⟩ :=
        applyWalRecord_effect (holding_withLsn h r.lsn) hlsn hwithin happly
      have hsteal := (noSteal_steps.applyWalRecord r).ok happly
      have hrecovery : w₁.recoveryLastCheckpointLsn = w.recoveryLastCheckpointLsn :=
        congrArg Frozen.recoveryLastCheckpointLsn hsteal.frozen
      obtain ⟨C', hall, H', T', h'⟩ := ih h₁ (fun q hq => hrs q (List.mem_cons_of_mem _ hq)) hrest
      rw [hrecovery] at hall h'
      refine ⟨C', ?_, H', T', h'⟩
      show (redoneOne w.recoveryLastCheckpointLsn C r).bind _ = _
      rw [show redoneOne w.recoveryLastCheckpointLsn C r = some C₁ from hone, Option.bind_some]
      exact hall

/-- A replay on a pool that does not evict returns where the ideal replay does. -/
theorem replayAll_returns (rs : List WALRecord) : ∀ {M : KeyMap} {C : Content} {H : ℕ} {T : Tree H}
    {w : World}, Holding R L M C T w → Unhurried w → (∀ r ∈ rs, r.lsn ≤ L ∧ RecordWithin R r) →
      redone w.recoveryLastCheckpointLsn C rs = some C' →
      ∃ w', replayAll DB.applyWalRecord rs w = .ok () w' ∧ Unhurried w' := by
  induction rs with
  | nil => exact fun {M C H T w} _ hslow _ _ => ⟨w, rfl, hslow⟩
  | cons r rs ih =>
      intro M C H T w h hslow hrs hstore
      obtain ⟨hlsn, hwithin⟩ := hrs r (List.mem_cons_self ..)
      obtain ⟨C₁, hone, hrest⟩ := Option.bind_eq_some_iff.mp hstore
      have h₀ := holding_withLsn h r.lsn
      obtain ⟨w₁, happly⟩ := applyWalRecord_returns h₀
        (⟨hslow.eviction, hslow.power⟩ : Unhurried (withLsn w r.lsn)) hone
      obtain ⟨C₂, hone', H₁, T₁, h₁⟩ := applyWalRecord_effect h₀ hlsn hwithin happly
      obtain rfl : C₁ = C₂ := Option.some.inj (hone.symm.trans hone')
      have hsteal := (noSteal_steps.applyWalRecord r).ok happly
      have hslow₁ : Unhurried w₁ := by
        refine Unhurried.of_noSteal ?_ hsteal
        exact ⟨hslow.eviction, hslow.power⟩
      have hrecovery : w₁.recoveryLastCheckpointLsn = w.recoveryLastCheckpointLsn :=
        congrArg Frozen.recoveryLastCheckpointLsn hsteal.frozen
      rw [← hrecovery] at hrest
      obtain ⟨w', hw', hslow'⟩ :=
        ih h₁ hslow₁ (fun q hq => hrs q (List.mem_cons_of_mem _ hq)) hrest
      refine ⟨w', ?_, hslow'⟩
      rw [replayAll_cons, run_bind_ok happly]
      exact hw'

/-- The LSN counter after a replay. -/
theorem replayAll_currentLsn (rs : List WALRecord) : ∀ {w : World},
    replayAll DB.applyWalRecord rs w = .ok () w' →
      w'.wal.currentLsn = if rs = [] then w.wal.currentLsn else lastLsn rs := by
  induction rs with
  | nil =>
      intro w hrun
      cases hrun
      rfl
  | cons r rs ih =>
      intro w hrun
      rw [replayAll_cons] at hrun
      obtain ⟨_, w₁, happly, hrest⟩ := bind_eq_ok.mp hrun
      have hsteal := (noSteal_steps.applyWalRecord r).ok happly
      have hlsn : w₁.wal.currentLsn = r.lsn := congrArg (fun f => f.wal.currentLsn) hsteal.frozen
      rw [ih hrest, hlsn, if_neg (List.cons_ne_nil r rs)]
      cases rs with
      | nil => rfl
      | cons q rs => rw [if_neg (List.cons_ne_nil q rs), lastLsn, lastLsn, List.getLast?_cons_cons]

end BPTreeDB.Runs
