import BPTreeDB.Runs.Recovering

/-!
# The pages that a replay brings into the pool

A replay runs on a pool that does not evict, so a page that a record touches stays there
until it is freed.  `residents` follows the pages of such a pool over the records of a log, on
the pages of an ideal page store: it has no pool, and knows nothing of capacities or of the
order in which pages were used.
-/

namespace BPTreeDB.Runs

open Lib Eng Codec Lib.Program PageStore Engine DB WAL

variable {R : Regime} {L H lsn : ℕ} {T : Tree H} {M : KeyMap} {C C' : Content} {w w' : World}
  {r : WALRecord} {rs : List WALRecord} {ids : Finset ℕ}

/-! ## The pages of the pool -/

/-- The ids of the cached pages. -/
def cachedIds (w : World) : Finset ℕ := (w.pool.cache.map Prod.fst).toFinset

theorem mem_cachedIds {x : ℕ} : x ∈ cachedIds w ↔ x ∈ w.pool.cache.map Prod.fst :=
  List.mem_toFinset

/-- Every cached page counts once. -/
theorem card_cachedIds (hq : Quiet w C) : (cachedIds w).card = w.pool.cache.length := by
  rw [cachedIds, List.toFinset_card_of_nodup hq.pool.nodup, List.length_map]

/-! ## The pages of the store -/

/-- A record on the page store. -/
def applyRecord : WALRecord → StoreM Unit
  | .put lsn key value => PageStore.insert key value lsn
  | .delete lsn key => do let _ ← PageStore.delete key lsn
  | .checkpoint .. => pure ()

/-- The pages that were there and those that the operation touched, less the freed ones. -/
def stillInUse (ids : Finset ℕ) (S : Store) : Finset ℕ :=
  (ids ∪ S.touched.toFinset).filter fun x => (S.pages x).isSome

/-- The pages in a pool that does not evict and that held `ids`, after the records behind
`lsn` have been re-applied to the pages `C`; or why re-applying them fails. -/
def residents (lsn : ℕ) : List WALRecord → Content → Finset ℕ → Except Fault (Finset ℕ)
  | [], _, ids => .ok ids
  | r :: rs, C, ids =>
      if r.lsn ≤ lsn then residents lsn rs C ids
      else
        match applyRecord r (idealStore C) with
        | .ok _ S =>
            if S.pending = [] then residents lsn rs S.toContent (stillInUse ids S)
            else .error .undisciplined
        | .error e _ => .error e

/-! ## One record -/

/-- The mode of a pool that does not evict and began with the pages `ids`. -/
def replayMode (ids : Finset ℕ) : Mode := ⟨True, False, fun _ _ => True, some ids⟩

theorem replayMode_not_escape (e : Err) : ¬ (replayMode ids).escape e := by
  simp [Mode.escape, replayMode]

theorem Unhurried.allows_replay (h : Unhurried w) (n : ℕ) :
    (replayMode (cachedIds w)).Allows n C w := by
  refine ⟨fun _ henabled => ?_, fun _ => h.power, fun _ _ _ _ => trivial, fun ids hids => ?_⟩
  · rw [h.eviction] at henabled
    cases henabled
  · obtain rfl := Option.mem_some_iff.mp hids
    exact ⟨h.eviction, fun x => mem_cachedIds.symm⟩

theorem lockstep_applyRecord {mode : Mode} {S : Store} (r : WALRecord)
    (hnew : ¬ r.lsn ≤ w.recoveryLastCheckpointLsn) (hs : Sim mode [] w S) :
    Lockstep mode (fun _ _ w' S' => Sim mode [] w' S') (applyWalRecord r w) (applyRecord r S) := by
  unfold applyWalRecord applyRecord
  rw [run_bind_ok (run_get w), if_neg hnew]
  cases r with
  | put lsn key value => exact (lockstep_insert key value lsn hs).mono fun _ _ _ _ h => h
  | delete lsn key =>
      refine (lockstep_delete key lsn hs).bind ?_
      rintro _ _ w' S' ⟨-, hs'⟩
      exact hs'
  | checkpoint lsn root head next => exact hs

/-- The pool after a record, from the touched pages of the store. -/
theorem cachedIds_of_sim {S : Store} (hs : Sim (replayMode ids) [] w S) :
    cachedIds w = stillInUse ids S := by
  obtain ⟨-, hheld⟩ := (hs.room trivial).held ids (Option.mem_some_iff.mpr rfl)
  ext x
  rw [mem_cachedIds, hheld x]
  simp [stillInUse]

/-! ## Whole replays -/

/-- What a replay comes to, where re-applying its records to the pages comes to `result`. -/
def ReplaySpec : (result : Except Fault (Finset ℕ)) → EStateM.Result Err World ℕ → Prop
  | .ok ids, .ok _ w => w.pool.cache.length = ids.card
  | .error (.raised e), .error e' _ => e' = e
  | .error .undisciplined, _ => True
  | _, _ => False

/-- The replay of some records, on a pool that does not evict. -/
theorem replayLoop_residents (records : List (WALRecord × ℕ)) : ∀ {C : Content} {w : World}
    (position : ℕ), Quiet w C → Unhurried w →
      ReplaySpec (residents w.recoveryLastCheckpointLsn (records.map Prod.fst) C (cachedIds w))
        (replayLoop applyWalRecord records position w) := by
  induction records with
  | nil => exact fun {C w} position hq _ => (card_cachedIds hq).symm
  | cons record records ih =>
      intro C w _ hq hslow
      obtain ⟨r, position⟩ := record
      have hq' : Quiet (withLsn w r.lsn) C := hq.congr rfl rfl rfl
      have hslow' : Unhurried (withLsn w r.lsn) := ⟨hslow.eviction, hslow.power⟩
      rw [List.map_cons, residents, replayLoop, run_bind_ok (show (modify fun w : World =>
        { w with wal := { w.wal with currentLsn := r.lsn } } : Eng Unit) w =
          .ok () (withLsn w r.lsn) from rfl)]
      by_cases hskip : r.lsn ≤ w.recoveryLastCheckpointLsn
      · rw [if_pos hskip, run_bind_ok (applyWalRecord_skip (w := withLsn w r.lsn) hskip)]
        exact ih position hq' hslow'
      -- Without eviction the engine and the page store run in lockstep.
      · have hlock := lockstep_applyRecord (w := withLsn w r.lsn) r hskip
          (hq'.sim (hslow'.allows_replay (3 * C.next + 2)))
        have hsteal := noSteal_steps.applyWalRecord r (withLsn w r.lsn)
        rw [if_neg hskip]
        change Lockstep _ _ _ (applyRecord r (idealStore C)) at hlock
        revert hlock
        cases hstore : applyRecord r (idealStore C) with
        | ok _ S =>
            intro hlock
            by_cases hpending : S.pending = []
            · cases hrun : applyWalRecord r (withLsn w r.lsn) with
              | ok _ w₁ =>
                  rw [hrun] at hlock hsteal
                  have hs : Sim (replayMode (cachedIds w)) [] w₁ S := hlock
                  have hrecovery : w₁.recoveryLastCheckpointLsn = w.recoveryLastCheckpointLsn :=
                    congrArg Frozen.recoveryLastCheckpointLsn hsteal.frozen
                  simp only [if_pos hpending]
                  rw [run_bind_ok hrun, ← hrecovery, ← cachedIds_of_sim hs]
                  exact ih position (hs.quiet hpending) (hslow'.of_noSteal hsteal)
              | error e w₁ =>
                  rw [hrun] at hlock
                  exact absurd hlock (replayMode_not_escape e)
            · simp only [if_neg hpending]
              trivial
        | error d S =>
            intro hlock
            cases d with
            | undisciplined => trivial
            | raised e =>
                cases hrun : applyWalRecord r (withLsn w r.lsn) with
                | ok _ w₁ =>
                    rw [hrun] at hlock
                    cases hlock
                | error e' w₁ =>
                    rw [hrun] at hlock
                    rw [run_bind_error hrun]
                    rcases hlock with h | h | ⟨h, -⟩
                    · cases h
                    · exact absurd h (replayMode_not_escape e')
                    · cases h
                      rfl

/-! ## The pages of a database -/

/-- A record that was re-applied to the pages of a map leaves nothing pending. -/
theorem applyWalRecord_applied (h : Holding R L M C T w) (hlsn : r.lsn ≤ L)
    (hwithin : RecordWithin R r) (hnew : ¬ r.lsn ≤ w.recoveryLastCheckpointLsn)
    (hrun : applyWalRecord r w = .ok () w') :
    Applied R L (afterRecord M r) w' (applyRecord r (idealStore C)) := by
  unfold applyWalRecord at hrun
  rw [run_bind_ok (run_get w), if_neg hnew] at hrun
  cases r with
  | put lsn key value => exact insert_applied h hlsn hwithin hrun
  | delete lsn key =>
      obtain ⟨deleted, w₁, hdelete, hpure⟩ := bind_eq_ok.mp hrun
      cases hpure
      have happlied : Applied R L (Function.update M key none) w'
          (PageStore.delete key lsn (idealStore C)) := (delete_applied h hlsn hdelete).2
      change Applied R L (Function.update M key none) w'
        ((PageStore.delete key lsn >>= fun _ => pure ()) (idealStore C))
      cases hstore : PageStore.delete key lsn (idealStore C) with
      | ok b S =>
          rw [hstore] at happlied
          rw [run_bind_ok hstore]
          exact happlied
      | error e S =>
          rw [hstore] at happlied
          exact happlied.elim
  | checkpoint lsn root head next =>
      cases hrun
      exact ⟨rfl, H, T, h⟩

/-- The records of a replay that returned can be re-applied to the pages it began with. -/
theorem residents_of_replayAll (rs : List WALRecord) : ∀ {M : KeyMap} {C : Content} {H : ℕ}
    {T : Tree H} {w : World} (ids : Finset ℕ), Holding R L M C T w →
      (∀ r ∈ rs, r.lsn ≤ L ∧ RecordWithin R r) → replayAll applyWalRecord rs w = .ok () w' →
        ∃ ids', residents w.recoveryLastCheckpointLsn rs C ids = .ok ids' := by
  induction rs with
  | nil => exact fun {M C H T w} ids _ _ _ => ⟨ids, rfl⟩
  | cons r rs ih =>
      intro M C H T w ids h hrs hrun
      rw [replayAll_cons] at hrun
      obtain ⟨_, w₁, happly, hrest⟩ := bind_eq_ok.mp hrun
      obtain ⟨hlsn, hwithin⟩ := hrs r (List.mem_cons_self ..)
      have hrs' := fun q hq => hrs q (List.mem_cons_of_mem r hq)
      have h₀ := holding_withLsn h r.lsn
      have hsteal := (noSteal_steps.applyWalRecord r).ok happly
      have hrecovery : w₁.recoveryLastCheckpointLsn = w.recoveryLastCheckpointLsn :=
        congrArg Frozen.recoveryLastCheckpointLsn hsteal.frozen
      rw [residents]
      by_cases hskip : r.lsn ≤ w.recoveryLastCheckpointLsn
      · rw [applyWalRecord_skip (w := withLsn w r.lsn) hskip] at happly
        cases happly
        rw [if_pos hskip]
        exact ih (w := withLsn w r.lsn) ids h₀ hrs' hrest
      · have happlied := applyWalRecord_applied h₀ hlsn hwithin hskip happly
        rw [if_neg hskip]
        cases hstore : applyRecord r (idealStore C) with
        | ok _ S =>
            rw [hstore] at happlied
            obtain ⟨hpending, H₁, T₁, h₁⟩ := happlied
            obtain ⟨ids', hids⟩ := ih (stillInUse ids S) h₁ hrs' hrest
            rw [hrecovery] at hids
            simp only [if_pos hpending]
            exact ⟨ids', hids⟩
        | error e S =>
            rw [hstore] at happlied
            exact happlied.elim

end BPTreeDB.Runs
