import BPTreeDB.Runs.Sessions
import BPTreeDB.Runs.ScanRuns

/-!
# Handles that are opened again

The runs of `Sessions` stop at the first exception.  Here a caller carries on after a call
that raised without having changed anything: a read that overflowed the pool, a `put` or a
`delete` that its checks rejected, a checkpoint that could not be written.  As long as no
handle is opened again after another one has changed the map, every `get` and every `scan`
that returns shows the map of all calls that were acknowledged, whichever handle made them.
-/

namespace BPTreeDB.Runs

open Lib Eng Codec Lib.Program PageStore Engine DB

variable {L H P : ℕ} {T : Tree H} {C : Content} {M : KeyMap} {w w' : World}
  {configs : ℕ → Config}

/-! ## Calls that may raise -/

/-- A call of a public operation with any arguments. -/
inductive Attempt where
  | put (key value : PyArg)
  | get (key : PyArg)
  | delete (key : PyArg)
  | scan (start stop : Option PyArg)
  | checkpoint
  deriving DecidableEq, Repr

def Attempt.run : Attempt → Eng Answer
  | .put key value => do
      DB.put key value
      return .nothing
  | .get key => return .value (← DB.get key)
  | .delete key => return .deleted (← DB.delete key)
  | .scan start stop => return .pairs (← DB.scan start stop)
  | .checkpoint => do
      DB.checkpoint
      return .nothing

/-- What the caller sees of a call. -/
def seen : EStateM.Result Err World Answer → Except Err Answer
  | .ok answer _ => .ok answer
  | .error e _ => .error e

/-- A `put` or a `delete` returns, or its checks reject it before it changes anything. -/
def Attempt.Harmless (w : World) : Attempt → Prop
  | .put key value => (∃ w', DB.put key value w = .ok () w') ∨ RejectsPut key value w
  | .delete key => (∃ deleted w', DB.delete key w = .ok deleted w') ∨ RejectsDelete key w
  | _ => True

/-- The map after an acknowledged call. -/
def Attempt.after (M : KeyMap) : Attempt → Except Err Answer → KeyMap
  | .put (.bytes key) (.bytes value), .ok _ => Function.update M key (some value)
  | .delete (.bytes key), .ok _ => Function.update M key none
  | _, _ => M

/-- The call has changed the pages. -/
def Attempt.Changes : Attempt → Except Err Answer → Prop
  | .put _ _, .ok _ => True
  | .delete _, .ok answer => answer = .deleted true
  | _, _ => False

/-- A `get` or a `scan` that returns shows the map. -/
def Attempt.Shows (M : KeyMap) : Attempt → Except Err Answer → Prop
  | .get (.bytes key), .ok answer => answer = .value (M key)
  | .scan start stop, .ok answer => ∃ s t pairs, start = s.map .bytes ∧ stop = t.map .bytes ∧
      answer = .pairs pairs ∧ ListsRange M s t pairs
  | _, _ => True

theorem calm_scan (start stop : Option PyArg) : Keeps (Calm P M C T) (DB.scan start stop) := by
  refine keeps_checkIfOpened.bind fun _ => (keeps_ensureBound start _).bind fun s =>
    (keeps_ensureBound stop _).bind fun t => ?_
  intro w h
  have hsteal := noSteal_steps.scan s t w
  have hreads := readSpec_scan h.holding.inv h.holding.quiet s t
  cases hrun : BPlusTree.scan s t w with
  | ok found w' =>
      rw [hrun] at hreads hsteal
      exact .of_reads h hreads.1 hsteal
  | error e w' =>
      rw [hrun] at hreads hsteal
      exact .of_reads h hreads.1 hsteal

theorem ensureBound_ok {bound : Option PyArg} {name : String} {b : Option Bytes}
    (h : DB.ensureBound bound name w = .ok b w') : w' = w ∧ bound = b.map .bytes := by
  cases bound with
  | none =>
      cases h
      exact ⟨rfl, rfl⟩
  | some value =>
      cases value with
      | bytes value =>
          cases h
          exact ⟨rfl, rfl⟩
      | other => cases h

/-- What one call does: it shows the map, and the handle holds the map of the call. -/
def AttemptSpec (P : ℕ) (M : KeyMap) (C : Content) (c : Attempt)
    (r : EStateM.Result Err World Answer) : Prop :=
  c.Shows M (seen r) ∧ ∃ (C' : Content) (H' : ℕ) (T' : Tree H'),
    Serves P (c.after M (seen r)) C' T' (final r) ∧ (¬ c.Changes (seen r) → C' = C)

theorem attempt_get (hR : Sized (plainRegime P)) (h : Serves P M C T w) (key : PyArg) :
    AttemptSpec P M C (.get key) (Attempt.run (.get key) w) := by
  have hsteady : Steady P M C T w (final (Attempt.run (.get key) w)) :=
    ((calm_get key).bind fun _ => keeps_pure _ : Keeps (Calm P M C T) _) w h
  refine ⟨?_, C, H, T, hsteady.serves, fun _ => rfl⟩
  cases key with
  | other => trivial
  | bytes key =>
      cases hrun : Attempt.run (.get (.bytes key)) w with
      | error e w' => trivial
      | ok answer w' => exact (Call.step (c := .get key) hR h.ready hrun).1

theorem attempt_scan (h : Serves P M C T w) (start stop : Option PyArg) :
    AttemptSpec P M C (.scan start stop) (Attempt.run (.scan start stop) w) := by
  have hsteady : Steady P M C T w (final (Attempt.run (.scan start stop) w)) :=
    ((calm_scan start stop).bind fun _ => keeps_pure _ : Keeps (Calm P M C T) _) w h
  refine ⟨?_, C, H, T, hsteady.serves, fun _ => rfl⟩
  cases hrun : Attempt.run (.scan start stop) w with
  | error e w' => trivial
  | ok answer w' =>
      obtain ⟨pairs, w₁, hscan, hpure⟩ := bind_eq_ok.mp hrun
      cases hpure
      obtain ⟨_, w₂, hcheck, hbounds⟩ := bind_eq_ok.mp hscan
      obtain rfl := checkIfOpened_eq hcheck
      obtain ⟨s, w₃, hstart, hrest⟩ := bind_eq_ok.mp hbounds
      obtain ⟨rfl, hs⟩ := ensureBound_ok hstart
      obtain ⟨t, w₄, hstop, htree⟩ := bind_eq_ok.mp hrest
      obtain ⟨rfl, ht⟩ := ensureBound_ok hstop
      exact ⟨s, t, pairs, hs, ht, rfl, (h.ready.scan htree).1⟩

theorem attempt_checkpoint (hR : Sized (plainRegime P)) (h : Serves P M C T w) :
    AttemptSpec P M C .checkpoint (Attempt.run .checkpoint w) := by
  have hsteady : Steady P M C T w (final (Attempt.run .checkpoint w)) :=
    ((calm_checkpoint hR).bind fun _ => keeps_pure _ : Keeps (Calm P M C T) _) w h
  exact ⟨trivial, C, H, T, hsteady.serves, fun _ => rfl⟩

theorem attempt_put (hR : Sized (plainRegime P)) (h : Serves P M C T w) {key value : PyArg}
    (hc : Attempt.Harmless w (.put key value)) :
    AttemptSpec P M C (.put key value) (Attempt.run (.put key value) w) := by
  rcases hc with ⟨w', hput⟩ | hreject
  · have hrun : Attempt.run (.put key value) w = .ok .nothing w' := run_bind_ok hput
    rw [hrun]
    refine ⟨trivial, ?_⟩
    obtain ⟨k, v, rfl, rfl⟩ := put_bytes hput
    obtain ⟨⟨C', hready⟩, hopened⟩ := h.ready.put hR hput
    obtain ⟨H', T', hholding⟩ := hready.stands
    exact ⟨C', H', T', ⟨hholding, hready.log, hready.power, hopened.trans h.isOpened⟩,
      fun hnot => absurd trivial hnot⟩
  · obtain ⟨e, hput⟩ := put_rejected key value hreject
    have hrun : Attempt.run (.put key value) w = .error e w := run_bind_error hput
    rw [hrun]
    refine ⟨trivial, C, H, T, ?_, fun _ => rfl⟩
    cases key <;> cases value <;> exact h

theorem attempt_delete (hR : Sized (plainRegime P)) (h : Serves P M C T w) {key : PyArg}
    (hc : Attempt.Harmless w (.delete key)) :
    AttemptSpec P M C (.delete key) (Attempt.run (.delete key) w) := by
  refine ⟨trivial, ?_⟩
  cases hdelete : DB.delete key w with
  | error e w' =>
      have hreject : RejectsDelete key w := by
        rcases hc with ⟨deleted, w₁, hok⟩ | hreject
        · rw [hdelete] at hok
          cases hok
        · exact hreject
      have hsteady := delete_calm key h (.inr hreject)
      rw [hdelete] at hsteady
      rw [show Attempt.run (.delete key) w = .error e w' from run_bind_error hdelete]
      refine ⟨C, H, T, ?_, fun _ => rfl⟩
      cases key <;> exact hsteady.serves
  | ok deleted w' =>
      rw [show Attempt.run (.delete key) w = .ok (.deleted deleted) w' from run_bind_ok hdelete]
      cases key with
      | other =>
          have hsteady := delete_calm .other h (.inr fun k hk => by cases hk)
          rw [hdelete] at hsteady
          exact ⟨C, H, T, hsteady.serves, fun _ => rfl⟩
      | bytes k =>
          obtain ⟨hdeleted, hopened, C', hready, hsame⟩ := h.ready.dbDelete hR hdelete
          obtain ⟨H', T', hholding⟩ := hready.stands
          refine ⟨C', H', T', ⟨hholding, hready.log, hready.power, hopened.trans h.isOpened⟩,
            fun hnot => hsame ?_⟩
          cases hkey : M k with
          | none => rfl
          | some value =>
              rw [hkey] at hdeleted
              exact absurd (congrArg Answer.deleted hdeleted) hnot

theorem Attempt.step (hR : Sized (plainRegime P)) (h : Serves P M C T w) {c : Attempt}
    (hc : c.Harmless w) : AttemptSpec P M C c (c.run w) := by
  cases c with
  | put key value => exact attempt_put hR h hc
  | get key => exact attempt_get hR h key
  | delete key => exact attempt_delete hR h hc
  | scan start stop => exact attempt_scan h start stop
  | checkpoint => exact attempt_checkpoint hR h

/-! ## Calls in a row -/

/-- The outcomes of the calls and the world after them; the caller carries on after an
exception. -/
def attemptAll : List Attempt → World → List (Except Err Answer) × World
  | [], w => ([], w)
  | c :: calls, w =>
      let rest := attemptAll calls (final (c.run w))
      (seen (c.run w) :: rest.1, rest.2)

def HarmlessAll : List Attempt → World → Prop
  | [], _ => True
  | c :: calls, w => c.Harmless w ∧ HarmlessAll calls (final (c.run w))

/-- The map of the acknowledged calls. -/
def acknowledged (M : KeyMap) : List Attempt → List (Except Err Answer) → KeyMap
  | c :: calls, out :: outs => acknowledged (c.after M out) calls outs
  | _, _ => M

/-- Every `get` and every `scan` shows the map of the calls before it. -/
def ShowsAll (M : KeyMap) : List Attempt → List (Except Err Answer) → Prop
  | c :: calls, out :: outs => c.Shows M out ∧ ShowsAll (c.after M out) calls outs
  | _, _ => True

/-- Some call has changed the pages. -/
def ChangedIn : List Attempt → List (Except Err Answer) → Prop
  | c :: calls, out :: outs => c.Changes out ∨ ChangedIn calls outs
  | _, _ => False

theorem attemptAll_step (hR : Sized (plainRegime P)) (calls : List Attempt) :
    ∀ {M : KeyMap} {C : Content} {H : ℕ} {T : Tree H} {w : World}, Serves P M C T w →
      HarmlessAll calls w → ShowsAll M calls (attemptAll calls w).1 ∧
        ∃ (C' : Content) (H' : ℕ) (T' : Tree H'),
          Serves P (acknowledged M calls (attemptAll calls w).1) C' T' (attemptAll calls w).2 ∧
          (¬ ChangedIn calls (attemptAll calls w).1 → C' = C) := by
  induction calls with
  | nil =>
      intro M C H T w h _
      exact ⟨trivial, C, H, T, h, fun _ => rfl⟩
  | cons c calls ih =>
      intro M C H T w h hharmless
      obtain ⟨hshows, C₁, H₁, T₁, h₁, hsame₁⟩ := Attempt.step hR h hharmless.1
      obtain ⟨hrest, C₂, H₂, T₂, h₂, hsame₂⟩ := ih h₁ hharmless.2
      refine ⟨⟨hshows, hrest⟩, C₂, H₂, T₂, h₂, fun hnot => ?_⟩
      obtain ⟨hfirst, hlater⟩ := not_or.mp hnot
      rw [hsame₂ hlater, hsame₁ hfirst]

/-! ## Handles in turn -/

/-- A handle is opened, called and closed. -/
structure Turn where
  handle : ℕ
  calls : List Attempt

/-- What the calls of a turn do after an open that returned. -/
def Turn.calling (t : Turn) (w : World) : List (Except Err Answer) × World := attemptAll t.calls w

/-- In every turn whose open returns, the reads show the map of all acknowledged calls; the
next turn begins when the close returns. -/
def ShowsTurns : KeyMap → List Turn → Machine → Prop
  | _, [], _ => True
  | M, t :: rest, machine => ∀ w₁, DB.open_ (machine.enter t.handle) = .ok () w₁ →
      ShowsAll M t.calls (t.calling w₁).1 ∧ ∀ w₂, DB.close (t.calling w₁).2 = .ok () w₂ →
        ShowsTurns (acknowledged M t.calls (t.calling w₁).1) rest (machine.leave t.handle w₂)

/-- No call is cut short in the middle, and no handle is opened again after another one has
changed the map.  `seen` are the handles that were open before, `current` those of them that
are up to date. -/
def OrderlyTurns : (seen current : Set ℕ) → List Turn → Machine → Prop
  | _, _, [], _ => True
  | seen, current, t :: rest, machine => (t.handle ∈ seen → t.handle ∈ current) ∧
      ∀ w₁, DB.open_ (machine.enter t.handle) = .ok () w₁ → HarmlessAll t.calls w₁ ∧
        ∀ w₂, DB.close (t.calling w₁).2 = .ok () w₂ → OrderlyTurns (insert t.handle seen)
          {i | i = t.handle ∨ (i ∈ current ∧ ¬ ChangedIn t.calls (t.calling w₁).1)} rest
          (machine.leave t.handle w₂)

/-- The handle of an orderly turn, after its open and its calls. -/
theorem turn_step {t : Turn} {seen current : Set ℕ} {machine : Machine} {w₁ : World}
    (hconfigs : ∀ i, minPageSize ≤ (configs i).pageSizeBytes)
    (h : MachineHolds configs M seen current machine) (hstep : t.handle ∈ seen → t.handle ∈ current)
    (hopen : DB.open_ (machine.enter t.handle) = .ok () w₁) (hharmless : HarmlessAll t.calls w₁) :
    ShowsAll M t.calls (t.calling w₁).1 ∧ ∃ (P : ℕ) (C : Content) (H : ℕ) (T : Tree H),
      Sized (plainRegime P) ∧
      Serves P (acknowledged M t.calls (t.calling w₁).1) C T (t.calling w₁).2 ∧
      (¬ ChangedIn t.calls (t.calling w₁).1 →
        ∀ i ∈ current, i ∈ seen → Idle C (machine.handles i)) := by
  have hstart : HandleSession.start ⟨t.handle, []⟩ (machine.enter t.handle) = .ok [] w₁ :=
    run_bind_ok hopen
  obtain ⟨-, hopened, P, C, hR, hready, hidle⟩ := start_step (s := ⟨t.handle, []⟩) hconfigs h hstep
    hstart
  obtain ⟨H, T, hholding⟩ := hready.stands
  have hserves : Serves P M C T w₁ := ⟨hholding, hready.log, hready.power, hopened⟩
  obtain ⟨hshows, C', H', T', hserves', hsame⟩ := attemptAll_step hR t.calls hserves hharmless
  refine ⟨hshows, P, C', H', T', hR, hserves', fun hnot => ?_⟩
  rw [hsame hnot]
  exact hidle fun h => h

theorem showsTurns_of_orderly (hconfigs : ∀ i, minPageSize ≤ (configs i).pageSizeBytes)
    (turns : List Turn) :
    ∀ {M : KeyMap} {seen current : Set ℕ} {machine : Machine},
      MachineHolds configs M seen current machine → current ⊆ seen →
      OrderlyTurns seen current turns machine → ShowsTurns M turns machine := by
  induction turns with
  | nil => exact fun _ _ _ => trivial
  | cons t turns ih =>
      intro M seen current machine h hsub horderly w₁ hopen
      obtain ⟨hstep, hrest⟩ := horderly
      obtain ⟨hharmless, hnext⟩ := hrest w₁ hopen
      obtain ⟨hshows, P, C, H, T, hR, hserves, hidle⟩ := turn_step hconfigs h hstep hopen hharmless
      refine ⟨hshows, fun w₂ hclose => ih ?_ ?_ (hnext w₂ hclose)⟩
      · obtain ⟨⟨m, hsaved⟩, hidle'⟩ := hserves.ready.close hR hserves.isOpened hclose
        refine ⟨.inr ⟨P, C, m, hR, hsaved, fun i hi => ?_⟩, fun i hi => ?_⟩
        · by_cases hself : i = t.handle
          · rw [hself, Machine.leave_self]
            exact hidle'
          · obtain ⟨hcurrent, hnot⟩ := hi.resolve_left hself
            rw [Machine.leave_of_ne _ _ hself]
            exact hidle hnot i hcurrent (hsub hcurrent)
        · have hne : i ≠ t.handle := fun heq => hi (heq ▸ Set.mem_insert _ _)
          rw [Machine.leave_of_ne _ _ hne]
          exact h.fresh i fun hmem => hi (Set.mem_insert_of_mem _ hmem)
      · intro i hi
        exact hi.imp id fun hcurrent => hsub hcurrent.1

/-- Whichever handle made the calls, every read of an orderly run shows the map of all calls
that were acknowledged before it. -/
theorem handles_show_map (configs : ℕ → Config) (turns : List Turn)
    (hconfigs : ∀ i, minPageSize ≤ (configs i).pageSizeBytes)
    (horderly : OrderlyTurns ∅ ∅ turns (newMachine configs)) :
    ShowsTurns (fun _ => none) turns (newMachine configs) :=
  showsTurns_of_orderly hconfigs turns (machineHolds_new configs) (Set.empty_subset _) horderly

/-! ### Concrete runs -/

/-- Puts of short records. -/
def putAttempts (firstBytes : List Byte) : List Attempt :=
  firstBytes.map fun b => .put (.bytes (keyOf b)) (.bytes (List.replicate 8 0))

/-- Every call of a turn returns. -/
def returnsAll : List (Except Err Answer) → Bool
  | [] => true
  | .ok _ :: outs => returnsAll outs
  | .error _ :: _ => false

/-- Every open, call and close of a run returns. -/
def returnsTurns : List Turn → Machine → Bool
  | [], _ => true
  | t :: rest, machine =>
      match DB.open_ (machine.enter t.handle) with
      | .error _ _ => false
      | .ok _ w₁ => returnsAll (t.calling w₁).1 &&
          match DB.close (t.calling w₁).2 with
          | .error _ _ => false
          | .ok _ w₂ => returnsTurns rest (machine.leave t.handle w₂)

theorem harmless_of_returnsAll {calls : List Attempt} :
    ∀ {w : World}, returnsAll (attemptAll calls w).1 = true → HarmlessAll calls w := by
  induction calls with
  | nil => exact fun _ => trivial
  | cons c calls ih =>
      intro w h
      rw [attemptAll] at h
      cases hrun : c.run w with
      | error e w' =>
          rw [hrun] at h
          cases h
      | ok answer w' =>
          rw [hrun] at h
          refine ⟨?_, by rw [hrun]; exact ih h⟩
          cases c with
          | put key value =>
              obtain ⟨_, w₁, hput, -⟩ := bind_eq_ok.mp hrun
              exact .inl ⟨w₁, hput⟩
          | delete key =>
              obtain ⟨deleted, w₁, hdelete, -⟩ := bind_eq_ok.mp hrun
              exact .inl ⟨deleted, w₁, hdelete⟩
          | get key => trivial
          | scan start stop => trivial
          | checkpoint => trivial

/-- A run with a new handle for every turn is orderly if its calls return. -/
theorem orderly_of_fresh (turns : List Turn) :
    ∀ {seen current : Set ℕ} {machine : Machine}, (turns.map (·.handle)).Nodup →
      (∀ t ∈ turns, t.handle ∉ seen) → returnsTurns turns machine = true →
      OrderlyTurns seen current turns machine := by
  induction turns with
  | nil => exact fun _ _ _ => trivial
  | cons t turns ih =>
      intro seen current machine hnodup hfresh hreturns
      obtain ⟨hnot, hnodup⟩ := List.nodup_cons.mp hnodup
      refine ⟨fun hseen => absurd hseen (hfresh t (List.mem_cons_self ..)), fun w₁ hopen => ?_⟩
      rw [returnsTurns, hopen] at hreturns
      obtain ⟨hcalls, hrest⟩ := Bool.and_eq_true_iff.mp hreturns
      refine ⟨harmless_of_returnsAll hcalls, fun w₂ hclose => ih hnodup (fun u hu => ?_) ?_⟩
      · rw [Set.mem_insert_iff, not_or]
        exact ⟨fun heq => hnot (List.mem_map.mpr ⟨u, hu, heq⟩),
          hfresh u (List.mem_cons_of_mem _ hu)⟩
      · rw [hclose] at hrest
        exact hrest

/-- Two handles in turn, the second of which reads what the first one has put. -/
def freshTurns : List Turn :=
  [⟨0, putAttempts [1, 2, 3, 4, 5, 6] ++ [.delete (.bytes (keyOf 1))]⟩,
    ⟨1, [.get (.bytes (keyOf 1)), .get (.bytes (keyOf 2)), .scan none none]⟩]

set_option maxRecDepth 100000 in
theorem returnsTurns_freshTurns : returnsTurns freshTurns (newMachine plainConfigs) = true := by
  decide +kernel

theorem handles_show_map_fresh : OrderlyTurns ∅ ∅ freshTurns (newMachine plainConfigs) ∧
    ShowsTurns (fun _ => none) freshTurns (newMachine plainConfigs) := by
  have horderly : OrderlyTurns ∅ ∅ freshTurns (newMachine plainConfigs) :=
    orderly_of_fresh _ (by decide) (fun _ _ => Set.notMem_empty _) returnsTurns_freshTurns
  exact ⟨horderly, handles_show_map plainConfigs freshTurns minPageSize_le_plainConfigs horderly⟩

/-- Some `get` does not show the map. -/
def misreads (M : KeyMap) : List Attempt → List (Except Err Answer) → Bool
  | c :: calls, out :: outs =>
      (match c, out with
        | .get (.bytes key), .ok (.value found) => decide (found ≠ M key)
        | _, _ => false) || misreads (c.after M out) calls outs
  | _, _ => false

def misreadsTurns (M : KeyMap) : List Turn → Machine → Bool
  | [], _ => false
  | t :: rest, machine =>
      match DB.open_ (machine.enter t.handle) with
      | .error _ _ => false
      | .ok _ w₁ => misreads M t.calls (t.calling w₁).1 ||
          match DB.close (t.calling w₁).2 with
          | .error _ _ => false
          | .ok _ w₂ => misreadsTurns (acknowledged M t.calls (t.calling w₁).1) rest
              (machine.leave t.handle w₂)

theorem not_showsAll (calls : List Attempt) :
    ∀ {M : KeyMap} {outs : List (Except Err Answer)}, misreads M calls outs = true →
      ¬ ShowsAll M calls outs := by
  induction calls with
  | nil =>
      intro M outs h
      cases outs <;> cases h
  | cons c calls ih =>
      intro M outs h hshows
      cases outs with
      | nil => cases h
      | cons out outs =>
          obtain ⟨hfirst, hrest⟩ := hshows
          rcases Bool.or_eq_true_iff.mp h with hmisread | hlater
          · split at hmisread
            · have heq : Answer.value _ = .value _ := hfirst
              simp only [decide_eq_true_eq] at hmisread
              exact hmisread (Answer.value.inj heq)
            · cases hmisread
          · exact ih hlater hrest

theorem not_showsTurns (turns : List Turn) :
    ∀ {M : KeyMap} {machine : Machine}, misreadsTurns M turns machine = true →
      ¬ ShowsTurns M turns machine := by
  induction turns with
  | nil =>
      intro M machine h
      cases h
  | cons t turns ih =>
      intro M machine h hshows
      rw [misreadsTurns] at h
      cases hopen : DB.open_ (machine.enter t.handle) with
      | error e w₁ =>
          rw [hopen] at h
          cases h
      | ok a w₁ =>
          rw [hopen] at h
          obtain ⟨hcalls, hnext⟩ := hshows w₁ hopen
          rcases Bool.or_eq_true_iff.mp h with hmisread | hlater
          · exact not_showsAll _ hmisread hcalls
          · cases hclose : DB.close (t.calling w₁).2 with
            | error e w₂ =>
                rw [hclose] at hlater
                cases hlater
            | ok a w₂ =>
                rw [hclose] at hlater
                exact ih hlater (hnext w₂ hclose)

/-- The second handle splits a leaf; then the first one is opened again and asks for a key of
the new leaf. -/
def staleTurns : List Turn :=
  [⟨0, putAttempts [10, 20, 30, 40, 50, 60]⟩, ⟨1, putAttempts [61, 62, 63, 64, 65]⟩,
    ⟨0, [.get (.bytes (keyOf 61))]⟩]

set_option maxRecDepth 100000 in
theorem staleTurns_misread :
    (returnsTurns staleTurns (newMachine plainConfigs) &&
      misreadsTurns (fun _ => none) staleTurns (newMachine plainConfigs)) = true := by
  decide +kernel

/-- A handle that is opened again does not see what another one has put in between, although
no call raises. -/
theorem stale_handle_misreads : ¬ ∀ (configs : ℕ → Config) (turns : List Turn),
    (∀ i, minPageSize ≤ (configs i).pageSizeBytes) →
    returnsTurns turns (newMachine configs) = true →
    ShowsTurns (fun _ => none) turns (newMachine configs) := by
  intro hall
  obtain ⟨hreturns, hmisread⟩ := Bool.and_eq_true_iff.mp staleTurns_misread
  exact not_showsTurns _ hmisread (hall plainConfigs staleTurns
    minPageSize_le_plainConfigs hreturns)

end BPTreeDB.Runs
