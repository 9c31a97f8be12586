import BPTreeDB.Runs.Handles

/-!
# Sessions of several handles

Handles take turns on one data directory: each session opens a handle, calls its public
operations and closes it again.  A handle carries its buffer pool from one session to its
next one, so that its pages are out of date if another handle has changed the map in
between.  The run lemma `runSessions_holds` covers all runs in which no call raises and no
handle is out of step: every call answers as the map does, and after every call the handle
is ready.
-/

namespace BPTreeDB.Runs

open Lib Eng Codec Lib.Program PageStore Engine DB

variable {R : Regime} {L H P : ℕ} {T : Tree H} {C : Content} {M M' : KeyMap} {w w' : World}
  {m : MetaPage} {configs : ℕ → Config}

/-! ## Runs -/

/-- A data directory and the handles on it, by number. -/
structure Machine where
  disk : Disk
  handles : ℕ → World

/-- An empty directory and a new handle for every number. -/
def newMachine (configs : ℕ → Config) : Machine where
  disk := emptyDirectory
  handles i := DB.handle (configs i) emptyDirectory none

/-- A handle on the directory as it is now. -/
def Machine.enter (machine : Machine) (i : ℕ) : World :=
  { machine.handles i with disk := machine.disk }

def Machine.leave (machine : Machine) (i : ℕ) (w : World) : Machine :=
  ⟨w.disk, Function.update machine.handles i w⟩

theorem Machine.leave_self (machine : Machine) (i : ℕ) (w : World) :
    (machine.leave i w).handles i = w :=
  Function.update_self ..

theorem Machine.leave_of_ne (machine : Machine) {i j : ℕ} (w : World) (h : j ≠ i) :
    (machine.leave i w).handles j = machine.handles j :=
  Function.update_of_ne h ..

/-- A handle is opened, and its operations are called. -/
structure HandleSession where
  handle : ℕ
  calls : List Call

def callAll : List Call → Eng (List Answer)
  | [] => return []
  | c :: rest => do
      let answer ← c.run
      return answer :: (← callAll rest)

/-- A session up to its last call. -/
def HandleSession.start (s : HandleSession) : Eng (List Answer) := do
  DB.open_
  callAll s.calls

/-- A session with the `close` at its end. -/
def HandleSession.run (s : HandleSession) : Eng (List Answer) := do
  let answers ← s.start
  DB.close
  return answers

/-- The answers and the machine after a run of sessions; nothing if a call raises. -/
def runSessions : List HandleSession → Machine → Option (List (List Answer) × Machine)
  | [], machine => some ([], machine)
  | s :: rest, machine =>
      match s.run (machine.enter s.handle) with
      | .ok answers w =>
          (runSessions rest (machine.leave s.handle w)).map fun r => (answers :: r.1, r.2)
      | .error _ _ => none

/-- A run of sessions, the last of which is still going on: its answers and its handle. -/
def Reaches (configs : ℕ → Config) (sessions : List HandleSession) (last : HandleSession)
    (answers : List (List Answer)) (w : World) : Prop :=
  ∃ before machine current, runSessions sessions (newMachine configs) = some (before, machine) ∧
    last.start (machine.enter last.handle) = .ok current w ∧ answers = before ++ [current]

/-! ## The map -/

def mapAfter (M : KeyMap) (calls : List Call) : KeyMap := calls.foldl Call.after M

/-- The answers of the map to a list of calls. -/
def AnswersAll : KeyMap → List Call → List Answer → Prop
  | _, [], answers => answers = []
  | M, c :: rest, answers => ∃ answer others, answers = answer :: others ∧ c.Answers M answer ∧
      AnswersAll (c.after M) rest others

/-- Some call changes the pages. -/
def ChangesIn : KeyMap → List Call → Prop
  | _, [] => False
  | M, c :: rest => c.Changes M ∨ ChangesIn (c.after M) rest

def sessionsAfter (M : KeyMap) (sessions : List HandleSession) : KeyMap :=
  sessions.foldl (fun M s => mapAfter M s.calls) M

def AnswersSessions : KeyMap → List HandleSession → List (List Answer) → Prop
  | _, [], answers => answers = []
  | M, s :: rest, answers => ∃ first others, answers = first :: others ∧
      AnswersAll M s.calls first ∧ AnswersSessions (mapAfter M s.calls) rest others

/-- No handle is opened again after a session of another handle has changed the map.  `seen`
are the handles that were open before, `current` those of them that are up to date. -/
def InStep : KeyMap → (seen current : Set ℕ) → List HandleSession → Prop
  | _, _, _, [] => True
  | M, seen, current, s :: rest => (s.handle ∈ seen → s.handle ∈ current) ∧
      InStep (mapAfter M s.calls) (insert s.handle seen)
        {i | i = s.handle ∨ (i ∈ current ∧ ¬ ChangesIn M s.calls)} rest

/-! ## One session -/

/-- Calls that return answer as the map does, and leave a ready handle. -/
theorem callAll_step (hR : Sized (plainRegime P)) (calls : List Call) :
    ∀ {M : KeyMap} {C : Content} {w : World} {answers : List Answer},
      Ready (plainRegime P) M C w → callAll calls w = .ok answers w' →
      AnswersAll M calls answers ∧ w'.isOpened = w.isOpened ∧
        ∃ C', Ready (plainRegime P) (mapAfter M calls) C' w' ∧ (¬ ChangesIn M calls → C' = C) := by
  induction calls with
  | nil =>
      intro M C w answers h hrun
      cases hrun
      exact ⟨rfl, rfl, C, h, fun _ => rfl⟩
  | cons c calls ih =>
      intro M C w answers h hrun
      obtain ⟨answer, w₁, hcall, hrest⟩ := bind_eq_ok.mp hrun
      obtain ⟨others, w₂, hothers, hpure⟩ := bind_eq_ok.mp hrest
      cases hpure
      obtain ⟨hanswer, hopened, C₁, h₁, hsame₁⟩ := c.step hR h hcall
      obtain ⟨hanswers, hopened', C', h', hsame'⟩ := ih h₁ hothers
      refine ⟨⟨answer, others, rfl, hanswer, hanswers⟩, hopened'.trans hopened, C', h',
        fun hnot => ?_⟩
      obtain ⟨hfirst, hrest⟩ := not_or.mp hnot
      rw [hsame' hrest, hsame₁ hfirst]

/-- The machine between two sessions: an empty directory, or files that hold the map.  The
handles in `current` have the pages of the files only, and those not in `seen` are new. -/
structure MachineHolds (configs : ℕ → Config) (M : KeyMap) (seen current : Set ℕ)
    (machine : Machine) : Prop where
  files : (machine.disk = emptyDirectory ∧ M = (fun _ => none) ∧ seen = ∅) ∨
    ∃ P C m, Sized (plainRegime P) ∧ Saved (plainRegime P) M C m machine.disk ∧
      ∀ i ∈ current, Idle C (machine.handles i)
  fresh : ∀ i ∉ seen, machine.handles i = DB.handle (configs i) emptyDirectory none

theorem idle_handle {config : Config} (hP : minPageSize ≤ config.pageSizeBytes) (disk : Disk) :
    Idle C (DB.handle config disk none) :=
  ⟨rfl, rfl, rfl, hP, rfl, cleanPool_nil rfl⟩

theorem Idle.withDisk (h : Idle C w) (disk : Disk) : Idle C { w with disk := disk } :=
  ⟨h.pager, h.wal, h.power, h.pageSize, h.freelist, h.pool⟩

/-- A session up to its last call. -/
theorem start_step {s : HandleSession} {seen current : Set ℕ} {machine : Machine}
    {answers : List Answer} (hconfigs : ∀ i, minPageSize ≤ (configs i).pageSizeBytes)
    (h : MachineHolds configs M seen current machine) (hstep : s.handle ∈ seen → s.handle ∈ current)
    (hrun : s.start (machine.enter s.handle) = .ok answers w) :
    AnswersAll M s.calls answers ∧ w.isOpened = true ∧ ∃ P C, Sized (plainRegime P) ∧
      Ready (plainRegime P) (mapAfter M s.calls) C w ∧
      (¬ ChangesIn M s.calls → ∀ i ∈ current, i ∈ seen → Idle C (machine.handles i)) := by
  obtain ⟨_, w₁, hopen, hcalls⟩ := bind_eq_ok.mp hrun
  have hnew : s.handle ∉ seen → machine.enter s.handle =
      { DB.handle (configs s.handle) emptyDirectory none with disk := machine.disk } := by
    intro hnot
    rw [Machine.enter, h.fresh s.handle hnot]
  rcases h.files with ⟨hdisk, rfl, rfl⟩ | ⟨P, C, m, hR, hsaved, hidle⟩
  · have henter := hnew (Set.notMem_empty _)
    rw [henter, hdisk] at hopen
    obtain ⟨hR, hopened, hready⟩ := ready_of_new (C := emptyContent 0) rfl
      (idle_handle (hconfigs s.handle) _) rfl hopen
    obtain ⟨hanswers, hopened', C', hready', -⟩ := callAll_step hR s.calls hready hcalls
    exact ⟨hanswers, hopened'.trans hopened, _, C', hR, hready', fun _ i _ hi =>
      absurd hi (Set.notMem_empty i)⟩
  · have hidle' : Idle C (machine.enter s.handle) := by
      by_cases hseen : s.handle ∈ seen
      · exact (hidle s.handle (hstep hseen)).withDisk _
      · rw [hnew hseen]
        exact (idle_handle (hconfigs s.handle) _).withDisk _
    obtain ⟨hready, hopened⟩ := hsaved.open_ hR hidle' hopen
    obtain ⟨hanswers, hopened', C', hready', hsame⟩ := callAll_step hR s.calls hready hcalls
    refine ⟨hanswers, hopened'.trans hopened, P, C', hR, hready', fun hnot i hi _ => ?_⟩
    rw [hsame hnot]
    exact hidle i hi

/-- A whole session. -/
theorem session_step {s : HandleSession} {seen current : Set ℕ} {machine : Machine}
    {answers : List Answer} (hconfigs : ∀ i, minPageSize ≤ (configs i).pageSizeBytes)
    (h : MachineHolds configs M seen current machine) (hstep : s.handle ∈ seen → s.handle ∈ current)
    (hsub : current ⊆ seen) (hrun : s.run (machine.enter s.handle) = .ok answers w) :
    AnswersAll M s.calls answers ∧
      MachineHolds configs (mapAfter M s.calls) (insert s.handle seen)
        {i | i = s.handle ∨ (i ∈ current ∧ ¬ ChangesIn M s.calls)} (machine.leave s.handle w) := by
  obtain ⟨_, w₁, hstart, hrest⟩ := bind_eq_ok.mp hrun
  obtain ⟨_, w₂, hclose, hpure⟩ := bind_eq_ok.mp hrest
  cases hpure
  obtain ⟨hanswers, hopened, P, C, hR, hready, hidle⟩ := start_step hconfigs h hstep hstart
  obtain ⟨⟨m, hsaved⟩, hidle'⟩ := hready.close hR hopened hclose
  refine ⟨hanswers, .inr ⟨P, C, m, hR, hsaved, fun i hi => ?_⟩, fun i hi => ?_⟩
  · by_cases hself : i = s.handle
    · rw [hself, Machine.leave_self]
      exact hidle'
    · obtain ⟨hcurrent, hnot⟩ := hi.resolve_left hself
      rw [Machine.leave_of_ne _ _ hself]
      exact hidle hnot i hcurrent (hsub hcurrent)
  · have hne : i ≠ s.handle := fun heq => hi (heq ▸ Set.mem_insert _ _)
    rw [Machine.leave_of_ne _ _ hne]
    exact h.fresh i fun hmem => hi (Set.mem_insert_of_mem _ hmem)

/-! ## Whole runs -/

/-- Runs of sessions in step. -/
theorem runSessions_holds (hconfigs : ∀ i, minPageSize ≤ (configs i).pageSizeBytes)
    (sessions rest : List HandleSession) :
    ∀ {M : KeyMap} {seen current : Set ℕ} {machine machine' : Machine}
      {answers : List (List Answer)},
      MachineHolds configs M seen current machine → current ⊆ seen →
      InStep M seen current (sessions ++ rest) →
      runSessions sessions machine = some (answers, machine') →
      AnswersSessions M sessions answers ∧ ∃ seen' current',
        MachineHolds configs (sessionsAfter M sessions) seen' current' machine' ∧
        current' ⊆ seen' ∧ InStep (sessionsAfter M sessions) seen' current' rest := by
  induction sessions with
  | nil =>
      intro M seen current machine machine' answers h hsub hstep hrun
      cases hrun
      exact ⟨rfl, seen, current, h, hsub, hstep⟩
  | cons s sessions ih =>
      intro M seen current machine machine' answers h hsub hstep hrun
      obtain ⟨hfirst, hrest⟩ := hstep
      rw [runSessions] at hrun
      cases hsession : s.run (machine.enter s.handle) with
      | error e w =>
          rw [hsession] at hrun
          cases hrun
      | ok first w =>
          rw [hsession] at hrun
          obtain ⟨⟨others, machine₁⟩, hothers, heq⟩ := Option.map_eq_some_iff.mp hrun
          cases heq
          obtain ⟨hanswers, h₁⟩ := session_step hconfigs h hfirst hsub hsession
          have hsub₁ : {i | i = s.handle ∨ (i ∈ current ∧ ¬ ChangesIn M s.calls)} ⊆
              insert s.handle seen := by
            intro i hi
            exact hi.imp id fun hcurrent => hsub hcurrent.1
          obtain ⟨hothers', seen', current', h', hsub', hstep'⟩ := ih h₁ hsub₁ hrest hothers
          exact ⟨⟨first, others, rfl, hanswers, hothers'⟩, seen', current', h', hsub', hstep'⟩

theorem machineHolds_new (configs : ℕ → Config) :
    MachineHolds configs (fun _ => none) ∅ ∅ (newMachine configs) :=
  ⟨.inl ⟨rfl, rfl, rfl⟩, fun _ _ => rfl⟩

theorem answersSessions_append {sessions rest : List HandleSession}
    {answers others : List (List Answer)} :
    ∀ {M : KeyMap}, AnswersSessions M sessions answers →
      AnswersSessions (sessionsAfter M sessions) rest others →
      AnswersSessions M (sessions ++ rest) (answers ++ others) := by
  induction sessions generalizing answers with
  | nil =>
      intro M h hrest
      rw [show answers = [] from h]
      exact hrest
  | cons s sessions ih =>
      intro M h hrest
      obtain ⟨first, later, rfl, hfirst, hlater⟩ := h
      exact ⟨first, later ++ others, rfl, hfirst, ih hlater hrest⟩

/-- A run in step: every call has answered as the map does, and the handle is ready. -/
theorem Reaches.ready {sessions : List HandleSession} {last : HandleSession}
    {answers : List (List Answer)} (h : Reaches configs sessions last answers w)
    (hconfigs : ∀ i, minPageSize ≤ (configs i).pageSizeBytes)
    (hstep : InStep (fun _ => none) ∅ ∅ (sessions ++ [last])) :
    AnswersSessions (fun _ => none) (sessions ++ [last]) answers ∧ ∃ P C, Sized (plainRegime P) ∧
      Ready (plainRegime P) (sessionsAfter (fun _ => none) (sessions ++ [last])) C w := by
  obtain ⟨before, machine, current, hbefore, hlast, rfl⟩ := h
  obtain ⟨hanswers, seen', current', hholds, -, hstep', -⟩ := runSessions_holds hconfigs sessions
    [last] (machineHolds_new configs) (Set.empty_subset _) hstep hbefore
  obtain ⟨hanswers', -, P, C, hR, hready, -⟩ := start_step hconfigs hholds hstep' hlast
  refine ⟨answersSessions_append hanswers ⟨current, [], rfl, hanswers', rfl⟩, P, C, hR, ?_⟩
  rw [sessionsAfter, List.foldl_append]
  exact hready

/-! ## The database is a map -/

theorem inStep_of_fresh (sessions : List HandleSession) :
    ∀ {M : KeyMap} {seen current : Set ℕ}, (sessions.map (·.handle)).Nodup →
      (∀ s ∈ sessions, s.handle ∉ seen) → InStep M seen current sessions := by
  induction sessions with
  | nil => exact fun _ _ => trivial
  | cons s sessions ih =>
      intro M seen current hnodup hfresh
      obtain ⟨hnot, hnodup⟩ := List.nodup_cons.mp hnodup
      refine ⟨fun hseen => absurd hseen (hfresh s (List.mem_cons_self ..)),
        ih hnodup fun t ht => ?_⟩
      rw [Set.mem_insert_iff, not_or]
      exact ⟨fun heq => hnot (List.mem_map.mpr ⟨t, ht, heq⟩), hfresh t (List.mem_cons_of_mem _ ht)⟩

/-- The database refines a sorted finite map.  In every run in which no call raises, with a
new handle for every session, every call answers as the map does that the same calls
produce. -/
theorem db_refines_map (configs : ℕ → Config) (sessions : List HandleSession) (last : HandleSession)
    (answers : List (List Answer)) (w : World)
    (hconfigs : ∀ i, minPageSize ≤ (configs i).pageSizeBytes)
    (hfresh : ((sessions ++ [last]).map (·.handle)).Nodup)
    (h : Reaches configs sessions last answers w) :
    AnswersSessions (fun _ => none) (sessions ++ [last]) answers :=
  (h.ready hconfigs (inStep_of_fresh _ hfresh fun _ _ => Set.notMem_empty _)).1

/-! ### Concrete runs -/

/-- A key of 20 bytes. -/
def keyOf (b : Byte) : Bytes := b :: List.replicate 19 0

/-- Puts of short records. -/
def putCalls (firstBytes : List Byte) : List Call :=
  firstBytes.map fun b => .put (keyOf b) (List.replicate 8 0)

/-- Pages of 256 bytes and no automatic checkpoints, for every handle. -/
def plainConfigs : ℕ → Config := fun _ => ⟨256, 8, 100000, fun _ _ => false⟩

theorem minPageSize_le_plainConfigs (i : ℕ) : minPageSize ≤ (plainConfigs i).pageSizeBytes := by
  show minPageSize ≤ 256
  decide

/-- The result of a run passes a test. -/
def reachesWith (configs : ℕ → Config) (sessions : List HandleSession) (last : HandleSession)
    (test : List (List Answer) → World → Bool) : Bool :=
  match runSessions sessions (newMachine configs) with
  | none => false
  | some (before, machine) =>
      match last.start (machine.enter last.handle) with
      | .ok current w => test (before ++ [current]) w
      | .error _ _ => false

theorem exists_of_reachesWith (configs : ℕ → Config) (sessions : List HandleSession)
    (last : HandleSession) (test : List (List Answer) → World → Bool)
    (h : reachesWith configs sessions last test = true) :
    ∃ answers w, Reaches configs sessions last answers w ∧ test answers w = true := by
  rw [reachesWith] at h
  cases hrun : runSessions sessions (newMachine configs) with
  | none =>
      rw [hrun] at h
      cases h
  | some r =>
      rw [hrun] at h
      obtain ⟨before, machine⟩ := r
      cases hlast : last.start (machine.enter last.handle) with
      | ok current w =>
          simp only [hlast] at h
          exact ⟨_, w, ⟨before, machine, current, hrun, hlast, rfl⟩, h⟩
      | error e w =>
          simp only [hlast] at h
          cases h

/-- A session with a split and a delete. -/
def splitSession : HandleSession := ⟨0, putCalls [1, 2, 3, 4, 5, 6] ++ [.delete (keyOf 1)]⟩

/-- A session that reads. -/
def readSession : HandleSession := ⟨1, [.get (keyOf 1), .scan none none]⟩

set_option maxRecDepth 100000 in
theorem exists_restart : ∃ answers w, Reaches plainConfigs
    [splitSession] readSession answers w := by
  obtain ⟨answers, w, h, -⟩ := exists_of_reachesWith plainConfigs [splitSession] readSession
    (fun _ _ => true) (by decide +kernel)
  exact ⟨answers, w, h⟩

theorem db_refines_map_restart : ∃ answers w,
    Reaches plainConfigs [splitSession] readSession answers w ∧
      AnswersSessions (fun _ => none) [splitSession, readSession] answers := by
  obtain ⟨answers, w, h⟩ := exists_restart
  exact ⟨answers, w, h, db_refines_map plainConfigs [splitSession] readSession answers w
    minPageSize_le_plainConfigs (by decide) h⟩

/-! ## Page accounting -/

/-- The page ids of a process are the meta page, the pages of the tree, the pages of the
freelist and the ids that these list, each of them once. -/
structure PagesAccounted (w : World) (m : MetaPage) : Prop where
  metaPage : w.pager.metaPage = some m
  partition : ∃ (tree : List ℕ) (chain : List (ℕ × List ℕ)),
    (∀ x, x ∈ tree ↔ InTree (treePage w) m.rootPageId x) ∧
    ChainFrom (fun x page => freelistPage w x = some page) m.freelistHeadPageId chain ∧
    (0 :: tree ++ chain.map Prod.fst ++ chain.flatMap Prod.snd).Perm (List.range m.nextPageId)

theorem count_freeIds (chain : List (ℕ × List ℕ)) (x : ℕ) :
    (freeIds chain).count x = (chain.map Prod.fst).count x + (chain.flatMap Prod.snd).count x := by
  induction chain with
  | nil => rfl
  | cons e chain ih =>
      obtain ⟨pageId, freed⟩ := e
      have hcons : freeIds ((pageId, freed) :: chain) = pageId :: freed ++ freeIds chain := rfl
      rw [hcons]
      simp only [List.cons_append, List.count_append, List.count_cons, List.map_cons,
        List.flatMap_cons, ih]
      omega

theorem Ready.pagesAccounted (h : Ready R M C w) : ∃ m, PagesAccounted w m := by
  obtain ⟨H, T, hholding⟩ := h.stands
  obtain ⟨m, hm, hfields, hchain⟩ := hholding.quiet.freelist
  refine ⟨m, hm, Tree.pageIds H T, C.chain, fun x => ?_, hchain, ?_⟩
  · rw [hfields.root, hholding.inv.root, hholding.shows.inTree_iff]
  · rw [List.perm_iff_count]
    intro x
    have hacc := hholding.inv.accounted x
    have hcount := count_freeIds C.chain x
    have hpos : 1 ≤ C.next := (hholding.resting 0).next_pos
    have hrange : (List.range m.nextPageId).count x = if x < C.next then 1 else 0 := by
      simp only [hfields.next, List.nodup_range.count, List.mem_range]
    rw [hrange]
    simp only [List.cons_append, List.count_cons, List.count_append]
    by_cases hx : x = 0
    · subst hx
      rw [if_neg (by omega)] at hacc
      rw [if_pos (by simp), if_pos (by omega)]
      omega
    · rw [if_neg (by simpa using Ne.symm hx)]
      split at hacc <;> split <;> omega

/-- In every run in which no call raises and no handle is out of step, the page ids are
accounted for after every call. -/
theorem page_accounting (configs : ℕ → Config) (sessions : List HandleSession)
    (last : HandleSession)
    (answers : List (List Answer)) (w : World)
    (hconfigs : ∀ i, minPageSize ≤ (configs i).pageSizeBytes)
    (hstep : InStep (fun _ => none) ∅ ∅ (sessions ++ [last]))
    (h : Reaches configs sessions last answers w) : ∃ m, PagesAccounted w m := by
  obtain ⟨-, P, C, -, hready⟩ := h.ready hconfigs hstep
  exact hready.pagesAccounted

theorem inStep_restart : InStep (fun _ => none) ∅ ∅ [splitSession, readSession] :=
  inStep_of_fresh _ (by decide) fun _ _ => Set.notMem_empty _

theorem page_accounting_restart : ∃ answers w,
    Reaches plainConfigs [splitSession] readSession answers w ∧ ∃ m, PagesAccounted w m := by
  obtain ⟨answers, w, h⟩ := exists_restart
  exact ⟨answers, w, h, page_accounting plainConfigs [splitSession] readSession answers w
    minPageSize_le_plainConfigs inStep_restart h⟩

/-! ## A handle that is out of step -/

/-- The children of the listed pages are listed. -/
def childrenIn (view : ℕ → Option Page) (ids : List ℕ) : Bool :=
  ids.all fun x =>
    match view x with
    | some (.internal p) =>
        decide (p.leftmostChildPageId ∈ ids) && p.slots.all fun s => decide (s.childPageId ∈ ids)
    | _ => true

theorem mem_of_inTree {view : ℕ → Option Page} {root x : ℕ} {ids : List ℕ} (hroot : root ∈ ids)
    (hclosed : childrenIn view ids = true) (hx : InTree view root x) : x ∈ ids := by
  induction hx with
  | root => exact hroot
  | @first y p _ hy ih =>
      have hpage := List.all_eq_true.mp hclosed y ih
      rw [hy] at hpage
      exact of_decide_eq_true (Bool.and_eq_true_iff.mp hpage).1
  | @child y p slot _ hy hslot ih =>
      have hpage := List.all_eq_true.mp hclosed y ih
      rw [hy] at hpage
      exact of_decide_eq_true (List.all_eq_true.mp (Bool.and_eq_true_iff.mp hpage).2 slot hslot)

/-- Two handles that fill a tree of two levels one after the other. -/
def fillSessions : List HandleSession :=
  [⟨0, putCalls [10, 20, 30, 40, 50, 60]⟩, ⟨1, putCalls [61, 62, 63, 64, 65]⟩]

/-- The first handle is opened again. -/
def staleSession : HandleSession := ⟨0, [.get (keyOf 61)]⟩

/-- The handle sees a tree of three pages although there are four, and no freelist. -/
def missesPage (w : World) : Bool :=
  decide (w.pager.metaPage.map (fun m => (m.rootPageId, m.freelistHeadPageId, m.nextPageId)) =
    some (3, 0, 5)) && childrenIn (treePage w) [1, 2, 3]

theorem not_pagesAccounted (h : missesPage w = true) (m : MetaPage) : ¬ PagesAccounted w m := by
  rintro ⟨hm, tree, chain, htree, hchain, hperm⟩
  obtain ⟨hfields, hclosed⟩ := Bool.and_eq_true_iff.mp h
  have hfields := of_decide_eq_true hfields
  rw [hm] at hfields
  simp only [Option.map_some, Option.some.injEq, Prod.mk.injEq] at hfields
  obtain ⟨hroot, hhead, hnext⟩ := hfields
  have hnil : chain = [] := by
    cases chain with
    | nil => rfl
    | cons e chain => exact absurd (hchain.1.symm.trans hhead) hchain.2.1
  have hmem : 4 ∈ 0 :: tree ++ chain.map Prod.fst ++ chain.flatMap Prod.snd :=
    hperm.mem_iff.mpr (by rw [hnext]; decide)
  have hfour : 4 ∈ tree := by simpa [hnil] using hmem
  have hlisted := mem_of_inTree (by rw [hroot]; decide) hclosed
    ((htree 4).mp hfour)
  exact absurd hlisted (by decide)

set_option maxRecDepth 100000 in
/-- A handle that is opened again after another one has split a leaf loses the new page. -/
theorem page_lost_when_stale : ¬ ∀ (configs : ℕ → Config) (sessions : List HandleSession)
    (last : HandleSession) (answers : List (List Answer)) (w : World),
    (∀ i, minPageSize ≤ (configs i).pageSizeBytes) → Reaches configs sessions last answers w →
      ∃ m, PagesAccounted w m := by
  intro hall
  obtain ⟨answers, w, h, htest⟩ := exists_of_reachesWith plainConfigs fillSessions staleSession
    (fun _ w => missesPage w) (by decide +kernel)
  obtain ⟨m, hm⟩ := hall plainConfigs _ _ answers w minPageSize_le_plainConfigs h
  exact not_pagesAccounted htest m hm

end BPTreeDB.Runs
