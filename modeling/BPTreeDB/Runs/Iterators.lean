import BPTreeDB.Model.Iterator
import BPTreeDB.Engine.Fetching
import BPTreeDB.Runs.Handles
import BPTreeDB.Runs.Versions

/-!
# Iterators and concurrent changes

A scan iterator compares the version counter of its handle with the number it had when
`scan()` returned, before and behind every `yield`.  This notices every change behind a
`yield`, and a change before the first `next()` if the range holds a record; the counter
starts again from zero when the handle is closed.
-/

namespace BPTreeDB.Runs

open Lib Eng Codec Lib.Program PageStore Engine DB

variable {R : Regime} {L H : ℕ} {T : Tree H} {C : Content} {M : KeyMap} {w w' : World}
  {it : ScanIterator} {α : Type}

/-! ## One step of an iterator

The first `next()` does what the beginning of a consumed scan does. -/

theorem checkVersion_changed (h : it.versionSnapshot ≠ w.versionCounter) :
    it.checkVersion w = .error .concurrentPageModification w := by
  rw [ScanIterator.checkVersion, run_bind_ok (run_get w), if_pos h]
  rfl

theorem checkVersion_unchanged (h : it.versionSnapshot = w.versionCounter) :
    it.checkVersion w = .ok () w := by
  rw [ScanIterator.checkVersion, run_bind_ok (run_get w), if_neg (not_not_intro h)]
  rfl

theorem scanSlots_cons (stop : Option Bytes) (slot : LeafSlot) (rest : List LeafSlot) :
    BPlusTree.scanSlots stop (slot :: rest) =
      if stop.any (· ≤ slot.key) then ([], false)
      else ((slot.key, slot.value) :: (BPlusTree.scanSlots stop rest).1,
        (BPlusTree.scanSlots stop rest).2) := by
  cases stop with
  | none => rfl
  | some stop =>
      rw [BPlusTree.scanSlots]
      by_cases h : stop ≤ slot.key
      · simp [h]
      · simp [h]

theorem reachedEnd_eq (it : ScanIterator) (key : Bytes) :
    it.reachedEnd key = it.endKeyExclusive.any (· ≤ key) := by
  unfold ScanIterator.reachedEnd
  cases it.endKeyExclusive with
  | none => rfl
  | some stop => rfl

theorem derefLeaf_state {leaf : Ref} {page : LeafPage}
    (h : BPlusTree.derefLeaf leaf w = .ok page w') :
    w' = w := by
  obtain ⟨content, w₁, hderef, hmatch⟩ := bind_eq_ok.mp h
  have hstate : w₁ = w := by
    rw [Eng.deref, run_bind_ok (run_get w)] at hderef
    cases hobject : w.pool.objects[leaf]? with
    | some page =>
        simp only [hobject] at hderef
        cases hderef
        rfl
    | none =>
        simp only [hobject] at hderef
        cases hderef
  cases content with
  | leaf page => cases hmatch; exact hstate
  | internal page => cases hmatch

/-- The walk of an iterator that begins where a consumed scan begins: it ends if the scan
gives no pair, and else it comes to the check before its first `yield`. -/
theorem walk_of_scanLoop (it : ScanIterator) (fuel : ℕ) :
    ∀ (leaf : Ref) (page : LeafPage) (slotIdx : ℕ) (w : World) (pairs : List (Bytes × Bytes))
      (w' : World), BPlusTree.derefLeaf leaf w = .ok page w →
      BPlusTree.scanLoop it.endKeyExclusive fuel page slotIdx w = .ok pairs w' →
        (pairs = [] → ∃ w₁, it.walk fuel leaf page.slots slotIdx w = .ok none w₁) ∧
        (pairs ≠ [] → ∃ w₁ leaf' idx pair, w₁.versionCounter = w.versionCounter ∧
          it.walk fuel leaf page.slots slotIdx w =
            (it.checkVersion >>= fun _ => pure (some (pair, .suspended leaf' idx))) w₁) := by
  induction fuel with
  | zero =>
      intro leaf page slotIdx w pairs w' _ hscan
      cases hscan
  | succ fuel ih =>
      intro leaf page slotIdx w pairs w' hleaf hscan
      rw [BPlusTree.scanLoop] at hscan
      rw [ScanIterator.walk]
      cases hslot : page.slots[slotIdx]? with
      | some slot =>
          have hlt := (List.getElem?_eq_some_iff.mp hslot).1
          have hdrop : page.slots.drop slotIdx = slot :: page.slots.drop (slotIdx + 1) := by
            rw [List.drop_eq_getElem_cons hlt, (List.getElem?_eq_some_iff.mp hslot).2]
          rw [hdrop, scanSlots_cons, ← reachedEnd_eq] at hscan
          dsimp only
          by_cases hend : it.reachedEnd slot.key = true
          · rw [if_pos hend] at hscan ⊢
            cases hscan
            exact ⟨fun _ => ⟨w, rfl⟩, fun h => absurd rfl h⟩
          · rw [if_neg hend] at hscan ⊢
            -- The scan yields this record, whatever it does behind it.
            have hpairs : pairs ≠ [] := by
              dsimp only at hscan
              split at hscan
              · obtain ⟨next, w₁, -, hscan⟩ := bind_eq_ok.mp hscan
                obtain ⟨nextPage, w₂, -, hscan⟩ := bind_eq_ok.mp hscan
                obtain ⟨rest, w₃, -, hscan⟩ := bind_eq_ok.mp hscan
                cases hscan
                simp
              · cases hscan
                simp
            exact ⟨fun h => absurd h hpairs, fun _ => ⟨w, leaf, slotIdx + 1, _, rfl, rfl⟩⟩
      | none =>
          have hdrop : page.slots.drop slotIdx = [] :=
            List.drop_eq_nil_of_le (List.getElem?_eq_none_iff.mp hslot)
          rw [hdrop] at hscan
          dsimp only [BPlusTree.scanSlots] at hscan ⊢
          rw [run_bind_ok hleaf]
          by_cases hright : 0 < page.rightSiblingPageId
          · rw [if_pos (show true = true ∧ 0 < page.rightSiblingPageId from ⟨rfl, hright⟩)] at hscan
            rw [if_pos hright]
            -- Both go on in the right sibling.
            obtain ⟨next, w₁, hget, hscan⟩ := bind_eq_ok.mp hscan
            obtain ⟨nextPage, w₂, hderef, hscan⟩ := bind_eq_ok.mp hscan
            obtain ⟨rest, w₃, hloop, hscan⟩ := bind_eq_ok.mp hscan
            cases hscan
            obtain rfl : w₂ = w₁ := derefLeaf_state hderef
            rw [run_bind_ok hget, run_bind_ok hderef]
            obtain ⟨hnil, hcons⟩ := ih next nextPage 0 w₂ rest w' hderef hloop
            refine ⟨hnil, fun hpairs => ?_⟩
            obtain ⟨w₄, leaf', idx, pair, hcounter, hwalk⟩ := hcons hpairs
            exact ⟨w₄, leaf', idx, pair,
              hcounter.trans (NoSteal.versionCounter ((noSteal_get _).ok hget)), hwalk⟩
          · rw [if_neg fun h => hright h.2] at hscan
            rw [if_neg hright]
            cases hscan
            exact ⟨fun _ => ⟨w, rfl⟩, fun h => absurd rfl h⟩

theorem walkFuel_eq {m : MetaPage} (h : Pager.getMeta w = .ok m w') :
    ScanIterator.walkFuel w = m.nextPageId + 1 ∧ w' = w := by
  rw [Pager.getMeta, run_bind_ok (run_get w)] at h
  unfold ScanIterator.walkFuel
  cases hmeta : w.pager.metaPage with
  | none =>
      simp only [hmeta] at h
      cases h
  | some m' =>
      simp only [hmeta] at h
      cases h
      exact ⟨rfl, rfl⟩

/-- The first `next()`, where a consumed scan would give `pairs`. -/
theorem next_created (hcreated : it.generator = .created) {pairs : List (Bytes × Bytes)}
    (hscan : BPlusTree.scan it.startKeyInclusive it.endKeyExclusive w = .ok pairs w')
    (walked : List LeafSlot) :
    (pairs = [] → ∃ w₁, it.next walked w = .ok none w₁) ∧
      (pairs ≠ [] → ∃ w₁ leaf idx pair, w₁.versionCounter = w.versionCounter ∧
        it.next walked w =
          (it.checkVersion >>= fun _ => pure (some (pair, .suspended leaf idx))) w₁) := by
  obtain ⟨result, w₁, hfind, hscan⟩ := bind_eq_ok.mp hscan
  obtain ⟨page, w₂, hderef, hscan⟩ := bind_eq_ok.mp hscan
  obtain ⟨m, w₃, hmeta, hloop⟩ := bind_eq_ok.mp hscan
  obtain rfl : w₂ = w₁ := derefLeaf_state hderef
  obtain ⟨hfuel, rfl⟩ := walkFuel_eq hmeta
  have hnext : it.next walked w = it.walk (m.nextPageId + 1) result.leafPage page.slots
      (BPlusTree.bisectLeft (page.slots.map (·.key)) (it.startKeyInclusive.getD [])) w₃ := by
    rw [ScanIterator.next, hcreated]
    dsimp only
    rw [run_bind_ok hfind, run_bind_ok hderef, run_bind_ok (run_get w₃), hfuel]
  obtain ⟨hnil, hcons⟩ := walk_of_scanLoop it _ _ _ _ _ _ _ hderef hloop
  rw [hnext]
  refine ⟨hnil, fun hpairs => ?_⟩
  obtain ⟨w₄, leaf, idx, pair, hcounter, hwalk⟩ := hcons hpairs
  exact ⟨w₄, leaf, idx, pair,
    hcounter.trans (NoSteal.versionCounter ((noSteal_steps.findLeaf _).ok hfind)), hwalk⟩

/-- Behind a `yield` the version is compared before anything else. -/
theorem next_suspended {leaf : Ref} {idx : ℕ} (hsuspended : it.generator = .suspended leaf idx)
    (hversion : it.versionSnapshot ≠ w.versionCounter) (walked : List LeafSlot) :
    it.next walked w = .error .concurrentPageModification w := by
  rw [ScanIterator.next, hsuspended]
  exact run_bind_error (checkVersion_changed hversion)

/-! ## On a tree that is held -/

/-- The range of an iterator holds a record of the map. -/
def ScanRange (it : ScanIterator) (M : KeyMap) : Prop :=
  ∃ key value, M key = some value ∧ it.startKeyInclusive.getD [] ≤ key ∧
    it.endKeyExclusive.all (key < ·)

/-- The handle holds a tree with the records of `M`, and its pool can give every page of the
tree: it has a free or a clean page, or it caches all pages of the tree. -/
def Readable (M : KeyMap) (w : World) : Prop :=
  ∃ (R : Regime) (L : ℕ) (C : Content) (H : ℕ) (T : Tree H), Holding R L M C T w ∧
    (Engine.Roomy w ∨ ∀ x, (C.pages x).isSome → x ∈ w.pool.cache.map Prod.fst)

/-- The first `next()` on a tree that can be read: it ends the iteration if the range is
empty, and else it compares the version. -/
theorem next_created_of_readable (hcreated : it.generator = .created) (h : Readable M w)
    (walked : List LeafSlot) :
    (¬ ScanRange it M → ∃ w₁, it.next walked w = .ok none w₁) ∧
      (ScanRange it M → ∃ w₁ leaf idx pair, w₁.versionCounter = w.versionCounter ∧
        it.next walked w =
          (it.checkVersion >>= fun _ => pure (some (pair, .suspended leaf idx))) w₁) := by
  obtain ⟨R, L, C, H, T, h, hroom⟩ := h
  obtain ⟨w', hscan⟩ := h.scan_supplied (h.quiet.supplied hroom) it.startKeyInclusive
    it.endKeyExclusive
  have hrange : ScanRange it M ↔ inRange (it.startKeyInclusive.getD []) it.endKeyExclusive
      (entriesOf (Tree.items H T)) ≠ [] := by
    constructor
    · intro hrange hnil
      obtain ⟨key, value, hkey⟩ := hrange
      have hmem := (mem_inRange h.records).mpr hkey
      rw [hnil] at hmem
      cases hmem
    · intro hne
      obtain ⟨⟨key, value⟩, hmem⟩ := List.exists_mem_of_ne_nil _ hne
      exact ⟨key, value, (mem_inRange h.records).mp hmem⟩
  obtain ⟨hnil, hcons⟩ := next_created hcreated hscan walked
  rw [hrange]
  exact ⟨fun hempty => hnil (not_not.mp hempty), hcons⟩

/-! ## Histories of a handle -/

/-- An iterator, and what happened since `scan()` returned it: `changed` says that a `put`
returned or a `delete` returned `True`, and `closed` that the handle was closed. -/
structure Watched where
  iterator : ScanIterator
  changed : Bool
  closed : Bool

/-- A handle with the iterators that its callers hold. -/
structure Session where
  world : World
  iterators : List Watched

/-- A call on a handle or on one of its iterators. -/
inductive HandleCall where
  | put (key value : PyArg)
  | delete (key : PyArg)
  | get (key : PyArg)
  | checkpoint
  | close
  | open_
  | scan (start stop : Option PyArg)
  | next (i : ℕ) (walked : List LeafSlot)

def Session.markChanged (s : Session) : Session :=
  { s with iterators := s.iterators.map fun x => { x with changed := true } }

def Session.markClosed (s : Session) : Session :=
  { s with iterators := s.iterators.map fun x => { x with closed := true } }

/-- An iterator after `next()`: a generator that ended or raised stays finished. -/
def Watched.resume (x : Watched) : EStateM.Result Err World ScanIterator.Step → Watched
  | .ok (some (_, generator)) _ => { x with iterator := { x.iterator with generator } }
  | _ => { x with iterator := { x.iterator with generator := .finished } }

/-- The session after a call; the caller carries on after an exception. -/
def HandleCall.step (c : HandleCall) (s : Session) : Session :=
  match c with
  | .put key value =>
      match DB.put key value s.world with
      | .ok _ w => Session.markChanged ⟨w, s.iterators⟩
      | .error _ w => ⟨w, s.iterators⟩
  | .delete key =>
      match DB.delete key s.world with
      | .ok true w => Session.markChanged ⟨w, s.iterators⟩
      | .ok false w => ⟨w, s.iterators⟩
      | .error _ w => ⟨w, s.iterators⟩
  | .get key => ⟨final (DB.get key s.world), s.iterators⟩
  | .checkpoint => ⟨final (DB.checkpoint s.world), s.iterators⟩
  | .close => Session.markClosed ⟨final (DB.close s.world), s.iterators⟩
  | .open_ => ⟨final (DB.open_ s.world), s.iterators⟩
  | .scan start stop =>
      match DB.scanIterator start stop s.world with
      | .ok it w => ⟨w, s.iterators ++ [⟨it, false, false⟩]⟩
      | .error _ w => ⟨w, s.iterators⟩
  | .next i walked =>
      match s.iterators[i]? with
      | none => s
      | some x =>
          let r := x.iterator.next walked s.world
          ⟨final r, s.iterators.set i (x.resume r)⟩

/-- The session after a history of calls. -/
def history (calls : List HandleCall) (s : Session) : Session :=
  calls.foldl (fun s c => c.step s) s

/-- While the handle is not closed, the counter is ahead of the snapshot of every iterator
that was created before a change. -/
def Counted (s : Session) : Prop :=
  ∀ x ∈ s.iterators, x.closed = false →
    x.iterator.versionSnapshot ≤ s.world.versionCounter ∧
      (x.changed = true → x.iterator.versionSnapshot < s.world.versionCounter)

theorem Counted.advance {s : Session} (h : Counted s) (hw : Advances s.world w) :
    Counted ⟨w, s.iterators⟩ := by
  intro x hx hclosed
  obtain ⟨hle, hlt⟩ := h x hx hclosed
  exact ⟨hle.trans hw, fun hchanged => (hlt hchanged).trans_le hw⟩

theorem Counted.change {s : Session} (h : Counted s)
    (hw : s.world.versionCounter < w.versionCounter) :
    Counted (Session.markChanged ⟨w, s.iterators⟩) := by
  intro x hx hclosed
  obtain ⟨y, hy, rfl⟩ := List.mem_map.mp hx
  have hle := (h y hy hclosed).1
  exact ⟨(hle.trans_lt hw).le, fun _ => hle.trans_lt hw⟩

theorem counted_markClosed (s : Session) : Counted s.markClosed := by
  intro x hx hclosed
  obtain ⟨y, hy, rfl⟩ := List.mem_map.mp hx
  cases hclosed

theorem resume_snapshot (x : Watched) (r : EStateM.Result Err World ScanIterator.Step) :
    (x.resume r).iterator.versionSnapshot = x.iterator.versionSnapshot ∧
      (x.resume r).changed = x.changed ∧ (x.resume r).closed = x.closed := by
  unfold Watched.resume
  split
  · exact ⟨rfl, rfl, rfl⟩
  · exact ⟨rfl, rfl, rfl⟩

theorem keeps_checkVersion {R : World → World → Prop} [Std.Refl R] [IsTrans World R]
    (it : ScanIterator) : Keeps R it.checkVersion := by
  refine keeps_get.bind fun w => ?_
  split
  · exact keeps_throw _
  · exact keeps_pure _

/-- An iterator takes the steps of a tree operation. -/
theorem keeps_walk {R : World → World → Prop} [Std.Refl R] [IsTrans World R] (h : TreeSteps R)
    (it : ScanIterator) (fuel : ℕ) : ∀ leaf slots idx, Keeps R (it.walk fuel leaf slots idx) := by
  induction fuel with
  | zero => exact fun _ _ _ => keeps_throw _
  | succ fuel ih =>
      intro leaf slots idx
      rw [ScanIterator.walk]
      split
      · split
        · exact keeps_pure _
        · exact (keeps_checkVersion it).bind fun _ => keeps_pure _
      · refine (keeps_derefLeaf _).bind fun page => ?_
        split
        · exact (h.get _).bind fun _ => (keeps_derefLeaf _).bind fun _ => ih _ _ _
        · exact keeps_pure _

theorem keeps_next {R : World → World → Prop} [Std.Refl R] [IsTrans World R] (h : TreeSteps R)
    (it : ScanIterator) (walked : List LeafSlot) : Keeps R (it.next walked) := by
  unfold ScanIterator.next
  split
  · refine (h.findLeaf _).bind fun _ => (keeps_derefLeaf _).bind fun _ => ?_
    exact keeps_get.bind fun _ => keeps_walk h _ _ _ _ _
  · exact (keeps_checkVersion it).bind fun _ => keeps_get.bind fun _ => keeps_walk h _ _ _ _ _
  · exact keeps_pure _

theorem keeps_scanIterator {R : World → World → Prop} [Std.Refl R] [IsTrans World R]
    (start stop : Option PyArg) : Keeps R (DB.scanIterator start stop) :=
  keeps_checkIfOpened.bind fun _ => (keeps_ensureBound start _).bind fun _ =>
    (keeps_ensureBound stop _).bind fun _ => keeps_get.bind fun _ => keeps_pure _

theorem scanIterator_version {start stop : Option PyArg}
    (h : DB.scanIterator start stop w = .ok it w') :
    SameVersion w w' ∧ it.versionSnapshot = w'.versionCounter := by
  refine ⟨(keeps_scanIterator start stop).ok h, ?_⟩
  obtain ⟨_, w₁, -, h⟩ := bind_eq_ok.mp h
  obtain ⟨_, w₂, -, h⟩ := bind_eq_ok.mp h
  obtain ⟨_, w₃, -, h⟩ := bind_eq_ok.mp h
  cases h
  rfl

theorem Counted.step {s : Session} (h : Counted s) (c : HandleCall) : Counted (c.step s) := by
  cases c with
  | put key value =>
      dsimp only [HandleCall.step]
      cases hput : DB.put key value s.world with
      | ok a w => exact h.change (put_version hput)
      | error e w => exact h.advance ((advances_steps.put advances_count key value).error hput)
  | delete key =>
      dsimp only [HandleCall.step]
      cases hdelete : DB.delete key s.world with
      | ok deleted w =>
          cases deleted with
          | true => exact h.change (delete_version hdelete)
          | false => exact h.advance ((advances_steps.dbDelete advances_count key).ok hdelete)
      | error e w => exact h.advance ((advances_steps.dbDelete advances_count key).error hdelete)
  | get key =>
      refine h.advance (SameVersion.advances ?_)
      refine (keeps_checkIfOpened.bind fun _ => ?_ : Keeps SameVersion (DB.get key)) s.world
      exact (keeps_ensureBytesType key _).bind fun key =>
        sameVersion_steps.search key
  | checkpoint => exact h.advance (SameVersion.advances (sameVersion_steps.checkpoint s.world))
  | close => exact counted_markClosed _
  | open_ => exact h.advance (SameVersion.advances (sameVersion_open s.world))
  | scan start stop =>
      dsimp only [HandleCall.step]
      cases hscan : DB.scanIterator start stop s.world with
      | ok it w =>
          obtain ⟨hsame, hsnapshot⟩ := scanIterator_version hscan
          intro x hx hclosed
          rcases List.mem_append.mp hx with hx | hx
          · exact h.advance (SameVersion.advances hsame) x hx hclosed
          · obtain rfl := List.mem_singleton.mp hx
            -- A new iterator takes the counter as its snapshot, and has missed nothing.
            exact ⟨le_of_eq hsnapshot, fun hchanged => by cases hchanged⟩
      | error e w =>
          exact h.advance (SameVersion.advances ((keeps_scanIterator start stop).error hscan))
  | next i walked =>
      dsimp only [HandleCall.step]
      cases hi : s.iterators[i]? with
      | none => exact h
      | some x =>
          have hsame := keeps_next sameVersion_steps.toTreeSteps x.iterator walked s.world
          obtain ⟨hsnapshot, hchanged, hclosed⟩ :=
            resume_snapshot x (x.iterator.next walked s.world)
          intro y hy hy'
          -- Its snapshot and its mark stay what they were; only the generator moves.
          rcases List.mem_or_eq_of_mem_set hy with hy | rfl
          · exact h.advance (SameVersion.advances hsame) y hy hy'
          · rw [hclosed] at hy'
            rw [hsnapshot, hchanged]
            exact h.advance (SameVersion.advances hsame) x (List.mem_of_getElem? hi) hy'

/-- After every history, the counter is ahead of the iterators that missed a change. -/
theorem counted_history (calls : List HandleCall) {s : Session} (h : Counted s) :
    Counted (history calls s) := by
  induction calls generalizing s with
  | nil => exact h
  | cons c calls ih => exact ih (h.step c)

/-! ## Which changes an iterator notices -/

/-- Where the counter has its old value, `next()` does not raise the exception. -/
theorem upholds_next (it : ScanIterator) (walked : List LeafSlot) :
    Upholds (fun w => w.versionCounter = it.versionSnapshot) (· ≠ .concurrentPageModification)
      (it.next walked) := by
  have hread := readInvariant_version it.versionSnapshot
  have hcheck : Upholds (fun w : World => w.versionCounter = it.versionSnapshot)
      (· ≠ .concurrentPageModification) it.checkVersion := by
    intro w hw
    rw [checkVersion_unchanged hw.symm]
    constructor
    · intro a w' h
      cases h
      exact hw
    · intro e w' h
      cases h
  have hwalk : ∀ fuel leaf slots idx,
      Upholds (fun w => w.versionCounter = it.versionSnapshot) (· ≠ .concurrentPageModification)
        (it.walk fuel leaf slots idx) := by
    intro fuel
    induction fuel with
    | zero => exact fun _ _ _ => upholds_throw (by simp)
    | succ fuel ih =>
        intro leaf slots idx
        rw [ScanIterator.walk]
        split
        · split
          · exact upholds_pure _
          · exact hcheck.bind fun _ => upholds_pure _
        · refine (hread.derefLeaf _).bind fun page => ?_
          split
          · exact (hread.fetch _).bind fun _ => (hread.derefLeaf _).bind fun _ => ih _ _ _
          · exact upholds_pure _
  unfold ScanIterator.next
  split
  · exact (hread.findLeaf _).bind fun _ => (hread.derefLeaf _).bind fun _ =>
      upholds_get.bind fun _ => hwalk _ _ _ _
  · exact hcheck.bind fun _ => upholds_get.bind fun _ => hwalk _ _ _ _
  · exact upholds_pure _

/-- An iterator can notice a change: the counter was not reset to the number of its snapshot,
and if this is its first step, the tree can be read and holds a record in its range. -/
def Noticeable (s : Session) (x : Watched) : Prop :=
  (x.closed = true → x.iterator.versionSnapshot ≠ s.world.versionCounter) ∧
    (x.iterator.generator = .created →
      ∃ M, Readable M s.world ∧ ScanRange x.iterator M)

/-- A new handle without iterators. -/
def newSession (config : Config) (disk : Disk) : Session :=
  ⟨DB.handle config disk none, []⟩

/-- In every history of a handle, an iterator that missed a change raises at its next step if
the change is noticeable.  Where the tree can be read, it raises only then. -/
theorem scan_notices_change (config : Config) (disk : Disk) (calls : List HandleCall) (i : ℕ)
    (x : Watched) (walked : List LeafSlot)
    (hx : (history calls (newSession config disk)).iterators[i]? = some x)
    (hchanged : x.changed = true) (hlive : x.iterator.generator ≠ .finished) :
    (Noticeable (history calls (newSession config disk)) x →
      ∃ w', x.iterator.next walked (history calls (newSession config disk)).world =
        .error .concurrentPageModification w') ∧
    ((x.iterator.generator = .created →
        ∃ M, Readable M (history calls (newSession config disk)).world) →
      (∃ w', x.iterator.next walked (history calls (newSession config disk)).world =
        .error .concurrentPageModification w') →
      Noticeable (history calls (newSession config disk)) x) := by
  have hcounted : Counted (history calls (newSession config disk)) :=
    counted_history calls (by simp [Counted, newSession])
  generalize history calls (newSession config disk) = s at *
  have hlater : x.closed = false → x.iterator.versionSnapshot ≠ s.world.versionCounter :=
    fun hopen => ne_of_lt ((hcounted x (List.mem_of_getElem? hx) hopen).2 hchanged)
  constructor
  · rintro ⟨hreset, hrange⟩
    have hversion : x.iterator.versionSnapshot ≠ s.world.versionCounter := by
      cases hclosed : x.closed with
      | true => exact hreset hclosed
      | false => exact hlater hclosed
    cases hgenerator : x.iterator.generator with
    | created =>
        obtain ⟨M, hreadable, hrecord⟩ := hrange hgenerator
        obtain ⟨w₁, leaf, idx, pair, hcounter, hnext⟩ :=
          (next_created_of_readable hgenerator hreadable walked).2 hrecord
        refine ⟨w₁, ?_⟩
        rw [hnext]
        exact run_bind_error (checkVersion_changed (by rw [hcounter]; exact hversion))
    | suspended leaf idx => exact ⟨s.world, next_suspended hgenerator hversion walked⟩
    | finished => exact absurd hgenerator hlive
  · rintro hholds ⟨w', hnext⟩
    refine ⟨fun _ hsame => ?_, fun hcreated => ?_⟩
    · exact (upholds_next x.iterator walked s.world hsame.symm).2 _ _ hnext rfl
    · obtain ⟨M, hreadable⟩ := hholds hcreated
      refine ⟨M, hreadable, ?_⟩
      by_contra hempty
      obtain ⟨w₁, hend⟩ := (next_created_of_readable hcreated hreadable walked).1 hempty
      rw [hnext] at hend
      cases hend

/-- The first iterator of a session passes a test. -/
def firstIterator (test : Watched → World → Bool) (s : Session) : Bool :=
  match s.iterators[0]? with
  | none => false
  | some x => test x s.world

theorem exists_of_firstIterator (test : Watched → World → Bool) {s : Session}
    (h : firstIterator test s = true) : ∃ x, s.iterators[0]? = some x ∧ test x s.world = true := by
  unfold firstIterator at h
  cases hx : s.iterators[0]? with
  | none =>
      rw [hx] at h
      cases h
  | some x =>
      rw [hx] at h
      exact ⟨x, rfl, h⟩

/-- A handle on an empty directory, with pages of 256 bytes and no automatic checkpoints. -/
def emptySession : Session :=
  newSession ⟨256, 8, 1000, fun _ _ => false⟩ ⟨none, none, none, none⟩

/-- Two histories with a `put` behind a `scan`: before the first `next()`, and behind it. -/
def unstartedCalls : List HandleCall :=
  [.open_, .put (.bytes [1]) (.bytes [2]), .scan none none, .put (.bytes [3]) (.bytes [4])]

def startedCalls : List HandleCall :=
  [.open_, .put (.bytes [1]) (.bytes [2]), .scan none none, .next 0 [],
    .put (.bytes [3]) (.bytes [4])]

theorem world_step_open {s : Session} (h : DB.open_ s.world = .ok () w) :
    (HandleCall.step .open_ s).world = w := by
  simp only [HandleCall.step, h, final]

theorem world_step_put {s : Session} {key value : PyArg} (h : DB.put key value s.world = .ok () w) :
    (HandleCall.step (.put key value) s).world = w := by
  simp only [HandleCall.step, h, Session.markChanged]

/-- `scan()` only makes an iterator. -/
theorem world_step_scan (s : Session) (start stop : Option PyArg) :
    (HandleCall.step (.scan start stop) s).world = s.world := by
  have hkeep := keeps_scanIterator (R := Eq) start stop s.world
  dsimp only [HandleCall.step]
  cases hscan : DB.scanIterator start stop s.world with
  | ok it w =>
      rw [hscan] at hkeep
      exact hkeep.symm
  | error e w =>
      rw [hscan] at hkeep
      exact hkeep.symm

/-- A test of the worlds after an open and two puts. -/
def afterPuts (w : World) (test : World → World → World → Bool) : Bool :=
  match DB.open_ w with
  | .error _ _ => false
  | .ok _ w₁ =>
      match DB.put (.bytes [1]) (.bytes [2]) w₁ with
      | .error _ _ => false
      | .ok _ w₂ =>
          match DB.put (.bytes [3]) (.bytes [4]) w₂ with
          | .error _ _ => false
          | .ok _ w₃ => test w₁ w₂ w₃

theorem exists_of_afterPuts (w : World) (test : World → World → World → Bool)
    (h : afterPuts w test = true) : ∃ w₁ w₂ w₃, DB.open_ w = .ok () w₁ ∧
      DB.put (.bytes [1]) (.bytes [2]) w₁ = .ok () w₂ ∧
      DB.put (.bytes [3]) (.bytes [4]) w₂ = .ok () w₃ ∧ test w₁ w₂ w₃ = true := by
  unfold afterPuts at h
  cases hopen : DB.open_ w with
  | error e w₁ => simp [hopen] at h
  | ok a w₁ =>
      simp only [hopen] at h
      cases hfirst : DB.put (.bytes [1]) (.bytes [2]) w₁ with
      | error e w₂ => simp [hfirst] at h
      | ok b w₂ =>
          simp only [hfirst] at h
          cases hsecond : DB.put (.bytes [3]) (.bytes [4]) w₂ with
          | error e w₃ => simp [hsecond] at h
          | ok c w₃ =>
              simp only [hsecond] at h
              exact ⟨w₁, w₂, w₃, rfl, hfirst, hsecond, h⟩

theorem world_of_unstartedCalls {s : Session} {w₁ w₂ w₃ : World}
    (hopen : DB.open_ s.world = .ok () w₁)
    (hfirst : DB.put (.bytes [1]) (.bytes [2]) w₁ = .ok () w₂)
    (hsecond : DB.put (.bytes [3]) (.bytes [4]) w₂ = .ok () w₃) :
    (history unstartedCalls s).world = w₃ := by
  apply world_step_put
  rw [world_step_scan, world_step_put (w := w₂)]
  · exact hsecond
  · rw [world_step_open hopen]
    exact hfirst

set_option maxRecDepth 100000 in
/-- The handle of the first history holds both records, and its pool has free pages. -/
theorem readable_unstartedCalls : ∃ M, M [1] = some [2] ∧
    Readable M (history unstartedCalls emptySession).world := by
  obtain ⟨w₁, w₂, w₃, hopen, hfirst, hsecond, hroom⟩ := exists_of_afterPuts
    emptySession.world (fun _ _ w => decide (w.pool.cache.length < w.pool.capacityPages))
    (by decide +kernel)
  obtain ⟨hR, hopened, hready⟩ := ready_of_new (C := emptyContent 256) (w := emptySession.world)
    rfl ⟨rfl, rfl, rfl, by decide, rfl, cleanPool_nil rfl⟩ rfl hopen
  obtain ⟨⟨C₂, hready₂⟩, hopened₂⟩ := hready.put hR hfirst
  obtain ⟨⟨C₃, hready₃⟩, -⟩ := hready₂.put hR hsecond
  obtain ⟨H, T, hholding⟩ := hready₃.stands
  have hworld := world_of_unstartedCalls hopen hfirst hsecond
  generalize (history unstartedCalls emptySession).world = w at hworld ⊢
  obtain rfl := hworld
  exact ⟨_, rfl, _, _, C₃, H, T, hholding, .inl fun _ => .inl (of_decide_eq_true hroom)⟩

set_option maxRecDepth 100000 in
theorem scan_notices_put :
    (∃ x w', (history unstartedCalls emptySession).iterators[0]? = some x ∧
      x.iterator.generator = .created ∧
      x.iterator.next [] (history unstartedCalls emptySession).world =
        .error .concurrentPageModification w') ∧
    ∃ x w', (history startedCalls emptySession).iterators[0]? = some x ∧
      x.iterator.generator ≠ .created ∧
      x.iterator.next [] (history startedCalls emptySession).world =
        .error .concurrentPageModification w' := by
  constructor
  · obtain ⟨x, hx, htest⟩ := exists_of_firstIterator (s := history unstartedCalls emptySession)
      (fun x _ => x.changed && !x.closed && decide (x.iterator = ⟨1, none, none, .created⟩))
      (by decide +kernel)
    simp only [Bool.and_eq_true, Bool.not_eq_true', decide_eq_true_eq] at htest
    obtain ⟨⟨hchanged, hclosed⟩, hiterator⟩ := htest
    obtain ⟨M, hM, hreadable⟩ := readable_unstartedCalls
    have hnoticeable : Noticeable (history unstartedCalls emptySession) x := by
      refine ⟨fun h => absurd (hclosed.symm.trans h) Bool.false_ne_true,
        fun _ => ⟨M, hreadable, ?_⟩⟩
      rw [hiterator]
      exact ⟨[1], [2], hM, by decide, rfl⟩
    have hcreated : x.iterator.generator = .created := by rw [hiterator]
    obtain ⟨w', hnext⟩ := (scan_notices_change ⟨256, 8, 1000, fun _ _ => false⟩
      ⟨none, none, none, none⟩ unstartedCalls 0 x [] hx hchanged
      (by rw [hcreated]; simp)).1 hnoticeable
    exact ⟨x, w', hx, hcreated, hnext⟩
  · obtain ⟨x, hx, htest⟩ := exists_of_firstIterator (s := history startedCalls emptySession)
      (fun x _ => x.changed && !x.closed &&
        decide (x.iterator.generator ≠ .created ∧ x.iterator.generator ≠ .finished))
      (by decide +kernel)
    simp only [Bool.and_eq_true, Bool.not_eq_true', decide_eq_true_eq] at htest
    obtain ⟨⟨hchanged, hclosed⟩, hcreated, hlive⟩ := htest
    have hnoticeable : Noticeable (history startedCalls emptySession) x :=
      ⟨fun h => absurd (hclosed.symm.trans h) Bool.false_ne_true, fun h => absurd h hcreated⟩
    obtain ⟨w', hnext⟩ := (scan_notices_change ⟨256, 8, 1000, fun _ _ => false⟩
      ⟨none, none, none, none⟩ startedCalls 0 x [] hx hchanged hlive).1 hnoticeable
    exact ⟨x, w', hx, hcreated, hnext⟩

/-- A call of `next()` that raised `StopIteration`. -/
def exhausted {α : Type} : EStateM.Result Err World (Option α) → Bool
  | .ok none _ => true
  | _ => false

set_option maxRecDepth 100000 in
/-- A `put` outside the range of an iterator that was not started goes unnoticed. -/
theorem scan_misses_put : ∃ x w', (history [.open_, .scan (some (.bytes [5])) (some (.bytes [6])),
      .put (.bytes [1]) (.bytes [2])] emptySession).iterators[0]? = some x ∧
    x.changed = true ∧ x.iterator.generator ≠ .finished ∧
    x.iterator.next [] (history [.open_, .scan (some (.bytes [5])) (some (.bytes [6])),
      .put (.bytes [1]) (.bytes [2])] emptySession).world = .ok none w' := by
  obtain ⟨x, hx, htest⟩ := exists_of_firstIterator (s := history [.open_,
      .scan (some (.bytes [5])) (some (.bytes [6])), .put (.bytes [1]) (.bytes [2])] emptySession)
    (fun x w => x.changed && decide (x.iterator.generator ≠ .finished) &&
      exhausted (x.iterator.next [] w)) (by decide +kernel)
  simp only [Bool.and_eq_true, decide_eq_true_eq] at htest
  obtain ⟨⟨hchanged, hlive⟩, hnext⟩ := htest
  generalize (history [.open_, .scan (some (.bytes [5])) (some (.bytes [6])),
    .put (.bytes [1]) (.bytes [2])] emptySession) = s at *
  cases hresult : x.iterator.next [] s.world with
  | ok a w' =>
      rw [hresult] at hnext
      cases a with
      | none => exact ⟨x, w', hx, hchanged, hlive, hresult⟩
      | some step => cases hnext
  | error e w' =>
      rw [hresult] at hnext
      cases hnext

end BPTreeDB.Runs
