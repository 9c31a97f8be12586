import BPTreeDB.Engine.Fetching
import BPTreeDB.Runs.Iterators
import BPTreeDB.Runs.Handles
import BPTreeDB.Runs.Lives

/-!
# What a scan iterator yields

Between two `next()` calls of an iterator other calls may read, write pages back, evict
them, or change the tree.  A change is seen at the next `yield`; without one, the leaf object
that the iterator stands at is still a leaf of the tree that the process holds.  So the pairs
that remain for the iterator are a suffix of the range it was created for, and every `next()`
takes the first of them.
-/

namespace BPTreeDB.Runs

open Lib Eng Codec Lib.Program Lib.Transitions PageStore Engine DB

variable {R : Regime} {L H P : ℕ} {T : Tree H} {C : Content} {M : KeyMap} {w w' : World}
  {it : ScanIterator} {l : Leaf} {back : List Leaf} {leaf : Ref} {rest : List (Bytes × Bytes)}

/-! ## The pairs that remain -/

/-- The pairs of a range from a slot of a leaf on. -/
def pairsFrom (stop : Option Bytes) (l : Leaf) (back : List Leaf) (idx : ℕ) :
    List (Bytes × Bytes) :=
  upTo stop (l.slots.drop idx ++ back.flatMap Leaf.slots)

/-- The pairs that an iterator has not yielded yet, on the tree that it started with. -/
def Remaining (C : Content) (T : Tree H) (w : World) (it : ScanIterator)
    (rest : List (Bytes × Bytes)) : Prop :=
  match it.generator with
  | .created => rest =
      inRange (it.startKeyInclusive.getD []) it.endKeyExclusive (entriesOf (Tree.items H T))
  | .suspended leaf idx => ∃ l back, AtLeaf C T l back leaf w ∧
      rest = pairsFrom it.endKeyExclusive l back idx
  | .finished => rest = []

/-- What one `next()` may do where `rest` remains: it takes the first pair, it ends where
nothing is left, or it raises. -/
def StepSpec (C : Content) (T : Tree H) (it : ScanIterator) (rest : List (Bytes × Bytes))
    (w : World) : EStateM.Result Err World ScanIterator.Step → Prop
  | .ok none w' => Reads C w w' ∧ rest = []
  | .ok (some (pair, generator)) w' => Reads C w w' ∧ it.versionSnapshot = w.versionCounter ∧
      ∃ rest', rest = pair :: rest' ∧ Remaining C T w' { it with generator } rest'
  | .error e w' => Reads C w w' ∧ (e = .bufferPoolOverflow ∨
      e = .concurrentPageModification ∧ it.versionSnapshot ≠ w.versionCounter)

theorem pairsFrom_slot {stop : Option Bytes} {idx : ℕ} {slot : LeafSlot}
    (hslot : l.slots[idx]? = some slot) : pairsFrom stop l back idx =
      if stop.any (· ≤ slot.key) then [] else
        (slot.key, slot.value) :: pairsFrom stop l back (idx + 1) := by
  obtain ⟨hlt, hget⟩ := List.getElem?_eq_some_iff.mp hslot
  unfold pairsFrom upTo
  rw [List.drop_eq_getElem_cons hlt, hget, List.cons_append]
  cases stop with
  | none => simp
  | some stop =>
      by_cases hle : stop ≤ slot.key
      · simp [hle, not_lt.mpr hle]
      · simp [hle, not_le.mp hle]

theorem pairsFrom_end {stop : Option Bytes} {idx : ℕ} (hslot : l.slots[idx]? = none) :
    pairsFrom stop l back idx = upTo stop (back.flatMap Leaf.slots) := by
  rw [pairsFrom, List.drop_eq_nil_of_le (List.getElem?_eq_none_iff.mp hslot), List.nil_append]

theorem StepSpec.of_reads {w₁ : World} {r : EStateM.Result Err World ScanIterator.Step}
    (h : StepSpec C T it rest w₁ r) (hreads : Reads C w w₁)
    (hversion : w₁.versionCounter = w.versionCounter) : StepSpec C T it rest w r := by
  unfold StepSpec at h ⊢
  rw [← hversion]
  split at h
  · exact ⟨hreads.trans h.1, h.2⟩
  · exact ⟨hreads.trans h.1, h.2⟩
  · exact ⟨hreads.trans h.1, h.2⟩

/-- The walk where the leaf has another slot. -/
theorem stepSpec_slot (hq : Quiet w C) (hleaf : AtLeaf C T l back leaf w) {idx fuel : ℕ}
    {slot : LeafSlot} (hslot : l.slots[idx]? = some slot) :
    StepSpec C T it (pairsFrom it.endKeyExclusive l back idx) w
      (it.walk (fuel + 1) leaf l.slots idx w) := by
  rw [ScanIterator.walk, hslot, pairsFrom_slot hslot]
  dsimp only
  rw [← reachedEnd_eq]
  by_cases hend : it.reachedEnd slot.key = true
  · rw [if_pos hend, if_pos hend]
    exact ⟨.refl hq, rfl⟩
  · rw [if_neg hend, if_neg hend]
    by_cases hversion : it.versionSnapshot = w.versionCounter
    · rw [run_bind_ok (checkVersion_unchanged hversion)]
      exact ⟨.refl hq, hversion, _, rfl, l, back, hleaf, rfl⟩
    · rw [run_bind_error (checkVersion_changed hversion)]
      exact ⟨.refl hq, .inr ⟨rfl, hversion⟩⟩

/-- The walk of an iterator from a slot of a leaf of the tree. -/
theorem stepSpec_walk (hinv : StoreInv L C T) (it : ScanIterator) (back : List Leaf) :
    ∀ (l : Leaf) (leaf : Ref) (idx fuel : ℕ) (w : World), back.length < fuel →
      Quiet w C → AtLeaf C T l back leaf w →
      StepSpec C T it (pairsFrom it.endKeyExclusive l back idx) w
        (it.walk fuel leaf l.slots idx w) := by
  induction back with
  | nil =>
      intro l leaf idx fuel w hfuel hq hleaf
      obtain ⟨fuel, rfl⟩ := Nat.exists_eq_succ_of_ne_zero (Nat.ne_of_gt hfuel)
      cases hslot : l.slots[idx]? with
      | some slot => exact stepSpec_slot hq hleaf hslot
      | none =>
          obtain ⟨lsn, hpage, hobject⟩ := hleaf.object
          -- The last leaf is used up: `right_sibling_page_id` is 0, and the generator ends.
          have hright : l.right = 0 := hleaf.right hinv
          rw [pairsFrom_end hslot, ScanIterator.walk, hslot]
          dsimp only
          rw [run_bind_ok (derefLeaf_eq hobject), if_neg (by simp [hright])]
          exact ⟨.refl hq, rfl⟩
  | cons next back ih =>
      intro l leaf idx fuel w hfuel hq hleaf
      obtain ⟨fuel, rfl⟩ := Nat.exists_eq_succ_of_ne_zero (Nat.ne_of_gt (Nat.zero_lt_of_lt hfuel))
      cases hslot : l.slots[idx]? with
      | some slot => exact stepSpec_slot hq hleaf hslot
      | none =>
          obtain ⟨lsn, hpage, hobject⟩ := hleaf.object
          have hright : l.right = next.id := hleaf.right hinv
          rw [pairsFrom_end hslot, ScanIterator.walk, hslot]
          dsimp only
          rw [run_bind_ok (derefLeaf_eq hobject)]
          dsimp only
          -- The leaf is used up: the generator goes on at slot 0 of its right sibling.
          obtain ⟨hpos, hnext⟩ := hleaf.next hinv
          rw [hright, if_pos hpos]
          rcases hnext hq with ⟨ref, w₁, hget, hreads, hleaf₁⟩ | hget
          · obtain ⟨lsn₁, -, hobject₁⟩ := hleaf₁.object
            rw [run_bind_ok hget, run_bind_ok (derefLeaf_eq hobject₁)]
            have hstep := ih next ref 0 fuel w₁ (by simpa using hfuel) hreads.quiet hleaf₁
            have hpairs : upTo it.endKeyExclusive ((next :: back).flatMap Leaf.slots) =
                pairsFrom it.endKeyExclusive next back 0 := by simp [pairsFrom]
            rw [hpairs]
            exact hstep.of_reads hreads (NoSteal.versionCounter ((noSteal_get _).ok hget))
          · rw [run_bind_error hget]
            exact ⟨.refl hq, .inl rfl⟩

/-- The list that a suspended `islice` walks: the slots of the leaf object, as long as nobody
has given the page other slots since the generator was suspended. -/
def walkedSlots (w : World) : Generator → List LeafSlot
  | .suspended leaf _ =>
      match w.pool.objects[leaf]? with
      | some (.leaf page) => page.slots
      | _ => []
  | _ => []

theorem walkFuel_of_quiet (hq : Quiet w C) : ScanIterator.walkFuel w = C.next + 1 := by
  obtain ⟨m, hm, hfields, -⟩ := hq.metaPage
  rw [ScanIterator.walkFuel, hm, Option.map_some, Option.getD_some,
    show m.nextPageId = C.next from hfields.next]

/-- The first `next()` of an iterator. -/
theorem stepSpec_created (h : Holding R L M C T w) (hcreated : it.generator = .created)
    (hrest : rest =
      inRange (it.startKeyInclusive.getD []) it.endKeyExclusive (entriesOf (Tree.items H T)))
    (walked : List LeafSlot) : StepSpec C T it rest w (it.next walked w) := by
  rw [ScanIterator.next, hcreated]
  dsimp only
  cases hfind : BPlusTree.findLeaf (it.startKeyInclusive.getD []) w with
  | ok result w₁ =>
      obtain ⟨hreads, l, back, hleaf, hrange⟩ := h.findLeaf_ok hfind
      obtain ⟨lsn, -, hobject⟩ := hleaf.object
      rw [run_bind_ok hfind, run_bind_ok (derefLeaf_eq hobject), run_bind_ok (run_get w₁),
        walkFuel_of_quiet hreads.quiet, hrest, hrange]
      exact (stepSpec_walk h.inv it back l _ _ _ w₁ (hleaf.length_back h.inv) hreads.quiet
        hleaf).of_reads hreads (NoSteal.versionCounter ((noSteal_steps.findLeaf _).ok hfind))
  | error e w₁ =>
      obtain ⟨hreads, rfl⟩ := h.findLeaf_error hfind
      rw [run_bind_error hfind]
      exact ⟨hreads, .inl rfl⟩

/-- One `next()` of an iterator whose remaining pairs are known. -/
theorem stepSpec_next (h : Holding R L M C T w) (hrest : Remaining C T w it rest) :
    StepSpec C T it rest w (it.next (walkedSlots w it.generator) w) := by
  unfold Remaining at hrest
  cases hgenerator : it.generator with
  | created =>
      rw [hgenerator] at hrest
      exact stepSpec_created h hgenerator hrest _
  | suspended leaf idx =>
      rw [hgenerator] at hrest
      obtain ⟨l, back, hleaf, hrest⟩ := hrest
      obtain ⟨lsn, -, hobject⟩ := hleaf.object
      have hslots : walkedSlots w (.suspended leaf idx) = l.slots := by simp [walkedSlots, hobject]
      rw [hslots, ScanIterator.next, hgenerator, hrest]
      dsimp only
      by_cases hversion : it.versionSnapshot = w.versionCounter
      · rw [run_bind_ok (checkVersion_unchanged hversion), run_bind_ok (run_get w),
          walkFuel_of_quiet h.quiet]
        exact stepSpec_walk h.inv it back l leaf idx _ w (hleaf.length_back h.inv) h.quiet hleaf
      · rw [run_bind_error (checkVersion_changed hversion)]
        exact ⟨.refl h.quiet, .inr ⟨rfl, hversion⟩⟩
  | finished =>
      rw [hgenerator] at hrest
      rw [ScanIterator.next, hgenerator]
      exact ⟨.refl h.quiet, hrest⟩

/-- One `next()` of an iterator that has missed a change: it yields nothing. -/
theorem next_missed (h : Holding R L M C T w) (hversion : it.versionSnapshot ≠ w.versionCounter)
    (walked : List LeafSlot) : Reads C w (final (it.next walked w)) ∧
      ∀ step w', it.next walked w ≠ .ok (some step) w' := by
  cases hgenerator : it.generator with
  | created =>
      have hstep := stepSpec_created h hgenerator rfl walked
      cases hnext : it.next walked w with
      | ok step w₁ =>
          rw [hnext] at hstep
          cases step with
          | none => exact ⟨hstep.1, by simp⟩
          | some step => exact absurd hstep.2.1 hversion
      | error e w₁ =>
          rw [hnext] at hstep
          exact ⟨hstep.1, by simp⟩
  | suspended leaf idx =>
      rw [next_suspended hgenerator hversion]
      exact ⟨.refl h.quiet, by simp⟩
  | finished =>
      rw [ScanIterator.next, hgenerator]
      refine ⟨.refl h.quiet, fun step w' heq => ?_⟩
      cases heq

/-! ## Calls that change nothing -/

/-- An open handle holds the map in the tree, and its log is in order. -/
structure Serves (P : ℕ) (M : KeyMap) (C : Content) (T : Tree H) (w : World) : Prop where
  holding : Holding (plainRegime P) w.wal.currentLsn M C T w
  log : ∃ rs f, LogOf rs f w
  power : w.power = none
  isOpened : w.isOpened = true

theorem Serves.ready (h : Serves P M C T w) : Ready (plainRegime P) M C w :=
  ⟨⟨H, T, h.holding⟩, h.log, h.power⟩

/-- From `w` to `w'` the handle has gone on holding the tree, no page object has changed and
no change was counted. -/
structure Steady (P : ℕ) (M : KeyMap) (C : Content) (T : Tree H) (w w' : World) : Prop where
  serves : Serves P M C T w'
  objects : w.pool.objects <+: w'.pool.objects
  version : w'.versionCounter = w.versionCounter

/-- The steps that leave the tree of a handle as it is. -/
def Calm (P : ℕ) (M : KeyMap) (C : Content) (T : Tree H) (w w' : World) : Prop :=
  Serves P M C T w → Steady P M C T w w'

instance calm_refl : Std.Refl (Calm P M C T) :=
  ⟨fun _ h => ⟨h, List.prefix_rfl, rfl⟩⟩

instance calm_trans : IsTrans World (Calm P M C T) where
  trans _ _ _ h h' hw :=
    have h₁ := h hw
    have h₂ := h' h₁.serves
    ⟨h₂.serves, h₁.objects.trans h₂.objects, h₂.version.trans h₁.version⟩

/-- Reading pages is calm. -/
theorem Steady.of_reads (h : Serves P M C T w) (hreads : Reads C w w') (hsteal : NoSteal w w') :
    Steady P M C T w w' := by
  have hready := h.ready.of_noSteal hsteal ⟨H, T, h.holding.of_quiet hreads.quiet⟩
  have hwal : w'.wal = w.wal := congrArg Frozen.wal hsteal.frozen
  refine ⟨⟨?_, hready.log, hready.power, ?_⟩, hreads.objects, NoSteal.versionCounter hsteal⟩
  · rw [hwal]
    exact h.holding.of_quiet hreads.quiet
  · exact (NoSteal.isOpened hsteal).trans h.isOpened

theorem calm_search (key : Bytes) : Keeps (Calm P M C T) (BPlusTree.search key) := by
  intro w h
  have hsteal := noSteal_steps.search key w
  have hreads := readSpec_search h.holding.inv h.holding.quiet key
  cases hrun : BPlusTree.search key w with
  | ok found w' =>
      rw [hrun] at hreads hsteal
      exact .of_reads h hreads.1 hsteal
  | error e w' =>
      rw [hrun] at hreads hsteal
      exact .of_reads h hreads.1 hsteal

theorem calm_get (key : PyArg) : Keeps (Calm P M C T) (DB.get key) :=
  keeps_checkIfOpened.bind fun _ => (keeps_ensureBytesType key _).bind fun key => calm_search key

/-- A process that goes on with other dirty flags and the same log. -/
theorem Serves.flushed (h : Serves P M C T w) (hquiet : Quiet w' C)
    (hpower : w'.power = none) (hwal : w'.wal = w.wal) (hfile : w'.disk.wal = w.disk.wal)
    (hopened : w'.isOpened = w.isOpened) : Serves P M C T w' := by
  obtain ⟨rs, f, hlog⟩ := h.log
  refine ⟨?_, ⟨rs, f, ?_, hfile.trans hlog.file, hlog.content, hlog.encodable, ?_⟩, hpower,
    hopened.trans h.isOpened⟩
  · rw [hwal]
    exact h.holding.of_quiet hquiet
  · rw [hwal]
    exact hlog.isOpen
  · rw [hwal]
    exact hlog.numbered

/-- A checkpoint is calm, also where it raises. -/
theorem calm_checkpoint (hR : Sized (plainRegime P)) : Keeps (Calm P M C T) DB.checkpoint := by
  intro w h
  obtain ⟨rs, f, hlog⟩ := h.log
  obtain ⟨m, hm, -⟩ := h.ready.metaPage
  have hlarge : minPageSize ≤ C.pageSize := by
    rw [h.holding.pageSize]
    exact hR.large
  have houtcome := checkpoint_outcome (hR.storable h.holding) hlarge h.holding.quiet hm hlog
  cases hrun : DB.checkpoint w with
  | ok a w' =>
      obtain ⟨hdone, hready⟩ := h.ready.checkpoint hR hm hrun
      have hquiet := hdone.quiet
      obtain ⟨power, content, cache, -, rfl, -⟩ := hdone.eq
      refine ⟨⟨?_, hready.log, hready.power, h.isOpened⟩, List.prefix_rfl, rfl⟩
      exact (h.holding.of_quiet hquiet).mono (Nat.le_succ _)
  | error e w' =>
      rw [hrun] at houtcome
      cases houtcome with
      | flushing hfails =>
          have hquiet := hfails.quiet
          have hpower := hfails.flushes.power h.power
          obtain ⟨power, content, cache, dirty, rfl⟩ := hfails.flushes.eq
          exact ⟨h.flushed hquiet hpower rfl rfl rfl, List.prefix_rfl, rfl⟩
      | refused hp _ =>
          exact ⟨h.flushed hp.quiet (hp.keepsPower h.power) rfl rfl rfl, List.prefix_rfl, rfl⟩
      | logging _ hpower => exact absurd h.power hpower
      | publishing _ hpower => exact absurd h.power hpower
      | rotating _ hpower => exact absurd h.power hpower

/-- A `put` that its checks reject: of something else than bytes, or of a record that is too
large. -/
def RejectsPut (key value : PyArg) (w : World) : Prop :=
  ∀ k v, key = .bytes k → value = .bytes v →
    ∃ e w', BPlusTree.raiseIfRecordTooLarge k v w = .error e w'

theorem put_rejected (key value : PyArg) (h : RejectsPut key value w) :
    ∃ e, DB.put key value w = .error e w := by
  unfold DB.put
  cases hopened : DB.checkIfOpened w with
  | error e w₁ =>
      rw [run_bind_error hopened]
      obtain rfl := (keeps_checkIfOpened (R := Eq)).error hopened
      exact ⟨e, rfl⟩
  | ok a w₁ =>
      rw [run_bind_ok hopened]
      obtain rfl := (keeps_checkIfOpened (R := Eq)).ok hopened
      cases key with
      | bytes k =>
          cases value with
          | bytes v =>
              obtain ⟨e, w₂, hlarge⟩ := h k v rfl rfl
              obtain rfl := (keeps_raiseIfRecordTooLarge (R := Eq) k v).error hlarge
              refine ⟨e, ?_⟩
              show (BPlusTree.raiseIfRecordTooLarge k v >>= fun _ => _) w = _
              exact run_bind_error hlarge
          | other => exact ⟨_, rfl⟩
      | other => exact ⟨_, rfl⟩

theorem put_bytes {key value : PyArg} (h : DB.put key value w = .ok () w') :
    ∃ k v, key = .bytes k ∧ value = .bytes v := by
  by_contra hnot
  obtain ⟨e, herror⟩ := put_rejected (w := w) key value
    fun k v hk hv => absurd ⟨k, v, hk, hv⟩ hnot
  rw [h] at herror
  cases herror

/-- A `delete` of something else than bytes, or one whose search raises. -/
def RejectsDelete (key : PyArg) (w : World) : Prop :=
  ∀ k, key = .bytes k → ∃ e w', BPlusTree.search k w = .error e w'

/-- A `delete` that deletes nothing has searched at most. -/
theorem delete_calm (key : PyArg) (h : Serves P M C T w)
    (hnot : (∃ w', DB.delete key w = .ok false w') ∨ RejectsDelete key w) :
    Steady P M C T w (final (DB.delete key w)) := by
  have hopened : DB.checkIfOpened w = .ok () w := by
    simp [DB.checkIfOpened, run_bind, h.isOpened]
  cases key with
  | other =>
      rw [DB.delete, run_bind_ok hopened]
      exact ⟨h, List.prefix_rfl, rfl⟩
  | bytes k =>
      have hrun : DB.delete (.bytes k) w = (BPlusTree.search k >>= fun found =>
          if found.isNone then pure false else do
            DB.maybeCheckpoint
            DB.logAndDelete k
            DB.maybeCheckpoint
            return true) w := by
        rw [DB.delete, run_bind_ok hopened]
        rfl
      have hcalm := calm_search (M := M) (P := P) (T := T) k w h
      cases hsearch : BPlusTree.search k w with
      | error e w₁ =>
          rw [hrun, run_bind_error hsearch]
          rw [hsearch] at hcalm
          exact hcalm
      | ok found w₁ =>
          rw [hsearch] at hcalm
          rw [hrun, run_bind_ok hsearch]
          cases found with
          | none => exact hcalm
          | some value =>
              rcases hnot with ⟨w', hfalse⟩ | hreject
              · rw [hrun, run_bind_ok hsearch] at hfalse
                obtain ⟨_, w₂, -, hfalse⟩ := bind_eq_ok.mp hfalse
                obtain ⟨_, w₃, -, hfalse⟩ := bind_eq_ok.mp hfalse
                obtain ⟨_, w₄, -, hfalse⟩ := bind_eq_ok.mp hfalse
                cases hfalse
              · obtain ⟨e, w', herror⟩ := hreject k rfl
                rw [hsearch] at herror
                cases herror

/-! ## Histories of an open handle -/

/-- The calls of one open session: a `put` returns or is rejected, a `delete` returns or does
not get beyond its search, and an `islice` walks the slots of its leaf until a change has
given them away. -/
def HandleCall.Admissible (s : Session) : HandleCall → Prop
  | .put key value => (∃ w', DB.put key value s.world = .ok () w') ∨ RejectsPut key value s.world
  | .delete key => (∃ deleted w', DB.delete key s.world = .ok deleted w') ∨
      RejectsDelete key s.world
  | .close => False
  | .open_ => False
  | .next i walked => ∀ x, s.iterators[i]? = some x → x.changed = false →
      walked = walkedSlots s.world x.iterator.generator
  | _ => True

def AdmissibleHistory : List HandleCall → Session → Prop
  | [], _ => True
  | c :: calls, s => c.Admissible s ∧ AdmissibleHistory calls (c.step s)

/-- The map after a call: only a `put` or a `delete` that returns changes it. -/
def HandleCall.mapAfter (s : Session) (M : KeyMap) : HandleCall → KeyMap
  | .put (.bytes key) (.bytes value) =>
      match DB.put (.bytes key) (.bytes value) s.world with
      | .ok _ _ => Function.update M key (some value)
      | .error _ _ => M
  | .delete (.bytes key) =>
      match DB.delete (.bytes key) s.world with
      | .ok _ _ => Function.update M key none
      | .error _ _ => M
  | _ => M

def historyMap : List HandleCall → Session → KeyMap → KeyMap
  | [], _, M => M
  | c :: calls, s, M => historyMap calls (c.step s) (c.mapAfter s M)

/-- What the caller sees of a `next()`: a pair, the end of the iteration or an exception. -/
abbrev Outcome := Except Err (Option (Bytes × Bytes))

def outcomeOf : EStateM.Result Err World ScanIterator.Step → Outcome
  | .ok step _ => .ok (step.map Prod.fst)
  | .error e _ => .error e

/-- What a call shows of the iterator `i`. -/
def HandleCall.outcomes (i : ℕ) (s : Session) : HandleCall → List Outcome
  | .next j walked =>
      match s.iterators[j]? with
      | some x => if j = i then [outcomeOf (x.iterator.next walked s.world)] else []
      | none => []
  | _ => []

/-- What the `next()` calls of a history on the iterator `i` show. -/
def outcomes (i : ℕ) : List HandleCall → Session → List Outcome
  | [], _ => []
  | c :: calls, s => c.outcomes i s ++ outcomes i calls (c.step s)

/-- The pairs among the outcomes. -/
def yielded (outs : List Outcome) : List (Bytes × Bytes) :=
  outs.filterMap fun out => out.toOption.join

/-- The first `n` outcomes of an iterator over `pairs` that nothing disturbs. -/
def undisturbed (pairs : List (Bytes × Bytes)) (n : ℕ) : List Outcome :=
  (List.range n).map fun k => .ok pairs[k]?

/-! ## One call -/

/-- An iterator that has seen no change stands in the tree that the handle holds. -/
structure InPlace (C : Content) (T : Tree H) (w : World) (x : Watched) : Prop where
  later : x.changed = true → x.iterator.versionSnapshot < w.versionCounter
  current : x.changed = false → x.iterator.versionSnapshot = w.versionCounter
  remaining : x.changed = false → ∃ rest, Remaining C T w x.iterator rest

/-- The handle of a session holds the map, with all iterators in place. -/
structure Underway (P : ℕ) (M : KeyMap) (C : Content) (T : Tree H) (s : Session) : Prop where
  serves : Serves P M C T s.world
  inPlace : ∀ x ∈ s.iterators, InPlace C T s.world x

/-- The outcomes of the iterator `i` so far: it has yielded pairs of its range, and if it has
seen no change the others remain, unless the pool has overflowed. -/
structure Follows (C : Content) (T : Tree H) (i : ℕ) (pairs : List (Bytes × Bytes))
    (outs : List Outcome) (s : Session) : Prop where
  yields : yielded outs <+: pairs
  exists_iterator : ∃ x, s.iterators[i]? = some x ∧ (x.changed = false →
    (Remaining C T s.world x.iterator (pairs.drop outs.length) ∧
      outs = undisturbed pairs outs.length) ∨
    (.error .bufferPoolOverflow ∈ outs ∧ x.iterator.generator = .finished))

theorem Remaining.of_objects (h : Remaining C T w it rest)
    (hobjects : w.pool.objects <+: w'.pool.objects) : Remaining C T w' it rest := by
  unfold Remaining at h ⊢
  split at h
  · exact h
  · obtain ⟨l, back, hleaf, hrest⟩ := h
    obtain ⟨lsn, hpage, hobject⟩ := hleaf.object
    refine ⟨l, back, ⟨hleaf.leaves, lsn, hpage, ?_⟩, hrest⟩
    obtain ⟨tail, htail⟩ := hobjects
    obtain ⟨hlt, -⟩ := List.getElem?_eq_some_iff.mp hobject
    rw [← htail, List.getElem?_append_left hlt]
    exact hobject
  · exact h

theorem InPlace.steady {x : Watched} (h : InPlace C T w x) (hsteady : Steady P M C T w w') :
    InPlace C T w' x := by
  refine ⟨?_, ?_, fun hx => ?_⟩
  · rw [hsteady.version]
    exact h.later
  · rw [hsteady.version]
    exact h.current
  · obtain ⟨rest, hrest⟩ := h.remaining hx
    exact ⟨rest, hrest.of_objects hsteady.objects⟩

/-- A call that leaves the tree and the iterators alone. -/
theorem Underway.steady {s : Session} (h : Underway P M C T s)
    (hsteady : Steady P M C T s.world w') : Underway P M C T ⟨w', s.iterators⟩ :=
  ⟨hsteady.serves, fun x hx => (h.inPlace x hx).steady hsteady⟩

theorem Follows.steady {s : Session} {i : ℕ} {pairs : List (Bytes × Bytes)} {outs : List Outcome}
    (h : Follows C T i pairs outs s) (hsteady : Steady P M C T s.world w') :
    Follows C T i pairs outs ⟨w', s.iterators⟩ := by
  obtain ⟨x, hx, hrest⟩ := h.exists_iterator
  refine ⟨h.yields, x, hx, fun hchanged => ?_⟩
  rcases hrest hchanged with ⟨hremaining, houts⟩ | hfinished
  · exact .inl ⟨hremaining.of_objects hsteady.objects, houts⟩
  · exact .inr hfinished

theorem InPlace.snapshot_le {x : Watched} (h : InPlace C T w x) :
    x.iterator.versionSnapshot ≤ w.versionCounter := by
  cases hchanged : x.changed with
  | true => exact (h.later hchanged).le
  | false => exact (h.current hchanged).le

/-- A call that changes the map. -/
theorem Underway.changed {s : Session} {M' : KeyMap} {C' : Content} {H' : ℕ} {T' : Tree H'}
    (h : Underway P M C T s) (hserves : Serves P M' C' T' w')
    (hversion : s.world.versionCounter < w'.versionCounter) :
    Underway P M' C' T' (Session.markChanged ⟨w', s.iterators⟩) := by
  refine ⟨hserves, fun x hx => ?_⟩
  obtain ⟨y, hy, rfl⟩ := List.mem_map.mp hx
  refine ⟨fun _ => ?_, fun hchanged => ?_, fun hchanged => ?_⟩
  · exact (h.inPlace y hy).snapshot_le.trans_lt hversion
  · cases hchanged
  · cases hchanged

theorem Follows.changed {s : Session} {i : ℕ} {pairs : List (Bytes × Bytes)} {outs : List Outcome}
    {C' : Content} {H' : ℕ} {T' : Tree H'} (h : Follows C T i pairs outs s) (w' : World) :
    Follows C' T' i pairs outs (Session.markChanged ⟨w', s.iterators⟩) := by
  obtain ⟨x, hx, -⟩ := h.exists_iterator
  refine ⟨h.yields, { x with changed := true }, ?_, fun hchanged => ?_⟩
  · simp [Session.markChanged, hx]
  · cases hchanged

/-- One call of a session keeps its handle underway and its iterators on their ranges. -/
def Proceeds (P : ℕ) (M : KeyMap) (C : Content) (T : Tree H) (s : Session)
    (c : HandleCall) : Prop :=
  ∃ (C' : Content) (H' : ℕ) (T' : Tree H'), Underway P (c.mapAfter s M) C' T' (c.step s) ∧
    ∀ i pairs outs, Follows C T i pairs outs s →
      Follows C' T' i pairs (outs ++ c.outcomes i s) (c.step s)

/-- A call that changes nothing proceeds. -/
theorem Underway.proceeds {s : Session} {c : HandleCall} (h : Underway P M C T s)
    (hsteady : Steady P M C T s.world w') (hstep : c.step s = ⟨w', s.iterators⟩)
    (hmap : c.mapAfter s M = M) (houts : ∀ i, c.outcomes i s = []) : Proceeds P M C T s c := by
  refine ⟨C, H, T, ?_, fun i pairs outs hfollows => ?_⟩
  · rw [hstep, hmap]
    exact h.steady hsteady
  · rw [hstep, houts, List.append_nil]
    exact hfollows.steady hsteady

/-- A call that changes the map proceeds. -/
theorem Underway.proceeds_changed {s : Session} {c : HandleCall} {M' : KeyMap} {C' : Content}
    (h : Underway P M C T s) (hready : Ready (plainRegime P) M' C' w')
    (hopened : w'.isOpened = s.world.isOpened)
    (hversion : s.world.versionCounter < w'.versionCounter)
    (hstep : c.step s = Session.markChanged ⟨w', s.iterators⟩)
    (hmap : c.mapAfter s M = M') (houts : ∀ i, c.outcomes i s = []) : Proceeds P M C T s c := by
  obtain ⟨H', T', hholding⟩ := hready.stands
  refine ⟨C', H', T', ?_, fun i pairs outs hfollows => ?_⟩
  · rw [hstep, hmap]
    exact h.changed ⟨hholding, hready.log, hready.power, hopened.trans h.serves.isOpened⟩ hversion
  · rw [hstep, houts, List.append_nil]
    exact hfollows.changed w'

theorem proceeds_put (hR : Sized (plainRegime P)) {s : Session} (h : Underway P M C T s)
    {key value : PyArg} (hput : (HandleCall.put key value).Admissible s) :
    Proceeds P M C T s (.put key value) := by
  rcases hput with ⟨w', hput⟩ | hreject
  · obtain ⟨k, v, rfl, rfl⟩ := put_bytes hput
    obtain ⟨⟨C', hready⟩, hopened⟩ := h.serves.ready.put hR hput
    refine h.proceeds_changed hready hopened (put_version hput) ?_ ?_ fun _ => rfl
    · simp [HandleCall.step, hput]
    · simp [HandleCall.mapAfter, hput]
  · obtain ⟨e, hput⟩ := put_rejected key value hreject
    have hsteady : Steady P M C T s.world s.world := ⟨h.serves, List.prefix_rfl, rfl⟩
    refine h.proceeds hsteady ?_ ?_ fun _ => rfl
    · simp [HandleCall.step, hput]
    · cases key <;> cases value <;> simp [HandleCall.mapAfter, hput]

theorem proceeds_delete (hR : Sized (plainRegime P)) {s : Session} (h : Underway P M C T s)
    {key : PyArg} (hdelete : (HandleCall.delete key).Admissible s) :
    Proceeds P M C T s (.delete key) := by
  by_cases htrue : ∃ w', DB.delete key s.world = .ok true w'
  · obtain ⟨w', hdelete⟩ := htrue
    cases key with
    | other =>
        have hsteady : Steady P M C T s.world _ := delete_calm .other h.serves (.inr (by
          intro k hk
          cases hk))
        rw [hdelete] at hsteady
        exact absurd hsteady.version (ne_of_gt (delete_version hdelete))
    | bytes key =>
        obtain ⟨-, hopened, C', hready, -⟩ := h.serves.ready.dbDelete hR hdelete
        refine h.proceeds_changed hready hopened (delete_version hdelete) ?_ ?_ fun _ => rfl
        · simp [HandleCall.step, hdelete]
        · simp [HandleCall.mapAfter, hdelete]
  -- Whatever else the call does, it counts no version: an absent key, or a call that is refused.
  · have hcalm : (∃ w', DB.delete key s.world = .ok false w') ∨ RejectsDelete key s.world := by
      rcases hdelete with ⟨deleted, w', hdelete⟩ | hreject
      · cases deleted with
        | true => exact absurd ⟨w', hdelete⟩ htrue
        | false => exact .inl ⟨w', hdelete⟩
      · exact .inr hreject
    refine h.proceeds (delete_calm key h.serves hcalm) ?_ ?_ fun _ => rfl
    · cases hrun : DB.delete key s.world with
      | error e w' => simp [HandleCall.step, hrun, final]
      | ok deleted w' =>
          cases deleted with
          | true => exact absurd ⟨w', hrun⟩ htrue
          | false => simp [HandleCall.step, hrun, final]
    · cases key with
      | other => rfl
      | bytes key =>
          cases hrun : DB.delete (.bytes key) s.world with
          | error e w' => simp [HandleCall.mapAfter, hrun]
          | ok deleted w' =>
              obtain ⟨hdeleted, -⟩ := h.serves.ready.dbDelete hR hrun
              have hnone : M key = none := by
                cases hkey : M key with
                | none => rfl
                | some value =>
                    rw [hdeleted, hkey] at hrun
                    exact absurd ⟨w', hrun⟩ htrue
              simp [HandleCall.mapAfter, hrun, ← hnone]

theorem scanIterator_created {start stop : Option PyArg}
    (h : DB.scanIterator start stop w = .ok it w') : it.generator = .created := by
  obtain ⟨_, w₁, -, h⟩ := bind_eq_ok.mp h
  obtain ⟨_, w₂, -, h⟩ := bind_eq_ok.mp h
  obtain ⟨_, w₃, -, h⟩ := bind_eq_ok.mp h
  cases h
  rfl

/-- A new iterator has its whole range before it. -/
theorem Underway.scan {s : Session} (h : Underway P M C T s) (start stop : Option PyArg) :
    Underway P M C T (HandleCall.step (.scan start stop) s) := by
  have hsteady : Steady P M C T s.world (final (DB.scanIterator start stop s.world)) :=
    keeps_scanIterator (R := Calm P M C T) start stop s.world h.serves
  cases hrun : DB.scanIterator start stop s.world with
  | error e w' =>
      rw [hrun] at hsteady
      simpa [HandleCall.step, hrun] using h.steady hsteady
  | ok it w' =>
      rw [hrun] at hsteady
      rw [show HandleCall.step (.scan start stop) s =
        ⟨w', s.iterators ++ [⟨it, false, false⟩]⟩ by simp [HandleCall.step, hrun]]
      refine ⟨hsteady.serves, fun x hx => ?_⟩
      rcases List.mem_append.mp hx with hx | hx
      · exact (h.inPlace x hx).steady hsteady
      · obtain rfl := List.mem_singleton.mp hx
        obtain ⟨-, hsnapshot⟩ := scanIterator_version hrun
        have hcreated : it.generator = .created := scanIterator_created hrun
        refine ⟨fun hchanged => absurd hchanged Bool.false_ne_true, fun _ => hsnapshot, fun _ => ?_⟩
        exact ⟨_, by rw [Remaining, hcreated]⟩

theorem proceeds_scan {s : Session} (h : Underway P M C T s) (start stop : Option PyArg) :
    Proceeds P M C T s (.scan start stop) := by
  refine ⟨C, H, T, h.scan start stop, fun i pairs outs hfollows => ?_⟩
  have hsteady : Steady P M C T s.world (final (DB.scanIterator start stop s.world)) :=
    keeps_scanIterator (R := Calm P M C T) start stop s.world h.serves
  obtain ⟨x, hx, hrest⟩ := (hfollows.steady hsteady).exists_iterator
  rw [show HandleCall.outcomes i s (.scan start stop) = [] from rfl, List.append_nil]
  cases hrun : DB.scanIterator start stop s.world with
  | error e w' =>
      rw [hrun] at hrest
      simp only [HandleCall.step, hrun]
      exact ⟨hfollows.yields, x, hx, hrest⟩
  | ok it w' =>
      rw [hrun] at hrest
      simp only [HandleCall.step, hrun]
      refine ⟨hfollows.yields, x, ?_, hrest⟩
      have hlt := (List.getElem?_eq_some_iff.mp hx).1
      rw [List.getElem?_append_left hlt]
      exact hx

/-! ## One `next()` -/

theorem StepSpec.reads {r : EStateM.Result Err World ScanIterator.Step}
    (h : StepSpec C T it rest w r) : Reads C w (final r) := by
  unfold StepSpec at h
  split at h
  · exact h.1
  · exact h.1
  · exact h.1

/-- A `next()` leaves the tree as it is. -/
theorem next_steady (h : Serves P M C T w) {x : Watched} (hx : InPlace C T w x)
    {walked : List LeafSlot}
    (hwalked : x.changed = false → walked = walkedSlots w x.iterator.generator) :
    Steady P M C T w (final (x.iterator.next walked w)) := by
  refine .of_reads h ?_ (keeps_next noSteal_steps x.iterator walked w)
  cases hchanged : x.changed with
  | true => exact (next_missed h.holding (ne_of_lt (hx.later hchanged)) walked).1
  | false =>
      obtain ⟨rest, hrest⟩ := hx.remaining hchanged
      rw [hwalked hchanged]
      exact (stepSpec_next h.holding hrest).reads

/-- A `next()` of an iterator that has seen no change shows the first pair that remains, or
the end, or the overflow of the pool. -/
theorem StepSpec.resume {x : Watched} {r : EStateM.Result Err World ScanIterator.Step}
    (h : StepSpec C T x.iterator rest w r)
    (hversion : x.iterator.versionSnapshot = w.versionCounter) :
    (∃ w', r = .error .bufferPoolOverflow w') ∨
      (Remaining C T (final r) (x.resume r).iterator rest.tail ∧ outcomeOf r = .ok rest.head?) := by
  cases r with
  | ok step w' =>
      cases step with
      | none =>
          obtain ⟨-, rfl⟩ := h
          exact .inr ⟨rfl, rfl⟩
      | some step =>
          obtain ⟨-, -, rest', rfl, hrest⟩ := h
          exact .inr ⟨hrest, rfl⟩
  | error e w' =>
      obtain ⟨-, rfl | ⟨-, hchanged⟩⟩ := h
      · exact .inl ⟨w', rfl⟩
      · exact absurd hversion hchanged

theorem InPlace.resume (h : Serves P M C T w) {x : Watched} (hx : InPlace C T w x)
    {walked : List LeafSlot}
    (hwalked : x.changed = false → walked = walkedSlots w x.iterator.generator) :
    InPlace C T (final (x.iterator.next walked w)) (x.resume (x.iterator.next walked w)) := by
  have hversion := (next_steady h hx hwalked).version
  obtain ⟨hsnapshot, hchanged, -⟩ := resume_snapshot x (x.iterator.next walked w)
  refine ⟨?_, ?_, fun hsame => ?_⟩
  · rw [hchanged, hsnapshot, hversion]
    exact hx.later
  · rw [hchanged, hsnapshot, hversion]
    exact hx.current
  · rw [hchanged] at hsame
    obtain ⟨rest, hrest⟩ := hx.remaining hsame
    rw [hwalked hsame]
    rcases (stepSpec_next h.holding hrest).resume (hx.current hsame) with
      ⟨w', hoverflow⟩ | ⟨hremaining, -⟩
    · rw [hoverflow]
      exact ⟨[], rfl⟩
    · exact ⟨_, hremaining⟩

theorem yielded_append (outs outs' : List Outcome) :
    yielded (outs ++ outs') = yielded outs ++ yielded outs' :=
  List.filterMap_append

theorem undisturbed_succ (pairs : List (Bytes × Bytes)) (n : ℕ) :
    undisturbed pairs (n + 1) = undisturbed pairs n ++ [.ok pairs[n]?] := by
  simp [undisturbed, List.range_succ]

/-- Undisturbed, an iterator yields its range from the beginning. -/
theorem yielded_undisturbed (pairs : List (Bytes × Bytes)) (n : ℕ) :
    yielded (undisturbed pairs n) = pairs.take n := by
  induction n with
  | zero => rfl
  | succ n ih =>
      rw [undisturbed_succ, yielded_append, ih, List.take_add_one]
      cases hpair : pairs[n]? with
      | none => simp [yielded, Except.toOption]
      | some pair => simp [yielded, Except.toOption]

/-- The outcome of a `next()` that yields nothing. -/
theorem yielded_outcomeOf {r : EStateM.Result Err World ScanIterator.Step}
    (h : ∀ step w', r ≠ .ok (some step) w') : yielded [outcomeOf r] = [] := by
  cases r with
  | error e w' => rfl
  | ok step w' =>
      cases step with
      | none => rfl
      | some step => exact absurd rfl (h step w')

/-- One more `next()` of the iterator that is followed. -/
theorem Follows.resume {s : Session} {i : ℕ} {pairs : List (Bytes × Bytes)} {outs : List Outcome}
    (h : Serves P M C T s.world) (hfollows : Follows C T i pairs outs s) {x : Watched}
    (hx : s.iterators[i]? = some x) (hplace : InPlace C T s.world x) {walked : List LeafSlot}
    (hwalked : x.changed = false → walked = walkedSlots s.world x.iterator.generator) :
    Follows C T i pairs (outs ++ [outcomeOf (x.iterator.next walked s.world)])
      ⟨final (x.iterator.next walked s.world),
        s.iterators.set i (x.resume (x.iterator.next walked s.world))⟩ := by
  obtain ⟨y, hy, hrest⟩ := hfollows.exists_iterator
  obtain rfl := Option.some.inj (hx.symm.trans hy)
  have hlt := (List.getElem?_eq_some_iff.mp hx).1
  have hget := List.getElem?_set_self (a := x.resume (x.iterator.next walked s.world)) hlt
  obtain ⟨-, hchanged, -⟩ := resume_snapshot x (x.iterator.next walked s.world)
  cases hsame : x.changed with
  | true =>
      -- The iterator missed a change: `next()` yields nothing, whatever it raises.
      have hnone := (next_missed h.holding (ne_of_lt (hplace.later hsame)) walked).2
      refine ⟨?_, _, hget, fun hfalse => ?_⟩
      · rw [yielded_append, yielded_outcomeOf hnone, List.append_nil]
        exact hfollows.yields
      · rw [hchanged, hsame] at hfalse
        cases hfalse
  | false =>
      rcases hrest hsame with ⟨hremaining, houts⟩ | ⟨hoverflow, hfinished⟩
      · have hspec := stepSpec_next h.holding hremaining
        rw [← hwalked hsame] at hspec
        rcases hspec.resume (hplace.current hsame) with ⟨w', hoverflow⟩ | ⟨hremaining', hout⟩
        -- The pool has no room for the next leaf, and the generator is finished.
        · rw [hoverflow] at hget ⊢
          refine ⟨?_, _, hget, fun _ => .inr ⟨by simp [outcomeOf], rfl⟩⟩
          rw [yielded_append]
          simpa [yielded, outcomeOf, Except.toOption] using hfollows.yields
        · have houts' : outs ++ [outcomeOf (x.iterator.next walked s.world)] =
              undisturbed pairs (outs.length + 1) := by
            rw [hout, undisturbed_succ, ← houts, List.head?_drop]
          rw [houts']
          refine ⟨?_, _, hget, fun _ => .inl ⟨?_, by simp [undisturbed]⟩⟩
          · rw [yielded_undisturbed]
            exact List.take_prefix _ _
          · rw [List.tail_drop] at hremaining'
            simpa [undisturbed] using hremaining'
      -- A finished generator raises `StopIteration` at once.
      · have hnext : x.iterator.next walked s.world = .ok none s.world := by
          rw [ScanIterator.next, hfinished]
          rfl
        rw [hnext] at hget ⊢
        refine ⟨?_, _, hget, fun _ => .inr ⟨List.mem_append_left _ hoverflow, rfl⟩⟩
        rw [yielded_append]
        simpa [yielded, outcomeOf, Except.toOption] using hfollows.yields

theorem proceeds_next {s : Session} (h : Underway P M C T s) {i : ℕ} {walked : List LeafSlot}
    (hnext : (HandleCall.next i walked).Admissible s) : Proceeds P M C T s (.next i walked) := by
  cases hx : s.iterators[i]? with
  | none =>
      have hsteady : Steady P M C T s.world s.world := ⟨h.serves, List.prefix_rfl, rfl⟩
      refine h.proceeds hsteady ?_ rfl fun j => ?_
      · simp [HandleCall.step, hx]
      · simp [HandleCall.outcomes, hx]
  | some x =>
      have hplace := h.inPlace x (List.mem_of_getElem? hx)
      have hwalked := hnext x hx
      have hsteady := next_steady h.serves hplace hwalked
      have hstep : HandleCall.step (.next i walked) s = ⟨final (x.iterator.next walked s.world),
          s.iterators.set i (x.resume (x.iterator.next walked s.world))⟩ := by
        simp [HandleCall.step, hx]
      unfold Proceeds
      rw [hstep]
      refine ⟨C, H, T, ⟨hsteady.serves, fun y hy => ?_⟩, fun j pairs outs hfollows => ?_⟩
      · rcases List.mem_or_eq_of_mem_set hy with hy | rfl
        · exact (h.inPlace y hy).steady hsteady
        · exact hplace.resume h.serves hwalked
      · by_cases hj : i = j
        · subst hj
          rw [show HandleCall.outcomes i s (.next i walked) =
            [outcomeOf (x.iterator.next walked s.world)] by simp [HandleCall.outcomes, hx]]
          exact hfollows.resume h.serves hx hplace hwalked
        · rw [show HandleCall.outcomes j s (.next i walked) = [] by
            simp [HandleCall.outcomes, hx, hj], List.append_nil]
          obtain ⟨y, hy, hrest⟩ := (hfollows.steady hsteady).exists_iterator
          refine ⟨hfollows.yields, y, ?_, hrest⟩
          rw [List.getElem?_set_ne hj]
          exact hy

/-! ## Whole histories -/

theorem HandleCall.proceeds (hR : Sized (plainRegime P)) {s : Session} (h : Underway P M C T s)
    {c : HandleCall} (hc : c.Admissible s) : Proceeds P M C T s c := by
  cases c with
  | put key value => exact proceeds_put hR h hc
  | delete key => exact proceeds_delete hR h hc
  | get key => exact h.proceeds (calm_get key s.world h.serves) rfl rfl fun _ => rfl
  | checkpoint => exact h.proceeds (calm_checkpoint hR s.world h.serves) rfl rfl fun _ => rfl
  | close => exact hc.elim
  | open_ => exact hc.elim
  | scan start stop => exact proceeds_scan h start stop
  | next i walked => exact proceeds_next h hc

/-- A history keeps the handle underway and its iterators on their ranges. -/
theorem history_underway (hR : Sized (plainRegime P)) (calls : List HandleCall) :
    ∀ {M : KeyMap} {C : Content} {H : ℕ} {T : Tree H} {s : Session}, Underway P M C T s →
      AdmissibleHistory calls s → ∃ (C' : Content) (H' : ℕ) (T' : Tree H'),
        Underway P (historyMap calls s M) C' T' (history calls s) ∧
        ∀ i pairs outs, Follows C T i pairs outs s →
          Follows C' T' i pairs (outs ++ outcomes i calls s) (history calls s) := by
  induction calls with
  | nil =>
      intro M C H T s h _
      refine ⟨C, H, T, h, fun i pairs outs hfollows => ?_⟩
      rw [outcomes, List.append_nil]
      exact hfollows
  | cons c calls ih =>
      intro M C H T s h hcalls
      obtain ⟨C₁, H₁, T₁, h₁, hfollow₁⟩ := HandleCall.proceeds hR h hcalls.1
      obtain ⟨C₂, H₂, T₂, h₂, hfollow₂⟩ := ih h₁ hcalls.2
      refine ⟨C₂, H₂, T₂, h₂, fun i pairs outs hfollows => ?_⟩
      rw [outcomes, ← List.append_assoc]
      exact hfollow₂ i pairs _ (hfollow₁ i pairs outs hfollows)

theorem admissibleHistory_append {calls calls' : List HandleCall} {s : Session}
    (h : AdmissibleHistory (calls ++ calls') s) :
    AdmissibleHistory calls s ∧ AdmissibleHistory calls' (history calls s) := by
  induction calls generalizing s with
  | nil => exact ⟨trivial, h⟩
  | cons c calls ih =>
      obtain ⟨hrest, hlast⟩ := ih h.2
      exact ⟨⟨h.1, hrest⟩, hlast⟩

/-- The iterator that a `scan` adds is at the start of its range. -/
theorem follows_scan {s : Session} (h : Underway P M C T s) (start stop : Option Bytes) :
    ∃ pairs, ListsRange M start stop pairs ∧ Follows C T s.iterators.length pairs []
      (HandleCall.step (.scan (start.map .bytes) (stop.map .bytes)) s) := by
  refine ⟨_, Holding.listsRange h.serves.holding start stop, List.nil_prefix, ?_⟩
  have hopened : DB.checkIfOpened s.world = .ok () s.world := by
    simp [DB.checkIfOpened, run_bind, h.serves.isOpened]
  have hrun : DB.scanIterator (start.map .bytes) (stop.map .bytes) s.world =
      .ok ⟨s.world.versionCounter, start, stop, .created⟩ s.world := by
    rw [DB.scanIterator, run_bind_ok hopened, ensureBound_bytes, ensureBound_bytes]
    rfl
  refine ⟨⟨⟨s.world.versionCounter, start, stop, .created⟩, false, false⟩, ?_, fun _ =>
    .inl ⟨rfl, rfl⟩⟩
  simp [HandleCall.step, hrun]

/-- The iterator that a `scan` adds to a session yields the records of its range as they are in
the session. -/
theorem Underway.yields_prefix (hR : Sized (plainRegime P)) {s : Session}
    (h : Underway P M C T s) (after : List HandleCall) (start stop : Option Bytes)
    (hafter : AdmissibleHistory after
      (HandleCall.step (.scan (start.map .bytes) (stop.map .bytes)) s)) :
    let i := s.iterators.length
    let scanning := HandleCall.step (.scan (start.map .bytes) (stop.map .bytes)) s
    let outs := outcomes i after scanning
    ∃ pairs, ListsRange M start stop pairs ∧ yielded outs <+: pairs ∧
      ((∀ x, (history after scanning).iterators[i]? = some x → x.changed = false) →
        .error .bufferPoolOverflow ∉ outs →
        outs = (List.range outs.length).map fun k => .ok pairs[k]?) := by
  intro i scanning outs
  obtain ⟨pairs, hpairs, hfollows⟩ := follows_scan h start stop
  obtain ⟨C₂, H₂, T₂, -, hfollow⟩ := history_underway hR after (h.scan _ _) hafter
  obtain ⟨hyields, x, hx, hrest⟩ := hfollow i pairs [] hfollows
  refine ⟨pairs, hpairs, hyields, fun hunchanged hoverflow => ?_⟩
  rcases hrest (hunchanged x hx) with ⟨-, houts⟩ | ⟨hmem, -⟩
  · exact houts
  · exact absurd hmem hoverflow

/-- A session on a handle that shows a map. -/
theorem Ready.underway (h : Ready (plainRegime P) M C w) (hopened : w.isOpened = true) :
    ∃ (H : ℕ) (T : Tree H), Underway P M C T ⟨w, []⟩ := by
  obtain ⟨H, T, hholding⟩ := h.stands
  exact ⟨H, T, ⟨hholding, h.log, h.power, hopened⟩, fun x hx => absurd hx List.not_mem_nil⟩

/-- No history of an open handle mixes states in a scan.  An iterator yields the records of
its range as they were when `scan()` returned, in order and from the beginning; as long as no
call has changed the map and the pool has not overflowed, its `next()` calls give exactly
these records and then the end. -/
theorem scan_yields_prefix {C₀ : Content} {M₀ : KeyMap} {w₀ : World} (hR : Sized (plainRegime P))
    (hready : Ready (plainRegime P) M₀ C₀ w₀) (hopened : w₀.isOpened = true)
    (before after : List HandleCall) (start stop : Option Bytes)
    (hcalls : AdmissibleHistory
      (before ++ .scan (start.map .bytes) (stop.map .bytes) :: after) ⟨w₀, []⟩) :
    let created := history before ⟨w₀, []⟩
    let i := created.iterators.length
    let scanning := HandleCall.step (.scan (start.map .bytes) (stop.map .bytes)) created
    let outs := outcomes i after scanning
    ∃ pairs, ListsRange (historyMap before ⟨w₀, []⟩ M₀) start stop pairs ∧
      yielded outs <+: pairs ∧
      ((∀ x, (history after scanning).iterators[i]? = some x → x.changed = false) →
        .error .bufferPoolOverflow ∉ outs →
        outs = (List.range outs.length).map fun k => .ok pairs[k]?) := by
  intro created i scanning outs
  obtain ⟨H₀, T₀, hstart⟩ := hready.underway hopened
  obtain ⟨hbefore, -, hafter⟩ := admissibleHistory_append hcalls
  obtain ⟨C₁, H₁, T₁, hcreated, -⟩ := history_underway hR before hstart hbefore
  exact hcreated.yields_prefix hR after start stop hafter

/-- In whatever process a life leaves behind, a scan does not mix states. -/
theorem scans_of_lives (config : Config) (w₀ w : World) (es : List LifeEvent)
    (hcreated : Created config w₀) (hlife : Run LifeStep (.running w₀) es (.running w))
    (hpower : w.power = none) (before after : List HandleCall) (start stop : Option Bytes)
    (hcalls : AdmissibleHistory
      (before ++ .scan (start.map .bytes) (stop.map .bytes) :: after) ⟨w, []⟩) :
    let created := history before ⟨w, []⟩
    let i := created.iterators.length
    let scanning := HandleCall.step (.scan (start.map .bytes) (stop.map .bytes)) created
    let outs := outcomes i after scanning
    ∃ M pairs, Run MapStep (.opened fun _ => none) es (.opened M) ∧
      ListsRange (historyMap before ⟨w, []⟩ M) start stop pairs ∧ yielded outs <+: pairs ∧
      ((∀ x, (history after scanning).iterators[i]? = some x → x.changed = false) →
        .error .bufferPoolOverflow ∉ outs →
        outs = (List.range outs.length).map fun k => .ok pairs[k]?) := by
  intro created i scanning outs
  obtain ⟨hR, hholds⟩ := hcreated.holds (R := plainRegime config.pageSizeBytes) rfl
  obtain ⟨t, hrun, hholds⟩ :=
    (life_simulates hR).run hlife (fun e _ => e.within_plain) hholds
  cases t with
  | closed M => exact hholds.elim
  | jammed M => exact hholds.elim
  | opened M =>
      obtain ⟨hopened, C₀, rs, halive⟩ := hholds
      obtain ⟨H₀, T₀, hstart⟩ := (halive.ready hpower).underway hopened
      obtain ⟨hbefore, -, hafter⟩ := admissibleHistory_append hcalls
      obtain ⟨C₁, H₁, T₁, hcreated, -⟩ := history_underway hR before hstart hbefore
      obtain ⟨pairs, hpairs⟩ := hcreated.yields_prefix hR after start stop hafter
      exact ⟨M, pairs, hrun, hpairs⟩

/-! ## A history -/

/-- A test for calls that return. -/
def HandleCall.returns (s : Session) : HandleCall → Bool
  | .put key value =>
      match DB.put key value s.world with
      | .ok _ _ => true
      | .error _ _ => false
  | .next i walked =>
      match s.iterators[i]? with
      | some x => x.changed || decide (walked = walkedSlots s.world x.iterator.generator)
      | none => false
  | .scan _ _ => true
  | _ => false

def historyReturns : List HandleCall → Session → Bool
  | [], _ => true
  | c :: calls, s => c.returns s && historyReturns calls (c.step s)

theorem HandleCall.admissible_of_returns {s : Session} {c : HandleCall} (h : c.returns s = true) :
    c.Admissible s := by
  cases c with
  | put key value =>
      refine .inl ?_
      unfold HandleCall.returns at h
      cases hput : DB.put key value s.world with
      | ok a w' => exact ⟨w', rfl⟩
      | error e w' => simp [hput] at h
  | next i walked =>
      intro x hx hchanged
      simpa [HandleCall.returns, hx, hchanged] using h
  | scan start stop => trivial
  | delete key => cases h
  | get key => cases h
  | checkpoint => cases h
  | close => cases h
  | open_ => cases h

theorem admissible_of_historyReturns {calls : List HandleCall} {s : Session}
    (h : historyReturns calls s = true) : AdmissibleHistory calls s := by
  induction calls generalizing s with
  | nil => trivial
  | cons c calls ih =>
      obtain ⟨hc, hrest⟩ := Bool.and_eq_true_iff.mp h
      exact ⟨HandleCall.admissible_of_returns hc, ih hrest⟩

/-- A test of the world after an open. -/
def opensWith (w : World) (test : World → Bool) : Bool :=
  match DB.open_ w with
  | .ok _ w' => test w'
  | .error _ _ => false

theorem exists_of_opensWith (w : World) (test : World → Bool) (h : opensWith w test = true) :
    ∃ w', DB.open_ w = .ok () w' ∧ test w' = true := by
  rw [opensWith] at h
  cases hopen : DB.open_ w with
  | ok a w' =>
      simp only [hopen] at h
      exact ⟨w', rfl, h⟩
  | error e w' =>
      simp only [hopen] at h
      cases h

/-- A handle on an empty directory. -/
def scannedHandle : World := DB.handle ⟨256, 8, 1000, fun _ _ => false⟩ emptyDirectory none

theorem idle_scannedHandle : Idle (emptyContent 256) scannedHandle :=
  ⟨rfl, rfl, rfl, by decide, rfl, cleanPool_nil rfl⟩

def scannedPuts : List HandleCall :=
  [.put (.bytes [1]) (.bytes [2]), .put (.bytes [3]) (.bytes [4])]

/-- Between the second and the third `next()` another record is put. -/
def scannedSteps : List HandleCall :=
  [.next 0 [], .next 0 [⟨[1], [2]⟩, ⟨[3], [4]⟩], .put (.bytes [5]) (.bytes [6]), .next 0 []]

def scannedReturns (w : World) : Bool :=
  historyReturns (scannedPuts ++ .scan none none :: scannedSteps) ⟨w, []⟩

set_option maxRecDepth 100000 in
theorem opensWith_scannedReturns : opensWith scannedHandle scannedReturns = true := by
  decide +kernel

theorem scan_yields_prefix_put : ∃ w₀ pairs, DB.open_ scannedHandle = .ok () w₀ ∧
    ListsRange (historyMap scannedPuts ⟨w₀, []⟩ fun _ => none) none none pairs ∧
    yielded (outcomes (history scannedPuts ⟨w₀, []⟩).iterators.length scannedSteps
      (HandleCall.step (.scan none none) (history scannedPuts ⟨w₀, []⟩))) <+: pairs := by
  obtain ⟨w₀, hopen, htest⟩ := exists_of_opensWith _ _ opensWith_scannedReturns
  obtain ⟨hR, hopened, hready⟩ := ready_of_new rfl idle_scannedHandle rfl hopen
  obtain ⟨pairs, hpairs, hyields, -⟩ :=
    scan_yields_prefix hR hready hopened scannedPuts scannedSteps
    none none (admissible_of_historyReturns htest)
  exact ⟨w₀, pairs, hopen, hpairs, hyields⟩

end BPTreeDB.Runs
