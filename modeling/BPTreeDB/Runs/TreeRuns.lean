import BPTreeDB.Runs.Views

/-!
# Runs of the tree

Every run of tree operations and flushes in which no call raises, from the bootstrap tree
on and with a buffer pool of any size.  The run lemma `Reached.holding` carries the
invariant of a process that holds a tree through the run; the structure of the tree, the
sizes of its pages and the coherence of the cache are read off it.
-/

namespace BPTreeDB.Runs

open Lib Eng Codec Lib.Program PageStore Engine

variable {R : Regime} {L H : ℕ} {T : Tree H} {C : Content} {M : KeyMap} {w w' : World}
  {config : Config} {bounded : Bool} {x : ℕ}

/-! ## Calls -/

/-- A call on the tree, its buffer pool or its pager. -/
inductive TreeCall where
  | insert (key value : Bytes) (lsn : ℕ)
  | delete (key : Bytes) (lsn : ℕ)
  | search (key : Bytes)
  | scan (start stop : Option Bytes)
  | flushAll
  | flushDirtyFreelistPages

def TreeCall.run : TreeCall → Eng Unit
  | .insert key value lsn => BPlusTree.insert key value lsn
  | .delete key lsn => do let _ ← BPlusTree.delete key lsn
  | .search key => do let _ ← BPlusTree.search key
  | .scan start stop => do let _ ← BPlusTree.scan start stop
  | .flushAll => BufferPool.flushAll
  | .flushDirtyFreelistPages => Pager.flushDirtyFreelistPages

/-- The LSN that a call carries. -/
def TreeCall.lsn : TreeCall → ℕ
  | .insert _ _ lsn => lsn
  | .delete _ lsn => lsn
  | _ => 0

/-- A run stops at the first call that raises. -/
def runCalls : List TreeCall → Eng Unit
  | [] => pure ()
  | c :: rest => do
      c.run
      runCalls rest

/-- The pager and the pool of a tree in an empty directory.  An unbounded pool never
evicts. -/
def newTree (config : Config) (bounded : Bool) : World :=
  let w := DB.handle config ⟨none, none, none, none⟩ none
  { w with pool := { w.pool with evictionEnabled := bounded } }

/-- The process after a run of calls from the bootstrap tree, none of which raised. -/
def Reached (config : Config) (bounded : Bool) (calls : List TreeCall) (w : World) : Prop :=
  ∃ w₀, Pager.open_ (newTree config bounded) = .ok () w₀ ∧ runCalls calls w₀ = .ok () w

/-! ## Logical pages -/

/-- The content after an operation of the ideal page store. -/
def contentOf {α : Type} : EStateM.Result Fault Store α → Option Content
  | .ok _ S => some S.toContent
  | .error _ _ => none

/-- An ideal page store with room for every page that an operation may touch. -/
def idealStore (C : Content) : Store := ⟨C, [], [], 3 * C.next + 2⟩

/-- The effect of a call on the logical pages: the same operation on an ideal page store,
which has neither cache nor file.  Only inserts and deletes change a page. -/
def TreeCall.onContent : TreeCall → Content → Option Content
  | .insert key value lsn, C => contentOf (PageStore.insert key value lsn (idealStore C))
  | .delete key lsn, C => contentOf (PageStore.delete key lsn (idealStore C))
  | _, C => some C

def contentAfter : List TreeCall → Content → Option Content
  | [], C => some C
  | c :: rest, C => (c.onContent C).bind (contentAfter rest)

theorem contentAfter_append (calls rest : List TreeCall) (C : Content) :
    contentAfter (calls ++ rest) C = (contentAfter calls C).bind (contentAfter rest) := by
  induction calls generalizing C with
  | nil => rfl
  | cons c calls ih =>
      rw [List.cons_append, contentAfter, contentAfter, Option.bind_assoc]
      congr 1
      funext C'
      exact ih C'

/-! ## One call -/

/-- An accepted insert keeps the key within the cap of the regime. -/
def TreeCall.Within (R : Regime) : TreeCall → Prop
  | .insert key value _ => (calculateLeafRecordSize key value :
      ℤ) ≤ getMaxLeafRecordSize R.pageSize →
      key.length ≤ R.maxKey
  | _ => True

/-- Page sizes that the format can hold. -/
structure Sized (R : Regime) : Prop where
  large : minPageSize ≤ R.pageSize
  small : R.pageSize < 256 ^ 4

theorem Sized.storable (hR : Sized R) (h : Holding R L M C T w) : Storable C := by
  refine h.storable ?_ ?_
  · rw [h.pageSize]
    exact hR.small
  · rw [h.pageSize]
    have := hR.large
    simp only [minPageSize, metaPageNoCrcSize, crc32FieldSize, pageHeaderSize] at this ⊢
    omega

theorem touchBound_le (h : Holding R L M C T w) : touchBound H ≤ 3 * C.next + 2 := by
  have h1 := Tree.height_lt_length_pageIds H T
  have h2 := h.inv.accounted.length_lt
  unfold touchBound
  omega

theorem insert_tooLarge (hq : Quiet w C) (key value : Bytes) (lsn : ℕ)
    (hlarge : getMaxLeafRecordSize C.pageSize < calculateLeafRecordSize key value) :
    BPlusTree.insert key value lsn w = .error (.recordTooLarge (getMaxLeafRecordSize C.pageSize)
      (calculateLeafRecordSize key value)) w := by
  rw [BPlusTree.insert]
  exact run_bind_error (by rw [hq.raiseIfRecordTooLarge, if_pos hlarge])

/-- A mode that allows every call to leave the lockstep, and remembers the old pages. -/
def looseMode (C : Content) : Mode := ⟨False, True, fun x page => C.pages x = some page, none⟩

theorem looseMode_allows {n : ℕ} : (looseMode C).Allows n C w :=
  ⟨fun h => h.elim, fun h => absurd trivial h, fun _ _ h _ => h, fun _ h => by cases h⟩

/-! ### Modes without a way out -/

/-- A mode without a way out. -/
def tightMode : Mode := ⟨True, False, fun _ _ => True, none⟩

theorem tightMode_not_escape (e : Err) : ¬ tightMode.escape e := by
  simp [Mode.escape, tightMode]

/-- Without a way out, the engine returns where the page store does. -/
theorem returns_of_lockstep {mode : Mode} {α β : Type} {Q : α → β → World → Store → Prop}
    {r : EStateM.Result Err World α} {r' : EStateM.Result Fault Store β}
    (h : Lockstep mode Q r r') (hescape : ∀ e, ¬ mode.escape e) {b : β} {S : Store}
    (hstore : r' = .ok b S) : ∃ a w, r = .ok a w ∧ Q a b w S := by
  subst hstore
  cases r with
  | ok a w => exact ⟨a, w, rfl, h⟩
  | error e w => exact absurd h (hescape e)

/-! ### The logical effect -/

/-- A call that returned has its logical effect, and what it changed is dirty. -/
theorem TreeCall.step (hR : Sized R) (h : Holding R L M C T w) (c : TreeCall) (hlsn : c.lsn ≤ L)
    (hwithin : c.Within R) (hrun : c.run w = .ok () w') :
    ∃ C' M', c.onContent C = some C' ∧ (∃ (H' : ℕ) (T' : Tree H'), Holding R L M' C' T' w') ∧
      ∀ x page, C'.pages x = some page → C.pages x ≠ some page →
        ∃ cached, (x, cached) ∈ w'.pool.cache ∧ cached.isDirty = true := by
  have hdirty : ∀ {S : Store} {M' : KeyMap}, Done (looseMode C) R L M' S w' →
      ∀ x page, S.pages x = some page → C.pages x ≠ some page →
        ∃ cached, (x, cached) ∈ w'.pool.cache ∧ cached.isDirty = true := by
    intro S M' hdone x page hpage hchanged
    by_contra hclean
    refine hchanged (hdone.sim.pool.disk x page hpage
      (by simp [hdone.pending]) fun cached hc => ?_).2
    by_contra hd
    exact hclean ⟨cached, hc, by simpa using hd⟩
  -- A page that differs from the store of before is dirty: a clean one is as in the file.
  have hn := touchBound_le h
  cases c with
  | insert key value lsn =>
      have hrun : BPlusTree.insert key value lsn w = .ok () w' := hrun
      have hlsn : lsn ≤ L := hlsn
      have hfits : (calculateLeafRecordSize key value : ℤ) ≤ getMaxLeafRecordSize R.pageSize := by
        by_contra hlarge
        rw [insert_tooLarge h.quiet key value lsn (by rw [h.pageSize]; exact lt_of_not_ge hlarge)]
          at hrun
        cases hrun
      rcases h.insert (looseMode_allows (C := C))  hn hfits (hwithin hfits) hlsn with
        ⟨w₁, S, hengine, hstore, hdone⟩ | ⟨e, w₁, hengine, -⟩
      · rw [hengine] at hrun
        cases hrun
        refine ⟨S.toContent, _, ?_, hdone.holding, hdirty hdone⟩
        rw [TreeCall.onContent, idealStore, hstore, contentOf]
      · rw [hengine] at hrun
        cases hrun
  | delete key lsn =>
      have hlsn : lsn ≤ L := hlsn
      rcases h.delete (looseMode_allows (C := C))  hn key hlsn with
        ⟨w₁, S, hengine, hstore, hdone⟩ | ⟨e, w₁, hengine, -⟩
      · have hrun' : (TreeCall.delete key lsn).run w = .ok () w₁ := run_bind_ok hengine
        rw [hrun'] at hrun
        cases hrun
        refine ⟨S.toContent, _, ?_, hdone.holding, hdirty hdone⟩
        rw [TreeCall.onContent, idealStore, hstore, contentOf]
      · have hrun' : (TreeCall.delete key lsn).run w = .error e w₁ := run_bind_error hengine
        rw [hrun'] at hrun
        cases hrun
  | search key =>
      rcases h.search (looseMode_allows (C := C)) hn key with
        ⟨w₁, S, hengine, -, hcontent, hdone⟩ | ⟨e, w₁, hengine, -⟩
      · have hrun' : (TreeCall.search key).run w = .ok () w₁ := run_bind_ok hengine
        rw [hrun'] at hrun
        cases hrun
        exact ⟨C, M, rfl, hcontent ▸ hdone.holding, fun x page hx hne => absurd hx hne⟩
      · have hrun' : (TreeCall.search key).run w = .error e w₁ := run_bind_error hengine
        rw [hrun'] at hrun
        cases hrun
  | scan start stop =>
      rcases h.scan start stop with ⟨w₁, hengine, h'⟩ | ⟨e, w₁, hengine, -⟩
      · have hrun' : (TreeCall.scan start stop).run w = .ok () w₁ := run_bind_ok hengine
        rw [hrun'] at hrun
        cases hrun
        exact ⟨C, M, rfl, ⟨H, T, h'⟩, fun x page hx hne => absurd hx hne⟩
      · have hrun' : (TreeCall.scan start stop).run w = .error e w₁ := run_bind_error hengine
        rw [hrun'] at hrun
        cases hrun
  | flushAll =>
      have hspec := flushAll_spec (hR.storable h) h.quiet
      rw [show BufferPool.flushAll w = .ok () w' from hrun] at hspec
      exact ⟨C, M, rfl, ⟨H, T, h.of_quiet hspec.1⟩, fun x page hx hne => absurd hx hne⟩
  | flushDirtyFreelistPages =>
      have hspec := flushDirtyFreelistPages_spec (hR.storable h) h.quiet
      rw [show Pager.flushDirtyFreelistPages w = .ok () w' from hrun] at hspec
      exact ⟨C, M, rfl, ⟨H, T, h.of_quiet hspec.1⟩, fun x page hx hne => absurd hx hne⟩

/-- The two worlds have pools of the same size, and the machine keeps its power. -/
structure SameSettings (w w' : World) : Prop where
  capacity : w'.pool.capacityPages = w.pool.capacityPages
  eviction : w'.pool.evictionEnabled = w.pool.evictionEnabled
  power : w.power = none → w'.power = none

theorem SameSettings.of_noSteal (h : NoSteal w w') : SameSettings w w' :=
  ⟨congrArg Frozen.capacityPages h.frozen, congrArg Frozen.evictionEnabled h.frozen, h.power⟩

theorem SameSettings.of_flushes (h : Flushes w w') : SameSettings w w' := by
  obtain ⟨⟨power, content, cache, dirty, rfl⟩, hpower, -⟩ := h
  exact ⟨rfl, rfl, hpower⟩

theorem SameSettings.trans {w'' : World} (h : SameSettings w w') (h' : SameSettings w' w'') :
    SameSettings w w'' :=
  ⟨h'.capacity.trans h.capacity, h'.eviction.trans h.eviction, fun hw => h'.power (h.power hw)⟩

theorem TreeCall.settings (hR : Sized R) (h : Holding R L M C T w) (c : TreeCall)
    (hrun : c.run w = .ok () w') : SameSettings w w' := by
  cases c with
  | insert key value lsn => exact .of_noSteal ((noSteal_steps.treeInsert key value lsn).ok hrun)
  | delete key lsn =>
      obtain ⟨_, _, hrun, hpure⟩ := bind_eq_ok.mp hrun
      cases hpure
      exact .of_noSteal ((noSteal_steps.treeDelete key lsn).ok hrun)
  | search key =>
      obtain ⟨_, _, hrun, hpure⟩ := bind_eq_ok.mp hrun
      cases hpure
      exact .of_noSteal ((noSteal_steps.search key).ok hrun)
  | scan start stop =>
      obtain ⟨_, _, hrun, hpure⟩ := bind_eq_ok.mp hrun
      cases hpure
      exact .of_noSteal ((noSteal_steps.scan start stop).ok hrun)
  | flushAll =>
      have hspec := flushAll_spec (hR.storable h) h.quiet
      rw [show BufferPool.flushAll w = .ok () w' from hrun] at hspec
      exact .of_flushes hspec.2.1
  | flushDirtyFreelistPages =>
      have hspec := flushDirtyFreelistPages_spec (hR.storable h) h.quiet
      rw [show Pager.flushDirtyFreelistPages w = .ok () w' from hrun] at hspec
      exact .of_flushes hspec.2.1

/-! ## Whole runs -/

variable {calls : List TreeCall}

theorem runCalls_holding (hR : Sized R) (calls : List TreeCall) :
    ∀ {H : ℕ} {T : Tree H} {C : Content} {M : KeyMap} {w : World}, Holding R L M C T w →
      (∀ c ∈ calls, c.lsn ≤ L ∧ c.Within R) → runCalls calls w = .ok () w' →
      SameSettings w w' ∧ ∃ C' M', contentAfter calls C = some C' ∧
        ∃ (H' : ℕ) (T' : Tree H'), Holding R L M' C' T' w' := by
  induction calls with
  | nil =>
      intro H T C M w h _ hrun
      cases hrun
      exact ⟨⟨rfl, rfl, id⟩, C, M, rfl, H, T, h⟩
  | cons c calls ih =>
      intro H T C M w h hcalls hrun
      obtain ⟨⟨⟩, w₁, hrun₁, hrun₂⟩ := bind_eq_ok.mp hrun
      obtain ⟨hlsn, hwithin⟩ := hcalls c (List.mem_cons_self ..)
      have hsettings := c.settings hR h hrun₁
      obtain ⟨C₁, M₁, hcontent, ⟨H₁, T₁, h₁⟩, -⟩ := c.step hR h hlsn hwithin hrun₁
      obtain ⟨hsettings', C', M', hafter, hholding⟩ := ih h₁
        (fun c hc => hcalls c (List.mem_cons_of_mem _ hc)) hrun₂
      refine ⟨hsettings.trans hsettings', C', M', ?_, hholding⟩
      rw [contentAfter, hcontent, Option.bind_some, hafter]

/-- The bootstrap tree. -/
theorem holding_of_open (hsize : R.pageSize = config.pageSizeBytes)
    (hP : minPageSize ≤ config.pageSizeBytes)
    (hopen : Pager.open_ (newTree config bounded) = .ok () w) :
    config.pageSizeBytes < 256 ^ 4 ∧ SameSettings (newTree config bounded) w ∧
      Holding R 0 (fun _ => none) (emptyContent config.pageSizeBytes) emptyTree w := by
  have hspec := pagerOpen_new (w := newTree config bounded) rfl rfl hP
  rw [hopen] at hspec
  obtain ⟨hsmall, content, power, hpower, himage, rfl⟩ := hspec
  refine ⟨hsmall, ⟨rfl, rfl, hpower⟩, ?_, storeInv_empty _, good_emptyTree ?_, hsize.symm,
    represents_empty⟩
  · exact himage.pagesOn.quiet (f := ⟨content, content⟩) rfl rfl rfl rfl himage.fields rfl rfl
  · rw [hsize]
    simp only [minPageSize, metaPageNoCrcSize, crc32FieldSize, pageHeaderSize] at hP ⊢
    omega

/-- A process reached by a run holds a good tree, with the logical pages of the run. -/
theorem Reached.holding (h : Reached config bounded calls w)
    (hsize : R.pageSize = config.pageSizeBytes) (hP : minPageSize ≤ config.pageSizeBytes)
    (hwithin : ∀ c ∈ calls, c.Within R) :
    Sized R ∧ SameSettings (newTree config bounded) w ∧
      ∃ L C M, contentAfter calls (emptyContent config.pageSizeBytes) = some C ∧
        ∃ (H : ℕ) (T : Tree H), Holding R L M C T w := by
  obtain ⟨w₀, hopen, hrun⟩ := h
  obtain ⟨hsmall, hsettings, h₀⟩ := holding_of_open hsize hP hopen
  have hR : Sized R := ⟨by rw [hsize]; exact hP, by rw [hsize]; exact hsmall⟩
  have hlsn : ∀ c ∈ calls, c.lsn ≤ (calls.map TreeCall.lsn).sum ∧ c.Within R :=
    fun c hc => ⟨List.le_sum_of_mem (List.mem_map_of_mem hc), hwithin c hc⟩
  obtain ⟨hsettings', hholding⟩ := runCalls_holding hR calls (h₀.mono (Nat.zero_le _)) hlsn hrun
  exact ⟨hR, hsettings.trans hsettings', _, hholding⟩

/-! ## The plain regime -/

theorem key_le_of_accepted {P : ℕ} {key value : Bytes}
    (h : (calculateLeafRecordSize key value : ℤ) ≤ getMaxLeafRecordSize P) :
    key.length ≤ (P - pageHeaderSize) / 5 - 16 := by
  simp only [calculateLeafRecordSize, getMaxLeafRecordSize, lengthFieldSize, pageHeaderSize,
    slotEntrySize] at h ⊢
  omega

theorem cap_plain {P : ℕ} (hP : 112 ≤ P) :
    16 + ((P - pageHeaderSize) / 5 - 16) ≤ (P - pageHeaderSize) / 5 := by
  simp only [pageHeaderSize]
  omega

theorem large_plain {P : ℕ} (h : False) : 256 ≤ P := h.elim

theorem thin_plain {P : ℕ} (h : False) :
    112 ≤ P ∧ 5 * (pageHeaderSize + (P - pageHeaderSize) / 5) < 2 * P := h.elim

theorem short_plain {P : ℕ} (h : False) :
    2 * ((2 * P - 1) / 5) + 2 * ((P - pageHeaderSize) / 5 - 16) + 8 ≤ P := h.elim

/-- The bounds that every accepted record keeps, without the half-full rule. -/
def plainRegime (P : ℕ) : Regime where
  pageSize := P
  maxKey := (P - pageHeaderSize) / 5 - 16
  healthyLeaves := False
  healthyNodes := False
  cap := cap_plain
  thin := thin_plain
  large := large_plain
  short := short_plain

theorem within_plainRegime {P : ℕ} (c : TreeCall) : c.Within (plainRegime P) := by
  cases c with
  | insert key value lsn => exact key_le_of_accepted
  | _ => trivial

theorem Reached.plain (h : Reached config bounded calls w)
    (hP : minPageSize ≤ config.pageSizeBytes) :
    Sized (plainRegime config.pageSizeBytes) ∧ SameSettings (newTree config bounded) w ∧
      ∃ L C M, contentAfter calls (emptyContent config.pageSizeBytes) = some C ∧
        ∃ (H : ℕ) (T : Tree H), Holding (plainRegime config.pageSizeBytes) L M C T w :=
  h.holding rfl hP fun c _ => within_plainRegime c

/-! ## Levels -/

/-- The tree under a page has the given number of levels. -/
inductive Levels (view : ℕ → Option Page) : ℕ → ℕ → Prop
  | leaf {x : ℕ} {p : LeafPage} : view x = some (.leaf p) → Levels view x 1
  | node {x levels : ℕ} {p : InternalPage} : view x = some (.internal p) →
      Levels view p.leftmostChildPageId levels → Levels view x (levels + 1)

theorem Levels.unique {view : ℕ → Option Page} {m n : ℕ} (hm : Levels view x m)
    (hn : Levels view x n) : m = n := by
  induction hm generalizing n with
  | leaf hview =>
      cases hn with
      | leaf _ => rfl
      | node hview' _ =>
          rw [hview] at hview'
          cases hview'
  | node hview _ ih =>
      cases hn with
      | leaf hview' =>
          rw [hview] at hview'
          cases hview'
      | node hview' hn =>
          rw [hview] at hview'
          cases hview'
          rw [ih hn]

theorem levels_of_shows {view : ℕ → Option Page} :
    ∀ {h : ℕ} {t : Tree h}, Shows view h t → Levels view (Tree.id h t) (h + 1) := by
  intro h
  induction h with
  | zero =>
      intro t hs
      obtain ⟨l, rfl⟩ := t.exists_leaf
      obtain ⟨page, hview, hstrip⟩ := hs (l.id, Tree.page 0 (.leaf l)) (by simp [Tree.pages])
      rw [eq_leaf_of_stripLsn hstrip] at hview
      exact .leaf hview
  | succ h ih =>
      intro t hs
      obtain ⟨n, rfl⟩ := t.exists_node
      obtain ⟨hfirst, -, p, hview, hleft, -⟩ := hs.node
      refine .node hview ?_
      rw [hleft]
      exact ih hfirst

/-- Under a root of three levels there is an internal page that is not the root. -/
theorem Levels.exists_internal {view : ℕ → Option Page} (h : Levels view x 3) :
    ∃ y p, InTree view x y ∧ y ≠ x ∧ view y = some (.internal p) := by
  have hroot := h
  cases h with
  | node hview hchild =>
      rename_i p
      have hne : p.leftmostChildPageId ≠ x := by
        intro heq
        have := (heq ▸ hchild).unique hroot
        omega
      cases hchild with
      | node hview' _ => exact ⟨_, _, .first .root hview, hne, hview'⟩

/-! ## Concrete runs -/

/-- The exception that a run raises, if any. -/
def raisedBy {α : Type} : EStateM.Result Err World α → Option Err
  | .ok _ _ => none
  | .error e _ => some e

theorem raisedBy_eq_none {α : Type} {r : EStateM.Result Err World α} (h : raisedBy r = none) :
    ∃ a w, r = .ok a w := by
  cases r with
  | ok a w => exact ⟨a, w, rfl⟩
  | error e w => cases h

theorem raisedBy_eq_some {α : Type} {r : EStateM.Result Err World α} {e : Err}
    (h : raisedBy r = some e) : ∃ w, r = .error e w := by
  cases r with
  | ok a w => cases h
  | error e' w =>
      cases h
      exact ⟨w, rfl⟩

/-- A bootstrap and a run, as one program. -/
def openAndRun (calls : List TreeCall) : Eng Unit := do
  Pager.open_
  runCalls calls

theorem reached_of_run (h : openAndRun calls (newTree config bounded) = .ok () w) :
    Reached config bounded calls w := by
  obtain ⟨⟨⟩, w₀, hopen, hrun⟩ := bind_eq_ok.mp h
  exact ⟨w₀, hopen, hrun⟩

/-- A run ends in a world with the given property. -/
def endsIn (test : World → Bool) : EStateM.Result Err World Unit → Bool
  | .ok _ w => test w
  | .error _ _ => false

theorem exists_reached_with (config : Config) (bounded : Bool) (calls : List TreeCall)
    (test : World → Bool) (h : endsIn test (openAndRun calls (newTree config bounded)) = true) :
    ∃ w, Reached config bounded calls w ∧ test w = true := by
  cases hrun : openAndRun calls (newTree config bounded) with
  | ok a w =>
      rw [hrun] at h
      exact ⟨w, reached_of_run hrun, h⟩
  | error e w =>
      rw [hrun] at h
      cases h

/-- Pages of `256` bytes, and a pool of `8` pages if it is bounded. -/
def smallConfig : Config := ⟨256, 8, 0, fun _ _ => false⟩

/-- An insert of the key that starts with `b` and goes on with zeros. -/
def insertOf (record : Byte × ℕ × ℕ) : TreeCall :=
  .insert (record.1 :: List.replicate (record.2.1 - 1) 0) (List.replicate record.2.2 0) 1

/-- The same pages, and a pool of `3 * 3 + 2` pages: what an operation on three levels takes. -/
def tightConfig : Config := ⟨256, 11, 0, fun _ _ => false⟩

/-- An insert or a delete of the key of `22` bytes that starts with `b`. -/
def addKey (b : ℕ) : TreeCall := insertOf (Fin.ofNat 256 b, 22, 0)

def dropKey (b : ℕ) : TreeCall := .delete (Fin.ofNat 256 b :: List.replicate 21 0) 2

/-- A run that grows a tree to three levels.  Its deletes merge leaves, and below the root
they refill one internal page from its sibling and merge two others. -/
def sampleCalls : List TreeCall :=
  (List.range 26).map addKey ++ [.flushAll] ++ (List.range' 26 7).map addKey ++
    [32, 31, 30, 29, 28, 27].map dropKey ++
    [.scan none none, .flushDirtyFreelistPages, .flushAll, .search [7]]

/-- The number of levels on the leftmost path under a page. -/
def levelCount (view : ℕ → Option Page) : ℕ → ℕ → Option ℕ
  | 0, _ => none
  | fuel + 1, x =>
      match view x with
      | none => none
      | some (.leaf _) => some 1
      | some (.internal p) => (levelCount view fuel p.leftmostChildPageId).map (· + 1)

theorem levels_of_levelCount {view : ℕ → Option Page} {fuel levels : ℕ}
    (h : levelCount view fuel x = some levels) : Levels view x levels := by
  induction fuel generalizing x levels with
  | zero => cases h
  | succ fuel ih =>
      rw [levelCount] at h
      split at h
      · cases h
      · rename_i p hp
        cases h
        exact .leaf hp
      · rename_i p hp
        obtain ⟨n, hn, rfl⟩ := Option.map_eq_some_iff.mp h
        exact .node hp (ih hn)

/-- The process holds a tree of three levels. -/
def hasThreeLevels (w : World) : Bool :=
  match w.pager.metaPage with
  | none => false
  | some m => levelCount (treePage w) 4 m.rootPageId == some 3

theorem levels_of_hasThreeLevels (h : hasThreeLevels w = true) :
    ∃ m, w.pager.metaPage = some m ∧ Levels (treePage w) m.rootPageId 3 := by
  unfold hasThreeLevels at h
  split at h
  · cases h
  · rename_i m hm
    exact ⟨m, hm, levels_of_levelCount (by simpa using h)⟩

/-- Every place of the pool is taken, by clean pages. -/
def isFullAndClean (w : World) : Bool :=
  w.pool.cache.length == w.pool.capacityPages && w.pool.dirtyCount == 0

set_option maxRecDepth 100000 in
theorem exists_sample : ∃ w m, Reached tightConfig true sampleCalls w ∧
    w.pager.metaPage = some m ∧ Levels (treePage w) m.rootPageId 3 ∧
      w.pool.cache.length = w.pool.capacityPages ∧ w.pool.dirtyCount = 0 := by
  obtain ⟨w, hreached, htest⟩ := exists_reached_with tightConfig true sampleCalls
    (fun w => hasThreeLevels w && isFullAndClean w) (by decide +kernel)
  obtain ⟨hdeep, hfull⟩ := (Bool.and_eq_true _ _).mp htest
  obtain ⟨m, hm, hlevels⟩ := levels_of_hasThreeLevels hdeep
  unfold isFullAndClean at hfull
  simp only [Bool.and_eq_true, beq_iff_eq] at hfull
  exact ⟨w, m, hreached, hm, hlevels, hfull⟩

set_option maxRecDepth 100000 in
theorem exists_sample_unbounded : ∃ w m, Reached tightConfig false sampleCalls w ∧
    w.pager.metaPage = some m ∧ Levels (treePage w) m.rootPageId 3 := by
  obtain ⟨w, hreached, htest⟩ :=
    exists_reached_with tightConfig false sampleCalls hasThreeLevels (by decide +kernel)
  obtain ⟨m, hm, hlevels⟩ := levels_of_hasThreeLevels htest
  exact ⟨w, m, hreached, hm, hlevels⟩

/-! ## The structure of the tree -/

/-- The pages under `root` are those of the tree `T`, all of whose leaves are at depth `H`. -/
structure StructuralInvariant (view : ℕ → Option Page) (root : ℕ) (T : Tree H) : Prop where
  rootId : Tree.id H T = root
  pages : Shows view H T
  reached : ∀ x, InTree view root x ↔ x ∈ Tree.pageIds H T
  once : (Tree.pageIds H T).Nodup
  sorted : ∀ p ∈ Tree.pages H T, (pageKeys p.2).Pairwise (· < ·)
  separated : Tree.Separated H T
  rootSeparator : H ≠ 0 → pageKeys (Tree.page H T) ≠ []
  leafChain : Links (leavesOf (Tree.items H T)) 0

theorem Holding.structuralInvariant (h : Holding R L M C T w) :
    StructuralInvariant (treePage w) C.root T where
  rootId := h.inv.root.symm
  pages := h.shows
  reached x := by
    rw [h.inv.root]
    exact h.shows.inTree_iff
  once := h.inv.holds.nodup
  sorted := Tree.pageKeys_sorted h.inv.ordered.sorted
  separated := Tree.separated_of_sorted h.inv.ordered.sorted
  rootSeparator hH := by
    obtain ⟨k, rfl⟩ := Nat.exists_eq_succ_of_ne_zero hH
    obtain ⟨n, rfl⟩ := T.exists_node
    have hgood := (Tree.good_iff.mp h.good).1
    have hne := (Tree.rootGood_node.mp hgood).nonempty
    simpa [pageKeys] using hne
  leafChain := h.inv.ordered.linked

/-- After every run of inserts and deletes in which no call raises, the pages under the
root form a B+ tree. -/
theorem structural_invariant (config : Config) (bounded : Bool) (calls : List TreeCall) (w : World)
    (hP : minPageSize ≤ config.pageSizeBytes) (h : Reached config bounded calls w) :
    ∃ m, w.pager.metaPage = some m ∧
      ∃ (H : ℕ) (T : Tree H), StructuralInvariant (treePage w) m.rootPageId T := by
  obtain ⟨-, -, L, C, M, -, H, T, hholding⟩ := h.plain hP
  obtain ⟨m, hm, hmeta, -⟩ := hholding.quiet.freelist
  refine ⟨m, hm, H, T, ?_⟩
  rw [hmeta.root]
  exact Holding.structuralInvariant hholding

theorem structural_invariant_sampleCalls : ∃ w m, Reached tightConfig true sampleCalls w ∧
    w.pager.metaPage = some m ∧ Levels (treePage w) m.rootPageId 3 ∧
      ∃ (H : ℕ) (T : Tree H), StructuralInvariant (treePage w) m.rootPageId T := by
  obtain ⟨w, m, hreached, hm, hlevels, -⟩ := exists_sample
  obtain ⟨m', hm', htree⟩ :=
    structural_invariant tightConfig true sampleCalls w (by decide) hreached
  obtain rfl : m' = m := Option.some.inj (hm'.symm.trans hm)
  exact ⟨w, m', hreached, hm, hlevels, htree⟩

/-! ## Page sizes -/

/-- Encoding the page gives one page of bytes, from which it is read back. -/
def WritesExactly (P : ℕ) (page : AnyPage) : Prop :=
  ∀ data, encodePage page P = .ok data → data.length = P ∧ decodePage data = .ok page

theorem writesExactly_of_fits {P : ℕ} {page : AnyPage} (hP : P < 256 ^ 4) (hfits : Fits P page) :
    WritesExactly P page := by
  intro data hdata
  obtain ⟨bytes, hencode, hlen, hdecode⟩ := encodePage_spec (encodable_of_encodePage hP hfits hdata)
  obtain rfl : bytes = data := Except.ok.inj (hencode.symm.trans hdata)
  exact ⟨hlen, hdecode⟩

/-- A page under the root is a page of the store. -/
theorem Holding.page_of_inTree (h : Holding R L M C T w) (hx : InTree (treePage w) C.root x) :
    ∃ page, C.pages x = some page ∧ treePage w x = some page := by
  rw [h.inv.root, h.shows.inTree_iff] at hx
  obtain ⟨p, hp, rfl⟩ := List.mem_map.mp hx
  obtain ⟨page, hpage, -⟩ := h.inv.holds.stores p hp
  exact ⟨page, hpage, h.quiet.treePage hpage⟩

/-- The object of a cached page has the content of the page. -/
theorem Holding.page_of_cached (h : Holding R L M C T w) {cached : CachedPage}
    (hmem : (x, cached) ∈ w.pool.cache) :
    ∃ page, C.pages x = some page ∧ w.pool.objects[cached.page]? = some page :=
  h.quiet.pool.object (x, cached.page) (List.mem_append_right _ (List.mem_map.mpr ⟨_, hmem, rfl⟩))

/-- After every run in which no call raises, every page fits into a page of the file, so
that a flush writes it without loss. -/
theorem every_page_fits (config : Config) (bounded : Bool) (calls : List TreeCall) (w : World)
    (hP : minPageSize ≤ config.pageSizeBytes) (h : Reached config bounded calls w) :
    ∃ m chain, w.pager.metaPage = some m ∧
      ChainFrom (fun x page => freelistPage w x = some page) m.freelistHeadPageId chain ∧
      (∀ x page, InTree (treePage w) m.rootPageId x → treePage w x = some page →
        calculatePageSize page ≤ config.pageSizeBytes) ∧
      (∀ e ∈ chain, e.2.length ≤ getMaxFreedIdsPerFreelistPage config.pageSizeBytes) ∧
      (∀ x cached, (x, cached) ∈ w.pool.cache → ∃ page,
        w.pool.objects[cached.page]? = some page ∧
          WritesExactly config.pageSizeBytes (.tree page)) ∧
      ∀ x page, w.pager.freelistCache.lookup x = some page →
        WritesExactly config.pageSizeBytes (.freelist page) := by
  obtain ⟨hR, -, L, C, M, -, H, T, hholding⟩ := h.plain hP
  have hst := hR.storable hholding
  have hsize : C.pageSize = config.pageSizeBytes := hholding.pageSize
  obtain ⟨m, hm, hmeta, hchain⟩ := hholding.quiet.freelist
  refine ⟨m, C.chain, hm, hchain, fun x page hx hpage => ?_, ?_, fun x cached hmem => ?_,
    fun x page hlookup => ?_⟩
  · rw [hmeta.root] at hx
    obtain ⟨q, hq, hview⟩ := Holding.page_of_inTree hholding hx
    obtain rfl : page = q := Option.some.inj (hpage.symm.trans hview)
    rw [← hsize]
    exact hst.fits x page hq
  · rw [← hsize]
    exact hst.chainFits
  · obtain ⟨page, hpage, hobject⟩ := Holding.page_of_cached hholding hmem
    refine ⟨page, hobject, ?_⟩
    rw [← hsize]
    exact writesExactly_of_fits hst.pageSize (hst.fits x page hpage)
  · have hlen := hst.chainFits _ (mem_of_chainPage (hholding.quiet.chainPage_of_cached hlookup))
    have hheader := hst.header
    rw [← hsize]
    refine writesExactly_of_fits hst.pageSize ?_
    simp only [getMaxFreedIdsPerFreelistPage, pageHeaderSize, pageIdFieldSize,
      Fits] at hlen hheader ⊢
    omega

theorem every_page_fits_sampleCalls : ∃ w m chain, Reached tightConfig true sampleCalls w ∧
    w.pager.metaPage = some m ∧ Levels (treePage w) m.rootPageId 3 ∧
      ChainFrom (fun x page => freelistPage w x = some page) m.freelistHeadPageId chain ∧
      (∀ x page, InTree (treePage w) m.rootPageId x → treePage w x = some page →
        calculatePageSize page ≤ 256) ∧
      (∀ e ∈ chain, e.2.length ≤ getMaxFreedIdsPerFreelistPage 256) ∧
      ∀ x cached, (x, cached) ∈ w.pool.cache → ∃ page,
        w.pool.objects[cached.page]? = some page ∧ WritesExactly 256 (.tree page) := by
  obtain ⟨w, m, hreached, hm, hlevels, -⟩ := exists_sample
  obtain ⟨m', chain, hm', hchain, hfits, hfreed, hcached, -⟩ :=
    every_page_fits tightConfig true sampleCalls w (by decide) hreached
  obtain rfl : m' = m := Option.some.inj (hm'.symm.trans hm)
  exact ⟨w, m', chain, hreached, hm, hlevels, hchain, hfits, hfreed, hcached⟩

/-! ## Cache coherence -/

/-- The process agrees with the logical pages `C`: cached objects have their content, and
what is clean or not cached is in the data file. -/
structure Coherent (w : World) (C : Content) : Prop where
  clean : ∀ x cached, (x, cached) ∈ w.pool.cache → ∃ page, C.pages x = some page ∧
    w.pool.objects[cached.page]? = some page ∧
      (cached.isDirty = false → filePage w x = some (.tree page))
  uncached : ∀ x page, C.pages x = some page → x ∉ w.pool.cache.map Prod.fst →
    filePage w x = some (.tree page)
  apart : ∀ x ∈ w.pool.cache.map Prod.fst, x ∉ w.pager.freelistCache.map Prod.fst

theorem Holding.coherent (hR : Sized R) (h : Holding R L M C T w) : Coherent w C := by
  have hst := hR.storable h
  have hsize : w.pager.pageSizeBytes = C.pageSize := h.quiet.pageSize
  refine ⟨fun x cached hmem => ?_, fun x page hpage habsent => ?_, fun x hx hfree => ?_⟩
  · obtain ⟨page, hpage, hobject⟩ := Holding.page_of_cached h hmem
    refine ⟨page, hpage, hobject, fun hclean => ?_⟩
    rw [filePage_eq_some, hsize]
    refine (h.quiet.pool.disk x page hpage (by simp) fun c hc => ?_).1
    obtain rfl : c = cached := by
      simpa using List.inj_on_of_nodup_map h.quiet.pool.nodup hc hmem rfl
    exact hclean
  · rw [filePage_eq_some, hsize]
    exact (h.quiet.pool.disk x page hpage (by simp) fun c hc =>
      absurd (List.mem_map_of_mem (f := Prod.fst) hc) habsent).1
  · obtain ⟨⟨x, cached⟩, hmem, rfl⟩ := List.mem_map.mp hx
    obtain ⟨page, hpage, -⟩ := Holding.page_of_cached h hmem
    obtain ⟨m, -, -, hsim⟩ := h.quiet.metaPage
    exact hst.apart x (Option.isSome_iff_exists.mpr ⟨page, hpage⟩) (hsim.cached x hfree)

/-- The coherence of the cache: after every run of tree operations, flushes and evictions
the process agrees with the logical pages, and a page that an insert or a delete changed is
dirty when it returns. -/
theorem cache_coherence (config : Config) (bounded : Bool) (calls : List TreeCall) (w : World)
    (hP : minPageSize ≤ config.pageSizeBytes) (h : Reached config bounded calls w) :
    ∃ C, contentAfter calls (emptyContent config.pageSizeBytes) = some C ∧ Coherent w C ∧
      ∀ (c : TreeCall) (w' : World), c.run w = .ok () w' →
        ∃ C', contentAfter (calls ++ [c]) (emptyContent config.pageSizeBytes) = some C' ∧
          Coherent w' C' ∧
          ∀ x page, C'.pages x = some page → C.pages x ≠ some page →
            ∃ cached, (x, cached) ∈ w'.pool.cache ∧ cached.isDirty = true := by
  obtain ⟨hR, -, L, C, M, hcontent, H, T, hholding⟩ := h.plain hP
  refine ⟨C, hcontent, Holding.coherent hR hholding, fun c w' hrun => ?_⟩
  obtain ⟨C', M', hcontent', ⟨H', T', hholding'⟩, hdirty⟩ :=
    c.step hR (hholding.mono (Nat.le_add_right L c.lsn)) (Nat.le_add_left _ _)
      (within_plainRegime c) hrun
  refine ⟨C', ?_, Holding.coherent hR hholding', hdirty⟩
  rw [contentAfter_append, hcontent, Option.bind_some, contentAfter, hcontent']
  rfl

theorem cache_coherence_sampleCalls : ∃ w C, Reached tightConfig true sampleCalls w ∧
    contentAfter sampleCalls (emptyContent 256) = some C ∧ Coherent w C ∧
      ∀ (c : TreeCall) (w' : World), c.run w = .ok () w' → ∃ C',
        contentAfter (sampleCalls ++ [c]) (emptyContent 256) = some C' ∧ Coherent w' C' ∧
          ∀ x page, C'.pages x = some page → C.pages x ≠ some page →
            ∃ cached, (x, cached) ∈ w'.pool.cache ∧ cached.isDirty = true := by
  obtain ⟨w, m, hreached, -⟩ := exists_sample
  obtain ⟨C, hcontent, hcoherent, hnext⟩ :=
    cache_coherence tightConfig true sampleCalls w (by decide) hreached
  exact ⟨w, C, hreached, hcontent, hcoherent, hnext⟩

end BPTreeDB.Runs
