import BPTreeDB.Engine.Holding

/-!
# Reading pages

What a fetch from the buffer pool can do: `ReadInvariant P E` says that its steps keep `P`
and raise exceptions in `E`, and then so does every operation that only reads.  A pool with a
page that is free or clean never overflows while pages are read.
-/

namespace BPTreeDB.Engine

open Lib Eng Codec Lib.Program PageStore

variable {R : Regime} {L H : ℕ} {T : Tree H} {C : Content} {M : KeyMap} {w w' : World} {α : Type}

/-- The exceptions of the steps that only read pages, in a pool that has room. -/
def ReadError (e : Err) : Prop :=
  e ≠ .bufferPoolOverflow ∧ (∀ pageId, e ≠ .keyError pageId) ∧ e ≠ .powerLoss ∧
    e ≠ .concurrentPageModification

theorem FormatError.readError {e : Err} (h : FormatError e) : ReadError e := by
  rcases h with rfl | ⟨message, rfl⟩
  · simp [ReadError]
  · simp [ReadError]

/-- The pool after a hit, which moves the page to the end. -/
def hitPool (pool : BufferPool) (pageId : ℕ) (cached : CachedPage) : BufferPool :=
  { pool with cache := pool.cache.filter (·.1 ≠ pageId) ++ [(pageId, cached)] }

/-- The pool after a page was read. -/
def enteredPool (pool : BufferPool) (pageId : ℕ) (page : Page) : BufferPool :=
  { pool with
    objects := pool.objects ++ [page]
    cache := pool.cache ++ [(pageId, ⟨pool.objects.length, false⟩)] }

/-- The steps of a fetch keep `P`, and what they raise is in `E`. -/
structure ReadInvariant (P : World → Prop) (E : Err → Prop) : Prop where
  error : ∀ e, ReadError e → E e
  evict : Upholds P E BufferPool.evictOldestCleanPageIfFull
  hit : ∀ w pageId cached, P w → w.pool.cache.lookup pageId = some cached →
    P { w with pool := hitPool w.pool pageId cached }
  enter : ∀ w pageId page, P w → P { w with pool := enteredPool w.pool pageId page }

namespace ReadInvariant

variable {P : World → Prop} {E : Err → Prop}

theorem raise (h : ReadInvariant P E) {e : Err} (he : ReadError e) :
    Upholds P E (throw e : Eng α) :=
  upholds_throw (h.error e he)

theorem codec (h : ReadInvariant P E) {x : Except Err α} (hx : Decodes x) :
    Upholds P E (Eng.codec x) := by
  cases x with
  | ok a => exact upholds_pure a
  | error e => exact h.raise (FormatError.readError (hx e rfl))

theorem readPage (h : ReadInvariant P E) (pageId : ℕ) : Upholds P E (Pager.readPage pageId) := by
  have hfile : Upholds P E Pager.file := by
    refine upholds_get.bind fun w => ?_
    split
    · exact upholds_pure _
    · exact h.raise (by simp [ReadError])
  refine hfile.bind fun f => upholds_get.bind fun w => ?_
  dsimp only
  split
  · exact (h.raise (by simp [ReadError])).bind fun _ => upholds_pure _
  · exact upholds_pure _

theorem getMeta (h : ReadInvariant P E) : Upholds P E Pager.getMeta := by
  refine upholds_get.bind fun w => ?_
  split
  · exact upholds_pure _
  · exact h.raise (by simp [ReadError])

theorem deref (h : ReadInvariant P E) (ref : Ref) : Upholds P E (Eng.deref ref) := by
  refine upholds_get.bind fun w => ?_
  split
  · exact upholds_pure _
  · exact h.raise (by simp [ReadError])

theorem derefLeaf (h : ReadInvariant P E) (ref : Ref) : Upholds P E (BPlusTree.derefLeaf ref) := by
  refine (h.deref ref).bind fun page => ?_
  cases page with
  | leaf page => exact upholds_pure _
  | internal page => exact h.raise (by simp [ReadError])

theorem enterPage (h : ReadInvariant P E) (pageId : ℕ) (page : Page) : Upholds P E (do
    let ref ← newObject page
    BufferPool.setCache ((← MonadState.get).pool.cache ++ [(pageId, ⟨ref, false⟩)])
    return ref : Eng Ref) := by
  intro w hw
  constructor
  · intro ref w' hrun
    cases hrun
    exact h.enter w pageId page hw
  · intro e w' hrun
    cases hrun

theorem fetch (h : ReadInvariant P E) (pageId : ℕ) : Upholds P E (BufferPool.get pageId) := by
  intro w hw
  cases hlookup : w.pool.cache.lookup pageId with
  | some cached =>
      have hrun : BufferPool.get pageId w =
          .ok cached.page { w with pool := hitPool w.pool pageId cached } := by
        rw [BufferPool.get, run_bind_ok (run_get w)]
        simp only [hlookup]
        rfl
      rw [hrun]
      constructor
      · intro ref w' heq
        cases heq
        exact h.hit w pageId cached hw hlookup
      · intro e w' heq
        cases heq
  | none =>
      rw [BufferPool.get, run_bind_ok (run_get w)]
      simp only [hlookup]
      -- what is left is the branch of `get` for a page that is not cached
      refine (h.evict.bind fun _ => (h.readPage pageId).bind fun data =>
        (h.codec (decodes_decodePage data)).bind fun page => ?_) w hw
      cases page with
      | tree page => exact h.enterPage pageId page
      | freelist page => exact h.raise (by simp [ReadError])

theorem findLeaf (h : ReadInvariant P E) (key : Bytes) : Upholds P E (BPlusTree.findLeaf key) := by
  have hloop : ∀ fuel pageId page path,
      Upholds P E (BPlusTree.findLeafLoop key fuel pageId page path) := by
    intro fuel
    induction fuel with
    | zero => exact fun _ _ _ => h.raise (by simp [ReadError])
    | succ fuel ih =>
        intro pageId page path
        refine (h.deref page).bind fun content => ?_
        split
        · exact upholds_pure _
        · dsimp only
          split
          · exact h.raise (by simp [ReadError])
          · exact (h.fetch _).bind fun _ => ih _ _ _
  exact h.getMeta.bind fun m => (h.fetch _).bind fun _ => hloop _ _ _ _

theorem search (h : ReadInvariant P E) (key : Bytes) : Upholds P E (BPlusTree.search key) :=
  (h.findLeaf key).bind fun _ => (h.derefLeaf _).bind fun _ => upholds_pure _

theorem scan (h : ReadInvariant P E) (start stop : Option Bytes) :
    Upholds P E (BPlusTree.scan start stop) := by
  have hloop : ∀ fuel page idx, Upholds P E (BPlusTree.scanLoop stop fuel page idx) := by
    intro fuel
    induction fuel with
    | zero => exact fun _ _ => h.raise (by simp [ReadError])
    | succ fuel ih =>
        intro page idx
        rw [BPlusTree.scanLoop]
        dsimp only
        split
        · exact (h.fetch _).bind fun _ => (h.derefLeaf _).bind fun _ =>
            (ih _ _).bind fun _ => upholds_pure _
        · exact upholds_pure _
  exact (h.findLeaf _).bind fun result => (h.derefLeaf _).bind fun _ => h.getMeta.bind fun _ =>
    hloop _ _ _

end ReadInvariant

/-! ## A page to spare -/

/-- The pool has a page that is free or clean. -/
def Spacious (w : World) : Prop := w.pool.dirtyCount < w.pool.capacityPages

theorem Spacious.of_le (hs : Spacious w) (hdirty : w'.pool.dirtyCount ≤ w.pool.dirtyCount)
    (hcapacity : w'.pool.capacityPages = w.pool.capacityPages) : Spacious w' := by
  unfold Spacious at hs ⊢
  omega

/-- The eviction before a page is admitted. -/
theorem evict_cases (w : World) :
    (w.pool.dirtyCount = w.pool.cache.length ∧ w.pool.capacityPages ≤ w.pool.cache.length ∧
      BufferPool.evictOldestCleanPageIfFull w = .error .bufferPoolOverflow w) ∨
    ∃ cache, List.Sublist cache w.pool.cache ∧ BufferPool.evictOldestCleanPageIfFull w =
      .ok () { w with pool := { w.pool with cache } } := by
  by_cases hfull : w.pool.evictionEnabled = true ∧ w.pool.capacityPages ≤ w.pool.cache.length
  · cases hfind : w.pool.cache.find? (fun e => !e.2.isDirty) with
    | none =>
        have hall : w.pool.dirtyCount = w.pool.cache.length :=
          List.countP_eq_length.mpr fun e he => by simpa using List.find?_eq_none.mp hfind e he
        refine .inl ⟨hall, hfull.2, ?_⟩
        simp only [BufferPool.evictOldestCleanPageIfFull, run_bind, run_get, if_pos hfull, hfind,
          run_throw]
    | some victim =>
        refine .inr ⟨_, List.filter_sublist (p := fun e => decide (e.1 ≠ victim.1)), ?_⟩
        simp only [BufferPool.evictOldestCleanPageIfFull, run_bind, run_get, if_pos hfull, hfind,
          BufferPool.setCache, run_modify]
  · refine .inr ⟨w.pool.cache, List.Sublist.refl _, ?_⟩
    simp only [BufferPool.evictOldestCleanPageIfFull, run_bind, run_get, if_neg hfull, run_pure]

/-- A hit moves a page to the end of the cache. -/
theorem dirtyCount_hit {cache : List (ℕ × CachedPage)} {pageId : ℕ} {cached : CachedPage}
    (h : cache.lookup pageId = some cached) :
    (cache.filter (·.1 ≠ pageId) ++ [(pageId, cached)]).countP (·.2.isDirty) ≤
      cache.countP (·.2.isDirty) := by
  have hsplit := List.countP_eq_countP_filter_add cache (fun e => e.2.isDirty)
    (fun e => decide (e.1 ≠ pageId))
  have hmem : (pageId, cached) ∈ cache.filter fun e => !decide (e.1 ≠ pageId) :=
    List.mem_filter.mpr ⟨mem_of_lookup h, by simp⟩
  have hle : [(pageId, cached)].countP (·.2.isDirty) ≤
      (cache.filter fun e => !decide (e.1 ≠ pageId)).countP (·.2.isDirty) :=
    (List.singleton_sublist.mpr hmem).countP_le
  rw [List.countP_append, hsplit]
  exact Nat.add_le_add_left hle _

/-- With a page to spare, a fetch does not overflow the pool and keeps a page to spare. -/
theorem readInvariant_spacious : ReadInvariant Spacious ReadError where
  error _ he := he
  evict := by
    intro w hw
    rcases evict_cases w with ⟨hdirty, hfull, -⟩ | ⟨cache, hsub, hrun⟩
    · unfold Spacious at hw
      omega
    · rw [hrun]
      constructor
      · intro a w' h
        cases h
        exact hw.of_le hsub.countP_le rfl
      · intro e w' h
        cases h
  hit w pageId cached hw hlookup := hw.of_le (dirtyCount_hit hlookup) rfl
  enter w pageId page hw := hw.of_le (le_of_eq (List.countP_append ..)) rfl

/-- A fetch does not notice changes. -/
theorem readInvariant_version (n : ℕ) :
    ReadInvariant (fun w => w.versionCounter = n) (· ≠ .concurrentPageModification) where
  error _ he := he.2.2.2
  evict := by
    intro w hw
    rcases evict_cases w with ⟨-, -, hrun⟩ | ⟨cache, -, hrun⟩
    · rw [hrun]
      constructor
      · intro a w' h
        cases h
      · intro e w' h
        cases h
        simp
    · rw [hrun]
      constructor
      · intro a w' h
        cases h
        exact hw
      · intro e w' h
        cases h
  hit _ _ _ hw _ := hw
  enter _ _ _ hw := hw

/-- What a pool with a page to spare raises is no way out of the lockstep. -/
theorem ReadError.not_escape {mode : Mode} {e : Err} (he : ReadError e) : ¬ mode.escape e := by
  obtain ⟨hoverflow, hkey, hpower, -⟩ := he
  rintro (⟨-, rfl | ⟨pageId, rfl⟩⟩ | ⟨-, rfl⟩)
  · exact hoverflow rfl
  · exact hkey pageId rfl
  · exact hpower rfl

/-- A scan of a tree that is held returns, if the pool has a page to spare. -/
theorem Holding.scan_returns (h : Holding R L M C T w) (hs : Spacious w)
    (start stop : Option Bytes) : ∃ w', BPlusTree.scan start stop w =
      .ok (inRange (start.getD []) stop (entriesOf (Tree.items H T))) w' := by
  rcases h.scan start stop with ⟨w', hscan, -⟩ | ⟨e, w', hscan, hescape⟩
  · exact ⟨w', hscan⟩
  · have he := (readInvariant_spacious.scan start stop w hs).2 e w' hscan
    exact absurd hescape he.not_escape

/-- So does a search. -/
theorem Holding.search_returns (h : Holding R L M C T w) (hs : Spacious w) (key : Bytes) :
    ∃ w', BPlusTree.search key w = .ok (M key) w' := by
  have hallows : Mode.Allows ⟨False, True, fun _ _ => True, none⟩ (touchBound H) C w :=
    ⟨fun h => h.elim, fun h => absurd trivial h, fun _ _ _ _ => trivial, fun _ h => by cases h⟩
  rcases h.search hallows le_rfl key with ⟨w', S, hsearch, -⟩ | ⟨e, w', hsearch, hescape⟩
  · exact ⟨w', hsearch⟩
  · have he := (readInvariant_spacious.search key w hs).2 e w' hsearch
    exact absurd hescape he.not_escape

end BPTreeDB.Engine
