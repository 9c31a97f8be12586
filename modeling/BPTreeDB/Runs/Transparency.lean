import BPTreeDB.Runs.Handles

/-!
# The buffer pool does not show

A pool with room for all pages that an operation may touch never evicts a page in use.  The
operation then goes in lockstep with the ideal page store, as it does on a pool that never
evicts, so the two runs return or raise the same and leave the same pages behind, whatever
was cached before.  This also holds where the operation raises in the middle of a
rebalance: the pages that it had changed by then are still cached.
-/

namespace BPTreeDB.Runs

open Lib Eng Codec Lib.Program PageStore Engine
open Debug (childPageIds)

variable {R R' : Regime} {L L' H H' : ℕ} {T : Tree H} {T' : Tree H'} {C C' : Content}
  {M M' : KeyMap} {w u : World} {config : Config} {calls : List TreeCall} {x : ℕ}

/-! ## The logical store -/

/-- The two processes have the same meta page, tree pages and freelist. -/
structure SameStore (w u : World) : Prop where
  metaPage : u.pager.metaPage = w.pager.metaPage
  inTree : ∀ m, w.pager.metaPage = some m →
    ∀ x, InTree (treePage u) m.rootPageId x ↔ InTree (treePage w) m.rootPageId x
  pages : ∀ m, w.pager.metaPage = some m →
    ∀ x, InTree (treePage w) m.rootPageId x → treePage u x = treePage w x
  freelist : ∀ m, w.pager.metaPage = some m →
    ∀ chain, ChainFrom (fun x page => freelistPage u x = some page) m.freelistHeadPageId chain ↔
      ChainFrom (fun x page => freelistPage w x = some page) m.freelistHeadPageId chain

theorem SameStore.refl (w : World) : SameStore w w :=
  ⟨rfl, fun _ _ _ => Iff.rfl, fun _ _ _ _ => rfl, fun _ _ _ => Iff.rfl⟩

theorem ChainFrom.unique {view : ℕ → Option FreelistPage} {head : ℕ} :
    ∀ {chain chain' : List (ℕ × List ℕ)}, ChainFrom (fun x page => view x = some page) head chain →
      ChainFrom (fun x page => view x = some page) head chain' → chain = chain' := by
  intro chain
  induction chain generalizing head with
  | nil =>
      intro chain' hc hc'
      cases chain' with
      | nil => rfl
      | cons e rest =>
          obtain ⟨rfl, hne, -⟩ := hc'
          exact absurd hc hne
  | cons e rest ih =>
      intro chain' hc hc'
      obtain ⟨x, freed⟩ := e
      obtain ⟨rfl, hne, next, hview, hrest⟩ := hc
      cases chain' with
      | nil => exact absurd hc' hne
      | cons e' rest' =>
          obtain ⟨x', freed'⟩ := e'
          obtain ⟨rfl, -, next', hview', hrest'⟩ := hc'
          rw [hview] at hview'
          cases hview'
          rw [ih hrest hrest']

/-- What is reached depends on the pages reached only. -/
theorem InTree.congr {view view' : ℕ → Option Page} {root : ℕ}
    (hview : ∀ y, InTree view root y → view' y = view y) (hx : InTree view root x) :
    InTree view' root x := by
  induction hx with
  | root => exact .root
  | first hy hp ih => exact .first ih ((hview _ hy).trans hp)
  | child hy hp hs ih => exact .child ih ((hview _ hy).trans hp) hs

/-- Where a pool has room, the process shows all pages of a store that stopped. -/
theorem treePage_of_stopped {mode : Mode} {S : Store} {page : Page} (hstopped : Stopped S)
    (hs : Sim mode [] w S) (hstrict : mode.strict) (hpage : S.pages x = some page) :
    treePage w x = some page :=
  hs.treePage hpage fun hpending => (hs.room hstrict).resident x (hstopped.pending x hpending)
    (Option.isSome_iff_exists.mpr ⟨page, hpage⟩)

/-- Only pages of the store are reached. -/
theorem isSome_of_inTree {mode : Mode} {S : Store} (hstopped : Stopped S) (hs : Sim mode [] w S)
    (hstrict : mode.strict) (hx : InTree (treePage w) S.root x) : (S.pages x).isSome := by
  have hstep : ∀ {y : ℕ} {p : InternalPage}, (S.pages y).isSome →
      treePage w y = some (.internal p) →
        ∀ z ∈ childPageIds (.internal p), (S.pages z).isSome := by
    intro y p hy hview
    obtain ⟨page, hpage⟩ := Option.isSome_iff_exists.mp hy
    have hview' := treePage_of_stopped hstopped hs hstrict hpage
    obtain rfl : page = .internal p := Option.some.inj (hview'.symm.trans hview)
    exact hstopped.closed y _ hpage
  induction hx with
  | root => exact hstopped.root
  | first _ hview ih => exact hstep ih hview _ (List.mem_cons_self ..)
  | child _ hview hslot ih =>
      exact hstep ih hview _ (List.mem_cons_of_mem _ (List.mem_map_of_mem hslot))

/-- Processes in lockstep with the same page store have the same store. -/
theorem sameStore_of_sim {mode : Mode} {S : Store} (hs : Sim mode [] w S) (hs' : Sim mode [] u S)
    (hstrict : mode.strict) (hstopped : Stopped S)
    (hmeta : u.pager.metaPage = w.pager.metaPage) : SameStore w u := by
  obtain ⟨m, hm, hfields, hchain⟩ := hs.freelist
  obtain ⟨m', hm', -, hchain'⟩ := hs'.freelist
  obtain rfl : m' = m := Option.some.inj (hm'.symm.trans (hmeta.trans hm))
  have hview : ∀ y, (S.pages y).isSome → treePage u y = treePage w y := by
    intro y hy
    obtain ⟨page, hpage⟩ := Option.isSome_iff_exists.mp hy
    calc
      treePage u y = some page := treePage_of_stopped hstopped hs' hstrict hpage
      _ = treePage w y := (treePage_of_stopped hstopped hs hstrict hpage).symm
  have hpages : ∀ y, InTree (treePage w) S.root y → treePage u y = treePage w y :=
    fun y hy => hview y (isSome_of_inTree hstopped hs hstrict hy)
  have hpages' : ∀ y, InTree (treePage u) S.root y → treePage w y = treePage u y :=
    fun y hy => (hview y (isSome_of_inTree hstopped hs' hstrict hy)).symm
  refine ⟨hmeta, ?_, ?_, ?_⟩
  · intro m₁ hm₁ y
    obtain rfl : m' = m₁ := Option.some.inj (hm.symm.trans hm₁)
    rw [hfields.root]
    exact ⟨InTree.congr hpages', InTree.congr hpages⟩
  · intro m₁ hm₁
    obtain rfl : m' = m₁ := Option.some.inj (hm.symm.trans hm₁)
    rw [hfields.root]
    exact hpages
  · intro m₁ hm₁ chain
    obtain rfl : m' = m₁ := Option.some.inj (hm.symm.trans hm₁)
    constructor
    · intro hc
      rw [ChainFrom.unique hc hchain']
      exact hchain
    · intro hc
      rw [ChainFrom.unique hc hchain]
      exact hchain'

/-- Processes with the same store hold the same content. -/
theorem content_eq_of_sameStore (h : Holding R L M C T w) (h' : Holding R' L' M' C' T' u)
    (hsame : SameStore w u) : C' = C := by
  obtain ⟨m, hm, hmeta, hchain⟩ := h.quiet.freelist
  obtain ⟨m', hm', hmeta', hchain'⟩ := h'.quiet.freelist
  obtain rfl : m' = m := Option.some.inj (hm'.symm.trans (hsame.metaPage.trans hm))
  have hroot : C'.root = C.root := hmeta'.root.symm.trans hmeta.root
  have hinTree := hsame.inTree m' hm
  have hview := hsame.pages m' hm
  rw [hmeta.root] at hinTree hview
  have hpages : C'.pages = C.pages := by
    funext x
    by_cases hx : InTree (treePage w) C.root x
    · obtain ⟨page, hpage, hw⟩ := Holding.page_of_inTree h hx
      have hx' : InTree (treePage u) C'.root x := by
        rw [hroot]
        exact (hinTree x).mpr hx
      obtain ⟨page', hpage', hu⟩ := Holding.page_of_inTree h' hx'
      rw [hpage, hpage', ← hu, ← hw]
      exact hview x hx
    · have hx' : ¬ InTree (treePage u) C'.root x := by
        rw [hroot, hinTree x]
        exact hx
      rw [h.inv.root, h.shows.inTree_iff] at hx
      rw [h'.inv.root, h'.shows.inTree_iff] at hx'
      rw [h.inv.holds.pages_eq_none hx, h'.inv.holds.pages_eq_none hx']
  have hchains : C'.chain = C.chain :=
    ChainFrom.unique ((hsame.freelist m' hm C'.chain).mp hchain') hchain
  have hsize : C'.pageSize = C.pageSize := hmeta'.pageSize.symm.trans hmeta.pageSize
  have hnext : C'.next = C.next := hmeta'.next.symm.trans hmeta.next
  cases C
  cases C'
  simp only at hpages hchains hsize hnext hroot
  rw [hpages, hchains, hsize, hnext, hroot]

/-! ## Two runs of one operation -/

/-- Two runs returned the same, or raised the same exception, which is not one of the pool.
Either way they left the same store. -/
def SameOutcome {α : Type} : EStateM.Result Err World α → EStateM.Result Err World α → Prop
  | .ok a w, .ok b u => a = b ∧ SameStore w u
  | .error e w, .error e' u =>
      e = e' ∧ SameStore w u ∧ e ≠ .bufferPoolOverflow ∧ ∀ pageId, e ≠ .keyError pageId
  | _, _ => False

/-- The fields that an operation does not change, and those of the page store, make up the
meta page. -/
theorem metaPage_eq {mode : Mode} {S : Store} {w' u' : World} (hs : Sim mode [] w' S)
    (hs' : Sim mode [] u' S) (hw : NoSteal w w') (hu : NoSteal u u')
    (hmeta : u.pager.metaPage = w.pager.metaPage) : u'.pager.metaPage = w'.pager.metaPage := by
  obtain ⟨m, hm, hsim, hchain⟩ := hs.freelist
  obtain ⟨m', hm', hsim', hchain'⟩ := hs'.freelist
  have hhead : m'.freelistHeadPageId = m.freelistHeadPageId :=
    hchain'.head_eq.trans hchain.head_eq.symm
  have hfields : u'.pager.metaPage.map (fun m => (m.pageSizeBytes, m.lastCheckpointLsn)) =
      w'.pager.metaPage.map (fun m => (m.pageSizeBytes, m.lastCheckpointLsn)) := by
    calc
      _ = u.pager.metaPage.map fun m => (m.pageSizeBytes, m.lastCheckpointLsn) :=
        congrArg Frozen.metaFields hu.frozen
      _ = w.pager.metaPage.map fun m => (m.pageSizeBytes, m.lastCheckpointLsn) := by rw [hmeta]
      _ = _ := (congrArg Frozen.metaFields hw.frozen).symm
  rw [hm, hm'] at hfields ⊢
  simp only [Option.map_some, Option.some.injEq, Prod.mk.injEq] at hfields
  have hroot := hsim'.root.trans hsim.root.symm
  have hnext := hsim'.next.trans hsim.next.symm
  cases m
  cases m'
  simp_all

/-- Two runs in lockstep with one disciplined run of the store end in the same way. -/
theorem agree {α β : Type} {mode : Mode} {Q : α → β → World → Store → Prop} {f : Eng α}
    {r : EStateM.Result Fault Store β} (h : Lockstep mode Q (f w) r) (h' : Lockstep mode Q (f u) r)
    (hescape : ∀ e, ¬ mode.escape e) (hdisciplined : ∀ S, r ≠ .error .undisciplined S) :
    (∃ a a' b w' u' S, f w = .ok a w' ∧ f u = .ok a' u' ∧ r = .ok b S ∧ Q a b w' S ∧
        Q a' b u' S) ∨
      ∃ e w' u' S, f w = .error e w' ∧ f u = .error e u' ∧ r = .error (.raised e) S ∧
        Sim mode [] w' S ∧ Sim mode [] u' S := by
  rcases h.outcome hdisciplined with ⟨a, w', b, S, hw, hr, hQ⟩ | ⟨e, w', hw, he⟩
  · obtain ⟨a', u', hu, hQ'⟩ := returns_of_lockstep h' hescape hr
    exact .inl ⟨a, a', b, w', u', S, hw, hu, hr, hQ, hQ'⟩
  · obtain ⟨S, hr, hs⟩ := he.resolve_left (hescape e)
    rcases h'.outcome hdisciplined with ⟨a', u', b, S', hu, hr', -⟩ | ⟨e', u', hu, he'⟩
    · rw [hr] at hr'
      cases hr'
    · obtain ⟨S', hr', hs'⟩ := he'.resolve_left (hescape e')
      rw [hr] at hr'
      cases hr'
      exact .inr ⟨e, w', u', S, hw, hu, hr, hs, hs'⟩

theorem Tolerated.not_pool {e : Err} (h : Tolerated R e) :
    e ≠ .bufferPoolOverflow ∧ ∀ pageId, e ≠ .keyError pageId := by
  obtain ⟨_, -, rfl | rfl⟩ := h <;> simp

theorem Resting.stopped {S : Store} (h : Resting R L T S) : Stopped S :=
  Conf.stopped (h.conf (Nat.zero_le _)) (by simp)

theorem Settled.stopped {S : Store} {entries : List LeafSlot} (h : Settled R L entries S) :
    Stopped S := by
  obtain ⟨H, T, hresting, -⟩ := settled_iff.mp h
  exact Resting.stopped hresting

section Operations

variable (h : Holding R L M C T w) (hu : Quiet u C)
  (hallows : tightMode.Allows (touchBound H) C w) (hallows' : tightMode.Allows (touchBound H) C u)
  (hsame : SameStore w u)

include h in
/-- A store with the content of the process and nothing pending. -/
theorem Holding.stopped {S : Store} (hcontent : S.toContent = C) (hpending : S.pending = []) :
    Stopped S :=
  Resting.stopped (R := R) (L := L) (T := T)
    ⟨by rw [hcontent]; exact h.inv, h.good, by rw [hcontent]; exact h.pageSize, hpending⟩

include h hu hallows hallows' hsame

theorem sameOutcome_search (key : Bytes) :
    SameOutcome (BPlusTree.search key w) (BPlusTree.search key u) := by
  obtain ⟨S', hrun, hcontent, hpending⟩ := search_spec (h.resting (touchBound H)) h.records key
    (show H + 1 ≤ touchBound H by unfold touchBound; omega)
  rcases agree (lockstep_search key (h.quiet.sim hallows)) (lockstep_search key (hu.sim hallows'))
      tightMode_not_escape (by rw [hrun]; simp) with
    ⟨a, a', b, w', u', S, hw, hu', hr, ⟨rfl, hs⟩, rfl, hs'⟩ | ⟨e, w', u', S, -, -, hr, -⟩
  · cases hrun.symm.trans hr
    rw [hw, hu']
    exact ⟨rfl, sameStore_of_sim hs hs' trivial (Holding.stopped h hcontent hpending)
      (metaPage_eq hs hs' ((noSteal_steps.search key).ok hw) ((noSteal_steps.search key).ok hu')
        hsame.metaPage)⟩
  · cases hrun.symm.trans hr

theorem sameOutcome_insert {lsn : ℕ} (key value : Bytes) (hlsn : lsn ≤ L)
    (hkey : (calculateLeafRecordSize key value : ℤ) ≤ getMaxLeafRecordSize R.pageSize →
      key.length ≤ R.maxKey) :
    SameOutcome (BPlusTree.insert key value lsn w) (BPlusTree.insert key value lsn u) := by
  by_cases hfits : (calculateLeafRecordSize key value : ℤ) ≤ getMaxLeafRecordSize R.pageSize
  · obtain ⟨entries, hM, hspec⟩ :=
      insert_spec (h.resting (touchBound H)) h.records hfits (hkey hfits) hlsn le_rfl
    have hdisciplined : ∀ S, PageStore.insert key value lsn ⟨C, [], [], touchBound H⟩ ≠
        .error .undisciplined S := by
      intro S hS
      rw [hS] at hspec
      exact hspec
    rcases agree (lockstep_insert key value lsn (h.quiet.sim hallows))
        (lockstep_insert key value lsn (hu.sim hallows')) tightMode_not_escape hdisciplined with
      ⟨a, a', b, w', u', S, hw, hu', hr, hs, hs'⟩ | ⟨e, w', u', S, hw, hu', hr, hs, hs'⟩
    · rw [hr] at hspec
      rw [hw, hu']
      exact ⟨rfl, sameStore_of_sim hs hs' trivial (Settled.stopped hspec) (metaPage_eq hs hs'
        ((noSteal_steps.treeInsert key value lsn).ok hw)
          ((noSteal_steps.treeInsert key value lsn).ok hu') hsame.metaPage)⟩
    · rw [hr] at hspec
      rw [hw, hu']
      exact ⟨rfl, sameStore_of_sim hs hs' trivial hspec.2 (metaPage_eq hs hs'
        ((noSteal_steps.treeInsert key value lsn).error hw)
          ((noSteal_steps.treeInsert key value lsn).error hu') hsame.metaPage),
        Tolerated.not_pool hspec.1⟩
  · have hlarge : getMaxLeafRecordSize C.pageSize < calculateLeafRecordSize key value := by
      rw [h.pageSize]
      exact lt_of_not_ge hfits
    rw [insert_tooLarge h.quiet key value lsn hlarge, insert_tooLarge hu key value lsn hlarge]
    exact ⟨rfl, hsame, by simp⟩

theorem sameOutcome_delete {lsn : ℕ} (key : Bytes) (hlsn : lsn ≤ L) :
    SameOutcome (BPlusTree.delete key lsn w) (BPlusTree.delete key lsn u) := by
  have hlock := lockstep_delete key lsn (h.quiet.sim hallows)
  have hlock' := lockstep_delete key lsn (hu.sim hallows')
  cases hkey : M key with
  | none =>
      obtain ⟨S', hrun, hcontent, hpending⟩ := delete_absent lsn
        (h.resting (touchBound H)) h.records
        hkey (show H + 1 ≤ touchBound H by unfold touchBound; omega)
      rcases agree hlock hlock' tightMode_not_escape (by rw [hrun]; simp) with
        ⟨a, a', b, w', u', S, hw, hu', hr, ⟨rfl, hs⟩, rfl, hs'⟩ | ⟨e, w', u', S, -, -, hr, -⟩
      · cases hrun.symm.trans hr
        rw [hw, hu']
        exact ⟨rfl, sameStore_of_sim hs hs' trivial (Holding.stopped h hcontent hpending)
          (metaPage_eq hs hs' ((noSteal_steps.treeDelete key lsn).ok hw)
            ((noSteal_steps.treeDelete key lsn).ok hu') hsame.metaPage)⟩
      · cases hrun.symm.trans hr
  | some v =>
      obtain ⟨entries, hM, hspec⟩ :=
        delete_spec (h.resting (touchBound H)) h.records hkey hlsn le_rfl
      have hdisciplined : ∀ S, PageStore.delete key lsn ⟨C, [], [], touchBound H⟩ ≠
          .error .undisciplined S := by
        intro S hS
        rw [hS] at hspec
        exact hspec
      rcases agree hlock hlock' tightMode_not_escape hdisciplined with
        ⟨a, a', b, w', u', S, hw, hu', hr, ⟨rfl, hs⟩, rfl, hs'⟩ |
          ⟨e, w', u', S, hw, hu', hr, hs, hs'⟩
      · rw [hr] at hspec
        rw [hw, hu']
        exact ⟨rfl, sameStore_of_sim hs hs' trivial (Settled.stopped hspec.2) (metaPage_eq hs hs'
          ((noSteal_steps.treeDelete key lsn).ok hw)
            ((noSteal_steps.treeDelete key lsn).ok hu') hsame.metaPage)⟩
      · rw [hr] at hspec
        rw [hw, hu']
        exact ⟨rfl, sameStore_of_sim hs hs' trivial hspec.2 (metaPage_eq hs hs'
          ((noSteal_steps.treeDelete key lsn).error hw)
            ((noSteal_steps.treeDelete key lsn).error hu') hsame.metaPage),
          Tolerated.not_pool hspec.1⟩

end Operations

/-! ## Processes that hold a tree -/

/-- The process holds a tree of accepted records, whatever of it is cached, and its machine
keeps its power. -/
structure HoldsTree (w : World) : Prop where
  stands : ∃ P L M, Stands (plainRegime P) L M w
  power : w.power = none

theorem Reached.holdsTree {bounded : Bool} (h : Reached config bounded calls w)
    (hP : minPageSize ≤ config.pageSizeBytes) : HoldsTree w := by
  obtain ⟨-, hset, L, C, M, -, H, T, hholding⟩ := h.plain hP
  exact ⟨⟨_, L, M, C, H, T, hholding⟩, hset.power rfl⟩

/-- A handle between two calls, with any history of opens, crashes and recoveries. -/
theorem Ready.holdsTree {P : ℕ} (h : Ready (plainRegime P) M C w) : HoldsTree w := by
  obtain ⟨H, T, hholding⟩ := h.stands
  exact ⟨⟨P, _, M, C, H, T, hholding⟩, h.power⟩

/-- The same process with another pool: any of the clean pages may have been evicted, and
the rest may be in any order. -/
def withCached (w : World) (cache : List (ℕ × CachedPage)) (evictionEnabled : Bool) : World :=
  { w with pool := { w.pool with cache := cache, evictionEnabled := evictionEnabled } }

theorem quiet_withCached (hq : Quiet w C) {cache : List (ℕ × CachedPage)} (evictionEnabled : Bool)
    (hnodup : (cache.map Prod.fst).Nodup) (hsub : ∀ e ∈ cache, e ∈ w.pool.cache)
    (hdirty : ∀ e ∈ w.pool.cache, e.2.isDirty = true → e ∈ cache) :
    Quiet (withCached w cache evictionEnabled) C where
  isOpen := hq.isOpen
  data := hq.data
  pageSize := hq.pageSize
  metaPage := hq.metaPage
  pool := by
    have hhandles : ∀ e ∈ handles [] cache, e ∈ handles [] w.pool.cache := by
      intro e he
      obtain ⟨c, hc, rfl⟩ := List.mem_map.mp he
      exact List.mem_map_of_mem (f := fun e : ℕ × CachedPage => (e.1, e.2.page)) (hsub c hc)
    refine ⟨hnodup, fun e he => hq.pool.object e (hhandles e he),
      fun e he e' he' => hq.pool.single e (hhandles e he) e' (hhandles e' he'), ?_⟩
    intro x page hpage hpending hclean
    refine hq.pool.disk x page hpage hpending fun c hc => ?_
    by_contra hd
    have hd : c.isDirty = true := by simpa using hd
    rw [hclean c (hdirty (x, c) hc hd)] at hd
    cases hd
  room h := h.elim
  power h := absurd trivial h

theorem HoldsTree.withCached (h : HoldsTree w) {cache : List (ℕ × CachedPage)}
    (evictionEnabled : Bool) (hnodup : (cache.map Prod.fst).Nodup)
    (hsub : ∀ e ∈ cache, e ∈ w.pool.cache)
    (hdirty : ∀ e ∈ w.pool.cache, e.2.isDirty = true → e ∈ cache) :
    HoldsTree (withCached w cache evictionEnabled) := by
  obtain ⟨P, L, M, C, H, T, hholding⟩ := h.stands
  exact ⟨⟨P, L, M, C, H, T, { hholding with
    quiet := quiet_withCached hholding.quiet evictionEnabled hnodup hsub hdirty }⟩, h.power⟩

/-- The same process with a pool that never evicts. -/
def unbounded (w : World) : World := withCached w w.pool.cache false

theorem HoldsTree.unbounded (h : HoldsTree w) : HoldsTree (unbounded w) := by
  obtain ⟨P, L, M, C, H, T, hholding⟩ := h.stands
  exact h.withCached false hholding.quiet.pool.nodup (fun _ he => he) fun _ he _ => he

theorem sameStore_unbounded (w : World) : SameStore w (unbounded w) :=
  ⟨rfl, fun _ _ _ => Iff.rfl, fun _ _ _ _ => rfl, fun _ _ _ => Iff.rfl⟩

/-! ## Transparency -/

/-- With room for `3 * levels + 2` more pages, an operation on the bounded pool does what it
does on an unbounded pool of any process with the same store, whatever the two have
cached. -/
theorem pool_transparency (w u : World) (levels : ℕ) (m : MetaPage) (hw : HoldsTree w)
    (hm : w.pager.metaPage = some m) (hlevels : Levels (treePage w) m.rootPageId levels)
    (hroom : w.pool.dirtyCount + (3 * levels + 2) ≤ w.pool.capacityPages)
    (hu : HoldsTree u) (hsame : SameStore w u) (hunbounded : u.pool.evictionEnabled = false) :
    (∀ key, SameOutcome (BPlusTree.search key w) (BPlusTree.search key u)) ∧
      (∀ key value lsn,
        SameOutcome (BPlusTree.insert key value lsn w) (BPlusTree.insert key value lsn u)) ∧
      ∀ key lsn, SameOutcome (BPlusTree.delete key lsn w) (BPlusTree.delete key lsn u) := by
  obtain ⟨P, L, M, C, H, T, hholding⟩ := hw.stands
  obtain ⟨P', L', M', C', H', T', hholding'⟩ := hu.stands
  obtain rfl := content_eq_of_sameStore hholding hholding' hsame
  obtain ⟨m', hm', hmeta, -⟩ := hholding.quiet.freelist
  obtain rfl : m' = m := Option.some.inj (hm'.symm.trans hm)
  have hheight : levels = H + 1 := by
    apply hlevels.unique
    rw [hmeta.root, hholding.inv.root]
    exact levels_of_shows hholding.shows
  have hallows : tightMode.Allows (touchBound H) C' w := by
    refine ⟨fun _ _ => ?_, fun _ => hw.power, fun _ _ _ _ => trivial, fun _ h => by cases h⟩
    rw [hheight] at hroom
    exact hroom
  have hallows' : tightMode.Allows (touchBound H) C' u := by
    refine ⟨fun _ henabled => ?_, fun _ => hu.power, fun _ _ _ _ => trivial, fun _ h => by cases h⟩
    rw [hunbounded] at henabled
    cases henabled
  have hquiet := hholding'.quiet
  refine ⟨fun key => ?_, fun key value lsn => ?_, fun key lsn => ?_⟩
  · exact sameOutcome_search hholding hquiet hallows hallows' hsame key
  · exact sameOutcome_insert (hholding.mono (Nat.le_add_right L lsn)) hquiet hallows hallows'
      hsame key value (Nat.le_add_left lsn L) key_le_of_accepted
  · exact sameOutcome_delete (hholding.mono (Nat.le_add_right L lsn)) hquiet hallows hallows'
      hsame key (Nat.le_add_left lsn L)

/-- Three levels, and a pool all of whose pages are taken and may be evicted. -/
theorem pool_transparency_sampleCalls : ∃ w m, Reached tightConfig true sampleCalls w ∧
    w.pager.metaPage = some m ∧ Levels (treePage w) m.rootPageId 3 ∧
      w.pool.cache.length = w.pool.capacityPages ∧ w.pool.dirtyCount = 0 ∧
      (∀ key, SameOutcome (BPlusTree.search key w) (BPlusTree.search key (unbounded w))) ∧
      (∀ key value lsn, SameOutcome (BPlusTree.insert key value lsn w)
        (BPlusTree.insert key value lsn (unbounded w))) ∧
      ∀ key lsn, SameOutcome (BPlusTree.delete key lsn w)
        (BPlusTree.delete key lsn (unbounded w)) := by
  obtain ⟨w, m, hreached, hm, hlevels, hfull, hclean⟩ := exists_sample
  have hw := hreached.holdsTree (by decide)
  obtain ⟨-, hset, -⟩ := hreached.plain (by decide)
  have hcapacity : w.pool.capacityPages = 11 := hset.capacity
  exact ⟨w, m, hreached, hm, hlevels, hfull, hclean, pool_transparency w (unbounded w) 3 m hw hm
    hlevels (by rw [hclean, hcapacity]) hw.unbounded (sameStore_unbounded w) rfl⟩

end BPTreeDB.Runs
