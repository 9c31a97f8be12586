import BPTreeDB.Runs.Balance

/-!
# The leaf step of the cascade

An insert or a delete changes one leaf and then runs the first round of the rebalancing
cascade on it.  With pages of at least `256` bytes and a pool that never evicts this round
never raises, whatever the cascade does above it, and every leaf below the root stays at
least `0.4` full.
-/

namespace BPTreeDB.BPlusTree

open Lib Eng Codec Lib.Program

/-! ## The first round -/

/-- One round of `_balance_and_write_tree`: the page at which the cascade goes on, if it
does. -/
def balanceRound (lsn pageId : ℕ) (page : Ref) (path : List PathItem) : Eng (Option (ℕ × Ref)) := do
  let m ← Pager.getMeta
  let content ← deref page
  if isPageOverpopulated m.pageSizeBytes content then
    let parent ← splitPage pageId (path.head?.map (·.parentPageId)) page lsn
    return some parent
  else if isPageUnderpopulated m.pageSizeBytes content ∧ pageId ≠ m.rootPageId then
    redistributeOrMergePage pageId path.head? page lsn
  else
    BufferPool.markDirty pageId lsn
    return none

/-- The rounds above the first one. -/
def laterRounds (lsn fuel : ℕ) (path : List PathItem) : Option (ℕ × Ref) → Eng Unit
  | some (pageId, page) => balanceLoop lsn fuel pageId page path.tail
  | none => pure ()

theorem balanceLoop_succ (lsn fuel pageId : ℕ) (page : Ref) (path : List PathItem) :
    balanceLoop lsn (fuel + 1) pageId page path =
      balanceRound lsn pageId page path >>= laterRounds lsn fuel path := by
  funext w
  rw [balanceLoop, balanceRound]
  simp only [run_bind]
  cases Pager.getMeta w with
  | error e w => rfl
  | ok m w =>
      dsimp only
      cases deref page w with
      | error e w => rfl
      | ok content w =>
          dsimp only
          split
          · simp only [run_bind]
            cases splitPage pageId (path.head?.map (·.parentPageId)) page lsn w with
            | error e w => rfl
            | ok parent w => rfl
          · split
            · simp only [run_bind]
              cases redistributeOrMergePage pageId path.head? page lsn w with
              | error e w => rfl
              | ok next w => cases next <;> rfl
            · simp only [run_bind]
              cases BufferPool.markDirty pageId lsn w <;> rfl

/-- `insert` up to the end of the first round. -/
def insertLeafStep (key value : Bytes) (lsn : ℕ) :
    Eng (LeafSearchResult × Option (ℕ × Ref)) := do
  raiseIfRecordTooLarge key value
  let result ← findLeaf key
  let page ← derefLeaf result.leafPage
  assign result.leafPage (.leaf { page with slots := upsertSlot page.slots key value })
  return (result, ← balanceRound lsn result.leafPageId result.leafPage result.path.reverse)

/-- `delete` up to the end of the first round; `none` if there is nothing to delete. -/
def deleteLeafStep (key : Bytes) (lsn : ℕ) :
    Eng (Option (LeafSearchResult × Option (ℕ × Ref))) := do
  let result ← findLeaf key
  let page ← derefLeaf result.leafPage
  match findSlot page key with
  | none => return none
  | some _ =>
      let slotIdx := bisectLeft (page.slots.map (·.key)) key
      assign result.leafPage (.leaf { page with slots := page.slots.eraseIdx slotIdx })
      return some (result, ← balanceRound lsn result.leafPageId result.leafPage result.path.reverse)

/-- The rest of the cascade after the first round. -/
def finishCascade (lsn : ℕ) (step : LeafSearchResult × Option (ℕ × Ref)) : Eng Unit :=
  laterRounds lsn (step.1.path.length + 1) step.1.path.reverse step.2

theorem insert_eq_leafStep (key value : Bytes) (lsn : ℕ) :
    insert key value lsn = insertLeafStep key value lsn >>= finishCascade lsn := by
  simp only [insert, insertLeafStep, balanceAndWriteTree, balanceLoop_succ, bind_assoc,
    pure_bind, finishCascade]

/-- The rest of `delete` after the first round. -/
def finishDelete (lsn : ℕ) : Option (LeafSearchResult × Option (ℕ × Ref)) → Eng Bool
  | none => pure false
  | some step => finishCascade lsn step >>= fun _ => pure true

theorem delete_eq_leafStep (key : Bytes) (lsn : ℕ) :
    delete key lsn = deleteLeafStep key lsn >>= finishDelete lsn := by
  rw [delete, deleteLeafStep]
  simp only [bind_assoc]
  refine bind_congr fun result => bind_congr fun page => ?_
  cases findSlot page key with
  | none => rfl
  | some slot =>
      simp only [balanceAndWriteTree, balanceLoop_succ, bind_assoc, pure_bind, finishDelete,
        finishCascade]

end BPTreeDB.BPlusTree

namespace BPTreeDB.Runs

open Lib Eng Codec Lib.Program PageStore Engine

variable {R : Regime} {L H lsn : ℕ} {T : Tree H} {C : Content} {M : KeyMap} {w w' : World}
  {config : Config} {calls : List TreeCall} {mode : Mode} {key value : Bytes}

/-! ## The first round returns -/

/-- The leaf step of the cascade never raises where leaves are kept half full. -/
theorem balanceRound_returns (hescape : ∀ e, ¬ mode.escape e) (hP : 112 ≤ R.pageSize)
    (hlsn : lsn ≤ L) {c : Ctx 0 H} {l : Leaf} {ref : Ref} {S : Store}
    (hhealthy : c.isTop = true ∨ R.healthyLeaves) (hs : Sim mode [(l.id, ref)] w S)
    (hst : Standing R L c (.leaf l) (2 * c.path.length + 2) S) :
    ∃ next w', BPlusTree.balanceRound lsn l.id ref c.path w = .ok next w' := by
  obtain ⟨m, hget, -, hmeta, -⟩ := hs.getMeta
  obtain ⟨page, hpage, hobject⟩ := hs.pool.object (l.id, ref) (by simp [handles])
  have hderef : Eng.deref ref w = .ok page w := by simp [Eng.deref, run_bind, hobject]
  -- The object that the process holds is the page of the store.
  have hp : stripLsn page = Tree.page 0 (.leaf l) := by
    obtain ⟨page', hderef', hp, -⟩ := hst.conf.deref
      ((c.pages_plug (.leaf l)).mem_iff.mpr (show (l.id, Tree.page 0 (.leaf l)) ∈ _ by
        simp [Tree.pages]))
    have hpage : S.pages l.id = some page := hpage
    have hsame : PageStore.deref l.id S = .ok page S := by simp [PageStore.deref, run_bind, hpage]
    cases hsame.symm.trans hderef'
    exact hp
  have hsize : m.pageSizeBytes = R.pageSize := hmeta.pageSize.trans hst.conf.pageSize
  have hroot : m.rootPageId = Tree.id H (c.plug (.leaf l)) := hmeta.root.trans hst.conf.root_eq
  rw [BPlusTree.balanceRound, run_bind_ok hget, run_bind_ok hderef, hsize, hroot]
  by_cases hover : R.pageSize < Tree.size 0 (.leaf l)
  · rw [if_pos ((isPageOverpopulated_iff hp).mpr hover)]
    have hsplit : ∃ b S', PageStore.splitPage l.id (c.path.head?.map (·.parentPageId)) lsn S =
        .ok b S' := by
      cases c with
      | top =>
          obtain ⟨S', T', hrun, -⟩ := hst.splitPage_top hP hlsn hover
          exact ⟨_, S', hrun⟩
      | frame id left right up =>
          obtain ⟨S', t', hrun, -⟩ := Standing.splitPage_frame (n := 2 * (up.path.length + 1) + 1)
            hP hst hlsn hover
          exact ⟨_, S', hrun⟩
    obtain ⟨b, S', hstore⟩ := hsplit
    obtain ⟨parent, w', hrun, -⟩ := returns_of_lockstep (lockstep_splitPage _ lsn hs) hescape hstore
    exact ⟨_, w', run_bind_ok hrun⟩
  · have hnotOver : ¬ BPlusTree.isPageOverpopulated R.pageSize page = true := by
      rw [isPageOverpopulated_iff hp]
      exact hover
    rw [if_neg hnotOver]
    by_cases hunder : BPlusTree.isPageUnderpopulated R.pageSize page = true ∧
        l.id ≠ Tree.id H (c.plug (.leaf l))
    · rw [if_pos hunder]
      cases c with
      | top => exact absurd rfl hunder.2
      | frame id left right up =>
          have hthin : ¬ R.Healthy (Tree.size 0 (.leaf l)) := by
            rw [← calculatePageSize_of_stripLsn hp, ← isPageUnderpopulated_iff]
            exact hunder.1
          have hspec := redistributeOrMergePage_spec
            (n := 2 * (up.path.length + 1)) hP hst hlsn hthin
          have hlock := lockstep_redistributeOrMergePage
            (some ⟨id, (left.length : ℤ) - 1⟩) lsn hs
          revert hspec hlock
          show _ → _ → ∃ next w', BPlusTree.redistributeOrMergePage l.id
            (some ⟨id, (left.length : ℤ) - 1⟩) ref lsn w = .ok next w'
          rw [Tree.id_leaf]
          cases hstore : PageStore.redistributeOrMergePage l.id (some ⟨id, (left.length : ℤ) - 1⟩)
            lsn S with
          | ok b S' =>
              intro _ hlock
              obtain ⟨next, w', hrun, -⟩ := returns_of_lockstep hlock hescape rfl
              exact ⟨next, w', hrun⟩
          -- An exception of the source is tolerated only where leaves are not kept half full.
          | error d S' =>
              intro hspec
              cases d with
              | undisciplined => exact hspec.elim
              | raised e => exact absurd (hhealthy.resolve_left Bool.false_ne_true) hspec.1.1
    · rw [if_neg hunder]
      -- The page is within its bounds, or it is the root.
      have hgood : Tree.RootGood R c.isTop 0 (.leaf l) := by
        rw [not_and_or, not_not, isPageUnderpopulated_iff, calculatePageSize_of_stripLsn hp,
          not_not] at hunder
        rcases hunder with hh | hid
        · exact rootGood_of_size hP hst.capped (not_lt.mp hover) hh
        · have htop := Ctx.isTop_of_root hst.conf.holds.nodup hid
          refine Tree.rootGood_iff.mpr ⟨hst.capped, not_lt.mp hover, ?_, ?_⟩
          · simp [htop]
          · simp [htop]
      obtain ⟨S', hstore, -⟩ := hst.settle hlsn hgood
      obtain ⟨⟨⟩, w', hrun, -⟩ := returns_of_lockstep (hs.markDirty l.id lsn) hescape hstore
      exact ⟨none, w', run_bind_ok hrun⟩

/-- The place of a leaf in a tree that is a single leaf. -/
theorem isTop_of_height_zero (c : Ctx 0 H) (hH : H = 0) : c.isTop = true := by
  have hlength := c.length_path
  cases c with
  | top => rfl
  | frame id left right up =>
      simp only [Ctx.path, List.length_cons] at hlength
      omega

/-- A leaf is found, its records are changed for one key, and the first round runs.  It
returns where the leaf is the whole tree, and where leaves are kept half full. -/
theorem leafStep_returns (hescape : ∀ e, ¬ mode.escape e) (h : Holding R L M C T w)
    (hmode : mode.Allows (touchBound H) C w) (hlsn : lsn ≤ L) (key : Bytes) :
    ∃ (result : BPlusTree.LeafSearchResult) (w₁ : World) (page : LeafPage) (A B : List LeafSlot)
      (o : Option Bytes),
      BPlusTree.findLeaf key w = .ok result w₁ ∧
        BPlusTree.derefLeaf result.leafPage w₁ = .ok page w₁ ∧ Located key A o B page.slots ∧
        R.CappedSlots page.slots ∧
        (112 ≤ R.pageSize → H = 0 ∨ R.healthyLeaves →
          ∀ (value : Bytes) (slots : List LeafSlot), slots = [] ∨ slots = [⟨key, value⟩] →
          R.CappedSlots slots →
          ∃ w₂ next w', Eng.assign result.leafPage
              (.leaf { page with slots := A ++ slots ++ B }) w₁ = .ok () w₂ ∧
            BPlusTree.balanceRound lsn result.leafPageId result.leafPage result.path.reverse w₂ =
              .ok next w') := by
  obtain ⟨S₁, c, l, pageLsn, hfind, hcontent, hpageLsn, hderef, hf⟩ := findLeaf_spec
    (n := 2 * H + 2) (h.resting (touchBound H)) key
    (show 2 * H + 2 + H + 1 ≤ touchBound H by unfold touchBound; omega)
  obtain ⟨A, o, B, hl, -⟩ := hf.located h.inv.ordered
  obtain ⟨result, w₁, hrun, hid, hpath, hs₁⟩ :=
    returns_of_lockstep (lockstep_findLeaf key (h.quiet.sim hmode)) hescape hfind
  have hid : result.leafPageId = l.id := hid
  have hpath : result.path = c.path.reverse := hpath
  rw [hid] at hs₁
  have hcapped : R.CappedSlots l.slots := by
    have hgood := h.good
    rw [← hf.plug, c.good_plug] at hgood
    have hleaf : R.LeafGood c.isTop l.slots := hgood.2
    exact hleaf.capped
  rcases hs₁.derefLeaf_cases (List.mem_singleton_self _) with
    ⟨leaf, hengine, hstore⟩ | ⟨e, -, hstore⟩
  · cases hstore.symm.trans hderef
    refine ⟨result, w₁, _, A, B, o, hrun, hengine, hl, hcapped,
      fun hP hhealthy value slots hslots hcap => ?_⟩
    obtain ⟨S₂, hassign, hst⟩ := hf.standing h.good h.inv.ordered hl hslots hcap hpageLsn
    obtain ⟨⟨⟩, w₂, hassign', hs₂⟩ := returns_of_lockstep
      (hs₁.assign (List.mem_singleton_self _) _) hescape hassign
    have hlength := c.length_path
    obtain ⟨next, w', hround⟩ := balanceRound_returns
      (l := ⟨l.id, l.right, A ++ slots ++ B⟩) hescape
      hP hlsn (hhealthy.imp_left (isTop_of_height_zero c)) hs₂
        { hst with conf := hst.conf.le_budget _ (by omega) }
    refine ⟨w₂, next, w', hassign', ?_⟩
    rw [hid, hpath, List.reverse_reverse]
    exact hround
  · cases hstore.symm.trans hderef

theorem insertLeafStep_returns (hescape : ∀ e, ¬ mode.escape e) (h : Holding R L M C T w)
    (hmode : mode.Allows (touchBound H) C w) (hP : 112 ≤ R.pageSize)
    (hhealthy : H = 0 ∨ R.healthyLeaves) (hlsn : lsn ≤ L)
    (hfits : (calculateLeafRecordSize key value : ℤ) ≤ getMaxLeafRecordSize R.pageSize)
    (hkey : key.length ≤ R.maxKey) :
    ∃ step w', BPlusTree.insertLeafStep key value lsn w = .ok step w' := by
  obtain ⟨result, w₁, page, A, B, o, hfind, hderef, hl, -, hstep⟩ :=
    leafStep_returns hescape h hmode hlsn key
  have hcap : R.CappedSlots [⟨key, value⟩] := by
    intro s hs
    rw [List.mem_singleton.mp hs]
    refine ⟨?_, hkey⟩
    simp only [calculateLeafRecordSize, getMaxLeafRecordSize, lengthFieldSize, pageHeaderSize,
      slotEntrySize] at hfits
    simp only [leafSlotSize, Regime.slotCap, slotEntrySize, lengthFieldSize, pageHeaderSize]
    omega
  obtain ⟨w₂, next, w', hassign, hround⟩ := hstep hP hhealthy value _ (.inr rfl) hcap
  have hslots : BPlusTree.upsertSlot page.slots key value = A ++ [⟨key, value⟩] ++ B := by
    rw [hl.upsertSlot]
    simp
  have haccept : BPlusTree.raiseIfRecordTooLarge key value w = .ok () w := by
    rw [h.quiet.raiseIfRecordTooLarge, if_neg (by rw [h.pageSize]; exact not_lt.mpr hfits)]
  refine ⟨(result, next), w', ?_⟩
  rw [BPlusTree.insertLeafStep, run_bind_ok haccept, run_bind_ok hfind, run_bind_ok hderef, hslots,
    run_bind_ok hassign, run_bind_ok hround]
  rfl

theorem deleteLeafStep_returns (hescape : ∀ e, ¬ mode.escape e) (h : Holding R L M C T w)
    (hmode : mode.Allows (touchBound H) C w) (hP : 112 ≤ R.pageSize)
    (hhealthy : H = 0 ∨ R.healthyLeaves) (hlsn : lsn ≤ L)
    (key : Bytes) :
    ∃ step w', BPlusTree.deleteLeafStep key lsn w = .ok step w' := by
  obtain ⟨result, w₁, page, A, B, o, hfind, hderef, hl, -, hstep⟩ :=
    leafStep_returns hescape h hmode hlsn key
  rw [BPlusTree.deleteLeafStep, run_bind_ok hfind, run_bind_ok hderef, hl.findSlot]
  cases o with
  | none => exact ⟨none, w₁, rfl⟩
  | some v =>
      obtain ⟨w₂, next, w', hassign, hround⟩ := hstep hP hhealthy v [] (.inl rfl)
        (by simp [Regime.CappedSlots])
      have hslots : page.slots.eraseIdx (BPlusTree.bisectLeft (page.slots.map (·.key)) key) =
          A ++ [] ++ B := by
        rw [hl.eraseIdx]
        simp
      refine ⟨some (result, next), w', ?_⟩
      simp only [Option.map_some]
      rw [hslots, run_bind_ok hassign, run_bind_ok hround]
      rfl

/-! ## Leaves stay half full -/

/-- The half-full rule on leaves only, for every key that the record cap admits. -/
def leafRegime (P : ℕ)
    (hP : 112 ≤ P ∧ 5 * (pageHeaderSize + (P - pageHeaderSize) / 5) < 2 * P) : Regime :=
  { plainRegime P with healthyLeaves := True, thin := fun _ => hP }

theorem within_leafRegime {P : ℕ}
    (hP : 112 ≤ P ∧ 5 * (pageHeaderSize + (P - pageHeaderSize) / 5) < 2 * P) (c : TreeCall) :
      c.Within (leafRegime P hP) := by
  cases c with
  | insert key value lsn => exact key_le_of_accepted
  | _ => trivial

theorem tightMode_allows {n : ℕ} (hset : SameSettings (newTree config false) w) :
    tightMode.Allows n C w where
  room _ henabled := by
    rw [hset.eviction] at henabled
    cases henabled
  power _ := hset.power rfl
  kept _ _ _ _ := trivial
  start _ h := by cases h

/-- The split of an overpopulated leaf, all of whose records are within the cap, leaves two
halves that are at least `0.4` full. -/
theorem leaf_split_balanced {P : ℕ} (hP : 256 ≤ P) {p : LeafPage}
    (hcap : ∀ s ∈ p.slots, (calculateLeafRecordSize s.key s.value : ℤ) ≤ getMaxLeafRecordSize P)
    (hover : P < calculatePageSize (.leaf p)) :
    BPlusTree.splitHalvesAreBalanced P (.leaf p) (BPlusTree.chooseSplitPoint P (.leaf p))
      = true := by
  have hslots : ∀ x ∈ slotSizes (.leaf p), x ≤ (P - pageHeaderSize) / 5 := by
    intro x hx
    obtain ⟨s, hs, rfl⟩ := List.mem_map.mp hx
    have := hcap s hs
    simp only [calculateLeafRecordSize, getMaxLeafRecordSize, lengthFieldSize, pageHeaderSize,
      slotEntrySize] at this
    simp only [leafSlotSize, slotEntrySize, lengthFieldSize, pageHeaderSize]
    omega
  refine chooseSplitPoint_balanced hslots ?_ hover (by omega) ?_
  · simp only [pageHeaderSize]
    omega
  · simp only [maxUnder, medianCount, pageHeaderSize]
    omega

/-- In every run on an unbounded pool the leaf step of a further insert or delete returns,
its split is balanced, and every leaf below the root is at least `0.4` full. -/
theorem leaf_balance (config : Config) (calls : List TreeCall) (w : World)
    (hP : 256 ≤ config.pageSizeBytes) (h : Reached config false calls w) :
    (∀ key value lsn, BPlusTree.insert key value lsn =
        BPlusTree.insertLeafStep key value lsn >>= BPlusTree.finishCascade lsn ∧
        ((calculateLeafRecordSize key value : ℤ) ≤ getMaxLeafRecordSize config.pageSizeBytes →
          ∃ step w', BPlusTree.insertLeafStep key value lsn w = .ok step w')) ∧
      (∀ key lsn, BPlusTree.delete key lsn =
        BPlusTree.deleteLeafStep key lsn >>= BPlusTree.finishDelete lsn ∧
        ∃ step w', BPlusTree.deleteLeafStep key lsn w = .ok step w') ∧
      (∀ p : LeafPage, (∀ s ∈ p.slots, (calculateLeafRecordSize s.key s.value : ℤ) ≤
          getMaxLeafRecordSize config.pageSizeBytes) →
        config.pageSizeBytes < calculatePageSize (.leaf p) →
          BPlusTree.splitHalvesAreBalanced config.pageSizeBytes (.leaf p)
            (BPlusTree.chooseSplitPoint config.pageSizeBytes (.leaf p)) = true) ∧
      ∃ m, w.pager.metaPage = some m ∧
        ∀ x p, InTree (treePage w) m.rootPageId x → x ≠ m.rootPageId →
          treePage w x = some (.leaf p) →
            2 * config.pageSizeBytes ≤ 5 * calculatePageSize (.leaf p) := by
  obtain ⟨-, hset, L, C, M, -, H, T, hholding⟩ :=
    h.holding (R := leafRegime config.pageSizeBytes (thin_of_large hP)) rfl (minPageSize_le hP)
      fun c _ => within_leafRegime (thin_of_large hP) c
  obtain ⟨m, hm, hmeta, -⟩ := hholding.quiet.freelist
  refine ⟨fun key value lsn => ⟨BPlusTree.insert_eq_leafStep key value lsn, fun hfits => ?_⟩,
    fun key lsn => ⟨BPlusTree.delete_eq_leafStep key lsn, ?_⟩,
    fun p hcap hover => leaf_split_balanced hP hcap hover, m, hm, fun x p hx hroot hpage => ?_⟩
  · exact insertLeafStep_returns tightMode_not_escape (hholding.mono (Nat.le_add_right L lsn))
      (tightMode_allows hset) (thin_of_large hP).1 (.inr trivial) (Nat.le_add_left lsn L) hfits
        (key_le_of_accepted hfits)
  · exact deleteLeafStep_returns tightMode_not_escape (hholding.mono (Nat.le_add_right L lsn))
      (tightMode_allows hset) (thin_of_large hP).1 (.inr trivial) (Nat.le_add_left lsn L) key
  · rw [hmeta.root] at hx hroot
    have hgood : (leafRegime config.pageSizeBytes (thin_of_large hP)).LeafGood false p.slots :=
      Holding.healthy hholding hx hroot hpage
    rw [calculatePageSize_leaf]
    exact hgood.healthy rfl trivial

theorem leaf_balance_sampleCalls : ∃ w m, Reached tightConfig false sampleCalls w ∧
    w.pager.metaPage = some m ∧ Levels (treePage w) m.rootPageId 3 ∧
      (∀ key value lsn, (calculateLeafRecordSize key value : ℤ) ≤ getMaxLeafRecordSize 256 →
        ∃ step w', BPlusTree.insertLeafStep key value lsn w = .ok step w') ∧
      (∀ key lsn, ∃ step w', BPlusTree.deleteLeafStep key lsn w = .ok step w') ∧
      ∀ x p, InTree (treePage w) m.rootPageId x → x ≠ m.rootPageId →
        treePage w x = some (.leaf p) → 2 * 256 ≤ 5 * calculatePageSize (.leaf p) := by
  obtain ⟨w, m, hreached, hm, hlevels⟩ := exists_sample_unbounded
  obtain ⟨hinsert, hdelete, -, m', hm', hleaves⟩ :=
    leaf_balance tightConfig sampleCalls w (by decide) hreached
  obtain rfl : m' = m := Option.some.inj (hm'.symm.trans hm)
  exact ⟨w, m', hreached, hm, hlevels, fun key value lsn => (hinsert key value lsn).2,
    fun key lsn => (hdelete key lsn).2, hleaves⟩

end BPTreeDB.Runs
