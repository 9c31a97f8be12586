import BPTreeDB.PageStore.Stopping

/-!
# The loop invariant of the rebalancing cascade, and splits

`Standing R L c t n S` is the loop invariant of `_balance_and_write_tree`: the store
holds a tree that is in order everywhere except at one page, the root page of the
subtree `t` in its place `c`.  That page may be over or under its limits by one slot,
and it is the only one that may be changed and not marked dirty.

A round settles the tree when that page keeps its limits, and splits the page when it
is overpopulated; `Rebalance` deals with an underpopulated page.
-/

namespace BPTreeDB.PageStore

open Lib Codec BPlusTree BufferPool Lib.Program

variable {R : Regime} {L lsn h H : ℕ}

/-- The tree is in order except at the root page of `t`; the operation may touch `n` more
pages. -/
structure Standing (R : Regime) (L : ℕ) (c : Ctx h H) (t : Tree h) (n : ℕ) (S : Store) :
    Prop where
  conf : Conf R.pageSize L (Tree.id H (c.plug t)) (Tree.pages H (c.plug t))
    (Tree.pageIds H (c.plug t)) [Tree.id h t]
    (Tree.id h t :: c.path.map (·.parentPageId)) n S
  ordered : Ordered (Tree.items H (c.plug t))
  outside : c.Good R
  below : Tree.BelowGood R h t
  capped : Tree.Capped R h t
  slack : Tree.size h t ≤ R.pageSize + R.slotCap h
  nonempty : c.isTop = true → h ≠ 0 → slotCount (Tree.page h t) ≠ 0

/-- The store holds a good tree with the given records, and nothing is pending. -/
def Settled (R : Regime) (L : ℕ) (entries : List LeafSlot) (S : Store) : Prop :=
  ∃ (H : ℕ) (T : Tree H), StoreInv L S.toContent T ∧ Tree.Good R true H T ∧
    S.pageSize = R.pageSize ∧ S.pending = [] ∧ entriesOf (Tree.items H T) = entries

/-- The exceptions that a round at height `h` may raise, where pages need not be healthy. -/
def ToleratedAt (R : Regime) (h : ℕ) (e : Err) : Prop :=
  ¬ R.healthyAt h ∧ (e = .indexError ∨ e = .assertionError stuckMessage)

/-- The exceptions that a cascade may raise. -/
def Tolerated (R : Regime) (e : Err) : Prop := ∃ h, ToleratedAt R h e

/-- What a cascade may end in. -/
def CascadeSpec (R : Regime) (L : ℕ) (entries : List LeafSlot) :
    EStateM.Result Fault Store Unit → Prop
  | .ok _ S => Settled R L entries S
  | .error (.raised e) S => Tolerated R e ∧ Stopped S
  | .error .undisciplined _ => False

/-! ## Settling -/

theorem Standing.storeInv {c : Ctx h H} {t : Tree h} {S : Store} {pend hot : List ℕ} {n : ℕ}
    (hconf : Conf R.pageSize L (Tree.id H (c.plug t)) (Tree.pages H (c.plug t))
      (Tree.pageIds H (c.plug t)) pend hot n S) (hordered : Ordered (Tree.items H (c.plug t))) :
    StoreInv L S.toContent (c.plug t) :=
  ⟨hconf.root_eq, hconf.holds, hconf.accounted, hconf.chainFits, hordered⟩

theorem Standing.id_mem {c : Ctx h H} {t : Tree h} {n : ℕ} {S : Store} (_ : Standing R L c t n S) :
    Tree.id h t ∈ (Tree.pages H (c.plug t)).map Prod.fst :=
  ((c.pages_plug t).map Prod.fst).mem_iff.mpr (by simp [Tree.pages])

/-- A page that keeps its limits is marked dirty, and the tree is in order. -/
theorem Standing.settle {c : Ctx h H} {t : Tree h} {n : ℕ} {S : Store} (hs : Standing R L c t n S)
    (hlsn : lsn ≤ L) (hroot : Tree.RootGood R c.isTop h t) :
    ∃ S', markDirty (Tree.id h t) lsn S = .ok () S' ∧
      Settled R L (entriesOf (Tree.items H (c.plug t))) S' := by
  obtain ⟨S', hrun, hc⟩ := hs.conf.markDirty _ [] hs.id_mem (List.mem_cons_self ..) hlsn
    (by simp)
  refine ⟨S', hrun, H, c.plug t, Standing.storeInv hc hs.ordered, ?_, hc.pageSize, ?_, rfl⟩
  · rw [c.good_plug, Tree.good_iff]
    exact ⟨hs.outside, hroot, hs.below⟩
  · exact List.eq_nil_iff_forall_not_mem.mpr fun x hx => by simpa using hc.pending x hx

/-- Sizes between the two limits. -/
theorem rootGood_of_size {root : Bool} {t : Tree h} (hP : 112 ≤ R.pageSize)
    (hcapped : Tree.Capped R h t) (hfits : Tree.size h t ≤ R.pageSize)
    (hhealthy : R.Healthy (Tree.size h t)) : Tree.RootGood R root h t := by
  refine Tree.rootGood_iff.mpr ⟨hcapped, hfits, fun _ hzero => ?_, fun _ _ => hhealthy⟩
  have := Tree.size_le hcapped
  simp only [hzero, Regime.Healthy, pageHeaderSize] at *
  omega

/-- Where pages are healthy, two underpopulated pages leave room for what moves between
them. -/
theorem Regime.room (hhealthy : R.healthyAt h) :
    2 * maxUnder R.pageSize + (medianAt h + 1) * R.slotCap h ≤ R.pageSize + pageHeaderSize := by
  have hlarge := R.large_at hhealthy
  cases h with
  | zero =>
      simp only [maxUnder, medianAt, Regime.slotCap, pageHeaderSize]
      omega
  | succ h =>
      have hshort := R.short hhealthy
      simp only [maxUnder, medianAt, Regime.slotCap, pageHeaderSize]
      omega

/-! ## Splitting -/

/-- The halves of an overpopulated page. -/
theorem split_parts (hP : 112 ≤ R.pageSize) {t : Tree h} (hcapped : Tree.Capped R h t)
    (hslack : Tree.size h t ≤ R.pageSize + R.slotCap h) (hbelow : Tree.BelowGood R h t)
    (hover : R.pageSize < Tree.size h t) {page : Page} (hp : stripLsn page = Tree.page h t)
    (new lsn : ℕ) :
    ∃ a s b left right,
      splitParts page (chooseSplitPoint R.pageSize page) new lsn = .ok (s, left, right) ∧
      Tree.merge h a s b = t ∧ Tree.Linked h a b ∧ Tree.Fresh h s b ∧ Tree.id h b = new ∧
      stripLsn left = Tree.page h a ∧ pageLsn left = pageLsn page ∧
      stripLsn right = Tree.page h b ∧
      Tree.Good R false h a ∧ Tree.Good R false h b ∧ s.length ≤ R.maxKey := by
  have hsizes : ∀ x ∈ slotSizes page, x ≤ R.slotCap h := by
    rw [slotSizes_of_stripLsn hp]
    exact hcapped.slotSizes_le
  rw [← calculatePageSize_of_stripLsn hp] at hover hslack
  have hfits := chooseSplitPoint_fits hsizes hP (R.slotCap_le hP h) hover hslack
  set i := chooseSplitPoint R.pageSize page with hi
  have hmedian := medianCount_of_stripLsn hp
  have hlt := hfits.lt
  rw [hmedian, length_slotSizes] at hlt
  obtain ⟨a, s, b, left, right, hrun, rfl, hlink, hfresh, hid, hleft, hlsn, hright, -, ha, hb⟩ :=
    splitParts_spec hp hlt new lsn
  obtain ⟨hcapa, hcapb, -⟩ := Tree.capped_merge.mp hcapped
  obtain ⟨hbelowa, hbelowb⟩ := Tree.belowGood_merge.mp hbelow
  have hsizea : Tree.size h a = pageHeaderSize + ((slotSizes page).take i).sum := by
    rw [Tree.size, calculatePageSize, ha]
  have hsizeb : Tree.size h b = pageHeaderSize + ((slotSizes page).drop (i + medianAt h)).sum := by
    rw [Tree.size, calculatePageSize, hb]
  have hbalanced : R.healthyAt h → R.Healthy (Tree.size h a) ∧ R.Healthy (Tree.size h b) := by
    intro hhealthy
    have hroom := R.room hhealthy
    rw [← hmedian] at hroom
    have := chooseSplitPoint_balanced hsizes (R.slotCap_le hP h) hover (R.large_at hhealthy) hroom
    rw [splitHalvesAreBalanced_iff, ← hi, hmedian] at this
    rw [Regime.Healthy, Regime.Healthy, hsizea, hsizeb]
    exact this
  have hcounta : slotCount (Tree.page h a) ≠ 0 := by
    have hpos := hfits.pos
    rw [← length_slotSizes, ha, List.length_take, length_slotSizes]
    omega
  have hcountb : slotCount (Tree.page h b) ≠ 0 := by
    rw [← length_slotSizes, hb, List.length_drop, length_slotSizes]
    omega
  refine ⟨a, s, b, left, right, hrun, rfl, hlink, hfresh, hid, hleft, hlsn, hright, ?_, ?_,
    hfresh.length_le hcapped⟩
  · refine Tree.good_iff.mpr ⟨Tree.rootGood_iff.mpr ⟨hcapa, ?_, fun _ => hcounta,
      fun _ hh => (hbalanced hh).1⟩, hbelowa⟩
    rw [hsizea]
    exact hfits.left
  · refine Tree.good_iff.mpr ⟨Tree.rootGood_iff.mpr ⟨hcapb, ?_, fun _ => hcountb,
      fun _ hh => (hbalanced hh).2⟩, hbelowb⟩
    rw [hsizeb, ← hmedian]
    exact hfits.right

/-- A separator is added to a parent. -/
theorem size_insert_separator (left right : List Bytes) (s : Bytes) :
    nodeSize (left ++ s :: right) = nodeSize (left ++ right) + sepSize s := by
  simp only [nodeSize, List.map_append, List.map_cons, List.sum_append, List.sum_cons]
  omega

theorem size_mkNode (id : ℕ) (left : List (Tree h × Bytes)) (t : Tree h)
    (right : List (Bytes × Tree h)) :
    Tree.size (h + 1) (.node (mkNode id left t right)) =
      nodeSize (left.map Prod.snd ++ right.map Prod.fst) := by
  rw [Tree.size_node, mkNode, keys_joinRest]

theorem capped_mkNode {id : ℕ} {left : List (Tree h × Bytes)} {t : Tree h}
    {right : List (Bytes × Tree h)} :
    Tree.Capped R (h + 1) (.node (mkNode id left t right)) ↔
      R.CappedKeys (left.map Prod.snd ++ right.map Prod.fst) := by
  rw [Tree.capped_node, mkNode, keys_joinRest]

theorem slotCount_mkNode (id : ℕ) (left : List (Tree h × Bytes)) (t : Tree h)
    (right : List (Bytes × Tree h)) :
    slotCount (Tree.page (h + 1) (.node (mkNode id left t right))) =
      left.length + right.length := by
  rw [page_mkNode]
  simp [slotCount, rightSlots]

/-- The configuration of a whole tree, seen from a parent and two neighbours. -/
theorem conf_around_two {up : Ctx (h + 1) H} {id idA idB : ℕ} {left : List (Tree h × Bytes)}
    {right : List (Bytes × Tree h)} {a b : Tree h} {s : Bytes} {P root : ℕ}
    {parent pageA pageB : Page} {others : List (ℕ × Page)} {owned pend hot : List ℕ} {n : ℕ}
    {S : Store}
    (hc : Conf P L root ((id, parent) :: (idA, pageA) :: (idB, pageB) :: others) owned pend hot n S)
    (hparent : parent = .internal ⟨0, nodeFirst left a,
      nodeSlots left a ++ rightSlots ((s, b) :: right)⟩)
    (ha : idA = Tree.id h a ∧ pageA = Tree.page h a)
      (hb : idB = Tree.id h b ∧ pageB = Tree.page h b)
    (hothers : others = aside up left right (Tree.below h a ++ Tree.below h b)
      (.node (mkNode id left a ((s, b) :: right))))
    (hroot : root = Tree.id H (up.plug (.node (mkNode id left a ((s, b) :: right)))))
    (howned : owned.Perm (id :: idA :: idB :: others.map Prod.fst)) :
    Conf P L (Tree.id H (up.plug (.node (mkNode id left a ((s, b) :: right)))))
      (Tree.pages H (up.plug (.node (mkNode id left a ((s, b) :: right)))))
      (Tree.pageIds H (up.plug (.node (mkNode id left a ((s, b) :: right))))) pend hot n S := by
  obtain ⟨rfl, rfl⟩ := ha
  obtain ⟨rfl, rfl⟩ := hb
  have hperm := pages_around_two up id left right a b s
  rw [page_mkNode, ← hothers, ← hparent] at hperm
  have hpages : ((id, parent) :: (Tree.id h a, Tree.page h a) :: (Tree.id h b, Tree.page h b) ::
      others).Perm (Tree.pages H (up.plug (.node (mkNode id left a ((s, b) :: right))))) := by
    refine .trans ?_ hperm.symm
    simp only [List.perm_iff_count, List.count_cons]
    intro x
    omega
  rw [← hroot]
  exact hc.weaken hpages (howned.trans (hpages.map Prod.fst)) (fun _ hx => hx) (fun _ hx => hx)
    le_rfl

/-- The configuration of a whole tree, seen from a parent and one child. -/
theorem conf_around_one {up : Ctx (h + 1) H} {id idT : ℕ} {left : List (Tree h × Bytes)}
    {right : List (Bytes × Tree h)} {t : Tree h} {P root : ℕ} {parent pageT : Page}
    {others : List (ℕ × Page)} {owned pend hot : List ℕ} {n : ℕ} {S : Store}
    (hc : Conf P L root ((id, parent) :: (idT, pageT) :: others) owned pend hot n S)
    (hparent : parent = .internal ⟨0, nodeFirst left t, nodeSlots left t ++ rightSlots right⟩)
    (ht : idT = Tree.id h t ∧ pageT = Tree.page h t)
    (hothers : others = aside up left right (Tree.below h t) (.node (mkNode id left t right)))
    (hroot : root = Tree.id H (up.plug (.node (mkNode id left t right))))
    (howned : owned.Perm (id :: idT :: others.map Prod.fst)) :
    Conf P L (Tree.id H (up.plug (.node (mkNode id left t right))))
      (Tree.pages H (up.plug (.node (mkNode id left t right))))
      (Tree.pageIds H (up.plug (.node (mkNode id left t right)))) pend hot n S := by
  obtain ⟨rfl, rfl⟩ := ht
  have hperm := pages_around_one up id left right t
  rw [page_mkNode, ← hothers, ← hparent] at hperm
  have hpages := (List.Perm.swap (Tree.id h t, Tree.page h t) (id, parent) others).trans hperm.symm
  rw [← hroot]
  exact hc.weaken hpages (howned.trans (hpages.map Prod.fst)) (fun _ hx => hx) (fun _ hx => hx)
    le_rfl

/-- An overpopulated page below a parent is split; the parent gets a new separator. -/
theorem Standing.splitPage_frame (hP : 112 ≤ R.pageSize) {id : ℕ} {left : List (Tree h × Bytes)}
    {right : List (Bytes × Tree h)} {up : Ctx (h + 1) H} {t : Tree h} {S : Store}
    {n : ℕ} (hs : Standing R L (.frame id left right up) t (n + 1) S) (hlsn : lsn ≤ L)
    (hover : R.pageSize < Tree.size h t) :
    ∃ S' t', splitPage (Tree.id h t) (some id) lsn S = .ok id S' ∧ Tree.id (h + 1) t' = id ∧
      Standing R L up t' n S' ∧ entriesOf (Tree.items H (up.plug t')) =
        entriesOf (Tree.items H ((Ctx.frame id left right up).plug t)) := by
  obtain ⟨hgood, hleftGood, hrightGood, hupGood⟩ := hs.outside
  have hperm := pages_around_one up id left right t
  rw [page_mkNode] at hperm
  set others := aside up left right (Tree.below h t) (.node (mkNode id left t right)) with hothers
  have hc := hs.conf.weaken hperm (hperm.map Prod.fst) (fun _ hx => hx) (fun _ hx => hx) le_rfl
  obtain ⟨page, hderef, hp, hle⟩ := hc.deref (List.mem_cons_self ..)
  obtain ⟨new, S1, halloc, hnew, hc1⟩ := hc.allocatePage
  obtain ⟨a, s, b, leftPage, rightPage, hparts, hmerge, hlink, hfresh, hidb, hleftPage, hleftLsn,
    hrightPage, hgooda, hgoodb, hslen⟩ :=
    split_parts hP hs.capped hs.slack hs.below hover hp new lsn
  have hida : Tree.id h t = Tree.id h a := by rw [← hmerge, Tree.id_merge]
  have hbelow : Tree.below h t = Tree.below h a ++ Tree.below h b := by
    rw [← hmerge, Tree.below_merge]
  -- The two halves are stored, then the separator goes into the parent.
  obtain ⟨S2, hassign, hc2⟩ := hc1.assign leftPage (by omega)
  obtain ⟨S3, hmark, hc3⟩ := hc2.markDirty _ [] (by simp) (List.mem_cons_self ..) hlsn (by simp)
  obtain ⟨S4, hinsert, hc4⟩ := hc3.insertPage new rightPage (by simpa using hnew) (by simp) hlsn
  have hget := hc4.getPage_hot id (by simp) (by simp) (by simp [Ctx.path])
  obtain ⟨parentLsn, hparentLsn, -, hparent⟩ := hc4.derefInternal id (nodeFirst left t)
    (nodeSlots left t ++ rightSlots right) (by simp)
  have hordered : Ordered (up.before ++ leftItems left ++
      (Tree.items h a ++ .sep s :: Tree.items h b) ++ (rightItems right ++ up.after)) := by
    have hcount := (Tree.rootGood_iff.mp (Tree.good_iff.mp hgooda).1).2.2.1 (.inl rfl)
    refine Ordered.split ?_ hlink hfresh hcount
    rw [hmerge, ← items_around_one up id left right t]
    exact hs.ordered
  obtain ⟨hlts, hgts⟩ := hordered.separators
  have hinsort := insortInternal_place (t := t) (n := new) hlts hgts
  obtain ⟨S5, hassign', hc5⟩ := hc4.assignThird
    (.internal ⟨parentLsn, nodeFirst left t, nodeSlots left t ++ ⟨s, new⟩ :: rightSlots right⟩)
    hparentLsn
  refine ⟨S5, .node (mkNode id left a ((s, b) :: right)), ?_, rfl,
    ⟨?_, ?_, hupGood, ?_, ?_, ?_, ?_⟩,
    ?_⟩
  -- The run of the source, step by step.
  · simp only [splitPage, run_bind, run_get, hderef, hc.pageSize, halloc, hparts, codec, run_pure,
      hassign, hmark, hinsert, hget, hparent, hinsort, hassign']
  · refine (conf_around_two (hc5.perm ((id, .internal ⟨0, nodeFirst left t,
      nodeSlots left t ++ ⟨s, new⟩ :: rightSlots right⟩) :: (Tree.id h t, stripLsn leftPage) ::
      (new, stripLsn rightPage) :: others) ?_) ?_ ⟨hida, hleftPage⟩ ⟨hidb.symm, hrightPage⟩ ?_
      (up.id_plug rfl) ?_).weaken (.refl _) (.refl _) (fun _ hx => by simpa using hx) ?_ le_rfl
    · simp only [List.perm_iff_count, List.count_cons, stripLsn, setLsn]
      intro x
      omega
    · rw [← (nodeSlots_congr hida left).1, ← (nodeSlots_congr hida left).2, ← hidb]
      rfl
    · rw [hothers, hbelow]
      exact aside_congr _ _ _ _ rfl
    · simp only [List.map_cons, List.perm_iff_count, List.count_cons]
      intro x
      omega
    · intro x hx
      simp only [Tree.id_node, mkNode_id, List.mem_cons] at hx
      simp only [Ctx.path, List.map_cons, List.mem_cons]
      tauto
  · rw [items_around_two]
    exact hordered
  · rw [belowGood_mkNode]
    refine ⟨hleftGood, hgooda, fun e he => ?_⟩
    rcases List.mem_cons.mp he with rfl | he
    · exact hgoodb
    · exact hrightGood e he
  · rw [capped_mkNode]
    intro k hk
    simp only [List.map_cons, List.mem_append, List.mem_cons] at hk
    rcases hk with hk | rfl | hk
    · exact hgood.capped k (List.mem_append_left _ hk)
    · exact hslen
    · exact hgood.capped k (List.mem_append_right _ hk)
  · have hsize := size_insert_separator (left.map Prod.snd) (right.map Prod.fst) s
    have := hgood.fits
    have := sepSize_le_slotCap (h := h) hslen
    rw [size_mkNode, List.map_cons, hsize]
    omega
  · intro _ _
    rw [slotCount_mkNode]
    simp
  · rw [Ctx.plug, items_around_two, items_around_one]
    simp only [entriesOf_append, ← hmerge, entriesOf_merge]

/-- An overpopulated root is split under a new root. -/
theorem Standing.splitPage_top (hP : 112 ≤ R.pageSize) {t : Tree h} {S : Store}
    (hs : Standing R L .top t 2 S) (hlsn : lsn ≤ L) (hover : R.pageSize < Tree.size h t) :
    ∃ S' T, splitPage (Tree.id h t) none lsn S = .ok (Tree.id (h + 1) T) S' ∧
      Standing R L .top T 0 S' ∧ Tree.RootGood R true (h + 1) T ∧
      entriesOf (Tree.items (h + 1) T) = entriesOf (Tree.items h t) := by
  have hc := hs.conf
  simp only [Ctx.plug, Ctx.path, List.map_nil] at hc
  obtain ⟨page, hderef, hp, hle⟩ := hc.deref (List.mem_cons_self ..)
  obtain ⟨new, S1, halloc, hnew, hc1⟩ := hc.allocatePage
  obtain ⟨a, s, b, leftPage, rightPage, hparts, hmerge, hlink, hfresh, hidb, hleftPage, hleftLsn,
    hrightPage, hgooda, hgoodb, hslen⟩ :=
    split_parts hP hs.capped hs.slack hs.below hover hp new lsn
  have hida : Tree.id h t = Tree.id h a := by rw [← hmerge, Tree.id_merge]
  have hbelow : Tree.below h t = Tree.below h a ++ Tree.below h b := by
    rw [← hmerge, Tree.below_merge]
  obtain ⟨S2, hassign, hc2⟩ := hc1.assign leftPage (by omega)
  obtain ⟨S3, hmark, hc3⟩ := hc2.markDirty _ [] (by simp) (List.mem_cons_self ..) hlsn (by simp)
  obtain ⟨S4, hinsert, hc4⟩ := hc3.insertPage new rightPage
    (by simpa [Tree.pageIds, Tree.pages] using hnew) (by simp) hlsn
  -- A second page is allocated, for the new root.
  obtain ⟨root, S5, halloc', hroot, hc5⟩ := hc4.allocatePage
  have hrootNew : root ∉ ((new, stripLsn rightPage) :: (Tree.id h t, stripLsn leftPage) ::
      Tree.below h t).map Prod.fst := by
    simpa [Tree.pageIds, Tree.pages] using hroot
  obtain ⟨S6, hinsert', hc6⟩ := hc5.insertPage root
    (.internal ⟨lsn, Tree.id h t, [⟨s, new⟩]⟩) hrootNew (by simp) hlsn
  obtain ⟨S7, hset, hc7⟩ := hc6.setRoot root
  have hordered : Ordered (Tree.items (h + 1) (.node (mkNode root [] a [(s, b)]))) := by
    have hcount := (Tree.rootGood_iff.mp (Tree.good_iff.mp hgooda).1).2.2.1 (.inl rfl)
    have := hs.ordered
    rw [Ctx.plug, ← hmerge] at this
    have hsplit : Ordered ([] ++ (Tree.items h a ++ .sep s :: Tree.items h b) ++ []) :=
      Ordered.split (by simpa using this) hlink hfresh hcount
    rw [items_mkNode]
    simpa [leftItems, rightItems] using hsplit
  have hsep := sepSize_le_slotCap (h := h) hslen
  have hcap := R.slotCap_le hP (h + 1)
  have hsize : nodeSize ([] ++ [s]) ≤ R.pageSize := by
    simp only [nodeSize, List.nil_append, List.map_cons, List.map_nil, List.sum_cons, List.sum_nil,
      pageHeaderSize]
    omega
  refine ⟨S7, .node (mkNode root [] a [(s, b)]), ?_,
    ⟨?_, hordered, trivial, ?_, ?_, ?_, ?_⟩, ?_, ?_⟩
  -- The run of the source, step by step.
  · simp only [splitPage, run_bind, run_get, hderef, hc.pageSize, halloc, hparts, codec, run_pure,
      hassign, hmark, hinsert, halloc', hinsert', hset]
    rfl
  · refine (conf_around_two (hc7.perm ((root, .internal ⟨0, Tree.id h t, [⟨s, new⟩]⟩) ::
      (Tree.id h t, stripLsn leftPage) :: (new, stripLsn rightPage) :: Tree.below h t) ?_)
      ?_ ⟨hida, hleftPage⟩ ⟨hidb.symm, hrightPage⟩ ?_ rfl ?_).weaken (.refl _) (.refl _)
      (by simp) (by simp [Ctx.path]) le_rfl
    · simp only [List.perm_iff_count, List.count_cons, stripLsn, setLsn]
      intro x
      omega
    · rw [hida, ← hidb]
      rfl
    · simp [hbelow, aside, leftPages, rightPages, Ctx.outside]
    · simp only [Tree.pageIds, Tree.pages, List.map_cons, List.perm_iff_count, List.count_cons]
      intro x
      omega
  · rw [belowGood_mkNode]
    exact ⟨by simp, hgooda, by simpa using hgoodb⟩
  · rw [capped_mkNode]
    intro k hk
    simp only [List.map_nil, List.nil_append, List.map_cons, List.mem_singleton] at hk
    rw [hk]
    exact hslen
  · rw [size_mkNode]
    exact hsize.trans (Nat.le_add_right _ _)
  · intro _ _
    rw [slotCount_mkNode]
    simp
  · rw [rootGood_mkNode]
    exact ⟨by simpa [Regime.CappedKeys] using hslen, hsize, by simp, by simp⟩
  · rw [items_mkNode, ← hmerge, entriesOf_merge]
    simp [leftItems, rightItems]

end BPTreeDB.PageStore
