import BPTreeDB.Engine.StorePages

/-!
# Reads of a tree that is held

Every page that a read of a held tree fetches is a page of the tree.  Such a fetch returns
the page, or it overflows the pool and leaves the process as it is.  So a read that is cut
short in the middle, like one that returns, leaves the process with the pages it held, and
the page objects that callers hold stay what they are.
-/

namespace BPTreeDB.Engine

open Lib Eng Codec Lib.Program PageStore

variable {R : Regime} {L H : ℕ} {T : Tree H} {C : Content} {M : KeyMap} {w w' w'' : World}
  {x : ℕ} {ref : Ref} {page : Page} {α : Type}

/-- From `w` to `w'` pages of `C` were read: the process holds `C`, no page object has
changed, and later fetches give what they would have given before. -/
structure Reads (C : Content) (w w' : World) : Prop where
  quiet : Quiet w' C
  objects : w.pool.objects <+: w'.pool.objects
  store : ∀ x, storePage w' x = storePage w x

theorem Reads.refl (hq : Quiet w C) : Reads C w w := ⟨hq, List.prefix_rfl, fun _ => rfl⟩

theorem Reads.trans (h : Reads C w w') (h' : Reads C w' w'') : Reads C w w'' :=
  ⟨h'.quiet, h.objects.trans h'.objects, fun x => (h'.store x).trans (h.store x)⟩

theorem Reads.object (h : Reads C w w') (hobject : w.pool.objects[ref]? = some page) :
    w'.pool.objects[ref]? = some page := by
  obtain ⟨tail, htail⟩ := h.objects
  obtain ⟨hlt, -⟩ := List.getElem?_eq_some_iff.mp hobject
  rw [← htail, List.getElem?_append_left hlt]
  exact hobject

/-- A fetch adds page objects and changes none. -/
theorem readInvariant_objects (objects : List Page) :
    ReadInvariant (fun w => objects <+: w.pool.objects) (fun _ => True) where
  error _ _ := trivial
  evict := by
    intro w hw
    rcases evict_cases w with ⟨-, -, hrun⟩ | ⟨cache, -, hrun⟩
    · rw [hrun]
      constructor
      · intro a w' h
        cases h
      · exact fun _ _ _ => trivial
    · rw [hrun]
      constructor
      · intro a w' h
        cases h
        exact hw
      · exact fun _ _ _ => trivial
  hit _ _ _ hw _ := hw
  enter _ _ page hw := hw.trans (List.prefix_append _ [page])

/-- A fetch of a page of `C` returns its object, or overflows the pool. -/
theorem Quiet.get (hq : Quiet w C) (hpage : C.pages x = some page) :
    (∃ ref w', BufferPool.get x w = .ok ref w' ∧ Reads C w w' ∧
      w'.pool.objects[ref]? = some page) ∨
      BufferPool.get x w = .error .bufferPoolOverflow w := by
  have hallows : Mode.Allows ⟨False, True, fun _ _ => True, none⟩ 1 C w :=
    ⟨fun h => h.elim, fun h => absurd trivial h, fun _ _ _ _ => trivial, fun _ h => by cases h⟩
  rcases (hq.sim hallows).fetch (by simp) hpage (by simp)
      (.inr ⟨by simp, Nat.one_pos, rfl, rfl⟩) with ⟨ref, w', hget, hsim⟩ | ⟨-, hget⟩
  · refine .inl ⟨ref, w', hget, ⟨hsim.forgetAll.quiet rfl, ?_, ?_⟩, ?_⟩
    · exact ((readInvariant_objects w.pool.objects).fetch x w List.prefix_rfl).1 ref w' hget
    · exact (hq.coherent.get_ok hget).1.store
    · obtain ⟨q, hq, hobject⟩ := hsim.pool.object (x, ref) (by simp [handles])
      obtain rfl : q = page := Option.some.inj (hq.symm.trans hpage)
      exact hobject
  · exact .inr hget

theorem deref_eq (hobject : w.pool.objects[ref]? = some page) : Eng.deref ref w = .ok page w := by
  simp [Eng.deref, run_bind, hobject]

theorem derefLeaf_eq {p : LeafPage} (hobject : w.pool.objects[ref]? = some (.leaf p)) :
    BPlusTree.derefLeaf ref w = .ok p w := by
  rw [BPlusTree.derefLeaf, run_bind_ok (deref_eq hobject)]
  rfl

/-! ## Pages that a read comes to -/

theorem StoreInv.isSome_of_mem (hinv : StoreInv L C T) (hx : x ∈ Tree.pageIds H T) :
    ∃ page, C.pages x = some page := by
  obtain ⟨p, hp, rfl⟩ := List.mem_map.mp hx
  obtain ⟨page, hpage, -⟩ := hinv.holds.stores p hp
  exact ⟨page, hpage⟩

/-- The children of a page of a held tree are pages of it. -/
theorem StoreInv.child_isSome (hinv : StoreInv L C T) {p : InternalPage} {i : ℤ} {child : ℕ}
    (hpage : C.pages x = some (.internal p)) (hchild : BPlusTree.childAt p i = some child) :
    ∃ page, C.pages child = some page := by
  have hmem := (hinv.mem_pages hpage).1
  obtain ⟨hfirst, hrest⟩ := Tree.children_mem (p := { p with lastModifiedLsn := 0 }) hmem
  apply StoreInv.isSome_of_mem hinv
  unfold BPlusTree.childAt at hchild
  split at hchild
  · cases hchild
    exact hfirst
  · obtain ⟨slot, hslot, rfl⟩ := Option.map_eq_some_iff.mp hchild
    exact hrest slot (List.mem_of_getElem? hslot)

/-- The leaf to the right of a leaf of a held tree is a leaf of it. -/
theorem StoreInv.right_isSome (hinv : StoreInv L C T) {p : LeafPage}
    (hpage : C.pages x = some (.leaf p)) (hright : 0 < p.rightSiblingPageId) :
    ∃ page, C.pages p.rightSiblingPageId = some page := by
  have hmem := Tree.leaf_mem (p := { p with lastModifiedLsn := 0 }) (hinv.mem_pages hpage).1
  rcases hinv.ordered.linked.right_mem hmem with hzero | ⟨l, hl, hid⟩
  · have hzero : p.rightSiblingPageId = 0 := hzero
    omega
  · apply StoreInv.isSome_of_mem hinv
    rw [show p.rightSiblingPageId = l.id from hid.symm]
    exact leaf_id_mem hl

/-! ## Reads that return or are cut short -/

/-- The pool gives every page of `C`. -/
def Supplied (C : Content) (w : World) : Prop :=
  ∀ x page, C.pages x = some page → storePage w x = some page

theorem Supplied.reads (h : Supplied C w) (hreads : Reads C w w') : Supplied C w' :=
  fun x page hpage => (hreads.store x).trans (h x page hpage)

/-- A pool that has a free or a clean page, or that caches all pages, gives every page. -/
theorem Quiet.supplied (hq : Quiet w C)
    (h : Roomy w ∨ ∀ x, (C.pages x).isSome → x ∈ w.pool.cache.map Prod.fst) : Supplied C w := by
  intro x page hpage
  cases hlookup : w.pool.cache.lookup x with
  | some c =>
      rw [storePage_cached hlookup]
      obtain ⟨q, hq', hobject⟩ := hq.pool.object (x, c.page)
        (List.mem_append_right _ (List.mem_map.mpr ⟨_, mem_of_lookup hlookup, rfl⟩))
      obtain rfl : page = q := Option.some.inj (hpage.symm.trans hq')
      exact hobject
  | none =>
      have habsent := lookup_eq_none.mp hlookup
      have hroomy : Roomy w := h.resolve_right fun hall =>
        absurd (hall x (Option.isSome_iff_exists.mpr ⟨page, hpage⟩)) habsent
      have hdisk := (hq.pool.disk x page hpage (by simp) fun c hc =>
        absurd (List.mem_map_of_mem (f := Prod.fst) hc) habsent).1
      have hsize : w.pager.pageSizeBytes = C.pageSize := hq.pageSize
      obtain ⟨bytes, hread, hdecode⟩ := readPage_of_onDisk hq.isOpen hq.data (hsize ▸ hdisk)
      rw [storePage_roomy hlookup hroomy]
      unfold diskPage
      rw [hread]
      simp only [hdecode]

/-- The exceptions that cut a read of `C` short. -/
def CutShort (C : Content) (w : World) (e : Err) : Prop :=
  (e = .bufferPoolOverflow ∧ ¬ Supplied C w) ∨ e = .diverges ∨ e = .indexError ∨
    ∃ message, e = .assertionError message

theorem CutShort.reads {e : Err} (h : CutShort C w' e) (hreads : Reads C w w') :
    CutShort C w e :=
  h.imp (fun h => ⟨h.1, fun hs => h.2 (hs.reads hreads)⟩) id

/-- A read returns something that satisfies `Q`, or it is cut short; the process holds its
pages either way. -/
def ReadSpec (C : Content) (w : World) (Q : α → World → Prop) : EStateM.Result Err World α → Prop
  | .ok a w' => Reads C w w' ∧ Q a w'
  | .error e w' => Reads C w w' ∧ CutShort C w e

theorem ReadSpec.bind {β : Type} {Q : α → World → Prop} {Q' : β → World → Prop} {f : Eng α}
    {g : α → Eng β} (hf : ReadSpec C w Q (f w))
    (hg : ∀ a w', Reads C w w' → Q a w' → ReadSpec C w' Q' (g a w')) :
    ReadSpec C w Q' ((f >>= g) w) := by
  cases hrun : f w with
  | ok a w₁ =>
      rw [hrun] at hf
      rw [run_bind_ok hrun]
      have hrest := hg a w₁ hf.1 hf.2
      revert hrest
      cases g a w₁ with
      | ok b w₂ => exact fun hrest => ⟨hf.1.trans hrest.1, hrest.2⟩
      | error e w₂ => exact fun hrest => ⟨hf.1.trans hrest.1, hrest.2.reads hf.1⟩
  | error e w₁ =>
      rw [hrun] at hf
      rw [run_bind_error hrun]
      exact hf

theorem ReadSpec.mono {Q Q' : α → World → Prop} {r : EStateM.Result Err World α}
    (h : ReadSpec C w Q r) (hQ : ∀ a w', Q a w' → Q' a w') : ReadSpec C w Q' r := by
  cases r with
  | ok a w' => exact ⟨h.1, hQ a w' h.2⟩
  | error e w' => exact h

/-- The page object of a page of `C`. -/
def ObjectOf (C : Content) (x : ℕ) (ref : Ref) (w : World) : Prop :=
  ∃ page, C.pages x = some page ∧ w.pool.objects[ref]? = some page

theorem readSpec_get (hq : Quiet w C) (hpage : C.pages x = some page) :
    ReadSpec C w (fun ref w' => ObjectOf C x ref w') (BufferPool.get x w) := by
  rcases hq.get hpage with ⟨ref, w', hrun, hreads, hobject⟩ | hrun
  · rw [hrun]
    exact ⟨hreads, page, hpage, hobject⟩
  · have hnone : storePage w x = none := by
      rw [storePage, hrun]
    rw [hrun]
    refine ⟨.refl hq, .inl ⟨rfl, fun hs => ?_⟩⟩
    rw [hs x page hpage] at hnone
    cases hnone

theorem readSpec_derefLeaf (hq : Quiet w C) (hobject : ObjectOf C x ref w) :
    ReadSpec C w (fun p w' => C.pages x = some (.leaf p) ∧ w'.pool.objects[ref]? = some (.leaf p))
      (BPlusTree.derefLeaf ref w) := by
  obtain ⟨page, hpage, hobject⟩ := hobject
  rw [BPlusTree.derefLeaf, run_bind_ok (deref_eq hobject)]
  cases page with
  | leaf p => exact ⟨.refl hq, hpage, hobject⟩
  | internal p => exact ⟨.refl hq, .inr (.inr (.inr ⟨_, rfl⟩))⟩

theorem readSpec_findLeafLoop (hinv : StoreInv L C T) (key : Bytes) (fuel : ℕ) :
    ∀ (x : ℕ) (ref : Ref) (path : List BPlusTree.PathItem) (w : World), Quiet w C →
      ObjectOf C x ref w →
      ReadSpec C w (fun result w' => ObjectOf C result.leafPageId result.leafPage w')
        (BPlusTree.findLeafLoop key fuel x ref path w) := by
  induction fuel with
  | zero =>
      intro x ref path w hq _
      exact ⟨.refl hq, .inr (.inl rfl)⟩
  | succ fuel ih =>
      intro x ref path w hq hobject
      obtain ⟨page, hpage, hobject⟩ := hobject
      rw [BPlusTree.findLeafLoop, run_bind_ok (deref_eq hobject)]
      cases page with
      | leaf p => exact ⟨.refl hq, .leaf p, hpage, hobject⟩
      | internal p =>
          dsimp only
          cases hchild : BPlusTree.childAt p (BPlusTree.childSlotIndex p key) with
          | none => exact ⟨.refl hq, .inr (.inr (.inl rfl))⟩
          | some child =>
              obtain ⟨page, hpage'⟩ := StoreInv.child_isSome hinv hpage hchild
              exact (readSpec_get hq hpage').bind fun ref' w' hreads hobject' =>
                ih child ref' _ w' hreads.quiet hobject'

theorem readSpec_findLeaf (hinv : StoreInv L C T) (hq : Quiet w C) (key : Bytes) :
    ReadSpec C w (fun result w' => ObjectOf C result.leafPageId result.leafPage w')
      (BPlusTree.findLeaf key w) := by
  obtain ⟨m, hm, hfields, -⟩ := hq.metaPage
  have hget : Pager.getMeta w = .ok m w := by simp [Pager.getMeta, run_bind, hm]
  obtain ⟨page, hpage⟩ := StoreInv.isSome_of_mem hinv (Tree.id_mem_pageIds T)
  rw [BPlusTree.findLeaf, run_bind_ok hget]
  have hroot : C.pages m.rootPageId = some page := by
    rw [show m.rootPageId = C.root from hfields.root, hinv.root]
    exact hpage
  exact (readSpec_get hq hroot).bind fun ref w' hreads hobject =>
    readSpec_findLeafLoop hinv key _ _ _ _ w' hreads.quiet hobject

theorem readSpec_search (hinv : StoreInv L C T) (hq : Quiet w C) (key : Bytes) :
    ReadSpec C w (fun _ _ => True) (BPlusTree.search key w) := by
  refine (readSpec_findLeaf hinv hq key).bind fun result w₁ hreads hobject => ?_
  exact (readSpec_derefLeaf hreads.quiet hobject).bind fun p w₂ hreads₂ _ =>
    ⟨.refl hreads₂.quiet, trivial⟩

theorem readSpec_scanLoop (hinv : StoreInv L C T) (stop : Option Bytes) (fuel : ℕ) :
    ∀ (x : ℕ) (p : LeafPage) (i : ℕ) (w : World), Quiet w C → C.pages x = some (.leaf p) →
      ReadSpec C w (fun _ _ => True) (BPlusTree.scanLoop stop fuel p i w) := by
  induction fuel with
  | zero =>
      intro x p i w hq _
      exact ⟨.refl hq, .inr (.inl rfl)⟩
  | succ fuel ih =>
      intro x p i w hq hpage
      rw [BPlusTree.scanLoop]
      dsimp only
      split
      · rename_i hmore
        obtain ⟨page, hpage'⟩ := StoreInv.right_isSome hinv hpage hmore.2
        refine (readSpec_get hq hpage').bind fun ref w₁ hreads₁ hobject => ?_
        refine (readSpec_derefLeaf hreads₁.quiet hobject).bind fun q w₂ hreads₂ hleaf => ?_
        exact (ih _ q 0 w₂ hreads₂.quiet hleaf.1).bind fun _ w₃ hreads₃ _ =>
          ⟨.refl hreads₃.quiet, trivial⟩
      · exact ⟨.refl hq, trivial⟩

theorem readSpec_scan (hinv : StoreInv L C T) (hq : Quiet w C) (start stop : Option Bytes) :
    ReadSpec C w (fun _ _ => True) (BPlusTree.scan start stop w) := by
  refine (readSpec_findLeaf hinv hq _).bind fun result w₁ hreads₁ hobject => ?_
  refine (readSpec_derefLeaf hreads₁.quiet hobject).bind fun p w₂ hreads₂ hleaf => ?_
  obtain ⟨m, hm, -⟩ := hreads₂.quiet.metaPage
  have hget : Pager.getMeta w₂ = .ok m w₂ := by simp [Pager.getMeta, run_bind, hm]
  rw [run_bind_ok hget]
  exact readSpec_scanLoop hinv stop _ _ p _ w₂ hreads₂.quiet hleaf.1

/-- A scan of a tree that is held returns, if the pool gives its pages. -/
theorem Holding.scan_supplied (h : Holding R L M C T w) (hs : Supplied C w)
    (start stop : Option Bytes) : ∃ w', BPlusTree.scan start stop w =
      .ok (inRange (start.getD []) stop (entriesOf (Tree.items H T))) w' := by
  have hreads := readSpec_scan h.inv h.quiet start stop
  rcases h.scan start stop with ⟨w', hscan, -⟩ | ⟨e, w', hscan, hescape⟩
  · exact ⟨w', hscan⟩
  · rw [hscan] at hreads
    have hcut : CutShort C w e := hreads.2
    rcases hescape with ⟨-, rfl | ⟨pageId, rfl⟩⟩ | ⟨-, rfl⟩
    · exact absurd hs (by simpa [CutShort] using hcut)
    · simp [CutShort] at hcut
    · simp [CutShort] at hcut

/-! ## The leaves of a held tree -/

/-- The object `leaf` is the leaf `l` of the tree, with the leaves `back` to its right. -/
structure AtLeaf (C : Content) (T : Tree H) (l : Leaf) (back : List Leaf) (leaf : Ref) (w : World) :
    Prop where
  leaves : ∃ front, leavesOf (Tree.items H T) = front ++ l :: back
  object : ∃ lsn, C.pages l.id = some (.leaf ⟨lsn, l.right, l.slots⟩) ∧
    w.pool.objects[leaf]? = some (.leaf ⟨lsn, l.right, l.slots⟩)

theorem AtLeaf.reads {l : Leaf} {back : List Leaf} {leaf : Ref} (h : AtLeaf C T l back leaf w)
    (hreads : Reads C w w') : AtLeaf C T l back leaf w' := by
  obtain ⟨lsn, hpage, hobject⟩ := h.object
  exact ⟨h.leaves, lsn, hpage, hreads.object hobject⟩

/-- A leaf of a held tree is a page of the process. -/
theorem StoreInv.leaf_page (hinv : StoreInv L C T) {l : Leaf}
    (hl : l ∈ leavesOf (Tree.items H T)) :
    ∃ lsn, C.pages l.id = some (.leaf ⟨lsn, l.right, l.slots⟩) := by
  have hmem : (l.id, Page.leaf ⟨0, l.right, l.slots⟩) ∈ Tree.pages H T :=
    (leafPages_sublist_pages H T).subset (List.mem_map_of_mem
      (f := fun l : Leaf => (l.id, Page.leaf ⟨0, l.right, l.slots⟩)) hl)
  obtain ⟨page, hpage, hstrip, -⟩ := hinv.holds.stores _ hmem
  rw [eq_leaf_of_stripLsn (l := l) hstrip] at hpage
  exact ⟨_, hpage⟩

theorem StoreInv.length_leaves_le (hinv : StoreInv L C T) :
    (leavesOf (Tree.items H T)).length ≤ C.next := by
  have hlen := (leafPages_sublist_pages H T).length_le
  have hnext := hinv.accounted.length_lt
  simp only [leafPages, List.length_map, Tree.pageIds] at hlen hnext
  omega

/-- The right sibling of a leaf is the next leaf. -/
theorem AtLeaf.right {l : Leaf} {back : List Leaf} {leaf : Ref} (h : AtLeaf C T l back leaf w)
    (hinv : StoreInv L C T) : l.right = headId back 0 := by
  obtain ⟨front, hleaves⟩ := h.leaves
  have hlinked := hinv.ordered.linked
  rw [hleaves, links_append] at hlinked
  exact hlinked.2.1

theorem AtLeaf.length_back {l : Leaf} {back : List Leaf} {leaf : Ref}
    (h : AtLeaf C T l back leaf w) (hinv : StoreInv L C T) :
    back.length < C.next + 1 := by
  obtain ⟨front, hleaves⟩ := h.leaves
  have hlen := StoreInv.length_leaves_le hinv
  rw [hleaves, List.length_append, List.length_cons] at hlen
  omega

/-- The leaf to the right of a leaf can be fetched. -/
theorem AtLeaf.next {l next : Leaf} {back : List Leaf} {leaf : Ref}
    (h : AtLeaf C T l (next :: back) leaf w) (hinv : StoreInv L C T) : 0 < next.id ∧
      (Quiet w C → (∃ ref w', BufferPool.get next.id w = .ok ref w' ∧ Reads C w w' ∧
        AtLeaf C T next back ref w') ∨ BufferPool.get next.id w =
          .error .bufferPoolOverflow w) := by
  obtain ⟨front, hleaves⟩ := h.leaves
  have hmem : next ∈ leavesOf (Tree.items H T) := by
    rw [hleaves]
    simp
  obtain ⟨lsn, hpage⟩ := StoreInv.leaf_page hinv hmem
  refine ⟨(hinv.accounted.lt (leaf_id_mem hmem)).1, fun hq => ?_⟩
  rcases hq.get hpage with ⟨ref, w', hget, hreads, hobject⟩ | hget
  · exact .inl ⟨ref, w', hget, hreads, ⟨front ++ [l], by simp [hleaves]⟩, lsn, hpage, hobject⟩
  · exact .inr hget

/-- `_find_leaf` comes to the leaf from which a range is read. -/
theorem Holding.findLeaf_ok (h : Holding R L M C T w) {key : Bytes}
    {result : BPlusTree.LeafSearchResult} (hrun : BPlusTree.findLeaf key w = .ok result w') :
    Reads C w w' ∧ ∃ l back, AtLeaf C T l back result.leafPage w' ∧
      ∀ stop, inRange key stop (entriesOf (Tree.items H T)) =
        upTo stop (l.slots.drop (BPlusTree.bisectLeft (l.slots.map (·.key)) key) ++
          back.flatMap Leaf.slots) := by
  have hallows : Mode.Allows ⟨False, True, fun _ _ => True, none⟩ (H + 1) C w :=
    ⟨fun h => h.elim, fun h => absurd trivial h, fun _ _ _ _ => trivial, fun _ h => by cases h⟩
  have hreads := readSpec_findLeaf h.inv h.quiet key
  rw [hrun] at hreads
  refine ⟨hreads.1, ?_⟩
  obtain ⟨S, c, l, lsn, hstore, hcontent, -, hderef, hfound⟩ :=
    findLeaf_spec (n := 0) (h.resting (H + 1)) key (by simp)
  have hlock := lockstep_findLeaf key (h.quiet.sim hallows)
  rw [hrun, hstore] at hlock
  obtain ⟨hid, -, hsim⟩ := hlock
  have hitems : Tree.items H T = c.before ++ [.leaf l] ++ c.after := by
    rw [← hfound.plug, c.items_plug, Tree.items_leaf]
  obtain ⟨A, o, B, hl, hl'⟩ := hfound.located h.inv.ordered
  refine ⟨l, leavesOf c.after, ⟨⟨leavesOf c.before, ?_⟩, ?_⟩, fun stop => ?_⟩
  · rw [hitems]
    simp [leavesOf]
  · obtain ⟨page, hpage, hobject⟩ := hsim.pool.object (result.leafPageId, result.leafPage)
      (by simp [handles])
    have hmem : l ∈ leavesOf (Tree.items H T) := by
      rw [hitems]
      simp [leavesOf]
    obtain ⟨lsn', hleaf⟩ := StoreInv.leaf_page h.inv hmem
    have hpages : S.pages = C.pages := congrArg Content.pages hcontent
    have hpage' : C.pages l.id = some page := by
      rw [← hpages, ← show result.leafPageId = l.id from hid]
      exact hpage
    obtain rfl := Option.some.inj (hpage'.symm.trans hleaf)
    exact ⟨lsn', hleaf, hobject⟩
  · rw [inRange_of_located h.inv.ordered.sorted_entries hl', hl.bisectLeft]
    have hdrop : l.slots.drop A.length = (o.map (LeafSlot.mk key)).toList ++ B := by
      rw [hl.eq, List.append_assoc, List.drop_left]
    rw [hdrop, List.append_assoc]
    rfl

/-- A search for a leaf that is cut short has overflowed the pool. -/
theorem Holding.findLeaf_error (h : Holding R L M C T w) {key : Bytes} {e : Err}
    (hrun : BPlusTree.findLeaf key w = .error e w') :
    Reads C w w' ∧ e = .bufferPoolOverflow := by
  have hallows : Mode.Allows ⟨False, True, fun _ _ => True, none⟩ (H + 1) C w :=
    ⟨fun h => h.elim, fun h => absurd trivial h, fun _ _ _ _ => trivial, fun _ h => by cases h⟩
  have hreads := readSpec_findLeaf h.inv h.quiet key
  rw [hrun] at hreads
  obtain ⟨S, c, l, lsn, hstore, -⟩ := findLeaf_spec (n := 0) (h.resting (H + 1)) key (by simp)
  have hlock := lockstep_findLeaf key (h.quiet.sim hallows)
  rw [hrun, hstore] at hlock
  have hescape : Mode.escape ⟨False, True, fun _ _ => True, none⟩ e := hlock
  refine ⟨hreads.1, ?_⟩
  rcases hescape with ⟨-, rfl | ⟨pageId, rfl⟩⟩ | ⟨-, rfl⟩
  · rfl
  · obtain ⟨-, hcut⟩ := hreads
    simp [CutShort] at hcut
  · obtain ⟨-, hcut⟩ := hreads
    simp [CutShort] at hcut

end BPTreeDB.Engine
