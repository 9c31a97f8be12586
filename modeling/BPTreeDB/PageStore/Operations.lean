import BPTreeDB.PageStore.Records

/-!
# The operations of the tree are those of a map

`search`, `insert`, `delete` and `scan` of the page store, from any store that rests
on a good tree.  Each lemma also says how many pages the operation may touch: an
operation on a tree of `h` levels gets along with `3 * h + 2`.
-/

namespace BPTreeDB.PageStore

open Lib Codec BPlusTree BufferPool Lib.Program

variable {R : Regime} {L lsn h H n : ℕ} {T : Tree H} {S : Store} {key value : Bytes} {M : KeyMap}

/-! ## Stores at rest -/

/-- The store holds the good tree `T`, and nothing is pending. -/
structure Resting (R : Regime) (L : ℕ) (T : Tree H) (S : Store) : Prop where
  inv : StoreInv L S.toContent T
  good : Tree.Good R true H T
  pageSize : S.pageSize = R.pageSize
  pending : S.pending = []

theorem settled_iff {entries : List LeafSlot} :
    Settled R L entries S ↔
      ∃ (H : ℕ) (T : Tree H), Resting R L T S ∧ entriesOf (Tree.items H T) = entries := by
  constructor
  · rintro ⟨H, T, hinv, hgood, hsize, hpending, hentries⟩
    exact ⟨H, T, ⟨hinv, hgood, hsize, hpending⟩, hentries⟩
  · rintro ⟨H, T, ⟨hinv, hgood, hsize, hpending⟩, hentries⟩
    exact ⟨H, T, hinv, hgood, hsize, hpending, hentries⟩

theorem Accounted.lt {next x : ℕ} {chain : List (ℕ × List ℕ)} {owned : List ℕ}
    (hacc : Accounted next chain owned) (hx : x ∈ owned) : 1 ≤ x ∧ x < next := by
  have hcount := List.one_le_count_iff.mpr hx
  have := hacc x
  split at this
  · assumption
  · omega

theorem Accounted.nodup {next : ℕ} {chain : List (ℕ × List ℕ)} {owned : List ℕ}
    (hacc : Accounted next chain owned) : owned.Nodup := by
  refine List.nodup_iff_count_le_one.mpr fun x => ?_
  have := hacc x
  split at this <;> omega

theorem Accounted.length_lt {next : ℕ} {chain : List (ℕ × List ℕ)} {owned : List ℕ}
    (hacc : Accounted next chain owned) : owned.length ≤ next := by
  have hsub : owned ⊆ List.range next := fun x hx => List.mem_range.mpr (hacc.lt hx).2
  simpa using (hacc.nodup.subperm hsub).length_le

theorem Resting.next_pos (hr : Resting R L T S) : 1 ≤ S.next := by
  have := hr.inv.accounted.lt (Tree.id_mem_pageIds T)
  omega

/-- What an operation knows about a store at rest. -/
theorem Resting.conf (hr : Resting R L T S) (hn : n ≤ S.budget) :
    Conf R.pageSize L (Tree.id H T) (Tree.pages H T) (Tree.pageIds H T) [] [] n S where
  pageSize := hr.pageSize
  root_eq := hr.inv.root
  next_pos := hr.next_pos
  holds := hr.inv.holds
  accounted := hr.inv.accounted
  chainFits := hr.inv.chainFits
  pending := by simp [hr.pending]
  touched := by simp
  budget := hn

theorem Ctx.length_path : ∀ {h H : ℕ} (c : Ctx h H), c.path.length + h = H := by
  intro h H c
  induction c with
  | top => simp [Ctx.path]
  | frame id left right up ih =>
      simp only [Ctx.path, List.length_cons]
      omega

/-! ## Descending -/

/-- `_find_leaf` reaches the leaf of a key. -/
theorem findLeaf_spec (hr : Resting R L T S) (key : Bytes) (hn : n + H + 1 ≤ S.budget) :
    ∃ S' c l lsn, findLeaf key S = .ok (l.id, c.path.reverse) S' ∧
      S'.toContent = S.toContent ∧ lsn ≤ L ∧
      derefLeaf l.id S' = .ok ⟨lsn, l.right, l.slots⟩ S' ∧
      Found L T key (Tree.id H T) (Tree.pageIds H T) n c l R.pageSize S' := by
  have hc := hr.conf hn
  obtain ⟨S1, hget, hcontent1, hc1⟩ := hc.getPage (Tree.id H T) (Tree.id_mem_pageIds T) (by simp)
  have hfuel : H < S.next + 1 := by
    have := Tree.height_lt_length_pageIds H T
    have := hr.inv.accounted.length_lt
    omega
  obtain ⟨S2, c, l, hrun, hcontent2, hfound⟩ := findLeafLoop_spec (n := n) hr.inv.ordered H .top T
    (S.next + 1) [] S1 rfl rfl hfuel
    (show Between key _ _ from ⟨by simp [Ctx.before], by simp [Ctx.after]⟩) hc1
  have hmem : (l.id, Tree.page 0 (.leaf l)) ∈ Tree.pages H T := by
    rw [← hfound.plug]
    exact (c.pages_plug _).mem_iff.mpr (by simp [Tree.pages])
  obtain ⟨page, hderef, hstrip, hlsn⟩ := hfound.conf.deref hmem
  rw [eq_leaf_of_stripLsn hstrip] at hderef
  refine ⟨S2, c, l, pageLsn page, ?_, hcontent2.trans hcontent1, hlsn, ?_, hfound⟩
  · simp only [findLeaf, run_bind, run_get, hr.inv.root, hget]
    exact hrun
  · simp only [derefLeaf, run_bind, hderef, run_pure]

/-- The records of a tree around the leaf of a key. -/
theorem Found.located {P root : ℕ} {owned : List ℕ} {c : Ctx 0 H} {l : Leaf}
    (hf : Found L T key root owned n c l P S) (hordered : Ordered (Tree.items H T)) :
    ∃ A o B, Located key A o B l.slots ∧
      Located key (entriesOf c.before ++ A) o (B ++ entriesOf c.after)
        (entriesOf (Tree.items H T)) := by
  have hitems : Tree.items H T = c.before ++ [.leaf l] ++ c.after := by
    rw [← hf.plug, c.items_plug, Tree.items_leaf]
  have hsorted : (l.slots.map (·.key)).Pairwise (· < ·) := by
    have := hordered.sorted_entries
    rw [hitems] at this
    simp only [entriesOf_append, entriesOf_leaf, entriesOf_nil, List.append_nil,
      List.map_append] at this
    exact (List.pairwise_append.mp (List.pairwise_append.mp this).1).2.1
  obtain ⟨A, o, B, hl⟩ := exists_located hsorted key
  refine ⟨A, o, B, hl, ?_⟩
  rw [hitems]
  simpa using hl.extend hf.between.before hf.between.after

theorem Found.pending {P root : ℕ} {owned : List ℕ} {c : Ctx 0 H} {l : Leaf}
    (hf : Found L T key root owned n c l P S) : S.pending = [] :=
  List.eq_nil_iff_forall_not_mem.mpr fun x hx => by simpa using hf.conf.pending x hx

/-! ## Searching -/

theorem search_spec (hr : Resting R L T S) (hM : Represents M (entriesOf (Tree.items H T)))
    (key : Bytes) (hn : H + 1 ≤ S.budget) :
    ∃ S', search key S = .ok (M key) S' ∧ S'.toContent = S.toContent ∧ S'.pending = [] := by
  obtain ⟨S', c, l, lsn, hrun, hcontent, -, hderef, hf⟩ :=
    findLeaf_spec (n := 0) hr key (by omega)
  obtain ⟨A, o, B, hl, hl'⟩ := hf.located hr.inv.ordered
  refine ⟨S', ?_, hcontent, hf.pending⟩
  simp only [search, run_bind, hrun, hderef, run_pure, hl.findSlot, hM.get hl', Option.map_map]
  cases o <;> rfl

/-! ## Changing a leaf -/

/-- The place of a leaf whose records were changed for one key. -/
theorem Found.standing (hgood : Tree.Good R true H T) (hordered : Ordered (Tree.items H T))
    {c : Ctx 0 H} {l : Leaf} {A B C : List LeafSlot} {o : Option Bytes}
    (hf : Found L T key (Tree.id H T) (Tree.pageIds H T) n c l R.pageSize S)
    (hl : Located key A o B l.slots) (hC : C = [] ∨ C = [⟨key, value⟩])
    (hcapped : ∀ s ∈ C, leafSlotSize s ≤ R.slotCap 0 ∧ s.key.length ≤ R.maxKey) (hlsn : lsn ≤ L) :
    ∃ S', assign l.id (.leaf ⟨lsn, l.right, A ++ C ++ B⟩) S = .ok () S' ∧
      Standing R L c (.leaf ⟨l.id, l.right, A ++ C ++ B⟩) n S' := by
  have hplug := hf.plug
  subst hplug
  obtain ⟨houtside, hleaf⟩ := (c.good_plug _).mp hgood
  have hleaf' : R.LeafGood c.isTop l.slots := hleaf
  set l' : Leaf := ⟨l.id, l.right, A ++ C ++ B⟩ with hl'
  have hid : Tree.id 0 (.leaf l) = Tree.id 0 (.leaf l') := rfl
  have hc := hf.conf.perm ((l.id, Tree.page 0 (.leaf l)) :: c.outside (.leaf l))
    ((c.pages_plug _).trans (by simp [Tree.pages]))
  obtain ⟨S', hassign, hc'⟩ := hc.assign (.leaf ⟨lsn, l.right, A ++ C ++ B⟩) hlsn
  have hpages : ((l.id, stripLsn (.leaf ⟨lsn, l.right, A ++ C ++ B⟩)) ::
      c.outside (.leaf l)).Perm (Tree.pages H (c.plug (.leaf l'))) := by
    refine .trans ?_ (c.pages_plug _).symm
    rw [c.outside_congr hid]
    simp [Tree.pages, stripLsn, setLsn, hl']
  have howned : (Tree.pageIds H (c.plug (.leaf l))).Perm (Tree.pageIds H (c.plug (.leaf l'))) := by
    refine .trans ?_ (hpages.map Prod.fst)
    refine ((c.pages_plug _).map Prod.fst).trans ?_
    simp [Tree.pages]
  refine ⟨S', hassign, ⟨?_, ?_, houtside, by simp, ?_, ?_, by simp⟩⟩
  · rw [← c.id_plug hid]
    exact hc'.weaken hpages howned (fun _ hx => hx) (fun _ hx => hx) le_rfl
  · rw [c.items_plug, Tree.items_leaf] at hordered ⊢
    exact hordered.replace hf.between hl hC
  · intro s hs
    have hs' : s ∈ A ++ C ++ B := hs
    simp only [List.mem_append] at hs'
    rcases hs' with (hs | hs) | hs
    · exact hleaf'.capped s (by rw [hl.eq]; simp [hs])
    · exact hcapped s hs
    · exact hleaf'.capped s (by rw [hl.eq]; simp [hs])
  · have hfits := hleaf'.fits
    rw [hl.eq] at hfits
    have hsum : (C.map leafSlotSize).sum ≤ R.slotCap 0 := by
      rcases hC with rfl | rfl
      · simp
      · simpa using (hcapped _ (List.mem_singleton_self _)).1
    simp only [Tree.size_leaf, leafSize, hl', List.map_append, List.sum_append] at hfits ⊢
    omega

/-- A changed leaf is written back, and the tree rests again. -/
theorem Found.balance (value : Bytes) (hP : 112 ≤ R.pageSize) (hgood : Tree.Good R true H T)
    (hordered : Ordered (Tree.items H T)) {c : Ctx 0 H} {l : Leaf} {A B C : List LeafSlot}
    {o : Option Bytes} {pageLsn : ℕ}
    (hf : Found L T key (Tree.id H T) (Tree.pageIds H T) (2 * H + 2) c l R.pageSize S)
    (hl : Located key A o B l.slots) (hC : C = [] ∨ C = [⟨key, value⟩])
    (hcapped : ∀ s ∈ C, leafSlotSize s ≤ R.slotCap 0 ∧ s.key.length ≤ R.maxKey)
    (hpageLsn : pageLsn ≤ L) (hlsn : lsn ≤ L) :
    ∃ S', assign l.id (.leaf ⟨pageLsn, l.right, A ++ C ++ B⟩) S = .ok () S' ∧
      CascadeSpec R L (entriesOf c.before ++ (A ++ C ++ B) ++ entriesOf c.after)
        (balanceAndWriteTree l.id c.path.reverse lsn S') := by
  obtain ⟨S', hassign, hs⟩ := hf.standing hgood hordered hl hC hcapped hpageLsn
  refine ⟨S', hassign, ?_⟩
  have hlength := c.length_path
  have hspec := balanceLoop_spec hP hlsn c _ S' (c.path.length + 2)
    { hs with conf := hs.conf.le_budget _ (by omega) } le_rfl
  rw [c.items_plug, Tree.items_leaf] at hspec
  simpa [balanceAndWriteTree] using hspec

/-! ## Inserting -/

theorem insert_tooLarge (hr : Resting R L T S)
    (hlarge : getMaxLeafRecordSize R.pageSize < calculateLeafRecordSize key value) :
    insert key value lsn S = .error (.raised (.recordTooLarge (getMaxLeafRecordSize R.pageSize)
      (calculateLeafRecordSize key value))) S := by
  simp only [insert, raiseIfRecordTooLarge, run_bind, run_get, hr.pageSize, if_pos hlarge, raise,
    run_throw]

/-- An accepted record is put into the map. -/
theorem insert_spec (hr : Resting R L T S) (hM : Represents M (entriesOf (Tree.items H T)))
    (hfits : (calculateLeafRecordSize key value : ℤ) ≤ getMaxLeafRecordSize R.pageSize)
    (hkey : key.length ≤ R.maxKey) (hlsn : lsn ≤ L) (hn : 3 * (H + 1) + 2 ≤ S.budget) :
    ∃ entries, Represents (Function.update M key (some value)) entries ∧
      CascadeSpec R L entries (insert key value lsn S) := by
  have hsize : 16 + key.length + value.length ≤ (R.pageSize - pageHeaderSize) / 5 := by
    simp only [calculateLeafRecordSize, getMaxLeafRecordSize, lengthFieldSize, pageHeaderSize,
      slotEntrySize] at hfits ⊢
    omega
  have hP : 112 ≤ R.pageSize := by
    simp only [pageHeaderSize] at hsize
    omega
  obtain ⟨S', c, l, pageLsn, hrun, hcontent, hpageLsn, hderef, hf⟩ :=
    findLeaf_spec (n := 2 * H + 2) hr key (by omega)
  obtain ⟨A, o, B, hl, hl'⟩ := hf.located hr.inv.ordered
  have hcapped : ∀ s ∈ [(⟨key, value⟩ : LeafSlot)],
      leafSlotSize s ≤ R.slotCap 0 ∧ s.key.length ≤ R.maxKey := by
    intro s hs
    rw [List.mem_singleton.mp hs]
    refine ⟨?_, hkey⟩
    simp only [leafSlotSize, Regime.slotCap, slotEntrySize, lengthFieldSize]
    omega
  obtain ⟨S'', hassign, hspec⟩ :=
    hf.balance value hP hr.good hr.inv.ordered hl (.inr rfl) hcapped hpageLsn hlsn
  refine ⟨_, hM.put hl' value, ?_⟩
  have hentries : entriesOf c.before ++ A ++ ⟨key, value⟩ :: (B ++ entriesOf c.after) =
      entriesOf c.before ++ (A ++ [⟨key, value⟩] ++ B) ++ entriesOf c.after := by simp
  rw [hentries]
  have hslots : upsertSlot l.slots key value = A ++ [⟨key, value⟩] ++ B := by
    rw [hl.upsertSlot]
    simp
  simp only [insert, raiseIfRecordTooLarge, run_bind, run_get, hr.pageSize, if_neg hfits.not_gt,
    run_pure, hrun, hderef, hslots, hassign]
  exact hspec

/-! ## Deleting -/

theorem delete_absent (lsn : ℕ) (hr : Resting R L T S)
    (hM : Represents M (entriesOf (Tree.items H T)))
    (hkey : M key = none) (hn : H + 1 ≤ S.budget) :
    ∃ S', delete key lsn S = .ok false S' ∧ S'.toContent = S.toContent ∧ S'.pending = [] := by
  obtain ⟨S', c, l, pageLsn, hrun, hcontent, -, hderef, hf⟩ :=
    findLeaf_spec (n := 0) hr key (by omega)
  obtain ⟨A, o, B, hl, hl'⟩ := hf.located hr.inv.ordered
  obtain rfl : none = o := hkey.symm.trans (hM.get hl')
  refine ⟨S', ?_, hcontent, hf.pending⟩
  simp only [delete, run_bind, hrun, hderef, hl.findSlot, Option.map_none, run_pure]

/-- A run of `delete` that found its key. -/
def DeleteSpec (R : Regime) (L : ℕ) (entries : List LeafSlot) :
    EStateM.Result Fault Store Bool → Prop
  | .ok wasDeleted S => wasDeleted = true ∧ Settled R L entries S
  | .error (.raised e) S => Tolerated R e ∧ Stopped S
  | .error .undisciplined _ => False

/-- The record of a key is removed from the map. -/
theorem delete_spec (hr : Resting R L T S) (hM : Represents M (entriesOf (Tree.items H T)))
    {v : Bytes} (hkey : M key = some v) (hlsn : lsn ≤ L) (hn : 3 * (H + 1) + 2 ≤ S.budget) :
    ∃ entries, Represents (Function.update M key none) entries ∧
      DeleteSpec R L entries (delete key lsn S) := by
  obtain ⟨S', c, l, pageLsn, hrun, hcontent, hpageLsn, hderef, hf⟩ :=
    findLeaf_spec (n := 2 * H + 2) hr key (by omega)
  obtain ⟨A, o, B, hl, hl'⟩ := hf.located hr.inv.ordered
  obtain rfl : some v = o := hkey.symm.trans (hM.get hl')
  have hP : 112 ≤ R.pageSize := by
    -- The leaf holds a record, so a record fits.
    have hgood := hr.good
    rw [← hf.plug, c.good_plug] at hgood
    have hleaf : R.LeafGood c.isTop l.slots := hgood.2
    have := (hleaf.capped ⟨key, v⟩ (by rw [hl.eq]; simp)).1
    simp only [leafSlotSize, Regime.slotCap, slotEntrySize, lengthFieldSize, pageHeaderSize] at this
    omega
  obtain ⟨S'', hassign, hspec⟩ := hf.balance v hP hr.good hr.inv.ordered hl (.inl rfl) (by simp)
    hpageLsn hlsn
  refine ⟨_, hM.erase hl', ?_⟩
  have hentries : entriesOf c.before ++ A ++ (B ++ entriesOf c.after) =
      entriesOf c.before ++ (A ++ [] ++ B) ++ entriesOf c.after := by simp
  rw [hentries]
  have hslots : l.slots.eraseIdx (bisectLeft (l.slots.map (·.key)) key) = A ++ [] ++ B := by
    rw [hl.eraseIdx]
    simp
  simp only [delete, run_bind, hrun, hderef, hl.findSlot, Option.map_some, hslots, hassign]
  revert hspec
  cases balanceAndWriteTree l.id c.path.reverse lsn S'' with
  | ok u S3 => exact fun hspec => ⟨rfl, hspec⟩
  | error e S3 =>
      cases e with
      | undisciplined => exact id
      | raised e => exact id

/-! ## Scanning -/

/-- The pages of the leaves. -/
def leafPages (leaves : List Leaf) : List (ℕ × Page) :=
  leaves.map fun l => (l.id, .leaf ⟨0, l.right, l.slots⟩)

theorem leafPages_sublist_pages : ∀ (h : ℕ) (t : Tree h),
    (leafPages (leavesOf (Tree.items h t))).Sublist (Tree.pages h t) := by
  intro h
  induction h with
  | zero =>
      intro t
      obtain ⟨l, rfl⟩ := t.exists_leaf
      simp [Tree.pages, leavesOf, leafPages]
  | succ h ih =>
      intro t
      obtain ⟨nd, rfl⟩ := t.exists_node
      simp only [Tree.pages, Tree.below_node, Tree.items_node, leavesOf_append, leafPages,
        List.map_append]
      refine List.Sublist.cons _ ((ih nd.first).append ?_)
      generalize nd.rest = rest
      induction rest with
      | nil => simp [leavesOf]
      | cons e rest ihrest =>
          simp only [List.flatMap_cons, List.cons_append, leavesOf, leavesOf_append,
            List.map_append]
          exact (ih e.2).append ihrest

/-- The leaf walk yields what is left before the end of the range. -/
theorem scanLoop_spec {S : Store} (stop : Option Bytes) (hheld : Holds L S.pages (Tree.pages H T))
    (hpos : ∀ x ∈ Tree.pageIds H T, 1 ≤ x) :
    ∀ (rest : List Leaf) (l : Leaf) (lsn fuel i : ℕ), Links (l :: rest) 0 →
      (∀ p ∈ leafPages rest, p ∈ Tree.pages H T) → rest.length < fuel →
      scanLoop stop fuel ⟨lsn, l.right, l.slots⟩ i S =
        .ok (upTo stop (l.slots.drop i ++ rest.flatMap Leaf.slots)) S := by
  intro rest
  induction rest with
  | nil =>
      intro l lsn fuel i hlinks _ hfuel
      obtain ⟨fuel, rfl⟩ : ∃ k, fuel = k + 1 := ⟨fuel - 1, by omega⟩
      have hright : l.right = 0 := hlinks.1
      simp [scanLoop, scanSlots_eq, hright]
  | cons r rest ih =>
      intro l lsn fuel i hlinks hpages hfuel
      obtain ⟨fuel, rfl⟩ : ∃ k, fuel = k + 1 := ⟨fuel - 1, by omega⟩
      obtain ⟨hright, hlinks⟩ := hlinks
      have hright' : l.right = r.id := hright
      have hmem : (r.id, Page.leaf ⟨0, r.right, r.slots⟩) ∈ Tree.pages H T :=
        hpages _ (by simp [leafPages])
      have hid : 0 < r.id := hpos r.id (List.mem_map_of_mem hmem)
      obtain ⟨page, hpage, hstrip, -⟩ := hheld.stores _ hmem
      rw [eq_leaf_of_stripLsn (l := r) hstrip] at hpage
      have hderef : derefLeaf r.id S = .ok ⟨pageLsn page, r.right, r.slots⟩ S := by
        simp [derefLeaf, deref, run_bind, hpage]
      simp only [scanLoop, scanSlots_eq, hright', hid, and_true]
      by_cases hall : (l.slots.drop i).all (fun s => stop.all (s.key < ·)) = true
      · have hrec := ih r (pageLsn page) fuel 0 hlinks
          (fun p hp => hpages p (List.mem_cons_of_mem _ hp)) (by simpa using hfuel)
        rw [if_pos hall, run_bind, hderef]
        simp only [run_bind, hrec, run_pure, List.drop_zero, List.flatMap_cons,
          upTo_append_all hall]
      · rw [if_neg hall, run_pure, upTo_append_not_all hall]

/-- A scan yields the records of its range. -/
theorem scan_spec (hr : Resting R L T S) (start stop : Option Bytes) (hn : H + 1 ≤ S.budget) :
    ∃ S', scan start stop S =
        .ok (inRange (start.getD []) stop (entriesOf (Tree.items H T))) S' ∧
      S'.toContent = S.toContent ∧ S'.pending = [] := by
  obtain ⟨S', c, l, lsn, hrun, hcontent, -, hderef, hf⟩ :=
    findLeaf_spec (n := 0) hr (start.getD []) (by omega)
  obtain ⟨A, o, B, hl, hl'⟩ := hf.located hr.inv.ordered
  have hitems : Tree.items H T = c.before ++ [.leaf l] ++ c.after := by
    rw [← hf.plug, c.items_plug, Tree.items_leaf]
  have hsub : (leafPages (leavesOf c.after)).Sublist (Tree.pages H T) := by
    refine .trans ?_ (leafPages_sublist_pages H T)
    rw [hitems]
    simp only [leafPages, leavesOf_append, List.map_append]
    exact List.sublist_append_right _ _
  have hlinks : Links (l :: leavesOf c.after) 0 := by
    have := hr.inv.ordered.linked
    rw [hitems] at this
    simp only [leavesOf_append, List.append_assoc, links_append] at this
    exact ⟨this.2.1.1, this.2.2⟩
  have hfuel : (leavesOf c.after).length < S'.next + 1 := by
    have hlen := hsub.length_le
    have hnext := hr.inv.accounted.length_lt
    rw [← hcontent] at hnext
    simp only [leafPages, List.length_map, Tree.pageIds] at hlen hnext
    omega
  have hwalk := scanLoop_spec stop hf.conf.holds
    (fun x hx => (hr.inv.accounted.lt hx).1) (leavesOf c.after) l lsn (S'.next + 1) A.length hlinks
    (fun p hp => hsub.subset hp) hfuel
  refine ⟨S', ?_, hcontent, hf.pending⟩
  rw [inRange_of_located hr.inv.ordered.sorted_entries hl']
  simp only [scan, run_bind, hrun, hderef, run_get, hl.bisectLeft, hwalk]
  have hdrop : l.slots.drop A.length = (o.map (LeafSlot.mk (start.getD []))).toList ++ B := by
    rw [hl.eq, List.append_assoc, List.drop_left]
  rw [hdrop, List.append_assoc]
  rfl

end BPTreeDB.PageStore
