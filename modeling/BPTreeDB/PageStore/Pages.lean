import BPTreeDB.PageStore.Operations
import BPTreeDB.Format.Pages

/-!
# The pages of a good tree

What the invariant of a tree says about each of its pages: sizes, children and links to
the right.  A page that fits, in a tree whose counters are within the fields of the
format, can be encoded.
-/

namespace BPTreeDB.PageStore

open Lib Codec BPlusTree BufferPool

variable {R : Regime} {L h H : ℕ} {T : Tree H} {C : Content}

/-! ## Sizes -/

/-- What a page owes. -/
def PageGood (R : Regime) (root : Bool) : Page → Prop
  | .leaf p => R.LeafGood root p.slots
  | .internal p => R.NodeGood root (p.slots.map (·.key))

theorem Tree.rootGood_page {root : Bool} (t : Tree h) :
    Tree.RootGood R root h t ↔ PageGood R root (Tree.page h t) := by
  cases h with
  | zero => rfl
  | succ h =>
      obtain ⟨n, rfl⟩ := t.exists_node
      rw [Tree.rootGood_node, Tree.page_node, PageGood, List.map_map]
      rfl

/-- Every page of a good tree is good, and pages below the root keep the bounds of a page
that is not the root. -/
theorem Tree.Good.pages : ∀ {h : ℕ} {t : Tree h} {root : Bool}, Tree.Good R root h t →
    ∀ p ∈ Tree.pages h t, (p.1 = Tree.id h t ∧ PageGood R root p.2) ∨ PageGood R false p.2 := by
  intro h
  induction h with
  | zero =>
      intro t root hgood p hp
      obtain ⟨l, rfl⟩ := t.exists_leaf
      obtain rfl : p = (l.id, Tree.page 0 (.leaf l)) := by simpa [Tree.pages] using hp
      exact .inl ⟨rfl, (Tree.rootGood_page (.leaf l)).mp hgood⟩
  | succ h ih =>
      intro t root hgood p hp
      obtain ⟨n, rfl⟩ := t.exists_node
      obtain ⟨hroot, hbelow⟩ := Tree.good_iff.mp hgood
      obtain ⟨hfirst, hrest⟩ := Tree.belowGood_node.mp hbelow
      rw [Tree.pages, Tree.below_node, List.mem_cons, List.mem_append] at hp
      rcases hp with rfl | hp | hp
      · exact .inl ⟨rfl, (Tree.rootGood_page (.node n)).mp hroot⟩
      · exact .inr ((ih hfirst p hp).elim (·.2) fun h => h)
      · obtain ⟨e, he, hp⟩ := List.mem_flatMap.mp hp
        exact .inr ((ih (hrest e he) p hp).elim (·.2) fun h => h)

theorem PageGood.fits {root : Bool} {page : Page} (h : PageGood R root page) :
    calculatePageSize page ≤ R.pageSize := by
  cases page with
  | leaf p => exact Regime.LeafGood.fits h
  | internal p =>
      rw [calculatePageSize_internal]
      exact Regime.NodeGood.fits h

theorem pageGood_stripLsn {root : Bool} (page : Page) :
    PageGood R root (stripLsn page) ↔ PageGood R root page := by
  cases page <;> rfl

/-- A page of the store is a page of the tree. -/
theorem StoreInv.mem_pages (hinv : StoreInv L C T) {x : ℕ} {page : Page}
    (hpage : C.pages x = some page) :
    (x, stripLsn page) ∈ Tree.pages H T ∧ pageLsn page ≤ L := by
  obtain ⟨p, hp, rfl⟩ := List.mem_map.mp (hinv.holds.only x page hpage)
  obtain ⟨q, hq, hstrip, hlsn⟩ := hinv.holds.stores p hp
  obtain rfl : page = q := Option.some.inj (hpage.symm.trans hq)
  rw [hstrip]
  exact ⟨hp, hlsn⟩

/-- Every page of a store with a good tree is good. -/
theorem StoreInv.pageGood (hinv : StoreInv L C T) (hgood : Tree.Good R true H T) {x : ℕ}
    {page : Page}
    (hpage : C.pages x = some page) :
    ∃ root, PageGood R root page ∧ (root = true → x = C.root) := by
  rcases hgood.pages _ (hinv.mem_pages hpage).1 with ⟨hid, h⟩ | h
  · exact ⟨true, (pageGood_stripLsn page).mp h, fun _ => by rw [hinv.root]; exact hid⟩
  · exact ⟨false, (pageGood_stripLsn page).mp h, fun h => by cases h⟩

/-! ## Links -/

/-- A leaf page of a tree is one of its leaves. -/
theorem Tree.leaf_mem : ∀ {h : ℕ} {t : Tree h} {x : ℕ} {p : LeafPage},
    (x, Page.leaf p) ∈ Tree.pages h t →
      ⟨x, p.rightSiblingPageId, p.slots⟩ ∈ leavesOf (Tree.items h t) := by
  intro h
  induction h with
  | zero =>
      intro t x p hp
      obtain ⟨l, rfl⟩ := t.exists_leaf
      simp only [Tree.pages, Tree.below_leaf, Tree.page_leaf, Tree.id_leaf, List.mem_singleton,
        Prod.mk.injEq, Page.leaf.injEq] at hp
      obtain ⟨rfl, rfl⟩ := hp
      simp [leavesOf]
  | succ h ih =>
      intro t x p hp
      obtain ⟨n, rfl⟩ := t.exists_node
      rw [Tree.pages, Tree.below_node, List.mem_cons, List.mem_append] at hp
      rw [Tree.items_node, leavesOf_append, List.mem_append]
      rcases hp with hp | hp | hp
      · simp at hp
      · exact .inl (ih hp)
      · obtain ⟨e, he, hp⟩ := List.mem_flatMap.mp hp
        refine .inr ?_
        obtain ⟨A, B, hsplit⟩ := List.append_of_mem he
        rw [hsplit, List.flatMap_append, leavesOf_append, List.flatMap_cons, List.cons_append]
        exact List.mem_append_right _ (by
          rw [leavesOf, leavesOf_append]
          exact List.mem_append_left _ (ih hp))

theorem Links.right_mem {leaves : List Leaf} {next : ℕ} (hlinks : Links leaves next) {l : Leaf}
    (hl : l ∈ leaves) : l.right = next ∨ ∃ l' ∈ leaves, l'.id = l.right := by
  induction leaves with
  | nil => cases hl
  | cons a leaves ih =>
      rcases List.mem_cons.mp hl with rfl | hl
      · cases leaves with
        | nil => exact .inl hlinks.1
        | cons b leaves => exact .inr ⟨b, by simp, hlinks.1.symm⟩
      · rcases ih hlinks.2 hl with h | ⟨l', hl', h⟩
        · exact .inl h
        · exact .inr ⟨l', List.mem_cons_of_mem _ hl', h⟩

theorem leaf_id_mem {l : Leaf} (hl : l ∈ leavesOf (Tree.items H T)) : l.id ∈ Tree.pageIds H T := by
  have hmem := (leafPages_sublist_pages H T).subset (List.mem_map_of_mem
    (f := fun l : Leaf => (l.id, Page.leaf ⟨0, l.right, l.slots⟩)) hl)
  exact List.mem_map_of_mem (f := Prod.fst) hmem

/-! ## Encoding -/

/-- The pages of a good tree can be encoded as long as the counters fit their fields. -/
theorem StoreInv.encodable (hinv : StoreInv L C T) (hgood : Tree.Good R true H T)
    (hsize : C.pageSize = R.pageSize) (hP : C.pageSize < 256 ^ 4) (hL : L < 256 ^ 8)
    (hnext : C.next ≤ 256 ^ 8) {x : ℕ} {page : Page} (hpage : C.pages x = some page) :
    Encodable C.pageSize (.tree page) := by
  obtain ⟨root, hfits, -⟩ := hinv.pageGood hgood hpage
  have hfits := hfits.fits
  rw [← hsize] at hfits
  obtain ⟨hmem, hlsn⟩ := hinv.mem_pages hpage
  have hbound : ∀ y ∈ Tree.pageIds H T, y < 256 ^ 8 := fun y hy =>
    lt_of_lt_of_le (hinv.accounted.lt hy).2 hnext
  cases page with
  | leaf p =>
      refine ⟨hP, hfits, lt_of_le_of_lt hlsn hL, ?_⟩
      rcases hinv.ordered.linked.right_mem (Tree.leaf_mem hmem) with h | ⟨l', hl', h⟩
      · have h : p.rightSiblingPageId = 0 := h
        rw [h]
        norm_num
      · have h : l'.id = p.rightSiblingPageId := h
        rw [← h]
        exact hbound _ (leaf_id_mem hl')
  | internal p =>
      obtain ⟨hfirst, hslots⟩ := Tree.children_mem hmem
      exact ⟨hP, hfits, lt_of_le_of_lt hlsn hL, hbound _ hfirst, fun s hs => hbound _ (hslots s hs)⟩

end BPTreeDB.PageStore
