import BPTreeDB.PageStore.Shape

/-!
# The invariant of the page store

`StoreInv S T` says that the store `S` holds the tree `T` and nothing else, that
`T` is ordered and its leaves are linked, and that every page id below `next` is a
page of `T` or free, exactly once.

Order is one statement: give every leaf key `k` the token `(k, true)` and every
separator `s` the token `(s, false)`, in lexicographic order.  Then "keys under
child `i` are `< sᵢ`, keys under child `i + 1` are `≥ sᵢ`, and keys and separators
of a page increase strictly", at every node at once, says that the tokens of the
tree increase strictly from left to right.

Page sizes are kept apart in `Tree.Good`, because the rebalancing cascade works on
a tree with one page that violates them.  A `Regime` fixes the bounds: the cap on
records and keys, and whether the half-full rule is part of the invariant.
-/

namespace BPTreeDB.PageStore

open Lib Codec BPlusTree

/-! ## Order -/

/-- A leaf key or a separator key, as an element of one linear order. -/
abbrev Token := Bytes ×ₗ Bool

def keyToken (key : Bytes) : Token := toLex (key, true)

def sepToken (key : Bytes) : Token := toLex (key, false)

theorem keyToken_lt_keyToken {a b : Bytes} : keyToken a < keyToken b ↔ a < b := by
  simp [keyToken, Prod.Lex.toLex_lt_toLex]

theorem keyToken_lt_sepToken {a b : Bytes} : keyToken a < sepToken b ↔ a < b := by
  simp [keyToken, sepToken, Prod.Lex.toLex_lt_toLex]

theorem sepToken_lt_keyToken {a b : Bytes} : sepToken a < keyToken b ↔ a ≤ b := by
  simp [keyToken, sepToken, Prod.Lex.toLex_lt_toLex, le_iff_lt_or_eq]

theorem sepToken_lt_sepToken {a b : Bytes} : sepToken a < sepToken b ↔ a < b := by
  simp [sepToken, Prod.Lex.toLex_lt_toLex]

/-- The tokens of a list of slots. -/
def slotTokens (slots : List LeafSlot) : List Token := slots.map fun s => keyToken s.key

def Item.tokens : Item → List Token
  | .leaf l => slotTokens l.slots
  | .sep s => [sepToken s]

/-- The tokens of a list of items. -/
def tokens (items : List Item) : List Token := items.flatMap Item.tokens

@[simp] theorem tokens_nil : tokens [] = [] := rfl

@[simp] theorem tokens_cons (i : Item) (items : List Item) :
    tokens (i :: items) = i.tokens ++ tokens items := rfl

@[simp] theorem tokens_append (a b : List Item) : tokens (a ++ b) = tokens a ++ tokens b := by
  simp [tokens]

@[simp] theorem Item.tokens_leaf (l : Leaf) : (Item.leaf l).tokens = slotTokens l.slots := rfl

@[simp] theorem Item.tokens_sep (s : Bytes) : (Item.sep s).tokens = [sepToken s] := rfl

@[simp] theorem slotTokens_append (a b : List LeafSlot) :
    slotTokens (a ++ b) = slotTokens a ++ slotTokens b := by
  simp [slotTokens]

/-! ## Leaves and entries -/

/-- The leaves of a list of items. -/
def leavesOf : List Item → List Leaf
  | [] => []
  | .leaf l :: rest => l :: leavesOf rest
  | .sep _ :: rest => leavesOf rest

@[simp] theorem leavesOf_append (a b : List Item) :
    leavesOf (a ++ b) = leavesOf a ++ leavesOf b := by
  induction a with
  | nil => rfl
  | cons i a ih => cases i <;> simp [leavesOf, ih]

/-- The records of a list of items. -/
def entriesOf (items : List Item) : List LeafSlot := (leavesOf items).flatMap Leaf.slots

@[simp] theorem entriesOf_append (a b : List Item) :
    entriesOf (a ++ b) = entriesOf a ++ entriesOf b := by
  simp [entriesOf]

@[simp] theorem entriesOf_nil : entriesOf [] = [] := rfl

@[simp] theorem entriesOf_leaf (l : Leaf) (rest : List Item) :
    entriesOf (.leaf l :: rest) = l.slots ++ entriesOf rest := rfl

@[simp] theorem entriesOf_sep (s : Bytes) (rest : List Item) :
    entriesOf (.sep s :: rest) = entriesOf rest := rfl

/-- The id of the first leaf of a list, `next` if it is empty. -/
def headId (leaves : List Leaf) (next : ℕ) : ℕ :=
  match leaves with
  | [] => next
  | l :: _ => l.id

/-- Every leaf links to the leaf on its right, the last one to `next`. -/
def Links : List Leaf → ℕ → Prop
  | [], _ => True
  | l :: rest, next => l.right = headId rest next ∧ Links rest next

theorem links_append (a b : List Leaf) (next : ℕ) :
    Links (a ++ b) next ↔ Links a (headId b next) ∧ Links b next := by
  induction a with
  | nil => simp [Links]
  | cons l a ih =>
      have hhead : headId (a ++ b) next = headId a (headId b next) := by
        cases a <;> rfl
      simp only [List.cons_append, Links, ih, hhead, and_assoc]

/-! ## Page sizes -/

/-- The size of a leaf page with the given slots. -/
def leafSize (slots : List LeafSlot) : ℕ := pageHeaderSize + (slots.map leafSlotSize).sum

/-- The encoded size of an internal slot with the given key. -/
def sepSize (key : Bytes) : ℕ := slotEntrySize + lengthFieldSize + key.length + pageIdFieldSize

/-- The size of an internal page with the given separator keys. -/
def nodeSize (keys : List Bytes) : ℕ := pageHeaderSize + (keys.map sepSize).sum

theorem calculatePageSize_leaf (p : LeafPage) :
    calculatePageSize (.leaf p) = leafSize p.slots := rfl

theorem calculatePageSize_internal (p : InternalPage) :
    calculatePageSize (.internal p) = nodeSize (p.slots.map (·.key)) := by
  simp only [calculatePageSize, slotSizes, nodeSize, List.map_map]
  rfl

theorem leafSize_append (a b : List LeafSlot) :
    leafSize (a ++ b) + pageHeaderSize = leafSize a + leafSize b := by
  simp only [leafSize, List.map_append, List.sum_append]
  omega

theorem nodeSize_append (a b : List Bytes) :
    nodeSize (a ++ b) + pageHeaderSize = nodeSize a + nodeSize b := by
  simp only [nodeSize, List.map_append, List.sum_append]
  omega

/-! ## Regimes -/

/-- The bounds under which the tree is kept.  `healthyLeaves` and `healthyNodes` say
whether the rule that pages are at least `0.4` full is part of the invariant; they ask
for what makes the rule hold. -/
structure Regime where
  pageSize : ℕ
  maxKey : ℕ
  healthyLeaves : Prop
  healthyNodes : Prop
  /-- A record with the longest key and an empty value is within the record cap, on
  pages that are large enough for a record at all. -/
  cap : 112 ≤ pageSize → 16 + maxKey ≤ (pageSize - pageHeaderSize) / 5
  /-- A leaf with a single record is underpopulated. -/
  thin : healthyLeaves → 112 ≤ pageSize ∧
    5 * (pageHeaderSize + (pageSize - pageHeaderSize) / 5) < 2 * pageSize
  large : healthyNodes → 256 ≤ pageSize
  /-- Two maximal separators and two underpopulated pages fit on one page. -/
  short : healthyNodes → 2 * ((2 * pageSize - 1) / 5) + 2 * maxKey + 8 ≤ pageSize

namespace Regime

variable (R : Regime)

/-- Whether the pages at height `h` are kept at least `0.4` full. -/
def healthyAt : ℕ → Prop
  | 0 => R.healthyLeaves
  | _ + 1 => R.healthyNodes

/-- The cap on the slot sizes of the pages at height `h`. -/
def slotCap : (h : ℕ) → ℕ
  | 0 => (R.pageSize - pageHeaderSize) / 5
  | _ + 1 => 20 + R.maxKey

theorem slotCap_le (hP : 112 ≤ R.pageSize) (h : ℕ) : 5 * R.slotCap h + 12 ≤ R.pageSize := by
  have := R.cap hP
  simp only [pageHeaderSize] at this
  cases h <;> simp only [slotCap, pageHeaderSize] <;> omega

theorem large_at {h : ℕ} (hh : R.healthyAt h) : 112 ≤ R.pageSize := by
  cases h with
  | zero => exact (R.thin hh).1
  | succ h =>
      have := R.large hh
      omega

/-- Where pages are kept half full, a page with a single slot is underpopulated. -/
theorem thin_at {h : ℕ} (hh : R.healthyAt h) :
    5 * (pageHeaderSize + R.slotCap h) < 2 * R.pageSize := by
  cases h with
  | zero => exact (R.thin hh).2
  | succ h =>
      have hlarge := R.large hh
      have hcap := R.slotCap_le (by omega) (h + 1)
      simp only [pageHeaderSize]
      omega

/-- Keys and records within the caps. -/
def CappedSlots (slots : List LeafSlot) : Prop :=
  ∀ s ∈ slots, leafSlotSize s ≤ R.slotCap 0 ∧ s.key.length ≤ R.maxKey

/-- Separators within the cap. -/
def CappedKeys (keys : List Bytes) : Prop :=
  ∀ k ∈ keys, k.length ≤ R.maxKey

/-- A page of this size is at least `0.4` of the page size. -/
def Healthy (size : ℕ) : Prop := 2 * R.pageSize ≤ 5 * size

/-- What a leaf owes: records within the cap, at most a page; a leaf that is not the
root is not empty, and half full where the regime says so. -/
structure LeafGood (root : Bool) (slots : List LeafSlot) : Prop where
  capped : R.CappedSlots slots
  fits : leafSize slots ≤ R.pageSize
  nonempty : root = false → slots ≠ []
  healthy : root = false → R.healthyLeaves → R.Healthy (leafSize slots)

/-- What an internal page owes, in terms of its separator keys. -/
structure NodeGood (root : Bool) (keys : List Bytes) : Prop where
  capped : R.CappedKeys keys
  fits : nodeSize keys ≤ R.pageSize
  nonempty : keys ≠ []
  healthy : root = false → R.healthyNodes → R.Healthy (nodeSize keys)

end Regime

variable {R : Regime} {h H : ℕ}

/-- What the root page of a tree owes. -/
def Tree.RootGood (R : Regime) (root : Bool) : (h : ℕ) → Tree h → Prop
  | 0, l => R.LeafGood root (Leaf.slots l)
  | _ + 1, n => R.NodeGood root ((Node.rest n).map Prod.fst)

/-- Every page of a tree keeps its bounds. -/
def Tree.Good (R : Regime) : (root : Bool) → (h : ℕ) → Tree h → Prop
  | root, 0, l => Tree.RootGood R root 0 l
  | root, h + 1, n => Tree.RootGood R root (h + 1) n ∧
      Tree.Good R false h (Node.first n) ∧ ∀ e ∈ Node.rest n, Tree.Good R false h e.2

/-- Every page below the root of a tree keeps its bounds. -/
def Tree.BelowGood (R : Regime) : (h : ℕ) → Tree h → Prop
  | 0, _ => True
  | h + 1, n => Tree.Good R false h (Node.first n) ∧ ∀ e ∈ Node.rest n, Tree.Good R false h e.2

theorem Tree.good_iff {root : Bool} {t : Tree h} :
    Tree.Good R root h t ↔ Tree.RootGood R root h t ∧ Tree.BelowGood R h t := by
  cases h with
  | zero => simp [Tree.Good, Tree.BelowGood]
  | succ h => rfl

@[simp] theorem Tree.rootGood_leaf {root : Bool} {l : Leaf} :
    Tree.RootGood R root 0 (.leaf l) ↔ R.LeafGood root l.slots := Iff.rfl

@[simp] theorem Tree.rootGood_node {root : Bool} {n : Node (Tree h)} :
    Tree.RootGood R root (h + 1) (.node n) ↔ R.NodeGood root (n.rest.map Prod.fst) := Iff.rfl

@[simp] theorem Tree.belowGood_leaf {l : Leaf} : Tree.BelowGood R 0 (.leaf l) := trivial

@[simp] theorem Tree.belowGood_node {n : Node (Tree h)} :
    Tree.BelowGood R (h + 1) (.node n) ↔
      Tree.Good R false h n.first ∧ ∀ e ∈ n.rest, Tree.Good R false h e.2 := Iff.rfl

/-- A context that is the whole tree. -/
def Ctx.isTop : {h H : ℕ} → Ctx h H → Bool
  | _, _, .top => true
  | _, _, .frame .. => false

/-- Every page outside the place keeps its bounds. -/
def Ctx.Good (R : Regime) : {h H : ℕ} → Ctx h H → Prop
  | _, _, .top => True
  | h, _, .frame _ left right up =>
      R.NodeGood up.isTop (left.map Prod.snd ++ right.map Prod.fst) ∧
      (∀ e ∈ left, Tree.Good R false h e.1) ∧ (∀ e ∈ right, Tree.Good R false h e.2) ∧
      Ctx.Good R up

theorem belowGood_mkNode {id : ℕ} {left : List (Tree h × Bytes)} {t : Tree h}
    {right : List (Bytes × Tree h)} :
    Tree.BelowGood R (h + 1) (.node (mkNode id left t right)) ↔
      (∀ e ∈ left, Tree.Good R false h e.1) ∧ Tree.Good R false h t ∧
        ∀ e ∈ right, Tree.Good R false h e.2 := by
  simp only [mkNode, Tree.belowGood_node]
  induction left with
  | nil => simp [joinFirst, joinRest]
  | cons e left ih =>
      obtain ⟨c, s⟩ := e
      simp only [joinFirst, joinRest, List.mem_cons, forall_eq_or_imp] at ih ⊢
      rw [ih]
      tauto

theorem rootGood_mkNode {root : Bool} {id : ℕ} {left : List (Tree h × Bytes)} {t : Tree h}
    {right : List (Bytes × Tree h)} :
    Tree.RootGood R root (h + 1) (.node (mkNode id left t right)) ↔
      R.NodeGood root (left.map Prod.snd ++ right.map Prod.fst) := by
  simp only [Tree.rootGood_node, mkNode, keys_joinRest]

theorem Ctx.good_plug : ∀ {h H : ℕ} (c : Ctx h H) (t : Tree h),
    Tree.Good R true H (c.plug t) ↔ c.Good R ∧ Tree.Good R c.isTop h t := by
  intro h H c
  induction c with
  | top => intro t; simp [Ctx.plug, Ctx.Good, Ctx.isTop]
  | frame id left right up ih =>
      intro t
      simp only [Ctx.plug, ih, Tree.good_iff (h := _ + 1), belowGood_mkNode, rootGood_mkNode,
        Ctx.Good, Ctx.isTop]
      tauto

/-! ## What the store holds -/

/-- The content of a page without its LSN. -/
def stripLsn (page : Page) : Page := BufferPool.setLsn 0 page

@[simp] theorem stripLsn_setLsn (lsn : ℕ) (page : Page) :
    stripLsn (BufferPool.setLsn lsn page) = stripLsn page := by
  cases page <;> rfl

@[simp] theorem pageLsn_setLsn (lsn : ℕ) (page : Page) :
    BufferPool.pageLsn (BufferPool.setLsn lsn page) = lsn := by
  cases page <;> rfl

/-- The store holds `content`, with some LSN of at most `L`, at `pageId`. -/
def Stores (L : ℕ) (store : ℕ → Option Page) (pageId : ℕ) (content : Page) : Prop :=
  ∃ page, store pageId = some page ∧ stripLsn page = content ∧ BufferPool.pageLsn page ≤ L

/-- The store holds exactly the given pages. -/
structure Holds (L : ℕ) (store : ℕ → Option Page) (pages : List (ℕ × Page)) : Prop where
  nodup : (pages.map Prod.fst).Nodup
  stores : ∀ p ∈ pages, Stores L store p.1 p.2
  only : ∀ pageId page, store pageId = some page → pageId ∈ pages.map Prod.fst

/-- The ids of the freelist: its pages and the ids they list. -/
def freeIds (chain : List (ℕ × List ℕ)) : List ℕ := chain.flatMap fun e => e.1 :: e.2

/-- Every id from `1` to `next - 1` is exactly once in `owned` or on the freelist. -/
def Accounted (next : ℕ) (chain : List (ℕ × List ℕ)) (owned : List ℕ) : Prop :=
  ∀ x, owned.count x + (freeIds chain).count x = if 1 ≤ x ∧ x < next then 1 else 0

/-- Every freelist page lists at most as many ids as fit on it. -/
def ChainFits (pageSize : ℕ) (chain : List (ℕ × List ℕ)) : Prop :=
  ∀ e ∈ chain, e.2.length ≤ getMaxFreedIdsPerFreelistPage pageSize

/-- The items of an ordered tree whose leaves are linked. -/
structure Ordered (items : List Item) : Prop where
  sorted : (tokens items).Pairwise (· < ·)
  linked : Links (leavesOf items) 0

/-- The store holds an ordered, linked tree and accounts for every page id. -/
structure StoreInv (L : ℕ) (C : Content) (T : Tree H) : Prop where
  root : C.root = Tree.id H T
  holds : Holds L C.pages (Tree.pages H T)
  accounted : Accounted C.next C.chain (Tree.pageIds H T)
  chainFits : ChainFits C.pageSize C.chain
  ordered : Ordered (Tree.items H T)

/-! ## Page tables -/

section Holds

variable {L : ℕ} {store : ℕ → Option Page} {pages pages' : List (ℕ × Page)} {id : ℕ}
  {page old : Page}

theorem Stores.mono {L' : ℕ} (hL : L ≤ L') {content : Page} (hs : Stores L store id content) :
    Stores L' store id content := by
  obtain ⟨page, hpage, hstrip, hlsn⟩ := hs
  exact ⟨page, hpage, hstrip, hlsn.trans hL⟩

theorem Holds.mono {L' : ℕ} (hL : L ≤ L') (hh : Holds L store pages) : Holds L' store pages :=
  ⟨hh.nodup, fun p hp => (hh.stores p hp).mono hL, hh.only⟩

theorem StoreInv.mono {C : Content} {L' : ℕ} (hL : L ≤ L') {T : Tree H} (hinv : StoreInv L C T) :
    StoreInv L' C T :=
  ⟨hinv.root, hinv.holds.mono hL, hinv.accounted, hinv.chainFits, hinv.ordered⟩

theorem Holds.perm (hh : Holds L store pages) (hperm : pages.Perm pages') :
    Holds L store pages' where
  nodup := (hperm.map Prod.fst).nodup_iff.mp hh.nodup
  stores p hp := hh.stores p (hperm.mem_iff.mpr hp)
  only pageId page hpage := (hperm.map Prod.fst).mem_iff.mp (hh.only pageId page hpage)

/-- A page gets a new content. -/
theorem Holds.update (hh : Holds L store ((id, old) :: pages))
    (hlsn : BufferPool.pageLsn page ≤ L) :
    Holds L (Function.update store id (some page)) ((id, stripLsn page) :: pages) where
  nodup := by simpa using hh.nodup
  stores p hp := by
    have hnot : id ∉ pages.map Prod.fst := (List.nodup_cons.mp hh.nodup).1
    rcases List.mem_cons.mp hp with rfl | hmem
    · exact ⟨page, by simp, rfl, hlsn⟩
    · have hne : p.1 ≠ id := fun h => hnot (h ▸ List.mem_map_of_mem hmem)
      obtain ⟨q, hq⟩ := hh.stores p (List.mem_cons_of_mem _ hmem)
      exact ⟨q, by rw [Function.update_of_ne hne]; exact hq.1, hq.2⟩
  only pageId q hq := by
    by_cases hid : pageId = id
    · simp [hid]
    · rw [Function.update_of_ne hid] at hq
      simpa using hh.only pageId q hq

/-- A new page is added. -/
theorem Holds.insert (hh : Holds L store pages) (hnew : id ∉ pages.map Prod.fst)
    (hlsn : BufferPool.pageLsn page ≤ L) :
    Holds L (Function.update store id (some page)) ((id, stripLsn page) :: pages) where
  nodup := List.nodup_cons.mpr ⟨hnew, hh.nodup⟩
  stores p hp := by
    rcases List.mem_cons.mp hp with rfl | hmem
    · exact ⟨page, by simp, rfl, hlsn⟩
    · have hne : p.1 ≠ id := fun h => hnew (h ▸ List.mem_map_of_mem hmem)
      obtain ⟨q, hq⟩ := hh.stores p hmem
      exact ⟨q, by rw [Function.update_of_ne hne]; exact hq.1, hq.2⟩
  only pageId q hq := by
    by_cases hid : pageId = id
    · simp [hid]
    · rw [Function.update_of_ne hid] at hq
      exact List.mem_cons_of_mem _ (hh.only pageId q hq)

/-- A page is dropped. -/
theorem Holds.erase (hh : Holds L store ((id, old) :: pages)) :
    Holds L (Function.update store id none) pages where
  nodup := (List.nodup_cons.mp hh.nodup).2
  stores p hp := by
    have hnot : id ∉ pages.map Prod.fst := (List.nodup_cons.mp hh.nodup).1
    have hne : p.1 ≠ id := fun h => hnot (h ▸ List.mem_map_of_mem hp)
    obtain ⟨q, hq⟩ := hh.stores p (List.mem_cons_of_mem _ hp)
    exact ⟨q, by rw [Function.update_of_ne hne]; exact hq.1, hq.2⟩
  only pageId q hq := by
    have hid : pageId ≠ id := by
      rintro rfl
      simp at hq
    rw [Function.update_of_ne hid] at hq
    have := hh.only pageId q hq
    simp only [List.map_cons, List.mem_cons] at this
    exact this.resolve_left hid

/-- A page that is not held is not there. -/
theorem Holds.pages_eq_none (hh : Holds L store pages) (hid : id ∉ pages.map Prod.fst) :
    store id = none := by
  cases hpage : store id with
  | none => rfl
  | some page => exact absurd (hh.only id page hpage) hid

end Holds

end BPTreeDB.PageStore
