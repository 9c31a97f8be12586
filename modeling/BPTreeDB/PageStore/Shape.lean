import BPTreeDB.PageStore.Program

/-!
# Trees, contexts and what is read off them

A `Tree h` is a B+ tree of height `h`: a leaf for `h = 0`, a node over trees of
height `h` for `h + 1`.  All leaves are at the same depth by construction.

Two lists say everything about a tree:

* `items`: its leaves and separator keys from left to right.  Splits, merges and
  rotations of internal pages leave it as it is.
* `pages`: its pages, each with its id and content.

The place of a subtree is a `Ctx`: the frames from the subtree up to the root,
each with the children to the left and to the right of the hole.
-/

namespace BPTreeDB.PageStore

open Lib Codec BPlusTree

/-! ## Trees -/

/-- A leaf with its page id and its link to the right. -/
structure Leaf where
  id : ℕ
  right : ℕ
  slots : List LeafSlot

/-- An internal node: its leftmost child and the other children, each behind its
separator. -/
structure Node (α : Type) where
  id : ℕ
  first : α
  rest : List (Bytes × α)

/-- A tree of height `h`. -/
def Tree : ℕ → Type
  | 0 => Leaf
  | h + 1 => Node (Tree h)

/-- The tree that is a single leaf. -/
def Tree.leaf (l : Leaf) : Tree 0 := l

/-- The tree with a node at its root. -/
def Tree.node {h : ℕ} (n : Node (Tree h)) : Tree (h + 1) := n

/-- A leaf or a separator key. -/
inductive Item where
  | leaf (l : Leaf)
  | sep (key : Bytes)

/-- The page id of the root of a tree. -/
def Tree.id : (h : ℕ) → Tree h → ℕ
  | 0, l => Leaf.id l
  | _ + 1, n => Node.id n

/-- The content of the root page of a tree.  The LSN field is left at `0`. -/
def Tree.page : (h : ℕ) → Tree h → Page
  | 0, l => .leaf ⟨0, Leaf.right l, Leaf.slots l⟩
  | h + 1, n => .internal ⟨0, Tree.id h (Node.first n),
      (Node.rest n).map fun e => ⟨e.1, Tree.id h e.2⟩⟩

/-- Leaves and separators, left to right. -/
def Tree.items : (h : ℕ) → Tree h → List Item
  | 0, l => [.leaf l]
  | h + 1, n => Tree.items h (Node.first n) ++
      (Node.rest n).flatMap fun e => .sep e.1 :: Tree.items h e.2

/-- The pages of the subtrees below the root. -/
def Tree.below : (h : ℕ) → Tree h → List (ℕ × Page)
  | 0, _ => []
  | h + 1, n =>
      ((Tree.id h (Node.first n), Tree.page h (Node.first n)) :: Tree.below h (Node.first n)) ++
        (Node.rest n).flatMap fun e => (Tree.id h e.2, Tree.page h e.2) :: Tree.below h e.2

/-- All pages of a tree, the root first. -/
def Tree.pages (h : ℕ) (t : Tree h) : List (ℕ × Page) :=
  (Tree.id h t, Tree.page h t) :: Tree.below h t

/-- The page ids of a tree. -/
def Tree.pageIds (h : ℕ) (t : Tree h) : List ℕ := (Tree.pages h t).map Prod.fst

variable {h H : ℕ}

@[simp] theorem Tree.id_node (n : Node (Tree h)) : Tree.id (h + 1) (.node n) = n.id := rfl

@[simp] theorem Tree.id_leaf (l : Leaf) : Tree.id 0 (.leaf l) = l.id := rfl

@[simp] theorem Tree.page_node (n : Node (Tree h)) :
    Tree.page (h + 1) (.node n) =
      .internal ⟨0, Tree.id h n.first, n.rest.map fun e => ⟨e.1, Tree.id h e.2⟩⟩ := rfl

@[simp] theorem Tree.page_leaf (l : Leaf) : Tree.page 0 (.leaf l) = .leaf ⟨0, l.right, l.slots⟩ :=
  rfl

@[simp] theorem Tree.items_node (n : Node (Tree h)) :
    Tree.items (h + 1) (.node n) = Tree.items h n.first ++
      n.rest.flatMap fun e => .sep e.1 :: Tree.items h e.2 := rfl

@[simp] theorem Tree.items_leaf (l : Leaf) : Tree.items 0 (.leaf l) = [.leaf l] := rfl

@[simp] theorem Tree.below_leaf (l : Leaf) : Tree.below 0 (.leaf l) = [] := rfl

theorem Tree.below_node (n : Node (Tree h)) :
    Tree.below (h + 1) (.node n) = Tree.pages h n.first ++
      n.rest.flatMap fun e => Tree.pages h e.2 := rfl

/-- Every tree of height `0` is a leaf. -/
theorem Tree.exists_leaf (t : Tree 0) : ∃ l : Leaf, Tree.leaf l = t := ⟨t, rfl⟩

/-- Every tree of positive height is a node. -/
theorem Tree.exists_node (t : Tree (h + 1)) : ∃ n : Node (Tree h), Tree.node n = t := ⟨t, rfl⟩

theorem Tree.id_mem_pageIds (t : Tree h) : Tree.id h t ∈ Tree.pageIds h t := by
  simp [Tree.pageIds, Tree.pages]

/-- A tree of height `h` has more than `h` pages. -/
theorem Tree.height_lt_length_pageIds :
    ∀ (h : ℕ) (t : Tree h), h < (Tree.pageIds h t).length := by
  intro h
  induction h with
  | zero => intro t; simp [Tree.pageIds, Tree.pages]
  | succ h ih =>
      intro t
      obtain ⟨n, rfl⟩ := t.exists_node
      have := ih n.first
      simp only [Tree.pageIds, List.length_map] at this
      simp only [Tree.pageIds, Tree.pages, Tree.below_node, List.length_map, List.length_cons,
        List.length_append] at this ⊢
      omega

/-! ## Nodes with a hole -/

/-- The first child of a node whose children left of `t` are `left`. -/
def joinFirst (left : List (Tree h × Bytes)) (t : Tree h) : Tree h :=
  match left with
  | [] => t
  | (c, _) :: _ => c

/-- The remaining children: `left` carries each child with the separator to its
right, `right` each child with the separator to its left. -/
def joinRest : List (Tree h × Bytes) → Tree h → List (Bytes × Tree h) → List (Bytes × Tree h)
  | [], _, right => right
  | (_, s) :: left, t, right => (s, joinFirst left t) :: joinRest left t right

/-- The node with children `left`, `t` and `right`. -/
def mkNode (id : ℕ) (left : List (Tree h × Bytes)) (t : Tree h) (right : List (Bytes × Tree h)) :
    Node (Tree h) :=
  ⟨id, joinFirst left t, joinRest left t right⟩

@[simp] theorem mkNode_id (id : ℕ) (left : List (Tree h × Bytes)) (t : Tree h)
    (right : List (Bytes × Tree h)) : (mkNode id left t right).id = id := rfl

/-- Items of the children left of a hole. -/
def leftItems (left : List (Tree h × Bytes)) : List Item :=
  left.flatMap fun e => Tree.items h e.1 ++ [.sep e.2]

/-- Items of the children right of a hole. -/
def rightItems (right : List (Bytes × Tree h)) : List Item :=
  right.flatMap fun e => .sep e.1 :: Tree.items h e.2

/-- Pages of the children left of a hole. -/
def leftPages (left : List (Tree h × Bytes)) : List (ℕ × Page) :=
  left.flatMap fun e => Tree.pages h e.1

/-- Pages of the children right of a hole. -/
def rightPages (right : List (Bytes × Tree h)) : List (ℕ × Page) :=
  right.flatMap fun e => Tree.pages h e.2

theorem joinFirst_append (left : List (Tree h × Bytes)) (c t : Tree h) (s : Bytes) :
    joinFirst (left ++ [(c, s)]) t = joinFirst left c := by
  cases left <;> rfl

theorem joinRest_append (left : List (Tree h × Bytes)) (c t : Tree h) (s : Bytes)
    (right : List (Bytes × Tree h)) :
    joinRest (left ++ [(c, s)]) t right = joinRest left c [] ++ (s, t) :: right := by
  induction left with
  | nil => rfl
  | cons e left ih =>
      obtain ⟨d, u⟩ := e
      simp only [List.cons_append, joinRest, ih, joinFirst_append]

theorem joinRest_eq_append (left : List (Tree h × Bytes)) (t : Tree h)
    (right : List (Bytes × Tree h)) :
    joinRest left t right = joinRest left t [] ++ right := by
  induction left with
  | nil => rfl
  | cons e left ih =>
      obtain ⟨d, u⟩ := e
      simp only [joinRest, List.cons_append, ih]

@[simp] theorem length_joinRest (left : List (Tree h × Bytes)) (t : Tree h)
    (right : List (Bytes × Tree h)) :
    (joinRest left t right).length = left.length + right.length := by
  induction left with
  | nil => simp [joinRest]
  | cons e left ih =>
      simp only [joinRest, List.length_cons, ih]
      omega

/-- Any child of a node can be taken as the hole. -/
theorem exists_hole (first : Tree h) (rest : List (Bytes × Tree h)) (n : ℕ)
    (hn : n ≤ rest.length) :
    ∃ left t, left.length = n ∧ first = joinFirst left t ∧
      rest = joinRest left t (rest.drop n) ∧ left.map Prod.snd = (rest.take n).map Prod.fst := by
  induction n generalizing first rest with
  | zero => exact ⟨[], first, rfl, rfl, rfl, rfl⟩
  | succ n ih =>
      cases rest with
      | nil => simp at hn
      | cons e rest =>
          obtain ⟨s, c⟩ := e
          obtain ⟨left, t, hlen, hfirst, hrest, hkeys⟩ := ih c rest (by simpa using hn)
          refine ⟨(first, s) :: left, t, by simp [hlen], rfl, ?_, by simp [hkeys]⟩
          simp only [joinRest, List.drop_succ_cons, ← hfirst, ← hrest]

theorem items_mkNode (id : ℕ) (left : List (Tree h × Bytes)) (t : Tree h)
    (right : List (Bytes × Tree h)) :
    Tree.items (h + 1) (.node (mkNode id left t right)) =
      leftItems left ++ Tree.items h t ++ rightItems right := by
  simp only [mkNode, Tree.items_node]
  induction left with
  | nil => simp [joinFirst, joinRest, leftItems, rightItems]
  | cons e left ih =>
      obtain ⟨c, s⟩ := e
      simp only [joinFirst, joinRest, leftItems, List.flatMap_cons, List.append_assoc,
        List.cons_append, List.nil_append] at ih ⊢
      rw [ih]

theorem below_mkNode (id : ℕ) (left : List (Tree h × Bytes)) (t : Tree h)
    (right : List (Bytes × Tree h)) :
    Tree.below (h + 1) (.node (mkNode id left t right)) =
      leftPages left ++ Tree.pages h t ++ rightPages right := by
  simp only [mkNode, Tree.below_node]
  induction left with
  | nil => simp [joinFirst, joinRest, leftPages, rightPages]
  | cons e left ih =>
      obtain ⟨c, s⟩ := e
      simp only [joinFirst, joinRest, leftPages, List.flatMap_cons, List.append_assoc] at ih ⊢
      rw [ih]

/-- The separator keys of a node with a hole. -/
theorem keys_joinRest (left : List (Tree h × Bytes)) (t : Tree h) (right : List (Bytes × Tree h)) :
    (joinRest left t right).map Prod.fst = left.map Prod.snd ++ right.map Prod.fst := by
  induction left with
  | nil => rfl
  | cons e left ih => simp [joinRest, ih]

/-! ## Contexts -/

/-- The place of a subtree of height `h` in a tree of height `H`. -/
inductive Ctx : ℕ → ℕ → Type
  | top {h : ℕ} : Ctx h h
  | frame {h H : ℕ} (id : ℕ) (left : List (Tree h × Bytes)) (right : List (Bytes × Tree h))
      (up : Ctx (h + 1) H) : Ctx h H

/-- The whole tree with `t` at the place. -/
def Ctx.plug : {h H : ℕ} → Ctx h H → Tree h → Tree H
  | _, _, .top, t => t
  | _, _, .frame id left right up, t => up.plug (.node (mkNode id left t right))

/-- The path stack that leads to the place, the parent of the hole first. -/
def Ctx.path : {h H : ℕ} → Ctx h H → List PathItem
  | _, _, .top => []
  | _, _, .frame id left _ up => ⟨id, (left.length : ℤ) - 1⟩ :: up.path

/-- Items left of the place. -/
def Ctx.before : {h H : ℕ} → Ctx h H → List Item
  | _, _, .top => []
  | _, _, .frame _ left _ up => up.before ++ leftItems left

/-- Items right of the place. -/
def Ctx.after : {h H : ℕ} → Ctx h H → List Item
  | _, _, .top => []
  | _, _, .frame _ _ right up => rightItems right ++ up.after

/-- The pages outside the place; those of the frames name the page `holeId` as a child. -/
def Ctx.outside : {h H : ℕ} → Ctx h H → (hole : Tree h) → List (ℕ × Page)
  | _, _, .top, _ => []
  | _, _, .frame id left right up, hole =>
      (id, Tree.page _ (.node (mkNode id left hole right))) ::
        (leftPages left ++ rightPages right ++ up.outside (.node (mkNode id left hole right)))

theorem Ctx.items_plug : ∀ {h H : ℕ} (c : Ctx h H) (t : Tree h),
    Tree.items H (c.plug t) = c.before ++ Tree.items h t ++ c.after := by
  intro h H c
  induction c with
  | top => intro t; simp [Ctx.plug, Ctx.before, Ctx.after]
  | frame id left right up ih =>
      intro t
      simp only [Ctx.plug, ih, items_mkNode, Ctx.before, Ctx.after, List.append_assoc]

/-- The pages of the whole tree are those of the subtree and those outside. -/
theorem Ctx.pages_plug : ∀ {h H : ℕ} (c : Ctx h H) (t : Tree h),
    (Tree.pages H (c.plug t)).Perm (Tree.pages h t ++ c.outside t) := by
  intro h H c
  induction c with
  | top => intro t; simp [Ctx.plug, Ctx.outside]
  | frame id left right up ih =>
      intro t
      refine (ih _).trans ?_
      simp only [Ctx.outside, Tree.pages, Tree.id_node, below_mkNode]
      simp only [mkNode, List.perm_iff_count]
      intro a
      simp only [List.cons_append, List.count_cons, List.count_append]
      omega

end BPTreeDB.PageStore
