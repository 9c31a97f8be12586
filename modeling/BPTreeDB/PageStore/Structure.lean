import BPTreeDB.PageStore.Pages

/-!
# The structure of an ordered tree, page by page

The invariant states the order of a tree through one sorted list of tokens.  Here it is
spelled out: keys increase in every page, and a separator stands between the keys under
the children at its sides.
-/

namespace BPTreeDB.PageStore

open Lib Codec BPlusTree BufferPool

variable {h H : ℕ}

/-- The keys of the slots of a page. -/
def pageKeys : Page → List Bytes
  | .leaf p => p.slots.map (·.key)
  | .internal p => p.slots.map (·.key)

/-- The children of a node, left to right. -/
def Node.children (n : Node (Tree h)) : List (Tree h) := n.first :: n.rest.map Prod.snd

/-- The separators of a node, left to right. -/
def Node.separators (n : Node (Tree h)) : List Bytes := n.rest.map Prod.fst

/-- The keys stored under a tree. -/
def Tree.keys (h : ℕ) (t : Tree h) : List Bytes := (entriesOf (Tree.items h t)).map (·.key)

/-- At every node, the keys under child `i` are below separator `i`, and those under child
`i + 1` are not. -/
def Tree.Separated : (h : ℕ) → Tree h → Prop
  | 0, _ => True
  | h + 1, n => (∀ i separator, (Node.separators n)[i]? = some separator →
      (∀ child, (Node.children n)[i]? = some child → ∀ k ∈ Tree.keys h child, k < separator) ∧
      ∀ child, (Node.children n)[i + 1]? = some child → ∀ k ∈ Tree.keys h child, separator ≤ k) ∧
    ∀ child ∈ Node.children n, Tree.Separated h child

/-! ## Tokens of a node -/

theorem keyToken_mem {items : List Item} {k : Bytes} (hk : k ∈ (entriesOf items).map (·.key)) :
    keyToken k ∈ tokens items := by
  induction items with
  | nil => simp at hk
  | cons item items ih =>
      cases item with
      | leaf l =>
          simp only [entriesOf_leaf, List.map_append, List.mem_append] at hk
          rw [tokens, List.flatMap_cons, List.mem_append]
          refine hk.imp (fun hk => ?_) ih
          obtain ⟨s, hs, rfl⟩ := List.mem_map.mp hk
          exact List.mem_map.mpr ⟨s, hs, rfl⟩
      | sep s =>
          rw [tokens, List.flatMap_cons, List.mem_append]
          exact .inr (ih hk)

/-- A separator of a node splits its tokens. -/
theorem tokens_split {n : Node (Tree h)} {A B : List (Bytes × Tree h)} {s : Bytes} {c : Tree h}
    (hrest : n.rest = A ++ (s, c) :: B) :
    tokens (Tree.items (h + 1) (.node n)) =
      tokens (Tree.items (h + 1) (.node ⟨n.id, n.first, A⟩)) ++
        sepToken s :: (tokens (Tree.items h c) ++
          tokens (B.flatMap fun e => .sep e.1 :: Tree.items h e.2)) := by
  simp only [Tree.items_node, hrest, List.flatMap_append, List.flatMap_cons, tokens_append]
  simp [tokens]

/-- The tokens of a child are tokens of its node. -/
theorem child_tokens {n : Node (Tree h)} {c : Tree h} (hc : c ∈ n.children) :
    ∃ a b, tokens (Tree.items (h + 1) (.node n)) = a ++ tokens (Tree.items h c) ++ b := by
  rcases List.mem_cons.mp hc with rfl | hc
  · exact ⟨[], _, by rw [Tree.items_node, tokens_append, List.nil_append]⟩
  · obtain ⟨e, he, rfl⟩ := List.mem_map.mp hc
    obtain ⟨A, B, hsplit⟩ := List.append_of_mem he
    refine ⟨tokens (Tree.items (h + 1) (.node ⟨n.id, n.first, A⟩)) ++ [sepToken e.1],
      tokens (B.flatMap fun e => .sep e.1 :: Tree.items h e.2), ?_⟩
    rw [tokens_split hsplit]
    simp

/-- The separators of a node are tokens of it, in order. -/
theorem separators_sublist (n : Node (Tree h)) :
    (n.separators.map sepToken).Sublist (tokens (Tree.items (h + 1) (.node n))) := by
  rw [Tree.items_node, tokens_append, Node.separators]
  refine .trans ?_ (List.sublist_append_right _ _)
  generalize n.rest = rest
  induction rest with
  | nil => simp
  | cons e rest ih =>
      simp only [List.map_cons, List.flatMap_cons, tokens_append, tokens_cons, Item.tokens_sep,
        List.cons_append, List.nil_append]
      exact (ih.trans (List.sublist_append_right _ _)).cons_cons _

/-! ## Order, page by page -/

/-- Sorted tokens separate the children of every node. -/
theorem Tree.separated_of_sorted : ∀ {h : ℕ} {t : Tree h},
    (tokens (Tree.items h t)).Pairwise (· < ·) → Tree.Separated h t := by
  intro h
  induction h with
  | zero => exact fun _ => trivial
  | succ h ih =>
      intro t hsorted
      obtain ⟨n, rfl⟩ := t.exists_node
      refine ⟨fun i separator hi => ?_, fun child hchild => ?_⟩
      · have hi' : (n.rest.map Prod.fst)[i]? = some separator := hi
        rw [List.getElem?_map, Option.map_eq_some_iff] at hi'
        obtain ⟨⟨s, c⟩, hget, rfl⟩ := hi'
        obtain ⟨hlt, hget⟩ := List.getElem?_eq_some_iff.mp hget
        have hsplit : n.rest = n.rest.take i ++ (s, c) :: n.rest.drop (i + 1) := by
          rw [← hget, List.cons_getElem_drop_succ, List.take_append_drop]
        rw [tokens_split hsplit, List.pairwise_append, List.pairwise_cons] at hsorted
        obtain ⟨-, ⟨hafter, -⟩, hbefore⟩ := hsorted
        constructor
        · intro child hchild k hk
          have hmem : child ∈ Node.children ⟨n.id, n.first, n.rest.take i⟩ := by
            have htake : (Node.children n).take (i + 1) =
                Node.children ⟨n.id, n.first, n.rest.take i⟩ := by
              simp [Node.children, List.map_take]
            rw [← htake]
            exact List.mem_take_iff_getElem.mpr ⟨i, by
              have := (List.getElem?_eq_some_iff.mp hchild).1
              simp only [Node.children, List.length_cons, List.length_map] at this ⊢
              omega, (List.getElem?_eq_some_iff.mp hchild).2⟩
          obtain ⟨a, b, heq⟩ := child_tokens hmem
          exact keyToken_lt_sepToken.mp (hbefore _ (by
            rw [heq]
            exact List.mem_append_left _ (List.mem_append_right _ (keyToken_mem hk))) _
            (List.mem_cons_self ..))
        · intro child hchild k hk
          have hchild' : child = c := by
            have hchild : (n.first :: n.rest.map Prod.snd)[i + 1]? = some child := hchild
            rw [List.getElem?_cons_succ, List.getElem?_map, Option.map_eq_some_iff] at hchild
            obtain ⟨e, he, rfl⟩ := hchild
            rw [(List.getElem?_eq_some_iff.mp he).2.symm, hget]
          exact sepToken_lt_keyToken.mp (hafter _ (List.mem_append_left _
            (keyToken_mem (hchild' ▸ hk))))
      · obtain ⟨a, b, heq⟩ := child_tokens (n := n) hchild
        rw [heq] at hsorted
        exact ih (List.pairwise_append.mp (List.pairwise_append.mp hsorted).1).2.1

/-- Sorted tokens order the keys of every page. -/
theorem Tree.pageKeys_sorted : ∀ {h : ℕ} {t : Tree h},
    (tokens (Tree.items h t)).Pairwise (· < ·) →
      ∀ p ∈ Tree.pages h t, (pageKeys p.2).Pairwise (· < ·) := by
  intro h
  induction h with
  | zero =>
      intro t hsorted p hp
      obtain ⟨l, rfl⟩ := t.exists_leaf
      obtain rfl : p = (l.id, Tree.page 0 (.leaf l)) := by simpa [Tree.pages] using hp
      simp only [Tree.items_leaf, tokens_cons, Item.tokens_leaf, tokens_nil, List.append_nil,
        slotTokens, List.pairwise_map] at hsorted
      rw [Tree.page_leaf, pageKeys, List.pairwise_map]
      exact hsorted.imp keyToken_lt_keyToken.mp
  | succ h ih =>
      intro t hsorted p hp
      obtain ⟨n, rfl⟩ := t.exists_node
      have hchild : ∀ c ∈ n.children, (tokens (Tree.items h c)).Pairwise (· < ·) := by
        intro c hc
        obtain ⟨a, b, heq⟩ := child_tokens hc
        rw [heq] at hsorted
        exact (List.pairwise_append.mp (List.pairwise_append.mp hsorted).1).2.1
      rw [Tree.pages, Tree.below_node, List.mem_cons, List.mem_append] at hp
      rcases hp with rfl | hp | hp
      · have hseps := hsorted.sublist (separators_sublist n)
        rw [Tree.page_node, pageKeys, List.map_map]
        rw [List.pairwise_map] at hseps
        exact hseps.imp sepToken_lt_sepToken.mp
      · exact ih (hchild _ (List.mem_cons_self ..)) p hp
      · obtain ⟨e, he, hp⟩ := List.mem_flatMap.mp hp
        exact ih (hchild _ (List.mem_cons_of_mem _ (List.mem_map_of_mem he))) p hp

end BPTreeDB.PageStore
