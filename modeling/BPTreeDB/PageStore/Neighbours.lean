import BPTreeDB.PageStore.Execution

/-!
# Neighbours under a parent

The pages and items of a whole tree, seen from a parent and one or two of its
children, and what the parent's page says about them: where the separator between
two children is, and which siblings a child has.
-/

namespace BPTreeDB.PageStore

open Lib Codec BPlusTree

variable {h H : ℕ}

/-! ## The page of a parent -/

/-- The slots of a parent up to the child `t`. -/
def nodeSlots (left : List (Tree h × Bytes)) (t : Tree h) : List InternalSlot :=
  (joinRest left t []).map fun e => ⟨e.1, Tree.id h e.2⟩

/-- The slots of the children right of a place. -/
def rightSlots (right : List (Bytes × Tree h)) : List InternalSlot :=
  right.map fun e => ⟨e.1, Tree.id h e.2⟩

/-- The first child of a parent. -/
def nodeFirst (left : List (Tree h × Bytes)) (t : Tree h) : ℕ := Tree.id h (joinFirst left t)

theorem page_mkNode (id : ℕ) (left : List (Tree h × Bytes)) (t : Tree h)
    (right : List (Bytes × Tree h)) :
    Tree.page (h + 1) (.node (mkNode id left t right)) =
      .internal ⟨0, nodeFirst left t, nodeSlots left t ++ rightSlots right⟩ := by
  simp only [mkNode, Tree.page_node, nodeFirst, nodeSlots, rightSlots]
  rw [joinRest_eq_append, List.map_append]

theorem mkNode_append (id : ℕ) (left : List (Tree h × Bytes)) (a b : Tree h) (s : Bytes)
    (right : List (Bytes × Tree h)) :
    mkNode id (left ++ [(a, s)]) b right = mkNode id left a ((s, b) :: right) := by
  simp only [mkNode, joinFirst_append, joinRest_append]
  rw [← joinRest_eq_append]

theorem nodeSlots_append (left : List (Tree h × Bytes)) (a b : Tree h) (s : Bytes) :
    nodeSlots (left ++ [(a, s)]) b = nodeSlots left a ++ [⟨s, Tree.id h b⟩] := by
  simp [nodeSlots, joinRest_append]

@[simp] theorem nodeSlots_nil (t : Tree h) : nodeSlots [] t = [] := rfl

@[simp] theorem nodeFirst_nil (t : Tree h) : nodeFirst [] t = Tree.id h t := rfl

theorem nodeFirst_append (left : List (Tree h × Bytes)) (a b : Tree h) (s : Bytes) :
    nodeFirst (left ++ [(a, s)]) b = nodeFirst left a := by
  rw [nodeFirst, joinFirst_append, nodeFirst]

@[simp] theorem length_nodeSlots (left : List (Tree h × Bytes)) (t : Tree h) :
    (nodeSlots left t).length = left.length := by
  simp [nodeSlots]

theorem keys_nodeSlots (left : List (Tree h × Bytes)) (t : Tree h) :
    (nodeSlots left t).map (·.key) = left.map Prod.snd := by
  simp only [nodeSlots, List.map_map]
  have := keys_joinRest left t []
  simp only [List.map_nil, List.append_nil] at this
  rw [← this]
  rfl

theorem keys_rightSlots (right : List (Bytes × Tree h)) :
    (rightSlots right).map (·.key) = right.map Prod.fst := by
  simp [rightSlots]

/-- The parent only knows the id of a child. -/
theorem nodeSlots_congr {t t' : Tree h} (hid : Tree.id h t = Tree.id h t')
    (left : List (Tree h × Bytes)) :
    nodeSlots left t = nodeSlots left t' ∧ nodeFirst left t = nodeFirst left t' := by
  rcases List.eq_nil_or_concat left with rfl | ⟨left, ⟨a, s⟩, rfl⟩
  · simp [hid]
  · simp only [List.concat_eq_append, nodeSlots_append, nodeFirst_append, hid]
    exact ⟨trivial, trivial⟩

theorem Ctx.outside_congr : ∀ {h H : ℕ} (c : Ctx h H) {t t' : Tree h},
    Tree.id h t = Tree.id h t' → c.outside t = c.outside t' := by
  intro h H c
  induction c with
  | top => intros; rfl
  | frame id left right up ih =>
      intro t t' hid
      simp only [Ctx.outside, page_mkNode, nodeSlots_congr hid]
      rw [ih]
      rfl

theorem Ctx.id_plug : ∀ {h H : ℕ} (c : Ctx h H) {t t' : Tree h},
    Tree.id h t = Tree.id h t' → Tree.id H (c.plug t) = Tree.id H (c.plug t') := by
  intro h H c
  induction c with
  | top => exact fun hid => hid
  | frame id left right up ih => exact fun _ => ih rfl

theorem Ctx.id_plug_of_isTop {c : Ctx h H} (htop : c.isTop = true) (t : Tree h) :
    Tree.id H (c.plug t) = Tree.id h t := by
  cases c with
  | top => rfl
  | frame => simp [Ctx.isTop] at htop

/-- The root is a page outside every place but the top. -/
theorem Ctx.root_mem_outside : ∀ {h H : ℕ} (c : Ctx h H) (t : Tree h), c.isTop = false →
    Tree.id H (c.plug t) ∈ (c.outside t).map Prod.fst := by
  intro h H c
  induction c with
  | top => intro t htop; simp [Ctx.isTop] at htop
  | frame id left right up ih =>
      intro t _
      simp only [Ctx.plug, Ctx.outside, List.map_cons, List.map_append, List.mem_cons,
        List.mem_append]
      cases htop : up.isTop with
      | true => exact .inl (Ctx.id_plug_of_isTop htop _)
      | false => exact .inr (.inr (ih _ htop))

theorem Ctx.isTop_of_root {c : Ctx h H} {t : Tree h} (hnodup : (Tree.pageIds H (c.plug t)).Nodup)
    (hroot : Tree.id h t = Tree.id H (c.plug t)) : c.isTop = true := by
  rw [← Bool.not_eq_false]
  intro htop
  have hmem := c.root_mem_outside t htop
  have := ((c.pages_plug t).map Prod.fst).nodup_iff.mp hnodup
  rw [List.map_append] at this
  refine (List.nodup_append.mp this).2.2 (Tree.id h t) (Tree.id_mem_pageIds t) _ hmem hroot

/-! ## Pages and items around one or two children -/

section Around

variable (up : Ctx (h + 1) H) (id : ℕ) (left : List (Tree h × Bytes))
  (right : List (Bytes × Tree h))

/-- The pages apart from a parent and from the children in question, whose subtrees
have the pages `below`.  `parent` only says which page the parent is. -/
def aside (below : List (ℕ × Page)) (parent : Tree (h + 1)) : List (ℕ × Page) :=
  leftPages left ++ below ++ rightPages right ++ up.outside parent

theorem aside_congr (below : List (ℕ × Page)) {parent parent' : Tree (h + 1)}
    (hid : Tree.id (h + 1) parent = Tree.id (h + 1) parent') :
    aside up left right below parent = aside up left right below parent' := by
  rw [aside, aside, up.outside_congr hid]

/-- The pages of a tree around one child. -/
theorem pages_around_one (t : Tree h) :
    (Tree.pages H (up.plug (.node (mkNode id left t right)))).Perm
      ((Tree.id h t, Tree.page h t) ::
        (id, Tree.page (h + 1) (.node (mkNode id left t right))) ::
        aside up left right (Tree.below h t) (.node (mkNode id left t right))) := by
  refine (up.pages_plug _).trans ?_
  simp only [Tree.pages, Tree.id_node, below_mkNode, aside]
  simp only [mkNode, List.perm_iff_count]
  intro x
  simp only [List.cons_append, List.count_cons, List.count_append]
  omega

/-- The pages of a tree around two neighbours. -/
theorem pages_around_two (a b : Tree h) (s : Bytes) :
    (Tree.pages H (up.plug (.node (mkNode id left a ((s, b) :: right))))).Perm
      ((Tree.id h a, Tree.page h a) :: (Tree.id h b, Tree.page h b) ::
        (id, Tree.page (h + 1) (.node (mkNode id left a ((s, b) :: right)))) ::
        aside up left right (Tree.below h a ++ Tree.below h b)
          (.node (mkNode id left a ((s, b) :: right)))) := by
  refine (pages_around_one up id left ((s, b) :: right) a).trans ?_
  simp only [aside, rightPages, List.flatMap_cons, Tree.pages, List.perm_iff_count]
  intro x
  simp only [List.cons_append, List.count_cons, List.count_append]
  omega

theorem items_around_one (t : Tree h) :
    Tree.items H (up.plug (.node (mkNode id left t right))) =
      (up.before ++ leftItems left) ++ Tree.items h t ++ (rightItems right ++ up.after) := by
  rw [up.items_plug, items_mkNode]
  simp only [List.append_assoc]

theorem items_around_two (a b : Tree h) (s : Bytes) :
    Tree.items H (up.plug (.node (mkNode id left a ((s, b) :: right)))) =
      (up.before ++ leftItems left) ++ (Tree.items h a ++ .sep s :: Tree.items h b) ++
        (rightItems right ++ up.after) := by
  rw [items_around_one]
  simp [rightItems]

end Around

/-! ## Separators in the parent -/

theorem bisectRight_append {l r : List Bytes} {x : Bytes} (hl : ∀ k ∈ l, k ≤ x)
    (hr : ∀ k ∈ r, x < k) : bisectRight (l ++ r) x = l.length := by
  rw [bisectRight, List.takeWhile_append_of_pos (by simpa using hl), List.length_append]
  cases r with
  | nil => simp
  | cons k r =>
      rw [List.takeWhile_cons_of_neg (by simpa using hr k (List.mem_cons_self ..))]
      simp

/-- The separators left of a place are below it, those right of it above it. -/
theorem Ordered.separators {pre post : List Item} {left : List (Tree h × Bytes)}
    {right : List (Bytes × Tree h)} {mid mid' : List Item} {s : Bytes}
    (ho : Ordered (pre ++ leftItems left ++ (mid ++ .sep s :: mid') ++
      (rightItems right ++ post))) :
    (∀ k ∈ left.map Prod.snd, k < s) ∧ ∀ k ∈ right.map Prod.fst, s < k := by
  have hsorted := ho.sorted
  simp only [tokens_append, tokens_cons, Item.tokens_sep, List.append_assoc,
    List.cons_append, List.nil_append] at hsorted
  constructor
  · intro k hk
    obtain ⟨e, he, rfl⟩ := List.mem_map.mp hk
    have hmem : sepToken e.2 ∈ tokens (leftItems left) := by
      simp only [tokens, leftItems, List.mem_flatMap]
      exact ⟨.sep e.2, ⟨e, he, by simp⟩, by simp⟩
    have h1 := (List.pairwise_append.mp (List.pairwise_append.mp hsorted).2.1).2.2 _ hmem
      (sepToken s) (by simp)
    exact sepToken_lt_sepToken.mp h1
  · intro k hk
    obtain ⟨e, he, rfl⟩ := List.mem_map.mp hk
    have hmem : sepToken e.1 ∈ tokens (rightItems right) := by
      simp only [tokens, rightItems, List.mem_flatMap]
      exact ⟨.sep e.1, ⟨e, he, by simp⟩, by simp⟩
    have h1 := (List.pairwise_append.mp (List.pairwise_append.mp
      (List.pairwise_append.mp hsorted).2.1).2.1).2.1
    have h2 := List.rel_of_pairwise_cons h1 (show sepToken e.1 ∈ _ by simp [hmem])
    exact sepToken_lt_sepToken.mp h2

theorem insertIdx_length_append {α : Type} (l r : List α) (x : α) :
    (l ++ r).insertIdx l.length x = l ++ x :: r := by
  induction l with
  | nil => simp
  | cons y l ih => simp [ih]

theorem modify_length_append {α : Type} (l r : List α) (x : α) (f : α → α) :
    (l ++ x :: r).modify l.length f = l ++ f x :: r := by
  induction l with
  | nil => simp
  | cons y l ih => simp [ih]

/-- `insort` puts a new separator behind the child it came from. -/
theorem insortInternal_place {left : List (Tree h × Bytes)} {right : List (Bytes × Tree h)}
    {t : Tree h} {s : Bytes} {n : ℕ} (hl : ∀ k ∈ left.map Prod.snd, k < s)
    (hr : ∀ k ∈ right.map Prod.fst, s < k) :
    insortInternal (nodeSlots left t ++ rightSlots right) ⟨s, n⟩ =
      nodeSlots left t ++ ⟨s, n⟩ :: rightSlots right := by
  have hidx : bisectRight ((nodeSlots left t ++ rightSlots right).map (·.key)) s = left.length := by
    rw [List.map_append, keys_nodeSlots, keys_rightSlots,
      bisectRight_append (fun k hk => (hl k hk).le) hr, List.length_map]
  rw [insortInternal, hidx, ← length_nodeSlots left t, insertIdx_length_append]

/-- The separator between two neighbours. -/
theorem getElem?_separator (left : List (Tree h × Bytes)) (a b : Tree h) (s : Bytes)
    (right : List (Bytes × Tree h)) :
    (nodeSlots left a ++ rightSlots ((s, b) :: right))[left.length]? =
      some ⟨s, Tree.id h b⟩ := by
  rw [List.getElem?_append_right (by simp)]
  simp [rightSlots]

theorem setSeparator_place (lsn first : ℕ) (left : List (Tree h × Bytes)) (a b : Tree h)
    (s s' : Bytes) (right : List (Bytes × Tree h)) :
    setSeparator ⟨lsn, first, nodeSlots left a ++ rightSlots ((s, b) :: right)⟩ left.length s' =
      ⟨lsn, first, nodeSlots left a ++ rightSlots ((s', b) :: right)⟩ := by
  simp only [setSeparator, InternalPage.mk.injEq, true_and, rightSlots, List.map_cons]
  rw [← length_nodeSlots left a, modify_length_append]

theorem eraseIdx_place (left : List (Tree h × Bytes)) (a b : Tree h) (s : Bytes)
    (right : List (Bytes × Tree h)) :
    (nodeSlots left a ++ rightSlots ((s, b) :: right)).eraseIdx left.length =
      nodeSlots left a ++ rightSlots right := by
  rw [← length_nodeSlots left a, List.eraseIdx_append_of_length_le le_rfl]
  simp [rightSlots]

/-! ## Siblings -/

theorem leftSiblingId_nil (t : Tree h) (right : List (Bytes × Tree h)) (lsn : ℕ) :
    leftSiblingId ⟨lsn, nodeFirst [] t, nodeSlots [] t ++ rightSlots right⟩ (-1) = none := by
  simp [leftSiblingId]

theorem leftSiblingId_append (left : List (Tree h × Bytes)) (a b : Tree h) (s : Bytes)
    (right : List (Bytes × Tree h)) (lsn : ℕ) :
    leftSiblingId ⟨lsn, nodeFirst left a, nodeSlots left a ++ rightSlots ((s, b) :: right)⟩
      left.length = some (Tree.id h a) := by
  rcases List.eq_nil_or_concat left with rfl | ⟨left, ⟨c, k⟩, rfl⟩
  · simp [leftSiblingId]
  · rw [List.concat_eq_append, nodeSlots_append]
    simp only [leftSiblingId, List.length_append, List.length_nil, Nat.zero_add,
      length_nodeSlots, rightSlots, List.map_cons, List.length_cons, List.length_map]
    rw [if_neg (by omega), if_pos (by omega)]
    have hidx : ((((left.length + 1 : ℕ) : ℤ) - 1).toNat) = left.length := by omega
    rw [hidx, List.append_assoc, List.getElem?_append_right (by simp)]
    simp

theorem rightSiblingId_nil (left : List (Tree h × Bytes)) (t : Tree h) (lsn : ℕ) :
    rightSiblingId ⟨lsn, nodeFirst left t, nodeSlots left t ++ rightSlots (h := h) []⟩
      ((left.length : ℤ) - 1) = none := by
  simp only [rightSiblingId, rightSlots, List.map_nil, List.append_nil, length_nodeSlots]
  rw [if_neg (by omega), if_neg (by omega)]

theorem rightSiblingId_cons (left : List (Tree h × Bytes)) (a b : Tree h) (s : Bytes)
    (right : List (Bytes × Tree h)) (lsn : ℕ) :
    rightSiblingId ⟨lsn, nodeFirst left a, nodeSlots left a ++ rightSlots ((s, b) :: right)⟩
      ((left.length : ℤ) - 1) = some (Tree.id h b) := by
  have hget := getElem?_separator left a b s right
  simp only [rightSiblingId, List.length_append, length_nodeSlots, rightSlots, List.map_cons,
    List.length_cons, List.length_map] at hget ⊢
  rcases Nat.eq_zero_or_pos left.length with hzero | hpos
  · rw [if_pos (by omega)]
    rw [hzero] at hget
    rw [hget]
    rfl
  · rw [if_neg (by omega), if_pos (by omega)]
    have hidx : (((left.length : ℤ) - 1 + 1).toNat) = left.length := by omega
    rw [hidx, hget]
    rfl

end BPTreeDB.PageStore
