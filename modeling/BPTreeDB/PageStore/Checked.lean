import BPTreeDB.Model.Debug
import BPTreeDB.PageStore.PageContents
import BPTreeDB.PageStore.Records

/-!
# Trees that the invariant checker accepts

The checker looks at the tree locally: each separator against the largest and the smallest
leaf key of the two subtrees beside it, each leaf against its right neighbour.  By induction on
the height the separators put all keys and separators of the tree in one order, up to the
order inside the leaves, where equal keys pass.
-/

namespace BPTreeDB.PageStore

open Lib Codec BPlusTree Debug

variable {S : ℕ → Option Page} {next h H : ℕ} {node : BPlusTreeNode}

/-! ## Nodes and trees -/

/-- The node of the checker stands for the tree `t` of the page store, and its separators
were checked. -/
def Mirrors (S : ℕ → Option Page) (next : ℕ) : (h : ℕ) → Tree h → BPlusTreeNode → Prop
  | 0, t, node => ∃ p, node = .mk (Leaf.id t) (.leaf p) [] ∧ S (Leaf.id t) = some (.leaf p) ∧
      Leaf.id t < next ∧ p.rightSiblingPageId = Leaf.right t ∧ p.slots = Leaf.slots t
  | h + 1, t, node => ∃ p c cs levelIdx, node = .mk (Node.id t) (.internal p) (c :: cs) ∧
      S (Node.id t) = some (.internal p) ∧ Node.id t < next ∧
      p.leftmostChildPageId = Tree.id h (Node.first t) ∧
      p.slots = (Node.rest t).map (fun e => ⟨e.1, Tree.id h e.2⟩) ∧
      checkSeparators node levelIdx p.slots (c :: cs) = .ok () ∧
      Mirrors S next h (Node.first t) c ∧
      List.Forall₂ (Mirrors S next h) ((Node.rest t).map Prod.snd) cs

/-- The items of a first child and of the other children behind their separators. -/
def childItems (first : Tree h) (rest : List (Bytes × Tree h)) : List Item :=
  Tree.items h first ++ rest.flatMap fun e => .sep e.1 :: Tree.items h e.2

theorem childItems_cons (first : Tree h) (e : Bytes × Tree h) (rest : List (Bytes × Tree h)) :
    childItems first (e :: rest) = Tree.items h first ++ .sep e.1 :: childItems e.2 rest := by
  simp [childItems]

theorem Mirrors.pageId : ∀ {h : ℕ} {t : Tree h} {node : BPlusTreeNode}, Mirrors S next h t node →
    node.pageId = Tree.id h t
  | 0, _, _, ⟨_, hnode, _⟩ => hnode ▸ rfl
  | _ + 1, _, _, ⟨_, _, _, _, hnode, _⟩ => hnode ▸ rfl

theorem Mirrors.id_lt : ∀ {h : ℕ} {t : Tree h} {node : BPlusTreeNode}, Mirrors S next h t node →
    Tree.id h t < next
  | 0, _, _, ⟨_, _, _, hlt, _⟩ => hlt
  | _ + 1, _, _, ⟨_, _, _, _, _, _, hlt, _⟩ => hlt

/-- The page at the root of the tree. -/
theorem Mirrors.page : ∀ {h : ℕ} {t : Tree h} {node : BPlusTreeNode}, Mirrors S next h t node →
    ∃ page, S (Tree.id h t) = some page ∧ stripLsn page = Tree.page h t
  | 0, t, _, ⟨p, _, hp, _, hright, hslots⟩ => by
      obtain ⟨l, rfl⟩ := t.exists_leaf
      refine ⟨.leaf p, hp, ?_⟩
      rw [Tree.page_leaf, ← show p.rightSiblingPageId = l.right from hright,
        ← show p.slots = l.slots from hslots]
      rfl
  | h + 1, t, _, ⟨p, _, _, _, _, hp, _, hleft, hslots, _⟩ => by
      obtain ⟨n, rfl⟩ := t.exists_node
      refine ⟨.internal p, hp, ?_⟩
      rw [Tree.page_node, ← show p.leftmostChildPageId = Tree.id h n.first from hleft,
        ← show p.slots = n.rest.map (fun e => ⟨e.1, Tree.id h e.2⟩) from hslots]
      rfl

/-- Every tree of a list of trees that nodes stand for has its node. -/
theorem exists_mirror {ts : List (Tree h)} {nodes : List BPlusTreeNode}
    (hm : List.Forall₂ (Mirrors S next h) ts nodes) :
    ∀ t ∈ ts, ∃ node, Mirrors S next h t node := by
  induction hm with
  | nil => simp
  | cons hnode _ ih =>
      intro t ht
      rcases List.mem_cons.mp ht with rfl | ht
      · exact ⟨_, hnode⟩
      · exact ih t ht

/-- The subtree in a hole is a child. -/
theorem mem_of_hole (left : List (Tree h × Bytes)) (t : Tree h) (right : List (Bytes × Tree h)) :
    t = joinFirst left t ∨ t ∈ (joinRest left t right).map Prod.snd := by
  induction left with
  | nil => exact .inl rfl
  | cons e left ih =>
      simp only [joinRest, List.map_cons, List.mem_cons]
      exact .inr ih

/-- The subtree in a hole has its node. -/
theorem Mirrors.hole {id : ℕ} {left : List (Tree h × Bytes)} {t : Tree h}
    {right : List (Bytes × Tree h)} (hm : Mirrors S next (h + 1)
      (.node (mkNode id left t right)) node) :
    ∃ node', Mirrors S next h t node' := by
  obtain ⟨p, c, cs, levelIdx, -, -, -, -, -, -, hfirst, hrest⟩ := hm
  rcases mem_of_hole left t right with ht | ht
  · have hfirst' : Mirrors S next h (joinFirst left t) c := hfirst
    exact ⟨c, ht ▸ hfirst'⟩
  · exact exists_mirror hrest t ht

/-! ## Extreme keys -/

theorem firstKey_leaf {p : LeafPage} {k : Bytes} (hk : firstKey (.leaf p) = .ok k) :
    (slotTokens p.slots).head? = some (keyToken k) := by
  unfold firstKey slotKeys at hk
  rw [slotTokens, List.head?_map]
  cases hslots : p.slots with
  | nil => simp [hslots] at hk
  | cons s slots =>
      simp only [hslots, List.map_cons, List.head?_cons, Except.ok.injEq] at hk
      simp [hk]

theorem lastKey_leaf {p : LeafPage} {k : Bytes} (hk : lastKey (.leaf p) = .ok k) :
    (slotTokens p.slots).getLast? = some (keyToken k) := by
  unfold lastKey slotKeys at hk
  rw [slotTokens, List.getLast?_map]
  rw [List.getLast?_map] at hk
  cases hlast : p.slots.getLast? with
  | none => simp [hlast] at hk
  | some s =>
      simp only [hlast, Option.map_some, Except.ok.injEq] at hk
      simp [hk]

/-- The smallest leaf key comes first. -/
theorem Mirrors.smallest : ∀ {h : ℕ} {t : Tree h} {node : BPlusTreeNode} {k : Bytes},
    Mirrors S next h t node → smallestLeafKey node = .ok k →
      (tokens (Tree.items h t)).head? = some (keyToken k) := by
  intro h
  induction h with
  | zero =>
      rintro t node k ⟨p, rfl, -, -, -, hslots⟩ hk
      obtain ⟨l, rfl⟩ := t.exists_leaf
      have hslots' : p.slots = l.slots := hslots
      have := firstKey_leaf (by simpa [smallestLeafKey] using hk)
      simpa [hslots'] using this
  | succ h ih =>
      rintro t node k ⟨p, c, cs, levelIdx, rfl, -, -, -, -, -, hfirst, -⟩ hk
      obtain ⟨n, rfl⟩ := t.exists_node
      have hhead := ih hfirst (by simpa [smallestLeafKey] using hk)
      rw [Tree.items_node, tokens_append, List.head?_append]
      exact (congrArg (Option.or · _) hhead).trans (Option.some_or ..)

/-- The largest leaf key of a list of children comes last. -/
theorem largest_children {k : Bytes}
    (ih : ∀ {t : Tree h} {node : BPlusTreeNode} {k : Bytes}, Mirrors S next h t node →
      largestLeafKey node = .ok k → (tokens (Tree.items h t)).getLast? = some (keyToken k)) :
    ∀ (rest : List (Bytes × Tree h)) (cs : List BPlusTreeNode) (first : Tree h) (c : BPlusTreeNode),
      Mirrors S next h first c → List.Forall₂ (Mirrors S next h) (rest.map Prod.snd) cs →
      largestLeafKeyOfLast (c :: cs) = .ok k →
      (tokens (childItems first rest)).getLast? = some (keyToken k) := by
  intro rest
  induction rest with
  | nil =>
      intro cs first c hc hcs hk
      obtain rfl := List.forall₂_nil_left_iff.mp hcs
      simpa [childItems] using ih hc (by simpa [largestLeafKeyOfLast] using hk)
  | cons e rest ihrest =>
      intro cs first c hc hcs hk
      obtain ⟨c', cs, hc', hcs', rfl⟩ := List.forall₂_cons_left_iff.mp hcs
      have hlast := ihrest cs e.2 c' hc' hcs' (by simpa [largestLeafKeyOfLast] using hk)
      rw [childItems_cons, tokens_append, tokens_cons, List.getLast?_append, List.getLast?_append,
        hlast]
      rfl

theorem Mirrors.largest : ∀ {h : ℕ} {t : Tree h} {node : BPlusTreeNode} {k : Bytes},
    Mirrors S next h t node → largestLeafKey node = .ok k →
      (tokens (Tree.items h t)).getLast? = some (keyToken k) := by
  intro h
  induction h with
  | zero =>
      rintro t node k ⟨p, rfl, -, -, -, hslots⟩ hk
      obtain ⟨l, rfl⟩ := t.exists_leaf
      have hslots' : p.slots = l.slots := hslots
      have := lastKey_leaf (by simpa [largestLeafKey] using hk)
      simpa [hslots'] using this
  | succ h ih =>
      rintro t node k ⟨p, c, cs, levelIdx, rfl, -, -, -, -, -, hfirst, hrest⟩ hk
      obtain ⟨n, rfl⟩ := t.exists_node
      exact largest_children ih n.rest cs n.first c hfirst hrest
        (by simpa [largestLeafKey] using hk)

/-! ## Order -/

/-- Checked separators are above the subtree on their left and not above the one on their
right. -/
theorem checkSeparators_cons {levelIdx : ℕ} {slot : InternalSlot} {slots : List InternalSlot}
    {left right : BPlusTreeNode} {children : List BPlusTreeNode}
    (hcheck : checkSeparators node levelIdx (slot :: slots) (left :: right :: children) = .ok ()) :
    ∃ a b, largestLeafKey left = .ok a ∧ smallestLeafKey right = .ok b ∧ a < slot.key ∧
      slot.key ≤ b ∧ checkSeparators node levelIdx slots (right :: children) = .ok () := by
  rw [checkSeparators] at hcheck
  cases hleft : largestLeafKey left with
  | error e =>
      rw [hleft] at hcheck
      cases hcheck
  | ok a =>
      cases hright : smallestLeafKey right with
      | error e =>
          rw [hleft, hright] at hcheck
          cases hcheck
      | ok b =>
          rw [hleft, hright] at hcheck
          dsimp only [bind, Except.bind] at hcheck
          split at hcheck
          · rename_i hkeys
            exact ⟨a, b, rfl, rfl, hkeys.1, hkeys.2, hcheck⟩
          · cases hcheck

/-- Children in order, with checked separators between them, are in order. -/
theorem chain_children {levelIdx : ℕ}
    (ih : ∀ {t : Tree h} {node : BPlusTreeNode}, Mirrors S next h t node →
      (∀ l ∈ leavesOf (Tree.items h t), (l.slots.map (·.key)).Pairwise (· < ·)) →
      (tokens (Tree.items h t)).IsChain (· < ·)) :
    ∀ (rest : List (Bytes × Tree h)) (cs : List BPlusTreeNode) (first : Tree h) (c : BPlusTreeNode),
      Mirrors S next h first c → List.Forall₂ (Mirrors S next h) (rest.map Prod.snd) cs →
      checkSeparators node levelIdx (rest.map fun e => ⟨e.1, Tree.id h e.2⟩) (c :: cs) = .ok () →
      (∀ l ∈ leavesOf (childItems first rest), (l.slots.map (·.key)).Pairwise (· < ·)) →
      (tokens (childItems first rest)).IsChain (· < ·) := by
  intro rest
  induction rest with
  | nil =>
      intro cs first c hc _ _ hleaves
      simpa [childItems] using ih hc (by simpa [childItems] using hleaves)
  | cons e rest ihrest =>
      intro cs first c hc hcs hcheck hleaves
      obtain ⟨c', cs, hc', hcs', rfl⟩ := List.forall₂_cons_left_iff.mp hcs
      obtain ⟨a, b, hlargest, hsmallest, hlt, hle, hcheck'⟩ := checkSeparators_cons hcheck
      rw [childItems_cons] at hleaves ⊢
      simp only [leavesOf_append, leavesOf, List.mem_append] at hleaves
      have hright := ihrest cs e.2 c' hc' hcs' hcheck' fun l hl => hleaves l (.inr hl)
      have hhead : (tokens (childItems e.2 rest)).head? = some (keyToken b) := by
        rw [childItems, tokens_append, List.head?_append, hc'.smallest hsmallest]
        rfl
      simp only [tokens_append, tokens_cons, Item.tokens_sep, List.singleton_append]
      refine List.isChain_append.mpr ⟨ih hc fun l hl => hleaves l (.inl hl), ?_, ?_⟩
      · refine List.isChain_cons.mpr ⟨fun y hy => ?_, hright⟩
        cases hhead.symm.trans hy
        exact sepToken_lt_keyToken.mpr hle
      · intro x hx y hy
        cases (hc.largest hlargest).symm.trans hx
        cases Option.some.inj hy
        exact keyToken_lt_sepToken.mpr hlt

/-- In a tree that the checker accepts everything but the leaves is in order. -/
theorem Mirrors.chain : ∀ {h : ℕ} {t : Tree h} {node : BPlusTreeNode}, Mirrors S next h t node →
    (∀ l ∈ leavesOf (Tree.items h t), (l.slots.map (·.key)).Pairwise (· < ·)) →
      (tokens (Tree.items h t)).IsChain (· < ·) := by
  intro h
  induction h with
  | zero =>
      intro t node _ hleaves
      obtain ⟨l, rfl⟩ := t.exists_leaf
      have := pairwise_slotTokens.mpr (hleaves l (by simp [leavesOf]))
      simpa using this.isChain
  | succ h ih =>
      rintro t node ⟨p, c, cs, levelIdx, -, -, -, -, hslots, hcheck, hfirst, hrest⟩ hleaves
      obtain ⟨n, rfl⟩ := t.exists_node
      rw [hslots] at hcheck
      exact chain_children ih n.rest cs n.first c hfirst hrest hcheck hleaves

theorem Mirrors.sorted {t : Tree h} (hm : Mirrors S next h t node)
    (hleaves : ∀ l ∈ leavesOf (Tree.items h t), (l.slots.map (·.key)).Pairwise (· < ·)) :
    (tokens (Tree.items h t)).Pairwise (· < ·) :=
  List.isChain_iff_pairwise.mp (hm.chain hleaves)

/-! ## Height -/

/-- The height of a subtree is fixed by the page at its root. -/
theorem Mirrors.height_unique : ∀ {h h' : ℕ} {t : Tree h} {t' : Tree h'}
    {node node' : BPlusTreeNode},
    Mirrors S next h t node → Mirrors S next h' t' node' → Tree.id h t = Tree.id h' t' →
      h = h' := by
  intro h
  induction h with
  | zero =>
      rintro h' t t' node node' ⟨p, -, hp, -⟩ hm' hid
      cases h' with
      | zero => rfl
      | succ h' =>
          obtain ⟨p', c, cs, levelIdx, -, hp', -⟩ := hm'
          have hid' : Leaf.id t = Node.id t' := hid
          rw [hid', hp'] at hp
          cases hp
  | succ h ih =>
      rintro h' t t' node node' ⟨p, c, cs, levelIdx, -, hp, -, hleft, -, -, hfirst, -⟩ hm' hid
      cases h' with
      | zero =>
          obtain ⟨p', -, hp', -⟩ := hm'
          have hid' : Node.id t = Leaf.id t' := hid
          rw [hid', hp'] at hp
          cases hp
      | succ h' =>
          obtain ⟨p', c', cs', levelIdx', -, hp', -, hleft', -, -, hfirst', -⟩ := hm'
          have hid' : Node.id t = Node.id t' := hid
          rw [hid', hp'] at hp
          cases hp
          exact congrArg (· + 1) (ih hfirst hfirst' (hleft.symm.trans hleft'))

/-- The leftmost path of a tree goes through as many pages as the tree is high. -/
theorem Mirrors.spine : ∀ {h : ℕ} {t : Tree h} {node : BPlusTreeNode}, Mirrors S next h t node →
    ∃ ids : List ℕ, ids.length = h + 1 ∧ ids.Nodup ∧ ∀ x ∈ ids, x < next ∧
      ∃ k ≤ h, ∃ (u : Tree k) (node' : BPlusTreeNode), Mirrors S next k u node' ∧
        Tree.id k u = x := by
  intro h
  induction h with
  | zero =>
      intro t node hm
      exact ⟨[Tree.id 0 t], rfl, List.nodup_singleton _, fun x hx =>
        List.mem_singleton.mp hx ▸ ⟨hm.id_lt, 0, le_rfl, t, node, hm, rfl⟩⟩
  | succ h ih =>
      intro t node hm
      obtain ⟨p, c, cs, levelIdx, -, -, -, -, -, -, hfirst, -⟩ := id hm
      obtain ⟨ids, hlength, hnodup, hids⟩ := ih hfirst
      refine ⟨Tree.id (h + 1) t :: ids, by simp [hlength],
        List.nodup_cons.mpr ⟨fun hmem => ?_, hnodup⟩,
        fun x hx => ?_⟩
      · -- a page that comes again on the path would have two heights
        obtain ⟨-, k, hk, u, node', hu, hid⟩ := hids _ hmem
        have := hm.height_unique hu hid.symm
        omega
      · rcases List.mem_cons.mp hx with rfl | hx
        · exact ⟨hm.id_lt, h + 1, le_rfl, t, node, hm, rfl⟩
        · obtain ⟨hlt, k, hk, hrest⟩ := hids x hx
          exact ⟨hlt, k, hk.trans (Nat.le_succ h), hrest⟩

theorem Mirrors.height_lt {t : Tree h} (hm : Mirrors S next h t node) : h < next := by
  obtain ⟨ids, hlength, hnodup, hids⟩ := hm.spine
  have hsub : ids ⊆ List.range next := fun x hx => List.mem_range.mpr (hids x hx).1
  have := (hnodup.subperm hsub).length_le
  rw [hlength, List.length_range] at this
  omega

/-! ## Levels -/

/-- The levels of a breadth-first walk of the pages of `S`. -/
inductive Levels (S : ℕ → Option Page) : List (ℕ × Page) → List (List (ℕ × Page)) → Prop
  | last {level : List (ℕ × Page)} : (∀ n ∈ level, S n.1 = some n.2) →
      level.flatMap (fun n => childPageIds n.2) = [] → Levels S level [level]
  | more {level below : List (ℕ × Page)} {levels : List (List (ℕ × Page))} :
      (∀ n ∈ level, S n.1 = some n.2) →
      below.map Prod.fst = level.flatMap (fun n => childPageIds n.2) → Levels S below levels →
      Levels S level (level :: levels)

theorem pageIds_adopt (level : List (ℕ × Page)) (below : List BPlusTreeNode) :
    (adopt level below).map BPlusTreeNode.pageId = level.map Prod.fst := by
  induction level generalizing below with
  | nil => rfl
  | cons n level ih =>
      simp only [adopt, List.map_cons, ih, List.cons.injEq, and_true]
      rfl

theorem Levels.link {level : List (ℕ × Page)} {levels : List (List (ℕ × Page))}
    (hl : Levels S level levels) : ∃ nodes rest, linkLevels levels = nodes :: rest ∧
      nodes.map BPlusTreeNode.pageId = level.map Prod.fst := by
  cases hl with
  | last => exact ⟨_, _, rfl, pageIds_adopt ..⟩
  | more => exact ⟨_, _, rfl, pageIds_adopt ..⟩

/-- What the checks of a node say. -/
theorem checkNode_ok {m : MetaPage} {levelCount levelIdx : ℕ}
    (hcheck : checkNode m levelCount levelIdx node = .ok ()) : node.pageId < m.nextPageId ∧
      (levelIdx + 1 < levelCount → ∃ p, node.page = .internal p ∧
        checkSeparators node levelIdx p.slots node.children = .ok ()) ∧
      (levelIdx + 1 = levelCount → ∃ p, node.page = .leaf p) := by
  unfold checkNode at hcheck
  split at hcheck
  · cases hcheck
  · rename_i hid
    split at hcheck
    · cases hcheck
    · split at hcheck
      · cases hcheck
      · split at hcheck
        · cases hcheck
        · rename_i hbottom
          split at hcheck
          · cases hcheck
          · refine ⟨not_not.mp hid, fun hlevel => ?_, fun hlevel => ?_⟩
            · rw [if_pos hlevel] at hcheck
              cases hpage : node.page with
              | leaf p =>
                  rw [hpage] at hcheck
                  cases hcheck
              | internal p =>
                  rw [hpage] at hcheck
                  exact ⟨p, rfl, hcheck⟩
            · cases hpage : node.page with
              | leaf p => exact ⟨p, rfl⟩
              | internal p => exact absurd ⟨hlevel, by simp [hpage, isLeafPage]⟩ hbottom

theorem checkNodes_cons {m : MetaPage} {levelCount levelIdx : ℕ} {nodes : List BPlusTreeNode}
    (hcheck : checkNodes m levelCount levelIdx (node :: nodes) = .ok ()) :
    checkNode m levelCount levelIdx node = .ok () ∧
      checkNodes m levelCount levelIdx nodes = .ok () := by
  rw [checkNodes] at hcheck
  cases hnode : checkNode m levelCount levelIdx node with
  | error e =>
      rw [hnode] at hcheck
      cases hcheck
  | ok u =>
      rw [hnode] at hcheck
      exact ⟨rfl, hcheck⟩

theorem checkLevels_cons {m : MetaPage} {levelCount levelIdx : ℕ} {nodes : List BPlusTreeNode}
    {levels : List (List BPlusTreeNode)}
    (hcheck : checkLevels m levelCount levelIdx (nodes :: levels) = .ok ()) :
    checkNodes m levelCount levelIdx nodes = .ok () ∧
      checkLevels m levelCount (levelIdx + 1) levels = .ok () := by
  rw [checkLevels] at hcheck
  cases hnodes : checkNodes m levelCount levelIdx nodes with
  | error e =>
      rw [hnodes] at hcheck
      cases hcheck
  | ok u =>
      rw [hnodes] at hcheck
      exact ⟨rfl, hcheck⟩

/-- The leaves of a list of trees. -/
def forestLeaves (ts : List (Tree h)) : List Leaf := ts.flatMap fun t => leavesOf (Tree.items h t)

/-- The leaf level of the walk. -/
theorem mirrors_leaves {m : MetaPage} {levelCount levelIdx : ℕ}
    (hlevel : levelIdx + 1 = levelCount) :
    ∀ level : List (ℕ × Page), (∀ n ∈ level, S n.1 = some n.2) →
      checkNodes m levelCount levelIdx (adopt level []) = .ok () →
      ∃ leaves : List Leaf,
        List.Forall₂ (Mirrors S m.nextPageId 0) (leaves.map Tree.leaf) (adopt level []) := by
  intro level
  induction level with
  | nil => exact fun _ _ => ⟨[], .nil⟩
  | cons n level ih =>
      intro hS hcheck
      obtain ⟨x, page⟩ := n
      simp only [adopt, List.take_nil, List.drop_nil] at hcheck ⊢
      obtain ⟨hnode, hnodes⟩ := checkNodes_cons hcheck
      obtain ⟨hid, -, hleaf⟩ := checkNode_ok hnode
      obtain ⟨p, hpage⟩ := hleaf hlevel
      obtain ⟨leaves, hleaves⟩ := ih (fun n hn => hS n (List.mem_cons_of_mem _ hn)) hnodes
      have hpage' : page = .leaf p := hpage
      subst hpage'
      exact ⟨⟨x, p.rightSiblingPageId, p.slots⟩ :: leaves,
        .cons ⟨p, rfl, hS _ (List.mem_cons_self ..), hid, rfl, rfl⟩ hleaves⟩

theorem slots_eq_zip (slots : List InternalSlot) (us : List (Tree h))
    (hids : slots.map (·.childPageId) = us.map (Tree.id h)) :
    slots = ((slots.map (·.key)).zip us).map (fun e => ⟨e.1, Tree.id h e.2⟩) ∧
      ((slots.map (·.key)).zip us).map Prod.snd = us := by
  induction slots generalizing us with
  | nil =>
      obtain rfl : us = [] := by simpa using hids.symm
      exact ⟨rfl, rfl⟩
  | cons s slots ih =>
      cases us with
      | nil => simp at hids
      | cons u us =>
          simp only [List.map_cons, List.cons.injEq] at hids
          obtain ⟨hslots, hsnd⟩ := ih us hids.2
          simp only [List.map_cons, List.zip_cons_cons, hsnd, and_true, List.cons.injEq]
          exact ⟨by rw [← hids.1], hslots⟩

theorem Mirrors.pageIds {ts : List (Tree h)} {nodes : List BPlusTreeNode}
    (hm : List.Forall₂ (Mirrors S next h) ts nodes) :
    nodes.map BPlusTreeNode.pageId = ts.map (Tree.id h) := by
  induction hm with
  | nil => rfl
  | cons hnode _ ih => simp [hnode.pageId, ih]

theorem forestLeaves_leaf (leaves : List Leaf) : forestLeaves (leaves.map Tree.leaf) = leaves := by
  unfold forestLeaves
  induction leaves with
  | nil => rfl
  | cons l leaves ih => simp [ih, leavesOf]

theorem leaves_zip (x : ℕ) (u : Tree h) (us : List (Tree h)) (rest : List (Bytes × Tree h))
    (hrest : rest.map Prod.snd = us) :
    leavesOf (Tree.items (h + 1) (.node ⟨x, u, rest⟩)) = forestLeaves (u :: us) := by
  subst hrest
  simp only [Tree.items_node, leavesOf_append, forestLeaves, List.flatMap_cons]
  congr 1
  induction rest with
  | nil => rfl
  | cons e rest ih => simp [leavesOf, ih]

/-- An internal level of the walk, over the trees of the level below. -/
theorem mirrors_internal {m : MetaPage} {levelCount levelIdx : ℕ}
    (hlevel : levelIdx + 1 < levelCount) :
    ∀ (level : List (ℕ × Page)) (below : List BPlusTreeNode) (us : List (Tree h)),
      (∀ n ∈ level, S n.1 = some n.2) → List.Forall₂ (Mirrors S m.nextPageId h) us below →
      below.map BPlusTreeNode.pageId = level.flatMap (fun n => childPageIds n.2) →
      checkNodes m levelCount levelIdx (adopt level below) = .ok () →
      ∃ ts : List (Tree (h + 1)),
        List.Forall₂ (Mirrors S m.nextPageId (h + 1)) ts (adopt level below) ∧
          forestLeaves ts = forestLeaves us := by
  intro level
  induction level with
  | nil =>
      intro below us _ hus hids _
      obtain rfl : below = [] := by simpa using hids
      obtain rfl := List.forall₂_nil_right_iff.mp hus
      exact ⟨[], .nil, rfl⟩
  | cons n level ih =>
      intro below us hS hus hids hcheck
      obtain ⟨x, page⟩ := n
      rw [adopt] at hcheck ⊢
      obtain ⟨hnode, hnodes⟩ := checkNodes_cons hcheck
      obtain ⟨hid, hinternal, -⟩ := checkNode_ok hnode
      obtain ⟨p, hpage, hseparators⟩ := hinternal hlevel
      have hpage' : page = .internal p := hpage
      subst hpage'
      set n := (childPageIds (.internal p)).length with hn
      rw [List.flatMap_cons] at hids
      -- The first `n` of the nodes below are the children of this page; the induction takes the
      -- rest.
      have htake : (below.take n).map BPlusTreeNode.pageId = childPageIds (.internal p) := by
        rw [List.map_take, hids, List.take_left' hn.symm]
      have hdrop : (below.drop n).map BPlusTreeNode.pageId =
          level.flatMap fun n => childPageIds n.2 := by
        rw [List.map_drop, hids, List.drop_left' hn.symm]
      have hmine := List.forall₂_take n hus
      obtain ⟨ts, hts, hleaves⟩ := ih (below.drop n) (us.drop n)
        (fun n hn => hS n (List.mem_cons_of_mem _ hn)) (List.forall₂_drop n hus) hdrop hnodes
      have hmineIds : (us.take n).map (Tree.id h) = childPageIds (.internal p) :=
        (Mirrors.pageIds hmine).symm.trans htake
      -- An internal page has a leftmost child, so it adopted at least one node.
      obtain ⟨u, us', hus'⟩ : ∃ u us', us.take n = u :: us' := by
        cases htaken : us.take n with
        | nil => simp [htaken, childPageIds] at hmineIds
        | cons u us' => exact ⟨u, us', rfl⟩
      rw [hus'] at hmine hmineIds
      obtain ⟨c, cs, hc, hcs, hchildren⟩ := List.forall₂_cons_left_iff.mp hmine
      simp only [childPageIds, List.map_cons, List.cons.injEq] at hmineIds
      obtain ⟨hslots, hsnd⟩ := slots_eq_zip p.slots us' hmineIds.2.symm
      rw [hchildren] at hseparators ⊢
      set others := (p.slots.map (·.key)).zip us'
      refine ⟨Tree.node ⟨x, u, others⟩ :: ts, .cons ⟨p, c, cs, levelIdx, rfl,
        hS _ (List.mem_cons_self ..), hid, hmineIds.1.symm, hslots, hseparators, hc, ?_⟩ hts, ?_⟩
      · exact hsnd.symm ▸ hcs
      · calc forestLeaves (Tree.node ⟨x, u, others⟩ :: ts)
            = forestLeaves (u :: us') ++ forestLeaves ts := by
              rw [forestLeaves, List.flatMap_cons, leaves_zip x u us' _ hsnd]
              rfl
          _ = forestLeaves (us.take n ++ us.drop n) := by
              rw [hleaves, ← hus', forestLeaves, forestLeaves, forestLeaves, List.flatMap_append]
          _ = forestLeaves us := by rw [List.take_append_drop]

/-- The walk that the checker accepts is a walk of trees, over the leaves of its last level. -/
theorem Levels.mirrors {m : MetaPage} {levelCount : ℕ} {level : List (ℕ × Page)}
    {levels : List (List (ℕ × Page))} (hl : Levels S level levels) :
    ∀ (levelIdx h : ℕ), levelIdx + levels.length = levelCount → levels.length = h + 1 →
      checkLevels m levelCount levelIdx (linkLevels levels) = .ok () →
      ∃ ts : List (Tree h),
        List.Forall₂ (Mirrors S m.nextPageId h) ts ((linkLevels levels).headD []) ∧
        List.Forall₂ (Mirrors S m.nextPageId 0) ((forestLeaves ts).map Tree.leaf)
          ((linkLevels levels).getLast?.getD []) := by
  induction hl with
  | @last level hS hchildren =>
      intro levelIdx h hcount hlength hcheck
      obtain rfl : h = 0 := by simpa using hlength.symm
      obtain ⟨leaves, hleaves⟩ := mirrors_leaves (by simpa using hcount) level hS
        (checkLevels_cons (by simpa [linkLevels] using hcheck)).1
      exact ⟨leaves.map Tree.leaf, hleaves, by rw [forestLeaves_leaf]; exact hleaves⟩
  | @more level below levels hS hids hl ih =>
      intro levelIdx h hcount hlength hcheck
      obtain ⟨nodes, rest, hlink, hnodeIds⟩ := hl.link
      have hpos : 0 < levels.length := by
        cases hl <;> simp
      obtain ⟨k, rfl⟩ : ∃ k, h = k + 1 := ⟨h - 1, by simp at hlength; omega⟩
      simp only [linkLevels, List.headD_cons] at hcheck ⊢
      obtain ⟨hnodes, hlevels⟩ := checkLevels_cons hcheck
      obtain ⟨us, hus, hleaves⟩ := ih (levelIdx + 1) k (by simp at hcount; omega)
        (by simpa using hlength) hlevels
      have hbelow : (linkLevels levels).headD [] = nodes := by rw [hlink]; rfl
      rw [hbelow] at hus hnodes ⊢
      obtain ⟨ts, hts, hforest⟩ := mirrors_internal (by simp at hcount; omega) level nodes us hS hus
        (hnodeIds.trans hids) hnodes
      refine ⟨ts, hts, ?_⟩
      rw [hforest, hlink, List.getLast?_cons_cons, ← hlink]
      exact hleaves

/-! ## The chain of leaves -/

/-- The page behind the last leaf. -/
def tailId (leaves : List Leaf) : ℕ := (leaves.getLast?.map Leaf.right).getD 0

/-- What the check of a leaf and its right neighbour says. -/
theorem checkSiblings_cons {levelIdx : ℕ} {p : LeafPage} {right : BPlusTreeNode}
    {nodes : List BPlusTreeNode} (hcheck : checkSiblings levelIdx node p
      (right :: nodes) = .ok ()) :
    p.rightSiblingPageId = right.pageId ∧ p.slots ≠ [] ∧ ∃ k, firstKey right.page = .ok k := by
  rw [checkSiblings] at hcheck
  by_cases hlink : p.rightSiblingPageId = right.pageId
  · simp only [hlink, ne_eq, not_true_eq_false, if_false] at hcheck
    cases hlast : lastKey (.leaf p) with
    | error e =>
        rw [hlast] at hcheck
        cases hcheck
    | ok a =>
        cases hfirst : firstKey right.page with
        | error e =>
            rw [hlast, hfirst] at hcheck
            cases hcheck
        | ok k =>
            refine ⟨hlink, fun hempty => ?_, k, rfl⟩
            simp [lastKey, slotKeys, hempty] at hlast
  · simp only [ne_eq, hlink, not_false_eq_true, if_true] at hcheck
    cases hcheck

theorem checkLeafChain_cons {levelIdx x : ℕ} {p : LeafPage} {children nodes : List BPlusTreeNode}
    {seen seen' : List ℕ}
    (hcheck : checkLeafChain levelIdx seen (.mk x (.leaf p) children :: nodes) = .ok seen') :
    checkSiblings levelIdx (.mk x (.leaf p) children) p nodes = .ok () ∧
      checkLeafChain levelIdx (x :: seen) nodes = .ok seen' := by
  rw [checkLeafChain] at hcheck
  dsimp only [BPlusTreeNode.page] at hcheck
  split at hcheck
  · cases hcheck
  · cases hsiblings : checkSiblings levelIdx (.mk x (.leaf p) children) p nodes with
    | error e =>
        rw [hsiblings] at hcheck
        cases hcheck
    | ok u =>
        rw [hsiblings] at hcheck
        exact ⟨rfl, hcheck⟩

/-- Leaves whose links and extreme keys were checked are linked, and have records unless
there is only one. -/
theorem links_of_chain {levelIdx : ℕ} : ∀ (leaves : List Leaf) (nodes : List BPlusTreeNode)
    (seen seen' : List ℕ), List.Forall₂ (Mirrors S next 0) (leaves.map Tree.leaf) nodes →
      checkLeafChain levelIdx seen nodes = .ok seen' →
      Links leaves (tailId leaves) ∧ (∀ l ∈ leaves.tail, l.slots ≠ []) ∧
        ∀ l ∈ leaves.dropLast, l.slots ≠ [] := by
  intro leaves
  induction leaves with
  | nil => exact fun _ _ _ _ _ => ⟨trivial, by simp, by simp⟩
  | cons l leaves ih =>
      intro nodes seen seen' hm hcheck
      obtain ⟨node, nodes, ⟨p, rfl, -, -, hright, hslots⟩, hms, rfl⟩ :=
        List.forall₂_cons_left_iff.mp hm
      have hright' : p.rightSiblingPageId = l.right := hright
      have hslots' : p.slots = l.slots := hslots
      obtain ⟨hsiblings, hchain⟩ := checkLeafChain_cons hcheck
      cases leaves with
      | nil => exact ⟨⟨rfl, trivial⟩, by simp, by simp⟩
      | cons l' leaves =>
          obtain ⟨hlinks, htail, hinit⟩ := ih nodes _ seen' hms hchain
          obtain ⟨node', nodes', ⟨p', rfl, -, -, -, hslots''⟩, -, rfl⟩ :=
            List.forall₂_cons_left_iff.mp hms
          obtain ⟨hlink, hnonempty, k, hk⟩ := checkSiblings_cons hsiblings
          refine ⟨⟨?_, ?_⟩, ?_, ?_⟩
          · rw [← hright', hlink]
            rfl
          · simpa [tailId] using hlinks
          · intro x hx
            rcases List.mem_cons.mp hx with rfl | hx
            · intro hempty
              have hempty' : p'.slots = [] := hslots''.trans hempty
              simp [firstKey, slotKeys, BPlusTreeNode.page, hempty'] at hk
            · exact htail x hx
          · intro x hx
            rcases List.mem_cons.mp hx with rfl | hx
            · exact hslots' ▸ hnonempty
            · exact hinit x hx

/-! ## Accepted trees -/

/-- The tree that the checker accepted. -/
structure Accepted (S : ℕ → Option Page) (next : ℕ) (T : Tree H) : Prop where
  mirrors : ∃ node, Mirrors S next H T node
  leaves : ∀ l ∈ leavesOf (Tree.items H T), ∃ lsn, S l.id = some (.leaf ⟨lsn, l.right, l.slots⟩)
  links : Links (leavesOf (Tree.items H T)) (tailId (leavesOf (Tree.items H T)))
  behind : ∀ l ∈ (leavesOf (Tree.items H T)).tail, l.slots ≠ []
  ahead : ∀ l ∈ (leavesOf (Tree.items H T)).dropLast, l.slots ≠ []

theorem checkTree_ok {m : MetaPage} {levels : List (List BPlusTreeNode)}
    (hcheck : checkTree m levels = .ok ()) : checkLevels m levels.length 0 levels = .ok () ∧
      ∃ seen, checkLeafChain (levels.length - 1) [] (levels.getLast?.getD []) = .ok seen := by
  rw [checkTree] at hcheck
  cases hlevels : checkLevels m levels.length 0 levels with
  | error e =>
      rw [hlevels] at hcheck
      cases hcheck
  | ok u =>
      refine ⟨rfl, ?_⟩
      rw [hlevels] at hcheck
      dsimp only [bind, Except.bind] at hcheck
      cases hchain : checkLeafChain (levels.length - 1) [] (levels.getLast?.getD []) with
      | error e =>
          rw [hchain] at hcheck
          cases hcheck
      | ok seen => exact ⟨seen, rfl⟩

theorem length_linkLevels (levels : List (List (ℕ × Page))) :
    (linkLevels levels).length = levels.length := by
  induction levels with
  | nil => rfl
  | cons level levels ih => simp [linkLevels, ih]

/-- The walk from a root, when the checks pass, is a tree. -/
theorem Levels.accepted {m : MetaPage} {root : ℕ × Page} {levels : List (List (ℕ × Page))}
    (hl : Levels S [root] levels) (hcheck : checkTree m (linkLevels levels) = .ok ()) :
    ∃ (H : ℕ) (T : Tree H), Accepted S m.nextPageId T ∧ Tree.id H T = root.1 := by
  obtain ⟨hlevels, seen, hchain⟩ := checkTree_ok hcheck
  obtain ⟨nodes, rest, hlink, hids⟩ := hl.link
  obtain ⟨h, hlength⟩ : ∃ h, levels.length = h + 1 := by
    cases hl <;> exact ⟨_, rfl⟩
  obtain ⟨ts, hts, hleaves⟩ := hl.mirrors 0 h (by simp [length_linkLevels]) hlength hlevels
  rw [hlink, List.headD_cons] at hts
  obtain ⟨t, rfl⟩ : ∃ t, ts = [t] := by
    have hlen : ts.length = 1 := by
      have := congrArg List.length hids
      rw [hts.length_eq]
      simpa using this
    exact List.length_eq_one_iff.mp hlen
  obtain ⟨node, nodes', hnode, hnil, rfl⟩ := List.forall₂_cons_left_iff.mp hts
  obtain rfl := List.forall₂_nil_left_iff.mp hnil
  have hforest : forestLeaves [t] = leavesOf (Tree.items h t) := by simp [forestLeaves]
  rw [hforest] at hleaves
  obtain ⟨hlinks, htail, hinit⟩ := links_of_chain _ _ _ _ hleaves hchain
  refine ⟨h, t, ⟨⟨node, hnode⟩, fun l hl => ?_, hlinks, htail, hinit⟩, ?_⟩
  · obtain ⟨node', p, -, hp, -, hright, hslots⟩ := exists_mirror hleaves _ (List.mem_map_of_mem hl)
    have hpage : p = ⟨p.lastModifiedLsn, l.right, l.slots⟩ := by
      rw [show l.right = p.rightSiblingPageId from hright.symm,
        show l.slots = p.slots from hslots.symm]
    exact ⟨p.lastModifiedLsn, hp.trans (congrArg (some ∘ Page.leaf) hpage)⟩
  · rw [← hnode.pageId]
    simpa using hids

end BPTreeDB.PageStore
