import BPTreeDB.PageStore.SplitPoint

/-!
# Splits, merges and rotations as tree operations

A split, a merge and a rotation are about two neighbours `a`, `b` under one parent
and the separator `s` between them.  All three are described by one operation,
`Tree.merge h a s b`, the page that holds the slots of both:

* a merge replaces `a`, `s`, `b` by it;
* a split replaces it by `a`, `s`, `b`;
* a rotation replaces `a`, `s`, `b` by other neighbours with the same merge.

`PageContents` shows that `splitParts`, `rotateSlots` and `mergeProbe` compute exactly
these on page contents.
-/

namespace BPTreeDB.PageStore

open Lib Codec BPlusTree

variable {R : Regime} {h : ℕ}

/-! ## Merging neighbours -/

/-- The page with the slots of both neighbours; internal pages pull the separator
down between them. -/
def Tree.merge : (h : ℕ) → Tree h → Bytes → Tree h → Tree h
  | 0, a, _, b => Tree.leaf ⟨Leaf.id a, Leaf.right b, Leaf.slots a ++ Leaf.slots b⟩
  | _ + 1, a, s, b =>
      Tree.node ⟨Node.id a, Node.first a, Node.rest a ++ (s, Node.first b) :: Node.rest b⟩

/-- Neighbouring leaves are linked. -/
def Tree.Linked : (h : ℕ) → Tree h → Tree h → Prop
  | 0, a, b => Leaf.right a = Leaf.id b
  | _ + 1, _, _ => True

/-- The separator before a leaf is its first key. -/
def Tree.Fresh : (h : ℕ) → Bytes → Tree h → Prop
  | 0, s, b => ∃ slot rest, Leaf.slots b = slot :: rest ∧ slot.key = s
  | _ + 1, _, _ => True

@[simp] theorem Tree.merge_leaf (a b : Leaf) (s : Bytes) :
    Tree.merge 0 (.leaf a) s (.leaf b) = .leaf ⟨a.id, b.right, a.slots ++ b.slots⟩ := rfl

@[simp] theorem Tree.merge_node (a b : Node (Tree h)) (s : Bytes) :
    Tree.merge (h + 1) (.node a) s (.node b) =
      .node ⟨a.id, a.first, a.rest ++ (s, b.first) :: b.rest⟩ := rfl

@[simp] theorem Tree.linked_leaf {a b : Leaf} :
    Tree.Linked 0 (.leaf a) (.leaf b) ↔ a.right = b.id := Iff.rfl

@[simp] theorem Tree.linked_node {a b : Tree (h + 1)} : Tree.Linked (h + 1) a b := trivial

@[simp] theorem Tree.fresh_leaf {s : Bytes} {b : Leaf} :
    Tree.Fresh 0 s (.leaf b) ↔ ∃ slot rest, b.slots = slot :: rest ∧ slot.key = s := Iff.rfl

@[simp] theorem Tree.fresh_node {s : Bytes} {b : Tree (h + 1)} : Tree.Fresh (h + 1) s b := trivial

@[simp] theorem Tree.id_merge (a b : Tree h) (s : Bytes) :
    Tree.id h (Tree.merge h a s b) = Tree.id h a := by
  cases h <;> rfl

theorem Tree.below_merge (a b : Tree h) (s : Bytes) :
    Tree.below h (Tree.merge h a s b) = Tree.below h a ++ Tree.below h b := by
  cases h with
  | zero => rfl
  | succ h =>
      obtain ⟨a, rfl⟩ := a.exists_node
      obtain ⟨b, rfl⟩ := b.exists_node
      simp [Tree.below_node, Tree.pages]

theorem Tree.belowGood_merge {a b : Tree h} {s : Bytes} :
    Tree.BelowGood R h (Tree.merge h a s b) ↔ Tree.BelowGood R h a ∧ Tree.BelowGood R h b := by
  cases h with
  | zero => simp [Tree.BelowGood]
  | succ h =>
      obtain ⟨a, rfl⟩ := a.exists_node
      obtain ⟨b, rfl⟩ := b.exists_node
      simp only [Tree.merge_node, Tree.belowGood_node, List.mem_append, List.mem_cons]
      constructor
      · rintro ⟨hfirst, hrest⟩
        exact ⟨⟨hfirst, fun e he => hrest e (.inl he)⟩, hrest _ (.inr (.inl rfl)),
          fun e he => hrest e (.inr (.inr he))⟩
      · rintro ⟨⟨hfirst, ha⟩, hbfirst, hb⟩
        refine ⟨hfirst, fun e he => ?_⟩
        rcases he with he | rfl | he
        · exact ha e he
        · exact hbfirst
        · exact hb e he

/-! ## Order -/

section Order

variable {pre post : List Item} {a b : Tree h} {s : Bytes}

/-- Neighbours in an ordered tree are linked. -/
theorem Ordered.linked_neighbours
    (ho : Ordered (pre ++ (Tree.items h a ++ .sep s :: Tree.items h b) ++ post)) :
    Tree.Linked h a b := by
  cases h with
  | zero =>
      obtain ⟨a, rfl⟩ := a.exists_leaf
      obtain ⟨b, rfl⟩ := b.exists_leaf
      have := ho.linked
      simp only [Tree.items_leaf, leavesOf_append, leavesOf, links_append, Links, headId] at this
      exact this.1.2.1.1
  | succ h => trivial

theorem entriesOf_merge (a b : Tree h) (s : Bytes) :
    entriesOf (Tree.items h (Tree.merge h a s b)) =
      entriesOf (Tree.items h a ++ .sep s :: Tree.items h b) := by
  cases h with
  | zero =>
      obtain ⟨a, rfl⟩ := a.exists_leaf
      obtain ⟨b, rfl⟩ := b.exists_leaf
      simp
  | succ h =>
      obtain ⟨a, rfl⟩ := a.exists_node
      obtain ⟨b, rfl⟩ := b.exists_node
      simp [List.flatMap_append]

/-- Merging neighbours keeps the order. -/
theorem Ordered.merge
    (ho : Ordered (pre ++ (Tree.items h a ++ .sep s :: Tree.items h b) ++ post)) :
    Ordered (pre ++ Tree.items h (Tree.merge h a s b) ++ post) := by
  cases h with
  | zero =>
      obtain ⟨a, rfl⟩ := a.exists_leaf
      obtain ⟨b, rfl⟩ := b.exists_leaf
      constructor
      · refine ho.sorted.sublist ?_
        simp only [Tree.merge_leaf, Tree.items_leaf, tokens_append, tokens_cons,
          Item.tokens_leaf, Item.tokens_sep, slotTokens_append, List.append_assoc,
          List.cons_append, List.nil_append]
        exact ((List.Sublist.refl _).append
          ((List.Sublist.refl _).append (List.sublist_cons_self _ _)))
      · have := ho.linked
        simp only [Tree.merge_leaf, Tree.items_leaf, leavesOf_append, leavesOf, links_append,
          Links, headId, List.append_assoc, List.cons_append, List.nil_append] at this ⊢
        tauto
  | succ h =>
      obtain ⟨a, rfl⟩ := a.exists_node
      obtain ⟨b, rfl⟩ := b.exists_node
      simpa [List.flatMap_append] using ho

/-- A separator fits between two neighbouring keys. -/
theorem pairwise_insert_sepToken {left right : List Token} {j k : Bytes}
    (hp : (left ++ keyToken j :: keyToken k :: right).Pairwise (· < ·)) :
    (left ++ keyToken j :: sepToken k :: keyToken k :: right).Pairwise (· < ·) := by
  have hsplit : left ++ keyToken j :: keyToken k :: right =
      (left ++ [keyToken j]) ++ keyToken k :: right := by simp
  rw [hsplit, List.pairwise_append] at hp
  obtain ⟨hleft, hright, hcross⟩ := hp
  have hjk : keyToken j < sepToken k :=
    keyToken_lt_sepToken.mpr (keyToken_lt_keyToken.mp (hcross _ (by simp) _ (by simp)))
  have hsep : sepToken k < keyToken k := sepToken_lt_keyToken.mpr le_rfl
  have hgoal : left ++ keyToken j :: sepToken k :: keyToken k :: right =
      (left ++ [keyToken j]) ++ sepToken k :: keyToken k :: right := by simp
  rw [hgoal, List.pairwise_append]
  refine ⟨hleft, List.pairwise_cons.mpr ⟨fun x hx => ?_, hright⟩, fun x hx y hy => ?_⟩
  · rcases List.mem_cons.mp hx with rfl | hx
    · exact hsep
    · exact hsep.trans (List.rel_of_pairwise_cons hright hx)
  · rcases List.mem_cons.mp hy with rfl | hy
    · rcases List.mem_append.mp hx with hx | hx
      · exact ((List.pairwise_append.mp hleft).2.2 x hx _ (by simp)).trans hjk
      · rw [List.mem_singleton.mp hx]
        exact hjk
    · exact hcross x hx y hy

/-- Splitting a page keeps the order; a leaf is split between two of its slots. -/
theorem Ordered.split (ho : Ordered (pre ++ Tree.items h (Tree.merge h a s b) ++ post))
    (hlink : Tree.Linked h a b) (hfresh : Tree.Fresh h s b)
    (hslots : slotCount (Tree.page h a) ≠ 0) :
    Ordered (pre ++ (Tree.items h a ++ .sep s :: Tree.items h b) ++ post) := by
  cases h with
  | zero =>
      obtain ⟨a, rfl⟩ := a.exists_leaf
      obtain ⟨b, rfl⟩ := b.exists_leaf
      obtain ⟨slot, rest, hb, rfl⟩ := hfresh
      constructor
      · obtain ⟨left, last, ha⟩ : ∃ left last, a.slots = left ++ [last] := by
          rcases List.eq_nil_or_concat a.slots with hnil | ⟨left, last, ha⟩
          · simp [slotCount, hnil] at hslots
          · exact ⟨left, last, by simpa using ha⟩
        have := ho.sorted
        change b.slots = slot :: rest at hb
        simp only [Tree.merge_leaf, Tree.items_leaf, tokens_append, tokens_cons,
          Item.tokens_leaf, Item.tokens_sep, ha, hb, slotTokens, List.map_append, List.map_cons,
          List.map_nil, List.append_assoc, List.cons_append,
          List.nil_append] at this ⊢
        rw [← List.append_assoc] at this ⊢
        exact pairwise_insert_sepToken this
      · have := ho.linked
        simp only [Tree.linked_leaf] at hlink
        simp only [Tree.merge_leaf, Tree.items_leaf, leavesOf_append, leavesOf, links_append,
          Links, headId, List.append_assoc, List.cons_append, List.nil_append] at this ⊢
        tauto
  | succ h =>
      obtain ⟨a, rfl⟩ := a.exists_node
      obtain ⟨b, rfl⟩ := b.exists_node
      simpa [List.flatMap_append] using ho

end Order

/-! ## Sizes -/

/-- The encoded size of the root page of a tree. -/
def Tree.size (h : ℕ) (t : Tree h) : ℕ := calculatePageSize (Tree.page h t)

/-- Keys and records of the root page within the caps. -/
def Tree.Capped (R : Regime) : (h : ℕ) → Tree h → Prop
  | 0, l => R.CappedSlots (Leaf.slots l)
  | _ + 1, n => R.CappedKeys ((Node.rest n).map Prod.fst)

@[simp] theorem Tree.capped_leaf {l : Leaf} :
    Tree.Capped R 0 (.leaf l) ↔ R.CappedSlots l.slots := Iff.rfl

@[simp] theorem Tree.capped_node {n : Node (Tree h)} :
    Tree.Capped R (h + 1) (.node n) ↔ R.CappedKeys (n.rest.map Prod.fst) := Iff.rfl

/-- The number of separators that a merge at height `h` pulls down. -/
def medianAt : ℕ → ℕ
  | 0 => 0
  | _ + 1 => 1

theorem Tree.size_leaf (l : Leaf) : Tree.size 0 (.leaf l) = leafSize l.slots := rfl

theorem Tree.size_node (n : Node (Tree h)) :
    Tree.size (h + 1) (.node n) = nodeSize (n.rest.map Prod.fst) := by
  simp only [Tree.size, Tree.page_node, calculatePageSize_internal, List.map_map]
  rfl

theorem Tree.size_merge (a b : Tree h) (s : Bytes) :
    Tree.size h (Tree.merge h a s b) + pageHeaderSize =
      Tree.size h a + Tree.size h b + medianAt h * sepSize s := by
  cases h with
  | zero =>
      obtain ⟨a, rfl⟩ := a.exists_leaf
      obtain ⟨b, rfl⟩ := b.exists_leaf
      simp only [Tree.merge_leaf, Tree.size_leaf, leafSize_append, medianAt]
      omega
  | succ h =>
      obtain ⟨a, rfl⟩ := a.exists_node
      obtain ⟨b, rfl⟩ := b.exists_node
      simp only [Tree.merge_node, Tree.size_node, List.map_append, List.map_cons,
        nodeSize_append, medianAt]
      simp only [nodeSize, List.map_cons, List.sum_cons]
      omega

theorem Tree.capped_merge {a b : Tree h} {s : Bytes} :
    Tree.Capped R h (Tree.merge h a s b) ↔
      Tree.Capped R h a ∧ Tree.Capped R h b ∧ (h ≠ 0 → s.length ≤ R.maxKey) := by
  cases h with
  | zero =>
      obtain ⟨a, rfl⟩ := a.exists_leaf
      obtain ⟨b, rfl⟩ := b.exists_leaf
      simp only [Tree.merge_leaf, Tree.capped_leaf, Regime.CappedSlots, List.mem_append, or_imp,
        forall_and, ne_eq, not_true_eq_false, false_implies, and_true]
      tauto
  | succ h =>
      obtain ⟨a, rfl⟩ := a.exists_node
      obtain ⟨b, rfl⟩ := b.exists_node
      simp only [Tree.merge_node, Tree.capped_node, Regime.CappedKeys, List.map_append,
        List.map_cons, List.mem_append, List.mem_cons, or_imp, forall_and, forall_eq]
      tauto

/-- A fresh separator is within the cap. -/
theorem Tree.Fresh.length_le {a b : Tree h} {s : Bytes} (hfresh : Tree.Fresh h s b)
    (hcapped : Tree.Capped R h (Tree.merge h a s b)) : s.length ≤ R.maxKey := by
  cases h with
  | zero =>
      obtain ⟨slot, rest, hb, rfl⟩ := hfresh
      refine (Tree.capped_merge.mp hcapped).2.1 slot ?_ |>.2
      rw [hb]
      exact List.mem_cons_self ..
  | succ h => exact (Tree.capped_merge.mp hcapped).2.2 (Nat.succ_ne_zero h)

theorem Tree.Capped.slotSizes_le {t : Tree h} (hcapped : Tree.Capped R h t) :
    ∀ x ∈ slotSizes (Tree.page h t), x ≤ R.slotCap h := by
  cases h with
  | zero =>
      obtain ⟨l, rfl⟩ := t.exists_leaf
      intro x hx
      simp only [Tree.page_leaf, slotSizes, List.mem_map] at hx
      obtain ⟨slot, hslot, rfl⟩ := hx
      exact (hcapped slot hslot).1
  | succ h =>
      obtain ⟨n, rfl⟩ := t.exists_node
      intro x hx
      simp only [Tree.page_node, slotSizes, List.mem_map] at hx
      obtain ⟨_, ⟨e, he, rfl⟩, rfl⟩ := hx
      have := hcapped e.1 (List.mem_map_of_mem he)
      simp only [internalSlotSize, slotEntrySize, lengthFieldSize, pageIdFieldSize,
        Regime.slotCap]
      omega

theorem medianCount_page (t : Tree h) : medianCount (Tree.page h t) = medianAt h := by
  cases h <;> rfl

theorem sepSize_le {s : Bytes} (hs : s.length ≤ R.maxKey) (h : ℕ) :
    medianAt h * sepSize s ≤ medianAt h * R.slotCap h := by
  cases h with
  | zero => simp [medianAt]
  | succ h =>
      simp only [medianAt, sepSize, slotEntrySize, lengthFieldSize, pageIdFieldSize,
        Regime.slotCap]
      omega

theorem Tree.size_le {t : Tree h} (hcapped : Tree.Capped R h t) :
    Tree.size h t ≤ pageHeaderSize + slotCount (Tree.page h t) * R.slotCap h := by
  have hsum := List.sum_le_card_nsmul (slotSizes (Tree.page h t)) _ hcapped.slotSizes_le
  have hlen : (slotSizes (Tree.page h t)).length = slotCount (Tree.page h t) := by
    cases h <;> simp [Tree.page, slotSizes, slotCount]
  rw [hlen, smul_eq_mul] at hsum
  simp only [Tree.size, calculatePageSize]
  omega

/-- What the root page of a tree owes, at any height. -/
theorem Tree.rootGood_iff {root : Bool} {t : Tree h} :
    Tree.RootGood R root h t ↔ Tree.Capped R h t ∧ Tree.size h t ≤ R.pageSize ∧
      (root = false ∨ h ≠ 0 → slotCount (Tree.page h t) ≠ 0) ∧
      (root = false → R.healthyAt h → R.Healthy (Tree.size h t)) := by
  cases h with
  | zero =>
      obtain ⟨l, rfl⟩ := t.exists_leaf
      rw [Tree.rootGood_leaf, Tree.capped_leaf, Tree.size_leaf]
      constructor
      · intro hg
        refine ⟨hg.capped, hg.fits, fun hroot => ?_, hg.healthy⟩
        simpa [slotCount] using hg.nonempty (by simpa using hroot)
      · rintro ⟨hcapped, hfits, hne, hhealthy⟩
        exact ⟨hcapped, hfits, fun hroot => by simpa [slotCount] using hne (.inl hroot), hhealthy⟩
  | succ h =>
      obtain ⟨n, rfl⟩ := t.exists_node
      rw [Tree.rootGood_node, Tree.capped_node, Tree.size_node]
      constructor
      · intro hg
        refine ⟨hg.capped, hg.fits, fun _ => ?_, hg.healthy⟩
        simpa [slotCount] using hg.nonempty
      · rintro ⟨hcapped, hfits, hne, hhealthy⟩
        exact ⟨hcapped, hfits, by simpa [slotCount] using hne (.inr (Nat.succ_ne_zero h)),
          hhealthy⟩

end BPTreeDB.PageStore
