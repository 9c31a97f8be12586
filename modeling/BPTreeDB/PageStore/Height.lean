import BPTreeDB.PageStore.Records

/-!
# The height of a good tree

Every page below the root has a least number of slots, so the number of records grows
exponentially with the height.  An internal page always has two children, whatever its keys;
where the half-full rule is part of the regime it has three, and every leaf below the root
has two records.
-/

namespace BPTreeDB.PageStore

open Lib Codec BPlusTree

variable {R : Regime} {h H a b : ℕ} {T : Tree H}

/-! ## Records of a node -/

theorem entriesOf_flatMap_sep (rest : List (Bytes × Tree h)) :
    entriesOf (rest.flatMap fun e => .sep e.1 :: Tree.items h e.2) =
      rest.flatMap fun e => entriesOf (Tree.items h e.2) := by
  induction rest with
  | nil => rfl
  | cons e rest ih =>
      rw [List.flatMap_cons, entriesOf_append, entriesOf_sep, ih, List.flatMap_cons]

/-- A node whose children have at least `n` records each. -/
theorem mul_le_entries_node {n : ℕ} {t : Node (Tree h)}
    (hfirst : n ≤ (entriesOf (Tree.items h t.first)).length)
    (hrest : ∀ e ∈ t.rest, n ≤ (entriesOf (Tree.items h e.2)).length) :
    (t.rest.length + 1) * n ≤ (entriesOf (Tree.items (h + 1) (.node t))).length := by
  have hsum : t.rest.length * n ≤
      (t.rest.map fun e => (entriesOf (Tree.items h e.2)).length).sum := by
    simpa using List.card_nsmul_le_sum _ n (List.forall_mem_map.mpr hrest)
  rw [Tree.items_node, entriesOf_append, entriesOf_flatMap_sep, List.length_append,
    List.length_flatMap]
  calc (t.rest.length + 1) * n = n + t.rest.length * n := by ring
    _ ≤ _ := Nat.add_le_add hfirst hsum

/-- The records of a good tree are within the caps. -/
theorem Tree.Good.capped_entries :
    ∀ (h : ℕ) {root : Bool} (t : Tree h), Tree.Good R root h t →
      R.CappedSlots (entriesOf (Tree.items h t)) := by
  intro h
  induction h with
  | zero =>
      intro root t hgood
      obtain ⟨l, rfl⟩ := t.exists_leaf
      have hleaf : R.LeafGood root l.slots := hgood
      simpa using hleaf.capped
  | succ h ih =>
      intro root t hgood
      obtain ⟨n, rfl⟩ := t.exists_node
      obtain ⟨-, hfirst, hrest⟩ := hgood
      intro s hs
      rw [Tree.items_node, entriesOf_append, entriesOf_flatMap_sep, List.mem_append] at hs
      rcases hs with hs | hs
      · exact ih _ hfirst s hs
      · obtain ⟨e, he, hs⟩ := List.mem_flatMap.mp hs
        exact ih _ (hrest e he) s hs

/-! ## Least numbers of slots -/

/-- Leaves below the root have at least `a` records, and internal pages below it at least
`b` children. -/
structure Regime.Fanout (R : Regime) (a b : ℕ) : Prop where
  leaf : ∀ slots, R.LeafGood false slots → a ≤ slots.length
  node : ∀ keys, R.NodeGood false keys → b ≤ keys.length + 1

theorem Regime.Fanout.le_entries (hf : R.Fanout a b) :
    ∀ (h : ℕ) (t : Tree h), Tree.Good R false h t →
      a * b ^ h ≤ (entriesOf (Tree.items h t)).length := by
  intro h
  induction h with
  | zero =>
      intro t hgood
      obtain ⟨l, rfl⟩ := t.exists_leaf
      have hleaf : R.LeafGood false l.slots := hgood
      simpa using hf.leaf _ hleaf
  | succ h ih =>
      intro t hgood
      obtain ⟨n, rfl⟩ := t.exists_node
      obtain ⟨hroot, hfirst, hrest⟩ := hgood
      have hchildren : b ≤ n.rest.length + 1 := by
        simpa using hf.node _ (Tree.rootGood_node.mp hroot)
      calc a * b ^ (h + 1) = b * (a * b ^ h) := by ring
        _ ≤ (n.rest.length + 1) * (a * b ^ h) := Nat.mul_le_mul_right _ hchildren
        _ ≤ _ := mul_le_entries_node (ih _ hfirst) fun e he => ih _ (hrest e he)

/-- The root has two children, unless it is a leaf. -/
theorem Regime.Fanout.two_mul_le_entries (hf : R.Fanout a b) {t : Tree (h + 1)}
    (hgood : Tree.Good R true (h + 1) t) :
    2 * (a * b ^ h) ≤ (entriesOf (Tree.items (h + 1) t)).length := by
  obtain ⟨n, rfl⟩ := t.exists_node
  obtain ⟨hroot, hfirst, hrest⟩ := hgood
  have hkeys := List.length_pos_of_ne_nil (Tree.rootGood_node.mp hroot).nonempty
  rw [List.length_map] at hkeys
  calc 2 * (a * b ^ h) ≤ (n.rest.length + 1) * (a * b ^ h) :=
        Nat.mul_le_mul_right _ (Nat.succ_le_succ hkeys)
    _ ≤ _ := mul_le_entries_node (hf.le_entries h _ hfirst) fun e he =>
        hf.le_entries h _ (hrest e he)

/-- Slots of at most `cap` bytes on a page that is at least `0.4` full are at least two. -/
theorem two_le_length_of_healthy {sizes : List ℕ} {cap : ℕ} (hcap : ∀ x ∈ sizes, x ≤ cap)
    (hthin : 5 * (pageHeaderSize + cap) < 2 * R.pageSize)
    (hhealthy : R.Healthy (pageHeaderSize + sizes.sum)) : 2 ≤ sizes.length := by
  by_contra hshort
  unfold Regime.Healthy at hhealthy
  have hsum : sizes.sum ≤ sizes.length * cap := by
    simpa using List.sum_le_card_nsmul sizes cap hcap
  have hone : sizes.length * cap ≤ 1 * cap := Nat.mul_le_mul_right cap (by omega)
  omega

/-- Half-full pages have two slots. -/
theorem fanout_full (hleaves : R.healthyLeaves) (hnodes : R.healthyNodes) : R.Fanout 2 3 where
  leaf slots hgood := by
    have hcap : ∀ x ∈ slots.map leafSlotSize, x ≤ R.slotCap 0 :=
      List.forall_mem_map.mpr fun s hs => (hgood.capped s hs).1
    have htwo := two_le_length_of_healthy hcap (R.thin_at (h := 0) hleaves)
      (hgood.healthy rfl hleaves)
    rwa [List.length_map] at htwo
  node keys hgood := by
    have hcap : ∀ x ∈ keys.map sepSize, x ≤ R.slotCap 1 := by
      refine List.forall_mem_map.mpr fun k hk => ?_
      have hkey := hgood.capped k hk
      simp only [sepSize, slotEntrySize, lengthFieldSize, pageIdFieldSize, Regime.slotCap]
      omega
    have htwo := two_le_length_of_healthy hcap (R.thin_at (h := 1) hnodes)
      (hgood.healthy rfl hnodes)
    rw [List.length_map] at htwo
    omega

/-! ## The height -/

/-- The keys that the map holds. -/
def stored (M : KeyMap) : Set Bytes := {k | M k ≠ none}

theorem Represents.ncard_stored {M : KeyMap} {entries : List LeafSlot} (hM : Represents M entries)
    (hsorted : (entries.map (·.key)).Pairwise (· < ·)) : (stored M).ncard = entries.length := by
  have hnodup : (entries.map (·.key)).Nodup := hsorted.imp ne_of_lt
  have hkeys : stored M = ((entries.map (·.key)).toFinset : Set Bytes) := by
    ext k
    rw [Finset.mem_coe, List.mem_toFinset, List.mem_map]
    constructor
    · intro hk
      obtain ⟨v, hv⟩ := Option.ne_none_iff_exists'.mp hk
      exact ⟨⟨k, v⟩, (hM k v).mp hv, rfl⟩
    · rintro ⟨s, hs, rfl⟩
      have hget := (hM s.key s.value).mpr hs
      show M s.key ≠ none
      rw [hget]
      exact Option.some_ne_none _
  rw [hkeys, Set.ncard_coe_finset, List.toFinset_card_of_nodup hnodup, List.length_map]

/-- The height of a good tree that holds a map: logarithmic in the number of keys. -/
theorem Regime.Fanout.height_bound (hf : R.Fanout a b) {M : KeyMap} (hgood : Tree.Good R true H T)
    (hordered : Ordered (Tree.items H T)) (hM : Represents M (entriesOf (Tree.items H T))) :
    H = 0 ∨ 2 * a * b ^ (H - 1) ≤ (stored M).ncard := by
  rw [hM.ncard_stored hordered.sorted_entries]
  cases H with
  | zero => exact .inl rfl
  | succ h =>
      apply Or.inr
      rw [Nat.add_sub_cancel, mul_assoc]
      exact hf.two_mul_le_entries hgood

end BPTreeDB.PageStore
