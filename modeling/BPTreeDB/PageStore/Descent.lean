import BPTreeDB.PageStore.Cascade

/-!
# The descent to a leaf

`_find_leaf` follows the separators from the root.  What it finds is a place: the leaf
and the path to it.  All keys and separators left of the place are below the key and
all to its right are above it, so whatever the tree knows about the key is in this leaf.
-/

namespace BPTreeDB.PageStore

open Lib Codec BPlusTree BufferPool Lib.Program

variable {L h H : ℕ}

/-! ## Binary search -/

theorem bisectRight_spec (keys : List Bytes) (key : Bytes) :
    (∀ k ∈ keys.take (bisectRight keys key), k ≤ key) ∧
      (∀ k ∈ (keys.drop (bisectRight keys key)).head?, key < k) ∧
      bisectRight keys key ≤ keys.length := by
  induction keys with
  | nil => simp [bisectRight]
  | cons k keys ih =>
      simp only [bisectRight] at ih ⊢
      by_cases hk : k ≤ key
      · simp only [hk, decide_true, List.takeWhile_cons_of_pos, List.length_cons,
          List.take_succ_cons, List.mem_cons, forall_eq_or_imp, true_and, List.drop_succ_cons]
        exact ⟨ih.1, ih.2.1, by omega⟩
      · simp only [hk, decide_false, Bool.false_eq_true, not_false_eq_true,
          List.takeWhile_cons_of_neg, List.length_nil, List.take_zero, List.not_mem_nil,
          false_implies, implies_true, List.drop_zero, List.head?_cons, Option.mem_def,
          Option.some.injEq, true_and]
        exact ⟨fun x hx => hx ▸ not_le.mp hk, by simp⟩

/-- The child behind the slot index of a place. -/
theorem childAt_place (lsn : ℕ) (left : List (Tree h × Bytes)) (t : Tree h)
    (right : List (Bytes × Tree h)) :
    childAt ⟨lsn, nodeFirst left t, nodeSlots left t ++ rightSlots right⟩ ((left.length : ℤ) - 1) =
      some (Tree.id h t) := by
  rcases List.eq_nil_or_concat left with rfl | ⟨left, ⟨a, s⟩, rfl⟩
  · simp [childAt]
  · rw [List.concat_eq_append, nodeSlots_append]
    have hidx : (((left ++ [(a, s)]).length : ℤ) - 1) = left.length := by simp
    have hne : (left.length : ℤ) ≠ -1 := by omega
    rw [hidx, childAt, if_neg hne, Int.toNat_natCast, List.append_assoc,
      List.getElem?_append_right (by simp)]
    simp

/-! ## Places of a key -/

/-- Everything before a place is below the key, everything after it above. -/
def Between (key : Bytes) (before after : List Item) : Prop :=
  (∀ x ∈ tokens before, x < keyToken key) ∧ ∀ x ∈ tokens after, keyToken key < x

theorem Between.frame {key : Bytes} {c : Ctx (h + 1) H} {id : ℕ} {left : List (Tree h × Bytes)}
    {t : Tree h} {right : List (Bytes × Tree h)}
    (hsorted : (tokens (Tree.items H (c.plug (.node (mkNode id left t right))))).Pairwise (· < ·))
    (hb : Between key c.before c.after) (hleft : ∀ k ∈ left.map Prod.snd, k ≤ key)
    (hright : ∀ k ∈ (right.map Prod.fst).head?, key < k) :
    Between key (Ctx.frame id left right c).before (Ctx.frame id left right c).after := by
  rw [items_around_one] at hsorted
  simp only [tokens_append, List.append_assoc] at hsorted
  have hsorted' := (List.pairwise_append.mp hsorted).2.1
  constructor
  · intro x hx
    simp only [Ctx.before, tokens_append, List.mem_append] at hx
    rcases hx with hx | hx
    · exact hb.1 x hx
    · -- The last separator on the left is the largest token there.
      rcases List.eq_nil_or_concat left with rfl | ⟨left, ⟨a, s⟩, rfl⟩
      · simp [leftItems] at hx
      · have hlast : sepToken s < keyToken key :=
          sepToken_lt_keyToken.mpr (hleft s (by simp))
        rw [List.concat_eq_append] at hx hsorted'
        have hitems : leftItems (left ++ [(a, s)]) =
            (leftItems left ++ Tree.items h a) ++ [.sep s] := by
          simp [leftItems]
        rw [hitems, tokens_append] at hx hsorted'
        rw [List.append_assoc] at hsorted'
        have hpair := (List.pairwise_append.mp hsorted').2.2
        rcases List.mem_append.mp hx with hx | hx
        · exact (hpair x hx (sepToken s) (by simp)).trans hlast
        · simp only [tokens_cons, tokens_nil, Item.tokens_sep, List.append_nil,
            List.mem_singleton] at hx
          exact hx ▸ hlast
  · intro x hx
    simp only [Ctx.after, tokens_append, List.mem_append] at hx
    rcases hx with hx | hx
    · rcases right with _ | ⟨⟨s, b⟩, right⟩
      · simp [rightItems] at hx
      · have hfirst : keyToken key < sepToken s :=
          keyToken_lt_sepToken.mpr (hright s (by simp))
        -- The first separator on the right is the smallest token there.
        have hpair := (List.pairwise_append.mp (List.pairwise_append.mp hsorted').2.1).2.1
        simp only [rightItems, List.flatMap_cons, List.cons_append, tokens_cons, Item.tokens_sep,
          List.nil_append] at hx hpair
        rcases List.mem_cons.mp hx with rfl | hx
        · exact hfirst
        · exact hfirst.trans (List.rel_of_pairwise_cons hpair (List.mem_append_left _ hx))
    · exact hb.2 x hx

/-! ## The descent -/

/-- A descent reached a leaf. -/
structure Found (L : ℕ) (T : Tree H) (key : Bytes) (root : ℕ) (owned : List ℕ) (n : ℕ) (c : Ctx 0 H)
    (l : Leaf) (P : ℕ) (S : Store) : Prop where
  plug : c.plug (.leaf l) = T
  between : Between key c.before c.after
  conf : Conf P L root (Tree.pages H T) owned [] (l.id :: c.path.map (·.parentPageId)) n S

theorem findLeafLoop_spec {T : Tree H} {key : Bytes} {P root : ℕ} {owned : List ℕ} {n : ℕ}
    (hordered : Ordered (Tree.items H T)) :
    ∀ (h : ℕ) (c : Ctx h H) (t : Tree h) (fuel : ℕ) (path : List PathItem) (S : Store),
      c.plug t = T → path.reverse = c.path → h < fuel → Between key c.before c.after →
      Conf P L root (Tree.pages H T) owned [] (Tree.id h t :: c.path.map (·.parentPageId))
        (n + h) S →
      ∃ S' c' l, findLeafLoop key fuel (Tree.id h t) path S = .ok (l.id, c'.path.reverse) S' ∧
        S'.toContent = S.toContent ∧ Found L T key root owned n c' l P S' := by
  intro h
  induction h with
  | zero =>
      intro c t fuel path S hplug hpath hfuel hbetween hc
      obtain ⟨l, rfl⟩ := t.exists_leaf
      obtain ⟨fuel, rfl⟩ : ∃ k, fuel = k + 1 := ⟨fuel - 1, by omega⟩
      have hmem : (l.id, Tree.page 0 (.leaf l)) ∈ Tree.pages H T := by
        rw [← hplug]
        exact (c.pages_plug _).mem_iff.mpr (by simp [Tree.pages])
      obtain ⟨page, hderef, hp, -⟩ := hc.deref hmem
      rw [eq_leaf_of_stripLsn hp] at hderef
      refine ⟨S, c, l, ?_, rfl, hplug, hbetween, hc⟩
      simp only [findLeafLoop, run_bind, Tree.id_leaf, hderef, run_pure, ← hpath,
        List.reverse_reverse]
  | succ h ih =>
      intro c t fuel path S hplug hpath hfuel hbetween hc
      obtain ⟨nd, rfl⟩ := t.exists_node
      obtain ⟨fuel, rfl⟩ : ∃ k, fuel = k + 1 := ⟨fuel - 1, by omega⟩
      obtain ⟨hle, hgt, hlen⟩ := bisectRight_spec (nd.rest.map Prod.fst) key
      set i := bisectRight (nd.rest.map Prod.fst) key with hi
      -- The node is opened at the child whose separators enclose the key.
      obtain ⟨left, t', hlength, hfirst, hrest, hkeys⟩ :=
        exists_hole nd.first nd.rest i (by simpa using hlen)
      have hnode : nd = mkNode nd.id left t' (nd.rest.drop i) := by
        rw [mkNode, ← hfirst, ← hrest]
      set right := nd.rest.drop i with hright
      have hplug' : (Ctx.frame nd.id left right c).plug t' = T := by
        rw [Ctx.plug, ← hnode]
        exact hplug
      have hmem : (nd.id, Page.internal ⟨0, nodeFirst left t', nodeSlots left t' ++
          rightSlots right⟩) ∈ Tree.pages H T := by
        rw [← hplug, ← page_mkNode nd.id, ← hnode]
        exact (c.pages_plug _).mem_iff.mpr (by simp [Tree.pages])
      obtain ⟨lsn, -, hderef, -⟩ := hc.derefInternal nd.id _ _ hmem
      have hidx : childSlotIndex ⟨lsn, nodeFirst left t', nodeSlots left t' ++ rightSlots right⟩
          key = (left.length : ℤ) - 1 := by
        rw [childSlotIndex]
        simp only [List.map_append, keys_nodeSlots, keys_rightSlots]
        rw [hkeys, hright, List.map_take, List.map_drop, List.take_append_drop, ← hi, hlength]
      have hchild : Tree.id h t' ∈ (Tree.pages H T).map Prod.fst := by
        rw [← hplug']
        exact ((Ctx.pages_plug _ t').map Prod.fst).mem_iff.mpr (by simp [Tree.pages])
      obtain ⟨S1, hget, hcontent, hc1⟩ := Conf.getPage (n := n + h) hc
        (Tree.id h t') hchild (by simp)
      -- The descent goes on with one more frame above it.
      obtain ⟨S2, c', l, hrun, hcontent', hfound⟩ := ih (.frame nd.id left right c) t' fuel
        (path ++ [⟨nd.id, (left.length : ℤ) - 1⟩]) S1 hplug' (by simp [Ctx.path, hpath]) (by omega)
        (Between.frame (by rw [← Ctx.plug, hplug']; exact hordered.sorted) hbetween
          (by rw [hkeys, List.map_take]; exact hle) (by rw [hright, List.map_drop]; exact hgt))
        (hc1.weaken (.refl _) (.refl _) (fun _ hx => hx) (fun x hx => by
          simpa [Ctx.path] using hx) le_rfl)
      refine ⟨S2, c', l, ?_, hcontent'.trans hcontent, hfound⟩
      simp only [findLeafLoop, run_bind, Tree.id_node, hderef, hidx, childAt_place, hget, hrun]

end BPTreeDB.PageStore
