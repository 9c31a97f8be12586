import BPTreeDB.PageStore.Standing

/-!
# Redistribution and merges

An underpopulated page takes slots from a sibling under the same parent, or is merged
with one.  Either way its parent is changed, and the place of the cascade moves there,
unless the parent keeps its limits.

Redistribution and merge both fail only if a page and its sibling do not fit on one
page although moving slots would leave the sibling underpopulated; that needs large
separators, which a regime with healthy pages excludes.
-/

namespace BPTreeDB.PageStore

open Lib Codec BPlusTree BufferPool Lib.Program

variable {R : Regime} {L lsn h H : ℕ}

/-! ## Siblings -/

/-- A sibling of `t` and where it stands: one of the neighbours `a`, `b` around the
separator `s`, the other one being `t`. -/
structure Beside (left : List (Tree h × Bytes)) (t : Tree h) (right : List (Bytes × Tree h))
    (sibling : SiblingId) (left' : List (Tree h × Bytes)) (a : Tree h) (s : Bytes) (b : Tree h)
    (right' : List (Bytes × Tree h)) : Prop where
  node : ∀ id, mkNode id left t right = mkNode id left' a ((s, b) :: right')
  sibling_id : Tree.id h (pick sibling.isLeft a b) = sibling.pageId
  page_eq : pick sibling.isLeft b a = t
  idx : separatorIdx sibling ((left.length : ℤ) - 1) = left'.length
  sibling_mem : (∃ k, (pick sibling.isLeft a b, k) ∈ left) ∨ ∃ k,
    (k, pick sibling.isLeft a b) ∈ right
  left_subset : left' ⊆ left
  right_subset : right' ⊆ right

theorem beside_left (left : List (Tree h × Bytes)) (a t : Tree h) (s : Bytes)
    (right : List (Bytes × Tree h)) :
    Beside (left ++ [(a, s)]) t right ⟨true, Tree.id h a⟩ left a s t right where
  node id := mkNode_append id left a t s right
  sibling_id := rfl
  page_eq := rfl
  idx := by simp [separatorIdx]
  sibling_mem := .inl ⟨s, by simp [pick]⟩
  left_subset := List.subset_append_left _ _
  right_subset := List.Subset.refl _

theorem beside_right (left : List (Tree h × Bytes)) (t b : Tree h) (s : Bytes)
    (right : List (Bytes × Tree h)) :
    Beside left t ((s, b) :: right) ⟨false, Tree.id h b⟩ left t s b right where
  node _ := rfl
  sibling_id := rfl
  page_eq := rfl
  idx := by simp [separatorIdx]
  sibling_mem := .inr ⟨s, by simp [pick]⟩
  left_subset := List.Subset.refl _
  right_subset := List.subset_cons_self _ _

section Siblings

variable {id : ℕ} {left : List (Tree h × Bytes)} {t : Tree h} {right : List (Bytes × Tree h)}
  {up : Ctx (h + 1) H} {P root n : ℕ} {pages : List (ℕ × Page)}
  {owned pend hot : List ℕ} {S : Store}

/-- What is known about a list of fetched siblings. -/
def Siblings (left : List (Tree h × Bytes)) (t : Tree h) (right : List (Bytes × Tree h))
    (siblings : List SiblingId) : Prop :=
  ∀ sibling ∈ siblings, ∃ left' a s b right', Beside left t right sibling left' a s b right'

theorem id_mem_leftPages {a : Tree h} {s : Bytes} (hmem : (a, s) ∈ left) :
    Tree.id h a ∈ (leftPages left).map Prod.fst := by
  simp only [leftPages, List.map_flatMap, List.mem_flatMap]
  exact ⟨(a, s), hmem, Tree.id_mem_pageIds a⟩

theorem id_mem_rightPages {b : Tree h} {s : Bytes} (hmem : (s, b) ∈ right) :
    Tree.id h b ∈ (rightPages right).map Prod.fst := by
  simp only [rightPages, List.map_flatMap, List.mem_flatMap]
  exact ⟨(s, b), hmem, Tree.id_mem_pageIds b⟩

theorem leftSiblingId_spec (left : List (Tree h × Bytes)) (t : Tree h)
    (right : List (Bytes × Tree h)) (parentLsn : ℕ) :
    ∃ lefts : Option ℕ,
      leftSiblingId ⟨parentLsn, nodeFirst left t, nodeSlots left t ++ rightSlots right⟩
        ((left.length : ℤ) - 1) = lefts ∧
      lefts.toList.Sublist ((leftPages left).map Prod.fst) ∧
      Siblings left t right (lefts.toList.map (⟨true, ·⟩)) ∧ (left ≠ [] → lefts.toList ≠ []) := by
  rcases List.eq_nil_or_concat left with rfl | ⟨left, ⟨a, s⟩, rfl⟩
  · refine ⟨none, ?_, by simp, by simp [Siblings], by simp⟩
    simpa using leftSiblingId_nil t right parentLsn
  · rw [List.concat_eq_append]
    refine ⟨some (Tree.id h a), ?_, ?_, ?_, by simp⟩
    · have := leftSiblingId_append left a t s right parentLsn
      rw [nodeFirst_append, nodeSlots_append]
      simpa [rightSlots] using this
    · exact List.singleton_sublist.mpr (id_mem_leftPages (s := s) (by simp))
    · intro sibling hmem
      rw [Option.toList_some, List.map_singleton, List.mem_singleton] at hmem
      subst hmem
      exact ⟨_, _, _, _, _, beside_left left a t s right⟩

theorem rightSiblingId_spec (left : List (Tree h × Bytes)) (t : Tree h)
    (right : List (Bytes × Tree h)) (parentLsn : ℕ) :
    ∃ rights : Option ℕ,
      rightSiblingId ⟨parentLsn, nodeFirst left t, nodeSlots left t ++ rightSlots right⟩
        ((left.length : ℤ) - 1) = rights ∧
      rights.toList.Sublist ((rightPages right).map Prod.fst) ∧
      Siblings left t right (rights.toList.map (⟨false, ·⟩)) ∧
      (right ≠ [] → rights.toList ≠ []) := by
  rcases right with _ | ⟨⟨s, b⟩, right⟩
  · exact ⟨none, rightSiblingId_nil left t parentLsn, by simp, by simp [Siblings], by simp⟩
  · refine ⟨some (Tree.id h b), rightSiblingId_cons left t b s right parentLsn, ?_, ?_, by simp⟩
    · exact List.singleton_sublist.mpr (id_mem_rightPages (s := s) (by simp))
    · intro sibling hmem
      rw [Option.toList_some, List.map_singleton, List.mem_singleton] at hmem
      subst hmem
      exact ⟨_, _, _, _, _, beside_right left t b s right⟩

/-- The ids of a child, its parent and its siblings are different pages. -/
theorem siblings_subperm (up : Ctx (h + 1) H) (id : ℕ) (t : Tree h) {lefts rights : List ℕ}
    (hl : lefts.Sublist ((leftPages left).map Prod.fst))
    (hr : rights.Sublist ((rightPages right).map Prod.fst)) :
    (Tree.id h t :: id :: (lefts ++ rights)).Subperm
      (Tree.pageIds H (up.plug (.node (mkNode id left t right)))) := by
  have hperm := (pages_around_one up id left right t).map Prod.fst
  refine .trans ?_ hperm.symm.subperm
  simp only [List.map_cons, aside, List.map_append, List.append_assoc]
  refine List.Sublist.subperm (.cons_cons _ (.cons_cons _ (hl.append ?_)))
  exact (hr.trans (List.sublist_append_left _ _)).trans (List.sublist_append_right _ _)

/-- Fetching a sibling. -/
theorem fetchSibling_spec (hc : Conf P L root pages owned pend hot (n + 1) S) (isLeft : Bool)
    (o : Option ℕ) (hmem : ∀ x ∈ o.toList, x ∈ pages.map Prod.fst ∧ x ∉ pend) :
    ∃ S', fetchSibling isLeft o S = .ok (o.toList.map (⟨isLeft, ·⟩)) S' ∧
      Conf P L root pages owned pend (o.toList ++ hot) n S' := by
  cases o with
  | none => exact ⟨S, rfl, hc.le_budget n (Nat.le_succ n)⟩
  | some x =>
      obtain ⟨S', hget, -, hc'⟩ := hc.getPage x (hmem x (by simp)).1 (hmem x (by simp)).2
      exact ⟨S', by simp [fetchSibling, run_bind, hget], hc'⟩

/-- Fetching the siblings of a page. -/
theorem determineSameParentSiblings_spec
    (hc : Conf P L root (Tree.pages H (up.plug (.node (mkNode id left t right)))) owned
      [Tree.id h t] hot (n + 2) S)
    (hkeys : left.map Prod.snd ++ right.map Prod.fst ≠ []) (parentLsn : ℕ) :
    (Tree.id h t :: id :: siblingIds
      ⟨parentLsn, nodeFirst left t, nodeSlots left t ++ rightSlots right⟩
      ((left.length : ℤ) - 1)).Nodup ∧
    ∃ S' siblings, determineSameParentSiblings
        ⟨parentLsn, nodeFirst left t, nodeSlots left t ++ rightSlots right⟩
        ((left.length : ℤ) - 1) S = .ok siblings S' ∧
      Conf P L root (Tree.pages H (up.plug (.node (mkNode id left t right)))) owned
        [Tree.id h t] (siblings.map (·.pageId) ++ hot) n S' ∧
      Siblings left t right siblings ∧ siblings ≠ [] := by
  obtain ⟨lefts, hlefts, hsubl, hbl, hnel⟩ := leftSiblingId_spec left t right parentLsn
  obtain ⟨rights, hrights, hsubr, hbr, hner⟩ := rightSiblingId_spec left t right parentLsn
  have hsub := siblings_subperm up id t hsubl hsubr
  have hnodup : (Tree.id h t :: id :: (lefts.toList ++ rights.toList)).Nodup := by
    obtain ⟨l, hperm, hsublist⟩ := hsub
    exact hperm.nodup_iff.mp (hsublist.nodup hc.holds.nodup)
  have hmem : ∀ x ∈ lefts.toList ++ rights.toList,
      x ∈ (Tree.pages H (up.plug (.node (mkNode id left t right)))).map Prod.fst ∧
        x ∉ [Tree.id h t] := by
    intro x hx
    refine ⟨List.Subperm.subset hsub (List.mem_cons_of_mem _ (List.mem_cons_of_mem _ hx)), ?_⟩
    rintro hxt
    rw [List.mem_singleton] at hxt
    subst hxt
    exact (List.nodup_cons.mp hnodup).1 (List.mem_cons_of_mem _ hx)
  refine ⟨by rwa [siblingIds, hlefts, hrights], ?_⟩
  obtain ⟨S1, hfetch1, hc1⟩ := fetchSibling_spec hc true lefts
    fun x hx => hmem x (List.mem_append_left _ hx)
  obtain ⟨S2, hfetch2, hc2⟩ := fetchSibling_spec hc1 false rights
    fun x hx => hmem x (List.mem_append_right _ hx)
  refine ⟨S2, lefts.toList.map (⟨true, ·⟩) ++ rights.toList.map (⟨false, ·⟩), ?_, ?_, ?_, ?_⟩
  · simp only [determineSameParentSiblings, hlefts, hrights, run_bind, hfetch1, hfetch2, run_pure]
  · refine hc2.weaken (.refl _) (.refl _) (fun _ hx => hx) (fun x hx => ?_) le_rfl
    simp only [List.map_append, List.map_map, List.mem_append, List.mem_map, Function.comp_apply,
      exists_eq_right] at hx ⊢
    tauto
  · intro sibling hsibling
    rcases List.mem_append.mp hsibling with hs | hs
    · exact hbl sibling hs
    · exact hbr sibling hs
  · intro hnil
    simp only [List.append_eq_nil_iff, List.map_eq_nil_iff] at hnil
    refine hkeys ?_
    rw [List.append_eq_nil_iff, List.map_eq_nil_iff, List.map_eq_nil_iff]
    exact ⟨by_contra fun h => hnel h hnil.1, by_contra fun h => hner h hnil.2⟩

end Siblings

/-! ## Redistribution -/

section Redistribution

variable {id : ℕ} {left left' : List (Tree h × Bytes)} {t a b : Tree h} {s : Bytes}
  {right right' : List (Bytes × Tree h)} {up : Ctx (h + 1) H} {n : ℕ} {pend hot : List ℕ}
  {S : Store} {sibling : SiblingId}

/-- The separator keys of the parent. -/
theorem Beside.keys (hb : Beside left t right sibling left' a s b right') :
    left.map Prod.snd ++ right.map Prod.fst = left'.map Prod.snd ++ s :: right'.map Prod.fst := by
  have := congrArg (fun n => n.rest.map Prod.fst) (hb.node 0)
  simpa only [mkNode, keys_joinRest, List.map_cons] using this

/-- New neighbours with the same merge. -/
structure Rotated (R : Regime) (h : ℕ) (a : Tree h) (s : Bytes) (b : Tree h) (a' : Tree h)
    (s' : Bytes) (b' : Tree h) : Prop where
  merge : Tree.merge h a' s' b' = Tree.merge h a s b
  id_eq : Tree.id h b' = Tree.id h b
  linked : Tree.Linked h a' b'
  fresh : Tree.Fresh h s' b'
  length_le : s'.length ≤ R.maxKey
  goodA : Tree.RootGood R false h a'
  goodB : Tree.RootGood R false h b'

/-- The pages of a successful rotation keep their limits. -/
theorem RotationSpec.rotated (hP : 112 ≤ R.pageSize) {isLeft : Bool} {r r' : Rotation}
    (hspec : RotationSpec R isLeft h (Tree.merge h a s b) (Tree.id h b) r (r', .succeeded))
    (hdonor : calculatePageSize r.donor ≤ R.pageSize) :
    ∃ a' s' b', Rotated R h a s b a' s' b' ∧ r'.separator = s' ∧
      stripLsn r'.donor = Tree.page h (pick isLeft a' b') ∧ pageLsn r'.donor = pageLsn r.donor ∧
      stripLsn r'.recipient = Tree.page h (pick isLeft b' a') ∧
      pageLsn r'.recipient = pageLsn r.recipient := by
  obtain ⟨⟨a', s', b', hrot, hfresh⟩, hlsn, hlsn', hd, hr, hle, hle'⟩ := hspec
  have hcap := R.slotCap_le hP h
  have hcapped := hrot.capped
  rw [← hrot.merge, Tree.capped_merge] at hcapped
  simp only [calculatePageSize_of_stripLsn hrot.donor,
    calculatePageSize_of_stripLsn hrot.recipient] at hd hr hle hle'
  have hrecipient : Tree.size h (pick isLeft b' a') ≤ R.pageSize := by
    simp only [maxUnder] at hle'
    omega
  refine ⟨a', s', b', ⟨hrot.merge, hrot.id, hrot.linked, hfresh, hrot.length_le, ?_, ?_⟩,
    hrot.separator, hrot.donor, hlsn, hrot.recipient, hlsn'⟩
  · cases isLeft with
    | false => exact rootGood_of_size hP hcapped.1 hrecipient hr
    | true => exact rootGood_of_size hP hcapped.1 (hle.trans hdonor) hd
  · cases isLeft with
    | false => exact rootGood_of_size hP hcapped.2.1 (hle.trans hdonor) hd
    | true => exact rootGood_of_size hP hcapped.2.1 hrecipient hr

/-- The pages of a rotation in the store. -/
theorem assign_rotation {P root : ℕ} {owned : List ℕ} {isLeft : Bool} {donor recipient : Page}
    {parentLsn : ℕ} {others : List (ℕ × Page)} {a' b' : Tree h} (s' : Bytes)
    (hc : Conf P L root ((id, .internal ⟨0, nodeFirst left' a,
        nodeSlots left' a ++ rightSlots ((s, b) :: right')⟩) ::
      (Tree.id h a, Tree.page h a) :: (Tree.id h b, Tree.page h b) :: others) owned pend hot n S)
    (hidA : Tree.id h a' = Tree.id h a) (hidB : Tree.id h b' = Tree.id h b)
    (hdonor : stripLsn donor = Tree.page h (pick isLeft a' b')) (hdlsn : pageLsn donor ≤ L)
    (hrecipient : stripLsn recipient = Tree.page h (pick isLeft b' a'))
    (hrlsn : pageLsn recipient ≤ L) (hplsn : parentLsn ≤ L) :
    ∃ S1 S2 S3, assign (Tree.id h (pick isLeft a b)) donor S = .ok () S1 ∧
      assign (Tree.id h (pick isLeft b a)) recipient S1 = .ok () S2 ∧
      assign id (.internal (setSeparator ⟨parentLsn, nodeFirst left' a,
        nodeSlots left' a ++ rightSlots ((s, b) :: right')⟩ left'.length s')) S2 = .ok () S3 ∧
      Conf P L root ((id, .internal ⟨0, nodeFirst left' a',
          nodeSlots left' a' ++ rightSlots ((s', b') :: right')⟩) ::
        (Tree.id h a', Tree.page h a') :: (Tree.id h b', Tree.page h b') :: others) owned
        (id :: Tree.id h (pick isLeft b a) :: Tree.id h (pick isLeft a b) :: pend) hot n S3 := by
  have hslots : nodeSlots left' a' ++ rightSlots ((s', b') :: right') =
      nodeSlots left' a ++ rightSlots ((s', b) :: right') := by
    rw [(nodeSlots_congr hidA left').1]
    simp [rightSlots, hidB]
  rw [hslots, (nodeSlots_congr hidA left').2, hidA, hidB, setSeparator_place]
  cases isLeft with
  | false =>
      obtain ⟨S1, h1, hc1⟩ := hc.assignThird donor hdlsn
      obtain ⟨S2, h2, hc2⟩ := hc1.assignSecond recipient hrlsn
      obtain ⟨S3, h3, hc3⟩ := hc2.assign (.internal ⟨parentLsn, nodeFirst left' a,
        nodeSlots left' a ++ rightSlots ((s', b) :: right')⟩) hplsn
      rw [hdonor, hrecipient] at hc3
      exact ⟨S1, S2, S3, h1, h2, h3, hc3⟩
  | true =>
      obtain ⟨S1, h1, hc1⟩ := hc.assignSecond donor hdlsn
      obtain ⟨S2, h2, hc2⟩ := hc1.assignThird recipient hrlsn
      obtain ⟨S3, h3, hc3⟩ := hc2.assign (.internal ⟨parentLsn, nodeFirst left' a,
        nodeSlots left' a ++ rightSlots ((s', b) :: right')⟩) hplsn
      rw [hdonor, hrecipient] at hc3
      exact ⟨S1, S2, S3, h1, h2, h3, hc3⟩

/-- What is known about a page that is rebalanced and its sibling. -/
structure Partners (R : Regime) (isLeft : Bool) (a : Tree h) (s : Bytes) (b : Tree h) : Prop where
  capped : Tree.Capped R h (Tree.merge h a s b)
  length_le : s.length ≤ R.maxKey
  linked : Tree.Linked h a b
  sibling : Tree.Good R false h (pick isLeft a b)
  below : Tree.BelowGood R h (Tree.merge h a s b)

theorem Standing.partners (hs : Standing R L (.frame id left right up) t n S)
    (hb : Beside left t right sibling left' a s b right') : Partners R sibling.isLeft a s b := by
  obtain ⟨hgood, hleftGood, hrightGood, -⟩ := hs.outside
  have hsibling : Tree.Good R false h (pick sibling.isLeft a b) := by
    rcases hb.sibling_mem with ⟨k, hmem⟩ | ⟨k, hmem⟩
    · exact hleftGood _ hmem
    · exact hrightGood _ hmem
  have hlen : s.length ≤ R.maxKey := hgood.capped s (by rw [hb.keys]; simp)
  have hcapped := hs.capped
  have hbelow := hs.below
  have hordered := hs.ordered
  rw [Ctx.plug, hb.node, items_around_two] at hordered
  have hcappedSibling := (Tree.rootGood_iff.mp (Tree.good_iff.mp hsibling).1).1
  have hbelowSibling := (Tree.good_iff.mp hsibling).2
  rw [← hb.page_eq] at hcapped hbelow
  refine ⟨Tree.capped_merge.mpr ?_, hlen, hordered.linked_neighbours, hsibling,
    Tree.belowGood_merge.mpr ?_⟩
  · cases hside : sibling.isLeft with
    | false =>
        simp only [hside, pick] at hcapped hcappedSibling
        exact ⟨hcapped, hcappedSibling, fun _ => hlen⟩
    | true =>
        simp only [hside, pick] at hcapped hcappedSibling
        exact ⟨hcappedSibling, hcapped, fun _ => hlen⟩
  · cases hside : sibling.isLeft with
    | false =>
        simp only [hside, pick] at hbelow hbelowSibling
        exact ⟨hbelow, hbelowSibling⟩
    | true =>
        simp only [hside, pick] at hbelow hbelowSibling
        exact ⟨hbelowSibling, hbelow⟩

/-- `_try_redistribute_slots` on two neighbours. -/
theorem tryRedistributeSlots_spec (hP : 112 ≤ R.pageSize) {isLeft : Bool} {root : ℕ}
    {owned : List ℕ} {others : List (ℕ × Page)} (hpart : Partners R isLeft a s b)
    (hunder : ¬ R.Healthy (Tree.size h (pick isLeft b a))) (hstopped : Stopped S)
    (hhot : ∀ x ∈ [id, Tree.id h (pick isLeft a b), Tree.id h (pick isLeft b a)], x ∈ hot)
    (hc : Conf R.pageSize L root ((id, .internal ⟨0, nodeFirst left' a,
        nodeSlots left' a ++ rightSlots ((s, b) :: right')⟩) ::
      (Tree.id h a, Tree.page h a) :: (Tree.id h b, Tree.page h b) :: others) owned pend hot n S) :
    (∃ S' a' s' b', tryRedistributeSlots (Tree.id h (pick isLeft a b)) (Tree.id h (pick isLeft b a))
          id left'.length isLeft S = .ok true S' ∧ Rotated R h a s b a' s' b' ∧
        Conf R.pageSize L root ((id, .internal ⟨0, nodeFirst left' a',
            nodeSlots left' a' ++ rightSlots ((s', b') :: right')⟩) ::
          (Tree.id h a', Tree.page h a') :: (Tree.id h b', Tree.page h b') :: others) owned
          (id :: Tree.id h (pick isLeft b a) :: Tree.id h (pick isLeft a b) :: pend) hot n S') ∨
    (tryRedistributeSlots (Tree.id h (pick isLeft a b)) (Tree.id h (pick isLeft b a))
          id left'.length isLeft S = .ok false S ∧
        Tree.size h (Tree.merge h a s b) + pageHeaderSize ≤
          2 * maxUnder R.pageSize + (medianAt h + 1) * R.slotCap h) ∨
    (∃ S', tryRedistributeSlots (Tree.id h (pick isLeft a b)) (Tree.id h (pick isLeft b a))
          id left'.length isLeft S = .error (.raised .indexError) S' ∧ ¬ R.healthyAt h ∧
        Stopped S') := by
  obtain ⟨parentLsn, hplsn, hparentDeref, hparent⟩ :=
    hc.derefInternal id _ _ (List.mem_cons_self ..)
  obtain ⟨donor, hdonor, hdstrip, hdlsn⟩ : ∃ page,
      deref (Tree.id h (pick isLeft a b)) S = .ok page S ∧
        stripLsn page = Tree.page h (pick isLeft a b) ∧ pageLsn page ≤ L :=
    hc.deref (by cases isLeft <;> simp [pick])
  obtain ⟨recipient, hrecipient, hrstrip, hrlsn⟩ : ∃ page,
      deref (Tree.id h (pick isLeft b a)) S = .ok page S ∧
        stripLsn page = Tree.page h (pick isLeft b a) ∧ pageLsn page ≤ L :=
    hc.deref (by cases isLeft <;> simp [pick])
  have hrotating : Rotating R isLeft h (Tree.merge h a s b) (Tree.id h b) a s b
      ⟨donor, recipient, s⟩ :=
    ⟨rfl, rfl, hpart.linked, hpart.capped, hpart.length_le, hdstrip, hrstrip, rfl⟩
  have hspec := rotateSlots_spec hP (slotCount donor + 2) hrotating (by simp only; omega)
    (.inl (by rw [calculatePageSize_of_stripLsn hrstrip]; exact hunder))
  have hsibling := Tree.rootGood_iff.mp (Tree.good_iff.mp hpart.sibling).1
  rw [← calculatePageSize_of_stripLsn hdstrip] at hsibling
  obtain ⟨-, hfits, -, hhealthy⟩ := hsibling
  -- The loop runs on the contents of the two pages, and `hspec` says how it ends.
  generalize hresult : rotateSlots R.pageSize isLeft (slotCount donor + 2) ⟨donor, recipient, s⟩ =
    result at hspec
  obtain ⟨r', outcome⟩ := result
  cases outcome with
  | succeeded =>
      obtain ⟨a', s', b', hrot, hsep, hd, hdl, hr, hrl⟩ := hspec.rotated hP hfits
      have hidA : Tree.id h a' = Tree.id h a := by
        rw [← Tree.id_merge a' b' s', hrot.merge, Tree.id_merge]
      obtain ⟨S1, S2, S3, h1, h2, h3, hc3⟩ := assign_rotation s' hc hidA hrot.id_eq hd
        (hdl.trans_le hdlsn) hr (hrl.trans_le hrlsn) hplsn
      refine .inl ⟨S3, a', s', b', ?_, hrot, hc3⟩
      simp only [tryRedistributeSlots, run_bind, run_get, hparent, getElem?_separator, hdonor,
        hrecipient, hc.pageSize, hresult, hsep, h1, h2, h3, run_pure]
  | donorExhausted =>
      refine .inr (.inl ⟨?_, hspec⟩)
      simp only [tryRedistributeSlots, run_bind, run_get, hparent, getElem?_separator, hdonor,
        hrecipient, hc.pageSize, hresult, run_pure]
  | raised e =>
      obtain ⟨rfl, hsmall⟩ := hspec
      -- The donor has run out of slots, which a half-full donor does not.
      have hunhealthy : ¬ R.healthyAt h := by
        intro hh
        have := hsmall (hhealthy rfl hh)
        have := R.thin_at hh
        omega
      -- The slots that were moved keep their children, so the store can still be read.
      have hmoved := childPageIds_rotateSlots isLeft R.pageSize (slotCount donor + 2)
        ⟨donor, recipient, s⟩
      rw [hresult] at hmoved
      have hstop := hstopped.assign_rotation (hc.touched _ (hhot _ (by simp)))
        (hc.touched _ (hhot _ (by simp))) (hc.touched _ (hhot _ (by simp)))
        (pages_of_deref hdonor) (pages_of_deref hrecipient) (pages_of_deref hparentDeref)
        left'.length r'.separator hmoved
      refine .inr (.inr ?_)
      simp only [tryRedistributeSlots, run_bind, run_get, hparent, getElem?_separator, hdonor,
        hrecipient, hc.pageSize, hresult, assign, run_modify, raise, run_throw]
      exact ⟨_, rfl, hunhealthy, hstop⟩

/-- What one round below a parent may end in. -/
def StepSpec (R : Regime) (L : ℕ) (up : Ctx (h + 1) H) (id n : ℕ) (entries : List LeafSlot) :
    EStateM.Result Fault Store (Option ℕ) → Prop
  | .ok (some parent) S => parent = id ∧ ∃ t, Tree.id (h + 1) t = id ∧ Standing R L up t n S ∧
      entriesOf (Tree.items H (up.plug t)) = entries
  | .ok none S => Settled R L entries S
  | .error (.raised e) S => ToleratedAt R h e ∧ Stopped S
  | .error .undisciplined _ => False

/-- After a rotation, the place is the parent. -/
theorem Standing.of_rotated {m : ℕ} {S₀ : Store}
    (hs : Standing R L (.frame id left right up) t m S₀)
    (hb : Beside left t right sibling left' a s b right') {a' b' : Tree h} {s' : Bytes}
    (hrot : Rotated R h a s b a' s' b')
    (hc : Conf R.pageSize L (Tree.id H (up.plug (.node (mkNode id left t right))))
      ((id, .internal ⟨0, nodeFirst left' a', nodeSlots left' a' ++
        rightSlots ((s', b') :: right')⟩) ::
        (Tree.id h a', Tree.page h a') :: (Tree.id h b', Tree.page h b') ::
        aside up left' right' (Tree.below h a ++ Tree.below h b)
          (.node (mkNode id left' a ((s, b) :: right'))))
      (Tree.pageIds H (up.plug (.node (mkNode id left t right)))) [id]
      (id :: up.path.map (·.parentPageId)) n S) :
    Standing R L up (.node (mkNode id left' a' ((s', b') :: right'))) n S ∧
      entriesOf (Tree.items H (up.plug (.node (mkNode id left' a' ((s', b') :: right'))))) =
        entriesOf (Tree.items H ((Ctx.frame id left right up).plug t)) := by
  obtain ⟨hgood, hleftGood, hrightGood, hupGood⟩ := hs.outside
  have hpart := hs.partners hb
  have hkeys := hb.keys
  have hbelow : Tree.below h a ++ Tree.below h b = Tree.below h a' ++ Tree.below h b' := by
    rw [← Tree.below_merge a b s, ← hrot.merge, Tree.below_merge]
  have hidA : Tree.id h a' = Tree.id h a := by
    rw [← Tree.id_merge a' b' s', hrot.merge, Tree.id_merge]
  have hbelowGood := hpart.below
  rw [← hrot.merge, Tree.belowGood_merge] at hbelowGood
  -- In document order a rotation is a merge and then another split.
  have hordered := hs.ordered
  rw [Ctx.plug, hb.node, items_around_two] at hordered
  have hcount := (Tree.rootGood_iff.mp hrot.goodA).2.2.1 (.inl rfl)
  have hordered' := hordered.merge
  rw [← hrot.merge] at hordered'
  refine ⟨⟨?_, ?_, hupGood, ?_, ?_, ?_, ?_⟩, ?_⟩
  · refine conf_around_two hc rfl ⟨rfl, rfl⟩ ⟨rfl, rfl⟩ ?_ (up.id_plug rfl) ?_
    · rw [hbelow]
      exact aside_congr _ _ _ _ rfl
    · rw [hb.node, hidA, hrot.id_eq]
      refine ((pages_around_two up id left' right' a b s).map Prod.fst).trans ?_
      simp only [List.map_cons, List.perm_iff_count, List.count_cons]
      intro x
      omega
  · rw [items_around_two]
    exact hordered'.split hrot.linked hrot.fresh hcount
  · rw [belowGood_mkNode]
    refine ⟨fun e he => hleftGood e (hb.left_subset he),
      Tree.good_iff.mpr ⟨hrot.goodA, hbelowGood.1⟩, fun e he => ?_⟩
    rcases List.mem_cons.mp he with rfl | he
    · exact Tree.good_iff.mpr ⟨hrot.goodB, hbelowGood.2⟩
    · exact hrightGood e (hb.right_subset he)
  · rw [capped_mkNode]
    have hcapped := hgood.capped
    rw [hkeys] at hcapped
    intro k hk
    simp only [List.map_cons, List.mem_append, List.mem_cons] at hk
    rcases hk with hk | rfl | hk
    · exact hcapped k (by simp only [List.mem_append]; exact .inl hk)
    · exact hrot.length_le
    · exact hcapped k (by simp only [List.mem_append, List.mem_cons]; exact .inr (.inr hk))
  · have hfits := hgood.fits
    have hsize := size_insert_separator (left'.map Prod.snd) (right'.map Prod.fst) s'
    have hsep := sepSize_le_slotCap (h := h) hrot.length_le
    rw [hkeys, size_insert_separator] at hfits
    rw [size_mkNode, List.map_cons, hsize]
    omega
  · intro _ _
    rw [slotCount_mkNode]
    simp
  · rw [Ctx.plug, hb.node, items_around_two, items_around_two]
    simp only [entriesOf_append, entriesOf_sep]
    have hentries := entriesOf_merge a' b' s'
    rw [hrot.merge, entriesOf_merge] at hentries
    simp only [entriesOf_append, entriesOf_sep] at hentries
    rw [hentries]

/-- The configuration of a whole tree, around a page and its sibling. -/
theorem conf_beside {root : ℕ} {owned : List ℕ}
    (hb : Beside left t right sibling left' a s b right')
    (hc : Conf R.pageSize L root (Tree.pages H (up.plug (.node (mkNode id left t right)))) owned
      pend hot n S) :
    Conf R.pageSize L root ((id, .internal ⟨0, nodeFirst left' a,
        nodeSlots left' a ++ rightSlots ((s, b) :: right')⟩) ::
      (Tree.id h a, Tree.page h a) :: (Tree.id h b, Tree.page h b) ::
      aside up left' right' (Tree.below h a ++ Tree.below h b)
        (.node (mkNode id left' a ((s, b) :: right')))) owned pend hot n S := by
  rw [hb.node] at hc
  refine hc.perm _ ((pages_around_two up id left' right' a b s).trans ?_)
  rw [page_mkNode]
  simp only [List.perm_iff_count, List.count_cons]
  intro x
  omega

/-- The redistribution loop: a sibling helps, or none does and nothing has changed. -/
theorem redistributeWith_spec (hP : 112 ≤ R.pageSize) {m : ℕ} {S₀ : Store}
    (hs : Standing R L (.frame id left right up) t m S₀)
    (hunder : ¬ R.Healthy (Tree.size h t)) {root : ℕ} {owned : List ℕ}
    (hc : Conf R.pageSize L root (Tree.pages H (up.plug (.node (mkNode id left t right)))) owned
      pend hot n S) (siblings : List SiblingId) (hsib : Siblings left t right siblings)
    (hstopped : Stopped S) (hhot : ∀ x ∈ id :: Tree.id h t :: siblings.map (·.pageId), x ∈ hot) :
    (∃ sibling ∈ siblings, ∃ S' left' a s b right' a' s' b',
        redistributeWith (Tree.id h t) id ((left.length : ℤ) - 1) siblings S =
          .ok (some sibling) S' ∧
        Beside left t right sibling left' a s b right' ∧ Rotated R h a s b a' s' b' ∧
        Conf R.pageSize L root ((id, .internal ⟨0, nodeFirst left' a',
            nodeSlots left' a' ++ rightSlots ((s', b') :: right')⟩) ::
          (Tree.id h a', Tree.page h a') :: (Tree.id h b', Tree.page h b') ::
          aside up left' right' (Tree.below h a ++ Tree.below h b)
            (.node (mkNode id left' a ((s, b) :: right')))) owned
          (id :: Tree.id h t :: sibling.pageId :: pend) hot n S') ∨
    (redistributeWith (Tree.id h t) id ((left.length : ℤ) - 1) siblings S = .ok none S ∧
        ∀ sibling ∈ siblings, ∀ left' a s b right', Beside left t right sibling left' a s b right' →
          Tree.size h (Tree.merge h a s b) + pageHeaderSize ≤
            2 * maxUnder R.pageSize + (medianAt h + 1) * R.slotCap h) ∨
    (∃ S', redistributeWith (Tree.id h t) id ((left.length : ℤ) - 1) siblings S =
        .error (.raised .indexError) S' ∧ ¬ R.healthyAt h ∧ Stopped S') := by
  induction siblings with
  | nil => exact .inr (.inl ⟨rfl, by simp⟩)
  | cons sibling rest ih =>
      obtain ⟨left', a, s, b, right', hb⟩ := hsib sibling (List.mem_cons_self ..)
      have hids : ∀ x ∈ [id, sibling.pageId, Tree.id h t], x ∈ hot := by
        intro x hx
        refine hhot x ?_
        simp only [List.mem_cons, List.map_cons, List.not_mem_nil, or_false] at hx ⊢
        tauto
      have htry := tryRedistributeSlots_spec hP (hs.partners hb)
        (by rw [hb.page_eq]; exact hunder) hstopped
        (by rw [hb.sibling_id, hb.page_eq]; exact hids) (conf_beside hb hc)
      rw [hb.sibling_id, hb.page_eq, ← hb.idx] at htry
      rcases htry with ⟨S', a', s', b', hrun, hrot, hc'⟩ | ⟨hrun, -⟩ | ⟨S', hrun, hunhealthy⟩
      · refine .inl ⟨sibling, List.mem_cons_self .., S', left', a, s, b, right', a', s', b', ?_, hb,
          hrot, hc'⟩
        simp only [redistributeWith, run_bind, hrun, if_true, run_pure]
      -- Nothing has changed, and the next sibling is tried.
      · have hnext : redistributeWith (Tree.id h t) id ((left.length : ℤ) - 1) (sibling :: rest) S =
            redistributeWith (Tree.id h t) id ((left.length : ℤ) - 1) rest S := by
          simp [redistributeWith, run_bind, hrun]
        rw [hnext]
        have hrest : ∀ x ∈ id :: Tree.id h t :: rest.map (·.pageId), x ∈ hot := by
          intro x hx
          refine hhot x ?_
          simp only [List.mem_cons, List.map_cons] at hx ⊢
          tauto
        rcases ih (fun x hx => hsib x (List.mem_cons_of_mem _ hx)) hrest with
          ⟨other, hother, hrest⟩ | ⟨hnone, hall⟩ | herror
        · exact .inl ⟨other, List.mem_cons_of_mem _ hother, hrest⟩
        · refine .inr (.inl ⟨hnone, fun x hx left₂ a₂ s₂ b₂ right₂ hb₂ => ?_⟩)
          rcases List.mem_cons.mp hx with rfl | hx
          · -- The same attempt, for any other description of the sibling.
            have htry₂ := tryRedistributeSlots_spec hP (hs.partners hb₂)
              (by rw [hb₂.page_eq]; exact hunder) hstopped
              (by rw [hb₂.sibling_id, hb₂.page_eq]; exact hids) (conf_beside hb₂ hc)
            rw [hb₂.sibling_id, hb₂.page_eq, ← hb₂.idx, hrun] at htry₂
            rcases htry₂ with ⟨_, _, _, _, hfalse, -⟩ | ⟨-, hbound⟩ | ⟨_, hfalse, -⟩
            · cases hfalse
            · exact hbound
            · cases hfalse
          · exact hall x hx left₂ a₂ s₂ b₂ right₂ hb₂
        · exact .inr (.inr herror)
      · refine .inr (.inr ⟨S', ?_, hunhealthy⟩)
        simp only [redistributeWith, run_bind, hrun]

end Redistribution

/-! ## Merging -/

section Merging

variable {id : ℕ} {left left' : List (Tree h × Bytes)} {t a b : Tree h} {s : Bytes}
  {right right' : List (Bytes × Tree h)} {up : Ctx (h + 1) H} {n : ℕ} {pend hot : List ℕ}
  {S : Store} {sibling : SiblingId}

theorem slotCount_merge (a b : Tree h) (s : Bytes) :
    slotCount (Tree.page h (Tree.merge h a s b)) =
      slotCount (Tree.page h a) + slotCount (Tree.page h b) + medianAt h := by
  cases h with
  | zero =>
      obtain ⟨a, rfl⟩ := a.exists_leaf
      obtain ⟨b, rfl⟩ := b.exists_leaf
      simp [slotCount, medianAt]
  | succ h =>
      obtain ⟨a, rfl⟩ := a.exists_node
      obtain ⟨b, rfl⟩ := b.exists_node
      simp only [Tree.merge_node, Tree.page_node, slotCount, List.length_map, List.length_append,
        List.length_cons, medianAt]
      omega

/-- A page that fits and was merged with a good sibling is good. -/
theorem Partners.good_merge {isLeft : Bool} (hpart : Partners R isLeft a s b)
    (hfits : Tree.size h (Tree.merge h a s b) ≤ R.pageSize) :
    Tree.Good R false h (Tree.merge h a s b) := by
  obtain ⟨-, -, hcount, hhealthy⟩ := Tree.rootGood_iff.mp (Tree.good_iff.mp hpart.sibling).1
  have hle : ∀ t : Tree h, pageHeaderSize ≤ Tree.size h t := fun t => Nat.le_add_right _ _
  have hsize := Tree.size_merge a b s
  have ha := hle a
  have hb := hle b
  refine Tree.good_iff.mpr ⟨Tree.rootGood_iff.mpr ⟨hpart.capped, hfits, fun _ => ?_,
    fun _ hh => ?_⟩,
    hpart.below⟩
  · have := hcount (.inl rfl)
    rw [slotCount_merge]
    cases isLeft <;> simp only [pick] at this <;> simp at this <;> omega
  · have := hhealthy rfl hh
    simp only [Regime.Healthy] at this ⊢
    cases isLeft <;> simp only [pick] at this <;> simp at this <;> omega

/-- After a merge, the place is the parent. -/
theorem Standing.of_merged {m : ℕ} {S₀ : Store}
    (hs : Standing R L (.frame id left right up) t m S₀)
    (hb : Beside left t right sibling left' a s b right')
    (hfits : Tree.size h (Tree.merge h a s b) ≤ R.pageSize)
    (hne : up.isTop = true → left'.length + right'.length ≠ 0) {owned : List ℕ}
    (hc : Conf R.pageSize L (Tree.id H (up.plug (.node (mkNode id left t right))))
      ((id, .internal ⟨0, nodeFirst left' a, nodeSlots left' a ++ rightSlots right'⟩) ::
        (Tree.id h a, Tree.page h (Tree.merge h a s b)) ::
        aside up left' right' (Tree.below h a ++ Tree.below h b)
          (.node (mkNode id left' a ((s, b) :: right')))) owned []
      (id :: up.path.map (·.parentPageId)) n S)
    (howned : owned.Perm (id :: Tree.id h a :: (aside up left' right'
      (Tree.below h a ++ Tree.below h b) (.node (mkNode id left' a ((s, b) :: right')))).map
        Prod.fst)) :
    Standing R L up (.node (mkNode id left' (Tree.merge h a s b) right')) n S := by
  obtain ⟨hgood, hleftGood, hrightGood, hupGood⟩ := hs.outside
  have hpart := hs.partners hb
  have hkeys := hb.keys
  have hcapped := hgood.capped
  have hsize := hgood.fits
  rw [hkeys] at hcapped hsize
  rw [size_insert_separator] at hsize
  have hidA : Tree.id h a = Tree.id h (Tree.merge h a s b) := by rw [Tree.id_merge]
  refine ⟨?_, ?_, hupGood, ?_, ?_, ?_, ?_⟩
  · refine (conf_around_one hc ?_ ⟨hidA, rfl⟩ ?_ (up.id_plug rfl) howned).weaken (.refl _) (.refl _)
      (by simp) (fun _ hx => hx) le_rfl
    · rw [(nodeSlots_congr hidA left').1, (nodeSlots_congr hidA left').2]
    · rw [Tree.below_merge]
      exact aside_congr _ _ _ _ rfl
  · have hordered := hs.ordered
    rw [Ctx.plug, hb.node, items_around_two] at hordered
    rw [items_around_one]
    exact hordered.merge
  · rw [belowGood_mkNode]
    exact ⟨fun e he => hleftGood e (hb.left_subset he), hpart.good_merge hfits,
      fun e he => hrightGood e (hb.right_subset he)⟩
  · rw [capped_mkNode]
    intro k hk
    refine hcapped k ?_
    simp only [List.mem_append, List.mem_cons] at hk ⊢
    tauto
  · rw [size_mkNode]
    omega
  · intro htop _
    rw [slotCount_mkNode]
    exact hne htop

theorem entriesOf_merged (up : Ctx (h + 1) H) (id : ℕ)
    (hb : Beside left t right sibling left' a s b right') :
    entriesOf (Tree.items H (up.plug (.node (mkNode id left' (Tree.merge h a s b) right')))) =
      entriesOf (Tree.items H ((Ctx.frame id left right up).plug t)) := by
  rw [Ctx.plug, hb.node, items_around_one, items_around_two]
  simp only [entriesOf_append, entriesOf_merge]

/-- The steps of a merge up to the freed page. -/
theorem merge_steps (hP : 112 ≤ R.pageSize) {root : ℕ} {others : List (ℕ × Page)}
    {into probe : Page} {parentLsn : ℕ}
    (hc : Conf R.pageSize L root ((id, .internal ⟨0, nodeFirst left' a,
        nodeSlots left' a ++ rightSlots ((s, b) :: right')⟩) ::
      (Tree.id h a, Tree.page h a) :: (Tree.id h b, Tree.page h b) :: others)
      (id :: Tree.id h a :: Tree.id h b :: others.map Prod.fst) pend hot n S)
    (hpend : ∀ x ∈ pend, x = Tree.id h a ∨ x = Tree.id h b)
    (hhot : Tree.id h a ∈ hot ∧ id ∈ hot) (hlsn : lsn ≤ L) (hplsn : parentLsn ≤ L)
    (hinto : pageLsn into ≤ L) (hprobe : stripLsn probe = Tree.page h (Tree.merge h a s b)) :
    ∃ S1 S2 S3 S4 S5 S6, assign (Tree.id h a) (mergedContent into probe) S = .ok () S1 ∧
      assign id (.internal ⟨parentLsn, nodeFirst left' a,
        nodeSlots left' a ++ rightSlots right'⟩) S1 =
        .ok () S2 ∧
      markDirty (Tree.id h a) lsn S2 = .ok () S3 ∧ markDirty id lsn S3 = .ok () S4 ∧
      drop (Tree.id h b) S4 = .ok () S5 ∧ freePage (Tree.id h b) S5 = .ok () S6 ∧
      Conf R.pageSize L root ((id, .internal ⟨0, nodeFirst left' a,
          nodeSlots left' a ++ rightSlots right'⟩) ::
        (Tree.id h a, Tree.page h (Tree.merge h a s b)) :: others)
        (id :: Tree.id h a :: others.map Prod.fst) [] hot n S6 := by
  have hmerged : stripLsn (mergedContent into probe) = Tree.page h (Tree.merge h a s b) := by
    rw [mergedContent, stripLsn_setLsn, hprobe]
  obtain ⟨S1, h1, hc1⟩ := hc.assignSecond (mergedContent into probe)
    (by simpa [mergedContent] using hinto)
  rw [hmerged] at hc1
  obtain ⟨S2, h2, hc2⟩ := hc1.assign (.internal ⟨parentLsn, nodeFirst left' a,
    nodeSlots left' a ++ rightSlots right'⟩) hplsn
  obtain ⟨S3, h3, hc3⟩ := hc2.markDirty (Tree.id h a) [id, Tree.id h b] (by simp) hhot.1 hlsn
    (by
      intro x hx
      simp only [List.mem_cons] at hx ⊢
      rcases hx with rfl | rfl | hx
      · tauto
      · tauto
      · have := hpend x hx
        tauto)
  obtain ⟨S4, h4, hc4⟩ := hc3.markDirty id [Tree.id h b] (by simp) hhot.2 hlsn (by simp)
  -- `drop` takes away the first page, so the merged one is moved to the front.
  obtain ⟨S5, h5, hc5⟩ := (hc4.perm ((Tree.id h b, Tree.page h b) :: (id, .internal ⟨0,
      nodeFirst left' a, nodeSlots left' a ++ rightSlots right'⟩) ::
      (Tree.id h a, Tree.page h (Tree.merge h a s b)) :: others) (by
        simp only [List.perm_iff_count, List.count_cons, stripLsn, setLsn]
        intro x
        omega)).drop [] (by simp)
  obtain ⟨S6, h6, hc6⟩ := (hc5.weaken (.refl _) (show (id :: Tree.id h a :: Tree.id h b ::
    others.map Prod.fst).Perm (Tree.id h b :: id :: Tree.id h a :: others.map Prod.fst) by
      simp only [List.perm_iff_count, List.count_cons]
      intro x
      omega) (fun _ hx => hx) (fun _ hx => hx) le_rfl).freePage (by omega)
  exact ⟨S1, S2, S3, S4, S5, S6, h1, h2, h3, h4, h5, h6, hc6⟩

theorem Beside.mergeIds_eq (hb : Beside left t right sibling left' a s b right') :
    mergeIds (Tree.id h t) sibling = (Tree.id h a, Tree.id h b) := by
  rw [mergeIds, ← hb.sibling_id, ← hb.page_eq]
  cases sibling.isLeft <;> rfl

/-- The only child of a root becomes the root. -/
theorem collapse (hP : 112 ≤ R.pageSize) {m : ℕ} {S₀ : Store}
    (hs : Standing R L (.frame id left right up) t m S₀)
    (hb : Beside left t right sibling left' a s b right')
    (hfits : Tree.size h (Tree.merge h a s b) ≤ R.pageSize) (htop : up.isTop = true)
    (hempty : left'.length + right'.length = 0) {root : ℕ}
    (hc : Conf R.pageSize L root
      ((id, .internal ⟨0, nodeFirst left' a, nodeSlots left' a ++ rightSlots right'⟩) ::
        (Tree.id h a, Tree.page h (Tree.merge h a s b)) ::
        aside up left' right' (Tree.below h a ++ Tree.below h b)
          (.node (mkNode id left' a ((s, b) :: right'))))
      (id :: Tree.id h a :: (aside up left' right' (Tree.below h a ++ Tree.below h b)
          (.node (mkNode id left' a ((s, b) :: right')))).map Prod.fst) [] hot n S) :
    ∃ S1 S2 S3, setRoot (nodeFirst left' a) S = .ok () S1 ∧ drop id S1 = .ok () S2 ∧
      freePage id S2 = .ok () S3 ∧
      Settled R L (entriesOf (Tree.items H ((Ctx.frame id left right up).plug t))) S3 := by
  obtain ⟨rfl, rfl⟩ : left' = [] ∧ right' = [] :=
    ⟨List.length_eq_zero_iff.mp (by omega), List.length_eq_zero_iff.mp (by omega)⟩
  have hpart := hs.partners hb
  cases up with
  | frame => simp [Ctx.isTop] at htop
  | top =>
      obtain ⟨S1, h1, hc1⟩ := hc.setRoot (nodeFirst [] a)
      obtain ⟨S2, h2, hc2⟩ := hc1.drop [] (by simp)
      obtain ⟨S3, h3, hc3⟩ := hc2.freePage (by omega)
      refine ⟨S1, S2, S3, h1, h2, h3, h, Tree.merge h a s b, ?_, ?_, hc3.pageSize, ?_, ?_⟩
      -- The merged page is all of the tree.
      · have hordered := hs.ordered
        rw [Ctx.plug, hb.node, items_around_two] at hordered
        have hordered' := hordered.merge
        have hpages : Tree.pages h (Tree.merge h a s b) =
            (Tree.id h a, Tree.page h (Tree.merge h a s b)) ::
              aside .top [] [] (Tree.below h a ++ Tree.below h b)
                (.node (mkNode id [] a [(s, b)])) := by
          simp [Tree.pages, Tree.below_merge, aside, leftPages, rightPages, Ctx.outside]
        refine ⟨?_, ?_, ?_, hc3.chainFits, ?_⟩
        · rw [hc3.root_eq, nodeFirst_nil, Tree.id_merge]
        · rw [hpages]
          exact hc3.holds
        · rw [Tree.pageIds, hpages]
          exact hc3.accounted
        · simpa [Ctx.before, Ctx.after, leftItems, rightItems] using hordered'
      · have hgood := Tree.good_iff.mp (hpart.good_merge hfits)
        refine Tree.good_iff.mpr ⟨Tree.rootGood_iff.mpr ?_, hgood.2⟩
        obtain ⟨hcapped, hsize, hcount, -⟩ := Tree.rootGood_iff.mp hgood.1
        exact ⟨hcapped, hsize, fun _ => hcount (.inl rfl), by simp⟩
      · exact List.eq_nil_iff_forall_not_mem.mpr fun x hx => by simpa using hc3.pending x hx
      · rw [← entriesOf_merged .top id hb, Ctx.plug, items_mkNode]
        simp [leftItems, rightItems]

/-- The merge loop: no merge fits, or one is carried out. -/
theorem mergeWith_spec (hP : 112 ≤ R.pageSize) {m : ℕ} {S₀ : Store}
    (hs : Standing R L (.frame id left right up) t m S₀)
    (hc : Conf R.pageSize L (Tree.id H (up.plug (.node (mkNode id left t right))))
      (Tree.pages H (up.plug (.node (mkNode id left t right))))
      (Tree.pageIds H (up.plug (.node (mkNode id left t right)))) [Tree.id h t] hot n S)
    (hlsn : lsn ≤ L) (siblings : List SiblingId) (hsib : Siblings left t right siblings)
    (hhot : ∀ x ∈ siblings.map (·.pageId) ++ Tree.id h t :: id :: up.path.map (·.parentPageId),
      x ∈ hot) :
    (mergeWith (Tree.id h t) id ((left.length : ℤ) - 1) lsn siblings S = .ok none S ∧
      ∀ sibling ∈ siblings, ∃ left' a s b right', Beside left t right sibling left' a s b right' ∧
        R.pageSize < Tree.size h (Tree.merge h a s b)) ∨
    ∃ S' result, mergeWith (Tree.id h t) id ((left.length : ℤ) - 1) lsn siblings S =
        .ok (some result) S' ∧
      StepSpec R L up id n (entriesOf (Tree.items H ((Ctx.frame id left right up).plug t)))
        (.ok result S') := by
  induction siblings with
  | nil => exact .inl ⟨rfl, by simp⟩
  | cons sibling rest ih =>
      obtain ⟨left', a, s, b, right', hb⟩ := hsib sibling (List.mem_cons_self ..)
      have hc' := conf_beside hb hc
      set others := aside up left' right' (Tree.below h a ++ Tree.below h b)
        (.node (mkNode id left' a ((s, b) :: right'))) with hothers
      obtain ⟨parentLsn, hplsn, -, hparent⟩ := hc'.derefInternal id _ _ (List.mem_cons_self ..)
      obtain ⟨into, hinto, histrip, hilsn⟩ := hc'.deref
        (show (Tree.id h a, Tree.page h a) ∈ _ by simp)
      obtain ⟨from_, hfrom, hfstrip, -⟩ := hc'.deref
        (show (Tree.id h b, Tree.page h b) ∈ _ by simp)
      obtain ⟨probe, hprobe, hpstrip⟩ := mergeProbe_spec ⟨s, Tree.id h b⟩ histrip hfstrip
      have hsize := calculatePageSize_of_stripLsn hpstrip
      by_cases hfits : Tree.size h (Tree.merge h a s b) ≤ R.pageSize
      -- What is owned are the parent and the two pages, of which one will be freed.
      · have howned : (Tree.pageIds H (up.plug (.node (mkNode id left t right)))).Perm
            (id :: Tree.id h a :: Tree.id h b :: others.map Prod.fst) := by
          rw [hb.node]
          refine ((pages_around_two up id left' right' a b s).map Prod.fst).trans ?_
          simp only [List.map_cons, ← hothers, List.perm_iff_count, List.count_cons]
          intro x
          omega
        have hids : Tree.id h a ∈ hot ∧ id ∈ hot := by
          refine ⟨hhot _ ?_, hhot id (by simp)⟩
          have hsid := hb.sibling_id
          have hpage := hb.page_eq
          cases hside : sibling.isLeft with
          | false => simp [← hpage, hside, pick]
          | true => simp [← hsid, hside, pick]
        have hpend : ∀ x ∈ [Tree.id h t], x = Tree.id h a ∨ x = Tree.id h b := by
          intro x hx
          rw [List.mem_singleton.mp hx, ← hb.page_eq]
          cases sibling.isLeft <;> simp [pick]
        obtain ⟨S1, S2, S3, S4, S5, S6, h1, h2, h3, h4, h5, h6, hc6⟩ :=
          merge_steps hP (hc'.weaken (.refl _) howned (fun _ hx => hx) (fun _ hx => hx) le_rfl)
            hpend hids hlsn hplsn hilsn hpstrip
        have hlength : ¬ (nodeSlots left' a ++ rightSlots ((s, b) :: right')).length ≤
            left'.length := by
          simp [rightSlots]
        right
        -- The parent is a root without separators, or the next round is about the parent.
        by_cases hcollapse : nodeSlots left' a ++ rightSlots right' = [] ∧ id = S6.root
        · have hempty : left'.length + right'.length = 0 := by
            have := congrArg List.length hcollapse.1
            simpa [rightSlots] using this
          have htop : up.isTop = true :=
            Ctx.isTop_of_root hc.holds.nodup (hcollapse.2.trans hc6.root_eq)
          obtain ⟨S7, S8, S9, h7, h8, h9, hsettled⟩ := collapse hP hs hb hfits htop hempty hc6
          refine ⟨S9, none, ?_, hsettled⟩
          simp only [mergeWith, run_bind, run_get, hb.mergeIds_eq, hb.idx, hparent, hinto, hfrom,
            getElem?_separator, hprobe, codec, run_pure, hsize, hc'.pageSize, not_lt.mpr hfits,
            if_false, h1, hlength, eraseIdx_place, h2, h3, h4, h5, h6, if_pos hcollapse, h7, h8, h9]
        · refine ⟨S6, some id, ?_, rfl,
            .node (mkNode id left' (Tree.merge h a s b) right'), rfl, ?_,
            entriesOf_merged up id hb⟩
          · simp only [mergeWith, run_bind, run_get, hb.mergeIds_eq, hb.idx, hparent, hinto, hfrom,
              getElem?_separator, hprobe, codec, run_pure, hsize, hc'.pageSize, not_lt.mpr hfits,
              if_false, h1, hlength, eraseIdx_place, h2, h3, h4, h5, h6, hcollapse]
          · refine hs.of_merged hb hfits (fun htop hzero => hcollapse ⟨?_, ?_⟩)
              (hc6.weaken (.refl _) (.refl _) (fun _ hx => hx)
                (fun x hx => hhot x ?_) le_rfl) (.refl _)
            · exact List.length_eq_zero_iff.mp (by simpa [rightSlots] using hzero)
            · rw [hc6.root_eq, Ctx.id_plug_of_isTop htop]
              rfl
            · simp only [List.mem_cons, List.mem_append] at hx ⊢
              tauto
      -- The two pages do not fit on one, and the next sibling is tried.
      · have hnext : mergeWith (Tree.id h t) id ((left.length : ℤ) - 1) lsn (sibling :: rest) S =
            mergeWith (Tree.id h t) id ((left.length : ℤ) - 1) lsn rest S := by
          simp only [mergeWith, run_bind, run_get, hb.mergeIds_eq, hb.idx, hparent, hinto, hfrom,
            getElem?_separator, hprobe, codec, run_pure, hsize, hc'.pageSize, not_le.mp hfits,
            if_true]
        rw [hnext]
        rcases ih (fun x hx => hsib x (List.mem_cons_of_mem _ hx))
          (fun x hx => hhot x (List.mem_cons_of_mem _ hx)) with ⟨hnone, hall⟩ | hsome
        · refine .inl ⟨hnone, fun x hx => ?_⟩
          rcases List.mem_cons.mp hx with rfl | hx
          · exact ⟨left', a, s, b, right', hb, not_le.mp hfits⟩
          · exact hall x hx
        · exact .inr hsome

end Merging

/-! ## One round -/

/-- `_redistribute_or_merge_page` on an underpopulated page below a parent. -/
theorem redistributeOrMergePage_spec (hP : 112 ≤ R.pageSize) {id : ℕ} {left : List (Tree h × Bytes)}
    {right : List (Bytes × Tree h)} {up : Ctx (h + 1) H} {t : Tree h} {n : ℕ} {S : Store}
    (hs : Standing R L (.frame id left right up) t (n + 2) S) (hlsn : lsn ≤ L)
    (hunder : ¬ R.Healthy (Tree.size h t)) :
    StepSpec R L up id n (entriesOf (Tree.items H ((Ctx.frame id left right up).plug t)))
      (redistributeOrMergePage (Tree.id h t) (some ⟨id, (left.length : ℤ) - 1⟩) lsn S) := by
  have hc := hs.conf
  simp only [Ctx.plug, Ctx.path, List.map_cons] at hc
  have hperm := pages_around_one up id left right t
  rw [page_mkNode] at hperm
  have hidMem : (id, Page.internal ⟨0, nodeFirst left t, nodeSlots left t ++ rightSlots right⟩) ∈
      Tree.pages H (up.plug (.node (mkNode id left t right))) :=
    hperm.mem_iff.mpr (by simp)
  have hne : id ≠ Tree.id h t := by
    have := (hperm.map Prod.fst).nodup_iff.mp hc.holds.nodup
    simp only [List.map_cons, List.nodup_cons, List.mem_cons, not_or] at this
    exact fun h => this.1.1 h.symm
  have hget := hc.getPage_hot id (List.mem_map_of_mem hidMem) (by simpa using hne) (by simp)
  obtain ⟨parentLsn, hplsn, -, hparent⟩ := hc.derefInternal id _ _ hidMem
  obtain ⟨hnodup, S1, siblings, hdet, hc1, hsib, hnil⟩ :=
    determineSameParentSiblings_spec hc hs.outside.1.nonempty parentLsn
  have hstopped : Stopped S1 := hc1.stopped (by simp)
  have hhot : ∀ x ∈ id :: Tree.id h t :: siblings.map (·.pageId), x ∈ siblings.map (·.pageId) ++
      Tree.id h t :: id :: up.path.map (·.parentPageId) := by
    intro x hx
    simp only [List.mem_cons, List.mem_append] at hx ⊢
    tauto
  rcases redistributeWith_spec hP hs hunder hc1 siblings hsib hstopped hhot with
    ⟨sibling, hmem, S2, left', a, s, b, right', a', s', b', hrun, hb, hrot, hc2⟩ |
      ⟨hrun, hbound⟩ | ⟨S2, hrun, hunhealthy, hstopped'⟩
  · -- A sibling helped: the three pages are marked dirty, the parent unless it needs a round.
    have hids : Tree.id h t ∈ (Tree.id h a' :: [Tree.id h b']) ∧
        sibling.pageId ∈ (Tree.id h a' :: [Tree.id h b']) := by
      have hidA : Tree.id h a' = Tree.id h a := by
        rw [← Tree.id_merge a' b' s', hrot.merge, Tree.id_merge]
      rw [hidA, hrot.id_eq, ← hb.page_eq, ← hb.sibling_id]
      cases sibling.isLeft <;> simp [pick]
    obtain ⟨S3, hmark1, hc3⟩ := hc2.markDirty (Tree.id h t) [id, sibling.pageId]
      (by
        have := hids.1
        simp only [List.map_cons, List.mem_cons, List.not_mem_nil, or_false] at this ⊢
        tauto) (by simp) hlsn (by simp)
    obtain ⟨S4, hmark2, hc4⟩ := hc3.markDirty sibling.pageId [id]
      (by
        have := hids.2
        simp only [List.map_cons, List.mem_cons, List.not_mem_nil, or_false] at this ⊢
        tauto) (List.mem_append_left _ (List.mem_map_of_mem hmem)) hlsn (by simp)
    obtain ⟨parentLsn', -, hderef, -⟩ := hc4.derefInternal id _ _ (List.mem_cons_self ..)
    obtain ⟨hstanding, hentries⟩ := hs.of_rotated hb hrot
      (hc4.weaken (.refl _) (.refl _) (fun _ hx => hx) (fun x hx => by
        simp only [List.mem_cons, List.mem_append] at hx ⊢
        tauto) le_rfl)
    set parent : Page := .internal ⟨parentLsn', nodeFirst left' a',
      nodeSlots left' a' ++ rightSlots ((s', b') :: right')⟩ with hparentEq
    have hstrip : stripLsn parent =
        Tree.page (h + 1) (.node (mkNode id left' a' ((s', b') :: right'))) := by
      rw [page_mkNode]
      rfl
    have hsize := calculatePageSize_of_stripLsn hstrip
    by_cases hlimits : (isPageOverpopulated R.pageSize parent ||
        isPageUnderpopulated R.pageSize parent) = true
    · simp only [redistributeOrMergePage, run_bind, require, hne, ne_eq, not_false_eq_true, if_true,
        run_pure, hget, hparent, hnodup, hdet, hrun, hmark1, hmark2, run_get, hderef, hc4.pageSize,
        hlimits, StepSpec]
      exact ⟨trivial, _, rfl, hstanding, hentries⟩
    · have hgood : Tree.RootGood R up.isTop (h + 1)
          (.node (mkNode id left' a' ((s', b') :: right'))) := by
        simp only [Bool.or_eq_true, not_or, isPageUnderpopulated_iff, not_not,
          isPageOverpopulated, decide_eq_true_eq, not_lt, hsize] at hlimits
        exact rootGood_of_size hP hstanding.capped hlimits.1 hlimits.2
      obtain ⟨S5, hmark3, hsettled⟩ := hstanding.settle hlsn hgood
      rw [Tree.id_node, mkNode_id] at hmark3
      simp only [redistributeOrMergePage, run_bind, require, hne, ne_eq, not_false_eq_true, if_true,
        run_pure, hget, hparent, hnodup, hdet, hrun, hmark1, hmark2, run_get, hderef, hc4.pageSize,
        hlimits, Bool.false_eq_true, if_false, hmark3, StepSpec]
      rw [← hentries]
      exact hsettled
  · -- No sibling helped: merge.
    rcases mergeWith_spec hP hs hc1 hlsn siblings hsib
        (fun x hx => by simpa using hx) with ⟨hmerge, hall⟩ | ⟨S2, result, hmerge, hstep⟩
    -- Neither way was open. Where pages are kept half full, one of them is.
    · have hstuck : ¬ R.healthyAt h := by
        intro hh
        obtain ⟨sibling, hmem⟩ := List.exists_mem_of_ne_nil _ hnil
        obtain ⟨left', a, s, b, right', hb, hover⟩ := hall sibling hmem
        have := hbound sibling hmem left' a s b right' hb
        have := R.room hh
        omega
      simp only [redistributeOrMergePage, run_bind, require, hne, ne_eq, not_false_eq_true, if_true,
        run_pure, hget, hparent, hnodup, hdet, hrun, hmerge, raise, run_throw, StepSpec]
      exact ⟨⟨hstuck, .inr rfl⟩, hstopped⟩
    · simp only [redistributeOrMergePage, run_bind, require, hne, ne_eq, not_false_eq_true, if_true,
        run_pure, hget, hparent, hnodup, hdet, hrun, hmerge]
      exact hstep
  · simp only [redistributeOrMergePage, run_bind, require, hne, ne_eq, not_false_eq_true, if_true,
      run_pure, hget, hparent, hnodup, hdet, hrun, StepSpec]
    exact ⟨⟨hunhealthy, .inl rfl⟩, hstopped'⟩

end BPTreeDB.PageStore
