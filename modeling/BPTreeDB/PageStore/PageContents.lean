import BPTreeDB.PageStore.Rearrange

/-!
# What the computations on page contents do to trees

A page of the store is the root page of a tree, with an LSN.  `splitParts`,
`rotateSlots` and `mergeProbe` work on such pages; each lemma here reads one of them
as an operation on neighbours in the sense of `Rearrange`.
-/

namespace BPTreeDB.PageStore

open Lib Codec BPlusTree BufferPool

variable {R : Regime} {h : ℕ}

/-- A page is its content with its LSN. -/
theorem eq_setLsn_of_stripLsn {page content : Page} (hp : stripLsn page = content) :
    page = setLsn (pageLsn page) content := by
  subst hp
  cases page <;> rfl

theorem eq_leaf_of_stripLsn {page : Page} {l : Leaf}
    (hp : stripLsn page = Tree.page 0 (.leaf l)) :
    page = .leaf ⟨pageLsn page, l.right, l.slots⟩ :=
  eq_setLsn_of_stripLsn hp

theorem eq_internal_of_stripLsn {page : Page} {n : Node (Tree h)}
    (hp : stripLsn page = Tree.page (h + 1) (.node n)) :
    page = .internal ⟨pageLsn page, Tree.id h n.first,
      n.rest.map fun e => ⟨e.1, Tree.id h e.2⟩⟩ :=
  eq_setLsn_of_stripLsn hp

@[simp] theorem calculatePageSize_stripLsn (page : Page) :
    calculatePageSize (stripLsn page) = calculatePageSize page := by
  cases page <;> rfl

@[simp] theorem slotSizes_stripLsn (page : Page) : slotSizes (stripLsn page) = slotSizes page := by
  cases page <;> rfl

@[simp] theorem slotCount_stripLsn (page : Page) : slotCount (stripLsn page) = slotCount page := by
  cases page <;> rfl

@[simp] theorem medianCount_stripLsn (page : Page) :
    medianCount (stripLsn page) = medianCount page := by
  cases page <;> rfl

section Shown

variable {page : Page} {t : Tree h} (hp : stripLsn page = Tree.page h t)

include hp

theorem calculatePageSize_of_stripLsn : calculatePageSize page = Tree.size h t := by
  rw [Tree.size, ← hp, calculatePageSize_stripLsn]

theorem slotSizes_of_stripLsn : slotSizes page = slotSizes (Tree.page h t) := by
  rw [← hp, slotSizes_stripLsn]

theorem slotCount_of_stripLsn : slotCount page = slotCount (Tree.page h t) := by
  rw [← hp, slotCount_stripLsn]

theorem medianCount_of_stripLsn : medianCount page = medianAt h := by
  rw [← medianCount_page t, ← hp, medianCount_stripLsn]

end Shown

theorem length_slotSizes (page : Page) : (slotSizes page).length = slotCount page := by
  cases page <;> simp [slotSizes, slotCount]

/-! ## Splitting -/

/-- The parts of a split are neighbours whose merge is the page. -/
theorem splitParts_spec {page : Page} {t : Tree h} (hp : stripLsn page = Tree.page h t) {i : ℕ}
    (hi : i + medianAt h < slotCount page) (new lsn : ℕ) :
    ∃ a s b left right, splitParts page i new lsn = .ok (s, left, right) ∧
      Tree.merge h a s b = t ∧ Tree.Linked h a b ∧ Tree.Fresh h s b ∧ Tree.id h b = new ∧
      stripLsn left = Tree.page h a ∧ pageLsn left = pageLsn page ∧
      stripLsn right = Tree.page h b ∧ pageLsn right = lsn ∧
      slotSizes (Tree.page h a) = (slotSizes page).take i ∧
      slotSizes (Tree.page h b) = (slotSizes page).drop (i + medianAt h) := by
  cases h with
  | zero =>
      obtain ⟨l, rfl⟩ := t.exists_leaf
      rw [eq_leaf_of_stripLsn hp] at hi ⊢
      simp only [slotCount, medianAt, Nat.add_zero] at hi
      obtain ⟨first, rest, hdrop⟩ : ∃ first rest, l.slots.drop i = first :: rest :=
        List.exists_cons_of_ne_nil (by simpa using hi)
      refine ⟨.leaf ⟨l.id, new, l.slots.take i⟩, first.key, .leaf ⟨new, l.right, first :: rest⟩,
        .leaf ⟨pageLsn page, new, l.slots.take i⟩, .leaf ⟨lsn, l.right, first :: rest⟩, ?_⟩
      simp only [splitParts, hdrop]
      refine ⟨trivial, ?_, rfl, ⟨first, rest, rfl, rfl⟩, rfl, rfl, rfl, rfl, rfl, ?_, ?_⟩
      · rw [Tree.merge_leaf, ← hdrop, List.take_append_drop]
      · simp [slotSizes, List.map_take]
      · simp [slotSizes, medianAt, ← hdrop, List.map_drop]
  | succ h =>
      obtain ⟨n, rfl⟩ := t.exists_node
      rw [eq_internal_of_stripLsn hp] at hi ⊢
      simp only [slotCount, medianAt, List.length_map] at hi
      obtain ⟨e, rest, hdrop⟩ : ∃ e rest, n.rest.drop i = e :: rest :=
        List.exists_cons_of_ne_nil (by simp; omega)
      have hrest : n.rest = n.rest.take i ++ (e.1, e.2) :: rest := by
        rw [← hdrop, List.take_append_drop]
      refine ⟨.node ⟨n.id, n.first, n.rest.take i⟩, e.1, .node ⟨new, e.2, rest⟩,
        .internal ⟨pageLsn page, Tree.id h n.first,
          (n.rest.take i).map fun e => ⟨e.1, Tree.id h e.2⟩⟩,
        .internal ⟨lsn, Tree.id h e.2, rest.map fun e => ⟨e.1, Tree.id h e.2⟩⟩, ?_⟩
      simp only [splitParts, ← List.map_drop, hdrop, List.map_cons, ← List.map_take]
      refine ⟨trivial, ?_, trivial, trivial, rfl, rfl, rfl, rfl, rfl, ?_, ?_⟩
      · rw [Tree.merge_node, ← hrest]
      · simp [slotSizes, List.map_take]
      · have : n.rest.drop (i + 1) = rest := by
          rw [← List.drop_drop, hdrop, List.drop_one, List.tail_cons]
        simp [slotSizes, medianAt, ← this, List.map_drop]

/-! ## Merging -/

/-- The probe of a merge is the root page of the merge. -/
theorem mergeProbe_spec {into from_ : Page} {a b : Tree h} (sep : InternalSlot)
    (ha : stripLsn into = Tree.page h a) (hb : stripLsn from_ = Tree.page h b) :
    ∃ probe, mergeProbe into from_ (some sep) = .ok probe ∧
      stripLsn probe = Tree.page h (Tree.merge h a sep.key b) := by
  cases h with
  | zero =>
      obtain ⟨a, rfl⟩ := a.exists_leaf
      obtain ⟨b, rfl⟩ := b.exists_leaf
      rw [eq_leaf_of_stripLsn ha, eq_leaf_of_stripLsn hb]
      exact ⟨_, rfl, rfl⟩
  | succ h =>
      obtain ⟨a, rfl⟩ := a.exists_node
      obtain ⟨b, rfl⟩ := b.exists_node
      rw [eq_internal_of_stripLsn ha, eq_internal_of_stripLsn hb]
      refine ⟨_, rfl, ?_⟩
      simp [stripLsn, setLsn]

/-! ## Rotating -/

/-- One of two neighbours. -/
def pick {α : Type} (isLeft : Bool) (a b : α) : α := if isLeft then a else b

/-- A rotation in progress: its pages are neighbours with the merge `m`. -/
structure Rotating (R : Regime) (isLeft : Bool) (h : ℕ) (m : Tree h) (bId : ℕ) (a : Tree h)
    (s : Bytes) (b : Tree h) (r : Rotation) : Prop where
  merge : Tree.merge h a s b = m
  id : Tree.id h b = bId
  linked : Tree.Linked h a b
  capped : Tree.Capped R h m
  length_le : s.length ≤ R.maxKey
  donor : stripLsn r.donor = Tree.page h (pick isLeft a b)
  recipient : stripLsn r.recipient = Tree.page h (pick isLeft b a)
  separator : r.separator = s

/-- What one round of a rotation does. -/
structure RotatesTo (R : Regime) (isLeft : Bool) (h : ℕ) (m : Tree h) (bId : ℕ) (r r' : Rotation) :
    Prop where
  rotating : ∃ a s b, Rotating R isLeft h m bId a s b r' ∧ Tree.Fresh h s b
  donor_lsn : pageLsn r'.donor = pageLsn r.donor
  recipient_lsn : pageLsn r'.recipient = pageLsn r.recipient
  count : slotCount r'.donor + 1 = slotCount r.donor
  donor_le : calculatePageSize r'.donor ≤ calculatePageSize r.donor
  le_donor : calculatePageSize r.donor ≤ calculatePageSize r'.donor + R.slotCap h
  recipient_le : calculatePageSize r'.recipient ≤ calculatePageSize r.recipient + R.slotCap h

/-- One round moves a slot, or raises because the donor has not enough of them. -/
def RoundSpec (R : Regime) (isLeft : Bool) (h : ℕ) (m : Tree h) (bId : ℕ) (r : Rotation) : Prop :=
  (slotCount r.donor ≤ 1 ∧ ∃ r', rotateSlot isLeft r = (r', some .indexError)) ∨
    ∃ r', rotateSlot isLeft r = (r', none) ∧ RotatesTo R isLeft h m bId r r'

section Rounds

variable {bId : ℕ} {s : Bytes} {r : Rotation}

/-- A leaf gives its last slot to the leaf on its right. -/
theorem rotateSlot_leaf_left {m : Tree 0} {a b : Leaf}
    (hr : Rotating R true 0 m bId (.leaf a) s (.leaf b) r) : RoundSpec R true 0 m bId r := by
  obtain ⟨donor, recipient, _⟩ := r
  obtain ⟨rfl, hid, hlink, hcapped, -, hdonor, hrecipient, rfl⟩ := hr
  dsimp only at hdonor hrecipient hcapped ⊢
  rw [eq_leaf_of_stripLsn (l := a) hdonor,
    eq_leaf_of_stripLsn (l := b) hrecipient]
  rcases List.eq_nil_or_concat a.slots with hnil | ⟨init, last, hslots⟩
  · exact .inl ⟨by simp [slotCount, hnil], _, by simp [rotateSlot, hnil]; rfl⟩
  · rw [List.concat_eq_append] at hslots
    have hlast : last ∈ a.slots ++ b.slots := by simp [hslots]
    have hcap := hcapped last hlast
    refine .inr ⟨⟨.leaf ⟨pageLsn donor, a.right, init⟩,
      .leaf ⟨pageLsn recipient, b.right, last :: b.slots⟩, last.key⟩, ?_, ?_⟩
    · simp [rotateSlot, hslots]
    · refine ⟨⟨.leaf ⟨a.id, a.right, init⟩, last.key, .leaf ⟨b.id, b.right, last :: b.slots⟩,
        ⟨?_, hid, hlink, hcapped, hcap.2, rfl, rfl, rfl⟩, last, b.slots, rfl, rfl⟩,
        rfl, rfl, ?_, ?_, ?_, ?_⟩
      · simp [hslots]
      · simp [slotCount, hslots]
      · simp [calculatePageSize_leaf, leafSize, hslots]
      · simp only [calculatePageSize_leaf, leafSize, hslots, List.map_append, List.sum_append,
          List.map_cons, List.map_nil, List.sum_cons, List.sum_nil]
        omega
      · simp only [calculatePageSize_leaf, leafSize, List.map_cons, List.sum_cons]
        omega

/-- A leaf gives its first slot to the leaf on its left. -/
theorem rotateSlot_leaf_right {m : Tree 0} {a b : Leaf}
    (hr : Rotating R false 0 m bId (.leaf a) s (.leaf b) r) : RoundSpec R false 0 m bId r := by
  obtain ⟨donor, recipient, _⟩ := r
  obtain ⟨rfl, hid, hlink, hcapped, -, hdonor, hrecipient, rfl⟩ := hr
  dsimp only at hdonor hrecipient hcapped ⊢
  rw [eq_leaf_of_stripLsn (l := b) hdonor,
    eq_leaf_of_stripLsn (l := a) hrecipient]
  rcases hslots : b.slots with _ | ⟨first, _ | ⟨second, rest⟩⟩
  · exact .inl ⟨by simp [slotCount], _, by simp [rotateSlot]; rfl⟩
  · exact .inl ⟨by simp [slotCount], _, by simp [rotateSlot]; rfl⟩
  · have hmem : first ∈ a.slots ++ b.slots ∧ second ∈ a.slots ++ b.slots := by simp [hslots]
    have hfirst := hcapped first hmem.1
    have hsecond := hcapped second hmem.2
    refine .inr ⟨⟨.leaf ⟨pageLsn donor, b.right, second :: rest⟩,
      .leaf ⟨pageLsn recipient, a.right, a.slots ++ [first]⟩, second.key⟩, ?_, ?_⟩
    · simp [rotateSlot]
    · refine ⟨⟨.leaf ⟨a.id, a.right, a.slots ++ [first]⟩, second.key,
        .leaf ⟨b.id, b.right, second :: rest⟩,
        ⟨?_, hid, hlink, hcapped, hsecond.2, rfl, rfl, rfl⟩, second, rest, rfl, rfl⟩,
        rfl, rfl, ?_, ?_, ?_, ?_⟩
      · simp [hslots]
      · simp [slotCount]
      · simp [calculatePageSize_leaf, leafSize]
      · simp only [calculatePageSize_leaf, leafSize, List.map_cons, List.sum_cons]
        omega
      · simp only [calculatePageSize_leaf, leafSize, List.map_append, List.sum_append,
          List.map_cons, List.map_nil, List.sum_cons, List.sum_nil]
        omega

theorem sepSize_le_slotCap {k : Bytes} (hk : k.length ≤ R.maxKey) :
    sepSize k ≤ R.slotCap (h + 1) := by
  simp only [sepSize, slotEntrySize, lengthFieldSize, pageIdFieldSize, Regime.slotCap]
  omega

/-- An internal page gives its last child to the page on its right. -/
theorem rotateSlot_node_left {m : Tree (h + 1)} {a b : Node (Tree h)}
    (hr : Rotating R true (h + 1) m bId (.node a) s (.node b) r) :
    RoundSpec R true (h + 1) m bId r := by
  obtain ⟨donor, recipient, s'⟩ := r
  obtain ⟨rfl, hid, -, hcapped, hs, hdonor, hrecipient, rfl⟩ := hr
  dsimp only at hs hdonor hrecipient hcapped ⊢
  rw [eq_internal_of_stripLsn (n := a) hdonor,
    eq_internal_of_stripLsn (n := b) hrecipient]
  rcases List.eq_nil_or_concat a.rest with hnil | ⟨init, last, hslots⟩
  · exact .inl ⟨by simp [slotCount, hnil], _, by simp [rotateSlot, hnil]; rfl⟩
  · rw [List.concat_eq_append] at hslots
    obtain ⟨k, c⟩ := last
    have hmem : k ∈ (a.rest ++ (s', b.first) :: b.rest).map Prod.fst := by simp [hslots]
    have hk : k.length ≤ R.maxKey := hcapped k hmem
    have hcap := sepSize_le_slotCap (h := h) hk
    have hcap' := sepSize_le_slotCap (h := h) hs
    refine .inr ⟨⟨.internal ⟨pageLsn donor, Tree.id h a.first,
        init.map fun e => ⟨e.1, Tree.id h e.2⟩⟩,
      .internal ⟨pageLsn recipient, Tree.id h c, ⟨s', Tree.id h b.first⟩ ::
        b.rest.map fun e => ⟨e.1, Tree.id h e.2⟩⟩, k⟩, ?_, ?_⟩
    · simp [rotateSlot, hslots]
    · refine ⟨⟨.node ⟨a.id, a.first, init⟩, k, .node ⟨b.id, c, (s', b.first) :: b.rest⟩,
        ⟨?_, hid, trivial, hcapped, hk, rfl, rfl, rfl⟩, trivial⟩,
        rfl, rfl, ?_, ?_, ?_, ?_⟩
      · simp [hslots]
      · simp [slotCount, hslots]
      · simp [calculatePageSize_internal, nodeSize, hslots]
      · simp only [calculatePageSize_internal, nodeSize, hslots, List.map_append, List.sum_append,
          List.map_cons, List.map_nil, List.sum_cons, List.sum_nil]
        omega
      · simp only [calculatePageSize_internal, nodeSize, List.map_cons, List.sum_cons]
        omega

/-- An internal page gives its first child to the page on its left. -/
theorem rotateSlot_node_right {m : Tree (h + 1)} {a b : Node (Tree h)}
    (hr : Rotating R false (h + 1) m bId (.node a) s (.node b) r) :
    RoundSpec R false (h + 1) m bId r := by
  obtain ⟨donor, recipient, s'⟩ := r
  obtain ⟨rfl, hid, -, hcapped, hs, hdonor, hrecipient, rfl⟩ := hr
  dsimp only at hs hdonor hrecipient hcapped ⊢
  rw [eq_internal_of_stripLsn (n := b) hdonor,
    eq_internal_of_stripLsn (n := a) hrecipient]
  rcases hslots : b.rest with _ | ⟨⟨k, c⟩, rest⟩
  · exact .inl ⟨by simp [slotCount], _, by simp [rotateSlot]; rfl⟩
  · have hmem : k ∈ (a.rest ++ (s', b.first) :: b.rest).map Prod.fst := by simp [hslots]
    have hk : k.length ≤ R.maxKey := hcapped k hmem
    have hcap := sepSize_le_slotCap (h := h) hk
    have hcap' := sepSize_le_slotCap (h := h) hs
    refine .inr ⟨⟨.internal ⟨pageLsn donor, Tree.id h c,
        rest.map fun e => ⟨e.1, Tree.id h e.2⟩⟩,
      .internal ⟨pageLsn recipient, Tree.id h a.first,
        (a.rest.map fun e => ⟨e.1, Tree.id h e.2⟩) ++ [⟨s', Tree.id h b.first⟩]⟩, k⟩, ?_, ?_⟩
    · simp [rotateSlot]
    · refine ⟨⟨.node ⟨a.id, a.first, a.rest ++ [(s', b.first)]⟩, k, .node ⟨b.id, c, rest⟩,
        ⟨?_, hid, trivial, hcapped, hk, rfl, ?_, rfl⟩, trivial⟩,
        rfl, rfl, ?_, ?_, ?_, ?_⟩
      · simp [hslots]
      · simp [stripLsn, setLsn, pick]
      · simp [slotCount]
      · simp [calculatePageSize_internal, nodeSize]
      · simp only [calculatePageSize_internal, nodeSize, List.map_cons, List.sum_cons]
        omega
      · simp only [calculatePageSize_internal, nodeSize, List.map_append, List.sum_append,
          List.map_cons, List.map_nil, List.sum_cons, List.sum_nil]
        omega

theorem rotateSlot_spec {isLeft : Bool} {m a b : Tree h}
    (hr : Rotating R isLeft h m bId a s b r) : RoundSpec R isLeft h m bId r := by
  cases h with
  | zero =>
      obtain ⟨a, rfl⟩ := a.exists_leaf
      obtain ⟨b, rfl⟩ := b.exists_leaf
      cases isLeft with
      | false => exact rotateSlot_leaf_right hr
      | true => exact rotateSlot_leaf_left hr
  | succ h =>
      obtain ⟨a, rfl⟩ := a.exists_node
      obtain ⟨b, rfl⟩ := b.exists_node
      cases isLeft with
      | false => exact rotateSlot_node_right hr
      | true => exact rotateSlot_node_left hr

end Rounds

/-- How a redistribution may end.  `m` is the merge of the two pages. -/
def RotationSpec (R : Regime) (isLeft : Bool) (h : ℕ) (m : Tree h) (bId : ℕ) (r : Rotation)
    (result : Rotation × RotationOutcome) : Prop :=
  match result.2 with
  | .succeeded =>
      (∃ a s b, Rotating R isLeft h m bId a s b result.1 ∧ Tree.Fresh h s b) ∧
      pageLsn result.1.donor = pageLsn r.donor ∧
      pageLsn result.1.recipient = pageLsn r.recipient ∧
      R.Healthy (calculatePageSize result.1.donor) ∧
      R.Healthy (calculatePageSize result.1.recipient) ∧
      calculatePageSize result.1.donor ≤ calculatePageSize r.donor ∧
      calculatePageSize result.1.recipient ≤ maxUnder R.pageSize + R.slotCap h
  | .donorExhausted =>
      Tree.size h m + pageHeaderSize ≤
        2 * maxUnder R.pageSize + (medianAt h + 1) * R.slotCap h
  | .raised e => e = .indexError ∧ (R.Healthy (calculatePageSize r.donor) →
      2 * R.pageSize ≤ 5 * (pageHeaderSize + R.slotCap h))

theorem isPageUnderpopulated_iff (page : Page) :
    isPageUnderpopulated R.pageSize page = true ↔ ¬ R.Healthy (calculatePageSize page) := by
  simp [isPageUnderpopulated, Regime.Healthy]

theorem not_healthy_iff (hP : 112 ≤ R.pageSize) {size : ℕ} :
    ¬ R.Healthy size ↔ size ≤ maxUnder R.pageSize := by
  simp only [Regime.Healthy, maxUnder]
  omega

section Redistribution

variable {isLeft : Bool} {m a b : Tree h} {bId : ℕ} {s : Bytes} {r r' : Rotation}

theorem Rotating.size_eq (hr : Rotating R isLeft h m bId a s b r) :
    Tree.size h m + pageHeaderSize =
      calculatePageSize r.donor + calculatePageSize r.recipient + medianAt h * sepSize s := by
  rw [← hr.merge, Tree.size_merge, calculatePageSize_of_stripLsn hr.donor,
    calculatePageSize_of_stripLsn hr.recipient]
  cases isLeft with
  | true => simp [pick]
  | false =>
      simp [pick]
      omega

theorem Rotating.donor_capped (hr : Rotating R isLeft h m bId a s b r) :
    Tree.Capped R h (pick isLeft a b) := by
  have hcapped := hr.capped
  rw [← hr.merge, Tree.capped_merge] at hcapped
  cases isLeft with
  | false => exact hcapped.2.1
  | true => exact hcapped.1

/-- A donor that is not underpopulated has two slots, unless a maximal slot is enough. -/
theorem Rotating.lt_of_healthy (hr : Rotating R isLeft h m bId a s b r)
    (hcount : slotCount r.donor ≤ 1) (hhealthy : R.Healthy (calculatePageSize r.donor)) :
    2 * R.pageSize ≤ 5 * (pageHeaderSize + R.slotCap h) := by
  have hsize := Tree.size_le hr.donor_capped
  rw [← calculatePageSize_of_stripLsn hr.donor, ← slotCount_of_stripLsn hr.donor] at hsize
  have hmul := Nat.mul_le_mul_right (R.slotCap h) hcount
  simp only [Regime.Healthy, pageHeaderSize] at *
  omega

theorem RotationSpec.of_rotatesTo {result : Rotation × RotationOutcome}
    (hto : RotatesTo R isLeft h m bId r r') (hhealthy : R.Healthy (calculatePageSize r'.donor))
    (hspec : RotationSpec R isLeft h m bId r' result) :
    RotationSpec R isLeft h m bId r result := by
  obtain ⟨r'', outcome⟩ := result
  cases outcome with
  | succeeded =>
      obtain ⟨hrot, hlsn, hlsn', hd, hrec, hle, hle'⟩ := hspec
      exact ⟨hrot, hlsn.trans hto.donor_lsn, hlsn'.trans hto.recipient_lsn, hd, hrec,
        hle.trans hto.donor_le, hle'⟩
  | donorExhausted => exact hspec
  | raised e => exact ⟨hspec.1, fun _ => hspec.2 hhealthy⟩

/-- The loop of `_try_redistribute_slots`. -/
theorem rotateSlots_spec (hP : 112 ≤ R.pageSize) (fuel : ℕ)
    (hr : Rotating R isLeft h m bId a s b r) (hfuel : slotCount r.donor < fuel)
    (hstart : ¬ R.Healthy (calculatePageSize r.recipient) ∨
      (Tree.Fresh h s b ∧ R.Healthy (calculatePageSize r.donor) ∧
        calculatePageSize r.recipient ≤ maxUnder R.pageSize + R.slotCap h)) :
    RotationSpec R isLeft h m bId r (rotateSlots R.pageSize isLeft fuel r) := by
  induction fuel generalizing a s b r with
  | zero => omega
  | succ fuel ih =>
      unfold rotateSlots
      split
      · rename_i hunder
        rw [isPageUnderpopulated_iff, not_healthy_iff hP] at hunder
        rcases rotateSlot_spec hr with ⟨hcount, r', hround⟩ | ⟨r', hround, hto⟩
        · rw [hround]
          exact ⟨rfl, hr.lt_of_healthy hcount⟩
        · rw [hround]
          dsimp only
          obtain ⟨a', s', b', hr', hfresh⟩ := hto.rotating
          split
          · rename_i hexhausted
            rw [isPageUnderpopulated_iff, not_healthy_iff hP] at hexhausted
            have hle := hto.le_donor
            have hsep := sepSize_le hr.length_le h
            have hmul := Nat.succ_mul (medianAt h) (R.slotCap h)
            rw [RotationSpec]
            rw [hr.size_eq]
            simp only [Nat.succ_eq_add_one] at hmul
            omega
          · rename_i hdonor
            rw [isPageUnderpopulated_iff, not_not] at hdonor
            have hle := hto.recipient_le
            exact .of_rotatesTo hto hdonor (ih hr' (by have := hto.count; omega)
              (.inr ⟨hfresh, hdonor, by omega⟩))
      · rename_i hunder
        rw [isPageUnderpopulated_iff, not_not] at hunder
        obtain ⟨hfresh, hdonor, hle⟩ := hstart.resolve_left (not_not.mpr hunder)
        exact ⟨⟨a, s, b, hr, hfresh⟩, rfl, rfl, hdonor, hunder, le_rfl, hle⟩

end Redistribution

end BPTreeDB.PageStore
