import BPTreeDB.PageStore.Descent

/-!
# The records of a tree as a map

A tree stands for the map of its records.  A key cuts a sorted list of records into the
records below it, its own record if there is one, and the records above it; the
operations of the leaves are read off that cut.
-/

namespace BPTreeDB.PageStore

open Lib Codec BPlusTree

variable {key value : Bytes} {A B slots entries : List LeafSlot} {o : Option Bytes} {h : ℕ}

/-! ## The place of a key -/

/-- `slots` consists of the records `A` below the key, its record and the records `B`
above it. -/
structure Located (key : Bytes) (A : List LeafSlot) (o : Option Bytes) (B slots : List LeafSlot) :
    Prop where
  eq : slots = A ++ (o.map (LeafSlot.mk key)).toList ++ B
  below : ∀ s ∈ A, s.key < key
  above : ∀ s ∈ B, key < s.key

/-- A sorted list is cut by every key. -/
theorem exists_located (hsorted : (slots.map (·.key)).Pairwise (· < ·)) (key : Bytes) :
    ∃ A o B, Located key A o B slots := by
  induction slots with
  | nil => exact ⟨[], none, [], rfl, by simp, by simp⟩
  | cons s slots ih =>
      rw [List.map_cons, List.pairwise_cons] at hsorted
      obtain ⟨hfirst, hrest⟩ := hsorted
      rcases lt_trichotomy s.key key with hlt | heq | hgt
      · obtain ⟨A, o, B, hl⟩ := ih hrest
        refine ⟨s :: A, o, B, by rw [hl.eq]; simp, fun x hx => ?_, hl.above⟩
        rcases List.mem_cons.mp hx with rfl | hx
        · exact hlt
        · exact hl.below x hx
      · refine ⟨[], some s.value, slots, by simp [← heq], by simp, fun x hx => ?_⟩
        rw [← heq]
        exact hfirst _ (List.mem_map_of_mem hx)
      · refine ⟨[], none, s :: slots, by simp, by simp, fun x hx => ?_⟩
        rcases List.mem_cons.mp hx with rfl | hx
        · exact hgt
        · exact hgt.trans (hfirst _ (List.mem_map_of_mem hx))

/-- A cut of the middle of a list is a cut of the list. -/
theorem Located.extend (hl : Located key A o B slots) {before after : List LeafSlot}
    (hbefore : ∀ s ∈ before, s.key < key) (hafter : ∀ s ∈ after, key < s.key) :
    Located key (before ++ A) o (B ++ after) (before ++ slots ++ after) where
  eq := by rw [hl.eq]; simp
  below s hs := (List.mem_append.mp hs).elim (hbefore s) (hl.below s)
  above s hs := (List.mem_append.mp hs).elim (hl.above s) (hafter s)

theorem bisectLeft_append {l r : List Bytes} {x : Bytes} (hl : ∀ k ∈ l, k < x)
    (hr : ∀ k ∈ r, x ≤ k) : bisectLeft (l ++ r) x = l.length := by
  rw [bisectLeft, List.takeWhile_append_of_pos (by simpa using hl), List.length_append]
  cases r with
  | nil => simp
  | cons k r =>
      rw [List.takeWhile_cons_of_neg (by simpa using hr k (List.mem_cons_self ..))]
      simp

theorem Located.bisectLeft (hl : Located key A o B slots) :
    bisectLeft (slots.map (·.key)) key = A.length := by
  rw [hl.eq, List.append_assoc, List.map_append, bisectLeft_append, List.length_map]
  · simpa using hl.below
  · intro k hk
    simp only [List.map_append, List.mem_append, List.mem_map] at hk
    rcases hk with ⟨s, hs, rfl⟩ | ⟨s, hs, rfl⟩
    · cases o with
      | none => simp at hs
      | some v =>
          simp only [Option.map_some, Option.toList_some, List.mem_singleton] at hs
          rw [hs]
    · exact (hl.above s hs).le

theorem Located.findSlot (lsn right : ℕ) (hl : Located key A o B slots) :
    findSlot ⟨lsn, right, slots⟩ key = o.map (LeafSlot.mk key) := by
  simp only [BPlusTree.findSlot, hl.bisectLeft]
  cases o with
  | none =>
      have heq : slots = A ++ B := by simpa using hl.eq
      rw [heq, List.getElem?_append_right le_rfl, Nat.sub_self]
      cases B with
      | nil => rfl
      | cons s B =>
          have hne : s.key ≠ key := (hl.above s (List.mem_cons_self ..)).ne'
          simp [hne]
  | some v =>
      have heq : slots = A ++ ⟨key, v⟩ :: B := by simpa using hl.eq
      rw [heq, List.getElem?_append_right le_rfl, Nat.sub_self]
      simp

theorem Located.insortLeaf (hl : Located key A none B slots) (value : Bytes) :
    insortLeaf slots ⟨key, value⟩ = A ++ ⟨key, value⟩ :: B := by
  have heq : slots = A ++ B := by simpa using hl.eq
  have hidx : bisectRight (slots.map (·.key)) key = A.length := by
    rw [heq, List.map_append, bisectRight_append, List.length_map]
    · simpa using fun s hs => (hl.below s hs).le
    · simpa using hl.above
  rw [BPlusTree.insortLeaf, hidx, heq, insertIdx_length_append]

/-- Inserting or overwriting a record. -/
theorem Located.upsertSlot (hl : Located key A o B slots) (value : Bytes) :
    upsertSlot slots key value = A ++ ⟨key, value⟩ :: B := by
  simp only [BPlusTree.upsertSlot, hl.bisectLeft]
  cases o with
  | none =>
      rw [hl.insortLeaf value]
      have heq : slots = A ++ B := by simpa using hl.eq
      rw [heq, List.getElem?_append_right le_rfl, Nat.sub_self]
      cases B with
      | nil => rfl
      | cons s B =>
          have hne : s.key ≠ key := (hl.above s (List.mem_cons_self ..)).ne'
          simp [hne]
  | some v =>
      have heq : slots = A ++ ⟨key, v⟩ :: B := by simpa using hl.eq
      rw [heq, List.getElem?_append_right le_rfl, Nat.sub_self]
      simp

/-- Removing a record. -/
theorem Located.eraseIdx {v : Bytes} (hl : Located key A (some v) B slots) :
    slots.eraseIdx (BPlusTree.bisectLeft (slots.map (·.key)) key) = A ++ B := by
  have heq : slots = A ++ ⟨key, v⟩ :: B := by simpa using hl.eq
  rw [hl.bisectLeft, heq, List.eraseIdx_append_of_length_le le_rfl, Nat.sub_self]
  rfl

/-! ## Maps -/

/-- The map that the database keeps. -/
abbrev KeyMap := Bytes → Option Bytes

/-- The records are those of the map. -/
def Represents (M : KeyMap) (entries : List LeafSlot) : Prop :=
  ∀ k v, M k = some v ↔ ⟨k, v⟩ ∈ entries

/-- The record of the key that cuts the list. -/
theorem Located.mem_iff (hl : Located key A o B entries) (v : Bytes) :
    (⟨key, v⟩ : LeafSlot) ∈ entries ↔ o = some v := by
  rw [hl.eq]
  simp only [List.mem_append]
  constructor
  · rintro ((hmem | hmem) | hmem)
    · exact absurd (hl.below _ hmem) (lt_irrefl _)
    · cases o with
      | none => simp at hmem
      | some w => simpa [eq_comm] using hmem
    · exact absurd (hl.above _ hmem) (lt_irrefl _)
  · rintro rfl
    simp

theorem Represents.get {M : KeyMap} (hM : Represents M entries) (hl : Located key A o B entries) :
    M key = o := by
  have hiff : ∀ v, M key = some v ↔ o = some v := fun v => (hM key v).trans (hl.mem_iff v)
  cases hget : M key with
  | none =>
      cases o with
      | none => rfl
      | some v => rw [(hiff v).mpr rfl] at hget; cases hget
  | some v => exact ((hiff v).mp hget).symm

theorem Located.mem_iff_of_ne {k v : Bytes} (hl : Located key A o B entries) (hk : k ≠ key) :
    (⟨k, v⟩ : LeafSlot) ∈ entries ↔ ⟨k, v⟩ ∈ A ∨ ⟨k, v⟩ ∈ B := by
  rw [hl.eq]
  cases o <;> simp [hk]

theorem Represents.put {M : KeyMap} (hM : Represents M entries) (hl : Located key A o B entries)
    (value : Bytes) : Represents (Function.update M key (some value)) (A ++ ⟨key, value⟩ :: B) := by
  intro k v
  by_cases hk : k = key
  · subst hk
    rw [Function.update_self]
    simp only [Option.some.injEq, List.mem_append, List.mem_cons, LeafSlot.mk.injEq, true_and]
    constructor
    · rintro rfl
      exact .inr (.inl rfl)
    · rintro (hmem | rfl | hmem)
      · exact absurd (hl.below _ hmem) (lt_irrefl _)
      · rfl
      · exact absurd (hl.above _ hmem) (lt_irrefl _)
  · rw [Function.update_of_ne hk, hM, hl.mem_iff_of_ne hk]
    simp [hk]

theorem Represents.erase {M : KeyMap} (hM : Represents M entries) (hl : Located key A o B entries) :
    Represents (Function.update M key none) (A ++ B) := by
  intro k v
  by_cases hk : k = key
  · subst hk
    rw [Function.update_self]
    simp only [reduceCtorEq, List.mem_append, false_iff, not_or]
    exact ⟨fun hmem => lt_irrefl _ (hl.below _ hmem), fun hmem => lt_irrefl _ (hl.above _ hmem)⟩
  · rw [Function.update_of_ne hk, hM, hl.mem_iff_of_ne hk, List.mem_append]

/-! ## Order of the records -/

theorem keyToken_mem_tokens {items : List Item} {s : LeafSlot} (hs : s ∈ entriesOf items) :
    keyToken s.key ∈ tokens items := by
  induction items with
  | nil => simp at hs
  | cons i items ih =>
      cases i with
      | leaf l =>
          simp only [entriesOf_leaf, List.mem_append] at hs
          simp only [tokens_cons, Item.tokens_leaf, List.mem_append]
          exact hs.imp (fun hs => List.mem_map_of_mem hs) ih
      | sep k =>
          simp only [tokens_cons, List.mem_append]
          exact .inr (ih (by simpa using hs))

theorem pairwise_slotTokens {slots : List LeafSlot} :
    (slotTokens slots).Pairwise (· < ·) ↔ (slots.map (·.key)).Pairwise (· < ·) := by
  rw [slotTokens, List.pairwise_map, List.pairwise_map]
  simp only [keyToken_lt_keyToken]

theorem slotTokens_sublist_tokens (items : List Item) :
    (slotTokens (entriesOf items)).Sublist (tokens items) := by
  induction items with
  | nil => simp [slotTokens]
  | cons i items ih =>
      cases i with
      | leaf l =>
          simp only [entriesOf_leaf, slotTokens_append, tokens_cons, Item.tokens_leaf]
          exact (List.Sublist.refl _).append ih
      | sep k =>
          simp only [entriesOf_sep, tokens_cons]
          exact ih.trans (List.sublist_append_right _ _)

/-- The records of an ordered tree are sorted. -/
theorem Ordered.sorted_entries {items : List Item} (ho : Ordered items) :
    ((entriesOf items).map (·.key)).Pairwise (· < ·) :=
  pairwise_slotTokens.mp (ho.sorted.sublist (slotTokens_sublist_tokens items))

theorem Between.before {before after : List Item} (hb : Between key before after) :
    ∀ s ∈ entriesOf before, s.key < key :=
  fun _ hs => keyToken_lt_keyToken.mp (hb.1 _ (keyToken_mem_tokens hs))

theorem Between.after {before after : List Item} (hb : Between key before after) :
    ∀ s ∈ entriesOf after, key < s.key :=
  fun _ hs => keyToken_lt_keyToken.mp (hb.2 _ (keyToken_mem_tokens hs))

/-- New records for a key leave the tree ordered. -/
theorem Ordered.replace {before after : List Item} {l : Leaf} {C : List LeafSlot}
    (ho : Ordered (before ++ [.leaf l] ++ after)) (hb : Between key before after)
    (hl : Located key A o B l.slots) (hC : C = [] ∨ C = [⟨key, value⟩]) :
    Ordered (before ++ [.leaf ⟨l.id, l.right, A ++ C ++ B⟩] ++ after) := by
  constructor
  · have hsorted := ho.sorted
    simp only [tokens_append, tokens_cons, Item.tokens_leaf, tokens_nil, List.append_nil, hl.eq,
      slotTokens_append] at hsorted ⊢
    rcases hC with rfl | rfl
    · refine hsorted.sublist ?_
      refine ((List.Sublist.refl _).append ?_).append (.refl _)
      exact ((List.Sublist.refl _).append (List.nil_sublist _)).append (.refl _)
    · have hA : ∀ x ∈ slotTokens A, x < keyToken key := by
        simpa [slotTokens, keyToken_lt_keyToken] using hl.below
      have hB : ∀ x ∈ slotTokens B, keyToken key < x := by
        simpa [slotTokens, keyToken_lt_keyToken] using hl.above
      have hrest : (tokens before ++ slotTokens A ++ (slotTokens B ++ tokens after)).Pairwise
          (· < ·) := by
        refine hsorted.sublist ?_
        simp only [List.append_assoc]
        exact (List.Sublist.refl _).append ((List.Sublist.refl _).append
          (List.sublist_append_right _ _))
      have hmid : (tokens before ++ slotTokens A ++
          keyToken key :: (slotTokens B ++ tokens after)).Pairwise (· < ·) := by
        rw [List.pairwise_append] at hrest ⊢
        refine ⟨hrest.1, List.pairwise_cons.mpr ⟨?_, hrest.2.1⟩, ?_⟩
        · intro x hx
          exact (List.mem_append.mp hx).elim (hB x) (hb.2 x)
        · intro x hx y hy
          have hxk : x < keyToken key := (List.mem_append.mp hx).elim (hb.1 x) (hA x)
          rcases List.mem_cons.mp hy with rfl | hy
          · exact hxk
          · exact hrest.2.2 x hx y hy
      simpa [slotTokens] using hmid
  · have hlinked := ho.linked
    simp only [leavesOf_append, leavesOf, links_append, headId, Links] at hlinked ⊢
    exact hlinked

/-! ## Ranges -/

/-- The records of a range, as the pairs that a scan yields. -/
def inRange (start : Bytes) (stop : Option Bytes) (entries : List LeafSlot) :
    List (Bytes × Bytes) :=
  (entries.filter fun s => decide (start ≤ s.key) && stop.all (s.key < ·)).map
    fun s => (s.key, s.value)

/-- The records before the end of a range. -/
def upTo (stop : Option Bytes) (entries : List LeafSlot) : List (Bytes × Bytes) :=
  (entries.takeWhile fun s => stop.all (s.key < ·)).map fun s => (s.key, s.value)

theorem upTo_append_all {stop : Option Bytes}
    (hall : A.all (fun s => stop.all (s.key < ·)) = true) :
    upTo stop (A ++ B) = upTo stop A ++ upTo stop B := by
  have hall' := List.all_eq_true.mp hall
  rw [upTo, upTo, upTo, List.takeWhile_append_of_pos hall', List.map_append,
    List.takeWhile_eq_self_iff.mpr hall']

theorem upTo_append_not_all {stop : Option Bytes}
    (hall : ¬ A.all (fun s => stop.all (s.key < ·)) = true) : upTo stop (A ++ B) = upTo stop A := by
  rw [upTo, upTo, List.takeWhile_append, if_neg]
  intro hlen
  refine hall (List.all_eq_true.mpr ?_)
  exact List.takeWhile_eq_self_iff.mp ((List.takeWhile_sublist _).eq_of_length hlen)

theorem scanSlots_eq (stop : Option Bytes) (slots : List LeafSlot) :
    scanSlots stop slots = (upTo stop slots, slots.all fun s => stop.all (s.key < ·)) := by
  induction slots with
  | nil => cases stop <;> rfl
  | cons s slots ih =>
      cases stop with
      | none => simp [scanSlots, ih, upTo]
      | some k =>
          by_cases hk : k ≤ s.key
          · simp [scanSlots, hk, upTo]
          · have hlt : s.key < k := not_le.mp hk
            simp [scanSlots, hlt, ih, upTo]

/-- Everything of a sorted list that is before the end comes first. -/
theorem upTo_eq_filter {stop : Option Bytes} (hsorted : (entries.map (·.key)).Pairwise (· < ·)) :
    upTo stop entries =
      (entries.filter fun s => stop.all (s.key < ·)).map fun s => (s.key, s.value) := by
  rw [upTo]
  congr 1
  set p := fun s : LeafSlot => stop.all (s.key < ·) with hp
  induction entries with
  | nil => rfl
  | cons s entries ih =>
      rw [List.map_cons, List.pairwise_cons] at hsorted
      by_cases hk : p s = true
      · rw [List.takeWhile_cons_of_pos hk, List.filter_cons_of_pos hk, ih hsorted.2]
      · rw [List.takeWhile_cons_of_neg hk, List.filter_cons_of_neg hk, eq_comm]
        refine List.filter_eq_nil_iff.mpr fun x hx => ?_
        have hlt := hsorted.1 _ (List.mem_map_of_mem hx)
        cases stop with
        | none => simp [hp] at hk
        | some k =>
            simp only [hp, Option.all_some, decide_eq_true_eq, not_lt] at hk ⊢
            exact hk.trans hlt.le

/-- A cut at the start of a range leaves the range to its right. -/
theorem inRange_of_located {start : Bytes} {stop : Option Bytes}
    (hsorted : (entries.map (·.key)).Pairwise (· < ·)) (hl : Located start A o B entries) :
    inRange start stop entries = upTo stop ((o.map (LeafSlot.mk start)).toList ++ B) := by
  have htail : (((o.map (LeafSlot.mk start)).toList ++ B).map (·.key)).Pairwise (· < ·) := by
    refine hsorted.sublist (List.Sublist.map _ ?_)
    rw [hl.eq, List.append_assoc]
    exact List.sublist_append_right _ _
  have hge : ∀ s ∈ (o.map (LeafSlot.mk start)).toList ++ B, start ≤ s.key := by
    intro s hs
    rcases List.mem_append.mp hs with hs | hs
    · cases o with
      | none => simp at hs
      | some v =>
          simp only [Option.map_some, Option.toList_some, List.mem_singleton] at hs
          rw [hs]
    · exact (hl.above s hs).le
  rw [upTo_eq_filter htail, inRange, hl.eq, List.append_assoc, List.filter_append]
  congr 1
  have hA : A.filter (fun s => decide (start ≤ s.key) && stop.all (s.key < ·)) = [] := by
    refine List.filter_eq_nil_iff.mpr fun s hs => ?_
    have := not_le.mpr (hl.below s hs)
    simp [this]
  rw [hA, List.nil_append]
  refine List.filter_congr fun s hs => ?_
  simp [hge s hs]

theorem mem_inRange {M : KeyMap} (hM : Represents M entries) {start : Bytes} {stop : Option Bytes}
    {k v : Bytes} :
    (k, v) ∈ inRange start stop entries ↔ M k = some v ∧ start ≤ k ∧ stop.all (k < ·) := by
  rw [hM, inRange]
  simp only [List.mem_map, List.mem_filter, Bool.and_eq_true, decide_eq_true_eq, Prod.mk.injEq]
  constructor
  · rintro ⟨⟨k', v'⟩, ⟨hmem, hrange⟩, rfl, rfl⟩
    exact ⟨hmem, hrange⟩
  · rintro ⟨hmem, hrange⟩
    exact ⟨⟨k, v⟩, ⟨hmem, hrange⟩, rfl, rfl⟩

theorem pairwise_inRange {start : Bytes} {stop : Option Bytes}
    (hsorted : (entries.map (·.key)).Pairwise (· < ·)) :
    ((inRange start stop entries).map Prod.fst).Pairwise (· < ·) := by
  rw [inRange, List.map_map]
  exact hsorted.sublist ((List.filter_sublist).map _)

end BPTreeDB.PageStore
