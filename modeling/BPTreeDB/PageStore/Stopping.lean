import BPTreeDB.Model.Debug
import BPTreeDB.PageStore.Neighbours

/-!
# Stores that an exception leaves behind

Rebalancing may raise in the middle of its work, with pages changed that were not marked
dirty, and with a slot that was moved by half.  The pages are then no tree.  Two things
still hold: every child of a page is in the store, and every changed page was touched by
the operation, so that a pool with room still holds its object.
-/

namespace BPTreeDB.PageStore

open Lib Codec BPlusTree BufferPool Lib.Program
open Debug (childPageIds)

variable {L P root h H n : ℕ} {T : Tree H} {owned pend hot : List ℕ} {S : Store}

/-! ## Children -/

theorem Tree.id_mem_of_child {h : ℕ} {n : Node (Tree h)} {e : Bytes × Tree h} (he : e ∈ n.rest) :
    ∀ x ∈ Tree.pageIds h e.2, x ∈ Tree.pageIds (h + 1) (.node n) := by
  intro x hx
  obtain ⟨p, hp, rfl⟩ := List.mem_map.mp hx
  refine List.mem_map_of_mem ?_
  rw [Tree.pages, Tree.below_node]
  exact List.mem_cons_of_mem _ (List.mem_append_right _ (List.mem_flatMap.mpr ⟨e, he, hp⟩))

theorem Tree.id_mem_of_first {h : ℕ} {n : Node (Tree h)} :
    ∀ x ∈ Tree.pageIds h n.first, x ∈ Tree.pageIds (h + 1) (.node n) := by
  intro x hx
  obtain ⟨p, hp, rfl⟩ := List.mem_map.mp hx
  refine List.mem_map_of_mem ?_
  rw [Tree.pages, Tree.below_node]
  exact List.mem_cons_of_mem _ (List.mem_append_left _ hp)

/-- The children of an internal page are pages of the tree. -/
theorem Tree.children_mem : ∀ {h : ℕ} {t : Tree h} {x : ℕ} {p : InternalPage},
    (x, Page.internal p) ∈ Tree.pages h t →
      p.leftmostChildPageId ∈ Tree.pageIds h t ∧
        ∀ s ∈ p.slots, s.childPageId ∈ Tree.pageIds h t := by
  intro h
  induction h with
  | zero =>
      intro t x p hp
      obtain ⟨l, rfl⟩ := t.exists_leaf
      simp [Tree.pages] at hp
  | succ h ih =>
      intro t x p hp
      obtain ⟨n, rfl⟩ := t.exists_node
      rw [Tree.pages, Tree.below_node, List.mem_cons, List.mem_append] at hp
      rcases hp with hp | hp | hp
      · simp only [Tree.page_node, Prod.mk.injEq, Page.internal.injEq] at hp
        obtain ⟨-, rfl⟩ := hp
        refine ⟨Tree.id_mem_of_first _ (Tree.id_mem_pageIds n.first), fun s hs => ?_⟩
        obtain ⟨e, he, rfl⟩ := List.mem_map.mp hs
        exact Tree.id_mem_of_child he _ (Tree.id_mem_pageIds e.2)
      · obtain ⟨hfirst, hslots⟩ := ih hp
        exact ⟨Tree.id_mem_of_first _ hfirst, fun s hs => Tree.id_mem_of_first _ (hslots s hs)⟩
      · obtain ⟨e, he, hp⟩ := List.mem_flatMap.mp hp
        obtain ⟨hfirst, hslots⟩ := ih hp
        exact ⟨Tree.id_mem_of_child he _ hfirst, fun s hs =>
          Tree.id_mem_of_child he _ (hslots s hs)⟩

/-- The children of a page of the tree. -/
theorem Tree.childPageIds_mem {x y : ℕ} {page : Page} (hpage : (x, stripLsn page) ∈ Tree.pages H T)
    (hy : y ∈ childPageIds page) : y ∈ Tree.pageIds H T := by
  cases page with
  | leaf p => cases hy
  | internal p =>
      obtain ⟨hfirst, hslots⟩ := Tree.children_mem (p := { p with lastModifiedLsn := 0 }) hpage
      unfold childPageIds at hy
      rcases List.mem_cons.mp hy with rfl | hy
      · exact hfirst
      · obtain ⟨s, hs, rfl⟩ := List.mem_map.mp hy
        exact hslots s hs

/-! ## Stopped operations -/

/-- The root and the children of every page are in the store, and every pending page was
touched. -/
structure Stopped (S : Store) : Prop where
  root : (S.pages S.root).isSome
  closed : ∀ x page, S.pages x = some page → ∀ y ∈ childPageIds page, (S.pages y).isSome
  pending : ∀ x ∈ S.pending, x ∈ S.touched

/-- A store that holds a whole tree. -/
theorem Conf.stopped (hc : Conf P L (Tree.id H T) (Tree.pages H T) owned pend hot n S)
    (hpend : ∀ x ∈ pend, x ∈ hot) : Stopped S where
  root := by
    rw [hc.root_eq]
    exact hc.isSome (Tree.id_mem_pageIds T)
  closed x page hpage y hy := by
    obtain ⟨p, hp, rfl⟩ := List.mem_map.mp (hc.holds.only x page hpage)
    obtain ⟨q, hq, hstrip, -⟩ := hc.holds.stores p hp
    obtain rfl : page = q := Option.some.inj (hpage.symm.trans hq)
    have hpage' : (p.1, stripLsn page) ∈ Tree.pages H T := by
      rw [hstrip]
      exact hp
    exact hc.isSome (Tree.childPageIds_mem hpage' hy)
  pending x hx := hc.touched x (hpend x (hc.pending x hx))

/-- A touched page gets a new content, whose children are in the store. -/
theorem Stopped.assign {x : ℕ} (hs : Stopped S) (page : Page) (hx : x ∈ S.touched)
    (hchildren : ∀ y ∈ childPageIds page, (S.pages y).isSome) :
    Stopped { S.setPage x (some page) with pending := x :: S.pending } := by
  have hkept : ∀ y, (S.pages y).isSome → (Function.update S.pages x (some page) y).isSome := by
    intro y hy
    by_cases hyx : y = x
    · rw [hyx, Function.update_self]
      rfl
    · rw [Function.update_of_ne hyx]
      exact hy
  refine ⟨hkept _ hs.root, fun z q hz y hy => hkept y ?_, fun y hy => ?_⟩
  · by_cases hzx : z = x
    · have hz : Function.update S.pages x (some page) z = some q := hz
      rw [hzx, Function.update_self] at hz
      cases hz
      exact hchildren y hy
    · have hz : Function.update S.pages x (some page) z = some q := hz
      rw [Function.update_of_ne hzx] at hz
      exact hs.closed z q hz y hy
  · rcases List.mem_cons.mp hy with rfl | hy
    · exact hx
    · exact hs.pending y hy

/-! ## Rotations that stop -/

/-- A round moves children between two pages, and makes up none. -/
theorem childPageIds_rotateSlot (isLeft : Bool) (r : Rotation) :
    ∀ y, y ∈ childPageIds (rotateSlot isLeft r).1.donor ∨
        y ∈ childPageIds (rotateSlot isLeft r).1.recipient →
      y ∈ childPageIds r.donor ∨ y ∈ childPageIds r.recipient := by
  obtain ⟨donor, recipient, separator⟩ := r
  intro y hy
  cases donor with
  | leaf donor =>
      cases recipient with
      | leaf recipient =>
          unfold rotateSlot at hy
          dsimp only at hy
          split at hy
          · split at hy <;> simp [childPageIds] at hy
          · split at hy
            · simp [childPageIds] at hy
            · split at hy <;> simp [childPageIds] at hy
      | internal recipient => exact hy
  | internal donor =>
      cases recipient with
      | leaf recipient => exact hy
      | internal recipient =>
          unfold rotateSlot at hy
          dsimp only at hy
          split at hy
          · split at hy
            · simp only [childPageIds, List.map_cons, List.mem_cons] at hy ⊢
              tauto
            · rename_i slot hslot
              -- The last slot of the donor becomes the leftmost child of the recipient.
              have hlast : slot.childPageId ∈ donor.slots.map (·.childPageId) :=
                List.mem_map_of_mem (List.mem_of_getLast? hslot)
              have hsub : ∀ z ∈ donor.slots.dropLast.map (·.childPageId),
                  z ∈ donor.slots.map (·.childPageId) :=
                fun z hz => ((List.dropLast_sublist _).map _).subset hz
              simp only [childPageIds, List.map_cons, List.mem_cons] at hy ⊢
              rcases hy with (rfl | hy) | rfl | hy
              · exact .inl (.inl rfl)
              · exact .inl (.inr (hsub y hy))
              · exact .inl (.inr hlast)
              · exact .inr hy
          · split at hy
            · simp only [childPageIds, List.map_append, List.map_cons, List.map_nil, List.mem_cons,
                List.mem_append, List.not_mem_nil, or_false] at hy ⊢
              tauto
            · rename_i slot rest hslots
              simp only [childPageIds, hslots, List.map_append, List.map_cons, List.map_nil,
                List.mem_cons, List.mem_append, List.not_mem_nil, or_false] at hy ⊢
              tauto

theorem childPageIds_rotateSlots (isLeft : Bool) (pageSize fuel : ℕ) :
    ∀ (r : Rotation) (y : ℕ), y ∈ childPageIds (rotateSlots pageSize isLeft fuel r).1.donor ∨
        y ∈ childPageIds (rotateSlots pageSize isLeft fuel r).1.recipient →
      y ∈ childPageIds r.donor ∨ y ∈ childPageIds r.recipient := by
  induction fuel with
  | zero => exact fun _ _ hy => hy
  | succ fuel ih =>
      intro r y hy
      have hround := childPageIds_rotateSlot isLeft r y
      unfold rotateSlots at hy
      split at hy
      · split at hy
        · rename_i hrun
          rw [hrun] at hround
          exact hround hy
        · rename_i hrun
          rw [hrun] at hround
          split at hy
          · exact hround hy
          · exact hround (ih _ y hy)
      · exact hy

theorem childPageIds_setSeparator (p : InternalPage) (idx : ℕ) (key : Bytes) :
    childPageIds (.internal (setSeparator p idx key)) = childPageIds (.internal p) := by
  have hslots : ∀ (slots : List InternalSlot) (i : ℕ),
      (slots.modify i fun slot => { slot with key }).map (·.childPageId) =
        slots.map (·.childPageId) := by
    intro slots
    induction slots with
    | nil => simp
    | cons slot slots ih =>
        intro i
        cases i with
        | zero => simp
        | succ i => simp [ih i]
  simp only [childPageIds, setSeparator, hslots]

theorem pages_of_deref {x : ℕ} {page : Page} (h : deref x S = .ok page S) :
    S.pages x = some page := by
  unfold deref at h
  rw [run_bind_ok (run_get S)] at h
  cases hx : S.pages x with
  | none =>
      simp only [hx] at h
      cases h
  | some q =>
      simp only [hx] at h
      cases h
      rfl

/-- The three pages of a rotation that raised are stored as they are. -/
theorem Stopped.assign_rotation {x y z : ℕ} {donor donor' recipient recipient' : Page}
    {parent : InternalPage} (hs : Stopped S) (hx : x ∈ S.touched) (hy : y ∈ S.touched)
    (hz : z ∈ S.touched) (hdonor : S.pages x = some donor) (hrecipient : S.pages y = some recipient)
    (hparent : S.pages z = some (.internal parent)) (idx : ℕ) (key : Bytes)
    (hmoved : ∀ c, c ∈ childPageIds donor' ∨ c ∈ childPageIds recipient' →
      c ∈ childPageIds donor ∨ c ∈ childPageIds recipient) :
    Stopped { ((S.setPage x (some donor')).setPage y (some recipient')).setPage z
      (some (.internal (setSeparator parent idx key))) with
        pending := z :: y :: x :: S.pending } := by
  have hkept : ∀ c, c ∈ childPageIds donor' ∨ c ∈ childPageIds recipient' →
      (S.pages c).isSome := fun c hc =>
    (hmoved c hc).elim (hs.closed x donor hdonor c) (hs.closed y recipient hrecipient c)
  have hsome : ∀ (S : Store) (a c : ℕ) (page : Page), (S.pages c).isSome →
      ((S.setPage a (some page)).pages c).isSome := by
    intro S a c page hc
    by_cases hca : c = a
    · simp [Store.setPage, hca]
    · simpa [Store.setPage, Function.update_of_ne hca] using hc
  have h1 := hs.assign donor' hx fun c hc => hkept c (.inl hc)
  have h2 := h1.assign recipient' hy fun c hc =>
    hsome S x c donor' (hkept c (.inr hc))
  have h3 := h2.assign (.internal (setSeparator parent idx key)) hz fun c hc => ?_
  · exact h3
  · rw [childPageIds_setSeparator] at hc
    have hc' := hs.closed z _ hparent c hc
    exact hsome _ y c recipient' (hsome S x c donor' hc')

end BPTreeDB.PageStore
