import BPTreeDB.PageStore.PageContents

/-!
# Executing the primitives of the page store

`Conf` collects what is known about the store in the middle of an operation: the
pages it holds, the page ids in use, and what the rules of the store ask for (which
pages may be pending, which were touched, how much of the budget is left).  There is
one lemma for each primitive; it says that the primitive succeeds and what is known
afterwards.  The proofs about the cascade chain these lemmas and never look inside
the store.
-/

namespace BPTreeDB.PageStore

open Lib Codec BPlusTree BufferPool Lib.Program

/-- A bound on what an operation may assume about the store: page size, LSN bound and
root; the pages held; the ids in use; pages that may be pending, pages that were
touched, and the budget left. -/
structure Conf (P L root : ℕ) (pages : List (ℕ × Page)) (owned pend hot : List ℕ) (n : ℕ)
    (S : Store) : Prop where
  pageSize : S.pageSize = P
  root_eq : S.root = root
  next_pos : 1 ≤ S.next
  holds : Holds L S.pages pages
  accounted : Accounted S.next S.chain owned
  chainFits : ChainFits S.pageSize S.chain
  pending : ∀ x ∈ S.pending, x ∈ pend
  touched : ∀ x ∈ hot, x ∈ S.touched
  budget : n ≤ S.budget

namespace Conf

variable {P L root : ℕ} {pages pages' : List (ℕ × Page)} {owned owned' pend pend' hot hot' : List ℕ}
  {n n' id lsn : ℕ} {content : Page} {S : Store}

theorem weaken (hc : Conf P L root pages owned pend hot n S) (hpages : pages.Perm pages')
    (howned : owned.Perm owned') (hpend : ∀ x ∈ pend, x ∈ pend') (hhot : ∀ x ∈ hot', x ∈ hot)
    (hn : n' ≤ n) : Conf P L root pages' owned' pend' hot' n' S where
  pageSize := hc.pageSize
  root_eq := hc.root_eq
  next_pos := hc.next_pos
  holds := hc.holds.perm hpages
  accounted := fun x => by rw [← howned.count_eq]; exact hc.accounted x
  chainFits := hc.chainFits
  pending := fun x hx => hpend x (hc.pending x hx)
  touched := fun x hx => hc.touched x (hhot x hx)
  budget := hn.trans hc.budget

theorem perm (hc : Conf P L root pages owned pend hot n S) (pages' : List (ℕ × Page))
    (hpages : pages.Perm pages') : Conf P L root pages' owned pend hot n S :=
  { hc with holds := hc.holds.perm hpages }

theorem le_budget (hc : Conf P L root pages owned pend hot n S) (n' : ℕ) (hn : n' ≤ n) :
    Conf P L root pages owned pend hot n' S :=
  { hc with budget := hn.trans hc.budget }

/-- Reading a page. -/
theorem deref (hc : Conf P L root pages owned pend hot n S) (hmem : (id, content) ∈ pages) :
    ∃ page, PageStore.deref id S = .ok page S ∧ stripLsn page = content ∧ pageLsn page ≤ L := by
  obtain ⟨page, hpage, hstrip, hlsn⟩ := hc.holds.stores _ hmem
  refine ⟨page, ?_, hstrip, hlsn⟩
  simp [PageStore.deref, run_bind, hpage]

/-- Reading an internal page. -/
theorem derefInternal (hc : Conf P L root pages owned pend hot n S) (id first : ℕ)
    (slots : List InternalSlot) (hmem : (id, .internal ⟨0, first, slots⟩) ∈ pages) :
    ∃ lsn ≤ L, PageStore.deref id S = .ok (.internal ⟨lsn, first, slots⟩) S ∧
      PageStore.derefInternal id S = .ok ⟨lsn, first, slots⟩ S := by
  obtain ⟨page, hderef, hstrip, hlsn⟩ := hc.deref hmem
  have hpage := eq_setLsn_of_stripLsn hstrip
  rw [hpage] at hderef
  exact ⟨pageLsn page, hlsn, hderef, by simp [PageStore.derefInternal, run_bind, hderef, setLsn]⟩

/-- Touching a page. -/
theorem touch (hc : Conf P L root pages owned pend hot (n + 1) S) (id : ℕ) :
    ∃ S', PageStore.touch id S = .ok () S' ∧ S'.toContent = S.toContent ∧
      S'.pending = S.pending ∧ Conf P L root pages owned pend (id :: hot) n S' := by
  by_cases hmem : id ∈ S.touched
  · refine ⟨S, by simp [PageStore.touch, run_bind, hmem], rfl, rfl, ?_⟩
    refine { hc with touched := fun x hx => ?_, budget := by have := hc.budget; omega }
    rcases List.mem_cons.mp hx with rfl | hx
    · exact hmem
    · exact hc.touched x hx
  · have hbudget : 0 < S.budget := by have := hc.budget; omega
    refine ⟨{ S with touched := id :: S.touched, budget := S.budget - 1 }, ?_, rfl, rfl, ?_⟩
    · simp [PageStore.touch, run_bind, hmem, require, hbudget]
    · refine ⟨hc.pageSize, hc.root_eq, hc.next_pos, hc.holds, hc.accounted, hc.chainFits,
        hc.pending, ?_, ?_⟩
      · intro x hx
        rcases List.mem_cons.mp hx with rfl | hx
        · exact List.mem_cons_self ..
        · exact List.mem_cons_of_mem _ (hc.touched x hx)
      · have := hc.budget
        simp only
        omega

theorem isSome (hc : Conf P L root pages owned pend hot n S) (hid : id ∈ pages.map Prod.fst) :
    (S.pages id).isSome := by
  obtain ⟨p, hp, rfl⟩ := List.mem_map.mp hid
  obtain ⟨page, hpage, -⟩ := hc.holds.stores p hp
  simp [hpage]

theorem getPage_eq_touch (hc : Conf P L root pages owned pend hot n S)
    (hid : id ∈ pages.map Prod.fst) (hpend : id ∉ pend) :
    PageStore.getPage id S = PageStore.touch id S := by
  have hnot : id ∉ S.pending := fun h => hpend (hc.pending id h)
  simp [PageStore.getPage, run_bind, require, hnot, hc.isSome hid]

/-- Fetching a page. -/
theorem getPage (hc : Conf P L root pages owned pend hot (n + 1) S) (id : ℕ)
    (hid : id ∈ pages.map Prod.fst) (hpend : id ∉ pend) :
    ∃ S', PageStore.getPage id S = .ok () S' ∧ S'.toContent = S.toContent ∧
      Conf P L root pages owned pend (id :: hot) n S' := by
  obtain ⟨S', htouch, hcontent, -, hc'⟩ := hc.touch id
  exact ⟨S', by rw [hc.getPage_eq_touch hid hpend, htouch], hcontent, hc'⟩

/-- Fetching a page that was fetched before. -/
theorem getPage_hot (hc : Conf P L root pages owned pend hot n S) (id : ℕ)
    (hid : id ∈ pages.map Prod.fst) (hpend : id ∉ pend) (hhot : id ∈ hot) :
    PageStore.getPage id S = .ok () S := by
  rw [hc.getPage_eq_touch hid hpend]
  simp [PageStore.touch, run_bind, hc.touched id hhot]

/-- Changing a page in place. -/
theorem assign (hc : Conf P L root ((id, content) :: pages) owned pend hot n S) (page : Page)
    (hlsn : pageLsn page ≤ L) :
    ∃ S', PageStore.assign id page S = .ok () S' ∧
      Conf P L root ((id, stripLsn page) :: pages) owned (id :: pend) hot n S' := by
  refine ⟨_, rfl, hc.pageSize, hc.root_eq, hc.next_pos, hc.holds.update hlsn, hc.accounted,
    hc.chainFits,
    ?_, hc.touched, hc.budget⟩
  intro x hx
  rcases List.mem_cons.mp hx with rfl | hx
  · exact List.mem_cons_self ..
  · exact List.mem_cons_of_mem _ (hc.pending x hx)

/-- Changing the second page in the list. -/
theorem assignSecond {p : ℕ × Page}
    (hc : Conf P L root (p :: (id, content) :: pages) owned pend hot n S) (page : Page)
    (hlsn : pageLsn page ≤ L) :
    ∃ S', PageStore.assign id page S = .ok () S' ∧
      Conf P L root (p :: (id, stripLsn page) :: pages) owned (id :: pend) hot n S' := by
  obtain ⟨S', hrun, hc'⟩ := (hc.perm _ (.swap _ _ _)).assign page hlsn
  exact ⟨S', hrun, hc'.perm _ (.swap _ _ _)⟩

/-- Changing the third page in the list. -/
theorem assignThird {p q : ℕ × Page}
    (hc : Conf P L root (p :: q :: (id, content) :: pages) owned pend hot n S) (page : Page)
    (hlsn : pageLsn page ≤ L) :
    ∃ S', PageStore.assign id page S = .ok () S' ∧
      Conf P L root (p :: q :: (id, stripLsn page) :: pages) owned (id :: pend) hot n S' := by
  obtain ⟨S', hrun, hc'⟩ := (hc.perm _ (.cons _ (.swap _ _ _))).assignSecond page hlsn
  exact ⟨S', hrun, hc'.perm _ (.cons _ (.swap _ _ _))⟩

/-- Marking a page dirty. -/
theorem markDirty (hc : Conf P L root pages owned pend hot n S) (id : ℕ) (pend' : List ℕ)
    (hid : id ∈ pages.map Prod.fst) (hhot : id ∈ hot) (hlsn : lsn ≤ L)
      (hpend : ∀ x ∈ pend, x = id ∨ x ∈ pend') :
    ∃ S', PageStore.markDirty id lsn S = .ok () S' ∧
      Conf P L root pages owned pend' hot n S' := by
  obtain ⟨⟨id, content⟩, hmem, rfl⟩ := List.mem_map.mp hid
  obtain ⟨page, hderef, hstrip, hle⟩ := hc.deref hmem
  obtain ⟨left, right, rfl⟩ := List.append_of_mem hmem
  have hperm : (left ++ (id, content) :: right).Perm ((id, content) :: (left ++ right)) :=
    List.perm_middle
  refine ⟨{ S.setPage id (some (setLsn (max (pageLsn page) lsn) page)) with
    pending := S.pending.filter (· ≠ id) }, ?_, hc.pageSize, hc.root_eq, hc.next_pos, ?_,
    hc.accounted,
    hc.chainFits, ?_, hc.touched, hc.budget⟩
  · simp [PageStore.markDirty, run_bind, hderef, require, hc.touched id hhot]
  · have hle' : pageLsn (setLsn (max (pageLsn page) lsn) page) ≤ L := by simp [hle, hlsn]
    have hupdate := (hc.holds.perm hperm).update hle'
    rw [stripLsn_setLsn, hstrip] at hupdate
    exact hupdate.perm hperm.symm
  · intro x hx
    simp only [List.mem_filter, ne_eq, decide_eq_true_eq] at hx
    exact (hpend x (hc.pending x hx.1)).resolve_left hx.2

/-- Adding a page. -/
theorem insertPage (hc : Conf P L root pages owned pend hot (n + 1) S) (id : ℕ) (page : Page)
    (hid : id ∉ pages.map Prod.fst) (hpend : id ∉ pend) (hlsn : lsn ≤ L) :
    ∃ S', PageStore.insertPage id page lsn S = .ok () S' ∧
      Conf P L root ((id, stripLsn page) :: pages) owned pend (id :: hot) n S' := by
  obtain ⟨S', htouch, hcontent, hpending, hc'⟩ := hc.touch id
  have hnone := hc.holds.pages_eq_none hid
  have hnot : id ∉ S.pending := fun h => hpend (hc.pending id h)
  refine ⟨S'.setPage id (some (setLsn lsn page)), ?_, hc'.pageSize, hc'.root_eq, hc'.next_pos, ?_,
    hc'.accounted, hc'.chainFits, hc'.pending, hc'.touched, hc'.budget⟩
  · simp [PageStore.insertPage, run_bind, require, hnone, hnot, htouch]
  · have hle : pageLsn (setLsn lsn page) ≤ L := by simp [hlsn]
    have hinsert := hc'.holds.insert hid hle
    rwa [stripLsn_setLsn] at hinsert

/-- Dropping a page. -/
theorem drop (hc : Conf P L root ((id, content) :: pages) owned pend hot n S) (pend' : List ℕ)
    (hpend : ∀ x ∈ pend, x = id ∨ x ∈ pend') :
    ∃ S', PageStore.drop id S = .ok () S' ∧ Conf P L root pages owned pend' hot n S' := by
  refine ⟨_, rfl, hc.pageSize, hc.root_eq, hc.next_pos, hc.holds.erase, hc.accounted, hc.chainFits,
    ?_, hc.touched, hc.budget⟩
  intro x hx
  simp only [List.mem_filter, ne_eq, decide_eq_true_eq] at hx
  exact (hpend x (hc.pending x hx.1)).resolve_left hx.2

theorem setRoot (hc : Conf P L root pages owned pend hot n S) (id : ℕ) :
    ∃ S', PageStore.setRoot id S = .ok () S' ∧ Conf P L id pages owned pend hot n S' :=
  ⟨_, rfl, hc.pageSize, rfl, hc.next_pos, hc.holds, hc.accounted, hc.chainFits,
    hc.pending, hc.touched,
    hc.budget⟩

/-! ## The allocator -/

@[simp] theorem freeIds_nil : freeIds [] = [] := rfl

@[simp] theorem freeIds_cons (e : ℕ × List ℕ) (chain : List (ℕ × List ℕ)) :
    freeIds (e :: chain) = e.1 :: e.2 ++ freeIds chain := rfl

theorem map_fst_sublist_freeIds (chain : List (ℕ × List ℕ)) :
    (chain.map Prod.fst).Sublist (freeIds chain) := by
  induction chain with
  | nil => simp
  | cons e chain ih =>
      simp only [List.map_cons, freeIds_cons, List.cons_append]
      exact (ih.trans (List.sublist_append_right _ _)).cons_cons _

/-- No id is in use and on the freelist, or there twice. -/
theorem count_le_one (hc : Conf P L root pages owned pend hot n S) (x : ℕ) :
    owned.count x + (freeIds S.chain).count x ≤ 1 := by
  have := hc.accounted x
  split at this <;> omega

theorem bumpAllocateOnePage (hc : Conf P L root pages owned pend hot n S) :
    PageStore.bumpAllocateOnePage S = .ok S.next { S with next := S.next + 1 } ∧
      S.next ∉ owned ∧
      Conf P L root pages (S.next :: owned) pend hot n { S with next := S.next + 1 } := by
  have hzero := hc.accounted S.next
  simp only [lt_irrefl, and_false, if_false] at hzero
  refine ⟨rfl, List.count_eq_zero.mp (by omega), hc.pageSize, hc.root_eq, by simp, hc.holds, ?_,
    hc.chainFits, hc.pending, hc.touched, hc.budget⟩
  intro x
  have hx := hc.accounted x
  have hpos := hc.next_pos
  rw [List.count_cons]
  by_cases hnext : S.next = x
  · subst hnext
    simp only [beq_self_eq_true, if_true] at *
    rw [if_pos ⟨hpos, Nat.lt_succ_self _⟩]
    omega
  · simp only [beq_iff_eq, hnext, if_false]
    have hiff : (1 ≤ x ∧ x < S.next + 1) ↔ (1 ≤ x ∧ x < S.next) := by omega
    rw [Nat.add_zero, hx]
    simp only [hiff]

/-- Allocating a page. -/
theorem allocatePage (hc : Conf P L root pages owned pend hot n S) :
    ∃ id S', PageStore.allocatePage S = .ok id S' ∧ id ∉ owned ∧
      Conf P L root pages (id :: owned) pend hot n S' := by
  have hcount := hc.count_le_one
  have hacc := hc.accounted
  have hfits := hc.chainFits
  cases hchain : S.chain with
  | nil =>
      obtain ⟨hrun, hnot, hc'⟩ := hc.bumpAllocateOnePage
      refine ⟨S.next, { S with next := S.next + 1 }, ?_, hnot, hc'⟩
      rw [← hrun]
      simp [PageStore.allocatePage, run_bind, hchain]
  | cons e rest =>
      obtain ⟨head, freed⟩ := e
      rw [hchain] at hcount hfits
      unfold Accounted at hacc
      rw [hchain] at hacc
      simp only [freeIds_cons, List.cons_append, List.count_cons, List.count_append] at hcount hacc
      rcases List.eq_nil_or_concat freed with rfl | ⟨init, pageId, rfl⟩
      · refine ⟨head, { S with chain := rest }, ?_, ?_, hc.pageSize, hc.root_eq, hc.next_pos,
          hc.holds, ?_, ?_, hc.pending, hc.touched, hc.budget⟩
        · simp [PageStore.allocatePage, run_bind, hchain]
        · refine List.count_eq_zero.mp ?_
          have := hcount head
          simp only [beq_self_eq_true, if_true] at this
          omega
        · intro x
          have := hacc x
          simp only [List.count_nil] at this
          simp only [List.count_cons]
          omega
        · exact fun e he => hfits e (List.mem_cons_of_mem _ he)
      · rw [List.concat_eq_append] at *
        simp only [List.count_append, List.count_singleton] at hcount hacc
        have hone := hcount pageId
        simp only [beq_self_eq_true, if_true] at hone
        -- The id is free once, so it is no head of the freelist.
        have hheads : pageId ∉ (head :: rest.map Prod.fst) := by
          intro hmem
          rcases List.mem_cons.mp hmem with rfl | hmem
          · simp only [beq_self_eq_true, if_true] at hone
            omega
          · have := List.one_le_count_iff.mpr ((map_fst_sublist_freeIds rest).subset hmem)
            omega
        refine ⟨pageId, { S with chain := (head, init) :: rest }, ?_, ?_, hc.pageSize, hc.root_eq,
          hc.next_pos, hc.holds, ?_, ?_, hc.pending, hc.touched, hc.budget⟩
        · have hheads' : pageId ≠ head ∧ ∀ x, (pageId, x) ∉ rest := by simpa using hheads
          simp [PageStore.allocatePage, run_bind, hchain, require, hheads'.1, hheads'.2]
        · exact List.count_eq_zero.mp (by omega)
        · intro x
          have := hacc x
          simp only [freeIds_cons, List.cons_append, List.count_cons, List.count_append]
          omega
        · intro e he
          rcases List.mem_cons.mp he with rfl | he
          · have := hfits _ (List.mem_cons_self ..)
            simp only [List.length_append, List.length_singleton] at this
            simp only
            omega
          · exact hfits e (List.mem_cons_of_mem _ he)

theorem pushFreelistHead (hc : Conf P L root pages (id :: owned) pend hot n S)
    (hP : 40 ≤ P) : ∃ S', PageStore.pushFreelistHead id S = .ok () S' ∧
      Conf P L root pages owned pend hot n S' := by
  obtain ⟨hrun, -, hc'⟩ := hc.bumpAllocateOnePage
  refine ⟨{ S with next := S.next + 1, chain := (S.next, [id]) :: S.chain }, ?_, hc.pageSize,
    hc.root_eq, hc'.next_pos, hc.holds, ?_, ?_, hc.pending, hc.touched, hc.budget⟩
  · have hzero := hc.accounted S.next
    simp only [lt_irrefl, and_false, if_false] at hzero
    have hfree : S.next ∉ freeIds S.chain := List.count_eq_zero.mp (by omega)
    have hnext : S.next ≠ 0 ∧ S.next ∉ S.chain.map Prod.fst :=
      ⟨by have := hc.next_pos; omega, fun h => hfree ((map_fst_sublist_freeIds _).subset h)⟩
    rw [PageStore.pushFreelistHead, run_bind_ok hrun, run_bind_ok (run_get _), require,
      if_pos hnext, run_bind_ok (run_pure _ _), run_set]
  · intro x
    have := hc'.accounted x
    simp only [freeIds_cons, List.cons_append, List.count_cons, List.count_append,
      List.count_nil] at this ⊢
    omega
  · intro e he
    rcases List.mem_cons.mp he with rfl | he
    · simp only [List.length_singleton, getMaxFreedIdsPerFreelistPage, hc.pageSize,
        pageHeaderSize, pageIdFieldSize]
      omega
    · exact hc.chainFits e he

/-- Freeing a page. -/
theorem freePage (hc : Conf P L root pages (id :: owned) pend hot n S) (hP : 40 ≤ P) :
    ∃ S', PageStore.freePage id S = .ok () S' ∧ Conf P L root pages owned pend hot n S' := by
  obtain ⟨S', hpush, hc'⟩ := hc.pushFreelistHead hP
  have hfits := hc.chainFits
  cases hchain : S.chain with
  | nil =>
      refine ⟨S', ?_, hc'⟩
      simp only [PageStore.freePage, run_bind, run_get, hchain]
      exact hpush
  | cons e rest =>
      obtain ⟨head, freed⟩ := e
      by_cases hroom : freed.length < getMaxFreedIdsPerFreelistPage S.pageSize
      · refine ⟨{ S with chain := (head, freed ++ [id]) :: rest }, ?_, hc.pageSize, hc.root_eq,
          hc.next_pos, hc.holds, ?_, ?_, hc.pending, hc.touched, hc.budget⟩
        · simp [PageStore.freePage, run_bind, hchain, hroom]
        · intro x
          have hacc := hc.accounted x
          rw [hchain] at hacc
          simp only [freeIds_cons, List.cons_append, List.count_cons, List.count_append,
            List.count_nil] at hacc ⊢
          omega
        · intro e he
          rcases List.mem_cons.mp he with rfl | he
          · simp only [List.length_append, List.length_singleton]
            omega
          · exact hfits e (by rw [hchain]; exact List.mem_cons_of_mem _ he)
      · refine ⟨S', ?_, hc'⟩
        simp only [PageStore.freePage, run_bind, run_get, hchain, hroom, if_false]
        exact hpush

end Conf

end BPTreeDB.PageStore
