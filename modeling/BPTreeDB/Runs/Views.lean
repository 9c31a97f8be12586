import BPTreeDB.Engine.Opening
import BPTreeDB.PageStore.Structure

/-!
# What a process holds, seen from outside

The page that a process would use under an id is the cached one, else the one in the data
file.  For a process that holds a tree these are the pages of the tree and of the
freelist, and the pages of the tree are those reached from the root.
-/

namespace BPTreeDB.Engine

open Lib Eng Codec Lib.Program PageStore

variable {R : Regime} {L H : ℕ} {T : Tree H} {C : Content} {M : KeyMap} {w w' : World} {x : ℕ}
  {mode : Mode} {live : List (ℕ × Ref)} {S : Store}

/-! ## Pages -/

/-- The bytes of a page in the data file, if the file has all of them. -/
def pageBytes (w : World) (x : ℕ) : Option Bytes :=
  let data := readAt (dataContent w) (x * w.pager.pageSizeBytes) w.pager.pageSizeBytes
  if data.length = w.pager.pageSizeBytes then some data else none

/-- The page of the data file under an id. -/
def filePage (w : World) (x : ℕ) : Option AnyPage :=
  (pageBytes w x).bind fun data => (decodePage data).toOption

/-- The tree page under an id: the cached object, else the page of the data file. -/
def treePage (w : World) (x : ℕ) : Option Page :=
  match w.pool.cache.lookup x with
  | some cached => w.pool.objects[cached.page]?
  | none =>
      match filePage w x with
      | some (.tree page) => some page
      | _ => none

/-- The freelist page under an id: the cached one, else the page of the data file. -/
def freelistPage (w : World) (x : ℕ) : Option FreelistPage :=
  match w.pager.freelistCache.lookup x with
  | some page => some page
  | none =>
      match filePage w x with
      | some (.freelist page) => some page
      | _ => none

theorem filePage_eq_some {page : AnyPage} :
    filePage w x = some page ↔ OnDisk (dataContent w) w.pager.pageSizeBytes x page := by
  simp only [filePage, pageBytes, OnDisk]
  split
  · rename_i hlen
    simp only [Option.bind_some, hlen, true_and]
    cases decodePage (readAt (dataContent w) (x * w.pager.pageSizeBytes) w.pager.pageSizeBytes) with
    | ok a => simp [Except.toOption]
    | error e => simp [Except.toOption]
  · rename_i hlen
    simp [hlen]

/-- A page of the store is the one the process would use, also in the middle of an
operation if a page that is not marked dirty yet is still cached. -/
theorem Sim.treePage {page : Page} (hs : Sim mode live w S) (hpage : S.pages x = some page)
    (hcached : x ∈ S.pending → x ∈ w.pool.cache.map Prod.fst) : treePage w x = some page := by
  unfold Engine.treePage
  cases hlookup : w.pool.cache.lookup x with
  | some cached =>
      have hmem := mem_of_lookup hlookup
      obtain ⟨q, hq', hobject⟩ := hs.pool.object (x, cached.page)
        (List.mem_append_right _ (List.mem_map.mpr ⟨_, hmem, rfl⟩))
      obtain rfl : page = q := Option.some.inj (hpage.symm.trans hq')
      exact hobject
  | none =>
      have habsent := lookup_eq_none.mp hlookup
      have hdisk := (hs.pool.disk x page hpage (fun h => habsent (hcached h)) fun c hc =>
        absurd (List.mem_map_of_mem (f := Prod.fst) hc) habsent).1
      have hfile : filePage w x = some (.tree page) := by
        rw [filePage_eq_some, hs.pageSize]
        exact hdisk
      simp only [hfile]

/-- Between two operations no page is pending. -/
theorem Quiet.treePage (hq : Quiet w C) {page : Page} (hpage : C.pages x = some page) :
    treePage w x = some page :=
  Sim.treePage hq hpage (by simp)

/-- The freelist of a process. -/
theorem Sim.freelist (hs : Sim mode live w S) : ∃ m, w.pager.metaPage = some m ∧
    MetaSim m S.pageSize S.root S.next ∧
    ChainFrom (fun x page => freelistPage w x = some page) m.freelistHeadPageId S.chain := by
  obtain ⟨m, hm, hmeta, hfree⟩ := hs.metaPage
  refine ⟨m, hm, hmeta, hfree.linked.congr fun x _ page hx => ?_⟩
  unfold freelistPage
  rcases hx with hx | ⟨hnone, hx⟩
  · rw [hx]
  · have hfile : filePage w x = some (.freelist page) := by
      rw [filePage_eq_some, hs.pageSize]
      exact hx
    simp only [hnone, hfile]

theorem Quiet.freelist (hq : Quiet w C) : ∃ m, w.pager.metaPage = some m ∧
    MetaSim m C.pageSize C.root C.next ∧
    ChainFrom (fun x page => freelistPage w x = some page) m.freelistHeadPageId C.chain :=
  Sim.freelist hq

/-! ## Reachability -/

/-- The pages reached from a root through the children of internal pages. -/
inductive InTree (view : ℕ → Option Page) (root : ℕ) : ℕ → Prop
  | root : InTree view root root
  | first {x : ℕ} {p : InternalPage} : InTree view root x → view x = some (.internal p) →
      InTree view root p.leftmostChildPageId
  | child {x : ℕ} {p : InternalPage} {s : InternalSlot} : InTree view root x →
      view x = some (.internal p) → s ∈ p.slots → InTree view root s.childPageId

/-- The pages of `t` are there, whatever their LSNs. -/
def Shows (view : ℕ → Option Page) (h : ℕ) (t : Tree h) : Prop :=
  ∀ p ∈ Tree.pages h t, ∃ page, view p.1 = some page ∧ stripLsn page = p.2

theorem Shows.node {h : ℕ} {view : ℕ → Option Page} {n : Node (Tree h)}
    (hs : Shows view (h + 1) (.node n)) :
    Shows view h n.first ∧ (∀ e ∈ n.rest, Shows view h e.2) ∧
      ∃ p, view n.id = some (.internal p) ∧ p.leftmostChildPageId = Tree.id h n.first ∧
        p.slots = n.rest.map fun e => ⟨e.1, Tree.id h e.2⟩ := by
  refine ⟨fun p hp => hs p ?_, fun e he p hp => hs p ?_, ?_⟩
  · rw [Tree.pages, Tree.below_node]
    exact List.mem_cons_of_mem _ (List.mem_append_left _ hp)
  · rw [Tree.pages, Tree.below_node]
    exact List.mem_cons_of_mem _ (List.mem_append_right _ (List.mem_flatMap.mpr ⟨e, he, hp⟩))
  · obtain ⟨page, hview, hstrip⟩ := hs (n.id, Tree.page (h + 1) (.node n)) (by simp [Tree.pages])
    cases page with
    | leaf p => cases hstrip
    | internal p =>
        simp only [stripLsn, BufferPool.setLsn, Tree.page_node, Page.internal.injEq,
          InternalPage.mk.injEq, true_and] at hstrip
        exact ⟨p, hview, hstrip⟩

theorem inTree_of_mem {view : ℕ → Option Page} {root : ℕ} :
    ∀ {h : ℕ} {t : Tree h}, Shows view h t → InTree view root (Tree.id h t) →
      ∀ y ∈ Tree.pageIds h t, InTree view root y := by
  intro h
  induction h with
  | zero =>
      intro t _ hroot y hy
      obtain ⟨l, rfl⟩ := t.exists_leaf
      obtain rfl : y = l.id := by simpa [Tree.pageIds, Tree.pages] using hy
      exact hroot
  | succ h ih =>
      intro t hs hroot y hy
      obtain ⟨n, rfl⟩ := t.exists_node
      obtain ⟨hfirst, hrest, p, hview, hleft, hslots⟩ := hs.node
      rw [Tree.pageIds, Tree.pages, Tree.below_node, List.map_cons, List.map_append,
        List.mem_cons, List.mem_append] at hy
      rcases hy with rfl | hy | hy
      · exact hroot
      · refine ih hfirst ?_ y hy
        rw [← hleft]
        exact .first hroot hview
      · obtain ⟨q, hq, rfl⟩ := List.mem_map.mp hy
        obtain ⟨e, he, hq⟩ := List.mem_flatMap.mp hq
        refine ih (hrest e he) ?_ _ (List.mem_map_of_mem hq)
        have hmem : (⟨e.1, Tree.id h e.2⟩ : InternalSlot) ∈ p.slots := by
          rw [hslots]
          exact List.mem_map.mpr ⟨e, he, rfl⟩
        exact .child hroot hview hmem

/-- The pages reached from the root of a tree are the pages of the tree. -/
theorem Shows.inTree_iff {view : ℕ → Option Page} (hs : Shows view H T) :
    InTree view (Tree.id H T) x ↔ x ∈ Tree.pageIds H T := by
  constructor
  · intro hx
    have hinternal : ∀ {y : ℕ} {p : InternalPage}, y ∈ Tree.pageIds H T →
        view y = some (.internal p) → p.leftmostChildPageId ∈ Tree.pageIds H T ∧
          ∀ s ∈ p.slots, s.childPageId ∈ Tree.pageIds H T := by
      intro y p hy hview
      obtain ⟨q, hq, rfl⟩ := List.mem_map.mp hy
      obtain ⟨page, hpage, hstrip⟩ := hs q hq
      obtain rfl : Page.internal p = page := Option.some.inj (hview.symm.trans hpage)
      have hmem : (q.1, Page.internal { p with lastModifiedLsn := 0 }) ∈ Tree.pages H T := by
        rw [show Page.internal { p with lastModifiedLsn := 0 } = q.2 from hstrip]
        exact hq
      have hchildren := Tree.children_mem hmem
      exact hchildren
    induction hx with
    | root => exact Tree.id_mem_pageIds T
    | first _ hview ih => exact (hinternal ih hview).1
    | child _ hview hs ih => exact (hinternal ih hview).2 _ hs
  · exact inTree_of_mem hs .root x

/-- A process that holds a tree shows it. -/
theorem Holding.shows (h : Holding R L M C T w) : Shows (Engine.treePage w) H T := by
  intro p hp
  obtain ⟨page, hpage, hstrip, -⟩ := h.inv.holds.stores p hp
  exact ⟨page, h.quiet.treePage hpage, hstrip⟩

end BPTreeDB.Engine
