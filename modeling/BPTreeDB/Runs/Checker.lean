import BPTreeDB.Engine.StorePages
import BPTreeDB.PageStore.Checked

/-!
# What the invariant checker promises

Where `assert_tree_invariants` returns, a scan returns the records of the leaves in order and
searches find exactly these, if and only if the keys of each leaf increase strictly and nothing
but empty leaves comes behind the last leaf.  The checker looks at neither: it lets equal
neighbours in a leaf pass, and it does not read the link of the last leaf.
-/

namespace BPTreeDB.Runs

open Lib Eng Codec Lib.Program PageStore Engine Debug BPlusTree

variable {S : ℕ → Option Page} {H h : ℕ} {T : Tree H} {m : MetaPage} {w w' : World}
  {x : ℕ} {ref : Ref}
  {page : Page} {key : Bytes}

/-! ## The walk of the checker -/

theorem deref_object (hobject : w.pool.objects[ref]? = some page) :
    Eng.deref ref w = .ok page w := by
  simp [Eng.deref, run_bind, hobject]

theorem pageIdToNode_ok {n : ℕ × Page} (hc : Coherent w) (hrun : pageIdToNode x w = .ok n w') :
    Fetches w w' ∧ n.1 = x ∧ storePage w x = some n.2 := by
  obtain ⟨ref, w₁, hget, hrest⟩ := bind_eq_ok.mp hrun
  obtain ⟨hfetches, page, hpage, hobject⟩ := hc.get_ok hget
  rw [run_bind_ok (deref_object hobject)] at hrest
  cases hrest
  exact ⟨hfetches, rfl, hpage⟩

theorem fetchNodes_ok : ∀ (ids : List ℕ) {nodes : List (ℕ × Page)} {w w' : World}, Coherent w →
    fetchNodes ids w = .ok nodes w' → Fetches w w' ∧ nodes.map Prod.fst = ids ∧
      ∀ n ∈ nodes, storePage w n.1 = some n.2 := by
  intro ids
  induction ids with
  | nil =>
      intro nodes w w' hc hrun
      cases hrun
      exact ⟨.refl hc, rfl, by simp⟩
  | cons x ids ih =>
      intro nodes w w' hc hrun
      obtain ⟨n, w₁, hnode, hrest⟩ := bind_eq_ok.mp hrun
      obtain ⟨hfetches, hx, hpage⟩ := pageIdToNode_ok hc hnode
      obtain ⟨nodes', w₂, hnodes, hend⟩ := bind_eq_ok.mp hrest
      obtain ⟨hfetches', hids, hpages⟩ := ih hfetches.coherent hnodes
      cases hend
      refine ⟨hfetches.trans hfetches', by rw [List.map_cons, hx, hids], fun n' hn' => ?_⟩
      rcases List.mem_cons.mp hn' with rfl | hn'
      · exact hx ▸ hpage
      · rw [← hfetches.store]
        exact hpages n' hn'

theorem fetchLevels_ok : ∀ (fuel : ℕ) {level : List (ℕ × Page)} {levels : List (List (ℕ × Page))}
    {w w' : World}, Coherent w → (∀ n ∈ level, storePage w n.1 = some n.2) →
    fetchLevels fuel level w = .ok levels w' →
      Fetches w w' ∧ Levels (storePage w) level levels := by
  intro fuel
  induction fuel with
  | zero =>
      intro level levels w w' _ _ hrun
      cases hrun
  | succ fuel ih =>
      intro level levels w w' hc hlevel hrun
      obtain ⟨below, w₁, hbelow, hrest⟩ := bind_eq_ok.mp hrun
      obtain ⟨hfetches, hids, hpages⟩ := fetchNodes_ok _ hc hbelow
      cases below with
      | nil =>
          cases hrest
          exact ⟨hfetches, .last hlevel (by simpa using hids.symm)⟩
      | cons n below =>
          obtain ⟨levels', w₂, hlevels, hend⟩ := bind_eq_ok.mp hrest
          obtain ⟨hfetches', hl⟩ := ih hfetches.coherent
            (fun n' hn' => (hfetches.store n'.1).trans (hpages n' hn')) hlevels
          cases hend
          rw [funext hfetches.store] at hl
          exact ⟨hfetches.trans hfetches', .more hlevel hids hl⟩

theorem getMeta_run (hm : w.pager.metaPage = some m) : Pager.getMeta w = .ok m w := by
  simp [Pager.getMeta, run_bind, hm]

/-- Where the checker returns there is a tree. -/
theorem accepted_of_check {fuel : ℕ} (hc : Coherent w) (hm : w.pager.metaPage = some m)
    (hrun : assertTreeInvariants fuel w = .ok () w') : Fetches w w' ∧
      ∃ (H : ℕ) (T : Tree H), Accepted (storePage w) m.nextPageId T ∧
        Tree.id H T = m.rootPageId := by
  unfold assertTreeInvariants bfsWalkTree at hrun
  rw [run_bind_ok (getMeta_run hm)] at hrun
  obtain ⟨levels, w₁, hwalk, hcheck⟩ := bind_eq_ok.mp hrun
  rw [run_bind_ok (getMeta_run hm)] at hwalk
  obtain ⟨root, w₂, hroot, hwalk⟩ := bind_eq_ok.mp hwalk
  obtain ⟨hfetches, hid, hpage⟩ := pageIdToNode_ok hc hroot
  obtain ⟨fetched, w₃, hfetched, hend⟩ := bind_eq_ok.mp hwalk
  cases hend
  obtain ⟨hfetches', hl⟩ := fetchLevels_ok fuel hfetches.coherent
    (by simpa [hfetches.store, hid] using hpage) hfetched
  rw [funext hfetches.store] at hl
  cases htree : checkTree m (linkLevels fetched) with
  | error e =>
      rw [htree] at hcheck
      cases hcheck
  | ok u =>
      rw [htree] at hcheck
      cases hcheck
      obtain ⟨H, T, haccepted, hT⟩ := hl.accepted htree
      exact ⟨hfetches.trans hfetches', H, T, haccepted, hT.trans hid⟩

/-! ## Searching in an accepted tree -/

/-- A descent came to a leaf. -/
structure Arrives (S : ℕ → Option Page) (T : Tree H) (key : Bytes) (c : Ctx 0 H) (l : Leaf)
    (ref : Ref) (w : World) : Prop where
  plug : c.plug (.leaf l) = T
  between : Between key c.before c.after
  object : ∃ lsn, w.pool.objects[ref]? = some (.leaf ⟨lsn, l.right, l.slots⟩) ∧
    S l.id = some (.leaf ⟨lsn, l.right, l.slots⟩)

theorem findLeafLoop_arrives {next : ℕ} (key : Bytes)
    (hsorted : (tokens (Tree.items H T)).Pairwise (· < ·)) :
    ∀ (h : ℕ) (c : Ctx h H) (t : Tree h) (node : BPlusTreeNode) (fuel : ℕ) (path : List PathItem)
      (ref : Ref) (w : World), c.plug t = T → Mirrors (storePage w) next h t node → h < fuel →
      Between key c.before c.after → Coherent w →
      w.pool.objects[ref]? = storePage w (Tree.id h t) →
      ∃ result w' c' l, BPlusTree.findLeafLoop key fuel (Tree.id h t) ref path w = .ok result w' ∧
        Fetches w w' ∧ Arrives (storePage w) T key c' l result.leafPage w' := by
  intro h
  induction h with
  | zero =>
      intro c t node fuel path ref w hplug hm hfuel hbetween hc hobject
      obtain ⟨l, rfl⟩ := t.exists_leaf
      obtain ⟨fuel, rfl⟩ : ∃ k, fuel = k + 1 := ⟨fuel - 1, by omega⟩
      obtain ⟨page, hpage, hstrip⟩ := hm.page
      rw [eq_leaf_of_stripLsn hstrip] at hpage
      rw [hpage] at hobject
      refine ⟨⟨l.id, ref, path⟩, w, c, l, ?_, .refl hc, hplug, hbetween, _, hobject, hpage⟩
      rw [BPlusTree.findLeafLoop, run_bind_ok (deref_object hobject)]
      rfl
  | succ h ih =>
      intro c t node fuel path ref w hplug hm hfuel hbetween hc hobject
      obtain ⟨nd, rfl⟩ := t.exists_node
      obtain ⟨fuel, rfl⟩ : ∃ k, fuel = k + 1 := ⟨fuel - 1, by omega⟩
      obtain ⟨hle, hgt, hlen⟩ := bisectRight_spec (nd.rest.map Prod.fst) key
      set i := bisectRight (nd.rest.map Prod.fst) key with hi
      -- The node is opened at the child whose separators enclose the key.
      obtain ⟨left, t', hlength, hfirst, hrest, hkeys⟩ :=
        exists_hole nd.first nd.rest i (by simpa using hlen)
      set right := nd.rest.drop i with hright
      obtain ⟨id, first, rest⟩ := nd
      have hnode : (⟨id, first, rest⟩ : Node (PageStore.Tree h)) = mkNode id left t' right := by
        rw [mkNode, ← hfirst, ← hrest]
      have hplug' : (Ctx.frame id left right c).plug t' = T := by
        rw [Ctx.plug, ← hnode]
        exact hplug
      obtain ⟨page, hpage, hstrip⟩ := hm.page
      rw [hnode] at hm
      rw [hnode, page_mkNode] at hstrip
      have hcontent := eq_setLsn_of_stripLsn hstrip
      set lsn := BufferPool.pageLsn page with hlsn
      have hid : PageStore.Tree.id (h + 1) (PageStore.Tree.node
        (⟨id, first, rest⟩ : Node (PageStore.Tree h))) = id := rfl
      rw [hid] at hpage hobject ⊢
      rw [hpage, hcontent] at hobject
      have hidx : childSlotIndex ⟨lsn, nodeFirst left t', nodeSlots left t' ++ rightSlots right⟩
          key = (left.length : ℤ) - 1 := by
        rw [childSlotIndex]
        simp only [List.map_append, keys_nodeSlots, keys_rightSlots]
        rw [hkeys, hright, List.map_take, List.map_drop, List.take_append_drop, ← hi, hlength]
      obtain ⟨node', hm'⟩ := hm.hole
      obtain ⟨child, hchild, -⟩ := hm'.page
      -- Fetching the child changes no page, so the induction goes on with the same pages.
      obtain ⟨childRef, w₁, hget, hfetches, hchildObject⟩ := hc.get hchild
      obtain ⟨result, w', c', l, hrun, hfetches', harrives⟩ :=
        ih (.frame id left right c) t' node' fuel
        (path ++ [⟨id, (left.length : ℤ) - 1⟩]) childRef w₁ hplug' (by rwa [funext hfetches.store])
        (by omega)
        (Between.frame (by rw [← Ctx.plug, hplug']; exact hsorted) hbetween
          (by rw [hkeys, List.map_take]; exact hle) (by rw [hright, List.map_drop]; exact hgt))
        hfetches.coherent (by rw [hfetches.store, hchild]; exact hchildObject)
      rw [funext hfetches.store] at harrives
      refine ⟨result, w', c', l, ?_, hfetches.trans hfetches', harrives⟩
      rw [BPlusTree.findLeafLoop, run_bind_ok (deref_object hobject)]
      simp only [BufferPool.setLsn, hidx, childAt_place]
      rw [run_bind_ok hget]
      exact hrun

/-- In an accepted tree whose leaves are in order every descent comes to the place of its
key. -/
theorem findLeaf_arrives (hc : Coherent w) (hm : w.pager.metaPage = some m)
    (haccepted : Accepted (storePage w) m.nextPageId T) (hroot : Tree.id H T = m.rootPageId)
    (hsorted : (tokens (Tree.items H T)).Pairwise (· < ·)) (key : Bytes) :
    ∃ result w' c l, BPlusTree.findLeaf key w = .ok result w' ∧ Fetches w w' ∧
      Arrives (storePage w) T key c l result.leafPage w' := by
  obtain ⟨node, hmirrors⟩ := haccepted.mirrors
  obtain ⟨page, hpage, -⟩ := hmirrors.page
  rw [hroot] at hpage
  obtain ⟨ref, w₁, hget, hfetches, hobject⟩ := hc.get hpage
  obtain ⟨result, w', c, l, hrun, hfetches', harrives⟩ := findLeafLoop_arrives key hsorted H .top T
    node (m.nextPageId + 1) [] ref w₁ rfl (by rwa [funext hfetches.store])
    (hmirrors.height_lt.trans (Nat.lt_succ_self _)) ⟨by simp [Ctx.before], by simp [Ctx.after]⟩
    hfetches.coherent (by rw [hroot, hfetches.store, hpage]; exact hobject)
  rw [funext hfetches.store] at harrives
  refine ⟨result, w', c, l, ?_, hfetches.trans hfetches', harrives⟩
  rw [BPlusTree.findLeaf, run_bind_ok (getMeta_run hm), run_bind_ok hget, ← hroot]
  exact hrun

theorem derefLeaf_object {p : LeafPage} (hobject : w.pool.objects[ref]? = some (.leaf p)) :
    BPlusTree.derefLeaf ref w = .ok p w := by
  rw [BPlusTree.derefLeaf, run_bind_ok (deref_object hobject)]
  rfl

/-- The entries of the leaf that a descent comes to, within those of the tree. -/
theorem Arrives.entries {c : Ctx 0 H} {l : Leaf} (h : Arrives S T key c l ref w) :
    entriesOf (Tree.items H T) = entriesOf c.before ++ l.slots ++ entriesOf c.after := by
  rw [← h.plug, Ctx.items_plug, entriesOf_append, entriesOf_append]
  simp

/-- A search in an accepted tree whose leaves are in order. -/
theorem search_run (hc : Coherent w) (hm : w.pager.metaPage = some m)
    (haccepted : Accepted (storePage w) m.nextPageId T) (hroot : Tree.id H T = m.rootPageId)
    (hsorted : (tokens (Tree.items H T)).Pairwise (· < ·)) (key : Bytes) : ∃ o w',
      BPlusTree.search key w = .ok o w' ∧
        ∀ v, o = some v ↔ ⟨key, v⟩ ∈ entriesOf (Tree.items H T) := by
  obtain ⟨result, w', c, l, hfind, -, harrives⟩ :=
    findLeaf_arrives hc hm haccepted hroot hsorted key
  obtain ⟨lsn, hobject, -⟩ := harrives.object
  have hentries := harrives.entries
  have hkeys := pairwise_slotTokens.mp (hsorted.sublist (slotTokens_sublist_tokens _))
  have hleaf : (l.slots.map (·.key)).Pairwise (· < ·) := by
    refine hkeys.sublist (List.Sublist.map _ ?_)
    rw [hentries, List.append_assoc]
    exact (List.sublist_append_left ..).trans (List.sublist_append_right ..)
  obtain ⟨A, o, B, hl⟩ := exists_located hleaf key
  have hlocated := hl.extend harrives.between.before harrives.between.after
  rw [← hentries] at hlocated
  refine ⟨o, w', ?_, fun v => (hlocated.mem_iff v).symm⟩
  rw [BPlusTree.search, run_bind_ok hfind, run_bind_ok (derefLeaf_object hobject),
    hl.findSlot lsn l.right]
  cases o <;> rfl

/-! ## Scanning -/

/-- What the leaf walk of a scan from a page on reads, in the page store `S`. -/
inductive Walks (S : ℕ → Option Page) : LeafPage → List LeafSlot → Prop
  | last {p : LeafPage} : p.rightSiblingPageId = 0 → Walks S p p.slots
  | next {p q : LeafPage} {slots : List LeafSlot} : 0 < p.rightSiblingPageId →
      S p.rightSiblingPageId = some (.leaf q) → Walks S q slots → Walks S p (p.slots ++ slots)

/-- The pairs of a list of slots. -/
def pairsOf (slots : List LeafSlot) : List (Bytes × Bytes) := slots.map fun s => (s.key, s.value)

theorem pairsOf_injective : Function.Injective pairsOf :=
  List.map_injective_iff.mpr fun s s' h => by
    cases s
    cases s'
    simpa using h

theorem mem_pairsOf {slots : List LeafSlot} {k v : Bytes} :
    (k, v) ∈ pairsOf slots ↔ (⟨k, v⟩ : LeafSlot) ∈ slots := by
  constructor
  · intro h
    obtain ⟨s, hs, hpair⟩ := List.mem_map.mp h
    cases hpair
    exact hs
  · intro h
    exact List.mem_map.mpr ⟨_, h, rfl⟩

theorem scanSlots_none (slots : List LeafSlot) : scanSlots none slots = (pairsOf slots, true) := by
  have hall : slots.takeWhile (fun _ => true) = slots := List.takeWhile_eq_self_iff.mpr (by simp)
  simp [scanSlots_eq, upTo, pairsOf, hall]

/-- A leaf walk that returns. -/
theorem walks_of_scanLoop : ∀ (fuel : ℕ) {p : LeafPage} {pairs : List (Bytes × Bytes)}
    {w w' : World},
    Coherent w → BPlusTree.scanLoop none fuel p 0 w = .ok pairs w' →
      ∃ slots, Walks (storePage w) p slots ∧ pairs = pairsOf slots := by
  intro fuel
  induction fuel with
  | zero =>
      intro p pairs w w' _ hrun
      cases hrun
  | succ fuel ih =>
      intro p pairs w w' hc hrun
      rw [BPlusTree.scanLoop, List.drop_zero, scanSlots_none] at hrun
      by_cases hright : 0 < p.rightSiblingPageId
      · simp only [hright, and_self, if_true] at hrun
        obtain ⟨ref, w₁, hget, hrest⟩ := bind_eq_ok.mp hrun
        obtain ⟨hfetches, page, hpage, hobject⟩ := hc.get_ok hget
        obtain ⟨q, w₂, hq, hrest⟩ := bind_eq_ok.mp hrest
        rw [BPlusTree.derefLeaf, run_bind_ok (deref_object hobject)] at hq
        cases page with
        | internal p' => cases hq
        | leaf q' =>
            cases hq
            obtain ⟨pairs', w₃, hloop, hend⟩ := bind_eq_ok.mp hrest
            obtain ⟨slots, hwalks, rfl⟩ := ih hfetches.coherent hloop
            cases hend
            rw [funext hfetches.store] at hwalks
            exact ⟨p.slots ++ slots, .next hright hpage hwalks, by simp [pairsOf]⟩
      · simp only [hright, and_false, if_false] at hrun
        cases hrun
        exact ⟨p.slots, .last (Nat.eq_zero_of_not_pos hright), rfl⟩

/-- A leaf walk that ends is read by the scan. -/
theorem scanLoop_of_walks {p : LeafPage} {slots : List LeafSlot} (hwalks : Walks S p slots) :
    ∀ w, Coherent w → storePage w = S →
      ∃ fuel w', BPlusTree.scanLoop none fuel p 0 w = .ok (pairsOf slots) w' := by
  induction hwalks with
  | @last p hright =>
      intro w _ _
      refine ⟨1, w, ?_⟩
      rw [BPlusTree.scanLoop, List.drop_zero, scanSlots_none]
      simp [hright]
  | @next p q slots hright hq _ ih =>
      rintro w hc rfl
      obtain ⟨ref, w₁, hget, hfetches, hobject⟩ := hc.get hq
      obtain ⟨fuel, w', hloop⟩ := ih w₁ hfetches.coherent (funext hfetches.store)
      refine ⟨fuel + 1, w', ?_⟩
      rw [BPlusTree.scanLoop, List.drop_zero, scanSlots_none]
      simp only [hright, and_self, if_true]
      rw [run_bind_ok hget, run_bind_ok (derefLeaf_object hobject), run_bind_ok hloop]
      simp [pairsOf]

/-- Behind the last leaf comes nothing but empty leaves. -/
inductive SilentTail (S : ℕ → Option Page) : ℕ → Prop
  | stop : SilentTail S 0
  | skip {x : ℕ} {p : LeafPage} : 0 < x → S x = some (.leaf p) → p.slots = [] →
      SilentTail S p.rightSiblingPageId → SilentTail S x

theorem SilentTail.walks {p : LeafPage} (h : SilentTail S p.rightSiblingPageId) :
    Walks S p p.slots := by
  generalize hx : p.rightSiblingPageId = x at h
  induction h generalizing p with
  | stop => exact .last hx
  | @skip x q hpos hq hempty _ ih =>
      have := Walks.next (hx ▸ hpos) (hx ▸ hq) (ih rfl)
      rwa [hempty, List.append_nil] at this

theorem Walks.starts {p : LeafPage} {slots : List LeafSlot} (h : Walks S p slots) :
    ∃ rest, slots = p.slots ++ rest := by
  cases h with
  | last => exact ⟨[], (List.append_nil _).symm⟩
  | next => exact ⟨_, rfl⟩

theorem Walks.silent {p : LeafPage} {slots : List LeafSlot} (h : Walks S p slots)
    (hslots : slots = p.slots) : SilentTail S p.rightSiblingPageId := by
  induction h with
  | @last p hright => exact hright ▸ .stop
  | @next p q slots hright hq hwalks ih =>
      obtain rfl : slots = [] := by simpa using hslots
      obtain ⟨rest, hrest⟩ := hwalks.starts
      have hempty : q.slots = [] := (List.append_eq_nil_iff.mp hrest.symm).1
      exact .skip hright hq hempty (ih hempty.symm)

/-- The walk over linked leaves reads their slots, and nothing else, if and only if none of the
later leaves is page `0` and nothing but empty leaves comes behind them. -/
theorem walks_leaves_iff : ∀ (leaves : List Leaf) (l : Leaf) (lsn : ℕ),
    Links (l :: leaves) (tailId (l :: leaves)) →
    (∀ l' ∈ leaves, ∃ lsn, S l'.id = some (.leaf ⟨lsn, l'.right, l'.slots⟩)) →
    (∀ l' ∈ leaves, l'.slots ≠ []) →
      (Walks S ⟨lsn, l.right, l.slots⟩ ((l :: leaves).flatMap Leaf.slots) ↔
        (∀ l' ∈ leaves, l'.id ≠ 0) ∧ SilentTail S (tailId (l :: leaves))) := by
  intro leaves
  induction leaves with
  | nil =>
      intro l lsn _ _ _
      constructor
      · intro h
        exact ⟨by simp, h.silent (by simp)⟩
      · rintro ⟨-, h⟩
        simpa using SilentTail.walks (p := ⟨lsn, l.right, l.slots⟩) h
  | cons l' leaves ih =>
      intro l lsn hlinks hpages hnonempty
      obtain ⟨hright, hlinks⟩ := hlinks
      have hright' : l.right = l'.id := hright
      have htail : tailId (l :: l' :: leaves) = tailId (l' :: leaves) := by simp [tailId]
      rw [htail] at hlinks ⊢
      obtain ⟨lsn', hpage⟩ := hpages l' (List.mem_cons_self ..)
      have hiff := ih l' lsn' hlinks (fun x hx => hpages x (List.mem_cons_of_mem _ hx))
        fun x hx => hnonempty x (List.mem_cons_of_mem _ hx)
      rw [List.flatMap_cons]
      constructor
      · intro h
        -- The slots and the leaf are named before the walk is split, which is indexed by both.
        generalize hslots : l.slots ++ (l' :: leaves).flatMap Leaf.slots = slots at h
        generalize hp : (⟨lsn, l.right, l.slots⟩ : LeafPage) = p at h
        cases h with
        | last hzero =>
            subst hp
            have : (l' :: leaves).flatMap Leaf.slots = [] := by simpa using hslots
            exact absurd (List.append_eq_nil_iff.mp this).1 (hnonempty l' (List.mem_cons_self ..))
        | @next _ q rest hpos hq hwalks =>
            subst hp
            obtain rfl := List.append_cancel_left hslots
            obtain rfl : q = ⟨lsn', l'.right, l'.slots⟩ := by
              have := (hright' ▸ hq).symm.trans hpage
              simpa using this
            obtain ⟨hids, hsilent⟩ := hiff.mp hwalks
            refine ⟨fun x hx => ?_, hsilent⟩
            rcases List.mem_cons.mp hx with rfl | hx
            · exact hright' ▸ hpos.ne'
            · exact hids x hx
      · rintro ⟨hids, hsilent⟩
        -- The sibling of this leaf is the next one, which is not page 0.
        refine Walks.next (p := ⟨lsn, l.right, l.slots⟩) ?_ (hright' ▸ hpage) (hiff.mpr
          ⟨fun x hx => hids x (List.mem_cons_of_mem _ hx), hsilent⟩)
        exact hright' ▸ Nat.pos_of_ne_zero (hids l' (List.mem_cons_self ..))

/-! ## The promise of the checker -/

/-- The leaves below a page, left to right. -/
def leavesBelow (S : ℕ → Option Page) : (height : ℕ) → ℕ → Option (List Leaf)
  | 0, x =>
      match S x with
      | some (.leaf p) => some [⟨x, p.rightSiblingPageId, p.slots⟩]
      | _ => none
  | height + 1, x =>
      match S x with
      | some (.internal p) => ((childPageIds (.internal p)).mapM (leavesBelow S height)).map
          List.flatten
      | _ => none

/-- `list(tree.scan(None, None))`, when it walks at most `fuel` leaves. -/
def scanWithin (fuel : ℕ) : Eng (List (Bytes × Bytes)) := do
  let result ← BPlusTree.findLeaf []
  let page ← BPlusTree.derefLeaf result.leafPage
  BPlusTree.scanLoop none fuel page (bisectLeft (page.slots.map (·.key)) [])

/-- A fetch does not change the meta page. -/
theorem readInvariant_meta (m : MetaPage) :
    ReadInvariant (fun w => w.pager.metaPage = some m) (fun _ => True) where
  error _ _ := trivial
  evict := by
    intro w hw
    rcases evict_cases w with ⟨-, -, hrun⟩ | ⟨cache, -, hrun⟩
    · rw [hrun]
      refine ⟨fun a w' h => ?_, fun _ _ _ => trivial⟩
      cases h
    · rw [hrun]
      refine ⟨fun a w' h => ?_, fun _ _ _ => trivial⟩
      cases h
      exact hw
  hit _ _ _ hw _ := hw
  enter _ _ _ hw := hw

/-- The scan of the model is a scan within a bound. -/
theorem scan_eq_scanWithin (hm : w.pager.metaPage = some m) :
    BPlusTree.scan none none w = scanWithin (m.nextPageId + 1) w := by
  unfold BPlusTree.scan scanWithin
  rw [Option.getD_none, run_bind, run_bind]
  cases hfind : BPlusTree.findLeaf [] w with
  | error e w' => rfl
  | ok result w' =>
      have hm' := (((readInvariant_meta m).findLeaf []) w hm).1 result w' hfind
      dsimp only
      rw [run_bind, run_bind]
      cases hpage : BPlusTree.derefLeaf result.leafPage w' with
      | error e w'' => rfl
      | ok page w'' =>
          have hm'' := (((readInvariant_meta m).derefLeaf result.leafPage) w' hm').1 page w'' hpage
          dsimp only
          rw [run_bind_ok (getMeta_run hm'')]

/-- A scan terminates and gives the records of the leaves in order, their keys increase
strictly, and searches find exactly these records. -/
structure ReadsBack (leaves : List Leaf) (w : World) : Prop where
  scan : ∃ fuel w', scanWithin fuel w = .ok (pairsOf (leaves.flatMap Leaf.slots)) w'
  sorted : ((leaves.flatMap Leaf.slots).map (·.key)).Pairwise (· < ·)
  search : ∀ k v, (∃ w', BPlusTree.search k w = .ok (some v) w') ↔
    (k, v) ∈ pairsOf (leaves.flatMap Leaf.slots)

/-- What the checker leaves open: the keys of each leaf increase strictly, the chain does not
lead through page `0`, and nothing but empty leaves comes behind the last leaf. -/
structure Tidy (S : ℕ → Option Page) (leaves : List Leaf) : Prop where
  strict : ∀ l ∈ leaves, (l.slots.map (·.key)).Pairwise (· < ·)
  numbered : ∀ l ∈ leaves.tail, l.id ≠ 0
  tail : SilentTail S (tailId leaves)

/-- There is at most one list of leaves below a page. -/
theorem leavesBelow_unique : ∀ {h h' x : ℕ} {leaves leaves' : List Leaf},
    leavesBelow S h x = some leaves → leavesBelow S h' x = some leaves' → leaves = leaves' := by
  have hheight : ∀ {h h' x : ℕ} {leaves leaves' : List Leaf}, leavesBelow S h x = some leaves →
      leavesBelow S h' x = some leaves' → h = h' := by
    intro h
    induction h with
    | zero =>
        intro h' x leaves leaves' hl hl'
        cases h' with
        | zero => rfl
        | succ h' =>
            simp only [leavesBelow] at hl hl'
            split at hl
            · rename_i p hp
              rw [hp] at hl'
              cases hl'
            · cases hl
    | succ h ih =>
        intro h' x leaves leaves' hl hl'
        rw [leavesBelow] at hl
        split at hl
        · rename_i p hp
          cases h' with
          | zero =>
              rw [leavesBelow, hp] at hl'
              cases hl'
          | succ h' =>
              rw [leavesBelow, hp] at hl'
              obtain ⟨parts, hparts, -⟩ := Option.map_eq_some_iff.mp hl
              obtain ⟨parts', hparts', -⟩ := Option.map_eq_some_iff.mp hl'
              rw [childPageIds, List.mapM_cons] at hparts hparts'
              obtain ⟨first, hfirst, -⟩ := Option.bind_eq_some_iff.mp hparts
              obtain ⟨first', hfirst', -⟩ := Option.bind_eq_some_iff.mp hparts'
              exact congrArg (· + 1) (ih hfirst hfirst')
        · cases hl
  intro h h' x leaves leaves' hl hl'
  obtain rfl := hheight hl hl'
  exact Option.some.inj (hl.symm.trans hl')

theorem mapM_leavesBelow (ts : List (PageStore.Tree h))
    (hts : ∀ t ∈ ts, leavesBelow S h (PageStore.Tree.id h t) = some (leavesOf (Tree.items h t))) :
    (ts.map (Tree.id h)).mapM (leavesBelow S h) = some
      (ts.map fun t => leavesOf (Tree.items h t)) := by
  induction ts with
  | nil => rfl
  | cons t ts ih =>
      rw [List.map_cons, List.mapM_cons, hts t (List.mem_cons_self ..),
        ih fun t' ht' => hts t' (List.mem_cons_of_mem _ ht')]
      rfl

/-- The leaves below the root of an accepted tree. -/
theorem leavesBelow_of_mirrors {next : ℕ} : ∀ {h : ℕ} {t : PageStore.Tree h} {node : BPlusTreeNode},
    Mirrors S next h t node →
      leavesBelow S h (PageStore.Tree.id h t) = some (leavesOf (Tree.items h t)) := by
  intro h
  induction h with
  | zero =>
      rintro t node ⟨p, -, hp, -, hright, hslots⟩
      obtain ⟨l, rfl⟩ := t.exists_leaf
      have hp' : S l.id = some (.leaf p) := hp
      simp only [leavesBelow, Tree.id_leaf, hp', show p.rightSiblingPageId = l.right from hright,
        show p.slots = l.slots from hslots]
      rfl
  | succ h ih =>
      rintro t node ⟨p, c, cs, levelIdx, -, hp, -, hleft, hslots, -, hfirst, hrest⟩
      obtain ⟨n, rfl⟩ := t.exists_node
      have hp' : S n.id = some (.internal p) := hp
      have hids : childPageIds (.internal p) = (n.first :: n.rest.map Prod.snd).map
        (Tree.id h) := by
        rw [childPageIds, show p.leftmostChildPageId = Tree.id h n.first from hleft,
          show p.slots = n.rest.map (fun e => ⟨e.1, Tree.id h e.2⟩) from hslots]
        simp
      simp only [leavesBelow, Tree.id_node, hp', hids]
      rw [mapM_leavesBelow _ fun t ht => ?_, Option.map_some, Option.some.injEq,
        leaves_zip n.id n.first (n.rest.map Prod.snd) n.rest rfl, forestLeaves, List.flatMap_def]
      rcases List.mem_cons.mp ht with rfl | ht
      · exact ih hfirst
      · obtain ⟨node', hnode'⟩ := exists_mirror hrest t ht
        exact ih hnode'

/-- Where a descent for the smallest key comes to. -/
theorem leaves_of_arrives {next : ℕ} {c : Ctx 0 H} {l : Leaf} (haccepted : Accepted S next T)
    (h : Arrives S T [] c l ref w) :
    leavesOf (Tree.items H T) = l :: leavesOf c.after := by
  have hleaves : leavesOf (Tree.items H T) = leavesOf c.before ++ l :: leavesOf c.after := by
    rw [← h.plug, Ctx.items_plug, leavesOf_append, leavesOf_append]
    simp [leavesOf]
  cases hbefore : leavesOf c.before with
  | nil => rw [hleaves, hbefore, List.nil_append]
  | cons l' before =>
      -- a leaf on the left has records, but no key is below the empty one
      have hmem : l' ∈ (leavesOf (Tree.items H T)).dropLast := by
        rw [hleaves, hbefore, List.cons_append, List.dropLast_cons_of_ne_nil (by simp)]
        exact List.mem_cons_self ..
      obtain ⟨s, hs⟩ := List.exists_mem_of_ne_nil _ (haccepted.ahead l' hmem)
      have hentry : s ∈ entriesOf c.before := by
        rw [entriesOf, hbefore]
        exact List.mem_flatMap.mpr ⟨l', List.mem_cons_self .., hs⟩
      exact absurd (h.between.before s hentry) (List.not_lt_nil _)

/-- Where `assert_tree_invariants` returns, a scan reads the records of the leaves in order and
searches find exactly these, if and only if each leaf is strictly ordered and nothing but empty
leaves comes behind the last one. -/
theorem checker_promise (w w' : World) (m : MetaPage) (fuel : ℕ) (hc : Coherent w)
    (hm : w.pager.metaPage = some m) (hrun : assertTreeInvariants fuel w = .ok () w') :
    ∃ h leaves, leavesBelow (storePage w) h m.rootPageId = some leaves ∧
      (ReadsBack leaves w' ↔ Tidy (storePage w) leaves) := by
  obtain ⟨hfetches, H, T, haccepted, hroot⟩ := accepted_of_check hc hm hrun
  obtain ⟨node, hmirrors⟩ := haccepted.mirrors
  refine ⟨H, _, hroot ▸ leavesBelow_of_mirrors hmirrors, ?_⟩
  have hm' : w'.pager.metaPage = some m := hfetches.metaPage.trans hm
  have haccepted' : Accepted (storePage w') m.nextPageId T := by rwa [funext hfetches.store]
  have hscan : (tokens (Tree.items H T)).Pairwise (· < ·) →
      ((∃ fuel w'', scanWithin fuel w' = .ok (pairsOf (entriesOf (Tree.items H T))) w'') ↔
        (∀ l ∈ (leavesOf (Tree.items H T)).tail, l.id ≠ 0) ∧
          SilentTail (storePage w) (tailId (leavesOf (Tree.items H T)))) := by
    intro hsorted
    obtain ⟨result, w₁, c, l, hfind, hfetches', harrives⟩ :=
      findLeaf_arrives hfetches.coherent hm' haccepted' hroot hsorted []
    rw [funext hfetches.store] at harrives
    obtain ⟨lsn, hobject, hpage⟩ := harrives.object
    have hleaves := leaves_of_arrives haccepted harrives
    have hlinks := haccepted.links
    have hpages := haccepted.leaves
    have hbehind := haccepted.behind
    rw [entriesOf, hleaves] at *
    have hiff := walks_leaves_iff (leavesOf c.after) l lsn hlinks
      (fun l' hl' => hpages l' (List.mem_cons_of_mem _ hl')) hbehind
    have hwithin : ∀ fuel, scanWithin fuel w' =
        BPlusTree.scanLoop none fuel ⟨lsn, l.right, l.slots⟩ 0 w₁ := by
      intro fuel
      have hzero : bisectLeft (l.slots.map (·.key)) [] = 0 := by
        simp [bisectLeft]
      rw [scanWithin, run_bind_ok hfind, run_bind_ok (derefLeaf_object hobject), hzero]
    have hstore : storePage w₁ = storePage w :=
      (funext hfetches'.store).trans (funext hfetches.store)
    rw [List.tail_cons, ← hiff]
    constructor
    · rintro ⟨fuel, w'', hscan⟩
      rw [hwithin] at hscan
      obtain ⟨slots, hwalks, hslots⟩ := walks_of_scanLoop fuel hfetches'.coherent hscan
      rw [hstore] at hwalks
      rwa [pairsOf_injective hslots]
    · intro hwalks
      obtain ⟨fuel, w'', hscan⟩ := scanLoop_of_walks hwalks w₁ hfetches'.coherent hstore
      exact ⟨fuel, w'', (hwithin fuel).trans hscan⟩
  constructor
  · intro h
    have hstrict : ∀ l ∈ leavesOf (Tree.items H T), (l.slots.map (·.key)).Pairwise (· < ·) := by
      intro l hl
      refine h.sorted.sublist (List.Sublist.map _ ?_)
      exact List.sublist_flatten_of_mem (List.mem_map_of_mem hl)
    obtain ⟨hids, hsilent⟩ := (hscan (hmirrors.sorted hstrict)).mp h.scan
    exact ⟨hstrict, hids, hsilent⟩
  · intro h
    have hsorted := hmirrors.sorted h.strict
    refine ⟨(hscan hsorted).mpr ⟨h.numbered, h.tail⟩,
      pairwise_slotTokens.mp (hsorted.sublist (slotTokens_sublist_tokens _)), fun k v => ?_⟩
    obtain ⟨o, w₁, hsearch, ho⟩ := search_run hfetches.coherent hm' haccepted' hroot hsorted k
    rw [← entriesOf, mem_pairsOf, ← ho v, hsearch]
    simp

/-- A process with the given pages, all of them changed since the last flush. -/
def processWith (pages : List (ℕ × Page)) (next : ℕ) : World where
  disk := ⟨none, none, none, none⟩
  power := none
  pager := ⟨256, true, some ⟨256, 1, next, 0, 0⟩, true, [], []⟩
  pool := ⟨8, pages.zipIdx.map fun e => (e.1.1, ⟨e.2, true⟩), true, pages.map Prod.snd⟩
  wal := ⟨true, 0⟩
  config := ⟨256, 8, 1000, fun _ _ => false⟩
  isOpened := true
  versionCounter := 0
  recoveryLastCheckpointLsn := 0

theorem coherent_processWith {pages : List (ℕ × Page)} {next : ℕ} (h : (pages.map Prod.fst).Nodup) :
    Coherent (processWith pages next) where
  nodup := by
    have hids : (processWith pages next).pool.cache.map Prod.fst = pages.map Prod.fst := by
      calc (processWith pages next).pool.cache.map Prod.fst
          = (pages.zipIdx.map Prod.fst).map Prod.fst := by
            rw [processWith, List.map_map, List.map_map]
            rfl
        _ = pages.map Prod.fst := by rw [List.zipIdx_map_fst]
    rw [hids]
    exact h
  object x c hx := by
    obtain ⟨⟨e, i⟩, he, hc⟩ := List.mem_map.mp hx
    cases hc
    have hobject := List.mem_zipIdx_iff_getElem?.mp he
    exact ⟨e.2, by simp [processWith, hobject]⟩
  clean x c hx hclean := by
    obtain ⟨e, -, hc⟩ := List.mem_map.mp hx
    cases hc
    cases hclean

/-- A root with two leaves. -/
def twoLeaves : World := processWith
  [(1, .internal ⟨0, 2, [⟨[5], 3⟩]⟩), (2, .leaf ⟨0, 3, [⟨[1], List.replicate 90 0⟩]⟩),
    (3, .leaf ⟨0, 0, [⟨[5], List.replicate 90 0⟩]⟩)] 4

theorem checker_promise_twoLeaves : ∃ h leaves,
    leavesBelow (storePage twoLeaves) h 1 = some leaves ∧
      (ReadsBack leaves twoLeaves ↔ Tidy (storePage twoLeaves) leaves) :=
  checker_promise twoLeaves twoLeaves ⟨256, 1, 4, 0, 0⟩ 2 (coherent_processWith (by decide)) rfl rfl

/-- A single leaf whose link leads back to itself. -/
def selfLinked : World := processWith [(1, .leaf ⟨0, 1, [⟨[1], [2]⟩]⟩)] 2

theorem not_walks_of_loop {p : LeafPage} {slots : List LeafSlot} (hright : 0 < p.rightSiblingPageId)
    (hloop : S p.rightSiblingPageId = some (.leaf p)) : ¬ Walks S p slots := by
  intro h
  induction h with
  | last hzero => omega
  | next _ hq _ ih =>
      cases hq.symm.trans hloop
      exact ih hright hloop

/-- The checker accepts the leaf, and no scan of it returns. -/
theorem checker_accepts_loop : Coherent selfLinked ∧
    assertTreeInvariants 1 selfLinked = .ok () selfLinked ∧
      ∀ fuel pairs w', scanWithin fuel selfLinked ≠ .ok pairs w' := by
  refine ⟨coherent_processWith (by decide), rfl, fun fuel pairs w' hscan => ?_⟩
  obtain ⟨result, w₁, hfind, hrest⟩ := bind_eq_ok.mp hscan
  have hfind' : BPlusTree.findLeaf [] selfLinked = .ok ⟨1, 0, []⟩ selfLinked := rfl
  cases hfind'.symm.trans hfind
  obtain ⟨page, w₂, hpage, hloop⟩ := bind_eq_ok.mp hrest
  have hpage' : BPlusTree.derefLeaf 0 selfLinked = .ok ⟨0, 1, [⟨[1], [2]⟩]⟩ selfLinked := rfl
  cases hpage'.symm.trans hpage
  obtain ⟨slots, hwalks, -⟩ := walks_of_scanLoop fuel (coherent_processWith (by decide)) hloop
  exact not_walks_of_loop (p := ⟨0, 1, [⟨[1], [2]⟩]⟩) Nat.one_pos rfl hwalks

end BPTreeDB.Runs
