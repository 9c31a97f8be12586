import BPTreeDB.Engine.Simulation

/-!
# The buffer pool in lockstep with the page store

One lemma for each operation of the buffer pool.  The one that matters is eviction: with
room for the operation, the oldest clean page is never one that the operation has
touched.
-/

namespace BPTreeDB.Engine

open Lib Eng Codec Lib.Program

variable {mode : Mode} {live : List (ℕ × Ref)} {w : World} {S : PageStore.Store}
  {start : Option (Finset ℕ)} {pages : ℕ → Option Page} {touched : List ℕ} {budget pageId : ℕ}
  {pool : BufferPool}

/-! ## Touching -/

/-- What a page costs. -/
theorem touch_cases (pageId : ℕ) (S : PageStore.Store) :
    (pageId ∈ S.touched ∧ PageStore.touch pageId S = .ok () S) ∨
    (pageId ∉ S.touched ∧ 0 < S.budget ∧ PageStore.touch pageId S =
      .ok () { S with touched := pageId :: S.touched, budget := S.budget - 1 }) ∨
    PageStore.touch pageId S = .error .undisciplined S := by
  by_cases hmem : pageId ∈ S.touched
  · exact .inl ⟨hmem, by simp [PageStore.touch, run_bind, hmem]⟩
  · by_cases hbudget : 0 < S.budget
    · exact .inr (.inl ⟨hmem, hbudget, by
        simp [PageStore.touch, PageStore.require, run_bind, hmem, hbudget]⟩)
    · exact .inr (.inr (by simp [PageStore.touch, PageStore.require, run_bind, hmem, hbudget]))

/-- Moving a page to the most-recently-used position, or admitting it there. -/
theorem Room.enter (cached : CachedPage) (pages' : ℕ → Option Page) {touched' : List ℕ}
    {budget' : ℕ} (hr : Room start pages touched budget pool)
    (htouch : (pageId ∈ touched ∧ touched' = touched ∧ budget' = budget) ∨
      (pageId ∉ touched ∧ 0 < budget ∧ touched' = pageId :: touched ∧ budget' = budget - 1))
    (hpages : ∀ x, x ≠ pageId → (pages' x).isSome = (pages x).isSome)
    (hpage : (pages' pageId).isSome) (objects : List Page) :
    Room start pages' touched' budget' { pool with
      cache := pool.cache.filter (·.1 ≠ pageId) ++ [(pageId, cached)], objects := objects } := by
  have hin : pageId ∈ touched' := by
    obtain ⟨h, rfl, -⟩ | ⟨-, -, rfl, -⟩ := htouch
    · exact h
    · exact List.mem_cons_self ..
  -- Only the page that enters may become touched.
  have hiff : ∀ x, x ≠ pageId → (x ∈ touched' ↔ x ∈ touched) := by
    intro x hx
    obtain ⟨-, rfl, -⟩ | ⟨-, -, rfl, -⟩ := htouch
    · rfl
    · simp [hx]
  refine ⟨?_, ?_, ?_, ?_, fun ids hids => ?_⟩
  · obtain ⟨-, rfl, -⟩ | ⟨h, -, rfl, -⟩ := htouch
    · exact hr.touchedNodup
    · exact List.nodup_cons.mpr ⟨h, hr.touchedNodup⟩
  · refine List.pairwise_append.mpr ⟨?_, by simp, fun e _ e' he' _ => ?_⟩
    · refine (hr.last.sublist List.filter_sublist).imp_of_mem fun {e e'} he he' h => ?_
      simp only [ne_eq, decide_not, List.mem_filter, Bool.not_eq_true', decide_eq_false_iff_not]
        at he he'
      rw [hiff _ he.2, hiff _ he'.2]
      exact h
    · rw [List.mem_singleton.mp he']
      exact hin
  · intro x hx hsome
    simp only [List.map_append, List.map_cons, List.map_nil, List.mem_append, List.mem_singleton]
    by_cases hid : x = pageId
    · exact .inr hid
    · obtain ⟨e, he, rfl⟩ := List.mem_map.mp
        (hr.resident x ((hiff x hid).mp hx) (hpages x hid ▸ hsome))
      exact .inl (List.mem_map.mpr ⟨e, by simp [he, hid], rfl⟩)
  · intro heviction
    have hspace := hr.space heviction
    -- No dirty page that is untouched is added, and an entry is paid from the budget.
    have hcount : (pool.cache.filter (·.1 ≠ pageId) ++ [(pageId, cached)]).countP
        (fun e => e.2.isDirty && decide (e.1 ∉ touched')) ≤
        pool.cache.countP (fun e => e.2.isDirty && decide (e.1 ∉ touched)) := by
      rw [List.countP_append, List.countP_singleton]
      simp only [hin, not_true_eq_false, decide_false, Bool.and_false, Bool.false_eq_true, if_false,
        Nat.add_zero]
      refine le_trans (List.Sublist.countP_le List.filter_sublist) ?_
      refine List.countP_mono_left fun e _ he => ?_
      simp only [Bool.and_eq_true, decide_eq_true_eq] at he ⊢
      refine ⟨he.1, fun h => he.2 ?_⟩
      obtain ⟨-, rfl, -⟩ | ⟨-, -, rfl, -⟩ := htouch
      · exact h
      · exact List.mem_cons_of_mem _ h
    obtain ⟨-, rfl, rfl⟩ | ⟨-, hpos, rfl, rfl⟩ := htouch
    · exact le_trans (Nat.add_le_add_right (Nat.add_le_add_right hcount _) _) hspace
    · simp only [List.length_cons] at hcount ⊢
      omega
  · obtain ⟨heviction, hcached⟩ := hr.held ids hids
    refine ⟨heviction, fun x => ?_⟩
    by_cases hid : x = pageId
    · subst hid
      simp [hin, hpage]
    · rw [hpages x hid, hiff x hid, ← hcached x]
      simp [hid]

/-! ## Eviction -/

/-- A pool with room is not full while all untouched pages are dirty. -/
theorem Room.not_full (hr : Room start pages touched budget pool)
    (hnodup : (pool.cache.map Prod.fst).Nodup) (heviction : pool.evictionEnabled = true)
    (hdirty : ∀ e ∈ pool.cache, e.1 ∉ touched → e.2.isDirty = true)
    (habsent : pageId ∉ pool.cache.map Prod.fst) (htouch : pageId ∈ touched ∨ 0 < budget) :
    pool.cache.length < pool.capacityPages := by
  have hspace := hr.space heviction
  -- Every cached page is a touched one or counts as dirty.
  have hsplit := List.length_eq_countP_add_countP
    (fun e : ℕ × CachedPage => e.2.isDirty && decide (e.1 ∉ touched)) (l := pool.cache)
  set B := pool.cache.filter (fun e => decide (e.1 ∈ touched)) with hB
  have hrest : pool.cache.countP (fun e => decide ¬(e.2.isDirty && decide (e.1 ∉ touched)) = true) ≤
      B.length := by
    rw [hB, ← List.countP_eq_length_filter]
    refine List.countP_mono_left fun e he h => ?_
    simp only [Bool.and_eq_true, decide_eq_true_eq, not_and, Decidable.not_not] at h ⊢
    by_contra hnot
    exact hnot (h (hdirty e he hnot))
  have hBnodup : (B.map Prod.fst).Nodup := hnodup.sublist (List.filter_sublist.map _)
  have hBsub : ∀ x ∈ B.map Prod.fst, x ∈ touched := by
    intro x hx
    obtain ⟨e, he, rfl⟩ := List.mem_map.mp hx
    simpa using (List.mem_filter.mp he).2
  rcases htouch with hin | hpos
  · -- A touched page that is not cached leaves one more place.
    have hnot : pageId ∉ B.map Prod.fst :=
      fun h => habsent ((List.filter_sublist.map _).subset h)
    have hle := ((List.nodup_cons.mpr ⟨hnot, hBnodup⟩).subperm
      (List.cons_subset.mpr ⟨hin, hBsub⟩)).length_le
    simp only [List.length_cons, List.length_map] at hle
    omega
  · have hle := (hBnodup.subperm hBsub).length_le
    simp only [List.length_map] at hle
    omega

/-- Dropping cached pages that were not touched. -/
theorem Room.evict {victim : ℕ} (hr : Room start pages touched budget pool)
    (hvictim : victim ∉ touched) (heviction : pool.evictionEnabled = true) :
    Room start pages touched budget { pool with cache := pool.cache.filter (·.1 ≠ victim) } where
  touchedNodup := hr.touchedNodup
  last := hr.last.sublist List.filter_sublist
  resident x hx hsome := by
    obtain ⟨e, he, rfl⟩ := List.mem_map.mp (hr.resident x hx hsome)
    have hne : e.1 ≠ victim := fun h => hvictim (h ▸ hx)
    exact List.mem_map.mpr ⟨e, by simp [he, hne], rfl⟩
  space heviction := by
    have hspace := hr.space heviction
    have hcount := List.Sublist.countP_le (p := fun e => e.2.isDirty && decide (e.1 ∉ touched))
      (List.filter_sublist (p := fun e : ℕ × CachedPage => decide (e.1 ≠ victim)) (l := pool.cache))
    exact le_trans (Nat.add_le_add_right (Nat.add_le_add_right hcount _) _) hspace
  held ids hids := by
    rw [(hr.held ids hids).1] at heviction
    cases heviction

/-- A clean page leaves the pool. -/
theorem Sim.evict {victim : ℕ × CachedPage} (hs : Sim mode live w S)
    (hmem : victim ∈ w.pool.cache) (hclean : victim.2.isDirty = false)
    (hroom : mode.strict → victim.1 ∉ S.touched) (heviction : w.pool.evictionEnabled = true) :
    Sim mode live { w with pool := { w.pool with
      cache := w.pool.cache.filter (·.1 ≠ victim.1) } } S := by
  have hsub : ∀ e ∈ handles live (w.pool.cache.filter (·.1 ≠ victim.1)),
      e ∈ handles live w.pool.cache := by
    intro e he
    simp only [handles, List.mem_append] at he ⊢
    exact he.imp id fun h => (List.filter_sublist.map _).subset h
  refine { hs with
    pool := ⟨?_, ?_, ?_, ?_⟩
    room := fun h => (hs.room h).evict (hroom h) heviction }
  · exact hs.pool.nodup.sublist (List.filter_sublist.map _)
  · exact fun e he => hs.pool.object e (hsub e he)
  · exact fun e he e' he' => hs.pool.single e (hsub e he) e' (hsub e' he')
  · intro x page hpage hpending hx
    refine hs.pool.disk x page hpage hpending fun c hc => ?_
    by_cases hid : x = victim.1
    · have : (x, c) = victim := List.inj_on_of_nodup_map hs.pool.nodup hc hmem hid
      rw [← hclean, ← this]
    · exact hx c (by simp [hc, hid])

/-- The eviction before a page is admitted. -/
theorem Sim.evictOldest (hs : Sim mode live w S) (habsent : pageId ∉ w.pool.cache.map Prod.fst)
    (htouch : pageId ∈ S.touched ∨ 0 < S.budget) :
    (∃ cache, BufferPool.evictOldestCleanPageIfFull w =
        .ok () { w with pool := { w.pool with cache := cache } } ∧
      (∀ e ∈ cache, e ∈ w.pool.cache) ∧
      Sim mode live { w with pool := { w.pool with cache := cache } } S) ∨
    (¬ mode.strict ∧ BufferPool.evictOldestCleanPageIfFull w = .error .bufferPoolOverflow w) := by
  by_cases hfull : w.pool.evictionEnabled = true ∧ w.pool.capacityPages ≤ w.pool.cache.length
  · -- A strict pool has an untouched clean page.
    have hstrict : mode.strict → ¬ ∀ e ∈ w.pool.cache, e.1 ∉ S.touched → e.2.isDirty = true :=
      fun h hdirty => absurd ((hs.room h).not_full hs.pool.nodup hfull.1 hdirty habsent htouch)
        (not_lt.mpr hfull.2)
    cases hfind : w.pool.cache.find? (fun e => !e.2.isDirty) with
    | none =>
        refine .inr ⟨fun h => hstrict h fun e he _ => ?_, ?_⟩
        · simpa using List.find?_eq_none.mp hfind e he
        · simp only [BufferPool.evictOldestCleanPageIfFull, run_bind, run_get, if_pos hfull, hfind,
            run_throw]
    | some victim =>
        have hmem := List.mem_of_find?_eq_some hfind
        have hclean : victim.2.isDirty = false := by simpa using List.find?_some hfind
        refine .inl ⟨w.pool.cache.filter (·.1 ≠ victim.1), ?_, fun e he =>
          List.mem_of_mem_filter he,
          hs.evict hmem hclean (fun h htouched => hstrict h fun e he hnot => ?_) hfull.1⟩
        · simp only [BufferPool.evictOldestCleanPageIfFull, run_bind, run_get, if_pos hfull, hfind,
            BufferPool.setCache, run_modify]
        · -- Untouched pages come before the victim, and those are dirty.
          obtain ⟨-, l, r, hcache, hl⟩ := List.find?_eq_some_iff_append.mp hfind
          have hlast := (hs.room h).last
          rw [hcache] at he hlast
          rcases List.mem_append.mp he with he | he
          · simpa using hl e he
          · rcases List.mem_cons.mp he with rfl | he
            · exact absurd htouched hnot
            · have hpair := (List.pairwise_append.mp hlast).2.1
              exact absurd (List.rel_of_pairwise_cons hpair he htouched) hnot
  · refine .inl ⟨w.pool.cache, ?_, fun _ he => he, hs⟩
    simp only [BufferPool.evictOldestCleanPageIfFull, run_bind, run_get, if_neg hfull, run_pure]

/-! ## Fetching -/

/-- The same cached pages in another order. -/
theorem PoolSim.reorder {kept : ℕ → Page → Prop} {pending : List ℕ} {content : Bytes} {P : ℕ}
    {live' : List (ℕ × Ref)}
    {cache : List (ℕ × CachedPage)} (hp : PoolSim kept pages pending content P live pool)
    (hnodup : (cache.map Prod.fst).Nodup) (hmem : ∀ e, e ∈ cache ↔ e ∈ pool.cache)
    (hlive : ∀ e ∈ live', e ∈ handles live pool.cache) :
    PoolSim kept pages pending content P live' { pool with cache := cache } := by
  have hsub : ∀ e ∈ handles live' cache, e ∈ handles live pool.cache := by
    intro e he
    rcases List.mem_append.mp he with he | he
    · exact hlive e he
    · obtain ⟨c, hc, rfl⟩ := List.mem_map.mp he
      exact List.mem_append_right _ (List.mem_map_of_mem ((hmem c).mp hc))
  exact ⟨hnodup, fun e he => hp.object e (hsub e he),
    fun e he e' he' => hp.single e (hsub e he) e' (hsub e' he'),
    fun x page hpage hpending hx => hp.disk x page hpage hpending
      fun c hc => hx c ((hmem _).mpr hc)⟩

/-- A page with a new object joins the pool. -/
theorem PoolSim.enter {kept : ℕ → Page → Prop} {pending : List ℕ} {content : Bytes} {P : ℕ}
    {page : Page} (dirty : Bool)
    (hp : PoolSim kept pages pending content P live pool)
    (habsent : pageId ∉ (handles live pool.cache).map Prod.fst)
    (hdisk : dirty = true ∨ OnDisk content P pageId (.tree page) ∧ kept pageId page) :
    PoolSim kept (Function.update pages pageId (some page)) pending content P
      ((pageId, pool.objects.length) :: live)
      { pool with cache := pool.cache ++ [(pageId, ⟨pool.objects.length, dirty⟩)],
                  objects := pool.objects ++ [page] } := by
  -- Whatever had a handle before has another page id and another object.
  have hold : ∀ e ∈ handles live pool.cache, e.1 ≠ pageId ∧ e.2 < pool.objects.length := by
    intro e he
    obtain ⟨q, -, hobject⟩ := hp.object e he
    exact ⟨fun h => habsent (h ▸ List.mem_map_of_mem he), (List.getElem?_eq_some_iff.mp hobject).1⟩
  have hcases : ∀ e ∈ handles ((pageId, pool.objects.length) :: live)
      (pool.cache ++ [(pageId, ⟨pool.objects.length, dirty⟩)]),
      e ∈ handles live pool.cache ∨ e = (pageId, pool.objects.length) := by
    intro e he
    simp only [handles, List.map_append, List.map_cons, List.map_nil, List.cons_append,
      List.mem_cons, List.mem_append, List.not_mem_nil, or_false] at he ⊢
    tauto
  refine ⟨?_, ?_, ?_, ?_⟩
  · rw [List.map_append, List.nodup_append]
    refine ⟨hp.nodup, by simp, fun x hx y hy => ?_⟩
    rintro rfl
    refine habsent ?_
    obtain rfl : x = pageId := by simpa using hy
    obtain ⟨e, he, rfl⟩ := List.mem_map.mp hx
    exact List.mem_map.mpr ⟨(e.1, e.2.page), List.mem_append_right _
      (List.mem_map_of_mem (f := fun e : ℕ × CachedPage => (e.1, e.2.page)) he), rfl⟩
  · intro e he
    rcases hcases e he with he | rfl
    · obtain ⟨q, hq, hobject⟩ := hp.object e he
      refine ⟨q, by rw [Function.update_of_ne (hold e he).1]; exact hq, ?_⟩
      rw [List.getElem?_append_left (hold e he).2]
      exact hobject
    · exact ⟨page, by simp, by simp⟩
  · intro e he e' he'
    rcases hcases e he with he | rfl
    · rcases hcases e' he' with he' | rfl
      · exact hp.single e he e' he'
      · have := hold e he
        constructor
        · exact fun h => absurd h this.1
        · intro h
          have hlt := this.2
          rw [h] at hlt
          exact absurd hlt (lt_irrefl _)
    · rcases hcases e' he' with he' | rfl
      · have := hold e' he'
        constructor
        · exact fun h => absurd h.symm this.1
        · intro h
          have hlt := this.2
          rw [← h] at hlt
          exact absurd hlt (lt_irrefl _)
      · simp
  · intro x q hq hpending hx
    by_cases hid : x = pageId
    · subst hid
      rw [Function.update_self, Option.some.injEq] at hq
      subst hq
      rcases hdisk with hdirty | hdisk
      · have := hx ⟨pool.objects.length, dirty⟩ (by simp)
        rw [hdirty] at this
        cases this
      · exact hdisk
    · rw [Function.update_of_ne hid] at hq
      exact hp.disk x q hq hpending fun c hc => hx c (List.mem_append_left _ hc)

theorem mem_of_lookup {α : Type} {l : List (ℕ × α)} {a : α} (h : l.lookup pageId = some a) :
    (pageId, a) ∈ l := by
  induction l with
  | nil => simp at h
  | cons e l ih =>
      obtain ⟨k, b⟩ := e
      by_cases hk : pageId = k
      · subst hk
        simp only [List.lookup_cons_self, Option.some.injEq] at h
        simp [h]
      · rw [List.lookup_cons, beq_false_of_ne hk] at h
        exact List.mem_cons_of_mem _ (ih h)

theorem lookup_eq_none {α : Type} {l : List (ℕ × α)} :
    l.lookup pageId = none ↔ pageId ∉ l.map Prod.fst := by
  simp only [List.lookup_eq_none_iff, List.mem_map, bne_iff_ne, ne_eq, not_exists, not_and]
  exact ⟨fun h e he hid => h e he hid.symm, fun h e he hid => h e he hid.symm⟩

theorem lookup_eq_some {α : Type} {l : List (ℕ × α)} {a : α} (hnodup : (l.map Prod.fst).Nodup) :
    l.lookup pageId = some a ↔ (pageId, a) ∈ l := by
  refine ⟨mem_of_lookup, fun h => ?_⟩
  cases hl : l.lookup pageId with
  | none => exact absurd (List.mem_map_of_mem (f := Prod.fst) h) (lookup_eq_none.mp hl)
  | some b =>
      have := List.inj_on_of_nodup_map hnodup (mem_of_lookup hl) h rfl
      simpa using this

theorem filter_eq_of_absent {cache : List (ℕ × CachedPage)} (h : pageId ∉ cache.map Prod.fst) :
    cache.filter (·.1 ≠ pageId) = cache := by
  refine List.filter_eq_self.mpr fun e he => ?_
  have : e.1 ≠ pageId := fun hid => h (hid ▸ List.mem_map_of_mem he)
  simpa using this

/-- Reading a page of the data file. -/
theorem readPage_of_onDisk {page : AnyPage} (hopen : w.pager.isOpen = true)
    (hdata : w.disk.data.isSome)
    (hdisk : OnDisk (dataContent w) w.pager.pageSizeBytes pageId page) :
    ∃ bytes, Pager.readPage pageId w = .ok bytes w ∧ decodePage bytes = .ok page := by
  obtain ⟨f, hf⟩ := Option.isSome_iff_exists.mp hdata
  have hfile : Pager.file w = .ok f w := by simp [Pager.file, run_bind, hopen, hf]
  have hcontent : dataContent w = f.content := by simp [dataContent, hf]
  rw [hcontent] at hdisk
  refine ⟨_, ?_, hdisk.2⟩
  simp [Pager.readPage, run_bind, hfile, hdisk.1]

/-- Fetching a page of the store, at the cost of a page of the budget. -/
theorem Sim.fetch {page : Page} {touched' : List ℕ} {budget' : ℕ} (hs : Sim mode live w S)
    (hid : pageId ∉ live.map Prod.fst) (hpage : S.pages pageId = some page)
    (hpending : pageId ∉ S.pending)
    (htouch : (pageId ∈ S.touched ∧ touched' = S.touched ∧ budget' = S.budget) ∨
      (pageId ∉ S.touched ∧ 0 < S.budget ∧ touched' = pageId :: S.touched ∧
        budget' = S.budget - 1)) :
    (∃ ref w', BufferPool.get pageId w = .ok ref w' ∧
      Sim mode ((pageId, ref) :: live) w' { S with touched := touched', budget := budget' }) ∨
    (¬ mode.strict ∧ BufferPool.get pageId w = .error .bufferPoolOverflow w) := by
  cases hlookup : w.pool.cache.lookup pageId with
  | some cached =>
      have hmem := mem_of_lookup hlookup
      refine .inl ⟨cached.page, { w with pool := { w.pool with
        cache := w.pool.cache.filter (·.1 ≠ pageId) ++ [(pageId, cached)] } }, ?_, ?_⟩
      -- A hit only moves the entry to the end.
      · simp only [BufferPool.get, run_bind, run_get, hlookup, BufferPool.setCache, run_modify,
          run_pure]
      · refine { hs with pool := ?_, room := fun h => ?_ }
        · refine hs.pool.reorder ?_ (fun e => ?_) fun e he => ?_
          · rw [List.map_append, List.nodup_append]
            refine ⟨hs.pool.nodup.sublist (List.filter_sublist.map _), by simp, ?_⟩
            rintro x hx y hy rfl
            obtain rfl : x = pageId := by simpa using hy
            simp at hx
          · simp only [ne_eq, decide_not, List.mem_append, List.mem_filter, Bool.not_eq_eq_eq_not,
              Bool.not_true, decide_eq_false_iff_not, List.mem_singleton]
            constructor
            · rintro (⟨he, -⟩ | rfl)
              · exact he
              · exact hmem
            · intro he
              by_cases hne : e.1 = pageId
              · exact .inr (List.inj_on_of_nodup_map hs.pool.nodup he hmem hne)
              · exact .inl ⟨he, hne⟩
          · rcases List.mem_cons.mp he with rfl | he
            · exact List.mem_append_right _ (List.mem_map.mpr ⟨_, hmem, rfl⟩)
            · exact List.mem_append_left _ he
        · exact (hs.room h).enter cached S.pages htouch (fun _ _ => rfl) (by rw [hpage]; rfl)
            w.pool.objects
  | none =>
      -- A miss evicts, reads the page from the file and gives it a new object.
      have habsent := lookup_eq_none.mp hlookup
      have hpays : pageId ∈ S.touched ∨ 0 < S.budget := htouch.imp (·.1) (·.2.1)
      rcases hs.evictOldest habsent hpays with ⟨cache, hevict, hcache, hs'⟩ | ⟨hloose, hevict⟩
      · have habsent' : pageId ∉ cache.map Prod.fst := fun h => habsent
          (List.map_subset Prod.fst hcache h)
        have hdisk := hs'.pool.disk pageId page hpage hpending
          fun c hc => absurd (List.mem_map_of_mem (f := Prod.fst) hc) habsent'
        have hdisk' := hdisk.1
        rw [← hs'.pageSize] at hdisk'
        obtain ⟨bytes, hread, hdecode⟩ := readPage_of_onDisk hs'.isOpen hs'.data hdisk'
        refine .inl ⟨w.pool.objects.length, { w with pool := { w.pool with
          cache := cache ++ [(pageId, ⟨w.pool.objects.length, false⟩)],
          objects := w.pool.objects ++ [page] } }, ?_, ?_⟩
        · simp only [BufferPool.get, run_bind, run_get, hlookup, hevict, hread, hdecode, Eng.codec,
            run_pure, newObject, run_set, BufferPool.setCache, run_modify]
        · have hhandles : pageId ∉ (handles live cache).map Prod.fst := by
            simp only [handles, List.map_append, List.map_map, List.mem_append, not_or]
            exact ⟨hid, habsent'⟩
          refine { hs' with pool := ?_, room := fun h => ?_ }
          · have hpool := hs'.pool.enter false hhandles (.inr hdisk)
            rwa [Function.update_eq_self_iff.mpr hpage.symm] at hpool
          · have hroom := (hs'.room h).enter ⟨w.pool.objects.length, false⟩ S.pages htouch
              (fun _ _ => rfl) (by rw [hpage]; rfl) (w.pool.objects ++ [page])
            rwa [filter_eq_of_absent habsent'] at hroom
      · refine .inr ⟨hloose, ?_⟩
        simp only [BufferPool.get, run_bind, run_get, hlookup, hevict]

/-- `BufferPool.get` of a page that the operation holds no object of. -/
theorem Sim.get (hs : Sim mode live w S) (hid : pageId ∉ live.map Prod.fst) :
    Lockstep mode (fun ref _ w' S' => Sim mode ((pageId, ref) :: live) w' S')
      (BufferPool.get pageId w) (PageStore.getPage pageId S) := by
  rw [PageStore.getPage, run_bind_ok (run_get S)]
  refine Lockstep.require fun ⟨hpending, hsome⟩ => ?_
  obtain ⟨page, hpage⟩ := Option.isSome_iff_exists.mp hsome
  have hrun : ∀ touched' budget',
      ((pageId ∈ S.touched ∧ touched' = S.touched ∧ budget' = S.budget) ∨
        (pageId ∉ S.touched ∧ 0 < S.budget ∧ touched' = pageId :: S.touched ∧
          budget' = S.budget - 1)) →
      Lockstep mode (fun ref _ w' S' => Sim mode ((pageId, ref) :: live) w' S')
        (BufferPool.get pageId w)
        (.ok () { S with touched := touched', budget := budget' }) := by
    intro touched' budget' htouch
    rcases hs.fetch hid hpage hpending htouch with ⟨ref, w', hget, hs'⟩ | ⟨hloose, hget⟩
    · rw [hget]
      exact hs'
    · rw [hget]
      exact .of_escape (.inl ⟨hloose, .inl rfl⟩)
  rcases touch_cases pageId S with ⟨hmem, htouch⟩ | ⟨hmem, hbudget, htouch⟩ | htouch
  · rw [htouch]
    exact hrun _ _ (.inl ⟨hmem, rfl, rfl⟩)
  · rw [htouch]
    exact hrun _ _ (.inr ⟨hmem, hbudget, rfl, rfl⟩)
  · rw [htouch]
    exact .of_undefined rfl

/-! ## Inserting, marking and dropping -/

/-- `BufferPool.insert` of a new page. -/
theorem Sim.insert (hs : Sim mode live w S) (page : Page) (lsn : ℕ) :
    Lockstep mode (fun ref _ w' S' => Sim mode ((pageId, ref) :: live) w' S')
      (BufferPool.insert pageId page lsn w) (PageStore.insertPage pageId page lsn S) := by
  rw [PageStore.insertPage, run_bind_ok (run_get S)]
  refine Lockstep.require fun ⟨hnone, hpending⟩ => ?_
  have hhandles : pageId ∉ (handles live w.pool.cache).map Prod.fst := by
    intro h
    obtain ⟨e, he, rfl⟩ := List.mem_map.mp h
    obtain ⟨q, hq, -⟩ := hs.pool.object e he
    rw [hnone] at hq
    cases hq
  have habsent : pageId ∉ w.pool.cache.map Prod.fst := by
    intro h
    refine hhandles ?_
    simp only [handles, List.map_append, List.map_map, List.mem_append]
    exact .inr h
  have hlookup := lookup_eq_none.mpr habsent
  -- The page is new to the operation or was touched before; the eviction and the entry are the
  -- same.
  have hrun : ∀ touched' budget',
      ((pageId ∈ S.touched ∧ touched' = S.touched ∧ budget' = S.budget) ∨
        (pageId ∉ S.touched ∧ 0 < S.budget ∧ touched' = pageId :: S.touched ∧
          budget' = S.budget - 1)) →
      Lockstep mode (fun ref _ w' S' => Sim mode ((pageId, ref) :: live) w' S')
        (BufferPool.insert pageId page lsn w)
        (.ok () (({ S with touched := touched', budget := budget' } :
          PageStore.Store).setPage pageId
          (some (BufferPool.setLsn lsn page)))) := by
    intro touched' budget' htouch
    have hpays : pageId ∈ S.touched ∨ 0 < S.budget := htouch.imp (·.1) (·.2.1)
    rcases hs.evictOldest habsent hpays with ⟨cache, hevict, hcache, hs'⟩ | ⟨hloose, hevict⟩
    · have habsent' : pageId ∉ cache.map Prod.fst := fun h => habsent
        (List.map_subset Prod.fst hcache h)
      have hhandles' : pageId ∉ (handles live cache).map Prod.fst := by
        simp only [handles, List.map_append, List.map_map, List.mem_append, not_or] at hhandles ⊢
        exact ⟨hhandles.1, habsent'⟩
      simp only [BufferPool.insert, run_bind, run_get, hlookup, Option.isNone_none, assert, if_true,
        run_pure, hevict, newObject, run_set, BufferPool.setCache, run_modify]
      refine { hs' with pool := ?_, room := fun h => ?_ }
      · exact hs'.pool.enter true hhandles' (.inl rfl)
      · have hroom := (hs'.room h).enter ⟨w.pool.objects.length, true⟩
          (Function.update S.pages pageId (some (BufferPool.setLsn lsn page))) htouch
          (fun x hx => by rw [Function.update_of_ne hx]) (by rw [Function.update_self]; rfl)
          (w.pool.objects ++ [BufferPool.setLsn lsn page])
        rwa [filter_eq_of_absent habsent'] at hroom
    · simp only [BufferPool.insert, run_bind, run_get, hlookup, Option.isNone_none, assert, if_true,
        run_pure, hevict]
      -- No clean page to evict: the pool overflows, which is an outcome where the mode is not
      -- strict.
      exact .of_escape (.inl ⟨hloose, .inl rfl⟩)
  rcases touch_cases pageId S with ⟨hmem, htouch⟩ | ⟨hmem, hbudget, htouch⟩ | htouch
  · rw [run_bind_ok htouch, run_modify]
    exact hrun _ _ (.inl ⟨hmem, rfl, rfl⟩)
  · rw [run_bind_ok htouch, run_modify]
    exact hrun _ _ (.inr ⟨hmem, hbudget, rfl, rfl⟩)
  · rw [run_bind_error htouch]
    exact .of_undefined rfl

/-- The cache with one page marked dirty. -/
def markedDirty (pageId : ℕ) (cache : List (ℕ × CachedPage)) : List (ℕ × CachedPage) :=
  cache.map fun entry =>
    if entry.1 = pageId then (pageId, { entry.2 with isDirty := true }) else entry

theorem map_markedDirty {β : Type} (pageId : ℕ) (f : ℕ × Ref → β)
    (cache : List (ℕ × CachedPage)) :
    (markedDirty pageId cache).map (fun e => f (e.1, e.2.page)) =
      cache.map fun e => f (e.1, e.2.page) := by
  rw [markedDirty, List.map_map]
  refine List.map_congr_left fun e _ => ?_
  by_cases h : e.1 = pageId
  · simp [h]
  · simp [h]

theorem mem_markedDirty {cache : List (ℕ × CachedPage)} {x : ℕ} {c : CachedPage} (hx : x ≠ pageId)
    (hmem : (x, c) ∈ cache) : (x, c) ∈ markedDirty pageId cache :=
  List.mem_map.mpr ⟨(x, c), hmem, by simp [hx]⟩

/-- Dirty bits of touched pages do not count. -/
theorem Room.mark {pages' : ℕ → Option Page} (hr : Room start pages touched budget pool)
    (hin : pageId ∈ touched) (hpages : ∀ x, (pages' x).isSome = (pages x).isSome)
    (objects : List Page) :
    Room start pages' touched budget
      { pool with cache := markedDirty pageId pool.cache, objects := objects } where
  touchedNodup := hr.touchedNodup
  last := by
    have hlast := List.pairwise_map (f := fun e : ℕ × CachedPage => e.1)
      (R := fun x y : ℕ => x ∈ touched → y ∈ touched) (l := markedDirty pageId pool.cache)
    refine hlast.mp ?_
    rw [map_markedDirty pageId Prod.fst]
    exact List.pairwise_map.mpr hr.last
  resident x hx hsome := by
    have := hr.resident x hx (hpages x ▸ hsome)
    have hkeys := map_markedDirty pageId Prod.fst pool.cache
    show x ∈ (markedDirty pageId pool.cache).map Prod.fst
    rw [hkeys]
    exact this
  space heviction := by
    have hspace := hr.space heviction
    have hcount : (markedDirty pageId pool.cache).countP
        (fun e => e.2.isDirty && decide (e.1 ∉ touched)) =
        pool.cache.countP (fun e => e.2.isDirty && decide (e.1 ∉ touched)) := by
      rw [markedDirty, List.countP_map]
      refine List.countP_congr fun e _ => ?_
      by_cases h : e.1 = pageId
      · simp [h, hin]
      · simp [h]
    show (markedDirty pageId pool.cache).countP _ + _ + _ ≤ _
    rw [hcount]
    exact hspace
  held ids hids := by
    obtain ⟨heviction, hcached⟩ := hr.held ids hids
    refine ⟨heviction, fun x => ?_⟩
    show x ∈ (markedDirty pageId pool.cache).map Prod.fst ↔ _
    rw [map_markedDirty pageId Prod.fst pool.cache, hpages]
    exact hcached x

/-- `BufferPool.mark_dirty`. -/
theorem Sim.markDirty (hs : Sim mode live w S) (pageId lsn : ℕ) :
    Lockstep mode (fun _ _ w' S' => Sim mode live w' S') (BufferPool.markDirty pageId lsn w)
      (PageStore.markDirty pageId lsn S) := by
  cases hpage : S.pages pageId with
  | none =>
      have : PageStore.deref pageId S = .error .undisciplined S := by
        simp [PageStore.deref, run_bind, hpage]
      rw [PageStore.markDirty, run_bind_error this]
      exact .of_undefined rfl
  | some page =>
      have hderef : PageStore.deref pageId S = .ok page S := by
        simp [PageStore.deref, run_bind, hpage]
      rw [PageStore.markDirty, run_bind_ok hderef, run_bind_ok (run_get S)]
      refine Lockstep.require fun htouched => ?_
      rw [run_set]
      cases hlookup : w.pool.cache.lookup pageId with
      | none =>
          have hloose : ¬ mode.strict := fun h => lookup_eq_none.mp hlookup
            ((hs.room h).resident pageId htouched (by simp [hpage]))
          simp only [BufferPool.markDirty, run_bind, run_get, hlookup, run_throw]
          exact .of_escape (.inl ⟨hloose, .inr ⟨pageId, rfl⟩⟩)
      | some cached =>
          have hmem := mem_of_lookup hlookup
          have hhandle : (pageId, cached.page) ∈ handles live w.pool.cache :=
            List.mem_append_right _ (List.mem_map.mpr ⟨_, hmem, rfl⟩)
          obtain ⟨page', hpage', hobject⟩ := hs.pool.object _ hhandle
          obtain rfl : page = page' := by simpa [hpage] using hpage'
          simp only [BufferPool.markDirty, run_bind, run_get, hlookup, BufferPool.setCache,
            run_modify, Eng.deref, hobject, run_pure, Eng.assign]
          refine { hs with pool := ?_, room := fun h => ?_ }
          · refine hs.pool.update _ hhandle (map_markedDirty pageId id _)
              (.inr ⟨⟨cached.page, true⟩, ?_, rfl⟩)
              (fun x hx hne => by simp [hx, hne]) fun x c hne hc => mem_markedDirty hne hc
            exact List.mem_map.mpr ⟨_, hmem, by simp⟩
          · exact (hs.room h).mark htouched (isSome_update _ hpage) _

/-- `BufferPool.delete`. -/
theorem Sim.drop (hs : Sim mode live w S) (pageId : ℕ) :
    Lockstep mode (fun _ _ w' S' => Sim mode (live.filter (·.1 ≠ pageId)) w' S')
      (BufferPool.delete pageId w) (PageStore.drop pageId S) := by
  have hhandles : ∀ e ∈ handles (live.filter (·.1 ≠ pageId))
      (w.pool.cache.filter (·.1 ≠ pageId)), e ∈ handles live w.pool.cache ∧ e.1 ≠ pageId := by
    intro e he
    rcases List.mem_append.mp he with he | he
    · obtain ⟨he, hne⟩ := List.mem_filter.mp he
      exact ⟨List.mem_append_left _ he, by simpa using hne⟩
    · obtain ⟨c, hc, rfl⟩ := List.mem_map.mp he
      obtain ⟨hc, hne⟩ := List.mem_filter.mp hc
      exact ⟨List.mem_append_right _ (List.mem_map.mpr ⟨c, hc, rfl⟩), by simpa using hne⟩
  refine { hs with pool := ⟨?_, ?_, ?_, ?_⟩, room := fun h => ⟨?_, ?_, ?_, ?_, fun ids hids => ?_⟩ }
  · exact hs.pool.nodup.sublist (List.filter_sublist.map _)
  · intro e he
    obtain ⟨hmem, hne⟩ := hhandles e he
    obtain ⟨page, hpage, hobject⟩ := hs.pool.object e hmem
    exact ⟨page, by rw [← hpage]; exact Function.update_of_ne hne _ _, hobject⟩
  · exact fun e he e' he' => hs.pool.single e (hhandles e he).1 e' (hhandles e' he').1
  -- A page without a cache entry is on disk; the dropped one is no page of the store any more.
  · intro x page hpage hpending hx
    have hne : x ≠ pageId := by
      rintro rfl
      simp [PageStore.Store.setPage] at hpage
    have hold : S.pages x = some page := by
      rw [← hpage]
      exact (Function.update_of_ne hne _ _).symm
    refine hs.pool.disk x page hold (fun h => hpending ?_) fun c hc => hx c ?_
    · exact List.mem_filter.mpr ⟨h, by simpa using hne⟩
    · exact List.mem_filter.mpr ⟨hc, by simpa using hne⟩
  · exact (hs.room h).touchedNodup
  · exact (hs.room h).last.sublist List.filter_sublist
  · intro x hx hsome
    have hne : x ≠ pageId := by
      rintro rfl
      simp [PageStore.Store.setPage] at hsome
    have hold : (S.pages x).isSome := by
      have heq : Function.update S.pages pageId none x = S.pages x := Function.update_of_ne hne _ _
      rw [← heq]
      exact hsome
    obtain ⟨e, he, rfl⟩ := List.mem_map.mp ((hs.room h).resident x hx hold)
    exact List.mem_map.mpr ⟨e, List.mem_filter.mpr ⟨he, by simpa using hne⟩, rfl⟩
  · intro heviction
    have hspace := (hs.room h).space heviction
    exact le_trans (Nat.add_le_add_right (Nat.add_le_add_right
      (List.Sublist.countP_le List.filter_sublist) _) _) hspace
  · obtain ⟨heviction, hcached⟩ := (hs.room h).held ids hids
    refine ⟨heviction, fun x => ?_⟩
    by_cases hid : x = pageId
    · subst hid
      simp [PageStore.Store.setPage]
    · have hold : Function.update S.pages pageId none x = S.pages x := Function.update_of_ne hid _ _
      show x ∈ (w.pool.cache.filter (·.1 ≠ pageId)).map Prod.fst ↔
        (x ∈ ids ∨ x ∈ S.touched) ∧ (Function.update S.pages pageId none x).isSome
      rw [hold, ← hcached x]
      simp [hid]

end BPTreeDB.Engine
