import BPTreeDB.Engine.Reading

/-!
# The page store that fetches see

A fetch returns the cached page object, or reads the page from the data file if the pool can
make room.  In a process whose clean cached pages are those of the data file, fetches do not
change what later fetches return: a page that leaves the pool is read again, and the pool can
make room after a fetch if it could before.  So reading is a matter of one map from page ids to
pages, whatever the order of the reads and the size of the pool.
-/

namespace BPTreeDB.Engine

open Lib Eng Codec Lib.Program PageStore

variable {w w' : World} {x y : ℕ} {ref : Ref} {page : Page} {S : ℕ → Option Page} {m : MetaPage}

/-! ## What a fetch returns -/

/-- The page of the tree that the data file holds under an id. -/
def diskPage (w : World) (x : ℕ) : Option Page :=
  match Pager.readPage x w with
  | .ok data _ =>
      match decodePage data with
      | .ok (.tree page) => some page
      | _ => none
  | .error _ _ => none

/-- The page that a fetch gives. -/
def storePage (w : World) (x : ℕ) : Option Page :=
  match BufferPool.get x w with
  | .ok ref w' => w'.pool.objects[ref]?
  | .error _ _ => none

/-- The pool can make room for a page. -/
def Roomy (w : World) : Prop :=
  w.pool.evictionEnabled = true → w.pool.cache.length < w.pool.capacityPages ∨
    ∃ e ∈ w.pool.cache, e.2.isDirty = false

/-- Cached pages have objects, and the clean ones are those of the data file. -/
structure Coherent (w : World) : Prop where
  nodup : (w.pool.cache.map Prod.fst).Nodup
  object : ∀ x c, (x, c) ∈ w.pool.cache → ∃ page, w.pool.objects[c.page]? = some page
  clean : ∀ x c, (x, c) ∈ w.pool.cache → c.isDirty = false →
    diskPage w x = w.pool.objects[c.page]?

/-! ## Runs of a fetch -/

/-- The world with another cache. -/
def withCache (w : World) (cache : List (ℕ × CachedPage)) : World :=
  { w with pool := { w.pool with cache } }

/-- A pool that can make room keeps its pages, or drops a clean one. -/
theorem Roomy.evict (h : Roomy w) : ∃ cache, BufferPool.evictOldestCleanPageIfFull w =
      .ok () (withCache w cache) ∧
    (cache = w.pool.cache ∨ ∃ y c, (y, c) ∈ w.pool.cache ∧ c.isDirty = false ∧
      cache = w.pool.cache.filter (·.1 ≠ y)) := by
  by_cases hfull : w.pool.evictionEnabled = true ∧ w.pool.capacityPages ≤ w.pool.cache.length
  · obtain ⟨e, he, hclean⟩ := (h hfull.1).resolve_left (by omega)
    cases hfind : w.pool.cache.find? (fun e => !e.2.isDirty) with
    | none => exact absurd (List.find?_eq_none.mp hfind e he) (by simp [hclean])
    | some victim =>
        refine ⟨w.pool.cache.filter (·.1 ≠ victim.1), ?_, .inr ⟨victim.1, victim.2,
          List.mem_of_find?_eq_some hfind, by simpa using List.find?_some hfind, rfl⟩⟩
        simp only [BufferPool.evictOldestCleanPageIfFull, run_bind, run_get, if_pos hfull, hfind,
          BufferPool.setCache, run_modify, withCache]
  · refine ⟨w.pool.cache, ?_, .inl rfl⟩
    simp only [BufferPool.evictOldestCleanPageIfFull, run_bind, run_get, if_neg hfull, run_pure,
      withCache]

theorem evict_of_not_roomy (h : ¬ Roomy w) :
    BufferPool.evictOldestCleanPageIfFull w = .error .bufferPoolOverflow w := by
  unfold Roomy at h
  obtain ⟨henabled, hrest⟩ := Classical.not_imp.mp h
  obtain ⟨hfull, hdirty⟩ := not_or.mp hrest
  have hfind : w.pool.cache.find? (fun e => !e.2.isDirty) = none := by
    apply List.find?_eq_none.mpr
    intro e he hclean
    exact hdirty ⟨e, he, by simpa using hclean⟩
  simp only [BufferPool.evictOldestCleanPageIfFull, run_bind, run_get,
    if_pos (And.intro henabled (not_lt.mp hfull)), hfind, run_throw]

/-- A page that is cached. -/
theorem get_cached {c : CachedPage} (h : w.pool.cache.lookup x = some c) :
    BufferPool.get x w = .ok c.page { w with pool := hitPool w.pool x c } := by
  rw [BufferPool.get, run_bind_ok (run_get w)]
  simp only [h]
  rfl

/-- `read_page` depends on the pager and the directory, and changes nothing. -/
theorem exists_readPage (w : World) (x : ℕ) : ∃ r : Except Err Bytes, ∀ w' : World,
    w'.pager = w.pager → w'.disk = w.disk → Pager.readPage x w' = Eng.codec r w' := by
  cases hopen : w.pager.isOpen with
  | false =>
      refine ⟨.error (.assertionError "self._file is not None"), fun w' hpager _ => ?_⟩
      simp [Pager.readPage, Pager.file, run_bind, hpager, hopen, Eng.codec]
  | true =>
      cases hdata : w.disk.data with
      | none =>
          refine ⟨.error (.assertionError "self._file is not None"), fun w' hpager hdisk => ?_⟩
          simp [Pager.readPage, Pager.file, run_bind, hpager, hdisk, hopen, hdata, Eng.codec]
      | some f =>
          by_cases hlength : x ≠ Pager.metaPageId ∧ (readAt f.content (x * w.pager.pageSizeBytes)
              w.pager.pageSizeBytes).length ≠ w.pager.pageSizeBytes
          · refine ⟨.error (.corrupted ("Unexpected end of file while reading page " ++
              toString x)),
              fun w' hpager hdisk => ?_⟩
            simp only [Pager.readPage, Pager.file, run_bind, run_get, hpager, hdisk, hopen, hdata,
              run_pure, if_pos hlength, Eng.codec, run_throw]
          · refine ⟨.ok (readAt f.content (x * w.pager.pageSizeBytes) w.pager.pageSizeBytes),
              fun w' hpager hdisk => ?_⟩
            simp only [Pager.readPage, Pager.file, run_bind, run_get, hpager, hdisk, hopen, hdata,
              run_pure, if_neg hlength, Eng.codec]

theorem diskPage_congr (hpager : w'.pager = w.pager) (hdisk : w'.disk = w.disk) :
    diskPage w' x = diskPage w x := by
  obtain ⟨r, hr⟩ := exists_readPage w x
  rw [diskPage, diskPage, hr w rfl rfl, hr w' hpager hdisk]
  cases r <;> rfl

/-- A page that is not cached, and that the pool can make room for. -/
theorem get_missing {cache : List (ℕ × CachedPage)} (h : w.pool.cache.lookup x = none)
    (hevict : BufferPool.evictOldestCleanPageIfFull w = .ok () (withCache w cache)) :
    (∀ page, diskPage w x = some page → BufferPool.get x w =
      .ok w.pool.objects.length { w with pool := enteredPool (withCache w cache).pool x page }) ∧
    (diskPage w x = none → ∃ e w', BufferPool.get x w = .error e w') := by
  obtain ⟨r, hr⟩ := exists_readPage w x
  rw [BufferPool.get, run_bind_ok (run_get w)]
  simp only [h]
  rw [run_bind_ok hevict, diskPage, hr w rfl rfl]
  cases r with
  | error e =>
      refine ⟨fun page hpage => ?_, fun _ => ⟨e, withCache w cache, ?_⟩⟩
      · cases hpage
      · exact run_bind_error (hr (withCache w cache) rfl rfl)
  | ok data =>
      rw [run_bind_ok (hr (withCache w cache) rfl rfl)]
      cases hdecode : decodePage data with
      | error e =>
          refine ⟨fun page hpage => ?_, fun _ => ⟨e, withCache w cache, rfl⟩⟩
          simp [Eng.codec, hdecode] at hpage
      | ok any =>
          cases any with
          | freelist p =>
              refine ⟨fun page hpage => ?_, fun _ => ⟨_, withCache w cache, rfl⟩⟩
              simp [Eng.codec, hdecode] at hpage
          | tree p =>
              refine ⟨fun page hpage => ?_, fun hpage => ?_⟩
              · simp only [Eng.codec, run_pure, hdecode, Option.some.injEq] at hpage
                subst hpage
                rfl
              · simp [Eng.codec, hdecode] at hpage

/-! ## What later fetches return -/

theorem storePage_cached {c : CachedPage} (h : w.pool.cache.lookup x = some c) :
    storePage w x = w.pool.objects[c.page]? := by
  rw [storePage, get_cached h]
  rfl

theorem storePage_roomy (h : w.pool.cache.lookup x = none) (hroomy : Roomy w) :
    storePage w x = diskPage w x := by
  obtain ⟨cache, hevict, -⟩ := hroomy.evict
  obtain ⟨hsome, hnone⟩ := get_missing h hevict
  unfold storePage
  cases hpage : diskPage w x with
  | none =>
      obtain ⟨e, w', hrun⟩ := hnone hpage
      rw [hrun]
  | some page =>
      rw [hsome page hpage]
      simp [enteredPool, withCache]

theorem get_full (h : w.pool.cache.lookup x = none) (hroomy : ¬ Roomy w) :
    BufferPool.get x w = .error .bufferPoolOverflow w := by
  rw [BufferPool.get, run_bind_ok (run_get w)]
  simp only [h]
  exact run_bind_error (evict_of_not_roomy hroomy)

theorem storePage_full (h : w.pool.cache.lookup x = none) (hroomy : ¬ Roomy w) :
    storePage w x = none := by
  rw [storePage, get_full h hroomy]

/-- From `w` to `w'` pages were fetched: later fetches return what they would have returned
before, and no page object has changed. -/
structure Fetches (w w' : World) : Prop where
  coherent : Coherent w'
  store : ∀ x, storePage w' x = storePage w x
  objects : w.pool.objects <+: w'.pool.objects
  metaPage : w'.pager.metaPage = w.pager.metaPage

theorem Fetches.refl (h : Coherent w) : Fetches w w :=
  ⟨h, fun _ => rfl, List.prefix_refl _, rfl⟩

theorem Fetches.trans {w'' : World} (h : Fetches w w') (h' : Fetches w' w'') : Fetches w w'' :=
  ⟨h'.coherent, fun x => (h'.store x).trans (h.store x), h.objects.trans h'.objects,
    h'.metaPage.trans h.metaPage⟩

theorem Fetches.object (h : Fetches w w') (hobject : w.pool.objects[ref]? = some page) :
    w'.pool.objects[ref]? = some page := by
  obtain ⟨tail, htail⟩ := h.objects
  obtain ⟨hlt, -⟩ := List.getElem?_eq_some_iff.mp hobject
  rw [← htail, List.getElem?_append_left hlt]
  exact hobject

theorem lookup_hit {cache : List (ℕ × CachedPage)} {c : CachedPage} (h : cache.lookup x = some c)
    (y : ℕ) : (cache.filter (·.1 ≠ x) ++ [(x, c)]).lookup y = cache.lookup y := by
  by_cases hy : y = x
  · subst hy
    rw [h, List.lookup_append, lookup_eq_none.mpr (by simp)]
    simp
  · rw [List.lookup_append, lookup_filter_of_ne hy]
    simp [List.lookup_cons, beq_false_of_ne hy]

theorem perm_hit {cache : List (ℕ × CachedPage)} {c : CachedPage} (h : cache.lookup x = some c)
    (hnodup : (cache.map Prod.fst).Nodup) :
    (cache.filter (·.1 ≠ x) ++ [(x, c)]).Perm cache := by
  have hnodup' : ((cache.filter (·.1 ≠ x) ++ [(x, c)]).map Prod.fst).Nodup := by
    rw [List.map_append, List.nodup_append]
    refine ⟨hnodup.sublist (List.filter_sublist.map _), by simp, ?_⟩
    simp only [List.mem_map, List.mem_filter, List.map_cons, List.map_nil, List.mem_singleton]
    rintro _ ⟨e, ⟨-, he⟩, rfl⟩ _ rfl
    simpa using he
  refine (List.perm_ext_iff_of_nodup (.of_map _ hnodup') (.of_map _ hnodup)).mpr fun ⟨y, d⟩ => ?_
  rw [← lookup_eq_some hnodup', ← lookup_eq_some hnodup, lookup_hit h]

/-- Fetches depend on the cached pages, not on their order. -/
theorem roomy_of_perm (hcache : w'.pool.cache.Perm w.pool.cache)
    (hcapacity : w'.pool.capacityPages = w.pool.capacityPages)
    (henabled : w'.pool.evictionEnabled = w.pool.evictionEnabled) : Roomy w' ↔ Roomy w := by
  unfold Roomy
  rw [hcapacity, henabled, hcache.length_eq]
  simp only [hcache.mem_iff]

/-- A hit only moves a page to the end of the cache. -/
theorem Coherent.hit {c : CachedPage} (hc : Coherent w) (h : w.pool.cache.lookup x = some c) :
    Fetches w { w with pool := hitPool w.pool x c } := by
  have hperm := perm_hit h hc.nodup
  have hdisk : ∀ y, diskPage { w with pool := hitPool w.pool x c } y = diskPage w y :=
    fun y => diskPage_congr rfl rfl
  have hroomy : Roomy { w with pool := hitPool w.pool x c } ↔ Roomy w := roomy_of_perm hperm rfl rfl
  refine ⟨⟨(hperm.map _).nodup_iff.mpr hc.nodup, fun y d hy => hc.object y d (hperm.mem_iff.mp hy),
    fun y d hy hclean => (hdisk y).trans (hc.clean y d (hperm.mem_iff.mp hy) hclean)⟩,
    fun y => ?_, List.prefix_refl _, rfl⟩
  have hlookup : (hitPool w.pool x c).cache.lookup y = w.pool.cache.lookup y := lookup_hit h y
  cases hy : w.pool.cache.lookup y with
  | some d =>
      rw [storePage_cached hy]
      exact storePage_cached (hlookup.trans hy)
  | none =>
      by_cases hr : Roomy w
      · rw [storePage_roomy hy hr, storePage_roomy (hlookup.trans hy) (hroomy.mpr hr), hdisk]
      · rw [storePage_full hy hr, storePage_full (hlookup.trans hy) (mt hroomy.mp hr)]

/-- A page that is read enters the pool, and a clean one may leave it. -/
theorem Coherent.enter {cache : List (ℕ × CachedPage)} (hc : Coherent w)
    (h : w.pool.cache.lookup x = none) (hroomy : Roomy w) (hpage : diskPage w x = some page)
    (hcache : cache = w.pool.cache ∨ ∃ y c, (y, c) ∈ w.pool.cache ∧ c.isDirty = false ∧
      cache = w.pool.cache.filter (·.1 ≠ y)) :
    Fetches w { w with pool := enteredPool (withCache w cache).pool x page } := by
  set w' : World := { w with pool := enteredPool (withCache w cache).pool x page } with hw'
  have hdisk : ∀ y, diskPage w' y = diskPage w y := fun y => diskPage_congr rfl rfl
  have hentries : w'.pool.cache = cache ++ [(x, ⟨w.pool.objects.length, false⟩)] := rfl
  have hobjects : w'.pool.objects = w.pool.objects ++ [page] := rfl
  have hsub : cache.Sublist w.pool.cache := by
    rcases hcache with rfl | ⟨y, c, -, -, rfl⟩
    · exact .refl _
    · exact List.filter_sublist
  have habsent : x ∉ cache.map Prod.fst := fun hx => lookup_eq_none.mp h ((hsub.map _).subset hx)
  have hkept : ∀ (ref : Ref) p, w.pool.objects[ref]? = some p → w'.pool.objects[ref]? = some p := by
    intro ref p hp
    rw [hobjects, List.getElem?_append_left (List.getElem?_eq_some_iff.mp hp).1]
    exact hp
  have hroomy' : Roomy w' := fun _ =>
    .inr ⟨_, List.mem_append_right _ (List.mem_singleton_self _), rfl⟩
  have hnodup : (w'.pool.cache.map Prod.fst).Nodup := by
    rw [hentries, List.map_append, List.nodup_append]
    refine ⟨hc.nodup.sublist (hsub.map _), by simp, ?_⟩
    rintro y hy _ hx rfl
    simp only [List.map_cons, List.map_nil, List.mem_singleton] at hx
    exact habsent (hx ▸ hy)
  refine ⟨⟨hnodup, fun y d hy => ?_, fun y d hy hclean => ?_⟩, fun y => ?_,
    ⟨[page], rfl⟩, rfl⟩
  · rcases List.mem_append.mp (hentries ▸ hy) with hy | hy
    · obtain ⟨p, hp⟩ := hc.object y d (hsub.subset hy)
      exact ⟨p, hkept _ _ hp⟩
    · cases List.mem_singleton.mp hy
      exact ⟨page, by simp [hobjects]⟩
  · rw [hdisk]
    rcases List.mem_append.mp (hentries ▸ hy) with hy | hy
    · obtain ⟨p, hp⟩ := hc.object y d (hsub.subset hy)
      rw [hc.clean y d (hsub.subset hy) hclean, hp, hkept _ _ hp]
    · cases List.mem_singleton.mp hy
      simp [hobjects, hpage]
  · by_cases hyx : y = x
    · subst hyx
      have hlookup : w'.pool.cache.lookup y = some ⟨w.pool.objects.length, false⟩ :=
        (lookup_eq_some hnodup).mpr (by simp [hentries])
      rw [storePage_cached hlookup, storePage_roomy h hroomy, hpage, hobjects]
      simp
    · have hlookup : w'.pool.cache.lookup y = cache.lookup y := by
        rw [hentries, List.lookup_append]
        simp [List.lookup_cons, beq_false_of_ne hyx]
      cases hold : w.pool.cache.lookup y with
      | none =>
          have hnew : cache.lookup y = none :=
            lookup_eq_none.mpr fun hy => lookup_eq_none.mp hold ((hsub.map _).subset hy)
          rw [storePage_roomy hold hroomy, storePage_roomy (hlookup.trans hnew) hroomy', hdisk]
      | some d =>
          have hmem := (lookup_eq_some hc.nodup).mp hold
          obtain ⟨p, hp⟩ := hc.object y d hmem
          rw [storePage_cached hold]
          cases hnew : cache.lookup y with
          | some d' =>
              have hd := (lookup_eq_some hc.nodup).mpr (hsub.subset (mem_of_lookup hnew))
              obtain rfl : d = d' := Option.some.inj (hold.symm.trans hd)
              rw [storePage_cached (hlookup.trans hnew), hp, hkept _ _ hp]
          | none =>
              -- the page that was evicted is read again
              rw [storePage_roomy (hlookup.trans hnew) hroomy', hdisk]
              rcases hcache with rfl | ⟨z, c, hz, hclean, rfl⟩
              · rw [hold] at hnew
                cases hnew
              · obtain rfl : y = z := by
                  by_contra hyz
                  rw [lookup_filter_of_ne hyz, hold] at hnew
                  cases hnew
                exact hc.clean y d hmem (by
                  rw [Option.some.inj (hold.symm.trans ((lookup_eq_some hc.nodup).mpr hz))]
                  exact hclean)

/-! ## Fetches -/

/-- A fetch that returns gives the page of the store. -/
theorem Coherent.get_ok (hc : Coherent w) (hrun : BufferPool.get x w = .ok ref w') :
    Fetches w w' ∧ ∃ page, storePage w x = some page ∧ w'.pool.objects[ref]? = some page := by
  cases hlookup : w.pool.cache.lookup x with
  | some c =>
      rw [get_cached hlookup] at hrun
      cases hrun
      obtain ⟨page, hpage⟩ := hc.object x c (mem_of_lookup hlookup)
      exact ⟨hc.hit hlookup, page, (storePage_cached hlookup).trans hpage, hpage⟩
  | none =>
      by_cases hroomy : Roomy w
      · obtain ⟨cache, hevict, hcache⟩ := hroomy.evict
        obtain ⟨hsome, hnone⟩ := get_missing hlookup hevict
        cases hpage : diskPage w x with
        | none =>
            obtain ⟨e, w'', hrun'⟩ := hnone hpage
            rw [hrun'] at hrun
            cases hrun
        | some page =>
            rw [hsome page hpage] at hrun
            cases hrun
            exact ⟨hc.enter hlookup hroomy hpage hcache, page,
              (storePage_roomy hlookup hroomy).trans hpage, by simp [enteredPool, withCache]⟩
      · rw [get_full hlookup hroomy] at hrun
        cases hrun

/-- A page of the store is fetched. -/
theorem Coherent.get (hc : Coherent w) (hpage : storePage w x = some page) :
    ∃ ref w', BufferPool.get x w = .ok ref w' ∧ Fetches w w' ∧
      w'.pool.objects[ref]? = some page := by
  have hdef := hpage
  unfold storePage at hdef
  cases hrun : BufferPool.get x w with
  | error e w' =>
      rw [hrun] at hdef
      cases hdef
  | ok ref w' =>
      obtain ⟨hfetches, page', hpage', hobject⟩ := hc.get_ok hrun
      obtain rfl : page = page' := Option.some.inj (hpage.symm.trans hpage')
      exact ⟨ref, w', rfl, hfetches, hobject⟩

/-- A process that holds a tree is coherent. -/
theorem Quiet.coherent {C : Content} (hq : Quiet w C) : Coherent w := by
  have hobject : ∀ x c, (x, c) ∈ w.pool.cache →
      ∃ page, C.pages x = some page ∧ w.pool.objects[c.page]? = some page := fun x c hx =>
    hq.pool.object (x, c.page) (List.mem_append_right _ (List.mem_map.mpr ⟨_, hx, rfl⟩))
  refine ⟨hq.pool.nodup, fun x c hx => ?_, fun x c hx hclean => ?_⟩
  · obtain ⟨page, -, hpage⟩ := hobject x c hx
    exact ⟨page, hpage⟩
  · obtain ⟨page, hcontent, hpage⟩ := hobject x c hx
    have hdisk := (hq.pool.disk x page hcontent (by simp) fun d hd => by
      obtain rfl : d = c := congrArg Prod.snd (List.inj_on_of_nodup_map hq.pool.nodup hd hx rfl)
      exact hclean).1
    have hsize : w.pager.pageSizeBytes = C.pageSize := hq.pageSize
    obtain ⟨bytes, hread, hdecode⟩ := readPage_of_onDisk hq.isOpen hq.data (hsize ▸ hdisk)
    unfold diskPage
    rw [hread, hpage]
    simp only [hdecode]

end BPTreeDB.Engine
