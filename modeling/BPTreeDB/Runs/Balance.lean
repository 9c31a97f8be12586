import BPTreeDB.Runs.TreeRuns

/-!
# How full the pages of a run are

Rebalancing rests on the cap on records: a page whose slots are at most a fifth of it can
be split in the middle, and can be refilled from a sibling or merged with it.  The cap is
enough for leaves.  Internal pages also take in a separator when they are merged, and lose
one when they are split, so there it takes shorter keys: with keys of at most
`shortKeyLength` bytes every page stays at least `0.4` full and rebalancing never gets
stuck.  With longer keys, which the record cap admits, neither is true.
-/

namespace BPTreeDB.Runs

open Lib Eng Codec Lib.Program PageStore Engine

variable {R : Regime} {L H : ℕ} {T : Tree H} {C : Content} {M : KeyMap} {w w' : World}
  {config : Config} {bounded : Bool} {calls : List TreeCall} {x : ℕ}

/-! ## Short keys -/

/-- The longest keys for which two underpopulated pages and two separators fit on a page. -/
def shortKeyLength (P : ℕ) : ℕ := (P - 8 - 2 * ((2 * P - 1) / 5)) / 2

/-- An insert with a short key. -/
def TreeCall.Short (P : ℕ) : TreeCall → Prop
  | .insert key _ _ => key.length ≤ shortKeyLength P
  | _ => True

instance (P : ℕ) : DecidablePred (TreeCall.Short P)
  | .insert key _ _ => inferInstanceAs (Decidable (key.length ≤ shortKeyLength P))
  | .delete _ _ => inferInstanceAs (Decidable True)
  | .search _ => inferInstanceAs (Decidable True)
  | .scan _ _ => inferInstanceAs (Decidable True)
  | .flushAll => inferInstanceAs (Decidable True)
  | .flushDirtyFreelistPages => inferInstanceAs (Decidable True)

/-- The sample run grows its three levels from the longest keys that are short. -/
theorem sampleCalls_short : ∀ c ∈ sampleCalls, c.Short 256 := by decide +kernel

/-- On pages of at least `256` bytes a leaf with a single record is underpopulated. -/
theorem thin_of_large {P : ℕ} (hP : 256 ≤ P) :
    112 ≤ P ∧ 5 * (pageHeaderSize + (P - pageHeaderSize) / 5) < 2 * P := by
  simp only [pageHeaderSize]
  omega

theorem cap_full {P : ℕ} (hP : 256 ≤ P) (_ : 112 ≤ P) :
    16 + shortKeyLength P ≤ (P - pageHeaderSize) / 5 := by
  simp only [shortKeyLength, pageHeaderSize]
  omega

theorem short_full {P : ℕ} (hP : 256 ≤ P) (_ : True) :
    2 * ((2 * P - 1) / 5) + 2 * shortKeyLength P + 8 ≤ P := by
  simp only [shortKeyLength]
  omega

/-- The half-full rule on every page, for short keys. -/
def fullRegime (P : ℕ) (hP : 256 ≤ P) : Regime where
  pageSize := P
  maxKey := shortKeyLength P
  healthyLeaves := True
  healthyNodes := True
  cap := cap_full hP
  thin _ := thin_of_large hP
  large _ := hP
  short := short_full hP

theorem not_tolerated_full {P : ℕ} (hP : 256 ≤ P) (e : Err) : ¬ Tolerated (fullRegime P hP) e := by
  rintro ⟨h, hunhealthy, -⟩
  cases h with
  | zero => exact hunhealthy trivial
  | succ h => exact hunhealthy trivial

theorem TreeCall.Short.within {P : ℕ} (hP : 256 ≤ P) {c : TreeCall} (h : c.Short P) :
    c.Within (fullRegime P hP) := by
  cases c with
  | insert key value lsn => exact fun _ => h
  | _ => trivial

theorem minPageSize_le {P : ℕ} (hP : 256 ≤ P) : minPageSize ≤ P := by
  simp only [minPageSize, metaPageNoCrcSize, crc32FieldSize]
  omega

theorem Reached.full (h : Reached config bounded calls w) (hP : 256 ≤ config.pageSizeBytes)
    (hshort : ∀ c ∈ calls, c.Short config.pageSizeBytes) :
    ∃ L C M, ∃ (H : ℕ) (T : Tree H),
      Holding (fullRegime config.pageSizeBytes hP) L M C T w := by
  obtain ⟨-, -, L, C, M, -, H, T, hholding⟩ := h.holding
    (R := fullRegime config.pageSizeBytes hP) rfl
    (minPageSize_le hP) fun c hc => (hshort c hc).within hP
  exact ⟨L, C, M, H, T, hholding⟩

/-! ## Rebalancing never gets stuck -/

theorem looseMode_not_stuck : ¬ (looseMode C).escape (.assertionError stuckMessage) := by
  simp [Mode.escape]

/-- What an insert or a delete may raise besides the exceptions of a tolerant regime. -/
theorem Holding.insert_ne_stuck (h : Holding R L M C T w)
    (htolerated : ¬ Tolerated R (.assertionError stuckMessage)) {key value : Bytes}
    (hkey : key.length ≤ R.maxKey) (lsn : ℕ) :
    BPlusTree.insert key value lsn w ≠ .error (.assertionError stuckMessage) w' := by
  intro hrun
  by_cases hfits : (calculateLeafRecordSize key value : ℤ) ≤ getMaxLeafRecordSize R.pageSize
  · rcases (h.mono (Nat.le_add_right L lsn)).insert (looseMode_allows (C := C))
        (touchBound_le h) hfits hkey (Nat.le_add_left lsn L) with
      ⟨w₁, S, hengine, -⟩ | ⟨e, w₁, hengine, he⟩
    · rw [hengine] at hrun
      cases hrun
    · rw [hengine] at hrun
      cases hrun
      exact he.elim looseMode_not_stuck htolerated
  · rw [insert_tooLarge h.quiet key value lsn
      (by rw [h.pageSize]; exact lt_of_not_ge hfits)] at hrun
    cases hrun

theorem Holding.delete_ne_stuck (h : Holding R L M C T w)
    (htolerated : ¬ Tolerated R (.assertionError stuckMessage)) (key : Bytes) (lsn : ℕ) :
    BPlusTree.delete key lsn w ≠ .error (.assertionError stuckMessage) w' := by
  intro hrun
  rcases (h.mono (Nat.le_add_right L lsn)).delete (looseMode_allows (C := C))
      (touchBound_le h) key (Nat.le_add_left lsn L) with
    ⟨w₁, S, hengine, -⟩ | ⟨e, w₁, hengine, he⟩
  · rw [hengine] at hrun
    cases hrun
  · rw [hengine] at hrun
    cases hrun
    exact he.elim looseMode_not_stuck htolerated

/-- With short keys, rebalancing never gets stuck in any run. -/
theorem never_stuck_of_short (config : Config) (bounded : Bool) (calls : List TreeCall) (w : World)
    (hP : 256 ≤ config.pageSizeBytes) (h : Reached config bounded calls w)
    (hshort : ∀ c ∈ calls, c.Short config.pageSizeBytes) :
    (∀ key value lsn w', key.length ≤ shortKeyLength config.pageSizeBytes →
        BPlusTree.insert key value lsn w ≠ .error (.assertionError stuckMessage) w') ∧
      ∀ key lsn w', BPlusTree.delete key lsn w ≠ .error (.assertionError stuckMessage) w' := by
  obtain ⟨L, C, M, H, T, hholding⟩ := h.full hP hshort
  exact ⟨fun key value lsn w' hkey => Holding.insert_ne_stuck hholding
    (not_tolerated_full hP _) hkey
      lsn,
    fun key lsn w' => Holding.delete_ne_stuck hholding (not_tolerated_full hP _) key lsn⟩

/-- Inserts after which the deletion of one key gets stuck. -/
def stuckCalls : List TreeCall :=
  [(29, 28, 0), (48, 1, 27), (4, 14, 14), (94, 28, 0), (49, 28, 0), (250, 14, 0), (242, 28, 0),
    (104, 1, 27), (106, 28, 0), (142, 28, 0), (235, 14, 14), (250, 28, 0), (128, 28, 0),
    (248, 28, 0), (138, 14, 0), (191, 2, 26), (235, 28, 0), (189, 28, 0)].map insertOf

set_option maxRecDepth 100000 in
/-- Long keys get rebalancing stuck: these inserts are accepted, and the deletion raises. -/
theorem stuck_after_inserts :
    ¬ ∀ (config : Config) (calls : List TreeCall) (w : World), 256 ≤ config.pageSizeBytes →
      Reached config false calls w → ∀ key lsn w',
        BPlusTree.delete key lsn w ≠ .error (.assertionError stuckMessage) w' := by
  intro hnever
  have hrun : raisedBy (openAndRun stuckCalls (newTree smallConfig false)) = none := by
    decide +kernel
  have hstuck : raisedBy
      ((do openAndRun stuckCalls; BPlusTree.delete (235 :: List.replicate 27 0) 1)
        (newTree smallConfig false)) = some (.assertionError stuckMessage) := by
    decide +kernel
  obtain ⟨⟨⟩, w, hw⟩ := raisedBy_eq_none hrun
  obtain ⟨w', hw'⟩ := raisedBy_eq_some hstuck
  rw [run_bind_ok hw] at hw'
  exact hnever smallConfig stuckCalls w (by decide) (reached_of_run hw) _ _ w' hw'

theorem never_stuck_sampleCalls : ∃ w m, Reached tightConfig false sampleCalls w ∧
    w.pager.metaPage = some m ∧
      (∃ x p, InTree (treePage w) m.rootPageId x ∧ x ≠ m.rootPageId ∧
        treePage w x = some (.internal p)) ∧
      (∀ key value lsn w', key.length ≤ shortKeyLength 256 →
        BPlusTree.insert key value lsn w ≠ .error (.assertionError stuckMessage) w') ∧
      ∀ key lsn w', BPlusTree.delete key lsn w ≠ .error (.assertionError stuckMessage) w' := by
  obtain ⟨w, m, hreached, hm, hlevels⟩ := exists_sample_unbounded
  exact ⟨w, m, hreached, hm, hlevels.exists_internal,
    never_stuck_of_short tightConfig false _ w (by decide) hreached sampleCalls_short⟩

/-! ## The half-full rule for internal pages -/

/-- A page under the root, other than the root, is at least `0.4` full where the regime
says so. -/
theorem Holding.healthy (h : Holding R L M C T w) (hx : InTree (treePage w) C.root x)
    (hroot : x ≠ C.root) {page : Page} (hpage : treePage w x = some page) :
    PageGood R false page := by
  obtain ⟨q, hq, hview⟩ := Holding.page_of_inTree h hx
  obtain rfl : page = q := Option.some.inj (hpage.symm.trans hview)
  obtain ⟨root, hgood, hid⟩ := h.inv.pageGood h.good hq
  cases root with
  | true => exact absurd (hid rfl) hroot
  | false => exact hgood

/-- With short keys, every internal page below the root stays at least `0.4` full, and
every overpopulated internal page has a balanced split. -/
theorem internal_pages_half_full_of_short (config : Config) (bounded : Bool)
    (calls : List TreeCall) (w : World) (hP : 256 ≤ config.pageSizeBytes)
    (h : Reached config bounded calls w)
    (hshort : ∀ c ∈ calls, c.Short config.pageSizeBytes) :
    (∃ m, w.pager.metaPage = some m ∧
      ∀ x p, InTree (treePage w) m.rootPageId x → x ≠ m.rootPageId →
        treePage w x = some (.internal p) →
          2 * config.pageSizeBytes ≤ 5 * calculatePageSize (.internal p)) ∧
      ∀ p : InternalPage, (∀ s ∈ p.slots, s.key.length ≤ shortKeyLength config.pageSizeBytes) →
        config.pageSizeBytes < calculatePageSize (.internal p) →
          BPlusTree.splitHalvesAreBalanced config.pageSizeBytes (.internal p)
            (BPlusTree.chooseSplitPoint config.pageSizeBytes (.internal p)) = true := by
  obtain ⟨L, C, M, H, T, hholding⟩ := h.full hP hshort
  obtain ⟨m, hm, hmeta, -⟩ := hholding.quiet.freelist
  refine ⟨⟨m, hm, fun x p hx hroot hpage => ?_⟩, fun p hkeys hover => ?_⟩
  · rw [hmeta.root] at hx hroot
    have hgood : (fullRegime config.pageSizeBytes hP).NodeGood false (p.slots.map (·.key)) :=
      Holding.healthy hholding hx hroot hpage
    rw [calculatePageSize_internal]
    exact hgood.healthy rfl trivial
  · have hcap : ∀ x ∈ slotSizes (.internal p), x ≤ 20 + shortKeyLength config.pageSizeBytes := by
      intro x hx
      obtain ⟨s, hs, rfl⟩ := List.mem_map.mp hx
      have := hkeys s hs
      simp only [internalSlotSize, slotEntrySize, lengthFieldSize, pageIdFieldSize]
      omega
    refine chooseSplitPoint_balanced hcap ?_ hover (by omega) ?_
    · simp only [shortKeyLength]
      omega
    · simp only [maxUnder, medianCount, shortKeyLength, pageHeaderSize]
      omega

theorem internal_pages_half_full_sampleCalls : ∃ w m, Reached tightConfig false sampleCalls w ∧
    w.pager.metaPage = some m ∧
      (∃ x p, InTree (treePage w) m.rootPageId x ∧ x ≠ m.rootPageId ∧
        treePage w x = some (.internal p)) ∧
      (∀ x p, InTree (treePage w) m.rootPageId x → x ≠ m.rootPageId →
        treePage w x = some (.internal p) → 2 * 256 ≤ 5 * calculatePageSize (.internal p)) ∧
      ∀ p : InternalPage, (∀ s ∈ p.slots, s.key.length ≤ shortKeyLength 256) →
        256 < calculatePageSize (.internal p) →
          BPlusTree.splitHalvesAreBalanced 256 (.internal p)
            (BPlusTree.chooseSplitPoint 256 (.internal p)) = true := by
  obtain ⟨w, m, hreached, hm, hlevels⟩ := exists_sample_unbounded
  obtain ⟨⟨m', hm', hfull⟩, hsplit⟩ := internal_pages_half_full_of_short tightConfig false _ w
    (by decide) hreached sampleCalls_short
  obtain rfl : m' = m := Option.some.inj (hm'.symm.trans hm)
  exact ⟨w, m', hreached, hm, hlevels.exists_internal, hfull, hsplit⟩

/-- Inserts after which a split has left an underpopulated internal page. -/
def skewedCalls : List TreeCall :=
  [(2, 28, 0), (189, 9, 19), (79, 28, 0), (68, 9, 19), (187, 15, 0), (86, 15, 13), (39, 1, 27),
    (86, 28, 0), (175, 10, 18), (34, 15, 13), (159, 28, 0), (157, 28, 0), (27, 10, 18),
    (236, 10, 0), (238, 28, 0), (53, 10, 18), (208, 15, 13), (220, 15, 13)].map insertOf

/-- Some child of the root is an underpopulated internal page. -/
def hasThinChild (w : World) : Bool :=
  match w.pager.metaPage with
  | none => false
  | some m =>
      match treePage w m.rootPageId with
      | some (.internal root) =>
          (root.leftmostChildPageId :: root.slots.map (·.childPageId)).any fun x =>
            match treePage w x with
            | some (.internal p) => decide (x ≠ m.rootPageId ∧
                5 * calculatePageSize (.internal p) < 2 * w.pager.pageSizeBytes)
            | _ => false
      | _ => false

theorem exists_of_hasThinChild (h : hasThinChild w = true) :
    ∃ m x p, w.pager.metaPage = some m ∧ InTree (treePage w) m.rootPageId x ∧
      x ≠ m.rootPageId ∧ treePage w x = some (.internal p) ∧
      5 * calculatePageSize (.internal p) < 2 * w.pager.pageSizeBytes := by
  unfold hasThinChild at h
  cases hm : w.pager.metaPage with
  | none => simp [hm] at h
  | some m =>
      simp only [hm] at h
      split at h
      · rename_i root hroot
        obtain ⟨x, hx, hthin⟩ := List.any_eq_true.mp h
        split at hthin
        · rename_i p hp
          obtain ⟨hne, hsize⟩ := of_decide_eq_true hthin
          refine ⟨m, x, p, rfl, ?_, hne, hp, hsize⟩
          rcases List.mem_cons.mp hx with rfl | hx
          · exact .first .root hroot
          · obtain ⟨s, hs, rfl⟩ := List.mem_map.mp hx
            exact .child .root hroot hs
        · cases hthin
      · cases h

set_option maxRecDepth 100000 in
/-- Long keys leave an internal page underpopulated, after a run of accepted inserts. -/
theorem thin_internal_page_after_inserts :
    ¬ ∀ (config : Config) (bounded : Bool) (calls : List TreeCall) (w : World) (m : MetaPage),
      256 ≤ config.pageSizeBytes → Reached config bounded calls w → w.pager.metaPage = some m →
        ∀ x p, InTree (treePage w) m.rootPageId x → x ≠ m.rootPageId →
          treePage w x = some (.internal p) →
            2 * w.pager.pageSizeBytes ≤ 5 * calculatePageSize (.internal p) := by
  intro hfull
  obtain ⟨w, hreached, hthin⟩ :=
    exists_reached_with smallConfig false skewedCalls hasThinChild (by decide +kernel)
  obtain ⟨m, x, p, hm, hx, hne, hp, hsize⟩ := exists_of_hasThinChild hthin
  have := hfull smallConfig false skewedCalls w m (by decide) hreached hm x p hx hne hp
  omega

end BPTreeDB.Runs
