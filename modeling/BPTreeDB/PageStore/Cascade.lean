import BPTreeDB.PageStore.Rebalance

/-!
# The rebalancing cascade

Every round of `_balance_and_write_tree` settles the tree, or moves the place of the
loop invariant one level up, or raises one of two exceptions.  By induction on the
place, the loop ends within its fuel in a settled tree with the same records; in a
regime with healthy pages it always does.
-/

namespace BPTreeDB.PageStore

open Lib Codec BPlusTree BufferPool Lib.Program

variable {R : Regime} {L lsn : ℕ}

theorem isPageOverpopulated_iff {h : ℕ} {page : Page} {t : Tree h}
    (hp : stripLsn page = Tree.page h t) :
    isPageOverpopulated R.pageSize page = true ↔ R.pageSize < Tree.size h t := by
  rw [isPageOverpopulated, decide_eq_true_eq, calculatePageSize_of_stripLsn hp]

/-- A round on a page that is marked dirty at once. -/
theorem balanceLoop_settle {h H : ℕ} {c : Ctx h H} {t : Tree h} {n : ℕ} {S : Store}
    (hs : Standing R L c t n S) (hlsn : lsn ≤ L) (hgood : Tree.RootGood R c.isTop h t)
    (hcalm : R.Healthy (Tree.size h t) ∨ Tree.id h t = Tree.id H (c.plug t)) (fuel : ℕ)
    (path : List PathItem) :
    CascadeSpec R L (entriesOf (Tree.items H (c.plug t)))
      (balanceLoop lsn (fuel + 1) (Tree.id h t) path S) := by
  have hpage : (Tree.id h t, Tree.page h t) ∈ Tree.pages H (c.plug t) :=
    (c.pages_plug t).mem_iff.mpr (by simp [Tree.pages])
  obtain ⟨page, hderef, hp, -⟩ := hs.conf.deref hpage
  obtain ⟨S', hmark, hsettled⟩ := hs.settle hlsn hgood
  have hfits := (Tree.rootGood_iff.mp hgood).2.1
  have hover : ¬ isPageOverpopulated R.pageSize page = true := by
    rw [isPageOverpopulated_iff hp]
    omega
  have hunder : ¬ (isPageUnderpopulated R.pageSize page = true ∧
      Tree.id h t ≠ Tree.id H (c.plug t)) := by
    rw [isPageUnderpopulated_iff, calculatePageSize_of_stripLsn hp]
    tauto
  simp only [balanceLoop, run_bind, run_get, hderef, hs.conf.pageSize, hs.conf.root_eq, hover,
    Bool.false_eq_true, if_false, hunder, hmark, CascadeSpec]
  exact hsettled

/-- The cascade from any place. -/
theorem balanceLoop_spec (hP : 112 ≤ R.pageSize) (hlsn : lsn ≤ L) {h H : ℕ} (c : Ctx h H) :
    ∀ (t : Tree h) (S : Store) (fuel : ℕ), Standing R L c t (2 * c.path.length + 2) S →
      c.path.length + 2 ≤ fuel →
      CascadeSpec R L (entriesOf (Tree.items H (c.plug t)))
        (balanceLoop lsn fuel (Tree.id h t) c.path S) := by
  induction c with
  | top =>
      intro t S fuel hs hfuel
      -- At the root there is one split at most, and then a round that only marks.
      obtain ⟨fuel, rfl⟩ : ∃ k, fuel = k + 1 + 1 := ⟨fuel - 2, by simp [Ctx.path] at hfuel; omega⟩
      obtain ⟨page, hderef, hp, -⟩ := hs.conf.deref
        (show (Tree.id _ t, Tree.page _ t) ∈ _ from List.mem_cons_self ..)
      by_cases hover : R.pageSize < Tree.size _ t
      · obtain ⟨S', T, hrun, hs', hgood, hentries⟩ := hs.splitPage_top hP hlsn hover
        rw [Ctx.plug, ← hentries]
        rw [balanceLoop]
        simp only [run_bind, run_get, hderef, hs.conf.pageSize,
          (isPageOverpopulated_iff hp).mpr hover,
          if_true, Ctx.path, List.head?_nil, Option.map_none, hrun, List.tail_nil]
        exact balanceLoop_settle hs' hlsn hgood (.inr rfl) fuel []
      · refine balanceLoop_settle hs hlsn (Tree.rootGood_iff.mpr
          ⟨hs.capped, not_lt.mp hover, ?_, ?_⟩)
          (.inr rfl) _ _
        · simpa [Ctx.isTop] using hs.nonempty rfl
        · simp [Ctx.isTop]
  | frame id left right up ih =>
      intro t S fuel hs hfuel
      simp only [Ctx.path, List.length_cons] at hfuel
      obtain ⟨fuel, rfl⟩ : ∃ k, fuel = k + 1 := ⟨fuel - 1, by omega⟩
      have hpage := (Ctx.pages_plug (.frame id left right up) t).mem_iff.mpr
        (show (Tree.id _ t, Tree.page _ t) ∈ _ by simp [Tree.pages])
      obtain ⟨page, hderef, hp, -⟩ := hs.conf.deref hpage
      by_cases hover : R.pageSize < Tree.size _ t
      · obtain ⟨S', t', hrun, hid, hs', hentries⟩ :=
          Standing.splitPage_frame (n := 2 * up.path.length + 2 + 1) hP hs hlsn hover
        subst hid
        rw [balanceLoop, ← hentries]
        simp only [run_bind, run_get, hderef, hs.conf.pageSize,
          (isPageOverpopulated_iff hp).mpr hover,
          if_true, Ctx.path, List.head?_cons, Option.map_some, hrun, List.tail_cons]
        refine ih t' S' fuel ?_ (by omega)
        exact { hs' with conf := hs'.conf.le_budget _ (by omega) }
      · by_cases hunder : R.Healthy (Tree.size _ t)
        · exact balanceLoop_settle hs hlsn (rootGood_of_size hP hs.capped (not_lt.mp hover) hunder)
            (.inl hunder) _ _
        · have hstep := redistributeOrMergePage_spec (n := 2 * up.path.length + 2) hP hs hlsn hunder
          -- A page below a frame is not the root, so the source goes for a sibling.
          have hnotRoot : Tree.id _ t ≠ Tree.id _ ((Ctx.frame id left right up).plug t) := by
            intro hroot
            have := Ctx.isTop_of_root hs.conf.holds.nodup hroot
            simp [Ctx.isTop] at this
          have hnotOver : ¬ isPageOverpopulated R.pageSize page = true := by
            rw [isPageOverpopulated_iff hp]
            exact hover
          have hround : isPageUnderpopulated R.pageSize page = true ∧
              Tree.id _ t ≠ Tree.id _ ((Ctx.frame id left right up).plug t) := by
            rw [isPageUnderpopulated_iff, calculatePageSize_of_stripLsn hp]
            exact ⟨hunder, hnotRoot⟩
          rw [balanceLoop]
          simp only [run_bind, run_get, hderef, hs.conf.pageSize, hs.conf.root_eq, hnotOver,
            Bool.false_eq_true, if_false, if_pos hround, Ctx.path, List.head?_cons, List.tail_cons]
          generalize hresult : redistributeOrMergePage (Tree.id _ t)
            (some ⟨id, (left.length : ℤ) - 1⟩) lsn S = result at hstep
          cases result with
          | ok next S' =>
              cases next with
              | none => exact hstep
              | some parent =>
                  obtain ⟨rfl, t', hid, hs', hentries⟩ := hstep
                  rw [← hentries, ← hid]
                  exact ih t' S' fuel hs' (by omega)
          | error d S' =>
              cases d with
              | raised e => exact ⟨⟨_, hstep.1⟩, hstep.2⟩
              | undisciplined => exact hstep

end BPTreeDB.PageStore
