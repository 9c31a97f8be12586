import BPTreeDB.Runs.NoSteal

/-!
# The version counter

A handle counts the changes that its callers make: a `put` or a `delete` that returned, or
that failed in its last step, adds one.  Nothing else changes the counter, except `close`,
which starts it again from zero.
-/

namespace BPTreeDB.Runs

open Lib Eng Codec Lib.Program PageStore Engine DB

variable {w w' : World} {α : Type}

theorem NoSteal.versionCounter (h : NoSteal w w') : w'.versionCounter = w.versionCounter :=
  congrArg Frozen.versionCounter h.frozen

/-- The version counter has not changed. -/
def SameVersion (w w' : World) : Prop := w'.versionCounter = w.versionCounter

instance : Std.Refl SameVersion := ⟨fun _ => rfl⟩

instance : IsTrans World SameVersion := ⟨fun _ _ _ h h' => Eq.trans h' h⟩

theorem sameVersion_of_noSteal {x : Eng α} (h : Keeps NoSteal x) : Keeps SameVersion x :=
  fun w => NoSteal.versionCounter (h w)

/-- No operation of a handle changes the counter, but for the three that set it. -/
theorem sameVersion_steps : HandleSteps SameVersion where
  get pageId := sameVersion_of_noSteal (noSteal_get pageId)
  insert pageId page lsn := sameVersion_of_noSteal (noSteal_insert pageId page lsn)
  markDirty pageId lsn := sameVersion_of_noSteal (noSteal_markDirty pageId lsn)
  delete pageId := sameVersion_of_noSteal (noSteal_poolDelete pageId)
  assign ref page := sameVersion_of_noSteal (noSteal_assign ref page)
  allocatePage := sameVersion_of_noSteal noSteal_allocatePage
  freePage pageId := sameVersion_of_noSteal (noSteal_freePage pageId)
  moveRoot root := sameVersion_of_noSteal (noSteal_steps.moveRoot root)
  rest _ _ _ hversion _ _ := hversion
  clean _ _ := rfl

theorem sameVersion_open : Keeps SameVersion DB.open_ := by
  have hset : ∀ b, Keeps SameVersion (DB.setEviction b) := fun _ => keeps_modify fun _ => rfl
  refine sameVersion_steps.rest.pagerOpen.bind fun _ =>
    sameVersion_steps.rest.walOpen.bind fun _ => Keeps.bind ?_ fun _ => keeps_modify fun _ => rfl
  refine Keeps.tryCatch ?_ fun e => sameVersion_steps.closeFilesAndRaise e
  refine Keeps.bind ?_ fun _ => sameVersion_steps.checkpoint
  refine keeps_get.bind fun w => (hset _).bind fun _ => Keeps.bind ?_ fun _ => hset _
  exact Keeps.tryCatch sameVersion_steps.repairAndReplay fun e => (hset _).bind fun _ =>
    keeps_throw _

/-! ## Changes -/

/-- The version counter has not gone back. -/
def Advances (w w' : World) : Prop := w.versionCounter ≤ w'.versionCounter

instance : Std.Refl Advances := ⟨fun _ => le_rfl⟩

instance : IsTrans World Advances := ⟨fun _ _ _ => le_trans⟩

theorem SameVersion.advances (h : SameVersion w w') : Advances w w' := le_of_eq h.symm

theorem advances_of_same {x : Eng α} (h : Keeps SameVersion x) : Keeps Advances x :=
  fun w => SameVersion.advances (h w)

theorem advances_steps : HandleSteps Advances where
  get pageId := advances_of_same (sameVersion_steps.get pageId)
  insert pageId page lsn := advances_of_same (sameVersion_steps.insert pageId page lsn)
  markDirty pageId lsn := advances_of_same (sameVersion_steps.markDirty pageId lsn)
  delete pageId := advances_of_same (sameVersion_steps.delete pageId)
  assign ref page := advances_of_same (sameVersion_steps.assign ref page)
  allocatePage := advances_of_same sameVersion_steps.allocatePage
  freePage pageId := advances_of_same (sameVersion_steps.freePage pageId)
  moveRoot root := advances_of_same (sameVersion_steps.moveRoot root)
  rest _ _ _ hversion _ _ := le_of_eq hversion.symm
  clean _ _ := le_rfl

theorem advances_count : HandleSteps.Counts Advances := fun w => Nat.le_succ w.versionCounter

theorem logAndInsert_version {key value : Bytes} (h : DB.logAndInsert key value w = .ok () w') :
    w'.versionCounter = w.versionCounter + 1 := by
  obtain ⟨lsn, w₁, happend, h⟩ := bind_eq_ok.mp h
  obtain ⟨_, w₂, hinsert, h⟩ := bind_eq_ok.mp h
  have h₁ : SameVersion w w₁ := (keeps_get.bind fun w => sameVersion_steps.rest.append _).ok happend
  have h₂ : SameVersion w₁ w₂ := (sameVersion_steps.treeInsert key value lsn).ok hinsert
  cases h
  exact congrArg (· + 1) (h₂.trans h₁)

theorem logAndDelete_version {key : Bytes} (h : DB.logAndDelete key w = .ok () w') :
    w'.versionCounter = w.versionCounter + 1 := by
  obtain ⟨lsn, w₁, happend, h⟩ := bind_eq_ok.mp h
  obtain ⟨deleted, w₂, hdelete, h⟩ := bind_eq_ok.mp h
  obtain ⟨_, w₃, hassert, h⟩ := bind_eq_ok.mp h
  have h₁ : SameVersion w w₁ := (keeps_get.bind fun w => sameVersion_steps.rest.append _).ok happend
  have h₂ : SameVersion w₁ w₂ := (sameVersion_steps.treeDelete key lsn).ok hdelete
  have h₃ : SameVersion w₂ w₃ := (keeps_assert _ _).ok hassert
  cases h
  exact congrArg (· + 1) (h₃.trans (h₂.trans h₁))

/-- A `put` that returned has advanced the counter. -/
theorem put_version {key value : PyArg} (h : DB.put key value w = .ok () w') :
    w.versionCounter < w'.versionCounter := by
  obtain ⟨_, w₁, hopened, h⟩ := bind_eq_ok.mp h
  obtain ⟨key, w₂, hkey, h⟩ := bind_eq_ok.mp h
  obtain ⟨value, w₃, hvalue, h⟩ := bind_eq_ok.mp h
  obtain ⟨_, w₄, hsize, h⟩ := bind_eq_ok.mp h
  obtain ⟨_, w₅, hfirst, h⟩ := bind_eq_ok.mp h
  obtain ⟨_, w₆, hinsert, hsecond⟩ := bind_eq_ok.mp h
  have h₁ : SameVersion w w₁ := keeps_checkIfOpened.ok hopened
  have h₂ : SameVersion w₁ w₂ := (keeps_ensureBytesType _ _).ok hkey
  have h₃ : SameVersion w₂ w₃ := (keeps_ensureBytesType _ _).ok hvalue
  have h₄ : SameVersion w₃ w₄ :=
    (keeps_raiseIfRecordTooLarge key value).ok hsize
  have h₅ : SameVersion w₄ w₅ := sameVersion_steps.maybeCheckpoint.ok hfirst
  have h₆ := logAndInsert_version hinsert
  have h₇ : SameVersion w₆ w' := sameVersion_steps.maybeCheckpoint.ok hsecond
  unfold SameVersion at *
  omega

/-- A `delete` that returned `True` has advanced the counter. -/
theorem delete_version {key : PyArg} (h : DB.delete key w = .ok true w') :
    w.versionCounter < w'.versionCounter := by
  obtain ⟨_, w₁, hopened, h⟩ := bind_eq_ok.mp h
  obtain ⟨key, w₂, hkey, h⟩ := bind_eq_ok.mp h
  obtain ⟨found, w₃, hsearch, h⟩ := bind_eq_ok.mp h
  have h₁ : SameVersion w w₁ := keeps_checkIfOpened.ok hopened
  have h₂ : SameVersion w₁ w₂ := (keeps_ensureBytesType _ _).ok hkey
  have h₃ : SameVersion w₂ w₃ := (sameVersion_steps.search key).ok hsearch
  by_cases hfound : found.isNone
  · rw [if_pos hfound] at h
    cases h
  · rw [if_neg hfound] at h
    obtain ⟨_, w₄, hfirst, h⟩ := bind_eq_ok.mp h
    obtain ⟨_, w₅, hdelete, h⟩ := bind_eq_ok.mp h
    obtain ⟨_, w₆, hsecond, h⟩ := bind_eq_ok.mp h
    have h₄ : SameVersion w₃ w₄ := sameVersion_steps.maybeCheckpoint.ok hfirst
    have h₅ := logAndDelete_version hdelete
    have h₆ : SameVersion w₅ w₆ := sameVersion_steps.maybeCheckpoint.ok hsecond
    cases h
    unfold SameVersion at *
    omega

end BPTreeDB.Runs
