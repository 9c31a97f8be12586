import BPTreeDB.Lib.Splice
import BPTreeDB.Runs.Durability
import BPTreeDB.Runs.Transparency

/-!
# Two versions of the pages, mixed

A tree may change in the records of its leaves alone, and keep its page ids, its separators
and its links.  If every page is then taken from the old or from the new version, the result
is again an ordered tree within its bounds: between two separators it has the records of one
of the two versions.  So a record that is in both versions is in the mixed one, and no record
is there that is in neither.
-/

namespace BPTreeDB.Runs

open Lib Codec PageStore Engine

variable {R : Regime} {L h H H' : ℕ} {t t' : Tree h} {T : Tree H} {T' : Tree H'}
  {S S' S'' : ℕ → Option Page} {C C' : Content} {M M' : KeyMap}

/-! ## Pages of the same shape -/

/-- The pages differ in the records of a leaf at most. -/
def SameShape : Page → Page → Prop
  | .leaf p, .leaf q => q.rightSiblingPageId = p.rightSiblingPageId
  | .internal p, .internal q =>
      q.leftmostChildPageId = p.leftmostChildPageId ∧ q.slots = p.slots
  | _, _ => False

instance decidableSameShape (p q : Page) : Decidable (SameShape p q) :=
  match p, q with
  | .leaf p, .leaf q => inferInstanceAs (Decidable (q.rightSiblingPageId = p.rightSiblingPageId))
  | .internal p, .internal q => inferInstanceAs
      (Decidable (q.leftmostChildPageId = p.leftmostChildPageId ∧ q.slots = p.slots))
  | .leaf _, .internal _ => .isFalse id
  | .internal _, .leaf _ => .isFalse id

theorem SameShape.refl (p : Page) : SameShape p p := by
  cases p with
  | leaf p => exact rfl
  | internal p => exact ⟨rfl, rfl⟩

end BPTreeDB.Runs
