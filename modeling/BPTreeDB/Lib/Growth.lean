import BPTreeDB.Lib.Program

/-!
# Programs that let a measure grow

`GrowsBy μ k x`: whatever the outcome of `x`, the measure `μ` of the state grows by at most
`k`.  The bounds of the parts of a program add up.
-/

namespace BPTreeDB.Lib.Program

variable {ε σ α β : Type} {μ : σ → ℕ} {k l : ℕ}

/-- Whatever the outcome, `x` lets the measure grow by at most `k`. -/
def GrowsBy (μ : σ → ℕ) (k : ℕ) (x : EStateM ε σ α) : Prop :=
  ∀ s, μ (final (x s)) ≤ μ s + k

theorem GrowsBy.ok {x : EStateM ε σ α} (hx : GrowsBy μ k x) {s s' : σ} {a : α}
    (h : x s = .ok a s') : μ s' ≤ μ s + k := by
  simpa [h] using hx s

theorem GrowsBy.mono {x : EStateM ε σ α} (hx : GrowsBy μ k x) (hkl : k ≤ l) : GrowsBy μ l x :=
  fun s => (hx s).trans (Nat.add_le_add_left hkl _)

theorem growsBy_pure (a : α) : GrowsBy μ 0 (pure a : EStateM ε σ α) := fun _ => le_rfl

theorem growsBy_throw (e : ε) : GrowsBy μ 0 (throw e : EStateM ε σ α) := fun _ => le_rfl

theorem growsBy_get : GrowsBy μ 0 (get : EStateM ε σ σ) := fun _ => le_rfl

theorem growsBy_modify {f : σ → σ} (hf : ∀ s, μ (f s) ≤ μ s + k) :
    GrowsBy μ k (modify f : EStateM ε σ PUnit) := hf

/-- The bounds of two programs in a row add up. -/
theorem GrowsBy.bind {x : EStateM ε σ α} {f : α → EStateM ε σ β} (hx : GrowsBy μ k x)
    (hf : ∀ a, GrowsBy μ l (f a)) : GrowsBy μ (k + l) (x >>= f) := by
  intro s
  rw [run_bind]
  cases h : x s with
  | ok a s' =>
      have hfirst : μ s' ≤ μ s + k := hx.ok h
      calc μ (final (f a s')) ≤ μ s' + l := hf a s'
        _ ≤ μ s + k + l := Nat.add_le_add_right hfirst l
        _ = μ s + (k + l) := Nat.add_assoc ..
  | error e s' =>
      have hfirst := hx s
      rw [h] at hfirst
      exact hfirst.trans (by omega)

/-- A first part that does not let the measure grow. -/
theorem GrowsBy.step {x : EStateM ε σ α} {f : α → EStateM ε σ β} (hx : GrowsBy μ 0 x)
    (hf : ∀ a, GrowsBy μ k (f a)) : GrowsBy μ k (x >>= f) :=
  (hx.bind hf).mono (by omega)

/-- A last part that does not let the measure grow. -/
theorem GrowsBy.last {x : EStateM ε σ α} {f : α → EStateM ε σ β} (hx : GrowsBy μ k x)
    (hf : ∀ a, GrowsBy μ 0 (f a)) : GrowsBy μ k (x >>= f) :=
  hx.bind hf

end BPTreeDB.Lib.Program
