import Mathlib

/-!
# Stateful programs that may raise

Rules for programs of `EStateM`, whose exceptions keep the state reached.

* Symbolic execution: the `run_` lemmas evaluate a program applied to a state,
  and `bind_eq_ok` takes a successful run apart.
* `Keeps R x`: whatever the outcome, `x` ends in a state related to its initial
  state by `R`.
* `Upholds P E x`: `x` keeps `P` where it returns, and raises only exceptions in `E`.
* `Refines`: two programs over different states run in lockstep.  The second one
  may also give up, which promises nothing, and the first one may leave through an
  exception of its own.
-/

namespace BPTreeDB.Lib.Program

variable {ε δ σ τ α β γ γ' : Type}

/-! ## Symbolic execution -/

@[simp] theorem run_pure (a : α) (s : σ) : (pure a : EStateM ε σ α) s = .ok a s := rfl

@[simp] theorem run_throw (e : ε) (s : σ) : (throw e : EStateM ε σ α) s = .error e s := rfl

@[simp] theorem run_get (s : σ) : (get : EStateM ε σ σ) s = .ok s s := rfl

@[simp] theorem run_set (s s' : σ) : (set s' : EStateM ε σ PUnit) s = .ok ⟨⟩ s' := rfl

@[simp] theorem run_modify (f : σ → σ) (s : σ) :
    (modify f : EStateM ε σ PUnit) s = .ok ⟨⟩ (f s) := rfl

theorem run_bind (x : EStateM ε σ α) (f : α → EStateM ε σ β) (s : σ) :
    (x >>= f) s = match x s with
      | .ok a s' => f a s'
      | .error e s' => .error e s' := rfl

@[simp] theorem run_map (f : α → β) (x : EStateM ε σ α) (s : σ) :
    (f <$> x) s = match x s with
      | .ok a s' => .ok (f a) s'
      | .error e s' => .error e s' := rfl

theorem run_bind_ok {x : EStateM ε σ α} {f : α → EStateM ε σ β} {s s' : σ} {a : α}
    (hx : x s = .ok a s') : (x >>= f) s = f a s' := by
  rw [run_bind, hx]

theorem run_bind_error {x : EStateM ε σ α} {f : α → EStateM ε σ β} {s s' : σ} {e : ε}
    (hx : x s = .error e s') : (x >>= f) s = .error e s' := by
  rw [run_bind, hx]

theorem run_tryCatch_ok {x : EStateM ε σ α} {handler : ε → EStateM ε σ α} {s s' : σ} {a : α}
    (hx : x s = .ok a s') : (tryCatch x handler) s = .ok a s' := by
  show EStateM.tryCatch x handler s = _
  unfold EStateM.tryCatch
  rw [hx]

theorem run_tryCatch_error {x : EStateM ε σ α} {handler : ε → EStateM ε σ α} {s s' : σ} {e : ε}
    (hx : x s = .error e s') : (tryCatch x handler) s = handler e s' := by
  show EStateM.tryCatch x handler s = _
  unfold EStateM.tryCatch
  rw [hx]
  rfl

theorem bind_eq_ok {x : EStateM ε σ α} {f : α → EStateM ε σ β} {s s'' : σ} {b : β} :
    (x >>= f) s = .ok b s'' ↔ ∃ a s', x s = .ok a s' ∧ f a s' = .ok b s'' := by
  rw [run_bind]
  constructor
  · intro h
    cases hx : x s with
    | ok a s' => rw [hx] at h; exact ⟨a, s', rfl, h⟩
    | error e s' => rw [hx] at h; cases h
  · rintro ⟨a, s', hx, hf⟩
    rw [hx]
    exact hf

theorem bind_eq_error {x : EStateM ε σ α} {f : α → EStateM ε σ β} {s s'' : σ} {e : ε} :
    (x >>= f) s = .error e s'' ↔
      x s = .error e s'' ∨ ∃ a s', x s = .ok a s' ∧ f a s' = .error e s'' := by
  rw [run_bind]
  constructor
  · intro h
    cases hx : x s with
    | ok a s' => rw [hx] at h; exact .inr ⟨a, s', rfl, h⟩
    | error e' s' =>
        simp only [hx] at h
        cases h
        exact .inl rfl
  · rintro (hx | ⟨a, s', hx, hf⟩)
    · rw [hx]
    · rw [hx]; exact hf

/-! ## State relations kept by every outcome -/

/-- The state in which a run ends, with a value or with an exception. -/
def final : EStateM.Result ε σ α → σ
  | .ok _ s => s
  | .error _ s => s

@[simp] theorem final_ok (a : α) (s : σ) : final (.ok a s : EStateM.Result ε σ α) = s := rfl

@[simp] theorem final_error (e : ε) (s : σ) :
    final (.error e s : EStateM.Result ε σ α) = s := rfl

/-- Whatever the outcome, `x` takes a state to a related one. -/
def Keeps (R : σ → σ → Prop) (x : EStateM ε σ α) : Prop :=
  ∀ s, R s (final (x s))

section Keeps

variable {R : σ → σ → Prop}

theorem Keeps.ok {x : EStateM ε σ α} (hx : Keeps R x) {s s' : σ} {a : α}
    (h : x s = .ok a s') : R s s' := by
  simpa [h] using hx s

theorem Keeps.error {x : EStateM ε σ α} (hx : Keeps R x) {s s' : σ} {e : ε}
    (h : x s = .error e s') : R s s' := by
  simpa [h] using hx s

theorem keeps_pure [Std.Refl R] (a : α) : Keeps R (pure a : EStateM ε σ α) :=
  fun s => Std.Refl.refl s

theorem keeps_throw [Std.Refl R] (e : ε) : Keeps R (throw e : EStateM ε σ α) :=
  fun s => Std.Refl.refl s

theorem keeps_get [Std.Refl R] : Keeps R (get : EStateM ε σ σ) :=
  fun s => Std.Refl.refl s

theorem keeps_modify {f : σ → σ} (hf : ∀ s, R s (f s)) :
    Keeps R (modify f : EStateM ε σ PUnit) := hf

theorem Keeps.bind [IsTrans σ R] {x : EStateM ε σ α} {f : α → EStateM ε σ β} (hx : Keeps R x)
    (hf : ∀ a, Keeps R (f a)) : Keeps R (x >>= f) := by
  intro s
  rw [run_bind]
  cases h : x s with
  | ok a s' => exact IsTrans.trans _ _ _ (hx.ok h) (hf a s')
  | error e s' => exact hx.error h

theorem Keeps.tryCatch [IsTrans σ R] {x : EStateM ε σ α} {handler : ε → EStateM ε σ α}
    (hx : Keeps R x)
    (hh : ∀ e, Keeps R (handler e)) : Keeps R (tryCatch x handler) := by
  intro s
  show R s (final (EStateM.tryCatch x handler s))
  unfold EStateM.tryCatch
  cases h : x s with
  | ok a s' => exact hx.ok h
  | error e s' => exact IsTrans.trans _ _ _ (hx.error h) (hh e s')

end Keeps

/-! ## Invariants of programs that return -/

/-- `x` keeps the invariant `P` where it returns, and raises only exceptions in `E`. -/
def Upholds (P : σ → Prop) (E : ε → Prop) (x : EStateM ε σ α) : Prop :=
  ∀ s, P s → (∀ a s', x s = .ok a s' → P s') ∧ ∀ e s', x s = .error e s' → E e

section Upholds

variable {P : σ → Prop} {E : ε → Prop}

theorem upholds_pure (a : α) : Upholds P E (pure a : EStateM ε σ α) := by
  intro s hs
  constructor
  · intro a' s' h
    cases h
    exact hs
  · intro e s' h
    cases h

theorem upholds_get : Upholds P E (get : EStateM ε σ σ) := by
  intro s hs
  constructor
  · intro a' s' h
    cases h
    exact hs
  · intro e s' h
    cases h

theorem upholds_throw {e : ε} (he : E e) : Upholds P E (throw e : EStateM ε σ α) := by
  intro s _
  constructor
  · intro a s' h
    cases h
  · intro e' s' h
    cases h
    exact he

theorem Upholds.bind {x : EStateM ε σ α} {f : α → EStateM ε σ β} (hx : Upholds P E x)
    (hf : ∀ a, Upholds P E (f a)) : Upholds P E (x >>= f) := by
  intro s hs
  constructor
  · intro b s'' h
    obtain ⟨a, s', hxs, hfs⟩ := bind_eq_ok.mp h
    exact (hf a s' ((hx s hs).1 a s' hxs)).1 b s'' hfs
  · intro e s'' h
    rcases bind_eq_error.mp h with hxs | ⟨a, s', hxs, hfs⟩
    · exact (hx s hs).2 e s'' hxs
    · exact (hf a s' ((hx s hs).1 a s' hxs)).2 e s'' hfs

end Upholds

/-! ## Lockstep refinement -/

/-- The outcomes of two programs that run in lockstep: both return, with related
values and states, or both raise, with related exceptions and states.  Where the
second program gives up with a fault in `undefined`, nothing is promised; the first
one may also raise an exception in `escape`. -/
def Refines (undefined : δ → Prop) (escape : ε → Prop) (E : ε → δ → σ → τ → Prop)
    (Q : α → β → σ → τ → Prop) : EStateM.Result ε σ α → EStateM.Result δ τ β → Prop
  | .ok a s, .ok b t => Q a b s t
  | .ok _ _, .error d _ => undefined d
  | .error e _, .ok _ _ => escape e
  | .error e s, .error d t => undefined d ∨ escape e ∨ E e d s t

section Refines

variable {undefined : δ → Prop} {escape : ε → Prop} {E : ε → δ → σ → τ → Prop}

theorem Refines.of_undefined {Q : α → β → σ → τ → Prop} {r : EStateM.Result ε σ α} {d : δ} {t : τ}
    (hd : undefined d) : Refines undefined escape E Q r (.error d t) := by
  cases r with
  | ok a s => exact hd
  | error e s => exact .inl hd

theorem Refines.of_escape {Q : α → β → σ → τ → Prop} {r : EStateM.Result δ τ β} {e : ε} {s : σ}
    (he : escape e) : Refines undefined escape E Q (.error e s) r := by
  cases r with
  | ok b t => exact he
  | error d t => exact .inr (.inl he)

theorem Refines.mono {Q Q' : α → β → σ → τ → Prop} {r : EStateM.Result ε σ α}
    {r' : EStateM.Result δ τ β} (h : Refines undefined escape E Q r r')
    (hQ : ∀ a b s t, Q a b s t → Q' a b s t) : Refines undefined escape E Q' r r' := by
  cases r with
  | ok a s =>
      cases r' with
      | ok b t => exact hQ _ _ _ _ h
      | error d t => exact h
  | error e s =>
      cases r' with
      | ok b t => exact h
      | error d t => exact h

/-- Sequential composition. -/
theorem Refines.bind {Q : α → β → σ → τ → Prop} {Q' : γ → γ' → σ → τ → Prop}
    {x : EStateM ε σ α} {y : EStateM δ τ β} {f : α → EStateM ε σ γ} {g : β → EStateM δ τ γ'}
    {s : σ} {t : τ} (hxy : Refines undefined escape E Q (x s) (y t))
    (hfg : ∀ a b s' t', Q a b s' t' → Refines undefined escape E Q' (f a s') (g b t')) :
    Refines undefined escape E Q' ((x >>= f) s) ((y >>= g) t) := by
  rw [run_bind, run_bind]
  cases hx : x s with
  | ok a s' =>
      cases hy : y t with
      | ok b t' =>
          rw [hx, hy] at hxy
          exact hfg a b s' t' hxy
      | error d t' =>
          rw [hx, hy] at hxy
          exact .of_undefined hxy
  | error e s' =>
      cases hy : y t with
      | ok b t' =>
          rw [hx, hy] at hxy
          exact .of_escape hxy
      | error d t' =>
          rw [hx, hy] at hxy
          exact hxy

end Refines

end BPTreeDB.Lib.Program
