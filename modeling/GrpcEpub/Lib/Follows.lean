/-
# `GrpcEpub.Lib.Follows` — computations that stop exactly where a list of steps stops

A computation may use a resource through one operation only, and have no other
way to fail.  `Follows` lists the operations it performs, in order: the
computation returns exactly when all of them succeed, leaves the resource as
they leave it, and stops with the error of the first that fails.  So two
computations that follow one list succeed together, and a computation whose
list is known is decided by the resource alone.

The rules are those of a Hoare triple; lists concatenate under `bind`.
-/
import GrpcEpub.Lib.Effect

namespace GrpcEpub

namespace Eff

variable {σ ε α β ι ρ : Type} (view : σ → ρ) (step : ρ → ι → Except ε ρ)

/-- From any state satisfying `P`, `x` does what the steps do to the resource. -/
def Follows (P : σ → Prop) (x : Eff σ ε α) (steps : List ι) (Q : α → σ → Prop) : Prop :=
  ∀ s, P s →
    match exec x s with
    | (.ok a, s') => steps.foldlM step (view s) = .ok (view s') ∧ Q a s'
    | (.error e, _) => steps.foldlM step (view s) = .error e

namespace Follows

variable {view step} {P P' : σ → Prop} {x : Eff σ ε α} {steps steps' : List ι}
  {Q Q' : α → σ → Prop} {R : β → σ → Prop}

theorem of_ok (h : Follows view step P x steps Q) {s s' : σ} {a : α} (hs : P s)
    (hx : exec x s = (.ok a, s')) :
    steps.foldlM step (view s) = .ok (view s') ∧ Q a s' := by
  have := h s hs
  rwa [hx] at this

theorem of_error (h : Follows view step P x steps Q) {s s' : σ} {e : ε} (hs : P s)
    (hx : exec x s = (.error e, s')) : steps.foldlM step (view s) = .error e := by
  have := h s hs
  rwa [hx] at this

theorem pure {a : α} (h : ∀ s, P s → Q a s) : Follows view step P (Pure.pure a) [] Q :=
  fun s hs => ⟨rfl, h s hs⟩

/-- Sequencing: the second computation takes the resource where the first left it. -/
theorem bind {f : α → Eff σ ε β} (hx : Follows view step P x steps Q)
    (hf : ∀ a, Follows view step (Q a) (f a) steps' R) :
    Follows view step P (x >>= f) (steps ++ steps') R := by
  intro s hs
  rw [List.foldlM_append]
  rcases hr : exec x s with ⟨e | a, s₁⟩
  · rw [exec_bind_error hr, hx.of_error hs hr]
    rfl
  · rw [exec_bind_ok hr]
    obtain ⟨hsteps, hq⟩ := hx.of_ok hs hr
    rw [hsteps]
    exact hf a s₁ hq

/-- A first half that leaves the resource alone. -/
theorem bind_silent {f : α → Eff σ ε β} (hx : Follows view step P x [] Q)
    (hf : ∀ a, Follows view step (Q a) (f a) steps R) :
    Follows view step P (x >>= f) steps R := by
  simpa using hx.bind hf

theorem post (h : Follows view step P x steps Q) (hQ : ∀ a s, Q a s → Q' a s) :
    Follows view step P x steps Q' := by
  intro s hs
  rcases hr : exec x s with ⟨e | a, s'⟩
  · exact h.of_error hs hr
  · obtain ⟨hsteps, hq⟩ := h.of_ok hs hr
    exact ⟨hsteps, hQ a s' hq⟩

theorem pre (h : Follows view step P x steps Q) (hP : ∀ s, P' s → P s) :
    Follows view step P' x steps Q :=
  fun s hs => h s (hP s hs)

/-- A decision that is known to be made. -/
theorem ofExcept_bind {r : Except ε α} {a : α} {f : α → Eff σ ε β} (hr : r = .ok a)
    (h : Follows view step P (f a) steps R) :
    Follows view step P (ofExcept r >>= f) steps R := by
  subst hr
  exact h

theorem get_bind {f : σ → Eff σ ε β}
    (h : ∀ s₀, P s₀ → Follows view step (· = s₀) (f s₀) steps R) :
    Follows view step P (get >>= f) steps R :=
  fun s hs => h s hs s rfl

theorem modify {f : σ → σ} {R : PUnit → σ → Prop}
    (h : ∀ s, P s → view (f s) = view s ∧ R ⟨⟩ (f s)) :
    Follows view step P (modify f : Eff σ ε PUnit) [] R := by
  intro s hs
  obtain ⟨hview, hr⟩ := h s hs
  exact ⟨by rw [hview]; rfl, hr⟩

theorem set {s₁ : σ} {R : PUnit → σ → Prop} (h : ∀ s, P s → view s₁ = view s ∧ R ⟨⟩ s₁) :
    Follows view step P (set s₁ : Eff σ ε PUnit) [] R := by
  intro s hs
  obtain ⟨hview, hr⟩ := h s hs
  exact ⟨by rw [hview]; rfl, hr⟩

theorem ite {c : Prop} [Decidable c] {y : Eff σ ε α} (hx : Follows view step P x steps Q)
    (hy : Follows view step P y steps Q) : Follows view step P (if c then x else y) steps Q := by
  split
  · exact hx
  · exact hy

/-- A precondition that pins a value down may be used before running. -/
theorem assuming {p : Prop} (h : p → Follows view step P x steps Q) :
    Follows view step (fun s => p ∧ P s) x steps Q :=
  fun s hs => h hs.1 s hs.2

end Follows

end Eff

end GrpcEpub
