/-
# `GrpcEpub.Lib.Effect` — computations that may stop early, and what they put out

`Eff σ ε α` is the standard stack for code that updates a state and returns
through `?`: the state reached is kept when the computation stops early.

`Emits` is a Hoare triple with a history.  Its middle is the list of outputs
the computation is expected to make: a run that returns has made all of them,
a run that stops early has made a prefix.  A sequence of computations emits the
concatenation of what its parts emit, whichever of them stops, so a pipeline
with many early exits is verified stage by stage and never exit by exit.
-/
import Mathlib.Tactic

namespace GrpcEpub

theorem Except.bind_ok {α β ε : Type} {x : Except ε α} {f : α → Except ε β} {b : β}
    (h : (x >>= f) = .ok b) : ∃ a, x = .ok a ∧ f a = .ok b := by
  cases x with
  | ok a => exact ⟨a, rfl, h⟩
  | error e => cases h

theorem Except.bind_error {α β ε : Type} {x : Except ε α} {f : α → Except ε β} {e : ε}
    (h : (x >>= f) = .error e) : x = .error e ∨ ∃ a, x = .ok a ∧ f a = .error e := by
  cases x with
  | ok a => exact .inr ⟨a, rfl, h⟩
  | error e' => exact .inl (congrArg Except.error (Except.error.inj h))

/-- What follows a computation matters on its results only. -/
theorem Except.bind_congr_ok {α β ε : Type} {x : Except ε α} {f g : α → Except ε β}
    (h : ∀ a, x = .ok a → f a = g a) : (x >>= f) = (x >>= g) := by
  cases x with
  | ok a => exact h a rfl
  | error e => rfl

/-- State passing with early exit. -/
abbrev Eff (σ ε : Type) := ExceptT ε (StateM σ)

namespace Eff

variable {σ ε α β ω : Type}

/-- Run a computation: its result, and the state it stopped in. -/
def exec (x : Eff σ ε α) (s : σ) : Except ε α × σ := StateT.run (ExceptT.run x) s

@[simp] theorem exec_pure (a : α) (s : σ) : exec (pure a : Eff σ ε α) s = (.ok a, s) := rfl

@[simp] theorem exec_throw (e : ε) (s : σ) :
    exec (throw e : Eff σ ε α) s = (.error e, s) := rfl

@[simp] theorem exec_get (s : σ) : exec (get : Eff σ ε σ) s = (.ok s, s) := rfl

@[simp] theorem exec_set (s s' : σ) : exec (set s' : Eff σ ε PUnit) s = (.ok ⟨⟩, s') := rfl

@[simp] theorem exec_modify (f : σ → σ) (s : σ) :
    exec (modify f : Eff σ ε PUnit) s = (.ok ⟨⟩, f s) := rfl

theorem exec_bind (x : Eff σ ε α) (f : α → Eff σ ε β) (s : σ) :
    exec (x >>= f) s =
      match exec x s with
      | (.ok a, s') => exec (f a) s'
      | (.error e, s') => (.error e, s') := by
  unfold exec ExceptT.run StateT.run
  simp only [bind, ExceptT.bind, ExceptT.mk, StateT.bind, ExceptT.bindCont]
  cases x s with
  | mk r s' => cases r <;> rfl

theorem exec_map (f : α → β) (x : Eff σ ε α) (s : σ) :
    exec (f <$> x) s = ((exec x s).1.map f, (exec x s).2) := by
  rw [← bind_pure_comp, exec_bind]
  rcases exec x s with ⟨_ | _, _⟩ <;> rfl

theorem exec_bind_ok {x : Eff σ ε α} {s s' : σ} {a : α} (h : exec x s = (.ok a, s'))
    (f : α → Eff σ ε β) : exec (x >>= f) s = exec (f a) s' := by
  rw [exec_bind, h]

theorem exec_bind_error {x : Eff σ ε α} {s s' : σ} {e : ε} (h : exec x s = (.error e, s'))
    (f : α → Eff σ ε β) : exec (x >>= f) s = (.error e, s') := by
  rw [exec_bind, h]

/-- A pure result that may be an error. -/
def ofExcept (r : Except ε α) : Eff σ ε α :=
  match r with
  | .ok a => pure a
  | .error e => throw e

theorem exec_ofExcept (r : Except ε α) (s : σ) :
    exec (ofExcept r : Eff σ ε α) s = (r, s) := by
  cases r <;> rfl

/-- Returns from no state. -/
def Stops (x : Eff σ ε α) : Prop := ∀ s, ∃ e, (exec x s).1 = .error e

namespace Stops

variable {x : Eff σ ε α} {f : α → Eff σ ε β}

theorem ofExcept {r : Except ε α} {e : ε} (h : r = .error e) : Stops (ofExcept r : Eff σ ε α) :=
  fun s => ⟨e, by rw [exec_ofExcept, h]⟩

theorem ofExcept_bind {r : Except ε α} {a : α} (hr : r = .ok a) (hf : Stops (f a)) :
    Stops (Eff.ofExcept r >>= f) := by
  subst hr
  exact hf

theorem bind_left (hx : Stops x) : Stops (x >>= f) := by
  intro s
  obtain ⟨e, he⟩ := hx s
  exact ⟨e, by rw [exec_bind_error (Prod.ext he rfl)]⟩

theorem bind (hf : ∀ a, Stops (f a)) : Stops (x >>= f) := by
  intro s
  rcases hr : exec x s with ⟨e | a, s'⟩
  · exact ⟨e, by rw [exec_bind_error hr]⟩
  · rw [exec_bind_ok hr]
    exact hf a s'

end Stops

/-! ## Triples with a history -/

variable (out : σ → List ω)

/-- From any state satisfying `P`, `x` puts out a prefix of `ws`; if it returns,
all of `ws`, and `Q` holds of its result; if it stops early, `E` holds. -/
def Emits (P : σ → Prop) (x : Eff σ ε α) (ws : List ω) (Q : α → σ → Prop)
    (E : ε → σ → Prop) : Prop :=
  ∀ s, P s →
    match exec x s with
    | (.ok a, s') => out s' = out s ++ ws ∧ Q a s'
    | (.error e, s') => (∃ ws', ws' <+: ws ∧ out s' = out s ++ ws') ∧ E e s'

namespace Emits

variable {out} {P P' : σ → Prop} {x : Eff σ ε α} {ws ws' : List ω} {Q Q' : α → σ → Prop}
  {R : β → σ → Prop} {E E' : ε → σ → Prop}

/-- What a triple says of a run that returned. -/
theorem of_ok (h : Emits out P x ws Q E) {s s' : σ} {a : α} (hs : P s)
    (hx : exec x s = (.ok a, s')) : out s' = out s ++ ws ∧ Q a s' := by
  have := h s hs
  rwa [hx] at this

/-- What a triple says of a run that stopped early. -/
theorem of_error (h : Emits out P x ws Q E) {s s' : σ} {e : ε} (hs : P s)
    (hx : exec x s = (.error e, s')) :
    (∃ ws', ws' <+: ws ∧ out s' = out s ++ ws') ∧ E e s' := by
  have := h s hs
  rwa [hx] at this

theorem pure {a : α} (h : ∀ s, P s → Q a s) : Emits out P (Pure.pure a) [] Q E := by
  intro s hs
  simpa using h s hs

theorem throw {e : ε} (h : ∀ s, P s → E e s) : Emits out P (MonadExcept.throw e) ws Q E := by
  intro s hs
  rw [exec_throw]
  exact ⟨⟨[], List.nil_prefix, by simp⟩, h s hs⟩

/-- Sequencing: outputs concatenate, whichever half stops early. -/
theorem bind {f : α → Eff σ ε β} (hx : Emits out P x ws Q E)
    (hf : ∀ a, Emits out (Q a) (f a) ws' R E) : Emits out P (x >>= f) (ws ++ ws') R E := by
  intro s hs
  rcases hr : exec x s with ⟨r, s₁⟩
  cases r with
  | ok a =>
      rw [exec_bind_ok hr]
      obtain ⟨ho, hq⟩ := hx.of_ok hs hr
      have hfa := hf a s₁ hq
      rcases hr' : exec (f a) s₁ with ⟨r', s₂⟩
      rw [hr'] at hfa
      cases r' with
      | ok b => exact ⟨by rw [hfa.1, ho, List.append_assoc], hfa.2⟩
      | error e =>
          obtain ⟨⟨u, hu, hou⟩, he⟩ := hfa
          exact ⟨⟨ws ++ u, List.prefix_append_right_inj ws |>.mpr hu,
            by rw [hou, ho, List.append_assoc]⟩, he⟩
  | error e =>
      rw [exec_bind_error hr]
      obtain ⟨⟨u, hu, hou⟩, he⟩ := hx.of_error hs hr
      exact ⟨⟨u, hu.trans (List.prefix_append _ _), hou⟩, he⟩

/-- A silent first half. -/
theorem bind_silent {f : α → Eff σ ε β} (hx : Emits out P x [] Q E)
    (hf : ∀ a, Emits out (Q a) (f a) ws R E) : Emits out P (x >>= f) ws R E := by
  simpa using hx.bind hf

theorem weaken (h : Emits out P x ws Q E) (hP : ∀ s, P' s → P s)
    (hQ : ∀ a s, Q a s → Q' a s) (hE : ∀ e s, E e s → E' e s) :
    Emits out P' x ws Q' E' := by
  intro s hs
  have := h s (hP s hs)
  rcases hr : exec x s with ⟨r, s'⟩
  rw [hr] at this
  cases r with
  | ok a => exact ⟨this.1, hQ a s' this.2⟩
  | error e => exact ⟨this.1, hE e s' this.2⟩

theorem post (h : Emits out P x ws Q E) (hQ : ∀ a s, Q a s → Q' a s) :
    Emits out P x ws Q' E :=
  h.weaken (fun _ hp => hp) hQ (fun _ _ he => he)

/-- Outputs may be read off the result: for a pure first half that may fail,
only the value it returns matters. -/
theorem ofExcept_bind {r : Except ε α} {f : α → Eff σ ε β}
    (hok : ∀ a, r = .ok a → Emits out P (f a) ws R E)
    (herror : ∀ e s, r = .error e → P s → E e s) :
    Emits out P (ofExcept r >>= f) ws R E := by
  intro s hs
  cases r with
  | ok a => exact hok a rfl s hs
  | error e => exact ⟨⟨[], List.nil_prefix, (List.append_nil _).symm⟩, herror e s rfl hs⟩

/-- Reading the state: from then on the state is the one that was read. -/
theorem get_bind {f : σ → Eff σ ε β} (h : ∀ s₀, P s₀ → Emits out (· = s₀) (f s₀) ws R E) :
    Emits out P (get >>= f) ws R E :=
  fun s hs => h s hs s rfl

/-- A change of state that puts nothing out. -/
theorem modify {f : σ → σ} {R : PUnit → σ → Prop}
    (h : ∀ s, P s → out (f s) = out s ∧ R ⟨⟩ (f s)) :
    Emits out P (modify f : Eff σ ε PUnit) [] R E := by
  intro s hs
  simpa using h s hs

theorem set {s₁ : σ} {R : PUnit → σ → Prop} (h : ∀ s, P s → out s₁ = out s ∧ R ⟨⟩ s₁) :
    Emits out P (set s₁ : Eff σ ε PUnit) [] R E := by
  intro s hs
  simpa using h s hs

/-- A silent step taken on a condition, in front of the rest. -/
theorem when {c : Prop} [Decidable c] {y : Eff σ ε PUnit} (hy : Emits out P y [] (fun _ => P) E)
    (hx : Emits out P x ws Q E) :
    Emits out P (if c then y >>= fun _ => x else x) ws Q E := by
  split
  · exact hy.bind_silent fun _ => hx
  · exact hx

theorem ite {c : Prop} [Decidable c] {y : Eff σ ε α} (hx : Emits out P x ws Q E)
    (hy : Emits out P y ws' Q E) :
    Emits out P (if c then x else y) (if c then ws else ws') Q E := by
  split
  · exact hx
  · exact hy

/-- A precondition that pins a value down may be used before running. -/
theorem assuming {p : Prop} (h : p → Emits out P x ws Q E) :
    Emits out (fun s => p ∧ P s) x ws Q E :=
  fun s hs => h hs.1 s hs.2

end Emits

end Eff

end GrpcEpub
