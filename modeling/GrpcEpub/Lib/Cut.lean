/-
# `GrpcEpub.Lib.Cut` — computations whose outputs may be refused

A computation hands its outputs over one at a time, to a receiver that answers
each of them with yes or no, and the first no ends it.  `Cut` says what that
makes of the computation: everything it does against a receiver that never
refuses, cut off in front of the first output refused.  The rules follow the
program, so a driver of many passes is compared with itself pass by pass.
-/
import GrpcEpub.Lib.Effect

namespace GrpcEpub

namespace Eff

variable {σ ε α β ω : Type}

/-- The outputs numbered from `i` up to `j` are all taken. -/
def Accepted (accepts : Nat → Bool) (i j : Nat) : Prop := ∀ k, i ≤ k → k < j → accepts k = true

/-- Of the outputs numbered from `i` up to `j`, `k` is the first refused. -/
structure FirstRefused (accepts : Nat → Bool) (i j k : Nat) : Prop where
  ge : i ≤ k
  lt : k < j
  refused : accepts k = false
  before : Accepted accepts i k

theorem accepted_or_refused (accepts : Nat → Bool) (i j : Nat) :
    Accepted accepts i j ∨ ∃ k, FirstRefused accepts i j k := by
  by_cases h : ∃ k, i ≤ k ∧ k < j ∧ accepts k = false
  · obtain ⟨hge, hlt, hrefused⟩ := Nat.find_spec h
    refine .inr ⟨Nat.find h, hge, hlt, hrefused, fun k hk hlt' => ?_⟩
    refine Bool.not_eq_false _ ▸ fun hfalse => Nat.find_min h hlt' ⟨hk, hlt'.trans hlt, hfalse⟩
  · exact .inl fun k hk hlt => Bool.not_eq_false _ ▸ fun hfalse => h ⟨k, hk, hlt, hfalse⟩

variable (out : σ → List ω) (gone : ε)

/-- Puts nothing out, and never ends as if something had been refused. -/
def Silent (x : Eff σ ε α) : Prop :=
  ∀ s, out (exec x s).2 = out s ∧ (exec x s).1 ≠ .error gone

variable (accepts : Nat → Bool)

/-- From `s`, `x` is `y` cut off at the first output refused. -/
structure CutAt (x y : Eff σ ε α) (s : σ) : Prop where
  grows : out s <+: out (exec y s).2
  stays : (exec y s).1 ≠ .error gone
  whole : Accepted accepts (out s).length (out (exec y s).2).length → exec x s = exec y s
  cut : ∀ k, FirstRefused accepts (out s).length (out (exec y s).2).length k →
    (exec x s).1 = .error gone ∧ out (exec x s).2 = (out (exec y s).2).take k

def Cut (x y : Eff σ ε α) : Prop := ∀ s, CutAt out gone accepts x y s

variable {out gone accepts}

namespace Silent

variable {x y : Eff σ ε α} {f : α → Eff σ ε β}

theorem pure (a : α) : Silent out gone (Pure.pure a) := fun _ => ⟨rfl, nofun⟩

theorem throw {e : ε} (h : e ≠ gone) :
    Silent out gone (MonadExcept.throw e : Eff σ ε α) := fun _ =>
  ⟨rfl, fun heq => h (by injection heq)⟩

theorem ofExcept {r : Except ε α} (h : r ≠ .error gone) : Silent out gone (ofExcept r) := by
  intro s
  rw [exec_ofExcept]
  exact ⟨rfl, h⟩

theorem modify {f : σ → σ} (h : ∀ s, out (f s) = out s) :
    Silent out gone (modify f : Eff σ ε PUnit) := fun s => ⟨h s, nofun⟩

/-- Where the first part is cut, the second is not run at all. -/
theorem bind (hx : Silent out gone x) (hf : ∀ a, Silent out gone (f a)) :
    Silent out gone (x >>= f) := by
  intro s
  obtain ⟨hout, hstays⟩ := hx s
  rcases hr : exec x s with ⟨r, s'⟩
  rw [hr] at hout hstays
  cases r with
  | ok a =>
      rw [exec_bind_ok hr]
      exact ⟨(hf a s').1.trans hout, (hf a s').2⟩
  | error e =>
      rw [exec_bind_error hr]
      exact ⟨hout, fun heq => hstays (by injection heq with heq; rw [heq])⟩

/-- Nothing put out, nothing to refuse. -/
theorem cut (h : Silent out gone x) : Cut out gone accepts x x := by
  intro s
  obtain ⟨hout, hstays⟩ := h s
  refine ⟨by rw [hout], hstays, fun _ => rfl, fun k hk => ?_⟩
  have hlt := hk.lt
  rw [hout] at hlt
  exact absurd hk.ge (Nat.not_le.mpr hlt)

end Silent

namespace CutAt

variable {x y : Eff σ ε α} {f g : α → Eff σ ε β} {s : σ}

theorem bind (hx : CutAt out gone accepts x y s)
    (hf : ∀ a s', exec y s = (.ok a, s') → CutAt out gone accepts (f a) (g a) s') :
    CutAt out gone accepts (x >>= f) (y >>= g) s := by
  obtain ⟨hgrows, hstays, hwhole, hcut⟩ := hx
  rcases hy : exec y s with ⟨r, s'⟩
  rw [hy] at hgrows hstays hwhole hcut
  cases r with
  | error e =>
      have hbind : exec (y >>= g) s = (.error e, s') := exec_bind_error hy g
      refine ⟨by rwa [hbind], ?_, fun hall => ?_, fun k hk => ?_⟩
      · rw [hbind]
        exact fun heq => hstays (by injection heq with heq; rw [heq])
      · rw [hbind] at hall ⊢
        exact exec_bind_error (hwhole hall) f
      · rw [hbind] at hk ⊢
        obtain ⟨hgone, hout⟩ := hcut k hk
        rw [exec_bind_error (Prod.ext hgone rfl)]
        exact ⟨rfl, hout⟩
  | ok a =>
      have hbind : exec (y >>= g) s = exec (g a) s' := exec_bind_ok hy g
      obtain ⟨hgrows', hstays', hwhole', hcut'⟩ := hf a s' hy
      have hlength := hgrows.length_le
      have hlength' := hgrows'.length_le
      refine ⟨by rw [hbind]; exact hgrows.trans hgrows', by rwa [hbind], fun hall => ?_,
        fun k hk => ?_⟩
      · rw [hbind] at hall ⊢
        rw [exec_bind_ok (hwhole fun k hk hlt => hall k hk (hlt.trans_le hlength')) f]
        exact hwhole' fun k hk hlt => hall k (hlength.trans hk) hlt
      · rw [hbind] at hk ⊢
        -- the refusal falls in the first half or in the second
        rcases Nat.lt_or_ge k (out s').length with hlt | hge
        · obtain ⟨hgone, hout⟩ := hcut k ⟨hk.ge, hlt, hk.refused, hk.before⟩
          rw [exec_bind_error (Prod.ext hgone rfl)]
          refine ⟨rfl, hout.trans ?_⟩
          obtain ⟨rest, hrest⟩ := hgrows'
          rw [← hrest, List.take_append_of_le_length hlt.le]
        · rw [exec_bind_ok (hwhole fun i hi hlt => hk.before i hi (hlt.trans_le hge)) f]
          exact hcut' k ⟨hge, hk.lt, hk.refused,
            fun i hi hlt => hk.before i (hlength.trans hi) hlt⟩

/-- A computation that looks at its state first. -/
theorem get_bind {f g : σ → Eff σ ε β} (h : CutAt out gone accepts (f s) (g s) s) :
    CutAt out gone accepts (get >>= f) (get >>= g) s :=
  ⟨h.grows, h.stays, h.whole, h.cut⟩

theorem set {s₁ : σ} (h : out s₁ = out s) :
    CutAt out gone accepts (set s₁ : Eff σ ε PUnit) (set s₁) s := by
  refine ⟨by simp [h], by simp, fun _ => rfl, fun k hk => ?_⟩
  have hlt := hk.lt
  rw [exec_set, h] at hlt
  exact absurd hk.ge (Nat.not_le.mpr hlt)

end CutAt

namespace Cut

variable {x y : Eff σ ε α} {f g : α → Eff σ ε β}

theorem bind (hx : Cut out gone accepts x y) (hf : ∀ a, Cut out gone accepts (f a) (g a)) :
    Cut out gone accepts (x >>= f) (y >>= g) :=
  fun s => (hx s).bind fun a s' _ => hf a s'

theorem modify {f : σ → σ} (h : ∀ s, out (f s) = out s) :
    Cut out gone accepts (modify f : Eff σ ε PUnit) (modify f) :=
  (Silent.modify h).cut

theorem ite {c : Prop} [Decidable c] {x' y' : Eff σ ε α} (hx : Cut out gone accepts x y)
    (hy : Cut out gone accepts x' y') :
    Cut out gone accepts (if c then x else x') (if c then y else y') := by
  split
  · exact hx
  · exact hy

end Cut

end Eff

end GrpcEpub
