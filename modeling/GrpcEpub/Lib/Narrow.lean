/-
# `GrpcEpub.Lib.Narrow` — the same computation with less room

Two runs of one program that differ in a bound only.  The one with less room
may run out earlier, with an error that says so; up to there it does what the
other does.  `Narrower` is that statement, over a relation that says what the
two states have to do with each other.  As with a triple, the rules follow the
program: whichever part runs out, the outputs so far are a prefix, because what
the other still does only adds to them.
-/
import GrpcEpub.Lib.Effect

namespace GrpcEpub

namespace Eff

variable {σ ε α β ω : Type}

/-- Takes nothing back that was put out. -/
def Grows (out : σ → List ω) (x : Eff σ ε α) : Prop := ∀ s, out s <+: out (exec x s).2

/-- What each part only adds to, their sequence only adds to. -/
theorem Grows.bind {out : σ → List ω} {x : Eff σ ε α} {f : α → Eff σ ε β} (hx : Grows out x)
    (hf : ∀ a, Grows out (f a)) : Grows out (x >>= f) := by
  intro s
  have hgrows := hx s
  rcases hxs : exec x s with ⟨r, s'⟩
  rw [hxs] at hgrows
  cases r with
  | ok a =>
      rw [exec_bind_ok hxs]
      exact hgrows.trans (hf a s')
  | error e =>
      rw [exec_bind_error hxs]
      exact hgrows

/-- A change of state that puts nothing out, in front of the rest. -/
theorem Grows.after_set {out : σ → List ω} {x : Eff σ ε α} (hx : Grows out x) {s s₁ : σ}
    (h : out s₁ = out s) : out s <+: out (exec (set s₁ >>= fun _ => x) s).2 := by
  rw [exec_bind_ok (exec_set s s₁), ← h]
  exact hx s₁

section Narrow

variable (rel : σ → σ → Prop) (out : σ → List ω) (short : ε → Prop)

/-- What becomes of `x` from `s`, against what becomes of `y` from `t`. -/
def NarrowerAt (x y : Eff σ ε α) (s t : σ) : Prop :=
  (exec x s).1 = (exec y t).1 ∧ rel (exec x s).2 (exec y t).2 ∨
    ∃ e, (exec x s).1 = .error e ∧ short e ∧ out (exec x s).2 <+: out (exec y t).2

/-- From related states, `x` does what `y` does or runs out on the way. -/
structure Narrower (x y : Eff σ ε α) : Prop where
  grows : Grows out y
  runs : ∀ s t, rel s t → NarrowerAt rel out short x y s t

end Narrow

variable {rel : σ → σ → Prop} {out : σ → List ω} {short : ε → Prop}

namespace NarrowerAt

variable {x y : Eff σ ε α} {f g : α → Eff σ ε β} {s t : σ}

theorem same (h : (exec x s).1 = (exec y t).1) (hrel : rel (exec x s).2 (exec y t).2) :
    NarrowerAt rel out short x y s t := .inl ⟨h, hrel⟩

theorem runsOut {e : ε} (h : (exec x s).1 = .error e) (hshort : short e)
    (hout : out (exec x s).2 <+: out (exec y t).2) : NarrowerAt rel out short x y s t :=
  .inr ⟨e, h, hshort, hout⟩

/-- Where the first part runs out, what the other goes on to put out is behind the prefix. -/
theorem bind (hx : NarrowerAt rel out short x y s t)
    (hf : ∀ a, Narrower rel out short (f a) (g a)) :
    NarrowerAt rel out short (x >>= f) (y >>= g) s t := by
  rcases hxs : exec x s with ⟨rx, s'⟩
  rcases hyt : exec y t with ⟨ry, t'⟩
  rcases hx with ⟨hsame, hrel⟩ | ⟨e, herror, hshort, hout⟩
  · rw [hxs, hyt] at hsame hrel
    obtain rfl : rx = ry := hsame
    cases rx with
    | ok a =>
        unfold NarrowerAt
        rw [exec_bind_ok hxs, exec_bind_ok hyt]
        exact (hf a).runs s' t' hrel
    | error e =>
        refine same ?_ ?_
        · rw [exec_bind_error hxs, exec_bind_error hyt]
        · rw [exec_bind_error hxs, exec_bind_error hyt]
          exact hrel
  · rw [hxs] at herror hout
    rw [hyt] at hout
    obtain rfl : rx = .error e := herror
    have hbind : exec (x >>= f) s = (.error e, s') := exec_bind_error hxs f
    refine runsOut (congrArg Prod.fst hbind) hshort ?_
    rw [hbind]
    cases ry with
    | ok a =>
        rw [exec_bind_ok hyt]
        exact hout.trans ((hf a).grows t')
    | error e' =>
        rw [exec_bind_error hyt]
        exact hout

end NarrowerAt

namespace Narrower

variable {x y x' y' : Eff σ ε α} {f g : α → Eff σ ε β}

theorem pure (a : α) : Narrower rel out short (Pure.pure a) (Pure.pure a) where
  grows := fun _ => List.prefix_rfl
  runs := fun _ _ hrel => .same rfl hrel

theorem throw (e : ε) :
    Narrower rel out short (MonadExcept.throw e : Eff σ ε α) (MonadExcept.throw e) where
  grows := fun _ => List.prefix_rfl
  runs := fun _ _ hrel => .same rfl hrel

theorem ofExcept (r : Except ε α) :
    Narrower rel out short (ofExcept r : Eff σ ε α) (ofExcept r) where
  grows := fun t => by rw [exec_ofExcept]
  runs := fun s t hrel => .same (by rw [exec_ofExcept, exec_ofExcept]) (by
    rw [exec_ofExcept, exec_ofExcept]
    exact hrel)

theorem modify {f g : σ → σ} (hgrows : ∀ t, out t <+: out (g t))
    (hrel : ∀ s t, rel s t → rel (f s) (g t)) :
    Narrower rel out short (modify f : Eff σ ε PUnit) (modify g) where
  grows := hgrows
  runs := fun s t hst => .same rfl (hrel s t hst)

theorem bind (hx : Narrower rel out short x y) (hf : ∀ a, Narrower rel out short (f a) (g a)) :
    Narrower rel out short (x >>= f) (y >>= g) where
  grows := hx.grows.bind fun a => (hf a).grows
  runs := fun s t hst => (hx.runs s t hst).bind hf

theorem ite {c : Prop} [Decidable c] (hx : Narrower rel out short x y)
    (hy : Narrower rel out short x' y') :
    Narrower rel out short (if c then x else x') (if c then y else y') := by
  split
  · exact hx
  · exact hy

/-- A computation that looks at its state first. -/
theorem get_bind {f g : σ → Eff σ ε β} (hgrows : ∀ t, out t <+: out (exec (g t) t).2)
    (h : ∀ s t, rel s t → NarrowerAt rel out short (f s) (g t) s t) :
    Narrower rel out short (get >>= f) (get >>= g) where
  grows := hgrows
  runs := h

end Narrower

end Eff

end GrpcEpub
