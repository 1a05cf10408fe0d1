/-
# `GrpcEpub.Lib.Shuffle` — one list in the order of another

Two lists with the same elements differ by a map on positions.  `Shuffles σ l l'`
says that the element of `l` at `k` stands in `l'` at `σ k`.  Beyond the end of the
lists `σ` is whatever it likes, as long as it moves no two positions to one.
-/
import Mathlib.Tactic

namespace GrpcEpub

/-- The element of `l` at `k` is the element of `l'` at `σ k`. -/
structure Shuffles {α : Type} (σ : Nat → Nat) (l l' : List α) : Prop where
  injective : Function.Injective σ
  moves : ∀ k, l'[σ k]? = l[k]?

namespace Shuffles

variable {α : Type} {σ τ : Nat → Nat} {l l' l'' : List α}

theorem refl (l : List α) : Shuffles id l l := ⟨Function.injective_id, fun _ => rfl⟩

theorem trans (h : Shuffles σ l l') (h' : Shuffles τ l' l'') : Shuffles (τ ∘ σ) l l'' where
  injective := h'.injective.comp h.injective
  moves := fun k => (h'.moves (σ k)).trans (h.moves k)

/-- The same element in front of both. -/
theorem cons (a : α) (h : Shuffles σ l l') :
    Shuffles (fun k => if k = 0 then 0 else σ (k - 1) + 1) (a :: l) (a :: l') where
  injective := by
    intro i j hij
    dsimp only at hij
    split at hij <;> split at hij
    · omega
    · omega
    · omega
    · have hpred := h.injective (Nat.succ_injective hij)
      omega
  moves := by
    intro k
    cases k with
    | zero => rfl
    | succ k => exact h.moves k

theorem swap (a b : α) (l : List α) :
    Shuffles (fun k => if k = 0 then 1 else if k = 1 then 0 else k) (a :: b :: l) (b :: a :: l) where
  injective := by
    intro i j hij
    dsimp only at hij
    split at hij <;> split at hij <;> (try split at hij) <;> (try split at hij) <;> omega
  moves := by
    intro k
    match k with
    | 0 => rfl
    | 1 => rfl
    | k + 2 => rfl

theorem exists_of_perm (h : l.Perm l') : ∃ σ, Shuffles σ l l' := by
  induction h with
  | nil => exact ⟨id, refl []⟩
  | cons a _ ih =>
      obtain ⟨σ, hσ⟩ := ih
      exact ⟨_, hσ.cons a⟩
  | swap a b l => exact ⟨_, swap b a l⟩
  | trans _ _ ih ih' =>
      obtain ⟨σ, hσ⟩ := ih
      obtain ⟨τ, hτ⟩ := ih'
      exact ⟨_, hσ.trans hτ⟩

variable (h : Shuffles σ l l')
include h

theorem lt_iff {k : Nat} : σ k < l'.length ↔ k < l.length := by
  have hmoves := h.moves k
  constructor
  · intro hlt
    rw [List.getElem?_eq_getElem hlt] at hmoves
    exact (List.getElem?_eq_some_iff.mp hmoves.symm).1
  · intro hlt
    rw [List.getElem?_eq_getElem hlt] at hmoves
    exact (List.getElem?_eq_some_iff.mp hmoves).1

end Shuffles

end GrpcEpub
