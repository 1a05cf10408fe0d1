/-
# `GrpcEpub.Lib.Grain` — readers that do not see how their input is cut

A reader takes a list in, item by item.  An item may be cut into parts, or stand
in for a similar one, and a coarse reader goes on the same way from there.  To
such a reader two lists are one list if they are alike once every item is cut
up, wherever either of them was cut before.
-/
import Mathlib.Tactic

namespace GrpcEpub

variable {σ α ρ ε : Type}

/-- What a reader, from any of its states, does not tell apart. -/
structure Coarse (parts : α → List α) (similar : α → α → Prop) (read : σ → List α → ρ) :
    Prop where
  /-- An item and its parts. -/
  cut : ∀ s a rest, read s (parts a ++ rest) = read s (a :: rest)
  /-- An item and a similar one. -/
  similar : ∀ s a b xs ys, similar a b → (∀ s, read s xs = read s ys) →
    read s (a :: xs) = read s (b :: ys)

/-- Alike, once every item is cut up. -/
def AlikeBy (parts : α → List α) (similar : α → α → Prop) (xs ys : List α) : Prop :=
  List.Forall₂ similar (xs.flatMap parts) (ys.flatMap parts)

variable {parts : α → List α} {similar : α → α → Prop}

namespace Coarse

variable {read : σ → List α → ρ}

theorem read_parts (h : Coarse parts similar read) (hrefl : ∀ a, similar a a) (xs : List α)
    (s : σ) : read s (xs.flatMap parts) = read s xs := by
  induction xs generalizing s with
  | nil => rfl
  | cons a rest ih =>
      rw [List.flatMap_cons, h.cut]
      exact h.similar s a a _ _ (hrefl a) ih

theorem read_similar (h : Coarse parts similar read) {xs ys : List α}
    (hsimilar : List.Forall₂ similar xs ys) (s : σ) : read s xs = read s ys := by
  induction hsimilar generalizing s with
  | nil => rfl
  | cons hhead _ ih => exact h.similar s _ _ _ _ hhead ih

/-- To a coarse reader, lists that are alike are one list. -/
theorem eq_of_alike (h : Coarse parts similar read) (hrefl : ∀ a, similar a a) {xs ys : List α}
    (halike : AlikeBy parts similar xs ys) (s : σ) : read s xs = read s ys := by
  rw [← h.read_parts hrefl, h.read_similar halike, h.read_parts hrefl]

/-- A reader that takes one step for each item. -/
theorem foldl {step : σ → α → σ} (hparts : ∀ s a, (parts a).foldl step s = step s a)
    (hsimilar : ∀ s a b, similar a b → step s a = step s b) :
    Coarse parts similar fun s xs => xs.foldl step s where
  cut s a rest := by rw [List.foldl_append, hparts, List.foldl_cons]
  similar s a b xs ys h ih := by rw [List.foldl_cons, List.foldl_cons, hsimilar s a b h, ih]

/-- The same, where a step may refuse. -/
theorem foldlM {step : σ → α → Except ε σ}
    (hparts : ∀ s a, (parts a).foldlM step s = step s a)
    (hsimilar : ∀ s a b, similar a b → step s a = step s b) :
    Coarse parts similar fun s xs => xs.foldlM step s where
  cut s a rest := by rw [List.foldlM_append, hparts, List.foldlM_cons]
  similar s a b xs ys h ih := by
    rw [List.foldlM_cons, List.foldlM_cons, hsimilar s a b h]
    exact congrArg (step s b >>= ·) (funext ih)

end Coarse

/-- Cutting up more of a list leaves it alike. -/
theorem AlikeBy.of_cut {xs : List α} {cut : α → List α} (hrefl : ∀ a, similar a a)
    (hcut : ∀ a, (cut a).flatMap parts = parts a) :
    AlikeBy parts similar xs (xs.flatMap cut) := by
  unfold AlikeBy
  rw [List.flatMap_assoc, funext hcut]
  exact List.forall₂_same.mpr fun a _ => hrefl a

end GrpcEpub
