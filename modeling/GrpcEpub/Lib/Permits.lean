/-
# `GrpcEpub.Lib.Permits` — shares of one semaphore

A semaphore and a list of holders, each with a share of its permits.
`Balanced` says that no permit is lost or made up: what is available and what
is held come to the total.  A step that touches one holder keeps it when what
the holder gives up the semaphore gets back, so the law is checked one holder
at a time, whatever the others do.
-/
import Mathlib.Tactic

namespace GrpcEpub

namespace Permits

variable {α : Type} {share weight : α → Nat} {total available : Nat} {holders : List α}

/-- The available permits and the holders' shares come to the total. -/
def Balanced (share : α → Nat) (total available : Nat) (holders : List α) : Prop :=
  available + (holders.map share).sum = total

theorem sum_map_set (f : α → Nat) {x : α} (y : α) : ∀ {xs : List α} {i : Nat}, xs[i]? = some x →
    ((xs.set i y).map f).sum + f x = (xs.map f).sum + f y
  | [], i, h => by simp at h
  | z :: xs, 0, h => by
      obtain rfl : z = x := by simpa using h
      simp only [List.set_cons_zero, List.map_cons, List.sum_cons]
      omega
  | z :: xs, i + 1, h => by
      rw [List.getElem?_cons_succ] at h
      have ih := sum_map_set f y h
      simp only [List.set_cons_succ, List.map_cons, List.sum_cons]
      omega

namespace Balanced

theorem start (share : α → Nat) (total : Nat) : Balanced share total total [] := by
  simp [Balanced]

/-- A newcomer holds nothing. -/
theorem enter {x : α} (h : Balanced share total available holders) (hx : share x = 0) :
    Balanced share total available (holders ++ [x]) := by
  simpa [Balanced, hx] using h

/-- One holder changes its share, and the semaphore makes up the difference. -/
theorem exchange {x y : α} {i available' : Nat} (h : Balanced share total available holders)
    (hx : holders[i]? = some x) (hkept : available' + share y = available + share x) :
    Balanced share total available' (holders.set i y) := by
  have hsum := sum_map_set share y hx
  unfold Balanced at h ⊢
  omega

/-- Once nobody holds anything, everything is available. -/
theorem all_available (h : Balanced share total available holders)
    (hnone : ∀ x ∈ holders, share x = 0) : available = total := by
  have hsum : (holders.map share).sum = 0 := by
    rw [List.sum_eq_zero_iff]
    intro n hn
    obtain ⟨x, hx, rfl⟩ := List.mem_map.mp hn
    exact hnone x hx
  unfold Balanced at h
  omega

/-- What each holder's share pays for, the semaphore pays for in all. -/
theorem sum_le {unit : Nat} (h : Balanced share total available holders)
    (hpaid : ∀ x ∈ holders, weight x ≤ unit * share x) :
    (holders.map weight).sum ≤ unit * total := by
  have hsum : (holders.map weight).sum ≤ unit * (holders.map share).sum := by
    rw [← List.sum_map_mul_left]
    exact List.sum_le_sum hpaid
  refine hsum.trans (Nat.mul_le_mul_left unit ?_)
  unfold Balanced at h
  omega

end Balanced

/-- A property of every holder survives a change of one. -/
theorem forall_mem_set {P : α → Prop} {y : α} {i : Nat} (h : ∀ x ∈ holders, P x) (hy : P y) :
    ∀ x ∈ holders.set i y, P x := fun x hx =>
  (List.mem_or_eq_of_mem_set hx).elim (h x) fun heq => heq ▸ hy

end Permits

end GrpcEpub
