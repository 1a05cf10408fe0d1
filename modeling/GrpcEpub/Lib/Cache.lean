/-
# `GrpcEpub.Lib.Cache` — a cache that hands each value over once

Values are asked for by key.  A value that the cache holds is taken out of it,
any other is fetched; in both cases it may be put back for a later use.  A list
of uses says which keys are asked for and which values are put back.

Putting a value back saves exactly the next use of its key, so what is fetched
depends on how often each key is used and put back, and not on the order: this
is `fetched_perm`, for uses that leave nothing behind.
-/
import Mathlib.Tactic

namespace GrpcEpub

namespace Cache

/-- One use of a key, and whether its value is put back. -/
structure Use (κ : Type) where
  key : κ
  again : Bool
deriving DecidableEq, Repr

/-- A use of a key under another name. -/
def Use.map {κ κ' : Type} (f : κ → κ') (use : Use κ) : Use κ' := ⟨f use.key, use.again⟩

theorem map_key {κ κ' : Type} (f : κ → κ') (uses : List (Use κ)) :
    (uses.map (Use.map f)).map Use.key = (uses.map Use.key).map f := by
  rw [List.map_map, List.map_map]
  rfl

theorem map_key_again {κ κ' : Type} (f : κ → κ') (uses : List (Use κ)) :
    ((uses.map (Use.map f)).filter (·.again)).map Use.key =
      ((uses.filter (·.again)).map Use.key).map f := by
  rw [List.filter_map, ← map_key]
  rfl

variable {κ : Type} [DecidableEq κ]

/-- What is held after a use. -/
def Use.after (held : Finset κ) (use : Use κ) : Finset κ :=
  if use.again then insert use.key held else held.erase use.key

/-- What a list of uses leaves behind. -/
def left (held : Finset κ) (uses : List (Use κ)) : Finset κ := uses.foldl Use.after held

/-- What a list of uses has to fetch, in order. -/
def fetched (held : Finset κ) : List (Use κ) → List κ
  | [] => []
  | use :: uses =>
      if use.key ∈ held then fetched (use.after held) uses
      else use.key :: fetched (use.after held) uses

variable (held : Finset κ) (use : Use κ) (uses uses' : List (Use κ)) (k : κ)

@[simp] theorem left_nil : left held [] = held := rfl

@[simp] theorem left_cons : left held (use :: uses) = left (use.after held) uses := rfl

@[simp] theorem left_append : left held (uses ++ uses') = left (left held uses) uses' :=
  List.foldl_append

/-- One use, and the rest behind it. -/
theorem fetched_cons : fetched held (use :: uses) =
    (if use.key ∈ held then [] else [use.key]) ++ fetched (use.after held) uses := by
  rw [fetched]
  split <;> rfl

@[simp] theorem fetched_append : fetched held (uses ++ uses') =
    fetched held uses ++ fetched (left held uses) uses' := by
  induction uses generalizing held with
  | nil => rfl
  | cons use uses ih =>
      simp only [List.cons_append, fetched, ih, left_cons]
      split <;> rfl

theorem mem_after : k ∈ use.after held ↔
    if use.key = k then use.again = true else k ∈ held := by
  unfold Use.after
  by_cases hk : use.key = k
  · subst hk
    cases use.again <;> simp
  · have hk' : k ≠ use.key := fun h => hk h.symm
    cases use.again <;> simp [hk, hk']

/-- Whether a key is held, as a number. -/
def holds (k : κ) : Nat := if k ∈ held then 1 else 0

theorem holds_after : holds (use.after held) k =
    if use.key = k then use.again.toNat else holds held k := by
  unfold holds
  by_cases hk : use.key = k
  · cases hagain : use.again <;> simp [mem_after, hk, hagain]
  · simp [mem_after, hk]

theorem holds_le : holds held k ≤ 1 := by
  unfold holds
  split <;> omega

/-- A use fetches its own key, where that is not held. -/
theorem count_fetched_cons : (fetched held (use :: uses)).count k =
    (fetched (use.after held) uses).count k +
      if use.key = k then 1 - holds held k else 0 := by
  rw [fetched]
  unfold holds
  by_cases hk : use.key = k
  · subst hk
    by_cases hheld : use.key ∈ held <;> simp [hheld]
  · by_cases hheld : use.key ∈ held <;> simp [hheld, hk]

/-- A use puts its own key back, or none. -/
theorem count_again_cons : (((use :: uses).filter (·.again)).map Use.key).count k =
    ((uses.filter (·.again)).map Use.key).count k +
      if use.key = k then use.again.toNat else 0 := by
  by_cases hk : use.key = k <;> cases hagain : use.again <;> simp [hagain, hk]

/-- How often a key is used, fetched and put back. -/
theorem count_fetched : (fetched held uses).count k +
      ((uses.filter (·.again)).map Use.key).count k + holds held k =
    (uses.map Use.key).count k + holds (left held uses) k := by
  induction uses generalizing held with
  | nil => simp [fetched]
  | cons use uses ih =>
      have hrest := ih (use.after held)
      have hle := holds_le held k
      rw [holds_after] at hrest
      rw [count_fetched_cons, count_again_cons, left_cons, List.map_cons, List.count_cons]
      by_cases hk : use.key = k
      · simp only [hk, if_true, beq_self_eq_true] at hrest ⊢
        omega
      · simp only [hk, if_false, beq_iff_eq] at hrest ⊢
        omega

/-- Nothing held before, nothing left behind: every use is fetched or was put
back for. -/
theorem fetched_perm {uses : List (Use κ)} (h : left ∅ uses = ∅) :
    (fetched ∅ uses ++ (uses.filter (·.again)).map Use.key).Perm (uses.map Use.key) := by
  rw [List.perm_iff_count]
  intro k
  have hcount := count_fetched ∅ uses k
  rw [h] at hcount
  rw [List.count_append]
  omega

/-- A key that is never put back is not there in the end, once it is used. -/
theorem not_mem_left_of_used {uses : List (Use κ)} {k : κ}
    (hagain : ∀ use ∈ uses, use.key = k → use.again = false)
    (hused : k ∉ held ∨ ∃ use ∈ uses, use.key = k) : k ∉ left held uses := by
  induction uses generalizing held with
  | nil => simpa using hused
  | cons use uses ih =>
      refine ih _ (fun u hu => hagain u (List.mem_cons_of_mem _ hu)) ?_
      rw [mem_after]
      by_cases hk : use.key = k
      · rw [if_pos hk, hagain use List.mem_cons_self hk]
        exact .inl (by decide)
      · rw [if_neg hk]
        refine hused.imp_right ?_
        rintro ⟨u, hu, hkey⟩
        rcases List.mem_cons.mp hu with rfl | hu
        · exact absurd hkey hk
        · exact ⟨u, hu, hkey⟩

end Cache

end GrpcEpub
