/-
# `GrpcEpub.Lib.Last` — the last entry with a property

What a run of writes leaves under a key is the last value written there, so what is asked of
such a run is which entry of it is the last with that key, and where it stands.
-/
import Mathlib.Data.List.AList
import Mathlib.Tactic

namespace GrpcEpub

section Last

variable {α : Type} (p : α → Prop) [DecidablePred p]

/-- The last entry with a property. -/
def lastOf (xs : List α) : Option α := (xs.filter fun x => p x).getLast?

/-- Where it stands. -/
def lastAt (xs : List α) : Option Nat := (lastOf (fun place => p place.1) xs.zipIdx).map Prod.snd

variable {p}

theorem lastOf_concat (xs : List α) (x : α) :
    lastOf p (xs ++ [x]) = if p x then some x else lastOf p xs := by
  unfold lastOf
  rw [List.filter_append]
  by_cases hx : p x
  · rw [if_pos hx, List.filter_cons_of_pos (by simpa using hx), List.filter_nil]
    exact List.getLast?_concat
  · rw [if_neg hx, List.filter_cons_of_neg (by simpa using hx), List.filter_nil, List.append_nil]

theorem lastAt_concat (xs : List α) (x : α) :
    lastAt p (xs ++ [x]) = if p x then some xs.length else lastAt p xs := by
  unfold lastAt
  rw [List.zipIdx_append, Nat.zero_add]
  refine (congrArg (Option.map Prod.snd) (lastOf_concat xs.zipIdx (x, xs.length))).trans ?_
  split <;> rfl

theorem lastOf_mem {xs : List α} {x : α} (h : lastOf p xs = some x) : x ∈ xs ∧ p x := by
  obtain ⟨hmem, hx⟩ := List.mem_filter.mp (List.mem_of_getLast? h)
  exact ⟨hmem, of_decide_eq_true hx⟩

/-- There is a last entry as soon as there is one. -/
theorem lastOf_isSome {xs : List α} {x : α} (hmem : x ∈ xs) (hx : p x) :
    ∃ last, lastOf p xs = some last := by
  have hne : xs.filter (fun x => p x) ≠ [] :=
    List.ne_nil_of_mem (List.mem_filter.mpr ⟨hmem, decide_eq_true hx⟩)
  exact ⟨_, List.getLast?_eq_getLast_of_ne_nil hne⟩

theorem lastOf_congr {q : α → Prop} [DecidablePred q] {xs : List α}
    (h : ∀ x ∈ xs, p x ↔ q x) : lastOf p xs = lastOf q xs := by
  unfold lastOf
  rw [List.filter_congr fun x hx => decide_eq_decide.mpr (h x hx)]

theorem lastOf_map {β : Type} (f : β → α) (xs : List β) :
    lastOf p (xs.map f) = (lastOf (fun x => p (f x)) xs).map f := by
  unfold lastOf
  rw [List.filter_map, List.getLast?_map]
  rfl

theorem lastAt_map {β : Type} (f : β → α) (xs : List β) :
    lastAt p (xs.map f) = lastAt (fun x => p (f x)) xs := by
  induction xs using List.reverseRecOn with
  | nil => rfl
  | append_singleton xs x ih =>
      rw [List.map_append, List.map_singleton, lastAt_concat, lastAt_concat, ih, List.length_map]

/-- It stands where an entry has the property and none behind it has. -/
theorem lastAt_eq_some {xs : List α} {i : Nat} :
    lastAt p xs = some i ↔
      (∃ x, xs[i]? = some x ∧ p x) ∧ ∀ j x, i < j → xs[j]? = some x → ¬ p x := by
  induction xs using List.reverseRecOn with
  | nil =>
      refine iff_of_false (Option.some_ne_none i).symm ?_
      rintro ⟨⟨x, hx, -⟩, -⟩
      exact absurd hx (Option.some_ne_none x).symm
  | append_singleton xs x ih =>
      have hlast : (xs ++ [x])[xs.length]? = some x := List.getElem?_concat_length
      have hbefore : ∀ {j : Nat}, j < xs.length → (xs ++ [x])[j]? = xs[j]? :=
        List.getElem?_append_left
      have hrange : ∀ {j : Nat} {y : α}, (xs ++ [x])[j]? = some y → j ≤ xs.length := by
        intro j y hj
        have hlt := (List.getElem?_eq_some_iff.mp hj).1
        rw [List.length_append, List.length_singleton] at hlt
        omega
      rw [lastAt_concat]
      -- the last entry has the property, or it does not matter
      by_cases hx : p x
      · rw [if_pos hx, Option.some.injEq]
        constructor
        · rintro rfl
          refine ⟨⟨x, hlast, hx⟩, fun j y hj hget => ?_⟩
          have := hrange hget
          omega
        · rintro ⟨⟨y, hy, -⟩, hnone⟩
          by_contra hne
          have := hrange hy
          exact hnone xs.length x (by omega) hlast hx
      · rw [if_neg hx, ih]
        constructor
        · rintro ⟨⟨y, hy, hpy⟩, hnone⟩
          have hi := (List.getElem?_eq_some_iff.mp hy).1
          refine ⟨⟨y, (hbefore hi).trans hy, hpy⟩, fun j z hj hget => ?_⟩
          rcases (hrange hget).lt_or_eq with hlt | rfl
          · exact hnone j z hj ((hbefore hlt).symm.trans hget)
          · rw [← Option.some.inj (hlast.symm.trans hget)]
            exact hx
        · rintro ⟨⟨y, hy, hpy⟩, hnone⟩
          have hi : i < xs.length := by
            rcases (hrange hy).lt_or_eq with hlt | rfl
            · exact hlt
            · exact absurd (Option.some.inj (hlast.symm.trans hy) ▸ hpy) hx
          refine ⟨⟨y, (hbefore hi).symm.trans hy, hpy⟩, fun j z hj hget => ?_⟩
          exact hnone j z hj ((hbefore (List.getElem?_eq_some_iff.mp hget).1).trans hget)

end Last

section Writes

variable {α κ ν : Type} [DecidableEq κ] {key : α → κ} {value : α → ν}

/-- Steps that write to a key when an entry has a property leave there what the last such entry
wrote, and what was there before when there is none. -/
theorem lookup_steps {p : α → Prop} [DecidablePred p] {k : κ}
    {step : (AList fun _ : κ => ν) → α → AList fun _ : κ => ν}
    (hstep : ∀ m a, (step m a).lookup k = if p a then some (value a) else m.lookup k)
    (m : AList fun _ : κ => ν) (xs : List α) :
    (xs.foldl step m).lookup k = ((lastOf p xs).map value).or (m.lookup k) := by
  induction xs using List.reverseRecOn with
  | nil => rfl
  | append_singleton xs a ih =>
      rw [List.foldl_append, List.foldl_cons, List.foldl_nil, lastOf_concat, hstep]
      by_cases ha : p a
      · rw [if_pos ha, if_pos ha]
        rfl
      · rw [if_neg ha, if_neg ha, ih]

/-- A run of writes leaves the last value written under a key, and what was there before when
nothing is written under it. -/
theorem lookup_writes (k : κ) (m : AList fun _ : κ => ν) (xs : List α) :
    (xs.foldl (fun m a => m.insert (key a) (value a)) m).lookup k =
      ((lastOf (fun a => key a = k) xs).map value).or (m.lookup k) := by
  refine lookup_steps (fun m a => ?_) m xs
  by_cases hkey : key a = k
  · rw [if_pos hkey, ← hkey, AList.lookup_insert]
  · rw [if_neg hkey, AList.lookup_insert_ne (Ne.symm hkey)]

end Writes

end GrpcEpub
