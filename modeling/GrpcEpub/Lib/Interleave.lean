/-
# `GrpcEpub.Lib.Interleave` — pending items sent in front of the stops that pass them

Items wait in the order of their keys.  A sequence of stops is visited in its
own order, which need not be the order of the keys; in front of each stop go
all the items still waiting whose key is below the stop's.  What is left goes
after the last stop.

The law is `interleave_split`: an item is in front of a stop exactly when its
key is below that stop's or an earlier one's, which is to say below the
largest stop reached so far.
-/
import Mathlib.Tactic

namespace GrpcEpub

section Interleave

variable {α β κ : Type} [LinearOrder κ] (key : α → κ) (stop : β → κ)

/-- In front of each stop, every pending item keyed below it. -/
def interleave : List β → List α → List (α ⊕ β)
  | [], pending => pending.map .inl
  | b :: stops, pending =>
      (pending.takeWhile (key · < stop b)).map .inl ++ .inr b ::
        interleave stops (pending.dropWhile (key · < stop b))

/-- The interleaving up to the last stop. -/
def upToLast : List β → List α → List (α ⊕ β)
  | [], _ => []
  | b :: stops, pending =>
      (pending.takeWhile (key · < stop b)).map .inl ++ .inr b ::
        upToLast stops (pending.dropWhile (key · < stop b))

/-- What still waits behind the last stop. -/
def leftOver : List β → List α → List α
  | [], pending => pending
  | b :: stops, pending => leftOver stops (pending.dropWhile (key · < stop b))

/-- The items of an interleaving, in order. -/
def lefts (l : List (α ⊕ β)) : List α := l.filterMap Sum.getLeft?

/-- The stops of an interleaving, in order. -/
def rights (l : List (α ⊕ β)) : List β := l.filterMap Sum.getRight?

@[simp] theorem lefts_append (l l' : List (α ⊕ β)) : lefts (l ++ l') = lefts l ++ lefts l' := by
  simp [lefts]

@[simp] theorem rights_append (l l' : List (α ⊕ β)) :
    rights (l ++ l') = rights l ++ rights l' := by
  simp [rights]

@[simp] theorem lefts_inl (l : List α) : lefts (l.map (.inl : α → α ⊕ β)) = l := by
  induction l with
  | nil => rfl
  | cons a l ih => simpa [lefts] using ih

@[simp] theorem rights_inl (l : List α) : rights (l.map (.inl : α → α ⊕ β)) = [] := by
  induction l with
  | nil => rfl
  | cons a l ih => simp [rights]

@[simp] theorem lefts_inr (l : List β) : lefts (l.map (.inr : β → α ⊕ β)) = [] := by
  induction l with
  | nil => rfl
  | cons b l ih => simp [lefts]

@[simp] theorem rights_inr (l : List β) : rights (l.map (.inr : β → α ⊕ β)) = l := by
  induction l with
  | nil => rfl
  | cons b l ih => simpa [rights] using ih

@[simp] theorem lefts_inl_cons (a : α) (l : List (α ⊕ β)) :
    lefts (.inl a :: l) = a :: lefts l := rfl

@[simp] theorem rights_inl_cons (a : α) (l : List (α ⊕ β)) :
    rights (.inl a :: l) = rights l := rfl

@[simp] theorem lefts_inr_cons (b : β) (l : List (α ⊕ β)) : lefts (.inr b :: l) = lefts l := rfl

@[simp] theorem rights_inr_cons (b : β) (l : List (α ⊕ β)) :
    rights (.inr b :: l) = b :: rights l := rfl

theorem perm_lefts_rights (l : List (α ⊕ β)) :
    l.Perm ((lefts l).map .inl ++ (rights l).map .inr) := by
  induction l with
  | nil => exact .refl _
  | cons x l ih =>
      cases x with
      | inl a => exact ih.cons _
      | inr b => exact (ih.cons _).trans List.perm_middle.symm

/-- A list that the right ones add nothing to. -/
theorem flatMap_lefts {γ : Type} {f : α ⊕ β → List γ} {l : List (α ⊕ β)}
    (h : ∀ b ∈ rights l, f (.inr b) = []) : l.flatMap f = (lefts l).flatMap fun a => f (.inl a) := by
  induction l with
  | nil => rfl
  | cons x l ih =>
      cases x with
      | inl a => rw [List.flatMap_cons, ih h, lefts_inl_cons, List.flatMap_cons]
      | inr b =>
          obtain ⟨hfirst, hrest⟩ := List.forall_mem_cons.mp h
          rw [List.flatMap_cons, hfirst, ih hrest, lefts_inr_cons, List.nil_append]

/-- A list that the left ones add nothing to. -/
theorem flatMap_rights {γ : Type} {f : α ⊕ β → List γ} {l : List (α ⊕ β)}
    (h : ∀ a ∈ lefts l, f (.inl a) = []) : l.flatMap f = (rights l).flatMap fun b => f (.inr b) := by
  induction l with
  | nil => rfl
  | cons x l ih =>
      cases x with
      | inr b => rw [List.flatMap_cons, ih h, rights_inr_cons, List.flatMap_cons]
      | inl a =>
          obtain ⟨hfirst, hrest⟩ := List.forall_mem_cons.mp h
          rw [List.flatMap_cons, hfirst, ih hrest, rights_inl_cons, List.nil_append]

/-- A fold that passes over the right ones. -/
theorem foldr_lefts {σ : Type} {f : α ⊕ β → σ → σ} {l : List (α ⊕ β)}
    (h : ∀ b ∈ rights l, ∀ s, f (.inr b) s = s) (s : σ) :
    l.foldr f s = (lefts l).foldr (fun a => f (.inl a)) s := by
  induction l with
  | nil => rfl
  | cons x l ih =>
      cases x with
      | inl a => rw [List.foldr_cons, ih h, lefts_inl_cons, List.foldr_cons]
      | inr b =>
          obtain ⟨hfirst, hrest⟩ := List.forall_mem_cons.mp h
          rw [List.foldr_cons, hfirst, ih hrest, lefts_inr_cons]

theorem lefts_map {α' β' : Type} (f : α → α') (g : β → β') (l : List (α ⊕ β)) :
    lefts (l.map (Sum.map f g)) = (lefts l).map f := by
  induction l with
  | nil => rfl
  | cons x l ih => cases x <;> simp [ih]

theorem rights_map {α' β' : Type} (f : α → α') (g : β → β') (l : List (α ⊕ β)) :
    rights (l.map (Sum.map f g)) = (rights l).map g := by
  induction l with
  | nil => rfl
  | cons x l ih => cases x <;> simp [ih]

theorem interleave_eq (stops : List β) :
    ∀ pending : List α, interleave key stop stops pending =
      upToLast key stop stops pending ++ (leftOver key stop stops pending).map .inl := by
  induction stops with
  | nil => exact fun pending => rfl
  | cons b stops ih => intro pending; simp [interleave, upToLast, leftOver, ih]

theorem leftOver_sublist (stops : List β) :
    ∀ pending : List α, (leftOver key stop stops pending).Sublist pending := by
  induction stops with
  | nil => exact fun pending => .refl _
  | cons b stops ih => exact fun pending => (ih _).trans (List.dropWhile_sublist _)

/-- Nothing is lost or repeated: the items come out as they were waiting. -/
theorem lefts_interleave (stops : List β) :
    ∀ pending : List α, lefts (interleave key stop stops pending) = pending := by
  induction stops with
  | nil => intro pending; exact lefts_inl pending
  | cons b stops ih =>
      intro pending
      simp only [interleave, lefts_append, lefts_inl, lefts_inr_cons, ih]
      exact List.takeWhile_append_dropWhile

/-- Every stop is visited, in the order given. -/
theorem rights_interleave (stops : List β) :
    ∀ pending : List α, rights (interleave key stop stops pending) = stops := by
  induction stops with
  | nil => intro pending; exact rights_inl pending
  | cons b stops ih =>
      intro pending
      simp only [interleave, rights_append, rights_inl, rights_inr_cons, ih, List.nil_append]

/-- On items in key order, taking up to a bound and filtering the rest is one
filter. -/
theorem takeWhile_append_filter_dropWhile (t : κ) (q : α → Bool) (pending : List α)
    (sorted : pending.Pairwise (key · ≤ key ·)) :
    pending.takeWhile (key · < t) ++ (pending.dropWhile (key · < t)).filter q =
      pending.filter (fun a => key a < t || q a) := by
  induction pending with
  | nil => rfl
  | cons a pending ih =>
      rw [List.pairwise_cons] at sorted
      by_cases h : key a < t
      · simp [h, ih sorted.2]
      · -- every later item is past the bound as well, so the filters agree
        have later : ∀ b ∈ a :: pending, ¬ key b < t := by
          intro b hb
          rcases List.mem_cons.mp hb with rfl | hb
          · exact h
          · exact fun hlt => h (lt_of_le_of_lt (sorted.1 b hb) hlt)
        rw [List.takeWhile_cons_of_neg (by simpa using h),
          List.dropWhile_cons_of_neg (by simpa using h), List.nil_append]
        exact List.filter_congr fun b hb => by simp [later b hb]

/-- Around any one stop: what is in front of it are the earlier stops and the
items keyed below it or below one of them. -/
theorem interleave_split (b : β) (post : List β) (pre : List β) :
    ∀ pending : List α, pending.Pairwise (key · ≤ key ·) →
      ∃ u v, interleave key stop (pre ++ b :: post) pending = u ++ .inr b :: v ∧
        rights u = pre ∧
        lefts u = pending.filter (fun a => (pre ++ [b]).any (fun c => key a < stop c)) := by
  induction pre with
  | nil =>
      intro pending sorted
      refine ⟨_, _, rfl, rights_inl _, ?_⟩
      have := takeWhile_append_filter_dropWhile key (stop b) (fun _ => false) pending sorted
      simpa using this
  | cons c pre ih =>
      intro pending sorted
      obtain ⟨u, v, hsplit, hrights, hlefts⟩ :=
        ih (pending.dropWhile (key · < stop c)) (sorted.sublist (List.dropWhile_sublist _))
      refine ⟨(pending.takeWhile (key · < stop c)).map .inl ++ .inr c :: u, v, ?_, ?_, ?_⟩
      · simp [interleave, hsplit]
      · simp [hrights]
      · simp only [lefts_append, lefts_inl, lefts_inr_cons, hlefts]
        rw [takeWhile_append_filter_dropWhile key (stop c) _ pending sorted]
        simp

end Interleave

end GrpcEpub
