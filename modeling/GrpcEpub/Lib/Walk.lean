/-
# `GrpcEpub.Lib.Walk` — walking a tree of names

A walk goes down by a name or up by one, and where it stands is the stack of
names it came down by, the last of them first.  It leaves the tree when it would
go up from the root.

What a walk carries costs no more than what it had and what it was told
(`walk_cost`).
-/
import Mathlib.Tactic

namespace GrpcEpub

variable {α : Type}

/-- One step of a walk. -/
inductive Move (α : Type) where
  | stay
  | up
  | down (name : α)
deriving DecidableEq, Repr

namespace Move

/-- One step, from the stack of names the walk stands on. -/
def step : List α → Move α → Option (List α)
  | stack, .stay => some stack
  | [], .up => none
  | _ :: stack, .up => some stack
  | stack, .down name => some (name :: stack)

/-- A walk, step after step; `none` when it leaves the tree. -/
def walk (stack : List α) (moves : List (Move α)) : Option (List α) := moves.foldlM step stack

@[simp] theorem walk_nil (stack : List α) : walk stack [] = some stack := rfl

@[simp] theorem walk_stay (stack : List α) (rest : List (Move α)) :
    walk stack (.stay :: rest) = walk stack rest := rfl

@[simp] theorem walk_up_root (rest : List (Move α)) : walk [] (.up :: rest) = none := rfl

@[simp] theorem walk_up (name : α) (stack : List α) (rest : List (Move α)) :
    walk (name :: stack) (.up :: rest) = walk stack rest := rfl

@[simp] theorem walk_down (name : α) (stack : List α) (rest : List (Move α)) :
    walk stack (.down name :: rest) = walk (name :: stack) rest := rfl

theorem walk_append (stack : List α) (earlier later : List (Move α)) :
    walk stack (earlier ++ later) = (walk stack earlier).bind fun mid => walk mid later :=
  List.foldlM_append

/-- Going down all the way. -/
theorem walk_downs (stack names : List α) :
    walk stack (names.map .down) = some (names.reverse ++ stack) := by
  induction names generalizing stack with
  | nil => rfl
  | cons name names ih => rw [List.map_cons, walk_down, ih, List.reverse_cons, List.append_assoc]; rfl

/-! ## What is carried along

A cost for each name, and what a walk has to pay for where it stands. -/

section Cost

variable (cost : α → Nat)

/-- What a stack of names costs. -/
def load (names : List α) : Nat := (names.map cost).sum

/-- What a step brings along, at most. -/
def brings : Move α → Nat
  | .stay | .up => 0
  | .down name => cost name

/-- A walk carries no more than it had and was told. -/
theorem walk_cost {stack out : List α} {moves : List (Move α)} (h : walk stack moves = some out) :
    load cost out ≤ load cost stack + (moves.map (brings cost)).sum := by
  induction moves generalizing stack with
  | nil =>
      cases h
      simp
  | cons move rest ih =>
      cases move with
      | stay =>
          have hrest := ih h
          rw [List.map_cons, List.sum_cons, brings]
          omega
      | up =>
          cases stack with
          | nil => cases h
          | cons top stack =>
              have hrest := ih h
              have htop : load cost (top :: stack) = cost top + load cost stack := by simp [load]
              rw [List.map_cons, List.sum_cons, brings]
              omega
      | down name =>
          have hrest := ih h
          have htop : load cost (name :: stack) = cost name + load cost stack := by simp [load]
          rw [List.map_cons, List.sum_cons, brings]
          omega

end Cost

end Move

end GrpcEpub
