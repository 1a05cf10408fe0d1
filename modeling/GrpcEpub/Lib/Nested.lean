/-
# `GrpcEpub.Lib.Nested` — nested elements and their flat spelling

A forest of elements is written out as a flat list: an opening event for each
element, what is inside it, and a closing event.  A forest is given by its first
child and what follows it, so that an induction over it has one case for a leaf and
one for an element.

A reader of the flat list is a fold; `foldl_spell_node` follows it through an element.
A list that breaks off somewhere breaks off in front of an element, inside it or
behind it, which is what `take_spell_inside` and `take_spell_behind` say.  So what is
left of a forest is `Remnant`: what is complete, and the elements still open
(`spell_breakOff`).
-/
import Mathlib.Tactic

namespace GrpcEpub

/-- A forest of elements, with leaves between them. -/
inductive Nested (τ α : Type) where
  | nil
  | leaf (a : α) (rest : Nested τ α)
  | node (tag : τ) (body rest : Nested τ α)

/-- How a forest is written out. -/
structure Rendering (τ α ε : Type) where
  opening : τ → ε
  closing : τ → ε
  flat : α → ε

namespace Nested

variable {τ α ε σ : Type}

/-- The flat list. -/
def spell (s : Rendering τ α ε) : Nested τ α → List ε
  | nil => []
  | leaf a rest => s.flat a :: rest.spell s
  | node tag body rest => s.opening tag :: (body.spell s ++ s.closing tag :: rest.spell s)

variable (s : Rendering τ α ε) (step : σ → ε → σ)

theorem foldl_spell_leaf (a : α) (rest : Nested τ α) (state : σ) :
    ((leaf a rest).spell s).foldl step state =
      (rest.spell s).foldl step (step state (s.flat a)) := rfl

theorem foldl_spell_node (tag : τ) (body rest : Nested τ α) (state : σ) :
    ((node tag body rest).spell s).foldl step state =
      (rest.spell s).foldl step
        (step ((body.spell s).foldl step (step state (s.opening tag))) (s.closing tag)) := by
  rw [spell, List.foldl_cons, List.foldl_append, List.foldl_cons]

theorem length_spell_node (tag : τ) (body rest : Nested τ α) :
    ((node tag body rest).spell s).length =
      (body.spell s).length + 2 + (rest.spell s).length := by
  rw [spell, List.length_cons, List.length_append, List.length_cons]
  omega

/-- A list that breaks off inside an element. -/
theorem take_spell_inside {n : Nat} (tag : τ) (body rest : Nested τ α)
    (h : n ≤ (body.spell s).length) :
    ((node tag body rest).spell s).take (n + 1) = s.opening tag :: (body.spell s).take n := by
  rw [spell, List.take_succ_cons, List.take_append_of_le_length h]

/-- A list that breaks off behind an element. -/
theorem take_spell_behind (n : Nat) (tag : τ) (body rest : Nested τ α) :
    ((node tag body rest).spell s).take ((body.spell s).length + 2 + n) =
      s.opening tag :: (body.spell s ++ s.closing tag :: (rest.spell s).take n) := by
  rw [spell, show (body.spell s).length + 2 + n = (body.spell s).length + (1 + n) + 1 by omega,
    List.take_succ_cons, List.take_length_add_append, Nat.add_comm 1 n, List.take_succ_cons]

/-- One forest behind another. -/
def append : Nested τ α → Nested τ α → Nested τ α
  | nil, behind => behind
  | leaf a rest, behind => leaf a (rest.append behind)
  | node tag body rest, behind => node tag body (rest.append behind)

theorem spell_append (front behind : Nested τ α) :
    (front.append behind).spell s = front.spell s ++ behind.spell s := by
  induction front with
  | nil => rfl
  | leaf a rest ih => rw [append, spell, ih, spell, List.cons_append]
  | node tag body rest _ ih =>
      rw [append, spell, ih, spell, List.cons_append, List.append_assoc, List.cons_append]

/-- How many events there are. -/
def size : Nested τ α → Nat
  | nil => 0
  | leaf _ rest => rest.size + 1
  | node _ body rest => body.size + 2 + rest.size

theorem length_spell (forest : Nested τ α) : (forest.spell s).length = forest.size := by
  induction forest with
  | nil => rfl
  | leaf a rest ih => rw [spell, List.length_cons, ih, size]
  | node tag body rest ihbody ihrest => rw [length_spell_node, ihbody, ihrest, size]

end Nested

/-! ## Breaking off

Where a list breaks off is a number, and what is left of the forest is a `Remnant`. -/

/-- What is left of a forest: something complete, and perhaps an element still open. -/
inductive Remnant (τ α : Type) where
  | done (front : Nested τ α)
  | inside (front : Nested τ α) (tag : τ) (rest : Remnant τ α)

namespace Remnant

variable {τ α ε : Type}

/-- The flat list, as far as it goes. -/
def spell (s : Rendering τ α ε) : Remnant τ α → List ε
  | done front => front.spell s
  | inside front tag rest => front.spell s ++ s.opening tag :: rest.spell s

def leaf (a : α) : Remnant τ α → Remnant τ α
  | done front => done (.leaf a front)
  | inside front tag rest => inside (.leaf a front) tag rest

def node (tag : τ) (body : Nested τ α) : Remnant τ α → Remnant τ α
  | done front => done (.node tag body front)
  | inside front tag' rest => inside (.node tag body front) tag' rest

theorem spell_leaf (s : Rendering τ α ε) (a : α) (rest : Remnant τ α) :
    (rest.leaf a).spell s = s.flat a :: rest.spell s := by
  cases rest <;> rfl

theorem spell_node (s : Rendering τ α ε) (tag : τ) (body : Nested τ α) (rest : Remnant τ α) :
    (rest.node tag body).spell s =
      s.opening tag :: (body.spell s ++ s.closing tag :: rest.spell s) := by
  cases rest with
  | done front => rfl
  | inside front tag' rest =>
      rw [node, spell, Nested.spell, spell, List.cons_append, List.append_assoc, List.cons_append]

end Remnant

namespace Nested

variable {τ α ε : Type}

/-- A forest after so many events. -/
def breakOff : Nat → Nested τ α → Remnant τ α
  | 0, _ => .done .nil
  | _, nil => .done .nil
  | n + 1, leaf a rest => (rest.breakOff n).leaf a
  | n + 1, node tag body rest =>
      if n ≤ body.size then .inside .nil tag (body.breakOff n)
      else (rest.breakOff (n - body.size - 1)).node tag body

/-- The first events of a forest are those of what is left of it. -/
theorem spell_breakOff (s : Rendering τ α ε) (n : Nat) (forest : Nested τ α) :
    (forest.breakOff n).spell s = (forest.spell s).take n := by
  induction forest generalizing n with
  | nil => cases n <;> rfl
  | leaf a rest ih =>
      cases n with
      | zero => rfl
      | succ n => rw [breakOff, Remnant.spell_leaf, ih, spell, List.take_succ_cons]
  | node tag body rest ihbody ihrest =>
      cases n with
      | zero => rfl
      | succ n =>
          rw [breakOff]
          by_cases hinside : n ≤ body.size
          · rw [if_pos hinside, take_spell_inside s tag body rest (by rwa [length_spell]), Remnant.spell,
              ihbody]
            rfl
          · have hsum : n + 1 = (body.spell s).length + 2 + (n - body.size - 1) := by
              rw [length_spell]
              omega
            rw [if_neg hinside, Remnant.spell_node, ihrest, hsum, take_spell_behind]

end Nested

/-! ## Leaves put in

Leaves of another kind, put in anywhere, and taken out again. -/

/-- Each event replaced by another. -/
def Rendering.map {τ α ε ε' : Type} (s : Rendering τ α ε) (f : ε → ε') : Rendering τ α ε' where
  opening := fun tag => f (s.opening tag)
  closing := fun tag => f (s.closing tag)
  flat := fun a => f (s.flat a)

namespace Nested

variable {τ α β ε : Type}

theorem map_spell {ε' : Type} (s : Rendering τ α ε) (f : ε → ε') (forest : Nested τ α) :
    (forest.spell s).map f = forest.spell (s.map f) := by
  induction forest with
  | nil => rfl
  | leaf a rest ih => exact congrArg (List.cons (f (s.flat a))) ih
  | node tag body rest ihbody ihrest =>
      rw [spell, spell, List.map_cons, List.map_append, List.map_cons, ihbody, ihrest]
      rfl

/-- Without the leaves that were put in. -/
def lefts : Nested τ (α ⊕ β) → Nested τ α
  | nil => nil
  | leaf (.inl a) rest => leaf a rest.lefts
  | leaf (.inr _) rest => rest.lefts
  | node tag body rest => node tag body.lefts rest.lefts

/-- Some leaves in front. -/
def behind (front : List β) (forest : Nested τ (α ⊕ β)) : Nested τ (α ⊕ β) :=
  front.foldr (fun b => leaf (.inr b)) forest

theorem lefts_behind (front : List β) (forest : Nested τ (α ⊕ β)) :
    (forest.behind front).lefts = forest.lefts := by
  induction front with
  | nil => rfl
  | cons b front ih => exact ih

end Nested

/-- The flat list, with what was put in apart. -/
def Rendering.mixed {τ α ε : Type} (s : Rendering τ α ε) (β : Type) : Rendering τ (α ⊕ β) (ε ⊕ β) where
  opening := fun tag => .inl (s.opening tag)
  closing := fun tag => .inl (s.closing tag)
  flat := Sum.map s.flat id

namespace Nested

variable {τ α β ε : Type} (s : Rendering τ α ε)

theorem spell_behind (front : List β) (forest : Nested τ (α ⊕ β)) :
    (forest.behind front).spell (s.mixed β) = front.map .inr ++ forest.spell (s.mixed β) := by
  induction front with
  | nil => rfl
  | cons b front ih => exact congrArg (List.cons (Sum.inr b)) ih

/-- What is put into a list stands in front of what was there. -/
theorem filterMap_getLeft_cons {mixed : List (ε ⊕ β)} {event : ε} {rest : List ε}
    (h : mixed.filterMap Sum.getLeft? = event :: rest) :
    ∃ (front : List β) (behind : List (ε ⊕ β)), mixed = front.map .inr ++ .inl event :: behind ∧
      behind.filterMap Sum.getLeft? = rest := by
  induction mixed with
  | nil => cases h
  | cons first mixed ih =>
      cases first with
      | inl event' =>
          obtain ⟨rfl, hrest⟩ := List.cons.inj h
          exact ⟨[], mixed, rfl, hrest⟩
      | inr b =>
          obtain ⟨front, behind, rfl, hrest⟩ := ih h
          exact ⟨b :: front, behind, rfl, hrest⟩

theorem filterMap_getLeft_nil {mixed : List (ε ⊕ β)} (h : mixed.filterMap Sum.getLeft? = []) :
    ∃ front : List β, mixed = front.map Sum.inr := by
  induction mixed with
  | nil => exact ⟨[], rfl⟩
  | cons first mixed ih =>
      cases first with
      | inl event => cases h
      | inr b =>
          obtain ⟨front, rfl⟩ := ih h
          exact ⟨b :: front, rfl⟩

/-- Whatever is put into the flat list of a forest, and wherever, is put into the forest. -/
theorem exists_lefts (forest : Nested τ α) {mixed : List (ε ⊕ β)}
    (h : mixed.filterMap Sum.getLeft? = forest.spell s) :
    ∃ forest' : Nested τ (α ⊕ β), forest'.lefts = forest ∧ forest'.spell (s.mixed β) = mixed := by
  induction forest generalizing mixed with
  | nil =>
      obtain ⟨front, rfl⟩ := filterMap_getLeft_nil h
      refine ⟨nil.behind front, lefts_behind front nil, ?_⟩
      rw [spell_behind, spell, List.append_nil]
  | leaf a rest ih =>
      obtain ⟨front, behind, rfl, hrest⟩ := filterMap_getLeft_cons h
      obtain ⟨rest', hlefts, hspell⟩ := ih hrest
      refine ⟨(leaf (.inl a) rest').behind front, ?_, ?_⟩
      · rw [lefts_behind, lefts, hlefts]
      · rw [spell_behind, spell, hspell]
        rfl
  | node tag body rest ihbody ihrest =>
      obtain ⟨front, inside, rfl, hinside⟩ := filterMap_getLeft_cons h
      obtain ⟨inBody, behind, rfl, hbody, hbehind⟩ := List.filterMap_eq_append_iff.mp hinside
      obtain ⟨between, last, rfl, hrest⟩ := filterMap_getLeft_cons hbehind
      obtain ⟨rest', hlefts, hspell⟩ := ihrest hrest
      have hbody' : (inBody ++ between.map Sum.inr).filterMap Sum.getLeft? = body.spell s := by
        rw [List.filterMap_append, hbody]
        simp
      obtain ⟨body', hlefts', hspell'⟩ := ihbody hbody'
      refine ⟨(node tag body' rest').behind front, ?_, ?_⟩
      · rw [lefts_behind, lefts, hlefts, hlefts']
      · rw [spell_behind, spell, hspell, hspell', List.append_assoc]
        rfl

end Nested

end GrpcEpub
