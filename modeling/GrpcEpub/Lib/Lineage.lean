/-
# `GrpcEpub.Lib.Lineage` — when parents and children make a forest

Of an arena it is easy to check that names are distinct, that what is listed is there, and that
each item is listed by its parent (`Checked`).  That is not yet a forest: an item can be listed
twice, or by someone else as well, a root can be listed, and items can be each other's parents.
Two things are enough to rule all of it out: there are as many listings as items, and no item is
its own ancestor (`Checked.forest_iff`).
-/
import Mathlib.Data.Fintype.Card
import Mathlib.Data.Fintype.List
import GrpcEpub.Lib.Arena

namespace GrpcEpub

namespace Arena

variable {ρ : Type*}

/-- Every children list, one after the other. -/
def listed (nodes : List (Node ρ)) : List ρ := nodes.flatMap Node.children

/-- Both copies of every link have been looked at. -/
structure Checked (roots items : List (Node ρ)) : Prop where
  distinct : ((roots ++ items).map Node.self).Nodup
  resolved : ∀ child ∈ listed (roots ++ items), child ∈ (roots ++ items).map Node.self
  parented : ∀ item ∈ items, ∃ parent, item.parent = some parent ∧
    Lists (roots ++ items) parent item.self

/-- An item names its parent. -/
def ParentOf (items : List (Node ρ)) (parent child : ρ) : Prop :=
  ∃ item ∈ items, item.self = child ∧ item.parent = some parent

/-- Nothing is its own ancestor. -/
def Acyclic (items : List (Node ρ)) : Prop :=
  ∀ name, ¬ Relation.TransGen (ParentOf items) name name

variable {roots items nodes : List (Node ρ)}

/-- Nothing is its own ancestor where every parent ranks below its child. -/
theorem acyclic_of_rank {rank : ρ → Nat}
    (h : ∀ item ∈ items, ∀ parent ∈ item.parent, rank parent < rank item.self) :
    Acyclic items := by
  have hrises : ∀ ancestor child, Relation.TransGen (ParentOf items) ancestor child →
      rank ancestor < rank child := by
    intro ancestor child hpath
    induction hpath with
    | single hstep =>
        obtain ⟨item, hitem, rfl, hparent⟩ := hstep
        exact h item hitem _ hparent
    | tail _ hstep ih =>
        obtain ⟨item, hitem, rfl, hparent⟩ := hstep
        exact ih.trans (h item hitem _ hparent)
  exact fun name hcycle => lt_irrefl _ (hrises name name hcycle)

theorem mem_listed {child : ρ} : child ∈ listed nodes ↔ ∃ parent, Lists nodes parent child := by
  unfold listed Lists
  rw [List.mem_flatMap]
  constructor
  · rintro ⟨node, hnode, hchild⟩
    exact ⟨node.self, node, hnode, rfl, hchild⟩
  · rintro ⟨_, node, hnode, -, hchild⟩
    exact ⟨node, hnode, hchild⟩

namespace Checked

variable (h : Checked roots items)

include h

theorem root_ne_item {root item : Node ρ} (hroot : root ∈ roots) (hitem : item ∈ items) :
    root.self ≠ item.self := by
  have hdistinct := h.distinct
  rw [List.map_append] at hdistinct
  exact (List.nodup_append.mp hdistinct).2.2 _ (List.mem_map_of_mem hroot) _
    (List.mem_map_of_mem hitem)

theorem item_listed {item : Node ρ} (hitem : item ∈ items) :
    item.self ∈ listed (roots ++ items) := by
  obtain ⟨parent, -, hlists⟩ := h.parented item hitem
  exact mem_listed.mpr ⟨parent, hlists⟩

end Checked

variable [DecidableEq ρ]

/-- Each item is listed once, by the parent it names, and hangs off a root. -/
structure Forest (roots items : List (Node ρ)) : Prop where
  once : ∀ item ∈ items, (listed (roots ++ items)).count item.self = 1
  parented : ∀ item ∈ items, ∃ parent, item.parent = some parent ∧
    Lists (roots ++ items) parent item.self
  unlisted : ∀ root ∈ roots, root.self ∉ listed (roots ++ items)
  reached : ∀ item ∈ items, ∃ root ∈ roots, Reaches (roots ++ items) root.self item.self

/-- What is listed once has one holder. -/
theorem lists_unique {child p q : ρ} (hcount : (listed nodes).count child = 1)
    (hp : Lists nodes p child) (hq : Lists nodes q child) : p = q := by
  obtain ⟨a, ha, rfl, hchild⟩ := hp
  obtain ⟨b, hb, rfl, hchild'⟩ := hq
  by_contra hne
  obtain ⟨before, after, rfl⟩ := List.append_of_mem ha
  have hother : b ∈ before ++ after := by
    rcases List.mem_append.mp hb with hb | hb
    · exact List.mem_append_left _ hb
    · rcases List.mem_cons.mp hb with rfl | hb
      · exact absurd rfl hne
      · exact List.mem_append_right _ hb
  have hfirst : 0 < a.children.count child := List.count_pos_iff.mpr hchild
  have hsecond : 0 < (listed (before ++ after)).count child :=
    List.count_pos_iff.mpr (List.mem_flatMap.mpr ⟨b, hother, hchild'⟩)
  unfold listed at hcount hsecond
  rw [List.flatMap_append, List.flatMap_cons, List.count_append, List.count_append] at hcount
  rw [List.flatMap_append, List.count_append] at hsecond
  omega

namespace Checked

variable (h : Checked roots items)

include h

/-- A forest lists its items and nothing else. -/
theorem listed_perm (hforest : Forest roots items) :
    (listed (roots ++ items)).Perm (items.map Node.self) := by
  have hmem : ∀ child, child ∈ listed (roots ++ items) ↔ child ∈ items.map Node.self := by
    intro child
    constructor
    · intro hchild
      obtain ⟨node, hnode, rfl⟩ := List.mem_map.mp (h.resolved child hchild)
      rcases List.mem_append.mp hnode with hroot | hitem
      · exact absurd hchild (hforest.unlisted node hroot)
      · exact List.mem_map_of_mem hitem
    · intro hchild
      obtain ⟨item, hitem, rfl⟩ := List.mem_map.mp hchild
      exact h.item_listed hitem
  have hnodup : (listed (roots ++ items)).Nodup := by
    refine List.nodup_iff_count_le_one.mpr fun child => ?_
    by_cases hchild : child ∈ listed (roots ++ items)
    · obtain ⟨item, hitem, rfl⟩ := List.mem_map.mp ((hmem child).mp hchild)
      exact (hforest.once item hitem).le
    · exact (List.count_eq_zero.mpr hchild).le.trans (Nat.zero_le _)
  have hdistinct := h.distinct
  rw [List.map_append] at hdistinct
  exact (List.perm_ext_iff_of_nodup hnodup hdistinct.of_append_right).mpr hmem

/-- Nothing that hangs off a root is its own ancestor: a root has no parent, and what is listed
once is listed by its parent. -/
theorem not_ancestor_of_reached (hforest : Forest roots items) {root : Node ρ}
    (hroot : root ∈ roots) {name : ρ} (hreached : Reaches (roots ++ items) root.self name) :
    ¬ Relation.TransGen (ParentOf items) name name := by
  induction hreached with
  | refl =>
      intro hcycle
      obtain ⟨parent, -, item, hitem, hself, -⟩ := Relation.TransGen.tail'_iff.mp hcycle
      exact h.root_ne_item hroot hitem hself.symm
  | @tail holder child _ hlists ih =>
      intro hcycle
      obtain ⟨parent, hback, item, hitem, rfl, hparent⟩ := Relation.TransGen.tail'_iff.mp hcycle
      obtain ⟨parent', hparent', hlists'⟩ := hforest.parented item hitem
      obtain rfl := Option.some.inj (hparent.symm.trans hparent')
      obtain rfl := lists_unique (hforest.once item hitem) hlists hlists'
      exact ih (Relation.TransGen.head' ⟨item, hitem, rfl, hparent⟩ hback)

/-- Where no item is its own ancestor, following the parents ends at a root. -/
theorem reached_of_acyclic (hacyclic : Acyclic items) {item : Node ρ} (hitem : item ∈ items) :
    ∃ root ∈ roots, Reaches (roots ++ items) root.self item.self := by
  let ancestor (a b : { name // name ∈ (roots ++ items).map Node.self }) : Prop :=
    Relation.TransGen (ParentOf items) a.1 b.1
  have : IsTrans _ ancestor := ⟨fun _ _ _ => Relation.TransGen.trans⟩
  have : Std.Irrefl ancestor := ⟨fun a => hacyclic a.1⟩
  have hwf : WellFounded ancestor := Finite.wellFounded_of_trans_of_irrefl ancestor
  suffices hall : ∀ a : { name // name ∈ (roots ++ items).map Node.self }, ∀ item ∈ items,
      item.self = a.1 → ∃ root ∈ roots, Reaches (roots ++ items) root.self item.self from
    hall ⟨item.self, List.mem_map_of_mem (List.mem_append_right _ hitem)⟩ item hitem rfl
  intro a
  induction a using hwf.induction with
  | h a ih =>
      intro item hitem hself
      obtain ⟨parent, hparent, hlists⟩ := h.parented item hitem
      obtain ⟨holder, hholder, rfl, hchild⟩ := hlists
      have hlists : Lists (roots ++ items) holder.self item.self := ⟨holder, hholder, rfl, hchild⟩
      rcases List.mem_append.mp hholder with hroot | hholder'
      · exact ⟨holder, hroot, .single hlists⟩
      · have hparentOf : ParentOf items holder.self a.1 := ⟨item, hitem, hself, hparent⟩
        obtain ⟨root, hroot, hreached⟩ := ih ⟨holder.self, List.mem_map_of_mem hholder⟩
          (.single hparentOf) holder hholder' rfl
        exact ⟨root, hroot, hreached.tail hlists⟩

/-- What the check leaves open is a count and a cycle. -/
theorem forest_iff : Forest roots items ↔
    (listed (roots ++ items)).length = items.length ∧ Acyclic items := by
  constructor
  · intro hforest
    refine ⟨(h.listed_perm hforest).length_eq.trans (List.length_map _), fun name hcycle => ?_⟩
    obtain ⟨parent, -, item, hitem, rfl, -⟩ := Relation.TransGen.tail'_iff.mp hcycle
    obtain ⟨root, hroot, hreached⟩ := hforest.reached item hitem
    exact h.not_ancestor_of_reached hforest hroot hreached hcycle
  · rintro ⟨hlength, hacyclic⟩
    have hdistinct := h.distinct
    rw [List.map_append] at hdistinct
    have hsub : (items.map Node.self).Subperm (listed (roots ++ items)) := by
      refine List.subperm_of_subset hdistinct.of_append_right fun name hname => ?_
      obtain ⟨item, hitem, rfl⟩ := List.mem_map.mp hname
      exact h.item_listed hitem
    have hperm : (items.map Node.self).Perm (listed (roots ++ items)) :=
      hsub.perm_of_length_le (hlength.le.trans (List.length_map _).ge)
    refine ⟨fun item hitem => ?_, h.parented, fun root hroot hlisted => ?_,
      fun item => h.reached_of_acyclic hacyclic⟩
    · rw [← hperm.count_eq]
      exact List.count_eq_one_of_mem hdistinct.of_append_right (List.mem_map_of_mem hitem)
    · obtain ⟨item, hitem, hself⟩ := List.mem_map.mp (hperm.mem_iff.mpr hlisted)
      exact h.root_ne_item hroot hitem hself.symm

end Checked

end Arena

end GrpcEpub
