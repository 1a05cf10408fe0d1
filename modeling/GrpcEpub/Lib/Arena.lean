/-
# `GrpcEpub.Lib.Arena` — arenas whose links run both ways

An arena is a list of nodes.  A node names its parent and lists its children,
so each link is written down twice, and the two copies can disagree.  `Linked`
says that they do not, and that what has a parent hangs off the root.

`Linked.graft` is the one operation: a new node goes in below one that the root
already reaches.  What order the nodes are kept in does not matter.
-/
import Mathlib.Data.List.Perm.Basic
import Mathlib.Logic.Relation
import Mathlib.Tactic

namespace GrpcEpub

namespace Arena

/-- One node: its own name, the one its parent has, and those its children have. -/
structure Node (ρ : Type*) where
  self : ρ
  parent : Option ρ
  children : List ρ

variable {ρ : Type*}

/-- `parent` lists `child`. -/
def Lists (nodes : List (Node ρ)) (parent child : ρ) : Prop :=
  ∃ node ∈ nodes, node.self = parent ∧ child ∈ node.children

/-- `child` can be found by following children lists from `root`. -/
def Reaches (nodes : List (Node ρ)) (root child : ρ) : Prop :=
  Relation.ReflTransGen (Lists nodes) root child

/-- `child` stands exactly once in the children list. -/
def Node.ListsOnce [DecidableEq ρ] (node : Node ρ) (child : ρ) : Prop :=
  node.children.count child = 1

/-- Both copies of every link agree, each child is listed once, and every node
that has a parent is reached from `root`. -/
structure Linked [DecidableEq ρ] (root : ρ) (nodes : List (Node ρ)) : Prop where
  distinct : (nodes.map Node.self).Nodup
  listed : ∀ node ∈ nodes, ∀ parent ∈ node.parent,
    ∃ holder ∈ nodes, holder.self = parent ∧ holder.ListsOnce node.self
  claimed : ∀ holder ∈ nodes, ∀ child ∈ holder.children,
    ∃ node ∈ nodes, node.self = child ∧ node.parent = some holder.self
  reached : ∀ node ∈ nodes, node.parent.isSome → Reaches nodes root node.self

/-- More listings reach at least as much. -/
theorem Reaches.mono {nodes nodes' : List (Node ρ)}
    (h : ∀ x y, Lists nodes x y → Lists nodes' x y) {root child : ρ} :
    Reaches nodes root child → Reaches nodes' root child :=
  Relation.ReflTransGen.mono h root child

theorem Lists.perm {nodes nodes' : List (Node ρ)} (h : nodes.Perm nodes') (x y : ρ) :
    Lists nodes x y → Lists nodes' x y := by
  rintro ⟨node, hnode, hself, hy⟩
  exact ⟨node, h.subset hnode, hself, hy⟩

variable [DecidableEq ρ]

/-- A node, with one more child when it is the one asked for. -/
def Node.adopt (parent child : ρ) (node : Node ρ) : Node ρ :=
  if node.self = parent then { node with children := node.children ++ [child] } else node

@[simp] theorem Node.adopt_self (parent child : ρ) (node : Node ρ) :
    (node.adopt parent child).self = node.self := by
  unfold adopt
  split <;> rfl

@[simp] theorem Node.adopt_parent (parent child : ρ) (node : Node ρ) :
    (node.adopt parent child).parent = node.parent := by
  unfold adopt
  split <;> rfl

theorem Node.mem_adopt_children {parent child : ρ} {node : Node ρ} {x : ρ} :
    x ∈ (node.adopt parent child).children ↔
      x ∈ node.children ∨ (node.self = parent ∧ x = child) := by
  unfold adopt
  split <;> simp_all

/-- Nodes that go by other names are left alone. -/
theorem map_adopt {parent child : ρ} {nodes : List (Node ρ)}
    (h : parent ∉ nodes.map Node.self) : nodes.map (Node.adopt parent child) = nodes := by
  calc nodes.map (Node.adopt parent child)
      = nodes.map id := List.map_congr_left fun node hnode =>
          if_neg fun heq : node.self = parent => h (heq ▸ List.mem_map_of_mem hnode)
    _ = nodes := List.map_id nodes

/-- In an arena with distinct names, changing the one node by its position is
changing it by its name. -/
theorem map_modify {α : Type*} (toNode : α → Node ρ) (change : α → α) {child : ρ}
    (hchange : ∀ a, toNode (change a) = { toNode a with children := (toNode a).children ++ [child] })
    {items : List α} (hdistinct : ((items.map toNode).map Node.self).Nodup) {i : Nat}
    (hi : i < items.length) : (items.modify i change).map toNode =
      (items.map toNode).map (Node.adopt (toNode items[i]).self child) := by
  rw [List.map_map] at hdistinct
  refine List.ext_getElem (by simp) ?_
  intro j hj hj'
  simp only [List.length_map, List.length_modify] at hj hj'
  simp only [List.getElem_map, List.getElem_modify]
  by_cases heq : i = j
  · subst heq
    rw [if_pos rfl, Node.adopt, if_pos rfl, hchange]
  · rw [if_neg heq, Node.adopt, if_neg]
    intro hself
    have hlength : (items.map (Node.self ∘ toNode)).length = items.length := List.length_map _
    have hsame : (items.map (Node.self ∘ toNode))[j] = (items.map (Node.self ∘ toNode))[i] := by
      rw [List.getElem_map, List.getElem_map]
      exact hself
    exact heq (hdistinct.getElem_inj_iff.mp hsame).symm

/-- The arena with a new node `child` below `parent`. -/
def graft (parent child : ρ) (nodes : List (Node ρ)) : List (Node ρ) :=
  nodes.map (Node.adopt parent child) ++ [⟨child, some parent, []⟩]

variable {root parent child : ρ} {nodes nodes' : List (Node ρ)}

theorem mem_graft {node : Node ρ} : node ∈ graft parent child nodes ↔
    (∃ old ∈ nodes, old.adopt parent child = node) ∨ node = ⟨child, some parent, []⟩ := by
  simp [graft]

theorem lists_graft {x y : ρ} (h : Lists nodes x y) : Lists (graft parent child nodes) x y := by
  obtain ⟨node, hnode, rfl, hy⟩ := h
  exact ⟨node.adopt parent child, mem_graft.mpr (.inl ⟨node, hnode, rfl⟩), node.adopt_self ..,
    Node.mem_adopt_children.mpr (.inl hy)⟩

theorem reaches_graft {x y : ρ} (h : Reaches nodes x y) :
    Reaches (graft parent child nodes) x y :=
  h.mono fun _ _ => lists_graft

namespace Linked

theorem perm (hl : Linked root nodes) (h : nodes.Perm nodes') : Linked root nodes' where
  distinct := (h.map Node.self).nodup_iff.mp hl.distinct
  listed node hnode parent hparent := by
    obtain ⟨holder, hholder, hself, hcount⟩ := hl.listed node (h.symm.subset hnode) parent hparent
    exact ⟨holder, h.subset hholder, hself, hcount⟩
  claimed holder hholder child hchild := by
    obtain ⟨node, hnode, hself, hparent⟩ := hl.claimed holder (h.symm.subset hholder) child hchild
    exact ⟨node, h.subset hnode, hself, hparent⟩
  reached node hnode hparent :=
    (hl.reached node (h.symm.subset hnode) hparent).mono (Lists.perm h)

/-- Roots without children. -/
theorem of_roots (hdistinct : (nodes.map Node.self).Nodup)
    (hparent : ∀ node ∈ nodes, node.parent = none)
    (hchildren : ∀ node ∈ nodes, node.children = []) : Linked root nodes where
  distinct := hdistinct
  listed node hnode parent hp := absurd hp (by rw [hparent node hnode]; exact Option.not_mem_none _)
  claimed holder hholder child hchild :=
    absurd hchild (by rw [hchildren holder hholder]; exact List.not_mem_nil)
  reached node hnode hp := absurd hp (by rw [hparent node hnode]; exact Bool.false_ne_true)

/-- A parent lists its child. -/
theorem lists (hl : Linked root nodes) {node : Node ρ} (hnode : node ∈ nodes)
    (hparent : node.parent = some parent) : Lists nodes parent node.self := by
  obtain ⟨holder, hholder, hself, hcount⟩ := hl.listed node hnode parent hparent
  exact ⟨holder, hholder, hself, List.count_pos_iff.mp (Nat.lt_of_lt_of_eq Nat.one_pos hcount.symm)⟩

/-- A name that no node has is listed by none. -/
theorem not_listed (hl : Linked root nodes) (hfresh : child ∉ nodes.map Node.self)
    {node : Node ρ} (hnode : node ∈ nodes) : child ∉ node.children := by
  intro hchild
  obtain ⟨owner, howner, rfl, -⟩ := hl.claimed node hnode child hchild
  exact hfresh (List.mem_map_of_mem howner)

/-- A new node below one that is reached. -/
theorem graft (hl : Linked root nodes) (hparent : parent ∈ nodes.map Node.self)
    (hreached : Reaches nodes root parent) (hfresh : child ∉ nodes.map Node.self) :
    Linked root (graft parent child nodes) := by
  obtain ⟨holder, hholder, hself⟩ := List.mem_map.mp hparent
  have hold : ∀ node ∈ nodes, node.self ≠ child := fun node hnode heq =>
    hfresh (heq ▸ List.mem_map_of_mem hnode)
  have hlists : Lists (Arena.graft parent child nodes) parent child :=
    ⟨holder.adopt parent child, mem_graft.mpr (.inl ⟨holder, hholder, rfl⟩),
      (holder.adopt_self ..).trans hself, Node.mem_adopt_children.mpr (.inr ⟨hself, rfl⟩)⟩
  refine ⟨?_, ?_, ?_, ?_⟩
  · have hmap : (Arena.graft parent child nodes).map Node.self = nodes.map Node.self ++ [child] := by
      simp [Arena.graft, Function.comp_def]
    rw [hmap]
    exact List.nodup_append.mpr ⟨hl.distinct, List.nodup_singleton _, by
      rintro x hx y hy rfl
      exact hfresh (List.mem_singleton.mp hy ▸ hx)⟩
  · -- who lists a node: its holder, with one child more, or the new node's
    intro node hnode p hp
    rcases mem_graft.mp hnode with ⟨old, hmem, rfl⟩ | rfl
    · rw [Node.adopt_parent] at hp
      obtain ⟨owner, howner, hname, hcount⟩ := hl.listed old hmem p hp
      refine ⟨owner.adopt parent child, mem_graft.mpr (.inl ⟨owner, howner, rfl⟩),
        (owner.adopt_self ..).trans hname, ?_⟩
      rw [Node.adopt_self, Node.ListsOnce]
      unfold Node.adopt
      split
      · rw [List.count_append, show owner.children.count old.self = 1 from hcount,
          List.count_singleton, if_neg (by simpa using (hold old hmem).symm)]
      · exact hcount
    · obtain rfl := Option.some.inj hp
      refine ⟨holder.adopt parent child, mem_graft.mpr (.inl ⟨holder, hholder, rfl⟩),
        (holder.adopt_self ..).trans hself, ?_⟩
      rw [Node.ListsOnce, Node.adopt, if_pos hself, List.count_append,
        List.count_eq_zero.mpr (hl.not_listed hfresh hholder)]
      simp
  · -- whom a node lists
    intro node hnode x hx
    rcases mem_graft.mp hnode with ⟨old, hmem, rfl⟩ | rfl
    · rcases Node.mem_adopt_children.mp hx with hx | ⟨hname, rfl⟩
      · obtain ⟨owner, howner, hname, hp⟩ := hl.claimed old hmem x hx
        exact ⟨owner.adopt parent child, mem_graft.mpr (.inl ⟨owner, howner, rfl⟩),
          (owner.adopt_self ..).trans hname, by rw [Node.adopt_parent, Node.adopt_self, hp]⟩
      · exact ⟨_, mem_graft.mpr (.inr rfl), rfl, by rw [Node.adopt_self, hname]⟩
    · exact absurd hx (List.not_mem_nil)
  · -- what is reached: everything that was, and the new node through its parent
    intro node hnode hp
    rcases mem_graft.mp hnode with ⟨old, hmem, rfl⟩ | rfl
    · rw [Node.adopt_parent] at hp
      rw [Node.adopt_self]
      exact reaches_graft (hl.reached old hmem hp)
    · exact Relation.ReflTransGen.tail (reaches_graft hreached) hlists

/-- `graft`, where the new node may stand anywhere before its parent lists it. -/
theorem grow (hl : Linked root nodes) (hparent : parent ∈ nodes.map Node.self)
    (hreached : Reaches nodes root parent) (hfresh : child ∉ nodes.map Node.self)
    (hnodes : nodes'.Perm (nodes ++ [⟨child, some parent, []⟩])) :
    Linked root (nodes'.map (Node.adopt parent child)) := by
  have hne : child ≠ parent := fun heq => hfresh (heq ▸ hparent)
  refine (hl.graft hparent hreached hfresh).perm ?_
  have hmap := hnodes.symm.map (Node.adopt parent child)
  rw [List.map_append, List.map_singleton, Node.adopt, if_neg hne] at hmap
  exact hmap

end Linked

end Arena

end GrpcEpub
