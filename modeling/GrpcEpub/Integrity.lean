/-
# `GrpcEpub.Integrity` — what a document without integrity errors is

The other direction of `Document`: from no complaint to the links.  The check compares the edges
that go down with those that go up, as sets.  So it establishes that an arena is `Checked`, and
no more: whether it is a forest, and whether an item's name says where it stands, is never asked
(`forest_iff`).
-/
import GrpcEpub.Fold
import GrpcEpub.Lib.Lineage

namespace GrpcEpub

open Arena

namespace Inventory

/-- What has been recorded is these nodes, each of which was in order. -/
structure Records (inventory : Inventory) (roots items : List (Node Str)) : Prop where
  rooted : roots.map Node.self = [bodyRef, furnitureRef]
  refs : inventory.refs.reverse = (roots ++ items).map Node.self
  distinct : inventory.refs.Nodup
  down : inventory.down = (roots ++ items).flatMap fun node =>
    node.children.map fun child => (node.self, child)
  named : ∀ item ∈ items, item.self ≠ []
  parented : ∀ item ∈ items, ∃ parent, item.parent = some parent ∧
    (item.self, parent) ∈ inventory.up

/-- As long as nothing is wrong, what has been recorded is these nodes. -/
def Tracks (self : Inventory) (roots items : List (Node Str)) : Prop :=
  self.errors = [] → self.Records roots items

variable {self : Inventory} {roots items : List (Node Str)}

theorem error_errors (self : Inventory) (error : IntegrityError) : (self.error error).errors ≠ [] :=
  List.append_ne_nil_of_right_ne_nil _ (List.cons_ne_nil _ _)

/-- An item that nothing is wrong with. -/
theorem item_errors {selfRef : Str} {children : List RefItem} {parent : Option RefItem}
    (h : (self.item selfRef children parent).errors = []) :
    self.errors = [] ∧ selfRef ≠ [] ∧ selfRef ∉ self.refs ∧ ∃ above, parent = some above ∧
      self.item selfRef children parent =
        { self with
          refs := selfRef :: self.refs
          down := self.down ++ children.map fun child => (selfRef, child.ref)
          up := self.up ++ [(selfRef, above.ref)] } := by
  unfold item at h ⊢
  by_cases hname : selfRef = []
  · rw [if_pos hname] at h
    exact absurd h (error_errors _ _)
  rw [if_neg hname] at h ⊢
  cases parent with
  | none => exact absurd h (error_errors _ _)
  | some above =>
      unfold insertRef at h ⊢
      by_cases hseen : selfRef ∈ self.refs
      · rw [if_pos hseen] at h
        exact absurd h (error_errors _ _)
      · rw [if_neg hseen] at h ⊢
        exact ⟨h, hname, hseen, above, rfl, rfl⟩

/-- One item: its reference, its children and its parent are recorded, or there is a complaint. -/
theorem Tracks.item (h : self.Tracks roots items) (selfRef : Str) (children : List RefItem)
    (parent : Option RefItem) :
    (self.item selfRef children parent).Tracks roots (items ++ [node selfRef children parent]) := by
  intro herrors
  obtain ⟨hself, hname, hseen, above, rfl, heq⟩ := item_errors herrors
  have hrecords := h hself
  rw [heq]
  refine ⟨hrecords.rooted, ?_, List.nodup_cons.mpr ⟨hseen, hrecords.distinct⟩, ?_, ?_, ?_⟩
  · change (selfRef :: self.refs).reverse = _
    have hself : [selfRef] = [node selfRef children (some above)].map Node.self := rfl
    rw [List.reverse_cons, hrecords.refs, hself, ← List.map_append, List.append_assoc]
  · change self.down ++ children.map _ = _
    have hchildren : children.map (fun child => (selfRef, child.ref)) =
        (node selfRef children (some above)).children.map fun child => (selfRef, child) :=
      List.map_map.symm
    rw [hrecords.down, ← List.append_assoc, hchildren]
    conv_rhs => rw [List.flatMap_append, List.flatMap_singleton]
    rfl
  · intro other hother
    rcases List.mem_append.mp hother with hold | hnew
    · exact hrecords.named other hold
    · rw [List.mem_singleton.mp hnew]
      exact hname
  · intro other hother
    rcases List.mem_append.mp hother with hold | hnew
    · obtain ⟨up, hparent, hup⟩ := hrecords.parented other hold
      exact ⟨up, hparent, List.mem_append_left _ hup⟩
    · rw [List.mem_singleton.mp hnew]
      exact ⟨above.ref, rfl, List.mem_append_right _ (List.mem_singleton_self _)⟩

theorem Tracks.text (h : self.Tracks roots items) (text : BaseTextItem) :
    (self.text text).Tracks roots (items ++ text.node?.toList) := by
  unfold Inventory.text BaseTextItem.node?
  cases textBase text with
  | none => exact fun herrors => absurd herrors (error_errors _ _)
  | some base => exact h.item base.1 base.2.1 base.2.2

/-- A whole arena. -/
theorem Tracks.foldl {α : Type} {step : Inventory → α → Inventory} {nodesOf : α → List (Node Str)}
    (hstep : ∀ {self : Inventory} {items : List (Node Str)} (a : α), self.Tracks roots items →
      (step self a).Tracks roots (items ++ nodesOf a)) (arena : List α)
    (h : self.Tracks roots items) :
    (arena.foldl step self).Tracks roots (items ++ arena.flatMap nodesOf) := by
  induction arena generalizing self items with
  | nil => simpa using h
  | cons a rest ih =>
      rw [List.foldl_cons, List.flatMap_cons, ← List.append_assoc]
      exact ih (hstep a h)

/-- The two roots, when they are there and go by their names. -/
theorem root_errors {rootRef : Str} {group : Option GroupItem}
    (h : (self.root rootRef group).errors = []) : self.errors = [] ∧ ∃ root, group = some root ∧
      root.selfRef = rootRef ∧ self.root rootRef group =
        { self with
          refs := if rootRef ∈ self.refs then self.refs else rootRef :: self.refs
          down := self.down ++ root.children.map fun child => (rootRef, child.ref) } := by
  cases group with
  | none => exact absurd h (error_errors _ _)
  | some root =>
      unfold Inventory.root at h ⊢
      dsimp only at h ⊢
      by_cases hname : root.selfRef = rootRef
      · rw [if_neg (not_not.mpr hname)] at h ⊢
        exact ⟨h, root, rfl, hname, rfl⟩
      · rw [if_pos hname] at h
        exact absurd h (error_errors _ _)

/-- The two roots are recorded first. -/
theorem tracks_roots (document : Document) : ((({} : Inventory).root bodyRef document.body).root
    furnitureRef document.furniture).Tracks document.roots [] := by
  intro h
  obtain ⟨hbody, furniture, hfurniture, hfurnitureRef, heq⟩ := root_errors h
  obtain ⟨-, body, hbody, hbodyRef, heq'⟩ := root_errors hbody
  rw [heq, heq']
  unfold Document.roots
  rw [hfurniture, hbody]
  have hrooted : [body.node, furniture.node].map Node.self = [bodyRef, furnitureRef] := by
    rw [← hbodyRef, ← hfurnitureRef]
    rfl
  rw [← hbodyRef, ← hfurnitureRef]
  have hother : furniture.selfRef ≠ body.selfRef := by
    rw [hbodyRef, hfurnitureRef]
    decide +kernel
  refine ⟨hrooted, ?_, ?_, ?_, fun item hitem => absurd hitem List.not_mem_nil,
    fun item hitem => absurd hitem List.not_mem_nil⟩
  · simp [hother]
  · simp [hother]
  · simp [GroupItem.node, GrpcEpub.node, Function.comp_def]

/-- The whole document. -/
theorem tracks_document (document : Document) : ∃ inventory : Inventory,
    integrityErrors document = inventory.finish ∧
      inventory.Tracks document.roots document.items := by
  refine ⟨_, rfl, ?_⟩
  have hgroups := (tracks_roots document).foldl (fun (group : GroupItem) h =>
    h.item group.selfRef group.children group.parent) document.groups
  have htexts := hgroups.foldl (fun (text : BaseTextItem) h => h.text text) document.texts
  have hpictures := htexts.foldl (fun (picture : PictureItem) h =>
    h.item picture.selfRef picture.children picture.parent) document.pictures
  have htables := hpictures.foldl (fun (table : TableItem) h =>
    h.item table.selfRef table.children table.parent) document.tables
  have hitems : document.items = [] ++ (document.groups.flatMap fun group => [group.node]) ++
      (document.texts.flatMap fun text => text.node?.toList) ++
      (document.pictures.flatMap fun picture => [picture.node]) ++
      document.tables.flatMap fun table => [table.node] := by
    unfold Document.items
    rw [List.nil_append, List.map_eq_flatMap, List.filterMap_eq_flatMap_toList,
      List.map_eq_flatMap, List.map_eq_flatMap]
  rw [hitems]
  exact htables

/-- What the last pass over the links adds to that. -/
theorem Records.checked {inventory : Inventory} (h : inventory.Records roots items)
    (hdown : inventory.down.flatMap inventory.checkDown = [])
    (hup : inventory.up.flatMap inventory.checkUp = []) : Checked roots items := by
  have hmem : ∀ ref, ref ∈ inventory.refs ↔ ref ∈ (roots ++ items).map Node.self := by
    intro ref
    rw [← h.refs, List.mem_reverse]
  refine ⟨?_, ?_, ?_⟩
  · rw [← h.refs]
    exact List.nodup_reverse.mpr h.distinct
  · intro child hchild
    obtain ⟨node, hnode, hchild⟩ := List.mem_flatMap.mp hchild
    have hedge : (node.self, child) ∈ inventory.down := by
      rw [h.down]
      exact List.mem_flatMap.mpr ⟨node, hnode, List.mem_map_of_mem hchild⟩
    have hfine := List.flatMap_eq_nil_iff.mp hdown _ hedge
    unfold checkDown at hfine
    by_contra hlost
    rw [if_pos fun hin => hlost ((hmem child).mp hin)] at hfine
    exact List.cons_ne_nil _ _ hfine
  · intro item hitem
    obtain ⟨parent, hparent, hedge⟩ := h.parented item hitem
    have hfine := List.flatMap_eq_nil_iff.mp hup _ hedge
    have hlisted : inventory.down.contains (parent, item.self) = true := by
      by_contra hlost
      unfold checkUp at hfine
      rw [if_pos (show (!inventory.down.contains (parent, item.self)) = true by
        rw [Bool.eq_false_of_not_eq_true hlost]; rfl)] at hfine
      split at hfine <;> exact List.cons_ne_nil _ _ hfine
    rw [List.contains_iff_mem, h.down] at hlisted
    obtain ⟨node, hnode, hchild⟩ := List.mem_flatMap.mp hlisted
    obtain ⟨child, hchild, heq⟩ := List.mem_map.mp hchild
    obtain ⟨hself, rfl⟩ := Prod.mk.inj heq
    exact ⟨parent, hparent, node, hnode, hself, hchild⟩

end Inventory

namespace Document

/-! ## What the README says that the check asserts

That a document is a forest and that positions are dense, beside what the check does assert; and
two groups that hold each other, which the check accepts. -/

/-- The names of an arena are `path` and the position, counted from zero. -/
def Numbered (path : Str) (names : List (Option Str)) : Prop :=
  names = (List.range names.length).map fun i => some (path ++ shown i)

instance (path : Str) (names : List (Option Str)) : Decidable (Numbered path names) :=
  inferInstanceAs (Decidable (_ = _))

/-- Every `self_ref` says where its item stands. -/
structure Dense (document : Document) : Prop where
  groups : Numbered groupPath (document.groups.map fun group => some group.selfRef)
  texts : Numbered "#/texts/" (document.texts.map fun text => (textBase text).map Prod.fst)
  pictures : Numbered picturePath (document.pictures.map fun picture => some picture.selfRef)
  tables : Numbered "#/tables/" (document.tables.map fun table => some table.selfRef)

/-- A fragment that is a forest, rooted at its body and its furniture. -/
structure IsForest (document : Document) : Prop where
  body : ∃ body, document.body = some body ∧ body.selfRef = bodyRef
  furniture : ∃ furniture, document.furniture = some furniture ∧ furniture.selfRef = furnitureRef
  named : ∀ item ∈ document.items, item.self ≠ []
  distinct : (document.nodes.map Node.self).Nodup
  dense : document.Dense
  resolved : ∀ child ∈ listed document.nodes, child ∈ document.items.map Node.self
  forest : Arena.Forest document.roots document.items

/-- A document that nothing is wrong with. -/
structure Accepted (document : Document) : Prop where
  body : ∃ body, document.body = some body ∧ body.selfRef = bodyRef
  furniture : ∃ furniture, document.furniture = some furniture ∧ furniture.selfRef = furnitureRef
  named : ∀ item ∈ document.items, item.self ≠ []
  checked : Checked document.roots document.items

/-- What a document without complaints is. -/
theorem accepted (document : Document) (h : integrityErrors document = []) :
    document.Accepted := by
  obtain ⟨inventory, heq, htracks⟩ := Inventory.tracks_document document
  rw [heq, Inventory.finish, List.append_eq_nil_iff, List.append_eq_nil_iff] at h
  obtain ⟨⟨herrors, hdown⟩, hup⟩ := h
  have hrecords := htracks herrors
  have hrooted := hrecords.rooted
  unfold roots at hrooted
  refine ⟨?_, ?_, hrecords.named, hrecords.checked hdown hup⟩
  all_goals
    cases hbody : document.body <;> cases hfurniture : document.furniture <;>
      simp [hbody, hfurniture] at hrooted
  · exact ⟨_, rfl, hrooted.1⟩
  · exact ⟨_, rfl, hrooted.2⟩

/-- A document that nothing is wrong with is a forest exactly when three things hold that nobody
asks for: the names are positions, there are as many listings as items, and no item is its own
ancestor. -/
theorem isForest_iff (document : Document) (h : integrityErrors document = []) :
    document.IsForest ↔ document.Dense ∧
      (listed document.nodes).length = document.items.length ∧ Acyclic document.items := by
  have haccepted := document.accepted h
  have hiff := haccepted.checked.forest_iff
  constructor
  · intro hforest
    exact ⟨hforest.dense, hiff.mp hforest.forest⟩
  · rintro ⟨hdense, hcount⟩
    have hforest := hiff.mpr hcount
    refine ⟨haccepted.body, haccepted.furniture, haccepted.named, haccepted.checked.distinct,
      hdense, fun child hchild => ?_, hforest⟩
    exact (haccepted.checked.listed_perm hforest).subset hchild

/-- A text item with this name, below this one. -/
def sproutText (selfRef parent : Str) : BaseTextItem :=
  { item := some (.text (some { selfRef, parent := some ⟨parent⟩ })) }

/-- A chapter with a section, in which there are a text and a picture, and a page number. -/
def sprout : Document where
  body := some { selfRef := bodyRef, children := [⟨"#/groups/0"⟩, ⟨"#/texts/1"⟩] }
  furniture := some { selfRef := furnitureRef, children := [⟨"#/texts/2"⟩] }
  groups := [
    { selfRef := "#/groups/0", parent := some ⟨bodyRef⟩, children := [⟨"#/groups/1"⟩] },
    { selfRef := "#/groups/1", parent := some ⟨"#/groups/0"⟩
      children := [⟨"#/texts/0"⟩, ⟨"#/pictures/0"⟩] }]
  texts := [sproutText "#/texts/0" "#/groups/1", sproutText "#/texts/1" bodyRef,
    sproutText "#/texts/2" furnitureRef]
  pictures := [
    { selfRef := "#/pictures/0", parent := some ⟨"#/groups/1"⟩, contentLayer := .body
      label := .picture, image := none, metadata := none, source := [] }]

/-- The names of `sprout`, the parents in front of their children. -/
def sproutNames : List Str :=
  [bodyRef, furnitureRef, "#/groups/0", "#/groups/1", "#/texts/0", "#/texts/1", "#/texts/2",
    "#/pictures/0"]

theorem sprout_isForest : sprout.IsForest := by
  refine (isForest_iff sprout (by decide +kernel)).mpr ⟨⟨?_, ?_, ?_, ?_⟩, ?_, ?_⟩
  · decide +kernel
  · decide +kernel
  · decide +kernel
  · decide +kernel
  · decide +kernel
  · exact @Arena.acyclic_of_rank _ _ (sproutNames.idxOf ·) (by decide +kernel)

/-- Two chapters, each the parent of the other. -/
def loop : Document where
  body := some { selfRef := bodyRef }
  furniture := some { selfRef := furnitureRef }
  groups := [
    { selfRef := "#/groups/0", parent := some ⟨"#/groups/1"⟩, children := [⟨"#/groups/1"⟩] },
    { selfRef := "#/groups/1", parent := some ⟨"#/groups/0"⟩, children := [⟨"#/groups/0"⟩] }]

/-- Each group is the other's parent and child, and there is nothing to complain about. -/
theorem loop_accepted : integrityErrors loop = [] ∧ ¬ loop.IsForest := by
  refine ⟨by decide +kernel, fun hforest => ?_⟩
  have hfirst : node "#/groups/0" [⟨"#/groups/1"⟩] (some ⟨"#/groups/1"⟩) ∈ loop.items :=
    List.mem_cons_self
  have hbare : ∀ root ∈ loop.roots, root.self ∉ loop.groups.map GroupItem.selfRef := by
    decide +kernel
  have hlisting : ∀ holder ∈ loop.nodes, holder.children ≠ [] →
      holder.self ∈ loop.groups.map GroupItem.selfRef := by
    decide +kernel
  obtain ⟨root, hroot, hreached⟩ := hforest.forest.reached _ hfirst
  rcases Relation.ReflTransGen.cases_head hreached with heq | ⟨child, hlists, -⟩
  · refine hbare root hroot ?_
    rw [heq]
    exact List.mem_cons_self
  · obtain ⟨holder, hholder, hself, hchild⟩ := hlists
    refine hbare root hroot ?_
    rw [← hself]
    exact hlisting holder hholder (List.ne_nil_of_mem hchild)

end Document

end GrpcEpub
