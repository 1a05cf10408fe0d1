/-
# `GrpcEpub.Fragment` — what the fold hands back is a consistent fragment

Items are named by their position, as text, and a group is found again by
reading that text.  The fold keeps the names dense, so the reading never misses
and never falls back to the body; each new item then goes in as a graft onto an
arena that was linked before, and everything else the fold does leaves the
links alone.

`Sound` says three things of the fold's document.  Its names are `Named`: the n-th group is
called `#/groups/n`, and the pictures alike.  Every item has a parent.  And the links, read as an
arena over the names, are `Linked` from the body.  A step that adds an item adds it as a last
child of a `Holder`, so what was linked is extended by a leaf.
-/
import GrpcEpub.Fold

namespace GrpcEpub

/-- Reading a number back from how it is shown. -/
theorem parseIndex_shown (n : Nat) : Document.parseIndex (shown n) = some n := by
  have hshown : shown n = Nat.toDigits 10 n := by
    rw [shown, Nat.toString_eq_ofList_toDigits, String.toList_ofList]
  have hdigit : ∀ c ∈ Nat.toDigits 10 n, Datetime.isDigit c = true := fun c hc => by
    have := Nat.isDigit_of_mem_toDigits (by decide) (by decide) hc
    simpa [Datetime.isDigit, Char.isDigit, Char.le_def] using this
  have hhead : (Nat.toDigits 10 n).head? ≠ some '+' := fun h =>
    absurd (hdigit '+' (List.mem_of_mem_head? h)) (by decide)
  rw [Document.parseIndex, hshown, if_neg hhead, if_neg]
  · exact congrArg some Nat.ofDigitChars_ten_toDigits
  · simpa [Nat.toDigits_ne_nil] using hdigit

theorem shown_injective : Function.Injective shown := fun m n h => by
  have hread := parseIndex_shown m
  rw [h, parseIndex_shown] at hread
  exact (Option.some.inj hread).symm

namespace Document

/-- The `self_ref` of the group at a position. -/
def groupRef (i : Nat) : Str := groupPath ++ shown i

/-- The `self_ref` of the picture at a position. -/
def pictureRef (i : Nat) : Str := picturePath ++ shown i

theorem groupRef_injective : Function.Injective groupRef := fun _ _ h =>
  shown_injective (List.append_cancel_left h)

theorem pictureRef_injective : Function.Injective pictureRef := fun _ _ h =>
  shown_injective (List.append_cancel_left h)

/-- The character that tells the four kinds of name apart. -/
def kindOf (ref : Str) : Option Char := ref[2]?

@[simp] theorem kindOf_groupRef (i : Nat) : kindOf (groupRef i) = some 'g' := rfl

@[simp] theorem kindOf_pictureRef (i : Nat) : kindOf (pictureRef i) = some 'p' := rfl

@[simp] theorem kindOf_bodyRef : kindOf bodyRef = some 'b' := rfl

@[simp] theorem kindOf_furnitureRef : kindOf furnitureRef = some 'f' := rfl

theorem ne_of_kindOf {ref ref' : Str} (h : kindOf ref ≠ kindOf ref') : ref ≠ ref' :=
  fun heq => h (congrArg kindOf heq)

theorem groupRef_ne_pictureRef (i j : Nat) : groupRef i ≠ pictureRef j := ne_of_kindOf (by simp)

theorem groupRef_ne_bodyRef (i : Nat) : groupRef i ≠ bodyRef := ne_of_kindOf (by simp)

theorem groupRef_ne_furnitureRef (i : Nat) : groupRef i ≠ furnitureRef := ne_of_kindOf (by simp)

theorem pictureRef_ne_bodyRef (i : Nat) : pictureRef i ≠ bodyRef := ne_of_kindOf (by simp)

theorem pictureRef_ne_furnitureRef (i : Nat) : pictureRef i ≠ furnitureRef :=
  ne_of_kindOf (by simp)

/-- A group is found by its name. -/
theorem groupIndex_groupRef {document : Document} {i : Nat} (hi : i < document.groups.length) :
    document.groupIndex (groupRef i) = some i := by
  have hstarts : (groupRef i).startsWith groupPath = true := by
    rw [Str.startsWith, groupRef]
    exact List.isPrefixOf_iff_prefix.mpr (List.prefix_append _ _)
  have hdrop : (groupRef i).drop groupPath.length = shown i := by
    rw [groupRef, List.drop_left]
  rw [groupIndex, if_pos hstarts, hdrop, parseIndex_shown]
  exact if_pos hi

/-- What goes on the body needs no looking up. -/
theorem modifyGroup_bodyRef (change : GroupItem → GroupItem) (document : Document) :
    document.modifyGroup bodyRef change = { document with
      body := some (change (document.body.getD (Fold.root bodyRef .body))) } := rfl

/-! ## Dense names

A name is read back by `groupIndex`, and the next free name is in nobody's list yet. -/

/-- Both roots are there, and every other item is named by its position. -/
structure Named (document : Document) : Prop where
  body : ∃ body, document.body = some body ∧ body.selfRef = bodyRef ∧ body.parent = none
  furniture : ∃ furniture, document.furniture = some furniture ∧
    furniture.selfRef = furnitureRef ∧ furniture.parent = none
  groups : document.groups.map GroupItem.selfRef =
    (List.range document.groups.length).map groupRef
  pictures : document.pictures.map PictureItem.selfRef =
    (List.range document.pictures.length).map pictureRef
  texts : document.texts = []
  tables : document.tables = []

variable {document document' : Document}

namespace Named

theorem roots (h : document.Named) :
    document.roots.map Arena.Node.self = [bodyRef, furnitureRef] := by
  obtain ⟨body, hbody, hname, -⟩ := h.body
  obtain ⟨furniture, hfurniture, hname', -⟩ := h.furniture
  simp [Document.roots, hbody, hfurniture, GroupItem.node, node, hname, hname']

theorem items (h : document.Named) : document.items =
    document.groups.map GroupItem.node ++ document.pictures.map PictureItem.node := by
  simp [Document.items, h.texts, h.tables]

theorem roots_parent (h : document.Named) : ∀ root ∈ document.roots, root.parent = none := by
  obtain ⟨body, hbody, -, hparent⟩ := h.body
  obtain ⟨furniture, hfurniture, -, hparent'⟩ := h.furniture
  simp [Document.roots, hbody, hfurniture, GroupItem.node, node, hparent, hparent']

theorem itemNames (h : document.Named) : document.items.map Arena.Node.self =
    (List.range document.groups.length).map groupRef ++
      (List.range document.pictures.length).map pictureRef := by
  rw [h.items, List.map_append, List.map_map, List.map_map, ← h.groups, ← h.pictures]
  rfl

theorem groupNames_nodup (h : document.Named) :
    ((document.groups.map GroupItem.node).map Arena.Node.self).Nodup := by
  rw [List.map_map, show Arena.Node.self ∘ GroupItem.node = GroupItem.selfRef from rfl, h.groups]
  exact List.nodup_range.map groupRef_injective

/-- No item is named like a root. -/
theorem root_not_item (h : document.Named) {ref : Str} (hroot : ref = bodyRef ∨ ref = furnitureRef) :
    ref ∉ document.items.map Arena.Node.self := by
  rw [h.itemNames, List.mem_append]
  rintro (hin | hin)
  · obtain ⟨i, -, rfl⟩ := List.mem_map.mp hin
    exact hroot.elim (groupRef_ne_bodyRef i) (groupRef_ne_furnitureRef i)
  · obtain ⟨i, -, rfl⟩ := List.mem_map.mp hin
    exact hroot.elim (pictureRef_ne_bodyRef i) (pictureRef_ne_furnitureRef i)

theorem item_ne_nil (h : document.Named) : ∀ item ∈ document.items, item.self ≠ [] := by
  intro item hitem
  have hname := List.mem_map_of_mem (f := Arena.Node.self) hitem
  rw [h.itemNames, List.mem_append] at hname
  rcases hname with hname | hname
  · obtain ⟨i, -, hi⟩ := List.mem_map.mp hname
    exact hi ▸ List.cons_ne_nil _ _
  · obtain ⟨i, -, hi⟩ := List.mem_map.mp hname
    exact hi ▸ List.cons_ne_nil _ _

theorem nextGroup_fresh (h : document.Named) :
    document.nextGroup ∉ document.nodes.map Arena.Node.self := by
  rw [nodes, List.map_append, h.roots, h.itemNames]
  simp only [List.cons_append, List.nil_append, List.mem_cons, List.mem_append, List.mem_map,
    List.mem_range, not_or, not_exists, not_and]
  refine ⟨groupRef_ne_bodyRef _, groupRef_ne_furnitureRef _, fun i hi heq => ?_, fun i _ heq => ?_⟩
  · exact hi.ne (groupRef_injective heq)
  · exact groupRef_ne_pictureRef _ i heq.symm

theorem nextPicture_fresh (h : document.Named) :
    document.nextPicture ∉ document.nodes.map Arena.Node.self := by
  rw [nodes, List.map_append, h.roots, h.itemNames]
  simp only [List.cons_append, List.nil_append, List.mem_cons, List.mem_append, List.mem_map,
    List.mem_range, not_or, not_exists, not_and]
  refine ⟨pictureRef_ne_bodyRef _, pictureRef_ne_furnitureRef _, fun i _ heq => ?_,
    fun i hi heq => ?_⟩
  · exact groupRef_ne_pictureRef i _ heq
  · exact hi.ne (pictureRef_injective heq)

end Named

/-! ## Changing one group

Most steps change a group in a way that leaves its links alone (`SameLinks`).  The other kind
lists one more child on a group, or on the body. -/

/-- The two documents have the same links, item by item. -/
structure SameLinks (document document' : Document) : Prop where
  body : document'.body.map GroupItem.node = document.body.map GroupItem.node
  furniture : document'.furniture.map GroupItem.node = document.furniture.map GroupItem.node
  groups : document'.groups.map GroupItem.node = document.groups.map GroupItem.node
  pictures : document'.pictures = document.pictures
  texts : document'.texts = document.texts
  tables : document'.tables = document.tables

namespace SameLinks

theorem refl (document : Document) : SameLinks document document := ⟨rfl, rfl, rfl, rfl, rfl, rfl⟩

theorem trans {document'' : Document} (h : SameLinks document document')
    (h' : SameLinks document' document'') : SameLinks document document'' where
  body := h'.body.trans h.body
  furniture := h'.furniture.trans h.furniture
  groups := h'.groups.trans h.groups
  pictures := h'.pictures.trans h.pictures
  texts := h'.texts.trans h.texts
  tables := h'.tables.trans h.tables

theorem items (h : SameLinks document document') : document'.items = document.items := by
  rw [Document.items, Document.items, h.groups, h.pictures, h.texts, h.tables]

theorem nodes (h : SameLinks document document') : document'.nodes = document.nodes := by
  have hoption : ∀ group : Option GroupItem,
      group.toList.map GroupItem.node = (group.map GroupItem.node).toList := by
    rintro (_ | group) <;> rfl
  rw [Document.nodes, Document.nodes, h.items, Document.roots, Document.roots, hoption, hoption,
    hoption, hoption, h.body, h.furniture]

end SameLinks

namespace Named

/-- Dense names are a matter of the links alone. -/
theorem of_same (h : document.Named) (hsame : SameLinks document document') :
    document'.Named := by
  have hroot : ∀ (group : GroupItem) (group' : Option GroupItem) (ref : Str),
      group'.map GroupItem.node = some group.node → group.selfRef = ref → group.parent = none →
      ∃ root, group' = some root ∧ root.selfRef = ref ∧ root.parent = none := by
    rintro group (_ | root) ref hnode rfl hparent
    · cases hnode
    · have heq := Option.some.inj hnode
      have hnone : root.parent.map RefItem.ref = group.parent.map RefItem.ref :=
        congrArg Arena.Node.parent heq
      rw [hparent] at hnone
      exact ⟨root, rfl, congrArg Arena.Node.self heq, Option.map_eq_none_iff.mp hnone⟩
  have hlength : document'.groups.length = document.groups.length := by
    simpa using congrArg List.length hsame.groups
  obtain ⟨body, hbody, hname, hparent⟩ := h.body
  obtain ⟨furniture, hfurniture, hname', hparent'⟩ := h.furniture
  refine ⟨hroot body _ _ (by rw [hsame.body, hbody]; rfl) hname hparent,
    hroot furniture _ _ (by rw [hsame.furniture, hfurniture]; rfl) hname' hparent', ?_, ?_,
    hsame.texts.trans h.texts, hsame.tables.trans h.tables⟩
  · have hselves := congrArg (List.map Arena.Node.self) hsame.groups
    rw [List.map_map, List.map_map] at hselves
    rw [hlength, ← h.groups]
    exact hselves
  · rw [hsame.pictures]
    exact h.pictures

theorem push_node (child : Str) (group : GroupItem) : (group.push child).node =
    { group.node with children := group.node.children ++ [child] } := by
  simp [GroupItem.push, GroupItem.node, node]

theorem modify_body (h : document.Named) (change : GroupItem → GroupItem) :
    ∃ body, document.body = some body ∧
      document.modifyGroup bodyRef change = { document with body := some (change body) } := by
  obtain ⟨body, hbody, -⟩ := h.body
  refine ⟨body, hbody, ?_⟩
  rw [modifyGroup_bodyRef, hbody]
  rfl

theorem modify_group {i : Nat} (hi : i < document.groups.length)
    (change : GroupItem → GroupItem) : document.modifyGroup (groupRef i) change =
      { document with groups := document.groups.modify i change } := by
  rw [modifyGroup, if_neg (groupRef_ne_furnitureRef i), groupIndex_groupRef hi]

/-- Changing what a group says about itself, whichever group it is. -/
theorem same_modifyGroup (h : document.Named) (ref : Str) (change : GroupItem → GroupItem)
    (hchange : ∀ group, (change group).node = group.node) :
    SameLinks document (document.modifyGroup ref change) := by
  obtain ⟨body, hbody, -⟩ := h.body
  obtain ⟨furniture, hfurniture, -⟩ := h.furniture
  unfold modifyGroup
  split
  · exact ⟨rfl, by rw [hfurniture]; exact congrArg some (hchange furniture), rfl, rfl, rfl, rfl⟩
  · split
    · rename_i index _
      refine ⟨rfl, rfl, ?_, rfl, rfl, rfl⟩
      refine List.ext_getElem (by simp) ?_
      intro j hj hj'
      simp only [List.getElem_map, List.getElem_modify]
      split
      · exact hchange _
      · rfl
    · exact ⟨by rw [hbody]; exact congrArg some (hchange body), rfl, rfl, rfl, rfl, rfl⟩

end Named

/-- A group that can hold pictures: the body, or a chapter's group. -/
def Holder (document : Document) (ref : Str) : Prop :=
  ref = bodyRef ∨ ∃ i < document.groups.length, ref = groupRef i

/-- Listing a child on the body. -/
theorem Named.link_body (h : document.Named) (child : Str) :
    (document.linkChild bodyRef child).Named ∧
      (document.linkChild bodyRef child).roots =
        document.roots.map (Arena.Node.adopt bodyRef child) ∧
      (document.linkChild bodyRef child).items =
        document.items.map (Arena.Node.adopt bodyRef child) := by
  obtain ⟨body, hbody, hname, hparent⟩ := h.body
  obtain ⟨found, hfound, hlink⟩ :=
    h.modify_body (.push child)
  obtain rfl := Option.some.inj (hbody.symm.trans hfound)
  obtain ⟨furniture, hfurniture, hname', -⟩ := h.furniture
  rw [linkChild, hlink]
  refine ⟨⟨⟨_, rfl, hname, hparent⟩, h.furniture, h.groups, h.pictures, h.texts, h.tables⟩, ?_, ?_⟩
  · have hne : furniture.node.self ≠ bodyRef := by
      rw [show furniture.node.self = furnitureRef from hname']
      exact ne_of_kindOf (by simp)
    have hadopt : furniture.node.adopt bodyRef child = furniture.node := if_neg hne
    have hadopt' : body.node.adopt bodyRef child = (body.push child).node :=
      (if_pos hname).trans (push_node child body).symm
    simp only [Document.roots, hbody, hfurniture, Option.toList_some, List.map_cons, List.map_nil,
      List.cons_append, List.nil_append, hadopt, hadopt']
  · exact (Arena.map_adopt (h.root_not_item (.inl rfl))).symm

/-- Listing a child on a chapter's group. -/
theorem Named.link_group (h : document.Named) {i : Nat} (hi : i < document.groups.length)
    (child : Str) : (document.linkChild (groupRef i) child).Named ∧
      (document.linkChild (groupRef i) child).roots =
        document.roots.map (Arena.Node.adopt (groupRef i) child) ∧
      (document.linkChild (groupRef i) child).items =
        document.items.map (Arena.Node.adopt (groupRef i) child) := by
  have hself : document.groups[i].node.self = groupRef i := by
    have hnames := congrArg (·[i]?) h.groups
    rw [GroupItem.node_self]
    simpa [hi] using hnames
  have hroots : groupRef i ∉ document.roots.map Arena.Node.self := by
    rw [h.roots]
    simp [groupRef_ne_bodyRef, groupRef_ne_furnitureRef]
  have hpictures : groupRef i ∉ (document.pictures.map PictureItem.node).map Arena.Node.self := by
    rw [List.map_map, show Arena.Node.self ∘ PictureItem.node = PictureItem.selfRef from rfl,
      h.pictures]
    simp [groupRef_ne_pictureRef, eq_comm]
  have hmodify := Arena.map_modify GroupItem.node (.push child) (push_node child)
    h.groupNames_nodup hi
  rw [linkChild, modify_group hi]
  have hnamed : { document with groups := document.groups.modify i (.push child) }.Named := by
    refine ⟨h.body, h.furniture, ?_, h.pictures, h.texts, h.tables⟩
    rw [List.length_modify, ← h.groups]
    calc (document.groups.modify i (.push child)).map GroupItem.selfRef
        = ((document.groups.modify i (.push child)).map GroupItem.node).map Arena.Node.self := by
          rw [List.map_map]
          rfl
      _ = document.groups.map GroupItem.selfRef := by
          rw [hmodify, List.map_map, List.map_map]
          exact List.map_congr_left fun group _ => Arena.Node.adopt_self ..
  refine ⟨hnamed, (Arena.map_adopt hroots).symm, ?_⟩
  rw [hnamed.items, h.items, List.map_append, Arena.map_adopt hpictures, hmodify, hself]

theorem Named.link (h : document.Named) {ref : Str} (hholder : document.Holder ref) (child : Str) :
    (document.linkChild ref child).Named ∧
      (document.linkChild ref child).nodes = document.nodes.map (Arena.Node.adopt ref child) ∧
      (document.linkChild ref child).items = document.items.map (Arena.Node.adopt ref child) := by
  obtain ⟨hnamed, hroots, hitems⟩ : (document.linkChild ref child).Named ∧
      (document.linkChild ref child).roots = document.roots.map (Arena.Node.adopt ref child) ∧
      (document.linkChild ref child).items = document.items.map (Arena.Node.adopt ref child) := by
    rcases hholder with rfl | ⟨i, hi, rfl⟩
    · exact h.link_body child
    · exact h.link_group hi child
  exact ⟨hnamed, by rw [nodes, nodes, hroots, hitems, List.map_append], hitems⟩

/-! ## The invariant of the fold

Kept by both kinds of steps.  A `Sound` document gives `integrity_errors` nothing to report. -/

/-- Dense names, a parent on every item, and links that agree. -/
structure Sound (document : Document) : Prop where
  named : document.Named
  parented : ∀ item ∈ document.items, item.parent.isSome
  linked : Arena.Linked bodyRef document.nodes

namespace Sound

theorem of_same (h : document.Sound) (hsame : SameLinks document document') : document'.Sound where
  named := h.named.of_same hsame
  parented := hsame.items ▸ h.parented
  linked := hsame.nodes ▸ h.linked

/-- A group that can hold pictures is in the document, and the body reaches it. -/
theorem holder_reached (h : document.Sound) {ref : Str} (hholder : document.Holder ref) :
    ref ∈ document.nodes.map Arena.Node.self ∧ Arena.Reaches document.nodes bodyRef ref := by
  have hroots : document.roots.map Arena.Node.self = [bodyRef, furnitureRef] := h.named.roots
  rcases hholder with rfl | ⟨i, hi, rfl⟩
  · refine ⟨?_, .refl⟩
    rw [nodes, List.map_append, hroots]
    exact List.mem_append_left _ List.mem_cons_self
  · have hitem : groupRef i ∈ document.items.map Arena.Node.self := by
      rw [h.named.itemNames]
      exact List.mem_append_left _ (List.mem_map_of_mem (List.mem_range.mpr hi))
    obtain ⟨item, hmem, hself⟩ := List.mem_map.mp hitem
    have hnode : item ∈ document.nodes := List.mem_append_right _ hmem
    exact ⟨hself ▸ List.mem_map_of_mem hnode,
      hself ▸ h.linked.reached item hnode (h.parented item hmem)⟩

/-- A new item, listed on a group that can hold it. -/
theorem grow (h : document.Sound) (hnamed : document'.Named) {child ref : Str}
    (hholder : document.Holder ref) (hholder' : document'.Holder ref)
    (hfresh : child ∉ document.nodes.map Arena.Node.self)
    (hitems : document'.items.Perm (document.items ++ [⟨child, some ref, []⟩]))
    (hroots : document'.roots = document.roots) : (document'.linkChild ref child).Sound := by
  obtain ⟨hnamed', hnodes', hitems'⟩ := hnamed.link hholder' child
  obtain ⟨hmem, hreached⟩ := h.holder_reached hholder
  refine ⟨hnamed', ?_, ?_⟩
  · rw [hitems']
    intro item hitem
    obtain ⟨old, hold, rfl⟩ := List.mem_map.mp hitem
    rw [Arena.Node.adopt_parent]
    rcases List.mem_append.mp (hitems.subset hold) with hold | hold
    · exact h.parented old hold
    · rw [List.mem_singleton.mp hold]
      rfl
  · rw [hnodes']
    refine h.linked.grow hmem hreached hfresh ?_
    rw [nodes, nodes, hroots, List.append_assoc]
    exact hitems.append_left _

/-- One more chapter group, below the body. -/
theorem push_group (h : document.Sound) {group : GroupItem} (hself : group.selfRef = document.nextGroup)
    (hparent : group.parent = some ⟨bodyRef⟩) (hchildren : group.children = []) :
    (document.pushGroup group).Sound := by
  have hnode : group.node = ⟨document.nextGroup, some bodyRef, []⟩ := by
    rw [GroupItem.node, node, hself, hparent, hchildren]
    rfl
  have hnamed : { document with groups := document.groups ++ [group] }.Named := by
    refine ⟨h.named.body, h.named.furniture, ?_, h.named.pictures, h.named.texts, h.named.tables⟩
    rw [List.map_append, List.length_append, List.length_singleton, List.range_succ,
      List.map_append, h.named.groups, List.map_singleton, List.map_singleton, hself]
    rfl
  rw [pushGroup, hself]
  refine h.grow hnamed (.inl rfl) (.inl rfl) h.named.nextGroup_fresh ?_ rfl
  rw [hnamed.items, h.named.items, List.map_append, List.map_singleton, hnode, List.append_assoc,
    List.append_assoc]
  exact List.perm_append_comm.append_left _

/-- One more picture, below a group that can hold it. -/
theorem push_picture (h : document.Sound) {picture : PictureItem} {ref : Str}
    (hholder : document.Holder ref) (hself : picture.selfRef = document.nextPicture)
    (hparent : picture.parent = some ⟨ref⟩) (hchildren : picture.children = []) :
    (document.pushPicture ref picture).Sound := by
  have hnode : picture.node = ⟨document.nextPicture, some ref, []⟩ := by
    rw [PictureItem.node, node, hself, hparent, hchildren]
    rfl
  have hnamed : { document with pictures := document.pictures ++ [picture] }.Named := by
    refine ⟨h.named.body, h.named.furniture, h.named.groups, ?_, h.named.texts, h.named.tables⟩
    rw [List.map_append, List.length_append, List.length_singleton, List.range_succ,
      List.map_append, h.named.pictures, List.map_singleton, List.map_singleton, hself]
    rfl
  rw [pushPicture, hself]
  refine h.grow hnamed hholder hholder h.named.nextPicture_fresh ?_ rfl
  rw [hnamed.items, h.named.items, List.map_append, List.map_singleton, hnode, List.append_assoc]

/-- Nothing is wrong with a sound document. -/
theorem integrityErrors_eq_nil (h : document.Sound) : integrityErrors document = [] := by
  obtain ⟨body, hbody, hname, -⟩ := h.named.body
  obtain ⟨furniture, hfurniture, hname', -⟩ := h.named.furniture
  have hnodes : document.nodes = [body.node, furniture.node] ++
      document.groups.map GroupItem.node ++ document.pictures.map PictureItem.node := by
    rw [nodes, h.named.items, Document.roots, hbody, hfurniture, List.append_assoc]
    rfl
  have hdistinct := h.linked.distinct
  rw [hnodes] at hdistinct
  have hparented : ∀ item ∈ document.groups.map GroupItem.node ++
      document.pictures.map PictureItem.node, item.parent.isSome := h.named.items ▸ h.parented
  have hnonempty : ∀ item ∈ document.groups.map GroupItem.node ++
      document.pictures.map PictureItem.node, item.self ≠ [] := h.named.items ▸ h.named.item_ne_nil
  have hgroups := ((Inventory.holds_empty.root hname).root hname').foldl document.groups
    (fun group hgroup => hnonempty _ (List.mem_append_left _ (List.mem_map_of_mem hgroup)))
    (fun group hgroup => Option.isSome_map.symm.trans
      (hparented _ (List.mem_append_left _ (List.mem_map_of_mem hgroup))))
    (List.map_append ▸ hdistinct).of_append_left
  have hpictures := hgroups.foldl document.pictures
    (fun picture hpicture => hnonempty _ (List.mem_append_right _ (List.mem_map_of_mem hpicture)))
    (fun picture hpicture => Option.isSome_map.symm.trans
      (hparented _ (List.mem_append_right _ (List.mem_map_of_mem hpicture)))) hdistinct
  have hlinked := h.linked
  rw [hnodes] at hlinked
  rw [integrityErrors, hbody, hfurniture, h.named.texts, h.named.tables]
  exact hpictures.finish hlinked

theorem skeleton : Fold.skeleton.Sound := by
  have hnodes : Fold.skeleton.nodes = [⟨bodyRef, none, []⟩, ⟨furnitureRef, none, []⟩] := rfl
  refine ⟨⟨⟨_, rfl, rfl, rfl⟩, ⟨_, rfl, rfl, rfl⟩, rfl, rfl, rfl, rfl⟩,
    fun item hitem => absurd hitem List.not_mem_nil, ?_⟩
  rw [hnodes]
  exact .of_roots (by decide) (by simp) (by simp)

end Sound

end Document

/-! ## Runs

One lemma for each message the fold is given, and the induction over a call's messages. -/

namespace DocumentFold

open Document

variable {self : DocumentFold}

theorem sound_describe (h : self.document.Sound) (info : EpubInfo) (sourceMeta : DocumentMeta) :
    (self.describe info sourceMeta).document.Sound := by
  have hsound : { self.document with
      name := info.title, origin := self.origin, sourceMeta := some sourceMeta }.Sound :=
    h.of_same ⟨rfl, rfl, rfl, rfl, rfl, rfl⟩
  exact hsound.of_same (hsound.named.same_modifyGroup bodyRef
    (fun body => { body with metadata := some (Fold.bodyMeta info) }) fun group => rfl)

theorem sound_addPicture {ref : Str} (h : self.document.Sound) (hholder : self.document.Holder ref)
    (href manifestId mediaType : Str) :
    (self.addPicture ref href manifestId mediaType).document.Sound :=
  h.push_picture hholder rfl rfl rfl

/-- A chapter is a new group under the body, and a picture under it if the chapter is one. -/
theorem sound_chapter (h : self.document.Sound) (chapter : Chapter) :
    (self.chapter chapter).document.Sound := by
  have hgroup : (self.document.pushGroup (self.chapterGroup chapter)).Sound :=
    h.push_group rfl rfl rfl
  unfold DocumentFold.chapter
  split
  · -- the group just made is the last one, so it can hold the picture
    have hlast : self.document.groups.length <
        (self.document.pushGroup (self.chapterGroup chapter)).groups.length := by
      rw [pushGroup, linkChild, modifyGroup_bodyRef]
      simp
    exact sound_addPicture hgroup (.inr ⟨_, hlast, rfl⟩) ..
  · exact hgroup

/-- One event: it describes, adds a picture or adds a chapter. -/
theorem sound_consume {δ : Type} {event : Event δ} {self' : DocumentFold} (h : self.document.Sound)
    (hconsume : self.consume event = .ok self') : self'.document.Sound := by
  cases event with
  | info info =>
      obtain ⟨sourceMeta, -, hinfo⟩ := Except.bind_ok hconsume
      obtain rfl := Except.ok.inj hinfo
      exact sound_describe h info sourceMeta
  | chapter chapter =>
      obtain rfl := Except.ok.inj hconsume
      exact sound_chapter h chapter
  | resource resource =>
      obtain rfl := Except.ok.inj hconsume
      split
      · exact sound_addPicture h (.inl rfl) ..
      · exact h
  | navigation navigation =>
      obtain rfl := Except.ok.inj hconsume
      exact h
  | mediaOverlay overlay =>
      obtain rfl := Except.ok.inj hconsume
      exact h
  | document document =>
      obtain rfl := Except.ok.inj hconsume
      exact h
  | status status =>
      obtain rfl := Except.ok.inj hconsume
      exact h

theorem sound_attachCues {document : Document} (h : document.Sound) (chapters : HashMap Str Str)
    (overlay : MediaOverlay) : (attachCues chapters document overlay).Sound := by
  unfold attachCues
  split
  · exact h
  · exact h.of_same (h.named.same_modifyGroup _ _ fun group => rfl)

theorem sound_narrate {document : Document} (h : document.Sound) (narrationMs : Real64) :
    (narrate narrationMs document).Sound := by
  unfold narrate
  split
  · exact h.of_same ⟨rfl, rfl, rfl, rfl, rfl, rfl⟩
  · exact h

theorem sound_take (h : self.document.Sound) : self.take.1.Sound := by
  have houtline : self.projectOutline.document.Sound := h.of_same ⟨rfl, rfl, rfl, rfl, rfl, rfl⟩
  have hcues : ∀ (overlays : List MediaOverlay) (document : Document), document.Sound →
      (overlays.foldl (attachCues self.chapterRefs) document).Sound := by
    intro overlays
    induction overlays with
    | nil => exact fun document h => h
    | cons overlay rest ih => exact fun document h => ih _ (sound_attachCues h _ overlay)
  exact sound_narrate (hcues self.overlays _ houtline) _

end DocumentFold

/-- A call on a fold. -/
inductive FoldCall (δ : Type) where
  | setSourceHash (hash : UInt64)
  | consume (event : Event δ)
  | take

/-- The documents that a list of calls hands back, up to the first panic. -/
def DocumentFold.taken {δ : Type} : List (FoldCall δ) → DocumentFold → List Document
  | [], _ => []
  | .setSourceHash hash :: rest, self => taken rest (self.setSourceHash hash)
  | .consume event :: rest, self =>
      match self.consume event with
      | .ok self => taken rest self
      | .error _ => []
  | .take :: rest, self => self.take.1 :: taken rest self.take.2

/-- A fragment that the merge downstream can take as it is. -/
structure Fragment (document : Document) : Prop where
  noErrors : integrityErrors document = []
  groupRefs : ∀ (i : Nat) (h : i < document.groups.length),
    document.groups[i].selfRef = "#/groups/".toList ++ shown i
  pictureRefs : ∀ (i : Nat) (h : i < document.pictures.length),
    document.pictures[i].selfRef = "#/pictures/".toList ++ shown i
  parents : ∀ item ∈ document.items, ∃ holder ∈ document.nodes,
    item.parent = some holder.self ∧ holder.ListsOnce item.self
  children : ∀ holder ∈ document.nodes, ∀ child ∈ holder.children,
    ∃ item ∈ document.items, item.self = child ∧ item.parent = some holder.self
  reached : ∀ item ∈ document.items, Arena.Reaches document.nodes bodyRef item.self

/-- What the invariant amounts to for a reader of the document. -/
theorem Document.Sound.fragment {document : Document} (h : document.Sound) : Fragment document where
  noErrors := h.integrityErrors_eq_nil
  groupRefs i hi := by
    have hname : document.groups[i].selfRef = Document.groupRef i := by
      simpa [hi] using congrArg (·[i]?) h.named.groups
    exact hname
  pictureRefs i hi := by
    have hname : document.pictures[i].selfRef = Document.pictureRef i := by
      simpa [hi] using congrArg (·[i]?) h.named.pictures
    exact hname
  parents item hitem := by
    obtain ⟨parent, hparent⟩ := Option.isSome_iff_exists.mp (h.parented item hitem)
    obtain ⟨holder, hholder, rfl, hcount⟩ :=
      h.linked.listed item (List.mem_append_right _ hitem) parent hparent
    exact ⟨holder, hholder, hparent, hcount⟩
  children holder hholder child hchild := by
    obtain ⟨item, hitem, hself, hparent⟩ := h.linked.claimed holder hholder child hchild
    refine ⟨item, (List.mem_append.mp hitem).resolve_left fun hroot => ?_, hself, hparent⟩
    exact Option.some_ne_none _ (hparent.symm.trans (h.named.roots_parent item hroot))
  reached item hitem :=
    h.linked.reached item (List.mem_append_right _ hitem) (h.parented item hitem)

/-- Every document a fold hands back is a consistent fragment, whatever events
it was fed and however often it was taken before. -/
theorem taken_consistent {δ : Type} (version : Str) (calls : List (FoldCall δ)) :
    ∀ document ∈ DocumentFold.taken calls (.new version), Fragment document := by
  have hrun : ∀ (calls : List (FoldCall δ)) (self : DocumentFold), self.document.Sound →
      ∀ document ∈ DocumentFold.taken calls self, document.Sound := by
    intro calls
    induction calls with
    | nil => exact fun self h document hin => absurd hin List.not_mem_nil
    | cons call rest ih =>
        intro self h document hin
        cases call with
        | setSourceHash hash => exact ih (self.setSourceHash hash) h document hin
        | consume event =>
            cases hconsume : self.consume event with
            | error panic =>
                rw [DocumentFold.taken, hconsume] at hin
                exact absurd hin List.not_mem_nil
            | ok self' =>
                rw [DocumentFold.taken, hconsume] at hin
                exact ih self' (DocumentFold.sound_consume h hconsume) document hin
        | take =>
            rcases List.mem_cons.mp hin with rfl | hin
            · exact DocumentFold.sound_take h
            · exact ih _ .skeleton document hin
  exact fun document hin => (hrun calls _ .skeleton document hin).fragment

/-- A page of a comic: a spine item that is itself an image. -/
def comicPage : Chapter where
  spineIndex := 0
  idref := "p1"
  href := "p1.png"
  mediaType := "image/png"
  content := []
  linear := true
  properties := []
  mediaOverlayHref := []
  primaryHref := []

theorem taken_consistent_comic : ∃ document,
    DocumentFold.taken (δ := Unit) [.consume (.chapter comicPage), .take] (.new "1") = [document] ∧
      document.pictures.map PictureItem.parent = [some ⟨"#/groups/0"⟩] ∧ Fragment document :=
  ⟨_, rfl, rfl, taken_consistent (δ := Unit) "1" [.consume (.chapter comicPage), .take] _
    (List.mem_singleton_self _)⟩

end GrpcEpub
