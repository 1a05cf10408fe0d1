/-
# `GrpcEpub.Document` — the Document message, and the check on a fragment

The messages of `document/v1/document.proto` that the fold builds, and
`integrity_errors`.  A field that the fold never writes, and the check never
reads, is left out; so is every variant of an enumeration that only other
collectors write.

Inside a Document every link is written twice: a `parent` on the child and a
`children` entry on the parent.  `Document.nodes` is what is left of a Document
when only its links are looked at.
-/
import GrpcEpub.Datetime
import GrpcEpub.Status
import GrpcEpub.Lib.Arena

namespace GrpcEpub

/-- `google.protobuf.Value`.  A struct is its fields in the order they went in. -/
inductive Value where
  | string (value : Str)
  | bool (value : Bool)
  | number (value : Real64)
  | list (values : List Value)
  | struct (fields : List (Str × Value))

/-- A JSON Pointer to another item. -/
structure RefItem where
  ref : Str
deriving DecidableEq, Repr

/-- A JSON Pointer, and the span of it that is meant. -/
structure FineRef where
  ref : Str
  range : Option (Int × Int)
deriving DecidableEq, Repr

inductive ContentLayer where
  | unspecified
  | body
  | furniture
deriving DecidableEq, Repr

inductive GroupLabel where
  | unspecified
  | chapter
deriving DecidableEq, Repr

inductive DocItemLabel where
  | unspecified
  | picture
deriving DecidableEq, Repr

structure LanguageMetaField where
  /-- The number of a `HumanLanguageLabel`. -/
  code : Nat
  codeRaw : Option Str
  createdBy : Option Str
  confidence : Option Real64
  customFields : HashMap Str Value

structure KeywordsMetaField where
  values : List Str
  customFields : HashMap Str Value

structure BaseMeta where
  language : Option LanguageMetaField := none
  keywords : Option KeywordsMetaField := none
  customFields : HashMap Str Value := ∅

structure GroupItem where
  selfRef : Str
  parent : Option RefItem := none
  children : List RefItem := []
  contentLayer : ContentLayer := .unspecified
  metadata : Option BaseMeta := none
  name : Option Str := none
  label : GroupLabel := .unspecified
  labelRaw : Option Str := none

structure ImageRef where
  mimetype : Str
  dpi : Int
  size : Option (Real64 × Real64)
  uri : Str
deriving DecidableEq, Repr

structure CollectorSource where
  collector : Str
  model : Option Str
  version : Option Str
  confidence : Option Real64
  rawScore : Option Real64
  rawScoreKind : Option Str
deriving DecidableEq, Repr

/-- `SourceType`, which has other variants for other collectors. -/
inductive SourceType where
  | collector (source : CollectorSource)
deriving DecidableEq, Repr

structure PictureMeta where
  customFields : HashMap Str Value

structure PictureItem where
  selfRef : Str
  parent : Option RefItem := none
  children : List RefItem := []
  contentLayer : ContentLayer
  label : DocItemLabel
  image : Option ImageRef
  metadata : Option PictureMeta
  source : List SourceType

/-- The base that every text item but a code item wraps. -/
structure TextItemBase where
  selfRef : Str
  parent : Option RefItem := none
  children : List RefItem := []
deriving DecidableEq, Repr

/-- A code item has its base fields inlined. -/
structure CodeItem where
  selfRef : Str
  parent : Option RefItem := none
  children : List RefItem := []
deriving DecidableEq, Repr

/-- `base_text_item::Item`. -/
inductive TextItem where
  | title (base : Option TextItemBase)
  | sectionHeader (base : Option TextItemBase)
  | listItem (base : Option TextItemBase)
  | formula (base : Option TextItemBase)
  | text (base : Option TextItemBase)
  | fieldHeading (base : Option TextItemBase)
  | fieldValue (base : Option TextItemBase)
  | code (item : CodeItem)
deriving DecidableEq, Repr

structure BaseTextItem where
  item : Option TextItem
deriving DecidableEq, Repr

structure TableItem where
  selfRef : Str
  parent : Option RefItem := none
  children : List RefItem := []
deriving DecidableEq, Repr

structure OutlineEntry where
  title : Str
  level : Int
  pageNo : Option Int
  target : Option FineRef
deriving DecidableEq, Repr

structure MediaMeta where
  durationMs : Option Real64
  speakers : List Str
  codec : Option Str
deriving DecidableEq, Repr

structure DocumentOrigin where
  mimetype : Str
  binaryHash : UInt64
  filename : Str
  uri : Option Str
deriving DecidableEq, Repr

structure DocumentMeta where
  title : Option Str
  authors : List Str
  created : Option Timestamp
  modified : Option Timestamp
  language : Option Str
  generator : Option Str
  keywords : List Str
  schemaLocation : Option Str
  createdRaw : Option Str
  modifiedRaw : Option Str
  extra : HashMap Str Str

structure Document where
  schemaName : Option Str := none
  name : Str := []
  origin : Option DocumentOrigin := none
  furniture : Option GroupItem := none
  body : Option GroupItem := none
  groups : List GroupItem := []
  texts : List BaseTextItem := []
  pictures : List PictureItem := []
  tables : List TableItem := []
  sourceMeta : Option DocumentMeta := none
  outline : List OutlineEntry := []
  media : Option MediaMeta := none

/-- `BODY_REF`. -/
def bodyRef : Str := "#/body"

/-- `FURNITURE_REF`. -/
def furnitureRef : Str := "#/furniture"

/-! ## Links

The references of a document, as an arena. -/

/-- One item, seen as a node. -/
def node (selfRef : Str) (children : List RefItem) (parent : Option RefItem) : Arena.Node Str where
  self := selfRef
  parent := parent.map RefItem.ref
  children := children.map RefItem.ref

def GroupItem.node (group : GroupItem) : Arena.Node Str :=
  GrpcEpub.node group.selfRef group.children group.parent

@[simp] theorem GroupItem.node_self (group : GroupItem) : group.node.self = group.selfRef := rfl

def PictureItem.node (picture : PictureItem) : Arena.Node Str :=
  GrpcEpub.node picture.selfRef picture.children picture.parent

@[simp] theorem PictureItem.node_self (picture : PictureItem) :
    picture.node.self = picture.selfRef := rfl

def TableItem.node (table : TableItem) : Arena.Node Str :=
  GrpcEpub.node table.selfRef table.children table.parent

/-- `text_base`: the identifying fields of a text item, whichever variant it is. -/
def textBase (text : BaseTextItem) : Option (Str × List RefItem × Option RefItem) :=
  match text.item with
  | none => none
  | some (.code item) => some (item.selfRef, item.children, item.parent)
  | some (.title base) | some (.sectionHeader base) | some (.listItem base)
  | some (.formula base) | some (.text base) | some (.fieldHeading base)
  | some (.fieldValue base) =>
      base.map fun base => (base.selfRef, base.children, base.parent)

def BaseTextItem.node? (text : BaseTextItem) : Option (Arena.Node Str) :=
  (textBase text).map fun (selfRef, children, parent) => GrpcEpub.node selfRef children parent

namespace Document

/-- The items of the four arenas. -/
def items (document : Document) : List (Arena.Node Str) :=
  document.groups.map GroupItem.node ++ document.texts.filterMap BaseTextItem.node? ++
    document.pictures.map PictureItem.node ++ document.tables.map TableItem.node

/-- The two roots. -/
def roots (document : Document) : List (Arena.Node Str) :=
  document.body.toList.map GroupItem.node ++ document.furniture.toList.map GroupItem.node

/-- Everything that has links. -/
def nodes (document : Document) : List (Arena.Node Str) := document.roots ++ document.items

end Document

/-! ## The check

One pass over the items collects references and links, and a second goes through the links. -/

/-- What `integrity_errors` finds wrong: one constructor for each text. -/
inductive IntegrityError where
  /-- `the document has no {root} group` -/
  | noRoot (root : Str)
  /-- `the {root} group calls itself {self_ref:?}` -/
  | misnamed (root selfRef : Str)
  /-- `text item with an unset variant` -/
  | unsetText
  /-- `item with an empty self_ref` -/
  | emptyRef
  /-- `duplicate self_ref {self_ref}` -/
  | duplicate (selfRef : Str)
  /-- `{self_ref} has no parent, so nothing reaches it` -/
  | noParent (selfRef : Str)
  /-- `child {child} of {parent} does not resolve` -/
  | danglingChild (child parent : Str)
  /-- `parent {parent} of {child} does not resolve` -/
  | danglingParent (parent child : Str)
  /-- `{parent} does not list its child {child}` -/
  | unlisted (parent child : Str)
deriving DecidableEq, Repr

/-- One walk's worth of refs and links.  A set is the list of what went into it. -/
structure Inventory where
  errors : List IntegrityError := []
  refs : List Str := []
  down : List (Str × Str) := []
  up : List (Str × Str) := []
deriving DecidableEq, Repr

namespace Inventory

def error (self : Inventory) (error : IntegrityError) : Inventory :=
  { self with errors := self.errors ++ [error] }

/-- Record a `children` list. -/
def edges (self : Inventory) (parentRef : Str) (children : List RefItem) : Inventory :=
  { self with down := self.down ++ children.map fun child => (parentRef, child.ref) }

/-- `refs.insert`, and the complaint when it says that the ref was there. -/
def insertRef (self : Inventory) (selfRef : Str) : Inventory :=
  if selfRef ∈ self.refs then self.error (.duplicate selfRef)
  else { self with refs := selfRef :: self.refs }

/-- Record a `parent`. -/
def parent (self : Inventory) (selfRef : Str) (parent : Option RefItem) : Inventory :=
  match parent with
  | some parent => { self with up := self.up ++ [(selfRef, parent.ref)] }
  | none => self.error (.noParent selfRef)

/-- Record one arena item. -/
def item (self : Inventory) (selfRef : Str) (children : List RefItem) (parent : Option RefItem) :
    Inventory :=
  if selfRef = [] then self.error .emptyRef
  else ((self.insertRef selfRef).edges selfRef children).parent selfRef parent

/-- Record one of the two roots. -/
def root (self : Inventory) (rootRef : Str) (group : Option GroupItem) : Inventory :=
  match group with
  | none => self.error (.noRoot rootRef)
  | some group =>
      let self := { self with refs := if rootRef ∈ self.refs then self.refs else rootRef :: self.refs }
      let self := if group.selfRef ≠ rootRef then self.error (.misnamed rootRef group.selfRef) else self
      self.edges rootRef group.children

/-- Record one text item. -/
def text (self : Inventory) (text : BaseTextItem) : Inventory :=
  match textBase text with
  | none => self.error .unsetText
  | some (selfRef, children, parent) => self.item selfRef children parent

/-- What is wrong with one `children` entry, now that every ref is known. -/
def checkDown (self : Inventory) (edge : Str × Str) : List IntegrityError :=
  if edge.2 ∉ self.refs then [.danglingChild edge.2 edge.1] else []

/-- What is wrong with one `parent`. -/
def checkUp (self : Inventory) (edge : Str × Str) : List IntegrityError :=
  if edge.2 ∉ self.refs then [.danglingParent edge.2 edge.1]
  else if !self.down.contains (edge.2, edge.1) then [.unlisted edge.2 edge.1] else []

/-- Resolve every link. -/
def finish (self : Inventory) : List IntegrityError :=
  self.errors ++ self.down.flatMap self.checkDown ++ self.up.flatMap self.checkUp

end Inventory

/-- `integrity_errors`: everything structurally wrong with a document. -/
def integrityErrors (document : Document) : List IntegrityError :=
  let inventory := (({} : Inventory).root bodyRef document.body).root furnitureRef document.furniture
  let inventory := document.groups.foldl
    (fun inventory group => inventory.item group.selfRef group.children group.parent) inventory
  let inventory := document.texts.foldl Inventory.text inventory
  let inventory := document.pictures.foldl
    (fun inventory picture => inventory.item picture.selfRef picture.children picture.parent) inventory
  let inventory := document.tables.foldl
    (fun inventory table => inventory.item table.selfRef table.children table.parent) inventory
  inventory.finish

/-! ## When nothing is wrong

`Holds` is the invariant of the first pass while there has been no complaint. -/

namespace Inventory

/-- Nothing is wrong so far, and what was recorded is these nodes: all of them by
name, their children lists, and the parents of those that have one. -/
structure Holds (inventory : Inventory) (nodes : List (Arena.Node Str)) : Prop where
  errors : inventory.errors = []
  refs : ∀ ref, ref ∈ inventory.refs ↔ ref ∈ nodes.map Arena.Node.self
  down : ∀ parent child, (parent, child) ∈ inventory.down ↔ Arena.Lists nodes parent child
  up : ∀ child parent, (child, parent) ∈ inventory.up →
    ∃ node ∈ nodes, node.self = child ∧ node.parent = some parent

theorem holds_empty : ({} : Inventory).Holds [] where
  errors := rfl
  refs ref := by simp
  down parent child := by simp [Arena.Lists]
  up child parent h := absurd h (List.not_mem_nil)

theorem lists_append_singleton {nodes : List (Arena.Node Str)} {added : Arena.Node Str}
    {parent child : Str} : Arena.Lists (nodes ++ [added]) parent child ↔
      Arena.Lists nodes parent child ∨ (added.self = parent ∧ child ∈ added.children) := by
  simp [Arena.Lists, or_and_right, exists_or]

theorem mem_edges (parentRef : Str) (children : List RefItem) (parent child : Str) :
    (parent, child) ∈ children.map (fun child => (parentRef, child.ref)) ↔
      parentRef = parent ∧ child ∈ children.map RefItem.ref := by
  constructor
  · intro h
    obtain ⟨item, hitem, heq⟩ := List.mem_map.mp h
    obtain ⟨rfl, rfl⟩ := Prod.mk.inj heq
    exact ⟨rfl, List.mem_map_of_mem hitem⟩
  · rintro ⟨rfl, h⟩
    obtain ⟨item, hitem, rfl⟩ := List.mem_map.mp h
    exact List.mem_map.mpr ⟨item, hitem, rfl⟩

/-- A root that is there and goes by its name. -/
theorem Holds.root {self : Inventory} {nodes : List (Arena.Node Str)} (h : self.Holds nodes)
    {group : GroupItem} {rootRef : Str} (hname : group.selfRef = rootRef) :
    (self.root rootRef (some group)).Holds (nodes ++ [group.node]) := by
  subst hname
  simp only [Inventory.root, ne_eq, not_true, if_false, edges]
  refine ⟨h.errors, fun ref => ?_, fun parent child => ?_, fun child parent hup => ?_⟩
  · split
    · rename_i hin
      rw [h.refs, List.map_append, List.mem_append]
      refine ⟨.inl, fun hmem => hmem.elim id fun hself => ?_⟩
      rw [List.mem_singleton.mp hself]
      exact (h.refs _).mp hin
    · rw [List.mem_cons, h.refs, List.map_append, List.mem_append]
      exact ⟨fun hmem => hmem.symm.imp id List.mem_singleton.mpr,
        fun hmem => (hmem.imp id List.mem_singleton.mp).symm⟩
  · rw [List.mem_append, h.down, mem_edges, lists_append_singleton]
    rfl
  · obtain ⟨node, hnode, hself, hparent⟩ := h.up child parent hup
    exact ⟨node, List.mem_append_left _ hnode, hself, hparent⟩

/-- An item with a name of its own and a parent. -/
theorem Holds.item {self : Inventory} {nodes : List (Arena.Node Str)} (h : self.Holds nodes)
    {selfRef : Str} (children : List RefItem) {parent : Option RefItem} (hname : selfRef ≠ [])
    (hfresh : selfRef ∉ nodes.map Arena.Node.self) (hparent : parent.isSome) :
    (self.item selfRef children parent).Holds (nodes ++ [node selfRef children parent]) := by
  obtain ⟨parent, rfl⟩ := Option.isSome_iff_exists.mp hparent
  have hnew : selfRef ∉ self.refs := fun hin => hfresh ((h.refs _).mp hin)
  simp only [Inventory.item, if_neg hname, insertRef, if_neg hnew, edges, Inventory.parent]
  refine ⟨h.errors, fun ref => ?_, fun above child => ?_, fun child above hup => ?_⟩
  · rw [List.mem_cons, h.refs, List.map_append, List.mem_append]
    exact ⟨fun hmem => hmem.symm.imp id List.mem_singleton.mpr,
      fun hmem => (hmem.imp id List.mem_singleton.mp).symm⟩
  · rw [List.mem_append, h.down, mem_edges, lists_append_singleton]
    rfl
  · rcases List.mem_append.mp hup with hup | hup
    · obtain ⟨node, hnode, hself, hparent⟩ := h.up child above hup
      exact ⟨node, List.mem_append_left _ hnode, hself, hparent⟩
    · obtain ⟨rfl, rfl⟩ := Prod.mk.inj (List.mem_singleton.mp hup)
      exact ⟨_, List.mem_append_right _ (List.mem_singleton_self _), rfl, rfl⟩

/-- Where both copies of every link agree, no link is complained about. -/
theorem Holds.finish {self : Inventory} {nodes : List (Arena.Node Str)} (h : self.Holds nodes)
    {root : Str} (hlinked : Arena.Linked root nodes) : self.finish = [] := by
  have hdown : ∀ edge ∈ self.down, self.checkDown edge = [] := by
    rintro ⟨parent, child⟩ hedge
    obtain ⟨holder, hholder, rfl, hchild⟩ := (h.down parent child).mp hedge
    obtain ⟨node, hnode, rfl, -⟩ := hlinked.claimed holder hholder child hchild
    exact if_neg (not_not.mpr ((h.refs _).mpr (List.mem_map_of_mem hnode)))
  have hup : ∀ edge ∈ self.up, self.checkUp edge = [] := by
    rintro ⟨child, parent⟩ hedge
    obtain ⟨node, hnode, rfl, hparent⟩ := h.up child parent hedge
    obtain ⟨holder, hholder, rfl, hchild⟩ := hlinked.lists hnode hparent
    have hlists : (holder.self, node.self) ∈ self.down :=
      (h.down _ _).mpr ⟨holder, hholder, rfl, hchild⟩
    rw [checkUp, if_neg (not_not.mpr ((h.refs _).mpr (List.mem_map_of_mem hholder))),
      if_neg (by simpa using hlists)]
  rw [Inventory.finish, h.errors, List.flatMap_eq_nil_iff.mpr hdown, List.flatMap_eq_nil_iff.mpr hup]
  rfl

/-- A whole arena of items. -/
theorem Holds.foldl {α : Type} {selfRef : α → Str} {children : α → List RefItem}
    {parent : α → Option RefItem} (items : List α) {self : Inventory}
    {nodes : List (Arena.Node Str)} (h : self.Holds nodes)
    (hname : ∀ a ∈ items, selfRef a ≠ []) (hparent : ∀ a ∈ items, (parent a).isSome)
    (hdistinct : ((nodes ++ items.map fun a => node (selfRef a) (children a) (parent a)).map
      Arena.Node.self).Nodup) :
    (items.foldl (fun self a => self.item (selfRef a) (children a) (parent a)) self).Holds
      (nodes ++ items.map fun a => node (selfRef a) (children a) (parent a)) := by
  induction items generalizing self nodes with
  | nil => simpa using h
  | cons a rest ih =>
      rw [List.map_cons, List.append_cons] at hdistinct ⊢
      have hfresh : selfRef a ∉ nodes.map Arena.Node.self := by
        rw [List.map_append, List.map_append] at hdistinct
        exact fun hin => (List.nodup_append.mp hdistinct.of_append_left).2.2 _ hin _
          (List.mem_singleton_self _) rfl
      exact ih
        (h.item (children a) (hname a List.mem_cons_self) hfresh (hparent a List.mem_cons_self))
        (fun b hb => hname b (List.mem_cons_of_mem a hb))
        (fun b hb => hparent b (List.mem_cons_of_mem a hb)) hdistinct

end Inventory

end GrpcEpub
