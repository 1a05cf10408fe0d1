/-
# `GrpcEpub.Navs` — which navs a navigation document is read from

A `nav` is read when it is typed as the table of contents or has no type, whether or not
another one is so typed, and everything in it is read, whatever `nav` stands in it.  So an
entry comes from a `nav` it should come from only as long as the others hold nothing that
is kept (`only_the_toc`).
-/
import GrpcEpub.Titles

namespace GrpcEpub

namespace Nav

open Xml

/-- The type of a `nav` says that it is the table of contents. -/
def TocTyped (nav : Tag) : Prop := "toc".toList ∈ (attributeValue nav "type").splitWhitespace

/-- An item, and the innermost `nav` that it stands in. -/
structure Place where
  nav : Tag
  item : Dialect.Item

namespace Place

def title (baseDir : Str) (place : Place) : Title := place.item.title baseDir .navDocument

/-- The item has a label. -/
def labelled (baseDir : Str) (place : Place) : Bool := (place.title baseDir).labelled

end Place

/-- The items in content, as they are written. -/
def placed (nav : Tag) : Nat → Content → Hierarchy Place
  | _, .nil => .nil
  | room, .leaf _ rest => placed nav room rest
  | room, .node tag body rest =>
      if Dialect.navDocument.isItem tag.localName ∧ 0 < room then
        .entry ⟨nav, ⟨room - 1, body⟩⟩ (placed nav (room - 1) body) (placed nav room rest)
      else if Dialect.navDocument.isTitle tag.localName then placed nav room rest
      else (placed (if tag.localName = "nav" then tag else nav) room body).append (placed nav room rest)

theorem map_placed (nav : Tag) (room : Nat) (content : Content) :
    (placed nav room content).map Place.item = Dialect.navDocument.items room content := by
  induction content generalizing nav room with
  | nil => rfl
  | leaf a rest ih => exact ih nav room
  | node tag body rest ihbody ihrest =>
      rw [placed, Dialect.items]
      split
      · rw [Hierarchy.map, ihbody, ihrest]
      · split
        · exact ihrest nav room
        · rw [Hierarchy.map_append, ihbody, ihrest]

namespace Source

/-- All items of the navs that are read. -/
def places (source : Source .navDocument) : Hierarchy Place :=
  source.sections.foldr (fun part places => (placed part.tag maxDepth part.content).append places) .nil

/-- Some `nav` is typed as the table of contents. -/
def HasToc (source : Source .navDocument) : Prop :=
  ∃ nav : Tag, (.start nav ∈ source.events ∨ .empty nav ∈ source.events) ∧ nav.localName = "nav" ∧
    TocTyped nav

/-- A `nav` to be read: one typed as the table of contents, or one without a type when there is
no other. -/
def Rightful (source : Source .navDocument) (nav : Tag) : Prop :=
  TocTyped nav ∨ attributeValue nav "type" = [] ∧ ¬ source.HasToc

theorem map_places (source : Source .navDocument) : source.places.map Place.item = source.items := by
  unfold places items contents
  induction source.sections with
  | nil => rfl
  | cons part parts ih =>
      rw [List.foldr_cons, List.map_cons, List.foldr_cons, Hierarchy.map_append, map_placed, ih]

end Source

/-- What the parser returns, and the `nav` it is from. -/
theorem flatten_places (source : Source .navDocument) (stop : XmlStop) (sourceHref : Str) :
    (parseNav ⟨source.events, stop⟩ sourceHref).flatten.map titleOf =
      (source.places.kept (Place.labelled (Href.parentDir sourceHref)) maxEntries 0).listed.map
        (Place.title (Href.parentDir sourceHref)) := by
  have hitems := flatten_items source stop sourceHref
  rw [← source.map_places, Hierarchy.kept_map, Hierarchy.listed_map, List.map_map] at hitems
  exact hitems

/-- Every entry is from a `nav` to be read, when what the others hold is not kept: it, or an item
it stands in, has no label, or too many labelled items end before the one at the top level. -/
theorem only_the_toc (source : Source .navDocument) (stop : XmlStop) (sourceHref : Str) :
    (parseNav ⟨source.events, stop⟩ sourceHref).flatten.map titleOf =
        (source.places.kept (Place.labelled (Href.parentDir sourceHref)) maxEntries 0).listed.map
          (Place.title (Href.parentDir sourceHref)) ∧
      ((∀ place ∈ (source.places.kept (Place.labelled (Href.parentDir sourceHref)) maxEntries 0).listed,
          source.Rightful place.nav) ↔
        ∀ front top below rest, source.places = Hierarchy.append front (.entry top below rest) →
          (front.listed.filter (Place.labelled (Href.parentDir sourceHref))).length +
            (below.listed.filter (Place.labelled (Href.parentDir sourceHref))).length < maxEntries →
          ∀ place ∈ ((Hierarchy.entry top below .nil).pruned
            (Place.labelled (Href.parentDir sourceHref))).listed, source.Rightful place.nav) := by
  refine ⟨flatten_places source stop sourceHref, ?_⟩
  constructor
  · intro hkept front top below rest heq hroom place hplace
    exact hkept place ((Hierarchy.mem_kept_iff (Nat.zero_le _)).mpr
      ⟨front, top, below, rest, heq, by rwa [Nat.zero_add], hplace⟩)
  · intro hread place hplace
    obtain ⟨front, top, below, rest, heq, hroom, hplace⟩ :=
      (Hierarchy.mem_kept_iff (Nat.zero_le _)).mp hplace
    rw [Nat.zero_add] at hroom
    exact hread front top below rest heq hroom place hplace

/-- A `nav` typed as the table of contents. -/
def tocNav : Tag := attributed "nav" [("epub:type", "toc")]

theorem tocNav_opens : OpensToc tocNav := ⟨rfl, .inr (by decide)⟩

/-- The cover in a `nav` without a type, and a chapter in the table of contents. -/
def coverAndToc : Source .navDocument where
  sections :=
    [⟨[], plainTag "nav", Dialect.navDocument.item "Cover" .nil .nil, Dialect.navDocument.foreign_nil,
      Dialect.navDocument.holder_opens, Dialect.navDocument.flow_item _ trivial trivial⟩,
    ⟨[], tocNav, Dialect.navDocument.item "Chapter One" .nil .nil, Dialect.navDocument.foreign_nil,
      tocNav_opens, Dialect.navDocument.flow_item _ trivial trivial⟩]
  rest := []
  foreign := Dialect.navDocument.foreign_nil

/-- Both are read. -/
theorem untyped_nav_read : coverAndToc.HasToc ∧
    (parseNav ⟨coverAndToc.events, .eof⟩ "OEBPS/nav.xhtml").flatten.map NavPoint.label =
      ["Cover", "Chapter One"] ∧
    ¬ ∀ place ∈ (coverAndToc.places.kept (Place.labelled "OEBPS") maxEntries 0).listed,
        coverAndToc.Rightful place.nav := by
  have htoc : coverAndToc.HasToc := ⟨tocNav, .inl (by decide), rfl, by unfold TocTyped; decide⟩
  refine ⟨htoc, by decide, fun hall => ?_⟩
  rcases hall ⟨plainTag "nav", ⟨31, _⟩⟩ (.head _) with htyped | ⟨-, hnone⟩
  · unfold TocTyped at htyped
    exact absurd htyped (by decide)
  · exact hnone htoc

end Nav

end GrpcEpub
