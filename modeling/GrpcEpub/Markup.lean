/-
# `GrpcEpub.Markup` — how a document is written

The other direction of the readers: the events of an element from its tags and
what is between them, and of the parts of a document that say nothing.  What a
writer chooses freely is existentially quantified where a rendering is defined.
-/
import GrpcEpub.Xml

namespace GrpcEpub

namespace Xml

/-- An element: its tags, and what is between them. -/
def element (tag : Tag) (body : List XmlEvent) : List XmlEvent :=
  .start tag :: (body ++ [.endTag tag.name])

/-- Whitespace or a comment between two tags. -/
def Gap (events : List XmlEvent) : Prop :=
  ∀ event ∈ events, event = .other ∨
    ∃ text : Str, event = .text text ∧ ∀ c ∈ text, Str.isWhitespace c = true

theorem gap_nil : Gap [] := fun _ hevent => nomatch hevent

/-- An element without text, its tags paired or in one. -/
def Hollow (tag : Tag) (events : List XmlEvent) : Prop :=
  events = [.empty tag] ∨ ∃ gap, Gap gap ∧ events = element tag gap

/-- A tag with these attributes. -/
def attributed (name : Str) (attributes : List (Str × Str)) : Tag where
  name := name
  attributes := attributes.map fun pair =>
    { key := pair.1, value := pair.2, normalized := some pair.2 }

/-- A tag with no attribute. -/
def plainTag (name : Str) : Tag := attributed name []

end Xml

end GrpcEpub
