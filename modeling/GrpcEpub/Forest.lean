/-
# `GrpcEpub.Forest` — well-nested documents

A document whose tags match is a forest, and its events are the forest's
elements opened and closed in order.  A parser that keeps a stack is compared
with a recursion on the forest: a forest runs the parser from one state to
another, whatever comes before and after it.
-/
import GrpcEpub.Xml

namespace GrpcEpub

/-- An event that opens and closes nothing, and declares no entity. -/
def XmlEvent.IsLeaf : XmlEvent → Prop
  | .docType dtd => Xml.checkDoctype dtd = .ok ()
  | .start _ | .empty _ | .endTag _ => False
  | .text _ | .cData _ | .generalRef _ | .other => True

/-- Well-nested content: the first piece of it, and what follows. -/
inductive Forest where
  | nil
  | leaf (event : XmlEvent) (isLeaf : event.IsLeaf) (rest : Forest)
  /-- An element in its empty form. -/
  | empty (tag : Tag) (rest : Forest)
  | element (tag : Tag) (children rest : Forest)

namespace Forest

/-- What the reader yields for it. -/
def events : Forest → List XmlEvent
  | nil => []
  | leaf event _ rest => event :: rest.events
  | empty tag rest => .empty tag :: rest.events
  | element tag children rest =>
      .start tag :: (children.events ++ .endTag tag.name :: rest.events)

/-- A complete document. -/
def stream (forest : Forest) : XmlStream where
  events := forest.events
  stop := .eof

end Forest

end GrpcEpub
