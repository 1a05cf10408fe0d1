/-
# `GrpcEpub.Xml` — what the XML reader hands over

The documents of the packaging layer are read by quick-xml, which is not part
of this repository: a document is the stream of events it yields, up to the
end of input or the first error.  What the source itself does with an event
(its attribute lookup, its text accumulator, its entity policy) is here.
-/
import GrpcEpub.Text

namespace GrpcEpub

/-- One attribute: its qualified name, the value as written, and the value with
character references resolved, absent when one of them does not resolve. -/
structure Attribute where
  key : Str
  value : Str
  normalized : Option Str
deriving DecidableEq, Repr

/-- A start or empty-element tag.  Attributes that do not parse are already
dropped, as `.flatten()` drops them. -/
structure Tag where
  name : Str
  attributes : List Attribute
deriving DecidableEq, Repr

/-- A general reference: the name between `&` and `;`, and the character it
stands for when it is a character reference. -/
structure Reference where
  name : Str
  charRef : Option Char
deriving DecidableEq, Repr

inductive XmlEvent where
  | docType (dtd : Str)
  | start (tag : Tag)
  | empty (tag : Tag)
  | endTag (name : Str)
  | text (content : Str)
  | cData (content : Str)
  | generalRef (reference : Reference)
  | other
deriving DecidableEq, Repr

/-- How a stream of events ends. -/
inductive XmlStop where
  | eof
  | error (detail : Str)
deriving DecidableEq, Repr

/-- Everything the reader yields for one document. -/
structure XmlStream where
  events : List XmlEvent
  stop : XmlStop
deriving DecidableEq, Repr

/-- Why an XML document could not be used. -/
inductive XmlError where
  | malformed (detail : Str)
  | entityDeclaration
  | noRootfile
  | notAPackage
  | emptySpine
deriving DecidableEq, Repr

namespace Xml

/-- The part of a qualified name after its first colon, or all of it. -/
def localName (name : Str) : Str :=
  if ':' ∈ name then (name.dropWhile (· ≠ ':')).drop 1 else name

/-- Look one attribute up by local name.  A namespace declaration is not an
attribute, and a value with an unresolvable reference is kept as written. -/
def attributeValue (start : Tag) (name : Str) : Str :=
  match start.attributes.find? (fun attr =>
      !attr.key.startsWith "xmlns" && localName attr.key == name) with
  | some attr => attr.normalized.getD attr.value
  | none => []

/-- Refuse a DTD that declares entities. -/
def checkDoctype (raw : Str) : Except XmlError Unit :=
  let text := raw.toAsciiUppercase
  if text.contains "<!ENTITY" || text.contains "!ENTITY" then .error .entityDeclaration
  else .ok ()

/-- `Text::push_ref`: character references and the five built-ins resolve, and
anything else is copied through as it was written. -/
def pushRef (text : Str) (reference : Reference) : Str :=
  match reference.charRef with
  | some resolved => text ++ [resolved]
  | none =>
      if reference.name = "amp" then text ++ ['&']
      else if reference.name = "lt" then text ++ ['<']
      else if reference.name = "gt" then text ++ ['>']
      else if reference.name = "quot" then text ++ ['"']
      else if reference.name = "apos" then text ++ ['\'']
      else text ++ '&' :: reference.name ++ [';']

theorem pushRef_append (text : Str) (reference : Reference) :
    pushRef text reference = text ++ pushRef [] reference := by
  unfold pushRef
  cases reference.charRef with
  | some resolved => rfl
  | none =>
      dsimp only
      split_ifs <;> simp

/-- How the strict readers end: what was found, or the reader's error. -/
def finish {α : Type} (stop : XmlStop) (found : α) : Except XmlError α :=
  match stop with
  | .eof => .ok found
  | .error detail => .error (.malformed detail)

end Xml

def Tag.localName (tag : Tag) : Str := Xml.localName tag.name

end GrpcEpub
