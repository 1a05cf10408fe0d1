/-
# `GrpcEpub.Opf` — container.xml and the package document

`opf.rs`.  The package parser is a state machine over reader events:
`PackageParser.step` is one turn of the source's event loop, and
`parsePackage` runs it over the whole stream, attaches the refinements and
reads the typed metadata fields out of the collected entries.
-/
import GrpcEpub.Xml

namespace GrpcEpub

/-! ## What an OPF declares

The messages, and the metadata entry as it is collected. -/

/-- One `<item>` of the manifest. -/
structure ManifestItem where
  id : Str
  href : Str
  mediaType : Str
  properties : List Str
  mediaOverlay : Str
  fallback : Str
deriving DecidableEq, Repr, Inhabited

/-- One `<itemref>` of the spine. -/
structure SpineItem where
  idref : Str
  linear : Bool
deriving DecidableEq, Repr, Inhabited

structure Identifier where
  value : Str
  id : Str
  scheme : Str
deriving DecidableEq, Repr

structure Refinement where
  property : Str
  value : Str
  scheme : Str
deriving DecidableEq, Repr

/-- One metadata element, verbatim, with whatever refines it. -/
structure MetaEntry where
  element : Str
  value : Str
  id : Str
  scheme : Str
  refinements : List Refinement
deriving DecidableEq, Repr

/-- The value of the first refinement with this property, or nothing. -/
def MetaEntry.refined (entry : MetaEntry) (property : Str) : Str :=
  match entry.refinements.find? (·.property == property) with
  | some refinement => refinement.value
  | none => []

structure Contributor where
  name : Str
  role : Str
  fileAs : Str
deriving DecidableEq, Repr

structure Title where
  value : Str
  titleType : Str
deriving DecidableEq, Repr

/-- The Dublin Core metadata of a package: the kept elements, and the typed
fields that are a reading of them. -/
structure Metadata where
  title : Str := []
  titles : List Title := []
  creators : List Contributor := []
  contributors : List Contributor := []
  language : Str := []
  languages : List Str := []
  identifiers : List Identifier := []
  publisher : Str := []
  description : Str := []
  date : Str := []
  modified : Str := []
  subjects : List Str := []
  rights : Str := []
  source : Str := []
  resourceType : Str := []
  format : Str := []
  coverage : Str := []
  relation : Str := []
  coverId : Str := []
  entries : List MetaEntry := []
deriving DecidableEq, Repr

/-- A parsed OPF package document. -/
structure Package where
  version : Str := []
  uniqueIdentifierId : Str := []
  metadata : Metadata := {}
  manifest : List ManifestItem := []
  spine : List SpineItem := []
  tocIdref : Str := []
deriving DecidableEq, Repr

namespace Opf

open Xml

/-! ## container.xml

The first rootfile of the right media type, or failing that the first of all. -/

def oebpsPackage : Str := "application/oebps-package+xml"

/-- The loop of `parse_container`, on the first rootfile seen so far. -/
def containerLoop (stop : XmlStop) : Option Str → List XmlEvent → Except XmlError Str
  | first, [] =>
      match finish stop first with
      | .error e => .error e
      | .ok (some path) => .ok path
      | .ok none => .error .noRootfile
  | first, .docType dtd :: rest =>
      match checkDoctype dtd with
      | .error e => .error e
      | .ok () => containerLoop stop first rest
  | first, .start tag :: rest | first, .empty tag :: rest =>
      if tag.localName = "rootfile" then
        let path := attributeValue tag "full-path"
        if path = [] then containerLoop stop first rest
        else if attributeValue tag "media-type" = oebpsPackage then .ok path
        else containerLoop stop (some (first.getD path)) rest
      else containerLoop stop first rest
  | first, .endTag _ :: rest | first, .text _ :: rest | first, .cData _ :: rest
  | first, .generalRef _ :: rest | first, .other :: rest => containerLoop stop first rest

/-- The OPF's path: the rootfile declared as a package, else the first one. -/
def parseContainer (stream : XmlStream) : Except XmlError Str :=
  containerLoop stream.stop none stream.events

/-! ## The package parser

The state of the loop, and one function for each event. -/

/-- Which part of the package document the parser is inside. -/
inductive Section where
  | outside
  | metadata
  | manifest
  | spine
deriving DecidableEq, Repr

/-- The Dublin Core elements whose text content is worth keeping. -/
def dublinCore : List Str :=
  ["title", "creator", "contributor", "language", "identifier", "publisher", "description",
    "date", "subject", "rights", "source", "type", "format", "coverage", "relation"]

/-- A metadata element whose text is still being collected.  `refines` is the
target of a refining `<meta>`, empty for an entry of its own. -/
structure Pending where
  localName : Str
  entry : MetaEntry
  refines : Str
deriving DecidableEq, Repr

/-- Streaming state for one package document. -/
structure PackageParser where
  package : Package := {}
  sawPackage : Bool := false
  inSection : Section := .outside
  depth : Nat := 0
  sectionDepth : Nat := 0
  collecting : Option Pending := none
  text : Str := []
  refinements : List (Str × Refinement) := []
deriving DecidableEq, Repr

/-- `role` and `file-as` as EPUB 2 writes them, on the element itself. -/
def epub2Refinements (start : Tag) : List Refinement :=
  (["role", "file-as"] : List Str).filterMap fun name =>
    let value := attributeValue start name
    if value = [] then none else some { property := name, value, scheme := [] }

namespace PackageParser

/-- File one finished metadata element, or hold it as a refinement. -/
def store (self : PackageParser) (pending : Pending) (value : Str) : PackageParser :=
  if pending.refines = [] then
    { self with package.metadata.entries :=
        self.package.metadata.entries ++ [{ pending.entry with value }] }
  else
    { self with refinements := self.refinements ++
        [(pending.refines,
          { property := pending.entry.element, value, scheme := pending.entry.scheme })] }

/-- Enter a top-level section, remembering the depth to leave it at. -/
def enter (self : PackageParser) (inSection : Section) : PackageParser :=
  { self with inSection, sectionDepth := self.depth }

/-- What a start tag inside `<metadata>` opens, when it opens anything. -/
def pendingOf (start : Tag) (name : Str) : Option Pending :=
  if name = "meta" then
    let property := attributeValue start "property"
    if property = [] then none
    else some
      { localName := name
        entry :=
          { element := property, value := [], id := attributeValue start "id"
            scheme := attributeValue start "scheme", refinements := [] }
        refines := (attributeValue start "refines").dropWhile (· = '#') }
  else if name ∈ dublinCore then
    some
      { localName := name
        entry :=
          { element := name, value := [], id := attributeValue start "id"
            scheme := attributeValue start "scheme"
            refinements := epub2Refinements start }
        refines := [] }
  else none

/-- EPUB 2's cover convention, which names a manifest item. -/
def isCoverMeta (start : Tag) (name : Str) : Bool :=
  name == "meta" && (attributeValue start "name").eqIgnoreAsciiCase "cover"

/-- Handle a start tag inside `<metadata>`. -/
def openMetadata (self : PackageParser) (start : Tag) (name : Str) (empty : Bool) :
    PackageParser :=
  if isCoverMeta start name then
    let content := attributeValue start "content"
    if content ≠ [] ∧ self.package.metadata.coverId = [] then
      { self with package.metadata.coverId := content }
    else self
  else
    match pendingOf start name with
    | none => self
    | some pending =>
        if empty then { self with text := [] }.store pending []
        else { self with text := [], collecting := some pending }

def manifestItem (start : Tag) : ManifestItem where
  id := attributeValue start "id"
  href := attributeValue start "href"
  mediaType := attributeValue start "media-type"
  properties := (attributeValue start "properties").splitWhitespace
  mediaOverlay := attributeValue start "media-overlay"
  fallback := attributeValue start "fallback"

/-- Absent means linear; only the literal `no` opts out. -/
def spineItem (start : Tag) : SpineItem where
  idref := attributeValue start "idref"
  linear := attributeValue start "linear" ≠ "no"

/-- The start-tag dispatch, once the root has been seen. -/
def openInside (self : PackageParser) (start : Tag) (name : Str) (empty : Bool) :
    PackageParser :=
  match self.inSection with
  | .outside =>
      if empty then self
      else if name = "metadata" then self.enter .metadata
      else if name = "manifest" then self.enter .manifest
      else if name = "spine" then
        { self with package.tocIdref := attributeValue start "toc" }.enter .spine
      else self
  | .metadata => self.openMetadata start name empty
  | .manifest =>
      if name = "item" then
        { self with package.manifest := self.package.manifest ++ [manifestItem start] }
      else self
  | .spine =>
      if name = "itemref" then
        { self with package.spine := self.package.spine ++ [spineItem start] }
      else self

/-- Handle a start or empty-element tag. -/
def openTag (self : PackageParser) (start : Tag) (empty : Bool) :
    Except XmlError PackageParser :=
  let self := if empty then self else { self with depth := self.depth + 1 }
  let name := start.localName
  if !self.sawPackage then
    if name ≠ "package" then .error .notAPackage
    else .ok
      { self with
        sawPackage := true
        package.version := attributeValue start "version"
        package.uniqueIdentifierId := attributeValue start "unique-identifier" }
  else .ok (self.openInside start name empty)

/-- The collecting half of an end tag: the element it closes is filed. -/
def closeCollection (self : PackageParser) (name : Str) : PackageParser :=
  match self.collecting with
  | some pending =>
      if pending.localName = name then
        { self with collecting := none, text := [] }.store pending self.text.trim
      else self
  | none => self

/-- Handle an end tag. -/
def close (self : PackageParser) (name : Str) : PackageParser :=
  let self := self.closeCollection name
  let self :=
    if self.inSection ≠ .outside ∧ self.depth = self.sectionDepth then
      { self with inSection := .outside }
    else self
  { self with depth := self.depth - 1 }

/-- One turn of the event loop. -/
def step (self : PackageParser) : XmlEvent → Except XmlError PackageParser
  | .docType dtd =>
      match checkDoctype dtd with
      | .error e => .error e
      | .ok () => .ok self
  | .start tag => self.openTag tag false
  | .empty tag => self.openTag tag true
  | .endTag name => .ok (self.close (localName name))
  | .text content | .cData content =>
      if self.collecting.isSome then .ok { self with text := self.text ++ content } else .ok self
  | .generalRef reference =>
      if self.collecting.isSome then .ok { self with text := pushRef self.text reference }
      else .ok self
  | .other => .ok self

end PackageParser

/-! ## Reading the typed fields

What is read out of the collected entries when the document has ended. -/

/-- Attach one refinement to the first entry with the id it names. -/
def attachRefinement (entries : List MetaEntry) (target : Str) (refinement : Refinement) :
    List MetaEntry :=
  match entries with
  | [] => []
  | entry :: rest =>
      if entry.id = target then
        { entry with refinements := entry.refinements ++ [refinement] } :: rest
      else entry :: attachRefinement rest target refinement

/-- The first entry with this element name, or nothing. -/
def first (entries : List MetaEntry) (element : Str) : Str :=
  match entries.find? (·.element == element) with
  | some entry => entry.value
  | none => []

/-- Every value with this element name, in document order. -/
def every (entries : List MetaEntry) (element : Str) : List Str :=
  (entries.filter (·.element == element)).map (·.value)

/-- Every entry with this element name, read as a credited contributor. -/
def credited (entries : List MetaEntry) (element : Str) : List Contributor :=
  (entries.filter (·.element == element)).map fun entry =>
    { name := entry.value, role := entry.refined "role", fileAs := entry.refined "file-as" }

def titlesOf (entries : List MetaEntry) : List Title :=
  (entries.filter (·.element == "title".toList)).map fun entry =>
    { value := entry.value, titleType := entry.refined "title-type" }

/-- The title marked `main`, or the first one. -/
def mainTitle (titles : List Title) : Str :=
  match (titles.find? (·.titleType == "main".toList)).or titles.head? with
  | some title => title.value
  | none => []

/-- Read the typed metadata fields out of the collected entries. -/
def derive (metadata : Metadata) : Metadata :=
  let entries := metadata.entries
  { metadata with
    titles := titlesOf entries
    title := mainTitle (titlesOf entries)
    creators := credited entries "creator"
    contributors := credited entries "contributor"
    languages := every entries "language"
    language := (every entries "language").head?.getD []
    subjects := every entries "subject"
    identifiers := (entries.filter (·.element == "identifier".toList)).map fun entry =>
      { value := entry.value, id := entry.id, scheme := entry.scheme }
    publisher := first entries "publisher"
    description := first entries "description"
    date := first entries "date"
    modified := first entries "dcterms:modified"
    rights := first entries "rights"
    source := first entries "source"
    resourceType := first entries "type"
    format := first entries "format"
    coverage := first entries "coverage"
    relation := first entries "relation" }

/-- Attach the refinements, then read the typed fields out. -/
def PackageParser.finishMetadata (self : PackageParser) : Package :=
  let entries := self.refinements.foldl
    (fun entries (target, refinement) => attachRefinement entries target refinement)
    self.package.metadata.entries
  { self.package with metadata := derive { self.package.metadata with entries } }

/-- Parse an OPF package document. -/
def parsePackage (stream : XmlStream) : Except XmlError Package := do
  let parser ← stream.events.foldlM PackageParser.step {}
  let parser ← finish stream.stop parser
  if !parser.sawPackage then .error .notAPackage
  else if parser.package.spine = [] then .error .emptySpine
  else .ok parser.finishMetadata

end Opf

end GrpcEpub
