/-
# `GrpcEpub.Fold` — the Document fold

`document_fold.rs`: the projection of a response stream into one Document.
Events are taken in as they go by; the outline and the overlays wait until the
chapters they point at are known.

Reading a date can panic, and the opening event has two of them, so taking an
event in can panic too.  A length is a `usize`, so a group index that is too
big for one is out of range as well, and is a plain number here.
-/
import GrpcEpub.Document

namespace GrpcEpub

namespace Real64

/-- `f64::max`, which passes over a NaN. -/
def max : Real64 → Real64 → Real64
  | .nan, y => y
  | x, .nan => x
  | .posInf, _ | _, .posInf => .posInf
  | .negInf, y => y
  | x, .negInf => x
  | .finite a, .finite b => .finite (Max.max a b)

/-- `x > 0.0`. -/
def isPositive : Real64 → Bool
  | .finite a => 0 < a
  | .posInf => true
  | _ => false

end Real64

/-- Custom fields. -/
abbrev Fields := HashMap Str Value

/-- `DocumentFold`. -/
structure DocumentFold where
  document : Document
  version : Str
  coverHref : Str
  sourceHash : UInt64
  chapterRefs : HashMap Str Str
  outline : List NavPoint
  overlays : List MediaOverlay

namespace Fold

/-- `COLLECTOR`. -/
def collector : Str := "epub"

/-- `SCHEMA_NAME`. -/
def schemaName : Str := "docling_document_v2"

/-- `URI_SCHEME`. -/
def uriScheme : Str := "epub:"

/-- Whether a declared media type is an image. -/
def isImage (mediaType : Str) : Bool :=
  match Datetime.splitAt 6 mediaType.trim with
  | .ok (start, _) => start.eqIgnoreAsciiCase "image/"
  | .error _ => false

/-- One of the two root groups. -/
def root (selfRef : Str) (contentLayer : ContentLayer) : GroupItem := { selfRef, contentLayer }

/-- An empty document with its two roots in place. -/
def skeleton : Document where
  schemaName := some schemaName
  body := some (root bodyRef .body)
  furniture := some (root furnitureRef .furniture)

/-- Record a string field, skipping it when the book did not supply one. -/
def insertText (fields : Fields) (key value : Str) : Fields :=
  if value ≠ [] then AList.insert key (.string value) fields else fields

/-- Record a repeated string field, skipping it when empty. -/
def insertStrings (fields : Fields) (key : Str) (values : List Str) : Fields :=
  if values ≠ [] then AList.insert key (.list (values.map Value.string)) fields else fields

/-! ## Looking through the metadata

The first of a kind, those of a role, and what else is asked of a list of entries. -/

/-- The value of the first metadata entry with this element name. -/
def first (info : EpubInfo) (element : Str) : Str :=
  ((info.metadata.find? (·.element = element)).map MetadataEntry.value).getD []

/-- The creation date the book states, whichever way it states it. -/
def declaredCreation (info : EpubInfo) : Str :=
  let created := first info "dcterms:created"
  if created = [] then info.date else created

/-- The value of the first refinement of `entry` with this property. -/
def refined (entry : MetadataEntry) (property : Str) : Str :=
  ((entry.refinements.find? (·.property = property)).map MetadataRefinement.value).getD []

/-- The book's authors, the ones it marked as such first. -/
def authors (info : EpubInfo) : List Str :=
  let creators := info.metadata.filter (·.element = "creator".toList)
  if creators = [] then info.creators
  else
    let (authored, rest) := creators.partition (refined · "role" = "aut".toList)
    (authored ++ rest).map MetadataEntry.value

/-- `matches!(element, "creator" | "contributor")`. -/
def isCredit (entry : MetadataEntry) : Bool :=
  entry.element == "creator".toList || entry.element == "contributor".toList

/-- One credit, as a struct. -/
def credit (entry : MetadataEntry) : Value :=
  let role := refined entry "role"
  let fileAs := refined entry "file-as"
  .struct ([("name".toList, .string entry.value), ("element".toList, .string entry.element)] ++
    (if role ≠ [] then [("role".toList, .string role)] else []) ++
    (if fileAs ≠ [] then [("file_as".toList, .string fileAs)] else []))

/-- Creator and contributor credits, when one carries a role or a sort name. -/
def credits (info : EpubInfo) : Option Value :=
  let entries := (info.metadata.filter isCredit).filter fun entry =>
    refined entry "role" ≠ [] ∨ refined entry "file-as" ≠ []
  if entries = [] then none else some (.list (entries.map credit))

/-- The suffixes of `HumanLanguageLabel`'s names, each at its number. -/
def humanLanguages : List String :=
  ["UNSPECIFIED", "AA", "AB", "AE", "AF", "AK", "AM", "AN", "AR", "AS", "AV", "AY", "AZ", "BA",
   "BE", "BG", "BH", "BI", "BM", "BN", "BO", "BR", "BS", "CA", "CE", "CH", "CO", "CR", "CS",
   "CU", "CV", "CY", "DA", "DE", "DV", "DZ", "EE", "EL", "EN", "EO", "ES", "ET", "EU", "FA",
   "FF", "FI", "FJ", "FO", "FR", "FY", "GA", "GD", "GL", "GN", "GU", "GV", "HA", "HE", "HI",
   "HO", "HR", "HT", "HU", "HY", "HZ", "IA", "ID", "IE", "IG", "II", "IK", "IO", "IS", "IT",
   "IU", "JA", "JV", "KA", "KG", "KI", "KJ", "KK", "KL", "KM", "KN", "KO", "KR", "KS", "KU",
   "KV", "KW", "KY", "LA", "LB", "LG", "LI", "LN", "LO", "LT", "LU", "LV", "MG", "MH", "MI",
   "MK", "ML", "MN", "MR", "MS", "MT", "MY", "NA", "NB", "ND", "NE", "NG", "NL", "NN", "NO",
   "NR", "NV", "NY", "OC", "OJ", "OM", "OR", "OS", "PA", "PI", "PL", "PS", "PT", "QU", "RM",
   "RN", "RO", "RU", "RW", "SA", "SC", "SD", "SE", "SG", "SH", "SI", "SK", "SL", "SM", "SN",
   "SO", "SQ", "SR", "SS", "ST", "SU", "SV", "SW", "TA", "TE", "TG", "TH", "TI", "TK", "TL",
   "TN", "TO", "TR", "TS", "TT", "TW", "TY", "UG", "UK", "UR", "UZ", "VE", "VI", "VO", "WA",
   "WO", "XH", "YI", "YO", "ZA", "ZH", "ZU"]

/-- Map a BCP 47 tag onto the schema's language enum, by its primary subtag. -/
def languageCode (tag : Str) : Nat :=
  let primary := tag.takeWhile fun c => !(c == '-' || c == '_')
  if primary = [] then 0
  else ((humanLanguages.map String.toList).idxOf? (Str.toAsciiUppercase primary)).getD 0

/-- The chapter group an outline entry points at, when one matches. -/
def chapterTarget (href : Str) (chapters : HashMap Str Str) : Option FineRef :=
  if href = [] then none
  else (chapters.get (href.before '#')).map fun ref => { ref, range := none }

/-! ## The opening event

Info becomes the document's title, its metadata and its origin. -/

/-- One identifier, as a struct. -/
def identifier (identifier : DublinCoreIdentifier) : Value :=
  .struct (("value".toList, .string identifier.value) ::
    if identifier.scheme ≠ [] then [("scheme".toList, .string identifier.scheme)] else [])

/-- The Dublin Core elements that have no slot of their own. -/
def openElements : List Str :=
  ["rights", "source", "type", "format", "coverage", "relation"]

/-- `format!("epub.{element}")`. -/
def epubKey (element : Str) : Str := "epub.".toList ++ element

/-- The OPF facts that have no typed home. -/
def infoFields (info : EpubInfo) : Fields :=
  let fields := insertText ∅ "epub.unique_identifier" info.uniqueIdentifier
  let fields := insertText fields "epub.publisher" info.publisher
  let fields := insertText fields "epub.description" info.description
  let fields := insertText fields "epub.epub_version" info.epubVersion
  let fields := insertText fields "epub.opf_href" info.opfHref
  let fields := insertStrings fields "epub.contributors" info.contributors
  let fields :=
    if info.identifiers ≠ [] then
      AList.insert "epub.identifiers".toList (.list (info.identifiers.map identifier)) fields
    else fields
  let fields := insertText fields "epub.nav_href" info.navHref
  let fields := insertText fields "epub.ncx_href" info.ncxHref
  let fields := openElements.foldl
    (fun fields element => insertText fields (epubKey element) (first info element)) fields
  match credits info with
  | some credits => AList.insert "epub.creator_roles".toList credits fields
  | none => fields

/-- Record a key, skipping it when the book did not supply a value. -/
def record (extra : HashMap Str Str) (key value : Str) : HashMap Str Str :=
  if value ≠ [] then AList.insert key value extra else extra

/-- Subtitles and the rest of the titles. -/
def recordTitle (extra : HashMap Str Str) (entry : MetadataEntry) : HashMap Str Str :=
  let kind := refined entry "title-type"
  if kind ≠ [] ∧ kind ≠ "main" then record extra (epubKey ("title.".toList ++ kind)) entry.value
  else extra

/-- Sort names and roles, keyed by the name they qualify. -/
def recordCredit (extra : HashMap Str Str) (entry : MetadataEntry) : HashMap Str Str :=
  let role := refined entry "role"
  let fileAs := refined entry "file-as"
  let extra :=
    if role ≠ [] then record extra (epubKey ("role.".toList ++ entry.value)) role else extra
  if fileAs ≠ [] then record extra (epubKey ("file-as.".toList ++ entry.value)) fileAs else extra

/-- One identifier, under its position. -/
def recordIdentifier (extra : HashMap Str Str) (identifier : DublinCoreIdentifier × Nat) :
    HashMap Str Str :=
  let key := epubKey ("identifier.".toList ++ shown identifier.2)
  let extra := record extra key identifier.1.value
  record extra (key ++ ".scheme".toList) identifier.1.scheme

/-- The open vocabulary of `DocumentMeta.extra`. -/
def extra (info : EpubInfo) : HashMap Str Str :=
  let extra := record ∅ "epub.publisher" info.publisher
  let extra := record extra "epub.description" info.description
  let extra := record extra "epub.unique_identifier" info.uniqueIdentifier
  let extra := record extra "epub.version" info.epubVersion
  let extra := record extra "epub.opf_href" info.opfHref
  let extra := openElements.foldl
    (fun extra element => record extra (epubKey element) (first info element)) extra
  let extra := (info.metadata.filter (·.element = "title".toList)).foldl recordTitle extra
  let extra := (info.metadata.filter isCredit).foldl recordCredit extra
  info.identifiers.zipIdx.foldl recordIdentifier extra

/-- `(!value.is_empty()).then(|| value)`. -/
def stated (value : Str) : Option Str := if value ≠ [] then some value else none

/-- The book's own account of itself, typed. -/
def sourceMeta (info : EpubInfo) : Except Panic DocumentMeta := do
  let createdRaw := declaredCreation info
  let created ← (Datetime.parse createdRaw).run
  let modified ← (Datetime.parse info.modified).run
  return {
    title := stated info.title
    authors := authors info
    created
    modified
    language := stated info.language
    generator := none
    keywords := info.subjects
    schemaLocation := none
    createdRaw := stated createdRaw
    modifiedRaw := stated info.modified
    extra := extra info }

/-- The language the book declares. -/
def languageField (info : EpubInfo) : Option LanguageMetaField :=
  if info.language ≠ [] then
    some {
      code := languageCode info.language
      codeRaw := some info.language
      createdBy := some collector
      confidence := none
      customFields := ∅ }
  else none

/-- The subjects the book declares. -/
def keywordsField (info : EpubInfo) : Option KeywordsMetaField :=
  if info.subjects ≠ [] then some { values := info.subjects, customFields := ∅ } else none

/-- What the body group says about the book. -/
def bodyMeta (info : EpubInfo) : BaseMeta where
  language := languageField info
  keywords := keywordsField info
  customFields := infoFields info

end Fold

/-! ## Groups and links

Items are appended to the lists of a document, and named by the position they get. -/

/-- A group with one more child. -/
def GroupItem.push (childRef : Str) (group : GroupItem) : GroupItem :=
  { group with children := group.children ++ [⟨childRef⟩] }

namespace Document

/-- `str::parse::<usize>`, of any size. -/
def parseIndex (index : Str) : Option Nat :=
  let digits := if index.head? = some '+' then index.tail else index
  if digits = [] ∨ ¬ digits.all Datetime.isDigit then none else some (Datetime.number digits)

/-- `#/groups/`. -/
def groupPath : Str := "#/groups/"

/-- `str::strip_prefix` and `parse`, for a group in range. -/
def groupIndex (document : Document) (groupRef : Str) : Option Nat :=
  if groupRef.startsWith groupPath then
    match parseIndex (groupRef.drop groupPath.length) with
    | some index => if index < document.groups.length then some index else none
    | none => none
  else none

/-- `group_mut`: change the group a JSON Pointer names, falling back to the body. -/
def modifyGroup (groupRef : Str) (change : GroupItem → GroupItem) (document : Document) : Document :=
  if groupRef = furnitureRef then
    { document with
      furniture := some (change (document.furniture.getD (Fold.root furnitureRef .furniture))) }
  else
    match document.groupIndex groupRef with
    | some index => { document with groups := document.groups.modify index change }
    | none => { document with body := some (change (document.body.getD (Fold.root bodyRef .body))) }

/-- `link_child`: record a child on its parent. -/
def linkChild (parentRef childRef : Str) (document : Document) : Document :=
  document.modifyGroup parentRef (.push childRef)

/-- Append a group, and list it on the body. -/
def pushGroup (group : GroupItem) (document : Document) : Document :=
  linkChild bodyRef group.selfRef { document with groups := document.groups ++ [group] }

/-- Append a picture, and list it on its parent. -/
def pushPicture (parentRef : Str) (picture : PictureItem) (document : Document) : Document :=
  linkChild parentRef picture.selfRef { document with pictures := document.pictures ++ [picture] }

/-- The `self_ref` of the next group. -/
def nextGroup (document : Document) : Str := groupPath ++ shown document.groups.length

/-- `#/pictures/`. -/
def picturePath : Str := "#/pictures/"

/-- The `self_ref` of the next picture. -/
def nextPicture (document : Document) : Str := picturePath ++ shown document.pictures.length

end Document

namespace DocumentFold

open Fold

/-- A fold that attributes its items to `version` of this collector. -/
def new (version : Str) : DocumentFold where
  document := skeleton
  version := version
  coverHref := []
  sourceHash := 0
  chapterRefs := ∅
  outline := []
  overlays := []

/-- Record the archive's integrity key. -/
def setSourceHash (hash : UInt64) (self : DocumentFold) : DocumentFold :=
  { self with sourceHash := hash }

/-! ## Events

One function for each message that the fold takes in. -/

/-- Where the archive came from. -/
def origin (self : DocumentFold) : DocumentOrigin where
  mimetype := epubMimetype
  binaryHash := self.sourceHash
  filename := []
  uri := none

/-- The opening event, once its dates are read. -/
def describe (info : EpubInfo) (sourceMeta : DocumentMeta) (self : DocumentFold) : DocumentFold :=
  let document := { self.document with name := info.title, origin := self.origin, sourceMeta }
  { self with
    coverHref := info.coverHref
    document := document.modifyGroup bodyRef fun body => { body with metadata := some (bodyMeta info) } }

/-- Map the opening `info` event: name, origin, and the OPF metadata. -/
def info (info : EpubInfo) (self : DocumentFold) : Except Panic DocumentFold := do
  let sourceMeta ← sourceMeta info
  return self.describe info sourceMeta

/-- This collector's attribution, for the items that have a slot for it. -/
def collectorSource (self : DocumentFold) : SourceType :=
  .collector {
    collector
    model := none
    version := some self.version
    confidence := none
    rawScore := none
    rawScoreKind := none }

/-- `attribute`: attribute a group to this collector, through its custom fields. -/
def attributed (self : DocumentFold) (fields : Fields) : Fields :=
  AList.insert "epub.collector".toList
    (.struct [("collector".toList, .string collector), ("version".toList, .string self.version)])
    fields

/-- The picture of the archive entry `href`. -/
def pictureItem (self : DocumentFold) (parentRef href manifestId mediaType : Str) : PictureItem :=
  let fields : Fields := AList.insert "epub.href".toList (.string href) ∅
  let fields := AList.insert "epub.manifest_id".toList (.string manifestId) fields
  let fields :=
    if self.coverHref ≠ [] ∧ href = self.coverHref then
      AList.insert "epub.cover".toList (.bool true) fields
    else fields
  { selfRef := self.document.nextPicture
    parent := some ⟨parentRef⟩
    contentLayer := .body
    label := .picture
    image := some { mimetype := mediaType, dpi := 0, size := none, uri := uriScheme ++ href }
    metadata := some { customFields := fields }
    source := [self.collectorSource] }

/-- Append one picture of the archive entry `href` under `parentRef`. -/
def addPicture (parentRef href manifestId mediaType : Str) (self : DocumentFold) : DocumentFold :=
  let picture := self.pictureItem parentRef href manifestId mediaType
  { self with document := self.document.pushPicture parentRef picture }

/-- Map one image `resource` event to one picture under the body. -/
def picture (resource : Resource) (self : DocumentFold) : DocumentFold :=
  self.addPicture bodyRef resource.href resource.manifestId resource.mediaType

/-- The group of one chapter. -/
def chapterGroup (self : DocumentFold) (chapter : Chapter) : GroupItem :=
  let fields : Fields := AList.insert "epub.idref".toList (.string chapter.idref) ∅
  let fields := AList.insert "epub.media_type".toList (.string chapter.mediaType) fields
  let fields := AList.insert "epub.linear".toList (.bool chapter.linear) fields
  let fields :=
    AList.insert "epub.spine_index".toList (.number (.finite chapter.spineIndex)) fields
  let fields := insertStrings fields "epub.properties" chapter.properties
  let fields := insertText fields "epub.media_overlay_href" chapter.mediaOverlayHref
  { selfRef := self.document.nextGroup
    parent := some ⟨bodyRef⟩
    children := []
    contentLayer := .body
    metadata := some { customFields := self.attributed fields }
    name := some chapter.href
    label := .chapter
    labelRaw := none }

/-- Map one `chapter` event to one chapter group under the body. -/
def chapter (chapter : Chapter) (self : DocumentFold) : DocumentFold :=
  let group := self.chapterGroup chapter
  let self := { self with document := self.document.pushGroup group }
  let self :=
    if isImage chapter.mediaType then
      self.addPicture group.selfRef chapter.href chapter.idref chapter.mediaType
    else self
  { self with chapterRefs := AList.insert chapter.href group.selfRef self.chapterRefs }

/-- Fold one outbound event in. -/
def consume {δ : Type} (event : Event δ) (self : DocumentFold) : Except Panic DocumentFold :=
  match event with
  | .info info => self.info info
  | .chapter chapter => .ok (self.chapter chapter)
  | .resource resource => .ok (if resource.kind = .image then self.picture resource else self)
  | .navigation navigation => .ok { self with outline := navigation.toc }
  | .mediaOverlay overlay => .ok { self with overlays := self.overlays ++ [overlay] }
  | .status _ | .document _ => .ok self

/-! ## The end of the fold

What had to wait: the outline, and the cues of the overlays. -/

mutual
/-- Append `point` and its children, depth-first in reading order. -/
def outlineWalk (chapters : HashMap Str Str) : NavPoint → List OutlineEntry → List OutlineEntry
  | .mk label href depth children, out =>
      outlineWalkAll chapters children (out ++ [{
        title := label
        level := if depth < 2 ^ 31 then depth else 2 ^ 31 - 1
        pageNo := none
        target := chapterTarget href chapters }])
def outlineWalkAll (chapters : HashMap Str Str) :
    List NavPoint → List OutlineEntry → List OutlineEntry
  | [], out => out
  | point :: rest, out => outlineWalkAll chapters rest (outlineWalk chapters point out)
end

/-- Turn the held navigation entries into `Document.outline`. -/
def projectOutline (self : DocumentFold) : DocumentFold :=
  { self with
    outline := []
    document := { self.document with
      outline := outlineWalkAll self.chapterRefs self.outline self.document.outline } }

/-- One cue, as a struct. -/
def cueValue (cue : Cue) : Value :=
  .struct ([("text_href".toList, .string cue.textHref), ("audio_href".toList, .string cue.audioHref),
      ("start_time".toList, .number cue.startTime), ("end_time".toList, .number cue.endTime)] ++
    if cue.identifier ≠ [] then [("id".toList, .string cue.identifier)] else [])

/-- Where one overlay's narration ends, in milliseconds. -/
def narrationEnd (overlay : MediaOverlay) : Real64 :=
  ((overlay.cues.map Cue.endTime).foldl Real64.max .zero).scale 1000

/-- Put one overlay's cues onto the chapter it narrates. -/
def attachCues (chapters : HashMap Str Str) (document : Document) (overlay : MediaOverlay) :
    Document :=
  match chapters.get overlay.chapterHref with
  | none => document
  | some groupRef =>
      document.modifyGroup groupRef fun group =>
        { group with
          metadata := group.metadata.map fun metadata =>
            { metadata with
              customFields := AList.insert "epub.media_overlay_cues".toList
                (.list (overlay.cues.map cueValue)) metadata.customFields } }

/-- Say how long the narration runs. -/
def narrate (narrationMs : Real64) (document : Document) : Document :=
  if narrationMs.isPositive then
    { document with media := some { durationMs := some narrationMs, speakers := [], codec := none } }
  else document

/-- Fold the held overlays: cues onto their chapter, length onto the document. -/
def projectOverlays (self : DocumentFold) : DocumentFold :=
  let narrationMs := (self.overlays.map narrationEnd).foldl Real64.max .zero
  let document := self.overlays.foldl (attachCues self.chapterRefs) self.document
  { self with overlays := [], document := narrate narrationMs document }

/-- Take the folded document, leaving an empty one behind. -/
def take (self : DocumentFold) : Document × DocumentFold :=
  let self := self.projectOutline.projectOverlays
  (self.document, { self with coverHref := [], chapterRefs := ∅, document := skeleton })

end DocumentFold

end GrpcEpub
