/-
# `GrpcEpub.Extract` — the decisions of the parse driver

The parts of `extract.rs` that read nothing and send nothing: how manifest
items are classified, resolved and looked up, which of them a spine item's
chapter is read from, what the opening event says, and which resources the
walk will send.

Manifest positions and entry positions are indices, and an index out of range
is a panic here as it is in the source.  A `Book` is what the first half of
`parse` has found out by the time it knows the package; everything else in
this file is a function of one.
-/
import GrpcEpub.Archive
import GrpcEpub.Encryption

namespace GrpcEpub

/-- One manifest item, resolved against the archive. -/
structure Resolved where
  item : ManifestItem
  path : Str
  entry : Option Nat
  remote : Bool
  unusable : Option PathError
deriving DecidableEq, Repr, Inhabited

namespace Extract

/-! ## Media types

By the type without its parameters. -/

/-- The media type in lower case without its parameters. -/
def baseType (mediaType : Str) : Str := (mediaType.trim.toAsciiLowercase.before ';').trim

/-- Classify a manifest item by its declared media type. -/
def classify (mediaType : Str) : ResourceKind :=
  let base := baseType mediaType
  if base = [] then .unspecified
  else if base = "text/css" then .stylesheet
  else if base ∈ (["application/xhtml+xml", "text/html", "application/x-dtbncx+xml",
      "text/x-oeb1-document"] : List Str) then .document
  else if base ∈ (["application/vnd.ms-opentype", "application/font-woff",
      "application/font-sfnt"] : List Str) then .font
  else if base.startsWith "image/" then .image
  else if base.startsWith "font/" then .font
  else if base.startsWith "audio/" then .audio
  else if base.startsWith "video/" then .video
  else if base.startsWith "application/x-font" then .font
  else .other

/-- Whether a resource of this kind is emitted under these options. -/
def selected (kind : ResourceKind) (limits : Effective) : Bool :=
  if limits.includeAllResources then true
  else
    match kind with
    | .document => true
    | .image => limits.includeImages
    | .stylesheet => limits.includeStylesheets
    | _ => false

/-- `Path::file_name`: the last component, when it is a name. -/
def fileName (path : Str) : Option Str :=
  match ((path.splitOn '/').filter (fun c => c ≠ [] ∧ c ≠ ['.'])).getLast? with
  | some name => if name = ['.', '.'] then none else some name
  | none => none

/-- `Path::extension`: what follows the last dot of a file name that has
something in front of it. -/
def extension (path : Str) : Option Str :=
  match fileName path with
  | none => none
  | some name =>
      if '.' ∈ name then
        let ext := (name.reverse.takeWhile (· ≠ '.')).reverse
        if name.length = ext.length + 1 then none else some ext
      else none

/-- Whether a media type or path would be another archive. -/
def isNestedArchive (mediaType path : Str) : Bool :=
  mediaType.trim.toAsciiLowercase ∈
      (["application/zip", "application/epub+zip", "application/x-zip-compressed"] : List Str) ||
    (extension path.toAsciiLowercase).any fun ext =>
      ext.eqIgnoreAsciiCase "zip" || ext.eqIgnoreAsciiCase "epub"

/-- Whether a media type is markup the HTML collector reads as a chapter. -/
def isMarkup (mediaType : Str) : Bool :=
  baseType mediaType ∈
    (["application/xhtml+xml", "text/html", "text/x-oeb1-document"] : List Str)

/-! ## Looking paths up

The decoded path first, and then the path as it was written. -/

/-- `entries.iter().enumerate().map(..).collect()`: the name-to-position map. -/
def indexOf (entries : List EntryInfo) : HashMap Str Nat :=
  entries.zipIdx.foldl (fun index (entry, position) => index.insert entry.name position) ∅

/-- Look an archive path up, tolerating a producer that never percent-encoded. -/
def lookup (index : HashMap Str Nat) (decoded rawBase rawHref : Str) : Option Nat :=
  match index.get decoded with
  | some found => some found
  | none =>
      match Href.normalize rawBase (rawHref.before '#') with
      | .ok raw => index.get raw
      | .error _ => none

/-- Where one cipher reference points, root-relative or, failing that, relative
to `META-INF`. -/
def cipherTarget (index : HashMap Str Nat) (uri : Str) : Option Nat :=
  let resolved (base : Str) : Option Nat :=
    match Href.resolve base uri with
    | .ok (.entry path) => lookup index path base uri
    | _ => none
  (resolved []).or (resolved "META-INF")

/-- Read the encryption descriptor as policy: the entries stored
font-obfuscated, or a refusal. -/
def obfuscatedEntries (descriptor : XmlStream) (index : HashMap Str Nat) :
    Except Status (List Nat) :=
  match Encryption.parseEncryption descriptor with
  | .error e => .error (.encryptionDescriptor e)
  | .ok records =>
      match records.find? (fun record => !record.isObfuscation) with
      | some drm => .error (.drm drm.algorithm)
      | none => .ok (records.filterMap fun record => cipherTarget index record.uri)

/-! ## Resolving the manifest

Each item by itself: a path, an absolute URI, or what is wrong with its href. -/

/-- One turn of the manifest loop. -/
def resolveItem (index : HashMap Str Nat) (opfDir : Str) (item : ManifestItem) : Resolved :=
  match Href.resolve opfDir item.href with
  | .ok (.entry path) =>
      { item, path, entry := lookup index path opfDir item.href, remote := false
        unusable := none }
  | .ok (.remote uri) => { item, path := uri, entry := none, remote := true, unusable := none }
  | .error error =>
      { item, path := item.href, entry := none, remote := false, unusable := some error }

/-- Manifest ids to positions, the first item with an id keeping it. -/
def idPositions (manifest : List ManifestItem) : HashMap Str Nat :=
  manifest.zipIdx.foldl (fun byId (item, position) => byId.orInsert item.id position) ∅

end Extract

/-- The warnings that end up on the trailer, and the kinds already reported. -/
structure Warnings where
  entries : List ParseWarning := []
  reportedKinds : List ResourceKind := []
deriving DecidableEq, Repr

/-- `MAX_WARNINGS`. -/
def maxWarnings : Nat := 64

namespace Warnings

/-- Record a warning, dropping it once the cap is reached. -/
def push (self : Warnings) (code : ParseWarningCode) (href : Str) (message : WarningText) :
    Warnings :=
  if maxWarnings ≤ self.entries.length then self
  else { self with entries := self.entries ++ [{ code, message, href }] }

/-- Record an excluded resource kind, at most once per kind. -/
def excludeKind (self : Warnings) (kind : ResourceKind) : Warnings :=
  if kind ∈ self.reportedKinds then self
  else
    { self with reportedKinds := kind :: self.reportedKinds }.push .resourceKindExcluded []
      (.kindExcluded kind)

end Warnings

/-- What `parse` knows of a book once its package document is read: the entries
of the archive, those the encryption policy lists, where the OPF is, and what
it says. -/
structure Book where
  entries : List EntryInfo
  obfuscated : List Nat
  opfPath : Str
  package : Package
deriving DecidableEq, Repr

/-- One resolved spine position: the spine item, the manifest item its chapter
is read from, and the itemref. -/
structure SpineEntry where
  primary : Nat
  source : Nat
  itemref : SpineItem
deriving DecidableEq, Repr, Inhabited

/-- `xs[i]`. -/
def nth {α : Type} (xs : List α) (i : Nat) : Except Abort α :=
  match xs[i]? with
  | some x => .ok x
  | none => .error (.panicked .index)

/-- `Option::expect`. -/
def expect {α : Type} : Option α → Except Abort α
  | some x => .ok x
  | none => .error (.panicked .expected)

namespace Book

open Extract

variable (book : Book)

def index : HashMap Str Nat := indexOf book.entries

def opfDir : Str := Href.parentDir book.opfPath

def resolved : List Resolved :=
  book.package.manifest.map (resolveItem book.index book.opfDir)

def byId : HashMap Str Nat := idPositions book.package.manifest

/-! ## The spine

An itemref is looked up by its idref, and the chapter is read from the first of its fallbacks
that can be. -/

/-- `MAX_FALLBACK_CHAIN`. -/
def maxFallbackChain : Nat := 16

/-- The loop of `chapter_source`, extending the chain from its last item.
`room` is how many more items the chain may take. -/
def fallbackChain (last : Nat) (chain : List Nat) : Nat → Except Abort (List Nat)
  | 0 => .ok chain
  | room + 1 => do
      let target ← nth book.resolved last
      if target.item.fallback = [] then return chain
      else
        match book.byId.get target.item.fallback with
        | some next =>
            if next ∈ chain then return chain
            else fallbackChain next (chain ++ [next]) room
        | none => return chain

/-- The items of a chain the archive holds, with their resolution. -/
def heldItems : List Nat → Except Abort (List (Nat × Resolved))
  | [] => .ok []
  | position :: rest => do
      let target ← nth book.resolved position
      let others ← heldItems rest
      return if target.entry.isSome then (position, target) :: others else others

/-- The manifest item a spine item's chapter is read from: the first markup in
its fallback chain that the archive holds, else the first item it holds. -/
def chapterSource (primary : Nat) : Except Abort (Option Nat) := do
  let chain ← book.fallbackChain primary [primary] (maxFallbackChain - 1)
  let held ← book.heldItems chain
  return ((held.find? fun (_, target) => isMarkup target.item.mediaType).or held.head?).map
    Prod.fst

/-- Why nothing in a spine item's chain is in the archive. -/
def spineRefusal (itemref : SpineItem) (target : Resolved) : Status :=
  match target.unusable with
  | some error => .spineUnusable target.item.id target.item.href error
  | none =>
      if target.remote then .spineRemote itemref.idref target.path
      else .spineMissing itemref.idref target.path

/-- One turn of the spine loop. -/
def resolveItemref (itemref : SpineItem) : Except Abort SpineEntry :=
  match book.byId.get itemref.idref with
  | none => .error (.failed (.itemrefNamesNothing itemref.idref))
  | some position => do
      match ← book.chapterSource position with
      | some source =>
          let target ← nth book.resolved source
          let entry ← expect target.entry
          if entry ∈ book.obfuscated then
            .error (.failed (.spineEncrypted itemref.idref target.path))
          else return { primary := position, source, itemref }
      | none =>
          let target ← nth book.resolved position
          .error (.failed (spineRefusal itemref target))

/-- The spine, resolved before a single event goes out. -/
def resolveSpine : List SpineItem → Except Abort (List SpineEntry)
  | [] => .ok []
  | itemref :: rest => do
      let first ← book.resolveItemref itemref
      let others ← resolveSpine rest
      return first :: others

/-! ## The opening event

Where the navigation and the cover are, and what info says of the book. -/

/-- Where a book's navigation lives, and in which dialect. -/
structure NavigationSource where
  position : Nat
  entry : Nat
  fromNcx : Bool
deriving DecidableEq, Repr

/-- The EPUB 3 navigation document, when the archive holds it. -/
def navDocument : Except Abort (Option NavigationSource) :=
  match book.resolved.findIdx? (fun target => "nav".toList ∈ target.item.properties) with
  | some position => do
      let target ← nth book.resolved position
      return target.entry.map fun entry => { position, entry, fromNcx := false }
  | none => return none

/-- The EPUB 2 NCX, which only the spine's `toc` attribute names. -/
def ncxDocument : Except Abort (Option NavigationSource) :=
  match book.byId.get book.package.tocIdref with
  | some position => do
      let target ← nth book.resolved position
      return target.entry.map fun entry => { position, entry, fromNcx := true }
  | none => return none

/-- Locate the book's navigation document; EPUB 3 wins over the NCX. -/
def navigationSource : Except Abort (Option NavigationSource) := do
  match ← book.navDocument with
  | some source => return some source
  | none => book.ncxDocument

/-- An href that is no archive path names no cover. -/
def coverPath (target : Resolved) : Str :=
  if target.unusable.isSome then [] else target.path

/-- The cover image's path, if the book names one. -/
def cover : Str :=
  match book.resolved.find? (fun target => "cover-image".toList ∈ target.item.properties) with
  | some target => coverPath target
  | none =>
      let coverId := book.package.metadata.coverId
      if coverId = [] then []
      else
        match book.resolved.find? (fun target => target.item.id == coverId) with
        | some target => coverPath target
        | none => []

/-- `u32::try_from(n).unwrap_or(u32::MAX)`. -/
def saturating32 (n : Nat) : Nat := min n u32Max

def metadataEntry (entry : MetaEntry) : MetadataEntry where
  element := entry.element
  value := entry.value
  id := entry.id
  scheme := entry.scheme
  refinements := entry.refinements.map fun refinement =>
    { property := refinement.property, value := refinement.value, scheme := refinement.scheme }

/-- The value of the identifier the package names as its own. -/
def uniqueIdentifier : Str :=
  match book.package.metadata.identifiers.find? (fun identifier =>
      book.package.uniqueIdentifierId ≠ [] && identifier.id == book.package.uniqueIdentifierId) with
  | some identifier => identifier.value
  | none => []

/-- The path of the navigation document when it is in this dialect. -/
def navigationHref (source : Option NavigationSource) (fromNcx : Bool) : Except Abort Str :=
  match source with
  | some source =>
      if source.fromNcx = fromNcx then do
        let target ← nth book.resolved source.position
        return target.path
      else return []
  | none => return []

/-- The opening event. -/
def info (spine : List SpineEntry) (source : Option NavigationSource) : Except Abort EpubInfo := do
  let metadata := book.package.metadata
  let navHref ← book.navigationHref source false
  let ncxHref ← book.navigationHref source true
  return {
    title := metadata.title
    creators := metadata.creators.map (·.name)
    contributors := metadata.contributors.map (·.name)
    language := metadata.language
    identifiers := metadata.identifiers.map fun identifier =>
      { value := identifier.value, id := identifier.id, scheme := identifier.scheme }
    uniqueIdentifier := book.uniqueIdentifier
    publisher := metadata.publisher
    description := metadata.description
    date := metadata.date
    subjects := metadata.subjects
    spineItemCount := saturating32 spine.length
    opfHref := book.opfPath
    epubVersion := book.package.version
    coverHref := book.cover
    metadata := metadata.entries.map metadataEntry
    modified := metadata.modified
    navHref
    ncxHref }

/-! ## Planning the walk

The `Fate` of each item says whether it is sent, and if not whether that is counted and said. -/

/-- The archive entry of each chapter. -/
def chapterEntries : List SpineEntry → Except Abort (List Nat)
  | [] => .ok []
  | chapter :: rest => do
      let target ← nth book.resolved chapter.source
      let entry ← expect target.entry
      let others ← chapterEntries rest
      return entry :: others

/-- What becomes of one manifest item. -/
inductive Fate where
  | chapterSource
  | unusable (error : PathError)
  | remote
  | missing
  | alreadyChapter
  | nested
  | excluded (kind : ResourceKind)
  | obfuscated
  | pending (entry : Nat)
deriving DecidableEq, Repr

/-- The questions the planning loop asks of an item, in its order. -/
def fate (limits : Effective) (sources entries : List Nat) (position : Nat) (target : Resolved) :
    Fate :=
  if position ∈ sources then .chapterSource
  else
    match target.unusable with
    | some error => .unusable error
    | none =>
        if target.remote then .remote
        else
          match target.entry with
          | none => .missing
          | some entry =>
              if entry ∈ entries then .alreadyChapter
              else if isNestedArchive target.item.mediaType target.path then .nested
              else if !selected (classify target.item.mediaType) limits then
                .excluded (classify target.item.mediaType)
              else if entry ∈ book.obfuscated then .obfuscated
              else .pending entry

/-- The warning an item's fate calls for. -/
def warn (warnings : Warnings) (target : Resolved) : Fate → Warnings
  | .chapterSource | .alreadyChapter | .pending _ => warnings
  | .unusable error =>
      warnings.push .missingManifestEntry []
        (.unusableHref target.item.id target.item.href error)
  | .remote => warnings.push .missingManifestEntry target.path .remoteResource
  | .missing => warnings.push .missingManifestEntry target.path .missingFile
  | .nested => warnings.push .nestedArchive target.path .nestedArchive
  | .excluded kind => warnings.excludeKind kind
  | .obfuscated => warnings.push .obfuscatedResource target.path .obfuscated

/-- Whether an item with this fate counts as skipped. -/
def Fate.skips : Fate → Bool
  | .chapterSource | .alreadyChapter | .pending _ => false
  | _ => true

/-- The archive entry an item with this fate will be sent from. -/
def Fate.entry : Fate → Option Nat
  | .pending entry => some entry
  | _ => none

/-- The locals of the planning loop. -/
structure Plan where
  pending : List (Nat × Nat) := []
  skipped : Nat := 0
  warnings : Warnings := {}
deriving DecidableEq, Repr

/-- `a + b` in `u32`, panicking on overflow. -/
def add32 (a b : Nat) : Except Abort Nat :=
  if a + b ≤ u32Max then .ok (a + b) else .error (.panicked .overflow)

/-- `skipped += 1`, for a fate that counts. -/
def countSkipped (skipped : Nat) (fate : Fate) : Except Abort Nat :=
  if fate.skips then add32 skipped 1 else .ok skipped

/-- One turn of the planning loop. -/
def planItem (limits : Effective) (sources entries : List Nat) (plan : Plan)
    (item : Resolved × Nat) : Except Abort Plan := do
  let fate := book.fate limits sources entries item.2 item.1
  let skipped ← countSkipped plan.skipped fate
  return {
    pending := plan.pending ++ (fate.entry.map fun entry => (entry, item.2)).toList
    skipped
    warnings := warn plan.warnings item.1 fate }

/-- The order of `sort_unstable` on pairs. -/
def pairLe (a b : Nat × Nat) : Prop := a.1 < b.1 ∨ a.1 = b.1 ∧ a.2 ≤ b.2

instance : DecidableRel pairLe := fun _ _ => inferInstanceAs (Decidable (_ ∨ _))

/-- `dedup_by_key` after its first element: of consecutive equal keys the first stays. -/
def dedupFrom (kept : Nat × Nat) : List (Nat × Nat) → List (Nat × Nat)
  | [] => [kept]
  | next :: rest => if kept.1 = next.1 then dedupFrom kept rest else kept :: dedupFrom next rest

def dedupByKey : List (Nat × Nat) → List (Nat × Nat)
  | [] => []
  | first :: rest => dedupFrom first rest

/-- Archive order, each entry once. -/
def archiveOrder (pending : List (Nat × Nat)) : List (Nat × Nat) :=
  dedupByKey (pending.insertionSort pairLe)

/-! ## Media overlays

Which item is narrated by which, and where an overlay is used last. -/

/-- Every narrated item with its overlay, from a position on. -/
def overlayLinksFrom : List (Resolved × Nat) → Except Abort (List (Nat × Nat))
  | [] => .ok []
  | (target, position) :: rest => do
      match book.byId.get target.item.mediaOverlay with
      | none => overlayLinksFrom rest
      | some overlay =>
          let narration ← nth book.resolved overlay
          let others ← overlayLinksFrom rest
          -- An overlay whose href is no archive path has no path to report.
          return if narration.unusable.isNone then (position, overlay) :: others else others

/-- Every `(narrated item, its overlay)` pair the manifest declares. -/
def overlayLinks : Except Abort (List (Nat × Nat)) :=
  book.overlayLinksFrom book.resolved.zipIdx

/-- The last pair each overlay entry serves. -/
def lastUseFrom : List ((Nat × Nat) × Nat) → HashMap Nat Nat → Except Abort (HashMap Nat Nat)
  | [], uses => .ok uses
  | ((_, overlay), round) :: rest, uses => do
      let target ← nth book.resolved overlay
      match target.entry with
      | some entry => lastUseFrom rest (uses.insert entry round)
      | none => lastUseFrom rest uses

def lastUse (overlays : List (Nat × Nat)) : Except Abort (HashMap Nat Nat) :=
  book.lastUseFrom overlays.zipIdx ∅

/-- The path of an item's overlay, empty when it has none. -/
def overlayHref (overlays : List (Nat × Nat)) (position : Nat) : Except Abort Str :=
  match overlays.find? (fun (owner, _) => owner == position) with
  | some (_, overlay) => do
      let target ← nth book.resolved overlay
      return target.path
  | none => return []

/-! ## The events of the walk

What is said of a chapter or a resource beside its content. -/

/-- The path of the spine item a fallback stands in for, when it has one. -/
def primaryHref (chapter : SpineEntry) (spineItem : Resolved) : Str :=
  if chapter.primary = chapter.source ∨ spineItem.remote ∨ spineItem.unusable.isSome then []
  else spineItem.path

def chapterEvent (spineIndex : Nat) (chapter : SpineEntry) (target spineItem : Resolved)
    (content : Bytes) (mediaOverlayHref : Str) : Chapter where
  spineIndex := saturating32 spineIndex
  idref := chapter.itemref.idref
  href := target.path
  mediaType := target.item.mediaType
  content := content
  linear := chapter.itemref.linear
  properties := target.item.properties
  mediaOverlayHref := mediaOverlayHref
  primaryHref := primaryHref chapter spineItem

def resourceEvent (target : Resolved) (content : Bytes) (mediaOverlayHref : Str) : Resource where
  href := target.path
  mediaType := target.item.mediaType
  kind := classify target.item.mediaType
  content := content
  manifestId := target.item.id
  properties := target.item.properties
  mediaOverlayHref := mediaOverlayHref

end Book

end GrpcEpub
