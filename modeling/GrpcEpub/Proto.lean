/-
# `GrpcEpub.Proto` — the response stream's messages

The event payloads of `types.proto` and `epub_service.proto`, field for field.
The `document` event carries a projection this development leaves abstract:
everything here is over an arbitrary type `δ` of documents.
-/
import GrpcEpub.Nav
import GrpcEpub.Smil
import GrpcEpub.Opf

namespace GrpcEpub

/-- What a manifest entry that is not a chapter is. -/
inductive ResourceKind where
  | unspecified
  | document
  | image
  | stylesheet
  | font
  | audio
  | video
  | other
deriving DecidableEq, Repr

def ResourceKind.asStrName : ResourceKind → Str
  | .unspecified => "RESOURCE_KIND_UNSPECIFIED"
  | .document => "RESOURCE_KIND_DOCUMENT"
  | .image => "RESOURCE_KIND_IMAGE"
  | .stylesheet => "RESOURCE_KIND_STYLESHEET"
  | .font => "RESOURCE_KIND_FONT"
  | .audio => "RESOURCE_KIND_AUDIO"
  | .video => "RESOURCE_KIND_VIDEO"
  | .other => "RESOURCE_KIND_OTHER"

structure DublinCoreIdentifier where
  value : Str
  id : Str
  scheme : Str
deriving DecidableEq, Repr

structure MetadataRefinement where
  property : Str
  value : Str
  scheme : Str
deriving DecidableEq, Repr

structure MetadataEntry where
  element : Str
  value : Str
  id : Str
  scheme : Str
  refinements : List MetadataRefinement
deriving DecidableEq, Repr

/-- The opening event. -/
structure EpubInfo where
  title : Str
  creators : List Str
  contributors : List Str
  language : Str
  identifiers : List DublinCoreIdentifier
  uniqueIdentifier : Str
  publisher : Str
  description : Str
  date : Str
  subjects : List Str
  spineItemCount : Nat
  opfHref : Str
  epubVersion : Str
  coverHref : Str
  metadata : List MetadataEntry
  modified : Str
  navHref : Str
  ncxHref : Str
deriving DecidableEq, Repr

/-- One spine item. -/
structure Chapter where
  spineIndex : Nat
  idref : Str
  href : Str
  mediaType : Str
  content : Bytes
  linear : Bool
  properties : List Str
  mediaOverlayHref : Str
  primaryHref : Str
deriving DecidableEq, Repr

/-- One manifest entry that is not a chapter. -/
structure Resource where
  href : Str
  mediaType : Str
  kind : ResourceKind
  content : Bytes
  manifestId : Str
  properties : List Str
  mediaOverlayHref : Str
deriving DecidableEq, Repr

/-- One SMIL document's cues, and the chapter they narrate. -/
structure MediaOverlay where
  sourceHref : Str
  chapterHref : Str
  cues : List Cue
deriving DecidableEq, Repr

inductive ParseWarningCode where
  | metadata
  | missingManifestEntry
  | resourceKindExcluded
  | nestedArchive
  | unusableEntryName
  | obfuscatedResource
deriving DecidableEq, Repr

/-- What a warning says: one constructor for each text of the source. -/
inductive WarningText where
  | leftOut (name : Str) (error : PathError)
  | mimetypeIs (found : Str)
  | mimetypeAbsent
  | unusableHref (id href : Str) (error : PathError)
  | remoteResource
  | missingFile
  | nestedArchive
  | kindExcluded (kind : ResourceKind)
  | obfuscated
  | noEntries
  | noCues
deriving DecidableEq, Repr

structure ParseWarning where
  code : ParseWarningCode
  message : WarningText
  href : Str
deriving DecidableEq, Repr

/-- The trailer. -/
structure ParseStatus where
  chaptersEmitted : Nat
  resourcesEmitted : Nat
  resourcesSkipped : Nat
  uncompressedBytes : Nat
  entriesRead : Nat
  warnings : List ParseWarning
deriving DecidableEq, Repr

/-- One message of the response stream. -/
inductive Event (δ : Type) where
  | info (info : EpubInfo)
  | navigation (navigation : Navigation)
  | mediaOverlay (overlay : MediaOverlay)
  | chapter (chapter : Chapter)
  | resource (resource : Resource)
  | document (document : δ)
  | status (status : ParseStatus)

end GrpcEpub
