/-
# `GrpcEpub.Script` — what a book makes the service send

The response as a function of the book, with no state, no budget and no
client: which events go out, in which order, with which bytes.  This is the
statement of what `extract::parse` is for.  `GrpcEpub.Trace` proves that the
driver sends a prefix of its script, and on a completed run all of it.

A position that is out of range stands for a default item here; the driver
panics on one before it sends anything.
-/
import GrpcEpub.Parse
import GrpcEpub.Lib.Interleave

namespace GrpcEpub

/-! ## Contents

What the archive has for an entry, or nothing where it has none. -/

/-- Everything a decompressor puts out before it stops. -/
def Archive.gather : List (Except IoError Chunk) → Bytes
  | [] | .error _ :: _ => []
  | .ok chunk :: rest => if chunk.bytes = [] then [] else chunk.bytes ++ gather rest

/-- The inflated content of an entry, unbounded. -/
def MemoryArchive.inflated (archive : MemoryArchive) (entry : EntryInfo) : Bytes :=
  match archive.byIndex entry.index with
  | .ok reads => Archive.gather reads
  | .error _ => []

namespace Book

variable (book : Book)

/-- The manifest item at a position. -/
def item (position : Nat) : Resolved := book.resolved.getD position default

/-- The archive entry at a position. -/
def entryAt (k : Nat) : EntryInfo := book.entries.getD k default

/-- The bytes of the entry at a position. -/
def content (archive : MemoryArchive) (k : Nat) : Bytes := archive.inflated (book.entryAt k)

/-! ## What goes out

Which entries the walk sends, as chapters and as resources. -/

/-- The archive entry a chapter is read from. -/
def chapterEntry (chapter : SpineEntry) : Nat := (book.item chapter.source).entry.getD 0

/-- Every `(narrated item, its overlay)` pair whose overlay has a path. -/
def links : List (Nat × Nat) :=
  book.resolved.zipIdx.filterMap fun (target, position) =>
    match book.byId.get target.item.mediaOverlay with
    | none => none
    | some overlay =>
        if (book.item overlay).unusable.isNone then some (position, overlay) else none

/-- The path of an item's overlay. -/
def overlayPath (position : Nat) : Str :=
  match book.links.find? (fun (owner, _) => owner == position) with
  | some (_, overlay) => (book.item overlay).path
  | none => []

/-- The items the walk will send, with the entry each of them is stored in, in
manifest order. -/
def pendingItems (limits : Effective) (spine : List SpineEntry) : List (Nat × Nat) :=
  book.resolved.zipIdx.filterMap fun (target, position) =>
    (book.fate limits (spine.map SpineEntry.source) (spine.map book.chapterEntry) position
      target).entry.map fun entry => (entry, position)

/-- The same, in archive order and each entry once. -/
def resources (limits : Effective) (spine : List SpineEntry) : List (Nat × Nat) :=
  archiveOrder (book.pendingItems limits spine)

end Book

namespace Script

variable {δ : Type} (crates : Crates) (limits : Effective) (archive : MemoryArchive) (book : Book)

/-! ## The events, pass by pass

One definition for each pass, in the order of the response. -/

/-- The opening event. -/
def opening (spine : List SpineEntry) : List (Delivery δ) :=
  match book.navigationSource with
  | .error _ => []
  | .ok source =>
      match book.info spine source with
      | .error _ => []
      | .ok info => [⟨.info info, none⟩]

/-- A navigation document, parsed in its dialect. -/
def parsedNavigation (source : Book.NavigationSource) : Navigation :=
  let stream := crates.lenient (book.content archive source.entry)
  if source.fromNcx then Nav.parseNcx stream (book.item source.position).path
  else Nav.parseNav stream (book.item source.position).path

/-- The navigation event of a source. -/
def navigationEvents (source : Option Book.NavigationSource) : List (Delivery δ) :=
  match limits.parseNavigation, source with
  | true, some source =>
      if (parsedNavigation crates archive book source).toc.isEmpty then []
      else [⟨.navigation (parsedNavigation crates archive book source), none⟩]
  | _, _ => []

def navigation : List (Delivery δ) :=
  match book.navigationSource with
  | .error _ => []
  | .ok source => navigationEvents crates limits archive book source

/-- An overlay, parsed from an archive entry. -/
def parsedOverlay (overlay entry : Nat) : Overlay :=
  Smil.parseOverlay crates.parseFloat (crates.lenient (book.content archive entry))
    (book.item overlay).path

/-- The event of one overlay pair. -/
def overlayEvents (pair : Nat × Nat) : List (Delivery δ) :=
  match (book.item pair.2).entry with
  | none => []
  | some entry =>
      let parsed := parsedOverlay crates archive book pair.2 entry
      if parsed.cues.isEmpty then []
      else
        [⟨.mediaOverlay
            { sourceHref := parsed.sourceHref, chapterHref := (book.item pair.1).path
              cues := parsed.cues }, none⟩]

def overlays : List (Delivery δ) :=
  if limits.parseMediaOverlays then
    book.links.flatMap (overlayEvents crates archive book)
  else []

/-- One chapter, at its place in the spine. -/
def chapterMessage (visit : SpineEntry × Nat) : Chapter :=
  let ofSource := book.overlayPath visit.1.source
  Book.chapterEvent visit.2 visit.1 (book.item visit.1.source) (book.item visit.1.primary)
    (book.content archive (book.chapterEntry visit.1))
    (if ofSource = [] then book.overlayPath visit.1.primary else ofSource)

def chapter (visit : SpineEntry × Nat) : Delivery δ :=
  ⟨.chapter (chapterMessage archive book visit), some (book.chapterEntry visit.1)⟩

/-- One resource, `(entry, manifest position)`. -/
def resourceMessage (pending : Nat × Nat) : Resource :=
  Book.resourceEvent (book.item pending.2) (book.content archive pending.1)
    (book.overlayPath pending.2)

def resource (pending : Nat × Nat) : Delivery δ :=
  ⟨.resource (resourceMessage archive book pending), some pending.1⟩

/-- The walk over the spine. -/
def walk (spine : List (SpineEntry × Nat)) (pending : List (Nat × Nat)) : List (Delivery δ) :=
  (interleave Prod.fst (fun visit => book.chapterEntry visit.1) spine pending).map
    (Sum.elim (resource archive book) (chapter archive book))

end Script

/-- Every event of a book ahead of the trailer. -/
def script {δ : Type} (crates : Crates) (limits : Effective) (archive : MemoryArchive)
    (book : Book) (spine : List SpineEntry) : List (Delivery δ) :=
  Script.opening book spine ++ Script.navigation crates limits archive book ++
    Script.overlays crates limits archive book ++
    Script.walk archive book spine.zipIdx (book.resources limits spine)

end GrpcEpub
