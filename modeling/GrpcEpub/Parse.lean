/-
# `GrpcEpub.Parse` — the parse driver

`extract::parse` and `extract::run`, and the `Sink` they send through.  The
driver runs against a client it knows only by its answers: `client n` says
whether the send that would be the `n`-th to succeed is accepted, and the first
refusal ends the parse.

Two fields of `Call` are there to be talked about and are read by nothing:
the archive entry each sent event carries the bytes of, and the log of what
`read_entry` returned.

The Document projection is a parameter: what the sink needs of it is how it
takes a hash, an event, and the request to hand the document over.
-/
import GrpcEpub.Extract

namespace GrpcEpub

/-- The Document fold, as the sink drives it. -/
structure Projection where
  Document : Type
  State : Type
  start : State
  setSourceHash : UInt64 → State → State
  consume : Event Document → State → State
  take : State → Document × State

/-- The parts of a call that are not in this repository: the ZIP parse, the XML
reader under its strict and its tolerant settings, and the `f64` parser. -/
structure Crates where
  zipNew : Bytes → Except ZipError MemoryArchive
  strict : Bytes → XmlStream
  lenient : Bytes → XmlStream
  parseFloat : Str → Option Real64

/-- One event on the wire, and the archive entry whose bytes it carries. -/
structure Delivery (δ : Type) where
  event : Event δ
  entry : Option Nat

/-- One inflation: the entry, the buffer returned, and the budget after it. -/
structure Reading where
  entry : EntryInfo
  bytes : Bytes
  budget : Budget
deriving DecidableEq, Repr

/-- What this call has added to the process counters. -/
structure Metrics where
  chaptersEmitted : Nat := 0
  resourcesEmitted : Nat := 0
  bytesInflated : Nat := 0
deriving DecidableEq, Repr

/-- The mutable state of one call. -/
structure Call (π : Projection) where
  budget : Budget
  warnings : Warnings := {}
  preread : HashMap Nat Bytes := ∅
  metrics : Metrics := {}
  fold : Option π.State
  sent : List (Delivery π.Document) := []
  reads : List Reading := []

/-- A call before its first step, with a fold when the caller asked for one. -/
def Call.start (π : Projection) (limits : Effective) : Call π where
  budget := .new limits.maxUncompressedBytes
  fold := if limits.emitDocument then some π.start else none

/-- FNV-1a over the whole archive. -/
def sourceHash (bytes : Bytes) : UInt64 :=
  bytes.foldl (fun hash byte => (hash ^^^ UInt64.ofNat byte.toNat) * 0x100000001b3)
    0xcbf29ce484222325

namespace Parse

variable {π : Projection}

/-- A step of the driver. -/
abbrev Step (π : Projection) := Eff (Call π) Abort

/-- `?` on a status. -/
def orFail {α : Type} (r : Except Status α) : Step π α :=
  match r with
  | .ok a => pure a
  | .error status => throw (.failed status)

def warn (code : ParseWarningCode) (href : Str) (message : WarningText) : Step π Unit :=
  modify fun call => { call with warnings := call.warnings.push code href message }

section Driver

variable (crates : Crates) (client : Nat → Bool) (limits : Effective) (archive : MemoryArchive)

/-! ## The sink

An event is folded before it is sent, and a client that has left ends the parse. -/

/-- `Sink::send`: put one event on the wire, or learn that the client is gone. -/
def send (event : Event π.Document) (entry : Option Nat) : Step π Unit := do
  let call ← get
  if client call.sent.length then set { call with sent := call.sent ++ [Delivery.mk event entry] }
  else throw .gone

/-- `Sink::emit`: fold the event on its way out.  The trailer is the trigger for
the `document` event, which goes out in front of it. -/
def emit (event : Event π.Document) (entry : Option Nat) : Step π Unit := do
  let call ← get
  match call.fold with
  | none => send client event entry
  | some fold =>
      let fold := π.consume event fold
      match event with
      | .status _ => do
          let (document, fold) := π.take fold
          set { call with fold := some fold }
          send client (.document document) none
          send client event entry
      | _ => do
          set { call with fold := some fold }
          send client event entry

/-! ## Reading entries

`read_entry` on the budget of the call, and the cache in front of it. -/

/-- `archive::read_entry` on the call's own budget. -/
def readEntry (entry : EntryInfo) : Step π Bytes := do
  let call ← get
  match (Archive.readEntry archive entry limits).exec call.budget with
  | (.ok bytes, budget) => do
      set { call with budget, reads := call.reads ++ [Reading.mk entry bytes budget] }
      return bytes
  | (.error abort, budget) => do
      set { call with budget }
      throw abort

/-- `read_at`: inflate one entry, counting what it cost. -/
def readAt (entry : EntryInfo) : Step π Bytes := do
  let bytes ← readEntry limits archive entry
  modify fun call =>
    { call with metrics.bytesInflated := call.metrics.bytesInflated + bytes.length }
  return bytes

/-- `read_named`: inflate an entry by name, if the archive has it. -/
def readNamed (entries : List EntryInfo) (index : HashMap Str Nat) (name : Str) :
    Step π (Option Bytes) :=
  match index.get name with
  | none => return none
  | some position => do
      let entry ← Eff.ofExcept (nth entries position)
      let bytes ← readEntry limits archive entry
      return some bytes

/-- `Preread::take`. -/
def takePreread (entry : Nat) : Step π (Option Bytes) := do
  let call ← get
  set { call with preread := call.preread.erase entry }
  return call.preread.get entry

/-- `Preread::keep`. -/
def keep (entry : Nat) (bytes : Bytes) : Step π Unit :=
  modify fun call => { call with preread := call.preread.insert entry bytes }

/-- The bytes kept for an entry, or inflated now. -/
def prereadOr (kept : Option Bytes) (entries : List EntryInfo) (entry : Nat) : Step π Bytes :=
  match kept with
  | some bytes => return bytes
  | none => do
      let entry ← Eff.ofExcept (nth entries entry)
      readAt limits archive entry

/-- `Preread::read`. -/
def prereadRead (entries : List EntryInfo) (entry : Nat) : Step π Bytes := do
  let kept ← takePreread entry
  prereadOr limits archive kept entries entry

/-! ## From the upload to the package

The order is that of the source: the policy, the marker, the container, the package document. -/

/-- The encryption policy, read before anything else. -/
def encryptionPolicy (entries : List EntryInfo) (index : HashMap Str Nat) :
    Step π (List Nat) :=
  match index.get encryptionPath with
  | none => return []
  | some position => do
      let entry ← Eff.ofExcept (nth entries position)
      let descriptor ← readAt limits archive entry
      orFail (Extract.obfuscatedEntries (crates.strict descriptor) index)

/-- `MAX_MIMETYPE_BYTES`. -/
def maxMimetypeBytes : Nat := 256

/-- What the `mimetype` entry declares, when it is short enough to be a marker. -/
def declaredMimetype (bytes : Option Bytes) : Option Str :=
  (bytes.filter (fun bytes => bytes.length ≤ maxMimetypeBytes)).map fun bytes =>
    Str.trim (Utf8.decodeLossy bytes)

/-- Is this an EPUB at all?  The container's position, or why there is none. -/
def findContainer (index : HashMap Str Nat) (declared : Option Str) : Step π Nat :=
  let claimsEpub := declared == some epubMimetype
  match index.get containerPath with
  | none => throw (.failed (if claimsEpub then .brokenEpub else .notAnEpub declared))
  | some position => do
      if !claimsEpub then
        warn .metadata mimetypePath
          (match declared with
            | some found => .mimetypeIs found
            | none => .mimetypeAbsent)
      return position

/-- The rootfile the container names: its path and its position. -/
def rootfile (index : HashMap Str Nat) (container : Bytes) : Except Status (Str × Nat) :=
  match Opf.parseContainer (crates.strict container) with
  | .error e => .error (.containerXml e)
  | .ok opfHref =>
      match Href.resolve [] opfHref with
      | .ok (.entry opfPath) =>
          match Extract.lookup index opfPath [] opfHref with
          | some position => .ok (opfPath, position)
          | none => .error (.missingRootfile opfPath)
      | _ => .error (.unusableRootfile opfHref)

/-- The package document. -/
def package (opfPath : Str) (bytes : Bytes) : Except Status Package :=
  match Opf.parsePackage (crates.strict bytes) with
  | .error e => .error (.packageXml opfPath e)
  | .ok package => .ok package

/-- Everything up to the package document. -/
def readBook (scan : Scan) : Step π Book := do
  let entries := scan.entries
  let index := Extract.indexOf entries
  modify fun call =>
    { call with
      warnings := scan.unusable.foldl
        (fun warnings (name, error) =>
          warnings.push .unusableEntryName [] (.leftOut name error)) call.warnings }
  let obfuscated ← encryptionPolicy crates limits archive entries index
  let declared ← readNamed limits archive entries index mimetypePath
  let containerPosition ← findContainer index (declaredMimetype declared)
  let containerEntry ← Eff.ofExcept (nth entries containerPosition)
  let container ← readAt limits archive containerEntry
  let (opfPath, opfPosition) ← orFail (rootfile crates index container)
  let opfEntry ← Eff.ofExcept (nth entries opfPosition)
  let opfBytes ← readAt limits archive opfEntry
  let package ← orFail (package crates opfPath opfBytes)
  return { entries, obfuscated, opfPath, package }

/-! ## Navigation and media overlays

Both passes send what they read, and keep the bytes that the walk will ask for again. -/

variable (book : Book)

/-- Parse the navigation document and send it, ahead of the chapters. -/
def navigationPass (willEmit : List Nat) (source : Option Book.NavigationSource) :
    Step π Unit :=
  match limits.parseNavigation, source with
  | true, some source => do
      let target ← Eff.ofExcept (nth book.resolved source.position)
      let bytes ← prereadRead limits archive book.entries source.entry
      let stream := crates.lenient bytes
      let parsed :=
        if source.fromNcx then Nav.parseNcx stream target.path
        else Nav.parseNav stream target.path
      if source.entry ∈ willEmit then keep source.entry bytes
      if parsed.toc.isEmpty then warn .metadata target.path .noEntries
      else emit client (.navigation parsed) none
  | _, _ => return ()

/-- Whether an overlay's bytes will be asked for again. -/
def keepOverlay (willEmit : List Nat) (lastUse : HashMap Nat Nat) (entry round : Nat) :
    Except Abort Bool :=
  if entry ∈ willEmit then .ok true
  else
    match lastUse.get entry with
    | some last => .ok (round < last)
    | none => .error (.panicked .index)

/-- One turn of the overlay loop: parse an overlay and send its cues. -/
def overlayTurn (willEmit : List Nat) (lastUse : HashMap Nat Nat) (position overlay round : Nat) :
    Step π Unit := do
  let target ← Eff.ofExcept (nth book.resolved overlay)
  match target.entry with
  | none => return ()
  | some entry => do
      let bytes ← prereadRead limits archive book.entries entry
      let parsed := Smil.parseOverlay crates.parseFloat (crates.lenient bytes) target.path
      let again ← Eff.ofExcept (keepOverlay willEmit lastUse entry round)
      if again then keep entry bytes
      if parsed.cues.isEmpty then warn .metadata target.path .noCues
      else do
        let narrated ← Eff.ofExcept (nth book.resolved position)
        emit client (.mediaOverlay
          { sourceHref := parsed.sourceHref, chapterHref := narrated.path
            cues := parsed.cues }) none

def overlayLoop (willEmit : List Nat) (lastUse : HashMap Nat Nat) :
    List ((Nat × Nat) × Nat) → Step π Unit
  | [] => return ()
  | ((position, overlay), round) :: rest => do
      overlayTurn crates client limits archive book willEmit lastUse position overlay round
      overlayLoop willEmit lastUse rest

/-- Parse the media overlays and send them, ahead of the chapters. -/
def overlayPass (willEmit : List Nat) (overlays : List (Nat × Nat)) : Step π Unit :=
  if limits.parseMediaOverlays then do
    let lastUse ← Eff.ofExcept (book.lastUse overlays)
    overlayLoop crates client limits archive book willEmit lastUse overlays.zipIdx
  else return ()

/-! ## The walk

Chapters with the resources in front of them, the rest of the resources, and the trailer. -/

variable (overlays : List (Nat × Nat))

/-- `emit_resource`: inflate an entry and send it as a `resource` event. -/
def emitResource (entry position : Nat) : Step π Unit := do
  let target ← Eff.ofExcept (nth book.resolved position)
  let mediaOverlayHref ← Eff.ofExcept (book.overlayHref overlays position)
  let content ← prereadRead limits archive book.entries entry
  emit client (.resource (Book.resourceEvent target content mediaOverlayHref)) (some entry)
  modify fun call =>
    { call with metrics.resourcesEmitted := call.metrics.resourcesEmitted + 1 }

/-- The `while` loop in front of a chapter: send every pending resource stored
before it.  Returns what is still pending and how many were sent in all. -/
def drain (chapterEntry : Nat) :
    List (Nat × Nat) → Nat → Step π (List (Nat × Nat) × Nat)
  | [], emitted => return ([], emitted)
  | (entry, position) :: rest, emitted =>
      if entry < chapterEntry then do
        emitResource client limits archive book overlays entry position
        let emitted ← Eff.ofExcept (Book.add32 emitted 1)
        drain chapterEntry rest emitted
      else return ((entry, position) :: rest, emitted)

/-- The chapter half of one turn of the walk. -/
def emitChapter (spineIndex : Nat) (chapter : SpineEntry) (target : Resolved)
    (chapterEntry : Nat) : Step π Unit := do
  let content ← prereadRead limits archive book.entries chapterEntry
  let spineItem ← Eff.ofExcept (nth book.resolved chapter.primary)
  let ofSource ← Eff.ofExcept (book.overlayHref overlays chapter.source)
  let mediaOverlayHref ←
    if ofSource = [] then Eff.ofExcept (book.overlayHref overlays chapter.primary)
    else pure ofSource
  emit client (.chapter
    (Book.chapterEvent spineIndex chapter target spineItem content mediaOverlayHref))
    (some chapterEntry)
  modify fun call =>
    { call with metrics.chaptersEmitted := call.metrics.chaptersEmitted + 1 }

/-- The walk over the spine: what is still pending at the end, how many
resources were sent, and how many chapters. -/
def walkSpine : List (SpineEntry × Nat) → List (Nat × Nat) → Nat → Nat →
    Step π (List (Nat × Nat) × Nat × Nat)
  | [], pending, emitted, chapters => return (pending, emitted, chapters)
  | (chapter, spineIndex) :: rest, pending, emitted, chapters => do
      let target ← Eff.ofExcept (nth book.resolved chapter.source)
      let chapterEntry ← Eff.ofExcept (expect target.entry)
      let (pending, emitted) ←
        drain client limits archive book overlays chapterEntry pending emitted
      emitChapter client limits archive book overlays spineIndex chapter target chapterEntry
      let chapters ← Eff.ofExcept (Book.add32 chapters 1)
      walkSpine rest pending emitted chapters

/-- The resources stored after the last chapter reached. -/
def drainRest : List (Nat × Nat) → Nat → Step π Nat
  | [], emitted => return emitted
  | (entry, position) :: rest, emitted => do
      emitResource client limits archive book overlays entry position
      let emitted ← Eff.ofExcept (Book.add32 emitted 1)
      drainRest rest emitted

/-- The `debug_assert` behind the walk: nothing read ahead is left over. -/
def assertPrereadEmpty : Step π Unit := do
  let call ← get
  if call.preread.entries = [] then return () else throw (.panicked .assertion)

/-- The whole walk: the counts of chapters and resources sent. -/
def walk (spine : List SpineEntry) (pending : List (Nat × Nat)) : Step π (Nat × Nat) := do
  let (pending, emitted, chapters) ←
    walkSpine client limits archive book overlays spine.zipIdx pending 0 0
  let emitted ← drainRest client limits archive book overlays pending emitted
  assertPrereadEmpty
  return (chapters, emitted)

end Driver

section Driver

variable (crates : Crates) (client : Nat → Bool) (limits : Effective)

/-- What the walk has counted, for the trailer. -/
structure Done where
  skipped : Nat
  chapters : Nat
  emitted : Nat
deriving DecidableEq, Repr

/-- Every event ahead of the trailer, in the order of the contract. -/
def deliver (archive : MemoryArchive) (book : Book) (spine : List SpineEntry) :
    Step π Done := do
  let source ← Eff.ofExcept book.navigationSource
  let info ← Eff.ofExcept (book.info spine source)
  emit client (.info info) none
  let chapterEntries ← Eff.ofExcept (book.chapterEntries spine)
  let call ← get
  let plan ← Eff.ofExcept (book.resolved.zipIdx.foldlM
    (book.planItem limits (spine.map SpineEntry.source) chapterEntries)
    { warnings := call.warnings })
  set { call with warnings := plan.warnings }
  let pending := Book.archiveOrder plan.pending
  let willEmit := chapterEntries ++ pending.map Prod.fst
  navigationPass crates client limits archive book willEmit source
  let overlays ← Eff.ofExcept book.overlayLinks
  overlayPass crates client limits archive book willEmit overlays
  let (chapters, emitted) ← walk client limits archive book overlays spine pending
  return { skipped := plan.skipped, chapters, emitted }

/-- What the trailer says of a call that has sent everything else. -/
def report (call : Call π) (done : Done) : ParseStatus where
  chaptersEmitted := done.chapters
  resourcesEmitted := done.emitted
  resourcesSkipped := done.skipped
  uncompressedBytes := call.budget.consumed
  entriesRead := call.budget.entries
  warnings := call.warnings.entries

/-- The trailing `status`. -/
def trailer (done : Done) : Step π Unit := do
  let call ← get
  emit client (.status (report call done)) none

/-- The whole parse. -/
def parse (bytes : Bytes) : Step π Unit := do
  modify fun call => { call with fold := call.fold.map (π.setSourceHash (sourceHash bytes)) }
  let archive ← orFail (Archive.openArchive crates.zipNew bytes limits)
  let scan ← orFail (Archive.scan archive)
  let book ← readBook crates limits archive scan
  let spine ← Eff.ofExcept (book.resolveSpine book.package.spine)
  let done ← deliver crates client limits archive book spine
  trailer client done

end Driver

end Parse

/-- How a call ended: `extract::Outcome`, and the panic that is not one. -/
inductive Outcome where
  | complete
  | abandoned
  | failed (status : Status)
  | panicked (panic : Panic)
deriving DecidableEq, Repr

def Outcome.of : Except Abort Unit → Outcome
  | .ok () => .complete
  | .error .gone => .abandoned
  | .error (.failed status) => .failed status
  | .error (.panicked panic) => .panicked panic

/-- `extract::run`: the outcome, and the call as it was left. -/
def run (π : Projection) (crates : Crates) (limits : Effective) (bytes : Bytes)
    (client : Nat → Bool) : Outcome × Call π :=
  let (result, call) := (Parse.parse crates client limits bytes).exec (.start π limits)
  (.of result, call)

end GrpcEpub
