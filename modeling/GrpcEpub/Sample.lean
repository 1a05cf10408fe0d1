/-
# `GrpcEpub.Sample` — books small enough to evaluate

An archive built from a list of named files, with its central directory laid
out as the real one is, and an XML reader that recognises documents by their
bytes.  A whole call on such a book reduces to its outcome.
-/
import GrpcEpub.Directory

namespace GrpcEpub

namespace Sample

/-- A stored file with a short name. -/
structure File where
  name : Bytes
  content : Bytes
  short : name.length < 65536
  small : content.length ≤ readChunk

/-- The characters of an ASCII text as bytes. -/
def ascii (text : Str) : Bytes := text.map fun c => UInt8.ofNat c.toNat

/-- A file with what fits of a name and of one read of content. -/
def file (name : Str) (content : Bytes) : File where
  name := (ascii name).take 65535
  content := content.take readChunk
  short := Nat.lt_succ_of_le (List.length_take_le _ _)
  small := List.length_take_le _ _

def File.record (f : File) : CentralRecord := .plain f.name f.short

/-- The payloads, which lie in front of the directory. -/
def payloads (files : List File) : Bytes := files.flatMap File.content

def upload (files : List File) : Bytes := payloads files ++ layout (files.map File.record)

def rawEntry (f : File) (start : Nat) : RawEntry where
  name := .ok (Utf8.decodeLossy f.name)
  encrypted := false
  compression := .stored
  size := f.content.length
  compressedSize := f.content.length
  centralHeaderStart := start

/-- The archive the crate makes of files with distinct names. -/
def archive (files : List File) : MemoryArchive where
  centralDirectoryStart := (payloads files).length
  byIndexRaw := List.zipWith (fun f start => .ok (rawEntry f start)) files
    (starts (payloads files).length (files.map File.record))
  byIndex := fun i =>
    match files[i]? with
    | some f => .ok [.ok ⟨f.content, f.small⟩]
    | none => .error .fileNotFound

/-- A projection that counts the events it has seen. -/
def counting : Projection where
  Document := Nat
  State := Nat
  start := 0
  setSourceHash := fun _ state => state
  consume := fun _ state => state + 1
  take := fun state => (state, 0)

/-! ## Documents

The XML streams of the books below, and a reader that knows each by its bytes. -/

def tag (name : Str) (attributes : List (Str × Str)) : Tag where
  name := name
  attributes := attributes.map fun (key, value) => { key, value, normalized := some value }

/-- `container.xml`, naming a rootfile. -/
def container (fullPath : Str) : XmlStream where
  events := [.start (tag "container" []), .start (tag "rootfiles" []),
    .empty (tag "rootfile" [("full-path", fullPath)]), .endTag "rootfiles", .endTag "container"]
  stop := .eof

/-- One `<item>` and its optional attributes. -/
structure Item where
  id : Str
  href : Str
  mediaType : Str := "application/xhtml+xml"
  mediaOverlay : Str := []

def Item.tag (item : Item) : Tag :=
  Sample.tag "item" [("id", item.id), ("href", item.href), ("media-type", item.mediaType),
    ("media-overlay", item.mediaOverlay)]

/-- An OPF with these items and this spine. -/
def opf (manifest : List Item) (spine : List Str) : XmlStream where
  events := [.start (tag "package" [("version", "3.0")]), .start (tag "manifest" [])] ++
    manifest.map (fun item => .empty item.tag) ++
    [.endTag "manifest", .start (tag "spine" [])] ++
    spine.map (fun idref => .empty (tag "itemref" [("idref", idref)])) ++
    [.endTag "spine", .endTag "package"]
  stop := .eof

/-- A SMIL document with one cue. -/
def smil : XmlStream where
  events := [.start (tag "smil" []), .start (tag "body" []), .start (tag "par" []),
    .empty (tag "text" [("src", "x.xhtml#p1")]), .endTag "par", .endTag "body", .endTag "smil"]
  stop := .eof

/-- A reader that knows these documents by their bytes. -/
def reader (documents : List (Bytes × XmlStream)) (bytes : Bytes) : XmlStream :=
  match documents.find? (fun document => document.1 == bytes) with
  | some document => document.2
  | none => { events := [], stop := .error "not a document" }

/-! ## Books

Each with its files in the order of the archive. -/

/-- A book: its content files, its package document, and its overlays' bytes. -/
structure Source where
  files : List File
  manifest : List Item
  spine : List Str

/-- The three files every book has, and then its own. -/
def Source.all (source : Source) : List File :=
  [file "mimetype" (ascii "application/epub+zip"), file "META-INF/container.xml" [1],
    file "p.opf" [2]] ++ source.files

/-- The crates on a book whose overlay files hold the single byte 3. -/
def Source.crates (source : Source) : Crates where
  zipNew := fun _ => .ok (archive source.all)
  strict := reader [([1], container "p.opf"), ([2], opf source.manifest source.spine)]
  lenient := reader [([3], smil)]
  parseFloat := fun _ => none

def Source.bytes (source : Source) : Bytes := upload source.all

/-- A client that stays to the end. -/
def patient : Nat → Bool := fun _ => true

def defaults : Effective := Limits.default.resolve .default

/-- Every resource asked for. -/
def whole : Effective := { defaults with includeAllResources := true }

def chapterItem (id href : Str) : Item := { id, href }

def imageItem (id href : Str) : Item := { id, href, mediaType := "image/png" }

/-- Two chapters stored against the order of the spine, and three images, one
of them named twice. -/
def backwards : Source where
  files := [file "i.png" [20], file "b.xhtml" [11], file "j.png" [21], file "a.xhtml" [10],
    file "k.png" [22]]
  manifest := [imageItem "k" "k.png", chapterItem "a" "a.xhtml", chapterItem "b" "b.xhtml",
    imageItem "j" "j.png", imageItem "again" "j.png", imageItem "i" "i.png"]
  spine := ["a".toList, "b".toList]

end Sample

end GrpcEpub
