/-
# `GrpcEpub.Status` — how a call fails

Every gRPC status the service builds, one constructor for each text.  The
source picks the code where it writes the text, so the code is a function of
the constructor.  The text itself needs Rust's `{:?}` for strings, whose
escaping tables are the standard library's; it is a parameter of the texts and
of nothing else.

Texts are built when a status is shown and not before, so that two statuses are equal when they
are the same failure of the same thing.
-/
import GrpcEpub.Proto
import GrpcEpub.Limits

namespace GrpcEpub

/-- The gRPC codes this service uses. -/
inductive Code where
  | invalidArgument
  | resourceExhausted
  | unimplemented
  | deadlineExceeded
  | unavailable
  | internal
deriving DecidableEq, Repr

/-- An I/O error: whether it is an early end of input, or invalid data, and its text. -/
inductive IoKind where
  | unexpectedEof
  | invalidData
  | other
deriving DecidableEq, Repr

structure IoError where
  kind : IoKind
  text : Str
deriving DecidableEq, Repr

/-- What the `zip` crate reports. -/
inductive ZipError where
  | unsupportedArchive (detail : Str)
  | compressionMethodNotSupported (id : Nat)
  | invalidPassword
  | fileNotFound
  | invalidArchive (detail : Str)
  | io (error : IoError)
  | other (text : Str)
deriving DecidableEq, Repr

/-- Every way a call ends badly. -/
inductive Status where
  | zip (error : ZipError)
  | emptyUpload
  | tooManyRecords (records allowed : Nat)
  | tooManyEntries (entries allowed : Nat)
  | notEndToEnd
  | twoEntriesNamed (name : Str)
  | entryEncrypted (name : Str)
  | entryMethod (name method : Str)
  | bothName (first name normalized : Str)
  | overBudget (name : Str) (remaining : Nat)
  | overRatio (name : Str) (ratio allowed stored inflated : Nat)
  | pastDeclared (name : Str) (declared : Nat)
  | encryptionDescriptor (error : XmlError)
  | drm (algorithm : Str)
  | brokenEpub
  | notAnEpub (declared : Option Str)
  | containerXml (error : XmlError)
  | unusableRootfile (opfHref : Str)
  | missingRootfile (opfPath : Str)
  | packageXml (opfPath : Str) (error : XmlError)
  | itemrefNamesNothing (idref : Str)
  | spineEncrypted (idref path : Str)
  | spineUnusable (id href : Str) (error : PathError)
  | spineRemote (idref path : Str)
  | spineMissing (idref path : Str)
  | optionsFirst
  | closedBeforeOptions
  | optionsTwice
  | chunkTooLarge (size allowed : Nat)
  | uploadTooLarge (allowed : Nat)
  | budgetFull (mib : Nat)
  | idleTimeout (millis : Nat)
  | uploadTimeout (millis : Nat)
  | shuttingDown
  | parserPanicked (detail : Str)
  | parseCancelled
deriving DecidableEq, Repr

/-- `zip_status`: who has to act on a `zip` error. -/
def zipCode : ZipError → Code
  | .unsupportedArchive _ | .compressionMethodNotSupported _ | .invalidPassword => .unimplemented
  | .fileNotFound | .invalidArchive _ | .other _ => .invalidArgument
  | .io error => if error.kind = .unexpectedEof then .invalidArgument else .internal

def Status.code : Status → Code
  | .zip error => zipCode error
  | .emptyUpload | .notEndToEnd | .twoEntriesNamed _ | .bothName _ _ _ => .invalidArgument
  | .tooManyRecords _ _ | .tooManyEntries _ _ | .overBudget _ _ => .resourceExhausted
  | .overRatio _ _ _ _ _ | .pastDeclared _ _ => .resourceExhausted
  | .entryEncrypted _ | .entryMethod _ _ | .drm _ | .notAnEpub _ => .unimplemented
  | .encryptionDescriptor _ | .brokenEpub | .containerXml _ => .invalidArgument
  | .unusableRootfile _ | .missingRootfile _ | .packageXml _ _ => .invalidArgument
  | .itemrefNamesNothing _ | .spineUnusable _ _ _ => .invalidArgument
  | .spineRemote _ _ | .spineMissing _ _ => .invalidArgument
  | .spineEncrypted _ _ => .unimplemented
  | .optionsFirst | .closedBeforeOptions | .optionsTwice | .chunkTooLarge _ _ => .invalidArgument
  | .uploadTooLarge _ | .budgetFull _ => .resourceExhausted
  | .idleTimeout _ | .uploadTimeout _ => .deadlineExceeded
  | .shuttingDown => .unavailable
  | .parserPanicked _ | .parseCancelled => .internal

/-! ## The texts

As the source formats them, with the parameters in their order. -/

def encryptionPath : Str := "META-INF/encryption.xml"

def containerPath : Str := "META-INF/container.xml"

def mimetypePath : Str := "mimetype"

/-- The only value `mimetype` may hold in a conforming EPUB. -/
def epubMimetype : Str := "application/epub+zip"

/-- `{:?}`, for a string and for a character. -/
structure Debug where
  str : Str → Str
  char : Char → Str

section Texts

variable (debug : Debug)

/-- A number as `{}` prints it. -/
def shown (n : Nat) : Str := (toString n).toList

def PathError.display : PathError → Str
  | .empty => "path is empty"
  | .tooLong => "path is longer than " ++ shown maxPathBytes ++ " bytes"
  | .absolute => "path is absolute; archive paths are root-relative"
  | .traversal => "path escapes the archive root"
  | .illegalByte c => "path contains an illegal character " ++ debug.char c

def XmlError.display : XmlError → Str
  | .malformed detail => "malformed XML: " ++ detail
  | .entityDeclaration =>
      "the document declares a DTD entity; entity declarations are refused because " ++
        "they are the shape an XXE attack arrives in and no package document needs one"
  | .noRootfile => "META-INF/container.xml names no <rootfile full-path=…>"
  | .notAPackage => "the OPF root element is not <package>"
  | .emptySpine => "the OPF declares no spine items"

def zipMessage : ZipError → Str
  | .unsupportedArchive detail => "this archive needs a feature this build lacks: " ++ detail
  | .compressionMethodNotSupported id =>
      "entry uses compression method " ++ shown id ++ "; only store and deflate are supported"
  | .invalidPassword => "the archive is encrypted; DRM is not supported"
  | .fileNotFound => "the archive is missing an entry it declares"
  | .invalidArchive detail => "not a readable ZIP archive: " ++ detail
  | .io error =>
      if error.kind = .unexpectedEof then "the archive is truncated"
      else "reading the archive failed: " ++ error.text
  | .other text => "the archive could not be read: " ++ text

def Status.message : Status → Str
  | .zip error => zipMessage error
  | .emptyUpload => "the upload was empty; send the EPUB as one or more `chunk` frames"
  | .tooManyRecords records allowed =>
      "the archive holds " ++ shown records ++ " central directory records, over the " ++
        shown allowed ++ " entries allowed"
  | .tooManyEntries entries allowed =>
      "the archive declares " ++ shown entries ++ " entries, over the " ++ shown allowed ++
        " allowed"
  | .notEndToEnd => "the central directory records do not lie end to end"
  | .twoEntriesNamed name =>
      "the archive holds two entries named " ++ debug.str name ++
        "; an archive that holds two files at one path has no single reading"
  | .entryEncrypted name =>
      "entry " ++ debug.str name ++ " is encrypted; DRM and entry obfuscation are not supported"
  | .entryMethod name method =>
      "entry " ++ debug.str name ++ " uses compression method " ++ method ++
        "; only store and deflate are supported"
  | .bothName first name normalized =>
      "archive entries " ++ debug.str first ++ " and " ++ debug.str name ++ " both name " ++
        debug.str normalized ++ "; an archive that holds two files at one path has no single reading"
  | .overBudget name remaining =>
      "inflating " ++ debug.str name ++ " would take this call past its decompressed-size cap; " ++
        shown remaining ++ " bytes of budget were left. Raise max_uncompressed_mib if the " ++
        "book is genuinely this large."
  | .overRatio name ratio allowed stored inflated =>
      "entry " ++ debug.str name ++ " inflates " ++ shown ratio ++ "x, over the " ++
        shown allowed ++ "x limit (" ++ shown stored ++ " stored bytes becoming " ++
        shown inflated ++ "); this is the shape of a decompression bomb"
  | .pastDeclared name declared =>
      "entry " ++ debug.str name ++ " inflates past the " ++ shown declared ++
        " bytes its header declares; this is the shape of a decompression bomb"
  | .encryptionDescriptor error => encryptionPath ++ ": " ++ error.display
  | .drm algorithm =>
      encryptionPath ++ " declares encryption with " ++
        (if algorithm = [] then "an unnamed algorithm".toList else debug.str algorithm) ++
        ", which is not font obfuscation; DRM is not supported"
  | .brokenEpub => "the archive declares itself an EPUB but has no META-INF/container.xml"
  | .notAnEpub declared =>
      "this is a ZIP archive but not an EPUB: no META-INF/container.xml, and `mimetype` is " ++
        declared.elim "absent".toList debug.str
  | .containerXml error => containerPath ++ ": " ++ error.display
  | .unusableRootfile opfHref =>
      containerPath ++ " names an unusable rootfile " ++ debug.str opfHref
  | .missingRootfile opfPath =>
      containerPath ++ " names the rootfile " ++ debug.str opfPath ++
        ", which the archive does not contain"
  | .packageXml opfPath error => opfPath ++ ": " ++ error.display
  | .itemrefNamesNothing idref =>
      "spine itemref " ++ debug.str idref ++ " names no manifest item"
  | .spineEncrypted idref path =>
      "spine item " ++ debug.str idref ++ " (" ++ debug.str path ++ ") is listed in " ++
        encryptionPath ++ "; encrypted chapters are not supported"
  | .spineUnusable id href error =>
      "manifest item " ++ debug.str id ++ " has an unusable href " ++ debug.str href ++ ": " ++
        error.display debug
  | .spineRemote idref path =>
      "spine item " ++ debug.str idref ++ " points outside the archive at " ++ debug.str path ++
        "; remote chapters are not supported"
  | .spineMissing idref path =>
      "spine item " ++ debug.str idref ++ " names " ++ debug.str path ++
        ", which the archive does not contain"
  | .optionsFirst => "the first frame must carry `options`"
  | .closedBeforeOptions => "the request stream closed before sending `options`"
  | .optionsTwice => "`options` may only be sent once, as the first frame"
  | .chunkTooLarge size allowed =>
      "chunk of " ++ shown size ++ " bytes exceeds the " ++ shown allowed ++
        " byte frame limit; split the upload into more, smaller chunks"
  | .uploadTooLarge allowed =>
      "the upload passed its " ++ shown allowed ++ " byte limit; raise max_document_mib if " ++
        "the book is genuinely this large"
  | .budgetFull mib =>
      "the server is already holding the " ++ shown mib ++ " MiB of uploads it allows across " ++
        "all calls; retry once calls in progress have finished"
  | .idleTimeout millis =>
      "no request frame arrived for " ++ shown millis ++
        " ms; an idle stream may not hold server memory"
  | .uploadTimeout millis =>
      "the upload was not complete within " ++ shown millis ++
        " ms; send the book faster or raise the server's upload timeout"
  | .shuttingDown => "the server is shutting down"
  | .parserPanicked detail => "the parser panicked, which is a bug in grpc-epub: " ++ detail
  | .parseCancelled => "the parse task was cancelled"

/-- `MAX_QUOTED_CHARS`. -/
def maxQuotedChars : Nat := 120

/-- `value` quoted for a warning, cut short past `maxQuotedChars`. -/
def quoted (value : Str) : Str :=
  if maxQuotedChars < value.length then debug.str (value.take maxQuotedChars) ++ "..."
  else debug.str value

def WarningText.display : WarningText → Str
  | .leftOut name error =>
      "archive entry " ++ quoted debug name ++ " was left out: " ++ error.display debug
  | .mimetypeIs found =>
      "`mimetype` is " ++ debug.str found ++ ", expected " ++ debug.str epubMimetype
  | .mimetypeAbsent => "the archive has no `mimetype` entry"
  | .unusableHref id href error =>
      "manifest item " ++ quoted debug id ++ " has an unusable href " ++ quoted debug href ++
        " (" ++ error.display debug ++ "); nothing is read for it"
  | .remoteResource =>
      "the manifest points at a remote resource; nothing is fetched over the network"
  | .missingFile => "the manifest names a file the archive does not contain"
  | .nestedArchive => "nested archives are not opened"
  | .kindExcluded kind => kind.asStrName ++ " resources were not emitted; see ParseOptions"
  | .obfuscated =>
      encryptionPath ++ " lists this resource as font-obfuscated, so its stored bytes are not " ++
        "its content; it was not emitted"
  | .noEntries => "the navigation document named no entries this server could read"
  | .noCues => "the media overlay declared no cues this server could read"

end Texts

end GrpcEpub
