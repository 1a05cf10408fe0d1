/-
# `GrpcEpub.Archive` — opening a ZIP held in memory and inflating entries

`archive.rs`.  The `zip` crate is not part of this repository.  What the source
asks of it is a `MemoryArchive`: where the central directory starts, what
`by_index_raw` says of each surviving record, and what `by_index` puts out when
the entry is inflated.

A decompressor's output is the list of what each `read` returned.  The loop
stops at the first empty read, the first error and the end of the list alike,
and an endless decompressor is cut off by the budget after finitely many reads,
so a finite list loses nothing.
-/
import GrpcEpub.Status
import GrpcEpub.Lib.Effect

namespace GrpcEpub

/-- A panic of the blocking thread.  Arithmetic is checked: an overflow is a
panic, as it is in every build with overflow checks on. -/
inductive Panic where
  | overflow
  | index
  | expected
  | assertion
deriving DecidableEq, Repr

/-- Why a computation stopped early: the client is gone, the call has failed,
or the thread panicked. -/
inductive Abort where
  | gone
  | failed (status : Status)
  | panicked (panic : Panic)
deriving DecidableEq, Repr

/-- `READ_CHUNK`: the size of the buffer one `read` fills. -/
def readChunk : Nat := 65536

/-- What one successful `read` put in the buffer. -/
structure Chunk where
  bytes : Bytes
  fits : bytes.length ≤ readChunk
deriving DecidableEq

inductive CompressionMethod where
  | stored
  | deflated
  | other (name : Str)
deriving DecidableEq, Repr

/-- One surviving record, as `by_index_raw` reports it. -/
structure RawEntry where
  name : Except ZipError Str
  encrypted : Bool
  compression : CompressionMethod
  size : Nat
  compressedSize : Nat
  centralHeaderStart : Nat

/-- An opened archive. -/
structure MemoryArchive where
  centralDirectoryStart : Nat
  byIndexRaw : List (Except ZipError RawEntry)
  byIndex : Nat → Except ZipError (List (Except IoError Chunk))

/-- `ZipArchive::len`. -/
def MemoryArchive.len (archive : MemoryArchive) : Nat := archive.byIndexRaw.length

/-- What the central directory says about one usable file entry. -/
structure EntryInfo where
  index : Nat
  name : Str
  declaredSize : Nat
  compressedSize : Nat
deriving DecidableEq, Repr, Inhabited

/-- The central directory, read and checked. -/
structure Scan where
  entries : List EntryInfo := []
  unusable : List (Str × PathError) := []
deriving DecidableEq, Repr

/-- The running decompression budget for one call. -/
structure Budget where
  remaining : Nat
  consumed : Nat
  entries : Nat
deriving DecidableEq, Repr

def Budget.new (limit : Nat) : Budget := { remaining := limit, consumed := 0, entries := 0 }

namespace Archive

/-! ## Opening

`open` counts signatures before it gives the bytes to the crate, and walks the directory after. -/

/-- `CENTRAL_RECORD_SIGNATURE`. -/
def centralRecordSignature : Bytes := [0x50, 0x4B, 0x01, 0x02]

/-- `CENTRAL_RECORD_FIXED`: the length of a record before its name. -/
def centralRecordFixed : Nat := 46

/-- How many windows of the upload are a record signature. -/
def signatureCount (bytes : Bytes) : Nat :=
  bytes.tails.countP (fun tail => centralRecordSignature.isPrefixOf tail)

/-- `bytes.get(start..start + n)`. -/
def slice (bytes : Bytes) (start n : Nat) : Option Bytes :=
  if start + n ≤ bytes.length then some ((bytes.drop start).take n) else none

/-- A little-endian `u16` at an offset, or the walk has lost its place. -/
def field (bytes : Bytes) (offset : Nat) : Except Status Nat :=
  match slice bytes offset 2 with
  | some [lo, hi] => .ok (lo.toNat + 256 * hi.toNat)
  | _ => .error .notEndToEnd

/-- The walk of `refuse_merged_records` over the records, by their own lengths.
Every turn advances, so `last - pos` turns are enough. -/
def walkRecords (bytes : Bytes) (kept : List Nat) (last : Nat) : Nat → Nat → Except Status Nat
  | 0, pos => .ok pos
  | fuel + 1, pos =>
      if pos < last then do
        let nameLen ← field bytes (pos + 28)
        let extraLen ← field bytes (pos + 30)
        let commentLen ← field bytes (pos + 32)
        if pos ∈ kept then
          walkRecords bytes kept last fuel
            (pos + (centralRecordFixed + nameLen + extraLen + commentLen))
        else
          match slice bytes (pos + centralRecordFixed) nameLen with
          | some name => .error (.twoEntriesNamed (Utf8.decodeLossy name))
          | none => .error .notEndToEnd
      else .ok pos

/-- Where each surviving record began. -/
def keptStarts : List (Except ZipError RawEntry) → Except Status (List Nat)
  | [] => .ok []
  | .error e :: _ => .error (.zip e)
  | .ok entry :: rest => do
      let starts ← keptStarts rest
      return entry.centralHeaderStart :: starts

/-- Refuse an archive whose central directory names one raw path twice. -/
def refuseMergedRecords (bytes : Bytes) (archive : MemoryArchive) : Except Status Unit := do
  let kept ← keptStarts archive.byIndexRaw
  match kept.max? with
  | none => return ()
  | some last =>
      let start := archive.centralDirectoryStart
      let pos ← walkRecords bytes kept last (last - start) start
      if pos = last then return () else .error .notEndToEnd

/-- Open an in-memory archive, with `zipNew` the crate's own parse. -/
def openArchive (zipNew : Bytes → Except ZipError MemoryArchive) (bytes : Bytes)
    (limits : Effective) : Except Status MemoryArchive :=
  if bytes = [] then .error .emptyUpload
  else
    let records := signatureCount bytes
    if limits.maxEntries < records then .error (.tooManyRecords records limits.maxEntries)
    else
      match zipNew bytes with
      | .error e => .error (.zip e)
      | .ok archive =>
          let entries := min archive.len u32Max
          if limits.maxEntries < entries then .error (.tooManyEntries entries limits.maxEntries)
          else
            match refuseMergedRecords bytes archive with
            | .error e => .error e
            | .ok () => .ok archive

/-! ## Scanning

The records in the order in which the crate has them.  An entry that is encrypted or compressed in
another way fails the scan, and so does a path that is claimed already; a name that is refused is
written down and passed over. -/

/-- The encoding check on one record. -/
def checkMethod (name : Str) (entry : RawEntry) : Except Status Unit :=
  if entry.encrypted then .error (.entryEncrypted name)
  else
    match entry.compression with
    | .stored | .deflated => .ok ()
    | .other method => .error (.entryMethod name method)

/-- What is known of a file entry once its name has been checked. -/
def entryInfo (storedCeiling index : Nat) (name : Str) (entry : RawEntry) : EntryInfo where
  index := index
  name := name
  declaredSize := entry.size
  compressedSize := min entry.compressedSize storedCeiling

/-- The loop of `scan`.  `claimed` maps a normalized path to the raw name that
claimed it first. -/
def scanLoop (storedCeiling : Nat) :
    Nat → HashMap Str Str → Scan → List (Except ZipError RawEntry) → Except Status Scan
  | _, _, scan, [] => .ok scan
  | _, _, _, .error e :: _ => .error (.zip e)
  | index, claimed, scan, .ok entry :: rest =>
      match entry.name with
      | .error e => .error (.zip e)
      | .ok name =>
          match checkMethod name entry with
          | .error e => .error e
          | .ok () =>
              match Href.checkEntryName name with
              | .ok none => scanLoop storedCeiling (index + 1) claimed scan rest
              | .error error =>
                  scanLoop storedCeiling (index + 1) claimed
                    { scan with unusable := scan.unusable ++ [(name, error)] } rest
              | .ok (some normalized) =>
                  match claimed.get normalized with
                  | some first => .error (.bothName first name normalized)
                  | none =>
                      scanLoop storedCeiling (index + 1) (claimed.insert normalized name)
                        { scan with entries := scan.entries ++
                            [entryInfo storedCeiling index normalized entry] } rest

/-- Read the central directory and check every entry name and encoding. -/
def scan (archive : MemoryArchive) : Except Status Scan :=
  scanLoop archive.centralDirectoryStart 0 ∅ {} archive.byIndexRaw

/-! ## Inflating

The budget and the ratio are checked twice: in front of the loop by what the entry declares, and
in it by what has come out so far. -/

/-- Reject an entry that cannot fit in what is left of the budget. -/
def checkBudget (size remaining : Nat) (name : Str) : Except Status Unit :=
  if remaining < size then .error (.overBudget name remaining) else .ok ()

/-- Reject an entry that inflates further than the ratio allows. -/
def checkRatio (inflated stored : Nat) (limits : Effective) (name : Str) : Except Status Unit :=
  if inflated < limits.compressionRatioFloorBytes ∨ stored = 0 then .ok ()
  else
    let ratio := inflated / stored
    if limits.maxCompressionRatio < ratio then
      .error (.overRatio name ratio limits.maxCompressionRatio stored inflated)
    else .ok ()

/-- The status for a read that failed while an entry inflated. -/
def inflateStatus (error : IoError) (entry : EntryInfo) : Status :=
  if error.kind = .invalidData ∧
      error.text.contains "larger than its declared uncompressed size" then
    .pastDeclared entry.name entry.declaredSize
  else .zip (.io error)

/-- The loop of `read_entry`, on the bytes kept so far.  Both rules are checked
before the copy. -/
def readLoop (limits : Effective) (entry : EntryInfo) (remaining : Nat) :
    Bytes → List (Except IoError Chunk) → Except Status Bytes
  | out, [] => .ok out
  | _, .error e :: _ => .error (inflateStatus e entry)
  | out, .ok chunk :: rest =>
      if chunk.bytes = [] then .ok out
      else
        let inflated := out.length + chunk.bytes.length
        if min remaining usizeMax < inflated then .error (.overBudget entry.name remaining)
        else
          match checkRatio inflated entry.compressedSize limits entry.name with
          | .error e => .error e
          | .ok () => readLoop limits entry remaining (out ++ chunk.bytes) rest

/-- Everything `read_entry` does before it touches the budget. -/
def inflate (archive : MemoryArchive) (entry : EntryInfo) (limits : Effective)
    (remaining : Nat) : Except Status Bytes :=
  match checkBudget entry.declaredSize remaining entry.name with
  | .error e => .error e
  | .ok () =>
      match checkRatio entry.declaredSize entry.compressedSize limits entry.name with
      | .error e => .error e
      | .ok () =>
          match archive.byIndex entry.index with
          | .error e => .error (.zip e)
          | .ok reads => readLoop limits entry remaining [] reads

/-- `a - b`, panicking below zero. -/
def checkedSub {σ : Type} (a b : Nat) : Eff σ Abort Nat :=
  if b ≤ a then pure (a - b) else throw (.panicked .overflow)

/-- `a + b`, panicking above the type's largest value. -/
def checkedAdd {σ : Type} (limit a b : Nat) : Eff σ Abort Nat :=
  if a + b ≤ limit then pure (a + b) else throw (.panicked .overflow)

/-- Inflate one entry under the budget. -/
def readEntry (archive : MemoryArchive) (entry : EntryInfo) (limits : Effective) :
    Eff Budget Abort Bytes := do
  let budget ← get
  match inflate archive entry limits budget.remaining with
  | .error status => throw (.failed status)
  | .ok out =>
      let actual := out.length
      let remaining ← checkedSub budget.remaining actual
      set { budget with remaining }
      let consumed ← checkedAdd u64Max budget.consumed actual
      set { budget with remaining, consumed }
      let entries ← checkedAdd u32Max budget.entries 1
      set { remaining, consumed, entries : Budget }
      return out

end Archive

end GrpcEpub
