/-
# `GrpcEpub.Href` — references and entry names turned into archive paths

`href.rs`.  Everything the service calls a path comes out of `normalize`, so
the shape of its results is what the rest of the development rests on: a
`Canonical` path names a file inside the archive and nothing else.

`normalize` is the source's loop over segments (`walkSegments`, the stack kept
in source order) between a guard and a join.
-/
import GrpcEpub.Text
import GrpcEpub.Lib.Utf8

namespace GrpcEpub

/-- `MAX_PATH_BYTES`: the longest path accepted, in bytes. -/
def maxPathBytes : Nat := 1024

/-- What an href turned out to be. -/
inductive Target where
  | entry (path : Str)
  | remote (uri : Str)
deriving DecidableEq, Repr

/-- Why a path was refused. -/
inductive PathError where
  | empty
  | tooLong
  | absolute
  | traversal
  | illegalByte (c : Char)
deriving DecidableEq, Repr

namespace Href

/-! ## Percent decoding

On bytes; an escape that is none stays as it is, and what is no UTF-8 in the end is repaired. -/

/-- One digit of `from_str_radix(_, 16)`. -/
def hexDigit (b : UInt8) : Option Nat :=
  let v := b.toNat
  if 0x30 ≤ v ∧ v ≤ 0x39 then some (v - 0x30)
  else if 0x41 ≤ v ∧ v ≤ 0x46 then some (v - 0x41 + 10)
  else if 0x61 ≤ v ∧ v ≤ 0x66 then some (v - 0x61 + 10)
  else none

/-- `u8::from_str_radix(h, 16)` on a two-byte slice.  The standard parser takes
a leading `+` in front of the digits, so `+5` is five. -/
def fromStrRadix16 (b1 b2 : UInt8) : Option UInt8 :=
  if b1.toNat = 0x2B then (hexDigit b2).map UInt8.ofNat
  else
    match hexDigit b1, hexDigit b2 with
    | some hi, some lo => some (UInt8.ofNat (hi * 16 + lo))
    | _, _ => none

/-- The loop of `percent_decode`.  A two-byte slice that is not UTF-8 parses to
nothing either way, so only the digits are looked at. -/
def percentDecodeBytes : Bytes → Bytes
  | b0 :: b1 :: b2 :: rest =>
      if b0.toNat = 0x25 then
        match fromStrRadix16 b1 b2 with
        | some byte => byte :: percentDecodeBytes rest
        | none => b0 :: percentDecodeBytes (b1 :: b2 :: rest)
      else b0 :: percentDecodeBytes (b1 :: b2 :: rest)
  | short => short

def percentDecode (input : Str) : Str :=
  if '%' ∈ input then Utf8.decodeLossy (percentDecodeBytes (Utf8.encode input)) else input

/-! ## Paths

The base directory is split like the reference, and `..` takes a segment off what has been kept. -/

/-- `parent_dir`: everything before the last `/`, or nothing. -/
def parentDir (path : Str) : Str :=
  ((path.reverse.dropWhile (· ≠ '/')).drop 1).reverse

def isAsciiAlphabetic (c : Char) : Bool :=
  ('A' ≤ c && c ≤ 'Z') || ('a' ≤ c && c ≤ 'z')

/-- What a scheme may be made of. -/
def isSchemeChar (c : Char) : Bool :=
  isAsciiAlphabetic c || ('0' ≤ c && c ≤ '9') || c == '+' || c == '-' || c == '.'

/-- Whether `href` is an absolute URI.  A one-byte scheme is a drive letter. -/
def isAbsoluteUri (href : Str) : Bool :=
  if ':' ∈ href then
    let scheme := href.before ':'
    if scheme.len < 2 then false
    else (scheme.head?.any isAsciiAlphabetic) && scheme.all isSchemeChar
  else false

/-- The loop of `normalize` over the segments of the path, on the segments
already kept. -/
def walkSegments : List Str → List Str → Except PathError (List Str)
  | segments, [] => .ok segments
  | segments, segment :: rest =>
      if segment = [] ∨ segment = ['.'] then walkSegments segments rest
      else if segment = ['.', '.'] then
        if segments = [] then .error .traversal
        else walkSegments segments.dropLast rest
      else walkSegments (segments ++ [segment]) rest

/-- The segments of a base directory, none for the root. -/
def baseSegments (baseDir : Str) : List Str :=
  if baseDir = [] then [] else baseDir.splitOn '/'

/-- `path.replace('\\', "/")`. -/
def slashes (path : Str) : Str := path.map (fun c => if c = '\\' then '/' else c)

/-- `segments.join("/")`. -/
def joinSlash (segments : List Str) : Str := ['/'].intercalate segments

def normalize (baseDir path : Str) : Except PathError Str :=
  if path = [] then .error .empty
  else if maxPathBytes < path.len + baseDir.len + 1 then .error .tooLong
  else if '\x00' ∈ path then .error (.illegalByte '\x00')
  else if (slashes path).head? = some '/' then .error .absolute
  else
    match walkSegments (baseSegments baseDir) ((slashes path).splitOn '/') with
    | .error e => .error e
    | .ok segments => if segments = [] then .error .empty else .ok (joinSlash segments)

/-- Resolve an OPF or container href against the directory holding it. -/
def resolve (baseDir href : Str) : Except PathError Target :=
  if maxPathBytes < href.len then .error .tooLong
  else if isAbsoluteUri href then .ok (.remote href)
  else
    match normalize baseDir (percentDecode (href.before '#')) with
    | .error e => .error e
    | .ok path => .ok (.entry path)

/-- A ZIP entry name in normalized form; `none` for a directory entry. -/
def checkEntryName (name : Str) : Except PathError (Option Str) :=
  if name.getLast? = some '/' ∨ name.getLast? = some '\\' then
    match normalize [] name with
    | .error e => .error e
    | .ok _ => .ok none
  else
    match normalize [] name with
    | .error e => .error e
    | .ok path => .ok (some path)

example : resolve "OEBPS" "chap%201.xhtml#heading" = .ok (.entry "OEBPS/chap 1.xhtml") := by
  decide

example : resolve "OEBPS" "%2e%2e/%2e%2e/etc/passwd" = .error .traversal := by decide

end Href

end GrpcEpub
