/-
# `GrpcEpub.Smil` — media overlays as cues

`smil.rs`.  Clock values are `f64` in the source.  Here they are exact
rationals with the three values a rational cannot be, and the standard
`f64` parser is a parameter: which spellings it reads is its business, and
`parseClock` is what the source does with the answers.
-/
import GrpcEpub.Xml
import GrpcEpub.Href

namespace GrpcEpub

/-- An `f64`, without rounding. -/
inductive Real64 where
  | finite (value : Rat)
  | posInf
  | negInf
  | nan
deriving DecidableEq, Repr

namespace Real64

def zero : Real64 := .finite 0

def add : Real64 → Real64 → Real64
  | .finite a, .finite b => .finite (a + b)
  | .nan, _ | _, .nan => .nan
  | .posInf, .negInf | .negInf, .posInf => .nan
  | .posInf, _ | _, .posInf => .posInf
  | .negInf, _ | _, .negInf => .negInf

/-- Multiplication by a positive constant, the only one the source does. -/
def scale (k : Rat) : Real64 → Real64
  | .finite a => .finite (a * k)
  | x => x

/-- `x < 0.0`. -/
def isNegative : Real64 → Bool
  | .finite a => a < 0
  | .negInf => true
  | _ => false

/-- `x >= 0.0`, which `nan` is not. -/
def isNonNegative : Real64 → Bool
  | .finite a => 0 ≤ a
  | .posInf => true
  | _ => false

def isFinite : Real64 → Bool
  | .finite _ => true
  | _ => false

end Real64

/-- One `<par>`: a span of narration and the text it reads aloud. -/
structure Cue where
  textHref : Str := []
  audioHref : Str := []
  startTime : Real64 := .zero
  endTime : Real64 := .zero
  identifier : Str := []
deriving DecidableEq, Repr

/-- One SMIL document's worth of cues. -/
structure Overlay where
  sourceHref : Str
  cues : List Cue
deriving DecidableEq, Repr

namespace Smil

open Xml

/-- `MAX_CUES`. -/
def maxCues : Nat := 20000

/-- The colon-separated form: fields from the left, each sixty times the last. -/
def clockFields (parse : Str → Option Real64) : Real64 → List Str → Option Real64
  | seconds, [] => some seconds
  | seconds, part :: rest =>
      match parse part.trim with
      | none => none
      | some value =>
          if value.isNegative then none
          else clockFields parse ((seconds.scale 60).add value) rest

/-- The units of a timecount, longest first, with their scale. -/
def clockUnits : List (Str × Rat) :=
  [("ms", 1 / 1000), ("min", 60), ("h", 3600), ("s", 1)]

/-- The timecount form: the first unit the value ends in decides. -/
def clockUnit (parse : Str → Option Real64) (value : Str) :
    List (Str × Rat) → Option (Option Real64)
  | [] => none
  | (unit, scale) :: rest =>
      match value.stripSuffix unit with
      | some number =>
          some ((parse number.trim).bind fun n =>
            if n.isNonNegative then some (n.scale scale) else none)
      | none => clockUnit parse value rest

/-- Parse a SMIL clock value into seconds. -/
def parseClock (parse : Str → Option Real64) (raw : Str) : Option Real64 :=
  let value := raw.trim
  if value = [] then none
  else if ':' ∈ value then
    let parts := value.splitOn ':'
    match clockFields parse .zero parts with
    | none => none
    | some seconds => if 2 ≤ parts.length ∧ parts.length ≤ 3 then some seconds else none
  else
    match clockUnit parse value clockUnits with
    | some result => result
    | none =>
        (parse value).bind fun n => if n.isNonNegative ∧ n.isFinite then some n else none

/-- Resolve a SMIL `src`, keeping any fragment; nothing when it is unusable. -/
def resolveSrc (baseDir raw : Str) : Str :=
  let (path, fragment) := (raw.splitOnce '#').getD (raw, [])
  if path = [] then []
  else
    match Href.resolve baseDir path with
    | .ok (.entry resolved) => if fragment = [] then resolved else resolved ++ '#' :: fragment
    | _ => []

/-- Keep a cue if it says anything. -/
def push (cues : List Cue) (cue : Cue) : List Cue :=
  if cue.textHref = [] ∧ cue.audioHref = [] ∧ cue.endTime = .zero then cues else cues ++ [cue]

/-- The locals of the loop: the kept cues and the one being filled. -/
structure Loop where
  cues : List Cue := []
  current : Option Cue := none
deriving DecidableEq, Repr

/-- The open cue, if any, is finished. -/
def Loop.close (self : Loop) : Loop :=
  match self.current with
  | some cue => { cues := push self.cues cue, current := none }
  | none => self

/-- A start or empty-element tag. -/
def startTag (parse : Str → Option Real64) (baseDir : Str) (self : Loop) (start : Tag) : Loop :=
  let name := start.localName
  if name = "par" then
    { self.close with current := some { identifier := attributeValue start "id" } }
  else if name = "text" then
    { self with current := self.current.map fun cue =>
        { cue with textHref := resolveSrc baseDir (attributeValue start "src") } }
  else if name = "audio" then
    { self with current := self.current.map fun cue =>
        { cue with
          audioHref := resolveSrc baseDir (attributeValue start "src")
          startTime := (parseClock parse (attributeValue start "clipBegin")).getD .zero
          endTime := (parseClock parse (attributeValue start "clipEnd")).getD .zero } }
  else self

def step (parse : Str → Option Real64) (baseDir : Str) (self : Loop) : XmlEvent → Loop
  | .start tag | .empty tag => startTag parse baseDir self tag
  | .endTag name => if localName name = "par" then self.close else self
  | _ => self

/-- The event loop, left as soon as `MAX_CUES` cues are kept. -/
def loop (parse : Str → Option Real64) (baseDir : Str) : Loop → List XmlEvent → Loop
  | self, [] => self
  | self, event :: rest =>
      let self := step parse baseDir self event
      if maxCues ≤ self.cues.length then self else loop parse baseDir self rest

def parseOverlay (parse : Str → Option Real64) (stream : XmlStream) (sourceHref : Str) :
    Overlay :=
  { sourceHref, cues := (loop parse (Href.parentDir sourceHref) {} stream.events).close.cues }

end Smil

end GrpcEpub
