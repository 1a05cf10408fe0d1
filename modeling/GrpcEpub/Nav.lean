/-
# `GrpcEpub.Nav` — the navigation document and the NCX

`nav.rs`.  Both parsers are tolerant loops: a reader error ends the document
where it stands, and whatever was read is kept.  Open entries are a stack with
the innermost first.
-/
import GrpcEpub.Xml
import GrpcEpub.Href

namespace GrpcEpub

/-- One entry of a book's navigation. -/
inductive NavPoint where
  | mk (label href : Str) (depth : Nat) (children : List NavPoint)
deriving Repr, Inhabited

namespace NavPoint

def label : NavPoint → Str | .mk l _ _ _ => l

def href : NavPoint → Str | .mk _ h _ _ => h

def depth : NavPoint → Nat | .mk _ _ d _ => d

def children : NavPoint → List NavPoint | .mk _ _ _ c => c

def setLabel (label : Str) : NavPoint → NavPoint | .mk _ h d c => .mk label h d c

def setHref (href : Str) : NavPoint → NavPoint | .mk l _ d c => .mk l href d c

def addChild (child : NavPoint) : NavPoint → NavPoint | .mk l h d c => .mk l h d (c ++ [child])

def default : NavPoint := .mk [] [] 0 []

end NavPoint

/-- A parsed table of contents. -/
structure Navigation where
  sourceHref : Str
  toc : List NavPoint
  fromNcx : Bool
deriving Repr

mutual
/-- Push a point and everything under it. -/
def NavPoint.walk : NavPoint → List NavPoint → List NavPoint
  | .mk label href depth children, out =>
      NavPoint.walkAll children (out ++ [.mk label href depth children])
def NavPoint.walkAll : List NavPoint → List NavPoint → List NavPoint
  | [], out => out
  | point :: rest, out => NavPoint.walkAll rest (NavPoint.walk point out)
end

/-- Every entry, depth-first in document order, flattened. -/
def Navigation.flatten (self : Navigation) : List NavPoint := NavPoint.walkAll self.toc []

namespace Nav

open Xml

/-- `MAX_ENTRIES`. -/
def maxEntries : Nat := 5000

/-- `MAX_DEPTH`. -/
def maxDepth : Nat := 32

/-- Resolve a navigation href against its document, keeping the fragment. -/
def resolveWithFragment (baseDir raw : Str) : Option Str :=
  let (path, fragment) := (raw.splitOnce '#').getD (raw, [])
  if path = [] then none
  else
    match Href.resolve baseDir path with
    | .ok (.entry resolved) =>
        if fragment = [] then some resolved else some (resolved ++ '#' :: fragment)
    | _ => none

/-- `" ".join(text.split_whitespace())`. -/
def collapse (text : Str) : Str := [' '].intercalate text.splitWhitespace

/-- A partly-built entry, and the depth of the element that opened it. -/
structure Opened where
  point : NavPoint
  depth : Nat
deriving Repr

/-- Attach a finished entry to its parent, or to the top level. -/
def attach (stack : List Opened) (roots : List NavPoint) (finished : NavPoint) :
    List Opened × List NavPoint :=
  match stack with
  | parent :: outer => ({ parent with point := .addChild finished parent.point } :: outer, roots)
  | [] => ([], roots ++ [finished])

/-- Update the innermost open entry. -/
def onTop (f : NavPoint → NavPoint) : List Opened → List Opened
  | [] => []
  | top :: outer => { top with point := f top.point } :: outer

/-- The locals of either parser's loop.  `inside` is `in_toc_nav` or `in_map`,
`insideDepth` the depth that opened it, `reading` is `in_label` or `in_text`. -/
structure Loop where
  inside : Bool := false
  insideDepth : Nat := 0
  depth : Nat := 0
  stack : List Opened := []
  roots : List NavPoint := []
  reading : Bool := false
  label : Str := []
  entries : Nat := 0
deriving Repr

namespace Loop

/-- `Event::Text` while a label is being read. -/
def text (self : Loop) (content : Str) : Loop :=
  if self.reading then { self with label := self.label ++ content } else self

/-- The closing half both parsers share: the entry this end tag closes is
attached when it is labelled and the cap allows, and the enclosing `nav` or
`navMap` is left. -/
def closeLevel (self : Loop) : Loop :=
  let self :=
    match self.stack with
    | top :: outer =>
        if top.depth = self.depth then
          if self.entries < maxEntries ∧ top.point.label ≠ [] then
            let (stack, roots) := attach outer self.roots top.point
            { self with stack, roots, entries := self.entries + 1 }
          else { self with stack := outer }
        else self
    | [] => self
  let self :=
    if self.inside ∧ self.depth = self.insideDepth then { self with inside := false } else self
  { self with depth := self.depth - 1 }

end Loop

/-! ## The EPUB 3 navigation document

`parse_nav`: one function for each kind of event, and the loop over them. -/

/-- A start tag in a navigation document. -/
def navStart (baseDir : Str) (self : Loop) (start : Tag) : Loop :=
  let self := { self with depth := self.depth + 1 }
  let name := start.localName
  if name = "nav" ∧ !self.inside then
    let kind := attributeValue start "type"
    if kind = [] ∨ "toc".toList ∈ kind.splitWhitespace then
      { self with inside := true, insideDepth := self.depth }
    else self
  else if name = "li" ∧ self.inside then
    if self.stack.length < maxDepth then
      { self with stack := { point := .default, depth := self.depth } :: self.stack }
    else self
  else if (name = "a" ∨ name = "span") ∧ self.inside then
    match self.stack with
    | top :: outer =>
        if top.point.label = [] then
          let href := (resolveWithFragment baseDir (attributeValue start "href")).getD []
          { self with
            stack := { top with point := top.point.setHref href } :: outer
            reading := true
            label := [] }
        else self
    | [] => self
  else self

/-- An end tag in a navigation document. -/
def navEnd (self : Loop) (name : Str) : Loop :=
  let self :=
    if self.reading ∧ (name = "a" ∨ name = "span") then
      { self with
        reading := false
        stack := onTop (.setLabel (collapse self.label)) self.stack
        label := [] }
    else self
  self.closeLevel

def navStep (baseDir : Str) (self : Loop) : XmlEvent → Loop
  | .start tag => navStart baseDir self tag
  | .text content => self.text content
  | .endTag name => navEnd self (localName name)
  | _ => self

/-- Keep what a truncated document had open, innermost first.  `inner` is the
entry just finished, which its parent takes in before being finished itself. -/
def flush (inner : Option NavPoint) : List Opened → List NavPoint → List NavPoint
  | [], roots => roots ++ inner.toList
  | top :: outer, roots =>
      let point := inner.elim top.point (.addChild · top.point)
      if point.label = [] then flush none outer roots else flush (some point) outer roots

mutual
/-- Set the depth of one point and of everything under it. -/
def renumber (depth : Nat) : NavPoint → NavPoint
  | .mk label href _ children => .mk label href depth (renumberAll (depth + 1) children)
def renumberAll (depth : Nat) : List NavPoint → List NavPoint
  | [] => []
  | point :: rest => renumber depth point :: renumberAll depth rest
end

/-- Renumber depths after the tree is built. -/
def nest (roots : List NavPoint) : List NavPoint := renumberAll 0 roots

def parseNav (stream : XmlStream) (sourceHref : Str) : Navigation :=
  let loop := stream.events.foldl (navStep (Href.parentDir sourceHref)) {}
  { sourceHref, toc := nest (flush none loop.stack loop.roots), fromNcx := false }

/-! ## The EPUB 2 NCX

`parse_ncx`, with the same stack. -/

/-- `<content src>`, in either of its two spellings. -/
def ncxContent (baseDir : Str) (self : Loop) (start : Tag) : Loop :=
  let href := (resolveWithFragment baseDir (attributeValue start "src")).getD []
  { self with stack := onTop (.setHref href) self.stack }

/-- A start tag in an NCX. -/
def ncxStart (baseDir : Str) (self : Loop) (start : Tag) : Loop :=
  let self := { self with depth := self.depth + 1 }
  let name := start.localName
  if name = "navMap" then { self with inside := true, insideDepth := self.depth }
  else if name = "navPoint" ∧ self.inside ∧ self.stack.length < maxDepth then
    { self with stack := { point := .default, depth := self.depth } :: self.stack }
  else if name = "text" ∧ self.inside ∧ self.stack ≠ [] then
    { self with reading := true, label := [] }
  else if name = "content" ∧ self.inside then ncxContent baseDir self start
  else self

/-- An end tag in an NCX. -/
def ncxEnd (self : Loop) (name : Str) : Loop :=
  let self :=
    if name = "text" ∧ self.reading then
      { self with
        reading := false
        stack := onTop
          (fun point => if point.label = [] then point.setLabel (collapse self.label) else point)
          self.stack
        label := [] }
    else self
  self.closeLevel

def ncxStep (baseDir : Str) (self : Loop) : XmlEvent → Loop
  | .empty tag =>
      if self.inside ∧ tag.localName = "content" then ncxContent baseDir self tag else self
  | .start tag => ncxStart baseDir self tag
  | .text content => self.text content
  | .endTag name => ncxEnd self (localName name)
  | _ => self

/-- What an NCX still has open at the end of input is dropped. -/
def parseNcx (stream : XmlStream) (sourceHref : Str) : Navigation :=
  let loop := stream.events.foldl (ncxStep (Href.parentDir sourceHref)) {}
  { sourceHref, toc := nest loop.roots, fromNcx := true }

end Nav

end GrpcEpub
