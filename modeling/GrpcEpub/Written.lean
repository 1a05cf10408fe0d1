/-
# `GrpcEpub.Written` — a package document, written and read back

The metadata block is a list of lines: an entry, or a refinement with the id it
refines.  A refinement may stand on either side of its entry, so the parser
holds the refinements back and attaches them when the block is read.

Between two lines the parser is at rest in its section (`Resting`), and each
line adds itself to one of the two lists.  Attaching the held refinements then
gives every entry its own, because no two entries share an id.
-/
import Mathlib.Data.List.TakeWhile
import GrpcEpub.Markup
import GrpcEpub.Opf
import GrpcEpub.Lib.Interleave
import GrpcEpub.Lib.Words

namespace GrpcEpub

namespace Opf

open Xml

/-! ## The rendering

As relations: comments and white space may stand between lines, and attributes in any order. -/

/-- An event that can stand in the text of an element. -/
def Inline : XmlEvent → Prop
  | .text _ | .cData _ | .generalRef _ | .other => True
  | .docType _ | .start _ | .empty _ | .endTag _ => False

/-- The text so far, and one event more. -/
def gather (text : Str) : XmlEvent → Str
  | .text content | .cData content => text ++ content
  | .generalRef reference => pushRef text reference
  | .docType _ | .start _ | .empty _ | .endTag _ | .other => text

/-- Text that is this value but for the whitespace around it. -/
def Padded (value text : Str) : Prop :=
  ∃ lead trail, text = lead ++ value ++ trail ∧ (∀ c ∈ lead, Str.isWhitespace c = true) ∧
    ∀ c ∈ trail, Str.isWhitespace c = true

/-- A metadata element with this value: where there is no text, its tags may be
in one. -/
def Spoken (value : Str) (tag : Tag) (events : List XmlEvent) : Prop :=
  (value = [] ∧ events = [.empty tag]) ∨
    ∃ body, (∀ event ∈ body, Inline event) ∧ Padded value (body.foldl gather []) ∧
      events = element tag body

/-- The tag of an entry: its own element, or a `meta` with its property. -/
structure EntryTag (entry : MetaEntry) (tag : Tag) : Prop where
  named : (entry.element ∈ dublinCore ∧ tag.localName = entry.element ∧
      attributeValue tag "role" = [] ∧ attributeValue tag "file-as" = []) ∨
    (entry.element ∉ dublinCore ∧ tag.localName = "meta" ∧ attributeValue tag "name" = [] ∧
      attributeValue tag "property" = entry.element ∧ attributeValue tag "refines" = [])
  id : attributeValue tag "id" = entry.id
  scheme : attributeValue tag "scheme" = entry.scheme

/-- The tag of a refining `meta`. -/
structure RefiningTag (target : Str) (refinement : Refinement) (tag : Tag) : Prop where
  named : tag.localName = "meta" ∧ attributeValue tag "name" = []
  property : attributeValue tag "property" = refinement.property
  refines : attributeValue tag "refines" = '#' :: target
  scheme : attributeValue tag "scheme" = refinement.scheme

/-- A line of the metadata block. -/
abbrev Line := MetaEntry ⊕ (Str × Refinement)

def LineTag : Line → Tag → Prop
  | .inl entry, tag => EntryTag entry tag
  | .inr refining, tag => RefiningTag refining.1 refining.2 tag

def Line.value : Line → Str
  | .inl entry => entry.value
  | .inr refining => refining.2.value

/-- Each refinement is a line that names its entry, those of one entry in order. -/
structure Arranged (entries : List MetaEntry) (lines : List Line) : Prop where
  ordered : lefts lines = entries
  refined : ∀ entry ∈ entries, entry.id ≠ [] →
    ((rights lines).filter (fun refining => refining.1 = entry.id)).map Prod.snd = entry.refinements
  targets : ∀ refining ∈ rights lines, ∃ entry ∈ entries,
    entry.id = refining.1 ∧ entry.refinements ≠ []

structure ItemTag (item : ManifestItem) (tag : Tag) : Prop where
  name : tag.localName = "item"
  id : attributeValue tag "id" = item.id
  href : attributeValue tag "href" = item.href
  mediaType : attributeValue tag "media-type" = item.mediaType
  properties : attributeValue tag "properties" = [' '].intercalate item.properties
  mediaOverlay : attributeValue tag "media-overlay" = item.mediaOverlay
  fallback : attributeValue tag "fallback" = item.fallback

structure ItemrefTag (item : SpineItem) (tag : Tag) : Prop where
  name : tag.localName = "itemref"
  idref : attributeValue tag "idref" = item.idref
  linear : attributeValue tag "linear" = "no" ↔ item.linear = false

/-- Elements one after the other, each written as `Write` says, with gaps
around them. -/
inductive Listed {α : Type} (Write : α → List XmlEvent → Prop) : List α → List XmlEvent → Prop where
  | nil {gap : List XmlEvent} : Gap gap → Listed Write [] gap
  | cons {a : α} {rest : List α} {gap line events : List XmlEvent} :
      Gap gap → Write a line → Listed Write rest events →
      Listed Write (a :: rest) (gap ++ line ++ events)

/-- A section of the package with these elements; its tags may be in one when
it has none. -/
def SectionOf {α : Type} (Write : α → List XmlEvent → Prop) (contents : List α) (tag : Tag)
    (events : List XmlEvent) : Prop :=
  (contents = [] ∧ events = [.empty tag]) ∨
    ∃ body, Listed Write contents body ∧ events = element tag body

def WritesLine (line : Line) (events : List XmlEvent) : Prop :=
  ∃ tag, LineTag line tag ∧ Spoken line.value tag events

def WritesItem (item : ManifestItem) (events : List XmlEvent) : Prop :=
  ∃ tag, ItemTag item tag ∧ Hollow tag events

def WritesItemref (item : SpineItem) (events : List XmlEvent) : Prop :=
  ∃ tag, ItemrefTag item tag ∧ Hollow tag events

/-- The rendering of a package as an EPUB 3 document. -/
structure PackageDocument (book : Package) (events : List XmlEvent) : Prop where
  written : ∃ (lines : List Line) (package metadata manifest spine : Tag)
    (before after gap₀ gap₁ gap₂ gap₃ block items itemrefs : List XmlEvent),
    events = before ++ element package
      (gap₀ ++ block ++ gap₁ ++ items ++ gap₂ ++ itemrefs ++ gap₃) ++ after ∧
    Gap before ∧ Gap after ∧ Gap gap₀ ∧ Gap gap₁ ∧ Gap gap₂ ∧ Gap gap₃ ∧
    package.localName = "package" ∧ attributeValue package "version" = book.version ∧
    attributeValue package "unique-identifier" = book.uniqueIdentifierId ∧
    metadata.localName = "metadata" ∧ Arranged book.metadata.entries lines ∧
    SectionOf WritesLine lines metadata block ∧
    manifest.localName = "manifest" ∧ SectionOf WritesItem book.manifest manifest items ∧
    spine.localName = "spine" ∧ attributeValue spine "toc" = book.tocIdref ∧
    SectionOf WritesItemref book.spine spine itemrefs

/-! ## What is asked of a package

That it can be written down at all (`Publishable`), and that nothing in it is what the parser drops,
trims or splits (`Settled`). -/

/-- What holds of a book that can be written down. -/
structure Publishable (book : Package) : Prop where
  named : ∀ entry ∈ book.metadata.entries, entry.element ≠ []
  trimmed : ∀ entry ∈ book.metadata.entries, entry.value.trim = entry.value
  distinct : book.metadata.entries.Pairwise fun a b => a.id ≠ [] → a.id ≠ b.id
  unmarked : ∀ entry ∈ book.metadata.entries, entry.id.head? ≠ some '#'
  identified : ∀ entry ∈ book.metadata.entries, entry.refinements ≠ [] → entry.id ≠ []
  readable : book.spine ≠ []

/-- What the parser drops, trims or splits is not in the book. -/
structure Settled (book : Package) : Prop where
  named : ∀ entry ∈ book.metadata.entries, ∀ refinement ∈ entry.refinements,
    refinement.property ≠ []
  trimmed : ∀ entry ∈ book.metadata.entries, ∀ refinement ∈ entry.refinements,
    refinement.value.trim = refinement.value
  tokens : ∀ item ∈ book.manifest, ∀ property ∈ item.properties,
    property ≠ [] ∧ ∀ c ∈ property, Str.isWhitespace c = false

/-- What reading the book's document gives: its typed fields are those its
entries give. -/
def derived (book : Package) : Package :=
  { book with metadata := derive { entries := book.metadata.entries } }

/-- Every rendering of the book is read back as the book. -/
def RoundTrips (book : Package) : Prop :=
  ∀ events, PackageDocument book events →
    parsePackage { events, stop := .eof } = .ok (derived book)

/-! ## Attaching

What `attach_refinements` does to a list of entries whose ids differ: each takes what is held for
it, in order. -/

/-- The refinements held for an id. -/
def heldFor (held : List (Str × Refinement)) (id : Str) : List Refinement :=
  (held.filter (fun refining => refining.1 = id)).map Prod.snd

/-- An entry as its own element has it. -/
def MetaEntry.bare (entry : MetaEntry) : MetaEntry := { entry with refinements := [] }

/-- An entry with some refinements more. -/
def MetaEntry.with (entry : MetaEntry) (more : List Refinement) : MetaEntry :=
  { entry with refinements := entry.refinements ++ more }

/-- With distinct ids, a refinement goes to the entry that has its target. -/
theorem attachRefinement_eq {entries : List MetaEntry} {target : Str} {refinement : Refinement}
    (htarget : target ≠ []) (hdistinct : entries.Pairwise fun a b => a.id ≠ [] → a.id ≠ b.id) :
    attachRefinement entries target refinement =
      entries.map fun entry => MetaEntry.with entry (heldFor [(target, refinement)] entry.id) := by
  induction entries with
  | nil => rfl
  | cons entry rest ih =>
      obtain ⟨hfirst, hrest⟩ := List.pairwise_cons.mp hdistinct
      have hnone : ∀ other : MetaEntry, other.id ≠ target →
          MetaEntry.with other (heldFor [(target, refinement)] other.id) = other := fun other hne => by
        simp [MetaEntry.with, heldFor, Ne.symm hne]
      rw [attachRefinement, List.map_cons]
      split
      · rename_i heq
        have hothers : ∀ other ∈ rest, other.id ≠ target := fun other hother hid =>
          hfirst other hother (heq ▸ htarget) (heq.trans hid.symm)
        rw [List.map_congr_left fun other hother => hnone other (hothers other hother), List.map_id']
        simp [MetaEntry.with, heldFor, heq]
      · rename_i hne
        rw [hnone entry hne, ih hrest]

/-- Every entry gets what is held for its id, in order. -/
theorem foldl_attach {held : List (Str × Refinement)} (htargets : ∀ refining ∈ held, refining.1 ≠ []) :
    ∀ {entries : List MetaEntry}, (entries.Pairwise fun a b => a.id ≠ [] → a.id ≠ b.id) →
      held.foldl (fun entries refining => attachRefinement entries refining.1 refining.2) entries =
        entries.map fun entry => MetaEntry.with entry (heldFor held entry.id) := by
  induction held with
  | nil =>
      intro entries _
      simp [MetaEntry.with, heldFor]
  | cons refining rest ih =>
      intro entries hdistinct
      have hnext : (entries.map fun entry =>
          MetaEntry.with entry (heldFor [refining] entry.id)).Pairwise
            fun a b => a.id ≠ [] → a.id ≠ b.id := List.pairwise_map.mpr hdistinct
      rw [List.foldl_cons, attachRefinement_eq (htargets refining List.mem_cons_self) hdistinct,
        ih (fun refining' hmem => htargets refining' (List.mem_cons_of_mem _ hmem)) hnext,
        List.map_map]
      refine List.map_congr_left ?_
      intro entry _
      have hsplit : heldFor (refining :: rest) entry.id =
          heldFor [refining] entry.id ++ heldFor rest entry.id := by
        rw [heldFor, heldFor, heldFor, ← List.map_append, ← List.filter_append, List.singleton_append]
      simp [MetaEntry.with, hsplit]

/-- Tokens joined by blanks are the tokens again. -/
theorem splitWhitespace_intercalate {tokens : List Str}
    (h : ∀ token ∈ tokens, token ≠ [] ∧ ∀ c ∈ token, Str.isWhitespace c = false) :
    Str.splitWhitespace ([' '].intercalate tokens) = tokens :=
  Words.words_intercalate (by decide) h

/-- Whitespace around a trimmed value is trimmed. -/
theorem trim_padded {value text : Str} (hvalue : value.trim = value) (h : Padded value text) :
    text.trim = value := by
  obtain ⟨lead, trail, rfl, hlead, htrail⟩ := h
  have htrail' : trail.reverse.dropWhile Str.isWhitespace = [] :=
    List.dropWhile_eq_nil_iff.mpr fun c hc => htrail c (List.mem_reverse.mp hc)
  -- Trimming does nothing to the value, so it does nothing at either end.
  have hfront : value.dropWhile Str.isWhitespace = value := by
    refine (List.dropWhile_suffix _).eq_of_length_le ?_
    calc value.length = value.trim.length := by rw [hvalue]
      _ ≤ (value.dropWhile Str.isWhitespace).length := by
        rw [Str.trim, List.length_reverse]
        exact (List.dropWhile_suffix _).length_le.trans (by rw [List.length_reverse])
  have hback : value.reverse.dropWhile Str.isWhitespace = value.reverse := by
    have htrimmed := hvalue
    rw [Str.trim, hfront] at htrimmed
    exact List.reverse_eq_iff.mp htrimmed
  unfold Str.trim
  rw [List.append_assoc, List.dropWhile_append_of_pos hlead]
  cases value with
  | nil =>
      rw [List.nil_append, List.dropWhile_eq_nil_iff.mpr htrail]
      rfl
  | cons c rest =>
      have hc : ¬ Str.isWhitespace c = true := fun hspace => by
        rw [List.dropWhile_cons_of_pos hspace] at hfront
        exact absurd (congrArg List.length hfront)
          (Nat.ne_of_lt (Nat.lt_succ_of_le (List.dropWhile_suffix _).length_le))
      rw [List.cons_append, List.dropWhile_cons_of_neg hc, ← List.cons_append, List.reverse_append,
        List.dropWhile_append_of_pos fun d hd => htrail d (List.mem_reverse.mp hd), hback,
        List.reverse_reverse]

/-! ## One line of the metadata

A line opens an element, gathers its text, and files it at the end tag. -/

namespace PackageParser

/-- Between two elements of a section. -/
structure Resting (inSection : Section) (parser : PackageParser) : Prop where
  started : parser.sawPackage = true
  inside : parser.inSection = inSection
  level : parser.inSection ≠ .outside → parser.sectionDepth ≤ parser.depth
  idle : parser.collecting = none
  blank : parser.text = []

/-- Inside an element that opens no section. -/
def deeper (self : PackageParser) : PackageParser := { self with depth := self.depth + 1 }

section Steps

variable {self : PackageParser} {inSection : Section}

theorem foldlM_gap {gap : List XmlEvent} (hgap : Gap gap) (h : self.collecting = none) :
    gap.foldlM step self = .ok self := by
  induction gap with
  | nil => rfl
  | cons event rest ih =>
      have hsame : step self event = .ok self := by
        rcases hgap event List.mem_cons_self with rfl | ⟨text, rfl, -⟩
        · rfl
        · exact if_neg (by rw [h]; exact Bool.false_ne_true)
      rw [List.foldlM_cons, hsame]
      exact ih fun event hevent => hgap event (List.mem_cons_of_mem _ hevent)

/-- The text of the element that is being collected. -/
theorem foldlM_inline {body : List XmlEvent} (hbody : ∀ event ∈ body, Inline event)
    (h : self.collecting.isSome = true) :
    body.foldlM step self = .ok { self with text := body.foldl gather self.text } := by
  induction body generalizing self with
  | nil => rfl
  | cons event rest ih =>
      have hfirst : step self event = .ok { self with text := gather self.text event } := by
        cases event with
        | text content => exact if_pos h
        | cData content => exact if_pos h
        | generalRef reference => exact if_pos h
        | other => rfl
        | docType | start | empty | endTag =>
            exact absurd (hbody _ List.mem_cons_self) not_false
      have hcollecting :
          ({ self with text := gather self.text event } : PackageParser).collecting.isSome = true := h
      rw [List.foldlM_cons, hfirst]
      exact ih (fun event hevent => hbody event (List.mem_cons_of_mem _ hevent)) hcollecting

theorem openTag_empty (h : self.Resting inSection) (tag : Tag) :
    self.openTag tag true = .ok (self.openInside tag tag.localName true) := by
  unfold openTag
  simp [h.started]

theorem openTag_start (h : self.Resting inSection) (tag : Tag) :
    self.openTag tag false =
      .ok (self.deeper.openInside tag tag.localName false) := by
  unfold openTag
  simp [h.started, deeper]

/-- A line of the block, filed. -/
def filed (self : PackageParser) : Line → PackageParser
  | .inl entry =>
      { self with package.metadata.entries :=
          self.package.metadata.entries ++ [MetaEntry.bare entry] }
  | .inr refining => { self with refinements := self.refinements ++ [refining] }

/-- What a line's tag opens. -/
def pendingFor (tag : Tag) : Line → Pending
  | .inl entry =>
      { localName := tag.localName
        entry := { entry with value := [], refinements := [] }
        refines := [] }
  | .inr (target, refinement) =>
      { localName := tag.localName
        entry :=
          { element := refinement.property, value := [], id := attributeValue tag "id"
            scheme := refinement.scheme, refinements := [] }
        refines := target }

end Steps

end PackageParser

/-- What a line's tag needs to open something. -/
def Naming : Line → Prop
  | .inl entry => entry.element ≠ []
  | .inr refining => refining.1 ≠ [] ∧ refining.1.head? ≠ some '#' ∧ refining.2.property ≠ []

/-- A line the parser keeps as it is. -/
structure Kept (line : Line) : Prop where
  naming : Naming line
  trimmed : line.value.trim = line.value

theorem isCoverMeta_unnamed {tag : Tag} (h : attributeValue tag "name" = []) (name : Str) :
    PackageParser.isCoverMeta tag name = false := by
  unfold PackageParser.isCoverMeta
  rw [h]
  exact Bool.and_false _

theorem isCoverMeta_other {tag : Tag} {name : Str} (h : name ≠ "meta") :
    PackageParser.isCoverMeta tag name = false := by
  unfold PackageParser.isCoverMeta
  rw [beq_eq_false_iff_ne.mpr h, Bool.false_and]

theorem meta_not_dublinCore : "meta".toList ∉ dublinCore := by decide

theorem isCoverMeta_line {line : Line} {tag : Tag} (htag : LineTag line tag) :
    PackageParser.isCoverMeta tag tag.localName = false := by
  cases line with
  | inl entry =>
      rcases htag.named with ⟨hcore, hname, -⟩ | ⟨-, -, hunnamed, -⟩
      · exact isCoverMeta_other fun heq => meta_not_dublinCore (heq ▸ hname ▸ hcore)
      · exact isCoverMeta_unnamed hunnamed _
  | inr refining => exact isCoverMeta_unnamed htag.named.2 _

theorem dropWhile_mark {target : Str} (h : target.head? ≠ some '#') :
    ('#' :: target).dropWhile (· = '#') = target := by
  rw [List.dropWhile_cons_of_pos (by simp)]
  cases target with
  | nil => rfl
  | cons c rest => exact List.dropWhile_cons_of_neg (by simpa using h)

theorem epub2Refinements_none {tag : Tag} (hrole : attributeValue tag "role" = [])
    (hfileAs : attributeValue tag "file-as" = []) : epub2Refinements tag = [] := by
  unfold epub2Refinements
  rw [List.filterMap_cons, List.filterMap_cons, hrole, hfileAs]
  rfl

/-- The tag of a line opens what the line says. -/
theorem pendingOf_line {line : Line} {tag : Tag} (htag : LineTag line tag) (hnaming : Naming line) :
    PackageParser.pendingOf tag tag.localName = some (PackageParser.pendingFor tag line) := by
  unfold PackageParser.pendingOf
  cases line with
  | inl entry =>
      rcases htag.named with ⟨hcore, hname, hrole, hfileAs⟩ |
        ⟨-, hname, -, hproperty, hrefines⟩
      · have hother : tag.localName ≠ "meta".toList := fun heq =>
          meta_not_dublinCore (heq ▸ hname ▸ hcore)
        rw [if_neg hother, if_pos (hname ▸ hcore), epub2Refinements_none hrole hfileAs, htag.id,
          htag.scheme]
        simp [PackageParser.pendingFor, hname]
      · rw [if_pos hname, hproperty, if_neg hnaming, hrefines, htag.id, htag.scheme]
        rfl
  | inr refining =>
      rw [if_pos htag.named.1, htag.property, if_neg hnaming.2.2, htag.refines, htag.scheme,
        dropWhile_mark hnaming.2.1]
      rfl

namespace PackageParser

variable {self : PackageParser} {inSection : Section}

/-- Storing what a line opened files the line. -/
theorem store_line {line : Line} {tag : Tag} (hnaming : Naming line) :
    self.store (pendingFor tag line) line.value = self.filed line := by
  cases line with
  | inl entry => exact if_pos rfl
  | inr refining => exact if_neg hnaming.1

theorem openMetadata_line {line : Line} {tag : Tag} (htag : LineTag line tag) (hnaming : Naming line)
    (empty : Bool) :
    self.openMetadata tag tag.localName empty =
      if empty then ({ self with text := [] } : PackageParser).store (pendingFor tag line) []
      else { self with text := [], collecting := some (pendingFor tag line) } := by
  unfold openMetadata
  rw [if_neg (by rw [isCoverMeta_line htag]; exact Bool.false_ne_true), pendingOf_line htag hnaming]

theorem filed_resting {inSection : Section} (h : self.Resting inSection) (line : Line) :
    (self.filed line).Resting inSection := by
  cases line <;> exact ⟨h.started, h.inside, h.level, h.idle, h.blank⟩

theorem filed_deeper (line : Line) : self.deeper.filed line = (self.filed line).deeper := by
  cases line <;> rfl

/-- The end of an element that opened no section. -/
theorem close_deeper {inSection : Section} (h : self.Resting inSection) (name : Str) :
    self.deeper.close name = self := by
  have hbelow : ¬ (self.deeper.inSection ≠ .outside ∧
      self.deeper.depth = self.deeper.sectionDepth) := fun hin =>
    absurd (h.level hin.1) (Nat.not_le.mpr (hin.2 ▸ Nat.lt_succ_self self.depth))
  have hcollected : self.deeper.closeCollection name = self.deeper := by
    unfold closeCollection deeper
    rw [h.idle]
  unfold close
  rw [hcollected]
  dsimp only
  rw [if_neg hbelow]
  rfl

/-- The end of the element that is being collected. -/
theorem close_line {line : Line} {tag : Tag} {text : Str} {inSection : Section}
    (h : self.Resting inSection) (hkept : Kept line) (hvalue : Padded line.value text) :
    ({ self.deeper with text, collecting := some (pendingFor tag line) } : PackageParser).close
      (localName tag.name) = self.filed line := by
  have hname : (pendingFor tag line).localName = localName tag.name := by
    cases line <;> rfl
  have hidle : ({ self.deeper with text := [], collecting := none } : PackageParser) =
      self.deeper := by
    rw [← h.idle, ← h.blank]
    rfl
  have hcollected : ({ self.deeper with text, collecting := some (pendingFor tag line) } :
      PackageParser).closeCollection (localName tag.name) = (self.filed line).deeper := by
    unfold closeCollection
    dsimp only
    rw [if_pos hname, trim_padded hkept.trimmed hvalue, hidle, store_line hkept.naming, filed_deeper]
  have hidle' : (self.filed line).deeper.closeCollection (localName tag.name) =
      (self.filed line).deeper := by
    unfold closeCollection deeper
    rw [(filed_resting h line).idle]
  have hclose := close_deeper (filed_resting h line) (localName tag.name)
  unfold close at hclose ⊢
  rw [hcollected]
  rw [hidle'] at hclose
  exact hclose

/-- A line of the block adds itself, however its element is written. -/
theorem foldlM_line {line : Line} {events : List XmlEvent} (h : self.Resting .metadata)
    (hkept : Kept line) (hline : WritesLine line events) :
    events.foldlM step self = .ok (self.filed line) := by
  obtain ⟨tag, htag, ⟨hvalue, rfl⟩ | ⟨body, hbody, hvalue, rfl⟩⟩ := hline
  · have hblank : ({ self with text := [] } : PackageParser) = self := by
      rw [← h.blank]
    have hempty : step self (.empty tag) = .ok (self.filed line) := by
      refine (openTag_empty h tag).trans ?_
      rw [openInside, h.inside]
      dsimp only
      rw [openMetadata_line htag hkept.naming, if_pos rfl, hblank, ← @store_line self line tag hkept.naming, hvalue]
    rw [List.foldlM_cons, hempty]
    rfl
  · have hstart : step self (.start tag) =
        .ok { self.deeper with text := [], collecting := some (pendingFor tag line) } := by
      have hinside : self.deeper.inSection = .metadata := h.inside
      refine (openTag_start h tag).trans ?_
      rw [openInside, hinside]
      dsimp only
      rw [openMetadata_line htag hkept.naming]
      rfl
    rw [element, List.foldlM_cons, hstart]
    refine (List.foldlM_append ..).trans ?_
    rw [foldlM_inline hbody rfl]
    exact congrArg Except.ok (close_line h hkept hvalue)

/-! ## Items and itemrefs

These are filed when they are opened. -/

/-- An element without text does the same in either of its spellings. -/
theorem foldlM_hollow {tag : Tag} {events : List XmlEvent} {inSection : Section}
    {after : PackageParser} (h : self.Resting inSection) (hafter : after.Resting inSection)
    (hempty : self.openInside tag tag.localName true = after)
    (hstart : self.deeper.openInside tag tag.localName false = after.deeper)
    (hhollow : Hollow tag events) : events.foldlM step self = .ok after := by
  rcases hhollow with rfl | ⟨gap, hgap, rfl⟩
  · have hstep : step self (.empty tag) = .ok after := (openTag_empty h tag).trans (by rw [hempty])
    rw [List.foldlM_cons, hstep]
    rfl
  · have hstep : step self (.start tag) = .ok after.deeper :=
      (openTag_start h tag).trans (by rw [hstart])
    rw [element, List.foldlM_cons, hstep]
    refine (List.foldlM_append ..).trans ?_
    rw [foldlM_gap hgap (show after.deeper.collecting = none from hafter.idle)]
    exact congrArg Except.ok (close_deeper hafter (localName tag.name))

def itemListed (self : PackageParser) (item : ManifestItem) : PackageParser :=
  { self with package.manifest := self.package.manifest ++ [item] }

def itemrefListed (self : PackageParser) (item : SpineItem) : PackageParser :=
  { self with package.spine := self.package.spine ++ [item] }

theorem itemListed_resting {inSection : Section} (h : self.Resting inSection)
    (item : ManifestItem) : (self.itemListed item).Resting inSection :=
  ⟨h.started, h.inside, h.level, h.idle, h.blank⟩

theorem itemrefListed_resting {inSection : Section} (h : self.Resting inSection)
    (item : SpineItem) : (self.itemrefListed item).Resting inSection :=
  ⟨h.started, h.inside, h.level, h.idle, h.blank⟩

theorem manifestItem_tag {item : ManifestItem} {tag : Tag} (htag : ItemTag item tag)
    (htokens : ∀ property ∈ item.properties,
      property ≠ [] ∧ ∀ c ∈ property, Str.isWhitespace c = false) : manifestItem tag = item := by
  unfold manifestItem
  rw [htag.id, htag.href, htag.mediaType, htag.properties, htag.mediaOverlay, htag.fallback,
    splitWhitespace_intercalate htokens]

theorem spineItem_tag {item : SpineItem} {tag : Tag} (htag : ItemrefTag item tag) :
    spineItem tag = item := by
  have hlinear : decide (attributeValue tag "linear" ≠ "no".toList) = item.linear := by
    cases hitem : item.linear with
    | false => exact decide_eq_false fun hne => hne (htag.linear.mpr hitem)
    | true =>
        refine decide_eq_true ?_
        intro heq
        exact absurd (hitem.symm.trans (htag.linear.mp heq)) Bool.false_ne_true.symm
  unfold spineItem
  rw [htag.idref, hlinear]

/-- An item that is written is listed. -/
theorem foldlM_item {item : ManifestItem} {events : List XmlEvent} (h : self.Resting .manifest)
    (htokens : ∀ property ∈ item.properties,
      property ≠ [] ∧ ∀ c ∈ property, Str.isWhitespace c = false)
    (hitem : WritesItem item events) : events.foldlM step self = .ok (self.itemListed item) := by
  obtain ⟨tag, htag, hhollow⟩ := hitem
  have hopen : ∀ parser : PackageParser, parser.inSection = .manifest → ∀ empty,
      parser.openInside tag tag.localName empty = parser.itemListed item := by
    intro parser hinside empty
    obtain ⟨package, sawPackage, inSection, depth, sectionDepth, collecting, text, refinements⟩ :=
      parser
    obtain rfl : inSection = .manifest := hinside
    unfold openInside itemListed
    dsimp only
    rw [if_pos htag.name, manifestItem_tag htag htokens]
  exact foldlM_hollow h (itemListed_resting h item) (hopen self h.inside true)
    (hopen self.deeper h.inside false) hhollow

/-- And an itemref. -/
theorem foldlM_itemref {item : SpineItem} {events : List XmlEvent} (h : self.Resting .spine)
    (hitem : WritesItemref item events) :
    events.foldlM step self = .ok (self.itemrefListed item) := by
  obtain ⟨tag, htag, hhollow⟩ := hitem
  have hopen : ∀ parser : PackageParser, parser.inSection = .spine → ∀ empty,
      parser.openInside tag tag.localName empty = parser.itemrefListed item := by
    intro parser hinside empty
    obtain ⟨package, sawPackage, inSection, depth, sectionDepth, collecting, text, refinements⟩ :=
      parser
    obtain rfl : inSection = .spine := hinside
    unfold openInside itemrefListed
    dsimp only
    rw [if_pos htag.name, spineItem_tag htag]
  exact foldlM_hollow h (itemrefListed_resting h item) (hopen self h.inside true)
    (hopen self.deeper h.inside false) hhollow

/-! ## A section

`Adds` is what the three sections have in common: elements that each add to the parser what they
say, and leave it at rest. -/

/-- What each element of a section adds to the parser, wherever it stands. -/
structure Adds {α : Type} (inSection : Section) (Write : α → List XmlEvent → Prop)
    (Keep : α → Prop) (effect : PackageParser → α → PackageParser) : Prop where
  runs : ∀ {parser a events}, Keep a → parser.Resting inSection → Write a events →
    events.foldlM step parser = .ok (effect parser a)
  resting : ∀ {outer parser} a, parser.Resting outer → (effect parser a).Resting outer
  entered : ∀ parser a,
    effect (parser.deeper.enter inSection) a = (effect parser a).deeper.enter inSection

theorem filed_adds : Adds .metadata WritesLine Kept filed where
  runs := fun hkept h hline => foldlM_line h hkept hline
  resting := fun line h => filed_resting h line
  entered := fun _ line => by cases line <;> rfl

/-- An item whose properties are tokens. -/
def Tokened (item : ManifestItem) : Prop :=
  ∀ property ∈ item.properties, property ≠ [] ∧ ∀ c ∈ property, Str.isWhitespace c = false

theorem itemListed_adds : Adds .manifest WritesItem Tokened itemListed where
  runs := fun htokens h hitem => foldlM_item h htokens hitem
  resting := fun item h => itemListed_resting h item
  entered := fun _ _ => rfl

theorem itemrefListed_adds : Adds .spine WritesItemref (fun _ => True) itemrefListed where
  runs := fun _ h hitem => foldlM_itemref h hitem
  resting := fun item h => itemrefListed_resting h item
  entered := fun _ _ => rfl

section Sections

variable {α : Type} {Write : α → List XmlEvent → Prop} {Keep : α → Prop}
  {effect : PackageParser → α → PackageParser}

theorem Adds.foldl_resting (hadds : Adds inSection Write Keep effect) (contents : List α)
    {outer : Section} (h : self.Resting outer) : (contents.foldl effect self).Resting outer := by
  induction contents generalizing self with
  | nil => exact h
  | cons a rest ih => exact ih (hadds.resting a h)

theorem Adds.foldl_entered (hadds : Adds inSection Write Keep effect) (contents : List α) :
    contents.foldl effect (self.deeper.enter inSection) =
      (contents.foldl effect self).deeper.enter inSection := by
  induction contents generalizing self with
  | nil => rfl
  | cons a rest ih => rw [List.foldl_cons, hadds.entered, ih, List.foldl_cons]

theorem Adds.foldlM_listed (hadds : Adds inSection Write Keep effect) {contents : List α}
    {events : List XmlEvent} (hlisted : Listed Write contents events) (hkeep : ∀ a ∈ contents, Keep a)
    (h : self.Resting inSection) :
    events.foldlM step self = .ok (contents.foldl effect self) := by
  induction hlisted generalizing self with
  | nil hgap => exact foldlM_gap hgap h.idle
  | @cons a rest gap line events hgap hwrite _ ih =>
      rw [List.append_assoc]
      refine (List.foldlM_append ..).trans ?_
      rw [foldlM_gap hgap h.idle]
      refine (List.foldlM_append ..).trans ?_
      rw [hadds.runs (hkeep a List.mem_cons_self) h hwrite]
      exact ih (fun b hb => hkeep b (List.mem_cons_of_mem _ hb)) (hadds.resting a h)

/-- The end of a section. -/
theorem close_entered (h : self.Resting .outside) (hinner : inSection ≠ .outside) (name : Str) :
    (self.deeper.enter inSection).close name = { self with sectionDepth := self.depth + 1 } := by
  obtain ⟨package, sawPackage, outer, depth, sectionDepth, collecting, text, refinements⟩ := self
  obtain rfl : outer = .outside := h.inside
  obtain rfl : collecting = none := h.idle
  unfold close closeCollection enter deeper
  dsimp only
  rw [if_pos ⟨hinner, rfl⟩]
  rfl

/-- A section adds its contents, and is left again.  `base` is the parser with
what the section's own tag says. -/
theorem Adds.foldlM_section (hadds : Adds inSection Write Keep effect) {contents : List α}
    {tag : Tag} {events : List XmlEvent} {base : PackageParser} (h : self.Resting .outside)
    (hbase : base.Resting .outside) (hinner : inSection ≠ .outside)
    (hnone : contents = [] → base = self) (hkeep : ∀ a ∈ contents, Keep a)
    (hopen : self.deeper.openInside tag tag.localName false = base.deeper.enter inSection)
    (hsection : SectionOf Write contents tag events) :
    ∃ sectionDepth, events.foldlM step self =
      .ok { contents.foldl effect base with sectionDepth } := by
  rcases hsection with ⟨rfl, rfl⟩ | ⟨body, hbody, rfl⟩
  · refine ⟨self.sectionDepth, ?_⟩
    have hstep : step self (.empty tag) = .ok self := by
      refine (openTag_empty h tag).trans ?_
      rw [openInside, h.inside]
      rfl
    rw [hnone rfl, List.foldlM_cons, hstep]
    rfl
  · refine ⟨(contents.foldl effect base).depth + 1, ?_⟩
    have hstart : step self (.start tag) = .ok (base.deeper.enter inSection) :=
      (openTag_start h tag).trans (by rw [hopen])
    have hentered : (base.deeper.enter inSection).Resting inSection :=
      ⟨hbase.started, rfl, fun _ => Nat.le_refl _, hbase.idle, hbase.blank⟩
    rw [element, List.foldlM_cons, hstart]
    refine (List.foldlM_append ..).trans ?_
    rw [hadds.foldlM_listed hbody hkeep hentered, hadds.foldl_entered]
    exact congrArg Except.ok (close_entered (hadds.foldl_resting contents hbase) hinner _)

end Sections

/-! ## What a whole section adds

The fold over its elements, as one list appended. -/

theorem foldl_filed (lines : List Line) : lines.foldl filed self =
    { self with
      package.metadata.entries := self.package.metadata.entries ++
        (lefts lines).map MetaEntry.bare
      refinements := self.refinements ++ rights lines } := by
  induction lines generalizing self with
  | nil => simp [lefts, rights]
  | cons line rest ih =>
      rw [List.foldl_cons, ih]
      cases line <;> simp [filed]

theorem foldl_itemListed (items : List ManifestItem) : items.foldl itemListed self =
    { self with package.manifest := self.package.manifest ++ items } := by
  induction items generalizing self with
  | nil => simp
  | cons item rest ih => simp [ih, itemListed]

theorem foldl_itemrefListed (items : List SpineItem) : items.foldl itemrefListed self =
    { self with package.spine := self.package.spine ++ items } := by
  induction items generalizing self with
  | nil => simp
  | cons item rest ih => simp [ih, itemrefListed]

end PackageParser

/-! ## The whole document

The three sections in any order, with a root around them. -/

section Document

variable {book : Package} {lines : List Line}

/-- The lines of a package that can be published are kept as they are. -/
theorem kept_of_arranged (hbook : Publishable book) (hsettled : Settled book)
    (harranged : Arranged book.metadata.entries lines) : ∀ line ∈ lines, Kept line := by
  intro line hline
  cases line with
  | inl entry =>
      have hentry : entry ∈ book.metadata.entries :=
        harranged.ordered ▸ List.mem_filterMap.mpr ⟨.inl entry, hline, rfl⟩
      exact ⟨hbook.named entry hentry, hbook.trimmed entry hentry⟩
  | inr refining =>
      have hright : refining ∈ rights lines := List.mem_filterMap.mpr ⟨.inr refining, hline, rfl⟩
      obtain ⟨entry, hentry, hid, hrefined⟩ := harranged.targets refining hright
      have hne := hbook.identified entry hentry hrefined
      have hown : refining.2 ∈ entry.refinements := by
        rw [← harranged.refined entry hentry hne]
        exact List.mem_map_of_mem (List.mem_filter.mpr ⟨hright, decide_eq_true hid.symm⟩)
      exact ⟨⟨hid ▸ hne, hid ▸ hbook.unmarked entry hentry,
        hsettled.named entry hentry refining.2 hown⟩, hsettled.trimmed entry hentry refining.2 hown⟩

/-- Attaching what is held gives every entry its own refinements back. -/
theorem attached_entries (hbook : Publishable book)
    (harranged : Arranged book.metadata.entries lines) :
    (rights lines).foldl (fun entries refining => attachRefinement entries refining.1 refining.2)
        ((lefts lines).map MetaEntry.bare) = book.metadata.entries := by
  have htargets : ∀ refining ∈ rights lines, refining.1 ≠ [] := fun refining hmem => by
    obtain ⟨entry, hentry, hid, hrefined⟩ := harranged.targets refining hmem
    exact hid ▸ hbook.identified entry hentry hrefined
  have hdistinct : ((lefts lines).map MetaEntry.bare).Pairwise fun a b => a.id ≠ [] → a.id ≠ b.id := by
    rw [harranged.ordered]
    exact List.pairwise_map.mpr hbook.distinct
  rw [foldl_attach htargets hdistinct, harranged.ordered, List.map_map]
  refine (List.map_congr_left fun entry hentry => ?_).trans (List.map_id _)
  have hheld : heldFor (rights lines) entry.id = entry.refinements := by
    by_cases hid : entry.id = []
    · have hnone : entry.refinements = [] := by
        by_contra hrefined
        exact hbook.identified entry hentry hrefined hid
      rw [hnone, heldFor, List.map_eq_nil_iff, List.filter_eq_nil_iff]
      exact fun refining hmem => by
        simpa [hid] using htargets refining hmem
    · exact harranged.refined entry hentry hid
  unfold MetaEntry.bare MetaEntry.with
  dsimp only [Function.comp, id]
  rw [hheld]
  rfl

/-- One part of a document after another. -/
theorem foldlM_then {front rest : List XmlEvent} {p q r : PackageParser}
    (hfront : front.foldlM PackageParser.step p = .ok q)
    (hrest : rest.foldlM PackageParser.step q = .ok r) :
    (front ++ rest).foldlM PackageParser.step p = .ok r := by
  refine (List.foldlM_append ..).trans ?_
  rw [hfront]
  exact hrest

/-- The parser inside a package, before its sections. -/
def rooted (version uniqueIdentifierId : Str) : PackageParser where
  package := { version, uniqueIdentifierId }
  sawPackage := true
  depth := 1

theorem rooted_resting (version uniqueIdentifierId : Str) :
    (rooted version uniqueIdentifierId).Resting .outside :=
  ⟨rfl, rfl, fun hne => absurd rfl hne, rfl, rfl⟩

theorem openInside_metadata {self : PackageParser} {tag : Tag} (h : self.Resting .outside)
    (hname : tag.localName = "metadata") :
    self.deeper.openInside tag tag.localName false = self.deeper.enter .metadata := by
  have hinside : self.deeper.inSection = .outside := h.inside
  rw [PackageParser.openInside, hinside]
  exact (if_neg Bool.false_ne_true).trans (if_pos hname)

theorem openInside_manifest {self : PackageParser} {tag : Tag} (h : self.Resting .outside)
    (hname : tag.localName = "manifest") :
    self.deeper.openInside tag tag.localName false = self.deeper.enter .manifest := by
  have hinside : self.deeper.inSection = .outside := h.inside
  have hother : tag.localName ≠ "metadata".toList := by
    rw [hname]
    decide
  rw [PackageParser.openInside, hinside]
  exact (if_neg Bool.false_ne_true).trans ((if_neg hother).trans (if_pos hname))

theorem openInside_spine {self : PackageParser} {tag : Tag} (h : self.Resting .outside)
    (hname : tag.localName = "spine") :
    self.deeper.openInside tag tag.localName false =
      ({ self with package.tocIdref := attributeValue tag "toc" } : PackageParser).deeper.enter
        .spine := by
  have hinside : self.deeper.inSection = .outside := h.inside
  have hother : tag.localName ≠ "metadata".toList ∧ tag.localName ≠ "manifest".toList := by
    rw [hname]
    decide
  rw [PackageParser.openInside, hinside]
  exact (if_neg Bool.false_ne_true).trans ((if_neg hother.1).trans
    ((if_neg hother.2).trans (if_pos hname)))

theorem setLevel_resting {self : PackageParser} (h : self.Resting .outside) (sectionDepth : Nat) :
    ({ self with sectionDepth } : PackageParser).Resting .outside :=
  ⟨h.started, h.inside, fun hne => absurd h.inside hne, h.idle, h.blank⟩

theorem close_outside {self : PackageParser} (h : self.Resting .outside) (name : Str) :
    self.close name = { self with depth := self.depth - 1 } := by
  have hcollected : self.closeCollection name = self := by
    unfold PackageParser.closeCollection
    rw [h.idle]
  unfold PackageParser.close
  rw [hcollected]
  dsimp only
  rw [if_neg fun hin => hin.1 h.inside]

/-- A document around the inside of its package. -/
theorem parsePackage_rooted {root : Tag} {before inner after : List XmlEvent} {p q : PackageParser}
    (hbefore : Gap before) (hafter : Gap after)
    (hstart : PackageParser.step {} (.start root) = .ok p)
    (hinner : inner.foldlM PackageParser.step p = .ok q) (h : q.Resting .outside)
    (hspine : q.package.spine ≠ []) :
    parsePackage { events := before ++ element root inner ++ after, stop := .eof } =
      .ok q.finishMetadata := by
  have hclosed : ({ q with depth := q.depth - 1 } : PackageParser).collecting = none := h.idle
  have hend : [XmlEvent.endTag root.name].foldlM PackageParser.step q =
      .ok { q with depth := q.depth - 1 } :=
    congrArg Except.ok (close_outside h (localName root.name))
  have hroot : (element root inner).foldlM PackageParser.step {} =
      .ok { q with depth := q.depth - 1 } := by
    rw [element, List.foldlM_cons, hstart]
    exact foldlM_then hinner hend
  have hrun := foldlM_then (foldlM_then (PackageParser.foldlM_gap hbefore rfl) hroot)
    (PackageParser.foldlM_gap hafter hclosed)
  have hstarted : ({ q with depth := q.depth - 1 } : PackageParser).sawPackage = true := h.started
  unfold parsePackage
  rw [hrun]
  refine (if_neg ?_).trans (if_neg hspine)
  rw [hstarted]
  exact Bool.false_ne_true

theorem setToc_resting {self : PackageParser} (h : self.Resting .outside) (tocIdref : Str) :
    ({ self with package.tocIdref := tocIdref } : PackageParser).Resting .outside :=
  ⟨h.started, h.inside, h.level, h.idle, h.blank⟩

/-- A package that can be written down, and that the parser leaves as it is, is read back. -/
theorem package_written (hbook : Publishable book) (hsettled : Settled book) : RoundTrips book := by
  intro events hdocument
  obtain ⟨lines, package, metadata, manifest, spine, before, after, gap₀, gap₁, gap₂, gap₃, block,
    items, itemrefs, rfl, hbefore, hafter, hgap₀, hgap₁, hgap₂, hgap₃, hpackage, hversion,
    hidentifier, hmetadata, harranged, hblock, hmanifest, hitems, hspine, htoc, hitemrefs⟩ :=
    hdocument.written
  have hstart : PackageParser.step {} (.start package) =
      .ok (rooted book.version book.uniqueIdentifierId) := by
    rw [← hversion, ← hidentifier]
    exact if_neg fun hne => hne hpackage
  have h₀ := rooted_resting book.version book.uniqueIdentifierId
  obtain ⟨n₁, hrun₁⟩ := PackageParser.filed_adds.foldlM_section h₀ h₀ (by decide) (fun _ => rfl)
    (kept_of_arranged hbook hsettled harranged) (openInside_metadata h₀ hmetadata) hblock
  have h₁ := setLevel_resting (PackageParser.filed_adds.foldl_resting lines h₀) n₁
  obtain ⟨n₂, hrun₂⟩ := PackageParser.itemListed_adds.foldlM_section h₁ h₁ (by decide)
    (fun _ => rfl) (fun item hitem => hsettled.tokens item hitem)
    (openInside_manifest h₁ hmanifest) hitems
  have h₂ := setLevel_resting (PackageParser.itemListed_adds.foldl_resting book.manifest h₁) n₂
  have h₂' := setToc_resting h₂ (attributeValue spine "toc")
  obtain ⟨n₃, hrun₃⟩ := PackageParser.itemrefListed_adds.foldlM_section h₂ h₂' (by decide)
    (fun hnone => absurd hnone hbook.readable) (fun _ _ => trivial) (openInside_spine h₂ hspine)
    hitemrefs
  have h₃ := setLevel_resting (PackageParser.itemrefListed_adds.foldl_resting book.spine h₂') n₃
  rw [PackageParser.foldl_filed] at hrun₁ hrun₂ hrun₃ h₁ h₂ h₃
  rw [PackageParser.foldl_itemListed] at hrun₂ hrun₃ h₂ h₃
  rw [PackageParser.foldl_itemrefListed] at hrun₃ h₃
  have hinner := foldlM_then (foldlM_then (foldlM_then (foldlM_then (foldlM_then (foldlM_then
    (PackageParser.foldlM_gap hgap₀ h₀.idle) hrun₁) (PackageParser.foldlM_gap hgap₁ h₁.idle)) hrun₂)
    (PackageParser.foldlM_gap hgap₂ h₂.idle)) hrun₃) (PackageParser.foldlM_gap hgap₃ h₃.idle)
  refine (parsePackage_rooted hbefore hafter hstart hinner h₃ hbook.readable).trans ?_
  have hentries := attached_entries hbook harranged
  unfold PackageParser.finishMetadata derived
  rw [htoc]
  exact congrArg (fun entries => Except.ok { book with metadata := derive { entries } }) hentries

end Document

/-! ## The plain rendering

Each entry is followed by its refinements, so every package that can be published has a document. -/

/-- The refinements of some entries, each with the id it refines. -/
def refinementLines (entries : List MetaEntry) : List (Str × Refinement) :=
  entries.flatMap fun entry => entry.refinements.map (Prod.mk entry.id)

theorem heldFor_append (held held' : List (Str × Refinement)) (id : Str) :
    heldFor (held ++ held') id = heldFor held id ++ heldFor held' id := by
  rw [heldFor, List.filter_append, List.map_append]
  rfl

theorem heldFor_own (refinements : List Refinement) (id : Str) :
    heldFor (refinements.map (Prod.mk id)) id = refinements := by
  induction refinements with
  | nil => rfl
  | cons refinement rest ih =>
      rw [heldFor, List.map_cons, List.filter_cons_of_pos (by simp), List.map_cons]
      exact congrArg (refinement :: ·) ih

theorem heldFor_other {refinements : List Refinement} {id other : Str} (h : other ≠ id) :
    heldFor (refinements.map (Prod.mk other)) id = [] := by
  rw [heldFor, List.map_eq_nil_iff, List.filter_eq_nil_iff]
  intro refining hmem
  obtain ⟨refinement, -, rfl⟩ := List.mem_map.mp hmem
  simpa using h

/-- Where no entry has the id, nothing is held for it. -/
theorem heldFor_none {entries : List MetaEntry} {id : Str} (h : ∀ entry ∈ entries, entry.id ≠ id) :
    heldFor (refinementLines entries) id = [] := by
  induction entries with
  | nil => rfl
  | cons entry rest ih =>
      rw [refinementLines, List.flatMap_cons, heldFor_append,
        heldFor_other (h entry List.mem_cons_self), List.nil_append]
      exact ih fun other hother => h other (List.mem_cons_of_mem _ hother)

/-- An entry is held its own refinements, since no other has its id. -/
theorem heldFor_refinementLines {entries : List MetaEntry} {entry : MetaEntry}
    (hdistinct : entries.Pairwise fun a b => a.id ≠ [] → a.id ≠ b.id) (hentry : entry ∈ entries)
    (hid : entry.id ≠ []) : heldFor (refinementLines entries) entry.id = entry.refinements := by
  induction entries with
  | nil => cases hentry
  | cons first rest ih =>
      obtain ⟨hfirst, hrest⟩ := List.pairwise_cons.mp hdistinct
      rw [refinementLines, List.flatMap_cons, heldFor_append]
      rcases List.mem_cons.mp hentry with rfl | hmem
      · have hnone : heldFor (refinementLines rest) entry.id = [] :=
          heldFor_none fun other hother => (hfirst other hother hid).symm
        rw [heldFor_own]
        exact (congrArg (entry.refinements ++ ·) hnone).trans (List.append_nil _)
      · have hne : first.id ≠ entry.id := fun heq => hfirst entry hmem (heq ▸ hid) heq
        rw [heldFor_other hne, List.nil_append]
        exact ih hrest hmem

/-- The entries of a book, and then what refines them. -/
def plainLines (book : Package) : List Line :=
  book.metadata.entries.map .inl ++ (refinementLines book.metadata.entries).map .inr

/-- In the plain rendering, each entry's refinements follow it in order. -/
theorem plainLines_arranged {book : Package} (hbook : Publishable book) :
    Arranged book.metadata.entries (plainLines book) := by
  have hrights : rights (plainLines book) = refinementLines book.metadata.entries := by
    rw [plainLines, rights_append, rights_inl, List.nil_append]
    exact (List.filterMap_map ..).trans (List.filterMap_some ..)
  constructor
  · have hnone : lefts ((refinementLines book.metadata.entries).map
        (Sum.inr : Str × Refinement → Line)) = [] := by
      unfold lefts
      rw [List.filterMap_map]
      exact List.filterMap_eq_nil_iff.mpr fun _ _ => rfl
    rw [plainLines, lefts_append, lefts_inl, hnone, List.append_nil]
  · intro entry hentry hid
    rw [hrights]
    exact heldFor_refinementLines hbook.distinct hentry hid
  · intro refining hmem
    rw [hrights] at hmem
    obtain ⟨entry, hentry, hown⟩ := List.mem_flatMap.mp hmem
    obtain ⟨refinement, hrefinement, rfl⟩ := List.mem_map.mp hown
    exact ⟨entry, hentry, rfl, List.ne_nil_of_mem hrefinement⟩

def entryTag (entry : MetaEntry) : Tag :=
  if entry.element ∈ dublinCore then
    attributed ("dc:".toList ++ entry.element) [("id", entry.id), ("scheme", entry.scheme)]
  else
    attributed "meta"
      [("property", entry.element), ("id", entry.id), ("scheme", entry.scheme)]

def refiningTag (refining : Str × Refinement) : Tag :=
  attributed "meta" [("refines", '#' :: refining.1), ("property", refining.2.property),
    ("scheme", refining.2.scheme)]

def lineTag : Line → Tag
  | .inl entry => entryTag entry
  | .inr refining => refiningTag refining

theorem localName_dublinCore : ∀ element ∈ dublinCore,
    localName ("dc:".toList ++ element) = element := by decide

theorem lineTag_lines (line : Line) : LineTag line (lineTag line) := by
  cases line with
  | inl entry =>
      by_cases hcore : entry.element ∈ dublinCore
      · have htag : lineTag (.inl entry) = attributed ("dc:".toList ++ entry.element)
            [("id", entry.id), ("scheme", entry.scheme)] := if_pos hcore
        rw [htag]
        exact ⟨.inl ⟨hcore, localName_dublinCore _ hcore, rfl, rfl⟩, rfl, rfl⟩
      · have htag : lineTag (.inl entry) = attributed "meta"
            [("property", entry.element), ("id", entry.id), ("scheme", entry.scheme)] :=
          if_neg hcore
        rw [htag]
        exact ⟨.inr ⟨hcore, rfl, rfl, rfl, rfl⟩, rfl, rfl⟩
  | inr refining => exact ⟨⟨rfl, rfl⟩, rfl, rfl, rfl⟩

def plainLine (line : Line) : List XmlEvent := element (lineTag line) [.text line.value]

theorem padded_self (value : Str) : Padded value value :=
  ⟨[], [], (List.append_nil value).symm, fun _ hc => absurd hc List.not_mem_nil,
    fun _ hc => absurd hc List.not_mem_nil⟩

theorem plainLine_written (line : Line) : WritesLine line (plainLine line) := by
  have hinline : ∀ event ∈ [XmlEvent.text line.value], Inline event := fun event hevent => by
    rw [List.mem_singleton.mp hevent]
    trivial
  exact ⟨lineTag line, lineTag_lines line, .inr ⟨_, hinline, padded_self line.value, rfl⟩⟩

def plainItem (item : ManifestItem) : List XmlEvent :=
  [.empty (attributed "item" [("id", item.id), ("href", item.href), ("media-type", item.mediaType),
    ("properties", [' '].intercalate item.properties), ("media-overlay", item.mediaOverlay),
    ("fallback", item.fallback)])]

theorem plainItem_written (item : ManifestItem) : WritesItem item (plainItem item) :=
  ⟨_, ⟨rfl, rfl, rfl, rfl, rfl, rfl, rfl⟩, .inl rfl⟩

def linearValue (linear : Bool) : Str := if linear then "yes" else "no"

def plainItemref (item : SpineItem) : List XmlEvent :=
  [.empty (attributed "itemref" [("idref", item.idref), ("linear", linearValue item.linear)])]

theorem linearValue_no (linear : Bool) : linearValue linear = "no" ↔ linear = false := by
  cases linear <;> decide

theorem plainItemref_written (item : SpineItem) : WritesItemref item (plainItemref item) :=
  ⟨attributed "itemref" [("idref", item.idref), ("linear", linearValue item.linear)],
    ⟨rfl, rfl, linearValue_no item.linear⟩, .inl rfl⟩

theorem listed_flatMap {α : Type} {Write : α → List XmlEvent → Prop} {write : α → List XmlEvent}
    (h : ∀ a, Write a (write a)) : ∀ contents : List α,
      Listed Write contents (contents.flatMap write)
  | [] => .nil gap_nil
  | a :: rest => .cons gap_nil (h a) (listed_flatMap h rest)

/-- A package written without a free choice. -/
def plainPackage (book : Package) : List XmlEvent :=
  [] ++ element (attributed "package"
      [("version", book.version), ("unique-identifier", book.uniqueIdentifierId)])
    ([] ++ element (plainTag "metadata") ((plainLines book).flatMap plainLine) ++ [] ++
      element (plainTag "manifest") (book.manifest.flatMap plainItem) ++ [] ++
      element (attributed "spine" [("toc", book.tocIdref)]) (book.spine.flatMap plainItemref) ++
      []) ++ []

/-- Every book can be written down. -/
theorem plainPackage_written {book : Package} (hbook : Publishable book) :
    PackageDocument book (plainPackage book) where
  written := ⟨plainLines book, _, _, _, _, [], [], [], [], [], [], _, _, _, rfl, gap_nil, gap_nil,
    gap_nil, gap_nil, gap_nil, gap_nil, rfl, rfl, rfl, rfl, plainLines_arranged hbook,
    .inr ⟨_, listed_flatMap plainLine_written _, rfl⟩, rfl,
    .inr ⟨_, listed_flatMap plainItem_written _, rfl⟩, rfl, rfl,
    .inr ⟨_, listed_flatMap plainItemref_written _, rfl⟩⟩

/-! ## What is not read back

A package whose written form is read as another one. -/

/-- A book with one refined title and one chapter. -/
def titled (refinement : Refinement) (properties : List Str) : Package where
  version := "3.0"
  metadata :=
    { entries := [{ element := "title", value := "A Book", id := "t", scheme := []
                    refinements := [refinement] }] }
  manifest := [{ id := "c", href := "c.xhtml", mediaType := "application/xhtml+xml"
                 properties, mediaOverlay := [], fallback := [] }]
  spine := [{ idref := "c", linear := true }]

theorem titled_publishable (refinement : Refinement) (properties : List Str) :
    Publishable (titled refinement properties) where
  named := by simp [titled]
  trimmed := by
    simp only [titled, List.mem_singleton, forall_eq]
    decide
  distinct := List.pairwise_singleton _ _
  unmarked := by simp [titled]
  identified := by simp [titled]
  readable := List.cons_ne_nil _ _

theorem not_roundTrips {book : Package} (hbook : Publishable book)
    (h : parsePackage ⟨plainPackage book, .eof⟩ ≠ .ok (derived book)) : ¬ RoundTrips book :=
  fun hround => h (hround _ (plainPackage_written hbook))

/-- A refinement of no property is dropped, the value of one is trimmed, and a
property with a blank in it is split. -/
theorem not_every_package_written :
    (Publishable (titled ⟨[], "main", []⟩ []) ∧ ¬ RoundTrips (titled ⟨[], "main", []⟩ [])) ∧
    (Publishable (titled ⟨"title-type", " main", []⟩ []) ∧
      ¬ RoundTrips (titled ⟨"title-type", " main", []⟩ [])) ∧
    (Publishable (titled ⟨"title-type", "main", []⟩ ["cover image".toList]) ∧
      ¬ RoundTrips (titled ⟨"title-type", "main", []⟩ ["cover image".toList])) :=
  ⟨⟨titled_publishable _ _, not_roundTrips (titled_publishable _ _) (by decide)⟩,
    ⟨titled_publishable _ _, not_roundTrips (titled_publishable _ _) (by decide)⟩,
    ⟨titled_publishable _ _, not_roundTrips (titled_publishable _ _) (by decide)⟩⟩

theorem package_written_titled :
    parsePackage ⟨plainPackage (titled ⟨"title-type", "main", []⟩ ["nav".toList]), .eof⟩ =
      .ok (derived (titled ⟨"title-type", "main", []⟩ ["nav".toList])) := by
  refine package_written (titled_publishable _ _) ⟨?_, ?_, ?_⟩ _
    (plainPackage_written (titled_publishable _ _))
  · simp [titled]
  · simp only [titled, List.mem_singleton, forall_eq]
    decide
  · have hnav : "nav".toList.all (fun c => !Str.isWhitespace c) = true := by decide
    simp only [titled, List.mem_singleton, forall_eq]
    exact ⟨by decide, fun c hc => by simpa using List.all_eq_true.mp hnav c hc⟩

end Opf

end GrpcEpub
