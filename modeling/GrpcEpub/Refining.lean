/-
# `GrpcEpub.Refining` — where a refinement stands, and in which dialect

A metadata block is read element by element: what an element files does not depend on what
stands in front of it (`read_append`).  The entries and the refinements are two lists, so a
refining `meta` may stand anywhere among the others.

A role or a sort name is found in an entry's refinements by its property.  Whether it was
an attribute of the element or a `meta` elsewhere, it is the only one there.
-/
import GrpcEpub.CutOff
import GrpcEpub.Typed

namespace GrpcEpub

namespace Opf

open Xml Nav

/-! ## One element after another

A desk that has filed something is a desk that has not, with what was filed in front.  So a block
is read piece by piece, wherever a piece stands. -/

namespace Desk

/-- What is read behind another block. -/
def behind (front self : Desk) : Desk :=
  { self with filed := front.filed ++ self.filed, cover := coverOf front.cover self.cover }

/-- A tag is opened whatever has been filed in front of it. -/
theorem opened_behind (front self : Desk) (tag : Tag) (empty : Bool) :
    (front.behind self).opened tag empty = front.behind (self.opened tag empty) := by
  unfold opened
  split
  · dsimp only
    by_cases hcontent : attributeValue tag "content" = []
    · rw [if_neg fun hboth => hboth.1 hcontent, if_neg fun hboth => hboth.1 hcontent]
    by_cases hfront : front.cover = []
    · by_cases hcover : self.cover = []
      · have hnone : (front.behind self).cover = [] := by simp [behind, coverOf, hfront, hcover]
        rw [if_pos ⟨hcontent, hnone⟩, if_pos ⟨hcontent, hcover⟩]
        simp [behind, coverOf, hfront]
      · have hsome : (front.behind self).cover ≠ [] := by simp [behind, coverOf, hfront, hcover]
        rw [if_neg fun hboth => hsome hboth.2, if_neg fun hboth => hcover hboth.2]
    · have hsome : (front.behind self).cover ≠ [] := by simp [behind, coverOf, hfront]
      rw [if_neg fun hboth => hsome hboth.2]
      split
      · simp [behind, coverOf, hfront]
      · rfl
  · cases PackageParser.pendingOf tag tag.localName with
    | none => rfl
    | some pending =>
        dsimp only
        split
        · simp [behind]
        · rfl

theorem closed_behind (front self : Desk) (name : Str) :
    (front.behind self).closed name = front.behind (self.closed name) := by
  unfold closed
  have hcollecting : (front.behind self).collecting = self.collecting := rfl
  rw [hcollecting]
  cases self.collecting with
  | none => rfl
  | some pending =>
      dsimp only
      split
      · simp [behind]
      · rfl

theorem collect_behind (front self : Desk) (text : Str) :
    (front.behind self).collect text = front.behind (self.collect text) := by
  unfold collect
  have hcollecting : (front.behind self).collecting = self.collecting := rfl
  rw [hcollecting]
  split <;> rfl

theorem turn_behind (front self : Desk) (event : XmlEvent) :
    (front.behind self).turn event = front.behind (self.turn event) := by
  cases event with
  | start tag => exact opened_behind front self tag false
  | empty tag => exact opened_behind front self tag true
  | endTag name => exact closed_behind front self _
  | text content => exact collect_behind front self _
  | cData content => exact collect_behind front self _
  | generalRef reference => exact collect_behind front self _
  | docType | other => rfl

theorem foldl_behind (front self : Desk) (events : List XmlEvent) :
    events.foldl turn (front.behind self) = front.behind (events.foldl turn self) := by
  induction events generalizing self with
  | nil => rfl
  | cons event rest ih => rw [List.foldl_cons, turn_behind, ih, List.foldl_cons]

/-- A block is read in parts. -/
theorem read_append (body body' : Content) :
    read (body.append body') = (read body).behind (read body') := by
  have hidle : read body = (read body).behind {} := by
    unfold behind
    rw [coverOf_nil, List.append_nil]
    have hcollecting := read_idle body
    have hblank := read_blank body
    cases hread : read body with
    | mk collecting text filed cover =>
        rw [hread] at hcollecting hblank
        obtain rfl : collecting = none := hcollecting
        obtain rfl : text = [] := hblank
        rfl
  have hfold : read (body.append body') = (events body').foldl turn (read body) := by
    unfold read events
    rw [Nested.spell_append, List.foldl_append]
  rw [hfold]
  conv_lhs => rw [hidle]
  exact foldl_behind (read body) {} (events body')

end Desk

/-- One piece of a block after the other. -/
def blockOf (pieces : List Content) : Content := pieces.foldr Nested.append .nil

theorem read_blockOf_filed (pieces : List Content) :
    (Desk.read (blockOf pieces)).filed = pieces.flatMap fun piece => (Desk.read piece).filed := by
  induction pieces with
  | nil => rfl
  | cons piece pieces ih =>
      rw [blockOf, List.foldr_cons, Desk.read_append, List.flatMap_cons, ← ih]
      rfl

theorem read_blockOf_cover (pieces : List Content) : (Desk.read (blockOf pieces)).cover =
    pieces.foldr (fun piece => coverOf (Desk.read piece).cover) [] := by
  induction pieces with
  | nil => rfl
  | cons piece pieces ih =>
      rw [blockOf, List.foldr_cons, Desk.read_append, List.foldr_cons, ← ih]
      rfl

theorem events_blockOf (pieces : List Content) :
    events (blockOf pieces) = pieces.flatMap events := by
  induction pieces with
  | nil => rfl
  | cons piece pieces ih =>
      rw [List.flatMap_cons, ← ih]
      exact Nested.spell_append markup piece _

/-! ## An element with text in it

A Dublin Core element or a `meta` with nothing kept inside it: what it files is its tag and its
text. -/

/-- No metadata element stands in it, and nothing that stops the reader. -/
structure Plain (body : Content) : Prop where
  tags : ∀ tag ∈ tags body, tag.localName ≠ "meta" ∧ tag.localName ∉ dublinCore
  passes : ∀ event ∈ events body, passes event = true

namespace Desk

variable {self : Desk}

theorem opened_plain {tag : Tag} (h : tag.localName ≠ "meta" ∧ tag.localName ∉ dublinCore)
    (empty : Bool) : self.opened tag empty = self := by
  have hnone : PackageParser.pendingOf tag tag.localName = none :=
    (if_neg h.1).trans (if_neg h.2)
  unfold opened
  rw [if_neg (by rw [isCoverMeta_other h.1]; exact Bool.false_ne_true), hnone]

/-- What is collected over a body is its text. -/
theorem foldl_plain {pending : Pending} {body : Content}
    (hbody : ∀ tag ∈ tags body, tag.localName ≠ "meta" ∧ tag.localName ∉ dublinCore)
    (hname : pending.localName = "meta" ∨ pending.localName ∈ dublinCore)
    (h : self.collecting = some pending) :
    (events body).foldl turn self = { self with text := (events body).foldl gather self.text } := by
  have hcollect {self : Desk} (h : self.collecting = some pending) (text : Str) :
      self.collect text = { self with text } := by
    unfold collect
    rw [h]
    rfl
  induction body generalizing self with
  | nil => rfl
  | leaf a rest ih =>
      obtain ⟨event, hflat⟩ := a
      have hrest : ∀ tag ∈ Opf.tags rest, tag.localName ≠ "meta" ∧ tag.localName ∉ dublinCore :=
        fun tag htag => hbody tag (by
          rw [Opf.tags]
          split
          · exact List.mem_cons_of_mem _ htag
          · exact htag)
      -- text is gathered, and a tag opens nothing
      have hfirst : self.turn event = { self with text := gather self.text event } := by
        cases event with
        | start tag => cases hflat
        | endTag name => cases hflat
        | empty tag => exact opened_plain (hbody tag (.head _)) true
        | text content => exact hcollect h _
        | cData content => exact hcollect h _
        | generalRef reference => exact hcollect h _
        | docType | other => rfl
      change (events rest).foldl turn (self.turn event) = _
      rw [hfirst]
      exact ih hrest h
  | node tag inner rest ihinner ihrest =>
      have htag := hbody tag (.head _)
      -- the end of an inner element is not that of the one being collected
      have hclose {self : Desk} (h : self.collecting = some pending) :
          self.closed (localName tag.name) = self := by
        have hother : pending.localName ≠ tag.localName := fun heq => by
          rcases hname with hmeta | hcore
          · exact htag.1 (heq.symm.trans hmeta)
          · exact htag.2 (heq ▸ hcore)
        unfold closed
        rw [h]
        exact if_neg hother
      have hinner := @ihinner self
        (fun tag' hin => hbody tag' (.tail _ (List.mem_append_left _ hin))) h
      unfold events at hinner ihrest ⊢
      rw [Nested.foldl_spell_node, Nested.foldl_spell_node]
      change (Nested.spell markup rest).foldl turn (((Nested.spell markup inner).foldl turn
        (self.opened tag false)).closed (localName tag.name)) = _
      have hafter :=
        @hclose { self with text := (Nested.spell markup inner).foldl gather self.text } h
      rw [opened_plain htag, hinner, hafter]
      exact @ihrest { self with text := (Nested.spell markup inner).foldl gather self.text }
        (fun tag' hin => hbody tag' (.tail _ (List.mem_append_right _ hin))) h

/-- Where nothing is collected, nothing is. -/
theorem foldl_unread {body : Content}
    (hbody : ∀ tag ∈ tags body, tag.localName ≠ "meta" ∧ tag.localName ∉ dublinCore)
    (h : self.collecting = none) : (events body).foldl turn self = self := by
  have hcollect (text : Str) : self.collect text = self := by
    unfold collect
    rw [h]
    rfl
  have hclose (name : Str) : self.closed name = self := by
    unfold closed
    rw [h]
  induction body with
  | nil => rfl
  | leaf a rest ih =>
      obtain ⟨event, hflat⟩ := a
      have hrest : ∀ tag ∈ Opf.tags rest, tag.localName ≠ "meta" ∧ tag.localName ∉ dublinCore :=
        fun tag htag => hbody tag (by
          rw [Opf.tags]
          split
          · exact List.mem_cons_of_mem _ htag
          · exact htag)
      have hfirst : self.turn event = self := by
        cases event with
        | start tag => cases hflat
        | endTag name => cases hflat
        | empty tag => exact opened_plain (hbody tag (.head _)) true
        | text content => exact hcollect _
        | cData content => exact hcollect _
        | generalRef reference => exact hcollect _
        | docType | other => rfl
      change (events rest).foldl turn (self.turn event) = _
      rw [hfirst]
      exact ih hrest
  | node tag inner rest ihinner ihrest =>
      have hinner := ihinner fun tag' hin => hbody tag' (.tail _ (List.mem_append_left _ hin))
      unfold events at hinner ihrest ⊢
      rw [Nested.foldl_spell_node]
      change (Nested.spell markup rest).foldl turn (((Nested.spell markup inner).foldl turn
        (self.opened tag false)).closed (localName tag.name)) = _
      rw [opened_plain (hbody tag (.head _)), hinner, hclose]
      exact ihrest fun tag' hin => hbody tag' (.tail _ (List.mem_append_right _ hin))

/-- What an element opens, it files. -/
theorem read_node {tag : Tag} {body : Content} (hbody : Plain body)
    (hcover : PackageParser.isCoverMeta tag tag.localName = false) :
    read (.node tag body .nil) =
      { filed := (PackageParser.pendingOf tag tag.localName).toList.map
          fun pending => (pending, (textOf body).trim) } := by
  unfold read events
  rw [Nested.foldl_spell_node]
  change ((Nested.spell markup body).foldl turn (opened {} tag false)).closed _ = _
  cases hpending : PackageParser.pendingOf tag tag.localName with
  | none =>
      have hopened : opened {} tag false = {} := by
        unfold opened
        rw [hcover, hpending]
        rfl
      have hfold := @foldl_unread {} body hbody.tags rfl
      unfold events at hfold
      rw [hopened, hfold]
      rfl
  | some pending =>
      have hopened : opened {} tag false = { collecting := some pending } := by
        unfold opened
        rw [hcover, hpending]
        rfl
      have hkind : pending.localName = "meta" ∨ pending.localName ∈ dublinCore := by
        rw [pendingOf_name hpending]
        exact pendingOf_cases hpending
      have hfold := @foldl_plain { collecting := some pending } pending body hbody.tags hkind rfl
      unfold events at hfold
      rw [hopened, hfold]
      exact if_pos (pendingOf_name hpending)

theorem read_leaf {tag : Tag} (hcover : PackageParser.isCoverMeta tag tag.localName = false) :
    read (.leaf ⟨.empty tag, isFlat_empty tag⟩ .nil) =
      { filed := (PackageParser.pendingOf tag tag.localName).toList.map
          fun pending => (pending, []) } := by
  change opened {} tag true = _
  unfold opened
  rw [hcover, if_neg Bool.false_ne_true]
  cases PackageParser.pendingOf tag tag.localName <;> rfl

end Desk

/-- An element with this in it; in one tag when there is nothing. -/
def elementOf (tag : Tag) : Option Content → Content
  | none => .leaf ⟨.empty tag, isFlat_empty tag⟩ .nil
  | some inner => .node tag inner .nil

/-- The text of an element, trimmed. -/
def valueOf : Option Content → Str
  | none => []
  | some inner => (textOf inner).trim

/-- An element files what its tag opens, with its text. -/
theorem read_elementOf {tag : Tag} {body : Option Content} (hbody : ∀ inner ∈ body, Plain inner)
    (hcover : PackageParser.isCoverMeta tag tag.localName = false) :
    Desk.read (elementOf tag body) =
      { filed := (PackageParser.pendingOf tag tag.localName).toList.map
          fun pending => (pending, valueOf body) } := by
  cases body with
  | none => exact Desk.read_leaf hcover
  | some inner => exact Desk.read_node (hbody inner rfl) hcover

/-- No event of a plain element stops the parser. -/
theorem passes_elementOf {tag : Tag} {body : Option Content} (hbody : ∀ inner ∈ body, Plain inner) :
    ∀ event ∈ events (elementOf tag body), passes event = true := by
  intro event hevent
  cases body with
  | none =>
      obtain rfl := List.mem_singleton.mp hevent
      rfl
  | some inner =>
      have hin : event ∈ XmlEvent.start tag :: (events inner ++ [.endTag tag.name]) := hevent
      rcases List.mem_cons.mp hin with rfl | hin
      · rfl
      rcases List.mem_append.mp hin with hin | hin
      · exact (hbody inner rfl).passes event hin
      · obtain rfl := List.mem_singleton.mp hin
        rfl

/-! ## A document around its metadata

Everything around the block is given, and the block is varied.  Only the sections of the
surroundings are kept, so that a block between the others is read in its place. -/

/-- Everything in a document but what its metadata element holds. -/
structure Surroundings where
  lead : Content
  root : Tag
  front : Content
  metadata : Tag
  back : Content
  behind : Content

namespace Surroundings

def document (around : Surroundings) (block : Content) : Content :=
  around.lead.append (.node around.root
    (around.front.append (.node around.metadata block around.back)) around.behind)

/-- The element is directly inside the package, and is a metadata element. -/
structure Proper (around : Surroundings) : Prop where
  untagged : (events around.lead).findSome? tagOf = none
  named : around.metadata.localName = "metadata"

/-- The sections in front of the block. -/
def before (around : Surroundings) : List Part := outermost around.front

/-- The sections behind it. -/
def after (around : Surroundings) : List Part :=
  outermost around.back ++ outermost around.behind

variable {around : Surroundings}

theorem outermost_append (front behind : Content) :
    outermost (front.append behind) = outermost front ++ outermost behind := by
  induction front with
  | nil => rfl
  | leaf a rest ih => exact ih
  | node tag body rest _ ih =>
      rw [Nested.append, outermost, outermost, ih]
      split
      · exact (List.append_assoc ..).symm
      · rfl

/-- What stands in front of the root has no sections in it. -/
theorem documentParts_lead {lead : Content} (h : (events lead).findSome? tagOf = none)
    (doc : Content) : documentParts (lead.append doc) = documentParts doc := by
  induction lead with
  | nil => rfl
  | leaf a rest ih =>
      obtain ⟨hfirst, hrest⟩ := List.forall_mem_cons.mp (List.findSome?_eq_none_iff.mp h)
      rw [Nested.append, documentParts]
      split
      · rename_i tag htag
        have hsome : tagOf a.event = some tag := by rw [htag]; rfl
        exact absurd (hsome.symm.trans hfirst) (Option.some_ne_none tag)
      · exact ih (List.findSome?_eq_none_iff.mpr hrest)
  | node tag body rest _ _ =>
      have hfirst := List.findSome?_eq_none_iff.mp h (.start tag) List.mem_cons_self
      exact absurd hfirst (Option.some_ne_none tag)

/-- The block is one section among the others. -/
theorem parts_document (h : around.Proper) (block : Content) :
    merged (documentParts (around.document block)) =
      around.before ++ ⟨around.metadata, block⟩ :: around.after := by
  have hkind : sectionOf around.metadata.localName ≠ .outside := by
    rw [h.named]
    decide
  unfold document before after
  rw [documentParts_lead h.untagged, documentParts, merged_append, merged_placed, merged_stray,
    outermost_append, outermost, if_neg hkind, List.append_assoc, List.cons_append]

/-- Blocks that let the reader through are in accepted documents alike. -/
theorem accepted_document (h : around.Proper) {block block' : Content}
    (hpasses : (∀ event ∈ events block, passes event = true) ↔
      ∀ event ∈ events block', passes event = true) :
    (∃ package, parsePackage { events := events (around.document block), stop := .eof } =
        .ok package) ↔
      ∃ package, parsePackage { events := events (around.document block'), stop := .eof } =
        .ok package := by
  have hevents (block : Content) : events (around.document block) =
      events around.lead ++ (.start around.root :: (events around.front ++
        (.start around.metadata :: (events block ++ .endTag around.metadata.name ::
          events around.back)) ++ .endTag around.root.name :: events around.behind)) := by
    unfold document events
    rw [Nested.spell_append, Nested.spell, Nested.spell_append, Nested.spell]
    rfl
  -- what it takes for the document to be accepted, apart from the block's own events
  have hread (block : Content) : Readable (.done (around.document block)) ↔
      (∀ event ∈ events around.lead ++ events around.front ++ events around.back ++
        events around.behind, passes event = true) ∧ (∀ event ∈ events block, passes event = true) ∧
        around.root.localName = "package" ∧
        around.before.flatMap Part.itemrefs ++ around.after.flatMap Part.itemrefs ≠ [] := by
    have hitemrefs : Part.itemrefs ⟨around.metadata, block⟩ = [] := by
      unfold Part.itemrefs Part.kind
      dsimp only
      rw [h.named]
      rfl
    have hroot : (events (around.document block)).findSome? tagOf = some around.root := by
      rw [hevents, List.findSome?_append, h.untagged]
      rfl
    have hspine : itemrefsRead (.done (around.document block)) =
        around.before.flatMap Part.itemrefs ++ around.after.flatMap Part.itemrefs := by
      rw [itemrefsRead, parts_document h, List.flatMap_append, List.flatMap_cons, hitemrefs,
        List.nil_append]
    constructor
    · rintro ⟨hpass, ⟨root, htag, hname⟩, hnil⟩
      have hall : ∀ event ∈ events (around.document block), passes event = true := hpass
      rw [hevents] at hall
      refine ⟨fun event hevent => ?_, fun event hevent => hall event ?_, ?_, hspine ▸ hnil⟩
      · refine hall event ?_
        simp only [List.mem_append, List.mem_cons] at hevent ⊢
        tauto
      · simp only [List.mem_append, List.mem_cons]
        tauto
      · exact Option.some.inj (htag.symm.trans hroot) ▸ hname
    · rintro ⟨houter, hblock, hname, hnil⟩
      refine ⟨fun event hevent => ?_, ⟨around.root, hroot, hname⟩, hspine ▸ hnil⟩
      have hin : event ∈ events (around.document block) := hevent
      rw [hevents] at hin
      simp only [List.mem_append, List.mem_cons] at hin houter
      rcases hin with hin | rfl | (hin | rfl | hin | rfl | hin) | rfl | hin
      · exact houter event (.inl (.inl (.inl hin)))
      · rfl
      · exact houter event (.inl (.inl (.inr hin)))
      · rfl
      · exact hblock event hin
      · rfl
      · exact houter event (.inl (.inr hin))
      · rfl
      · exact houter event (.inr hin)
  refine (accepted_iff (.done (around.document block))).trans ?_
  refine Iff.trans ?_ (accepted_iff (.done (around.document block'))).symm
  rw [hread, hread, hpasses]

end Surroundings

/-- The metadata that is read of these sections. -/
def metadataOf (parts : List Part) : Metadata :=
  derive { coverId := coverIdOf parts, entries := attachAll (parts.flatMap Part.filed) }

theorem metadata_document {doc : Content} {package : Package}
    (h : parsePackage { events := events doc, stop := .eof } = .ok package) :
    package.metadata = metadataOf (merged (documentParts doc)) := by
  obtain ⟨hread, hderived, hcover⟩ := parsePackage_document h
  rw [← hderived, metadataOf, ← hcover, ← hread.entries]
  rfl

/-! ## Moving the refining elements

A `meta` with `refines` files a refinement and no entry, whatever it stands next to.  Hence two
blocks that are equal up to where these stand have the same entries, and the same refinements
in the same order if the elements are. -/

/-- The id that a `meta` refines. -/
def targetOf (tag : Tag) : Str := (attributeValue tag "refines").dropWhile (· = '#')

/-- A `meta` that refines something, with what it holds; nothing when its tags are in one. -/
structure RefiningMeta where
  tag : Tag
  body : Option Content
  named : tag.localName = "meta"
  refining : targetOf tag ≠ []
  uncovering : PackageParser.isCoverMeta tag "meta" = false
  plain : ∀ inner ∈ body, Plain inner

namespace RefiningMeta

def content (self : RefiningMeta) : Content := elementOf self.tag self.body

def property (self : RefiningMeta) : Str := attributeValue self.tag "property"

/-- What it refines, and what it gives it. -/
def stated (self : RefiningMeta) : Str × Str × Str :=
  (targetOf self.tag, self.property, valueOf self.body)

/-- What it opens, when it has a property. -/
def pending (self : RefiningMeta) : Pending where
  localName := self.tag.localName
  entry :=
    { element := self.property, value := [], id := attributeValue self.tag "id"
      scheme := attributeValue self.tag "scheme", refinements := [] }
  refines := targetOf self.tag

theorem pendingOf_tag (self : RefiningMeta) :
    PackageParser.pendingOf self.tag self.tag.localName =
      if self.property = [] then none else some self.pending := by
  unfold PackageParser.pendingOf
  rw [if_pos self.named]
  rfl

/-- It files its refinement and nothing else. -/
theorem read_content (self : RefiningMeta) : Desk.read self.content =
    { filed := if self.property = [] then [] else [(self.pending, valueOf self.body)] } := by
  have hcover : PackageParser.isCoverMeta self.tag self.tag.localName = false := by
    rw [self.named]
    exact self.uncovering
  rw [content, read_elementOf self.plain hcover, self.pendingOf_tag]
  split <;> rfl

theorem read_entries (self : RefiningMeta) :
    (Desk.read self.content).filed.filterMap entryOf = [] := by
  rw [self.read_content]
  dsimp only
  split
  · rfl
  · have hrefines : self.pending.refines ≠ [] := self.refining
    simp [entryOf, hrefines]

/-- What is held of it: its property and its value, for what it refines. -/
def held (self : RefiningMeta) : Str × Refinement :=
  (targetOf self.tag,
    { property := self.property, value := valueOf self.body
      scheme := attributeValue self.tag "scheme" })

theorem read_held (self : RefiningMeta) (h : self.property ≠ []) :
    (Desk.read self.content).filed.filterMap heldOf = [self.held] := by
  have hrefines : self.pending.refines ≠ [] := self.refining
  rw [self.read_content, if_neg h, List.filterMap_cons, heldOf, if_neg hrefines]
  rfl

end RefiningMeta

/-- No refining element stands in it. -/
def Unrefining (piece : Content) : Prop :=
  ∀ tag ∈ tags piece, tag.localName = "meta" → targetOf tag = []

/-- A piece without refining elements files no refinement. -/
theorem read_unrefining {piece : Content} (h : Unrefining piece) :
    (Desk.read piece).filed.filterMap heldOf = [] := by
  refine List.filterMap_eq_nil_iff.mpr fun f hf => ?_
  obtain ⟨tag, htag, hpending⟩ := Desk.opened_of_read h hf
  have hrefines : f.1.refines = [] := by
    unfold PackageParser.pendingOf at hpending
    dsimp only at hpending
    split at hpending
    · rename_i hmeta
      split at hpending
      · cases hpending
      · have hsame := congrArg Pending.refines (Option.some.inj hpending)
        exact hsame.symm.trans (htag hmeta)
    · split at hpending
      · exact (congrArg Pending.refines (Option.some.inj hpending)).symm
      · cases hpending
  exact if_pos hrefines

/-- A block with refining elements in these places. -/
def refinedBlock (pieces : List (Content ⊕ RefiningMeta)) : Content :=
  blockOf (pieces.map (Sum.elim id RefiningMeta.content))

section RefinedBlock

variable (pieces : List (Content ⊕ RefiningMeta))

/-- The entries are those of the other pieces. -/
theorem entries_refinedBlock : (Desk.read (refinedBlock pieces)).filed.filterMap entryOf =
    (lefts pieces).flatMap fun piece => (Desk.read piece).filed.filterMap entryOf := by
  rw [refinedBlock, read_blockOf_filed, List.filterMap_flatMap, List.flatMap_map]
  exact flatMap_lefts fun refining _ => refining.read_entries

/-- So is the cover. -/
theorem cover_refinedBlock : (Desk.read (refinedBlock pieces)).cover =
    (lefts pieces).foldr (fun piece => coverOf (Desk.read piece).cover) [] := by
  rw [refinedBlock, read_blockOf_cover, List.foldr_map]
  refine foldr_lefts (fun refining _ cover => ?_) []
  change coverOf (Desk.read refining.content).cover cover = cover
  rw [refining.read_content]
  rfl

/-- The refinements are those of the refining elements, where these are all. -/
theorem held_refinedBlock (h : ∀ piece ∈ lefts pieces, Unrefining piece) :
    (Desk.read (refinedBlock pieces)).filed.filterMap heldOf =
      (rights pieces).flatMap fun refining =>
        (Desk.read refining.content).filed.filterMap heldOf := by
  rw [refinedBlock, read_blockOf_filed, List.filterMap_flatMap, List.flatMap_map]
  exact flatMap_rights fun piece hpiece => read_unrefining (h piece hpiece)

/-- The refining elements stop no reader. -/
theorem passes_refinedBlock : (∀ event ∈ events (refinedBlock pieces), passes event = true) ↔
    ∀ piece ∈ lefts pieces, ∀ event ∈ events piece, passes event = true := by
  have hevents : events (refinedBlock pieces) =
      pieces.flatMap fun piece => events (Sum.elim id RefiningMeta.content piece) := by
    rw [refinedBlock, events_blockOf, List.flatMap_map]
  rw [hevents]
  constructor
  · intro h piece hpiece event hevent
    have hmem : Sum.inl piece ∈ pieces := by
      obtain ⟨x, hx, hleft⟩ := List.mem_filterMap.mp hpiece
      cases x with
      | inl piece' => exact Option.some.inj hleft ▸ hx
      | inr refining => cases hleft
    exact h event (List.mem_flatMap.mpr ⟨.inl piece, hmem, hevent⟩)
  · intro h event hevent
    obtain ⟨x, hx, hevent⟩ := List.mem_flatMap.mp hevent
    cases x with
    | inl piece => exact h piece (List.mem_filterMap.mpr ⟨.inl piece, hx, rfl⟩) event hevent
    | inr refining => exact passes_elementOf refining.plain event hevent

end RefinedBlock

/-! ## What a document says in its metadata

From the two lists of a block to what `attach` makes of them. -/

/-- The metadata that is read of a document, when it is accepted. -/
def metadataRead (doc : Content) : Option Metadata :=
  (parsePackage { events := events doc, stop := .eof }).toOption.map (·.metadata)

/-- Documents that are accepted alike say the same when their sections do. -/
theorem metadataRead_alike {β : Type} {read : Metadata → β} {doc doc' : Content}
    (haccepted : (∃ package, parsePackage { events := events doc, stop := .eof } = .ok package) ↔
      ∃ package, parsePackage { events := events doc', stop := .eof } = .ok package)
    (hread : read (metadataOf (merged (documentParts doc))) =
      read (metadataOf (merged (documentParts doc')))) :
    (metadataRead doc).map read = (metadataRead doc').map read := by
  unfold metadataRead
  cases hparse : parsePackage { events := events doc, stop := .eof } with
  | ok package =>
      obtain ⟨package', hparse'⟩ := haccepted.mp ⟨package, hparse⟩
      rw [hparse']
      refine congrArg some ?_
      change read package.metadata = read package'.metadata
      rw [metadata_document hparse, metadata_document hparse', hread]
  | error e =>
      cases hparse' : parsePackage { events := events doc', stop := .eof } with
      | ok package' =>
          obtain ⟨package, hok⟩ := haccepted.mpr ⟨package', hparse'⟩
          rw [hparse] at hok
          cases hok
      | error e' => rfl

namespace Surroundings

variable {around : Surroundings}

theorem filed_metadata (h : around.Proper) (block : Content) :
    Part.filed ⟨around.metadata, block⟩ = (Desk.read block).filed := by
  unfold Part.filed Part.kind
  dsimp only
  rw [h.named]
  rfl

theorem cover_metadata (h : around.Proper) (block : Content) :
    Part.cover ⟨around.metadata, block⟩ = (Desk.read block).cover := by
  unfold Part.cover Part.kind
  dsimp only
  rw [h.named]
  rfl

theorem filedOf_document (h : around.Proper) (block : Content) :
    filedOf (around.document block) = around.before.flatMap Part.filed ++
      (Desk.read block).filed ++ around.after.flatMap Part.filed := by
  rw [filedOf, parts_document h, List.flatMap_append, List.flatMap_cons, filed_metadata h,
    List.append_assoc]

theorem coverIdOf_document (h : around.Proper) {block block' : Content}
    (hcover : (Desk.read block).cover = (Desk.read block').cover) :
    coverIdOf (merged (documentParts (around.document block))) =
      coverIdOf (merged (documentParts (around.document block'))) := by
  rw [parts_document h, parts_document h, coverIdOf, coverIdOf, List.foldl_append,
    List.foldl_append, List.foldl_cons, List.foldl_cons, cover_metadata h, cover_metadata h, hcover]

/-- What the metadata is read from: the entries, the refinements and the cover. -/
theorem metadataOf_document (h : around.Proper) {block block' : Content}
    (hentries : (Desk.read block).filed.filterMap entryOf =
      (Desk.read block').filed.filterMap entryOf)
    (hheld : (Desk.read block).filed.filterMap heldOf = (Desk.read block').filed.filterMap heldOf)
    (hcover : (Desk.read block).cover = (Desk.read block').cover) :
    metadataOf (merged (documentParts (around.document block))) =
      metadataOf (merged (documentParts (around.document block'))) := by
  have hattach : attachAll (filedOf (around.document block)) =
      attachAll (filedOf (around.document block')) := by
    rw [filedOf_document h, filedOf_document h]
    unfold attachAll
    simp only [List.filterMap_append, hentries, hheld]
  unfold filedOf at hattach
  rw [metadataOf, metadataOf, coverIdOf_document h hcover, hattach]

/-- The refining elements may stand anywhere among the others. -/
theorem metadataRead_moved (h : around.Proper) {pieces pieces' : List (Content ⊕ RefiningMeta)}
    (hothers : ∀ piece ∈ lefts pieces, Unrefining piece) (hlefts : lefts pieces = lefts pieces')
    (hrights : rights pieces = rights pieces') :
    metadataRead (around.document (refinedBlock pieces)) =
      metadataRead (around.document (refinedBlock pieces')) := by
  have haccepted := accepted_document h ((passes_refinedBlock pieces).trans
    (hlefts ▸ (passes_refinedBlock pieces').symm))
  have hheld : (Desk.read (refinedBlock pieces)).filed.filterMap heldOf =
      (Desk.read (refinedBlock pieces')).filed.filterMap heldOf := by
    rw [held_refinedBlock pieces hothers, held_refinedBlock pieces' (hlefts ▸ hothers), hrights]
  have hentries : (Desk.read (refinedBlock pieces)).filed.filterMap entryOf =
      (Desk.read (refinedBlock pieces')).filed.filterMap entryOf := by
    rw [entries_refinedBlock, entries_refinedBlock, hlefts]
  have hcover : (Desk.read (refinedBlock pieces)).cover =
      (Desk.read (refinedBlock pieces')).cover := by
    rw [cover_refinedBlock, cover_refinedBlock, hlefts]
  have hsame := @metadataRead_alike Metadata id _ _ haccepted
    (metadataOf_document h hentries hheld hcover)
  rw [Option.map_id_fun] at hsame
  exact hsame

end Surroundings

/-! ## Roles as attributes and as refinements

A `Credit` can be written in the two dialects: with `opf:role` and `opf:file-as` on the element,
or with one `meta` for each. -/

/-- A creator or contributor with an id, written in both dialects. -/
structure Credit where
  epub2 : Tag
  epub3 : Tag
  body : Option Content
  same : epub2.localName = epub3.localName
  credited : epub3.localName = "creator" ∨ epub3.localName = "contributor"
  identified : attributeValue epub3 "id" ≠ []
  sameId : attributeValue epub2 "id" = attributeValue epub3 "id"
  bare : epub2Refinements epub3 = []
  plain : ∀ inner ∈ body, Plain inner

namespace Credit

def id (self : Credit) : Str := attributeValue self.epub3 "id"

/-- The refinements that stand for its attributes. -/
def stated (self : Credit) : List (Str × Str × Str) :=
  (epub2Refinements self.epub2).map fun refinement =>
    (self.id, refinement.property, refinement.value)

/-- The entry for it, with what its own tag says of it. -/
def entry (self : Credit) (tag : Tag) : MetaEntry where
  element := self.epub3.localName
  value := valueOf self.body
  id := self.id
  scheme := attributeValue tag "scheme"
  refinements := epub2Refinements tag

/-- What it files in either dialect. -/
theorem read_elementOf (self : Credit) {tag : Tag} (hname : tag.localName = self.epub3.localName)
    (hid : attributeValue tag "id" = self.id) :
    (Desk.read (elementOf tag self.body)).filed.filterMap entryOf = [self.entry tag] ∧
      (Desk.read (elementOf tag self.body)).filed.filterMap heldOf = [] ∧
      (Desk.read (elementOf tag self.body)).cover = [] := by
  have hmeta : tag.localName ≠ "meta" := by
    rw [hname]
    rcases self.credited with h | h <;> rw [h] <;> decide
  have hcore : tag.localName ∈ dublinCore := by
    rw [hname]
    rcases self.credited with h | h <;> rw [h] <;> decide
  have hpending : PackageParser.pendingOf tag tag.localName = some
      { localName := tag.localName
        entry :=
          { element := tag.localName, value := [], id := attributeValue tag "id"
            scheme := attributeValue tag "scheme", refinements := epub2Refinements tag }
        refines := [] } := (if_neg hmeta).trans (if_pos hcore)
  rw [Opf.read_elementOf self.plain (isCoverMeta_other hmeta), hpending, entry, ← hname, ← hid]
  exact ⟨rfl, rfl, rfl⟩

end Credit

/-- A piece in the older dialect. -/
def attributedPiece : Content ⊕ Credit → Content :=
  Sum.elim id fun credit => elementOf credit.epub2 credit.body

/-- A piece in the newer one, without its refining elements. -/
def barePiece : Content ⊕ Credit → Content :=
  Sum.elim id fun credit => elementOf credit.epub3 credit.body

/-- A block in the older dialect. -/
def attributedBlock (pieces : List (Content ⊕ Credit)) : Content :=
  blockOf (pieces.map attributedPiece)

/-- A block in the newer one, with the refining elements in these places. -/
def creditedBlock (pieces : List ((Content ⊕ Credit) ⊕ RefiningMeta)) : Content :=
  refinedBlock (pieces.map (Sum.map barePiece id))

/-- The names that are credited, and the titles. -/
def creditsOf (metadata : Metadata) : List Title × Str × List Contributor × List Contributor :=
  (metadata.titles, metadata.title, metadata.creators, metadata.contributors)

/-! ## Entries that are credited alike

What the extraction asks of an entry goes through `refined`, which looks for a property.  Entries
that answer alike are credited alike, in whatever order they hold their refinements. -/

/-- A property has this value when every refinement that has it has, and there is one. -/
theorem refined_eq {entry : MetaEntry} {property value : Str}
    (hall : ∀ refinement ∈ entry.refinements, refinement.property = property →
      refinement.value = value)
    (hsome : value ≠ [] → ∃ refinement ∈ entry.refinements, refinement.property = property) :
    entry.refined property = value := by
  unfold MetaEntry.refined
  cases hfind : entry.refinements.find? (·.property == property) with
  | some refinement =>
      have hproperty := List.find?_some hfind
      exact hall refinement (List.mem_of_find?_eq_some hfind) (beq_iff_eq.mp hproperty)
  | none =>
      by_contra hne
      obtain ⟨refinement, hmem, hproperty⟩ := hsome fun hnil => hne hnil.symm
      exact List.find?_eq_none.mp hfind refinement hmem (beq_iff_eq.mpr hproperty)

/-- Entries with the same name and value, and the same type, role and sort name. -/
structure Alike (entry entry' : MetaEntry) : Prop where
  element : entry.element = entry'.element
  value : entry.value = entry'.value
  titled : entry.element = "title" → entry.refined "title-type" = entry'.refined "title-type"
  role : entry.refined "role" = entry'.refined "role"
  fileAs : entry.refined "file-as" = entry'.refined "file-as"

theorem credited_alike {entries entries' : List MetaEntry} (h : List.Forall₂ Alike entries entries')
    (element : Str) : credited entries element = credited entries' element := by
  unfold credited
  induction h with
  | nil => rfl
  | cons hfirst _ ih =>
      rw [List.filter_cons, List.filter_cons, hfirst.element]
      split
      · rw [List.map_cons, List.map_cons, ih, hfirst.value, hfirst.role, hfirst.fileAs]
      · exact ih

theorem titlesOf_alike {entries entries' : List MetaEntry} (h : List.Forall₂ Alike entries entries') :
    titlesOf entries = titlesOf entries' := by
  unfold titlesOf
  induction h with
  | nil => rfl
  | cons hfirst _ ih =>
      rw [List.filter_cons, List.filter_cons, ← hfirst.element]
      split
      · rename_i htitle
        rw [List.map_cons, List.map_cons, ih, hfirst.value, hfirst.titled (beq_iff_eq.mp htitle)]
      · exact ih

/-- A role or a sort name on the element itself is its attribute. -/
theorem mem_epub2Refinements {tag : Tag} {refinement : Refinement} :
    refinement ∈ epub2Refinements tag ↔
      refinement.property ∈ (["role", "file-as"] : List Str) ∧ refinement.scheme = [] ∧
        refinement.value = attributeValue tag refinement.property ∧ refinement.value ≠ [] := by
  unfold epub2Refinements
  rw [List.mem_filterMap]
  constructor
  · rintro ⟨name, hname, hsome⟩
    dsimp only at hsome
    split at hsome
    · cases hsome
    · rename_i hvalue
      obtain rfl := Option.some.inj hsome
      exact ⟨hname, rfl, rfl, hvalue⟩
  · rintro ⟨hname, hscheme, hvalue, hne⟩
    refine ⟨refinement.property, hname, ?_⟩
    dsimp only
    rw [if_neg (hvalue ▸ hne), ← hvalue, ← hscheme]

/-! ## The entries of both dialects

Entry by entry: the refinements that a credit has as attributes in the one block are held for its
id in the other, and those of the other entries are the same in both. -/

/-- The same entry, which no credit is for; or the entries for a credit in both dialects. -/
def Draft (credits : List Credit) (entry entry' : MetaEntry) : Prop :=
  (entry = entry' ∧ ∀ credit ∈ credits, entry.id ≠ credit.id) ∨
    ∃ credit ∈ credits, entry = credit.entry credit.epub2 ∧ entry' = credit.entry credit.epub3

/-- The refinements of both dialects: those of the other entries are the same, a credit's are
its attributes in one and `meta` elements in the other. -/
structure Transposed (credits : List Credit) (held held' : List (Str × Refinement)) : Prop where
  others : ∀ target, (∀ credit ∈ credits, target ≠ credit.id) →
    heldFor held' target = heldFor held target
  unsaid : ∀ refining ∈ held, refining.2.property ∈ (["role", "file-as"] : List Str) →
    ∀ credit ∈ credits, refining.1 ≠ credit.id
  moved : ∀ credit ∈ credits, ∀ property ∈ (["role", "file-as"] : List Str), ∀ value,
    (∃ refining ∈ held', refining.1 = credit.id ∧ refining.2.property = property ∧
      refining.2.value = value) ↔ value = attributeValue credit.epub2 property ∧ value ≠ []

theorem mem_heldFor {held : List (Str × Refinement)} {target : Str} {refinement : Refinement} :
    refinement ∈ heldFor held target ↔ (target, refinement) ∈ held := by
  simp [heldFor]

namespace Transposed

variable {credits : List Credit} {held held' : List (Str × Refinement)}

/-- A credit has the same role and sort name in both dialects. -/
theorem refined_credit (h : Transposed credits held held') {credit : Credit}
    (hcredit : credit ∈ credits) {property : Str}
    (hproperty : property ∈ (["role", "file-as"] : List Str)) :
    (MetaEntry.with (credit.entry credit.epub2) (heldFor held credit.id)).refined property =
      (MetaEntry.with (credit.entry credit.epub3) (heldFor held' credit.id)).refined property := by
  have hnone : ∀ refinement ∈ heldFor held credit.id, refinement.property ≠ property :=
    fun refinement hmem heq =>
      h.unsaid _ (mem_heldFor.mp hmem) (heq ▸ hproperty) credit hcredit rfl
  have hbare : (credit.entry credit.epub3).refinements = [] := credit.bare
  have hmoved := h.moved credit hcredit property hproperty
  trans attributeValue credit.epub2 property
  · refine refined_eq (fun refinement hmem heq => ?_) fun hne => ?_
    · rcases List.mem_append.mp hmem with hown | hheld
      · exact heq ▸ (mem_epub2Refinements.mp hown).2.2.1
      · exact absurd heq (hnone refinement hheld)
    · exact ⟨⟨property, attributeValue credit.epub2 property, []⟩,
        List.mem_append_left _ (mem_epub2Refinements.mpr ⟨hproperty, rfl, rfl, hne⟩), rfl⟩
  · refine (refined_eq (fun refinement hmem heq => ?_) fun hne => ?_).symm
    · rcases List.mem_append.mp hmem with hown | hheld
      · rw [hbare] at hown
        cases hown
      · exact ((hmoved _).mp ⟨_, mem_heldFor.mp hheld, rfl, heq, rfl⟩).1
    · obtain ⟨⟨target, refinement⟩, hmem, rfl, heq, -⟩ := (hmoved _).mpr ⟨rfl, hne⟩
      exact ⟨refinement, List.mem_append_right _ (mem_heldFor.mpr hmem), heq⟩

theorem alike (h : Transposed credits held held') {entry entry' : MetaEntry}
    (hdraft : Draft credits entry entry') :
    Alike (MetaEntry.with entry (heldFor held entry.id))
      (MetaEntry.with entry' (heldFor held' entry'.id)) := by
  rcases hdraft with ⟨rfl, hother⟩ | ⟨credit, hcredit, rfl, rfl⟩
  · rw [h.others entry.id hother]
    exact ⟨rfl, rfl, fun _ => rfl, rfl, rfl⟩
  · refine ⟨rfl, rfl, fun htitle => ?_, h.refined_credit hcredit (.head _),
      h.refined_credit hcredit (.tail _ (.head _))⟩
    have hname : credit.epub3.localName = "title" := htitle
    rcases credit.credited with hcreator | hcontributor
    · exact absurd (hcreator.symm.trans hname) (by decide)
    · exact absurd (hcontributor.symm.trans hname) (by decide)

/-- Attached, the entries are credited alike. -/
theorem forall₂_attached (h : Transposed credits held held')
    (htargets : ∀ refining ∈ held, refining.1 ≠ []) (htargets' : ∀ refining ∈ held', refining.1 ≠ [])
    {entries entries' : List MetaEntry} (hdrafts : List.Forall₂ (Draft credits) entries entries')
    (hdistinct : entries.Pairwise fun a b => a.id ≠ [] → a.id ≠ b.id)
    (hdistinct' : entries'.Pairwise fun a b => a.id ≠ [] → a.id ≠ b.id) :
    List.Forall₂ Alike
      (held.foldl (fun entries refining => attachRefinement entries refining.1 refining.2) entries)
      (held'.foldl (fun entries refining => attachRefinement entries refining.1 refining.2)
        entries') := by
  rw [foldl_attach htargets hdistinct, foldl_attach htargets' hdistinct',
    List.forall₂_map_left_iff, List.forall₂_map_right_iff]
  exact hdrafts.imp fun _ _ hdraft => h.alike hdraft

end Transposed

section Dialect

variable {pieces : List (Content ⊕ Credit)} {refined : List ((Content ⊕ Credit) ⊕ RefiningMeta)}

/-- Pieces that are no credit's. -/
def uncredited (credits : List Credit) (piece : Content) : Prop :=
  ∀ entry ∈ (Desk.read piece).filed.filterMap entryOf, ∀ credit ∈ credits, entry.id ≠ credit.id

/-- Piece by piece, the two blocks have the same entries. -/
theorem drafts_pieces {credits : List Credit} (hothers : ∀ piece ∈ lefts pieces, uncredited credits piece)
    (hcredits : ∀ credit ∈ rights pieces, credit ∈ credits) :
    List.Forall₂ (Draft credits)
      (pieces.flatMap fun piece => (Desk.read (attributedPiece piece)).filed.filterMap entryOf)
      (pieces.flatMap fun piece => (Desk.read (barePiece piece)).filed.filterMap entryOf) := by
  induction pieces with
  | nil => exact .nil
  | cons piece pieces ih =>
      rw [List.flatMap_cons, List.flatMap_cons]
      cases piece with
      | inl piece =>
          obtain ⟨hfirst, hrest⟩ := List.forall_mem_cons.mp hothers
          refine List.rel_append ?_ (ih hrest hcredits)
          exact List.forall₂_same.mpr fun entry hentry => .inl ⟨rfl, hfirst entry hentry⟩
      | inr credit =>
          obtain ⟨hfirst, hrest⟩ := List.forall_mem_cons.mp hcredits
          refine List.rel_append ?_ (ih hothers hrest)
          have hold := (credit.read_elementOf credit.same credit.sameId).1
          have hnew := (credit.read_elementOf rfl rfl).1
          unfold attributedPiece barePiece
          rw [Sum.elim_inr, Sum.elim_inr, hold, hnew]
          exact .cons (.inr ⟨credit, hfirst, rfl, rfl⟩) .nil

/-- A credit has no refinement of its own held. -/
theorem held_pieces (piece : Content ⊕ Credit) :
    (Desk.read (attributedPiece piece)).filed.filterMap heldOf =
      (Desk.read (barePiece piece)).filed.filterMap heldOf := by
  cases piece with
  | inl piece => rfl
  | inr credit =>
      have hold := (credit.read_elementOf credit.same credit.sameId).2.1
      have hnew := (credit.read_elementOf rfl rfl).2.1
      exact hold.trans hnew.symm

theorem passes_pieces (piece : Content ⊕ Credit) :
    (∀ event ∈ events (attributedPiece piece), passes event = true) ↔
      ∀ event ∈ events (barePiece piece), passes event = true := by
  cases piece with
  | inl piece => exact .rfl
  | inr credit => exact iff_of_true (passes_elementOf credit.plain) (passes_elementOf credit.plain)

/-- Both blocks let the reader through, or neither does. -/
theorem passes_creditedBlock :
    (∀ event ∈ events (creditedBlock refined), passes event = true) ↔
      ∀ event ∈ events (attributedBlock (lefts refined)), passes event = true := by
  refine (passes_refinedBlock _).trans ?_
  rw [lefts_map, attributedBlock, events_blockOf, List.flatMap_map]
  constructor
  · intro h event hevent
    obtain ⟨piece, hpiece, hevent⟩ := List.mem_flatMap.mp hevent
    exact (passes_pieces piece).mpr (h _ (List.mem_map_of_mem hpiece)) event hevent
  · intro h content hcontent
    obtain ⟨piece, hpiece, rfl⟩ := List.mem_map.mp hcontent
    exact (passes_pieces piece).mp fun event hevent =>
      h event (List.mem_flatMap.mpr ⟨piece, hpiece, hevent⟩)

/-- What is held of a piece. -/
def heldIn (piece : Content ⊕ Credit) : List (Str × Refinement) :=
  (Desk.read (barePiece piece)).filed.filterMap heldOf

theorem held_attributedBlock : (Desk.read (attributedBlock pieces)).filed.filterMap heldOf =
    pieces.flatMap heldIn := by
  rw [attributedBlock, read_blockOf_filed, List.filterMap_flatMap, List.flatMap_map]
  exact List.flatMap_congr fun piece _ => held_pieces piece

theorem held_creditedBlock (h : ∀ refining ∈ rights refined, refining.property ≠ []) :
    (Desk.read (creditedBlock refined)).filed.filterMap heldOf =
      refined.flatMap (Sum.elim heldIn fun refining => [refining.held]) := by
  rw [creditedBlock, refinedBlock, read_blockOf_filed, List.filterMap_flatMap, List.flatMap_map,
    List.flatMap_map]
  refine List.flatMap_congr fun piece hpiece => ?_
  cases piece with
  | inl piece => rfl
  | inr refining =>
      exact refining.read_held (h refining (List.mem_filterMap.mpr ⟨.inr refining, hpiece, rfl⟩))

theorem entries_attributedBlock : (Desk.read (attributedBlock pieces)).filed.filterMap entryOf =
    pieces.flatMap fun piece => (Desk.read (attributedPiece piece)).filed.filterMap entryOf := by
  rw [attributedBlock, read_blockOf_filed, List.filterMap_flatMap, List.flatMap_map]

theorem entries_creditedBlock : (Desk.read (creditedBlock refined)).filed.filterMap entryOf =
    (lefts refined).flatMap fun piece => (Desk.read (barePiece piece)).filed.filterMap entryOf := by
  rw [creditedBlock, entries_refinedBlock, lefts_map, List.flatMap_map]

end Dialect

theorem heldFor_flatMap {α : Type} (l : List α) (held : α → List (Str × Refinement)) (target : Str) :
    heldFor (l.flatMap held) target = l.flatMap fun a => heldFor (held a) target := by
  unfold heldFor
  rw [List.filter_flatMap, List.map_flatMap]

theorem mem_flatMap_sides {α β γ : Type} {l : List (α ⊕ β)} {f : α ⊕ β → List γ} {c : γ} :
    c ∈ l.flatMap f ↔ c ∈ (lefts l).flatMap (fun a => f (.inl a)) ∨
      c ∈ (rights l).flatMap fun b => f (.inr b) := by
  rw [((perm_lefts_rights l).flatMap_right f).mem_iff, List.flatMap_append, List.flatMap_map,
    List.flatMap_map, List.mem_append]

/-- The refinements of both documents, when the refining elements say what the attributes did. -/
theorem transposed {front back : List (Str × Refinement)} {held : Content ⊕ Credit → List (Str × Refinement)}
    {refined : List ((Content ⊕ Credit) ⊕ RefiningMeta)}
    (hstated : ((rights refined).map RefiningMeta.stated).Perm
      ((rights (lefts refined)).flatMap Credit.stated))
    (hids : ((rights (lefts refined)).map Credit.id).Nodup)
    (hunsaid : ∀ refining ∈ front ++ (lefts refined).flatMap held ++ back,
      refining.2.property ∈ (["role", "file-as"] : List Str) →
        ∀ credit ∈ rights (lefts refined), refining.1 ≠ credit.id) :
    Transposed (rights (lefts refined)) (front ++ (lefts refined).flatMap held ++ back)
      (front ++ refined.flatMap (Sum.elim held fun refining => [refining.held]) ++ back) := by
  refine ⟨fun target htarget => ?_, hunsaid, fun credit hcredit property hproperty value => ?_⟩
  · -- the entries that are no credits: what is held for them is the same
    have hblock : heldFor (refined.flatMap (Sum.elim held fun refining => [refining.held])) target =
        heldFor ((lefts refined).flatMap held) target := by
      rw [heldFor_flatMap, heldFor_flatMap]
      refine flatMap_lefts fun refining hrefining => ?_
      have hmem := hstated.mem_iff.mp (List.mem_map_of_mem hrefining)
      obtain ⟨credit, hcredit, hmem⟩ := List.mem_flatMap.mp hmem
      obtain ⟨refinement, -, heq⟩ := List.mem_map.mp hmem
      have htargetOf : targetOf refining.tag = credit.id := (congrArg Prod.fst heq).symm
      have hne : targetOf refining.tag ≠ target := fun hsame =>
        htarget credit hcredit (hsame.symm.trans htargetOf)
      simp [heldFor, RefiningMeta.held, hne]
    rw [heldFor_append, heldFor_append, heldFor_append, heldFor_append, hblock]
  · constructor
    · rintro ⟨refining, hmem, htarget, rfl, rfl⟩
      -- a role that is held behind the move comes from a `meta` of its own
      have hnot : refining ∉ front ++ (lefts refined).flatMap held ++ back := fun hin =>
        hunsaid refining hin hproperty credit hcredit htarget
      rw [List.mem_append, List.mem_append, mem_flatMap_sides] at hmem
      rw [List.mem_append, List.mem_append] at hnot
      rcases hmem with (hfront | hown | hmeta) | hback
      · exact absurd (.inl (.inl hfront)) hnot
      · exact absurd (.inl (.inr hown)) hnot
      · obtain ⟨element, helement, hin⟩ := List.mem_flatMap.mp hmeta
        obtain rfl := List.mem_singleton.mp hin
        have hsaid := hstated.mem_iff.mp (List.mem_map_of_mem helement)
        obtain ⟨other, hother, hsaid⟩ := List.mem_flatMap.mp hsaid
        obtain ⟨refinement, hrefinement, heq⟩ := List.mem_map.mp hsaid
        have hid : other.id = credit.id := (congrArg Prod.fst heq).trans htarget
        obtain rfl := List.inj_on_of_nodup_map hids hother hcredit hid
        obtain ⟨hsame, hvalue⟩ := Prod.mk.inj (Prod.mk.inj heq).2
        have howned := (mem_epub2Refinements.mp hrefinement).2.2
        rw [hsame, hvalue] at howned
        exact howned
      · exact absurd (.inr hback) hnot
    · rintro ⟨rfl, hne⟩
      have hsaid : (credit.id, property, attributeValue credit.epub2 property) ∈
          (rights (lefts refined)).flatMap Credit.stated :=
        List.mem_flatMap.mpr ⟨credit, hcredit, List.mem_map.mpr
          ⟨⟨property, attributeValue credit.epub2 property, []⟩,
            mem_epub2Refinements.mpr ⟨hproperty, rfl, rfl, hne⟩, rfl⟩⟩
      obtain ⟨element, helement, heq⟩ := List.mem_map.mp (hstated.mem_iff.mpr hsaid)
      obtain ⟨htarget, heq⟩ := Prod.mk.inj heq
      obtain ⟨hsame, hvalue⟩ := Prod.mk.inj heq
      refine ⟨element.held, ?_, htarget, hsame, hvalue⟩
      rw [List.mem_append, List.mem_append, mem_flatMap_sides]
      exact .inl (.inr (.inr (List.mem_flatMap.mpr ⟨element, helement, .head _⟩)))

/-- A document whose credits can be written in both dialects: the ids are distinct, the
refining elements say what the attributes do, and nothing else does. -/
structure InBothDialects (around : Surroundings)
    (refined : List ((Content ⊕ Credit) ⊕ RefiningMeta)) : Prop where
  proper : around.Proper
  stated : ((rights refined).map RefiningMeta.stated).Perm
    ((rights (lefts refined)).flatMap Credit.stated)
  distinct : ((filedOf (around.document (attributedBlock (lefts refined)))).filterMap
    entryOf).Pairwise fun a b => a.id ≠ [] → a.id ≠ b.id
  unsaid : ∀ refining ∈ (filedOf (around.document (attributedBlock (lefts refined)))).filterMap heldOf,
    refining.2.property ∈ (["role", "file-as"] : List Str) →
      ∀ credit ∈ rights (lefts refined), refining.1 ≠ credit.id

theorem held_target {filed : List Filed} : ∀ refining ∈ filed.filterMap heldOf, refining.1 ≠ [] := by
  intro refining hmem
  obtain ⟨f, -, hheld⟩ := List.mem_filterMap.mp hmem
  unfold heldOf at hheld
  dsimp only at hheld
  split at hheld
  · cases hheld
  · rename_i hrefines
    exact Option.some.inj hheld ▸ hrefines

namespace InBothDialects

variable {around : Surroundings} {refined : List ((Content ⊕ Credit) ⊕ RefiningMeta)}

/-- The entries of the older document, in three parts. -/
theorem entries_attributed (h : InBothDialects around refined) :
    (filedOf (around.document (attributedBlock (lefts refined)))).filterMap entryOf =
      (around.before.flatMap Part.filed).filterMap entryOf ++
        (lefts refined).flatMap (fun piece =>
          (Desk.read (attributedPiece piece)).filed.filterMap entryOf) ++
        (around.after.flatMap Part.filed).filterMap entryOf := by
  rw [Surroundings.filedOf_document h.proper, List.filterMap_append, List.filterMap_append,
    entries_attributedBlock]

theorem entries_credited (h : InBothDialects around refined) :
    (filedOf (around.document (creditedBlock refined))).filterMap entryOf =
      (around.before.flatMap Part.filed).filterMap entryOf ++
        (lefts refined).flatMap (fun piece =>
          (Desk.read (barePiece piece)).filed.filterMap entryOf) ++
        (around.after.flatMap Part.filed).filterMap entryOf := by
  rw [Surroundings.filedOf_document h.proper, List.filterMap_append, List.filterMap_append,
    entries_creditedBlock]

/-- The entries that no credit is for, and then the entries of the credits. -/
theorem entries_perm (h : InBothDialects around refined) :
    ((filedOf (around.document (attributedBlock (lefts refined)))).filterMap entryOf).Perm
      (((around.before.flatMap Part.filed).filterMap entryOf ++
        (around.after.flatMap Part.filed).filterMap entryOf ++
        (lefts (lefts refined)).flatMap fun piece => (Desk.read piece).filed.filterMap entryOf) ++
        (rights (lefts refined)).map fun credit => credit.entry credit.epub2) := by
  have hcredits : (rights (lefts refined)).flatMap (fun credit =>
      (Desk.read (attributedPiece (.inr credit))).filed.filterMap entryOf) =
        (rights (lefts refined)).map fun credit => credit.entry credit.epub2 := by
    rw [List.map_eq_flatMap]
    exact List.flatMap_congr fun credit _ => (credit.read_elementOf credit.same credit.sameId).1
  have hpieces := (perm_lefts_rights (lefts refined)).flatMap_right fun piece =>
    (Desk.read (attributedPiece piece)).filed.filterMap entryOf
  rw [List.flatMap_append, List.flatMap_map, List.flatMap_map, hcredits] at hpieces
  rw [h.entries_attributed, List.append_assoc, List.append_assoc, List.append_assoc]
  exact ((List.perm_append_comm.trans (hpieces.append_left _)).append_left _)

/-- No two credits have one id, and no other entry has a credit's. -/
theorem ids_apart (h : InBothDialects around refined) :
    ((rights (lefts refined)).map Credit.id).Nodup ∧
      ∀ entry ∈ (around.before.flatMap Part.filed).filterMap entryOf ++
        (around.after.flatMap Part.filed).filterMap entryOf ++
        (lefts (lefts refined)).flatMap (fun piece => (Desk.read piece).filed.filterMap entryOf),
          ∀ credit ∈ rights (lefts refined), entry.id ≠ credit.id := by
  have hsymmetric {a b : MetaEntry} (hab : a.id ≠ [] → a.id ≠ b.id) : b.id ≠ [] → b.id ≠ a.id :=
    fun hb heq => hab (heq ▸ hb) heq.symm
  have hdistinct := (h.entries_perm.pairwise_iff hsymmetric).mp h.distinct
  obtain ⟨-, hcredits, hcross⟩ := List.pairwise_append.mp hdistinct
  refine ⟨List.pairwise_map.mpr ((List.pairwise_map.mp hcredits).imp fun {credit other} hne =>
    hne credit.identified), fun entry hentry credit hcredit heq => ?_⟩
  have hid : entry.id ≠ [] := fun hnil => credit.identified (heq.symm.trans hnil)
  exact hcross entry hentry _ (List.mem_map_of_mem hcredit) hid heq

/-- Entry by entry, the two blocks differ in the credits' own refinements. -/
theorem drafts (h : InBothDialects around refined) :
    List.Forall₂ (Draft (rights (lefts refined)))
      ((filedOf (around.document (attributedBlock (lefts refined)))).filterMap entryOf)
      ((filedOf (around.document (creditedBlock refined))).filterMap entryOf) := by
  obtain ⟨-, happart⟩ := h.ids_apart
  rw [h.entries_attributed, h.entries_credited]
  refine List.rel_append (List.rel_append ?_ (drafts_pieces ?_ fun _ hcredit => hcredit)) ?_
  · exact List.forall₂_same.mpr fun entry hentry => .inl ⟨rfl, happart entry
      (List.mem_append_left _ (List.mem_append_left _ hentry))⟩
  · exact fun piece hpiece entry hentry => happart entry
      (List.mem_append_right _ (List.mem_flatMap.mpr ⟨piece, hpiece, hentry⟩))
  · exact List.forall₂_same.mpr fun entry hentry => .inl ⟨rfl, happart entry
      (List.mem_append_left _ (List.mem_append_right _ hentry))⟩

/-- A refining element that says something has a property. -/
theorem properties (h : InBothDialects around refined) :
    ∀ refining ∈ rights refined, refining.property ≠ [] := by
  intro refining hrefining hnil
  obtain ⟨credit, -, hsaid⟩ :=
    List.mem_flatMap.mp (h.stated.mem_iff.mp (List.mem_map_of_mem hrefining))
  obtain ⟨refinement, hrefinement, heq⟩ := List.mem_map.mp hsaid
  have hproperty : refinement.property = [] := (Prod.mk.inj (Prod.mk.inj heq).2).1.trans hnil
  have hnamed := (mem_epub2Refinements.mp hrefinement).1
  rw [hproperty] at hnamed
  exact absurd hnamed (by decide)

/-- And their refinements are those of one another. -/
theorem held_transposed (h : InBothDialects around refined) :
    Transposed (rights (lefts refined))
      ((filedOf (around.document (attributedBlock (lefts refined)))).filterMap heldOf)
      ((filedOf (around.document (creditedBlock refined))).filterMap heldOf) := by
  have hold : (filedOf (around.document (attributedBlock (lefts refined)))).filterMap heldOf =
      (around.before.flatMap Part.filed).filterMap heldOf ++ (lefts refined).flatMap heldIn ++
        (around.after.flatMap Part.filed).filterMap heldOf := by
    rw [Surroundings.filedOf_document h.proper, List.filterMap_append, List.filterMap_append,
      held_attributedBlock]
  have hnew : (filedOf (around.document (creditedBlock refined))).filterMap heldOf =
      (around.before.flatMap Part.filed).filterMap heldOf ++
        refined.flatMap (Sum.elim heldIn fun refining => [refining.held]) ++
        (around.after.flatMap Part.filed).filterMap heldOf := by
    rw [Surroundings.filedOf_document h.proper, List.filterMap_append, List.filterMap_append,
      held_creditedBlock h.properties]
  have hunsaid := h.unsaid
  rw [hold] at hunsaid
  rw [hold, hnew]
  exact transposed h.stated h.ids_apart.1 hunsaid

/-- The entries of both documents are credited alike. -/
theorem attached_alike (h : InBothDialects around refined) :
    List.Forall₂ Alike (attachAll (filedOf (around.document (attributedBlock (lefts refined)))))
      (attachAll (filedOf (around.document (creditedBlock refined)))) := by
  have hids : ∀ {entries entries' : List MetaEntry},
      List.Forall₂ (Draft (rights (lefts refined))) entries entries' →
        entries.map MetaEntry.id = entries'.map MetaEntry.id := by
    intro entries entries' hdrafts
    induction hdrafts with
    | nil => rfl
    | cons hfirst _ ih =>
        rw [List.map_cons, List.map_cons, ih]
        rcases hfirst with ⟨rfl, -⟩ | ⟨credit, -, rfl, rfl⟩
        · rfl
        · rfl
  have hdistinct : (((filedOf (around.document (attributedBlock (lefts refined)))).filterMap
      entryOf).map MetaEntry.id).Pairwise fun a b => a ≠ [] → a ≠ b :=
    List.pairwise_map.mpr h.distinct
  rw [hids h.drafts] at hdistinct
  exact h.held_transposed.forall₂_attached held_target held_target h.drafts h.distinct
    (List.pairwise_map.mp hdistinct)

theorem creditsOf_document (doc : Content) : creditsOf (metadataOf (merged (documentParts doc))) =
    (titlesOf (attachAll (filedOf doc)), mainTitle (titlesOf (attachAll (filedOf doc))),
      credited (attachAll (filedOf doc)) "creator",
      credited (attachAll (filedOf doc)) "contributor") := rfl

theorem metadataRead_credits (h : InBothDialects around refined) :
    (metadataRead (around.document (attributedBlock (lefts refined)))).map creditsOf =
      (metadataRead (around.document (creditedBlock refined))).map creditsOf := by
  refine metadataRead_alike (Surroundings.accepted_document h.proper passes_creditedBlock.symm) ?_
  have hentries := h.attached_alike
  rw [creditsOf_document, creditsOf_document, titlesOf_alike hentries,
    credited_alike hentries "creator", credited_alike hentries "contributor"]

end InBothDialects

/-- Refinements may stand anywhere in a metadata block, and in either dialect. -/
theorem refinements_read_alike {around : Surroundings} (h : around.Proper) :
    (∀ pieces pieces' : List (Content ⊕ RefiningMeta),
      (∀ piece ∈ lefts pieces, Unrefining piece) → lefts pieces = lefts pieces' →
        rights pieces = rights pieces' →
          metadataRead (around.document (refinedBlock pieces)) =
            metadataRead (around.document (refinedBlock pieces'))) ∧
      ∀ refined : List ((Content ⊕ Credit) ⊕ RefiningMeta), InBothDialects around refined →
        (metadataRead (around.document (attributedBlock (lefts refined)))).map creditsOf =
          (metadataRead (around.document (creditedBlock refined))).map creditsOf :=
  ⟨fun _ _ hothers hlefts hrights =>
      Surroundings.metadataRead_moved h hothers hlefts hrights,
    fun _ hboth => hboth.metadataRead_credits⟩

/-! ## An author with a role

One author, written in both ways. -/

/-- A package with this metadata. -/
def authored : Surroundings where
  lead := .nil
  root := plainTag "package"
  front := .nil
  metadata := plainTag "metadata"
  back := .node (plainTag "spine") (hollow (attributed "itemref" [("idref", "one")]) .nil) .nil
  behind := .nil

theorem authored_proper : authored.Proper := ⟨by decide, by decide⟩

/-- Some text and nothing else. -/
def lettered (text : Str) : Content := .leaf ⟨.text text, isFlat_text text⟩ .nil

theorem plain_lettered (text : Str) : ∀ inner ∈ some (lettered text), Plain inner := by
  intro inner hinner
  obtain rfl := Option.some.inj hinner
  refine ⟨fun tag htag => absurd htag List.not_mem_nil, fun event hevent => ?_⟩
  obtain rfl := List.mem_singleton.mp hevent
  rfl

def ofAuthorTag (property : Str) : Tag :=
  attributed "meta" [("refines", "#author"), ("property", property)]

theorem ofAuthorTag_refining (property : Str) : targetOf (ofAuthorTag property) ≠ [] := by
  have htarget : targetOf (ofAuthorTag property) = "author" := rfl
  rw [htarget]
  decide

theorem ofAuthorTag_uncovering (property : Str) :
    PackageParser.isCoverMeta (ofAuthorTag property) "meta" = false := rfl

/-- A property of the author. -/
def ofAuthor (property value : Str) : RefiningMeta where
  tag := ofAuthorTag property
  body := some (lettered value)
  named := rfl
  refining := ofAuthorTag_refining property
  uncovering := ofAuthorTag_uncovering property
  plain := plain_lettered value

/-- The author, in both dialects. -/
def author : Credit where
  epub2 := attributed "dc:creator"
    [("id", "author"), ("opf:role", "aut"), ("opf:file-as", "Doe, Jane")]
  epub3 := attributed "dc:creator" [("id", "author")]
  body := some (lettered "Jane Doe")
  same := rfl
  credited := .inl rfl
  identified := by decide
  sameId := rfl
  bare := rfl
  plain := plain_lettered "Jane Doe"

/-- Her sort name in front of her, and her role behind. -/
def authorRefined : List ((Content ⊕ Credit) ⊕ RefiningMeta) :=
  [.inl (.inl (spoken (plainTag "dc:title") "The Whole" .nil)), .inr (ofAuthor "file-as" "Doe, Jane"),
    .inl (.inr author), .inr (ofAuthor "role" "aut")]

theorem author_inBothDialects : InBothDialects authored authorRefined where
  proper := authored_proper
  stated := by decide +kernel
  distinct := by decide +kernel
  unsaid := by decide +kernel

theorem refinements_read_author :
    (metadataRead (authored.document (refinedBlock
      [.inr (ofAuthor "role" "aut"), .inl (spoken author.epub3 "Jane Doe" .nil)]))).isSome ∧
    (metadataRead (authored.document (attributedBlock (lefts authorRefined)))).isSome ∧
    metadataRead (authored.document (refinedBlock
        [.inr (ofAuthor "role" "aut"), .inl (spoken author.epub3 "Jane Doe" .nil)])) =
      metadataRead (authored.document (refinedBlock
        [.inl (spoken author.epub3 "Jane Doe" .nil), .inr (ofAuthor "role" "aut")])) ∧
    (metadataRead (authored.document (attributedBlock (lefts authorRefined)))).map creditsOf =
      (metadataRead (authored.document (creditedBlock authorRefined))).map creditsOf := by
  obtain ⟨hmoved, hdialect⟩ := refinements_read_alike authored_proper
  refine ⟨by decide +kernel, by decide +kernel, hmoved _ _ (fun piece hpiece => ?_) rfl rfl,
    hdialect authorRefined author_inBothDialects⟩
  obtain rfl := List.mem_singleton.mp hpiece
  intro tag htag hmeta
  obtain rfl := List.mem_singleton.mp htag
  exact absurd hmeta (by decide)

end Opf

end GrpcEpub
