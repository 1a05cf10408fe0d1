/-
# `GrpcEpub.Sections` — which sections a package is read from

The package parser keeps one flag for the section it is in, and the depth it entered it
at.  Of a document with matching tags it reads the outermost sections, at whatever depth
they stand (`foldl_outside`).  A section deeper down, such as the metadata of a collection,
is read like the package's own.

What is read of a metadata block does not depend on the rest of the parser: a `Desk` has the
element that is being collected, and what has been filed.

The parser and the desk are compared event by event (`foldl_block`): a parser that is in a
metadata section is a parser at rest with a desk beside it (`reading`), and each turn of the one
is a turn of the other.  A manifest and a spine need no desk, since each tag in them is a listing
of its own (`Listing`).  What is then left of a section is a `Part`, and a parser that has read
one has `gathered` it.
-/
import GrpcEpub.Dialects
import GrpcEpub.Written

namespace GrpcEpub

namespace Opf

open Xml Nav

/-! ## The loop behind the root's start tag

Once the root has been seen, an event either stops the parser or is a turn, whatever the state
is; so the `foldlM` of the source is a `foldl` as long as every event passes (`foldlM_turn`). -/

/-- Whether the loop goes on behind an event. -/
def passes : XmlEvent → Bool
  | .docType dtd => (checkDoctype dtd).toBool
  | _ => true

/-! ## The metadata block

`openMetadata`, `closeCollection` and the text events, for the three fields of the parser they
touch.  A value is filed with the element that it was collected for, and whether it is an entry
or is held as a refinement is decided when the list is read (`entryOf`, `heldOf`). -/

/-- A metadata element that has been read to its end, and its text. -/
abbrev Filed := Pending × Str

/-- What has been read of a metadata block. -/
structure Desk where
  collecting : Option Pending := none
  text : Str := []
  filed : List Filed := []
  cover : Str := []
deriving DecidableEq, Repr

namespace Desk

/-- What a start or empty-element tag does. -/
def opened (self : Desk) (start : Tag) (empty : Bool) : Desk :=
  if PackageParser.isCoverMeta start start.localName then
    let content := attributeValue start "content"
    if content ≠ [] ∧ self.cover = [] then { self with cover := content } else self
  else
    match PackageParser.pendingOf start start.localName with
    | none => self
    | some pending =>
        if empty then { self with text := [], filed := self.filed ++ [(pending, [])] }
        else { self with text := [], collecting := some pending }

/-- What an end tag does. -/
def closed (self : Desk) (name : Str) : Desk :=
  match self.collecting with
  | some pending =>
      if pending.localName = name then
        { self with
          collecting := none
          text := []
          filed := self.filed ++ [(pending, self.text.trim)] }
      else self
  | none => self

/-- Text is kept while an element is collected. -/
def collect (self : Desk) (text : Str) : Desk :=
  if self.collecting.isSome then { self with text } else self

def turn (self : Desk) : XmlEvent → Desk
  | .start tag => self.opened tag false
  | .empty tag => self.opened tag true
  | .endTag name => self.closed (localName name)
  | .text content | .cData content => self.collect (self.text ++ content)
  | .generalRef reference => self.collect (pushRef self.text reference)
  | .docType _ | .other => self

/-- A metadata block, read. -/
def read (body : Content) : Desk := (events body).foldl turn {}

end Desk

/-- What is filed as an entry. -/
def entryOf : Filed → Option MetaEntry
  | (pending, value) => if pending.refines = [] then some { pending.entry with value } else none

/-- What is filed as a refinement. -/
def heldOf : Filed → Option (Str × Refinement)
  | (pending, value) =>
      if pending.refines = [] then none
      else some (pending.refines,
        { property := pending.entry.element, value, scheme := pending.entry.scheme })

/-- The cover that is named first. -/
def coverOf (coverId cover : Str) : Str := if coverId = [] then cover else coverId

/-! ## The sections of a document

The tree of a document is cut at the outermost elements that have the name of a section.  What a
section gives depends on its own tag and body alone. -/

/-- The tags of some content, in document order. -/
def tags : Content → List Tag
  | .nil => []
  | .leaf a rest =>
      match a.event with
      | .empty tag => tag :: tags rest
      | _ => tags rest
  | .node tag body rest => tag :: (tags body ++ tags rest)

def itemsOf (body : Content) : List ManifestItem :=
  ((tags body).filter fun tag => tag.localName = ("item" : Str)).map PackageParser.manifestItem

def itemrefsOf (body : Content) : List SpineItem :=
  ((tags body).filter fun tag => tag.localName = ("itemref" : Str)).map PackageParser.spineItem

/-- The section that an element of this name is. -/
def sectionOf (name : Str) : Section :=
  if name = "metadata" then .metadata
  else if name = "manifest" then .manifest
  else if name = "spine" then .spine
  else .outside

/-- A section: its tag, and what it holds. -/
structure Part where
  tag : Tag
  body : Content

namespace Part

def kind (part : Part) : Section := sectionOf part.tag.localName

def filed (part : Part) : List Filed :=
  if part.kind = .metadata then (Desk.read part.body).filed else []

def cover (part : Part) : Str :=
  if part.kind = .metadata then (Desk.read part.body).cover else []

def items (part : Part) : List ManifestItem :=
  if part.kind = .manifest then itemsOf part.body else []

def itemrefs (part : Part) : List SpineItem :=
  if part.kind = .spine then itemrefsOf part.body else []

end Part

/-- The sections that stand in no other. -/
def outermost : Content → List Part
  | .nil => []
  | .leaf _ rest => outermost rest
  | .node tag body rest =>
      if sectionOf tag.localName = .outside then outermost body ++ outermost rest
      else ⟨tag, body⟩ :: outermost rest

namespace PackageParser

def collect (self : PackageParser) (text : Str) : PackageParser :=
  if self.collecting.isSome then { self with text } else self

/-- One turn of the loop behind the root's start tag. -/
def turn (self : PackageParser) : XmlEvent → PackageParser
  | .start tag => self.deeper.openInside tag tag.localName false
  | .empty tag => self.openInside tag tag.localName true
  | .endTag name => self.close (localName name)
  | .text content | .cData content => self.collect (self.text ++ content)
  | .generalRef reference => self.collect (pushRef self.text reference)
  | .docType _ | .other => self

/-- Having entered its last section at this depth. -/
def leveled (self : PackageParser) (sectionDepth : Nat) : PackageParser :=
  { self with sectionDepth }

/-- The parser, with a metadata block read so far. -/
def reading (self : PackageParser) (desk : Desk) : PackageParser :=
  { self with
    collecting := desk.collecting
    text := desk.text
    package.metadata.entries := self.package.metadata.entries ++ desk.filed.filterMap entryOf
    package.metadata.coverId := coverOf self.package.metadata.coverId desk.cover
    refinements := self.refinements ++ desk.filed.filterMap heldOf }

/-- A section, read from its start tag to its end tag. -/
def gathered (self : PackageParser) (part : Part) : PackageParser :=
  match part.kind with
  | .outside => self
  | .metadata => self.reading (Desk.read part.body)
  | .manifest =>
      { self with package.manifest := self.package.manifest ++ itemsOf part.body }
  | .spine =>
      { self with
        package.tocIdref := attributeValue part.tag "toc"
        package.spine := self.package.spine ++ itemrefsOf part.body }

/-! ## One turn

No turn goes back to a parser that has seen no root, which is all that tells `step` from `turn`. -/

section Turns

variable {self : PackageParser}

theorem store_saw (pending : Pending) (value : Str) :
    (self.store pending value).sawPackage = self.sawPackage := by
  unfold store
  split <;> rfl

theorem openInside_saw (start : Tag) (name : Str) (empty : Bool) :
    (self.openInside start name empty).sawPackage = self.sawPackage := by
  unfold openInside
  split
  · repeat' split
    all_goals rfl
  · unfold openMetadata
    dsimp only
    repeat' split
    all_goals first | rfl | exact store_saw _ _
  · split <;> rfl
  · split <;> rfl

theorem close_saw (name : Str) : (self.close name).sawPackage = self.sawPackage := by
  have hcollection : (self.closeCollection name).sawPackage = self.sawPackage := by
    unfold closeCollection
    split
    · split
      · exact store_saw _ _
      · rfl
    · rfl
  unfold close
  dsimp only
  split
  · exact hcollection
  · exact hcollection

theorem collect_saw (text : Str) : (self.collect text).sawPackage = self.sawPackage := by
  unfold collect
  split <;> rfl

theorem turn_saw (event : XmlEvent) : (self.turn event).sawPackage = self.sawPackage := by
  cases event with
  | start tag => exact openInside_saw _ _ _
  | empty tag => exact openInside_saw _ _ _
  | endTag name => exact close_saw _
  | text content => exact collect_saw _
  | cData content => exact collect_saw _
  | generalRef reference => exact collect_saw _
  | docType dtd => rfl
  | other => rfl

theorem step_docType (dtd : Str) : self.step (.docType dtd) =
    if passes (.docType dtd) then .ok self else .error .entityDeclaration := by
  have hcheck : checkDoctype dtd = .error .entityDeclaration ∨ checkDoctype dtd = .ok () := by
    unfold checkDoctype
    dsimp only
    split
    · exact .inl rfl
    · exact .inr rfl
  rcases hcheck with hcheck | hcheck
  · simp [step, passes, hcheck, Except.toBool]
  · simp [step, passes, hcheck, Except.toBool]

/-- Behind the root a step is a turn, unless the event does not pass. -/
theorem step_turn (h : self.sawPackage = true) (event : XmlEvent) :
    self.step event = if passes event then .ok (self.turn event) else .error .entityDeclaration := by
  cases event with
  | docType dtd => exact step_docType dtd
  | start tag =>
      unfold step openTag
      simp [h, passes, turn, deeper]
  | empty tag =>
      unfold step openTag
      simp [h, passes, turn]
  | endTag name => rfl
  | text content => exact (apply_ite Except.ok _ _ _).symm
  | cData content => exact (apply_ite Except.ok _ _ _).symm
  | generalRef reference => exact (apply_ite Except.ok _ _ _).symm
  | other => rfl

/-- With the root behind it, the parser fails at the first event that does not pass, and otherwise
takes one turn after another. -/
theorem foldlM_turn {events : List XmlEvent} (h : self.sawPackage = true) :
    events.foldlM step self =
      if events.all passes then .ok (events.foldl turn self) else .error .entityDeclaration := by
  induction events generalizing self with
  | nil => rfl
  | cons event rest ih =>
      rw [List.foldlM_cons, step_turn h, List.all_cons, List.foldl_cons]
      cases hpasses : passes event with
      | false => rfl
      | true => exact ih ((turn_saw event).trans h)

end Turns

/-! ## Inside a metadata block

First the parser against its desk, then three facts about the desk alone: behind some content it
collects what it collected before or nothing (`foldl_collecting`), it holds text only while it
collects (`Tidy`), and what it files was opened by a tag of the content (`Sound`). -/

section Blocks

variable {self : PackageParser}

theorem store_reading (desk : Desk) (pending : Pending) (value : Str) :
    (self.reading desk).store pending value =
      self.reading { desk with filed := desk.filed ++ [(pending, value)] } := by
  unfold store
  split
  · rename_i hrefines
    simp [reading, entryOf, heldOf, hrefines]
  · rename_i hrefines
    simp [reading, entryOf, heldOf, hrefines]

/-- A tag inside a metadata section is a tag on the desk. -/
theorem opened_reading (h : self.inSection = .metadata) (desk : Desk) (tag : Tag) (empty : Bool) :
    (self.reading desk).openInside tag tag.localName empty =
      self.reading (desk.opened tag empty) := by
  have hinside : (self.reading desk).inSection = .metadata := h
  unfold openInside
  rw [hinside]
  dsimp only
  unfold openMetadata Desk.opened
  split
  · dsimp only
    by_cases hcontent : attributeValue tag "content" = []
    · rw [if_neg fun hboth => hboth.1 hcontent, if_neg fun hboth => hboth.1 hcontent]
    by_cases hfirst : self.package.metadata.coverId = []
    · by_cases hcover : desk.cover = []
      · have hnone : (self.reading desk).package.metadata.coverId = [] := by
          simp [reading, coverOf, hfirst, hcover]
        rw [if_pos ⟨hcontent, hnone⟩, if_pos ⟨hcontent, hcover⟩]
        simp [reading, coverOf, hfirst]
      · have hsome : (self.reading desk).package.metadata.coverId ≠ [] := by
          simp [reading, coverOf, hfirst, hcover]
        rw [if_neg fun hboth => hsome hboth.2, if_neg fun hboth => hcover hboth.2]
    · have hsome : (self.reading desk).package.metadata.coverId ≠ [] := by
        simp [reading, coverOf, hfirst]
      rw [if_neg fun hboth => hsome hboth.2]
      split
      · simp [reading, coverOf, hfirst]
      · rfl
  · cases PackageParser.pendingOf tag tag.localName with
    | none => rfl
    | some pending =>
        dsimp only
        split
        · exact store_reading { desk with text := [] } pending []
        · rfl

theorem closed_reading (desk : Desk) (name : Str) :
    (self.reading desk).closeCollection name = self.reading (desk.closed name) := by
  unfold closeCollection Desk.closed
  have hcollecting : (self.reading desk).collecting = desk.collecting := rfl
  rw [hcollecting]
  cases desk.collecting with
  | none => rfl
  | some pending =>
      dsimp only
      split
      · exact store_reading { desk with collecting := none, text := [] } pending desk.text.trim
      · rfl

theorem collect_reading (desk : Desk) (text : Str) :
    (self.reading desk).collect text = self.reading (desk.collect text) := by
  unfold collect Desk.collect
  have hcollecting : (self.reading desk).collecting = desk.collecting := rfl
  rw [hcollecting]
  split <;> rfl

theorem flat_reading (desk : Desk) (leaf : Leaf) (h : self.inSection = .metadata) :
    (self.reading desk).turn leaf.event = self.reading (desk.turn leaf.event) := by
  obtain ⟨event, hflat⟩ := leaf
  cases event with
  | start tag => cases hflat
  | endTag name => cases hflat
  | empty tag => exact opened_reading h desk tag true
  | text content => exact collect_reading _ _
  | cData content => exact collect_reading _ _
  | generalRef reference => exact collect_reading _ _
  | docType dtd => rfl
  | other => rfl

/-- Inside a metadata block the parser is a desk. -/
theorem foldl_block (content : Content) (desk : Desk) (h : self.inSection = .metadata)
    (hlevel : self.sectionDepth ≤ self.depth) :
    (events content).foldl turn (self.reading desk) =
      self.reading ((events content).foldl Desk.turn desk) := by
  induction content generalizing self desk with
  | nil => rfl
  | leaf a rest ih =>
      unfold events at ih ⊢
      rw [Nested.foldl_spell_leaf, Nested.foldl_spell_leaf]
      change (Nested.spell markup rest).foldl turn ((self.reading desk).turn a.event) = _
      rw [flat_reading desk a h]
      exact ih _ h hlevel
  | node tag body rest ihbody ihrest =>
      unfold events at ihbody ihrest ⊢
      rw [Nested.foldl_spell_node, Nested.foldl_spell_node]
      have hstart : (self.reading desk).turn (.start tag) =
          self.deeper.reading (desk.turn (.start tag)) :=
        @opened_reading self.deeper h desk tag false
      have hend (inner : Desk) : (self.deeper.reading inner).turn (.endTag tag.name) =
          self.reading (inner.turn (.endTag tag.name)) := by
        have hopen : ¬ (self.deeper.reading (inner.closed (localName tag.name))).depth =
            (self.deeper.reading (inner.closed (localName tag.name))).sectionDepth :=
          Nat.ne_of_gt (Nat.lt_succ_of_le hlevel)
        change (self.deeper.reading inner).close (localName tag.name) = _
        unfold close
        rw [closed_reading]
        dsimp only
        rw [if_neg fun hboth => hopen hboth.2]
        rfl
      change (Nested.spell markup rest).foldl turn (((Nested.spell markup body).foldl turn
        ((self.reading desk).turn (.start tag))).turn (.endTag tag.name)) = _
      rw [hstart, @ihbody self.deeper _ h (Nat.le_succ_of_le hlevel), hend]
      exact ihrest _ h hlevel

end Blocks

end PackageParser

/-- What one of these tags opens. -/
def Opened (allowed : Tag → Prop) (pending : Pending) : Prop :=
  ∃ tag : Tag, allowed tag ∧ PackageParser.pendingOf tag tag.localName = some pending

namespace Desk

variable {self : Desk}

theorem coverOf_nil (cover : Str) : coverOf cover [] = cover := by
  unfold coverOf
  split
  · rename_i h
    exact h.symm
  · rfl

theorem pendingOf_name {tag : Tag} {name : Str} {pending : Pending}
    (h : PackageParser.pendingOf tag name = some pending) : pending.localName = name := by
  unfold PackageParser.pendingOf at h
  dsimp only at h
  split at h
  · split at h
    · exact absurd h.symm (Option.some_ne_none pending)
    · exact Option.some.inj h ▸ rfl
  · split at h
    · exact Option.some.inj h ▸ rfl
    · exact absurd h.symm (Option.some_ne_none pending)

/-- A start tag leaves what is collected, or its own element is. -/
theorem opened_collecting (tag : Tag) :
    (self.opened tag false).collecting = self.collecting ∨
      ∃ pending, (self.opened tag false).collecting = some pending ∧
        pending.localName = tag.localName := by
  unfold opened
  split
  · dsimp only
    split <;> exact .inl rfl
  · cases hpending : PackageParser.pendingOf tag tag.localName with
    | none => exact .inl rfl
    | some pending => exact .inr ⟨pending, rfl, pendingOf_name hpending⟩

/-- An end tag leaves the element that is collected alone, or ends it. -/
theorem closed_collecting (name : Str) :
    (self.closed name).collecting = self.collecting ∨ (self.closed name).collecting = none := by
  unfold closed
  split
  · split
    · exact .inr rfl
    · exact .inl rfl
  · exact .inl rfl

theorem closed_of_some {pending : Pending} (h : self.collecting = some pending) :
    (self.closed pending.localName).collecting = none := by
  unfold closed
  rw [h]
  dsimp only
  rw [if_pos rfl]

/-- A leaf leaves the element that is collected alone. -/
theorem flat_collecting (leaf : Leaf) :
    (self.turn leaf.event).collecting = self.collecting := by
  obtain ⟨event, hflat⟩ := leaf
  have hcollect (text : Str) : (self.collect text).collecting = self.collecting := by
    unfold collect
    split <;> rfl
  cases event with
  | start tag => cases hflat
  | endTag name => cases hflat
  | empty tag =>
      change (self.opened tag true).collecting = self.collecting
      unfold opened
      split
      · dsimp only
        split <;> rfl
      · split <;> rfl
  | text content => exact hcollect _
  | cData content => exact hcollect _
  | generalRef reference => exact hcollect _
  | docType dtd => rfl
  | other => rfl

/-- What is being collected in front of a forest is collected behind it, or has been filed. -/
theorem foldl_collecting (content : Content) :
    ((events content).foldl turn self).collecting = self.collecting ∨
      ((events content).foldl turn self).collecting = none := by
  induction content generalizing self with
  | nil => exact .inl rfl
  | leaf a rest ih =>
      have hrest := @ih (self.turn a.event)
      rw [flat_collecting] at hrest
      exact hrest
  | node tag body rest ihbody ihrest =>
      unfold events at ihbody ihrest ⊢
      rw [Nested.foldl_spell_node]
      have hwhole : (((Nested.spell markup body).foldl turn (self.opened tag false)).closed
          (localName tag.name)).collecting = self.collecting ∨
          (((Nested.spell markup body).foldl turn (self.opened tag false)).closed
            (localName tag.name)).collecting = none := by
        rcases @ihbody (self.opened tag false) with hbody | hbody
        · rcases @opened_collecting self tag with hsame | ⟨pending, hsome, hname⟩
          · rw [hsame] at hbody
            rw [← hbody]
            exact closed_collecting _
          · rw [hsome] at hbody
            have hclosed := closed_of_some hbody
            rw [hname] at hclosed
            exact .inr hclosed
        · rcases @closed_collecting ((Nested.spell markup body).foldl turn
            (self.opened tag false)) (localName tag.name) with hsame | hnone
          · exact .inr (hsame.trans hbody)
          · exact .inr hnone
      rcases @ihrest (((Nested.spell markup body).foldl turn (self.opened tag false)).closed
          (localName tag.name)) with hrest | hrest
      · rcases hwhole with hsame | hnone
        · exact .inl (hrest.trans hsame)
        · exact .inr (hrest.trans hnone)
      · exact .inr hrest

/-- No text is kept for nothing. -/
def Tidy (self : Desk) : Prop := self.collecting = none → self.text = []

/-- One turn keeps the desk tidy. -/
theorem turn_tidy (h : self.Tidy) (event : XmlEvent) : (self.turn event).Tidy := by
  have hcollect (text : Str) : (self.collect text).Tidy := by
    unfold collect
    split
    · rename_i hsome
      exact fun hnone => absurd hnone (Option.isSome_iff_ne_none.mp hsome)
    · exact h
  have hopened (tag : Tag) (empty : Bool) : (self.opened tag empty).Tidy := by
    unfold opened
    split
    · dsimp only
      split <;> exact h
    · split
      · exact h
      · split
        · exact fun _ => rfl
        · exact fun _ => rfl
  cases event with
  | start tag => exact hopened tag false
  | empty tag => exact hopened tag true
  | endTag name =>
      change (self.closed (localName name)).Tidy
      unfold closed
      split
      · split
        · exact fun _ => rfl
        · exact h
      · exact h
  | text content => exact hcollect _
  | cData content => exact hcollect _
  | generalRef reference => exact hcollect _
  | docType dtd => exact h
  | other => exact h

theorem foldl_tidy (h : self.Tidy) (events : List XmlEvent) : (events.foldl turn self).Tidy := by
  induction events generalizing self with
  | nil => exact h
  | cons event rest ih => exact ih (turn_tidy h event)

/-- Everything at the desk has been opened by one of these tags. -/
structure Sound (allowed : Tag → Prop) (desk : Desk) : Prop where
  collecting : ∀ pending ∈ desk.collecting, Opened allowed pending
  filed : ∀ f ∈ desk.filed, Opened allowed f.1

theorem Sound.filing {allowed : Tag → Prop} (h : self.Sound allowed) {pending : Pending}
    (hopened : Opened allowed pending) (value : Str) :
    ∀ f ∈ self.filed ++ [(pending, value)], Opened allowed f.1 := by
  intro f hf
  rcases List.mem_append.mp hf with hf | hf
  · exact h.filed f hf
  · obtain rfl := List.mem_singleton.mp hf
    exact hopened

theorem Sound.opened {allowed : Tag → Prop} (h : self.Sound allowed) {tag : Tag}
    (htag : allowed tag) (empty : Bool) : (self.opened tag empty).Sound allowed := by
  unfold Desk.opened
  split
  · dsimp only
    split
    · exact ⟨h.collecting, h.filed⟩
    · exact h
  · cases hpending : PackageParser.pendingOf tag tag.localName with
    | none => exact h
    | some pending =>
        dsimp only
        split
        · exact ⟨h.collecting, h.filing ⟨tag, htag, hpending⟩ []⟩
        · refine ⟨fun pending' hin => ?_, h.filed⟩
          obtain rfl := Option.some.inj hin
          exact ⟨tag, htag, hpending⟩

theorem Sound.closed {allowed : Tag → Prop} (h : self.Sound allowed) (name : Str) :
    (self.closed name).Sound allowed := by
  unfold Desk.closed
  split
  · rename_i pending hsome
    split
    · exact ⟨fun _ hin => absurd hin (Option.not_mem_none _),
        h.filing (h.collecting pending hsome) self.text.trim⟩
    · exact h
  · exact h

theorem Sound.flat {allowed : Tag → Prop} (h : self.Sound allowed) {leaf : Leaf}
    (htag : ∀ tag, leaf.event = .empty tag → allowed tag) :
    (self.turn leaf.event).Sound allowed := by
  obtain ⟨event, hflat⟩ := leaf
  have hcollect (text : Str) : (self.collect text).Sound allowed := by
    unfold collect
    split
    · exact ⟨h.collecting, h.filed⟩
    · exact h
  cases event with
  | start tag => cases hflat
  | endTag name => cases hflat
  | empty tag => exact h.opened (htag tag rfl) true
  | text content => exact hcollect _
  | cData content => exact hcollect _
  | generalRef reference => exact hcollect _
  | docType | other => exact h

/-- By induction on the content. -/
theorem Sound.foldl {allowed : Tag → Prop} (h : self.Sound allowed) {content : Content}
    (htags : ∀ tag ∈ tags content, allowed tag) :
    ((events content).foldl turn self).Sound allowed := by
  induction content generalizing self with
  | nil => exact h
  | leaf a rest ih =>
      rw [tags] at htags
      have hrest : (self.turn a.event).Sound allowed ∧ ∀ tag ∈ tags rest, allowed tag := by
        split at htags
        · rename_i tag htag
          obtain ⟨hfirst, hothers⟩ := List.forall_mem_cons.mp htags
          refine ⟨h.flat fun tag' htag' => ?_, hothers⟩
          obtain rfl := XmlEvent.empty.inj (htag.symm.trans htag')
          exact hfirst
        · rename_i hother
          exact ⟨h.flat fun tag htag => absurd htag (hother tag), htags⟩
      exact ih hrest.1 hrest.2
  | node tag body rest ihbody ihrest =>
      unfold events at ihbody ihrest ⊢
      obtain ⟨hfirst, hothers⟩ := List.forall_mem_cons.mp htags
      rw [Nested.foldl_spell_node]
      refine ihrest ((ihbody (h.opened hfirst false) fun tag htag => ?_).closed _) fun tag htag => ?_
      · exact hothers tag (List.mem_append_left _ htag)
      · exact hothers tag (List.mem_append_right _ htag)

/-- What is filed of a block was opened by one of its tags. -/
theorem opened_of_read {allowed : Tag → Prop} {body : Content}
    (htags : ∀ tag ∈ tags body, allowed tag) {f : Filed} (h : f ∈ (read body).filed) :
    Opened allowed f.1 := by
  have hempty : Sound allowed {} := ⟨fun _ hin => absurd hin (Option.not_mem_none _), by simp⟩
  exact (hempty.foldl htags).filed f h

theorem read_idle (body : Content) : (read body).collecting = none := by
  rcases @foldl_collecting {} body with h | h
  · exact h
  · exact h

theorem read_blank (body : Content) : (read body).text = [] :=
  foldl_tidy (fun _ => rfl) (events body) (read_idle body)

end Desk

namespace PackageParser

variable {self : PackageParser}

/-! ## Inside a manifest or a spine

Here an element is read when its tag is opened, at any depth, and its end does nothing but count:
the content of the section is as good as the list of its tags (`foldl_content`). -/

theorem turn_flat (h : self.collecting = none) {leaf : Leaf}
    (hempty : ∀ tag, leaf.event ≠ .empty tag) : self.turn leaf.event = self := by
  obtain ⟨event, hflat⟩ := leaf
  have hcollect (text : Str) : self.collect text = self := by
    unfold collect
    rw [h]
    rfl
  cases event with
  | start tag => cases hflat
  | endTag name => cases hflat
  | empty tag => exact absurd rfl (hempty tag)
  | text content => exact hcollect _
  | cData content => exact hcollect _
  | generalRef reference => exact hcollect _
  | docType dtd => rfl
  | other => rfl

theorem deeper_resting {inSection : Section} (h : self.Resting inSection) :
    self.deeper.Resting inSection :=
  ⟨h.started, h.inside, fun hne => Nat.le_succ_of_le (h.level hne), h.idle, h.blank⟩

/-- A section in which a tag does this and nothing else. -/
structure Listing (inSection : Section) (list : PackageParser → Tag → PackageParser) : Prop where
  opens : ∀ {self : PackageParser} (tag : Tag) (empty : Bool), self.Resting inSection →
    self.openInside tag tag.localName empty = list self tag
  deeper : ∀ (self : PackageParser) (tag : Tag), list self.deeper tag = (list self tag).deeper
  resting : ∀ {self : PackageParser} (tag : Tag), self.Resting inSection →
    (list self tag).Resting inSection

namespace Listing

variable {inSection : Section} {list : PackageParser → Tag → PackageParser}

theorem foldl_deeper (hlist : Listing inSection list) (tags : List Tag) (self : PackageParser) :
    tags.foldl list self.deeper = (tags.foldl list self).deeper := by
  induction tags generalizing self with
  | nil => rfl
  | cons tag tags ih => rw [List.foldl_cons, hlist.deeper, ih, List.foldl_cons]

theorem foldl_resting (hlist : Listing inSection list) (tags : List Tag)
    (h : self.Resting inSection) : (tags.foldl list self).Resting inSection := by
  induction tags generalizing self with
  | nil => exact h
  | cons tag tags ih => exact ih (hlist.resting tag h)

theorem turn_start (hlist : Listing inSection list) (h : self.Resting inSection) (tag : Tag) :
    self.turn (.start tag) = (list self tag).deeper :=
  (hlist.opens tag false (deeper_resting h)).trans (hlist.deeper self tag)

/-- Every tag is looked at once. -/
theorem foldl_content (hlist : Listing inSection list) (content : Content)
    (h : self.Resting inSection) :
    (events content).foldl turn self = (tags content).foldl list self := by
  induction content generalizing self with
  | nil => rfl
  | leaf a rest ih =>
      unfold events at ih ⊢
      rw [Nested.foldl_spell_leaf, tags]
      change (Nested.spell markup rest).foldl turn (self.turn a.event) = _
      split
      · rename_i tag htag
        rw [htag, List.foldl_cons]
        change (Nested.spell markup rest).foldl turn (self.openInside tag tag.localName true) = _
        rw [hlist.opens tag true h]
        exact ih (hlist.resting tag h)
      · rename_i hother
        rw [turn_flat h.idle fun tag htag => hother tag htag]
        exact ih h
  | node tag body rest ihbody ihrest =>
      unfold events at ihbody ihrest ⊢
      have hbody := hlist.foldl_resting (tags body) (hlist.resting tag h)
      rw [Nested.foldl_spell_node]
      change (Nested.spell markup rest).foldl turn (((Nested.spell markup body).foldl turn
        (self.turn (.start tag))).turn (.endTag tag.name)) = _
      rw [hlist.turn_start h, ihbody (deeper_resting (hlist.resting tag h)), hlist.foldl_deeper]
      change (Nested.spell markup rest).foldl turn
        (((tags body).foldl list (list self tag)).deeper.close _) = _
      rw [close_deeper hbody, ihrest hbody, tags, List.foldl_cons, List.foldl_append]

end Listing

/-- An element of the manifest. -/
def itemTag (self : PackageParser) (tag : Tag) : PackageParser :=
  if tag.localName = "item" then self.itemListed (manifestItem tag) else self

/-- An element of the spine. -/
def itemrefTag (self : PackageParser) (tag : Tag) : PackageParser :=
  if tag.localName = "itemref" then self.itemrefListed (spineItem tag) else self

/-- Items are listed one by one. -/
theorem itemTag_listing : Listing .manifest itemTag where
  opens := by
    intro self tag empty h
    obtain ⟨package, sawPackage, inSection, depth, sectionDepth, collecting, text, refinements⟩ :=
      self
    obtain rfl : inSection = .manifest := h.inside
    rfl
  deeper := by
    intro self tag
    unfold itemTag
    split <;> rfl
  resting := by
    intro self tag h
    unfold itemTag
    split
    · exact itemListed_resting h _
    · exact h

/-- And so are itemrefs. -/
theorem itemrefTag_listing : Listing .spine itemrefTag where
  opens := by
    intro self tag empty h
    obtain ⟨package, sawPackage, inSection, depth, sectionDepth, collecting, text, refinements⟩ :=
      self
    obtain rfl : inSection = .spine := h.inside
    rfl
  deeper := by
    intro self tag
    unfold itemrefTag
    split <;> rfl
  resting := by
    intro self tag h
    unfold itemrefTag
    split
    · exact itemrefListed_resting h _
    · exact h

theorem foldl_itemTag (tags : List Tag) : tags.foldl itemTag self =
    { self with package.manifest := self.package.manifest ++
        (tags.filter fun tag : Tag => tag.localName = ("item" : Str)).map manifestItem } := by
  rw [← foldl_itemListed, List.foldl_map, List.foldl_filter]
  simp only [decide_eq_true_eq]
  rfl

theorem foldl_itemrefTag (tags : List Tag) : tags.foldl itemrefTag self =
    { self with package.spine := self.package.spine ++
        (tags.filter fun tag : Tag => tag.localName = ("itemref" : Str)).map spineItem } := by
  rw [← foldl_itemrefListed, List.foldl_map, List.foldl_filter]
  simp only [decide_eq_true_eq]
  rfl

/-- A manifest is read tag by tag, at whatever depth the tags stand. -/
theorem foldl_manifest (content : Content) (h : self.Resting .manifest) :
    (events content).foldl turn self =
      { self with package.manifest := self.package.manifest ++ itemsOf content } :=
  (itemTag_listing.foldl_content content h).trans (foldl_itemTag (tags content))

/-- And so is a spine. -/
theorem foldl_spine (content : Content) (h : self.Resting .spine) :
    (events content).foldl turn self =
      { self with package.spine := self.package.spine ++ itemrefsOf content } :=
  (itemrefTag_listing.foldl_content content h).trans (foldl_itemrefTag (tags content))

/-! ## Outside the sections

The induction over a document goes by its outermost sections.  Between two of them the parser is
at rest outside, and the depth at which it last entered a section is all that it remembers of
the ones behind it (`leveled`). -/

theorem gathered_leveled (part : Part) (level : Nat) :
    (self.leveled level).gathered part = (self.gathered part).leveled level := by
  unfold gathered
  split <;> rfl

theorem gathered_deeper (part : Part) : self.deeper.gathered part = (self.gathered part).deeper := by
  unfold gathered
  split <;> rfl

theorem gathered_resting (h : self.Resting .outside) (part : Part) :
    (self.gathered part).Resting .outside := by
  unfold gathered
  split
  · exact h
  · exact ⟨h.started, h.inside, h.level, Desk.read_idle _, Desk.read_blank _⟩
  · exact ⟨h.started, h.inside, h.level, h.idle, h.blank⟩
  · exact ⟨h.started, h.inside, h.level, h.idle, h.blank⟩

theorem foldl_gathered_leveled (parts : List Part) (level : Nat) :
    parts.foldl gathered (self.leveled level) = (parts.foldl gathered self).leveled level := by
  induction parts generalizing self with
  | nil => rfl
  | cons part parts ih => rw [List.foldl_cons, gathered_leveled, ih, List.foldl_cons]

theorem foldl_gathered_releveled (parts : List Part) (level level' : Nat) :
    (parts.foldl gathered (self.leveled level)).leveled level' =
      (parts.foldl gathered self).leveled level' := by
  rw [foldl_gathered_leveled]
  rfl

theorem foldl_gathered_deeper (parts : List Part) :
    parts.foldl gathered self.deeper = (parts.foldl gathered self).deeper := by
  induction parts generalizing self with
  | nil => rfl
  | cons part parts ih => rw [List.foldl_cons, gathered_deeper, ih, List.foldl_cons]

theorem foldl_gathered_resting (h : self.Resting .outside) (parts : List Part) :
    (parts.foldl gathered self).Resting .outside := by
  induction parts generalizing self with
  | nil => exact h
  | cons part parts ih => exact ih (gathered_resting h part)

theorem reading_new (h : self.Resting .outside) : self.reading {} = self := by
  obtain ⟨⟨version, uniqueIdentifierId, metadata, manifest, spine, tocIdref⟩, sawPackage, outer,
    depth, sectionDepth, collecting, text, refinements⟩ := self
  obtain rfl : collecting = none := h.idle
  obtain rfl : text = [] := h.blank
  cases metadata
  simp [reading, coverOf]

/-- The three names, and any other. -/
theorem sectionOf_spec (name : Str) :
    match sectionOf name with
    | .metadata => name = "metadata"
    | .manifest => name = "manifest"
    | .spine => name = "spine"
    | .outside => name ≠ "metadata" ∧ name ≠ "manifest" ∧ name ≠ "spine" := by
  unfold sectionOf
  split_ifs with hmetadata hmanifest hspine
  · exact hmetadata
  · exact hmanifest
  · exact hspine
  · exact ⟨hmetadata, hmanifest, hspine⟩

section Starts

variable {tag : Tag}

theorem entered_resting (h : self.Resting .outside) (inSection : Section) :
    (self.deeper.enter inSection).Resting inSection :=
  ⟨h.started, rfl, fun _ => Nat.le_refl _, h.idle, h.blank⟩

theorem start_outside (h : self.Resting .outside) (hkind : sectionOf tag.localName = .outside) :
    self.turn (.start tag) = self.deeper := by
  have hspec := sectionOf_spec tag.localName
  rw [hkind] at hspec
  obtain ⟨hmetadata, hmanifest, hspine⟩ := hspec
  change self.deeper.openInside tag tag.localName false = self.deeper
  have hinside : self.deeper.inSection = .outside := h.inside
  rw [openInside, hinside]
  exact (if_neg Bool.false_ne_true).trans ((if_neg hmetadata).trans
    ((if_neg hmanifest).trans (if_neg hspine)))

theorem start_metadata (h : self.Resting .outside) (hkind : sectionOf tag.localName = .metadata) :
    self.turn (.start tag) = (self.deeper.enter .metadata).reading {} := by
  have hspec := sectionOf_spec tag.localName
  rw [hkind] at hspec
  have hnew := congrArg (fun parser : PackageParser => parser.deeper.enter .metadata) (reading_new h)
  exact (openInside_metadata h hspec).trans hnew.symm

theorem start_manifest (h : self.Resting .outside) (hkind : sectionOf tag.localName = .manifest) :
    self.turn (.start tag) = self.deeper.enter .manifest := by
  have hspec := sectionOf_spec tag.localName
  rw [hkind] at hspec
  exact openInside_manifest h hspec

theorem start_spine (h : self.Resting .outside) (hkind : sectionOf tag.localName = .spine) :
    self.turn (.start tag) =
      ({ self with package.tocIdref := attributeValue tag "toc" } : PackageParser).deeper.enter
        .spine := by
  have hspec := sectionOf_spec tag.localName
  rw [hkind] at hspec
  exact openInside_spine h hspec

end Starts

/-- A section is entered, read and left. -/
theorem turn_part (h : self.Resting .outside) (tag : Tag) (body : Content)
    (hkind : sectionOf tag.localName ≠ .outside) :
    (((events body).foldl turn (self.turn (.start tag))).turn (.endTag tag.name)) =
      (self.gathered ⟨tag, body⟩).leveled (self.depth + 1) := by
  unfold gathered Part.kind
  dsimp only
  cases hsection : sectionOf tag.localName with
  | outside => exact absurd hsection hkind
  | metadata =>
      rw [start_metadata h hsection, foldl_block body {} rfl (Nat.le_refl _)]
      have hresting : (self.reading (Desk.read body)).Resting .outside :=
        ⟨h.started, h.inside, h.level, Desk.read_idle _, Desk.read_blank _⟩
      exact @close_entered _ .metadata hresting (by decide) (localName tag.name)
  | manifest =>
      rw [start_manifest h hsection, foldl_manifest body (entered_resting h .manifest)]
      have hresting : ({ self with package.manifest := self.package.manifest ++ itemsOf body } :
          PackageParser).Resting .outside := ⟨h.started, h.inside, h.level, h.idle, h.blank⟩
      exact @close_entered _ .manifest hresting (by decide) (localName tag.name)
  | spine =>
      have htoc := setToc_resting h (attributeValue tag "toc")
      rw [start_spine h hsection, foldl_spine body (entered_resting htoc .spine)]
      have hresting : ({ self with
          package.tocIdref := attributeValue tag "toc"
          package.spine := self.package.spine ++ itemrefsOf body } : PackageParser).Resting
            .outside := ⟨h.started, h.inside, h.level, h.idle, h.blank⟩
      exact @close_entered _ .spine hresting (by decide) (localName tag.name)

/-- Outside the sections, a forest is its outermost ones. -/
theorem foldl_outside (content : Content) (h : self.Resting .outside) :
    ∃ level, (events content).foldl turn self =
      ((outermost content).foldl gathered self).leveled level := by
  induction content generalizing self with
  | nil => exact ⟨self.sectionDepth, rfl⟩
  | leaf a rest ih =>
      have hsame : self.turn a.event = self := by
        cases hevent : a.event with
        | empty tag =>
            change self.openInside tag tag.localName true = self
            rw [openInside, h.inside]
            rfl
        | start tag => exact absurd a.flat (by rw [hevent]; exact Bool.false_ne_true)
        | endTag name => exact absurd a.flat (by rw [hevent]; exact Bool.false_ne_true)
        | text | cData | generalRef | docType | other =>
            rw [← hevent]
            exact turn_flat h.idle fun tag htag => by
              rw [hevent] at htag
              cases htag
      unfold events at ih ⊢
      rw [Nested.foldl_spell_leaf]
      change ∃ level, (Nested.spell markup rest).foldl turn (self.turn a.event) = _
      rw [hsame]
      exact ih h
  | node tag body rest ihbody ihrest =>
      unfold events at ihbody ihrest ⊢
      rw [Nested.foldl_spell_node, outermost]
      -- an element of another name is passed through; a section is entered and left again
      by_cases hkind : sectionOf tag.localName = .outside
      · have hstart := start_outside h hkind
        obtain ⟨level, hbody⟩ := ihbody (deeper_resting h)
        have hinner := foldl_gathered_resting h (outermost body)
        obtain ⟨level', hrest⟩ := ihrest (setLevel_resting hinner level)
        refine ⟨level', ?_⟩
        have hclose := close_deeper (setLevel_resting hinner level) (localName tag.name)
        rw [if_pos hkind, List.foldl_append]
        change (Nested.spell markup rest).foldl turn (((Nested.spell markup body).foldl turn
          (self.turn (.start tag))).close (localName tag.name)) = _
        rw [hstart, hbody, foldl_gathered_deeper]
        refine (congrArg ((Nested.spell markup rest).foldl turn) hclose).trans (hrest.trans ?_)
        exact foldl_gathered_releveled (outermost rest) level level'
      · rw [if_neg hkind, List.foldl_cons]
        change ∃ level, (Nested.spell markup rest).foldl turn
          (((events body).foldl turn (self.turn (.start tag))).turn (.endTag tag.name)) = _
        rw [turn_part h tag body hkind]
        have hpart := gathered_resting h ⟨tag, body⟩
        obtain ⟨level, hrest⟩ := ihrest (setLevel_resting hpart (self.depth + 1))
        refine ⟨level, hrest.trans ?_⟩
        exact foldl_gathered_releveled (outermost rest) (self.depth + 1) level

theorem gathered_manifest (part : Part) :
    (self.gathered part).package.manifest = self.package.manifest ++ part.items := by
  unfold gathered Part.items
  cases hkind : part.kind with
  | manifest => rfl
  | outside | metadata | spine => exact (List.append_nil _).symm

theorem gathered_spine (part : Part) :
    (self.gathered part).package.spine = self.package.spine ++ part.itemrefs := by
  unfold gathered Part.itemrefs
  cases hkind : part.kind with
  | spine => rfl
  | outside | metadata | manifest => exact (List.append_nil _).symm

theorem gathered_entries (part : Part) :
    (self.gathered part).package.metadata.entries =
      self.package.metadata.entries ++ part.filed.filterMap entryOf := by
  unfold gathered Part.filed
  cases hkind : part.kind with
  | metadata => rfl
  | outside | manifest | spine => exact (List.append_nil _).symm

theorem gathered_refinements (part : Part) :
    (self.gathered part).refinements = self.refinements ++ part.filed.filterMap heldOf := by
  unfold gathered Part.filed
  cases hkind : part.kind with
  | metadata => rfl
  | outside | manifest | spine => exact (List.append_nil _).symm

theorem gathered_coverId (part : Part) : (self.gathered part).package.metadata.coverId =
    coverOf self.package.metadata.coverId part.cover := by
  unfold gathered Part.cover
  cases hkind : part.kind with
  | metadata => rfl
  | outside | manifest | spine => exact (Desk.coverOf_nil _).symm

theorem foldl_gathered_coverId (parts : List Part) (self : PackageParser) :
    (parts.foldl gathered self).package.metadata.coverId =
      parts.foldl (fun coverId part => coverOf coverId part.cover)
        self.package.metadata.coverId := by
  induction parts generalizing self with
  | nil => rfl
  | cons part parts ih => rw [List.foldl_cons, ih, gathered_coverId, List.foldl_cons]

/-- A list that every section adds to. -/
theorem foldl_gathered {β : Type} {read : PackageParser → List β} {held : Part → List β}
    (hone : ∀ (self : PackageParser) (part : Part), read (self.gathered part) = read self ++ held part)
    (parts : List Part) (self : PackageParser) :
    read (parts.foldl gathered self) = read self ++ parts.flatMap held := by
  induction parts generalizing self with
  | nil => exact (List.append_nil _).symm
  | cons part parts ih => rw [List.foldl_cons, ih, hone, List.append_assoc, List.flatMap_cons]

end PackageParser

end Opf

end GrpcEpub
