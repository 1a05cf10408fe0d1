/-
# `GrpcEpub.Typed` — what the typed fields are read from

A Dublin Core element is filed under its local name and a bare `meta` under its property.
Both go to one list, and the typed fields are read out of that list by name.  So a `meta`
whose property is the name of a Dublin Core element is read as one.

What the elements say is read off the tree of the document (`writtenEntry`, `spokenBy`), and
not off what the parser collects.  The two come apart where an element that is an entry holds
another, or an end tag of its own name: there the parser loses the element or cuts its text.
-/
import GrpcEpub.TopLevel

namespace GrpcEpub

namespace Opf

open Xml Nav

/-- What is filed of a document, in document order. -/
def filedOf (doc : Content) : List Filed := (merged (documentParts doc)).flatMap Part.filed

/-! ## What a document says

Off the tree: its metadata elements, and which of them are Dublin Core elements. -/

/-- The elements of the metadata blocks of a document, each with what it holds. -/
def metadataElements (doc : Content) : List (Tag × Content) :=
  (merged (documentParts doc)).flatMap fun part =>
    if part.kind = .metadata then elements part.body else []

/-- An element's own text. -/
def saying (element : Tag × Content) : Str := (textOf element.2).trim

/-- The texts of the Dublin Core elements of this name. -/
def spokenBy (doc : Content) (name : Str) : List Str :=
  ((metadataElements doc).filter fun element => element.1.localName = name).map saying

def isMeta (element : Tag × Content) : Bool := element.1.localName = ("meta" : Str)

/-- An entry as its own element spells it, without what others say of it. -/
def written (tag : Tag) (name value : Str) : MetaEntry :=
  { element := name, value, id := attributeValue tag "id", scheme := attributeValue tag "scheme"
    refinements := [] }

/-- A Dublin Core element, or a `meta` with a property that refines nothing. -/
def writtenEntry (element : Tag × Content) : Option MetaEntry :=
  if isMeta element then
    if attributeValue element.1 "property" = [] ∨
        (attributeValue element.1 "refines").dropWhile (· = '#') ≠ [] then none
    else some (written element.1 (attributeValue element.1 "property") (saying element))
  else if element.1.localName ∈ dublinCore then
    some (written element.1 element.1.localName (saying element))
  else none

/-- The element makes an entry under this name. -/
def named (name : Str) (element : Tag × Content) : Bool :=
  (writtenEntry element).any fun entry => entry.element = name

/-- A `meta` for the cover. -/
def forCover (element : Tag × Content) : Bool :=
  PackageParser.isCoverMeta element.1 element.1.localName

/-! ## The fields

Each typed field with the name that it is read by. -/

/-- The fields that keep every value, each with its element. -/
def repeatedFields : List (Str × (Metadata → List Str)) :=
  [("title", fun metadata => metadata.titles.map (·.value)),
    ("creator", fun metadata => metadata.creators.map (·.name)),
    ("contributor", fun metadata => metadata.contributors.map (·.name)),
    ("language", Metadata.languages),
    ("subject", Metadata.subjects),
    ("identifier", fun metadata => metadata.identifiers.map (·.value))]

/-- The fields that keep the first value. -/
def firstFields : List (Str × (Metadata → Str)) :=
  [("publisher", Metadata.publisher), ("description", Metadata.description),
    ("date", Metadata.date), ("rights", Metadata.rights), ("source", Metadata.source),
    ("type", Metadata.resourceType), ("format", Metadata.format),
    ("coverage", Metadata.coverage), ("relation", Metadata.relation)]

/-- The typed fields are the values of the Dublin Core elements, and the entries are those
elements and the `meta` with a property. -/
structure FromDublinCore (metadata : Metadata) (doc : Content) : Prop where
  repeated : ∀ field ∈ repeatedFields, field.2 metadata = spokenBy doc field.1
  first : ∀ field ∈ firstFields, field.2 metadata = (spokenBy doc field.1).headD []
  kept : metadata.entries.map MetaEntry.bare = (metadataElements doc).filterMap writtenEntry

/-- No bare `meta` passes for a Dublin Core element, unless it is read past or says the same,
and none with a property is for the cover. -/
structure Apart (doc : Content) : Prop where
  repeated : ∀ field ∈ repeatedFields, ∀ element ∈ metadataElements doc,
    named field.1 element = true → isMeta element = false
  first : ∀ field ∈ firstFields, ∀ element,
    (metadataElements doc).find? (named field.1) = some element → isMeta element = true →
      saying element = (spokenBy doc field.1).headD []
  uncovered : ∀ element ∈ metadataElements doc, forCover element = true →
    writtenEntry element = none

/-- No entry of the document's metadata breaks off another. -/
def FlatMetadata (doc : Content) : Prop :=
  ∀ part ∈ merged (documentParts doc), part.kind = .metadata → Flat part.body

instance decidableFlatMetadata (doc : Content) : Decidable (FlatMetadata doc) :=
  inferInstanceAs (Decidable (∀ part ∈ merged (documentParts doc),
    part.kind = .metadata → Flat part.body))

instance decidableApart (doc : Content) : Decidable (Apart doc) :=
  decidable_of_iff
    ((∀ field ∈ repeatedFields.map Prod.fst, ∀ element ∈ metadataElements doc,
        named field element = true → isMeta element = false) ∧
      (∀ field ∈ firstFields.map Prod.fst, ∀ element ∈ (metadataElements doc).find? (named field),
        isMeta element = true → saying element = (spokenBy doc field).headD []) ∧
      ∀ element ∈ metadataElements doc, forCover element = true → writtenEntry element = none)
    ⟨fun h => ⟨fun field hfield => h.1 field.1 (List.mem_map_of_mem hfield),
        fun field hfield element hfind => h.2.1 field.1 (List.mem_map_of_mem hfield) element hfind,
        h.2.2⟩,
      fun h => ⟨fun name hname => by
          obtain ⟨field, hfield, rfl⟩ := List.mem_map.mp hname
          exact h.repeated field hfield,
        fun name hname => by
          obtain ⟨field, hfield, rfl⟩ := List.mem_map.mp hname
          exact h.first field hfield,
        h.uncovered⟩⟩

/-! ## The entries of a document

What the parser collects, against what the elements say. -/

/-- Refinements change nothing else of an entry. -/
theorem attach_bare (held : List (Str × Refinement)) (entries : List MetaEntry) :
    (held.foldl (fun entries refining => attachRefinement entries refining.1 refining.2)
      entries).map MetaEntry.bare = entries.map MetaEntry.bare := by
  have hone (target : Str) (refinement : Refinement) : ∀ entries : List MetaEntry,
      (attachRefinement entries target refinement).map MetaEntry.bare = entries.map MetaEntry.bare := by
    intro entries
    induction entries with
    | nil => rfl
    | cons entry rest ih =>
        rw [attachRefinement]
        split
        · rfl
        · exact congrArg (MetaEntry.bare entry :: ·) ih
  induction held generalizing entries with
  | nil => rfl
  | cons refining held ih => exact (ih _).trans (hone refining.1 refining.2 entries)

/-- What the parser keeps of an element is what the element says, but for the cover's. -/
theorem entryOf_keeps (element : Tag × Content) :
    (((keeps element.1).map (·, (textOf element.2).trim)).bind entryOf).map MetaEntry.bare =
      if forCover element then none else writtenEntry element := by
  obtain ⟨tag, body⟩ := element
  unfold keeps
  change (((if PackageParser.isCoverMeta tag tag.localName = true then none
    else PackageParser.pendingOf tag tag.localName).map
      (·, (textOf body).trim)).bind entryOf).map MetaEntry.bare =
        if PackageParser.isCoverMeta tag tag.localName = true then none else _
  by_cases hcover : PackageParser.isCoverMeta tag tag.localName = true
  · rw [if_pos hcover, if_pos hcover]
    rfl
  · rw [if_neg hcover, if_neg hcover]
    unfold PackageParser.pendingOf writtenEntry isMeta
    dsimp only
    by_cases hmeta : tag.localName = "meta"
    · rw [if_pos hmeta, if_pos (decide_eq_true hmeta)]
      by_cases hproperty : attributeValue tag "property" = []
      · rw [if_pos hproperty, if_pos (.inl hproperty)]
        rfl
      · rw [if_neg hproperty, Option.map_some, Option.bind_some, entryOf]
        dsimp only
        by_cases hrefines : (attributeValue tag "refines").dropWhile (· = '#') = []
        · rw [if_pos hrefines, if_neg (not_or.mpr ⟨hproperty, not_not.mpr hrefines⟩)]
          rfl
        · rw [if_neg hrefines, if_pos (.inr hrefines)]
          rfl
    · rw [if_neg hmeta, if_neg (fun h => hmeta (of_decide_eq_true h))]
      split
      · rfl
      · rfl

theorem told_entries (content : Content) : ((told content).filterMap entryOf).map MetaEntry.bare =
    (elements content).filterMap fun element =>
      if forCover element then none else writtenEntry element := by
  unfold told
  rw [List.filterMap_filterMap, List.map_filterMap]
  exact List.filterMap_congr fun element _ => entryOf_keeps element

/-- The entries that are read of a flat document are those that its elements say. -/
theorem entries_written {doc : Content} (hflat : FlatMetadata doc) :
    (attachAll (filedOf doc)).map MetaEntry.bare = (metadataElements doc).filterMap fun element =>
      if forCover element then none else writtenEntry element := by
  unfold attachAll filedOf metadataElements
  rw [attach_bare]
  unfold FlatMetadata at hflat
  generalize merged (documentParts doc) = parts at hflat
  induction parts with
  | nil => rfl
  | cons part parts ih =>
      obtain ⟨hpart, hparts⟩ := List.forall_mem_cons.mp hflat
      rw [List.flatMap_cons, List.flatMap_cons, List.filterMap_append, List.filterMap_append,
        List.map_append, ih hparts]
      refine congrArg (· ++ _) ?_
      unfold Part.filed
      by_cases hkind : part.kind = .metadata
      · rw [if_pos hkind, if_pos hkind, Desk.entries_read (hpart hkind)]
        exact told_entries part.body
      · rw [if_neg hkind, if_neg hkind]
        rfl

/-! ## Reading by name

The repeated fields take all entries of a name and the others the first. -/

theorem every_bare (entries : List MetaEntry) (name : Str) :
    every (entries.map MetaEntry.bare) name = every entries name := by
  unfold every
  rw [List.filter_map, List.map_map]
  rfl

theorem first_eq (entries : List MetaEntry) (name : Str) :
    first entries name = (every entries name).headD [] := by
  unfold first every
  induction entries with
  | nil => rfl
  | cons entry rest ih =>
      rw [List.find?_cons, List.filter_cons]
      cases entry.element == name with
      | true => rfl
      | false => exact ih

theorem repeated_derive (metadata : Metadata) : ∀ field ∈ repeatedFields,
    field.2 (derive metadata) = every metadata.entries field.1 := by
  simp [repeatedFields, derive, titlesOf, credited, every]

theorem first_derive (metadata : Metadata) : ∀ field ∈ firstFields,
    field.2 (derive metadata) = first metadata.entries field.1 := by
  simp [firstFields, derive]

/-- The value of an entry is what its element says. -/
theorem writtenEntry_value {element : Tag × Content} {entry : MetaEntry}
    (h : writtenEntry element = some entry) : entry.value = saying element := by
  unfold writtenEntry at h
  split at h
  · split at h
    · cases h
    · exact Option.some.inj h ▸ rfl
  · split at h
    · exact Option.some.inj h ▸ rfl
    · cases h

/-- Of a name, the entries are what the elements of that name say. -/
theorem every_written (elements : List (Tag × Content)) (name : Str) :
    every (elements.filterMap writtenEntry) name = (elements.filter (named name)).map saying := by
  unfold every
  induction elements with
  | nil => rfl
  | cons element rest ih =>
      rw [List.filterMap_cons, List.filter_cons]
      unfold named
      cases hwritten : writtenEntry element with
      | none => exact ih
      | some entry =>
          dsimp only
          rw [List.filter_cons, Option.any_some]
          by_cases hname : entry.element = name
          · rw [if_pos (beq_iff_eq.mpr hname), if_pos (decide_eq_true hname), List.map_cons,
              List.map_cons, ih, writtenEntry_value hwritten]
            rfl
          · rw [if_neg (mt beq_iff_eq.mp hname), if_neg (mt of_decide_eq_true hname), ih]
            rfl

/-! ## What a field says

An entry of a name that no Dublin Core element has said is a `meta`. -/

theorem repeated_core : ∀ field ∈ repeatedFields, field.1 ∈ dublinCore := by
  simp [repeatedFields, dublinCore]

theorem first_core : ∀ field ∈ firstFields, field.1 ∈ dublinCore := by
  simp [firstFields, dublinCore]

section Names

variable {elements : List (Tag × Content)} {name : Str}

/-- A Dublin Core element is what is under its name and is no `meta`. -/
theorem spoken_iff (hcore : name ∈ dublinCore) (element : Tag × Content) :
    element.1.localName = name ↔ named name element = true ∧ isMeta element = false := by
  have hname : name ≠ "meta" := fun heq => meta_not_dublinCore (heq ▸ hcore)
  unfold named writtenEntry
  by_cases hmeta : isMeta element = true
  · have hlocal : element.1.localName = "meta" := of_decide_eq_true hmeta
    exact iff_of_false (fun heq => hname (heq.symm.trans hlocal)) fun hboth =>
      Bool.false_ne_true (hboth.2.symm.trans hmeta)
  · rw [if_neg hmeta]
    constructor
    · rintro rfl
      rw [if_pos hcore]
      exact ⟨decide_eq_true rfl, Bool.eq_false_iff.mpr hmeta⟩
    · rintro ⟨hnamed, -⟩
      split at hnamed
      · exact of_decide_eq_true hnamed
      · cases hnamed

theorem filter_spoken (hcore : name ∈ dublinCore) (elements : List (Tag × Content)) :
    (elements.filter fun element => element.1.localName = name) =
      (elements.filter (named name)).filter fun element => !isMeta element := by
  rw [List.filter_filter]
  refine List.filter_congr fun element _ => ?_
  rw [Bool.eq_iff_iff, decide_eq_true_eq, spoken_iff hcore element]
  simp [and_comm]

/-- All values under a name are spoken when no `meta` is under it. -/
theorem every_spoken_iff (hcore : name ∈ dublinCore) : (elements.filter (named name)).map saying =
    (elements.filter fun element => element.1.localName = name).map saying ↔
      ∀ element ∈ elements, named name element = true → isMeta element = false := by
  rw [filter_spoken hcore]
  constructor
  · intro heq element helement hnamed
    have hlength := congrArg List.length heq
    rw [List.length_map, List.length_map] at hlength
    have hall := (List.filter_sublist.eq_of_length hlength.symm)
    have hkept := List.filter_eq_self.mp hall element (List.mem_filter.mpr ⟨helement, hnamed⟩)
    simpa using hkept
  · intro hnone
    have hall : ((elements.filter (named name)).filter fun element => !isMeta element) =
        elements.filter (named name) := List.filter_eq_self.mpr fun element helement => by
      obtain ⟨helement, hnamed⟩ := List.mem_filter.mp helement
      simp [hnone element helement hnamed]
    rw [hall]

/-- The first value under a name is spoken unless a `meta` that says something else has it. -/
theorem first_spoken_iff (hcore : name ∈ dublinCore) :
    ((elements.filter (named name)).map saying).headD [] =
      ((elements.filter fun element => element.1.localName = name).map saying).headD [] ↔
    ∀ element, elements.find? (named name) = some element → isMeta element = true →
      saying element =
        ((elements.filter fun element => element.1.localName = name).map saying).headD [] := by
  have hspoken := filter_spoken hcore elements
  rw [← List.head?_filter]
  cases hfilter : elements.filter (named name) with
  | nil =>
      rw [hfilter] at hspoken
      rw [hspoken]
      simp
  | cons element rest =>
      constructor
      · intro heq element' hfirst _
        exact Option.some.inj hfirst ▸ heq
      · intro hmeta
        cases hf : isMeta element with
        | true => exact hmeta element rfl hf
        | false =>
            rw [hspoken, hfilter, List.filter_cons, hf]
            rfl

end Names

/-- Nothing is left out only if what is left out is nothing. -/
theorem filterMap_unless_iff {α β : Type} {p : α → Bool} {f : α → Option β} {xs : List α} :
    (xs.filterMap fun x => if p x then none else f x) = xs.filterMap f ↔
      ∀ x ∈ xs, p x = true → f x = none := by
  have hshort (xs : List α) :
      (xs.filterMap fun x => if p x then none else f x).length ≤ (xs.filterMap f).length := by
    induction xs with
    | nil => exact Nat.le_refl _
    | cons x xs ih =>
        rw [List.filterMap_cons, List.filterMap_cons]
        cases p x <;> cases f x <;> simp <;> omega
  induction xs with
  | nil => simp
  | cons x xs ih =>
      rw [List.forall_mem_cons, List.filterMap_cons, List.filterMap_cons]
      cases hp : p x with
      | false => cases f x <;> simpa using ih
      | true =>
          cases hf : f x with
          | none => simpa using ih
          | some y =>
              refine iff_of_false (fun heq => ?_) fun hboth => by simp at hboth
              have hlength := congrArg List.length heq
              have := hshort xs
              simp at hlength
              omega

/-- The typed fields are the values of the Dublin Core elements, and every bare `meta` is kept
as an entry, when none of them passes for a Dublin Core element and no entry breaks off another;
and where no entry does, only then. -/
theorem from_dublin_core_iff {doc : Content} {package : Package}
    (h : parsePackage { events := events doc, stop := .eof } = .ok package) :
    (FlatMetadata doc ∧ Apart doc → FromDublinCore package.metadata doc) ∧
      (FlatMetadata doc → FromDublinCore package.metadata doc → Apart doc) := by
  obtain ⟨hread, hderived, -⟩ := parsePackage_document h
  have hentries (hflat : FlatMetadata doc) : package.metadata.entries.map MetaEntry.bare =
      (metadataElements doc).filterMap fun element =>
        if forCover element then none else writtenEntry element := by
    rw [hread.entries]
    exact entries_written hflat
  have hevery (hkept : package.metadata.entries.map MetaEntry.bare =
      (metadataElements doc).filterMap writtenEntry) (name : Str) :
      every package.metadata.entries name =
        ((metadataElements doc).filter (named name)).map saying := by
    rw [← every_bare, hkept]
    exact every_written _ name
  have hrepeated (hkept : package.metadata.entries.map MetaEntry.bare =
      (metadataElements doc).filterMap writtenEntry) : ∀ field ∈ repeatedFields,
        (field.2 package.metadata = spokenBy doc field.1 ↔ ∀ element ∈ metadataElements doc,
          named field.1 element = true → isMeta element = false) := by
    intro field hfield
    rw [← hderived, repeated_derive package.metadata field hfield, hevery hkept]
    exact every_spoken_iff (repeated_core field hfield)
  have hfirst (hkept : package.metadata.entries.map MetaEntry.bare =
      (metadataElements doc).filterMap writtenEntry) : ∀ field ∈ firstFields,
        (field.2 package.metadata = (spokenBy doc field.1).headD [] ↔
          ∀ element, (metadataElements doc).find? (named field.1) = some element →
            isMeta element = true → saying element = (spokenBy doc field.1).headD []) := by
    intro field hfield
    rw [← hderived, first_derive package.metadata field hfield, first_eq, hevery hkept]
    exact first_spoken_iff (first_core field hfield)
  constructor
  · rintro ⟨hflat, hnone, hsame, huncovered⟩
    have hkept := (hentries hflat).trans (filterMap_unless_iff.mpr huncovered)
    exact ⟨fun field hfield => (hrepeated hkept field hfield).mpr (hnone field hfield),
      fun field hfield => (hfirst hkept field hfield).mpr (hsame field hfield), hkept⟩
  · rintro hflat ⟨hvalues, hvalue, hkept⟩
    exact ⟨fun field hfield => (hrepeated hkept field hfield).mp (hvalues field hfield),
      fun field hfield => (hfirst hkept field hfield).mp (hvalue field hfield),
      filterMap_unless_iff.mp ((hentries hflat).symm.trans hkept)⟩

/-! ## A series title

A `meta` whose property is `title`, and a title that the parser loses. -/

/-- A package with this metadata. -/
def packageOf (metadata : Content) : Content :=
  .node (plainTag "package")
    (.node (plainTag "metadata") metadata
      (.node (plainTag "spine") (hollow (attributed "itemref" [("idref", "one")]) .nil) .nil))
    .nil

/-- A book that says which series it is from. -/
def seriesBook : Content :=
  packageOf (spoken (attributed "meta" [("property", "title")]) "The Series"
    (spoken (plainTag "dc:title") "The Book" .nil))

/-- A book whose title has a `meta` in it. -/
def brokenTitle : Content :=
  packageOf (.node (plainTag "dc:title")
    (.leaf ⟨.text "The Book", isFlat_text _⟩
      (spoken (attributed "meta" [("property", "x")]) "y" .nil)) .nil)

/-- Titles that are read, when the Dublin Core elements say something else. -/
theorem titles_elsewhere {doc : Content} {titles : List Str}
    (hread : (parsePackage { events := events doc, stop := .eof }).map
      (fun package => package.metadata.titles.map (·.value)) = .ok titles)
    (hspoken : spokenBy doc "title" ≠ titles) : ∃ package,
      parsePackage { events := events doc, stop := .eof } = .ok package ∧
        package.metadata.titles.map (·.value) = titles ∧ ¬ FromDublinCore package.metadata doc := by
  cases hparse : parsePackage { events := events doc, stop := .eof } with
  | error e =>
      rw [hparse] at hread
      cases hread
  | ok package =>
      rw [hparse] at hread
      have htitles := Except.ok.inj hread
      exact ⟨package, rfl, htitles, fun hcore =>
        hspoken ((hcore.repeated _ (.head _)).symm.trans htitles)⟩

/-- A `meta` is read as a title, and one in a title takes its place. -/
theorem series_read_as_title :
    (∃ package, parsePackage { events := events seriesBook, stop := .eof } = .ok package ∧
      package.metadata.titles.map (·.value) = ["The Series", "The Book"] ∧
      ¬ FromDublinCore package.metadata seriesBook) ∧
    ∃ package, parsePackage { events := events brokenTitle, stop := .eof } = .ok package ∧
      package.metadata.titles.map (·.value) = [] ∧
      ¬ FromDublinCore package.metadata brokenTitle :=
  ⟨titles_elsewhere (by decide +kernel) (by decide +kernel),
    titles_elsewhere (by decide +kernel) (by decide +kernel)⟩

/-- A book with a property of its producer's. -/
def inventiveBook : Content :=
  packageOf (spoken (plainTag "dc:title") "The Book"
    (spoken (attributed "meta" [("property", "shelf")]) "left" .nil))

theorem from_dublin_core_plain : ∃ package,
    parsePackage { events := events inventiveBook, stop := .eof } = .ok package ∧
      FromDublinCore package.metadata inventiveBook := by
  have hread : (parsePackage { events := events inventiveBook, stop := .eof }).map
      (fun package => package.metadata.title) = .ok "The Book" := by decide +kernel
  cases hparse : parsePackage { events := events inventiveBook, stop := .eof } with
  | error e =>
      rw [hparse] at hread
      cases hread
  | ok package =>
      exact ⟨package, rfl, (from_dublin_core_iff hparse).1 ⟨by decide +kernel, by decide +kernel⟩⟩

end Opf

end GrpcEpub
