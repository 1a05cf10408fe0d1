/-
# `GrpcEpub.TopLevel` — the package's own sections, and others

The sections of a document are those directly inside the package and those that stand
elsewhere: deeper, behind it, or in one of its own.  All of them are read, in document order:
a section in a section is read as if what it holds were the outer one's.  So a package is what
its own sections say, without the sections in them, exactly when the others add nothing to
what is kept of them.

Where a section stands in the very element that is being collected, its text would become
that element's.  `Muted` documents have nothing of the kind.
-/
import GrpcEpub.Lib.Effect
import GrpcEpub.Elements

namespace GrpcEpub

namespace Opf

open Xml Nav

/-! ## A whole document

The outermost sections of a document in order, those of the package on the left and the others
on the right.  Between them the parser rests, at the depth where it last entered a section. -/

/-- Of what a package holds, its own sections on the left, and on the right those that stand
deeper. -/
def placed : Content → List (Part ⊕ Part)
  | .nil => []
  | .leaf _ rest => placed rest
  | .node tag body rest =>
      (if sectionOf tag.localName = .outside then (outermost body).map .inr
        else [.inl ⟨tag, body⟩]) ++ placed rest

/-- Of a whole document: the first element is the package. -/
def documentParts : Content → List (Part ⊕ Part)
  | .nil => []
  | .leaf a rest =>
      match a.event with
      | .empty _ => (outermost rest).map .inr
      | _ => documentParts rest
  | .node _ body rest => placed body ++ (outermost rest).map .inr

/-- Without the sections in it. -/
def pruned : Content → Content
  | .nil => .nil
  | .leaf a rest => .leaf a (pruned rest)
  | .node tag body rest =>
      if sectionOf tag.localName = .outside then .node tag (pruned body) (pruned rest)
      else pruned rest

namespace Part

/-- What a section holds itself. -/
def own (part : Part) : Part := { part with body := pruned part.body }

/-- What the sections in it hold, which is read as if the section did. -/
def nested (part : Part) : List Part :=
  (outermost part.body).map fun inner => { part with body := inner.body }

end Part

/-- The sections that are direct children of the package. -/
def topLevel (doc : Content) : List Part := (lefts (documentParts doc)).map Part.own

/-- The other sections that are read. -/
def stray (doc : Content) : List Part :=
  rights (documentParts doc) ++ (lefts (documentParts doc)).flatMap Part.nested

/-- What there is, whichever it is. -/
def merged {β : Type} (xs : List (β ⊕ β)) : List β := xs.map (Sum.elim id id)

section Merged

variable {β : Type}

@[simp] theorem merged_append (xs ys : List (β ⊕ β)) : merged (xs ++ ys) = merged xs ++ merged ys :=
  List.map_append

@[simp] theorem merged_own (xs : List β) : merged (xs.map .inl) = xs := by
  unfold merged
  rw [List.map_map]
  exact List.map_id' xs

@[simp] theorem merged_stray (xs : List β) : merged (xs.map .inr) = xs := by
  unfold merged
  rw [List.map_map]
  exact List.map_id' xs

end Merged

theorem merged_placed (content : Content) : merged (placed content) = outermost content := by
  induction content with
  | nil => rfl
  | leaf a rest ih => exact ih
  | node tag body rest ihbody ihrest =>
      rw [placed, outermost, merged, List.map_append]
      by_cases hkind : sectionOf tag.localName = .outside
      · rw [if_pos hkind, if_pos hkind]
        exact congr (congrArg _ (merged_stray _)) ihrest
      · rw [if_neg hkind, if_neg hkind]
        exact congrArg _ ihrest

namespace PackageParser

variable {self parser : PackageParser}

/-- At this depth, having entered its last section at that. -/
def laid (self : PackageParser) (depth sectionDepth : Nat) : PackageParser :=
  { self with depth, sectionDepth }

theorem gathered_laid (part : Part) (depth level : Nat) :
    (self.laid depth level).gathered part = (self.gathered part).laid depth level := by
  unfold gathered
  split <;> rfl

theorem foldl_gathered_laid (parts : List Part) (depth level : Nat) :
    parts.foldl gathered (self.laid depth level) = (parts.foldl gathered self).laid depth level := by
  induction parts generalizing self with
  | nil => rfl
  | cons part parts ih => rw [List.foldl_cons, gathered_laid, ih, List.foldl_cons]

theorem foldlM_outside {content : Content} (h : self.Resting .outside)
    (hrun : (events content).foldlM step self = .ok parser) :
    ∃ level, parser = ((outermost content).foldl gathered self).leveled level := by
  rw [foldlM_turn h.started] at hrun
  split at hrun
  · obtain ⟨level, hlast⟩ := foldl_outside content h
    exact ⟨level, (Except.ok.inj hrun).symm.trans hlast⟩
  · cases hrun

/-- The first tag is the root's. -/
theorem openTag_first (root : Tag) (empty : Bool) : ∃ depth, openTag {} root empty =
    if root.localName = "package" then
      .ok ((rooted (attributeValue root "version") (attributeValue root "unique-identifier")).laid
        depth 0)
    else .error .notAPackage := by
  refine ⟨if empty then 0 else 1, ?_⟩
  by_cases hname : root.localName = "package"
  · rw [if_pos hname]
    cases empty with
    | false => exact if_neg fun hne => hne hname
    | true => exact if_neg fun hne => hne hname
  · rw [if_neg hname]
    cases empty with
    | false => exact if_pos hname
    | true => exact if_pos hname

theorem openTag_root {root : Tag} {empty : Bool} (h : openTag {} root empty = .ok parser) :
    ∃ depth, parser = (rooted (attributeValue root "version")
      (attributeValue root "unique-identifier")).laid depth 0 := by
  obtain ⟨depth, hopen⟩ := openTag_first root empty
  rw [hopen] at h
  split at h
  · exact ⟨depth, (Except.ok.inj h).symm⟩
  · cases h

theorem resting_laid (h : self.Resting .outside) (depth level : Nat) :
    (self.laid depth level).Resting .outside :=
  ⟨h.started, h.inside, fun hne => absurd h.inside hne, h.idle, h.blank⟩

theorem close_laid (h : self.Resting .outside) (depth level : Nat) (name : Str) :
    (self.laid depth level).close name = self.laid (depth - 1) level :=
  close_outside (resting_laid h depth level) name

/-- Behind the root's start tag the parser rests outside the sections. -/
theorem laid_resting (version uniqueIdentifierId : Str) (depth : Nat) :
    ((rooted version uniqueIdentifierId).laid depth 0).Resting .outside :=
  ⟨rfl, rfl, fun hne => absurd rfl hne, rfl, rfl⟩

end PackageParser

/-- What a run of the loop ends with: nothing, or what the sections of the document give. -/
theorem foldlM_document {doc : Content} {parser : PackageParser}
    (h : (events doc).foldlM PackageParser.step {} = .ok parser) :
    parser = {} ∨ ∃ version uniqueIdentifierId depth level,
      parser = ((merged (documentParts doc)).foldl PackageParser.gathered
        (rooted version uniqueIdentifierId)).laid depth level := by
  induction doc with
  | nil => exact .inl (Except.ok.inj h).symm
  | leaf a rest ih =>
      obtain ⟨event, hflat⟩ := a
      obtain ⟨p, hstep, hrest⟩ := Except.bind_ok h
      cases event with
      | start tag => cases hflat
      | endTag name => cases hflat
      -- an empty root: nothing is inside it, and all that follows is stray
      | empty root =>
          obtain ⟨depth, rfl⟩ := @PackageParser.openTag_root p root true hstep
          obtain ⟨level, rfl⟩ := PackageParser.foldlM_outside
            (PackageParser.laid_resting _ _ depth) hrest
          refine .inr ⟨attributeValue root "version", attributeValue root "unique-identifier",
            depth, level, ?_⟩
          rw [PackageParser.foldl_gathered_laid, documentParts, merged_stray]
          rfl
      | text content => exact ih (Except.ok.inj hstep ▸ hrest)
      | cData content => exact ih (Except.ok.inj hstep ▸ hrest)
      | generalRef reference => exact ih (Except.ok.inj hstep ▸ hrest)
      | other => exact ih (Except.ok.inj hstep ▸ hrest)
      | docType dtd =>
          have hsame := (PackageParser.step_docType dtd).symm.trans hstep
          split at hsame
          · exact ih (Except.ok.inj hsame ▸ hrest)
          · cases hsame
  | node root body rest _ _ =>
      -- the root, what is inside it, its end, and what is behind it
      obtain ⟨p, hstep, hinner⟩ := Except.bind_ok h
      obtain ⟨depth, rfl⟩ := @PackageParser.openTag_root p root false hstep
      rw [List.foldlM_append] at hinner
      obtain ⟨q, hbody, hbehind⟩ := Except.bind_ok hinner
      obtain ⟨level, rfl⟩ := PackageParser.foldlM_outside
        (PackageParser.laid_resting _ _ depth) hbody
      obtain ⟨r, hclose, hrest⟩ := Except.bind_ok hbehind
      rw [PackageParser.foldl_gathered_laid] at hclose
      have hread := PackageParser.foldl_gathered_resting (rooted_resting
        (attributeValue root "version") (attributeValue root "unique-identifier")) (outermost body)
      obtain rfl := (PackageParser.close_laid hread depth level _).symm.trans (Except.ok.inj hclose)
      obtain ⟨level', rfl⟩ := PackageParser.foldlM_outside
        (PackageParser.resting_laid hread (depth - 1) level) hrest
      refine .inr ⟨attributeValue root "version", attributeValue root "unique-identifier",
        depth - 1, level', ?_⟩
      rw [documentParts, merged_append, merged_placed, merged_stray, List.foldl_append,
        PackageParser.foldl_gathered_laid]
      rfl

/-! ## The package

What a package is, from the sections it is read from, and that `parse_package` of a document
gives it from all of them. -/

/-- The entries among what was filed, with their refinements. -/
def attachAll (filed : List Filed) : List MetaEntry :=
  (filed.filterMap heldOf).foldl
    (fun entries refining => attachRefinement entries refining.1 refining.2)
    (filed.filterMap entryOf)

/-- What is kept of a package comes from these sections, and from nothing else. -/
structure ReadFrom (package : Package) (parts : List Part) : Prop where
  manifest : package.manifest = parts.flatMap Part.items
  spine : package.spine = parts.flatMap Part.itemrefs
  entries : package.metadata.entries = attachAll (parts.flatMap Part.filed)

theorem flatMap_filed {β : Type} (f : Filed → Option β) (parts : List Part) :
    parts.flatMap (fun part => part.filed.filterMap f) = (parts.flatMap Part.filed).filterMap f := by
  induction parts with
  | nil => rfl
  | cons part parts ih => rw [List.flatMap_cons, ih, List.flatMap_cons, List.filterMap_append]

/-- The cover that is named first. -/
def coverIdOf (parts : List Part) : Str :=
  parts.foldl (fun coverId part => coverOf coverId part.cover) []

/-- A package is read from all the sections of its document. -/
theorem parsePackage_document {doc : Content} {package : Package}
    (h : parsePackage { events := events doc, stop := .eof } = .ok package) :
    ReadFrom package (merged (documentParts doc)) ∧ derive package.metadata = package.metadata ∧
      package.metadata.coverId = coverIdOf (merged (documentParts doc)) := by
  obtain ⟨parser, hrun, hend⟩ := Except.bind_ok h
  rcases foldlM_document hrun with rfl | ⟨version, uniqueIdentifierId, depth, level, rfl⟩
  · cases hend
  generalize hparts : merged (documentParts doc) = parts at hend
  have hmanifest := @PackageParser.foldl_gathered _ (·.package.manifest) _
    (fun self part => @PackageParser.gathered_manifest self part) parts
    (rooted version uniqueIdentifierId)
  have hspine := @PackageParser.foldl_gathered _ (·.package.spine) _
    (fun self part => @PackageParser.gathered_spine self part) parts
    (rooted version uniqueIdentifierId)
  have hentries := @PackageParser.foldl_gathered _ (·.package.metadata.entries) _
    (fun self part => @PackageParser.gathered_entries self part) parts
    (rooted version uniqueIdentifierId)
  have hheld := @PackageParser.foldl_gathered _ (·.refinements) _
    (fun self part => @PackageParser.gathered_refinements self part) parts
    (rooted version uniqueIdentifierId)
  have hcover := PackageParser.foldl_gathered_coverId parts (rooted version uniqueIdentifierId)
  rw [flatMap_filed] at hentries hheld
  generalize parts.foldl PackageParser.gathered (rooted version uniqueIdentifierId) = parser
    at hend hmanifest hspine hentries hheld hcover
  obtain ⟨ended, hfinish, hlast⟩ := Except.bind_ok hend
  obtain rfl := Except.ok.inj hfinish
  split at hlast
  · cases hlast
  split at hlast
  · cases hlast
  obtain rfl := Except.ok.inj hlast
  refine ⟨⟨hmanifest, hspine, ?_⟩, rfl, hcover⟩
  have hattached : (parser.laid depth level).finishMetadata.metadata.entries =
      parser.refinements.foldl
        (fun entries refining => attachRefinement entries refining.1 refining.2)
        parser.package.metadata.entries := rfl
  rw [hattached, hheld, hentries]
  rfl

/-! ## Sections in a section

`Part.own` and `Part.nested` share what is listed in a section, and nothing is lost or read twice
by it (`Splits`).  For items and itemrefs that is counting of tags. -/

/-- What is read of a section is read of what it holds itself, and of the sections in it. -/
def Splits {β : Type} (f : Part → List β) (part : Part) : Prop :=
  ∃ xs : List (β ⊕ β), merged xs = f part ∧ lefts xs = f part.own ∧ rights xs = part.nested.flatMap f

section Listings

variable {β : Type} {isListed : Tag → Bool} {list : Tag → β}

/-- The tags of a section, without those of the sections in it, and theirs. -/
theorem splits_tags (hlisted : ∀ tag, sectionOf tag.localName ≠ .outside → isListed tag = false)
    (content : Content) : ∃ xs : List (β ⊕ β),
      merged xs = ((tags content).filter isListed).map list ∧
      lefts xs = ((tags (pruned content)).filter isListed).map list ∧
      rights xs = (outermost content).flatMap fun inner =>
        ((tags inner.body).filter isListed).map list := by
  have hone (tag : Tag) (rest : List Tag) : ((tag :: rest).filter isListed).map list =
      (([tag].filter isListed).map list) ++ (rest.filter isListed).map list := by
    rw [← List.map_append, ← List.filter_append]
    rfl
  induction content with
  | nil => exact ⟨[], rfl, rfl, rfl⟩
  | leaf a rest ih =>
      obtain ⟨xs, hmerged, hlefts, hrights⟩ := ih
      rw [tags, pruned, tags, outermost]
      split
      · rename_i tag _
        refine ⟨(([tag].filter isListed).map list).map .inl ++ xs, ?_, ?_, ?_⟩
        · rw [hone tag (tags rest), merged_append, merged_own, hmerged]
        · rw [hone tag (tags (pruned rest)), lefts_append, lefts_inl, hlefts]
        · rw [rights_append, rights_inl, hrights, List.nil_append]
      · exact ⟨xs, hmerged, hlefts, hrights⟩
  | node tag body rest ihbody ihrest =>
      obtain ⟨xs, hmerged, hlefts, hrights⟩ := ihrest
      rw [tags, pruned, outermost, hone tag (tags body ++ tags rest), List.filter_append,
        List.map_append]
      by_cases hkind : sectionOf tag.localName = .outside
      · obtain ⟨ys, hmerged', hlefts', hrights'⟩ := ihbody
        rw [if_pos hkind, if_pos hkind, tags, hone tag (tags (pruned body) ++ tags (pruned rest)),
          List.filter_append, List.map_append]
        refine ⟨(([tag].filter isListed).map list).map .inl ++ (ys ++ xs), ?_, ?_, ?_⟩
        · rw [merged_append, merged_append, merged_own, hmerged, hmerged']
        · rw [lefts_append, lefts_append, lefts_inl, hlefts, hlefts']
        · rw [rights_append, rights_append, rights_inl, hrights, hrights', List.nil_append,
            List.flatMap_append]
      · rw [if_neg hkind, if_neg hkind, List.filter_singleton, hlisted tag hkind]
        refine ⟨(((tags body).filter isListed).map list).map .inr ++ xs, ?_, ?_, ?_⟩
        · rw [merged_append, merged_stray, hmerged]
          rfl
        · rw [lefts_append, lefts_inr, hlefts, List.nil_append]
        · rw [rights_append, rights_inr, hrights, List.flatMap_cons]

end Listings

theorem splits_of_nil {β : Type} {f : Part → List β} {part : Part}
    (h : ∀ body, f { part with body } = []) : Splits f part := by
  refine ⟨[], (h part.body).symm, (h _).symm, ?_⟩
  refine (List.flatMap_eq_nil_iff.mpr fun inner hinner => ?_).symm
  obtain ⟨deeper, -, rfl⟩ := List.mem_map.mp hinner
  exact h deeper.body

theorem flatMap_nested {β : Type} (f : Part → List β) (part : Part) : part.nested.flatMap f =
    (outermost part.body).flatMap fun inner => f { part with body := inner.body } := by
  unfold Part.nested
  exact List.flatMap_map ..

theorem section_unlisted {name : Str} (hname : sectionOf name = .outside) (tag : Tag)
    (h : sectionOf tag.localName ≠ .outside) : decide (tag.localName = name) = false :=
  decide_eq_false fun heq => h (heq ▸ hname)

theorem splits_items (part : Part) : Splits Part.items part := by
  by_cases hkind : part.kind = .manifest
  · have hitems (body : Content) : Part.items { part with body } = itemsOf body := if_pos hkind
    obtain ⟨xs, hmerged, hlefts, hrights⟩ := @splits_tags _ _ PackageParser.manifestItem
      (@section_unlisted "item" (by decide)) part.body
    refine ⟨xs, hmerged.trans (hitems _).symm, hlefts.trans (hitems _).symm, ?_⟩
    rw [flatMap_nested]
    exact hrights.trans (List.flatMap_congr fun inner _ => (hitems inner.body).symm)
  · exact splits_of_nil fun body => if_neg hkind

theorem splits_itemrefs (part : Part) : Splits Part.itemrefs part := by
  by_cases hkind : part.kind = .spine
  · have hitemrefs (body : Content) : Part.itemrefs { part with body } = itemrefsOf body :=
      if_pos hkind
    obtain ⟨xs, hmerged, hlefts, hrights⟩ := @splits_tags _ _ PackageParser.spineItem
      (@section_unlisted "itemref" (by decide)) part.body
    refine ⟨xs, hmerged.trans (hitemrefs _).symm, hlefts.trans (hitemrefs _).symm, ?_⟩
    rw [flatMap_nested]
    exact hrights.trans (List.flatMap_congr fun inner _ => (hitemrefs inner.body).symm)
  · exact splits_of_nil fun body => if_neg hkind

/-! ## Sections in a metadata block

Here an element is collected over several events, so a section that stands in one could change
it.  Two desks are run side by side: one reads the block with its sections, the other without,
and what they file differs by what the sections file.  Where a section stands in an element that
is being collected, it has to be `Mute` for that. -/

/-- Nothing in it is heard while an element of this name is collected. -/
structure Mute (name : Str) (content : Content) : Prop where
  unbroken : Unbroken name content
  wordless : textOf content = []

/-- In an element, what is collected is the element itself if it is kept. -/
def collectedIn (collected : Option Str) (tag : Tag) : Option Str :=
  if (keeps tag).isSome then some tag.localName else collected

/-- No section that stands in a kept element is heard there. -/
def Unheard : Option Str → Content → Prop
  | _, .nil => True
  | collected, .leaf _ rest => Unheard collected rest
  | collected, .node tag body rest =>
      (if sectionOf tag.localName = .outside then Unheard (collectedIn collected tag) body
        else ∀ name ∈ collected, Mute name body) ∧ Unheard collected rest

/-- No section of the package's own metadata that stands in a kept element is heard there. -/
def Muted (doc : Content) : Prop :=
  ∀ part ∈ lefts (documentParts doc), part.kind = .metadata → Unheard none part.body

instance decidableMute (name : Str) (content : Content) : Decidable (Mute name content) :=
  decidable_of_iff (Unbroken name content ∧ textOf content = [])
    ⟨fun h => ⟨h.1, h.2⟩, fun h => ⟨h.1, h.2⟩⟩

instance decidableUnheard : (collected : Option Str) → (content : Content) →
    Decidable (Unheard collected content)
  | _, .nil => .isTrue trivial
  | collected, .leaf _ rest => decidableUnheard collected rest
  | collected, .node tag body rest =>
      have := decidableUnheard (collectedIn collected tag) body
      have := decidableUnheard collected rest
      inferInstanceAs (Decidable ((if sectionOf tag.localName = .outside
        then Unheard (collectedIn collected tag) body else ∀ name ∈ collected, Mute name body) ∧
          Unheard collected rest))

instance decidableMuted (doc : Content) : Decidable (Muted doc) :=
  inferInstanceAs (Decidable (∀ part ∈ lefts (documentParts doc),
    part.kind = .metadata → Unheard none part.body))

/-- A kept element is a Dublin Core element or a `meta`, and no section. -/
theorem keeps_name {tag : Tag} {pending : Pending} (h : keeps tag = some pending) :
    pending.localName = tag.localName ∧ sectionOf tag.localName = .outside := by
  unfold keeps at h
  split at h
  · cases h
  refine ⟨Desk.pendingOf_name h, ?_⟩
  have hcore : ∀ name ∈ dublinCore, sectionOf name = .outside := by decide +kernel
  rcases pendingOf_cases h with hmeta | hin
  · rw [hmeta]
    decide +kernel
  · exact hcore _ hin

theorem section_unkept {tag : Tag} (h : sectionOf tag.localName ≠ .outside) : keeps tag = none := by
  cases hkeeps : keeps tag with
  | none => rfl
  | some pending => exact absurd (keeps_name hkeeps).2 h

namespace Desk

variable {self self' : Desk}

/-- Two desks at the same point of the same element. -/
structure Agrees (desk desk' : Desk) : Prop where
  collecting : desk.collecting = desk'.collecting
  text : desk.text = desk'.text

/-- A tag files the same on both desks. -/
theorem Agrees.opened (h : self.Agrees self') (tag : Tag) (empty : Bool) : ∃ filed,
    (self.opened tag empty).filed = self.filed ++ filed ∧
      (self'.opened tag empty).filed = self'.filed ++ filed ∧
      (self.opened tag empty).Agrees (self'.opened tag empty) := by
  cases hkeeps : keeps tag with
  | none =>
      obtain ⟨cover, hopened⟩ := @opened_nothing self tag hkeeps empty
      obtain ⟨cover', hopened'⟩ := @opened_nothing self' tag hkeeps empty
      rw [hopened, hopened']
      exact ⟨[], (List.append_nil _).symm, (List.append_nil _).symm, h.collecting, h.text⟩
  | some pending =>
      rw [(@opened_kept self tag pending hkeeps empty).2,
        (@opened_kept self' tag pending hkeeps empty).2]
      cases empty with
      | true => exact ⟨[(pending, [])], rfl, rfl, h.collecting, rfl⟩
      | false => exact ⟨[], (List.append_nil _).symm, (List.append_nil _).symm, rfl, rfl⟩

/-- And so does its end. -/
theorem Agrees.closed (h : self.Agrees self') (name : Str) : ∃ filed,
    (self.closed name).filed = self.filed ++ filed ∧
      (self'.closed name).filed = self'.filed ++ filed ∧
      (self.closed name).Agrees (self'.closed name) := by
  unfold Desk.closed
  rw [← h.collecting, ← h.text]
  cases hcollecting : self.collecting with
  | none => exact ⟨[], (List.append_nil _).symm, (List.append_nil _).symm, h⟩
  | some pending =>
      dsimp only
      split
      · exact ⟨_, rfl, rfl, rfl, rfl⟩
      · exact ⟨[], (List.append_nil _).symm, (List.append_nil _).symm, h⟩

/-- The same event adds the same to both. -/
theorem Agrees.turn (h : self.Agrees self') (event : XmlEvent) : ∃ filed,
    (self.turn event).filed = self.filed ++ filed ∧
      (self'.turn event).filed = self'.filed ++ filed ∧
      (self.turn event).Agrees (self'.turn event) := by
  have hcollect (text : Str) : ∃ filed, (self.collect text).filed = self.filed ++ filed ∧
      (self'.collect text).filed = self'.filed ++ filed ∧
        (self.collect text).Agrees (self'.collect text) := by
    unfold collect
    rw [← h.collecting]
    split
    · exact ⟨[], (List.append_nil _).symm, (List.append_nil _).symm, rfl, rfl⟩
    · exact ⟨[], (List.append_nil _).symm, (List.append_nil _).symm, h⟩
  cases event with
  | start tag => exact h.opened tag false
  | empty tag => exact h.opened tag true
  | endTag name => exact h.closed (localName name)
  | text content =>
      unfold Desk.turn
      rw [← h.text]
      exact hcollect _
  | cData content =>
      unfold Desk.turn
      rw [← h.text]
      exact hcollect _
  | generalRef reference =>
      unfold Desk.turn
      rw [← h.text]
      exact hcollect _
  | docType | other => exact ⟨[], (List.append_nil _).symm, (List.append_nil _).symm, h⟩

theorem Agrees.foldl (h : self.Agrees self') (events : List XmlEvent) : ∃ filed,
    (events.foldl Desk.turn self).filed = self.filed ++ filed ∧
      (events.foldl Desk.turn self').filed = self'.filed ++ filed ∧
      (events.foldl Desk.turn self).Agrees (events.foldl Desk.turn self') := by
  induction events generalizing self self' with
  | nil => exact ⟨[], (List.append_nil _).symm, (List.append_nil _).symm, h⟩
  | cons event rest ih =>
      obtain ⟨filed, hfirst, hfirst', hagree⟩ := h.turn event
      obtain ⟨more, hrest, hrest', hlast⟩ := ih hagree
      refine ⟨filed ++ more, ?_, ?_, hlast⟩
      · rw [List.foldl_cons, hrest, hfirst, List.append_assoc]
      · rw [List.foldl_cons, hrest', hfirst', List.append_assoc]

/-- A desk that collects nothing but the element that is around it. -/
structure At (collected : Option Str) (desk : Desk) : Prop where
  inside : ∀ pending ∈ desk.collecting,
    collected = some pending.localName ∧ sectionOf pending.localName = .outside
  tidy : desk.Tidy

/-- Behind some content, a desk is where it was. -/
theorem At.behind {collected : Option Str} (h : self.At collected) {events : List XmlEvent}
    (hcollecting : (events.foldl Desk.turn self).collecting = self.collecting ∨
      (events.foldl Desk.turn self).collecting = none) :
    (events.foldl Desk.turn self).At collected := by
  refine ⟨fun pending hin => ?_, foldl_tidy h.tidy events⟩
  rcases hcollecting with hsame | hnone
  · exact h.inside pending (hsame ▸ hin)
  · rw [hnone] at hin
    cases hin

/-- A tag may begin to be collected, and nothing else. -/
theorem At.opened {collected : Option Str} (h : self.At collected) (tag : Tag) :
    (self.turn (.start tag)).At (collectedIn collected tag) := by
  refine ⟨fun pending hin => ?_, turn_tidy h.tidy (.start tag)⟩
  change pending ∈ (self.opened tag false).collecting at hin
  unfold collectedIn
  cases hkeeps : keeps tag with
  | none =>
      obtain ⟨cover, hopened⟩ := @opened_nothing self tag hkeeps false
      rw [hopened] at hin
      exact h.inside pending hin
  | some kept =>
      rw [(@opened_kept self tag kept hkeeps false).2] at hin
      obtain rfl := Option.some.inj hin
      obtain ⟨hname, hkind⟩ := keeps_name hkeeps
      exact ⟨congrArg some hname.symm, hname ▸ hkind⟩

/-- A section in a metadata block is read as if the block held what it holds: on its own, or
not at all where it stands in an element that is being collected. -/
theorem foldl_section {collected : Option Str} (hat : self.At collected) {tag : Tag} {body : Content}
    (hkind : sectionOf tag.localName ≠ .outside) (hmute : ∀ name ∈ collected, Mute name body) :
    (((events body).foldl turn (self.turn (.start tag))).turn (.endTag tag.name)).Agrees self ∧
      (((events body).foldl turn (self.turn (.start tag))).turn (.endTag tag.name)).filed =
        self.filed ++ (read body).filed := by
  obtain ⟨cover, hopened⟩ := @opened_nothing self tag (section_unkept hkind) false
  change (((events body).foldl turn (self.opened tag false)).closed tag.localName).Agrees self ∧
    (((events body).foldl turn (self.opened tag false)).closed tag.localName).filed = _
  rw [hopened]
  rcases Option.eq_none_or_eq_some self.collecting with hcollecting | ⟨pending, hcollecting⟩
  · have htext : self.text = [] := hat.tidy hcollecting
    have hnew : Agrees { self with cover } {} := ⟨hcollecting, htext⟩
    obtain ⟨filed, hfull, hread, hagree⟩ := hnew.foldl (events body)
    have hidle : ((events body).foldl turn { self with cover }).collecting = none :=
      hagree.collecting.trans (read_idle body)
    rw [closed_other fun _ hin => absurd (hidle ▸ hin) (Option.not_mem_none _)]
    refine ⟨⟨hidle.trans hcollecting.symm, ?_⟩, ?_⟩
    · exact (hagree.text.trans (read_blank body)).trans htext.symm
    · rw [hfull]
      exact congrArg _ hread.symm
  · have hquiet := hmute pending.localName (hat.inside pending hcollecting).1
    obtain ⟨cover', hbody⟩ := @foldl_unbroken { self with cover } body pending hcollecting
      hquiet.unbroken
    have htext : (events body).foldl gather self.text = self.text := by
      rw [foldl_gather]
      exact (congrArg _ hquiet.wordless).trans (List.append_nil _)
    have hother : ∀ kept ∈ self.collecting, kept.localName ≠ tag.localName :=
      fun kept hkept heq => hkind (heq ▸ (hat.inside kept hkept).2)
    obtain ⟨cover'', hread⟩ := @foldl_nothing {} body rfl hquiet.unbroken.nothing
    have hnone : (read body).filed = [] := congrArg Desk.filed hread
    rw [hbody]
    dsimp only
    rw [htext, @closed_other { self with cover := cover' } _ hother, hnone, List.append_nil]
    exact ⟨⟨rfl, rfl⟩, rfl⟩

/-- What is read of a metadata block is read of what it holds itself, and of the sections in it. -/
theorem splits_block {collected : Option Str} {content : Content} (hagree : self.Agrees self')
    (hat : self.At collected) (hmuted : Unheard collected content) : ∃ xs : List (Filed ⊕ Filed),
      ((events content).foldl turn self).filed = self.filed ++ merged xs ∧
      ((events (pruned content)).foldl turn self').filed = self'.filed ++ lefts xs ∧
      rights xs = ((outermost content).flatMap fun inner => (read inner.body).filed) ∧
      ((events content).foldl turn self).Agrees ((events (pruned content)).foldl turn self') := by
  induction content generalizing self self' collected with
  | nil => exact ⟨[], (List.append_nil _).symm, (List.append_nil _).symm, rfl, hagree⟩
  | leaf a rest ih =>
      rw [pruned]
      unfold events at ih ⊢
      rw [Nested.foldl_spell_leaf, Nested.foldl_spell_leaf]
      obtain ⟨filed, hfirst, hfirst', hagree'⟩ := hagree.turn a.event
      have hat' : (self.turn a.event).At collected :=
        @At.behind self collected hat [a.event] (.inl (flat_collecting a))
      obtain ⟨xs, hmerged, hlefts, hrights, hlast⟩ := ih hagree' hat' hmuted
      refine ⟨filed.map .inl ++ xs, ?_, ?_, ?_, hlast⟩
      · refine hmerged.trans ?_
        rw [hfirst, merged_append, merged_own, List.append_assoc]
      · refine hlefts.trans ?_
        rw [hfirst', lefts_append, lefts_inl, List.append_assoc]
      · rw [rights_append, rights_inl, hrights]
        rfl
  | node tag body rest ihbody ihrest =>
      obtain ⟨hbodyMuted, hrestMuted⟩ := hmuted
      have hwhole := @At.behind self collected hat (events (.node tag body .nil))
        (foldl_collecting _)
      unfold events at ihbody ihrest hwhole ⊢
      rw [Nested.foldl_spell_node] at hwhole ⊢
      rw [pruned, outermost]
      -- an element of the block is on both desks; of a section only the one desk has anything
      by_cases hkind : sectionOf tag.localName = .outside
      · rw [if_pos hkind] at hbodyMuted ⊢
        rw [if_pos hkind, Nested.foldl_spell_node]
        obtain ⟨opening, hstart, hstart', hagree₁⟩ := hagree.turn (.start tag)
        obtain ⟨ys, hmerged₁, hlefts₁, hrights₁, hagree₂⟩ :=
          ihbody hagree₁ (hat.opened tag) hbodyMuted
        obtain ⟨closing, hend, hend', hagree₃⟩ := hagree₂.turn (.endTag tag.name)
        obtain ⟨xs, hmerged, hlefts, hrights, hlast⟩ := ihrest hagree₃ hwhole hrestMuted
        refine ⟨opening.map .inl ++ (ys ++ (closing.map .inl ++ xs)), ?_, ?_, ?_, hlast⟩
        · refine hmerged.trans ?_
          rw [hend, hmerged₁, hstart]
          simp
        · refine hlefts.trans ?_
          rw [hend', hlefts₁, hstart']
          simp
        · simp [hrights₁, hrights]
      · rw [if_neg hkind] at hbodyMuted ⊢
        rw [if_neg hkind]
        obtain ⟨hsame, hfiled⟩ := foldl_section hat hkind hbodyMuted
        have hagree' := Agrees.mk (hsame.collecting.trans hagree.collecting)
          (hsame.text.trans hagree.text)
        obtain ⟨xs, hmerged, hlefts, hrights, hlast⟩ := ihrest hagree' hwhole hrestMuted
        refine ⟨(read body).filed.map .inr ++ xs, ?_, ?_, ?_, hlast⟩
        · refine hmerged.trans ?_
          rw [hfiled]
          simp
        · refine hlefts.trans ?_
          simp
        · simp [hrights]

end Desk

/-- What a section files is what its own part files, and what the sections in it do. -/
theorem splits_filed {part : Part} (h : part.kind = .metadata → Unheard none part.body) :
    Splits Part.filed part := by
  by_cases hkind : part.kind = .metadata
  · have hfiled (body : Content) : Part.filed { part with body } = (Desk.read body).filed :=
      if_pos hkind
    have hnew : Desk.At none {} :=
      ⟨fun _ hin => absurd hin (Option.not_mem_none _), fun _ => rfl⟩
    obtain ⟨xs, hmerged, hlefts, hrights, -⟩ :=
      @Desk.splits_block {} {} none part.body ⟨rfl, rfl⟩ hnew (h hkind)
    refine ⟨xs, ?_, ?_, ?_⟩
    · exact hmerged.symm.trans (hfiled part.body).symm
    · exact hlefts.symm.trans (hfiled (pruned part.body)).symm
    · rw [flatMap_nested]
      exact hrights.trans (List.flatMap_congr fun inner _ => (hfiled inner.body).symm)
  · exact splits_of_nil fun body => if_neg hkind

/-! ## What stray sections add

Each field of a package is a list, a `filterMap` of one, or a fold over one.  A list that takes
in further members is the same list exactly when there are none, and a fold over refinements
when none of the further ones names an entry. -/

section Lists

variable {β γ : Type}

/-- As many are kept as are kept on the two sides. -/
theorem filterMap_merged_length (f : β → Option γ) (xs : List (β ⊕ β)) :
    ((merged xs).filterMap f).length =
      ((lefts xs).filterMap f).length + ((rights xs).filterMap f).length := by
  induction xs with
  | nil => rfl
  | cons x xs ih =>
      cases x with
      | inl x =>
          rw [lefts_inl_cons, rights_inl_cons]
          change (List.filterMap f (x :: merged xs)).length = _
          rw [List.filterMap_cons, List.filterMap_cons]
          cases f x with
          | none => exact ih
          | some y =>
              rw [List.length_cons, List.length_cons, ih]
              omega
      | inr x =>
          rw [lefts_inr_cons, rights_inr_cons]
          change (List.filterMap f (x :: merged xs)).length = _
          rw [List.filterMap_cons, List.filterMap_cons]
          cases f x with
          | none => exact ih
          | some y =>
              rw [List.length_cons, List.length_cons, ih]
              omega

/-- Without anything from the stray ones, it is what the others give. -/
theorem filterMap_merged {f : β → Option γ} {xs : List (β ⊕ β)}
    (h : (rights xs).filterMap f = []) : (merged xs).filterMap f = (lefts xs).filterMap f := by
  have hnone : ∀ x ∈ rights xs, f x = none := List.filterMap_eq_nil_iff.mp h
  clear h
  induction xs with
  | nil => rfl
  | cons x xs ih =>
      cases x with
      | inl x =>
          change List.filterMap f (x :: merged xs) = List.filterMap f (x :: lefts xs)
          rw [List.filterMap_cons, List.filterMap_cons, ih hnone]
      | inr x =>
          obtain ⟨hx, hrest⟩ := List.forall_mem_cons.mp hnone
          change List.filterMap f (x :: merged xs) = List.filterMap f (lefts xs)
          rw [List.filterMap_cons, hx, ih hrest]

/-- The same for what is kept of the two sides. -/
theorem filterMap_merged_iff {f : β → Option γ} {xs : List (β ⊕ β)} :
    (merged xs).filterMap f = (lefts xs).filterMap f ↔ (rights xs).filterMap f = [] := by
  refine ⟨fun heq => ?_, filterMap_merged⟩
  have hlength := filterMap_merged_length f xs
  rw [heq] at hlength
  exact List.eq_nil_of_length_eq_zero (by omega)

/-- All of it is what is on the left exactly when nothing is on the right. -/
theorem merged_eq_lefts_iff {xs : List (β ⊕ β)} : merged xs = lefts xs ↔ rights xs = [] := by
  have hiff := @filterMap_merged_iff β β some xs
  rwa [List.filterMap_some, List.filterMap_some, List.filterMap_some] at hiff

end Lists

/-- What is read of a document is read of its own sections, and of the others. -/
theorem exists_split {β : Type} {f : Part → List β} {parts : List (Part ⊕ Part)}
    (h : ∀ part ∈ lefts parts, Splits f part) : ∃ xs : List (β ⊕ β),
      merged xs = (merged parts).flatMap f ∧
      lefts xs = ((lefts parts).map Part.own).flatMap f ∧
      ∀ x, x ∈ rights xs ↔
        ∃ part ∈ rights parts ++ (lefts parts).flatMap Part.nested, x ∈ f part := by
  induction parts with
  | nil => exact ⟨[], rfl, rfl, fun x => by simp [lefts, rights]⟩
  | cons part parts ih =>
      cases part with
      -- a section of the package: what it has of its own, and what is nested in it
      | inl part =>
          rw [lefts_inl_cons] at h
          obtain ⟨hpart, hparts⟩ := List.forall_mem_cons.mp h
          obtain ⟨ys, hmerged', hlefts', hrights'⟩ := hpart
          obtain ⟨xs, hmerged, hlefts, hrights⟩ := ih hparts
          refine ⟨ys ++ xs, ?_, ?_, fun x => ?_⟩
          · rw [merged_append, hmerged, hmerged']
            rfl
          · rw [lefts_append, hlefts, hlefts', lefts_inl_cons]
            rfl
          · rw [rights_append, List.mem_append, hrights, hrights', lefts_inl_cons, rights_inl_cons,
              List.flatMap_cons]
            simp only [List.mem_flatMap, List.mem_append]
            constructor
            · rintro (⟨inner, hinner, hx⟩ | ⟨other, hother, hx⟩)
              · exact ⟨inner, .inr (.inl hinner), hx⟩
              · exact ⟨other, hother.imp_right .inr, hx⟩
            · rintro ⟨other, hother | hother | hother, hx⟩
              · exact .inr ⟨other, .inl hother, hx⟩
              · exact .inl ⟨other, hother, hx⟩
              · exact .inr ⟨other, .inr hother, hx⟩
      | inr part =>
          obtain ⟨xs, hmerged, hlefts, hrights⟩ := ih h
          refine ⟨(f part).map .inr ++ xs, ?_, ?_, fun x => ?_⟩
          · rw [merged_append, merged_stray, hmerged]
            rfl
          · rw [lefts_append, lefts_inr, hlefts, List.nil_append]
            rfl
          · rw [rights_append, rights_inr, List.mem_append, hrights, lefts_inr_cons,
              rights_inr_cons, List.cons_append]
            simp only [List.mem_cons]
            constructor
            · rintro (hx | ⟨other, hother, hx⟩)
              · exact ⟨part, .inl rfl, hx⟩
              · exact ⟨other, .inr hother, hx⟩
            · rintro ⟨other, rfl | hother, hx⟩
              · exact .inl hx
              · exact .inr ⟨other, hother, hx⟩

/-- The ids that a refinement can name. -/
def namedIds (entries : List MetaEntry) : List Str := entries.map (·.id)

/-- How many refinements these entries have. -/
def weightOf (entries : List MetaEntry) : Nat := (entries.map (·.refinements.length)).sum

theorem attachRefinement_ids (entries : List MetaEntry) (target : Str) (refinement : Refinement) :
    namedIds (attachRefinement entries target refinement) = namedIds entries := by
  induction entries with
  | nil => rfl
  | cons entry rest ih =>
      rw [attachRefinement]
      split
      · rfl
      · exact congrArg (entry.id :: ·) ih

theorem attachRefinement_other {entries : List MetaEntry} {target : Str} (refinement : Refinement)
    (h : target ∉ namedIds entries) : attachRefinement entries target refinement = entries := by
  induction entries with
  | nil => rfl
  | cons entry rest ih =>
      obtain ⟨hfirst, hrest⟩ := not_or.mp fun hor => h (List.mem_cons.mpr hor)
      rw [attachRefinement, if_neg fun heq => hfirst heq.symm, ih hrest]

/-- A refinement that names an entry is attached to it. -/
theorem attachRefinement_weight {entries : List MetaEntry} {target : Str} (refinement : Refinement)
    (h : target ∈ namedIds entries) :
    weightOf (attachRefinement entries target refinement) = weightOf entries + 1 := by
  induction entries with
  | nil => cases h
  | cons entry rest ih =>
      rw [attachRefinement]
      split
      · simp [weightOf]
        omega
      · rename_i hne
        have hrest := ih ((List.mem_cons.mp h).resolve_left fun heq => hne heq.symm)
        simp only [weightOf, List.map_cons, List.sum_cons] at hrest ⊢
        omega

/-- The refinements that name one of these ids. -/
def naming (ids : List Str) (held : List (Str × Refinement)) : List (Str × Refinement) :=
  held.filter fun refining => refining.1 ∈ ids

/-- Only the refinements that name an entry are attached. -/
theorem foldl_attach_naming (held : List (Str × Refinement)) (entries : List MetaEntry) :
    held.foldl (fun entries refining => attachRefinement entries refining.1 refining.2) entries =
      (naming (namedIds entries) held).foldl
        (fun entries refining => attachRefinement entries refining.1 refining.2) entries ∧
    weightOf (held.foldl
      (fun entries refining => attachRefinement entries refining.1 refining.2) entries) =
        weightOf entries + (naming (namedIds entries) held).length := by
  induction held generalizing entries with
  | nil => exact ⟨rfl, rfl⟩
  | cons refining held ih =>
      obtain ⟨heq, hweight⟩ := ih (attachRefinement entries refining.1 refining.2)
      rw [attachRefinement_ids] at heq hweight
      rw [List.foldl_cons]
      by_cases hin : refining.1 ∈ namedIds entries
      · have hfilter : naming (namedIds entries) (refining :: held) =
            refining :: naming (namedIds entries) held :=
          List.filter_cons_of_pos (by simpa using hin)
        rw [hfilter, List.foldl_cons, List.length_cons]
        refine ⟨heq, hweight.trans ?_⟩
        rw [attachRefinement_weight refining.2 hin]
        omega
      · have hfilter : naming (namedIds entries) (refining :: held) =
            naming (namedIds entries) held :=
          List.filter_cons_of_neg (by simpa using hin)
        rw [attachRefinement_other refining.2 hin] at heq hweight ⊢
        rw [hfilter]
        exact ⟨heq, hweight⟩

/-- A section of which nothing is kept beside these. -/
structure Silent (own : List Part) (part : Part) : Prop where
  items : part.items = []
  itemrefs : part.itemrefs = []
  entries : part.filed.filterMap entryOf = []
  refinements : ∀ refining ∈ part.filed.filterMap heldOf,
    ∀ entry ∈ (own.flatMap Part.filed).filterMap entryOf, entry.id ≠ refining.1

instance decidableSilent (own : List Part) (part : Part) : Decidable (Silent own part) :=
  decidable_of_iff (part.items = [] ∧ part.itemrefs = [] ∧ part.filed.filterMap entryOf = [] ∧
    ∀ refining ∈ part.filed.filterMap heldOf,
      ∀ entry ∈ (own.flatMap Part.filed).filterMap entryOf, entry.id ≠ refining.1)
    ⟨fun h => ⟨h.1, h.2.1, h.2.2.1, h.2.2.2⟩,
      fun h => ⟨h.items, h.itemrefs, h.entries, h.refinements⟩⟩

/-- A refinement that names one of these ids, if it is one. -/
def namingOf (ids : List Str) (f : Filed) : Option (Str × Refinement) :=
  (heldOf f).filter fun refining => refining.1 ∈ ids

theorem naming_filterMap (ids : List Str) (filed : List Filed) :
    naming ids (filed.filterMap heldOf) = filed.filterMap (namingOf ids) := List.filter_filterMap ..

/-- Attaching refinements leaves the ids of the entries as they are. -/
theorem attachAll_ids (filed : List Filed) :
    namedIds (attachAll filed) = namedIds (filed.filterMap entryOf) := by
  unfold attachAll
  generalize filed.filterMap entryOf = entries
  induction filed.filterMap heldOf generalizing entries with
  | nil => rfl
  | cons refining held ih =>
      rw [List.foldl_cons, ih]
      exact attachRefinement_ids entries refining.1 refining.2

/-- The entries are what their own refinements make of them exactly when no other refinement names
one of them. -/
theorem attachAll_merged_iff (xs : List (Filed ⊕ Filed)) :
    attachAll (merged xs) = attachAll (lefts xs) ↔ (rights xs).filterMap entryOf = [] ∧
      naming (namedIds ((lefts xs).filterMap entryOf)) ((rights xs).filterMap heldOf) = [] := by
  rw [naming_filterMap]
  constructor
  · intro heq
    have hids := congrArg namedIds heq
    rw [attachAll_ids, attachAll_ids] at hids
    have hlength := congrArg List.length hids
    rw [namedIds, namedIds, List.length_map, List.length_map,
      filterMap_merged_length entryOf xs] at hlength
    have hnone : (rights xs).filterMap entryOf = [] := List.eq_nil_of_length_eq_zero (by omega)
    -- The entries are the same, so nothing more can have been attached to them.
    have hweight := congrArg weightOf heq
    unfold attachAll at hweight
    rw [filterMap_merged hnone, (foldl_attach_naming _ _).2, (foldl_attach_naming _ _).2,
      naming_filterMap, naming_filterMap, filterMap_merged_length] at hweight
    exact ⟨hnone, List.eq_nil_of_length_eq_zero (by omega)⟩
  · rintro ⟨hnone, hnaming⟩
    unfold attachAll
    rw [filterMap_merged hnone, (foldl_attach_naming _ _).1, naming_filterMap,
      filterMap_merged hnaming, ← naming_filterMap, ← (foldl_attach_naming _ _).1]

theorem naming_eq_nil {entries : List MetaEntry} {held : List (Str × Refinement)} :
    naming (namedIds entries) held = [] ↔
      ∀ refining ∈ held, ∀ entry ∈ entries, entry.id ≠ refining.1 := by
  unfold naming namedIds
  rw [List.filter_eq_nil_iff]
  simp

/-- Nothing that is read in a list comes from a stray section. -/
theorem listed_iff {β : Type} {f : Part → List β} {doc : Content}
    (h : ∀ part ∈ lefts (documentParts doc), Splits f part) :
    (merged (documentParts doc)).flatMap f = (topLevel doc).flatMap f ↔
      ∀ part ∈ stray doc, f part = [] := by
  obtain ⟨xs, hmerged, hlefts, hrights⟩ := exists_split h
  unfold topLevel stray
  rw [← hmerged, ← hlefts, merged_eq_lefts_iff]
  constructor
  · intro hnil part hpart
    refine List.eq_nil_iff_forall_not_mem.mpr fun x hx => ?_
    have hin := (hrights x).mpr ⟨part, hpart, hx⟩
    rw [hnil] at hin
    cases hin
  · intro hnone
    refine List.eq_nil_iff_forall_not_mem.mpr fun x hx => ?_
    obtain ⟨part, hpart, hin⟩ := (hrights x).mp hx
    rw [hnone part hpart] at hin
    cases hin

/-- No entry comes from a stray section, nor a refinement of one that is not stray. -/
theorem attached_iff {doc : Content} (hmuted : Muted doc) :
    attachAll ((merged (documentParts doc)).flatMap Part.filed) =
        attachAll ((topLevel doc).flatMap Part.filed) ↔
      ∀ part ∈ stray doc, part.filed.filterMap entryOf = [] ∧
        ∀ refining ∈ part.filed.filterMap heldOf,
          ∀ entry ∈ ((topLevel doc).flatMap Part.filed).filterMap entryOf,
            entry.id ≠ refining.1 := by
  obtain ⟨xs, hmerged, hlefts, hrights⟩ := @exists_split _ Part.filed _ fun part hpart =>
    splits_filed (hmuted part hpart)
  unfold topLevel stray
  rw [← hmerged, ← hlefts, attachAll_merged_iff, naming_eq_nil, List.filterMap_eq_nil_iff]
  constructor
  · rintro ⟨hentries, hrefinements⟩ part hpart
    constructor
    · exact List.filterMap_eq_nil_iff.mpr fun f hf =>
        hentries f ((hrights f).mpr ⟨part, hpart, hf⟩)
    · intro refining hrefining
      obtain ⟨f, hf, hheld⟩ := List.mem_filterMap.mp hrefining
      exact hrefinements refining
        (List.mem_filterMap.mpr ⟨f, (hrights f).mpr ⟨part, hpart, hf⟩, hheld⟩)
  · intro hsilent
    constructor
    · intro f hf
      obtain ⟨part, hpart, hin⟩ := (hrights f).mp hf
      exact List.filterMap_eq_nil_iff.mp (hsilent part hpart).1 f hin
    · intro refining hrefining
      obtain ⟨f, hf, hheld⟩ := List.mem_filterMap.mp hrefining
      obtain ⟨part, hpart, hin⟩ := (hrights f).mp hf
      exact (hsilent part hpart).2 refining (List.mem_filterMap.mpr ⟨f, hin, hheld⟩)

/-- What is kept of a package comes from the sections directly inside it when the others add
nothing: no item, no itemref, no entry, no refinement that names an entry, and no word to an
element that is being collected.  But for such words, only then. -/
theorem read_from_top_level_iff {doc : Content} {package : Package}
    (h : parsePackage { events := events doc, stop := .eof } = .ok package) :
    (Muted doc ∧ (∀ part ∈ stray doc, Silent (topLevel doc) part) →
      ReadFrom package (topLevel doc)) ∧
    (Muted doc → ReadFrom package (topLevel doc) →
      ∀ part ∈ stray doc, Silent (topLevel doc) part) := by
  obtain ⟨⟨hmanifest, hspine, hentries⟩, -⟩ := parsePackage_document h
  have hitems := @listed_iff _ Part.items doc fun part _ => splits_items part
  have hitemrefs := @listed_iff _ Part.itemrefs doc fun part _ => splits_itemrefs part
  constructor
  · rintro ⟨hmuted, hsilent⟩
    refine ⟨hmanifest.trans (hitems.mpr ?_), hspine.trans (hitemrefs.mpr ?_),
      hentries.trans ((attached_iff hmuted).mpr ?_)⟩
    · exact fun part hpart => (hsilent part hpart).items
    · exact fun part hpart => (hsilent part hpart).itemrefs
    · exact fun part hpart => ⟨(hsilent part hpart).entries, (hsilent part hpart).refinements⟩
  · rintro hmuted ⟨hmanifest', hspine', hentries'⟩ part hpart
    obtain ⟨hnone, hunnamed⟩ :=
      (attached_iff hmuted).mp (hentries.symm.trans hentries') part hpart
    exact ⟨hitems.mp (hmanifest.symm.trans hmanifest') part hpart,
      hitemrefs.mp (hspine.symm.trans hspine') part hpart, hnone, hunnamed⟩

/-! ## A book with a collection in it -/

/-- An empty element between others. -/
def hollow (tag : Tag) (rest : Content) : Content := .leaf ⟨.empty tag, isFlat_empty tag⟩ rest

/-- An element with this text. -/
def spoken (tag : Tag) (text : Str) (rest : Content) : Content :=
  .node tag (.leaf ⟨.text text, isFlat_text text⟩ .nil) rest

def coverPage : Tag :=
  attributed "item" [("id", "cover"), ("href", "cover.xhtml"), ("media-type", "application/xhtml+xml")]

def partPage : Tag :=
  attributed "item" [("id", "part"), ("href", "part.xhtml"), ("media-type", "application/xhtml+xml")]

/-- A collection with a title and a manifest of its own. -/
def collection (rest : Content) : Content :=
  .node (plainTag "collection")
    (.node (plainTag "metadata") (spoken (plainTag "dc:title") "Part One" .nil)
      (.node (plainTag "manifest") (hollow partPage .nil) .nil))
    rest

/-- A collection that says something of what is not there, and no more. -/
def quietCollection (rest : Content) : Content :=
  .node (plainTag "collection")
    (.node (plainTag "metadata")
      (spoken (attributed "meta" [("property", "role"), ("refines", "#gone")]) "aut" .nil) .nil)
    rest

/-- The package of a book, with something in front of its own sections and in its metadata. -/
def packageAround (front inside : Content → Content) : Content :=
  .node (plainTag "package")
    (front (.node (plainTag "metadata") (inside (spoken (plainTag "dc:title") "The Whole" .nil))
      (.node (plainTag "manifest") (hollow coverPage .nil)
        (.node (plainTag "spine") (hollow (attributed "itemref" [("idref", "cover")]) .nil) .nil))))
    .nil

def packageWith (front : Content → Content) : Content := packageAround front id

/-- What a document is read as, when its own sections say something else. -/
theorem read_elsewhere {doc : Content} {titles ids : List Str}
    (hread : (parsePackage { events := events doc, stop := .eof }).map
      (fun package => (package.metadata.entries.map (·.value), package.manifest.map (·.id))) =
        .ok (titles, ids))
    (hown : (attachAll ((topLevel doc).flatMap Part.filed)).map (·.value) ≠ titles) : ∃ package,
      parsePackage { events := events doc, stop := .eof } = .ok package ∧
        package.metadata.entries.map (·.value) = titles ∧ package.manifest.map (·.id) = ids ∧
        ¬ ReadFrom package (topLevel doc) := by
  cases hparse : parsePackage { events := events doc, stop := .eof } with
  | error e =>
      rw [hparse] at hread
      cases hread
  | ok package =>
      rw [hparse] at hread
      obtain ⟨hentries, hmanifest⟩ := Prod.mk.inj (Except.ok.inj hread)
      refine ⟨package, rfl, hentries, hmanifest, fun hfrom => hown ?_⟩
      rw [← hfrom.entries]
      exact hentries

/-- A collection is read in front of the package's own sections, and in them. -/
theorem collection_read :
    (∃ package, parsePackage { events := events (packageWith collection), stop := .eof } =
        .ok package ∧
      package.metadata.entries.map (·.value) = ["Part One", "The Whole"] ∧
      package.manifest.map (·.id) = ["part", "cover"] ∧
      ¬ ReadFrom package (topLevel (packageWith collection))) ∧
    ∃ package, parsePackage { events := events (packageAround id collection), stop := .eof } =
        .ok package ∧
      package.metadata.entries.map (·.value) = ["Part One", "The Whole"] ∧
      package.manifest.map (·.id) = ["cover"] ∧
      ¬ ReadFrom package (topLevel (packageAround id collection)) :=
  ⟨read_elsewhere (by decide +kernel) (by decide +kernel),
    read_elsewhere (by decide +kernel) (by decide +kernel)⟩

/-- A book that says in two more places what makes no difference. -/
def quietBook : Content := packageAround quietCollection quietCollection

theorem read_from_top_level_plain : ∃ package,
    parsePackage { events := events quietBook, stop := .eof } = .ok package ∧
      (stray quietBook).length = 2 ∧ ReadFrom package (topLevel quietBook) := by
  have hread : (parsePackage { events := events quietBook, stop := .eof }).map
      (fun package => package.metadata.title) = .ok "The Whole" := by decide +kernel
  cases hparse : parsePackage { events := events quietBook, stop := .eof } with
  | error e =>
      rw [hparse] at hread
      cases hread
  | ok package =>
      exact ⟨package, rfl, by decide +kernel,
        (read_from_top_level_iff hparse).1 ⟨by decide +kernel, by decide +kernel⟩⟩

end Opf

end GrpcEpub
