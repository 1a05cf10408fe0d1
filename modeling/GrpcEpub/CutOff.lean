/-
# `GrpcEpub.CutOff` — a package document that ends too soon

The reader ends quietly where the input ends, whatever is still open, and the package parser
does not look at its depth when it does.  So a document that is cut off is refused as long
as nothing of a spine has been read, and accepted with what is there from its first itemref
on.
-/
import GrpcEpub.TopLevel

namespace GrpcEpub

namespace Opf

open Xml Nav

/-- A document as far as it goes. -/
abbrev Unfinished := Remnant Tag Leaf

/-- Every element has been closed. -/
def Closed (doc : Unfinished) : Prop := ∃ whole, doc = .done whole

def tagOf : XmlEvent → Option Tag
  | .start tag | .empty tag => some tag
  | _ => none

/-- The tags up to the end of the input. -/
def tagsUntil : Unfinished → List Tag
  | .done front => tags front
  | .inside front tag rest => tags front ++ tag :: tagsUntil rest

/-- The itemrefs that have been read, outside the sections. -/
def itemrefsUntil : Unfinished → List SpineItem
  | .done front => (outermost front).flatMap Part.itemrefs
  | .inside front tag rest => (outermost front).flatMap Part.itemrefs ++
      match sectionOf tag.localName with
      | .outside => itemrefsUntil rest
      | .spine => ((tagsUntil rest).filter fun tag : Tag => tag.localName = ("itemref" : Str)).map
          PackageParser.spineItem
      | _ => []

/-- The itemrefs that have been read of a document. -/
def itemrefsRead : Unfinished → List SpineItem
  | .done doc => (merged (documentParts doc)).flatMap Part.itemrefs
  | .inside front tag rest =>
      if (events front).findSome? tagOf = none then itemrefsUntil rest
      else (merged (documentParts front)).flatMap Part.itemrefs ++
        itemrefsUntil (.inside .nil tag rest)

/-- A document whose reading ends in a package. -/
structure Readable (doc : Unfinished) : Prop where
  passes : ∀ event ∈ doc.spell markup, passes event = true
  root : ∃ root, (doc.spell markup).findSome? tagOf = some root ∧ root.localName = "package"
  spine : itemrefsRead doc ≠ []

namespace PackageParser

variable {self parser : PackageParser}

/-! ## What an unfinished document leaves

An unfinished document is a content, an element that is open behind it, and so on inwards.  The
parser takes the finished content as always, and what it has of the rest is read by `Listing`. -/

/-- Inside a metadata block nothing is added to the spine. -/
theorem block_spine (rest : Unfinished) (desk : Desk) (h : self.inSection = .metadata)
    (hlevel : self.sectionDepth ≤ self.depth) :
    ((rest.spell markup).foldl turn (self.reading desk)).package.spine = self.package.spine := by
  induction rest generalizing self desk with
  | done front => exact congrArg (·.package.spine) (foldl_block front desk h hlevel)
  | inside front tag rest ih =>
      have hfront := foldl_block front desk h hlevel
      unfold events at hfront
      rw [Remnant.spell, List.foldl_append, hfront]
      have hstart (desk : Desk) : (self.reading desk).turn (.start tag) =
          self.deeper.reading (desk.turn (.start tag)) :=
        @opened_reading self.deeper h desk tag false
      change ((rest.spell markup).foldl turn ((self.reading _).turn (.start tag))).package.spine = _
      rw [hstart]
      exact @ih self.deeper _ h (Nat.le_succ_of_le hlevel)

/-- In a manifest or a spine every tag is looked at, whether its element ends or not. -/
theorem Listing.foldl_until {inSection : Section} {list : PackageParser → Tag → PackageParser}
    (hlist : Listing inSection list) (rest : Unfinished) (h : self.Resting inSection) :
    ((rest.spell markup).foldl turn self).package = ((tagsUntil rest).foldl list self).package := by
  induction rest generalizing self with
  | done front => exact congrArg (·.package) (hlist.foldl_content front h)
  | inside front tag rest ih =>
      have hfront := hlist.foldl_content front h
      have hresting := hlist.foldl_resting (tags front) h
      unfold events at hfront
      rw [Remnant.spell, List.foldl_append, hfront, tagsUntil, List.foldl_append, List.foldl_cons]
      change ((rest.spell markup).foldl turn
        (((tags front).foldl list self).turn (.start tag))).package = _
      rw [hlist.turn_start hresting, ih (deeper_resting (hlist.resting tag hresting)),
        hlist.foldl_deeper]
      rfl

theorem foldl_gathered_spine (parts : List Part) : (parts.foldl gathered self).package.spine =
    self.package.spine ++ parts.flatMap Part.itemrefs :=
  @foldl_gathered _ (·.package.spine) _ (fun self part => @gathered_spine self part) parts self

/-- The spine is what has been read of the outermost spines. -/
theorem foldl_until (rest : Unfinished) (h : self.Resting .outside) :
    ((rest.spell markup).foldl turn self).package.spine =
      self.package.spine ++ itemrefsUntil rest := by
  induction rest generalizing self with
  | done front =>
      obtain ⟨level, hrun⟩ := foldl_outside front h
      exact (congrArg (·.package.spine) hrun).trans (foldl_gathered_spine (outermost front))
  | inside front tag rest ih =>
      obtain ⟨level, hrun⟩ := foldl_outside front h
      unfold events at hrun
      rw [Remnant.spell, List.foldl_append, hrun, itemrefsUntil, ← List.append_assoc,
        ← foldl_gathered_spine]
      have hfront := setLevel_resting (foldl_gathered_resting h (outermost front)) level
      have hsame : ((outermost front).foldl gathered self).package.spine =
        (((outermost front).foldl gathered self).leveled level).package.spine := rfl
      rw [hsame]
      clear hrun hsame
      have hq : (((outermost front).foldl gathered self).leveled level).Resting .outside := hfront
      generalize ((outermost front).foldl gathered self).leveled level = q at hq ⊢
      change ((rest.spell markup).foldl turn (q.turn (.start tag))).package.spine = _
      -- the open element is the section that the rest is read in, or no section
      cases hsection : sectionOf tag.localName with
      | outside =>
          rw [start_outside hq hsection]
          exact ih (deeper_resting hq)
      | metadata =>
          rw [start_metadata hq hsection]
          exact (block_spine rest {} rfl (Nat.le_refl _)).trans (List.append_nil _).symm
      | manifest =>
          rw [start_manifest hq hsection]
          have hlisted := itemTag_listing.foldl_until rest (entered_resting hq .manifest)
          rw [foldl_itemTag] at hlisted
          exact (congrArg Package.spine hlisted).trans (List.append_nil _).symm
      | spine =>
          rw [start_spine hq hsection]
          have htoc := setToc_resting hq (attributeValue tag "toc")
          have hlisted := itemrefTag_listing.foldl_until rest (entered_resting htoc .spine)
          rw [foldl_itemrefTag] at hlisted
          exact congrArg Package.spine hlisted

theorem foldl_saw (events : List XmlEvent) :
    (events.foldl turn self).sawPackage = self.sawPackage := by
  induction events generalizing self with
  | nil => rfl
  | cons event rest ih => exact ih.trans (turn_saw event)

/-- Behind the root the loop ends well unless it is stopped by a document type. -/
theorem foldlM_ok_iff {events : List XmlEvent} (h : self.sawPackage = true) :
    (∃ parser, events.foldlM step self = .ok parser) ↔ ∀ event ∈ events, passes event = true := by
  rw [foldlM_turn h, ← List.all_eq_true]
  cases events.all passes with
  | true => exact iff_of_true ⟨_, rfl⟩ rfl
  | false => exact iff_of_false (fun hok => by obtain ⟨parser, hok⟩ := hok; cases hok) (by simp)

end PackageParser

/-! ## The whole document

Refused or accepted: the loop comes to the end of the input, and there is a spine or there is
none. -/

/-- In front of the root nothing is kept. -/
theorem step_front {event : XmlEvent} (htag : tagOf event = none) :
    PackageParser.step {} event = if passes event then .ok {} else .error .entityDeclaration := by
  cases event with
  | start tag => cases htag
  | empty tag => cases htag
  | docType dtd => exact PackageParser.step_docType dtd
  | endTag | text | cData | generalRef | other => rfl

/-- The first tag is the root, whatever stands in front of it. -/
theorem step_first {event : XmlEvent} {root : Tag} (htag : tagOf event = some root) :
    ∃ depth, PackageParser.step {} event = if root.localName = "package" then
      .ok ((rooted (attributeValue root "version") (attributeValue root "unique-identifier")).laid
        depth 0)
    else .error .notAPackage := by
  cases event with
  | start tag =>
      obtain rfl := Option.some.inj htag
      exact PackageParser.openTag_first tag false
  | empty tag =>
      obtain rfl := Option.some.inj htag
      exact PackageParser.openTag_first tag true
  | docType | endTag | text | cData | generalRef | other => cases htag

theorem passes_tag {event : XmlEvent} {root : Tag} (htag : tagOf event = some root) :
    passes event = true := by
  cases event with
  | docType dtd => cases htag
  | start | empty | endTag | text | cData | generalRef | other => rfl

section Documents

variable {events : List XmlEvent} {parser : PackageParser}

/-- The loop reaches the end of the input unless it is stopped by a document type or by a
root that is no package. -/
theorem foldlM_step_iff : (∃ parser, events.foldlM PackageParser.step {} = .ok parser) ↔
    (∀ event ∈ events, passes event = true) ∧
      ∀ root, events.findSome? tagOf = some root → root.localName = "package" := by
  induction events with
  | nil => exact iff_of_true ⟨{}, rfl⟩ ⟨by simp, by simp⟩
  | cons event rest ih =>
      rw [List.forall_mem_cons, List.findSome?_cons, List.foldlM_cons]
      cases htag : tagOf event with
      | none =>
          rw [step_front htag]
          cases passes event with
          | true => exact ih.trans (by simp)
          | false => exact iff_of_false (fun hok => by obtain ⟨parser, hok⟩ := hok; cases hok) (by simp)
      | some root =>
          obtain ⟨depth, hstep⟩ := step_first htag
          rw [hstep]
          by_cases hname : root.localName = "package"
          · rw [if_pos hname]
            refine (PackageParser.foldlM_ok_iff rfl).trans ⟨fun hrest => ?_, fun hboth => hboth.1.2⟩
            exact ⟨⟨passes_tag htag, hrest⟩, fun root' heq => Option.some.inj heq ▸ hname⟩
          · rw [if_neg hname]
            refine iff_of_false (fun hok => ?_) fun hboth => hname (hboth.2 root rfl)
            obtain ⟨parser, hok⟩ := hok
            cases hok

/-- The package has been seen when a tag has. -/
theorem sawPackage_iff (h : events.foldlM PackageParser.step {} = .ok parser) :
    parser.sawPackage = true ↔ ∃ root, events.findSome? tagOf = some root := by
  induction events with
  | nil =>
      obtain rfl := Except.ok.inj h
      exact iff_of_false Bool.false_ne_true (by simp)
  | cons event rest ih =>
      rw [List.findSome?_cons]
      obtain ⟨next, hstep, hrest⟩ := Except.bind_ok h
      cases htag : tagOf event with
      | none =>
          rw [step_front htag] at hstep
          split at hstep
          · obtain rfl := Except.ok.inj hstep
            exact ih hrest
          · cases hstep
      | some root =>
          obtain ⟨depth, hfirst⟩ := step_first htag
          rw [hfirst] at hstep
          split at hstep
          · obtain rfl := Except.ok.inj hstep
            rw [PackageParser.foldlM_turn rfl] at hrest
            split at hrest
            · obtain rfl := Except.ok.inj hrest
              exact iff_of_true (PackageParser.foldl_saw rest) ⟨root, rfl⟩
            · cases hrest
          · cases hstep

theorem foldlM_untagged (h : events.foldlM PackageParser.step {} = .ok parser)
    (hnone : events.findSome? tagOf = none) : parser = {} := by
  induction events with
  | nil => exact (Except.ok.inj h).symm
  | cons event rest ih =>
      obtain ⟨hfirst, hothers⟩ := List.forall_mem_cons.mp (List.findSome?_eq_none_iff.mp hnone)
      obtain ⟨next, hstep, hrest⟩ := Except.bind_ok h
      rw [step_front hfirst] at hstep
      split at hstep
      · obtain rfl := Except.ok.inj hstep
        exact ih hrest (List.findSome?_eq_none_iff.mpr hothers)
      · cases hstep

end Documents

/-- Without a tag there is no section. -/
theorem documentParts_untagged {doc : Content} (h : (events doc).findSome? tagOf = none) :
    documentParts doc = [] := by
  induction doc with
  | nil => rfl
  | leaf a rest ih =>
      obtain ⟨hfirst, hrest⟩ := List.findSome?_eq_none_iff.mp h |> List.forall_mem_cons.mp
      rw [documentParts]
      split
      · rename_i tag htag
        have hsome : tagOf a.event = some tag := by rw [htag]; rfl
        exact absurd (hsome.symm.trans hfirst) (Option.some_ne_none tag)
      · exact ih (List.findSome?_eq_none_iff.mpr hrest)
  | node tag body rest _ _ =>
      have hfirst := List.findSome?_eq_none_iff.mp h (.start tag) List.mem_cons_self
      exact absurd hfirst (Option.some_ne_none tag)

/-- The spine that is read. -/
theorem spine_read {doc : Unfinished} {parser : PackageParser}
    (h : (doc.spell markup).foldlM PackageParser.step {} = .ok parser) :
    parser.package.spine = itemrefsRead doc := by
  -- content that is complete is read as a document
  have hdone {front : Content} {parser : PackageParser}
      (hrun : (events front).foldlM PackageParser.step {} = .ok parser) :
      parser.package.spine = (merged (documentParts front)).flatMap Part.itemrefs := by
    rcases foldlM_document hrun with rfl | ⟨version, uniqueIdentifierId, depth, level, rfl⟩
    · have hnone : (events front).findSome? tagOf = none := by
        rw [← Option.not_isSome_iff_eq_none, Option.isSome_iff_exists]
        exact fun hroot => Bool.false_ne_true ((sawPackage_iff hrun).mpr hroot)
      rw [documentParts_untagged hnone]
      rfl
    · exact PackageParser.foldl_gathered_spine _
  cases doc with
  | done doc => exact hdone h
  | inside front tag rest =>
      rw [Remnant.spell, List.foldlM_append] at h
      obtain ⟨middle, hfront, hrest⟩ := Except.bind_ok h
      rw [itemrefsRead]
      -- the open element is the root, or there has been a root in front of it
      by_cases hnone : (events front).findSome? tagOf = none
      · rw [if_pos hnone]
        have hunseen : ¬ middle.sawPackage = true := fun hsaw => by
          obtain ⟨root, hroot⟩ := (sawPackage_iff hfront).mp hsaw
          exact absurd (hroot.symm.trans hnone) (Option.some_ne_none root)
        rcases foldlM_document hfront with rfl | ⟨version, uniqueIdentifierId, depth, level, rfl⟩
        · obtain ⟨next, hstep, hinner⟩ := Except.bind_ok hrest
          obtain ⟨depth, rfl⟩ := @PackageParser.openTag_root next tag false hstep
          have hroot := PackageParser.laid_resting (attributeValue tag "version")
            (attributeValue tag "unique-identifier") depth
          rw [PackageParser.foldlM_turn rfl] at hinner
          split at hinner
          · obtain rfl := Except.ok.inj hinner
            exact PackageParser.foldl_until rest hroot
          · cases hinner
        · exact absurd (PackageParser.foldl_gathered_resting
            (rooted_resting version uniqueIdentifierId) _).started hunseen
      · rw [if_neg hnone]
        have hspine := hdone hfront
        rcases foldlM_document hfront with rfl | ⟨version, uniqueIdentifierId, depth, level, rfl⟩
        · obtain ⟨root, hroot⟩ := Option.isSome_iff_exists.mp (Option.isSome_iff_ne_none.mpr hnone)
          exact absurd ((sawPackage_iff hfront).mpr ⟨root, hroot⟩) Bool.false_ne_true
        · have hresting := PackageParser.resting_laid (PackageParser.foldl_gathered_resting
            (rooted_resting version uniqueIdentifierId) (merged (documentParts front))) depth level
          rw [← hspine]
          generalize PackageParser.laid _ depth level = middle at hrest hresting ⊢
          rw [PackageParser.foldlM_turn hresting.started] at hrest
          split at hrest
          · obtain rfl := Except.ok.inj hrest
            exact PackageParser.foldl_until (.inside .nil tag rest) hresting
          · cases hrest

/-- What ends quietly is accepted when there is something of a spine. -/
theorem accepted_iff (doc : Unfinished) :
    (∃ package, parsePackage { events := doc.spell markup, stop := .eof } = .ok package) ↔
      Readable doc := by
  constructor
  · rintro ⟨package, h⟩
    obtain ⟨parser, hrun, hend⟩ := Except.bind_ok h
    obtain ⟨ended, hfinish, hlast⟩ := Except.bind_ok hend
    obtain rfl := Except.ok.inj hfinish
    obtain ⟨hpasses, hroot⟩ := foldlM_step_iff.mp ⟨parser, hrun⟩
    split at hlast
    · cases hlast
    · rename_i hsaw
      split at hlast
      · cases hlast
      · rename_i hspine
        obtain ⟨root, htag⟩ := (sawPackage_iff hrun).mp (by simpa using hsaw)
        exact ⟨hpasses, ⟨root, htag, hroot root htag⟩, fun hnil => hspine ((spine_read hrun).trans hnil)⟩
  · rintro ⟨hpasses, ⟨root, htag, hname⟩, hspine⟩
    obtain ⟨parser, hrun⟩ := foldlM_step_iff.mpr
      ⟨hpasses, fun root' htag' => Option.some.inj (htag'.symm.trans htag) ▸ hname⟩
    have hsaw := (sawPackage_iff hrun).mpr ⟨root, htag⟩
    refine ⟨parser.finishMetadata, ?_⟩
    unfold parsePackage
    rw [hrun]
    refine (if_neg ?_).trans (if_neg fun hnil => hspine ((spine_read hrun).symm.trans hnil))
    rw [hsaw]
    exact Bool.false_ne_true

/-- A cut through a good document is noticed exactly where no itemref has been read. -/
theorem cut_accepted_iff {doc : Content} {package : Package}
    (h : parsePackage { events := events doc, stop := .eof } = .ok package) (n : Nat) :
    (∃ package, parsePackage { events := (events doc).take n, stop := .eof } = .ok package) ↔
      itemrefsRead (doc.breakOff n) ≠ [] := by
  obtain ⟨hpasses, ⟨root, hroot, hname⟩, -⟩ := (accepted_iff (.done doc)).mp ⟨package, h⟩
  have htake : (doc.breakOff n).spell markup = (events doc).take n := Nested.spell_breakOff ..
  rw [← htake]
  refine (accepted_iff _).trans ⟨fun hreadable => hreadable.spine, fun hspine => ?_⟩
  have hpassed : ∀ event ∈ (doc.breakOff n).spell markup, passes event = true := fun event hevent =>
    hpasses event (List.mem_of_mem_take (htake ▸ hevent))
  -- The first tag of what is left is the first tag of the document.
  have hfirst : ∀ root', ((doc.breakOff n).spell markup).findSome? tagOf = some root' →
      root'.localName = "package" := by
    intro root' hroot'
    have hwhole : (events doc).findSome? tagOf = some root' := by
      rw [← List.take_append_drop n (events doc), List.findSome?_append, ← htake, hroot']
      rfl
    exact Option.some.inj (hwhole.symm.trans hroot) ▸ hname
  refine ⟨hpassed, ?_, hspine⟩
  cases hsome : ((doc.breakOff n).spell markup).findSome? tagOf with
  | some root' => exact ⟨root', rfl, hfirst root' hsome⟩
  | none =>
      obtain ⟨parser, hrun⟩ := foldlM_step_iff.mpr ⟨hpassed, hfirst⟩
      have hempty := spine_read hrun
      rw [foldlM_untagged hrun hsome] at hempty
      exact absurd hempty.symm hspine

/-- Whatever ends in an error is refused. -/
theorem refused_of_error (events : List XmlEvent) (detail : Str) (package : Package) :
    parsePackage { events, stop := .error detail } ≠ .ok package := by
  intro h
  obtain ⟨parser, -, hend⟩ := Except.bind_ok h
  obtain ⟨ended, hfinish, -⟩ := Except.bind_ok hend
  cases hfinish

/-- An accepted document has been read to its end, unless it breaks off quietly behind its
first itemref. -/
theorem cut_off_refused_iff (doc : Unfinished) (stop : XmlStop) :
    (∀ package, parsePackage { events := doc.spell markup, stop } = .ok package → Closed doc) ↔
      (stop = .eof → Readable doc → Closed doc) := by
  cases stop with
  | error detail =>
      exact iff_of_true (fun package h => absurd h (refused_of_error _ detail package))
        fun heof => XmlStop.noConfusion heof
  | eof =>
      constructor
      · intro h _ hreadable
        obtain ⟨package, hparse⟩ := (accepted_iff doc).mpr hreadable
        exact h package hparse
      · intro h package hparse
        exact h rfl ((accepted_iff doc).mp ⟨package, hparse⟩)

/-- Two itemrefs, and the input ends between them. -/
def cutSpine : Unfinished :=
  .inside .nil (plainTag "package") (.inside .nil (plainTag "spine")
    (.done (hollow (attributed "itemref" [("idref", "one")]) .nil)))

/-- A document that ends behind its first itemref is a book of one chapter. -/
theorem cut_spine_accepted : ∃ package,
    parsePackage { events := cutSpine.spell markup, stop := .eof } = .ok package ∧
      package.spine.map (·.idref) = ["one"] ∧ ¬ Closed cutSpine := by
  have hread : (parsePackage { events := cutSpine.spell markup, stop := .eof }).map
      (fun package => package.spine.map (·.idref)) = .ok ["one"] := by decide +kernel
  cases hparse : parsePackage { events := cutSpine.spell markup, stop := .eof } with
  | error e =>
      rw [hparse] at hread
      cases hread
  | ok package =>
      rw [hparse] at hread
      refine ⟨package, rfl, Except.ok.inj hread, fun hclosed => ?_⟩
      obtain ⟨whole, hwhole⟩ := hclosed
      cases hwhole

end Opf

end GrpcEpub
