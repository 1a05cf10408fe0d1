/-
# `GrpcEpub.Signposts` — what the opening event says of the two navigation documents

A book may ship a navigation document and an NCX, and the opening event has a field for each.  The
one source that `navigation_source` picks is right for the navigation event, which is read from
one of them.  The two fields are filled from it too, so they never both say something
(`both_reported_iff`).
-/
import GrpcEpub.Narrations

namespace GrpcEpub

namespace Book

variable {book : Book}

/-! ## The two documents

Each found or not, whatever is chosen later. -/

/-- The manifest's navigation document. -/
def navCandidate (book : Book) : Option Nat :=
  book.resolved.findIdx? fun target => "nav".toList ∈ target.item.properties

/-- The item that the spine's `toc` attribute names, if it names one. -/
def ncxCandidate (book : Book) : Option Nat :=
  if book.package.tocIdref = [] then none else book.byId.get book.package.tocIdref

/-- A candidate that the archive holds. -/
def standing (book : Book) (fromNcx : Bool) (candidate : Option Nat) : Option NavigationSource :=
  candidate.bind fun position => (book.item position).entry.map fun entry =>
    { position, entry, fromNcx }

/-- Its path, and nothing when there is none. -/
def sourcePath (book : Book) (source : Option NavigationSource) : Str :=
  (source.map fun source => (book.item source.position).path).getD []

theorem standing_eq_some {fromNcx : Bool} {candidate : Option Nat} {source : NavigationSource}
    (h : book.standing fromNcx candidate = some source) : candidate = some source.position ∧
      (book.item source.position).entry = some source.entry ∧ source.fromNcx = fromNcx := by
  obtain ⟨position, hposition, h⟩ := Option.bind_eq_some_iff.mp h
  obtain ⟨entry, hentry, rfl⟩ := Option.map_eq_some_iff.mp h
  exact ⟨hposition, hentry, rfl⟩

theorem sourcePath_standing_eq_nil (hbase : Href.BaseDir book.opfDir) {fromNcx : Bool}
    {candidate : Option Nat} : book.sourcePath (book.standing fromNcx candidate) = [] ↔
      book.standing fromNcx candidate = none := by
  cases hstanding : book.standing fromNcx candidate with
  | none => exact iff_of_true rfl rfl
  | some source =>
      refine iff_of_false ?_ (Option.some_ne_none source)
      exact path_of_entry hbase (standing_eq_some hstanding).2.1

theorem navDocument_eq (book : Book) :
    book.navDocument = .ok (book.standing false book.navCandidate) := by
  unfold navDocument navCandidate standing
  cases hfind : book.resolved.findIdx? (fun target => "nav".toList ∈ target.item.properties) with
  | none => rfl
  | some position =>
      have hlt := (List.findIdx?_eq_some_iff_findIdx_eq.mp hfind).1
      dsimp only
      rw [nth_item hlt]
      rfl

theorem ncxDocument_eq (book : Book) :
    book.ncxDocument = .ok (book.standing true (book.byId.get book.package.tocIdref)) := by
  unfold ncxDocument standing
  cases hget : book.byId.get book.package.tocIdref with
  | none => rfl
  | some position =>
      dsimp only
      rw [nth_item (byId_lt hget)]
      rfl

/-- The NCX stands in for a navigation document that is not there. -/
theorem navigationSource_eq (book : Book) : book.navigationSource =
    .ok ((book.standing false book.navCandidate).or
      (book.standing true (book.byId.get book.package.tocIdref))) := by
  unfold navigationSource
  rw [navDocument_eq]
  cases book.standing false book.navCandidate with
  | none => exact ncxDocument_eq book
  | some source => rfl

/-- The field of the navigation document is about the navigation document. -/
theorem navigationPath_nav (book : Book) (other : Option Nat) :
    book.navigationPath ((book.standing false book.navCandidate).or (book.standing true other))
      false = book.sourcePath (book.standing false book.navCandidate) := by
  cases hnav : book.standing false book.navCandidate with
  | some source =>
      exact if_pos (standing_eq_some hnav).2.2
  | none =>
      cases hncx : book.standing true other with
      | none => rfl
      | some source =>
          refine if_neg ?_
          rw [(standing_eq_some hncx).2.2]
          exact Bool.false_ne_true.symm

/-- The field of the NCX is empty as soon as there is a navigation document. -/
theorem navigationPath_ncx (book : Book) (other : Option Nat) :
    book.navigationPath ((book.standing false book.navCandidate).or (book.standing true other))
      true = if (book.standing false book.navCandidate).isSome then []
        else book.sourcePath (book.standing true other) := by
  cases hnav : book.standing false book.navCandidate with
  | some source =>
      refine if_neg ?_
      rw [(standing_eq_some hnav).2.2]
      exact Bool.false_ne_true
  | none =>
      cases hncx : book.standing true other with
      | none => rfl
      | some source => exact if_pos (standing_eq_some hncx).2.2

end Book

/-! ## The events that say something of them

Info, and the navigation event. -/

/-- An event that is about the navigation documents. -/
def Event.guides {δ : Type} : Event δ → Bool
  | .info _ | .navigation _ => true
  | _ => false

section Response

variable {π : Projection} {crates : Crates} {limits : Effective} {bytes : Bytes}
  {archive : MemoryArchive} {book : Book} {spine : List SpineEntry} {status : ParseStatus}

/-- They are the first two passes. -/
theorem guides_of_response {event : Event π.Document} (hguides : event.guides = true)
    (h : event ∈ (response π crates limits bytes archive book spine status).map Delivery.event) :
    event ∈ (Script.opening (δ := π.Document) book spine).map Delivery.event ∨
      event ∈ (Script.navigation (δ := π.Document) crates limits archive book).map
        Delivery.event := by
  obtain ⟨overlays, hoverlays⟩ :=
    Script.overlays_events (δ := π.Document) crates limits archive book
  obtain ⟨document, -, htrailing⟩ := trailing_events limits (sourceHash bytes)
    (script (δ := π.Document) crates limits archive book spine) status
  rw [response, script, List.map_append, List.map_append, List.map_append, List.map_append,
    Script.walk_events, hoverlays] at h
  rcases List.mem_append.mp h with h | h
  · rcases List.mem_append.mp h with h | h
    · rcases List.mem_append.mp h with h | h
      · exact List.mem_append.mp h
      · obtain ⟨overlay, -, rfl⟩ := List.mem_map.mp h
        cases hguides
    · obtain ⟨item, -, rfl⟩ := List.mem_map.mp h
      cases item <;> cases hguides
  · rw [← script, htrailing] at h
    rcases List.mem_append.mp h with h | h
    · obtain ⟨document, -, rfl⟩ := List.mem_map.mp h
      cases hguides
    · obtain rfl := List.mem_singleton.mp h
      cases hguides

/-- The opening event of a book has both fields from the one source. -/
theorem mem_opening {δ : Type} {info : EpubInfo}
    (h : .info info ∈ (Script.opening (δ := δ) book spine).map Delivery.event) :
    info.navHref = book.sourcePath (book.standing false book.navCandidate) ∧
      info.ncxHref = if (book.standing false book.navCandidate).isSome then []
        else book.sourcePath (book.standing true (book.byId.get book.package.tocIdref)) := by
  obtain ⟨source, hsource, hfound⟩ := Book.navigationSource_ok book
  obtain ⟨info', hinfo, -, -, -, hnav, hncx⟩ := Book.info_ok hfound spine
  have hevents : Script.opening (δ := δ) book spine = [⟨.info info', none⟩] := by
    unfold Script.opening
    rw [hsource]
    dsimp only
    rw [hinfo]
  rw [hevents] at h
  obtain rfl := Event.info.inj (List.mem_singleton.mp h)
  obtain rfl := Except.ok.inj (hsource.symm.trans book.navigationSource_eq)
  exact ⟨hnav.trans (book.navigationPath_nav _), hncx.trans (book.navigationPath_ncx _)⟩

/-- The navigation event of a book is read from that source. -/
theorem mem_navigation {δ : Type} {navigation : Navigation}
    (h : .navigation navigation ∈
      (Script.navigation (δ := δ) crates limits archive book).map Delivery.event) :
    ∃ source, (book.standing false book.navCandidate).or
        (book.standing true (book.byId.get book.package.tocIdref)) = some source ∧
      navigation = Script.parsedNavigation crates archive book source := by
  unfold Script.navigation at h
  rw [book.navigationSource_eq] at h
  dsimp only at h
  unfold Script.navigationEvents at h
  split at h
  · rename_i source _ hsource
    split at h
    · cases h
    · exact ⟨source, hsource, Event.navigation.inj (List.mem_singleton.mp h)⟩
  · cases h

end Response

/-! ## Both documents

The condition under which one choice is right for two fields. -/

/-- Each field says where its document is, and the navigation is read from the better one. -/
structure ReportsBoth {δ : Type} (crates : Crates) (archive : MemoryArchive) (book : Book)
    (events : List (Event δ)) : Prop where
  navHref : ∀ info, .info info ∈ events →
    info.navHref = book.sourcePath (book.standing false book.navCandidate)
  ncxHref : ∀ info, .info info ∈ events →
    info.ncxHref = book.sourcePath (book.standing true book.ncxCandidate)
  navigation : ∀ navigation, .navigation navigation ∈ events →
    ∃ source, (book.standing false book.navCandidate).or
        (book.standing true book.ncxCandidate) = some source ∧
      navigation = Script.parsedNavigation crates archive book source

/-- Both documents are reported exactly when there are not two of them, and a `toc` attribute that
is not there finds no file. -/
theorem both_reported_iff (π : Projection) (crates : Crates) (limits : Effective) (bytes : Bytes)
    (archive : MemoryArchive) (book : Book) (spine : List SpineEntry)
    (hprepared : Prepared crates limits bytes archive book spine) (client : Nat → Bool)
    (hopened : ∃ info, .info info ∈ (run π crates limits bytes client).2.events) :
    ReportsBoth crates archive book (run π crates limits bytes client).2.events ↔
      (book.standing false book.navCandidate = none ∨
        book.standing true book.ncxCandidate = none) ∧
      (book.package.tocIdref = [] → book.standing false book.navCandidate = none →
        book.standing true (book.byId.get []) = none) := by
  obtain ⟨info, hinfo⟩ := hopened
  rcases run_spec (π := π) client with hrefused | ⟨archive', book', spine', status, h⟩
  · unfold Call.events at hinfo
    rw [hrefused.sent] at hinfo
    cases hinfo
  obtain ⟨rfl, rfl, rfl⟩ := hprepared.unique h.prepared
  -- only the opening and the navigation of the response say anything of the two
  have hsub : ∀ event ∈ (run π crates limits bytes client).2.events,
      event ∈ (response π crates limits bytes archive book spine status).map Delivery.event :=
    fun event hevent => (h.sent.map Delivery.event).subset hevent
  have hinfos : ∀ info, .info info ∈ (run π crates limits bytes client).2.events →
      info.navHref = book.sourcePath (book.standing false book.navCandidate) ∧
        info.ncxHref = if (book.standing false book.navCandidate).isSome then []
          else book.sourcePath (book.standing true (book.byId.get book.package.tocIdref)) := by
    intro info hinfo
    rcases guides_of_response rfl (hsub _ hinfo) with hopening | hnavigation
    · exact mem_opening hopening
    · obtain ⟨found, hfound⟩ :=
        Script.navigation_events (δ := π.Document) crates limits archive book
      rw [hfound] at hnavigation
      obtain ⟨_, -, heq⟩ := List.mem_map.mp hnavigation
      cases heq
  have hnavigations : ∀ navigation,
      .navigation navigation ∈ (run π crates limits bytes client).2.events →
      ∃ source, (book.standing false book.navCandidate).or
          (book.standing true (book.byId.get book.package.tocIdref)) = some source ∧
        navigation = Script.parsedNavigation crates archive book source := by
    intro navigation hnavigation
    rcases guides_of_response rfl (hsub _ hnavigation) with hopening | hnavigation
    · obtain ⟨_, hevents, -⟩ := Script.opening_eq (δ := π.Document) book spine
      rw [hevents] at hopening
      cases List.mem_singleton.mp hopening
    · exact mem_navigation hnavigation
  constructor
  · intro hreports
    -- the field of the NCX is empty when there is a navigation document
    have hncx := (hinfos info hinfo).2.symm.trans (hreports.ncxHref info hinfo)
    cases hnav : book.standing false book.navCandidate with
    | some source =>
        rw [hnav] at hncx
        exact ⟨.inr ((Book.sourcePath_standing_eq_nil hprepared.baseDir).mp hncx.symm),
          fun _ hnone => absurd hnone (Option.some_ne_none source)⟩
    | none =>
        refine ⟨.inl rfl, fun htoc _ => ?_⟩
        rw [hnav, htoc, Book.ncxCandidate, if_pos htoc] at hncx
        exact (Book.sourcePath_standing_eq_nil hprepared.baseDir).mp hncx
  · rintro ⟨hone, hnamed⟩
    -- without one, both ways of finding the NCX agree
    have hsame : book.standing false book.navCandidate = none →
        book.standing true book.ncxCandidate =
          book.standing true (book.byId.get book.package.tocIdref) := by
      intro hnav
      unfold Book.ncxCandidate
      by_cases htoc : book.package.tocIdref = []
      · rw [if_pos htoc, htoc, hnamed htoc hnav]
        rfl
      · rw [if_neg htoc]
    refine ⟨fun info hinfo => (hinfos info hinfo).1, fun info hinfo => ?_,
      fun navigation hnavigation => ?_⟩
    · rw [(hinfos info hinfo).2]
      cases hnav : book.standing false book.navCandidate with
      | some source =>
          rw [hone.resolve_left (hnav ▸ Option.some_ne_none source)]
          rfl
      | none => exact congrArg book.sourcePath (hsame hnav).symm
    · obtain ⟨source, hsource, heq⟩ := hnavigations navigation hnavigation
      refine ⟨source, ?_, heq⟩
      cases hnav : book.standing false book.navCandidate with
      | some other =>
          rw [hnav] at hsource
          exact hsource
      | none =>
          rw [hnav, ← hsame hnav] at hsource
          exact hsource

/-! ## A book that ships both

A navigation document, an NCX, and a spine whose `toc` names it. -/

namespace Sample

/-- A chapter, a navigation document and an NCX. -/
def guided : List File :=
  [file "mimetype" (ascii "application/epub+zip"), file "META-INF/container.xml" [1],
    file "p.opf" [2], file "c.xhtml" [10], file "nav.xhtml" [11], file "toc.ncx" [12]]

/-- Their package document, whose spine has this `toc` attribute. -/
def guidedOpf (toc : Str) : XmlStream where
  events := [.start (tag "package" [("version", "3.0")]), .start (tag "manifest" []),
    .empty (chapterItem "c" "c.xhtml").tag,
    .empty (tag "item" [("id", "n"), ("href", "nav.xhtml"),
      ("media-type", "application/xhtml+xml"), ("properties", "nav")]),
    .empty (Item.mk "x" "toc.ncx" "application/x-dtbncx+xml" []).tag, .endTag "manifest",
    .start (tag "spine" [("toc", toc)]), .empty (tag "itemref" [("idref", "c")]),
    .endTag "spine", .endTag "package"]
  stop := .eof

def guidedCrates (toc : Str) : Crates where
  zipNew := fun _ => .ok (archive guided)
  strict := reader [([1], container "p.opf"), ([2], guidedOpf toc)]
  lenient := reader []
  parseFloat := fun _ => none

/-- The whole call. -/
def guidedRun (toc : Str) : Outcome × Call counting :=
  run counting (guidedCrates toc) defaults (upload guided) patient

/-- Where the two documents are. -/
def guides (toc : Str) : Option (Str × Str) :=
  (bookIn (guidedCrates toc) defaults (upload guided)).map fun found =>
    (found.2.1.sourcePath (found.2.1.standing false found.2.1.navCandidate),
      found.2.1.sourcePath (found.2.1.standing true found.2.1.ncxCandidate))

/-- The opening event, if this is it. -/
def openingOf {δ : Type} : Event δ → Option EpubInfo
  | .info info => some info
  | _ => none

/-- What the opening event says of them. -/
def openings (toc : Str) : List (Str × Str) :=
  ((guidedRun toc).2.events.filterMap openingOf).map fun info => (info.navHref, info.ncxHref)

theorem openings_mem {toc navHref ncxHref : Str} (h : openings toc = [(navHref, ncxHref)]) :
    ∃ info, .info info ∈ (guidedRun toc).2.events ∧ info.navHref = navHref ∧
      info.ncxHref = ncxHref := by
  obtain ⟨info, hinfo, hhrefs⟩ := List.map_eq_singleton_iff.mp h
  obtain ⟨hnav, hncx⟩ := Prod.mk.inj hhrefs
  obtain ⟨event, hevent, hsome⟩ := List.mem_filterMap.mp
    (show info ∈ (guidedRun toc).2.events.filterMap openingOf from
      hinfo ▸ List.mem_singleton_self info)
  cases event <;> cases hsome
  exact ⟨info, hevent, hnav, hncx⟩

end Sample

/-- Nothing names the NCX, and the navigation document is reported. -/
theorem nav_reported : ∃ archive book spine,
    Prepared (Sample.guidedCrates []) Sample.defaults (Sample.upload Sample.guided) archive book
      spine ∧
    ReportsBoth (Sample.guidedCrates []) archive book (Sample.guidedRun []).2.events := by
  have hcomplete : (Sample.guidedRun []).1 = .complete := by decide +kernel
  have hopenings : Sample.openings [] = [("nav.xhtml".toList, [])] := by decide +kernel
  have hguides : (bookIn (Sample.guidedCrates []) Sample.defaults (Sample.upload Sample.guided)).map
      (fun found => (found.2.1.standing true found.2.1.ncxCandidate,
        found.2.1.standing false found.2.1.navCandidate)) = some (none, some ⟨1, 4, false⟩) := by
    decide +kernel
  obtain ⟨archive, book, spine, hprepared⟩ := run_prepared hcomplete
  rw [hprepared.bookIn_eq] at hguides
  obtain ⟨hncx, hnav⟩ := Prod.mk.inj (Option.some.inj hguides)
  obtain ⟨info, hinfo, -⟩ := Sample.openings_mem hopenings
  refine ⟨archive, book, spine, hprepared, (both_reported_iff Sample.counting _ _ _ archive book
    spine hprepared Sample.patient ⟨info, hinfo⟩).mpr ⟨.inr hncx, fun _ hnone => ?_⟩⟩
  rw [show book.standing false book.navCandidate = some ⟨1, 4, false⟩ from hnav] at hnone
  cases hnone

/-- The NCX is named and in the archive, and the opening event has no path for it. -/
theorem ncx_unreported : ∃ archive book spine,
    Prepared (Sample.guidedCrates "x") Sample.defaults (Sample.upload Sample.guided) archive book
      spine ∧
    book.sourcePath (book.standing false book.navCandidate) = "nav.xhtml".toList ∧
    book.sourcePath (book.standing true book.ncxCandidate) = "toc.ncx".toList ∧
    ¬ ReportsBoth (Sample.guidedCrates "x") archive book (Sample.guidedRun "x").2.events := by
  have hcomplete : (Sample.guidedRun "x").1 = .complete := by decide +kernel
  have hopenings : Sample.openings "x" = [("nav.xhtml".toList, [])] := by decide +kernel
  have hguides : Sample.guides "x" = some ("nav.xhtml".toList, "toc.ncx".toList) := by
    decide +kernel
  obtain ⟨archive, book, spine, hprepared⟩ := run_prepared hcomplete
  unfold Sample.guides at hguides
  rw [hprepared.bookIn_eq] at hguides
  obtain ⟨hnav, hncx⟩ := Prod.mk.inj (Option.some.inj hguides)
  obtain ⟨info, hinfo, -, hempty⟩ := Sample.openings_mem hopenings
  refine ⟨archive, book, spine, hprepared, hnav, hncx, fun hreports => ?_⟩
  have hboth := hempty.symm.trans ((hreports.ncxHref info hinfo).trans hncx)
  exact absurd hboth (by decide)

end GrpcEpub
