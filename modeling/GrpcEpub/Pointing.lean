/-
# `GrpcEpub.Pointing` — which chapter an outline entry points at

The table of contents arrives ahead of the chapters, so the fold resolves its entries at the
end, through the map of groups that the chapters have left: each under its own href, and not
under the path of the spine item that it stands in for.
-/
import GrpcEpub.Lib.Last
import GrpcEpub.Safety
import GrpcEpub.Additive
import GrpcEpub.Targets

namespace GrpcEpub

/-- The path part of an entry: its href up to the first `#`. -/
def NavPoint.path (point : NavPoint) : Str := point.href.before '#'

/-- A chapter goes by its own path, and by that of the spine item it stands in for. -/
def Chapter.GoesBy (chapter : Chapter) (path : Str) : Prop :=
  path = chapter.href ∨ chapter.primaryHref ≠ [] ∧ path = chapter.primaryHref

section Events

variable {δ : Type}

/-- The chapters of a stream. -/
def chaptersOf (events : List (Event δ)) : List Chapter := events.filterMap Event.chapter?

/-- The table of contents of a stream, in reading order. -/
def contentsOf (events : List (Event δ)) : List NavPoint :=
  NavPoint.walkAll ((lastToc events).getD []) []

/-- The outline points where the table of contents does. -/
structure OutlinePoints (events : List (Event δ)) (document : Document) : Prop where
  entries : document.outline.length = (contentsOf events).length
  /-- An entry that names a chapter points at the group of that chapter. -/
  named : ∀ (n i : Nat) (point : NavPoint) (chapter : Chapter) (entry : OutlineEntry),
    (contentsOf events)[n]? = some point → (chaptersOf events)[i]? = some chapter →
    document.outline[n]? = some entry → chapter.GoesBy point.path →
    ∃ group, document.groups[i]? = some group ∧ group.name = some chapter.href ∧
      entry.target = some { ref := group.selfRef, range := none }
  /-- One that names none points nowhere. -/
  unnamed : ∀ (n : Nat) (point : NavPoint) (entry : OutlineEntry),
    (contentsOf events)[n]? = some point → document.outline[n]? = some entry →
    (∀ chapter ∈ chaptersOf events, ¬ chapter.GoesBy point.path) → entry.target = none
  resolves : ∀ entry ∈ document.outline, ∀ target, entry.target = some target →
    ∃ group ∈ document.groups, group.selfRef = target.ref

/-- No entry names a spine item that a chapter under another path stands in for. -/
def NamesNoPrimary (events : List (Event δ)) : Prop :=
  ∀ point ∈ contentsOf events, ∀ chapter ∈ chaptersOf events, chapter.primaryHref ≠ [] →
    point.path = chapter.primaryHref → chapter.primaryHref = chapter.href

end Events

/-! ## The map of groups

Each chapter is recorded under its own href; of several with one href, the last remains. -/

namespace DocumentFold

open Document

variable {δ : Type} {self self' : DocumentFold}

/-- Record the group of a chapter. -/
def record (refs : HashMap Str Str) (visit : Chapter × Nat) : HashMap Str Str :=
  AList.insert visit.1.href (groupRef visit.2) refs

/-- A chapter is recorded under its href, and nothing else is. -/
theorem chapterRefs_consume {event : Event δ} (h : self.document.Sound)
    (hconsume : self.consume event = .ok self') :
    self'.chapterRefs = (event.chapter?.toList.zipIdx self.document.groups.length).foldl record
        self.chapterRefs ∧
      self'.document.groups.length = self.document.groups.length + event.chapter?.toList.length := by
  -- how many groups there are is read off the sketch
  have hgroups : self'.document.groups.length = (self.sketch.step event).groups.length := by
    rw [← sketch_consume h hconsume]
    exact (List.length_map _).symm
  have hlength : self.sketch.groups.length = self.document.groups.length := List.length_map _
  cases event with
  | chapter chapter =>
      obtain rfl := Except.ok.inj hconsume
      refine ⟨?_, ?_⟩
      · unfold DocumentFold.chapter
        dsimp only
        split <;> rfl
      · rw [hgroups]
        unfold Sketch.step
        dsimp only
        split <;> simp [Sketch.addPicture, Event.chapter?, hlength]
  | info info =>
      obtain ⟨sourceMeta, -, hinfo⟩ := Except.bind_ok hconsume
      obtain rfl := Except.ok.inj hinfo
      exact ⟨rfl, hgroups.trans hlength⟩
  | resource resource =>
      obtain rfl := Except.ok.inj hconsume
      refine ⟨?_, ?_⟩
      · split <;> rfl
      · rw [hgroups]
        unfold Sketch.step
        dsimp only
        split <;> exact hlength
  | navigation navigation =>
      obtain rfl := Except.ok.inj hconsume
      exact ⟨rfl, rfl⟩
  | mediaOverlay overlay =>
      obtain rfl := Except.ok.inj hconsume
      exact ⟨rfl, rfl⟩
  | document document =>
      obtain rfl := Except.ok.inj hconsume
      exact ⟨rfl, rfl⟩
  | status status =>
      obtain rfl := Except.ok.inj hconsume
      exact ⟨rfl, rfl⟩

/-- A run records its chapters one after another. -/
theorem chapterRefs_consumeAll (events : List (Event δ)) (h : self.document.Sound)
    (hconsume : self.consumeAll events = .ok self') :
    self'.chapterRefs = ((chaptersOf events).zipIdx self.document.groups.length).foldl record
      self.chapterRefs := by
  unfold consumeAll at hconsume
  induction events generalizing self with
  | nil =>
      obtain rfl := Except.ok.inj hconsume
      rfl
  | cons event rest ih =>
      rw [List.foldlM_cons] at hconsume
      obtain ⟨next, hnext, hrest⟩ := Except.bind_ok hconsume
      obtain ⟨hrefs, hlength⟩ := chapterRefs_consume h hnext
      have hchapters : chaptersOf (event :: rest) = event.chapter?.toList ++ chaptersOf rest := by
        unfold chaptersOf
        rw [List.filterMap_cons]
        cases event.chapter? <;> rfl
      rw [ih (sound_consume h hnext) hrest, hchapters, List.zipIdx_append, List.foldl_append,
        hrefs, hlength]

end DocumentFold

/-! ## The outline

An entry's target is looked up by its path, and a path that is not there gives none. -/

section Outline

variable {δ : Type} {events : List (Event δ)} {version : Str} {hash : UInt64}
  {fold : DocumentFold}

/-- What the fold has of a run: its groups, and where the last chapter of a name is. -/
structure Recorded (events : List (Event δ)) (fold : DocumentFold) : Prop where
  outline : fold.take.1.outline = (contentsOf events).map (outlineEntry fold.chapterRefs)
  group : ∀ (i : Nat) (chapter : Chapter), (chaptersOf events)[i]? = some chapter →
    ∃ group, fold.take.1.groups[i]? = some group ∧ group.name = some chapter.href ∧
      group.selfRef = Document.groupRef i
  refs : ∀ path : Str, fold.chapterRefs.get path =
    (lastAt (fun chapter => chapter.href = path) (chaptersOf events)).map Document.groupRef

/-- What the fold has recorded behind the events of a stream. -/
theorem recorded (h : ((DocumentFold.new version).setSourceHash hash).consumeAll events = .ok fold) :
    Recorded events fold := by
  obtain ⟨hsound, hsketch⟩ := DocumentFold.sketch_consumeAll events .skeleton h
  obtain ⟨hnames, -, -, houtline⟩ := DocumentFold.sketch_take hsound
  obtain ⟨hnames', -, -, htoc, hkept⟩ := Sketch.foldl_step events
    ((DocumentFold.new version).setSourceHash hash).sketch
  rw [← hsketch] at hnames' htoc hkept
  have hself := (DocumentFold.sound_take hsound).named.groups
  have hgroups : fold.take.1.groups.map GroupItem.name =
      (chaptersOf events).map fun chapter => some chapter.href := hnames.trans hnames'
  refine ⟨?_, fun i chapter hi => ?_, fun path => ?_⟩
  · rw [houtline, htoc, hkept]
    exact outlineWalkAll_eq fold.chapterRefs _ []
  · have hname : (fold.take.1.groups.map GroupItem.name)[i]? = some (some chapter.href) := by
      rw [hgroups, List.getElem?_map, hi]
      rfl
    rw [List.getElem?_map] at hname
    obtain ⟨group, hgroup, hname⟩ := Option.map_eq_some_iff.mp hname
    have hrange := (List.getElem?_eq_some_iff.mp hgroup).1
    have hself' : (fold.take.1.groups.map GroupItem.selfRef)[i]? = some (Document.groupRef i) := by
      rw [hself, List.getElem?_map, List.getElem?_range hrange]
      rfl
    rw [List.getElem?_map, hgroup] at hself'
    exact ⟨group, hgroup, hname, Option.some.inj hself'⟩
  · have hwrites := @lookup_writes _ _ _ _ (fun visit : Chapter × Nat => visit.1.href)
      (fun visit => Document.groupRef visit.2) path ∅ (chaptersOf events).zipIdx
    rw [DocumentFold.chapterRefs_consumeAll events .skeleton h, lastAt, Option.map_map]
    exact hwrites.trans (Option.or_none)

/-- Where no two chapters share a name, a name is recorded for its chapter. -/
theorem Recorded.refs_iff (h : Recorded events fold)
    (hdistinct : ((chaptersOf events).map Chapter.href).Nodup) {path ref : Str} :
    fold.chapterRefs.get path = some ref ↔
      ∃ (i : Nat) (chapter : Chapter), (chaptersOf events)[i]? = some chapter ∧
        chapter.href = path ∧ ref = Document.groupRef i := by
  rw [h.refs, Option.map_eq_some_iff]
  constructor
  · rintro ⟨i, hi, rfl⟩
    obtain ⟨⟨chapter, hget, hhref⟩, -⟩ := lastAt_eq_some.mp hi
    exact ⟨i, chapter, hget, hhref, rfl⟩
  · rintro ⟨i, chapter, hget, hhref, rfl⟩
    refine ⟨i, lastAt_eq_some.mpr ⟨⟨chapter, hget, hhref⟩, fun j later hj hlater heq => ?_⟩, rfl⟩
    have hname : ∀ {k : Nat} {c : Chapter}, (chaptersOf events)[k]? = some c →
        ((chaptersOf events).map Chapter.href)[k]? = some c.href := by
      intro k c hk
      rw [List.getElem?_map, hk]
      rfl
    have hrange := (List.getElem?_eq_some_iff.mp (hname hget)).1
    have hsame : i = j := (List.getElem?_inj hrange hdistinct).mp
      ((hname hget).trans ((congrArg some (hhref.trans heq.symm)).trans (hname hlater).symm))
    exact absurd hsame hj.ne

/-- What an entry points at: the group recorded under its path. -/
theorem chapterTarget_eq {refs : HashMap Str Str} (hempty : refs.get [] = none) (href : Str) :
    Fold.chapterTarget href refs =
      (refs.get (href.before '#')).map fun ref => { ref, range := none } := by
  unfold Fold.chapterTarget
  split
  · rename_i hnil
    rw [hnil, show Str.before '#' [] = [] from rfl, hempty]
    rfl
  · rfl

/-- The entries of an outline point where they say exactly when none of them goes by the path of an
item that a chapter stands in for. -/
theorem outlinePoints_iff (h : Recorded events fold)
    (hdistinct : ((chaptersOf events).map Chapter.href).Nodup)
    (hnamed : ∀ chapter ∈ chaptersOf events, chapter.href ≠ []) :
    OutlinePoints events fold.take.1 ↔ NamesNoPrimary events := by
  have hempty : fold.chapterRefs.get [] = none := by
    cases hget : fold.chapterRefs.get [] with
    | none => rfl
    | some ref =>
        obtain ⟨i, chapter, hi, hhref, -⟩ := (h.refs_iff hdistinct).mp hget
        exact absurd hhref (hnamed chapter (List.mem_of_getElem? hi))
  have hentry : ∀ {n : Nat} {point : NavPoint} {entry : OutlineEntry},
      (contentsOf events)[n]? = some point → fold.take.1.outline[n]? = some entry →
      entry.target = (fold.chapterRefs.get point.path).map fun ref => { ref, range := none } := by
    intro n point entry hpoint hget
    rw [h.outline, List.getElem?_map, hpoint] at hget
    obtain rfl := Option.some.inj hget
    exact chapterTarget_eq hempty point.href
  constructor
  · intro hpoints point hpoint chapter hchapter hprimary hpath
    obtain ⟨n, hn⟩ := List.getElem?_of_mem hpoint
    obtain ⟨i, hi⟩ := List.getElem?_of_mem hchapter
    have hout : fold.take.1.outline[n]? = some (outlineEntry fold.chapterRefs point) := by
      rw [h.outline, List.getElem?_map, hn]
      rfl
    obtain ⟨group, hgroup, -, htarget⟩ := hpoints.named n i point chapter _ hn hi hout
      (.inr ⟨hprimary, hpath⟩)
    obtain ⟨group', hgroup', -, hself⟩ := h.group i chapter hi
    obtain rfl := Option.some.inj (hgroup.symm.trans hgroup')
    rw [hentry hn hout] at htarget
    obtain ⟨ref, hget, href⟩ := Option.map_eq_some_iff.mp htarget
    obtain rfl : ref = group.selfRef := congrArg FineRef.ref href
    obtain ⟨j, chapter', hj, hhref, hj'⟩ := (h.refs_iff hdistinct).mp hget
    -- the group of no other chapter has this name
    obtain rfl := Document.groupRef_injective (hself.symm.trans hj')
    obtain rfl := Option.some.inj (hi.symm.trans hj)
    rw [← hpath, ← hhref]
  · intro hcalm
    refine ⟨?_, fun n i point chapter entry hn hi hget hgoes => ?_,
      fun n point entry hn hget hnone => ?_, fun entry hmem target htarget => ?_⟩
    · rw [h.outline, List.length_map]
    · obtain ⟨group, hgroup, hname, hself⟩ := h.group i chapter hi
      refine ⟨group, hgroup, hname, ?_⟩
      have hpath : point.path = chapter.href := by
        rcases hgoes with hpath | ⟨hprimary, hpath⟩
        · exact hpath
        · exact hpath.trans (hcalm point (List.mem_of_getElem? hn) chapter
            (List.mem_of_getElem? hi) hprimary hpath)
      rw [hentry hn hget, (h.refs_iff hdistinct).mpr ⟨i, chapter, hi, hpath.symm, rfl⟩, hself]
      rfl
    · rw [hentry hn hget]
      cases hfound : fold.chapterRefs.get point.path with
      | none => rfl
      | some ref =>
          obtain ⟨i, chapter, hi, hhref, -⟩ := (h.refs_iff hdistinct).mp hfound
          exact absurd (.inl hhref.symm) (hnone chapter (List.mem_of_getElem? hi))
    · rw [h.outline] at hmem
      obtain ⟨point, hpoint, rfl⟩ := List.mem_map.mp hmem
      have heq := chapterTarget_eq hempty point.href
      rw [show (outlineEntry fold.chapterRefs point).target = _ from heq] at htarget
      obtain ⟨ref, hfound, rfl⟩ := Option.map_eq_some_iff.mp htarget
      obtain ⟨i, chapter, hi, -, rfl⟩ := (h.refs_iff hdistinct).mp hfound
      obtain ⟨group, hgroup, -, hself⟩ := h.group i chapter hi
      exact ⟨group, List.mem_of_getElem? hgroup, hself⟩

end Outline

/-! ## The outline of a call

From the events of a script: the contents come first, and the chapters in their order. -/

/-- A file of the archive has a name. -/
theorem Book.path_of_entry {book : Book} (hbase : Href.BaseDir book.opfDir) {position k : Nat}
    (h : (book.item position).entry = some k) : (book.item position).path ≠ [] := by
  by_cases hrange : position < book.resolved.length
  · obtain ⟨item, -, hitem⟩ := Book.item_eq hrange
    rw [hitem] at h ⊢
    unfold Extract.resolveItem at h ⊢
    split at h
    · rename_i path hresolve
      exact (Href.resolve_canonical hbase hresolve).nonempty
    · cases h
    · cases h
  · rw [item, List.getD_eq_getElem?_getD, List.getElem?_eq_none (Nat.not_lt.mp hrange)] at h
    cases h

/-- The chapters of a script are the chapters of the spine. -/
theorem chaptersOf_script {δ : Type} (crates : Crates) (limits : Effective)
    (archive : MemoryArchive) (book : Book) (spine : List SpineEntry) :
    chaptersOf ((script (δ := δ) crates limits archive book spine).map Delivery.event) =
      spine.zipIdx.map (Script.chapterMessage archive book) := by
  obtain ⟨info, navigation, overlays, hscript, -⟩ :=
    script_events crates limits archive book spine (δ := δ)
  have hleft : (navigation.toList.map (Event.navigation (δ := δ)) ++
      overlays.map Event.mediaOverlay).filterMap Event.chapter? = [] := by
    refine List.filterMap_eq_nil_iff.mpr fun event hevent => ?_
    rcases List.mem_append.mp hevent with hevent | hevent
    · obtain ⟨_, -, rfl⟩ := List.mem_map.mp hevent
      rfl
    · obtain ⟨_, -, rfl⟩ := List.mem_map.mp hevent
      rfl
  have hchapter : ∀ message : Resource ⊕ Chapter,
      Event.chapter? (Sum.elim (Event.resource (δ := δ)) .chapter message) = message.getRight? := by
    intro message
    cases message <;> rfl
  rw [hscript, ← Script.rights_walkMessages spine.zipIdx
    (book.resources limits spine), chaptersOf, List.filterMap_cons_none rfl, List.filterMap_append,
    hleft, List.nil_append, List.filterMap_map]
  exact List.filterMap_congr fun message _ => hchapter message

/-- A document that was made has a fold that it was taken from. -/
theorem fold_of_freshDocument {δ : Type} {version : Str} {hash : UInt64}
    {events : List (Event δ)} {document : Document}
    (h : freshDocument version hash events = .ok document) :
    ∃ fold, ((DocumentFold.new version).setSourceHash hash).consumeAll events = .ok fold ∧
      fold.take.1 = document := by
  unfold freshDocument at h
  cases hfold : ((DocumentFold.new version).setSourceHash hash).consumeAll events with
  | error panic =>
      rw [hfold] at h
      cases h
  | ok fold =>
      rw [hfold] at h
      exact ⟨fold, rfl, Except.ok.inj h⟩

/-- The outline of the document a call sends points where the table of contents does exactly
when the latter names no spine item that a chapter of another path stands in for. -/
theorem outline_targets_iff (version : Str) (crates : Crates) (limits : Effective) (bytes : Bytes)
    (client : Nat → Bool) (document : Document)
    (before after : List (Event (Except Panic Document)))
    (h : (run (documentFold version) crates limits bytes client).2.events =
      before ++ .document (.ok document) :: after)
    (hdistinct : ((chaptersOf before).map Chapter.href).Nodup) :
    OutlinePoints before document ↔ NamesNoPrimary before := by
  obtain ⟨archive, book, spine, hprepared, hbefore, hfresh⟩ := script_of_document client h
  obtain ⟨fold, hfold, rfl⟩ := fold_of_freshDocument hfresh.symm
  refine outlinePoints_iff (recorded hfold) hdistinct fun chapter hchapter => ?_
  rw [hbefore, chaptersOf_script] at hchapter
  obtain ⟨visit, hat, rfl⟩ := List.mem_map.mp hchapter
  have hspine := (Book.resolveSpine_ok hprepared.spine).2 visit.1 (List.fst_mem_of_mem_zipIdx hat)
  exact Book.path_of_entry hprepared.baseDir hspine.entry

/-! ## A comic

A picture in the spine with a page as its fallback, and an entry for each of the two. -/

namespace Sample

/-- A page that is an image, and the markup that stands in for it. -/
def drawn : List File :=
  [file "mimetype" (ascii "application/epub+zip"), file "META-INF/container.xml" [1],
    file "p.opf" [2], file "page.png" [20], file "page.xhtml" [10], file "n.xhtml" [3]]

def drawnOpf : XmlStream where
  events := [.start (tag "package" [("version", "3.0")]), .start (tag "manifest" []),
    .empty (tag "item" [("id", "p"), ("href", "page.png"), ("media-type", "image/png"),
      ("fallback", "t")]),
    .empty (chapterItem "t" "page.xhtml").tag,
    .empty (tag "item" [("id", "n"), ("href", "n.xhtml"), ("media-type", "text/xml"),
      ("properties", "nav")]),
    .endTag "manifest", .start (tag "spine" []), .empty (tag "itemref" [("idref", "p")]),
    .endTag "spine", .endTag "package"]
  stop := .eof

/-- A table of contents of one entry. -/
def pointingAt (href : Str) : XmlStream where
  events := [.start (tag "nav" [("epub:type", "toc")]), .start (tag "ol" []),
    .start (tag "li" []), .start (tag "a" [("href", href)]), .text "One".toList,
    .endTag "a", .endTag "li", .endTag "ol", .endTag "nav"]
  stop := .eof

def drawnCrates (href : Str) : Crates where
  zipNew := fun _ => .ok (archive drawn)
  strict := reader [([1], container "p.opf"), ([2], drawnOpf)]
  lenient := reader [([3], pointingAt href)]
  parseFloat := fun _ => none

/-- The events of a call on the comic whose only entry has this href. -/
def drawnEvents (href : Str) : List (Event (Except Panic Document)) :=
  (run (documentFold "1") (drawnCrates href) (Limits.default.resolve (asking true))
    (upload drawn) patient).2.events

/-- The events in front of a document, and it. -/
def documentIn : List (Event (Except Panic Document)) →
    Option (List (Event (Except Panic Document)) × Document)
  | [] => none
  | .document (.ok document) :: _ => some ([], document)
  | event :: rest => (documentIn rest).map fun (before, document) => (event :: before, document)

/-- The document that was found is in the stream. -/
theorem documentIn_some {document : Document} {events before : List (Event (Except Panic Document))}
    (h : documentIn events = some (before, document)) :
    ∃ after, events = before ++ .document (.ok document) :: after := by
  induction events generalizing before with
  | nil => cases h
  | cons event rest ih =>
      have hskip : documentIn (event :: rest) =
          (documentIn rest).map (fun (before, document) => (event :: before, document)) →
          ∃ after, event :: rest = before ++ .document (.ok document) :: after := by
        intro hskip
        rw [hskip] at h
        obtain ⟨⟨before', document'⟩, hin, heq⟩ := Option.map_eq_some_iff.mp h
        obtain ⟨rfl, rfl⟩ := Prod.mk.inj heq
        obtain ⟨after, rfl⟩ := ih hin
        exact ⟨after, rfl⟩
      cases event with
      | document document' =>
          cases document' with
          | ok document' =>
              obtain ⟨rfl, rfl⟩ := Prod.mk.inj (Option.some.inj h)
              exact ⟨rest, rfl⟩
          | error panic => exact hskip rfl
      | info info => exact hskip rfl
      | navigation navigation => exact hskip rfl
      | mediaOverlay overlay => exact hskip rfl
      | chapter chapter => exact hskip rfl
      | resource resource => exact hskip rfl
      | status status => exact hskip rfl

/-- The names of the chapters, the paths the entries name, and what these point at. -/
def pointers (given : List (Event (Except Panic Document)) × Document) :
    List (Str × Str) × List Str × List (Option FineRef) :=
  ((chaptersOf given.1).map fun chapter => (chapter.href, chapter.primaryHref),
    (contentsOf given.1).map NavPoint.path, given.2.outline.map OutlineEntry.target)

/-- The entry names the markup, and points at the chapter. -/
theorem pointers_markup : (documentIn (drawnEvents "page.xhtml#top")).map pointers =
    some ([("page.xhtml".toList, "page.png".toList)], ["page.xhtml".toList],
      [some { ref := "#/groups/0", range := none }]) := by decide +kernel

/-- The entry names the image, and points nowhere. -/
theorem pointers_image : (documentIn (drawnEvents "page.png")).map pointers =
    some ([("page.xhtml".toList, "page.png".toList)], ["page.png".toList], [none]) := by
  decide +kernel

end Sample

theorem outline_targets_markup : ∃ before document after,
    Sample.drawnEvents "page.xhtml#top" = before ++ .document (.ok document) :: after ∧
      OutlinePoints before document ∧
      document.outline.map OutlineEntry.target = [some { ref := "#/groups/0", range := none }] := by
  obtain ⟨⟨before, document⟩, hin, hpointers⟩ :=
    Option.map_eq_some_iff.mp Sample.pointers_markup
  obtain ⟨after, hevents⟩ := Sample.documentIn_some hin
  obtain ⟨hchapters, hrest⟩ := Prod.mk.inj hpointers
  obtain ⟨hcontents, htargets⟩ := Prod.mk.inj hrest
  have hhrefs := congrArg (List.map Prod.fst) hchapters
  rw [List.map_map] at hhrefs
  have hdistinct : ((chaptersOf before).map Chapter.href).Nodup := by
    rw [show (chaptersOf before).map Chapter.href = _ from hhrefs]
    decide
  refine ⟨before, document, after, hevents, (outline_targets_iff _ _ _ _ _ document before after
    hevents hdistinct).mpr fun point hpoint chapter hchapter _ hpath => ?_, htargets⟩
  have hpoint' := List.mem_singleton.mp (hcontents ▸ List.mem_map_of_mem hpoint)
  have hchapter' := List.mem_singleton.mp (hchapters ▸ List.mem_map_of_mem hchapter)
  rw [hpoint'] at hpath
  obtain ⟨-, hprimary⟩ := Prod.mk.inj hchapter'
  rw [show chapter.primaryHref = _ from hprimary] at hpath
  exact absurd hpath (by decide)

/-- An entry that names the image a chapter stands in for points nowhere. -/
theorem comic_entry_points_nowhere : ∃ before document after,
    Sample.drawnEvents "page.png" = before ++ .document (.ok document) :: after ∧
      ((chaptersOf before).map Chapter.href).Nodup ∧
      (∀ chapter ∈ chaptersOf before, '#' ∉ chapter.href ∧ '#' ∉ chapter.primaryHref) ∧
      (∃ point ∈ contentsOf before, ∃ chapter ∈ chaptersOf before, chapter.GoesBy point.path) ∧
      (∀ entry ∈ document.outline, entry.target = none) ∧ ¬ OutlinePoints before document := by
  obtain ⟨⟨before, document⟩, hin, hpointers⟩ := Option.map_eq_some_iff.mp Sample.pointers_image
  obtain ⟨after, hevents⟩ := Sample.documentIn_some hin
  obtain ⟨hchapters, hrest⟩ := Prod.mk.inj hpointers
  obtain ⟨hcontents, htargets⟩ := Prod.mk.inj hrest
  dsimp only at hchapters hcontents htargets
  obtain ⟨chapter, hchapter, hnames⟩ := List.map_eq_singleton_iff.mp hchapters
  obtain ⟨point, hpoint, hpath⟩ := List.map_eq_singleton_iff.mp hcontents
  obtain ⟨entry, hentry, htarget⟩ := List.map_eq_singleton_iff.mp htargets
  obtain ⟨hhref, hprimary⟩ := Prod.mk.inj hnames
  have hgoes : chapter.GoesBy point.path := by
    refine .inr ⟨?_, hpath.trans hprimary.symm⟩
    rw [hprimary]
    decide
  refine ⟨before, document, after, hevents, ?_, ?_, ?_, ?_, fun hpoints => ?_⟩
  · rw [hchapter]
    exact List.nodup_singleton _
  · intro chapter' hmem
    rw [hchapter] at hmem
    obtain rfl := List.mem_singleton.mp hmem
    rw [hhref, hprimary]
    decide
  · rw [hchapter, hpoint]
    exact ⟨point, List.mem_singleton_self _, chapter, List.mem_singleton_self _, hgoes⟩
  · intro entry' hmem
    rw [hentry] at hmem
    obtain rfl := List.mem_singleton.mp hmem
    exact htarget
  · have hfirst : ∀ {α : Type} {xs : List α} {x : α}, xs = [x] → xs[0]? = some x :=
      fun h => h ▸ rfl
    obtain ⟨group, -, -, hnamed⟩ := hpoints.named 0 0 point chapter entry (hfirst hpoint)
      (hfirst hchapter) (hfirst hentry) hgoes
    exact Option.some_ne_none _ (hnamed.symm.trans htarget)

end GrpcEpub
