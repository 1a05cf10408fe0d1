/-
# `GrpcEpub.Retaken` — a fold that is used for a second book

`take` promises an empty fold.  Of what the fold holds, a field at a time, that is so for the
document, the cover, the chapters, the outline and the overlays.  The hash of the first archive
stays, and goes into the origin of the next document that has one (`rehash_consumeAll`,
`second_document_iff`).

`rehash` puts another hash into the document of a fold and changes nothing else.  Every event
commutes with it, so the second book's document is the one that a new fold would make, with the
hash that was left behind in its origin.
-/
import GrpcEpub.Additive
import GrpcEpub.Tail

namespace GrpcEpub

/-- The same origin, with another archive's hash. -/
def DocumentOrigin.rehash (hash : UInt64) (origin : DocumentOrigin) : DocumentOrigin :=
  { origin with binaryHash := hash }

namespace Document

/-- The same document, of another archive. -/
def rehash (hash : UInt64) (document : Document) : Document :=
  { document with origin := document.origin.map (DocumentOrigin.rehash hash) }

variable (hash : UInt64) (document : Document)

theorem rehash_modifyGroup (groupRef : Str) (change : GroupItem → GroupItem) :
    (document.rehash hash).modifyGroup groupRef change =
      (document.modifyGroup groupRef change).rehash hash := by
  unfold modifyGroup
  have hindex : (document.rehash hash).groupIndex groupRef = document.groupIndex groupRef := rfl
  rw [hindex]
  split
  · rfl
  · split <;> rfl

theorem rehash_attachCues (chapters : HashMap Str Str) (overlay : MediaOverlay) :
    DocumentFold.attachCues chapters (document.rehash hash) overlay =
      (DocumentFold.attachCues chapters document overlay).rehash hash := by
  unfold DocumentFold.attachCues
  split
  · rfl
  · exact rehash_modifyGroup hash document _ _

theorem rehash_narrate (narrationMs : Real64) :
    DocumentFold.narrate narrationMs (document.rehash hash) =
      (DocumentFold.narrate narrationMs document).rehash hash := by
  unfold DocumentFold.narrate
  split <;> rfl

/-- The hash is in the origin and nowhere else. -/
theorem rehash_eq_iff {document : Document} :
    document.rehash hash = document ↔ ∀ origin ∈ document.origin, origin.binaryHash = hash := by
  constructor
  · intro h origin horigin
    have hsame : (document.rehash hash).origin = document.origin := congrArg Document.origin h
    unfold rehash at hsame
    rw [Option.mem_def.mp horigin] at hsame
    exact (congrArg DocumentOrigin.binaryHash (Option.some.inj hsame)).symm
  · intro h
    unfold rehash
    cases horigin : document.origin with
    | none =>
        rw [Option.map_none, ← horigin]
    | some origin =>
        have hhash := h origin horigin
        subst hhash
        change { document with origin := some origin } = document
        rw [← horigin]

end Document

namespace DocumentFold

/-- The same fold, of another archive. -/
def rehash (hash : UInt64) (self : DocumentFold) : DocumentFold :=
  { self with sourceHash := hash, document := self.document.rehash hash }

variable (hash : UInt64) (self : DocumentFold)

/-- A picture knows nothing of the hash. -/
theorem rehash_addPicture (parentRef href manifestId mediaType : Str) :
    (self.rehash hash).addPicture parentRef href manifestId mediaType =
      (self.addPicture parentRef href manifestId mediaType).rehash hash := by
  unfold addPicture
  have hpush (picture : PictureItem) :
      (self.document.rehash hash).pushPicture parentRef picture =
        (self.document.pushPicture parentRef picture).rehash hash :=
    Document.rehash_modifyGroup hash
      { self.document with pictures := self.document.pictures ++ [picture] } parentRef _
  have hpicture : (self.rehash hash).pictureItem parentRef href manifestId mediaType =
      self.pictureItem parentRef href manifestId mediaType := rfl
  dsimp only
  rw [hpicture]
  exact congrArg (fun document => { self with sourceHash := hash, document }) (hpush _)

/-- A chapter is added to the groups, which know nothing of the hash. -/
theorem rehash_chapter (chapter : Chapter) :
    (self.rehash hash).chapter chapter = (self.chapter chapter).rehash hash := by
  have hpush (group : GroupItem) : (self.document.rehash hash).pushGroup group =
      (self.document.pushGroup group).rehash hash :=
    Document.rehash_modifyGroup hash
      { self.document with groups := self.document.groups ++ [group] } bodyRef _
  unfold DocumentFold.chapter
  have hgroup : (self.rehash hash).chapterGroup chapter = self.chapterGroup chapter := rfl
  dsimp only
  rw [hgroup]
  have hpushed : { self.rehash hash with
      document := (self.rehash hash).document.pushGroup (self.chapterGroup chapter) } =
      ({ self with document := self.document.pushGroup (self.chapterGroup chapter) } :
        DocumentFold).rehash hash :=
    congrArg (fun document => { self with sourceHash := hash, document }) (hpush _)
  rw [hpushed]
  split
  · rw [rehash_addPicture]
    rfl
  · rfl

/-- What an event does has nothing to do with the hash, which it only copies. -/
theorem rehash_consume {δ : Type} (event : Event δ) :
    (self.rehash hash).consume event = (self.consume event).map (rehash hash) := by
  cases event with
  | info info =>
      change (Fold.sourceMeta info >>= fun sourceMeta =>
          pure ((self.rehash hash).describe info sourceMeta)) =
        ((Fold.sourceMeta info >>= fun sourceMeta =>
          pure (self.describe info sourceMeta)).map (rehash hash))
      cases Fold.sourceMeta info with
      | error panic => rfl
      | ok sourceMeta =>
          have hdocument := Document.rehash_modifyGroup hash
            { self.document with name := info.title, origin := self.origin, sourceMeta } bodyRef
            fun body => { body with metadata := some (Fold.bodyMeta info) }
          exact congrArg (fun document => Except.ok { self with
            sourceHash := hash, coverHref := info.coverHref, document }) hdocument
  | chapter chapter => exact congrArg Except.ok (rehash_chapter hash self chapter)
  | resource resource =>
      refine congrArg Except.ok ?_
      split
      · exact rehash_addPicture hash self _ _ _ _
      · rfl
  | navigation navigation => rfl
  | mediaOverlay overlay => rfl
  | document document => rfl
  | status status => rfl

theorem rehash_consumeAll {δ : Type} (events : List (Event δ)) :
    (self.rehash hash).consumeAll events = (self.consumeAll events).map (rehash hash) := by
  unfold consumeAll
  induction events generalizing self with
  | nil => rfl
  | cons event rest ih =>
      rw [List.foldlM_cons, List.foldlM_cons, rehash_consume]
      cases self.consume event with
      | error panic => rfl
      | ok next => exact ih next

theorem rehash_foldl_attachCues (chapters : HashMap Str Str) (overlays : List MediaOverlay)
    (document : Document) : overlays.foldl (attachCues chapters) (document.rehash hash) =
      (overlays.foldl (attachCues chapters) document).rehash hash := by
  induction overlays generalizing document with
  | nil => rfl
  | cons overlay rest ih =>
      rw [List.foldl_cons, Document.rehash_attachCues]
      exact ih _

theorem rehash_take : (self.rehash hash).take.1 = self.take.1.rehash hash := by
  have hcues := rehash_foldl_attachCues hash self.chapterRefs self.overlays
    self.projectOutline.document
  change narrate _ (self.overlays.foldl (attachCues self.chapterRefs)
    (self.projectOutline.document.rehash hash)) = _
  rw [hcues]
  exact Document.rehash_narrate hash _ _

/-! ## What `take` leaves

A new fold, but for the hash. -/

/-- Taking a fold leaves a fresh one, but for the hash. -/
theorem take_fresh : self.take.2 = (DocumentFold.new self.version).setSourceHash self.sourceHash :=
  rfl

variable {self} {self' : DocumentFold}

/-- No event changes the version or the hash of a fold. -/
theorem consume_fixed {δ : Type} {event : Event δ} (hconsume : self.consume event = .ok self') :
    self'.version = self.version ∧ self'.sourceHash = self.sourceHash := by
  cases event with
  | info info =>
      obtain ⟨sourceMeta, -, hinfo⟩ := Except.bind_ok hconsume
      obtain rfl := Except.ok.inj hinfo
      exact ⟨rfl, rfl⟩
  | chapter chapter =>
      obtain rfl := Except.ok.inj hconsume
      unfold DocumentFold.chapter
      dsimp only
      split <;> exact ⟨rfl, rfl⟩
  | resource resource =>
      obtain rfl := Except.ok.inj hconsume
      split <;> exact ⟨rfl, rfl⟩
  | navigation navigation =>
      obtain rfl := Except.ok.inj hconsume
      exact ⟨rfl, rfl⟩
  | mediaOverlay overlay =>
      obtain rfl := Except.ok.inj hconsume
      exact ⟨rfl, rfl⟩
  | document document =>
      obtain rfl := Except.ok.inj hconsume
      exact ⟨rfl, rfl⟩
  | status status =>
      obtain rfl := Except.ok.inj hconsume
      exact ⟨rfl, rfl⟩

/-- No events change the version or the hash. -/
theorem consumeAll_fixed {δ : Type} (events : List (Event δ))
    (hconsume : self.consumeAll events = .ok self') :
    self'.version = self.version ∧ self'.sourceHash = self.sourceHash := by
  unfold consumeAll at hconsume
  induction events generalizing self with
  | nil =>
      obtain rfl := Except.ok.inj hconsume
      exact ⟨rfl, rfl⟩
  | cons event rest ih =>
      rw [List.foldlM_cons] at hconsume
      obtain ⟨next, hnext, hrest⟩ := Except.bind_ok hconsume
      obtain ⟨hversion, hhash⟩ := consume_fixed hnext
      rw [← hversion, ← hhash]
      exact ih hrest

/-! ## What has an origin

The origin is made by the info event, and nothing else touches it. -/

theorem origin_modifyGroup (groupRef : Str) (change : GroupItem → GroupItem) (document : Document) :
    (document.modifyGroup groupRef change).origin = document.origin := by
  unfold Document.modifyGroup
  split
  · rfl
  · split <;> rfl

/-- Taking the document leaves its origin in it. -/
theorem origin_take (self : DocumentFold) : self.take.1.origin = self.document.origin := by
  have hcues (overlays : List MediaOverlay) (document : Document) :
      (overlays.foldl (attachCues self.chapterRefs) document).origin = document.origin := by
    induction overlays generalizing document with
    | nil => rfl
    | cons overlay rest ih =>
        rw [List.foldl_cons, ih]
        unfold attachCues
        split
        · rfl
        · exact origin_modifyGroup _ _ _
  have hnarrate (narrationMs : Real64) (document : Document) :
      (narrate narrationMs document).origin = document.origin := by
    unfold narrate
    split <;> rfl
  exact (hnarrate _ _).trans (hcues _ _)

end DocumentFold

/-- Whether this is the opening event. -/
def Event.isInfo {δ : Type} : Event δ → Bool
  | .info _ => true
  | _ => false

namespace DocumentFold

variable {self self' : DocumentFold}

/-- An opening event gives the document its origin; no other event does. -/
theorem origin_consume {δ : Type} {event : Event δ} (hconsume : self.consume event = .ok self') :
    self'.document.origin = if event.isInfo then some self.origin else self.document.origin := by
  cases event with
  | info info =>
      obtain ⟨sourceMeta, -, hinfo⟩ := Except.bind_ok hconsume
      obtain rfl := Except.ok.inj hinfo
      exact origin_modifyGroup _ _ _
  | chapter chapter =>
      obtain rfl := Except.ok.inj hconsume
      unfold DocumentFold.chapter
      dsimp only
      split
      · exact (origin_modifyGroup _ _ _).trans (origin_modifyGroup _ _ _)
      · exact origin_modifyGroup _ _ _
  | resource resource =>
      obtain rfl := Except.ok.inj hconsume
      split
      · exact origin_modifyGroup _ _ _
      · rfl
  | navigation navigation =>
      obtain rfl := Except.ok.inj hconsume
      rfl
  | mediaOverlay overlay =>
      obtain rfl := Except.ok.inj hconsume
      rfl
  | document document =>
      obtain rfl := Except.ok.inj hconsume
      rfl
  | status status =>
      obtain rfl := Except.ok.inj hconsume
      rfl

/-- A stream gives the document its origin when there is an info in it. -/
theorem origin_consumeAll {δ : Type} (events : List (Event δ))
    (hconsume : self.consumeAll events = .ok self') :
    self'.document.origin =
      if events.any Event.isInfo then some self.origin else self.document.origin := by
  unfold consumeAll at hconsume
  induction events generalizing self with
  | nil =>
      obtain rfl := Except.ok.inj hconsume
      rfl
  | cons event rest ih =>
      rw [List.foldlM_cons] at hconsume
      obtain ⟨next, hnext, hrest⟩ := Except.bind_ok hconsume
      have hsame : next.origin = self.origin := by
        unfold origin
        rw [(consume_fixed hnext).2]
      rw [ih hrest, origin_consume hnext, hsame, List.any_cons]
      cases event.isInfo <;> cases rest.any Event.isInfo <;> rfl

/-- The dates of every opening event can be read. -/
def Readable {δ : Type} (events : List (Event δ)) : Prop :=
  ∀ info, .info info ∈ events → ∃ described, Fold.sourceMeta info = .ok described

/-- Only an opening event can keep a fold from going on. -/
theorem consume_returns_iff {δ : Type} (event : Event δ) (self : DocumentFold) :
    (∃ next, self.consume event = .ok next) ↔
      ∀ info, event = .info info → ∃ described, Fold.sourceMeta info = .ok described := by
  constructor
  · rintro ⟨next, hnext⟩ info rfl
    obtain ⟨described, hdescribed, -⟩ := Except.bind_ok hnext
    exact ⟨described, hdescribed⟩
  · intro h
    cases event with
    | info info =>
        obtain ⟨described, hdescribed⟩ := h info rfl
        refine ⟨self.describe info described, ?_⟩
        change (Fold.sourceMeta info >>= fun sourceMeta => pure (self.describe info sourceMeta)) = _
        rw [hdescribed]
        rfl
    | chapter chapter => exact ⟨_, rfl⟩
    | resource resource => exact ⟨_, rfl⟩
    | navigation navigation => exact ⟨_, rfl⟩
    | mediaOverlay overlay => exact ⟨_, rfl⟩
    | document document => exact ⟨_, rfl⟩
    | status status => exact ⟨_, rfl⟩

/-- A stream is consumed to its end exactly when its dates can be read. -/
theorem consumeAll_returns_iff {δ : Type} (events : List (Event δ)) (self : DocumentFold) :
    (∃ self', self.consumeAll events = .ok self') ↔ Readable events := by
  unfold consumeAll
  induction events generalizing self with
  | nil => exact ⟨fun _ info hinfo => absurd hinfo List.not_mem_nil, fun _ => ⟨self, rfl⟩⟩
  | cons event rest ih =>
      rw [List.foldlM_cons]
      constructor
      · rintro ⟨self', h⟩ info hinfo
        obtain ⟨next, hnext, hrest⟩ := Except.bind_ok h
        rcases List.mem_cons.mp hinfo with heq | hinfo
        · exact (consume_returns_iff event self).mp ⟨next, hnext⟩ info heq.symm
        · exact (ih next).mp ⟨self', hrest⟩ info hinfo
      · intro h
        obtain ⟨next, hnext⟩ := (consume_returns_iff event self).mpr fun info heq =>
          h info (heq ▸ List.mem_cons_self)
        rw [hnext]
        exact (ih next).mpr fun info hinfo => h info (List.mem_cons_of_mem _ hinfo)

/-! ## Two books

The first book's events, `take`, and the second book's events. -/

/-- A fold of this version that these hashes were set on, one after the other. -/
def prepared (version : Str) (hashes : List UInt64) : DocumentFold :=
  hashes.foldl (fun self hash => self.setSourceHash hash) (new version)

theorem prepared_eq (version : Str) (hashes : List UInt64) :
    prepared version hashes = (new version).setSourceHash (hashes.getLastD 0) := by
  unfold prepared
  have hlast (hashes : List UInt64) (self : DocumentFold) :
      hashes.foldl (fun self hash => self.setSourceHash hash) self =
        self.setSourceHash (hashes.getLastD self.sourceHash) := by
    induction hashes generalizing self with
    | nil => rfl
    | cons hash rest ih =>
        rw [List.foldl_cons, ih, List.getLastD_cons]
        rfl
  exact hlast hashes (new version)

/-- The document of a book alone. -/
def documentOf {δ : Type} (self : DocumentFold) (events : List (Event δ)) :
    Except Panic Document :=
  (self.consumeAll events).map fun self => self.take.1

/-- The second document, of a fold that two books went through. -/
def secondDocument {δ : Type} (self : DocumentFold) (first second : List (Event δ)) :
    Except Panic Document := do
  let self ← self.consumeAll first
  self.take.2.documentOf second

/-- The first book is gone, but for its hash. -/
theorem secondDocument_eq {δ : Type} {version : Str} {hashes : List UInt64}
    {first : List (Event δ)} (h : Readable first) (second : List (Event δ)) :
    (prepared version hashes).secondDocument first second =
      ((new version).documentOf second).map (Document.rehash (hashes.getLastD 0)) := by
  obtain ⟨used, hused⟩ := (consumeAll_returns_iff first (prepared version hashes)).mpr h
  obtain ⟨hversion, hhash⟩ := consumeAll_fixed first hused
  have hfresh : used.take.2 = (new version).rehash (hashes.getLastD 0) := by
    rw [take_fresh, hversion, hhash, prepared_eq]
    rfl
  unfold secondDocument
  rw [hused]
  change used.take.2.documentOf second = _
  unfold documentOf
  rw [hfresh, rehash_consumeAll]
  cases (new version).consumeAll second with
  | error panic => rfl
  | ok last => exact congrArg Except.ok (rehash_take _ last)

/-- The second document says nothing of the first book exactly when there is no hash to leave
behind, no origin to put it in, or no document. -/
theorem secondDocument_iff {δ : Type} (version : Str) (hashes : List UInt64)
    (first second : List (Event δ)) (h : Readable first) :
    (prepared version hashes).secondDocument first second = (new version).documentOf second ↔
      hashes.getLastD 0 = 0 ∨ (∀ event ∈ second, event.isInfo = false) ∨ ¬ Readable second := by
  rw [secondDocument_eq h]
  unfold documentOf
  cases hlast : (new version).consumeAll second with
  | error panic =>
      refine ⟨fun _ => .inr (.inr fun hreadable => ?_), fun _ => rfl⟩
      obtain ⟨last, hok⟩ := (consumeAll_returns_iff second (new version)).mpr hreadable
      rw [hlast] at hok
      cases hok
  | ok last =>
      have hreadable := (consumeAll_returns_iff second (new version)).mp ⟨last, hlast⟩
      have horigin := (origin_take last).trans (origin_consumeAll second hlast)
      have hsame : (Except.ok last.take.1 : Except Panic Document).map
          (Document.rehash (hashes.getLastD 0)) = .ok last.take.1 ↔
            ∀ origin ∈ last.take.1.origin, origin.binaryHash = hashes.getLastD 0 :=
        Iff.trans ⟨Except.ok.inj, congrArg Except.ok⟩ (Document.rehash_eq_iff _)
      refine hsame.trans ?_
      rw [horigin]
      by_cases hinfo : second.any Event.isInfo = true
      · rw [if_pos hinfo]
        constructor
        · intro hall
          exact .inl (hall _ rfl).symm
        · rintro (hzero | hnone | hpanic)
          · intro origin horigin
            rw [← Option.some.inj horigin, hzero]
            rfl
          · obtain ⟨event, hevent, his⟩ := List.any_eq_true.mp hinfo
            exact absurd his (by rw [hnone event hevent]; exact Bool.false_ne_true)
          · exact absurd hreadable hpanic
      · rw [if_neg hinfo]
        refine ⟨fun _ => .inr (.inl fun event hevent => ?_), fun _ origin horigin => ?_⟩
        · exact Bool.eq_false_of_not_eq_true fun his =>
            hinfo (List.any_eq_true.mpr ⟨event, hevent, his⟩)
        · exact absurd horigin (Option.not_mem_none origin)

/-- A chapter of a book. -/
def page (href : Str) : Chapter where
  spineIndex := 0
  idref := "one"
  href := href
  mediaType := "application/xhtml+xml"
  content := [60, 112, 47, 62]
  linear := true
  properties := []
  mediaOverlayHref := []
  primaryHref := href

/-- A book with an author. -/
def notes : List (Event Unit) := [.info Fold.modest, .chapter (page "notes.xhtml")]

/-- Another one, with a table of contents. -/
def sequel : List (Event Unit) :=
  [.info { Fold.modest with title := "More Notes" }, .chapter (page "more.xhtml"),
    .navigation { sourceHref := "nav.xhtml", toc := [.mk "One" "more.xhtml" 0 []], fromNcx := false }]

theorem readable_notes : Readable notes := by
  intro info hinfo
  rcases List.mem_cons.mp hinfo with heq | hrest
  · obtain rfl := Event.info.inj heq
    exact ⟨_, rfl⟩
  · cases List.mem_singleton.mp hrest

/-- Without a hash, nothing is left behind. -/
theorem secondDocument_unhashed :
    (prepared "1" []).secondDocument notes sequel = (new "1").documentOf sequel :=
  (secondDocument_iff "1" [] notes sequel readable_notes).mpr (.inl rfl)

/-- The second book says that it comes from the archive of the first. -/
theorem hash_left_behind :
    (prepared "1" [7]).secondDocument notes sequel ≠ (new "1").documentOf sequel := by
  intro h
  have horigin := congrArg (fun document : Except Panic Document =>
    document.toOption.bind Document.origin) h
  exact absurd horigin (by decide +kernel)

end DocumentFold

end GrpcEpub
