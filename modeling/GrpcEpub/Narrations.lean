/-
# `GrpcEpub.Narrations` — which chapter an overlay narrates

A manifest item names its overlay, and the overlay's event names the item by its path.  A chapter
that is read through a fallback carries the overlay of the spine item it stands in for, but goes
by the path of the fallback, so that event names no chapter; and what the document's groups carry
is the last that was said of their path.

What a book narrates is a list of pairs, an item and an overlay that it names.  What its stream
says is a list of overlay events, each with a path; and what the document says is on its groups.
The three agree exactly when paths tell apart what positions do (`NarratesByName`).
-/
import GrpcEpub.Absent
import GrpcEpub.Pointing

namespace GrpcEpub

open Document

/-! ## The cues of a group

Cues are written in a custom field of a group.  No event before the end of the stream writes it. -/

/-- The cues a group carries. -/
def GroupItem.cues (group : GroupItem) : Option Value :=
  group.metadata.bind fun metadata => metadata.customFields.get "epub.media_overlay_cues"

/-- The cues of an overlay, as a group carries them. -/
def MediaOverlay.listed (overlay : MediaOverlay) : Value :=
  .list (overlay.cues.map DocumentFold.cueValue)

/-- Every group says something, and none of them has cues. -/
def Document.Cueless (document : Document) : Prop :=
  ∀ metadata ∈ document.groups.map GroupItem.metadata, ∃ stated, metadata = some stated ∧
    stated.customFields.get "epub.media_overlay_cues" = none

namespace DocumentFold

open Fold

variable {self self' : DocumentFold} {document : Document}

theorem metadata_modifyGroup (ref : Str) (change : GroupItem → GroupItem)
    (hchange : ∀ group, (change group).metadata = group.metadata) :
    (document.modifyGroup ref change).groups.map GroupItem.metadata =
      document.groups.map GroupItem.metadata := by
  unfold modifyGroup
  split
  · rfl
  · split
    · exact map_modify GroupItem.metadata _ _ change hchange
    · rfl

theorem metadata_addPicture (ref href manifestId mediaType : Str) :
    (self.addPicture ref href manifestId mediaType).document.groups.map GroupItem.metadata =
      self.document.groups.map GroupItem.metadata :=
  metadata_modifyGroup ref _ fun _ => rfl

/-- Another field is no cues. -/
theorem uncued_insert {fields : Fields} {key : Str} {value : Value}
    (hkey : "epub.media_overlay_cues".toList ≠ key)
    (h : fields.get "epub.media_overlay_cues" = none) :
    HashMap.get (AList.insert key value fields) "epub.media_overlay_cues" = none := by
  rw [HashMap.get_insert, if_neg hkey, h]

/-- The group of a chapter starts without cues. -/
theorem cueless_chapterGroup (chapter : Chapter) : ∃ stated,
    (self.chapterGroup chapter).metadata = some stated ∧
      stated.customFields.get "epub.media_overlay_cues" = none := by
  refine ⟨_, rfl, uncued_insert (by decide) ?_⟩
  have hstrings : ∀ {fields : Fields}, fields.get "epub.media_overlay_cues" = none →
      (insertStrings fields "epub.properties" chapter.properties).get "epub.media_overlay_cues" =
        none := by
    intro fields h
    unfold insertStrings
    split
    · exact uncued_insert (by decide) h
    · exact h
  unfold insertText
  split
  on_goal 1 => refine uncued_insert (by decide) ?_
  all_goals exact hstrings (uncued_insert (by decide) (uncued_insert (by decide)
    (uncued_insert (by decide) (uncued_insert (by decide) rfl))))

/-- A chapter's group comes without cues. -/
theorem cueless_chapter (h : self.document.Cueless) (chapter : Chapter) :
    (self.chapter chapter).document.Cueless := by
  have hpushed : (self.document.pushGroup (self.chapterGroup chapter)).Cueless := by
    intro metadata hmem
    rw [pushGroup_groups, List.map_append, List.mem_append] at hmem
    rcases hmem with hmem | hmem
    · exact h metadata hmem
    · rw [List.mem_singleton.mp hmem]
      exact cueless_chapterGroup chapter
  unfold DocumentFold.chapter
  dsimp only
  split
  · unfold Cueless
    rw [metadata_addPicture]
    exact hpushed
  · exact hpushed

/-- No event puts cues on a group. -/
theorem cueless_consume {δ : Type} {event : Event δ} (h : self.document.Cueless)
    (hconsume : self.consume event = .ok self') : self'.document.Cueless := by
  cases event with
  | info info =>
      obtain ⟨sourceMeta, -, hinfo⟩ := Except.bind_ok hconsume
      obtain rfl := Except.ok.inj hinfo
      exact h
  | chapter chapter =>
      obtain rfl := Except.ok.inj hconsume
      exact cueless_chapter h chapter
  | resource resource =>
      obtain rfl := Except.ok.inj hconsume
      split
      · unfold picture Cueless
        rw [metadata_addPicture]
        exact h
      · exact h
  | navigation navigation =>
      obtain rfl := Except.ok.inj hconsume
      exact h
  | mediaOverlay overlay =>
      obtain rfl := Except.ok.inj hconsume
      exact h
  | document document =>
      obtain rfl := Except.ok.inj hconsume
      exact h
  | status status =>
      obtain rfl := Except.ok.inj hconsume
      exact h

theorem cueless_consumeAll {δ : Type} (events : List (Event δ)) (h : self.document.Cueless)
    (hconsume : self.consumeAll events = .ok self') : self'.document.Cueless := by
  unfold consumeAll at hconsume
  induction events generalizing self with
  | nil =>
      obtain rfl := Except.ok.inj hconsume
      exact h
  | cons event rest ih =>
      rw [List.foldlM_cons] at hconsume
      obtain ⟨next, hnext, hrest⟩ := Except.bind_ok hconsume
      exact ih (cueless_consume h hnext) hrest

/-! ## The overlays of a stream

The fold collects them until the document is taken. -/

end DocumentFold

/-- The overlay of an event. -/
def Event.overlay? {δ : Type} : Event δ → Option MediaOverlay
  | .mediaOverlay overlay => some overlay
  | _ => none

/-- The overlays of a stream. -/
def overlaysOf {δ : Type} (events : List (Event δ)) : List MediaOverlay :=
  events.filterMap Event.overlay?

namespace DocumentFold

variable {self self' : DocumentFold} {document : Document}

/-- The overlays are held until the end. -/
theorem overlays_consume {δ : Type} {event : Event δ} (hconsume : self.consume event = .ok self') :
    self'.overlays = self.overlays ++ event.overlay?.toList := by
  cases event with
  | info info =>
      obtain ⟨sourceMeta, -, hinfo⟩ := Except.bind_ok hconsume
      obtain rfl := Except.ok.inj hinfo
      exact (List.append_nil _).symm
  | chapter chapter =>
      obtain rfl := Except.ok.inj hconsume
      unfold DocumentFold.chapter
      dsimp only
      split <;> exact (List.append_nil _).symm
  | resource resource =>
      obtain rfl := Except.ok.inj hconsume
      split <;> exact (List.append_nil _).symm
  | navigation navigation =>
      obtain rfl := Except.ok.inj hconsume
      exact (List.append_nil _).symm
  | mediaOverlay overlay =>
      obtain rfl := Except.ok.inj hconsume
      rfl
  | document document =>
      obtain rfl := Except.ok.inj hconsume
      exact (List.append_nil _).symm
  | status status =>
      obtain rfl := Except.ok.inj hconsume
      exact (List.append_nil _).symm

/-- The fold collects the overlays of a stream. -/
theorem overlays_consumeAll {δ : Type} (events : List (Event δ))
    (hconsume : self.consumeAll events = .ok self') :
    self'.overlays = self.overlays ++ overlaysOf events := by
  unfold consumeAll at hconsume
  induction events generalizing self with
  | nil =>
      obtain rfl := Except.ok.inj hconsume
      exact (List.append_nil _).symm
  | cons event rest ih =>
      rw [List.foldlM_cons] at hconsume
      obtain ⟨next, hnext, hrest⟩ := Except.bind_ok hconsume
      have hoverlays : overlaysOf (event :: rest) = event.overlay?.toList ++ overlaysOf rest := by
        unfold overlaysOf
        rw [List.filterMap_cons]
        cases event.overlay? <;> rfl
      rw [ih hrest, overlays_consume hnext, hoverlays, List.append_assoc]

/-! ## Cues on groups

When the document is taken, each overlay goes to the groups of its path, one after another.  A
group keeps the last of them. -/

/-- The cues of the group at a position. -/
def cuesAt (document : Document) (i : Nat) : Option Value :=
  document.groups[i]?.bind GroupItem.cues

/-- What attaching cues leaves as it is: how many groups there are, and that each says something. -/
structure Labelled (document document' : Document) : Prop where
  length : document'.groups.length = document.groups.length
  stated : ∀ group ∈ document'.groups, group.metadata.isSome

/-- A group with the cues of an overlay. -/
def narrated (overlay : MediaOverlay) (group : GroupItem) : GroupItem :=
  { group with
    metadata := group.metadata.map fun metadata =>
      { metadata with
        customFields := AList.insert "epub.media_overlay_cues".toList overlay.listed
          metadata.customFields } }

theorem cues_narrated {overlay : MediaOverlay} {group : GroupItem}
    (h : group.metadata.isSome) : (narrated overlay group).cues = some overlay.listed := by
  obtain ⟨stated, hsome⟩ := Option.isSome_iff_exists.mp h
  change Option.bind (group.metadata.map _) _ = _
  rw [hsome]
  exact (HashMap.get_insert ..).trans (if_pos rfl)

/-- One overlay puts its cues on the group of its path. -/
theorem attachCues_at {refs : HashMap Str Str} {overlay : MediaOverlay} {found : Option Nat}
    (hrefs : refs.get overlay.chapterHref = found.map groupRef)
    (hrange : ∀ i, found = some i → i < document.groups.length)
    (hstated : ∀ group ∈ document.groups, group.metadata.isSome) :
    Labelled document (attachCues refs document overlay) ∧
    ∀ i, cuesAt (attachCues refs document overlay) i =
      if found = some i then some overlay.listed else cuesAt document i := by
  unfold attachCues
  rw [hrefs]
  cases found with
  | none => exact ⟨⟨rfl, hstated⟩, fun i => rfl⟩
  | some index =>
      have hlt := hrange index rfl
      change Labelled document (document.modifyGroup (groupRef index) (narrated overlay)) ∧
        ∀ i, cuesAt (document.modifyGroup (groupRef index) (narrated overlay)) i = _
      rw [Named.modify_group hlt]
      refine ⟨⟨List.length_modify .., fun group hgroup => ?_⟩, fun i => ?_⟩
      · obtain ⟨i, hi⟩ := List.getElem?_of_mem hgroup
        by_cases hsame : index = i
        · rw [hsame, List.getElem?_modify_eq] at hi
          obtain ⟨before, hbefore, rfl⟩ := Option.map_eq_some_iff.mp hi
          exact (Option.isSome_map ..).trans (hstated before (List.mem_of_getElem? hbefore))
        · rw [List.getElem?_modify_ne _ _ hsame] at hi
          exact hstated group (List.mem_of_getElem? hi)
      · unfold cuesAt
        dsimp only
        by_cases hsame : index = i
        · subst hsame
          rw [if_pos rfl, List.getElem?_modify_eq, List.getElem?_eq_getElem hlt]
          exact cues_narrated (hstated _ (List.getElem_mem hlt))
        · rw [List.getElem?_modify_ne _ _ hsame, if_neg fun h => hsame (Option.some.inj h)]

/-- Of several, the last for its path. -/
theorem attachAll_at {refs : HashMap Str Str} {found : Str → Option Nat}
    (hrefs : ∀ path, refs.get path = (found path).map groupRef)
    (hrange : ∀ path i, found path = some i → i < document.groups.length)
    (hstated : ∀ group ∈ document.groups, group.metadata.isSome) (overlays : List MediaOverlay) :
    Labelled document (overlays.foldl (attachCues refs) document) ∧
    ∀ i, cuesAt (overlays.foldl (attachCues refs) document) i =
      ((lastOf (fun overlay => found overlay.chapterHref = some i) overlays).map
        MediaOverlay.listed).or (cuesAt document i) := by
  induction overlays using List.reverseRecOn with
  | nil => exact ⟨⟨rfl, hstated⟩, fun i => rfl⟩
  | append_singleton rest overlay ih =>
      obtain ⟨⟨hlength, hstill⟩, hcues⟩ := ih
      rw [List.foldl_append, List.foldl_cons, List.foldl_nil]
      obtain ⟨hlabelled, hlast⟩ := attachCues_at (hrefs overlay.chapterHref)
        (fun i hi => hlength ▸ hrange _ i hi) hstill
      refine ⟨⟨hlabelled.length.trans hlength, hlabelled.stated⟩, fun i => ?_⟩
      rw [hlast i, lastOf_concat, hcues i]
      split <;> rfl

end DocumentFold

section Carried

variable {δ : Type} {events : List (Event δ)} {version : Str} {hash : UInt64}
  {fold : DocumentFold}

/-- In the end a group has the cues of the last overlay whose path leads to it. -/
theorem cues_taken
    (h : ((DocumentFold.new version).setSourceHash hash).consumeAll events = .ok fold) (i : Nat) :
    DocumentFold.cuesAt fold.take.1 i =
      (lastOf (fun overlay => lastAt (fun chapter => chapter.href = overlay.chapterHref)
        (chaptersOf events) = some i) (overlaysOf events)).map MediaOverlay.listed := by
  have hcueless : fold.document.Cueless :=
    DocumentFold.cueless_consumeAll events (fun metadata hmem => absurd hmem List.not_mem_nil) h
  have hlength : fold.document.groups.length = (chaptersOf events).length := by
    have hgroups := (Sketch.foldl_step events
      ((DocumentFold.new version).setSourceHash hash).sketch).groups
    rw [← (DocumentFold.sketch_consumeAll events .skeleton h).2] at hgroups
    have hlengths := congrArg List.length hgroups
    exact (List.length_map _).symm.trans (hlengths.trans (List.length_map _))
  have hrange : ∀ (path : Str) (i : Nat),
      lastAt (fun chapter => chapter.href = path) (chaptersOf events) = some i →
        i < fold.document.groups.length := by
    intro path i hi
    obtain ⟨⟨chapter, hget, -⟩, -⟩ := lastAt_eq_some.mp hi
    exact hlength ▸ (List.getElem?_eq_some_iff.mp hget).1
  have hstated : ∀ group ∈ fold.document.groups, group.metadata.isSome := by
    intro group hgroup
    obtain ⟨stated, hstated, -⟩ := hcueless _ (List.mem_map_of_mem hgroup)
    rw [hstated]
    rfl
  have hbefore : DocumentFold.cuesAt fold.document i = none := by
    unfold DocumentFold.cuesAt
    cases hget : fold.document.groups[i]? with
    | none => rfl
    | some group =>
        obtain ⟨stated, hstated, hnone⟩ := hcueless _
          (List.mem_map_of_mem (List.mem_of_getElem? hget))
        change Option.bind group.metadata _ = none
        rw [hstated]
        exact hnone
  have hcues := (@DocumentFold.attachAll_at fold.projectOutline.document _ _ (recorded h).refs
    hrange hstated fold.overlays).2 i
  rw [show fold.overlays = overlaysOf events from DocumentFold.overlays_consumeAll events h] at hcues
  have htaken : DocumentFold.cuesAt fold.take.1 i = DocumentFold.cuesAt ((overlaysOf events).foldl
      (DocumentFold.attachCues fold.chapterRefs) fold.projectOutline.document) i := by
    have hgroups : ∀ (end_ : Real64) (document : Document),
        (DocumentFold.narrate end_ document).groups = document.groups := by
      intro end_ document
      unfold DocumentFold.narrate
      split <;> rfl
    rw [← show fold.overlays = overlaysOf events from DocumentFold.overlays_consumeAll events h]
    exact congrArg (fun groups => groups[i]?.bind GroupItem.cues) (hgroups _ _)
  rw [htaken, hcues, show DocumentFold.cuesAt fold.projectOutline.document i = none from hbefore]
  exact Option.or_none

end Carried

/-! ## The overlays of a book

From the links of the manifest to the events of the script. -/

namespace Book

variable (book : Book) (crates : Crates) (archive : MemoryArchive)

/-- The overlay that is sent for an item, if it has any cues. -/
def narration (pair : Nat × Nat) : Option MediaOverlay :=
  match (book.item pair.2).entry with
  | none => none
  | some entry =>
      let parsed := Script.parsedOverlay crates archive book pair.2 entry
      if parsed.cues.isEmpty then none
      else
        some
          { sourceHref := parsed.sourceHref, chapterHref := (book.item pair.1).path
            cues := parsed.cues }

/-- The overlays that are sent, each with the item it is sent for. -/
def narrations : List (Nat × MediaOverlay) :=
  book.links.filterMap fun pair =>
    (book.narration crates archive pair).map fun overlay => (pair.1, overlay)

/-- The overlay that a chapter names. -/
def overlayOf (chapter : SpineEntry) : Str :=
  if book.overlayPath chapter.source = [] then book.overlayPath chapter.primary
  else book.overlayPath chapter.source

/-- An overlay is sent for the item a chapter is read from, or the one it stands in for, and is
the one the chapter names. -/
structure Narrates (chapter : SpineEntry) (position : Nat) (overlay : MediaOverlay) : Prop where
  item : position = chapter.source ∨ position = chapter.primary
  sent : (position, overlay) ∈ book.narrations crates archive
  named : overlay.sourceHref = book.overlayOf chapter

/-- The overlays of a book name its chapters. -/
structure NarratesByName (limits : Effective) (spine : List SpineEntry) : Prop where
  /-- No chapter has the overlay of a spine item of another path. -/
  inherited : ∀ chapter ∈ spine, ∀ overlay, book.Narrates crates archive chapter chapter.primary
    overlay → (book.item chapter.primary).path = (book.item chapter.source).path
  /-- In a document, no later chapter takes the path of a narrated one. -/
  alone : limits.emitDocument = true → ∀ (i j : Nat) (chapter later : SpineEntry),
    spine[i]? = some chapter → spine[j]? = some later → i < j →
    (∃ position overlay, book.Narrates crates archive chapter position overlay) →
    (book.item later.source).path ≠ (book.item chapter.source).path
  /-- And the last overlay that is sent for that path has the same cues. -/
  final : limits.emitDocument = true → ∀ chapter ∈ spine, ∀ position overlay,
    book.Narrates crates archive chapter position overlay → ∀ last,
    lastOf (fun sent : Nat × MediaOverlay =>
      (book.item sent.1).path = (book.item chapter.source).path)
      (book.narrations crates archive) = some last → last.2.cues = overlay.cues

variable {book crates archive}

theorem overlayEvents_eq {δ : Type} (pair : Nat × Nat) :
    Script.overlayEvents (δ := δ) crates archive book pair =
      (book.narration crates archive pair).toList.map fun overlay =>
        ⟨.mediaOverlay overlay, none⟩ := by
  unfold Script.overlayEvents narration
  cases (book.item pair.2).entry with
  | none => rfl
  | some entry =>
      dsimp only
      split <;> rfl

/-- An overlay names the item it is sent for by its path. -/
theorem mem_narrations {position : Nat} {overlay : MediaOverlay}
    (h : (position, overlay) ∈ book.narrations crates archive) :
    overlay.chapterHref = (book.item position).path ∧
      ∃ linked entry, (book.item linked).entry = some entry ∧
        overlay.sourceHref = (book.item linked).path := by
  obtain ⟨⟨owner, linked⟩, -, hpair⟩ := List.mem_filterMap.mp h
  obtain ⟨sent, hsent, heq⟩ := Option.map_eq_some_iff.mp hpair
  obtain ⟨rfl, rfl⟩ := Prod.mk.inj heq
  unfold narration at hsent
  split at hsent
  · cases hsent
  · rename_i entry hentry
    dsimp only at hsent
    split at hsent
    · cases hsent
    · obtain rfl := Option.some.inj hsent
      exact ⟨rfl, linked, entry, hentry, rfl⟩

end Book

/-! ## The overlays of a call

A completed call has sent them all, and the document is made from what was sent. -/

section Call

variable {version : Str} {crates : Crates} {limits : Effective} {bytes : Bytes}
  {archive : MemoryArchive} {book : Book} {spine : List SpineEntry}

/-- The overlays of a script are those of the book. -/
theorem overlaysOf_script {δ : Type} (hparse : limits.parseMediaOverlays = true) :
    overlaysOf ((script (δ := δ) crates limits archive book spine).map Delivery.event) =
      (book.narrations crates archive).map Prod.snd := by
  obtain ⟨info, hinfo, -⟩ := Script.opening_eq (δ := δ) book spine
  obtain ⟨navigation, hnavigation⟩ :=
    Script.navigation_events (δ := δ) crates limits archive book
  have hopening : overlaysOf ((Script.opening (δ := δ) book spine).map Delivery.event) = [] := by
    rw [hinfo]
    rfl
  have hnone : overlaysOf ((Script.navigation (δ := δ) crates limits archive book).map
      Delivery.event) = [] := by
    rw [hnavigation]
    cases navigation <;> rfl
  have hwalk : overlaysOf ((Script.walk (δ := δ) archive book spine.zipIdx
      (book.resources limits spine)).map Delivery.event) = [] := by
    rw [Script.walk_events]
    refine List.filterMap_eq_nil_iff.mpr fun event hevent => ?_
    obtain ⟨message, -, rfl⟩ := List.mem_map.mp hevent
    cases message <;> rfl
  have hoverlays : overlaysOf ((Script.overlays (δ := δ) crates limits archive book).map
      Delivery.event) = (book.narrations crates archive).map Prod.snd := by
    unfold Script.overlays overlaysOf Book.narrations
    rw [if_pos hparse]
    induction book.links with
    | nil => rfl
    | cons pair rest ih =>
        rw [List.flatMap_cons, List.map_append, List.filterMap_append, ih,
          Book.overlayEvents_eq, List.filterMap_cons]
        cases book.narration crates archive pair <;> rfl
  have happend : ∀ first second : List (Event δ),
      overlaysOf (first ++ second) = overlaysOf first ++ overlaysOf second :=
    fun _ _ => List.filterMap_append
  rw [script, List.map_append, List.map_append, List.map_append, happend, happend, happend, hopening,
    hnone, hoverlays, hwalk, List.nil_append, List.nil_append, List.append_nil]

/-- What a completed call says of its chapters and overlays, and when it has a document. -/
structure Told (version : Str) (crates : Crates) (limits : Effective) (bytes : Bytes)
    (archive : MemoryArchive) (book : Book) (spine : List SpineEntry)
    (events : List (Event (Except Panic Document))) : Prop where
  chapters : chaptersOf events = spine.zipIdx.map (Script.chapterMessage archive book)
  overlays : overlaysOf events = (book.narrations crates archive).map Prod.snd
  document : ∀ document, .document document ∈ events ↔ limits.emitDocument = true ∧
    document = freshDocument version (sourceHash bytes)
      ((script (δ := Except Panic Document) crates limits archive book spine).map Delivery.event)

/-- What a completed call has told its client, read off its script. -/
theorem told (h : Prepared crates limits bytes archive book spine) (client : Nat → Bool)
    (hcomplete : (run (documentFold version) crates limits bytes client).1 = .complete)
    (hparse : limits.parseMediaOverlays = true) :
    Told version crates limits bytes archive book spine
      (run (documentFold version) crates limits bytes client).2.events := by
  obtain ⟨_, _, _, status, hd⟩ := run_delivered hcomplete
  obtain ⟨rfl, rfl, rfl⟩ := h.unique hd.prepared
  rw [Call.events, hd.complete.mp hcomplete, response, List.map_append, trailing_document]
  generalize hscript : (script (δ := Except Panic Document) crates limits archive book spine).map
    Delivery.event = fed
  generalize htrailing : (if limits.emitDocument then [Event.document (freshDocument version
    (sourceHash bytes) fed)] else []) ++ [.status status] = tail
  have htail : ∀ event ∈ tail, event = .status status ∨ limits.emitDocument = true ∧
      event = .document (freshDocument version (sourceHash bytes) fed) := by
    intro event hevent
    rw [← htrailing] at hevent
    rcases List.mem_append.mp hevent with hevent | hevent
    · split at hevent
      · rename_i hemit
        exact .inr ⟨hemit, List.mem_singleton.mp hevent⟩
      · cases hevent
    · exact .inl (List.mem_singleton.mp hevent)
  have hchapters : tail.filterMap Event.chapter? = [] := by
    refine List.filterMap_eq_nil_iff.mpr fun event hevent => ?_
    rcases htail event hevent with rfl | ⟨-, rfl⟩ <;> rfl
  have hoverlays : tail.filterMap Event.overlay? = [] := by
    refine List.filterMap_eq_nil_iff.mpr fun event hevent => ?_
    rcases htail event hevent with rfl | ⟨-, rfl⟩ <;> rfl
  refine ⟨?_, ?_, fun document => ⟨fun hmem => ?_, ?_⟩⟩
  · rw [chaptersOf, List.filterMap_append, hchapters, List.append_nil, ← hscript]
    exact chaptersOf_script crates limits archive book spine
  · rw [overlaysOf, List.filterMap_append, hoverlays, List.append_nil, ← hscript]
    exact overlaysOf_script hparse
  · rw [hscript]
    rcases List.mem_append.mp hmem with hmem | hmem
    · exact absurd ⟨document, rfl⟩ (script_not_document _ (hscript ▸ hmem))
    · rcases htail _ hmem with heq | ⟨hemit, heq⟩
      · cases heq
      · exact ⟨hemit, Event.document.inj heq⟩
  · rintro ⟨hemit, rfl⟩
    rw [← htrailing, if_pos hemit, hscript]
    exact List.mem_append_right _ (List.mem_append_left _ List.mem_cons_self)

/-- The path a chapter goes by. -/
abbrev Book.pathOf (book : Book) (chapter : SpineEntry) : Str := (book.item chapter.source).path

/-- The cues that the overlays of a book put on a chapter: those of the last overlay whose path
leads to it. -/
def Book.cuesDue (book : Book) (crates : Crates) (archive : MemoryArchive)
    (spine : List SpineEntry) (i : Nat) : Option Value :=
  (lastOf (fun sent : Nat × MediaOverlay =>
    lastAt (fun entry => book.pathOf entry = (book.item sent.1).path) spine = some i)
    (book.narrations crates archive)).map fun sent => sent.2.listed

/-- The cues of a document's chapters are those that are due to them. -/
theorem cues_delivered {events : List (Event (Except Panic Document))} {document : Document}
    (ht : Told version crates limits bytes archive book spine events)
    (hparse : limits.parseMediaOverlays = true) (h : .document (.ok document) ∈ events) (i : Nat) :
    DocumentFold.cuesAt document i = book.cuesDue crates archive spine i := by
  obtain ⟨-, hfresh⟩ := (ht.document _).mp h
  obtain ⟨fold, hfold, rfl⟩ := fold_of_freshDocument hfresh.symm
  have hlast : ∀ path : Str, lastAt (fun chapter => chapter.href = path)
      (spine.zipIdx.map (Script.chapterMessage archive book)) =
        lastAt (fun entry => book.pathOf entry = path) spine := by
    intro path
    have hpaths : (spine.zipIdx.map (Script.chapterMessage archive book)).map Chapter.href =
        spine.map book.pathOf := by
      rw [List.map_map]
      refine Eq.trans ?_ (congrArg (List.map book.pathOf) (List.zipIdx_map_fst 0 spine))
      rw [List.map_map]
      rfl
    have hfirst := @lastAt_map Str (fun href => href = path) _ _ Chapter.href
      (spine.zipIdx.map (Script.chapterMessage archive book))
    have hsecond := @lastAt_map Str (fun href => href = path) _ _ book.pathOf spine
    rw [← hfirst, ← hsecond, hpaths]
  rw [cues_taken hfold, chaptersOf_script, overlaysOf_script hparse, lastOf_map, Option.map_map]
  refine congrArg (Option.map _) (lastOf_congr fun sent hsent => ?_)
  rw [hlast, (Book.mem_narrations hsent).1]

theorem getElem_of_spine {events : List (Event (Except Panic Document))}
    (ht : Told version crates limits bytes archive book spine events) {i : Nat}
    {entry : SpineEntry} (hentry : spine[i]? = some entry) :
    (chaptersOf events)[i]? = some (Script.chapterMessage archive book (entry, i)) := by
  rw [ht.chapters, List.getElem?_map, List.getElem?_zipIdx, hentry, Nat.zero_add]
  rfl

/-- Where no later chapter has its path, a chapter has the cues last sent for that path. -/
theorem cuesDue_alone {i : Nat} {entry : SpineEntry} (hentry : spine[i]? = some entry)
    (halone : ∀ j later, i < j → spine[j]? = some later →
      ¬ book.pathOf later = book.pathOf entry) :
    book.cuesDue crates archive spine i =
      (lastOf (fun sent : Nat × MediaOverlay => (book.item sent.1).path = book.pathOf entry)
        (book.narrations crates archive)).map fun sent => sent.2.listed := by
  refine congrArg (Option.map _) (lastOf_congr fun sent _ => ⟨fun hlast => ?_, fun hpath => ?_⟩)
  · obtain ⟨⟨entry', hentry', hpath⟩, -⟩ := lastAt_eq_some.mp hlast
    rw [← hpath, Option.some.inj (hentry.symm.trans hentry')]
  · rw [hpath]
    exact lastAt_eq_some.mpr ⟨⟨entry, hentry, rfl⟩, halone⟩

/-- A chapter with cues is the last of its path. -/
theorem alone_of_cuesDue {i : Nat} {entry : SpineEntry} {listed : Value}
    (hentry : spine[i]? = some entry) (h : book.cuesDue crates archive spine i = some listed) :
    ∀ j later, i < j → spine[j]? = some later → ¬ book.pathOf later = book.pathOf entry := by
  obtain ⟨sent, hsent, -⟩ := Option.map_eq_some_iff.mp h
  obtain ⟨⟨entry', hentry', hpath⟩, hnone⟩ := lastAt_eq_some.mp (lastOf_mem hsent).2
  obtain rfl := Option.some.inj (hentry.symm.trans hentry')
  rw [hpath]
  exact hnone

end Call

/-- Two cues that a group lists alike are alike. -/
theorem cueValue_injective : Function.Injective DocumentFold.cueValue := by
  intro cue cue' h
  obtain ⟨text, audio, start, end_, identifier⟩ := cue
  obtain ⟨text', audio', start', end_', identifier'⟩ := cue'
  have hfields := Value.struct.inj h
  simp only [List.cons_append, List.nil_append, List.cons.injEq, Prod.mk.injEq, true_and,
    Value.string.injEq, Value.number.injEq] at hfields
  obtain ⟨rfl, rfl, rfl, rfl, hidentifier⟩ := hfields
  have hsame : identifier = identifier' := by
    by_cases hempty : identifier = []
    · by_cases hempty' : identifier' = []
      · rw [hempty, hempty']
      · rw [if_neg (not_not.mpr hempty), if_pos hempty'] at hidentifier
        cases hidentifier
    · by_cases hempty' : identifier' = []
      · rw [if_pos hempty, if_neg (not_not.mpr hempty')] at hidentifier
        cases hidentifier
      · rw [if_pos hempty, if_pos hempty'] at hidentifier
        exact Value.string.inj (Prod.mk.inj (List.cons.inj hidentifier).1).2
  rw [hsame]

theorem listed_inj {overlay overlay' : MediaOverlay} (h : overlay.listed = overlay'.listed) :
    overlay.cues = overlay'.cues :=
  List.map_injective_iff.mpr cueValue_injective (Value.list.inj h)

/-- Narration is attached to the chapter it narrates: the overlay sent for the item of a chapter,
which the chapter names, names it by its path, and the document has its cues in the group of the
chapter. -/
def NarrationAttached (crates : Crates) (archive : MemoryArchive) (book : Book)
    (spine : List SpineEntry) (events : List (Event (Except Panic Document))) : Prop :=
  ∀ (i : Nat) (entry : SpineEntry) (chapter : Chapter) (position : Nat) (overlay : MediaOverlay),
    spine[i]? = some entry → (chaptersOf events)[i]? = some chapter →
    chapter.mediaOverlayHref ≠ [] → (position = entry.source ∨ position = entry.primary) →
    (position, overlay) ∈ book.narrations crates archive → .mediaOverlay overlay ∈ events →
    overlay.sourceHref = chapter.mediaOverlayHref →
      overlay.chapterHref = chapter.href ∧
      ∀ document, .document (.ok document) ∈ events → ∃ group,
        document.groups[i]? = some group ∧ group.name = some chapter.href ∧
          group.cues = some overlay.listed

/-- In a completed call narration stays attached to its chapter exactly when no chapter has
inherited the overlay of a spine item of another path, and, if there is a document, no later
chapter and no later overlay takes the path of a narrated chapter. -/
theorem narration_attached_iff (version : Str) (crates : Crates) (limits : Effective)
    (bytes : Bytes) (archive : MemoryArchive) (book : Book) (spine : List SpineEntry)
    (h : Prepared crates limits bytes archive book spine)
    (hparse : limits.parseMediaOverlays = true) (client : Nat → Bool)
    (hcomplete : (run (documentFold version) crates limits bytes client).1 = .complete)
    (hfolded : ∀ panic, .document (.error panic) ∉
      (run (documentFold version) crates limits bytes client).2.events) :
    NarrationAttached crates archive book spine
        (run (documentFold version) crates limits bytes client).2.events ↔
      book.NarratesByName crates archive limits spine := by
  have ht := told h client hcomplete hparse
  generalize (run (documentFold version) crates limits bytes client).2.events = events at *
  have hsent : ∀ {position : Nat} {overlay : MediaOverlay},
      (position, overlay) ∈ book.narrations crates archive → .mediaOverlay overlay ∈ events := by
    intro position overlay hmem
    have hover : overlay ∈ overlaysOf events := ht.overlays ▸ List.mem_map_of_mem hmem
    obtain ⟨event, hevent, hsome⟩ := List.mem_filterMap.mp hover
    cases event <;> cases hsome
    exact hevent
  constructor
  · intro hattached
    -- a chapter's cues on its group are those that are due to it
    have hat : ∀ {i : Nat} {entry : SpineEntry} {position : Nat} {overlay : MediaOverlay},
        spine[i]? = some entry → book.Narrates crates archive entry position overlay →
        overlay.chapterHref = book.pathOf entry ∧ ∀ document, .document (.ok document) ∈ events →
          book.cuesDue crates archive spine i = some overlay.listed := by
      intro i entry position overlay hentry hnarrates
      obtain ⟨-, linked, k, hk, hsource⟩ := Book.mem_narrations hnarrates.sent
      have hnamed : book.overlayOf entry ≠ [] :=
        hnarrates.named ▸ hsource ▸ Book.path_of_entry h.baseDir hk
      obtain ⟨hhref, hdocument⟩ := hattached i entry _ position overlay hentry
        (getElem_of_spine ht hentry) hnamed hnarrates.item hnarrates.sent (hsent hnarrates.sent)
        hnarrates.named
      refine ⟨hhref, fun document hmem => ?_⟩
      obtain ⟨group, hgroup, -, hcues⟩ := hdocument document hmem
      rw [← cues_delivered ht hparse hmem, DocumentFold.cuesAt, hgroup]
      exact hcues
    -- the document that was asked for is there, since its fold did not panic
    have hmade : limits.emitDocument = true → ∃ document, .document (.ok document) ∈ events := by
      intro hemit
      have hmem := (ht.document _).mpr ⟨hemit, rfl⟩
      cases hfresh : freshDocument version (sourceHash bytes)
          ((script (δ := Except Panic Document) crates limits archive book spine).map
            Delivery.event) with
      | ok document => exact ⟨document, hfresh ▸ hmem⟩
      | error panic => exact absurd (hfresh ▸ hmem) (hfolded panic)
    refine ⟨fun entry hentry overlay hnarrates => ?_,
      fun hemit i j entry later hentry hlater hlt hnarrated => ?_,
      fun hemit entry hentry position overlay hnarrates last hlast => ?_⟩
    · obtain ⟨i, hi⟩ := List.getElem?_of_mem hentry
      exact (Book.mem_narrations hnarrates.sent).1.symm.trans (hat hi hnarrates).1
    · obtain ⟨position, overlay, hnarrates⟩ := hnarrated
      obtain ⟨document, hmem⟩ := hmade hemit
      exact alone_of_cuesDue hentry ((hat hentry hnarrates).2 document hmem) j later hlt hlater
    · obtain ⟨i, hi⟩ := List.getElem?_of_mem hentry
      obtain ⟨document, hmem⟩ := hmade hemit
      have hlisted := (hat hi hnarrates).2 document hmem
      rw [cuesDue_alone hi (alone_of_cuesDue hi hlisted), hlast] at hlisted
      exact listed_inj (Option.some.inj hlisted)
  · intro hnames i entry chapter position overlay hentry hchapter _ hitem hmem _ hsource
    obtain rfl := Option.some.inj (hchapter.symm.trans (getElem_of_spine ht hentry))
    have hnarrates : book.Narrates crates archive entry position overlay := ⟨hitem, hmem, hsource⟩
    have hpath : (book.item position).path = book.pathOf entry := by
      rcases hitem with rfl | rfl
      · rfl
      · exact hnames.inherited entry (List.mem_of_getElem? hentry) overlay hnarrates
    refine ⟨(Book.mem_narrations hmem).1.trans hpath, fun document hdocument => ?_⟩
    obtain ⟨hemit, hfresh⟩ := (ht.document _).mp hdocument
    obtain ⟨fold, hfold, rfl⟩ := fold_of_freshDocument hfresh.symm
    have hin : (chaptersOf ((script (δ := Except Panic Document) crates limits archive book
        spine).map Delivery.event))[i]? = some (Script.chapterMessage archive book (entry, i)) := by
      rw [chaptersOf_script, ← ht.chapters]
      exact hchapter
    obtain ⟨group, hgroup, hname, -⟩ := (recorded hfold).group i _ hin
    refine ⟨group, hgroup, hname, ?_⟩
    -- no later chapter takes the path, so what is due is the last overlay sent for it
    have hdue := @cuesDue_alone crates archive book spine i entry hentry
      fun j later hlt hlater => hnames.alone hemit i j entry later hentry hlater hlt
        ⟨position, overlay, hnarrates⟩
    have hcues := (cues_delivered ht hparse hdocument i).trans hdue
    obtain ⟨last, hlast⟩ := lastOf_isSome (p := fun sent : Nat × MediaOverlay =>
      (book.item sent.1).path = book.pathOf entry) hmem hpath
    rw [hlast, DocumentFold.cuesAt, hgroup] at hcues
    have hsame := hnames.final hemit entry (List.mem_of_getElem? hentry) position overlay hnarrates
      last hlast
    exact Eq.trans hcues (congrArg (fun cues : List Cue =>
      some (Value.list (cues.map DocumentFold.cueValue))) hsame)

/-! ## A spoken comic

A picture in the spine, read through its fallback, with an overlay of its own. -/

/-- The entries that the archive of a book says are obfuscated. -/
def Book.policy (book : Book) (crates : Crates) (archive : MemoryArchive) : Option (List Nat) :=
  match book.index.get encryptionPath with
  | none => some []
  | some position => (Extract.obfuscatedEntries (crates.strict (book.content archive position))
      book.index).toOption

/-- The book of an upload, where there is one. -/
def bookIn (crates : Crates) (limits : Effective) (bytes : Bytes) :
    Option (MemoryArchive × Book × List SpineEntry) := do
  let archive ← (Archive.openArchive crates.zipNew bytes limits).toOption
  let scan ← (Archive.scan archive).toOption
  let listed : Book := { entries := scan.entries, obfuscated := [], opfPath := [], package := {} }
  let obfuscated ← listed.policy crates archive
  let container ← listed.index.get containerPath
  let root ← (Parse.rootfile crates listed.index (listed.content archive container)).toOption
  let package ← (Parse.package crates root.1 (listed.content archive root.2)).toOption
  let book : Book := { entries := scan.entries, obfuscated, opfPath := root.1, package }
  let spine ← (book.resolveSpine package.spine).toOption
  return (archive, book, spine)

/-- The obfuscated entries of a book are those its descriptor lists. -/
theorem Prepared.policy_eq {crates : Crates} {limits : Effective} {bytes : Bytes}
    {archive : MemoryArchive} {book : Book} {spine : List SpineEntry}
    (h : Prepared crates limits bytes archive book spine) :
    book.policy crates archive = some book.obfuscated := by
  have hpolicy := h.policy
  unfold Book.policy
  cases hget : book.index.get encryptionPath with
  | none =>
      rw [hget] at hpolicy
      exact congrArg some hpolicy.symm
  | some position =>
      rw [hget] at hpolicy
      exact congrArg Except.toOption hpolicy

/-- A prepared call is about the book of its upload. -/
theorem Prepared.bookIn_eq {crates : Crates} {limits : Effective} {bytes : Bytes}
    {archive : MemoryArchive} {book : Book} {spine : List SpineEntry}
    (h : Prepared crates limits bytes archive book spine) :
    bookIn crates limits bytes = some (archive, book, spine) := by
  have hpolicy := h.policy_eq
  obtain ⟨hopen, ⟨scan, hscan, hentries⟩, -, ⟨container, opf, hcontainer, hrootfile, hpackage⟩,
    hspine⟩ := h
  obtain ⟨entries, obfuscated, opfPath, package⟩ := book
  obtain rfl : scan.entries = entries := hentries
  let listed : Book := { entries := scan.entries, obfuscated := [], opfPath := [], package := {} }
  have hlisted : listed.policy crates archive = some obfuscated := hpolicy
  have hcontainer' : listed.index.get containerPath = some container := hcontainer
  have hrootfile' : (Parse.rootfile crates listed.index
      (listed.content archive container)).toOption = some (opfPath, opf) :=
    congrArg Except.toOption hrootfile
  have hpackage' : (Parse.package crates opfPath (listed.content archive opf)).toOption =
      some package := congrArg Except.toOption hpackage
  unfold bookIn
  rw [hopen]
  change Option.bind (Archive.scan archive).toOption _ = _
  rw [hscan]
  change Option.bind (listed.policy crates archive) _ = _
  rw [hlisted]
  change Option.bind (listed.index.get containerPath) _ = _
  rw [hcontainer']
  change Option.bind (Parse.rootfile crates listed.index
    (listed.content archive container)).toOption _ = _
  rw [hrootfile']
  change Option.bind (Parse.package crates opfPath (listed.content archive opf)).toOption _ = _
  rw [hpackage']
  change Option.bind (Book.resolveSpine _ package.spine).toOption _ = _
  rw [show Book.resolveSpine _ package.spine = .ok spine from hspine]
  rfl

namespace Sample

/-- A page that is an image, its markup, and what is read to it. -/
def spoken : List File :=
  [file "mimetype" (ascii "application/epub+zip"), file "META-INF/container.xml" [1],
    file "p.opf" [2], file "page.png" [20], file "page.xhtml" [10], file "o.smil" [3]]

/-- The overlay is on the image, or on the markup. -/
def spokenOpf (onImage onMarkup : Str) : XmlStream where
  events := [.start (tag "package" [("version", "3.0")]), .start (tag "manifest" []),
    .empty (tag "item" [("id", "p"), ("href", "page.png"), ("media-type", "image/png"),
      ("fallback", "t"), ("media-overlay", onImage)]),
    .empty (tag "item" [("id", "t"), ("href", "page.xhtml"),
      ("media-type", "application/xhtml+xml"), ("media-overlay", onMarkup)]),
    .empty (tag "item" [("id", "o"), ("href", "o.smil"),
      ("media-type", "application/smil+xml")]),
    .endTag "manifest", .start (tag "spine" []), .empty (tag "itemref" [("idref", "p")]),
    .endTag "spine", .endTag "package"]
  stop := .eof

def spokenCrates (onImage onMarkup : Str) : Crates where
  zipNew := fun _ => .ok (archive spoken)
  strict := reader [([1], container "p.opf"), ([2], spokenOpf onImage onMarkup)]
  lenient := reader [([3], smil)]
  parseFloat := fun _ => none

/-- The document asked for, and the overlays. -/
def listening : Effective :=
  Limits.default.resolve (ParseOptions.default.adding true none (some true))

def spokenRun (onImage onMarkup : Str) : Outcome × Call (documentFold "1") :=
  run (documentFold "1") (spokenCrates onImage onMarkup) listening (upload spoken) patient

/-- The spine, and the items that an overlay is sent for. -/
def readings (onImage onMarkup : Str) : Option (List (Nat × Nat) × List Nat) :=
  (bookIn (spokenCrates onImage onMarkup) listening (upload spoken)).map
    fun (archive, book, spine) =>
      (spine.map fun entry => (entry.primary, entry.source),
        (book.narrations (spokenCrates onImage onMarkup) archive).map Prod.fst)

/-- A document that is there. -/
def folds : Event (Except Panic Document) → Bool
  | .document document => document.isOk
  | _ => true

theorem not_panicked {events : List (Event (Except Panic Document))} (h : events.all folds = true)
    (panic : Panic) : .document (.error panic) ∉ events := fun hmem =>
  Bool.noConfusion (List.all_eq_true.mp h _ hmem)

end Sample

/-- The overlay is on the markup, and the chapter is read from it. -/
theorem narration_attached_markup : ∃ archive book spine,
    Prepared (Sample.spokenCrates [] "o") Sample.listening (Sample.upload Sample.spoken) archive
      book spine ∧
    NarrationAttached (Sample.spokenCrates [] "o") archive book spine
      (Sample.spokenRun [] "o").2.events := by
  have hcomplete : (Sample.spokenRun [] "o").1 = .complete := by decide +kernel
  have hfolds : (Sample.spokenRun [] "o").2.events.all Sample.folds = true := by decide +kernel
  have hreadings : Sample.readings [] "o" = some ([(0, 1)], [1]) := by decide +kernel
  obtain ⟨archive, book, spine, hprepared⟩ := run_prepared hcomplete
  unfold Sample.readings at hreadings
  rw [hprepared.bookIn_eq] at hreadings
  obtain ⟨hspine, hsent⟩ := Prod.mk.inj (Option.some.inj hreadings)
  obtain ⟨entry, rfl, hentry⟩ := List.map_eq_singleton_iff.mp hspine
  obtain ⟨⟨position, overlay⟩, hsent, hposition⟩ := List.map_eq_singleton_iff.mp hsent
  obtain rfl : position = 1 := hposition
  refine ⟨archive, book, [entry], hprepared, (narration_attached_iff "1" _ _ _ archive book [entry]
    hprepared rfl Sample.patient hcomplete (Sample.not_panicked hfolds)).mpr ?_⟩
  refine ⟨fun chapter hchapter overlay' hnarrates => ?_, fun _ i j chapter later hi hj hlt _ => ?_,
    fun _ chapter _ position overlay' hnarrates last hlast => ?_⟩
  · obtain rfl := List.mem_singleton.mp hchapter
    have hmem := hnarrates.sent
    rw [hsent, show chapter.primary = 0 from (Prod.mk.inj hentry).1] at hmem
    exact absurd (Prod.mk.inj (List.mem_singleton.mp hmem)).1 (by decide)
  · have hj' := (List.getElem?_eq_some_iff.mp hj).1
    rw [List.length_singleton] at hj'
    omega
  · have hmem := hnarrates.sent
    have hlast' := (lastOf_mem hlast).1
    rw [hsent] at hmem hlast'
    rw [List.mem_singleton.mp hlast', (Prod.mk.inj (List.mem_singleton.mp hmem)).2]

/-- The overlay of the image names no chapter. -/
theorem comic_narration_lost : ∃ archive book spine,
    Prepared (Sample.spokenCrates "o" []) Sample.listening (Sample.upload Sample.spoken) archive
      book spine ∧
    (Sample.spokenRun "o" []).1 = .complete ∧ Sample.listening.parseMediaOverlays = true ∧
    (spine.map book.chapterEntry).Nodup ∧
    (∃ document, .document (.ok document) ∈ (Sample.spokenRun "o" []).2.events ∧
      document.groups.map (fun group => group.cues.isSome) = [false]) ∧
    (chaptersOf (Sample.spokenRun "o" []).2.events).map Chapter.href = ["page.xhtml".toList] ∧
    (overlaysOf (Sample.spokenRun "o" []).2.events).map MediaOverlay.chapterHref =
      ["page.png".toList] ∧
    ¬ NarrationAttached (Sample.spokenCrates "o" []) archive book spine
      (Sample.spokenRun "o" []).2.events := by
  have hcomplete : (Sample.spokenRun "o" []).1 = .complete := by decide +kernel
  have hgroups : (Sample.documentIn (Sample.spokenRun "o" []).2.events).map (fun given =>
      given.2.groups.map fun group => group.cues.isSome) = some [false] := by decide +kernel
  have hchapters : (chaptersOf (Sample.spokenRun "o" []).2.events).map (fun chapter =>
      (chapter.href, chapter.mediaOverlayHref)) = [("page.xhtml".toList, "o.smil".toList)] := by
    decide +kernel
  have hoverlays : (overlaysOf (Sample.spokenRun "o" []).2.events).map (fun overlay =>
      (overlay.chapterHref, overlay.sourceHref)) = [("page.png".toList, "o.smil".toList)] := by
    decide +kernel
  have hreadings : Sample.readings "o" [] = some ([(0, 1)], [0]) := by decide +kernel
  obtain ⟨archive, book, spine, hprepared⟩ := run_prepared hcomplete
  have hsame := (told hprepared Sample.patient hcomplete rfl).overlays
  unfold Sample.readings at hreadings
  rw [hprepared.bookIn_eq] at hreadings
  obtain ⟨hspine, hsent⟩ := Prod.mk.inj (Option.some.inj hreadings)
  obtain ⟨entry, rfl, hentry⟩ := List.map_eq_singleton_iff.mp hspine
  obtain ⟨⟨position, overlay⟩, hsent, hposition⟩ := List.map_eq_singleton_iff.mp hsent
  have hover : overlaysOf (Sample.spokenRun "o" []).2.events = [overlay] :=
    hsame.trans (congrArg (List.map Prod.snd) hsent)
  have hmem : .mediaOverlay overlay ∈ (Sample.spokenRun "o" []).2.events := by
    obtain ⟨event, hevent, hsome⟩ := List.mem_filterMap.mp
      (show overlay ∈ overlaysOf (Sample.spokenRun "o" []).2.events from
        hover ▸ List.mem_singleton_self overlay)
    cases event <;> cases hsome
    exact hevent
  obtain ⟨chapter, hchapter, hnames⟩ := List.map_eq_singleton_iff.mp hchapters
  rw [hover] at hoverlays
  obtain ⟨hhref, hsource⟩ := Prod.mk.inj (List.cons.inj hoverlays).1
  obtain ⟨hchapterHref, hnamed⟩ := Prod.mk.inj hnames
  refine ⟨archive, book, [entry], hprepared, hcomplete, rfl, List.nodup_singleton _, ?_, ?_, ?_,
    fun hattached => ?_⟩
  · obtain ⟨⟨before, document⟩, hin, hcues⟩ := Option.map_eq_some_iff.mp hgroups
    obtain ⟨after, hevents⟩ := Sample.documentIn_some hin
    exact ⟨document, hevents ▸ List.mem_append_right _ List.mem_cons_self, hcues⟩
  · rw [hchapter, List.map_singleton, hchapterHref]
  · rw [hover, List.map_singleton, hhref]
  · have hname : chapter.mediaOverlayHref ≠ [] := by
      rw [hnamed]
      decide
    have hprimary : position = entry.primary := hposition.trans (Prod.mk.inj hentry).1.symm
    obtain ⟨hattaches, -⟩ := hattached 0 entry chapter position overlay rfl (hchapter ▸ rfl) hname
      (.inr hprimary) (hsent ▸ List.mem_singleton_self _) hmem (hsource.trans hnamed.symm)
    exact absurd (hhref.symm.trans (hattaches.trans hchapterHref)) (by decide)

end GrpcEpub
