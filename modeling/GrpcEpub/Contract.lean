/-
# `GrpcEpub.Contract` — the order of the response stream

The events of a complete response, in the order the service promises them, and
the counts that tie its two ends together.  A call sends a prefix of such a
sequence, and the whole of one exactly when it completes.
-/
import GrpcEpub.Run
import GrpcEpub.Lookup

namespace GrpcEpub

/-- What a complete response is made of. -/
structure Parts (δ : Type) where
  info : EpubInfo
  navigation : Option Navigation
  overlays : List MediaOverlay
  walk : List (Resource ⊕ Chapter)
  document : Option δ
  status : ParseStatus

namespace Parts

variable {δ : Type}

/-- Everything ahead of the status. -/
def body (parts : Parts δ) : List (Event δ) :=
  .info parts.info :: (parts.navigation.toList.map .navigation ++
    parts.overlays.map .mediaOverlay ++ parts.walk.map (Sum.elim .resource .chapter) ++
    parts.document.toList.map .document)

/-- The parts in the order of the contract. -/
def sequence (parts : Parts δ) : List (Event δ) := parts.body ++ [.status parts.status]

/-- The chapters are numbered from zero without a gap, and both ends of the
response say how many there are; the trailer counts the resources as well. -/
structure Counted (parts : Parts δ) : Prop where
  announced : parts.info.spineItemCount = parts.status.chaptersEmitted
  numbered : (rights parts.walk).map Chapter.spineIndex = List.range parts.status.chaptersEmitted
  resources : (lefts parts.walk).length = parts.status.resourcesEmitted

end Parts

/-- The status is the last event and nothing but the last event. -/
theorem Parts.status_not_mem_body {δ : Type} (parts : Parts δ) (status : ParseStatus) :
    .status status ∉ parts.body := by
  simp only [body, List.mem_cons, List.mem_append, List.mem_map, reduceCtorEq, and_false,
    exists_false, or_false, false_or]
  rintro ⟨_ | _, -, h⟩ <;> cases h

/-! ## The script keeps the order

Part by part, the events of a script are those of `Parts`; what is left is that their counts are
the ones that info and status give. -/

namespace Script

variable {δ : Type} {crates : Crates} {limits : Effective} {archive : MemoryArchive} {book : Book}

/-- The messages of the walk. -/
def walkMessages (archive : MemoryArchive) (book : Book) (spine : List (SpineEntry × Nat))
    (pending : List (Nat × Nat)) : List (Resource ⊕ Chapter) :=
  (interleave Prod.fst (fun visit => book.chapterEntry visit.1) spine pending).map
    (Sum.map (resourceMessage archive book) (chapterMessage archive book))

theorem opening_eq (book : Book) (spine : List SpineEntry) :
    ∃ info, opening (δ := δ) book spine = [⟨.info info, none⟩] ∧
      info.spineItemCount = Book.saturating32 spine.length := by
  obtain ⟨source, hsource, hfound⟩ := Book.navigationSource_ok book
  obtain ⟨info, hinfo, hcount, -⟩ := Book.info_ok hfound spine
  exact ⟨info, by simp [opening, hsource, hinfo], hcount⟩

/-- There is one navigation event at most. -/
theorem navigation_events (crates : Crates) (limits : Effective) (archive : MemoryArchive)
    (book : Book) : ∃ found : Option Navigation,
    (navigation (δ := δ) crates limits archive book).map Delivery.event =
      found.toList.map .navigation := by
  unfold navigation
  split
  · exact ⟨none, rfl⟩
  · unfold navigationEvents
    split
    · split
      · exact ⟨none, rfl⟩
      · exact ⟨some _, rfl⟩
    · exact ⟨none, rfl⟩

theorem overlayEvents_events (crates : Crates) (archive : MemoryArchive) (book : Book)
    (pair : Nat × Nat) : ∃ messages : List MediaOverlay,
    (overlayEvents (δ := δ) crates archive book pair).map Delivery.event =
      messages.map .mediaOverlay := by
  unfold overlayEvents
  split
  · exact ⟨[], rfl⟩
  · dsimp only
    split
    · exact ⟨[], rfl⟩
    · exact ⟨[_], rfl⟩

/-- An overlay event for each overlay with cues. -/
theorem overlays_events (crates : Crates) (limits : Effective) (archive : MemoryArchive)
    (book : Book) : ∃ messages : List MediaOverlay,
    (overlays (δ := δ) crates limits archive book).map Delivery.event =
      messages.map .mediaOverlay := by
  unfold overlays
  split
  · induction book.links with
    | nil => exact ⟨[], rfl⟩
    | cons pair rest ih =>
        obtain ⟨first, hfirst⟩ := overlayEvents_events (δ := δ) crates archive book pair
        obtain ⟨others, hothers⟩ := ih
        exact ⟨first ++ others, by simp [hfirst, hothers]⟩
  · exact ⟨[], rfl⟩

theorem walk_events (spine : List (SpineEntry × Nat)) (pending : List (Nat × Nat)) :
    (walk (δ := δ) archive book spine pending).map Delivery.event =
      (walkMessages archive book spine pending).map (Sum.elim .resource .chapter) := by
  unfold walk walkMessages
  rw [List.map_map, List.map_map]
  refine List.map_congr_left ?_
  intro item _
  cases item <;> rfl

theorem rights_walkMessages (spine : List (SpineEntry × Nat)) (pending : List (Nat × Nat)) :
    rights (walkMessages archive book spine pending) = spine.map (chapterMessage archive book) := by
  rw [walkMessages, rights_map, rights_interleave]

theorem lefts_walkMessages (spine : List (SpineEntry × Nat)) (pending : List (Nat × Nat)) :
    lefts (walkMessages archive book spine pending) =
      pending.map (resourceMessage archive book) := by
  rw [walkMessages, lefts_map, lefts_interleave]

end Script

/-- No event ahead of the trailer is a status. -/
theorem script_events (crates : Crates) (limits : Effective) (archive : MemoryArchive)
    (book : Book) (spine : List SpineEntry) {δ : Type} :
    ∃ (info : EpubInfo) (navigation : Option Navigation) (overlays : List MediaOverlay),
      (script (δ := δ) crates limits archive book spine).map Delivery.event =
        .info info :: (navigation.toList.map .navigation ++ overlays.map .mediaOverlay ++
          (Script.walkMessages archive book spine.zipIdx (book.resources limits spine)).map
            (Sum.elim .resource .chapter)) ∧
      info.spineItemCount = Book.saturating32 spine.length := by
  obtain ⟨info, hinfo, hcount⟩ := Script.opening_eq (δ := δ) book spine
  obtain ⟨navigation, hnavigation⟩ :=
    Script.navigation_events (δ := δ) crates limits archive book
  obtain ⟨overlays, hoverlays⟩ :=
    Script.overlays_events (δ := δ) crates limits archive book
  refine ⟨info, navigation, overlays, ?_, hcount⟩
  simp only [script, List.map_append, hinfo, hnavigation, hoverlays, Script.walk_events,
    List.map_cons, List.cons_append, List.nil_append, List.append_assoc]

theorem trailing_events {π : Projection} (limits : Effective) (hash : UInt64)
    (body : List (Delivery π.Document)) (status : ParseStatus) :
    ∃ document : Option π.Document, document.isSome = limits.emitDocument ∧
      (trailing π limits hash body status).map Delivery.event =
        document.toList.map .document ++ [.status status] := by
  unfold trailing folded
  cases limits.emitDocument with
  | true => exact ⟨some _, rfl, rfl⟩
  | false => exact ⟨none, rfl, rfl⟩

/-- The parts of a book's response. -/
theorem response_parts (π : Projection) (crates : Crates) (limits : Effective) (bytes : Bytes)
    (archive : MemoryArchive) (book : Book) (spine : List SpineEntry) (status : ParseStatus) :
    ∃ parts : Parts π.Document,
      (response π crates limits bytes archive book spine status).map Delivery.event =
        parts.sequence ∧
      parts.document.isSome = limits.emitDocument ∧ parts.status = status ∧
      parts.info.spineItemCount = Book.saturating32 spine.length ∧
      parts.walk = Script.walkMessages archive book spine.zipIdx (book.resources limits spine) := by
  obtain ⟨info, navigation, overlays, hscript, hcount⟩ :=
    script_events crates limits archive book spine (δ := π.Document)
  obtain ⟨document, hdocument, htrailing⟩ := trailing_events (π := π) limits (sourceHash bytes)
    (script crates limits archive book spine) status
  refine ⟨⟨info, navigation, overlays,
    Script.walkMessages archive book spine.zipIdx (book.resources limits spine), document, status⟩,
    ?_, hdocument, rfl, hcount, rfl⟩
  simp only [response, List.map_append, hscript, htrailing, Parts.sequence, Parts.body,
    List.cons_append, List.append_assoc]

/-- A response that has sent its status has sent everything. -/
theorem Delivered.complete_of_status {π : Projection} {crates : Crates} {limits : Effective}
    {bytes : Bytes} {archive : MemoryArchive} {book : Book} {spine : List SpineEntry}
    {status : ParseStatus} {outcome : Outcome} {call : Call π}
    (h : Delivered π crates limits bytes archive book spine status outcome call)
    {last : ParseStatus} (hlast : .status last ∈ call.sent.map Delivery.event) :
    outcome = .complete ∧ last = status := by
  obtain ⟨parts, hparts, -, hstatus, -⟩ :=
    response_parts π crates limits bytes archive book spine status
  have hbegins := h.sent.map Delivery.event
  rw [hparts, Parts.sequence, List.prefix_concat_iff] at hbegins
  rcases hbegins with hall | hbody
  · -- as many events as the whole response, so the whole response
    have hlength : (response π crates limits bytes archive book spine status).length ≤
        call.sent.length := by
      have := congrArg List.length (hparts.trans hall.symm)
      simpa using this.le
    refine ⟨h.complete.mpr (h.sent.eq_of_length_le hlength), ?_⟩
    rw [hall, List.mem_append, List.mem_singleton] at hlast
    rcases hlast with hlast | hlast
    · exact absurd hlast (parts.status_not_mem_body last)
    · rw [← hstatus]
      exact (Event.status.inj hlast)
  · exact absurd (hbody.subset hlast) (parts.status_not_mem_body last)

/-- A status that reading one of the archive's entries gives, on the budget the
call was left with. -/
def FailedRead (crates : Crates) (limits : Effective) (bytes : Bytes) (budget : Budget)
    (status : Status) : Prop :=
  ∃ archive scan, Archive.openArchive crates.zipNew bytes limits = .ok archive ∧
    Archive.scan archive = .ok scan ∧ ∃ entry ∈ scan.entries,
      (Archive.readEntry archive entry limits).exec budget = (.error (.failed status), budget)

/-- Something can always be sent in full. -/
theorem exists_parts (π : Projection) (limits : Effective) :
    ∃ parts : Parts π.Document, parts.document.isSome = limits.emitDocument := by
  obtain ⟨document, hdocument, -⟩ := trailing_events (π := π) limits 0 [] ⟨0, 0, 0, 0, 0, []⟩
  exact ⟨⟨⟨[], [], [], [], [], [], [], [], [], [], 0, [], [], [], [], [], [], []⟩, none, [], [],
    document, ⟨0, 0, 0, 0, 0, []⟩⟩, hdocument⟩

/-- Within a `u32` the spine indices are the positions. -/
theorem map_spineIndex {archive : MemoryArchive} {book : Book} {spine : List SpineEntry}
    (h : spine.length ≤ u32Max) :
    (spine.zipIdx.map (Script.chapterMessage archive book)).map Chapter.spineIndex =
      List.range spine.length := by
  refine List.ext_getElem (by simp) ?_
  intro i hi hi'
  simp only [List.length_map, List.length_zipIdx] at hi
  simp only [List.getElem_map, List.getElem_zipIdx, Script.chapterMessage, Book.chapterEvent,
    Book.saturating32, List.getElem_range, Nat.zero_add]
  omega

/-- What the service promises of the events of one call. -/
structure KeepsContract {π : Projection} (crates : Crates) (limits : Effective) (bytes : Bytes)
    (outcome : Outcome) (call : Call π) : Prop where
  isPrefix : ∃ parts : Parts π.Document, parts.document.isSome = limits.emitDocument ∧
    call.sent.map Delivery.event <+: parts.sequence
  complete : outcome = .complete ↔ ∃ parts : Parts π.Document,
    parts.document.isSome = limits.emitDocument ∧ call.sent.map Delivery.event = parts.sequence
  counted : outcome = .complete → ∃ parts : Parts π.Document,
    parts.document.isSome = limits.emitDocument ∧
    call.sent.map Delivery.event = parts.sequence ∧ parts.Counted
  failed : ∀ status, outcome = .failed status →
    ¬ FailedRead crates limits bytes call.budget status → call.sent = []

section KeepsContract

variable {π : Projection} {crates : Crates} {limits : Effective} {bytes : Bytes}
  {outcome : Outcome} {call : Call π}

theorem Refused.keepsContract (h : Refused π outcome call) :
    KeepsContract crates limits bytes outcome call where
  isPrefix := by
    obtain ⟨parts, hparts⟩ := exists_parts π limits
    exact ⟨parts, hparts, by simp [h.sent]⟩
  complete := by
    refine iff_of_false h.incomplete ?_
    rintro ⟨parts, -, hparts⟩
    simp [h.sent, Parts.sequence] at hparts
  counted := fun hc => absurd hc h.incomplete
  failed := fun _ _ _ => h.sent

/-- A call that has a book keeps the contract, however it ends. -/
theorem Delivered.keepsContract {archive : MemoryArchive} {book : Book} {spine : List SpineEntry}
    {status : ParseStatus}
    (h : Delivered π crates limits bytes archive book spine status outcome call) :
    KeepsContract crates limits bytes outcome call := by
  obtain ⟨parts, hparts, hdocument, hstatus, hcount, hwalk⟩ :=
    response_parts π crates limits bytes archive book spine status
  have hcomplete : outcome = .complete → call.sent.map Delivery.event = parts.sequence := fun hc => by
    rw [h.complete.mp hc, hparts]
  refine ⟨⟨parts, hdocument, hparts ▸ h.sent.map _⟩,
    ⟨fun hc => ⟨parts, hdocument, hcomplete hc⟩, ?_⟩,
    fun hc => ⟨parts, hdocument, hcomplete hc, ?_⟩, fun failure hf hnot => ?_⟩
  · rintro ⟨sent, -, hsent⟩
    have hlast : .status sent.status ∈ call.sent.map Delivery.event := by
      simp [hsent, Parts.sequence]
    exact (h.complete_of_status hlast).1
  · obtain ⟨-, -, hchapters, hresources⟩ := h.receipt hc
    refine ⟨?_, ?_, ?_⟩
    · rw [hcount, hstatus, h.chapters, Book.saturating32, Nat.min_eq_left hchapters]
    · rw [hwalk, Script.rights_walkMessages, hstatus, h.chapters, map_spineIndex hchapters]
    · rw [hwalk, Script.lefts_walkMessages, hstatus, h.resources, List.length_map]
  · obtain ⟨entry, hmem, hread⟩ := h.fromRead failure hf
    obtain ⟨scan, hscan, hentries⟩ := h.prepared.scanned
    exact absurd ⟨archive, scan, h.prepared.opened, hscan, entry, hentries ▸ hmem, hread⟩ hnot

end KeepsContract

/-- Whatever the upload, the options and the client are. -/
theorem run_keeps_contract (π : Projection) (crates : Crates) (limits : Effective)
    (bytes : Bytes) (client : Nat → Bool) :
    KeepsContract crates limits bytes (run π crates limits bytes client).1
      (run π crates limits bytes client).2 := by
  rcases run_spec (π := π) client with hrefused | ⟨archive, book, spine, status, h⟩
  · exact hrefused.keepsContract
  · exact h.keepsContract

end GrpcEpub
