/-
# `GrpcEpub.Additive` — the options that only add

Three options ask for events on top of the others: the navigation, the media
overlays and the document.  Two calls on one archive whose options differ in
nothing else send the same events otherwise.  What reading the navigation costs
is what the cache cannot save: nothing, when the walk sends the same entry.

The document event is a function of the events in front of it, which is shown
for the fold itself.  A fold that panicked takes its call down with it; here the
panic stays in the place of the document.
-/
import GrpcEpub.Fragment
import GrpcEpub.Sketch
import GrpcEpub.Spending

namespace GrpcEpub

open Cache

/-- The Document fold of a version of the service.  Where a date makes `consume` panic, the source
unwinds out of `emit` and with it out of the call; here the state keeps the panic, and so does the
document that is taken from it. -/
@[reducible] def documentFold (version : Str) : Projection where
  Document := Except Panic Document
  State := Except Panic DocumentFold
  start := .ok (.new version)
  setSourceHash hash state := state.map (DocumentFold.setSourceHash hash)
  consume event state := state >>= fun self => self.consume event
  take state := (state.map fun self => self.take.1, state.map fun self => self.take.2)

theorem documentFold_foldl {δ : Type} (events : List (Event δ)) (state : Except Panic DocumentFold) :
    events.foldl (fun state event => state >>= fun self => self.consume event) state =
      state >>= fun self => self.consumeAll events := by
  induction events generalizing state with
  | nil => cases state <;> rfl
  | cons event rest ih =>
      rw [List.foldl_cons, ih]
      cases state with
      | error panic => rfl
      | ok self => rfl

/-- What a fresh fold, given the archive's hash, yields for some events. -/
def freshDocument {δ : Type} (version : Str) (hash : UInt64) (events : List (Event δ)) :
    Except Panic Document :=
  (((DocumentFold.new version).setSourceHash hash).consumeAll events).map fun self => self.take.1

/-- An event that is sent whatever the additive options say. -/
def Event.isPlain {δ : Type} : Event δ → Bool
  | .info _ | .chapter _ | .resource _ => true
  | .navigation _ | .mediaOverlay _ | .document _ | .status _ => false

/-- The events of a call. -/
def Call.events {π : Projection} (call : Call π) : List (Event π.Document) :=
  call.sent.map Delivery.event

/-! ## The same events

An event is plain when it is none of the kinds that the three options add.  What is plain in a
response is what the two calls share. -/

section Events

variable {π : Projection} {crates : Crates} {limits : Effective} {bytes : Bytes}
  {archive : MemoryArchive} {book : Book} {spine : List SpineEntry} {status : ParseStatus}

/-- The plain events of a script are the opening and the walk. -/
theorem plain_script {δ : Type} :
    ((script (δ := δ) crates limits archive book spine).map Delivery.event).filter Event.isPlain =
      ((Script.opening (δ := δ) book spine ++
        Script.walk archive book spine.zipIdx (book.resources limits spine)).map
          Delivery.event).filter Event.isPlain := by
  have hnavigation : ((Script.navigation (δ := δ) crates limits archive book).map
      Delivery.event).filter Event.isPlain = [] := by
    obtain ⟨navigation, hnavigation⟩ :=
      Script.navigation_events (δ := δ) crates limits archive book
    rw [hnavigation]
    cases navigation <;> rfl
  have hoverlays : ((Script.overlays (δ := δ) crates limits archive book).map
      Delivery.event).filter Event.isPlain = [] := by
    obtain ⟨overlays, hoverlays⟩ := Script.overlays_events (δ := δ) crates limits archive book
    rw [hoverlays]
    exact List.filter_eq_nil_iff.mpr fun event hevent => by
      obtain ⟨overlay, -, rfl⟩ := List.mem_map.mp hevent
      exact Bool.false_ne_true
  simp only [script, List.map_append, List.filter_append, hnavigation, hoverlays, List.append_nil]

/-- The trailer adds no plain event to the opening and the walk. -/
theorem plain_response : ((response π crates limits bytes archive book spine status).map
      Delivery.event).filter Event.isPlain =
    ((Script.opening (δ := π.Document) book spine ++
      Script.walk archive book spine.zipIdx (book.resources limits spine)).map
        Delivery.event).filter Event.isPlain := by
  obtain ⟨document, -, htrailing⟩ := trailing_events (π := π) limits (sourceHash bytes)
    (script crates limits archive book spine) status
  have htrailer : ((trailing π limits (sourceHash bytes)
      (script crates limits archive book spine) status).map Delivery.event).filter
        Event.isPlain = [] := by
    rw [htrailing]
    cases document <;> rfl
  rw [response, List.map_append, List.filter_append, htrailer, List.append_nil, plain_script]

end Events

/-- Three options, changed. -/
def ParseOptions.adding (options : ParseOptions) (emitDocument : Bool)
    (parseNavigation parseMediaOverlays : Option Bool) : ParseOptions :=
  { options with emitDocument, parseNavigation, parseMediaOverlays }

section Adding

variable {π : Projection} {crates : Crates} {ceilings : Limits} {options : ParseOptions}
  {bytes : Bytes} {archive : MemoryArchive} {book : Book} {spine : List SpineEntry}
  {emitDocument : Bool} {parseNavigation parseMediaOverlays : Option Bool}

/-- The three options have no part in what a book is. -/
theorem Prepared.adding (h : Prepared crates (ceilings.resolve options) bytes archive book spine) :
    Prepared crates (ceilings.resolve
      (options.adding emitDocument parseNavigation parseMediaOverlays)) bytes archive book spine where
  opened := h.opened
  scanned := h.scanned
  policy := h.policy
  rootfile := h.rootfile
  spine := h.spine

/-- Nor in which resources the walk sends. -/
theorem resources_adding : book.resources (ceilings.resolve
      (options.adding emitDocument parseNavigation parseMediaOverlays)) spine =
    book.resources (ceilings.resolve options) spine := rfl

/-- Two calls that complete send the same plain events. -/
theorem plain_adding {client client' : Nat → Bool}
    (h : (run π crates (ceilings.resolve options) bytes client).1 = .complete)
    (h' : (run π crates (ceilings.resolve
      (options.adding emitDocument parseNavigation parseMediaOverlays)) bytes client').1 =
        .complete) :
    (run π crates (ceilings.resolve options) bytes client).2.events.filter Event.isPlain =
      (run π crates (ceilings.resolve (options.adding emitDocument parseNavigation
        parseMediaOverlays)) bytes client').2.events.filter Event.isPlain := by
  obtain ⟨archive, book, spine, status, hd⟩ := run_delivered h
  obtain ⟨archive', book', spine', status', hd'⟩ := run_delivered h'
  obtain ⟨rfl, rfl, rfl⟩ := hd.prepared.adding.unique hd'.prepared
  rw [Call.events, Call.events, hd.complete.mp h, hd'.complete.mp h', plain_response,
    plain_response, resources_adding]

end Adding

/-! ## What the navigation costs

One more fetch in front of the others, which the cache keeps when the walk will send the entry. -/

/-- The option to read the navigation, settled. -/
def Effective.navigating (limits : Effective) (parseNavigation : Bool) : Effective :=
  { limits with parseNavigation }

section Costs

variable {limits : Effective} {book : Book} {spine : List SpineEntry}

theorem fetches_unnavigated (h : book.navigated = none) :
    book.fetches (limits.navigating true) spine = book.fetches (limits.navigating false) spine := by
  unfold Book.fetches Book.uses Book.aheadUses
  rw [h]
  rfl

/-- Reading the navigation is one use more, in front of the others. -/
theorem aheadUses_navigated {source : Book.NavigationSource} (h : book.navigated = some source) :
    book.aheadUses (limits.navigating true) spine =
      ⟨source.entry, decide (source.entry ∈ book.willEmit limits spine)⟩ ::
        book.aheadUses (limits.navigating false) spine := by
  unfold Book.aheadUses
  rw [h]
  rfl

/-- What the walk does not send is read for the navigation alone. -/
theorem fetches_navigated {source : Book.NavigationSource} (h : book.navigated = some source)
    (hsent : source.entry ∉ book.willEmit limits spine) :
    book.fetches (limits.navigating true) spine =
      source.entry :: book.fetches (limits.navigating false) spine := by
  unfold Book.fetches Book.uses
  rw [aheadUses_navigated h, decide_eq_false hsent, List.cons_append, fetched_cons,
    if_neg (Finset.notMem_empty _)]
  rfl

/-- What the walk sends is kept for it, so it is read once in both calls. -/
theorem fetches_shared {source : Book.NavigationSource} (h : book.navigated = some source)
    (hsent : source.entry ∈ book.willEmit limits spine) :
    (book.fetches (limits.navigating true) spine).Perm
      (book.fetches (limits.navigating false) spine) := by
  have hon := @Book.fetches_perm book (limits.navigating true) spine
  have hoff := @Book.fetches_perm book (limits.navigating false) spine
  rw [aheadUses_navigated h, decide_eq_true hsent, List.filter_cons_of_pos rfl, List.map_cons,
    List.map_cons, List.cons_append] at hon
  have hkept := (List.perm_middle.symm.trans hon).cons_inv
  exact (List.perm_append_right_iff _).mp (hkept.trans hoff.symm)

end Costs

/-! ## Which entries are sent

The entries of a response are those of its chapters and resources. -/

section Sent

variable {π : Projection} {crates : Crates} {limits : Effective} {bytes : Bytes}
  {archive : MemoryArchive} {book : Book} {spine : List SpineEntry} {status : ParseStatus}

/-- Only chapters and resources carry an entry. -/
theorem entry_of_mem {δ : Type} {d : Delivery δ} {k : Nat} (hk : d.entry = some k)
    (h : d ∈ script crates limits archive book spine) :
    d ∈ Script.walk archive book spine.zipIdx (book.resources limits spine) := by
  unfold script at h
  simp only [List.mem_append] at h
  rcases h with ((h | h) | h) | h
  · obtain ⟨info, hinfo, -⟩ := Script.opening_eq (δ := δ) book spine
    rw [hinfo] at h
    rw [List.mem_singleton.mp h] at hk
    cases hk
  · unfold Script.navigation Script.navigationEvents at h
    split at h
    · cases h
    · split at h
      · split at h
        · cases h
        · rw [List.mem_singleton.mp h] at hk
          cases hk
      · cases h
  · unfold Script.overlays at h
    split at h
    · obtain ⟨pair, -, h⟩ := List.mem_flatMap.mp h
      unfold Script.overlayEvents at h
      split at h
      · cases h
      · dsimp only at h
        split at h
        · cases h
        · rw [List.mem_singleton.mp h] at hk
          cases hk
    · cases h
  · exact h

/-- An entry that is sent is a chapter's or a resource's. -/
theorem mem_entries_script {δ : Type} {k : Nat} :
    some k ∈ (script (δ := δ) crates limits archive book spine).map Delivery.entry ↔
      k ∈ book.willEmit limits spine := by
  have hwalk : some k ∈ (Script.walk (δ := δ) archive book spine.zipIdx
      (book.resources limits spine)).map Delivery.entry ↔ k ∈ book.willEmit limits spine := by
    rw [(walk_entries _).mem_iff, List.mem_map_of_injective (Option.some_injective _), Book.willEmit,
      List.mem_append, List.mem_append, or_comm]
  rw [← hwalk]
  constructor
  · intro h
    obtain ⟨d, hd, hk⟩ := List.mem_map.mp h
    exact List.mem_map.mpr ⟨d, entry_of_mem hk hd, hk⟩
  · exact fun h => List.mem_map.mpr ((List.mem_map.mp h).imp fun d hd =>
      ⟨List.mem_append_right _ hd.1, hd.2⟩)

/-- The entries a completed call sends. -/
theorem mem_entries_response {k : Nat} :
    some k ∈ (response π crates limits bytes archive book spine status).map Delivery.entry ↔
      k ∈ book.willEmit limits spine := by
  have htrailing : some k ∉ (trailing π limits (sourceHash bytes)
      (script crates limits archive book spine) status).map Delivery.entry := by
    unfold trailing
    split <;> simp
  rw [response, List.map_append, List.mem_append, mem_entries_script]
  exact or_iff_left htrailing

end Sent

/-! ## The receipts of two calls

Bytes and entries read, with navigation and without. -/

section Receipts

variable {π : Projection} {crates : Crates} {limits : Effective} {bytes : Bytes}
  {client client' : Nat → Bool} {archive : MemoryArchive} {book : Book} {spine : List SpineEntry}

theorem Prepared.navigating {parseNavigation parseNavigation' : Bool}
    (h : Prepared crates (limits.navigating parseNavigation) bytes archive book spine) :
    Prepared crates (limits.navigating parseNavigation') bytes archive book spine where
  opened := h.opened
  scanned := h.scanned
  policy := h.policy
  rootfile := h.rootfile
  spine := h.spine

theorem Book.navigated_iff {source : Book.NavigationSource} :
    book.navigated = some source ↔ book.navigationSource = .ok (some source) := by
  unfold Book.navigated
  cases book.navigationSource with
  | error e => simp
  | ok found => simp

/-- What the navigation adds to the receipt. -/
structure NavigationCosts (archive : MemoryArchive) (book : Book) (sent : List (Option Nat))
    (off on : ParseStatus) : Prop where
  /-- There is no navigation to read, or its entry is one the walk sends. -/
  shared : (∀ source, book.navigationSource = .ok (some source) → some source.entry ∈ sent) →
    on.entriesRead = off.entriesRead ∧ on.uncompressedBytes = off.uncompressedBytes
  alone : ∀ source, book.navigationSource = .ok (some source) → some source.entry ∉ sent →
    on.entriesRead = off.entriesRead + 1 ∧
      on.uncompressedBytes = off.uncompressedBytes + (book.content archive source.entry).length

/-- Reading the navigation costs one more inflation unless the walk sends the same entry. -/
theorem navigation_costs (hoff : (run π crates (limits.navigating false) bytes client).1 = .complete)
    (hon : (run π crates (limits.navigating true) bytes client').1 = .complete)
    (h : Prepared crates (limits.navigating true) bytes archive book spine) {off on : ParseStatus}
    (hstatus : .status off ∈ (run π crates (limits.navigating false) bytes client).2.events)
    (hstatus' : .status on ∈ (run π crates (limits.navigating true) bytes client').2.events) :
    NavigationCosts archive book
      ((run π crates (limits.navigating true) bytes client').2.sent.map Delivery.entry) off on := by
  obtain ⟨hbytes, hentries⟩ := receipt_of_complete h.navigating hoff hstatus
  obtain ⟨hbytes', hentries'⟩ := receipt_of_complete h hon hstatus'
  have hsent : ∀ k, some k ∈ (run π crates (limits.navigating true) bytes client').2.sent.map
      Delivery.entry ↔ k ∈ book.willEmit limits spine := fun k => by
    obtain ⟨archive', book', spine', status, hd⟩ := run_delivered hon
    obtain ⟨rfl, rfl, rfl⟩ := h.unique hd.prepared
    rw [hd.complete.mp hon, mem_entries_response]
    rfl
  constructor
  · intro hshared
    rw [hbytes, hentries, hbytes', hentries']
    have hperm : (book.schedule crates (limits.navigating true) archive spine).Perm
        (book.schedule crates (limits.navigating false) archive spine) := by
      refine List.Perm.append_left _ ?_
      cases hnavigated : book.navigated with
      | none => rw [fetches_unnavigated hnavigated]
      | some source =>
          exact fetches_shared hnavigated
            ((hsent _).mp (hshared source (Book.navigated_iff.mp hnavigated)))
    exact ⟨hperm.length_eq, (hperm.map _).sum_eq⟩
  · intro source hsource hmem
    rw [hbytes, hentries, hbytes', hentries']
    have hschedule : (book.schedule crates (limits.navigating true) archive spine).Perm
        (source.entry :: book.schedule crates (limits.navigating false) archive spine) := by
      unfold Book.schedule
      rw [fetches_navigated (Book.navigated_iff.mpr hsource) fun hk => hmem ((hsent _).mpr hk)]
      exact List.perm_middle
    refine ⟨hschedule.length_eq, ?_⟩
    rw [(hschedule.map _).sum_eq, List.map_cons, List.sum_cons, Nat.add_comm]
    rfl

end Receipts

/-! ## The document

The trailer asks the fold for its document once, behind the last plain event. -/

section Documents

variable {version : Str} {crates : Crates} {limits : Effective} {bytes : Bytes}

/-- Nothing stands in front of the only match of a predicate but what does not
match it. -/
theorem eq_of_append_cons {α : Type} {p : α → Prop} {body before after rest : List α} {x y : α}
    (hbody : ∀ a ∈ body, ¬ p a) (hrest : ∀ a ∈ rest, ¬ p a) (hx : p x)
    (h : before ++ x :: after = body ++ y :: rest) : before = body ∧ x = y := by
  rcases List.append_eq_append_iff.mp h with ⟨a, hbefore, hy⟩ | ⟨a, hbefore, hy⟩
  · cases a with
    | nil => exact ⟨by simpa using hbefore.symm, (List.cons.inj hy).1⟩
    | cons b a =>
        refine absurd hx (hbody x ?_)
        rw [hbefore]
        exact List.mem_append_right _ ((List.cons.inj hy).1 ▸ List.mem_cons_self)
  · cases a with
    | nil => exact ⟨by simpa using hbefore, ((List.cons.inj hy).1).symm⟩
    | cons b a =>
        refine absurd hx (hrest x ?_)
        rw [(List.cons.inj hy).2]
        exact List.mem_append_right _ List.mem_cons_self

def Event.IsDocument {δ : Type} (event : Event δ) : Prop := ∃ d, event = .document d

theorem script_not_document {δ : Type} {archive : MemoryArchive} {book : Book}
    {spine : List SpineEntry} :
    ∀ event ∈ (script (δ := δ) crates limits archive book spine).map Delivery.event,
      ¬ event.IsDocument := by
  obtain ⟨info, navigation, overlays, hscript, -⟩ :=
    script_events crates limits archive book spine (δ := δ)
  rw [hscript]
  rintro event hevent ⟨d, rfl⟩
  simp only [List.mem_cons, List.mem_append, List.mem_map, reduceCtorEq, and_false,
    exists_false, or_false, false_or] at hevent
  obtain ⟨message, -, hmessage⟩ := hevent
  cases message <;> cases hmessage

/-- The fold has been fed the script, and the trailer adds nothing to it. -/
theorem trailing_document {archive : MemoryArchive} {book : Book} {spine : List SpineEntry}
    (hash : UInt64) (status : ParseStatus) :
    (trailing (documentFold version) limits hash (script crates limits archive book spine)
        status).map Delivery.event =
      (if limits.emitDocument then [.document (freshDocument version hash
        ((script (δ := Except Panic Document) crates limits archive book spine).map
          Delivery.event))] else []) ++ [.status status] := by
  unfold trailing folded
  cases limits.emitDocument with
  | false => rfl
  | true =>
      have hfold := documentFold_foldl ((script (δ := Except Panic Document) crates limits archive
        book spine).map Delivery.event) (.ok ((DocumentFold.new version).setSourceHash hash))
      rw [List.foldl_map] at hfold
      have htake : ∀ state : Except Panic DocumentFold,
          ((documentFold version).take ((documentFold version).consume (.status status) state)).1 =
            state.map fun self => self.take.1 := fun state => by cases state <;> rfl
      refine congrArg (fun document => [Event.document document, .status status]) ?_
      exact (htake _).trans (congrArg (Except.map fun self => self.take.1) hfold)

/-- In front of a document stands the script of a book, and the document is its fold. -/
theorem script_of_document (client : Nat → Bool) {document : Except Panic Document}
    {before after : List (Event (Except Panic Document))}
    (h : (run (documentFold version) crates limits bytes client).2.events =
      before ++ .document document :: after) :
    ∃ archive book spine, Prepared crates limits bytes archive book spine ∧
      before = (script crates limits archive book spine).map Delivery.event ∧
      document = freshDocument version (sourceHash bytes) before := by
  rcases @run_spec (documentFold version) crates limits bytes client with
    hrefused | ⟨archive, book, spine, status, hd⟩
  · rw [Call.events, hrefused.sent] at h
    exact absurd h.symm (List.append_ne_nil_of_right_ne_nil before (List.cons_ne_nil _ after))
  · obtain ⟨rest, hrest⟩ := hd.sent.map Delivery.event
    rw [Call.events] at h
    rw [h, response, List.map_append, trailing_document, List.append_assoc, List.cons_append]
      at hrest
    cases hemit : limits.emitDocument with
    | false =>
        rw [hemit] at hrest
        have hmem : .document document ∈ (script crates limits archive book spine).map
            Delivery.event ++ [.status status] := hrest ▸ List.mem_append_right _ List.mem_cons_self
        rcases List.mem_append.mp hmem with hmem | hmem
        · exact absurd ⟨document, rfl⟩ (script_not_document _ hmem)
        · cases List.mem_singleton.mp hmem
    | true =>
        rw [hemit, if_pos rfl] at hrest
        have hstatus : ∀ event ∈ [Event.status (δ := Except Panic Document) status],
            ¬ event.IsDocument := by
          rintro event hevent ⟨d, rfl⟩
          cases List.mem_singleton.mp hevent
        obtain ⟨rfl, heq⟩ := eq_of_append_cons script_not_document hstatus ⟨document, rfl⟩ hrest
        exact ⟨archive, book, spine, hd.prepared, rfl, Event.document.inj heq⟩

theorem document_fresh (client : Nat → Bool) {document : Except Panic Document}
    {before after : List (Event (Except Panic Document))}
    (h : (run (documentFold version) crates limits bytes client).2.events =
      before ++ .document document :: after) :
    document = freshDocument version (sourceHash bytes) before := by
  obtain ⟨-, -, -, -, -, hdocument⟩ := script_of_document client h
  exact hdocument

end Documents

/-! ## The additive options

The three of them together, for calls on one archive. -/

/-- A call of the service of this version. -/
def answer (version : Str) (crates : Crates) (ceilings : Limits) (options : ParseOptions)
    (bytes : Bytes) (client : Nat → Bool) : Outcome × Call (documentFold version) :=
  run (documentFold version) crates (ceilings.resolve options) bytes client

/-- The additive options change nothing but what they add, on an upload under
these options. -/
structure Additive (version : Str) (crates : Crates) (ceilings : Limits) (options : ParseOptions)
    (bytes : Bytes) : Prop where
  events : ∀ emitDocument parseNavigation parseMediaOverlays client client',
    let added := options.adding emitDocument parseNavigation parseMediaOverlays
    (answer version crates ceilings options bytes client).1 = .complete →
    (answer version crates ceilings added bytes client').1 = .complete →
    (answer version crates ceilings options bytes client).2.events.filter Event.isPlain =
      (answer version crates ceilings added bytes client').2.events.filter Event.isPlain
  /-- The option to read the navigation is on when it is left out. -/
  navigation : ∀ parseNavigation client client' archive book spine offStatus onStatus,
    let off := { options with parseNavigation := some false }
    let on := { options with parseNavigation }
    parseNavigation ≠ some false →
    (answer version crates ceilings off bytes client).1 = .complete →
    (answer version crates ceilings on bytes client').1 = .complete →
    Prepared crates (ceilings.resolve on) bytes archive book spine →
    .status offStatus ∈ (answer version crates ceilings off bytes client).2.events →
    .status onStatus ∈ (answer version crates ceilings on bytes client').2.events →
    NavigationCosts archive book
      ((answer version crates ceilings on bytes client').2.sent.map Delivery.entry)
      offStatus onStatus
  document : ∀ client document before after,
    (answer version crates ceilings options bytes client).2.events =
      before ++ .document document :: after →
    document = freshDocument version (sourceHash bytes) before

theorem resolve_navigating {ceilings : Limits} {options : ParseOptions} {reading : Bool}
    {parseNavigation : Option Bool} (h : parseNavigation.getD true = reading) :
    ceilings.resolve { options with parseNavigation } =
      (ceilings.resolve options).navigating reading := by
  subst h
  rfl

theorem reading_of_ne {parseNavigation : Option Bool} (h : parseNavigation ≠ some false) :
    parseNavigation.getD true = true := by
  cases parseNavigation with
  | none => rfl
  | some reading =>
      cases reading with
      | false => exact absurd rfl h
      | true => rfl

/-- Whatever a call is asked for in addition, it sends what it would have sent without. -/
theorem options_additive (version : Str) (crates : Crates) (ceilings : Limits)
    (options : ParseOptions) (bytes : Bytes) :
    Additive version crates ceilings options bytes where
  events _ _ _ _ _ h h' := plain_adding h h'
  navigation parseNavigation client client' archive book spine offStatus onStatus := by
    intro off on hon hoff hcomplete hprepared hstatus hstatus'
    have hoffs : ceilings.resolve off = (ceilings.resolve options).navigating false :=
      resolve_navigating rfl
    have hons : ceilings.resolve on = (ceilings.resolve options).navigating true :=
      resolve_navigating (reading_of_ne hon)
    rw [answer, hoffs] at hoff hstatus
    rw [answer, hons] at hcomplete hstatus'
    rw [hons] at hprepared
    rw [answer, hons]
    exact navigation_costs hoff hcomplete hprepared hstatus hstatus'
  document _ _ _ _ h := document_fresh _ h

/-- A completed call has sent its status. -/
theorem status_of_complete {π : Projection} {crates : Crates} {limits : Effective} {bytes : Bytes}
    {client : Nat → Bool} (h : (run π crates limits bytes client).1 = .complete) :
    ∃ status, .status status ∈ (run π crates limits bytes client).2.events := by
  obtain ⟨archive, book, spine, status, hd⟩ := run_delivered h
  obtain ⟨document, -, htrailing⟩ := trailing_events (π := π) limits (sourceHash bytes)
    (script crates limits archive book spine) status
  refine ⟨status, ?_⟩
  rw [Call.events, hd.complete.mp h, response, List.map_append, htrailing]
  exact List.mem_append_right _ (List.mem_append_right _ List.mem_cons_self)

namespace Sample

/-- A book of one chapter, with a navigation document of a type that is not sent. -/
def outlined : List File :=
  [file "mimetype" (ascii "application/epub+zip"), file "META-INF/container.xml" [1],
    file "p.opf" [2], file "a.xhtml" [10], file "n.xhtml" [3]]

def outlinedOpf : XmlStream where
  events := [.start (tag "package" [("version", "3.0")]), .start (tag "manifest" []),
    .empty (chapterItem "a" "a.xhtml").tag,
    .empty (tag "item" [("id", "n"), ("href", "n.xhtml"),
      ("media-type", "text/xml"), ("properties", "nav")]),
    .endTag "manifest", .start (tag "spine" []), .empty (tag "itemref" [("idref", "a")]),
    .endTag "spine", .endTag "package"]
  stop := .eof

def contents : XmlStream where
  events := [.start (tag "nav" [("epub:type", "toc")]), .start (tag "ol" []),
    .start (tag "li" []), .start (tag "a" [("href", "a.xhtml#top")]), .text "One".toList,
    .endTag "a", .endTag "li", .endTag "ol", .endTag "nav"]
  stop := .eof

def outlinedCrates : Crates where
  zipNew := fun _ => .ok (archive outlined)
  strict := reader [([1], container "p.opf"), ([2], outlinedOpf)]
  lenient := reader [([3], contents)]
  parseFloat := fun _ => none

/-- The document asked for, and the navigation or not. -/
def asking (parseNavigation : Bool) : ParseOptions :=
  ParseOptions.default.adding true (some parseNavigation) none

end Sample

/-- The walk does not send the navigation of this book, so reading it is one
entry more. -/
theorem options_additive_outlined :
    ∃ archive book spine off on,
      Prepared Sample.outlinedCrates (Limits.default.resolve (Sample.asking true))
        (Sample.upload Sample.outlined) archive book spine ∧
      NavigationCosts archive book
        ((answer "1".toList Sample.outlinedCrates Limits.default (Sample.asking true)
          (Sample.upload Sample.outlined) Sample.patient).2.sent.map Delivery.entry) off on ∧
      (answer "1".toList Sample.outlinedCrates Limits.default (Sample.asking false)
        (Sample.upload Sample.outlined) Sample.patient).2.events.filter Event.isPlain =
        (answer "1".toList Sample.outlinedCrates Limits.default (Sample.asking true)
          (Sample.upload Sample.outlined) Sample.patient).2.events.filter Event.isPlain := by
  have hoff : (answer "1".toList Sample.outlinedCrates Limits.default (Sample.asking false)
      (Sample.upload Sample.outlined) Sample.patient).1 = .complete := by decide +kernel
  have hon : (answer "1".toList Sample.outlinedCrates Limits.default (Sample.asking true)
      (Sample.upload Sample.outlined) Sample.patient).1 = .complete := by decide +kernel
  have hadditive := options_additive "1".toList Sample.outlinedCrates Limits.default
    (Sample.asking false) (Sample.upload Sample.outlined)
  -- The runs have been made: what is left is about any upload.
  generalize Sample.outlinedCrates = crates at *
  generalize Sample.upload Sample.outlined = bytes at *
  obtain ⟨archive, book, spine, hprepared⟩ := run_prepared hon
  obtain ⟨off, hstatus⟩ := status_of_complete hoff
  obtain ⟨on, hstatus'⟩ := status_of_complete hon
  exact ⟨archive, book, spine, off, on, hprepared,
    hadditive.navigation (some true) Sample.patient Sample.patient archive book spine off on
      (by decide) hoff hon hprepared hstatus hstatus',
    hadditive.events true (some true) none Sample.patient Sample.patient hoff hon⟩

end GrpcEpub
