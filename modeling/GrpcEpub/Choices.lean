/-
# `GrpcEpub.Choices` — what a caller gets for asking for more resources

A caller chooses the kinds of resource that come with the chapters.  Asking for
more of them adds files to the response and takes none away: every other event
is what it was, and the files that were sent are sent in the order they were.

A file may then go out under another of the manifest items that name it, the
first one selected.  Reading can cost less, not only more: an entry the walk
sends is one that the passes ahead of it keep.
-/
import GrpcEpub.Additive
import GrpcEpub.AnyOrder

namespace GrpcEpub

/-! ## Fewer items between the stops

`interleave` puts items between stops by comparing keys; fewer items are a sublist of the walk. -/

section Interleave

variable {α β κ : Type} [LinearOrder κ] {key : α → κ} {stop : β → κ}

/-- Where an item goes is a matter of its key. -/
theorem interleave_map_key (stops : List β) (pending : List α) :
    (interleave key stop stops pending).map (Sum.map key id) =
      interleave id stop stops (pending.map key) := by
  induction stops generalizing pending with
  | nil =>
      simp only [interleave, List.map_map]
      rfl
  | cons b stops ih =>
      simp only [interleave, List.map_append, List.map_cons, ih, List.map_map, List.takeWhile_map,
        List.dropWhile_map]
      rfl

theorem takeWhile_below {keys : List κ} (hsorted : keys.Pairwise (· ≤ ·)) (t : κ) :
    keys.takeWhile (· < t) = keys.filter (· < t) := by
  have h := takeWhile_append_filter_dropWhile id t (fun _ => false) keys hsorted
  simpa only [id_eq, List.filter_false, List.append_nil, Bool.or_false] using h

/-- In a sorted list, what is dropped in front is what is below. -/
theorem dropWhile_below {keys : List κ} (hsorted : keys.Pairwise (· ≤ ·)) (t : κ) :
    keys.dropWhile (· < t) = keys.filter fun k => !decide (k < t) := by
  induction hsorted with
  | nil => rfl
  | @cons k keys hk _ ih =>
      by_cases hbelow : k < t
      · simp [hbelow, ih]
      · have hall : ∀ k' ∈ k :: keys, (!decide (k' < t)) = true := by
          intro k' hk'
          rcases List.mem_cons.mp hk' with rfl | hk'
          · simpa using hbelow
          · simpa using (not_lt.mp hbelow).trans (hk k' hk')
        rw [List.filter_eq_self.mpr hall, List.dropWhile_cons_of_neg (by simpa using hbelow)]

/-- With fewer items, those that are left go where they went. -/
theorem interleave_sublist {keys keys' : List κ} (h : keys.Sublist keys')
    (hsorted : keys'.Pairwise (· ≤ ·)) (stops : List β) :
    (interleave id stop stops keys).Sublist (interleave id stop stops keys') := by
  induction stops generalizing keys keys' with
  | nil => exact h.map _
  | cons b stops ih =>
      have hfewer := hsorted.sublist h
      refine ((List.Sublist.map _ ?_).append (.cons_cons _ (ih ?_ ?_)))
      · show (keys.takeWhile (· < stop b)).Sublist (keys'.takeWhile (· < stop b))
        rw [takeWhile_below hfewer, takeWhile_below hsorted]
        exact h.filter _
      · show (keys.dropWhile (· < stop b)).Sublist (keys'.dropWhile (· < stop b))
        rw [dropWhile_below hfewer, dropWhile_below hsorted]
        exact h.filter _
      · exact hsorted.sublist (List.dropWhile_sublist _)

end Interleave

/-! ## More kinds

A selection is compared with a larger one item by item, and then entry by entry, since several
items may name one entry. -/

/-- The limits of a call, with these kinds of resource. -/
def Effective.selecting (limits : Effective) (images stylesheets all : Bool) : Effective :=
  { limits with
    includeImages := images
    includeStylesheets := stylesheets
    includeAllResources := all }

/-- Limits that let the same kinds of resource through and more, and are the
same otherwise. -/
structure Effective.Selects (limits wider : Effective) : Prop where
  kinds : ∀ kind, Extract.selected kind limits = true → Extract.selected kind wider = true
  others : wider = limits.selecting wider.includeImages wider.includeStylesheets
    wider.includeAllResources

/-- Every entry that is waited for has its turn. -/
theorem Book.mem_archiveOrder_of_mem {pending : List (Nat × Nat)} {entry position : Nat}
    (h : (entry, position) ∈ pending) : entry ∈ (archiveOrder pending).map Prod.fst := by
  have hexists : ∃ p, (entry, p) ∈ pending := ⟨position, h⟩
  have hfirst : (entry, Nat.find hexists) ∈ archiveOrder pending :=
    mem_archiveOrder.mpr ⟨Nat.find_spec hexists, fun p hp => Nat.find_min' hexists hp⟩
  exact List.mem_map.mpr ⟨_, hfirst, rfl⟩

section Selects

variable {crates : Crates} {limits wider : Effective} {bytes : Bytes} {archive : MemoryArchive}
  {book : Book} {spine : List SpineEntry}

/-- The kinds of resource have no part in what a book is. -/
theorem Prepared.selecting (h : Prepared crates limits bytes archive book spine)
    (images stylesheets all : Bool) :
    Prepared crates (limits.selecting images stylesheets all) bytes archive book spine where
  opened := h.opened
  scanned := h.scanned
  policy := h.policy
  rootfile := h.rootfile
  spine := h.spine

variable (h : limits.Selects wider)

include h

theorem Prepared.selects (hprepared : Prepared crates limits bytes archive book spine) :
    Prepared crates wider bytes archive book spine := by
  rw [h.others]
  exact hprepared.selecting _ _ _

theorem Book.Qualifies.selects {position entry : Nat}
    (hqualifies : book.Qualifies limits spine position entry) :
    book.Qualifies wider spine position entry where
  inRange := hqualifies.inRange
  notSource := hqualifies.notSource
  usable := hqualifies.usable
  present := hqualifies.present
  inArchive := hqualifies.inArchive
  notChapter := hqualifies.notChapter
  notNested := hqualifies.notNested
  selected := h.kinds _ hqualifies.selected
  notObfuscated := hqualifies.notObfuscated

/-- What was sent is sent, in the order of the archive. -/
theorem Book.resources_sublist : ((book.resources limits spine).map Prod.fst).Sublist
    ((book.resources wider spine).map Prod.fst) := by
  have hsorted : ∀ limits : Effective,
      ((book.resources limits spine).map Prod.fst).Pairwise (· < ·) := fun limits =>
    List.pairwise_map.mpr (archiveOrder_pairwise (book.pendingItems limits spine))
  refine List.sublist_of_subperm_of_pairwise (List.subperm_of_subset (hsorted limits).nodup ?_)
    (hsorted limits) (hsorted wider)
  intro entry hentry
  obtain ⟨⟨e, position⟩, hmem, rfl⟩ := List.mem_map.mp hentry
  have hqualifies := (mem_pendingItems.mp (mem_archiveOrder.mp hmem).1).selects h
  exact mem_archiveOrder_of_mem (mem_pendingItems.mpr hqualifies)

/-- An item that is skipped was skipped. -/
theorem Book.skips_of_selects {sources entries : List Nat} {item : Resolved × Nat}
    (hskips : book.skips wider sources entries item = true) :
    book.skips limits sources entries item = true := by
  have hkind := h.kinds (Extract.classify item.1.item.mediaType)
  unfold skips fate at hskips ⊢
  cases hselected : Extract.selected (Extract.classify item.1.item.mediaType) limits with
  | true =>
      rw [hkind hselected] at hskips
      exact hskips
  | false =>
      repeat' split
      all_goals first
        | rfl
        | simp_all [Fate.skips]

theorem Book.skipped_le : book.skipped wider spine ≤ book.skipped limits spine :=
  List.countP_mono_left fun _ _ => Book.skips_of_selects h

end Selects

/-! ## What the client receives

Of the response: the events that are settled by the book alone are the same, and of the parcels
those that were sent are sent in the same order. -/

/-- An event that no choice of resources changes. -/
def Event.isSettled {δ : Type} : Event δ → Bool
  | .info _ | .navigation _ | .mediaOverlay _ | .chapter _ => true
  | .resource _ | .document _ | .status _ => false

/-- A file on its way: the entry it is stored in, and its bytes. -/
def Delivery.parcel {δ : Type} (delivery : Delivery δ) : Option (Option Nat × Bytes) :=
  delivery.event.file.map fun file => (delivery.entry, file.2)

/-- The files of a call, in the order they go out. -/
def Call.parcels {π : Projection} (call : Call π) : List (Option Nat × Bytes) :=
  call.sent.filterMap Delivery.parcel

section Received

variable {δ : Type} (crates : Crates) (limits : Effective) (archive : MemoryArchive) (book : Book)
  (spine : List SpineEntry)

theorem parcels_carried (sent : List (Delivery δ)) :
    (carried sent).filterMap Delivery.parcel = sent.filterMap Delivery.parcel := by
  rw [carried, List.filterMap_filter]
  refine List.filterMap_congr fun delivery _ => ?_
  unfold Delivery.parcel
  cases delivery.event.file <;> rfl

/-- The file at one place of the walk. -/
def parcelAt (place : Nat ⊕ SpineEntry × Nat) : Option Nat × Bytes :=
  let entry := place.elim id fun visit => book.chapterEntry visit.1
  (some entry, book.content archive entry)

theorem parcels_walk (stops : List (SpineEntry × Nat)) (pending : List (Nat × Nat)) :
    (Script.walk (δ := δ) archive book stops pending).filterMap Delivery.parcel =
      (interleave id (fun visit : SpineEntry × Nat => book.chapterEntry visit.1) stops
        (pending.map Prod.fst)).map (parcelAt archive book) := by
  rw [← interleave_map_key, List.map_map, Script.walk, List.filterMap_map, ← List.filterMap_eq_map]
  refine List.filterMap_congr fun place _ => ?_
  cases place <;> rfl

theorem settled_places (places : List ((Nat × Nat) ⊕ SpineEntry × Nat)) :
    ((places.map (Sum.elim (Script.resource (δ := δ) archive book)
        (Script.chapter archive book))).map Delivery.event).filter Event.isSettled =
      (rights places).map fun visit => .chapter (Script.chapterMessage archive book visit) := by
  induction places with
  | nil => rfl
  | cons place places ih =>
      cases place with
      | inl pending => exact ih
      | inr visit => exact congrArg (_ :: ·) ih

/-- What is settled ahead of the walk, and then the chapters. -/
def settledEvents : List (Event δ) :=
  ((Script.opening book spine ++ Script.navigation crates limits archive book ++
    Script.overlays crates limits archive book).map Delivery.event).filter Event.isSettled ++
  spine.zipIdx.map fun visit => .chapter (Script.chapterMessage archive book visit)

theorem settled_script :
    ((script (δ := δ) crates limits archive book spine).map Delivery.event).filter
      Event.isSettled = settledEvents crates limits archive book spine := by
  rw [script, List.map_append, List.filter_append, Script.walk, settled_places, rights_interleave]
  rfl

end Received

section Calls

variable {π : Projection} {crates : Crates} {limits wider : Effective} {bytes : Bytes}
  {client : Nat → Bool} {archive : MemoryArchive} {book : Book} {spine : List SpineEntry}

/-- The settled events of a call that completes are those of its book. -/
theorem settled_of_complete (h : Prepared crates limits bytes archive book spine)
    (hcomplete : (run π crates limits bytes client).1 = .complete) :
    (run π crates limits bytes client).2.events.filter Event.isSettled =
      settledEvents crates limits archive book spine := by
  obtain ⟨archive', book', spine', status, hdelivered⟩ := run_delivered hcomplete
  obtain ⟨rfl, rfl, rfl⟩ := h.unique hdelivered.prepared
  have htrailing : ((trailing π limits (sourceHash bytes)
      (script crates limits archive book spine) status).map Delivery.event).filter
        Event.isSettled = [] := by
    unfold trailing
    split <;> rfl
  rw [Call.events, hdelivered.complete.mp hcomplete, response, List.map_append,
    List.filter_append, htrailing, List.append_nil, settled_script]

theorem parcels_of_complete (h : Prepared crates limits bytes archive book spine)
    (hcomplete : (run π crates limits bytes client).1 = .complete) :
    (run π crates limits bytes client).2.parcels =
      (interleave id (fun visit : SpineEntry × Nat => book.chapterEntry visit.1) spine.zipIdx
        ((book.resources limits spine).map Prod.fst)).map (parcelAt archive book) := by
  obtain ⟨archive', book', spine', status, hdelivered⟩ := run_delivered hcomplete
  obtain ⟨rfl, rfl, rfl⟩ := h.unique hdelivered.prepared
  rw [Call.parcels, hdelivered.complete.mp hcomplete, ← parcels_carried, carried_response,
    parcels_walk]

/-- The counts of a receipt are those of its book. -/
theorem counted_of_complete (h : Prepared crates limits bytes archive book spine)
    (hcomplete : (run π crates limits bytes client).1 = .complete) {status : ParseStatus}
    (hstatus : .status status ∈ (run π crates limits bytes client).2.events) :
    status.chaptersEmitted = spine.length ∧
      status.resourcesEmitted = (book.resources limits spine).length ∧
      status.resourcesSkipped = book.skipped limits spine := by
  obtain ⟨archive', book', spine', status', hdelivered⟩ := run_delivered hcomplete
  obtain ⟨rfl, rfl, rfl⟩ := h.unique hdelivered.prepared
  obtain ⟨-, rfl⟩ := hdelivered.complete_of_status hstatus
  exact ⟨hdelivered.chapters, hdelivered.resources, skipped_of_complete h hcomplete hstatus⟩

end Calls

/-- One call against another that asked for more resources. -/
structure Call.Enlarged {π : Projection} (call larger : Call π) : Prop where
  settled : call.events.filter Event.isSettled = larger.events.filter Event.isSettled
  parcels : call.parcels.Sublist larger.parcels
  receipts : ∀ status status', .status status ∈ call.events → .status status' ∈ larger.events →
    status.chaptersEmitted = status'.chaptersEmitted ∧
    status.resourcesEmitted ≤ status'.resourcesEmitted ∧
    status'.resourcesSkipped ≤ status.resourcesSkipped

/-- Whoever asks for more kinds of resource, receives the same book with more
files in it. -/
theorem selecting_only_adds (π : Projection) (crates : Crates) (limits wider : Effective)
    (bytes : Bytes) (client client' : Nat → Bool) (hselects : limits.Selects wider)
    (hcomplete : (run π crates limits bytes client).1 = .complete)
    (hcomplete' : (run π crates wider bytes client').1 = .complete) :
    (run π crates limits bytes client).2.Enlarged (run π crates wider bytes client').2 := by
  obtain ⟨archive, book, spine, hprepared⟩ := run_prepared hcomplete
  have hprepared' := hprepared.selects hselects
  have hsublist : ((book.resources limits spine).map Prod.fst).Sublist
      ((book.resources wider spine).map Prod.fst) := Book.resources_sublist hselects
  refine ⟨?_, ?_, fun status status' hstatus hstatus' => ?_⟩
  · rw [settled_of_complete hprepared hcomplete, settled_of_complete hprepared' hcomplete',
      hselects.others]
    rfl
  · rw [parcels_of_complete hprepared hcomplete, parcels_of_complete hprepared' hcomplete']
    have hsorted : ((book.resources wider spine).map Prod.fst).Pairwise (· ≤ ·) :=
      List.pairwise_map.mpr ((Book.archiveOrder_pairwise (book.pendingItems wider spine)).imp
        Nat.le_of_lt)
    exact (interleave_sublist hsublist hsorted spine.zipIdx).map _
  · obtain ⟨hchapters, hresources, hskipped⟩ := counted_of_complete hprepared hcomplete hstatus
    obtain ⟨hchapters', hresources', hskipped'⟩ :=
      counted_of_complete hprepared' hcomplete' hstatus'
    have hlength := hsublist.length_le
    rw [List.length_map, List.length_map] at hlength
    refine ⟨hchapters.trans hchapters'.symm, ?_, ?_⟩
    · rw [hresources, hresources']
      exact hlength
    · rw [hskipped, hskipped']
      exact Book.skipped_le hselects

/-- Chapters alone, out of whatever else a caller asks for. -/
theorem Effective.selects_bare (limits : Effective) :
    (limits.selecting false false false).Selects limits where
  kinds kind := by
    cases kind <;> simp [Extract.selected, selecting]
  others := rfl

theorem selecting_only_adds_backwards :
    (run Sample.counting Sample.backwards.crates (Sample.whole.selecting false false false)
      Sample.backwards.bytes Sample.patient).2.Enlarged
    (run Sample.counting Sample.backwards.crates Sample.whole Sample.backwards.bytes
      Sample.patient).2 :=
  selecting_only_adds Sample.counting Sample.backwards.crates
    (Sample.whole.selecting false false false) Sample.whole Sample.backwards.bytes Sample.patient
    Sample.patient Sample.whole.selects_bare (by decide +kernel) (by decide +kernel)

end GrpcEpub
