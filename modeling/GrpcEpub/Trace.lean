/-
# `GrpcEpub.Trace` — the driver sends its script

Every operation of the driver gets one triple: what it puts out, that it keeps
the call `Sound`, and what is left when it stops early.  The passes are then
verified by sequencing, whichever of their operations stops.

`Emits out P x ws Q E` reads: from a state with `P`, the step puts out a first part of `ws`; all
of it, with `Q` behind it, when it returns, and with `E` when it does not.  The script of a book
is then the concatenation of what its operations put out, and `Broken` is what can be said
wherever the call has stopped.
-/
import GrpcEpub.Ledger
import GrpcEpub.Plan

namespace GrpcEpub

/-- The fold after some events, when the caller asked for one. -/
def folded (π : Projection) (limits : Effective) (hash : UInt64)
    (sent : List (Delivery π.Document)) : Option π.State :=
  if limits.emitDocument then
    some (sent.foldl (fun fold delivery => π.consume delivery.event fold)
      (π.setSourceHash hash π.start))
  else none

section Sound

variable {π : Projection} (limits : Effective) (archive : MemoryArchive)
  (entries : List EntryInfo) (hash : UInt64)

/-- What stays true of a call while it runs: bytes kept are the entry's own,
the budget is that of the readings, and the fold has seen what was sent. -/
structure Sound (s : Call π) : Prop where
  preread : ∀ k bytes, s.preread.get k = some bytes →
    bytes = archive.inflated (entries.getD k default)
  ledger : Ledger archive limits.maxUncompressedBytes s.reads s.budget
  fold : s.fold = folded π limits hash s.sent

/-- A status that came from `read_entry`: reading one of the entries on the
budget the call was left with fails with it. -/
def FromRead (e : Abort) (s : Call π) : Prop :=
  ∀ status, e = .failed status → ∃ entry ∈ entries,
    (Archive.readEntry archive entry limits).exec s.budget = (.error (.failed status), s.budget)

/-- The accounts of a call that stopped early.  Only a call that died of a full
counter has charged for a buffer it never returned. -/
structure Accounted (e : Abort) (s : Call π) : Prop where
  ledger : ∃ budget, Ledger archive limits.maxUncompressedBytes s.reads budget ∧
    (s.budget = budget ∨ e = .panicked .overflow ∧
      (u64Max < limits.maxUncompressedBytes ∨ u32Max ≤ s.reads.length))
  balance : limits.maxUncompressedBytes ≤ u64Max →
    s.budget.consumed + s.budget.remaining = limits.maxUncompressedBytes

/-- What is still true of a call that stopped while it delivered. -/
structure Broken (e : Abort) (s : Call π) : Prop extends Accounted limits archive e s where
  fromRead : FromRead limits archive entries e s

variable {limits archive entries hash}

theorem Sound.accounted {s : Call π} (h : Sound limits archive entries hash s) (e : Abort) :
    Accounted limits archive e s where
  ledger := ⟨s.budget, h.ledger, .inl rfl⟩
  balance := fun _ => h.ledger.balance

/-- Stopping where nothing was being read leaves everything in order. -/
theorem Sound.broken {s : Call π} (h : Sound limits archive entries hash s) {e : Abort}
    (he : ∀ status, e ≠ .failed status) : Broken limits archive entries e s where
  toAccounted := h.accounted e
  fromRead := fun status hs => absurd hs (he status)

theorem Sound.panicked {s : Call π} (h : Sound limits archive entries hash s) (p : Panic) :
    Broken limits archive entries (.panicked p) s :=
  h.broken (by simp)

end Sound

namespace Parse

variable {π : Projection} {crates : Crates} {client : Nat → Bool} {limits : Effective}
  {archive : MemoryArchive} {entries : List EntryInfo} {hash : UInt64}

/-! ## Decisions

A decision puts out nothing.  When it fails it has panicked, and the call is left in order. -/

/-- A decision whose only failure is a panic. -/
theorem emits_ofExcept {α β : Type} {r : Except Abort α} {f : α → Step π β}
    {ws : List (Delivery π.Document)} {R : β → Call π → Prop} (hr : OnlyPanics r)
    (h : ∀ a, r = .ok a → Eff.Emits Call.sent (Sound limits archive entries hash) (f a) ws R
      (Broken limits archive entries)) :
    Eff.Emits Call.sent (Sound limits archive entries hash) (Eff.ofExcept r >>= f) ws R
      (Broken limits archive entries) := by
  refine .ofExcept_bind h ?_
  intro e s he hs
  obtain ⟨p, rfl⟩ := hr e he
  exact hs.panicked p

/-- Looking a position up. -/
theorem emits_nth {α β : Type} [Inhabited α] {xs : List α} {i : Nat} {f : α → Step π β}
    {ws : List (Delivery π.Document)} {R : β → Call π → Prop}
    (h : xs.getD i default ∈ xs → Eff.Emits Call.sent (Sound limits archive entries hash)
      (f (xs.getD i default)) ws R (Broken limits archive entries)) :
    Eff.Emits Call.sent (Sound limits archive entries hash) (Eff.ofExcept (nth xs i) >>= f) ws R
      (Broken limits archive entries) :=
  emits_ofExcept (.nth xs i) fun x hx => by
    obtain rfl := nth_getD hx
    exact h (nth_mem hx)

/-- Looking a manifest position up. -/
theorem emits_item {β : Type} {book : Book} {i : Nat} {f : Resolved → Step π β}
    {ws : List (Delivery π.Document)} {R : β → Call π → Prop}
    (h : book.item i ∈ book.resolved →
      Eff.Emits Call.sent (Sound limits archive entries hash) (f (book.item i)) ws R
        (Broken limits archive entries)) :
    Eff.Emits Call.sent (Sound limits archive entries hash)
      (Eff.ofExcept (nth book.resolved i) >>= f) ws R (Broken limits archive entries) :=
  emits_nth h

/-! ## Reading

The bytes that come back are those the archive has for the entry, whether they are inflated now
or were kept. -/

/-- Reading puts nothing out, and charges the budget for what it returns. -/
theorem readEntry_spec {entry : EntryInfo} (hmem : entry ∈ entries) :
    Eff.Emits (Call.sent (π := π)) (Sound limits archive entries hash)
      (readEntry limits archive entry) []
      (fun bytes s => bytes = archive.inflated entry ∧ Sound limits archive entries hash s)
      (Broken limits archive entries) := by
  intro s hs
  have hbalance := hs.ledger.balance
  rcases Archive.readEntry_cases archive entry limits s.budget with
    ⟨hlen, hexec⟩ | ⟨status, hexec⟩ | ⟨hlen, hover, hexec⟩ | ⟨hlen, hfull, hexec⟩
  all_goals simp only [readEntry, Eff.exec_bind, Eff.exec_get, hexec, Eff.exec_set, Eff.exec_pure,
    Eff.exec_throw]
  · exact ⟨by simp, trivial, hs.preread, .charge entry hs.ledger hlen, hs.fold⟩
  · refine ⟨⟨[], List.nil_prefix, by simp⟩, hs.accounted _, ?_⟩
    rintro _ ⟨⟩
    exact ⟨entry, hmem, hexec⟩
  · -- the sum stays below the effective cap, so it leaves the type only when that does
    have hcap : u64Max < limits.maxUncompressedBytes := by omega
    exact ⟨⟨[], List.nil_prefix, by simp⟩,
      ⟨⟨_, hs.ledger, .inr ⟨rfl, .inl hcap⟩⟩, fun hle => by omega⟩, by rintro _ ⟨⟩⟩
  · rw [hs.ledger.entries_eq] at hfull
    refine ⟨⟨[], List.nil_prefix, by simp⟩,
      ⟨⟨_, hs.ledger, .inr ⟨rfl, .inr (by simpa using hfull)⟩⟩, fun _ => ?_⟩, by rintro _ ⟨⟩⟩
    simp only [Budget.charge]
    omega

/-- A change to the fields no invariant speaks of. -/
theorem emits_modify {f : Call π → Call π}
    (h : ∀ s, (f s).sent = s.sent ∧ (f s).preread = s.preread ∧ (f s).reads = s.reads ∧
      (f s).budget = s.budget ∧ (f s).fold = s.fold) :
    Eff.Emits Call.sent (Sound limits archive entries hash) (modify f : Step π PUnit) []
      (fun _ => Sound limits archive entries hash) (Broken limits archive entries) := by
  refine .modify ?_
  intro s hs
  obtain ⟨hsent, hpreread, hreads, hbudget, hfold⟩ := h s
  exact ⟨by simp [hsent], by rw [hpreread]; exact hs.preread, by rw [hreads, hbudget]; exact hs.ledger,
    by rw [hfold, hsent]; exact hs.fold⟩

theorem warn_spec (code : ParseWarningCode) (href : Str) (message : WarningText) :
    Eff.Emits Call.sent (Sound limits archive entries hash) (warn code href message : Step π Unit)
      [] (fun _ => Sound limits archive entries hash) (Broken limits archive entries) :=
  emits_modify fun _ => ⟨rfl, rfl, rfl, rfl, rfl⟩

theorem readAt_spec {entry : EntryInfo} (hmem : entry ∈ entries) :
    Eff.Emits (Call.sent (π := π)) (Sound limits archive entries hash)
      (readAt limits archive entry) []
      (fun bytes s => bytes = archive.inflated entry ∧ Sound limits archive entries hash s)
      (Broken limits archive entries) := by
  refine (readEntry_spec hmem).bind_silent fun bytes => .assuming fun hbytes => ?_
  refine Eff.Emits.bind_silent (emits_modify ?_) fun _ => .pure fun s hs => ⟨hbytes, hs⟩
  exact fun _ => ⟨rfl, rfl, rfl, rfl, rfl⟩

/-- What is kept for an entry is the content of that entry. -/
theorem takePreread_spec (k : Nat) :
    Eff.Emits (Call.sent (π := π)) (Sound limits archive entries hash) (takePreread k) []
      (fun kept s => (∀ bytes, kept = some bytes →
        bytes = archive.inflated (entries.getD k default)) ∧
        Sound limits archive entries hash s)
      (Broken limits archive entries) := by
  refine .get_bind ?_
  intro s₀ hs₀
  refine Eff.Emits.bind_silent (Q := fun _ => Sound limits archive entries hash) ?_ fun _ =>
    .pure fun s hs => ⟨fun bytes h => hs₀.preread k bytes h, hs⟩
  refine .set ?_
  rintro s rfl
  refine ⟨by simp, ⟨fun k' bytes h => ?_, hs₀.ledger, hs₀.fold⟩⟩
  rw [HashMap.get_erase] at h
  split at h
  · cases h
  · exact hs₀.preread k' bytes h

theorem keep_spec {k : Nat} {bytes : Bytes}
    (hbytes : bytes = archive.inflated (entries.getD k default)) :
    Eff.Emits (Call.sent (π := π)) (Sound limits archive entries hash) (keep k bytes) []
      (fun _ => Sound limits archive entries hash) (Broken limits archive entries) := by
  refine .modify fun s hs => ⟨by simp, ⟨fun k' bytes' h => ?_, hs.ledger, hs.fold⟩⟩
  rw [HashMap.get_insert] at h
  split at h
  · obtain rfl := Option.some_injective _ h
    subst k'
    exact hbytes
  · exact hs.preread k' bytes' h

theorem prereadOr_spec {kept : Option Bytes} {k : Nat}
    (hkept : ∀ bytes, kept = some bytes → bytes = archive.inflated (entries.getD k default)) :
    Eff.Emits (Call.sent (π := π)) (Sound limits archive entries hash)
      (prereadOr limits archive kept entries k) []
      (fun bytes s => bytes = archive.inflated (entries.getD k default) ∧
        Sound limits archive entries hash s)
      (Broken limits archive entries) := by
  cases kept with
  | some bytes => exact .pure fun s hs => ⟨hkept bytes rfl, hs⟩
  | none => exact emits_nth fun hmem => readAt_spec hmem

theorem prereadRead_spec (k : Nat) :
    Eff.Emits (Call.sent (π := π)) (Sound limits archive entries hash)
      (prereadRead limits archive entries k) []
      (fun bytes s => bytes = archive.inflated (entries.getD k default) ∧
        Sound limits archive entries hash s)
      (Broken limits archive entries) :=
  (takePreread_spec k).bind_silent fun _ => .assuming fun hkept => prereadOr_spec hkept

/-! ## Sending

`emit` puts the event out and gives it to the fold, and a client that is gone has had all the
events before it. -/

theorem exec_send (event : Event π.Document) (entry : Option Nat) (s : Call π) :
    (send client event entry).exec s =
      if client s.sent.length then (.ok (), { s with sent := s.sent ++ [⟨event, entry⟩] })
      else (.error .gone, s) := by
  simp only [send, Eff.exec_bind, Eff.exec_get]
  split <;> rfl

/-- Away from the trailer, `emit` is one event on the wire, folded on its way. -/
theorem emit_eq {event : Event π.Document} (h : ∀ status, event ≠ .status status)
    (entry : Option Nat) (s : Call π) :
    (emit client event entry).exec s =
      (send client event entry).exec { s with fold := s.fold.map (π.consume event) } := by
  cases hf : s.fold with
  | none =>
      simp only [emit, Eff.exec_bind, Eff.exec_get, hf]
      congr 1
      cases s
      simp_all
  | some fold =>
      cases event with
      | status status => exact absurd rfl (h status)
      | _ => simp [emit, Eff.exec_bind, hf]

/-- An event goes out, and the fold has seen it. -/
theorem emit_spec {event : Event π.Document} (h : ∀ status, event ≠ .status status)
    (entry : Option Nat) :
    Eff.Emits Call.sent (Sound limits archive entries hash) (emit client event entry)
      [⟨event, entry⟩] (fun _ => Sound limits archive entries hash)
      (Broken limits archive entries) := by
  intro s hs
  rw [emit_eq h, exec_send]
  cases client s.sent.length with
  | true =>
      refine ⟨rfl, hs.preread, hs.ledger, ?_⟩
      simp only [hs.fold, folded]
      split <;> simp
  | false =>
      exact ⟨⟨[], List.nil_prefix, by simp⟩,
        ⟨⟨s.budget, hs.ledger, .inl rfl⟩, fun _ => hs.ledger.balance⟩, by rintro _ ⟨⟩⟩

variable {book : Book}

/-! ## Ahead of the chapters

Navigation and overlays: what they put out is a function of the book and of the content of its
entries. -/

/-- The navigation pass puts out its event, if there is one. -/
theorem navigationPass_spec (willEmit : List Nat) (source : Option Book.NavigationSource) :
    Eff.Emits (Call.sent (π := π)) (Sound limits archive book.entries hash)
      (navigationPass crates client limits archive book willEmit source)
      (Script.navigationEvents crates limits archive book source)
      (fun _ => Sound limits archive book.entries hash)
      (Broken limits archive book.entries) := by
  unfold navigationPass Script.navigationEvents
  cases limits.parseNavigation with
  | false => exact .pure fun s hs => hs
  | true =>
      cases source with
      | none => exact .pure fun s hs => hs
      | some source =>
          refine emits_item ?_
          intro _
          refine (prereadRead_spec source.entry).bind_silent fun bytes => .assuming fun hbytes => ?_
          have hparsed : (if source.fromNcx = true then
                Nav.parseNcx (crates.lenient bytes) (book.item source.position).path
              else Nav.parseNav (crates.lenient bytes) (book.item source.position).path) =
              Script.parsedNavigation crates archive book source := by
            rw [hbytes]
            rfl
          simp only [hparsed]
          -- whether the bytes are kept for the walk or not, the rest is the same
          exact .when (keep_spec hbytes) (.ite (warn_spec _ _ _) (emit_spec (by simp) _))

theorem keepOverlay_error {willEmit : List Nat} {lastUse : HashMap Nat Nat} {entry round : Nat}
    {e : Abort} (h : keepOverlay willEmit lastUse entry round = .error e) :
    e = .panicked .index := by
  unfold keepOverlay at h
  split at h
  · cases h
  · split at h <;> cases h
    rfl

/-- One overlay: its event, if it has cues. -/
theorem overlayTurn_spec (willEmit : List Nat) (lastUse : HashMap Nat Nat)
    (position overlay round : Nat) :
    Eff.Emits (Call.sent (π := π)) (Sound limits archive book.entries hash)
      (overlayTurn crates client limits archive book willEmit lastUse position overlay round)
      (Script.overlayEvents crates archive book (position, overlay))
      (fun _ => Sound limits archive book.entries hash)
      (Broken limits archive book.entries) := by
  unfold overlayTurn Script.overlayEvents
  refine emits_item ?_
  intro _
  cases (book.item overlay).entry with
  | none => exact .pure fun s hs => hs
  | some entry =>
      refine (prereadRead_spec entry).bind_silent fun bytes => .assuming fun hbytes => ?_
      refine .ofExcept_bind (fun again _ => ?_) fun e s he hs => by
        rw [keepOverlay_error he]
        exact hs.panicked _
      have hparsed : Smil.parseOverlay crates.parseFloat (crates.lenient bytes)
          (book.item overlay).path = Script.parsedOverlay crates archive book overlay entry := by
        rw [hbytes]
        rfl
      simp only [hparsed]
      exact .when (keep_spec hbytes)
        (.ite (warn_spec _ _ _) (emits_item fun _ => emit_spec (by simp) _))

theorem overlayLoop_spec (willEmit : List Nat) (lastUse : HashMap Nat Nat)
    (turns : List ((Nat × Nat) × Nat)) :
    Eff.Emits (Call.sent (π := π)) (Sound limits archive book.entries hash)
      (overlayLoop crates client limits archive book willEmit lastUse turns)
      ((turns.map Prod.fst).flatMap (Script.overlayEvents crates archive book))
      (fun _ => Sound limits archive book.entries hash)
      (Broken limits archive book.entries) := by
  induction turns with
  | nil => exact .pure fun s hs => hs
  | cons turn rest ih =>
      obtain ⟨⟨position, overlay⟩, round⟩ := turn
      exact (overlayTurn_spec willEmit lastUse position overlay round).bind fun _ => ih

theorem overlayPass_spec (willEmit : List Nat) :
    Eff.Emits (Call.sent (π := π)) (Sound limits archive book.entries hash)
      (overlayPass crates client limits archive book willEmit book.links)
      (Script.overlays crates limits archive book)
      (fun _ => Sound limits archive book.entries hash)
      (Broken limits archive book.entries) := by
  refine .ite ?_ (.pure fun s hs => hs)
  refine emits_ofExcept (Book.lastUseFrom_panics _ _) ?_
  intro lastUse _
  have hlinks : book.links.zipIdx.map Prod.fst = book.links := List.zipIdx_map_fst ..
  rw [← congrArg (List.flatMap (Script.overlayEvents crates archive book)) hlinks]
  exact overlayLoop_spec willEmit lastUse _

/-! ## The walk

Chapters in the order of the spine, each behind the resources of smaller position.  The loop
carries what is still pending. -/

/-- A resource's event, with the entry's own bytes. -/
theorem emitResource_spec (entry position : Nat) :
    Eff.Emits (Call.sent (π := π)) (Sound limits archive book.entries hash)
      (emitResource client limits archive book book.links entry position)
      [Script.resource archive book (entry, position)]
      (fun _ => Sound limits archive book.entries hash)
      (Broken limits archive book.entries) := by
  refine emits_item ?_
  intro _
  refine emits_ofExcept (Book.overlayHref_panics _ _) ?_
  intro path hpath
  obtain rfl := Book.overlayHref_ok hpath
  refine (prereadRead_spec entry).bind_silent fun bytes => .assuming fun hbytes => ?_
  subst hbytes
  exact (emit_spec (by simp) _).bind fun _ => emits_modify fun _ => ⟨rfl, rfl, rfl, rfl, rfl⟩

/-- By induction on what is pending: each resource in front of the chapter. -/
theorem drain_spec (chapterEntry : Nat) (pending : List (Nat × Nat)) : ∀ emitted : Nat,
    Eff.Emits (Call.sent (π := π)) (Sound limits archive book.entries hash)
      (drain client limits archive book book.links chapterEntry pending emitted)
      ((pending.takeWhile (fun item => item.1 < chapterEntry)).map (Script.resource archive book))
      (fun r s => (r.1 = pending.dropWhile (fun item => item.1 < chapterEntry) ∧
        r.2 + r.1.length = emitted + pending.length ∧ (emitted ≤ u32Max → r.2 ≤ u32Max)) ∧
        Sound limits archive book.entries hash s)
      (Broken limits archive book.entries) := by
  induction pending with
  | nil => exact fun emitted => .pure fun s hs => ⟨⟨rfl, rfl, id⟩, hs⟩
  | cons item rest ih =>
      intro emitted
      obtain ⟨entry, position⟩ := item
      unfold drain
      by_cases h : entry < chapterEntry
      · simp only [h, decide_true, List.takeWhile_cons_of_pos, List.dropWhile_cons_of_pos, if_true]
        refine (emitResource_spec entry position).bind ?_
        intro _
        refine emits_ofExcept (.add32 _ _) ?_
        intro emitted' hadd
        obtain ⟨rfl, hle⟩ := Book.add32_ok hadd
        refine (ih (emitted + 1)).post ?_
        rintro r s ⟨⟨hrest, hcount, hfits⟩, hs⟩
        refine ⟨⟨hrest, ?_, fun _ => hfits hle⟩, hs⟩
        simp only [List.length_cons]
        omega
      · rw [if_neg h, List.takeWhile_cons_of_neg (by simpa using h),
          List.dropWhile_cons_of_neg (by simpa using h)]
        exact .pure fun s hs => ⟨⟨rfl, rfl, id⟩, hs⟩

/-- A chapter's event, with the entry's own bytes. -/
theorem emitChapter_spec (spineIndex : Nat) (chapter : SpineEntry) :
    Eff.Emits (Call.sent (π := π)) (Sound limits archive book.entries hash)
      (emitChapter client limits archive book book.links spineIndex chapter
        (book.item chapter.source) (book.chapterEntry chapter))
      [Script.chapter archive book (chapter, spineIndex)]
      (fun _ => Sound limits archive book.entries hash)
      (Broken limits archive book.entries) := by
  refine (prereadRead_spec _).bind_silent fun bytes => .assuming fun hbytes => ?_
  subst hbytes
  refine emits_item ?_
  intro _
  refine emits_ofExcept (Book.overlayHref_panics _ _) ?_
  intro ofSource hsource
  obtain rfl := Book.overlayHref_ok hsource
  unfold Script.chapter Script.chapterMessage
  -- the source's own overlay, else that of the spine item it stands in for
  split <;> rename_i hempty
  · refine emits_ofExcept (Book.overlayHref_panics _ _) ?_
    intro ofPrimary hprimary
    obtain rfl := Book.overlayHref_ok hprimary
    simp only [hempty, if_true]
    exact (emit_spec (by simp) _).bind fun _ => emits_modify fun _ => ⟨rfl, rfl, rfl, rfl, rfl⟩
  · simp only [hempty, if_false]
    exact (emit_spec (by simp) _).bind fun _ => emits_modify fun _ => ⟨rfl, rfl, rfl, rfl, rfl⟩

/-- By induction on the spine.  What a chapter leaves pending is what the next one starts with. -/
theorem walkSpine_spec (spine : List (SpineEntry × Nat)) :
    ∀ (pending : List (Nat × Nat)) (emitted chapters : Nat),
    Eff.Emits (Call.sent (π := π)) (Sound limits archive book.entries hash)
      (walkSpine client limits archive book book.links spine pending emitted chapters)
      ((upToLast Prod.fst (fun visit => book.chapterEntry visit.1) spine pending).map
        (Sum.elim (Script.resource archive book) (Script.chapter archive book)))
      (fun r s => (r.1 = leftOver Prod.fst (fun visit => book.chapterEntry visit.1) spine pending ∧
        r.2.1 + r.1.length = emitted + pending.length ∧ r.2.2 = chapters + spine.length ∧
        (emitted ≤ u32Max → r.2.1 ≤ u32Max) ∧ (chapters ≤ u32Max → r.2.2 ≤ u32Max)) ∧
        Sound limits archive book.entries hash s)
      (Broken limits archive book.entries) := by
  induction spine with
  | nil => exact fun pending emitted chapters => .pure fun s hs => ⟨⟨rfl, rfl, rfl, id, id⟩, hs⟩
  | cons turn rest ih =>
      intro pending emitted chapters
      obtain ⟨chapter, spineIndex⟩ := turn
      unfold walkSpine
      refine emits_item ?_
      intro _
      refine emits_ofExcept (.expect _) ?_
      intro entry hentry
      obtain rfl : book.chapterEntry chapter = entry := by
        rw [Book.chapterEntry, expect_ok hentry, Option.getD_some]
      -- the resources in front of the chapter, the chapter, and the rest of the walk
      have hevents : (upToLast Prod.fst (fun visit => book.chapterEntry visit.1)
            ((chapter, spineIndex) :: rest) pending).map
          (Sum.elim (Script.resource archive book) (Script.chapter archive book)) =
          (pending.takeWhile (fun item => item.1 < book.chapterEntry chapter)).map
              (Script.resource (δ := π.Document) archive book) ++
            ([Script.chapter archive book (chapter, spineIndex)] ++
              (upToLast Prod.fst (fun visit => book.chapterEntry visit.1) rest
                (pending.dropWhile (fun item => item.1 < book.chapterEntry chapter))).map
              (Sum.elim (Script.resource archive book) (Script.chapter archive book))) := by
        simp [upToLast]
      rw [hevents]
      refine (drain_spec (book.chapterEntry chapter) pending emitted).bind
        fun drained => .assuming fun hdrained => ?_
      obtain ⟨pending', emitted'⟩ := drained
      obtain ⟨rfl, hcount, hfits⟩ := hdrained
      refine (emitChapter_spec spineIndex chapter).bind ?_
      intro _
      refine emits_ofExcept (.add32 _ _) ?_
      intro chapters' hadd
      obtain ⟨rfl, hle⟩ := Book.add32_ok hadd
      refine (ih _ emitted' (chapters + 1)).post ?_
      rintro r s ⟨⟨hrest, hsum, hchapters, hemitted, hle'⟩, hs⟩
      refine ⟨⟨hrest, ?_, ?_, fun h => hemitted (hfits h), fun _ => hle' hle⟩, hs⟩
      · exact hsum.trans hcount
      · simp only [List.length_cons]
        omega

/-- The resources behind the last chapter. -/
theorem drainRest_spec (pending : List (Nat × Nat)) : ∀ emitted : Nat,
    Eff.Emits (Call.sent (π := π)) (Sound limits archive book.entries hash)
      (drainRest client limits archive book book.links pending emitted)
      (pending.map (Script.resource archive book))
      (fun total s => (total = emitted + pending.length ∧ (emitted ≤ u32Max → total ≤ u32Max)) ∧
        Sound limits archive book.entries hash s)
      (Broken limits archive book.entries) := by
  induction pending with
  | nil => exact fun emitted => .pure fun s hs => ⟨⟨rfl, id⟩, hs⟩
  | cons item rest ih =>
      intro emitted
      obtain ⟨entry, position⟩ := item
      refine (emitResource_spec entry position).bind ?_
      intro _
      refine emits_ofExcept (.add32 _ _) ?_
      intro emitted' hadd
      obtain ⟨rfl, hle⟩ := Book.add32_ok hadd
      refine (ih (emitted + 1)).post ?_
      rintro total s ⟨⟨htotal, hfits⟩, hs⟩
      refine ⟨⟨?_, fun _ => hfits hle⟩, hs⟩
      simp only [List.length_cons]
      omega

theorem assertPrereadEmpty_spec :
    Eff.Emits (Call.sent (π := π)) (Sound limits archive entries hash) assertPrereadEmpty []
      (fun _ => Sound limits archive entries hash) (Broken limits archive entries) := by
  refine .get_bind ?_
  intro s₀ hs₀
  split
  · exact .pure fun s hs => hs ▸ hs₀
  · exact .throw fun s hs => hs ▸ hs₀.panicked _

/-- The whole walk. -/
theorem walk_spec (spine : List SpineEntry) (pending : List (Nat × Nat)) :
    Eff.Emits (Call.sent (π := π)) (Sound limits archive book.entries hash)
      (walk client limits archive book book.links spine pending)
      (Script.walk archive book spine.zipIdx pending)
      (fun r s => (r = (spine.length, pending.length) ∧ spine.length ≤ u32Max ∧
        pending.length ≤ u32Max) ∧ Sound limits archive book.entries hash s)
      (Broken limits archive book.entries) := by
  unfold Script.walk
  rw [interleave_eq, List.map_append, List.map_map]
  refine (walkSpine_spec spine.zipIdx pending 0 0).bind fun r => .assuming fun hr => ?_
  obtain ⟨pending', emitted, chapters⟩ := r
  obtain ⟨rfl, hsum, hchapters, hemitted, hfits⟩ := hr
  simp only [List.length_zipIdx, Nat.zero_add] at hsum hchapters
  rw [← List.append_nil (List.map _ (leftOver ..))]
  refine Eff.Emits.bind (drainRest_spec _ emitted) fun total => .assuming fun htotal =>
    assertPrereadEmpty_spec.bind_silent fun _ => .pure fun s hs => ⟨?_, hs⟩
  obtain ⟨rfl, htotal⟩ := htotal
  rw [hchapters] at hfits
  have hfits := hfits (Nat.zero_le _)
  have htotal := htotal (hemitted (Nat.zero_le _))
  rw [hsum, hchapters]
  exact ⟨rfl, by simpa [hchapters] using hfits, by omega⟩

end Parse

end GrpcEpub
