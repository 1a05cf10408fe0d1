/-
# `GrpcEpub.Completion` — exactly when a call completes

With a client that stays, a call that has a book fails at `read_entry` or
nowhere: it inflates the entries of its schedule one after another, and
completes when the budget and the archive let it read them all.  `parse_follows`
says so of the driver and `run_complete_iff` of whole calls, against any client.

`Inflates … x positions Q` is the statement about one step: run with a staying client, it leaves
the budget that reading the entries at `positions` leaves, and fails exactly when one of those
reads fails.  `Holding` follows the preread cache through it, by the set of the entries whose
bytes are kept; an entry that is held costs nothing when it is next asked for.
-/
import GrpcEpub.Schedule
import GrpcEpub.Clients
import GrpcEpub.Lib.Follows

namespace GrpcEpub

open Cache

namespace Archive

/-- What reading the entry at a position makes of a budget. -/
def spend (archive : MemoryArchive) (limits : Effective) (entries : List EntryInfo)
    (budget : Budget) (k : Nat) : Except Abort Budget :=
  match (readEntry archive (entries.getD k default) limits).exec budget with
  | (.ok _, budget) => .ok budget
  | (.error e, _) => .error e

/-- Reading entries one after another on one budget. -/
def spendAll (archive : MemoryArchive) (limits : Effective) (entries : List EntryInfo)
    (budget : Budget) (positions : List Nat) : Except Abort Budget :=
  positions.foldlM (spend archive limits entries) budget

end Archive

namespace Parse

variable {π : Projection} {crates : Crates} {limits : Effective} {archive : MemoryArchive}
  {entries : List EntryInfo} {book : Book}

/-- The call holds the bytes of these entries, and of no others. -/
def Holding (held : Finset Nat) (s : Call π) : Prop :=
  ∀ k, (s.preread.get k).isSome = true ↔ k ∈ held

/-- What is taken from the cache is not held any longer. -/
theorem Holding.erase {held : Finset Nat} {s : Call π} (hs : Holding held s) (k : Nat) :
    Holding (held.erase k) { s with preread := s.preread.erase k } := by
  intro k'
  rw [HashMap.get_erase, Finset.mem_erase]
  split
  · rename_i heq
    simp [heq]
  · rename_i hne
    simpa [hne] using hs k'

theorem Holding.insert {held : Finset Nat} {s : Call π} {k : Nat} (hs : Holding (held.erase k) s)
    (bytes : Bytes) :
    Holding (Insert.insert k held) { s with preread := s.preread.insert k bytes } := by
  intro k'
  rw [HashMap.get_insert, Finset.mem_insert]
  split
  · rename_i heq
    simp [heq]
  · rename_i hne
    simpa [hne] using hs k'

/-- The driver inflates the entries at these positions, and fails nowhere else. -/
abbrev Inflates {α : Type} (limits : Effective) (archive : MemoryArchive)
    (entries : List EntryInfo) (P : Call π → Prop) (x : Step π α) (positions : List Nat)
    (Q : α → Call π → Prop) : Prop :=
  Eff.Follows Call.budget (Archive.spend archive limits entries) P x positions Q

/-! ## Reading

An entry that is read directly is one position; one that is asked for through the cache is a
position unless it is held. -/

theorem readEntry_inflates {k : Nat} (held : Finset Nat) :
    Inflates (π := π) limits archive entries (Holding held)
      (readEntry limits archive (entries.getD k default)) [k]
      (fun bytes s => bytes = archive.inflated (entries.getD k default) ∧ Holding held s) := by
  intro s hs
  have hstep : [k].foldlM (Archive.spend archive limits entries) s.budget =
      Archive.spend archive limits entries s.budget k := by
    rw [List.foldlM_cons]
    exact bind_pure _
  rw [hstep]
  unfold readEntry Archive.spend
  rw [Eff.exec_bind_ok (Eff.exec_get s)]
  rcases Archive.readEntry_cases archive (entries.getD k default) limits s.budget with
    ⟨-, h⟩ | ⟨status, h⟩ | ⟨-, -, h⟩ | ⟨-, -, h⟩
  · rw [h]
    exact ⟨rfl, rfl, hs⟩
  all_goals rw [h]; rfl

theorem readAt_inflates {k : Nat} (held : Finset Nat) :
    Inflates (π := π) limits archive entries (Holding held)
      (readAt limits archive (entries.getD k default)) [k]
      (fun bytes s => bytes = archive.inflated (entries.getD k default) ∧ Holding held s) := by
  rw [← List.append_nil [k]]
  refine (readEntry_inflates held).bind ?_
  intro bytes
  refine Eff.Follows.bind_silent (Q := fun _ s => bytes = _ ∧ Holding held s)
    (.modify fun s hs => ⟨rfl, hs⟩) fun _ => .pure fun s hs => hs

/-- An index expression on a position that is in range. -/
theorem inflates_nth {α β : Type} [Inhabited α] {xs : List α} {i : Nat} {f : α → Step π β}
    {P : Call π → Prop} {positions : List Nat} {R : β → Call π → Prop} (hi : i < xs.length)
    (h : Inflates limits archive entries P (f (xs.getD i default)) positions R) :
    Inflates limits archive entries P (Eff.ofExcept (nth xs i) >>= f) positions R := by
  refine .ofExcept_bind ?_ h
  simp [nth, List.getD_eq_getElem?_getD, List.getElem?_eq_getElem hi]

theorem takePreread_inflates (held : Finset Nat) (k : Nat) :
    Inflates (π := π) limits archive entries (Holding held) (takePreread k) []
      (fun kept s => (kept.isSome = true ↔ k ∈ held) ∧ Holding (held.erase k) s) := by
  refine .get_bind ?_
  intro s₀ hs₀
  refine Eff.Follows.bind_silent (Q := fun _ => Holding (held.erase k)) (.set fun s hs => ?_)
    fun _ => .pure fun s hs => ⟨hs₀ k, hs⟩
  subst hs
  exact ⟨rfl, hs₀.erase k⟩

/-- Bytes that are held are not inflated again. -/
theorem prereadRead_inflates {k : Nat} (held : Finset Nat) (hk : k < entries.length) :
    Inflates (π := π) limits archive entries (Holding held)
      (prereadRead limits archive entries k) (if k ∈ held then [] else [k])
      (fun _ => Holding (held.erase k)) := by
  refine (takePreread_inflates held k).bind_silent fun kept => .assuming fun hkept => ?_
  cases kept with
  | some bytes =>
      rw [if_pos (hkept.mp rfl)]
      exact .pure fun s hs => hs
  | none =>
      rw [if_neg fun hmem => nomatch hkept.mpr hmem]
      exact inflates_nth hk ((readAt_inflates _).post fun bytes s hs => hs.2)

/-- Whether bytes are put back is what the use of their entry says. -/
theorem keep_inflates {α : Type} {k : Nat} {held : Finset Nat} {bytes : Bytes} {again : Bool}
    {c : Prop} [Decidable c] {x : Step π α} {positions : List Nat} {Q : α → Call π → Prop}
    (hagain : again = true ↔ c)
    (hx : Inflates limits archive entries (Holding (Use.after held ⟨k, again⟩)) x positions Q) :
    Inflates limits archive entries (Holding (held.erase k))
      (if c then keep k bytes >>= fun _ => x else x) positions Q := by
  unfold Use.after at hx
  split
  · rename_i hc
    rw [if_pos (hagain.mpr hc)] at hx
    exact Eff.Follows.bind_silent (.modify fun s hs => ⟨rfl, hs.insert bytes⟩) fun _ => hx
  · rename_i hc
    rwa [if_neg fun h => hc (hagain.mp h)] at hx

/-! ## Sending

A staying client takes every event, and no event is paid for. -/

theorem send_inflates (event : Event π.Document) (entry : Option Nat) (held : Finset Nat) :
    Inflates limits archive entries (Holding held) (send staying event entry) []
      (fun _ => Holding held) :=
  fun _ hs => ⟨rfl, hs⟩

theorem emit_inflates (event : Event π.Document) (entry : Option Nat) (held : Finset Nat) :
    Inflates limits archive entries (Holding held) (emit staying event entry) []
      (fun _ => Holding held) := by
  refine .get_bind ?_
  intro s₀ hs₀
  cases s₀.fold with
  | none => exact (send_inflates event entry held).pre fun s hs => hs ▸ hs₀
  | some fold =>
      have hset : ∀ fold, Inflates (π := π) limits archive entries (· = s₀)
          (set { s₀ with fold := some fold }) [] (fun _ => Holding held) := fun fold =>
        .set fun s hs => ⟨by rw [hs], hs₀⟩
      dsimp only
      split
      · refine (hset _).bind_silent ?_
        intro _
        exact (send_inflates _ none held).bind_silent fun _ => send_inflates _ entry held
      · exact (hset _).bind_silent fun _ => send_inflates _ entry held

theorem warn_inflates (code : ParseWarningCode) (href : Str) (message : WarningText)
    (held : Finset Nat) :
    Inflates (π := π) limits archive entries (Holding held) (warn code href message) []
      (fun _ => Holding held) :=
  .modify fun _ hs => ⟨rfl, hs⟩

/-! ## Ahead of the chapters

The navigation document and the overlays.  Each is read once, and kept when the walk will send
the same entry later; `keepOverlay` cannot fail, since `lastUse` has an answer for each pair. -/

/-- At most one entry, kept if the walk will ask for it. -/
theorem navigationPass_inflates {source : Option Book.NavigationSource}
    (hsource : ∀ s ∈ source, s.Found book) (willEmit : List Nat) (held : Finset Nat) :
    Inflates (π := π) limits archive book.entries (Holding held)
      (navigationPass crates staying limits archive book willEmit source)
      (fetched held (Book.navigationUses limits source willEmit))
      (fun _ => Holding (left held (Book.navigationUses limits source willEmit))) := by
  unfold navigationPass Book.navigationUses
  cases limits.parseNavigation with
  | false => exact .pure fun s hs => hs
  | true =>
      cases source with
      | none => exact .pure fun s hs => hs
      | some source =>
          have hfound := hsource source rfl
          refine inflates_nth hfound.inRange ?_
          rw [fetched_cons]
          refine (prereadRead_inflates held (Book.entry_lt hfound.entry)).bind ?_
          intro bytes
          exact keep_inflates decide_eq_true_iff (.ite (warn_inflates _ _ _ _) (emit_inflates _ _ _))

/-- Whether an overlay's bytes are put back, as the map of last uses has it. -/
theorem keepOverlay_total {willEmit : List Nat} {lastUse : HashMap Nat Nat} {entry round : Nat}
    {pairs : List (Nat × Nat)}
    (hlast : entry ∈ pairs.filterMap book.overlayEntry →
      ∃ last, lastUse.get entry = some last ∧ round + 1 ≤ last)
    (hother : entry ∉ pairs.filterMap book.overlayEntry → lastUse.get entry = some round) :
    keepOverlay willEmit lastUse entry round =
      .ok (decide (entry ∈ willEmit ∨ entry ∈ pairs.filterMap book.overlayEntry)) := by
  unfold keepOverlay
  by_cases hsent : entry ∈ willEmit
  · simp [hsent]
  · by_cases hlater : entry ∈ pairs.filterMap book.overlayEntry
    · obtain ⟨last, hget, hle⟩ := hlast hlater
      simp only [hsent, if_false, hget, false_or, hlater]
      simp only [decide_true, Except.ok.injEq, decide_eq_true_eq]
      omega
    · simp [hsent, hlater, hother hlater]

/-- An entry for each pair, unless it is held.  `round` counts the pairs, and `lastUse` says for
which of them an entry is wanted again. -/
theorem overlayLoop_inflates (willEmit : List Nat) : ∀ {pairs : List (Nat × Nat)} {round : Nat}
    {uses lastUse : HashMap Nat Nat} (held : Finset Nat),
    (∀ pair ∈ pairs, pair.1 < book.resolved.length ∧ pair.2 < book.resolved.length) →
    book.lastUseFrom (pairs.zipIdx round) uses = .ok lastUse →
    Inflates (π := π) limits archive book.entries (Holding held)
      (overlayLoop crates staying limits archive book willEmit lastUse (pairs.zipIdx round))
      (fetched held (book.overlayUses willEmit pairs))
      (fun _ => Holding (left held (book.overlayUses willEmit pairs)))
  | [], _, _, _, held, _, _ => .pure fun s hs => hs
  | pair :: rest, round, uses, lastUse, held, hrange, huses => by
      have hpair := hrange pair List.mem_cons_self
      have hrest := fun p hp => hrange p (List.mem_cons_of_mem _ hp)
      obtain ⟨position, overlay⟩ := pair
      rw [List.zipIdx_cons, Book.lastUseFrom, Book.nth_item hpair.2] at huses
      simp only [bind, Except.bind] at huses
      rw [List.zipIdx_cons, overlayLoop, overlayTurn, Book.overlayUses]
      cases hentry : (book.item overlay).entry with
      -- an overlay that is not in the archive is skipped
      | none =>
          rw [hentry] at huses
          rw [show book.overlayEntry (position, overlay) = none from hentry]
          refine Eff.Follows.bind_silent (Q := fun _ => Holding held) ?_
            fun _ => overlayLoop_inflates willEmit held hrest huses
          refine inflates_nth hpair.2 ?_
          rw [show (book.resolved.getD overlay default).entry = none from hentry]
          exact .pure fun s hs => hs
      | some entry =>
          rw [hentry] at huses
          rw [show book.overlayEntry (position, overlay) = some entry from hentry]
          dsimp only at huses ⊢
          rw [fetched_cons, left_cons]
          refine Eff.Follows.bind ?_ fun _ => overlayLoop_inflates willEmit _ hrest huses
          refine inflates_nth hpair.2 ?_
          rw [show (book.resolved.getD overlay default).entry = some entry from hentry]
          dsimp only
          rw [← List.append_nil (if entry ∈ held then [] else [entry])]
          refine (prereadRead_inflates held (Book.entry_lt hentry)).bind ?_
          intro bytes
          -- the rest of the pairs has been counted already, so `lastUse` knows this one
          obtain ⟨found, hfound, hlast, hother⟩ := Book.lastUseFrom_total entry (round + 1)
            (uses.insert entry round) fun p hp => (hrest p hp).2
          obtain rfl := Except.ok.inj (hfound.symm.trans huses)
          refine .ofExcept_bind (keepOverlay_total hlast fun hmem => ?_) ?_
          · rw [hother hmem, HashMap.get_insert, if_pos rfl]
          have hsent : ∀ parsed : Overlay, ∀ path : Str, ∀ held : Finset Nat,
              Inflates (π := π) limits archive book.entries (Holding held)
                (if parsed.cues.isEmpty then warn .metadata path .noCues
                  else do
                    let narrated ← Eff.ofExcept (nth book.resolved position)
                    emit staying (.mediaOverlay ⟨parsed.sourceHref, narrated.path, parsed.cues⟩)
                      none) [] (fun _ => Holding held) := fun parsed path held =>
            .ite (warn_inflates _ _ _ _) (inflates_nth hpair.1 (emit_inflates _ _ _))
          exact keep_inflates Iff.rfl (hsent _ _ _)

/-- The pass is its loop, or nothing where overlays are not asked for. -/
theorem overlayPass_inflates (willEmit : List Nat) (held : Finset Nat) :
    Inflates (π := π) limits archive book.entries (Holding held)
      (overlayPass crates staying limits archive book willEmit book.links)
      (fetched held (if limits.parseMediaOverlays then book.overlayUses willEmit book.links
        else []))
      (fun _ => Holding (left held
        (if limits.parseMediaOverlays then book.overlayUses willEmit book.links else []))) := by
  unfold overlayPass
  cases limits.parseMediaOverlays with
  | false => exact .pure fun s hs => hs
  | true =>
      have hrange : ∀ pair ∈ book.links, pair.2 < book.resolved.length :=
        fun pair hpair => (Book.overlay_lt hpair).2
      obtain ⟨lastUse, huses, -⟩ := Book.lastUseFrom_total 0 0 ∅ hrange
      refine .ofExcept_bind huses ?_
      exact overlayLoop_inflates willEmit held (fun pair hpair => Book.overlay_lt hpair) huses

/-! ## The walk

What remains is read when it is sent.  The counters are the one thing here that could overflow:
`Sendable` says that they have room for what is pending, and every turn hands it on. -/

/-- An event of the walk: its bytes are asked for, and not kept. -/
theorem fetched_sentUse (held : Finset Nat) (k : Nat) :
    fetched held [Book.sentUse k] = if k ∈ held then [] else [k] := by
  rw [fetched_cons, fetched, List.append_nil]
  rfl

/-- A resource is taken from the cache, or inflated. -/
theorem emitResource_inflates {entry position : Nat} (hrange : position < book.resolved.length)
    (hentry : entry < book.entries.length) (held : Finset Nat) :
    Inflates (π := π) limits archive book.entries (Holding held)
      (emitResource staying limits archive book book.links entry position)
      (fetched held [Book.sentUse entry])
      (fun _ => Holding (left held [Book.sentUse entry])) := by
  unfold emitResource
  refine inflates_nth hrange ?_
  refine .ofExcept_bind (Book.overlayHref_total position) ?_
  rw [fetched_sentUse, ← List.append_nil (if entry ∈ held then _ else _)]
  refine (prereadRead_inflates held hentry).bind ?_
  intro content
  exact (emit_inflates _ _ _).bind_silent fun _ => .modify fun s hs => ⟨rfl, hs⟩

/-- Resources that are in the archive, and whose count fits. -/
structure Sendable (book : Book) (pending : List (Nat × Nat)) (emitted : Nat) : Prop where
  inRange : ∀ item ∈ pending, item.2 < book.resolved.length ∧ item.1 < book.entries.length
  fits : emitted + pending.length ≤ u32Max

theorem Sendable.tail {item : Nat × Nat} {rest : List (Nat × Nat)} {emitted : Nat}
    (h : Sendable book (item :: rest) emitted) : Sendable book rest (emitted + 1) where
  inRange := fun i hi => h.inRange i (List.mem_cons_of_mem _ hi)
  fits := by
    have := h.fits
    rw [List.length_cons] at this
    omega

theorem add32_total {a : Nat} (h : a + 1 ≤ u32Max) : Book.add32 a 1 = .ok (a + 1) :=
  if_pos h

/-- What the resources in front of a chapter ask for. -/
def resourceUses (pending : List (Nat × Nat)) : List (Use Nat) :=
  pending.map fun item => Book.sentUse item.1

/-- The resources in front of a chapter are the ones of smaller position. -/
theorem drain_inflates (chapterEntry : Nat) : ∀ {pending : List (Nat × Nat)} {emitted : Nat}
    (held : Finset Nat), Sendable book pending emitted →
    Inflates (π := π) limits archive book.entries (Holding held)
      (drain staying limits archive book book.links chapterEntry pending emitted)
      (fetched held (resourceUses (pending.takeWhile (·.1 < chapterEntry))))
      (fun r s => (r.1 = pending.dropWhile (·.1 < chapterEntry) ∧
        r.2 + r.1.length = emitted + pending.length) ∧
        Holding (left held (resourceUses (pending.takeWhile (·.1 < chapterEntry)))) s)
  | [], emitted, held, _ => .pure fun s hs => ⟨⟨rfl, rfl⟩, hs⟩
  | (entry, position) :: rest, emitted, held, h => by
      unfold drain
      by_cases hlt : entry < chapterEntry
      · rw [if_pos hlt, List.takeWhile_cons_of_pos (by simpa using hlt),
          List.dropWhile_cons_of_pos (by simpa using hlt)]
        have hhead := h.inRange _ List.mem_cons_self
        have huses : resourceUses ((entry, position) :: rest.takeWhile (·.1 < chapterEntry)) =
            [Book.sentUse entry] ++ resourceUses (rest.takeWhile (·.1 < chapterEntry)) := rfl
        rw [huses, fetched_append, left_append]
        refine (emitResource_inflates hhead.1 hhead.2 held).bind ?_
        intro _
        have hfits := h.fits
        rw [List.length_cons] at hfits
        refine .ofExcept_bind (add32_total (by omega)) ?_
        refine (drain_inflates chapterEntry _ h.tail).post ?_
        intro r s hr
        obtain ⟨⟨hrest, hcount⟩, hs⟩ := hr
        exact ⟨⟨hrest, by rw [hcount, List.length_cons]; omega⟩, hs⟩
      · rw [if_neg hlt, List.takeWhile_cons_of_neg (by simpa using hlt),
          List.dropWhile_cons_of_neg (by simpa using hlt)]
        exact .pure fun s hs => ⟨⟨rfl, rfl⟩, hs⟩

/-- A chapter is read from the cache, or inflated. -/
theorem emitChapter_inflates {spineIndex : Nat} {chapter : SpineEntry} {target : Resolved}
    (hfound : book.ChapterFound chapter) (held : Finset Nat) :
    Inflates (π := π) limits archive book.entries (Holding held)
      (emitChapter staying limits archive book book.links spineIndex chapter target
        (book.chapterEntry chapter))
      (fetched held [Book.sentUse (book.chapterEntry chapter)])
      (fun _ => Holding (left held [Book.sentUse (book.chapterEntry chapter)])) := by
  unfold emitChapter
  rw [fetched_sentUse, ← List.append_nil (if book.chapterEntry chapter ∈ held then _ else _)]
  refine (prereadRead_inflates held (Book.entry_lt hfound.entry)).bind ?_
  intro content
  refine inflates_nth (Book.byId_lt hfound.primary) ?_
  refine .ofExcept_bind (Book.overlayHref_total _) ?_
  split
  · refine .ofExcept_bind (Book.overlayHref_total _) ?_
    exact (emit_inflates _ _ _).bind_silent fun _ => .modify fun s hs => ⟨rfl, hs⟩
  · exact (emit_inflates _ _ _).bind_silent fun _ => .modify fun s hs => ⟨rfl, hs⟩

/-- The uses of the walk up to its last chapter. -/
def spineUses (book : Book) (spine : List (SpineEntry × Nat)) (pending : List (Nat × Nat)) :
    List (Use Nat) :=
  (upToLast Prod.fst (fun visit => book.chapterEntry visit.1) spine pending).map
    (Sum.elim (fun item => Book.sentUse item.1) fun visit => Book.sentUse (book.chapterEntry visit.1))

/-- The induction is on the spine.  In front of each chapter the pending resources are drained, and
the counters have room for both. -/
theorem walkSpine_inflates : ∀ {spine : List (SpineEntry × Nat)} {pending : List (Nat × Nat)}
    {emitted chapters : Nat} (held : Finset Nat),
    (∀ visit ∈ spine, book.ChapterFound visit.1) → Sendable book pending emitted →
    chapters + spine.length ≤ u32Max →
    Inflates (π := π) limits archive book.entries (Holding held)
      (walkSpine staying limits archive book book.links spine pending emitted chapters)
      (fetched held (spineUses book spine pending))
      (fun r s => (r.1 = leftOver Prod.fst (fun visit => book.chapterEntry visit.1) spine pending ∧
        r.2.1 + r.1.length = emitted + pending.length ∧ r.2.2 = chapters + spine.length) ∧
        Holding (left held (spineUses book spine pending)) s)
  | [], pending, emitted, chapters, held, _, _, _ => .pure fun s hs => ⟨⟨rfl, rfl, rfl⟩, hs⟩
  | (chapter, spineIndex) :: rest, pending, emitted, chapters, held, hfound, hsend, hfits => by
      have hchapter := hfound _ List.mem_cons_self
      have huses : spineUses book ((chapter, spineIndex) :: rest) pending =
          resourceUses (pending.takeWhile (·.1 < book.chapterEntry chapter)) ++
            ([Book.sentUse (book.chapterEntry chapter)] ++
              spineUses book rest (pending.dropWhile (·.1 < book.chapterEntry chapter))) := by
        simp [spineUses, resourceUses, upToLast]
      rw [List.length_cons] at hfits
      unfold walkSpine
      refine inflates_nth hchapter.inRange ?_
      refine .ofExcept_bind (a := book.chapterEntry chapter) ?_ ?_
      · rw [show (book.resolved.getD chapter.source default).entry = _ from hchapter.entry]
        rfl
      rw [huses, fetched_append, left_append]
      refine (drain_inflates _ held hsend).bind fun drained => .assuming fun hdrained => ?_
      obtain ⟨pending', emitted'⟩ := drained
      obtain ⟨rfl, hcount⟩ := hdrained
      rw [fetched_append, left_append]
      refine (emitChapter_inflates hchapter _).bind ?_
      intro _
      refine .ofExcept_bind (add32_total (by omega)) ?_
      have hsend' : Sendable book
          (pending.dropWhile fun item => item.1 < book.chapterEntry chapter) emitted' :=
        ⟨fun item hitem => hsend.inRange item ((List.dropWhile_sublist _).subset hitem),
          by have := hsend.fits; dsimp only at hcount; omega⟩
      refine (walkSpine_inflates _ (fun visit hat => hfound visit (List.mem_cons_of_mem _ hat)) hsend'
        (by omega)).post fun r s hr => ?_
      obtain ⟨⟨hrest, hsum, hchapters⟩, hs⟩ := hr
      refine ⟨⟨hrest, hsum.trans hcount, ?_⟩, hs⟩
      rw [hchapters, List.length_cons]
      omega

/-- What is pending behind the last chapter. -/
theorem drainRest_inflates : ∀ {pending : List (Nat × Nat)} {emitted : Nat} (held : Finset Nat),
    Sendable book pending emitted →
    Inflates (π := π) limits archive book.entries (Holding held)
      (drainRest staying limits archive book book.links pending emitted)
      (fetched held (resourceUses pending))
      (fun total s => total = emitted + pending.length ∧
        Holding (left held (resourceUses pending)) s)
  | [], _, held, _ => .pure fun s hs => ⟨rfl, hs⟩
  | (entry, position) :: rest, emitted, held, h => by
      have hhead := h.inRange _ List.mem_cons_self
      have huses : resourceUses ((entry, position) :: rest) =
          [Book.sentUse entry] ++ resourceUses rest := rfl
      have hfits := h.fits
      rw [List.length_cons] at hfits
      rw [huses, fetched_append, left_append]
      refine (emitResource_inflates hhead.1 hhead.2 held).bind ?_
      intro _
      refine .ofExcept_bind (add32_total (by omega)) ?_
      refine (drainRest_inflates _ h.tail).post fun total s hr => ⟨?_, hr.2⟩
      rw [hr.1, List.length_cons]
      omega

/-- What is held is what is asserted away. -/
theorem assertPrereadEmpty_inflates :
    Inflates (π := π) limits archive entries (Holding ∅) assertPrereadEmpty []
      (fun _ => Holding ∅) := by
  refine .get_bind ?_
  intro s₀ hs₀
  have hempty : s₀.preread.entries = [] := by
    refine List.eq_nil_iff_forall_not_mem.mpr ?_
    intro entry hentry
    have hsome : (s₀.preread.get entry.1).isSome = true :=
      AList.lookup_isSome.mpr (List.mem_map.mpr ⟨entry, hentry, rfl⟩)
    exact absurd ((hs₀ entry.1).mp hsome) (Finset.notMem_empty _)
  rw [if_pos hempty]
  exact .pure fun s hs => hs ▸ hs₀

/-- The walk inflates its uses in order, and holds nothing in the end. -/
theorem walk_inflates {spine : List SpineEntry} {pending : List (Nat × Nat)} (held : Finset Nat)
    (hfound : ∀ chapter ∈ spine, book.ChapterFound chapter) (hsend : Sendable book pending 0)
    (hfits : spine.length ≤ u32Max)
    (hleft : left held (book.walkUses spine.zipIdx pending) = ∅) :
    Inflates (π := π) limits archive book.entries (Holding held)
      (walk staying limits archive book book.links spine pending)
      (fetched held (book.walkUses spine.zipIdx pending))
      (fun r s => r = (spine.length, pending.length) ∧ Holding ∅ s) := by
  have huses : book.walkUses spine.zipIdx pending = spineUses book spine.zipIdx pending ++
      resourceUses (leftOver Prod.fst (fun visit => book.chapterEntry visit.1) spine.zipIdx
        pending) := by
    unfold Book.walkUses spineUses resourceUses
    rw [interleave_eq, List.map_append, List.map_map]
    rfl
  rw [huses, left_append] at hleft
  rw [huses, fetched_append]
  unfold walk
  refine (walkSpine_inflates held (fun visit hat => ?_) hsend (by simpa using hfits)).bind
    fun r => .assuming fun hr => ?_
  · exact hfound visit.1 (List.mem_of_getElem? (List.mem_zipIdx_iff_getElem?.mp hat))
  obtain ⟨pending', emitted, chapters⟩ := r
  obtain ⟨rfl, hsum, hchapters⟩ := hr
  simp only [List.length_zipIdx, Nat.zero_add] at hsum hchapters
  have hrest : Sendable book
      (leftOver Prod.fst (fun visit => book.chapterEntry visit.1) spine.zipIdx pending) emitted :=
    ⟨fun item hitem => hsend.inRange item ((leftOver_sublist _ _ _ _).subset hitem),
      by have := hsend.fits; omega⟩
  rw [← List.append_nil (fetched (left held _) _)]
  refine Eff.Follows.bind (drainRest_inflates _ hrest) fun total => .assuming fun htotal => ?_
  rw [hleft]
  refine (assertPrereadEmpty_inflates).bind_silent fun _ => .pure fun s hs => ⟨?_, hs⟩
  rw [htotal, hchapters, hsum]

/-! ## The whole parse

Behind the walk nothing is held, so the assertion there passes. -/

theorem sendable_resources {spine : List SpineEntry} (h : book.Counts limits spine) :
    Sendable book (book.resources limits spine) 0 where
  inRange := fun item hitem => by
    have hqualifies := Book.mem_pendingItems.mp (Book.mem_archiveOrder.mp hitem).1
    exact ⟨hqualifies.inRange, Book.entry_lt hqualifies.present⟩
  fits := by
    rw [Nat.zero_add]
    exact h.resources

/-- Delivering a book whose counts fit inflates its schedule. -/
theorem deliver_inflates {spine : List SpineEntry}
    (hfound : ∀ chapter ∈ spine, book.ChapterFound chapter) (hcounts : book.Counts limits spine) :
    Inflates (π := π) limits archive book.entries (Holding ∅)
      (deliver crates staying limits archive book spine) (book.fetches limits spine)
      (fun done s => done = { skipped := book.skipped limits spine, chapters := spine.length
                              emitted := (book.resources limits spine).length } ∧
        Holding ∅ s) := by
  obtain ⟨source, hsource, hnavigation⟩ := Book.navigationSource_ok book
  obtain ⟨info, hinfo, -⟩ := Book.info_ok hnavigation spine
  have hnavigated : book.navigated = source := by rw [Book.navigated, hsource]
  unfold deliver
  refine .ofExcept_bind hsource (.ofExcept_bind hinfo ?_)
  refine (emit_inflates _ _ _).bind_silent ?_
  intro _
  refine .ofExcept_bind (Book.chapterEntries_total hfound) ?_
  refine .get_bind ?_
  intro s₀ hs₀
  -- the plan is made, since the counters suffice
  obtain ⟨plan, hplan, hskipped⟩ := Book.plan_total hcounts.skipped s₀.warnings
  have hpending : Book.archiveOrder plan.pending = book.resources limits spine := by
    rw [Book.plan_ok hplan]
    rfl
  refine .ofExcept_bind hplan ?_
  refine Eff.Follows.bind_silent (Q := fun _ => Holding ∅)
    (.set fun s hs => ⟨by rw [hs], hs₀⟩) fun _ => ?_
  rw [hpending]
  change Inflates limits archive book.entries (Holding ∅)
    (navigationPass crates staying limits archive book (book.willEmit limits spine) source >>= _)
    _ _
  unfold Book.fetches Book.uses Book.aheadUses
  rw [hnavigated, List.append_assoc, fetched_append]
  refine (navigationPass_inflates hnavigation _ ∅).bind ?_
  intro _
  refine .ofExcept_bind Book.overlayLinks_total ?_
  rw [fetched_append]
  refine (overlayPass_inflates _ _).bind ?_
  intro _
  -- all that has been kept is used by the walk
  have hleft : left ∅ (book.uses limits spine) = ∅ := Book.left_uses
  unfold Book.uses Book.aheadUses at hleft
  rw [hnavigated, List.append_assoc, left_append, left_append] at hleft
  rw [← List.append_nil (fetched (left (left ∅ _) _) _)]
  refine (walk_inflates _ hfound (sendable_resources hcounts) hcounts.chapters hleft).bind
    fun r => .assuming fun hr => ?_
  subst hr
  refine .pure fun s hs => ⟨?_, hs⟩
  rw [hskipped]

theorem trailer_inflates (done : Done) :
    Inflates (π := π) limits archive entries (Holding ∅) (trailer staying done) []
      (fun _ => Holding ∅) :=
  .get_bind fun _ hs₀ => (emit_inflates _ _ ∅).pre fun _ hs => hs ▸ hs₀

/-- A count of skipped items that leaves its type ends the call. -/
theorem deliver_stops {spine : List SpineEntry} (hskipped : u32Max < book.skipped limits spine)
    (hfound : ∀ chapter ∈ spine, book.ChapterFound chapter) :
    Eff.Stops (deliver (π := π) crates staying limits archive book spine) := by
  unfold deliver
  refine .bind fun source => .bind fun info => .bind fun _ => ?_
  refine .ofExcept_bind (Book.chapterEntries_total hfound) (.bind fun s₀ => .bind_left ?_)
  obtain ⟨e, he⟩ := Book.plan_overflows hskipped s₀.warnings
  exact .ofExcept he

end Parse

/-! ## The first half of a call

Up to the spine.  The positions read here depend on what was found in the entry read before, so
`prologue` is computed from the archive and not from the book alone. -/

/-- What reading the package document has established. -/
structure Packaged (crates : Crates) (limits : Effective) (bytes : Bytes)
    (archive : MemoryArchive) (book : Book) : Prop where
  opened : Archive.openArchive crates.zipNew bytes limits = .ok archive
  scanned : ∃ scan, Archive.scan archive = .ok scan ∧ scan.entries = book.entries
  policy : match book.index.get encryptionPath with
    | none => book.obfuscated = []
    | some position => Extract.obfuscatedEntries
        (crates.strict (book.content archive position)) book.index = .ok book.obfuscated
  rootfile : ∃ container opf, book.index.get containerPath = some container ∧
    Parse.rootfile crates book.index (book.content archive container) =
      .ok (book.opfPath, opf) ∧
    Parse.package crates book.opfPath (book.content archive opf) = .ok book.package

theorem Prepared.packaged {crates : Crates} {limits : Effective} {bytes : Bytes}
    {archive : MemoryArchive} {book : Book} {spine : List SpineEntry}
    (h : Prepared crates limits bytes archive book spine) :
    Packaged crates limits bytes archive book where
  opened := h.opened
  scanned := h.scanned
  policy := h.policy
  rootfile := h.rootfile

/-- The position of the package document. -/
def Book.opfPosition (crates : Crates) (archive : MemoryArchive) (book : Book) (container : Nat) :
    Option Nat :=
  match Parse.rootfile crates book.index (book.content archive container) with
  | .ok (_, opf) => some opf
  | .error _ => none

/-- The entries inflated ahead of the package document, and the document. -/
def Book.prologue (crates : Crates) (archive : MemoryArchive) (book : Book) : List Nat :=
  (book.index.get encryptionPath).toList ++ (book.index.get mimetypePath).toList ++
    (book.index.get containerPath).toList ++
    ((book.index.get containerPath).bind (book.opfPosition crates archive)).toList

/-- Every entry a call inflates, in order. -/
def Book.schedule (crates : Crates) (limits : Effective) (archive : MemoryArchive) (book : Book)
    (spine : List SpineEntry) : List Nat :=
  book.prologue crates archive ++ book.fetches limits spine

namespace Parse

variable {π : Projection} {crates : Crates} {limits : Effective} {bytes : Bytes}
  {archive : MemoryArchive} {book : Book}

theorem inflates_orFail {α β : Type} {entries : List EntryInfo} {r : Except Status α} {a : α}
    {f : α → Step π β} {P : Call π → Prop} {positions : List Nat} {R : β → Call π → Prop}
    (hr : r = .ok a) (h : Inflates limits archive entries P (f a) positions R) :
    Inflates limits archive entries P (orFail r >>= f) positions R := by
  subst hr
  exact h

theorem inflates_orFail_last {α : Type} {entries : List EntryInfo} {r : Except Status α} {a : α}
    {P : Call π → Prop} {Q : α → Call π → Prop} (hr : r = .ok a) (h : ∀ s, P s → Q a s) :
    Inflates limits archive entries P (orFail r) [] Q := by
  subst hr
  exact .pure h

theorem position_lt {entries : List EntryInfo} {name : Str} {k : Nat}
    (h : (Extract.indexOf entries).get name = some k) : k < entries.length := by
  obtain ⟨entry, hentry, -⟩ := Extract.indexOf_get h
  exact (List.getElem?_eq_some_iff.mp hentry).1

/-- The package document is an entry of the archive. -/
theorem rootfile_lt {container opf : Nat} {opfPath : Str}
    (h : rootfile crates book.index (book.content archive container) = .ok (opfPath, opf)) :
    opf < book.entries.length := by
  unfold rootfile at h
  split at h
  · cases h
  · split at h
    · split at h
      · rename_i hlookup
        obtain ⟨-, rfl⟩ := Prod.mk.inj (Except.ok.inj h)
        exact Book.lookup_lt hlookup
      · cases h
    · cases h

/-- The first half inflates its prologue. -/
theorem readBook_inflates (h : Packaged crates limits bytes archive book) {scan : Scan}
    (hscan : scan.entries = book.entries) :
    Inflates (π := π) limits archive book.entries (Holding ∅) (readBook crates limits archive scan)
      (book.prologue crates archive) (fun b s => b = book ∧ Holding ∅ s) := by
  obtain ⟨container, opf, hcontainer, hroot, hpackage⟩ := h.rootfile
  have hopf : book.opfPosition crates archive container = some opf := by
    rw [Book.opfPosition, hroot]
  unfold readBook Book.prologue
  rw [hscan, List.append_assoc, List.append_assoc, hcontainer, Option.bind_some, hopf]
  refine Eff.Follows.bind_silent (Q := fun _ => Holding ∅) (.modify fun s hs => ⟨rfl, hs⟩)
    fun _ => ?_
  -- the policy: the descriptor is read if there is one
  refine Eff.Follows.bind (Q := fun obfuscated s => obfuscated = book.obfuscated ∧ Holding ∅ s)
    ?_ fun obfuscated => .assuming fun hobfuscated => ?_
  · have hpolicy := h.policy
    unfold encryptionPolicy
    cases hget : (Extract.indexOf book.entries).get encryptionPath with
    | none =>
        rw [show book.index.get encryptionPath = none from hget] at hpolicy ⊢
        exact .pure fun s hs => ⟨hpolicy.symm, hs⟩
    | some position =>
        rw [show book.index.get encryptionPath = some position from hget] at hpolicy ⊢
        refine inflates_nth (position_lt hget) ?_
        rw [Option.toList_some, ← List.append_nil [position]]
        refine (readAt_inflates ∅).bind fun descriptor => .assuming fun hdescriptor => ?_
        subst hdescriptor
        exact inflates_orFail_last hpolicy fun s hs => ⟨rfl, hs⟩
  -- Holding ∅) ?_ fun declared => ?_ => the marker, which may be missing
  refine Eff.Follows.bind (Q := fun _ => Holding ∅) ?_ fun declared => ?_
  · unfold readNamed
    cases hget : (Extract.indexOf book.entries).get mimetypePath with
    | none =>
        rw [show book.index.get mimetypePath = none from hget]
        exact .pure fun s hs => hs
    | some position =>
        rw [show book.index.get mimetypePath = some position from hget]
        refine inflates_nth (position_lt hget) ?_
        rw [Option.toList_some, ← List.append_nil [position]]
        exact (readEntry_inflates ∅).bind fun bytes => .pure fun s hs => hs.2
  refine Eff.Follows.bind_silent (Q := fun position s => position = container ∧ Holding ∅ s)
    ?_ fun position => .assuming fun hposition => ?_
  · unfold findContainer
    rw [show (Extract.indexOf book.entries).get containerPath = some container from hcontainer]
    dsimp only
    split
    · exact (warn_inflates _ _ _ _).bind_silent fun _ => .pure fun s hs => ⟨rfl, hs⟩
    · exact .pure fun s hs => ⟨rfl, hs⟩
  -- from here on each entry is named by the one in front of it
  subst hposition hobfuscated
  refine inflates_nth (position_lt hcontainer) ?_
  refine (readAt_inflates ∅).bind fun containerBytes => .assuming fun hbytes => ?_
  subst hbytes
  refine inflates_orFail hroot ?_
  refine inflates_nth (rootfile_lt hroot) ?_
  rw [Option.toList_some, ← List.append_nil [opf]]
  refine (readAt_inflates ∅).bind fun opfBytes => .assuming fun hbytes => ?_
  subst hbytes
  refine inflates_orFail hpackage ?_
  exact .pure fun s hs => ⟨rfl, hs⟩

/-- And so is whatever is read in front of it. -/
theorem mem_prologue {k : Nat} (h : k ∈ book.prologue crates archive) :
    k < book.entries.length := by
  unfold Book.prologue at h
  simp only [List.mem_append, Option.mem_toList, Option.bind_eq_some_iff] at h
  obtain ((hget | hget) | hget) | ⟨container, -, hopf⟩ := h
  · exact position_lt hget
  · exact position_lt hget
  · exact position_lt hget
  · unfold Book.opfPosition at hopf
    split at hopf
    · rename_i hroot
      cases hopf
      exact rootfile_lt hroot
    · cases hopf

/-- The whole parse of a book whose spine resolves and whose counts fit. -/
theorem parse_inflates {spine : List SpineEntry}
    (h : Prepared crates limits bytes archive book spine) (hcounts : book.Counts limits spine) :
    Inflates (π := π) limits archive book.entries (Holding ∅) (parse crates staying limits bytes)
      (book.schedule crates limits archive spine) (fun _ => Holding ∅) := by
  obtain ⟨scan, hscan, hentries⟩ := h.scanned
  unfold parse Book.schedule
  refine Eff.Follows.bind_silent (Q := fun _ => Holding ∅) (.modify fun s hs => ⟨rfl, hs⟩)
    fun _ => ?_
  refine inflates_orFail h.opened (inflates_orFail hscan ?_)
  refine (readBook_inflates h.packaged hentries).bind fun b => .assuming fun hb => ?_
  subst hb
  refine .ofExcept_bind h.spine ?_
  rw [← List.append_nil (Book.fetches ..)]
  exact (deliver_inflates (Book.resolveSpine_ok h.spine).2 hcounts).bind fun done =>
    .assuming fun _ => trailer_inflates done

end Parse

/-! ## Whole calls

The two halves together.  A call that has a book completes when its schedule can be paid and its
counters suffice, and otherwise its status is that of a read, or of the spine. -/

section Run

variable {π : Projection} {crates : Crates} {limits : Effective} {bytes : Bytes}
  {archive : MemoryArchive} {book : Book} {spine : List SpineEntry}

/-- A call with a staying client, by its budget and its schedule alone. -/
theorem run_staying (h : Prepared crates limits bytes archive book spine)
    (hcounts : book.Counts limits spine) :
    match Archive.spendAll archive limits book.entries (.new limits.maxUncompressedBytes)
        (book.schedule crates limits archive spine) with
    | .ok budget => (run π crates limits bytes staying).1 = .complete ∧
        (run π crates limits bytes staying).2.budget = budget
    | .error e => (run π crates limits bytes staying).1 = .of (.error e) := by
  have hstart : Parse.Holding ∅ (Call.start π limits) := fun k => by simp [Call.start]
  have hfollows := Parse.parse_inflates (π := π) h hcounts
  unfold run
  rcases hexec : (Parse.parse crates staying limits bytes).exec (.start π limits) with ⟨e | a, s⟩
  · have herror : Archive.spendAll archive limits book.entries (.new limits.maxUncompressedBytes)
        (book.schedule crates limits archive spine) = .error e := hfollows.of_error hstart hexec
    rw [herror]
  · have hok : Archive.spendAll archive limits book.entries (.new limits.maxUncompressedBytes)
        (book.schedule crates limits archive spine) = .ok s.budget := (hfollows.of_ok hstart hexec).1
    rw [hok]
    exact ⟨rfl, rfl⟩

/-- A client's call completes when a staying client's does and it takes every event. -/
theorem run_complete_client (client : Nat → Bool) :
    (run π crates limits bytes client).1 = .complete ↔
      (run π crates limits bytes staying).1 = .complete ∧
        Eff.Accepted client 0 (run π crates limits bytes staying).2.sent.length := by
  obtain ⟨-, hwhole, hcut⟩ := run_cut π crates limits bytes client
  rcases Eff.accepted_or_refused client 0 (run π crates limits bytes staying).2.sent.length with
    hall | ⟨k, hk⟩
  · rw [hwhole hall]
    exact (and_iff_left hall).symm
  · refine iff_of_false ?_ fun h => ?_
    · rw [(hcut k hk).1]
      nofun
    · exact absurd (h.2 k hk.ge hk.lt) (by simp [hk.refused])

/-- A call whose archive opens and scans goes on with the package document. -/
theorem parse_exec (h : Packaged crates limits bytes archive book) {scan : Scan}
    (hscan : Archive.scan archive = .ok scan) (client : Nat → Bool) :
    (Parse.parse crates client limits bytes).exec (.start π limits) =
      (Parse.readBook crates limits archive scan >>= fun b =>
        Eff.ofExcept (b.resolveSpine b.package.spine) >>= fun spine =>
          Parse.deliver crates client limits archive b spine >>= fun done =>
            Parse.trailer client done).exec
        { Call.start π limits with
          fold := (Call.start π limits).fold.map (π.setSourceHash (sourceHash bytes)) } := by
  unfold Parse.parse
  rw [Eff.exec_bind_ok (Eff.exec_modify _ _), h.opened]
  change Eff.exec (Parse.orFail (Archive.scan archive) >>= _) _ = _
  rw [hscan]
  rfl

/-- More skipped items than a `u32` counts are a panic, whatever the budget is. -/
theorem parse_stops (h : Prepared crates limits bytes archive book spine)
    (hskipped : u32Max < book.skipped limits spine) :
    ∃ e, ((Parse.parse crates staying limits bytes).exec (.start π limits)).1 = .error e := by
  obtain ⟨scan, hscan, hentries⟩ := h.scanned
  have hstart : Parse.Holding ∅ { Call.start π limits with
      fold := (Call.start π limits).fold.map (π.setSourceHash (sourceHash bytes)) } :=
    fun k => by simp [Call.start]
  have hread := Parse.readBook_inflates (π := π) h.packaged hentries
  rw [parse_exec h.packaged hscan]
  rcases hexec : (Parse.readBook crates limits archive scan).exec { Call.start π limits with
      fold := (Call.start π limits).fold.map (π.setSourceHash (sourceHash bytes)) } with ⟨e | b, s⟩
  · exact ⟨e, by rw [Eff.exec_bind_error hexec]⟩
  · rw [Eff.exec_bind_ok hexec]
    obtain ⟨rfl, -⟩ := (hread.of_ok hstart hexec).2
    exact Eff.Stops.ofExcept_bind h.spine
      (.bind_left (Parse.deliver_stops hskipped (Book.resolveSpine_ok h.spine).2)) s

/-- A completed call counted no more than its trailer can say. -/
theorem counts_of_complete (h : Prepared crates limits bytes archive book spine)
    (hcomplete : (run π crates limits bytes staying).1 = .complete) :
    book.Counts limits spine := by
  rcases @run_spec π crates limits bytes staying with
    hrefused | ⟨archive', book', spine', status, hdelivered⟩
  · exact absurd hcomplete hrefused.incomplete
  obtain ⟨rfl, rfl, rfl⟩ := h.unique hdelivered.prepared
  obtain ⟨-, -, hchapters, hresources⟩ := hdelivered.receipt hcomplete
  refine ⟨hchapters, hresources, Nat.not_lt.mp fun hskipped => ?_⟩
  obtain ⟨e, he⟩ := parse_stops (π := π) h hskipped
  have hout : (run π crates limits bytes staying).1 = .of (.error e) := by
    unfold run
    rw [← he]
  exact Outcome.of_ne_complete e (hout.symm.trans hcomplete)

/-- The status is that of an entry that could not be inflated. -/
def FromReading (archive : MemoryArchive) (limits : Effective) (entries : List EntryInfo)
    (status : Status) : Prop :=
  ∃ entry ∈ entries, ∃ budget,
    (Archive.readEntry archive entry limits).exec budget = (.error (.failed status), budget)

/-- A failing sum of reads fails at one of them. -/
theorem fromReading_of_spendAll {entries : List EntryInfo} {status : Status} :
    ∀ {positions : List Nat} {budget : Budget}, (∀ k ∈ positions, k < entries.length) →
      Archive.spendAll archive limits entries budget positions = .error (.failed status) →
      FromReading archive limits entries status
  | [], _, _, h => by cases h
  | k :: rest, budget, hrange, h => by
      have hk : entries.getD k default ∈ entries := by
        rw [List.getD_eq_getElem?_getD, List.getElem?_eq_getElem (hrange k List.mem_cons_self),
          Option.getD_some]
        exact List.getElem_mem _
      unfold Archive.spendAll at h
      rw [List.foldlM_cons] at h
      cases hstep : Archive.spend archive limits entries budget k with
      | ok next =>
          rw [hstep] at h
          exact fromReading_of_spendAll (fun i hi => hrange i (List.mem_cons_of_mem _ hi)) h
      | error e =>
          rw [hstep] at h
          cases h
          refine ⟨_, hk, budget, ?_⟩
          unfold Archive.spend at hstep
          rcases Archive.readEntry_cases archive (entries.getD k default) limits budget with
            ⟨-, hexec⟩ | ⟨status', hexec⟩ | ⟨-, -, hexec⟩ | ⟨-, -, hexec⟩
          all_goals rw [hexec] at hstep ⊢; cases hstep
          rfl

/-- A call with a package document fails because an entry cannot be inflated,
or because its spine cannot be resolved. -/
theorem run_failed (h : Packaged crates limits bytes archive book) (client : Nat → Bool)
    {status : Status} (hfailed : (run π crates limits bytes client).1 = .failed status) :
    FromReading archive limits book.entries status ∨
      book.resolveSpine book.package.spine = .error (.failed status) := by
  obtain ⟨scan, hscan, hentries⟩ := h.scanned
  have hstart := @Parse.sound_start π limits bytes archive book.entries
  have hread := Parse.readBook_inflates (π := π) h hentries
  have hsound := @Parse.readBook_spec π crates limits archive (sourceHash bytes) scan
  rw [hentries] at hsound
  unfold run at hfailed
  rw [parse_exec h hscan] at hfailed
  rcases hexec : (Parse.readBook crates limits archive scan).exec { Call.start π limits with
      fold := (Call.start π limits).fold.map (π.setSourceHash (sourceHash bytes)) } with ⟨e | b, s⟩
  · rw [Eff.exec_bind_error hexec] at hfailed
    obtain rfl := Outcome.of_failed hfailed
    exact .inl (fromReading_of_spendAll (fun k hk => Parse.mem_prologue hk)
      (hread.of_error (fun k => by simp [Call.start]) hexec))
  rw [Eff.exec_bind_ok hexec] at hfailed
  obtain ⟨rfl, -⟩ := (hread.of_ok (fun k => by simp [Call.start]) hexec).2
  have hs := (hsound.of_ok hstart hexec).2.2
  cases hspine : b.resolveSpine b.package.spine with
  | error e =>
      rw [hspine] at hfailed
      exact .inr (congrArg _ (Outcome.of_failed hfailed))
  | ok spine =>
      rw [hspine] at hfailed
      change Outcome.of (Eff.exec (Parse.deliver crates client limits archive b spine >>= _) s).1 =
        _ at hfailed
      rcases hdeliver : (Parse.deliver crates client limits archive b spine).exec s with ⟨e | done, s'⟩
      · rw [Eff.exec_bind_error hdeliver] at hfailed
        obtain ⟨entry, hmem, hfails⟩ :=
          ((Parse.deliver_spec spine).of_error hs hdeliver).2.fromRead _ (Outcome.of_failed hfailed)
        exact .inl ⟨entry, hmem, _, hfails⟩
      · rw [Eff.exec_bind_ok hdeliver] at hfailed
        have hs' := ((Parse.deliver_spec spine).of_ok hs hdeliver).2.2
        obtain ⟨-, -, ⟨hok, -⟩ | ⟨hgone, -⟩⟩ := Parse.trailer_exec client done hs'.fold
        · rw [hok] at hfailed
          cases hfailed
        · rw [hgone] at hfailed
          cases hfailed

/-- Exactly when a call completes. -/
theorem run_complete_iff (h : Prepared crates limits bytes archive book spine) :
    (run π crates limits bytes staying).1 = .complete ↔ book.Counts limits spine ∧
      ∃ budget, Archive.spendAll archive limits book.entries (.new limits.maxUncompressedBytes)
        (book.schedule crates limits archive spine) = .ok budget := by
  constructor
  · intro hcomplete
    have hcounts := counts_of_complete h hcomplete
    refine ⟨hcounts, ?_⟩
    have hrun := run_staying (π := π) h hcounts
    cases hspend : Archive.spendAll archive limits book.entries
        (.new limits.maxUncompressedBytes) (book.schedule crates limits archive spine) with
    | ok budget => exact ⟨budget, rfl⟩
    | error e =>
        rw [hspend] at hrun
        exact absurd (hrun.symm.trans hcomplete) (Outcome.of_ne_complete e)
  · rintro ⟨hcounts, budget, hbudget⟩
    have hrun := run_staying (π := π) h hcounts
    rw [hbudget] at hrun
    exact hrun.1

end Run

end GrpcEpub
