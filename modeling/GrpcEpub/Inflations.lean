/-
# `GrpcEpub.Inflations` — what a call inflates, and what it does not assert in vain

Against any client a call inflates the first entries of its schedule, and all of them when it
completes.  It stops because the client is gone, because an entry or the spine is refused, or
because a counter is full: no index of the driver is out of range, no `expect` of it fails, and
nothing is kept behind the walk.  One triple for each operation says both.

`Takes x positions Q` is weaker than `Inflates`: nothing is assumed of the budget or of the
client, and the step may stop anywhere.  What it inflated is then a first part of `positions`,
and how it stopped is `Unasserted`.
-/
import GrpcEpub.Spending
import GrpcEpub.Fallbacks

namespace GrpcEpub

open Cache

/-- Not a failed assertion: a panic, if it is one, is that of a full counter. -/
def Abort.Unasserted (e : Abort) : Prop := ∀ p, e = .panicked p → p = .overflow

theorem Abort.Unasserted.gone : Abort.Unasserted .gone := nofun

theorem Abort.Unasserted.failed (status : Status) : Abort.Unasserted (.failed status) := nofun

theorem Abort.Unasserted.overflow : Abort.Unasserted (.panicked .overflow) := by
  rintro p ⟨⟩
  rfl

/-- Every failure of a decision is a full counter. -/
def OnlyOverflows {α : Type} (r : Except Abort α) : Prop :=
  ∀ e, r = .error e → e = .panicked .overflow

namespace OnlyOverflows

theorem add32 (a b : Nat) : OnlyOverflows (Book.add32 a b) := by
  intro e h
  unfold Book.add32 at h
  split at h
  · cases h
  · cases h
    rfl

theorem unasserted {α : Type} {r : Except Abort α} (h : OnlyOverflows r) {e : Abort}
    (he : r = .error e) : e.Unasserted := by
  rw [h e he]
  exact .overflow

end OnlyOverflows

/-- The entries a call has inflated. -/
def Call.inflated {π : Projection} (call : Call π) : List EntryInfo := call.reads.map Reading.entry

namespace Book

variable {book : Book} {limits : Effective}

theorem planItem_overflows (sources entries : List Nat) (plan : Plan) (item : Resolved × Nat) :
    OnlyOverflows (book.planItem limits sources entries plan item) := by
  intro e h
  unfold planItem countSkipped at h
  rcases Except.bind_error h with hcount | ⟨skipped, -, h⟩
  · split at hcount
    · exact OnlyOverflows.add32 _ _ e hcount
    · cases hcount
  · cases h

theorem plan_overflow (sources entries : List Nat) (items : List (Resolved × Nat)) :
    ∀ plan, OnlyOverflows (items.foldlM (book.planItem limits sources entries) plan) := by
  induction items with
  | nil =>
      intro plan e h
      cases h
  | cons item rest ih =>
      intro plan e h
      rw [List.foldlM_cons] at h
      rcases Except.bind_error h with hitem | ⟨next, -, hrest⟩
      · exact planItem_overflows sources entries plan item e hitem
      · exact ih next e hrest

/-- Resolving an itemref only fails; the item a chapter is read from is in the archive. -/
theorem resolveItemref_unasserted (itemref : SpineItem) {e : Abort}
    (h : book.resolveItemref itemref = .error e) : e.Unasserted := by
  unfold resolveItemref at h
  cases hget : book.byId.get itemref.idref with
  | none =>
      rw [hget] at h
      cases h
      exact .failed _
  | some position =>
      rw [hget] at h
      have hposition := byId_lt hget
      have hchain : book.Chain position
          (trail book.fallback position [position] (maxFallbackChain - 1)) :=
        trail_isTrail book.fallback (maxFallbackChain - 1) position
      dsimp only at h
      rw [chapterSource_eq hposition hchain] at h
      cases hsource : book.sourceOf
          (trail book.fallback position [position] (maxFallbackChain - 1)) with
      | none =>
          rw [hsource] at h
          change (nth book.resolved position >>= _) = _ at h
          rw [nth_item hposition] at h
          cases h
          exact .failed _
      | some source =>
          rw [hsource] at h
          obtain ⟨hmem, hheld⟩ := sourceOf_held hsource
          obtain ⟨entry, hentry⟩ := Option.isSome_iff_exists.mp hheld
          change (nth book.resolved source >>= _) = _ at h
          rw [nth_item (chain_lt hposition hchain source hmem)] at h
          change (expect (book.item source).entry >>= _) = _ at h
          rw [hentry] at h
          change (if entry ∈ book.obfuscated then _ else _) = _ at h
          split at h
          · cases h
            exact .failed _
          · cases h

theorem resolveSpine_unasserted {e : Abort} : ∀ {itemrefs : List SpineItem},
    book.resolveSpine itemrefs = .error e → e.Unasserted
  | [], h => by cases h
  | itemref :: rest, h => by
      rcases Except.bind_error h with hfirst | ⟨first, -, h⟩
      · exact resolveItemref_unasserted itemref hfirst
      · rcases Except.bind_error h with hothers | ⟨others, -, h⟩
        · exact resolveSpine_unasserted hothers
        · cases h

end Book

namespace Parse

variable {π : Projection} {crates : Crates} {client : Nat → Bool} {limits : Effective}
  {archive : MemoryArchive} {entries : List EntryInfo} {book : Book}

/-- The driver inflates the entries at these positions, one after another; if it stops on the
way it has inflated the first of them, and has not failed an assertion. -/
abbrev Takes {α : Type} (entries : List EntryInfo) (P : Call π → Prop) (x : Step π α)
    (positions : List Nat) (Q : α → Call π → Prop) : Prop :=
  Eff.Emits Call.inflated P x (positions.map fun k => entries.getD k default) Q
    fun e _ => e.Unasserted

/-! ## Rules

One for each way in which the driver is put together: a sequence, a step that reads nothing, a
decision, an index that is in range, a counter, and a result turned into a status. -/

theorem takes_bind {α β : Type} {x : Step π α} {f : α → Step π β} {P : Call π → Prop}
    {positions positions' : List Nat} {Q : α → Call π → Prop} {R : β → Call π → Prop}
    (hx : Takes entries P x positions Q) (hf : ∀ a, Takes entries (Q a) (f a) positions' R) :
    Takes entries P (x >>= f) (positions ++ positions') R := by
  unfold Takes
  rw [List.map_append]
  exact hx.bind hf

/-- A first half that inflates nothing. -/
theorem takes_silent {α β : Type} {x : Step π α} {f : α → Step π β} {P : Call π → Prop}
    {positions : List Nat} {Q : α → Call π → Prop} {R : β → Call π → Prop}
    (hx : Takes entries P x [] Q) (hf : ∀ a, Takes entries (Q a) (f a) positions R) :
    Takes entries P (x >>= f) positions R :=
  takes_bind hx hf

/-- A decision that is known to be made. -/
theorem takes_ofExcept {α β : Type} {r : Except Abort α} {a : α} {f : α → Step π β}
    {P : Call π → Prop} {positions : List Nat} {R : β → Call π → Prop} (hr : r = .ok a)
    (h : Takes entries P (f a) positions R) :
    Takes entries P (Eff.ofExcept r >>= f) positions R := by
  subst hr
  exact h

/-- An index expression on a position that is in range. -/
theorem takes_nth {α β : Type} [Inhabited α] {xs : List α} {i : Nat} {f : α → Step π β}
    {P : Call π → Prop} {positions : List Nat} {R : β → Call π → Prop} (hi : i < xs.length)
    (h : Takes entries P (f (xs.getD i default)) positions R) :
    Takes entries P (Eff.ofExcept (nth xs i) >>= f) positions R := by
  refine takes_ofExcept ?_ h
  simp [nth, List.getD_eq_getElem?_getD, List.getElem?_eq_getElem hi]

/-- A decision that only a full counter keeps from being made. -/
theorem takes_counted {α β : Type} {r : Except Abort α} {f : α → Step π β} {P : Call π → Prop}
    {positions : List Nat} {R : β → Call π → Prop} (hr : OnlyOverflows r)
    (h : ∀ a, r = .ok a → Takes entries P (f a) positions R) :
    Takes entries P (Eff.ofExcept r >>= f) positions R :=
  .ofExcept_bind h fun _ _ he _ => hr.unasserted he

/-- A `?` on a status. -/
theorem takes_orFail {α β : Type} {r : Except Status α} {f : α → Step π β} {P : Call π → Prop}
    {positions : List Nat} {R : β → Call π → Prop}
    (h : ∀ a, r = .ok a → Takes entries P (f a) positions R) :
    Takes entries P (orFail r >>= f) positions R := by
  intro s hs
  cases r with
  | ok a => exact h a rfl s hs
  | error status =>
      exact ⟨⟨[], List.nil_prefix, (List.append_nil _).symm⟩, .failed status⟩

/-! ## Reading

A read that is refused has inflated nothing that counts. -/

theorem readEntry_takes {k : Nat} (held : Finset Nat) :
    Takes (π := π) entries (Holding held) (readEntry limits archive (entries.getD k default)) [k]
      (fun bytes s => bytes = archive.inflated (entries.getD k default) ∧ Holding held s) := by
  intro s hs
  unfold readEntry
  rw [Eff.exec_bind_ok (Eff.exec_get s)]
  rcases Archive.readEntry_cases archive (entries.getD k default) limits s.budget with
    ⟨-, h⟩ | ⟨status, h⟩ | ⟨-, -, h⟩ | ⟨-, -, h⟩
  · rw [h]
    exact ⟨List.map_append, rfl, hs⟩
  · rw [h]
    exact ⟨⟨[], List.nil_prefix, (List.append_nil _).symm⟩, .failed status⟩
  all_goals
    rw [h]
    exact ⟨⟨[], List.nil_prefix, (List.append_nil _).symm⟩, .overflow⟩

theorem readAt_takes {k : Nat} (held : Finset Nat) :
    Takes (π := π) entries (Holding held) (readAt limits archive (entries.getD k default)) [k]
      (fun bytes s => bytes = archive.inflated (entries.getD k default) ∧ Holding held s) := by
  rw [← List.append_nil [k]]
  refine takes_bind (readEntry_takes held) fun bytes => ?_
  exact takes_silent (Q := fun _ s => bytes = _ ∧ Holding held s)
    (.modify fun s hs => ⟨rfl, hs⟩) fun _ => .pure fun s hs => hs

theorem takePreread_takes (held : Finset Nat) (k : Nat) :
    Takes (π := π) entries (Holding held) (takePreread k) []
      (fun kept s => (kept.isSome = true ↔ k ∈ held) ∧ Holding (held.erase k) s) := by
  refine .get_bind fun s₀ hs₀ => ?_
  refine takes_silent (Q := fun _ => Holding (held.erase k)) (.set ?_)
    fun _ => .pure fun s hs => ⟨hs₀ k, hs⟩
  rintro s rfl
  exact ⟨rfl, hs₀.erase k⟩

/-- Bytes that are held are not inflated again. -/
theorem prereadRead_takes {k : Nat} (held : Finset Nat) (hk : k < entries.length) :
    Takes (π := π) entries (Holding held) (prereadRead limits archive entries k)
      (if k ∈ held then [] else [k]) (fun _ => Holding (held.erase k)) := by
  refine takes_silent (takePreread_takes held k) fun kept => .assuming fun hkept => ?_
  cases kept with
  | some bytes =>
      rw [if_pos (hkept.mp rfl)]
      exact .pure fun s hs => hs
  | none =>
      have hout : k ∉ held := fun hmem => Bool.noConfusion (hkept.mpr hmem)
      rw [if_neg hout]
      exact takes_nth hk ((readAt_takes _).post fun bytes s hs => hs.2)

/-- Whether bytes are put back is what the use of their entry says. -/
theorem keep_takes {α : Type} {k : Nat} {held : Finset Nat} {bytes : Bytes} {again : Bool}
    {c : Prop} [Decidable c] {x : Step π α} {positions : List Nat} {Q : α → Call π → Prop}
    (hagain : again = true ↔ c)
    (hx : Takes entries (Holding (Use.after held ⟨k, again⟩)) x positions Q) :
    Takes entries (Holding (held.erase k)) (if c then keep k bytes >>= fun _ => x else x)
      positions Q := by
  unfold Use.after at hx
  split
  · rename_i hc
    rw [if_pos (hagain.mpr hc)] at hx
    exact takes_silent (.modify fun s hs => ⟨rfl, hs.insert bytes⟩) fun _ => hx
  · rename_i hc
    rwa [if_neg fun h => hc (hagain.mp h)] at hx

/-! ## Sending

A client may refuse; that is an end like another. -/

theorem send_takes (event : Event π.Document) (entry : Option Nat) (held : Finset Nat) :
    Takes entries (Holding held) (send client event entry) [] (fun _ => Holding held) := by
  intro s hs
  rw [exec_send]
  cases client s.sent.length with
  | true => exact ⟨(List.append_nil _).symm, hs⟩
  | false => exact ⟨⟨[], List.nil_prefix, (List.append_nil _).symm⟩, .gone⟩

/-- An event inflates nothing. -/
theorem emit_takes (event : Event π.Document) (entry : Option Nat) (held : Finset Nat) :
    Takes entries (Holding held) (emit client event entry) [] (fun _ => Holding held) := by
  refine .get_bind fun s₀ hs₀ => ?_
  cases s₀.fold with
  | none =>
      exact (send_takes event entry held).weaken (fun s hs => hs ▸ hs₀) (fun _ _ hq => hq)
        fun _ _ he => he
  | some fold =>
      have hset : ∀ fold, Takes (π := π) entries (· = s₀) (set { s₀ with fold := some fold }) []
          (fun _ => Holding held) := fun fold => .set fun s hs => ⟨by rw [hs]; rfl, hs₀⟩
      dsimp only
      split
      · refine takes_silent (hset _) fun _ => ?_
        exact takes_silent (send_takes _ none held) fun _ => send_takes _ entry held
      · exact takes_silent (hset _) fun _ => send_takes _ entry held

theorem warn_takes (code : ParseWarningCode) (href : Str) (message : WarningText)
    (held : Finset Nat) :
    Takes (π := π) entries (Holding held) (warn code href message) [] (fun _ => Holding held) :=
  .modify fun _ hs => ⟨rfl, hs⟩

theorem takes_ite {α : Type} {c : Prop} [Decidable c] {x y : Step π α} {P : Call π → Prop}
    {positions : List Nat} {Q : α → Call π → Prop} (hx : Takes entries P x positions Q)
    (hy : Takes entries P y positions Q) :
    Takes entries P (if c then x else y) positions Q := by
  split
  · exact hx
  · exact hy

/-! ## Ahead of the chapters

The two passes, whose indices come from links that were computed in range. -/

/-- The navigation document, if there is one to be read. -/
theorem navigationPass_takes {source : Option Book.NavigationSource}
    (hsource : ∀ s ∈ source, s.Found book) (willEmit : List Nat) (held : Finset Nat) :
    Takes (π := π) book.entries (Holding held)
      (navigationPass crates client limits archive book willEmit source)
      (fetched held (Book.navigationUses limits source willEmit))
      (fun _ => Holding (left held (Book.navigationUses limits source willEmit))) := by
  unfold navigationPass Book.navigationUses
  cases limits.parseNavigation with
  | false => exact .pure fun s hs => hs
  | true =>
      cases source with
      | none => exact .pure fun s hs => hs
      | some source =>
          have hfound := hsource source rfl
          refine takes_nth hfound.inRange ?_
          rw [fetched_cons]
          refine takes_bind (prereadRead_takes held (Book.entry_lt hfound.entry)) fun bytes => ?_
          exact keep_takes decide_eq_true_iff (takes_ite (warn_takes _ _ _ _) (emit_takes _ _ _))

/-- By induction on the pairs; `lastUse` has an answer for each of them, so no `expect` fails. -/
theorem overlayLoop_takes (willEmit : List Nat) : ∀ {pairs : List (Nat × Nat)} {round : Nat}
    {uses lastUse : HashMap Nat Nat} (held : Finset Nat),
    (∀ pair ∈ pairs, pair.1 < book.resolved.length ∧ pair.2 < book.resolved.length) →
    book.lastUseFrom (pairs.zipIdx round) uses = .ok lastUse →
    Takes (π := π) book.entries (Holding held)
      (overlayLoop crates client limits archive book willEmit lastUse (pairs.zipIdx round))
      (fetched held (book.overlayUses willEmit pairs))
      (fun _ => Holding (left held (book.overlayUses willEmit pairs)))
  | [], _, _, _, held, _, _ => .pure fun s hs => hs
  | pair :: rest, round, uses, lastUse, held, hrange, huses => by
      have hpair := hrange pair List.mem_cons_self
      have hrest := fun p hp => hrange p (List.mem_cons_of_mem _ hp)
      obtain ⟨position, overlay⟩ := pair
      rw [List.zipIdx_cons, Book.lastUseFrom, Book.nth_item hpair.2] at huses
      simp only [bind, Except.bind] at huses
      rw [List.zipIdx_cons, overlayLoop, overlayTurn, Book.overlayUses]
      cases hentry : (book.item overlay).entry with
      -- an overlay that is not in the archive is skipped
      | none =>
          rw [hentry] at huses
          rw [show book.overlayEntry (position, overlay) = none from hentry]
          refine takes_silent (Q := fun _ => Holding held) ?_
            fun _ => overlayLoop_takes willEmit held hrest huses
          refine takes_nth hpair.2 ?_
          rw [show (book.resolved.getD overlay default).entry = none from hentry]
          exact .pure fun s hs => hs
      | some entry =>
          rw [hentry] at huses
          rw [show book.overlayEntry (position, overlay) = some entry from hentry]
          dsimp only at huses ⊢
          rw [fetched_cons, left_cons]
          refine takes_bind ?_ fun _ => overlayLoop_takes willEmit _ hrest huses
          refine takes_nth hpair.2 ?_
          rw [show (book.resolved.getD overlay default).entry = some entry from hentry]
          dsimp only
          rw [← List.append_nil (if entry ∈ held then [] else [entry])]
          refine takes_bind (prereadRead_takes held (Book.entry_lt hentry)) fun bytes => ?_
          -- the rest of the pairs has been counted already, so `lastUse` knows this one
          obtain ⟨found, hfound, hlast, hother⟩ := Book.lastUseFrom_total entry (round + 1)
            (uses.insert entry round) fun p hp => (hrest p hp).2
          obtain rfl := Except.ok.inj (hfound.symm.trans huses)
          refine takes_ofExcept (keepOverlay_total hlast fun hmem => ?_) ?_
          · rw [hother hmem, HashMap.get_insert, if_pos rfl]
          have hsent : ∀ parsed : Overlay, ∀ path : Str, ∀ held : Finset Nat,
              Takes (π := π) book.entries (Holding held)
                (if parsed.cues.isEmpty then warn .metadata path .noCues
                  else do
                    let narrated ← Eff.ofExcept (nth book.resolved position)
                    emit client (.mediaOverlay ⟨parsed.sourceHref, narrated.path, parsed.cues⟩)
                      none) [] (fun _ => Holding held) := fun parsed path held =>
            takes_ite (warn_takes _ _ _ _) (takes_nth hpair.1 (emit_takes _ _ _))
          exact keep_takes Iff.rfl (hsent _ _ _)

/-- The pass is its loop, or nothing. -/
theorem overlayPass_takes (willEmit : List Nat) (held : Finset Nat) :
    Takes (π := π) book.entries (Holding held)
      (overlayPass crates client limits archive book willEmit book.links)
      (fetched held (if limits.parseMediaOverlays then book.overlayUses willEmit book.links
        else []))
      (fun _ => Holding (left held
        (if limits.parseMediaOverlays then book.overlayUses willEmit book.links else []))) := by
  unfold overlayPass
  cases limits.parseMediaOverlays with
  | false => exact .pure fun s hs => hs
  | true =>
      have hrange : ∀ pair ∈ book.links, pair.2 < book.resolved.length :=
        fun pair hpair => (Book.overlay_lt hpair).2
      obtain ⟨lastUse, huses, -⟩ := Book.lastUseFrom_total 0 0 ∅ hrange
      refine takes_ofExcept huses ?_
      exact overlayLoop_takes willEmit held (fun pair hpair => Book.overlay_lt hpair) huses

/-! ## The walk

The resources that are pending are `Stored`: each has an entry in the archive, which is what the
driver's `expect` relies on. -/

theorem emitResource_takes {entry position : Nat} (hrange : position < book.resolved.length)
    (hentry : entry < book.entries.length) (held : Finset Nat) :
    Takes (π := π) book.entries (Holding held)
      (emitResource client limits archive book book.links entry position)
      (fetched held [Book.sentUse entry])
      (fun _ => Holding (left held [Book.sentUse entry])) := by
  unfold emitResource
  refine takes_nth hrange ?_
  refine takes_ofExcept (Book.overlayHref_total position) ?_
  rw [fetched_sentUse, ← List.append_nil (if entry ∈ held then _ else _)]
  refine takes_bind (prereadRead_takes held hentry) fun content => ?_
  exact takes_silent (emit_takes _ _ _) fun _ => .modify fun s hs => ⟨rfl, hs⟩

/-- Resources that are in the archive. -/
def Stored (book : Book) (pending : List (Nat × Nat)) : Prop :=
  ∀ item ∈ pending, item.2 < book.resolved.length ∧ item.1 < book.entries.length

theorem Stored.tail {item : Nat × Nat} {rest : List (Nat × Nat)} (h : Stored book (item :: rest)) :
    Stored book rest := fun i hi => h i (List.mem_cons_of_mem _ hi)

theorem stored_resources (limits : Effective) (spine : List SpineEntry) :
    Stored book (book.resources limits spine) := by
  intro item hitem
  have hqualifies := Book.mem_pendingItems.mp (Book.mem_archiveOrder.mp hitem).1
  exact ⟨hqualifies.inRange, Book.entry_lt hqualifies.present⟩

/-- The resources in front of a chapter. -/
theorem drain_takes (chapterEntry : Nat) : ∀ {pending : List (Nat × Nat)} {emitted : Nat}
    (held : Finset Nat), Stored book pending →
    Takes (π := π) book.entries (Holding held)
      (drain client limits archive book book.links chapterEntry pending emitted)
      (fetched held (resourceUses (pending.takeWhile (·.1 < chapterEntry))))
      (fun r s => r.1 = pending.dropWhile (·.1 < chapterEntry) ∧
        Holding (left held (resourceUses (pending.takeWhile (·.1 < chapterEntry)))) s)
  | [], emitted, held, _ => .pure fun s hs => ⟨rfl, hs⟩
  | (entry, position) :: rest, emitted, held, h => by
      unfold drain
      by_cases hlt : entry < chapterEntry
      · rw [if_pos hlt, List.takeWhile_cons_of_pos (by simpa using hlt),
          List.dropWhile_cons_of_pos (by simpa using hlt)]
        have hhead := h _ List.mem_cons_self
        have huses : resourceUses ((entry, position) :: rest.takeWhile (·.1 < chapterEntry)) =
            [Book.sentUse entry] ++ resourceUses (rest.takeWhile (·.1 < chapterEntry)) := rfl
        rw [huses, fetched_append, left_append]
        refine takes_bind (emitResource_takes hhead.1 hhead.2 held) fun _ => ?_
        exact takes_counted (.add32 _ _) fun emitted' _ => drain_takes chapterEntry _ h.tail
      · rw [if_neg hlt, List.takeWhile_cons_of_neg (by simpa using hlt),
          List.dropWhile_cons_of_neg (by simpa using hlt)]
        exact .pure fun s hs => ⟨rfl, hs⟩

/-- A chapter, from the cache or from the archive. -/
theorem emitChapter_takes {spineIndex : Nat} {chapter : SpineEntry} {target : Resolved}
    (hfound : book.ChapterFound chapter) (held : Finset Nat) :
    Takes (π := π) book.entries (Holding held)
      (emitChapter client limits archive book book.links spineIndex chapter target
        (book.chapterEntry chapter))
      (fetched held [Book.sentUse (book.chapterEntry chapter)])
      (fun _ => Holding (left held [Book.sentUse (book.chapterEntry chapter)])) := by
  unfold emitChapter
  rw [fetched_sentUse, ← List.append_nil (if book.chapterEntry chapter ∈ held then _ else _)]
  refine takes_bind (prereadRead_takes held (Book.entry_lt hfound.entry)) fun content => ?_
  refine takes_nth (Book.byId_lt hfound.primary) ?_
  refine takes_ofExcept (Book.overlayHref_total _) ?_
  have hsent : ∀ path : Str, Takes (π := π) book.entries
      (Holding (left held [Book.sentUse (book.chapterEntry chapter)]))
      (do
        emit client (.chapter (Book.chapterEvent spineIndex chapter target
          (book.resolved.getD chapter.primary default) content path))
          (some (book.chapterEntry chapter))
        modify fun call =>
          { call with metrics.chaptersEmitted := call.metrics.chaptersEmitted + 1 })
      [] (fun _ => Holding (left held [Book.sentUse (book.chapterEntry chapter)])) := fun path =>
    takes_silent (emit_takes _ _ _) fun _ => .modify fun s hs => ⟨rfl, hs⟩
  -- the source's own overlay, else that of the spine item it stands in for
  split
  · exact takes_ofExcept (Book.overlayHref_total _) (hsent _)
  · exact hsent _

/-- By induction on the spine. -/
theorem walkSpine_takes : ∀ {spine : List (SpineEntry × Nat)} {pending : List (Nat × Nat)}
    {emitted chapters : Nat} (held : Finset Nat),
    (∀ visit ∈ spine, book.ChapterFound visit.1) → Stored book pending →
    Takes (π := π) book.entries (Holding held)
      (walkSpine client limits archive book book.links spine pending emitted chapters)
      (fetched held (spineUses book spine pending))
      (fun r s => r.1 = leftOver Prod.fst (fun visit => book.chapterEntry visit.1) spine pending ∧
        Holding (left held (spineUses book spine pending)) s)
  | [], pending, emitted, chapters, held, _, _ => .pure fun s hs => ⟨rfl, hs⟩
  | (chapter, spineIndex) :: rest, pending, emitted, chapters, held, hfound, hstored => by
      have hchapter := hfound _ List.mem_cons_self
      have huses : spineUses book ((chapter, spineIndex) :: rest) pending =
          resourceUses (pending.takeWhile (·.1 < book.chapterEntry chapter)) ++
            ([Book.sentUse (book.chapterEntry chapter)] ++
              spineUses book rest (pending.dropWhile (·.1 < book.chapterEntry chapter))) := by
        simp [spineUses, resourceUses, upToLast]
      unfold walkSpine
      refine takes_nth hchapter.inRange ?_
      refine takes_ofExcept (a := book.chapterEntry chapter) ?_ ?_
      · rw [show (book.resolved.getD chapter.source default).entry = _ from hchapter.entry]
        rfl
      rw [huses, fetched_append, left_append]
      refine takes_bind (drain_takes _ held hstored) fun drained => .assuming fun hdrained => ?_
      obtain ⟨pending', emitted'⟩ := drained
      obtain rfl := hdrained
      rw [fetched_append, left_append]
      refine takes_bind (emitChapter_takes hchapter _) fun _ => ?_
      refine takes_counted (.add32 _ _) fun chapters' _ => ?_
      have hstored' : Stored book
          (pending.dropWhile fun item => item.1 < book.chapterEntry chapter) :=
        fun item hitem => hstored item ((List.dropWhile_sublist _).subset hitem)
      exact walkSpine_takes _ (fun visit hat => hfound visit (List.mem_cons_of_mem _ hat)) hstored'

/-- The resources behind the last chapter. -/
theorem drainRest_takes : ∀ {pending : List (Nat × Nat)} {emitted : Nat} (held : Finset Nat),
    Stored book pending →
    Takes (π := π) book.entries (Holding held)
      (drainRest client limits archive book book.links pending emitted)
      (fetched held (resourceUses pending))
      (fun _ => Holding (left held (resourceUses pending)))
  | [], _, held, _ => .pure fun s hs => hs
  | (entry, position) :: rest, emitted, held, h => by
      have hhead := h _ List.mem_cons_self
      have huses : resourceUses ((entry, position) :: rest) =
          [Book.sentUse entry] ++ resourceUses rest := rfl
      rw [huses, fetched_append, left_append]
      refine takes_bind (emitResource_takes hhead.1 hhead.2 held) fun _ => ?_
      exact takes_counted (.add32 _ _) fun emitted' _ => drainRest_takes _ h.tail

/-- A call that holds nothing keeps nothing. -/
theorem Holding.nothing {s : Call π} (hs : Holding ∅ s) : s.preread.entries = [] := by
  refine List.eq_nil_iff_forall_not_mem.mpr fun entry hentry => ?_
  have hsome : (s.preread.get entry.1).isSome = true :=
    AList.lookup_isSome.mpr (List.mem_map.mpr ⟨entry, hentry, rfl⟩)
  exact absurd ((hs entry.1).mp hsome) (Finset.notMem_empty _)

theorem assertPrereadEmpty_takes :
    Takes (π := π) entries (Holding ∅) assertPrereadEmpty [] (fun _ => Holding ∅) := by
  refine .get_bind fun s₀ hs₀ => ?_
  rw [if_pos hs₀.nothing]
  exact .pure fun s hs => hs ▸ hs₀

/-- Nothing is left in the cache behind the walk, so the assertion holds. -/
theorem walk_takes {spine : List SpineEntry} {pending : List (Nat × Nat)} (held : Finset Nat)
    (hfound : ∀ chapter ∈ spine, book.ChapterFound chapter) (hstored : Stored book pending)
    (hleft : left held (book.walkUses spine.zipIdx pending) = ∅) :
    Takes (π := π) book.entries (Holding held)
      (walk client limits archive book book.links spine pending)
      (fetched held (book.walkUses spine.zipIdx pending)) (fun _ => Holding ∅) := by
  have huses : book.walkUses spine.zipIdx pending = spineUses book spine.zipIdx pending ++
      resourceUses (leftOver Prod.fst (fun visit => book.chapterEntry visit.1) spine.zipIdx
        pending) := by
    unfold Book.walkUses spineUses resourceUses
    rw [interleave_eq, List.map_append, List.map_map]
    rfl
  rw [huses, left_append] at hleft
  rw [huses, fetched_append]
  unfold walk
  refine takes_bind (walkSpine_takes held (fun visit hat => ?_) hstored)
    fun r => .assuming fun hr => ?_
  · exact hfound visit.1 (List.mem_of_getElem? (List.mem_zipIdx_iff_getElem?.mp hat))
  obtain ⟨pending', emitted, chapters⟩ := r
  obtain rfl := hr
  have hrest : Stored book
      (leftOver Prod.fst (fun visit => book.chapterEntry visit.1) spine.zipIdx pending) :=
    fun item hitem => hstored item ((leftOver_sublist _ _ _ _).subset hitem)
  rw [← List.append_nil (fetched (left held _) _)]
  refine takes_bind (drainRest_takes _ hrest) fun total => ?_
  rw [hleft]
  exact takes_silent assertPrereadEmpty_takes fun _ => .pure fun s hs => hs

/-! ## The whole parse

The two halves of `parse_epub`, from an empty cache to an empty cache. -/

/-- Delivering a book inflates its schedule, and keeps nothing. -/
theorem deliver_takes {spine : List SpineEntry}
    (hfound : ∀ chapter ∈ spine, book.ChapterFound chapter) :
    Takes (π := π) book.entries (Holding ∅) (deliver crates client limits archive book spine)
      (book.fetches limits spine) (fun _ => Holding ∅) := by
  obtain ⟨source, hsource, hnavigation⟩ := Book.navigationSource_ok book
  obtain ⟨info, hinfo, -⟩ := Book.info_ok hnavigation spine
  have hnavigated : book.navigated = source := by rw [Book.navigated, hsource]
  unfold deliver
  refine takes_ofExcept hsource (takes_ofExcept hinfo ?_)
  refine takes_silent (emit_takes _ _ _) fun _ => ?_
  refine takes_ofExcept (Book.chapterEntries_total hfound) ?_
  refine .get_bind fun s₀ hs₀ => ?_
  refine takes_counted (Book.plan_overflow _ _ _ _) fun plan hplan => ?_
  have hpending : Book.archiveOrder plan.pending = book.resources limits spine := by
    rw [Book.plan_ok hplan]
    rfl
  refine takes_silent (Q := fun _ => Holding ∅) (.set ?_) fun _ => ?_
  · rintro s rfl
    exact ⟨rfl, hs₀⟩
  rw [hpending]
  change Takes book.entries (Holding ∅)
    (navigationPass crates client limits archive book (book.willEmit limits spine) source >>= _)
    _ _
  unfold Book.fetches Book.uses Book.aheadUses
  rw [hnavigated, List.append_assoc, fetched_append]
  refine takes_bind (navigationPass_takes hnavigation _ ∅) fun _ => ?_
  refine takes_ofExcept Book.overlayLinks_total ?_
  rw [fetched_append]
  refine takes_bind (overlayPass_takes _ _) fun _ => ?_
  have hleft : left ∅ (book.uses limits spine) = ∅ := Book.left_uses
  unfold Book.uses Book.aheadUses at hleft
  rw [hnavigated, List.append_assoc, left_append, left_append] at hleft
  rw [← List.append_nil (fetched (left (left ∅ _) _) _)]
  exact takes_bind (walk_takes _ hfound (stored_resources limits spine) hleft)
    fun r => .pure fun s hs => hs

theorem trailer_takes (done : Done) :
    Takes (π := π) entries (Holding ∅) (trailer client done) [] (fun _ => Holding ∅) :=
  .get_bind fun _ hs₀ => (emit_takes _ _ ∅).weaken (fun _ hs => hs ▸ hs₀) (fun _ _ hq => hq)
    fun _ _ he => he

/-- Up to the package document, of which so far only the entries are known. -/
theorem readBook_takes {scan : Scan} (hscan : scan.entries = book.entries) :
    Takes (π := π) book.entries (Holding ∅) (readBook crates limits archive scan)
      (book.prologue crates archive) (fun b s => b.entries = book.entries ∧ Holding ∅ s) := by
  unfold readBook Book.prologue
  dsimp only
  rw [hscan, List.append_assoc, List.append_assoc,
    show Extract.indexOf book.entries = book.index from rfl]
  refine takes_silent (Q := fun _ => Holding ∅) (.modify fun s hs => ⟨rfl, hs⟩) fun _ => ?_
  refine takes_bind (Q := fun _ => Holding ∅) ?_ fun obfuscated => ?_
  · unfold encryptionPolicy
    cases hget : book.index.get encryptionPath with
    | none => exact .pure fun s hs => hs
    | some position =>
        refine takes_nth (position_lt hget) ?_
        rw [Option.toList_some, ← List.append_nil [position]]
        refine takes_bind (readAt_takes ∅) fun descriptor => .assuming fun _ => ?_
        rw [← bind_pure (orFail _)]
        exact takes_orFail fun obfuscated _ => .pure fun s hs => hs
  -- Holding ∅) ?_ fun declared => the marker, if there is one
  refine takes_bind (Q := fun _ => Holding ∅) ?_ fun declared => ?_
  · unfold readNamed
    cases hget : book.index.get mimetypePath with
    | none => exact .pure fun s hs => hs
    | some position =>
        refine takes_nth (position_lt hget) ?_
        rw [Option.toList_some, ← List.append_nil [position]]
        exact takes_bind (readEntry_takes ∅) fun bytes => .pure fun s hs => hs.2
  -- the container is in the archive, or the call is refused
  unfold findContainer
  cases hcontainer : book.index.get containerPath with
  | none => exact .throw fun _ _ => .failed _
  | some container =>
      refine takes_silent (Q := fun position s => position = container ∧ Holding ∅ s) ?_
        fun position => .assuming fun hposition => ?_
      · dsimp only
        split
        · exact takes_silent (warn_takes _ _ _ _) fun _ => .pure fun s hs => ⟨rfl, hs⟩
        · exact .pure fun s hs => ⟨rfl, hs⟩
      subst hposition
      refine takes_nth (position_lt hcontainer) ?_
      refine takes_bind (readAt_takes ∅) fun containerBytes => .assuming fun hbytes => ?_
      subst hbytes
      refine takes_orFail fun root hroot => ?_
      obtain ⟨opfPath, opf⟩ := root
      have hopf : book.opfPosition crates archive position = some opf := by
        have hcontent : book.content archive position =
            archive.inflated (book.entries.getD position default) := rfl
        rw [Book.opfPosition, hcontent, hroot]
      rw [Option.bind_some, hopf, Option.toList_some, ← List.append_nil [opf]]
      refine takes_nth (rootfile_lt hroot) ?_
      refine takes_bind (readAt_takes ∅) fun opfBytes => .assuming fun _ => ?_
      exact takes_orFail fun package _ => .pure fun s hs => ⟨rfl, hs⟩

/-- With a package document behind it, the first half returns the book. -/
theorem readBook_book {bytes : Bytes} (h : Packaged crates limits bytes archive book) {scan : Scan}
    (hscan : scan.entries = book.entries) :
    Takes (π := π) book.entries (Holding ∅) (readBook crates limits archive scan)
      (book.prologue crates archive) (fun b s => b = book ∧ Holding ∅ s) := by
  have hreturns := readBook_inflates (π := π) h hscan
  intro s hs
  have htakes := @readBook_takes π crates limits archive book scan hscan s hs
  rcases hexec : (readBook crates limits archive scan).exec s with ⟨e | b, s'⟩
  · rw [hexec] at htakes
    exact htakes
  · rw [hexec] at htakes
    exact ⟨htakes.1, (hreturns.of_ok hs hexec).2⟩

end Parse

/-! ## Whole calls

From the start of a call, whoever the client is. -/

section Run

variable {π : Projection} {crates : Crates} {limits : Effective} {bytes : Bytes}
  {archive : MemoryArchive} {book : Book} {spine : List SpineEntry}

theorem holding_start (fold : Option π.State) :
    Parse.Holding ∅ { Call.start π limits with fold } := fun k => by simp [Call.start]

/-- What a call with a book does once its archive is scanned. -/
theorem prepared_takes (h : Prepared crates limits bytes archive book spine) {scan : Scan}
    (hscan : scan.entries = book.entries) (client : Nat → Bool) :
    Parse.Takes (π := π) book.entries (Parse.Holding ∅)
      (Parse.readBook crates limits archive scan >>= fun b =>
        Eff.ofExcept (b.resolveSpine b.package.spine) >>= fun spine =>
          Parse.deliver crates client limits archive b spine >>= fun done =>
            Parse.trailer client done)
      (book.schedule crates limits archive spine) (fun _ => Parse.Holding ∅) := by
  unfold Book.schedule
  refine Parse.takes_bind (Parse.readBook_book h.packaged hscan) fun b => .assuming fun hb => ?_
  subst hb
  refine Parse.takes_ofExcept h.spine ?_
  rw [← List.append_nil (Book.fetches ..)]
  exact Parse.takes_bind (Parse.deliver_takes (Book.resolveSpine_ok h.spine).2)
    fun done => Parse.trailer_takes done

/-- A call has inflated the first entries of its schedule, and all of them when it completes;
then it keeps none of them. -/
theorem run_inflated (h : Prepared crates limits bytes archive book spine) (client : Nat → Bool) :
    (run π crates limits bytes client).2.inflated <+:
        (book.schedule crates limits archive spine).map (book.entries.getD · default) ∧
      ((run π crates limits bytes client).1 = .complete →
        (run π crates limits bytes client).2.inflated =
            (book.schedule crates limits archive spine).map (book.entries.getD · default) ∧
          (run π crates limits bytes client).2.preread.entries = []) := by
  obtain ⟨scan, hscan, hentries⟩ := h.scanned
  have htakes := prepared_takes (π := π) h hentries client
  have hstart := @holding_start π limits ((Call.start π limits).fold.map
    (π.setSourceHash (sourceHash bytes)))
  unfold run
  rw [parse_exec h.packaged hscan]
  generalize hexec : Eff.exec _ _ = out
  obtain ⟨e | done, s⟩ := out
  · obtain ⟨⟨taken, htaken, hout⟩, -⟩ := htakes.of_error hstart hexec
    refine ⟨?_, fun hc => absurd hc (Outcome.of_ne_complete e)⟩
    rw [show s.inflated = taken from hout]
    exact htaken
  · obtain ⟨hout, hs⟩ := htakes.of_ok hstart hexec
    refine ⟨?_, fun _ => ⟨hout, hs.nothing⟩⟩
    rw [show s.inflated = _ from hout]
    exact List.prefix_rfl

/-- No call ends in a failed assertion. -/
theorem run_unasserted (client : Nat → Bool) {e : Abort} {call : Call π}
    (h : (Parse.parse crates client limits bytes).exec (.start π limits) = (.error e, call)) :
    e.Unasserted := by
  have hstart := @holding_start π limits ((Call.start π limits).fold.map
    (π.setSourceHash (sourceHash bytes)))
  simp only [Parse.parse, Eff.exec_bind, Eff.exec_modify] at h
  cases hopen : Archive.openArchive crates.zipNew bytes limits with
  | error status =>
      simp only [hopen, Parse.orFail, Eff.exec_throw] at h
      obtain rfl := Except.error.inj (Prod.mk.inj h).1
      exact .failed status
  | ok archive =>
  simp only [hopen, Parse.orFail, Eff.exec_pure] at h
  cases hscan : Archive.scan archive with
  | error status =>
      simp only [hscan, Eff.exec_throw] at h
      obtain rfl := Except.error.inj (Prod.mk.inj h).1
      exact .failed status
  | ok scan =>
  simp only [hscan, Eff.exec_pure] at h
  have hread := @Parse.readBook_takes π crates limits archive
    ⟨scan.entries, [], [], {}⟩ scan rfl
  rcases hexec : (Parse.readBook crates limits archive scan).exec _ with ⟨e' | b, s₁⟩
  · rw [hexec] at h
    obtain rfl := Except.error.inj (Prod.mk.inj h).1
    exact (hread.of_error hstart hexec).2
  obtain ⟨-, hb, hs₁⟩ := hread.of_ok hstart hexec
  simp only [hexec, Eff.exec_ofExcept] at h
  cases hspine : b.resolveSpine b.package.spine with
  | error e' =>
      rw [hspine] at h
      obtain rfl := Except.error.inj (Prod.mk.inj h).1
      exact Book.resolveSpine_unasserted hspine
  | ok spine =>
  simp only [hspine] at h
  have hdeliver := @Parse.deliver_takes π crates client limits archive b spine
    (Book.resolveSpine_ok hspine).2
  rcases hexec' : (Parse.deliver crates client limits archive b spine).exec s₁ with ⟨e' | done, s₂⟩
  · rw [hexec'] at h
    obtain rfl := Except.error.inj (Prod.mk.inj h).1
    exact (hdeliver.of_error hs₁ hexec').2
  · rw [hexec'] at h
    exact ((@Parse.trailer_takes π client b.entries done).of_error
      (hdeliver.of_ok hs₁ hexec').2 h).2

/-- What the assertions of the driver come to, in one call. -/
structure Asserted (π : Projection) (crates : Crates) (limits : Effective) (bytes : Bytes)
    (client : Nat → Bool) : Prop where
  /-- No index, no `expect` and no assertion fails: a panic is that of a full counter. -/
  panics : ∀ p, (run π crates limits bytes client).1 = .panicked p → p = .overflow
  /-- Each chapter is read from an item that the archive has. -/
  held : ∀ archive book spine, Prepared crates limits bytes archive book spine →
    ∀ chapter ∈ spine, ∃ entry, (book.item chapter.source).entry = some entry ∧
      entry < book.entries.length
  /-- Whenever the walk is through, nothing is kept. -/
  handedBack : ∀ archive book spine, Prepared crates limits bytes archive book spine →
    ∀ (s s' : Call π) done, s.preread.entries = [] →
      (Parse.deliver crates client limits archive book spine).exec s = (.ok done, s') →
      s'.preread.entries = []

theorem Parse.holding_of_empty {s : Call π} (h : s.preread.entries = []) : Parse.Holding ∅ s := by
  have hempty : s.preread = ∅ := AList.ext h
  intro k
  rw [hempty]
  simp

/-- Whatever the upload, the options and the client are. -/
theorem no_assertion_fails (π : Projection) (crates : Crates) (limits : Effective) (bytes : Bytes)
    (client : Nat → Bool) : Asserted π crates limits bytes client where
  panics := by
    intro p hp
    rcases hexec : (Parse.parse crates client limits bytes).exec (.start π limits) with ⟨e | ⟨⟩, s⟩
    · have hout : Outcome.of (.error e) = .panicked p := by
        rw [← hp, run, hexec]
      have hunasserted := run_unasserted client hexec
      cases e with
      | gone => cases hout
      | failed status => cases hout
      | panicked p' =>
          obtain rfl := Outcome.panicked.inj hout
          exact hunasserted p' rfl
    · rw [run, hexec] at hp
      cases hp
  held := by
    intro archive book spine h chapter hchapter
    have hfound := (Book.resolveSpine_ok h.spine).2 chapter hchapter
    exact ⟨_, hfound.entry, Book.entry_lt hfound.entry⟩
  handedBack := by
    intro archive book spine h s s' done hs hexec
    have hfound := (Book.resolveSpine_ok h.spine).2
    exact ((Parse.deliver_takes hfound).of_ok (Parse.holding_of_empty hs) hexec).2.nothing

end Run

end GrpcEpub
