/-
# `GrpcEpub.Absent` — links that are not there

An attribute that is missing reads as the empty text, and so does a missing id; the id index
finds the first item that has none.  The fallback chain asks first whether there is a link.
The overlays, the table of contents and the spine do not, so an absent link of theirs leads to
that item.

`LinksByName` is what one would expect of the links of a package: each leads from a name to the
item that has it.  Under `Guarded` that is so, and without it there is a link that nobody wrote.
Only one item can be reached in this way, the first of the manifest that has no id.
-/
import GrpcEpub.Fallbacks
import GrpcEpub.Schedule
import GrpcEpub.Verbatim

namespace GrpcEpub

namespace Book

open Extract

/-- Everything that is linked, is linked by name. -/
structure LinksByName (book : Book) : Prop where
  overlays : ∀ pairs, book.overlayLinks = .ok pairs → ∀ pair ∈ pairs,
    (book.item pair.1).item.mediaOverlay ≠ [] ∧
      (book.item pair.2).item.id = (book.item pair.1).item.mediaOverlay
  ncx : ∀ source, book.navigationSource = .ok (some source) → source.fromNcx = true →
    book.package.tocIdref ≠ [] ∧ (book.item source.position).item.id = book.package.tocIdref
  spine : ∀ itemref ∈ book.package.spine, ∀ entry, book.resolveItemref itemref = .ok entry →
    itemref.idref ≠ [] ∧ (book.item entry.primary).item.id = itemref.idref ∧
      (book.item entry.source).item.id ≠ []
  unlinked : ∀ pairs, book.overlayLinks = .ok pairs → ∀ position,
    (book.item position).item.mediaOverlay = [] → book.overlayHref pairs position = .ok []
  chapters : ∀ archive visit, (book.item visit.1.source).item.mediaOverlay = [] →
    (book.item visit.1.primary).item.mediaOverlay = [] →
      (Script.chapterMessage archive book visit).mediaOverlayHref = []

/-- Whether the archive has the navigation document of EPUB 3. -/
def navHeld (book : Book) : Prop :=
  ∃ position, book.resolved.findIdx? (fun target => "nav".toList ∈ target.item.properties) =
    some position ∧ book.held position = true

/-- No absent link leads to the first item without an id: not from an overlay, not from the
spine's `toc`, and not from an itemref. -/
structure Guarded (book : Book) (nameless : Nat) : Prop where
  overlays : (book.item nameless).unusable.isSome ∨
    ∀ item ∈ book.package.manifest, item.mediaOverlay ≠ []
  ncx : book.package.tocIdref ≠ [] ∨ book.navHeld ∨ (book.item nameless).entry = none
  spine : (∀ itemref ∈ book.package.spine, itemref.idref ≠ []) ∨
    ∀ source, book.chapterSource nameless = .ok (some source) →
      ∃ entry ∈ (book.item source).entry, entry ∈ book.obfuscated

variable {book : Book}

/-! ## What the id index finds

The index keeps the first position of each id, and a missing id is the empty one. -/

theorem item_of_manifest {position : Nat} {declared : ManifestItem}
    (h : book.package.manifest[position]? = some declared) :
    (book.item position).item = declared := by
  have hitem : book.item position = resolveItem book.index book.opfDir declared := by
    rw [item, resolved, List.getD_eq_getElem?_getD, List.getElem?_map, h]
    rfl
  rw [hitem, Verbatim.resolveItem_item]

/-- The item found has the id. -/
theorem byId_id {id : Str} {position : Nat} (h : book.byId.get id = some position) :
    (book.item position).item.id = id := by
  rw [byId, idPositions_get] at h
  obtain ⟨hrange, hid, -⟩ := List.findIdx?_eq_some_iff_getElem.mp h
  rw [item_of_manifest (List.getElem?_eq_getElem hrange)]
  exact beq_iff_eq.mp hid

/-- What the links of the manifest are: an item, and the first item that has the id it names. -/
theorem mem_links {pair : Nat × Nat} : pair ∈ book.links ↔ pair.1 < book.resolved.length ∧
    book.byId.get (book.item pair.1).item.mediaOverlay = some pair.2 ∧
      (book.item pair.2).unusable = none := by
  unfold links
  rw [List.mem_filterMap]
  constructor
  · rintro ⟨⟨target, position⟩, hmem, heq⟩
    have hget := List.mem_zipIdx_iff_getElem?.mp hmem
    revert heq
    dsimp only
    cases hlink : book.byId.get target.item.mediaOverlay with
    | none => exact fun heq => absurd heq.symm (Option.some_ne_none pair)
    | some overlay =>
        intro heq
        obtain ⟨husable, hpair⟩ := Option.ite_none_right_eq_some.mp heq
        obtain rfl := Option.some.inj hpair
        have hitem : book.item position = target := by
          rw [item, List.getD_eq_getElem?_getD, hget, Option.getD_some]
        exact ⟨(List.getElem?_eq_some_iff.mp hget).1, hitem ▸ hlink,
          Option.isNone_iff_eq_none.mp husable⟩
  · rintro ⟨hlt, hlink, husable⟩
    have hget : book.resolved[pair.1]? = some (book.item pair.1) := nth_ok (nth_item hlt)
    refine ⟨(book.item pair.1, pair.1), List.mem_zipIdx_iff_getElem?.mpr hget, ?_⟩
    dsimp only
    rw [hlink]
    exact if_pos (Option.isNone_iff_eq_none.mpr husable)

/-- An itemref is resolved when its idref is found, its chapter has a source, and that source has an
entry which is not obfuscated. -/
theorem resolveItemref_iff {itemref : SpineItem} {chapter : SpineEntry} :
    book.resolveItemref itemref = .ok chapter ↔ chapter.itemref = itemref ∧
      book.byId.get itemref.idref = some chapter.primary ∧
      book.chapterSource chapter.primary = .ok (some chapter.source) ∧
      ∃ entry, (book.item chapter.source).entry = some entry ∧ entry ∉ book.obfuscated := by
  unfold resolveItemref
  cases hget : book.byId.get itemref.idref with
  | none => simp
  | some position =>
      dsimp only
      constructor
      · intro h
        obtain ⟨found, hsource, h⟩ := Except.bind_ok h
        cases found with
        | none =>
            obtain ⟨target, -, h⟩ := Except.bind_ok h
            cases h
        | some source =>
            obtain ⟨target, hnth, h⟩ := Except.bind_ok h
            obtain ⟨entry, hentry, h⟩ := Except.bind_ok h
            split at h
            · cases h
            · rename_i hplain
              cases h
              exact ⟨rfl, rfl, hsource, entry, by rw [item_of_nth hnth, expect_ok hentry], hplain⟩
      · obtain ⟨primary, source, itemref'⟩ := chapter
        rintro ⟨rfl, hposition, hsource, entry, hentry, hplain⟩
        obtain rfl := Option.some.inj hposition
        have hlt : source < book.resolved.length := by
          by_contra hge
          have hdefault : book.item source = default := by
            rw [item, List.getD_eq_getElem?_getD, List.getElem?_eq_none (by omega)]
            rfl
          rw [hdefault] at hentry
          cases hentry
        rw [hsource]
        change (nth book.resolved source >>= _) = _
        rw [nth_item hlt]
        change (expect (book.item source).entry >>= _) = _
        rw [hentry]
        exact if_neg hplain

/-- The navigation document is the one of EPUB 3 when the archive has it. -/
theorem navDocument_held_iff : (∃ source, book.navDocument = .ok (some source)) ↔ book.navHeld := by
  unfold navDocument navHeld
  cases hfind : book.resolved.findIdx? (fun target => "nav".toList ∈ target.item.properties) with
  | none =>
      refine iff_of_false ?_ ?_
      · rintro ⟨source, h⟩
        cases h
      · rintro ⟨position, h, -⟩
        cases h
  | some position =>
      have hlt := (List.findIdx?_eq_some_iff_findIdx_eq.mp hfind).1
      dsimp only
      rw [nth_item hlt]
      constructor
      · rintro ⟨source, h⟩
        obtain ⟨entry, hentry, -⟩ := Option.map_eq_some_iff.mp (Except.ok.inj h)
        exact ⟨position, rfl, by rw [held, hentry]; rfl⟩
      · rintro ⟨position', hposition, hheld⟩
        obtain rfl := Option.some.inj hposition
        obtain ⟨entry, hentry⟩ := Option.isSome_iff_exists.mp hheld
        exact ⟨⟨position, entry, false⟩, by
          change Except.ok ((book.item position).entry.map _) = _
          rw [hentry]
          rfl⟩

/-- A fallback is linked by name. -/
theorem fallback_named {position next : Nat} (h : book.fallback position = some next) :
    (book.item next).item.id ≠ [] := by
  unfold fallback at h
  split at h
  · cases h
  · rename_i hfallback
    rw [byId_id h]
    exact hfallback

/-- The source of a chapter has an id when the spine item has one. -/
theorem chapterSource_named {primary source : Nat} (hprimary : primary < book.resolved.length)
    (h : book.chapterSource primary = .ok (some source)) (hid : (book.item primary).item.id ≠ []) :
    (book.item source).item.id ≠ [] := by
  have hchain : book.Chain primary (trail book.fallback primary [primary] (maxFallbackChain - 1)) :=
    trail_isTrail book.fallback (maxFallbackChain - 1) primary
  rw [chapterSource_eq hprimary hchain, Except.ok.injEq] at h
  rcases hchain.next_or_start (sourceOf_held h).1 with rfl | ⟨before, -, hnext⟩
  · exact hid
  · exact fallback_named hnext

/-- An NCX is what the spine's `toc` names, when the archive has it and no other document. -/
theorem navigationSource_ncx_iff {source : NavigationSource} :
    book.navigationSource = .ok (some source) ∧ source.fromNcx = true ↔ ¬ book.navHeld ∧
      source.fromNcx = true ∧ book.byId.get book.package.tocIdref = some source.position ∧
        (book.item source.position).entry = some source.entry := by
  obtain ⟨nav, hnav, hfound⟩ := navDocument_ok book
  have hheld := @navDocument_held_iff book
  rw [hnav] at hheld
  unfold navigationSource
  rw [hnav]
  cases nav with
  | some found =>
      refine iff_of_false ?_ fun h => h.1 (hheld.mp ⟨found, rfl⟩)
      rintro ⟨h, hncx⟩
      obtain rfl := Option.some.inj (Except.ok.inj h)
      exact Bool.false_ne_true ((hfound found rfl).2.symm.trans hncx)
  | none =>
      have hnone : ¬ book.navHeld := fun h => by
        obtain ⟨found, hok⟩ := hheld.mpr h
        cases hok
      change book.ncxDocument = _ ∧ _ ↔ _
      unfold ncxDocument
      cases hget : book.byId.get book.package.tocIdref with
      | none =>
          refine iff_of_false ?_ ?_
          · rintro ⟨h, -⟩
            cases h
          · rintro ⟨-, -, h, -⟩
            cases h
      | some position =>
          dsimp only
          rw [nth_item (byId_lt hget)]
          change Except.ok ((book.item position).entry.map _) = _ ∧ _ ↔ _
          constructor
          · rintro ⟨h, hncx⟩
            obtain ⟨entry, hentry, rfl⟩ := Option.map_eq_some_iff.mp (Except.ok.inj h)
            exact ⟨hnone, rfl, rfl, hentry⟩
          · obtain ⟨position', entry, fromNcx⟩ := source
            rintro ⟨-, rfl, hposition, hentry⟩
            obtain rfl := Option.some.inj hposition
            have hentry' : (book.item position).entry = some entry := hentry
            rw [hentry']
            exact ⟨rfl, rfl⟩

/-! ## When everything is linked by name

The three kinds of links, each against its own condition. -/

/-- Items that are never named link nothing. -/
theorem overlayHref_unlinked {position : Nat}
    (hnamed : ∀ pair ∈ book.links, (book.item pair.1).item.mediaOverlay ≠ [])
    (hnone : (book.item position).item.mediaOverlay = []) : book.overlayPath position = [] := by
  unfold overlayPath
  generalize hfind : List.find? _ book.links = found
  cases found with
  | none => rfl
  | some pair =>
      have howner := List.find?_some hfind
      dsimp only at howner
      rw [← beq_iff_eq.mp howner] at hnone
      exact absurd hnone (hnamed pair (List.mem_of_find?_eq_some hfind))

/-- No overlay is linked by an absent name: either the item without an id is of no use, or no item
leaves its overlay out. -/
theorem links_guarded_iff {nameless : Nat} (h : book.byId.get [] = some nameless) :
    (∀ pair ∈ book.links, (book.item pair.1).item.mediaOverlay ≠ []) ↔
      (book.item nameless).unusable.isSome ∨
        ∀ item ∈ book.package.manifest, item.mediaOverlay ≠ [] := by
  constructor
  · intro hnamed
    by_contra hnot
    obtain ⟨husable, hsome⟩ := not_or.mp hnot
    push Not at hsome
    obtain ⟨declared, hin, hnone⟩ := hsome
    obtain ⟨position, hposition⟩ := List.getElem?_of_mem hin
    have hlt := (List.getElem?_eq_some_iff.mp hposition).1
    rw [← length_resolved] at hlt
    have hitem : (book.item position).item.mediaOverlay = [] := by
      rw [item_of_manifest hposition]
      exact hnone
    refine hnamed (position, nameless) (mem_links.mpr ⟨hlt, ?_, ?_⟩) hitem
    · rw [hitem]
      exact h
    · simpa using husable
  · rintro hor pair hpair hnone
    obtain ⟨hlt, hlink, husable⟩ := mem_links.mp hpair
    rcases hor with hunusable | hall
    · rw [hnone, h] at hlink
      obtain rfl := Option.some.inj hlink
      rw [husable] at hunusable
      cases hunusable
    · rw [length_resolved] at hlt
      have hget := List.getElem?_eq_getElem hlt
      rw [item_of_manifest hget] at hnone
      exact hall _ (List.mem_of_getElem? hget) hnone

/-- The same of the table of contents. -/
theorem ncx_guarded_iff {nameless : Nat} (h : book.byId.get [] = some nameless) :
    (∀ source, book.navigationSource = .ok (some source) → source.fromNcx = true →
      book.package.tocIdref ≠ []) ↔
        book.package.tocIdref ≠ [] ∨ book.navHeld ∨ (book.item nameless).entry = none := by
  constructor
  · intro hnamed
    by_contra hnot
    obtain ⟨htoc, hnot⟩ := not_or.mp hnot
    obtain ⟨hnav, hentry⟩ := not_or.mp hnot
    rw [not_not] at htoc
    obtain ⟨entry, hentry⟩ := Option.ne_none_iff_exists'.mp hentry
    obtain ⟨hok, hncx⟩ := (@navigationSource_ncx_iff book ⟨nameless, entry, true⟩).mpr
      ⟨hnav, rfl, htoc ▸ h, hentry⟩
    exact hnamed _ hok hncx htoc
  · rintro hor source hok hncx htoc
    obtain ⟨hnav, -, hget, hentry⟩ := navigationSource_ncx_iff.mp ⟨hok, hncx⟩
    rw [htoc, h] at hget
    obtain hposition := Option.some.inj hget
    rcases hor with hnamed | hheld | hnone
    · exact hnamed htoc
    · exact hnav hheld
    · rw [← hposition, hnone] at hentry
      cases hentry

/-- The same of an itemref, for which the item without an id has to be readable as a chapter. -/
theorem spine_guarded_iff {nameless : Nat} (h : book.byId.get [] = some nameless) :
    (∀ itemref ∈ book.package.spine, ∀ entry, book.resolveItemref itemref = .ok entry →
      itemref.idref ≠ []) ↔
        (∀ itemref ∈ book.package.spine, itemref.idref ≠ []) ∨
          ∀ source, book.chapterSource nameless = .ok (some source) →
            ∃ entry ∈ (book.item source).entry, entry ∈ book.obfuscated := by
  constructor
  · intro hnamed
    by_contra hnot
    obtain ⟨hidref, hsource⟩ := not_or.mp hnot
    push Not at hidref hsource
    obtain ⟨itemref, hin, hidref⟩ := hidref
    obtain ⟨source, hsource, hplain⟩ := hsource
    have hchain : book.Chain nameless
        (trail book.fallback nameless [nameless] (maxFallbackChain - 1)) :=
      trail_isTrail book.fallback (maxFallbackChain - 1) nameless
    have hchosen := (chapterSource_eq (byId_lt h) hchain).symm.trans hsource
    obtain ⟨entry, hentry⟩ := Option.isSome_iff_exists.mp
      (sourceOf_held (Except.ok.inj hchosen)).2
    refine hnamed itemref hin ⟨nameless, source, itemref⟩ (resolveItemref_iff.mpr ?_) hidref
    exact ⟨rfl, hidref ▸ h, hsource, entry, hentry, hplain entry hentry⟩
  · rintro hor itemref hin entry hok hidref
    obtain ⟨-, hget, hsource, stored, hstored, hplain⟩ := resolveItemref_iff.mp hok
    rw [hidref, h] at hget
    obtain hposition := Option.some.inj hget
    rcases hor with hnamed | hlisted
    · exact hnamed itemref hin hidref
    · obtain ⟨other, hother, hin⟩ := hlisted entry.source (hposition ▸ hsource)
      obtain rfl := Option.some.inj (hstored.symm.trans hother)
      exact hplain hin

/-- Everything is linked by name if and only if every item has an id, or no absent link leads
to the first that has none. -/
theorem links_by_name_iff (book : Book) : book.LinksByName ↔
    ∀ nameless, book.package.manifest.findIdx? (fun item => item.id == []) = some nameless →
      book.Guarded nameless := by
  have hbyId : book.byId.get [] = book.package.manifest.findIdx? (fun item => item.id == []) :=
    idPositions_get _ _
  rw [← hbyId]
  constructor
  · intro hlinks nameless hnameless
    refine ⟨(links_guarded_iff hnameless).mp fun pair hpair => ?_,
      (ncx_guarded_iff hnameless).mp fun source hok hncx => ?_,
      (spine_guarded_iff hnameless).mp fun itemref hin entry hok => ?_⟩
    · exact (hlinks.overlays _ overlayLinks_total pair hpair).1
    · exact (hlinks.ncx source hok hncx).1
    · exact (hlinks.spine itemref hin entry hok).1
  · intro hguarded
    -- without an item to find, an absent link finds nothing
    have hsome {id : Str} {position : Nat} (hget : book.byId.get id = some position) (hid : id = []) :
        book.Guarded position ∧ book.byId.get [] = some position :=
      ⟨hguarded position (hid ▸ hget), hid ▸ hget⟩
    have hoverlays : ∀ pair ∈ book.links, (book.item pair.1).item.mediaOverlay ≠ [] := by
      intro pair hpair hnone
      obtain ⟨hguard, hget⟩ := hsome (mem_links.mp hpair).2.1 hnone
      exact (links_guarded_iff hget).mpr hguard.overlays pair hpair hnone
    have hpaths (position : Nat) (hnone : (book.item position).item.mediaOverlay = []) :
        book.overlayPath position = [] := overlayHref_unlinked hoverlays hnone
    refine ⟨fun pairs hok pair hpair => ?_, fun source hok hncx => ?_,
      fun itemref hin entry hok => ?_, fun pairs hok position hnone => ?_,
      fun archive visit hsource hprimary => ?_⟩
    · obtain rfl := overlayLinks_ok hok
      exact ⟨hoverlays pair hpair, byId_id (mem_links.mp hpair).2.1⟩
    · have hget := (navigationSource_ncx_iff.mp ⟨hok, hncx⟩).2.2.1
      refine ⟨fun htoc => ?_, byId_id hget⟩
      obtain ⟨hguard, hget⟩ := hsome hget htoc
      exact (ncx_guarded_iff hget).mpr hguard.ncx source hok hncx htoc
    · obtain ⟨-, hget, hsource, -⟩ := resolveItemref_iff.mp hok
      have hidref : itemref.idref ≠ [] := fun hidref => by
        obtain ⟨hguard, hget⟩ := hsome hget hidref
        exact (spine_guarded_iff hget).mpr hguard.spine itemref hin entry hok hidref
      have hid := byId_id hget
      exact ⟨hidref, hid, chapterSource_named (byId_lt hget) hsource (hid ▸ hidref)⟩
    · obtain rfl := overlayLinks_ok hok
      rw [overlayHref_total, hpaths position hnone]
    · change (if book.overlayPath visit.1.source = [] then book.overlayPath visit.1.primary
        else book.overlayPath visit.1.source) = []
      rw [hpaths _ hsource, hpaths _ hprimary, if_pos rfl]

/-! ## A style sheet without an id

Links that nobody wrote, in a package of two items: both items are narrated by the style sheet,
and the style sheet is the table of contents. -/

/-- A chapter without an overlay, and a style sheet without an id. -/
def unnamed : Book where
  entries := [⟨0, "one.xhtml", 1, 1⟩, ⟨1, "style.css", 1, 1⟩]
  obfuscated := []
  opfPath := "p.opf"
  package :=
    { manifest := [page "one" "one.xhtml" "application/xhtml+xml" [], page [] "style.css" "text/css" []]
      spine := [⟨"one", true⟩] }

/-- The style sheet is the chapter's overlay, and the table of contents. -/
theorem style_sheet_linked : unnamed.overlayLinks = .ok [(0, 1), (1, 1)] ∧
    unnamed.overlayHref [(0, 1), (1, 1)] 0 = .ok "style.css" ∧
    unnamed.navigationSource = .ok (some ⟨1, 1, true⟩) ∧ ¬ unnamed.LinksByName := by
  have hlinks : unnamed.overlayLinks = .ok [(0, 1), (1, 1)] := by decide +kernel
  refine ⟨hlinks, by decide +kernel, by decide +kernel, fun h => ?_⟩
  exact (h.overlays _ hlinks (0, 1) (.head _)).1 (by decide +kernel)

end Book

end GrpcEpub
