/-
# `GrpcEpub.Repacked` — packing order is irrelevant except to interleaving

What a call does with an archive in another order: it inflates the same entries
in another order, sends the same chapters and the same resources, and says the same
of them in its trailer.

What is inflated for the package document and for the navigation comes in the order of the call,
and only the resources, which the walk sends in archive order, change their places among the
other events.  The budget is a sum, so the order in which it is charged does not matter as long
as all of it fits (`spendAll_moved`).
-/
import GrpcEpub.Reordered
import GrpcEpub.Contract

namespace GrpcEpub

open Cache

namespace Book

variable {σ : Nat → Nat} {archive archive' : MemoryArchive} {entries' : List EntryInfo}
  {book : Book} {spine : List SpineEntry} {limits : Effective}

/-! ## The schedule

`fetches` lists what the second half of a call inflates: what is used ahead of the chapters, then
the chapters with the resources in between.  The uses move with the entries, and the entries that
are to be emitted are the moved ones up to their order. -/

section Moved

variable (h : Reordered σ archive archive' book.entries entries')
include h

theorem willEmit_moved (hspine : ∀ chapter ∈ spine, book.ChapterFound chapter) :
    ((book.moved σ entries').willEmit limits spine).Perm
      ((book.willEmit limits spine).map σ) := by
  unfold willEmit
  rw [chapterEntries_moved h hspine, List.map_append, List.map_map]
  refine List.Perm.append_left _ (((resources_moved h limits hspine).map Prod.fst).trans ?_)
  rw [List.map_map, List.map_map]
  exact .refl _

omit h in
/-- The navigation document is used the same way. -/
theorem navigationUses_moved {willEmit willEmit' : List Nat}
    (hwill : ∀ k, σ k ∈ willEmit' ↔ k ∈ willEmit) (source : Option NavigationSource) :
    navigationUses limits (source.map (NavigationSource.moved σ)) willEmit' =
      (navigationUses limits source willEmit).map (Use.map σ) := by
  unfold navigationUses
  cases limits.parseNavigation with
  | false => rfl
  | true =>
      cases source with
      | none => rfl
      | some source =>
          simp only [Option.map_some, NavigationSource.moved, List.map_cons, List.map_nil, Use.map,
            hwill]

/-- By induction on the pairs: the same overlays, wherever they are. -/
theorem overlayUses_moved {willEmit willEmit' : List Nat}
    (hwill : ∀ k, σ k ∈ willEmit' ↔ k ∈ willEmit) (pairs : List (Nat × Nat)) :
    (book.moved σ entries').overlayUses willEmit' pairs =
      (book.overlayUses willEmit pairs).map (Use.map σ) := by
  induction pairs with
  | nil => rfl
  | cons pair rest ih =>
      have hrest : rest.filterMap (book.moved σ entries').overlayEntry =
          (rest.filterMap book.overlayEntry).map σ := by
        rw [List.map_filterMap]
        exact List.filterMap_congr fun pair _ => overlayEntry_moved h pair
      have hmem : ∀ k, σ k ∈ rest.filterMap (book.moved σ entries').overlayEntry ↔
          k ∈ rest.filterMap book.overlayEntry := by
        intro k
        rw [hrest]
        exact List.mem_map_of_injective h.shuffles.injective
      unfold overlayUses
      rw [overlayEntry_moved h, ih]
      cases book.overlayEntry pair with
      | none => rfl
      | some entry => simp only [Option.map_some, List.map_cons, Use.map, hwill, hmem]

theorem navigated_moved :
    (book.moved σ entries').navigated = book.navigated.map (NavigationSource.moved σ) := by
  unfold navigated
  rw [navigationSource_moved h]
  cases book.navigationSource <;> rfl

theorem aheadUses_moved (hspine : ∀ chapter ∈ spine, book.ChapterFound chapter) :
    (book.moved σ entries').aheadUses limits spine =
      (book.aheadUses limits spine).map (Use.map σ) := by
  have hwill : ∀ k, σ k ∈ (book.moved σ entries').willEmit limits spine ↔
      k ∈ book.willEmit limits spine := by
    intro k
    rw [(willEmit_moved h hspine).mem_iff]
    exact List.mem_map_of_injective h.shuffles.injective
  unfold aheadUses
  rw [navigated_moved h, navigationUses_moved hwill, links_moved h, overlayUses_moved h hwill,
    List.map_append]
  split <;> rfl

/-- The same entries are inflated for the events, in another order. -/
theorem fetches_moved (hspine : ∀ chapter ∈ spine, book.ChapterFound chapter) :
    ((book.moved σ entries').fetches limits spine).Perm ((book.fetches limits spine).map σ) := by
  have hperm := @fetches_perm book limits spine
  have hperm' := @fetches_perm (book.moved σ entries') limits spine
  rw [aheadUses_moved h hspine, map_key_again, map_key] at hperm'
  have hemits : ((book.moved σ entries').willEmit limits spine).Perm
      ((book.willEmit limits spine).map σ) := willEmit_moved h hspine
  have hwill := hemits.append_left (((book.aheadUses limits spine).map Use.key).map σ)
  rw [← List.map_append] at hwill
  have hmoved := hperm.map σ
  rw [List.map_append] at hmoved
  exact (List.perm_append_right_iff _).mp ((hperm'.trans hwill).trans hmoved.symm)

end Moved

/-- Only entries of the archive are inflated. -/
theorem mem_fetches (hspine : ∀ chapter ∈ spine, book.ChapterFound chapter) {k : Nat}
    (hk : k ∈ book.fetches limits spine) : k < book.entries.length := by
  have hmem := (fetches_perm.mem_iff).mp (List.mem_append_left
    (((book.aheadUses limits spine).filter (·.again)).map Use.key) hk)
  have hoverlay : ∀ {willEmit : List Nat} {pairs : List (Nat × Nat)},
      ∀ use ∈ book.overlayUses willEmit pairs, use.key < book.entries.length := by
    intro willEmit pairs
    induction pairs with
    | nil => exact List.forall_mem_nil _
    | cons pair rest ih =>
        unfold overlayUses
        cases hentry : book.overlayEntry pair with
        | none => exact ih
        | some entry => exact List.forall_mem_cons.mpr ⟨entry_lt hentry, ih⟩
  have hnavigation : ∀ use ∈ navigationUses limits book.navigated (book.willEmit limits spine),
      use.key < book.entries.length := by
    obtain ⟨found, hfound, hsource⟩ := navigationSource_ok book
    have hnavigated : book.navigated = found := by rw [navigated, hfound]
    rw [hnavigated]
    unfold navigationUses
    split
    · rename_i source _ hparse
      exact List.forall_mem_singleton.mpr (entry_lt (hsource _ rfl).entry)
    · exact List.forall_mem_nil _
  rcases List.mem_append.mp hmem with hmem | hmem
  · obtain ⟨use, huse, rfl⟩ := List.mem_map.mp hmem
    unfold aheadUses at huse
    rcases List.mem_append.mp huse with huse | huse
    · exact hnavigation use huse
    · split at huse
      · exact hoverlay use huse
      · cases huse
  · rcases List.mem_append.mp hmem with hmem | hmem
    · obtain ⟨chapter, hchapter, rfl⟩ := List.mem_map.mp hmem
      exact entry_lt (hspine chapter hchapter).entry
    · obtain ⟨⟨entry, position⟩, hitem, rfl⟩ := List.mem_map.mp hmem
      exact entry_lt (mem_pendingItems.mp (mem_archiveOrder.mp hitem).1).present

/-! ## The package document

What is inflated before there is a book: the encryption document, the container and the package
document.  Each is looked up by a name, so the moved one is found. -/

section Moved

variable {crates : Crates} (h : Reordered σ archive archive' book.entries entries')
include h

/-- The container names the same package document. -/
theorem rootfile_moved (container : Bytes) :
    Parse.rootfile crates (book.moved σ entries').index container =
      (Parse.rootfile crates book.index container).map fun found => (found.1, σ found.2) := by
  unfold Parse.rootfile
  cases Opf.parseContainer (crates.strict container) with
  | error e => rfl
  | ok opfHref =>
      dsimp only
      cases Href.resolve [] opfHref with
      | error e => rfl
      | ok target =>
          cases target with
          | remote uri => rfl
          | entry opfPath =>
              dsimp only
              rw [Extract.lookup_moved (index_moved h)]
              cases Extract.lookup book.index opfPath [] opfHref <;> rfl

theorem opfPosition_moved {container : Nat} (hk : container < book.entries.length) :
    (book.moved σ entries').opfPosition crates archive' (σ container) =
      (book.opfPosition crates archive container).map σ := by
  unfold opfPosition
  rw [rootfile_moved h, content_moved h hk]
  cases Parse.rootfile crates book.index (book.content archive container) <;> rfl

theorem prologue_moved : (book.moved σ entries').prologue crates archive' =
    (book.prologue crates archive).map σ := by
  have hopf : ((book.moved σ entries').index.get containerPath).bind
        ((book.moved σ entries').opfPosition crates archive') =
      ((book.index.get containerPath).bind (book.opfPosition crates archive)).map σ := by
    rw [index_moved h]
    cases hget : book.index.get containerPath with
    | none => rfl
    | some container => exact opfPosition_moved h (Parse.position_lt hget)
  unfold prologue
  rw [hopf, index_moved h, index_moved h, index_moved h]
  simp only [Option.toList_map, List.map_append]

/-- All of a call's inflations, in the one archive and in the other. -/
theorem schedule_moved (hspine : ∀ chapter ∈ spine, book.ChapterFound chapter) :
    ((book.moved σ entries').schedule crates limits archive' spine).Perm
      ((book.schedule crates limits archive spine).map σ) := by
  unfold schedule
  rw [prologue_moved h, List.map_append]
  exact (fetches_moved h hspine).append_left _

/-- The counters of a call count items, not positions. -/
theorem counts_moved (hspine : ∀ chapter ∈ spine, book.ChapterFound chapter) :
    (book.moved σ entries').Counts limits spine ↔ book.Counts limits spine := by
  have hlength : ((book.moved σ entries').resources limits spine).length =
      (book.resources limits spine).length := by
    rw [(resources_moved h limits hspine).length_eq, List.length_map]
  have hskipped := skipped_moved h limits hspine
  constructor
  · rintro ⟨hchapters, hresources, hfits⟩
    exact ⟨hchapters, hlength ▸ hresources, hskipped ▸ hfits⟩
  · rintro ⟨hchapters, hresources, hfits⟩
    exact ⟨hchapters, hlength.symm ▸ hresources, hskipped.symm ▸ hfits⟩

end Moved

theorem mem_schedule {crates : Crates} (hspine : ∀ chapter ∈ spine, book.ChapterFound chapter)
    {k : Nat} (hk : k ∈ book.schedule crates limits archive spine) : k < book.entries.length :=
  (List.mem_append.mp hk).elim Parse.mem_prologue (mem_fetches hspine)

end Book

/-! ## Spending

An entry is opened or refused by its own record, and honest or not by its own content, so each
answer belongs to the moved position.  What a list of entries costs is a sum over it. -/

namespace Archive

variable {σ : Nat → Nat} {archive archive' : MemoryArchive} {entries entries' : List EntryInfo}
  {limits : Effective} {positions positions' : List Nat}

section Moved

variable (h : Reordered σ archive archive' entries entries')
include h

theorem sizeAt_moved {k : Nat} (hk : k < entries.length) :
    sizeAt archive' entries' (σ k) = sizeAt archive entries k :=
  congrArg List.length (inflated_congr (h.stored_getD hk))

theorem opens_moved {k : Nat} (hk : k < entries.length) :
    Opens archive' limits (entries'.getD (σ k) default) ↔
      Opens archive limits (entries.getD k default) := by
  unfold Opens
  simp only [inflate_congr (h.stored_getD hk)]

theorem honest_moved {k : Nat} (hk : k < entries.length) :
    Honest archive' limits (entries'.getD (σ k) default) ↔
      Honest archive limits (entries.getD k default) := by
  have hsize := sizeAt_moved h hk
  have hdeclared := congrArg Stored.declaredSize (h.stored_getD hk)
  unfold sizeAt at hsize
  unfold Honest
  rw [opens_moved h hk, hsize]
  exact imp_congr_right fun _ => ⟨fun heq => hdeclared.symm.trans heq, fun heq => hdeclared.trans heq⟩

variable (hrange : ∀ k ∈ positions, k < entries.length) (hperm : positions'.Perm (positions.map σ))
include hrange hperm

theorem sum_moved :
    (positions'.map (sizeAt archive' entries')).sum = (positions.map (sizeAt archive entries)).sum := by
  have hsizes : (positions.map σ).map (sizeAt archive' entries') =
      positions.map (sizeAt archive entries) := by
    rw [List.map_map]
    exact List.map_congr_left fun k hk => sizeAt_moved h (hrange k hk)
  rw [← hsizes]
  exact (hperm.map _).sum_eq

/-- A list of reads fits in a budget in any order. -/
theorem spendAll_moved (honest : ∀ k ∈ positions, Honest archive limits (entries.getD k default))
    {budget : Budget} (hconsumed : budget.consumed ≤ u64Max) (hentries : budget.entries ≤ u32Max) :
    (∃ done, spendAll archive' limits entries' budget positions' = .ok done) ↔
      ∃ done, spendAll archive limits entries budget positions = .ok done := by
  have honest' : ∀ k ∈ positions', Honest archive' limits (entries'.getD k default) := by
    intro k hk
    obtain ⟨j, hj, rfl⟩ := List.mem_map.mp (hperm.mem_iff.mp hk)
    exact (honest_moved h (hrange j hj)).mpr (honest j hj)
  have hopens : (∀ k ∈ positions', Opens archive' limits (entries'.getD k default)) ↔
      ∀ k ∈ positions, Opens archive limits (entries.getD k default) := by
    constructor
    · intro hall k hk
      exact (opens_moved h (hrange k hk)).mp
        (hall _ (hperm.mem_iff.mpr (List.mem_map_of_mem hk)))
    · intro hall k hk
      obtain ⟨j, hj, rfl⟩ := List.mem_map.mp (hperm.mem_iff.mp hk)
      exact (opens_moved h (hrange j hj)).mpr (hall j hj)
  rw [spendAll_iff honest' hconsumed hentries, spendAll_iff honest hconsumed hentries, hopens,
    sum_moved h hrange hperm, hperm.length_eq, List.length_map]

end Moved

end Archive

/-! ## The first half of a call

A call that has a book on one archive has the moved book on the other. -/

/-- What the first half of a call establishes, it establishes of the reordered book. -/
theorem Prepared.moved {crates : Crates} {limits : Effective} {bytes bytes' : Bytes}
    {archive archive' : MemoryArchive} {book : Book} {spine : List SpineEntry} {σ : Nat → Nat}
    {scan' : Scan} (h : Reordered σ archive archive' book.entries scan'.entries)
    (hprepared : Prepared crates limits bytes archive book spine)
    (hopened : Archive.openArchive crates.zipNew bytes' limits = .ok archive')
    (hscanned : Archive.scan archive' = .ok scan') :
    Prepared crates limits bytes' archive' (book.moved σ scan'.entries) spine where
  opened := hopened
  scanned := ⟨scan', hscanned, rfl⟩
  policy := by
    have hpolicy := hprepared.policy
    rw [Book.index_moved h]
    cases hget : book.index.get encryptionPath with
    | none =>
        rw [hget] at hpolicy
        exact congrArg (List.map σ) hpolicy
    | some position =>
        rw [hget] at hpolicy
        dsimp only [Option.map_some] at hpolicy ⊢
        rw [Book.content_moved h (Parse.position_lt hget),
          Extract.obfuscatedEntries_moved (Book.index_moved h), hpolicy]
        rfl
  rootfile := by
    obtain ⟨container, opf, hcontainer, hroot, hpackage⟩ := hprepared.rootfile
    refine ⟨σ container, σ opf, ?_, ?_, ?_⟩
    · rw [Book.index_moved h, hcontainer]
      rfl
    · rw [Book.rootfile_moved h, Book.content_moved h (Parse.position_lt hcontainer), hroot]
      rfl
    · rw [Book.content_moved h (Parse.rootfile_lt hroot)]
      exact hpackage
  spine := (Book.resolveSpine_moved h book.package.spine).trans hprepared.spine

/-! ## The script

The events themselves: those that name an entry by its path are the same, and each chapter and
each resource is the same message, read at another position. -/

namespace Script

variable {δ : Type} {crates : Crates} {limits : Effective} {σ : Nat → Nat}
  {archive archive' : MemoryArchive} {entries' : List EntryInfo} {book : Book}
  {spine : List SpineEntry} (h : Reordered σ archive archive' book.entries entries')
include h

theorem opening_moved :
    opening (δ := δ) (book.moved σ entries') spine = opening book spine := by
  unfold opening
  rw [Book.navigationSource_moved h]
  cases book.navigationSource with
  | error e => rfl
  | ok source =>
      dsimp only [Except.map]
      rw [Book.info_moved h]

/-- The navigation event is the same. -/
theorem navigation_moved :
    navigation (δ := δ) crates limits archive' (book.moved σ entries') =
      navigation crates limits archive book := by
  obtain ⟨found, hfound, hsource⟩ := Book.navigationSource_ok book
  unfold navigation
  rw [Book.navigationSource_moved h, hfound]
  change navigationEvents crates limits archive' (book.moved σ entries')
    (found.map (Book.NavigationSource.moved σ)) = navigationEvents crates limits archive book found
  cases found with
  | none => cases hparse : limits.parseNavigation <;> simp [navigationEvents]
  | some source =>
      have hparsed : parsedNavigation crates archive' (book.moved σ entries')
          (source.moved σ) = parsedNavigation crates archive book source := by
        unfold parsedNavigation
        simp only [Book.NavigationSource.moved, Book.item_moved h,
          Book.content_moved h (Book.entry_lt (hsource source rfl).entry)]
        rfl
      unfold navigationEvents
      cases limits.parseNavigation with
      | false => rfl
      | true => simp only [Option.map_some, hparsed]

/-- The same overlay events, in the order of the manifest. -/
theorem overlays_moved :
    overlays (δ := δ) crates limits archive' (book.moved σ entries') =
      overlays crates limits archive book := by
  have hevents : ∀ pair, overlayEvents (δ := δ) crates archive' (book.moved σ entries') pair =
      overlayEvents crates archive book pair := by
    intro pair
    unfold overlayEvents parsedOverlay
    simp only [Book.item_moved h, Resolved.moved]
    cases hentry : (book.item pair.2).entry with
    | none => rfl
    | some entry => simp only [Option.map_some, Book.content_moved h (Book.entry_lt hentry)]
  unfold overlays
  rw [Book.links_moved h, funext hevents]

theorem chapterMessage_moved {visit : SpineEntry × Nat} (hfound : book.ChapterFound visit.1) :
    chapterMessage archive' (book.moved σ entries') visit = chapterMessage archive book visit := by
  unfold chapterMessage
  simp only [Book.overlayPath_moved h, Book.item_moved h, Book.chapterEntry_moved h hfound,
    Book.content_moved h (Book.entry_lt hfound.entry)]
  rfl

theorem resourceMessage_moved {pending : Nat × Nat} (hk : pending.1 < book.entries.length) :
    resourceMessage archive' (book.moved σ entries') (Prod.map σ id pending) =
      resourceMessage archive book pending := by
  unfold resourceMessage
  simp only [Prod.map, Book.overlayPath_moved h, Book.item_moved h, Book.content_moved h hk]
  rfl

end Script

end GrpcEpub
