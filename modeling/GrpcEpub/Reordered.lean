/-
# `GrpcEpub.Reordered` — a book in an archive of another order

Moving the entries of an archive moves every position the driver computes and
nothing else.  `Book.moved` is the book of the reordered archive; each decision of
the driver commutes with it.  What is sorted by position (the resources, and what is
inflated for them) comes in another order and is the same otherwise.

The map `σ` says where each position went; two archives are `Reordered` when what they store is
the same up to `σ` and no name occurs twice.  A name is then answered with the moved position
(`index_get`), and since the driver reaches an entry by its name or by a position it got from
one, that carries through everything it decides, from a link up to the plan.
-/
import GrpcEpub.Packing
import GrpcEpub.Lib.Shuffle

namespace GrpcEpub

/-- The entries of one archive, in the order of another. -/
structure Reordered (σ : Nat → Nat) (archive archive' : MemoryArchive)
    (entries entries' : List EntryInfo) : Prop where
  shuffles : Shuffles σ (entries.map archive.stored) (entries'.map archive'.stored)
  perm : (entries.map archive.stored).Perm (entries'.map archive'.stored)
  distinct : (entries.map EntryInfo.name).Nodup

namespace Reordered

variable {σ : Nat → Nat} {archive archive' : MemoryArchive} {entries entries' : List EntryInfo}

theorem names (archive : MemoryArchive) (entries : List EntryInfo) :
    (entries.map archive.stored).map Stored.name = entries.map EntryInfo.name :=
  List.map_map

theorem lt_iff (h : Reordered σ archive archive' entries entries') {k : Nat} :
    σ k < entries'.length ↔ k < entries.length := by
  have hlt := h.shuffles.lt_iff (k := k)
  rwa [List.length_map, List.length_map] at hlt

/-- The entry that was at `k` is at `σ k`. -/
theorem stored_getD (h : Reordered σ archive archive' entries entries') {k : Nat}
    (hk : k < entries.length) :
    archive'.stored (entries'.getD (σ k) default) = archive.stored (entries.getD k default) := by
  have hmoves := h.shuffles.moves k
  have hk' := h.lt_iff.mpr hk
  rw [List.getElem?_map, List.getElem?_map, List.getElem?_eq_getElem hk,
    List.getElem?_eq_getElem hk'] at hmoves
  rw [List.getD_eq_getElem?_getD, List.getD_eq_getElem?_getD, List.getElem?_eq_getElem hk,
    List.getElem?_eq_getElem hk']
  exact Option.some.inj hmoves

/-- A name is answered with the position its entry was moved to. -/
theorem index_get (h : Reordered σ archive archive' entries entries') (name : Str) :
    (Extract.indexOf entries').get name = ((Extract.indexOf entries).get name).map σ := by
  have hnames : (entries.map EntryInfo.name).Perm (entries'.map EntryInfo.name) := by
    rw [← names archive, ← names archive']
    exact h.perm.map Stored.name
  cases hget : (Extract.indexOf entries).get name with
  | some k =>
      obtain ⟨entry, hentry, rfl⟩ := Extract.indexOf_get hget
      have hmoves := h.shuffles.moves k
      rw [List.getElem?_map, List.getElem?_map, hentry] at hmoves
      obtain ⟨entry', hentry', hstored⟩ := Option.map_eq_some_iff.mp hmoves
      have hname : entry'.name = entry.name := congrArg Stored.name hstored
      rw [← hname]
      exact Extract.indexOf_of_nodup (hnames.nodup_iff.mp h.distinct) hentry'
  | none =>
      refine Option.eq_none_iff_forall_ne_some.mpr ?_
      intro p hp
      obtain ⟨entry', hentry', rfl⟩ := Extract.indexOf_get hp
      have hmem := hnames.mem_iff.mpr (List.mem_map_of_mem (List.mem_of_getElem? hentry'))
      obtain ⟨entry, hentry, hname⟩ := List.mem_map.mp hmem
      have hsome := Extract.indexOf_isSome hentry
      rw [hname, hget] at hsome
      cases hsome

end Reordered

/-! ## Looking up

The index is asked by `lookup`, which the manifest and the encryption policy share.  What it
finds moves with the entries, so a manifest item keeps its index and takes the moved entry. -/

namespace Extract

variable {σ : Nat → Nat} {index index' : HashMap Str Nat}
  (hindex : ∀ name, index'.get name = (index.get name).map σ)
include hindex

/-- Found under one name or under the other, it is the moved position. -/
theorem lookup_moved (decoded rawBase rawHref : Str) :
    lookup index' decoded rawBase rawHref = (lookup index decoded rawBase rawHref).map σ := by
  unfold lookup
  rw [hindex]
  cases index.get decoded with
  | some found => rfl
  | none =>
      cases Href.normalize rawBase (rawHref.before '#') with
      | ok raw => exact hindex raw
      | error e => rfl

/-- A cipher reference leads to the moved entry, by either reading of its path. -/
theorem cipherTarget_moved (uri : Str) :
    cipherTarget index' uri = (cipherTarget index uri).map σ := by
  refine (congrArg₂ Option.or ?_ ?_).trans Option.map_or.symm
  · dsimp only
    cases Href.resolve [] uri with
    | error e => rfl
    | ok target =>
        cases target with
        | entry path => exact lookup_moved hindex path [] uri
        | remote uri => rfl
  · dsimp only
    cases Href.resolve "META-INF".toList uri with
    | error e => rfl
    | ok target =>
        cases target with
        | entry path => exact lookup_moved hindex path "META-INF".toList uri
        | remote uri => rfl

/-- The descriptor lists the moved entries, or is refused as before. -/
theorem obfuscatedEntries_moved (descriptor : XmlStream) :
    obfuscatedEntries descriptor index' =
      (obfuscatedEntries descriptor index).map (List.map σ) := by
  unfold obfuscatedEntries
  cases Encryption.parseEncryption descriptor with
  | error e => rfl
  | ok records =>
      dsimp only
      cases records.find? (fun record => !record.isObfuscation) with
      | some drm => rfl
      | none =>
          refine congrArg Except.ok ?_
          rw [List.map_filterMap]
          exact congrArg (fun f => records.filterMap f)
            (funext fun record => cipherTarget_moved hindex record.uri)

end Extract

/-- A manifest item whose entry has been moved. -/
def Resolved.moved (σ : Nat → Nat) (target : Resolved) : Resolved :=
  { target with entry := target.entry.map σ }

@[simp] theorem Resolved.moved_item (σ : Nat → Nat) (target : Resolved) :
    (target.moved σ).item = target.item := rfl

@[simp] theorem Resolved.moved_entry (σ : Nat → Nat) (target : Resolved) :
    (target.moved σ).entry = target.entry.map σ := rfl

@[simp] theorem Resolved.moved_remote (σ : Nat → Nat) (target : Resolved) :
    (target.moved σ).remote = target.remote := rfl

@[simp] theorem Resolved.moved_unusable (σ : Nat → Nat) (target : Resolved) :
    (target.moved σ).unusable = target.unusable := rfl

theorem Extract.resolveItem_moved {σ : Nat → Nat} {index index' : HashMap Str Nat}
    (hindex : ∀ name, index'.get name = (index.get name).map σ) (opfDir : Str)
    (item : ManifestItem) :
    resolveItem index' opfDir item = (resolveItem index opfDir item).moved σ := by
  unfold resolveItem
  cases Href.resolve opfDir item.href with
  | error e => rfl
  | ok target =>
      cases target with
      | remote uri => rfl
      | entry path =>
          dsimp only
          rw [lookup_moved hindex]
          rfl

/-- The book of the reordered archive. -/
def Book.moved (σ : Nat → Nat) (entries' : List EntryInfo) (book : Book) : Book :=
  { book with entries := entries', obfuscated := book.obfuscated.map σ }

namespace Book

variable {σ : Nat → Nat} {archive archive' : MemoryArchive} {entries' : List EntryInfo}
  {book : Book} (h : Reordered σ archive archive' book.entries entries')
include h

theorem index_moved (name : Str) :
    (book.moved σ entries').index.get name = (book.index.get name).map σ :=
  h.index_get name

theorem resolved_moved :
    (book.moved σ entries').resolved = book.resolved.map (Resolved.moved σ) := by
  unfold resolved
  rw [List.map_map]
  exact List.map_congr_left fun item _ =>
    Extract.resolveItem_moved (index_moved h) book.opfDir item

theorem item_moved (position : Nat) :
    (book.moved σ entries').item position = (book.item position).moved σ := by
  unfold item
  rw [resolved_moved h, List.getD_eq_getElem?_getD, List.getD_eq_getElem?_getD,
    List.getElem?_map]
  cases book.resolved[position]? <;> rfl

theorem nth_moved (position : Nat) :
    nth (book.moved σ entries').resolved position =
      (nth book.resolved position).map (Resolved.moved σ) := by
  unfold nth
  rw [resolved_moved h, List.getElem?_map]
  cases book.resolved[position]? <;> rfl

/-- The content of an entry is where the entry is. -/
theorem content_moved {k : Nat} (hk : k < book.entries.length) :
    (book.moved σ entries').content archive' (σ k) = book.content archive k :=
  Archive.inflated_congr (h.stored_getD hk)

/-! ## The spine

A spine is resolved through indices into the manifest, which do not move; of the entry of an
item it is asked only whether there is one. -/

theorem fallbackChain_moved : ∀ (room last : Nat) (chain : List Nat),
    (book.moved σ entries').fallbackChain last chain room = book.fallbackChain last chain room
  | 0, _, _ => rfl
  | room + 1, last, chain => by
      unfold fallbackChain
      rw [nth_moved h]
      cases nth book.resolved last with
      | error e => rfl
      | ok target =>
          simp only [fallbackChain_moved room]
          rfl

/-- Whether an item is held does not depend on where. -/
theorem heldItems_moved (chain : List Nat) :
    (book.moved σ entries').heldItems chain =
      (book.heldItems chain).map (List.map fun held => (held.1, held.2.moved σ)) := by
  induction chain with
  | nil => rfl
  | cons position rest ih =>
      unfold heldItems
      rw [nth_moved h, ih]
      cases nth book.resolved position with
      | error e => rfl
      | ok target =>
          cases book.heldItems rest with
          | error e => rfl
          | ok others =>
              cases hentry : target.entry <;>
                simp [bind, Except.bind, Except.map, pure, Except.pure, Resolved.moved, hentry]

/-- A chapter is read from the same item. -/
theorem chapterSource_moved (primary : Nat) :
    (book.moved σ entries').chapterSource primary = book.chapterSource primary := by
  unfold chapterSource
  rw [fallbackChain_moved h]
  cases book.fallbackChain primary [primary] (maxFallbackChain - 1) with
  | error e => rfl
  | ok chain =>
      simp only [bind, Except.bind]
      rw [heldItems_moved h]
      cases book.heldItems chain with
      | error e => rfl
      | ok held =>
          simp only [Except.map, pure, Except.pure, List.find?_map, List.head?_map,
            Function.comp_def, Option.map_or, Option.map_map, Resolved.moved]

/-- An itemref leads to the same items, and is refused for the same reason. -/
theorem resolveItemref_moved (itemref : SpineItem) :
    (book.moved σ entries').resolveItemref itemref = book.resolveItemref itemref := by
  unfold resolveItemref
  rw [show (book.moved σ entries').byId = book.byId from rfl]
  cases book.byId.get itemref.idref with
  | none => rfl
  | some position =>
      dsimp only
      rw [chapterSource_moved h]
      cases book.chapterSource position with
      | error e => rfl
      | ok found =>
          cases found with
          | none =>
              simp only [bind, Except.bind]
              rw [nth_moved h]
              cases nth book.resolved position <;> rfl
          | some source =>
              simp only [bind, Except.bind]
              rw [nth_moved h]
              cases nth book.resolved source with
              | error e => rfl
              | ok target =>
                  cases hentry : target.entry with
                  | none => simp [Except.map, Resolved.moved, hentry, expect]
                  | some entry =>
                      have hlisted : σ entry ∈ (book.moved σ entries').obfuscated ↔
                          entry ∈ book.obfuscated :=
                        List.mem_map_of_injective h.shuffles.injective
                      simp [Except.map, Resolved.moved, hentry, expect, hlisted]

theorem resolveSpine_moved (itemrefs : List SpineItem) :
    (book.moved σ entries').resolveSpine itemrefs = book.resolveSpine itemrefs := by
  induction itemrefs with
  | nil => rfl
  | cons itemref rest ih =>
      unfold resolveSpine
      rw [resolveItemref_moved h, ih]

/-! ## The opening event

The navigation source and the cover are manifest items too.  The info names paths and indices
into the manifest, and no position, so it is the same event. -/

omit h in
/-- A source of navigation whose entry has been moved. -/
def NavigationSource.moved (σ : Nat → Nat) (source : NavigationSource) : NavigationSource :=
  { source with entry := σ source.entry }

/-- The same navigation document, at its moved position. -/
theorem navDocument_moved : (book.moved σ entries').navDocument =
    book.navDocument.map (Option.map (NavigationSource.moved σ)) := by
  unfold navDocument
  have hitem : ((fun target : Resolved => decide ("nav".toList ∈ target.item.properties)) ∘
      Resolved.moved σ) = fun target => decide ("nav".toList ∈ target.item.properties) := rfl
  rw [resolved_moved h, List.findIdx?_map, hitem]
  cases book.resolved.findIdx? (fun target => "nav".toList ∈ target.item.properties) with
  | none => rfl
  | some position =>
      dsimp only
      rw [← resolved_moved h, nth_moved h]
      cases nth book.resolved position with
      | error e => rfl
      | ok target =>
          cases hentry : target.entry <;>
            simp [bind, Except.bind, Except.map, pure, Except.pure, Resolved.moved, hentry,
              NavigationSource.moved]

/-- And the same NCX. -/
theorem ncxDocument_moved : (book.moved σ entries').ncxDocument =
    book.ncxDocument.map (Option.map (NavigationSource.moved σ)) := by
  unfold ncxDocument
  rw [show (book.moved σ entries').byId.get (book.moved σ entries').package.tocIdref =
    book.byId.get book.package.tocIdref from rfl]
  cases book.byId.get book.package.tocIdref with
  | none => rfl
  | some position =>
      dsimp only
      rw [nth_moved h]
      cases nth book.resolved position with
      | error e => rfl
      | ok target =>
          cases hentry : target.entry <;>
            simp [bind, Except.bind, Except.map, pure, Except.pure, Resolved.moved, hentry,
              NavigationSource.moved]

theorem navigationSource_moved : (book.moved σ entries').navigationSource =
    book.navigationSource.map (Option.map (NavigationSource.moved σ)) := by
  unfold navigationSource
  rw [navDocument_moved h]
  cases book.navDocument with
  | error e => rfl
  | ok found =>
      cases found with
      | some source => rfl
      | none => exact ncxDocument_moved h

theorem navigationHref_moved (source : Option NavigationSource) (fromNcx : Bool) :
    (book.moved σ entries').navigationHref (source.map (NavigationSource.moved σ)) fromNcx =
      book.navigationHref source fromNcx := by
  cases source with
  | none => rfl
  | some source =>
      unfold navigationHref
      simp only [Option.map_some, NavigationSource.moved, nth_moved h]
      cases nth book.resolved source.position <;> rfl

/-- The cover is the same path. -/
theorem cover_moved : (book.moved σ entries').cover = book.cover := by
  unfold cover
  have hproperty : ((fun target : Resolved =>
      decide ("cover-image".toList ∈ target.item.properties)) ∘ Resolved.moved σ) =
      fun target => decide ("cover-image".toList ∈ target.item.properties) := rfl
  have hid : ((fun target : Resolved => target.item.id == book.package.metadata.coverId) ∘
      Resolved.moved σ) = fun target => target.item.id == book.package.metadata.coverId := rfl
  rw [resolved_moved h, show (book.moved σ entries').package = book.package from rfl]
  dsimp only
  rw [List.find?_map, List.find?_map, hproperty, hid]
  cases book.resolved.find? (fun target => "cover-image".toList ∈ target.item.properties) with
  | some target => rfl
  | none =>
      dsimp only [Option.map_none]
      split
      · rfl
      · cases book.resolved.find? (fun target => target.item.id == book.package.metadata.coverId) <;>
          rfl

theorem info_moved (spine : List SpineEntry) (source : Option NavigationSource) :
    (book.moved σ entries').info spine (source.map (NavigationSource.moved σ)) =
      book.info spine source := by
  unfold info
  rw [navigationHref_moved h, navigationHref_moved h, cover_moved h]
  rfl

/-! ## Overlays

The links are between items of the manifest.  Only the entry an overlay is read from is moved. -/

theorem links_moved : (book.moved σ entries').links = book.links := by
  unfold links
  rw [resolved_moved h, List.zipIdx_map, List.filterMap_map]
  refine List.filterMap_congr ?_
  intro visit _
  simp only [Function.comp_apply, Prod.map, item_moved h]
  rfl

theorem overlayPath_moved (position : Nat) :
    (book.moved σ entries').overlayPath position = book.overlayPath position := by
  unfold overlayPath
  rw [links_moved h]
  simp only [item_moved h]
  rfl

theorem overlayEntry_moved (pair : Nat × Nat) :
    (book.moved σ entries').overlayEntry pair = (book.overlayEntry pair).map σ := by
  unfold overlayEntry
  rw [item_moved h]
  rfl

/-! ## The plan

What the plan says of an item is its `Fate`, and a fate moves with its entry.  The plan is made
in the order of the manifest and then sorted by position: the first part commutes with the move,
the second is a permutation of what it was. -/

variable {spine : List SpineEntry}

/-- A chapter whose source is in the archive is read from the moved entry. -/
theorem chapterEntry_moved {chapter : SpineEntry} (hfound : book.ChapterFound chapter) :
    (book.moved σ entries').chapterEntry chapter = σ (book.chapterEntry chapter) := by
  rw [chapterEntry, item_moved h, Resolved.moved, hfound.entry]
  rfl

theorem chapterEntries_moved (hspine : ∀ chapter ∈ spine, book.ChapterFound chapter) :
    spine.map (book.moved σ entries').chapterEntry = (spine.map book.chapterEntry).map σ := by
  rw [List.map_map]
  exact List.map_congr_left fun chapter hchapter => chapterEntry_moved h (hspine chapter hchapter)

omit h in
/-- What becomes of an item whose entry has been moved. -/
def Fate.moved (σ : Nat → Nat) : Fate → Fate
  | .pending entry => .pending (σ entry)
  | fate => fate

omit h in
theorem Fate.entry_moved (fate : Fate) : (fate.moved σ).entry = fate.entry.map σ := by
  cases fate <;> rfl

omit h in
theorem Fate.skips_moved (fate : Fate) : (fate.moved σ).skips = fate.skips := by
  cases fate <;> rfl

/-- The fate of an item, decision by decision. -/
theorem fate_moved (limits : Effective) (sources entries : List Nat) (position : Nat)
    (target : Resolved) :
    (book.moved σ entries').fate limits sources (entries.map σ) position (target.moved σ) =
      (book.fate limits sources entries position target).moved σ := by
  have hmem : ∀ {entry : Nat} {positions : List Nat}, σ entry ∈ positions.map σ ↔
      entry ∈ positions := List.mem_map_of_injective h.shuffles.injective
  unfold fate
  by_cases hsource : position ∈ sources
  · rw [if_pos hsource, if_pos hsource]
    rfl
  rw [if_neg hsource, if_neg hsource, Resolved.moved_unusable]
  cases target.unusable with
  | some error => rfl
  | none =>
      dsimp only
      rw [Resolved.moved_remote]
      by_cases hremote : target.remote = true
      · rw [if_pos hremote]
        simp only [if_pos hremote]
        rfl
      · rw [if_neg hremote]
        simp only [if_neg hremote]
        cases hentry : target.entry with
        | none =>
            simp only [Resolved.moved, hentry]
            rfl
        | some entry =>
            have hlisted : σ entry ∈ (book.moved σ entries').obfuscated ↔
                entry ∈ book.obfuscated := hmem
            simp only [Resolved.moved, hentry, Option.map_some, hmem, hlisted]
            split
            · rfl
            · split
              · rfl
              · split
                · rfl
                · split <;> rfl

/-- Before it is sorted, the plan names the same items in the same order. -/
theorem pendingItems_moved (limits : Effective)
    (hspine : ∀ chapter ∈ spine, book.ChapterFound chapter) :
    (book.moved σ entries').pendingItems limits spine =
      (book.pendingItems limits spine).map (Prod.map σ id) := by
  unfold pendingItems
  rw [resolved_moved h, List.zipIdx_map, List.filterMap_map, List.map_filterMap,
    chapterEntries_moved h hspine]
  refine List.filterMap_congr ?_
  intro visit _
  simp only [Function.comp_apply, Prod.map, fate_moved h, Fate.entry_moved, Option.map_map]
  rfl

omit h in
/-- Sorting moved pairs leaves the same pairs. -/
theorem archiveOrder_moved (hσ : Function.Injective σ) (pending : List (Nat × Nat)) :
    (archiveOrder (pending.map (Prod.map σ id))).Perm
      ((archiveOrder pending).map (Prod.map σ id)) := by
  have hpair : Function.Injective (Prod.map σ (id : Nat → Nat)) := hσ.prodMap Function.injective_id
  have hmem : ∀ {e p : Nat}, (e, p) ∈ pending.map (Prod.map σ id) ↔
      ∃ e', σ e' = e ∧ (e', p) ∈ pending := by
    intro e p
    rw [List.mem_map]
    constructor
    · rintro ⟨⟨e', p'⟩, hin, heq⟩
      obtain ⟨rfl, rfl⟩ := Prod.mk.inj heq
      exact ⟨e', rfl, hin⟩
    · rintro ⟨e', rfl, hin⟩
      exact ⟨(e', p), hin, rfl⟩
  have hkeys := archiveOrder_nodup (pending.map (Prod.map σ id))
  have hkeys' := archiveOrder_nodup pending
  refine (List.perm_ext_iff_of_nodup hkeys.of_map (hkeys'.of_map.map hpair)).mpr ?_
  rintro ⟨e, p⟩
  rw [mem_archiveOrder, hmem, List.mem_map]
  constructor
  · rintro ⟨⟨e', rfl, hin⟩, hmin⟩
    exact ⟨(e', p), mem_archiveOrder.mpr ⟨hin, fun p' hp' => hmin p' (hmem.mpr ⟨e', rfl, hp'⟩)⟩, rfl⟩
  · rintro ⟨⟨e', p'⟩, hin, heq⟩
    obtain ⟨rfl, rfl⟩ := Prod.mk.inj heq
    obtain ⟨hin, hmin⟩ := mem_archiveOrder.mp hin
    refine ⟨⟨e', rfl, hin⟩, fun p hp => ?_⟩
    obtain ⟨e'', heq, hp⟩ := hmem.mp hp
    exact hmin p (hσ heq ▸ hp)

/-- Sorted, it names the same items. -/
theorem resources_moved (limits : Effective)
    (hspine : ∀ chapter ∈ spine, book.ChapterFound chapter) :
    ((book.moved σ entries').resources limits spine).Perm
      ((book.resources limits spine).map (Prod.map σ id)) := by
  unfold resources
  rw [pendingItems_moved h limits hspine]
  exact archiveOrder_moved h.shuffles.injective _

theorem skipped_moved (limits : Effective)
    (hspine : ∀ chapter ∈ spine, book.ChapterFound chapter) :
    (book.moved σ entries').skipped limits spine = book.skipped limits spine := by
  unfold skipped
  rw [resolved_moved h, List.zipIdx_map, List.countP_map, chapterEntries_moved h hspine]
  refine List.countP_congr ?_
  intro visit _
  simp only [Function.comp_apply, skips, Prod.map, fate_moved h, Fate.skips_moved]
  rfl

end Book

end GrpcEpub
