/-
# `GrpcEpub.Fallbacks` — which manifest item a chapter is read from

A spine item's fallbacks are followed from item to item, through the id index, until one has
none, names nothing, or leads back.  `Book.chapterSource` reads the chapter from the first
markup on the way that the archive holds, and failing that from the first item it holds.
-/
import GrpcEpub.Lookup
import GrpcEpub.Lib.Trail

namespace GrpcEpub

namespace Book

open Extract

variable {book : Book}

/-- The item that an item falls back to. -/
def fallback (book : Book) (position : Nat) : Option Nat :=
  if (book.item position).item.fallback = [] then none
  else book.byId.get (book.item position).item.fallback

theorem fallback_lt {position next : Nat} (h : book.fallback position = some next) :
    next < book.resolved.length := by
  unfold fallback at h
  split at h
  · cases h
  · exact byId_lt h

/-- The chain of a spine item: its fallbacks, up to the first that is missing or repeated, and
no more than `MAX_FALLBACK_CHAIN` items. -/
abbrev Chain (book : Book) (primary : Nat) (chain : List Nat) : Prop :=
  Trail book.fallback maxFallbackChain primary chain

/-- Whether the archive has the item. -/
def held (book : Book) (position : Nat) : Bool := (book.item position).entry.isSome

/-- Whether it has it, and it is markup. -/
def heldMarkup (book : Book) (position : Nat) : Bool :=
  book.held position && isMarkup (book.item position).item.mediaType

/-- The loop follows the links. -/
theorem fallbackChain_eq : ∀ {room last : Nat} {chain : List Nat}, last < book.resolved.length →
    book.fallbackChain last chain room = .ok (trail book.fallback last chain room) := by
  intro room
  induction room with
  | zero => exact fun _ => rfl
  | succ room ih =>
      intro last chain hlast
      rw [fallbackChain, nth_item hlast, trail]
      change (if (book.item last).item.fallback = [] then Except.ok chain else _) = _
      have hnext : book.fallback last = if (book.item last).item.fallback = [] then none
        else book.byId.get (book.item last).item.fallback := rfl
      split at hnext
      · rename_i hnone
        rw [if_pos hnone, hnext]
      · rename_i hsome
        rw [if_neg hsome, hnext]
        cases hget : book.byId.get (book.item last).item.fallback with
        | none => rfl
        | some stop =>
            dsimp only
            split
            · rfl
            · exact ih (byId_lt hget)

theorem heldItems_eq {chain : List Nat} (h : ∀ position ∈ chain, position < book.resolved.length) :
    book.heldItems chain =
      .ok ((chain.filter book.held).map fun position => (position, book.item position)) := by
  induction chain with
  | nil => rfl
  | cons position rest ih =>
      obtain ⟨hfirst, hrest⟩ := List.forall_mem_cons.mp h
      rw [heldItems, nth_item hfirst, ih hrest, List.filter_cons]
      change Except.ok (if (book.item position).entry.isSome then _ else _) = Except.ok _
      have hheld : book.held position = (book.item position).entry.isSome := rfl
      rw [hheld]
      split <;> rfl

/-- Every item of a chain is one of the manifest. -/
theorem chain_lt {primary : Nat} {chain : List Nat} (hprimary : primary < book.resolved.length)
    (h : book.Chain primary chain) : ∀ position ∈ chain, position < book.resolved.length := by
  intro position hposition
  rcases h.next_or_start hposition with rfl | ⟨before, -, hnext⟩
  · exact hprimary
  · exact fallback_lt hnext

/-- The first held markup on the chain, or else the first item held. -/
def sourceOf (book : Book) (chain : List Nat) : Option Nat :=
  (chain.find? book.heldMarkup).or (chain.find? book.held)

/-- A chapter is read from its chain. -/
theorem chapterSource_eq {primary : Nat} {chain : List Nat}
    (hprimary : primary < book.resolved.length) (h : book.Chain primary chain) :
    book.chapterSource primary = .ok (book.sourceOf chain) := by
  have htrail : book.Chain primary (trail book.fallback primary [primary] (maxFallbackChain - 1)) :=
    trail_isTrail book.fallback (maxFallbackChain - 1) primary
  obtain rfl := h.unique htrail
  unfold chapterSource
  rw [fallbackChain_eq hprimary]
  change (book.heldItems _ >>= _) = _
  rw [heldItems_eq (chain_lt hprimary htrail)]
  refine congrArg Except.ok ?_
  rw [List.find?_map, List.head?_map, List.head?_filter, List.find?_filter, sourceOf,
    Option.map_or, Option.map_map, Option.map_map]
  have hfst (found : Option Nat) :
      found.map (Prod.fst ∘ fun position => (position, book.item position)) = found := by
    cases found <;> rfl
  have hmarkup : book.heldMarkup = fun position =>
      decide (book.held position = true ∧ isMarkup (book.item position).item.mediaType = true) := by
    funext position
    unfold heldMarkup
    rw [Bool.decide_and, Bool.decide_eq_true, Bool.decide_eq_true]
  rw [hfst, hfst, hmarkup]
  rfl

/-- There is no source when nothing on the chain is held. -/
theorem sourceOf_none_iff {chain : List Nat} :
    book.sourceOf chain = none ↔ ∀ position ∈ chain, (book.item position).entry = none := by
  have hnone (position : Nat) : ¬ book.held position = true ↔ (book.item position).entry = none := by
    unfold held
    rw [Bool.not_eq_true, Option.isSome_eq_false_iff, Option.isNone_iff_eq_none]
  rw [sourceOf, Option.or_eq_none_iff, List.find?_eq_none, List.find?_eq_none]
  constructor
  · exact fun h position hposition => (hnone position).mp (h.2 position hposition)
  · intro h
    have hheld : ∀ position ∈ chain, ¬ book.held position = true :=
      fun position hposition => (hnone position).mpr (h position hposition)
    refine ⟨fun position hposition hmarkup => ?_, hheld⟩
    exact hheld position hposition (Bool.and_eq_true_iff.mp hmarkup).1

theorem sourceOf_held {chain : List Nat} {source : Nat} (h : book.sourceOf chain = some source) :
    source ∈ chain ∧ book.held source = true := by
  rcases Option.or_eq_some_iff.mp h with hmarkup | ⟨-, hfirst⟩
  · have hboth := List.find?_some hmarkup
    exact ⟨List.mem_of_find?_eq_some hmarkup, (Bool.and_eq_true_iff.mp hboth).1⟩
  · exact ⟨List.mem_of_find?_eq_some hfirst, List.find?_some hfirst⟩

/-- A spine item that can be read is read. -/
theorem sourceOf_heldMarkup {primary : Nat} {chain : List Nat} (h : book.Chain primary chain)
    (hmarkup : book.heldMarkup primary = true) : book.sourceOf chain = some primary := by
  obtain ⟨rest, rfl⟩ := List.head?_eq_some_iff.mp h.starts
  rw [sourceOf, List.find?_cons_of_pos hmarkup]
  rfl

/-- The chapter of a spine item is read from the first markup on its chain that the archive
holds, or else from the first item it holds, if any; so it is the spine item itself when that
is markup, and another item is named only when it stands in for the spine item. -/
theorem chapter_source_chain {primary : Nat} (h : primary < book.resolved.length) :
    (∃! chain, book.Chain primary chain) ∧
    (∀ chain, book.Chain primary chain →
      book.chapterSource primary = .ok ((chain.find? book.heldMarkup).or (chain.find? book.held)) ∧
      (book.chapterSource primary = .ok none ↔
        ∀ position ∈ chain, (book.item position).entry = none)) ∧
    (book.heldMarkup primary = true → book.chapterSource primary = .ok (some primary)) ∧
    ∀ source itemref, book.chapterSource primary = .ok (some source) →
      primaryHref ⟨primary, source, itemref⟩ (book.item primary) ≠ [] →
        source ≠ primary ∧ book.held source = true ∧ book.heldMarkup primary = false := by
  have hchain : book.Chain primary (trail book.fallback primary [primary] (maxFallbackChain - 1)) :=
    trail_isTrail book.fallback (maxFallbackChain - 1) primary
  have hsource := chapterSource_eq h hchain
  refine ⟨⟨_, hchain, fun chain hchain' => hchain'.unique hchain⟩, fun chain hchain' => ?_,
    fun hmarkup => ?_, fun source itemref hok hhref => ?_⟩
  · have hsource' := chapterSource_eq h hchain'
    refine ⟨hsource', ?_⟩
    rw [hsource', ← sourceOf_none_iff, Except.ok.injEq]
  · rw [hsource, sourceOf_heldMarkup hchain hmarkup]
  · have hsome : book.sourceOf _ = some source := Except.ok.inj (hsource.symm.trans hok)
    have hother : source ≠ primary := fun heq => hhref (if_pos (.inl heq.symm))
    refine ⟨hother, (sourceOf_held hsome).2, ?_⟩
    by_contra hmarkup
    rw [Bool.not_eq_false] at hmarkup
    rw [sourceOf_heldMarkup hchain hmarkup] at hsome
    exact hother (Option.some.inj hsome).symm

/-! ## A comic

A page that is a picture, with markup as its fallback. -/

/-- A page of a comic, and what it falls back to. -/
def page (id href mediaType fallback : Str) : ManifestItem where
  id := id
  href := href
  mediaType := mediaType
  properties := []
  mediaOverlay := []
  fallback := fallback

/-- An image that falls back to one that is not there, and that to a page which falls back to
the first. -/
def comic : Book where
  entries := [⟨0, "p1.jpg", 1, 1⟩, ⟨1, "p1.xhtml", 1, 1⟩]
  obfuscated := []
  opfPath := "p.opf"
  package :=
    { manifest := [page "p1" "p1.jpg" "image/jpeg" "p2", page "p2" "p2.webp" "image/webp" "p3",
        page "p3" "p1.xhtml" "application/xhtml+xml" "p1"] }

theorem chapter_source_comic : (∃! chain, comic.Chain 0 chain) ∧
    comic.chapterSource 0 = .ok (some 2) ∧
    (2 ≠ 0 ∧ comic.held 2 = true ∧ comic.heldMarkup 0 = false) := by
  have hsource : comic.chapterSource 0 = .ok (some 2) := by decide +kernel
  have hhref : primaryHref ⟨0, 2, ⟨"p1", true⟩⟩ (comic.item 0) ≠ [] := by decide +kernel
  obtain ⟨hchain, -, -, hother⟩ := @chapter_source_chain comic 0 (by decide +kernel)
  exact ⟨hchain, hsource, hother 2 ⟨"p1", true⟩ hsource hhref⟩

end Book

end GrpcEpub
