/-
# `GrpcEpub.Plan` — the decisions behind the script

Each of the driver's fallible decisions against its total reading in the
script: where the driver's version returns, it returns the script's value, and
where it does not, it panicked.

In the source these decisions are plain functions that index and unwrap; here they return
`Except Abort`, and the `.panicked` case is the index or the `expect` that failed.  That none of
them is ever out of range is another matter, for which see `GrpcEpub.Inflations`.
-/
import GrpcEpub.Script

namespace GrpcEpub

/-! ## Computations that fail only by panicking

`OnlyPanics` is closed under sequencing, so it is read off the shape of a definition.  The lemmas
with `_ok` give the value behind an operation that returned. -/

/-- Every error of the computation is a panic. -/
def OnlyPanics {α : Type} (r : Except Abort α) : Prop :=
  ∀ e, r = .error e → ∃ p, e = .panicked p

namespace OnlyPanics

variable {α β : Type}

theorem ok (a : α) : OnlyPanics (.ok a) := by rintro e ⟨⟩

theorem pure (a : α) : OnlyPanics (Pure.pure a) := ok a

theorem panic (p : Panic) : OnlyPanics (.error (.panicked p) : Except Abort α) := by
  rintro e ⟨⟩
  exact ⟨p, rfl⟩

theorem bind {x : Except Abort α} {f : α → Except Abort β} (hx : OnlyPanics x)
    (hf : ∀ a, OnlyPanics (f a)) : OnlyPanics (x >>= f) := by
  intro e he
  cases x with
  | ok a => exact hf a e he
  | error e' =>
      obtain rfl : e' = e := by injection he
      exact hx e' rfl

theorem nth (xs : List α) (i : Nat) : OnlyPanics (nth xs i) := by
  unfold GrpcEpub.nth
  cases xs[i]? with
  | some x => exact ok x
  | none => exact panic .index

theorem expect (o : Option α) : OnlyPanics (expect o) := by
  cases o with
  | some x => exact ok x
  | none => exact panic .expected

theorem add32 (a b : Nat) : OnlyPanics (Book.add32 a b) := by
  unfold Book.add32
  split
  · exact ok _
  · exact panic .overflow

theorem ne_gone {r : Except Abort α} (h : OnlyPanics r) : r ≠ .error .gone := fun hgone => by
  obtain ⟨p, hp⟩ := h _ hgone
  cases hp

end OnlyPanics

theorem bind_ne_gone {α β : Type} {x : Except Abort α} {f : α → Except Abort β}
    (hx : x ≠ .error .gone) (hf : ∀ a, f a ≠ .error .gone) : (x >>= f) ≠ .error .gone := by
  cases x with
  | ok a => exact hf a
  | error e => exact fun h => hx (by injection h with h; rw [h])

theorem nth_ok {α : Type} {xs : List α} {i : Nat} {x : α} (h : nth xs i = .ok x) :
    xs[i]? = some x := by
  unfold nth at h
  cases hx : xs[i]? with
  | none => simp [hx] at h
  | some y => simpa [hx] using h

theorem nth_getD {α : Type} [Inhabited α] {xs : List α} {i : Nat} {x : α}
    (h : nth xs i = .ok x) : x = xs.getD i default := by
  rw [List.getD_eq_getElem?_getD, nth_ok h, Option.getD_some]

theorem nth_mem {α : Type} {xs : List α} {i : Nat} {x : α} (h : nth xs i = .ok x) : x ∈ xs :=
  List.mem_of_getElem? (nth_ok h)

theorem expect_ok {α : Type} {o : Option α} {x : α} (h : expect o = .ok x) : o = some x := by
  cases o with
  | none => cases h
  | some y => simpa [expect] using h

theorem Book.add32_ok {a b c : Nat} (h : Book.add32 a b = .ok c) : c = a + b ∧ a + b ≤ u32Max := by
  unfold Book.add32 at h
  split at h
  · rename_i hle
    exact ⟨by simpa using h.symm, hle⟩
  · cases h

namespace Book

variable {book : Book}

theorem item_of_nth {i : Nat} {target : Resolved} (h : nth book.resolved i = .ok target) :
    book.item i = target :=
  (nth_getD h).symm

/-! ## Chapter sources

The chain of fallbacks and the choice along it. -/

/-- The chain is followed by index. -/
theorem fallbackChain_panics : ∀ (room last : Nat) (chain : List Nat),
    OnlyPanics (book.fallbackChain last chain room)
  | 0, _, chain => .ok chain
  | room + 1, last, chain => by
      refine .bind (.nth _ _) ?_
      intro target
      split
      · exact .ok chain
      · split
        · split
          · exact .ok chain
          · exact fallbackChain_panics room _ _
        · exact .ok chain

theorem heldItems_panics : ∀ chain : List Nat, OnlyPanics (book.heldItems chain)
  | [] => .ok []
  | _ :: rest => .bind (.nth _ _) fun _ => .bind (heldItems_panics rest) fun _ => .ok _

theorem chapterSource_panics (primary : Nat) : OnlyPanics (book.chapterSource primary) :=
  .bind (fallbackChain_panics _ _ _) fun chain =>
    .bind (heldItems_panics chain) fun _ => .ok _

/-! ## Links

From an item to its overlay, and from there to the href an event names. -/

/-- The loop over the manifest is a `filterMap`. -/
theorem overlayLinksFrom_ok :
    ∀ {targets : List (Resolved × Nat)} {pairs : List (Nat × Nat)},
      book.overlayLinksFrom targets = .ok pairs →
      pairs = targets.filterMap fun (target, position) =>
        match book.byId.get target.item.mediaOverlay with
        | none => none
        | some overlay =>
            if (book.item overlay).unusable.isNone then some (position, overlay) else none
  | [], _, h => by cases h; rfl
  | (target, position) :: rest, pairs, h => by
      unfold overlayLinksFrom at h
      cases hlink : book.byId.get target.item.mediaOverlay with
      | none =>
          simp only [hlink] at h
          simpa [hlink] using overlayLinksFrom_ok h
      | some overlay =>
          simp only [hlink] at h
          obtain ⟨narration, hnth, h⟩ := Except.bind_ok h
          obtain ⟨others, hothers, h⟩ := Except.bind_ok h
          cases h
          rw [List.filterMap_cons, ← overlayLinksFrom_ok hothers]
          simp only [hlink, item_of_nth hnth]
          cases narration.unusable <;> rfl

theorem overlayLinks_ok {pairs : List (Nat × Nat)} (h : book.overlayLinks = .ok pairs) :
    pairs = book.links :=
  overlayLinksFrom_ok h

theorem overlayLinksFrom_panics (targets : List (Resolved × Nat)) :
    OnlyPanics (book.overlayLinksFrom targets) := by
  induction targets with
  | nil => exact .ok _
  | cons head rest ih =>
      unfold overlayLinksFrom
      split
      · exact ih
      · exact (OnlyPanics.nth _ _).bind fun _ => ih.bind fun _ => .pure _

theorem overlayHref_ok {position : Nat} {path : Str}
    (h : book.overlayHref book.links position = .ok path) : path = book.overlayPath position := by
  unfold overlayHref at h
  unfold overlayPath
  generalize book.links.find? _ = owned at h ⊢
  cases owned with
  | none => simpa [pure, Except.pure] using h.symm
  | some pair =>
      obtain ⟨target, hnth, h⟩ := Except.bind_ok h
      cases h
      simp only [item_of_nth hnth]

theorem overlayHref_panics (pairs : List (Nat × Nat)) (position : Nat) :
    OnlyPanics (book.overlayHref pairs position) := by
  unfold overlayHref
  split
  · exact (OnlyPanics.nth _ _).bind fun _ => .pure _
  · exact .pure _

theorem lastUseFrom_panics (pairs : List ((Nat × Nat) × Nat)) :
    ∀ uses : HashMap Nat Nat, OnlyPanics (book.lastUseFrom pairs uses) := by
  induction pairs with
  | nil => exact fun uses => .ok uses
  | cons head rest ih =>
      intro uses
      unfold lastUseFrom
      refine (OnlyPanics.nth _ _).bind ?_
      intro target
      split
      · exact ih _
      · exact ih _

/-! ## Navigation and the opening event

The source of the table of contents is chosen once and used twice, for the event of the
navigation and for the info. -/

theorem navDocument_panics : OnlyPanics book.navDocument := by
  unfold navDocument
  split
  · exact (OnlyPanics.nth _ _).bind fun _ => .pure _
  · exact .pure _

theorem ncxDocument_panics : OnlyPanics book.ncxDocument := by
  unfold ncxDocument
  split
  · exact (OnlyPanics.nth _ _).bind fun _ => .pure _
  · exact .pure _

theorem navigationSource_panics : OnlyPanics book.navigationSource := by
  refine navDocument_panics.bind ?_
  intro found
  cases found with
  | some source => exact .pure _
  | none => exact ncxDocument_panics

theorem navigationHref_panics (source : Option NavigationSource) (fromNcx : Bool) :
    OnlyPanics (book.navigationHref source fromNcx) := by
  unfold navigationHref
  split
  · split
    · exact (OnlyPanics.nth _ _).bind fun _ => .pure _
    · exact .pure _
  · exact .pure _

theorem info_panics (spine : List SpineEntry) (source : Option NavigationSource) :
    OnlyPanics (book.info spine source) :=
  (navigationHref_panics source false).bind fun _ =>
    (navigationHref_panics source true).bind fun _ => .pure _

/-! ## The plan

The loop of `plan` carries warnings along, which the script does not know; `planItem_ok` says
what one turn returns beside them. -/

theorem chapterEntries_ok :
    ∀ {spine : List SpineEntry} {entries : List Nat}, book.chapterEntries spine = .ok entries →
      entries = spine.map book.chapterEntry
  | [], _, h => by cases h; rfl
  | chapter :: rest, entries, h => by
      obtain ⟨target, hnth, h⟩ := Except.bind_ok h
      obtain ⟨entry, hentry, h⟩ := Except.bind_ok h
      obtain ⟨others, hothers, h⟩ := Except.bind_ok h
      cases h
      rw [List.map_cons, chapterEntries_ok hothers, chapterEntry, item_of_nth hnth,
        expect_ok hentry, Option.getD_some]

theorem chapterEntries_panics (spine : List SpineEntry) :
    OnlyPanics (book.chapterEntries spine) := by
  induction spine with
  | nil => exact .ok _
  | cons chapter rest ih =>
      exact (OnlyPanics.nth _ _).bind fun _ => (OnlyPanics.expect _).bind fun _ =>
        ih.bind fun _ => .pure _

/-- One turn keeps its item only when its fate is to be sent. -/
theorem planItem_ok {limits : Effective} {sources entries : List Nat} {plan plan' : Plan}
    {item : Resolved × Nat} (h : book.planItem limits sources entries plan item = .ok plan') :
    plan'.pending = plan.pending ++ ((book.fate limits sources entries item.2 item.1).entry.map
      fun entry => (entry, item.2)).toList := by
  obtain ⟨skipped, -, h⟩ := Except.bind_ok h
  cases h
  rfl

theorem planItem_panics (limits : Effective) (sources entries : List Nat) (plan : Plan)
    (item : Resolved × Nat) : OnlyPanics (book.planItem limits sources entries plan item) := by
  refine OnlyPanics.bind ?_ fun skipped => .pure _
  unfold countSkipped
  split
  · exact .add32 _ _
  · exact .ok _

theorem plan_ok {limits : Effective} {sources entries : List Nat} :
    ∀ {items : List (Resolved × Nat)} {plan plan' : Plan},
      items.foldlM (book.planItem limits sources entries) plan = .ok plan' →
      plan'.pending = plan.pending ++ items.filterMap fun (target, position) =>
        (book.fate limits sources entries position target).entry.map
          fun entry => (entry, position)
  | [], plan, _, h => by cases h; simp
  | (target, position) :: items, plan, plan', h => by
      rw [List.foldlM_cons] at h
      obtain ⟨next, hnext, h⟩ := Except.bind_ok h
      rw [plan_ok h, planItem_ok hnext, List.append_assoc, List.filterMap_cons]
      cases hentry : (book.fate limits sources entries position target).entry <;> simp [hentry]

theorem plan_panics (limits : Effective) (sources entries : List Nat)
    (items : List (Resolved × Nat)) : ∀ plan : Plan,
    OnlyPanics (items.foldlM (book.planItem limits sources entries) plan) := by
  induction items with
  | nil => exact fun plan => .pure plan
  | cons item items ih =>
      intro plan
      rw [List.foldlM_cons]
      exact (planItem_panics limits sources entries plan item).bind fun next => ih next

end Book

end GrpcEpub
