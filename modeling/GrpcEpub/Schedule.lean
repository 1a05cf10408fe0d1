/-
# `GrpcEpub.Schedule` — which entries a book makes the service inflate

A book decides what will be inflated before any of it is: every entry the
driver asks for, in order, and which of them it keeps for a later pass.
`Book.fetches` is that list with what was kept taken out.  It is a list of
positions; `GrpcEpub.Completion` shows that the driver inflates it.

The first half of the file is about the driver's decisions, which on a resolved
spine are all made: no index is out of range, and only a counter can overflow.
-/
import GrpcEpub.Files
import GrpcEpub.Lib.Cache

namespace GrpcEpub

namespace Book

open Cache

variable (book : Book) (limits : Effective) (spine : List SpineEntry)

/-! ## The schedule

Uses of entries in the order of the passes, and what is fetched for them. -/

/-- The entries the walk asks for: each chapter's, and each resource's. -/
def willEmit : List Nat :=
  spine.map book.chapterEntry ++ (book.resources limits spine).map Prod.fst

/-- The navigation document asked for. -/
def navigationUses (source : Option NavigationSource) (willEmit : List Nat) : List (Use Nat) :=
  match limits.parseNavigation, source with
  | true, some source => [⟨source.entry, decide (source.entry ∈ willEmit)⟩]
  | _, _ => []

/-- The entry a pair's overlay is in. -/
def overlayEntry (pair : Nat × Nat) : Option Nat := (book.item pair.2).entry

/-- The overlays asked for, one pair at a time.  What a later pair or the walk
asks for again is kept. -/
def overlayUses (willEmit : List Nat) : List (Nat × Nat) → List (Use Nat)
  | [] => []
  | pair :: rest =>
      match book.overlayEntry pair with
      | none => overlayUses willEmit rest
      | some entry =>
          ⟨entry, decide (entry ∈ willEmit ∨ entry ∈ rest.filterMap book.overlayEntry)⟩ ::
            overlayUses willEmit rest

/-- An entry the walk asks for, and does not keep. -/
def sentUse (entry : Nat) : Use Nat := ⟨entry, false⟩

/-- What the walk asks for. -/
def walkUses (spine : List (SpineEntry × Nat)) (pending : List (Nat × Nat)) : List (Use Nat) :=
  (interleave Prod.fst (fun visit => book.chapterEntry visit.1) spine pending).map
    (Sum.elim (fun item => sentUse item.1) fun visit => sentUse (book.chapterEntry visit.1))

/-- Where a book's navigation lives, when the archive holds it. -/
def navigated : Option NavigationSource :=
  match book.navigationSource with
  | .ok source => source
  | .error _ => none

/-- What is asked for ahead of the walk. -/
def aheadUses : List (Use Nat) :=
  navigationUses limits book.navigated (book.willEmit limits spine) ++
    if limits.parseMediaOverlays then book.overlayUses (book.willEmit limits spine) book.links
    else []

/-- Every use of an entry while the events go out. -/
def uses : List (Use Nat) :=
  book.aheadUses limits spine ++ book.walkUses spine.zipIdx (book.resources limits spine)

/-- The entries inflated while the events go out, in order. -/
def fetches : List Nat := fetched ∅ (book.uses limits spine)

/-- Whether a manifest item counts as skipped. -/
def skips (sources entries : List Nat) (item : Resolved × Nat) : Bool :=
  (book.fate limits sources entries item.2 item.1).skips

/-- How many manifest items the trailer counts as skipped. -/
def skipped : Nat :=
  book.resolved.zipIdx.countP
    (book.skips limits (spine.map SpineEntry.source) (spine.map book.chapterEntry))

/-- The counts of the trailer stay in their type. -/
structure Counts : Prop where
  chapters : spine.length ≤ u32Max
  resources : (book.resources limits spine).length ≤ u32Max
  skipped : book.skipped limits spine ≤ u32Max

/-! ## The decisions are made

Positions come from the two maps, so each of them is in range. -/

variable {book limits spine}

/-- What a lookup finds is an entry of the archive. -/
theorem lookup_lt {path base href : Str} {k : Nat}
    (h : Extract.lookup book.index path base href = some k) : k < book.entries.length := by
  have hindex : ∀ {name : Str}, book.index.get name = some k → k < book.entries.length :=
    fun hget => by
      obtain ⟨entry, hentry, -⟩ := Extract.indexOf_get hget
      exact (List.getElem?_eq_some_iff.mp hentry).1
  unfold Extract.lookup at h
  split at h
  · rename_i found hget
    exact hindex (hget.trans h)
  · split at h
    · exact hindex h
    · cases h

theorem entry_lt {position k : Nat} (h : (book.item position).entry = some k) :
    k < book.entries.length := by
  by_cases hrange : position < book.resolved.length
  · obtain ⟨item, -, hitem⟩ := item_eq hrange
    rw [hitem] at h
    unfold Extract.resolveItem at h
    split at h
    · exact lookup_lt h
    · cases h
    · cases h
  · rw [item, List.getD_eq_getElem?_getD, List.getElem?_eq_none (Nat.not_lt.mp hrange)] at h
    cases h

theorem overlayLinksFrom_total : ∀ targets : List (Resolved × Nat),
    ∃ pairs, book.overlayLinksFrom targets = .ok pairs
  | [] => ⟨[], rfl⟩
  | (target, position) :: rest => by
      obtain ⟨others, hothers⟩ := overlayLinksFrom_total rest
      unfold overlayLinksFrom
      cases hlink : book.byId.get target.item.mediaOverlay with
      | none => exact ⟨others, hothers⟩
      | some overlay =>
          simp only [nth_item (byId_lt hlink), hothers]
          exact ⟨_, rfl⟩

theorem overlayLinks_total : book.overlayLinks = .ok book.links := by
  obtain ⟨pairs, hpairs⟩ := @overlayLinksFrom_total book book.resolved.zipIdx
  rw [← overlayLinks_ok hpairs]
  exact hpairs

/-- An overlay is a manifest item. -/
theorem overlay_lt {pair : Nat × Nat} (h : pair ∈ book.links) :
    pair.1 < book.resolved.length ∧ pair.2 < book.resolved.length := by
  obtain ⟨⟨target, position⟩, hmem, heq⟩ := List.mem_filterMap.mp h
  dsimp only at heq
  cases hlink : book.byId.get target.item.mediaOverlay with
  | none => simp [hlink] at heq
  | some overlay =>
      simp only [hlink, Option.ite_none_right_eq_some, Option.some.injEq] at heq
      obtain ⟨-, rfl⟩ := heq
      exact ⟨(List.getElem?_eq_some_iff.mp (List.mem_zipIdx_iff_getElem?.mp hmem)).1,
        byId_lt hlink⟩

theorem overlayHref_total (position : Nat) :
    book.overlayHref book.links position = .ok (book.overlayPath position) := by
  unfold overlayHref overlayPath
  generalize hfind : book.links.find? _ = owned
  cases owned with
  | none => rfl
  | some pair =>
      simp only [nth_item (overlay_lt (List.mem_of_find?_eq_some hfind)).2]
      rfl

/-- The map of last uses: for an entry that some pair's overlay is in, the last
such pair. -/
theorem lastUseFrom_total (e : Nat) : ∀ {pairs : List (Nat × Nat)} (round : Nat)
    (uses : HashMap Nat Nat), (∀ pair ∈ pairs, pair.2 < book.resolved.length) →
    ∃ found, book.lastUseFrom (pairs.zipIdx round) uses = .ok found ∧
      (e ∈ pairs.filterMap book.overlayEntry → ∃ last, found.get e = some last ∧ round ≤ last) ∧
      (e ∉ pairs.filterMap book.overlayEntry → found.get e = uses.get e)
  | [], _, uses, _ => ⟨uses, rfl, by simp, by simp⟩
  | pair :: rest, round, uses, hrange => by
      have hnth := nth_item (hrange pair List.mem_cons_self)
      have hrest := fun p hp => hrange p (List.mem_cons_of_mem _ hp)
      rw [List.zipIdx_cons, lastUseFrom, hnth]
      cases hentry : (book.item pair.2).entry with
      | none =>
          obtain ⟨found, hfound, hlast, hother⟩ := lastUseFrom_total e (round + 1) uses hrest
          rw [List.filterMap_cons_none (show book.overlayEntry pair = none from hentry)]
          refine ⟨found, by simpa [bind, Except.bind, hentry] using hfound, fun hmem => ?_, hother⟩
          obtain ⟨last, hget, hle⟩ := hlast hmem
          exact ⟨last, hget, by omega⟩
      | some entry =>
          obtain ⟨found, hfound, hlast, hother⟩ :=
            lastUseFrom_total e (round + 1) (uses.insert entry round) hrest
          rw [List.filterMap_cons_some (show book.overlayEntry pair = some entry from hentry)]
          refine ⟨found, by simpa [bind, Except.bind, hentry] using hfound, fun hmem => ?_,
            fun hmem => ?_⟩
          · by_cases hlater : e ∈ rest.filterMap book.overlayEntry
            · obtain ⟨last, hget, hle⟩ := hlast hlater
              exact ⟨last, hget, by omega⟩
            · obtain rfl := (List.mem_cons.mp hmem).resolve_right hlater
              exact ⟨round, by rw [hother hlater, HashMap.get_insert, if_pos rfl], le_rfl⟩
          · obtain ⟨hne, hlater⟩ := not_or.mp (mt List.mem_cons.mpr hmem)
            rw [hother hlater, HashMap.get_insert, if_neg hne]

theorem chapterEntries_total : ∀ {spine : List SpineEntry},
    (∀ chapter ∈ spine, book.ChapterFound chapter) →
      book.chapterEntries spine = .ok (spine.map book.chapterEntry)
  | [], _ => rfl
  | chapter :: rest, h => by
      have hfound := h chapter List.mem_cons_self
      rw [chapterEntries, nth_item hfound.inRange,
        chapterEntries_total fun c hc => h c (List.mem_cons_of_mem _ hc)]
      simp only [bind, Except.bind, hfound.entry]
      rfl

/-- One turn of the planning loop counts an item that is skipped, or overflows. -/
theorem planItem_cases (sources entries : List Nat) {plan : Plan} (item : Resolved × Nat)
    (hle : plan.skipped ≤ u32Max) :
    (∃ next, book.planItem limits sources entries plan item = .ok next ∧
        next.skipped = plan.skipped + (book.skips limits sources entries item).toNat ∧
        next.skipped ≤ u32Max) ∨
      (∃ e, book.planItem limits sources entries plan item = .error e) ∧
        u32Max < plan.skipped + (book.skips limits sources entries item).toNat := by
  unfold planItem countSkipped skips
  dsimp only
  cases (book.fate limits sources entries item.2 item.1).skips with
  | false => exact .inl ⟨_, rfl, rfl, hle⟩
  | true =>
      by_cases hfits : plan.skipped + 1 ≤ u32Max
      · rw [if_pos rfl, add32, if_pos hfits]
        exact .inl ⟨_, rfl, rfl, hfits⟩
      · rw [if_pos rfl, add32, if_neg hfits]
        exact .inr ⟨⟨_, rfl⟩, Nat.not_le.mp hfits⟩

/-- The planning loop counts what it skips, and fails where the count overflows. -/
theorem planItems_cases (sources entries : List Nat) : ∀ (items : List (Resolved × Nat))
    {plan : Plan}, plan.skipped ≤ u32Max →
    (∃ done, items.foldlM (book.planItem limits sources entries) plan = .ok done ∧
        done.skipped = plan.skipped + items.countP (book.skips limits sources entries) ∧
        done.skipped ≤ u32Max) ∨
      (∃ e, items.foldlM (book.planItem limits sources entries) plan = .error e) ∧
        u32Max < plan.skipped + items.countP (book.skips limits sources entries)
  | [], plan, hle => .inl ⟨plan, rfl, rfl, hle⟩
  | item :: items, plan, hle => by
      have hcount : (item :: items).countP (book.skips limits sources entries) =
          items.countP (book.skips limits sources entries) +
            (book.skips limits sources entries item).toNat := by
        rw [List.countP_cons]
        cases book.skips limits sources entries item <;> rfl
      rw [List.foldlM_cons, hcount]
      rcases planItem_cases sources entries item hle with
        ⟨next, hnext, hskipped, hfits⟩ | ⟨⟨e, he⟩, hover⟩
      · rw [hnext]
        rcases planItems_cases sources entries items hfits with
          ⟨done, hdone, hsum, hle'⟩ | ⟨⟨e, he⟩, hover⟩
        · exact .inl ⟨done, hdone, by omega, hle'⟩
        · exact .inr ⟨⟨e, he⟩, by omega⟩
      · rw [he]
        exact .inr ⟨⟨e, rfl⟩, by omega⟩

/-- The plan of a book, whatever has been warned of. -/
theorem plan_total (h : book.skipped limits spine ≤ u32Max) (warnings : Warnings) :
    ∃ plan, book.resolved.zipIdx.foldlM (book.planItem limits (spine.map SpineEntry.source)
        (spine.map book.chapterEntry)) { warnings } = .ok plan ∧
      plan.skipped = book.skipped limits spine := by
  rcases planItems_cases (spine.map SpineEntry.source) (spine.map book.chapterEntry)
      book.resolved.zipIdx (show ({ warnings } : Plan).skipped ≤ u32Max from Nat.zero_le _) with
    ⟨plan, hplan, hcount, -⟩ | ⟨-, hover⟩
  · exact ⟨plan, hplan, hcount.trans (Nat.zero_add _)⟩
  · rw [Nat.zero_add] at hover
    exact absurd h (Nat.not_le.mpr hover)

theorem plan_overflows (h : u32Max < book.skipped limits spine) (warnings : Warnings) :
    ∃ e, book.resolved.zipIdx.foldlM (book.planItem limits (spine.map SpineEntry.source)
      (spine.map book.chapterEntry)) { warnings } = .error e := by
  rcases planItems_cases (spine.map SpineEntry.source) (spine.map book.chapterEntry)
      book.resolved.zipIdx (show ({ warnings } : Plan).skipped ≤ u32Max from Nat.zero_le _) with
    ⟨plan, -, hcount, hle⟩ | ⟨he, -⟩
  · rw [hcount, Nat.zero_add] at hle
    exact absurd h (Nat.not_lt.mpr hle)
  · exact he

/-! ## Nothing is left behind

What a pass keeps for the walk is used there. -/

theorem map_chapterEntry_zipIdx (spine : List SpineEntry) :
    spine.zipIdx.map (fun visit => book.chapterEntry visit.1) = spine.map book.chapterEntry :=
  List.map_map.symm.trans (congrArg (List.map book.chapterEntry) (List.zipIdx_map_fst ..))

/-- The entries the walk asks for are those it sends. -/
theorem walkUses_keys_perm (spine : List (SpineEntry × Nat)) (pending : List (Nat × Nat)) :
    ((book.walkUses spine pending).map Use.key).Perm
      (pending.map Prod.fst ++ spine.map fun visit => book.chapterEntry visit.1) := by
  unfold walkUses
  rw [List.map_map]
  refine ((perm_lefts_rights _).map _).trans ?_
  rw [lefts_interleave, rights_interleave, List.map_append, List.map_map, List.map_map]
  exact .refl _

theorem walkUses_again {spine : List (SpineEntry × Nat)} {pending : List (Nat × Nat)}
    {use : Use Nat} (h : use ∈ book.walkUses spine pending) : use.again = false := by
  obtain ⟨item, -, rfl⟩ := List.mem_map.mp h
  cases item <;> rfl

/-- By induction on the pairs: what an overlay leaves in the cache is for the walk. -/
theorem mem_left_overlayUses {willEmit : List Nat} {k : Nat} : ∀ {pairs : List (Nat × Nat)}
    {held : Finset Nat}, k ∈ left held (book.overlayUses willEmit pairs) →
      k ∈ willEmit ∨ k ∈ held ∧ k ∉ pairs.filterMap book.overlayEntry
  | [], held, h => .inr ⟨h, List.not_mem_nil⟩
  | pair :: rest, held, h => by
      unfold overlayUses at h
      cases hentry : book.overlayEntry pair with
      | none =>
          rw [hentry] at h
          simpa [hentry] using mem_left_overlayUses h
      | some entry =>
          rw [hentry, left_cons] at h
          rw [List.filterMap_cons_some hentry]
          refine (mem_left_overlayUses h).elim .inl ?_
          rintro ⟨hheld, hrest⟩
          rw [mem_after] at hheld
          dsimp only at hheld
          split at hheld
          · -- it was kept for the walk, as no later pair asks for it
            rename_i heq
            subst heq
            exact .inl ((of_decide_eq_true hheld).resolve_right hrest)
          · rename_i hne
            refine .inr ⟨hheld, fun hmem => ?_⟩
            rcases List.mem_cons.mp hmem with rfl | hmem
            · exact hne rfl
            · exact hrest hmem

/-- What is kept ahead of the walk is kept for it. -/
theorem mem_left_aheadUses {k : Nat} (h : k ∈ left ∅ (book.aheadUses limits spine)) :
    k ∈ book.willEmit limits spine := by
  have hnavigation : k ∈ left ∅ (navigationUses limits book.navigated
      (book.willEmit limits spine)) → k ∈ book.willEmit limits spine := by
    unfold navigationUses
    split
    · intro hk
      rw [left_cons, left_nil, mem_after] at hk
      dsimp only at hk
      split at hk
      · rename_i heq
        exact heq ▸ of_decide_eq_true hk
      · cases hk
    · exact fun hk => by cases hk
  unfold aheadUses at h
  rw [left_append] at h
  split at h
  · exact (mem_left_overlayUses h).elim id fun hk => hnavigation hk.1
  · exact hnavigation h

/-- The walk takes everything that was kept. -/
theorem left_uses : left ∅ (book.uses limits spine) = ∅ := by
  refine Finset.eq_empty_of_forall_notMem ?_
  intro k
  unfold uses
  rw [left_append]
  refine not_mem_left_of_used _ (fun use huse _ => walkUses_again huse) ?_
  by_cases hk : k ∈ book.willEmit limits spine
  · right
    have hmem : k ∈ (book.walkUses spine.zipIdx (book.resources limits spine)).map Use.key := by
      rw [(walkUses_keys_perm _ _).mem_iff, map_chapterEntry_zipIdx]
      exact (List.mem_append.mp hk).elim (List.mem_append_right _) (List.mem_append_left _)
    obtain ⟨use, huse, hkey⟩ := List.mem_map.mp hmem
    exact ⟨use, huse, hkey⟩
  · exact .inl fun h => hk (mem_left_aheadUses h)

/-- Every use is fetched or was kept for. -/
theorem fetches_perm : (book.fetches limits spine ++
      ((book.aheadUses limits spine).filter (·.again)).map Use.key).Perm
    ((book.aheadUses limits spine).map Use.key ++ book.willEmit limits spine) := by
  have hwalk : (book.walkUses spine.zipIdx (book.resources limits spine)).filter (·.again) = [] :=
    List.filter_eq_nil_iff.mpr fun use huse => by simp [walkUses_again huse]
  have hperm := fetched_perm (show left ∅ (book.uses limits spine) = ∅ from left_uses)
  unfold uses at hperm
  rw [List.filter_append, hwalk, List.append_nil, List.map_append] at hperm
  refine hperm.trans (List.Perm.append_left _ ?_)
  refine (walkUses_keys_perm _ _).trans ?_
  rw [map_chapterEntry_zipIdx]
  exact List.perm_append_comm

end Book

end GrpcEpub
