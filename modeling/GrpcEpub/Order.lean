/-
# `GrpcEpub.Order` — chapters in spine order, resources as they are reached

The walk against the law its module documentation gives: the spine decides
where a chapter stands, the archive where a resource does.  Sorting and
de-duplicating leave each qualifying entry once, under its first manifest
item; the interleaving puts it in front of the first chapter stored behind it.

The resources of a book are found in the order of the manifest, sorted by position in the archive
and cleared of duplicates (`archiveOrder`); the walk then takes them from the front.  `WalkLaw`
says of a list of files what that amounts to, without a loop.
-/
import GrpcEpub.Contract
import GrpcEpub.Sample

namespace GrpcEpub

namespace Book

/-! ## Archive order

Sorted by position, strictly, and with every entry that was pending in it. -/

instance : IsTrans (Nat × Nat) pairLe where
  trans := by
    unfold pairLe
    intro a b c hab hbc
    omega

instance : Std.Total pairLe where
  total := by
    unfold pairLe
    intro a b
    omega

theorem mem_dedupFrom {x : Nat × Nat} : ∀ {kept : Nat × Nat} {l : List (Nat × Nat)},
    x ∈ dedupFrom kept l → x ∈ kept :: l
  | kept, [], h => h
  | kept, next :: rest, h => by
      unfold dedupFrom at h
      split at h
      · rcases List.mem_cons.mp (mem_dedupFrom h) with rfl | h
        · exact List.mem_cons_self
        · exact List.mem_cons_of_mem _ (List.mem_cons_of_mem _ h)
      · rcases List.mem_cons.mp h with rfl | h
        · exact List.mem_cons_self
        · exact List.mem_cons_of_mem _ (mem_dedupFrom h)

/-- In a sorted list the kept pairs have increasing keys. -/
theorem dedupFrom_pairwise : ∀ {kept : Nat × Nat} {l : List (Nat × Nat)},
    (kept :: l).Pairwise pairLe → (dedupFrom kept l).Pairwise (fun a b => a.1 < b.1)
  | kept, [], _ => by simp [dedupFrom]
  | kept, next :: rest, h => by
      obtain ⟨hkept, hnext⟩ := List.pairwise_cons.mp h
      unfold dedupFrom
      split
      · exact dedupFrom_pairwise (List.pairwise_cons.mpr
          ⟨fun x hx => hkept x (List.mem_cons_of_mem _ hx), (List.pairwise_cons.mp hnext).2⟩)
      · rename_i hne
        refine List.pairwise_cons.mpr ⟨fun x hx => ?_, dedupFrom_pairwise hnext⟩
        -- every later key is at least the next one's, which is past the kept one's
        have hx' := mem_dedupFrom hx
        have hle : next.1 ≤ x.1 := by
          rcases List.mem_cons.mp hx' with rfl | hx'
          · exact Nat.le_refl _
          · have := (List.pairwise_cons.mp hnext).1 x hx'
            unfold pairLe at this
            omega
        have := hkept next List.mem_cons_self
        unfold pairLe at this
        omega

/-- Every pair is stood for by a kept one with its key and no larger a position. -/
theorem dedupFrom_covers : ∀ {kept : Nat × Nat} {l : List (Nat × Nat)},
    (kept :: l).Pairwise pairLe → ∀ y ∈ kept :: l, ∃ x ∈ dedupFrom kept l, x.1 = y.1 ∧ x.2 ≤ y.2
  | kept, [], _, y, hy => ⟨kept, List.mem_cons_self, by simp_all⟩
  | kept, next :: rest, h, y, hy => by
      obtain ⟨hkept, hnext⟩ := List.pairwise_cons.mp h
      unfold dedupFrom
      split
      · rename_i heq
        have hsorted : (kept :: rest).Pairwise pairLe := List.pairwise_cons.mpr
          ⟨fun x hx => hkept x (List.mem_cons_of_mem _ hx), (List.pairwise_cons.mp hnext).2⟩
        rcases List.mem_cons.mp hy with rfl | hy
        · exact dedupFrom_covers hsorted y List.mem_cons_self
        · rcases List.mem_cons.mp hy with rfl | hy
          · -- the next pair is dropped, and the kept one stands for it
            obtain ⟨x, hx, hkey, hle⟩ := dedupFrom_covers hsorted kept List.mem_cons_self
            have := hkept y List.mem_cons_self
            unfold pairLe at this
            exact ⟨x, hx, by omega, by omega⟩
          · exact dedupFrom_covers hsorted y (List.mem_cons_of_mem _ hy)
      · rcases List.mem_cons.mp hy with rfl | hy
        · exact ⟨y, List.mem_cons_self, rfl, Nat.le_refl _⟩
        · obtain ⟨x, hx, hkey, hle⟩ := dedupFrom_covers hnext y hy
          exact ⟨x, List.mem_cons_of_mem _ hx, hkey, hle⟩

theorem archiveOrder_pairwise (pending : List (Nat × Nat)) :
    (archiveOrder pending).Pairwise (fun a b => a.1 < b.1) := by
  have hsorted := List.pairwise_insertionSort pairLe pending
  unfold archiveOrder dedupByKey
  split
  · exact .nil
  · rename_i first rest heq
    exact dedupFrom_pairwise (heq ▸ hsorted)

theorem archiveOrder_nodup (pending : List (Nat × Nat)) :
    ((archiveOrder pending).map Prod.fst).Nodup :=
  List.pairwise_map.mpr ((archiveOrder_pairwise pending).imp fun h => h.ne)

/-- Each key once, with the smallest position that has it. -/
theorem mem_archiveOrder {pending : List (Nat × Nat)} {entry position : Nat} :
    (entry, position) ∈ archiveOrder pending ↔
      (entry, position) ∈ pending ∧ ∀ p, (entry, p) ∈ pending → position ≤ p := by
  have hsorted := List.pairwise_insertionSort pairLe pending
  have hmem : ∀ x, x ∈ archiveOrder pending → x ∈ pending := by
    intro x hx
    rw [← List.mem_insertionSort pairLe]
    unfold archiveOrder dedupByKey at hx
    split at hx
    · cases hx
    · rename_i first rest heq
      rw [heq]
      exact mem_dedupFrom hx
  have hcovers : ∀ y ∈ pending, ∃ x ∈ archiveOrder pending, x.1 = y.1 ∧ x.2 ≤ y.2 := by
    intro y hy
    rw [← List.mem_insertionSort pairLe] at hy
    unfold archiveOrder dedupByKey
    split
    · rename_i heq
      rw [heq] at hy
      cases hy
    · rename_i first rest heq
      rw [heq] at hy hsorted
      exact dedupFrom_covers hsorted y hy
  constructor
  · intro h
    refine ⟨hmem _ h, fun p hp => ?_⟩
    obtain ⟨x, hx, hkey, hle⟩ := hcovers _ hp
    -- two kept pairs with one key are one pair
    have hsame := List.inj_on_of_nodup_map (archiveOrder_nodup pending) hx h hkey
    rw [hsame] at hle
    exact hle
  · rintro ⟨h, hmin⟩
    obtain ⟨⟨e, p⟩, hx, hkey, hle⟩ := hcovers _ h
    obtain rfl : e = entry := hkey
    have := hmin p (hmem _ hx)
    obtain rfl : p = position := by simp only at hle; omega
    exact hx

/-! ## What is sent as a resource

An item that `Qualifies` is one that the plan finds no reason to skip. -/

variable {book : Book}

/-- The conditions under which the walk sends a manifest item as a resource. -/
structure Qualifies (book : Book) (limits : Effective) (spine : List SpineEntry)
    (position entry : Nat) : Prop where
  inRange : position < book.resolved.length
  notSource : position ∉ spine.map SpineEntry.source
  usable : (book.item position).unusable = none
  present : (book.item position).entry = some entry
  inArchive : (book.item position).remote = false
  notChapter : entry ∉ spine.map book.chapterEntry
  notNested : Extract.isNestedArchive (book.item position).item.mediaType
    (book.item position).path = false
  selected : Extract.selected (Extract.classify (book.item position).item.mediaType) limits = true
  notObfuscated : entry ∉ book.obfuscated

/-- The questions of the planning loop, answered. -/
theorem fate_entry {limits : Effective} {sources entries : List Nat} {position entry : Nat}
    {target : Resolved} :
    (book.fate limits sources entries position target).entry = some entry ↔
      position ∉ sources ∧ target.unusable = none ∧ target.remote = false ∧
      target.entry = some entry ∧ entry ∉ entries ∧
      Extract.isNestedArchive target.item.mediaType target.path = false ∧
      Extract.selected (Extract.classify target.item.mediaType) limits = true ∧
      entry ∉ book.obfuscated := by
  unfold fate
  split
  · simp_all [Fate.entry]
  · split
    · simp_all [Fate.entry]
    · split
      · simp_all [Fate.entry]
      · split
        · simp_all [Fate.entry]
        · repeat' split
          all_goals simp_all [Fate.entry]
          all_goals grind

/-- The plan's loop collects the items that qualify. -/
theorem mem_pendingItems {limits : Effective} {spine : List SpineEntry} {entry position : Nat} :
    (entry, position) ∈ book.pendingItems limits spine ↔
      book.Qualifies limits spine position entry := by
  unfold pendingItems
  rw [List.mem_filterMap]
  constructor
  · rintro ⟨⟨target, p⟩, hmem, hfate⟩
    obtain ⟨e, he, heq⟩ := Option.map_eq_some_iff.mp hfate
    obtain ⟨rfl, rfl⟩ := Prod.mk.inj heq
    have htarget := List.mem_zipIdx_iff_getElem?.mp hmem
    have hitem : book.item p = target := by
      rw [item, List.getD_eq_getElem?_getD, htarget, Option.getD_some]
    obtain ⟨hsource, husable, hremote, hentry, hchapter, hnested, hselected, hplain⟩ :=
      fate_entry.mp he
    subst hitem
    exact ⟨(List.getElem?_eq_some_iff.mp htarget).1, hsource, husable, hentry, hremote, hchapter,
      hnested, hselected, hplain⟩
  · intro h
    refine ⟨(book.item position, position), ?_, ?_⟩
    · rw [List.mem_zipIdx_iff_getElem?, item, List.getD_eq_getElem?_getD,
        List.getElem?_eq_getElem h.inRange, Option.getD_some]
    · exact Option.map_eq_some_iff.mpr ⟨entry, fate_entry.mpr ⟨h.notSource, h.usable, h.inArchive,
        h.present, h.notChapter, h.notNested, h.selected, h.notObfuscated⟩, rfl⟩

end Book

/-! ## The order of the walk

The largest position that has been reached divides what has been sent of the resources from what
has not. -/

/-- The largest archive position among the first chapters of a spine. -/
def Book.reached (book : Book) (spine : List SpineEntry) (chapters : Nat) : Nat :=
  ((spine.take chapters).map book.chapterEntry).foldr max 0

theorem lt_foldr_max {r : Nat} (positions : List Nat) :
    r < positions.foldr max 0 ↔ ∃ e ∈ positions, r < e := by
  induction positions with
  | nil => simp
  | cons e rest ih => simp [ih]

/-- The walk over a book, as chapters (with their spine indices) and resources
(archive entry, manifest position). -/
structure WalkLaw (book : Book) (limits : Effective) (spine : List SpineEntry)
    (walk : List ((Nat × Nat) ⊕ (SpineEntry × Nat))) : Prop where
  chapters : rights walk = spine.zipIdx
  resources : ∀ entry position, (entry, position) ∈ lefts walk ↔
    book.Qualifies limits spine position entry ∧
      ∀ p, book.Qualifies limits spine p entry → position ≤ p
  increasing : (lefts walk).Pairwise (fun a b => a.1 < b.1)
  interleaved : ∀ k chapter, spine[k]? = some chapter → ∃ u v,
    walk = u ++ .inr (chapter, k) :: v ∧ rights u = spine.zipIdx.take k ∧
      ∀ resource ∈ lefts walk, resource ∈ lefts u ↔ resource.1 < book.reached spine (k + 1)

/-- The walk keeps the law. -/
theorem walkLaw_interleave (book : Book) (limits : Effective) (spine : List SpineEntry) :
    WalkLaw book limits spine (interleave Prod.fst (fun visit => book.chapterEntry visit.1)
      spine.zipIdx (book.resources limits spine)) where
  chapters := rights_interleave ..
  resources := fun entry position => by
    rw [lefts_interleave, Book.resources, Book.mem_archiveOrder]
    simp only [Book.mem_pendingItems]
  increasing := by
    rw [lefts_interleave]
    exact Book.archiveOrder_pairwise _
  interleaved := fun k chapter hk => by
    have hsplit : spine.zipIdx =
        spine.zipIdx.take k ++ (chapter, k) :: spine.zipIdx.drop (k + 1) := by
      have hget : spine.zipIdx[k]? = some (chapter, k) := by simp [hk]
      obtain ⟨hlt, hget⟩ := List.getElem?_eq_some_iff.mp hget
      rw [← hget, List.getElem_cons_drop, List.take_append_drop]
    obtain ⟨u, v, hwalk, hrights, hlefts⟩ := interleave_split Prod.fst
      (fun visit : SpineEntry × Nat => book.chapterEntry visit.1) (chapter, k)
      (spine.zipIdx.drop (k + 1)) (spine.zipIdx.take k) (book.resources limits spine)
      ((Book.archiveOrder_pairwise _).imp fun h => h.le)
    rw [← hsplit] at hwalk
    refine ⟨u, v, hwalk, hrights, fun resource hmem => ?_⟩
    rw [lefts_interleave] at hmem
    have hfst : (spine.zipIdx.take k).map Prod.fst = spine.take k := by
      rw [List.map_take, List.zipIdx_map_fst]
    have htake : (spine.take (k + 1)).map book.chapterEntry =
        (spine.zipIdx.take k ++ [(chapter, k)]).map fun visit => book.chapterEntry visit.1 := by
      rw [List.take_add_one, hk, Option.toList_some, List.map_append, List.map_append, ← hfst,
        List.map_map]
      rfl
    rw [hlefts, List.mem_filter, Book.reached, lt_foldr_max, htake]
    simp only [hmem, true_and, List.any_eq_true, decide_eq_true_eq, List.mem_map,
      exists_exists_and_eq_and]

/-! ## The events that carry a file

Chapters and resources, which only the walk sends. -/

/-- The file an event carries: its href and its bytes. -/
def Event.file {δ : Type} : Event δ → Option (Str × Bytes)
  | .chapter message => some (message.href, message.content)
  | .resource message => some (message.href, message.content)
  | _ => none

/-- The deliveries that carry a file. -/
def carried {δ : Type} (sent : List (Delivery δ)) : List (Delivery δ) :=
  sent.filter fun delivery => delivery.event.file.isSome

section Carried

variable {δ : Type}

theorem carried_append (l l' : List (Delivery δ)) : carried (l ++ l') = carried l ++ carried l' :=
  List.filter_append ..

theorem carried_eq_nil {l : List (Delivery δ)} (h : ∀ d ∈ l, d.event.file = none) :
    carried l = [] :=
  List.filter_eq_nil_iff.mpr fun d hd => by simp [h d hd]

theorem carried_opening (book : Book) (spine : List SpineEntry) :
    carried (Script.opening (δ := δ) book spine) = [] := by
  obtain ⟨info, hinfo, -⟩ := Script.opening_eq (δ := δ) book spine
  rw [hinfo]
  rfl

theorem carried_navigation (crates : Crates) (limits : Effective) (archive : MemoryArchive)
    (book : Book) : carried (Script.navigation (δ := δ) crates limits archive book) = [] := by
  unfold Script.navigation Script.navigationEvents
  repeat' split
  all_goals rfl

/-- Overlay events carry no file. -/
theorem carried_overlays (crates : Crates) (limits : Effective) (archive : MemoryArchive)
    (book : Book) : carried (Script.overlays (δ := δ) crates limits archive book) = [] := by
  refine carried_eq_nil ?_
  intro d hd
  unfold Script.overlays at hd
  split at hd
  · obtain ⟨pair, -, hd⟩ := List.mem_flatMap.mp hd
    unfold Script.overlayEvents at hd
    split at hd
    · cases hd
    · dsimp only at hd
      split at hd
      · cases hd
      · rw [List.mem_singleton.mp hd]
        rfl
  · cases hd

theorem carried_walk (archive : MemoryArchive) (book : Book) (spine : List (SpineEntry × Nat))
    (pending : List (Nat × Nat)) :
    carried (Script.walk (δ := δ) archive book spine pending) =
      Script.walk archive book spine pending := by
  refine List.filter_eq_self.mpr ?_
  intro d hd
  obtain ⟨item, -, rfl⟩ := List.mem_map.mp hd
  cases item <;> rfl

theorem carried_trailing {π : Projection} (limits : Effective) (hash : UInt64)
    (body : List (Delivery π.Document)) (status : ParseStatus) :
    carried (trailing π limits hash body status) = [] := by
  unfold trailing
  split <;> rfl

theorem carried_script (crates : Crates) (limits : Effective) (archive : MemoryArchive)
    (book : Book) (spine : List SpineEntry) :
    carried (script (δ := δ) crates limits archive book spine) =
      Script.walk archive book spine.zipIdx (book.resources limits spine) := by
  simp only [script, carried_append, carried_opening, carried_navigation, carried_overlays,
    carried_walk, List.nil_append]

/-- The files of a response are those of its walk. -/
theorem carried_response (π : Projection) (crates : Crates) (limits : Effective) (bytes : Bytes)
    (archive : MemoryArchive) (book : Book) (spine : List SpineEntry) (status : ParseStatus) :
    carried (response π crates limits bytes archive book spine status) =
      Script.walk archive book spine.zipIdx (book.resources limits spine) := by
  rw [response, carried_append, carried_script, carried_trailing, List.append_nil]

end Carried

/-- In the response of a completed call, chapters and resources are in the order of the walk. -/
theorem completed_walk_order (π : Projection) (crates : Crates) (limits : Effective)
    (bytes : Bytes) (client : Nat → Bool)
    (hcomplete : (run π crates limits bytes client).1 = .complete) :
    ∃ archive book spine walk, Prepared crates limits bytes archive book spine ∧
      carried (run π crates limits bytes client).2.sent =
        walk.map (Sum.elim (Script.resource archive book) (Script.chapter archive book)) ∧
      WalkLaw book limits spine walk := by
  rcases run_spec (π := π) client with hrefused | ⟨archive, book, spine, status, h⟩
  · exact absurd hcomplete hrefused.incomplete
  · refine ⟨archive, book, spine, _, h.prepared, ?_, walkLaw_interleave book limits spine⟩
    rw [h.complete.mp hcomplete, carried_response]
    rfl

theorem completed_walk_order_backwards :
    (run Sample.counting Sample.backwards.crates Sample.defaults Sample.backwards.bytes
      Sample.patient).1 = .complete ∧
    ∃ archive book spine walk,
      Prepared Sample.backwards.crates Sample.defaults Sample.backwards.bytes archive book spine ∧
      carried (run Sample.counting Sample.backwards.crates Sample.defaults Sample.backwards.bytes
        Sample.patient).2.sent =
        walk.map (Sum.elim (Script.resource archive book) (Script.chapter archive book)) ∧
      WalkLaw book Sample.defaults spine walk := by
  have hcomplete : (run Sample.counting Sample.backwards.crates Sample.defaults
    Sample.backwards.bytes Sample.patient).1 = .complete := by decide +kernel
  exact ⟨hcomplete, completed_walk_order Sample.counting Sample.backwards.crates Sample.defaults
    Sample.backwards.bytes Sample.patient hcomplete⟩

end GrpcEpub
