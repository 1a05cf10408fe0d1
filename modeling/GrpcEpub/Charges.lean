/-
# `GrpcEpub.Charges` — which calls inflate every entry once

`Preread` hands the bytes of a navigation document or an overlay to the walk, so that its entry
is charged to the budget once.  Two kinds of reads are not covered.  The container, the
`mimetype`, the encryption descriptor and the package document are read before there is a
`Preread`, and again when the manifest names them; and the navigation document is put back for
the walk only, not for an overlay in the same file.
-/
import GrpcEpub.Inflations
import GrpcEpub.Repacked

namespace GrpcEpub

open Cache

/-- Every entry of the archive is inflated once at most, and the trailer counts no more. -/
structure ChargedOnce {π : Projection} (archive : MemoryArchive) (book : Book) (call : Call π) :
    Prop where
  once : call.inflated.Nodup
  entriesRead : ∀ status, .status status ∈ call.sent.map Delivery.event →
    status.entriesRead ≤ book.entries.length
  uncompressedBytes : ∀ status, .status status ∈ call.sent.map Delivery.event →
    status.uncompressedBytes ≤ (book.entries.map fun entry => (archive.inflated entry).length).sum

namespace Book

variable (book : Book) (limits : Effective) (spine : List SpineEntry)

/-- The entry of the navigation document, when the options have it parsed. -/
def navigationRead : List Nat :=
  if limits.parseNavigation then (book.navigated.map NavigationSource.entry).toList else []

/-- The entries of the overlays, when the options have them parsed, one for each narration. -/
def overlaysRead : List Nat :=
  if limits.parseMediaOverlays then book.links.filterMap book.overlayEntry else []

/-- No file is read in two roles that share no bytes. -/
structure ReadApart (crates : Crates) (archive : MemoryArchive) : Prop where
  /-- The package document is none of the files read ahead of it. -/
  package : ∀ container opf, book.index.get containerPath = some container →
    book.opfPosition crates archive container = some opf →
    ∀ path ∈ [encryptionPath, mimetypePath, containerPath], book.index.get path ≠ some opf
  /-- The four of them are neither sent nor parsed for anything else. -/
  prologue : ∀ k ∈ book.prologue crates archive, k ∉ book.willEmit limits spine ∧
    k ∉ book.navigationRead limits ∧ k ∉ book.overlaysRead limits
  /-- A navigation document that is an overlay as well is sent. -/
  navigation : ∀ k ∈ book.navigationRead limits, k ∈ book.overlaysRead limits →
    k ∈ book.willEmit limits spine

variable {book limits spine}

/-! ## What the passes fetch

Navigation and overlays, as lists of positions; how often a position is fetched is counted. -/

theorem navigationUses_keys (willEmit : List Nat) :
    (navigationUses limits book.navigated willEmit).map Use.key = book.navigationRead limits := by
  unfold navigationUses navigationRead
  cases limits.parseNavigation <;> cases book.navigated <;> rfl

theorem navigationRead_count (k : Nat) : (book.navigationRead limits).count k ≤ 1 := by
  unfold navigationRead
  split
  · cases book.navigated with
    | none => exact Nat.zero_le 1
    | some source => exact List.count_le_length
  · exact Nat.zero_le 1

/-- The navigation document is put back when the walk sends it. -/
theorem navigationUses_again (willEmit : List Nat) (k : Nat) :
    (((navigationUses limits book.navigated willEmit).filter (·.again)).map Use.key).count k =
      if k ∈ willEmit then (book.navigationRead limits).count k else 0 := by
  unfold navigationUses navigationRead
  cases limits.parseNavigation with
  | false => simp
  | true =>
      cases book.navigated with
      | none => simp
      | some source =>
          by_cases hk : source.entry = k
          · subst hk
            by_cases hsent : source.entry ∈ willEmit <;> simp [hsent]
          · by_cases hsent : source.entry ∈ willEmit <;> simp [hsent, hk]

theorem overlayUses_keys (willEmit : List Nat) (pairs : List (Nat × Nat)) :
    (book.overlayUses willEmit pairs).map Use.key = pairs.filterMap book.overlayEntry := by
  induction pairs with
  | nil => rfl
  | cons pair rest ih =>
      unfold overlayUses
      cases hentry : book.overlayEntry pair with
      | none => rw [List.filterMap_cons_none hentry, ih]
      | some entry => rw [List.filterMap_cons_some hentry, List.map_cons, ih]

/-- An overlay is put back for the walk, and otherwise for each of its pairs but the first. -/
theorem overlayUses_again (willEmit : List Nat) (k : Nat) (pairs : List (Nat × Nat)) :
    (((book.overlayUses willEmit pairs).filter (·.again)).map Use.key).count k =
      if k ∈ willEmit then (pairs.filterMap book.overlayEntry).count k
      else (pairs.filterMap book.overlayEntry).count k - 1 := by
  induction pairs with
  | nil => simp [overlayUses]
  | cons pair rest ih =>
      unfold overlayUses
      cases hentry : book.overlayEntry pair with
      | none =>
          rw [List.filterMap_cons_none hentry]
          exact ih
      | some entry =>
          rw [List.filterMap_cons_some hentry]
          dsimp only
          rw [count_again_cons, ih, List.count_cons]
          by_cases hk : entry = k
          · subst hk
            have hlater := @List.count_pos_iff _ _ _ entry (rest.filterMap book.overlayEntry)
            by_cases hsent : entry ∈ willEmit
            · simp [hsent]
            · by_cases hmem : entry ∈ rest.filterMap book.overlayEntry
              · have := hlater.mpr hmem
                simp only [hsent, hmem, if_false, if_true, false_or, decide_true, beq_self_eq_true,
                  Bool.toNat_true]
                omega
              · simp [hsent, hmem, List.count_eq_zero_of_not_mem hmem]
          · simp [hk]

/-- An entry that the walk sends is fetched once; any other once by each pass that asks. -/
theorem count_fetches (hsent : (book.willEmit limits spine).Nodup) (k : Nat) :
    (book.fetches limits spine).count k = if k ∈ book.willEmit limits spine then 1
      else (book.navigationRead limits).count k + min 1 ((book.overlaysRead limits).count k) := by
  have hperm := (@fetches_perm book limits spine).count_eq k
  have hkeys : (book.aheadUses limits spine).map Use.key =
      book.navigationRead limits ++ book.overlaysRead limits := by
    unfold aheadUses overlaysRead
    rw [List.map_append, navigationUses_keys]
    split
    · rw [overlayUses_keys]
    · rfl
  have hagain : (((book.aheadUses limits spine).filter (·.again)).map Use.key).count k =
      if k ∈ book.willEmit limits spine
      then (book.navigationRead limits).count k + (book.overlaysRead limits).count k
      else (book.overlaysRead limits).count k - 1 := by
    unfold aheadUses overlaysRead
    rw [List.filter_append, List.map_append, List.count_append, navigationUses_again]
    cases limits.parseMediaOverlays with
    | false => simp
    | true =>
        rw [if_pos rfl, if_pos rfl, overlayUses_again]
        split <;> omega
  rw [List.count_append, List.count_append, hkeys, List.count_append, hagain] at hperm
  have hone : (book.willEmit limits spine).count k =
      if k ∈ book.willEmit limits spine then 1 else 0 := by
    split
    · rename_i hmem
      exact List.count_eq_one_of_mem hsent hmem
    · rename_i hmem
      exact List.count_eq_zero_of_not_mem hmem
  rw [hone] at hperm
  split <;> rename_i hmem
  all_goals
    simp only [hmem, if_true, if_false] at hperm
    omega

/-- The resources share no entry with one another or with a chapter. -/
theorem willEmit_nodup (hchapters : (spine.map book.chapterEntry).Nodup) :
    (book.willEmit limits spine).Nodup := by
  refine List.nodup_append.mpr ⟨hchapters, archiveOrder_nodup _, ?_⟩
  rintro entry hentry _ hresource rfl
  obtain ⟨⟨entry, position⟩, hmem, rfl⟩ := List.mem_map.mp hresource
  exact (mem_pendingItems.mp (mem_archiveOrder.mp hmem).1).notChapter hentry

/-- The passes fetch an entry twice only when the navigation document is an overlay as well, and is
not kept for the walk. -/
theorem fetches_nodup_iff (hsent : (book.willEmit limits spine).Nodup) :
    (book.fetches limits spine).Nodup ↔ ∀ k ∈ book.navigationRead limits,
      k ∈ book.overlaysRead limits → k ∈ book.willEmit limits spine := by
  rw [List.nodup_iff_count_le_one]
  constructor
  · intro h k hnavigation hoverlay
    by_contra hmem
    have hcount := h k
    rw [count_fetches hsent, if_neg hmem] at hcount
    have := List.count_pos_iff.mpr hnavigation
    have := List.count_pos_iff.mpr hoverlay
    omega
  · intro h k
    rw [count_fetches hsent]
    split
    · exact le_rfl
    · rename_i hmem
      have hone := @navigationRead_count book limits k
      by_cases hnavigation : k ∈ book.navigationRead limits
      · have hoverlay := List.count_eq_zero_of_not_mem fun hmem' => hmem (h k hnavigation hmem')
        omega
      · have := List.count_eq_zero_of_not_mem hnavigation
        omega

/-- What is fetched is what is sent, and what is read ahead of it. -/
theorem mem_fetches_iff (hsent : (book.willEmit limits spine).Nodup) {k : Nat} :
    k ∈ book.fetches limits spine ↔ k ∈ book.willEmit limits spine ∨
      k ∈ book.navigationRead limits ∨ k ∈ book.overlaysRead limits := by
  rw [← List.count_pos_iff, count_fetches hsent]
  have hnavigation := @List.count_pos_iff _ _ _ k (book.navigationRead limits)
  have hoverlay := @List.count_pos_iff _ _ _ k (book.overlaysRead limits)
  by_cases hmem : k ∈ book.willEmit limits spine
  · simp [hmem]
  · rw [if_neg hmem, ← hnavigation, ← hoverlay]
    constructor
    · intro h
      omega
    · rintro (hsends | hreads)
      · exact absurd hsends hmem
      · omega

/-! ## The schedule

All that a call inflates: what is read before there is a book, then what is fetched. -/

/-- Two names that the index finds at one position are one name. -/
theorem index_inj {name name' : Str} {k : Nat} (h : book.index.get name = some k)
    (h' : book.index.get name' = some k) : name = name' := by
  obtain ⟨entry, hentry, rfl⟩ := Extract.indexOf_get h
  obtain ⟨entry', hentry', rfl⟩ := Extract.indexOf_get h'
  obtain rfl := Option.some.inj (hentry.symm.trans hentry')
  rfl

/-- The files read ahead of the package document are three. -/
theorem ahead_nodup {container : Nat} (hcontainer : book.index.get containerPath = some container) :
    ((book.index.get encryptionPath).toList ++ (book.index.get mimetypePath).toList ++
      [container]).Nodup := by
  have hapart : ∀ {name name' : Str} {k k' : Nat}, name ≠ name' → book.index.get name = some k →
      book.index.get name' = some k' → k ≠ k' := fun hne h h' heq => hne (index_inj h (heq ▸ h'))
  have hencryption : encryptionPath ≠ mimetypePath := by decide
  have hencryption' : encryptionPath ≠ containerPath := by decide
  have hmimetype : mimetypePath ≠ containerPath := by decide
  cases hfirst : book.index.get encryptionPath with
  | none =>
      cases hsecond : book.index.get mimetypePath with
      | none => simp
      | some second => simpa using hapart hmimetype hsecond hcontainer
  | some first =>
      cases hsecond : book.index.get mimetypePath with
      | none => simpa using hapart hencryption' hfirst hcontainer
      | some second =>
          simpa using ⟨⟨hapart hencryption hfirst hsecond, hapart hencryption' hfirst hcontainer⟩,
            hapart hmimetype hsecond hcontainer⟩

theorem prologue_nodup_iff {crates : Crates} {archive : MemoryArchive} {container opf : Nat}
    (hcontainer : book.index.get containerPath = some container)
    (hopf : book.opfPosition crates archive container = some opf) :
    (book.prologue crates archive).Nodup ↔
      ∀ path ∈ [encryptionPath, mimetypePath, containerPath], book.index.get path ≠ some opf := by
  unfold prologue
  rw [hcontainer, Option.bind_some, hopf, Option.toList_some, Option.toList_some,
    List.nodup_append_comm, List.singleton_append, List.nodup_cons,
    and_iff_left (ahead_nodup hcontainer)]
  simp [hcontainer, not_or, eq_comm]

/-- The schedule names no entry twice when no file is read in two roles that share no bytes. -/
theorem schedule_nodup_iff {crates : Crates} {archive : MemoryArchive} {container opf : Nat}
    (hcontainer : book.index.get containerPath = some container)
    (hopf : book.opfPosition crates archive container = some opf)
    (hchapters : (spine.map book.chapterEntry).Nodup) :
    (book.schedule crates limits archive spine).Nodup ↔
      book.ReadApart limits spine crates archive := by
  have hsent := @willEmit_nodup book limits spine hchapters
  unfold schedule
  rw [List.nodup_append, prologue_nodup_iff hcontainer hopf, fetches_nodup_iff hsent]
  constructor
  · rintro ⟨hpackage, hnavigation, hapart⟩
    refine ⟨fun c o hc ho => ?_, fun k hk => ?_, hnavigation⟩
    · obtain rfl := Option.some.inj (hcontainer.symm.trans hc)
      obtain rfl := Option.some.inj (hopf.symm.trans ho)
      exact hpackage
    · have hunread : k ∉ book.fetches limits spine := fun hmem => hapart k hk k hmem rfl
      rw [mem_fetches_iff hsent] at hunread
      exact ⟨fun h => hunread (.inl h), fun h => hunread (.inr (.inl h)),
        fun h => hunread (.inr (.inr h))⟩
  · intro h
    refine ⟨h.package _ _ hcontainer hopf, h.navigation, fun k hk k' hk' heq => ?_⟩
    subst heq
    obtain ⟨hsends, hnavigation, hoverlay⟩ := h.prologue k hk
    rcases (mem_fetches_iff hsent).mp hk' with hmem | hmem | hmem
    · exact hsends hmem
    · exact hnavigation hmem
    · exact hoverlay hmem

end Book

/-! ## Whole calls

A call that completes has inflated its schedule, so it has charged each entry once when the
schedule has no position twice. -/

section Run

variable {π : Projection} {crates : Crates} {limits : Effective} {bytes : Bytes}
  {archive : MemoryArchive} {book : Book} {spine : List SpineEntry}

/-- The entries of an archive have different names. -/
theorem Prepared.entries_nodup (h : Prepared crates limits bytes archive book spine) :
    book.entries.Nodup := by
  obtain ⟨scan, hscan, hentries⟩ := h.scanned
  obtain ⟨hnodup, -, hnames⟩ := Archive.scanLoop_ok _ hscan
  rw [List.map_nil, List.nil_append, hentries] at hnames
  exact List.Nodup.of_map EntryInfo.name (hnames ▸ hnodup)

/-- A sum over entries that are all different is bounded by that over the archive. -/
theorem sum_le_of_nodup {entries all : List EntryInfo} (size : EntryInfo → Nat)
    (hnodup : entries.Nodup) (hall : entries ⊆ all) :
    (entries.map size).sum ≤ (all.map size).sum := by
  obtain ⟨kept, hperm, hsublist⟩ := hnodup.subperm hall
  rw [← (hperm.map size).sum_eq]
  exact (hsublist.map size).sum_le_sum fun _ _ => Nat.zero_le _

/-- What the trailer counts is what the schedule names. -/
theorem chargedOnce_iff (h : Prepared crates limits bytes archive book spine)
    (client : Nat → Bool) :
    ChargedOnce archive book (run π crates limits bytes client).2 ↔
      (run π crates limits bytes client).2.inflated.Nodup := by
  refine ⟨fun hcharged => hcharged.once, fun honce => ?_⟩
  have hrange : ∀ k ∈ book.schedule crates limits archive spine,
      book.entries.getD k default ∈ book.entries := by
    intro k hk
    have hlt := Book.mem_schedule (Book.resolveSpine_ok h.spine).2 hk
    rw [List.getD_eq_getElem?_getD, List.getElem?_eq_getElem hlt, Option.getD_some]
    exact List.getElem_mem hlt
  have htrailer : ∀ status,
      .status status ∈ (run π crates limits bytes client).2.sent.map Delivery.event →
      status.entriesRead ≤ book.entries.length ∧ status.uncompressedBytes ≤
        (book.entries.map fun entry => (archive.inflated entry).length).sum := by
    intro status hstatus
    have hcomplete : (run π crates limits bytes client).1 = .complete := by
      rcases run_spec (π := π) client with hrefused | ⟨_, _, _, _, hdelivered⟩
      · rw [hrefused.sent] at hstatus
        cases hstatus
      · exact (hdelivered.complete_of_status hstatus).1
    obtain ⟨hbytes, hentries⟩ := receipt_of_complete h hcomplete hstatus
    have hall := ((run_inflated (π := π) h client).2 hcomplete).1
    rw [hall] at honce
    have hsubset : (book.schedule crates limits archive spine).map (book.entries.getD · default) ⊆
        book.entries := by
      intro entry hentry
      obtain ⟨k, hk, rfl⟩ := List.mem_map.mp hentry
      exact hrange k hk
    refine ⟨?_, ?_⟩
    · rw [hentries]
      have hle := (honce.subperm hsubset).length_le
      rwa [List.length_map] at hle
    · rw [hbytes]
      have hsum := sum_le_of_nodup (fun entry => (archive.inflated entry).length) honce hsubset
      rwa [List.map_map] at hsum
  exact ⟨honce, fun status hs => (htrailer status hs).1, fun status hs => (htrailer status hs).2⟩

/-- Each entry is charged once exactly when no entry is read for two purposes that the cache keeps
apart. -/
theorem entries_charged_once_iff (π : Projection) (crates : Crates) (limits : Effective)
    (bytes : Bytes) (archive : MemoryArchive) (book : Book) (spine : List SpineEntry)
    (h : Prepared crates limits bytes archive book spine)
    (hchapters : (spine.map book.chapterEntry).Nodup) (client : Nat → Bool) :
    (book.ReadApart limits spine crates archive →
      ChargedOnce archive book (run π crates limits bytes client).2) ∧
    ((run π crates limits bytes client).1 = .complete →
      (ChargedOnce archive book (run π crates limits bytes client).2 ↔
        book.ReadApart limits spine crates archive)) := by
  obtain ⟨container, opf, hcontainer, hroot, -⟩ := h.rootfile
  have hopf : book.opfPosition crates archive container = some opf := by
    rw [Book.opfPosition, hroot]
  have hschedule := @Book.schedule_nodup_iff book limits spine crates archive container opf
    hcontainer hopf hchapters
  obtain ⟨hfront, hcomplete⟩ := run_inflated (π := π) h client
  have honce : book.ReadApart limits spine crates archive →
      ChargedOnce archive book (run π crates limits bytes client).2 := by
    intro hapart
    rw [chargedOnce_iff h]
    refine List.Nodup.sublist hfront.sublist ?_
    refine List.Nodup.map_on ?_ (hschedule.mpr hapart)
    intro k hk k' hk' heq
    have hlt := Book.mem_schedule (Book.resolveSpine_ok h.spine).2 hk
    have hlt' := Book.mem_schedule (Book.resolveSpine_ok h.spine).2 hk'
    simp only [List.getD_eq_getElem?_getD, List.getElem?_eq_getElem hlt,
      List.getElem?_eq_getElem hlt', Option.getD_some] at heq
    exact (List.Nodup.getElem_inj_iff h.entries_nodup).mp heq
  refine ⟨honce, fun hdone => ⟨fun hcharged => hschedule.mp ?_, honce⟩⟩
  have hnodup := hcharged.once
  rw [(hcomplete hdone).1] at hnodup
  exact List.Nodup.of_map _ hnodup

end Run

/-- A book that is asked for whole, and lists its package document among its resources. -/
def Sample.catalogued : Sample.Source where
  files := [Sample.file "a.xhtml" [10]]
  manifest := [Sample.chapterItem "a" "a.xhtml",
    { id := "package", href := "p.opf", mediaType := "application/oebps-package+xml" }]
  spine := ["a".toList]

/-- The package document is inflated to be parsed and again to be sent: four entries, five
inflations. -/
theorem package_inflated_twice : ∃ archive book spine,
    Prepared Sample.catalogued.crates Sample.whole Sample.catalogued.bytes archive book spine ∧
    (spine.map book.chapterEntry).Nodup ∧ book.entries.length = 4 ∧
    (run Sample.counting Sample.catalogued.crates Sample.whole Sample.catalogued.bytes
      Sample.patient).1 = .complete ∧
    (∀ status, .status status ∈ (run Sample.counting Sample.catalogued.crates Sample.whole
        Sample.catalogued.bytes Sample.patient).2.sent.map Delivery.event → status.entriesRead = 5) ∧
    ¬ ChargedOnce archive book (run Sample.counting Sample.catalogued.crates Sample.whole
      Sample.catalogued.bytes Sample.patient).2 := by
  have hcomplete : (run Sample.counting Sample.catalogued.crates Sample.whole Sample.catalogued.bytes
    Sample.patient).1 = .complete := by decide +kernel
  have htwice : ¬ (run Sample.counting Sample.catalogued.crates Sample.whole Sample.catalogued.bytes
    Sample.patient).2.inflated.Nodup := by decide +kernel
  have hsent : EachEntryOnce (run Sample.counting Sample.catalogued.crates Sample.whole
    Sample.catalogued.bytes Sample.patient).2.sent := by decide +kernel
  have hscan : ((Archive.openArchive Sample.catalogued.crates.zipNew Sample.catalogued.bytes
      Sample.whole).toOption.bind fun archive =>
        (Archive.scan archive).toOption.map fun scan => scan.entries.length) = some 4 := by
    decide +kernel
  have hfive : (run Sample.counting Sample.catalogued.crates Sample.whole Sample.catalogued.bytes
    Sample.patient).2.inflated.length = 5 := by decide +kernel
  obtain ⟨archive, book, spine, h⟩ := run_prepared hcomplete
  refine ⟨archive, book, spine, h, ?_, ?_, hcomplete, fun status hstatus => ?_,
    fun hcharged => htwice hcharged.once⟩
  · rw [← walk_nodup, ← (run_carried Sample.patient h).2 hcomplete]
    exact hsent
  · obtain ⟨scan, hscanned, hentries⟩ := h.scanned
    rw [h.opened] at hscan
    change ((Archive.scan archive).toOption.map fun scan => scan.entries.length) = some 4 at hscan
    rw [hscanned] at hscan
    rw [← hentries]
    exact Option.some.inj hscan
  · obtain ⟨-, hread⟩ := receipt_of_complete h hcomplete hstatus
    rw [((run_inflated h Sample.patient).2 hcomplete).1, List.length_map] at hfive
    rw [hread, hfive]

/-- In the book stored backwards no file has two roles. -/
theorem entries_charged_once_backwards : ∃ archive book spine,
    Prepared Sample.backwards.crates Sample.defaults Sample.backwards.bytes archive book spine ∧
    (spine.map book.chapterEntry).Nodup ∧
    ChargedOnce archive book (run Sample.counting Sample.backwards.crates Sample.defaults
      Sample.backwards.bytes Sample.patient).2 ∧
    book.ReadApart Sample.defaults spine Sample.backwards.crates archive := by
  have hcomplete : (run Sample.counting Sample.backwards.crates Sample.defaults
    Sample.backwards.bytes Sample.patient).1 = .complete := by decide +kernel
  have hsent : EachEntryOnce (run Sample.counting Sample.backwards.crates Sample.defaults
    Sample.backwards.bytes Sample.patient).2.sent := by decide +kernel
  have honce : (run Sample.counting Sample.backwards.crates Sample.defaults
    Sample.backwards.bytes Sample.patient).2.inflated.Nodup := by decide +kernel
  obtain ⟨archive, book, spine, h⟩ := run_prepared hcomplete
  have hchapters : (spine.map book.chapterEntry).Nodup := by
    rw [← walk_nodup, ← (run_carried Sample.patient h).2 hcomplete]
    exact hsent
  have hcharged := (chargedOnce_iff h Sample.patient).mpr honce
  exact ⟨archive, book, spine, h, hchapters, hcharged, ((entries_charged_once_iff Sample.counting
    Sample.backwards.crates Sample.defaults Sample.backwards.bytes archive book spine h hchapters
    Sample.patient).2 hcomplete).mp hcharged⟩

end GrpcEpub
