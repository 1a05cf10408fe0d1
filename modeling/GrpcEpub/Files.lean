/-
# `GrpcEpub.Files` — which file an event carries, and under which name

Two promises about the files of one response.  Each archive entry goes out at
most once: this holds of a book whose spine names each of its chapters once,
and of no other book that is sent to the end.  Its href is the name of the
entry whose bytes it carries: this holds where every file is found under its
decoded path, and fails for one that only the tolerant lookup finds.
-/
import GrpcEpub.Order

namespace GrpcEpub

/-! ## One book behind a call

What is `Prepared` is determined by the upload. -/

/-- The book of a call is a function of its upload. -/
theorem Prepared.unique {crates : Crates} {limits : Effective} {bytes : Bytes}
    {archive archive' : MemoryArchive} {book book' : Book} {spine spine' : List SpineEntry}
    (h : Prepared crates limits bytes archive book spine)
    (h' : Prepared crates limits bytes archive' book' spine') :
    archive = archive' ∧ book = book' ∧ spine = spine' := by
  obtain ⟨hopen, ⟨scan, hscan, hentries⟩, hpolicy, ⟨c, o, hc, hroot, hpackage⟩, hspine⟩ := h
  obtain ⟨hopen', ⟨scan', hscan', hentries'⟩, hpolicy', ⟨c', o', hc', hroot', hpackage'⟩, hspine'⟩ := h'
  obtain rfl := Except.ok.inj (hopen.symm.trans hopen')
  obtain rfl := Except.ok.inj (hscan.symm.trans hscan')
  obtain ⟨entries, obfuscated, opfPath, package⟩ := book
  obtain ⟨entries', obfuscated', opfPath', package'⟩ := book'
  obtain rfl : entries = entries' := hentries.symm.trans hentries'
  obtain rfl := Option.some.inj (hc.symm.trans hc')
  obtain ⟨rfl, rfl⟩ := Prod.mk.inj (Except.ok.inj (hroot.symm.trans hroot'))
  obtain rfl := Except.ok.inj (hpackage.symm.trans hpackage')
  have hobfuscated : obfuscated = obfuscated' := by
    simp only [Book.index, Book.content, Book.entryAt] at hpolicy hpolicy'
    split at hpolicy
    · rename_i hnone
      rw [hnone] at hpolicy'
      exact hpolicy.trans hpolicy'.symm
    · rename_i hsome
      rw [hsome] at hpolicy'
      exact Except.ok.inj (hpolicy.symm.trans hpolicy')
  subst hobfuscated
  exact ⟨rfl, rfl, Except.ok.inj (hspine.symm.trans hspine')⟩

/-! ## The resolved spine

Each chapter's source has been found in the archive. -/

namespace Book

variable {book : Book}

/-- What resolving an itemref has established of its chapter. -/
structure ChapterFound (book : Book) (chapter : SpineEntry) : Prop where
  primary : book.byId.get chapter.itemref.idref = some chapter.primary
  inRange : chapter.source < book.resolved.length
  entry : (book.item chapter.source).entry = some (book.chapterEntry chapter)
  notObfuscated : book.chapterEntry chapter ∉ book.obfuscated

/-- A resolved itemref is a chapter that has been found. -/
theorem resolveItemref_ok {itemref : SpineItem} {chapter : SpineEntry}
    (h : book.resolveItemref itemref = .ok chapter) :
    chapter.itemref = itemref ∧ book.ChapterFound chapter := by
  unfold resolveItemref at h
  cases hid : book.byId.get itemref.idref with
  | none => simp [hid] at h
  | some position =>
      simp only [hid] at h
      obtain ⟨found, -, h⟩ := Except.bind_ok h
      cases found with
      | none =>
          obtain ⟨target, -, h⟩ := Except.bind_ok h
          cases h
      | some source =>
          obtain ⟨target, hnth, h⟩ := Except.bind_ok h
          obtain ⟨entry, hentry, h⟩ := Except.bind_ok h
          have hitem := item_of_nth hnth
          have hsome := expect_ok hentry
          have hchapter : book.chapterEntry ⟨position, source, itemref⟩ = entry := by
            rw [chapterEntry, hitem, hsome, Option.getD_some]
          split at h
          · cases h
          · rename_i hplain
            cases h
            exact ⟨rfl, hid, (List.getElem?_eq_some_iff.mp (nth_ok hnth)).1,
              by rw [hchapter, hitem, hsome], by rwa [hchapter]⟩

/-- A resolved spine is its itemrefs in order, each with a chapter that has been found. -/
theorem resolveSpine_ok : ∀ {itemrefs : List SpineItem} {spine : List SpineEntry},
    book.resolveSpine itemrefs = .ok spine →
    spine.map SpineEntry.itemref = itemrefs ∧ ∀ chapter ∈ spine, book.ChapterFound chapter
  | [], _, h => by
      cases h
      simp
  | itemref :: rest, spine, h => by
      obtain ⟨first, hfirst, h⟩ := Except.bind_ok h
      obtain ⟨others, hothers, h⟩ := Except.bind_ok h
      cases h
      obtain ⟨hitemref, hfound⟩ := resolveItemref_ok hfirst
      obtain ⟨hitemrefs, hall⟩ := resolveSpine_ok hothers
      exact ⟨by rw [List.map_cons, hitemref, hitemrefs], List.forall_mem_cons.mpr ⟨hfound, hall⟩⟩

end Book

/-! ## The files of a walk

Their entries, in terms of the chapters' and the resources'. -/

section Walk

variable {δ : Type} {archive : MemoryArchive} {book : Book} {limits : Effective}
  {spine : List SpineEntry}

/-- A resource on the walk is one the options let through. -/
theorem qualifies_of_mem {pending : Nat × Nat} (h : .inl pending ∈ interleave Prod.fst
      (fun visit : SpineEntry × Nat => book.chapterEntry visit.1) spine.zipIdx
      (book.resources limits spine)) :
    (pending.1, pending.2) ∈ book.resources limits spine ∧
      book.Qualifies limits spine pending.2 pending.1 := by
  have hmem : pending ∈ book.resources limits spine := by
    rw [← lefts_interleave Prod.fst (fun visit => book.chapterEntry visit.1) spine.zipIdx
      (book.resources limits spine)]
    exact List.mem_filterMap.mpr ⟨_, h, rfl⟩
  exact ⟨hmem, Book.mem_pendingItems.mp (Book.mem_archiveOrder.mp hmem).1⟩

/-- A chapter on the walk is on the spine. -/
theorem mem_spine_of_mem {visit : SpineEntry × Nat} (h : .inr visit ∈ interleave Prod.fst
      (fun visit : SpineEntry × Nat => book.chapterEntry visit.1) spine.zipIdx
      (book.resources limits spine)) : visit.1 ∈ spine := by
  have hmem : visit ∈ spine.zipIdx := by
    rw [← rights_interleave Prod.fst (fun visit => book.chapterEntry visit.1) spine.zipIdx
      (book.resources limits spine)]
    exact List.mem_filterMap.mpr ⟨_, h, rfl⟩
  exact List.mem_of_getElem? (List.mem_zipIdx_iff_getElem?.mp hmem)

/-- The archive entries a walk sends: each resource's, and each chapter's. -/
theorem walk_entries (pending : List (Nat × Nat)) :
    ((Script.walk (δ := δ) archive book spine.zipIdx pending).map Delivery.entry).Perm
      ((pending.map Prod.fst ++ spine.map book.chapterEntry).map some) := by
  unfold Script.walk
  refine ((perm_lefts_rights _).map _ |>.map _).trans ?_
  rw [lefts_interleave, rights_interleave]
  have hfst : spine.zipIdx.map Prod.fst = spine := List.zipIdx_map_fst ..
  have hchapters : (spine.map book.chapterEntry).map some =
      spine.zipIdx.map fun visit => some (book.chapterEntry visit.1) := by
    rw [← hfst, List.map_map, List.map_map, List.zipIdx_map_fst]
    rfl
  rw [List.map_append (f := some), hchapters]
  simp only [List.map_append, List.map_map]
  exact .refl _

/-- Resources never share an entry with one another or with a chapter, so what
is left to ask is whether the chapters share one. -/
theorem walk_nodup : ((Script.walk (δ := δ) archive book spine.zipIdx
      (book.resources limits spine)).map Delivery.entry).Nodup ↔
    (spine.map book.chapterEntry).Nodup := by
  rw [(walk_entries _).nodup_iff, List.nodup_map_iff (Option.some_injective _),
    List.nodup_append]
  refine ⟨fun h => h.2.1, fun h => ⟨Book.archiveOrder_nodup _, h, ?_⟩⟩
  rintro _ hentry e he rfl
  obtain ⟨⟨entry, position⟩, hmem, rfl⟩ := List.mem_map.mp hentry
  exact (Book.mem_pendingItems.mp (Book.mem_archiveOrder.mp hmem).1).notChapter he

end Walk

section Run

variable {π : Projection} {crates : Crates} {limits : Effective} {bytes : Bytes}
  {archive : MemoryArchive} {book : Book} {spine : List SpineEntry}

/-- The files a call has sent are the first of its book's walk, and on a
completed call all of them. -/
theorem run_carried (client : Nat → Bool)
    (hprepared : Prepared crates limits bytes archive book spine) :
    carried (run π crates limits bytes client).2.sent <+:
        Script.walk archive book spine.zipIdx (book.resources limits spine) ∧
      ((run π crates limits bytes client).1 = .complete →
        carried (run π crates limits bytes client).2.sent =
          Script.walk archive book spine.zipIdx (book.resources limits spine)) := by
  rcases run_spec (π := π) client with hrefused | ⟨archive', book', spine', status, h⟩
  · rw [hrefused.sent]
    exact ⟨List.nil_prefix, fun hc => absurd hc hrefused.incomplete⟩
  · obtain ⟨rfl, rfl, rfl⟩ := hprepared.unique h.prepared
    rw [← carried_response π crates limits bytes archive book spine status]
    exact ⟨h.sent.filter _, fun hc => by rw [h.complete.mp hc]⟩

end Run

/-! ## Each entry once

The resources are without duplicates and apart from the chapters; so it depends on the spine. -/

/-- No two events carry the bytes of one archive entry. -/
def EachEntryOnce {δ : Type} (sent : List (Delivery δ)) : Prop :=
  ((carried sent).map Delivery.entry).Nodup

instance {δ : Type} (sent : List (Delivery δ)) : Decidable (EachEntryOnce sent) :=
  inferInstanceAs (Decidable (List.Nodup _))

/-- A book whose spine has one chapter twice: once by its item, and once by a
second item for the same file. -/
def Sample.repeated : Sample.Source where
  files := [Sample.file "a.xhtml" [10]]
  manifest := [Sample.chapterItem "a" "a.xhtml", Sample.chapterItem "b" "a.xhtml"]
  spine := ["a".toList, "b".toList]

/-- Two itemrefs to one file are two chapters. -/
theorem repeated_sends_an_entry_twice : ¬ EachEntryOnce
    (run Sample.counting Sample.repeated.crates Sample.defaults Sample.repeated.bytes
      Sample.patient).2.sent := by
  decide +kernel

/-- Each entry goes out at most once when no two chapters are read from one entry. -/
theorem entries_sent_once (π : Projection) (crates : Crates) (limits : Effective) (bytes : Bytes)
    (archive : MemoryArchive) (book : Book) (spine : List SpineEntry)
    (hprepared : Prepared crates limits bytes archive book spine) (client : Nat → Bool) :
    ((spine.map book.chapterEntry).Nodup →
      EachEntryOnce (run π crates limits bytes client).2.sent) ∧
    ((run π crates limits bytes client).1 = .complete →
      (EachEntryOnce (run π crates limits bytes client).2.sent ↔
        (spine.map book.chapterEntry).Nodup)) := by
  obtain ⟨hbegins, hcomplete⟩ := run_carried (π := π) client hprepared
  unfold EachEntryOnce
  refine ⟨fun h => (walk_nodup.mpr h).sublist (hbegins.sublist.map _), fun hc => ?_⟩
  rw [hcomplete hc]
  exact walk_nodup

theorem run_prepared {π : Projection} {crates : Crates} {limits : Effective} {bytes : Bytes}
    {client : Nat → Bool} (hcomplete : (run π crates limits bytes client).1 = .complete) :
    ∃ archive book spine, Prepared crates limits bytes archive book spine := by
  rcases run_spec (π := π) client with hrefused | ⟨archive, book, spine, status, h⟩
  · exact absurd hcomplete hrefused.incomplete
  · exact ⟨archive, book, spine, h.prepared⟩

theorem entries_sent_once_backwards : ∃ archive book spine,
    Prepared Sample.backwards.crates Sample.defaults Sample.backwards.bytes archive book spine ∧
    (EachEntryOnce (run Sample.counting Sample.backwards.crates Sample.defaults
        Sample.backwards.bytes Sample.patient).2.sent ↔
      (spine.map book.chapterEntry).Nodup) := by
  have hcomplete : (run Sample.counting Sample.backwards.crates Sample.defaults
    Sample.backwards.bytes Sample.patient).1 = .complete := by decide +kernel
  obtain ⟨archive, book, spine, hprepared⟩ := run_prepared hcomplete
  exact ⟨archive, book, spine, hprepared, (entries_sent_once Sample.counting
    Sample.backwards.crates Sample.defaults Sample.backwards.bytes archive book spine hprepared
    Sample.patient).2 hcomplete⟩

/-! ## Each entry under its name

A file is looked up by its decoded path and by its raw one, and only the first is its href. -/

/-- An href is a key: it is the name of the entry whose bytes go out under it,
and two entries never go out under one. -/
structure FaithfulHrefs {δ : Type} (archive : MemoryArchive) (entries : List EntryInfo)
    (sent : List (Delivery δ)) : Prop where
  named : ∀ d ∈ sent, ∀ href content, d.event.file = some (href, content) →
    ∃ entry ∈ entries, entry.name = href ∧ content = archive.inflated entry
  distinct : ∀ d ∈ sent, ∀ d' ∈ sent, ∀ f f', d.event.file = some f → d'.event.file = some f' →
    d.entry ≠ d'.entry → f.1 ≠ f'.1

/-- Every manifest item whose file the walk sends is in the archive under its
decoded path. -/
def Book.FoundDecoded (book : Book) (limits : Effective) (spine : List SpineEntry) : Prop :=
  ∀ position ∈ spine.map SpineEntry.source ++ (book.resources limits spine).map Prod.snd,
    (book.index.get (book.item position).path).isSome

section Faithful

variable {book : Book} {limits : Effective} {spine : List SpineEntry} {archive : MemoryArchive}

theorem Book.item_eq {position : Nat} (h : position < book.resolved.length) :
    ∃ item ∈ book.package.manifest,
      book.item position = Extract.resolveItem book.index book.opfDir item := by
  have hlt : position < book.package.manifest.length := by rwa [Book.length_resolved] at h
  refine ⟨book.package.manifest[position], List.getElem_mem hlt, ?_⟩
  simp [Book.item, Book.resolved, List.getD_eq_getElem?_getD, List.getElem?_eq_getElem hlt]

/-- An item that is found is found under its decoded path, where that is a name. -/
theorem Book.entry_position {position k found : Nat} (hrange : position < book.resolved.length)
    (hentry : (book.item position).entry = some k)
    (hfound : book.index.get (book.item position).path = some found) : k = found := by
  obtain ⟨item, -, hitem⟩ := Book.item_eq hrange
  rw [hitem] at hentry hfound
  unfold Extract.resolveItem at hentry hfound
  split at hentry
  · rename_i path hresolve
    simp only [hresolve] at hfound
    rw [Extract.lookup, hfound] at hentry
    exact (Option.some.inj hentry).symm
  · cases hentry
  · cases hentry

/-- What goes out under an item found under its decoded path. -/
theorem Book.content_named (archive : MemoryArchive) {position k : Nat}
    (hrange : position < book.resolved.length)
    (hentry : (book.item position).entry = some k)
    (hdecoded : (book.index.get (book.item position).path).isSome) :
    ∃ entry ∈ book.entries, entry.name = (book.item position).path ∧
      book.entries[k]? = some entry ∧ book.content archive k = archive.inflated entry := by
  obtain ⟨found, hfound⟩ := Option.isSome_iff_exists.mp hdecoded
  obtain rfl := Book.entry_position hrange hentry hfound
  obtain ⟨entry, hk, hname⟩ := Extract.indexOf_get hfound
  refine ⟨entry, List.mem_of_getElem? hk, hname, hk, ?_⟩
  rw [Book.content, Book.entryAt, List.getD_eq_getElem?_getD, hk, Option.getD_some]

/-- A delivery of the walk: the position it is sent for, and the entry. -/
theorem mem_walk {δ : Type} {d : Delivery δ}
    (hspine : ∀ chapter ∈ spine, book.ChapterFound chapter)
    (hd : d ∈ Script.walk archive book spine.zipIdx (book.resources limits spine)) :
    ∃ position ∈ spine.map SpineEntry.source ++ (book.resources limits spine).map Prod.snd,
      ∃ k, position < book.resolved.length ∧ (book.item position).entry = some k ∧
        d.entry = some k ∧
        d.event.file = some ((book.item position).path, book.content archive k) := by
  obtain ⟨x, hx, rfl⟩ := List.mem_map.mp hd
  cases x with
  | inl pending =>
      obtain ⟨entry, position⟩ := pending
      obtain ⟨hmem, hqualifies⟩ := qualifies_of_mem hx
      exact ⟨position, List.mem_append_right _ (List.mem_map.mpr ⟨_, hmem, rfl⟩), entry,
        hqualifies.inRange, hqualifies.present, rfl, rfl⟩
  | inr visit =>
      obtain ⟨chapter, k⟩ := visit
      have hchapter : chapter ∈ spine := mem_spine_of_mem hx
      have hfound := hspine chapter hchapter
      exact ⟨chapter.source, List.mem_append_left _ (List.mem_map.mpr ⟨_, hchapter, rfl⟩),
        book.chapterEntry chapter, hfound.inRange, hfound.entry, rfl, rfl⟩

/-- Every position the walk is planned for is sent. -/
theorem exists_mem_walk (δ : Type) (archive : MemoryArchive) {position : Nat}
    (hposition : position ∈ spine.map SpineEntry.source ++
      (book.resources limits spine).map Prod.snd) :
    ∃ d : Delivery δ, d ∈ Script.walk archive book spine.zipIdx (book.resources limits spine) ∧
      ∃ content, d.event.file = some ((book.item position).path, content) := by
  rcases List.mem_append.mp hposition with h | h
  · obtain ⟨chapter, hchapter, rfl⟩ := List.mem_map.mp h
    obtain ⟨k, hk⟩ := List.getElem?_of_mem hchapter
    have hmem : (chapter, k) ∈ rights (interleave Prod.fst
        (fun visit : SpineEntry × Nat => book.chapterEntry visit.1) spine.zipIdx
        (book.resources limits spine)) := by
      rw [rights_interleave, List.mem_zipIdx_iff_getElem?]
      exact hk
    obtain ⟨x, hx, hright⟩ := List.mem_filterMap.mp hmem
    obtain rfl := Sum.getRight?_eq_some_iff.mp hright
    exact ⟨_, List.mem_map.mpr ⟨_, hx, rfl⟩, _, rfl⟩
  · obtain ⟨⟨entry, position⟩, hpending, rfl⟩ := List.mem_map.mp h
    have hmem : (entry, position) ∈ lefts (interleave Prod.fst
        (fun visit : SpineEntry × Nat => book.chapterEntry visit.1) spine.zipIdx
        (book.resources limits spine)) := by
      rwa [lefts_interleave]
    obtain ⟨x, hx, hleft⟩ := List.mem_filterMap.mp hmem
    obtain rfl := Sum.getLeft?_eq_some_iff.mp hleft
    exact ⟨_, List.mem_map.mpr ⟨_, hx, rfl⟩, _, rfl⟩

/-- Found under the decoded path, a file is the one that its event names. -/
theorem faithful_of_decoded {δ : Type} {sent : List (Delivery δ)}
    (hspine : ∀ chapter ∈ spine, book.ChapterFound chapter)
    (hsent : ∀ d ∈ sent, d.event.file.isSome →
      d ∈ Script.walk archive book spine.zipIdx (book.resources limits spine))
    (hdecoded : book.FoundDecoded limits spine) : FaithfulHrefs archive book.entries sent where
  named := fun d hd href content hfile => by
    obtain ⟨position, hposition, k, hrange, hentry, -, hfile'⟩ :=
      mem_walk hspine (hsent d hd (by simp [hfile]))
    obtain ⟨rfl, rfl⟩ := Prod.mk.inj (Option.some.inj (hfile.symm.trans hfile'))
    obtain ⟨entry, hmem, hname, -, hcontent⟩ :=
      Book.content_named archive hrange hentry (hdecoded position hposition)
    exact ⟨entry, hmem, hname, hcontent⟩
  distinct := fun d hd d' hd' f f' hf hf' hne heq => by
    obtain ⟨p, hp, k, hrange, hentry, htag, hfile⟩ := mem_walk hspine (hsent d hd (by simp [hf]))
    obtain ⟨p', hp', k', hrange', hentry', htag', hfile'⟩ :=
      mem_walk hspine (hsent d' hd' (by simp [hf']))
    obtain rfl := Option.some.inj (hf.symm.trans hfile)
    obtain rfl := Option.some.inj (hf'.symm.trans hfile')
    -- one path has one position in the index
    obtain ⟨found, hfound⟩ := Option.isSome_iff_exists.mp (hdecoded p hp)
    have hk := Book.entry_position hrange hentry hfound
    rw [show (book.item p).path = (book.item p').path from heq] at hfound
    have hk' := Book.entry_position hrange' hentry' hfound
    exact hne (by rw [htag, htag', hk, hk'])

end Faithful

/-- Two images whose names are two undecoded spellings of one path. -/
def Sample.undecoded : Sample.Source where
  files := [Sample.file "c.xhtml" [10], Sample.file "a%41.png" [20], Sample.file "%61A.png" [21]]
  manifest := [Sample.chapterItem "c" "c.xhtml", Sample.imageItem "i" "a%41.png",
    Sample.imageItem "j" "%61A.png"]
  spine := ["c".toList]

/-- Two entries that went out under one href. -/
theorem not_faithful_of_collision {δ : Type} {archive : MemoryArchive} {entries : List EntryInfo}
    {sent : List (Delivery δ)} {k k' : Nat} {href : Str} {content content' : Bytes}
    {before after : List (Option Nat × Option (Str × Bytes))}
    (h : (carried sent).map (fun d => (d.entry, d.event.file)) =
      before ++ (some k, some (href, content)) :: (some k', some (href, content')) :: after)
    (hne : k ≠ k') : ¬ FaithfulHrefs archive entries sent := by
  intro hfaithful
  have hmem : ∀ x ∈ before ++ (some k, some (href, content)) ::
      (some k', some (href, content')) :: after, ∃ d ∈ sent, (d.entry, d.event.file) = x := by
    rw [← h]
    intro x hx
    obtain ⟨d, hd, rfl⟩ := List.mem_map.mp hx
    exact ⟨d, List.mem_of_mem_filter hd, rfl⟩
  obtain ⟨d, hd, heq⟩ := hmem (some k, some (href, content)) (by simp)
  obtain ⟨d', hd', heq'⟩ := hmem (some k', some (href, content')) (by simp)
  obtain ⟨htag, hfile⟩ := Prod.mk.inj heq
  obtain ⟨htag', hfile'⟩ := Prod.mk.inj heq'
  exact hfaithful.distinct d hd d' hd' _ _ hfile hfile' (by simpa [htag, htag'] using hne) rfl

/-- Two files whose names differ in an escape come under one href. -/
theorem undecoded_hrefs_collide : ¬ ∃ archive entries,
    FaithfulHrefs archive entries (run Sample.counting Sample.undecoded.crates Sample.defaults
      Sample.undecoded.bytes Sample.patient).2.sent := by
  rintro ⟨archive, entries, hfaithful⟩
  have hfiles : (carried (run Sample.counting Sample.undecoded.crates Sample.defaults
        Sample.undecoded.bytes Sample.patient).2.sent).map (fun d => (d.entry, d.event.file)) =
      [(some 3, some ("c.xhtml".toList, [10]))] ++ (some 4, some ("aA.png".toList, [20])) ::
        (some 5, some ("aA.png".toList, [21])) :: [] := by
    decide +kernel
  exact not_faithful_of_collision hfiles (by decide) hfaithful

/-- Each file goes out under its own name when it is found under its decoded path. -/
theorem hrefs_faithful (π : Projection) (crates : Crates) (limits : Effective) (bytes : Bytes)
    (archive : MemoryArchive) (book : Book) (spine : List SpineEntry)
    (hprepared : Prepared crates limits bytes archive book spine) (client : Nat → Bool) :
    (book.FoundDecoded limits spine →
      FaithfulHrefs archive book.entries (run π crates limits bytes client).2.sent) ∧
    ((run π crates limits bytes client).1 = .complete →
      (FaithfulHrefs archive book.entries (run π crates limits bytes client).2.sent ↔
        book.FoundDecoded limits spine)) := by
  obtain ⟨hbegins, hcomplete⟩ := run_carried (π := π) client hprepared
  have hspine := (Book.resolveSpine_ok hprepared.spine).2
  have hsufficient : book.FoundDecoded limits spine →
      FaithfulHrefs archive book.entries (run π crates limits bytes client).2.sent :=
    faithful_of_decoded hspine fun d hd hfile =>
      hbegins.subset (List.mem_filter.mpr ⟨hd, hfile⟩)
  refine ⟨hsufficient, fun hc => ⟨fun h position hposition => ?_, hsufficient⟩⟩
  obtain ⟨d, hd, content, hfile⟩ := exists_mem_walk π.Document archive hposition
  rw [← hcomplete hc] at hd
  obtain ⟨entry, hmem, hname, -⟩ := h.named d (List.mem_of_mem_filter hd) _ _ hfile
  rw [← hname]
  exact Extract.indexOf_isSome hmem

theorem hrefs_faithful_backwards : ∃ archive book spine,
    Prepared Sample.backwards.crates Sample.defaults Sample.backwards.bytes archive book spine ∧
    (FaithfulHrefs archive book.entries (run Sample.counting Sample.backwards.crates
        Sample.defaults Sample.backwards.bytes Sample.patient).2.sent ↔
      book.FoundDecoded Sample.defaults spine) := by
  have hcomplete : (run Sample.counting Sample.backwards.crates Sample.defaults
    Sample.backwards.bytes Sample.patient).1 = .complete := by decide +kernel
  obtain ⟨archive, book, spine, hprepared⟩ := run_prepared hcomplete
  exact ⟨archive, book, spine, hprepared, (hrefs_faithful Sample.counting
    Sample.backwards.crates Sample.defaults Sample.backwards.bytes archive book spine hprepared
    Sample.patient).2 hcomplete⟩

end GrpcEpub
