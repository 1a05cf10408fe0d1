/-
# `GrpcEpub.Obfuscated` — what becomes of the entries the descriptor lists

An entry stored font-obfuscated is not readable as it stands.  No event carries
one, whatever names it: a chapter is refused, a resource is skipped.  Skipping
costs the call nothing, so where no chapter is read from a listed entry the
call fails for a reason it would have had without the list.
-/
import GrpcEpub.Completion

namespace GrpcEpub

/-- One of the descriptor's references resolves to the entry at position `k`. -/
structure Scrambled (crates : Crates) (limits : Effective) (bytes : Bytes)
    (archive : MemoryArchive) (entries : List EntryInfo) (k : Nat) : Prop where
  opened : Archive.openArchive crates.zipNew bytes limits = .ok archive
  scanned : ∃ scan, Archive.scan archive = .ok scan ∧ scan.entries = entries
  listed : ∃ position records, (Extract.indexOf entries).get encryptionPath = some position ∧
    Encryption.parseEncryption
      (crates.strict (archive.inflated (entries.getD position default))) = .ok records ∧
    ∃ record ∈ records, Extract.cipherTarget (Extract.indexOf entries) record.uri = some k

/-- The book as it would be read if its descriptor listed nothing. -/
def Book.unlisted (book : Book) : Book := { book with obfuscated := [] }

/-- Every chapter is read from an entry the descriptor does not list. -/
def Book.ReadsPlain (book : Book) : Prop :=
  ∀ itemref ∈ book.package.spine, ∀ position source entry,
    book.byId.get itemref.idref = some position → book.chapterSource position = .ok (some source) →
    (book.item source).entry = some entry → entry ∉ book.obfuscated

/-! ## The spine

A chapter's source is listed or not, and `resolve_itemref` asks in the end. -/

namespace Book

variable {book : Book}

/-- Looking the spine up in the manifest does not ask what is listed. -/
theorem chapterSource_unlisted (primary : Nat) :
    book.unlisted.chapterSource primary = book.chapterSource primary := by
  have hchain : ∀ (room last : Nat) (chain : List Nat),
      book.unlisted.fallbackChain last chain room = book.fallbackChain last chain room := by
    intro room
    induction room with
    | zero => exact fun last chain => rfl
    | succ room ih =>
        intro last chain
        unfold fallbackChain
        simp only [ih]
        rfl
  have hheld : ∀ chain : List Nat, book.unlisted.heldItems chain = book.heldItems chain := by
    intro chain
    induction chain with
    | nil => rfl
    | cons position rest ih =>
        unfold heldItems
        rw [ih]
        rfl
  unfold chapterSource
  simp only [hchain, hheld]

/-- An itemref that leads to no listed entry is resolved as if there were no list. -/
theorem resolveItemref_unlisted {itemref : SpineItem}
    (h : ∀ position source entry, book.byId.get itemref.idref = some position →
      book.chapterSource position = .ok (some source) →
      (book.item source).entry = some entry → entry ∉ book.obfuscated) :
    book.unlisted.resolveItemref itemref = book.resolveItemref itemref := by
  unfold resolveItemref
  rw [show book.unlisted.byId = book.byId from rfl]
  cases hid : book.byId.get itemref.idref with
  | none => rfl
  | some position =>
      dsimp only
      rw [chapterSource_unlisted]
      cases hsource : book.chapterSource position with
      | error e => rfl
      | ok found =>
          cases found with
          | none => rfl
          | some source =>
              change (nth book.resolved source >>= _) = (nth book.resolved source >>= _)
              refine Except.bind_congr_ok ?_
              intro target htarget
              refine Except.bind_congr_ok ?_
              intro entry hentry
              have hplain := h position source entry hid hsource
                (by rw [item_of_nth htarget, expect_ok hentry])
              rw [if_neg hplain, if_neg (show entry ∉ book.unlisted.obfuscated from
                List.not_mem_nil)]

theorem resolveSpine_unlisted (h : book.ReadsPlain) :
    book.unlisted.resolveSpine book.package.spine = book.resolveSpine book.package.spine := by
  unfold ReadsPlain at h
  generalize book.package.spine = itemrefs at h ⊢
  induction itemrefs with
  | nil => rfl
  | cons itemref rest ih =>
      unfold resolveSpine
      rw [resolveItemref_unlisted (h itemref List.mem_cons_self),
        ih fun i hi => h i (List.mem_cons_of_mem _ hi)]

/-- A spine that resolves is read from entries that are not listed. -/
theorem readsPlain_of_resolved {spine : List SpineEntry}
    (h : book.resolveSpine book.package.spine = .ok spine) : book.ReadsPlain := by
  unfold ReadsPlain
  generalize book.package.spine = itemrefs at h
  induction itemrefs generalizing spine with
  | nil => exact fun itemref hitemref => absurd hitemref List.not_mem_nil
  | cons first rest ih =>
      obtain ⟨chapter, hchapter, h⟩ := Except.bind_ok h
      obtain ⟨others, hothers, -⟩ := Except.bind_ok h
      intro itemref hitemref position source entry hposition hsource hentry hlisted
      rcases List.mem_cons.mp hitemref with rfl | hitemref
      · unfold resolveItemref at hchapter
        rw [hposition] at hchapter
        dsimp only at hchapter
        rw [hsource] at hchapter
        obtain ⟨target, htarget, hchapter⟩ := Except.bind_ok (x := nth book.resolved source) hchapter
        obtain ⟨entry', hentry', hchapter⟩ := Except.bind_ok hchapter
        rw [← item_of_nth htarget] at hentry'
        obtain rfl := Option.some.inj (hentry.symm.trans (expect_ok hentry'))
        rw [if_pos hlisted] at hchapter
        cases hchapter
      · exact ih hothers itemref hitemref position source entry hposition hsource hentry hlisted

end Book

/-! ## What is sent

Chapters and resources, each of which has been asked for its entry. -/

section Run

variable {π : Projection} {crates : Crates} {limits : Effective} {bytes : Bytes}
  {archive : MemoryArchive} {book : Book} {spine : List SpineEntry}

/-- The entry of a file on the walk is one the descriptor does not list. -/
theorem not_listed_of_mem_walk {δ : Type} {d : Delivery δ}
    (hspine : ∀ chapter ∈ spine, book.ChapterFound chapter)
    (hd : d ∈ Script.walk archive book spine.zipIdx (book.resources limits spine)) :
    ∃ j, d.entry = some j ∧ j ∉ book.obfuscated ∧
      ∃ href, d.event.file = some (href, book.content archive j) := by
  obtain ⟨x, hx, rfl⟩ := List.mem_map.mp hd
  cases x with
  | inl pending =>
      exact ⟨pending.1, rfl, (qualifies_of_mem hx).2.notObfuscated, _, rfl⟩
  | inr visit =>
      exact ⟨book.chapterEntry visit.1, rfl, (hspine visit.1 (mem_spine_of_mem hx)).notObfuscated, _,
        rfl⟩

/-- What the descriptor lists is what the book skips. -/
theorem Scrambled.mem_obfuscated {k : Nat} (h : Prepared crates limits bytes archive book spine)
    (hk : Scrambled crates limits bytes archive book.entries k) : k ∈ book.obfuscated := by
  obtain ⟨position, records, hposition, hparse, record, hrecord, htarget⟩ := hk.listed
  have hpolicy := h.policy
  rw [show book.index.get encryptionPath = some position from hposition] at hpolicy
  have hok : Extract.obfuscatedEntries (crates.strict (archive.inflated
      (book.entries.getD position default))) (Extract.indexOf book.entries) =
        .ok book.obfuscated := hpolicy
  unfold Extract.obfuscatedEntries at hok
  rw [hparse] at hok
  dsimp only at hok
  split at hok
  · cases hok
  · rw [← Except.ok.inj hok]
    exact List.mem_filterMap.mpr ⟨record, hrecord, htarget⟩

end Run

/-- An entry the descriptor lists is the source of no chapter and of no
resource, whatever names it; and where no chapter needs one, the call never
fails for the list's sake: an entry could not be inflated, or the spine fails
as it does when nothing is listed. -/
theorem no_scrambled_bytes (π : Projection) (crates : Crates) (limits : Effective) (bytes : Bytes)
    (client : Nat → Bool) (archive : MemoryArchive) :
    (∀ entries k, Scrambled crates limits bytes archive entries k →
      ∀ d ∈ (run π crates limits bytes client).2.sent, d.event.file.isSome →
        ∃ j href, d.entry = some j ∧ j ≠ k ∧
          d.event.file = some (href, archive.inflated (entries.getD j default))) ∧
    (∀ book, Packaged crates limits bytes archive book → book.ReadsPlain →
      book.resolveSpine book.package.spine = book.unlisted.resolveSpine book.package.spine ∧
      ∀ status, (run π crates limits bytes client).1 = .failed status →
        FromReading archive limits book.entries status ∨
          book.unlisted.resolveSpine book.package.spine = .error (.failed status)) := by
  constructor
  · intro entries k hk d hd hfile
    rcases @run_spec π crates limits bytes client with
      hrefused | ⟨archive', book, spine, status, h⟩
    · rw [hrefused.sent] at hd
      cases hd
    · obtain rfl := Except.ok.inj (h.prepared.opened.symm.trans hk.opened)
      obtain ⟨scan, hscan, hentries⟩ := h.prepared.scanned
      obtain ⟨scan', hscan', rfl⟩ := hk.scanned
      obtain rfl := Except.ok.inj (hscan.symm.trans hscan')
      rw [hentries] at hk ⊢
      have hwalk : d ∈ Script.walk archive' book spine.zipIdx (book.resources limits spine) := by
        rw [← carried_response π crates limits bytes archive' book spine status]
        exact List.mem_filter.mpr ⟨h.sent.subset hd, hfile⟩
      obtain ⟨j, hentry, hplain, href, hcontent⟩ :=
        not_listed_of_mem_walk (Book.resolveSpine_ok h.prepared.spine).2 hwalk
      refine ⟨j, href, hentry, fun heq => hplain ?_, hcontent⟩
      rw [heq]
      exact hk.mem_obfuscated h.prepared
  · intro book hbook hplain
    have hsame := Book.resolveSpine_unlisted hplain
    refine ⟨hsame.symm, fun status hfailed => ?_⟩
    rw [hsame]
    exact run_failed hbook client hfailed

/-- A chapter, and a font that two manifest items name and the descriptor lists. -/
def Sample.scrambled : Sample.Source where
  files := [Sample.file "a.xhtml" [10], Sample.file "f.otf" [30],
    Sample.file "META-INF/encryption.xml" [4]]
  manifest := [Sample.chapterItem "a" "a.xhtml",
    { id := "f", href := "f.otf", mediaType := "font/otf" },
    { id := "again", href := "./f.otf", mediaType := "image/png" }]
  spine := ["a".toList]

/-- Its descriptor. -/
def Sample.listing : XmlStream where
  events := [.start (Sample.tag "encryption" []), .start (Sample.tag "EncryptedData" []),
    .empty (Sample.tag "EncryptionMethod" [("Algorithm", Encryption.idpfObfuscation)]),
    .empty (Sample.tag "CipherReference" [("URI", "f.otf")]), .endTag "EncryptedData",
    .endTag "encryption"]
  stop := .eof

def Sample.scrambledCrates : Crates :=
  { Sample.scrambled.crates with
    strict := Sample.reader [([1], Sample.container "p.opf"),
      ([2], Sample.opf Sample.scrambled.manifest Sample.scrambled.spine), ([4], Sample.listing)] }

theorem no_scrambled_bytes_font : ∃ archive book,
    Scrambled Sample.scrambledCrates Sample.defaults Sample.scrambled.bytes archive
      book.entries 4 ∧
    Packaged Sample.scrambledCrates Sample.defaults Sample.scrambled.bytes archive book ∧
    book.ReadsPlain ∧
    (∀ d ∈ (run Sample.counting Sample.scrambledCrates Sample.defaults Sample.scrambled.bytes
        Sample.patient).2.sent, d.event.file.isSome →
      ∃ j href, d.entry = some j ∧ j ≠ 4 ∧
        d.event.file = some (href, archive.inflated (book.entries.getD j default))) ∧
    book.resolveSpine book.package.spine = book.unlisted.resolveSpine book.package.spine := by
  have hcomplete : (run Sample.counting Sample.scrambledCrates Sample.defaults
    Sample.scrambled.bytes Sample.patient).1 = .complete := by decide +kernel
  obtain ⟨archive, book, spine, hprepared⟩ := run_prepared hcomplete
  obtain rfl := Except.ok.inj (Archive.openArchive_ok hprepared.opened).1
  obtain ⟨scan, hscan, hentries⟩ := hprepared.scanned
  -- the fifth entry, at position 4, is what the descriptor's one reference resolves to
  have hlisted : (Archive.scan (Sample.archive Sample.scrambled.all)).toOption.map (fun scan =>
      ((Extract.indexOf scan.entries).get encryptionPath,
        Encryption.parseEncryption (Sample.scrambledCrates.strict
          ((Sample.archive Sample.scrambled.all).inflated (scan.entries.getD 5 default))),
        Extract.cipherTarget (Extract.indexOf scan.entries) "f.otf")) =
      some (some 5, .ok [{ algorithm := Encryption.idpfObfuscation, uri := "f.otf" }],
        some 4) := by decide +kernel
  rw [hscan] at hlisted
  obtain ⟨hposition, hlisted⟩ := Prod.mk.inj (Option.some.inj hlisted)
  obtain ⟨hrecords, htarget⟩ := Prod.mk.inj hlisted
  rw [hentries] at hposition hrecords htarget
  have hscrambled : Scrambled Sample.scrambledCrates Sample.defaults Sample.scrambled.bytes
      (Sample.archive Sample.scrambled.all) book.entries 4 :=
    ⟨hprepared.opened, hprepared.scanned, 5, _, hposition, hrecords, _,
      List.mem_singleton_self _, htarget⟩
  have hplain := Book.readsPlain_of_resolved hprepared.spine
  have hclaim := no_scrambled_bytes Sample.counting Sample.scrambledCrates Sample.defaults
    Sample.scrambled.bytes Sample.patient (Sample.archive Sample.scrambled.all)
  exact ⟨_, book, hscrambled, hprepared.packaged, hplain, hclaim.1 book.entries 4 hscrambled,
    (hclaim.2 book hprepared.packaged hplain).1⟩

end GrpcEpub
