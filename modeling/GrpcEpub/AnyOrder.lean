/-
# `GrpcEpub.AnyOrder` — the same entries, packed in another order

A ZIP is laid out entry by entry: the local blocks in their order, and a record for
each in the directory, which says where its block begins.  Packing the entries in
another order changes those offsets, and with them what the ceiling on record
signatures counts, which is taken over the raw bytes.  Where that ceiling lets both
uploads pass or neither, both calls complete or neither does, and what they send
differs in the places of the resources only.
-/
import GrpcEpub.Repacked

namespace GrpcEpub

/-! ## Two answers

What is to be the same of two responses, and what the trailer of each reports. -/

/-- Two responses with the same messages, the resources in any order. -/
structure Parts.SameBody {δ : Type} (parts parts' : Parts δ) : Prop where
  info : parts.info = parts'.info
  navigation : parts.navigation = parts'.navigation
  overlays : parts.overlays = parts'.overlays
  chapters : rights parts.walk = rights parts'.walk
  resources : (lefts parts.walk).Perm (lefts parts'.walk)

/-- Two responses that differ in the places of their resources, the document and
the warnings at most. -/
structure Parts.Agree {δ : Type} (parts parts' : Parts δ) : Prop extends
    Parts.SameBody parts parts' where
  chaptersEmitted : parts.status.chaptersEmitted = parts'.status.chaptersEmitted
  resourcesEmitted : parts.status.resourcesEmitted = parts'.status.resourcesEmitted
  resourcesSkipped : parts.status.resourcesSkipped = parts'.status.resourcesSkipped
  uncompressedBytes : parts.status.uncompressedBytes = parts'.status.uncompressedBytes
  entriesRead : parts.status.entriesRead = parts'.status.entriesRead

/-- Both calls complete or neither, and then they agree. -/
structure SameAnswer {π : Projection} (answer answer' : Outcome × Call π) : Prop where
  complete : answer.1 = .complete ↔ answer'.1 = .complete
  agree : answer.1 = .complete → ∃ parts parts' : Parts π.Document,
    answer.2.sent.map Delivery.event = parts.sequence ∧
    answer'.2.sent.map Delivery.event = parts'.sequence ∧ parts.Agree parts'

section Skipped

variable {π : Projection} {crates : Crates} {limits : Effective} {bytes : Bytes}
  {client : Nat → Bool} {archive : MemoryArchive} {book : Book} {spine : List SpineEntry}

/-- A trailer that goes out is the report of its call. -/
theorem Parse.trailer_sends {done : Done} {s : Call π}
    (h : ((trailer client done).exec s).1 = .ok ()) :
    .status (report s done) ∈ ((trailer client done).exec s).2.sent.map Delivery.event := by
  cases hfold : s.fold with
  | none =>
      simp only [trailer, emit, Eff.exec_bind, Eff.exec_get, hfold, exec_send] at h ⊢
      cases hclient : client s.sent.length with
      | true => simp
      | false => simp [hclient] at h
  | some fold =>
      simp only [trailer, emit, Eff.exec_bind, Eff.exec_get, Eff.exec_set, hfold, exec_send] at h ⊢
      cases hclient : client s.sent.length with
      | false => simp [hclient] at h
      | true =>
          cases hnext : client (s.sent.length + 1) with
          | true => simp [hnext]
          | false => simp [hclient, hnext] at h

/-- A completed call has delivered its book, and ends with the trailer. -/
theorem trailer_of_complete (h : Prepared crates limits bytes archive book spine)
    (hcomplete : (run π crates limits bytes client).1 = .complete) :
    ∃ s s' done, Parse.Holding ∅ s ∧
      (Parse.deliver crates client limits archive book spine).exec s = (.ok done, s') ∧
      ((Parse.trailer client done).exec s').1 = .ok () ∧
      (run π crates limits bytes client).2 = ((Parse.trailer client done).exec s').2 := by
  obtain ⟨scan, hscan, hentries⟩ := h.scanned
  have hstart : Parse.Holding ∅ { Call.start π limits with
      fold := (Call.start π limits).fold.map (π.setSourceHash (sourceHash bytes)) } :=
    fun k => by simp [Call.start]
  have hread := Parse.readBook_inflates (π := π) h.packaged hentries
  unfold run at hcomplete ⊢
  rw [parse_exec h.packaged hscan] at hcomplete ⊢
  rcases hexec : (Parse.readBook crates limits archive scan).exec { Call.start π limits with
      fold := (Call.start π limits).fold.map (π.setSourceHash (sourceHash bytes)) } with ⟨e | b, s⟩
  · rw [Eff.exec_bind_error hexec] at hcomplete
    exact absurd hcomplete (Outcome.of_ne_complete e)
  rw [Eff.exec_bind_ok hexec] at hcomplete ⊢
  obtain ⟨rfl, hs⟩ := (hread.of_ok hstart hexec).2
  rw [h.spine] at hcomplete ⊢
  change Outcome.of (Eff.exec (Parse.deliver crates client limits archive b spine >>= _) s).1 =
    .complete at hcomplete
  rcases hdeliver : (Parse.deliver crates client limits archive b spine).exec s with ⟨e | done, s'⟩
  · rw [Eff.exec_bind_error hdeliver] at hcomplete
    exact absurd hcomplete (Outcome.of_ne_complete e)
  rw [Eff.exec_bind_ok hdeliver] at hcomplete
  refine ⟨s, s', done, hs, hdeliver, ?_, ?_⟩
  · rcases htrailer : ((Parse.trailer client done).exec s').1 with e | ⟨⟩
    · rw [htrailer] at hcomplete
      exact absurd hcomplete (Outcome.of_ne_complete e)
    · rfl
  · exact congrArg Prod.snd (Eff.exec_bind_ok hdeliver _)

/-- The trailer of a completed call counts what the book skips. -/
theorem skipped_of_complete (h : Prepared crates limits bytes archive book spine)
    (hcomplete : (run π crates limits bytes client).1 = .complete) {status : ParseStatus}
    (hstatus : .status status ∈ (run π crates limits bytes client).2.sent.map Delivery.event) :
    status.resourcesSkipped = book.skipped limits spine := by
  rw [run_eq_staying hcomplete] at hstatus hcomplete
  have hcounts := counts_of_complete h hcomplete
  have hinflates := @Parse.deliver_inflates π crates limits archive book spine
    (Book.resolveSpine_ok h.spine).2 hcounts
  obtain ⟨s, s', done, hs, hdeliver, htrailer, hsent⟩ := trailer_of_complete h hcomplete
  obtain ⟨rfl, -⟩ := (hinflates.of_ok hs hdeliver).2
  have hreport := Parse.trailer_sends htrailer
  rw [← hsent] at hreport
  obtain ⟨_, _, _, last, hdelivered⟩ := run_delivered hcomplete
  rw [(hdelivered.complete_of_status hstatus).2, ← (hdelivered.complete_of_status hreport).2]
  rfl

end Skipped

/-! ## A book and its reordering

One call against the call on the moved book: their parts have the same bodies, and their counts
are the same because the schedules are. -/

theorem length_walk {δ : Type} (parts : Parts δ) :
    parts.walk.length = (lefts parts.walk).length + (rights parts.walk).length := by
  have hlength := (perm_lefts_rights parts.walk).length_eq
  rwa [List.length_append, List.length_map, List.length_map] at hlength

theorem Parts.SameBody.length_sequence {δ : Type} {parts parts' : Parts δ}
    (h : parts.SameBody parts') (hdocument : parts.document.isSome = parts'.document.isSome) :
    parts.sequence.length = parts'.sequence.length := by
  have hwalk : parts.walk.length = parts'.walk.length := by
    rw [length_walk, length_walk, h.chapters, h.resources.length_eq]
  have hlength : parts.document.toList.length = parts'.document.toList.length := by
    cases hd : parts.document <;> cases hd' : parts'.document <;> simp_all
  simp only [sequence, body, List.length_append, List.length_cons, List.length_map, List.length_nil,
    h.navigation, h.overlays, hwalk, hlength]

section Moved

variable {π : Projection} {crates : Crates} {limits : Effective} {bytes bytes' : Bytes}
  {client : Nat → Bool} {σ : Nat → Nat} {archive archive' : MemoryArchive} {book : Book}
  {spine : List SpineEntry} {entries' : List EntryInfo}

/-- The responses to the two calls have the same body, part by part. -/
theorem response_moved (h : Reordered σ archive archive' book.entries entries')
    (hspine : ∀ chapter ∈ spine, book.ChapterFound chapter) (status status' : ParseStatus) :
    ∃ parts parts' : Parts π.Document,
      (response π crates limits bytes archive book spine status).map Delivery.event =
        parts.sequence ∧
      (response π crates limits bytes' archive' (book.moved σ entries') spine status').map
        Delivery.event = parts'.sequence ∧
      parts.SameBody parts' ∧ parts.document.isSome = parts'.document.isSome ∧
      parts.status = status ∧ parts'.status = status' := by
  obtain ⟨info, navigation, overlays, hscript, -⟩ :=
    script_events crates limits archive book spine (δ := π.Document)
  obtain ⟨document, hdocument, htrailing⟩ := trailing_events (π := π) limits (sourceHash bytes)
    (script crates limits archive book spine) status
  obtain ⟨document', hdocument', htrailing'⟩ := trailing_events (π := π) limits (sourceHash bytes')
    (script crates limits archive' (book.moved σ entries') spine) status'
  -- the events in front of the walk are the same on both sides
  have hhead : (Script.opening book spine ++ Script.navigation crates limits archive book ++
      Script.overlays crates limits archive book).map (Delivery.event (δ := π.Document)) =
      .info info :: (navigation.toList.map .navigation ++ overlays.map .mediaOverlay) := by
    rw [script, List.map_append, Script.walk_events, ← List.cons_append] at hscript
    exact List.append_cancel_right hscript
  have hscript' : (script (δ := π.Document) crates limits archive' (book.moved σ entries')
      spine).map Delivery.event =
      .info info :: (navigation.toList.map .navigation ++ overlays.map .mediaOverlay ++
        (Script.walkMessages archive' (book.moved σ entries') spine.zipIdx
          ((book.moved σ entries').resources limits spine)).map (Sum.elim .resource .chapter)) := by
    rw [script, Script.opening_moved h, Script.navigation_moved h, Script.overlays_moved h,
      List.map_append, hhead, Script.walk_events, List.cons_append]
  refine ⟨⟨info, navigation, overlays, Script.walkMessages archive book spine.zipIdx
      (book.resources limits spine), document, status⟩,
    ⟨info, navigation, overlays, Script.walkMessages archive' (book.moved σ entries') spine.zipIdx
      ((book.moved σ entries').resources limits spine), document', status'⟩, ?_, ?_,
    ⟨rfl, rfl, rfl, ?_, ?_⟩, hdocument.trans hdocument'.symm, rfl, rfl⟩
  · simp only [response, List.map_append, hscript, htrailing, Parts.sequence, Parts.body,
      List.cons_append, List.append_assoc]
  · simp only [response, List.map_append, hscript', htrailing', Parts.sequence, Parts.body,
      List.cons_append, List.append_assoc]
  · dsimp only
    rw [Script.rights_walkMessages, Script.rights_walkMessages]
    refine List.map_congr_left ?_
    intro visit hat
    have hchapter := List.fst_mem_of_mem_zipIdx hat
    exact (Script.chapterMessage_moved h (hspine visit.1 hchapter)).symm
  · -- the resources are permuted, and each is the same message
    dsimp only
    rw [Script.lefts_walkMessages, Script.lefts_walkMessages]
    have hmessages : ((book.resources limits spine).map (Prod.map σ id)).map
        (Script.resourceMessage archive' (book.moved σ entries')) =
        (book.resources limits spine).map (Script.resourceMessage archive book) := by
      rw [List.map_map]
      refine List.map_congr_left ?_
      intro pending hpending
      have hpresent := (Book.mem_pendingItems.mp (Book.mem_archiveOrder.mp hpending).1).present
      exact Script.resourceMessage_moved h (Book.entry_lt hpresent)
    rw [← hmessages]
    exact ((Book.resources_moved h limits hspine).map _).symm

/-- A call and the call with the entries in another order. -/
theorem sameAnswer_moved {scan' : Scan}
    (h : Reordered σ archive archive' book.entries scan'.entries)
    (hprepared : Prepared crates limits bytes archive book spine)
    (hopened : Archive.openArchive crates.zipNew bytes' limits = .ok archive')
    (hscanned : Archive.scan archive' = .ok scan')
    (honest : ∀ k < book.entries.length, Archive.Honest archive limits (book.entries.getD k default)) :
    SameAnswer (run π crates limits bytes client) (run π crates limits bytes' client) := by
  have hprepared' := hprepared.moved h hopened hscanned
  have hspine := (Book.resolveSpine_ok hprepared.spine).2
  have hrange : ∀ k ∈ book.schedule crates limits archive spine, k < book.entries.length :=
    fun k hk => Book.mem_schedule hspine hk
  have hschedule := @Book.schedule_moved σ archive archive' _ book spine limits crates h hspine
  -- with a client that stays, a call completes if its schedule can be paid, which is a sum
  have hstaying : (run π crates limits bytes staying).1 = .complete ↔
      (run π crates limits bytes' staying).1 = .complete := by
    rw [run_complete_iff hprepared, run_complete_iff hprepared', Book.counts_moved h hspine]
    exact and_congr_right fun _ => (Archive.spendAll_moved h hrange hschedule
      (fun k hk => honest k (hrange k hk)) (Nat.zero_le _) (Nat.zero_le _)).symm
  -- and then the two receipts agree field by field
  have hanswer : (run π crates limits bytes staying).1 = .complete →
      ∃ parts parts' : Parts π.Document,
        (run π crates limits bytes staying).2.sent.map Delivery.event = parts.sequence ∧
        (run π crates limits bytes' staying).2.sent.map Delivery.event = parts'.sequence ∧
        parts.Agree parts' ∧ parts.sequence.length = parts'.sequence.length := by
    intro hcomplete
    have hcomplete' := hstaying.mp hcomplete
    obtain ⟨_, _, _, status, hdelivered⟩ := run_delivered hcomplete
    obtain ⟨rfl, rfl, rfl⟩ := hprepared.unique hdelivered.prepared
    obtain ⟨_, _, _, status', hdelivered'⟩ := run_delivered hcomplete'
    obtain ⟨rfl, rfl, rfl⟩ := hprepared'.unique hdelivered'.prepared
    obtain ⟨parts, parts', hparts, hparts', hsame, hdocument, hstatus, hstatus'⟩ :=
      @response_moved π crates limits bytes bytes' σ archive archive' book spine _ h hspine status
        status'
    rw [← hdelivered.complete.mp hcomplete] at hparts
    rw [← hdelivered'.complete.mp hcomplete'] at hparts'
    have hmem : .status status ∈ (run π crates limits bytes staying).2.sent.map Delivery.event := by
      rw [hparts, Parts.sequence, hstatus]
      exact List.mem_append_right _ List.mem_cons_self
    have hmem' : .status status' ∈
        (run π crates limits bytes' staying).2.sent.map Delivery.event := by
      rw [hparts', Parts.sequence, hstatus']
      exact List.mem_append_right _ List.mem_cons_self
    obtain ⟨hbytes, hentries⟩ := receipt_of_complete hprepared hcomplete hmem
    obtain ⟨hbytes', hentries'⟩ := receipt_of_complete hprepared' hcomplete' hmem'
    refine ⟨parts, parts', hparts, hparts', ⟨hsame, ?_, ?_, ?_, ?_, ?_⟩,
      hsame.length_sequence hdocument⟩
    · rw [hstatus, hstatus', hdelivered.chapters, hdelivered'.chapters]
    · rw [hstatus, hstatus', hdelivered.resources, hdelivered'.resources,
        (Book.resources_moved h limits hspine).length_eq, List.length_map]
    · rw [hstatus, hstatus', skipped_of_complete hprepared hcomplete hmem,
        skipped_of_complete hprepared' hcomplete' hmem', Book.skipped_moved h limits hspine]
    · rw [hstatus, hstatus', hbytes, hbytes']
      exact (Archive.sum_moved h hrange hschedule).symm
    · rw [hstatus, hstatus', hentries, hentries', hschedule.length_eq, List.length_map]
  -- any other client is told as many events by either call
  have hcomplete : (run π crates limits bytes client).1 = .complete ↔
      (run π crates limits bytes' client).1 = .complete := by
    rw [@run_complete_client π crates limits bytes client,
      @run_complete_client π crates limits bytes' client, ← hstaying]
    refine and_congr_right ?_
    intro hstays
    obtain ⟨parts, parts', hparts, hparts', -, hlength⟩ := hanswer hstays
    rw [← hparts, ← hparts', List.length_map, List.length_map] at hlength
    rw [hlength]
  refine ⟨hcomplete, fun hcompletes => ?_⟩
  obtain ⟨parts, parts', hparts, hparts', hagree, -⟩ :=
    hanswer ((run_complete_client client).mp hcompletes).1
  rw [run_eq_staying hcompletes, run_eq_staying (hcomplete.mp hcompletes)]
  exact ⟨parts, parts', hparts, hparts', hagree⟩

end Moved

/-! ## Uploads

From the bytes of two uploads to a move of positions.  The records are in the upload that is
packed; what the crate lists of them, it may list in any order. -/

/-- What an entry is wherever it is packed: its raw name, what the crate says of its
record, and what comes out of it. -/
structure Contents where
  rawName : Bytes
  entry : RawEntry
  reads : Except ZipError (List (Except IoError Chunk))

def Contents.member (contents : Contents) : Member where
  record := .ok contents.entry.unplaced
  reads := contents.reads

/-- Reads that come to an end. -/
def Archive.ends : List (Except IoError Chunk) → Bool
  | [] => true
  | .error _ :: _ => false
  | .ok chunk :: rest => decide (chunk.bytes = []) || ends rest

/-- The declared size is the actual one, where the entry has one. -/
def Contents.Honest (contents : Contents) : Prop :=
  ∀ reads, contents.reads = .ok reads → Archive.ends reads = true →
    contents.entry.size = (Archive.gather reads).length

/-- An entry as it is packed: its local block, and its record, which says where that
begins. -/
structure Packed where
  contents : Contents
  block : Bytes
  record : Nat → CentralRecord
  named : ∀ offset, (record offset).name = contents.rawName

/-- The local blocks, one behind the other. -/
def payload (order : List Packed) : Bytes := order.flatMap Packed.block

/-- The records of the directory, for blocks that begin at an offset. -/
def records : Nat → List Packed → List CentralRecord
  | _, [] => []
  | offset, packed :: rest => packed.record offset :: records (offset + packed.block.length) rest

/-- An upload: the blocks, the directory, and the end record. -/
def upload (order : List Packed) (ending : Bytes) : Bytes :=
  payload order ++ (layout (records 0 order) ++ ending)

/-- What is assumed of the crate: it opens the upload, and lists its entries when no
two have one raw name. -/
structure CrateLists (zipNew : Bytes → Except ZipError MemoryArchive) (order : List Packed)
    (ending : Bytes) (archive : MemoryArchive) : Prop where
  opens : zipNew (upload order ending) = .ok archive
  keeps : ∃ decode, CrateReads decode (payload order).length (records 0 order) archive
  lists : (order.map fun packed => packed.contents.rawName).Nodup →
    archive.members.Perm (order.map fun packed => packed.contents.member)

/-- Two uploads of the same entries, which have the sizes they declare and are stored
in front of the directory. -/
structure Repacking (zipNew : Bytes → Except ZipError MemoryArchive) (order order' : List Packed)
    (ending ending' : Bytes) (archive archive' : MemoryArchive) : Prop where
  same : (order.map Packed.contents).Perm (order'.map Packed.contents)
  lists : CrateLists zipNew order ending archive
  lists' : CrateLists zipNew order' ending' archive'
  honest : ∀ packed ∈ order, packed.contents.Honest
  stored : ∀ packed ∈ order,
    packed.contents.entry.compressedSize ≤ archive.centralDirectoryStart
  stored' : ∀ packed ∈ order',
    packed.contents.entry.compressedSize ≤ archive'.centralDirectoryStart

/-- The ceiling on record signatures lets both uploads pass, or neither. -/
def CountedAlike (limits : Effective) (bytes bytes' : Bytes) : Prop :=
  Archive.signatureCount bytes ≤ limits.maxEntries ↔
    Archive.signatureCount bytes' ≤ limits.maxEntries

theorem records_names : ∀ (offset : Nat) (order : List Packed),
    (records offset order).map CentralRecord.name =
      order.map fun packed => packed.contents.rawName
  | _, [] => rfl
  | offset, packed :: rest => by
      rw [records, List.map_cons, List.map_cons, packed.named, records_names]

/-- A read that succeeds comes to an end. -/
theorem Archive.readLoop_ends {limits : Effective} {entry : EntryInfo} {remaining : Nat}
    {bytes : Bytes} : ∀ {reads : List (Except IoError Chunk)} {out : Bytes},
      readLoop limits entry remaining out reads = .ok bytes → ends reads = true
  | [], _, _ => rfl
  | .error _ :: _, _, h => nomatch h
  | .ok chunk :: rest, out, h => by
      unfold readLoop at h
      by_cases hempty : chunk.bytes = []
      · simp [ends, hempty]
      · simp only [if_neg hempty] at h
        split at h
        · cases h
        · split at h
          · cases h
          · simp [ends, readLoop_ends h]

/-- An entry that can be read at all has output that ends. -/
theorem Archive.opens_ends {archive : MemoryArchive} {limits : Effective} {entry : EntryInfo}
    (h : Opens archive limits entry) :
    ∃ reads, archive.byIndex entry.index = .ok reads ∧ ends reads = true := by
  obtain ⟨remaining, bytes, h⟩ := h
  unfold inflate at h
  split at h
  · cases h
  · split at h
    · cases h
    · split at h
      · cases h
      · rename_i reads hreads
        exact ⟨reads, hreads, readLoop_ends h⟩

namespace Repacking

variable {zipNew : Bytes → Except ZipError MemoryArchive} {order order' : List Packed}
  {ending ending' : Bytes} {archive archive' : MemoryArchive} {limits : Effective}

theorem symm (h : Repacking zipNew order order' ending ending' archive archive') :
    Repacking zipNew order' order ending' ending archive' archive where
  same := h.same.symm
  lists := h.lists'
  lists' := h.lists
  honest := by
    intro packed hpacked
    obtain ⟨other, hother, heq⟩ := List.mem_map.mp (h.same.mem_iff.mpr (List.mem_map_of_mem hpacked))
    rw [← heq]
    exact h.honest other hother
  stored := h.stored'
  stored' := h.stored

section Opened

variable (h : Repacking zipNew order order' ending ending' archive archive')
include h

theorem rawNames_perm : (order.map fun packed => packed.contents.rawName).Perm
    (order'.map fun packed => packed.contents.rawName) := by
  have hperm := h.same.map Contents.rawName
  rw [List.map_map, List.map_map] at hperm
  exact hperm

/-- With distinct raw names the two archives have the same members. -/
theorem members_perm (hnodup : (order.map fun packed => packed.contents.rawName).Nodup) :
    archive.members.Perm archive'.members := by
  have hperm := h.same.map Contents.member
  rw [List.map_map, List.map_map] at hperm
  exact (h.lists.lists hnodup).trans
    (hperm.trans (h.lists'.lists (h.rawNames_perm.nodup_iff.mp hnodup)).symm)

theorem nodup_of_opened
    (hopened : Archive.refuseMergedRecords (upload order ending) archive = .ok ()) :
    (order.map fun packed => packed.contents.rawName).Nodup := by
  obtain ⟨decode, hkeeps⟩ := h.lists.keeps
  rw [← records_names 0 order]
  exact (Archive.refuseMergedRecords_iff hkeeps).mp hopened

/-- Where the one upload opens, so does the other. -/
theorem openArchive (hcounted : CountedAlike limits (upload order ending) (upload order' ending'))
    (hne : order ≠ []) {found : MemoryArchive}
    (hopened : Archive.openArchive zipNew (upload order ending) limits = .ok found) :
    found = archive ∧ Archive.openArchive zipNew (upload order' ending') limits = .ok archive' := by
  obtain ⟨-, hsignatures, hzip, hlen, hrefuse⟩ := Archive.openArchive_iff.mp hopened
  obtain rfl := Except.ok.inj (hzip.symm.trans h.lists.opens)
  refine ⟨rfl, Archive.openArchive_iff.mpr ⟨?_, hcounted.mp hsignatures, h.lists'.opens, ?_, ?_⟩⟩
  · have hlength := h.same.length_eq
    cases order' with
    | nil =>
        rw [List.length_map, List.length_map, List.length_nil] at hlength
        exact absurd (List.eq_nil_of_length_eq_zero hlength) hne
    | cons packed rest =>
        intro hempty
        have hpos := (packed.record 0).encode_pos
        have hlayout := congrArg List.length hempty
        simp only [upload, records, layout, List.flatMap_cons, List.length_append,
          List.length_nil] at hlayout
        omega
  · have hmembers := (h.members_perm (h.nodup_of_opened hrefuse)).length_eq
    have hlengths : ∀ archive : MemoryArchive, archive.members.length = archive.len := by
      intro archive
      rw [MemoryArchive.members, List.length_map, List.length_zipIdx]
      rfl
    rw [hlengths, hlengths] at hmembers
    rwa [← hmembers]
  · obtain ⟨decode, hkeeps⟩ := h.lists'.keeps
    refine (Archive.refuseMergedRecords_iff hkeeps).mpr ?_
    rw [records_names]
    exact h.rawNames_perm.nodup_iff.mp (h.nodup_of_opened hrefuse)

variable {scan : Scan}
  (hnodup : (order.map fun packed => packed.contents.rawName).Nodup)
  (hscanned : Archive.scan archive = .ok scan)
include hnodup hscanned

theorem scanned : ∃ scan', Archive.scan archive' = .ok scan' := by
  have hmembers := h.members_perm hnodup
  obtain ⟨hlistable, hpaths⟩ := Archive.scan_iff.mp ⟨scan, hscanned⟩
  exact Archive.scan_iff.mpr ⟨fun member hmember => hlistable member (hmembers.mem_iff.mpr hmember),
    ((hmembers.filterMap _).nodup_iff).mp hpaths⟩

/-- The entries listed of the one are those listed of the other. -/
theorem reordered {scan' : Scan} (hscanned' : Archive.scan archive' = .ok scan') :
    ∃ σ, Reordered σ archive archive' scan.entries scan'.entries := by
  have hmembers := h.members_perm hnodup
  have hceiling : ∀ member ∈ archive.members,
      Archive.storedAs archive.centralDirectoryStart member =
        Archive.storedAs archive'.centralDirectoryStart member := by
    intro member hmember
    obtain ⟨packed, hpacked, rfl⟩ := List.mem_map.mp ((h.lists.lists hnodup).mem_iff.mp hmember)
    obtain ⟨packed', hpacked', heq⟩ :=
      List.mem_map.mp (h.same.mem_iff.mp (List.mem_map_of_mem hpacked))
    have hfits := h.stored packed hpacked
    have hfits' := h.stored' packed' hpacked'
    rw [heq] at hfits'
    simp only [Archive.storedAs, Contents.member, RawEntry.unplaced, Nat.min_eq_left hfits,
      Nat.min_eq_left hfits']
  have hperm : (scan.entries.map archive.stored).Perm (scan'.entries.map archive'.stored) := by
    rw [Archive.scan_stored hscanned, Archive.scan_stored hscanned',
      List.filterMap_congr hceiling]
    exact hmembers.filterMap _
  obtain ⟨hpaths, -, hnames⟩ := Archive.scanLoop_ok _ hscanned
  obtain ⟨σ, hσ⟩ := Shuffles.exists_of_perm hperm
  refine ⟨σ, hσ, hperm, ?_⟩
  rw [hnames]
  exact hpaths

/-- Each listed entry is that of an honest member. -/
theorem honest_entries {k : Nat} (hk : k < scan.entries.length) :
    Archive.Honest archive limits (scan.entries.getD k default) := by
  intro hopens
  obtain ⟨reads, hreads, hends⟩ := Archive.opens_ends hopens
  have hmem : archive.stored (scan.entries.getD k default) ∈ scan.entries.map archive.stored := by
    rw [List.getD_eq_getElem?_getD, List.getElem?_eq_getElem hk]
    exact List.mem_map_of_mem (List.getElem_mem hk)
  rw [Archive.scan_stored hscanned] at hmem
  obtain ⟨member, hmember, hstored⟩ := List.mem_filterMap.mp hmem
  obtain ⟨packed, hpacked, rfl⟩ := List.mem_map.mp ((h.lists.lists hnodup).mem_iff.mp hmember)
  obtain ⟨path, -, heq⟩ := Option.map_eq_some_iff.mp hstored
  have hsize : packed.contents.entry.size = (scan.entries.getD k default).declaredSize :=
    congrArg Stored.declaredSize heq
  have hsame : packed.contents.reads = archive.byIndex (scan.entries.getD k default).index :=
    congrArg Stored.reads heq
  rw [← hsize, h.honest packed hpacked reads (hsame.trans hreads) hends, MemoryArchive.inflated,
    hreads]

end Opened

/-- A call that completes is answered alike with its entries in another order. -/
theorem sameAnswer {π : Projection} {crates : Crates} {client : Nat → Bool}
    (h : Repacking crates.zipNew order order' ending ending' archive archive')
    (hcounted : CountedAlike limits (upload order ending) (upload order' ending'))
    (hcomplete : (run π crates limits (upload order ending) client).1 = .complete) :
    SameAnswer (run π crates limits (upload order ending) client)
      (run π crates limits (upload order' ending') client) := by
  obtain ⟨found, book, spine, status, hdelivered⟩ := run_delivered hcomplete
  have hprepared := hdelivered.prepared
  obtain ⟨-, -, hzip, -, hrefuse⟩ := Archive.openArchive_iff.mp hprepared.opened
  obtain rfl := Except.ok.inj (hzip.symm.trans h.lists.opens)
  have hnodup := h.nodup_of_opened hrefuse
  obtain ⟨scan, hscan, hentries⟩ := hprepared.scanned
  have hne : order ≠ [] := by
    rintro rfl
    obtain ⟨container, -, hcontainer, -⟩ := hprepared.rootfile
    have hlt := Parse.position_lt hcontainer
    have hmembers := (h.lists.lists hnodup).eq_nil
    have hstored := Archive.scan_stored hscan
    rw [hmembers, List.filterMap_nil, List.map_eq_nil_iff, hentries] at hstored
    rw [hstored] at hlt
    exact absurd hlt (Nat.not_lt_zero _)
  obtain ⟨-, hopened⟩ := h.openArchive hcounted hne hprepared.opened
  obtain ⟨scan', hscan'⟩ := h.scanned hnodup hscan
  obtain ⟨σ, hσ⟩ := h.reordered hnodup hscan hscan'
  rw [hentries] at hσ
  refine sameAnswer_moved hσ hprepared hopened hscan' ?_
  intro k hk
  rw [← hentries] at hk ⊢
  exact h.honest_entries hnodup hscan hk

end Repacking

/-- Packing order is irrelevant except to interleaving, where it does not move the
count of record signatures over the ceiling. -/
theorem packing_order_irrelevant (π : Projection) (crates : Crates) (limits : Effective)
    (client : Nat → Bool) (order order' : List Packed) (ending ending' : Bytes)
    (archive archive' : MemoryArchive)
    (h : Repacking crates.zipNew order order' ending ending' archive archive')
    (hcounted : CountedAlike limits (upload order ending) (upload order' ending')) :
    SameAnswer (run π crates limits (upload order ending) client)
      (run π crates limits (upload order' ending') client) := by
  by_cases hcomplete : (run π crates limits (upload order ending) client).1 = .complete
  · exact h.sameAnswer hcounted hcomplete
  · have hcomplete' : (run π crates limits (upload order' ending') client).1 ≠ .complete := by
      intro hcompletes
      exact hcomplete ((h.symm.sameAnswer hcounted.symm hcompletes).complete.mp hcompletes)
    exact ⟨iff_of_false hcomplete hcomplete', fun h => absurd h hcomplete⟩

/-! ## A book packed twice

Two uploads written out byte by byte, for which every assumption on the crate is shown. -/

namespace Sample

/-- A little-endian `u32`. -/
def le32 (n : Nat) : Bytes := le16 (n % 65536) ++ le16 (n / 65536)

/-- A local header of nothing but the lengths it needs, and the content behind it. -/
def File.block (f : File) : Bytes :=
  [0x50, 0x4B, 0x03, 0x04] ++ List.replicate 22 0 ++ le16 f.name.length ++ le16 0 ++ f.name ++
    f.content

/-- External attributes.  Marked ones end in the first three bytes of a signature. -/
def attributes (marked : Bool) : Bytes :=
  if marked then [0x00, 0x50, 0x4B, 0x01] else [0x00, 0x00, 0x00, 0x00]

theorem recordTail_length (marked : Bool) (offset : Nat) :
    (List.replicate 4 0 ++ attributes marked ++ le32 offset).length = 12 := by
  cases marked <;> rfl

theorem recordHead_length : (List.replicate 24 0 : Bytes).length = 24 := rfl

theorem noField_fits : ([] : Bytes).length < 65536 := by decide

/-- A record that ends its fixed fields with the attributes and the offset. -/
def File.recordAt (f : File) (marked : Bool) (offset : Nat) : CentralRecord where
  head := List.replicate 24 0
  tail := List.replicate 4 0 ++ attributes marked ++ le32 offset
  name := f.name
  extra := []
  comment := []
  head_length := recordHead_length
  tail_length := recordTail_length marked offset
  name_fits := f.short
  extra_fits := noField_fits
  comment_fits := noField_fits

def File.pack (f : File) (marked : Bool) : Packed where
  contents :=
    { rawName := f.name, entry := rawEntry f 0, reads := .ok [.ok ⟨f.content, f.small⟩] }
  block := f.block
  record := f.recordAt marked
  named := fun _ => rfl

def packs (files : List (File × Bool)) : List Packed := files.map fun file => file.1.pack file.2

/-- A record at its place in the directory. -/
def placed (packed : Packed) (start : Nat) : Except ZipError RawEntry :=
  .ok { packed.contents.entry with centralHeaderStart := start }

/-- What the crate makes of entries with distinct names. -/
def packedArchive (order : List Packed) : MemoryArchive where
  centralDirectoryStart := (payload order).length
  byIndexRaw := List.zipWith placed order (starts (payload order).length (records 0 order))
  byIndex := fun i =>
    match order[i]? with
    | some packed => packed.contents.reads
    | none => .error .fileNotFound

theorem length_records : ∀ (offset : Nat) (order : List Packed),
    (records offset order).length = order.length
  | _, [] => rfl
  | _, _ :: rest => congrArg Nat.succ (length_records _ rest)

theorem reports_placed : ∀ {order : List Packed} (offset start : Nat),
    (∀ packed ∈ order,
      packed.contents.entry.name = .ok (Utf8.decodeLossy packed.contents.rawName)) →
    List.Forall₂ (Reports fun r => .ok (Utf8.decodeLossy r.name))
      (List.zipWith placed order (starts start (records offset order)))
      ((starts start (records offset order)).zip (records offset order))
  | [], _, _, _ => .nil
  | packed :: rest, offset, start, h => by
      obtain ⟨hname, hrest⟩ := List.forall_mem_cons.mp h
      refine .cons ⟨_, rfl, rfl, ?_⟩ (reports_placed _ _ hrest)
      exact hname.trans (congrArg (fun raw => Except.ok (Utf8.decodeLossy raw))
        (packed.named offset).symm)

theorem members_packedArchive (order : List Packed) :
    (packedArchive order).members = order.map fun packed => packed.contents.member := by
  have hstarts : (starts (payload order).length (records 0 order)).length = order.length := by
    rw [length_starts, length_records]
  refine List.ext_getElem ?_ fun i hi hi' => ?_
  · simp [MemoryArchive.members, packedArchive, hstarts]
  · have hlt : i < order.length := by simpa using hi'
    simp [MemoryArchive.members, packedArchive, placed, Contents.member, Except.map,
      RawEntry.unplaced, List.getElem?_eq_getElem hlt]

theorem packedArchive_lists {zipNew : Bytes → Except ZipError MemoryArchive}
    {files : List (File × Bool)} {ending : Bytes}
    (hnodup : (files.map fun file => file.1.name).Nodup)
    (hopens : zipNew (GrpcEpub.upload (packs files) ending) = .ok (packedArchive (packs files))) :
    CrateLists zipNew (packs files) ending (packedArchive (packs files)) where
  opens := hopens
  keeps := by
    refine ⟨fun r => .ok (Utf8.decodeLossy r.name), rfl, _, .refl _, ?_⟩
    rw [survivors_of_nodup (by rw [records_names, packs, List.map_map]; exact hnodup)]
    refine reports_placed _ _ ?_
    intro packed hpacked
    obtain ⟨file, -, rfl⟩ := List.mem_map.mp hpacked
    rfl
  lists := fun _ => .of_eq (members_packedArchive _)

theorem File.pack_honest (f : File) (marked : Bool) : (f.pack marked).contents.Honest := by
  intro reads hreads _
  obtain rfl := Except.ok.inj hreads
  unfold Archive.gather
  split
  · rename_i hempty
    exact congrArg List.length hempty
  · exact congrArg List.length (List.append_nil f.content).symm

theorem length_block_le {order : List Packed} {packed : Packed} (h : packed ∈ order) :
    packed.block.length ≤ (payload order).length := by
  obtain ⟨before, after, rfl⟩ := List.append_of_mem h
  simp only [payload, List.flatMap_append, List.flatMap_cons, List.length_append]
  omega

/-- Packed files are honest and stored in front of the directory. -/
theorem packs_repacking {zipNew : Bytes → Except ZipError MemoryArchive}
    {files files' : List (File × Bool)} {order order' : List Packed} {ending ending' : Bytes}
    (horder : order = packs files) (horder' : order' = packs files') (hperm : files.Perm files')
    (hnodup : (files.map fun file => file.1.name).Nodup)
    (hopens : zipNew (GrpcEpub.upload order ending) = .ok (packedArchive order))
    (hopens' : zipNew (GrpcEpub.upload order' ending') = .ok (packedArchive order')) :
    Repacking zipNew order order' ending ending' (packedArchive order) (packedArchive order') := by
  subst horder horder'
  have hstored : ∀ files : List (File × Bool), ∀ packed ∈ packs files,
      packed.contents.entry.compressedSize ≤
        (packedArchive (packs files)).centralDirectoryStart := by
    intro files packed hpacked
    refine le_trans ?_ (length_block_le hpacked)
    obtain ⟨file, -, rfl⟩ := List.mem_map.mp hpacked
    simp only [File.pack, rawEntry, File.block, List.length_append]
    omega
  refine ⟨(hperm.map _).map _, packedArchive_lists hnodup hopens,
    packedArchive_lists ((hperm.map _).nodup_iff.mp hnodup) hopens', ?_, hstored _, hstored _⟩
  intro packed hpacked
  obtain ⟨file, -, rfl⟩ := List.mem_map.mp hpacked
  exact file.1.pack_honest file.2

/-- A book of one chapter, whose package document has marked attributes. -/
def stackedFiles : List (File × Bool) :=
  [(file "mimetype" (ascii "application/epub+zip"), false),
    (file "META-INF/container.xml" [1], false), (file "p.opf" [2], true),
    (file "a.xhtml" (List.replicate 110 10), false)]

/-- The same, with the package document at offset 258: its lowest byte is the last
one of a signature. -/
def restackedFiles : List (File × Bool) :=
  [(file "mimetype" (ascii "application/epub+zip"), false),
    (file "META-INF/container.xml" [1], false),
    (file "a.xhtml" (List.replicate 110 10), false), (file "p.opf" [2], true)]

def stacked : List Packed := packs stackedFiles

def restacked : List Packed := packs restackedFiles

/-- An end record without its fields. -/
def ending : Bytes := [0x50, 0x4B, 0x05, 0x06] ++ List.replicate 18 0

/-- A crate that opens the one upload as the first archive and any other as the second. -/
def either (bytes : Bytes) (archive archive' : MemoryArchive) :
    Bytes → Except ZipError MemoryArchive :=
  fun found => if found = bytes then .ok archive else .ok archive'

theorem either_self (bytes : Bytes) (archive archive' : MemoryArchive) :
    either bytes archive archive' bytes = .ok archive := if_pos rfl

theorem either_other {bytes bytes' : Bytes} (h : bytes' ≠ bytes)
    (archive archive' : MemoryArchive) : either bytes archive archive' bytes' = .ok archive' :=
  if_neg h

def stackedCrates : Crates where
  zipNew := either (GrpcEpub.upload stacked ending) (packedArchive stacked)
    (packedArchive restacked)
  strict := reader [([1], container "p.opf"), ([2], opf [chapterItem "a" "a.xhtml"] ["a".toList])]
  lenient := reader []
  parseFloat := fun _ => none

/-- As many entries as the book has. -/
def fourEntries : Effective := { defaults with maxEntries := 4 }

theorem stacked_repacking : Repacking stackedCrates.zipNew stacked restacked ending ending
    (packedArchive stacked) (packedArchive restacked) := by
  have hne : GrpcEpub.upload restacked ending ≠ GrpcEpub.upload stacked ending := by
    decide +kernel
  have hperm : stackedFiles.Perm restackedFiles := .cons _ (.cons _ (.swap _ _ _))
  have hzip : stackedCrates.zipNew = either (GrpcEpub.upload stacked ending)
    (packedArchive stacked) (packedArchive restacked) := rfl
  rw [hzip]
  exact packs_repacking rfl rfl hperm (by decide +kernel) (either_self _ _ _)
    (either_other hne _ _)

end Sample

open Sample in
theorem packing_order_irrelevant_stacked :
    (run counting stackedCrates defaults (GrpcEpub.upload stacked ending) patient).1 = .complete ∧
    SameAnswer (run counting stackedCrates defaults (GrpcEpub.upload stacked ending) patient)
      (run counting stackedCrates defaults (GrpcEpub.upload restacked ending) patient) := by
  have hcounted : CountedAlike defaults (GrpcEpub.upload stacked ending)
      (GrpcEpub.upload restacked ending) :=
    iff_of_true (by decide +kernel) (by decide +kernel)
  exact ⟨by decide +kernel, packing_order_irrelevant counting stackedCrates defaults patient
    stacked restacked ending ending (packedArchive stacked) (packedArchive restacked)
    stacked_repacking hcounted⟩

open Sample in
/-- In another order the record of the package document shows a second signature, and
the upload one more than it may hold entries. -/
theorem reordering_refused :
    Repacking stackedCrates.zipNew stacked restacked ending ending (packedArchive stacked)
      (packedArchive restacked) ∧
    (run counting stackedCrates fourEntries (GrpcEpub.upload stacked ending) patient).1 =
      .complete ∧
    (run counting stackedCrates fourEntries (GrpcEpub.upload restacked ending) patient).1 =
      .failed (.tooManyRecords 5 4) :=
  ⟨stacked_repacking, by decide +kernel, by decide +kernel⟩

end GrpcEpub
