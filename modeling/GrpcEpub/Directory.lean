/-
# `GrpcEpub.Directory` — no two records share a path

The central directory as it lies in the upload: records end to end, each of
the length its own fields give.  The `zip` crate keys entries by raw name and
keeps the last record of each, so a record it dropped can be found only by
walking the bytes; `refuseMergedRecords_iff` says that the walk finds exactly
those.  Two spellings of one path survive the crate and meet in `scan`.

The `zip` crate is a parameter.  What is asked of it is `CrateReads`: it reports, of the records
that lie in the directory, the last of each raw name.  From there on everything is code of the
service: the walk over the records, the comparison with what the crate kept, and the scan.
-/
import GrpcEpub.Lookup

namespace GrpcEpub

/-! ## Records

A record as it lies in the upload, with the lengths that its own fields give. -/

/-- One record of the central directory.  Between its fixed fields the walk
reads only the three lengths. -/
structure CentralRecord where
  head : Bytes
  tail : Bytes
  name : Bytes
  extra : Bytes
  comment : Bytes
  head_length : head.length = 24
  tail_length : tail.length = 12
  name_fits : name.length < 65536
  extra_fits : extra.length < 65536
  comment_fits : comment.length < 65536

/-- A little-endian `u16`. -/
def le16 (n : Nat) : Bytes := [UInt8.ofNat (n % 256), UInt8.ofNat (n / 256)]

namespace CentralRecord

def encode (r : CentralRecord) : Bytes :=
  Archive.centralRecordSignature ++ (r.head ++ (le16 r.name.length ++ (le16 r.extra.length ++
    (le16 r.comment.length ++ (r.tail ++ (r.name ++ (r.extra ++ r.comment)))))))

theorem length_encode (r : CentralRecord) : r.encode.length =
    Archive.centralRecordFixed + r.name.length + r.extra.length + r.comment.length := by
  simp only [encode, List.length_append, r.head_length, r.tail_length,
    Archive.centralRecordSignature, Archive.centralRecordFixed, le16, List.length_cons,
    List.length_nil]
  omega

theorem encode_pos (r : CentralRecord) : 0 < r.encode.length := by
  rw [length_encode, Archive.centralRecordFixed]
  omega

/-- A record of a name and nothing else. -/
def plain (name : Bytes) (short : name.length < 65536) : CentralRecord where
  head := List.replicate 24 0
  tail := List.replicate 12 0
  name := name
  extra := []
  comment := []
  head_length := List.length_replicate
  tail_length := List.length_replicate
  name_fits := short
  extra_fits := by decide
  comment_fits := by decide

end CentralRecord

/-- Records laid end to end. -/
def layout (records : List CentralRecord) : Bytes := records.flatMap CentralRecord.encode

/-- Where each record begins, from the offset of the first. -/
def starts : Nat → List CentralRecord → List Nat
  | _, [] => []
  | pos, r :: rest => pos :: starts (pos + r.encode.length) rest

/-- The records the crate keeps: the last of each raw name, with its offset. -/
def survivors : Nat → List CentralRecord → List (Nat × CentralRecord)
  | _, [] => []
  | pos, r :: rest =>
      if r.name ∈ rest.map CentralRecord.name then survivors (pos + r.encode.length) rest
      else (pos, r) :: survivors (pos + r.encode.length) rest

/-- What the crate says of a record it kept: the offset it began at, and the
name its raw name decodes to. -/
def Reports (decode : CentralRecord → Except ZipError Str) (raw : Except ZipError RawEntry)
    (kept : Nat × CentralRecord) : Prop :=
  ∃ entry : RawEntry, raw = .ok entry ∧ entry.centralHeaderStart = kept.1 ∧
    entry.name = decode kept.2

/-- What is assumed of the crate: it lists the surviving records, in some order. -/
structure CrateReads (decode : CentralRecord → Except ZipError Str) (start : Nat)
    (records : List CentralRecord) (archive : MemoryArchive) : Prop where
  begins : archive.centralDirectoryStart = start
  listing : ∃ listing : List (Nat × CentralRecord), listing.Perm (survivors start records) ∧
    List.Forall₂ (Reports decode) archive.byIndexRaw listing

/-! ## Offsets

Records lie end to end, so their offsets increase. -/

theorem starts_ge : ∀ {pos : Nat} {records : List CentralRecord}, ∀ s ∈ starts pos records, pos ≤ s
  | _, [], _, h => by cases h
  | pos, r :: rest, s, h => by
      rcases List.mem_cons.mp h with rfl | h
      · exact Nat.le_refl _
      · exact (Nat.le_add_right _ _).trans (starts_ge s h)

theorem length_starts : ∀ (pos : Nat) (records : List CentralRecord),
    (starts pos records).length = records.length
  | _, [] => rfl
  | _, _ :: rest => congrArg Nat.succ (length_starts _ rest)

theorem starts_pairwise : ∀ (pos : Nat) (records : List CentralRecord),
    (starts pos records).Pairwise (· < ·)
  | _, [] => .nil
  | pos, r :: rest => by
      refine List.pairwise_cons.mpr ⟨fun s hs => ?_, starts_pairwise _ rest⟩
      have := starts_ge s hs
      have := r.encode_pos
      omega

theorem survivors_start_mem : ∀ {pos : Nat} {records : List CentralRecord},
    ∀ kept ∈ survivors pos records, kept.1 ∈ starts pos records
  | _, [], _, h => by cases h
  | pos, r :: rest, kept, h => by
      unfold survivors at h
      split at h
      · exact List.mem_cons_of_mem _ (survivors_start_mem kept h)
      · rcases List.mem_cons.mp h with rfl | h
        · exact List.mem_cons_self
        · exact List.mem_cons_of_mem _ (survivors_start_mem kept h)

/-- The last record is always the last of its name. -/
theorem getLast_mem_survivors : ∀ {pos : Nat} {records : List CentralRecord} {last : Nat},
    (starts pos records).getLast? = some last → last ∈ (survivors pos records).map Prod.fst
  | _, [], _, h => by cases h
  | pos, [r], last, h => by
      obtain rfl : pos = last := by simpa [starts] using h
      simp [survivors]
  | pos, r :: r' :: rest, last, h => by
      have h' : (starts (pos + r.encode.length) (r' :: rest)).getLast? = some last := by
        simpa [starts] using h
      have := getLast_mem_survivors h'
      rw [survivors]
      split
      · exact this
      · exact List.mem_cons_of_mem _ this

/-- With distinct raw names nothing is dropped. -/
theorem survivors_of_nodup : ∀ {pos : Nat} {records : List CentralRecord},
    (records.map CentralRecord.name).Nodup →
    survivors pos records = (starts pos records).zip records
  | _, [], _ => rfl
  | pos, r :: rest, h => by
      rw [List.map_cons, List.nodup_cons] at h
      rw [survivors, if_neg h.1, survivors_of_nodup h.2]
      rfl

/-- A dropped record begins where no surviving one does. -/
theorem nodup_of_starts_subset : ∀ (pos : Nat) {records : List CentralRecord},
    (∀ s ∈ (starts pos records).dropLast, s ∈ (survivors pos records).map Prod.fst) →
    (records.map CentralRecord.name).Nodup
  | _, [], _ => .nil
  | _, [r], _ => by simp
  | pos, r :: r' :: rest, h => by
      have hlater : ∀ s ∈ (survivors (pos + r.encode.length) (r' :: rest)).map Prod.fst,
          pos < s := by
        intro s hs
        obtain ⟨kept, hkept, rfl⟩ := List.mem_map.mp hs
        have := starts_ge _ (survivors_start_mem kept hkept)
        have := r.encode_pos
        omega
      have hdrop : (starts pos (r :: r' :: rest)).dropLast =
          pos :: (starts (pos + r.encode.length) (r' :: rest)).dropLast := rfl
      rw [hdrop] at h
      have hhead := h pos List.mem_cons_self
      unfold survivors at hhead h
      split at hhead
      · exact absurd (hlater pos hhead) (lt_irrefl _)
      · rename_i hfresh
        rw [if_neg hfresh] at h
        refine List.nodup_cons.mpr ⟨hfresh,
          nodup_of_starts_subset (pos + r.encode.length) fun s hs => ?_⟩
        rcases List.mem_cons.mp (h s (List.mem_cons_of_mem _ hs)) with rfl | hs'
        · have hmem := starts_ge _ (List.dropLast_subset _ hs)
          have := r.encode_pos
          omega
        · exact hs'

namespace Archive

/-! ## The walk

At each offset the walk finds the record that is there, and goes on behind it. -/

theorem slice_append (before mid after : Bytes) :
    slice (before ++ (mid ++ after)) before.length mid.length = some mid := by
  unfold slice
  rw [if_pos (by simp), List.drop_left, List.take_left]

/-- A field of the bytes, found by what is in front of it. -/
theorem field_le16 {bytes : Bytes} {offset n : Nat} (before after : Bytes)
    (hbytes : bytes = before ++ (le16 n ++ after)) (hoffset : offset = before.length)
    (hfits : n < 65536) : field bytes offset = .ok n := by
  have hslice : slice bytes offset 2 = some (le16 n) := by
    rw [hbytes, hoffset]
    exact slice_append before (le16 n) after
  simp only [field, hslice, le16]
  have hlo : (UInt8.ofNat (n % 256)).toNat = n % 256 := by
    rw [UInt8.toNat_ofNat']
    exact Nat.mod_eq_of_lt (Nat.mod_lt _ (by decide))
  have hhi : (UInt8.ofNat (n / 256)).toNat = n / 256 := by
    rw [UInt8.toNat_ofNat']
    exact Nat.mod_eq_of_lt (by omega)
  rw [hlo, hhi, Nat.mod_add_div]

/-- The fields the walk reads of a record, and its name. -/
theorem record_fields (r : CentralRecord) (before after : Bytes) :
    field (before ++ (r.encode ++ after)) (before.length + 28) = .ok r.name.length ∧
    field (before ++ (r.encode ++ after)) (before.length + 30) = .ok r.extra.length ∧
    field (before ++ (r.encode ++ after)) (before.length + 32) = .ok r.comment.length ∧
    slice (before ++ (r.encode ++ after)) (before.length + centralRecordFixed) r.name.length =
      some r.name := by
  have hhead := r.head_length
  have htail := r.tail_length
  refine ⟨?_, ?_, ?_, ?_⟩
  · refine field_le16 (before ++ (centralRecordSignature ++ r.head))
      (le16 r.extra.length ++ (le16 r.comment.length ++ (r.tail ++ (r.name ++ (r.extra ++
        (r.comment ++ after)))))) ?_ ?_ r.name_fits
    · simp only [CentralRecord.encode, List.append_assoc]
    · simp [centralRecordSignature, hhead]
  · refine field_le16 (before ++ (centralRecordSignature ++ (r.head ++ le16 r.name.length)))
      (le16 r.comment.length ++ (r.tail ++ (r.name ++ (r.extra ++ (r.comment ++ after)))))
      ?_ ?_ r.extra_fits
    · simp only [CentralRecord.encode, List.append_assoc]
    · simp [centralRecordSignature, hhead, le16]
  · refine field_le16 (before ++ (centralRecordSignature ++ (r.head ++ (le16 r.name.length ++
        le16 r.extra.length))))
      (r.tail ++ (r.name ++ (r.extra ++ (r.comment ++ after)))) ?_ ?_ r.comment_fits
    · simp only [CentralRecord.encode, List.append_assoc]
    · simp [centralRecordSignature, hhead, le16]
  · have := slice_append (before ++ (centralRecordSignature ++ (r.head ++ (le16 r.name.length ++
      (le16 r.extra.length ++ (le16 r.comment.length ++ r.tail)))))) r.name
      (r.extra ++ (r.comment ++ after))
    simpa [CentralRecord.encode, List.append_assoc, centralRecordSignature, hhead, htail, le16,
      centralRecordFixed] using this

/-- The walk over records laid end to end: it arrives at the last of them, or
stops at the first that begins where nothing kept does. -/
theorem walkRecords_layout (kept : List Nat) (after : Bytes) :
    ∀ {records : List CentralRecord} {before : Bytes} {last fuel : Nat},
      (starts before.length records).getLast? = some last → last ≤ before.length + fuel →
      if ∀ s ∈ (starts before.length records).dropLast, s ∈ kept then
        walkRecords (before ++ (layout records ++ after)) kept last fuel before.length = .ok last
      else ∃ name,
        walkRecords (before ++ (layout records ++ after)) kept last fuel before.length =
          .error (.twoEntriesNamed name)
  | [], _, _, _, hlast, _ => by cases hlast
  -- the last record is not looked up: where it starts is where the walk stops
  | [r], before, last, fuel, hlast, _ => by
      obtain rfl : before.length = last := by simpa [starts] using hlast
      rw [if_pos (by simp [starts])]
      cases fuel with
      | zero => rfl
      | succ fuel => simp [walkRecords]
  | r :: r' :: rest, before, last, fuel, hlast, hfuel => by
      have hnext : (before ++ r.encode).length = before.length + r.encode.length := by simp
      have hlast' : (starts (before ++ r.encode).length (r' :: rest)).getLast? = some last := by
        rw [hnext]
        simpa [starts] using hlast
      have hbeyond : before.length + r.encode.length ≤ last := by
        have := starts_ge last (List.mem_of_getLast? hlast')
        rwa [hnext] at this
      have hpos := r.encode_pos
      obtain ⟨fuel, rfl⟩ : ∃ n, fuel = n + 1 := ⟨fuel - 1, by omega⟩
      have hbytes : before ++ (layout (r :: r' :: rest) ++ after) =
          before ++ (r.encode ++ (layout (r' :: rest) ++ after)) := by
        simp [layout, List.append_assoc]
      have hbytes' : before ++ (layout (r :: r' :: rest) ++ after) =
          (before ++ r.encode) ++ (layout (r' :: rest) ++ after) := by
        simp [layout, List.append_assoc]
      -- the record at `before` tells how long it is
      obtain ⟨hname, hextra, hcomment, hslice⟩ :=
        record_fields r before (layout (r' :: rest) ++ after)
      have hdrop : (starts before.length (r :: r' :: rest)).dropLast =
          before.length :: (starts (before ++ r.encode).length (r' :: rest)).dropLast := by
        rw [hnext]
        rfl
      have hstep : walkRecords (before ++ (layout (r :: r' :: rest) ++ after)) kept last (fuel + 1)
            before.length =
          if before.length ∈ kept then
            walkRecords ((before ++ r.encode) ++ (layout (r' :: rest) ++ after)) kept last fuel
              (before ++ r.encode).length
          else .error (.twoEntriesNamed (Utf8.decodeLossy r.name)) := by
        rw [← hbytes', hnext, r.length_encode, hbytes, walkRecords, if_pos (by omega), hname, hextra,
          hcomment]
        simp only [bind, Except.bind, hslice]
      rw [hstep, hdrop]
      have hfuel' : last ≤ (before ++ r.encode).length + fuel := by omega
      have ih := walkRecords_layout kept after hlast' hfuel'
      -- a record that the crate has dropped ends the walk
      by_cases hkept : before.length ∈ kept
      · simpa [hkept] using ih
      · rw [if_neg (fun h => hkept (h _ List.mem_cons_self)), if_neg hkept]
        exact ⟨_, rfl⟩

/-! ## The crate's listing

Each record that was kept is listed with its offset; the last record of all is always kept. -/

theorem keptStarts_ok {decode : CentralRecord → Except ZipError Str} :
    ∀ {raws : List (Except ZipError RawEntry)} {listing : List (Nat × CentralRecord)},
      List.Forall₂ (Reports decode) raws listing → keptStarts raws = .ok (listing.map Prod.fst)
  | _, _, .nil => rfl
  | _, _, .cons ⟨entry, hraw, hstart, _⟩ rest => by
      subst hraw
      simp [keptStarts, keptStarts_ok rest, hstart, bind, Except.bind, pure, Except.pure]

/-- The last record survives, so the largest offset that is kept is its own. -/
theorem max?_kept {start : Nat} {records : List CentralRecord} {kept : List Nat}
    (hkept : kept.Perm ((survivors start records).map Prod.fst)) :
    kept.max? = (starts start records).getLast? := by
  cases hlast : (starts start records).getLast? with
  | none =>
      have hnone : records = [] := by
        cases records with
        | nil => rfl
        | cons r rest => simp [starts] at hlast
      subst hnone
      rw [List.perm_nil.mp hkept]
      rfl
  | some last =>
      refine List.max?_eq_some_iff.mpr ⟨hkept.mem_iff.mpr (getLast_mem_survivors hlast), ?_⟩
      intro s hs
      obtain ⟨k, hk, rfl⟩ := List.mem_map.mp (hkept.mem_iff.mp hs)
      have hmem := survivors_start_mem k hk
      -- starts increase, so the last of them is the largest
      obtain ⟨front, hfront⟩ := List.getLast?_eq_some_iff.mp hlast
      have hsorted := starts_pairwise start records
      rw [hfront] at hmem hsorted
      rcases List.mem_append.mp hmem with hmem | hmem
      · exact ((List.pairwise_append.mp hsorted).2.2 _ hmem last (by simp)).le
      · rw [List.mem_singleton.mp hmem]

/-- The walk accepts exactly the directories that name every raw path once. -/
theorem refuseMergedRecords_iff {decode : CentralRecord → Except ZipError Str}
    {before after : Bytes} {records : List CentralRecord} {archive : MemoryArchive}
    (hreads : CrateReads decode before.length records archive) :
    refuseMergedRecords (before ++ (layout records ++ after)) archive = .ok () ↔
      (records.map CentralRecord.name).Nodup := by
  obtain ⟨listing, hperm, hlisting⟩ := hreads.listing
  have hkept := hperm.map Prod.fst
  simp only [refuseMergedRecords, keptStarts_ok hlisting, bind, Except.bind, max?_kept hkept,
    hreads.begins]
  cases hlast : (starts before.length records).getLast? with
  | none =>
      cases records with
      | nil => simp [pure, Except.pure]
      | cons r rest => simp [starts] at hlast
  | some last =>
      have hfuel : last ≤ before.length + (last - before.length) := by omega
      have hwalk := walkRecords_layout (listing.map Prod.fst) after hlast hfuel
      have hnodup : (∀ s ∈ (starts before.length records).dropLast, s ∈ listing.map Prod.fst) ↔
          (records.map CentralRecord.name).Nodup := by
        simp only [hkept.mem_iff]
        refine ⟨nodup_of_starts_subset _, fun h s hs => ?_⟩
        rw [survivors_of_nodup h, List.map_fst_zip]
        · exact List.dropLast_subset _ hs
        · exact (length_starts _ _).le
      rw [← hnodup]
      split at hwalk
      · rename_i hall
        exact iff_of_true (by simp [hwalk, pure, Except.pure]) hall
      · rename_i hsome
        obtain ⟨name, hname⟩ := hwalk
        exact iff_of_false (by simp [hname]) hsome

/-! ## The scan

A name that is refused, or the same path a second time, fails the scan. -/

/-- The archive path a name stands for, when it is usable and not a directory's. -/
def usablePath (name : Except ZipError Str) : Option Str :=
  match name with
  | .ok name =>
      match Href.checkEntryName name with
      | .ok path => path
      | .error _ => none
  | .error _ => none

/-- The path of one listed record. -/
def listedPath (raw : Except ZipError RawEntry) : Option Str :=
  match raw with
  | .ok entry => usablePath entry.name
  | .error _ => none

theorem checkMethod_ne_bothName {name first second path : Str} {entry : RawEntry} :
    checkMethod name entry ≠ .error (.bothName first second path) := by
  unfold checkMethod
  split
  · simp
  · split <;> simp

/-- What one turn of the scan does: it refuses the record for its own sake, skips
it, refuses it for the path it shares, or lists it. -/
theorem scanLoop_cases (ceiling index : Nat) (claimed : HashMap Str Str) (scan : Scan)
    (raw : Except ZipError RawEntry) (rest : List (Except ZipError RawEntry)) :
    (∃ e, scanLoop ceiling index claimed scan (raw :: rest) = .error e ∧
      ∀ first second path, e ≠ .bothName first second path) ∨
    (listedPath raw = none ∧ ∃ scan', scan'.entries = scan.entries ∧
      scanLoop ceiling index claimed scan (raw :: rest) =
        scanLoop ceiling (index + 1) claimed scan' rest) ∨
    (∃ path first name, listedPath raw = some path ∧ claimed.get path = some first ∧
      scanLoop ceiling index claimed scan (raw :: rest) = .error (.bothName first name path)) ∨
    ∃ path name entry, listedPath raw = some path ∧ claimed.get path = none ∧
      entry.name = path ∧ scanLoop ceiling index claimed scan (raw :: rest) =
        scanLoop ceiling (index + 1) (claimed.insert path name)
          { scan with entries := scan.entries ++ [entry] } rest := by
  cases raw with
  | error e => exact .inl ⟨_, rfl, by simp⟩
  | ok entry =>
      cases hname : entry.name with
      | error e => exact .inl ⟨.zip e, by simp [scanLoop, hname], by simp⟩
      | ok name =>
          cases hmethod : checkMethod name entry with
          | error e =>
              refine .inl ⟨e, by simp [scanLoop, hname, hmethod], fun first second path he => ?_⟩
              exact checkMethod_ne_bothName (hmethod.trans (congrArg Except.error he))
          | ok _ =>
              cases hpath : Href.checkEntryName name with
              | error e =>
                  refine .inr (.inl ⟨by simp [listedPath, usablePath, hname, hpath],
                    { scan with unusable := scan.unusable ++ [(name, e)] }, rfl, ?_⟩)
                  simp [scanLoop, hname, hmethod, hpath]
              | ok found =>
                  have hlisted : listedPath (.ok entry) = found := by
                    simp [listedPath, usablePath, hname, hpath]
                  cases found with
                  | none =>
                      exact .inr (.inl ⟨hlisted, scan, rfl, by simp [scanLoop, hname, hmethod, hpath]⟩)
                  | some path =>
                      cases hclaimed : claimed.get path with
                      | some first =>
                          exact .inr (.inr (.inl ⟨path, first, name, hlisted, hclaimed,
                            by simp [scanLoop, hname, hmethod, hpath, hclaimed]⟩))
                      | none =>
                          exact .inr (.inr (.inr ⟨path, name, entryInfo ceiling index path entry,
                            hlisted, hclaimed, rfl,
                            by simp [scanLoop, hname, hmethod, hpath, hclaimed]⟩))

/-- A scan that succeeds has seen every usable path once, and lists them all. -/
theorem scanLoop_ok {ceiling : Nat} {done : Scan} (raws : List (Except ZipError RawEntry)) :
    ∀ {index : Nat} {claimed : HashMap Str Str} {scan : Scan},
      scanLoop ceiling index claimed scan raws = .ok done →
      (raws.filterMap listedPath).Nodup ∧
      (∀ path ∈ raws.filterMap listedPath, claimed.get path = none) ∧
      done.entries.map EntryInfo.name =
        scan.entries.map EntryInfo.name ++ raws.filterMap listedPath := by
  induction raws with
  | nil =>
      intro index claimed scan h
      cases h
      simp
  | cons raw rest ih =>
      intro index claimed scan h
      rcases scanLoop_cases ceiling index claimed scan raw rest with
        ⟨e, herror, -⟩ | ⟨hnone, scan', hentries, hstep⟩ | ⟨_, _, _, -, -, herror⟩ |
        ⟨path, name, entry, hsome, hfree, hname, hstep⟩
      · rw [herror] at h
        cases h
      · rw [hstep] at h
        rw [List.filterMap_cons_none hnone, ← hentries]
        exact ih h
      · rw [herror] at h
        cases h
      · rw [hstep] at h
        obtain ⟨hnodup, hrest, hdone⟩ := ih h
        simp only [HashMap.get_insert] at hrest
        rw [List.filterMap_cons_some hsome]
        refine ⟨List.nodup_cons.mpr ⟨fun hmem => ?_, hnodup⟩, fun other hother => ?_, ?_⟩
        · simpa using hrest path hmem
        · rcases List.mem_cons.mp hother with rfl | hother
          · exact hfree
          · have := hrest other hother
            split at this
            · cases this
            · exact this
        · simpa [hname] using hdone

/-- A scan that refuses two spellings of one path has met that path twice. -/
theorem scanLoop_bothName {ceiling : Nat} {first second path : Str}
    (raws : List (Except ZipError RawEntry)) :
    ∀ {index : Nat} {claimed : HashMap Str Str} {scan : Scan},
      (raws.filterMap listedPath).Nodup →
      (∀ path ∈ raws.filterMap listedPath, claimed.get path = none) →
      scanLoop ceiling index claimed scan raws ≠ .error (.bothName first second path) := by
  induction raws with
  | nil => simp [scanLoop]
  | cons raw rest ih =>
      intro index claimed scan hnodup hfree
      rcases scanLoop_cases ceiling index claimed scan raw rest with
        ⟨e, herror, hother⟩ | ⟨hnone, scan', -, hstep⟩ | ⟨taken, _, _, hsome, hclaimed, -⟩ |
        ⟨taken, name, entry, hsome, -, -, hstep⟩
      · rw [herror]
        exact fun h => hother first second path (Except.error.inj h)
      · rw [hstep]
        rw [List.filterMap_cons_none hnone] at hnodup hfree
        exact ih hnodup hfree
      · rw [List.filterMap_cons_some hsome] at hfree
        rw [hfree taken List.mem_cons_self] at hclaimed
        cases hclaimed
      · rw [hstep]
        rw [List.filterMap_cons_some hsome] at hnodup hfree
        rw [List.nodup_cons] at hnodup
        refine ih hnodup.2 ?_
        intro other hother
        rw [HashMap.get_insert, if_neg]
        · exact hfree other (List.mem_cons_of_mem _ hother)
        · rintro rfl
          exact hnodup.1 hother

/-! ## Every record of the upload

What is accepted has no record that the crate dropped, and no path twice. -/

theorem listedPath_of_reports {decode : CentralRecord → Except ZipError Str}
    {raws : List (Except ZipError RawEntry)} {listing : List (Nat × CentralRecord)}
    (h : List.Forall₂ (Reports decode) raws listing) :
    raws.filterMap listedPath = listing.filterMap fun kept => usablePath (decode kept.2) := by
  induction h with
  | nil => rfl
  | cons hhead _ ih =>
      obtain ⟨entry, rfl, -, hname⟩ := hhead
      simp [List.filterMap_cons, listedPath, hname, ih]

/-- With distinct raw names the crate lists the path of every record. -/
theorem listed_perm {decode : CentralRecord → Except ZipError Str} {start : Nat}
    {records : List CentralRecord} {archive : MemoryArchive}
    (hreads : CrateReads decode start records archive)
    (hnodup : (records.map CentralRecord.name).Nodup) :
    (archive.byIndexRaw.filterMap listedPath).Perm
      (records.filterMap fun r => usablePath (decode r)) := by
  obtain ⟨listing, hperm, hlisting⟩ := hreads.listing
  rw [listedPath_of_reports hlisting]
  refine (hperm.filterMap _).trans ?_
  rw [survivors_of_nodup hnodup]
  have hzip : ((starts start records).zip records).filterMap (fun kept => usablePath (decode kept.2)) =
      (((starts start records).zip records).map Prod.snd).filterMap
        (fun r => usablePath (decode r)) := by
    rw [List.filterMap_map]
    rfl
  rw [hzip, List.map_snd_zip (length_starts start records).ge]

/-- What `open` asks of an upload. -/
theorem openArchive_iff {zipNew : Bytes → Except ZipError MemoryArchive} {bytes : Bytes}
    {limits : Effective} {archive : MemoryArchive} :
    openArchive zipNew bytes limits = .ok archive ↔
      bytes ≠ [] ∧ signatureCount bytes ≤ limits.maxEntries ∧ zipNew bytes = .ok archive ∧
        min archive.len u32Max ≤ limits.maxEntries ∧ refuseMergedRecords bytes archive = .ok () := by
  unfold openArchive
  by_cases hempty : bytes = []
  · simp [hempty]
  · rw [if_neg hempty]
    dsimp only
    by_cases hrecords : limits.maxEntries < signatureCount bytes
    · rw [if_pos hrecords]
      exact iff_of_false nofun fun h => absurd h.2.1 (Nat.not_le.mpr hrecords)
    · rw [if_neg hrecords]
      cases hzip : zipNew bytes with
      | error e => exact iff_of_false nofun fun h => nomatch h.2.2.1
      | ok found =>
          dsimp only
          by_cases hlen : limits.maxEntries < min found.len u32Max
          · rw [if_pos hlen]
            refine iff_of_false nofun fun h => ?_
            obtain rfl := Except.ok.inj h.2.2.1
            exact absurd h.2.2.2.1 (Nat.not_le.mpr hlen)
          · rw [if_neg hlen]
            cases hrefuse : refuseMergedRecords bytes found with
            | error e =>
                refine iff_of_false nofun fun h => ?_
                obtain rfl := Except.ok.inj h.2.2.1
                rw [hrefuse] at h
                cases h.2.2.2.2
            | ok _ =>
                show (Except.ok found : Except Status MemoryArchive) = .ok archive ↔ _
                constructor
                · intro h
                  obtain rfl := Except.ok.inj h
                  exact ⟨hempty, Nat.not_lt.mp hrecords, rfl, Nat.not_lt.mp hlen, hrefuse⟩
                · intro h
                  rw [Except.ok.inj h.2.2.1]

/-- `open` succeeds only where the walk does. -/
theorem openArchive_ok {zipNew : Bytes → Except ZipError MemoryArchive} {bytes : Bytes}
    {limits : Effective} {archive : MemoryArchive}
    (h : openArchive zipNew bytes limits = .ok archive) :
    zipNew bytes = .ok archive ∧ refuseMergedRecords bytes archive = .ok () := by
  obtain ⟨-, -, hzip, -, hrefuse⟩ := openArchive_iff.mp h
  exact ⟨hzip, hrefuse⟩

end Archive

/-- No two records of the directory share a path, and no directory is refused
for sharing one that does not. -/
structure OnePathEach (decode : CentralRecord → Except ZipError Str) (bytes : Bytes)
    (records : List CentralRecord) (archive : MemoryArchive) : Prop where
  merged : Archive.refuseMergedRecords bytes archive = .ok () ↔
    (records.map CentralRecord.name).Nodup
  distinct : ∀ zipNew limits scan, Archive.openArchive zipNew bytes limits = .ok archive →
    Archive.scan archive = .ok scan →
    (records.filterMap fun r => Archive.usablePath (decode r)).Nodup ∧
    (∀ path ∈ records.filterMap fun r => Archive.usablePath (decode r),
      ∃ position entry, (Extract.indexOf scan.entries).get path = some position ∧
        scan.entries[position]? = some entry ∧ entry.name = path) ∧
    ∀ position entry, scan.entries[position]? = some entry →
      (Extract.indexOf scan.entries).get entry.name = some position
  tolerant : (records.map CentralRecord.name).Nodup →
    (records.filterMap fun r => Archive.usablePath (decode r)).Nodup →
    Archive.refuseMergedRecords bytes archive = .ok () ∧
    ∀ first second path, Archive.scan archive ≠ .error (.bothName first second path)

/-- An upload that is accepted names each path in one record of its directory. -/
theorem directory_names_each_path_once (decode : CentralRecord → Except ZipError Str)
    (before after : Bytes) (records : List CentralRecord) (archive : MemoryArchive)
    (hreads : CrateReads decode before.length records archive) :
    OnePathEach decode (before ++ (layout records ++ after)) records archive where
  merged := Archive.refuseMergedRecords_iff hreads
  distinct := fun zipNew limits scan hopen hscan => by
    have hnames := (Archive.refuseMergedRecords_iff hreads).mp (Archive.openArchive_ok hopen).2
    have hlisted := Archive.listed_perm hreads hnames
    obtain ⟨hnodup, -, hentries⟩ := Archive.scanLoop_ok _ hscan
    rw [List.map_nil, List.nil_append] at hentries
    refine ⟨hlisted.nodup_iff.mp hnodup, fun path hpath => ?_, fun position entry hentry =>
      Extract.indexOf_of_nodup (hentries ▸ hnodup) hentry⟩
    rw [← hlisted.mem_iff, ← hentries] at hpath
    obtain ⟨entry, hmem, rfl⟩ := List.mem_map.mp hpath
    obtain ⟨position, hposition⟩ := Option.isSome_iff_exists.mp (Extract.indexOf_isSome hmem)
    obtain ⟨found, hfound, hname⟩ := Extract.indexOf_get hposition
    exact ⟨position, found, hposition, hfound, hname⟩
  tolerant := fun hnames hpaths => by
    refine ⟨(Archive.refuseMergedRecords_iff hreads).mpr hnames, fun first second path => ?_⟩
    exact Archive.scanLoop_bothName _ ((Archive.listed_perm hreads hnames).nodup_iff.mpr hpaths)
      (by simp)

/-- A directory whose third record shadows its first. -/
def shadowed : List CentralRecord :=
  [.plain [97] (by decide), .plain [98] (by decide), .plain [97] (by decide)]

def shadowedEntry (name : Str) (start : Nat) : RawEntry where
  name := .ok name
  encrypted := false
  compression := .stored
  size := 0
  compressedSize := 0
  centralHeaderStart := start

/-- What the crate makes of it: the name keeps its place and takes the last offset. -/
def shadowedArchive : MemoryArchive where
  centralDirectoryStart := 1
  byIndexRaw := [.ok (shadowedEntry "a" 95), .ok (shadowedEntry "b" 48)]
  byIndex := fun _ => .ok []

theorem directory_names_each_path_once_shadowed :
    CrateReads (fun r => .ok (Utf8.decodeLossy r.name)) 1 shadowed shadowedArchive ∧
      OnePathEach (fun r => .ok (Utf8.decodeLossy r.name))
        ([0x50] ++ (layout shadowed ++ [0x50])) shadowed shadowedArchive := by
  have hreads : CrateReads (fun r => .ok (Utf8.decodeLossy r.name)) 1 shadowed shadowedArchive := by
    refine ⟨rfl, [(95, .plain [97] (by decide)), (48, .plain [98] (by decide))],
      List.Perm.swap _ _ _, ?_⟩
    exact .cons ⟨_, rfl, rfl, rfl⟩ (.cons ⟨_, rfl, rfl, rfl⟩ .nil)
  exact ⟨hreads, directory_names_each_path_once _ [0x50] [0x50] shadowed shadowedArchive hreads⟩

end GrpcEpub
