/-
# `GrpcEpub.Packing` — what an archive holds, and in which order

An archive is a list of members, each a record and what comes out of it.  What a
scan makes of it depends on the order of the members only in the order of what it
lists: whether it succeeds does not (`scanLoop_iff`), and each listed entry is read
off its own member (`scanLoop_stored`).

Where every member has the size it declares, the same goes for reading.  A list of
reads fits in a budget when each of them fits in some budget and the sum of their
sizes in this one (`spendAll_iff`).
-/
import GrpcEpub.Spending

namespace GrpcEpub

/-- A record, wherever it lies in the directory. -/
def RawEntry.unplaced (entry : RawEntry) : RawEntry := { entry with centralHeaderStart := 0 }

/-- One listed record, and what comes out of it. -/
structure Member where
  record : Except ZipError RawEntry
  reads : Except ZipError (List (Except IoError Chunk))

/-- The members of an archive, in its own order. -/
def MemoryArchive.members (archive : MemoryArchive) : List Member :=
  archive.byIndexRaw.zipIdx.map fun place =>
    ⟨place.1.map RawEntry.unplaced, archive.byIndex place.2⟩

/-- All that matters of an entry: everything but the place it is listed at. -/
structure Stored where
  name : Str
  declaredSize : Nat
  compressedSize : Nat
  reads : Except ZipError (List (Except IoError Chunk))

def MemoryArchive.stored (archive : MemoryArchive) (entry : EntryInfo) : Stored where
  name := entry.name
  declaredSize := entry.declaredSize
  compressedSize := entry.compressedSize
  reads := archive.byIndex entry.index

namespace Archive

/-! ## Scanning

A member is refused or skipped or listed by its own record.  What remains between members is that
no two may be listed under one path. -/

/-- A record that a scan does not refuse for its own sake. -/
def Listable (raw : Except ZipError RawEntry) : Prop :=
  ∃ entry name, raw = .ok entry ∧ entry.name = .ok name ∧ checkMethod name entry = .ok ()

/-- The entry a member is listed as, when its name is that of a file. -/
def storedAs (ceiling : Nat) (member : Member) : Option Stored :=
  match member.record with
  | .error _ => none
  | .ok entry => (usablePath entry.name).map fun path =>
      ⟨path, entry.size, min entry.compressedSize ceiling, member.reads⟩

/-- Whether a record can be listed does not depend on where it lies. -/
theorem listable_unplaced {raw : Except ZipError RawEntry} :
    Listable (raw.map RawEntry.unplaced) ↔ Listable raw := by
  cases raw with
  | error e =>
      constructor <;> rintro ⟨entry, name, hraw, -⟩ <;> cases hraw
  | ok entry =>
      constructor
      · rintro ⟨_, name, hraw, hname, hmethod⟩
        cases hraw
        exact ⟨entry, name, rfl, hname, hmethod⟩
      · rintro ⟨_, name, hraw, hname, hmethod⟩
        cases hraw
        exact ⟨entry.unplaced, name, rfl, hname, hmethod⟩

theorem listedPath_unplaced (raw : Except ZipError RawEntry) :
    listedPath (raw.map RawEntry.unplaced) = listedPath raw := by
  cases raw <;> rfl

section Loop

variable (ceiling index : Nat) (claimed : HashMap Str Str) (scan : Scan)

/-- One turn of the scan. -/
theorem scanLoop_step (raw : Except ZipError RawEntry) (rest : List (Except ZipError RawEntry)) :
    (¬ Listable raw ∧ ∃ e, scanLoop ceiling index claimed scan (raw :: rest) = .error e) ∨
    Listable raw ∧
      ((listedPath raw = none ∧ ∃ unusable, scanLoop ceiling index claimed scan (raw :: rest) =
          scanLoop ceiling (index + 1) claimed { scan with unusable } rest) ∨
        (∃ path first e, listedPath raw = some path ∧ claimed.get path = some first ∧
          scanLoop ceiling index claimed scan (raw :: rest) = .error e) ∨
        ∃ entry path name, raw = .ok entry ∧ usablePath entry.name = some path ∧
          claimed.get path = none ∧ scanLoop ceiling index claimed scan (raw :: rest) =
            scanLoop ceiling (index + 1) (claimed.insert path name)
              { scan with entries := scan.entries ++ [entryInfo ceiling index path entry] }
              rest) := by
  cases raw with
  | error e =>
      refine .inl ⟨?_, .zip e, rfl⟩
      rintro ⟨_, _, hraw, -⟩
      cases hraw
  | ok entry =>
      cases hname : entry.name with
      | error e =>
          refine .inl ⟨?_, .zip e, by simp [scanLoop, hname]⟩
          rintro ⟨_, name, hraw, hname', -⟩
          cases hraw
          rw [hname] at hname'
          cases hname'
      | ok name =>
          cases hmethod : checkMethod name entry with
          | error e =>
              refine .inl ⟨?_, e, by simp [scanLoop, hname, hmethod]⟩
              rintro ⟨_, _, hraw, hname', hmethod'⟩
              cases hraw
              rw [hname] at hname'
              cases hname'
              rw [hmethod] at hmethod'
              cases hmethod'
          | ok _ =>
              refine .inr ⟨⟨entry, name, rfl, hname, hmethod⟩, ?_⟩
              -- a record that is listable can still have a name that is none
              cases hpath : Href.checkEntryName name with
              | error e =>
                  have husable : usablePath entry.name = none := by
                    rw [hname, usablePath, hpath]
                  exact .inl ⟨husable, scan.unusable ++ [(name, e)],
                    by simp [scanLoop, hname, hmethod, hpath]⟩
              | ok found =>
                  have husable : usablePath entry.name = found := by
                    rw [hname, usablePath, hpath]
                  cases found with
                  | none =>
                      exact .inl ⟨husable, scan.unusable, by simp [scanLoop, hname, hmethod, hpath]⟩
                  | some path =>
                      cases hclaimed : claimed.get path with
                      | some first =>
                          exact .inr (.inl ⟨path, first, .bothName first name path, husable,
                            hclaimed, by simp [scanLoop, hname, hmethod, hpath, hclaimed]⟩)
                      | none =>
                          exact .inr (.inr ⟨entry, path, name, rfl, husable, hclaimed,
                            by simp [scanLoop, hname, hmethod, hpath, hclaimed]⟩)

variable {ceiling index claimed scan}

/-- A scan succeeds when every record is one it can list and no path comes twice. -/
theorem scanLoop_iff {raws : List (Except ZipError RawEntry)} :
    (∃ done, scanLoop ceiling index claimed scan raws = .ok done) ↔
      (∀ raw ∈ raws, Listable raw) ∧ (raws.filterMap listedPath).Nodup ∧
        ∀ path ∈ raws.filterMap listedPath, claimed.get path = none := by
  induction raws generalizing index claimed scan with
  | nil => simp [scanLoop]
  | cons raw rest ih =>
      rw [List.forall_mem_cons]
      rcases scanLoop_step ceiling index claimed scan raw rest with
        ⟨hraw, e, herror⟩ | ⟨hraw, ⟨hnone, unusable, hstep⟩ | ⟨path, first, e, hpath, hclaimed,
          herror⟩ | ⟨entry, path, name, rfl, hpath, hclaimed, hstep⟩⟩
      · rw [herror]
        refine iff_of_false ?_ fun h => hraw h.1.1
        rintro ⟨_, hdone⟩
        cases hdone
      · rw [hstep, ih, List.filterMap_cons_none hnone, and_iff_right hraw]
      · rw [herror, List.filterMap_cons_some hpath]
        refine iff_of_false ?_ fun h => ?_
        · rintro ⟨_, hdone⟩
          cases hdone
        have hfree := h.2.2 path List.mem_cons_self
        rw [hclaimed] at hfree
        cases hfree
      · have hlisted : listedPath (.ok entry) = some path := hpath
        rw [hstep, ih, List.filterMap_cons_some hlisted, and_iff_right hraw, List.nodup_cons]
        refine and_congr_right ?_
        intro _
        simp only [HashMap.get_insert]
        constructor
        · rintro ⟨hnodup, hfree⟩
          have hfresh : path ∉ rest.filterMap listedPath := fun hmem => by
            have hget := hfree path hmem
            rw [if_pos rfl] at hget
            cases hget
          refine ⟨⟨hfresh, hnodup⟩, List.forall_mem_cons.mpr ⟨hclaimed, fun other hother => ?_⟩⟩
          have hget := hfree other hother
          split at hget
          · cases hget
          · exact hget
        · rintro ⟨⟨hfresh, hnodup⟩, hfree⟩
          refine ⟨hnodup, fun other hother => ?_⟩
          have hne : other ≠ path := fun heq => hfresh (heq ▸ hother)
          rw [if_neg hne]
          exact hfree other (List.mem_cons_of_mem _ hother)

/-- Each listed entry is what its member is listed as. -/
theorem scanLoop_stored {archive : MemoryArchive} {raws : List (Except ZipError RawEntry)}
    {done : Scan} (h : scanLoop ceiling index claimed scan raws = .ok done) :
    done.entries.map archive.stored = scan.entries.map archive.stored ++
      ((raws.zipIdx index).map fun place =>
        (⟨place.1.map RawEntry.unplaced, archive.byIndex place.2⟩ : Member)).filterMap
          (storedAs ceiling) := by
  induction raws generalizing index claimed scan with
  | nil =>
      cases h
      exact (List.append_nil _).symm
  | cons raw rest ih =>
      rw [List.zipIdx_cons, List.map_cons]
      rcases scanLoop_step ceiling index claimed scan raw rest with
        ⟨-, e, herror⟩ | ⟨-, ⟨hnone, unusable, hstep⟩ | ⟨path, first, e, -, -, herror⟩ |
          ⟨entry, path, name, rfl, hpath, -, hstep⟩⟩
      · rw [herror] at h
        cases h
      · rw [hstep] at h
        rw [ih h, List.filterMap_cons_none]
        cases raw with
        | error e => rfl
        | ok entry => exact congrArg (Option.map _) hnone
      · rw [herror] at h
        cases h
      · rw [hstep] at h
        have hfirst : storedAs ceiling ⟨(Except.ok entry).map RawEntry.unplaced,
            archive.byIndex index⟩ =
            some (archive.stored (entryInfo ceiling index path entry)) :=
          congrArg (Option.map _) hpath
        rw [ih h, List.filterMap_cons_some hfirst, List.map_append, List.append_assoc]
        rfl

end Loop

/-- Whether a scan succeeds, from the members. -/
theorem scan_iff {archive : MemoryArchive} : (∃ done, scan archive = .ok done) ↔
    (∀ member ∈ archive.members, Listable member.record) ∧
      (archive.members.filterMap fun member => listedPath member.record).Nodup := by
  have hraws : archive.members.map Member.record =
      archive.byIndexRaw.map fun raw => raw.map RawEntry.unplaced := by
    rw [MemoryArchive.members, List.map_map]
    calc archive.byIndexRaw.zipIdx.map (Member.record ∘ fun place =>
          ⟨place.1.map RawEntry.unplaced, archive.byIndex place.2⟩)
        = (archive.byIndexRaw.zipIdx.map Prod.fst).map fun raw => raw.map RawEntry.unplaced := by
          rw [List.map_map]
          rfl
      _ = archive.byIndexRaw.map fun raw => raw.map RawEntry.unplaced := by
          rw [List.zipIdx_map_fst]
  have hpaths : (archive.members.filterMap fun member => listedPath member.record) =
      archive.byIndexRaw.filterMap listedPath := by
    calc (archive.members.filterMap fun member => listedPath member.record)
        = (archive.members.map Member.record).filterMap listedPath := by
          rw [List.filterMap_map]
          rfl
      _ = archive.byIndexRaw.filterMap fun raw => listedPath (raw.map RawEntry.unplaced) := by
          rw [hraws, List.filterMap_map]
          rfl
      _ = archive.byIndexRaw.filterMap listedPath :=
          congrArg (fun f => archive.byIndexRaw.filterMap f) (funext listedPath_unplaced)
  have hlistable : (∀ member ∈ archive.members, Listable member.record) ↔
      ∀ raw ∈ archive.byIndexRaw, Listable raw := by
    rw [← List.forall_mem_map (P := Listable), hraws, List.forall_mem_map]
    exact forall₂_congr fun raw _ => listable_unplaced
  rw [hpaths, hlistable, scan, scanLoop_iff]
  exact and_congr_right fun _ => and_iff_left fun path _ => HashMap.get_empty path

theorem scan_stored {archive : MemoryArchive} {done : Scan} (h : scan archive = .ok done) :
    done.entries.map archive.stored =
      archive.members.filterMap (storedAs archive.centralDirectoryStart) :=
  scanLoop_stored h

/-! ## Reading

Reading stops at a size or at a failing chunk.  Which of them comes first depends on the budget;
whether some budget is enough does not. -/

section Reading

variable {archive archive' : MemoryArchive} {entry entry' : EntryInfo} {limits : Effective}

/-- Reading an entry asks only what is stored. -/
theorem inflate_congr (h : archive'.stored entry' = archive.stored entry) (remaining : Nat) :
    inflate archive' entry' limits remaining = inflate archive entry limits remaining := by
  obtain ⟨index, name, declaredSize, compressedSize⟩ := entry
  obtain ⟨index', name', declaredSize', compressedSize'⟩ := entry'
  simp only [MemoryArchive.stored, Stored.mk.injEq] at h
  obtain ⟨rfl, rfl, rfl, hreads⟩ := h
  have hloop : ∀ (reads : List (Except IoError Chunk)) (out : Bytes),
      readLoop limits ⟨index', name', declaredSize', compressedSize'⟩ remaining out reads =
        readLoop limits ⟨index, name', declaredSize', compressedSize'⟩ remaining out reads := by
    intro reads
    induction reads with
    | nil => exact fun out => rfl
    | cons read rest ih =>
        intro out
        cases read with
        | error e => rfl
        | ok chunk =>
            unfold readLoop
            simp only [ih]
  unfold inflate
  simp only [hreads, hloop]

theorem inflated_congr (h : archive'.stored entry' = archive.stored entry) :
    archive'.inflated entry' = archive.inflated entry := by
  have hreads : archive'.byIndex entry'.index = archive.byIndex entry.index :=
    congrArg Stored.reads h
  unfold MemoryArchive.inflated
  rw [hreads]

/-- Some budget is enough to read the entry. -/
def Opens (archive : MemoryArchive) (limits : Effective) (entry : EntryInfo) : Prop :=
  ∃ remaining bytes, inflate archive entry limits remaining = .ok bytes

/-- A read that succeeds does so wherever its result fits. -/
theorem readLoop_of_ok {remaining remaining' : Nat} {bytes : Bytes} :
    ∀ {reads : List (Except IoError Chunk)} {out : Bytes}, out.length ≤ remaining →
      readLoop limits entry remaining out reads = .ok bytes → bytes.length ≤ remaining' →
      readLoop limits entry remaining' out reads = .ok bytes
  | [], _, _, h, _ => h
  | .error _ :: _, _, _, h, _ => nomatch h
  | .ok chunk :: rest, out, hout, h, hfits => by
      have hbytes := (readLoop_ok hout h).1
      unfold readLoop at h ⊢
      by_cases hempty : chunk.bytes = []
      · rwa [if_pos hempty] at h ⊢
      · simp only [if_neg hempty] at h ⊢
        by_cases hover : min remaining usizeMax < out.length + chunk.bytes.length
        · simp [hover] at h
        · have hsize : out.length + chunk.bytes.length ≤ bytes.length := by
            rw [hbytes, gather, if_neg hempty, List.length_append, List.length_append]
            omega
          rw [if_neg hover] at h
          rw [if_neg (by omega)]
          cases hratio : checkRatio (out.length + chunk.bytes.length) entry.compressedSize limits
              entry.name with
          | error e => simp [hratio] at h
          | ok _ =>
              simp only [hratio] at h ⊢
              refine readLoop_of_ok ?_ h hfits
              rw [List.length_append]
              omega

/-- What has been read under one budget is read under any that it fits in. -/
theorem inflate_of_ok {remaining remaining' : Nat} {bytes : Bytes}
    (h : inflate archive entry limits remaining = .ok bytes)
    (hdeclared : entry.declaredSize = bytes.length) (hfits : bytes.length ≤ remaining') :
    inflate archive entry limits remaining' = .ok bytes := by
  unfold inflate at h ⊢
  have hbudget : checkBudget entry.declaredSize remaining' entry.name = .ok () := by
    rw [checkBudget, if_neg (by omega)]
  rw [hbudget]
  cases hbudget' : checkBudget entry.declaredSize remaining entry.name with
  | error e => simp [hbudget'] at h
  | ok _ =>
      rw [hbudget'] at h
      dsimp only at h ⊢
      cases hratio : checkRatio entry.declaredSize entry.compressedSize limits entry.name with
      | error e => simp [hratio] at h
      | ok _ =>
          rw [hratio] at h
          dsimp only at h ⊢
          cases hreads : archive.byIndex entry.index with
          | error e => simp [hreads] at h
          | ok reads =>
              rw [hreads] at h
              exact readLoop_of_ok (Nat.zero_le _) h hfits

/-- An entry that has the size it declares, where it can be read at all. -/
def Honest (archive : MemoryArchive) (limits : Effective) (entry : EntryInfo) : Prop :=
  Opens archive limits entry → entry.declaredSize = (archive.inflated entry).length

/-- What it takes to read one entry. -/
theorem inflate_iff (honest : Honest archive limits entry) (remaining : Nat) :
    (∃ bytes, inflate archive entry limits remaining = .ok bytes) ↔
      Opens archive limits entry ∧ (archive.inflated entry).length ≤ remaining := by
  constructor
  · rintro ⟨bytes, h⟩
    obtain ⟨rfl, hfits⟩ := inflate_ok h
    exact ⟨⟨_, _, h⟩, hfits⟩
  · rintro ⟨hopens, hfits⟩
    have hdeclared := honest hopens
    obtain ⟨remaining', bytes, h⟩ := hopens
    obtain ⟨rfl, -⟩ := inflate_ok h
    exact ⟨_, inflate_of_ok h hdeclared hfits⟩

end Reading

section Spending

variable {archive : MemoryArchive} {limits : Effective} {entries : List EntryInfo}

/-- What it takes to read one entry on a budget. -/
theorem spend_iff {k : Nat} (honest : Honest archive limits (entries.getD k default))
    (budget : Budget) :
    (∃ budget', spend archive limits entries budget k = .ok budget') ↔
      Opens archive limits (entries.getD k default) ∧
        sizeAt archive entries k ≤ budget.remaining ∧
        budget.consumed + sizeAt archive entries k ≤ u64Max ∧ budget.entries + 1 ≤ u32Max := by
  have hinflate := inflate_iff honest budget.remaining
  rw [← and_assoc, sizeAt, ← hinflate]
  unfold spend readEntry
  generalize entries.getD k default = entry
  simp only [Eff.exec_bind, Eff.exec_get]
  cases hread : inflate archive entry limits budget.remaining with
  | error e =>
      refine iff_of_false ?_ fun h => ?_
      · rintro ⟨budget', hbudget⟩
        cases hbudget
      · obtain ⟨⟨bytes, hbytes⟩, -⟩ := h
        cases hbytes
  | ok bytes =>
      obtain ⟨rfl, hfits⟩ := inflate_ok hread
      simp only [Eff.exec_bind, exec_checkedSub, if_pos hfits, Eff.exec_set, exec_checkedAdd]
      by_cases hconsumed : budget.consumed + (archive.inflated entry).length ≤ u64Max
      · by_cases hentries : budget.entries + 1 ≤ u32Max
        · simp [hconsumed, hentries]
        · simp [hconsumed, hentries]
      · simp [hconsumed]

/-- What it takes to read a list of entries on one budget. -/
theorem spendAll_iff {positions : List Nat}
    (honest : ∀ k ∈ positions, Honest archive limits (entries.getD k default)) {budget : Budget}
    (hconsumed : budget.consumed ≤ u64Max) (hentries : budget.entries ≤ u32Max) :
    (∃ budget', spendAll archive limits entries budget positions = .ok budget') ↔
      (∀ k ∈ positions, Opens archive limits (entries.getD k default)) ∧
        (positions.map (sizeAt archive entries)).sum ≤ budget.remaining ∧
        budget.consumed + (positions.map (sizeAt archive entries)).sum ≤ u64Max ∧
        budget.entries + positions.length ≤ u32Max := by
  induction positions generalizing budget with
  | nil => simp [spendAll, hconsumed, hentries, pure, Except.pure]
  | cons k rest ih =>
      obtain ⟨hfirst, hrest⟩ := List.forall_mem_cons.mp honest
      have hspend := spend_iff hfirst budget
      rw [List.forall_mem_cons, List.map_cons, List.sum_cons, List.length_cons]
      unfold spendAll at ih ⊢
      rw [List.foldlM_cons]
      cases hstep : spend archive limits entries budget k with
      | error e =>
          refine iff_of_false ?_ fun h => ?_
          · rintro ⟨_, hbudget⟩
            cases hbudget
          obtain ⟨budget', hbudget⟩ := hspend.mpr ⟨h.1.1, by omega, by omega, by omega⟩
          rw [hstep] at hbudget
          cases hbudget
      | ok next =>
          obtain ⟨hopens, hfits, hsum, hcount⟩ := hspend.mp ⟨next, hstep⟩
          obtain ⟨-, rfl⟩ := spend_ok hstep
          have hsum' : (budget.charge (sizeAt archive entries k)).consumed ≤ u64Max := hsum
          have ih := ih hrest hsum' hcount
          simp only [Budget.charge] at ih
          rw [and_iff_right hopens]
          refine Iff.trans (Eq.to_iff rfl) (ih.trans (and_congr_right fun _ => ?_))
          constructor
          · rintro ⟨hremaining, hconsumed', hentries'⟩
            exact ⟨by omega, by omega, by omega⟩
          · rintro ⟨hremaining, hconsumed', hentries'⟩
            exact ⟨by omega, by omega, by omega⟩

end Spending

end Archive

end GrpcEpub
