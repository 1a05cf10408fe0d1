/-
# `GrpcEpub.Verbatim` — books nobody percent-encoded

`lookup` tries a reference decoded first and as written second, for producers
that put `%20` into their entry names.  The two tries share one directory, the
one of the rootfile's decoded path, and a reference whose decoded form is refused
gets no second try.  `Leads` says where one reference leads, for the rootfile and
for an item alike, and `verbatim_read_iff` which of these books are read.
-/
import GrpcEpub.Addresses
import GrpcEpub.Sample

namespace GrpcEpub

open Href

/-- Neither a fragment nor a scheme. -/
structure Literal (href : Str) : Prop where
  unmarked : '#' ∉ href
  local_ : isAbsoluteUri href = false

/-- An archive with a package document whose references are the entry names,
written as they are. -/
structure Verbatim where
  entries : List EntryInfo
  fullPath : Str
  manifest : List ManifestItem
  accepted : ∀ entry ∈ entries, checkEntryName entry.name = .ok (some entry.name)
  rootfile : ∃ entry ∈ entries, entry.name = fullPath
  written : ∀ item ∈ manifest, ∃ entry ∈ entries,
    normalize (parentDir fullPath) item.href = .ok entry.name
  literal : Literal fullPath ∧ ∀ item ∈ manifest, Literal item.href
  undecoded : ∀ entry ∈ entries, ∀ other ∈ entries,
    percentDecode other.name = entry.name → other.name = entry.name

/-- The entry at a position has this name. -/
def EntryNamed (entries : List EntryInfo) (position : Nat) (name : Str) : Prop :=
  ∃ entry, entries[position]? = some entry ∧ entry.name = name

namespace Verbatim

variable (source : Verbatim)

def Names (path : Str) : Prop := ∃ entry ∈ source.entries, entry.name = path

/-- A reference in `dir` leads to the entry `name`: decoded, or as written where
the decoded form is a path of no entry. -/
inductive Leads (dir href name : Str) : Prop where
  | decoded : normalize dir (percentDecode href) = .ok name → Leads dir href name
  | written {path : Str} : normalize dir (percentDecode href) = .ok path → ¬ source.Names path →
      normalize dir href = .ok name → Leads dir href name

/-- A reference in `dir` to the entry `name` is lost: its decoded form is
refused, or is the path of another entry, or is nobody's path and the reference
as written goes elsewhere from there. -/
inductive Lost (dir href name : Str) : Prop where
  | refused {e : PathError} : normalize dir (percentDecode href) = .error e → Lost dir href name
  | captured {path : Str} : normalize dir (percentDecode href) = .ok path → source.Names path →
      path ≠ name → Lost dir href name
  | moved {path : Str} : normalize dir (percentDecode href) = .ok path → ¬ source.Names path →
      normalize dir href ≠ .ok name → Lost dir href name

/-- The container's reference is lost, or an item's is from the directory that
the decoded form of the container's is in. -/
inductive Spoiled : Prop where
  | rootfile : source.Lost [] source.fullPath source.fullPath → Spoiled
  | item {path name : Str} {item : ManifestItem} :
      normalize [] (percentDecode source.fullPath) = .ok path → item ∈ source.manifest →
      normalize (parentDir source.fullPath) item.href = .ok name →
      source.Lost (parentDir path) item.href name → Spoiled

/-- What the call is to find: the rootfile, and each item's entry. -/
def Read (crates : Crates) (container : Bytes) : Prop :=
  ∃ opfPath position, Parse.rootfile crates (Extract.indexOf source.entries) container =
      .ok (opfPath, position) ∧ EntryNamed source.entries position source.fullPath ∧
    ∀ book : Book, book.entries = source.entries → book.opfPath = opfPath →
      book.package.manifest = source.manifest → ∀ resolved ∈ book.resolved,
        ∃ name entry, normalize (parentDir source.fullPath) resolved.item.href = .ok name ∧
          resolved.entry = some entry ∧ EntryNamed source.entries entry name

/-! ## One reference

Looked up decoded and as it was written, in one directory. -/

section Reference

variable {source} {dir href name : Str}

theorem get_iff {path : Str} :
    source.Names path ↔ ∃ p, (Extract.indexOf source.entries).get path = some p := by
  constructor
  · rintro ⟨entry, hentry, rfl⟩
    exact Option.isSome_iff_exists.mp (Extract.indexOf_isSome hentry)
  · rintro ⟨p, hp⟩
    obtain ⟨entry, hentry, hname⟩ := Extract.indexOf_get hp
    exact ⟨entry, List.mem_of_getElem? hentry, hname⟩

theorem EntryNamed.eq {entries : List EntryInfo} {p : Nat} {name name' : Str}
    (h : EntryNamed entries p name) (h' : EntryNamed entries p name') : name = name' := by
  obtain ⟨entry, hentry, rfl⟩ := h
  obtain ⟨entry', hentry', rfl⟩ := h'
  rw [Option.some.inj (hentry.symm.trans hentry')]

theorem resolve_literal (h : Literal href) (hshort : href.len ≤ maxPathBytes) :
    resolve dir href = (normalize dir (percentDecode href)).map .entry := by
  rw [resolve_eq, if_neg (Nat.not_lt.mpr hshort), if_neg (by simp [h.local_]),
    Str.before_of_not_mem h.unmarked]

/-- A reference to a name of the book is lost, or it leads there. -/
theorem not_lost_iff (hname : source.Names name) :
    ¬ source.Lost dir href name ↔ source.Leads dir href name := by
  constructor
  · intro h
    cases hpath : normalize dir (percentDecode href) with
    | error e => exact absurd (.refused hpath) h
    | ok path =>
        by_cases heq : path = name
        · exact .decoded (heq ▸ hpath)
        · by_cases hnames : source.Names path
          · exact absurd (.captured hpath hnames heq) h
          · exact .written hpath hnames (by
              by_contra hraw
              exact h (.moved hpath hnames hraw))
  · intro hleads hlost
    rcases hleads with hok | ⟨hok, habsent, hraw⟩ <;>
      rcases hlost with herror | ⟨hpath, hnames, hne⟩ | ⟨hpath, hnone, hmoved⟩
    · cases hok.symm.trans herror
    · exact hne (Except.ok.inj (hpath.symm.trans hok))
    · obtain rfl := Except.ok.inj (hpath.symm.trans hok)
      exact hnone hname
    · cases hok.symm.trans herror
    · obtain rfl := Except.ok.inj (hpath.symm.trans hok)
      exact habsent hnames
    · exact hmoved hraw

/-- The two tries find the entry meant exactly when the reference leads to it. -/
theorem leads_iff (h : Literal href) (hstored : source.Names name) {path : Str}
    (hpath : normalize dir (percentDecode href) = .ok path) :
    (∃ p, Extract.lookup (Extract.indexOf source.entries) path dir href = some p ∧
      EntryNamed source.entries p name) ↔ source.Leads dir href name := by
  unfold Extract.lookup
  rw [Str.before_of_not_mem h.unmarked]
  cases hget : (Extract.indexOf source.entries).get path with
  | some p =>
      have hp := Extract.indexOf_get hget
      constructor
      · rintro ⟨p', hp', hnamed⟩
        cases hp'
        exact .decoded (EntryNamed.eq hnamed hp ▸ hpath)
      · rintro (hname | ⟨hq, habsent, -⟩)
        · obtain rfl : path = name := Except.ok.inj (hpath.symm.trans hname)
          exact ⟨p, rfl, hp⟩
        · obtain rfl := Except.ok.inj (hpath.symm.trans hq)
          exact absurd (get_iff.mpr ⟨p, hget⟩) habsent
  | none =>
      have habsent : ¬ source.Names path := fun hnames => by
        obtain ⟨p, hp⟩ := get_iff.mp hnames
        rw [hget] at hp
        cases hp
      constructor
      · rintro ⟨p, hp, hnamed⟩
        cases hraw : normalize dir href with
        | error e => simp [hraw] at hp
        | ok raw =>
            simp only [hraw] at hp
            exact .written hpath habsent (EntryNamed.eq hnamed (Extract.indexOf_get hp) ▸ hraw)
      · rintro (hname | ⟨-, -, hraw⟩)
        · obtain rfl : path = name := Except.ok.inj (hpath.symm.trans hname)
          exact absurd hstored habsent
        · obtain ⟨p, hp⟩ := get_iff.mp hstored
          exact ⟨p, by rw [hraw]; exact hp, Extract.indexOf_get hp⟩

end Reference

/-! ## The book

The rootfile first, and then each item of the manifest. -/

section Book

variable {source}

theorem normalize_name {name : Str} (h : source.Names name) : normalize [] name = .ok name := by
  obtain ⟨entry, hentry, rfl⟩ := h
  exact normalize_entry (.inl rfl) (by simpa [under] using source.accepted entry hentry)

theorem baseDir_opf : BaseDir (parentDir source.fullPath) :=
  Canonical.parentDir (normalize_canonical (.inl rfl) (normalize_name source.rootfile))

theorem short_href {item : ManifestItem} (h : item ∈ source.manifest) :
    item.href.len ≤ maxPathBytes := by
  obtain ⟨entry, -, hwritten⟩ := source.written item h
  have hshort := ((normalize_ok_iff baseDir_opf).mp hwritten).1.short
  omega

theorem resolveItem_item (index : HashMap Str Nat) (dir : Str) (item : ManifestItem) :
    (Extract.resolveItem index dir item).item = item := by
  unfold Extract.resolveItem
  split <;> rfl

/-- What one turn of the manifest loop finds. -/
theorem resolveItem_iff {item : ManifestItem} (hitem : item ∈ source.manifest) {dir name : Str}
    (hname : source.Names name) :
    (∃ p, (Extract.resolveItem (Extract.indexOf source.entries) dir item).entry = some p ∧
      EntryNamed source.entries p name) ↔ source.Leads dir item.href name := by
  have hresolve := @resolve_literal dir _ (source.literal.2 item hitem) (short_href hitem)
  unfold Extract.resolveItem
  rw [hresolve]
  cases hpath : normalize dir (percentDecode item.href) with
  | ok path => exact leads_iff (source.literal.2 item hitem) hname hpath
  | error e =>
      constructor
      · rintro ⟨p, hp, -⟩
        cases hp
      · rintro (hok | ⟨hok, -, -⟩) <;> cases hpath.symm.trans hok

/-- What the container's reference finds. -/
theorem rootfile_iff {crates : Crates} {container : Bytes}
    (hcontainer : Opf.parseContainer (crates.strict container) = .ok source.fullPath)
    {opfPath : Str} :
    (∃ p, Parse.rootfile crates (Extract.indexOf source.entries) container = .ok (opfPath, p) ∧
      EntryNamed source.entries p source.fullPath) ↔
      normalize [] (percentDecode source.fullPath) = .ok opfPath ∧
        source.Leads [] source.fullPath source.fullPath := by
  have hshort : source.fullPath.len ≤ maxPathBytes := by
    have hself := normalize_name source.rootfile
    have hadmitted := ((normalize_ok_iff (.inl rfl)).mp hself).1.short
    omega
  unfold Parse.rootfile
  simp only [hcontainer, resolve_literal source.literal.1 hshort]
  cases hpath : normalize [] (percentDecode source.fullPath) with
  | error e =>
      constructor
      · rintro ⟨p, hp, -⟩
        cases hp
      · rintro ⟨hok, -⟩
        cases hok
  | ok path =>
      have hleads := leads_iff source.literal.1 source.rootfile hpath
      simp only [Except.map]
      constructor
      · rintro ⟨p, hp, hnamed⟩
        cases hlookup : Extract.lookup (Extract.indexOf source.entries) path [] source.fullPath with
        | none => simp [hlookup] at hp
        | some position =>
            simp only [hlookup, Except.ok.injEq, Prod.mk.injEq] at hp
            obtain ⟨rfl, rfl⟩ := hp
            exact ⟨rfl, hleads.mp ⟨position, hlookup, hnamed⟩⟩
      · rintro ⟨heq, hfound⟩
        cases heq
        obtain ⟨p, hlookup, hnamed⟩ := hleads.mpr hfound
        exact ⟨p, by rw [hlookup], hnamed⟩

/-- A book nobody percent-encoded is read exactly where decoding spoils none of
its references. -/
theorem verbatim_read_iff (source : Verbatim) (crates : Crates) (container : Bytes)
    (hcontainer : Opf.parseContainer (crates.strict container) = .ok source.fullPath) :
    source.Read crates container ↔ ¬ source.Spoiled := by
  have hnames : ∀ {item : ManifestItem} {name : Str}, item ∈ source.manifest →
      normalize (parentDir source.fullPath) item.href = .ok name → source.Names name := by
    intro item name hitem hname
    obtain ⟨entry, hentry, hwritten⟩ := source.written item hitem
    exact ⟨entry, hentry, Except.ok.inj (hwritten.symm.trans hname)⟩
  constructor
  · rintro ⟨opfPath, position, hrootfile, hnamed, hitems⟩ hspoiled
    obtain ⟨hpath, hleads⟩ := (rootfile_iff hcontainer).mp ⟨position, hrootfile, hnamed⟩
    cases hspoiled with
    | rootfile hlost => exact (not_lost_iff source.rootfile).mpr hleads hlost
    | @item path name item hpath' hitem hname hlost =>
        obtain rfl : opfPath = path := Except.ok.inj (hpath.symm.trans hpath')
        refine (not_lost_iff (hnames hitem hname)).mpr
          ((resolveItem_iff hitem (hnames hitem hname)).mp ?_) hlost
        obtain ⟨name', p, hname', hp, hnamed'⟩ := hitems
          { entries := source.entries, obfuscated := [], opfPath
            package := { manifest := source.manifest } } rfl rfl rfl _
          (List.mem_map_of_mem hitem)
        rw [resolveItem_item, hname] at hname'
        cases hname'
        exact ⟨p, hp, hnamed'⟩
  · intro hsound
    have hrootfile := (not_lost_iff source.rootfile).mp fun hlost => hsound (.rootfile hlost)
    obtain ⟨path, hpath⟩ : ∃ path, normalize [] (percentDecode source.fullPath) = .ok path := by
      rcases hrootfile with hok | ⟨hok, -, -⟩ <;> exact ⟨_, hok⟩
    obtain ⟨position, hfound, hnamed⟩ := (rootfile_iff hcontainer).mpr ⟨hpath, hrootfile⟩
    refine ⟨path, position, hfound, hnamed, fun book hentries hopf hmanifest resolved hmem => ?_⟩
    rw [Book.resolved, Book.index, Book.opfDir, hentries, hopf, hmanifest] at hmem
    obtain ⟨item, hitem, rfl⟩ := List.mem_map.mp hmem
    obtain ⟨entry, hentry, hwritten⟩ := source.written item hitem
    have hname := hnames hitem hwritten
    obtain ⟨p, hp, hnamed'⟩ := (resolveItem_iff hitem hname).mpr
      ((not_lost_iff hname).mp fun hlost => hsound (.item hpath hitem hwritten hlost))
    exact ⟨entry.name, p, by rwa [resolveItem_item], hp, hnamed'⟩

end Book

/-! ## Two small books

One that is read, and one whose rootfile's directory is escaped. -/

/-- A reader that finds a container naming `fullPath` in every document. -/
def namingCrates (fullPath : Str) : Crates where
  zipNew := fun _ => .ok (Sample.archive [])
  strict := fun _ => Sample.container fullPath
  lenient := fun _ => Sample.container fullPath
  parseFloat := fun _ => none

def storedAs (name : Str) : EntryInfo :=
  { index := 0, name, declaredSize := 0, compressedSize := 0 }

def chapterAt (href : Str) : ManifestItem :=
  { id := "c", href, mediaType := "application/xhtml+xml", properties := [], mediaOverlay := []
    fallback := [] }

/-- An escape in the name of the chapter. -/
def inFile : Verbatim where
  entries := [storedAs "OPS/p.opf", storedAs "OPS/ch%201.xhtml"]
  fullPath := "OPS/p.opf"
  manifest := [chapterAt "ch%201.xhtml"]
  accepted := by decide
  rootfile := by decide
  written := by decide
  literal := ⟨⟨by decide, by decide⟩, fun item hitem => by
    obtain rfl := List.mem_singleton.mp hitem
    exact ⟨by decide, by decide⟩⟩
  undecoded := by decide

/-- An escape in the name of the directory. -/
def inDirectory : Verbatim where
  entries := [storedAs "my%20dir/p.opf", storedAs "my%20dir/ch1.xhtml"]
  fullPath := "my%20dir/p.opf"
  manifest := [chapterAt "ch1.xhtml"]
  accepted := by decide
  rootfile := by decide
  written := by decide
  literal := ⟨⟨by decide, by decide⟩, fun item hitem => by
    obtain rfl := List.mem_singleton.mp hitem
    exact ⟨by decide, by decide⟩⟩
  undecoded := by decide

theorem inFile_read : inFile.Read (namingCrates "OPS/p.opf") [] := by
  refine (verbatim_read_iff inFile _ _ (by decide)).mpr ?_
  have hchapter : inFile.Leads "OPS" "ch%201.xhtml" "OPS/ch%201.xhtml" :=
    @Leads.written inFile _ _ _ "OPS/ch 1.xhtml" (by decide) (by unfold Names; decide) (by decide)
  rintro (hlost | ⟨hpath, hitem, hname, hlost⟩)
  · exact (not_lost_iff inFile.rootfile).mpr (.decoded (by decide)) hlost
  · have hdir : normalize [] (percentDecode inFile.fullPath) = .ok "OPS/p.opf".toList := by decide
    cases hpath.symm.trans hdir
    obtain rfl := List.mem_singleton.mp hitem
    have hwritten : normalize (parentDir inFile.fullPath) (chapterAt "ch%201.xhtml").href =
        .ok "OPS/ch%201.xhtml".toList := by decide
    cases hname.symm.trans hwritten
    exact (not_lost_iff (by unfold Names; decide)).mpr hchapter hlost

/-- The rootfile is found as written, and the chapter next to it is not. -/
theorem inDirectory_not_read : ¬ inDirectory.Read (namingCrates "my%20dir/p.opf") [] := by
  rintro ⟨opfPath, position, hrootfile, -, hitems⟩
  have hfound : Parse.rootfile (namingCrates "my%20dir/p.opf")
      (Extract.indexOf inDirectory.entries) [] = .ok ("my dir/p.opf".toList, 0) := by decide
  cases hrootfile.symm.trans hfound
  obtain ⟨-, entry, -, hentry, -⟩ := hitems
    { entries := inDirectory.entries, obfuscated := [], opfPath := "my dir/p.opf"
      package := { manifest := inDirectory.manifest } } rfl rfl rfl _ List.mem_cons_self
  have hnone : (Extract.resolveItem (Extract.indexOf inDirectory.entries) "my dir"
      (chapterAt "ch1.xhtml")).entry = none := by decide
  cases hnone.symm.trans hentry

end Verbatim

end GrpcEpub
