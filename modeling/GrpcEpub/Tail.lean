/-
# `GrpcEpub.Tail` — titles and credits in the metadata tail

Titles, roles and sort names go into one map, under keys that the book makes up: the kind of a
title, the name of a person.  A key holds one value, the last one written.  So what the tail keeps
of a book is what no later entry has a different value for (`faithful_iff`): one title for each
kind, one role and one sort name for each name, and of the titles without a kind the one that is
the book's.
-/
import GrpcEpub.Fold
import GrpcEpub.Lib.Last

namespace GrpcEpub

namespace Fold

/-! ## Keys

The families of keys differ in how they begin. -/

/-- `format!("epub.title.{kind}")`. -/
def titleKey (kind : Str) : Str := epubKey ("title.".toList ++ kind)

/-- `format!("epub.role.{}", entry.value)`. -/
def roleKey (name : Str) : Str := epubKey ("role.".toList ++ name)

/-- `format!("epub.file-as.{}", entry.value)`. -/
def fileAsKey (name : Str) : Str := epubKey ("file-as.".toList ++ name)

/-- Seven characters tell the keys of titles, roles and sort names from each other, and from all
other keys. -/
def lead (key : Str) : Str := key.take 7

/-- How the keys start that the book has a hand in. -/
def leads : List Str := ["epub.ti", "epub.ro", "epub.fi"]

theorem lead_titleKey (kind : Str) : lead (titleKey kind) = "epub.ti".toList := rfl

theorem lead_roleKey (name : Str) : lead (roleKey name) = "epub.ro".toList := rfl

theorem lead_fileAsKey (name : Str) : lead (fileAsKey name) = "epub.fi".toList := rfl

theorem titleKey_inj {kind kind' : Str} (h : titleKey kind = titleKey kind') : kind = kind' :=
  List.append_cancel_left (List.append_cancel_left h)

theorem roleKey_inj {name name' : Str} (h : roleKey name = roleKey name') : name = name' :=
  List.append_cancel_left (List.append_cancel_left h)

theorem fileAsKey_inj {name name' : Str} (h : fileAsKey name = fileAsKey name') : name = name' :=
  List.append_cancel_left (List.append_cancel_left h)

theorem ne_of_lead {key key' : Str} (h : lead key ≠ lead key') : key ≠ key' :=
  fun heq => h (congrArg lead heq)

/-! ## Writes

What each entry writes, and under which key. -/

variable {m : HashMap Str Str} {key value k : Str}

theorem get_record : (record m key value).get k =
    if k = key ∧ value ≠ [] then some value else m.get k := by
  unfold record
  by_cases hvalue : value ≠ []
  · rw [if_pos hvalue, HashMap.get_insert]
    by_cases hkey : k = key
    · rw [if_pos hkey, if_pos ⟨hkey, hvalue⟩]
    · rw [if_neg hkey, if_neg fun h => hkey h.1]
  · rw [if_neg hvalue, if_neg fun h => hvalue h.2]

theorem get_record_other (h : lead k ≠ lead key) : (record m key value).get k = m.get k := by
  rw [get_record, if_neg fun heq => ne_of_lead h heq.1]

theorem get_foldl_other {α : Type} {step : HashMap Str Str → α → HashMap Str Str}
    (h : ∀ m a, (step m a).get k = m.get k) (xs : List α) (m : HashMap Str Str) :
    (xs.foldl step m).get k = m.get k := by
  induction xs generalizing m with
  | nil => rfl
  | cons a rest ih => exact (ih _).trans (h m a)

/-- A title that is recorded under its kind. -/
def Recorded (entry : MetadataEntry) : Prop :=
  refined entry "title-type" ≠ [] ∧ refined entry "title-type" ≠ "main".toList ∧ entry.value ≠ []

instance (entry : MetadataEntry) : Decidable (Recorded entry) :=
  inferInstanceAs (Decidable (_ ∧ _ ∧ _))

theorem get_recordTitle (m : HashMap Str Str) (entry : MetadataEntry) :
    (recordTitle m entry).get k =
      if Recorded entry ∧ k = titleKey (refined entry "title-type") then some entry.value
      else m.get k := by
  unfold recordTitle Recorded
  dsimp only
  by_cases hkind : refined entry "title-type" ≠ [] ∧ refined entry "title-type" ≠ "main".toList
  · rw [if_pos hkind, get_record]
    refine if_congr ?_ rfl rfl
    exact ⟨fun h => ⟨⟨hkind.1, hkind.2, h.2⟩, h.1⟩, fun h => ⟨h.2, h.1.2.2⟩⟩
  · rw [if_neg hkind, if_neg fun h => hkind ⟨h.1.1, h.1.2.1⟩]

theorem get_guarded : HashMap.get (if value ≠ [] then record m key value else m) k =
    if value ≠ [] ∧ k = key then some value else m.get k := by
  by_cases hvalue : value ≠ []
  · rw [if_pos hvalue, get_record]
    exact if_congr and_comm rfl rfl
  · rw [if_neg hvalue, if_neg fun h => hvalue h.1]

theorem get_recordCredit (m : HashMap Str Str) (entry : MetadataEntry) :
    (recordCredit m entry).get k =
      if refined entry "file-as" ≠ [] ∧ k = fileAsKey entry.value then
        some (refined entry "file-as")
      else if refined entry "role" ≠ [] ∧ k = roleKey entry.value then some (refined entry "role")
      else m.get k :=
  get_guarded.trans (if_congr Iff.rfl rfl get_guarded)

/-- What the tail holds before the titles. -/
def plainExtra (info : EpubInfo) : HashMap Str Str :=
  let extra := record ∅ "epub.publisher" info.publisher
  let extra := record extra "epub.description" info.description
  let extra := record extra "epub.unique_identifier" info.uniqueIdentifier
  let extra := record extra "epub.version" info.epubVersion
  let extra := record extra "epub.opf_href" info.opfHref
  openElements.foldl
    (fun extra element => record extra (epubKey element) (first info element)) extra

/-- The title entries. -/
def titleEntries (info : EpubInfo) : List MetadataEntry :=
  info.metadata.filter (·.element = "title".toList)

/-- The credits. -/
def creditEntries (info : EpubInfo) : List MetadataEntry := info.metadata.filter isCredit

theorem extra_eq (info : EpubInfo) : extra info = info.identifiers.zipIdx.foldl recordIdentifier
    ((creditEntries info).foldl recordCredit
      ((titleEntries info).foldl recordTitle (plainExtra info))) := rfl

theorem get_record_plain (hkey : lead key ∉ leads) (hk : lead k ∈ leads) :
    (record m key value).get k = m.get k :=
  get_record_other fun heq => hkey (heq ▸ hk)

theorem get_plainExtra (info : EpubInfo) (hk : lead k ∈ leads) :
    (plainExtra info).get k = none := by
  unfold plainExtra
  simp only [openElements, List.foldl_cons, List.foldl_nil]
  iterate 11 rw [get_record_plain ?_ hk]
  · rfl
  all_goals decide +kernel

/-- `format!("epub.identifier.{index}")`, and what is put behind it. -/
theorem lead_identifier (rest : Str) :
    lead (epubKey ("identifier.".toList ++ rest)) = "epub.id".toList := rfl

theorem get_identifiers (hk : lead k ∈ leads) (identifiers : List (DublinCoreIdentifier × Nat))
    (m : HashMap Str Str) : (identifiers.foldl recordIdentifier m).get k = m.get k := by
  have hlead : "epub.id".toList ∉ leads := by decide
  refine get_foldl_other (fun m identifier => ?_) identifiers m
  refine (get_record_plain ?_ hk).trans (get_record_plain ?_ hk)
  · exact hlead
  · rw [lead_identifier]
    exact hlead

/-! ## What is left under a key

The last of those that wrote there. -/

/-- The last title of this kind. -/
theorem extra_titleKey (info : EpubInfo) (kind : Str) : (extra info).get (titleKey kind) =
    (lastOf (fun entry => Recorded entry ∧ titleKey kind = titleKey (refined entry "title-type"))
      (titleEntries info)).map MetadataEntry.value := by
  have hk : lead (titleKey kind) ∈ leads := by
    rw [lead_titleKey]
    decide
  have hcredit (m : HashMap Str Str) (entry : MetadataEntry) :
      (recordCredit m entry).get (titleKey kind) = m.get (titleKey kind) := by
    rw [get_recordCredit, if_neg, if_neg]
    · exact fun h => ne_of_lead (by rw [lead_titleKey, lead_roleKey]; decide) h.2
    · exact fun h => ne_of_lead (by rw [lead_titleKey, lead_fileAsKey]; decide) h.2
  rw [extra_eq, get_identifiers hk, get_foldl_other hcredit]
  refine (lookup_steps (fun m entry => get_recordTitle m entry) _ _).trans ?_
  rw [show AList.lookup (titleKey kind) (plainExtra info) = none from get_plainExtra info hk,
    Option.or_none]

/-- The role of the last credit of this name that has one. -/
theorem extra_roleKey (info : EpubInfo) (name : Str) : (extra info).get (roleKey name) =
    (lastOf (fun entry => refined entry "role" ≠ [] ∧ roleKey name = roleKey entry.value)
      (creditEntries info)).map (refined · "role") := by
  have hk : lead (roleKey name) ∈ leads := by
    rw [lead_roleKey]
    decide
  have htitle (m : HashMap Str Str) (entry : MetadataEntry) :
      (recordTitle m entry).get (roleKey name) = m.get (roleKey name) := by
    rw [get_recordTitle, if_neg]
    exact fun h => ne_of_lead (by rw [lead_titleKey, lead_roleKey]; decide) h.2
  have hcredit (m : HashMap Str Str) (entry : MetadataEntry) :
      (recordCredit m entry).get (roleKey name) =
        if refined entry "role" ≠ [] ∧ roleKey name = roleKey entry.value then
          some (refined entry "role")
        else m.get (roleKey name) := by
    rw [get_recordCredit, if_neg]
    exact fun h => ne_of_lead (by rw [lead_roleKey, lead_fileAsKey]; decide) h.2
  rw [extra_eq, get_identifiers hk]
  refine (lookup_steps hcredit _ _).trans ?_
  rw [show AList.lookup (roleKey name) ((titleEntries info).foldl recordTitle (plainExtra info)) =
    none from (get_foldl_other htitle _ _).trans (get_plainExtra info hk), Option.or_none]

/-- The sort name of the last credit of this name that has one. -/
theorem extra_fileAsKey (info : EpubInfo) (name : Str) : (extra info).get (fileAsKey name) =
    (lastOf (fun entry => refined entry "file-as" ≠ [] ∧ fileAsKey name = fileAsKey entry.value)
      (creditEntries info)).map (refined · "file-as") := by
  have hk : lead (fileAsKey name) ∈ leads := by
    rw [lead_fileAsKey]
    decide
  have htitle (m : HashMap Str Str) (entry : MetadataEntry) :
      (recordTitle m entry).get (fileAsKey name) = m.get (fileAsKey name) := by
    rw [get_recordTitle, if_neg]
    exact fun h => ne_of_lead (by rw [lead_titleKey, lead_fileAsKey]; decide) h.2
  have hcredit (m : HashMap Str Str) (entry : MetadataEntry) :
      (recordCredit m entry).get (fileAsKey name) =
        if refined entry "file-as" ≠ [] ∧ fileAsKey name = fileAsKey entry.value then
          some (refined entry "file-as")
        else m.get (fileAsKey name) := by
    rw [get_recordCredit]
    refine if_congr Iff.rfl rfl (if_neg ?_)
    exact fun h => ne_of_lead (by rw [lead_roleKey, lead_fileAsKey]; decide) h.2
  rw [extra_eq, get_identifiers hk]
  refine (lookup_steps hcredit _ _).trans ?_
  rw [show AList.lookup (fileAsKey name) ((titleEntries info).foldl recordTitle
    (plainExtra info)) = none from (get_foldl_other htitle _ _).trans (get_plainExtra info hk),
    Option.or_none]

/-! ## What is lost

Exactly when two entries write different values under one key. -/

/-- Everything that refines an entry in this way, which may be more than the first of them. -/
def qualifications (entry : MetadataEntry) (property : Str) : List Str :=
  (entry.refinements.filter (·.property = property)).map MetadataRefinement.value

theorem refined_eq (entry : MetadataEntry) (property : Str) :
    refined entry property = (qualifications entry property).head?.getD [] := by
  unfold refined qualifications
  rw [List.head?_map, List.head?_filter]

/-- All credits of one name are qualified alike. -/
def Agreed (info : EpubInfo) (property : Str) : Prop :=
  ∀ entry ∈ creditEntries info, ∀ value ∈ qualifications entry property, value ≠ [] ∧
    ∀ other ∈ creditEntries info, other.value = entry.value →
      ∀ value' ∈ qualifications other property, value' = value

/-- What is kept of the qualifications of a name is the first one of its last credit, so all are
kept when they agree. -/
theorem agreed_iff {info : EpubInfo} {property : Str} {key : Str → Str}
    (hkey : ∀ name name', key name = key name' → name = name')
    (hget : ∀ name, (extra info).get (key name) =
      (lastOf (fun entry => refined entry property ≠ [] ∧ key name = key entry.value)
        (creditEntries info)).map (refined · property)) :
    (∀ entry ∈ creditEntries info, ∀ value ∈ qualifications entry property,
      (extra info).get (key entry.value) = some value) ↔ Agreed info property := by
  constructor
  · intro h entry hentry value hvalue
    have hkept := h entry hentry value hvalue
    refine ⟨?_, fun other hother hname value' hvalue' => ?_⟩
    · rw [hget] at hkept
      obtain ⟨last, hlast, rfl⟩ := Option.map_eq_some_iff.mp hkept
      exact (lastOf_mem hlast).2.1
    · have hkept' := h other hother value' hvalue'
      rw [hname] at hkept'
      exact Option.some.inj (hkept'.symm.trans hkept)
  · intro h entry hentry value hvalue
    have hfirst : ∀ other ∈ creditEntries info, other.value = entry.value →
        refined other property ≠ [] → refined other property = value := by
      intro other hother hname hrefined
      rw [refined_eq] at hrefined ⊢
      cases hhead : (qualifications other property).head? with
      | none =>
          rw [hhead] at hrefined
          exact absurd rfl hrefined
      | some first =>
          exact (h entry hentry value hvalue).2 other hother hname first
            (List.mem_of_mem_head? hhead)
    have hhas : refined entry property ≠ [] := by
      rw [refined_eq]
      cases hhead : (qualifications entry property).head? with
      | none => exact absurd (List.head?_eq_none_iff.mp hhead ▸ hvalue) List.not_mem_nil
      | some first => exact (h entry hentry first (List.mem_of_mem_head? hhead)).1
    obtain ⟨last, hlast⟩ := @lastOf_isSome _
      (fun other => refined other property ≠ [] ∧ key entry.value = key other.value) _
      (creditEntries info) entry hentry ⟨hhas, rfl⟩
    obtain ⟨hmem, hrefined, hname⟩ := lastOf_mem hlast
    rw [hget, hlast]
    exact congrArg some (hfirst last hmem (hkey _ _ hname).symm hrefined)

/-- Titles of one kind are one title, and every other one is the book's title or a recorded one. -/
structure Entitled (info : EpubInfo) : Prop where
  one : ∀ entry ∈ titleEntries info, ∀ other ∈ titleEntries info, Recorded entry →
    Recorded other → refined entry "title-type" = refined other "title-type" →
      entry.value = other.value
  stated : ∀ entry ∈ titleEntries info, entry.value ≠ [] ∧ (entry.value = info.title ∨
    ∃ other ∈ titleEntries info, Recorded other ∧ other.value = entry.value)

/-- The described book has lost no title, no role and no sort name. -/
structure Faithful (info : EpubInfo) (described : DocumentMeta) : Prop where
  titles : ∀ entry ∈ titleEntries info, described.title = some entry.value ∨
    ∃ kind, described.extra.get (titleKey kind) = some entry.value
  roles : ∀ entry ∈ creditEntries info, ∀ role ∈ qualifications entry "role",
    described.extra.get (roleKey entry.value) = some role
  sortNames : ∀ entry ∈ creditEntries info, ∀ fileAs ∈ qualifications entry "file-as",
    described.extra.get (fileAsKey entry.value) = some fileAs
  /-- What one title recorded is not overwritten by the next. -/
  kept : ∀ entry ∈ titleEntries info, Recorded entry →
    described.extra.get (titleKey (refined entry "title-type")) = some entry.value

/-- A value under a title key is that of a recorded title. -/
theorem recorded_of_get {info : EpubInfo} {kind value : Str}
    (h : (extra info).get (titleKey kind) = some value) : ∃ entry ∈ titleEntries info,
      Recorded entry ∧ kind = refined entry "title-type" ∧ entry.value = value := by
  rw [extra_titleKey] at h
  obtain ⟨last, hlast, hvalue⟩ := Option.map_eq_some_iff.mp h
  obtain ⟨hmem, hrecorded, hkind⟩ := lastOf_mem hlast
  exact ⟨last, hmem, hrecorded, titleKey_inj hkind, hvalue⟩

/-- Something is left under the key of a recorded title. -/
theorem get_of_recorded {info : EpubInfo} {entry : MetadataEntry}
    (hentry : entry ∈ titleEntries info) (hrecorded : Recorded entry) :
    ∃ value, (extra info).get (titleKey (refined entry "title-type")) = some value := by
  obtain ⟨last, hlast⟩ := @lastOf_isSome _ (fun other => Recorded other ∧
    titleKey (refined entry "title-type") = titleKey (refined other "title-type")) _
    (titleEntries info) entry hentry ⟨hrecorded, rfl⟩
  exact ⟨last.value, by rw [extra_titleKey, hlast]; rfl⟩

/-- The tail loses nothing exactly when there is nothing to lose. -/
theorem faithful_iff (info : EpubInfo) (described : DocumentMeta)
    (h : sourceMeta info = .ok described) : Faithful info described ↔
      Entitled info ∧ Agreed info "role" ∧ Agreed info "file-as" := by
  obtain ⟨created, -, h⟩ := Except.bind_ok h
  obtain ⟨modified, -, h⟩ := Except.bind_ok h
  obtain rfl := Except.ok.inj h
  have hroles := agreed_iff (fun _ _ => roleKey_inj) (extra_roleKey info)
  have hsortNames := agreed_iff (fun _ _ => fileAsKey_inj) (extra_fileAsKey info)
  constructor
  · intro hfaithful
    refine ⟨⟨?_, ?_⟩, hroles.mp hfaithful.roles, hsortNames.mp hfaithful.sortNames⟩
    · intro entry hentry other hother hrecorded hrecorded' hkind
      have hkept := hfaithful.kept other hother hrecorded'
      rw [← hkind] at hkept
      exact Option.some.inj ((hfaithful.kept entry hentry hrecorded).symm.trans hkept)
    · intro entry hentry
      rcases hfaithful.titles entry hentry with htitle | ⟨kind, hkind⟩
      · change (if info.title ≠ [] then some info.title else none) = _ at htitle
        by_cases hne : info.title ≠ []
        · rw [if_pos hne] at htitle
          obtain heq := Option.some.inj htitle
          exact ⟨heq ▸ hne, .inl heq.symm⟩
        · rw [if_neg hne] at htitle
          cases htitle
      · obtain ⟨other, hother, hrecorded, -, hvalue⟩ := recorded_of_get hkind
        exact ⟨hvalue ▸ hrecorded.2.2, .inr ⟨other, hother, hrecorded, hvalue⟩⟩
  · rintro ⟨hentitled, hagreed, hagreed'⟩
    have hkept : ∀ entry ∈ titleEntries info, Recorded entry →
        (extra info).get (titleKey (refined entry "title-type")) = some entry.value := by
      intro entry hentry hrecorded
      obtain ⟨value, hvalue⟩ := get_of_recorded hentry hrecorded
      obtain ⟨other, hother, hrecorded', hkind, rfl⟩ := recorded_of_get hvalue
      rw [hvalue, hentitled.one entry hentry other hother hrecorded hrecorded' hkind]
    refine ⟨?_, hroles.mpr hagreed, hsortNames.mpr hagreed', hkept⟩
    intro entry hentry
    obtain ⟨hne, htitle | ⟨other, hother, hrecorded, hvalue⟩⟩ := hentitled.stated entry hentry
    · refine .inl ?_
      rw [htitle] at hne ⊢
      exact if_pos hne
    · refine .inr ⟨refined other "title-type", ?_⟩
      rw [← hvalue]
      exact hkept other hother hrecorded

/-- An opening event that says nothing. -/
def blankInfo : EpubInfo where
  title := []
  creators := []
  contributors := []
  language := []
  identifiers := []
  uniqueIdentifier := []
  publisher := []
  description := []
  date := []
  subjects := []
  spineItemCount := 0
  opfHref := []
  epubVersion := []
  coverHref := []
  metadata := []
  modified := []
  navHref := []
  ncxHref := []

/-- One element, with what refines it. -/
def entryOf (element value : Str) (refinements : List (Str × Str)) : MetadataEntry where
  element := element
  value := value
  id := []
  scheme := []
  refinements := refinements.map fun refinement => ⟨refinement.1, refinement.2, []⟩

/-- A title, a subtitle, and an author. -/
def modest : EpubInfo :=
  { blankInfo with
    title := "Notes"
    metadata := [entryOf "title" "Notes" [],
      entryOf "title" "On the Engine" [("title-type", "sub")],
      entryOf "creator" "Ada" [("role", "aut")]] }

theorem modest_faithful : ∃ described, sourceMeta modest = .ok described ∧
    Faithful modest described := by
  refine ⟨_, rfl, (faithful_iff modest _ rfl).mpr ⟨⟨?_, ?_⟩, ?_, ?_⟩⟩
  · decide +kernel
  · decide +kernel
  · unfold Agreed
    decide +kernel
  · unfold Agreed
    decide +kernel

/-- The author drew the pictures too. -/
def busy : EpubInfo :=
  { modest with metadata := modest.metadata ++ [entryOf "contributor" "Ada" [("role", "ill")]] }

/-- The second role of a name takes the place of the first. -/
theorem author_lost : ∃ described, sourceMeta busy = .ok described ∧
    ¬ Faithful busy described := by
  refine ⟨_, rfl, fun hfaithful => ?_⟩
  have hkept := hfaithful.roles (entryOf "creator" "Ada" [("role", "aut")]) (by decide +kernel)
    "aut".toList (by decide +kernel)
  exact absurd hkept (by decide +kernel)

end Fold

end GrpcEpub
