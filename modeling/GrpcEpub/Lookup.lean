/-
# `GrpcEpub.Lookup` — the two maps of a book

`byId` finds the first manifest item with an id, and `index` an entry with a
name.  Both answer with positions that are in range, which is why none of the
driver's index expressions on them can panic.
-/
import GrpcEpub.Plan

namespace GrpcEpub

namespace Extract

/-! ## Manifest ids

The map is filled from the front and keeps what it has. -/

/-- By induction on the manifest: the first position of an id remains. -/
theorem get_foldl_orInsert (id : Str) (manifest : List ManifestItem) :
    ∀ (k : Nat) (m : HashMap Str Nat),
      ((manifest.zipIdx k).foldl (fun byId (item, position) => byId.orInsert item.id position)
        m).get id =
      (m.get id).or ((manifest.findIdx? (fun item => item.id == id)).map (· + k)) := by
  induction manifest with
  | nil => intro k m; simp
  | cons item rest ih =>
      intro k m
      rw [List.zipIdx_cons, List.foldl_cons, ih, HashMap.get_orInsert, List.findIdx?_cons]
      by_cases hid : item.id = id
      · cases hm : m.get id with
        | none => simp [hid, hm]
        | some p => simp [hid, hm]
      · have hne : ¬ id = item.id := fun h => hid h.symm
        simp only [hne, false_and, if_false, hid, beq_iff_eq, Option.map_map]
        congr 2
        funext p
        simp only [Function.comp_apply]
        omega

/-- The first item with an id keeps it. -/
theorem idPositions_get (manifest : List ManifestItem) (id : Str) :
    (idPositions manifest).get id = manifest.findIdx? (fun item => item.id == id) := by
  simpa [idPositions] using get_foldl_orInsert id manifest 0 ∅

/-! ## Entry names

This one is filled from the front as well and overwrites; a scan leaves no name twice. -/

/-- By induction on the entries: a position that is found is that of an entry with the name. -/
theorem get_foldl_insert (name : Str) (entries : List EntryInfo) :
    ∀ (k : Nat) (m : HashMap Str Nat) (p : Nat),
      ((entries.zipIdx k).foldl (fun index (entry, position) => index.insert entry.name position)
        m).get name = some p →
      m.get name = some p ∨ ∃ i, p = i + k ∧ ∃ entry, entries[i]? = some entry ∧
        entry.name = name := by
  induction entries with
  | nil => exact fun k m p h => .inl h
  | cons entry rest ih =>
      intro k m p h
      rw [List.zipIdx_cons, List.foldl_cons] at h
      rcases ih (k + 1) _ p h with h | ⟨i, hp, found, hfound, hname⟩
      · rw [HashMap.get_insert] at h
        split at h
        · rename_i hname
          exact .inr ⟨0, by simpa using h.symm, entry, rfl, hname.symm⟩
        · exact .inl h
      · exact .inr ⟨i + 1, by omega, found, by simpa using hfound, hname⟩

/-- What the index answers with is an entry of that name. -/
theorem indexOf_get {entries : List EntryInfo} {name : Str} {p : Nat}
    (h : (indexOf entries).get name = some p) :
    ∃ entry, entries[p]? = some entry ∧ entry.name = name := by
  rcases get_foldl_insert name entries 0 ∅ p h with h | ⟨i, hp, entry, hentry, hname⟩
  · simp at h
  · obtain rfl : p = i := by omega
    exact ⟨entry, hentry, hname⟩

/-- A name that is there is found. -/
theorem isSome_foldl_insert (name : Str) (items : List (EntryInfo × Nat)) :
    ∀ m : HashMap Str Nat, (m.get name).isSome ∨ (∃ item ∈ items, item.1.name = name) →
      ((items.foldl (fun index (entry, position) => index.insert entry.name position)
        m).get name).isSome := by
  induction items with
  | nil => intro m h; simpa using h
  | cons item rest ih =>
      intro m h
      refine ih _ ?_
      rw [HashMap.get_insert]
      split
      · exact .inl rfl
      · rename_i hne
        rcases h with h | ⟨found, hfound, hname⟩
        · exact .inl h
        · rcases List.mem_cons.mp hfound with rfl | hfound
          · exact absurd hname.symm hne
          · exact .inr ⟨found, hfound, hname⟩

/-- Every entry's name is answered. -/
theorem indexOf_isSome {entries : List EntryInfo} {entry : EntryInfo} (h : entry ∈ entries) :
    ((indexOf entries).get entry.name).isSome := by
  obtain ⟨i, hi⟩ := List.getElem?_of_mem h
  exact isSome_foldl_insert _ _ _
    (.inr ⟨(entry, i), List.mem_zipIdx_iff_getElem?.mpr hi, rfl⟩)

/-- With distinct names the index is the position. -/
theorem indexOf_of_nodup {entries : List EntryInfo} (hnodup : (entries.map (·.name)).Nodup)
    {p : Nat} {entry : EntryInfo} (h : entries[p]? = some entry) :
    (indexOf entries).get entry.name = some p := by
  obtain ⟨q, hq⟩ := Option.isSome_iff_exists.mp (indexOf_isSome (List.mem_of_getElem? h))
  obtain ⟨found, hfound, hname⟩ := indexOf_get hq
  have hp : (entries.map (·.name))[p]? = some entry.name := by simp [h]
  have hq' : (entries.map (·.name))[q]? = some entry.name := by simp [hfound, hname]
  obtain ⟨hlt, _⟩ := List.getElem?_eq_some_iff.mp hq'
  rw [hq, (List.getElem?_inj hlt hnodup).mp (hq'.trans hp.symm)]

end Extract

namespace Book

variable {book : Book}

@[simp] theorem length_resolved : book.resolved.length = book.package.manifest.length := by
  simp [resolved]

theorem nth_item {i : Nat} (h : i < book.resolved.length) :
    nth book.resolved i = .ok (book.item i) := by
  simp [nth, item, List.getD_eq_getElem?_getD, List.getElem?_eq_getElem h]

theorem byId_lt {id : Str} {p : Nat} (h : book.byId.get id = some p) :
    p < book.resolved.length := by
  rw [byId, Extract.idPositions_get] at h
  rw [length_resolved]
  exact (List.findIdx?_eq_some_iff_findIdx_eq.mp h).1

/-! ## The opening event

Sources of navigation are found through the two maps, so their positions are in range too. -/

/-- The navigation document is found, and is in the archive. -/
structure NavigationSource.Found (book : Book) (source : NavigationSource) : Prop where
  inRange : source.position < book.resolved.length
  entry : (book.item source.position).entry = some source.entry

theorem navDocument_ok (book : Book) : ∃ found, book.navDocument = .ok found ∧
    ∀ source ∈ found, source.Found book ∧ source.fromNcx = false := by
  unfold navDocument
  split
  · rename_i position h
    have hlt := (List.findIdx?_eq_some_iff_findIdx_eq.mp h).1
    rw [nth_item hlt]
    refine ⟨_, rfl, fun source hsource => ?_⟩
    obtain ⟨entry, hentry, rfl⟩ := Option.map_eq_some_iff.mp hsource
    exact ⟨⟨hlt, hentry⟩, rfl⟩
  · exact ⟨none, rfl, by simp⟩

theorem ncxDocument_ok (book : Book) : ∃ found, book.ncxDocument = .ok found ∧
    ∀ source ∈ found, source.Found book ∧ source.fromNcx = true := by
  unfold ncxDocument
  split
  · rename_i position h
    have hlt := byId_lt h
    rw [nth_item hlt]
    refine ⟨_, rfl, fun source hsource => ?_⟩
    obtain ⟨entry, hentry, rfl⟩ := Option.map_eq_some_iff.mp hsource
    exact ⟨⟨hlt, hentry⟩, rfl⟩
  · exact ⟨none, rfl, by simp⟩

theorem navigationSource_ok (book : Book) : ∃ found, book.navigationSource = .ok found ∧
    ∀ source ∈ found, source.Found book := by
  obtain ⟨nav, hnav, hfound⟩ := navDocument_ok book
  obtain ⟨ncx, hncx, hfound'⟩ := ncxDocument_ok book
  cases nav with
  | some source =>
      exact ⟨some source, by simp [navigationSource, hnav, bind, Except.bind, pure, Except.pure],
        fun s hs => (hfound s hs).1⟩
  | none =>
      exact ⟨ncx, by simp [navigationSource, hnav, hncx, bind, Except.bind],
        fun s hs => (hfound' s hs).1⟩

/-- The path a navigation source contributes to one of the two fields. -/
def navigationPath (book : Book) (source : Option NavigationSource) (fromNcx : Bool) : Str :=
  match source with
  | some source => if source.fromNcx = fromNcx then (book.item source.position).path else []
  | none => []

theorem navigationHref_ok {source : Option NavigationSource}
    (h : ∀ s ∈ source, s.Found book) (fromNcx : Bool) :
    book.navigationHref source fromNcx = .ok (book.navigationPath source fromNcx) := by
  unfold navigationHref navigationPath
  cases source with
  | none => rfl
  | some source =>
      simp only [nth_item (h source rfl).inRange]
      split <;> rfl

/-- The opening event goes out, whatever the book. -/
theorem info_ok {source : Option NavigationSource} (h : ∀ s ∈ source, s.Found book)
    (spine : List SpineEntry) : ∃ info, book.info spine source = .ok info ∧
      info.spineItemCount = saturating32 spine.length ∧ info.opfHref = book.opfPath ∧
      info.coverHref = book.cover ∧ info.navHref = book.navigationPath source false ∧
      info.ncxHref = book.navigationPath source true := by
  unfold info
  rw [navigationHref_ok h false, navigationHref_ok h true]
  exact ⟨_, rfl, rfl, rfl, rfl, rfl, rfl⟩

end Book

end GrpcEpub
