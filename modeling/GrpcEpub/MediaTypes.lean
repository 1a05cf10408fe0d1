/-
# `GrpcEpub.MediaTypes` — how a media type may be spelled

Case, the whitespace around a media type and its parameters are noise.  Three of the four
questions asked of one see only its base type, which none of these changes.  The fourth, whether
an item is another archive, is asked of the whole text: a parameter hides an archive whose path
does not give it away (`noise_free_iff`), and hidden it is sent like any other resource.
-/
import Mathlib.Data.List.TakeWhile
import GrpcEpub.Safety
import GrpcEpub.Sketch

namespace GrpcEpub

namespace Str

/-! ## Trimming

Whitespace is trimmed in either case of the letters between. -/

variable {s w : Str}

/-- A whitespace character is no letter. -/
theorem toLower_of_isWhitespace {c : Char} (h : isWhitespace c = true) : c.toLower = c := by
  unfold Char.toLower
  split
  · rename_i hupper
    have hlow : 65 ≤ c.toNat := UInt32.le_iff_toNat_le.mp hupper.1
    have hhigh : c.toNat ≤ 90 := UInt32.le_iff_toNat_le.mp hupper.2
    simp only [isWhitespace, Bool.or_eq_true, Bool.and_eq_true, decide_eq_true_eq, beq_iff_eq] at h
    omega
  · rfl

theorem isWhitespace_lower (c : Char) : isWhitespace c.toLower = isWhitespace c := by
  cases h : isWhitespace c with
  | true => rw [toLower_of_isWhitespace h, h]
  | false => exact isWhitespace_toLower h

theorem toAsciiLowercase_trim (s : Str) :
    toAsciiLowercase s.trim = trim (toAsciiLowercase s) := by
  have hsame : isWhitespace ∘ Char.toLower = isWhitespace := funext isWhitespace_lower
  unfold toAsciiLowercase trim
  rw [List.dropWhile_map, hsame, ← List.map_reverse, List.dropWhile_map, hsame, List.map_reverse]

/-- Dropping whitespace in front leaves the trimmed text and whitespace behind it. -/
theorem dropWhile_eq_trim_append (s : Str) :
    ∃ w, (∀ c ∈ w, isWhitespace c = true) ∧ s.dropWhile isWhitespace = s.trim ++ w := by
  refine ⟨((s.dropWhile isWhitespace).reverse.takeWhile isWhitespace).reverse, ?_, ?_⟩
  · intro c hc
    exact List.mem_takeWhile_imp (List.mem_reverse.mp hc)
  · rw [trim, ← List.reverse_append, List.takeWhile_append_dropWhile, List.reverse_reverse]

theorem trim_append_whitespace (hw : ∀ c ∈ w, isWhitespace c = true) (s : Str) :
    trim (s ++ w) = trim s := by
  have hw' : ∀ c ∈ w.reverse, isWhitespace c = true := fun c hc => hw c (List.mem_reverse.mp hc)
  unfold trim
  rw [List.dropWhile_append]
  split
  · rename_i hempty
    rw [List.isEmpty_iff.mp hempty, List.dropWhile_eq_nil_iff.mpr hw]
  · rw [List.reverse_append, List.dropWhile_append_of_pos hw']

theorem trim_whitespace_append (hw : ∀ c ∈ w, isWhitespace c = true) (s : Str) :
    trim (w ++ s) = trim s := by
  unfold trim
  rw [List.dropWhile_append_of_pos hw]

/-- A mark that is not whitespace stays, with all that is in front of it. -/
theorem trim_append_mark {mark : Char} (hmark : isWhitespace mark = false) (s text : Str) :
    ∃ text', trim (s ++ mark :: text) = s.dropWhile isWhitespace ++ mark :: text' := by
  have hfront : (s ++ mark :: text).dropWhile isWhitespace =
      s.dropWhile isWhitespace ++ mark :: text := by
    rw [List.dropWhile_append, List.dropWhile_cons_of_neg (by simp [hmark])]
    split
    · rename_i hempty
      rw [List.isEmpty_iff.mp hempty, List.nil_append]
    · rfl
  refine ⟨(text.reverse.dropWhile isWhitespace).reverse, ?_⟩
  unfold trim
  rw [hfront, List.reverse_append, List.reverse_cons, List.append_assoc, List.dropWhile_append]
  split
  · rename_i hempty
    rw [List.isEmpty_iff.mp hempty, List.singleton_append,
      List.dropWhile_cons_of_neg (by simp [hmark]), List.reverse_cons, List.reverse_reverse]
    rfl
  · rw [List.reverse_append, List.singleton_append, List.reverse_cons, List.reverse_reverse,
      List.append_assoc]
    rfl

/-! ## What is in front of a mark

The base type is what stands in front of the first semicolon. -/

theorem before_append_mark (mark : Char) (s text : Str) :
    (s ++ mark :: text).before mark = s.before mark := by
  unfold before
  rw [List.takeWhile_append]
  split
  · rw [List.takeWhile_cons_of_neg (by simp), List.append_nil]
    rename_i hall
    exact ((List.takeWhile_prefix _).eq_of_length hall).symm
  · rfl

/-- Whitespace behind a text makes no difference to what is in front of a mark in it. -/
theorem trim_before_append {mark : Char} (hmark : isWhitespace mark = false)
    (hw : ∀ c ∈ w, isWhitespace c = true) (s : Str) :
    trim ((s ++ w).before mark) = trim (s.before mark) := by
  have hwhole : w.before mark = w :=
    before_of_not_mem fun hin => Bool.false_ne_true (hmark.symm.trans (hw mark hin))
  unfold before at hwhole ⊢
  rw [List.takeWhile_append]
  split
  · rename_i hall
    rw [hwhole, trim_append_whitespace hw,
      (List.takeWhile_prefix _).eq_of_length hall]
  · rfl

end Str

/-! ## Spellings

`Respelled` is the noise: case, whitespace and parameters. -/

/-- The same media type, spelled another way. -/
inductive Respelled : Str → Str → Prop
  | recased {m m' : Str} : m'.toAsciiLowercase = m.toAsciiLowercase → Respelled m m'
  | padded {m lead trail : Str} : (∀ c ∈ lead, Str.isWhitespace c = true) →
      (∀ c ∈ trail, Str.isWhitespace c = true) → Respelled m (lead ++ m ++ trail)
  | parameter {m space : Str} (text : Str) : (∀ c ∈ space, Str.isWhitespace c = true) →
      Respelled m (m ++ space ++ ';' :: text)

namespace Extract

variable {m m' path : Str}

/-- The media type in lower case, parameters included. -/
def wholeType (mediaType : Str) : Str := mediaType.trim.toAsciiLowercase

theorem wholeType_eq (mediaType : Str) : wholeType mediaType = mediaType.toAsciiLowercase.trim :=
  Str.toAsciiLowercase_trim mediaType

theorem baseType_eq (mediaType : Str) :
    baseType mediaType = ((wholeType mediaType).before ';').trim := rfl

theorem toAsciiLowercase_whitespace {space : Str} (h : ∀ c ∈ space, Str.isWhitespace c = true) :
    space.toAsciiLowercase = space := by
  calc space.toAsciiLowercase
      = space.map id := List.map_congr_left fun c hc => Str.toLower_of_isWhitespace (h c hc)
    _ = space := List.map_id space

/-- With a parameter, the text up to the mark is what is in front of the parameter. -/
theorem wholeType_parameter {space : Str} (text : Str)
    (hspace : ∀ c ∈ space, Str.isWhitespace c = true) : ∃ w text',
      (∀ c ∈ w, Str.isWhitespace c = true) ∧
        wholeType (m ++ space ++ ';' :: text) = wholeType m ++ w ++ ';' :: text' := by
  have hlower : Str.toAsciiLowercase (m ++ space ++ ';' :: text) =
      m.toAsciiLowercase ++ space ++ ';' :: text.toAsciiLowercase := by
    unfold Str.toAsciiLowercase
    rw [List.map_append, List.map_append]
    exact congrArg (fun s => m.map Char.toLower ++ s ++ _) (toAsciiLowercase_whitespace hspace)
  obtain ⟨text', htext⟩ := @Str.trim_append_mark ';' (by decide)
    (m.toAsciiLowercase ++ space) text.toAsciiLowercase
  obtain ⟨w, hw, hdrop⟩ := Str.dropWhile_eq_trim_append (m.toAsciiLowercase ++ space)
  refine ⟨w, text', hw, ?_⟩
  rw [wholeType_eq, hlower, htext, hdrop, Str.trim_append_whitespace hspace, wholeType_eq]

/-- What is left of a media type without its parameters does not depend on how it is spelled. -/
theorem baseType_respelled (h : Respelled m m') : baseType m' = baseType m := by
  cases h with
  | recased hcase =>
      rw [baseType_eq, baseType_eq, wholeType_eq, wholeType_eq, hcase]
  | padded hlead htrail =>
      rw [baseType_eq, baseType_eq, wholeType, wholeType, Str.trim_append_whitespace htrail,
        Str.trim_whitespace_append hlead]
  | parameter text hspace =>
      obtain ⟨w, text', hw, heq⟩ := wholeType_parameter text hspace
      rw [baseType_eq, baseType_eq, heq, Str.before_append_mark,
        Str.trim_before_append (by decide) hw]

/-- The three questions that look at the base type. -/
theorem classify_respelled (h : Respelled m m') : classify m' = classify m := by
  unfold classify
  rw [baseType_respelled h]

theorem isMarkup_respelled (h : Respelled m m') : isMarkup m' = isMarkup m := by
  unfold isMarkup
  rw [baseType_respelled h]

theorem isImage_respelled (h : Respelled m m') : Fold.isImage m' = Fold.isImage m := by
  rw [Bool.eq_iff_iff, isImage_iff_classify, isImage_iff_classify, classify_respelled h]

/-! ## Archives

`is_nested_archive` compares the type as it was written, or looks at the path. -/

/-- The media types of archives. -/
def archiveTypes : List Str :=
  ["application/zip", "application/epub+zip", "application/x-zip-compressed"]

/-- A path with the name of an archive. -/
def namesArchive (path : Str) : Bool :=
  (extension path.toAsciiLowercase).any fun ext =>
    ext.eqIgnoreAsciiCase "zip" || ext.eqIgnoreAsciiCase "epub"

theorem isNestedArchive_iff : isNestedArchive m path = true ↔
    wholeType m ∈ archiveTypes ∨ namesArchive path = true := by
  unfold isNestedArchive
  rw [Bool.or_eq_true, decide_eq_true_iff]
  rfl

/-- The two that the format itself has. -/
def zipTypes : List Str := ["application/zip", "application/epub+zip"]

/-- Without a parameter an archive's type is its base type. -/
theorem baseType_of_archive (h : wholeType m ∈ archiveTypes) : baseType m = wholeType m := by
  have hwhole : ∀ t ∈ archiveTypes, (t.before ';').trim = t := by decide +kernel
  rw [baseType_eq, hwhole _ h]

theorem archiveTypes_cases {s : Str} (h : s ∈ archiveTypes) :
    s ∈ zipTypes ∨ s = "application/x-zip-compressed" := by
  simpa [archiveTypes, zipTypes, or_assoc] using h

theorem mark_not_mem_archiveTypes {s : Str} (h : ';' ∈ s) : s ∉ archiveTypes := by
  have hplain : ∀ t ∈ archiveTypes, ';' ∉ t := by decide +kernel
  exact fun hmem => hplain s hmem h

/-- An archive is recognised by the whole of its media type, so only a parameter can hide it. -/
theorem wholeType_respelled (h : Respelled m m') (hplain : wholeType m ∉ archiveTypes) :
    wholeType m' ∉ archiveTypes := by
  cases h with
  | recased hcase => rwa [wholeType_eq, hcase, ← wholeType_eq]
  | padded hlead htrail =>
      rwa [wholeType, Str.trim_append_whitespace htrail, Str.trim_whitespace_append hlead,
        ← wholeType]
  | parameter text hspace =>
      obtain ⟨w, text', -, heq⟩ := wholeType_parameter text hspace
      rw [heq]
      exact mark_not_mem_archiveTypes (List.mem_append_right _ List.mem_cons_self)

/-- While the text of the media type decides nothing, no spelling of it does. -/
theorem isNestedArchive_respelled (h : Respelled m m')
    (hfree : wholeType m ∉ archiveTypes ∨ namesArchive path = true) :
    (wholeType m' ∉ archiveTypes ∨ namesArchive path = true) ∧
      isNestedArchive m' path = isNestedArchive m path := by
  have hsame : wholeType m' ∈ archiveTypes ∨ namesArchive path = true ↔
      wholeType m ∈ archiveTypes ∨ namesArchive path = true := by
    rcases hfree with hplain | hname
    · exact or_congr_left (iff_of_false (wholeType_respelled h hplain) hplain)
    · exact iff_of_true (.inr hname) (.inr hname)
  refine ⟨hfree.imp_left (wholeType_respelled h), ?_⟩
  rw [Bool.eq_iff_iff, isNestedArchive_iff, isNestedArchive_iff, hsame]

/-- Nor does any number of changes, one after another. -/
theorem isNestedArchive_spelled {spelled : Str}
    (h : Relation.ReflTransGen Respelled m spelled)
    (hfree : wholeType m ∉ archiveTypes ∨ namesArchive path = true) :
    (wholeType spelled ∉ archiveTypes ∨ namesArchive path = true) ∧
      isNestedArchive spelled path = isNestedArchive m path := by
  induction h with
  | refl => exact ⟨hfree, rfl⟩
  | tail _ hstep ih =>
      obtain ⟨hstays, hsame⟩ := isNestedArchive_respelled hstep ih.1
      exact ⟨hstays, hsame.trans ih.2⟩

/-- What one change of the spelling keeps, any number of them keeps. -/
theorem eq_of_respelled {β : Type} {f : Str → β}
    (hf : ∀ {m m' : Str}, Respelled m m' → f m' = f m) {spelled : Str}
    (h : Relation.ReflTransGen Respelled m spelled) : f spelled = f m := by
  induction h with
  | refl => rfl
  | tail _ hstep ih => exact (hf hstep).trans ih

end Extract

/-! ## What is sent

A media type that hides its archive, and a walk that sends it. -/

/-- Nothing is sent as a resource that is taken for an archive. -/
theorem resource_not_nested (π : Projection) (crates : Crates) (limits : Effective) (bytes : Bytes)
    (client : Nat → Bool) {sent : Delivery π.Document} {resource : Resource}
    (hsent : sent ∈ (run π crates limits bytes client).2.sent)
    (hresource : sent.event = .resource resource) :
    Extract.isNestedArchive resource.mediaType resource.href = false := by
  rcases run_spec (π := π) client with hrefused | ⟨archive, book, spine, status, h⟩
  · rw [hrefused.sent] at hsent
    exact absurd hsent List.not_mem_nil
  · have hcarried : sent ∈ carried (response π crates limits bytes archive book spine status) := by
      refine List.mem_filter.mpr ⟨h.sent.subset hsent, ?_⟩
      rw [hresource]
      rfl
    rw [carried_response] at hcarried
    obtain ⟨item, hitem, hdelivery⟩ := List.mem_map.mp hcarried
    rw [← hdelivery] at hresource
    cases item with
    | inl pending =>
        obtain rfl := Event.resource.inj hresource
        exact (qualifies_of_mem hitem).2.notNested
    | inr visit => cases hresource

/-- Spelling is noise: no change of it changes an answer.  An archive of one of the two types,
with its parameters cut off, is recognised however that is spelled, and is not sent. -/
structure NoiseFree (mediaType path : Str) : Prop where
  classified : ∀ spelled, Relation.ReflTransGen Respelled mediaType spelled →
    Extract.classify spelled = Extract.classify mediaType
  markup : ∀ spelled, Relation.ReflTransGen Respelled mediaType spelled →
    Extract.isMarkup spelled = Extract.isMarkup mediaType
  nested : ∀ spelled, Relation.ReflTransGen Respelled mediaType spelled →
    Extract.isNestedArchive spelled path = Extract.isNestedArchive mediaType path
  image : ∀ spelled, Relation.ReflTransGen Respelled mediaType spelled →
    Fold.isImage spelled = Fold.isImage mediaType
  recognized : Extract.baseType mediaType ∈ Extract.zipTypes →
    ∀ spelled, Relation.ReflTransGen Respelled mediaType spelled →
      Extract.isNestedArchive spelled path = true
  withheld : Extract.baseType mediaType ∈ Extract.zipTypes →
    ∀ spelled, Relation.ReflTransGen Respelled mediaType spelled →
      ∀ (π : Projection) (crates : Crates) (limits : Effective) (bytes : Bytes)
        (client : Nat → Bool), ∀ sent ∈ (run π crates limits bytes client).2.sent,
        ∀ resource, sent.event = .resource resource → resource.href = path →
          resource.mediaType ≠ spelled

/-- An empty parameter is enough to hide what its path does not give away. -/
theorem exists_hidden (mediaType : Str) {path : Str} (h : Extract.namesArchive path ≠ true) :
    ∃ spelled, Respelled mediaType spelled ∧ Extract.isNestedArchive spelled path ≠ true := by
  refine ⟨mediaType ++ [] ++ ';' :: [], .parameter [] (List.forall_mem_nil _), fun hnested => ?_⟩
  obtain ⟨w, text, -, heq⟩ := @Extract.wholeType_parameter mediaType [] [] (List.forall_mem_nil _)
  refine (Extract.isNestedArchive_iff.mp hnested).elim ?_ h
  rw [heq]
  exact Extract.mark_not_mem_archiveTypes (List.mem_append_right _ List.mem_cons_self)

/-- Noise decides nothing when the base type is no archive's, or when the path names an archive
anyway. -/
theorem noise_free_iff (mediaType path : Str) : NoiseFree mediaType path ↔
    Extract.baseType mediaType ∉ Extract.zipTypes ∧
        Extract.wholeType mediaType ≠ "application/x-zip-compressed" ∨
      Extract.namesArchive path = true := by
  constructor
  · intro h
    by_cases hname : Extract.namesArchive path = true
    · exact .inr hname
    · obtain ⟨spelled, hspelled, hhidden⟩ := exists_hidden mediaType hname
      refine .inl ⟨fun hzip => hhidden (h.recognized hzip _ (.single hspelled)), fun hwhole => ?_⟩
      have harchive : Extract.wholeType mediaType ∈ Extract.archiveTypes := by
        rw [hwhole]
        decide +kernel
      exact hhidden ((h.nested _ (.single hspelled)).trans
        (Extract.isNestedArchive_iff.mpr (.inl harchive)))
  · intro hfree
    have hplain : Extract.wholeType mediaType ∉ Extract.archiveTypes ∨
        Extract.namesArchive path = true := by
      refine hfree.imp_left fun hboth hwhole => ?_
      rcases Extract.archiveTypes_cases hwhole with hzip | hcompressed
      · exact hboth.1 (Extract.baseType_of_archive hwhole ▸ hzip)
      · exact hboth.2 hcompressed
    have hnested : Extract.baseType mediaType ∈ Extract.zipTypes → ∀ spelled,
        Extract.isNestedArchive spelled path = true := fun hzip _ =>
      Extract.isNestedArchive_iff.mpr (.inr (hfree.resolve_left fun hboth => hboth.1 hzip))
    refine ⟨fun _ => Extract.eq_of_respelled Extract.classify_respelled,
      fun _ => Extract.eq_of_respelled Extract.isMarkup_respelled,
      fun _ hspelled => (Extract.isNestedArchive_spelled hspelled hplain).2,
      fun _ => Extract.eq_of_respelled Extract.isImage_respelled,
      fun hzip spelled _ => hnested hzip spelled, ?_⟩
    intro hzip spelled _ π crates limits bytes client sent hsent resource hresource hhref
    rintro rfl
    have harchive := hnested hzip resource.mediaType
    rw [← hhref] at harchive
    exact Bool.false_ne_true
      ((resource_not_nested π crates limits bytes client hsent hresource).symm.trans harchive)

/-- A book with an archive in it, whose media type has a parameter. -/
def Sample.bundling : Sample.Source where
  files := [Sample.file "a.xhtml" [10], Sample.file "bundle.dat" [7]]
  manifest := [Sample.chapterItem "a" "a.xhtml",
    { id := "b", href := "bundle.dat", mediaType := "application/zip; version=2" }]
  spine := ["a".toList]

/-- A parameter is enough for the archive to be sent. -/
theorem parameter_hides_archive : Extract.isNestedArchive "application/zip" "bundle.dat" = true ∧
    Extract.baseType "application/zip; version=2" ∈ Extract.zipTypes ∧
    Extract.isNestedArchive "application/zip; version=2" "bundle.dat" = false ∧
    ("bundle.dat".toList, [7]) ∈ (run Sample.counting Sample.bundling.crates Sample.whole
      Sample.bundling.bytes Sample.patient).2.sent.filterMap (fun sent => sent.event.file) ∧
    ¬ NoiseFree "application/zip; version=2" "bundle.dat" := by
  have hzip : Extract.baseType "application/zip; version=2" ∈ Extract.zipTypes := by
    decide +kernel
  have hhidden : Extract.isNestedArchive "application/zip; version=2" "bundle.dat" = false := by
    decide +kernel
  refine ⟨by decide +kernel, hzip, hhidden, by decide +kernel, fun h => ?_⟩
  exact Bool.false_ne_true (hhidden.symm.trans (h.recognized hzip _ .refl))

end GrpcEpub
