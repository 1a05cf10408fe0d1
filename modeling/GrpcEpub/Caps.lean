/-
# `GrpcEpub.Caps` — what the caps on an outline cost

An outline is read up to so many entries and so many levels, and an entry without a
label is not kept.  What is lost with it is whatever stands under it: with the label
missing, or with the cap met before it closes, its children are dropped although they
were kept (`cap_keeps_counted`, `none_lost_under_unlabelled`).  A level too deep is not
an entry at all (`depth_loses_nothing`).

Each result is about documents in general, and a small document beside it shows that what it
excludes does happen.
-/
import GrpcEpub.Outlines

namespace GrpcEpub

namespace Nav

open Xml

variable {dialect : Dialect}

/-- What a parser returns for a document. -/
abbrev Source.parsed (source : Source dialect) (stop : XmlStop) (sourceHref : Str) : Navigation :=
  dialect.parse ⟨source.events, stop⟩ sourceHref

/-- How many entries the loop has counted when the document ends. -/
def Source.counted (source : Source dialect) (sourceHref : Str) : Nat :=
  (source.events.foldl (dialect.step (Href.parentDir sourceHref)) {}).entries

theorem counted_eq (source : Source dialect) (sourceHref : Str) :
    source.counted sourceHref = (source.outline (Href.parentDir sourceHref) maxDepth).spent
      Title.labelled maxEntries 0 := by
  obtain ⟨insideDepth, depth, hrun⟩ := foldl_source (Href.parentDir sourceHref) source
  unfold Source.counted
  rw [hrun]
  rfl

/-! ## The cap on entries

An entry counts when it is opened, and is attached when it is closed. -/

/-- As many entries as there is room for, and every entry that was counted. -/
theorem cap_keeps_counted (source : Source dialect) (stop : XmlStop) (sourceHref : Str)
    (hlabelled : ∀ title ∈ (source.entries sourceHref).listed, title.label ≠ [])
    (hnesting : source.nesting ≤ maxDepth) :
    ((source.parsed stop sourceHref).flatten.length =
        min (source.entries sourceHref).count maxEntries ∧
      (source.parsed stop sourceHref).flatten.length = source.counted sourceHref) ↔
      (source.entries sourceHref).count ≤ maxEntries ∨
        ∃ k, ((source.entries sourceHref).top k).count = maxEntries := by
  have hall : ∀ title ∈ (source.entries sourceHref).listed, title.labelled = true :=
    fun title htitle => bne_iff_ne.mpr (hlabelled title htitle)
  have hlength : (source.parsed stop sourceHref).flatten.length =
      ((source.entries sourceHref).kept Title.labelled maxEntries 0).count := by
    unfold Navigation.flatten
    rw [parse_source, nest, length_trees, Source.outline_of_room sourceHref hnesting]
  have hcounted : source.counted sourceHref =
      min (source.entries sourceHref).count maxEntries := by
    rw [counted_eq, Source.outline_of_room sourceHref hnesting,
      Hierarchy.spent_of_all hall (Nat.zero_le _), Nat.zero_add]
  rw [hcounted, and_self, hlength]
  exact Hierarchy.count_kept_iff hall (Nat.zero_le _)

theorem cap_keeps_counted_part :
    ((partAndChapter .ncx).parsed .eof "OEBPS/toc.ncx").flatten.length =
        min ((partAndChapter .ncx).entries "OEBPS/toc.ncx").count maxEntries ∧
      ((partAndChapter .ncx).parsed .eof "OEBPS/toc.ncx").flatten.length =
        (partAndChapter .ncx).counted "OEBPS/toc.ncx" :=
  (cap_keeps_counted (partAndChapter .ncx) .eof "OEBPS/toc.ncx" (by decide) (by decide)).mpr
    (.inl (by decide))

/-- So many items in a row. -/
def row (dialect : Dialect) : Nat → Content
  | 0 => .nil
  | n + 1 => dialect.item "a" .nil (row dialect n)

def rowEntries : Nat → Hierarchy Title
  | 0 => .nil
  | n + 1 => .entry ⟨"a", []⟩ .nil (rowEntries n)

theorem flow_row (dialect : Dialect) (n : Nat) : dialect.Flow (row dialect n) := by
  induction n with
  | zero => trivial
  | succ n ih => exact dialect.flow_item _ trivial ih

theorem own_row (baseDir : Str) (room n : Nat) (title : Title) :
    Dialect.navDocument.own baseDir (room + 1) (row .navDocument n) title = title := by
  induction n with
  | zero => rfl
  | succ n ih => exact (Dialect.own_item room _ _ title rfl).trans ih

theorem outline_row (baseDir : Str) (room n : Nat) :
    Dialect.navDocument.outline baseDir (room + 1) (row .navDocument n) = rowEntries n := by
  induction n with
  | zero => rfl
  | succ n ih =>
      rw [row, Dialect.item, Dialect.outline_item room _ _ rfl, ih]
      rfl

theorem nesting_row (dialect : Dialect) (n : Nat) : dialect.nesting (row dialect n) ≤ 1 := by
  induction n with
  | zero => exact Nat.zero_le 1
  | succ n ih =>
      rw [row, Dialect.nesting_items]
      exact max_le (Nat.le_refl 1) ih

theorem count_rowEntries (n : Nat) : (rowEntries n).count = n := by
  induction n with
  | zero => rfl
  | succ n ih =>
      rw [rowEntries, Hierarchy.count, ih, Hierarchy.count, Nat.zero_add, Nat.add_comm]

theorem listed_rowEntries (n : Nat) : ∀ title ∈ (rowEntries n).listed, title = ⟨"a", []⟩ := by
  induction n with
  | zero => exact fun _ htitle => nomatch htitle
  | succ n ih =>
      intro title htitle
      rw [rowEntries, Hierarchy.listed, List.mem_cons] at htitle
      exact htitle.elim id (ih title)

/-- A part with so many chapters under it. -/
def crowd (n : Nat) : Source .navDocument :=
  Dialect.navDocument.page (Dialect.navDocument.flow_item "a" (flow_row .navDocument n)
    Dialect.navDocument.flow_nil)

theorem nesting_crowd (n : Nat) : (crowd n).nesting ≤ maxDepth := by
  have hrow := nesting_row .navDocument n
  have hnesting : (crowd n).nesting =
      max (Dialect.navDocument.nesting (Dialect.navDocument.item "a" (row .navDocument n) .nil)) 0 := rfl
  rw [hnesting, Dialect.nesting_items, Dialect.nesting, maxDepth]
  omega

theorem entries_crowd (n : Nat) :
    (crowd n).entries "OEBPS/nav.xhtml" = .entry ⟨"a", []⟩ (rowEntries n) .nil := by
  have hlist : ¬ (Dialect.navDocument.isItem (plainTag "ol").localName = true ∧ 0 < 31) :=
    fun hin => Bool.false_ne_true hin.1
  have hbelow : Dialect.navDocument.outline (Href.parentDir "OEBPS/nav.xhtml") 31
      (.node (plainTag "span") (.leaf ⟨.text "a", rfl⟩ .nil)
        (.node (plainTag "ol") (row .navDocument n) .nil)) = rowEntries n := by
    rw [Dialect.outline_title _ _ _ rfl, Dialect.outline_plain _ _ _ hlist rfl, outline_row,
      Dialect.outline, Hierarchy.append_nil]
  have hown : Dialect.navDocument.own (Href.parentDir "OEBPS/nav.xhtml") 31
      (.node (plainTag "span") (.leaf ⟨.text "a", rfl⟩ .nil)
        (.node (plainTag "ol") (row .navDocument n) .nil)) .blank = ⟨"a", []⟩ := by
    rw [Dialect.own_title _ _ _ _ rfl, Dialect.own_plain _ _ _ _ hlist rfl, own_row]
    rfl
  have hcontents : (crowd n).contents = [Dialect.navDocument.item "a" (row .navDocument n) .nil] := rfl
  rw [← Source.outline_of_room _ (nesting_crowd n), Source.outline, hcontents, Dialect.outlines,
    Dialect.outlines, Hierarchy.append_nil, Dialect.item, maxDepth, Dialect.outline_item 31 _ _ rfl,
    hbelow, hown, Dialect.outline]

/-- The part does not fit any more when it closes, and takes with it every chapter. -/
theorem counted_discarded :
    (∀ title ∈ ((crowd maxEntries).entries "OEBPS/nav.xhtml").listed, title.label ≠ []) ∧
      (crowd maxEntries).nesting ≤ maxDepth ∧
      ((crowd maxEntries).parsed .eof "OEBPS/nav.xhtml").flatten.length ≠
        min ((crowd maxEntries).entries "OEBPS/nav.xhtml").count maxEntries := by
  have hrow : ∀ title ∈ (rowEntries maxEntries).listed, title.labelled = true :=
    fun title htitle => by
      rw [listed_rowEntries maxEntries title htitle]
      rfl
  have hover : maxEntries < 0 + (rowEntries maxEntries).count + 1 := by
    rw [count_rowEntries]
    omega
  refine ⟨?_, nesting_crowd maxEntries, ?_⟩
  · intro title htitle
    rw [entries_crowd, Hierarchy.listed, Hierarchy.listed, List.append_nil, List.mem_cons] at htitle
    obtain rfl : title = ⟨"a", []⟩ := htitle.elim id (listed_rowEntries maxEntries title)
    exact List.cons_ne_nil _ _
  · unfold Navigation.flatten
    rw [parse_source, nest, length_trees, Source.outline_of_room _ (nesting_crowd maxEntries),
      entries_crowd, Hierarchy.count_kept_entry hrow (Nat.zero_le _) hover, Hierarchy.count,
      Hierarchy.count, Hierarchy.count, count_rowEntries, maxEntries]
    omega

/-! ## Entries without a label

Such an entry is dropped when it is closed, with the children it has by then. -/

/-- The labels are those of the labelled items. -/
theorem none_lost_under_unlabelled (source : Source dialect) (stop : XmlStop) (sourceHref : Str)
    (hnesting : source.nesting ≤ maxDepth)
    (hcount : ((source.entries sourceHref).listed.filter Title.labelled).length ≤ maxEntries) :
    (source.parsed stop sourceHref).flatten.map NavPoint.label =
        ((source.entries sourceHref).listed.filter Title.labelled).map Title.label ↔
      (source.entries sourceHref).Upright Title.labelled := by
  have hlabels : (source.parsed stop sourceHref).flatten.map NavPoint.label =
      ((source.entries sourceHref).pruned Title.labelled).listed.map Title.label := by
    have htitles := walkAll_trees ((source.entries sourceHref).pruned Title.labelled) 0 []
    unfold Navigation.flatten
    rw [parse_source, Source.outline_of_room sourceHref hnesting,
      Hierarchy.kept_of_room ((Nat.zero_add _).le.trans hcount), nest]
    rw [List.map_nil, List.nil_append] at htitles
    rw [← htitles, List.map_map]
    rfl
  rw [hlabels, ← Hierarchy.listed_pruned_iff]
  constructor
  · intro heq
    have hlength := congrArg List.length heq
    rw [List.length_map, List.length_map] at hlength
    exact (Hierarchy.listed_pruned_sublist _ _).eq_of_length hlength
  · intro heq
    rw [heq]

theorem none_lost_under_unlabelled_part :
    ((partAndChapter .navDocument).parsed .eof "OEBPS/nav.xhtml").flatten.map NavPoint.label =
        (((partAndChapter .navDocument).entries "OEBPS/nav.xhtml").listed.filter Title.labelled).map
          Title.label :=
  (none_lost_under_unlabelled (partAndChapter .navDocument) .eof "OEBPS/nav.xhtml" (by decide)
    (by decide)).mpr (Hierarchy.upright_of_headed _ (by decide))

/-- A chapter under a part of blanks. -/
def untitledPart : Source .ncx :=
  Dialect.ncx.page (Dialect.ncx.flow_item " "
    (Dialect.ncx.flow_item "Chapter One" Dialect.ncx.flow_nil Dialect.ncx.flow_nil)
    Dialect.ncx.flow_nil)

/-- A part without a title, and the chapter in it that is lost with the part. -/
theorem lost_under_unlabelled : untitledPart.nesting ≤ maxDepth ∧
    ((untitledPart.entries "OEBPS/toc.ncx").listed.filter Title.labelled).length ≤ maxEntries ∧
    (untitledPart.parsed .eof "OEBPS/toc.ncx").flatten.map NavPoint.label ≠
      ((untitledPart.entries "OEBPS/toc.ncx").listed.filter Title.labelled).map Title.label := by
  decide

/-! ## The cap on levels

Past the last level no entry is opened, and what stands there is content of the last entry. -/

/-- Every entry is there, with its own label and link: those that are not too deep at their
place, and each deeper one at the deepest level or right under it. -/
def Source.DeepKept (source : Source dialect) (stop : XmlStop) (sourceHref : Str) : Prop :=
  (source.parsed stop sourceHref).toc =
      nest (trees ((source.entries sourceHref).under maxDepth)) ∨
    (source.parsed stop sourceHref).toc =
      nest (trees ((source.entries sourceHref).under (maxDepth - 1)))

theorem Source.DeepKept.length {source : Source dialect} {stop : XmlStop} {sourceHref : Str}
    (h : source.DeepKept stop sourceHref) :
    (source.parsed stop sourceHref).flatten.length = (source.entries sourceHref).count := by
  have hunder : ∀ k, (NavPoint.walkAll (nest (trees
      ((source.entries sourceHref).under k))) []).length = (source.entries sourceHref).count :=
    fun k => by
      rw [nest, length_trees, ← Hierarchy.length_listed, Hierarchy.listed_under,
        Hierarchy.length_listed]
  unfold Navigation.flatten
  rcases h with heq | heq
  · rw [heq, hunder]
  · rw [heq, hunder]

/-- No entry is lost by its depth exactly when none is deeper than the levels that are opened. -/
theorem depth_loses_nothing (source : Source dialect) (stop : XmlStop) (sourceHref : Str)
    (hlabelled : ∀ title ∈ (source.entries sourceHref).listed, title.label ≠ [])
    (hcount : (source.entries sourceHref).count ≤ maxEntries) :
    source.DeepKept stop sourceHref ↔ source.nesting ≤ maxDepth := by
  have hall : ∀ title ∈ (source.entries sourceHref).listed, title.labelled = true :=
    fun title htitle => bne_iff_ne.mpr (hlabelled title htitle)
  constructor
  · intro hkept
    have hlength := hkept.length
    rw [Navigation.flatten, parse_source, nest, length_trees] at hlength
    by_contra hdeep
    have hless : (source.outline (Href.parentDir sourceHref) maxDepth).count <
        (source.entries sourceHref).count :=
      Dialect.count_outlines_lt dialect (Nat.lt_of_not_le hdeep) (Nat.lt_of_not_le hdeep)
    exact absurd (Hierarchy.count_kept_le _) (Nat.not_le.mpr (hlength ▸ hless))
  · intro hnesting
    have hheight : (source.entries sourceHref).height = source.nesting :=
      Dialect.height_outlines dialect (Nat.le_refl _)
    left
    rw [parse_source, Source.outline_of_room sourceHref hnesting,
      Hierarchy.kept_eq_self hall (by omega), Hierarchy.under_of_height]
    exact hheight.le.trans hnesting

theorem depth_loses_nothing_part :
    (partAndChapter .navDocument).DeepKept .eof "OEBPS/nav.xhtml" :=
  (depth_loses_nothing (partAndChapter .navDocument) .eof "OEBPS/nav.xhtml" (by decide)
    (by decide)).mpr (by decide)

/-- So many items, each in the one before. -/
def nested (dialect : Dialect) : Nat → Content
  | 0 => .nil
  | n + 1 => dialect.item "a" (nested dialect n) .nil

theorem flow_nested (dialect : Dialect) (n : Nat) : dialect.Flow (nested dialect n) := by
  induction n with
  | zero => trivial
  | succ n ih => exact dialect.flow_item _ ih trivial

/-- One level too deep. -/
def tooDeep : Source .navDocument := Dialect.navDocument.page (flow_nested .navDocument 33)

/-- The entry one level too deep. -/
theorem deep_entry_lost :
    (∀ title ∈ (tooDeep.entries "OEBPS/nav.xhtml").listed, title.label ≠ []) ∧
      (tooDeep.entries "OEBPS/nav.xhtml").count ≤ maxEntries ∧
      ¬ tooDeep.DeepKept .eof "OEBPS/nav.xhtml" := by
  refine ⟨by decide +kernel, by decide +kernel, fun hkept => ?_⟩
  have hlength := hkept.length
  have hparsed : (tooDeep.parsed .eof "OEBPS/nav.xhtml").flatten.length = 32 := by decide +kernel
  have hentries : (tooDeep.entries "OEBPS/nav.xhtml").count = 33 := by decide +kernel
  omega

end Nav

end GrpcEpub
