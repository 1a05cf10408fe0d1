/-
# `GrpcEpub.Outlines` — documents that hold an outline

A document is the elements that hold an outline, a `nav` or a `navMap`, and what
stands around them, of which nothing is read.  A parser returns the entries of all of
them, one behind the other, as far as they are kept (`parse_source`).

A navigation document may hold several `nav` elements of the kind, and an NCX several `navMap`s.
Each is a section with content that flows, with other events around it that open no outline
(`Foreign`).  The loop reads their outlines one after the other into one list of roots, under one
cap (`foldl_source`), so a parser returns the outline of the contents together (`parse_source`).
-/
import GrpcEpub.Branches

namespace GrpcEpub

namespace Nav

open Xml

/-! ## Around an outline

Two loops are named: one that is inside an outline with these roots finished (`within`), and one
that is behind it (`behind`).  Foreign events move the depth and nothing else. -/

namespace Loop

/-- The loop just inside an outline. -/
def within (finished : List NavPoint) (n depth : Nat) : Loop :=
  { inside := true, insideDepth := depth, depth, roots := finished, entries := n }

theorem within_between (finished : List NavPoint) (n depth : Nat) : (within finished n depth).Between :=
  ⟨rfl, rfl, rfl, Nat.le_refl _, fun _ htop => nomatch htop⟩

theorem within_received (finished : List NavPoint) (n depth : Nat) (title : Title)
    (below : Hierarchy Title) : (within finished n depth).received title below =
      within (finished ++ trees (below.kept Title.labelled maxEntries n))
        (below.spent Title.labelled maxEntries n) depth := by
  have hle : n ≤ below.spent Title.labelled maxEntries n := below.le_spent
  have hsum : n + (below.spent Title.labelled maxEntries n - n) =
      below.spent Title.labelled maxEntries n := by omega
  unfold received
  rw [write_nil rfl]
  change within (finished ++ trees (below.kept Title.labelled maxEntries n))
    (n + (below.spent Title.labelled maxEntries n - n)) depth = _
  rw [hsum]

theorem closeLevel_within (finished : List NavPoint) (n depth : Nat) :
    (within finished n depth).closeLevel = behind finished n depth (depth - 1) := by
  simp [within, closeLevel, behind]

theorem behind_outside (finished : List NavPoint) (n insideDepth depth : Nat) :
    (behind finished n insideDepth depth).Outside := ⟨rfl, rfl, rfl⟩

end Loop

namespace Dialect

variable (baseDir : Str) (dialect : Dialect)

/-- Nothing here opens an outline. -/
def Foreign (events : List XmlEvent) : Prop := ∀ tag : Tag, .start tag ∈ events → ¬ dialect.Opens tag

/-- How deep the items of a document nest. -/
def nestingAll : List Content → Nat
  | [] => 0
  | content :: rest => max (dialect.nesting content) (nestingAll rest)

/-- The entries of a document, when there is room for so many levels. -/
def outlines (room : Nat) : List Content → Hierarchy Title
  | [] => .nil
  | content :: rest => (dialect.outline baseDir room content).append (outlines room rest)

section Room

variable {baseDir} {room room' : Nat} {contents : List Content}

theorem outlines_of_room (h : dialect.nestingAll contents ≤ room)
    (h' : dialect.nestingAll contents ≤ room') :
    dialect.outlines baseDir room contents = dialect.outlines baseDir room' contents := by
  induction contents with
  | nil => rfl
  | cons content rest ih =>
      have hcontent := max_le_iff.mp h
      have hcontent' := max_le_iff.mp h'
      rw [outlines, outlines, outline_of_room dialect hcontent.1 hcontent'.1, ih hcontent.2 hcontent'.2]

theorem height_outlines (h : dialect.nestingAll contents ≤ room) :
    (dialect.outlines baseDir room contents).height = dialect.nestingAll contents := by
  induction contents with
  | nil => rfl
  | cons content rest ih =>
      have hcontent := max_le_iff.mp h
      rw [outlines, Hierarchy.height_append, height_outline dialect hcontent.1, ih hcontent.2]
      rfl

theorem count_outlines_le (h : room ≤ room') :
    (dialect.outlines baseDir room contents).count ≤ (dialect.outlines baseDir room' contents).count := by
  induction contents with
  | nil => exact Nat.le_refl 0
  | cons content rest ih =>
      rw [outlines, outlines, Hierarchy.count_append, Hierarchy.count_append]
      exact Nat.add_le_add (count_outline dialect h).1 ih

/-- An item for which there is no room is an entry less. -/
theorem count_outlines_lt (h : room < room') (hover : room < dialect.nestingAll contents) :
    (dialect.outlines baseDir room contents).count < (dialect.outlines baseDir room' contents).count := by
  induction contents with
  | nil => exact absurd hover (Nat.not_lt_zero _)
  | cons content rest ih =>
      rw [outlines, outlines, Hierarchy.count_append, Hierarchy.count_append]
      rcases lt_max_iff.mp hover with hcontent | hrest
      · exact Nat.add_lt_add_of_lt_of_le ((count_outline dialect h.le).2 h hcontent)
          (count_outlines_le dialect h.le)
      · exact Nat.add_lt_add_of_le_of_lt (count_outline dialect h.le).1 (ih hrest)

end Room

variable {baseDir dialect}

theorem step_opens {tag : Tag} (h : dialect.Opens tag) (finished : List NavPoint)
    (n insideDepth depth : Nat) :
    dialect.step baseDir (.behind finished n insideDepth depth) (.start tag) =
      .within finished n (depth + 1) := by
  cases dialect with
  | navDocument =>
      unfold step navStep navStart
      dsimp only
      rw [if_pos ⟨h.name, rfl⟩, if_pos h.kind]
      rfl
  | ncx => exact if_pos h

/-- What is foreign leaves the roots and the counter alone. -/
theorem foldl_foreign (baseDir : Str) {around : List XmlEvent} (h : dialect.Foreign around)
    (finished : List NavPoint) (n insideDepth depth : Nat) :
    ∃ depth', around.foldl (dialect.step baseDir) (.behind finished n insideDepth depth) =
      .behind finished n insideDepth depth' := by
  refine foldl_outside (fun loop hloop event hevent => ?_)
    (Loop.behind_outside finished n insideDepth depth)
  cases dialect with
  | navDocument => exact navStep_outside hloop event fun tag htag => h tag (htag ▸ hevent)
  | ncx => exact ncxStep_outside hloop event fun tag htag => h tag (htag ▸ hevent)

end Dialect

/-- An element that holds an outline, and what stands in front of it. -/
structure Section (dialect : Dialect) where
  around : List XmlEvent
  tag : Tag
  content : Content
  foreign : dialect.Foreign around
  opens : dialect.Opens tag
  flow : dialect.Flow content

/-- A document, with all that it holds of outlines. -/
structure Source (dialect : Dialect) where
  sections : List (Section dialect)
  rest : List XmlEvent
  foreign : dialect.Foreign rest

variable {dialect : Dialect}

def Section.events (part : Section dialect) : List XmlEvent :=
  part.around ++ element part.tag (Nav.events part.content)

def sectionEvents : List (Section dialect) → List XmlEvent
  | [] => []
  | part :: parts => part.events ++ sectionEvents parts

namespace Source

def events (source : Source dialect) : List XmlEvent :=
  sectionEvents source.sections ++ source.rest

def contents (source : Source dialect) : List Content := source.sections.map Section.content

/-- How deep the items nest. -/
def nesting (source : Source dialect) : Nat := dialect.nestingAll source.contents

/-- The entries, when there is room for so many levels. -/
def outline (baseDir : Str) (room : Nat) (source : Source dialect) : Hierarchy Title :=
  dialect.outlines baseDir room source.contents

/-- The entries: every item is one. -/
def entries (sourceHref : Str) (source : Source dialect) : Hierarchy Title :=
  source.outline (Href.parentDir sourceHref) source.nesting

theorem outline_of_room {source : Source dialect} (sourceHref : Str) (h : source.nesting ≤ maxDepth) :
    source.outline (Href.parentDir sourceHref) maxDepth = source.entries sourceHref :=
  Dialect.outlines_of_room dialect h (Nat.le_refl _)

end Source

/-! ## What a parser returns

The roots are renumbered and wrapped; the title of the table comes from elsewhere. -/

/-- An element with an outline, behind what is in front of it. -/
theorem foldl_section (baseDir : Str) (part : Section dialect) (finished : List NavPoint)
    (n insideDepth depth : Nat) :
    ∃ insideDepth' depth', part.events.foldl (dialect.step baseDir)
      (.behind finished n insideDepth depth) = .behind (finished ++
          trees ((dialect.outline baseDir maxDepth part.content).kept Title.labelled maxEntries n))
        ((dialect.outline baseDir maxDepth part.content).spent Title.labelled maxEntries n)
        insideDepth' depth' := by
  obtain ⟨depth', hfront⟩ := Dialect.foldl_foreign baseDir part.foreign finished n insideDepth depth
  have hbetween := Loop.within_between finished n (depth' + 1)
  refine ⟨depth' + 1, depth', ?_⟩
  rw [Section.events, List.foldl_append, hfront, element, List.foldl_cons, Dialect.step_opens part.opens,
    List.foldl_append, Dialect.foldl_content dialect part.flow hbetween (Nat.zero_add maxDepth),
    List.foldl_cons, List.foldl_nil, Dialect.step_end_between dialect (hbetween.received _ _),
    Loop.within_received, Loop.closeLevel_within, Nat.add_sub_cancel]

/-- One section after another, each into the roots that the ones before have left. -/
theorem foldl_sections (baseDir : Str) (parts : List (Section dialect)) :
    ∀ (finished : List NavPoint) (n insideDepth depth : Nat),
      ∃ insideDepth' depth', (sectionEvents parts).foldl (dialect.step baseDir)
        (.behind finished n insideDepth depth) = .behind (finished ++
            trees ((dialect.outlines baseDir maxDepth (parts.map Section.content)).kept
              Title.labelled maxEntries n))
          ((dialect.outlines baseDir maxDepth (parts.map Section.content)).spent
            Title.labelled maxEntries n) insideDepth' depth' := by
  induction parts with
  | nil =>
      intro finished n insideDepth depth
      refine ⟨insideDepth, depth, ?_⟩
      rw [List.map_nil, Dialect.outlines, Hierarchy.kept, Hierarchy.spent, trees, List.append_nil]
      rfl
  | cons part parts ih =>
      intro finished n insideDepth depth
      obtain ⟨insideDepth', depth', hfirst⟩ := foldl_section baseDir part finished n insideDepth depth
      obtain ⟨insideDepth'', depth'', hrest⟩ := ih _ _ insideDepth' depth'
      refine ⟨insideDepth'', depth'', ?_⟩
      rw [sectionEvents, List.foldl_append, hfirst, hrest, List.map_cons, Dialect.outlines,
        Hierarchy.kept_append, trees_append, Hierarchy.spent_append, List.append_assoc]

/-- The loop behind the outlines of a document. -/
theorem foldl_outlines (baseDir : Str) (source : Source dialect) :
    ∃ insideDepth depth, (sectionEvents source.sections).foldl (dialect.step baseDir) {} = .behind
      (trees ((source.outline baseDir maxDepth).kept Title.labelled maxEntries 0))
      ((source.outline baseDir maxDepth).spent Title.labelled maxEntries 0) insideDepth depth :=
  foldl_sections baseDir source.sections [] 0 0 0

/-- The loop at the end of a document. -/
theorem foldl_source (baseDir : Str) (source : Source dialect) :
    ∃ insideDepth depth, source.events.foldl (dialect.step baseDir) {} = .behind
      (trees ((source.outline baseDir maxDepth).kept Title.labelled maxEntries 0))
      ((source.outline baseDir maxDepth).spent Title.labelled maxEntries 0) insideDepth depth := by
  obtain ⟨insideDepth, depth, hsections⟩ := foldl_outlines baseDir source
  obtain ⟨depth', hrest⟩ := Dialect.foldl_foreign baseDir source.foreign _ _ insideDepth depth
  refine ⟨insideDepth, depth', ?_⟩
  rw [Source.events, List.foldl_append, hsections]
  exact hrest

/-- Nothing is open behind the outlines, and what they hold is returned. -/
theorem parse_behind {events : List XmlEvent} {sourceHref : Str} {finished : List NavPoint}
    {n insideDepth depth : Nat}
    (h : events.foldl (dialect.step (Href.parentDir sourceHref)) {} =
      .behind finished n insideDepth depth) (stop : XmlStop) :
    (dialect.parse ⟨events, stop⟩ sourceHref).toc = nest finished := by
  cases dialect with
  | navDocument =>
      change nest (flush none (events.foldl (navStep (Href.parentDir sourceHref)) {}).stack
        (events.foldl (navStep (Href.parentDir sourceHref)) {}).roots) = _
      rw [show events.foldl (navStep (Href.parentDir sourceHref)) {} = _ from h]
      exact congrArg nest (List.append_nil _)
  | ncx =>
      change nest (events.foldl (ncxStep (Href.parentDir sourceHref)) {}).roots = _
      rw [show events.foldl (ncxStep (Href.parentDir sourceHref)) {} = _ from h]
      rfl

/-- What a parser returns for a document. -/
theorem parse_source (source : Source dialect) (stop : XmlStop) (sourceHref : Str) :
    (dialect.parse ⟨source.events, stop⟩ sourceHref).toc = nest (trees
      ((source.outline (Href.parentDir sourceHref) maxDepth).kept Title.labelled maxEntries 0)) := by
  obtain ⟨insideDepth, depth, hrun⟩ := foldl_source (Href.parentDir sourceHref) source
  exact parse_behind hrun stop

namespace Dialect

/-! ## Plain items

A small vocabulary for documents: an item with a label, an element that holds an outline, a page
around it.  The documents of the counterexamples are written with it. -/

section Plain

variable (dialect)

/-- An item with its title, and the items under it. -/
def item (label : Str) (below rest : Content) : Content :=
  match dialect with
  | navDocument =>
      .node (plainTag "li") (.node (plainTag "span") (.leaf ⟨.text label, rfl⟩ .nil)
        (.node (plainTag "ol") below .nil)) rest
  | ncx =>
      .node (plainTag "navPoint") (.node (plainTag "navLabel")
        (.node (plainTag "text") (.leaf ⟨.text label, rfl⟩ .nil) .nil) below) rest

theorem nesting_items (label : Str) (below rest : Content) :
    dialect.nesting (dialect.item label below rest) =
      max (dialect.nesting below + 1) (dialect.nesting rest) := by
  cases dialect with
  | navDocument =>
      rw [item, nesting_item _ _ rfl, nesting_title _ _ rfl,
        nesting_plain _ _ rfl rfl, nesting, Nat.max_zero]
  | ncx =>
      rw [item, nesting_item _ _ rfl, nesting_plain _ _ rfl rfl, nesting_title _ _ rfl, nesting,
        Nat.zero_max]

/-- The element that holds an outline. -/
def holder : Dialect → Tag
  | navDocument => plainTag "nav"
  | ncx => plainTag "navMap"

theorem holder_opens : dialect.Opens dialect.holder := by
  cases dialect with
  | navDocument => exact ⟨rfl, .inl rfl⟩
  | ncx => rfl

theorem foreign_nil : dialect.Foreign [] := fun _ htag => nomatch htag

/-- A document of nothing but its outline. -/
def page {content : Content} (flow : dialect.Flow content) : Source dialect where
  sections := [⟨[], dialect.holder, content, dialect.foreign_nil, dialect.holder_opens, flow⟩]
  rest := []
  foreign := dialect.foreign_nil

theorem flow_nil : dialect.Flow .nil := trivial

theorem flow_item {below rest : Content} (label : Str) (hbelow : dialect.Flow below)
    (hrest : dialect.Flow rest) : dialect.Flow (dialect.item label below rest) := by
  cases dialect with
  | navDocument => exact ⟨rfl, ⟨rfl, trivial, rfl, hbelow, trivial⟩, hrest⟩
  | ncx => exact ⟨rfl, ⟨rfl, ⟨rfl, trivial, trivial⟩, hbelow⟩, hrest⟩

end Plain

end Dialect

/-- A part with a chapter under it. -/
def partAndChapter (dialect : Dialect) : Source dialect :=
  dialect.page (dialect.flow_item "Part One"
    (dialect.flow_item "Chapter One" dialect.flow_nil dialect.flow_nil) dialect.flow_nil)

end Nav

end GrpcEpub
