/-
# `GrpcEpub.Titles` — what an entry is called

The label of an entry is read from its title: the `Text` events between two tags.  A
title holds more than these, since the reader hands over every reference and every
CDATA section as an event of its own (`spelled`), and what is left out changes the label
unless it is all blanks between words (`labels_complete`).

In a navigation document a title may hold another.  The inner one takes the label and
the link of the entry, and what is left of the outer one is not read: the entry is named
by the first title that holds none itself and is not blank (`first_title_wins`).

`marks` spells a title out character by character, each with whether a `Text` event brought it;
`heard` is what the loop puts together of them.  So both are one list, and the comparison of
their words is a fact about lists in which some members are left out (`Words.words_read_iff`).
For titles in titles `writer` finds the element that ends first with a label in it, going through
the content in the order of its end tags, and `own` is what that element wrote.
-/
import GrpcEpub.Outlines
import GrpcEpub.Lib.Words

namespace GrpcEpub

namespace Nav

open Xml

/-! ## What a title says

The collapsed text of a label is its words with single blanks between them, so two labels agree
when their words do (`collapse_eq_iff`). -/

/-- The text of an element, by the policy for text in the package document. -/
def accumulate (text : Str) : XmlEvent → Str
  | .text content => text ++ content
  | .cData content => text ++ content
  | .generalRef reference => pushRef text reference
  | _ => text

/-- All that content says. -/
def spelled (content : Content) : Str := (events content).foldl accumulate []

/-- The characters of an event, and whether a label takes them in. -/
def eventMarks : XmlEvent → List (Char × Bool)
  | .text content => content.map (·, true)
  | .cData content => content.map (·, false)
  | .generalRef reference => (pushRef [] reference).map (·, false)
  | _ => []

def marks : Content → List (Char × Bool)
  | .nil => []
  | .leaf a rest => eventMarks a.event ++ marks rest
  | .node _ body rest => marks body ++ marks rest

/-- What a label takes in of content. -/
def heard (content : Content) : Str := Words.read (marks content)

theorem accumulate_append (text : Str) (event : XmlEvent) :
    accumulate text event = text ++ (eventMarks event).map Prod.fst := by
  cases event with
  | text content => simp [accumulate, eventMarks, Function.comp_def]
  | cData content => simp [accumulate, eventMarks, Function.comp_def]
  | generalRef reference =>
      rw [accumulate, pushRef_append]
      simp [eventMarks, Function.comp_def]
  | start | endTag | empty | docType | other => exact (List.append_nil _).symm

/-- What is written of content is all of its marks. -/
theorem foldl_accumulate (content : Content) (text : Str) :
    (events content).foldl accumulate text = text ++ (marks content).map Prod.fst := by
  induction content generalizing text with
  | nil => exact (List.append_nil _).symm
  | leaf a rest ih =>
      unfold events at ih ⊢
      rw [Nested.foldl_spell_leaf, ih]
      change accumulate text a.event ++ _ = _
      rw [accumulate_append, marks, List.map_append, List.append_assoc]
  | node tag body rest ihbody ihrest =>
      unfold events at ihbody ihrest ⊢
      rw [Nested.foldl_spell_node, ihrest]
      change (body.spell markup).foldl accumulate text ++ _ = _
      rw [ihbody, marks, List.map_append, List.append_assoc]

theorem spelled_eq (content : Content) : spelled content = (marks content).map Prod.fst :=
  foldl_accumulate content []

theorem heard_leaf (a : Leaf) (rest : Content) :
    heard (.leaf a rest) = Words.read (eventMarks a.event) ++ heard rest :=
  Words.read_append _ _

theorem heard_node (tag : Tag) (body rest : Content) :
    heard (.node tag body rest) = heard body ++ heard rest := Words.read_append _ _

theorem collapse_eq_iff (text text' : Str) :
    collapse text = collapse text' ↔ text.splitWhitespace = text'.splitWhitespace := by
  refine ⟨fun heq => ?_, congrArg _⟩
  have hwords : ∀ text : Str, (collapse text).splitWhitespace = text.splitWhitespace := fun text =>
    Words.words_intercalate (by decide) fun _ => Words.mem_words
  rw [← hwords text, heq, hwords]

/-- A label is complete where nothing is missing but blanks between words. -/
theorem collapse_heard_iff (content : Content) :
    collapse (heard content) = collapse (spelled content) ↔
      Words.Seamless Str.isWhitespace (marks content) := by
  rw [collapse_eq_iff, spelled_eq, heard]
  exact Words.words_read_iff

namespace Dialect

variable (baseDir : Str) (dialect : Dialect)

/-! ## Titles and items

The titles that stand in an item itself, outside the items in it, and the items of an outline. -/

/-- No title in it. -/
def untitled : Content → Bool
  | .nil => true
  | .leaf _ rest => untitled rest
  | .node tag body rest => !dialect.isTitle tag.localName && untitled body && untitled rest

/-- The titles of the entry that content stands in. -/
def titles : Nat → Content → List (Tag × Content)
  | _, .nil => []
  | room, .leaf _ rest => titles room rest
  | room, .node tag body rest =>
      if dialect.isItem tag.localName ∧ 0 < room then titles room rest
      else if dialect.isTitle tag.localName then (tag, body) :: titles room rest
      else titles room body ++ titles room rest

/-- An entry as it is written: what it holds, and the room there is for entries under it. -/
structure Item where
  room : Nat
  body : Content

/-- What the loop makes of it. -/
def Item.title (item : Item) : Title := dialect.own baseDir item.room item.body .blank

/-- The entries in content, as they are written. -/
def items : Nat → Content → Hierarchy Item
  | _, .nil => .nil
  | room, .leaf _ rest => items room rest
  | room, .node tag body rest =>
      if dialect.isItem tag.localName ∧ 0 < room then
        .entry ⟨room - 1, body⟩ (items (room - 1) body) (items room rest)
      else if dialect.isTitle tag.localName then items room rest
      else (items room body).append (items room rest)

/-- The outline is that of the items, each under its title. -/
theorem outline_eq_map (room : Nat) (content : Content) : dialect.outline baseDir room content =
    (dialect.items room content).map (Item.title baseDir dialect) := by
  induction content generalizing room with
  | nil => rfl
  | leaf a rest ih => exact ih room
  | node tag body rest ihbody ihrest =>
      rw [outline, items]
      split
      · rw [Hierarchy.map, ← ihbody, ← ihrest]
        rfl
      · split
        · exact ihrest room
        · rw [Hierarchy.map_append, ← ihbody, ← ihrest]

/-! ## A title without titles in it

Over such a title the pen gathers what is heard and finishes with it. -/

theorem ncx_ne : ncx ≠ navDocument := by decide

variable {baseDir} {dialect}

/-- What an event writes while a label is read, when it begins and ends no title. -/
theorem note_untitled {event : XmlEvent} {title : Title} {written : Str}
    (hstart : ∀ tag, event = .start tag → dialect.isTitle tag.localName = false)
    (hend : ∀ name, event = .endTag name → dialect.isTitle (localName name) = false) :
    ∃ href, dialect.note baseDir ⟨title, true, written⟩ event =
        ⟨⟨title.label, href⟩, true, written ++ Words.read (eventMarks event)⟩ ∧
      (dialect = navDocument → href = title.href) := by
  cases event with
  | start tag =>
      have htag := hstart tag rfl
      cases dialect with
      | navDocument =>
          refine ⟨title.href, ?_, fun _ => rfl⟩
          rw [note, begins, if_neg fun hin => Bool.false_ne_true (htag.symm.trans hin.1)]
          exact congrArg _ (List.append_nil _).symm
      -- `content` may stand here too, and sets the link
      | ncx =>
          rw [note, begins, if_neg fun hin => Bool.false_ne_true (htag.symm.trans hin)]
          by_cases hcontent : tag.localName = "content".toList
          · refine ⟨pointed baseDir tag "src", ?_, fun hnav => absurd hnav ncx_ne⟩
            rw [if_pos hcontent]
            exact congrArg _ (List.append_nil _).symm
          · refine ⟨title.href, ?_, fun _ => rfl⟩
            rw [if_neg hcontent]
            exact congrArg _ (List.append_nil _).symm
  | endTag name =>
      refine ⟨title.href, ?_, fun _ => rfl⟩
      rw [note, ends.eq_def, if_neg fun hin => Bool.false_ne_true ((hend name rfl).symm.trans hin.2)]
      exact congrArg _ (List.append_nil _).symm
  | empty tag =>
      cases dialect with
      | navDocument => exact ⟨title.href, congrArg _ (List.append_nil _).symm, fun _ => rfl⟩
      | ncx =>
          rw [note, hollow]
          by_cases hcontent : tag.localName = "content".toList
          · refine ⟨pointed baseDir tag "src", ?_, fun hnav => absurd hnav ncx_ne⟩
            rw [if_pos hcontent]
            exact congrArg _ (List.append_nil _).symm
          · refine ⟨title.href, ?_, fun _ => rfl⟩
            rw [if_neg hcontent]
            exact congrArg _ (List.append_nil _).symm
  | text content =>
      refine ⟨title.href, ?_, fun _ => rfl⟩
      rw [eventMarks, Words.read_all]
      rfl
  | cData content =>
      refine ⟨title.href, ?_, fun _ => rfl⟩
      rw [eventMarks, Words.read_none, List.append_nil]
      rfl
  | generalRef reference =>
      refine ⟨title.href, ?_, fun _ => rfl⟩
      rw [eventMarks, Words.read_none, List.append_nil]
      rfl
  | docType | other => exact ⟨title.href, congrArg _ (List.append_nil _).symm, fun _ => rfl⟩

/-- Over content without titles the pen goes on as it was, but for the link of an NCX. -/
theorem foldl_untitled {content : Content} (h : dialect.untitled content = true) (title : Title)
    (written : Str) :
    ∃ href, (events content).foldl (dialect.note baseDir) ⟨title, true, written⟩ =
        ⟨⟨title.label, href⟩, true, written ++ heard content⟩ ∧
      (dialect = navDocument → href = title.href) := by
  induction content generalizing title written with
  | nil =>
      refine ⟨title.href, ?_, fun _ => rfl⟩
      exact congrArg (Pen.mk title true) (List.append_nil written).symm
  | leaf a rest ih =>
      obtain ⟨event, hflat⟩ := a
      obtain ⟨href₁, hnote, h₁⟩ := @note_untitled baseDir dialect event title written
        (fun tag heq => by rw [heq] at hflat; cases hflat)
        (fun name heq => by rw [heq] at hflat; cases hflat)
      obtain ⟨href₂, hrest, h₂⟩ := ih h ⟨title.label, href₁⟩
        (written ++ Words.read (eventMarks event))
      refine ⟨href₂, ?_, fun hnav => (h₂ hnav).trans (h₁ hnav)⟩
      unfold events at hrest ⊢
      rw [Nested.foldl_spell_leaf, heard_leaf, ← List.append_assoc]
      change (rest.spell markup).foldl _ (dialect.note baseDir _ event) = _
      rw [hnote]
      exact hrest
  | node tag body rest ihbody ihrest =>
      rw [untitled, Bool.and_eq_true, Bool.and_eq_true, Bool.not_eq_true'] at h
      obtain ⟨⟨htag, hbody⟩, hrest⟩ := h
      -- the start tag, the body, the end tag and the rest, each with the link that it leaves
      obtain ⟨href₁, hstart, h₁⟩ := @note_untitled baseDir dialect (.start tag) title written
        (fun tag' heq => XmlEvent.start.inj heq ▸ htag) (fun name heq => XmlEvent.noConfusion heq)
      obtain ⟨href₂, hinner, h₂⟩ := ihbody hbody ⟨title.label, href₁⟩ (written ++ [])
      obtain ⟨href₃, hend, h₃⟩ := @note_untitled baseDir dialect (.endTag tag.name)
        ⟨title.label, href₂⟩ (written ++ [] ++ heard body) (fun tag' heq => XmlEvent.noConfusion heq)
        (fun name heq => XmlEvent.endTag.inj heq ▸ htag)
      obtain ⟨href₄, hbehind, h₄⟩ := ihrest hrest ⟨title.label, href₃⟩
        (written ++ [] ++ heard body ++ [])
      refine ⟨href₄, ?_, fun hnav =>
        (h₄ hnav).trans ((h₃ hnav).trans ((h₂ hnav).trans (h₁ hnav)))⟩
      unfold events at hinner hbehind ⊢
      rw [Nested.foldl_spell_node]
      change (rest.spell markup).foldl _ (dialect.note baseDir ((body.spell markup).foldl _
        (dialect.note baseDir _ (.start tag))) (.endTag tag.name)) = _
      rw [hstart]
      change (rest.spell markup).foldl _ (dialect.note baseDir
        ((body.spell markup).foldl (dialect.note baseDir)
          ⟨⟨title.label, href₁⟩, true, written ++ []⟩) (.endTag tag.name)) = _
      rw [hinner, hend]
      change (rest.spell markup).foldl (dialect.note baseDir) ⟨⟨title.label, href₃⟩, true,
        written ++ [] ++ heard body ++ []⟩ = _
      rw [hbehind, heard_node, List.append_nil, List.append_nil, List.append_assoc]

/-- What begins with no label of its own takes the one it is given. -/
theorem titled_untitled {tag : Tag} {inner : Content} {title : Title}
    (htag : dialect.isTitle tag.localName = true) (hinner : dialect.untitled inner = true)
    (hlabel : title.label = []) :
    ∃ href, dialect.titled baseDir tag inner title = ⟨collapse (heard inner), href⟩ ∧
      (dialect = navDocument → href = pointed baseDir tag "href") := by
  have htag' : dialect.isTitle (localName tag.name) = true := htag
  obtain ⟨label, href⟩ := title
  obtain rfl : label = [] := hlabel
  unfold titled
  cases dialect with
  | navDocument =>
      have hbegins : begins baseDir navDocument tag (.resting ⟨[], href⟩) =
          ⟨⟨[], pointed baseDir tag "href"⟩, true, []⟩ := by
        rw [begins, if_pos ⟨htag, rfl⟩]
        rfl
      obtain ⟨href', hrun, hhref⟩ := @foldl_untitled baseDir navDocument inner hinner
        ⟨[], pointed baseDir tag "href"⟩ []
      refine ⟨href', ?_, hhref⟩
      rw [hbegins, hrun, note, ends.eq_def, if_pos ⟨rfl, htag'⟩]
      rfl
  | ncx =>
      have hbegins : begins baseDir ncx tag (.resting ⟨[], href⟩) = ⟨⟨[], href⟩, true, []⟩ := by
        rw [begins, if_pos htag]
        rfl
      obtain ⟨href', hrun, -⟩ := @foldl_untitled baseDir ncx inner hinner ⟨[], href⟩ []
      refine ⟨href', ?_, fun hnav => absurd hnav ncx_ne⟩
      rw [hbegins, hrun, note, ends.eq_def, if_pos ⟨rfl, htag'⟩]
      rfl

/-! ## The title of an item

With one title in it, an item is named by that title; whatever else stands in the item may move
the link in an NCX, but not the label. -/

/-- At rest a leaf leaves the label alone, and in the navigation document the link as well. -/
theorem note_leaf (a : Leaf) (title : Title) :
    ∃ href, (dialect.note baseDir (.resting title) a.event).title = ⟨title.label, href⟩ ∧
      (dialect = navDocument → href = title.href) := by
  obtain ⟨event, hflat⟩ := a
  cases event with
  | start tag => cases hflat
  | endTag name => cases hflat
  | empty tag =>
      cases dialect with
      | navDocument => exact ⟨title.href, rfl, fun _ => rfl⟩
      | ncx =>
          change ∃ href, (hollow baseDir ncx tag (.resting title)).title = _ ∧ _
          rw [hollow]
          by_cases hcontent : tag.localName = "content".toList
          · rw [if_pos hcontent]
            exact ⟨_, rfl, fun hnav => absurd hnav ncx_ne⟩
          · rw [if_neg hcontent]
            exact ⟨title.href, rfl, fun _ => rfl⟩
  | text | docType | cData | generalRef | other => exact ⟨title.href, rfl, fun _ => rfl⟩

/-- An element that is no title leaves the label alone. -/
theorem begins_plain {tag : Tag} (htag : dialect.isTitle tag.localName = false) (title : Title) :
    ∃ href, (dialect.begins baseDir tag (.resting title)).title = ⟨title.label, href⟩ ∧
      (dialect = navDocument → href = title.href) := by
  cases dialect with
  | navDocument =>
      rw [begins, if_neg fun hin => Bool.false_ne_true (htag.symm.trans hin.1)]
      exact ⟨title.href, rfl, fun _ => rfl⟩
  | ncx =>
      rw [begins, if_neg fun hin => Bool.false_ne_true (htag.symm.trans hin)]
      by_cases hcontent : tag.localName = "content".toList
      · rw [if_pos hcontent]
        exact ⟨_, rfl, fun hnav => absurd hnav ncx_ne⟩
      · rw [if_neg hcontent]
        exact ⟨title.href, rfl, fun _ => rfl⟩

/-- Without a title there is no label. -/
theorem own_untitled {room : Nat} {content : Content} (h : dialect.titles room content = [])
    (title : Title) :
    ∃ href, dialect.own baseDir room content title = ⟨title.label, href⟩ ∧
      (dialect = navDocument → href = title.href) := by
  induction content generalizing title with
  | nil => exact ⟨title.href, rfl, fun _ => rfl⟩
  | leaf a rest ih =>
      obtain ⟨href₁, hnote, h₁⟩ := @note_leaf baseDir dialect a title
      obtain ⟨href₂, hrest, h₂⟩ := ih h ⟨title.label, href₁⟩
      refine ⟨href₂, ?_, fun hnav => (h₂ hnav).trans (h₁ hnav)⟩
      rw [own, hnote, hrest]
  | node tag body rest ihbody ihrest =>
      rw [titles] at h
      rw [own]
      by_cases hitem : dialect.isItem tag.localName = true ∧ 0 < room
      · rw [if_pos hitem] at h ⊢
        exact ihrest h title
      · rw [if_neg hitem] at h ⊢
        cases htitle : dialect.isTitle tag.localName with
        | true =>
            rw [if_pos htitle] at h
            cases h
        | false =>
            rw [htitle, if_neg Bool.false_ne_true, List.append_eq_nil_iff] at h
            rw [if_neg Bool.false_ne_true]
            obtain ⟨href₁, hbegins, h₁⟩ := @begins_plain baseDir dialect tag htitle title
            obtain ⟨href₂, hbody, h₂⟩ := ihbody h.1 ⟨title.label, href₁⟩
            obtain ⟨href₃, hrest, h₃⟩ := ihrest h.2 ⟨title.label, href₂⟩
            refine ⟨href₃, ?_, fun hnav => (h₃ hnav).trans ((h₂ hnav).trans (h₁ hnav))⟩
            rw [hbegins, hbody, hrest]

/-! ## An entry with a label

In a navigation document no event changes an entry that has its label, so the first one stays.
In an NCX a further text may be read, and is dropped at its end. -/

/-- A label that has been written stays, and in the navigation document so does everything else. -/
theorem note_named {pen : Pen} (hlabel : pen.title.label ≠ [])
    (hquiet : dialect = navDocument → pen.reading = false) (event : XmlEvent) :
    (dialect.note baseDir pen event).title.label = pen.title.label ∧
      (dialect = navDocument → dialect.note baseDir pen event = pen) := by
  obtain ⟨title, reading, written⟩ := pen
  cases dialect with
  | navDocument =>
      obtain rfl : reading = false := hquiet rfl
      have hnote : navDocument.note baseDir ⟨title, false, written⟩ event =
          ⟨title, false, written⟩ := by
        cases event with
        | start tag => exact if_neg fun hin => hlabel hin.2
        | endTag name => rw [note, ends.eq_def, if_neg fun hin => Bool.false_ne_true hin.1]
        | text | empty | docType | cData | generalRef | other => rfl
      rw [hnote]
      exact ⟨rfl, fun _ => rfl⟩
  | ncx =>
      refine ⟨?_, fun hnav => absurd hnav ncx_ne⟩
      cases event with
      | start tag =>
          rw [note, begins]
          split_ifs <;> rfl
      | endTag name =>
          rw [note, ends.eq_def]
          split_ifs <;> rfl
      | empty tag =>
          rw [note, hollow]
          split_ifs <;> rfl
      | text content => cases reading <;> rfl
      | docType | cData | generalRef | other => rfl

/-- By induction on the events. -/
theorem foldl_named (written : List XmlEvent) {pen : Pen} (hlabel : pen.title.label ≠ [])
    (hquiet : dialect = navDocument → pen.reading = false) :
    (written.foldl (dialect.note baseDir) pen).title.label = pen.title.label ∧
      (dialect = navDocument → written.foldl (dialect.note baseDir) pen = pen) := by
  induction written generalizing pen with
  | nil => exact ⟨rfl, fun _ => rfl⟩
  | cons event rest ih =>
      obtain ⟨hnote, hsame⟩ := @note_named baseDir dialect pen hlabel hquiet event
      have hlabel' : (dialect.note baseDir pen event).title.label ≠ [] := by rwa [hnote]
      obtain ⟨hrest, hrest'⟩ := ih hlabel' fun hnav => by
        rw [hsame hnav]
        exact hquiet hnav
      refine ⟨hrest.trans hnote, fun hnav => ?_⟩
      rw [List.foldl_cons, hrest' hnav, hsame hnav]

theorem titled_named {tag : Tag} {body : Content} {title : Title} (hlabel : title.label ≠ []) :
    (dialect.titled baseDir tag body title).label = title.label ∧
      (dialect = navDocument → dialect.titled baseDir tag body title = title) := by
  have hrun := @foldl_named baseDir dialect (.start tag :: (events body ++ [.endTag tag.name]))
    (.resting title) hlabel fun _ => rfl
  rw [List.foldl_cons, List.foldl_append] at hrun
  exact ⟨hrun.1, fun hnav => congrArg Pen.title (hrun.2 hnav)⟩

/-- A label once given stays, and in a navigation document the link does too. -/
theorem own_named {room : Nat} (content : Content) {title : Title} (hlabel : title.label ≠ []) :
    (dialect.own baseDir room content title).label = title.label ∧
      (dialect = navDocument → dialect.own baseDir room content title = title) := by
  induction content generalizing room title with
  | nil => exact ⟨rfl, fun _ => rfl⟩
  | leaf a rest ih =>
      obtain ⟨hnote, hsame⟩ := @note_named baseDir dialect (.resting title) hlabel (fun _ => rfl) a.event
      have hrest := @ih room _ (by rwa [hnote])
      refine ⟨hrest.1.trans hnote, fun hnav => (hrest.2 hnav).trans ?_⟩
      rw [hsame hnav]
      rfl
  | node tag body rest ihbody ihrest =>
      rw [own]
      split
      · exact ihrest hlabel
      · split
        · obtain ⟨htitled, hsame⟩ := @titled_named baseDir dialect tag body title hlabel
          have hrest := @ihrest room _ (by rwa [htitled])
          exact ⟨hrest.1.trans htitled, fun hnav => (hrest.2 hnav).trans (hsame hnav)⟩
        · obtain ⟨hbegins, hsame⟩ := @note_named baseDir dialect (.resting title) hlabel
            (fun _ => rfl) (.start tag)
          have hbegins' : (dialect.begins baseDir tag (.resting title)).title.label = title.label :=
            hbegins
          have hbody := @ihbody room _ (by rwa [hbegins'])
          have hrest := @ihrest room _ (by rwa [hbody.1, hbegins'])
          refine ⟨hrest.1.trans (hbody.1.trans hbegins'), fun hnav =>
            (hrest.2 hnav).trans ((hbody.2 hnav).trans ?_)⟩
          exact congrArg Pen.title (hsame hnav)

/-- What follows a label leaves it alone. -/
theorem own_kept {room : Nat} {content : Content} {title : Title}
    (h : dialect.titles room content = [] ∨ title.label ≠ []) :
    (dialect.own baseDir room content title).label = title.label := by
  rcases h with hnone | hlabel
  · obtain ⟨href, hown, -⟩ := @own_untitled baseDir dialect room content hnone title
    rw [hown]
  · exact (own_named content hlabel).1

/-- The first title gives the label, when it has one to give or there is no other. -/
theorem own_first {room : Nat} {content inner : Content} {tag : Tag} {others : List (Tag × Content)}
    (h : dialect.titles room content = (tag, inner) :: others) (hinner : dialect.untitled inner = true)
    (hothers : others = [] ∨ collapse (heard inner) ≠ []) {title : Title} (hlabel : title.label = []) :
    (dialect.own baseDir room content title).label = collapse (heard inner) := by
  induction content generalizing title others with
  | nil => cases h
  | leaf a rest ih =>
      obtain ⟨href, hnote, -⟩ := @note_leaf baseDir dialect a title
      rw [own, hnote]
      exact ih h hothers hlabel
  | node tag' body rest ihbody ihrest =>
      rw [titles] at h
      rw [own]
      by_cases hitem : dialect.isItem tag'.localName = true ∧ 0 < room
      · rw [if_pos hitem] at h ⊢
        exact ihrest h hothers hlabel
      · rw [if_neg hitem] at h ⊢
        cases htitle : dialect.isTitle tag'.localName with
        | true =>
            rw [if_pos htitle] at h
            rw [if_pos rfl]
            obtain ⟨heq, hrest⟩ := List.cons.inj h
            obtain ⟨rfl, rfl⟩ := Prod.mk.inj heq
            obtain ⟨href, htitled, -⟩ := @titled_untitled baseDir dialect tag' body title htitle hinner
              hlabel
            rw [own_kept (by rwa [hrest, htitled]), htitled]
        | false =>
            rw [htitle, if_neg Bool.false_ne_true] at h
            rw [if_neg Bool.false_ne_true]
            obtain ⟨href, hbegins, -⟩ := @begins_plain baseDir dialect tag' htitle title
            rw [hbegins]
            rcases List.append_eq_cons_iff.mp h with ⟨hbody, hrest⟩ | ⟨inBody, hbody, hsplit⟩
            · obtain ⟨href', hown, -⟩ := @own_untitled baseDir dialect room body hbody
                ⟨title.label, href⟩
              rw [hown]
              exact ihrest hrest hothers hlabel
            · -- The title stands in the body, and nothing behind it changes the label.
              subst hsplit
              have hinBody : inBody = [] ∨ collapse (heard inner) ≠ [] :=
                hothers.imp_left fun hnone => (List.append_eq_nil_iff.mp hnone).1
              have hown := @ihbody _ hbody hinBody ⟨title.label, href⟩ hlabel
              have hrest : dialect.titles room rest = [] ∨ collapse (heard inner) ≠ [] :=
                hothers.imp_left fun hnone => (List.append_eq_nil_iff.mp hnone).2
              rw [own_kept (by rwa [hown]), hown]

end Dialect

/-! ## Labels

From single items to whole documents: every item of an outline is an entry with the label that
is read of it, and `labels_complete` asks for each of them what `Seamless` says. -/

variable {dialect : Dialect}

namespace Source

/-- The entries as they are written. -/
def items (source : Source dialect) : Hierarchy Dialect.Item :=
  source.contents.foldr (fun content items => (dialect.items maxDepth content).append items) .nil

end Source

/-- The outline is made of the titles of the items. -/
theorem outline_items (baseDir : Str) (source : Source dialect) :
    source.outline baseDir maxDepth = source.items.map (Dialect.Item.title baseDir dialect) := by
  unfold Source.outline Source.items
  induction source.contents with
  | nil => rfl
  | cons content rest ih =>
      rw [Dialect.outlines, List.foldr_cons, Hierarchy.map_append, Dialect.outline_eq_map, ih]

/-- What a parser returns, entry by entry. -/
theorem flatten_items (source : Source dialect) (stop : XmlStop) (sourceHref : Str) :
    (dialect.parse ⟨source.events, stop⟩ sourceHref).flatten.map titleOf =
      (source.items.kept (Title.labelled ∘ Dialect.Item.title (Href.parentDir sourceHref) dialect)
        maxEntries 0).listed.map (Dialect.Item.title (Href.parentDir sourceHref) dialect) := by
  have htitles := walkAll_trees ((source.items.map (Dialect.Item.title (Href.parentDir sourceHref)
    dialect)).kept Title.labelled maxEntries 0) 0 []
  rw [Navigation.flatten, parse_source, outline_items]
  rw [Hierarchy.kept_map, Hierarchy.listed_map] at htitles
  rw [Hierarchy.kept_map]
  exact htitles

/-- An entry is called by all its title says, when nothing else than text is in it but blanks
between words. -/
theorem labels_complete (source : Source dialect) (stop : XmlStop) (sourceHref : Str) :
    (dialect.parse ⟨source.events, stop⟩ sourceHref).flatten.map titleOf =
        (source.items.kept (Title.labelled ∘ Dialect.Item.title (Href.parentDir sourceHref) dialect)
          maxEntries 0).listed.map (Dialect.Item.title (Href.parentDir sourceHref) dialect) ∧
      ∀ item ∈ source.items.listed, ∀ tag inner others,
        dialect.titles item.room item.body = (tag, inner) :: others →
        dialect.untitled inner = true → (others = [] ∨ collapse (heard inner) ≠ []) →
        ((item.title (Href.parentDir sourceHref) dialect).label = collapse (spelled inner) ↔
          Words.Seamless Str.isWhitespace (marks inner)) := by
  refine ⟨flatten_items source stop sourceHref,
    fun item _ tag inner others htitles hinner hothers => ?_⟩
  rw [Dialect.Item.title, Dialect.own_first htitles hinner hothers rfl]
  exact collapse_heard_iff inner

/-- A link to the first chapter. -/
def chapterLink : Tag := attributed "a" [("href", "c1.xhtml")]

/-- A navigation document of one item, called by this link. -/
def linked (inner : Content) : Content :=
  .node (plainTag "li") (.node chapterLink inner .nil) .nil

theorem flow_linked {inner : Content} (h : Dialect.navDocument.Inline inner) :
    Dialect.navDocument.Flow (linked inner) := ⟨rfl, ⟨rfl, h, trivial⟩, trivial⟩

def chapterOne : Content := .leaf ⟨.text "Chapter 1", rfl⟩ .nil

theorem labels_complete_chapter :
    (Dialect.Item.title "OEBPS" .navDocument ⟨31, .node chapterLink chapterOne .nil⟩).label =
      collapse (spelled chapterOne) :=
  have flow : Dialect.navDocument.Inline chapterOne := trivial
  ((labels_complete (Dialect.navDocument.page (flow_linked flow)) .eof "OEBPS/nav.xhtml").2
    ⟨31, .node chapterLink chapterOne .nil⟩ (.head _) chapterLink chapterOne [] rfl rfl
    (.inl rfl)).mpr (by decide)

/-- `Tom &amp; Jerry`. -/
def tomAndJerry : Content :=
  .leaf ⟨.text "Tom ", rfl⟩ (.leaf ⟨.generalRef ⟨"amp", none⟩, rfl⟩ (.leaf ⟨.text " Jerry", rfl⟩ .nil))

theorem flow_tomAndJerry : Dialect.navDocument.Inline tomAndJerry := trivial

/-- The reference is not read: the entry is called `Tom Jerry`. -/
theorem reference_lost :
    (parseNav ⟨(Dialect.navDocument.page (flow_linked flow_tomAndJerry)).events, .eof⟩
        "OEBPS/nav.xhtml").flatten.map NavPoint.label ≠ [collapse (spelled tomAndJerry)] := by
  decide

/-! ## Titles in titles

`Outcome` is the invariant of the pen inside a title that holds others: either nothing inside has
ended with a label yet, and the pen is reading what stands in the outer one; or the first that
did has named the entry, and the pen is at rest with that name. -/

theorem Pen.text_text (pen : Pen) (text text' : Str) :
    (pen.text text).text text' = pen.text (text ++ text') := by
  obtain ⟨title, reading, written⟩ := pen
  cases reading with
  | false => rfl
  | true => exact congrArg (Pen.mk title true) (List.append_assoc _ _ _)

theorem Pen.text_nil (pen : Pen) : pen.text [] = pen := by
  obtain ⟨title, reading, written⟩ := pen
  cases reading with
  | false => rfl
  | true => exact congrArg (Pen.mk title true) (List.append_nil _)

namespace Dialect

/-- The first title that holds no title and is not blank. -/
def writer : Nat → Content → Option (Tag × Content)
  | _, .nil => none
  | room, .leaf _ rest => writer room rest
  | room, .node tag body rest =>
      if navDocument.isItem tag.localName ∧ 0 < room then writer room rest
      else if navDocument.isTitle tag.localName then
        ((writer 0 body).or
          (if navDocument.untitled body ∧ collapse (heard body) ≠ [] then some (tag, body)
            else none)).or (writer room rest)
      else (writer room body).or (writer room rest)

variable {baseDir : Str}

/-- What a label and a link are taken from. -/
def writtenBy (baseDir : Str) (named : Tag × Content) : Title :=
  ⟨collapse (heard named.2), pointed baseDir named.1 "href"⟩

theorem writer_plain {tag : Tag} {body rest : Content}
    (htitle : navDocument.isTitle tag.localName = false) :
    writer 0 (.node tag body rest) = (writer 0 body).or (writer 0 rest) := by
  rw [writer, if_neg fun hin => Nat.lt_irrefl 0 hin.2, htitle, if_neg Bool.false_ne_true]

theorem writer_title {tag : Tag} {body rest : Content} {room : Nat}
    (htitle : navDocument.isTitle tag.localName = true) :
    writer room (.node tag body rest) = ((writer 0 body).or
      (if navDocument.untitled body ∧ collapse (heard body) ≠ [] then some (tag, body)
        else none)).or (writer room rest) := by
  rw [writer, if_neg fun hin => title_not_item navDocument htitle hin.1, if_pos htitle]

/-- What names the entry is not blank. -/
theorem writer_labelled {room : Nat} {content : Content} {named : Tag × Content}
    (h : writer room content = some named) : (writtenBy baseDir named).label ≠ [] := by
  induction content generalizing room with
  | nil => cases h
  | leaf a rest ih => exact ih h
  | node tag body rest ihbody ihrest =>
      rw [writer] at h
      split at h
      · exact ihrest h
      · split at h
        · rcases Option.or_eq_some_iff.mp h with hfirst | ⟨-, hrest⟩
          · rcases Option.or_eq_some_iff.mp hfirst with hbody | ⟨-, hown⟩
            · exact ihbody hbody
            · split at hown
              · rename_i hblank
                obtain rfl := Option.some.inj hown
                exact hblank.2
              · cases hown
          · exact ihrest hrest
        · rcases Option.or_eq_some_iff.mp h with hbody | ⟨-, hrest⟩
          · exact ihbody hbody
          · exact ihrest hrest

theorem note_labelled {title : Title} (hlabel : title.label ≠ []) (event : XmlEvent) :
    navDocument.note baseDir (.resting title) event = .resting title :=
  (@note_named baseDir navDocument (.resting title) hlabel (fun _ => rfl) event).2 rfl

theorem foldl_labelled {title : Title} (hlabel : title.label ≠ []) (written : List XmlEvent) :
    written.foldl (navDocument.note baseDir) (.resting title) = .resting title :=
  (@foldl_named baseDir navDocument written (.resting title) hlabel fun _ => rfl).2 rfl

/-- What the titles in content make of a pen without a label. -/
def Outcome (baseDir : Str) (content : Content) (pen after : Pen) : Prop :=
  match writer 0 content with
  | some named => after = .resting (writtenBy baseDir named)
  | none =>
      if navDocument.untitled content then after = pen.text (heard content)
      else ∃ href, after = .resting ⟨[], href⟩

theorem outcome_named {content : Content} {pen after : Pen} {named : Tag × Content}
    (h : writer 0 content = some named) (hafter : after = .resting (writtenBy baseDir named)) :
    Outcome baseDir content pen after := by
  unfold Outcome
  rw [h]
  exact hafter

/-- Nothing but what follows names the entry. -/
theorem outcome_rest {content rest : Content} {pen pen' after : Pen} {href : Str}
    (hpen : pen' = .resting ⟨[], href⟩) (hwriter : writer 0 content = writer 0 rest)
    (huntitled : navDocument.untitled content = false) (h : Outcome baseDir rest pen' after) :
    Outcome baseDir content pen after := by
  unfold Outcome at h ⊢
  rw [hwriter]
  cases hrest : writer 0 rest with
  | some named =>
      rw [hrest] at h
      exact h
  | none =>
      rw [hrest] at h
      dsimp only at h ⊢
      rw [huntitled, if_neg Bool.false_ne_true]
      cases hnone : navDocument.untitled rest with
      | true =>
          rw [hnone, if_pos rfl, hpen] at h
          exact ⟨href, h⟩
      | false =>
          rw [hnone, if_neg Bool.false_ne_true] at h
          exact h

/-- Text in front of what names the entry. -/
theorem outcome_text {content rest : Content} {pen after : Pen} {text : Str}
    (hwriter : writer 0 content = writer 0 rest)
    (huntitled : navDocument.untitled content = navDocument.untitled rest)
    (hheard : heard content = text ++ heard rest)
    (h : Outcome baseDir rest (pen.text text) after) : Outcome baseDir content pen after := by
  unfold Outcome at h ⊢
  rwa [hwriter, huntitled, hheard, ← Pen.text_text]

/-- What is no title lets the pen take in the text. -/
theorem note_text {event : XmlEvent} {href : Str} {reading : Bool} {written : Str}
    (htidy : reading = false → written = [])
    (hstart : ∀ tag, event = .start tag → navDocument.isTitle tag.localName = false)
    (hend : ∀ name, event = .endTag name → navDocument.isTitle (localName name) = false) :
    navDocument.note baseDir ⟨⟨[], href⟩, reading, written⟩ event =
      Pen.text ⟨⟨[], href⟩, reading, written⟩ (Words.read (eventMarks event)) := by
  cases reading with
  | true =>
      obtain ⟨href', hnote, hhref⟩ := @note_untitled baseDir navDocument event ⟨[], href⟩ written
        hstart hend
      rw [hnote, hhref rfl]
      rfl
  | false =>
      obtain rfl := htidy rfl
      cases event with
      | start tag =>
          exact if_neg fun hin => Bool.false_ne_true ((hstart tag rfl).symm.trans hin.1)
      | endTag name => rw [note, ends.eq_def, if_neg fun hin => Bool.false_ne_true hin.1]; rfl
      | text | empty | docType | cData | generalRef | other => rfl

/-- Whatever has been written in front of it, content ends in its outcome. -/
theorem foldl_outcome (content : Content) : ∀ (href : Str) (reading : Bool) (written : Str),
    (reading = false → written = []) → Outcome baseDir content ⟨⟨[], href⟩, reading, written⟩
      ((events content).foldl (navDocument.note baseDir) ⟨⟨[], href⟩, reading, written⟩) := by
  induction content with
  | nil =>
      intro href reading written _
      exact (Pen.text_nil _).symm
  | leaf a rest ih =>
      intro href reading written htidy
      obtain ⟨event, hflat⟩ := a
      have hnote := @note_text baseDir event href reading written htidy
        (fun tag heq => by rw [heq] at hflat; cases hflat)
        (fun name heq => by rw [heq] at hflat; cases hflat)
      have hrest : Outcome baseDir rest
          (Pen.text ⟨⟨[], href⟩, reading, written⟩ (Words.read (eventMarks event)))
          ((events rest).foldl (navDocument.note baseDir)
            (Pen.text ⟨⟨[], href⟩, reading, written⟩ (Words.read (eventMarks event)))) := by
        cases reading with
        | false => exact ih href false written htidy
        | true =>
            exact ih href true _ fun hreading => absurd hreading.symm Bool.false_ne_true
      unfold events at hrest ⊢
      rw [Nested.foldl_spell_leaf]
      change Outcome baseDir _ _ ((rest.spell markup).foldl _ (navDocument.note baseDir _ event))
      rw [hnote]
      exact @outcome_text baseDir (.leaf ⟨event, hflat⟩ rest) rest _ _ _ rfl rfl (heard_leaf _ _) hrest
  | node tag body rest ihbody ihrest =>
      intro href reading written htidy
      unfold events at ihbody ihrest ⊢
      rw [Nested.foldl_spell_node]
      change Outcome baseDir _ _ ((rest.spell markup).foldl _ (navDocument.note baseDir
        ((body.spell markup).foldl _ (navDocument.note baseDir _ (.start tag))) (.endTag tag.name)))
      -- Behind a pen without a label, what follows names the entry.
      have hbehind : ∀ href', navDocument.untitled (.node tag body rest) = false →
          writer 0 (.node tag body rest) = writer 0 rest →
          Outcome baseDir (.node tag body rest) ⟨⟨[], href⟩, reading, written⟩
            ((rest.spell markup).foldl (navDocument.note baseDir) (.resting ⟨[], href'⟩)) :=
        fun href' huntitled hwriter =>
          outcome_rest rfl hwriter huntitled (ihrest href' false [] fun _ => rfl)
      cases htitle : navDocument.isTitle tag.localName with
      | true =>
          have hstart : navDocument.note baseDir ⟨⟨[], href⟩, reading, written⟩ (.start tag) =
              ⟨⟨[], pointed baseDir tag "href"⟩, true, []⟩ := if_pos ⟨htitle, rfl⟩
          have hbody := ihbody (pointed baseDir tag "href") true [] fun hreading =>
            absurd hreading.symm Bool.false_ne_true
          have huntitled : navDocument.untitled (.node tag body rest) = false := by
            rw [untitled, htitle]
            rfl
          have hwriter : writer 0 (.node tag body rest) = _ := writer_title htitle
          rw [hstart]
          unfold Outcome at hbody
          cases hnamed : writer 0 body with
          | some named =>
              rw [hnamed] at hbody hwriter
              dsimp only at hbody
              have hlabel : (writtenBy baseDir named).label ≠ [] := writer_labelled hnamed
              rw [hbody, note_labelled hlabel, foldl_labelled hlabel]
              exact outcome_named hwriter rfl
          | none =>
              rw [hnamed] at hbody hwriter
              dsimp only at hbody
              cases hnone : navDocument.untitled body with
              | true =>
                  rw [hnone, if_pos rfl] at hbody
                  have hend : navDocument.note baseDir (Pen.text
                      ⟨⟨[], pointed baseDir tag "href"⟩, true, []⟩ (heard body)) (.endTag tag.name) =
                        .resting (writtenBy baseDir (tag, body)) := by
                    rw [note, ends.eq_def]
                    exact if_pos ⟨rfl, htitle⟩
                  rw [hbody, hend]
                  by_cases hblank : collapse (heard body) = []
                  · rw [if_neg fun hin => hin.2 hblank] at hwriter
                    rw [writtenBy, hblank]
                    exact hbehind _ huntitled hwriter
                  · rw [if_pos ⟨hnone, hblank⟩] at hwriter
                    have hlabel : (writtenBy baseDir (tag, body)).label ≠ [] := hblank
                    rw [foldl_labelled hlabel]
                    exact outcome_named hwriter rfl
              | false =>
                  rw [hnone, if_neg Bool.false_ne_true] at hbody
                  obtain ⟨href', hbody⟩ := hbody
                  rw [if_neg fun hin => Bool.false_ne_true (hnone.symm.trans hin.1)] at hwriter
                  have hend : navDocument.note baseDir (.resting ⟨[], href'⟩) (.endTag tag.name) =
                      .resting ⟨[], href'⟩ := by
                    rw [note, ends.eq_def, if_neg fun hin => Bool.false_ne_true hin.1]
                  rw [hbody, hend]
                  exact hbehind href' huntitled hwriter
      | false =>
          have hstart : navDocument.note baseDir ⟨⟨[], href⟩, reading, written⟩ (.start tag) =
              ⟨⟨[], href⟩, reading, written⟩ := if_neg fun hin =>
            Bool.false_ne_true (htitle.symm.trans hin.1)
          have hend : ∀ pen : Pen, navDocument.note baseDir pen (.endTag tag.name) = pen := fun pen => by
            rw [note, ends.eq_def]
            exact if_neg fun hin => Bool.false_ne_true (htitle.symm.trans hin.2)
          have hbody := ihbody href reading written htidy
          have hwriter : writer 0 (.node tag body rest) = _ := writer_plain htitle
          have huntitled : navDocument.untitled (.node tag body rest) =
              (navDocument.untitled body && navDocument.untitled rest) := by
            rw [untitled, htitle]
            rfl
          rw [hstart, hend]
          unfold Outcome at hbody
          cases hnamed : writer 0 body with
          | some named =>
              rw [hnamed] at hbody hwriter
              dsimp only at hbody
              have hlabel : (writtenBy baseDir named).label ≠ [] := writer_labelled hnamed
              rw [hbody, foldl_labelled hlabel]
              exact outcome_named hwriter rfl
          | none =>
              rw [hnamed] at hbody hwriter
              dsimp only at hbody
              cases hnone : navDocument.untitled body with
              | true =>
                  rw [hnone, if_pos rfl] at hbody
                  rw [hnone, Bool.true_and] at huntitled
                  rw [hbody]
                  refine outcome_text hwriter huntitled (heard_node _ _ _) ?_
                  cases reading with
                  | false => exact ihrest href false written htidy
                  | true =>
                      exact ihrest href true _ fun hreading => absurd hreading.symm Bool.false_ne_true
              | false =>
                  rw [hnone, if_neg Bool.false_ne_true] at hbody
                  rw [hnone, Bool.false_and] at huntitled
                  obtain ⟨href', hbody⟩ := hbody
                  rw [hbody]
                  exact hbehind href' huntitled hwriter

/-- What a title makes of an entry that has no label yet. -/
theorem titled_writer {tag : Tag} (body : Content) {title : Title}
    (htag : navDocument.isTitle tag.localName = true) (hlabel : title.label = []) :
    (∀ named, writer 0 (.node tag body .nil) = some named →
      navDocument.titled baseDir tag body title = writtenBy baseDir named) ∧
    (writer 0 (.node tag body .nil) = none →
      (navDocument.titled baseDir tag body title).label = []) := by
  obtain ⟨label, href⟩ := title
  obtain rfl : label = [] := hlabel
  have hrun := @foldl_outcome baseDir (.node tag body .nil) href false [] fun _ => rfl
  unfold events at hrun
  rw [Nested.foldl_spell_node] at hrun
  have huntitled : navDocument.untitled (.node tag body .nil) = false := by
    rw [untitled, htag]
    rfl
  unfold Outcome at hrun
  constructor
  · intro named hnamed
    rw [hnamed] at hrun
    exact congrArg Pen.title hrun
  · intro hnone
    rw [hnone] at hrun
    dsimp only at hrun
    rw [huntitled, if_neg Bool.false_ne_true] at hrun
    obtain ⟨href', hrun⟩ := hrun
    exact congrArg (Title.label ∘ Pen.title) hrun

theorem own_labelled {room : Nat} (content : Content) {title : Title} (hlabel : title.label ≠ []) :
    navDocument.own baseDir room content title = title :=
  (@own_named baseDir navDocument room content title hlabel).2 rfl

/-- The first title that holds none and is not blank names the entry. -/
theorem own_writer {room : Nat} (content : Content) {title : Title} (hlabel : title.label = []) :
    (∀ named, writer room content = some named →
      navDocument.own baseDir room content title = writtenBy baseDir named) ∧
    (writer room content = none → (navDocument.own baseDir room content title).label = []) := by
  induction content generalizing title with
  | nil => exact ⟨fun named hnamed => absurd hnamed.symm (Option.some_ne_none named), fun _ => hlabel⟩
  | leaf a rest ih =>
      obtain ⟨href, hnote, -⟩ := @note_leaf baseDir navDocument a title
      have hlabel' : (Title.mk title.label href).label = [] := hlabel
      rw [own, hnote]
      exact ih hlabel'
  | node tag body rest ihbody ihrest =>
      -- One part writes the label, or the next does.
      have hthen : ∀ {first : Option (Tag × Content)} {between : Title},
          (∀ named, first = some named → between = writtenBy baseDir named ∧ between.label ≠ []) →
          (first = none → between.label = []) →
          (∀ named, first.or (writer room rest) = some named →
            navDocument.own baseDir room rest between = writtenBy baseDir named) ∧
          (first.or (writer room rest) = none →
            (navDocument.own baseDir room rest between).label = []) := by
        intro first between hsome hnone
        cases first with
        | some named =>
            obtain ⟨heq, hlabel'⟩ := hsome named rfl
            rw [own_labelled rest hlabel']
            refine ⟨fun named' hnamed => ?_, fun hor => absurd hor (Option.some_ne_none _)⟩
            obtain rfl := Option.some.inj hnamed
            exact heq
        | none => exact ihrest (hnone rfl)
      rw [writer, own]
      by_cases hitem : navDocument.isItem tag.localName = true ∧ 0 < room
      · rw [if_pos hitem, if_pos hitem]
        exact ihrest hlabel
      · rw [if_neg hitem, if_neg hitem]
        cases htitle : navDocument.isTitle tag.localName with
        | true =>
            rw [if_pos rfl, if_pos rfl]
            have htitled := @titled_writer baseDir tag body title htitle hlabel
            rw [writer_title htitle, writer, Option.or_none] at htitled
            refine hthen (fun named hnamed => ?_) htitled.2
            have hnamed' : writer 0 (.node tag body .nil) = some named := by
              rwa [writer_title htitle, writer, Option.or_none]
            have hwritten := htitled.1 named hnamed
            refine ⟨hwritten, ?_⟩
            rw [hwritten]
            exact writer_labelled hnamed'
        | false =>
            rw [if_neg Bool.false_ne_true, if_neg Bool.false_ne_true]
            obtain ⟨href, hbegins, -⟩ := @begins_plain baseDir navDocument tag htitle title
            have hbody := @ihbody ⟨title.label, href⟩ hlabel
            rw [hbegins]
            refine hthen (fun named hnamed => ?_) hbody.2
            have hwritten := hbody.1 named hnamed
            refine ⟨hwritten, ?_⟩
            rw [hwritten]
            exact writer_labelled hnamed

end Dialect

/-- An entry whose first title is a link is called by the link, when the first title that holds
none points where it does and says as much. -/
theorem first_title_wins (source : Source .navDocument) (stop : XmlStop) (sourceHref : Str) :
    (parseNav ⟨source.events, stop⟩ sourceHref).flatten.map titleOf =
        (source.items.kept (Title.labelled ∘ Dialect.Item.title (Href.parentDir sourceHref)
          .navDocument) maxEntries 0).listed.map
            (Dialect.Item.title (Href.parentDir sourceHref) .navDocument) ∧
      ∀ item ∈ source.items.listed, ∀ tag anchor others,
        Dialect.navDocument.titles item.room item.body = (tag, anchor) :: others →
        tag.localName = "a" → collapse (spelled anchor) ≠ [] →
        (item.title (Href.parentDir sourceHref) .navDocument =
            ⟨collapse (spelled anchor),
              Dialect.pointed (Href.parentDir sourceHref) tag "href"⟩ ↔
          ∃ named, Dialect.writer item.room item.body = some named ∧
            Dialect.pointed (Href.parentDir sourceHref) named.1 "href" =
              Dialect.pointed (Href.parentDir sourceHref) tag "href" ∧
            (heard named.2).splitWhitespace = (spelled anchor).splitWhitespace) := by
  refine ⟨flatten_items source stop sourceHref, fun item _ tag anchor others _ _ hlabel => ?_⟩
  obtain ⟨hsome, hnone⟩ := @Dialect.own_writer (Href.parentDir sourceHref) item.room item.body .blank rfl
  change Dialect.own (Href.parentDir sourceHref) .navDocument item.room item.body .blank = _ ↔ _
  cases hwriter : Dialect.writer item.room item.body with
  | none =>
      constructor
      · intro htitle
        exact absurd ((congrArg Title.label htitle).symm.trans (hnone hwriter)) hlabel
      · rintro ⟨named, hnamed, -⟩
        cases hnamed
  | some named =>
      rw [hsome named hwriter, Dialect.writtenBy, Title.mk.injEq, collapse_eq_iff]
      constructor
      · rintro ⟨hwords, hhref⟩
        exact ⟨named, rfl, hhref, hwords⟩
      · rintro ⟨named', hnamed, hhref, hwords⟩
        obtain rfl := Option.some.inj hnamed
        exact ⟨hwords, hhref⟩

theorem first_title_wins_chapter :
    Dialect.Item.title "OEBPS" .navDocument ⟨31, .node chapterLink chapterOne .nil⟩ =
      ⟨collapse (spelled chapterOne), Dialect.pointed "OEBPS" chapterLink "href"⟩ :=
  have flow : Dialect.navDocument.Inline chapterOne := trivial
  ((first_title_wins (Dialect.navDocument.page (flow_linked flow)) .eof "OEBPS/nav.xhtml").2
    ⟨31, .node chapterLink chapterOne .nil⟩ (.head _) chapterLink chapterOne [] rfl rfl
    (by decide)).mpr ⟨(chapterLink, chapterOne), rfl, rfl, by decide⟩

/-- `<span>Chapter</span> One`. -/
def styledChapter : Content :=
  .node (plainTag "span") (.leaf ⟨.text "Chapter", rfl⟩ .nil) (.leaf ⟨.text " One", rfl⟩ .nil)

theorem flow_styledChapter : Dialect.navDocument.Inline styledChapter :=
  ⟨rfl, rfl, trivial, trivial⟩

/-- The inner element takes the link away, and ends the label. -/
theorem link_taken_over :
    (parseNav ⟨(Dialect.navDocument.page (flow_linked flow_styledChapter)).events, .eof⟩
        "OEBPS/nav.xhtml").flatten.map titleOf ≠
      [⟨collapse (spelled styledChapter), "OEBPS/c1.xhtml"⟩] := by
  decide

end Nav

end GrpcEpub
