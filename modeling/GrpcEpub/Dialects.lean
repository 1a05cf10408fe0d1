/-
# `GrpcEpub.Dialects` — what is written between two tags

The content of a document as a forest of elements, and the two dialects in which an
outline is written.  To either loop an element is an entry, a title or neither.

What is written about an entry goes to the innermost open one.  `Pen` is what a loop
keeps of it, and `Dialect.note` what an event does to that.  As long as no entry is
opened, a loop does nothing but `note` (`foldl_inline`).

The two loops differ in the names they look for and in where a link stands, and in what a title
inside a title does.  All of that is a `Dialect`, and its `Pen`: the entry that is being written,
whether its title is being read, and what has been read of it.  `step_flat`, `step_start` and
`step_close` say what one event does to a loop in these terms, and everything behind this module
is proved of an arbitrary dialect from them.
-/
import GrpcEpub.Outline
import GrpcEpub.Lib.Nested

namespace GrpcEpub

/-- Neither a start nor an end tag. -/
def XmlEvent.isFlat : XmlEvent → Bool
  | .start _ | .endTag _ => false
  | _ => true

namespace Nav

open Xml

/-! ## Content

The events between matching tags, as a tree.  A leaf is an event that is no start and no end tag. -/

/-- An event between tags. -/
structure Leaf where
  event : XmlEvent
  flat : event.isFlat = true

theorem isFlat_empty (tag : Tag) : (XmlEvent.empty tag).isFlat = true := rfl

theorem isFlat_text (content : Str) : (XmlEvent.text content).isFlat = true := rfl

/-- What an element holds. -/
abbrev Content := Nested Tag Leaf

/-- How content is written out. -/
def markup : Rendering Tag Leaf XmlEvent where
  opening := .start
  closing := fun tag => .endTag tag.name
  flat := Leaf.event

def events (content : Content) : List XmlEvent := content.spell markup

/-! ## Titles -/

/-- What is written about an entry: its label, and where it points. -/
structure Title where
  label : Str
  href : Str
deriving DecidableEq, Repr

/-- Nothing yet. -/
def Title.blank : Title := ⟨[], []⟩

/-- A title, and the label that is being read for it. -/
structure Pen where
  title : Title
  reading : Bool
  written : Str
deriving DecidableEq, Repr

namespace Pen

/-- Not reading a label. -/
def resting (title : Title) : Pen := ⟨title, false, []⟩

def text (pen : Pen) (content : Str) : Pen :=
  if pen.reading then { pen with written := pen.written ++ content } else pen

/-- What is not being read has not been written. -/
def Tidy (pen : Pen) : Prop := pen.reading = false → pen.written = []

end Pen

def titleOf (point : NavPoint) : Title := ⟨point.label, point.href⟩

def entitle (title : Title) : NavPoint → NavPoint
  | .mk _ _ depth children => .mk title.label title.href depth children

/-! ## The dialects

The vocabulary of the two formats, and the events of one element in each. -/

/-- A navigation document or an NCX. -/
inductive Dialect where
  | navDocument
  | ncx
deriving DecidableEq, Repr

namespace Dialect

/-- The element that holds the outline. -/
def Opens : Dialect → Tag → Prop
  | navDocument, tag => OpensToc tag
  | ncx, tag => tag.localName = "navMap"

def isItem : Dialect → Str → Bool
  | navDocument, name => name == "li".toList
  | ncx, name => name == "navPoint".toList

def isTitle : Dialect → Str → Bool
  | navDocument, name => name == "a".toList || name == "span".toList
  | ncx, name => name == "text".toList

/-- What may stand in an outline: anything, but no map in a map. -/
def admits : Dialect → Str → Bool
  | navDocument, _ => true
  | ncx, name => name != "navMap".toList

variable (baseDir : Str)

def step : Dialect → Loop → XmlEvent → Loop
  | navDocument => navStep baseDir
  | ncx => ncxStep baseDir

def parse : Dialect → XmlStream → Str → Navigation
  | navDocument => parseNav
  | ncx => parseNcx

/-- Where an attribute points. -/
def pointed (tag : Tag) (name : Str) : Str :=
  (resolveWithFragment baseDir (attributeValue tag name)).getD []

/-- What a start tag writes. -/
def begins : Dialect → Tag → Pen → Pen
  | navDocument, tag, pen =>
      if isTitle navDocument tag.localName ∧ pen.title.label = [] then
        ⟨⟨pen.title.label, pointed baseDir tag "href"⟩, true, []⟩
      else pen
  | ncx, tag, pen =>
      if isTitle ncx tag.localName then { pen with reading := true, written := [] }
      else if tag.localName = "content" then
        { pen with title := ⟨pen.title.label, pointed baseDir tag "src"⟩ }
      else pen

/-- What an end tag writes. -/
def ends (dialect : Dialect) (name : Str) (pen : Pen) : Pen :=
  if pen.reading ∧ dialect.isTitle name then
    match dialect with
    | navDocument => .resting ⟨collapse pen.written, pen.title.href⟩
    | ncx =>
        .resting ⟨if pen.title.label = [] then collapse pen.written else pen.title.label,
          pen.title.href⟩
  else pen

/-- What an empty element writes. -/
def hollow : Dialect → Tag → Pen → Pen
  | navDocument, _, pen => pen
  | ncx, tag, pen =>
      if tag.localName = "content" then
        { pen with title := ⟨pen.title.label, pointed baseDir tag "src"⟩ }
      else pen

/-- What an event writes. -/
def note (dialect : Dialect) (pen : Pen) : XmlEvent → Pen
  | .start tag => dialect.begins baseDir tag pen
  | .endTag name => dialect.ends (localName name) pen
  | .text content => pen.text content
  | .empty tag => dialect.hollow baseDir tag pen
  | _ => pen

/-- Content that opens no entry. -/
def Inline (dialect : Dialect) : Content → Prop
  | .nil => True
  | .leaf _ rest => Inline dialect rest
  | .node tag body rest =>
      dialect.isItem tag.localName = false ∧ dialect.admits tag.localName = true ∧
        Inline dialect body ∧ Inline dialect rest

/-- A title of an entry, from its start tag to its end tag. -/
def titled (dialect : Dialect) (tag : Tag) (body : Content) (title : Title) : Title :=
  (dialect.note baseDir ((events body).foldl (dialect.note baseDir)
    (dialect.begins baseDir tag (.resting title))) (.endTag tag.name)).title

end Dialect

/-! ## The innermost open entry

A loop writes to the entry on top of its stack only.  `pen` reads that entry and `write` puts
another there; the lemmas are the laws of such a pair, and how it goes with the other operations. -/

namespace Loop

variable {self : Loop}

/-- What is written about the innermost open entry. -/
def pen (self : Loop) : Pen :=
  match self.stack with
  | top :: _ => ⟨titleOf top.point, self.reading, self.label⟩
  | [] => .resting .blank

/-- Write about the innermost open entry, when there is one. -/
def write (self : Loop) (pen : Pen) : Loop :=
  match self.stack with
  | top :: outer =>
      { self with
        stack := { top with point := entitle pen.title top.point } :: outer
        reading := pen.reading
        label := pen.written }
  | [] => self

/-- Nothing is read outside an entry. -/
def Settled (self : Loop) : Prop := self.stack = [] → self.reading = false

theorem write_nil (h : self.stack = []) (pen : Pen) : self.write pen = self := by
  unfold write
  rw [h]

theorem write_pen : self.write self.pen = self := by
  obtain ⟨inside, insideDepth, depth, stack, roots, reading, label, entries⟩ := self
  cases stack with
  | nil => rfl
  | cons top outer =>
      obtain ⟨⟨label', href, depth', children⟩, level⟩ := top
      rfl

/-- What is written last stands. -/
theorem write_write (pen pen' : Pen) : (self.write pen).write pen' = self.write pen' := by
  obtain ⟨inside, insideDepth, depth, stack, roots, reading, label, entries⟩ := self
  cases stack with
  | nil => rfl
  | cons top outer =>
      obtain ⟨⟨label', href, depth', children⟩, level⟩ := top
      rfl

/-- What has been written is read back. -/
theorem pen_write (h : self.stack ≠ []) (pen : Pen) : (self.write pen).pen = pen := by
  obtain ⟨inside, insideDepth, depth, stack, roots, reading, label, entries⟩ := self
  cases stack with
  | nil => exact absurd rfl h
  | cons top outer =>
      obtain ⟨⟨label', href, depth', children⟩, level⟩ := top
      rfl

@[simp] theorem write_inside (pen : Pen) : (self.write pen).inside = self.inside := by
  unfold write
  cases self.stack <;> rfl

@[simp] theorem write_depth (pen : Pen) : (self.write pen).depth = self.depth := by
  unfold write
  cases self.stack <;> rfl

@[simp] theorem write_length (pen : Pen) : (self.write pen).stack.length = self.stack.length := by
  unfold write
  cases h : self.stack with
  | nil => exact congrArg List.length h
  | cons top outer => rfl

/-- A text event writes to the innermost entry, if one is open. -/
theorem text_write (content : Str) (h : self.Settled) :
    self.text content = self.write (self.pen.text content) := by
  obtain ⟨inside, insideDepth, depth, stack, roots, reading, label, entries⟩ := self
  cases stack with
  | nil =>
      obtain rfl : reading = false := h rfl
      rfl
  | cons top outer =>
      obtain ⟨⟨label', href, level, children⟩, opened⟩ := top
      cases reading <;> rfl

theorem ncxContent_write {baseDir : Str} (tag : Tag) : ncxContent baseDir self tag =
    self.write { self.pen with title := ⟨self.pen.title.label,
      (resolveWithFragment baseDir (attributeValue tag "src")).getD []⟩ } := by
  obtain ⟨inside, insideDepth, depth, stack, roots, reading, label, entries⟩ := self
  cases stack with
  | nil => rfl
  | cons top outer =>
      obtain ⟨⟨label', href, level, children⟩, opened⟩ := top
      rfl

theorem deeper_write (pen : Pen) : self.deeper.write pen = (self.write pen).deeper := by
  obtain ⟨inside, insideDepth, depth, stack, roots, reading, label, entries⟩ := self
  cases stack <;> rfl

theorem write_then (f : Pen → Pen) (pen : Pen) :
    (self.write pen).write (f (self.write pen).pen) = self.write (f pen) := by
  obtain ⟨inside, insideDepth, depth, stack, roots, reading, label, entries⟩ := self
  cases stack with
  | nil => rfl
  | cons top outer =>
      obtain ⟨⟨label', href, level, children⟩, opened⟩ := top
      rfl

theorem Settled.write (h : self.Settled) (pen : Pen) : (self.write pen).Settled := by
  obtain ⟨inside, insideDepth, depth, stack, roots, reading, label, entries⟩ := self
  cases stack with
  | nil => exact h
  | cons top outer => exact fun hnil => absurd hnil (List.cons_ne_nil _ _)

theorem Settled.deeper (h : self.Settled) : self.deeper.Settled := h

/-- Between two entries no label is read. -/
theorem Between.pen (h : self.Between) : self.pen = .resting self.pen.title := by
  obtain ⟨inside, insideDepth, depth, stack, roots, reading, label, entries⟩ := self
  obtain rfl : reading = false := h.quiet
  obtain rfl : label = [] := h.blank
  cases stack <;> rfl

theorem Ranked.write (h : self.Ranked) (pen : Pen) : (self.write pen).Ranked := by
  unfold Loop.write
  cases hstack : self.stack with
  | nil => exact h
  | cons top outer =>
      refine ⟨h.below, ?_⟩
      have hopened := h.opened
      rw [hstack, List.forall_mem_cons] at hopened
      exact List.forall_mem_cons.mpr hopened

theorem Ranked.deeper (h : self.Ranked) : self.deeper.Ranked :=
  ⟨Nat.le_succ_of_le h.below, fun top htop => Nat.le_succ_of_le (h.opened top htop)⟩

end Loop

/-! ## What one event does

Only a start tag of an item, a start tag of a title and an end tag at the depth of the innermost
entry do more than write. -/

namespace Dialect

variable {baseDir : Str} {self : Loop} (dialect : Dialect)

theorem item_not_title {name : Str} (h : dialect.isItem name = true) :
    dialect.isTitle name = false := by
  cases dialect with
  | navDocument =>
      obtain rfl := eq_of_beq h
      decide
  | ncx =>
      obtain rfl := eq_of_beq h
      decide

theorem title_not_item {name : Str} (h : dialect.isTitle name = true) :
    ¬ dialect.isItem name = true := fun hitem =>
  absurd ((item_not_title dialect hitem).symm.trans h) Bool.false_ne_true

theorem isTitle_nav {name : Str} : isTitle navDocument name = true ↔
    name = "a".toList ∨ name = "span".toList := by
  rw [isTitle, Bool.or_eq_true, beq_iff_eq, beq_iff_eq]

theorem isTitle_ncx {name : Str} : isTitle ncx name = true ↔ name = "text".toList := beq_iff_eq

/-- The start of an element that is no entry. -/
theorem step_start {tag : Tag} (hinside : self.inside = true)
    (hitem : dialect.isItem tag.localName = false) (hadmits : dialect.admits tag.localName = true) :
    dialect.step baseDir self (.start tag) =
      self.deeper.write (dialect.begins baseDir tag self.pen) := by
  obtain ⟨inside, insideDepth, depth, stack, roots, reading, label, entries⟩ := self
  obtain rfl : inside = true := hinside
  cases dialect with
  | navDocument =>
      -- no entry is opened, so what is left is a title or a plain element
      have hli : tag.localName ≠ "li".toList := fun heq => by simp [isItem, heq] at hitem
      unfold step navStep navStart begins
      dsimp only
      rw [if_neg fun hin => absurd hin.2 Bool.false_ne_true, if_neg fun hin => hli hin.1]
      cases stack with
      | nil =>
          dsimp only
          rw [ite_self]
          rfl
      | cons top outer =>
          obtain ⟨⟨label', href, level, children⟩, opened⟩ := top
          by_cases htitle : tag.localName = "a".toList ∨ tag.localName = "span".toList
          · rw [if_pos ⟨htitle, rfl⟩]
            by_cases hlabel : label' = []
            · have hblank : (Loop.pen ⟨true, insideDepth, depth,
                  ⟨.mk label' href level children, opened⟩ :: outer, roots, reading, label,
                  entries⟩).title.label = [] := hlabel
              rw [if_pos ⟨isTitle_nav.mpr htitle, hblank⟩]
              exact if_pos hlabel
            · have hnamed : ¬ (Loop.pen ⟨true, insideDepth, depth,
                  ⟨.mk label' href level children, opened⟩ :: outer, roots, reading, label,
                  entries⟩).title.label = [] := hlabel
              rw [if_neg fun hin => hnamed hin.2]
              exact if_neg hlabel
          · rw [if_neg fun hin => htitle hin.1, if_neg fun hin => htitle (isTitle_nav.mp hin.1)]
            rfl
  | ncx =>
      -- and likewise, with the link set by an element of its own
      have hpoint : tag.localName ≠ "navPoint".toList := fun heq => by simp [isItem, heq] at hitem
      have hmap : tag.localName ≠ "navMap".toList := fun heq => by simp [admits, heq] at hadmits
      unfold step ncxStep ncxStart begins
      dsimp only
      rw [if_neg hmap, if_neg fun hin => hpoint hin.1]
      by_cases htext : tag.localName = "text".toList
      · rw [if_pos (isTitle_ncx.mpr htext)]
        cases stack with
        | nil =>
            have hcontent : tag.localName ≠ "content".toList := by
              rw [htext]
              decide
            rw [if_neg fun hin => hin.2.2 rfl, if_neg fun hin => hcontent hin.1]
            rfl
        | cons top outer =>
            obtain ⟨⟨label', href, level, children⟩, opened⟩ := top
            rw [if_pos ⟨htext, rfl, List.cons_ne_nil _ _⟩]
            rfl
      · rw [if_neg fun hin => htext hin.1, if_neg fun hin => htext (isTitle_ncx.mp hin)]
        by_cases hcontent : tag.localName = "content".toList
        · rw [if_pos ⟨hcontent, rfl⟩, if_pos hcontent]
          cases stack with
          | nil => rfl
          | cons top outer =>
              obtain ⟨⟨label', href, level, children⟩, opened⟩ := top
              rfl
        · rw [if_neg fun hin => hcontent hin.1, if_neg hcontent]
          exact Loop.write_pen.symm

/-- The start of an entry. -/
theorem step_item {tag : Tag} (hinside : self.inside = true)
    (hitem : dialect.isItem tag.localName = true) :
    dialect.step baseDir self (.start tag) =
      if self.stack.length < maxDepth then self.entered .default else self.deeper := by
  cases dialect with
  | navDocument =>
      have hli : tag.localName = "li".toList := eq_of_beq hitem
      have hnav : tag.localName ≠ "nav".toList := by
        rw [hli]
        decide
      unfold step navStep navStart
      dsimp only
      rw [if_neg fun hin => hnav hin.1, if_pos ⟨hli, hinside⟩]
      rfl
  | ncx =>
      have hpoint : tag.localName = "navPoint".toList := eq_of_beq hitem
      have hother : tag.localName ≠ "navMap".toList ∧ tag.localName ≠ "text".toList ∧
          tag.localName ≠ "content".toList := by
        rw [hpoint]
        decide
      unfold step ncxStep ncxStart
      dsimp only
      rw [if_neg hother.1]
      by_cases hroom : self.stack.length < maxDepth
      · rw [if_pos ⟨hpoint, hinside, hroom⟩, if_pos hroom]
        rfl
      · rw [if_neg fun hin => hroom hin.2.2, if_neg fun hin => hother.2.1 hin.1,
          if_neg fun hin => hother.2.2 hin.1, if_neg hroom]
        rfl

/-- An end tag, whatever it ends. -/
theorem step_end {name : Str} (hsettled : self.Settled) :
    dialect.step baseDir self (.endTag name) =
      (self.write (dialect.ends (localName name) self.pen)).closeLevel := by
  obtain ⟨inside, insideDepth, depth, stack, roots, reading, label, entries⟩ := self
  cases stack with
  | nil =>
      obtain rfl : reading = false := hsettled rfl
      cases dialect with
      | navDocument => rfl
      | ncx =>
          unfold step ncxStep ncxEnd
          dsimp only
          rw [if_neg fun hin => Bool.false_ne_true hin.2]
          rfl
  | cons top outer =>
      obtain ⟨⟨label', href, level, children⟩, opened⟩ := top
      cases dialect with
      | navDocument =>
          unfold step navStep navEnd ends
          dsimp only
          by_cases htitle : localName name = "a".toList ∨ localName name = "span".toList
          · cases reading with
            | true =>
                rw [if_pos ⟨rfl, htitle⟩, if_pos ⟨rfl, isTitle_nav.mpr htitle⟩]
                rfl
            | false =>
                rw [if_neg fun hin => Bool.false_ne_true hin.1,
                  if_neg fun hin => Bool.false_ne_true hin.1]
                rfl
          · rw [if_neg fun hin => htitle hin.2, if_neg fun hin => htitle (isTitle_nav.mp hin.2)]
            rfl
      | ncx =>
          unfold step ncxStep ncxEnd ends
          dsimp only
          -- the end of a label, which the NCX gives to the innermost entry if that has none yet
          by_cases htitle : localName name = "text".toList
          · cases reading with
            | true =>
                rw [if_pos ⟨htitle, rfl⟩, if_pos ⟨rfl, isTitle_ncx.mpr htitle⟩]
                by_cases hlabel : label' = []
                · obtain rfl := hlabel
                  rfl
                · unfold onTop Loop.pen Loop.write titleOf entitle Pen.resting
                  dsimp only
                  have hnamed : ¬ (NavPoint.mk label' href level children).label = [] := hlabel
                  rw [if_neg hnamed, if_neg hnamed]
                  rfl
            | false =>
                rw [if_neg fun hin => Bool.false_ne_true hin.2,
                  if_neg fun hin => Bool.false_ne_true hin.1]
                rfl
          · rw [if_neg fun hin => htitle hin.1, if_neg fun hin => htitle (isTitle_ncx.mp hin.2)]
            rfl

/-- What stands between tags. -/
theorem step_flat (leaf : Leaf) (hinside : self.inside = true) (hsettled : self.Settled) :
    dialect.step baseDir self leaf.event = self.write (dialect.note baseDir self.pen leaf.event) := by
  obtain ⟨event, hflat⟩ := leaf
  cases event with
  | start tag => exact absurd hflat Bool.false_ne_true
  | endTag name => exact absurd hflat Bool.false_ne_true
  | docType dtd => cases dialect <;> exact Loop.write_pen.symm
  | cData content => cases dialect <;> exact Loop.write_pen.symm
  | generalRef reference => cases dialect <;> exact Loop.write_pen.symm
  | other => cases dialect <;> exact Loop.write_pen.symm
  | text content =>
      have htext : dialect.step baseDir self (.text content) = self.text content := by
        cases dialect <;> rfl
      rw [htext, note]
      exact Loop.text_write content hsettled
  | empty tag =>
      cases dialect with
      | navDocument => exact Loop.write_pen.symm
      | ncx =>
          unfold step ncxStep note hollow
          dsimp only
          by_cases hcontent : tag.localName = "content".toList
          · rw [if_pos ⟨hinside, hcontent⟩, if_pos hcontent]
            exact Loop.ncxContent_write tag
          · rw [if_neg fun hin => hcontent hin.2, if_neg hcontent]
            exact Loop.write_pen.symm

/-! ## Content that opens no entry

Such content writes to the entry it stands in, by a fold over the pen alone. -/

/-- The end of an element that is no entry. -/
theorem step_close {name : Str} (pen : Pen) (hsettled : self.Settled) (hranked : self.Ranked) :
    dialect.step baseDir (self.deeper.write pen) (.endTag name) =
      self.write (dialect.ends (localName name) pen) := by
  rw [step_end dialect (hsettled.deeper.write pen),
    Loop.write_then (dialect.ends (localName name)) pen, Loop.deeper_write]
  exact (hranked.write _).closeLevel_deeper

/-- Nothing is opened, so an event writes and does nothing else. -/
theorem foldl_inline {body : Content} (hinline : dialect.Inline body) (hinside : self.inside = true)
    (hsettled : self.Settled) (hranked : self.Ranked) :
    (events body).foldl (dialect.step baseDir) self =
      self.write ((events body).foldl (dialect.note baseDir) self.pen) := by
  induction body generalizing self with
  | nil => exact Loop.write_pen.symm
  | leaf a rest ih =>
      unfold events at ih ⊢
      rw [Nested.foldl_spell_leaf, Nested.foldl_spell_leaf]
      change (rest.spell markup).foldl _ (dialect.step baseDir self a.event) = _
      rw [step_flat dialect a hinside hsettled,
        ih hinline ((Loop.write_inside _).trans hinside) (hsettled.write _) (hranked.write _)]
      exact Loop.write_then ((rest.spell markup).foldl (dialect.note baseDir)) _
  | node tag body rest ihbody ihrest =>
      obtain ⟨hitem, hadmits, hbody, hrest⟩ := hinline
      unfold events at ihbody ihrest ⊢
      rw [Nested.foldl_spell_node, Nested.foldl_spell_node]
      change (rest.spell markup).foldl _ (dialect.step baseDir
        ((body.spell markup).foldl _ (dialect.step baseDir self (.start tag))) (.endTag tag.name)) = _
      have hdeeper : self.deeper.inside = true := hinside
      rw [step_start dialect hinside hitem hadmits,
        ihbody hbody ((Loop.write_inside _).trans hdeeper) (hsettled.deeper.write _)
          (hranked.deeper.write _),
        Loop.write_then ((body.spell markup).foldl (dialect.note baseDir)),
        step_close dialect _ hsettled hranked,
        ihrest hrest ((Loop.write_inside _).trans hinside) (hsettled.write _) (hranked.write _)]
      exact Loop.write_then ((rest.spell markup).foldl (dialect.note baseDir)) _

/-! ## Titles -/

theorem tidy_reading (title : Title) (written : Str) : (Pen.mk title true written).Tidy :=
  fun hreading => absurd hreading.symm Bool.false_ne_true

/-- An element that begins leaves the pen tidy. -/
theorem tidy_begins {pen : Pen} (h : pen.Tidy) (tag : Tag) : (dialect.begins baseDir tag pen).Tidy := by
  cases dialect with
  | navDocument =>
      rw [begins]
      by_cases htitle : isTitle navDocument tag.localName = true ∧ pen.title.label = []
      · rw [if_pos htitle]
        exact tidy_reading _ _
      · rw [if_neg htitle]
        exact h
  | ncx =>
      rw [begins]
      by_cases htitle : isTitle ncx tag.localName = true
      · rw [if_pos htitle]
        exact tidy_reading _ _
      · rw [if_neg htitle]
        by_cases hcontent : tag.localName = "content".toList
        · rw [if_pos hcontent]
          exact h
        · rw [if_neg hcontent]
          exact h

theorem tidy_ends {pen : Pen} (h : pen.Tidy) (name : Str) : (dialect.ends name pen).Tidy := by
  rw [ends.eq_def]
  by_cases htitle : pen.reading = true ∧ dialect.isTitle name = true
  · rw [if_pos htitle]
    cases dialect <;> exact fun _ => rfl
  · rw [if_neg htitle]
    exact h

/-- And so does any event. -/
theorem tidy_note {pen : Pen} (h : pen.Tidy) (event : XmlEvent) :
    (dialect.note baseDir pen event).Tidy := by
  cases event with
  | start tag => exact tidy_begins dialect h tag
  | endTag name => exact tidy_ends dialect h (localName name)
  | text content =>
      change (pen.text content).Tidy
      rw [Pen.text]
      by_cases hreading : pen.reading = true
      · rw [if_pos hreading]
        exact fun hquiet => absurd (hquiet.symm.trans hreading) Bool.false_ne_true
      · rw [if_neg hreading]
        exact h
  | empty tag =>
      cases dialect with
      | navDocument => exact h
      | ncx =>
          change (hollow baseDir ncx tag pen).Tidy
          rw [hollow]
          by_cases hcontent : tag.localName = "content".toList
          · rw [if_pos hcontent]
            exact h
          · rw [if_neg hcontent]
            exact h
  | docType | cData | generalRef | other => exact h

/-- A pen that is not reading has read nothing, whatever events have gone over it. -/
theorem tidy_foldl (written : List XmlEvent) {pen : Pen} (h : pen.Tidy) :
    (written.foldl (dialect.note baseDir) pen).Tidy := by
  induction written generalizing pen with
  | nil => exact h
  | cons event rest ih => exact ih (tidy_note dialect h event)

/-- Behind the end of a title nothing is read. -/
theorem ends_title {name : Str} (hname : dialect.isTitle name = true) {pen : Pen} (h : pen.Tidy) :
    dialect.ends name pen = .resting (dialect.ends name pen).title := by
  have htidy := tidy_ends dialect h name
  have hquiet : (dialect.ends name pen).reading = false := by
    rw [ends.eq_def]
    cases hreading : pen.reading with
    | true =>
        rw [if_pos ⟨rfl, hname⟩]
        cases dialect <;> rfl
    | false =>
        rw [if_neg fun hin => Bool.false_ne_true hin.1]
        exact hreading
  have hwritten := htidy hquiet
  generalize dialect.ends name pen = after at hquiet hwritten ⊢
  obtain ⟨title, reading, written⟩ := after
  obtain rfl : reading = false := hquiet
  obtain rfl : written = [] := hwritten
  rfl

/-- A title, from its start tag to its end tag. -/
theorem foldl_titled {tag : Tag} {body : Content} (htag : dialect.isTitle tag.localName = true)
    (hadmits : dialect.admits tag.localName = true) (hbody : dialect.Inline body)
    (h : self.Between) :
    dialect.step baseDir ((events body).foldl (dialect.step baseDir)
      (dialect.step baseDir self (.start tag))) (.endTag tag.name) =
        self.write (.resting (dialect.titled baseDir tag body self.pen.title)) := by
  have hsettled : self.Settled := fun _ => h.quiet
  have hdeeper : self.deeper.inside = true := h.inside
  have hitem : dialect.isItem tag.localName = false := by
    cases hitem : dialect.isItem tag.localName with
    | false => rfl
    | true => exact absurd hitem (title_not_item dialect htag)
  have htidy : ((events body).foldl (dialect.note baseDir)
      (dialect.begins baseDir tag (.resting self.pen.title))).Tidy :=
    tidy_foldl dialect (events body) (tidy_begins dialect (fun _ => rfl) tag)
  rw [step_start dialect h.inside hitem hadmits, h.pen,
    foldl_inline dialect hbody ((Loop.write_inside _).trans hdeeper) (hsettled.deeper.write _)
      (h.ranked.deeper.write _),
    Loop.write_then ((events body).foldl (dialect.note baseDir)),
    step_close dialect _ hsettled h.ranked]
  exact congrArg self.write (ends_title dialect htag htidy)

end Dialect

end Nav

end GrpcEpub
