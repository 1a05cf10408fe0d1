/-
# `GrpcEpub.Outline` — one outline in its two dialects

A book's outline is a forest of entries.  The navigation document writes an
entry as a list item with a title and a nested list, the NCX as a navigation
point with a label, a content and nested points.  Both parsers rebuild the
forest from the flat events, with the open entries on a stack.

The invariant of either loop between two entries is `Loop.Between`, and what the
events of some entries do to it is `Loop.attached`: the finished points go to
the innermost open entry, or to the roots, and nothing else changes.
-/
import GrpcEpub.Nav
import GrpcEpub.Markup

namespace GrpcEpub

/-- Several children at once. -/
def NavPoint.adding (finished : List NavPoint) : NavPoint → NavPoint
  | .mk label href depth children => .mk label href depth (children ++ finished)

namespace Nav

open Xml

/-! ## The forest

An entry holds its label, its link and the entries under it; `points` is the tree that the
service makes of it, and `flatAll` the list of its points in document order. -/

/-- The title of an entry, with its whitespace collapsed. -/
structure Label where
  text : Str
  nonempty : text ≠ []
  collapsed : collapse text = text

/-- A link into the archive from a document in this directory. -/
structure Link (baseDir : Str) where
  path : Str
  fragment : Str
  target : Str
  nonempty : path ≠ []
  unmarked : '#' ∉ path
  resolves : Href.resolve baseDir path = .ok (.entry target)

/-- A path with its fragment, when there is one. -/
def withFragment (path fragment : Str) : Str :=
  if fragment = [] then path else path ++ '#' :: fragment

/-- The link as the document writes it. -/
def Link.raw {baseDir : Str} (link : Link baseDir) : Str := withFragment link.path link.fragment

def Link.href {baseDir : Str} (link : Link baseDir) : Str := withFragment link.target link.fragment

/-- An entry of an outline, as its author has it. -/
inductive Entry (baseDir : Str) where
  | mk (label : Label) (link : Option (Link baseDir)) (children : List (Entry baseDir))

section Forest

variable {baseDir : Str}

/-- What an entry's link attribute is, and what it is to become. -/
def rawOf (link : Option (Link baseDir)) : Str := (link.map Link.raw).getD []

def hrefOf (link : Option (Link baseDir)) : Str := (link.map Link.href).getD []

mutual
/-- How many entries there are. -/
def Entry.count : Entry baseDir → Nat
  | .mk _ _ children => countAll children + 1
def countAll : List (Entry baseDir) → Nat
  | [] => 0
  | entry :: rest => entry.count + countAll rest
end

mutual
/-- How deep the entries nest. -/
def Entry.height : Entry baseDir → Nat
  | .mk _ _ children => heightAll children + 1
def heightAll : List (Entry baseDir) → Nat
  | [] => 0
  | entry :: rest => max entry.height (heightAll rest)
end

mutual
/-- An entry as a navigation point, each of its depth. -/
def Entry.point (depth : Nat) : Entry baseDir → NavPoint
  | .mk label link children => .mk label.text (hrefOf link) depth (points (depth + 1) children)
def points (depth : Nat) : List (Entry baseDir) → List NavPoint
  | [] => []
  | entry :: rest => entry.point depth :: points depth rest
end

mutual
/-- An entry as the loops leave it, before the depths are renumbered. -/
def Entry.flat : Entry baseDir → NavPoint
  | .mk label link children => .mk label.text (hrefOf link) 0 (flatAll children)
def flatAll : List (Entry baseDir) → List NavPoint
  | [] => []
  | entry :: rest => entry.flat :: flatAll rest
end

mutual
theorem renumber_flat (depth : Nat) : ∀ entry : Entry baseDir,
    renumber depth entry.flat = entry.point depth
  | .mk label link children => by
      rw [Entry.flat, renumber, Entry.point, renumberAll_flat (depth + 1) children]
theorem renumberAll_flat (depth : Nat) : ∀ entries : List (Entry baseDir),
    renumberAll depth (flatAll entries) = points depth entries
  | [] => rfl
  | entry :: rest => by
      rw [flatAll, renumberAll, points, renumber_flat depth entry, renumberAll_flat depth rest]
end

end Forest

/-! ## The two renderings

As relations, since white space, wrappers and other elements may stand wherever the loops pass
over them. -/

/-- The text of a title, in any number of pieces. -/
def Titled (label : Label) (events : List XmlEvent) : Prop :=
  ∃ pieces : List Str, events = pieces.map .text ∧ collapse pieces.flatten = label.text

section Renderings

variable {baseDir : Str}

/-- The title of a list item: an anchor, or a span when it has no link. -/
structure NavTitle (label : Label) (link : Option (Link baseDir)) (tag : Tag) : Prop where
  name : tag.localName = "a" ∨ tag.localName = "span"
  href : attributeValue tag "href" = rawOf link

/-- The list under a title.  Where there is no entry there may be no list. -/
def NavSublist (children : List (Entry baseDir)) (body events : List XmlEvent) : Prop :=
  (children = [] ∧ events = body) ∨ ∃ list : Tag, list.localName = "ol" ∧ events = element list body

/-- List items, with gaps around them. -/
inductive NavItems : List (Entry baseDir) → List XmlEvent → Prop where
  | nil {gap : List XmlEvent} : Gap gap → NavItems [] gap
  | cons {label : Label} {link : Option (Link baseDir)} {children rest : List (Entry baseDir)}
      {item title : Tag} {gap lead text between body list trail events : List XmlEvent} :
      Gap gap → Gap lead → Gap between → Gap trail →
      item.localName = "li" → NavTitle label link title → Titled label text →
      NavItems children body → NavSublist children body list → NavItems rest events →
      NavItems (.mk label link children :: rest)
        (gap ++ element item (lead ++ element title text ++ between ++ list ++ trail) ++ events)

/-- The target of a navigation point: none, or a content of either spelling. -/
def NcxContent (link : Option (Link baseDir)) (events : List XmlEvent) : Prop :=
  (link = none ∧ events = []) ∨ ∃ content : Tag, content.localName = "content" ∧
    attributeValue content "src" = rawOf link ∧ Hollow content events

/-- Navigation points, with gaps around them. -/
inductive NcxPoints : List (Entry baseDir) → List XmlEvent → Prop where
  | nil {gap : List XmlEvent} : Gap gap → NcxPoints [] gap
  | cons {label : Label} {link : Option (Link baseDir)} {children rest : List (Entry baseDir)}
      {point heading writing : Tag}
      {gap lead before text after between content body events : List XmlEvent} :
      Gap gap → Gap lead → Gap before → Gap after → Gap between →
      point.localName = "navPoint" → heading.localName = "navLabel" → writing.localName = "text" →
      Titled label text → NcxContent link content → NcxPoints children body →
      NcxPoints rest events →
      NcxPoints (.mk label link children :: rest)
        (gap ++ element point (lead ++ element heading (before ++ element writing text ++ after) ++
          between ++ content ++ body) ++ events)

/-- The start of the `nav` that is the table of contents. -/
structure OpensToc (tag : Tag) : Prop where
  name : tag.localName = "nav"
  kind : attributeValue tag "type" = [] ∨
    "toc".toList ∈ (attributeValue tag "type").splitWhitespace

/-- A navigation document with one table of contents. -/
def NavDocument (forest : List (Entry baseDir)) (events : List XmlEvent) : Prop :=
  ∃ (before after lead trail body : List XmlEvent) (nav list : Tag),
    events = before ++ element nav (lead ++ element list body ++ trail) ++ after ∧
    (∀ tag : Tag, .start tag ∈ before ++ after → ¬ OpensToc tag) ∧ Gap lead ∧ Gap trail ∧
    OpensToc nav ∧ list.localName = "ol" ∧ NavItems forest body

/-- An NCX: what is around its map, the title of the book included, is no map. -/
def NcxDocument (forest : List (Entry baseDir)) (events : List XmlEvent) : Prop :=
  ∃ (before after body : List XmlEvent) (map : Tag),
    events = before ++ element map body ++ after ∧
    (∀ tag : Tag, .start tag ∈ before ++ after → tag.localName ≠ "navMap") ∧
    map.localName = "navMap" ∧ NcxPoints forest body

end Renderings

/-! ## What the events of an entry do

`attached` is what finished entries do to a loop, `deeper` an open element, and `entered` an open
entry.  The lemmas here say how the three compose, and that the loop stays `Between` entries. -/

namespace Loop

/-- No open element is deeper than the loop is. -/
structure Ranked (loop : Loop) : Prop where
  below : loop.insideDepth ≤ loop.depth
  opened : ∀ top ∈ loop.stack, top.depth ≤ loop.depth

/-- Between two entries. -/
structure Between (loop : Loop) : Prop where
  inside : loop.inside = true
  quiet : loop.reading = false
  blank : loop.label = []
  below : loop.insideDepth ≤ loop.depth
  opened : ∀ top ∈ loop.stack, top.depth ≤ loop.depth

/-- Some finished entries, `count` with what is under them, handed to the innermost open one. -/
def attached (self : Loop) (finished : List NavPoint) (count : Nat) : Loop :=
  match self.stack with
  | parent :: outer =>
      { self with
        stack := { parent with point := parent.point.adding finished } :: outer
        entries := self.entries + count }
  | [] => { self with roots := self.roots ++ finished, entries := self.entries + count }

/-- Inside an element that opens no entry. -/
def deeper (self : Loop) : Loop := { self with depth := self.depth + 1 }

/-- An entry opened one level down. -/
def entered (self : Loop) (point : NavPoint) : Loop :=
  { self with depth := self.depth + 1, stack := ⟨point, self.depth + 1⟩ :: self.stack }

section Attached

variable {self : Loop}

theorem attached_nil : self.attached [] 0 = self := by
  unfold attached
  cases hstack : self.stack with
  | nil => simp [← hstack]
  | cons parent outer =>
      obtain ⟨⟨label, href, depth, children⟩, level⟩ := parent
      simp [NavPoint.adding, ← hstack]

theorem attached_attached (ps qs : List NavPoint) (m n : Nat) :
    (self.attached ps m).attached qs n = self.attached (ps ++ qs) (m + n) := by
  unfold attached
  cases hstack : self.stack with
  | nil => simp [Nat.add_assoc]
  | cons parent outer =>
      obtain ⟨⟨label, href, depth, children⟩, level⟩ := parent
      simp [NavPoint.adding, Nat.add_assoc]

theorem attached_deeper (ps : List NavPoint) (n : Nat) :
    self.deeper.attached ps n = (self.attached ps n).deeper := by
  unfold attached deeper
  cases self.stack <;> rfl

@[simp] theorem attached_entries (ps : List NavPoint) (n : Nat) :
    (self.attached ps n).entries = self.entries + n := by
  unfold attached
  cases self.stack <;> rfl

@[simp] theorem attached_length (ps : List NavPoint) (n : Nat) :
    (self.attached ps n).stack.length = self.stack.length := by
  unfold attached
  cases self.stack <;> rfl

theorem Between.attached (h : self.Between) (ps : List NavPoint) (n : Nat) :
    (self.attached ps n).Between := by
  unfold Loop.attached
  cases hstack : self.stack with
  | nil => exact ⟨h.inside, h.quiet, h.blank, h.below, fun top htop => h.opened top (hstack ▸ htop)⟩
  | cons parent outer =>
      refine ⟨h.inside, h.quiet, h.blank, h.below, fun top htop => ?_⟩
      have hopened : ∀ top ∈ parent :: outer, top.depth ≤ self.depth := hstack ▸ h.opened
      rcases List.mem_cons.mp htop with rfl | htop
      · exact hopened parent List.mem_cons_self
      · exact hopened top (List.mem_cons_of_mem _ htop)

theorem Between.entered (h : self.Between) (point : NavPoint) : (self.entered point).Between where
  inside := h.inside
  quiet := h.quiet
  blank := h.blank
  below := Nat.le_succ_of_le h.below
  opened := by
    intro top htop
    rcases List.mem_cons.mp htop with rfl | htop
    · exact Nat.le_refl _
    · exact Nat.le_succ_of_le (h.opened top htop)

theorem Between.deeper (h : self.Between) : self.deeper.Between where
  inside := h.inside
  quiet := h.quiet
  blank := h.blank
  below := Nat.le_succ_of_le h.below
  opened := fun top htop => Nat.le_succ_of_le (h.opened top htop)

theorem Between.ranked (h : self.Between) : self.Ranked := ⟨h.below, h.opened⟩

/-- The end of an element that opened no entry. -/
theorem Ranked.closeLevel_deeper (h : self.Ranked) : self.deeper.closeLevel = self := by
  obtain ⟨inside, insideDepth, depth, stack, roots, reading, label, entries⟩ := self
  have hbelow : ¬ (inside = true ∧ depth + 1 = insideDepth) := fun hin =>
    absurd h.below (Nat.not_le.mpr (hin.2 ▸ Nat.lt_succ_self depth))
  unfold closeLevel deeper
  cases stack with
  | nil => simp [hbelow]
  | cons top outer =>
      have htop : ¬ top.depth = depth + 1 := fun heq =>
        absurd (h.opened top List.mem_cons_self) (Nat.not_le.mpr (heq ▸ Nat.lt_succ_self depth))
      simp [htop, hbelow]

theorem closeLevel_deeper (h : self.Between) : self.deeper.closeLevel = self :=
  h.ranked.closeLevel_deeper

/-- The end of an entry with its children. -/
theorem closeLevel_entered (h : self.Between) {label href : Str} {children : List NavPoint} {n : Nat}
    (hlabel : label ≠ []) (hroom : self.entries + n < maxEntries) :
    ((self.entered (.mk label href 0 [])).attached children n).closeLevel =
      self.attached [.mk label href 0 children] (n + 1) := by
  obtain ⟨inside, insideDepth, depth, stack, roots, reading, written, entries⟩ := self
  have hbelow : ¬ (inside = true ∧ depth + 1 = insideDepth) := fun hin =>
    absurd h.below (Nat.not_le.mpr (hin.2 ▸ Nat.lt_succ_self depth))
  unfold closeLevel entered attached
  have hroom' : entries + n < maxEntries := hroom
  cases stack with
  | nil => simp [NavPoint.adding, NavPoint.label, attach, hroom', hlabel, hbelow, Nat.add_assoc]
  | cons parent outer =>
      obtain ⟨⟨label', href', depth', children'⟩, level⟩ := parent
      simp [NavPoint.adding, NavPoint.addChild, NavPoint.label, attach, hroom', hlabel, hbelow,
        Nat.add_assoc]

end Attached

end Loop

/-! ## What both loops do with text and with plain elements

Nothing, outside a label. -/

section Steps

variable {step : Loop → XmlEvent → Loop} {self : Loop}

theorem foldl_gap (htext : ∀ loop content, step loop (.text content) = loop.text content)
    (hother : ∀ loop, step loop .other = loop) {gap : List XmlEvent} (hgap : Gap gap) (hquiet : self.reading = false) :
    gap.foldl step self = self := by
  induction gap with
  | nil => rfl
  | cons event rest ih =>
      have hsame : step self event = self := by
        rcases hgap event List.mem_cons_self with rfl | ⟨text, rfl, -⟩
        · exact hother self
        · rw [htext, Loop.text, if_neg (by rw [hquiet]; exact Bool.false_ne_true)]
      rw [List.foldl_cons, hsame]
      exact ih fun event hevent => hgap event (List.mem_cons_of_mem _ hevent)

theorem foldl_pieces (htext : ∀ loop content, step loop (.text content) = loop.text content)
    (pieces : List Str) (hreading : self.reading = true) :
    (pieces.map XmlEvent.text).foldl step self =
      { self with label := self.label ++ pieces.flatten } := by
  induction pieces generalizing self with
  | nil => simp
  | cons piece rest ih =>
      have hread : ({ self with label := self.label ++ piece } : Loop).reading = true := hreading
      rw [List.map_cons, List.foldl_cons, htext, Loop.text, if_pos hreading, ih hread,
        List.flatten_cons, List.append_assoc]

/-- An element that opens no entry is what is between its tags. -/
theorem foldl_wrapped {tag : Tag} {body : List XmlEvent} {after : Loop}
    (hend : ∀ loop : Loop, loop.reading = false → step loop (.endTag tag.name) = loop.closeLevel)
    (hafter : after.Between)
    (hbody : body.foldl step (step self (.start tag)) = after.deeper) :
    (element tag body).foldl step self = after := by
  rw [element, List.foldl_cons, List.foldl_append, hbody, List.foldl_cons, List.foldl_nil,
    hend _ hafter.deeper.quiet]
  exact Loop.closeLevel_deeper hafter

/-- An entry: its label and its target come first, then its children. -/
theorem foldl_entry {tag : Tag} {front body : List XmlEvent} {label href : Str}
    {children : List NavPoint} {n : Nat}
    (hend : ∀ loop : Loop, loop.reading = false → step loop (.endTag tag.name) = loop.closeLevel)
    (h : self.Between) (hlabel : label ≠ []) (hroom : self.entries + n < maxEntries)
    (hstart : step self (.start tag) = self.entered .default)
    (hfront : front.foldl step (self.entered .default) = self.entered (.mk label href 0 []))
    (hbody : body.foldl step (self.entered (.mk label href 0 [])) =
      (self.entered (.mk label href 0 [])).attached children n) :
    (element tag (front ++ body)).foldl step self =
      self.attached [.mk label href 0 children] (n + 1) := by
  rw [element, List.foldl_cons, hstart, List.foldl_append, List.foldl_append, hfront, hbody,
    List.foldl_cons, List.foldl_nil, hend _ ((h.entered _).attached children n).quiet]
  exact Loop.closeLevel_entered h hlabel hroom

end Steps

/-! ## Links

A link that leads anywhere is read as the point's target, in either dialect. -/

theorem resolveWithFragment_raw {baseDir : Str} (link : Link baseDir) :
    resolveWithFragment baseDir link.raw = some link.href := by
  have hsplit : (link.raw.splitOnce '#').getD (link.raw, []) = (link.path, link.fragment) := by
    unfold Link.raw withFragment
    split
    · rename_i hfragment
      rw [Str.splitOnce_none link.unmarked, hfragment]
      rfl
    · rw [Str.splitOnce_append link.unmarked]
      rfl
  unfold resolveWithFragment
  rw [hsplit]
  simp only [if_neg link.nonempty, link.resolves]
  unfold Link.href withFragment
  split <;> rfl

theorem href_of_raw {baseDir : Str} (link : Option (Link baseDir)) :
    (resolveWithFragment baseDir (rawOf link)).getD [] = hrefOf link := by
  cases link with
  | none => rfl
  | some link => exact congrArg (Option.getD · []) (resolveWithFragment_raw link)

/-! ## The navigation document

`li` opens an entry, the first titling element in it writes the label, and `ol` changes nothing
but the depth. -/

section NavDialect

variable {baseDir : Str} {self : Loop}

theorem navStep_text (loop : Loop) (content : Str) :
    navStep baseDir loop (.text content) = loop.text content := rfl

theorem navStep_other (loop : Loop) : navStep baseDir loop .other = loop := rfl

theorem navStep_end {tag : Tag} (loop : Loop) (h : loop.reading = false) :
    navStep baseDir loop (.endTag tag.name) = loop.closeLevel := by
  unfold navStep navEnd
  simp [h]

/-- The start of a title, under an entry that has none yet. -/
theorem navStart_title {label : Label} {link : Option (Link baseDir)} {tag : Tag}
    (h : self.Between) (htitle : NavTitle label link tag) :
    navStep baseDir (self.entered .default) (.start tag) =
      { (self.entered (.mk [] (hrefOf link) 0 [])).deeper with reading := true, label := [] } := by
  have hhref := href_of_raw link
  rw [← htitle.href] at hhref
  have hnav : tag.localName ≠ "nav".toList ∧ tag.localName ≠ "li".toList := by
    rcases htitle.name with hname | hname <;> rw [hname] <;> decide
  unfold navStep navStart Loop.entered Loop.deeper
  dsimp only
  rw [if_neg fun hin => hnav.1 hin.1, if_neg fun hin => hnav.2 hin.1,
    if_pos ⟨htitle.name, h.inside⟩, if_pos (show NavPoint.default.label = [] from rfl), hhref]
  rfl

/-- The title of an entry sets its label and its link. -/
theorem foldl_title {label : Label} {link : Option (Link baseDir)} {tag : Tag}
    {text : List XmlEvent} (h : self.Between) (htitle : NavTitle label link tag)
    (htext : Titled label text) :
    (element tag text).foldl (navStep baseDir) (self.entered .default) =
      self.entered (.mk label.text (hrefOf link) 0 []) := by
  obtain ⟨pieces, rfl, hcollapse⟩ := htext
  have hname : localName tag.name = "a" ∨ localName tag.name = "span" := htitle.name
  have hclose := Loop.closeLevel_deeper (h.entered (.mk label.text (hrefOf link) 0 []))
  rw [element, List.foldl_cons, navStart_title h htitle, List.foldl_append,
    foldl_pieces navStep_text pieces rfl, List.foldl_cons, List.foldl_nil]
  refine Eq.trans ?_ hclose
  obtain ⟨inside, insideDepth, depth, stack, roots, reading, written, entries⟩ := self
  obtain rfl : reading = false := h.quiet
  obtain rfl : written = [] := h.blank
  unfold navStep navEnd Loop.entered Loop.deeper
  dsimp only
  rw [if_pos ⟨rfl, hname⟩, List.nil_append, hcollapse]
  rfl

/-- The start of a list item, while there is room for one more open entry. -/
theorem navStart_item {tag : Tag} (h : self.Between) (hname : tag.localName = "li")
    (hroom : self.stack.length < maxDepth) :
    navStep baseDir self (.start tag) = self.entered .default := by
  have hnav : tag.localName ≠ "nav".toList := by
    rw [hname]
    decide
  unfold navStep navStart Loop.entered
  dsimp only
  rw [if_neg fun hin => hnav hin.1, if_pos ⟨hname, h.inside⟩, if_pos hroom]

theorem navStart_list {tag : Tag} (hname : tag.localName = "ol") :
    navStep baseDir self (.start tag) = self.deeper := by
  have hother : tag.localName ≠ "nav".toList ∧ tag.localName ≠ "li".toList ∧
      ¬ (tag.localName = "a".toList ∨ tag.localName = "span".toList) := by
    rw [hname]
    decide
  unfold navStep navStart
  dsimp only
  rw [if_neg fun hin => hother.1 hin.1, if_neg fun hin => hother.2.1 hin.1,
    if_neg fun hin => hother.2.2 hin.1]
  rfl

theorem foldl_sublist {children : List (Entry baseDir)} {body list : List XmlEvent}
    (h : self.Between) (hlist : NavSublist children body list)
    (hbody : ∀ loop : Loop, loop.Between → loop.stack.length = self.stack.length →
      loop.entries = self.entries →
      body.foldl (navStep baseDir) loop = loop.attached (flatAll children) (countAll children)) :
    list.foldl (navStep baseDir) self = self.attached (flatAll children) (countAll children) := by
  rcases hlist with ⟨-, rfl⟩ | ⟨tag, hname, rfl⟩
  · exact hbody self h rfl rfl
  · refine foldl_wrapped navStep_end (h.attached _ _) ?_
    rw [navStart_list hname, hbody _ h.deeper rfl rfl, Loop.attached_deeper]

/-- By induction on the rendering: a list of items attaches its entries, in order. -/
theorem foldl_navItems {entries : List (Entry baseDir)} {events : List XmlEvent}
    (hitems : NavItems entries events) : ∀ {self : Loop}, self.Between →
      self.stack.length + heightAll entries ≤ maxDepth →
      self.entries + countAll entries ≤ maxEntries →
      events.foldl (navStep baseDir) self = self.attached (flatAll entries) (countAll entries) := by
  induction hitems with
  | nil hgap =>
      intro self h _ _
      rw [foldl_gap navStep_text navStep_other hgap h.quiet]
      exact Loop.attached_nil.symm
  | @cons label link children rest item title gap lead text between body list trail events hgap
      hlead hbetween htrail hitem htitle htext _ hlist _ ihchildren ihrest =>
      intro self h hdepth hcount
      rw [heightAll, Entry.height] at hdepth
      rw [countAll, Entry.count] at hcount
      have hinner := h.entered (.mk label.text (hrefOf link) 0 [])
      have hsize : (self.entered (.mk label.text (hrefOf link) 0 [])).stack.length =
          self.stack.length + 1 ∧
          (self.entered (.mk label.text (hrefOf link) 0 [])).entries = self.entries := ⟨rfl, rfl⟩
      have hfront : (lead ++ element title text).foldl (navStep baseDir) (self.entered .default) =
          self.entered (.mk label.text (hrefOf link) 0 []) := by
        rw [List.foldl_append, foldl_gap navStep_text navStep_other hlead (h.entered .default).quiet,
          foldl_title h htitle htext]
      have hchildren : (between ++ list ++ trail).foldl (navStep baseDir)
          (self.entered (.mk label.text (hrefOf link) 0 [])) =
            (self.entered (.mk label.text (hrefOf link) 0 [])).attached (flatAll children)
              (countAll children) := by
        rw [List.foldl_append, List.foldl_append, foldl_gap navStep_text navStep_other hbetween hinner.quiet,
          foldl_sublist hinner hlist fun loop hloop hlength' hentries =>
            ihchildren hloop (by omega) (by omega),
          foldl_gap navStep_text navStep_other htrail (hinner.attached _ _).quiet]
      have hentry := foldl_entry navStep_end h label.nonempty (by omega)
        (navStart_item h hitem (by omega)) hfront hchildren
      rw [List.foldl_append, List.foldl_append, foldl_gap navStep_text navStep_other hgap h.quiet]
      simp only [List.append_assoc] at hentry ⊢
      rw [hentry, ihrest (h.attached _ _) (by simp; omega) (by simp; omega),
        Loop.attached_attached]
      rfl

end NavDialect

/-! ## The NCX

`navPoint` opens an entry, `text` inside `navLabel` writes the label, `content` sets the link. -/

section NcxDialect

variable {baseDir : Str} {self : Loop}

theorem ncxStep_text (loop : Loop) (content : Str) :
    ncxStep baseDir loop (.text content) = loop.text content := rfl

theorem ncxStep_other (loop : Loop) : ncxStep baseDir loop .other = loop := rfl

theorem ncxStep_end {tag : Tag} (loop : Loop) (h : loop.reading = false) :
    ncxStep baseDir loop (.endTag tag.name) = loop.closeLevel := by
  unfold ncxStep ncxEnd
  simp [h]

theorem ncxStart_point {tag : Tag} (h : self.Between) (hname : tag.localName = "navPoint")
    (hroom : self.stack.length < maxDepth) :
    ncxStep baseDir self (.start tag) = self.entered .default := by
  have hmap : tag.localName ≠ "navMap".toList := by
    rw [hname]
    decide
  unfold ncxStep ncxStart Loop.entered
  dsimp only
  rw [if_neg hmap, if_pos ⟨hname, h.inside, hroom⟩]

theorem ncxStart_heading {tag : Tag} (hname : tag.localName = "navLabel") :
    ncxStep baseDir self (.start tag) = self.deeper := by
  have hother : tag.localName ≠ "navMap".toList ∧ tag.localName ≠ "navPoint".toList ∧
      tag.localName ≠ "text".toList ∧ tag.localName ≠ "content".toList := by
    rw [hname]
    decide
  unfold ncxStep ncxStart
  dsimp only
  rw [if_neg hother.1, if_neg fun hin => hother.2.1 hin.1, if_neg fun hin => hother.2.2.1 hin.1,
    if_neg fun hin => hother.2.2.2 hin.1]
  rfl

theorem ncxStart_text {tag : Tag} (hname : tag.localName = "text") (hinside : self.inside = true)
    (hopen : self.stack ≠ []) :
    ncxStep baseDir self (.start tag) =
      { self.deeper with reading := true, label := [] } := by
  have hother : tag.localName ≠ "navMap".toList ∧ tag.localName ≠ "navPoint".toList := by
    rw [hname]
    decide
  unfold ncxStep ncxStart
  dsimp only
  rw [if_neg hother.1, if_neg fun hin => hother.2 hin.1, if_pos ⟨hname, hinside, hopen⟩]
  rfl

/-- The label of the innermost entry, one level into its `navLabel`. -/
theorem foldl_writing {label : Label} {tag : Tag} {text : List XmlEvent} {href : Str}
    (h : self.Between) (hname : tag.localName = "text") (htext : Titled label text) :
    (element tag text).foldl (ncxStep baseDir)
        (self.entered (.mk [] href 0 [])).deeper =
      (self.entered (.mk label.text href 0 [])).deeper := by
  obtain ⟨pieces, rfl, hcollapse⟩ := htext
  have hclose := Loop.closeLevel_deeper (h.entered (.mk label.text href 0 [])).deeper
  have hstart := @ncxStart_text baseDir (self.entered (.mk [] href 0 [])).deeper tag hname h.inside
    (List.cons_ne_nil _ _)
  rw [element, List.foldl_cons, hstart, List.foldl_append, foldl_pieces ncxStep_text pieces rfl,
    List.foldl_cons, List.foldl_nil]
  refine Eq.trans ?_ hclose
  obtain ⟨inside, insideDepth, depth, stack, roots, reading, written, entries⟩ := self
  obtain rfl : reading = false := h.quiet
  obtain rfl : written = [] := h.blank
  have hname' : localName tag.name = "text".toList := hname
  unfold ncxStep ncxEnd Loop.entered Loop.deeper
  dsimp only
  rw [if_pos ⟨hname', rfl⟩, List.nil_append, hcollapse]
  rfl

/-- A label is written to the entry that is open. -/
theorem foldl_heading {label : Label} {heading writing : Tag}
    {before text after : List XmlEvent} (h : self.Between) (hheading : heading.localName = "navLabel")
    (hwriting : writing.localName = "text") (hbefore : Gap before) (hafter : Gap after)
    (htext : Titled label text) :
    (element heading (before ++ element writing text ++ after)).foldl (ncxStep baseDir)
        (self.entered .default) =
      self.entered (.mk label.text [] 0 []) := by
  refine foldl_wrapped ncxStep_end (h.entered _) ?_
  have hwritten : (element writing text).foldl (ncxStep baseDir) (self.entered .default).deeper =
      (self.entered (.mk label.text [] 0 [])).deeper := foldl_writing h hwriting htext
  rw [ncxStart_heading hheading, List.foldl_append, List.foldl_append,
    foldl_gap ncxStep_text ncxStep_other hbefore (h.entered .default).deeper.quiet, hwritten,
    foldl_gap ncxStep_text ncxStep_other hafter (h.entered (.mk label.text [] 0 [])).deeper.quiet]

theorem ncxContent_entered {link : Option (Link baseDir)} {content : Tag} {label : Str}
    (hsrc : attributeValue content "src" = rawOf link) :
    ncxContent baseDir (self.entered (.mk label [] 0 [])) content =
      self.entered (.mk label (hrefOf link) 0 []) := by
  unfold ncxContent
  rw [hsrc, href_of_raw]
  rfl

/-- The content of a navigation point sets its link. -/
theorem foldl_content {link : Option (Link baseDir)} {events : List XmlEvent} {label : Str}
    (h : self.Between) (hcontent : NcxContent link events) :
    events.foldl (ncxStep baseDir) (self.entered (.mk label [] 0 [])) =
      self.entered (.mk label (hrefOf link) 0 []) := by
  have hinside : (self.entered (.mk label [] 0 [])).inside = true := h.inside
  rcases hcontent with ⟨rfl, rfl⟩ | ⟨content, hname, hsrc, rfl | ⟨gap, hgap, rfl⟩⟩
  · rfl
  · rw [List.foldl_cons, List.foldl_nil, ← ncxContent_entered hsrc]
    exact if_pos ⟨hinside, hname⟩
  · refine foldl_wrapped ncxStep_end (h.entered _) ?_
    have hstart : ncxStep baseDir (self.entered (.mk label [] 0 [])) (.start content) =
        (self.entered (.mk label (hrefOf link) 0 [])).deeper := by
      have hother : content.localName ≠ "navMap".toList ∧ content.localName ≠ "navPoint".toList ∧
          content.localName ≠ "text".toList := by
        rw [hname]
        decide
      unfold ncxStep ncxStart
      dsimp only
      rw [if_neg hother.1, if_neg fun hin => hother.2.1 hin.1, if_neg fun hin => hother.2.2 hin.1,
        if_pos ⟨hname, hinside⟩]
      unfold ncxContent
      rw [hsrc, href_of_raw]
      rfl
    rw [hstart]
    exact foldl_gap ncxStep_text ncxStep_other hgap (h.entered (.mk label (hrefOf link) 0 [])).deeper.quiet

/-- By induction on the rendering, as for the list items. -/
theorem foldl_ncxPoints {entries : List (Entry baseDir)} {events : List XmlEvent}
    (hpoints : NcxPoints entries events) : ∀ {self : Loop}, self.Between →
      self.stack.length + heightAll entries ≤ maxDepth →
      self.entries + countAll entries ≤ maxEntries →
      events.foldl (ncxStep baseDir) self = self.attached (flatAll entries) (countAll entries) := by
  induction hpoints with
  | nil hgap =>
      intro self h _ _
      rw [foldl_gap ncxStep_text ncxStep_other hgap h.quiet]
      exact Loop.attached_nil.symm
  | @cons label link children rest point heading writing gap lead before text after between content
      body events hgap hlead hbefore hafter hbetween hpoint hheading hwriting htext hcontent _ _
      ihchildren ihrest =>
      intro self h hdepth hcount
      rw [heightAll, Entry.height] at hdepth
      rw [countAll, Entry.count] at hcount
      have hsize : (self.entered (.mk label.text (hrefOf link) 0 [])).stack.length =
          self.stack.length + 1 ∧
          (self.entered (.mk label.text (hrefOf link) 0 [])).entries = self.entries := ⟨rfl, rfl⟩
      have hfront : (lead ++ element heading (before ++ element writing text ++ after) ++ between ++
          content).foldl (ncxStep baseDir) (self.entered .default) =
            self.entered (.mk label.text (hrefOf link) 0 []) := by
        rw [List.foldl_append, List.foldl_append, List.foldl_append,
          foldl_gap ncxStep_text ncxStep_other hlead (h.entered .default).quiet,
          foldl_heading h hheading hwriting hbefore hafter htext,
          foldl_gap ncxStep_text ncxStep_other hbetween (h.entered (.mk label.text [] 0 [])).quiet,
          foldl_content h hcontent]
      have hchildren := ihchildren (h.entered (.mk label.text (hrefOf link) 0 [])) (by omega)
        (by omega)
      have hentry := foldl_entry ncxStep_end h label.nonempty (by omega)
        (ncxStart_point h hpoint (by omega)) hfront hchildren
      rw [List.foldl_append, List.foldl_append, foldl_gap ncxStep_text ncxStep_other hgap h.quiet, hentry,
        ihrest (h.attached _ _) (by simp; omega) (by simp; omega), Loop.attached_attached]
      rfl

end NcxDialect

/-! ## Whole documents

Outside the table of contents an event moves the depth and nothing else. -/

section Documents

variable {baseDir : Str} {self : Loop}

/-- Outside the outline. -/
structure Loop.Outside (loop : Loop) : Prop where
  outside : loop.inside = false
  quiet : loop.reading = false
  unopened : loop.stack = []

theorem Loop.Outside.closeLevel (h : self.Outside) :
    self.closeLevel = { self with depth := self.depth - 1 } := by
  unfold Loop.closeLevel
  simp [h.unopened, h.outside]

theorem foldl_outside {step : Loop → XmlEvent → Loop} {events : List XmlEvent}
    (hstep : ∀ loop : Loop, loop.Outside → ∀ event ∈ events,
      ∃ depth, step loop event = { loop with depth }) (h : self.Outside) :
    ∃ depth, events.foldl step self = { self with depth } := by
  induction events generalizing self with
  | nil => exact ⟨self.depth, rfl⟩
  | cons event rest ih =>
      obtain ⟨depth, hfirst⟩ := hstep self h event List.mem_cons_self
      have hafter : ({ self with depth } : Loop).Outside := ⟨h.outside, h.quiet, h.unopened⟩
      obtain ⟨depth', hrest⟩ := ih
        (fun loop hloop event hevent => hstep loop hloop event (List.mem_cons_of_mem _ hevent)) hafter
      exact ⟨depth', by rw [List.foldl_cons, hfirst, hrest]⟩

/-- Outside the table of contents nothing is read. -/
theorem navStep_outside (h : self.Outside) (event : XmlEvent)
    (hevent : ∀ tag, event = .start tag → ¬ OpensToc tag) :
    ∃ depth, navStep baseDir self event = { self with depth } := by
  cases event with
  | start tag =>
      refine ⟨self.depth + 1, ?_⟩
      unfold navStep navStart
      dsimp only
      rw [h.outside]
      by_cases hname : tag.localName = "nav".toList
      · have hkind : ¬ (attributeValue tag "type" = [] ∨
            "toc".toList ∈ (attributeValue tag "type").splitWhitespace) := fun hkind =>
          hevent tag rfl ⟨hname, hkind⟩
        rw [if_pos ⟨hname, rfl⟩, if_neg hkind]
      · rw [if_neg fun hin => hname hin.1, if_neg fun hin => Bool.false_ne_true hin.2,
          if_neg fun hin => Bool.false_ne_true hin.2]
  | endTag name =>
      refine ⟨self.depth - 1, ?_⟩
      unfold navStep navEnd
      dsimp only
      rw [if_neg fun hin => Bool.false_ne_true (h.quiet.symm.trans hin.1)]
      exact h.closeLevel
  | text content =>
      exact ⟨self.depth, if_neg fun hin => Bool.false_ne_true (h.quiet.symm.trans hin)⟩
  | docType | empty | cData | generalRef | other => exact ⟨self.depth, rfl⟩

/-- And nothing outside the `navMap`. -/
theorem ncxStep_outside (h : self.Outside) (event : XmlEvent)
    (hevent : ∀ tag, event = .start tag → tag.localName ≠ "navMap") :
    ∃ depth, ncxStep baseDir self event = { self with depth } := by
  cases event with
  | start tag =>
      refine ⟨self.depth + 1, ?_⟩
      unfold ncxStep ncxStart
      dsimp only
      rw [h.outside, if_neg (hevent tag rfl), if_neg fun hin => Bool.false_ne_true hin.2.1,
        if_neg fun hin => Bool.false_ne_true hin.2.1, if_neg fun hin => Bool.false_ne_true hin.2]
  | endTag name =>
      refine ⟨self.depth - 1, ?_⟩
      unfold ncxStep ncxEnd
      dsimp only
      rw [if_neg fun hin => Bool.false_ne_true (h.quiet.symm.trans hin.2)]
      exact h.closeLevel
  | text content =>
      exact ⟨self.depth, if_neg fun hin => Bool.false_ne_true (h.quiet.symm.trans hin)⟩
  | empty tag =>
      exact ⟨self.depth, if_neg fun hin => Bool.false_ne_true (h.outside.symm.trans hin.1)⟩
  | docType | cData | generalRef | other => exact ⟨self.depth, rfl⟩

/-- The loop just inside the outline, which opened at this depth. -/
def Loop.inOutline (depth : Nat) : Loop :=
  { inside := true, insideDepth := depth, depth }

theorem Loop.inOutline_between (depth : Nat) : (Loop.inOutline depth).Between :=
  ⟨rfl, rfl, rfl, Nat.le_refl _, fun _ htop => nomatch htop⟩

/-- The loop behind an outline. -/
def Loop.behind (finished : List NavPoint) (n insideDepth depth : Nat) : Loop :=
  { roots := finished, entries := n, insideDepth, depth }

theorem Loop.closeLevel_inOutline (finished : List NavPoint) (n depth : Nat) :
    ((Loop.inOutline depth).attached finished n).closeLevel =
      Loop.behind finished n depth (depth - 1) := by
  simp [Loop.inOutline, Loop.attached, Loop.closeLevel, Loop.behind]

/-- A whole run, around the element that holds the outline. -/
theorem foldl_document {step : Loop → XmlEvent → Loop} {tag : Tag}
    {before body after : List XmlEvent} {finished : List NavPoint} {n : Nat}
    (hend : ∀ loop : Loop, loop.reading = false → step loop (.endTag tag.name) = loop.closeLevel)
    (hstep : ∀ loop : Loop, loop.Outside → ∀ event ∈ before ++ after,
      ∃ depth, step loop event = { loop with depth })
    (hstart : ∀ depth, step { depth } (.start tag) = Loop.inOutline (depth + 1))
    (hbody : ∀ depth, body.foldl step (Loop.inOutline depth) =
      (Loop.inOutline depth).attached finished n) :
    ∃ insideDepth depth, (before ++ element tag body ++ after).foldl step {} =
      Loop.behind finished n insideDepth depth := by
  have hstart' : Loop.Outside {} := ⟨rfl, rfl, rfl⟩
  obtain ⟨depth, hbefore⟩ := foldl_outside
    (fun loop hloop event hevent => hstep loop hloop event (List.mem_append_left _ hevent))
    hstart'
  have hquiet := ((Loop.inOutline_between (depth + 1)).attached finished n).quiet
  have hbehind : (Loop.behind finished n (depth + 1) depth).Outside := ⟨rfl, rfl, rfl⟩
  obtain ⟨depth', hafter⟩ := foldl_outside
    (fun loop hloop event hevent => hstep loop hloop event (List.mem_append_right _ hevent))
    hbehind
  refine ⟨depth + 1, depth', ?_⟩
  rw [List.foldl_append, List.foldl_append, hbefore, element, List.foldl_cons, hstart,
    List.foldl_append, hbody, List.foldl_cons, List.foldl_nil, hend _ hquiet,
    Loop.closeLevel_inOutline, Nat.add_sub_cancel, hafter]
  rfl

theorem nest_flat (forest : List (Entry baseDir)) : nest (flatAll forest) = points 0 forest :=
  renumberAll_flat 0 forest

/-- A navigation document is read as the points of its forest. -/
theorem parseNav_document {forest : List (Entry baseDir)} {stream : XmlStream} {sourceHref : Str}
    (hdir : Href.parentDir sourceHref = baseDir) (hdepth : heightAll forest ≤ maxDepth)
    (hcount : countAll forest ≤ maxEntries) (h : NavDocument forest stream.events) :
    (parseNav stream sourceHref).toc = points 0 forest := by
  obtain ⟨before, after, lead, trail, body, nav, list, hevents, haround, hlead, htrail, hnav, hlist,
    hbody⟩ := h
  have hinside : ∀ depth, (lead ++ element list body ++ trail).foldl (navStep baseDir)
      (Loop.inOutline depth) =
        (Loop.inOutline depth).attached (flatAll forest) (countAll forest) := fun depth => by
    have hbetween := Loop.inOutline_between depth
    rw [List.foldl_append, List.foldl_append, foldl_gap navStep_text navStep_other hlead rfl,
      foldl_sublist hbetween (.inr ⟨list, hlist, rfl⟩) fun loop hloop hlength hentries =>
        foldl_navItems hbody hloop (by simp [hlength, Loop.inOutline, hdepth])
          (by simp [hentries, Loop.inOutline, hcount]),
      foldl_gap navStep_text navStep_other htrail (hbetween.attached _ _).quiet]
  have hstart : ∀ depth, navStep baseDir { depth } (.start nav) = Loop.inOutline (depth + 1) :=
    fun depth => by
      unfold navStep navStart
      dsimp only
      rw [if_pos ⟨hnav.name, rfl⟩, if_pos hnav.kind]
      rfl
  obtain ⟨insideDepth, depth, hrun⟩ := foldl_document navStep_end
    (fun loop hloop event hevent => navStep_outside hloop event fun tag htag =>
      haround tag (htag ▸ hevent)) hstart hinside
  unfold parseNav
  rw [hdir, hevents, hrun]
  exact (congrArg nest (List.append_nil _)).trans (nest_flat forest)

/-- An NCX is read as the points of its forest. -/
theorem parseNcx_document {forest : List (Entry baseDir)} {stream : XmlStream} {sourceHref : Str}
    (hdir : Href.parentDir sourceHref = baseDir) (hdepth : heightAll forest ≤ maxDepth)
    (hcount : countAll forest ≤ maxEntries) (h : NcxDocument forest stream.events) :
    (parseNcx stream sourceHref).toc = points 0 forest := by
  obtain ⟨before, after, body, map, hevents, haround, hmap, hbody⟩ := h
  have hinside : ∀ depth, body.foldl (ncxStep baseDir) (Loop.inOutline depth) =
      (Loop.inOutline depth).attached (flatAll forest) (countAll forest) := fun depth =>
    foldl_ncxPoints hbody (Loop.inOutline_between depth) (by simp [Loop.inOutline, hdepth])
      (by simp [Loop.inOutline, hcount])
  have hstart : ∀ depth, ncxStep baseDir { depth } (.start map) = Loop.inOutline (depth + 1) :=
    fun depth => if_pos hmap
  obtain ⟨insideDepth, depth, hrun⟩ := foldl_document ncxStep_end
    (fun loop hloop event hevent => ncxStep_outside hloop event fun tag htag =>
      haround tag (htag ▸ hevent)) hstart hinside
  unfold parseNcx
  rw [hdir, hevents, hrun]
  exact nest_flat forest

end Documents

/-! ## The plain renderings

One rendering of each kind, to show that every forest has one. -/

section Plain

variable {baseDir : Str}

def linkTag (name key : Str) (link : Link baseDir) : Tag where
  name := name
  attributes := [{ key, value := link.raw, normalized := some link.raw }]

def titleTag : Option (Link baseDir) → Tag
  | some link => linkTag "a" "href" link
  | none => plainTag "span"

def contentEvents : Option (Link baseDir) → List XmlEvent
  | some link => [.empty (linkTag "content" "src" link)]
  | none => []

mutual
def Entry.navEvents : Entry baseDir → List XmlEvent
  | .mk label link children =>
      element (plainTag "li") ([] ++ element (titleTag link) [.text label.text] ++ [] ++
        element (plainTag "ol") (navEventsAll children) ++ [])
def navEventsAll : List (Entry baseDir) → List XmlEvent
  | [] => []
  | entry :: rest => [] ++ entry.navEvents ++ navEventsAll rest
end

mutual
def Entry.ncxEvents : Entry baseDir → List XmlEvent
  | .mk label link children =>
      element (plainTag "navPoint") ([] ++ element (plainTag "navLabel")
        ([] ++ element (plainTag "text") [.text label.text] ++ []) ++ [] ++ contentEvents link ++
        ncxEventsAll children)
def ncxEventsAll : List (Entry baseDir) → List XmlEvent
  | [] => []
  | entry :: rest => [] ++ entry.ncxEvents ++ ncxEventsAll rest
end

theorem titled_text (label : Label) : Titled label [.text label.text] :=
  ⟨[label.text], rfl, by simpa using label.collapsed⟩

theorem navTitle_plain (label : Label) (link : Option (Link baseDir)) :
    NavTitle label link (titleTag link) := by
  cases link with
  | none => exact ⟨.inr rfl, rfl⟩
  | some link => exact ⟨.inl rfl, rfl⟩

theorem ncxContent_plain (link : Option (Link baseDir)) : NcxContent link (contentEvents link) := by
  cases link with
  | none => exact .inl ⟨rfl, rfl⟩
  | some link => exact .inr ⟨_, rfl, rfl, .inl rfl⟩

theorem navItems_plain : ∀ forest : List (Entry baseDir), NavItems forest (navEventsAll forest)
  | [] => .nil gap_nil
  | .mk label link children :: rest => by
      rw [navEventsAll, Entry.navEvents]
      exact .cons gap_nil gap_nil gap_nil gap_nil rfl (navTitle_plain label link)
        (titled_text label) (navItems_plain children) (.inr ⟨_, rfl, rfl⟩) (navItems_plain rest)

theorem ncxPoints_plain : ∀ forest : List (Entry baseDir), NcxPoints forest (ncxEventsAll forest)
  | [] => .nil gap_nil
  | .mk label link children :: rest => by
      rw [ncxEventsAll, Entry.ncxEvents]
      exact .cons gap_nil gap_nil gap_nil gap_nil gap_nil rfl rfl rfl (titled_text label)
        (ncxContent_plain link) (ncxPoints_plain children) (ncxPoints_plain rest)

/-- A navigation document of nothing but its table of contents. -/
def plainNav (forest : List (Entry baseDir)) : List XmlEvent :=
  [.start (plainTag "html"), .start (plainTag "body")] ++
    element (plainTag "nav") ([] ++ element (plainTag "ol") (navEventsAll forest) ++ []) ++
    [.endTag "body", .endTag "html"]

/-- An NCX with the title of the book in front of its map. -/
def plainNcx (title : Str) (forest : List (Entry baseDir)) : List XmlEvent :=
  (.start (plainTag "ncx") :: element (plainTag "docTitle") (element (plainTag "text") [.text title])) ++
    element (plainTag "navMap") (ncxEventsAll forest) ++ [.endTag "ncx"]

theorem navDocument_plain (forest : List (Entry baseDir)) : NavDocument forest (plainNav forest) := by
  refine ⟨_, _, [], [], _, _, _, rfl, ?_, gap_nil, gap_nil, ⟨rfl, .inl rfl⟩, rfl,
    navItems_plain forest⟩
  intro tag htag hopens
  have hname := hopens.name
  simp only [List.cons_append, List.nil_append, List.mem_cons, XmlEvent.start.injEq, reduceCtorEq,
    List.not_mem_nil, or_false] at htag
  rcases htag with rfl | rfl
  · exact absurd hname (by decide)
  · exact absurd hname (by decide)

theorem ncxDocument_plain (title : Str) (forest : List (Entry baseDir)) :
    NcxDocument forest (plainNcx title forest) := by
  refine ⟨_, _, _, _, rfl, ?_, rfl, ncxPoints_plain forest⟩
  intro tag htag
  simp only [element, List.cons_append, List.nil_append, List.mem_cons, XmlEvent.start.injEq,
    reduceCtorEq, List.not_mem_nil, or_false] at htag
  rcases htag with rfl | rfl | rfl <;> decide

end Plain


/-! ## The dialects agree

Both documents are read as the same forest. -/

/-- Either parser gives back the outline its document renders. -/
theorem dialects_agree {baseDir navHref ncxHref : Str} (hnav : Href.parentDir navHref = baseDir)
    (hncx : Href.parentDir ncxHref = baseDir) (forest : List (Entry baseDir))
    (hdepth : heightAll forest ≤ maxDepth) (hcount : countAll forest ≤ maxEntries)
    (nav ncx : XmlStream) (h : NavDocument forest nav.events) (h' : NcxDocument forest ncx.events) :
    (parseNav nav navHref).toc = points 0 forest ∧ (parseNcx ncx ncxHref).toc = points 0 forest :=
  ⟨parseNav_document hnav hdepth hcount h, parseNcx_document hncx hdepth hcount h'⟩

theorem part_collapsed : collapse "Part One" = "Part One" := by decide

theorem part_nonempty : "Part One".toList ≠ [] := by decide

theorem page_nonempty : "text/one%20a.xhtml".toList ≠ [] := by decide

theorem page_unmarked : '#' ∉ "text/one%20a.xhtml".toList := by decide

theorem page_resolves : Href.resolve "OEBPS" "text/one%20a.xhtml" =
    .ok (.entry "OEBPS/text/one a.xhtml") := by decide

/-- A part with a page under it, in a document of `OEBPS`. -/
def part : List (Entry "OEBPS".toList) :=
  [.mk ⟨"Part One", part_nonempty, part_collapsed⟩ none
    [.mk ⟨"Part One", part_nonempty, part_collapsed⟩ (some ⟨"text/one%20a.xhtml", "p2",
      "OEBPS/text/one a.xhtml", page_nonempty, page_unmarked, page_resolves⟩) []]]

theorem dialects_agree_part :
    (parseNav ⟨plainNav part, .eof⟩ "OEBPS/nav.xhtml").toc = points 0 part ∧
      (parseNcx ⟨plainNcx "A Book" part, .eof⟩ "OEBPS/toc.ncx").toc = points 0 part :=
  dialects_agree (by decide) (by decide) part (by decide) (by decide) _ _ (navDocument_plain part)
    (ncxDocument_plain "A Book" part)

end Nav

end GrpcEpub
