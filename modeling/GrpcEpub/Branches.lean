/-
# `GrpcEpub.Branches` — the outline that content holds

The content of a `nav` or of a `navMap` holds an outline: an item is an entry, its
title is what is written about it, and the items under it are below it.  `outline`
reads it off the content.  Items deeper than there is room for are no entries, and
what is written about them goes to the entry they stand in.

A loop arrives at the same outline from the flat events, with the entries it keeps
(`foldl_content`).

`outline` reads content as the loop does: an item with room left is an entry, an item without is
passed over like any other element, and a title is read where it stands.  `room` is how many more
levels may be opened.  `foldl_content` is the simulation: over content that flows, the loop takes
in what `own` writes and what `outline` lists, under the caps, and comes back to where it was.
-/
import GrpcEpub.Dialects
import GrpcEpub.Lib.Hierarchy

namespace GrpcEpub

namespace Nav

open Xml

/-- The entries that are kept have a label. -/
def Title.labelled (title : Title) : Bool := title.label != []

/-- An outline as the loops build it, before the depths are renumbered. -/
def trees : Hierarchy Title → List NavPoint
  | .nil => []
  | .entry title below rest => .mk title.label title.href 0 (trees below) :: trees rest

theorem trees_append (h h' : Hierarchy Title) : trees (h.append h') = trees h ++ trees h' := by
  induction h with
  | nil => rfl
  | entry title below rest _ ih => rw [Hierarchy.append, trees, trees, ih, List.cons_append]

/-- A point and what is under it, in the order of the outline. -/
theorem walkAll_trees (h : Hierarchy Title) : ∀ (depth : Nat) (out : List NavPoint),
    (NavPoint.walkAll (renumberAll depth (trees h)) out).map titleOf = out.map titleOf ++ h.listed := by
  induction h with
  | nil => exact fun _ out => (List.append_nil _).symm
  | entry title below rest ihbelow ihrest =>
      intro depth out
      rw [trees, renumberAll, renumber, NavPoint.walkAll, NavPoint.walk, ihrest, ihbelow,
        List.map_append, Hierarchy.listed, List.append_assoc, List.append_assoc]
      rfl

theorem length_trees (h : Hierarchy Title) (depth : Nat) :
    (NavPoint.walkAll (renumberAll depth (trees h)) []).length = h.count := by
  have hlisted := congrArg List.length (walkAll_trees h depth [])
  rwa [List.length_map, List.map_nil, List.nil_append, Hierarchy.length_listed] at hlisted

namespace Dialect

variable (baseDir : Str) (dialect : Dialect)

/-! ## What content holds

Three readings of one tree by the same cases: what is written about the entry it stands in, the
entries in it, and how deep these go.  Their equations say what one element adds, by its kind. -/

/-- What is written about the entry that content stands in: the label and the link that the
label reader takes from the item's own title, and from no entry inside it.  Whether they are
those that the document gives the item is another matter. -/
def own : Nat → Content → Title → Title
  | _, .nil, title => title
  | room, .leaf a rest, title =>
      own room rest (dialect.note baseDir (.resting title) a.event).title
  | room, .node tag body rest, title =>
      if dialect.isItem tag.localName ∧ 0 < room then own room rest title
      else if dialect.isTitle tag.localName then
        own room rest (dialect.titled baseDir tag body title)
      else own room rest (own room body (dialect.begins baseDir tag (.resting title)).title)

/-- The entries in content, when there is room for so many levels. -/
def outline : Nat → Content → Hierarchy Title
  | _, .nil => .nil
  | room, .leaf _ rest => outline room rest
  | room, .node tag body rest =>
      if dialect.isItem tag.localName ∧ 0 < room then
        .entry (dialect.own baseDir (room - 1) body .blank) (outline (room - 1) body)
          (outline room rest)
      else if dialect.isTitle tag.localName then outline room rest
      else (outline room body).append (outline room rest)

/-- Content in which no title holds an item. -/
def Flow : Content → Prop
  | .nil => True
  | .leaf _ rest => Flow rest
  | .node tag body rest =>
      dialect.admits tag.localName = true ∧
        (if dialect.isTitle tag.localName then dialect.Inline body else Flow body) ∧ Flow rest

/-- How deep the items nest. -/
def nesting : Content → Nat
  | .nil => 0
  | .leaf _ rest => nesting rest
  | .node tag body rest =>
      max (if dialect.isItem tag.localName then nesting body + 1
        else if dialect.isTitle tag.localName then 0 else nesting body) (nesting rest)

section Equations

variable {baseDir} {dialect} {tag : Tag} (room : Nat) (body rest : Content) (title : Title)

theorem own_item (h : dialect.isItem tag.localName = true) :
    dialect.own baseDir (room + 1) (.node tag body rest) title =
      dialect.own baseDir (room + 1) rest title := by
  rw [own, if_pos ⟨h, Nat.succ_pos room⟩]

theorem own_title (h : dialect.isTitle tag.localName = true) :
    dialect.own baseDir room (.node tag body rest) title =
      dialect.own baseDir room rest (dialect.titled baseDir tag body title) := by
  rw [own, if_neg fun hin => title_not_item dialect h hin.1, if_pos h]

theorem own_plain (hitem : ¬ (dialect.isItem tag.localName = true ∧ 0 < room))
    (htitle : dialect.isTitle tag.localName = false) :
    dialect.own baseDir room (.node tag body rest) title = dialect.own baseDir room rest
      (dialect.own baseDir room body (dialect.begins baseDir tag (.resting title)).title) := by
  rw [own, if_neg hitem, htitle, if_neg Bool.false_ne_true]

theorem outline_item (h : dialect.isItem tag.localName = true) :
    dialect.outline baseDir (room + 1) (.node tag body rest) =
      .entry (dialect.own baseDir room body .blank) (dialect.outline baseDir room body)
        (dialect.outline baseDir (room + 1) rest) := by
  rw [outline, if_pos ⟨h, Nat.succ_pos room⟩, Nat.add_sub_cancel]

theorem outline_title (h : dialect.isTitle tag.localName = true) :
    dialect.outline baseDir room (.node tag body rest) = dialect.outline baseDir room rest := by
  rw [outline, if_neg fun hin => title_not_item dialect h hin.1, if_pos h]

theorem outline_plain (hitem : ¬ (dialect.isItem tag.localName = true ∧ 0 < room))
    (htitle : dialect.isTitle tag.localName = false) :
    dialect.outline baseDir room (.node tag body rest) =
      (dialect.outline baseDir room body).append (dialect.outline baseDir room rest) := by
  rw [outline, if_neg hitem, htitle, if_neg Bool.false_ne_true]

theorem nesting_item (h : dialect.isItem tag.localName = true) :
    dialect.nesting (.node tag body rest) =
      max (dialect.nesting body + 1) (dialect.nesting rest) := by
  rw [nesting, if_pos h]

theorem nesting_title (h : dialect.isTitle tag.localName = true) :
    dialect.nesting (.node tag body rest) = dialect.nesting rest := by
  rw [nesting, if_neg (title_not_item dialect h), if_pos h, Nat.zero_max]

theorem nesting_plain (hitem : dialect.isItem tag.localName = false)
    (htitle : dialect.isTitle tag.localName = false) :
    dialect.nesting (.node tag body rest) = max (dialect.nesting body) (dialect.nesting rest) := by
  rw [nesting, hitem, htitle, if_neg Bool.false_ne_true, if_neg Bool.false_ne_true]

end Equations

/-! ## Room

Room beyond the nesting of the content makes no difference; with less, entries are lost. -/

section Room

variable {baseDir} {room room' : Nat} {content : Content}

/-- More room than there are levels makes no difference. -/
theorem own_of_room (h : dialect.nesting content ≤ room) (h' : dialect.nesting content ≤ room')
    (title : Title) : dialect.own baseDir room content title = dialect.own baseDir room' content title := by
  induction content generalizing title with
  | nil => rfl
  | leaf a rest ih => exact ih h h' _
  | node tag body rest ihbody ihrest =>
      by_cases hitem : dialect.isItem tag.localName = true
      · rw [nesting_item body rest hitem] at h h'
        obtain ⟨room, rfl⟩ : ∃ n, room = n + 1 := ⟨room - 1, by omega⟩
        obtain ⟨room', rfl⟩ : ∃ n, room' = n + 1 := ⟨room' - 1, by omega⟩
        rw [own_item _ _ _ _ hitem, own_item _ _ _ _ hitem]
        exact ihrest (by omega) (by omega) _
      · cases htitle : dialect.isTitle tag.localName with
        | true =>
            rw [nesting_title body rest htitle] at h h'
            rw [own_title _ _ _ _ htitle, own_title _ _ _ _ htitle]
            exact ihrest h h' _
        | false =>
            rw [nesting_plain body rest (Bool.eq_false_of_not_eq_true hitem) htitle] at h h'
            have hbody : dialect.nesting body ≤ room ∧ dialect.nesting body ≤ room' := by omega
            rw [own_plain _ _ _ _ (fun hin => hitem hin.1) htitle,
              own_plain _ _ _ _ (fun hin => hitem hin.1) htitle, ihbody hbody.1 hbody.2]
            exact ihrest (by omega) (by omega) _

/-- Any two rooms that are enough show the same entries. -/
theorem outline_of_room (h : dialect.nesting content ≤ room) (h' : dialect.nesting content ≤ room') :
    dialect.outline baseDir room content = dialect.outline baseDir room' content := by
  induction content generalizing room room' with
  | nil => rfl
  | leaf a rest ih => exact ih h h'
  | node tag body rest ihbody ihrest =>
      by_cases hitem : dialect.isItem tag.localName = true
      · rw [nesting_item body rest hitem] at h h'
        obtain ⟨room, rfl⟩ : ∃ n, room = n + 1 := ⟨room - 1, by omega⟩
        obtain ⟨room', rfl⟩ : ∃ n, room' = n + 1 := ⟨room' - 1, by omega⟩
        have hbody : dialect.nesting body ≤ room ∧ dialect.nesting body ≤ room' := by omega
        have hrest : dialect.nesting rest ≤ room + 1 ∧ dialect.nesting rest ≤ room' + 1 := by omega
        rw [outline_item _ _ _ hitem, outline_item _ _ _ hitem, ihbody hbody.1 hbody.2,
          own_of_room dialect hbody.1 hbody.2, ihrest hrest.1 hrest.2]
      · cases htitle : dialect.isTitle tag.localName with
        | true =>
            rw [nesting_title body rest htitle] at h h'
            rw [outline_title _ _ _ htitle, outline_title _ _ _ htitle]
            exact ihrest h h'
        | false =>
            rw [nesting_plain body rest (Bool.eq_false_of_not_eq_true hitem) htitle] at h h'
            have hbody : dialect.nesting body ≤ room ∧ dialect.nesting body ≤ room' := by omega
            have hrest : dialect.nesting rest ≤ room ∧ dialect.nesting rest ≤ room' := by omega
            rw [outline_plain _ _ _ (fun hin => hitem hin.1) htitle,
              outline_plain _ _ _ (fun hin => hitem hin.1) htitle, ihbody hbody.1 hbody.2,
              ihrest hrest.1 hrest.2]

/-- With room enough, no level is lost. -/
theorem height_outline (h : dialect.nesting content ≤ room) :
    (dialect.outline baseDir room content).height = dialect.nesting content := by
  induction content generalizing room with
  | nil => rfl
  | leaf a rest ih => exact ih h
  | node tag body rest ihbody ihrest =>
      by_cases hitem : dialect.isItem tag.localName = true
      · rw [nesting_item body rest hitem] at h ⊢
        obtain ⟨room, rfl⟩ : ∃ n, room = n + 1 := ⟨room - 1, by omega⟩
        rw [outline_item _ _ _ hitem, Hierarchy.height, ihbody (by omega), ihrest (by omega)]
      · cases htitle : dialect.isTitle tag.localName with
        | true =>
            rw [nesting_title body rest htitle] at h ⊢
            rw [outline_title _ _ _ htitle, ihrest h]
        | false =>
            rw [nesting_plain body rest (Bool.eq_false_of_not_eq_true hitem) htitle] at h ⊢
            rw [outline_plain _ _ _ (fun hin => hitem hin.1) htitle, Hierarchy.height_append,
              ihbody (by omega), ihrest (by omega)]

/-- With more room there are no fewer entries, and where an item finds none there are less. -/
theorem count_outline (h : room ≤ room') :
    (dialect.outline baseDir room content).count ≤ (dialect.outline baseDir room' content).count ∧
      (room < room' → room < dialect.nesting content →
        (dialect.outline baseDir room content).count <
          (dialect.outline baseDir room' content).count) := by
  induction content generalizing room room' with
  | nil => exact ⟨Nat.le_refl 0, fun _ hover => absurd hover (Nat.not_lt_zero _)⟩
  | leaf a rest ih => exact ih h
  | node tag body rest ihbody ihrest =>
      have hrest := ihrest h
      by_cases hitem : dialect.isItem tag.localName = true
      · have htitle := item_not_title dialect hitem
        rw [nesting_item body rest hitem]
        cases room with
        | zero =>
            cases room' with
            | zero => exact ⟨Nat.le_refl _, fun hless => absurd hless (Nat.lt_irrefl 0)⟩
            | succ room' =>
                have hbody := (ihbody (Nat.zero_le room')).1
                rw [outline_plain _ _ _ (fun hin => Nat.lt_irrefl 0 hin.2) htitle,
                  Hierarchy.count_append, outline_item _ _ _ hitem, Hierarchy.count]
                omega
        | succ room =>
            obtain ⟨room', rfl⟩ : ∃ n, room' = n + 1 := ⟨room' - 1, by omega⟩
            have hbody := ihbody (Nat.le_of_succ_le_succ h)
            rw [outline_item _ _ _ hitem, outline_item _ _ _ hitem, Hierarchy.count, Hierarchy.count]
            omega
      · cases htitle : dialect.isTitle tag.localName with
        | true =>
            rw [nesting_title body rest htitle, outline_title _ _ _ htitle, outline_title _ _ _ htitle]
            exact hrest
        | false =>
            have hbody := ihbody h
            rw [nesting_plain body rest (Bool.eq_false_of_not_eq_true hitem) htitle, outline_plain _ _ _ (fun hin => hitem hin.1) htitle,
              outline_plain _ _ _ (fun hin => hitem hin.1) htitle, Hierarchy.count_append,
              Hierarchy.count_append]
            omega

end Room

end Dialect

/-! ## What the loop does with it

`received` is a loop that has taken in some entries: the ones that are kept under the cap have
gone to the entry on top, or to the roots, and the rest have been counted.  Taking in content in
pieces is taking it in at once (`received_received`), which is what the induction needs. -/

namespace Loop

/-- The innermost open entry has been written about, and some entries under it are read. -/
def received (self : Loop) (title : Title) (below : Hierarchy Title) : Loop :=
  (self.write (.resting title)).attached (trees (below.kept Title.labelled maxEntries self.entries))
    (below.spent Title.labelled maxEntries self.entries - self.entries)

variable {self : Loop}

theorem pen_attached (finished : List NavPoint) (n : Nat) : (self.attached finished n).pen = self.pen := by
  obtain ⟨inside, insideDepth, depth, stack, roots, reading, label, entries⟩ := self
  cases stack with
  | nil => rfl
  | cons top outer =>
      obtain ⟨⟨label', href, level, children⟩, opened⟩ := top
      rfl

theorem write_attached (finished : List NavPoint) (n : Nat) (pen : Pen) :
    (self.attached finished n).write pen = (self.write pen).attached finished n := by
  obtain ⟨inside, insideDepth, depth, stack, roots, reading, label, entries⟩ := self
  cases stack with
  | nil => rfl
  | cons top outer =>
      obtain ⟨⟨label', href, level, children⟩, opened⟩ := top
      rfl

@[simp] theorem write_entries (pen : Pen) : (self.write pen).entries = self.entries := by
  unfold write
  cases self.stack <;> rfl

@[simp] theorem received_entries (title : Title) (below : Hierarchy Title) :
    (self.received title below).entries =
      below.spent Title.labelled maxEntries self.entries := by
  have hle : self.entries ≤ below.spent Title.labelled maxEntries self.entries := below.le_spent
  unfold received
  rw [attached_entries, write_entries]
  omega

@[simp] theorem received_length (title : Title) (below : Hierarchy Title) :
    (self.received title below).stack.length = self.stack.length := by
  unfold received
  rw [attached_length, write_length]

/-- Writing a title leaves the loop between two entries. -/
theorem Between.resting (h : self.Between) (title : Title) : (self.write (.resting title)).Between where
  inside := (write_inside _).trans h.inside
  quiet := by
    unfold write
    cases self.stack with
    | nil => exact h.quiet
    | cons top outer => rfl
  blank := by
    unfold write
    cases self.stack with
    | nil => exact h.blank
    | cons top outer => rfl
  below := (h.ranked.write _).below
  opened := (h.ranked.write _).opened

theorem Between.received (h : self.Between) (title : Title) (below : Hierarchy Title) :
    (self.received title below).Between := (h.resting title).attached _ _

theorem received_nil (h : self.Between) : self.received self.pen.title .nil = self := by
  have hpen : self.write (.resting self.pen.title) = self := by
    rw [← h.pen]
    exact write_pen
  unfold Loop.received
  rw [hpen, Hierarchy.kept, Hierarchy.spent, Nat.sub_self]
  exact attached_nil

theorem received_pen (title : Title) (below : Hierarchy Title) (hopen : self.stack ≠ []) :
    (self.received title below).pen = .resting title := by
  unfold received
  rw [pen_attached, pen_write hopen]

/-- Entries received one after the other are received together. -/
theorem received_received (title title' : Title) (h h' : Hierarchy Title) :
    (self.received title h).received title' h' = self.received title' (h.append h') := by
  have hle : self.entries ≤ h.spent Title.labelled maxEntries self.entries := h.le_spent
  have hle' : h.spent Title.labelled maxEntries self.entries ≤
      h'.spent Title.labelled maxEntries (h.spent Title.labelled maxEntries self.entries) :=
    h'.le_spent
  rw [received, received_entries, received, write_attached, write_write, attached_attached, received,
    Hierarchy.kept_append, trees_append, Hierarchy.spent_append]
  congr 1
  omega

/-- With no entry open there is nothing to write about. -/
theorem received_unopened (h : self.stack = []) (title title' : Title) (below : Hierarchy Title) :
    self.received title below = self.received title' below := by
  unfold received
  rw [write_nil h, write_nil h]

/-- What is written between two receptions is written on what the first has left. -/
theorem received_then (f : Title → Title) (title : Title) (h h' : Hierarchy Title) :
    (self.received title h).received (f (self.received title h).pen.title) h' =
      self.received (f title) (h.append h') := by
  rw [received_received]
  by_cases hopen : self.stack = []
  · exact received_unopened hopen _ _ _
  · rw [received_pen _ _ hopen]
    rfl

theorem write_received (f : Title → Title) (title : Title) (below : Hierarchy Title) :
    (self.write (.resting title)).received (f (self.write (.resting title)).pen.title) below =
      self.received (f title) below := by
  have hwrite : ∀ title', (self.write (.resting title)).received title' below =
      self.received title' below := fun title' => by
    unfold received
    rw [write_write, write_entries]
  rw [hwrite]
  by_cases hopen : self.stack = []
  · exact received_unopened hopen _ _ _
  · rw [pen_write hopen]
    rfl

theorem deeper_received (title : Title) (below : Hierarchy Title) :
    self.deeper.received title below = (self.received title below).deeper := by
  unfold received
  rw [deeper_write, attached_deeper]
  rfl

/-- The end of an entry that is not kept. -/
theorem closeLevel_dropped (h : self.Between) {label href : Str} {children : List NavPoint} {n : Nat}
    (hdropped : ¬ (self.entries + n < maxEntries ∧ label ≠ [])) :
    ((self.entered (.mk label href 0 [])).attached children n).closeLevel = self.attached [] n := by
  obtain ⟨inside, insideDepth, depth, stack, roots, reading, written, entries⟩ := self
  have hbelow : ¬ (inside = true ∧ depth + 1 = insideDepth) := fun hin =>
    absurd h.below (Nat.not_le.mpr (hin.2 ▸ Nat.lt_succ_self depth))
  have hdropped' : entries + n < maxEntries → label = [] := fun hroom =>
    by_contra fun hlabel => hdropped ⟨hroom, hlabel⟩
  unfold closeLevel entered attached
  cases stack with
  | nil =>
      by_cases hroom : entries + n < maxEntries <;>
        simp [NavPoint.adding, NavPoint.label, hbelow, hroom, hdropped']
  | cons parent outer =>
      obtain ⟨⟨label', href', depth', children'⟩, level⟩ := parent
      by_cases hroom : entries + n < maxEntries <;>
        simp [NavPoint.adding, NavPoint.label, hbelow, hroom, hdropped']

/-- An entry, from its start to its end. -/
theorem closeLevel_received (h : self.Between) (title : Title) (below : Hierarchy Title) :
    ((self.entered .default).received title below).closeLevel =
      self.received self.pen.title (.entry title below .nil) := by
  have hle : self.entries ≤ below.spent Title.labelled maxEntries self.entries := below.le_spent
  have hopened : (self.entered .default).received title below =
      (self.entered (.mk title.label title.href 0 [])).attached
        (trees (below.kept Title.labelled maxEntries self.entries))
        (below.spent Title.labelled maxEntries self.entries - self.entries) := by
    obtain ⟨inside, insideDepth, depth, stack, roots, reading, label, entries⟩ := self
    obtain rfl : reading = false := h.quiet
    obtain rfl : label = [] := h.blank
    rfl
  have hpen : self.write (.resting self.pen.title) = self := by
    rw [← h.pen]
    exact write_pen
  have hroom : self.entries + (below.spent Title.labelled maxEntries self.entries - self.entries) =
      below.spent Title.labelled maxEntries self.entries := by omega
  rw [hopened, received, hpen, Hierarchy.kept, Hierarchy.spent]
  by_cases hkept : below.spent Title.labelled maxEntries self.entries < maxEntries ∧
      title.labelled = true
  · have hlabel : title.label ≠ [] := by simpa [Title.labelled] using hkept.2
    rw [if_pos hkept, if_pos hkept, closeLevel_entered h hlabel (by omega)]
    congr 1
    rw [Hierarchy.spent]
    omega
  · have hdropped : ¬ (self.entries + (below.spent Title.labelled maxEntries self.entries -
        self.entries) < maxEntries ∧ title.label ≠ []) := by
      rw [hroom]
      simpa [Title.labelled] using hkept
    rw [if_neg hkept, if_neg hkept, closeLevel_dropped h hdropped]
    rfl

end Loop

namespace Dialect

variable {baseDir : Str} {self : Loop} (dialect : Dialect)

theorem begins_item {tag : Tag} (h : dialect.isItem tag.localName = true) (pen : Pen) :
    dialect.begins baseDir tag pen = pen := by
  have htitle := item_not_title dialect h
  cases dialect with
  | navDocument =>
      rw [begins, if_neg fun hin => Bool.false_ne_true (htitle.symm.trans hin.1)]
  | ncx =>
      have hcontent : tag.localName ≠ "content".toList := by
        rw [show tag.localName = "navPoint".toList from eq_of_beq h]
        decide
      rw [begins, if_neg fun hin => Bool.false_ne_true (htitle.symm.trans hin), if_neg hcontent]

/-- What is no title starts no label. -/
theorem begins_resting {tag : Tag} (h : dialect.isTitle tag.localName = false) (title : Title) :
    dialect.begins baseDir tag (.resting title) =
      .resting (dialect.begins baseDir tag (.resting title)).title := by
  cases dialect with
  | navDocument =>
      rw [begins, if_neg fun hin => Bool.false_ne_true (h.symm.trans hin.1)]
      rfl
  | ncx =>
      rw [begins, if_neg fun hin => Bool.false_ne_true (h.symm.trans hin)]
      by_cases hcontent : tag.localName = "content".toList
      · rw [if_pos hcontent]
        rfl
      · rw [if_neg hcontent]
        rfl

/-- Between two elements a leaf can change nothing but the title. -/
theorem note_resting (leaf : Leaf) (title : Title) :
    dialect.note baseDir (.resting title) leaf.event =
      .resting (dialect.note baseDir (.resting title) leaf.event).title := by
  obtain ⟨event, hflat⟩ := leaf
  cases event with
  | start tag => exact absurd hflat Bool.false_ne_true
  | endTag name => exact absurd hflat Bool.false_ne_true
  | empty tag =>
      cases dialect with
      | navDocument => rfl
      | ncx =>
          change hollow baseDir ncx tag (.resting title) =
            .resting (hollow baseDir ncx tag (.resting title)).title
          rw [hollow]
          by_cases hcontent : tag.localName = "content".toList
          · rw [if_pos hcontent]
            rfl
          · rw [if_neg hcontent]
            rfl
  | text | docType | cData | generalRef | other => rfl

/-- Between two entries an end tag ends no label. -/
theorem step_end_between {name : Str} (h : self.Between) :
    dialect.step baseDir self (.endTag name) = self.closeLevel := by
  have hends : dialect.ends (localName name) self.pen = self.pen := by
    rw [h.pen, ends.eq_def, if_neg fun hin => Bool.false_ne_true hin.1]
  rw [step_end dialect fun _ => h.quiet, hends, Loop.write_pen]

/-- The start of an element that is neither a title nor an entry. -/
theorem step_plain {tag : Tag} (h : self.Between)
    (hitem : ¬ (dialect.isItem tag.localName = true ∧ self.stack.length < maxDepth))
    (htitle : dialect.isTitle tag.localName = false) (hadmits : dialect.admits tag.localName = true) :
    dialect.step baseDir self (.start tag) = self.deeper.write
      (.resting (dialect.begins baseDir tag (.resting self.pen.title)).title) := by
  rw [← begins_resting dialect htitle, ← h.pen]
  cases hname : dialect.isItem tag.localName with
  | false => exact step_start dialect h.inside hname hadmits
  | true =>
      rw [step_item dialect h.inside hname, if_neg fun hroom => hitem ⟨hname, hroom⟩,
        begins_item dialect hname, Loop.deeper_write, Loop.write_pen]

/-- The loop gathers the outline that the content holds. -/
theorem foldl_content {content : Content} (hflow : dialect.Flow content) : ∀ {self : Loop} {room : Nat},
    self.Between → self.stack.length + room = maxDepth →
      (events content).foldl (dialect.step baseDir) self =
        self.received (dialect.own baseDir room content self.pen.title)
          (dialect.outline baseDir room content) := by
  induction content with
  | nil =>
      intro self room h _
      exact (Loop.received_nil h).symm
  | leaf a rest ih =>
      intro self room h hroom
      have hstep : dialect.step baseDir self a.event =
          self.write (.resting (dialect.note baseDir (.resting self.pen.title) a.event).title) := by
        rw [step_flat dialect a h.inside fun _ => h.quiet, ← note_resting, ← h.pen]
      unfold events at ih ⊢
      rw [Nested.foldl_spell_leaf]
      change (rest.spell markup).foldl _ (dialect.step baseDir self a.event) = _
      rw [hstep, ih hflow (h.resting _) (by rwa [Loop.write_length]), own, outline]
      exact Loop.write_received (dialect.own baseDir room rest) _ _
  | node tag body rest ihbody ihrest =>
      intro self room h hroom
      obtain ⟨hadmits, hbody, hrest⟩ := hflow
      unfold events at ihbody ihrest ⊢
      rw [Nested.foldl_spell_node]
      change (rest.spell markup).foldl _ (dialect.step baseDir
        ((body.spell markup).foldl _ (dialect.step baseDir self (.start tag))) (.endTag tag.name)) = _
      -- an item with room for it is entered, with one level less below
      by_cases hitem : dialect.isItem tag.localName = true ∧ 0 < room
      · have htitle := item_not_title dialect hitem.1
        rw [if_neg (by rw [htitle]; exact Bool.false_ne_true)] at hbody
        have hentered : (self.entered .default).stack.length + (room - 1) = maxDepth := by
          change self.stack.length + 1 + (room - 1) = maxDepth
          omega
        rw [step_item dialect h.inside hitem.1, if_pos (by omega),
          ihbody hbody (h.entered .default) hentered,
          step_end_between dialect ((h.entered .default).received _ _), Loop.closeLevel_received h,
          ihrest hrest (h.received _ _) (by rwa [Loop.received_length]), own, outline, if_pos hitem,
          if_pos hitem]
        exact Loop.received_then (dialect.own baseDir room rest) _ _ _
      · rw [own, outline, if_neg hitem, if_neg hitem]
        cases htitle : dialect.isTitle tag.localName with
        -- a title is read by the pen, where it stands
        | true =>
            rw [if_pos htitle] at hbody
            have htitled := @foldl_titled baseDir self dialect tag body htitle hadmits hbody h
            unfold events at htitled
            rw [htitled, ihrest hrest (h.resting _) (by rwa [Loop.write_length])]
            exact Loop.write_received (dialect.own baseDir room rest) _ _
        | false =>
            rw [if_neg (by rw [htitle]; exact Bool.false_ne_true)] at hbody
            -- any other element is passed through, and an item without room is one of them
            have hplain : ¬ (dialect.isItem tag.localName = true ∧ self.stack.length < maxDepth) :=
              fun hin => hitem ⟨hin.1, by omega⟩
            rw [step_plain dialect h hplain htitle hadmits, ihbody hbody (h.deeper.resting _) (by rwa [Loop.write_length]),
              Loop.write_received (dialect.own baseDir room body), Loop.deeper_received,
              step_end_between dialect (h.received _ _).deeper, Loop.closeLevel_deeper (h.received _ _),
              ihrest hrest (h.received _ _) (by rwa [Loop.received_length])]
            exact Loop.received_then (dialect.own baseDir room rest) _ _ _

end Dialect

end Nav

end GrpcEpub
