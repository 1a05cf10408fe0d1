/-
# `GrpcEpub.BrokenOff` — a document that breaks off

A reader error and the end of input leave a loop where it stands.  What it has read by
then is the outline of what is left of the document (`outlineUntil`): the entries that
have closed (`closedUntil`) and those that are still open.

A navigation document keeps them all: what is open is handed to its parent from the
inside out (`unwound_until`).  An NCX keeps what has closed (`roots_until`), so it
loses whatever stands in a labelled entry that is open (`break_costs_the_rest`).

A `Beginning` is content that ends inside some elements which are still open.  The outline of a
beginning is read by the same cases as that of content, and cutting the content of a source after
so many events gives the beginning of one section behind those that are complete (`breakAt`).
The statement compares the table that is returned with the outline until then: all of it, in
order, with its own labels and links, but for the entries whose label had not been read.
-/
import GrpcEpub.Outlines

namespace GrpcEpub

namespace Nav

open Xml

/-- The beginning of content, where it breaks off. -/
abbrev Beginning := Remnant Tag Leaf

def eventsUntil (beginning : Beginning) : List XmlEvent := beginning.spell markup

namespace Dialect

variable (baseDir : Str) (dialect : Dialect)

/-! ## What has been read

Four readings of a beginning: the outline so far, the entries of it that are still open, those
that have closed, and whether it flows as far as it goes. -/

def FlowUntil : Beginning → Prop
  | .done front => dialect.Flow front
  | .inside front tag rest =>
      dialect.Flow front ∧ dialect.admits tag.localName = true ∧
        (if dialect.isTitle tag.localName then InlineUntil rest else FlowUntil rest)
where
  /-- Broken off in a title. -/
  InlineUntil : Beginning → Prop
    | .done front => dialect.Inline front
    | .inside front tag rest =>
        dialect.Inline front ∧ dialect.isItem tag.localName = false ∧
          dialect.admits tag.localName = true ∧ InlineUntil rest

/-- What has been written about the entry that the content stands in. -/
def ownUntil : Nat → Beginning → Title → Title
  | room, .done front, title => dialect.own baseDir room front title
  | room, .inside front tag rest, title =>
      let before := dialect.own baseDir room front title
      if dialect.isItem tag.localName ∧ 0 < room then before
      else if dialect.isTitle tag.localName then
        ((eventsUntil rest).foldl (dialect.note baseDir)
          (dialect.begins baseDir tag (.resting before))).title
      else ownUntil room rest (dialect.begins baseDir tag (.resting before)).title

/-- The entries, closed or open. -/
def outlineUntil : Nat → Beginning → Hierarchy Title
  | room, .done front => dialect.outline baseDir room front
  | room, .inside front tag rest =>
      (dialect.outline baseDir room front).append
        (if dialect.isItem tag.localName ∧ 0 < room then
          .entry (dialect.ownUntil baseDir (room - 1) rest .blank) (outlineUntil (room - 1) rest) .nil
        else if dialect.isTitle tag.localName then .nil
        else outlineUntil room rest)

/-- The entries that have closed, unless they stand in an open one. -/
def closedUntil : Nat → Beginning → Hierarchy Title
  | room, .done front => dialect.outline baseDir room front
  | room, .inside front tag rest =>
      (dialect.outline baseDir room front).append
        (if dialect.isItem tag.localName ∧ 0 < room then .nil
        else if dialect.isTitle tag.localName then .nil
        else closedUntil room rest)

/-- The titles of the entries that are open, the outermost first. -/
def openUntil : Nat → Beginning → List Title
  | _, .done _ => []
  | room, .inside _ tag rest =>
      if dialect.isItem tag.localName ∧ 0 < room then
        dialect.ownUntil baseDir (room - 1) rest .blank :: openUntil (room - 1) rest
      else if dialect.isTitle tag.localName then []
      else openUntil room rest

variable {baseDir} {dialect}

/-- Where there is no outline, nothing of it is open. -/
theorem openUntil_of_nil {room : Nat} {beginning : Beginning}
    (h : dialect.outlineUntil baseDir room beginning = .nil) :
    dialect.openUntil baseDir room beginning = [] := by
  induction beginning with
  | done front => rfl
  | inside front tag rest ih =>
      rw [outlineUntil] at h
      have hnil := (Hierarchy.append_eq_nil _ _ h).2
      rw [openUntil]
      by_cases hitem : dialect.isItem tag.localName = true ∧ 0 < room
      · rw [if_pos hitem] at hnil
        cases hnil
      · rw [if_neg hitem] at hnil ⊢
        by_cases htitle : dialect.isTitle tag.localName = true
        · exact if_pos htitle
        · rw [if_neg htitle] at hnil ⊢
          exact ih hnil

/-- Nothing is lost with the open entries when none of them has a label. -/
theorem closedUntil_iff {room : Nat} {beginning : Beginning}
    (h : (dialect.outlineUntil baseDir room beginning).Headed Title.labelled) :
    (dialect.closedUntil baseDir room beginning).pruned Title.labelled =
        (dialect.outlineUntil baseDir room beginning).pruned Title.labelled ↔
      ∀ title ∈ dialect.openUntil baseDir room beginning, title.label = [] := by
  induction beginning generalizing room with
  | done front => exact iff_of_true rfl fun _ htitle => absurd htitle List.not_mem_nil
  | inside front tag rest ih =>
      rw [outlineUntil, Hierarchy.headed_append] at h
      have hcut : ∀ hier hier' : Hierarchy Title,
          ((dialect.outline baseDir room front).append hier).pruned Title.labelled =
            ((dialect.outline baseDir room front).append hier').pruned Title.labelled ↔
              hier.pruned Title.labelled = hier'.pruned Title.labelled := fun hier hier' => by
        rw [Hierarchy.pruned_append, Hierarchy.pruned_append]
        exact ⟨Hierarchy.append_inj_right _, congrArg _⟩
      rw [closedUntil, outlineUntil, openUntil, hcut]
      by_cases hitem : dialect.isItem tag.localName = true ∧ 0 < room
      · rw [if_pos hitem] at h
        rw [if_pos hitem, if_pos hitem, if_pos hitem, Hierarchy.pruned, Hierarchy.pruned,
          List.forall_mem_cons]
        by_cases hlabel : (dialect.ownUntil baseDir (room - 1) rest .blank).label = []
        · have hunlabelled :
              ¬ (dialect.ownUntil baseDir (room - 1) rest .blank).labelled = true := by
            simp [Title.labelled, hlabel]
          have hempty := h.2.1.resolve_right hunlabelled
          rw [if_neg hunlabelled, openUntil_of_nil hempty]
          exact iff_of_true rfl ⟨hlabel, fun _ htitle => absurd htitle List.not_mem_nil⟩
        · have hlabelled : (dialect.ownUntil baseDir (room - 1) rest .blank).labelled = true :=
            bne_iff_ne.mpr hlabel
          rw [if_pos hlabelled]
          exact iff_of_false (by simp) fun hopen => hlabel hopen.1
      · rw [if_neg hitem] at h
        rw [if_neg hitem, if_neg hitem, if_neg hitem]
        by_cases htitle : dialect.isTitle tag.localName = true
        · rw [if_pos htitle, if_pos htitle, if_pos htitle]
          exact iff_of_true rfl fun _ hopen => absurd hopen List.not_mem_nil
        · rw [if_neg htitle] at h
          rw [if_neg htitle, if_neg htitle, if_neg htitle]
          exact ih h.2

end Dialect

/-! ## What is left when the loop stops

`sunk` is a loop so many levels deeper and `unwound` is what closing all of them one by one would
leave.  `roots_until` says what an NCX has in its roots, `unwound_until` what a navigation
document makes of its stack. -/

namespace Loop

variable {self : Loop}

/-- The points that a navigation document keeps, with the open entries handed to their parents. -/
def unwound (self : Loop) : List NavPoint := flush none self.stack self.roots

/-- So many elements further in. -/
def sunk (self : Loop) (levels : Nat) : Loop := { self with depth := self.depth + levels }

theorem sunk_deeper (levels : Nat) : self.deeper.sunk levels = self.sunk (levels + 1) := by
  unfold deeper sunk
  dsimp only
  rw [Nat.add_right_comm, Nat.add_assoc]

/-- Change what is written about the innermost open entry. -/
def retitled (self : Loop) (f : Title → Title) : Loop := self.write (.resting (f self.pen.title))

theorem retitled_retitled (f g : Title → Title) :
    (self.retitled f).retitled g = self.retitled (g ∘ f) := by
  obtain ⟨inside, insideDepth, depth, stack, roots, reading, label, entries⟩ := self
  cases stack with
  | nil => rfl
  | cons top outer =>
      obtain ⟨⟨label', href, level, children⟩, opened⟩ := top
      rfl

theorem retitled_attached (finished : List NavPoint) (n : Nat) (f : Title → Title) :
    (self.attached finished n).retitled f = (self.retitled f).attached finished n := by
  unfold retitled
  rw [pen_attached, write_attached]

theorem retitled_deeper (f : Title → Title) : self.deeper.retitled f = (self.retitled f).deeper :=
  deeper_write _

theorem Between.retitled_id (h : self.Between) : self.retitled id = self := by
  unfold retitled
  rw [id, ← h.pen]
  exact write_pen

theorem unwound_write (pen : Pen) : (self.write pen).unwound = (self.write (.resting pen.title)).unwound := by
  obtain ⟨inside, insideDepth, depth, stack, roots, reading, label, entries⟩ := self
  cases stack <;> rfl

theorem unwound_attached (finished : List NavPoint) (m n : Nat) :
    (self.attached finished m).unwound = (self.attached finished n).unwound := by
  obtain ⟨inside, insideDepth, depth, stack, roots, reading, label, entries⟩ := self
  cases stack <;> rfl

theorem roots_write (pen : Pen) (finished : List NavPoint) (m n : Nat) :
    ((self.write pen).attached finished m).roots = (self.attached finished n).roots := by
  obtain ⟨inside, insideDepth, depth, stack, roots, reading, label, entries⟩ := self
  cases stack <;> rfl

/-- An open entry is handed to its parent when it has a label. -/
theorem unwound_entered (title : Title) (below : Hierarchy Title) (n : Nat) :
    (((self.entered .default).retitled fun _ => title).attached
      (trees (below.pruned Title.labelled)) n).unwound =
        (self.attached (trees ((Hierarchy.entry title below .nil).pruned Title.labelled)) 0).unwound := by
  obtain ⟨inside, insideDepth, depth, stack, roots, reading, label, entries⟩ := self
  change (if title.label = [] then flush none stack roots
    else flush (some (.mk title.label title.href 0 ([] ++ trees (below.pruned Title.labelled))))
      stack roots) = _
  by_cases hlabel : title.label = []
  · have hunlabelled : ¬ title.labelled = true := by simp [Title.labelled, hlabel]
    rw [if_pos hlabel, Hierarchy.pruned, if_neg hunlabelled, Hierarchy.pruned, trees]
    have hnil := @attached_nil ⟨inside, insideDepth, depth, stack, roots, reading, label, entries⟩
    rw [hnil]
    rfl
  · have hlabelled : title.labelled = true := bne_iff_ne.mpr hlabel
    rw [if_neg hlabel, Hierarchy.pruned, if_pos hlabelled, Hierarchy.pruned, trees, trees]
    cases stack with
    | nil => exact (List.append_nil _).symm
    | cons parent outer =>
        obtain ⟨⟨label', href, level, children⟩, opened⟩ := parent
        rfl

end Loop

namespace Dialect

variable {baseDir : Str} {dialect : Dialect} {self : Loop}

theorem events_inside (front : Content) (tag : Tag) (rest : Beginning) :
    eventsUntil (.inside front tag rest) = events front ++ .start tag :: eventsUntil rest := rfl

/-- Broken off in a title. -/
theorem foldl_inlineUntil {beginning : Beginning} (hinline : FlowUntil.InlineUntil dialect beginning)
    (hinside : self.inside = true) (hsettled : self.Settled) (hranked : self.Ranked) :
    ∃ levels, (eventsUntil beginning).foldl (dialect.step baseDir) self =
      (self.write ((eventsUntil beginning).foldl (dialect.note baseDir) self.pen)).sunk levels := by
  induction beginning generalizing self with
  | done front => exact ⟨0, foldl_inline dialect hinline hinside hsettled hranked⟩
  | inside front tag rest ih =>
      obtain ⟨hfront, hitem, hadmits, hrest⟩ := hinline
      have hwritten : (self.write ((events front).foldl (dialect.note baseDir) self.pen)).inside = true :=
        (Loop.write_inside _).trans hinside
      rw [events_inside, List.foldl_append, List.foldl_cons, List.foldl_append, List.foldl_cons,
        foldl_inline dialect hfront hinside hsettled hranked, step_start dialect hwritten hitem hadmits]
      have hdeeper : (self.write ((events front).foldl (dialect.note baseDir) self.pen)).deeper.inside =
          true := hwritten
      obtain ⟨levels, hrun⟩ := ih hrest ((Loop.write_inside _).trans hdeeper)
        ((hsettled.write _).deeper.write _) ((hranked.write _).deeper.write _)
      refine ⟨levels + 1, ?_⟩
      rw [hrun, Loop.write_then ((eventsUntil rest).foldl (dialect.note baseDir)), Loop.deeper_write,
        Loop.write_then fun pen => (eventsUntil rest).foldl (dialect.note baseDir)
          (dialect.begins baseDir tag pen), Loop.sunk_deeper]
      rfl

/-- What a navigation document keeps when it breaks off in an outline. -/
theorem unwound_until {beginning : Beginning} (hflow : dialect.FlowUntil beginning) :
    ∀ {self : Loop} {room : Nat}, self.Between → self.stack.length + room = maxDepth →
      self.entries + ((dialect.outlineUntil baseDir room beginning).listed.filter
        Title.labelled).length ≤ maxEntries →
      ((eventsUntil beginning).foldl (dialect.step baseDir) self).unwound =
        ((self.retitled (dialect.ownUntil baseDir room beginning)).attached
          (trees ((dialect.outlineUntil baseDir room beginning).pruned Title.labelled)) 0).unwound := by
  induction beginning with
  | done front =>
      intro self room h hroom hcount
      rw [outlineUntil] at hcount ⊢
      change ((events front).foldl (dialect.step baseDir) self).unwound = _
      rw [foldl_content dialect hflow h hroom, Loop.received, Hierarchy.kept_of_room hcount,
        Loop.unwound_attached _ _ 0]
      rfl
  | inside front tag rest ih =>
      intro self room h hroom hcount
      obtain ⟨hfront, hadmits, hrest⟩ := hflow
      rw [outlineUntil, Hierarchy.listed_append, List.filter_append, List.length_append] at hcount
      -- what is complete in front of the open element has been kept, since nothing meets the cap
      have hkept : self.received (dialect.own baseDir room front self.pen.title)
          (dialect.outline baseDir room front) =
            (self.retitled (dialect.own baseDir room front)).attached
              (trees ((dialect.outline baseDir room front).pruned Title.labelled))
              ((dialect.outline baseDir room front).listed.filter Title.labelled).length := by
        rw [Loop.received, Hierarchy.kept_of_room (by omega), Hierarchy.spent_of_room (by omega),
          Nat.add_sub_cancel_left]
        rfl
      have hbetween := h.received (dialect.own baseDir room front self.pen.title)
        (dialect.outline baseDir room front)
      have hlength : (self.received (dialect.own baseDir room front self.pen.title)
          (dialect.outline baseDir room front)).stack.length + room = maxDepth := by
        rwa [Loop.received_length]
      -- and what comes below is appended to it
      have hjoin : ∀ (f : Title → Title) (below : Hierarchy Title),
          (((self.received (dialect.own baseDir room front self.pen.title)
            (dialect.outline baseDir room front)).retitled f).attached
              (trees (below.pruned Title.labelled)) 0).unwound =
            ((self.retitled (f ∘ dialect.own baseDir room front)).attached
              (trees (((dialect.outline baseDir room front).append below).pruned
                Title.labelled)) 0).unwound := fun f below => by
        rw [hkept, Loop.retitled_attached, Loop.retitled_retitled, Loop.attached_attached,
          Hierarchy.pruned_append, trees_append, Loop.unwound_attached _ _ 0]
      have hentries : (self.received (dialect.own baseDir room front self.pen.title)
          (dialect.outline baseDir room front)).entries = self.entries +
            ((dialect.outline baseDir room front).listed.filter Title.labelled).length := by
        rw [Loop.received_entries, Hierarchy.spent_of_room (by omega)]
      rw [events_inside, List.foldl_append, List.foldl_cons, foldl_content dialect hfront h hroom]
      generalize self.received (dialect.own baseDir room front self.pen.title)
        (dialect.outline baseDir room front) = loop at hbetween hlength hjoin hentries ⊢
      -- the open element is an item, a title, or neither
      by_cases hitem : dialect.isItem tag.localName = true ∧ 0 < room
      · have hown : dialect.ownUntil baseDir room (.inside front tag rest) =
            id ∘ dialect.own baseDir room front := funext fun title => if_pos hitem
        rw [if_neg fun htitle => title_not_item dialect htitle hitem.1] at hrest
        rw [if_pos hitem] at hcount
        rw [hown, outlineUntil, if_pos hitem, ← hjoin, step_item dialect hbetween.inside hitem.1,
          if_pos (by omega)]
        rw [Hierarchy.listed, Hierarchy.listed, List.append_nil] at hcount
        -- the item itself may count or not, so the entries below it are no more than with it
        have hbelow := ((dialect.outlineUntil baseDir (room - 1) rest).listed.sublist_cons_self
          (dialect.ownUntil baseDir (room - 1) rest .blank)).filter Title.labelled
        have hle := hbelow.length_le
        have hroom' : (loop.entered .default).stack.length + (room - 1) = maxDepth := by
          change loop.stack.length + 1 + (room - 1) = maxDepth
          omega
        have hrun := ih hrest (hbetween.entered .default) hroom' (by
          change loop.entries + _ ≤ _
          omega)
        rw [hrun, hbetween.retitled_id]
        exact Loop.unwound_entered _ _ 0
      · rw [if_neg hitem] at hcount
        have hplain : ¬ (dialect.isItem tag.localName = true ∧ loop.stack.length < maxDepth) :=
          fun hin => hitem ⟨hin.1, by omega⟩
        cases htitle : dialect.isTitle tag.localName with
        | true =>
            have hown : dialect.ownUntil baseDir room (.inside front tag rest) =
                (fun title => ((eventsUntil rest).foldl (dialect.note baseDir)
                  (dialect.begins baseDir tag (.resting title))).title) ∘
                    dialect.own baseDir room front := funext fun title => by
              rw [ownUntil, if_neg hitem, if_pos htitle]
              rfl
            rw [if_pos htitle] at hrest
            have hname : dialect.isItem tag.localName = false :=
              Bool.eq_false_of_not_eq_true (title_not_item dialect htitle)
            have hdeeper : loop.deeper.inside = true := hbetween.inside
            have hsettled : loop.Settled := fun _ => hbetween.quiet
            obtain ⟨levels, hrun⟩ := @foldl_inlineUntil baseDir dialect _ rest hrest
              ((Loop.write_inside (dialect.begins baseDir tag loop.pen)).trans hdeeper)
              (hsettled.deeper.write _) (hbetween.ranked.deeper.write _)
            rw [hown, outlineUntil, if_neg hitem, if_pos htitle, ← hjoin,
              step_start dialect hbetween.inside hname hadmits, hrun,
              Loop.write_then ((eventsUntil rest).foldl (dialect.note baseDir)), Hierarchy.pruned, trees,
              Loop.attached_nil, Loop.deeper_write, hbetween.pen]
            exact Loop.unwound_write _
        | false =>
            rw [if_neg (by rw [htitle]; exact Bool.false_ne_true)] at hrest hcount
            have hown : dialect.ownUntil baseDir room (.inside front tag rest) =
                (fun title => dialect.ownUntil baseDir room rest
                  (dialect.begins baseDir tag (.resting title)).title) ∘
                    dialect.own baseDir room front := funext fun title => by
              rw [ownUntil, if_neg hitem, htitle]
              rfl
            rw [hown, outlineUntil, if_neg hitem, if_neg (by rw [htitle]; exact Bool.false_ne_true),
              ← hjoin, step_plain dialect hbetween hplain htitle hadmits,
              ih hrest (hbetween.deeper.resting _) (by rwa [Loop.write_length]) (by
                rw [Loop.write_entries]
                change loop.entries + _ ≤ _
                omega)]
            change ((((loop.deeper.retitled fun title =>
              (dialect.begins baseDir tag (.resting title)).title).retitled _).attached _ 0)).unwound = _
            rw [Loop.retitled_retitled, Loop.retitled_deeper, Loop.attached_deeper]
            rfl

/-- What an NCX keeps when it breaks off in an outline. -/
theorem roots_until {beginning : Beginning} (hflow : dialect.FlowUntil beginning) :
    ∀ {self : Loop} {room : Nat}, self.Between → self.stack.length + room = maxDepth →
      self.entries + ((dialect.outlineUntil baseDir room beginning).listed.filter
        Title.labelled).length ≤ maxEntries →
      ((eventsUntil beginning).foldl (dialect.step baseDir) self).roots = (self.attached
        (trees ((dialect.closedUntil baseDir room beginning).pruned Title.labelled)) 0).roots := by
  induction beginning with
  | done front =>
      intro self room h hroom hcount
      rw [outlineUntil] at hcount
      change ((events front).foldl (dialect.step baseDir) self).roots = _
      rw [foldl_content dialect hflow h hroom, Loop.received, Hierarchy.kept_of_room hcount]
      exact Loop.roots_write _ _ _ _
  | inside front tag rest ih =>
      intro self room h hroom hcount
      obtain ⟨hfront, hadmits, hrest⟩ := hflow
      rw [outlineUntil, Hierarchy.listed_append, List.filter_append, List.length_append] at hcount
      have hbetween := h.received (dialect.own baseDir room front self.pen.title)
        (dialect.outline baseDir room front)
      have hlength : (self.received (dialect.own baseDir room front self.pen.title)
          (dialect.outline baseDir room front)).stack.length + room = maxDepth := by
        rwa [Loop.received_length]
      -- as in `unwound_until`, but for the roots alone
      have hjoin : ∀ below : Hierarchy Title,
          ((self.received (dialect.own baseDir room front self.pen.title)
            (dialect.outline baseDir room front)).attached
              (trees (below.pruned Title.labelled)) 0).roots =
            (self.attached (trees (((dialect.outline baseDir room front).append below).pruned
              Title.labelled)) 0).roots := fun below => by
        rw [Loop.received, Hierarchy.kept_of_room (by omega), Loop.attached_attached,
          Hierarchy.pruned_append, trees_append, Loop.roots_write _ _ _ 0]
      have hentries : (self.received (dialect.own baseDir room front self.pen.title)
          (dialect.outline baseDir room front)).entries = self.entries +
            ((dialect.outline baseDir room front).listed.filter Title.labelled).length := by
        rw [Loop.received_entries, Hierarchy.spent_of_room (by omega)]
      rw [events_inside, List.foldl_append, List.foldl_cons, foldl_content dialect hfront h hroom,
        closedUntil, ← hjoin]
      generalize self.received (dialect.own baseDir room front self.pen.title)
        (dialect.outline baseDir room front) = loop at hbetween hlength hentries ⊢
      -- an open item has no part in the roots, and neither has an open title
      by_cases hitem : dialect.isItem tag.localName = true ∧ 0 < room
      · rw [if_neg fun htitle => title_not_item dialect htitle hitem.1] at hrest
        rw [if_pos hitem] at hcount
        rw [if_pos hitem, step_item dialect hbetween.inside hitem.1, if_pos (by omega),
          Hierarchy.pruned, trees, Loop.attached_nil]
        rw [Hierarchy.listed, Hierarchy.listed, List.append_nil] at hcount
        have hbelow := ((dialect.outlineUntil baseDir (room - 1) rest).listed.sublist_cons_self
          (dialect.ownUntil baseDir (room - 1) rest .blank)).filter Title.labelled
        have hle := hbelow.length_le
        have hroom' : (loop.entered .default).stack.length + (room - 1) = maxDepth := by
          change loop.stack.length + 1 + (room - 1) = maxDepth
          omega
        exact ih hrest (hbetween.entered .default) hroom' (by
          change loop.entries + _ ≤ _
          omega)
      · rw [if_neg hitem] at hcount ⊢
        have hplain : ¬ (dialect.isItem tag.localName = true ∧ loop.stack.length < maxDepth) :=
          fun hin => hitem ⟨hin.1, by omega⟩
        cases htitle : dialect.isTitle tag.localName with
        | true =>
            rw [if_pos htitle] at hrest
            have hname : dialect.isItem tag.localName = false :=
              Bool.eq_false_of_not_eq_true (title_not_item dialect htitle)
            have hdeeper : loop.deeper.inside = true := hbetween.inside
            have hsettled : loop.Settled := fun _ => hbetween.quiet
            obtain ⟨levels, hrun⟩ := @foldl_inlineUntil baseDir dialect _ rest hrest
              ((Loop.write_inside (dialect.begins baseDir tag loop.pen)).trans hdeeper)
              (hsettled.deeper.write _) (hbetween.ranked.deeper.write _)
            rw [if_pos rfl, step_start dialect hbetween.inside hname hadmits, hrun,
              Loop.write_then ((eventsUntil rest).foldl (dialect.note baseDir)), Loop.deeper_write,
              Hierarchy.pruned, trees, Loop.attached_nil]
            have hroots := loop.roots_write ((eventsUntil rest).foldl (dialect.note baseDir)
              (dialect.begins baseDir tag loop.pen)) [] 0 0
            rwa [Loop.attached_nil, Loop.attached_nil] at hroots
        | false =>
            rw [if_neg (by rw [htitle]; exact Bool.false_ne_true)] at hrest hcount
            rw [if_neg Bool.false_ne_true, step_plain dialect hbetween hplain htitle hadmits,
              ih hrest (hbetween.deeper.resting _) (by rwa [Loop.write_length]) (by
                rw [Loop.write_entries]
                change loop.entries + _ ≤ _
                omega), Loop.roots_write _ _ _ 0, Loop.attached_deeper]
            rfl

/-! ## Content that breaks off

Breaking content off keeps its flow, and the outlines of the beginnings of one content are
beginnings of its outline. -/

theorem inline_append_leaf {beginning : Beginning} (a : Leaf)
    (h : FlowUntil.InlineUntil dialect beginning) : FlowUntil.InlineUntil dialect (beginning.leaf a) := by
  cases beginning <;> exact h

theorem flow_leaf {beginning : Beginning} (a : Leaf) (h : dialect.FlowUntil beginning) :
    dialect.FlowUntil (beginning.leaf a) := by
  cases beginning <;> exact h

/-- Inline content that breaks off is inline content up to there. -/
theorem inlineUntil_breakOff {content : Content} (h : dialect.Inline content) (n : Nat) :
    FlowUntil.InlineUntil dialect (content.breakOff n) := by
  induction content generalizing n with
  | nil => cases n <;> exact trivial
  | leaf a rest ih =>
      cases n with
      | zero => exact trivial
      | succ n => exact inline_append_leaf a (ih h n)
  | node tag body rest ihbody ihrest =>
      obtain ⟨hitem, hadmits, hbody, hrest⟩ := h
      cases n with
      | zero => exact trivial
      | succ n =>
          rw [Nested.breakOff]
          split
          · exact ⟨trivial, hitem, hadmits, ihbody hbody n⟩
          · have hbehind := ihrest hrest (n - body.size - 1)
            generalize rest.breakOff (n - body.size - 1) = beginning at hbehind ⊢
            cases beginning with
            | done front => exact ⟨hitem, hadmits, hbody, hbehind⟩
            | inside front tag' inner => exact ⟨⟨hitem, hadmits, hbody, hbehind.1⟩, hbehind.2⟩

/-- And so is flow content. -/
theorem flowUntil_breakOff {content : Content} (h : dialect.Flow content) (n : Nat) :
    dialect.FlowUntil (content.breakOff n) := by
  induction content generalizing n with
  | nil => cases n <;> exact trivial
  | leaf a rest ih =>
      cases n with
      | zero => exact trivial
      | succ n => exact flow_leaf a (ih h n)
  | node tag body rest ihbody ihrest =>
      obtain ⟨hadmits, hbody, hrest⟩ := h
      cases n with
      | zero => exact trivial
      | succ n =>
          rw [Nested.breakOff]
          split
          · refine ⟨trivial, hadmits, ?_⟩
            split
            · rename_i htitle
              rw [if_pos htitle] at hbody
              exact inlineUntil_breakOff hbody n
            · rename_i htitle
              rw [if_neg htitle] at hbody
              exact ihbody hbody n
          · have hbehind := ihrest hrest (n - body.size - 1)
            generalize rest.breakOff (n - body.size - 1) = beginning at hbehind ⊢
            cases beginning with
            | done front => exact ⟨hadmits, hbody, hbehind⟩
            | inside front tag' inner => exact ⟨⟨hadmits, hbody, hbehind.1⟩, hbehind.2⟩

theorem outlineUntil_leaf (room : Nat) (a : Leaf) (beginning : Beginning) :
    dialect.outlineUntil baseDir room (beginning.leaf a) =
      dialect.outlineUntil baseDir room beginning := by
  cases beginning <;> rfl

theorem outline_node (room : Nat) (tag : Tag) (body rest : Content) :
    dialect.outline baseDir room (.node tag body rest) =
      (dialect.outline baseDir room (.node tag body .nil)).append
        (dialect.outline baseDir room rest) := by
  rw [outline, outline, outline]
  split
  · rfl
  · split
    · rfl
    · rw [Hierarchy.append_nil]

theorem outlineUntil_node (room : Nat) (tag : Tag) (body : Content) (beginning : Beginning) :
    dialect.outlineUntil baseDir room (beginning.node tag body) =
      (dialect.outline baseDir room (.node tag body .nil)).append
        (dialect.outlineUntil baseDir room beginning) := by
  cases beginning with
  | done front => exact outline_node room tag body front
  | inside front tag' inner =>
      rw [Remnant.node, outlineUntil, outline_node, outlineUntil, Hierarchy.append_assoc]

/-- There are no more entries than when the content is read to its end. -/
theorem count_outlineUntil_le (room n : Nat) (content : Content) :
    (dialect.outlineUntil baseDir room (content.breakOff n)).count ≤
      (dialect.outline baseDir room content).count := by
  induction content generalizing room n with
  | nil => cases n <;> exact Nat.le_refl 0
  | leaf a rest ih =>
      cases n with
      | zero => exact Nat.zero_le _
      | succ n =>
          rw [Nested.breakOff, outlineUntil_leaf]
          exact ih room n
  | node tag body rest ihbody ihrest =>
      cases n with
      | zero => exact Nat.zero_le _
      | succ n =>
          rw [Nested.breakOff]
          split
          · rw [outlineUntil, outline, outline, Hierarchy.append]
            split
            · have hbody := ihbody (room - 1) n
              rw [Hierarchy.count, Hierarchy.count, Hierarchy.count]
              omega
            · split
              · exact Nat.zero_le _
              · rw [Hierarchy.count_append]
                exact (ihbody room n).trans (Nat.le_add_right _ _)
          · rw [outlineUntil_node, outline_node room tag body rest, Hierarchy.count_append,
              Hierarchy.count_append]
            exact Nat.add_le_add_left (ihrest room _) _

end Dialect

/-! ## A document that breaks off

The cut falls into one section, between two or behind the last. -/

variable {dialect : Dialect}

/-- What has been read after so many events: some whole outlines, and the beginning of one. -/
def breakAt : Nat → List (Section dialect) → List Content × Beginning
  | _, [] => ([], .done .nil)
  | n, part :: parts =>
      if n ≤ part.around.length + 1 + part.content.size then
        ([], part.content.breakOff (n - part.around.length - 1))
      else
        let (read, beginning) := breakAt (n - part.events.length) parts
        (part.content :: read, beginning)

namespace Source

variable (source : Source dialect) (sourceHref : Str) (n : Nat)

/-- The entries after so many events, closed or open. -/
def outlineUntil : Hierarchy Title :=
  (dialect.outlines (Href.parentDir sourceHref) maxDepth (breakAt n source.sections).1).append
    (dialect.outlineUntil (Href.parentDir sourceHref) maxDepth (breakAt n source.sections).2)

def closedUntil : Hierarchy Title :=
  (dialect.outlines (Href.parentDir sourceHref) maxDepth (breakAt n source.sections).1).append
    (dialect.closedUntil (Href.parentDir sourceHref) maxDepth (breakAt n source.sections).2)

/-- The titles of the open entries. -/
def openUntil : List Title :=
  dialect.openUntil (Href.parentDir sourceHref) maxDepth (breakAt n source.sections).2

end Source

theorem length_element (tag : Tag) (body : List XmlEvent) :
    (element tag body).length = body.length + 2 := by
  rw [element, List.length_cons, List.length_append]
  rfl

theorem length_section (part : Section dialect) :
    part.events.length = part.around.length + (part.content.size + 2) := by
  rw [Section.events, List.length_append, length_element, Nav.events, Nested.length_spell]

/-- An element broken off: nothing of it is left, or what is left of its content. -/
theorem take_section (part : Section dialect) {n : Nat}
    (h : n ≤ part.around.length + 1 + part.content.size) :
    (part.events.take n = part.around.take n ∧
        part.content.breakOff (n - part.around.length - 1) = .done .nil) ∨
      part.events.take n = part.around ++
        .start part.tag :: eventsUntil (part.content.breakOff (n - part.around.length - 1)) := by
  by_cases hbefore : n ≤ part.around.length
  · left
    rw [Section.events, List.take_append_of_le_length hbefore,
      show n - part.around.length - 1 = 0 by omega]
    exact ⟨rfl, by cases part.content <;> rfl⟩
  · right
    have hsum : n = part.around.length + (n - part.around.length - 1 + 1) := by omega
    have hinside : n - part.around.length - 1 ≤ (Nav.events part.content).length := by
      rw [Nav.events, Nested.length_spell]
      omega
    rw [eventsUntil, Nested.spell_breakOff]
    conv_lhs => rw [hsum, Section.events, List.take_length_add_append, element, List.take_succ_cons,
      List.take_append_of_le_length hinside]
    rfl

theorem foreign_take {around : List XmlEvent} (h : dialect.Foreign around) (n : Nat) :
    dialect.Foreign (around.take n) := fun tag htag => h tag (List.mem_of_mem_take htag)

section Run

variable (baseDir : Str)

/-- The loop where a document breaks off, among its outlines. -/
theorem foldl_breakAt (parts : List (Section dialect)) :
    ∀ (finished : List NavPoint) (count insideDepth depth n : Nat),
      n ≤ (sectionEvents parts).length →
      count + (((dialect.outlines baseDir maxDepth (breakAt n parts).1).append
        (dialect.outlineUntil baseDir maxDepth (breakAt n parts).2)).listed.filter
          Title.labelled).length ≤ maxEntries →
      (((sectionEvents parts).take n).foldl (dialect.step baseDir)
          (.behind finished count insideDepth depth)).unwound = finished ++
        trees (((dialect.outlines baseDir maxDepth (breakAt n parts).1).append
          (dialect.outlineUntil baseDir maxDepth (breakAt n parts).2)).pruned Title.labelled) ∧
      (((sectionEvents parts).take n).foldl (dialect.step baseDir)
          (.behind finished count insideDepth depth)).roots = finished ++
        trees (((dialect.outlines baseDir maxDepth (breakAt n parts).1).append
          (dialect.closedUntil baseDir maxDepth (breakAt n parts).2)).pruned Title.labelled) := by
  induction parts with
  | nil =>
      intro finished count insideDepth depth n hn _
      obtain rfl : n = 0 := Nat.le_zero.mp hn
      exact ⟨rfl, (List.append_nil _).symm⟩
  | cons part parts ih =>
      intro finished count insideDepth depth n hn hcount
      rw [breakAt] at hcount ⊢
      -- the document breaks off in this section, or behind it
      by_cases hinside : n ≤ part.around.length + 1 + part.content.size
      · rw [if_pos hinside] at hcount ⊢
        have hlength : n ≤ part.events.length := by
          rw [length_section]
          omega
        rw [sectionEvents, List.take_append_of_le_length hlength]
        rcases take_section part hinside with ⟨htake, hnil⟩ | htake
        · obtain ⟨depth', hrun⟩ := Dialect.foldl_foreign baseDir (foreign_take part.foreign n)
            finished count insideDepth depth
          rw [htake, hrun, hnil]
          exact ⟨rfl, (List.append_nil _).symm⟩
        · obtain ⟨depth', hfront⟩ := Dialect.foldl_foreign baseDir part.foreign finished count
            insideDepth depth
          have hflow := Dialect.flowUntil_breakOff part.flow (n - part.around.length - 1)
          have hbetween := Loop.within_between finished count (depth' + 1)
          rw [htake, List.foldl_append, hfront, List.foldl_cons, Dialect.step_opens part.opens]
          constructor
          · rw [Dialect.unwound_until hflow hbetween (Nat.zero_add _) hcount]
            exact List.append_nil _
          · rw [Dialect.roots_until hflow hbetween (Nat.zero_add _) hcount]
            rfl
      · rw [if_neg hinside] at hcount ⊢
        have hsum : n = part.events.length + (n - part.events.length) := by
          rw [length_section]
          omega
        have hn' : n - part.events.length ≤ (sectionEvents parts).length := by
          rw [sectionEvents, List.length_append] at hn
          omega
        obtain ⟨insideDepth', depth', hfirst⟩ :=
          foldl_section baseDir part finished count insideDepth depth
        have hrest := ih (finished ++ trees ((dialect.outline baseDir maxDepth part.content).kept
            Title.labelled maxEntries count))
          ((dialect.outline baseDir maxDepth part.content).spent Title.labelled maxEntries count)
          insideDepth' depth' (n - part.events.length) hn'
        have htake : (sectionEvents (part :: parts)).take n =
            part.events ++ (sectionEvents parts).take (n - part.events.length) := by
          conv_lhs => rw [hsum, sectionEvents, List.take_length_add_append]
        rw [htake, List.foldl_append, hfirst]
        cases hbreak : breakAt (n - part.events.length) parts with
        | mk read beginning =>
            rw [hbreak] at hcount hrest
            dsimp only at hcount hrest ⊢
            rw [Dialect.outlines, Hierarchy.append_assoc, Hierarchy.listed_append, List.filter_append,
              List.length_append] at hcount
            rw [Hierarchy.kept_of_room (by omega), Hierarchy.spent_of_room (by omega)] at hrest ⊢
            obtain ⟨hunwound, hroots⟩ := hrest (by omega)
            constructor
            · rw [hunwound, Dialect.outlines, Hierarchy.append_assoc,
                Hierarchy.pruned_append (dialect.outline baseDir maxDepth part.content), trees_append,
                List.append_assoc]
            · rw [hroots, Dialect.outlines, Hierarchy.append_assoc,
                Hierarchy.pruned_append (dialect.outline baseDir maxDepth part.content), trees_append,
                List.append_assoc]

theorem breakAt_behind (parts : List (Section dialect)) {n : Nat}
    (h : (sectionEvents parts).length ≤ n) :
    breakAt n parts = (parts.map Section.content, .done .nil) := by
  induction parts generalizing n with
  | nil => cases n <;> rfl
  | cons part parts ih =>
      rw [sectionEvents, List.length_append, length_section] at h
      have hbehind : ¬ n ≤ part.around.length + 1 + part.content.size := by omega
      rw [breakAt, if_neg hbehind, ih (by rw [length_section]; omega)]
      rfl

/-- No more entries stand in a beginning than in the whole. -/
theorem count_breakAt_le (parts : List (Section dialect)) (n : Nat) :
    ((dialect.outlines baseDir maxDepth (breakAt n parts).1).append
      (dialect.outlineUntil baseDir maxDepth (breakAt n parts).2)).count ≤
        (dialect.outlines baseDir maxDepth (parts.map Section.content)).count := by
  induction parts generalizing n with
  | nil => cases n <;> exact Nat.le_refl 0
  | cons part parts ih =>
      rw [breakAt, List.map_cons, Dialect.outlines,
        Hierarchy.count_append (dialect.outline baseDir maxDepth part.content)]
      split
      · exact (Dialect.count_outlineUntil_le maxDepth _ _).trans (Nat.le_add_right _ _)
      · have hrest := ih (n - part.events.length)
        cases hbreak : breakAt (n - part.events.length) parts with
        | mk read beginning =>
            rw [hbreak] at hrest
            dsimp only at hrest ⊢
            rw [Dialect.outlines, Hierarchy.append_assoc,
              Hierarchy.count_append (dialect.outline baseDir maxDepth part.content)]
            exact Nat.add_le_add_left hrest _

end Run

section Until

variable (source : Source dialect) (sourceHref : Str) (n : Nat)

/-- Behind the last section, the outline so far is the outline. -/
theorem outlineUntil_behind (h : (sectionEvents source.sections).length ≤ n) :
    source.outlineUntil sourceHref n = source.outline (Href.parentDir sourceHref) maxDepth := by
  rw [Source.outlineUntil, breakAt_behind _ h]
  exact Hierarchy.append_nil _

/-- And every entry in it has closed. -/
theorem closedUntil_behind (h : (sectionEvents source.sections).length ≤ n) :
    source.closedUntil sourceHref n = source.outline (Href.parentDir sourceHref) maxDepth := by
  rw [Source.closedUntil, breakAt_behind _ h]
  exact Hierarchy.append_nil _

/-- The loop where a document breaks off. -/
theorem foldl_until (hcount : (source.outline (Href.parentDir sourceHref) maxDepth).count ≤ maxEntries) :
    ((source.events.take n).foldl (dialect.step (Href.parentDir sourceHref)) {}).unwound =
        trees ((source.outlineUntil sourceHref n).pruned Title.labelled) ∧
      ((source.events.take n).foldl (dialect.step (Href.parentDir sourceHref)) {}).roots =
        trees ((source.closedUntil sourceHref n).pruned Title.labelled) := by
  by_cases hn : n ≤ (sectionEvents source.sections).length
  · have hbound := (List.length_filter_le Title.labelled (source.outlineUntil sourceHref n).listed).trans
      ((Hierarchy.length_listed _).le.trans (count_breakAt_le (Href.parentDir sourceHref)
        source.sections n))
    rw [Source.events, List.take_append_of_le_length hn]
    exact foldl_breakAt (Href.parentDir sourceHref) source.sections [] 0 0 0 n hn
      ((Nat.zero_add _).le.trans (hbound.trans hcount))
  · have hbehind : (sectionEvents source.sections).length ≤ n := Nat.le_of_not_le hn
    have hlabelled := (List.length_filter_le Title.labelled
      (source.outline (Href.parentDir sourceHref) maxDepth).listed).trans (Hierarchy.length_listed _).le
    obtain ⟨insideDepth, depth, hsections⟩ := foldl_outlines (Href.parentDir sourceHref) source
    have htake : source.events.take n = sectionEvents source.sections ++
        source.rest.take (n - (sectionEvents source.sections).length) := by
      rw [Source.events, List.take_append, List.take_of_length_le hbehind]
    rw [Hierarchy.kept_of_room ((Nat.zero_add _).le.trans (hlabelled.trans hcount))] at hsections
    obtain ⟨depth', hrest⟩ := Dialect.foldl_foreign (Href.parentDir sourceHref)
      (foreign_take source.foreign (n - (sectionEvents source.sections).length)) _ _ insideDepth depth
    rw [outlineUntil_behind _ _ _ hbehind, closedUntil_behind _ _ _ hbehind, htake, List.foldl_append,
      hsections, hrest]
    exact ⟨List.append_nil _, rfl⟩

/-! ## What a break costs

For labels that are read in front of what stands in their entry, an entry with a label keeps its
place; the condition of the theorem is about the labels that have been read at the cut. -/

/-- Every entry is labelled before anything under it begins. -/
def Source.LabelledFirst : Prop := ∀ n, (source.outlineUntil sourceHref n).Headed Title.labelled

/-- The outline of the entries whose label has been read: each of them at its place, with the link
read so far. -/
def Source.KeptUntil (stop : XmlStop) : Prop :=
  (dialect.parse ⟨source.events.take n, stop⟩ sourceHref).toc =
      nest (trees ((source.outlineUntil sourceHref n).pruned Title.labelled)) ∧
    (dialect.parse ⟨source.events.take n, stop⟩ sourceHref).flatten.map titleOf =
      (source.outlineUntil sourceHref n).listed.filter Title.labelled

/-- Trees that are equal when they are renumbered have been equal before. -/
theorem renumberAll_trees_inj : ∀ (h h' : Hierarchy Title) (depth : Nat),
    renumberAll depth (trees h) = renumberAll depth (trees h') → h = h'
  | .nil, .nil, _, _ => rfl
  | .nil, .entry _ _ _, _, heq => nomatch heq
  | .entry _ _ _, .nil, _, heq => nomatch heq
  | .entry title below rest, .entry title' below' rest', depth, heq => by
      rw [trees, trees, renumberAll, renumberAll, renumber, renumber] at heq
      obtain ⟨hpoint, hrest⟩ := List.cons.inj heq
      obtain ⟨hlabel, hhref, -, hbelow⟩ := NavPoint.mk.inj hpoint
      obtain ⟨label, href⟩ := title
      obtain ⟨label', href'⟩ := title'
      obtain rfl : label = label' := hlabel
      obtain rfl : href = href' := hhref
      rw [renumberAll_trees_inj below below' _ hbelow, renumberAll_trees_inj rest rest' _ hrest]

/-- What is kept at a cut is what the loop returns, compared with the outline until then. -/
theorem keptUntil_iff (stop : XmlStop) (hfirst : source.LabelledFirst sourceHref) :
    source.KeptUntil sourceHref n stop ↔
      (dialect.parse ⟨source.events.take n, stop⟩ sourceHref).toc =
        nest (trees ((source.outlineUntil sourceHref n).pruned Title.labelled)) := by
  refine ⟨And.left, fun htoc => ⟨htoc, ?_⟩⟩
  have htitles := walkAll_trees ((source.outlineUntil sourceHref n).pruned Title.labelled) 0 []
  rw [List.map_nil, List.nil_append,
    (Hierarchy.listed_pruned_iff _ _).mpr (Hierarchy.upright_of_headed _ (hfirst n))] at htitles
  rw [Navigation.flatten, htoc]
  exact htitles

/-- A navigation document loses nothing, and an NCX what stands in a labelled entry still open. -/
theorem break_costs_the_rest (stop : XmlStop) (hfirst : source.LabelledFirst sourceHref)
    (hcount : (source.entries sourceHref).count ≤ maxEntries) (hnesting : source.nesting ≤ maxDepth) :
    source.KeptUntil sourceHref n stop ↔
      dialect = .navDocument ∨ ∀ title ∈ source.openUntil sourceHref n, title.label = [] := by
  rw [← Source.outline_of_room sourceHref hnesting] at hcount
  obtain ⟨hunwound, hroots⟩ := foldl_until source sourceHref n hcount
  rw [keptUntil_iff source sourceHref n stop hfirst]
  cases dialect with
  | navDocument => exact iff_of_true (congrArg nest hunwound) (.inl rfl)
  | ncx =>
      have htoc : (Dialect.ncx.parse ⟨source.events.take n, stop⟩ sourceHref).toc =
          nest (trees ((source.closedUntil sourceHref n).pruned Title.labelled)) := congrArg nest hroots
      have hheaded := ((Hierarchy.headed_append _ _).mp (hfirst n)).2
      rw [htoc, Source.openUntil, ← Dialect.closedUntil_iff hheaded, Source.closedUntil,
        Source.outlineUntil, Hierarchy.pruned_append, Hierarchy.pruned_append]
      constructor
      · intro heq
        exact .inr (Hierarchy.append_inj_right _ (renumberAll_trees_inj _ _ 0 heq))
      · rintro (hdialect | heq)
        · cases hdialect
        · rw [heq]

/-- It is enough to look at the cuts inside the document. -/
theorem labelledFirst_of_lt
    (h : ∀ n < (sectionEvents source.sections).length,
      (source.outlineUntil sourceHref n).Headed Title.labelled)
    (hend : (source.outline (Href.parentDir sourceHref) maxDepth).Headed Title.labelled) :
    source.LabelledFirst sourceHref := fun n => by
  by_cases hn : n < (sectionEvents source.sections).length
  · exact h n hn
  · rw [outlineUntil_behind _ _ _ (Nat.le_of_not_lt hn)]
    exact hend

end Until

theorem labelledFirst_part : (partAndChapter .ncx).LabelledFirst "OEBPS/toc.ncx" :=
  labelledFirst_of_lt _ _ (by decide) (by decide)

theorem break_costs_the_rest_part :
    (partAndChapter .ncx).KeptUntil "OEBPS/toc.ncx" 15 (.error "syntax error") :=
  (break_costs_the_rest (partAndChapter .ncx) "OEBPS/toc.ncx" 15 (.error "syntax error")
    labelledFirst_part (by decide) (by decide)).mpr (.inr (by decide))

/-- The map breaks off behind the label of the part. -/
theorem open_entry_lost :
    (partAndChapter .ncx).LabelledFirst "OEBPS/toc.ncx" ∧
      ((partAndChapter .ncx).entries "OEBPS/toc.ncx").count ≤ maxEntries ∧
      (partAndChapter .ncx).nesting ≤ maxDepth ∧
      ¬ (partAndChapter .ncx).KeptUntil "OEBPS/toc.ncx" 7 .eof :=
  ⟨labelledFirst_part, by decide, by decide, fun hkept => absurd hkept.2 (by decide)⟩

end Nav

end GrpcEpub
