/-
# `GrpcEpub.Strays` — end tags that match nothing

Both loops count how deep they are, one down for each end tag, and tell by the count which
entry an end tag closes.  An end tag that matches no open element is counted like any other,
so behind it the count is too low: the entries it stands in, and the outline itself, are closed
before their own end tags (`Loop.shut`).  Nothing is lost where what was closed too soon holds
nothing more to be read (`strays_tolerated`).

The proof follows the count.  A stretch of content with strays in it lowers the depth by so much
at its lowest (`dip`) and by so much at its end (`net`).  A loop whose levels have been shut down
to some depth and which has then been raised again (`fell`) is what is left behind such a
stretch; as long as no level of the outline was among those shut, it is the loop that would be
there without the strays.  `Calm` asks for that at every tag the loop looks for, and only there.
-/
import GrpcEpub.Outlines

namespace GrpcEpub

namespace Nav

open Xml

/-! ## Levels that are closed too soon

An end tag at the depth of the innermost entry closes it, and one at the depth of the outline
leaves the outline.  `shut` closes so many levels; `Layered` says that the levels on the stack lie
one above the other, so that shutting fewer levels than there are between two of them is no loss. -/

namespace Loop

/-- How deep the open entries were opened, the innermost first. -/
def levels (self : Loop) : List Nat := self.stack.map Opened.depth

/-- Each open entry was opened deeper than the next, and none deeper than the loop is. -/
structure Layered (loop : Loop) : Prop where
  floor : 0 < loop.insideDepth
  within : loop.inside = true → loop.insideDepth ≤ loop.depth
  sorted : loop.levels.Pairwise (· > ·)
  above : ∀ level ∈ loop.levels, loop.insideDepth < level
  opened : ∀ level ∈ loop.levels, level ≤ loop.depth

variable {self : Loop}

theorem levels_write (pen : Pen) : (self.write pen).levels = self.levels := by
  unfold write levels
  cases h : self.stack with
  | nil => exact congrArg (List.map _) h
  | cons top outer => rfl

theorem levels_attached (finished : List NavPoint) (n : Nat) :
    (self.attached finished n).levels = self.levels := by
  obtain ⟨inside, insideDepth, depth, stack, roots, reading, label, entries⟩ := self
  cases stack <;> rfl

/-- The second half of an end tag: the outline is left where it was opened. -/
def risen (self : Loop) : Loop :=
  { self with
    inside := self.inside && decide (self.depth ≠ self.insideDepth)
    depth := self.depth - 1 }

/-- An end tag closes the innermost entry if it was opened at this depth. -/
theorem closeLevel_risen {top : Opened} {outer : List Opened} (h : self.stack = top :: outer) :
    self.closeLevel = risen (if top.depth = self.depth then
      if self.entries < maxEntries ∧ top.point.label ≠ [] then
        { self with
          stack := (attach outer self.roots top.point).1
          roots := (attach outer self.roots top.point).2
          entries := self.entries + 1 }
      else { self with stack := outer }
    else self) := by
  have hleave : ∀ loop : Loop, (let loop := if loop.inside ∧ loop.depth = loop.insideDepth then
      { loop with inside := false } else loop; { loop with depth := loop.depth - 1 }) = loop.risen := by
    intro loop
    obtain ⟨inside, insideDepth, depth, stack, roots, reading, label, entries⟩ := loop
    cases inside <;> by_cases hdepth : depth = insideDepth <;> simp [risen, hdepth]
  rw [← hleave]
  unfold closeLevel
  rw [h]

theorem closeLevel_unopened (h : self.stack = []) : self.closeLevel = self.risen := by
  obtain ⟨inside, insideDepth, depth, stack, roots, reading, label, entries⟩ := self
  obtain rfl : stack = [] := h
  cases inside <;> by_cases hdepth : depth = insideDepth <;> simp [closeLevel, risen, hdepth]

/-- All that the end of an element does. -/
theorem closeLevel_eq : ∃ stack roots entries, self.closeLevel =
    ⟨self.inside && decide (self.depth ≠ self.insideDepth), self.insideDepth, self.depth - 1, stack,
      roots, self.reading, self.label, entries⟩ ∧
    (self.levels = self.depth :: stack.map Opened.depth ∨
      self.levels = stack.map Opened.depth ∧ self.levels.head? ≠ some self.depth) := by
  unfold levels
  cases hstack : self.stack with
  | nil =>
      refine ⟨[], self.roots, self.entries, ?_, .inr ⟨rfl, fun hhead => nomatch hhead⟩⟩
      rw [closeLevel_unopened hstack, risen, hstack]
  | cons top outer =>
      rw [closeLevel_risen hstack]
      by_cases htop : top.depth = self.depth
      · rw [if_pos htop]
        by_cases hkept : self.entries < maxEntries ∧ top.point.label ≠ []
        · rw [if_pos hkept]
          refine ⟨_, _, _, rfl, .inl ?_⟩
          rw [List.map_cons, htop]
          cases outer <;> rfl
        · rw [if_neg hkept]
          refine ⟨_, _, _, rfl, .inl ?_⟩
          rw [List.map_cons, htop]
      · rw [if_neg htop]
        refine ⟨top :: outer, self.roots, self.entries, ?_, .inr ⟨rfl, fun hhead => ?_⟩⟩
        · rw [risen, hstack]
        · exact htop (Option.some.inj hhead)

theorem closeLevel_depth : self.closeLevel.depth = self.depth - 1 := by
  obtain ⟨stack, roots, entries, heq, -⟩ := @closeLevel_eq self
  rw [heq]

theorem closeLevel_reading : self.closeLevel.reading = self.reading := by
  obtain ⟨stack, roots, entries, heq, -⟩ := @closeLevel_eq self
  rw [heq]

/-- Closing a level keeps the rest in layers. -/
theorem Layered.closeLevel (h : self.Layered) : self.closeLevel.Layered := by
  obtain ⟨stack, roots, entries, heq, hlevels⟩ := @closeLevel_eq self
  have hafter : self.closeLevel.levels = stack.map Opened.depth := by
    rw [heq]
    rfl
  have hsub : self.closeLevel.levels.Sublist self.levels := by
    rw [hafter]
    rcases hlevels with hclosed | hsame
    · rw [hclosed]
      exact List.sublist_cons_self _ _
    · rw [hsame.1]
  have hopened := h.opened
  have hsorted := h.sorted
  -- What is not closed was opened less deep.
  have hbelow : ∀ level ∈ self.closeLevel.levels, level ≤ self.depth - 1 := by
    intro level hlevel
    rw [hafter] at hlevel
    rcases hlevels with hclosed | ⟨hsame, hhead⟩
    · rw [hclosed, List.pairwise_cons] at hsorted
      have hless := hsorted.1 level hlevel
      omega
    · cases hself : self.levels with
      | nil =>
          rw [← hsame, hself] at hlevel
          cases hlevel
      | cons top outer =>
          rw [← hsame, hself] at hlevel
          rw [hself] at hhead hopened hsorted
          rw [List.pairwise_cons] at hsorted
          have htop := hopened top List.mem_cons_self
          have hne : top ≠ self.depth := fun heq' => hhead (congrArg some heq')
          rcases List.mem_cons.mp hlevel with rfl | hlevel
          · omega
          · have hless := hsorted.1 level hlevel
            omega
  refine ⟨?_, ?_, h.sorted.sublist hsub, ?_, ?_⟩
  · rw [heq]
    exact h.floor
  · intro hinside
    have hwithin := h.within
    rw [heq] at hinside ⊢
    rw [Bool.and_eq_true, decide_eq_true_eq] at hinside
    have hle := hwithin hinside.1
    have hne := hinside.2
    change self.insideDepth ≤ self.depth - 1
    omega
  · intro level hlevel
    have hlevel' := h.above level (hsub.subset hlevel)
    rw [heq]
    exact hlevel'
  · intro level hlevel
    rw [closeLevel_depth]
    exact hbelow level hlevel

/-- At a depth where nothing was opened, an end tag closes nothing. -/
theorem Layered.closeLevel_idle (h : self.Layered) {depth : Nat} (hdepth : self.depth < depth) :
    ({ self with depth } : Loop).closeLevel = { self with depth := depth - 1 } := by
  obtain ⟨inside, insideDepth, low, stack, roots, reading, label, entries⟩ := self
  have hbelow : ¬ (inside = true ∧ depth = insideDepth) := fun hin => by
    have hle : insideDepth ≤ low := h.within hin.1
    have hlt : low < depth := hdepth
    omega
  unfold Loop.closeLevel
  cases stack with
  | nil => simp [hbelow]
  | cons top outer =>
      have htop : ¬ top.depth = depth := fun heq => by
        have hle : top.depth ≤ low := h.opened top.depth List.mem_cons_self
        have hlt : low < depth := hdepth
        omega
      simp [htop, hbelow]

theorem Layered.write (h : self.Layered) (pen : Pen) : (self.write pen).Layered := by
  have hlevels := @levels_write self pen
  obtain ⟨inside, insideDepth, depth, stack, roots, reading, label, entries⟩ := self
  cases stack with
  | nil => exact h
  | cons top outer => exact ⟨h.floor, h.within, hlevels ▸ h.sorted, hlevels ▸ h.above, hlevels ▸ h.opened⟩

theorem Layered.attached (h : self.Layered) (finished : List NavPoint) (n : Nat) :
    (self.attached finished n).Layered := by
  have hlevels := @levels_attached self finished n
  obtain ⟨inside, insideDepth, depth, stack, roots, reading, label, entries⟩ := self
  cases stack with
  | nil => exact ⟨h.floor, h.within, h.sorted, h.above, h.opened⟩
  | cons top outer => exact ⟨h.floor, h.within, hlevels ▸ h.sorted, hlevels ▸ h.above, hlevels ▸ h.opened⟩

theorem Layered.received (h : self.Layered) (title : Title) (below : Hierarchy Title) :
    (self.received title below).Layered := (h.write _).attached _ _

theorem Layered.deeper (h : self.Layered) {depth : Nat} (hdepth : self.depth ≤ depth) :
    ({ self with depth } : Loop).Layered where
  floor := h.floor
  within := fun hinside => (h.within hinside).trans hdepth
  sorted := h.sorted
  above := h.above
  opened := fun level hlevel => (h.opened level hlevel).trans hdepth

/-- An entry that is opened is deeper than those around it. -/
theorem Layered.entered (h : self.Layered) (hinside : self.inside = true) (point : NavPoint) :
    (self.entered point).Layered where
  floor := h.floor
  within := fun _ => Nat.le_succ_of_le (h.within hinside)
  sorted := List.pairwise_cons.mpr ⟨fun level hlevel =>
    Nat.lt_succ_of_le (h.opened level hlevel), h.sorted⟩
  above := fun level hlevel => by
    rcases List.mem_cons.mp hlevel with rfl | hlevel
    · exact Nat.lt_succ_of_le (h.within hinside)
    · exact h.above level hlevel
  opened := fun level hlevel => by
    rcases List.mem_cons.mp hlevel with rfl | hlevel
    · exact Nat.le_refl _
    · exact Nat.le_succ_of_le (h.opened level hlevel)

/-- So many levels closed, from the innermost. -/
def shut (self : Loop) (n : Nat) : Loop := closeLevel^[n] self

/-- The loop after the count has been as low as `low`. -/
def fell (self : Loop) (low depth : Nat) : Loop := { self.shut (self.depth - low) with depth }

theorem Layered.shut (h : self.Layered) (n : Nat) :
    (self.shut n).Layered ∧ (self.shut n).depth = self.depth - n ∧
      (self.shut n).reading = self.reading := by
  induction n with
  | zero => exact ⟨h, rfl, rfl⟩
  | succ n ih =>
      have hshut : self.shut (n + 1) = (self.shut n).closeLevel := Function.iterate_succ_apply' _ _ _
      rw [hshut]
      refine ⟨ih.1.closeLevel, ?_, ?_⟩
      · rw [closeLevel_depth, ih.2.1, Nat.sub_sub]
      · rw [closeLevel_reading, ih.2.2]

/-- Nothing is closed before the count is too low. -/
theorem fell_open {low : Nat} (hlow : self.depth ≤ low) (depth : Nat) :
    self.fell low depth = { self with depth } := by
  rw [fell, Nat.sub_eq_zero_of_le hlow]
  rfl

theorem fell_reading (h : self.Layered) (low depth : Nat) :
    (self.fell low depth).reading = self.reading := (h.shut _).2.2

/-- At the bottom no level is left. -/
theorem Layered.closeLevel_bottom (h : self.Layered) (hdepth : self.depth = 0) :
    self.closeLevel = self := by
  obtain ⟨inside, insideDepth, depth, stack, roots, reading, label, entries⟩ := self
  obtain rfl : depth = 0 := hdepth
  obtain rfl : inside = false := Bool.eq_false_of_not_eq_true fun hinside =>
    absurd (h.within hinside) (Nat.not_le.mpr h.floor)
  cases stack with
  | nil => rfl
  | cons top outer =>
      exact absurd (h.opened top.depth List.mem_cons_self)
        (Nat.not_le.mpr (Nat.zero_lt_of_lt (h.above top.depth List.mem_cons_self)))

/-- At the lowest point, all that has been passed on the way down is shut. -/
theorem fell_lowest (h : self.Layered) {low : Nat} (hlow : low ≤ self.depth) :
    self.fell low low = self.shut (self.depth - low) := by
  obtain ⟨-, hdepth, -⟩ := h.shut (self.depth - low)
  rw [show self.depth - (self.depth - low) = low by omega] at hdepth
  rw [fell]
  generalize self.shut (self.depth - low) = bottom at hdepth ⊢
  obtain ⟨inside, insideDepth, depth, stack, roots, reading, label, entries⟩ := bottom
  obtain rfl : depth = low := hdepth
  rfl

/-- An end tag lets the count fall by one. -/
theorem closeLevel_fell (h : self.Layered) {low depth : Nat} (hle : low ≤ depth) :
    (self.fell low depth).closeLevel = self.fell (min low (depth - 1)) (depth - 1) := by
  obtain ⟨hshut, hdepth, -⟩ := h.shut (self.depth - low)
  by_cases hopen : self.depth < depth ∧ self.depth ≤ low
  · rw [fell_open hopen.2, fell_open (by omega)]
    exact h.closeLevel_idle hopen.1
  · rcases hle.lt_or_eq with hlow | rfl
    · have hidle := @Layered.closeLevel_idle _ hshut depth (by omega)
      rw [fell, hidle, Nat.min_eq_left (by omega)]
      rfl
    · rw [Nat.min_eq_right (Nat.sub_le low 1), fell_lowest h (by omega), fell_lowest h (by omega)]
      cases low with
      | zero => exact hshut.closeLevel_bottom (by omega)
      | succ low =>
          rw [show self.depth - (low + 1 - 1) = self.depth - (low + 1) + 1 by omega]
          exact (Function.iterate_succ_apply' closeLevel _ self).symm

/-- What the loop opened less deep than it is stays open while it rises there. -/
theorem fell_deeper (h : self.Layered) {high low : Nat} (hhigh : self.depth ≤ high) (hlow : low ≤ high)
    (depth : Nat) : ({ self with depth := high } : Loop).fell low depth = self.fell low depth := by
  obtain ⟨above, rfl⟩ := Nat.exists_eq_add_of_le hhigh
  induction above with
  | zero => rfl
  | succ above ih =>
      by_cases hopen : self.depth + (above + 1) ≤ low
      · rw [fell_open hopen, fell_open (by omega)]
      · have hsucc : ∀ n, ({ self with depth := self.depth + (above + 1) } : Loop).shut (n + 1) =
            ({ self with depth := self.depth + above } : Loop).shut n := fun n => by
          rw [shut, Function.iterate_succ_apply, h.closeLevel_idle (by omega)]
          rfl
        rw [← ih (by omega) (by omega), fell, fell]
        change { ({ self with depth := self.depth + (above + 1) } : Loop).shut
          (self.depth + (above + 1) - low) with depth } = { ({ self with depth := self.depth + above } :
            Loop).shut (self.depth + above - low) with depth }
        rw [show self.depth + (above + 1) - low = self.depth + above - low + 1 by omega, hsucc]

theorem fell_congr {low low' : Nat} (h : self.depth - low = self.depth - low') (depth : Nat) :
    self.fell low depth = self.fell low' depth := by
  rw [fell, fell, h]

end Loop

/-! ## Strays

Content with strays is content in which every place may hold stray end tags.  What is spelled out
of it are its events with the strays among them, and its `lefts` are the content without. -/

/-- An end tag that matches no element, and has the name of no title. -/
structure Stray (dialect : Dialect) where
  name : Str
  plain : dialect.isTitle (localName name) = false

variable {dialect : Dialect}

/-- The content of an element, with strays in it. -/
abbrev Strewn (dialect : Dialect) := Nested Tag (Leaf ⊕ Stray dialect)

/-- The events of a document, with strays between them. -/
abbrev Stream (dialect : Dialect) := List (XmlEvent ⊕ Stray dialect)

/-- What the reader reports. -/
def reported : XmlEvent ⊕ Stray dialect → XmlEvent
  | .inl event => event
  | .inr stray => .endTag stray.name

/-- The document without its strays. -/
def bare (stream : Stream dialect) : List XmlEvent := stream.filterMap Sum.getLeft?

/-- The names that a parser looks for. -/
def Dialect.looksFor : Dialect → Str → Bool
  | navDocument, name => name == "nav".toList || name == "li".toList || isTitle navDocument name
  | ncx, name => name == "navMap".toList || name == "navPoint".toList || isTitle ncx name ||
      name == "content".toList

/-- An empty element counts in an NCX only. -/
def Dialect.reads : Dialect → XmlEvent → Bool
  | ncx, .empty tag => tag.localName == "content".toList
  | _, _ => false

namespace Strewn

/-- What the reader reports of it. -/
def spelling : Rendering Tag (Leaf ⊕ Stray dialect) XmlEvent :=
  (markup.mixed (Stray dialect)).map reported

def written (content : Strewn dialect) : List XmlEvent := content.spell spelling

/-- How many elements the count still finds open, from an entry inward, behind some content
that began with so many; an entry that the count has closed stays closed. -/
def left : Nat → Strewn dialect → Nat
  | open', .nil => open'
  | open', .leaf (.inl _) rest => left open' rest
  | open', .leaf (.inr _) rest => left (open' - 1) rest
  | open', .node _ body rest => left (left (if open' = 0 then 0 else open' + 1) body - 1) rest

/-- Wherever there is something to be read, nothing that it stands in has been closed. -/
def Calm : Nat → Nat → Strewn dialect → Prop
  | _, _, .nil => True
  | room, open', .leaf (.inl a) rest => (dialect.reads a.event = true → 0 < open') ∧ Calm room open' rest
  | room, open', .leaf (.inr _) rest => Calm room (open' - 1) rest
  | room, open', .node tag body rest =>
      (dialect.looksFor tag.localName = true → 0 < open') ∧
      (if dialect.isItem tag.localName ∧ 0 < room then Calm (room - 1) 1 body
        else Calm room (if open' = 0 then 0 else open' + 1) body) ∧
      (dialect.isTitle tag.localName = true → 0 < left (open' + 1) body) ∧
      Calm room (left (if open' = 0 then 0 else open' + 1) body - 1) rest

instance decidableCalm : (room open' : Nat) → (content : Strewn dialect) →
    Decidable (Calm room open' content)
  | _, _, .nil => .isTrue trivial
  | room, open', .leaf (.inl a) rest =>
      have := decidableCalm room open' rest
      inferInstanceAs (Decidable ((dialect.reads a.event = true → 0 < open') ∧ Calm room open' rest))
  | room, open', .leaf (.inr _) rest => decidableCalm room (open' - 1) rest
  | room, open', .node tag body rest =>
      have := decidableCalm (room - 1) 1 body
      have := decidableCalm room (if open' = 0 then 0 else open' + 1) body
      have := decidableCalm room (left (if open' = 0 then 0 else open' + 1) body - 1) rest
      inferInstanceAs (Decidable ((dialect.looksFor tag.localName = true → 0 < open') ∧
        (if dialect.isItem tag.localName ∧ 0 < room then Calm (room - 1) 1 body
          else Calm room (if open' = 0 then 0 else open' + 1) body) ∧
        (dialect.isTitle tag.localName = true → 0 < left (open' + 1) body) ∧
        Calm room (left (if open' = 0 then 0 else open' + 1) body - 1) rest))

/-- The depth behind some content. -/
def net : Nat → Strewn dialect → Nat
  | depth, .nil => depth
  | depth, .leaf (.inl _) rest => net depth rest
  | depth, .leaf (.inr _) rest => net (depth - 1) rest
  | depth, .node _ body rest => net (net (depth + 1) body - 1) rest

/-- The least depth there is in some content. -/
def dip : Nat → Strewn dialect → Nat
  | depth, .nil => depth
  | depth, .leaf (.inl _) rest => dip depth rest
  | depth, .leaf (.inr _) rest => dip (depth - 1) rest
  | depth, .node _ body rest => min (dip (depth + 1) body) (dip (net (depth + 1) body - 1) rest)

/-- The lowest point is no higher than the end, and neither is above the start. -/
theorem dip_le (content : Strewn dialect) (depth : Nat) :
    dip depth content ≤ net depth content ∧ dip depth content ≤ depth ∧ net depth content ≤ depth := by
  induction content generalizing depth with
  | nil => exact ⟨Nat.le_refl _, Nat.le_refl _, Nat.le_refl _⟩
  | leaf a rest ih =>
      cases a with
      | inl a => exact ih depth
      | inr stray =>
          have hrest := ih (depth - 1)
          rw [dip, net]
          omega
  | node tag body rest ihbody ihrest =>
      have hbody := ihbody (depth + 1)
      have hrest := ihrest (net (depth + 1) body - 1)
      rw [dip, net]
      omega

/-- How many elements the count finds open, at a depth, from what was opened at `level` inward. -/
def opened (level low depth : Nat) : Nat := if level ≤ low then depth - level + 1 else 0

theorem opened_pos {level low depth : Nat} (h : 0 < opened level low depth) : level ≤ low := by
  by_contra hclosed
  rw [opened, if_neg hclosed] at h
  exact Nat.lt_irrefl 0 h

theorem opened_start {level low depth : Nat} (hle : low ≤ depth) :
    (if opened level low depth = 0 then 0 else opened level low depth + 1) =
      opened level low (depth + 1) := by
  unfold opened
  split_ifs <;> omega

theorem opened_end {level low depth : Nat} (hlevel : 0 < level) (hle : low ≤ depth) :
    opened level low depth - 1 = opened level (min low (depth - 1)) (depth - 1) := by
  unfold opened
  split_ifs <;> omega

/-- How many of the levels above the outline are left behind some content. -/
theorem left_opened (content : Strewn dialect) {level low depth : Nat} (hlevel : 0 < level)
    (hle : low ≤ depth) : left (opened level low depth) content =
      opened level (min low (dip depth content)) (net depth content) := by
  induction content generalizing low depth with
  | nil => rw [left, dip, net, Nat.min_eq_left hle]
  | leaf a rest ih =>
      cases a with
      | inl a => exact ih hle
      | inr stray =>
          have hdip := (dip_le rest (depth - 1)).2.1
          rw [left, dip, net, opened_end hlevel hle, ih (Nat.min_le_right _ _), Nat.min_assoc,
            Nat.min_eq_right hdip]
  | node tag body rest ihbody ihrest =>
      have hbody := dip_le body (depth + 1)
      have hrest := dip_le rest (net (depth + 1) body - 1)
      rw [left, dip, net, opened_start hle, ihbody (by omega), opened_end hlevel (by omega),
        ihrest (Nat.min_le_right _ _), Nat.min_assoc, Nat.min_eq_right hrest.2.1, Nat.min_assoc]

/-- How many elements the count finds open behind an element. -/
theorem left_element (body : Strewn dialect) {level low depth : Nat} (hlevel : 0 < level)
    (hle : low ≤ depth) :
    left (if opened level low depth = 0 then 0 else opened level low depth + 1) body - 1 =
      opened level (min low (min (dip (depth + 1) body) (net (depth + 1) body - 1)))
        (net (depth + 1) body - 1) := by
  have hbody := dip_le body (depth + 1)
  rw [opened_start hle, left_opened body hlevel (by omega), opened_end hlevel (by omega), Nat.min_assoc]

end Strewn

/-! ## What the loop does with them

The induction is over the strewn content, with the lowest depth reached so far beside the depth.
A leaf that is not read, and an element that is not looked for, do nothing but move the two. -/

namespace Loop

variable {self : Loop}

theorem Between.raised (h : self.Between) {depth : Nat} (hdepth : self.depth ≤ depth) :
    ({ self with depth } : Loop).Between :=
  ⟨h.inside, h.quiet, h.blank, h.below.trans hdepth, fun top htop => (h.opened top htop).trans hdepth⟩

theorem write_raised (pen : Pen) (depth : Nat) :
    ({ self with depth } : Loop).write pen = { self.write pen with depth } := by
  obtain ⟨inside, insideDepth, depth', stack, roots, reading, label, entries⟩ := self
  cases stack <;> rfl

theorem received_raised (title : Title) (below : Hierarchy Title) (depth : Nat) :
    ({ self with depth } : Loop).received title below = { self.received title below with depth } := by
  obtain ⟨inside, insideDepth, depth', stack, roots, reading, label, entries⟩ := self
  cases stack <;> rfl

theorem received_depth (title : Title) (below : Hierarchy Title) :
    (self.received title below).depth = self.depth := by
  obtain ⟨inside, insideDepth, depth', stack, roots, reading, label, entries⟩ := self
  cases stack <;> rfl

end Loop

namespace Dialect

variable {baseDir : Str} {self : Loop}

/-- Neither an entry nor a title, and nothing else that is looked for. -/
theorem step_unsought (dialect : Dialect) {tag : Tag} (h : dialect.looksFor tag.localName = false) :
    dialect.step baseDir self (.start tag) = self.deeper ∧ ∀ title : Title,
      dialect.begins baseDir tag (.resting title) = .resting title := by
  cases dialect with
  | navDocument =>
      simp only [looksFor, isTitle, Bool.or_eq_false_iff, beq_eq_false_iff_ne] at h
      obtain ⟨⟨hnav, hli⟩, ha, hspan⟩ := h
      have htitle : ¬ (tag.localName = "a".toList ∨ tag.localName = "span".toList) :=
        not_or.mpr ⟨ha, hspan⟩
      constructor
      · unfold step navStep navStart
        dsimp only
        rw [if_neg fun hin => hnav hin.1, if_neg fun hin => hli hin.1, if_neg fun hin => htitle hin.1]
        rfl
      · intro title
        rw [begins, if_neg fun hin => htitle (isTitle_nav.mp hin.1)]
  | ncx =>
      simp only [looksFor, isTitle, Bool.or_eq_false_iff, beq_eq_false_iff_ne] at h
      obtain ⟨⟨⟨hmap, hpoint⟩, htext⟩, hcontent⟩ := h
      constructor
      · unfold step ncxStep ncxStart
        dsimp only
        rw [if_neg hmap, if_neg fun hin => hpoint hin.1, if_neg fun hin => htext hin.1,
          if_neg fun hin => hcontent hin.1]
        rfl
      · intro title
        rw [begins, if_neg fun hin => htext (isTitle_ncx.mp hin), if_neg hcontent]

/-- An event that is not read does nothing while no title is. -/
theorem step_unread (dialect : Dialect) (hquiet : self.reading = false) (a : Leaf)
    (h : dialect.reads a.event = false) :
    dialect.step baseDir self a.event = self ∧ ∀ title : Title,
      dialect.note baseDir (.resting title) a.event = .resting title := by
  obtain ⟨event, hflat⟩ := a
  cases event with
  | start tag => cases hflat
  | endTag name => cases hflat
  | text content =>
      have htext : self.text content = self := by
        rw [Loop.text, if_neg (by rw [hquiet]; exact Bool.false_ne_true)]
      exact ⟨by cases dialect <;> exact htext, fun title => rfl⟩
  | empty tag =>
      cases dialect with
      | navDocument => exact ⟨rfl, fun title => rfl⟩
      | ncx =>
          have hcontent : tag.localName ≠ "content".toList := fun heq => by
            simp [reads, heq] at h
          exact ⟨if_neg fun hin => hcontent hin.2, fun title => if_neg hcontent⟩
  | docType | cData | generalRef | other => cases dialect <;> exact ⟨rfl, fun title => rfl⟩

/-- Where no label is read, an end tag closes a level and does nothing else. -/
theorem step_end_quiet (dialect : Dialect) (hquiet : self.reading = false) (name : Str) :
    dialect.step baseDir self (.endTag name) = self.closeLevel := by
  have hpen : self.pen.reading = false := by
    unfold Loop.pen
    cases self.stack with
    | nil => rfl
    | cons top outer => exact hquiet
  rw [step_end dialect fun _ => hquiet, ends.eq_def,
    if_neg fun hin => Bool.false_ne_true (hpen.symm.trans hin.1), Loop.write_pen]

/-- A leaf between two entries is written where the stack has fallen to. -/
theorem step_fell_leaf (dialect : Dialect) (h : self.Between) (hlayered : self.Layered) {low depth : Nat}
    (hle : low ≤ depth) (a : Leaf) (hreads : dialect.reads a.event = true → self.depth ≤ low) :
    dialect.step baseDir (self.fell low depth) a.event =
      (self.write (.resting (dialect.note baseDir (.resting self.pen.title) a.event).title)).fell
        low depth := by
  by_cases hopen : self.depth ≤ low
  · have hbetween := h.raised (hopen.trans hle)
    have hopen' : (self.write (.resting (dialect.note baseDir (.resting self.pen.title)
        a.event).title)).depth ≤ low := by rwa [Loop.write_depth]
    rw [Loop.fell_open hopen, Loop.fell_open hopen', step_flat dialect a hbetween.inside fun _ =>
      hbetween.quiet, Loop.write_raised, ← note_resting, ← h.pen]
    rfl
  · have hunread : dialect.reads a.event = false := Bool.eq_false_of_not_eq_true fun hin =>
      hopen (hreads hin)
    obtain ⟨hstep, hnote⟩ := @step_unread baseDir (self.fell low depth) dialect
      ((Loop.fell_reading hlayered low depth).trans h.quiet) a hunread
    have hwrite : self.write (.resting self.pen.title) = self := by
      rw [← h.pen]
      exact Loop.write_pen
    rw [hstep, hnote]
    exact congrArg (fun loop : Loop => loop.fell low depth) hwrite.symm

/-- The start of an element that is neither a title nor an entry. -/
theorem step_fell_plain (dialect : Dialect) (h : self.Between) {low depth : Nat} (hle : low ≤ depth)
    {tag : Tag}
    (hsought : dialect.looksFor tag.localName = true → self.depth ≤ low)
    (hitem : ¬ (dialect.isItem tag.localName = true ∧ self.stack.length < maxDepth))
    (htitle : dialect.isTitle tag.localName = false) (hadmits : dialect.admits tag.localName = true) :
    dialect.step baseDir (self.fell low depth) (.start tag) =
      (self.write (.resting (dialect.begins baseDir tag (.resting self.pen.title)).title)).fell
        low (depth + 1) := by
  by_cases hopen : self.depth ≤ low
  · have hbetween := h.raised (hopen.trans hle)
    have hopen' : (self.write (.resting (dialect.begins baseDir tag (.resting
        self.pen.title)).title)).depth ≤ low := by rwa [Loop.write_depth]
    rw [Loop.fell_open hopen, Loop.fell_open hopen',
      step_plain dialect hbetween hitem htitle hadmits]
    exact @Loop.write_raised self _ (depth + 1)
  · have hunsought : dialect.looksFor tag.localName = false := Bool.eq_false_of_not_eq_true fun hin =>
      hopen (hsought hin)
    obtain ⟨hstep, hbegins⟩ := @step_unsought baseDir (self.fell low depth) dialect tag hunsought
    have hwrite : self.write (.resting self.pen.title) = self := by
      rw [← h.pen]
      exact Loop.write_pen
    rw [hstep, hbegins]
    exact congrArg (fun loop : Loop => loop.fell low (depth + 1)) hwrite.symm

theorem step_end_at (dialect : Dialect) (hsettled : self.Settled) (depth : Nat) (name : Str) :
    dialect.step baseDir { self with depth } (.endTag name) =
      ({ self.write (dialect.ends (localName name) self.pen) with depth } : Loop).closeLevel := by
  have hsettled' : ({ self with depth } : Loop).Settled := hsettled
  rw [step_end dialect hsettled', Loop.write_raised]
  rfl

/-- The end tag of an element in which everything is still open. -/
theorem step_end_raised (dialect : Dialect) (hsettled : self.Settled) (hlayered : self.Layered)
    {depth : Nat} (hdepth : self.depth < depth) (name : Str) :
    dialect.step baseDir { self with depth } (.endTag name) =
      { self.write (dialect.ends (localName name) self.pen) with depth := depth - 1 } := by
  have hdepth' : (self.write (dialect.ends (localName name) self.pen)).depth < depth := by
    rwa [Loop.write_depth]
  rw [step_end_at dialect hsettled]
  exact (hlayered.write _).closeLevel_idle hdepth'

/-- Content without an entry, with strays in it, where nothing is closed too soon. -/
theorem foldl_strewn_inline (dialect : Dialect) {content : Strewn dialect}
    (hinline : dialect.Inline content.lefts) : ∀ {self : Loop} {depth : Nat}, self.inside = true →
      self.Settled → self.Layered → 0 < self.depth → self.depth ≤ Strewn.dip depth content →
        (Strewn.written content).foldl (dialect.step baseDir) { self with depth } =
          { self.write ((events content.lefts).foldl (dialect.note baseDir) self.pen) with
            depth := Strewn.net depth content } := by
  induction content with
  | nil =>
      intro self depth _ _ _ _ _
      change { self with depth } = ({ self.write self.pen with depth } : Loop)
      rw [Loop.write_pen]
  | leaf a rest ih =>
      intro self depth hinside hsettled hlayered hfloor hdip
      unfold Strewn.written events at ih ⊢
      rw [Nested.foldl_spell_leaf]
      cases a with
      | inl a =>
          rw [Nested.lefts, Nested.foldl_spell_leaf]
          change (rest.spell Strewn.spelling).foldl _ (dialect.step baseDir { self with depth } a.event) = _
          have hinside' : ({ self with depth } : Loop).inside = true := hinside
          have hsettled' : ({ self with depth } : Loop).Settled := hsettled
          rw [step_flat dialect a hinside' hsettled', Loop.write_raised,
            ih hinline ((Loop.write_inside _).trans hinside) (hsettled.write _) (hlayered.write _)
              ((Loop.write_depth _).symm ▸ hfloor) ((Loop.write_depth _).symm ▸ hdip)]
          exact congrArg (fun loop : Loop => { loop with depth := Strewn.net depth rest })
            (Loop.write_then ((rest.lefts.spell markup).foldl (dialect.note baseDir)) _)
      -- a stray ends nothing here: the count stays above the depth the title was opened at
      | inr stray =>
          have hrest : self.depth ≤ Strewn.dip (depth - 1) rest := hdip
          have hle := (Strewn.dip_le rest (depth - 1)).2.1
          have hends : dialect.ends (localName stray.name) self.pen = self.pen := by
            rw [ends.eq_def, if_neg fun hin => Bool.false_ne_true (stray.plain.symm.trans hin.2)]
          change (rest.spell Strewn.spelling).foldl _
            (dialect.step baseDir { self with depth } (.endTag stray.name)) = _
          rw [step_end_raised dialect hsettled hlayered (by omega), hends, Loop.write_pen,
            ih hinline hinside hsettled hlayered hfloor hrest]
          rfl
  | node tag body rest ihbody ihrest =>
      intro self depth hinside hsettled hlayered hfloor hdip
      obtain ⟨hitem, hadmits, hbody, hrest⟩ := hinline
      have hdip' : self.depth ≤ min (Strewn.dip (depth + 1) body)
          (Strewn.dip (Strewn.net (depth + 1) body - 1) rest) := hdip
      have hinner := Strewn.dip_le body (depth + 1)
      have hbehind := Strewn.dip_le rest (Strewn.net (depth + 1) body - 1)
      unfold Strewn.written events at ihbody ihrest ⊢
      rw [Nested.foldl_spell_node, Nested.lefts, Nested.foldl_spell_node]
      change (rest.spell Strewn.spelling).foldl _ (dialect.step baseDir
        ((body.spell Strewn.spelling).foldl _
          (dialect.step baseDir { self with depth } (.start tag))) (.endTag tag.name)) = _
      -- up one level, through the body, and down again, with what is written carried along
      have hstart : dialect.step baseDir { self with depth } (.start tag) =
          { self.write (dialect.begins baseDir tag self.pen) with depth := depth + 1 } := by
        have hinside' : ({ self with depth } : Loop).inside = true := hinside
        rw [step_start dialect hinside' hitem hadmits]
        exact @Loop.write_raised self _ (depth + 1)
      have hwrite : ∀ pen : Pen, (self.write pen).inside = true ∧ (self.write pen).Settled ∧
          (self.write pen).Layered ∧ 0 < (self.write pen).depth := fun pen =>
        ⟨(Loop.write_inside _).trans hinside, hsettled.write _, hlayered.write _,
          (Loop.write_depth _).symm ▸ hfloor⟩
      obtain ⟨hinside₁, hsettled₁, hlayered₁, hfloor₁⟩ := hwrite (dialect.begins baseDir tag self.pen)
      rw [hstart, ihbody hbody hinside₁ hsettled₁ hlayered₁ hfloor₁ (by rw [Loop.write_depth]; omega),
        Loop.write_then ((body.lefts.spell markup).foldl (dialect.note baseDir))]
      obtain ⟨hinside₂, hsettled₂, hlayered₂, hfloor₂⟩ := hwrite
        ((body.lefts.spell markup).foldl (dialect.note baseDir) (dialect.begins baseDir tag self.pen))
      rw [step_end_raised dialect hsettled₂ hlayered₂ (by rw [Loop.write_depth]; omega),
        Loop.write_then (dialect.ends (localName tag.name))]
      obtain ⟨hinside₃, hsettled₃, hlayered₃, hfloor₃⟩ := hwrite (dialect.ends (localName tag.name)
        ((body.lefts.spell markup).foldl (dialect.note baseDir) (dialect.begins baseDir tag self.pen)))
      rw [ihrest hrest hinside₃ hsettled₃ hlayered₃ hfloor₃ (by rw [Loop.write_depth]; omega)]
      exact congrArg
        (fun loop : Loop => { loop with depth := Strewn.net (Strewn.net (depth + 1) body - 1) rest })
        (Loop.write_then ((rest.lefts.spell markup).foldl (dialect.note baseDir)) _)

/-- The start of an entry. -/
theorem step_fell_item (dialect : Dialect) (h : self.Between) {low depth : Nat} (hle : low ≤ depth)
    (hopen : self.depth ≤ low) {tag : Tag} (hitem : dialect.isItem tag.localName = true)
    (hroom : self.stack.length < maxDepth) :
    dialect.step baseDir (self.fell low depth) (.start tag) =
      (({ self with depth } : Loop).entered .default).fell (depth + 1) (depth + 1) := by
  have hroom' : ({ self with depth } : Loop).stack.length < maxDepth := hroom
  have hdepth : (({ self with depth } : Loop).entered .default).depth ≤ depth + 1 := Nat.le_refl _
  rw [Loop.fell_open hopen, Loop.fell_open hdepth,
    step_item dialect (h.raised (hopen.trans hle)).inside hitem, if_pos hroom']
  rfl

/-- A title in which nothing is closed too soon. -/
theorem foldl_strewn_titled (dialect : Dialect) {tag : Tag} {body : Strewn dialect}
    (htag : dialect.isTitle tag.localName = true) (hadmits : dialect.admits tag.localName = true)
    (hbody : dialect.Inline body.lefts) (h : self.Between) (hlayered : self.Layered)
    {low depth : Nat} (hle : low ≤ depth) (hopen : self.depth ≤ low)
    (hdip : self.depth ≤ Strewn.dip (depth + 1) body) :
    dialect.step baseDir ((Strewn.written body).foldl (dialect.step baseDir)
        (dialect.step baseDir (self.fell low depth) (.start tag))) (.endTag tag.name) =
      (self.write (.resting (dialect.titled baseDir tag body.lefts self.pen.title))).fell
        (min low (Strewn.net (depth + 1) body - 1)) (Strewn.net (depth + 1) body - 1) := by
  have htag' : dialect.isTitle (localName tag.name) = true := htag
  have hsettled : self.Settled := fun _ => h.quiet
  have hfloor : 0 < self.depth := Nat.lt_of_lt_of_le hlayered.floor h.below
  have hnet := (Strewn.dip_le body (depth + 1)).1
  have hitem : dialect.isItem tag.localName = false :=
    Bool.eq_false_of_not_eq_true (title_not_item dialect htag)
  have htidy : ((events body.lefts).foldl (dialect.note baseDir)
      (dialect.begins baseDir tag (.resting self.pen.title))).Tidy :=
    tidy_foldl dialect (events body.lefts) (tidy_begins dialect (fun _ => rfl) tag)
  have hbetween := h.raised (hopen.trans hle)
  have hstart : dialect.step baseDir (self.fell low depth) (.start tag) =
      { self.write (dialect.begins baseDir tag (.resting self.pen.title)) with depth := depth + 1 } := by
    rw [Loop.fell_open hopen, step_start dialect hbetween.inside hitem hadmits, ← h.pen]
    exact @Loop.write_raised self _ (depth + 1)
  have hinside : (self.write (dialect.begins baseDir tag (.resting self.pen.title))).inside = true :=
    (Loop.write_inside _).trans h.inside
  rw [hstart, foldl_strewn_inline dialect hbody hinside (hsettled.write _) (hlayered.write _)
      (by rwa [Loop.write_depth]) (by rwa [Loop.write_depth]),
    Loop.write_then ((events body.lefts).foldl (dialect.note baseDir))]
  have hclosed : ∀ pen : Pen, ({ self.write pen with depth := Strewn.net (depth + 1) body } :
      Loop).closeLevel = (self.write pen).fell (min low (Strewn.net (depth + 1) body - 1))
        (Strewn.net (depth + 1) body - 1) := fun pen => by
    have hopen' : (self.write pen).depth ≤ min low (Strewn.net (depth + 1) body) := by
      rw [Loop.write_depth]
      omega
    rw [← Loop.fell_open hopen', Loop.closeLevel_fell (hlayered.write pen) (Nat.min_le_right _ _),
      Nat.min_assoc, Nat.min_eq_right (Nat.sub_le _ 1)]
  rw [step_end_at dialect (hsettled.write _), Loop.write_then (dialect.ends (localName tag.name)),
    ends_title dialect htag' htidy, hclosed]
  rfl

/-- An entry, strays and all, from its start tag to its end tag. -/
theorem closeLevel_strewn (h : self.Between) (hlayered : self.Layered) {low depth : Nat}
    (hle : low ≤ depth) (hopen : self.depth ≤ low) (title : Title) (below : Hierarchy Title)
    {lower after : Nat} (hlower : lower ≤ after) (hafter : after ≤ depth + 1) :
    (((({ self with depth } : Loop).entered .default).received title below).fell lower after).closeLevel =
      (self.received self.pen.title (.entry title below .nil)).fell (min low (min lower (after - 1)))
        (after - 1) := by
  have hraised := h.raised (hopen.trans hle)
  have hinside : ({ self with depth } : Loop).inside = true := h.inside
  have hlayered' : ({ self with depth } : Loop).Layered := hlayered.deeper (hopen.trans hle)
  have hentered := (hlayered'.entered hinside .default).received title below
  have hreceived := hlayered.received self.pen.title (.entry title below .nil)
  have hdepth : ((({ self with depth } : Loop).entered .default).received title below).depth =
      depth + 1 := Loop.received_depth _ _
  have hclosed : ((({ self with depth } : Loop).entered .default).received title below).closeLevel =
      { self.received self.pen.title (.entry title below .nil) with depth } := by
    rw [Loop.closeLevel_received hraised, Loop.received_raised]
    rfl
  have hshut : ∀ n, ((({ self with depth } : Loop).entered .default).received title below).shut
      (n + 1) = ({ self.received self.pen.title (.entry title below .nil) with depth } : Loop).shut n :=
    fun n => by
      rw [Loop.shut, Function.iterate_succ_apply, hclosed]
      rfl
  rw [Loop.closeLevel_fell hentered hlower, Loop.fell, hdepth,
    show depth + 1 - min lower (after - 1) = depth - min lower (after - 1) + 1 by omega, hshut,
    @Loop.fell_congr _ (min low (min lower (after - 1))) (min lower (after - 1))
      (by rw [Loop.received_depth]; omega)]
  exact Loop.fell_deeper hreceived (by rw [Loop.received_depth]; omega) (by omega) _

theorem looksFor_item (dialect : Dialect) {name : Str} (h : dialect.isItem name = true) :
    dialect.looksFor name = true := by
  cases dialect with
  | navDocument =>
      obtain rfl := eq_of_beq h
      decide
  | ncx =>
      obtain rfl := eq_of_beq h
      decide

theorem looksFor_title (dialect : Dialect) {name : Str} (h : dialect.isTitle name = true) :
    dialect.looksFor name = true := by
  cases dialect <;> simp [looksFor, h]

/-- The loop gathers the outline, and what is closed too soon holds nothing more of it. -/
theorem foldl_strewn (dialect : Dialect) {content : Strewn dialect} (hflow : dialect.Flow content.lefts) :
    ∀ {self : Loop} {room low depth : Nat}, self.Between → self.Layered →
      self.stack.length + room = maxDepth → low ≤ depth →
        Strewn.Calm room (Strewn.opened self.depth low depth) content →
          (Strewn.written content).foldl (dialect.step baseDir) (self.fell low depth) =
            (self.received (dialect.own baseDir room content.lefts self.pen.title)
              (dialect.outline baseDir room content.lefts)).fell (min low (Strewn.dip depth content))
                (Strewn.net depth content) := by
  induction content with
  | nil =>
      intro self room low depth h _ _ hle _
      rw [Strewn.dip, Nat.min_eq_left hle]
      exact congrArg (fun loop : Loop => loop.fell low depth) (Loop.received_nil h).symm
  | leaf a rest ih =>
      intro self room low depth h hlayered hroom hle hcalm
      have hfloor : 0 < self.depth := Nat.lt_of_lt_of_le hlayered.floor h.below
      unfold Strewn.written at ih ⊢
      rw [Nested.foldl_spell_leaf]
      cases a with
      | inl a =>
          have hreads : dialect.reads a.event = true → self.depth ≤ low := fun hin =>
            Strewn.opened_pos (hcalm.1 hin)
          have hcalm' : Strewn.Calm room (Strewn.opened (self.write (.resting (dialect.note baseDir
              (.resting self.pen.title) a.event).title)).depth low depth) rest := by
            rw [Loop.write_depth]
            exact hcalm.2
          change (rest.spell Strewn.spelling).foldl _
            (dialect.step baseDir (self.fell low depth) a.event) = _
          rw [step_fell_leaf dialect h hlayered hle a hreads,
            ih hflow (h.resting _) (hlayered.write _) (by rwa [Loop.write_length]) hle hcalm']
          exact congrArg
            (fun loop : Loop => loop.fell (min low (Strewn.dip depth rest)) (Strewn.net depth rest))
            (Loop.write_received (dialect.own baseDir room rest.lefts) _ _)
      -- the stray ends the level at `depth`, and `low` remembers how far down the count has been
      | inr stray =>
          have hdip := (Strewn.dip_le rest (depth - 1)).2.1
          have hcalm' : Strewn.Calm room (Strewn.opened self.depth low depth - 1) rest := hcalm
          rw [Strewn.opened_end hfloor hle] at hcalm'
          change (rest.spell Strewn.spelling).foldl _
            (dialect.step baseDir (self.fell low depth) (.endTag stray.name)) = _
          rw [step_end_quiet dialect ((Loop.fell_reading hlayered low depth).trans h.quiet),
            Loop.closeLevel_fell hlayered hle,
            ih hflow h hlayered hroom (Nat.min_le_right _ _) hcalm', Nat.min_assoc,
            Nat.min_eq_right hdip]
          rfl
  | node tag body rest ihbody ihrest =>
      intro self room low depth h hlayered hroom hle hcalm
      have hfloor : 0 < self.depth := Nat.lt_of_lt_of_le hlayered.floor h.below
      obtain ⟨hadmits, hbody, hrest⟩ := hflow
      obtain ⟨hsought, hinner, htitled, hbehind⟩ := hcalm
      have hsought' : dialect.looksFor tag.localName = true → self.depth ≤ low := fun hin =>
        Strewn.opened_pos (hsought hin)
      have hdip := Strewn.dip_le body (depth + 1)
      have hdip' := Strewn.dip_le rest (Strewn.net (depth + 1) body - 1)
      -- how far down the count has been behind the element, in two ways
      have hlow : min (min low (min (Strewn.dip (depth + 1) body) (Strewn.net (depth + 1) body - 1)))
          (Strewn.dip (Strewn.net (depth + 1) body - 1) rest) =
            min low (min (Strewn.dip (depth + 1) body)
              (Strewn.dip (Strewn.net (depth + 1) body - 1) rest)) := by omega
      rw [Strewn.left_element body hfloor hle] at hbehind
      unfold Strewn.written at ihbody ihrest ⊢
      rw [Nested.foldl_spell_node, Strewn.dip, Strewn.net, ← hlow]
      change (rest.spell Strewn.spelling).foldl _ (dialect.step baseDir
        ((body.spell Strewn.spelling).foldl _
          (dialect.step baseDir (self.fell low depth) (.start tag))) (.endTag tag.name)) = _
      -- an item that is open at its start tag is entered where the count stands now
      by_cases hitem : dialect.isItem tag.localName = true ∧ 0 < room
      · have hopen := hsought' (looksFor_item dialect hitem.1)
        have hbetween := h.raised (hopen.trans hle)
        have hentered := hbetween.entered .default
        have hlayered' : (({ self with depth } : Loop).entered .default).Layered :=
          (hlayered.deeper (hopen.trans hle)).entered hbetween.inside .default
        have hroom' : (({ self with depth } : Loop).entered .default).stack.length + (room - 1) =
            maxDepth := by
          change self.stack.length + 1 + (room - 1) = maxDepth
          omega
        have hcalm : Strewn.Calm (room - 1) (Strewn.opened
            (({ self with depth } : Loop).entered .default).depth (depth + 1) (depth + 1)) body := by
          rw [if_pos hitem] at hinner
          have hone : Strewn.opened (({ self with depth } : Loop).entered .default).depth (depth + 1)
              (depth + 1) = 1 := by
            change Strewn.opened (depth + 1) (depth + 1) (depth + 1) = 1
            rw [Strewn.opened, if_pos (Nat.le_refl _), Nat.sub_self]
          rwa [hone]
        rw [item_not_title dialect hitem.1, if_neg Bool.false_ne_true] at hbody
        rw [step_fell_item dialect h hle hopen hitem.1 (by omega), ihbody hbody hentered hlayered' hroom' (Nat.le_refl _) hcalm,
          Nat.min_eq_right hdip.2.1, step_end_quiet dialect ((Loop.fell_reading
            (hlayered'.received _ _) _ _).trans (hentered.received _ _).quiet),
          closeLevel_strewn h hlayered hle hopen _ _ hdip.1 hdip.2.2,
          ihrest hrest (h.received _ _) (hlayered.received _ _) (by rwa [Loop.received_length])
            (by omega) (by rwa [Loop.received_depth]),
          Nested.lefts, own, outline, if_pos hitem, if_pos hitem]
        exact congrArg (fun loop : Loop => loop.fell _ _)
          (Loop.received_then (dialect.own baseDir room rest.lefts) _ _ _)
      · rw [if_neg hitem] at hinner
        rw [Nested.lefts, own, outline, if_neg hitem, if_neg hitem]
        cases htitle : dialect.isTitle tag.localName with
        | true =>
            -- a title has to be open to its end, since its label is written there
            have hopen := hsought' (looksFor_title dialect htitle)
            rw [if_pos htitle] at hbody
            have hopened : Strewn.opened self.depth low depth + 1 =
                Strewn.opened self.depth low (depth + 1) := by
              rw [← Strewn.opened_start hle, if_neg (Nat.pos_iff_ne_zero.mp
                (hsought (looksFor_title dialect htitle)))]
            have hleft := htitled htitle
            rw [hopened, Strewn.left_opened body hfloor (by omega)] at hleft
            have hinside := Strewn.opened_pos hleft
            have hcalm : Strewn.Calm room (Strewn.opened self.depth
                (min low (Strewn.net (depth + 1) body - 1)) (Strewn.net (depth + 1) body - 1)) rest := by
              have hsame : Strewn.opened self.depth (min low (Strewn.net (depth + 1) body - 1))
                  (Strewn.net (depth + 1) body - 1) = Strewn.opened self.depth
                    (min low (min (Strewn.dip (depth + 1) body) (Strewn.net (depth + 1) body - 1)))
                      (Strewn.net (depth + 1) body - 1) := by
                unfold Strewn.opened
                split_ifs <;> omega
              rwa [hsame]
            have htitled' := @foldl_strewn_titled baseDir self dialect tag body htitle hadmits hbody h
              hlayered low depth hle hopen (by omega)
            unfold Strewn.written at htitled'
            rw [htitled', ihrest hrest (h.resting _) (hlayered.write _) (by rwa [Loop.write_length])
              (Nat.min_le_right _ _) (by rwa [Loop.write_depth]),
              Loop.write_received (dialect.own baseDir room rest.lefts)]
            exact Loop.fell_congr (by rw [Loop.received_depth]; omega) _
        | false =>
            rw [htitle, if_neg Bool.false_ne_true] at hbody
            rw [Strewn.opened_start hle] at hinner
            -- any other element moves the count and nothing else
            have hplain : ¬ (dialect.isItem tag.localName = true ∧ self.stack.length < maxDepth) :=
              fun hin => hitem ⟨hin.1, by omega⟩
            rw [step_fell_plain dialect h hle hsought' hplain htitle hadmits,
              ihbody hbody (h.resting _) (hlayered.write _) (by rwa [Loop.write_length]) (by omega)
                (by rwa [Loop.write_depth]),
              Loop.write_received (dialect.own baseDir room body.lefts),
              step_end_quiet dialect ((Loop.fell_reading (hlayered.received _ _) _ _).trans
                (h.received _ _).quiet),
              Loop.closeLevel_fell (hlayered.received _ _) (by omega), Nat.min_assoc,
              ihrest hrest (h.received _ _) (hlayered.received _ _) (by rwa [Loop.received_length])
                (by omega) (by rwa [Loop.received_depth])]
            exact congrArg (fun loop : Loop => loop.fell _ _)
              (Loop.received_then (dialect.own baseDir room rest.lefts) _ _ _)

end Dialect

/-! ## Documents with strays in them

The same for a whole document: sections of strewn content, and strays around them, which are
foreign and harmless. -/

/-- An element with an outline, strays in it and in front of it. -/
structure StrewnSection (dialect : Dialect) where
  part : Section dialect
  around : Stream dialect
  content : Strewn dialect
  around_bare : bare around = part.around
  content_bare : content.lefts = part.content

structure StrewnSource (dialect : Dialect) where
  sections : List (StrewnSection dialect)
  rest : Stream dialect
  foreign : dialect.Foreign (bare rest)

def StrewnSection.stream (strewn : StrewnSection dialect) : Stream dialect :=
  strewn.around ++ .inl (.start strewn.part.tag) ::
    (strewn.content.spell (markup.mixed (Stray dialect)) ++ [.inl (.endTag strewn.part.tag.name)])

namespace StrewnSource

/-- The document without its strays. -/
def source (strewn : StrewnSource dialect) : Source dialect :=
  ⟨strewn.sections.map StrewnSection.part, bare strewn.rest, strewn.foreign⟩

def stream (strewn : StrewnSource dialect) : Stream dialect :=
  strewn.sections.flatMap StrewnSection.stream ++ strewn.rest

/-- Nothing is read of what has been closed too soon. -/
def Calm (strewn : StrewnSource dialect) : Prop :=
  ∀ part ∈ strewn.sections, Strewn.Calm maxDepth 1 part.content

instance decidableCalm (strewn : StrewnSource dialect) : Decidable strewn.Calm :=
  inferInstanceAs (Decidable (∀ part ∈ strewn.sections, Strewn.Calm maxDepth 1 part.content))

end StrewnSource

theorem bare_append (front behind : Stream dialect) :
    bare (front ++ behind) = bare front ++ bare behind := List.filterMap_append

/-- Strays may stand anywhere in a document. -/
theorem exists_strewn (source : Source dialect) {stream : Stream dialect}
    (h : bare stream = source.events) :
    ∃ strewn : StrewnSource dialect, strewn.source = source ∧ strewn.stream = stream := by
  obtain ⟨parts, rest, foreign⟩ := source
  induction parts generalizing stream with
  | nil =>
      obtain rfl : bare stream = rest := h
      exact ⟨⟨[], stream, foreign⟩, rfl, rfl⟩
  | cons part parts ih =>
      have hsplit : bare stream = part.around ++ (.start part.tag :: (Nav.events part.content ++
          .endTag part.tag.name :: (sectionEvents parts ++ rest))) := by
        rw [h, Source.events, sectionEvents, Section.events, element]
        simp
      obtain ⟨around, inside, rfl, haround, hinside⟩ := List.filterMap_eq_append_iff.mp hsplit
      obtain ⟨before, body, rfl, hbody⟩ := Nested.filterMap_getLeft_cons hinside
      obtain ⟨inBody, behind, rfl, hcontent, hbehind⟩ := List.filterMap_eq_append_iff.mp hbody
      obtain ⟨between, last, rfl, hlast⟩ := Nested.filterMap_getLeft_cons hbehind
      obtain ⟨strewn, hsource, hstream⟩ := ih hlast
      have hcontent' : (inBody ++ between.map Sum.inr).filterMap Sum.getLeft? =
          part.content.spell markup := by
        rw [List.filterMap_append, hcontent, Nav.events]
        simp
      obtain ⟨content, hlefts, hspell⟩ := Nested.exists_lefts markup part.content hcontent'
      have haround' : bare (around ++ before.map Sum.inr) = part.around := by
        rw [bare_append, bare, haround, bare]
        simp
      refine ⟨⟨⟨part, around ++ before.map .inr, content, haround', hlefts⟩ :: strewn.sections,
        strewn.rest, strewn.foreign⟩, ?_, ?_⟩
      · rw [StrewnSource.source, Source.mk.injEq] at hsource ⊢
        exact ⟨congrArg (List.cons part) hsource.1, hsource.2⟩
      · rw [← hstream, StrewnSource.stream, StrewnSource.stream, List.flatMap_cons,
          StrewnSection.stream, hspell]
        simp

/-! ## What a parser returns

Behind each section the loop is outside again, at a depth that no longer matters. -/

theorem foreign_reported {stream : Stream dialect} (h : dialect.Foreign (bare stream)) :
    dialect.Foreign (stream.map reported) := by
  intro tag htag
  obtain ⟨event, hevent, heq⟩ := List.mem_map.mp htag
  cases event with
  | inl event =>
      obtain rfl : event = .start tag := heq
      exact h tag (List.mem_filterMap.mpr ⟨_, hevent, rfl⟩)
  | inr stray => cases heq

namespace Loop

theorem within_layered (finished : List NavPoint) (n : Nat) {depth : Nat} (h : 0 < depth) :
    (within finished n depth).Layered :=
  ⟨h, fun _ => Nat.le_refl _, .nil, (fun _ hlevel => nomatch hlevel), (fun _ hlevel => nomatch hlevel)⟩

theorem shut_behind (finished : List NavPoint) (n insideDepth depth k : Nat) :
    (behind finished n insideDepth depth).shut k = behind finished n insideDepth (depth - k) := by
  induction k with
  | zero => rfl
  | succ k ih =>
      have hclose : (behind finished n insideDepth (depth - k)).closeLevel =
          behind finished n insideDepth (depth - k - 1) := by
        simp [behind, closeLevel]
      rw [shut, Function.iterate_succ_apply']
      exact (congrArg closeLevel ih).trans hclose

/-- Whatever was closed in it, an outline is left at its end tag. -/
theorem closeLevel_fell_within (finished : List NavPoint) (n : Nat) {level low depth : Nat}
    (hlevel : 0 < level) (hle : low ≤ depth) (hdepth : depth ≤ level) :
    ((within finished n level).fell low depth).closeLevel =
      behind finished n level (depth - 1) := by
  have hshut : ∀ k, (within finished n level).shut (k + 1) =
      behind finished n level (level - 1 - k) := fun k => by
    rw [shut, Function.iterate_succ_apply, closeLevel_within]
    exact shut_behind finished n level (level - 1) k
  rw [closeLevel_fell (within_layered finished n hlevel) hle, fell]
  change { (within finished n level).shut (level - min low (depth - 1)) with depth := depth - 1 } = _
  rw [show level - min low (depth - 1) = level - 1 - min low (depth - 1) + 1 by omega, hshut]
  rfl

end Loop

/-- A calm section is read as without its strays. -/
theorem foldl_strewn_section (baseDir : Str) (strewn : StrewnSection dialect)
    (hcalm : Strewn.Calm maxDepth 1 strewn.content) (finished : List NavPoint)
    (n insideDepth depth : Nat) :
    ∃ insideDepth' depth', (strewn.stream.map reported).foldl (dialect.step baseDir)
      (.behind finished n insideDepth depth) = .behind (finished ++
          trees ((dialect.outline baseDir maxDepth strewn.part.content).kept Title.labelled maxEntries n))
        ((dialect.outline baseDir maxDepth strewn.part.content).spent Title.labelled maxEntries n)
        insideDepth' depth' := by
  have haround : dialect.Foreign (strewn.around.map reported) :=
    foreign_reported (strewn.around_bare ▸ strewn.part.foreign)
  obtain ⟨depth', hfront⟩ := Dialect.foldl_foreign baseDir haround finished n insideDepth depth
  have hbetween := Loop.within_between finished n (depth' + 1)
  have hlayered := Loop.within_layered finished n (Nat.succ_pos depth')
  have hflow : dialect.Flow strewn.content.lefts := strewn.content_bare ▸ strewn.part.flow
  have hdip := Strewn.dip_le strewn.content (depth' + 1)
  have hone : Strewn.opened (Loop.within finished n (depth' + 1)).depth (depth' + 1) (depth' + 1) = 1 := by
    change Strewn.opened (depth' + 1) (depth' + 1) (depth' + 1) = 1
    rw [Strewn.opened, if_pos (Nat.le_refl _), Nat.sub_self]
  have hcontent := @Dialect.foldl_strewn baseDir dialect strewn.content hflow
    (.within finished n (depth' + 1)) maxDepth (depth' + 1) (depth' + 1) hbetween hlayered
    (Nat.zero_add _) (Nat.le_refl _) (by rwa [hone])
  refine ⟨depth' + 1, Strewn.net (depth' + 1) strewn.content - 1, ?_⟩
  have hstart : (Loop.within finished n (depth' + 1)).fell (depth' + 1) (depth' + 1) =
      .within finished n (depth' + 1) := Loop.fell_open (Nat.le_refl _) _
  have hquiet : (((Loop.within finished n (depth' + 1)).received
      (dialect.own baseDir maxDepth strewn.content.lefts (Loop.within finished n (depth' + 1)).pen.title)
      (dialect.outline baseDir maxDepth strewn.content.lefts)).fell
        (min (depth' + 1) (Strewn.dip (depth' + 1) strewn.content))
        (Strewn.net (depth' + 1) strewn.content)).reading = false :=
    (Loop.fell_reading (hlayered.received _ _) _ _).trans (hbetween.received _ _).quiet
  rw [hstart] at hcontent
  rw [StrewnSection.stream, List.map_append, List.map_cons, List.map_append, Nested.map_spell,
    List.foldl_append, hfront, List.foldl_cons]
  change (Strewn.written strewn.content ++ [XmlEvent.endTag strewn.part.tag.name]).foldl _
    (dialect.step baseDir _ (.start strewn.part.tag)) = _
  rw [Dialect.step_opens strewn.part.opens, List.foldl_append, hcontent, List.foldl_cons, List.foldl_nil,
    Dialect.step_end_quiet dialect hquiet, strewn.content_bare, Loop.within_received,
    Loop.closeLevel_fell_within _ _ (Nat.succ_pos depth') (by omega) (by omega)]

/-- And so are calm sections in a row, whatever depth each of them starts at. -/
theorem foldl_strewn_sections (baseDir : Str) (parts : List (StrewnSection dialect))
    (hcalm : ∀ part ∈ parts, Strewn.Calm maxDepth 1 part.content) :
    ∀ (finished : List NavPoint) (n insideDepth depth : Nat),
      ∃ insideDepth' depth', ((parts.flatMap StrewnSection.stream).map reported).foldl
        (dialect.step baseDir) (.behind finished n insideDepth depth) = .behind (finished ++
            trees ((dialect.outlines baseDir maxDepth (parts.map fun strewn =>
              strewn.part.content)).kept Title.labelled maxEntries n))
          ((dialect.outlines baseDir maxDepth (parts.map fun strewn => strewn.part.content)).spent
            Title.labelled maxEntries n) insideDepth' depth' := by
  induction parts with
  | nil =>
      intro finished n insideDepth depth
      refine ⟨insideDepth, depth, ?_⟩
      rw [List.map_nil, Dialect.outlines, Hierarchy.kept, Hierarchy.spent, trees, List.append_nil]
      rfl
  | cons part parts ih =>
      intro finished n insideDepth depth
      obtain ⟨hpart, hparts⟩ := List.forall_mem_cons.mp hcalm
      obtain ⟨insideDepth', depth', hfirst⟩ := foldl_strewn_section baseDir part hpart finished n
        insideDepth depth
      obtain ⟨insideDepth'', depth'', hrest⟩ := ih hparts _ _ insideDepth' depth'
      refine ⟨insideDepth'', depth'', ?_⟩
      rw [List.flatMap_cons, List.map_append, List.foldl_append, hfirst, hrest, List.map_cons,
        Dialect.outlines, Hierarchy.kept_append, trees_append, Hierarchy.spent_append, List.append_assoc]

/-- Strays may stand anywhere, and leave the outline as it is when nothing is read of what they
have closed too soon. -/
theorem strays_tolerated (source : Source dialect) (stream : Stream dialect)
    (h : bare stream = source.events) (stop : XmlStop) (sourceHref : Str) :
    (∃ strewn : StrewnSource dialect, strewn.source = source ∧ strewn.stream = stream) ∧
      ∀ strewn : StrewnSource dialect, strewn.source = source → strewn.stream = stream →
        strewn.Calm → (dialect.parse ⟨stream.map reported, stop⟩ sourceHref).toc =
          (dialect.parse ⟨source.events, stop⟩ sourceHref).toc := by
  refine ⟨exists_strewn source h, ?_⟩
  rintro strewn rfl rfl hcalm
  obtain ⟨insideDepth, depth, hsections⟩ := foldl_strewn_sections (Href.parentDir sourceHref)
    strewn.sections hcalm [] 0 0 0
  have hcontents : (strewn.sections.map fun part => part.part.content) = strewn.source.contents := by
    rw [Source.contents, StrewnSource.source, List.map_map]
    rfl
  rw [hcontents] at hsections
  obtain ⟨depth', hrest⟩ := Dialect.foldl_foreign (Href.parentDir sourceHref)
    (foreign_reported strewn.foreign)
    (trees ((strewn.source.outline (Href.parentDir sourceHref) maxDepth).kept Title.labelled maxEntries 0))
    ((strewn.source.outline (Href.parentDir sourceHref) maxDepth).spent Title.labelled maxEntries 0)
    insideDepth depth
  have hrun : (strewn.stream.map reported).foldl (dialect.step (Href.parentDir sourceHref)) {} =
      .behind (trees ((strewn.source.outline (Href.parentDir sourceHref) maxDepth).kept Title.labelled
        maxEntries 0)) ((strewn.source.outline (Href.parentDir sourceHref) maxDepth).spent
          Title.labelled maxEntries 0) insideDepth depth' := by
    rw [StrewnSource.stream, List.map_append, List.foldl_append, ← hrest]
    exact congrArg (fun loop => (strewn.rest.map reported).foldl _ loop) hsections
  rw [parse_source]
  exact parse_behind hrun stop

theorem lineBreak_plain (dialect : Dialect) : dialect.isTitle (localName "br") = false := by
  cases dialect <;> rfl

/-- `</br>`. -/
def lineBreak (dialect : Dialect) : Stray dialect := ⟨"br", lineBreak_plain dialect⟩

/-- A document with `</br>` behind so many of its events. -/
def brokenAfter (n : Nat) (source : Source dialect) : Stream dialect :=
  (source.events.take n).map .inl ++ .inr (lineBreak dialect) :: (source.events.drop n).map .inl

/-- The outline of `partAndChapter`, with a `</br>` behind the title of the chapter. -/
def brokenLine : Strewn .navDocument :=
  .node (plainTag "li")
    (.node (plainTag "span") (.leaf (.inl ⟨.text "Part One", rfl⟩) .nil)
      (.node (plainTag "ol")
        (.node (plainTag "li")
          (.node (plainTag "span") (.leaf (.inl ⟨.text "Chapter One", rfl⟩) .nil)
            (.leaf (.inr (lineBreak .navDocument)) (.node (plainTag "ol") .nil .nil)))
          .nil)
        .nil))
    .nil

theorem flow_brokenLine : Dialect.navDocument.Flow brokenLine.lefts :=
  Dialect.navDocument.flow_item "Part One" (Dialect.navDocument.flow_item "Chapter One"
    Dialect.navDocument.flow_nil Dialect.navDocument.flow_nil) Dialect.navDocument.flow_nil

/-- The document, with a `</br>` in front of its outline and behind it, and that one. -/
def brokenPage : StrewnSource .navDocument where
  sections :=
    [{ part := ⟨[], plainTag "nav", brokenLine.lefts, Dialect.navDocument.foreign_nil,
        Dialect.navDocument.holder_opens, flow_brokenLine⟩
       around := [.inr (lineBreak .navDocument)]
       content := brokenLine
       around_bare := rfl
       content_bare := rfl }]
  rest := [.inr (lineBreak .navDocument)]
  foreign := Dialect.navDocument.foreign_nil

/-- Behind the chapter's title nothing is looked for, so closing it there costs nothing. -/
theorem brokenPage_calm : brokenPage.Calm := by decide

theorem strays_tolerated_part :
    (parseNav ⟨brokenPage.stream.map reported, .eof⟩ "OEBPS/nav.xhtml").toc =
      (parseNav ⟨(partAndChapter .navDocument).events, .eof⟩ "OEBPS/nav.xhtml").toc :=
  (strays_tolerated (partAndChapter .navDocument) brokenPage.stream rfl .eof "OEBPS/nav.xhtml").2
    brokenPage rfl rfl brokenPage_calm

/-- Inside an item the stray closes it before its title. -/
theorem stray_closes_entry :
    (parseNav ⟨(brokenAfter 2 (partAndChapter .navDocument)).map reported, .eof⟩
        "OEBPS/nav.xhtml").flatten.map NavPoint.label ≠
      (parseNav ⟨(partAndChapter .navDocument).events, .eof⟩
        "OEBPS/nav.xhtml").flatten.map NavPoint.label := by
  decide

end Nav

end GrpcEpub
