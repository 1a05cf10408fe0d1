/-
# `GrpcEpub.Heights` — how high a table of contents can stand

Every walk over a table of contents is a recursion with a frame for each point
it is inside, so the height of the tree is what the call stack has to hold.
The parsers bound it where entries are opened: an entry `k` places up the stack
has collected nothing higher than what still fits over it, whatever the tags
do.  The invariant, `Low`, is of the loop and not of the document.
-/
import GrpcEpub.Strays
import GrpcEpub.Sketch

namespace GrpcEpub

/-! ## Heights

A point alone has height 1.  Adding a child raises its parent's height to one more than the
child's, if it was less. -/

mutual
/-- The levels of a point, its own among them. -/
def NavPoint.height : NavPoint → Nat
  | .mk _ _ _ children => NavPoint.tallest children + 1
/-- The levels of the highest of them. -/
def NavPoint.tallest : List NavPoint → Nat
  | [] => 0
  | point :: rest => max (NavPoint.height point) (NavPoint.tallest rest)
end

namespace NavPoint

theorem tallest_le_iff {n : Nat} : ∀ {points : List NavPoint},
    tallest points ≤ n ↔ ∀ point ∈ points, point.height ≤ n
  | [] => by simp [tallest]
  | point :: rest => by
      rw [tallest, Nat.max_le, tallest_le_iff, List.forall_mem_cons]

theorem tallest_append (points points' : List NavPoint) :
    tallest (points ++ points') = max (tallest points) (tallest points') := by
  induction points with
  | nil => simp [tallest]
  | cons point rest ih => rw [List.cons_append, tallest, tallest, ih, max_assoc]

theorem tallest_singleton (point : NavPoint) : tallest [point] = point.height := Nat.max_zero _

theorem height_eq (point : NavPoint) : point.height = tallest point.children + 1 := by
  cases point
  rfl

theorem height_addChild (child point : NavPoint) :
    (addChild child point).height = max point.height (child.height + 1) := by
  obtain ⟨label, href, depth, children⟩ := point
  change tallest (children ++ [child]) + 1 = max (tallest children + 1) (child.height + 1)
  rw [tallest_append, tallest_singleton, Nat.add_max_add_right]

@[simp] theorem height_setLabel (label : Str) (point : NavPoint) :
    (point.setLabel label).height = point.height := by
  cases point
  rfl

@[simp] theorem height_setHref (href : Str) (point : NavPoint) :
    (point.setHref href).height = point.height := by
  cases point
  rfl

end NavPoint

namespace Nav

open Xml NavPoint

mutual
theorem height_renumber : ∀ (depth : Nat) (point : NavPoint),
    (renumber depth point).height = point.height
  | depth, .mk _ _ _ children => congrArg (· + 1) (tallest_renumberAll (depth + 1) children)
theorem tallest_renumberAll : ∀ (depth : Nat) (points : List NavPoint),
    tallest (renumberAll depth points) = tallest points
  | _, [] => rfl
  | depth, point :: rest => by
      change max (renumber depth point).height (tallest (renumberAll depth rest)) = _
      rw [height_renumber depth point, tallest_renumberAll depth rest, tallest]
end

mutual
/-- Numbered from `n` on, nothing is numbered beyond the height. -/
theorem depth_walk : ∀ (n : Nat) (point : NavPoint) (out : List NavPoint),
    ∀ entry ∈ (renumber n point).walk out, entry ∈ out ∨ entry.depth < n + point.height
  | n, .mk label href _ children, out, entry, hentry => by
      rcases depth_walkAll (n + 1) children _ entry hentry with hout | hbelow
      · rcases List.mem_append.mp hout with hout | hself
        · exact .inl hout
        · obtain rfl := List.mem_singleton.mp hself
          exact .inr (Nat.lt_add_of_pos_right (Nat.succ_pos _))
      · refine .inr (lt_of_lt_of_eq hbelow ?_)
        rw [height, Nat.add_assoc, Nat.add_comm 1]
theorem depth_walkAll : ∀ (n : Nat) (points : List NavPoint) (out : List NavPoint),
    ∀ entry ∈ walkAll (renumberAll n points) out,
      entry ∈ out ∨ entry.depth < n + tallest points
  | _, [], _, _, hentry => .inl hentry
  | n, point :: rest, out, entry, hentry => by
      rw [tallest]
      rcases depth_walkAll n rest _ entry hentry with hout | hrest
      · rcases depth_walk n point out entry hout with hout | hpoint
        · exact .inl hout
        · exact .inr (by omega)
      · exact .inr (by omega)
end

/-! ## The open entries

`Fits` asks each open entry to leave room for those below it on the stack, so a finished entry
can be given to the one below without breaking it. -/

/-- Every open entry, with what it has collected, fits over those below it. -/
def Fits : List Opened → Prop
  | [] => True
  | top :: outer => top.point.height + outer.length ≤ maxDepth ∧ Fits outer

theorem Fits.length {stack : List Opened} (h : Fits stack) : stack.length ≤ maxDepth := by
  cases stack with
  | nil => exact Nat.zero_le _
  | cons top outer =>
      have htop := h.1
      rw [height_eq] at htop
      rw [List.length_cons]
      omega

/-- An entry is opened where there is room for it. -/
theorem Fits.push {stack : List Opened} (h : Fits stack) (hroom : stack.length < maxDepth)
    (depth : Nat) : Fits ({ point := .default, depth } :: stack) :=
  ⟨by rw [Nat.add_comm]; exact hroom, h⟩

/-- Changing what an entry says of itself does not move it. -/
theorem Fits.onTop {stack : List Opened} (h : Fits stack) {f : NavPoint → NavPoint}
    (hf : ∀ point, (f point).height = point.height) : Fits (onTop f stack) := by
  cases stack with
  | nil => exact h
  | cons top outer => exact ⟨(hf top.point).symm ▸ h.1, h.2⟩

/-- A finished entry hangs one level under the entry it was opened in. -/
theorem Fits.attach {outer : List Opened} {roots : List NavPoint} {finished : NavPoint}
    (h : Fits outer) (hfinished : finished.height + outer.length ≤ maxDepth)
    (hroots : tallest roots ≤ maxDepth) :
    Fits (attach outer roots finished).1 ∧ tallest (attach outer roots finished).2 ≤ maxDepth := by
  cases outer with
  | nil =>
      refine ⟨trivial, ?_⟩
      change tallest (roots ++ [finished]) ≤ maxDepth
      rw [tallest_append, tallest_singleton]
      exact Nat.max_le.mpr ⟨hroots, hfinished⟩
  | cons parent outer =>
      have hparent := h.1
      rw [List.length_cons] at hfinished
      refine ⟨⟨?_, h.2⟩, hroots⟩
      change (addChild finished parent.point).height + outer.length ≤ maxDepth
      rw [height_addChild]
      omega

namespace Loop

/-- The invariant of either parser. -/
structure Low (loop : Loop) : Prop where
  stack : Fits loop.stack
  roots : tallest loop.roots ≤ maxDepth

variable {self : Loop}

theorem Low.text (h : self.Low) (content : Str) : (self.text content).Low := by
  unfold Loop.text
  split
  · exact ⟨h.stack, h.roots⟩
  · exact h

/-- Closing an entry gives it to the one below, which has left room for it. -/
theorem Low.closeLevel (h : self.Low) : self.closeLevel.Low := by
  cases hstack : self.stack with
  | nil =>
      rw [closeLevel_unopened hstack]
      exact ⟨h.stack, h.roots⟩
  | cons top outer =>
      have hfits : Fits (top :: outer) := hstack ▸ h.stack
      have hattached := hfits.2.attach hfits.1 h.roots
      rw [closeLevel_risen hstack]
      split
      · split
        · exact ⟨hattached.1, hattached.2⟩
        · exact ⟨hfits.2, h.roots⟩
      · exact ⟨h.stack, h.roots⟩

end Loop

open Loop

/-! ## One event

An entry is opened only where the stack is shorter than `MAX_DEPTH`; closing one attaches it, and
nothing else changes a height. -/

variable {self : Loop}

/-- A start tag opens an entry where there is room on the stack. -/
theorem navStart_low (baseDir : Str) (h : self.Low) (start : Tag) :
    (navStart baseDir self start).Low := by
  unfold navStart
  dsimp only
  split
  · split
    · exact ⟨h.stack, h.roots⟩
    · exact ⟨h.stack, h.roots⟩
  · split
    · split
      · rename_i hroom
        exact ⟨h.stack.push hroom _, h.roots⟩
      · exact ⟨h.stack, h.roots⟩
    · split
      · cases hstack : self.stack with
        | nil => exact ⟨trivial, h.roots⟩
        | cons top outer =>
            have hfits : Fits (top :: outer) := hstack ▸ h.stack
            dsimp only
            split
            · exact ⟨⟨(height_setHref _ top.point).symm ▸ hfits.1, hfits.2⟩, h.roots⟩
            · exact ⟨hfits, h.roots⟩
      · exact ⟨h.stack, h.roots⟩

theorem navEnd_low (h : self.Low) (name : Str) : (navEnd self name).Low := by
  unfold navEnd
  split
  · exact @Low.closeLevel ⟨_, _, _, _, _, _, _, _⟩
      ⟨h.stack.onTop fun point => height_setLabel _ point, h.roots⟩
  · exact h.closeLevel

theorem navStep_low (baseDir : Str) (h : self.Low) (event : XmlEvent) :
    (navStep baseDir self event).Low := by
  cases event with
  | start tag => exact navStart_low baseDir h tag
  | endTag name => exact navEnd_low h (localName name)
  | text content => exact h.text content
  | _ => exact h

theorem ncxContent_low (baseDir : Str) (h : self.Low) (start : Tag) :
    (ncxContent baseDir self start).Low :=
  ⟨h.stack.onTop fun point => height_setHref _ point, h.roots⟩

/-- A `navPoint` is opened where there is room. -/
theorem ncxStart_low (baseDir : Str) (h : self.Low) (start : Tag) :
    (ncxStart baseDir self start).Low := by
  unfold ncxStart
  dsimp only
  split
  · exact ⟨h.stack, h.roots⟩
  · split
    · rename_i hroom
      exact ⟨h.stack.push hroom.2.2 _, h.roots⟩
    · split
      · exact ⟨h.stack, h.roots⟩
      · split
        · exact @ncxContent_low { self with depth := self.depth + 1 } baseDir ⟨h.stack, h.roots⟩
            start
        · exact ⟨h.stack, h.roots⟩

theorem ncxEnd_low (h : self.Low) (name : Str) : (ncxEnd self name).Low := by
  unfold ncxEnd
  split
  · refine @Low.closeLevel ⟨_, _, _, _, _, _, _, _⟩ ⟨?_, h.roots⟩
    dsimp only
    apply h.stack.onTop
    intro point
    split
    · exact height_setLabel _ point
    · rfl
  · exact h.closeLevel

/-- One event of an NCX. -/
theorem ncxStep_low (baseDir : Str) (h : self.Low) (event : XmlEvent) :
    (ncxStep baseDir self event).Low := by
  cases event with
  | empty tag =>
      change (if self.inside ∧ tag.localName = "content" then ncxContent baseDir self tag
        else self).Low
      split
      · exact ncxContent_low baseDir h tag
      · exact h
  | start tag => exact ncxStart_low baseDir h tag
  | endTag name => exact ncxEnd_low h (localName name)
  | text content => exact h.text content
  | _ => exact h

/-! ## Any number of events

The induction, and what is left when the input ends with open entries: they are closed in order. -/

theorem low_start : ({} : Loop).Low := ⟨trivial, Nat.zero_le _⟩

theorem foldl_low {step : Loop → XmlEvent → Loop}
    (hstep : ∀ {loop : Loop}, loop.Low → ∀ event, (step loop event).Low) (events : List XmlEvent)
    (h : self.Low) : (events.foldl step self).Low := by
  induction events generalizing self with
  | nil => exact h
  | cons event rest ih => exact ih (hstep h event)

/-- What a broken document had open is finished in the entries that hold it. -/
theorem flush_low {stack : List Opened} : ∀ {inner : Option NavPoint} {roots : List NavPoint},
    Fits stack → (∀ point ∈ inner, point.height + stack.length ≤ maxDepth) →
      tallest roots ≤ maxDepth → tallest (flush inner stack roots) ≤ maxDepth := by
  induction stack with
  | nil =>
      intro inner roots _ hinner hroots
      rw [flush, tallest_append]
      cases inner with
      | none => exact Nat.max_le.mpr ⟨hroots, Nat.zero_le _⟩
      | some point =>
          refine Nat.max_le.mpr ⟨hroots, ?_⟩
          rw [Option.toList_some, tallest_singleton]
          exact hinner point rfl
  | cons top outer ih =>
      intro inner roots hfits hinner hroots
      have hpoint : (inner.elim top.point (NavPoint.addChild · top.point)).height + outer.length ≤
          maxDepth := by
        cases inner with
        | none => exact hfits.1
        | some point =>
            have htop := hfits.1
            have hheld := hinner point rfl
            rw [List.length_cons] at hheld
            rw [Option.elim_some, height_addChild]
            omega
      rw [flush]
      split
      · exact ih hfits.2 (fun point hnone => absurd hnone (Option.not_mem_none _)) hroots
      · refine ih hfits.2 (fun point hsome => ?_) hroots
        rw [← Option.some.inj hsome]
        exact hpoint

theorem foldl_navStep_low (baseDir : Str) (events : List XmlEvent) :
    (events.foldl (navStep baseDir) {}).Low :=
  foldl_low (fun h => navStep_low baseDir h) events low_start

theorem foldl_ncxStep_low (baseDir : Str) (events : List XmlEvent) :
    (events.foldl (ncxStep baseDir) {}).Low :=
  foldl_low (fun h => ncxStep_low baseDir h) events low_start

/-! ## What is renumbered

Renumbering does not change heights. -/

/-- The trees of a navigation document before they are renumbered. -/
def navRoots (stream : XmlStream) (sourceHref : Str) : List NavPoint :=
  let loop := stream.events.foldl (navStep (Href.parentDir sourceHref)) {}
  flush none loop.stack loop.roots

/-- The trees of an NCX before they are renumbered. -/
def ncxRoots (stream : XmlStream) (sourceHref : Str) : List NavPoint :=
  (stream.events.foldl (ncxStep (Href.parentDir sourceHref)) {}).roots

theorem tallest_navRoots (stream : XmlStream) (sourceHref : Str) :
    tallest (navRoots stream sourceHref) ≤ maxDepth :=
  have hlow := foldl_navStep_low (Href.parentDir sourceHref) stream.events
  flush_low hlow.stack (fun point hnone => absurd hnone (Option.not_mem_none point)) hlow.roots

theorem tallest_ncxRoots (stream : XmlStream) (sourceHref : Str) :
    tallest (ncxRoots stream sourceHref) ≤ maxDepth :=
  (foldl_ncxStep_low (Href.parentDir sourceHref) stream.events).roots

end Nav

/-! ## The walks, on a call stack that holds so many frames

Each recursion over a table of contents, with a counter that fails at zero.  With as many frames
as the tree is high it does what the recursion without a counter does. -/

/-- A fold whose step is out of stack on some elements. -/
theorem foldlM_guarded {α σ : Type} (fits : α → Prop) [DecidablePred fits] (step : σ → α → σ) :
    ∀ (items : List α) (state : σ),
      items.foldlM (fun state a => if fits a then some (step state a) else none) state =
        if ∀ a ∈ items, fits a then some (items.foldl step state) else none
  | [], state => (if_pos fun _ h => absurd h List.not_mem_nil).symm
  | a :: rest, state => by
      rw [List.foldlM_cons]
      by_cases ha : fits a
      · rw [if_pos ha, Option.bind_eq_bind, Option.bind_some, foldlM_guarded fits step rest]
        simp only [List.forall_mem_cons, ha, true_and, List.foldl_cons]
      · have hall : ¬ ∀ b ∈ a :: rest, fits b := fun h => ha (h a List.mem_cons_self)
        rw [if_neg ha, if_neg hall]
        rfl

/-- A guarded map succeeds when every item passes. -/
theorem mapM_guarded {α β : Type} (fits : α → Prop) [DecidablePred fits] (f : α → β) :
    ∀ items : List α, items.mapM (fun a => if fits a then some (f a) else none) =
      if ∀ a ∈ items, fits a then some (items.map f) else none
  | [] => (if_pos fun _ h => absurd h List.not_mem_nil).symm
  | a :: rest => by
      rw [List.mapM_cons, mapM_guarded fits f rest]
      by_cases ha : fits a
      · rw [if_pos ha]
        simp only [List.forall_mem_cons, ha, true_and, List.map_cons]
        by_cases hrest : ∀ b ∈ rest, fits b
        · rw [if_pos hrest, if_pos hrest]
          rfl
        · rw [if_neg hrest, if_neg hrest]
          rfl
      · have hall : ¬ ∀ b ∈ a :: rest, fits b := fun h => ha (h a List.mem_cons_self)
        rw [if_neg ha, if_neg hall]
        rfl

namespace NavPoint

open Nav

/-- `walk` of `flatten`. -/
def walkOn : Nat → NavPoint → List NavPoint → Option (List NavPoint)
  | 0, _, _ => none
  | frames + 1, .mk label href depth children, out =>
      children.foldlM (fun out child => walkOn frames child out)
        (out ++ [.mk label href depth children])

/-- `renumber` of `nest`. -/
def renumberOn : Nat → Nat → NavPoint → Option NavPoint
  | 0, _, _ => none
  | frames + 1, depth, .mk label href _ children =>
      (children.mapM (renumberOn frames (depth + 1))).map (.mk label href depth)

mutual
/-- `nav_point`: one entry, and everything under it, on the wire. -/
def navPoint : NavPoint → NavPoint
  | .mk label href depth children => .mk label href (min depth u32Max) (navPoints children)
def navPoints : List NavPoint → List NavPoint
  | [] => []
  | point :: rest => navPoint point :: navPoints rest
end

/-- `nav_point` itself. -/
def navPointOn : Nat → NavPoint → Option NavPoint
  | 0, _ => none
  | frames + 1, .mk label href depth children =>
      (children.mapM (navPointOn frames)).map (.mk label href (min depth u32Max))

/-- `walk` of `project_outline`. -/
def outlineWalkOn (chapters : HashMap Str Str) :
    Nat → NavPoint → List OutlineEntry → Option (List OutlineEntry)
  | 0, _, _ => none
  | frames + 1, .mk label href depth children, out =>
      children.foldlM (fun out child => outlineWalkOn chapters frames child out)
        (out ++ [outlineEntry chapters (.mk label href depth children)])

variable {frames : Nat}

theorem height_ne_zero (point : NavPoint) : ¬ point.height ≤ 0 := by
  rw [height_eq]
  exact Nat.not_succ_le_zero _

theorem height_le_succ {label href : Str} {depth : Nat} {children : List NavPoint} :
    (mk label href depth children).height ≤ frames + 1 ↔
      ∀ child ∈ children, child.height ≤ frames := by
  rw [height, Nat.add_le_add_iff_right, tallest_le_iff]

theorem walkAll_eq_foldl (points out : List NavPoint) :
    walkAll points out = points.foldl (fun out point => point.walk out) out := by
  induction points generalizing out with
  | nil => rfl
  | cons point rest ih => exact ih (point.walk out)

theorem renumberAll_eq_map (depth : Nat) : ∀ points : List NavPoint,
    renumberAll depth points = points.map (renumber depth)
  | [] => rfl
  | point :: rest => congrArg (renumber depth point :: ·) (renumberAll_eq_map depth rest)

theorem navPoints_eq_map : ∀ points : List NavPoint, navPoints points = points.map navPoint
  | [] => rfl
  | point :: rest => congrArg (navPoint point :: ·) (navPoints_eq_map rest)

theorem outlineWalkAll_eq_foldl (chapters : HashMap Str Str) :
    ∀ (points : List NavPoint) (out : List OutlineEntry),
      DocumentFold.outlineWalkAll chapters points out =
        points.foldl (fun out point => DocumentFold.outlineWalk chapters point out) out
  | [], _ => rfl
  | point :: rest, out =>
      outlineWalkAll_eq_foldl chapters rest (DocumentFold.outlineWalk chapters point out)

/-- As many frames as the point is high, and no fewer. -/
theorem walkOn_eq : ∀ (frames : Nat) (point : NavPoint) (out : List NavPoint),
    walkOn frames point out = if point.height ≤ frames then some (point.walk out) else none
  | 0, point, out => (if_neg (height_ne_zero point)).symm
  | frames + 1, .mk label href depth children, out => by
      simp only [height_le_succ]
      rw [walkOn, walk, walkAll_eq_foldl, ← foldlM_guarded]
      congr 1
      funext out child
      exact walkOn_eq frames child out

theorem renumberOn_eq : ∀ (frames depth : Nat) (point : NavPoint), renumberOn frames depth point =
    if point.height ≤ frames then some (renumber depth point) else none
  | 0, depth, point => (if_neg (height_ne_zero point)).symm
  | frames + 1, depth, .mk label href own children => by
      have hchildren : renumberOn frames (depth + 1) = fun child : NavPoint =>
          if child.height ≤ frames then some (renumber (depth + 1) child) else none :=
        funext fun child => renumberOn_eq frames (depth + 1) child
      simp only [height_le_succ]
      rw [renumberOn, renumber, renumberAll_eq_map, hchildren, mapM_guarded]
      split <;> rfl

theorem navPointOn_eq : ∀ (frames : Nat) (point : NavPoint),
    navPointOn frames point = if point.height ≤ frames then some (navPoint point) else none
  | 0, point => (if_neg (height_ne_zero point)).symm
  | frames + 1, .mk label href depth children => by
      have hchildren : navPointOn frames = fun child : NavPoint =>
          if child.height ≤ frames then some (navPoint child) else none :=
        funext fun child => navPointOn_eq frames child
      simp only [height_le_succ]
      rw [navPointOn, navPoint, navPoints_eq_map, hchildren, mapM_guarded]
      split <;> rfl

theorem outlineWalkOn_eq (chapters : HashMap Str Str) :
    ∀ (frames : Nat) (point : NavPoint) (out : List OutlineEntry),
      outlineWalkOn chapters frames point out =
        if point.height ≤ frames then some (DocumentFold.outlineWalk chapters point out) else none
  | 0, point, out => (if_neg (height_ne_zero point)).symm
  | frames + 1, .mk label href depth children, out => by
      simp only [height_le_succ]
      rw [outlineWalkOn, DocumentFold.outlineWalk, outlineWalkAll_eq_foldl, ← foldlM_guarded]
      congr 1
      funext out child
      exact outlineWalkOn_eq chapters frames child out

mutual
theorem height_navPoint : ∀ point : NavPoint, (navPoint point).height = point.height
  | .mk _ _ _ children => congrArg (· + 1) (tallest_navPoints children)
theorem tallest_navPoints : ∀ points : List NavPoint, tallest (navPoints points) = tallest points
  | [] => rfl
  | point :: rest => by
      rw [navPoints, tallest, tallest, height_navPoint point, tallest_navPoints rest]
end

mutual
/-- On the wire a depth is a `u32`, which is more than enough. -/
theorem navPoint_renumber : ∀ (n : Nat) (point : NavPoint), n + point.height ≤ u32Max →
    navPoint (renumber n point) = renumber n point
  | n, .mk label href _ children, h => by
      rw [height] at h
      rw [renumber, navPoint, navPoints_renumberAll (n + 1) children (by omega),
        Nat.min_eq_left (by omega)]
theorem navPoints_renumberAll : ∀ (n : Nat) (points : List NavPoint), n + tallest points ≤ u32Max →
    navPoints (renumberAll n points) = renumberAll n points
  | _, [], _ => rfl
  | n, point :: rest, h => by
      rw [tallest] at h
      rw [renumberAll, navPoints, navPoint_renumber n point (by omega),
        navPoints_renumberAll n rest (by omega)]
end

end NavPoint

namespace Nav

open NavPoint

/-- What the bound on the height is for: all that is done with a table of contents is done
within so many frames. -/
structure Shallow (roots toc : List NavPoint) : Prop where
  nested : ∀ root ∈ roots, renumberOn maxDepth 0 root = some (renumber 0 root)
  high : ∀ point ∈ toc, point.height ≤ maxDepth
  numbered : ∀ point ∈ walkAll toc [], point.depth < maxDepth
  flattened : ∀ point ∈ toc, ∀ out, walkOn maxDepth point out = some (point.walk out)
  sent : ∀ point ∈ toc, navPointOn maxDepth point = some (navPoint point)
  whole : toc.map navPoint = toc
  projected : ∀ point ∈ toc.map navPoint, ∀ chapters out,
    outlineWalkOn chapters maxDepth point out = some (DocumentFold.outlineWalk chapters point out)

/-- A table of contents that is low is walked on a stack of that many frames. -/
theorem shallow_nest {roots : List NavPoint} (h : tallest roots ≤ maxDepth) :
    Shallow roots (nest roots) := by
  have hroots : ∀ root ∈ roots, root.height ≤ maxDepth := tallest_le_iff.mp h
  have htoc : ∀ point ∈ nest roots, point.height ≤ maxDepth :=
    tallest_le_iff.mp ((tallest_renumberAll 0 roots).le.trans h)
  refine ⟨fun root hroot => ?_, htoc, fun point hpoint => ?_, fun point hpoint out => ?_,
    fun point hpoint => ?_, ?_, fun point hpoint chapters out => ?_⟩
  · rw [renumberOn_eq, if_pos (hroots root hroot)]
  · rcases depth_walkAll 0 roots [] point hpoint with hnone | hbelow
    · exact absurd hnone List.not_mem_nil
    · omega
  · rw [walkOn_eq, if_pos (htoc point hpoint)]
  · rw [navPointOn_eq, if_pos (htoc point hpoint)]
  · rw [← navPoints_eq_map]
    exact navPoints_renumberAll 0 roots ((Nat.zero_add _).le.trans (h.trans (by decide)))
  · obtain ⟨entry, hentry, rfl⟩ := List.mem_map.mp hpoint
    rw [outlineWalkOn_eq, if_pos ((height_navPoint entry).le.trans (htoc entry hentry))]

/-- Whatever the events, and wherever they break off, no more than `maxDepth` entries are open,
and no tree stands higher. -/
theorem heights_bounded (baseDir : Str) (events : List XmlEvent) (stream : XmlStream)
    (sourceHref : Str) :
    (events.foldl (navStep baseDir) {}).stack.length ≤ maxDepth ∧
      (events.foldl (ncxStep baseDir) {}).stack.length ≤ maxDepth ∧
      (parseNav stream sourceHref).toc = nest (navRoots stream sourceHref) ∧
      Shallow (navRoots stream sourceHref) (parseNav stream sourceHref).toc ∧
      (parseNcx stream sourceHref).toc = nest (ncxRoots stream sourceHref) ∧
      Shallow (ncxRoots stream sourceHref) (parseNcx stream sourceHref).toc :=
  ⟨(foldl_navStep_low baseDir events).stack.length, (foldl_ncxStep_low baseDir events).stack.length,
    rfl, shallow_nest (tallest_navRoots stream sourceHref), rfl,
    shallow_nest (tallest_ncxRoots stream sourceHref)⟩

end Nav

end GrpcEpub
