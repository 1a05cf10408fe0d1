/-
# `GrpcEpub.Cues` — the cues of an overlay that is cut off

The event loop of `Smil.parseOverlay` stops at `MAX_CUES` cues, which is to say that it keeps
the first of those it would find without the bound (`close_loop`).  Over a `par` that holds no
other it fills one cue, and between them it fills none.  So an overlay read up to any cut gives
the cues of the `par` elements closed in front of it, and then what it has of the open one.
-/
import GrpcEpub.Sections
import GrpcEpub.Smil

namespace GrpcEpub

namespace Smil

open Xml

/-! ## Streams without a `par` in a `par`

As pieces: an event outside, an empty `par`, or a `par` with its content.  `Segment` carries the
facts that make it a piece. -/

/-- An event outside the `par` elements: no `par`, and no `text` or `audio`. -/
def Outside : XmlEvent → Prop
  | .start tag | .empty tag =>
      tag.localName ≠ "par" ∧ tag.localName ≠ "text" ∧ tag.localName ≠ "audio"
  | .endTag name => localName name ≠ "par"
  | _ => True

/-- An event inside a `par`: no other one. -/
def Inside : XmlEvent → Prop
  | .start tag | .empty tag => tag.localName ≠ "par"
  | .endTag name => localName name ≠ "par"
  | _ => True

/-- A `par` element with its content. -/
structure Par where
  tag : Tag
  body : List XmlEvent
  closing : Str
  named : tag.localName = "par"
  flat : ∀ event ∈ body, Inside event
  closes : localName closing = "par"

/-- A piece of a stream. -/
inductive Segment where
  | outside (event : XmlEvent) (h : Outside event)
  | emptyPar (tag : Tag) (h : tag.localName = "par")
  | par (self : Par)

namespace Segment

def events : Segment → List XmlEvent
  | .outside event _ => [event]
  | .emptyPar tag _ => [.empty tag]
  | .par self => .start self.tag :: (self.body ++ [.endTag self.closing])

/-- The `par` that is open after so many events of a piece, and what was read in it. -/
def openAt : Segment → Nat → Option (Tag × List XmlEvent)
  | .par self, n + 1 => some (self.tag, self.body.take n)
  | _, _ => none

/-- The `par` that is closed by the end of it. -/
def closed : Segment → Option (Tag × List XmlEvent)
  | .par self => some (self.tag, self.body)
  | _ => none

end Segment

/-- The `par` elements that are closed within so many events, and the one that is open. -/
def parsAt : List Segment → Nat → List (Tag × List XmlEvent)
  | [], _ => []
  | segment :: rest, n =>
      if segment.events.length ≤ n then
        segment.closed.toList ++ parsAt rest (n - segment.events.length)
      else (segment.openAt n).toList

/-! ## What a `par` says

Read off its events, without a loop: of several `text` or `audio` elements the last one counts. -/

/-- The elements of this name, in order. -/
def elements (name : Str) (body : List XmlEvent) : List Tag :=
  body.filterMap fun
    | .start tag | .empty tag => if tag.localName = name then some tag else none
    | _ => none

variable (parse : Str → Option Real64) (baseDir : Str)

/-- The cue of a `par`: its id, the target of its `text`, and the target and the times of its
`audio`; of several, the last. -/
def cueOf (par : Tag × List XmlEvent) : Cue :=
  let text := (elements "text" par.2).getLast?
  let audio := (elements "audio" par.2).getLast?
  let clip (name : Str) : Real64 :=
    (audio.bind fun tag => parseClock parse (attributeValue tag name)).getD .zero
  { textHref := (text.map fun tag => resolveSrc baseDir (attributeValue tag "src")).getD []
    audioHref := (audio.map fun tag => resolveSrc baseDir (attributeValue tag "src")).getD []
    startTime := clip "clipBegin"
    endTime := clip "clipEnd"
    identifier := attributeValue par.1 "id" }

/-- It has a target, or an end that is not zero. -/
def speaks (cue : Cue) : Bool :=
  cue.textHref ≠ [] ∨ cue.audioHref ≠ [] ∨ cue.endTime ≠ .zero

/-! ## The bound

Stopping at the bound is taking the first cues of a loop that does not stop. -/

/-- A cue is kept if it speaks. -/
theorem push_eq (cues : List Cue) (cue : Cue) :
    push cues cue = cues ++ [cue].filter speaks := by
  unfold push
  rw [List.filter_cons]
  by_cases hsilent : cue.textHref = [] ∧ cue.audioHref = [] ∧ cue.endTime = .zero
  · have hspeaks : speaks cue = false := by simp [speaks, hsilent]
    rw [if_pos hsilent, hspeaks]
    exact (List.append_nil cues).symm
  · have hspeaks : speaks cue = true := by
      simp only [speaks, decide_eq_true_eq]
      tauto
    rw [if_neg hsilent, hspeaks]
    rfl

/-- The cue being filled, if any, says nothing. -/
def Loop.Quiet (self : Loop) : Prop := ∀ cue ∈ self.current, speaks cue = false

namespace Loop

variable {self : Loop}

theorem close_eq (self : Loop) : self.close =
    { cues := self.cues ++ self.current.toList.filter speaks, current := none } := by
  unfold close
  cases hcurrent : self.current with
  | none =>
      obtain ⟨cues, current⟩ := self
      obtain rfl : current = none := hcurrent
      simp
  | some cue => exact congrArg (fun cues => Loop.mk cues none) (push_eq self.cues cue)

theorem Quiet.close (h : self.Quiet) : self.close.cues = self.cues := by
  rw [close_eq]
  cases hcurrent : self.current with
  | none => exact List.append_nil _
  | some cue =>
      rw [Option.toList_some, List.filter_cons_of_neg (by simp [h cue hcurrent])]
      exact List.append_nil _

end Loop

/-- A cue that has only its id says nothing. -/
theorem speaks_fresh (id : Str) : speaks { identifier := id } = false := rfl

/-- Closing adds nothing, or a cue. -/
theorem close_cues (self : Loop) : self.close.cues = self.cues ∨
    ∃ cue, self.close.cues = self.cues ++ [cue] := by
  rw [Loop.close_eq]
  cases self.current with
  | none => exact .inl (List.append_nil _)
  | some cue =>
      rw [Option.toList_some, List.filter_cons]
      split
      · exact .inr ⟨cue, rfl⟩
      · exact .inl (List.append_nil _)

theorem close_front (self : Loop) : self.cues <+: self.close.cues := by
  rw [Loop.close_eq]
  exact List.prefix_append _ _

/-- An event adds nothing, or a cue, and then the one being filled says nothing yet. -/
theorem step_cues (self : Loop) (event : XmlEvent) :
    (step parse baseDir self event).cues = self.cues ∨
      (step parse baseDir self event).Quiet ∧
        ∃ cue, (step parse baseDir self event).cues = self.cues ++ [cue] := by
  have htag (tag : Tag) : (startTag parse baseDir self tag).cues = self.cues ∨
      (startTag parse baseDir self tag).Quiet ∧
        ∃ cue, (startTag parse baseDir self tag).cues = self.cues ++ [cue] := by
    unfold startTag
    dsimp only
    split
    · refine (close_cues self).imp id fun hmore => ⟨fun cue hcue => ?_, hmore⟩
      obtain rfl := Option.some.inj hcue
      exact speaks_fresh _
    · split
      · exact .inl rfl
      · split <;> exact .inl rfl
  cases event with
  | start tag => exact htag tag
  | empty tag => exact htag tag
  | endTag name =>
      unfold step
      dsimp only
      split
      · refine (close_cues self).imp id fun hmore => ⟨fun cue hcue => ?_, hmore⟩
        rw [Loop.close_eq] at hcue
        cases hcue
      · exact .inl rfl
  | text | cData | generalRef | docType | other => exact .inl rfl

/-- Cues are only added. -/
theorem foldl_cues (events : List XmlEvent) (self : Loop) :
    self.cues <+: (events.foldl (step parse baseDir) self).cues := by
  induction events generalizing self with
  | nil => exact List.prefix_refl _
  | cons event rest ih =>
      have hstep : self.cues <+: (step parse baseDir self event).cues := by
        rcases step_cues parse baseDir self event with hsame | ⟨-, cue, hmore⟩
        · rw [hsame]
        · rw [hmore]
          exact List.prefix_append _ _
      exact hstep.trans (ih _)

/-- The loop keeps the first of the cues that it would find without the bound. -/
theorem close_loop (events : List XmlEvent) (self : Loop) (h : self.cues.length < maxCues) :
    (loop parse baseDir self events).close.cues =
      ((events.foldl (step parse baseDir) self).close.cues).take maxCues := by
  induction events generalizing self with
  | nil =>
      refine (List.take_of_length_le ?_).symm
      rcases close_cues self with hsame | ⟨cue, hmore⟩
      · change self.close.cues.length ≤ maxCues
        rw [hsame]
        omega
      · change self.close.cues.length ≤ maxCues
        rw [hmore, List.length_append, List.length_singleton]
        omega
  | cons event rest ih =>
      rw [loop, List.foldl_cons]
      split
      · rename_i hfull
        have hmany : self.cues.length < (step parse baseDir self event).cues.length := by omega
        rcases step_cues parse baseDir self event with hsame | ⟨hquiet, cue, hmore⟩
        · rw [hsame] at hmany
          omega
        · have hlength : (step parse baseDir self event).cues.length = maxCues := by
            rw [hmore, List.length_append, List.length_singleton] at hfull ⊢
            omega
          have hfront := (foldl_cues parse baseDir rest (step parse baseDir self event)).trans
            (close_front _)
          obtain ⟨more, hall⟩ := hfront
          rw [hquiet.close, ← hall, ← hlength, List.take_left']
          rfl
      · exact ih _ (by omega)

/-! ## Inside a `par`

What has been read so far is the cue of a shorter content. -/

theorem elements_concat (name : Str) (front : List XmlEvent) (event : XmlEvent) :
    elements name (front ++ [event]) = elements name front ++ elements name [event] :=
  List.filterMap_append

theorem elements_tag (name : Str) (tag : Tag) {event : XmlEvent}
    (h : event = .start tag ∨ event = .empty tag) :
    elements name [event] = if tag.localName = name then [tag] else [] := by
  rcases h with rfl | rfl
  · rw [elements, List.filterMap_cons]
    split <;> split <;> simp_all
  · rw [elements, List.filterMap_cons]
    split <;> split <;> simp_all

/-- A tag that is no `par` is read for the open cue. -/
theorem startTag_inside (cues : List Cue) (par : Tag) (front : List XmlEvent) {tag : Tag}
    {event : XmlEvent} (hevent : event = .start tag ∨ event = .empty tag)
    (hname : tag.localName ≠ "par") :
    startTag parse baseDir { cues, current := some (cueOf parse baseDir (par, front)) } tag =
      { cues, current := some (cueOf parse baseDir (par, front ++ [event])) } := by
  unfold startTag cueOf
  dsimp only
  rw [if_neg hname, elements_concat, elements_concat, elements_tag "text" tag hevent,
    elements_tag "audio" tag hevent]
  by_cases htext : tag.localName = "text"
  · have haudio : tag.localName ≠ "audio" := fun heq => by
      rw [htext] at heq
      exact absurd heq (by decide)
    rw [if_pos htext, if_pos htext, if_neg haudio, List.getLast?_concat, List.append_nil]
    rfl
  · rw [if_neg htext, if_neg htext, List.append_nil]
    by_cases haudio : tag.localName = "audio"
    · rw [if_pos haudio, if_pos haudio, List.getLast?_concat]
      rfl
    · rw [if_neg haudio, if_neg haudio, List.append_nil]

/-- What is read inside a `par` is its cue so far. -/
theorem foldl_inside (cues : List Cue) (par : Tag) (front : List XmlEvent) {body : List XmlEvent}
    (h : ∀ event ∈ body, Inside event) :
    body.foldl (step parse baseDir) { cues, current := some (cueOf parse baseDir (par, front)) } =
      { cues, current := some (cueOf parse baseDir (par, front ++ body)) } := by
  induction body generalizing front with
  | nil => rw [List.append_nil]; rfl
  | cons event rest ih =>
      obtain ⟨hevent, hrest⟩ := List.forall_mem_cons.mp h
      have hstep : step parse baseDir { cues, current := some (cueOf parse baseDir (par, front)) } event =
          { cues, current := some (cueOf parse baseDir (par, front ++ [event])) } := by
        have hother (hnone : ∀ name, elements name [event] = []) :
            cueOf parse baseDir (par, front ++ [event]) = cueOf parse baseDir (par, front) := by
          unfold cueOf
          rw [elements_concat, elements_concat, hnone, hnone, List.append_nil, List.append_nil]
        cases event with
        | start tag => exact startTag_inside parse baseDir cues par front (.inl rfl) hevent
        | empty tag => exact startTag_inside parse baseDir cues par front (.inr rfl) hevent
        | endTag name =>
            rw [hother fun _ => rfl]
            exact if_neg hevent
        | text | cData | generalRef | docType | other =>
            rw [hother fun _ => rfl]
            rfl
      rw [List.foldl_cons, hstep, ih _ hrest, List.append_assoc, List.singleton_append]

/-! ## Piece by piece

The loop is `Quiet` between two pieces. -/

/-- What a `par` that is closed, or that is open at the end, has said. -/
def said (pars : List (Tag × List XmlEvent)) : List Cue :=
  (pars.map (cueOf parse baseDir)).filter speaks

/-- The start of a `par`. -/
theorem step_par (self : Loop) (h : self.Quiet) {tag : Tag} (hname : tag.localName = "par") :
    startTag parse baseDir self tag =
      { cues := self.cues, current := some (cueOf parse baseDir (tag, [])) } := by
  unfold startTag
  dsimp only
  rw [if_pos hname, h.close]
  rfl

/-- A `par` without content says nothing. -/
theorem speaks_empty (tag : Tag) : speaks (cueOf parse baseDir (tag, [])) = false := rfl

/-- An event outside changes nothing. -/
theorem step_outside (self : Loop) {event : XmlEvent} (h : Outside event) :
    step parse baseDir self event = self := by
  have htag {tag : Tag} (hpar : tag.localName ≠ "par") (htext : tag.localName ≠ "text")
      (haudio : tag.localName ≠ "audio") : startTag parse baseDir self tag = self :=
    (if_neg hpar).trans ((if_neg htext).trans (if_neg haudio))
  cases event with
  | start tag => exact htag h.1 h.2.1 h.2.2
  | empty tag => exact htag h.1 h.2.1 h.2.2
  | endTag name => exact if_neg h
  | text | cData | generalRef | docType | other => rfl

/-- Over a piece, what is said by the `par` closed in it is added. -/
theorem foldl_segment (segment : Segment) (self : Loop) (h : self.Quiet) :
    (segment.events.foldl (step parse baseDir) self).Quiet ∧
      (segment.events.foldl (step parse baseDir) self).cues =
        self.cues ++ said parse baseDir segment.closed.toList := by
  cases segment with
  | outside event hevent =>
      change (step parse baseDir self event).Quiet ∧ (step parse baseDir self event).cues = _
      rw [step_outside parse baseDir self hevent]
      exact ⟨h, (List.append_nil _).symm⟩
  | emptyPar tag hname =>
      change (startTag parse baseDir self tag).Quiet ∧ (startTag parse baseDir self tag).cues = _
      rw [step_par parse baseDir self h hname]
      refine ⟨fun cue hcue => ?_, (List.append_nil _).symm⟩
      obtain rfl := Option.some.inj hcue
      exact speaks_empty parse baseDir tag
  | par par =>
      have hend (self : Loop) : step parse baseDir self (.endTag par.closing) = self.close :=
        if_pos par.closes
      rw [Segment.events, List.foldl_cons, List.foldl_append]
      change (step parse baseDir (par.body.foldl (step parse baseDir)
        (startTag parse baseDir self par.tag)) (.endTag par.closing)).Quiet ∧
          (step parse baseDir (par.body.foldl (step parse baseDir)
            (startTag parse baseDir self par.tag)) (.endTag par.closing)).cues = _
      rw [step_par parse baseDir self h par.named, foldl_inside parse baseDir _ _ [] par.flat, hend,
        Loop.close_eq]
      refine ⟨fun cue hcue => ?_, rfl⟩
      cases hcue

/-- At a cut in a piece, what is said by the open `par` is added at the end. -/
theorem foldl_open (segment : Segment) (n : Nat) (self : Loop) (h : self.Quiet)
    (hcut : n < segment.events.length) :
    ((segment.events.take n).foldl (step parse baseDir) self).close.cues =
      self.cues ++ said parse baseDir (segment.openAt n).toList := by
  have hnothing : self.close.cues = self.cues ++ said parse baseDir [] :=
    h.close.trans (List.append_nil _).symm
  cases segment with
  | outside event hevent =>
      obtain rfl : n = 0 := Nat.lt_one_iff.mp hcut
      exact hnothing
  | emptyPar tag hname =>
      obtain rfl : n = 0 := Nat.lt_one_iff.mp hcut
      exact hnothing
  | par par =>
      cases n with
      | zero => exact hnothing
      | succ n =>
          have hshort : n ≤ par.body.length := by
            rw [Segment.events, List.length_cons, List.length_append, List.length_singleton] at hcut
            omega
          have hflat : ∀ event ∈ par.body.take n, Inside event :=
            fun event hevent => par.flat event (List.mem_of_mem_take hevent)
          rw [Segment.events, List.take_succ_cons, List.take_append_of_le_length hshort,
            List.foldl_cons]
          change ((par.body.take n).foldl (step parse baseDir)
            (startTag parse baseDir self par.tag)).close.cues = _
          rw [step_par parse baseDir self h par.named, foldl_inside parse baseDir _ _ [] hflat,
            Loop.close_eq]
          rfl

/-- The cues at a cut, without the bound. -/
theorem foldl_cut (segments : List Segment) (n : Nat) (self : Loop) (h : self.Quiet) :
    (((segments.flatMap Segment.events).take n).foldl (step parse baseDir) self).close.cues =
      self.cues ++ said parse baseDir (parsAt segments n) := by
  induction segments generalizing n self with
  | nil =>
      rw [List.flatMap_nil, List.take_nil]
      exact h.close.trans (List.append_nil _).symm
  | cons segment rest ih =>
      rw [List.flatMap_cons, parsAt, List.take_append]
      split
      · rename_i hwhole
        obtain ⟨hquiet, hcues⟩ := foldl_segment parse baseDir segment self h
        rw [List.take_of_length_le hwhole, List.foldl_append, ih _ _ hquiet, hcues, said, said, said,
          List.map_append, List.filter_append, List.append_assoc]
      · rename_i hcut
        have hzero : n - segment.events.length = 0 := by omega
        rw [hzero, List.take_zero, List.append_nil]
        exact foldl_open parse baseDir segment n self h (by omega)

/-- An overlay that is cut off has the cues of the `par` elements closed in front of the cut, and
of the open one what it says so far; of more than `MAX_CUES`, the first. -/
theorem parse_overlay_cut (segments : List Segment) (n : Nat) (stop : XmlStop) (sourceHref : Str) :
    let overlay := parseOverlay parse
      { events := (segments.flatMap Segment.events).take n, stop } sourceHref
    overlay.cues = (((parsAt segments n).map (cueOf parse (Href.parentDir sourceHref))).filter
      speaks).take maxCues ∧ overlay.cues.length ≤ maxCues := by
  have hquiet : Loop.Quiet {} := fun cue hcue => by cases hcue
  have hcues := close_loop parse (Href.parentDir sourceHref)
    ((segments.flatMap Segment.events).take n) {} (by decide)
  rw [foldl_cut parse _ segments n {} hquiet] at hcues
  refine ⟨hcues, ?_⟩
  change (loop parse _ {} _).close.cues.length ≤ maxCues
  rw [hcues]
  exact List.length_take_le _ _

/-! ## Documents

A document whose `par` elements hold no other is such a stream. -/

/-- No `par` holds another, and `text` and `audio` are only in those that have an end tag. -/
def Parallel : Nav.Content → Prop
  | .nil => True
  | .leaf a rest =>
      (match a.event with
        | .empty tag => tag.localName ≠ "text" ∧ tag.localName ≠ "audio"
        | _ => True) ∧ Parallel rest
  | .node tag body rest =>
      (if tag.localName = "par" then ∀ inner ∈ Opf.tags body, inner.localName ≠ "par"
        else tag.localName ≠ "text" ∧ tag.localName ≠ "audio" ∧ Parallel body) ∧ Parallel rest

/-- Content without a `par` has none among its events. -/
theorem inside_events {body : Nav.Content} (h : ∀ inner ∈ Opf.tags body, inner.localName ≠ "par") :
    ∀ event ∈ Nav.events body, Inside event := by
  induction body with
  | nil => exact fun event hevent => absurd hevent List.not_mem_nil
  | leaf a rest ih =>
      obtain ⟨leaf, hflat⟩ := a
      have hrest : ∀ inner ∈ Opf.tags rest, inner.localName ≠ "par" := fun inner hinner =>
        h inner (by
          rw [Opf.tags]
          split
          · exact List.mem_cons_of_mem _ hinner
          · exact hinner)
      refine List.forall_mem_cons.mpr ⟨?_, ih hrest⟩
      cases leaf with
      | start tag => cases hflat
      | endTag name => cases hflat
      | empty tag => exact h tag (.head _)
      | text | cData | generalRef | docType | other => trivial
  | node tag inner rest ihinner ihrest =>
      have htag := h tag (.head _)
      refine List.forall_mem_cons.mpr ⟨htag, List.forall_mem_append.mpr
        ⟨ihinner fun tag' hin => h tag' (.tail _ (List.mem_append_left _ hin)),
          List.forall_mem_cons.mpr ⟨htag, ihrest fun tag' hin =>
            h tag' (.tail _ (List.mem_append_right _ hin))⟩⟩⟩

/-- Such a document is a stream without a `par` in a `par`. -/
theorem segments_of_parallel {content : Nav.Content} (h : Parallel content) :
    ∃ segments : List Segment, segments.flatMap Segment.events = Nav.events content := by
  induction content with
  | nil => exact ⟨[], rfl⟩
  | leaf a rest ih =>
      obtain ⟨hleaf, hrest⟩ := h
      obtain ⟨segments, hsegments⟩ := ih hrest
      have hevents : Nav.events (.leaf a rest) = a.event :: Nav.events rest := rfl
      obtain ⟨leaf, hflat⟩ := a
      have hother (houtside : Outside leaf) : ∃ segments : List Segment,
          segments.flatMap Segment.events = Nav.events (.leaf ⟨leaf, hflat⟩ rest) :=
        ⟨.outside leaf houtside :: segments, by rw [List.flatMap_cons, hsegments, hevents]; rfl⟩
      cases leaf with
      | start tag => cases hflat
      | endTag name => cases hflat
      | empty tag =>
          by_cases hpar : tag.localName = "par"
          · exact ⟨.emptyPar tag hpar :: segments, by
              rw [List.flatMap_cons, hsegments, hevents]; rfl⟩
          · exact hother ⟨hpar, hleaf⟩
      | text | cData | generalRef | docType | other => exact hother trivial
  | node tag body rest ihbody ihrest =>
      obtain ⟨helement, hrest⟩ := h
      obtain ⟨segments, hsegments⟩ := ihrest hrest
      have hevents : Nav.events (.node tag body rest) =
          .start tag :: (Nav.events body ++ .endTag tag.name :: Nav.events rest) := rfl
      split at helement
      · rename_i hpar
        refine ⟨.par ⟨tag, Nav.events body, tag.name, hpar, inside_events helement, hpar⟩ ::
          segments, ?_⟩
        rw [List.flatMap_cons, hsegments, hevents, Segment.events, List.cons_append,
          List.append_assoc, List.singleton_append]
      · rename_i hpar
        obtain ⟨htext, haudio, hbody⟩ := helement
        obtain ⟨inner, hinner⟩ := ihbody hbody
        refine ⟨.outside (.start tag) ⟨hpar, htext, haudio⟩ ::
          (inner ++ .outside (.endTag tag.name) hpar :: segments), ?_⟩
        rw [List.flatMap_cons, List.flatMap_append, List.flatMap_cons, hsegments, hinner, hevents]
        rfl

end Smil

end GrpcEpub
