/-
# `GrpcEpub.Truncated` — descriptors that end too early

`parse_encryption` keeps a record on its stack until the record's end tag, and
gives back those it has finished.  `declared` reads the records off the events
without a stack: each tag of a record, and what is said inside it up to its end
or to the end of input.  `foldlM_records` says that nothing of it is lost, but
what is still open stays on the stack, and the stack is dropped.
-/
import GrpcEpub.Policy

namespace GrpcEpub.Encryption

open Xml

/-! ## What the events declare

A record's content is found by counting: `inside` keeps the tags up to the end tag that balances,
and counts what it is to skip on the way in, which is the record within and its content. -/

/-- The tags that speak about an element, read from just inside it.  `depth` of
the open elements are within it, and the last `hidden` of them are a record of
its own and what is in there. -/
def inside : Nat → Nat → List XmlEvent → List Tag
  | _, _, [] => []
  | depth, hidden, .start tag :: rest =>
      if hidden = 0 then
        if isRecord tag.localName then inside (depth + 1) 1 rest
        else tag :: inside (depth + 1) 0 rest
      else inside (depth + 1) (hidden + 1) rest
  | depth, hidden, .empty tag :: rest =>
      if hidden = 0 ∧ ¬ isRecord tag.localName then tag :: inside depth hidden rest
      else inside depth hidden rest
  | depth, hidden, .endTag _ :: rest =>
      if depth = 0 then [] else inside (depth - 1) (hidden - 1) rest
  | depth, hidden, _ :: rest => inside depth hidden rest

/-- Whether an element with `depth` open elements within it is closed. -/
def closes : Nat → List XmlEvent → Bool
  | _, [] => false
  | depth, .start _ :: rest => closes (depth + 1) rest
  | depth, .endTag _ :: rest => if depth = 0 then true else closes (depth - 1) rest
  | depth, _ :: rest => closes depth rest

/-- The URI an element refers to, when it is a `CipherReference`. -/
def referred (tag : Tag) : List Str :=
  if tag.localName = "CipherReference" then [attributeValue tag "URI"] else []

/-- The URIs the tags refer to, in order. -/
def references (tags : List Tag) : List Str := tags.flatMap referred

/-- The record some tags speak about: the first algorithm and the first URI. -/
def recordOf (tags : List Tag) : Encrypted where
  algorithm := firstNamed (methods tags)
  uri := firstNamed (references tags)

/-- One record for every tag of one, closed or not. -/
def declared : List XmlEvent → List Encrypted
  | [] => []
  | .start tag :: rest =>
      if isRecord tag.localName then recordOf (inside 0 0 rest) :: declared rest
      else declared rest
  | .empty tag :: rest =>
      if isRecord tag.localName then recordOf [] :: declared rest else declared rest
  | _ :: rest => declared rest

/-- The input ends inside a record. -/
def LeftOpen (events : List XmlEvent) : Prop :=
  ∃ earlier tag later, events = earlier ++ .start tag :: later ∧
    isRecord tag.localName = true ∧ closes 0 later = false

/-! ## Describing a record

What a tag says of the record it stands in depends on nothing but the record so far. -/

/-- The first reference of a record stays. -/
theorem describeRecord_uri (record : Encrypted) (tag : Tag) :
    (describeRecord record tag).uri =
      if record.uri = [] then firstNamed (referred tag) else record.uri := by
  unfold referred
  by_cases hreference : tag.localName = "CipherReference".toList
  · have hother : tag.localName ≠ "EncryptionMethod".toList := by
      rw [hreference]
      decide
    unfold describeRecord
    rw [if_neg fun h => hother h.1, if_pos hreference, firstNamed_singleton]
    by_cases hnone : record.uri = []
    · rw [if_pos ⟨hreference, hnone⟩, if_pos hnone]
    · rw [if_neg fun h => hnone h.2, if_neg hnone]
  · have hkept : (describeRecord record tag).uri = record.uri := by
      unfold describeRecord
      rw [if_neg fun h : _ ∧ record.uri = [] => hreference h.1]
      split <;> rfl
    rw [hkept, if_neg hreference]
    split
    · assumption
    · rfl

theorem describeAll_uri : ∀ (tags : List Tag) (record : Encrypted),
    (describeAll record tags).uri =
      if record.uri = [] then firstNamed (references tags) else record.uri
  | [], record => by
      by_cases h : record.uri = [] <;> simp [describeAll, references, firstNamed, h]
  | tag :: tags, record => by
      have ih := describeAll_uri tags (describeRecord record tag)
      have hreferences : references (tag :: tags) = referred tag ++ references tags := rfl
      rw [describeRecord_uri] at ih
      rw [describeAll, List.foldl_cons, ← describeAll, ih, hreferences, firstNamed_append]
      by_cases h : record.uri = [] <;> simp [h]

theorem describeAll_new (tags : List Tag) : describeAll {} tags = recordOf tags := by
  have halgorithm := describeAll_algorithm tags {}
  have huri := describeAll_uri tags {}
  rw [if_pos rfl] at halgorithm huri
  cases hrecord : describeAll {} tags with
  | mk algorithm uri =>
      rw [hrecord] at halgorithm huri
      rw [recordOf, ← halgorithm, ← huri]

/-! ## The stack

One element of the stack for each open record, the innermost first.  `described` says what each
of them will have become at its end, from the events that are left. -/

/-- The open records were opened by elements that are still open, each within the
next. -/
def Nested : Nat → List (Nat × Encrypted) → Prop
  | _, [] => True
  | depth, (level, _) :: outer => 0 < level ∧ level ≤ depth ∧ Nested (level - 1) outer

theorem Nested.mono {depth depth' : Nat} (hle : depth ≤ depth') :
    ∀ {opened : List (Nat × Encrypted)}, Nested depth opened → Nested depth' opened
  | [], _ => trivial
  | _ :: _, ⟨hpos, hat, houter⟩ => ⟨hpos, hat.trans hle, houter⟩

theorem Nested.describe {depth : Nat} {opened : List (Nat × Encrypted)} (h : Nested depth opened)
    (tag : Tag) : Nested depth (describe opened tag) := by
  cases opened with
  | nil => trivial
  | cons first outer => exact h

/-- What the open records are to become; `hidden` open elements are the record
within the innermost of these and what is in there. -/
def described (depth hidden : Nat) : List (Nat × Encrypted) → List XmlEvent → List Encrypted
  | [], _ => []
  | (level, record) :: outer, events =>
      describeAll record (inside (depth - level) hidden events) ::
        described depth (depth - level + 1) outer events

/-- Whether each of the open records is closed. -/
def AllClosed (depth : Nat) (opened : List (Nat × Encrypted)) (events : List XmlEvent) : Prop :=
  ∀ first ∈ opened, closes (depth - first.1) events = true

theorem described_nil (depth : Nat) : ∀ (hidden : Nat) (opened : List (Nat × Encrypted)),
    described depth hidden opened [] = opened.map Prod.snd
  | _, [] => rfl
  | _, (level, record) :: outer => by
      rw [described, described_nil depth _ outer]
      rfl

/-- Behind the innermost record every element is hidden. -/
theorem described_start (tag : Tag) (rest : List XmlEvent) :
    ∀ {opened : List (Nat × Encrypted)} {depth hidden : Nat}, Nested depth opened →
      described depth (hidden + 1) opened (.start tag :: rest) =
        described (depth + 1) (hidden + 2) opened rest
  | [], _, _, _ => rfl
  | (level, record) :: outer, depth, hidden, ⟨_, hat, houter⟩ => by
      have hnested : Nested depth outer := houter.mono (by omega)
      have hdepth : depth + 1 - level = depth - level + 1 := by omega
      rw [described, described, described_start tag rest hnested, hdepth, inside, if_neg (by omega)]

theorem described_end (name : Str) (rest : List XmlEvent) :
    ∀ {opened : List (Nat × Encrypted)} {depth hidden : Nat}, Nested (depth - 1) opened →
      described depth (hidden + 1) opened (.endTag name :: rest) =
        described (depth - 1) hidden opened rest
  | [], _, _, _ => rfl
  | (level, record) :: outer, depth, hidden, ⟨hpos, hat, houter⟩ => by
      have hnested : Nested (depth - 1) outer := houter.mono (by omega)
      have hdepth : depth - 1 - level + 1 = depth - level := by omega
      rw [described, described, described_end name rest hnested, inside, if_neg (by omega), hdepth,
        Nat.add_sub_cancel, ← hdepth, Nat.add_sub_cancel]

/-- An event that neither opens nor closes anything, nor is an element. -/
def Passed : XmlEvent → Prop
  | .start _ | .empty _ | .endTag _ => False
  | _ => True

theorem inside_passed {event : XmlEvent} (h : Passed event) (depth hidden : Nat)
    (rest : List XmlEvent) : inside depth hidden (event :: rest) = inside depth hidden rest := by
  cases event with
  | start tag => exact h.elim
  | empty tag => exact h.elim
  | endTag name => exact h.elim
  | _ => rfl

theorem described_passed {event : XmlEvent} (h : Passed event) (rest : List XmlEvent) :
    ∀ (opened : List (Nat × Encrypted)) (depth hidden : Nat),
      described depth hidden opened (event :: rest) = described depth hidden opened rest
  | [], _, _ => rfl
  | (level, record) :: outer, depth, hidden => by
      rw [described, described, inside_passed h, described_passed h rest outer]

theorem described_empty (tag : Tag) (rest : List XmlEvent) :
    ∀ (opened : List (Nat × Encrypted)) (depth hidden : Nat),
      described depth (hidden + 1) opened (.empty tag :: rest) =
        described depth (hidden + 1) opened rest
  | [], _, _ => rfl
  | (level, record) :: outer, depth, hidden => by
      rw [described, described, described_empty tag rest outer, inside,
        if_neg fun h => Nat.succ_ne_zero hidden h.1]

/-! ## One event

What has been found, what is open and what is still to be declared, taken together, are not
changed by an event.  They change places, so the lists agree up to order. -/

namespace Scanner

/-- What is reported and what is to come, when nothing is dropped. -/
def reports (self : Scanner) (events : List XmlEvent) : List Encrypted :=
  self.found ++ (described self.depth 0 self.opened events ++ declared events)

section Step

variable {self : Scanner} (rest : List XmlEvent)

/-- A start tag: what it says of the open records, and the record that it may open. -/
theorem reports_start (tag : Tag) (h : Nested self.depth self.opened) :
    Nested (self.startTag tag).depth (self.startTag tag).opened ∧
    ((self.startTag tag).reports rest).Perm (self.reports (.start tag :: rest)) := by
  by_cases hrecord : isRecord tag.localName = true
  · rw [startTag, if_pos hrecord]
    refine ⟨⟨Nat.succ_pos _, le_rfl, h.mono (by omega)⟩, ?_⟩
    have houter : described (self.depth + 1) 1 self.opened rest =
        described self.depth 0 self.opened (.start tag :: rest) := by
      cases hopened : self.opened with
      | nil => rfl
      | cons first outer =>
          obtain ⟨level, record⟩ := first
          rw [hopened] at h
          obtain ⟨-, hat, hnested⟩ := h
          have hdepth : self.depth + 1 - level = self.depth - level + 1 := by omega
          rw [described, described, described_start tag rest (hnested.mono (by omega)), hdepth,
            inside, if_pos rfl, if_pos hrecord]
    simp only [reports, described, declared, hrecord, if_true, describeAll_new, Nat.sub_self,
      Nat.zero_add, houter]
    exact List.perm_middle.symm.append_left _
  · rw [startTag, if_neg hrecord]
    refine ⟨(h.describe tag).mono (Nat.le_succ _), ?_⟩
    have hopen : described (self.depth + 1) 0 (describe self.opened tag) rest =
        described self.depth 0 self.opened (.start tag :: rest) := by
      cases hopened : self.opened with
      | nil => rfl
      | cons first outer =>
          obtain ⟨level, record⟩ := first
          rw [hopened] at h
          obtain ⟨-, hat, hnested⟩ := h
          have hdepth : self.depth + 1 - level = self.depth - level + 1 := by omega
          rw [describe, described, described, described_start tag rest (hnested.mono (by omega)),
            hdepth, inside, if_pos rfl, if_neg hrecord]
          rfl
    simp only [reports, declared, hrecord, Bool.false_eq_true, if_false, hopen]
    exact List.Perm.refl _

/-- An empty tag: a record of it is finished at once. -/
theorem reports_empty (tag : Tag) (h : Nested self.depth self.opened) :
    Nested (self.emptyTag tag).depth (self.emptyTag tag).opened ∧
    ((self.emptyTag tag).reports rest).Perm (self.reports (.empty tag :: rest)) := by
  by_cases hrecord : isRecord tag.localName = true
  · rw [emptyTag, if_pos hrecord]
    refine ⟨h, ?_⟩
    have hopen : described self.depth 0 self.opened (.empty tag :: rest) =
        described self.depth 0 self.opened rest := by
      cases hopened : self.opened with
      | nil => rfl
      | cons first outer =>
          rw [described, described, described_empty, inside, if_neg fun h => h.2 hrecord]
    have hnew : recordOf [] = {} := rfl
    simp only [reports, declared, hrecord, if_true, hopen, hnew, List.append_assoc,
      List.singleton_append]
    exact List.perm_middle.symm.append_left _
  · rw [emptyTag, if_neg hrecord]
    refine ⟨h.describe tag, ?_⟩
    have hopen : described self.depth 0 (describe self.opened tag) rest =
        described self.depth 0 self.opened (.empty tag :: rest) := by
      cases hopened : self.opened with
      | nil => rfl
      | cons first outer =>
          obtain ⟨level, record⟩ := first
          rw [describe, described, described, described_empty, inside, if_pos ⟨rfl, hrecord⟩]
          rfl
    simp only [reports, declared, hrecord, Bool.false_eq_true, if_false, hopen]
    exact List.Perm.refl _

/-- An end tag: the innermost record may be finished, and is then found. -/
theorem reports_end (name : Str) (h : Nested self.depth self.opened) :
    Nested self.endTag.depth self.endTag.opened ∧
    (self.endTag.reports rest).Perm (self.reports (.endTag name :: rest)) := by
  unfold endTag
  cases hopened : self.opened with
  | nil => exact ⟨by simp [Nested], by simp [reports, hopened, described, declared]⟩
  | cons first outer =>
      obtain ⟨level, record⟩ := first
      have h' := h
      rw [hopened] at h'
      obtain ⟨hpos, hat, hnested⟩ := h'
      by_cases hclosed : level = self.depth
      · subst hclosed
        simp only [if_true]
        refine ⟨hnested, ?_⟩
        have houter := @described_end name rest outer self.depth 0 hnested
        simp only [reports, hopened, described, declared, Nat.sub_self, inside, if_true, Nat.zero_add,
          houter]
        simp [describeAll]
      · simp only [if_neg hclosed]
        have hinner : Nested (self.depth - 1) outer := hnested.mono (by omega)
        refine ⟨⟨hpos, by omega, hnested⟩, ?_⟩
        have hdepth : self.depth - 1 - level + 1 = self.depth - level := by omega
        have houter := @described_end name rest outer self.depth (self.depth - level) hinner
        have hown : inside (self.depth - level) 0 (.endTag name :: rest) =
            inside (self.depth - 1 - level) 0 rest := by
          rw [inside, if_neg (by omega), ← hdepth, Nat.add_sub_cancel]
        simp only [reports, hopened, described, declared, hdepth, houter, hown]
        exact List.Perm.refl _

end Step

/-- One event loses nothing. -/
theorem step_reports {self next : Scanner} {event : XmlEvent} (rest : List XmlEvent)
    (h : Nested self.depth self.opened) (hstep : self.step event = .ok next) :
    Nested next.depth next.opened ∧ (next.reports rest).Perm (self.reports (event :: rest)) := by
  have hpassed : Passed event → next = self →
      Nested next.depth next.opened ∧ (next.reports rest).Perm (self.reports (event :: rest)) := by
    rintro hpassed rfl
    refine ⟨h, ?_⟩
    have hdeclared : declared (event :: rest) = declared rest := by
      cases event with
      | start tag => exact hpassed.elim
      | empty tag => exact hpassed.elim
      | endTag name => exact hpassed.elim
      | _ => rfl
    rw [reports, reports, described_passed hpassed, hdeclared]
  cases event with
  | start tag =>
      cases hstep
      exact reports_start rest tag h
  | empty tag =>
      cases hstep
      exact reports_empty rest tag h
  | endTag name =>
      cases hstep
      exact reports_end rest name h
  | docType dtd =>
      refine hpassed trivial ?_
      rw [step] at hstep
      split at hstep
      · cases hstep
      · exact (Except.ok.inj hstep).symm
  | text content => exact hpassed trivial (Except.ok.inj hstep).symm
  | cData content => exact hpassed trivial (Except.ok.inj hstep).symm
  | generalRef reference => exact hpassed trivial (Except.ok.inj hstep).symm
  | other => exact hpassed trivial (Except.ok.inj hstep).symm

/-- A whole run loses nothing that is not still open at its end. -/
theorem foldlM_reports : ∀ {events : List XmlEvent} {self last : Scanner},
    Nested self.depth self.opened → events.foldlM step self = .ok last →
    (last.found ++ last.opened.map Prod.snd).Perm (self.reports events)
  | [], self, last, _, hrun => by
      cases hrun
      rw [reports, described_nil, declared, List.append_nil]
  | event :: rest, self, last, hnested, hrun => by
      rw [List.foldlM_cons] at hrun
      cases hstep : self.step event with
      | error e =>
          rw [hstep] at hrun
          cases hrun
      | ok next =>
          rw [hstep] at hrun
          obtain ⟨hnested', hperm⟩ := step_reports rest hnested hstep
          exact (foldlM_reports hnested' hrun).trans hperm

end Scanner

/-! ## What is still open

Likewise whether all of it will be closed. -/

theorem Nested.le {depth : Nat} : ∀ {opened : List (Nat × Encrypted)}, Nested depth opened →
    ∀ first ∈ opened, first.1 ≤ depth
  | _ :: _, ⟨_, hat, houter⟩, first, hfirst => by
      rcases List.mem_cons.mp hfirst with rfl | hfirst
      · exact hat
      · have hle := houter.le first hfirst
        omega

theorem not_leftOpen_nil : ¬ LeftOpen [] := by
  rintro ⟨earlier, tag, later, heq, -⟩
  cases earlier <;> cases heq

/-- A record is left open from its own start tag on. -/
theorem leftOpen_cons {event : XmlEvent} {rest : List XmlEvent} :
    LeftOpen (event :: rest) ↔
      (∃ tag, event = .start tag ∧ isRecord tag.localName = true ∧ closes 0 rest = false) ∨
        LeftOpen rest := by
  constructor
  · rintro ⟨earlier, tag, later, heq, hrecord, hopen⟩
    cases earlier with
    | nil =>
        obtain ⟨rfl, rfl⟩ := List.cons.inj heq
        exact .inl ⟨tag, rfl, hrecord, hopen⟩
    | cons _ earlier => exact .inr ⟨earlier, tag, later, (List.cons.inj heq).2, hrecord, hopen⟩
  · rintro (⟨tag, rfl, hrecord, hopen⟩ | ⟨earlier, tag, later, rfl, hrecord, hopen⟩)
    · exact ⟨[], tag, rest, rfl, hrecord, hopen⟩
    · exact ⟨event :: earlier, tag, later, rfl, hrecord, hopen⟩

section AllClosed

variable {depth : Nat} {opened : List (Nat × Encrypted)} {rest : List XmlEvent}

theorem allClosed_start (tag : Tag) (h : Nested depth opened) :
    AllClosed depth opened (.start tag :: rest) ↔ AllClosed (depth + 1) opened rest := by
  refine forall₂_congr ?_
  intro first hfirst
  have hle := h.le first hfirst
  rw [closes, Nat.sub_add_comm hle]

theorem allClosed_end (name : Str) (h : Nested (depth - 1) opened)
    (hpos : ∀ first ∈ opened, 0 < first.1) :
    AllClosed depth opened (.endTag name :: rest) ↔ AllClosed (depth - 1) opened rest := by
  refine forall₂_congr ?_
  intro first hfirst
  have hle := h.le first hfirst
  have hpos' := hpos first hfirst
  rw [closes, if_neg (by omega), Nat.sub_right_comm]

theorem Nested.pos {depth : Nat} : ∀ {opened : List (Nat × Encrypted)}, Nested depth opened →
    ∀ first ∈ opened, 0 < first.1
  | _ :: _, ⟨hpos, _, houter⟩, first, hfirst => by
      rcases List.mem_cons.mp hfirst with rfl | hfirst
      · exact hpos
      · exact houter.pos first hfirst

theorem allClosed_describe (tag : Tag) :
    AllClosed depth (describe opened tag) rest ↔ AllClosed depth opened rest := by
  cases opened with
  | nil => rfl
  | cons first outer => simp [AllClosed, describe]

end AllClosed

namespace Scanner

/-- Everything open is closed later, and so is everything opened later. -/
def Settles (self : Scanner) (events : List XmlEvent) : Prop :=
  AllClosed self.depth self.opened events ∧ ¬ LeftOpen events

/-- A start tag adds an element that is to be closed. -/
theorem settles_start {self : Scanner} (tag : Tag) (rest : List XmlEvent)
    (h : Nested self.depth self.opened) :
    (self.startTag tag).Settles rest ↔ self.Settles (.start tag :: rest) := by
  unfold Settles
  rw [leftOpen_cons, allClosed_start tag h]
  by_cases hrecord : isRecord tag.localName = true
  · have hnew : AllClosed (self.depth + 1) ((self.depth + 1, {}) :: self.opened) rest ↔
        closes 0 rest = true ∧ AllClosed (self.depth + 1) self.opened rest := by
      simp [AllClosed]
    have hthis : (∃ tag', XmlEvent.start tag = .start tag' ∧ isRecord tag'.localName = true ∧
        closes 0 rest = false) ↔ ¬ closes 0 rest = true := by
      simp [hrecord]
    rw [startTag, if_pos hrecord, hnew, hthis]
    tauto
  · have hnone : ¬ ∃ tag', XmlEvent.start tag = .start tag' ∧ isRecord tag'.localName = true ∧
        closes 0 rest = false := by
      simp [hrecord]
    rw [startTag, if_neg hrecord, allClosed_describe]
    simp only [hnone, false_or]

/-- An end tag closes one. -/
theorem settles_end {self : Scanner} (name : Str) (rest : List XmlEvent)
    (h : Nested self.depth self.opened) :
    self.endTag.Settles rest ↔ self.Settles (.endTag name :: rest) := by
  have hnone : ¬ ∃ tag, XmlEvent.endTag name = .start tag ∧ isRecord tag.localName = true ∧
      closes 0 rest = false := by
    simp
  unfold Settles
  rw [leftOpen_cons]
  simp only [hnone, false_or]
  refine and_congr_left' ?_
  unfold endTag
  cases hopened : self.opened with
  | nil => simp [AllClosed]
  | cons first outer =>
      obtain ⟨level, record⟩ := first
      rw [hopened] at h
      by_cases hclosed : level = self.depth
      · subst hclosed
        have hthis : closes (self.depth - self.depth) (.endTag name :: rest) = true := by
          rw [Nat.sub_self, closes, if_pos rfl]
        have houter := @allClosed_end self.depth outer rest name h.2.2 h.2.2.pos
        simp only [if_true, AllClosed, List.forall_mem_cons, hthis, true_and] at houter ⊢
        exact houter.symm
      · simp only [if_neg hclosed]
        have hinner : Nested (self.depth - 1) ((level, record) :: outer) :=
          ⟨h.1, by have := h.2.1; omega, h.2.2⟩
        exact (allClosed_end name hinner h.pos).symm

/-- One event, whichever it is. -/
theorem step_settles {self next : Scanner} {event : XmlEvent} (rest : List XmlEvent)
    (h : Nested self.depth self.opened) (hstep : self.step event = .ok next) :
    next.Settles rest ↔ self.Settles (event :: rest) := by
  have hother : (∀ depth, closes depth (event :: rest) = closes depth rest) →
      (∀ tag, event ≠ .start tag) → (self.Settles rest ↔ self.Settles (event :: rest)) := by
    intro hcloses hstart
    unfold Settles AllClosed
    rw [leftOpen_cons]
    simp [hcloses, hstart]
  cases event with
  | start tag =>
      cases hstep
      exact settles_start tag rest h
  | empty tag =>
      cases hstep
      refine Iff.trans ?_ (hother (fun _ => rfl) fun _ => XmlEvent.noConfusion)
      unfold emptyTag
      split
      · rfl
      · exact and_congr_left' (allClosed_describe tag)
  | endTag name =>
      cases hstep
      exact settles_end name rest h
  | docType dtd =>
      rw [step] at hstep
      split at hstep
      · cases hstep
      · cases hstep
        exact hother (fun _ => rfl) fun _ => XmlEvent.noConfusion
  | text content =>
      cases hstep
      exact hother (fun _ => rfl) fun _ => XmlEvent.noConfusion
  | cData content =>
      cases hstep
      exact hother (fun _ => rfl) fun _ => XmlEvent.noConfusion
  | generalRef reference =>
      cases hstep
      exact hother (fun _ => rfl) fun _ => XmlEvent.noConfusion
  | other =>
      cases hstep
      exact hother (fun _ => rfl) fun _ => XmlEvent.noConfusion

/-- By induction on the events. -/
theorem foldlM_settles : ∀ {events : List XmlEvent} {self last : Scanner},
    Nested self.depth self.opened → events.foldlM step self = .ok last →
    (last.opened = [] ↔ self.Settles events)
  | [], self, last, _, hrun => by
      cases hrun
      unfold Settles AllClosed
      simp [closes, not_leftOpen_nil, List.eq_nil_iff_forall_not_mem]
  | event :: rest, self, last, hnested, hrun => by
      rw [List.foldlM_cons] at hrun
      cases hstep : self.step event with
      | error e =>
          rw [hstep] at hrun
          cases hrun
      | ok next =>
          rw [hstep] at hrun
          exact (foldlM_settles (step_reports rest hnested hstep).1 hrun).trans
            (step_settles rest hnested hstep)

end Scanner

/-! ## The whole function

An empty stack at the start, and at the end a stack that is dropped. -/

/-- What a descriptor declares is reported, record for record, exactly where the
input does not end inside a record. -/
theorem records_reported_iff {stream : XmlStream} {found : List Encrypted}
    (h : parseEncryption stream = .ok found) :
    found.Perm (declared stream.events) ↔ ¬ LeftOpen stream.events := by
  unfold parseEncryption at h
  cases hrun : stream.events.foldlM Scanner.step {} with
  | error e =>
      rw [hrun] at h
      cases h
  | ok last =>
      rw [hrun] at h
      obtain rfl : last.found = found := by
        simp only [bind, Except.bind, finish] at h
        split at h
        · cases h
        · rename_i hstop
          split at hstop
          · cases hstop
            exact Except.ok.inj h
          · cases hstop
      have hreports := @Scanner.foldlM_reports _ {} _ trivial hrun
      have hsettles := @Scanner.foldlM_settles _ {} _ trivial hrun
      have hopen : last.opened = [] ↔ ¬ LeftOpen stream.events := by
        rw [hsettles, Scanner.Settles]
        simp [AllClosed]
      simp only [Scanner.reports, described, List.nil_append] at hreports
      rw [← hopen]
      constructor
      · intro hperm
        have hlength := (hperm.trans hreports.symm).length_eq
        rw [List.length_append, List.length_map] at hlength
        exact List.eq_nil_of_length_eq_zero (by omega)
      · intro hnone
        rwa [hnone, List.map_nil, List.append_nil] at hreports

def cipherMethod : XmlEvent :=
  .empty (Sample.tag "EncryptionMethod"
    [("Algorithm", "http://www.w3.org/2001/04/xmlenc#aes128-cbc")])

/-- The `encryption` element is cut off, and its record is not. -/
def cutBehind : XmlStream where
  events := [.start (Sample.tag "encryption" []), .start (Sample.tag "EncryptedData" []),
    cipherMethod, .endTag "EncryptedData"]
  stop := .eof

/-- The record is cut off. -/
def cutInside : XmlStream where
  events := [.start (Sample.tag "encryption" []), .start (Sample.tag "EncryptedData" []),
    cipherMethod]
  stop := .eof

theorem cut_behind_reported : ∃ found, parseEncryption cutBehind = .ok found ∧
    found.Perm (declared cutBehind.events) := by
  have hread : parseEncryption cutBehind =
      .ok [{ algorithm := "http://www.w3.org/2001/04/xmlenc#aes128-cbc" }] := by decide
  refine ⟨_, hread, (records_reported_iff hread).mpr ?_⟩
  simp only [cutBehind, cipherMethod, leftOpen_cons, not_leftOpen_nil, XmlEvent.start.injEq, reduceCtorEq,
    false_and, exists_false, or_false, exists_eq_left']
  decide

/-- A book with a cipher in its descriptor passes for one with none. -/
theorem cut_inside_dropped : parseEncryption cutInside = .ok [] ∧
    ¬ ([] : List Encrypted).Perm (declared cutInside.events) ∧
    ∀ index, Extract.obfuscatedEntries cutInside index = .ok [] := by
  have hread : parseEncryption cutInside = .ok [] := by decide
  refine ⟨hread, by decide, fun index => ?_⟩
  rw [Extract.obfuscatedEntries, hread]
  rfl

end GrpcEpub.Encryption
