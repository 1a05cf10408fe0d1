/-
# `GrpcEpub.Elements` — what the elements of a metadata block say

The parser reads a metadata block event by event and collects one element at a time.  Read off
its tree, a block is a list of elements, each with what it holds (`elements`), and what is kept
of it is the text of those that are Dublin Core elements or a `meta` with a property (`told`).

The two readings come to the same entries as long as no kept element stands in an element that
is an entry, and no end tag in it has its name (`Flat`, `foldl_flat`).  Otherwise the parser
collects the inner element instead of the outer one, forgets the text so far at an empty one,
or takes an inner end tag for the outer element's.
-/
import GrpcEpub.Sections

namespace GrpcEpub

namespace Opf

open Xml Nav

/-! ## Elements and their text

Markup inside an element has no part in its text; the parser gathers the text of all of it, up to
the element's end. -/

/-- The text of some content, that of the elements in it included. -/
def textOf (content : Content) : Str := (events content).foldl gather []

/-- The elements of some content, in document order, each with what it holds. -/
def elements : Content → List (Tag × Content)
  | .nil => []
  | .leaf a rest =>
      match a.event with
      | .empty tag => (tag, .nil) :: elements rest
      | _ => elements rest
  | .node tag body rest => (tag, body) :: (elements body ++ elements rest)

/-- The tags of the elements with an end tag. -/
def openings : Content → List Tag
  | .nil => []
  | .leaf _ rest => openings rest
  | .node tag body rest => tag :: (openings body ++ openings rest)

theorem elements_tags (content : Content) : (elements content).map Prod.fst = tags content := by
  induction content with
  | nil => rfl
  | leaf a rest ih =>
      rw [elements, tags]
      cases a.event with
      | empty tag => exact congrArg (tag :: ·) ih
      | docType | start | endTag | text | cData | generalRef | other => exact ih
  | node tag body rest ihbody ihrest =>
      rw [elements, tags, List.map_cons, List.map_append, ihbody, ihrest]

theorem gather_append (text : Str) (event : XmlEvent) :
    gather text event = text ++ gather [] event := by
  cases event with
  | generalRef reference => exact pushRef_append text reference
  | text | cData => rfl
  | docType | start | empty | endTag | other => exact (List.append_nil _).symm

theorem foldl_gather (events : List XmlEvent) (text : Str) :
    events.foldl gather text = text ++ events.foldl gather [] := by
  induction events generalizing text with
  | nil => exact (List.append_nil _).symm
  | cons event rest ih =>
      rw [List.foldl_cons, List.foldl_cons, ih, gather_append, ih (gather [] event),
        List.append_assoc]

/-! ## What is kept

`told` reads an element off the tree, `pendingOf` off its tag as the parser does.  They are
compared first for one element and then for a block. -/

/-- Only a `meta` and a Dublin Core element are read at all. -/
theorem pendingOf_cases {tag : Tag} {pending : Pending}
    (h : PackageParser.pendingOf tag tag.localName = some pending) :
    tag.localName = "meta" ∨ tag.localName ∈ dublinCore := by
  unfold PackageParser.pendingOf at h
  split at h
  · rename_i hmeta
    exact .inl hmeta
  · split at h
    · rename_i hcore
      exact .inr hcore
    · cases h

/-- What the parser makes of an element; a `meta` for the cover names an item and no more. -/
def keeps (tag : Tag) : Option Pending :=
  if PackageParser.isCoverMeta tag tag.localName then none
  else PackageParser.pendingOf tag tag.localName

/-- What is kept of some content, if each element is collected to its own end. -/
def told (content : Content) : List Filed :=
  (elements content).filterMap fun element =>
    (keeps element.1).map (·, (textOf element.2).trim)

theorem told_node (tag : Tag) (body rest : Content) : told (.node tag body rest) =
    ((keeps tag).map (·, (textOf body).trim)).toList ++ (told body ++ told rest) := by
  unfold told
  rw [elements, List.filterMap_cons, List.filterMap_append]
  cases keeps tag with
  | none => rfl
  | some pending => rfl

theorem told_empty {a : Leaf} {tag : Tag} (h : a.event = .empty tag) (rest : Content) :
    told (.leaf a rest) = ((keeps tag).map (·, [])).toList ++ told rest := by
  unfold told
  rw [elements, h]
  dsimp only
  rw [List.filterMap_cons]
  cases keeps tag with
  | none => rfl
  | some pending => rfl

theorem told_nothing {content : Content} (h : ∀ tag ∈ tags content, keeps tag = none) :
    told content = [] := by
  refine List.filterMap_eq_nil_iff.mpr fun element helement => ?_
  have htag : element.1 ∈ tags content := by
    rw [← elements_tags]
    exact List.mem_map_of_mem helement
  rw [h element.1 htag]
  rfl

/-- The element becomes an entry of its own. -/
def isEntry (tag : Tag) : Bool := (keeps tag).any fun pending => pending.refines = []

/-- Nothing in it is kept, and no end tag in it has this name. -/
structure Unbroken (name : Str) (content : Content) : Prop where
  nothing : ∀ tag ∈ tags content, keeps tag = none
  unnamed : ∀ tag ∈ openings content, tag.localName ≠ name

/-- What becomes an entry is unbroken. -/
def Flat (content : Content) : Prop :=
  ∀ element ∈ elements content, isEntry element.1 = true → Unbroken element.1.localName element.2

instance decidableUnbroken (name : Str) (content : Content) : Decidable (Unbroken name content) :=
  decidable_of_iff ((∀ tag ∈ tags content, keeps tag = none) ∧
    ∀ tag ∈ openings content, tag.localName ≠ name) ⟨fun h => ⟨h.1, h.2⟩, fun h => ⟨h.1, h.2⟩⟩

instance decidableFlat (content : Content) : Decidable (Flat content) :=
  inferInstanceAs (Decidable (∀ element ∈ elements content, isEntry element.1 = true →
    Unbroken element.1.localName element.2))

namespace Desk

variable {self : Desk}

/-- What is kept is collected, or filed if it is empty; another tag names the cover at most. -/
theorem opened_cases (self : Desk) (tag : Tag) (empty : Bool) :
    (keeps tag = none ∧ ∃ cover, self.opened tag empty = { self with cover }) ∨
      ∃ pending, keeps tag = some pending ∧ pending.localName = tag.localName ∧
        self.opened tag empty =
          if empty then { self with text := [], filed := self.filed ++ [(pending, [])] }
          else { self with text := [], collecting := some pending } := by
  unfold keeps opened
  by_cases hcover : PackageParser.isCoverMeta tag tag.localName = true
  · rw [if_pos hcover, if_pos hcover]
    refine .inl ⟨rfl, ?_⟩
    dsimp only
    split
    · exact ⟨_, rfl⟩
    · exact ⟨self.cover, rfl⟩
  · rw [if_neg hcover, if_neg hcover]
    cases hpending : PackageParser.pendingOf tag tag.localName with
    | none => exact .inl ⟨rfl, self.cover, rfl⟩
    | some pending => exact .inr ⟨pending, rfl, pendingOf_name hpending, rfl⟩

theorem opened_nothing {tag : Tag} (h : keeps tag = none) (empty : Bool) :
    ∃ cover, self.opened tag empty = { self with cover } := by
  rcases opened_cases self tag empty with ⟨-, hopened⟩ | ⟨pending, hpending, -⟩
  · exact hopened
  · cases h.symm.trans hpending

theorem opened_kept {tag : Tag} {pending : Pending} (h : keeps tag = some pending) (empty : Bool) :
    pending.localName = tag.localName ∧ self.opened tag empty =
      if empty then { self with text := [], filed := self.filed ++ [(pending, [])] }
      else { self with text := [], collecting := some pending } := by
  rcases opened_cases self tag empty with ⟨hnone, -⟩ | ⟨pending', hpending, hname, hopened⟩
  · cases hnone.symm.trans h
  · obtain rfl := Option.some.inj (hpending.symm.trans h)
    exact ⟨hname, hopened⟩

/-- An end tag of another name ends nothing. -/
theorem closed_other {name : Str} (h : ∀ pending ∈ self.collecting, pending.localName ≠ name) :
    self.closed name = self := by
  unfold closed
  split
  · rename_i pending hpending
    exact if_neg (h pending hpending)
  · rfl

/-- An event that is no tag is text, at most. -/
theorem turn_text (h : self.collecting.isSome = true) {leaf : Leaf}
    (hempty : ∀ tag, leaf.event ≠ .empty tag) :
    self.turn leaf.event = { self with text := gather self.text leaf.event } := by
  obtain ⟨event, hflat⟩ := leaf
  cases event with
  | start tag => cases hflat
  | endTag name => cases hflat
  | empty tag => exact absurd rfl (hempty tag)
  | text | cData | generalRef => exact if_pos h
  | docType | other => rfl

/-- What does not break the element that is collected is text of it. -/
theorem foldl_unbroken {content : Content} {pending : Pending} (h : self.collecting = some pending)
    (hunbroken : Unbroken pending.localName content) : ∃ cover, (events content).foldl turn self =
      { self with text := (events content).foldl gather self.text, cover } := by
  induction content generalizing self with
  | nil => exact ⟨self.cover, rfl⟩
  | leaf a rest ih =>
      obtain ⟨hnothing, hunnamed⟩ := hunbroken
      unfold events at ih ⊢
      rw [Nested.foldl_spell_leaf, Nested.foldl_spell_leaf]
      change ∃ cover, (Nested.spell markup rest).foldl turn (self.turn a.event) = { self with
        text := (Nested.spell markup rest).foldl gather (gather self.text a.event), cover }
      rw [tags] at hnothing
      split at hnothing
      · rename_i tag htag
        obtain ⟨hnone, hrest⟩ := List.forall_mem_cons.mp hnothing
        obtain ⟨cover, hopened⟩ := @opened_nothing self tag hnone true
        obtain ⟨cover', hlast⟩ := @ih { self with cover } h ⟨hrest, hunnamed⟩
        refine ⟨cover', ?_⟩
        rw [htag]
        change (Nested.spell markup rest).foldl turn (self.opened tag true) = _
        rw [hopened]
        exact hlast
      · rename_i hother
        rw [turn_text (Option.isSome_of_eq_some h) fun tag htag => hother tag htag]
        exact @ih { self with text := gather self.text a.event } h ⟨hnothing, hunnamed⟩
  | node tag body rest ihbody ihrest =>
      obtain ⟨hnothing, hunnamed⟩ := hunbroken
      obtain ⟨hnone, hinside⟩ := List.forall_mem_cons.mp hnothing
      obtain ⟨hname, hnames⟩ := List.forall_mem_cons.mp hunnamed
      obtain ⟨hnone₁, hnone₂⟩ := List.forall_mem_append.mp hinside
      obtain ⟨hname₁, hname₂⟩ := List.forall_mem_append.mp hnames
      unfold events at ihbody ihrest ⊢
      rw [Nested.foldl_spell_node, Nested.foldl_spell_node]
      obtain ⟨cover, hopened⟩ := @opened_nothing self tag hnone false
      obtain ⟨cover', hbody⟩ := @ihbody { self with cover } h ⟨hnone₁, hname₁⟩
      have hother : ∀ kept ∈ self.collecting, kept.localName ≠ localName tag.name := by
        intro kept hkept heq
        obtain rfl := Option.some.inj (h.symm.trans hkept)
        exact hname heq.symm
      obtain ⟨cover'', hrest⟩ := @ihrest
        { self with text := (Nested.spell markup body).foldl gather self.text, cover := cover' } h
        ⟨hnone₂, hname₂⟩
      refine ⟨cover'', ?_⟩
      change (Nested.spell markup rest).foldl turn (((Nested.spell markup body).foldl turn
        (self.opened tag false)).closed (localName tag.name)) = _
      rw [hopened, hbody]
      dsimp only
      rw [closed_other (by exact hother), hrest]
      rfl

/-- An unbroken element is collected to its own end tag, and is filed there with its text. -/
theorem closed_unbroken (self : Desk) {body : Content} {pending : Pending}
    (hunbroken : Unbroken pending.localName body) : ∃ cover,
      ((events body).foldl turn { self with text := [], collecting := some pending }).closed
          pending.localName =
        { self with
          text := [], collecting := none, cover
          filed := self.filed ++ [(pending, (textOf body).trim)] } := by
  obtain ⟨cover, hbody⟩ := @foldl_unbroken { self with text := [], collecting := some pending }
    body pending rfl hunbroken
  refine ⟨cover, ?_⟩
  rw [hbody]
  exact if_pos rfl

/-- Where nothing is collected, what is not kept is passed over. -/
theorem foldl_nothing {content : Content} (h : self.collecting = none)
    (hnothing : ∀ tag ∈ tags content, keeps tag = none) :
    ∃ cover, (events content).foldl turn self = { self with cover } := by
  induction content generalizing self with
  | nil => exact ⟨self.cover, rfl⟩
  | leaf a rest ih =>
      unfold events at ih ⊢
      rw [Nested.foldl_spell_leaf]
      change ∃ cover, (Nested.spell markup rest).foldl turn (self.turn a.event) = { self with cover }
      rw [tags] at hnothing
      split at hnothing
      · rename_i tag htag
        obtain ⟨hnone, hrest⟩ := List.forall_mem_cons.mp hnothing
        obtain ⟨cover, hopened⟩ := @opened_nothing self tag hnone true
        rw [htag]
        change ∃ cover, (Nested.spell markup rest).foldl turn (self.opened tag true) = _
        rw [hopened]
        exact @ih { self with cover } h hrest
      · rename_i hother
        have hsame : self.turn a.event = self := by
          obtain ⟨event, hflat⟩ := a
          cases event with
          | start tag => cases hflat
          | endTag name => cases hflat
          | empty tag => exact absurd rfl (hother tag)
          | text | cData | generalRef => exact if_neg fun hsome => by simp [h] at hsome
          | docType | other => rfl
        rw [hsame]
        exact ih h hnothing
  | node tag body rest ihbody ihrest =>
      obtain ⟨hnone, hinside⟩ := List.forall_mem_cons.mp hnothing
      obtain ⟨hbody, hrest⟩ := List.forall_mem_append.mp hinside
      unfold events at ihbody ihrest ⊢
      rw [Nested.foldl_spell_node]
      obtain ⟨cover, hopened⟩ := @opened_nothing self tag hnone false
      obtain ⟨cover', hinner⟩ := @ihbody { self with cover } h hbody
      have hother : ∀ kept ∈ self.collecting, kept.localName ≠ localName tag.name := by
        rw [h]
        exact fun _ hin => absurd hin (Option.not_mem_none _)
      change ∃ cover, (Nested.spell markup rest).foldl turn (((Nested.spell markup body).foldl turn
        (self.opened tag false)).closed (localName tag.name)) = _
      rw [hopened, hinner, @closed_other { self with cover := cover' } _ hother]
      exact @ihrest { self with cover := cover' } h hrest

/-- Whatever is being collected is a refinement. -/
def Free (self : Desk) : Prop := ∀ pending ∈ self.collecting, pending.refines ≠ []

/-- The end of a refinement adds no entry. -/
theorem Free.closed (h : self.Free) (name : Str) : (self.closed name).Free ∧
    (self.closed name).filed.filterMap entryOf = self.filed.filterMap entryOf := by
  unfold Desk.closed
  split
  · rename_i pending hpending
    split
    · refine ⟨fun _ hin => absurd hin (Option.not_mem_none _), ?_⟩
      rw [List.filterMap_append, List.filterMap_cons, entryOf, if_neg (h pending hpending)]
      exact List.append_nil _
    · exact ⟨h, rfl⟩
  · exact ⟨h, rfl⟩

/-- An empty element is filed at once, if it is kept. -/
theorem Free.opened_empty (h : self.Free) (tag : Tag) : (self.opened tag true).Free ∧
    (self.opened tag true).filed.filterMap entryOf =
      self.filed.filterMap entryOf ++ ((keeps tag).map (·, [])).toList.filterMap entryOf := by
  cases hkeeps : keeps tag with
  | none =>
      obtain ⟨cover, hopened⟩ := @opened_nothing self tag hkeeps true
      rw [hopened]
      exact ⟨h, (List.append_nil _).symm⟩
  | some pending =>
      obtain ⟨-, hopened⟩ := @opened_kept self tag pending hkeeps true
      rw [hopened, if_pos rfl]
      exact ⟨h, List.filterMap_append⟩

theorem flat_filed {leaf : Leaf} (hempty : ∀ tag, leaf.event ≠ .empty tag) :
    (self.turn leaf.event).filed = self.filed := by
  obtain ⟨event, hflat⟩ := leaf
  have hcollect (text : Str) : (self.collect text).filed = self.filed := by
    unfold collect
    split <;> rfl
  cases event with
  | start tag => cases hflat
  | endTag name => cases hflat
  | empty tag => exact absurd rfl (hempty tag)
  | text | cData | generalRef => exact hcollect _
  | docType | other => rfl

/-- The entries of some content are those that its elements say. -/
theorem foldl_flat {content : Content} (h : self.Free) (hflat : Flat content) :
    ((events content).foldl turn self).Free ∧
      ((events content).foldl turn self).filed.filterMap entryOf =
        self.filed.filterMap entryOf ++ (told content).filterMap entryOf := by
  induction content generalizing self with
  | nil => exact ⟨h, (List.append_nil _).symm⟩
  | leaf a rest ih =>
      unfold events at ih ⊢
      rw [Nested.foldl_spell_leaf]
      change ((Nested.spell markup rest).foldl turn (self.turn a.event)).Free ∧
        ((Nested.spell markup rest).foldl turn (self.turn a.event)).filed.filterMap entryOf = _
      unfold Flat at hflat
      rw [elements] at hflat
      split at hflat
      · rename_i tag htag
        obtain ⟨hfree, hfiled⟩ := h.opened_empty tag
        obtain ⟨hfreeRest, hrest⟩ := ih hfree (List.forall_mem_cons.mp hflat).2
        rw [htag, told_empty htag, List.filterMap_append, ← List.append_assoc, ← hfiled]
        exact ⟨hfreeRest, hrest⟩
      · rename_i hother
        have hfiled := @flat_filed self a fun tag htag => hother tag htag
        have hfree : (self.turn a.event).Free := by
          unfold Free
          rw [flat_collecting]
          exact h
        have htold : told (.leaf a rest) = told rest := by
          unfold told
          rw [elements]
          split
          · rename_i tag htag
            exact absurd htag (hother tag)
          · rfl
        rw [← hfiled, htold]
        exact ih hfree hflat
  | node tag body rest ihbody ihrest =>
      obtain ⟨hfirst, hothers⟩ := List.forall_mem_cons.mp hflat
      obtain ⟨hflatBody, hflatRest⟩ := List.forall_mem_append.mp hothers
      unfold events at ihbody ihrest ⊢
      rw [Nested.foldl_spell_node]
      change ((Nested.spell markup rest).foldl turn (((Nested.spell markup body).foldl turn
        (self.opened tag false)).closed (localName tag.name))).Free ∧
          ((Nested.spell markup rest).foldl turn (((Nested.spell markup body).foldl turn
            (self.opened tag false)).closed (localName tag.name))).filed.filterMap entryOf = _
      -- an element that is no entry adds what is in it, whatever becomes of itself
      have hthrough : ∀ desk : Desk, desk.Free →
          desk.filed.filterMap entryOf = self.filed.filterMap entryOf →
          ((Nested.spell markup rest).foldl turn (((Nested.spell markup body).foldl turn
            desk).closed (localName tag.name))).Free ∧
          ((Nested.spell markup rest).foldl turn (((Nested.spell markup body).foldl turn
            desk).closed (localName tag.name))).filed.filterMap entryOf =
              self.filed.filterMap entryOf ++
                ((told body).filterMap entryOf ++ (told rest).filterMap entryOf) := by
        intro desk hfree hfiled
        obtain ⟨hfreeBody, hbody⟩ := ihbody hfree hflatBody
        obtain ⟨hfreeEnd, hend⟩ := hfreeBody.closed (localName tag.name)
        obtain ⟨hfreeRest, hrest⟩ := ihrest hfreeEnd hflatRest
        refine ⟨hfreeRest, ?_⟩
        rw [hrest, hend, hbody, hfiled, List.append_assoc]
      rw [told_node, List.filterMap_append, List.filterMap_append]
      cases hkeeps : keeps tag with
      | none =>
          obtain ⟨cover, hopened⟩ := @opened_nothing self tag hkeeps false
          rw [hopened]
          exact hthrough { self with cover } h rfl
      | some pending =>
          obtain ⟨hname, hopened⟩ := @opened_kept self tag pending hkeeps false
          rw [hopened, if_neg Bool.false_ne_true]
          by_cases hrefines : pending.refines = []
          · have hentry : isEntry tag = true := by
              unfold isEntry
              rw [hkeeps]
              exact decide_eq_true hrefines
            have hunbroken := hfirst hentry
            obtain ⟨cover, hclosed⟩ := closed_unbroken self (hname ▸ hunbroken)
            rw [hname] at hclosed
            unfold events Tag.localName at hclosed
            rw [hclosed, told_nothing hunbroken.nothing]
            obtain ⟨hfree, hrest⟩ := @ihrest { self with
              text := [], collecting := none, cover
              filed := self.filed ++ [(pending, (textOf body).trim)] }
              (fun _ hin => absurd hin (Option.not_mem_none _)) hflatRest
            refine ⟨hfree, hrest.trans ?_⟩
            rw [List.filterMap_append, List.append_assoc]
            rfl
          · have hnone : ((some pending).map fun pending : Pending =>
                (pending, (textOf body).trim)).toList.filterMap entryOf = [] := by
              simp [entryOf, hrefines]
            rw [hnone]
            refine hthrough { self with text := [], collecting := some pending } ?_ rfl
            intro pending' hin
            obtain rfl := Option.some.inj hin
            exact hrefines

theorem entries_read {body : Content} (hflat : Flat body) :
    (read body).filed.filterMap entryOf = (told body).filterMap entryOf :=
  (@foldl_flat {} body (fun _ hin => absurd hin (Option.not_mem_none _)) hflat).2

end Desk

end Opf

end GrpcEpub
