/-
# `GrpcEpub.Policy` — which encryption descriptors are let through

A book is refused unless everything its descriptor declares is font
obfuscation.  The parser keeps one algorithm for each record, the first it
finds there, and none for a method outside every record; so the refusal sees
what every record declares first, and nothing else.
-/
import GrpcEpub.Forest
import GrpcEpub.Sample

namespace GrpcEpub

open Encryption

namespace Forest

/-! ## What a descriptor declares

Read off the forest: the records, and the methods that stand in each of them. -/

/-- The algorithm an element declares, when it is an `EncryptionMethod`. -/
def declared (tag : Tag) : List Str :=
  if tag.localName = "EncryptionMethod" then [Xml.attributeValue tag "Algorithm"] else []

/-- Every algorithm declared anywhere, in document order. -/
def algorithms : Forest → List Str
  | nil => []
  | leaf _ _ rest => rest.algorithms
  | empty tag rest => declared tag ++ rest.algorithms
  | element tag children rest => declared tag ++ children.algorithms ++ rest.algorithms

/-- The tags that speak about the record around this content: those outside
every record within it. -/
def own : Forest → List Tag
  | nil => []
  | leaf _ _ rest => rest.own
  | empty tag rest => if isRecord tag.localName then rest.own else tag :: rest.own
  | element tag children rest =>
      if isRecord tag.localName then rest.own else tag :: (children.own ++ rest.own)

/-- The records, in the order they close, each with the tags that speak about it. -/
def records : Forest → List (List Tag)
  | nil => []
  | leaf _ _ rest => rest.records
  | empty tag rest => if isRecord tag.localName then [] :: rest.records else rest.records
  | element tag children rest =>
      children.records ++ (if isRecord tag.localName then [children.own] else []) ++ rest.records

end Forest

/-! ## The scanner on a forest

An element at a time: the stack comes back to where it was, and the records are found. -/

namespace Encryption

/-- What a list of tags says about a record. -/
def describeAll (record : Encrypted) (tags : List Tag) : Encrypted :=
  tags.foldl describeRecord record

/-- The innermost open record, described by a list of tags. -/
def describeOpen (opened : List (Nat × Encrypted)) (tags : List Tag) : List (Nat × Encrypted) :=
  match opened with
  | [] => []
  | (level, record) :: outer => (level, describeAll record tags) :: outer

theorem describeOpen_nil (opened : List (Nat × Encrypted)) : describeOpen opened [] = opened := by
  cases opened <;> rfl

theorem describeOpen_cons (opened : List (Nat × Encrypted)) (tag : Tag) (tags : List Tag) :
    describeOpen opened (tag :: tags) = describeOpen (describe opened tag) tags := by
  cases opened <;> rfl

theorem describeOpen_append (opened : List (Nat × Encrypted)) (tags tags' : List Tag) :
    describeOpen opened (tags ++ tags') = describeOpen (describeOpen opened tags) tags' := by
  cases opened with
  | nil => rfl
  | cons first outer => simp [describeOpen, describeAll, List.foldl_append]

/-- The open records were opened by elements that are still open. -/
def Within (opened : List (Nat × Encrypted)) (depth : Nat) : Prop :=
  ∀ first ∈ opened.head?, first.1 ≤ depth

theorem Within.describeOpen {opened : List (Nat × Encrypted)} {depth : Nat} (h : Within opened depth)
    (tags : List Tag) : Within (describeOpen opened tags) depth := by
  cases opened with
  | nil => exact h
  | cons first outer =>
      intro x hx
      obtain rfl := Option.some.inj hx
      exact h first rfl

namespace Scanner

/-- What a forest does to the scanner. -/
def after (self : Scanner) (forest : Forest) : Scanner where
  opened := describeOpen self.opened forest.own
  found := self.found ++ forest.records.map (describeAll {})
  depth := self.depth

theorem step_leaf {event : XmlEvent} (h : event.IsLeaf) (self : Scanner) :
    self.step event = .ok self := by
  cases event with
  | docType dtd => simp only [step, show Xml.checkDoctype dtd = .ok () from h]
  | start tag => exact absurd h id
  | empty tag => exact absurd h id
  | endTag name => exact absurd h id
  | _ => rfl

/-- The end of an element that opened no record closes none. -/
theorem endTag_plain {self : Scanner} {depth : Nat} (hdepth : self.depth = depth + 1)
    (hwithin : Within self.opened depth) : self.endTag = { self with depth } := by
  unfold endTag
  split
  · rename_i level record outer hopened
    have hle : level ≤ depth := hwithin (level, record) (by rw [hopened]; rfl)
    rw [if_neg (by omega), hdepth, Nat.add_sub_cancel]
  · rw [hdepth, Nat.add_sub_cancel]

/-- An element that opens a record and closes it again. -/
theorem record_element {self : Scanner} {tag : Tag} (h : isRecord tag.localName = true)
    (children : Forest) : ((self.startTag tag).after children).endTag =
      { self with
        found := self.found ++ children.records.map (describeAll {}) ++
          [describeAll {} children.own] } := by
  unfold startTag
  rw [if_pos h]
  simp only [after, describeOpen, endTag, if_true, Nat.add_sub_cancel]

/-- Any other element describes the record around it. -/
theorem plain_element {self : Scanner} {tag : Tag} (h : ¬ isRecord tag.localName = true)
    (hwithin : Within self.opened self.depth) (children : Forest) :
    ((self.startTag tag).after children).endTag =
      { self with
        opened := describeOpen self.opened (tag :: children.own)
        found := self.found ++ children.records.map (describeAll {}) } := by
  unfold startTag
  rw [if_neg h, describeOpen_cons]
  exact endTag_plain rfl (.describeOpen (.describeOpen hwithin [tag]) children.own)

theorem startTag_within {self : Scanner} (tag : Tag) (hwithin : Within self.opened self.depth) :
    Within (self.startTag tag).opened (self.startTag tag).depth := by
  unfold startTag
  split
  · rintro _ ⟨⟩
    exact le_rfl
  · intro first hfirst
    exact (Within.describeOpen hwithin [tag] first hfirst).trans (Nat.le_succ _)

/-- By recursion on the forest, one case for each kind of element. -/
theorem foldlM_forest : ∀ (forest : Forest) (self : Scanner), Within self.opened self.depth →
    forest.events.foldlM step self = .ok (self.after forest)
  | .nil, self, _ => by
      simp [Forest.events, after, Forest.own, Forest.records, describeOpen_nil, pure, Except.pure]
  | .leaf event h rest, self, hwithin => by
      rw [Forest.events, List.foldlM_cons, step_leaf h]
      exact foldlM_forest rest self hwithin
  | .empty tag rest, self, hwithin => by
      have hstep : self.step (.empty tag) = .ok (self.emptyTag tag) := rfl
      rw [Forest.events, List.foldlM_cons, hstep]
      change rest.events.foldlM step (self.emptyTag tag) = _
      unfold emptyTag
      split
      · rename_i hrecord
        refine (foldlM_forest rest { self with found := self.found ++ [{}] } hwithin).trans ?_
        simp [after, Forest.own, Forest.records, hrecord, describeAll]
      · rename_i hplain
        refine (foldlM_forest rest _ (Within.describeOpen hwithin [tag])).trans ?_
        simp [after, Forest.own, Forest.records, hplain, describeOpen_cons]
  | .element tag children rest, self, hwithin => by
      have hstart : self.step (.start tag) = .ok (self.startTag tag) := rfl
      have hchildren := foldlM_forest children _ (startTag_within tag hwithin)
      rw [Forest.events, List.foldlM_cons, hstart]
      change (children.events ++ .endTag tag.name :: rest.events).foldlM step (self.startTag tag) = _
      rw [List.foldlM_append, hchildren]
      change rest.events.foldlM step ((self.startTag tag).after children).endTag = _
      by_cases hrecord : isRecord tag.localName = true
      · rw [record_element hrecord]
        refine (foldlM_forest rest
          { self with
            found := self.found ++ children.records.map (describeAll {}) ++
              [describeAll {} children.own] } hwithin).trans ?_
        simp [after, Forest.own, Forest.records, hrecord]
      · rw [plain_element hrecord hwithin]
        refine (foldlM_forest rest _
          (Within.describeOpen hwithin (tag :: children.own))).trans ?_
        have hown : (Forest.element tag children rest).own = (tag :: children.own) ++ rest.own := by
          rw [Forest.own, if_neg hrecord, List.cons_append]
        have hrecords : (Forest.element tag children rest).records =
            children.records ++ rest.records := by
          rw [Forest.records, if_neg hrecord, List.append_nil]
        simp only [after, hown, hrecords, describeOpen_append, List.map_append, List.append_assoc]

end Scanner

/-- A well-nested descriptor is always read, one record for each of its own. -/
theorem parseEncryption_forest (forest : Forest) :
    parseEncryption forest.stream = .ok (forest.records.map (describeAll {})) := by
  have hrun := Scanner.foldlM_forest forest {} nofun
  simp only [parseEncryption, Forest.stream, hrun, Xml.finish, bind, Except.bind, pure,
    Except.pure, Scanner.after, List.nil_append]

/-! ## What a record declares first

The first method in document order that stands in the record and in no record within. -/

/-- The algorithms a record's own tags declare, in order. -/
def methods (tags : List Tag) : List Str := tags.flatMap Forest.declared

/-- The first algorithm that is named at all. -/
def firstNamed (algorithms : List Str) : Str := (algorithms.find? (· ≠ [])).getD []

theorem firstNamed_singleton (algorithm : Str) : firstNamed [algorithm] = algorithm := by
  cases algorithm <;> rfl

/-- The first algorithm of a record stays. -/
theorem describeRecord_algorithm (record : Encrypted) (tag : Tag) :
    (describeRecord record tag).algorithm =
      if record.algorithm = [] then firstNamed (Forest.declared tag) else record.algorithm := by
  unfold describeRecord Forest.declared
  by_cases hmethod : tag.localName = "EncryptionMethod".toList
  · rw [if_pos hmethod, firstNamed_singleton]
    by_cases hnone : record.algorithm = []
    · rw [if_pos ⟨hmethod, hnone⟩, if_pos hnone]
    · rw [if_neg fun h => hnone h.2, if_neg hnone]
      split <;> rfl
  · rw [if_neg fun h => hmethod h.1, if_neg hmethod]
    have hkept : record.algorithm =
        if record.algorithm = [] then firstNamed [] else record.algorithm := by
      split
      · assumption
      · rfl
    split
    · exact hkept
    · exact hkept

theorem firstNamed_append (xs ys : List Str) :
    firstNamed (xs ++ ys) = if firstNamed xs = [] then firstNamed ys else firstNamed xs := by
  unfold firstNamed
  rw [List.find?_append]
  cases h : xs.find? (· ≠ []) with
  | none => simp
  | some x =>
      have hne : x ≠ [] := by simpa using List.find?_some h
      simp [hne]

theorem describeAll_algorithm : ∀ (tags : List Tag) (record : Encrypted),
    (describeAll record tags).algorithm =
      if record.algorithm = [] then firstNamed (methods tags) else record.algorithm
  | [], record => by
      by_cases h : record.algorithm = [] <;> simp [describeAll, methods, firstNamed, h]
  | tag :: tags, record => by
      have ih := describeAll_algorithm tags (describeRecord record tag)
      rw [describeRecord_algorithm] at ih
      have hmethods : methods (tag :: tags) = Forest.declared tag ++ methods tags := rfl
      rw [describeAll, List.foldl_cons, ← describeAll, ih, hmethods, firstNamed_append]
      by_cases h : record.algorithm = [] <;> simp [h]

theorem isObfuscation_describeAll (tags : List Tag) :
    (describeAll {} tags).isObfuscation = isObfuscationAlgorithm (firstNamed (methods tags)) := by
  rw [Encrypted.isObfuscation, describeAll_algorithm, if_pos rfl]

/-- An algorithm that is obfuscation is one the record names. -/
theorem firstNamed_mem {algorithms : List Str}
    (h : isObfuscationAlgorithm (firstNamed algorithms) = true) :
    firstNamed algorithms ∈ algorithms := by
  unfold firstNamed at h ⊢
  cases hfind : algorithms.find? (· ≠ []) with
  | none =>
      rw [hfind] at h
      exact absurd h (by decide)
  | some algorithm => exact List.mem_of_find?_eq_some hfind

end Encryption

/-! ## The policy

Refused exactly when some record declares something else first. -/

namespace Forest

variable {forest : Forest}

/-- Everything the document declares is font obfuscation. -/
def AllObfuscation (forest : Forest) : Prop :=
  ∀ algorithm ∈ forest.algorithms, isObfuscationAlgorithm algorithm = true

/-- The first algorithm each record names is font obfuscation. -/
def FirstObfuscation (forest : Forest) : Prop :=
  ∀ tags ∈ forest.records, isObfuscationAlgorithm (firstNamed (methods tags)) = true

/-- What reading a descriptor is for: it is accepted only if it declares
nothing but obfuscation, and each of its records does so itself; a document
that names another algorithm is refused as unimplemented. -/
structure PolicyHeld (forest : Forest) (result : Except Status (List Nat)) : Prop where
  accepted : ∀ entries, result = .ok entries → forest.AllObfuscation ∧
    ∀ tags ∈ forest.records, ∃ algorithm ∈ methods tags, isObfuscationAlgorithm algorithm = true
  refused : (∃ algorithm ∈ forest.algorithms, algorithm ≠ [] ∧
      isObfuscationAlgorithm algorithm = false) →
    ∃ status, result = .error status ∧ status.code = .unimplemented

theorem obfuscatedEntries_ok (index : HashMap Str Nat) (h : forest.FirstObfuscation) :
    ∃ entries, Extract.obfuscatedEntries forest.stream index = .ok entries := by
  have hnone : (forest.records.map (describeAll {})).find?
      (fun record => !record.isObfuscation) = none := by
    rw [List.find?_eq_none]
    intro record hrecord
    obtain ⟨tags, htags, rfl⟩ := List.mem_map.mp hrecord
    simp [isObfuscation_describeAll, h tags htags]
  simp only [Extract.obfuscatedEntries, parseEncryption_forest, hnone]
  exact ⟨_, rfl⟩

theorem obfuscatedEntries_drm (index : HashMap Str Nat) (h : ¬ forest.FirstObfuscation) :
    ∃ algorithm, Extract.obfuscatedEntries forest.stream index = .error (.drm algorithm) := by
  unfold FirstObfuscation at h
  push Not at h
  obtain ⟨tags, htags, hother⟩ := h
  obtain ⟨drm, hdrm⟩ : ∃ drm, (forest.records.map (describeAll {})).find?
      (fun record => !record.isObfuscation) = some drm := by
    rw [← Option.isSome_iff_exists, List.find?_isSome]
    exact ⟨_, List.mem_map.mpr ⟨tags, htags, rfl⟩, by
      simpa [isObfuscation_describeAll] using hother⟩
  simp only [Extract.obfuscatedEntries, parseEncryption_forest, hdrm]
  exact ⟨_, rfl⟩

end Forest

/-- A font record that declares its obfuscation, and then a cipher. -/
def Sample.secondMethod : Forest :=
  .element (Sample.tag "encryption" [])
    (.element (Sample.tag "EncryptedData" [])
      (.empty (Sample.tag "EncryptionMethod" [("Algorithm", idpfObfuscation)])
        (.empty (Sample.tag "EncryptionMethod"
            [("Algorithm", "http://www.w3.org/2001/04/xmlenc#aes128-cbc")])
          (.empty (Sample.tag "CipherReference" [("URI", "chapter.xhtml")]) .nil)))
      .nil)
    .nil

/-- A record that declares obfuscation first and encryption behind it is let through. -/
theorem second_method_is_overlooked : ¬ Sample.secondMethod.PolicyHeld
    (Extract.obfuscatedEntries Sample.secondMethod.stream ∅) := by
  intro h
  have hok : Extract.obfuscatedEntries Sample.secondMethod.stream ∅ = .ok [] := by decide +kernel
  have hall := (h.accepted [] hok).1 "http://www.w3.org/2001/04/xmlenc#aes128-cbc".toList
    (by decide +kernel)
  exact absurd hall (by decide)

/-- The policy is held unless every record declares obfuscation first, and one of them something
else behind it. -/
theorem policy_held_iff (forest : Forest) (index : HashMap Str Nat) :
    forest.PolicyHeld (Extract.obfuscatedEntries forest.stream index) ↔
      ¬ forest.FirstObfuscation ∨ forest.AllObfuscation := by
  constructor
  · intro h
    by_cases hfirst : forest.FirstObfuscation
    · obtain ⟨entries, hok⟩ := Forest.obfuscatedEntries_ok index hfirst
      exact .inr (h.accepted entries hok).1
    · exact .inl hfirst
  · intro h
    by_cases hfirst : forest.FirstObfuscation
    · have hall := h.resolve_left (not_not.mpr hfirst)
      refine ⟨fun _ _ => ⟨hall, fun tags htags => ?_⟩, ?_⟩
      · exact ⟨_, firstNamed_mem (hfirst tags htags), hfirst tags htags⟩
      · rintro ⟨algorithm, hmem, -, hother⟩
        rw [hall algorithm hmem] at hother
        cases hother
    · obtain ⟨algorithm, hdrm⟩ := Forest.obfuscatedEntries_drm index hfirst
      refine ⟨fun entries hok => ?_, fun _ => ⟨_, hdrm, rfl⟩⟩
      rw [hdrm] at hok
      cases hok

end GrpcEpub
