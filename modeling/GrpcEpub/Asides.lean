/-
# `GrpcEpub.Asides` — what the documents of a package say on the side

Much of an XML document is of no consequence to the service: comments and
instructions, a document type without entities, the prefixes of its names and
the order of its attributes, and where the reader cuts a text in two.  In the
strict documents (the container, the package, the encryption descriptor) a CDATA
section and a reference are text like any other.  The tolerant readers of
navigation and overlays know neither, and pass over them.

What a document comes down to is `strictParts` or `lenientParts` of its events.
Each reader of the service is coarse on them, and so is the service.

A reader is coarse when it does the same on documents that are alike.  For the strict readers that
is shown of the fold over events, one event at a time; for the tolerant ones of a loop that keeps
the text in pieces, where it has to be shown as well that cutting a text in two is not noticed.
-/
import GrpcEpub.Shares
import GrpcEpub.Lib.Grain

namespace GrpcEpub

/-! ## Spellings

When two tags are alike, and what is left of an event when its spelling is forgotten. -/

/-- Two tags no lookup tells apart. -/
structure Tag.Alike (a b : Tag) : Prop where
  localName : a.localName = b.localName
  value : ∀ name, Xml.attributeValue a name = Xml.attributeValue b name

namespace XmlEvent

open Xml

/-- Two events that differ in their spelling. -/
inductive Similar : XmlEvent → XmlEvent → Prop
  | same (event : XmlEvent) : Similar event event
  | docType {a b : Str} : checkDoctype a = checkDoctype b → Similar (.docType a) (.docType b)
  | start {a b : Tag} : a.Alike b → Similar (.start a) (.start b)
  | empty {a b : Tag} : a.Alike b → Similar (.empty a) (.empty b)
  | endTag {a b : Str} : localName a = localName b → Similar (.endTag a) (.endTag b)

/-- A text, character by character. -/
def letters (content : Str) : List XmlEvent := content.map fun c => .text [c]

/-- What a strict reader makes of an event. -/
def strictParts (event : XmlEvent) : List XmlEvent :=
  match event with
  | .docType dtd => if checkDoctype dtd = .ok () then [] else [event]
  | .start _ | .empty _ | .endTag _ => [event]
  | .text content | .cData content => letters content
  | .generalRef reference => letters (pushRef [] reference)
  | .other => []

theorem strictParts_checked {dtd : Str} (h : checkDoctype dtd = .ok ()) :
    strictParts (.docType dtd) = [] :=
  if_pos h

theorem strictParts_refused {dtd : Str} (h : ¬checkDoctype dtd = .ok ()) :
    strictParts (.docType dtd) = [.docType dtd] :=
  if_neg h

/-- What a tolerant reader makes of an event. -/
def lenientParts (event : XmlEvent) : List XmlEvent :=
  match event with
  | .start _ | .empty _ | .endTag _ => [event]
  | .text content => letters content
  | .docType _ | .cData _ | .generalRef _ | .other => []

end XmlEvent

open XmlEvent

/-- Two documents that come down to the same, and end the same way. -/
structure XmlStream.Alike (parts : XmlEvent → List XmlEvent) (a b : XmlStream) : Prop where
  stop : a.stop = b.stop
  events : AlikeBy parts Similar a.events b.events

/-! ## The strict readers

Container, package and encryption descriptor.  A reader stops at the first event that is refused,
with the error of that event. -/

namespace Opf

open Xml

theorem containerLoop_letters (stop : XmlStop) (found : Option Str) (content : Str)
    (rest : List XmlEvent) :
    containerLoop stop found (letters content ++ rest) = containerLoop stop found rest := by
  induction content with
  | nil => rfl
  | cons c content ih => exact ih

theorem containerLoop_coarse (stop : XmlStop) :
    Coarse strictParts Similar (containerLoop stop) where
  cut found event rest := by
    cases event with
    | docType dtd =>
        by_cases hchecked : checkDoctype dtd = .ok ()
        · rw [strictParts_checked hchecked, containerLoop, hchecked]
          rfl
        · rw [strictParts_refused hchecked]
          rfl
    | start | empty | endTag | other => rfl
    | text | cData | generalRef => exact containerLoop_letters stop found _ rest
  similar found a b xs ys hsimilar ih := by
    cases hsimilar with
    | same => cases a <;> simp only [containerLoop, ih]
    | docType hchecked => simp only [containerLoop, hchecked, ih]
    | start halike | empty halike => simp only [containerLoop, halike.localName, halike.value, ih]
    | endTag => simp only [containerLoop, ih]

theorem parseContainer_alike {a b : XmlStream} (h : a.Alike strictParts b) :
    parseContainer a = parseContainer b := by
  unfold parseContainer
  rw [h.stop]
  exact (containerLoop_coarse b.stop).eq_of_alike .same h.events none

namespace PackageParser

/-- Text that comes in pieces is the text that comes at once. -/
theorem foldlM_letters (content : Str) (self : PackageParser) :
    (letters content).foldlM step self = step self (.text content) := by
  induction content generalizing self with
  | nil =>
      change Except.ok self = _
      simp only [step, List.append_nil]
      split <;> rfl
  | cons c content ih =>
      rw [letters, List.map_cons, List.foldlM_cons, ← letters]
      by_cases hcollecting : self.collecting.isSome = true
      · have hnext : step self (.text [c]) = .ok { self with text := self.text ++ [c] } :=
          if_pos hcollecting
        rw [hnext]
        refine (ih _).trans ?_
        simp only [step, hcollecting, if_true, List.append_assoc, List.singleton_append]
      · have hnext : step self (.text [c]) = .ok self := if_neg hcollecting
        rw [hnext]
        refine (ih _).trans ?_
        simp only [step, hcollecting, Bool.false_eq_true, if_false]

theorem openTag_alike {a b : Tag} (h : a.Alike b) (self : PackageParser) (empty : Bool) :
    self.openTag a empty = self.openTag b empty := by
  simp only [openTag, openInside, openMetadata, pendingOf, isCoverMeta, manifestItem, spineItem,
    epub2Refinements, h.localName, h.value]

theorem step_coarse : Coarse strictParts Similar
    fun (self : PackageParser) events => events.foldlM step self := by
  refine .foldlM (fun self event => ?_) (fun self a b hsimilar => ?_)
  · cases event with
    | docType dtd =>
        by_cases hchecked : checkDoctype dtd = .ok ()
        · simp only [strictParts_checked hchecked, step, hchecked]
          rfl
        · rw [strictParts_refused hchecked]
          exact bind_pure _
    | start | empty | endTag => exact bind_pure _
    | text content => exact foldlM_letters content self
    | cData content => exact foldlM_letters content self
    | generalRef reference =>
        refine (foldlM_letters _ self).trans ?_
        simp only [step, pushRef_append self.text]
    | other => rfl
  · cases hsimilar with
    | same => rfl
    | docType hchecked => simp only [step, hchecked]
    | start halike => exact openTag_alike halike self false
    | empty halike => exact openTag_alike halike self true
    | endTag hname => simp only [step, hname]

end PackageParser

theorem parsePackage_alike {a b : XmlStream} (h : a.Alike strictParts b) :
    parsePackage a = parsePackage b := by
  unfold parsePackage
  rw [h.stop, PackageParser.step_coarse.eq_of_alike .same h.events]

end Opf

namespace Encryption

open Xml

theorem foldlM_letters (content : Str) (self : Scanner) :
    (letters content).foldlM Scanner.step self = .ok self := by
  induction content with
  | nil => rfl
  | cons c content ih => exact ih

theorem step_coarse : Coarse strictParts Similar
    fun (self : Scanner) events => events.foldlM Scanner.step self := by
  refine .foldlM (fun self event => ?_) (fun self a b hsimilar => ?_)
  · cases event with
    | docType dtd =>
        by_cases hchecked : checkDoctype dtd = .ok ()
        · simp only [strictParts_checked hchecked, Scanner.step, hchecked]
          rfl
        · rw [strictParts_refused hchecked]
          exact bind_pure _
    | start | empty | endTag => exact bind_pure _
    | text | cData | generalRef => exact foldlM_letters _ self
    | other => rfl
  · cases hsimilar with
    | same | endTag => rfl
    | docType hchecked => simp only [Scanner.step, hchecked]
    | start halike | empty halike =>
        simp only [Scanner.step, Scanner.startTag, Scanner.emptyTag, describe, describeRecord,
          halike.localName, halike.value]

theorem parseEncryption_alike {a b : XmlStream} (h : a.Alike strictParts b) :
    parseEncryption a = parseEncryption b := by
  unfold parseEncryption
  rw [h.stop, step_coarse.eq_of_alike .same h.events]

end Encryption

/-! ## The tolerant readers

Navigation document, NCX and overlay.  They do not fail. -/

namespace Nav

open Xml

/-- Either loop, which reads text alike. -/
theorem foldl_letters {step : Loop → XmlEvent → Loop}
    (hstep : ∀ self content, step self (.text content) = self.text content) (content : Str)
    (self : Loop) : (letters content).foldl step self = self.text content := by
  induction content generalizing self with
  | nil =>
      change self = _
      simp only [Loop.text, List.append_nil]
      split <;> rfl
  | cons c content ih =>
      rw [letters, List.map_cons, List.foldl_cons, ← letters, ih, hstep]
      by_cases hreading : self.reading = true
      · simp only [Loop.text, hreading, if_true, List.append_assoc, List.singleton_append]
      · simp only [Loop.text, hreading, Bool.false_eq_true, if_false]

theorem navStep_coarse (baseDir : Str) : Coarse lenientParts Similar
    fun (self : Loop) events => events.foldl (navStep baseDir) self := by
  refine .foldl (fun self event => ?_) (fun self a b hsimilar => ?_)
  · cases event with
    | text content => exact foldl_letters (fun _ _ => rfl) content self
    | docType | start | empty | endTag | cData | generalRef | other => rfl
  · cases hsimilar with
    | same | docType | empty => rfl
    | start halike => simp only [navStep, navStart, halike.localName, halike.value]
    | endTag hname => simp only [navStep, hname]

theorem ncxStep_coarse (baseDir : Str) : Coarse lenientParts Similar
    fun (self : Loop) events => events.foldl (ncxStep baseDir) self := by
  refine .foldl (fun self event => ?_) (fun self a b hsimilar => ?_)
  · cases event with
    | text content => exact foldl_letters (fun _ _ => rfl) content self
    | docType | start | empty | endTag | cData | generalRef | other => rfl
  · cases hsimilar with
    | same | docType => rfl
    | start halike => simp only [ncxStep, ncxStart, ncxContent, halike.localName, halike.value]
    | empty halike => simp only [ncxStep, ncxContent, halike.localName, halike.value]
    | endTag hname => simp only [ncxStep, hname]

theorem parseNav_alike {a b : XmlStream} (h : AlikeBy lenientParts Similar a.events b.events)
    (sourceHref : Str) : parseNav a sourceHref = parseNav b sourceHref := by
  unfold parseNav
  rw [(navStep_coarse _).eq_of_alike .same h]

theorem parseNcx_alike {a b : XmlStream} (h : AlikeBy lenientParts Similar a.events b.events)
    (sourceHref : Str) : parseNcx a sourceHref = parseNcx b sourceHref := by
  unfold parseNcx
  rw [(ncxStep_coarse _).eq_of_alike .same h]

end Nav

namespace Smil

open Xml

variable (parse : Str → Option Real64) (baseDir : Str)

/-- The loop, which stops at the cap wherever it stands. -/
def resume (self : Loop) (events : List XmlEvent) : Loop :=
  if maxCues ≤ self.cues.length then self else loop parse baseDir self events

theorem resume_cons (self : Loop) (event : XmlEvent) (rest : List XmlEvent) :
    resume parse baseDir self (event :: rest) =
      if maxCues ≤ self.cues.length then self
      else resume parse baseDir (step parse baseDir self event) rest := rfl

/-- What a step passes over, the loop passes over. -/
theorem resume_skip {self : Loop} {event : XmlEvent} (h : step parse baseDir self event = self)
    (rest : List XmlEvent) :
    resume parse baseDir self (event :: rest) = resume parse baseDir self rest := by
  rw [resume_cons, h]
  unfold resume
  split <;> rfl

theorem resume_letters (self : Loop) (content : Str) (rest : List XmlEvent) :
    resume parse baseDir self (letters content ++ rest) = resume parse baseDir self rest := by
  induction content with
  | nil => rfl
  | cons c content ih => exact (resume_skip parse baseDir rfl _).trans ih

theorem resume_coarse : Coarse lenientParts Similar (resume parse baseDir) where
  cut self event rest := by
    cases event with
    | start | empty | endTag => rfl
    | text content =>
        rw [resume_skip parse baseDir rfl]
        exact resume_letters parse baseDir self content rest
    | docType | cData | generalRef | other => exact (resume_skip parse baseDir rfl rest).symm
  similar self a b xs ys hsimilar ih := by
    have hstep : step parse baseDir self a = step parse baseDir self b := by
      cases hsimilar with
      | same | docType => rfl
      | start halike | empty halike =>
          simp only [step, startTag, halike.localName, halike.value]
      | endTag hname => simp only [step, hname]
    rw [resume_cons, resume_cons, hstep, ih]

theorem parseOverlay_alike {a b : XmlStream} (h : AlikeBy lenientParts Similar a.events b.events)
    (sourceHref : Str) : parseOverlay parse a sourceHref = parseOverlay parse b sourceHref := by
  have hloop : ∀ stream : XmlStream, loop parse (Href.parentDir sourceHref) {} stream.events =
      resume parse (Href.parentDir sourceHref) {} stream.events := fun stream =>
    (if_neg (Nat.not_le.mpr (Nat.succ_pos 19999))).symm
  unfold parseOverlay
  rw [hloop, hloop, (resume_coarse parse _).eq_of_alike .same h]

end Smil

/-! ## The service

Readers that are alike give the same call, the same exchange, and the same run of the server. -/

/-- Two readers of XML that report the same documents in different spellings. -/
structure Crates.Alike (crates crates' : Crates) : Prop where
  zipNew : crates.zipNew = crates'.zipNew
  parseFloat : crates.parseFloat = crates'.parseFloat
  strict : ∀ bytes, (crates.strict bytes).Alike strictParts (crates'.strict bytes)
  lenient : ∀ bytes,
    AlikeBy lenientParts Similar (crates.lenient bytes).events (crates'.lenient bytes).events

namespace Parse

variable {π : Projection} {crates crates' : Crates} (h : crates.Alike crates')
  {client : Nat → Bool} {limits : Effective} {archive : MemoryArchive}

include h

/-- The first half reads three documents, all of them strict. -/
theorem readBook_alike (scan : Scan) : readBook (π := π) crates limits archive scan =
    readBook crates' limits archive scan := by
  have hpolicy : ∀ descriptor index, Extract.obfuscatedEntries (crates.strict descriptor) index =
      Extract.obfuscatedEntries (crates'.strict descriptor) index := fun descriptor index => by
    unfold Extract.obfuscatedEntries
    rw [Encryption.parseEncryption_alike (h.strict descriptor)]
  have hrootfile : ∀ index container, rootfile crates index container =
      rootfile crates' index container := fun index container => by
    unfold rootfile
    rw [Opf.parseContainer_alike (h.strict container)]
  have hpackage : ∀ opfPath bytes, package crates opfPath bytes = package crates' opfPath bytes :=
    fun opfPath bytes => by
      unfold package
      rw [Opf.parsePackage_alike (h.strict bytes)]
  simp only [readBook, encryptionPolicy, hpolicy, hrootfile, hpackage]

variable {book : Book}

theorem navigationPass_alike (willEmit : List Nat) (source : Option Book.NavigationSource) :
    navigationPass (π := π) crates client limits archive book willEmit source =
      navigationPass crates' client limits archive book willEmit source := by
  unfold navigationPass
  simp only [fun bytes => Nav.parseNav_alike (h.lenient bytes),
    fun bytes => Nav.parseNcx_alike (h.lenient bytes)]

theorem overlayLoop_alike (willEmit : List Nat) (lastUse : HashMap Nat Nat)
    (pairs : List ((Nat × Nat) × Nat)) :
    overlayLoop (π := π) crates client limits archive book willEmit lastUse pairs =
      overlayLoop crates' client limits archive book willEmit lastUse pairs := by
  induction pairs with
  | nil => rfl
  | cons pair rest ih =>
      simp only [overlayLoop, overlayTurn, h.parseFloat,
        fun bytes => Smil.parseOverlay_alike crates'.parseFloat (h.lenient bytes), ih]

theorem parse_alike (bytes : Bytes) : parse (π := π) crates client limits bytes =
    parse crates' client limits bytes := by
  simp only [parse, deliver, overlayPass, h.zipNew, readBook_alike h, navigationPass_alike h,
    overlayLoop_alike h]

end Parse

section Server

variable {π : Projection} {crates crates' : Crates}

theorem run_alike (h : crates.Alike crates') (limits : Effective) (bytes : Bytes)
    (client : Nat → Bool) :
    run π crates limits bytes client = run π crates' limits bytes client := by
  unfold run
  rw [Parse.parse_alike h]

theorem Parsed.eq_of {δ : Type} {parsed parsed' : Parsed δ}
    (hevents : parsed.events = parsed'.events) (houtcome : parsed.outcome = parsed'.outcome) :
    parsed = parsed' := by
  cases parsed
  cases parsed'
  cases hevents
  cases houtcome
  rfl

theorem Session.answer_alike (h : crates.Alike crates') (kept : Limits) (options : ParseOptions)
    (bytes : Bytes) : answer π crates kept options bytes = answer π crates' kept options bytes := by
  have hrun : run π crates (kept.resolve options) bytes staying =
      run π crates' (kept.resolve options) bytes staying := run_alike h _ _ _
  exact Parsed.eq_of (congrArg (fun ended => ended.2.sent.map Delivery.event) hrun)
    (congrArg Prod.fst hrun)

theorem Server.step_alike (h : crates.Alike crates') (service : EpubGrpc) (timeouts : Timeouts) :
    Server.step π crates service timeouts = Server.step π crates' service timeouts := by
  funext s a
  cases a with
  | connect | tick => rfl
  | step i action => simp only [Server.step, Session.step, Session.answer_alike h]

end Server

/-- However the XML of a book is letters, and however the reader cuts it up:
every call is the same call, and the server the same server. -/
theorem spelling_is_invisible (π : Projection) (crates crates' : Crates)
    (h : crates.Alike crates') :
    (∀ (limits : Effective) (bytes : Bytes) (client : Nat → Bool),
      run π crates limits bytes client = run π crates' limits bytes client) ∧
    ∀ (service : EpubGrpc) (timeouts : Timeouts),
      Server.machine π crates service timeouts = Server.machine π crates' service timeouts := by
  refine ⟨run_alike h, fun service timeouts => ?_⟩
  unfold Server.machine
  rw [Server.step_alike h]

/-- A reader that puts a comment in front of every event and cuts every text in two. -/
def XmlEvent.chatty (event : XmlEvent) : List XmlEvent :=
  match event with
  | .text content => [.other, .text (content.take 1), .other, .text (content.drop 1)]
  | _ => [.other, event]

def XmlStream.chatty (stream : XmlStream) : XmlStream :=
  { stream with events := stream.events.flatMap XmlEvent.chatty }

def Crates.chatty (crates : Crates) : Crates :=
  { crates with
    strict := fun bytes => (crates.strict bytes).chatty
    lenient := fun bytes => (crates.lenient bytes).chatty }

theorem XmlEvent.letters_chatty (content : Str) :
    letters (content.take 1) ++ letters (content.drop 1) = letters content := by
  unfold letters
  rw [← List.map_append, List.take_append_drop]

theorem Crates.chatty_alike (crates : Crates) : crates.Alike crates.chatty where
  zipNew := rfl
  parseFloat := rfl
  strict bytes :=
    { stop := rfl
      events := .of_cut .same fun event => by
        cases event with
        | text content => exact (congrArg _ (List.append_nil _)).trans (letters_chatty content)
        | _ => exact List.append_nil _ }
  lenient bytes := .of_cut .same fun event => by
    cases event with
    | text content => exact (congrArg _ (List.append_nil _)).trans (letters_chatty content)
    | _ => exact List.append_nil _

theorem spelling_is_invisible_chatty :
    (∀ (limits : Effective) (bytes : Bytes) (client : Nat → Bool),
      run Sample.counting Sample.backwards.crates limits bytes client =
        run Sample.counting Sample.backwards.crates.chatty limits bytes client) ∧
    ∀ (service : EpubGrpc) (timeouts : Timeouts),
      Server.machine Sample.counting Sample.backwards.crates service timeouts =
        Server.machine Sample.counting Sample.backwards.crates.chatty service timeouts :=
  spelling_is_invisible Sample.counting Sample.backwards.crates _
    Sample.backwards.crates.chatty_alike

end GrpcEpub
