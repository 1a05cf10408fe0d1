/-
# `GrpcEpub.Server` — every call of a server at once

`parse_epub` from the first frame to the last permit, for any number of calls.
A session is one call: it waits for the options, receives its upload, waits for
a parse slot, and answers.  The upload is that of `Uploads` and the answer is
that of `Exchange`; what is added here is what lies between and around them:
the order of the frames, the two clocks of an upload, and the counters.

Sessions share the two semaphores, the clock and the counters, and nothing
else.  Time passes in steps of its own.  It does not pass the instant a waiting
session gives up at: a timer that is due fires, or its frame arrives, first.
The clock stays a year short of the last instant it can name, so that adding
`FOREVER` to it is always possible.
-/
import GrpcEpub.Ceilings
import GrpcEpub.Exchange
import GrpcEpub.Receive

namespace GrpcEpub

/-! ## The two clocks of an upload -/

/-- Instants and waits are counted in nanoseconds. -/
def nanosPerMilli : Nat := 1000000

def nanosPerSecond : Nat := 1000000000

/-- The last instant there is: `Instant` counts seconds in an `i64`. -/
def instantMax : Nat := 9223372036854775807 * nanosPerSecond + 999999999

/-- `FOREVER`. -/
def forever : Nat := 365 * 24 * 60 * 60 * nanosPerSecond

/-- How long a server waits for a frame, and for a whole upload.  Neither is
ever unbounded or zero. -/
structure Timeouts where
  idle : Nat
  upload : Nat
  idle_ge : nanosPerMilli ≤ idle
  upload_ge : nanosPerMilli ≤ upload

namespace Timeouts

/-- `DEFAULT_IDLE_TIMEOUT` and `DEFAULT_UPLOAD_TIMEOUT`. -/
def initial : Timeouts where
  idle := 30 * nanosPerSecond
  upload := 300 * nanosPerSecond
  idle_ge := by decide
  upload_ge := by decide

def withIdleTimeout (self : Timeouts) (timeout : Nat) : Timeouts :=
  { self with idle := max timeout nanosPerMilli, idle_ge := Nat.le_max_right _ _ }

def withUploadTimeout (self : Timeouts) (timeout : Nat) : Timeouts :=
  { self with upload := max timeout nanosPerMilli, upload_ge := Nat.le_max_right _ _ }

/-- `env_usize`, on a target where a `usize` is a `u64`. -/
def envUsize (env : Environment) (name : Str) (default : Nat) : Nat :=
  ((env name).bind parseU64).getD default

/-- What `main` makes of a timeout in seconds: zero is not set. -/
def seconds (initial setting : Nat) : Nat :=
  if setting = 0 then initial else setting * nanosPerSecond

/-- The timeouts `main` starts the service with. -/
def fromEnv (env : Environment) : Timeouts :=
  (initial.withIdleTimeout
      (seconds initial.idle (envUsize env "GRPC_EPUB_IDLE_TIMEOUT_SECONDS" 0))).withUploadTimeout
    (seconds initial.upload (envUsize env "GRPC_EPUB_UPLOAD_TIMEOUT_SECONDS" 0))

end Timeouts

/-- The two clocks one call's upload runs against. -/
structure UploadClock where
  idle : Nat
  total : Nat
  deadline : Nat
deriving DecidableEq, Repr

/-- A wait for a frame: since when, until when, and how the call ends then. -/
structure Timer where
  since : Nat
  due : Nat
  status : Status
deriving DecidableEq, Repr

namespace UploadClock

/-- The instant `wait` from now, or `forever` from now if that overflows. -/
def after (now wait : Nat) : Nat :=
  if now + wait ≤ instantMax then now + wait else now + forever

/-- Start both clocks now. -/
def start (timeouts : Timeouts) (now : Nat) : UploadClock where
  idle := timeouts.idle
  total := timeouts.upload
  deadline := after now timeouts.upload

/-- `next_frame`, begun now: until the idle timeout or the upload deadline,
whichever comes first. -/
def nextFrame (self : UploadClock) (now : Nat) : Timer :=
  let idleAt := after now self.idle
  if idleAt < self.deadline then
    { since := now, due := idleAt, status := .idleTimeout (self.idle / nanosPerMilli) }
  else
    { since := now, due := self.deadline, status := .uploadTimeout (self.total / nanosPerMilli) }

end UploadClock

/-! ## One session -/

/-- What `inbound.message()` comes back with. -/
inductive Incoming where
  | options (options : ParseOptions)
  | chunk (bytes : Bytes) (framed : bytes.length ≤ u32Max)
  | empty
  | closed
  | broken (status : Status)

namespace Incoming

/-- As `Uploads` sees it. -/
def next : Incoming → Upload.Next
  | .options _ => .options
  | .chunk bytes _ => .chunk bytes.length
  | .empty => .empty
  | .closed => .closed
  | .broken status => .error status

/-- As `Receive` sees it. -/
def frame : Incoming → Option Frame
  | .options _ => some .options
  | .chunk bytes framed => some (.chunk bytes framed)
  | .empty => some .empty
  | .closed | .broken _ => none

def bytes : Incoming → Bytes
  | .chunk bytes _ => bytes
  | _ => []

/-- The transport's own status. -/
def status : Incoming → Option Status
  | .broken status => some status
  | _ => none

end Incoming

/-- What one step adds to the counters. -/
structure Tally where
  started : Nat := 0
  succeeded : Nat := 0
  failed : Nat := 0
  uploaded : Nat := 0
deriving DecidableEq, Repr

/-- What the supervisor counts of an outcome. -/
def Tally.ofOutcome : Outcome → Tally
  | .complete => { succeeded := 1 }
  | .abandoned | .failed _ | .panicked _ => { failed := 1 }

/-- The bytes `receive` counts when a frame ends the upload: all of them when
it is complete, and those it had when the next chunk passed the cap. -/
def Upload.reported (limits : Limits) (u : Upload) : Upload.Next → Nat
  | .closed => u.length
  | .chunk size =>
      if size ≤ limits.maxChunkBytes ∧ u.maxDocumentBytes < u.length + size then u.length else 0
  | _ => 0

namespace Session

/-- Where a call is. -/
inductive Stage (δ : Type) where
  /-- Waiting for the options. -/
  | opening
  /-- From the options to the slot: the upload, the bytes so far and the chunk in hand. -/
  | uploading (upload : Upload) (options : ParseOptions) (bytes chunk : Bytes)
  /-- The response stream is open. -/
  | responding (upload : Upload) (options : ParseOptions) (bytes : Bytes) (exchange : Exchange δ)
  /-- Ended by a status, at this instant, before there was a response stream. -/
  | refused (status : Status) (instant : Nat)
  /-- The client left before there was a response stream. -/
  | cancelled

inductive Action where
  /-- A frame arrives. -/
  | arrive (incoming : Incoming)
  /-- The timer of `next_frame` fires. -/
  | expire
  | reserve
  | grow
  | copy
  | fail
  | cancel
  | takeSlot
  | respond (action : Exchange.Action)
  | dropSlot
  | dropShare

end Session

/-- One call.  The last fields are there to be talked about: its options, the
frames that followed them, the status its transport broke off with, the time
the server itself has spent on its upload, and the bytes counted for it. -/
structure Session (δ : Type) where
  opened : Nat
  clock : UploadClock
  timer : Timer
  stage : Session.Stage δ := .opening
  options : Option ParseOptions := none
  frames : List Frame := []
  broken : Option Status := none
  busy : Nat := 0
  reported : Nat := 0

namespace Session

/-- A call as `parse_epub` begins it. -/
def start {δ : Type} (timeouts : Timeouts) (now : Nat) : Session δ where
  opened := now
  clock := .start timeouts now
  timer := (UploadClock.start timeouts now).nextFrame now

/-- What a step of one session leaves: the semaphores, what it counted, and the
session. -/
structure Moved (δ : Type) where
  available : Nat
  slots : Nat
  tally : Tally := {}
  session : Session δ

section Step

variable {δ : Type}

/-- The session after a step of its upload. -/
def moved (s : Session δ) (stage : Upload → Stage δ) (after : Nat × Nat × Upload) : Moved δ where
  available := after.1
  slots := after.2.1
  session := { s with stage := stage after.2.2 }

/-- The first frame. -/
def opens (kept : Limits) (s : Session δ) (now : Nat) : Incoming → Session δ
  | .options options =>
      { s with
        timer := s.clock.nextFrame now
        options := some options
        stage := .uploading { maxDocumentBytes := (kept.resolve options).maxDocumentBytes }
          options [] [] }
  | .chunk _ _ | .empty => { s with stage := .refused .optionsFirst now }
  | .closed => { s with stage := .refused .closedBeforeOptions now }
  | .broken status => { s with broken := some status, stage := .refused status now }

/-- A later frame, for an upload in `next_frame`.  Whatever else it does, an
empty frame begins the next wait. -/
def takes (kept : Limits) (s : Session δ) (now : Nat) (u : Upload) (options : ParseOptions)
    (bytes : Bytes) (incoming : Incoming) : Session δ :=
  { s with
    timer := s.clock.nextFrame now
    frames := s.frames ++ incoming.frame.toList
    broken := incoming.status
    reported := s.reported + u.reported kept incoming.next
    stage := .uploading (u.frame kept incoming.next) options bytes incoming.bytes }

/-- Whether the parse thread has returned. -/
def hasStopped : Thread → Bool
  | .stopped _ => true
  | _ => false

/-- The upload after a step of the response: a thread that stops drops it. -/
def released (kept : Limits) (available slots : Nat) (u : Upload) (before after : Exchange δ) :
    Option (Nat × Nat × Upload) :=
  if hasStopped before.thread = false ∧ hasStopped after.thread = true then
    u.step kept available slots .threadReturns
  else some (available, slots, u)

/-- What the supervisor counts, in the step that joins the thread. -/
def joined (e : Exchange δ) : Exchange.Action → Tally
  | .join _ =>
      match e.thread with
      | .stopped outcome => .ofOutcome outcome
      | _ => {}
  | _ => {}

end Step

section Machine

variable (π : Projection) (crates : Crates) (kept : Limits)

/-- The response of this upload. -/
def answer (options : ParseOptions) (bytes : Bytes) : Parsed π.Document :=
  parsed π crates (kept.resolve options) bytes

/-- A step of one session, on the permits and the slots available and the
instant it is. -/
def step (available slots now : Nat) (s : Session π.Document) (a : Action) :
    Option (Moved π.Document) :=
  match s.stage with
  | .opening =>
      match a with
      | .arrive incoming => some { available, slots, session := s.opens kept now incoming }
      | .expire =>
          if s.timer.due ≤ now then
            some { available, slots, session := { s with stage := .refused s.timer.status now } }
          else none
      | .cancel => some { available, slots, session := { s with stage := .cancelled } }
      | _ => none
  | .uploading u options bytes chunk =>
      match a with
      | .arrive incoming =>
          (u.step kept available slots (.next incoming.next)).map fun _ =>
            { available, slots, tally := { uploaded := u.reported kept incoming.next }
              session := s.takes kept now u options bytes incoming }
      | .expire =>
          if s.timer.due ≤ now then
            (u.step kept available slots (.next (.error s.timer.status))).map
              (s.moved (.uploading · options bytes chunk))
          else none
      | .reserve => (u.step kept available slots .reserve).map
          (s.moved (.uploading · options bytes chunk))
      | .grow => (u.step kept available slots .grow).map
          (s.moved (.uploading · options bytes chunk))
      | .copy => (u.step kept available slots .copy).map
          ({ s with timer := s.clock.nextFrame now }.moved
            (.uploading · options (bytes ++ chunk) []))
      | .fail =>
          match u.phase with
          | .failing status => (u.step kept available slots .fail).map
              (s.moved fun _ => .refused status now)
          | _ => none
      | .cancel => (u.step kept available slots .cancel).map (s.moved fun _ => .cancelled)
      | .takeSlot => (u.step kept available slots .takeSlot).map fun after =>
          { s.moved (.responding · options bytes {}) after with tally := { started := 1 } }
      | _ => none
  | .responding u options bytes e =>
      match a with
      | .respond action =>
          match Exchange.step (answer π crates kept options bytes) e action with
          | some e' => (released kept available slots u e e').map fun after =>
              { s.moved (.responding · options bytes e') after with tally := joined e action }
          | none => none
      | .dropSlot =>
          if e.supervisor = .done then
            (u.step kept available slots .dropSlot).map (s.moved (.responding · options bytes e))
          else none
      | .dropShare => (u.step kept available slots .dropShare).map
          (s.moved (.responding · options bytes e))
      | _ => none
  | .refused _ _ | .cancelled => none

end Machine

/-! ### What a step can do -/

section Inversion

variable {π : Projection} {crates : Crates} {kept : Limits} {available slots now : Nat}
  {s : Session π.Document}

/-- What each action does, in the stages that enable it. -/
inductive Step (π : Projection) (crates : Crates) (kept : Limits) (available slots now : Nat)
    (s : Session π.Document) : Action → Moved π.Document → Prop
  | opens {incoming : Incoming} : s.stage = .opening →
      Step π crates kept available slots now s (.arrive incoming)
        { available, slots, session := s.opens kept now incoming }
  | expiresOpening : s.stage = .opening → s.timer.due ≤ now →
      Step π crates kept available slots now s .expire
        { available, slots, session := { s with stage := .refused s.timer.status now } }
  | cancelsOpening : s.stage = .opening →
      Step π crates kept available slots now s .cancel
        { available, slots, session := { s with stage := .cancelled } }
  | takes {u : Upload} {options : ParseOptions} {bytes chunk : Bytes} {incoming : Incoming} :
      s.stage = .uploading u options bytes chunk → u.phase = .receiving →
      Step π crates kept available slots now s (.arrive incoming)
        { available, slots, tally := { uploaded := u.reported kept incoming.next }
          session := s.takes kept now u options bytes incoming }
  | expires {u : Upload} {options : ParseOptions} {bytes chunk : Bytes} :
      s.stage = .uploading u options bytes chunk → u.phase = .receiving → s.timer.due ≤ now →
      Step π crates kept available slots now s .expire
        { available, slots
          session := { s with
            stage := .uploading { u with phase := .failing s.timer.status } options bytes chunk } }
  | reserves {u : Upload} {options : ParseOptions} {bytes chunk : Bytes}
      {after : Nat × Nat × Upload} : s.stage = .uploading u options bytes chunk →
      Upload.Step kept available slots u .reserve after →
      Step π crates kept available slots now s .reserve
        (s.moved (.uploading · options bytes chunk) after)
  | grows {u : Upload} {options : ParseOptions} {bytes chunk : Bytes}
      {after : Nat × Nat × Upload} : s.stage = .uploading u options bytes chunk →
      Upload.Step kept available slots u .grow after →
      Step π crates kept available slots now s .grow
        (s.moved (.uploading · options bytes chunk) after)
  | copies {u : Upload} {options : ParseOptions} {bytes chunk : Bytes} {needed : Nat} :
      s.stage = .uploading u options bytes chunk → u.phase = .copying needed →
      Step π crates kept available slots now s .copy
        { available, slots
          session := { s with
            timer := s.clock.nextFrame now
            stage := .uploading { u with length := needed, phase := .receiving } options
              (bytes ++ chunk) [] } }
  | fails {u : Upload} {options : ParseOptions} {bytes chunk : Bytes} {status : Status} :
      s.stage = .uploading u options bytes chunk → u.phase = .failing status →
      Step π crates kept available slots now s .fail
        { available := available + u.held, slots
          session := { s with stage := .refused status now } }
  | cancels {u : Upload} {options : ParseOptions} {bytes chunk : Bytes} :
      s.stage = .uploading u options bytes chunk → u.phase = .receiving ∨ u.phase = .waiting →
      Step π crates kept available slots now s .cancel
        { available := available + u.held, slots, session := { s with stage := .cancelled } }
  | takesSlot {u : Upload} {options : ParseOptions} {bytes chunk : Bytes} :
      s.stage = .uploading u options bytes chunk → u.phase = .waiting → slots ≠ 0 →
      Step π crates kept available slots now s .takeSlot
        { available, slots := slots - 1, tally := { started := 1 }
          session := { s with
            stage := .responding { u with phase := .parsing } options bytes {} } }
  | responds {u : Upload} {options : ParseOptions} {bytes : Bytes} {e e' : Exchange π.Document}
      {action : Exchange.Action} {after : Nat × Nat × Upload} :
      s.stage = .responding u options bytes e →
      Exchange.step (answer π crates kept options bytes) e action = some e' →
      released kept available slots u e e' = some after →
      Step π crates kept available slots now s (.respond action)
        { s.moved (.responding · options bytes e') after with tally := joined e action }
  | dropsSlot {u : Upload} {options : ParseOptions} {bytes : Bytes} {e : Exchange π.Document} :
      s.stage = .responding u options bytes e → e.supervisor = .done → u.phase = .returned →
      Step π crates kept available slots now s .dropSlot
        { available, slots := slots + 1
          session := { s with
            stage := .responding { u with phase := .unslotted } options bytes e } }
  | dropsShare {u : Upload} {options : ParseOptions} {bytes : Bytes} {e : Exchange π.Document} :
      s.stage = .responding u options bytes e → u.phase = .unslotted →
      Step π crates kept available slots now s .dropShare
        { available := available + u.held, slots
          session := { s with stage := .responding u.drop options bytes e } }

/-- Every enabled action of a session is one of the cases. -/
theorem Step.of_step {a : Action} {after : Moved π.Document}
    (h : s.step π crates kept available slots now a = some after) :
    Step π crates kept available slots now s a after := by
  unfold step at h
  split at h
  · rename_i hstage
    split at h
    · cases h
      exact .opens hstage
    · obtain ⟨hdue, ⟨⟩⟩ := Option.ite_none_right_eq_some.mp h
      exact .expiresOpening hstage hdue
    · cases h
      exact .cancelsOpening hstage
    · cases h
  · -- an upload: the action is one of the upload's, except for a clock and a client that leaves
    rename_i u options bytes chunk hstage
    split at h
    · obtain ⟨moved, hmoved, rfl⟩ := Option.map_eq_some_iff.mp h
      cases Upload.Step.of_step hmoved with
      | next hphase => exact .takes hstage hphase
    · obtain ⟨hdue, h⟩ := Option.ite_none_right_eq_some.mp h
      obtain ⟨moved, hmoved, rfl⟩ := Option.map_eq_some_iff.mp h
      cases Upload.Step.of_step hmoved with
      | next hphase => exact .expires hstage hphase hdue
    · obtain ⟨moved, hmoved, rfl⟩ := Option.map_eq_some_iff.mp h
      exact .reserves hstage (.of_step hmoved)
    · obtain ⟨moved, hmoved, rfl⟩ := Option.map_eq_some_iff.mp h
      exact .grows hstage (.of_step hmoved)
    · obtain ⟨moved, hmoved, rfl⟩ := Option.map_eq_some_iff.mp h
      cases Upload.Step.of_step hmoved with
      | copy hphase => exact .copies hstage hphase
    · split at h
      · rename_i status hphase
        obtain ⟨moved, hmoved, rfl⟩ := Option.map_eq_some_iff.mp h
        cases Upload.Step.of_step hmoved with
        | fail _ => exact .fails hstage hphase
      · cases h
    · obtain ⟨moved, hmoved, rfl⟩ := Option.map_eq_some_iff.mp h
      cases Upload.Step.of_step hmoved with
      | cancel hphase => exact .cancels hstage hphase
    · obtain ⟨moved, hmoved, rfl⟩ := Option.map_eq_some_iff.mp h
      cases Upload.Step.of_step hmoved with
      | takeSlot hphase hfree => exact .takesSlot hstage hphase hfree
    · cases h
  · -- a response: the exchange moves, or what it held is given back
    rename_i u options bytes e hstage
    split at h
    · split at h
      · rename_i e' hexchange
        obtain ⟨moved, hmoved, rfl⟩ := Option.map_eq_some_iff.mp h
        exact .responds hstage hexchange hmoved
      · cases h
    · obtain ⟨hdone, h⟩ := Option.ite_none_right_eq_some.mp h
      obtain ⟨moved, hmoved, rfl⟩ := Option.map_eq_some_iff.mp h
      cases Upload.Step.of_step hmoved with
      | dropSlot hphase => exact .dropsSlot hstage hdone hphase
    · obtain ⟨moved, hmoved, rfl⟩ := Option.map_eq_some_iff.mp h
      cases Upload.Step.of_step hmoved with
      | dropShare hphase => exact .dropsShare hstage hphase
    · cases h
  · cases h
  · cases h

/-- A step of the response either leaves the upload alone, or stops the thread
that had it. -/
theorem released_cases {u : Upload} {e e' : Exchange π.Document} {after : Nat × Nat × Upload}
    (h : released kept available slots u e e' = some after) :
    (hasStopped e.thread = false ∧ hasStopped e'.thread = true ∧ u.phase = .parsing ∧
        after = (available, slots, { u with phase := .returned, length := 0, capacity := 0 })) ∨
      ((hasStopped e.thread = true ∨ hasStopped e'.thread = false) ∧
        after = (available, slots, u)) := by
  unfold released at h
  split at h
  · rename_i hstops
    cases Upload.Step.of_step h with
    | threadReturns hphase => exact .inl ⟨hstops.1, hstops.2, hphase, rfl⟩
  · rename_i hstays
    cases h
    refine .inr ⟨?_, rfl⟩
    cases hbefore : hasStopped e.thread with
    | true => exact .inl rfl
    | false => exact .inr (Bool.eq_false_iff.mpr fun hafter => hstays ⟨hbefore, hafter⟩)

end Inversion

/-- Whether the session is in `next_frame`. -/
def waits {δ : Type} (s : Session δ) : Bool :=
  match s.stage with
  | .opening => true
  | .uploading u _ _ _ => u.phase == .receiving
  | _ => false

/-- Whether the server is at work on the session's upload. -/
def works {δ : Type} (s : Session δ) : Bool :=
  match s.stage with
  | .uploading u _ _ _ => u.phase != .receiving && u.phase != .waiting
  | _ => false

theorem works_iff {δ : Type} {s : Session δ} : s.works = true ↔
    ∃ u options bytes chunk, s.stage = .uploading u options bytes chunk ∧
      u.phase ≠ .receiving ∧ u.phase ≠ .waiting := by
  unfold works
  constructor
  · intro h
    split at h
    · rename_i u options bytes chunk hstage
      rw [Bool.and_eq_true, bne_iff_ne, bne_iff_ne] at h
      exact ⟨u, options, bytes, chunk, hstage, h⟩
    · cases h
  · rintro ⟨u, options, bytes, chunk, hstage, hphase⟩
    rw [hstage]
    simpa using hphase

/-- The session, so much later. -/
def pass {δ : Type} (nanos : Nat) (s : Session δ) : Session δ :=
  if s.works then { s with busy := s.busy + nanos } else s

end Session

/-! ## The server -/

/-- The counters that `parse_epub` moves itself: `fetch_add` wraps. -/
structure Counters where
  parsesStarted : UInt64 := 0
  parsesSucceeded : UInt64 := 0
  parsesFailed : UInt64 := 0
  bytesUploaded : UInt64 := 0
deriving DecidableEq, Repr

def Counters.add (self : Counters) (tally : Tally) : Counters where
  parsesStarted := self.parsesStarted + .ofNat tally.started
  parsesSucceeded := self.parsesSucceeded + .ofNat tally.succeeded
  parsesFailed := self.parsesFailed + .ofNat tally.failed
  bytesUploaded := self.bytesUploaded + .ofNat tally.uploaded

structure Server (δ : Type) where
  available : Nat
  slots : Nat
  now : Nat := 0
  counters : Counters := {}
  sessions : List (Session δ) := []

namespace Server

inductive Action where
  /-- A client opens a call. -/
  | connect
  /-- Time passes. -/
  | tick (nanos : Nat)
  | step (session : Nat) (action : Session.Action)

section Machine

variable (π : Projection) (crates : Crates) (service : EpubGrpc) (timeouts : Timeouts)

def step (s : Server π.Document) : Action → Option (Server π.Document)
  | .connect => some { s with sessions := s.sessions ++ [.start timeouts s.now] }
  | .tick nanos =>
      if s.now + nanos + forever ≤ instantMax ∧
          ∀ session ∈ s.sessions, session.waits = true → s.now + nanos ≤ session.timer.due then
        some { s with now := s.now + nanos, sessions := s.sessions.map (Session.pass nanos) }
      else none
  | .step i action =>
      match s.sessions[i]? with
      | none => none
      | some session =>
          match session.step π crates service.kept s.available s.slots s.now action with
          | some after =>
              some { s with
                available := after.available
                slots := after.slots
                counters := s.counters.add after.tally
                sessions := s.sessions.set i after.session }
          | none => none

/-- A server from `with_metrics` on. -/
def machine : Machine (Server π.Document) Action where
  start := { available := service.uploadPermits, slots := service.kept.maxConcurrentParses }
  step := step π crates service timeouts

end Machine

/-! ### Runs -/

section Runs

variable {π : Projection} {crates : Crates} {service : EpubGrpc} {timeouts : Timeouts}
  {s s' : Server π.Document}

/-- What each action does. -/
inductive Step (π : Projection) (crates : Crates) (service : EpubGrpc) (timeouts : Timeouts)
    (s : Server π.Document) : Action → Server π.Document → Prop
  | connect : Step π crates service timeouts s .connect
      { s with sessions := s.sessions ++ [.start timeouts s.now] }
  | tick {nanos : Nat} : s.now + nanos + forever ≤ instantMax →
      (∀ session ∈ s.sessions, session.waits = true → s.now + nanos ≤ session.timer.due) →
      Step π crates service timeouts s (.tick nanos)
        { s with now := s.now + nanos, sessions := s.sessions.map (Session.pass nanos) }
  | session {i : Nat} {action : Session.Action} {session : Session π.Document}
      {after : Session.Moved π.Document} : s.sessions[i]? = some session →
      Session.Step π crates service.kept s.available s.slots s.now session action after →
      Step π crates service timeouts s (.step i action)
        { s with
          available := after.available
          slots := after.slots
          counters := s.counters.add after.tally
          sessions := s.sessions.set i after.session }

theorem Step.of_step {a : Action} (h : step π crates service timeouts s a = some s') :
    Step π crates service timeouts s a s' := by
  cases a with
  | connect =>
      cases h
      exact .connect
  | tick nanos =>
      simp only [step] at h
      split at h
      · rename_i hpass
        cases h
        exact .tick hpass.1 hpass.2
      · cases h
  | step i action =>
      simp only [step] at h
      split at h
      · cases h
      · rename_i session hsession
        split at h
        · rename_i after hafter
          cases h
          exact .session hsession (.of_step hafter)
        · cases h

/-- The clock never comes within a year of its end. -/
theorem now_le {actions : List Action} (h : (machine π crates service timeouts).Runs actions s) :
    s.now + forever ≤ instantMax := by
  have hstart : 0 + forever ≤ instantMax := by decide
  refine h.invariant (I := fun s => s.now + forever ≤ instantMax) hstart ?_
  intro s a s' hs hstep
  cases Step.of_step hstep with
  | connect => exact hs
  | tick hnow hdue => exact hnow
  | session hsession hmoved => exact hs

/-- What a session has from its start, and keeps in every step, as time passes and as the run
goes on without it, it has in every reachable state.  It may speak of the instant, of which
session it is, and of the run. -/
theorem forall_sessions_along {P : List Action → Nat → Nat → Session π.Document → Prop}
    (start : ∀ as i now, now + forever ≤ instantMax → P as i now (.start timeouts now))
    (mono : ∀ as bs i now session, as <+: bs → P as i now session → P bs i now session)
    (pass : ∀ as i now nanos session, P as i now session →
      (session.waits = true → now + nanos ≤ session.timer.due) →
      P as i (now + nanos) (session.pass nanos))
    (step : ∀ as (s : Server π.Document) i session a after,
      (machine π crates service timeouts).Runs as s → s.sessions[i]? = some session →
      P (as ++ [.step i a]) i s.now session →
      Session.Step π crates service.kept s.available s.slots s.now session a after →
      P (as ++ [.step i a]) i s.now after.session)
    {actions : List Action} (h : (machine π crates service timeouts).Runs actions s) :
    ∀ i session, s.sessions[i]? = some session → P actions i s.now session := by
  refine h.rec_snoc (I := fun as s => ∀ i session, s.sessions[i]? = some session →
    P as i s.now session) (fun i session hsession => by cases hsession) ?_
  intro as s a s' hruns hs hstep
  have hnow := now_le hruns
  have hlater : ∀ i session, s.sessions[i]? = some session → P (as ++ [a]) i s.now session :=
    fun i session hsession => mono _ _ _ _ _ (List.prefix_append _ _) (hs i session hsession)
  cases Step.of_step hstep with
  | connect =>
      intro i session hsession
      rcases Nat.lt_or_ge i s.sessions.length with hi | hi
      · exact hlater i session (by rwa [List.getElem?_append_left hi] at hsession)
      · rw [List.getElem?_append_right hi] at hsession
        obtain rfl := List.mem_singleton.mp (List.mem_of_getElem? hsession)
        exact start _ i s.now hnow
  | tick hpass hdue =>
      intro i session hsession
      rw [List.getElem?_map, Option.map_eq_some_iff] at hsession
      obtain ⟨earlier, hearlier, rfl⟩ := hsession
      exact pass _ i s.now _ earlier (hlater i earlier hearlier)
        (hdue earlier (List.mem_of_getElem? hearlier))
  | @session j action moving after hmoving hmoved =>
      intro i session hsession
      by_cases hij : j = i
      · subst hij
        have hj := (List.getElem?_eq_some_iff.mp hmoving).1
        rw [List.getElem?_set_self hj] at hsession
        obtain rfl := Option.some.inj hsession
        exact step as s j moving action after hruns hmoving (hlater j moving hmoving) hmoved
      · rw [List.getElem?_set_ne hij] at hsession
        exact hlater i session hsession

/-- What is kept whatever the run. -/
theorem forall_sessions {P : Nat → Session π.Document → Prop}
    (start : ∀ now, now + forever ≤ instantMax → P now (.start timeouts now))
    (pass : ∀ now nanos session, P now session →
      (session.waits = true → now + nanos ≤ session.timer.due) →
      P (now + nanos) (session.pass nanos))
    (step : ∀ available slots now session a after, now + forever ≤ instantMax → P now session →
      Session.Step π crates service.kept available slots now session a after →
      P now after.session)
    {actions : List Action} (h : (machine π crates service timeouts).Runs actions s) :
    ∀ session ∈ s.sessions, P s.now session := by
  intro session hmem
  obtain ⟨i, hsession⟩ := List.mem_iff_getElem?.mp hmem
  exact forall_sessions_along (P := fun _ _ => P) (fun _ _ => start) (fun _ _ _ _ _ _ h => h)
    (fun _ _ => pass) (fun _ _ _ _ _ _ hruns _ => step _ _ _ _ _ _ (now_le hruns)) h i session
    hsession

end Runs

end Server

end GrpcEpub
