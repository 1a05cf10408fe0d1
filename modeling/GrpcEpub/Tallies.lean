/-
# `GrpcEpub.Tallies` — what the counters of a server say

`Metrics` is written from every call and read by nobody who could notice a
mistake.  Four of its counters are moved by the calls themselves.  Here each
of them is read off the sessions instead: how many responses were opened, how
many of those were joined and how, and how many bytes were received.  Counting
is by `fetch_add`, so all of it holds modulo the word, however long a server
runs.
-/
import GrpcEpub.Alone

namespace GrpcEpub

namespace Session

section Counted

variable {δ : Type}

/-- What the supervisor of a response has counted so far. -/
def settled (e : Exchange δ) : Tally :=
  match e.supervisor, e.thread with
  | .joining, _ => {}
  | _, .stopped outcome => .ofOutcome outcome
  | _, _ => {}

def Stage.exchange : Stage δ → Option (Exchange δ)
  | .responding _ _ _ e => some e
  | .opening | .uploading _ _ _ _ | .refused _ _ | .cancelled => none

/-- What a session has counted so far. -/
def counted (s : Session δ) : Tally :=
  match s.stage.exchange with
  | some e =>
      { started := 1, succeeded := (settled e).succeeded, failed := (settled e).failed
        uploaded := s.reported }
  | none => { uploaded := s.reported }

/-- Whether a parse of the session has been started and not yet been joined. -/
def inFlight (s : Session δ) : Nat :=
  match s.stage.exchange with
  | some e => if e.supervisor = .joining then 1 else 0
  | none => 0

theorem settled_of_joining {e : Exchange δ} (h : e.supervisor = .joining) : settled e = {} := by
  unfold settled
  rw [h]

theorem settled_of_stopped {e : Exchange δ} {outcome : Outcome} (h : e.supervisor ≠ .joining)
    (hthread : e.thread = .stopped outcome) : settled e = .ofOutcome outcome := by
  unfold settled
  rw [hthread]
  cases hsupervisor : e.supervisor with
  | joining => exact absurd hsupervisor h
  | reporting | done => rfl

theorem hasStopped_iff {thread : Thread} :
    hasStopped thread = true ↔ ∃ outcome, thread = .stopped outcome := by
  cases thread with
  | stopped outcome => exact iff_of_true rfl ⟨outcome, rfl⟩
  | running | waiting =>
      refine iff_of_false nofun ?_
      rintro ⟨outcome, h⟩
      cases h

/-- Every outcome is counted once. -/
theorem ofOutcome_sum (outcome : Outcome) :
    (Tally.ofOutcome outcome).succeeded + (Tally.ofOutcome outcome).failed = 1 := by
  cases outcome <;> rfl

/-- The supervisor starts nothing and receives nothing. -/
theorem joined_started (e : Exchange δ) (a : Exchange.Action) :
    (joined e a).started = 0 ∧ (joined e a).uploaded = 0 := by
  unfold joined
  split
  · split
    · rename_i outcome hthread
      cases outcome <;> exact ⟨rfl, rfl⟩
    · exact ⟨rfl, rfl⟩
  · exact ⟨rfl, rfl⟩

/-- A response that is not joining is one whose thread has returned. -/
theorem InStep.stopped {e : Exchange δ} {phase : Upload.Phase} (h : InStep e phase)
    (hsupervisor : e.supervisor ≠ .joining) : ∃ outcome, e.thread = .stopped outcome := by
  cases h with
  | parsing hrunning hjoining => exact absurd hjoining hsupervisor
  | returned hstopped | unslotted hstopped | ended hstopped => exact hasStopped_iff.mp hstopped

/-- The supervisor counts in the step that joins, and in no other. -/
theorem settled_step {parsed : Parsed δ} {e e' : Exchange δ} {a : Exchange.Action}
    {phase : Upload.Phase} (h : InStep e phase) (hstep : Exchange.Step parsed e a e') :
    (settled e').succeeded = (settled e).succeeded + (joined e a).succeeded ∧
      (settled e').failed = (settled e).failed + (joined e a).failed := by
  rcases supervisor_step hstep with ⟨hsame, hother⟩ | ⟨detail, outcome, rfl, hjoining, hthread,
    hleft⟩ | ⟨status, hreporting, hdone⟩
  · have hnone : joined e a = {} := by
      cases a with
      | join detail => exact absurd rfl (hother detail)
      | trySend | sendTimeout | stall | finish | crash | sendStatus | read | disconnect
      | seeEnd => rfl
    rw [hnone]
    by_cases hjoining : e.supervisor = .joining
    · rw [settled_of_joining hjoining, settled_of_joining (hsame.trans hjoining)]
      exact ⟨rfl, rfl⟩
    · obtain ⟨outcome, hthread⟩ := h.stopped hjoining
      have hthread' : e'.thread = .stopped outcome :=
        (stopped_step hstep (hasStopped_iff.mpr ⟨outcome, hthread⟩)).trans hthread
      rw [settled_of_stopped hjoining hthread,
        settled_of_stopped (fun hjoined => hjoining (hsame.symm.trans hjoined)) hthread']
      exact ⟨rfl, rfl⟩
  · have hthread' : e'.thread = .stopped outcome :=
      (stopped_step hstep (hasStopped_iff.mpr ⟨outcome, hthread⟩)).trans hthread
    have hcounts : joined e (.join detail) = .ofOutcome outcome := by
      unfold joined
      rw [hthread]
    rw [settled_of_joining hjoining, settled_of_stopped hleft hthread', hcounts]
    exact ⟨(Nat.zero_add _).symm, (Nat.zero_add _).symm⟩
  · have hleft : e.supervisor ≠ .joining := by
      rw [hreporting]
      nofun
    have hnone : joined e a = {} := by
      cases hstep with
      | join hthread hjoining => exact absurd hjoining hleft
      | trySend | sendTimeout | stall | finish | crash | sendStatus | read | disconnect
      | seeEnd => rfl
    obtain ⟨outcome, hthread⟩ := h.stopped hleft
    have hthread' : e'.thread = .stopped outcome :=
      (stopped_step hstep (hasStopped_iff.mpr ⟨outcome, hthread⟩)).trans hthread
    rw [hnone, settled_of_stopped hleft hthread,
      settled_of_stopped (by rw [hdone]; nofun) hthread']
    exact ⟨rfl, rfl⟩

theorem counted_of_none {s : Session δ} (h : s.stage.exchange = none) :
    s.counted = { uploaded := s.reported } := by
  unfold counted
  rw [h]

theorem counted_of_some {s : Session δ} {e : Exchange δ} (h : s.stage.exchange = some e) :
    s.counted = { started := 1, succeeded := (settled e).succeeded, failed := (settled e).failed
                  uploaded := s.reported } := by
  unfold counted
  rw [h]

theorem exchange_eq_some {stage : Stage δ} {e : Exchange δ} (h : stage.exchange = some e) :
    ∃ u options bytes, stage = .responding u options bytes e := by
  cases stage with
  | responding u options bytes e' =>
      cases h
      exact ⟨u, options, bytes, rfl⟩
  | opening | uploading | refused | cancelled => cases h

/-- A parse that was started is in flight, or has been counted once more, and as
long as it is in flight the session holds a slot. -/
theorem inFlight_add {s : Session δ} (h : Phased s.stage) :
    s.counted.succeeded + s.counted.failed + s.inFlight = s.counted.started ∧
      s.inFlight ≤ s.slot := by
  cases hexchange : s.stage.exchange with
  | none =>
      rw [counted_of_none hexchange, inFlight, hexchange]
      exact ⟨rfl, Nat.zero_le _⟩
  | some e =>
      obtain ⟨u, options, bytes, hstage⟩ := exchange_eq_some hexchange
      have hinStep := h.inStep hstage
      rw [counted_of_some hexchange, inFlight, hexchange, slot, hstage]
      dsimp only [Stage.upload, Option.elim_some]
      split
      · rename_i hjoining
        rw [settled_of_joining hjoining]
        refine ⟨rfl, ?_⟩
        unfold Upload.slot
        generalize u.phase = phase at hinStep ⊢
        cases hinStep with
        | parsing | returned => exact le_rfl
        | unslotted hstopped hdone | ended hstopped hdone =>
            rw [hdone] at hjoining
            cases hjoining
      · rename_i hleft
        obtain ⟨outcome, hthread⟩ := hinStep.stopped hleft
        rw [settled_of_stopped hleft hthread]
        exact ⟨ofOutcome_sum outcome, Nat.zero_le _⟩

end Counted

/-! ### One step

Of each counter: a step changes it as it changes what the session has to show for it. -/

/-- A step counts what it says it counts. -/
structure Counts {δ : Type} (s : Session δ) (after : Moved δ) : Prop where
  started : after.session.counted.started = s.counted.started + after.tally.started
  succeeded : after.session.counted.succeeded = s.counted.succeeded + after.tally.succeeded
  failed : after.session.counted.failed = s.counted.failed + after.tally.failed
  uploaded : after.session.reported = s.reported + after.tally.uploaded

/-- Before there is a response nothing is counted but bytes. -/
theorem Counts.of_none {δ : Type} {s : Session δ} {after : Moved δ} {uploaded : Nat}
    (h : s.stage.exchange = none) (h' : after.session.stage.exchange = none)
    (htally : after.tally = { uploaded })
    (huploaded : after.session.reported = s.reported + uploaded) : Counts s after where
  started := by rw [counted_of_none h, counted_of_none h', htally]; rfl
  succeeded := by rw [counted_of_none h, counted_of_none h', htally]; rfl
  failed := by rw [counted_of_none h, counted_of_none h', htally]; rfl
  uploaded := by rw [huploaded, htally]

/-- A session that lets go of what it holds counts nothing. -/
theorem Counts.of_same {δ : Type} {s : Session δ} {after : Moved δ}
    (h : after.session.stage.exchange = s.stage.exchange) (htally : after.tally = {})
    (huploaded : after.session.reported = s.reported) : Counts s after where
  started := by rw [counted, counted, h, huploaded, htally]; rfl
  succeeded := by rw [counted, counted, h, huploaded, htally]; rfl
  failed := by rw [counted, counted, h, huploaded, htally]; rfl
  uploaded := by rw [huploaded, htally]; rfl

section Step

variable {π : Projection} {crates : Crates} {kept : Limits} {available slots now : Nat}
  {s : Session π.Document}

theorem opens_exchange (s : Session π.Document) (incoming : Incoming) :
    (s.opens kept now incoming).stage.exchange = none ∧
      (s.opens kept now incoming).reported = s.reported := by
  cases incoming with
  | options | chunk | empty | closed | broken => exact ⟨rfl, rfl⟩

/-- The step lemma for the counters of responses. -/
theorem Step.counts {a : Action} {after : Moved π.Document} (h : Phased s.stage)
    (hstep : Step π crates kept available slots now s a after) : Counts s after := by
  cases hstep with
  | opens hstage =>
      obtain ⟨hnone, hreported⟩ := @opens_exchange π kept now s _
      exact .of_none (by rw [hstage]; rfl) hnone rfl hreported
  | takes hstage | expiresOpening hstage | cancelsOpening hstage | expires hstage
  | reserves hstage | grows hstage | copies hstage | fails hstage | cancels hstage =>
      exact .of_none (by rw [hstage]; rfl) rfl rfl rfl
  | takesSlot hstage hphase hfree =>
      have hnone : s.stage.exchange = none := by rw [hstage]; rfl
      refine ⟨?_, ?_, ?_, rfl⟩ <;> rw [counted_of_none hnone] <;> rfl
  | responds hstage hexchange hreleased =>
      have hsome := congrArg Stage.exchange hstage
      obtain ⟨hsucceeded, hfailed⟩ := settled_step (h.inStep hstage) (.of_step hexchange)
      obtain ⟨hstarted, huploaded⟩ := joined_started _ _
      refine ⟨?_, ?_, ?_, ?_⟩
      · rw [counted_of_some hsome]
        exact (congrArg (1 + ·) hstarted).symm
      · rw [counted_of_some hsome]
        exact hsucceeded
      · rw [counted_of_some hsome]
        exact hfailed
      · exact (congrArg (s.reported + ·) huploaded).symm
  | dropsSlot hstage | dropsShare hstage => exact .of_same (by rw [hstage]; rfl) rfl rfl

end Step

/-! ### Bytes

What a session reports of its upload, and when. -/

/-- What a session has reported, by where it is: nothing until its upload is
complete or has passed its cap. -/
inductive Reports {δ : Type} (reported : Nat) : Stage δ → Prop
  | opening : reported = 0 → Reports reported .opening
  | uploading {u : Upload} {options : ParseOptions} {bytes chunk : Bytes} :
      reported = 0 → u.phase ≠ .waiting → Reports reported (.uploading u options bytes chunk)
  | complete {u : Upload} {options : ParseOptions} {bytes chunk : Bytes} :
      reported = bytes.length → u.phase = .waiting →
      Reports reported (.uploading u options bytes chunk)
  | capped {u : Upload} {options : ParseOptions} {bytes chunk : Bytes} {cap : Nat} :
      reported ≤ cap → u.phase = .failing (.uploadTooLarge cap) →
      Reports reported (.uploading u options bytes chunk)
  | responding {u : Upload} {options : ParseOptions} {bytes : Bytes} {e : Exchange δ} :
      reported = bytes.length → Reports reported (.responding u options bytes e)
  | refused {status : Status} {instant : Nat} :
      reported = 0 ∨ (∃ cap, status = .uploadTooLarge cap ∧ reported ≤ cap) →
      Reports reported (.refused status instant)
  | cancelled : Reports reported .cancelled

section Reports

variable {π : Projection} {crates : Crates} {service : EpubGrpc} {available slots now reported : Nat}
  {s : Session π.Document} {u : Upload} {options : ParseOptions} {bytes chunk : Bytes}

/-- An upload in progress has reported nothing. -/
theorem Reports.zero {stage : Stage π.Document} (h : Reports reported stage)
    (hstage : stage = .uploading u options bytes chunk) (hwaiting : u.phase ≠ .waiting)
    (hfailing : ∀ status, u.phase ≠ .failing status) : reported = 0 := by
  subst hstage
  cases h with
  | uploading hzero => exact hzero
  | complete hlength hphase => exact absurd hphase hwaiting
  | capped hle hphase => exact absurd hphase (hfailing _)

/-- A complete upload has reported all of it. -/
theorem Reports.whole {stage : Stage π.Document} (h : Reports reported stage)
    (hstage : stage = .uploading u options bytes chunk) (hphase : u.phase = .waiting) :
    reported = bytes.length := by
  subst hstage
  cases h with
  | uploading hzero hwaiting => exact absurd hphase hwaiting
  | complete hlength => exact hlength
  | capped hle hfailing =>
      rw [hphase] at hfailing
      cases hfailing

/-- One that fails has reported nothing, unless it was its cap that it passed. -/
theorem Reports.failing {stage : Stage π.Document} {status : Status} (h : Reports reported stage)
    (hstage : stage = .uploading u options bytes chunk) (hphase : u.phase = .failing status) :
    reported = 0 ∨ ∃ cap, status = .uploadTooLarge cap ∧ reported ≤ cap := by
  subst hstage
  cases h with
  | uploading hzero => exact .inl hzero
  | complete hlength hwaiting =>
      rw [hphase] at hwaiting
      cases hwaiting
  | @capped _ _ _ _ cap hle hfailing =>
      rw [hphase] at hfailing
      cases hfailing
      exact .inr ⟨cap, rfl, hle⟩

theorem Reports.answered {stage : Stage π.Document} {e : Exchange π.Document}
    (h : Reports reported stage) (hstage : stage = .responding u options bytes e) :
    reported = bytes.length := by
  subst hstage
  cases h with
  | responding hlength => exact hlength

/-- What `receive` reports of a frame. -/
theorem takes_reports (halone : s.Uploading service short now u options bytes chunk) (hzero : s.reported = 0)
    (hphase : u.phase = .receiving) (incoming : Incoming) :
    Reports (s.takes service.kept now u options bytes incoming).reported
      (s.takes service.kept now u options bytes incoming).stage := by
  have hlength := halone.length
  change Reports (s.reported + u.reported service.kept incoming.next)
    (.uploading (u.frame service.kept incoming.next) options bytes incoming.bytes)
  rw [hzero, Nat.zero_add]
  cases incoming with
  | options | broken => exact .uploading rfl fun h => by cases h
  | empty =>
      refine .uploading rfl ?_
      change u.phase ≠ _
      rw [hphase]
      exact fun h => by cases h
  | closed => exact .complete hlength rfl
  | chunk given framed =>
      have hcapped : u.length ≤ u.maxDocumentBytes := by
        have hinHand := halone.inHand
        rw [hphase] at hinHand
        rw [hlength, halone.cap]
        exact hinHand.capped
      simp only [Incoming.next, Upload.reported, Upload.frame]
      by_cases hchunk : service.kept.maxChunkBytes < given.length
      · rw [if_neg (fun h => Nat.not_le.mpr hchunk h.1), if_pos hchunk]
        exact .uploading rfl fun h => by cases h
      rw [if_neg hchunk]
      by_cases hpast : u.maxDocumentBytes < u.length + given.length
      · rw [if_pos ⟨Nat.not_lt.mp hchunk, hpast⟩, if_pos hpast]
        exact .capped hcapped rfl
      · rw [if_neg fun h => hpast h.2, if_neg hpast]
        split <;> exact .uploading rfl fun h => by cases h

/-- The step lemma for the bytes that are reported. -/
theorem Step.reports {a : Action} {after : Moved π.Document} (halone : s.Alone π crates service short now)
    (h : Reports s.reported s.stage)
    (hstep : Step π crates service.kept available slots now s a after) :
    Reports after.session.reported after.session.stage := by
  cases hstep with
  | @opens incoming hstage =>
      have hzero : s.reported = 0 := by
        rw [hstage] at h
        cases h with
        | opening hzero => exact hzero
      cases incoming with
      | options => exact .uploading hzero nofun
      | chunk | empty | closed | broken => exact .refused (.inl hzero)
  | expiresOpening hstage =>
      rw [hstage] at h
      cases h with
      | opening hzero => exact .refused (.inl hzero)
  | cancelsOpening | cancels => exact .cancelled
  -- while the upload comes in, nothing has been reported of it
  | takes hstage hphase =>
      refine takes_reports (halone.uploading hstage) (h.zero hstage ?_ ?_) hphase _
      all_goals
        rw [hphase]
        nofun
  | expires hstage hphase hdue =>
      refine .uploading (h.zero hstage ?_ ?_) nofun
      all_goals
        rw [hphase]
        nofun
  | reserves hstage hreserve =>
      cases hreserve with
      | doubled hphase | undoubled hphase | granted hphase | refused hphase =>
          refine .uploading (h.zero hstage ?_ ?_) nofun
          all_goals
            rw [hphase]
            nofun
  | grows hstage hgrow =>
      cases hgrow with
      | grow hphase =>
          refine .uploading (h.zero hstage ?_ ?_) nofun
          all_goals
            rw [hphase]
            nofun
  | copies hstage hphase =>
      refine .uploading (h.zero hstage ?_ ?_) nofun
      all_goals
        rw [hphase]
        nofun
  -- what is reported of a failure is what has come in by then, and of the rest the whole
  | fails hstage hphase => exact .refused (h.failing hstage hphase)
  | takesSlot hstage hphase hfree => exact .responding (h.whole hstage hphase)
  | responds hstage hexchange hreleased => exact .responding (h.answered hstage)
  | dropsSlot hstage hdone hphase => exact .responding (h.answered hstage)
  | dropsShare hstage hphase => exact .responding (h.answered hstage)

end Reports

end Session

/-! ## The server

Summed over the sessions. -/

namespace Server

/-- What the sessions of a server have counted, in all. -/
def total {δ : Type} (s : Server δ) (count : Session δ → Nat) : Nat := (s.sessions.map count).sum

/-- A counter and what it counts. -/
theorem ofNat_sum_set {α : Type} {count : α → Nat} {xs : List α} {x y : α} {i more : Nat}
    {counter : UInt64} (hcounter : counter = .ofNat (xs.map count).sum) (hx : xs[i]? = some x)
    (hy : count y = count x + more) :
    counter + .ofNat more = .ofNat ((xs.set i y).map count).sum := by
  have hsum := Permits.sum_map_set count y hx
  rw [hcounter, ← UInt64.ofNat_add]
  congr 1
  omega

/-- Every counter is what the sessions come to. -/
structure Tallied {δ : Type} (s : Server δ) : Prop where
  started : s.counters.parsesStarted = .ofNat (s.total (·.counted.started))
  succeeded : s.counters.parsesSucceeded = .ofNat (s.total (·.counted.succeeded))
  failed : s.counters.parsesFailed = .ofNat (s.total (·.counted.failed))
  uploaded : s.counters.bytesUploaded = .ofNat (s.total (·.reported))

section Runs

variable {π : Projection} {crates : Crates} {service : EpubGrpc} {timeouts : Timeouts}
  {s s' : Server π.Document} {actions : List Action}

theorem pass_counted {δ : Type} (nanos : Nat) (s : Session δ) :
    (s.pass nanos).counted = s.counted ∧ (s.pass nanos).reported = s.reported := by
  unfold Session.pass
  split <;> exact ⟨rfl, rfl⟩

/-- A newcomer has counted nothing. -/
theorem sum_connect {count : Session π.Document → Nat} {session : Session π.Document}
    (sessions : List (Session π.Document)) (h : count session = 0) :
    ((sessions ++ [session]).map count).sum = (sessions.map count).sum := by
  simp [h]

theorem sum_pass {count : Session π.Document → Nat} (nanos : Nat)
    (h : ∀ session, count (session.pass nanos) = count session)
    (sessions : List (Session π.Document)) :
    UInt64.ofNat (sessions.map count).sum =
      .ofNat ((sessions.map (Session.pass nanos)).map count).sum := by
  rw [map_pass nanos h]

/-- One step of the server: time, a new session, or a step of one session. -/
theorem Tallied.step {a : Action} (h : s.Tallied)
    (hphased : ∀ session ∈ s.sessions, Session.Phased session.stage)
    (hstep : Step π crates service timeouts s a s') : s'.Tallied := by
  cases hstep with
  | connect =>
      refine ⟨h.started.trans ?_, h.succeeded.trans ?_, h.failed.trans ?_, h.uploaded.trans ?_⟩
      all_goals exact congrArg UInt64.ofNat (sum_connect _ rfl).symm
  | @tick nanos hnow hdue =>
      refine ⟨h.started.trans (sum_pass nanos ?_ _), h.succeeded.trans (sum_pass nanos ?_ _),
        h.failed.trans (sum_pass nanos ?_ _), h.uploaded.trans (sum_pass nanos ?_ _)⟩
      all_goals
        intro session
        simp only [pass_counted]
  | session hsession hmoved =>
      have hcounts := hmoved.counts (hphased _ (List.mem_of_getElem? hsession))
      exact ⟨ofNat_sum_set h.started hsession hcounts.started,
        ofNat_sum_set h.succeeded hsession hcounts.succeeded,
        ofNat_sum_set h.failed hsession hcounts.failed,
        ofNat_sum_set h.uploaded hsession hcounts.uploaded⟩

theorem tallied_of_runs (h : (machine π crates service timeouts).Runs actions s) : s.Tallied := by
  refine h.rec_snoc (I := fun _ s => s.Tallied) ⟨rfl, rfl, rfl, rfl⟩ ?_
  intro as s a s' hruns hs hstep
  exact hs.step (phased_of_runs hruns) (.of_step hstep)

/-- By induction along the run. -/
theorem reports_of_runs (h : (machine π crates service timeouts).Runs actions s) :
    ∀ session ∈ s.sessions, Session.Reports session.reported session.stage := by
  have hboth : ∀ session ∈ s.sessions, session.Alone π crates service True s.now ∧
      Session.Reports session.reported session.stage := by
    refine forall_sessions (P := fun now session => session.Alone π crates service True now ∧
      Session.Reports session.reported session.stage) ?_ ?_ ?_ h
    · intro now hnow
      exact ⟨⟨rfl, rfl⟩, .opening rfl⟩
    · rintro now nanos session ⟨halone, hreports⟩ hdue
      rw [Session.pass_stage, (pass_counted nanos session).2]
      exact ⟨halone.pass nanos, hreports⟩
    · rintro available slots now session a after hnow ⟨halone, hreports⟩ hstep
      exact ⟨hstep.alone halone fun _ _ _ _ _ _ _ _ _ => trivial, hstep.reports halone hreports⟩
  exact fun session hmem => (hboth session hmem).2

/-- Over all sessions: what was started is in flight, or was counted once more. -/
theorem total_inFlight (h : ∀ session ∈ s.sessions, Session.Phased session.stage) :
    s.total (·.counted.succeeded) + s.total (·.counted.failed) + s.total Session.inFlight =
        s.total (·.counted.started) ∧
      s.total Session.inFlight ≤ s.total Session.slot := by
  constructor
  · unfold total
    rw [← List.sum_map_add, ← List.sum_map_add]
    congr 1
    exact List.map_congr_left fun session hmem => (Session.inFlight_add (h session hmem)).1
  · exact List.sum_le_sum fun session hmem => (Session.inFlight_add (h session hmem)).2

end Runs

end Server

/-- What the counters of a server say of its sessions. -/
structure CountersTell {δ : Type} (service : EpubGrpc) (s : Server δ) : Prop where
  /-- Each counter is what the sessions come to. -/
  tallied : s.Tallied
  /-- A parse that was started is in flight, or was counted exactly once more. -/
  balance : s.counters.parsesStarted =
    s.counters.parsesSucceeded + s.counters.parsesFailed + .ofNat (s.total Session.inFlight)
  /-- No more are in flight than the slots that are taken. -/
  inFlight : s.total Session.inFlight + s.slots ≤ service.kept.maxConcurrentParses
  /-- The bytes of a session that got its slot are the bytes of its frames. -/
  complete : ∀ session ∈ s.sessions, ∀ u options bytes e,
    session.stage = .responding u options bytes e →
    session.reported = (contents session.frames).length
  /-- A session that was refused counts for nothing, unless it passed its cap. -/
  refused : ∀ session ∈ s.sessions, ∀ status instant, session.stage = .refused status instant →
    session.reported = 0 ∨ ∃ cap, status = .uploadTooLarge cap ∧ session.reported ≤ cap

/-- In every reachable state the counters are what the sessions have to show, modulo the word. -/
theorem counters_tell (π : Projection) (crates : Crates) (service : EpubGrpc)
    (timeouts : Timeouts) (actions : List Server.Action) (s : Server π.Document)
    (hrun : (Server.machine π crates service timeouts).Runs actions s) :
    CountersTell service s := by
  have htallied := Server.tallied_of_runs hrun
  obtain ⟨hsum, hle⟩ := Server.total_inFlight (Server.phased_of_runs hrun)
  have hslots : s.slots + s.total Session.slot = service.kept.maxConcurrentParses :=
    (Server.inv_of_runs hrun).slots
  refine ⟨htallied, ?_, by omega, ?_, ?_⟩
  · rw [htallied.started, htallied.succeeded, htallied.failed, ← UInt64.ofNat_add,
      ← UInt64.ofNat_add, hsum]
  · intro session hmem u options bytes e hstage
    obtain ⟨-, htaken, -⟩ := (Server.alone_of_runs hrun session hmem).responding hstage
    rw [htaken.contents]
    exact (Server.reports_of_runs hrun session hmem).answered hstage
  · intro session hmem status instant hstage
    have hreports := Server.reports_of_runs hrun session hmem
    rw [hstage] at hreports
    cases hreports with
    | refused h => exact h

theorem counters_tell_serving : ∃ s, Sample.server.Runs Sample.serving s ∧
    CountersTell Sample.service s := by
  have hrun : (Sample.server.exec Sample.server.start Sample.serving).isSome = true := by
    decide +kernel
  obtain ⟨s, hs⟩ := Option.isSome_iff_exists.mp hrun
  exact ⟨s, hs, counters_tell Sample.counting Sample.backwards.crates Sample.service .initial
    Sample.serving s hs⟩

end GrpcEpub
