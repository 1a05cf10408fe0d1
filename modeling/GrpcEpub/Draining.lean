/-
# `GrpcEpub.Draining` — a server that is left alone

What a server does by itself comes to an end: there is so much of each response
to send, each wait ends by its timer, and a slot that is given back is given
back once.  When its clients do nothing more and no timer is due, every session
is in one of a few places.  One of them holds a slot: the supervisor that has
a failure to report to a client that is there and has stopped reading.  A call
that has its upload in waits for a slot only behind such clients, as many of
them as there are slots.

`rank` counts the steps that a session still has in it while its client does nothing but read.
Every step of the server lowers the rank of one session and leaves the others where they are, so a
run of such steps has an end, and at its end each session `Rests`.
-/
import GrpcEpub.Deadlines
import GrpcEpub.Tallies
import GrpcEpub.Lib.Settling

namespace GrpcEpub

/-! ## What is left to do

The rank of a session, from those of its thread, its supervisor and its upload. -/

namespace Session

/-- The steps of a session that are the server's, its timers included. -/
def Action.ofServer : Action → Bool
  | .arrive _ | .cancel => false
  | .respond action => action.ofServer
  | .expire | .reserve | .grow | .copy | .fail | .takeSlot | .dropSlot | .dropShare => true

/-- The server's steps, and those of a client that reads. -/
def Action.ofReader (a : Action) : Prop := a.ofServer = true ∨ a = .respond .read

def threadRank (events : Nat) : Thread → Nat
  | .running sent => 3 * (events - sent) + 2
  | .waiting sent => 3 * (events - sent) + 1
  | .stopped _ => 0

def supervisorRank : Supervisor → Nat
  | .joining => 3
  | .reporting _ => 2
  | .done => 0

/-- What a response has before it: a message counts until it has been read. -/
def exchangeRank {δ : Type} (parsed : Parsed δ) (e : Exchange δ) : Nat :=
  threadRank parsed.events.length e.thread + supervisorRank e.supervisor + e.channel.length

/-- What an upload has before it: a response, when it has its slot. -/
def phaseRank (response : Nat) : Upload.Phase → Nat
  | .receiving => 2
  | .failing _ => 1
  | .copying _ => 3
  | .growing _ _ => 4
  | .exact _ => 5
  | .doubling _ => 6
  | .waiting => response
  | .parsing => 3
  | .returned => 2
  | .unslotted => 1
  | .ended => 0

section Rank

variable (π : Projection) (crates : Crates) (kept : Limits)

/-- The steps a session can take with a client that only reads, at most. -/
def rank (s : Session π.Document) : Nat :=
  match s.stage with
  | .opening => 1
  | .uploading u options bytes _ =>
      phaseRank (3 * (answer π crates kept options bytes).events.length + 9) u.phase
  | .responding u options bytes e =>
      exchangeRank (answer π crates kept options bytes) e + phaseRank 0 u.phase
  | .refused _ _ | .cancelled => 0

end Rank

/-- Each step of the exchange lowers its rank: an event is sent, a message read, or a party done. -/
theorem exchange_falls {δ : Type} {parsed : Parsed δ} {e e' : Exchange δ} {a : Exchange.Action}
    (h : Exchange.Step parsed e a e') (hreader : a.ofServer = true ∨ a = .read) :
    exchangeRank parsed e' < exchangeRank parsed e := by
  unfold exchangeRank
  cases h with
  | @trySend sent event hthread hevent =>
      have hlt := (List.getElem?_eq_some_iff.mp hevent).1
      rw [Exchange.trySend_supervisor, hthread]
      unfold Exchange.trySend
      repeat' split
      all_goals
        simp only [threadRank, List.length_append, List.length_singleton]
        omega
  | @sendTimeout sent event _ hthread hevent hsent =>
      have hlt := (List.getElem?_eq_some_iff.mp hevent).1
      rw [Exchange.sendTimeout_supervisor hsent, hthread]
      unfold Exchange.sendTimeout at hsent
      repeat' split at hsent
      all_goals cases hsent
      all_goals
        simp only [threadRank, List.length_append, List.length_singleton]
        omega
  | stall hthread | finish hthread | crash hthread =>
      rw [hthread]
      dsimp only [threadRank]
      omega
  | @join outcome detail hthread hsupervisor =>
      rw [hsupervisor]
      unfold Exchange.join
      split
      all_goals
        dsimp only [supervisorRank]
        omega
  | @sendStatus status _ hsupervisor hsent =>
      rw [hsupervisor]
      unfold Exchange.sendStatus at hsent
      repeat' split at hsent
      all_goals cases hsent
      all_goals
        simp only [supervisorRank, List.length_append, List.length_singleton]
        omega
  | read hconnected hchannel =>
      rw [hchannel, List.length_cons]
      exact Nat.lt_succ_self _
  | disconnect | seeEnd => rcases hreader with hserver | hread <;> contradiction

section Falls

variable {π : Projection} {crates : Crates} {kept : Limits} {available slots now : Nat}
  {s : Session π.Document}

/-- The same of a session, whose phases are ranked above its exchange. -/
theorem Step.falls {a : Action} {after : Moved π.Document}
    (hstep : Step π crates kept available slots now s a after) (hreader : a.ofReader) :
    after.session.rank π crates kept < s.rank π crates kept := by
  cases hstep with
  | opens | takes | cancelsOpening | cancels =>
      rcases hreader with hserver | hread <;> contradiction
  | expiresOpening hstage =>
      simp only [rank, hstage]
      exact Nat.one_pos
  | expires hstage hphase | copies hstage hphase | fails hstage hphase =>
      simp only [rank, hstage, hphase, phaseRank]
      decide
  | reserves hstage hreserve =>
      cases hreserve with
      | doubled hphase | undoubled hphase | granted hphase | refused hphase =>
          simp only [rank, moved, hstage, hphase, phaseRank]
          decide
  | grows hstage hgrow =>
      cases hgrow with
      | grow hphase =>
          simp only [rank, moved, hstage, hphase, phaseRank]
          decide
  | takesSlot hstage hphase hfree =>
      simp only [rank, hstage, hphase, phaseRank, exchangeRank, threadRank, supervisorRank,
        List.length_nil]
      omega
  | responds hstage hexchange hreleased =>
      have hfalls := exchange_falls (.of_step hexchange)
        (hreader.imp_right fun hread => Action.respond.inj hread)
      simp only [rank, moved, hstage]
      rcases released_cases hreleased with ⟨-, -, hphase, rfl⟩ | ⟨-, rfl⟩
      · simp only [hphase, phaseRank]
        omega
      · exact Nat.add_lt_add_right hfalls _
  | dropsSlot hstage hdone hphase =>
      simp only [rank, hstage, hphase, phaseRank]
      omega
  | dropsShare hstage hphase =>
      simp only [rank, hstage, hphase, phaseRank, Upload.drop]
      omega

end Falls

/-! ## Where a session comes to rest

Stage by stage: the step that a session would have if it did not rest. -/

/-- Where a session has no step of its own: at its client, behind a full server,
or at its end. -/
inductive Rests {δ : Type} (now slots : Nat) (s : Session δ) : Prop
  | opening : s.stage = .opening → now < s.timer.due → Rests now slots s
  | receiving {u : Upload} {options : ParseOptions} {bytes chunk : Bytes} :
      s.stage = .uploading u options bytes chunk → u.phase = .receiving → now < s.timer.due →
      Rests now slots s
  | queued {u : Upload} {options : ParseOptions} {bytes chunk : Bytes} :
      s.stage = .uploading u options bytes chunk → u.phase = .waiting → slots = 0 →
      Rests now slots s
  | blocked {u : Upload} {options : ParseOptions} {bytes : Bytes} {e : Exchange δ} :
      s.stage = .responding u options bytes e → u.phase = .returned → e.Blocked →
      Rests now slots s
  | answered {u : Upload} {options : ParseOptions} {bytes : Bytes} {e : Exchange δ} :
      s.stage = .responding u options bytes e → u.phase = .ended → Rests now slots s
  | refused {status : Status} {instant : Nat} : s.stage = .refused status instant →
      Rests now slots s
  | cancelled : s.stage = .cancelled → Rests now slots s

section Rests

variable {π : Projection} {crates : Crates} {kept : Limits} {available slots now : Nat}
  {s : Session π.Document} {u : Upload} {options : ParseOptions} {bytes chunk : Bytes}

/-- An upload that is neither at its client nor waiting for a slot has a step. -/
theorem uploading_rests (hstage : s.stage = .uploading u options bytes chunk)
    (hphase : isSlotted u.phase = false)
    (hstuck : ∀ a : Action, a.ofServer = true →
      s.step π crates kept available slots now a = none) : Rests now slots s := by
  cases hu : u.phase with
  | receiving =>
      refine .receiving hstage hu (Nat.not_le.mp fun hdue => ?_)
      have hexpire := hstuck .expire rfl
      simp only [step, hstage, if_pos hdue, Upload.step, hu] at hexpire
      cases hexpire
  | doubling needed =>
      have hreserve := hstuck .reserve rfl
      simp only [step, hstage, Upload.step, hu] at hreserve
      split at hreserve <;> cases hreserve
  | exact needed =>
      have hreserve := hstuck .reserve rfl
      simp only [step, hstage, Upload.step, hu] at hreserve
      split at hreserve <;> cases hreserve
  | growing needed target =>
      have hgrow := hstuck .grow rfl
      simp only [step, hstage, Upload.step, hu] at hgrow
      cases hgrow
  | copying needed =>
      have hcopy := hstuck .copy rfl
      simp only [step, hstage, Upload.step, hu] at hcopy
      cases hcopy
  | failing status =>
      have hfail := hstuck .fail rfl
      simp only [step, hstage, Upload.step, hu] at hfail
      cases hfail
  | waiting =>
      refine .queued hstage hu ?_
      by_contra hfree
      have htake := hstuck .takeSlot rfl
      simp only [step, hstage, Upload.step, hu, if_neg hfree] at htake
      cases htake
  | parsing | returned | unslotted | ended =>
      rw [hu] at hphase
      cases hphase

/-- Where the session of a response is stuck, the response is. -/
theorem respond_stuck {e : Exchange π.Document} (hstage : s.stage = .responding u options bytes e)
    (hupload : u.phase = .parsing ∨ hasStopped e.thread = true) {a : Exchange.Action}
    (hstuck : s.step π crates kept available slots now (.respond a) = none) :
    Exchange.step (answer π crates kept options bytes) e a = none := by
  simp only [step, hstage] at hstuck
  split at hstuck
  · rename_i e' hexchange
    rw [Option.map_eq_none_iff, released] at hstuck
    split at hstuck
    · rename_i hstops
      have hphase := hupload.resolve_right (by rw [hstops.1]; exact Bool.false_ne_true)
      simp only [Upload.step, hphase] at hstuck
      cases hstuck
    · cases hstuck
  · assumption

/-- A thread that has not returned has a step, unless it waits behind the end. -/
theorem thread_moves {δ : Type} {parsed : Parsed δ} {e : Exchange δ}
    (hrunning : hasStopped e.thread = false)
    (hwaiting : ∀ sent, e.thread = .waiting sent → sent < parsed.events.length) :
    ∃ a : Exchange.Action, a.ofServer = true ∧ Exchange.step parsed e a ≠ none := by
  cases hthread : e.thread with
  | running sent =>
      by_cases hmore : sent < parsed.events.length
      · refine ⟨.trySend, rfl, ?_⟩
        simp only [Exchange.step, hthread, List.getElem?_eq_getElem hmore]
        exact Option.some_ne_none _
      · refine ⟨.finish, rfl, ?_⟩
        simp only [Exchange.step, hthread, if_pos (Nat.not_lt.mp hmore)]
        exact Option.some_ne_none _
  | waiting sent =>
      have hmore := hwaiting sent hthread
      by_cases hfull : e.connected = true ∧ outboundBuffer ≤ e.channel.length
      · refine ⟨.stall, rfl, ?_⟩
        simp only [Exchange.step, hthread, if_pos hfull]
        exact Option.some_ne_none _
      · refine ⟨.sendTimeout, rfl, ?_⟩
        simp only [Exchange.step, hthread, List.getElem?_eq_getElem hmore, Option.bind_some,
          Exchange.sendTimeout]
        split
        · rename_i hconnected
          rw [if_pos (Nat.not_le.mp fun h => hfull ⟨hconnected, h⟩)]
          exact Option.some_ne_none _
        · exact Option.some_ne_none _
  | stopped outcome =>
      rw [hthread] at hrunning
      cases hrunning

/-- A response that has no step left is at its end, or behind a client that has stopped reading. -/
theorem responding_rests {e : Exchange π.Document}
    (hstage : s.stage = .responding u options bytes e) (hphase : InStep e u.phase)
    (hwaiting : ∀ sent, e.thread = .waiting sent →
      sent < (answer π crates kept options bytes).events.length)
    (hstuck : ∀ a : Action, a.ofServer = true →
      s.step π crates kept available slots now a = none) : Rests now slots s := by
  generalize hu : u.phase = phase at hphase
  cases hphase with
  | parsing hrunning hjoining =>
      obtain ⟨a, hserver, hmoves⟩ := thread_moves hrunning hwaiting
      exact absurd (respond_stuck hstage (.inl hu) (hstuck (.respond a) hserver)) hmoves
  | returned hstopped =>
      by_cases hdone : e.supervisor = .done
      · have hdrop := hstuck .dropSlot rfl
        simp only [step, hstage, if_pos hdone, Upload.step, hu] at hdrop
        cases hdrop
      have hhostage : Exchange.Hostage (answer π crates kept options bytes) e :=
        ⟨hasStopped_iff.mp hstopped, hdone, fun a hserver =>
          respond_stuck hstage (.inr hstopped) (hstuck (.respond a) hserver)⟩
      exact .blocked hstage hu (Exchange.hostage_iff.mp hhostage)
  | unslotted hstopped hdone =>
      have hdrop := hstuck .dropShare rfl
      simp only [step, hstage, Upload.step, hu] at hdrop
      cases hdrop
  | ended hstopped hdone => exact .answered hstage hu

end Rests

end Session

/-- A thread that waits in a send has an event to send. -/
theorem Exchange.waiting_lt {δ : Type} {parsed : Parsed δ} {actions : List Exchange.Action}
    {e : Exchange δ} (h : (Exchange.machine parsed).Runs actions e) :
    ∀ sent, e.thread = .waiting sent → sent < parsed.events.length := by
  refine h.invariant (I := fun e => ∀ sent, e.thread = .waiting sent →
    sent < parsed.events.length) (fun sent hthread => by cases hthread) ?_
  intro e a e' he hstep sent hthread'
  cases Exchange.Step.of_step hstep with
  | @trySend sent' event hthread hevent =>
      unfold Exchange.trySend at hthread'
      repeat' split at hthread'
      all_goals cases hthread'
      exact (List.getElem?_eq_some_iff.mp hevent).1
  | sendTimeout hthread hevent hsent =>
      unfold Exchange.sendTimeout at hsent
      repeat' split at hsent
      all_goals cases hsent
      all_goals cases hthread'
  | stall | finish | crash => cases hthread'
  | join hthread hsupervisor =>
      unfold Exchange.join at hthread'
      split at hthread' <;> exact he sent hthread'
  | sendStatus hsupervisor hsent =>
      unfold Exchange.sendStatus at hsent
      repeat' split at hsent
      all_goals cases hsent
      all_goals exact he sent hthread'
  | read | disconnect | seeEnd => exact he sent hthread'

/-! ## The server at rest

Slots and permits are summed over the sessions, and only some of those that rest hold any. -/

namespace Server

/-- The steps of a server that are its own. -/
def Action.ofServer : Action → Bool
  | .connect | .tick _ => false
  | .step _ action => action.ofServer

/-- The steps of a server, and of clients that read. -/
def Action.ofReader (a : Action) : Prop :=
  a.ofServer = true ∨ ∃ i, a = .step i (.respond .read)

theorem Action.ofReader_step {i : Nat} {action : Session.Action}
    (h : (Action.step i action).ofReader) : action.ofReader := by
  rcases h with hserver | ⟨j, hread⟩
  · exact .inl hserver
  · injection hread with hi hread
    exact .inr hread

section Rest

variable {π : Projection} {crates : Crates} {service : EpubGrpc} {timeouts : Timeouts}
  {s s' : Server π.Document} {actions : List Action}

/-- The steps a server can take with clients that only read, at most. -/
def work (π : Projection) (crates : Crates) (service : EpubGrpc) (s : Server π.Document) : Nat :=
  s.total (Session.rank π crates service.kept)

/-- No step of the server, and no read of a client, can go on for ever. -/
theorem falls (π : Projection) (crates : Crates) (service : EpubGrpc) (timeouts : Timeouts) :
    (machine π crates service timeouts).Falls Action.ofReader (work π crates service) := by
  intro before s a s' hruns hreader hstep
  cases Step.of_step hstep with
  | connect | tick =>
      rcases hreader with hserver | ⟨i, hread⟩
      · cases hserver
      · cases hread
  | @session i action session after hsession hmoved =>
      have hfalls := hmoved.falls (Action.ofReader_step hreader)
      have hsum := Permits.sum_map_set (Session.rank π crates service.kept) after.session hsession
      change ((s.sessions.set i after.session).map _).sum < (s.sessions.map _).sum
      omega

theorem falls_alone (π : Projection) (crates : Crates) (service : EpubGrpc) (timeouts : Timeouts) :
    (machine π crates service timeouts).Falls (·.ofServer = true) (work π crates service) :=
  fun before s a s' hruns hserver hstep =>
    falls π crates service timeouts before s a s' hruns (.inl hserver) hstep

/-- A session that has settled rests. -/
theorem rests_of_settled (hrun : (machine π crates service timeouts).Runs actions s)
    (hsettled : (machine π crates service timeouts).Settled (·.ofServer = true) s) :
    ∀ session ∈ s.sessions, session.Rests s.now s.slots := by
  intro session hmem
  obtain ⟨i, hsession⟩ := List.mem_iff_getElem?.mp hmem
  have hphased := phased_of_runs hrun session hmem
  have hstuck : ∀ a : Session.Action, a.ofServer = true →
      session.step π crates service.kept s.available s.slots s.now a = none := by
    intro a hserver
    have hnone := hsettled (.step i a) hserver
    change step π crates service timeouts s (.step i a) = none at hnone
    simp only [step, hsession] at hnone
    split at hnone
    · cases hnone
    · assumption
  cases hstage : session.stage with
  | opening =>
      refine .opening hstage (Nat.not_le.mp fun hdue => ?_)
      have hexpire := hstuck .expire rfl
      simp only [Session.step, hstage, if_pos hdue] at hexpire
      cases hexpire
  | uploading u options bytes chunk =>
      rw [hstage] at hphased
      cases hphased with
      | uploading hphase => exact Session.uploading_rests hstage hphase hstuck
  | responding u options bytes e =>
      obtain ⟨-, -, exchanged, hruns⟩ := (alone_of_runs hrun session hmem).responding hstage
      exact Session.responding_rests hstage (hphased.inStep hstage)
        (Exchange.waiting_lt hruns) hstuck
  | refused status instant => exact .refused hstage
  | cancelled => exact .cancelled hstage

end Rest

end Server

namespace Session

variable {δ : Type}

/-- The client has stopped reading, and there is a failure to report to it. -/
def IsBlocked (s : Session δ) : Prop :=
  ∃ u options bytes e, s.stage = .responding u options bytes e ∧ e.Blocked

/-- The upload is in, and there is no slot for it. -/
def IsQueued (s : Session δ) : Prop :=
  ∃ u options bytes chunk, s.stage = .uploading u options bytes chunk ∧ u.phase = .waiting

/-- The session was answered or ended, and has let go of everything. -/
def IsOver (s : Session δ) : Prop :=
  (∃ u options bytes e, s.stage = .responding u options bytes e ∧ u.phase = .ended) ∨
    (∃ status instant, s.stage = .refused status instant) ∨ s.stage = .cancelled

section Rests

variable {s : Session δ} {now slots : Nat}

theorem slot_of_stage {u : Upload} (h : s.stage.upload = some u) : s.slot = u.slot := by
  rw [slot, h]
  rfl

theorem slot_of_none (h : s.stage.upload = none) : s.slot = 0 := by
  rw [slot, h]
  rfl

/-- Of the sessions at rest, the blocked ones hold slots. -/
theorem Rests.blocked_of_slot (h : s.Rests now slots) (hslot : s.slot ≠ 0) : s.IsBlocked := by
  cases h with
  | blocked hstage hphase hblocked => exact ⟨_, _, _, _, hstage, hblocked⟩
  | opening hstage | refused hstage | cancelled hstage =>
      exact absurd (slot_of_none (by rw [hstage]; rfl)) hslot
  | @receiving u _ _ _ hstage hphase | @queued u _ _ _ hstage hphase
  | @answered u _ _ _ hstage hphase =>
      have hnone : u.slot = 0 := by rw [Upload.slot, hphase]
      have hupload : s.stage.upload = some u := by rw [hstage]; rfl
      exact absurd ((slot_of_stage hupload).trans hnone) hslot

/-- With a slot to be had, and no client to wait for, a session at rest is over. -/
theorem Rests.over (h : s.Rests now slots) (hslots : slots ≠ 0) (hblocked : ¬ s.IsBlocked)
    (hdue : s.timer.due ≤ now) : s.IsOver := by
  cases h with
  | opening hstage hearly => exact absurd hdue (Nat.not_le.mpr hearly)
  | receiving hstage hphase hearly => exact absurd hdue (Nat.not_le.mpr hearly)
  | queued hstage hphase hnone => exact absurd hnone hslots
  | blocked hstage hphase hheld => exact absurd ⟨_, _, _, _, hstage, hheld⟩ hblocked
  | answered hstage hphase => exact .inl ⟨_, _, _, _, hstage, hphase⟩
  | refused hstage => exact .inr (.inl ⟨_, _, hstage⟩)
  | cancelled hstage => exact .inr (.inr hstage)

/-- A session that is over holds no share. -/
theorem IsOver.held (h : s.IsOver) (hmeans : s.Means) : s.held = 0 := by
  unfold Session.held
  rcases h with ⟨u, options, bytes, e, hstage, hphase⟩ | ⟨status, instant, hstage⟩ | hstage
  · have hupload : s.stage.upload = some u := by rw [hstage]; rfl
    have hready := (hmeans u hupload).1.ready
    rw [hphase] at hready
    rw [hupload]
    exact hready
  · rw [hstage]
    rfl
  · rw [hstage]
    rfl

end Rests

end Session

/-- A server with no step of its own left. -/
structure AtRest {δ : Type} (service : EpubGrpc) (s : Server δ) : Prop where
  rests : ∀ session ∈ s.sessions, session.Rests s.now s.slots
  /-- Only clients that have stopped reading hold slots. -/
  slots : ∀ session ∈ s.sessions, session.slot ≠ 0 → session.IsBlocked
  /-- Only where these hold all of them, a call waits for one. -/
  queued : ∀ session ∈ s.sessions, session.IsQueued →
    s.total Session.slot = service.kept.maxConcurrentParses
  /-- Where there are none, once every deadline is past, all calls are over and
  everything has been given back. -/
  drained : service.kept.maxConcurrentParses ≠ 0 → (∀ session ∈ s.sessions, ¬ session.IsBlocked) →
    (∀ session ∈ s.sessions, session.clock.deadline ≤ s.now) →
    (∀ session ∈ s.sessions, session.IsOver) ∧ s.available = service.uploadPermits ∧
      s.slots = service.kept.maxConcurrentParses

/-- Where every session rests, each slot is accounted for. -/
theorem Server.atRest_of_settled {π : Projection} {crates : Crates} {service : EpubGrpc}
    {timeouts : Timeouts} {actions : List Server.Action} {s : Server π.Document}
    (hrun : (Server.machine π crates service timeouts).Runs actions s)
    (hsettled : (Server.machine π crates service timeouts).Settled (·.ofServer = true) s) :
    AtRest service s := by
  have hrests := Server.rests_of_settled hrun hsettled
  have hinv := Server.inv_of_runs hrun
  have hslots : s.slots + s.total Session.slot = service.kept.maxConcurrentParses := hinv.slots
  refine ⟨hrests, fun session hmem => (hrests session hmem).blocked_of_slot, ?_, ?_⟩
  · rintro session hmem ⟨u, options, bytes, chunk, hstage, hphase⟩
    have hnone : s.slots = 0 := by
      cases hrests session hmem with
      | queued hstage' hphase' hnone => exact hnone
      | receiving hstage' hphase' =>
          cases hstage.symm.trans hstage'
          rw [hphase] at hphase'
          cases hphase'
      | opening hstage' | blocked hstage' | answered hstage' | refused hstage'
      | cancelled hstage' => cases hstage.symm.trans hstage'
    omega
  · intro hsome hblocked hdeadlines
    have hfree : s.slots = service.kept.maxConcurrentParses := by
      refine hinv.slots.all_available fun session hmem => ?_
      by_contra hslot
      exact hblocked session hmem ((hrests session hmem).blocked_of_slot hslot)
    have hover : ∀ session ∈ s.sessions, session.IsOver := by
      intro session hmem
      refine (hrests session hmem).over (hfree ▸ hsome) (hblocked session hmem) ?_
      refine le_trans ?_ (hdeadlines session hmem)
      rw [(Server.timed_of_runs hrun session hmem).timer]
      exact (session.clock.nextFrame_due_le _).1
    refine ⟨hover, ?_, hfree⟩
    exact hinv.permits.all_available fun session hmem =>
      (hover session hmem).held (hinv.sessions session hmem)

/-- From any reachable state, a server that its clients leave alone comes to
rest, in so many steps at most, whatever order it takes them in. -/
theorem server_comes_to_rest (π : Projection) (crates : Crates) (service : EpubGrpc)
    (timeouts : Timeouts) (actions : List Server.Action) (s : Server π.Document)
    (hrun : (Server.machine π crates service timeouts).Runs actions s) :
    (∀ as s', (∀ a ∈ as, a.ofServer = true) →
      (Server.machine π crates service timeouts).exec s as = some s' →
      as.length + s'.work π crates service ≤ s.work π crates service ∧
      ((Server.machine π crates service timeouts).Settled (·.ofServer = true) s' →
        AtRest service s')) ∧
    ∃ as s', (∀ a ∈ as, a.ofServer = true) ∧
      (Server.machine π crates service timeouts).exec s as = some s' ∧
      (Server.machine π crates service timeouts).Settled (·.ofServer = true) s' ∧
      AtRest service s' := by
  have hfalls := Server.falls_alone π crates service timeouts
  refine ⟨fun as s' hown hexec => ⟨hfalls.length_add_le hown hrun hexec, fun hsettled => ?_⟩, ?_⟩
  · exact Server.atRest_of_settled (hrun.append hexec) hsettled
  · obtain ⟨as, s', hown, hexec, hsettled⟩ := hfalls.settles hrun
    exact ⟨as, s', hown, hexec, hsettled, Server.atRest_of_settled (hrun.append hexec) hsettled⟩

theorem server_comes_to_rest_serving : ∃ s, Sample.server.Runs Sample.serving s ∧
    (∀ as s', (∀ a ∈ as, a.ofServer = true) → Sample.server.exec s as = some s' →
      as.length + s'.work Sample.counting Sample.backwards.crates Sample.service ≤
        s.work Sample.counting Sample.backwards.crates Sample.service ∧
      (Sample.server.Settled (·.ofServer = true) s' → AtRest Sample.service s')) ∧
    ∃ as s', (∀ a ∈ as, a.ofServer = true) ∧ Sample.server.exec s as = some s' ∧
      Sample.server.Settled (·.ofServer = true) s' ∧ AtRest Sample.service s' := by
  have hrun : (Sample.server.exec Sample.server.start Sample.serving).isSome = true := by
    decide +kernel
  obtain ⟨s, hs⟩ := Option.isSome_iff_exists.mp hrun
  exact ⟨s, hs, server_comes_to_rest Sample.counting Sample.backwards.crates Sample.service
    .initial Sample.serving s hs⟩

/-! ## Clients that read

With such clients no supervisor is stuck, so no slot is taken and no upload waits for one. -/

/-- A client that reads is not stopped reading. -/
theorem Server.not_blocked_of_settled {π : Projection} {crates : Crates} {service : EpubGrpc}
    {timeouts : Timeouts} {s : Server π.Document}
    (hsettled : (Server.machine π crates service timeouts).Settled Server.Action.ofReader s) :
    ∀ session ∈ s.sessions, ¬ session.IsBlocked := by
  rintro session hmem ⟨u, options, bytes, e, hstage, -, -, hconnected, hfull⟩
  obtain ⟨i, hsession⟩ := List.mem_iff_getElem?.mp hmem
  have hnone := hsettled (.step i (.respond .read)) (.inr ⟨i, rfl⟩)
  change Server.step π crates service timeouts s (.step i (.respond .read)) = none at hnone
  cases hchannel : e.channel with
  | nil =>
      rw [hchannel] at hfull
      cases hfull
  | cons message rest =>
      have hread : Exchange.step (Session.answer π crates service.kept options bytes) e .read =
          some { e with channel := rest, received := e.received ++ [message] } := by
        simp only [Exchange.step, hconnected, hchannel]
      have hreleased : Session.released service.kept s.available s.slots u e
          { e with channel := rest, received := e.received ++ [message] } =
            some (s.available, s.slots, u) := by
        refine if_neg ?_
        rintro ⟨hbefore, hafter⟩
        rw [hbefore] at hafter
        cases hafter
      simp only [Server.step, hsession, Session.step, hstage, hread, hreleased] at hnone
      cases hnone

/-- A server at rest whose clients read whatever there is to read. -/
structure Answered {δ : Type} (service : EpubGrpc) (s : Server δ) : Prop where
  /-- No slot is taken. -/
  slots : s.slots = service.kept.maxConcurrentParses
  /-- With a slot to be had, every call is over or waits for a frame, with time left. -/
  calls : service.kept.maxConcurrentParses ≠ 0 → ∀ session ∈ s.sessions,
    session.IsOver ∨ session.waits = true ∧ s.now < session.timer.due
  /-- Once every deadline is past, the whole budget has been given back. -/
  drained : service.kept.maxConcurrentParses ≠ 0 →
    (∀ session ∈ s.sessions, session.clock.deadline ≤ s.now) →
    s.available = service.uploadPermits

/-- With slots to be had and a client that reads, what rests is over or waits for a frame. -/
theorem Session.Rests.over_or_waits {δ : Type} {s : Session δ} {now slots : Nat}
    (h : s.Rests now slots) (hslots : slots ≠ 0) (hblocked : ¬ s.IsBlocked) :
    s.IsOver ∨ s.waits = true ∧ now < s.timer.due := by
  by_cases hdue : s.timer.due ≤ now
  · exact .inl (h.over hslots hblocked hdue)
  cases h with
  | opening hstage hearly => exact .inr ⟨Session.waits_opening hstage, hearly⟩
  | receiving hstage hphase hearly =>
      refine .inr ⟨?_, hearly⟩
      rw [Session.waits_uploading hstage, hphase]
      rfl
  | queued hstage hphase hnone => exact absurd hnone hslots
  | blocked hstage hphase hheld => exact absurd ⟨_, _, _, _, hstage, hheld⟩ hblocked
  | answered hstage hphase => exact .inl (.inl ⟨_, _, _, _, hstage, hphase⟩)
  | refused hstage => exact .inl (.inr (.inl ⟨_, _, hstage⟩))
  | cancelled hstage => exact .inl (.inr (.inr hstage))

/-- A server at rest has answered every client that reads. -/
theorem Server.answered_of_settled {π : Projection} {crates : Crates} {service : EpubGrpc}
    {timeouts : Timeouts} {actions : List Server.Action} {s : Server π.Document}
    (hrun : (Server.machine π crates service timeouts).Runs actions s)
    (hsettled : (Server.machine π crates service timeouts).Settled Server.Action.ofReader s) :
    Answered service s := by
  have hblocked := Server.not_blocked_of_settled hsettled
  have hrest := Server.atRest_of_settled hrun fun a hserver => hsettled a (.inl hserver)
  have hslots : s.slots = service.kept.maxConcurrentParses := by
    refine (Server.inv_of_runs hrun).slots.all_available fun session hmem => ?_
    by_contra hslot
    exact hblocked session hmem (hrest.slots session hmem hslot)
  refine ⟨hslots, fun hsome session hmem => ?_, fun hsome hdeadlines => ?_⟩
  · exact (hrest.rests session hmem).over_or_waits (hslots ▸ hsome) (hblocked session hmem)
  · exact (hrest.drained hsome hblocked hdeadlines).2.1

/-- From any reachable state, with clients that send no more but read what there
is, every call that has its upload in is answered, and no call keeps another
from being so. -/
theorem readers_are_answered (π : Projection) (crates : Crates) (service : EpubGrpc)
    (timeouts : Timeouts) (actions : List Server.Action) (s : Server π.Document)
    (hrun : (Server.machine π crates service timeouts).Runs actions s) :
    (∀ as s', (∀ a ∈ as, a.ofReader) →
      (Server.machine π crates service timeouts).exec s as = some s' →
      as.length + s'.work π crates service ≤ s.work π crates service ∧
      ((Server.machine π crates service timeouts).Settled Server.Action.ofReader s' →
        Answered service s')) ∧
    ∃ as s', (∀ a ∈ as, a.ofReader) ∧
      (Server.machine π crates service timeouts).exec s as = some s' ∧
      (Server.machine π crates service timeouts).Settled Server.Action.ofReader s' ∧
      Answered service s' := by
  have hfalls := Server.falls π crates service timeouts
  refine ⟨fun as s' hown hexec => ⟨hfalls.length_add_le hown hrun hexec, fun hsettled => ?_⟩, ?_⟩
  · exact Server.answered_of_settled (hrun.append hexec) hsettled
  · obtain ⟨as, s', hown, hexec, hsettled⟩ := hfalls.settles hrun
    exact ⟨as, s', hown, hexec, hsettled, Server.answered_of_settled (hrun.append hexec) hsettled⟩

theorem readers_are_answered_serving : ∃ s, Sample.server.Runs Sample.serving s ∧
    (∀ as s', (∀ a ∈ as, a.ofReader) → Sample.server.exec s as = some s' →
      as.length + s'.work Sample.counting Sample.backwards.crates Sample.service ≤
        s.work Sample.counting Sample.backwards.crates Sample.service ∧
      (Sample.server.Settled Server.Action.ofReader s' → Answered Sample.service s')) ∧
    ∃ as s', (∀ a ∈ as, a.ofReader) ∧ Sample.server.exec s as = some s' ∧
      Sample.server.Settled Server.Action.ofReader s' ∧ Answered Sample.service s' := by
  have hrun : (Sample.server.exec Sample.server.start Sample.serving).isSome = true := by
    decide +kernel
  obtain ⟨s, hs⟩ := Option.isSome_iff_exists.mp hrun
  exact ⟨s, hs, readers_are_answered Sample.counting Sample.backwards.crates Sample.service
    .initial Sample.serving s hs⟩

end GrpcEpub
