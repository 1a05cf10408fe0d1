/-
# `GrpcEpub.Shares` — what the sessions of a server hold

Both semaphores, through whole runs of the server: a session holds its upload's
share from the first growth to the end of the call, and a slot from the moment
it has one until its supervisor is done.  Every way a session can end gives
both back, and an upload is refused its growth only by what others hold.

`Kept` is the law of one step: what a session gives up goes back to the semaphore it came from,
and what it takes has left it.  Summed over the sessions that is conservation.
-/
import GrpcEpub.Release
import GrpcEpub.Server

namespace GrpcEpub

namespace Session

variable {δ : Type}

def Stage.upload : Stage δ → Option Upload
  | .uploading u _ _ _ | .responding u _ _ _ => some u
  | .opening | .refused _ _ | .cancelled => none

/-- The permits of the upload budget a session holds. -/
def held (s : Session δ) : Nat := s.stage.upload.elim 0 Upload.held

/-- The parse slots a session holds. -/
def slot (s : Session δ) : Nat := s.stage.upload.elim 0 Upload.slot

/-- The bytes of upload buffer a session has allocated. -/
def capacity (s : Session δ) : Nat := s.stage.upload.elim 0 Upload.capacity

/-- The session's upload, if it has one, is within its means. -/
def Means (s : Session δ) : Prop :=
  ∀ u, s.stage.upload = some u → u.Sound ∧ u.maxDocumentBytes ≤ usizeMax

/-- One step: the session stays within its means, and no permit and no slot is
lost or made up. -/
structure Kept (available slots : Nat) (s : Session δ) (after : Moved δ) : Prop where
  means : after.session.Means
  permits : after.available + after.session.held = available + s.held
  slots : after.slots + after.session.slot = slots + s.slot

section Kept

variable {available slots : Nat} {s : Session δ} {after : Moved δ} {u u' : Upload}

/-- A step of the upload is accounted for as a step of its session. -/
theorem Kept.of_upload (hu : s.stage.upload = some u) (hu' : after.session.stage.upload = some u')
    (hcap : u.maxDocumentBytes ≤ usizeMax)
    (h : Upload.Kept available slots u after.available after.slots u') : Kept available slots s after
    where
  means := by
    intro v hv
    obtain rfl := Option.some.inj (hu'.symm.trans hv)
    exact ⟨h.sound, h.cap ▸ hcap⟩
  permits := by
    simp only [held, hu, hu', Option.elim_some]
    exact h.permits
  slots := by
    simp only [slot, hu, hu', Option.elim_some]
    exact h.slots

/-- A step of the upload is a step of the session. -/
theorem Kept.of_step {limits : Limits} {a : Upload.Action} (hmeans : s.Means)
    (hu : s.stage.upload = some u) (hu' : after.session.stage.upload = some u')
    (h : Upload.Step limits available slots u a (after.available, after.slots, u')) :
    Kept available slots s after := by
  obtain ⟨hsound, hcap⟩ := hmeans u hu
  exact .of_upload hu hu' hcap (hsound.step hcap h)

/-- So is its last one: an upload that is dropped takes nothing with it. -/
theorem Kept.of_drop {limits : Limits} {a : Upload.Action} (hmeans : s.Means)
    (hu : s.stage.upload = some u) (hnone : after.session.stage.upload = none)
    (h : Upload.Step limits available slots u a (after.available, after.slots, u.drop)) :
    Kept available slots s after := by
  obtain ⟨hsound, hcap⟩ := hmeans u hu
  have hkept := hsound.step hcap h
  refine ⟨?_, ?_, ?_⟩
  · intro v hv
    rw [hnone] at hv
    cases hv
  · simp only [held, hu, hnone, Option.elim_some, Option.elim_none]
    exact hkept.permits
  · simp only [slot, hu, hnone, Option.elim_some, Option.elim_none]
    exact hkept.slots

/-- A session without an upload has nothing to lose. -/
theorem Kept.of_none (hu : s.stage.upload = none) (hnone : after.session.stage.upload = none)
    (havailable : after.available = available) (hslots : after.slots = slots) :
    Kept available slots s after where
  means := by
    intro v hv
    rw [hnone] at hv
    cases hv
  permits := by simp only [held, hu, hnone, havailable]
  slots := by simp only [slot, hu, hnone, hslots]

end Kept

section Step

variable {π : Projection} {crates : Crates} {service : EpubGrpc} {available slots now : Nat}
  {s : Session π.Document}

/-- The first frame starts an upload that holds nothing, or none. -/
theorem opens_kept (hstage : s.stage = .opening) (incoming : Incoming) :
    Kept available slots s { available, slots, session := s.opens service.kept now incoming } := by
  have hu : s.stage.upload = none := by rw [hstage]; rfl
  cases incoming with
  | options options =>
      refine ⟨?_, by simp only [held, hu]; rfl, by simp only [slot, hu]; rfl⟩
      intro v hv
      obtain rfl := Option.some.inj hv
      exact ⟨⟨le_rfl, Nat.zero_le _, Nat.zero_le _, trivial⟩,
        Process.maxDocumentBytes_le service options⟩
  | chunk bytes framed => exact .of_none hu rfl rfl rfl
  | empty => exact .of_none hu rfl rfl rfl
  | closed => exact .of_none hu rfl rfl rfl
  | broken status => exact .of_none hu rfl rfl rfl

/-- The step lemma: what leaves one side arrives at the other. -/
theorem Step.kept {a : Action} {after : Moved π.Document} (hmeans : s.Means)
    (h : Step π crates service.kept available slots now s a after) :
    Kept available slots s after := by
  cases h with
  | opens hstage => exact opens_kept hstage _
  | expiresOpening hstage => exact .of_none (by rw [hstage]; rfl) rfl rfl rfl
  | cancelsOpening hstage => exact .of_none (by rw [hstage]; rfl) rfl rfl rfl
  | @takes u options bytes chunk incoming hstage hphase =>
      have hu : s.stage.upload = some u := by rw [hstage]; rfl
      have hstep : Upload.Step service.kept available slots u (.next incoming.next) _ := .next hphase
      exact .of_step hmeans hu rfl hstep
  | @expires u options bytes chunk hstage hphase hdue =>
      have hu : s.stage.upload = some u := by rw [hstage]; rfl
      have hstep : Upload.Step service.kept available slots u (.next (.error s.timer.status)) _ :=
        .next hphase
      exact .of_step hmeans hu rfl hstep
  | reserves hstage hstep => exact .of_step hmeans (by rw [hstage]; rfl) rfl hstep
  | grows hstage hstep => exact .of_step hmeans (by rw [hstage]; rfl) rfl hstep
  | @copies u options bytes chunk needed hstage hphase =>
      have hstep : Upload.Step service.kept available slots u .copy _ := .copy hphase
      exact .of_step hmeans (by rw [hstage]; rfl) rfl hstep
  | @fails u options bytes chunk status hstage hphase =>
      have hstep : Upload.Step service.kept available slots u .fail _ := .fail hphase
      exact .of_drop hmeans (by rw [hstage]; rfl) rfl hstep
  | @cancels u options bytes chunk hstage hphase =>
      have hstep : Upload.Step service.kept available slots u .cancel _ := .cancel hphase
      exact .of_drop hmeans (by rw [hstage]; rfl) rfl hstep
  | @takesSlot u options bytes chunk hstage hphase hfree =>
      have hstep : Upload.Step service.kept available slots u .takeSlot _ := .takeSlot hphase hfree
      exact .of_step hmeans (by rw [hstage]; rfl) rfl hstep
  | @responds u options bytes e e' action moved hstage hexchange hreleased =>
      have hu : s.stage.upload = some u := by rw [hstage]; rfl
      rcases released_cases hreleased with ⟨-, -, hphase, rfl⟩ | ⟨-, rfl⟩
      · have hstep : Upload.Step service.kept available slots u .threadReturns _ :=
          .threadReturns hphase
        exact .of_step hmeans hu rfl hstep
      · obtain ⟨hsound, hcap⟩ := hmeans u hu
        exact .of_upload hu rfl hcap ⟨hsound, rfl, rfl, rfl⟩
  | @dropsSlot u options bytes e hstage hdone hphase =>
      have hstep : Upload.Step service.kept available slots u .dropSlot _ := .dropSlot hphase
      exact .of_step hmeans (by rw [hstage]; rfl) rfl hstep
  | @dropsShare u options bytes e hstage hphase =>
      have hstep : Upload.Step service.kept available slots u .dropShare _ := .dropShare hphase
      exact .of_step hmeans (by rw [hstage]; rfl) rfl hstep

@[simp] theorem pass_stage (nanos : Nat) (s : Session δ) : (s.pass nanos).stage = s.stage := by
  unfold pass
  split <;> rfl

end Step

end Session

namespace Server

variable {π : Projection} {crates : Crates} {service : EpubGrpc} {timeouts : Timeouts}
  {s s' : Server π.Document} {actions : List Action}

/-- What every reachable server has: both semaphores balanced, and every
session within its means. -/
structure Inv (service : EpubGrpc) (s : Server π.Document) : Prop where
  permits : Permits.Balanced Session.held service.uploadPermits s.available s.sessions
  slots : Permits.Balanced Session.slot service.kept.maxConcurrentParses s.slots s.sessions
  sessions : ∀ session ∈ s.sessions, session.Means

theorem map_pass {share : Session π.Document → Nat} (nanos : Nat)
    (hshare : ∀ session, share (session.pass nanos) = share session)
    (sessions : List (Session π.Document)) :
    (sessions.map (Session.pass nanos)).map share = sessions.map share := by
  rw [List.map_map]
  exact List.map_congr_left fun session _ => hshare session

theorem Inv.step {a : Action} (h : Inv service s) (hstep : Step π crates service timeouts s a s') :
    Inv service s' := by
  cases hstep with
  | connect =>
      refine ⟨h.permits.enter rfl, h.slots.enter rfl, fun session hmem => ?_⟩
      rcases List.mem_append.mp hmem with hmem | hmem
      · exact h.sessions session hmem
      · rw [List.mem_singleton.mp hmem]
        intro u hu
        cases hu
  | @tick nanos hnow hdue =>
      refine ⟨?_, ?_, fun session hmem => ?_⟩
      · unfold Permits.Balanced
        rw [map_pass nanos fun session => by simp [Session.held]]
        exact h.permits
      · unfold Permits.Balanced
        rw [map_pass nanos fun session => by simp [Session.slot]]
        exact h.slots
      · obtain ⟨earlier, hearlier, rfl⟩ := List.mem_map.mp hmem
        intro u hu
        rw [Session.pass_stage] at hu
        exact h.sessions earlier hearlier u hu
  | session hsession hmoved =>
      have hkept := hmoved.kept (h.sessions _ (List.mem_of_getElem? hsession))
      exact ⟨h.permits.exchange hsession hkept.permits, h.slots.exchange hsession hkept.slots,
        Permits.forall_mem_set h.sessions hkept.means⟩

theorem inv_of_runs (h : (machine π crates service timeouts).Runs actions s) : Inv service s :=
  h.invariant ⟨.start _ _, .start _ _, List.forall_mem_nil _⟩ fun _ _ _ hs hstep =>
    hs.step (.of_step hstep)

end Server

/-! ## The response and its upload

The slot is given back by the supervisor, and the share at the end; `InStep` says how the phases
of the upload go with those of the exchange. -/

namespace Session

section Exchange

variable {δ : Type} {parsed : Parsed δ} {e e' : Exchange δ} {a : Exchange.Action}

/-- A thread that has stopped has done so for good. -/
theorem stopped_step (h : Exchange.Step parsed e a e') (hstopped : hasStopped e.thread = true) :
    e'.thread = e.thread := by
  have hrun : ∀ sent, e.thread ≠ .running sent := by
    rintro sent hthread
    rw [hthread] at hstopped
    cases hstopped
  have hwait : ∀ sent, e.thread ≠ .waiting sent := by
    rintro sent hthread
    rw [hthread] at hstopped
    cases hstopped
  cases h with
  | trySend hthread | finish hthread | crash hthread => exact absurd hthread (hrun _)
  | sendTimeout hthread | stall hthread => exact absurd hthread (hwait _)
  | join hthread hsupervisor =>
      unfold Exchange.join
      split <;> rfl
  | sendStatus hsupervisor hsent =>
      unfold Exchange.sendStatus at hsent
      repeat' split at hsent
      all_goals cases hsent
      all_goals rfl
  | read | disconnect | seeEnd => rfl

/-- What a step does to the supervisor, and when. -/
theorem supervisor_step (h : Exchange.Step parsed e a e') :
    (e'.supervisor = e.supervisor ∧ ∀ detail, a ≠ .join detail) ∨
      (∃ detail outcome, a = .join detail ∧ e.supervisor = .joining ∧
        e.thread = .stopped outcome ∧ e'.supervisor ≠ .joining) ∨
      ∃ status, e.supervisor = .reporting status ∧ e'.supervisor = .done := by
  cases h with
  | trySend hthread hevent => exact .inl ⟨Exchange.trySend_supervisor e _ _, nofun⟩
  | sendTimeout hthread hevent hsent => exact .inl ⟨Exchange.sendTimeout_supervisor hsent, nofun⟩
  | stall | finish | crash | read | disconnect | seeEnd => exact .inl ⟨rfl, nofun⟩
  | @join outcome detail hthread hsupervisor =>
      refine .inr (.inl ⟨detail, outcome, rfl, hsupervisor, hthread, ?_⟩)
      unfold Exchange.join
      split <;> nofun
  | @sendStatus status _ hsupervisor hsent =>
      refine .inr (.inr ⟨status, hsupervisor, ?_⟩)
      unfold Exchange.sendStatus at hsent
      repeat' split at hsent
      all_goals cases hsent
      all_goals rfl

end Exchange

/-- How far an upload is, against the response to it. -/
inductive InStep {δ : Type} (e : Exchange δ) : Upload.Phase → Prop
  | parsing : hasStopped e.thread = false → e.supervisor = .joining → InStep e .parsing
  | returned : hasStopped e.thread = true → InStep e .returned
  | unslotted : hasStopped e.thread = true → e.supervisor = .done → InStep e .unslotted
  | ended : hasStopped e.thread = true → e.supervisor = .done → InStep e .ended

/-- Whether an upload has had its slot. -/
def isSlotted : Upload.Phase → Bool
  | .parsing | .returned | .unslotted | .ended => true
  | _ => false

/-- An upload that is answered is in step with its response, and one that is
still coming has not had its slot. -/
inductive Phased {δ : Type} : Stage δ → Prop
  | opening : Phased .opening
  | uploading {u : Upload} {options : ParseOptions} {bytes chunk : Bytes} :
      isSlotted u.phase = false → Phased (.uploading u options bytes chunk)
  | responding {u : Upload} {options : ParseOptions} {bytes : Bytes} {e : Exchange δ} :
      InStep e u.phase → Phased (.responding u options bytes e)
  | refused {status : Status} {instant : Nat} : Phased (.refused status instant)
  | cancelled : Phased .cancelled

theorem Phased.inStep {δ : Type} {stage : Stage δ} {u : Upload} {options : ParseOptions}
    {bytes : Bytes} {e : Exchange δ} (h : Phased stage)
    (hstage : stage = .responding u options bytes e) : InStep e u.phase := by
  subst hstage
  cases h with
  | responding hphase => exact hphase

section Phased

variable {π : Projection} {crates : Crates} {kept : Limits} {available slots now : Nat}
  {s : Session π.Document}

/-- A frame leaves an upload ahead of its slot. -/
theorem frame_isSlotted (limits : Limits) (u : Upload) (hphase : u.phase = .receiving)
    (next : Upload.Next) : isSlotted (u.frame limits next).phase = false := by
  cases next with
  | chunk size =>
      simp only [Upload.frame]
      repeat' split
      all_goals rfl
  | empty =>
      simp only [Upload.frame, hphase]
      rfl
  | options | closed | error => rfl

/-- A response goes on, and its upload with it. -/
theorem responds_inStep {u : Upload} {e e' : Exchange π.Document} {parsed : Parsed π.Document}
    {a : Exchange.Action} {after : Nat × Nat × Upload} (h : InStep e u.phase)
    (hstep : Exchange.Step parsed e a e')
    (hreleased : released kept available slots u e e' = some after) :
    InStep e' after.2.2.phase := by
  rcases released_cases hreleased with ⟨-, hafter, -, rfl⟩ | ⟨hstays, rfl⟩
  · exact .returned hafter
  have hthread : hasStopped e.thread = true → hasStopped e'.thread = true :=
    fun hstopped => by rwa [stopped_step hstep hstopped]
  have hdone : e.supervisor = .done → e'.supervisor = .done := by
    intro hdone
    rcases supervisor_step hstep with ⟨hsame, -⟩ | ⟨-, -, -, hjoining, -⟩ | ⟨status, hreporting, -⟩
    · exact hsame.trans hdone
    · rw [hdone] at hjoining
      cases hjoining
    · rw [hdone] at hreporting
      cases hreporting
  show InStep e' u.phase
  generalize u.phase = phase at h ⊢
  cases h with
  | parsing hrunning hjoining =>
      refine .parsing (hstays.resolve_left (by rw [hrunning]; nofun)) ?_
      rcases supervisor_step hstep with ⟨hsame, -⟩ | ⟨-, outcome, -, -, hstopped, -⟩ |
        ⟨status, hreporting, -⟩
      · exact hsame.trans hjoining
      · rw [hstopped] at hrunning
        cases hrunning
      · rw [hjoining] at hreporting
        cases hreporting
  | returned hstopped => exact .returned (hthread hstopped)
  | unslotted hstopped hsupervisor => exact .unslotted (hthread hstopped) (hdone hsupervisor)
  | ended hstopped hsupervisor => exact .ended (hthread hstopped) (hdone hsupervisor)

/-- Each step of a session takes its upload to the phase that goes with it. -/
theorem Step.phased {a : Action} {after : Moved π.Document} (h : Phased s.stage)
    (hstep : Step π crates kept available slots now s a after) : Phased after.session.stage := by
  cases hstep with
  | @opens incoming hstage =>
      cases incoming with
      | options options => exact .uploading rfl
      | chunk | empty | closed | broken => exact .refused
  | expiresOpening | fails => exact .refused
  | cancelsOpening | cancels => exact .cancelled
  | takes hstage hphase => exact .uploading (frame_isSlotted kept _ hphase _)
  | expires | copies => exact .uploading rfl
  | reserves hstage hreserve => cases hreserve <;> exact .uploading rfl
  | grows hstage hgrow =>
      cases hgrow
      exact .uploading rfl
  | takesSlot hstage hphase hfree => exact .responding (.parsing rfl rfl)
  | responds hstage hexchange hreleased =>
      exact .responding (responds_inStep (h.inStep hstage) (.of_step hexchange) hreleased)
  | dropsSlot hstage hdone hphase =>
      have hinStep := h.inStep hstage
      rw [hphase] at hinStep
      cases hinStep with
      | returned hstopped => exact .responding (.unslotted hstopped hdone)
  | dropsShare hstage hphase =>
      have hinStep := h.inStep hstage
      rw [hphase] at hinStep
      cases hinStep with
      | unslotted hstopped hdone => exact .responding (.ended hstopped hdone)

end Phased

end Session

theorem Server.phased_of_runs {π : Projection} {crates : Crates} {service : EpubGrpc}
    {timeouts : Timeouts} {actions : List Server.Action} {s : Server π.Document}
    (h : (Server.machine π crates service timeouts).Runs actions s) :
    ∀ session ∈ s.sessions, Session.Phased session.stage := by
  refine Server.forall_sessions (P := fun _ session => Session.Phased session.stage) ?_ ?_ ?_ h
  · intro now hnow
    exact .opening
  · intro now nanos session hphased hdue
    rw [Session.pass_stage]
    exact hphased
  · intro available slots now session a after hnow hphased hstep
    exact hstep.phased hphased

/-! ## Two runs

Runs of a small server, for the witnesses of what is proved of every run. -/

def Sample.service : EpubGrpc where
  limits := .default
  documentBytes_le := by decide

def Sample.server : Machine (Server Sample.counting.Document) Server.Action :=
  Server.machine Sample.counting Sample.backwards.crates Sample.service .initial

/-- One call is served to the end, while another sends nothing and times out. -/
def Sample.serving : List Server.Action :=
  [.connect, .connect, .step 0 (.arrive (.options .default)), .tick nanosPerSecond,
    .step 0 (.arrive (.chunk Sample.backwards.bytes (by decide +kernel))), .step 0 .reserve,
    .tick (28 * nanosPerSecond), .step 0 .grow, .step 0 .copy, .tick nanosPerSecond,
    .step 1 .expire, .step 0 (.arrive .closed), .step 0 .takeSlot] ++
  (Sample.keepingUp 7).map fun action => .step 0 (.respond action)

/-- Two uploads that grow in turns, until the second has been refused its doubling. -/
def Sample.crowding : List Server.Action :=
  let arrive (call size : Nat) (framed : size ≤ u32Max) : List Server.Action :=
    [.step call (.arrive (.chunk (.replicate size 0) (List.length_replicate.trans_le framed))),
      .step call .reserve, .step call .grow, .step call .copy]
  [.connect, .connect, .step 0 (.arrive (.options .default)),
    .step 1 (.arrive (.options .default))] ++
  arrive 0 1500 (by decide) ++ arrive 1 1024 (by decide) ++ arrive 0 1600 (by decide) ++
    (arrive 1 1024 (by decide)).take 2

end GrpcEpub
