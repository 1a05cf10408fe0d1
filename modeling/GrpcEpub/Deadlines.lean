/-
# `GrpcEpub.Deadlines` — how long an upload may hold its share

Two clocks run while a session receives.  The idle timeout bounds one wait and
begins again with every frame, so a client that trickles its upload never meets
it; the upload timeout bounds the whole and does not begin again.  What the
server spends between two waits counts towards the deadline and against nobody:
it is added to what the client is allowed.

A session is told that its time is up only when it is, by the clock that ran
out first.

`Timed` is the invariant: it ties both clocks of a session to the instant.  `busy` is the time that
the server itself has spent on the session, and the deadline is later by that much.
-/
import GrpcEpub.Shares

namespace GrpcEpub

namespace UploadClock

theorem le_after (now wait : Nat) : now ≤ after now wait := by
  unfold after
  split <;> exact Nat.le_add_right _ _

/-- A wait too long to add to the clock is cut to a year, which is shorter. -/
theorem after_le {now : Nat} (hnow : now + forever ≤ instantMax) (wait : Nat) :
    after now wait ≤ now + wait := by
  unfold after
  split
  · exact le_rfl
  · omega

theorem nextFrame_due_le (self : UploadClock) (now : Nat) :
    (self.nextFrame now).due ≤ self.deadline ∧ (self.nextFrame now).due ≤ after now self.idle := by
  unfold nextFrame
  dsimp only
  split
  · rename_i hidle
    exact ⟨hidle.le, le_rfl⟩
  · rename_i hdeadline
    exact ⟨le_rfl, Nat.not_lt.mp hdeadline⟩

@[simp] theorem nextFrame_since (self : UploadClock) (now : Nat) :
    (self.nextFrame now).since = now := by
  unfold nextFrame
  dsimp only
  split <;> rfl

/-- A timer names the clock it is due by. -/
theorem nextFrame_status (self : UploadClock) (now : Nat) :
    (self.nextFrame now).status = .idleTimeout (self.idle / nanosPerMilli) ∧
        (self.nextFrame now).due = after now self.idle ∨
      (self.nextFrame now).status = .uploadTimeout (self.total / nanosPerMilli) ∧
        (self.nextFrame now).due = self.deadline := by
  unfold nextFrame
  dsimp only
  split
  · exact .inl ⟨rfl, rfl⟩
  · exact .inr ⟨rfl, rfl⟩

end UploadClock

namespace Session

variable {δ : Type}

/-- Whether the session is still receiving its upload, or its options. -/
def receives (s : Session δ) : Bool := s.waits || s.works

/-- The status a session has been or is about to be ended with, and since when. -/
inductive EndsWith (s : Session δ) (now : Nat) : Status → Nat → Prop
  | failing {u : Upload} {options : ParseOptions} {bytes chunk : Bytes} {status : Status} :
      s.stage = .uploading u options bytes chunk → u.phase = .failing status →
      EndsWith s now status now
  | refused {status : Status} {instant : Nat} : s.stage = .refused status instant →
      EndsWith s now status instant

/-- What the clocks and the timer of a session have to do with the instant. -/
structure Timed (timeouts : Timeouts) (now : Nat) (s : Session δ) : Prop where
  clock : s.clock = .start timeouts s.opened
  timer : s.timer = s.clock.nextFrame s.timer.since
  since : s.timer.since ≤ now
  opened : s.opened + forever ≤ instantMax
  whole : s.receives = true → now ≤ s.clock.deadline + s.busy
  frame : s.waits = true → now ≤ s.timer.due ∨ now = s.timer.since
  overdue : ∀ status instant, s.EndsWith now status instant → status.code = .deadlineExceeded →
    s.broken = some status ∨ s.timer.status = status ∧ s.timer.due ≤ instant

theorem waits_opening {s : Session δ} (h : s.stage = .opening) : s.waits = true := by
  unfold waits
  rw [h]

section Uploading

variable {s : Session δ} {u : Upload} {options : ParseOptions} {bytes chunk : Bytes}

theorem waits_uploading (h : s.stage = .uploading u options bytes chunk) :
    s.waits = (u.phase == .receiving) := by
  unfold waits
  rw [h]

theorem works_uploading (h : s.stage = .uploading u options bytes chunk) :
    s.works = (u.phase != .receiving && u.phase != .waiting) := by
  unfold works
  rw [h]

/-- An upload that is not waiting for its slot is receiving. -/
theorem receives_uploading (h : s.stage = .uploading u options bytes chunk) :
    s.receives = true ↔ u.phase ≠ .waiting := by
  rw [receives, waits_uploading h, works_uploading h]
  by_cases hreceiving : u.phase = .receiving
  · simp [hreceiving]
  · simp [hreceiving]

end Uploading

theorem receives_opening {s : Session δ} (h : s.stage = .opening) : s.receives = true := by
  rw [receives, waits_opening h, Bool.true_or]

section Timed

variable {timeouts : Timeouts} {now : Nat} {s : Session δ}

/-- A session that has just been opened. -/
theorem timed_start (timeouts : Timeouts) (hnow : now + forever ≤ instantMax) :
    (start (δ := δ) timeouts now).Timed timeouts now where
  clock := rfl
  timer := by simp only [start, UploadClock.nextFrame_since]
  since := by simp only [start, UploadClock.nextFrame_since, le_refl]
  opened := hnow
  whole := fun _ => (UploadClock.le_after now _).trans (Nat.le_add_right _ _)
  frame := fun _ => .inr (by simp only [start, UploadClock.nextFrame_since])
  overdue := by
    intro status instant h
    cases h with
    | failing hstage => cases hstage
    | refused hstage => cases hstage

/-- What the clocks need of a step that begins no wait. -/
theorem Timed.keep {s' : Session δ} (h : s.Timed timeouts now) (hclock : s'.clock = s.clock)
    (hopened : s'.opened = s.opened) (htimer : s'.timer = s.timer) (hbusy : s'.busy = s.busy)
    (hreceives : s'.receives = true → s.receives = true) (hwaits : s'.waits = true → s.waits = true)
    (hoverdue : ∀ status instant, s'.EndsWith now status instant →
      status.code = .deadlineExceeded →
      s'.broken = some status ∨ s'.timer.status = status ∧ s'.timer.due ≤ instant) :
    s'.Timed timeouts now where
  clock := by rw [hclock, hopened, h.clock]
  timer := by rw [htimer, hclock, ← h.timer]
  since := htimer ▸ h.since
  opened := hopened ▸ h.opened
  whole := fun hs' => by rw [hclock, hbusy]; exact h.whole (hreceives hs')
  frame := fun hs' => by rw [htimer]; exact h.frame (hwaits hs')
  overdue := hoverdue

/-- What they need of a step that begins one. -/
theorem Timed.rearm {s' : Session δ} (h : s.Timed timeouts now) (hclock : s'.clock = s.clock)
    (hopened : s'.opened = s.opened) (htimer : s'.timer = s.clock.nextFrame now)
    (hbusy : s'.busy = s.busy) (hreceives : s'.receives = true → s.receives = true)
    (hoverdue : ∀ status instant, s'.EndsWith now status instant →
      status.code = .deadlineExceeded →
      s'.broken = some status ∨ s'.timer.status = status ∧ s'.timer.due ≤ instant) :
    s'.Timed timeouts now where
  clock := by rw [hclock, hopened, h.clock]
  timer := by rw [htimer, hclock, UploadClock.nextFrame_since]
  since := by rw [htimer, UploadClock.nextFrame_since]
  opened := hopened ▸ h.opened
  whole := fun hs' => by rw [hclock, hbusy]; exact h.whole (hreceives hs')
  frame := fun _ => .inr (by rw [htimer, UploadClock.nextFrame_since])
  overdue := hoverdue

/-- Time passes: a wait goes on for as long as it is not due, and work is charged
to the server. -/
theorem Timed.pass {nanos : Nat} (h : s.Timed timeouts now)
    (hdue : s.waits = true → now + nanos ≤ s.timer.due) :
    (s.pass nanos).Timed timeouts (now + nanos) := by
  have hdeadline : s.timer.due ≤ s.clock.deadline := by
    rw [h.timer]
    exact (s.clock.nextFrame_due_le _).1
  unfold Session.pass
  split
  · rename_i hworks
    obtain ⟨u, options, bytes, chunk, hstage, hreceiving, hwaiting⟩ := works_iff.mp hworks
    refine ⟨h.clock, h.timer, h.since.trans (Nat.le_add_right _ _), h.opened, ?_, ?_, ?_⟩
    · intro _
      have hwhole := h.whole ((receives_uploading hstage).mpr hwaiting)
      dsimp only
      omega
    · intro hwaits
      have hstage' : ({ s with busy := s.busy + nanos } : Session δ).stage =
        .uploading u options bytes chunk := hstage
      rw [waits_uploading hstage', beq_iff_eq] at hwaits
      exact absurd hwaits hreceiving
    · intro status instant hends hcode
      cases hends with
      | failing hstage' hphase =>
          refine (h.overdue status now (.failing hstage' hphase) hcode).imp_right fun hlate => ?_
          exact ⟨hlate.1, hlate.2.trans (Nat.le_add_right _ _)⟩
      | refused hstage' => exact h.overdue status instant (.refused hstage') hcode
  · rename_i hworks
    refine ⟨h.clock, h.timer, h.since.trans (Nat.le_add_right _ _), h.opened, ?_, ?_, ?_⟩
    · intro hreceives
      have hwaits : s.waits = true := by
        rw [receives, Bool.or_eq_true] at hreceives
        exact hreceives.resolve_right hworks
      have := hdue hwaits
      omega
    · exact fun hwaits => .inl (hdue hwaits)
    · intro status instant hends hcode
      cases hends with
      | failing hstage' hphase =>
          refine (h.overdue status now (.failing hstage' hphase) hcode).imp_right fun hlate => ?_
          exact ⟨hlate.1, hlate.2.trans (Nat.le_add_right _ _)⟩
      | refused hstage' => exact h.overdue status instant (.refused hstage') hcode

/-- A frame ends an upload with the transport's status, or with none of the
clocks'. -/
theorem frame_failing {kept : Limits} {u : Upload} {incoming : Incoming} {status : Status}
    (hphase : u.phase = .receiving)
    (h : (u.frame kept incoming.next).phase = .failing status) :
    incoming.status = some status ∨ status.code ≠ .deadlineExceeded := by
  cases incoming with
  | options options =>
      cases h
      exact .inr fun h => by cases h
  | chunk bytes framed =>
      simp only [Incoming.next, Upload.frame] at h
      split at h
      · cases h
        exact .inr fun h => by cases h
      · split at h
        · cases h
          exact .inr fun h => by cases h
        · split at h <;> cases h
  | empty =>
      simp only [Incoming.next, Upload.frame, hphase] at h
      cases h
  | closed => cases h
  | broken other =>
      cases h
      exact .inl rfl

/-- A reservation ends an upload for want of budget only, and a growth never. -/
theorem moved_failing {limits : Limits} {available slots : Nat} {u : Upload} {a : Upload.Action}
    {after : Nat × Nat × Upload} {status : Status} (ha : a = .reserve ∨ a = .grow)
    (h : Upload.Step limits available slots u a after)
    (hfailing : after.2.2.phase = .failing status) : status.code ≠ .deadlineExceeded := by
  cases h with
  | refused hphase hrefused =>
      cases hfailing
      nofun
  | doubled | undoubled | granted | grow => cases hfailing
  | next | copy | fail | cancel | takeSlot | threadReturns | dropSlot | dropShare =>
      rcases ha with ha | ha <;> cases ha

end Timed

section Step

variable {π : Projection} {crates : Crates} {kept : Limits} {timeouts : Timeouts}
  {available slots now : Nat} {s : Session π.Document}

/-- The first frame starts the clock of the next. -/
theorem opens_timed (h : s.Timed timeouts now) (hstage : s.stage = .opening)
    (incoming : Incoming) : (s.opens kept now incoming).Timed timeouts now := by
  have hreceives : ∀ s' : Session π.Document, s'.receives = true → s.receives = true :=
    fun _ _ => receives_opening hstage
  have hwaits : ∀ s' : Session π.Document, s'.waits = true → s.waits = true :=
    fun _ _ => waits_opening hstage
  cases incoming with
  | options options =>
      refine h.rearm rfl rfl rfl rfl (hreceives _) ?_
      intro status instant hends hcode
      cases hends with
      | failing hstage' hphase =>
          cases hstage'
          cases hphase
      | refused hstage' => cases hstage'
  | chunk | empty | closed =>
      refine h.keep rfl rfl rfl rfl (hreceives _) (hwaits _) ?_
      intro status instant hends hcode
      cases hends with
      | failing hstage' hphase => cases hstage'
      | refused hstage' =>
          cases hstage'
          cases hcode
  | broken other =>
      refine h.keep rfl rfl rfl rfl (hreceives _) (hwaits _) ?_
      intro status instant hends hcode
      cases hends with
      | failing hstage' hphase => cases hstage'
      | refused hstage' =>
          cases hstage'
          exact .inl rfl

/-- A frame is in, and the clock of the next one begins. -/
theorem takes_timed {u : Upload} {options : ParseOptions} {bytes chunk : Bytes}
    (h : s.Timed timeouts now) (hstage : s.stage = .uploading u options bytes chunk)
    (hphase : u.phase = .receiving) (incoming : Incoming) :
    (s.takes kept now u options bytes incoming).Timed timeouts now := by
  refine h.rearm rfl rfl rfl rfl (fun _ => (receives_uploading hstage).mpr ?_) ?_
  · rw [hphase]
    nofun
  intro status instant hends hcode
  cases hends with
  | failing hstage' hfailing =>
      cases hstage'
      exact .inl ((frame_failing hphase hfailing).resolve_right (not_not.mpr hcode))
  | refused hstage' => cases hstage'

/-- A step of the upload that neither takes a frame nor lets go of it. -/
theorem moved_timed {u : Upload} {options : ParseOptions} {bytes chunk : Bytes}
    {a : Upload.Action} {after : Nat × Nat × Upload} (h : s.Timed timeouts now)
    (hstage : s.stage = .uploading u options bytes chunk) (ha : a = .reserve ∨ a = .grow)
    (hstep : Upload.Step kept available slots u a after) :
    (s.moved (.uploading · options bytes chunk) after).session.Timed timeouts now := by
  have hworking : u.phase ≠ .waiting ∧ after.2.2.phase ≠ .receiving := by
    rcases ha with rfl | rfl
    · cases hstep with
      | doubled hphase | undoubled hphase | granted hphase | refused hphase =>
          rw [hphase]
          exact ⟨nofun, nofun⟩
    · cases hstep with
      | grow hphase =>
          rw [hphase]
          exact ⟨nofun, nofun⟩
  refine h.keep rfl rfl rfl rfl (fun _ => (receives_uploading hstage).mpr hworking.1) ?_ ?_
  · intro hwaits
    have hstage' : (s.moved (.uploading · options bytes chunk) after).session.stage =
      .uploading after.2.2 options bytes chunk := rfl
    rw [waits_uploading hstage', beq_iff_eq] at hwaits
    exact absurd hwaits hworking.2
  · intro status instant hends hcode
    cases hends with
    | failing hstage' hfailing =>
        cases hstage'
        exact absurd hcode (moved_failing ha hstep hfailing)
    | refused hstage' => cases hstage'

/-- The step lemma: each step of a session, by what it does to the two clocks. -/
theorem Step.timed {a : Action} {after : Moved π.Document} (h : s.Timed timeouts now)
    (hstep : Step π crates kept available slots now s a after) :
    after.session.Timed timeouts now := by
  -- a session whose response is open, or that has left, is told nothing by a clock
  have hover : ∀ {s' : Session π.Document}, s'.receives = false →
      (∀ status instant, s'.stage ≠ .refused status instant) →
      ∀ status instant, s'.EndsWith now status instant → status.code = .deadlineExceeded →
        s'.broken = some status ∨ s'.timer.status = status ∧ s'.timer.due ≤ instant := by
    intro s' hreceives hrefused status instant hends _
    cases hends with
    | failing hstage' hphase =>
        have := (receives_uploading hstage').mpr (by rw [hphase]; nofun)
        rw [hreceives] at this
        cases this
    | refused hstage' => exact absurd hstage' (hrefused _ _)
  cases hstep with
  | opens hstage => exact opens_timed h hstage _
  | expiresOpening hstage hdue =>
      refine h.keep rfl rfl rfl rfl nofun nofun ?_
      intro status instant hends _
      cases hends with
      | failing hstage' hphase => cases hstage'
      | refused hstage' =>
          cases hstage'
          exact .inr ⟨rfl, hdue⟩
  | cancelsOpening hstage =>
      exact h.keep rfl rfl rfl rfl nofun nofun (hover rfl nofun)
  | takes hstage hphase => exact takes_timed h hstage hphase _
  | @expires u options bytes chunk hstage hphase hdue =>
      refine h.keep rfl rfl rfl rfl (fun _ => (receives_uploading hstage).mpr ?_)
        (fun _ => ?_) ?_
      · rw [hphase]
        nofun
      · rw [waits_uploading hstage, hphase]
        rfl
      · intro status instant hends _
        cases hends with
        | failing hstage' hfailing =>
            cases hstage'
            cases hfailing
            exact .inr ⟨rfl, hdue⟩
        | refused hstage' => cases hstage'
  | reserves hstage hreserve => exact moved_timed h hstage (.inl rfl) hreserve
  | grows hstage hgrow => exact moved_timed h hstage (.inr rfl) hgrow
  | copies hstage hphase =>
      refine h.rearm rfl rfl rfl rfl (fun _ => (receives_uploading hstage).mpr ?_) ?_
      · rw [hphase]
        nofun
      · intro status instant hends _
        cases hends with
        | failing hstage' hfailing =>
            cases hstage'
            cases hfailing
        | refused hstage' => cases hstage'
  | fails hstage hphase =>
      refine h.keep rfl rfl rfl rfl nofun nofun ?_
      intro status instant hends hcode
      cases hends with
      | failing hstage' _ => cases hstage'
      | refused hstage' =>
          cases hstage'
          exact h.overdue _ _ (.failing hstage hphase) hcode
  | cancels hstage hphase => exact h.keep rfl rfl rfl rfl nofun nofun (hover rfl nofun)
  | takesSlot hstage hphase hfree =>
      exact h.keep rfl rfl rfl rfl nofun nofun (hover rfl nofun)
  | responds hstage hexchange hreleased =>
      exact h.keep rfl rfl rfl rfl nofun nofun (hover rfl nofun)
  | dropsSlot hstage hdone hphase =>
      exact h.keep rfl rfl rfl rfl nofun nofun (hover rfl nofun)
  | dropsShare hstage hphase => exact h.keep rfl rfl rfl rfl nofun nofun (hover rfl nofun)

end Step

end Session

/-! ## Runs

The clock of a server moves for all of its sessions at once. -/

theorem Server.timed_of_runs {π : Projection} {crates : Crates} {service : EpubGrpc}
    {timeouts : Timeouts} {actions : List Server.Action} {s : Server π.Document}
    (h : (Server.machine π crates service timeouts).Runs actions s) :
    ∀ session ∈ s.sessions, session.Timed timeouts s.now :=
  Server.forall_sessions (P := fun now session => session.Timed timeouts now)
    (fun _ hnow => Session.timed_start timeouts hnow)
    (fun _ _ _ htimed hdue => htimed.pass hdue)
    (fun _ _ _ _ _ _ _ htimed hstep => hstep.timed htimed) h

/-- What a server promises of the time a session takes. -/
structure OnTime {δ : Type} (timeouts : Timeouts) (now : Nat) (session : Session δ) : Prop where
  /-- As long as its upload is not in, a session has been open no longer than the
  upload timeout, and what the server itself took. -/
  whole : session.receives = true → now ≤ session.opened + timeouts.upload + session.busy
  /-- No frame is waited for longer than the idle timeout. -/
  frame : session.waits = true → now ≤ session.timer.since + timeouts.idle
  /-- Unless its transport said so, a session is refused by a clock only when that
  clock has run out: the idle timeout since its last wait began, the upload timeout
  since it was opened. -/
  refused : ∀ status instant, session.stage = .refused status instant →
    status.code = .deadlineExceeded → session.broken ≠ some status →
    status = .idleTimeout (timeouts.idle / nanosPerMilli) ∧
        UploadClock.after session.timer.since timeouts.idle ≤ instant ∨
      status = .uploadTimeout (timeouts.upload / nanosPerMilli) ∧
        UploadClock.after session.opened timeouts.upload ≤ instant

/-- The invariant, read for a client: when it can have been cut off, and when it must have been. -/
theorem sessions_on_time (π : Projection) (crates : Crates) (service : EpubGrpc)
    (timeouts : Timeouts) (actions : List Server.Action) (s : Server π.Document)
    (hrun : (Server.machine π crates service timeouts).Runs actions s) :
    ∀ session ∈ s.sessions, OnTime timeouts s.now session := by
  intro session hmem
  obtain ⟨hclock, htimer, hsince, hopened, hwhole, hframe, hoverdue⟩ :=
    Server.timed_of_runs hrun session hmem
  have hnow := Server.now_le hrun
  have hidle : session.clock.idle = timeouts.idle := by rw [hclock]; rfl
  have htotal : session.clock.total = timeouts.upload := by rw [hclock]; rfl
  have hdeadline : session.clock.deadline = UploadClock.after session.opened timeouts.upload := by
    rw [hclock]
    rfl
  refine ⟨fun hreceives => ?_, fun hwaits => ?_, fun status instant hstage hcode hbroken => ?_⟩
  · have := hwhole hreceives
    have := UploadClock.after_le hopened timeouts.upload
    omega
  · rcases hframe hwaits with hdue | hstart
    · refine hdue.trans ?_
      rw [htimer]
      refine (UploadClock.nextFrame_due_le _ _).2.trans ?_
      rw [hidle, UploadClock.nextFrame_since]
      exact UploadClock.after_le (by omega) _
    · omega
  · obtain ⟨hstatus, hdue⟩ :=
      (hoverdue status instant (.refused hstage) hcode).resolve_left hbroken
    rw [htimer] at hstatus hdue
    rcases session.clock.nextFrame_status session.timer.since with ⟨hname, hat⟩ | ⟨hname, hat⟩
    · rw [hname, hidle] at hstatus
      rw [hat, hidle] at hdue
      exact .inl ⟨hstatus.symm, hdue⟩
    · rw [hname, htotal] at hstatus
      rw [hat, hdeadline] at hdue
      exact .inr ⟨hstatus.symm, hdue⟩

theorem sessions_on_time_serving : ∃ s, Sample.server.Runs Sample.serving s ∧
    ∀ session ∈ s.sessions, OnTime .initial s.now session := by
  have hrun : (Sample.server.exec Sample.server.start Sample.serving).isSome = true := by
    decide +kernel
  obtain ⟨s, hs⟩ := Option.isSome_iff_exists.mp hrun
  exact ⟨s, hs, sessions_on_time Sample.counting Sample.backwards.crates Sample.service
    .initial Sample.serving s hs⟩

end GrpcEpub
