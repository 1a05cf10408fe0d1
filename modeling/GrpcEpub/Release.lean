/-
# `GrpcEpub.Release` — when a call gives back its slot and its share

The supervisor keeps the slot permit and the upload's share until it is done.
A call that completed or was abandoned is done as soon as it is joined.  One
that failed or panicked has a status to send first, and that send waits for a
free slot of the channel for as long as it takes: no timer is behind it, unlike
the thread's own sends.  So a call is stuck exactly when it is joined, with a
status to report, on a full channel of a client that is still there.
-/
import GrpcEpub.Endings

namespace GrpcEpub

namespace Exchange

variable {δ : Type} {parsed : Parsed δ} {s s' : Exchange δ}

/-- The steps of the server, its timers included.  The others are the client's. -/
def Action.ofServer : Action → Bool
  | .read | .disconnect | .seeEnd => false
  | _ => true

/-- The thread has returned, slot and share are still held, and the server has
no step to take. -/
structure Hostage (parsed : Parsed δ) (s : Exchange δ) : Prop where
  returned : ∃ outcome, s.thread = .stopped outcome
  held : s.supervisor ≠ .done
  stuck : ∀ a : Action, a.ofServer = true → step parsed s a = none

/-- There is room for the status of a parse that has one, or nobody to tell. -/
def Roomy (s : Exchange δ) (detail : Str) : Prop :=
  ∀ outcome, s.thread = .stopped outcome → (closing detail outcome).isSome = true →
    s.connected = true → s.channel.length < outboundBuffer

/-- The channel is full, and the supervisor is in its last send. -/
structure Blocked (s : Exchange δ) : Prop where
  returned : ∃ outcome, s.thread = .stopped outcome
  reporting : ∃ status, s.supervisor = .reporting status
  connected : s.connected = true
  full : outboundBuffer ≤ s.channel.length

/-- Held forever, where the client does nothing, is to be blocked now. -/
theorem hostage_iff : Hostage parsed s ↔ Blocked s := by
  constructor
  · rintro ⟨⟨outcome, hthread⟩, hheld, hstuck⟩
    cases hsupervisor : s.supervisor with
    | joining =>
        -- a returned thread can always be joined
        have hjoin := hstuck (.join []) rfl
        simp only [step, hthread, hsupervisor] at hjoin
        cases hjoin
    | reporting status =>
        have hsend := hstuck .sendStatus rfl
        simp only [step, hsupervisor, sendStatus] at hsend
        split at hsend
        · rename_i hconnected
          split at hsend
          · cases hsend
          · rename_i hfull
            exact ⟨⟨outcome, hthread⟩, ⟨status, hsupervisor⟩, hconnected, Nat.not_lt.mp hfull⟩
        · cases hsend
    | done => exact absurd hsupervisor hheld
  · rintro ⟨⟨outcome, hthread⟩, ⟨status, hsupervisor⟩, hconnected, hfull⟩
    have hheld : s.supervisor ≠ .done := by
      rw [hsupervisor]
      exact Supervisor.noConfusion
    refine ⟨⟨outcome, hthread⟩, hheld, ?_⟩
    intro a hserver
    by_contra henabled
    obtain ⟨s', hs'⟩ := Option.ne_none_iff_exists'.mp henabled
    cases Step.of_step hs' with
    | trySend h | finish h | crash h =>
        rw [hthread] at h
        cases h
    | sendTimeout h | stall h =>
        rw [hthread] at h
        cases h
    | join h hjoining =>
        rw [hsupervisor] at hjoining
        cases hjoining
    | sendStatus h hsent =>
        simp only [sendStatus, hconnected, if_true, if_neg (Nat.not_lt.mpr hfull)] at hsent
        cases hsent
    | read | disconnect | seeEnd => cases hserver

/-! ## Runs

Room for the status when a failed call is joined is still there when the status is sent, since the
thread has stopped by then. -/

/-- What holds as long as every failed call is joined with room for its status. -/
structure Free (s : Exchange δ) : Prop where
  returned : s.supervisor ≠ .joining → ∃ outcome, s.thread = .stopped outcome
  room : (∃ status, s.supervisor = .reporting status) → s.connected = true →
    s.channel.length < outboundBuffer

/-- A thread that has not stopped is one that has not been joined. -/
theorem Free.joining (h : Free s) (hthread : ∀ outcome, s.thread ≠ .stopped outcome) :
    s.supervisor = .joining := by
  by_contra hne
  obtain ⟨outcome, hstopped⟩ := h.returned hne
  exact hthread outcome hstopped

/-- Before the join nothing is asked of the channel. -/
theorem free_of_joining (h : s.supervisor = .joining) : Free s where
  returned := fun hne => absurd h hne
  room := fun ⟨status, hreporting⟩ => by
    rw [h] at hreporting
    cases hreporting

theorem trySend_supervisor (s : Exchange δ) (sent : Nat) (event : Event δ) :
    (s.trySend sent event).supervisor = s.supervisor := by
  unfold trySend
  repeat' split
  all_goals rfl

theorem sendTimeout_supervisor {sent : Nat} {event : Event δ}
    (h : s.sendTimeout sent event = some s') : s'.supervisor = s.supervisor := by
  unfold sendTimeout at h
  repeat' split at h
  all_goals cases h
  all_goals rfl

theorem Free.join {outcome : Outcome} {detail : Str} (hthread : s.thread = .stopped outcome)
    (hroom : s.Roomy detail) : Free (s.join detail outcome) := by
  unfold Exchange.join
  cases hclosing : closing detail outcome with
  | some status =>
      refine ⟨fun _ => ⟨outcome, hthread⟩, fun _ hconnected => ?_⟩
      exact hroom outcome hthread (by rw [hclosing]; rfl) hconnected
  | none =>
      refine ⟨fun _ => ⟨outcome, hthread⟩, ?_⟩
      rintro ⟨status, hreporting⟩
      cases hreporting

/-- One step, as long as a failed call is joined with room for its status. -/
theorem Free.step {a : Action} (h : Free s) (hroom : ∀ detail, a = .join detail → s.Roomy detail)
    (hstep : Step parsed s a s') : Free s' := by
  cases hstep with
  | trySend hthread hevent =>
      refine free_of_joining ?_
      rw [trySend_supervisor]
      exact h.joining (by rw [hthread]; nofun)
  | sendTimeout hthread hevent hsent =>
      refine free_of_joining ?_
      rw [sendTimeout_supervisor hsent]
      exact h.joining (by rw [hthread]; nofun)
  | stall hthread hthere hfull => exact free_of_joining (h.joining (by rw [hthread]; nofun))
  | finish hthread hall => exact free_of_joining (h.joining (by rw [hthread]; nofun))
  | crash hthread => exact free_of_joining (h.joining (by rw [hthread]; nofun))
  | join hthread hsupervisor => exact .join hthread (hroom _ rfl)
  | sendStatus hsupervisor hsent =>
      have hreturned := h.returned (by rw [hsupervisor]; nofun)
      unfold Exchange.sendStatus at hsent
      repeat' split at hsent
      all_goals cases hsent
      all_goals
        refine ⟨fun _ => hreturned, ?_⟩
        rintro ⟨status, hreporting⟩
        cases hreporting
  | read hthere hchannel =>
      refine ⟨h.returned, fun hreporting hconnected => ?_⟩
      have hlt := h.room hreporting hconnected
      rw [hchannel] at hlt
      exact Nat.lt_of_succ_lt hlt
  | disconnect hthere =>
      refine ⟨h.returned, fun _ hconnected => ?_⟩
      cases hconnected
  | seeEnd hthere hchannel hsupervisor => exact ⟨h.returned, h.room⟩

/-- A call joined without room for its status is stuck from then on. -/
theorem blocked_of_join {detail : Str} (hstep : Exchange.step parsed s (.join detail) = some s')
    (hroom : ¬ s.Roomy detail) : Blocked s' := by
  unfold Roomy at hroom
  push Not at hroom
  obtain ⟨outcome, hthread, hsome, hconnected, hfull⟩ := hroom
  cases Step.of_step hstep with
  | join hthread' hsupervisor =>
      obtain rfl := Thread.stopped.inj (hthread.symm.trans hthread')
      obtain ⟨status, hclosing⟩ := Option.isSome_iff_exists.mp hsome
      unfold Exchange.join
      rw [hclosing]
      exact ⟨⟨outcome, hthread⟩, ⟨status, rfl⟩, hconnected, hfull⟩

/-! ## Which calls can be held

A call that fails can be held if there are enough events in front to fill the channel. -/

section Filling

/-- A client that has read so many events, of a thread that has sent some more. -/
def ahead (parsed : Parsed δ) (read sent : Nat) : Exchange δ where
  thread := .running (read + sent)
  channel := ((parsed.events.drop read).take sent).map .event
  received := (parsed.events.take read).map .event

/-- As long as there is room, the thread is ahead of its reader. -/
theorem ahead_trySend {read sent : Nat} (hroom : sent < outboundBuffer)
    (hmore : read + sent < parsed.events.length) :
    Exchange.step parsed (ahead parsed read sent) .trySend = some (ahead parsed read (sent + 1)) := by
  have hevent : (parsed.events.drop read)[sent]? = some (parsed.events[read + sent]) := by
    rw [List.getElem?_drop, List.getElem?_eq_getElem hmore]
  have hlength : (((parsed.events.drop read).take sent).map Message.event).length = sent := by
    rw [List.length_map, List.length_take, List.length_drop]
    omega
  have hchannel : ((parsed.events.drop read).take (sent + 1)).map Message.event =
      ((parsed.events.drop read).take sent).map .event ++
        [.event (parsed.events[read + sent])] := by
    rw [List.take_add_one, hevent, Option.toList_some, List.map_append]
    rfl
  simp only [Exchange.step, ahead, List.getElem?_eq_getElem hmore, Option.map_some, trySend,
    hlength, if_pos hroom, if_true, hchannel]
  rfl

theorem ahead_read {read : Nat} (hmore : read < parsed.events.length) :
    Exchange.step parsed (ahead parsed read 1) .read = some (ahead parsed (read + 1) 0) := by
  have hdrop : (parsed.events.drop read).take 1 = [parsed.events[read]] := by
    rw [List.drop_eq_getElem_cons hmore, List.take_succ_cons, List.take_zero]
  have htake : (parsed.events.take (read + 1)).map Message.event =
      (parsed.events.take read).map .event ++ [.event parsed.events[read]] := by
    rw [List.take_add_one, List.getElem?_eq_getElem hmore, Option.toList_some, List.map_append]
    rfl
  simp only [Exchange.step, ahead, hdrop, htake]
  rfl

theorem runs_step {as : List Action} {a : Action} (hruns : (machine parsed).Runs as s)
    (hstep : Exchange.step parsed s a = some s') : (machine parsed).Runs (as ++ [a]) s' :=
  Machine.runs_concat.mpr ⟨s, hruns, hstep⟩

/-- A client that reads each of the first events as it comes. -/
theorem runs_reading : ∀ read, read ≤ parsed.events.length →
    (machine parsed).Runs (List.replicate read [Action.trySend, .read]).flatten
      (ahead parsed read 0)
  | 0, _ => rfl
  | read + 1, hle => by
      have ih := runs_reading read (Nat.le_of_succ_le hle)
      rw [List.replicate_succ', List.flatten_append]
      have hsent := runs_step ih (ahead_trySend (by decide : 0 < outboundBuffer) hle)
      have hread := runs_step hsent (ahead_read hle)
      rwa [List.append_assoc] at hread

/-- A client that has stopped reading, until the channel is full. -/
theorem runs_filling {read : Nat} : ∀ sent, sent ≤ outboundBuffer →
    read + sent ≤ parsed.events.length →
    (machine parsed).Runs ((List.replicate read [Action.trySend, .read]).flatten ++
      List.replicate sent .trySend) (ahead parsed read sent)
  | 0, _, hle => by simpa using runs_reading read hle
  | sent + 1, hroom, hle => by
      have ih := runs_filling sent (Nat.le_of_succ_le hroom) (Nat.le_of_succ_le hle)
      rw [List.replicate_succ', ← List.append_assoc]
      exact runs_step ih (ahead_trySend hroom hle)

end Filling

theorem ahead_finish {read sent : Nat} (hall : read + sent = parsed.events.length) :
    Exchange.step parsed (ahead parsed read sent) .finish =
      some { ahead parsed read sent with thread := .stopped parsed.outcome } :=
  if_pos hall.ge

theorem join_reporting {outcome : Outcome} {detail : Str} {status : Status}
    (hthread : s.thread = .stopped outcome) (hsupervisor : s.supervisor = .joining)
    (hclosing : closing detail outcome = some status) :
    Exchange.step parsed s (.join detail) = some { s with supervisor := .reporting status } := by
  simp only [Exchange.step, hthread, hsupervisor, Exchange.join, hclosing]

/-- Whether there is a status to send does not depend on the panic's payload. -/
theorem closing_isSome (detail detail' : Str) (outcome : Outcome) :
    (closing detail outcome).isSome = true ↔ (closing detail' outcome).isSome = true := by
  cases outcome <;> exact Iff.rfl

/-- A thread that never panicked between two events stopped as its parse did, or
at a client that was gone. -/
theorem stopped_of_calm {actions : List Action} (hruns : (machine parsed).Runs actions s)
    (hcalm : ∀ panic, .crash panic ∉ actions) {outcome : Outcome}
    (hthread : s.thread = .stopped outcome) : outcome = .abandoned ∨ outcome = parsed.outcome := by
  refine hruns.invariant_where
    (I := fun s => ∀ outcome, s.thread = .stopped outcome →
      outcome = .abandoned ∨ outcome = parsed.outcome)
    (G := fun _ a => ∀ panic, a ≠ .crash panic) ?start ?step ?good outcome hthread
  case start =>
    intro outcome hstopped
    cases hstopped
  case step =>
    intro s a s' h hgood hstep outcome hstopped
    cases Step.of_step hstep with
    | trySend hthread hevent =>
        unfold Exchange.trySend at hstopped
        repeat' split at hstopped
        all_goals cases hstopped
        exact .inl rfl
    | sendTimeout hthread hevent hsent =>
        unfold Exchange.sendTimeout at hsent
        repeat' split at hsent
        all_goals cases hsent
        all_goals cases hstopped
        exact .inl rfl
    | stall hthread hthere hfull =>
        cases hstopped
        exact .inl rfl
    | finish hthread hall =>
        cases hstopped
        exact .inr rfl
    | crash hthread => exact absurd rfl (hgood _)
    | join hthread hsupervisor =>
        unfold Exchange.join at hstopped
        split at hstopped <;> exact h _ hstopped
    | sendStatus hsupervisor hsent =>
        unfold Exchange.sendStatus at hsent
        repeat' split at hsent
        all_goals cases hsent
        all_goals exact h _ hstopped
    | read | disconnect | seeEnd => exact h _ hstopped
  case good =>
    rintro t a htakes panic rfl
    exact hcalm panic htakes.mem

/-- Without a panic between two events, a client can hold a call exactly when
the parse does not end well and has sent as much as the channel holds. -/
theorem hostage_reachable_iff (parsed : Parsed δ) :
    (∃ actions s, (machine parsed).Runs actions s ∧ (∀ panic, .crash panic ∉ actions) ∧
      Hostage parsed s) ↔
    (closing [] parsed.outcome).isSome = true ∧ outboundBuffer ≤ parsed.events.length := by
  constructor
  · rintro ⟨actions, s, hruns, hcalm, hhostage⟩
    obtain ⟨⟨outcome, hthread⟩, ⟨status, hreporting⟩, hconnected, hfull⟩ :=
      hostage_iff.mp hhostage
    have hcoherent := (inv_of_runs hruns hconnected).coherent
    rw [hreporting] at hcoherent
    obtain ⟨outcome', sent, detail, hthread', -, hclosing, hmessages⟩ := hcoherent.of_reporting
    obtain rfl := Thread.stopped.inj (hthread.symm.trans hthread')
    constructor
    · rcases stopped_of_calm hruns hcalm hthread with rfl | rfl
      · cases hclosing
      · exact (closing_isSome _ _ _).mp (Option.isSome_of_eq_some hclosing)
    · have hlength := congrArg List.length hmessages
      simp only [transcript, List.length_append, List.length_map, List.length_take] at hlength
      omega
  · rintro ⟨hclosing, hlong⟩
    obtain ⟨status, hstatus⟩ := Option.isSome_iff_exists.mp hclosing
    have hsum : parsed.events.length - outboundBuffer + outboundBuffer = parsed.events.length :=
      Nat.sub_add_cancel hlong
    have hfilled := @runs_filling δ parsed (parsed.events.length - outboundBuffer) outboundBuffer
      le_rfl hsum.le
    have hfinished := runs_step hfilled (ahead_finish hsum)
    have hjoined := runs_step hfinished (join_reporting rfl rfl hstatus)
    refine ⟨_, _, hjoined, ?_, hostage_iff.mpr ⟨⟨_, rfl⟩, ⟨status, rfl⟩, rfl, ?_⟩⟩
    · intro panic
      simp
    · simp only [ahead, List.length_map, List.length_take, List.length_drop]
      omega

end Exchange

open Exchange

/-- The run of a call never passes through a state where only the client can
release slot and share, if and only if every call with a status to report is
joined with room for it. -/
theorem released_iff_roomy (π : Projection) (crates : Crates) (limits : Effective)
    (bytes : Bytes) (actions : List Exchange.Action) (s : Exchange π.Document)
    (hrun : (machine (parsed π crates limits bytes)).Runs actions s) :
    (∀ t, (machine (parsed π crates limits bytes)).Visits actions t →
      ¬ Hostage (parsed π crates limits bytes) t) ↔
    ∀ t detail, (machine (parsed π crates limits bytes)).Takes actions t (.join detail) →
      t.Roomy detail := by
  constructor
  · intro hfree t detail htakes
    by_contra hroom
    obtain ⟨t', hstep, hvisits⟩ := htakes.visits hrun
    have hblocked : Blocked t' :=
      Exchange.blocked_of_join (show Exchange.step (parsed π crates limits bytes) t _ = _ from hstep)
        hroom
    exact hfree t' hvisits (hostage_iff.mpr hblocked)
  · rintro hroomy t ⟨as, has, hruns⟩ hhostage
    have hfree : Free t := by
      refine hruns.invariant_where (G := fun t a => ∀ detail, a = .join detail → t.Roomy detail)
        (free_of_joining rfl) (fun s a s' h hgood hstep => h.step hgood (.of_step hstep)) ?_
      rintro u a htakes detail rfl
      exact hroomy u detail (htakes.mono has)
    obtain ⟨-, hreporting, hconnected, hfull⟩ := hostage_iff.mp hhostage
    exact absurd (hfree.room hreporting hconnected) (Nat.not_lt.mpr hfull)

/-- `backwards` with its last image damaged: reading it ends in an error. -/
def Sample.damaged : Crates :=
  { Sample.backwards.crates with
    zipNew := fun _ =>
      let sound := Sample.archive Sample.backwards.all
      .ok { sound with
        byIndex := fun i =>
          if i = 7 then .ok [.error { kind := .other, text := "Invalid checksum" }]
          else sound.byIndex i } }

/-- A client that reads one event and then no more. -/
def Sample.unread : List Exchange.Action :=
  [.trySend, .trySend, .trySend, .trySend, .read, .trySend, .finish, .join []]

/-- The supervisor has a failure to report, the client is there, and the buffer is full. -/
def Exchange.stuck {δ : Type} (s : Exchange δ) : Bool :=
  match s.thread, s.supervisor with
  | .stopped _, .reporting _ => s.connected && decide (outboundBuffer ≤ s.channel.length)
  | _, _ => false

theorem Exchange.blocked_of_stuck {δ : Type} {s : Exchange δ} (h : s.stuck = true) : s.Blocked := by
  unfold stuck at h
  split at h
  · rename_i outcome status hthread hsupervisor
    obtain ⟨hconnected, hfull⟩ := Bool.and_eq_true_iff.mp h
    exact ⟨⟨outcome, hthread⟩, ⟨status, hsupervisor⟩, hconnected, of_decide_eq_true hfull⟩
  · cases h

/-- A failed call whose client reads nothing keeps its slot and its share. -/
theorem unread_failure_is_hostage : ∃ s,
    (machine (parsed Sample.counting Sample.damaged Sample.defaults
      Sample.backwards.bytes)).Runs Sample.unread s ∧
    Hostage (parsed Sample.counting Sample.damaged Sample.defaults Sample.backwards.bytes) s := by
  have hrun : ((machine (parsed Sample.counting Sample.damaged Sample.defaults
      Sample.backwards.bytes)).exec {} Sample.unread).any
        Exchange.stuck = true := by
    decide +kernel
  obtain ⟨s, hs, h⟩ := (Option.any_eq_true _ _).mp hrun
  exact ⟨s, hs, hostage_iff.mpr (Exchange.blocked_of_stuck h)⟩

theorem released_iff_roomy_damaged : ∃ s,
    (machine (parsed Sample.counting Sample.damaged Sample.defaults
      Sample.backwards.bytes)).Runs Sample.unread s ∧
    ((∀ t, (machine (parsed Sample.counting Sample.damaged Sample.defaults
        Sample.backwards.bytes)).Visits Sample.unread t →
      ¬ Hostage (parsed Sample.counting Sample.damaged Sample.defaults
        Sample.backwards.bytes) t) ↔
    ∀ t detail, (machine (parsed Sample.counting Sample.damaged Sample.defaults
        Sample.backwards.bytes)).Takes Sample.unread t (.join detail) → t.Roomy detail) := by
  have hrun : ((machine (parsed Sample.counting Sample.damaged Sample.defaults
      Sample.backwards.bytes)).exec {} Sample.unread).isSome = true := by
    decide +kernel
  obtain ⟨s, hs⟩ := Option.isSome_iff_exists.mp hrun
  exact ⟨s, hs, released_iff_roomy Sample.counting Sample.damaged Sample.defaults
    Sample.backwards.bytes Sample.unread s hs⟩

end GrpcEpub
