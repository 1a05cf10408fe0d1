/-
# `GrpcEpub.Endings` — what a client that stays is told at the end

A response may be cut short by a failed parse, by a panic, or by the stall
timeout.  Of the first two a connected client hears in a status; of the third
it does not.  `Coherent` ties what has been sent to how far each party is;
every step keeps it, and at the end of the stream it is the answer.

The invariant is of a connected client only, and of one exchange: a client that leaves is owed
nothing.  `stalled` is a proposition and not a state, so that a run can be asked afterwards
whether it had a stall in it.
-/
import GrpcEpub.Exchange
import GrpcEpub.Sample

namespace GrpcEpub

namespace Exchange

variable {δ : Type}

/-- The client has been told how the call ended: by an error status, or by a
`status` event after which nothing came. -/
def Told (s : Exchange δ) : Prop :=
  (∃ status, .error status ∈ s.received) ∨
    ∃ status, s.received.getLast? = some (.event (.status status))

/-- What was sent and is not lost. -/
def transcript (s : Exchange δ) : List (Message δ) := s.received ++ s.channel

/-- How a thread stopped after so many events, against whether it stalled. -/
structure StoppedAt (parsed : Parsed δ) (stalled : Prop) (outcome : Outcome) (sent : Nat) :
    Prop where
  complete : outcome = .complete → parsed.outcome = .complete ∧ parsed.events.length ≤ sent
  abandoned : outcome = .abandoned ↔ stalled
  short : outcome = .abandoned → sent < parsed.events.length

/-- What a connected client has been sent, by how far thread and supervisor are. -/
inductive Coherent (parsed : Parsed δ) (stalled : Prop) :
    Thread → Supervisor → List (Message δ) → Prop
  | running {sent : Nat} : ¬ stalled →
      Coherent parsed stalled (.running sent) .joining ((parsed.events.take sent).map .event)
  | waiting {sent : Nat} : ¬ stalled → sent < parsed.events.length →
      Coherent parsed stalled (.waiting sent) .joining ((parsed.events.take sent).map .event)
  | joining {outcome : Outcome} {sent : Nat} : StoppedAt parsed stalled outcome sent →
      Coherent parsed stalled (.stopped outcome) .joining ((parsed.events.take sent).map .event)
  | reporting {outcome : Outcome} {sent : Nat} {status : Status} {detail : Str} :
      StoppedAt parsed stalled outcome sent → closing detail outcome = some status →
      Coherent parsed stalled (.stopped outcome) (.reporting status)
        ((parsed.events.take sent).map .event)
  | reported {outcome : Outcome} {sent : Nat} {status : Status} {detail : Str} :
      StoppedAt parsed stalled outcome sent → closing detail outcome = some status →
      Coherent parsed stalled (.stopped outcome) .done
        ((parsed.events.take sent).map .event ++ [.error status])
  | silent {outcome : Outcome} {sent : Nat} {detail : Str} :
      StoppedAt parsed stalled outcome sent → closing detail outcome = none →
      Coherent parsed stalled (.stopped outcome) .done ((parsed.events.take sent).map .event)

/-- What holds of an exchange as long as the client is there. -/
structure Inv (parsed : Parsed δ) (stalled : Prop) (s : Exchange δ) : Prop where
  coherent : Coherent parsed stalled s.thread s.supervisor s.transcript
  atEnd : s.ended = true → s.supervisor = .done ∧ s.channel = []

/-! ## Reading a coherent state

What each pair of a thread and a supervisor says of the events that have been sent. -/

section Coherent

variable {parsed : Parsed δ} {stalled : Prop} {thread : Thread} {supervisor : Supervisor}
  {sent : Nat} {outcome : Outcome} {status : Status} {messages : List (Message δ)}

theorem Coherent.of_running (h : Coherent parsed stalled (.running sent) supervisor messages) :
    ¬ stalled ∧ supervisor = .joining ∧ messages = (parsed.events.take sent).map .event := by
  cases h with
  | running hstalled => exact ⟨hstalled, rfl, rfl⟩

theorem Coherent.of_waiting (h : Coherent parsed stalled (.waiting sent) supervisor messages) :
    (¬ stalled ∧ supervisor = .joining ∧ messages = (parsed.events.take sent).map .event) ∧
      sent < parsed.events.length := by
  cases h with
  | waiting hstalled hlt => exact ⟨⟨hstalled, rfl, rfl⟩, hlt⟩

theorem Coherent.of_joining (h : Coherent parsed stalled (.stopped outcome) .joining messages) :
    ∃ sent, StoppedAt parsed stalled outcome sent ∧
      messages = (parsed.events.take sent).map .event := by
  cases h with
  | joining hstopped => exact ⟨_, hstopped, rfl⟩

theorem Coherent.of_reporting (h : Coherent parsed stalled thread (.reporting status) messages) :
    ∃ outcome sent detail, thread = .stopped outcome ∧ StoppedAt parsed stalled outcome sent ∧
      closing detail outcome = some status ∧ messages = (parsed.events.take sent).map .event := by
  cases h with
  | reporting hstopped hclosing => exact ⟨_, _, _, rfl, hstopped, hclosing, rfl⟩

end Coherent

/-! ## Steps

One lemma for each action of the exchange.  An action that keeps the client connected appends to
what has been sent, or moves what is in the channel to the client. -/

section Steps

variable {parsed : Parsed δ} {stalled : Prop} {s s' : Exchange δ}

theorem take_succ_event {sent : Nat} {event : Event δ} (h : parsed.events[sent]? = some event) :
    (parsed.events.take (sent + 1)).map Message.event =
      (parsed.events.take sent).map .event ++ [.event event] := by
  rw [List.take_add_one, h, Option.toList_some, List.map_append]
  rfl

/-- A response that is not whole does not end in its status. -/
theorem take_getLast?_ne {sent : Nat} (h : sent < parsed.events.length) (status : ParseStatus) :
    ((parsed.events.take sent).map Message.event).getLast? ≠ some (.event (.status status)) := by
  intro hlast
  rw [List.getLast?_map, Option.map_eq_some_iff] at hlast
  obtain ⟨event, hevent, heq⟩ := hlast
  obtain rfl := Message.event.inj heq
  rw [List.getLast?_eq_getElem?, List.length_take, Nat.min_eq_left h.le,
    List.getElem?_take] at hevent
  split at hevent
  · rename_i hlt
    have := parsed.statusLast _ _ hevent
    omega
  · cases hevent

theorem Inv.not_ended (h : Inv parsed stalled s) (hsupervisor : s.supervisor ≠ .done) :
    s.ended = false :=
  Bool.eq_false_iff.mpr fun hended => hsupervisor (h.atEnd hended).1

/-- One more event in the channel. -/
theorem Inv.send {sent : Nat} {event : Event δ} (h : Inv parsed stalled s)
    (hevent : parsed.events[sent]? = some event) (hstalled : ¬ stalled)
    (hsupervisor : s.supervisor = .joining)
    (hmessages : s.transcript = (parsed.events.take sent).map .event) :
    Inv parsed stalled
      { s with channel := s.channel ++ [.event event], thread := .running (sent + 1) } where
  coherent := by
    have hall : s.received ++ (s.channel ++ [.event event]) =
        (parsed.events.take (sent + 1)).map .event := by
      rw [take_succ_event hevent, ← hmessages, transcript, List.append_assoc]
    simp only [transcript, hsupervisor, hall]
    exact .running hstalled
  atEnd := fun hended => by
    have := h.not_ended (by rw [hsupervisor]; nofun)
    rw [this] at hended
    cases hended

/-- The thread stops, and what it has sent stays. -/
theorem Inv.stop {stalled' : Prop} {outcome : Outcome} {sent : Nat} (h : Inv parsed stalled s)
    (hsupervisor : s.supervisor = .joining)
    (hmessages : s.transcript = (parsed.events.take sent).map .event)
    (hstopped : StoppedAt parsed stalled' outcome sent) :
    Inv parsed stalled' { s with thread := .stopped outcome } where
  coherent := by
    have hall : s.received ++ s.channel = (parsed.events.take sent).map .event := hmessages
    simp only [transcript, hsupervisor, hall]
    exact .joining hstopped
  atEnd := h.atEnd

/-- A thread that stops on its own, with no stall behind it. -/
theorem StoppedAt.of_ne_abandoned {outcome : Outcome} {sent : Nat} (hstalled : ¬ stalled)
    (hne : outcome ≠ .abandoned)
    (hcomplete : outcome = .complete →
      parsed.outcome = .complete ∧ parsed.events.length ≤ sent) :
    StoppedAt parsed stalled outcome sent where
  complete := hcomplete
  abandoned := iff_of_false hne hstalled
  short := fun h => absurd h hne

/-- The event goes into the channel, or the thread begins to wait. -/
theorem Inv.trySend {sent : Nat} {event : Event δ} (h : Inv parsed stalled s)
    (hthread : s.thread = .running sent) (hevent : parsed.events[sent]? = some event)
    (hconnected : (s.trySend sent event).connected = true) :
    Inv parsed stalled (s.trySend sent event) := by
  have hcoherent := h.coherent
  rw [hthread] at hcoherent
  obtain ⟨hstalled, hsupervisor, hmessages⟩ := hcoherent.of_running
  unfold Exchange.trySend at hconnected ⊢
  split
  · split
    · exact h.send hevent hstalled hsupervisor hmessages
    · refine ⟨?_, h.atEnd⟩
      have hall : s.received ++ s.channel = (parsed.events.take sent).map .event := hmessages
      simp only [transcript, hsupervisor, hall]
      exact .waiting hstalled (List.getElem?_eq_some_iff.mp hevent).1
  · rename_i hgone
    simp [hgone] at hconnected

/-- The event that was waited with goes into the channel. -/
theorem Inv.sendTimeout {sent : Nat} {event : Event δ} (h : Inv parsed stalled s)
    (hthread : s.thread = .waiting sent) (hevent : parsed.events[sent]? = some event)
    (hsent : s.sendTimeout sent event = some s') (hconnected : s'.connected = true) :
    Inv parsed stalled s' := by
  have hcoherent := h.coherent
  rw [hthread] at hcoherent
  obtain ⟨⟨hstalled, hsupervisor, hmessages⟩, -⟩ := hcoherent.of_waiting
  unfold Exchange.sendTimeout at hsent
  split at hsent
  · split at hsent
    · cases hsent
      exact h.send hevent hstalled hsupervisor hmessages
    · cases hsent
  · rename_i hgone
    cases hsent
    exact absurd hconnected hgone

theorem Inv.stall {sent : Nat} (h : Inv parsed stalled s) (hthread : s.thread = .waiting sent) :
    Inv parsed True { s with thread := .stopped .abandoned } := by
  have hcoherent := h.coherent
  rw [hthread] at hcoherent
  obtain ⟨⟨-, hsupervisor, hmessages⟩, hlt⟩ := hcoherent.of_waiting
  exact h.stop hsupervisor hmessages ⟨nofun, iff_of_true rfl trivial, fun _ => hlt⟩

theorem Inv.finish {sent : Nat} (h : Inv parsed stalled s) (hthread : s.thread = .running sent)
    (hall : parsed.events.length ≤ sent) :
    Inv parsed stalled { s with thread := .stopped parsed.outcome } := by
  have hcoherent := h.coherent
  rw [hthread] at hcoherent
  obtain ⟨hstalled, hsupervisor, hmessages⟩ := hcoherent.of_running
  exact h.stop hsupervisor hmessages
    (.of_ne_abandoned hstalled parsed.notAbandoned fun hc => ⟨hc, hall⟩)

theorem Inv.crash {sent : Nat} (h : Inv parsed stalled s) (hthread : s.thread = .running sent)
    (panic : Panic) : Inv parsed stalled { s with thread := .stopped (.panicked panic) } := by
  have hcoherent := h.coherent
  rw [hthread] at hcoherent
  obtain ⟨hstalled, hsupervisor, hmessages⟩ := hcoherent.of_running
  exact h.stop hsupervisor hmessages (.of_ne_abandoned hstalled nofun nofun)

/-- The supervisor takes over what the thread has left. -/
theorem Inv.join {outcome : Outcome} (h : Inv parsed stalled s)
    (hthread : s.thread = .stopped outcome) (hsupervisor : s.supervisor = .joining)
    (detail : Str) : Inv parsed stalled (s.join detail outcome) := by
  have hcoherent := h.coherent
  rw [hthread, hsupervisor] at hcoherent
  obtain ⟨sent, hstopped, hmessages⟩ := hcoherent.of_joining
  have hall : s.received ++ s.channel = (parsed.events.take sent).map .event := hmessages
  have hended := h.not_ended (by rw [hsupervisor]; nofun)
  unfold Exchange.join
  split
  · rename_i status hclosing
    refine ⟨?_, fun he => by simp [hended] at he⟩
    simp only [transcript, hthread, hall]
    exact .reporting hstopped hclosing
  · rename_i hclosing
    refine ⟨?_, fun he => by simp [hended] at he⟩
    simp only [transcript, hthread, hall]
    exact .silent hstopped hclosing

/-- The status is the last message of the stream. -/
theorem Inv.sendStatus {status : Status} (h : Inv parsed stalled s)
    (hsupervisor : s.supervisor = .reporting status) (hsent : s.sendStatus status = some s')
    (hconnected : s'.connected = true) : Inv parsed stalled s' := by
  have hcoherent := h.coherent
  rw [hsupervisor] at hcoherent
  obtain ⟨outcome, sent, detail, hthread, hstopped, hclosing, hmessages⟩ :=
    hcoherent.of_reporting
  have hended := h.not_ended (by rw [hsupervisor]; nofun)
  unfold Exchange.sendStatus at hsent
  split at hsent
  · split at hsent
    · cases hsent
      refine ⟨?_, fun he => by simp [hended] at he⟩
      have hall : s.received ++ (s.channel ++ [.error status]) =
          (parsed.events.take sent).map .event ++ [.error status] := by
        rw [← hmessages, transcript, List.append_assoc]
      simp only [transcript, hthread, hall]
      exact .reported hstopped hclosing
    · cases hsent
  · rename_i hgone
    cases hsent
    exact absurd hconnected hgone

theorem Inv.read {message : Message δ} {rest : List (Message δ)} (h : Inv parsed stalled s)
    (hchannel : s.channel = message :: rest) :
    Inv parsed stalled { s with channel := rest, received := s.received ++ [message] } where
  coherent := by
    have hsame : s.received ++ [message] ++ rest = s.transcript := by
      rw [transcript, hchannel, List.append_assoc, List.singleton_append]
    simp only [transcript, hsame]
    exact h.coherent
  atEnd := fun hended => by
    have hempty := (h.atEnd hended).2
    rw [hchannel] at hempty
    cases hempty

/-- A client that has left does not come back. -/
theorem Step.connected {a : Action} (h : Step parsed s a s') (hconnected : s'.connected = true) :
    s.connected = true := by
  cases h with
  | trySend hthread hevent => rwa [trySend_connected] at hconnected
  | sendTimeout hthread hevent hsent => rwa [← sendTimeout_connected hsent]
  | stall hthread hthere hfull => exact hthere
  | finish hthread hall => exact hconnected
  | crash hthread => exact hconnected
  | join hthread hsupervisor => rwa [join_connected] at hconnected
  | sendStatus hsupervisor hsent => rwa [← sendStatus_connected hsent]
  | read hthere hchannel => exact hthere
  | disconnect hthere => exact hthere
  | seeEnd hthere hchannel hsupervisor => exact hthere

/-- One step, as long as the client is still there after it. -/
theorem Inv.step {a : Action} (h : s.connected = true → Inv parsed stalled s)
    (hstep : Step parsed s a s') (hconnected : s'.connected = true) :
    Inv parsed (stalled ∨ a = .stall) s' := by
  have hinv := h (hstep.connected hconnected)
  have hother : a ≠ .stall → Inv parsed stalled s' → Inv parsed (stalled ∨ a = .stall) s' := by
    intro hne hkept
    simpa only [hne, or_false] using hkept
  cases hstep with
  | trySend hthread hevent => exact hother nofun (hinv.trySend hthread hevent hconnected)
  | sendTimeout hthread hevent hsent =>
      exact hother nofun (hinv.sendTimeout hthread hevent hsent hconnected)
  | stall hthread hthere hfull => simpa using hinv.stall hthread
  | finish hthread hall => exact hother nofun (hinv.finish hthread hall)
  | crash hthread => exact hother nofun (hinv.crash hthread _)
  | join hthread hsupervisor => exact hother nofun (hinv.join hthread hsupervisor _)
  | sendStatus hsupervisor hsent =>
      exact hother nofun (hinv.sendStatus hsupervisor hsent hconnected)
  | read hthere hchannel => exact hother nofun (hinv.read hchannel)
  | disconnect hthere => cases hconnected
  | seeEnd hthere hchannel hsupervisor =>
      exact hother nofun ⟨hinv.coherent, fun _ => ⟨hsupervisor, hchannel⟩⟩

end Steps

/-! ## Runs

From the start to the end of the stream, where thread and supervisor are done and the channel is
empty. -/

variable {parsed : Parsed δ} {actions : List Action} {s : Exchange δ}

theorem inv_of_runs (h : (machine parsed).Runs actions s) (hconnected : s.connected = true) :
    Inv parsed (.stall ∈ actions) s := by
  refine h.rec_snoc (I := fun actions s => s.connected = true → Inv parsed (.stall ∈ actions) s)
    ?start ?step hconnected
  case start => exact fun _ => ⟨.running List.not_mem_nil, fun h => absurd h Bool.false_ne_true⟩
  case step =>
    intro as s a s' _ ih hstep hc
    have hkept := Inv.step ih (Step.of_step hstep) hc
    simpa only [List.mem_append, List.mem_singleton, eq_comm] using hkept

/-- At the end of its stream a client has been told how the call ended, unless
the call stalled. -/
theorem Inv.told {stalled : Prop} (h : Inv parsed stalled s) (hended : s.ended = true) :
    s.Told ↔ ¬ stalled := by
  obtain ⟨hdone, hempty⟩ := h.atEnd hended
  have hcoherent := h.coherent
  rw [hdone, transcript, hempty, List.append_nil] at hcoherent
  unfold Told
  generalize s.thread = thread at hcoherent
  generalize s.received = received at hcoherent ⊢
  cases hcoherent with
  | reported hstopped hclosing =>
      refine iff_of_true (.inl ⟨_, List.mem_concat_self⟩) ?_
      intro hstalled
      rw [hstopped.abandoned.mpr hstalled] at hclosing
      cases hclosing
  | @silent outcome sent detail hstopped hclosing =>
      by_cases habandoned : outcome = .abandoned
      · refine iff_of_false ?_ (not_not.mpr (hstopped.abandoned.mp habandoned))
        rintro (⟨status, hmem⟩ | ⟨status, hlast⟩)
        · obtain ⟨event, -, hevent⟩ := List.mem_map.mp hmem
          cases hevent
        · exact absurd hlast (take_getLast?_ne (hstopped.short habandoned) status)
      · refine iff_of_true (.inr ?_) fun hstalled => habandoned (hstopped.abandoned.mpr hstalled)
        obtain rfl : outcome = .complete := by
          cases outcome with
          | complete => rfl
          | abandoned => exact absurd rfl habandoned
          | failed status => cases hclosing
          | panicked panic => cases hclosing
        obtain ⟨hcomplete, hall⟩ := hstopped.complete rfl
        obtain ⟨status, hlast⟩ := parsed.complete hcomplete
        exact ⟨status, by rw [List.take_of_length_le hall, List.getLast?_map, hlast]; rfl⟩

/-- Whether the client has been told, by what it has received. -/
theorem told_iff {s : Exchange δ} : s.Told ↔
    (s.received.any (fun message => match message with | .error _ => true | .event _ => false) ||
      s.received.getLast?.any fun message =>
        match message with | .event (.status _) => true | _ => false) = true := by
  rw [Bool.or_eq_true, List.any_eq_true, Option.any_eq_true]
  constructor
  · rintro (⟨status, hmem⟩ | ⟨status, hlast⟩)
    · exact .inl ⟨_, hmem, rfl⟩
    · exact .inr ⟨_, hlast, rfl⟩
  · rintro (⟨message, hmem, herror⟩ | ⟨message, hlast, hstatus⟩)
    · cases message with
      | error status => exact .inl ⟨status, hmem⟩
      | event event => cases herror
    · split at hstatus
      · exact .inr ⟨_, hlast⟩
      · cases hstatus

instance (s : Exchange δ) : Decidable s.Told := decidable_of_iff' _ told_iff

end Exchange

/-! ## The response of a call

The same of a parse: two clients, one that pauses for too long and one that does not. -/

open Exchange

/-- A client that pauses past the stall timeout and then reads on. -/
def Sample.pausing : List Exchange.Action :=
  [.trySend, .trySend, .trySend, .trySend, .trySend, .stall, .join [], .read, .read, .read,
    .read, .seeEnd]

/-- A client that reads every event as it comes. -/
def Sample.keepingUp (events : Nat) : List Exchange.Action :=
  (List.replicate events [.trySend, .read]).flatten ++ [.finish, .join [], .seeEnd]

/-- A client that pauses past the stall window and reads on is told nothing. -/
theorem pausing_client_is_not_told : ∃ s,
    (machine (parsed Sample.counting Sample.backwards.crates Sample.defaults
      Sample.backwards.bytes)).Runs Sample.pausing s ∧
    s.connected = true ∧ s.ended = true ∧ ¬ s.Told := by
  have hrun : ((machine (parsed Sample.counting Sample.backwards.crates Sample.defaults
      Sample.backwards.bytes)).exec {} Sample.pausing).any
        (fun s => s.connected && s.ended && !decide s.Told) = true := by
    decide +kernel
  obtain ⟨s, hs, h⟩ := (Option.any_eq_true _ _).mp hrun
  simp only [Bool.and_eq_true, Bool.not_eq_true', decide_eq_false_iff_not] at h
  exact ⟨s, hs, h.1.1, h.1.2, h.2⟩

/-- A client that is there at the end of the stream has been told, unless the response stalled. -/
theorem client_is_told_unless_stalled (π : Projection) (crates : Crates) (limits : Effective)
    (bytes : Bytes) (actions : List Exchange.Action) (s : Exchange π.Document)
    (hrun : (machine (parsed π crates limits bytes)).Runs actions s)
    (hconnected : s.connected = true) (hended : s.ended = true) :
    s.Told ↔ .stall ∉ actions :=
  (inv_of_runs hrun hconnected).told hended

theorem client_is_told_unless_stalled_backwards : ∃ s,
    (machine (parsed Sample.counting Sample.backwards.crates Sample.defaults
      Sample.backwards.bytes)).Runs (Sample.keepingUp 7) s ∧ s.Told := by
  have hrun : ((machine (parsed Sample.counting Sample.backwards.crates Sample.defaults
      Sample.backwards.bytes)).exec {} (Sample.keepingUp 7)).any
        (fun s => s.connected && s.ended) = true := by
    decide +kernel
  obtain ⟨s, hs, h⟩ := (Option.any_eq_true _ _).mp hrun
  obtain ⟨hconnected, hended⟩ := Bool.and_eq_true_iff.mp h
  exact ⟨s, hs, (client_is_told_unless_stalled Sample.counting Sample.backwards.crates
    Sample.defaults Sample.backwards.bytes (Sample.keepingUp 7) s hs hconnected hended).mpr
      (by decide +kernel)⟩

end GrpcEpub
