/-
# `GrpcEpub.Exchange` — one response as message passing

The three parties of a `ParseEpub` response: the parse thread, which sends its
events through `Sink::send`; the supervisor task, which runs after the thread
and may send one status; and the client, which reads, waits or leaves.  Between
them is one channel of `OUTBOUND_BUFFER` slots, and it ends for the client when
both senders have been dropped.

The thread is the parse of a staying client's call: what it does up to the
first refused event is the same for every client (`run_cut`).  It may also
panic anywhere between two events.
-/
import GrpcEpub.Clients
import GrpcEpub.Contract
import GrpcEpub.Lib.Machine

namespace GrpcEpub

/-- `OUTBOUND_BUFFER`. -/
def outboundBuffer : Nat := 4

/-- One `Result<ParseEpubResponse, Status>`. -/
inductive Message (δ : Type) where
  | event (event : Event δ)
  | error (status : Status)

/-- What the parse thread has to say: its events, and how it ends. -/
structure Parsed (δ : Type) where
  events : List (Event δ)
  outcome : Outcome
  notAbandoned : outcome ≠ .abandoned
  complete : outcome = .complete → ∃ status, events.getLast? = some (.status status)
  statusLast : ∀ (k : Nat) (status : ParseStatus), events[k]? = some (.status status) →
    events.length ≤ k + 1

/-- Where the parse thread is. -/
inductive Thread where
  /-- Between two sends, with so many events sent. -/
  | running (sent : Nat)
  /-- In `send_timeout`, on a channel that was full. -/
  | waiting (sent : Nat)
  /-- Returned, or unwound by a panic; its sender is dropped. -/
  | stopped (outcome : Outcome)
deriving DecidableEq, Repr

/-- Where the supervisor task is.  It holds the slot permit and the upload's
share until it is done, and its own sender as long. -/
inductive Supervisor where
  | joining
  | reporting (status : Status)
  | done
deriving DecidableEq, Repr

structure Exchange (δ : Type) where
  thread : Thread := .running 0
  supervisor : Supervisor := .joining
  channel : List (Message δ) := []
  received : List (Message δ) := []
  connected : Bool := true
  ended : Bool := false

namespace Exchange

variable {δ : Type}

inductive Action where
  /-- `try_send` of the next event. -/
  | trySend
  /-- `send_timeout` comes back with the message sent, or the channel closed. -/
  | sendTimeout
  /-- `send_timeout` comes back because `CONSUMER_STALL` has passed. -/
  | stall
  | finish
  | crash (panic : Panic)
  /-- `handle.await` in the supervisor; of a panic it finds this payload. -/
  | join (detail : Str)
  | sendStatus
  | read
  | disconnect
  | seeEnd
deriving DecidableEq, Repr

/-- What the supervisor has to report of an outcome. -/
def closing (detail : Str) : Outcome → Option Status
  | .complete | .abandoned => none
  | .failed status => some status
  | .panicked _ => some (.parserPanicked detail)

/-- `Sender::try_send`, by a thread that has sent so many events. -/
def trySend (s : Exchange δ) (sent : Nat) (event : Event δ) : Exchange δ :=
  if s.connected then
    if s.channel.length < outboundBuffer then
      { s with channel := s.channel ++ [.event event], thread := .running (sent + 1) }
    else { s with thread := .waiting sent }
  else { s with thread := .stopped .abandoned }

/-- `Sender::send_timeout`, once it has an answer within its time. -/
def sendTimeout (s : Exchange δ) (sent : Nat) (event : Event δ) : Option (Exchange δ) :=
  if s.connected then
    if s.channel.length < outboundBuffer then
      some { s with channel := s.channel ++ [.event event], thread := .running (sent + 1) }
    else none
  else some { s with thread := .stopped .abandoned }

/-- The supervisor's `send` of the status, which waits as long as it takes. -/
def sendStatus (s : Exchange δ) (status : Status) : Option (Exchange δ) :=
  if s.connected then
    if s.channel.length < outboundBuffer then
      some { s with channel := s.channel ++ [.error status], supervisor := .done }
    else none
  else some { s with supervisor := .done }

/-- The supervisor learns how the thread ended. -/
def join (s : Exchange δ) (detail : Str) (outcome : Outcome) : Exchange δ :=
  match closing detail outcome with
  | some status => { s with supervisor := .reporting status }
  | none => { s with supervisor := .done }

/-- One action of the exchange, where it is enabled. -/
def step (parsed : Parsed δ) (s : Exchange δ) : Action → Option (Exchange δ)
  | .trySend =>
      match s.thread with
      | .running sent => (parsed.events[sent]?).map (s.trySend sent)
      | _ => none
  | .sendTimeout =>
      match s.thread with
      | .waiting sent => (parsed.events[sent]?).bind (s.sendTimeout sent)
      | _ => none
  | .stall =>
      match s.thread with
      | .waiting _ =>
          if s.connected ∧ outboundBuffer ≤ s.channel.length then
            some { s with thread := .stopped .abandoned }
          else none
      | _ => none
  | .finish =>
      match s.thread with
      | .running sent =>
          if parsed.events.length ≤ sent then some { s with thread := .stopped parsed.outcome }
          else none
      | _ => none
  | .crash panic =>
      match s.thread with
      | .running _ => some { s with thread := .stopped (.panicked panic) }
      | _ => none
  | .join detail =>
      match s.thread, s.supervisor with
      | .stopped outcome, .joining => some (s.join detail outcome)
      | _, _ => none
  | .sendStatus =>
      match s.supervisor with
      | .reporting status => s.sendStatus status
      | _ => none
  | .read =>
      match s.connected, s.channel with
      | true, message :: rest =>
          some { s with channel := rest, received := s.received ++ [message] }
      | _, _ => none
  | .disconnect => if s.connected then some { s with connected := false, channel := [] } else none
  | .seeEnd =>
      match s.channel, s.supervisor with
      | [], .done => if s.connected then some { s with ended := true } else none
      | _, _ => none

/-! ### What a step can do -/

/-- What each action does, in the states that enable it. -/
inductive Step (parsed : Parsed δ) (s : Exchange δ) : Action → Exchange δ → Prop
  | trySend {sent : Nat} {event : Event δ} : s.thread = .running sent →
      parsed.events[sent]? = some event → Step parsed s .trySend (s.trySend sent event)
  | sendTimeout {sent : Nat} {event : Event δ} {s' : Exchange δ} : s.thread = .waiting sent →
      parsed.events[sent]? = some event → s.sendTimeout sent event = some s' →
      Step parsed s .sendTimeout s'
  | stall {sent : Nat} : s.thread = .waiting sent → s.connected = true →
      outboundBuffer ≤ s.channel.length →
      Step parsed s .stall { s with thread := .stopped .abandoned }
  | finish {sent : Nat} : s.thread = .running sent → parsed.events.length ≤ sent →
      Step parsed s .finish { s with thread := .stopped parsed.outcome }
  | crash {sent : Nat} {panic : Panic} : s.thread = .running sent →
      Step parsed s (.crash panic) { s with thread := .stopped (.panicked panic) }
  | join {outcome : Outcome} {detail : Str} : s.thread = .stopped outcome →
      s.supervisor = .joining → Step parsed s (.join detail) (s.join detail outcome)
  | sendStatus {status : Status} {s' : Exchange δ} : s.supervisor = .reporting status →
      s.sendStatus status = some s' → Step parsed s .sendStatus s'
  | read {message : Message δ} {rest : List (Message δ)} : s.connected = true →
      s.channel = message :: rest →
      Step parsed s .read { s with channel := rest, received := s.received ++ [message] }
  | disconnect : s.connected = true →
      Step parsed s .disconnect { s with connected := false, channel := [] }
  | seeEnd : s.connected = true → s.channel = [] → s.supervisor = .done →
      Step parsed s .seeEnd { s with ended := true }

/-- Every enabled action is one of the cases. -/
theorem Step.of_step {parsed : Parsed δ} {s s' : Exchange δ} {a : Action}
    (h : step parsed s a = some s') : Step parsed s a s' := by
  cases a with
  | trySend =>
      simp only [step] at h
      split at h
      · rename_i sent hthread
        obtain ⟨event, hevent, rfl⟩ := Option.map_eq_some_iff.mp h
        exact .trySend hthread hevent
      · cases h
  | sendTimeout =>
      simp only [step] at h
      split at h
      · rename_i sent hthread
        obtain ⟨event, hevent, hsent⟩ := Option.bind_eq_some_iff.mp h
        exact .sendTimeout hthread hevent hsent
      · cases h
  | stall =>
      simp only [step] at h
      split at h
      · rename_i sent hthread
        obtain ⟨⟨hthere, hfull⟩, ⟨⟩⟩ := Option.ite_none_right_eq_some.mp h
        exact .stall hthread hthere hfull
      · cases h
  | finish =>
      simp only [step] at h
      split at h
      · rename_i sent hthread
        obtain ⟨hall, ⟨⟩⟩ := Option.ite_none_right_eq_some.mp h
        exact .finish hthread hall
      · cases h
  | crash panic =>
      simp only [step] at h
      split at h
      · rename_i sent hthread
        cases h
        exact .crash hthread
      · cases h
  | join detail =>
      simp only [step] at h
      split at h
      · rename_i outcome hthread hsupervisor
        cases h
        exact .join hthread hsupervisor
      · cases h
  | sendStatus =>
      simp only [step] at h
      split at h
      · rename_i status hsupervisor
        exact .sendStatus hsupervisor h
      · cases h
  | read =>
      simp only [step] at h
      split at h
      · rename_i message rest hthere hchannel
        cases h
        exact .read hthere hchannel
      · cases h
  | disconnect =>
      obtain ⟨hthere, ⟨⟩⟩ := Option.ite_none_right_eq_some.mp h
      exact .disconnect hthere
  | seeEnd =>
      simp only [step] at h
      split at h
      · rename_i hchannel hsupervisor
        obtain ⟨hthere, ⟨⟩⟩ := Option.ite_none_right_eq_some.mp h
        exact .seeEnd hthere hchannel hsupervisor
      · cases h

section Connected

variable {s s' : Exchange δ} {sent : Nat} {event : Event δ}

@[simp] theorem trySend_connected : (s.trySend sent event).connected = s.connected := by
  unfold trySend
  repeat' split
  all_goals rfl

@[simp] theorem join_connected (detail : Str) (outcome : Outcome) :
    (s.join detail outcome).connected = s.connected := by
  unfold join
  split <;> rfl

theorem sendTimeout_connected (h : s.sendTimeout sent event = some s') :
    s'.connected = s.connected := by
  unfold sendTimeout at h
  repeat' split at h
  all_goals cases h
  all_goals rfl

theorem sendStatus_connected {status : Status} (h : s.sendStatus status = some s') :
    s'.connected = s.connected := by
  unfold sendStatus at h
  repeat' split at h
  all_goals cases h
  all_goals rfl

end Connected

/-- The response of one parse. -/
def machine (parsed : Parsed δ) : Machine (Exchange δ) Action where
  start := {}
  step := step parsed

end Exchange

/-! ## The thread of a call

The events of a parse with a staying client, and the way it ends. -/

theorem Parts.status_last {δ : Type} {parts : Parts δ} {events : List (Event δ)}
    (h : events <+: parts.sequence) {k : Nat} {status : ParseStatus}
    (hk : events[k]? = some (.status status)) : parts.body.length ≤ k := by
  by_contra hlt
  have hget : parts.sequence[k]? = some (.status status) := by
    obtain ⟨rest, hrest⟩ := h
    rw [← hrest, List.getElem?_append_left (List.getElem?_eq_some_iff.mp hk).1, hk]
  rw [Parts.sequence, List.getElem?_append_left (Nat.not_le.mp hlt)] at hget
  exact parts.status_not_mem_body status (List.mem_of_getElem? hget)

/-- The parse thread of a call. -/
def parsed (π : Projection) (crates : Crates) (limits : Effective) (bytes : Bytes) :
    Parsed π.Document where
  events := (run π crates limits bytes staying).2.sent.map Delivery.event
  outcome := (run π crates limits bytes staying).1
  notAbandoned := (run_cut π crates limits bytes staying).1
  complete := fun h => by
    obtain ⟨parts, -, hparts⟩ := (run_keeps_contract π crates limits bytes staying).complete.mp h
    exact ⟨parts.status, by rw [hparts, Parts.sequence, List.getLast?_concat]⟩
  statusLast := fun k status hk => by
    obtain ⟨parts, -, hbegins⟩ := (run_keeps_contract π crates limits bytes staying).isPrefix
    have hlast := Parts.status_last hbegins hk
    have hlength := hbegins.length_le
    rw [Parts.sequence, List.length_append, List.length_singleton] at hlength
    exact hlength.trans (Nat.succ_le_succ hlast)

end GrpcEpub
