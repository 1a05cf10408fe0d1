/-
# `GrpcEpub.Refolded` — the document a client could have made itself

A server folds the events of a call into its `document` event.  By the time a
client has received that event, it has received the events it was made from,
all of them and no others, whatever else the server was doing.  Folding them
again, with the hash of the bytes it sent, gives the client the same document.
-/
import GrpcEpub.Additive
import GrpcEpub.Alone

namespace GrpcEpub

namespace Exchange

variable {δ : Type} {parsed : Parsed δ}

/-- In front of an event that a client has received stand the events in front of it. -/
theorem received_at {actions : List Action} {e : Exchange δ}
    (h : (machine parsed).Runs actions e) {before after : List (Message δ)} {event : Event δ}
    (hreceived : e.received = before ++ .event event :: after) :
    ∃ front rest, parsed.events = front ++ event :: rest ∧ before = front.map .event := by
  obtain ⟨earlier, e₀, hearlier, hconnected, hsame⟩ := received_connected h
  obtain ⟨sent, failures, -, hmessages⟩ := (inv_of_runs hearlier hconnected).coherent.messages
  rw [transcript, hsame, hreceived, List.append_assoc, List.cons_append] at hmessages
  have hfailure : .event event ∉ failures.map (Message.error (δ := δ)) := by
    intro hmem
    obtain ⟨failure, -, hfailure⟩ := List.mem_map.mp hmem
    cases hfailure
  rcases List.append_eq_append_iff.mp hmessages with ⟨a, hsent, htail⟩ | ⟨a, -, htail⟩
  · cases a with
    | nil =>
        rw [List.nil_append] at htail
        exact absurd (htail ▸ List.mem_cons_self) hfailure
    | cons message a =>
        obtain ⟨rfl, -⟩ := List.cons.inj htail
        obtain ⟨front, behind, hfront, rfl, hbehind⟩ := List.map_eq_append_iff.mp hsent
        obtain ⟨event', rest, rfl, hevent, -⟩ := List.map_eq_cons_iff.mp hbehind
        obtain rfl := Message.event.inj hevent
        refine ⟨front, rest ++ parsed.events.drop sent, ?_, rfl⟩
        rw [← List.cons_append, ← List.append_assoc, ← hfront, List.take_append_drop]
  · exact absurd (htail ▸ List.mem_append_right _ List.mem_cons_self) hfailure

end Exchange

/-- Whatever the server was doing besides, the document is the fold of what came in front of it. -/
theorem document_is_refolded (version : Str) (crates : Crates) (service : EpubGrpc)
    (timeouts : Timeouts) (actions : List Server.Action)
    (s : Server (documentFold version).Document) (session : Session (documentFold version).Document)
    (u : Upload) (options : ParseOptions) (bytes : Bytes)
    (e : Exchange (documentFold version).Document)
    (before after : List (Message (documentFold version).Document))
    (document : (documentFold version).Document)
    (hrun : (Server.machine (documentFold version) crates service timeouts).Runs actions s)
    (hsession : session ∈ s.sessions) (hstage : session.stage = .responding u options bytes e)
    (hreceived : e.received = before ++ .event (.document document) :: after) :
    ∃ events, before = events.map .event ∧
      document = freshDocument version (sourceHash (contents session.frames)) events := by
  obtain ⟨-, htaken, exchanged, hruns⟩ :=
    (Server.alone_of_runs hrun session hsession).responding hstage
  obtain rfl := htaken.contents
  obtain ⟨events, rest, hevents, hbefore⟩ := Exchange.received_at hruns hreceived
  exact ⟨events, hbefore, document_fresh staying hevents⟩

/-! ## A call that asks for its document

One call on a small server, from its options to its document. -/

def Message.isDocument {δ : Type} : Message δ → Bool
  | .event (.document _) => true
  | _ => false

theorem Message.eq_document {δ : Type} {message : Message δ} (h : message.isDocument = true) :
    ∃ document, message = .event (.document document) := by
  unfold isDocument at h
  split at h
  · exact ⟨_, rfl⟩
  · cases h

/-- Whether the session's client has received a `document`. -/
def Session.hasDocument {δ : Type} (s : Session δ) : Bool :=
  match s.stage with
  | .responding _ _ _ e => e.received.any Message.isDocument
  | _ => false

theorem Session.received_of_hasDocument {δ : Type} {s : Session δ} (h : s.hasDocument = true) :
    ∃ u options bytes e before after document, s.stage = .responding u options bytes e ∧
      e.received = before ++ .event (.document document) :: after := by
  unfold hasDocument at h
  split at h
  · rename_i u options bytes e hstage
    obtain ⟨message, hmem, hdocument⟩ := List.any_eq_true.mp h
    obtain ⟨document, rfl⟩ := Message.eq_document hdocument
    obtain ⟨before, after, hreceived⟩ := List.append_of_mem hmem
    exact ⟨u, options, bytes, e, before, after, document, hstage, hreceived⟩
  · cases h

def Sample.version : Str := "0.1.0"

def Sample.folder : Machine (Server (documentFold Sample.version).Document) Server.Action :=
  Server.machine (documentFold Sample.version) Sample.backwards.crates Sample.service .initial

theorem Sample.backwards_framed : Sample.backwards.bytes.length ≤ u32Max := by decide +kernel

/-- One call is served its document and its status, while another has just begun. -/
def Sample.folding : List Server.Action :=
  [.connect, .connect,
    .step 1 (.arrive (.options { ParseOptions.default with emitDocument := true })),
    .step 1 (.arrive (.chunk Sample.backwards.bytes Sample.backwards_framed)), .step 1 .reserve,
    .step 0 (.arrive (.options .default)), .step 1 .grow, .step 1 .copy,
    .step 1 (.arrive .closed), .step 1 .takeSlot] ++
  (Sample.keepingUp 8).map fun action => .step 1 (.respond action)

theorem document_is_refolded_folding : ∃ s, Sample.folder.Runs Sample.folding s ∧
    ∃ session ∈ s.sessions, ∃ u options bytes e before after document,
      session.stage = .responding u options bytes e ∧
      e.received = before ++ .event (.document document) :: after ∧
      ∃ events, before = events.map .event ∧
        document = freshDocument Sample.version (sourceHash (contents session.frames)) events := by
  have hrun : (Sample.folder.exec Sample.folder.start Sample.folding).any
      (fun s => s.sessions.any Session.hasDocument) = true := by
    decide +kernel
  obtain ⟨s, hs, hany⟩ := (Option.any_eq_true _ _).mp hrun
  obtain ⟨session, hmem, hhas⟩ := List.any_eq_true.mp hany
  obtain ⟨u, options, bytes, e, before, after, document, hstage, hreceived⟩ :=
    Session.received_of_hasDocument hhas
  exact ⟨s, hs, session, hmem, u, options, bytes, e, before, after, document, hstage, hreceived,
    document_is_refolded Sample.version Sample.backwards.crates Sample.service .initial
      Sample.folding s session u options bytes e before after document hs hmem hstage hreceived⟩

end GrpcEpub
