/-
# `GrpcEpub.Alone` — a session against the same call on an idle server

What a client is served depends on its own frames.  The upload a session hands
to its parse is the one `receive` makes of those frames with the whole budget
to itself, and the response is a run of that upload's own exchange.  The other
sessions show in two places only: an upload can be refused for want of budget,
and a call can wait for its slot.

`Alone` is the invariant of one session: in each stage there is a run of `receive` on an idle
server over the same frames, as far as the session has come, and behind it a run of the upload's
own exchange.  Each step of the session adds to that run, and the steps of the others do not touch
it.  A session that was refused has its `Cause` instead: the refusal of that run, the clock that
was due, or the permits that were missing.
-/
import GrpcEpub.Endings
import GrpcEpub.Shares

namespace GrpcEpub

/-! ## Receiving on an idle server

`receive` as an induction on the frames from the end, since a session takes one frame after
another.  With the whole budget to itself it is refused only for a reason in its own frames. -/

theorem contents_concat (frames : List Frame) (frame : Frame) :
    contents (frames ++ [frame]) = contents frames ++ contents [frame] := by
  induction frames with
  | nil => rfl
  | cons head rest ih =>
      cases head with
      | chunk bytes framed => simp only [List.cons_append, contents, ih, List.append_assoc]
      | options => exact ih
      | empty => exact ih

namespace Receiving

/-- Frames are received one after another, so the last one comes behind the others. -/
theorem receiveFrom_concat {limits : Limits} {maxDocumentBytes : Nat} (frames : List Frame)
    (frame : Frame) : ∀ r : Receiving,
    receiveFrom limits maxDocumentBytes r (frames ++ [frame]) =
      receiveFrom limits maxDocumentBytes r frames >>= fun r =>
        receiveFrom limits maxDocumentBytes r [frame] := by
  induction frames with
  | nil => exact fun _ => rfl
  | cons head rest ih =>
      intro r
      cases head with
      | options => rfl
      | empty => exact ih r
      | chunk bytes framed =>
          simp only [List.cons_append, receiveFrom]
          cases r.take limits maxDocumentBytes bytes with
          | error e => rfl
          | ok r' => exact ih r'

end Receiving

/-- The budget of an idle server takes the largest upload a call may send. -/
theorem EpubGrpc.admits (service : EpubGrpc) (options : ParseOptions) {size : Nat}
    (h : size ≤ (service.kept.resolve options).maxDocumentBytes) :
    Admitted (service.kept.resolve options).maxDocumentBytes service.uploadPermits size := by
  have hceiling : (service.kept.resolve options).maxDocumentBytes ≤
      service.limits.maxDocumentBytes := narrow_le_ceiling _ _ _
  have hbuffered : service.limits.maxDocumentBytes ≤ service.kept.maxBufferedUploadBytes :=
    Nat.le_max_right _ _
  have hword := service.documentBytes_le
  refine ⟨h, ?_⟩
  unfold EpubGrpc.uploadPermits maxPermits divCeil budgetUnit
  unfold usizeMax
  unfold u64Max at hword
  omega

/-- On an idle server, a call with these options has received these frames, and
they come to these bytes. -/
structure Taken (service : EpubGrpc) (options : ParseOptions) (frames : List Frame)
    (bytes : Bytes) : Prop where
  received : ∃ r, Receiving.receiveFrom service.kept (service.kept.resolve options).maxDocumentBytes
    { available := service.uploadPermits } frames = .ok r ∧ r.Paid service.uploadPermits ∧
      r.bytes = bytes
  contents : contents frames = bytes
  capped : bytes.length ≤ (service.kept.resolve options).maxDocumentBytes
  fits : ∀ frame ∈ frames, frame.Fits service.kept

namespace Taken

variable {service : EpubGrpc} {options : ParseOptions} {frames : List Frame}
  {bytes given : Bytes} {framed : given.length ≤ u32Max}

theorem nil (service : EpubGrpc) (options : ParseOptions) : Taken service options [] [] where
  received := ⟨_, rfl, ⟨le_rfl, Nat.zero_le _, rfl⟩, rfl⟩
  contents := rfl
  capped := Nat.zero_le _
  fits := List.forall_mem_nil _

theorem fits_concat {frame : Frame} (h : Taken service options frames bytes)
    (hfits : frame.Fits service.kept) : ∀ f ∈ frames ++ [frame], f.Fits service.kept := by
  intro f hf
  rcases List.mem_append.mp hf with hf | hf
  · exact h.fits f hf
  · rwa [List.mem_singleton.mp hf]

theorem empty (h : Taken service options frames bytes) :
    Taken service options (frames ++ [.empty]) bytes where
  received := by
    obtain ⟨r, hr, hpaid, hbytes⟩ := h.received
    refine ⟨r, ?_, hpaid, hbytes⟩
    rw [Receiving.receiveFrom_concat, hr]
    rfl
  contents := by
    rw [contents_concat, h.contents]
    exact List.append_nil _
  capped := h.capped
  fits := h.fits_concat trivial

/-- A chunk that neither limit refuses. -/
theorem chunk (h : Taken service options frames bytes)
    (hchunk : given.length ≤ service.kept.maxChunkBytes)
    (hcap : bytes.length + given.length ≤ (service.kept.resolve options).maxDocumentBytes) :
    Taken service options (frames ++ [.chunk given framed]) (bytes ++ given) where
  received := by
    obtain ⟨r, hr, hpaid, rfl⟩ := h.received
    obtain ⟨r', hr', hpaid', hbytes'⟩ := hpaid.take (Process.maxDocumentBytes_le service options)
      framed hchunk (service.admits options hcap)
    refine ⟨r', ?_, hpaid', hbytes'⟩
    rw [Receiving.receiveFrom_concat, hr]
    simp only [bind, Except.bind, Receiving.receiveFrom, hr']
  contents := by
    rw [contents_concat, h.contents]
    simp only [GrpcEpub.contents, List.append_nil]
  capped := by rwa [List.length_append]
  fits := h.fits_concat hchunk

/-- A frame that is refused whatever the others hold. -/
theorem refuses {frame : Frame} {status : Status} (h : Taken service options frames bytes)
    (hframe : ∀ r : Receiving, r.bytes = bytes → Receiving.receiveFrom service.kept
      (service.kept.resolve options).maxDocumentBytes r [frame] = .error (.failed status)) :
    receive service.kept (service.kept.resolve options).maxDocumentBytes service.uploadPermits
      (frames ++ [frame]) = .error (.failed status) := by
  obtain ⟨r, hr, -, hbytes⟩ := h.received
  unfold receive
  rw [Receiving.receiveFrom_concat, hr]
  simp only [bind, Except.bind, hframe r hbytes]

theorem receive (h : Taken service options frames bytes) : ∃ held,
    receive service.kept (service.kept.resolve options).maxDocumentBytes service.uploadPermits
      frames = .ok (bytes, held) := by
  obtain ⟨r, hr, -, rfl⟩ := h.received
  refine ⟨r.held, ?_⟩
  unfold GrpcEpub.receive
  rw [hr]
  rfl

end Taken

/-! ## Sessions

What a session may have behind it in each phase, and how each of its steps adds to that. -/

namespace Session

/-- Why a session is ended with a status, at this instant and before there is a response: its
own frames, its transport, its timer when that is due, or a budget that was too short for it. -/
inductive Cause {δ : Type} (service : EpubGrpc) (short : Prop) (instant : Nat) (s : Session δ) :
    Status → Prop
  | optionsFirst : s.options = none → Cause service short instant s .optionsFirst
  | closedBeforeOptions : s.options = none → Cause service short instant s .closedBeforeOptions
  | broken {status : Status} : s.broken = some status → Cause service short instant s status
  | late : s.timer.due ≤ instant → Cause service short instant s s.timer.status
  | crowded : s.options.isSome = true → short → Cause service short instant s
      (.budgetFull (service.kept.maxBufferedUploadBytes / mib))
  | own {options : ParseOptions} {status : Status} : s.options = some options →
      receive service.kept (service.kept.resolve options).maxDocumentBytes service.uploadPermits
        s.frames = .error (.failed status) → Cause service short instant s status

section Causes

variable {δ : Type} {service : EpubGrpc} {short short' : Prop} {instant instant' : Nat}
  {s s' : Session δ} {status : Status}

theorem Cause.of_same (h : s.Cause service short instant status) (hoptions : s'.options = s.options)
    (hframes : s'.frames = s.frames) (hbroken : s'.broken = s.broken)
    (htimer : s'.timer = s.timer) : s'.Cause service short instant status := by
  cases h with
  | optionsFirst h => exact .optionsFirst (hoptions.trans h)
  | closedBeforeOptions h => exact .closedBeforeOptions (hoptions.trans h)
  | broken h => exact .broken (hbroken.trans h)
  | late hdue =>
      rw [← htimer] at hdue ⊢
      exact .late hdue
  | crowded h hshort => exact .crowded (hoptions ▸ h) hshort
  | own h hreceive => exact .own (hoptions.trans h) (hframes ▸ hreceive)

/-- A cause stays one as time passes. -/
theorem Cause.mono (h : s.Cause service short instant status) (hshort : short → short')
    (hle : instant ≤ instant') : s.Cause service short' instant' status := by
  cases h with
  | optionsFirst h => exact .optionsFirst h
  | closedBeforeOptions h => exact .closedBeforeOptions h
  | broken h => exact .broken h
  | late hdue => exact .late (hdue.trans hle)
  | crowded h hfull => exact .crowded h (hshort hfull)
  | own h hreceive => exact .own h hreceive

end Causes

/-- How far an upload is, against the same frames on an idle server. -/
def InHand {δ : Type} (service : EpubGrpc) (short : Prop) (now : Nat) (s : Session δ)
    (options : ParseOptions) (bytes chunk : Bytes) : Upload.Phase → Prop
  | .receiving | .waiting => Taken service options s.frames bytes
  | .doubling needed | .exact needed | .growing needed _ | .copying needed =>
      Taken service options s.frames (bytes ++ chunk) ∧ needed = bytes.length + chunk.length ∧
        chunk.length ≤ u32Max
  | .failing status => Cause service short now s status
  | .parsing | .returned | .unslotted | .ended => False

/-- An upload in progress. -/
structure Uploading {δ : Type} (service : EpubGrpc) (short : Prop) (now : Nat) (s : Session δ)
    (u : Upload) (options : ParseOptions) (bytes chunk : Bytes) : Prop where
  named : s.options = some options
  cap : u.maxDocumentBytes = (service.kept.resolve options).maxDocumentBytes
  length : u.length = bytes.length
  inHand : s.InHand service short now options bytes chunk u.phase

/-- A response: to the upload that the frames come to, and a run of its own. -/
structure Responding (π : Projection) (crates : Crates) (service : EpubGrpc)
    (s : Session π.Document) (options : ParseOptions) (bytes : Bytes) (e : Exchange π.Document) :
    Prop where
  named : s.options = some options
  taken : Taken service options s.frames bytes
  runs : ∃ exchanged, (Exchange.machine (answer π crates service.kept options bytes)).Runs
    exchanged e

/-- Where a session is, it would be on an idle server, but for a full budget. -/
def Alone (π : Projection) (crates : Crates) (service : EpubGrpc) (short : Prop) (now : Nat)
    (s : Session π.Document) : Prop :=
  match s.stage with
  | .opening => s.options = none ∧ s.frames = []
  | .uploading u options bytes chunk => s.Uploading service short now u options bytes chunk
  | .responding _ options bytes e => s.Responding π crates service options bytes e
  | .refused status instant => s.Cause service short instant status
  | .cancelled => True

section Alone

variable {π : Projection} {crates : Crates} {service : EpubGrpc} {short : Prop}
  {available slots now : Nat} {s : Session π.Document} {u : Upload} {options : ParseOptions} {bytes chunk : Bytes}

theorem Alone.opening (h : s.Alone π crates service short now) (hstage : s.stage = .opening) :
    s.options = none ∧ s.frames = [] := by
  unfold Alone at h
  rwa [hstage] at h

theorem Alone.uploading (h : s.Alone π crates service short now)
    (hstage : s.stage = .uploading u options bytes chunk) :
    s.Uploading service short now u options bytes chunk := by
  unfold Alone at h
  rwa [hstage] at h

theorem Alone.responding {e : Exchange π.Document} (h : s.Alone π crates service short now)
    (hstage : s.stage = .responding u options bytes e) :
    s.Responding π crates service options bytes e := by
  unfold Alone at h
  rwa [hstage] at h

/-- The options name what the run is to be of. -/
theorem opens_alone (h : s.Alone π crates service short now) (hstage : s.stage = .opening)
    (incoming : Incoming) : (s.opens service.kept now incoming).Alone π crates service short now := by
  obtain ⟨hoptions, hframes⟩ := h.opening hstage
  cases incoming with
  | options options =>
      refine ⟨rfl, rfl, rfl, ?_⟩
      change Taken service options s.frames []
      rw [hframes]
      exact .nil service options
  | chunk bytes framed => exact .optionsFirst hoptions
  | empty => exact .optionsFirst hoptions
  | closed => exact .closedBeforeOptions hoptions
  | broken status => exact .broken rfl

/-- An upload that only changes where it is. -/
theorem Uploading.of_phase {s' : Session π.Document} {chunk' : Bytes} {phase : Upload.Phase}
    (h : s.Uploading service short now u options bytes chunk) (hoptions : s'.options = s.options)
    (hinHand : s'.InHand service short now options bytes chunk' phase) :
    s'.Uploading service short now { u with phase } options bytes chunk' :=
  ⟨hoptions.trans h.named, h.cap, h.length, hinHand⟩

/-- What `receive` makes of the next frame, it makes of it on an idle server. -/
theorem takes_alone (h : s.Uploading service short now u options bytes chunk)
    (hphase : u.phase = .receiving) (incoming : Incoming) :
    (s.takes service.kept now u options bytes incoming).Alone π crates service short now := by
  have htaken : Taken service options s.frames bytes := by
    have hinHand := h.inHand
    rwa [hphase] at hinHand
  cases incoming with
  | options other =>
      refine h.of_phase rfl (Cause.own h.named ?_)
      exact htaken.refuses fun r _ => rfl
  | empty =>
      refine ⟨h.named, h.cap, h.length, ?_⟩
      change InHand _ _ _ _ _ _ _ u.phase
      rw [hphase]
      exact htaken.empty
  | closed =>
      refine h.of_phase rfl ?_
      change Taken service options (s.frames ++ []) bytes
      rwa [List.append_nil]
  | broken status => exact h.of_phase rfl (Cause.broken rfl)
  | chunk given framed =>
      have hcap := h.cap
      have hlength := h.length
      change (s.takes service.kept now u options bytes (.chunk given framed)).Uploading service short now
        (u.frame service.kept (.chunk given.length)) options bytes given
      simp only [Upload.frame]
      split
      · rename_i hchunk
        refine h.of_phase rfl (Cause.own h.named (htaken.refuses fun r hbytes => ?_))
        simp only [Receiving.receiveFrom, Receiving.take, if_pos hchunk, bind, Except.bind]
      rename_i hchunk
      split
      · rename_i hpast
        rw [hcap, hlength] at hpast
        refine h.of_phase rfl (Cause.own h.named (htaken.refuses fun r hbytes => ?_))
        simp only [Receiving.receiveFrom, Receiving.take, if_neg hchunk, hbytes, if_pos hpast,
          bind, Except.bind, hcap]
      rename_i hpast
      have hnext : Taken service options (s.frames ++ [.chunk given framed]) (bytes ++ given) := by
        rw [hcap, hlength] at hpast
        exact htaken.chunk (Nat.not_lt.mp hchunk) (Nat.not_lt.mp hpast)
      have hneeded : u.length + given.length = bytes.length + given.length := by rw [hlength]
      split
      · refine h.of_phase rfl ?_
        exact ⟨hnext, hneeded, framed⟩
      · refine h.of_phase rfl ?_
        exact ⟨hnext, hneeded, framed⟩

/-- A reservation moves an upload on, or ends it for want of budget. -/
theorem reserves_alone (h : s.Uploading service short now u options bytes chunk)
    (hshort : ∀ needed, u.phase = .exact needed →
      Upload.reserveUpload available u.held needed = none → short)
    {after : Nat × Nat × Upload} (hstep : Upload.Step service.kept available slots u .reserve after) :
    (s.moved (.uploading · options bytes chunk) after).session.Alone π crates service short now := by
  have hinHand := h.inHand
  cases hstep with
  | doubled hphase hgranted =>
      rw [hphase] at hinHand
      exact ⟨h.named, h.cap, h.length, hinHand⟩
  | undoubled hphase hrefused =>
      rw [hphase] at hinHand
      exact ⟨h.named, h.cap, h.length, hinHand⟩
  | granted hphase hgranted =>
      rw [hphase] at hinHand
      exact ⟨h.named, h.cap, h.length, hinHand⟩
  | refused hphase hrefused =>
      exact ⟨h.named, h.cap, h.length,
        Cause.crowded (Option.isSome_of_eq_some h.named) (hshort _ hphase hrefused)⟩

theorem grows_alone (h : s.Uploading service short now u options bytes chunk)
    {after : Nat × Nat × Upload} (hstep : Upload.Step service.kept available slots u .grow after) :
    (s.moved (.uploading · options bytes chunk) after).session.Alone π crates service short now := by
  have hinHand := h.inHand
  cases hstep with
  | @grow needed target hphase =>
      rw [hphase] at hinHand
      have hsame : (u.reserveExact (target - u.length)).length = u.length := by
        unfold Upload.reserveExact
        split <;> rfl
      exact ⟨h.named, (u.reserveExact_same _).2.trans h.cap, hsame.trans h.length, hinHand⟩

/-- A step of a session is a step of the run it has behind it. -/
theorem Step.alone {a : Action} {after : Moved π.Document} (h : s.Alone π crates service short now)
    (hshort : ∀ u options bytes chunk needed, a = .reserve →
      s.stage = .uploading u options bytes chunk → u.phase = .exact needed →
      Upload.reserveUpload available u.held needed = none → short)
    (hstep : Step π crates service.kept available slots now s a after) :
    after.session.Alone π crates service short now := by
  cases hstep with
  | opens hstage => exact opens_alone h hstage _
  | expiresOpening hstage hdue => exact Cause.late hdue
  | cancelsOpening hstage => trivial
  | takes hstage hphase => exact takes_alone (h.uploading hstage) hphase _
  | expires hstage hphase hdue => exact (h.uploading hstage).of_phase rfl (Cause.late hdue)
  | reserves hstage hreserve =>
      exact reserves_alone (h.uploading hstage) (fun _ => hshort _ _ _ _ _ rfl hstage) hreserve
  | grows hstage hgrow => exact grows_alone (h.uploading hstage) hgrow
  | @copies u options bytes chunk needed hstage hphase =>
      have hu := h.uploading hstage
      have hinHand := hu.inHand
      rw [hphase] at hinHand
      obtain ⟨htaken, hneeded, -⟩ := hinHand
      exact ⟨hu.named, hu.cap, by rw [hneeded, List.length_append], htaken⟩
  | fails hstage hphase =>
      have hinHand := (h.uploading hstage).inHand
      rw [hphase] at hinHand
      exact Cause.of_same hinHand rfl rfl rfl rfl
  | cancels hstage hphase => trivial
  | takesSlot hstage hphase hfree =>
      have hu := h.uploading hstage
      have hinHand := hu.inHand
      rw [hphase] at hinHand
      exact ⟨hu.named, hinHand, [], .nil⟩
  | responds hstage hexchange hreleased =>
      obtain ⟨hnamed, htaken, exchanged, hruns⟩ := h.responding hstage
      exact ⟨hnamed, htaken, _, Machine.runs_concat.mpr ⟨_, hruns, hexchange⟩⟩
  | dropsSlot hstage hdone hphase =>
      obtain ⟨hnamed, htaken, hruns⟩ := h.responding hstage
      exact ⟨hnamed, htaken, hruns⟩
  | dropsShare hstage hphase =>
      obtain ⟨hnamed, htaken, hruns⟩ := h.responding hstage
      exact ⟨hnamed, htaken, hruns⟩

/-- Time passes, and what was missing once was missing. -/
theorem Alone.mono {short' : Prop} {now' : Nat} (h : s.Alone π crates service short now)
    (hshort : short → short') (hle : now ≤ now') : s.Alone π crates service short' now' := by
  unfold Alone at h ⊢
  split
  · rename_i hstage
    rwa [hstage] at h
  · rename_i u options bytes chunk hstage
    rw [hstage] at h
    obtain ⟨hnamed, hcap, hlength, hinHand⟩ := h
    refine ⟨hnamed, hcap, hlength, ?_⟩
    cases hphase : u.phase with
    | failing status =>
        rw [hphase] at hinHand
        exact Cause.mono hinHand hshort hle
    | _ =>
        rw [hphase] at hinHand
        exact hinHand
  · rename_i hstage
    rwa [hstage] at h
  · rename_i hstage
    rw [hstage] at h
    exact h.mono hshort le_rfl
  · trivial

/-- Time that passes changes nothing but how busy a session has been. -/
theorem Alone.pass (h : s.Alone π crates service short now) (nanos : Nat) :
    (s.pass nanos).Alone π crates service short (now + nanos) := by
  refine Alone.mono ?_ id (Nat.le_add_right now nanos)
  unfold Session.pass
  split
  · rename_i hworks
    obtain ⟨u, options, bytes, chunk, hstage, -⟩ := works_iff.mp hworks
    obtain ⟨hnamed, hcap, hlength, hinHand⟩ := h.uploading hstage
    simp only [Alone]
    split
    all_goals
      rename_i hstage'
      cases hstage.symm.trans hstage'
    refine ⟨hnamed, hcap, hlength, ?_⟩
    cases hphase : u.phase with
    | failing status =>
        rw [hphase] at hinHand
        exact Cause.of_same hinHand rfl rfl rfl rfl
    | _ =>
        rw [hphase] at hinHand
        exact hinHand
  · exact h

end Alone

end Session

/-! ## What the others are to a session

Permits that are gone are held by someone.  A refusal for want of them therefore names the bytes
that the others hold at that moment. -/

namespace Server

variable {π : Projection} {crates : Crates} {service : EpubGrpc} {timeouts : Timeouts}
  {s : Server π.Document} {actions : List Action} {i needed : Nat} {session : Session π.Document}
  {u : Upload} {options : ParseOptions} {bytes chunk : Bytes}

/-- What every session but one holds. -/
def heldByOthers (s : Server π.Document) (i : Nat) : Nat :=
  ((s.sessions.eraseIdx i).map Session.held).sum

theorem held_add_others (h : s.sessions[i]? = some session) :
    session.held + s.heldByOthers i = (s.sessions.map Session.held).sum := by
  obtain ⟨hi, rfl⟩ := List.getElem?_eq_some_iff.mp h
  unfold heldByOthers
  rw [← List.sum_cons, ← List.map_cons]
  exact ((List.getElem_cons_eraseIdx_perm hi).map _).sum_eq

/-- The last reservation of an upload that is in hand is refused exactly when what it needs and
what the others hold do not fit in the budget together. -/
theorem reserve_uploading_iff {short : Prop}
    (hrun : (machine π crates service timeouts).Runs actions s)
    (hsession : s.sessions[i]? = some session)
    (hstage : session.stage = .uploading u options bytes chunk) (hphase : u.phase = .exact needed)
    (huploading : session.Uploading service short s.now u options bytes chunk) :
    Upload.reserveUpload s.available u.held needed = none ↔
      service.uploadPermits < divCeil needed budgetUnit + s.heldByOthers i := by
  have hinv := inv_of_runs hrun
  obtain ⟨hsound, -⟩ := hinv.sessions session (List.mem_of_getElem? hsession) u (by
    rw [hstage]
    rfl)
  obtain ⟨-, -, hlength, hinHand⟩ := huploading
  rw [hphase] at hinHand
  obtain ⟨-, hneeded, hframed⟩ := hinHand
  have hheld : session.held = u.held := by rw [Session.held, hstage]; rfl
  have hothers := held_add_others hsession
  have hbalanced : s.available + (s.sessions.map Session.held).sum = service.uploadPermits :=
    hinv.permits
  -- the chunk in hand is all that can be missing, and a permit count holds it
  have hpaid : u.length ≤ budgetUnit * u.held := hsound.fits.trans hsound.paid
  have hsmall : divCeil needed budgetUnit - u.held ≤ u32Max := by
    unfold divCeil budgetUnit u32Max at *
    omega
  unfold Upload.reserveUpload
  dsimp only
  split
  · simp only [reduceCtorEq, false_iff]
    omega
  · split
    · simp only [reduceCtorEq, false_iff]
      omega
    · simp only [true_iff]
      omega

/-- At some point of the run, this session reserved exactly what it needed, and that did not
fit in the budget beside what the others held. -/
def Crowded (π : Projection) (crates : Crates) (service : EpubGrpc) (timeouts : Timeouts)
    (actions : List Action) (i : Nat) : Prop :=
  ∃ (t : Server π.Document) (session : Session π.Document) (u : Upload) (options : ParseOptions)
    (bytes chunk : Bytes) (needed : Nat),
    (machine π crates service timeouts).Takes actions t (.step i .reserve) ∧
      t.sessions[i]? = some session ∧ session.stage = .uploading u options bytes chunk ∧
      u.phase = .exact needed ∧
      service.uploadPermits < divCeil needed budgetUnit + t.heldByOthers i

/-- Where each session is, it would be on an idle server, unless it was crowded out. -/
theorem alone_along (h : (machine π crates service timeouts).Runs actions s) :
    ∀ (i : Nat) (session : Session π.Document), s.sessions[i]? = some session →
      session.Alone π crates service (Crowded π crates service timeouts actions i) s.now := by
  refine forall_sessions_along (P := fun as i now session =>
    session.Alone π crates service (Crowded π crates service timeouts as i) now) ?_ ?_ ?_ ?_ h
  · exact fun as i now _ => ⟨rfl, rfl⟩
  · intro as bs i now session hle halone
    refine halone.mono ?_ le_rfl
    rintro ⟨t, moving, u, options, bytes, chunk, needed, htakes, hcrowded⟩
    exact ⟨t, moving, u, options, bytes, chunk, needed, htakes.mono hle, hcrowded⟩
  · exact fun as i now nanos session halone _ => halone.pass nanos
  · intro as s i session a after hruns hsession halone hstep
    refine hstep.alone halone fun u options bytes chunk needed ha hstage hphase hrefused => ?_
    subst ha
    exact ⟨s, session, u, options, bytes, chunk, needed, ⟨as, List.prefix_rfl, hruns⟩, hsession,
      hstage, hphase, (reserve_uploading_iff hruns hsession hstage hphase
        (halone.uploading hstage)).mp hrefused⟩

/-- The same, of any session, whatever the budget was to it. -/
theorem alone_of_runs (h : (machine π crates service timeouts).Runs actions s) :
    ∀ session ∈ s.sessions, session.Alone π crates service True s.now := by
  intro session hmem
  obtain ⟨i, hsession⟩ := List.mem_iff_getElem?.mp hmem
  exact (alone_along h i session hsession).mono (fun _ => trivial) le_rfl

theorem reserve_refused_iff (hrun : (machine π crates service timeouts).Runs actions s)
    (hsession : s.sessions[i]? = some session)
    (hstage : session.stage = .uploading u options bytes chunk) (hphase : u.phase = .exact needed) :
    Upload.reserveUpload s.available u.held needed = none ↔
      service.uploadPermits < divCeil needed budgetUnit + s.heldByOthers i :=
  reserve_uploading_iff hrun hsession hstage hphase
    ((alone_of_runs hrun session (List.mem_of_getElem? hsession)).uploading hstage)

end Server

/-! ## What a client is served

The invariant, read for a session whose client has been answered. -/

/-- What a session comes to, against the same frames on an idle server. -/
structure ServedAlone (π : Projection) (crates : Crates) (service : EpubGrpc) (timeouts : Timeouts)
    (actions : List Server.Action) (i : Nat) (session : Session π.Document) : Prop where
  refused : ∀ status instant, session.stage = .refused status instant →
    session.Cause service (Server.Crowded π crates service timeouts actions i) instant status
  responding : ∀ u options bytes e, session.stage = .responding u options bytes e →
    session.options = some options ∧ contents session.frames = bytes ∧
      (∃ held, receive service.kept (service.kept.resolve options).maxDocumentBytes
        service.uploadPermits session.frames = .ok (bytes, held)) ∧
      ∃ exchanged, (Exchange.machine (parsed π crates (service.kept.resolve options) bytes)).Runs
        exchanged e

theorem sessions_served_alone (π : Projection) (crates : Crates) (service : EpubGrpc)
    (timeouts : Timeouts) (actions : List Server.Action) (s : Server π.Document)
    (hrun : (Server.machine π crates service timeouts).Runs actions s) :
    ∀ (i : Nat) (session : Session π.Document), s.sessions[i]? = some session →
      ServedAlone π crates service timeouts actions i session := by
  intro i session hsession
  have halone := Server.alone_along hrun i session hsession
  refine ⟨fun status instant hstage => ?_, fun u options bytes e hstage => ?_⟩
  · unfold Session.Alone at halone
    rwa [hstage] at halone
  · obtain ⟨hnamed, htaken, hruns⟩ := halone.responding hstage
    exact ⟨hnamed, htaken.contents, htaken.receive, hruns⟩

/-- The status the session was refused with. -/
def Session.refusal {δ : Type} (s : Session δ) : Option Status :=
  match s.stage with
  | .refused status _ => some status
  | _ => none

def Sample.smallServer : Machine (Server Sample.counting.Document) Server.Action :=
  Server.machine Sample.counting Sample.backwards.crates Sample.small .initial

/-- The second upload is refused what it needs as well, and the call ends. -/
def Sample.crowdedOut : List Server.Action :=
  Sample.crowding ++ [.step 1 .reserve, .step 1 .fail]

theorem sessions_served_alone_crowded : ∃ s,
    Sample.smallServer.Runs Sample.crowdedOut s ∧
    s.sessions.map Session.refusal = [none, some (.budgetFull 0)] ∧
    ∀ (i : Nat) (session : Session Sample.counting.Document), s.sessions[i]? = some session →
      ServedAlone Sample.counting Sample.backwards.crates Sample.small .initial Sample.crowdedOut i
        session := by
  have hrun : (Sample.smallServer.exec Sample.smallServer.start Sample.crowdedOut).any
      (fun s => s.sessions.map Session.refusal = [none, some (.budgetFull 0)]) = true := by
    decide +kernel
  obtain ⟨s, hs, hrefused⟩ := (Option.any_eq_true _ _).mp hrun
  exact ⟨s, hs, of_decide_eq_true hrefused, sessions_served_alone Sample.counting
    Sample.backwards.crates Sample.small .initial Sample.crowdedOut s hs⟩

namespace Exchange

variable {δ : Type} {parsed : Parsed δ}

/-- What a client has received, it received while it was there. -/
theorem received_connected {actions : List Action} {e : Exchange δ}
    (h : (machine parsed).Runs actions e) :
    ∃ before e₀, (machine parsed).Runs before e₀ ∧ e₀.connected = true ∧
      e₀.received = e.received := by
  refine h.rec_snoc (I := fun _ e => ∃ before e₀, (machine parsed).Runs before e₀ ∧
    e₀.connected = true ∧ e₀.received = e.received) ⟨[], _, .nil, rfl, rfl⟩ ?_
  intro as s a s' hruns ih hstep
  by_cases hconnected : s'.connected = true
  · exact ⟨_, s', Machine.runs_concat.mpr ⟨s, hruns, hstep⟩, hconnected, rfl⟩
  obtain ⟨before, e₀, hbefore, hthere, hreceived⟩ := ih
  refine ⟨before, e₀, hbefore, hthere, hreceived.trans ?_⟩
  cases Step.of_step hstep with
  | trySend hthread hevent =>
      unfold trySend
      repeat' split
      all_goals rfl
  | sendTimeout hthread hevent hsent =>
      unfold sendTimeout at hsent
      repeat' split at hsent
      all_goals cases hsent
      all_goals rfl
  | join hthread hsupervisor =>
      unfold join
      split <;> rfl
  | sendStatus hsupervisor hsent =>
      unfold sendStatus at hsent
      repeat' split at hsent
      all_goals cases hsent
      all_goals rfl
  | read hconnected' hchannel => exact absurd hconnected' hconnected
  | stall | finish | crash | disconnect | seeEnd => rfl

/-- What has been sent is some of the events, and then at most one failure. -/
theorem Coherent.messages {stalled : Prop} {thread : Thread} {supervisor : Supervisor}
    {messages : List (Message δ)} (h : Coherent parsed stalled thread supervisor messages) :
    ∃ (sent : Nat) (failures : List Status), failures.length ≤ 1 ∧
      messages = (parsed.events.take sent).map .event ++ failures.map .error := by
  cases h with
  | reported hstopped hclosing => exact ⟨_, [_], le_rfl, rfl⟩
  | running | waiting | joining | reporting | silent =>
      exact ⟨_, [], Nat.zero_le _, (List.append_nil _).symm⟩

end Exchange

namespace Server

variable {π : Projection} {crates : Crates} {service : EpubGrpc} {timeouts : Timeouts}
  {s : Server π.Document} {actions : List Action} {i needed : Nat} {session : Session π.Document}
  {u : Upload} {options : ParseOptions} {bytes chunk : Bytes}

/-- The session after the last reservation of its upload. -/
theorem reserve_exact_step (hsession : s.sessions[i]? = some session)
    (hstage : session.stage = .uploading u options bytes chunk) (hphase : u.phase = .exact needed)
    {s' : Server π.Document}
    (hstep : step π crates service timeouts s (.step i .reserve) = some s') :
    (∃ status session', s'.sessions[i]? = some session' ∧ session'.stage =
        .uploading { u with phase := .failing status } options bytes chunk) ↔
      Upload.reserveUpload s.available u.held needed = none := by
  obtain ⟨hi, -⟩ := List.getElem?_eq_some_iff.mp hsession
  simp only [step, hsession, Session.step, hstage, Upload.step, hphase] at hstep
  cases hreserve : Upload.reserveUpload s.available u.held needed with
  | some granted =>
      rw [hreserve] at hstep
      cases hstep
      refine iff_of_false ?_ (Option.some_ne_none _)
      rintro ⟨status, session', hsession', hstage'⟩
      rw [List.getElem?_set_self hi, Option.some.injEq] at hsession'
      subst hsession'
      injection hstage' with hu
      injection hu with hmax hphase'
      cases hphase'
  | none =>
      rw [hreserve] at hstep
      cases hstep
      exact iff_of_true ⟨_, _, List.getElem?_set_self hi, rfl⟩ rfl

end Server

/-- In any reachable state, an upload that reserves exactly what it needs is
refused if and only if what it needs and what the others hold pass the budget
together.  What it needs alone never does. -/
theorem refused_iff_crowded (π : Projection) (crates : Crates) (service : EpubGrpc)
    (timeouts : Timeouts) (actions : List Server.Action) (s s' : Server π.Document) (i needed : Nat)
    (session : Session π.Document) (u : Upload) (options : ParseOptions) (bytes chunk : Bytes)
    (hrun : (Server.machine π crates service timeouts).Runs actions s)
    (hsession : s.sessions[i]? = some session)
    (hstage : session.stage = .uploading u options bytes chunk) (hphase : u.phase = .exact needed)
    (hstep : Server.step π crates service timeouts s (.step i .reserve) = some s') :
    ((∃ status session', s'.sessions[i]? = some session' ∧ session'.stage =
        .uploading { u with phase := .failing status } options bytes chunk) ↔
      service.uploadPermits < divCeil needed budgetUnit + s.heldByOthers i) ∧
    divCeil needed budgetUnit ≤ service.uploadPermits := by
  refine ⟨?_, ?_⟩
  · rw [Server.reserve_exact_step hsession hstage hphase hstep,
      Server.reserve_refused_iff hrun hsession hstage hphase]
  · obtain ⟨-, -, -, hinHand⟩ :=
      (Server.alone_of_runs hrun session (List.mem_of_getElem? hsession)).uploading hstage
    rw [hphase] at hinHand
    obtain ⟨htaken, rfl, -⟩ := hinHand
    have hcapped := htaken.capped
    rw [List.length_append] at hcapped
    exact (service.admits options hcapped).2

/-- Whether the session is about to reserve exactly what it needs. -/
def Session.isPressed {δ : Type} (s : Session δ) : Bool :=
  match s.stage with
  | .uploading u _ _ _ =>
      match u.phase with
      | .exact _ => true
      | _ => false
  | _ => false

theorem Session.exact_of_isPressed {δ : Type} {s : Session δ} (h : s.isPressed = true) :
    ∃ u options bytes chunk needed, s.stage = .uploading u options bytes chunk ∧
      u.phase = .exact needed := by
  unfold isPressed at h
  split at h
  · rename_i u options bytes chunk hstage
    split at h
    · rename_i needed hphase
      exact ⟨u, options, bytes, chunk, needed, hstage, hphase⟩
    · cases h
  · cases h

theorem refused_iff_crowded_crowding : ∃ s s' session u options bytes chunk needed,
    Sample.smallServer.Runs Sample.crowding s ∧
    s.sessions[1]? = some session ∧ session.stage = .uploading u options bytes chunk ∧
    u.phase = .exact needed ∧ Sample.smallServer.step s (.step 1 .reserve) = some s' ∧
    ((∃ status session', s'.sessions[1]? = some session' ∧ session'.stage =
        .uploading { u with phase := .failing status } options bytes chunk) ↔
      Sample.small.uploadPermits < divCeil needed budgetUnit + s.heldByOthers 1) ∧
    divCeil needed budgetUnit ≤ Sample.small.uploadPermits := by
  have hrun : (Sample.smallServer.exec Sample.smallServer.start Sample.crowding).any
      (fun s => s.sessions[1]?.any Session.isPressed &&
        (Sample.smallServer.step s (.step 1 .reserve)).isSome) = true := by
    decide +kernel
  obtain ⟨s, hs, hboth⟩ := (Option.any_eq_true _ _).mp hrun
  obtain ⟨hpressed, hsome⟩ := Bool.and_eq_true_iff.mp hboth
  obtain ⟨session, hsession, hpressed⟩ := (Option.any_eq_true _ _).mp hpressed
  obtain ⟨s', hs'⟩ := Option.isSome_iff_exists.mp hsome
  obtain ⟨u, options, bytes, chunk, needed, hstage, hphase⟩ := Session.exact_of_isPressed hpressed
  exact ⟨s, s', session, u, options, bytes, chunk, needed, hs, hsession, hstage, hphase, hs',
    refused_iff_crowded Sample.counting Sample.backwards.crates Sample.small .initial
      Sample.crowding s s' 1 needed session u options bytes chunk hs hsession hstage hphase hs'⟩

end GrpcEpub
