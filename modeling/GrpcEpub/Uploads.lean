/-
# `GrpcEpub.Uploads` — concurrent calls on one upload budget

`service.rs` from the first chunk to the end of a call, for any number of calls
at once.  A call grows its buffer only after it has reserved the growth in the
process-wide budget, first for a doubled capacity and, where that is refused,
for exactly what it needs.  It gives its share back when it ends, however it
ends.

Between two awaits a call is alone with its own data but not with the
semaphore, so reserving, growing and copying are steps of their own and any
other call may come in between.  A call that ends drops its buffer and its
share together.  A permit is held by one call or by none, and shares merge by
addition: that is the semaphore's documented behaviour, and all that is used.
-/
import GrpcEpub.Status
import GrpcEpub.Lib.Machine
import GrpcEpub.Lib.Permits

namespace GrpcEpub

/-- `BUDGET_UNIT`. -/
def budgetUnit : Nat := 1024

/-- `Semaphore::MAX_PERMITS`. -/
def maxPermits : Nat := usizeMax / 8

/-- `usize::div_ceil`. -/
def divCeil (a b : Nat) : Nat := (a + b - 1) / b

/-- The limits of a process.  The document ceiling is a `u64`. -/
structure EpubGrpc where
  limits : Limits
  documentBytes_le : limits.maxDocumentBytes ≤ u64Max

namespace EpubGrpc

/-- The limits `with_metrics` keeps: a budget no smaller than one upload. -/
def kept (service : EpubGrpc) : Limits :=
  { service.limits with
    maxBufferedUploadBytes :=
      max service.limits.maxBufferedUploadBytes service.limits.maxDocumentBytes }

/-- The permits `with_metrics` makes the upload budget of. -/
def uploadPermits (service : EpubGrpc) : Nat :=
  min (divCeil (min service.kept.maxBufferedUploadBytes usizeMax) budgetUnit) maxPermits

end EpubGrpc

/-! ## One call

Growing, copying and ending, in the phases between two awaits. -/

namespace Upload

/-- Where a call is, from its first chunk on. -/
inductive Phase where
  /-- Waiting in `next_frame`. -/
  | receiving
  /-- About to reserve for a doubled capacity. -/
  | doubling (needed : Nat)
  /-- Refused that; about to reserve for what is needed. -/
  | exact (needed : Nat)
  | growing (needed target : Nat)
  | copying (needed : Nat)
  /-- About to return an error. -/
  | failing (status : Status)
  /-- Waiting for a parse slot, the upload complete. -/
  | waiting
  | parsing
  /-- The parse thread is gone, and the upload with it. -/
  | returned
  | unslotted
  | ended
deriving DecidableEq, Repr

/-- What `next_frame` comes back with; of a chunk only its size matters here. -/
inductive Next where
  | chunk (size : Nat)
  | options
  | empty
  | closed
  | error (status : Status)
deriving DecidableEq, Repr

inductive Action where
  | next (next : Next)
  | reserve
  | grow
  | copy
  | fail
  | cancel
  | takeSlot
  | threadReturns
  | dropSlot
  | dropShare
deriving DecidableEq, Repr

end Upload

/-- One call: its document cap, its buffer, and the permits it holds. -/
structure Upload where
  maxDocumentBytes : Nat
  phase : Upload.Phase := .receiving
  length : Nat := 0
  capacity : Nat := 0
  held : Nat := 0
deriving DecidableEq, Repr

namespace Upload

/-- The cap as a `usize`. -/
def cap (u : Upload) : Nat := min u.maxDocumentBytes usizeMax

/-- Geometric growth, stopped at the cap. -/
def doubled (u : Upload) (needed : Nat) : Nat :=
  min (max (min (u.capacity * 2) usizeMax) needed) u.cap

/-- `reserve_upload`: the permits left and the permits held after it, or a
refusal, which takes nothing. -/
def reserveUpload (available held capacity : Nat) : Option (Nat × Nat) :=
  let more := divCeil capacity budgetUnit - held
  if more = 0 then some (available, held)
  else if more ≤ u32Max ∧ more ≤ available then some (available - more, held + more)
  else none

/-- `Vec::reserve_exact`, allocating exactly what is asked. -/
def reserveExact (u : Upload) (additional : Nat) : Upload :=
  if u.capacity < u.length + additional then { u with capacity := u.length + additional } else u

/-- One frame of the upload. -/
def frame (limits : Limits) (u : Upload) : Next → Upload
  | .chunk size =>
      if limits.maxChunkBytes < size then
        { u with phase := .failing (.chunkTooLarge size limits.maxChunkBytes) }
      else if u.maxDocumentBytes < u.length + size then
        { u with phase := .failing (.uploadTooLarge u.maxDocumentBytes) }
      else if u.capacity < u.length + size then { u with phase := .doubling (u.length + size) }
      else { u with phase := .copying (u.length + size) }
  | .options => { u with phase := .failing .optionsTwice }
  | .empty => u
  | .closed => { u with phase := .waiting }
  | .error status => { u with phase := .failing status }

/-- Everything a call holds, dropped. -/
def drop (u : Upload) : Upload :=
  { u with phase := .ended, length := 0, capacity := 0, held := 0 }

/-- A step of one call, on the permits and the parse slots available: what is
available after it, and the call. -/
def step (limits : Limits) (available slots : Nat) (u : Upload) :
    Action → Option (Nat × Nat × Upload)
  | .next next =>
      match u.phase with
      | .receiving => some (available, slots, u.frame limits next)
      | _ => none
  | .reserve =>
      match u.phase with
      | .doubling needed =>
          match reserveUpload available u.held (u.doubled needed) with
          | some (available, held) =>
              some (available, slots, { u with held, phase := .growing needed (u.doubled needed) })
          | none => some (available, slots, { u with phase := .exact needed })
      | .exact needed =>
          match reserveUpload available u.held needed with
          | some (available, held) =>
              some (available, slots, { u with held, phase := .growing needed needed })
          | none =>
              some (available, slots,
                { u with phase := .failing (.budgetFull (limits.maxBufferedUploadBytes / mib)) })
      | _ => none
  | .grow =>
      match u.phase with
      | .growing needed target =>
          some (available, slots,
            { u.reserveExact (target - u.length) with phase := .copying needed })
      | _ => none
  | .copy =>
      match u.phase with
      | .copying needed =>
          some (available, slots, { u with length := needed, phase := .receiving })
      | _ => none
  | .fail =>
      match u.phase with
      | .failing _ => some (available + u.held, slots, u.drop)
      | _ => none
  | .cancel =>
      -- the two awaits of a call that holds a share
      match u.phase with
      | .receiving | .waiting => some (available + u.held, slots, u.drop)
      | _ => none
  | .takeSlot =>
      match u.phase with
      | .waiting =>
          if slots = 0 then none else some (available, slots - 1, { u with phase := .parsing })
      | _ => none
  | .threadReturns =>
      match u.phase with
      | .parsing =>
          some (available, slots, { u with phase := .returned, length := 0, capacity := 0 })
      | _ => none
  | .dropSlot =>
      match u.phase with
      | .returned => some (available, slots + 1, { u with phase := .unslotted })
      | _ => none
  | .dropShare =>
      match u.phase with
      | .unslotted => some (available + u.held, slots, u.drop)
      | _ => none

/-! ### What a step can do -/

/-- What each action does, in the phases that enable it. -/
inductive Step (limits : Limits) (available slots : Nat) (u : Upload) :
    Action → Nat × Nat × Upload → Prop
  | next {next : Next} : u.phase = .receiving →
      Step limits available slots u (.next next) (available, slots, u.frame limits next)
  | doubled {needed available' held' : Nat} : u.phase = .doubling needed →
      reserveUpload available u.held (u.doubled needed) = some (available', held') →
      Step limits available slots u .reserve
        (available', slots, { u with held := held', phase := .growing needed (u.doubled needed) })
  | undoubled {needed : Nat} : u.phase = .doubling needed →
      reserveUpload available u.held (u.doubled needed) = none →
      Step limits available slots u .reserve (available, slots, { u with phase := .exact needed })
  | granted {needed available' held' : Nat} : u.phase = .exact needed →
      reserveUpload available u.held needed = some (available', held') →
      Step limits available slots u .reserve
        (available', slots, { u with held := held', phase := .growing needed needed })
  | refused {needed : Nat} : u.phase = .exact needed →
      reserveUpload available u.held needed = none →
      Step limits available slots u .reserve (available, slots,
        { u with phase := .failing (.budgetFull (limits.maxBufferedUploadBytes / mib)) })
  | grow {needed target : Nat} : u.phase = .growing needed target →
      Step limits available slots u .grow
        (available, slots, { u.reserveExact (target - u.length) with phase := .copying needed })
  | copy {needed : Nat} : u.phase = .copying needed →
      Step limits available slots u .copy
        (available, slots, { u with length := needed, phase := .receiving })
  | fail {status : Status} : u.phase = .failing status →
      Step limits available slots u .fail (available + u.held, slots, u.drop)
  | cancel : u.phase = .receiving ∨ u.phase = .waiting →
      Step limits available slots u .cancel (available + u.held, slots, u.drop)
  | takeSlot : u.phase = .waiting → slots ≠ 0 →
      Step limits available slots u .takeSlot
        (available, slots - 1, { u with phase := .parsing })
  | threadReturns : u.phase = .parsing →
      Step limits available slots u .threadReturns
        (available, slots, { u with phase := .returned, length := 0, capacity := 0 })
  | dropSlot : u.phase = .returned →
      Step limits available slots u .dropSlot
        (available, slots + 1, { u with phase := .unslotted })
  | dropShare : u.phase = .unslotted →
      Step limits available slots u .dropShare (available + u.held, slots, u.drop)

/-- Every enabled action of an upload is one of the cases. -/
theorem Step.of_step {limits : Limits} {available slots : Nat} {u : Upload} {a : Action}
    {after : Nat × Nat × Upload} (h : u.step limits available slots a = some after) :
    Step limits available slots u a after := by
  cases a with
  | next next =>
      simp only [step] at h
      split at h
      · rename_i hphase
        cases h
        exact .next hphase
      · cases h
  | reserve =>
      simp only [step] at h
      split at h
      · rename_i needed hphase
        split at h
        · rename_i hgranted
          cases h
          exact .doubled hphase hgranted
        · rename_i hrefused
          cases h
          exact .undoubled hphase hrefused
      · rename_i needed hphase
        split at h
        · rename_i hgranted
          cases h
          exact .granted hphase hgranted
        · rename_i hrefused
          cases h
          exact .refused hphase hrefused
      · cases h
  | grow =>
      simp only [step] at h
      split at h
      · rename_i needed target hphase
        cases h
        exact .grow hphase
      · cases h
  | copy =>
      simp only [step] at h
      split at h
      · rename_i needed hphase
        cases h
        exact .copy hphase
      · cases h
  | fail =>
      simp only [step] at h
      split at h
      · rename_i status hphase
        cases h
        exact .fail hphase
      · cases h
  | cancel =>
      simp only [step] at h
      split at h
      · rename_i hphase
        cases h
        exact .cancel (.inl hphase)
      · rename_i hphase
        cases h
        exact .cancel (.inr hphase)
      · cases h
  | takeSlot =>
      simp only [step] at h
      split at h
      · rename_i hphase
        obtain ⟨hfree, ⟨⟩⟩ := Option.ite_none_left_eq_some.mp h
        exact .takeSlot hphase hfree
      · cases h
  | threadReturns =>
      simp only [step] at h
      split at h
      · rename_i hphase
        cases h
        exact .threadReturns hphase
      · cases h
  | dropSlot =>
      simp only [step] at h
      split at h
      · rename_i hphase
        cases h
        exact .dropSlot hphase
      · cases h
  | dropShare =>
      simp only [step] at h
      split at h
      · rename_i hphase
        cases h
        exact .dropShare hphase
      · cases h

theorem Step.step {limits : Limits} {available slots : Nat} {u : Upload} {a : Action}
    {after : Nat × Nat × Upload} (h : Step limits available slots u a after) :
    u.step limits available slots a = some after := by
  cases h with
  | cancel hphase => rcases hphase with hphase | hphase <;> simp only [Upload.step, hphase]
  | takeSlot hphase hfree => simp only [Upload.step, hphase, if_neg hfree]
  | doubled hphase hreserve | undoubled hphase hreserve | granted hphase hreserve
  | refused hphase hreserve => simp only [Upload.step, hphase, hreserve]
  | next hphase | grow hphase | copy hphase | fail hphase | threadReturns hphase
  | dropSlot hphase | dropShare hphase => simp only [Upload.step, hphase]

/-- The parse slots a call holds. -/
def slot (u : Upload) : Nat :=
  match u.phase with
  | .parsing | .returned => 1
  | _ => 0

end Upload

/-! ## The process

Any number of calls and one semaphore. -/

/-- The two semaphores of a process, and its calls. -/
structure Process where
  available : Nat
  slots : Nat
  calls : List Upload := []
deriving DecidableEq, Repr

namespace Process

inductive Action where
  /-- A call whose options have been read. -/
  | call (options : ParseOptions)
  | step (call : Nat) (action : Upload.Action)
deriving DecidableEq, Repr

def step (service : EpubGrpc) (s : Process) : Action → Option Process
  | .call options =>
      let effective := service.kept.resolve options
      some { s with calls := s.calls ++ [{ maxDocumentBytes := effective.maxDocumentBytes }] }
  | .step call action =>
      match s.calls[call]? with
      | none => none
      | some u =>
          match u.step service.kept s.available s.slots action with
          | some (available, slots, u) =>
              some { available, slots, calls := s.calls.set call u }
          | none => none

/-- A process from `with_metrics` on. -/
def machine (service : EpubGrpc) : Machine Process Action where
  start := { available := service.uploadPermits, slots := service.kept.maxConcurrentParses }
  step := step service

end Process

end GrpcEpub
