/-
# `GrpcEpub.Receive` — one upload, whatever its chunks

`EpubGrpc::receive`, with the bytes.  Which reservations it makes depends on
how the upload was cut: it asks for a doubled capacity first, and only near the
budget for exactly what it needs.  Whether it comes through does not: a chunk
is refused exactly when what has arrived with it passes the cap, or does not
fit, in whole KiB, in what the other calls leave of the budget.

Lengths are those of byte vectors, which stay below `isize::MAX`, so the `u64`
sum the cap is compared with is a plain sum.  The capacity arithmetic is
checked: where it could leave `usize`, the call panics.
-/
import GrpcEpub.Archive
import GrpcEpub.UploadBudget

namespace GrpcEpub

/-- One frame of the request stream after the first.  The transport writes the
length of a message in 32 bits, and a chunk is no longer than its message. -/
inductive Frame where
  | chunk (bytes : Bytes) (framed : bytes.length ≤ u32Max)
  | options
  | empty

/-- What `receive` holds: the bytes so far, the capacity they are in, this
call's permits, and the permits nobody holds. -/
structure Receiving where
  bytes : Bytes := []
  capacity : Nat := 0
  held : Nat := 0
  available : Nat
deriving DecidableEq, Repr

namespace Receiving

/-- `a + b` in a `usize`. -/
def add (a b : Nat) : Except Abort Nat :=
  if a + b ≤ usizeMax then .ok (a + b) else .error (.panicked .overflow)

/-- `a - b` in a `usize`. -/
def sub (a b : Nat) : Except Abort Nat :=
  if b ≤ a then .ok (a - b) else .error (.panicked .overflow)

/-- `self.reserve_upload(&mut held, capacity)`. -/
def reserve (limits : Limits) (r : Receiving) (capacity : Nat) : Except Abort Receiving :=
  match Upload.reserveUpload r.available r.held capacity with
  | some (available, held) => .ok { r with available, held }
  | none => .error (.failed (.budgetFull (limits.maxBufferedUploadBytes / mib)))

/-- `Vec::reserve_exact`, allocating exactly what is asked. -/
def reserveExact (r : Receiving) (additional : Nat) : Except Abort Receiving := do
  let wanted ← add r.bytes.length additional
  return if r.capacity < wanted then { r with capacity := wanted } else r

/-- Reserve for a doubled capacity, stopped at the cap, or else for what is
needed: the target, and the share that pays for it. -/
def reserveTarget (limits : Limits) (cap : Nat) (r : Receiving) (needed : Nat) :
    Except Abort (Nat × Receiving) :=
  let doubled := min (max (min (r.capacity * 2) usizeMax) needed) cap
  match r.reserve limits doubled with
  | .ok r => .ok (doubled, r)
  | .error _ => (r.reserve limits needed).map fun r => (needed, r)

/-- Make room for so many bytes in all. -/
def grow (limits : Limits) (cap : Nat) (r : Receiving) (needed : Nat) :
    Except Abort Receiving :=
  if r.capacity < needed then do
    let (target, r) ← r.reserveTarget limits cap needed
    let additional ← sub target r.bytes.length
    r.reserveExact additional
  else .ok r

/-- One chunk. -/
def take (limits : Limits) (maxDocumentBytes : Nat) (r : Receiving) (chunk : Bytes) :
    Except Abort Receiving :=
  if limits.maxChunkBytes < chunk.length then
    .error (.failed (.chunkTooLarge chunk.length limits.maxChunkBytes))
  else if maxDocumentBytes < r.bytes.length + chunk.length then
    .error (.failed (.uploadTooLarge maxDocumentBytes))
  else do
    let needed ← add r.bytes.length chunk.length
    let r ← r.grow limits (min maxDocumentBytes usizeMax) needed
    return { r with bytes := r.bytes ++ chunk }

/-- The loop of `receive`. -/
def receiveFrom (limits : Limits) (maxDocumentBytes : Nat) :
    Receiving → List Frame → Except Abort Receiving
  | r, [] => .ok r
  | r, .chunk bytes _ :: rest => do
      let r ← r.take limits maxDocumentBytes bytes
      receiveFrom limits maxDocumentBytes r rest
  | _, .options :: _ => .error (.failed .optionsTwice)
  | r, .empty :: rest => receiveFrom limits maxDocumentBytes r rest

end Receiving

/-- `EpubGrpc::receive`, while the other calls leave so many permits: the upload
and the share it holds. -/
def receive (limits : Limits) (maxDocumentBytes free : Nat) (frames : List Frame) :
    Except Abort (Bytes × Nat) := do
  let r ← Receiving.receiveFrom limits maxDocumentBytes { available := free } frames
  return (r.bytes, r.held)

/-- The bytes the frames carry. -/
def contents : List Frame → Bytes
  | [] => []
  | .chunk bytes _ :: rest => bytes ++ contents rest
  | _ :: rest => contents rest

/-- A frame of an upload: an empty one, or a chunk within the limit. -/
def Frame.Fits (limits : Limits) : Frame → Prop
  | .chunk bytes _ => bytes.length ≤ limits.maxChunkBytes
  | .options => False
  | .empty => True

/-- What an upload comes to: its bytes, or the code of the status it ends with. -/
def verdict : Except Abort (Bytes × Nat) → Except (Option Code) Bytes
  | .ok (bytes, _) => .ok bytes
  | .error (.failed status) => .error (some status.code)
  | .error _ => .error none

/-! ## One chunk

A chunk is reserved for, once or twice, and what is held afterwards is what has arrived, in KiB. -/

theorem divCeil_le_iff {a n : Nat} : divCeil a budgetUnit ≤ n ↔ a ≤ budgetUnit * n := by
  unfold divCeil budgetUnit
  omega

/-- An upload of so many bytes is within the cap and in the free budget. -/
def Admitted (maxDocumentBytes free size : Nat) : Prop :=
  size ≤ maxDocumentBytes ∧ divCeil size budgetUnit ≤ free

instance (maxDocumentBytes free size : Nat) : Decidable (Admitted maxDocumentBytes free size) :=
  inferInstanceAs (Decidable (_ ∧ _))

theorem Admitted.mono {maxDocumentBytes free size size' : Nat}
    (h : Admitted maxDocumentBytes free size) (hle : size' ≤ size) :
    Admitted maxDocumentBytes free size' :=
  ⟨hle.trans h.1, divCeil_le_iff.mpr (hle.trans (divCeil_le_iff.mp h.2))⟩

namespace Receiving

/-- The buffer is paid for, and the call and the semaphore share the free budget. -/
structure Paid (free : Nat) (r : Receiving) : Prop where
  fits : r.bytes.length ≤ r.capacity
  paid : r.capacity ≤ budgetUnit * r.held
  shared : r.available + r.held = free

variable {limits : Limits} {free maxDocumentBytes capacity needed : Nat} {r r' : Receiving}

theorem Paid.reserve (h : r.Paid free) (hgranted : r.reserve limits capacity = .ok r') :
    r'.Paid free ∧ r'.bytes = r.bytes ∧ r'.capacity = r.capacity ∧
      capacity ≤ budgetUnit * r'.held := by
  unfold Receiving.reserve at hgranted
  split at hgranted
  · rename_i available held hsome
    cases hgranted
    obtain ⟨hsum, hmore, hcovers⟩ := Upload.reserveUpload_some hsome
    refine ⟨⟨h.fits, h.paid.trans (Nat.mul_le_mul_left _ hmore), ?_⟩, rfl, rfl, hcovers⟩
    exact hsum.trans h.shared
  · cases hgranted

/-- Growth of less than a message's length is granted when it fits. -/
theorem Paid.reserve_iff (limits : Limits) (h : r.Paid free) (hstep : needed ≤ r.capacity + u32Max) :
    (∃ r', r.reserve limits needed = .ok r') ↔ divCeil needed budgetUnit ≤ free := by
  have hheld := h.shared
  have hpaid := h.paid
  have hsmall : divCeil needed budgetUnit - r.held ≤ u32Max := by
    unfold divCeil budgetUnit u32Max at *
    omega
  unfold Receiving.reserve Upload.reserveUpload
  dsimp only
  constructor
  · rintro ⟨r', hr'⟩
    split at hr'
    · rename_i hsome
      split at hsome
      · omega
      · split at hsome
        · omega
        · cases hsome
    · cases hr'
  · intro hfree
    split
    · exact ⟨_, rfl⟩
    · rename_i hnone
      split at hnone
      · cases hnone
      · rw [if_pos ⟨hsmall, by omega⟩] at hnone
        cases hnone

/-- Growing to what has been paid for. -/
theorem Paid.extend {target : Nat} (h : r.Paid free) (hgrow : r.capacity ≤ target)
    (hpaid : target ≤ budgetUnit * r.held) (hmax : target ≤ usizeMax) :
    ∃ r', (sub target r.bytes.length >>= r.reserveExact) = .ok r' ∧ r'.Paid free ∧
      r'.bytes = r.bytes ∧ target ≤ r'.capacity := by
  have hlength : r.bytes.length ≤ target := h.fits.trans hgrow
  have hsum : r.bytes.length + (target - r.bytes.length) = target := Nat.add_sub_of_le hlength
  have hsub : sub target r.bytes.length = .ok (target - r.bytes.length) := if_pos hlength
  have hadd : add r.bytes.length (target - r.bytes.length) = .ok target := by
    unfold add
    rw [hsum, if_pos hmax]
  refine ⟨if r.capacity < target then { r with capacity := target } else r, ?_, ?_, ?_, ?_⟩
  · rw [hsub]
    show r.reserveExact _ = _
    unfold reserveExact
    rw [hadd]
    rfl
  · split
    · exact ⟨hlength, hpaid, h.shared⟩
    · exact h
  · split <;> rfl
  · split
    · exact le_rfl
    · rename_i hroom
      exact Nat.not_lt.mp hroom

/-- A growth that fits is granted, doubled or not. -/
theorem Paid.grow {cap : Nat} (limits : Limits) (h : r.Paid free) (hcap : needed ≤ cap)
    (hmax : cap ≤ usizeMax) (hstep : needed ≤ r.capacity + u32Max)
    (hfree : divCeil needed budgetUnit ≤ free) :
    ∃ r', r.grow limits cap needed = .ok r' ∧ r'.Paid free ∧ r'.bytes = r.bytes ∧
      needed ≤ r'.capacity := by
  unfold Receiving.grow
  by_cases hgrow : r.capacity < needed
  · rw [if_pos hgrow]
    have hle : needed ≤ min (max (min (r.capacity * 2) usizeMax) needed) cap := by omega
    unfold reserveTarget
    dsimp only
    cases hdoubled : r.reserve limits (min (max (min (r.capacity * 2) usizeMax) needed) cap) with
    | ok r₁ =>
        obtain ⟨hpaid, hbytes, hcapacity, hcovers⟩ := h.reserve hdoubled
        obtain ⟨r', hr', hpaid', hbytes', hroom⟩ := hpaid.extend (by omega) hcovers (by omega)
        exact ⟨r', hr', hpaid', hbytes'.trans hbytes, hle.trans hroom⟩
    | error e =>
        obtain ⟨r₁, hr₁⟩ := (h.reserve_iff limits hstep).mpr hfree
        obtain ⟨hpaid, hbytes, hcapacity, hcovers⟩ := h.reserve hr₁
        obtain ⟨r', hr', hpaid', hbytes', hroom⟩ :=
          hpaid.extend (hcapacity ▸ hgrow.le) hcovers (hcap.trans hmax)
        rw [hr₁]
        exact ⟨r', hr', hpaid', hbytes'.trans hbytes, hroom⟩
  · exact ⟨r, if_neg hgrow, h, rfl, Nat.not_lt.mp hgrow⟩

/-- A growth that does not fit is refused, after both attempts. -/
theorem Paid.grow_refused {cap : Nat} (limits : Limits) (h : r.Paid free) (hcap : needed ≤ cap)
    (hfree : ¬ divCeil needed budgetUnit ≤ free) :
    r.grow limits cap needed =
      .error (.failed (.budgetFull (limits.maxBufferedUploadBytes / mib))) := by
  have hshared := h.shared
  -- whatever is granted fits in the free budget
  have hrefused : ∀ capacity, needed ≤ capacity → r.reserve limits capacity =
      .error (.failed (.budgetFull (limits.maxBufferedUploadBytes / mib))) := by
    intro capacity hle
    unfold Receiving.reserve
    split
    · rename_i available held hsome
      obtain ⟨hsum, -, hcovers⟩ := Upload.reserveUpload_some hsome
      refine absurd (divCeil_le_iff.mpr ?_) hfree
      exact hle.trans (hcovers.trans (Nat.mul_le_mul_left _ (by omega)))
    · rfl
  have hgrow : r.capacity < needed := by
    by_contra hroom
    refine hfree (divCeil_le_iff.mpr ?_)
    exact (Nat.not_lt.mp hroom).trans (h.paid.trans (Nat.mul_le_mul_left _ (by omega)))
  unfold Receiving.grow reserveTarget
  dsimp only
  rw [if_pos hgrow, hrefused _ (by omega), hrefused needed le_rfl]
  rfl

/-- One chunk of an upload that stays admitted. -/
theorem Paid.take {chunk : Bytes} (h : r.Paid free) (hdocument : maxDocumentBytes ≤ u64Max)
    (hframed : chunk.length ≤ u32Max) (hchunk : chunk.length ≤ limits.maxChunkBytes)
    (hadmitted : Admitted maxDocumentBytes free (r.bytes.length + chunk.length)) :
    ∃ r', r.take limits maxDocumentBytes chunk = .ok r' ∧ r'.Paid free ∧
      r'.bytes = r.bytes ++ chunk := by
  have hfits := h.fits
  have hadd : add r.bytes.length chunk.length = .ok (r.bytes.length + chunk.length) :=
    if_pos (hadmitted.1.trans hdocument)
  have hcap : min maxDocumentBytes usizeMax = maxDocumentBytes := Nat.min_eq_left hdocument
  obtain ⟨r', hr', hpaid, hbytes, hroom⟩ :=
    h.grow limits hadmitted.1 hdocument (by omega) hadmitted.2
  refine ⟨{ r' with bytes := r.bytes ++ chunk }, ?_, ⟨?_, hpaid.paid, hpaid.shared⟩, rfl⟩
  · unfold Receiving.take
    rw [if_neg (Nat.not_lt.mpr hchunk), if_neg (Nat.not_lt.mpr hadmitted.1), hadd, hcap]
    show r.grow limits maxDocumentBytes _ >>= _ = _
    rw [hr', ← hbytes]
    rfl
  · rw [List.length_append]
    exact hroom

/-- One chunk past the cap or past the free budget. -/
theorem Paid.take_refused {chunk : Bytes} (h : r.Paid free)
    (hdocument : maxDocumentBytes ≤ u64Max) (hchunk : chunk.length ≤ limits.maxChunkBytes)
    (hrefused : ¬ Admitted maxDocumentBytes free (r.bytes.length + chunk.length)) :
    ∃ status, r.take limits maxDocumentBytes chunk = .error (.failed status) ∧
      status.code = .resourceExhausted := by
  unfold Receiving.take
  rw [if_neg (Nat.not_lt.mpr hchunk)]
  by_cases hpast : maxDocumentBytes < r.bytes.length + chunk.length
  · exact ⟨_, if_pos hpast, rfl⟩
  · have hle := Nat.not_lt.mp hpast
    have hfree : ¬ divCeil (r.bytes.length + chunk.length) budgetUnit ≤ free :=
      fun hfree => hrefused ⟨hle, hfree⟩
    have hadd : add r.bytes.length chunk.length = .ok (r.bytes.length + chunk.length) :=
      if_pos (hle.trans hdocument)
    refine ⟨.budgetFull (limits.maxBufferedUploadBytes / mib), ?_, rfl⟩
    have hcap : r.bytes.length + chunk.length ≤ min maxDocumentBytes usizeMax :=
      Nat.le_min.mpr ⟨hle, hle.trans hdocument⟩
    rw [if_neg hpast, hadd]
    show r.grow limits (min maxDocumentBytes usizeMax) _ >>= _ = _
    rw [h.grow_refused limits hcap hfree]
    rfl

/-! ## The whole upload

By induction on the frames, with what has been paid for. -/

/-- By induction on the frames: the verdict depends on what has arrived and not on how. -/
theorem verdict_receiveFrom {frames : List Frame} (hdocument : maxDocumentBytes ≤ u64Max)
    (hframes : ∀ frame ∈ frames, frame.Fits limits) (h : r.Paid free)
    (hadmitted : Admitted maxDocumentBytes free r.bytes.length) :
    verdict ((receiveFrom limits maxDocumentBytes r frames).map fun r => (r.bytes, r.held)) =
      if Admitted maxDocumentBytes free (r.bytes ++ contents frames).length then
        .ok (r.bytes ++ contents frames)
      else .error (some .resourceExhausted) := by
  induction frames generalizing r with
  | nil =>
      rw [contents, List.append_nil, if_pos hadmitted]
      rfl
  | cons frame rest ih =>
      obtain ⟨hframe, hrest⟩ := List.forall_mem_cons.mp hframes
      cases frame with
      | options => exact absurd hframe id
      | empty => exact ih hrest h hadmitted
      | chunk bytes hframed =>
          rw [receiveFrom, contents, ← List.append_assoc]
          by_cases hnext : Admitted maxDocumentBytes free (r.bytes.length + bytes.length)
          · obtain ⟨r', hr', hpaid, hbytes⟩ :=
              h.take hdocument hframed hframe hnext
            rw [hr', ← hbytes]
            refine ih hrest hpaid ?_
            rwa [hbytes, List.length_append]
          · obtain ⟨status, htake, hcode⟩ := h.take_refused hdocument hframe hnext
            have hall : ¬ Admitted maxDocumentBytes free
                (r.bytes ++ bytes ++ contents rest).length := by
              intro hall
              refine hnext (hall.mono ?_)
              simp only [List.length_append]
              omega
            rw [htake, if_neg hall, ← hcode]
            rfl

end Receiving

theorem verdict_receive {limits : Limits} {maxDocumentBytes free : Nat} {frames : List Frame}
    (hdocument : maxDocumentBytes ≤ u64Max) (hframes : ∀ frame ∈ frames, frame.Fits limits) :
    verdict (receive limits maxDocumentBytes free frames) =
      if Admitted maxDocumentBytes free (contents frames).length then .ok (contents frames)
      else .error (some .resourceExhausted) := by
  have hstart : Receiving.Paid free { available := free } := ⟨le_rfl, Nat.zero_le _, rfl⟩
  have hempty : Admitted maxDocumentBytes free 0 :=
    ⟨Nat.zero_le _, divCeil_le_iff.mpr (Nat.zero_le _)⟩
  exact Receiving.verdict_receiveFrom hdocument hframes hstart hempty

/-- Two ways of cutting one upload come to the same, and to what the cap and the
free budget say of its size. -/
theorem chunk_boundaries_invisible (limits : Limits) (maxDocumentBytes free : Nat)
    (frames frames' : List Frame) (hdocument : maxDocumentBytes ≤ u64Max)
    (hframes : ∀ frame ∈ frames, frame.Fits limits)
    (hframes' : ∀ frame ∈ frames', frame.Fits limits)
    (hsame : contents frames = contents frames') :
    verdict (receive limits maxDocumentBytes free frames) =
      verdict (receive limits maxDocumentBytes free frames') ∧
    verdict (receive limits maxDocumentBytes free frames) =
      if (contents frames).length ≤ maxDocumentBytes ∧
          divCeil (contents frames).length budgetUnit ≤ free then .ok (contents frames)
      else .error (some .resourceExhausted) := by
  have h := @verdict_receive limits maxDocumentBytes free frames hdocument hframes
  have h' := @verdict_receive limits maxDocumentBytes free frames' hdocument hframes'
  exact ⟨by rw [h, h', hsame], h⟩

/-- Three bytes in two ways. -/
theorem chunk_boundaries_invisible_thrice :
    let limits := { Limits.default with maxChunkBytes := 2 }
    let frames := [Frame.chunk [1, 2] (by decide), .empty, .chunk [3] (by decide)]
    let frames' := [Frame.chunk [1] (by decide), .chunk [] (by decide), .chunk [2, 3] (by decide)]
    verdict (receive limits 4096 3 frames) = verdict (receive limits 4096 3 frames') ∧
    verdict (receive limits 4096 3 frames) =
      if (contents frames).length ≤ 4096 ∧ divCeil (contents frames).length budgetUnit ≤ 3 then
        .ok (contents frames)
      else .error (some .resourceExhausted) :=
  chunk_boundaries_invisible { Limits.default with maxChunkBytes := 2 } 4096 3
    [.chunk [1, 2] (by decide), .empty, .chunk [3] (by decide)]
    [.chunk [1] (by decide), .chunk [] (by decide), .chunk [2, 3] (by decide)]
    (by decide) (by simp [Frame.Fits]) (by simp [Frame.Fits]) rfl

/-! ## A call of the process

`receive` on its own is a run of one call among others, when these leave it alone. -/

namespace Process

/-- The process with one call moved on. -/
def put (s : Process) (i available : Nat) (u : Upload) : Process :=
  { s with available, calls := s.calls.set i u }

variable {service : EpubGrpc} {s : Process} {i available available' : Nat} {u u' : Upload}

theorem exec_put {a : Upload.Action} (as : List Upload.Action) (hi : i < s.calls.length)
    (h : Upload.Step service.kept available s.slots u a (available', s.slots, u')) :
    (machine service).exec (s.put i available u) ((a :: as).map (.step i)) =
      (machine service).exec (s.put i available' u') (as.map (.step i)) := by
  refine Machine.exec_cons _ ?_
  have hcall : (s.calls.set i u)[i]? = some u := by
    rw [List.getElem?_set_self hi]
  show step service (s.put i available u) (.step i a) = _
  simp only [step, put, hcall, h.step, List.set_set]

end Process

namespace Receiving

/-- The call of the process that has received this much. -/
def upload (r : Receiving) (maxDocumentBytes : Nat) : Upload where
  maxDocumentBytes := maxDocumentBytes
  length := r.bytes.length
  capacity := r.capacity
  held := r.held

variable {service : EpubGrpc} {s : Process} {i maxDocumentBytes : Nat} {r r' : Receiving}

theorem reserve_ok {limits : Limits} {capacity : Nat} (h : r.reserve limits capacity = .ok r') :
    Upload.reserveUpload r.available r.held capacity = some (r'.available, r'.held) ∧
      r'.bytes = r.bytes ∧ r'.capacity = r.capacity := by
  unfold reserve at h
  split at h
  · rename_i hsome
    cases h
    exact ⟨hsome, rfl, rfl⟩
  · cases h

theorem reserve_error {limits : Limits} {capacity : Nat} {e : Abort}
    (h : r.reserve limits capacity = .error e) :
    Upload.reserveUpload r.available r.held capacity = none := by
  unfold reserve at h
  split at h
  · cases h
  · rename_i hnone
    exact hnone

theorem add_ok {a b c : Nat} (h : add a b = .ok c) : c = a + b := by
  unfold add at h
  split at h
  · exact (Except.ok.inj h).symm
  · cases h

theorem sub_ok {a b c : Nat} (h : sub a b = .ok c) : c = a - b := by
  unfold sub at h
  split at h
  · exact (Except.ok.inj h).symm
  · cases h

/-- The two models of a call reserve alike. -/
theorem reserveExact_ok {m additional : Nat} (h : r.reserveExact additional = .ok r') :
    r'.upload m = (r.upload m).reserveExact additional ∧
      r'.available = r.available ∧ r'.bytes = r.bytes := by
  obtain ⟨wanted, hwanted, h⟩ := Except.bind_ok h
  cases h
  unfold add at hwanted
  split at hwanted
  · cases hwanted
    unfold Upload.reserveExact
    refine ⟨?_, ?_, ?_⟩
    · show _ = if r.capacity < r.bytes.length + additional then _ else _
      split <;> rfl
    · split <;> rfl
    · split <;> rfl
  · cases hwanted

theorem reserveExact_phase (u : Upload) (phase : Upload.Phase) (additional : Nat) :
    ({ u with phase } : Upload).reserveExact additional =
      { u.reserveExact additional with phase } := by
  unfold Upload.reserveExact
  show (if u.capacity < u.length + additional then _ else _) = _
  split <;> rfl

/-- The last step of growing, once the reservation has been made. -/
theorem growing_runs (service : EpubGrpc) (maxDocumentBytes needed : Nat) {r₁ : Receiving}
    {target : Nat} (hi : i < s.calls.length)
    (hexact : r₁.reserveExact (target - r₁.bytes.length) = .ok r') :
    (Process.machine service).exec
        (s.put i r₁.available
          { r₁.upload maxDocumentBytes with phase := .growing needed target })
        ([Upload.Action.grow].map (.step i)) =
      some (s.put i r'.available { r'.upload maxDocumentBytes with phase := .copying needed }) := by
  obtain ⟨hupload, havailable, -⟩ := reserveExact_ok (r := r₁) hexact
  rw [Process.exec_put [] hi (.grow rfl), reserveExact_phase, hupload, havailable]
  rfl

theorem upload_doubled (r : Receiving) (maxDocumentBytes needed : Nat) (phase : Upload.Phase) :
    ({ r.upload maxDocumentBytes with phase } : Upload).doubled needed =
      min (max (min (r.capacity * 2) usizeMax) needed) (min maxDocumentBytes usizeMax) := by
  rw [Upload.doubled, Upload.cap, upload]

/-- Growing is reserving, once or twice, and then growing to what was granted. -/
theorem grow_runs {needed : Nat} (hi : i < s.calls.length)
    (h : r.grow service.kept (min maxDocumentBytes usizeMax) needed = .ok r') :
    r'.bytes = r.bytes ∧ ∃ actions : List Upload.Action,
      (Process.machine service).exec
        (s.put i r.available { r.upload maxDocumentBytes with
          phase := if r.capacity < needed then .doubling needed else .copying needed })
        (actions.map (.step i)) =
      some (s.put i r'.available { r'.upload maxDocumentBytes with phase := .copying needed }) := by
  unfold Receiving.grow at h
  split at h
  · rename_i hgrow
    rw [if_pos hgrow]
    obtain ⟨⟨target, r₁⟩, hreserved, h⟩ := Except.bind_ok h
    obtain ⟨additional, hsub, hexact⟩ := Except.bind_ok h
    obtain rfl := sub_ok hsub
    obtain ⟨-, -, hbytes⟩ := reserveExact_ok (r := r₁) (m := maxDocumentBytes) hexact
    unfold reserveTarget at hreserved
    dsimp only at hreserved
    split at hreserved
    · rename_i hdoubled
      cases hreserved
      obtain ⟨hgranted, hbytes₁, hcapacity₁⟩ := reserve_ok hdoubled
      rw [← upload_doubled r maxDocumentBytes needed (.doubling needed)] at hgranted hexact
      refine ⟨hbytes.trans hbytes₁, [.reserve, .grow], ?_⟩
      rw [Process.exec_put _ hi (.doubled rfl hgranted), ← growing_runs service maxDocumentBytes needed hi hexact]
      simp only [upload, hbytes₁, hcapacity₁]
    · rename_i hdoubled
      have hrefused := reserve_error hdoubled
      rw [← upload_doubled r maxDocumentBytes needed (.doubling needed)] at hrefused
      cases hneeded : r.reserve service.kept needed with
      | error e =>
          rw [hneeded] at hreserved
          cases hreserved
      | ok r₂ =>
          rw [hneeded] at hreserved
          cases hreserved
          obtain ⟨hgranted, hbytes₁, hcapacity₁⟩ := reserve_ok hneeded
          refine ⟨hbytes.trans hbytes₁, [.reserve, .reserve, .grow], ?_⟩
          rw [Process.exec_put _ hi (.undoubled rfl hrefused),
            Process.exec_put _ hi (.granted rfl hgranted), ← growing_runs service maxDocumentBytes needed hi hexact]
          simp only [upload, hbytes₁, hcapacity₁]
  · rename_i hroom
    cases h
    refine ⟨rfl, [], ?_⟩
    rw [if_neg hroom]
    rfl

/-- A chunk that is taken moves the call on, back to where it receives. -/
theorem take_runs {bytes : Bytes} (hi : i < s.calls.length)
    (h : r.take service.kept maxDocumentBytes bytes = .ok r') :
    ∃ actions : List Upload.Action,
      (Process.machine service).exec (s.put i r.available (r.upload maxDocumentBytes))
        (actions.map (.step i)) =
      some (s.put i r'.available (r'.upload maxDocumentBytes)) := by
  unfold Receiving.take at h
  split at h
  · cases h
  · rename_i hchunk
    split at h
    · cases h
    · rename_i hpast
      obtain ⟨needed, hadd, h⟩ := Except.bind_ok h
      obtain ⟨r₁, hgrown, heq⟩ := Except.bind_ok h
      obtain rfl := add_ok hadd
      cases heq
      obtain ⟨hbytes, actions, hexec⟩ := grow_runs hi hgrown
      refine ⟨.next (.chunk bytes.length) :: (actions ++ [.copy]), ?_⟩
      have hframe : (r.upload maxDocumentBytes).frame service.kept (.chunk bytes.length) =
          { r.upload maxDocumentBytes with
            phase := if r.capacity < r.bytes.length + bytes.length then
              .doubling (r.bytes.length + bytes.length)
            else .copying (r.bytes.length + bytes.length) } := by
        show (if service.kept.maxChunkBytes < bytes.length then _ else _) = _
        rw [if_neg hchunk]
        show (if maxDocumentBytes < r.bytes.length + bytes.length then _ else _) = _
        rw [if_neg hpast]
        show (if r.capacity < r.bytes.length + bytes.length then _ else _) = _
        split <;> rfl
      rw [Process.exec_put _ hi (.next rfl), hframe, List.map_append, Machine.exec_append, hexec,
        Option.bind_some, Process.exec_put [] hi (.copy rfl)]
      simp only [upload, List.length_append, hbytes]
      rfl

/-- What `receive` lets through is a run of the process: the call ends up with
these bytes and this share, and waits for its next frame. -/
theorem receiveFrom_runs {frames : List Frame} (hi : i < s.calls.length)
    (h : receiveFrom service.kept maxDocumentBytes r frames = .ok r') :
    ∃ actions : List Upload.Action,
      (Process.machine service).exec (s.put i r.available (r.upload maxDocumentBytes))
        (actions.map (.step i)) =
      some (s.put i r'.available (r'.upload maxDocumentBytes)) := by
  induction frames generalizing r with
  | nil =>
      cases h
      exact ⟨[], rfl⟩
  | cons frame rest ih =>
      cases frame with
      | chunk bytes hframed =>
          obtain ⟨r₁, htake, h⟩ := Except.bind_ok h
          obtain ⟨actions, hexec⟩ := take_runs hi htake
          obtain ⟨actions', hexec'⟩ := ih h
          refine ⟨actions ++ actions', ?_⟩
          rw [List.map_append, Machine.exec_append, hexec]
          exact hexec'
      | options => cases h
      | empty => exact ih h

end Receiving

end GrpcEpub
