/-
# `GrpcEpub.UploadBudget` — the process never buffers more than its budget

Each call is `Sound` by itself: its capacity is paid for by its permits and
stays below its own cap, in every phase, whatever the semaphore answers.  A
step of a call moves permits between the call and the semaphore and loses none.
The two together bound the sum of all buffers in every reachable state.
-/
import GrpcEpub.Uploads

namespace GrpcEpub

theorem le_mul_divCeil (a : Nat) : a ≤ budgetUnit * divCeil a budgetUnit := by
  unfold divCeil budgetUnit
  omega

namespace Upload

/-! ## Reserving

What is taken from the semaphore is what is added to the call. -/

/-- A reservation that is granted moves permits, and covers what was asked. -/
theorem reserveUpload_some {available available' held held' capacity : Nat}
    (h : reserveUpload available held capacity = some (available', held')) :
    available' + held' = available + held ∧ held ≤ held' ∧ capacity ≤ budgetUnit * held' := by
  have hceil := le_mul_divCeil capacity
  unfold reserveUpload at h
  dsimp only at h
  split at h
  · rename_i hnone
    cases h
    refine ⟨rfl, le_rfl, hceil.trans (Nat.mul_le_mul_left _ ?_)⟩
    omega
  · split at h
    · rename_i hfits
      cases h
      refine ⟨by omega, by omega, hceil.trans (Nat.mul_le_mul_left _ ?_)⟩
      omega
    · cases h

/-! ## One call

Its capacity against its permits, in each phase. -/

/-- What a call has established by its phase. -/
def Phase.Ready (u : Upload) : Phase → Prop
  | .doubling needed | .exact needed => u.capacity < needed ∧ needed ≤ u.cap
  | .growing needed target =>
      u.capacity < target ∧ needed ≤ target ∧ target ≤ u.cap ∧ target ≤ budgetUnit * u.held
  | .copying needed => needed ≤ u.capacity
  | .ended => u.held = 0
  | _ => True

/-- A call within its means. -/
structure Sound (u : Upload) : Prop where
  fits : u.length ≤ u.capacity
  paid : u.capacity ≤ budgetUnit * u.held
  capped : u.capacity ≤ u.cap
  ready : u.phase.Ready u

section Sound

variable {u u' : Upload} {limits : Limits} {available available' slots slots' : Nat}

/-- A frame puts its bytes on what has been asked for, or fails. -/
theorem Sound.frame (h : u.Sound) (hphase : u.phase = .receiving)
    (hcap : u.maxDocumentBytes ≤ usizeMax) (next : Next) : (u.frame limits next).Sound := by
  obtain ⟨hfits, hpaid, hcapped, -⟩ := h
  cases next with
  | chunk size =>
      simp only [Upload.frame]
      split
      · exact ⟨hfits, hpaid, hcapped, trivial⟩
      · split
        · exact ⟨hfits, hpaid, hcapped, trivial⟩
        · rename_i hsize
          split
          · rename_i hgrow
            refine ⟨hfits, hpaid, hcapped, hgrow, ?_⟩
            simp only [cap, Nat.min_eq_left hcap]
            omega
          · rename_i hroom
            exact ⟨hfits, hpaid, hcapped, Nat.not_lt.mp hroom⟩
  | options => exact ⟨hfits, hpaid, hcapped, trivial⟩
  | empty => exact ⟨hfits, hpaid, hcapped, by rw [Upload.frame, hphase]; trivial⟩
  | closed => exact ⟨hfits, hpaid, hcapped, trivial⟩
  | error status => exact ⟨hfits, hpaid, hcapped, trivial⟩

theorem le_doubled {needed : Nat} (h : needed ≤ u.cap) : needed ≤ u.doubled needed := by
  unfold doubled
  omega

theorem doubled_le_cap (u : Upload) (needed : Nat) : u.doubled needed ≤ u.cap := by
  unfold doubled
  omega

/-- A granted reservation leaves the call ready to grow to what it asked for. -/
theorem Sound.reserved {needed target held' : Nat} (h : u.Sound) (hgrow : u.capacity < needed)
    (hneeded : needed ≤ target) (htarget : target ≤ u.cap)
    (hgranted : reserveUpload available u.held target = some (available', held')) :
    ({ u with held := held', phase := .growing needed target } : Upload).Sound := by
  obtain ⟨-, hmore, hcovers⟩ := reserveUpload_some hgranted
  exact ⟨h.fits, h.paid.trans (Nat.mul_le_mul_left _ hmore), h.capped,
    hgrow.trans_le hneeded, hneeded, htarget, hcovers⟩

theorem Sound.grow {needed target : Nat} (h : u.Sound) (hphase : u.phase = .growing needed target) :
    ({ u.reserveExact (target - u.length) with phase := .copying needed } : Upload).Sound := by
  have hready := h.ready
  rw [hphase] at hready
  obtain ⟨hgrow, hneeded, htarget, hcovers⟩ := hready
  have hfits := h.fits
  have hsum : u.length + (target - u.length) = target := by omega
  unfold reserveExact
  rw [hsum, if_pos hgrow]
  exact ⟨hfits.trans hgrow.le, hcovers, htarget, hneeded⟩

theorem sound_drop (u : Upload) : u.drop.Sound :=
  ⟨le_rfl, Nat.zero_le _, Nat.zero_le _, rfl⟩

/-- One step of a call: it stays within its means and its cap, and neither a
permit nor a slot is lost. -/
structure Kept (available slots : Nat) (u : Upload) (available' slots' : Nat) (u' : Upload) :
    Prop where
  sound : u'.Sound
  cap : u'.maxDocumentBytes = u.maxDocumentBytes
  permits : available' + u'.held = available + u.held
  slots : slots' + u'.slot = slots + u.slot

theorem kept_drop (hslot : u.slot = 0) :
    Kept available slots u (available + u.held) slots u.drop :=
  ⟨sound_drop u, rfl, rfl, by rw [hslot]; rfl⟩

theorem slot_frame (hphase : u.phase = .receiving) (next : Next) :
    (u.frame limits next).slot = u.slot := by
  have hslot : u.slot = 0 := by rw [slot, hphase]
  rw [hslot]
  cases next with
  | chunk size =>
      simp only [Upload.frame]
      repeat' split
      all_goals rfl
  | empty => rwa [Upload.frame]
  | _ => rfl

theorem held_frame (u : Upload) (limits : Limits) (next : Next) :
    (u.frame limits next).held = u.held ∧
      (u.frame limits next).maxDocumentBytes = u.maxDocumentBytes := by
  cases next with
  | chunk size =>
      simp only [Upload.frame]
      repeat' split
      all_goals exact ⟨rfl, rfl⟩
  | _ => exact ⟨rfl, rfl⟩

theorem reserveExact_same (u : Upload) (additional : Nat) :
    (u.reserveExact additional).held = u.held ∧
      (u.reserveExact additional).maxDocumentBytes = u.maxDocumentBytes := by
  unfold reserveExact
  split <;> exact ⟨rfl, rfl⟩

/-- The step lemma of one call, whatever the semaphore answers. -/
theorem Sound.step {a : Action} (h : u.Sound) (hcap : u.maxDocumentBytes ≤ usizeMax)
    (hstep : Step limits available slots u a (available', slots', u')) :
    Kept available slots u available' slots' u' := by
  have hready := h.ready
  cases hstep with
  | @next next hphase =>
      obtain ⟨hheld, hmax⟩ := held_frame u limits next
      exact ⟨h.frame hphase hcap next, hmax, by rw [hheld], by rw [slot_frame hphase]⟩
  | @doubled needed _ _ hphase hgranted =>
      rw [hphase] at hready
      exact ⟨h.reserved hready.1 (le_doubled hready.2) (doubled_le_cap u needed) hgranted, rfl,
        (reserveUpload_some hgranted).1, by simp [slot, hphase]⟩
  | undoubled hphase hrefused =>
      rw [hphase] at hready
      exact ⟨⟨h.fits, h.paid, h.capped, hready⟩, rfl, rfl, by simp [slot, hphase]⟩
  | granted hphase hgranted =>
      rw [hphase] at hready
      exact ⟨h.reserved hready.1 le_rfl hready.2 hgranted, rfl,
        (reserveUpload_some hgranted).1, by simp [slot, hphase]⟩
  | refused hphase hrefused =>
      exact ⟨⟨h.fits, h.paid, h.capped, trivial⟩, rfl, rfl, by simp [slot, hphase]⟩
  | @grow needed target hphase =>
      obtain ⟨hheld, hmax⟩ := reserveExact_same u (target - u.length)
      exact ⟨h.grow hphase, hmax, by rw [← hheld], by simp [slot, hphase]⟩
  | copy hphase =>
      rw [hphase] at hready
      exact ⟨⟨hready, h.paid, h.capped, trivial⟩, rfl, rfl, by simp [slot, hphase]⟩
  | fail hphase => exact kept_drop (by rw [slot, hphase])
  | cancel hphase => exact kept_drop (by rcases hphase with hphase | hphase <;> rw [slot, hphase])
  | takeSlot hphase hfree =>
      refine ⟨⟨h.fits, h.paid, h.capped, trivial⟩, rfl, rfl, ?_⟩
      simp only [slot, hphase]
      omega
  | threadReturns hphase =>
      exact ⟨⟨le_rfl, Nat.zero_le _, Nat.zero_le _, trivial⟩, rfl, rfl, by simp [slot, hphase]⟩
  | dropSlot hphase =>
      exact ⟨⟨h.fits, h.paid, h.capped, trivial⟩, rfl, rfl, by simp [slot, hphase]⟩
  | dropShare hphase => exact kept_drop (by rw [slot, hphase])

end Sound

end Upload

/-! ## The process

Summed over the calls. -/

namespace Process

variable {service : EpubGrpc} {s s' : Process} {actions : List Action}

/-- What every reachable state has: both semaphores balanced, every call sound. -/
structure Inv (service : EpubGrpc) (s : Process) : Prop where
  permits : Permits.Balanced Upload.held service.uploadPermits s.available s.calls
  slots : Permits.Balanced Upload.slot service.kept.maxConcurrentParses s.slots s.calls
  calls : ∀ u ∈ s.calls, u.Sound ∧ u.maxDocumentBytes ≤ usizeMax

theorem maxDocumentBytes_le (service : EpubGrpc) (options : ParseOptions) :
    (service.kept.resolve options).maxDocumentBytes ≤ usizeMax :=
  (narrow_le_ceiling _ _ _).trans service.documentBytes_le

/-- The step lemma of the process. -/
theorem Inv.step {a : Action} (h : Inv service s) (hstep : step service s a = some s') :
    Inv service s' := by
  cases a with
  | call options =>
      simp only [Process.step, Option.some.injEq] at hstep
      subst hstep
      refine ⟨h.permits.enter rfl, h.slots.enter rfl, fun u hu => ?_⟩
      rcases List.mem_append.mp hu with hu | hu
      · exact h.calls u hu
      · rw [List.mem_singleton.mp hu]
        exact ⟨⟨le_rfl, Nat.zero_le _, Nat.zero_le _, trivial⟩, maxDocumentBytes_le service options⟩
  | step call action =>
      simp only [Process.step] at hstep
      split at hstep
      · cases hstep
      · rename_i u hcall
        obtain ⟨hsound, hcap⟩ := h.calls u (List.mem_of_getElem? hcall)
        split at hstep
        · rename_i available slots u' hu
          cases hstep
          have hkept := hsound.step hcap (.of_step hu)
          exact ⟨h.permits.exchange hcall hkept.permits, h.slots.exchange hcall hkept.slots,
            Permits.forall_mem_set h.calls ⟨hkept.sound, hkept.cap ▸ hcap⟩⟩
        · cases hstep

theorem inv_of_runs (h : (machine service).Runs actions s) : Inv service s :=
  h.invariant ⟨.start _ _, .start _ _, List.forall_mem_nil _⟩ fun _ _ _ hs hstep => hs.step hstep

/-- The capacity a call is about to reserve for. -/
def asks (u : Upload) : Option Nat :=
  match u.phase with
  | .doubling needed => some (u.doubled needed)
  | .exact needed => some needed
  | _ => none

/-- What the upload budget promises of one state of the process. -/
structure WithinBudget (service : EpubGrpc) (s : Process) : Prop where
  balanced : s.available + (s.calls.map Upload.held).sum = service.uploadPermits
  paid : ∀ u ∈ s.calls, u.capacity ≤ budgetUnit * u.held
  capped : ∀ u ∈ s.calls, u.capacity ≤ u.maxDocumentBytes
  bounded : (s.calls.map Upload.capacity).sum ≤
    budgetUnit * divCeil service.kept.maxBufferedUploadBytes budgetUnit
  refused : ∀ i u capacity, s.calls[i]? = some u → asks u = some capacity →
    Upload.reserveUpload s.available u.held capacity = none →
    ∃ phase, Process.step service s (.step i .reserve) =
      some { s with calls := s.calls.set i { u with phase } }
  released : (∀ u ∈ s.calls, u.phase = .ended) → s.available = service.uploadPermits

/-- A refused reservation changes where the call is, and nothing else. -/
theorem step_refused {i capacity : Nat} {u : Upload} (hcall : s.calls[i]? = some u)
    (hasks : asks u = some capacity)
    (hrefused : Upload.reserveUpload s.available u.held capacity = none) :
    ∃ phase, step service s (.step i .reserve) =
      some { s with calls := s.calls.set i { u with phase } } := by
  unfold asks at hasks
  split at hasks
  · rename_i needed hphase
    obtain rfl := Option.some.inj hasks
    refine ⟨.exact needed, ?_⟩
    simp only [step, hcall, Upload.step, hphase, hrefused]
  · rename_i needed hphase
    obtain rfl := Option.some.inj hasks
    refine ⟨.failing (.budgetFull (service.kept.maxBufferedUploadBytes / mib)), ?_⟩
    simp only [step, hcall, Upload.step, hphase, hrefused]
  · cases hasks

theorem uploadPermits_le (service : EpubGrpc) :
    service.uploadPermits ≤ divCeil service.kept.maxBufferedUploadBytes budgetUnit := by
  unfold EpubGrpc.uploadPermits
  refine (Nat.min_le_left _ _).trans ?_
  unfold divCeil budgetUnit
  omega

end Process

open Process

/-- In every reachable state the buffers stay within the budget, and no permit is lost. -/
theorem uploads_within_budget (service : EpubGrpc) (actions : List Process.Action) (s : Process)
    (hrun : (machine service).Runs actions s) : WithinBudget service s := by
  obtain ⟨hpermits, -, hcalls⟩ := inv_of_runs hrun
  refine ⟨hpermits, fun u hu => (hcalls u hu).1.paid, fun u hu => ?_, ?_,
    fun i u capacity hcall hasks hrefused => step_refused hcall hasks hrefused,
    fun hended => hpermits.all_available fun u hu => ?_⟩
  · exact (hcalls u hu).1.capped.trans (Nat.min_le_left _ _)
  · exact (hpermits.sum_le fun u hu => (hcalls u hu).1.paid).trans
      (Nat.mul_le_mul_left _ (uploadPermits_le service))
  · have hready := (hcalls u hu).1.ready
    rwa [hended u hu] at hready

/-- A process with one KiB more than the largest document to share out. -/
def Sample.small : EpubGrpc where
  limits := { Limits.default with maxDocumentBytes := 4096, maxBufferedUploadBytes := 5120 }
  documentBytes_le := by decide

/-- Two uploads that grow in turns: the second is refused its doubling, then
what it needs, and gives its share back. -/
def Sample.crowded : List Process.Action :=
  let arrive (call size : Nat) : List Process.Action :=
    [.step call (.next (.chunk size)), .step call .reserve, .step call .grow, .step call .copy]
  [.call .default, .call .default] ++ arrive 0 1500 ++ arrive 1 1024 ++ arrive 0 1600 ++
    [.step 1 (.next (.chunk 1024)), .step 1 .reserve, .step 1 .reserve, .step 1 .fail,
      .step 0 (.next .closed), .step 0 .takeSlot]

theorem uploads_within_budget_crowded : ∃ s,
    (machine Sample.small).Runs Sample.crowded s ∧ WithinBudget Sample.small s := by
  have hrun : ((machine Sample.small).exec (machine Sample.small).start
      Sample.crowded).isSome = true := by
    decide +kernel
  obtain ⟨s, hs⟩ := Option.isSome_iff_exists.mp hrun
  exact ⟨s, hs, uploads_within_budget Sample.small Sample.crowded s hs⟩

end GrpcEpub
