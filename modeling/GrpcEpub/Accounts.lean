/-
# `GrpcEpub.Accounts` — the decompression budget of a whole call

The budget is the service's only bound on what an upload inflates to.  The
ledger of `GrpcEpub.Ledger` is carried here to whole calls, with the clamping
of the caller's options in front of it and the trailer behind it.
-/
import GrpcEpub.Contract
import GrpcEpub.Sample

namespace GrpcEpub

/-- A call's budget, from the options to the trailer. -/
structure Balanced {π : Projection} (ceilings : Limits) (options : ParseOptions)
    (outcome : Outcome) (call : Call π) : Prop where
  ceiling : (ceilings.resolve options).maxUncompressedBytes ≤ ceilings.maxUncompressedBytes
  requested : options.maxUncompressedMib ≠ 0 →
    (ceilings.resolve options).maxUncompressedBytes ≤ options.maxUncompressedMib * mib
  /-- Wherever the call is left, nothing of the budget has gone missing. -/
  balance : call.budget.consumed + call.budget.remaining =
    (ceilings.resolve options).maxUncompressedBytes
  /-- After each buffer returned, the budget is charged for exactly the buffers so far. -/
  readings : ∀ pre reading post, call.reads = pre ++ reading :: post →
    reading.budget.consumed + reading.budget.remaining =
      (ceilings.resolve options).maxUncompressedBytes ∧
    reading.budget.consumed = ((pre ++ [reading]).map (·.bytes.length)).sum ∧
    reading.budget.entries = (pre ++ [reading]).length
  /-- So is the budget the call is left with, unless its thread died of a full
  entry counter in the middle of a read. -/
  total : (call.budget.consumed = (call.reads.map (·.bytes.length)).sum ∧
      call.budget.entries = call.reads.length) ∨
    outcome = .panicked .overflow ∧ u32Max ≤ call.reads.length
  trailer : ∀ status, .status status ∈ call.sent.map Delivery.event →
    status.uncompressedBytes ≤ ceilings.maxUncompressedBytes

/-- What one read does to any budget: it never subtracts more than there is, and
a read that fails leaves the budget as it was. -/
structure ReadsSafely (archive : MemoryArchive) (entry : EntryInfo) (limits : Effective)
    (budget : Budget) : Prop where
  noUnderflow : ∀ bytes, Archive.inflate archive entry limits budget.remaining = .ok bytes →
    bytes.length ≤ budget.remaining
  failed : ∀ status left,
    (Archive.readEntry archive entry limits).exec budget = (.error (.failed status), left) →
    left = budget

theorem readsSafely (archive : MemoryArchive) (entry : EntryInfo) (limits : Effective)
    (budget : Budget) : ReadsSafely archive entry limits budget where
  noUnderflow := fun _ h => (Archive.inflate_ok h).2
  failed := fun status left h => by
    rcases Archive.readEntry_cases archive entry limits budget with
      ⟨-, hexec⟩ | ⟨status', hexec⟩ | ⟨-, -, hexec⟩ | ⟨-, -, hexec⟩
    all_goals rw [hexec] at h
    all_goals simp only [Prod.mk.injEq, Except.error.injEq, reduceCtorEq, false_and] at h
    exact h.2.symm

section Balanced

variable {π : Projection} {crates : Crates} {ceilings : Limits} {options : ParseOptions}
  {bytes : Bytes}

theorem trailer_consumed {limits : Effective} (client : Nat → Bool) {status : ParseStatus}
    (h : .status status ∈ (run π crates limits bytes client).2.sent.map Delivery.event) :
    status.uncompressedBytes = (run π crates limits bytes client).2.budget.consumed := by
  rcases run_spec (π := π) client with hrefused | ⟨archive, book, spine, status', hdelivered⟩
  · rw [hrefused.sent] at h
    cases h
  · obtain ⟨hcomplete, rfl⟩ := hdelivered.complete_of_status h
    exact (hdelivered.receipt hcomplete).1

/-- Complete or not, what a call has spent and what it has left come to its budget. -/
theorem run_balanced (client : Nat → Bool) (hceiling : ceilings.maxUncompressedBytes ≤ u64Max) :
    Balanced ceilings options (run π crates (ceilings.resolve options) bytes client).1
      (run π crates (ceilings.resolve options) bytes client).2 := by
  have hle : (ceilings.resolve options).maxUncompressedBytes ≤ ceilings.maxUncompressedBytes :=
    narrow_le_ceiling _ _ _
  obtain ⟨archive, budget, hledger, hbudget, hbalance⟩ :=
    run_accounted π crates (ceilings.resolve options) bytes client
  have hbalance := hbalance (hle.trans hceiling)
  refine ⟨hle, fun h => narrow_le_requested h _ _, hbalance, fun pre reading post h => ?_, ?_, ?_⟩
  · have := hledger.before pre reading post h
    exact ⟨this.balance, this.consumed_eq, this.entries_eq⟩
  · rcases hbudget with hsame | ⟨hpanic, hcap | hfull⟩
    · rw [hsame]
      exact .inl ⟨hledger.consumed_eq, hledger.entries_eq⟩
    · omega
    · exact .inr ⟨hpanic, hfull⟩
  · intro status hstatus
    rw [trailer_consumed client hstatus]
    omega

end Balanced

/-- For every upload, every selection of options and every client. -/
theorem call_budget_balanced (π : Projection) (crates : Crates) (ceilings : Limits)
    (options : ParseOptions) (bytes : Bytes) (client : Nat → Bool)
    (hceiling : ceilings.maxUncompressedBytes ≤ u64Max) :
    Balanced ceilings options (run π crates (ceilings.resolve options) bytes client).1
        (run π crates (ceilings.resolve options) bytes client).2 ∧
      ∀ archive entry limits budget, ReadsSafely archive entry limits budget :=
  ⟨run_balanced client hceiling, readsSafely⟩

theorem call_budget_balanced_backwards : Limits.default.maxUncompressedBytes ≤ u64Max ∧
    Balanced Limits.default .default
      (run Sample.counting Sample.backwards.crates Sample.defaults Sample.backwards.bytes
        Sample.patient).1
      (run Sample.counting Sample.backwards.crates Sample.defaults Sample.backwards.bytes
        Sample.patient).2 :=
  ⟨by decide, (call_budget_balanced Sample.counting Sample.backwards.crates Limits.default .default
    Sample.backwards.bytes Sample.patient (by decide)).1⟩

end GrpcEpub
