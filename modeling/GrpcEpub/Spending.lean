/-
# `GrpcEpub.Spending` — what a list of reads costs

Reading entries one after another on one budget charges it for every one of
them, so the receipt of a completed call is a sum over its schedule.
-/
import GrpcEpub.Completion

namespace GrpcEpub

namespace Archive

variable {archive : MemoryArchive} {limits : Effective} {entries : List EntryInfo}

/-- The size of the entry at a position. -/
def sizeAt (archive : MemoryArchive) (entries : List EntryInfo) (k : Nat) : Nat :=
  (archive.inflated (entries.getD k default)).length

theorem spend_ok {budget budget' : Budget} {k : Nat}
    (h : spend archive limits entries budget k = .ok budget') :
    sizeAt archive entries k ≤ budget.remaining ∧
      budget' = budget.charge (sizeAt archive entries k) := by
  unfold spend at h
  rcases readEntry_cases archive (entries.getD k default) limits budget with
    ⟨hfits, hexec⟩ | ⟨status, hexec⟩ | ⟨-, -, hexec⟩ | ⟨-, -, hexec⟩
  · rw [hexec] at h
    exact ⟨hfits, (Except.ok.inj h).symm⟩
  all_goals
    rw [hexec] at h
    cases h

/-- By induction on the positions: sizes and counts add up. -/
theorem spendAll_ok {positions : List Nat} {budget budget' : Budget}
    (h : spendAll archive limits entries budget positions = .ok budget') :
    budget'.consumed = budget.consumed + (positions.map (sizeAt archive entries)).sum ∧
      budget'.entries = budget.entries + positions.length := by
  unfold spendAll at h
  induction positions generalizing budget with
  | nil =>
      obtain rfl := Except.ok.inj h
      exact ⟨rfl, rfl⟩
  | cons k rest ih =>
      rw [List.foldlM_cons] at h
      obtain ⟨next, hnext, hrest⟩ := Except.bind_ok h
      obtain ⟨-, rfl⟩ := spend_ok hnext
      obtain ⟨hconsumed, hentries⟩ := ih hrest
      simp only [Budget.charge] at hconsumed hentries
      refine ⟨?_, ?_⟩
      · rw [hconsumed, List.map_cons, List.sum_cons, Nat.add_assoc]
      · rw [hentries, List.length_cons]
        omega

end Archive

section Receipt

variable {π : Projection} {crates : Crates} {limits : Effective} {bytes : Bytes}
  {client : Nat → Bool} {archive : MemoryArchive} {book : Book} {spine : List SpineEntry}

/-- Behind a completed call there is a book. -/
theorem run_delivered (hcomplete : (run π crates limits bytes client).1 = .complete) :
    ∃ archive book spine status, Delivered π crates limits bytes archive book spine status
      (run π crates limits bytes client).1 (run π crates limits bytes client).2 := by
  rcases @run_spec π crates limits bytes client with hrefused | h
  · exact absurd hcomplete hrefused.incomplete
  · exact h

/-- A completed call is the call of a client that stays to the end. -/
theorem run_eq_staying (hcomplete : (run π crates limits bytes client).1 = .complete) :
    run π crates limits bytes client = run π crates limits bytes staying :=
  (run_cut π crates limits bytes client).2.1 ((run_complete_client client).mp hcomplete).2

/-- The receipt of a completed call is the sum over its schedule. -/
theorem receipt_of_complete (h : Prepared crates limits bytes archive book spine)
    (hcomplete : (run π crates limits bytes client).1 = .complete) {status : ParseStatus}
    (hstatus : .status status ∈ (run π crates limits bytes client).2.sent.map Delivery.event) :
    status.uncompressedBytes =
        ((book.schedule crates limits archive spine).map
          (Archive.sizeAt archive book.entries)).sum ∧
      status.entriesRead = (book.schedule crates limits archive spine).length := by
  obtain ⟨archive', book', spine', last, hdelivered⟩ := run_delivered hcomplete
  obtain ⟨rfl, rfl, rfl⟩ := h.unique hdelivered.prepared
  obtain ⟨-, rfl⟩ := hdelivered.complete_of_status hstatus
  obtain ⟨hbytes, hentries, -⟩ := hdelivered.receipt hcomplete
  have hstays := ((run_complete_client client).mp hcomplete).1
  have hrun := run_staying (π := π) h (counts_of_complete h hstays)
  obtain ⟨-, budget, hbudget⟩ := (run_complete_iff h).mp hstays
  rw [hbudget] at hrun
  obtain ⟨hconsumed, hcount⟩ := Archive.spendAll_ok hbudget
  rw [hbytes, hentries, run_eq_staying hcomplete, hrun.2, hconsumed, hcount]
  exact ⟨Nat.zero_add _, Nat.zero_add _⟩

end Receipt

end GrpcEpub
