/-
# `GrpcEpub.Ledger` — what a read costs

`readEntry_cases` says once what a read can do: charge the budget for exactly
what it returns, fail and leave the budget alone, or panic because a counter
left its type.  A `Ledger` is a budget together with the readings that led to
it; what it promises (the balance, the sum, the count) follows by induction on
the readings.
-/
import GrpcEpub.Script

namespace GrpcEpub

/-- The budget after a buffer of `n` bytes has been returned. -/
def Budget.charge (budget : Budget) (n : Nat) : Budget where
  remaining := budget.remaining - n
  consumed := budget.consumed + n
  entries := budget.entries + 1

namespace Archive

/-- The loop returns what the decompressor put out, and never more than fits. -/
theorem readLoop_ok {limits : Effective} {entry : EntryInfo} {remaining : Nat} {bytes : Bytes} :
    ∀ {out : Bytes} {reads : List (Except IoError Chunk)}, out.length ≤ remaining →
      readLoop limits entry remaining out reads = .ok bytes →
      bytes = out ++ gather reads ∧ bytes.length ≤ remaining
  | out, [], hout, h => by
      simp only [readLoop, Except.ok.injEq] at h
      subst h
      exact ⟨by simp [gather], hout⟩
  | out, .error e :: _, _, h => by simp [readLoop] at h
  | out, .ok chunk :: rest, hout, h => by
      unfold readLoop at h
      by_cases hempty : chunk.bytes = []
      · rw [if_pos hempty, Except.ok.injEq] at h
        subst h
        exact ⟨by simp [gather, hempty], hout⟩
      · simp only [if_neg hempty] at h
        by_cases hfits : min remaining usizeMax < out.length + chunk.bytes.length
        · simp [hfits] at h
        · rw [if_neg hfits] at h
          cases hratio : checkRatio (out.length + chunk.bytes.length) entry.compressedSize limits
              entry.name with
          | error e => simp [hratio] at h
          | ok _ =>
              simp only [hratio] at h
              have hroom : (out ++ chunk.bytes).length ≤ remaining := by
                rw [List.length_append]
                exact le_trans (not_lt.mp hfits) (Nat.min_le_left _ _)
              obtain ⟨hbytes, hlen⟩ := readLoop_ok hroom h
              exact ⟨by simp [hbytes, gather, hempty], hlen⟩

/-- A successful inflation is the entry's content and fits in the budget. -/
theorem inflate_ok {archive : MemoryArchive} {entry : EntryInfo} {limits : Effective}
    {remaining : Nat} {bytes : Bytes} (h : inflate archive entry limits remaining = .ok bytes) :
    bytes = archive.inflated entry ∧ bytes.length ≤ remaining := by
  unfold inflate at h
  cases hbudget : checkBudget entry.declaredSize remaining entry.name with
  | error e => simp [hbudget] at h
  | ok _ =>
      cases hratio : checkRatio entry.declaredSize entry.compressedSize limits entry.name with
      | error e => simp [hbudget, hratio] at h
      | ok _ =>
          cases hreads : archive.byIndex entry.index with
          | error e => simp [hbudget, hratio, hreads] at h
          | ok reads =>
              simp only [hbudget, hratio, hreads] at h
              obtain ⟨hbytes, hlen⟩ := readLoop_ok (Nat.zero_le _) h
              exact ⟨by simpa [MemoryArchive.inflated, hreads] using hbytes, hlen⟩

theorem exec_checkedSub {σ : Type} (a b : Nat) (s : σ) :
    (checkedSub a b).exec s =
      if b ≤ a then (.ok (a - b), s) else (.error (.panicked .overflow), s) := by
  unfold checkedSub
  split <;> rfl

theorem exec_checkedAdd {σ : Type} (limit a b : Nat) (s : σ) :
    (checkedAdd limit a b).exec s =
      if a + b ≤ limit then (.ok (a + b), s) else (.error (.panicked .overflow), s) := by
  unfold checkedAdd
  split <;> rfl

/-- Everything a read can do.  The subtraction is not among the panics. -/
theorem readEntry_cases (archive : MemoryArchive) (entry : EntryInfo) (limits : Effective)
    (budget : Budget) :
    (archive.inflated entry |>.length) ≤ budget.remaining ∧
        (readEntry archive entry limits).exec budget =
          (.ok (archive.inflated entry), budget.charge (archive.inflated entry).length) ∨
      (∃ status, (readEntry archive entry limits).exec budget =
        (.error (.failed status), budget)) ∨
      (archive.inflated entry |>.length) ≤ budget.remaining ∧
        u64Max < budget.consumed + (archive.inflated entry).length ∧
        (readEntry archive entry limits).exec budget =
          (.error (.panicked .overflow),
            { budget with remaining := budget.remaining - (archive.inflated entry).length }) ∨
      (archive.inflated entry |>.length) ≤ budget.remaining ∧ u32Max < budget.entries + 1 ∧
        (readEntry archive entry limits).exec budget =
          (.error (.panicked .overflow),
            { budget.charge (archive.inflated entry).length with entries := budget.entries }) := by
  cases h : inflate archive entry limits budget.remaining with
  | error status =>
      exact .inr (.inl ⟨status, by simp [readEntry, Eff.exec_bind, h]⟩)
  | ok out =>
      obtain ⟨rfl, hlen⟩ := inflate_ok h
      by_cases hconsumed : budget.consumed + (archive.inflated entry).length ≤ u64Max
      · by_cases hentries : budget.entries + 1 ≤ u32Max
        · refine .inl ⟨hlen, ?_⟩
          simp [readEntry, Eff.exec_bind, Eff.exec_map, exec_checkedSub, exec_checkedAdd, h, hlen,
            hconsumed, Nat.lt_of_succ_le hentries, Budget.charge, Except.map]
        · refine .inr (.inr (.inr ⟨hlen, not_le.mp hentries, ?_⟩))
          simp [readEntry, Eff.exec_bind, exec_checkedSub, exec_checkedAdd, h, hlen,
            hconsumed, Nat.succ_le_iff.not.mp hentries, Budget.charge]
      · refine .inr (.inr (.inl ⟨hlen, not_le.mp hconsumed, ?_⟩))
        simp [readEntry, Eff.exec_bind, exec_checkedSub, exec_checkedAdd, h, hlen, hconsumed]

end Archive

/-! ## The readings of a call

One reading behind the other, each on the budget that was left. -/

/-- A budget and the readings it was charged for, from a new one. -/
inductive Ledger (archive : MemoryArchive) (limit : Nat) : List Reading → Budget → Prop
  | new : Ledger archive limit [] (.new limit)
  | charge {reads : List Reading} {budget : Budget} (entry : EntryInfo) :
      Ledger archive limit reads budget →
      (archive.inflated entry).length ≤ budget.remaining →
      Ledger archive limit
        (reads ++ [⟨entry, archive.inflated entry, budget.charge (archive.inflated entry).length⟩])
        (budget.charge (archive.inflated entry).length)

namespace Ledger

variable {archive : MemoryArchive} {limit : Nat} {reads : List Reading} {budget : Budget}

theorem balance (h : Ledger archive limit reads budget) :
    budget.consumed + budget.remaining = limit := by
  induction h with
  | new => simp [Budget.new]
  | charge entry _ hlen ih => simp only [Budget.charge]; omega

theorem consumed_eq (h : Ledger archive limit reads budget) :
    budget.consumed = (reads.map (·.bytes.length)).sum := by
  induction h with
  | new => rfl
  | charge entry _ _ ih => simp [Budget.charge, ih]

theorem entries_eq (h : Ledger archive limit reads budget) :
    budget.entries = reads.length := by
  induction h with
  | new => rfl
  | charge entry _ _ ih => simp [Budget.charge, ih]

/-- Every reading returned its entry's content. -/
theorem content (h : Ledger archive limit reads budget) :
    ∀ reading ∈ reads, reading.bytes = archive.inflated reading.entry := by
  induction h with
  | new => simp
  | charge entry _ _ ih =>
      intro reading hr
      rcases List.mem_append.mp hr with hr | hr
      · exact ih reading hr
      · rw [List.mem_singleton.mp hr]

/-- The budget recorded with a reading is that of the ledger up to it. -/
theorem before (h : Ledger archive limit reads budget) :
    ∀ pre reading post, reads = pre ++ reading :: post →
      Ledger archive limit (pre ++ [reading]) reading.budget := by
  induction h with
  | new => intro pre reading post h; simp at h
  | charge entry hl hlen ih =>
      intro pre reading post h
      rcases List.eq_nil_or_concat post with rfl | ⟨post, last, rfl⟩
      · obtain ⟨rfl, hr⟩ := List.append_inj' h rfl
        obtain rfl := List.singleton_injective hr
        exact .charge entry hl hlen
      · refine ih pre reading post ?_
        have : pre ++ reading :: (post ++ [last]) = (pre ++ reading :: post) ++ [last] := by simp
        rw [List.concat_eq_append, this] at h
        exact (List.append_inj' h rfl).1

end Ledger

end GrpcEpub
