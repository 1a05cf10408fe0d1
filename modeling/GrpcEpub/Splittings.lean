/-
# `GrpcEpub.Splittings` — how a decompressor hands its output over

`read_entry` checks both of its rules on every prefix that the reads happen to
expose.  A length that is too much for either rule stays too much when it
grows, so what the prefixes are does not matter: the verdict is that of the
whole (`readEntry_of_delivers`).  Each check comes before the copy, so the
buffer never holds a length that would have been refused.
-/
import GrpcEpub.Ledger
import GrpcEpub.Sample

namespace GrpcEpub

/-- The counters of a budget add up to no more than its limit, which is a `u64`. -/
def Budget.Solvent (budget : Budget) : Prop := budget.consumed + budget.remaining ≤ u64Max

theorem Ledger.solvent {archive : MemoryArchive} {limit : Nat} {reads : List Reading}
    {budget : Budget} (h : Ledger archive limit reads budget) (hlimit : limit ≤ u64Max) :
    budget.Solvent :=
  h.balance.le.trans hlimit

namespace Archive

/-! ## The ratio rule

It allows a length or not, and what it allows it allows of less. -/

/-- The ratio rule lets this length through. -/
def RatioAllows (limits : Effective) (stored inflated : Nat) : Prop :=
  inflated < limits.compressionRatioFloorBytes ∨ stored = 0 ∨
    inflated / stored ≤ limits.maxCompressionRatio

/-- The check passes what the rule allows. -/
theorem checkRatio_iff {inflated stored : Nat} {limits : Effective} {name : Str} :
    checkRatio inflated stored limits name = .ok () ↔ RatioAllows limits stored inflated := by
  unfold checkRatio RatioAllows
  rw [← or_assoc]
  split
  · rename_i hskipped
    exact iff_of_true rfl (.inl hskipped)
  · rename_i hskipped
    dsimp only
    split
    · rename_i hover
      refine iff_of_false (fun h => by cases h) fun h => ?_
      exact h.elim hskipped hover.not_ge
    · rename_i hunder
      exact iff_of_true rfl (.inr (not_lt.mp hunder))

/-- A refusal of the ratio rule is one for exhaustion. -/
theorem checkRatio_error {inflated stored : Nat} {limits : Effective} {name : Str} {status : Status}
    (h : checkRatio inflated stored limits name = .error status) :
    status.code = .resourceExhausted ∧ ¬ RatioAllows limits stored inflated := by
  refine ⟨?_, fun hallows => ?_⟩
  · unfold checkRatio at h
    split at h
    · cases h
    · dsimp only at h
      split at h
      · cases h
        rfl
      · cases h
  · rw [checkRatio_iff.mpr hallows] at h
    cases h

/-- What is let through is let through at every length before it. -/
theorem RatioAllows.mono {limits : Effective} {stored n m : Nat} (h : RatioAllows limits stored n)
    (hle : m ≤ n) : RatioAllows limits stored m := by
  rcases h with hfloor | hstored | hratio
  · exact .inl (hle.trans_lt hfloor)
  · exact .inr (.inl hstored)
  · exact .inr (.inr ((Nat.div_le_div_right hle).trans hratio))

theorem ratioAllows_zero (limits : Effective) (stored : Nat) : RatioAllows limits stored 0 :=
  .inr (.inr ((Nat.zero_div stored).le.trans (Nat.zero_le _)))

/-! ## The loop

One `Turn` for each read, from which the loop, its buffers and what it has drawn are made. -/

/-- These reads hand over these bytes, some at a time, and then come to the end. -/
inductive Delivers : List (Except IoError Chunk) → Bytes → Prop
  | nil : Delivers [] []
  | done {chunk : Chunk} (rest : List (Except IoError Chunk)) :
      chunk.bytes = [] → Delivers (.ok chunk :: rest) []
  | more {chunk : Chunk} {reads : List (Except IoError Chunk)} {bytes : Bytes} :
      chunk.bytes ≠ [] → Delivers reads bytes → Delivers (.ok chunk :: reads) (chunk.bytes ++ bytes)

/-- Both rules let this length through. -/
def Holdable (limits : Effective) (entry : EntryInfo) (remaining n : Nat) : Prop :=
  n ≤ remaining ∧ RatioAllows limits entry.compressedSize n

theorem Holdable.mono {limits : Effective} {entry : EntryInfo} {remaining n m : Nat}
    (h : Holdable limits entry remaining n) (hle : m ≤ n) : Holdable limits entry remaining m :=
  ⟨hle.trans h.1, h.2.mono hle⟩

variable {limits : Effective} {entry : EntryInfo} {remaining : Nat}

/-- What one read comes to: the loop goes on with a longer buffer, or it is over, with so
much put out by the decompressor. -/
inductive Turn where
  | goes (out : Bytes)
  | ends (drawn : Nat) (verdict : Except Status Bytes)

/-- One turn of the loop. -/
def turn (limits : Effective) (entry : EntryInfo) (remaining : Nat) (out : Bytes) :
    Except IoError Chunk → Turn
  | .error e => .ends out.length (.error (inflateStatus e entry))
  | .ok chunk =>
      if chunk.bytes = [] then .ends out.length (.ok out)
      else
        let inflated := out.length + chunk.bytes.length
        if min remaining usizeMax < inflated then
          .ends inflated (.error (.overBudget entry.name remaining))
        else
          match checkRatio inflated entry.compressedSize limits entry.name with
          | .error e => .ends inflated (.error e)
          | .ok () => .goes (out ++ chunk.bytes)

/-- What `out` is, from one read to the next. -/
def buffers (limits : Effective) (entry : EntryInfo) (remaining : Nat) :
    Bytes → List (Except IoError Chunk) → List Bytes
  | out, [] => [out]
  | out, read :: rest =>
      match turn limits entry remaining out read with
      | .goes more => out :: buffers limits entry remaining more rest
      | .ends _ _ => [out]

/-- How much the decompressor has put out when the loop ends. -/
def drawn (limits : Effective) (entry : EntryInfo) (remaining : Nat) :
    Bytes → List (Except IoError Chunk) → Nat
  | out, [] => out.length
  | out, read :: rest =>
      match turn limits entry remaining out read with
      | .goes more => drawn limits entry remaining more rest
      | .ends inflated _ => inflated

/-- The loop of `read_entry` takes these turns. -/
theorem readLoop_turn (out : Bytes) (read : Except IoError Chunk)
    (rest : List (Except IoError Chunk)) :
    readLoop limits entry remaining out (read :: rest) =
      match turn limits entry remaining out read with
      | .goes more => readLoop limits entry remaining more rest
      | .ends _ verdict => verdict := by
  cases read with
  | error e => rfl
  | ok chunk =>
      rw [readLoop]
      unfold turn
      dsimp only
      by_cases hchunk : chunk.bytes = []
      · rw [if_pos hchunk, if_pos hchunk]
      rw [if_neg hchunk, if_neg hchunk]
      by_cases hover : min remaining usizeMax < out.length + chunk.bytes.length
      · rw [if_pos hover, if_pos hover]
      rw [if_neg hover, if_neg hover]
      cases checkRatio (out.length + chunk.bytes.length) entry.compressedSize limits entry.name with
      | error e => rfl
      | ok done => rfl

/-- The chunk is copied when the length with it can be held. -/
theorem turn_chunk (hremaining : remaining ≤ u64Max) {out : Bytes} {chunk : Chunk}
    (hchunk : chunk.bytes ≠ []) :
    (Holdable limits entry remaining (out ++ chunk.bytes).length ∧
        turn limits entry remaining out (.ok chunk) = .goes (out ++ chunk.bytes)) ∨
      (¬ Holdable limits entry remaining (out ++ chunk.bytes).length ∧
        ∃ status, status.code = .resourceExhausted ∧
          turn limits entry remaining out (.ok chunk) =
            .ends (out.length + chunk.bytes.length) (.error status)) := by
  have hceiling : min remaining usizeMax = remaining := Nat.min_eq_left hremaining
  rw [turn, if_neg hchunk, List.length_append]
  dsimp only
  rw [hceiling]
  by_cases hover : remaining < out.length + chunk.bytes.length
  · rw [if_pos hover]
    exact .inr ⟨fun h => h.1.not_gt hover, _, rfl, rfl⟩
  · rw [if_neg hover]
    cases hratio : checkRatio (out.length + chunk.bytes.length) entry.compressedSize limits
        entry.name with
    | error status =>
        obtain ⟨hcode, hrefused⟩ := checkRatio_error hratio
        exact .inr ⟨fun h => hrefused h.2, status, hcode, rfl⟩
    | ok done => exact .inl ⟨⟨not_lt.mp hover, checkRatio_iff.mp hratio⟩, rfl⟩

/-- A turn that goes on has left a buffer that can be held. -/
theorem turn_goes (hremaining : remaining ≤ u64Max) {out more : Bytes} {read : Except IoError Chunk}
    (h : turn limits entry remaining out read = .goes more) :
    Holdable limits entry remaining more.length := by
  cases read with
  | error e => cases h
  | ok chunk =>
      by_cases hchunk : chunk.bytes = []
      · rw [turn, if_pos hchunk] at h
        cases h
      rcases @turn_chunk limits entry remaining hremaining out chunk hchunk with
        ⟨hheld, hturn⟩ | ⟨-, status, -, hturn⟩
      · obtain rfl := Turn.goes.inj (hturn.symm.trans h)
        exact hheld
      · cases hturn.symm.trans h

/-- A loop that is over has drawn no more than one chunk, and returns nothing but what it held. -/
theorem turn_ends (hremaining : remaining ≤ u64Max) {out : Bytes} {read : Except IoError Chunk}
    {inflated : Nat} {verdict : Except Status Bytes}
    (h : turn limits entry remaining out read = .ends inflated verdict) :
    inflated ≤ out.length + readChunk ∧ ∀ bytes, verdict = .ok bytes → bytes = out := by
  cases read with
  | error e =>
      obtain ⟨rfl, rfl⟩ := Turn.ends.inj h
      exact ⟨Nat.le_add_right _ _, fun bytes hok => by cases hok⟩
  | ok chunk =>
      by_cases hchunk : chunk.bytes = []
      · rw [turn, if_pos hchunk] at h
        obtain ⟨rfl, rfl⟩ := Turn.ends.inj h
        exact ⟨Nat.le_add_right _ _, fun bytes hok => (Except.ok.inj hok).symm⟩
      rcases @turn_chunk limits entry remaining hremaining out chunk hchunk with
        ⟨-, hturn⟩ | ⟨-, status, -, hturn⟩
      · cases hturn.symm.trans h
      · obtain ⟨rfl, rfl⟩ := Turn.ends.inj (hturn.symm.trans h)
        exact ⟨Nat.add_le_add_left chunk.fits _, fun bytes hok => by cases hok⟩

/-- The verdict of the loop is the one on the whole. -/
theorem readLoop_of_delivers (hremaining : remaining ≤ u64Max)
    {reads : List (Except IoError Chunk)} {bytes : Bytes} (h : Delivers reads bytes) :
    ∀ {out : Bytes}, Holdable limits entry remaining out.length →
      (Holdable limits entry remaining (out ++ bytes).length ∧
          readLoop limits entry remaining out reads = .ok (out ++ bytes)) ∨
        (¬ Holdable limits entry remaining (out ++ bytes).length ∧
          ∃ status, status.code = .resourceExhausted ∧
            readLoop limits entry remaining out reads = .error status) := by
  induction h with
  | nil =>
      intro out hout
      rw [List.append_nil]
      exact .inl ⟨hout, rfl⟩
  | done rest hempty =>
      intro out hout
      rw [List.append_nil, readLoop, if_pos hempty]
      exact .inl ⟨hout, rfl⟩
  | @more chunk reads bytes hchunk _ ih =>
      intro out _
      rw [← List.append_assoc]
      rw [readLoop_turn]
      rcases @turn_chunk limits entry remaining hremaining out chunk hchunk with
        ⟨hheld, hturn⟩ | ⟨hrefused, status, hcode, hturn⟩
      · rw [hturn]
        exact ih hheld
      · rw [hturn]
        refine .inr ⟨fun hwhole => hrefused (hwhole.mono ?_), status, hcode, rfl⟩
        rw [@List.length_append _ (out ++ chunk.bytes)]
        exact Nat.le_add_right _ _

/-- Nothing is held that either rule would have refused. -/
theorem buffers_holdable (hremaining : remaining ≤ u64Max) (reads : List (Except IoError Chunk)) :
    ∀ {out : Bytes}, Holdable limits entry remaining out.length →
      ∀ held ∈ buffers limits entry remaining out reads,
        Holdable limits entry remaining held.length := by
  induction reads with
  | nil =>
      intro out hout held hheld
      exact List.mem_singleton.mp hheld ▸ hout
  | cons read rest ih =>
      intro out hout held hheld
      rw [buffers] at hheld
      cases hturn : turn limits entry remaining out read with
      | ends inflated verdict =>
          rw [hturn] at hheld
          exact List.mem_singleton.mp hheld ▸ hout
      | goes more =>
          rw [hturn] at hheld
          rcases List.mem_cons.mp hheld with rfl | hlater
          · exact hout
          · exact ih (turn_goes hremaining hturn) held hlater

/-- The loop is never more than one chunk ahead of what it holds. -/
theorem drawn_le (hremaining : remaining ≤ u64Max) (reads : List (Except IoError Chunk)) :
    ∀ out : Bytes, ∃ held ∈ buffers limits entry remaining out reads,
      drawn limits entry remaining out reads ≤ held.length + readChunk := by
  induction reads with
  | nil => exact fun out => ⟨out, List.mem_singleton_self out, Nat.le_add_right _ _⟩
  | cons read rest ih =>
      intro out
      rw [buffers, drawn]
      cases hturn : turn limits entry remaining out read with
      | ends inflated verdict =>
          exact ⟨out, List.mem_singleton_self out, (turn_ends hremaining hturn).1⟩
      | goes more =>
          obtain ⟨held, hheld, hle⟩ := ih more
          exact ⟨held, List.mem_cons_of_mem _ hheld, hle⟩

/-- What the loop returns is the last thing it held. -/
theorem buffers_getLast (hremaining : remaining ≤ u64Max) {bytes : Bytes}
    (reads : List (Except IoError Chunk)) : ∀ {out : Bytes},
      readLoop limits entry remaining out reads = .ok bytes →
        (buffers limits entry remaining out reads).getLast? = some bytes := by
  induction reads with
  | nil =>
      intro out h
      exact congrArg some (Except.ok.inj h)
  | cons read rest ih =>
      intro out h
      rw [readLoop_turn] at h
      rw [buffers]
      cases hturn : turn limits entry remaining out read with
      | ends inflated verdict =>
          rw [hturn] at h
          obtain rfl := (turn_ends hremaining hturn).2 bytes h
          rfl
      | goes more =>
          rw [hturn] at h
          rw [List.getLast?_cons, ih h]
          rfl

/-! ## The whole read

What is checked in front of the loop, and then the loop. -/

/-- The size an entry declares and the `n` bytes it inflates to are within both rules. -/
structure Admitted (limits : Effective) (entry : EntryInfo) (budget : Budget) (n : Nat) : Prop where
  declared : entry.declaredSize ≤ budget.remaining
  inflated : n ≤ budget.remaining
  declaredRatio :
    checkRatio entry.declaredSize entry.compressedSize limits entry.name = .ok ()
  inflatedRatio : checkRatio n entry.compressedSize limits entry.name = .ok ()

theorem checkBudget_error {size remaining : Nat} {name : Str} {status : Status}
    (h : checkBudget size remaining name = .error status) :
    status.code = .resourceExhausted ∧ remaining < size := by
  unfold checkBudget at h
  split at h
  · cases h
    exact ⟨rfl, by assumption⟩
  · cases h

theorem checkBudget_ok {size remaining : Nat} {name : Str} {done : Unit}
    (h : checkBudget size remaining name = .ok done) : size ≤ remaining := by
  unfold checkBudget at h
  split at h
  · cases h
  · exact not_lt.mp (by assumption)

/-- Everything `read_entry` decides, but for its counters. -/
theorem inflate_of_delivers {archive : MemoryArchive} {budget : Budget} (hsolvent : budget.Solvent)
    {reads : List (Except IoError Chunk)} {bytes : Bytes}
    (hreads : archive.byIndex entry.index = .ok reads) (hdelivers : Delivers reads bytes) :
    (Admitted limits entry budget bytes.length ∧
        inflate archive entry limits budget.remaining = .ok bytes) ∨
      (¬ Admitted limits entry budget bytes.length ∧
        ∃ status, status.code = .resourceExhausted ∧
          inflate archive entry limits budget.remaining = .error status) := by
  have hremaining : budget.remaining ≤ u64Max := (Nat.le_add_left _ _).trans hsolvent
  unfold inflate
  cases hbudget : checkBudget entry.declaredSize budget.remaining entry.name with
  | error status =>
      obtain ⟨hcode, hover⟩ := checkBudget_error hbudget
      exact .inr ⟨fun h => h.declared.not_gt hover, status, hcode, rfl⟩
  | ok done =>
      dsimp only
      cases hratio : checkRatio entry.declaredSize entry.compressedSize limits entry.name with
      | error status =>
          obtain ⟨hcode, hrefused⟩ := checkRatio_error hratio
          exact .inr ⟨fun h => hrefused (checkRatio_iff.mp h.declaredRatio), status, hcode, rfl⟩
      | ok done =>
          have hdeclared : entry.declaredSize ≤ budget.remaining := checkBudget_ok hbudget
          have hempty : Holdable limits entry budget.remaining ([] : Bytes).length :=
            ⟨Nat.zero_le _, ratioAllows_zero limits entry.compressedSize⟩
          dsimp only
          rw [hreads]
          rcases @readLoop_of_delivers limits entry _ hremaining _ _ hdelivers [] hempty with
            ⟨hheld, hloop⟩ | ⟨hrefused, hloop⟩
          · exact .inl ⟨⟨hdeclared, hheld.1, hratio, checkRatio_iff.mpr hheld.2⟩, hloop⟩
          · exact .inr ⟨fun h => hrefused ⟨h.inflated, checkRatio_iff.mp h.inflatedRatio⟩, hloop⟩

theorem readEntry_refused {archive : MemoryArchive} {budget : Budget} {status : Status}
    (h : inflate archive entry limits budget.remaining = .error status) :
    (readEntry archive entry limits).exec budget = (.error (.failed status), budget) := by
  simp [readEntry, Eff.exec_bind, h]

/-- The counters are charged, and the last of them can be full. -/
theorem readEntry_inflated {archive : MemoryArchive} {budget : Budget} (hsolvent : budget.Solvent)
    {out : Bytes} (h : inflate archive entry limits budget.remaining = .ok out)
    (hlen : out.length ≤ budget.remaining) :
    (budget.entries < u32Max ∧
        (readEntry archive entry limits).exec budget = (.ok out, budget.charge out.length)) ∨
      (¬ budget.entries < u32Max ∧
        ((readEntry archive entry limits).exec budget).1 = .error (.panicked .overflow)) := by
  have hconsumed : budget.consumed + out.length ≤ u64Max :=
    (Nat.add_le_add_left hlen _).trans hsolvent
  by_cases hentries : budget.entries < u32Max
  · refine .inl ⟨hentries, ?_⟩
    simp [readEntry, Eff.exec_bind, Eff.exec_map, exec_checkedSub, exec_checkedAdd, h, hlen,
      hconsumed, hentries, Budget.charge, Except.map]
  · refine .inr ⟨hentries, ?_⟩
    simp [readEntry, Eff.exec_bind, exec_checkedSub, exec_checkedAdd, h, hlen, hconsumed, hentries]

/-- What is inflated is what the loop held last. -/
theorem inflate_getLast {archive : MemoryArchive} {budget : Budget} (hsolvent : budget.Solvent)
    {reads : List (Except IoError Chunk)} {bytes : Bytes}
    (hreads : archive.byIndex entry.index = .ok reads)
    (h : inflate archive entry limits budget.remaining = .ok bytes) :
    (buffers limits entry budget.remaining [] reads).getLast? = some bytes := by
  refine buffers_getLast ((Nat.le_add_left _ _).trans hsolvent) reads ?_
  unfold inflate at h
  split at h
  · cases h
  split at h
  · cases h
  rw [hreads] at h
  exact h

/-- However the reads split what the decompressor puts out, the verdict is the one on all of
it; and on the way nothing is held that would have been refused, nor more than one chunk drawn
beyond it, and what is returned is what was held last. -/
theorem readEntry_of_delivers (archive : MemoryArchive) (limits : Effective) (entry : EntryInfo)
    {budget : Budget} (hsolvent : budget.Solvent) {reads : List (Except IoError Chunk)}
    {bytes : Bytes} (hreads : archive.byIndex entry.index = .ok reads)
    (hdelivers : Delivers reads bytes) :
    (Admitted limits entry budget bytes.length → budget.entries < u32Max →
      (readEntry archive entry limits).exec budget = (.ok bytes, budget.charge bytes.length)) ∧
    (Admitted limits entry budget bytes.length → ¬ budget.entries < u32Max →
      ((readEntry archive entry limits).exec budget).1 = .error (.panicked .overflow)) ∧
    (¬ Admitted limits entry budget bytes.length → ∃ status, status.code = .resourceExhausted ∧
      (readEntry archive entry limits).exec budget = (.error (.failed status), budget)) ∧
    (∀ held ∈ buffers limits entry budget.remaining [] reads,
      held.length ≤ budget.remaining ∧
        checkRatio held.length entry.compressedSize limits entry.name = .ok ()) ∧
    (∃ held ∈ buffers limits entry budget.remaining [] reads,
      drawn limits entry budget.remaining [] reads ≤ held.length + readChunk) ∧
    (Admitted limits entry budget bytes.length →
      (buffers limits entry budget.remaining [] reads).getLast? = some bytes) := by
  have hremaining : budget.remaining ≤ u64Max := (Nat.le_add_left _ _).trans hsolvent
  have hempty : Holdable limits entry budget.remaining ([] : Bytes).length :=
    ⟨Nat.zero_le _, ratioAllows_zero limits entry.compressedSize⟩
  have hheld : ∀ held ∈ buffers limits entry budget.remaining [] reads,
      held.length ≤ budget.remaining ∧
        checkRatio held.length entry.compressedSize limits entry.name = .ok () := by
    intro held hin
    obtain ⟨hfits, hallows⟩ := buffers_holdable hremaining reads hempty held hin
    exact ⟨hfits, checkRatio_iff.mpr hallows⟩
  have hdrawn := @drawn_le limits entry _ hremaining reads []
  rcases @inflate_of_delivers limits entry archive budget hsolvent _ _ hreads hdelivers with
    ⟨hadmitted, hok⟩ | ⟨hrefused, status, hcode, herror⟩
  · have hcharged := readEntry_inflated hsolvent hok hadmitted.inflated
    refine ⟨fun _ hroom => ?_, fun _ hfull => ?_, fun h => absurd hadmitted h, hheld, hdrawn,
      fun _ => inflate_getLast hsolvent hreads hok⟩
    · exact (hcharged.resolve_right fun h => h.1 hroom).2
    · exact (hcharged.resolve_left fun h => hfull h.1).2
  · exact ⟨fun h => absurd h hrefused, fun h => absurd h hrefused,
      fun _ => ⟨status, hcode, readEntry_refused herror⟩, hheld, hdrawn,
      fun h => absurd h hrefused⟩

end Archive

/-- What fits into one read. -/
def Sample.chunk (bytes : Bytes) : Chunk :=
  ⟨bytes.take readChunk, List.length_take_le readChunk bytes⟩

def Sample.inTwoReads : MemoryArchive where
  centralDirectoryStart := 0
  byIndexRaw := []
  byIndex := fun _ => .ok [.ok (Sample.chunk [1, 2]), .ok (Sample.chunk [3])]

def Sample.trickling : EntryInfo where
  index := 0
  name := "a"
  declaredSize := 3
  compressedSize := 3

theorem Archive.readEntry_in_two_reads :
    (Archive.readEntry Sample.inTwoReads Sample.trickling Sample.defaults).exec (.new 100) =
      (.ok [1, 2, 3], (Budget.new 100).charge 3) :=
  (Archive.readEntry_of_delivers Sample.inTwoReads Sample.defaults Sample.trickling
    ((@Ledger.new Sample.inTwoReads 100).solvent (by decide)) rfl
    (.more (by decide) (.more (by decide) .nil))).1 ⟨by decide, by decide, rfl, rfl⟩ (by decide)

end GrpcEpub
