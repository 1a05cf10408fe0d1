/-
# `GrpcEpub.Headroom` — what the limits can change

A caller may lower the limits of a call, and a server its ceilings.  All that
comes of it is that a call may end earlier with `RESOURCE_EXHAUSTED`: what has
been sent by then is what a call with more room sends first, and a call that
completes is the same call.  Of the driver only `open_archive` and `read_entry`
ask how much room there is, so two calls are compared pass by pass, with
budgets that agree in all but what remains.

One limit is `Within` another when each of its five parts is no larger and the selection is the
the same.  Every check of the two functions has one direction: what passes under the smaller limit
passes under the larger one.  A call with less room therefore differs from the other in one way
only, that it is `Exhausted` somewhere, and `Narrow` says so of two computations.
-/
import GrpcEpub.Charges
import GrpcEpub.Clients
import GrpcEpub.Sample
import GrpcEpub.Lib.Narrow

namespace GrpcEpub

/-- No more room than `wider`, and the same selection. -/
structure Effective.Within (limits wider : Effective) : Prop where
  uncompressed : limits.maxUncompressedBytes ≤ wider.maxUncompressedBytes
  entries : limits.maxEntries ≤ wider.maxEntries
  ratio : limits.maxCompressionRatio ≤ wider.maxCompressionRatio
  floor : limits.compressionRatioFloorBytes ≤ wider.compressionRatioFloorBytes
  images : limits.includeImages = wider.includeImages
  stylesheets : limits.includeStylesheets = wider.includeStylesheets
  all : limits.includeAllResources = wider.includeAllResources
  document : limits.emitDocument = wider.emitDocument
  navigation : limits.parseNavigation = wider.parseNavigation
  overlays : limits.parseMediaOverlays = wider.parseMediaOverlays

/-- Out of room. -/
def Exhausted (abort : Abort) : Prop :=
  ∃ status : Status, abort = .failed status ∧ status.code = .resourceExhausted

namespace Archive

variable {limits wider : Effective} (h : limits.Within wider)

include h

/-! ## The archive

`check_ratio`, the read loop and `Archive::open` under two limits: the same answer, or a refusal
with `RESOURCE_EXHAUSTED` under the smaller one. -/

/-- A ratio that passes the lower ceiling passes the higher one. -/
theorem checkRatio_within (inflated stored : Nat) (name : Str) :
    checkRatio inflated stored limits name = checkRatio inflated stored wider name ∨
      ∃ status : Status, checkRatio inflated stored limits name = .error status ∧
        status.code = .resourceExhausted := by
  obtain ⟨-, -, hratio, hfloor, -⟩ := h
  unfold checkRatio
  by_cases hsmall : inflated < limits.compressionRatioFloorBytes ∨ stored = 0
  · have hsmall' := hsmall.imp_left hfloor.trans_lt'
    rw [if_pos hsmall, if_pos hsmall']
    exact .inl rfl
  rw [if_neg hsmall]
  by_cases hover : limits.maxCompressionRatio < inflated / stored
  · exact .inr ⟨_, if_pos hover, rfl⟩
  · rw [if_neg hover]
    refine .inl ?_
    split
    · rfl
    · rw [if_neg (Nat.not_lt.mpr ((Nat.not_lt.mp hover).trans hratio))]

/-- By induction on the reads: the loop with less room stops first. -/
theorem readLoop_within (entry : EntryInfo) {remaining more : Nat} (hmore : remaining ≤ more)
    (reads : List (Except IoError Chunk)) : ∀ out : Bytes,
    readLoop limits entry remaining out reads = readLoop wider entry more out reads ∨
      ∃ status : Status, readLoop limits entry remaining out reads = .error status ∧
        status.code = .resourceExhausted := by
  induction reads with
  | nil => exact fun _ => .inl rfl
  | cons read rest ih =>
      intro out
      cases read with
      | error e => exact .inl rfl
      | ok chunk =>
          unfold readLoop
          by_cases hempty : chunk.bytes = []
          · rw [if_pos hempty, if_pos hempty]
            exact .inl rfl
          rw [if_neg hempty, if_neg hempty]
          dsimp only
          by_cases hover : min remaining usizeMax < out.length + chunk.bytes.length
          · exact .inr ⟨_, if_pos hover, rfl⟩
          have hover' : ¬ min more usizeMax < out.length + chunk.bytes.length := by omega
          rw [if_neg hover, if_neg hover']
          rcases checkRatio_within h (out.length + chunk.bytes.length) entry.compressedSize
            entry.name with hsame | ⟨status, herror, hcode⟩
          · rw [hsame]
            cases checkRatio (out.length + chunk.bytes.length) entry.compressedSize wider
              entry.name with
            | error e => exact .inl rfl
            | ok _ => exact ih _
          · rw [herror]
            exact .inr ⟨status, rfl, hcode⟩

/-- The checks in front of the loop, and the loop. -/
theorem inflate_within (archive : MemoryArchive) (entry : EntryInfo) {remaining more : Nat}
    (hmore : remaining ≤ more) :
    inflate archive entry limits remaining = inflate archive entry wider more ∨
      ∃ status : Status, inflate archive entry limits remaining = .error status ∧
        status.code = .resourceExhausted := by
  unfold inflate checkBudget
  by_cases hover : remaining < entry.declaredSize
  · rw [if_pos hover]
    exact .inr ⟨_, rfl, rfl⟩
  rw [if_neg hover, if_neg (by omega)]
  dsimp only
  rcases checkRatio_within h entry.declaredSize entry.compressedSize entry.name with
    hsame | ⟨status, herror, hcode⟩
  · rw [hsame]
    cases checkRatio entry.declaredSize entry.compressedSize wider entry.name with
    | error e => exact .inl rfl
    | ok _ =>
        dsimp only
        cases archive.byIndex entry.index with
        | error e => exact .inl rfl
        | ok reads => exact readLoop_within h entry hmore reads []
  · rw [herror]
    exact .inr ⟨status, rfl, hcode⟩

/-- Opening asks for the number of entries only. -/
theorem openArchive_within (zipNew : Bytes → Except ZipError MemoryArchive) (bytes : Bytes) :
    openArchive zipNew bytes limits = openArchive zipNew bytes wider ∨
      ∃ status : Status, openArchive zipNew bytes limits = .error status ∧
        status.code = .resourceExhausted := by
  obtain ⟨-, hentries, -⟩ := h
  unfold openArchive
  by_cases hempty : bytes = []
  · rw [if_pos hempty, if_pos hempty]
    exact .inl rfl
  rw [if_neg hempty, if_neg hempty]
  dsimp only
  by_cases hrecords : limits.maxEntries < signatureCount bytes
  · exact .inr ⟨_, if_pos hrecords, rfl⟩
  rw [if_neg hrecords, if_neg (by omega)]
  cases zipNew bytes with
  | error e => exact .inl rfl
  | ok archive =>
      dsimp only
      by_cases hlen : limits.maxEntries < min archive.len u32Max
      · exact .inr ⟨_, if_pos hlen, rfl⟩
      rw [if_neg hlen, if_neg (by omega)]
      exact .inl rfl

omit h

/-- A read that inflates moves the budget by what it inflated to. -/
theorem readEntry_of_ok {archive : MemoryArchive} {entry : EntryInfo} {limits : Effective}
    {budget : Budget} {out : Bytes}
    (hout : inflate archive entry limits budget.remaining = .ok out) :
    (readEntry archive entry limits).exec budget =
      if u64Max < budget.consumed + out.length then
        (.error (.panicked .overflow), { budget with remaining := budget.remaining - out.length })
      else if u32Max < budget.entries + 1 then
        (.error (.panicked .overflow), { budget.charge out.length with entries := budget.entries })
      else (.ok out, budget.charge out.length) := by
  obtain ⟨-, hlen⟩ := inflate_ok hout
  by_cases hconsumed : budget.consumed + out.length ≤ u64Max
  · by_cases hentries : budget.entries + 1 ≤ u32Max
    · rw [if_neg (Nat.not_lt.mpr hconsumed), if_neg (Nat.not_lt.mpr hentries)]
      simp [readEntry, Eff.exec_bind, Eff.exec_map, exec_checkedSub, exec_checkedAdd, hout, hlen,
        hconsumed, Nat.lt_of_succ_le hentries, Budget.charge, Except.map]
    · rw [if_neg (Nat.not_lt.mpr hconsumed), if_pos (Nat.not_le.mp hentries)]
      simp [readEntry, Eff.exec_bind, exec_checkedSub, exec_checkedAdd, hout, hlen, hconsumed,
        Nat.succ_le_iff.not.mp hentries, Budget.charge]
  · rw [if_pos (Nat.not_le.mp hconsumed)]
    simp [readEntry, Eff.exec_bind, exec_checkedSub, exec_checkedAdd, hout, hlen, hconsumed]

end Archive

/-! ## Two budgets

What remains of the smaller budget is no more than what remains of the larger one, and it stays
so when both are charged alike. -/

/-- The same budget, with no more left of it. -/
structure Budget.Within (budget wider : Budget) : Prop where
  remaining : budget.remaining ≤ wider.remaining
  consumed : budget.consumed = wider.consumed
  entries : budget.entries = wider.entries

theorem Budget.Within.charge {budget wider : Budget} (h : budget.Within wider) (n : Nat) :
    (budget.charge n).Within (wider.charge n) where
  remaining := Nat.sub_le_sub_right h.remaining n
  consumed := congrArg (· + n) h.consumed
  entries := congrArg (· + 1) h.entries

/-- Where both read, both are charged alike. -/
theorem Archive.readEntry_within {limits wider : Effective} (h : limits.Within wider)
    (archive : MemoryArchive) (entry : EntryInfo) {budget more : Budget}
    (hbudget : budget.Within more) :
    ((readEntry archive entry limits).exec budget).1 =
        ((readEntry archive entry wider).exec more).1 ∧
      ((readEntry archive entry limits).exec budget).2.Within
        ((readEntry archive entry wider).exec more).2 ∨
    ∃ status : Status, (readEntry archive entry limits).exec budget =
      (.error (.failed status), budget) ∧ status.code = .resourceExhausted := by
  rcases inflate_within h archive entry hbudget.remaining with hsame | ⟨status, herror, hcode⟩
  · left
    cases hout : inflate archive entry wider more.remaining with
    | error status =>
        rw [hout] at hsame
        have hlimits : (readEntry archive entry limits).exec budget =
            (.error (.failed status), budget) := by simp [readEntry, Eff.exec_bind, hsame]
        have hwider : (readEntry archive entry wider).exec more =
            (.error (.failed status), more) := by simp [readEntry, Eff.exec_bind, hout]
        rw [hlimits, hwider]
        exact ⟨rfl, hbudget⟩
    | ok out =>
        rw [hout] at hsame
        rw [readEntry_of_ok hsame, readEntry_of_ok hout, hbudget.consumed, hbudget.entries]
        have hcharge := hbudget.charge out.length
        split
        · exact ⟨rfl, hcharge.remaining, rfl, rfl⟩
        · split
          · exact ⟨rfl, hcharge.remaining, hcharge.consumed, rfl⟩
          · exact ⟨rfl, hcharge⟩
  · right
    exact ⟨status, by simp [readEntry, Eff.exec_bind, herror], hcode⟩

/-! ## Two calls

Two calls that agree in all but their budgets.  A step that does not ask how much room there is
leaves them so. -/

/-- The same call, with no more room. -/
structure Call.Within {π : Projection} (call wider : Call π) : Prop where
  budget : call.budget.Within wider.budget
  warnings : call.warnings = wider.warnings
  preread : call.preread = wider.preread
  metrics : call.metrics = wider.metrics
  fold : call.fold = wider.fold
  sent : call.sent = wider.sent

theorem Call.Within.start {π : Projection} {limits wider : Effective} (h : limits.Within wider) :
    (Call.start π limits).Within (Call.start π wider) where
  budget := ⟨h.uncompressed, rfl, rfl⟩
  warnings := rfl
  preread := rfl
  metrics := rfl
  fold := by
    unfold Call.start
    rw [h.document]
  sent := rfl

namespace Parse

variable {π : Projection} {α : Type}

/-- `x` does what `y` does, as far as its room goes. -/
abbrev Narrow (x y : Step π α) : Prop := Eff.Narrower Call.Within Call.sent Exhausted x y

/-- A result that is the same, or out of room, as a step of the call. -/
theorem exhausted_of_code {r r' : Except Status α}
    (h : r = r' ∨ ∃ status : Status, r = .error status ∧ status.code = .resourceExhausted) :
    Narrow (π := π) (orFail r) (orFail r') := by
  rcases h with rfl | ⟨status, rfl, hcode⟩
  · cases r with
    | ok a => exact .pure a
    | error status => exact .throw _
  · refine ⟨?_, fun s t hst => .runsOut rfl ⟨status, rfl, hcode⟩ ?_⟩
    · intro t
      cases r' with
      | ok a => exact List.prefix_rfl
      | error e => exact List.prefix_rfl
    · have hsent : ((orFail r' : Step π α).exec t).2 = t := by cases r' <;> rfl
      rw [hsent]
      exact hst.sent ▸ List.prefix_rfl

theorem narrow_orFail (r : Except Status α) : Narrow (π := π) (orFail r) (orFail r) :=
  exhausted_of_code (.inl rfl)

theorem narrow_warn (code : ParseWarningCode) (href : Str) (message : WarningText) :
    Narrow (π := π) (warn code href message) (warn code href message) :=
  .modify (fun _ => List.prefix_rfl) fun _ _ h =>
    ⟨h.budget, by rw [h.warnings], h.preread, h.metrics, h.fold, h.sent⟩

theorem narrow_keep (entry : Nat) (bytes : Bytes) :
    Narrow (π := π) (keep entry bytes) (keep entry bytes) :=
  .modify (fun _ => List.prefix_rfl) fun _ _ h =>
    ⟨h.budget, h.warnings, by rw [h.preread], h.metrics, h.fold, h.sent⟩

/-! ### Sending

`Sink::send` asks the client, and the client is the same in both. -/

section Send

variable {client : Nat → Bool}

theorem exec_send_ite (event : Event π.Document) (entry : Option Nat) (call : Call π) :
    (send client event entry).exec call =
      if client call.sent.length then
        (.ok ⟨⟩, { call with sent := call.sent ++ [⟨event, entry⟩] })
      else (.error .gone, call) := by
  unfold send
  rw [Eff.exec_bind_ok (Eff.exec_get call)]
  split <;> rfl

/-- Both calls send to the client they share. -/
theorem narrow_send (event : Event π.Document) (entry : Option Nat) :
    Narrow (send client event entry) (send client event entry) where
  grows := by
    intro t
    rw [exec_send_ite]
    split
    · exact List.prefix_append _ _
    · exact List.prefix_rfl
  runs := by
    intro s t h
    refine .same ?_ ?_
    · rw [exec_send_ite, exec_send_ite, h.sent]
      split <;> rfl
    · rw [exec_send_ite, exec_send_ite, h.sent]
      split
      · exact ⟨h.budget, h.warnings, h.preread, h.metrics, h.fold, rfl⟩
      · exact h

/-- The event goes into the fold of both calls, and to one and the same client. -/
theorem narrow_emit (event : Event π.Document) (entry : Option Nat) :
    Narrow (emit client event entry) (emit client event entry) := by
  have htwo : ∀ document : π.Document, Narrow
      (send client (.document document) none >>= fun _ => send client event entry)
      (send client (.document document) none >>= fun _ => send client event entry) :=
    fun document => (narrow_send _ _).bind fun _ => narrow_send event entry
  unfold emit
  refine .get_bind ?_ ?_
  · intro t
    cases t.fold with
    | none => exact (narrow_send event entry).grows t
    | some fold =>
        dsimp only
        split
        · exact (htwo _).grows.after_set rfl
        · exact (narrow_send event entry).grows.after_set rfl
  · intro s t h
    rw [h.fold]
    cases t.fold with
    | none => exact (narrow_send event entry).runs s t h
    | some fold =>
        have hfold : ∀ fold : π.State, Call.Within { s with fold := some fold }
            { t with fold := some fold } := fun _ =>
          ⟨h.budget, h.warnings, h.preread, h.metrics, rfl, h.sent⟩
        dsimp only
        split
        · exact (htwo _).runs _ _ (hfold _)
        · exact (narrow_send event entry).runs _ _ (hfold _)

end Send

/-! ### Reading

All reading goes through `read_entry`; the helpers above it add warnings and the preread cache,
in which the two calls agree. -/

section Passes

variable {crates : Crates} {client : Nat → Bool} {limits wider : Effective}
  {archive : MemoryArchive} {book : Book} {overlays : List (Nat × Nat)}
  (h : limits.Within wider)

include h

/-- The budgets are the one thing that differs, and reading is where that shows. -/
theorem narrow_readEntry (entry : EntryInfo) :
    Narrow (π := π) (readEntry limits archive entry) (readEntry wider archive entry) := by
  unfold readEntry
  refine .get_bind ?_ ?_
  · intro t
    split <;> exact List.prefix_rfl
  · intro s t hst
    rcases Archive.readEntry_within h archive entry hst.budget with
      ⟨hsame, hbudget⟩ | ⟨status, herror, hcode⟩
    · rcases hs : (Archive.readEntry archive entry limits).exec s.budget with ⟨r, budget⟩
      rcases ht : (Archive.readEntry archive entry wider).exec t.budget with ⟨r', budget'⟩
      rw [hs, ht] at hsame hbudget
      obtain rfl : r = r' := hsame
      cases r with
      | ok bytes =>
          exact .same rfl ⟨hbudget, hst.warnings, hst.preread, hst.metrics, hst.fold, hst.sent⟩
      | error abort =>
          exact .same rfl ⟨hbudget, hst.warnings, hst.preread, hst.metrics, hst.fold, hst.sent⟩
    · rw [herror]
      refine .runsOut rfl ⟨status, rfl, hcode⟩ ?_
      change s.sent <+: _
      rw [hst.sent]
      split <;> exact List.prefix_rfl

theorem narrow_readAt (entry : EntryInfo) :
    Narrow (π := π) (readAt limits archive entry) (readAt wider archive entry) := by
  refine (narrow_readEntry h entry).bind fun bytes => .bind ?_ fun _ => .pure bytes
  exact .modify (fun _ => List.prefix_rfl) fun _ _ hst =>
    ⟨hst.budget, hst.warnings, hst.preread, by rw [hst.metrics], hst.fold, hst.sent⟩

theorem narrow_readNamed (entries : List EntryInfo) (index : HashMap Str Nat) (name : Str) :
    Narrow (π := π) (readNamed limits archive entries index name)
      (readNamed wider archive entries index name) := by
  unfold readNamed
  cases index.get name with
  | none => exact .pure none
  | some position =>
      exact (Eff.Narrower.ofExcept _).bind fun entry =>
        (narrow_readEntry h entry).bind fun bytes => .pure (some bytes)

omit h in
theorem narrow_takePreread (entry : Nat) :
    Narrow (π := π) (takePreread entry) (takePreread entry) := by
  refine .get_bind (fun _ => List.prefix_rfl) fun s t hst => .same ?_ ?_
  · change Except.ok (s.preread.get entry) = .ok (t.preread.get entry)
    rw [hst.preread]
  · refine ⟨hst.budget, hst.warnings, ?_, hst.metrics, hst.fold, hst.sent⟩
    change s.preread.erase entry = t.preread.erase entry
    rw [hst.preread]

theorem narrow_prereadRead (entries : List EntryInfo) (entry : Nat) :
    Narrow (π := π) (prereadRead limits archive entries entry)
      (prereadRead wider archive entries entry) := by
  refine (narrow_takePreread entry).bind fun kept => ?_
  cases kept with
  | some bytes => exact .pure bytes
  | none => exact (Eff.Narrower.ofExcept _).bind fun entry => narrow_readAt h entry

theorem narrow_encryptionPolicy (entries : List EntryInfo) (index : HashMap Str Nat) :
    Narrow (π := π) (encryptionPolicy crates limits archive entries index)
      (encryptionPolicy crates wider archive entries index) := by
  unfold encryptionPolicy
  cases index.get encryptionPath with
  | none => exact .pure []
  | some position =>
      exact (Eff.Narrower.ofExcept _).bind fun entry =>
        (narrow_readAt h entry).bind fun _ => narrow_orFail _

omit h in
theorem narrow_findContainer (index : HashMap Str Nat) (declared : Option Str) :
    Narrow (π := π) (findContainer index declared) (findContainer index declared) := by
  unfold findContainer
  cases index.get containerPath with
  | none => exact .throw _
  | some position => exact .ite ((narrow_warn _ _ _).bind fun _ => .pure _) (.pure _)

/-- The first half. -/
theorem narrow_readBook (scan : Scan) :
    Narrow (π := π) (readBook crates limits archive scan)
      (readBook crates wider archive scan) := by
  unfold readBook
  refine .bind (.modify (fun _ => List.prefix_rfl) fun _ _ hst => ?_) fun _ => ?_
  · exact ⟨hst.budget, by rw [hst.warnings], hst.preread, hst.metrics, hst.fold, hst.sent⟩
  refine (narrow_encryptionPolicy h _ _).bind fun obfuscated => ?_
  refine (narrow_readNamed h _ _ _).bind fun declared => ?_
  refine (narrow_findContainer _ _).bind fun container => ?_
  refine (Eff.Narrower.ofExcept _).bind fun containerEntry => ?_
  refine (narrow_readAt h _).bind fun containerBytes => ?_
  refine (narrow_orFail _).bind fun root => ?_
  refine (Eff.Narrower.ofExcept _).bind fun opfEntry => ?_
  refine (narrow_readAt h _).bind fun opfBytes => ?_
  exact (narrow_orFail _).bind fun package => .pure _

/-! ### The passes

Loop by loop.  The indices of a loop come from the book and not from the budget, so the two
calls are at the same turn until one of them stops. -/

/-- Navigation. -/
theorem narrow_navigationPass (willEmit : List Nat) (source : Option Book.NavigationSource) :
    Narrow (π := π) (navigationPass crates client limits archive book willEmit source)
      (navigationPass crates client wider archive book willEmit source) := by
  unfold navigationPass
  rw [h.navigation]
  split
  · refine (Eff.Narrower.ofExcept _).bind fun target => ?_
    refine (narrow_prereadRead h _ _).bind fun bytes => ?_
    have hlast : ∀ parsed : Navigation, Narrow (π := π)
        (if parsed.toc.isEmpty then warn .metadata target.path .noEntries
          else emit client (.navigation parsed) none)
        (if parsed.toc.isEmpty then warn .metadata target.path .noEntries
          else emit client (.navigation parsed) none) := fun parsed =>
      .ite (narrow_warn _ _ _) (narrow_emit _ _)
    exact .ite ((narrow_keep _ _).bind fun _ => hlast _) (hlast _)
  · exact .pure _

/-- One turn of the overlay loop. -/
theorem narrow_overlayTurn (willEmit : List Nat) (lastUse : HashMap Nat Nat)
    (position overlay round : Nat) :
    Narrow (π := π)
      (overlayTurn crates client limits archive book willEmit lastUse position overlay round)
      (overlayTurn crates client wider archive book willEmit lastUse position overlay round) := by
  refine (Eff.Narrower.ofExcept _).bind fun target => ?_
  cases target.entry with
  | none => exact .pure _
  | some entry =>
      refine (narrow_prereadRead h _ _).bind fun bytes => ?_
      refine (Eff.Narrower.ofExcept _).bind fun again => ?_
      have hlast : ∀ parsed : Overlay, Narrow (π := π)
          (if parsed.cues.isEmpty then warn .metadata target.path .noCues
            else do
              let narrated ← Eff.ofExcept (nth book.resolved position)
              emit client (.mediaOverlay ⟨parsed.sourceHref, narrated.path, parsed.cues⟩) none)
          (if parsed.cues.isEmpty then warn .metadata target.path .noCues
            else do
              let narrated ← Eff.ofExcept (nth book.resolved position)
              emit client (.mediaOverlay ⟨parsed.sourceHref, narrated.path, parsed.cues⟩)
                none) := fun parsed =>
        .ite (narrow_warn _ _ _) ((Eff.Narrower.ofExcept _).bind fun _ => narrow_emit _ _)
      exact .ite ((narrow_keep _ _).bind fun _ => hlast _) (hlast _)

theorem narrow_overlayLoop (willEmit : List Nat) (lastUse : HashMap Nat Nat) :
    ∀ pairs : List ((Nat × Nat) × Nat), Narrow (π := π)
      (overlayLoop crates client limits archive book willEmit lastUse pairs)
      (overlayLoop crates client wider archive book willEmit lastUse pairs)
  | [] => .pure _
  | ((position, overlay), round) :: rest =>
      (narrow_overlayTurn h willEmit lastUse position overlay round).bind fun _ =>
        narrow_overlayLoop willEmit lastUse rest

theorem narrow_overlayPass (willEmit : List Nat) :
    Narrow (π := π) (overlayPass crates client limits archive book willEmit overlays)
      (overlayPass crates client wider archive book willEmit overlays) := by
  unfold overlayPass
  rw [h.overlays]
  exact .ite ((Eff.Narrower.ofExcept _).bind fun _ => narrow_overlayLoop h _ _ _) (.pure _)

theorem narrow_emitResource (entry position : Nat) :
    Narrow (π := π) (emitResource client limits archive book overlays entry position)
      (emitResource client wider archive book overlays entry position) := by
  refine (Eff.Narrower.ofExcept _).bind fun target => ?_
  refine (Eff.Narrower.ofExcept _).bind fun href => ?_
  refine (narrow_prereadRead h _ _).bind fun content => ?_
  refine (narrow_emit _ _).bind fun _ => .modify (fun _ => List.prefix_rfl) fun _ _ hst => ?_
  exact ⟨hst.budget, hst.warnings, hst.preread, by rw [hst.metrics], hst.fold, hst.sent⟩

theorem narrow_drain (chapterEntry : Nat) : ∀ (pending : List (Nat × Nat)) (emitted : Nat),
    Narrow (π := π) (drain client limits archive book overlays chapterEntry pending emitted)
      (drain client wider archive book overlays chapterEntry pending emitted)
  | [], _ => .pure _
  | (entry, position) :: rest, _ =>
      .ite ((narrow_emitResource h entry position).bind fun _ =>
        (Eff.Narrower.ofExcept _).bind fun emitted => narrow_drain chapterEntry rest emitted)
        (.pure _)

/-- One chapter. -/
theorem narrow_emitChapter (spineIndex : Nat) (chapter : SpineEntry) (target : Resolved)
    (chapterEntry : Nat) :
    Narrow (π := π)
      (emitChapter client limits archive book overlays spineIndex chapter target chapterEntry)
      (emitChapter client wider archive book overlays spineIndex chapter target
        chapterEntry) := by
  have hsend : ∀ event : Event π.Document, Narrow (π := π)
      (emit client event (some chapterEntry) >>= fun _ => modify fun call =>
        { call with metrics.chaptersEmitted := call.metrics.chaptersEmitted + 1 })
      (emit client event (some chapterEntry) >>= fun _ => modify fun call =>
        { call with metrics.chaptersEmitted := call.metrics.chaptersEmitted + 1 }) := by
    intro event
    refine (narrow_emit _ _).bind fun _ => .modify (fun _ => List.prefix_rfl) fun _ _ hst => ?_
    exact ⟨hst.budget, hst.warnings, hst.preread, by rw [hst.metrics], hst.fold, hst.sent⟩
  refine (narrow_prereadRead h _ _).bind fun content => ?_
  refine (Eff.Narrower.ofExcept _).bind fun spineItem => ?_
  refine (Eff.Narrower.ofExcept _).bind fun ofSource => ?_
  exact .ite ((Eff.Narrower.ofExcept _).bind fun _ => hsend _) (hsend _)

theorem narrow_walkSpine : ∀ (spine : List (SpineEntry × Nat)) (pending : List (Nat × Nat))
    (emitted chapters : Nat),
    Narrow (π := π) (walkSpine client limits archive book overlays spine pending emitted chapters)
      (walkSpine client wider archive book overlays spine pending emitted chapters)
  | [], _, _, _ => .pure _
  | (chapter, spineIndex) :: rest, pending, emitted, _ =>
      (Eff.Narrower.ofExcept _).bind fun target =>
        (Eff.Narrower.ofExcept _).bind fun chapterEntry =>
          (narrow_drain h chapterEntry pending emitted).bind fun (_, _) =>
            (narrow_emitChapter h spineIndex chapter target chapterEntry).bind fun _ =>
              (Eff.Narrower.ofExcept _).bind fun chapters => narrow_walkSpine rest _ _ chapters

theorem narrow_drainRest : ∀ (pending : List (Nat × Nat)) (emitted : Nat),
    Narrow (π := π) (drainRest client limits archive book overlays pending emitted)
      (drainRest client wider archive book overlays pending emitted)
  | [], _ => .pure _
  | (entry, position) :: rest, _ =>
      (narrow_emitResource h entry position).bind fun _ =>
        (Eff.Narrower.ofExcept _).bind fun emitted => narrow_drainRest rest emitted

omit h in
theorem narrow_assertPrereadEmpty :
    Narrow (assertPrereadEmpty (π := π)) assertPrereadEmpty := by
  refine .get_bind ?_ ?_
  · intro t
    split <;> exact List.prefix_rfl
  · intro s t hst
    rw [hst.preread]
    split <;> exact .same rfl hst

theorem narrow_walk (spine : List SpineEntry) (pending : List (Nat × Nat)) :
    Narrow (π := π) (walk client limits archive book overlays spine pending)
      (walk client wider archive book overlays spine pending) :=
  (narrow_walkSpine h _ _ _ _).bind fun (_, _, _) =>
    (narrow_drainRest h _ _).bind fun _ =>
      narrow_assertPrereadEmpty.bind fun _ => .pure _

/-! ### The whole parse

The plan looks at the selection of the limits and not at their sizes, so it is the same. -/

omit h in
theorem selected_within (h : limits.Within wider) (kind : ResourceKind) :
    Extract.selected kind limits = Extract.selected kind wider := by
  unfold Extract.selected
  rw [h.images, h.stylesheets, h.all]

/-- The plan does not depend on the room there is. -/
theorem planItem_within (sources entries : List Nat) :
    book.planItem limits sources entries = book.planItem wider sources entries := by
  funext plan item
  simp only [Book.planItem, Book.fate, selected_within h]

/-- The second half, pass by pass. -/
theorem narrow_deliver (spine : List SpineEntry) :
    Narrow (π := π) (deliver crates client limits archive book spine)
      (deliver crates client wider archive book spine) := by
  unfold deliver
  refine (Eff.Narrower.ofExcept _).bind fun source => ?_
  refine (Eff.Narrower.ofExcept _).bind fun info => ?_
  refine (narrow_emit _ _).bind fun _ => ?_
  refine (Eff.Narrower.ofExcept _).bind fun chapterEntries => ?_
  rw [planItem_within h]
  have hrest : ∀ plan : Book.Plan, Narrow (π := π)
      (navigationPass crates client limits archive book
          (chapterEntries ++ (Book.archiveOrder plan.pending).map Prod.fst) source >>= fun _ => do
        let overlays ← Eff.ofExcept book.overlayLinks
        overlayPass crates client limits archive book
          (chapterEntries ++ (Book.archiveOrder plan.pending).map Prod.fst) overlays
        let sent ← walk client limits archive book overlays spine (Book.archiveOrder plan.pending)
        return { skipped := plan.skipped, chapters := sent.1, emitted := sent.2 : Done })
      (navigationPass crates client wider archive book
          (chapterEntries ++ (Book.archiveOrder plan.pending).map Prod.fst) source >>= fun _ => do
        let overlays ← Eff.ofExcept book.overlayLinks
        overlayPass crates client wider archive book
          (chapterEntries ++ (Book.archiveOrder plan.pending).map Prod.fst) overlays
        let sent ← walk client wider archive book overlays spine (Book.archiveOrder plan.pending)
        return { skipped := plan.skipped, chapters := sent.1, emitted := sent.2 : Done }) := by
    intro plan
    refine (narrow_navigationPass h _ _).bind fun _ => ?_
    refine (Eff.Narrower.ofExcept _).bind fun overlays => ?_
    refine (narrow_overlayPass h _).bind fun _ => ?_
    exact (narrow_walk h _ _).bind fun _ => .pure _
  -- the plan is made of the warnings so far, which are the same
  refine .get_bind ?_ ?_
  · intro t
    cases book.resolved.zipIdx.foldlM (book.planItem wider (spine.map SpineEntry.source)
        chapterEntries) { warnings := t.warnings } with
    | error e => exact List.prefix_rfl
    | ok plan => exact (hrest plan).grows.after_set rfl
  · intro s t hst
    rw [hst.warnings]
    cases book.resolved.zipIdx.foldlM (book.planItem wider (spine.map SpineEntry.source)
        chapterEntries) { warnings := t.warnings } with
    | error e => exact .same rfl hst
    | ok plan =>
        exact (hrest plan).runs { s with warnings := plan.warnings }
          { t with warnings := plan.warnings }
          ⟨hst.budget, rfl, hst.preread, hst.metrics, hst.fold, hst.sent⟩

omit h in
theorem narrow_trailer (done : Done) :
    Narrow (π := π) (trailer client done) (trailer client done) := by
  refine .get_bind (fun t => (narrow_emit _ _).grows t) fun s t hst => ?_
  have hreport : report s done = report t done := by
    unfold report
    rw [hst.budget.consumed, hst.budget.entries, hst.warnings]
  rw [hreport]
  exact (narrow_emit _ _).runs s t hst

theorem narrow_parse (bytes : Bytes) :
    Narrow (π := π) (parse crates client limits bytes) (parse crates client wider bytes) := by
  unfold parse
  refine .bind (.modify (fun _ => List.prefix_rfl) fun _ _ hst => ?_) fun _ => ?_
  · exact ⟨hst.budget, hst.warnings, hst.preread, hst.metrics, by rw [hst.fold], hst.sent⟩
  refine (exhausted_of_code (Archive.openArchive_within h _ _)).bind fun archive => ?_
  refine (narrow_orFail _).bind fun scan => ?_
  refine (narrow_readBook h scan).bind fun book => ?_
  refine (Eff.Narrower.ofExcept _).bind fun spine => ?_
  exact (narrow_deliver h spine).bind fun done => narrow_trailer done

end Passes

end Parse

/-! ## Options and ceilings

What a caller asks for is narrowed to the server's ceiling, and a field that is absent or zero
asks for the ceiling itself.  `Asks` orders requests by what they are narrowed to. -/

/-- No ceiling above `wider`'s. -/
structure Limits.Below (limits wider : Limits) : Prop where
  document : limits.maxDocumentBytes ≤ wider.maxDocumentBytes
  uncompressed : limits.maxUncompressedBytes ≤ wider.maxUncompressedBytes
  entries : limits.maxEntries ≤ wider.maxEntries
  ratio : limits.maxCompressionRatio ≤ wider.maxCompressionRatio
  floor : limits.compressionRatioFloorBytes ≤ wider.compressionRatioFloorBytes

/-- A cap as a caller asks for it: zero is none, and another is no looser than
one that is no larger. -/
def Asks (requested wider : Nat) : Prop := wider = 0 ∨ requested ≠ 0 ∧ requested ≤ wider

/-- Caps no looser than `wider`'s, and the same selection. -/
structure ParseOptions.Within (options wider : ParseOptions) : Prop where
  uncompressed : Asks options.maxUncompressedMib wider.maxUncompressedMib
  entries : Asks options.maxEntries wider.maxEntries
  ratio : Asks options.maxCompressionRatio wider.maxCompressionRatio
  images : options.includeImages = wider.includeImages
  stylesheets : options.includeStylesheets = wider.includeStylesheets
  all : options.includeAllResources = wider.includeAllResources
  document : options.emitDocument = wider.emitDocument
  navigation : options.parseNavigation = wider.parseNavigation
  overlays : options.parseMediaOverlays = wider.parseMediaOverlays

theorem narrow_mono {requested wider ceiling higher : Nat} (unit : Nat)
    (hasks : Asks requested wider) (hceiling : ceiling ≤ higher) :
    narrow requested ceiling unit ≤ narrow wider higher unit := by
  unfold narrow saturatingMul64
  rcases hasks with rfl | ⟨hne, hle⟩
  · rw [if_pos rfl]
    split <;> omega
  · have hunit : requested * unit ≤ wider * unit := Nat.mul_le_mul_right unit hle
    rw [if_neg hne, if_neg (by omega)]
    omega

theorem narrowCount_mono {requested wider ceiling higher : Nat} (hasks : Asks requested wider)
    (hceiling : ceiling ≤ higher) : narrowCount requested ceiling ≤ narrowCount wider higher := by
  unfold narrowCount
  rcases hasks with rfl | ⟨hne, hle⟩
  · rw [if_pos rfl]
    split <;> omega
  · rw [if_neg hne, if_neg (by omega)]
    omega

/-- Lower ceilings and narrower options resolve to lower limits. -/
theorem Limits.resolve_within {limits wider : Limits} {options freer : ParseOptions}
    (hceilings : limits.Below wider) (hoptions : options.Within freer) :
    (limits.resolve options).Within (wider.resolve freer) where
  uncompressed := narrow_mono mib hoptions.uncompressed hceilings.uncompressed
  entries := narrowCount_mono hoptions.entries hceilings.entries
  ratio := narrowCount_mono hoptions.ratio hceilings.ratio
  floor := hceilings.floor
  images := congrArg (Option.getD · true) hoptions.images
  stylesheets := congrArg (Option.getD · false) hoptions.stylesheets
  all := congrArg (Option.getD · false) hoptions.all
  document := hoptions.document
  navigation := congrArg (Option.getD · true) hoptions.navigation
  overlays := congrArg (Option.getD · false) hoptions.overlays

/-- Whatever a caller asks for below its ceilings, and however a server lowers
them: the call is the call it would have been, or it runs out on the way. -/
theorem less_room_ends_earlier (π : Projection) (crates : Crates) (ceilings wider : Limits)
    (options freer : ParseOptions) (bytes : Bytes) (client : Nat → Bool)
    (hceilings : ceilings.Below wider) (hoptions : options.Within freer) :
    ((run π crates (ceilings.resolve options) bytes client).1 =
        (run π crates (wider.resolve freer) bytes client).1 ∧
      (run π crates (ceilings.resolve options) bytes client).2.Within
        (run π crates (wider.resolve freer) bytes client).2) ∨
    ∃ status : Status, (run π crates (ceilings.resolve options) bytes client).1 = .failed status ∧
      status.code = .resourceExhausted ∧
      (run π crates (ceilings.resolve options) bytes client).2.sent <+:
        (run π crates (wider.resolve freer) bytes client).2.sent := by
  have hwithin := Limits.resolve_within hceilings hoptions
  have hruns := (@Parse.narrow_parse π crates client _ _ hwithin bytes).runs _ _
    (.start hwithin)
  unfold run
  rcases hruns with ⟨hsame, hcall⟩ | ⟨e, herror, ⟨status, rfl, hcode⟩, hsent⟩
  · exact .inl ⟨congrArg Outcome.of hsame, hcall⟩
  · exact .inr ⟨status, congrArg Outcome.of herror, hcode, hsent⟩

/-- A caller of `backwards` that allows four entries to its archive. -/
theorem less_room_ends_earlier_backwards :
    ((run Sample.counting Sample.backwards.crates
          (Limits.default.resolve { ParseOptions.default with maxEntries := 4 })
          Sample.backwards.bytes Sample.patient).1 =
        (run Sample.counting Sample.backwards.crates (Limits.default.resolve .default)
          Sample.backwards.bytes Sample.patient).1 ∧
      (run Sample.counting Sample.backwards.crates
          (Limits.default.resolve { ParseOptions.default with maxEntries := 4 })
          Sample.backwards.bytes Sample.patient).2.Within
        (run Sample.counting Sample.backwards.crates (Limits.default.resolve .default)
          Sample.backwards.bytes Sample.patient).2) ∨
    ∃ status : Status, (run Sample.counting Sample.backwards.crates
        (Limits.default.resolve { ParseOptions.default with maxEntries := 4 })
        Sample.backwards.bytes Sample.patient).1 = .failed status ∧
      status.code = .resourceExhausted ∧
      (run Sample.counting Sample.backwards.crates
          (Limits.default.resolve { ParseOptions.default with maxEntries := 4 })
          Sample.backwards.bytes Sample.patient).2.sent <+:
        (run Sample.counting Sample.backwards.crates (Limits.default.resolve .default)
          Sample.backwards.bytes Sample.patient).2.sent :=
  less_room_ends_earlier Sample.counting Sample.backwards.crates .default .default
    { ParseOptions.default with maxEntries := 4 } .default Sample.backwards.bytes Sample.patient
    ⟨le_rfl, le_rfl, le_rfl, le_rfl, le_rfl⟩
    ⟨.inl rfl, .inl rfl, .inl rfl, rfl, rfl, rfl, rfl, rfl, rfl⟩

end GrpcEpub
