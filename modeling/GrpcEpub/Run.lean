/-
# `GrpcEpub.Run` — what a whole call does

`run_spec`: a call is either refused before its first event, or there is a book
behind it and what was sent is a prefix of that book's response, all of it
exactly when the call is complete.  `run_accounted` is the same for the budget,
and holds of refused calls as well.

`Prepared` is the state of knowledge between the two halves: which archive was opened, which
entries were scanned, and what the package document says.  It determines the book and the spine,
so the response of a call is a function of its upload and its options.
-/
import GrpcEpub.Trace

namespace GrpcEpub

/-- What the first half of a call has established by the time anything is sent. -/
structure Prepared (crates : Crates) (limits : Effective) (bytes : Bytes)
    (archive : MemoryArchive) (book : Book) (spine : List SpineEntry) : Prop where
  opened : Archive.openArchive crates.zipNew bytes limits = .ok archive
  scanned : ∃ scan, Archive.scan archive = .ok scan ∧ scan.entries = book.entries
  policy : match book.index.get encryptionPath with
    | none => book.obfuscated = []
    | some position => Extract.obfuscatedEntries
        (crates.strict (book.content archive position)) book.index = .ok book.obfuscated
  rootfile : ∃ container opf, book.index.get containerPath = some container ∧
    Parse.rootfile crates book.index (book.content archive container) =
      .ok (book.opfPath, opf) ∧
    Parse.package crates book.opfPath (book.content archive opf) = .ok book.package
  spine : book.resolveSpine book.package.spine = .ok spine

/-- The trailer's events: the document in front of the status, when the caller
asked for one. -/
def trailing (π : Projection) (limits : Effective) (hash : UInt64)
    (body : List (Delivery π.Document)) (status : ParseStatus) : List (Delivery π.Document) :=
  match folded π limits hash body with
  | none => [⟨.status status, none⟩]
  | some fold =>
      [⟨.document (π.take (π.consume (.status status) fold)).1, none⟩, ⟨.status status, none⟩]

/-- The whole response of a book. -/
def response (π : Projection) (crates : Crates) (limits : Effective) (bytes : Bytes)
    (archive : MemoryArchive) (book : Book) (spine : List SpineEntry) (status : ParseStatus) :
    List (Delivery π.Document) :=
  script crates limits archive book spine ++
    trailing π limits (sourceHash bytes) (script crates limits archive book spine) status

namespace Parse

variable {π : Projection} {crates : Crates} {client : Nat → Bool} {limits : Effective}
  {archive : MemoryArchive} {hash : UInt64}

/-! ## The first half

It sends nothing.  Each decision either returns what `Prepared` states of it, or the call is
refused with its status. -/

/-- Ahead of the first event nothing is promised of a status, only of the
accounts. -/
theorem accounting {α : Type} {entries : List EntryInfo} {x : Step π α} {P : Call π → Prop}
    {ws : List (Delivery π.Document)} {Q : α → Call π → Prop}
    (h : Eff.Emits Call.sent P x ws Q (Broken limits archive entries)) :
    Eff.Emits Call.sent P x ws Q (Accounted limits archive) :=
  h.weaken (fun _ hp => hp) (fun _ _ hq => hq) fun _ _ he => he.toAccounted

theorem emits_orFail {α β : Type} {r : Except Status α} {f : α → Step π β}
    {P : Call π → Prop} {ws : List (Delivery π.Document)} {R : β → Call π → Prop}
    {E : Abort → Call π → Prop} (hE : ∀ e s, P s → E e s)
    (h : ∀ a, r = .ok a → Eff.Emits Call.sent P (f a) ws R E) :
    Eff.Emits Call.sent P (orFail r >>= f) ws R E := by
  intro s hs
  cases r with
  | ok a => exact h a rfl s hs
  | error e => exact ⟨⟨[], List.nil_prefix, (List.append_nil _).symm⟩, hE _ s hs⟩

theorem emits_orPanic {α β : Type} {entries : List EntryInfo} {r : Except Abort α}
    {f : α → Step π β} {ws : List (Delivery π.Document)} {R : β → Call π → Prop}
    (h : ∀ a, r = .ok a → Eff.Emits Call.sent (Sound limits archive entries hash) (f a) ws R
      (Accounted limits archive)) :
    Eff.Emits Call.sent (Sound limits archive entries hash) (Eff.ofExcept r >>= f) ws R
      (Accounted limits archive) :=
  .ofExcept_bind h fun e _ _ hs => hs.accounted e

/-- The policy reads one entry at most, and sends nothing. -/
theorem encryptionPolicy_spec {entries : List EntryInfo} {index : HashMap Str Nat} :
    Eff.Emits (Call.sent (π := π)) (Sound limits archive entries hash)
      (encryptionPolicy crates limits archive entries index) []
      (fun obfuscated s => (match index.get encryptionPath with
        | none => obfuscated = []
        | some position => Extract.obfuscatedEntries
            (crates.strict (archive.inflated (entries.getD position default))) index =
              .ok obfuscated) ∧ Sound limits archive entries hash s)
      (Accounted limits archive) := by
  unfold encryptionPolicy
  cases index.get encryptionPath with
  | none => exact .pure fun s hs => ⟨rfl, hs⟩
  | some position =>
      refine emits_orPanic ?_
      intro entry hentry
      obtain rfl := nth_getD hentry
      refine (accounting (readAt_spec (nth_mem hentry))).bind_silent
        fun bytes => .assuming fun hbytes => ?_
      subst hbytes
      intro s hs
      cases h : Extract.obfuscatedEntries (crates.strict
          (archive.inflated (entries.getD position default))) index with
      | ok obfuscated => exact ⟨by simp, h, hs⟩
      | error status => exact ⟨⟨[], List.nil_prefix, by simp⟩, hs.accounted _⟩

theorem readNamed_spec {entries : List EntryInfo} {index : HashMap Str Nat} (name : Str) :
    Eff.Emits (Call.sent (π := π)) (Sound limits archive entries hash)
      (readNamed limits archive entries index name) []
      (fun _ => Sound limits archive entries hash) (Accounted limits archive) := by
  unfold readNamed
  cases index.get name with
  | none => exact .pure fun s hs => hs
  | some position =>
      refine emits_orPanic ?_
      intro entry hentry
      exact (accounting (readEntry_spec (nth_mem hentry))).bind_silent
        fun bytes => .pure fun s hs => hs.2

theorem findContainer_spec {entries : List EntryInfo} {index : HashMap Str Nat}
    (declared : Option Str) :
    Eff.Emits (Call.sent (π := π)) (Sound limits archive entries hash)
      (findContainer index declared) []
      (fun position s => index.get containerPath = some position ∧
        Sound limits archive entries hash s)
      (Accounted limits archive) := by
  unfold findContainer
  cases index.get containerPath with
  | none => exact .throw fun s hs => hs.accounted _
  | some position =>
      exact .when (accounting (warn_spec _ _ _)) (.pure fun s hs => ⟨rfl, hs⟩)

/-- The first half establishes what `Prepared` says of it. -/
theorem readBook_spec (scan : Scan) :
    Eff.Emits (Call.sent (π := π)) (Sound limits archive scan.entries hash)
      (readBook crates limits archive scan) []
      (fun book s => (scan.entries = book.entries ∧
        (match book.index.get encryptionPath with
        | none => book.obfuscated = []
        | some position => Extract.obfuscatedEntries
            (crates.strict (book.content archive position)) book.index = .ok book.obfuscated) ∧
        ∃ container opf, book.index.get containerPath = some container ∧
          rootfile crates book.index (book.content archive container) = .ok (book.opfPath, opf) ∧
          package crates book.opfPath (book.content archive opf) = .ok book.package) ∧
        Sound limits archive scan.entries hash s)
      (Accounted limits archive) := by
  unfold readBook
  refine Eff.Emits.bind_silent (Q := fun _ => Sound limits archive scan.entries hash)
    (accounting (emits_modify fun _ => ⟨rfl, rfl, rfl, rfl, rfl⟩)) fun _ => ?_
  refine encryptionPolicy_spec.bind_silent fun obfuscated => .assuming fun hpolicy => ?_
  refine (readNamed_spec _).bind_silent ?_
  intro declared
  refine (findContainer_spec _).bind_silent fun container => .assuming fun hcontainer => ?_
  refine emits_orPanic ?_
  intro containerEntry hentry
  obtain rfl := nth_getD hentry
  refine (accounting (readAt_spec (nth_mem hentry))).bind_silent
    fun containerBytes => .assuming fun hbytes => ?_
  subst hbytes
  refine emits_orFail (fun _ _ hs => hs.accounted _) fun root hroot => ?_
  obtain ⟨opfPath, opf⟩ := root
  refine emits_orPanic ?_
  intro opfEntry hopf
  obtain rfl := nth_getD hopf
  refine (accounting (readAt_spec (nth_mem hopf))).bind_silent
    fun opfBytes => .assuming fun hbytes => ?_
  subst hbytes
  refine emits_orFail (fun _ _ hs => hs.accounted _) fun package hpackage => ?_
  exact .pure fun s hs => ⟨⟨rfl, hpolicy, container, opf, hcontainer, hroot, hpackage⟩, hs⟩

/-! ## The second half

It sends the script and then the trailer, and the trailer has the fold's document in front of the
status when the caller asked for one. -/

variable {book : Book}

/-- The second half sends the script. -/
theorem deliver_spec (spine : List SpineEntry) :
    Eff.Emits (Call.sent (π := π)) (Sound limits archive book.entries hash)
      (deliver crates client limits archive book spine)
      (script crates limits archive book spine)
      (fun done s => (done.chapters = spine.length ∧
        done.emitted = (book.resources limits spine).length ∧ spine.length ≤ u32Max ∧
        (book.resources limits spine).length ≤ u32Max) ∧
        Sound limits archive book.entries hash s)
      (Broken limits archive book.entries) := by
  unfold deliver
  refine emits_ofExcept Book.navigationSource_panics ?_
  intro source hsource
  refine emits_ofExcept (Book.info_panics _ _) ?_
  intro info hinfo
  have hscript : script crates limits archive book spine =
      [⟨.info info, none⟩] ++ (Script.navigationEvents crates limits archive book source ++
        (Script.overlays crates limits archive book ++
          Script.walk (δ := π.Document) archive book spine.zipIdx
            (book.resources limits spine))) := by
    simp only [script, Script.opening, Script.navigation, hsource, hinfo, List.append_assoc]
  rw [hscript]
  refine (emit_spec (by simp) _).bind ?_
  intro _
  refine emits_ofExcept (Book.chapterEntries_panics _) ?_
  intro entries hentries
  obtain rfl := Book.chapterEntries_ok hentries
  refine .get_bind ?_
  intro s₀ hs₀
  refine .ofExcept_bind (fun plan hplan => ?_) fun e s he hs => ?_
  -- a plan that is not made has panicked
  swap
  · obtain ⟨p, rfl⟩ := Book.plan_panics _ _ _ _ _ e he
    exact hs ▸ hs₀.panicked p
  have hpending : Book.archiveOrder plan.pending = book.resources limits spine := by
    rw [Book.plan_ok hplan]
    rfl
  refine Eff.Emits.bind_silent (Q := fun _ => Sound limits archive book.entries hash)
    (.set fun s hs => ?_) fun _ => ?_
  · subst hs
    exact ⟨rfl, hs₀.preread, hs₀.ledger, hs₀.fold⟩
  -- then the passes, in the order of the script
  refine (navigationPass_spec _ source).bind ?_
  intro _
  refine emits_ofExcept (Book.overlayLinksFrom_panics _) ?_
  intro links hlinks
  obtain rfl := Book.overlayLinks_ok hlinks
  refine (overlayPass_spec _).bind ?_
  intro _
  rw [hpending, ← List.append_nil (Script.walk ..)]
  refine (walk_spec spine _).bind fun r => .assuming fun hr => ?_
  obtain ⟨rfl, hchapters, hresources⟩ := hr
  exact .pure fun s hs => ⟨⟨rfl, rfl, hchapters, hresources⟩, hs⟩

/-- The trailer sends its events, or stops in front of one of them. -/
theorem trailer_exec (client : Nat → Bool) (done : Done) {s : Call π}
    (hs : s.fold = folded π limits hash s.sent) :
    ((trailer client done).exec s).2.budget = s.budget ∧
    ((trailer client done).exec s).2.reads = s.reads ∧
    (((trailer client done).exec s).1 = .ok () ∧
        ((trailer client done).exec s).2.sent =
          s.sent ++ trailing π limits hash s.sent (report s done) ∨
      ((trailer client done).exec s).1 = .error .gone ∧
        ∃ ws, ws <+: trailing π limits hash s.sent (report s done) ∧
          ws ≠ trailing π limits hash s.sent (report s done) ∧
          ((trailer client done).exec s).2.sent = s.sent ++ ws) := by
  unfold trailing
  rw [← hs]
  cases hf : s.fold with
  | none =>
      simp only [trailer, emit, Eff.exec_bind, Eff.exec_get, hf, exec_send]
      cases client s.sent.length with
      | true => exact ⟨rfl, rfl, .inl ⟨rfl, rfl⟩⟩
      | false => exact ⟨rfl, rfl, .inr ⟨rfl, [], List.nil_prefix, by simp, by simp⟩⟩
  | some fold =>
      simp only [trailer, emit, Eff.exec_bind, Eff.exec_get, Eff.exec_set, hf, exec_send]
      cases client s.sent.length with
      | false => exact ⟨rfl, rfl, .inr ⟨rfl, [], List.nil_prefix, by simp, by simp⟩⟩
      | true =>
          -- the document is out; the status may still be refused
          cases hc : client (s.sent.length + 1) with
          | true => exact ⟨by simp [hc], by simp [hc], .inl ⟨by simp [hc], by simp [hc]⟩⟩
          | false =>
              exact ⟨by simp [hc], by simp [hc], .inr ⟨by simp [hc],
                [⟨.document (π.take (π.consume (.status (report s done)) fold)).1, none⟩],
                by simp, by simp, by simp [hc]⟩⟩

/-- A call as it is when its upload is looked at. -/
theorem sound_start (bytes : Bytes) (archive : MemoryArchive) (entries : List EntryInfo) :
    Sound limits archive entries (sourceHash bytes)
      { Call.start π limits with
        fold := (Call.start π limits).fold.map (π.setSourceHash (sourceHash bytes)) } := by
  refine ⟨by simp [Call.start], .new, ?_⟩
  unfold Call.start folded
  split <;> simp

/-- Where a call can stop: before there is a book to send, while it delivers, or
in its trailer. -/
theorem parse_cases (bytes : Bytes) (r : Except Abort Unit) (s' : Call π)
    (h : (parse crates client limits bytes).exec (.start π limits) = (r, s')) :
    (∃ e archive, r = .error e ∧ s'.sent = [] ∧ Accounted limits archive e s') ∨
    ∃ archive book spine, Prepared crates limits bytes archive book spine ∧
      ((∃ e, r = .error e ∧ s'.sent <+: script crates limits archive book spine ∧
        Broken limits archive book.entries e s') ∨
      ∃ done s, (trailer client done).exec s = (r, s') ∧
        s.sent = script crates limits archive book spine ∧ done.chapters = spine.length ∧
        done.emitted = (book.resources limits spine).length ∧ spine.length ≤ u32Max ∧
        (book.resources limits spine).length ≤ u32Max ∧
        Sound limits archive book.entries (sourceHash bytes) s) := by
  have hstart := @sound_start π limits bytes
  simp only [parse, Eff.exec_bind, Eff.exec_modify] at h
  -- the first half: nothing is sent until there is a book
  cases hopen : Archive.openArchive crates.zipNew bytes limits with
  | error status =>
      simp only [hopen, orFail, Eff.exec_throw] at h
      obtain ⟨rfl, rfl⟩ := Prod.mk.inj h
      exact .inl ⟨_, ⟨0, [], fun _ => .ok []⟩, rfl, rfl, (hstart _ []).accounted _⟩
  | ok archive =>
  simp only [hopen, orFail, Eff.exec_pure] at h
  cases hscan : Archive.scan archive with
  | error status =>
      simp only [hscan, Eff.exec_throw] at h
      obtain ⟨rfl, rfl⟩ := Prod.mk.inj h
      exact .inl ⟨_, archive, rfl, rfl, (hstart _ []).accounted _⟩
  | ok scan =>
  simp only [hscan, Eff.exec_pure] at h
  rcases hread : (readBook crates limits archive scan).exec _ with ⟨_ | book, s₁⟩
  · rw [hread] at h
    obtain ⟨rfl, rfl⟩ := Prod.mk.inj h
    obtain ⟨⟨ws, hws, hsent⟩, hacc⟩ := (readBook_spec scan).of_error (hstart _ _) hread
    exact .inl ⟨_, archive, rfl, by simpa [List.prefix_nil.mp hws, Call.start] using hsent, hacc⟩
  obtain ⟨hsent, ⟨hentries, hpolicy, hroot⟩, hs₁⟩ :=
    (readBook_spec scan).of_ok (hstart _ _) hread
  simp only [hread, Eff.exec_ofExcept] at h
  rw [hentries] at hs₁
  -- the spine is the last decision in front of the first event
  cases hspine : book.resolveSpine book.package.spine with
  | error e =>
      rw [hspine] at h
      obtain ⟨rfl, rfl⟩ := Prod.mk.inj h
      exact .inl ⟨_, archive, rfl, hsent, hs₁.accounted _⟩
  | ok spine =>
  simp only [hspine] at h
  refine .inr ⟨archive, book, spine, ⟨hopen, ⟨scan, hscan, hentries⟩, hpolicy, hroot, hspine⟩, ?_⟩
  -- the second half, and the trailer behind it
  rcases hdeliver : (deliver crates client limits archive book spine).exec s₁ with ⟨_ | done, s₂⟩
  · rw [hdeliver] at h
    obtain ⟨rfl, rfl⟩ := Prod.mk.inj h
    obtain ⟨⟨ws, hws, hout⟩, hbroken⟩ := (deliver_spec spine).of_error hs₁ hdeliver
    refine .inl ⟨_, rfl, ?_, hbroken⟩
    rwa [hout, hsent]
  · rw [hdeliver] at h
    obtain ⟨hout, ⟨hchapters, hemitted, hfits, hfits'⟩, hs₂⟩ := (deliver_spec spine).of_ok hs₁ hdeliver
    refine .inr ⟨done, s₂, h, ?_, hchapters, hemitted, hfits, hfits', hs₂⟩
    rw [hout, hsent]
    rfl

end Parse

/-! ## The call

The two halves against any client. -/

section Call

variable (π : Projection) (crates : Crates) (limits : Effective) (bytes : Bytes)

/-- A call refused before its first event. -/
structure Refused (outcome : Outcome) (call : Call π) : Prop where
  sent : call.sent = []
  incomplete : outcome ≠ .complete

/-- A call that had a book to send. -/
structure Delivered (archive : MemoryArchive) (book : Book) (spine : List SpineEntry)
    (status : ParseStatus) (outcome : Outcome) (call : Call π) : Prop where
  prepared : Prepared crates limits bytes archive book spine
  chapters : status.chaptersEmitted = spine.length
  resources : status.resourcesEmitted = (book.resources limits spine).length
  sent : call.sent <+: response π crates limits bytes archive book spine status
  complete : outcome = .complete ↔
    call.sent = response π crates limits bytes archive book spine status
  receipt : outcome = .complete → status.uncompressedBytes = call.budget.consumed ∧
    status.entriesRead = call.budget.entries ∧ spine.length ≤ u32Max ∧
    (book.resources limits spine).length ≤ u32Max
  fromRead : ∀ failure, outcome = .failed failure → ∃ entry ∈ book.entries,
    (Archive.readEntry archive entry limits).exec call.budget =
      (.error (.failed failure), call.budget)

variable {π crates limits bytes}

theorem Outcome.of_ne_complete (e : Abort) : Outcome.of (.error e) ≠ .complete := by
  cases e <;> simp [Outcome.of]

theorem Outcome.of_failed {e : Abort} {status : Status}
    (h : Outcome.of (.error e) = .failed status) : e = .failed status := by
  cases e <;> simp_all [Outcome.of]

theorem trailing_ne_nil (hash : UInt64) (body : List (Delivery π.Document))
    (status : ParseStatus) : trailing π limits hash body status ≠ [] := by
  unfold trailing
  split <;> simp

/-- A script without its trailer is no complete response. -/
theorem script_ne_response {archive : MemoryArchive} {book : Book} {spine : List SpineEntry}
    {status : ParseStatus} {sent : List (Delivery π.Document)}
    (h : sent <+: script crates limits archive book spine) :
    sent ≠ response π crates limits bytes archive book spine status := by
  rintro rfl
  have := h.length_le
  rw [response, List.length_append] at this
  have hpos : 0 < (trailing π limits (sourceHash bytes)
      (script crates limits archive book spine) status).length :=
    List.length_pos_of_ne_nil (trailing_ne_nil _ _ _)
  omega

/-- Refused, or with a book and a prefix of its response. -/
theorem run_spec (client : Nat → Bool) :
    Refused π (run π crates limits bytes client).1 (run π crates limits bytes client).2 ∨
    ∃ archive book spine status, Delivered π crates limits bytes archive book spine status
      (run π crates limits bytes client).1 (run π crates limits bytes client).2 := by
  rcases hrun : (Parse.parse crates client limits bytes).exec (.start π limits) with ⟨r, call⟩
  have hout : run π crates limits bytes client = (.of r, call) := by simp [run, hrun]
  rw [hout]
  rcases Parse.parse_cases bytes r call hrun with
    ⟨e, archive, rfl, hsent, -⟩ | ⟨archive, book, spine, hprepared, h⟩
  · exact .inl ⟨hsent, Outcome.of_ne_complete e⟩
  refine .inr ⟨archive, book, spine, ?_⟩
  rcases h with ⟨e, rfl, hsent, hbroken⟩ |
    ⟨done, s, htrailer, hscript, hchapters, hemitted, hfits, hfits', hs⟩
  · refine ⟨⟨spine.length, (book.resources limits spine).length, 0, 0, 0, []⟩, hprepared, rfl, rfl,
      hsent.trans (List.prefix_append _ _), ?_, ?_, ?_⟩
    · exact iff_of_false (Outcome.of_ne_complete e) (script_ne_response hsent)
    · exact fun h => absurd h (Outcome.of_ne_complete e)
    · exact fun failure h => hbroken.fromRead failure (Outcome.of_failed h)
  · obtain ⟨hbudget, -, hend⟩ := Parse.trailer_exec client done hs.fold
    simp only [htrailer] at hbudget hend
    refine ⟨Parse.report s done, hprepared, hchapters, hemitted, ?_, ?_, ?_, ?_⟩
    all_goals rw [hscript] at hend
    all_goals rcases hend with ⟨rfl, hsent⟩ | ⟨rfl, ws, hws, hne, hsent⟩
    · exact hsent ▸ List.prefix_refl _
    · exact hsent ▸ (List.prefix_append_right_inj _).mpr hws
    · exact iff_of_true rfl hsent
    · refine iff_of_false (by simp [Outcome.of]) fun h => hne ?_
      exact List.append_cancel_left (hsent.symm.trans h)
    · exact fun _ => ⟨by rw [hbudget]; rfl, by rw [hbudget]; rfl, hfits, hfits'⟩
    · simp [Outcome.of]
    · simp [Outcome.of]
    · simp [Outcome.of]

/-- The readings of a call and its budget agree, however it ends.  Only a call
that died of a full counter has taken something it has not recorded. -/
theorem run_accounted (π : Projection) (crates : Crates) (limits : Effective) (bytes : Bytes)
    (client : Nat → Bool) :
    ∃ archive budget, Ledger archive limits.maxUncompressedBytes
        (run π crates limits bytes client).2.reads budget ∧
      ((run π crates limits bytes client).2.budget = budget ∨
        (run π crates limits bytes client).1 = .panicked .overflow ∧
          (u64Max < limits.maxUncompressedBytes ∨
            u32Max ≤ (run π crates limits bytes client).2.reads.length)) ∧
      (limits.maxUncompressedBytes ≤ u64Max →
        (run π crates limits bytes client).2.budget.consumed +
          (run π crates limits bytes client).2.budget.remaining =
            limits.maxUncompressedBytes) := by
  rcases hrun : (Parse.parse crates client limits bytes).exec (.start π limits) with ⟨r, call⟩
  have hout : run π crates limits bytes client = (.of r, call) := by simp [run, hrun]
  rw [hout]
  have hacc : ∀ {archive e}, r = .error e → Accounted limits archive e call →
      ∃ archive budget, Ledger archive limits.maxUncompressedBytes call.reads budget ∧
        (call.budget = budget ∨ Outcome.of r = .panicked .overflow ∧
          (u64Max < limits.maxUncompressedBytes ∨ u32Max ≤ call.reads.length)) ∧
        (limits.maxUncompressedBytes ≤ u64Max →
          call.budget.consumed + call.budget.remaining = limits.maxUncompressedBytes) := by
    rintro archive e rfl ⟨⟨budget, hledger, hbudget⟩, hbalance⟩
    exact ⟨archive, budget, hledger, hbudget.imp_right fun h => ⟨by rw [h.1]; rfl, h.2⟩, hbalance⟩
  rcases Parse.parse_cases bytes r call hrun with
    ⟨e, archive, he, -, h⟩ | ⟨archive, book, spine, -, ⟨e, he, -, h⟩ | ⟨done, s, htrailer, h⟩⟩
  · exact hacc he h
  · exact hacc he h.toAccounted
  · obtain ⟨-, -, -, -, -, hs⟩ := h
    obtain ⟨hbudget, hreads, -⟩ := Parse.trailer_exec client done hs.fold
    simp only [htrailer] at hbudget hreads
    rw [hbudget, hreads]
    exact ⟨archive, s.budget, hs.ledger, .inl rfl, fun _ => hs.ledger.balance⟩

end Call

end GrpcEpub
