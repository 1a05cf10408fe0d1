/-
# `GrpcEpub.Counters` — the process counters and the receipt

A call reports what it inflated twice: to its caller, from the budget, and to the process, from
counters beside it.  Every read charges the budget, and every read but one goes through `read_at`,
which counts it.  The one that does not is the `mimetype` marker, so the counters fall short of the
receipt by what that inflates to (`counters_agree_iff`).

`Leaves P x Q` says that from a state with `P` the step ends in one with `Q` whenever it returns.
`Tallied` is the state: how many bytes the counters are behind the budget, and what has been
counted of chapters and resources.
-/
import GrpcEpub.AnyOrder
import GrpcEpub.Inflations
import GrpcEpub.Narrations

namespace GrpcEpub

namespace Parse

variable {π : Projection} {crates : Crates} {client : Nat → Bool} {limits : Effective}
  {archive : MemoryArchive} {entries : List EntryInfo} {book : Book}

/-- From a state with `P`, a step that returns leaves one with `Q`. -/
abbrev Leaves {α : Type} (P : Call π → Prop) (x : Step π α) (Q : α → Call π → Prop) : Prop :=
  Eff.Emits (fun _ => ([] : List Unit)) P x [] Q fun _ _ => True

/-! ## Rules

A triple for a step that returns; one that stops need not be accounted for. -/

theorem leaves_bind {α β : Type} {x : Step π α} {f : α → Step π β} {P : Call π → Prop}
    {Q : α → Call π → Prop} {R : β → Call π → Prop} (hx : Leaves P x Q)
    (hf : ∀ a, Leaves (Q a) (f a) R) : Leaves P (x >>= f) R :=
  hx.bind_silent hf

theorem leaves_ofExcept {α β : Type} {r : Except Abort α} {f : α → Step π β} {P : Call π → Prop}
    {R : β → Call π → Prop} (h : ∀ a, r = .ok a → Leaves P (f a) R) :
    Leaves P (Eff.ofExcept r >>= f) R :=
  .ofExcept_bind h fun _ _ _ _ => trivial

theorem leaves_orFail {α β : Type} {r : Except Status α} {f : α → Step π β} {P : Call π → Prop}
    {R : β → Call π → Prop} (h : ∀ a, r = .ok a → Leaves P (f a) R) :
    Leaves P (orFail r >>= f) R := by
  intro s hs
  cases r with
  | ok a => exact h a rfl s hs
  | error status => exact ⟨⟨[], List.nil_prefix, (List.append_nil _).symm⟩, trivial⟩

theorem leaves_modify {f : Call π → Call π} {P Q : Call π → Prop} (h : ∀ s, P s → Q (f s)) :
    Leaves P (modify f : Step π PUnit) fun _ => Q :=
  .modify fun s hs => ⟨rfl, h s hs⟩

theorem leaves_set {s₁ : Call π} {P Q : Call π → Prop} (h : ∀ s, P s → Q s₁) :
    Leaves P (set s₁ : Step π PUnit) fun _ => Q :=
  .set fun s hs => ⟨rfl, h s hs⟩

theorem leaves_ite {α : Type} {c : Prop} [Decidable c] {x y : Step π α} {P : Call π → Prop}
    {Q : α → Call π → Prop} (hx : Leaves P x Q) (hy : Leaves P y Q) :
    Leaves P (if c then x else y) Q := by
  split
  · exact hx
  · exact hy

/-! ## Counted and charged

The two totals side by side. -/

/-- What the call has counted so far, and how many bytes it has been charged for beyond that. -/
structure Tallied (uncounted chapters resources : Nat) (call : Call π) : Prop where
  bytes : call.metrics.bytesInflated + uncounted = call.budget.consumed
  chapters : call.metrics.chaptersEmitted = chapters
  resources : call.metrics.resourcesEmitted = resources

variable {uncounted chapters resources : Nat}

/-- Neither is changed by what leaves the counters and the budget alone. -/
theorem Tallied.of_same {s s' : Call π} (h : Tallied uncounted chapters resources s)
    (hmetrics : s'.metrics = s.metrics) (hbudget : s'.budget = s.budget) :
    Tallied uncounted chapters resources s' := by
  refine ⟨?_, ?_, ?_⟩
  · rw [hmetrics, hbudget]
    exact h.bytes
  · rw [hmetrics]
    exact h.chapters
  · rw [hmetrics]
    exact h.resources

theorem tallied_start (limits : Effective) : Tallied 0 0 0 (Call.start π limits) := ⟨rfl, rfl, rfl⟩

/-! ## Reading

`read_entry` charges and `read_at` counts.  Only the marker is read by the former alone. -/

/-- A read that is charged, and not counted. -/
theorem readEntry_leaves (entry : EntryInfo) :
    Leaves (Tallied uncounted chapters resources) (readEntry (π := π) limits archive entry)
      fun bytes s => bytes = archive.inflated entry ∧
        Tallied (uncounted + bytes.length) chapters resources s := by
  intro s hs
  unfold readEntry
  rw [Eff.exec_bind_ok (Eff.exec_get s)]
  rcases Archive.readEntry_cases archive entry limits s.budget with
    ⟨-, h⟩ | ⟨status, h⟩ | ⟨-, -, h⟩ | ⟨-, -, h⟩
  · rw [h]
    refine ⟨rfl, rfl, ?_, hs.chapters, hs.resources⟩
    change s.metrics.bytesInflated + (uncounted + _) = s.budget.consumed + _
    rw [← hs.bytes, Nat.add_assoc]
  all_goals
    rw [h]
    exact ⟨⟨[], List.nil_prefix, rfl⟩, trivial⟩

/-- A read that is counted too. -/
theorem readAt_leaves (entry : EntryInfo) :
    Leaves (Tallied uncounted chapters resources) (readAt (π := π) limits archive entry)
      fun _ => Tallied uncounted chapters resources := by
  refine leaves_bind (readEntry_leaves entry) fun bytes => ?_
  refine leaves_bind (leaves_modify (Q := Tallied uncounted chapters resources) ?_)
    fun _ => .pure fun s hs => hs
  rintro s ⟨-, hs⟩
  refine ⟨?_, hs.chapters, hs.resources⟩
  have hbytes := hs.bytes
  change s.metrics.bytesInflated + bytes.length + uncounted = s.budget.consumed
  omega

/-- What the entry of this name inflates to. -/
def namedLength (archive : MemoryArchive) (entries : List EntryInfo) (index : HashMap Str Nat)
    (name : Str) : Nat :=
  ((index.get name).map fun position =>
    (archive.inflated (entries.getD position default)).length).getD 0

/-- `read_named` is the one that does not count. -/
theorem readNamed_leaves (index : HashMap Str Nat) (name : Str) :
    Leaves (Tallied 0 chapters resources) (readNamed (π := π) limits archive entries index name)
      fun _ => Tallied (namedLength archive entries index name) chapters resources := by
  unfold readNamed namedLength
  cases index.get name with
  | none => exact .pure fun s hs => hs
  | some position =>
      refine leaves_ofExcept fun entry hentry => ?_
      obtain rfl := nth_getD hentry
      refine leaves_bind (readEntry_leaves _) fun bytes => .pure fun s hs => ?_
      obtain ⟨rfl, hs⟩ := hs
      rw [Nat.zero_add] at hs
      exact hs

/-- What comes from the cache has been counted before. -/
theorem prereadRead_leaves (k : Nat) :
    Leaves (Tallied uncounted chapters resources) (prereadRead (π := π) limits archive entries k)
      fun _ => Tallied uncounted chapters resources := by
  unfold prereadRead takePreread
  refine leaves_bind (Q := fun _ => Tallied uncounted chapters resources) ?_ fun kept => ?_
  · refine .get_bind fun s₀ hs₀ => ?_
    refine leaves_bind (leaves_set (Q := Tallied uncounted chapters resources) ?_)
      fun _ => .pure fun s hs => hs
    rintro s rfl
    exact hs₀.of_same rfl rfl
  · cases kept with
    | some bytes => exact .pure fun s hs => hs
    | none => exact leaves_ofExcept fun entry _ => readAt_leaves entry

/-! ## Sending

An event that is sent is counted behind it, by the pass that sends it. -/

/-- What does not depend on what has been sent, and folded, stays as it is. -/
theorem send_keeps {P : Call π → Prop}
    (hP : ∀ (s : Call π) fold sent, P s → P { s with fold := fold, sent := sent })
    (event : Event π.Document) (entry : Option Nat) :
    Leaves P (send client event entry) fun _ => P := by
  intro s hs
  rw [exec_send]
  cases client s.sent.length with
  | true => exact ⟨rfl, hP s s.fold _ hs⟩
  | false => exact ⟨⟨[], List.nil_prefix, rfl⟩, trivial⟩

theorem emit_keeps {P : Call π → Prop}
    (hP : ∀ (s : Call π) fold sent, P s → P { s with fold := fold, sent := sent })
    (event : Event π.Document) (entry : Option Nat) :
    Leaves P (emit client event entry) fun _ => P := by
  refine .get_bind fun s₀ hs₀ => ?_
  cases s₀.fold with
  | none =>
      exact (send_keeps hP event entry).weaken (fun s hs => hs ▸ hs₀) (fun _ _ hq => hq)
        fun _ _ he => he
  | some fold =>
      have hset : ∀ fold, Leaves (π := π) (· = s₀) (set { s₀ with fold := some fold })
          fun _ => P := fun fold => leaves_set fun s _ => hP s₀ (some fold) s₀.sent hs₀
      dsimp only
      split
      · refine leaves_bind (hset _) fun _ => ?_
        exact leaves_bind (send_keeps hP _ none) fun _ => send_keeps hP _ entry
      · exact leaves_bind (hset _) fun _ => send_keeps hP _ entry

theorem emit_leaves (event : Event π.Document) (entry : Option Nat) :
    Leaves (Tallied uncounted chapters resources) (emit client event entry)
      fun _ => Tallied uncounted chapters resources :=
  emit_keeps (fun _ _ _ hs => hs.of_same rfl rfl) event entry

theorem warn_leaves (code : ParseWarningCode) (href : Str) (message : WarningText) :
    Leaves (Tallied uncounted chapters resources) (warn (π := π) code href message)
      fun _ => Tallied uncounted chapters resources :=
  leaves_modify fun _ hs => hs.of_same rfl rfl

theorem keep_leaves (k : Nat) (bytes : Bytes) :
    Leaves (Tallied uncounted chapters resources) (keep (π := π) k bytes)
      fun _ => Tallied uncounted chapters resources :=
  leaves_modify fun _ hs => hs.of_same rfl rfl

/-! ## The passes

Ahead of the walk no chapter or resource is counted. -/

theorem navigationPass_leaves (willEmit : List Nat) (source : Option Book.NavigationSource) :
    Leaves (Tallied uncounted chapters resources)
      (navigationPass (π := π) crates client limits archive book willEmit source)
      fun _ => Tallied uncounted chapters resources := by
  unfold navigationPass
  split
  · refine leaves_ofExcept fun target _ => ?_
    refine leaves_bind (prereadRead_leaves _) fun bytes => ?_
    refine .when (keep_leaves _ _) ?_
    exact leaves_ite (warn_leaves _ _ _) (emit_leaves _ _)
  · exact .pure fun s hs => hs

/-- Each overlay that is inflated is counted and charged alike. -/
theorem overlayLoop_leaves (willEmit : List Nat) (lastUse : HashMap Nat Nat)
    (pairs : List ((Nat × Nat) × Nat)) :
    Leaves (Tallied uncounted chapters resources)
      (overlayLoop (π := π) crates client limits archive book willEmit lastUse pairs)
      fun _ => Tallied uncounted chapters resources := by
  induction pairs with
  | nil => exact .pure fun s hs => hs
  | cons pair rest ih =>
      obtain ⟨⟨position, overlay⟩, round⟩ := pair
      unfold overlayLoop overlayTurn
      refine leaves_bind ?_ fun _ => ih
      refine leaves_ofExcept fun target _ => ?_
      split
      · exact .pure fun s hs => hs
      · refine leaves_bind (prereadRead_leaves _) fun bytes => ?_
        refine leaves_ofExcept fun again _ => ?_
        refine .when (keep_leaves _ _) ?_
        exact leaves_ite (warn_leaves _ _ _) (leaves_ofExcept fun narrated _ => emit_leaves _ _)

theorem overlayPass_leaves (willEmit : List Nat) (overlays : List (Nat × Nat)) :
    Leaves (Tallied uncounted chapters resources)
      (overlayPass (π := π) crates client limits archive book willEmit overlays)
      fun _ => Tallied uncounted chapters resources := by
  unfold overlayPass
  split
  · exact leaves_ofExcept fun lastUse _ => overlayLoop_leaves willEmit lastUse _
  · exact .pure fun s hs => hs

/-! ## The walk

The counters of the walk itself and those of the process go up together. -/

theorem emitResource_leaves (overlays : List (Nat × Nat)) (entry position : Nat) :
    Leaves (Tallied uncounted chapters resources)
      (emitResource (π := π) client limits archive book overlays entry position)
      fun _ => Tallied uncounted chapters (resources + 1) := by
  unfold emitResource
  refine leaves_ofExcept fun target _ => leaves_ofExcept fun href _ => ?_
  refine leaves_bind (prereadRead_leaves _) fun content => ?_
  refine leaves_bind (emit_leaves _ _) fun _ => leaves_modify fun s hs => ?_
  exact ⟨hs.bytes, hs.chapters, congrArg (· + 1) hs.resources⟩

/-- What the walk returns as the number of resources is what has been counted. -/
theorem drain_leaves (overlays : List (Nat × Nat)) (chapterEntry : Nat)
    (pending : List (Nat × Nat)) (emitted : Nat) :
    Leaves (Tallied uncounted chapters emitted)
      (drain (π := π) client limits archive book overlays chapterEntry pending emitted)
      fun r => Tallied uncounted chapters r.2 := by
  induction pending generalizing emitted with
  | nil => exact .pure fun s hs => hs
  | cons item rest ih =>
      obtain ⟨entry, position⟩ := item
      unfold drain
      refine leaves_ite ?_ (.pure fun s hs => hs)
      refine leaves_bind (emitResource_leaves overlays entry position) fun _ => ?_
      refine leaves_ofExcept fun emitted' hemitted => ?_
      obtain ⟨rfl, -⟩ := Book.add32_ok hemitted
      exact ih _

/-- One chapter more, on either side. -/
theorem emitChapter_leaves (overlays : List (Nat × Nat)) (spineIndex : Nat) (chapter : SpineEntry)
    (target : Resolved) (chapterEntry : Nat) :
    Leaves (Tallied uncounted chapters resources)
      (emitChapter (π := π) client limits archive book overlays spineIndex chapter target
        chapterEntry) fun _ => Tallied uncounted (chapters + 1) resources := by
  unfold emitChapter
  refine leaves_bind (prereadRead_leaves _) fun content => ?_
  refine leaves_ofExcept fun spineItem _ => leaves_ofExcept fun ofSource _ => ?_
  have hsent : ∀ path : Str, Leaves (π := π) (Tallied uncounted chapters resources)
      (do
        emit client (.chapter (Book.chapterEvent spineIndex chapter target spineItem content path))
          (some chapterEntry)
        modify fun call =>
          { call with metrics.chaptersEmitted := call.metrics.chaptersEmitted + 1 })
      fun _ => Tallied uncounted (chapters + 1) resources := fun path =>
    leaves_bind (emit_leaves _ _) fun _ => leaves_modify fun s hs =>
      ⟨hs.bytes, congrArg (· + 1) hs.chapters, hs.resources⟩
  -- the source's own overlay, else that of the spine item it stands in for
  split
  · exact leaves_ofExcept fun path _ => hsent path
  · exact hsent _

/-- The walk counts its chapters and the resources between them. -/
theorem walkSpine_leaves (overlays : List (Nat × Nat)) (spine : List (SpineEntry × Nat))
    (pending : List (Nat × Nat)) (emitted chapters : Nat) :
    Leaves (Tallied uncounted chapters emitted)
      (walkSpine (π := π) client limits archive book overlays spine pending emitted chapters)
      fun r => Tallied uncounted r.2.2 r.2.1 := by
  induction spine generalizing pending emitted chapters with
  | nil => exact .pure fun s hs => hs
  | cons visit rest ih =>
      obtain ⟨chapter, spineIndex⟩ := visit
      unfold walkSpine
      refine leaves_ofExcept fun target _ => leaves_ofExcept fun chapterEntry _ => ?_
      refine leaves_bind (drain_leaves overlays chapterEntry pending emitted) fun drained => ?_
      refine leaves_bind (emitChapter_leaves overlays spineIndex chapter target chapterEntry)
        fun _ => ?_
      refine leaves_ofExcept fun chapters' hchapters => ?_
      obtain ⟨rfl, -⟩ := Book.add32_ok hchapters
      exact ih _ _ _

/-- And the resources behind the last. -/
theorem drainRest_leaves (overlays : List (Nat × Nat)) (pending : List (Nat × Nat))
    (emitted : Nat) : Leaves (Tallied uncounted chapters emitted)
      (drainRest (π := π) client limits archive book overlays pending emitted)
      fun total => Tallied uncounted chapters total := by
  induction pending generalizing emitted with
  | nil => exact .pure fun s hs => hs
  | cons item rest ih =>
      obtain ⟨entry, position⟩ := item
      unfold drainRest
      refine leaves_bind (emitResource_leaves overlays entry position) fun _ => ?_
      refine leaves_ofExcept fun emitted' hemitted => ?_
      obtain ⟨rfl, -⟩ := Book.add32_ok hemitted
      exact ih _

theorem walk_leaves (overlays : List (Nat × Nat)) (spine : List SpineEntry)
    (pending : List (Nat × Nat)) : Leaves (Tallied uncounted 0 0)
      (walk (π := π) client limits archive book overlays spine pending)
      fun r => Tallied uncounted r.1 r.2 := by
  unfold walk
  refine leaves_bind (walkSpine_leaves overlays _ _ _ _) fun r => ?_
  obtain ⟨pending', emitted, chapters⟩ := r
  refine leaves_bind (drainRest_leaves overlays _ _) fun total => ?_
  refine leaves_bind (Q := fun _ => Tallied uncounted chapters total) ?_
    fun _ => .pure fun s hs => hs
  refine .get_bind fun s₀ hs₀ => ?_
  refine leaves_ite (.pure fun s hs => hs ▸ hs₀) (.throw fun _ _ => trivial)

/-! ## The whole parse

And the receipt reports the walk's. -/

/-- Of the second half, what is counted is what is charged. -/
theorem deliver_leaves (spine : List SpineEntry) : Leaves (Tallied uncounted 0 0)
    (deliver (π := π) crates client limits archive book spine)
    fun done => Tallied uncounted done.chapters done.emitted := by
  unfold deliver
  refine leaves_ofExcept fun source _ => leaves_ofExcept fun info _ => ?_
  refine leaves_bind (emit_leaves _ _) fun _ => leaves_ofExcept fun chapterEntries _ => ?_
  refine .get_bind fun s₀ hs₀ => leaves_ofExcept fun plan _ => ?_
  refine leaves_bind (leaves_set (Q := Tallied uncounted 0 0) ?_) fun _ => ?_
  · rintro s rfl
    exact hs₀.of_same rfl rfl
  refine leaves_bind (navigationPass_leaves _ _) fun _ => leaves_ofExcept fun overlays _ => ?_
  refine leaves_bind (overlayPass_leaves _ _) fun _ => ?_
  refine leaves_bind (walk_leaves overlays spine _) fun r => ?_
  obtain ⟨chapters, emitted⟩ := r
  exact .pure fun s hs => hs

theorem findContainer_leaves (index : HashMap Str Nat) (declared : Option Str) :
    Leaves (Tallied uncounted chapters resources) (findContainer (π := π) index declared)
      fun _ => Tallied uncounted chapters resources := by
  unfold findContainer
  dsimp only
  split
  · exact .throw fun _ _ => trivial
  · exact .when (warn_leaves _ _ _) (.pure fun s hs => hs)

/-- Of the first half, only the marker is charged without being counted. -/
theorem readBook_leaves (scan : Scan) : Leaves (Tallied 0 0 0)
    (readBook (π := π) crates limits archive scan)
    fun _ => Tallied (namedLength archive scan.entries (Extract.indexOf scan.entries)
      mimetypePath) 0 0 := by
  unfold readBook
  dsimp only
  refine leaves_bind (leaves_modify (Q := Tallied 0 0 0) fun s hs => hs.of_same rfl rfl)
    fun _ => ?_
  refine leaves_bind (Q := fun _ => Tallied 0 0 0) ?_ fun obfuscated => ?_
  · unfold encryptionPolicy
    split
    · exact .pure fun s hs => hs
    · refine leaves_ofExcept fun entry _ => leaves_bind (readAt_leaves _) fun descriptor => ?_
      rw [← bind_pure (orFail _)]
      exact leaves_orFail fun obfuscated _ => .pure fun s hs => hs
  refine leaves_bind (readNamed_leaves _ _) fun declared => ?_
  refine leaves_bind (findContainer_leaves _ _) fun containerPosition => ?_
  refine leaves_ofExcept fun containerEntry _ => leaves_bind (readAt_leaves _) fun container => ?_
  refine leaves_orFail fun root _ => ?_
  obtain ⟨opfPath, opfPosition⟩ := root
  refine leaves_ofExcept fun opfEntry _ => leaves_bind (readAt_leaves _) fun opfBytes => ?_
  exact leaves_orFail fun package _ => .pure fun s hs => hs

/-- A receipt has gone out, and the counters are this many bytes short of it. -/
def Receipted (uncounted : Nat) (call : Call π) : Prop :=
  ∃ status, .status status ∈ call.sent.map Delivery.event ∧
    call.metrics.bytesInflated + uncounted = status.uncompressedBytes ∧
    call.metrics.chaptersEmitted = status.chaptersEmitted ∧
    call.metrics.resourcesEmitted = status.resourcesEmitted

/-- The trailer reports what has been charged, and counts nothing more. -/
theorem trailer_leaves (done : Done) :
    Leaves (Tallied uncounted done.chapters done.emitted) (trailer (π := π) client done)
      fun _ => Receipted uncounted := by
  intro s hs
  have hfixed : Leaves (π := π) (fun s' => s'.metrics = s.metrics) (trailer client done)
      fun _ s' => s'.metrics = s.metrics :=
    .get_bind fun s₀ hs₀ => (emit_keeps (fun _ _ _ h => h) _ _).weaken
      (fun _ hs => hs ▸ hs₀) (fun _ _ hq => hq) fun _ _ he => he
  rcases hexec : (trailer client done).exec s with ⟨e | ⟨⟩, s'⟩
  · exact ⟨⟨[], List.nil_prefix, rfl⟩, trivial⟩
  · have hsends := @trailer_sends π client done s (by rw [hexec])
    rw [hexec] at hsends
    have hmetrics := (hfixed.of_ok rfl hexec).2
    refine ⟨rfl, report s done, hsends, ?_, ?_, ?_⟩
    · rw [hmetrics]
      exact hs.bytes
    · rw [hmetrics]
      exact hs.chapters
    · rw [hmetrics]
      exact hs.resources

/-- The counters of a parse that returns are short of its receipt by the marker. -/
theorem parse_leaves (bytes : Bytes) : Leaves (Tallied 0 0 0)
    (parse (π := π) crates client limits bytes)
    fun _ s => ∃ archive scan, Archive.openArchive crates.zipNew bytes limits = .ok archive ∧
      Archive.scan archive = .ok scan ∧
      Receipted (namedLength archive scan.entries (Extract.indexOf scan.entries) mimetypePath)
        s := by
  unfold parse
  refine leaves_bind (leaves_modify (Q := Tallied 0 0 0) fun s hs => hs.of_same rfl rfl)
    fun _ => ?_
  refine leaves_orFail fun archive harchive => leaves_orFail fun scan hscan => ?_
  refine leaves_bind (readBook_leaves scan) fun book => leaves_ofExcept fun spine _ => ?_
  refine leaves_bind (deliver_leaves spine) fun done => ?_
  exact (trailer_leaves done).post fun _ s hs => ⟨archive, scan, harchive, hscan, hs⟩

end Parse

/-! ## Both reports

For a call that completes: the receipt it has sent, and the counters it has left. -/

/-- What the call added to the process counters is what its receipt says. -/
structure CountersAgree {π : Projection} (call : Call π) (status : ParseStatus) : Prop where
  bytes : call.metrics.bytesInflated = status.uncompressedBytes
  chapters : call.metrics.chaptersEmitted = status.chaptersEmitted
  resources : call.metrics.resourcesEmitted = status.resourcesEmitted

section Agree

variable {π : Projection} {crates : Crates} {limits : Effective} {bytes : Bytes}
  {archive : MemoryArchive} {book : Book} {spine : List SpineEntry} {client : Nat → Bool}
  {status : ParseStatus}

/-- What the marker inflates to. -/
def Book.markerLength (book : Book) (archive : MemoryArchive) : Nat :=
  Parse.namedLength archive book.entries book.index mimetypePath

/-- The marker counts for nothing when there is none, or nothing in it. -/
theorem Book.markerLength_eq_zero_iff : book.markerLength archive = 0 ↔
    ∀ position, book.index.get mimetypePath = some position →
      book.content archive position = [] := by
  unfold markerLength Parse.namedLength
  cases book.index.get mimetypePath with
  | none =>
      refine iff_of_true rfl fun position hposition => ?_
      cases hposition
  | some position =>
      refine List.length_eq_zero_iff.trans
        ⟨fun h position' hposition => ?_, fun h => h position rfl⟩
      obtain rfl := Option.some.inj hposition
      exact h

/-- The counters of a call that completes are short of its receipt by the marker. -/
theorem receipted_of_complete (hprepared : Prepared crates limits bytes archive book spine)
    (hcomplete : (run π crates limits bytes client).1 = .complete) :
    Parse.Receipted (book.markerLength archive) (run π crates limits bytes client).2 := by
  have hleaves := @Parse.parse_leaves π crates client limits bytes
  rcases hexec : (Parse.parse crates client limits bytes).exec (.start π limits) with ⟨r, call⟩
  have hout : run π crates limits bytes client = (.of r, call) := by simp [run, hexec]
  rw [hout] at hcomplete ⊢
  cases r with
  | error e => exact absurd hcomplete (Outcome.of_ne_complete e)
  | ok _ =>
      obtain ⟨-, archive', scan, harchive, hscan, hreceipted⟩ :=
        hleaves.of_ok (Parse.tallied_start limits) hexec
      obtain rfl := Except.ok.inj (harchive.symm.trans hprepared.opened)
      obtain ⟨scan', hscan', hentries⟩ := hprepared.scanned
      obtain rfl := Except.ok.inj (hscan.symm.trans hscan')
      rw [hentries] at hreceipted
      exact hreceipted

end Agree

/-- They agree exactly when reading the `mimetype` marker costs nothing. -/
theorem counters_agree_iff (π : Projection) (crates : Crates) (limits : Effective) (bytes : Bytes)
    (archive : MemoryArchive) (book : Book) (spine : List SpineEntry)
    (hprepared : Prepared crates limits bytes archive book spine) (client : Nat → Bool)
    (hcomplete : (run π crates limits bytes client).1 = .complete) (status : ParseStatus)
    (hstatus : .status status ∈ (run π crates limits bytes client).2.sent.map Delivery.event) :
    CountersAgree (run π crates limits bytes client).2 status ↔
      ∀ position, book.index.get mimetypePath = some position →
        book.content archive position = [] := by
  obtain ⟨last, hlast, hbytes, hchapters, hresources⟩ :=
    @receipted_of_complete _ _ _ _ _ _ _ client hprepared hcomplete
  obtain ⟨_, _, _, _, hdelivered⟩ := run_delivered hcomplete
  obtain rfl : last = status :=
    (hdelivered.complete_of_status hlast).2.trans (hdelivered.complete_of_status hstatus).2.symm
  rw [← Book.markerLength_eq_zero_iff]
  constructor
  · intro h
    have := h.bytes
    omega
  · intro hzero
    rw [hzero] at hbytes
    exact ⟨hbytes, hchapters, hresources⟩

/-! ## A book with and without a marker

One book whose `mimetype` is there, and one whose is not. -/

namespace Sample

/-- A chapter, behind a marker or not. -/
def marked (marker : List File) : List File :=
  marker ++ [file "META-INF/container.xml" [1], file "p.opf" [2], file "c.xhtml" [10]]

def markedCrates (marker : List File) : Crates where
  zipNew := fun _ => .ok (archive (marked marker))
  strict := reader [([1], container "p.opf"), ([2], opf [chapterItem "c" "c.xhtml"] ["c".toList])]
  lenient := reader []
  parseFloat := fun _ => none

/-- The whole call. -/
def markedRun (marker : List File) : Outcome × Call counting :=
  run counting (markedCrates marker) defaults (upload (marked marker)) patient

/-- The receipt, if this is it. -/
def receiptOf {δ : Type} : Event δ → Option ParseStatus
  | .status status => some status
  | _ => none

/-- What the receipts say was inflated, beside what was counted. -/
def inflations (marker : List File) : List (Nat × Nat) :=
  ((markedRun marker).2.sent.filterMap fun delivery => receiptOf delivery.event).map fun status =>
    (status.uncompressedBytes, (markedRun marker).2.metrics.bytesInflated)

theorem inflations_mem {marker : List File} {charged counted : Nat}
    (h : inflations marker = [(charged, counted)]) :
    ∃ status, .status status ∈ (markedRun marker).2.sent.map Delivery.event ∧
      status.uncompressedBytes = charged ∧
      (markedRun marker).2.metrics.bytesInflated = counted := by
  obtain ⟨status, hstatus, hpair⟩ := List.map_eq_singleton_iff.mp h
  obtain ⟨hcharged, hcounted⟩ := Prod.mk.inj hpair
  obtain ⟨delivery, hdelivery, hsome⟩ := List.mem_filterMap.mp
    (show status ∈ (markedRun marker).2.sent.filterMap fun delivery => receiptOf delivery.event from
      hstatus ▸ List.mem_singleton_self status)
  obtain ⟨event, entry⟩ := delivery
  cases event <;> cases hsome
  exact ⟨status, List.mem_map_of_mem hdelivery, hcharged, hcounted⟩

end Sample

/-- Without a marker the counters are right. -/
theorem unmarked_counters_agree : ∃ status,
    .status status ∈ (Sample.markedRun []).2.sent.map Delivery.event ∧
      CountersAgree (Sample.markedRun []).2 status := by
  have hcomplete : (Sample.markedRun []).1 = .complete := by decide +kernel
  have hinflations : Sample.inflations [] = [(3, 3)] := by decide +kernel
  have hnone : (bookIn (Sample.markedCrates []) Sample.defaults
      (Sample.upload (Sample.marked []))).map (fun found => found.2.1.index.get mimetypePath) =
        some none := by
    decide +kernel
  obtain ⟨archive, book, spine, hprepared⟩ := run_prepared hcomplete
  rw [hprepared.bookIn_eq] at hnone
  obtain ⟨status, hstatus, -⟩ := Sample.inflations_mem hinflations
  unfold Sample.markedRun at hcomplete hstatus ⊢
  have hagree := counters_agree_iff Sample.counting (Sample.markedCrates []) Sample.defaults
    (Sample.upload (Sample.marked [])) archive book spine hprepared Sample.patient hcomplete status
    hstatus
  refine ⟨status, hstatus, hagree.mpr fun position hposition => ?_⟩
  have hfound : book.index.get mimetypePath = none := Option.some.inj hnone
  rw [hfound] at hposition
  cases hposition

/-- The marker every EPUB has. -/
def Sample.marker : List Sample.File := [Sample.file "mimetype" (Sample.ascii epubMimetype)]

/-- The twenty bytes that say that it is an EPUB are charged, and not counted. -/
theorem marker_uncounted : (Sample.markedRun Sample.marker).1 = .complete ∧
    ∃ status, .status status ∈ (Sample.markedRun Sample.marker).2.sent.map Delivery.event ∧
      status.uncompressedBytes = 23 ∧
      ¬ CountersAgree (Sample.markedRun Sample.marker).2 status := by
  have hcomplete : (Sample.markedRun Sample.marker).1 = .complete := by decide +kernel
  have hinflations : Sample.inflations Sample.marker = [(23, 3)] := by decide +kernel
  obtain ⟨status, hstatus, hcharged, hcounted⟩ := Sample.inflations_mem hinflations
  refine ⟨hcomplete, status, hstatus, hcharged, fun hagree => ?_⟩
  have hbytes := hagree.bytes
  omega

end GrpcEpub
