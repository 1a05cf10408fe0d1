/-
# `GrpcEpub.Clients` — a call against any client

The driver hears of its client through `Sink::send` only, so a call against a
client that leaves is the call against one that stays, cut off in front of the
first event refused.  `run_cut` is that statement; what is proved of a staying
client's call carries over to every other by it.

`Against` relates a step run with a client to the same step run with `staying`: they do the same
until an event is refused, and then the former has stopped with `gone`.  Most of the driver sends
nothing and is `Quiet`, for which this is immediate; what is left is the sink and the loops that
use it.
-/
import GrpcEpub.Ledger
import GrpcEpub.Plan
import GrpcEpub.Lib.Cut

namespace GrpcEpub

/-- A client that takes every event. -/
def staying : Nat → Bool := fun _ => true

namespace Parse

variable {π : Projection} {α : Type}

/-- Says nothing to the client, and never ends as if the client had left. -/
abbrev Quiet (x : Step π α) : Prop := Eff.Silent Call.sent .gone x

/-- `x` is what `y` becomes against this client. -/
abbrev Against (client : Nat → Bool) (x y : Step π α) : Prop := Eff.Cut Call.sent .gone client x y

/-! ## Steps that say nothing

A step that sends nothing and does not fail with `gone` runs alike with every client. -/

theorem quiet_orFail (r : Except Status α) : Quiet (orFail (π := π) r) := by
  cases r with
  | ok a => exact .pure a
  | error status => exact .throw nofun

theorem quiet_ofExcept {r : Except Abort α} (h : OnlyPanics r) :
    Quiet (Eff.ofExcept r : Step π α) :=
  .ofExcept h.ne_gone

theorem quiet_warn (code : ParseWarningCode) (href : Str) (message : WarningText) :
    Quiet (warn (π := π) code href message) :=
  .modify fun _ => rfl

theorem quiet_keep (entry : Nat) (bytes : Bytes) : Quiet (keep (π := π) entry bytes) :=
  .modify fun _ => rfl

variable {crates : Crates} {limits : Effective} {archive : MemoryArchive} {book : Book}

theorem quiet_readEntry (entry : EntryInfo) : Quiet (readEntry (π := π) limits archive entry) := by
  intro call
  unfold readEntry
  rw [Eff.exec_bind_ok (Eff.exec_get call)]
  rcases Archive.readEntry_cases archive entry limits call.budget with
    ⟨-, h⟩ | ⟨status, h⟩ | ⟨-, -, h⟩ | ⟨-, -, h⟩
  all_goals rw [h]; exact ⟨rfl, nofun⟩

theorem quiet_readAt (entry : EntryInfo) : Quiet (readAt (π := π) limits archive entry) :=
  (quiet_readEntry entry).bind fun bytes => .bind (.modify fun _ => rfl) fun _ => .pure bytes

theorem quiet_readNamed (entries : List EntryInfo) (index : HashMap Str Nat) (name : Str) :
    Quiet (readNamed (π := π) limits archive entries index name) := by
  unfold readNamed
  split
  · exact .pure none
  · exact (quiet_ofExcept (.nth _ _)).bind fun entry =>
      (quiet_readEntry entry).bind fun bytes => .pure (some bytes)

theorem quiet_prereadRead (entries : List EntryInfo) (entry : Nat) :
    Quiet (prereadRead (π := π) limits archive entries entry) := by
  refine .bind (fun _ => ⟨rfl, nofun⟩) fun kept => ?_
  cases kept with
  | some bytes => exact .pure bytes
  | none => exact (quiet_ofExcept (.nth _ _)).bind fun entry => quiet_readAt entry

theorem quiet_assertPrereadEmpty : Quiet (assertPrereadEmpty (π := π)) := by
  intro call
  unfold assertPrereadEmpty
  rw [Eff.exec_bind_ok (Eff.exec_get call)]
  split <;> exact ⟨rfl, nofun⟩

theorem quiet_encryptionPolicy (entries : List EntryInfo) (index : HashMap Str Nat) :
    Quiet (encryptionPolicy (π := π) crates limits archive entries index) := by
  unfold encryptionPolicy
  split
  · exact .pure []
  · exact (quiet_ofExcept (.nth _ _)).bind fun entry =>
      (quiet_readAt entry).bind fun _ => quiet_orFail _

theorem quiet_findContainer (index : HashMap Str Nat) (declared : Option Str) :
    Quiet (findContainer (π := π) index declared) := by
  unfold findContainer
  dsimp only
  split
  · exact .throw nofun
  · split
    · exact (quiet_warn _ _ _).bind fun _ => .pure _
    · exact .pure _

/-- The first half says nothing. -/
theorem quiet_readBook (scan : Scan) : Quiet (readBook (π := π) crates limits archive scan) := by
  refine .bind (.modify fun _ => rfl) fun _ => ?_
  refine (quiet_encryptionPolicy _ _).bind ?_
  intro _
  refine (quiet_readNamed _ _ _).bind ?_
  intro _
  refine (quiet_findContainer _ _).bind ?_
  intro _
  refine (quiet_ofExcept (.nth _ _)).bind ?_
  intro _
  refine (quiet_readAt _).bind ?_
  intro _
  refine (quiet_orFail _).bind ?_
  intro _
  refine (quiet_ofExcept (.nth _ _)).bind ?_
  intro _
  refine (quiet_readAt _).bind ?_
  intro _
  exact (quiet_orFail _).bind fun _ => .pure _

/-- Resolving the spine fails or panics; it has no client to lose. -/
theorem resolveItemref_ne_gone (itemref : SpineItem) :
    book.resolveItemref itemref ≠ .error .gone := by
  unfold Book.resolveItemref
  split
  · nofun
  · refine bind_ne_gone (Book.chapterSource_panics _).ne_gone ?_
    intro found
    cases found with
    | none => exact bind_ne_gone (OnlyPanics.nth _ _).ne_gone fun _ => nofun
    | some source =>
        refine bind_ne_gone (OnlyPanics.nth _ _).ne_gone ?_
        intro target
        refine bind_ne_gone (OnlyPanics.expect _).ne_gone ?_
        intro entry
        split <;> nofun

theorem resolveSpine_ne_gone : ∀ itemrefs : List SpineItem,
    book.resolveSpine itemrefs ≠ .error .gone
  | [] => nofun
  | itemref :: rest => bind_ne_gone (resolveItemref_ne_gone itemref) fun _ =>
      bind_ne_gone (resolveSpine_ne_gone rest) fun _ => nofun

theorem quiet_resolveSpine (itemrefs : List SpineItem) :
    Quiet (Eff.ofExcept (book.resolveSpine itemrefs) : Step π _) :=
  .ofExcept (resolveSpine_ne_gone itemrefs)

/-! ## The sink

The one place where the client is asked. -/

variable {client : Nat → Bool}

/-- Where the client refuses, the step ends with `gone`; up to there it is the same. -/
theorem send_against (event : Event π.Document) (entry : Option Nat) :
    Against client (send client event entry) (send staying event entry) := by
  intro call
  have hstay : Eff.exec (send staying event entry) call =
      (.ok ⟨⟩, { call with sent := call.sent ++ [⟨event, entry⟩] }) := rfl
  have hclient : Eff.exec (send client event entry) call =
      if client call.sent.length then
        (.ok ⟨⟩, { call with sent := call.sent ++ [⟨event, entry⟩] })
      else (.error .gone, call) := by
    unfold send
    rw [Eff.exec_bind_ok (Eff.exec_get call)]
    split <;> rfl
  refine ⟨?_, ?_, fun hall => ?_, fun k hk => ?_⟩
  · rw [hstay]
    exact List.prefix_append _ _
  · rw [hstay]
    nofun
  · rw [hstay] at hall ⊢
    rw [hclient, if_pos (hall _ le_rfl (by simp))]
  · rw [hstay] at hk ⊢
    have hlt := hk.lt
    simp only [List.length_append, List.length_singleton] at hlt
    obtain rfl : k = call.sent.length := Nat.le_antisymm (Nat.lt_succ_iff.mp hlt) hk.ge
    rw [hclient, hk.refused]
    exact ⟨rfl, (List.take_left).symm⟩

/-- The fold takes the event in whether or not the client will. -/
theorem emit_against (event : Event π.Document) (entry : Option Nat) :
    Against client (emit client event entry) (emit staying event entry) := by
  intro call
  unfold emit
  refine .get_bind ?_
  cases call.fold with
  | none => exact send_against event entry call
  | some fold =>
      dsimp only
      split
      · refine .bind (.set rfl) ?_
        intro _ s _
        exact (send_against _ none).bind (fun _ => send_against _ entry) s
      · exact .bind (.set rfl) fun _ s _ => send_against _ entry s

/-! ## The passes

The rule for `bind` goes through each pass; the induction in a loop is over the list that it
walks, as the loop is. -/

/-- The navigation document is read and sent, or not read. -/
theorem navigationPass_against (willEmit : List Nat) (source : Option Book.NavigationSource) :
    Against (π := π) client (navigationPass crates client limits archive book willEmit source)
      (navigationPass crates staying limits archive book willEmit source) := by
  unfold navigationPass
  split
  · refine (quiet_ofExcept (.nth _ _)).cut.bind ?_
    intro _
    refine (quiet_prereadRead _ _).cut.bind ?_
    intro _
    have hlast : ∀ parsed : Navigation, ∀ path : Str, Against (π := π) client
        (if parsed.toc.isEmpty then warn .metadata path .noEntries
          else emit client (.navigation parsed) none)
        (if parsed.toc.isEmpty then warn .metadata path .noEntries
          else emit staying (.navigation parsed) none) := fun parsed path =>
      .ite (quiet_warn _ _ _).cut (emit_against _ _)
    exact .ite ((quiet_keep _ _).cut.bind fun _ => hlast _ _) (hlast _ _)
  · exact (Eff.Silent.pure _).cut

theorem quiet_keepOverlay (willEmit : List Nat) (lastUse : HashMap Nat Nat) (entry round : Nat) :
    Quiet (Eff.ofExcept (keepOverlay willEmit lastUse entry round) : Step π Bool) := by
  refine quiet_ofExcept ?_
  unfold keepOverlay
  split
  · exact .ok _
  · split
    · exact .ok _
    · exact .panic _

/-- One turn: the overlay is read, kept, and sent if it has cues. -/
theorem overlayTurn_against (willEmit : List Nat) (lastUse : HashMap Nat Nat)
    (position overlay round : Nat) :
    Against (π := π) client
      (overlayTurn crates client limits archive book willEmit lastUse position overlay round)
      (overlayTurn crates staying limits archive book willEmit lastUse position overlay round) := by
  refine (quiet_ofExcept (.nth _ _)).cut.bind ?_
  intro target
  cases target.entry with
  | none => exact (Eff.Silent.pure _).cut
  | some entry =>
      refine (quiet_prereadRead _ _).cut.bind ?_
      intro _
      refine (quiet_keepOverlay _ _ _ _).cut.bind ?_
      intro _
      have hlast : ∀ parsed : Overlay, Against (π := π) client
          (if parsed.cues.isEmpty then warn .metadata target.path .noCues
            else do
              let narrated ← Eff.ofExcept (nth book.resolved position)
              emit client (.mediaOverlay ⟨parsed.sourceHref, narrated.path, parsed.cues⟩) none)
          (if parsed.cues.isEmpty then warn .metadata target.path .noCues
            else do
              let narrated ← Eff.ofExcept (nth book.resolved position)
              emit staying (.mediaOverlay ⟨parsed.sourceHref, narrated.path, parsed.cues⟩)
                none) := fun parsed =>
        .ite (quiet_warn _ _ _).cut
          ((quiet_ofExcept (.nth _ _)).cut.bind fun _ => emit_against _ _)
      exact .ite ((quiet_keep _ _).cut.bind fun _ => hlast _) (hlast _)

theorem overlayLoop_against (willEmit : List Nat) (lastUse : HashMap Nat Nat) :
    ∀ pairs : List ((Nat × Nat) × Nat), Against (π := π) client
      (overlayLoop crates client limits archive book willEmit lastUse pairs)
      (overlayLoop crates staying limits archive book willEmit lastUse pairs)
  | [] => (Eff.Silent.pure _).cut
  | ((position, overlay), round) :: rest =>
      (overlayTurn_against willEmit lastUse position overlay round).bind fun _ =>
        overlayLoop_against willEmit lastUse rest

theorem overlayPass_against (willEmit : List Nat) (overlays : List (Nat × Nat)) :
    Against (π := π) client (overlayPass crates client limits archive book willEmit overlays)
      (overlayPass crates staying limits archive book willEmit overlays) :=
  .ite ((quiet_ofExcept (Book.lastUseFrom_panics _ _)).cut.bind fun _ =>
    overlayLoop_against _ _ _) (Eff.Silent.pure _).cut

variable {overlays : List (Nat × Nat)}

theorem emitResource_against (entry position : Nat) :
    Against (π := π) client (emitResource client limits archive book overlays entry position)
      (emitResource staying limits archive book overlays entry position) := by
  refine (quiet_ofExcept (.nth _ _)).cut.bind ?_
  intro _
  refine (quiet_ofExcept (Book.overlayHref_panics _ _)).cut.bind ?_
  intro _
  refine (quiet_prereadRead _ _).cut.bind ?_
  intro _
  exact (emit_against _ _).bind fun _ => .modify fun _ => rfl

theorem drain_against (chapterEntry : Nat) : ∀ (pending : List (Nat × Nat)) (emitted : Nat),
    Against (π := π) client
      (drain client limits archive book overlays chapterEntry pending emitted)
      (drain staying limits archive book overlays chapterEntry pending emitted)
  | [], _ => (Eff.Silent.pure _).cut
  | (entry, position) :: rest, _ =>
      .ite ((emitResource_against entry position).bind fun _ =>
        (quiet_ofExcept (.add32 _ _)).cut.bind fun emitted =>
          drain_against chapterEntry rest emitted) (Eff.Silent.pure _).cut

/-- A chapter is read and sent. -/
theorem emitChapter_against (spineIndex : Nat) (chapter : SpineEntry) (target : Resolved)
    (chapterEntry : Nat) :
    Against (π := π) client
      (emitChapter client limits archive book overlays spineIndex chapter target chapterEntry)
      (emitChapter staying limits archive book overlays spineIndex chapter target
        chapterEntry) := by
  refine (quiet_prereadRead _ _).cut.bind ?_
  intro _
  refine (quiet_ofExcept (.nth _ _)).cut.bind ?_
  intro _
  refine (quiet_ofExcept (Book.overlayHref_panics _ _)).cut.bind ?_
  intro _
  refine .ite ?_ ?_
  · exact (quiet_ofExcept (Book.overlayHref_panics _ _)).cut.bind fun _ =>
      (emit_against _ _).bind fun _ => .modify fun _ => rfl
  · exact (emit_against _ _).bind fun _ => .modify fun _ => rfl

/-- By recursion on the spine. -/
theorem walkSpine_against : ∀ (spine : List (SpineEntry × Nat)) (pending : List (Nat × Nat))
    (emitted chapters : Nat),
    Against (π := π) client
      (walkSpine client limits archive book overlays spine pending emitted chapters)
      (walkSpine staying limits archive book overlays spine pending emitted chapters)
  | [], _, _, _ => (Eff.Silent.pure _).cut
  | (chapter, spineIndex) :: rest, pending, emitted, _ =>
      (quiet_ofExcept (.nth _ _)).cut.bind fun target =>
        (quiet_ofExcept (.expect _)).cut.bind fun chapterEntry =>
          (drain_against chapterEntry pending emitted).bind fun (_, _) =>
            (emitChapter_against spineIndex chapter target chapterEntry).bind fun _ =>
              (quiet_ofExcept (.add32 _ _)).cut.bind fun chapters =>
                walkSpine_against rest _ _ chapters

theorem drainRest_against : ∀ (pending : List (Nat × Nat)) (emitted : Nat),
    Against (π := π) client (drainRest client limits archive book overlays pending emitted)
      (drainRest staying limits archive book overlays pending emitted)
  | [], _ => (Eff.Silent.pure _).cut
  | (entry, position) :: rest, _ =>
      (emitResource_against entry position).bind fun _ =>
        (quiet_ofExcept (.add32 _ _)).cut.bind fun emitted => drainRest_against rest emitted

theorem walk_against (spine : List SpineEntry) (pending : List (Nat × Nat)) :
    Against (π := π) client (walk client limits archive book overlays spine pending)
      (walk staying limits archive book overlays spine pending) :=
  (walkSpine_against _ _ _ _).bind fun (_, _, _) =>
    (drainRest_against _ _).bind fun _ =>
      quiet_assertPrereadEmpty.cut.bind fun _ => (Eff.Silent.pure _).cut

/-! ## The whole parse

Put together, and read as a statement about what a client has received. -/

/-- The second half: the passes in their order. -/
theorem deliver_against (spine : List SpineEntry) :
    Against (π := π) client (deliver crates client limits archive book spine)
      (deliver crates staying limits archive book spine) := by
  refine (quiet_ofExcept Book.navigationSource_panics).cut.bind ?_
  intro source
  refine (quiet_ofExcept (Book.info_panics _ _)).cut.bind ?_
  intro info
  refine (emit_against _ _).bind ?_
  intro _
  refine (quiet_ofExcept (Book.chapterEntries_panics _)).cut.bind ?_
  intro chapterEntries call
  refine .get_bind ?_
  refine .bind ((quiet_ofExcept (Book.plan_panics _ _ _ _ _)).cut call) ?_
  intro plan s hplan
  obtain rfl : call = s := by
    rw [Eff.exec_ofExcept] at hplan
    exact (Prod.mk.inj hplan).2
  refine .bind (.set rfl) ?_
  intro _ s _
  refine Eff.Cut.bind (navigationPass_against _ _) (fun _ => ?_) s
  refine (quiet_ofExcept (fun _ => Book.overlayLinksFrom_panics _ _)).cut.bind fun overlays => ?_
  refine (overlayPass_against _ _).bind ?_
  intro _
  exact (walk_against _ _).bind fun (_, _) => (Eff.Silent.pure _).cut

theorem trailer_against (done : Done) :
    Against (π := π) client (trailer client done) (trailer staying done) := by
  intro call
  exact .get_bind (emit_against _ _ call)

/-- The whole of a parse. -/
theorem parse_against (π : Projection) (crates : Crates) (limits : Effective)
    (client : Nat → Bool) (bytes : Bytes) :
    Against (π := π) client (parse crates client limits bytes)
      (parse crates staying limits bytes) := by
  refine .bind (.modify fun _ => rfl) fun _ => ?_
  refine (quiet_orFail _).cut.bind ?_
  intro archive
  refine (quiet_orFail _).cut.bind ?_
  intro scan
  refine (quiet_readBook _).cut.bind ?_
  intro book
  refine (quiet_resolveSpine _).cut.bind ?_
  intro spine
  exact (deliver_against spine).bind fun done => trailer_against done

end Parse

/-- A call against any client is the call against one that stays, cut off in
front of the first event refused. -/
theorem run_cut (π : Projection) (crates : Crates) (limits : Effective) (bytes : Bytes)
    (client : Nat → Bool) :
    (run π crates limits bytes staying).1 ≠ .abandoned ∧
    (Eff.Accepted client 0 (run π crates limits bytes staying).2.sent.length →
      run π crates limits bytes client = run π crates limits bytes staying) ∧
    ∀ k, Eff.FirstRefused client 0 (run π crates limits bytes staying).2.sent.length k →
      (run π crates limits bytes client).1 = .abandoned ∧
        (run π crates limits bytes client).2.sent =
          (run π crates limits bytes staying).2.sent.take k := by
  obtain ⟨-, hstays, hwhole, hcut⟩ :=
    Parse.parse_against π crates limits client bytes (.start π limits)
  refine ⟨fun h => hstays ?_, fun hall => ?_, fun k hk => ?_⟩
  · revert h
    unfold run
    generalize Eff.exec _ _ = ended
    obtain ⟨result, call⟩ := ended
    cases result with
    | ok a => simp [Outcome.of]
    | error e => cases e <;> simp [Outcome.of]
  · unfold run
    rw [hwhole hall]
  · obtain ⟨hgone, hsent⟩ := hcut k hk
    unfold run
    exact ⟨by simp only [hgone, Outcome.of], hsent⟩

end GrpcEpub
