/-
# `GrpcEpub.Lib.Trail` — following links until they end, repeat, or have gone far enough

A partial function on some type is followed from a start, link by link.  The walk ends where
there is no next link, where the next one was already visited, or after so many stops.  It is
the only list of stops of which this is true (`Trail.unique`): two walks along one partial
function from one start are prefixes of one another.
-/
import Mathlib.Tactic

namespace GrpcEpub

section Trail

variable {α : Type} (next : α → Option α)

/-- The stops of a walk, from the last one reached on. -/
def trail [DecidableEq α] (last : α) (walked : List α) : Nat → List α
  | 0 => walked
  | room + 1 =>
      match next last with
      | none => walked
      | some stop => if stop ∈ walked then walked else trail stop (walked ++ [stop]) room

/-- The stops of a walk of at most `limit` of them. -/
structure Trail (limit : Nat) (start : α) (stops : List α) : Prop where
  starts : stops.head? = some start
  linked : stops.IsChain fun a b => next a = some b
  nodup : stops.Nodup
  bounded : stops.length ≤ limit
  ends : stops.length = limit ∨ ∀ last ∈ stops.getLast?, ∀ stop ∈ next last, stop ∈ stops

variable {next}

/-- A walk so far, with as many stops to go. -/
theorem trail_spec [DecidableEq α] {limit : Nat} {start : α} : ∀ {room : Nat} {last : α} {front : List α},
    (front ++ [last]).head? = some start → (front ++ [last]).IsChain (fun a b => next a = some b) →
      (front ++ [last]).Nodup → (front ++ [last]).length + room = limit →
        Trail next limit start (trail next last (front ++ [last]) room) := by
  intro room
  induction room with
  | zero => exact fun hstart hlinked hnodup hroom =>
      ⟨hstart, hlinked, hnodup, by rw [trail]; omega, .inl (by rw [trail]; omega)⟩
  | succ room ih =>
      intro last front hstart hlinked hnodup hroom
      rw [trail]
      cases hnext : next last with
      | none =>
          refine ⟨hstart, hlinked, hnodup, by dsimp only; omega, .inr fun final hfinal stop hstop => ?_⟩
          obtain rfl : last = final := Option.some.inj (List.getLast?_concat.symm.trans hfinal)
          rw [hnext] at hstop
          cases hstop
      | some stop =>
          dsimp only
          split
          · rename_i hvisited
            refine ⟨hstart, hlinked, hnodup, by omega, .inr fun final hfinal stop' hstop => ?_⟩
            obtain rfl : last = final := Option.some.inj (List.getLast?_concat.symm.trans hfinal)
            rw [hnext] at hstop
            exact Option.some.inj hstop ▸ hvisited
          · rename_i hfresh
            refine ih ?_ ?_ ?_ ?_
            · rw [List.head?_append, hstart]
              rfl
            · rw [List.append_assoc]
              exact List.isChain_append_cons_cons.mpr ⟨hlinked, hnext, .singleton stop⟩
            · exact List.nodup_append.mpr ⟨hnodup, List.nodup_singleton stop, fun a ha b hb heq =>
                hfresh (List.mem_singleton.mp hb ▸ heq ▸ ha)⟩
            · rw [List.length_append, List.length_singleton]
              omega

theorem trail_isTrail [DecidableEq α] (next : α → Option α) (room : Nat) (start : α) :
    Trail next (room + 1) start (trail next start [start] room) := by
  have hroom : [start].length + room = room + 1 := Nat.add_comm ..
  exact @trail_spec α next _ _ start room start [] rfl (.singleton start)
    (List.nodup_singleton start) hroom

/-- Of two walks from one start, one goes on where the other ends. -/
theorem chain_prefix_or {stops stops' : List α} (h : stops.IsChain fun a b => next a = some b)
    (h' : stops'.IsChain fun a b => next a = some b) (hstart : stops.head? = stops'.head?) :
    stops <+: stops' ∨ stops' <+: stops := by
  induction stops generalizing stops' with
  | nil => exact .inl List.nil_prefix
  | cons a rest ih =>
      cases stops' with
      | nil => exact .inr List.nil_prefix
      | cons b rest' =>
          obtain rfl : a = b := Option.some.inj hstart
          cases rest with
          | nil => exact .inl (List.cons_prefix_cons.mpr ⟨rfl, List.nil_prefix⟩)
          | cons c rest =>
              cases rest' with
              | nil => exact .inr (List.cons_prefix_cons.mpr ⟨rfl, List.nil_prefix⟩)
              | cons c' rest' =>
                  obtain ⟨hlink, hrest⟩ := List.isChain_cons_cons.mp h
                  obtain ⟨hlink', hrest'⟩ := List.isChain_cons_cons.mp h'
                  refine (ih hrest hrest' (hlink.symm.trans hlink')).imp ?_ ?_
                  · exact fun hfront => List.cons_prefix_cons.mpr ⟨rfl, hfront⟩
                  · exact fun hfront => List.cons_prefix_cons.mpr ⟨rfl, hfront⟩

namespace Trail

variable {limit : Nat} {start : α} {stops stops' : List α}

/-- A trail that goes on where another ends is no trail, so of two trails neither is longer. -/
theorem eq_of_prefix (h : Trail next limit start stops) (h' : Trail next limit start stops')
    (hfront : stops <+: stops') : stops = stops' := by
  obtain ⟨more, rfl⟩ := hfront
  cases more with
  | nil => exact (List.append_nil stops).symm
  | cons stop more =>
      exfalso
      have hlength := h'.bounded
      rw [List.length_append, List.length_cons] at hlength
      have hends := h.ends.resolve_left (by omega)
      obtain ⟨front, last, rfl⟩ : ∃ front last, stops = front ++ [last] := by
        rcases List.eq_nil_or_concat stops with rfl | hconcat
        · exact absurd h.starts (by simp)
        · simpa using hconcat
      have hlinked := h'.linked
      rw [List.append_assoc, List.singleton_append] at hlinked
      have hlink := (List.isChain_append_cons_cons.mp hlinked).2.1
      have hvisited := hends last List.getLast?_concat stop hlink
      exact (List.nodup_append.mp h'.nodup).2.2 stop hvisited stop (.head _) rfl

/-- There is one walk from a start. -/
theorem unique (h : Trail next limit start stops) (h' : Trail next limit start stops') :
    stops = stops' := by
  rcases chain_prefix_or h.linked h'.linked (h.starts.trans h'.starts.symm) with hfront | hfront
  · exact h.eq_of_prefix h' hfront
  · exact (h'.eq_of_prefix h hfront).symm

/-- Every stop but the first is the next of another. -/
theorem next_or_start (h : Trail next limit start stops) {stop : α} (hstop : stop ∈ stops) :
    stop = start ∨ ∃ before ∈ stops, next before = some stop := by
  obtain ⟨front, behind, rfl⟩ := List.append_of_mem hstop
  rcases List.eq_nil_or_concat front with rfl | ⟨front, before, rfl⟩
  · exact .inl (Option.some.inj h.starts)
  · have hlinked := h.linked
    rw [List.concat_eq_append, List.append_assoc, List.singleton_append] at hlinked
    refine .inr ⟨before, by simp, (List.isChain_append_cons_cons.mp hlinked).2.1⟩

end Trail

end Trail

end GrpcEpub
