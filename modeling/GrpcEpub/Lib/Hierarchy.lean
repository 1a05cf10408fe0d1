/-
# `GrpcEpub.Lib.Hierarchy` — entries under entries, kept up to a limit

A hierarchy is a forest of entries, given by its first entry, what is under that and
what follows it.  Some entries count and some do not, and a reader that counts an
entry when it closes keeps it only while a limit lasts.  An entry closes after
everything under it, so what is lost with it has been counted already: `kept` is
what remains, and `spent` how many were counted.

Where everything counts, the limit is used up exactly when it falls between two
entries of the top level (`count_kept_iff`).  Where the limit is never met, what
remains is what stands under nothing but counting entries (`kept_of_room`), and that
is all that counts when nothing of it stands under anything else
(`listed_pruned_iff`).
-/
import Mathlib.Tactic

namespace GrpcEpub

/-- A forest of entries. -/
inductive Hierarchy (ω : Type) where
  | nil
  | entry (own : ω) (below rest : Hierarchy ω)
deriving DecidableEq, Repr

namespace Hierarchy

variable {ω : Type}

/-- Every entry, depth-first in order. -/
def listed : Hierarchy ω → List ω
  | nil => []
  | entry a below rest => a :: (below.listed ++ rest.listed)

def count : Hierarchy ω → Nat
  | nil => 0
  | entry _ below rest => below.count + 1 + rest.count

def height : Hierarchy ω → Nat
  | nil => 0
  | entry _ below rest => max (below.height + 1) rest.height

/-- Two forests side by side. -/
def append : Hierarchy ω → Hierarchy ω → Hierarchy ω
  | nil, h => h
  | entry a below rest, h => entry a below (rest.append h)

/-- The first entries of the top level, with what is under them. -/
def top : Nat → Hierarchy ω → Hierarchy ω
  | 0, _ => nil
  | _, nil => nil
  | k + 1, entry a below rest => entry a below (rest.top k)

def map {ω' : Type} (f : ω → ω') : Hierarchy ω → Hierarchy ω'
  | nil => nil
  | entry a below rest => entry (f a) (below.map f) (rest.map f)

/-- Every entry at the top level. -/
def flat : Hierarchy ω → Hierarchy ω
  | nil => nil
  | entry a below rest => entry a nil (below.flat.append rest.flat)

/-- So many levels as they are, and everything deeper at the one level under them. -/
def under : Nat → Hierarchy ω → Hierarchy ω
  | 0, h => h.flat
  | _, nil => nil
  | k + 1, entry a below rest => entry a (below.under k) (rest.under (k + 1))

theorem length_listed (h : Hierarchy ω) : h.listed.length = h.count := by
  induction h with
  | nil => rfl
  | entry a below rest ihbelow ihrest =>
      rw [listed, List.length_cons, List.length_append, ihbelow, ihrest, count]
      omega

section Append

variable (h h' : Hierarchy ω)

theorem append_nil : h.append nil = h := by
  induction h with
  | nil => rfl
  | entry a below rest _ ih => rw [append, ih]

theorem append_assoc (h'' : Hierarchy ω) : (h.append h').append h'' = h.append (h'.append h'') := by
  induction h with
  | nil => rfl
  | entry a below rest _ ih => rw [append, append, append, ih]

theorem listed_append : (h.append h').listed = h.listed ++ h'.listed := by
  induction h with
  | nil => rfl
  | entry a below rest _ ih => rw [append, listed, listed, ih, List.cons_append, List.append_assoc]

theorem count_append : (h.append h').count = h.count + h'.count := by
  rw [← length_listed, listed_append, List.length_append, length_listed, length_listed]

theorem height_append : (h.append h').height = max h.height h'.height := by
  induction h with
  | nil => exact (Nat.zero_max _).symm
  | entry a below rest _ ih => rw [append, height, height, ih, max_assoc]

section Map

variable {ω' : Type} (f : ω → ω')

theorem map_append : (h.append h').map f = (h.map f).append (h'.map f) := by
  induction h with
  | nil => rfl
  | entry a below rest _ ih => rw [append, map, map, ih, append]

theorem listed_map : (h.map f).listed = h.listed.map f := by
  induction h with
  | nil => rfl
  | entry a below rest ihbelow ihrest =>
      rw [map, listed, listed, ihbelow, ihrest, List.map_cons, List.map_append]

end Map

end Append

/-! ## Levels

The same entries by the level they stand on, and cut off below a level. -/

section Under

theorem listed_flat (h : Hierarchy ω) : h.flat.listed = h.listed := by
  induction h with
  | nil => rfl
  | entry a below rest ihbelow ihrest =>
      rw [flat, listed, listed, listed_append, ihbelow, ihrest]
      rfl

theorem listed_under (k : Nat) (h : Hierarchy ω) : (h.under k).listed = h.listed := by
  induction h generalizing k with
  | nil => cases k <;> rfl
  | entry a below rest ihbelow ihrest =>
      cases k with
      | zero => exact listed_flat _
      | succ k => rw [under, listed, listed, ihbelow, ihrest]

/-- Where nothing is deeper, everything stays as it is. -/
theorem under_of_height {k : Nat} {h : Hierarchy ω} (hheight : h.height ≤ k) : h.under k = h := by
  induction h generalizing k with
  | nil => cases k <;> rfl
  | entry a below rest ihbelow ihrest =>
      rw [height] at hheight
      cases k with
      | zero => omega
      | succ k => rw [under, ihbelow (by omega), ihrest (by omega)]

end Under

/-! ## What a limit leaves

`kept` and `spent` by recursion on the forest, and how they behave under `append` and `map`. -/

section Kept

variable (p : ω → Bool) (limit : Nat)

/-- How many entries have been counted, after so many before. -/
def spent : Nat → Hierarchy ω → Nat
  | n, nil => n
  | n, entry a below rest =>
      rest.spent (if below.spent n < limit ∧ p a then below.spent n + 1 else below.spent n)

/-- What is kept: an entry when it counts and the limit lasts, and nothing of what is
under one that is not kept. -/
def kept : Nat → Hierarchy ω → Hierarchy ω
  | _, nil => nil
  | n, entry a below rest =>
      if below.spent p limit n < limit ∧ p a then
        entry a (below.kept n) (rest.kept (below.spent p limit n + 1))
      else rest.kept (below.spent p limit n)

/-- What stands under nothing but counting entries. -/
def pruned : Hierarchy ω → Hierarchy ω
  | nil => nil
  | entry a below rest => if p a then entry a below.pruned rest.pruned else rest.pruned

/-- No entry that counts stands under one that does not. -/
def Upright : Hierarchy ω → Prop
  | nil => True
  | entry a below rest => (p a ∨ ∀ b ∈ below.listed, ¬ p b) ∧ below.Upright ∧ rest.Upright

/-- What has something under it counts. -/
def Headed : Hierarchy ω → Prop
  | nil => True
  | entry a below rest => (below = nil ∨ p a) ∧ below.Headed ∧ rest.Headed

instance decHeaded [DecidableEq ω] : (h : Hierarchy ω) → Decidable (h.Headed p)
  | nil => inferInstanceAs (Decidable True)
  | entry a below rest =>
      have := decHeaded below
      have := decHeaded rest
      inferInstanceAs (Decidable ((below = nil ∨ p a) ∧ below.Headed p ∧ rest.Headed p))

variable {p limit} {n : Nat} (h h' : Hierarchy ω)

theorem spent_append : (h.append h').spent p limit n = h'.spent p limit (h.spent p limit n) := by
  induction h generalizing n with
  | nil => rfl
  | entry a below rest _ ih => rw [append, spent, spent, ih]

theorem le_spent : n ≤ h.spent p limit n := by
  induction h generalizing n with
  | nil => exact Nat.le_refl n
  | entry a below rest ihbelow ihrest =>
      rw [spent]
      refine ihbelow.trans (le_trans ?_ ihrest)
      split
      · exact Nat.le_succ _
      · exact Nat.le_refl _

section Map

variable {ω' : Type} (f : ω' → ω) (h : Hierarchy ω')

theorem spent_map : (h.map f).spent p limit n = h.spent (p ∘ f) limit n := by
  induction h generalizing n with
  | nil => rfl
  | entry a below rest ihbelow ihrest => rw [map, spent, spent, ihbelow, ihrest, Function.comp_apply]

theorem kept_map : (h.map f).kept p limit n = (h.kept (p ∘ f) limit n).map f := by
  induction h generalizing n with
  | nil => rfl
  | entry a below rest ihbelow ihrest =>
      rw [map, kept, kept, spent_map, Function.comp_apply]
      split
      · rw [ihbelow, ihrest, map]
      · exact ihrest

end Map

theorem count_kept_le : (h.kept p limit n).count ≤ h.count := by
  induction h generalizing n with
  | nil => exact Nat.le_refl 0
  | entry a below rest ihbelow ihrest =>
      rw [kept, count]
      split
      · exact Nat.add_le_add (Nat.succ_le_succ ihbelow) ihrest
      · exact ihrest.trans (Nat.le_add_left _ _)

theorem kept_append : (h.append h').kept p limit n =
    (h.kept p limit n).append (h'.kept p limit (h.spent p limit n)) := by
  induction h generalizing n with
  | nil => rfl
  | entry a below rest _ ih =>
      rw [append, kept, kept, spent]
      split
      · rw [ih, append]
      · rw [ih]

theorem pruned_append : (h.append h').pruned p = (h.pruned p).append (h'.pruned p) := by
  induction h with
  | nil => rfl
  | entry a below rest _ ih =>
      rw [append, pruned, pruned]
      split
      · rw [ih, append]
      · exact ih

theorem append_inj_right {h₁ h₂ : Hierarchy ω} (heq : h.append h₁ = h.append h₂) : h₁ = h₂ := by
  induction h with
  | nil => exact heq
  | entry a below rest _ ih =>
      rw [append, append] at heq
      exact ih (Hierarchy.entry.inj heq).2.2

theorem append_eq_nil (heq : h.append h' = nil) : h = nil ∧ h' = nil := by
  cases h with
  | nil => exact ⟨rfl, heq⟩
  | entry a below rest => cases heq

theorem headed_append : (h.append h').Headed p ↔ h.Headed p ∧ h'.Headed p := by
  induction h with
  | nil => exact iff_of_eq (true_and _).symm
  | entry a below rest _ ih => rw [append, Headed, Headed, ih, and_assoc, and_assoc]

/-- Under what does not count there is nothing, so nothing that counts. -/
theorem upright_of_headed (hheaded : h.Headed p) : h.Upright p := by
  induction h with
  | nil => trivial
  | entry a below rest ihbelow ihrest =>
      obtain ⟨hown, hbelow, hrest⟩ := hheaded
      refine ⟨?_, ihbelow hbelow, ihrest hrest⟩
      rcases hown with rfl | ha
      · exact .inr fun _ hb => nomatch hb
      · exact .inl ha

/-! ## A limit on entries that all count

Then an entry is kept or not by the number of entries that close before it. -/

theorem spent_limit : h.spent p limit limit = limit := by
  induction h with
  | nil => rfl
  | entry a below rest ihbelow ihrest =>
      rw [spent, ihbelow, if_neg fun hin => Nat.lt_irrefl _ hin.1, ihrest]

theorem kept_limit : h.kept p limit limit = nil := by
  induction h with
  | nil => rfl
  | entry a below rest _ ihrest =>
      rw [kept, spent_limit, if_neg fun hin => Nat.lt_irrefl _ hin.1, ihrest]

variable {h}

/-- Counting goes on up to the limit. -/
theorem spent_eq (hn : n ≤ limit) :
    h.spent p limit n = min (n + (h.listed.filter p).length) limit := by
  induction h generalizing n with
  | nil => exact (Nat.min_eq_left hn).symm
  | entry a below rest ihbelow ihrest =>
      rw [spent, ihbelow hn, listed, List.filter_cons, List.filter_append]
      cases ha : p a with
      | true =>
          rw [if_pos rfl, List.length_cons, List.length_append]
          by_cases hroom : min (n + (below.listed.filter p).length) limit < limit
          · rw [if_pos ⟨hroom, rfl⟩, ihrest (by omega)]
            omega
          · rw [if_neg fun hin => hroom hin.1, ihrest (Nat.min_le_right _ _)]
            omega
      | false =>
          rw [if_neg fun hin => Bool.false_ne_true hin.2, ihrest (Nat.min_le_right _ _),
            if_neg Bool.false_ne_true, List.length_append]
          omega

theorem spent_of_all (hall : ∀ a ∈ h.listed, p a = true) (hn : n ≤ limit) :
    h.spent p limit n = min (n + h.count) limit := by
  rw [spent_eq hn, List.filter_eq_self.mpr hall, length_listed]

/-- Below the limit nothing is lost. -/
theorem kept_eq_self (hall : ∀ a ∈ h.listed, p a = true) (hroom : n + h.count ≤ limit) :
    h.kept p limit n = h := by
  induction h generalizing n with
  | nil => rfl
  | entry a below rest ihbelow ihrest =>
      rw [listed, List.forall_mem_cons, List.forall_mem_append] at hall
      obtain ⟨ha, hbelow, hrest⟩ := hall
      rw [count] at hroom
      rw [kept, spent_of_all hbelow (by omega), if_pos ⟨by omega, ha⟩, ihbelow hbelow (by omega),
        ihrest hrest (by omega)]

/-- An entry that does not fit any more takes with it what was counted for it. -/
theorem count_kept_entry (hall : ∀ a ∈ h.listed, p a = true) {own : ω} {rest : Hierarchy ω}
    (hn : n ≤ limit) (hover : limit < n + h.count + 1) :
    (entry own h rest).kept p limit n = nil := by
  have hfull : h.spent p limit n = limit := by
    rw [spent_of_all hall hn]
    omega
  rw [kept, hfull, if_neg fun hin => Nat.lt_irrefl _ hin.1, kept_limit]

/-- When as many are kept as there is room for. -/
theorem count_kept_iff (hall : ∀ a ∈ h.listed, p a = true) (hn : n ≤ limit) :
    (h.kept p limit n).count = min h.count (limit - n) ↔
      h.count ≤ limit - n ∨ ∃ k, (h.top k).count = limit - n := by
  induction h generalizing n with
  | nil =>
      refine iff_of_true ?_ (.inl (Nat.zero_le _))
      exact (Nat.zero_min _).symm
  | entry a below rest _ ihrest =>
      have hparts := hall
      rw [listed, List.forall_mem_cons, List.forall_mem_append] at hparts
      obtain ⟨ha, hbelow, hrest⟩ := hparts
      have htop : ∀ k, ((entry a below rest).top (k + 1)).count =
          below.count + 1 + (rest.top k).count := fun k => rfl
      have hzero : ((entry a below rest).top 0).count = 0 := rfl
      -- with room for the first entry the limit is left to the rest, whose levels come one later
      by_cases hroom : n + below.count + 1 ≤ limit
      · have hkept : ((entry a below rest).kept p limit n).count =
            below.count + 1 + (rest.kept p limit (n + below.count + 1)).count := by
          have hspent : below.spent p limit n = n + below.count := by
            rw [spent_of_all hbelow hn]
            omega
          rw [kept, hspent, if_pos ⟨by omega, ha⟩, kept_eq_self hbelow (by omega), count]
        have ih := ihrest hrest hroom
        rw [hkept, count]
        constructor
        · intro heq
          rcases ih.mp (by omega) with hle | ⟨k, hk⟩
          · exact .inl (by omega)
          · exact .inr ⟨k + 1, by rw [htop, hk]; omega⟩
        · rintro (hle | ⟨k, hk⟩)
          · have hrest' := ih.mpr (.inl (by omega))
            omega
          · cases k with
            | zero =>
                rw [hzero] at hk
                omega
            | succ k =>
                rw [htop] at hk
                have hrest' := ih.mpr (.inr ⟨k, by omega⟩)
                omega
      · rw [count_kept_entry hbelow hn (by omega), count, count]
        constructor
        · intro heq
          exact .inr ⟨0, by rw [hzero]; omega⟩
        · rintro (hle | ⟨k, hk⟩)
          · omega
          · cases k with
            | zero =>
                rw [hzero] at hk
                omega
            | succ k =>
                rw [htop] at hk
                omega

/-! ## A limit that is never met

Then an entry is kept or not by the entries it stands under. -/

theorem spent_of_room (hroom : n + (h.listed.filter p).length ≤ limit) :
    h.spent p limit n = n + (h.listed.filter p).length := by
  rw [spent_eq (by omega), Nat.min_eq_left hroom]

/-- As long as the limit is not met, it takes nothing away. -/
theorem kept_of_room (hroom : n + (h.listed.filter p).length ≤ limit) :
    h.kept p limit n = h.pruned p := by
  induction h generalizing n with
  | nil => rfl
  | entry a below rest ihbelow ihrest =>
      rw [listed, List.filter_cons, List.filter_append] at hroom
      cases ha : p a with
      | true =>
          rw [ha, if_pos rfl, List.length_cons, List.length_append] at hroom
          rw [kept, spent_of_room (by omega), ha, if_pos ⟨by omega, rfl⟩, ihbelow (by omega),
            ihrest (by omega), pruned, ha, if_pos rfl]
      | false =>
          rw [ha, if_neg Bool.false_ne_true, List.length_append] at hroom
          rw [kept, spent_of_room (by omega), ha, if_neg fun hin => Bool.false_ne_true hin.2,
            ihrest (by omega), pruned, ha, if_neg Bool.false_ne_true]

/-- An entry of the top level is the first or one of the rest. -/
theorem exists_split {a : ω} {below rest : Hierarchy ω}
    {Q : Hierarchy ω → ω → Hierarchy ω → Prop} :
    (∃ front a' below' rest', entry a below rest = append front (entry a' below' rest') ∧
        Q front a' below') ↔
      Q nil a below ∨ ∃ front a' below' rest', rest = append front (entry a' below' rest') ∧
        Q (entry a below front) a' below' := by
  constructor
  · rintro ⟨front, a', below', rest', heq, hq⟩
    cases front with
    | nil =>
        rw [append, entry.injEq] at heq
        obtain ⟨rfl, rfl, rfl⟩ := heq
        exact .inl hq
    | entry own inner front =>
        rw [append, entry.injEq] at heq
        obtain ⟨rfl, rfl, hrest⟩ := heq
        exact .inr ⟨front, a', below', rest', hrest, hq⟩
  · rintro (hq | ⟨front, a', below', rest', rfl, hq⟩)
    · exact ⟨nil, a, below, rest, rfl, hq⟩
    · exact ⟨entry a below front, a', below', rest', rfl, hq⟩

/-- What is kept stands under nothing but counting entries, and the limit lasts until the entry
of the top level that it stands in closes. -/
theorem mem_kept_iff (hn : n ≤ limit) {b : ω} : b ∈ (h.kept p limit n).listed ↔
    ∃ front a below rest, h = append front (entry a below rest) ∧
      (n + (front.listed.filter p).length + (below.listed.filter p).length < limit ∧
        b ∈ ((entry a below nil).pruned p).listed) := by
  induction h generalizing n with
  | nil =>
      refine iff_of_false (fun hb => nomatch hb) ?_
      rintro ⟨front, a, below, rest, heq, -⟩
      cases front <;> cases heq
  | entry a below rest _ ihrest =>
      rw [@exists_split _ a below rest fun front a below =>
        n + (front.listed.filter p).length + (below.listed.filter p).length < limit ∧
          b ∈ ((entry a below nil).pruned p).listed, kept, spent_eq hn, pruned]
      cases ha : p a with
      -- an entry that counts uses up the limit for what follows it
      | true =>
          have hlength : ∀ front : Hierarchy ω, ((entry a below front).listed.filter p).length =
              (below.listed.filter p).length + 1 + (front.listed.filter p).length := fun front => by
            rw [listed, List.filter_cons, ha, if_pos rfl, List.filter_append, List.length_cons,
              List.length_append]
            omega
          by_cases hroom : n + (below.listed.filter p).length < limit
          · have hfirst : (entry a (below.pruned p) (rest.kept p limit
                (n + (below.listed.filter p).length + 1))).listed =
                  (entry a (below.pruned p) nil).listed ++ (rest.kept p limit
                    (n + (below.listed.filter p).length + 1)).listed :=
              listed_append (entry a (below.pruned p) nil) _
            rw [Nat.min_eq_left hroom.le, if_pos ⟨hroom, rfl⟩, if_pos rfl, kept_of_room hroom.le, hfirst,
              List.mem_append, ihrest (Nat.succ_le_of_lt hroom)]
            refine or_congr ⟨fun hb => ⟨hroom, hb⟩, fun hb => hb.2⟩ (exists_congr fun front =>
              exists_congr fun a' => exists_congr fun below' => exists_congr fun rest' =>
                and_congr_right fun _ => and_congr_left fun _ => ?_)
            rw [hlength]
            omega
          · rw [Nat.min_eq_right (Nat.le_of_not_lt hroom), if_neg fun hin => Nat.lt_irrefl _ hin.1,
              kept_limit]
            refine iff_of_false (fun hb => nomatch hb) ?_
            rintro (hin | ⟨front, a', below', rest', -, hin, -⟩)
            · exact hroom hin.1
            · rw [hlength] at hin
              omega
      -- one that does not takes nothing from it, and is not kept
      | false =>
          have hlength : ∀ front : Hierarchy ω, ((entry a below front).listed.filter p).length =
              (below.listed.filter p).length + (front.listed.filter p).length := fun front => by
            rw [listed, List.filter_cons, ha, if_neg Bool.false_ne_true, List.filter_append,
              List.length_append]
          have hnone : ¬ (n + ((nil : Hierarchy ω).listed.filter p).length +
              (below.listed.filter p).length < limit ∧
                b ∈ (if false = true then entry a (below.pruned p) (nil.pruned p) else
                  nil.pruned p).listed) := fun hin => by
            rw [if_neg Bool.false_ne_true] at hin
            cases hin.2
          rw [if_neg fun hin => Bool.false_ne_true hin.2, or_iff_right hnone]
          by_cases hroom : n + (below.listed.filter p).length ≤ limit
          · rw [Nat.min_eq_left hroom, ihrest hroom]
            simp only [hlength, Nat.add_assoc]
          · rw [Nat.min_eq_right (Nat.le_of_not_le hroom), kept_limit]
            refine iff_of_false (fun hb => nomatch hb) ?_
            rintro ⟨front, a', below', rest', -, hin, -⟩
            rw [hlength] at hin
            omega

variable (p h)

theorem listed_pruned_sublist : ((h.pruned p).listed).Sublist (h.listed.filter p) := by
  induction h with
  | nil => exact .refl _
  | entry a below rest ihbelow ihrest =>
      rw [pruned, listed, List.filter_cons, List.filter_append]
      cases p a with
      | true => exact (ihbelow.append ihrest).cons_cons a
      | false => exact ihrest.trans (List.sublist_append_right _ _)

/-- When all that counts is kept. -/
theorem listed_pruned_iff : (h.pruned p).listed = h.listed.filter p ↔ h.Upright p := by
  induction h with
  | nil => exact iff_of_true rfl trivial
  | entry a below rest ihbelow ihrest =>
      have hbelow := listed_pruned_sublist p below
      have hrest := listed_pruned_sublist p rest
      rw [pruned, Upright, listed, List.filter_cons, List.filter_append, ← ihbelow, ← ihrest]
      cases ha : p a with
      | true =>
          rw [if_pos rfl, if_pos rfl, listed, List.cons_inj_right]
          constructor
          · intro heq
            have hlength := congrArg List.length heq
            rw [List.length_append, List.length_append] at hlength
            have hbelow' := hbelow.length_le
            have hrest' := hrest.length_le
            exact ⟨.inl rfl, hbelow.eq_of_length (by omega), hrest.eq_of_length (by omega)⟩
          · rintro ⟨-, hbelow', hrest'⟩
            rw [hbelow', hrest']
      | false =>
          rw [if_neg Bool.false_ne_true, if_neg Bool.false_ne_true]
          have hnone : below.listed.filter p = [] ↔ ∀ b ∈ below.listed, ¬ p b := by
            rw [List.filter_eq_nil_iff]
          constructor
          · intro heq
            have hlength := congrArg List.length heq
            rw [List.length_append] at hlength
            have hrest' := hrest.length_le
            have hempty : below.listed.filter p = [] := List.eq_nil_of_length_eq_zero (by omega)
            refine ⟨.inr (hnone.mp hempty), ?_, hrest.eq_of_length (by omega)⟩
            rw [hempty]
            exact List.eq_nil_of_length_eq_zero (by rw [hempty] at hbelow; simpa using hbelow)
          · rintro ⟨hnot, -, hrest'⟩
            have hempty := hnone.mpr (hnot.resolve_left Bool.false_ne_true)
            rw [hempty, hrest', List.nil_append]

end Kept

end Hierarchy

end GrpcEpub
