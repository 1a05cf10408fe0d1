/-
# `GrpcEpub.Lib.Words` — the words of a text of which something is left out

The words of a text are its maximal runs of what is no blank.  A reader that leaves
out part of a text may lose a word, or run two words together when what it left out
stood between them.  `Seamless` says that it did neither: only blanks are left out, and
nothing between two characters of which neither is a blank.

`words_read_iff` is the main result: the words of what was read are the words of
everything exactly when the reading is seamless.  One half is a count, since a text
loses words where it is run together and gains none.
-/
import Mathlib.Tactic

namespace GrpcEpub

namespace Words

variable {α : Type} (blank : α → Bool)

/-- The maximal runs of what is no blank. -/
def words [DecidableEq α] (text : List α) : List (List α) :=
  (text.splitOnP blank).filter (· ≠ [])

/-- The text begins in a word. -/
def Opens : List α → Prop
  | [] => False
  | a :: _ => blank a = false

instance decOpens : (text : List α) → Decidable (Opens blank text)
  | [] => inferInstanceAs (Decidable False)
  | a :: _ => inferInstanceAs (Decidable (blank a = false))

variable {blank}

/-- What is split at blanks has none. -/
theorem mem_splitOnP {text : List α} : ∀ word ∈ text.splitOnP blank, ∀ a ∈ word, blank a = false := by
  induction text with
  | nil =>
      intro word hword a ha
      rw [List.splitOnP_nil, List.mem_singleton] at hword
      rw [hword] at ha
      cases ha
  | cons b text ih =>
      intro word hword a ha
      rw [List.splitOnP_cons_eq_if_modifyHead] at hword
      cases hb : blank b with
      | true =>
          rw [hb, if_pos rfl, List.mem_cons] at hword
          rcases hword with rfl | hword
          · cases ha
          · exact ih word hword a ha
      | false =>
          obtain ⟨first, rest, hsplit⟩ := List.exists_cons_of_ne_nil (List.splitOnP_ne_nil blank text)
          rw [hb, if_neg Bool.false_ne_true, hsplit, List.modifyHead_cons, List.mem_cons] at hword
          rw [hsplit] at ih
          rcases hword with rfl | hword
          · rcases List.mem_cons.mp ha with rfl | ha
            · exact hb
            · exact ih first List.mem_cons_self a ha
          · exact ih word (List.mem_cons_of_mem _ hword) a ha

theorem splitOnP_opens (text : List α) : ∃ first rest, text.splitOnP blank = first :: rest ∧
    (Opens blank text ↔ first ≠ []) := by
  cases text with
  | nil => exact ⟨[], [], List.splitOnP_nil, by simp [Opens]⟩
  | cons a text =>
      rw [List.splitOnP_cons_eq_if_modifyHead]
      cases h : blank a with
      | true => exact ⟨[], _, rfl, by simp [Opens, h]⟩
      | false =>
          obtain ⟨first, rest, hsplit⟩ := List.exists_cons_of_ne_nil (List.splitOnP_ne_nil blank text)
          exact ⟨a :: first, rest, by rw [hsplit]; rfl, by simp [Opens, h]⟩

/-! ## Leaving something out

Each character with whether it is read. -/

/-- What is read of a text in which every character is read or left out. -/
def read (text : List (α × Bool)) : List α := (text.filter Prod.snd).map Prod.fst

/-- Only blanks are left out, and none between two characters of a word. -/
def Seamless (blank : α → Bool) : List (α × Bool) → Prop
  | [] => True
  | (a, false) :: rest => blank a = true ∧ Seamless blank rest
  | (a, true) :: rest =>
      (blank a = true ∨ (rest.head?.map Prod.snd = some false → ¬ Opens blank (read rest))) ∧
        Seamless blank rest

instance decSeamless (blank : α → Bool) : (text : List (α × Bool)) → Decidable (Seamless blank text)
  | [] => inferInstanceAs (Decidable True)
  | (a, false) :: rest =>
      have := decSeamless blank rest
      inferInstanceAs (Decidable (blank a = true ∧ Seamless blank rest))
  | (a, true) :: rest =>
      have := decSeamless blank rest
      inferInstanceAs (Decidable ((blank a = true ∨
        (rest.head?.map Prod.snd = some false → ¬ Opens blank (read rest))) ∧ Seamless blank rest))

theorem read_out (a : α) (rest : List (α × Bool)) : read ((a, false) :: rest) = read rest := rfl

theorem read_in (a : α) (rest : List (α × Bool)) : read ((a, true) :: rest) = a :: read rest := rfl

theorem read_append (text text' : List (α × Bool)) : read (text ++ text') = read text ++ read text' := by
  simp [read]

theorem read_all (text : List α) : read (text.map (·, true)) = text := by
  induction text with
  | nil => rfl
  | cons a text ih => rw [List.map_cons, read_in, ih]

theorem read_none (text : List α) : read (text.map (·, false)) = [] := by
  induction text with
  | nil => rfl
  | cons a text ih => rw [List.map_cons, read_out, ih]

/-- Where nothing is left out at once, the text goes on with what is read. -/
theorem opens_read {text : List (α × Bool)} (h : text.head?.map Prod.snd ≠ some false) :
    Opens blank (read text) ↔ Opens blank (text.map Prod.fst) := by
  cases text with
  | nil => exact Iff.rfl
  | cons mark rest =>
      obtain ⟨a, kept⟩ := mark
      cases kept with
      | false => exact absurd rfl h
      | true => exact Iff.rfl

theorem not_opens_out {text : List (α × Bool)} (hblank : ∀ mark ∈ text, mark.2 = false → blank mark.1 = true)
    (h : text.head?.map Prod.snd = some false) : ¬ Opens blank (text.map Prod.fst) := by
  cases text with
  | nil => cases h
  | cons mark rest =>
      obtain ⟨a, kept⟩ := mark
      obtain rfl : kept = false := Option.some.inj h
      have ha := hblank (a, false) List.mem_cons_self rfl
      exact fun hopens => Bool.false_ne_true (hopens.symm.trans ha)

theorem Seamless.blanks {text : List (α × Bool)} (h : Seamless blank text) :
    ∀ mark ∈ text, mark.2 = false → blank mark.1 = true := by
  induction text with
  | nil => exact fun _ hmark => nomatch hmark
  | cons mark rest ih =>
      obtain ⟨a, kept⟩ := mark
      cases kept with
      | false =>
          obtain ⟨ha, hrest⟩ := h
          exact List.forall_mem_cons.mpr ⟨fun _ => ha, ih hrest⟩
      | true => exact List.forall_mem_cons.mpr ⟨fun hout => (Bool.false_ne_true hout.symm).elim, ih h.2⟩

/-- No fewer characters are read when nothing but blanks is left out. -/
theorem length_filter_read (text : List (α × Bool)) :
    ((read text).filter fun a => !blank a).length ≤
        ((text.map Prod.fst).filter fun a => !blank a).length ∧
      (((read text).filter fun a => !blank a).length =
          ((text.map Prod.fst).filter fun a => !blank a).length →
        ∀ mark ∈ text, mark.2 = false → blank mark.1 = true) := by
  induction text with
  | nil => exact ⟨Nat.le_refl _, fun _ _ hmark => nomatch hmark⟩
  | cons mark rest ih =>
      obtain ⟨a, kept⟩ := mark
      obtain ⟨hle, heq⟩ := ih
      rw [List.forall_mem_cons, List.map_cons]
      cases kept with
      | false =>
          rw [read_out, List.filter_cons]
          cases ha : blank a with
          | true => exact ⟨hle, fun hlength => ⟨fun _ => rfl, heq hlength⟩⟩
          | false =>
              rw [if_pos (by rfl), List.length_cons]
              exact ⟨Nat.le_succ_of_le hle, fun hlength => absurd hle (by omega)⟩
      | true =>
          rw [read_in, List.filter_cons, List.filter_cons]
          have hin : (a, true).2 = false → blank a = true := fun hout => absurd hout.symm Bool.false_ne_true
          split
          · rw [List.length_cons, List.length_cons]
            exact ⟨Nat.succ_le_succ hle, fun hlength => ⟨hin, heq (Nat.succ.inj hlength)⟩⟩
          · exact ⟨hle, fun hlength => ⟨hin, heq hlength⟩⟩

/-! ## What becomes of the words

Words are counted where they open, and put together again from the characters that are no blanks. -/

variable [DecidableEq α]

theorem words_blank {a : α} (h : blank a = true) (text : List α) :
    words blank (a :: text) = words blank text := by
  unfold words
  rw [List.splitOnP_cons_eq_if_modifyHead, if_pos h, List.filter_cons_of_neg (by simp)]

/-- What is no blank starts a word or goes on with one. -/
theorem words_cons {a : α} (h : blank a = false) (text : List α) :
    words blank (a :: text) =
      if Opens blank text then (words blank text).modifyHead (a :: ·) else [a] :: words blank text := by
  obtain ⟨first, rest, hsplit, hopens⟩ := @splitOnP_opens α blank text
  unfold words
  rw [List.splitOnP_cons_eq_if_modifyHead, h, if_neg Bool.false_ne_true, hsplit]
  by_cases hfirst : first = []
  · rw [if_neg fun hin => hopens.mp hin hfirst, hfirst]
    simp
  · rw [if_pos (hopens.mpr hfirst)]
    simp [hfirst]

theorem mem_words {text word : List α} (h : word ∈ words blank text) :
    word ≠ [] ∧ ∀ a ∈ word, blank a = false := by
  unfold words at h
  rw [List.mem_filter, decide_eq_true_iff] at h
  exact ⟨h.2, mem_splitOnP word h.1⟩

/-- Words joined by single blanks are the words again. -/
theorem words_intercalate {space : α} (hspace : blank space = true) {tokens : List (List α)}
    (h : ∀ token ∈ tokens, token ≠ [] ∧ ∀ a ∈ token, blank a = false) :
    words blank ([space].intercalate tokens) = tokens := by
  unfold words
  induction tokens with
  | nil => rfl
  | cons token rest ih =>
      obtain ⟨hne, hword⟩ := h token List.mem_cons_self
      cases rest with
      | nil =>
          rw [List.intercalate_singleton, List.splitOnP_eq_singleton hword,
            List.filter_cons_of_pos (by simpa using hne)]
          rfl
      | cons next rest =>
          rw [List.intercalate_cons_cons, List.append_assoc, List.singleton_append,
            List.splitOnP_append_cons_of_forall_mem hword space hspace,
            List.filter_cons_of_pos (by simpa using hne),
            ih fun token htoken => h token (List.mem_cons_of_mem _ htoken)]

/-- What the words are made of. -/
theorem flatten_words (text : List α) :
    (words blank text).flatten = text.filter fun a => !blank a := by
  induction text with
  | nil => simp [words]
  | cons a text ih =>
      cases h : blank a with
      | true => rw [words_blank h, ih, List.filter_cons_of_neg (by simp [h])]
      | false =>
          rw [words_cons h, List.filter_cons_of_pos (by simp [h]), ← ih]
          split
          · rename_i hopens
            obtain ⟨first, rest, hsplit, hiff⟩ := @splitOnP_opens α blank text
            unfold words
            rw [hsplit]
            simp [hiff.mp hopens]
          · rfl

theorem length_words_cons {a : α} (h : blank a = false) (text : List α) :
    (words blank (a :: text)).length =
      (words blank text).length + if Opens blank text then 0 else 1 := by
  rw [words_cons h]
  split
  · rw [List.length_modifyHead, Nat.add_zero]
  · rfl

/-- By induction on the text, with what is in front of the first blank taken together. -/
theorem words_of_seamless {text : List (α × Bool)} (h : Seamless blank text) :
    words blank (read text) = words blank (text.map Prod.fst) := by
  induction text with
  | nil => rfl
  | cons mark rest ih =>
      obtain ⟨a, kept⟩ := mark
      cases kept with
      | false =>
          rw [read_out, List.map_cons, words_blank h.1, ih h.2]
      | true =>
          obtain ⟨hseam, hrest⟩ := h
          rw [read_in, List.map_cons]
          cases ha : blank a with
          | true => rw [words_blank ha, words_blank ha, ih hrest]
          | false =>
              have hopens : Opens blank (read rest) ↔ Opens blank (rest.map Prod.fst) := by
                by_cases hout : rest.head?.map Prod.snd = some false
                · have hread := (hseam.resolve_left (by simp [ha])) hout
                  exact iff_of_false hread (not_opens_out hrest.blanks hout)
                · exact opens_read hout
              rw [words_cons ha, words_cons ha, ih hrest]
              simp only [hopens]

/-- Where only blanks are left out, a text has no more words than before, and as many when nothing
is run together. -/
theorem length_words_read {text : List (α × Bool)}
    (hblank : ∀ mark ∈ text, mark.2 = false → blank mark.1 = true) :
    (words blank (read text)).length ≤ (words blank (text.map Prod.fst)).length ∧
      ((words blank (read text)).length = (words blank (text.map Prod.fst)).length →
        Seamless blank text) := by
  induction text with
  | nil => exact ⟨Nat.le_refl _, fun _ => trivial⟩
  | cons mark rest ih =>
      obtain ⟨a, kept⟩ := mark
      obtain ⟨ha, hrest⟩ := List.forall_mem_cons.mp hblank
      obtain ⟨hle, heq⟩ := ih hrest
      cases kept with
      | false =>
          rw [read_out, List.map_cons, words_blank (ha rfl)]
          exact ⟨hle, fun hlength => ⟨ha rfl, heq hlength⟩⟩
      | true =>
          rw [read_in, List.map_cons]
          cases hword : blank a with
          | true =>
              rw [words_blank hword, words_blank hword]
              exact ⟨hle, fun hlength => ⟨.inl hword, heq hlength⟩⟩
          | false =>
              rw [length_words_cons hword, length_words_cons hword]
              by_cases hout : rest.head?.map Prod.snd = some false
              · rw [if_neg (not_opens_out hrest hout)]
                by_cases hopens : Opens blank (read rest)
                · rw [if_pos hopens]
                  exact ⟨by omega, fun hlength => absurd hlength (by omega)⟩
                · rw [if_neg hopens]
                  exact ⟨by omega, fun hlength => ⟨.inr fun _ => hopens, heq (by omega)⟩⟩
              · have hopens := @opens_read α blank _ hout
                simp only [hopens]
                exact ⟨by omega, fun hlength => ⟨.inr fun hin => absurd hin hout, heq (by omega)⟩⟩

/-- The words of what is read are all the words. -/
theorem words_read_iff {text : List (α × Bool)} :
    words blank (read text) = words blank (text.map Prod.fst) ↔ Seamless blank text := by
  refine ⟨fun heq => ?_, words_of_seamless⟩
  have hblank : ∀ mark ∈ text, mark.2 = false → blank mark.1 = true := by
    -- What is no blank is in the words, so as many of these are read as there are.
    have hflat := congrArg (List.length ∘ List.flatten) heq
    simp only [Function.comp_apply, flatten_words] at hflat
    exact (length_filter_read text).2 hflat
  exact (length_words_read hblank).2 (congrArg List.length heq)

end Words

end GrpcEpub
