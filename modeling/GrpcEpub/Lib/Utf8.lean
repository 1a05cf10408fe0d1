/-
# `GrpcEpub.Lib.Utf8` — UTF-8, written and read back

Encoding a list of characters, and the lossy decoding that never fails: each
maximal prefix of a character's encoding that the bytes break off becomes one
U+FFFD.  The case split of `decodeLossy` is the table of well-formed byte
sequences: the second byte decides whether a three- or four-byte sequence has
begun at all, the later ones only whether it was finished.

Two laws carry what is built on the reader: `decodeLossy_encode`, that what was
written is read back, and `decodeLossy_cons`, that a step takes either one ASCII
byte or none.
-/
import Mathlib.Tactic

namespace GrpcEpub.Utf8

/-- The UTF-8 bytes of a string. -/
def encode (s : List Char) : List UInt8 := s.flatMap String.utf8EncodeChar

/-- The character a reader shows in place of bytes that are not UTF-8. -/
def replacement : Char := Char.ofNat 0xFFFD

def isCont (b : UInt8) : Bool := 0x80 ≤ b.toNat && b.toNat ≤ 0xBF

/-- Whether `b1` may follow the lead byte `b0` of a three-byte sequence. -/
def second3 (b0 b1 : UInt8) : Bool :=
  let v := b0.toNat
  let w := b1.toNat
  if v = 0xE0 then 0xA0 ≤ w && w ≤ 0xBF
  else if v = 0xED then 0x80 ≤ w && w ≤ 0x9F
  else isCont b1

/-- Whether `b1` may follow the lead byte `b0` of a four-byte sequence. -/
def second4 (b0 b1 : UInt8) : Bool :=
  let v := b0.toNat
  let w := b1.toNat
  if v = 0xF0 then 0x90 ≤ w && w ≤ 0xBF
  else if v = 0xF4 then 0x80 ≤ w && w ≤ 0x8F
  else isCont b1

def char2 (b0 b1 : UInt8) : Char :=
  Char.ofNat (b0.toNat % 32 * 64 + b1.toNat % 64)

def char3 (b0 b1 b2 : UInt8) : Char :=
  Char.ofNat (b0.toNat % 16 * 4096 + b1.toNat % 64 * 64 + b2.toNat % 64)

def char4 (b0 b1 b2 b3 : UInt8) : Char :=
  Char.ofNat (b0.toNat % 8 * 262144 + b1.toNat % 64 * 4096 + b2.toNat % 64 * 64 + b3.toNat % 64)

/-- How many bytes a lead byte announces; zero for one that starts nothing. -/
def width (b : UInt8) : Nat :=
  let v := b.toNat
  if v < 0x80 then 1
  else if 0xC2 ≤ v ∧ v ≤ 0xDF then 2
  else if 0xE0 ≤ v ∧ v ≤ 0xEF then 3
  else if 0xF0 ≤ v ∧ v ≤ 0xF4 then 4
  else 0

/-- `String::from_utf8_lossy`. -/
def decodeLossy : List UInt8 → List Char
  | [] => []
  | [b0] => if width b0 = 1 then [Char.ofNat b0.toNat] else [replacement]
  | [b0, b1] =>
      if width b0 = 1 then Char.ofNat b0.toNat :: decodeLossy [b1]
      else if width b0 = 2 ∧ isCont b1 then [char2 b0 b1]
      else if width b0 = 3 ∧ second3 b0 b1 then [replacement]
      else if width b0 = 4 ∧ second4 b0 b1 then [replacement]
      else replacement :: decodeLossy [b1]
  | [b0, b1, b2] =>
      if width b0 = 1 then Char.ofNat b0.toNat :: decodeLossy [b1, b2]
      else if width b0 = 2 ∧ isCont b1 then char2 b0 b1 :: decodeLossy [b2]
      else if width b0 = 3 ∧ second3 b0 b1 then
        if isCont b2 then [char3 b0 b1 b2] else replacement :: decodeLossy [b2]
      else if width b0 = 4 ∧ second4 b0 b1 then
        if isCont b2 then [replacement] else replacement :: decodeLossy [b2]
      else replacement :: decodeLossy [b1, b2]
  | b0 :: b1 :: b2 :: b3 :: rest =>
      if width b0 = 1 then Char.ofNat b0.toNat :: decodeLossy (b1 :: b2 :: b3 :: rest)
      else if width b0 = 2 ∧ isCont b1 then char2 b0 b1 :: decodeLossy (b2 :: b3 :: rest)
      else if width b0 = 3 ∧ second3 b0 b1 then
        if isCont b2 then char3 b0 b1 b2 :: decodeLossy (b3 :: rest)
        else replacement :: decodeLossy (b2 :: b3 :: rest)
      else if width b0 = 4 ∧ second4 b0 b1 then
        if isCont b2 then
          if isCont b3 then char4 b0 b1 b2 b3 :: decodeLossy rest
          else replacement :: decodeLossy (b3 :: rest)
        else replacement :: decodeLossy (b2 :: b3 :: rest)
      else replacement :: decodeLossy (b1 :: b2 :: b3 :: rest)

example : decodeLossy (encode "Café — 𝔐".toList) = "Café — 𝔐".toList := by decide

/-- A broken sequence is one replacement, and reading resumes at the byte that broke it. -/
example : decodeLossy [0x41, 0xE2, 0x82, 0x42] = ['A', replacement, 'B'] := by decide

/-! ## One character at a time

What was encoded is decoded, by the number of bytes that it took. -/

theorem decodeLossy_one {b0 : UInt8} (h : width b0 = 1) (rest : List UInt8) :
    decodeLossy (b0 :: rest) = Char.ofNat b0.toNat :: decodeLossy rest := by
  match rest with
  | [] => exact if_pos h
  | [_] => exact if_pos h
  | [_, _] => exact if_pos h
  | _ :: _ :: _ :: _ => exact if_pos h

theorem decodeLossy_two {b0 b1 : UInt8} (h : width b0 = 2) (h1 : isCont b1 = true)
    (rest : List UInt8) : decodeLossy (b0 :: b1 :: rest) = char2 b0 b1 :: decodeLossy rest := by
  have hne : width b0 ≠ 1 := by omega
  match rest with
  | [] => exact (if_neg hne).trans (if_pos ⟨h, h1⟩)
  | [_] => exact (if_neg hne).trans (if_pos ⟨h, h1⟩)
  | _ :: _ :: _ => exact (if_neg hne).trans (if_pos ⟨h, h1⟩)

theorem decodeLossy_three {b0 b1 b2 : UInt8} (h : width b0 = 3) (h1 : second3 b0 b1 = true)
    (h2 : isCont b2 = true) (rest : List UInt8) :
    decodeLossy (b0 :: b1 :: b2 :: rest) = char3 b0 b1 b2 :: decodeLossy rest := by
  have hne : width b0 ≠ 1 ∧ ¬ (width b0 = 2 ∧ isCont b1 = true) := by omega
  match rest with
  | [] => exact (if_neg hne.1).trans ((if_neg hne.2).trans ((if_pos ⟨h, h1⟩).trans (if_pos h2)))
  | _ :: _ =>
      exact (if_neg hne.1).trans ((if_neg hne.2).trans ((if_pos ⟨h, h1⟩).trans (if_pos h2)))

theorem decodeLossy_four {b0 b1 b2 b3 : UInt8} (h : width b0 = 4) (h1 : second4 b0 b1 = true)
    (h2 : isCont b2 = true) (h3 : isCont b3 = true) (rest : List UInt8) :
    decodeLossy (b0 :: b1 :: b2 :: b3 :: rest) = char4 b0 b1 b2 b3 :: decodeLossy rest := by
  have hne : width b0 ≠ 1 ∧ ¬ (width b0 = 2 ∧ isCont b1 = true) ∧
      ¬ (width b0 = 3 ∧ second3 b0 b1 = true) := by omega
  exact (if_neg hne.1).trans ((if_neg hne.2.1).trans ((if_neg hne.2.2).trans
    ((if_pos ⟨h, h1⟩).trans ((if_pos h2).trans (if_pos h3)))))

theorem toNat_ofNat {n : Nat} (h : n < 256) : (UInt8.ofNat n).toNat = n := by
  rw [UInt8.toNat_ofNat']
  exact Nat.mod_eq_of_lt h

theorem isCont_low (v : Nat) : isCont (UInt8.ofNat (v % 64 + 0x80)) = true := by
  unfold isCont
  rw [toNat_ofNat (by omega)]
  simp
  omega

/-- A character is read back, whatever follows it. -/
theorem decodeLossy_encodeChar (c : Char) (rest : List UInt8) :
    decodeLossy (String.utf8EncodeChar c ++ rest) = c :: decodeLossy rest := by
  have hvalid : c.toNat < 0xD800 ∨ (0xDFFF < c.toNat ∧ c.toNat < 0x110000) := c.valid
  have hread : ∀ n, n = c.toNat → Char.ofNat n = c := fun n hn => hn ▸ Char.ofNat_toNat c
  unfold String.utf8EncodeChar
  simp only [show c.val.toNat = c.toNat from rfl]
  -- by the number of bytes that the character takes
  generalize c.toNat = v at *
  split
  · have hv := toNat_ofNat (n := v) (by omega)
    have hwidth : width (UInt8.ofNat v) = 1 := by
      unfold width
      rw [hv]
      exact if_pos (by omega)
    rw [List.singleton_append, decodeLossy_one hwidth, hread _ hv]
  · split
    · have hv := toNat_ofNat (n := v / 64 % 0x20 + 0xC0) (by omega)
      have hw := toNat_ofNat (n := v % 0x40 + 0x80) (by omega)
      have hwidth : width (UInt8.ofNat (v / 64 % 0x20 + 0xC0)) = 2 := by
        unfold width
        rw [hv]
        exact (if_neg (by omega)).trans (if_pos (by omega))
      rw [List.cons_append, List.singleton_append, decodeLossy_two hwidth (isCont_low v), char2,
        hread _ (by rw [hv, hw]; omega)]
    · split
      · have hv := toNat_ofNat (n := v / 4096 % 0x10 + 0xE0) (by omega)
        have hw := toNat_ofNat (n := v / 64 % 0x40 + 0x80) (by omega)
        have hx := toNat_ofNat (n := v % 0x40 + 0x80) (by omega)
        have hwidth : width (UInt8.ofNat (v / 4096 % 0x10 + 0xE0)) = 3 := by
          unfold width
          rw [hv]
          exact (if_neg (by omega)).trans ((if_neg (by omega)).trans (if_pos (by omega)))
        have hsecond : second3 (UInt8.ofNat (v / 4096 % 0x10 + 0xE0))
            (UInt8.ofNat (v / 64 % 0x40 + 0x80)) = true := by
          unfold second3 isCont
          rw [hv, hw]
          dsimp only
          split
          · simp; omega
          · split
            · simp; omega
            · simp; omega
        rw [List.cons_append, List.cons_append, List.singleton_append,
          decodeLossy_three hwidth hsecond (isCont_low v), char3, hread _ (by rw [hv, hw, hx]; omega)]
      · have hv := toNat_ofNat (n := v / 262144 % 0x08 + 0xF0) (by omega)
        have hw := toNat_ofNat (n := v / 4096 % 0x40 + 0x80) (by omega)
        have hx := toNat_ofNat (n := v / 64 % 0x40 + 0x80) (by omega)
        have hy := toNat_ofNat (n := v % 0x40 + 0x80) (by omega)
        have hwidth : width (UInt8.ofNat (v / 262144 % 0x08 + 0xF0)) = 4 := by
          unfold width
          rw [hv]
          exact (if_neg (by omega)).trans ((if_neg (by omega)).trans
            ((if_neg (by omega)).trans (if_pos (by omega))))
        have hsecond : second4 (UInt8.ofNat (v / 262144 % 0x08 + 0xF0))
            (UInt8.ofNat (v / 4096 % 0x40 + 0x80)) = true := by
          unfold second4 isCont
          rw [hv, hw]
          dsimp only
          split
          · simp; omega
          · split
            · simp; omega
            · simp; omega
        rw [List.cons_append, List.cons_append, List.cons_append, List.singleton_append,
          decodeLossy_four hwidth hsecond (isCont_low (v / 64)) (isCont_low v), char4,
          hread _ (by rw [hv, hw, hx, hy]; omega)]

theorem decodeLossy_encode_append (s : List Char) (rest : List UInt8) :
    decodeLossy (encode s ++ rest) = s ++ decodeLossy rest := by
  induction s with
  | nil => rfl
  | cons c s ih =>
      rw [encode, List.flatMap_cons, List.append_assoc, decodeLossy_encodeChar]
      exact congrArg (c :: ·) ih

/-- What was encoded is read back. -/
theorem decodeLossy_encode (s : List Char) : decodeLossy (encode s) = s := by
  have h := decodeLossy_encode_append s []
  rwa [List.append_nil, show decodeLossy [] = [] from rfl, List.append_nil] at h

/-! ## One step of the reader

A step takes one byte or several.  Where it takes several, none of them is ASCII, and what it
gives is no ASCII character either. -/

section Steps

variable {b0 b1 b2 b3 : UInt8}

theorem high_of_width (h : width b0 ≠ 1) : 0x80 ≤ b0.toNat := by
  by_contra hlow
  exact h (if_pos (Nat.not_le.mp hlow))

theorem high_of_isCont (h : isCont b1 = true) : 0x80 ≤ b1.toNat := by
  unfold isCont at h
  simp only [Bool.and_eq_true, decide_eq_true_eq] at h
  exact h.1

theorem high_of_second3 (h : second3 b0 b1 = true) : 0x80 ≤ b1.toNat := by
  unfold second3 at h
  dsimp only at h
  split at h
  · simp only [Bool.and_eq_true, decide_eq_true_eq] at h
    omega
  · split at h
    · simp only [Bool.and_eq_true, decide_eq_true_eq] at h
      exact h.1
    · exact high_of_isCont h

theorem high_of_second4 (h : second4 b0 b1 = true) : 0x80 ≤ b1.toNat := by
  unfold second4 at h
  dsimp only at h
  split at h
  · simp only [Bool.and_eq_true, decide_eq_true_eq] at h
    omega
  · split at h
    · simp only [Bool.and_eq_true, decide_eq_true_eq] at h
      exact h.1
    · exact high_of_isCont h

/-- The lead bytes. -/
theorem width_spec (b0 : UInt8) : (width b0 = 1 → b0.toNat < 0x80) ∧
    (width b0 = 2 → 0xC2 ≤ b0.toNat ∧ b0.toNat ≤ 0xDF) ∧
    (width b0 = 3 → 0xE0 ≤ b0.toNat ∧ b0.toNat ≤ 0xEF) ∧
    (width b0 = 4 → 0xF0 ≤ b0.toNat ∧ b0.toNat ≤ 0xF4) := by
  unfold width
  dsimp only
  split_ifs <;> simp <;> omega

theorem toNat_charOfNat (n : Nat) :
    (Char.ofNat n).toNat = n ∨ ((Char.ofNat n).toNat = 0 ∧ ¬ n.isValidChar) := by
  by_cases hvalid : n.isValidChar
  · refine .inl ?_
    rw [Char.ofNat, dif_pos hvalid]
    rfl
  · refine .inr ⟨?_, hvalid⟩
    rw [Char.ofNat, dif_neg hvalid]
    rfl

/-- An ASCII character is no other number's character. -/
theorem charOfNat_ne {n m : Nat} (hm : 0 < m ∧ m < 0x80) (hne : n ≠ m) :
    Char.ofNat n ≠ Char.ofNat m := by
  intro heq
  have hvalid : m.isValidChar := .inl (by omega)
  have hcode := congrArg Char.toNat heq
  rcases toNat_charOfNat m with hm' | ⟨-, hm'⟩
  · rcases toNat_charOfNat n with hn | ⟨hn, -⟩ <;> omega
  · exact hm' hvalid

/-- A character that is not an ASCII one, the null apart. -/
def Long (c : Char) : Prop := ∀ n, 0 < n ∧ n < 0x80 → c ≠ Char.ofNat n

theorem long_replacement : Long replacement := fun _ hn => charOfNat_ne hn (by omega)

theorem long_char2 (h : width b0 = 2) : Long (char2 b0 b1) := by
  have hlead := (width_spec b0).2.1 h
  exact fun n hn => charOfNat_ne hn (by omega)

theorem long_char3 (h : width b0 = 3) (hsecond : second3 b0 b1 = true) : Long (char3 b0 b1 b2) := by
  have hlead := (width_spec b0).2.2.1 h
  intro n hn
  refine charOfNat_ne hn ?_
  by_cases hfirst : b0.toNat = 0xE0
  · simp only [second3, hfirst, if_true, Bool.and_eq_true, decide_eq_true_eq] at hsecond
    omega
  · omega

theorem long_char4 (h : width b0 = 4) (hsecond : second4 b0 b1 = true) :
    Long (char4 b0 b1 b2 b3) := by
  have hlead := (width_spec b0).2.2.2 h
  intro n hn
  refine charOfNat_ne hn ?_
  by_cases hfirst : b0.toNat = 0xF0
  · simp only [second4, hfirst, if_true, Bool.and_eq_true, decide_eq_true_eq] at hsecond
    omega
  · omega

end Steps

/-- What the reader takes off the front: an ASCII byte, a longer character, or
the bytes of one that breaks off. -/
inductive Taken : List UInt8 → Char → Prop where
  | ascii {b0 : UInt8} : width b0 = 1 → Taken [b0] (Char.ofNat b0.toNat)
  | long {eaten : List UInt8} {c : Char} : (∀ x ∈ eaten, 0x80 ≤ x.toNat) → Long c → Taken eaten c

/-- One step: some bytes are taken, one character is read. -/
def Steps (bytes : List UInt8) : Prop :=
  ∃ c eaten later, bytes = eaten ++ later ∧ eaten ≠ [] ∧ Taken eaten c ∧
    decodeLossy bytes = c :: decodeLossy later

/-- The table of well-formed sequences, case by case. -/
theorem decodeLossy_cons (b0 : UInt8) (rest : List UInt8) : Steps (b0 :: rest) := by
  by_cases h1 : width b0 = 1
  · exact ⟨_, [b0], rest, rfl, List.cons_ne_nil _ _, .ascii h1, decodeLossy_one h1 rest⟩
  -- from here on the first byte is not ASCII
  have hb0 := high_of_width h1
  have halone : ∀ x ∈ [b0], 0x80 ≤ x.toNat := by simpa using hb0
  cases rest with
  | nil => exact ⟨_, [b0], [], rfl, List.cons_ne_nil _ _, .long halone long_replacement, if_neg h1⟩
  | cons b1 rest =>
      by_cases h2 : width b0 = 2 ∧ isCont b1 = true
      · have hb1 := high_of_isCont h2.2
        exact ⟨_, [b0, b1], rest, rfl, List.cons_ne_nil _ _,
          .long (by simpa using ⟨hb0, hb1⟩) (long_char2 h2.1), decodeLossy_two h2.1 h2.2 rest⟩
      by_cases h3 : width b0 = 3 ∧ second3 b0 b1 = true
      · have hb1 := high_of_second3 h3.2
        have hpair : ∀ x ∈ [b0, b1], 0x80 ≤ x.toNat := by simpa using ⟨hb0, hb1⟩
        rcases rest with _ | ⟨b2, rest⟩
        · exact ⟨_, [b0, b1], [], rfl, List.cons_ne_nil _ _, .long hpair long_replacement,
            (if_neg h1).trans ((if_neg h2).trans (if_pos h3))⟩
        · by_cases hb2 : isCont b2 = true
          · have hb2' := high_of_isCont hb2
            exact ⟨_, [b0, b1, b2], rest, rfl, List.cons_ne_nil _ _,
              .long (by simpa using ⟨hb0, hb1, hb2'⟩) (long_char3 h3.1 h3.2),
              decodeLossy_three h3.1 h3.2 hb2 rest⟩
          · refine ⟨_, [b0, b1], b2 :: rest, rfl, List.cons_ne_nil _ _,
              .long hpair long_replacement, ?_⟩
            rcases rest with _ | ⟨b3, rest⟩ <;>
              exact (if_neg h1).trans ((if_neg h2).trans ((if_pos h3).trans (if_neg hb2)))
      by_cases h4 : width b0 = 4 ∧ second4 b0 b1 = true
      · have hb1 := high_of_second4 h4.2
        have hpair : ∀ x ∈ [b0, b1], 0x80 ≤ x.toNat := by simpa using ⟨hb0, hb1⟩
        rcases rest with _ | ⟨b2, rest⟩
        · exact ⟨_, [b0, b1], [], rfl, List.cons_ne_nil _ _, .long hpair long_replacement,
            (if_neg h1).trans ((if_neg h2).trans ((if_neg h3).trans (if_pos h4)))⟩
        · by_cases hb2 : isCont b2 = true
          · have hb2' := high_of_isCont hb2
            have htriple : ∀ x ∈ [b0, b1, b2], 0x80 ≤ x.toNat := by
              simpa using ⟨hb0, hb1, hb2'⟩
            rcases rest with _ | ⟨b3, rest⟩
            · exact ⟨_, [b0, b1, b2], [], rfl, List.cons_ne_nil _ _, .long htriple long_replacement,
                (if_neg h1).trans ((if_neg h2).trans ((if_neg h3).trans ((if_pos h4).trans
                  (if_pos hb2))))⟩
            · by_cases hb3 : isCont b3 = true
              · have hb3' := high_of_isCont hb3
                exact ⟨_, [b0, b1, b2, b3], rest, rfl, List.cons_ne_nil _ _,
                  .long (by simpa using ⟨hb0, hb1, hb2', hb3'⟩) (long_char4 h4.1 h4.2),
                  decodeLossy_four h4.1 h4.2 hb2 hb3 rest⟩
              · exact ⟨_, [b0, b1, b2], b3 :: rest, rfl, List.cons_ne_nil _ _,
                  .long htriple long_replacement,
                  (if_neg h1).trans ((if_neg h2).trans ((if_neg h3).trans ((if_pos h4).trans
                    ((if_pos hb2).trans (if_neg hb3)))))⟩
          · refine ⟨_, [b0, b1], b2 :: rest, rfl, List.cons_ne_nil _ _,
              .long hpair long_replacement, ?_⟩
            rcases rest with _ | ⟨b3, rest⟩ <;>
              exact (if_neg h1).trans ((if_neg h2).trans ((if_neg h3).trans ((if_pos h4).trans
                (if_neg hb2))))
      refine ⟨_, [b0], b1 :: rest, rfl, List.cons_ne_nil _ _, .long halone long_replacement, ?_⟩
      rcases rest with _ | ⟨b2, _ | ⟨b3, rest⟩⟩ <;>
        exact (if_neg h1).trans ((if_neg h2).trans ((if_neg h3).trans (if_neg h4)))

/-- An ASCII byte stands for its character, and nothing else does. -/
theorem count_decodeLossy {b : UInt8} (hb : 0 < b.toNat ∧ b.toNat < 0x80) (bytes : List UInt8) :
    (decodeLossy bytes).count (Char.ofNat b.toNat) = bytes.count b := by
  -- Each step takes bytes off, so the induction is on how many there are.
  induction hlen : bytes.length using Nat.strong_induction_on generalizing bytes with
  | _ n ih =>
      cases bytes with
      | nil => rfl
      | cons b0 rest =>
          obtain ⟨c, eaten, later, hsplit, hne, htaken, hread⟩ := decodeLossy_cons b0 rest
          have hshort : later.length < n := by
            rw [← hlen, hsplit, List.length_append]
            exact Nat.lt_add_of_pos_left (List.length_pos_of_ne_nil hne)
          rw [hread, hsplit, List.count_append, ← ih later.length hshort later rfl]
          cases htaken with
          | @ascii x hx =>
              by_cases hxb : x = b
              · rw [hxb, List.count_cons_self, List.count_singleton_self, Nat.add_comm]
              · have hxb' : Char.ofNat x.toNat ≠ Char.ofNat b.toNat :=
                  charOfNat_ne hb fun heq => hxb (UInt8.toNat_inj.mp heq)
                have hnone : List.count b [x] = 0 :=
                  List.count_eq_zero_of_not_mem (by simpa using Ne.symm hxb)
                rw [List.count_cons_of_ne hxb', hnone, Nat.zero_add]
          | long heaten hc =>
              have hnone : eaten.count b = 0 := List.count_eq_zero_of_not_mem fun hmem =>
                absurd (heaten b hmem) (Nat.not_le.mpr hb.2)
              rw [List.count_cons_of_ne (hc _ hb), hnone, Nat.zero_add]

/-- An ASCII character is written as its byte, and no other character holds it. -/
theorem mem_encode_iff {b : UInt8} (hb : 0 < b.toNat ∧ b.toNat < 0x80) (s : List Char) :
    b ∈ encode s ↔ Char.ofNat b.toNat ∈ s := by
  have hcount := count_decodeLossy hb (encode s)
  rw [decodeLossy_encode] at hcount
  rw [← List.count_pos_iff, ← List.count_pos_iff, hcount]

end GrpcEpub.Utf8
