/-
# `GrpcEpub.Numbers` — which numbers the standard parser reads

The standard `f64` parser reads decimals, and more than those: signs, exponents, a point with
digits on one side of it, and the names of infinity and of no number, in any case.  `Extra` is
what it reads beside the decimals, production by production, and `parseF64_iff` says that it
reads nothing else.

The parser is modelled by how a number is cut: a sign, then a name or a mantissa with a power,
and a mantissa at its first point.  No rounding is modelled, and none is needed to say which texts
are read.
-/
import GrpcEpub.Readings
import GrpcEpub.Smil

namespace GrpcEpub

namespace Smil

open Datetime

/-! ## The `f64` parser, without rounding -/

def wholeNumber (text : Str) : Option Nat :=
  if text ≠ [] ∧ text.all isDigit = true then some (number text) else none

/-- The power of ten behind a number, nothing being none. -/
def exponent : Str → Option Int
  | [] => some 0
  | mark :: rest =>
      if mark = 'e' ∨ mark = 'E' then
        match rest with
        | '-' :: digits => (wholeNumber digits).map fun n : Nat => -(n : Int)
        | '+' :: digits => (wholeNumber digits).map Int.ofNat
        | digits => (wholeNumber digits).map Int.ofNat
      else none

/-- Digits, a point somewhere among them, and an exponent. -/
def plainNumber (text : Str) : Option Rat :=
  let whole := text.takeWhile isDigit
  let behind := text.dropWhile isDigit
  let fraction := if behind.head? = some '.' then behind.tail.takeWhile isDigit else []
  let rest := if behind.head? = some '.' then behind.tail.dropWhile isDigit else behind
  if whole = [] ∧ fraction = [] then none
  else (exponent rest).map fun power =>
    ((number whole : Rat) + (number fraction : Rat) / 10 ^ fraction.length) * (10 : Rat) ^ power

/-- A number behind its sign, or one of the three names in any case. -/
def unsignedF64 (negative : Bool) (text : Str) : Option Real64 :=
  if text.eqIgnoreAsciiCase "nan" then some .nan
  else if text.eqIgnoreAsciiCase "inf" ∨ text.eqIgnoreAsciiCase "infinity" then
    some (if negative then .negInf else .posInf)
  else (plainNumber text).map fun q => .finite (if negative then -q else q)

/-- `str::parse::<f64>`. -/
def parseF64 : Str → Option Real64
  | '-' :: rest => unsignedF64 true rest
  | '+' :: rest => unsignedF64 false rest
  | text => unsignedF64 false text

/-! ## What it reads -/

/-- Digits with an optional fraction, and the number they stand for. -/
inductive Decimal : Str → Rat → Prop where
  | whole {digits : Str} : Digits digits → digits ≠ [] → Decimal digits (number digits)
  | fraction {whole fraction : Str} : Digits whole → whole ≠ [] → Digits fraction →
      fraction ≠ [] → Decimal (whole ++ '.' :: fraction)
        ((number whole : Rat) + (number fraction : Rat) / 10 ^ fraction.length)

/-- Digits, with a point somewhere among them or at an end. -/
inductive Mantissa : Str → Rat → Prop where
  | whole {digits : Str} : Digits digits → digits ≠ [] → Mantissa digits (number digits)
  | pointed {whole fraction : Str} : Digits whole → Digits fraction →
      whole ≠ [] ∨ fraction ≠ [] → Mantissa (whole ++ '.' :: fraction)
        ((number whole : Rat) + (number fraction : Rat) / 10 ^ fraction.length)

/-- A power of ten. -/
inductive Power : Str → Int → Prop where
  | plain {mark : Char} {digits : Str} : mark = 'e' ∨ mark = 'E' → Digits digits → digits ≠ [] →
      Power (mark :: digits) (number digits)
  | plus {mark : Char} {digits : Str} : mark = 'e' ∨ mark = 'E' → Digits digits → digits ≠ [] →
      Power (mark :: '+' :: digits) (number digits)
  | minus {mark : Char} {digits : Str} : mark = 'e' ∨ mark = 'E' → Digits digits → digits ≠ [] →
      Power (mark :: '-' :: digits) (-(number digits : Int))

/-- What can stand behind a sign. -/
inductive Magnitude : Str → Real64 → Prop where
  | mantissa {text : Str} {q : Rat} : Mantissa text q → Magnitude text (.finite q)
  | power {text rest : Str} {q : Rat} {n : Int} : Mantissa text q → Power rest n →
      Magnitude (text ++ rest) (.finite (q * 10 ^ n))
  | nan {text : Str} : text.eqIgnoreAsciiCase "nan" = true → Magnitude text .nan
  | infinity {text : Str} :
      text.eqIgnoreAsciiCase "inf" = true ∨ text.eqIgnoreAsciiCase "infinity" = true →
        Magnitude text .posInf

/-- The other sign. -/
def negated : Real64 → Real64
  | .finite q => .finite (-q)
  | .posInf => .negInf
  | .negInf => .posInf
  | .nan => .nan

/-- What is read and is no decimal. -/
inductive Extra : Str → Real64 → Prop where
  | minus {text : Str} {value : Real64} : Magnitude text value → Extra ('-' :: text) (negated value)
  | plus {text : Str} {value : Real64} : Magnitude text value → Extra ('+' :: text) value
  | leading {fraction : Str} : Digits fraction → fraction ≠ [] →
      Extra ('.' :: fraction) (.finite ((number fraction : Rat) / 10 ^ fraction.length))
  | trailing {whole : Str} : Digits whole → whole ≠ [] →
      Extra (whole ++ ['.']) (.finite (number whole))
  | power {text rest : Str} {q : Rat} {n : Int} : Mantissa text q → Power rest n →
      Extra (text ++ rest) (.finite (q * 10 ^ n))
  | nan {text : Str} : text.eqIgnoreAsciiCase "nan" = true → Extra text .nan
  | infinity {text : Str} :
      text.eqIgnoreAsciiCase "inf" = true ∨ text.eqIgnoreAsciiCase "infinity" = true →
        Extra text .posInf

/-! ## Decimals

Digits, and a point with digits on both sides of it if there is one. -/

namespace Decimal

variable {text : Str} {value : Rat} (h : Decimal text value)
include h

/-- It starts with a digit. -/
theorem starts : ∃ n : Fin 10, ∃ rest, text = digitChar n :: rest := by
  have hfirst {digits : Str} (hdigits : Digits digits) (hne : digits ≠ []) :
      ∃ n : Fin 10, ∃ rest, digits = digitChar n :: rest := by
    obtain ⟨c, rest, rfl⟩ := List.exists_cons_of_ne_nil hne
    obtain ⟨n, rfl⟩ := hdigits c (.head _)
    exact ⟨n, rest, rfl⟩
  cases h with
  | whole hdigits hne => exact hfirst hdigits hne
  | fraction hwhole hne _ _ =>
      obtain ⟨n, rest, rfl⟩ := hfirst hwhole hne
      exact ⟨n, _, rfl⟩

/-- It ends with one. -/
theorem ends : ∃ front, ∃ n : Fin 10, text = front ++ [digitChar n] := by
  have hlast {digits : Str} (hdigits : Digits digits) (hne : digits ≠ []) :
      ∃ front, ∃ n : Fin 10, digits = front ++ [digitChar n] := by
    obtain ⟨front, c, rfl⟩ := List.eq_nil_or_concat digits |>.resolve_left hne
    rw [List.concat_eq_append] at hdigits ⊢
    obtain ⟨n, rfl⟩ := hdigits c (List.mem_append_right _ (.head _))
    exact ⟨front, n, rfl⟩
  cases h with
  | whole hdigits hne => exact hlast hdigits hne
  | @fraction whole _ _ _ hfraction hne =>
      obtain ⟨front, n, rfl⟩ := hlast hfraction hne
      exact ⟨whole ++ '.' :: front, n, by simp⟩

/-- Nothing in it is a blank or a colon. -/
theorem plain : ∀ c ∈ text, Str.isWhitespace c = false ∧ c ≠ ':' := by
  have hdigit {digits : Str} (hdigits : Digits digits) :
      ∀ c ∈ digits, Str.isWhitespace c = false ∧ c ≠ ':' := by
    intro c hc
    have hcolon : ':' ∉ digits := hdigits.not_mem (by decide)
    refine ⟨?_, fun heq => hcolon (heq ▸ hc)⟩
    obtain ⟨n, rfl⟩ := hdigits c hc
    exact (digitChar_spec n).2.2.2.2.2.1
  cases h with
  | whole hdigits _ => exact hdigit hdigits
  | fraction hwhole _ hfraction _ =>
      intro c hc
      rcases List.mem_append.mp hc with hc | hc
      · exact hdigit hwhole c hc
      rcases List.mem_cons.mp hc with rfl | hc
      · decide
      · exact hdigit hfraction c hc

/-- All of it is digits, but for a point. -/
theorem chars : ∀ c ∈ text, isDigit c = true ∨ c = '.' := by
  cases h with
  | whole hdigits _ => exact fun c hc => .inl (isDigit_iff.mpr (hdigits c hc))
  | fraction hwhole _ hfraction _ =>
      intro c hc
      rcases List.mem_append.mp hc with hc | hc
      · exact .inl (isDigit_iff.mpr (hwhole c hc))
      rcases List.mem_cons.mp hc with rfl | hc
      · exact .inr rfl
      · exact .inl (isDigit_iff.mpr (hfraction c hc))

theorem nonneg : 0 ≤ value := by
  cases h with
  | whole _ _ => exact Nat.cast_nonneg _
  | fraction _ _ _ _ => positivity

end Decimal

/-! ## A mantissa and its power

Where the digits end is where a power has to start. -/

/-- The text of some digits is cut where they end. -/
theorem takeWhile_digits {digits rest : Str} (hdigits : Digits digits)
    (hrest : ∀ c ∈ rest.head?, isDigit c = false) :
    (digits ++ rest).takeWhile isDigit = digits ∧ (digits ++ rest).dropWhile isDigit = rest := by
  have hall : ∀ c ∈ digits, isDigit c = true := List.all_eq_true.mp hdigits.all
  rw [List.takeWhile_append_of_pos hall, List.dropWhile_append_of_pos hall]
  cases rest with
  | nil => simp
  | cons c rest =>
      have hc := hrest c rfl
      rw [List.takeWhile_cons_of_neg (by simp [hc]), List.dropWhile_cons_of_neg (by simp [hc])]
      exact ⟨List.append_nil _, rfl⟩

theorem wholeNumber_iff {text : Str} {n : Nat} :
    wholeNumber text = some n ↔ Digits text ∧ text ≠ [] ∧ n = number text := by
  unfold wholeNumber
  rw [Option.ite_none_right_eq_some, digits_iff]
  constructor
  · rintro ⟨⟨hne, hall⟩, heq⟩
    exact ⟨hall, hne, (Option.some.inj heq).symm⟩
  · rintro ⟨hall, hne, rfl⟩
    exact ⟨⟨hne, hall⟩, rfl⟩

/-- Behind a mantissa there is nothing, or a power. -/
theorem exponent_iff {rest : Str} {n : Int} :
    exponent rest = some n ↔ rest = [] ∧ n = 0 ∨ Power rest n := by
  constructor
  · intro h
    cases rest with
    | nil => exact .inl ⟨rfl, (Option.some.inj h).symm⟩
    | cons mark rest =>
        unfold exponent at h
        rw [Option.ite_none_right_eq_some] at h
        obtain ⟨hmark, h⟩ := h
        refine .inr ?_
        split at h
        all_goals
          obtain ⟨m, hm, rfl⟩ := Option.map_eq_some_iff.mp h
          obtain ⟨hdigits, hne, rfl⟩ := wholeNumber_iff.mp hm
        · exact .minus hmark hdigits hne
        · exact .plus hmark hdigits hne
        · exact .plain hmark hdigits hne
  · rintro (⟨rfl, rfl⟩ | h)
    · rfl
    · cases h with
      | @plain mark digits hmark hdigits hne =>
          have hsign : ∀ n : Fin 10, digitChar n ≠ '-' ∧ digitChar n ≠ '+' := by decide
          obtain ⟨c, more, rfl⟩ := List.exists_cons_of_ne_nil hne
          obtain ⟨k, rfl⟩ := hdigits c (.head _)
          unfold exponent
          dsimp only
          rw [if_pos hmark]
          split
          · rename_i heq
            exact absurd (List.cons.inj heq).1 (hsign k).1
          · rename_i heq
            exact absurd (List.cons.inj heq).1 (hsign k).2
          · rw [wholeNumber_iff.mpr ⟨hdigits, hne, rfl⟩]
            rfl
      | plus hmark hdigits hne =>
          rw [exponent, if_pos hmark, wholeNumber_iff.mpr ⟨hdigits, hne, rfl⟩]
          rfl
      | minus hmark hdigits hne =>
          rw [exponent, if_pos hmark, wholeNumber_iff.mpr ⟨hdigits, hne, rfl⟩]
          rfl

/-- A power starts with neither a digit nor a point. -/
theorem Power.head {rest : Str} {n : Int} (h : Power rest n) :
    ∀ c ∈ rest.head?, isDigit c = false ∧ c ≠ '.' := by
  have hmark {mark : Char} (h : mark = 'e' ∨ mark = 'E') : isDigit mark = false ∧ mark ≠ '.' := by
    rcases h with rfl | rfl
    · decide
    · decide
  intro c hc
  cases h with
  | plain h _ _ => exact Option.some.inj hc ▸ hmark h
  | plus h _ _ => exact Option.some.inj hc ▸ hmark h
  | minus h _ _ => exact Option.some.inj hc ▸ hmark h

/-- A mantissa is read up to its end. -/
theorem Mantissa.numbered {text rest : Str} {q : Rat} (h : Mantissa text q)
    (hrest : ∀ c ∈ rest.head?, isDigit c = false ∧ c ≠ '.') :
    plainNumber (text ++ rest) = (exponent rest).map fun power => q * (10 : Rat) ^ power := by
  have hdigit : ∀ c ∈ rest.head?, isDigit c = false := fun c hc => (hrest c hc).1
  unfold plainNumber
  cases h with
  | whole hdigits hne =>
      obtain ⟨htake, hdrop⟩ := takeWhile_digits hdigits hdigit
      have hpoint : rest.head? ≠ some '.' := fun heq => (hrest '.' heq).2 rfl
      simp [htake, hdrop, hpoint, hne, number]
  | @pointed whole fraction hwhole hfraction hne =>
      obtain ⟨htake, hdrop⟩ := @takeWhile_digits whole ('.' :: (fraction ++ rest)) hwhole
        fun c hc => Option.some.inj hc ▸ by decide
      obtain ⟨htake', hdrop'⟩ := takeWhile_digits hfraction hdigit
      rw [List.append_assoc, List.cons_append, htake, hdrop]
      simp only [List.head?_cons, List.tail_cons, if_true, htake', hdrop']
      rw [if_neg fun hboth => hne.elim (· hboth.1) (· hboth.2)]

/-- What is read behind a mantissa is a power, if there is more. -/
theorem Mantissa.scaled {front rest : Str} {q value : Rat} (hmantissa : Mantissa front q)
    (hpower : (exponent rest).map (fun power => q * (10 : Rat) ^ power) = some value) :
    Mantissa (front ++ rest) value ∨ ∃ front' rest' q' n, front ++ rest = front' ++ rest' ∧
      Mantissa front' q' ∧ Power rest' n ∧ value = q' * 10 ^ n := by
  obtain ⟨n, hn, rfl⟩ := Option.map_eq_some_iff.mp hpower
  rcases exponent_iff.mp hn with ⟨rfl, rfl⟩ | hn
  · rw [List.append_nil, zpow_zero, mul_one]
    exact .inl hmantissa
  · exact .inr ⟨front, rest, q, n, rfl, hmantissa, hn, rfl⟩

/-- A number without a sign is a mantissa, with a power or without. -/
theorem plainNumber_iff {text : Str} {value : Rat} : plainNumber text = some value ↔
    Mantissa text value ∨ ∃ front rest q n, text = front ++ rest ∧ Mantissa front q ∧
      Power rest n ∧ value = q * 10 ^ n := by
  constructor
  · intro h
    have hcut (text : Str) : text = text.takeWhile isDigit ++ text.dropWhile isDigit :=
      List.takeWhile_append_dropWhile.symm
    have htaken (text : Str) : Digits (text.takeWhile isDigit) :=
      digits_iff.mpr List.all_takeWhile
    unfold plainNumber at h
    dsimp only at h
    by_cases hpoint : (text.dropWhile isDigit).head? = some '.'
    · obtain ⟨behind, hbehind⟩ := List.head?_eq_some_iff.mp hpoint
      rw [if_pos hpoint, if_pos hpoint, hbehind, List.tail_cons] at h
      split at h
      · cases h
      · rename_i hne
        have hmantissa := Mantissa.pointed (htaken text) (htaken behind) (not_and_or.mp hne)
        have hread := hmantissa.scaled h
        rwa [List.append_assoc, List.cons_append, ← hcut behind, ← hbehind, ← hcut text] at hread
    · rw [if_neg hpoint, if_neg hpoint] at h
      split at h
      · cases h
      · rename_i hne
        have hwhole : text.takeWhile isDigit ≠ [] := fun hnil => hne ⟨hnil, rfl⟩
        have hpower : (exponent (text.dropWhile isDigit)).map
            (fun power => number (text.takeWhile isDigit) * (10 : Rat) ^ power) = some value := by
          simpa [number] using h
        have hread := (Mantissa.whole (htaken text) hwhole).scaled hpower
        rwa [← hcut text] at hread
  · rintro (h | ⟨front, rest, q, n, rfl, hmantissa, hpower, rfl⟩)
    · have hnumbered := @Mantissa.numbered text [] value h (by simp)
      rw [List.append_nil] at hnumbered
      rw [hnumbered]
      simp [exponent]
    · rw [hmantissa.numbered hpower.head, exponent_iff.mpr (.inr hpower)]
      rfl

/-! ## Names and signs

A name begins with a letter and a mantissa does not, so at most one of the two readings of a text
succeeds.  A sign is taken off first, once. -/

/-- The names of what is not a number. -/
def names : List Str := ["nan", "inf", "infinity"]

theorem names_letter {name : Str} (h : name ∈ names) : ∃ d rest, name = d :: rest ∧
    isDigit d.toLower = false ∧ d.toLower ≠ '.' := by
  obtain rfl | rfl | rfl : name = "nan".toList ∨ name = "inf".toList ∨ name = "infinity".toList := by
    simpa [names] using h
  · exact ⟨'n', "an".toList, rfl, by decide, by decide⟩
  · exact ⟨'i', "nf".toList, rfl, by decide, by decide⟩
  · exact ⟨'i', "nfinity".toList, rfl, by decide, by decide⟩

/-- What starts with a digit or a point is not a name, whatever the case of its letters. -/
theorem not_named {c : Char} {rest name : Str} (h : isDigit c = true ∨ c = '.')
    (hname : name ∈ names) : Str.eqIgnoreAsciiCase (c :: rest) name = false := by
  have hdigit : ∀ n : Fin 10, isDigit (digitChar n).toLower = true := by decide
  obtain ⟨d, name, rfl, hletter, hpoint⟩ := names_letter hname
  refine beq_eq_false_iff_ne.mpr fun heq => ?_
  have hsame : c.toLower = d.toLower := (List.cons.inj heq).1
  rcases h with h | rfl
  · obtain ⟨n, rfl⟩ := isDigit_iff.mp h
    exact Bool.false_ne_true (hletter.symm.trans (hsame ▸ hdigit n))
  · exact hpoint (hsame.symm.trans (by decide))

/-- It starts with a digit or a point. -/
theorem Mantissa.starts {text : Str} {q : Rat} (h : Mantissa text q) :
    ∃ c rest, text = c :: rest ∧ (isDigit c = true ∨ c = '.') := by
  have hfirst {digits more : Str} (hdigits : Digits digits) (hne : digits ≠ []) :
      ∃ c rest, digits ++ more = c :: rest ∧ (isDigit c = true ∨ c = '.') := by
    obtain ⟨c, rest, rfl⟩ := List.exists_cons_of_ne_nil hne
    exact ⟨c, rest ++ more, rfl, .inl (isDigit_iff.mpr (hdigits c (.head _)))⟩
  cases h with
  | whole hdigits hne =>
      have hstart := @hfirst _ [] hdigits hne
      rwa [List.append_nil] at hstart
  | @pointed whole fraction hwhole _ _ =>
      cases whole with
      | nil => exact ⟨'.', fraction, rfl, .inr rfl⟩
      | cons c whole => exact hfirst hwhole (List.cons_ne_nil c whole)

/-- What is read behind a sign, or without one. -/
theorem unsignedF64_false {text : Str} {value : Real64} :
    unsignedF64 false text = some value ↔ Magnitude text value := by
  -- a number is none of the names
  have hnumber {front rest : Str} {q : Rat} (h : Mantissa front q) :
      unsignedF64 false (front ++ rest) = (plainNumber (front ++ rest)).map .finite := by
    obtain ⟨c, more, rfl, hc⟩ := h.starts
    unfold unsignedF64
    rw [List.cons_append, not_named hc (by simp [names]), not_named hc (by simp [names]),
      not_named hc (by simp [names])]
    rfl
  constructor
  · intro h
    unfold unsignedF64 at h
    split at h
    · rename_i hnan
      exact Option.some.inj h ▸ .nan hnan
    split at h
    · rename_i hinf
      exact Option.some.inj h ▸ .infinity hinf
    obtain ⟨q, hq, rfl⟩ := Option.map_eq_some_iff.mp h
    rcases plainNumber_iff.mp hq with hmantissa | ⟨front, rest, m, n, rfl, hmantissa, hpower, rfl⟩
    · exact .mantissa hmantissa
    · exact .power hmantissa hpower
  · intro h
    cases h with
    | mantissa hmantissa =>
        have hread := @hnumber _ [] _ hmantissa
        rw [List.append_nil] at hread
        rw [hread, plainNumber_iff.mpr (.inl hmantissa)]
        rfl
    | power hmantissa hpower =>
        rw [hnumber hmantissa,
          plainNumber_iff.mpr (.inr ⟨_, _, _, _, rfl, hmantissa, hpower, rfl⟩)]
        rfl
    | nan hnan => exact if_pos hnan
    | infinity hinf =>
        have hother : text.eqIgnoreAsciiCase "nan" = false := by
          refine beq_eq_false_iff_ne.mpr fun hnan => ?_
          rcases hinf with hinf | hinf
          · exact absurd (hnan.symm.trans (eq_of_beq hinf)) (by decide)
          · exact absurd (hnan.symm.trans (eq_of_beq hinf)) (by decide)
        unfold unsignedF64
        rw [hother, if_neg Bool.false_ne_true, if_pos hinf]
        rfl

theorem unsignedF64_true (text : Str) :
    unsignedF64 true text = (unsignedF64 false text).map negated := by
  unfold unsignedF64
  split
  · rfl
  split
  · rfl
  · cases plainNumber text <;> rfl

/-- What stands behind a sign has none. -/
theorem Magnitude.unsigned {text : Str} {value : Real64} (h : Magnitude text value) :
    text.head? ≠ some '-' ∧ text.head? ≠ some '+' := by
  have hnumber {front rest : Str} {q : Rat} (h : Mantissa front q) :
      (front ++ rest).head? ≠ some '-' ∧ (front ++ rest).head? ≠ some '+' := by
    obtain ⟨c, more, rfl, hc⟩ := h.starts
    have hsign : isDigit c = true ∨ c = '.' → c ≠ '-' ∧ c ≠ '+' := by
      rintro (hdigit | rfl)
      · constructor
        · rintro rfl
          cases hdigit
        · rintro rfl
          cases hdigit
      · decide
    exact ⟨fun heq => (hsign hc).1 (Option.some.inj heq), fun heq =>
      (hsign hc).2 (Option.some.inj heq)⟩
  have hname {name : Str} (h : text.eqIgnoreAsciiCase name = true)
      (hfirst : name.toAsciiLowercase.head? ≠ some '-' ∧ name.toAsciiLowercase.head? ≠ some '+') :
      text.head? ≠ some '-' ∧ text.head? ≠ some '+' := by
    have hsame : text.toAsciiLowercase = name.toAsciiLowercase := eq_of_beq h
    rw [← hsame, Str.toAsciiLowercase, List.head?_map] at hfirst
    exact ⟨fun heq => hfirst.1 (by rw [heq]; rfl), fun heq => hfirst.2 (by rw [heq]; rfl)⟩
  cases h with
  | mantissa hmantissa =>
      have hhead := @hnumber _ [] _ hmantissa
      rwa [List.append_nil] at hhead
  | power hmantissa _ => exact hnumber hmantissa
  | nan hnan => exact hname hnan (by decide)
  | infinity hinf =>
      rcases hinf with hinf | hinf
      · exact hname hinf (by decide)
      · exact hname hinf (by decide)

theorem parseF64_unsigned {text : Str} (hminus : text.head? ≠ some '-')
    (hplus : text.head? ≠ some '+') : parseF64 text = unsignedF64 false text := by
  unfold parseF64
  split
  · exact absurd rfl hminus
  · exact absurd rfl hplus
  · rfl

theorem Magnitude.parsed {text : Str} {value : Real64} (h : Magnitude text value) :
    parseF64 text = some value :=
  (parseF64_unsigned h.unsigned.1 h.unsigned.2).trans (unsignedF64_false.mpr h)

theorem Decimal.mantissa {text : Str} {value : Rat} (h : Decimal text value) :
    Mantissa text value := by
  cases h with
  | whole hdigits hne => exact .whole hdigits hne
  | fraction hwhole hne hfraction _ => exact .pointed hwhole hfraction (.inl hne)

theorem Decimal.parsed {text : Str} {value : Rat} (h : Decimal text value) :
    parseF64 text = some (.finite value) := (Magnitude.mantissa h.mantissa).parsed

/-- What stands behind a sign is a decimal, or is read without being one. -/
theorem Magnitude.cases {text : Str} {value : Real64} (h : Magnitude text value) :
    (∃ q, Decimal text q ∧ value = .finite q) ∨ Extra text value := by
  cases h with
  | mantissa hmantissa =>
      cases hmantissa with
      | whole hdigits hne => exact .inl ⟨_, .whole hdigits hne, rfl⟩
      | @pointed whole fraction hwhole hfraction hne =>
          by_cases hwholeNil : whole = []
          · subst hwholeNil
            have hextra := Extra.leading hfraction (hne.resolve_left fun h => h rfl)
            simpa [number] using Or.inr hextra
          · by_cases hfractionNil : fraction = []
            · subst hfractionNil
              have hextra := Extra.trailing hwhole hwholeNil
              simpa [number] using Or.inr hextra
            · exact .inl ⟨_, .fraction hwhole hwholeNil hfraction hfractionNil, rfl⟩
  | power hmantissa hpower => exact .inr (.power hmantissa hpower)
  | nan hnan => exact .inr (.nan hnan)
  | infinity hinf => exact .inr (.infinity hinf)

/-- Each production is read, and as the value it names. -/
theorem Extra.parsed {text : Str} {value : Real64} (h : Extra text value) :
    parseF64 text = some value := by
  cases h with
  | minus h =>
      change unsignedF64 true _ = _
      rw [unsignedF64_true, unsignedF64_false.mpr h]
      rfl
  | plus h => exact unsignedF64_false.mpr h
  | @leading fraction hfraction hne =>
      have hread := (Magnitude.mantissa (.pointed (List.forall_mem_nil _) hfraction (.inr hne))).parsed
      simpa [number] using hread
  | @trailing whole hwhole hne =>
      have hread := (Magnitude.mantissa (.pointed hwhole (List.forall_mem_nil _) (.inl hne))).parsed
      simpa [number] using hread
  | power hmantissa hpower => exact (Magnitude.power hmantissa hpower).parsed
  | nan hnan => exact (Magnitude.nan hnan).parsed
  | infinity hinf => exact (Magnitude.infinity hinf).parsed

/-- The standard parser reads the decimals, and what is spelled out beside them. -/
theorem parseF64_iff {text : Str} {value : Real64} : parseF64 text = some value ↔
    (∃ q, Decimal text q ∧ value = .finite q) ∨ Extra text value := by
  constructor
  · intro h
    unfold parseF64 at h
    split at h
    · rw [unsignedF64_true] at h
      obtain ⟨inner, hinner, rfl⟩ := Option.map_eq_some_iff.mp h
      exact .inr (.minus (unsignedF64_false.mp hinner))
    · exact .inr (.plus (unsignedF64_false.mp h))
    · exact (unsignedF64_false.mp h).cases
  · rintro (⟨q, hdecimal, rfl⟩ | hextra)
    · exact hdecimal.parsed
    · exact hextra.parsed

/-- Nothing that is spelled out beside the decimals is one. -/
theorem Extra.not_decimal {text : Str} {value : Real64} (h : Extra text value) (q : Rat) :
    ¬ Decimal text q := by
  intro hdecimal
  have hsign : ∀ n : Fin 10, '-' ≠ digitChar n ∧ '+' ≠ digitChar n ∧ '.' ≠ digitChar n := by decide
  have hname {name : Str} (hin : name ∈ names) (hname : text.eqIgnoreAsciiCase name = true) :
      False := by
    obtain ⟨c, rest, rfl, hc⟩ := hdecimal.mantissa.starts
    exact Bool.false_ne_true ((not_named hc hin).symm.trans hname)
  cases h with
  | minus _ =>
      obtain ⟨n, rest, heq⟩ := hdecimal.starts
      exact (hsign n).1 (List.cons.inj heq).1
  | plus _ =>
      obtain ⟨n, rest, heq⟩ := hdecimal.starts
      exact (hsign n).2.1 (List.cons.inj heq).1
  | leading _ _ =>
      obtain ⟨n, rest, heq⟩ := hdecimal.starts
      exact (hsign n).2.2 (List.cons.inj heq).1
  | trailing _ _ =>
      obtain ⟨front, n, heq⟩ := hdecimal.ends
      exact (hsign n).2.2 (List.cons.inj (List.append_inj_right' heq rfl)).1
  | @power front rest _ _ _ hpower =>
      cases rest with
      | nil => cases hpower
      | cons mark rest =>
          obtain ⟨hdigit, hpoint⟩ := hpower.head mark rfl
          rcases hdecimal.chars mark (List.mem_append_right _ (.head _)) with h | h
          · exact Bool.false_ne_true (hdigit.symm.trans h)
          · exact hpoint h
  | nan hnan => exact hname (by simp [names]) hnan
  | infinity hinf => exact hinf.elim (hname (by simp [names])) (hname (by simp [names]))

end Smil

end GrpcEpub
