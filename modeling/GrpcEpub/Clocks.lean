/-
# `GrpcEpub.Clocks` — which clock values are read

`Smil.parseClock` leaves numbers to the standard `f64` parser, which reads more than decimals
(`Extra`), and trims the fields around them.  `ClockValue` is the grammar of the documentation,
`Loose` what is read beside it: an extra number, a blank, a fraction in front of the last field,
or sixty minutes or seconds.
-/
import GrpcEpub.Numbers

namespace GrpcEpub

namespace Smil

open Datetime

/-! ## Clock values

The grammar of the documentation, and what is read beside it. -/

/-- `[hours:]minutes:seconds[.fraction]`, in fields. -/
inductive FullClock : List Str → Rat → Prop where
  | minutes {minutes seconds : Str} {value : Rat} : Digits minutes → minutes ≠ [] →
      number minutes < 60 → Decimal seconds value → value < 60 →
        FullClock [minutes, seconds] (60 * (number minutes : Rat) + value)
  | hours {hours minutes seconds : Str} {value : Rat} : Digits hours → hours ≠ [] →
      Digits minutes → minutes ≠ [] → number minutes < 60 → Decimal seconds value → value < 60 →
        FullClock [hours, minutes, seconds]
          (3600 * (number hours : Rat) + 60 * (number minutes : Rat) + value)

/-- The clock values of the documentation, and their seconds. -/
inductive ClockValue : Str → Rat → Prop where
  | full {fields : List Str} {seconds : Rat} : FullClock fields seconds →
      ClockValue ([':'].intercalate fields) seconds
  | timecount {count unit : Str} {value scale : Rat} : Decimal count value →
      (unit, scale) ∈ clockUnits → ClockValue (count ++ unit) (value * scale)
  | bare {count : Str} {value : Rat} : Decimal count value → ClockValue count value

/-- What is read is a clock value, and its seconds; and every clock value is read. -/
def ReadsClock (raw : Str) : Prop :=
  ∀ value, parseClock parseF64 raw = some value ↔
    ∃ seconds : Rat, 0 ≤ seconds ∧ value = .finite seconds ∧ ClockValue raw.trim seconds

/-- What is in front of the first of the units that a text ends in, and its scale. -/
def unitOf (value : Str) : List (Str × Rat) → Option (Str × Rat)
  | [] => none
  | (unit, scale) :: rest =>
      match value.stripSuffix unit with
      | some count => some (count, scale)
      | none => unitOf value rest

/-- A decimal, or what else is read as a number, that this is true of. -/
def Read (test : Real64 → Bool) (text : Str) : Prop :=
  ∃ value, ((∃ q, Decimal text q ∧ value = .finite q) ∨ Extra text value) ∧ test value = true

/-- Not below zero, which no number is not either. -/
def unsigned (value : Real64) : Bool := !value.isNegative

/-- A finite one that is not below zero. -/
def countable (value : Real64) : Bool := value.isNonNegative && value.isFinite

/-- What the fields of a clock value have not. -/
inductive OffClock (fields : List Str) : Prop where
  | blank {part : Str} : part ∈ fields → part.trim ≠ part → OffClock fields
  | extra {part : Str} {value : Real64} : part ∈ fields → Extra part.trim value → OffClock fields
  /-- In front of the last field. -/
  | fraction {part : Str} : part ∈ fields.dropLast → '.' ∈ part → OffClock fields
  /-- Minutes or seconds. -/
  | sixty {part : Str} {value : Rat} : part ∈ fields.drop (fields.length - 2) →
      Decimal part value → 60 ≤ value → OffClock fields

/-- What is read beside the grammar. -/
inductive Loose (text : Str) : Prop where
  /-- Two or three fields that are read, but are none of a clock value. -/
  | full : ':' ∈ text → (text.splitOn ':').length = 2 ∨ (text.splitOn ':').length = 3 →
      (∀ part ∈ text.splitOn ':', Read unsigned (Str.trim part)) →
      OffClock (text.splitOn ':') → Loose text
  /-- A number with a unit that is no decimal. -/
  | timecount {count : Str} {scale : Rat} {value : Real64} : ':' ∉ text →
      unitOf text clockUnits = some (count, scale) → Extra count.trim value →
      value.isNonNegative = true → Loose text
  /-- A decimal with blanks between it and its unit. -/
  | blank {count : Str} {scale value : Rat} : ':' ∉ text →
      unitOf text clockUnits = some (count, scale) → count.trim ≠ count →
      Decimal count.trim value → Loose text
  /-- A number without a unit that is no decimal. -/
  | bare {value : Real64} : ':' ∉ text → unitOf text clockUnits = none → Extra text value →
      countable value = true → Loose text

theorem read_iff_parsed {test : Real64 → Bool} {text : Str} :
    Read test text ↔ ∃ value, parseF64 text = some value ∧ test value = true :=
  exists_congr fun _ => and_congr_left' parseF64_iff.symm

/-! ## Fields that are no clock value

What a field of the grammar looks like, so that the others can be told from it. -/

/-- Without a blank in it, nothing is trimmed. -/
theorem trim_plain {text : Str} (h : ∀ c ∈ text, Str.isWhitespace c = false) : text.trim = text := by
  have hnone {text : Str} (h : ∀ c ∈ text, Str.isWhitespace c = false) :
      text.dropWhile Str.isWhitespace = text := by
    cases text with
    | nil => rfl
    | cons c rest => exact List.dropWhile_cons_of_neg (by simp [h c (.head _)])
  rw [Str.trim, hnone h, hnone fun c hc => h c (List.mem_reverse.mp hc), List.reverse_reverse]

theorem Decimal.trim {text : Str} {value : Rat} (h : Decimal text value) : text.trim = text :=
  trim_plain fun c hc => (h.plain c hc).1

theorem Decimal.unique {text : Str} {q q' : Rat} (h : Decimal text q) (h' : Decimal text q') :
    q = q' := Real64.finite.inj (Option.some.inj (h.parsed.symm.trans h'.parsed))

/-- Without a point, it is digits. -/
theorem Decimal.digits {text : Str} {q : Rat} (h : Decimal text q) (hpoint : '.' ∉ text) :
    Digits text ∧ text ≠ [] ∧ q = number text := by
  cases h with
  | whole hdigits hne => exact ⟨hdigits, hne, rfl⟩
  | fraction _ _ _ _ => exact absurd (List.mem_append_right _ (.head _)) hpoint

theorem Digits.no_point {digits : Str} (h : Digits digits) : '.' ∉ digits := h.not_mem (by decide)

/-- The fields of a clock value are decimals, the last one alone with a fraction, and those of
the minutes and the seconds are below sixty. -/
theorem fullClock_iff {fields : List Str} (hlength : fields.length = 2 ∨ fields.length = 3) :
    (∃ seconds, FullClock fields seconds) ↔ (∀ part ∈ fields, ∃ q, Decimal part q) ∧
      (∀ part ∈ fields.dropLast, '.' ∉ part) ∧
      ∀ part ∈ fields.drop (fields.length - 2), ∀ q, Decimal part q → q < 60 := by
  have hsixty {digits : Str} (hdigits : Digits digits) (hne : digits ≠ [])
      (h : number digits < 60) (q : Rat) (hq : Decimal digits q) : q < 60 := by
    rw [hq.unique (.whole hdigits hne)]
    exact_mod_cast h
  constructor
  · rintro ⟨seconds, h⟩
    cases h with
    | minutes hminutes hne hm hseconds hs =>
        refine ⟨List.forall_mem_cons.mpr ⟨⟨_, .whole hminutes hne⟩,
            List.forall_mem_singleton.mpr ⟨_, hseconds⟩⟩,
          List.forall_mem_singleton.mpr (Digits.no_point hminutes),
          List.forall_mem_cons.mpr ⟨hsixty hminutes hne hm, List.forall_mem_singleton.mpr ?_⟩⟩
        exact fun q hq => hq.unique hseconds ▸ hs
    | hours hhours hne hminutes hne' hm hseconds hs =>
        refine ⟨List.forall_mem_cons.mpr ⟨⟨_, .whole hhours hne⟩, List.forall_mem_cons.mpr
            ⟨⟨_, .whole hminutes hne'⟩, List.forall_mem_singleton.mpr ⟨_, hseconds⟩⟩⟩,
          List.forall_mem_cons.mpr ⟨Digits.no_point hhours,
            List.forall_mem_singleton.mpr (Digits.no_point hminutes)⟩,
          List.forall_mem_cons.mpr ⟨hsixty hminutes hne' hm, List.forall_mem_singleton.mpr ?_⟩⟩
        exact fun q hq => hq.unique hseconds ▸ hs
  · rintro ⟨hdecimal, hpoint, hlast⟩
    have hwhole (part : Str) (hpart : part ∈ fields) (h : '.' ∉ part) :
        Digits part ∧ part ≠ [] ∧ Decimal part (number part) := by
      obtain ⟨q, hq⟩ := hdecimal part hpart
      obtain ⟨hdigits, hne, rfl⟩ := hq.digits h
      exact ⟨hdigits, hne, hq⟩
    match fields, hlength with
    | [minutes, seconds], _ =>
        obtain ⟨hdigits, hne, hminutes⟩ := hwhole minutes (.head _) (hpoint minutes (.head _))
        obtain ⟨q, hseconds⟩ := hdecimal seconds (.tail _ (.head _))
        have hm := hlast minutes (.head _) _ hminutes
        exact ⟨_, .minutes hdigits hne (by exact_mod_cast hm) hseconds
          (hlast seconds (.tail _ (.head _)) q hseconds)⟩
    | [hours, minutes, seconds], _ =>
        obtain ⟨hdigits, hne, -⟩ := hwhole hours (.head _) (hpoint hours (.head _))
        obtain ⟨hdigits', hne', hminutes⟩ :=
          hwhole minutes (.tail _ (.head _)) (hpoint minutes (.tail _ (.head _)))
        obtain ⟨q, hseconds⟩ := hdecimal seconds (.tail _ (.tail _ (.head _)))
        have hm := hlast minutes (.head _) _ hminutes
        exact ⟨_, .hours hdigits hne hdigits' hne' (by exact_mod_cast hm) hseconds
          (hlast seconds (.tail _ (.head _)) q hseconds)⟩

/-- A clock with such a field is none of the grammar. -/
theorem OffClock.not_full {fields : List Str} (h : OffClock fields)
    (hlength : fields.length = 2 ∨ fields.length = 3) (seconds : Rat) :
    ¬ FullClock fields seconds := by
  intro hfull
  obtain ⟨hdecimal, hpoint, hlast⟩ := (fullClock_iff hlength).mp ⟨seconds, hfull⟩
  cases h with
  | blank hpart hne =>
      obtain ⟨q, hq⟩ := hdecimal _ hpart
      exact hne hq.trim
  | extra hpart hextra =>
      obtain ⟨q, hq⟩ := hdecimal _ hpart
      rw [hq.trim] at hextra
      exact hextra.not_decimal q hq
  | fraction hpart hmem => exact hpoint _ hpart hmem
  | sixty hpart hq hsixty => exact absurd (hlast _ hpart _ hq) (not_lt.mpr hsixty)

/-- Fields that are read are those of a clock value if nothing about them is off. -/
theorem exists_full {fields : List Str} (hlength : fields.length = 2 ∨ fields.length = 3)
    (hread : ∀ part ∈ fields, Read unsigned (Str.trim part)) (h : ¬ OffClock fields) :
    ∃ seconds, FullClock fields seconds := by
  refine (fullClock_iff hlength).mpr ⟨fun part hpart => ?_, fun part hpart hpoint => ?_,
    fun part hpart q hq => ?_⟩
  · obtain ⟨value, ⟨q, hq, -⟩ | hextra, -⟩ := hread part hpart
    · have htrim : Str.trim part = part := by_contra fun hne => h (.blank hpart hne)
      exact ⟨q, htrim ▸ hq⟩
    · exact absurd (.extra hpart hextra) h
  · exact h (.fraction hpart hpoint)
  · exact not_le.mp fun hsixty => h (.sixty hpart hq hsixty)

/-! ## The three forms

A unit is stripped from the end; a decimal has none at its end. -/

theorem clockUnit_eq (parse : Str → Option Real64) (value : Str) (units : List (Str × Rat)) :
    clockUnit parse value units = (unitOf value units).map fun counted =>
      (parse counted.1.trim).bind fun n =>
        if n.isNonNegative then some (n.scale counted.2) else none := by
  induction units with
  | nil => rfl
  | cons head rest ih =>
      obtain ⟨unit, scale⟩ := head
      rw [clockUnit, unitOf]
      cases value.stripSuffix unit with
      | some count => rfl
      | none => exact ih

theorem stripSuffix_append (count unit : Str) : (count ++ unit).stripSuffix unit = some count := by
  have hsuffix : unit.isSuffixOf (count ++ unit) = true :=
    List.isSuffixOf_iff_suffix.mpr (List.suffix_append count unit)
  rw [Str.stripSuffix, if_pos hsuffix, List.length_append, Nat.add_sub_cancel, List.take_left']
  rfl

/-- A text with another character at that place does not end so. -/
theorem stripSuffix_other {front unit tail : Str} {c d : Char} (hne : c ≠ d) :
    (front ++ c :: tail).stripSuffix (unit ++ d :: tail) = none := by
  refine if_neg fun hsuffix => hne ?_
  obtain ⟨more, hmore⟩ := List.isSuffixOf_iff_suffix.mp hsuffix
  rw [← List.append_assoc] at hmore
  have hlast : d :: tail = c :: tail := List.append_inj_right' hmore rfl
  exact (List.cons.inj hlast).1.symm

theorem unitOf_skip {value unit : Str} {scale : Rat} {rest : List (Str × Rat)}
    (h : value.stripSuffix unit = none) : unitOf value ((unit, scale) :: rest) = unitOf value rest := by
  rw [unitOf, h]

theorem unitOf_found {count unit : Str} {scale : Rat} {rest : List (Str × Rat)} :
    unitOf (count ++ unit) ((unit, scale) :: rest) = some (count, scale) := by
  rw [unitOf, stripSuffix_append]

theorem stripSuffix_some {text count unit : Str} (h : text.stripSuffix unit = some count) :
    text = count ++ unit := by
  unfold Str.stripSuffix at h
  split at h
  · rename_i hsuffix
    obtain ⟨front, rfl⟩ := List.isSuffixOf_iff_suffix.mp hsuffix
    rw [List.length_append, Nat.add_sub_cancel, List.take_left'] at h
    · rw [Option.some.inj h]
    · rfl
  · cases h

/-- What is in front of a unit. -/
theorem unitOf_mem {text count : Str} {scale : Rat} {units : List (Str × Rat)}
    (h : unitOf text units = some (count, scale)) :
    ∃ unit, (unit, scale) ∈ units ∧ text = count ++ unit := by
  induction units with
  | nil => cases h
  | cons head rest ih =>
      obtain ⟨unit, scale'⟩ := head
      rw [unitOf] at h
      cases hstrip : text.stripSuffix unit with
      | some count' =>
          rw [hstrip] at h
          obtain ⟨rfl, rfl⟩ := Prod.mk.inj (Option.some.inj h)
          exact ⟨unit, .head _, stripSuffix_some hstrip⟩
      | none =>
          rw [hstrip] at h
          obtain ⟨unit', hmem, htext⟩ := ih h
          exact ⟨unit', .tail _ hmem, htext⟩

section Units

variable {text : Str} {value : Rat} (h : Decimal text value)
include h

/-- No unit is at the end of a decimal. -/
theorem Decimal.unitOf_none : unitOf text clockUnits = none := by
  obtain ⟨front, n, rfl⟩ := h.ends
  have hletter : ∀ n : Fin 10, digitChar n ≠ 's' ∧ digitChar n ≠ 'n' ∧ digitChar n ≠ 'h' := by
    decide
  obtain ⟨hs, hn, hh⟩ := hletter n
  exact (unitOf_skip (@stripSuffix_other front ['m'] [] _ 's' hs)).trans <|
    (unitOf_skip (@stripSuffix_other front ['m', 'i'] [] _ 'n' hn)).trans <|
    (unitOf_skip (@stripSuffix_other front [] [] _ 'h' hh)).trans <|
    unitOf_skip (@stripSuffix_other front [] [] _ 's' hs)

/-- The unit behind a decimal is found. -/
theorem Decimal.unitOf_append {unit : Str} {scale : Rat} (hunit : (unit, scale) ∈ clockUnits) :
    unitOf (text ++ unit) clockUnits = some (text, scale) := by
  obtain ⟨front, n, rfl⟩ := h.ends
  have hletter : ∀ n : Fin 10, digitChar n ≠ 'm' := by decide
  simp only [clockUnits, List.mem_cons, Prod.mk.injEq, List.not_mem_nil, or_false] at hunit
  rcases hunit with ⟨rfl, rfl⟩ | ⟨rfl, rfl⟩ | ⟨rfl, rfl⟩ | ⟨rfl, rfl⟩
  · exact unitOf_found
  · have hms := @stripSuffix_other (front ++ [digitChar n] ++ ['m', 'i']) ['m'] [] 'n' 's' (by decide)
    rw [List.append_assoc] at hms
    exact (unitOf_skip hms).trans unitOf_found
  · have hms := @stripSuffix_other (front ++ [digitChar n]) ['m'] [] 'h' 's' (by decide)
    have hmin := @stripSuffix_other (front ++ [digitChar n]) ['m', 'i'] [] 'h' 'n' (by decide)
    exact (unitOf_skip hms).trans ((unitOf_skip hmin).trans unitOf_found)
  · have hms := @stripSuffix_other front [] ['s'] (digitChar n) 'm' (hletter n)
    have hmin := @stripSuffix_other (front ++ [digitChar n]) ['m', 'i'] [] 's' 'n' (by decide)
    have hhours := @stripSuffix_other (front ++ [digitChar n]) [] [] 's' 'h' (by decide)
    have htext : front ++ digitChar n :: ['s'] = front ++ [digitChar n] ++ "s".toList := by simp
    rw [htext] at hms
    exact (unitOf_skip hms).trans ((unitOf_skip hmin).trans ((unitOf_skip hhours).trans unitOf_found))

end Units

/-! ## Fields

Fields are cut at colons, and neither a decimal nor an extra number contains one. -/

theorem Digits.no_colon {digits : Str} (h : Digits digits) : ':' ∉ digits := h.not_mem (by decide)

theorem Decimal.no_colon {text : Str} {value : Rat} (h : Decimal text value) : ':' ∉ text :=
  fun hmem => (h.plain ':' hmem).2 rfl

/-- Its fields are two or three, and are what the text is split into. -/
theorem FullClock.fields_of {fields : List Str} {seconds : Rat} (h : FullClock fields seconds) :
    (fields.length = 2 ∨ fields.length = 3) ∧ ([':'].intercalate fields).splitOn ':' = fields := by
  have hsplit {fields : List Str} (hplain : ∀ field ∈ fields, ':' ∉ field) (hne : fields ≠ []) :
      ([':'].intercalate fields).splitOn ':' = fields := List.splitOn_intercalate _ hplain hne
  cases h with
  | minutes hminutes _ _ hseconds _ =>
      refine ⟨.inl rfl, hsplit ?_ (List.cons_ne_nil _ _)⟩
      exact List.forall_mem_cons.mpr ⟨Digits.no_colon hminutes,
        List.forall_mem_singleton.mpr hseconds.no_colon⟩
  | hours hhours _ hminutes _ _ hseconds _ =>
      refine ⟨.inr rfl, hsplit ?_ (List.cons_ne_nil _ _)⟩
      exact List.forall_mem_cons.mpr ⟨Digits.no_colon hhours, List.forall_mem_cons.mpr
        ⟨Digits.no_colon hminutes, List.forall_mem_singleton.mpr hseconds.no_colon⟩⟩

/-- A field of two or more is behind a colon. -/
theorem colon_mem {fields : List Str} (h : fields.length = 2 ∨ fields.length = 3) :
    ':' ∈ [':'].intercalate fields := by
  match fields, h with
  | [a, b], _ => simp [List.intercalate]
  | [a, b, c], _ => simp [List.intercalate]

theorem isNegative_of_nonneg {q : Rat} (h : 0 ≤ q) : (Real64.finite q).isNegative = false :=
  decide_eq_false (not_lt.mpr h)

/-- One field. -/
theorem Decimal.field {field : Str} {value : Rat} (h : Decimal field value) (start : Rat)
    (rest : List Str) : clockFields parseF64 (.finite start) (field :: rest) =
      Smil.clockFields parseF64 (.finite (start * 60 + value)) rest := by
  rw [Smil.clockFields, h.trim, h.parsed]
  exact if_neg (by rw [isNegative_of_nonneg h.nonneg]; exact Bool.false_ne_true)

theorem FullClock.nonneg {fields : List Str} {seconds : Rat} (h : FullClock fields seconds) :
    0 ≤ seconds := by
  cases h with
  | minutes _ _ _ hseconds _ =>
      have hnonneg := hseconds.nonneg
      positivity
  | hours _ _ _ _ _ hseconds _ =>
      have hnonneg := hseconds.nonneg
      positivity

/-- Fields are read from the left. -/
theorem FullClock.parsed {fields : List Str} {seconds : Rat} (h : FullClock fields seconds) :
    clockFields parseF64 .zero fields = some (.finite seconds) := by
  unfold Real64.zero
  cases h with
  | minutes hminutes hne _ hseconds _ =>
      rw [(Decimal.whole hminutes hne).field, hseconds.field, Smil.clockFields]
      congr 2
      ring
  | hours hhours hne hminutes hne' _ hseconds _ =>
      rw [(Decimal.whole hhours hne).field, (Decimal.whole hminutes hne').field, hseconds.field,
        Smil.clockFields]
      congr 2
      ring

/-- All fields are read when each is, and is not below zero. -/
theorem clockFields_some_iff (fields : List Str) : ∀ start : Real64,
    (∃ seconds, Smil.clockFields parseF64 start fields = some seconds) ↔
      ∀ field ∈ fields, Read unsigned (Str.trim field) := by
  induction fields with
  | nil => exact fun start => iff_of_true ⟨start, rfl⟩ fun field hfield => by cases hfield
  | cons field rest ih =>
      intro start
      rw [List.forall_mem_cons, Smil.clockFields, read_iff_parsed]
      cases hparse : Smil.parseF64 (Str.trim field) with
      | none =>
          refine iff_of_false ?_ ?_
          · rintro ⟨seconds, h⟩
            cases h
          · rintro ⟨⟨value, h, -⟩, -⟩
            cases h
      | some value =>
          dsimp only
          have hread : (∃ value', some value = some value' ∧ unsigned value' = true) ↔
              value.isNegative = false := by
            constructor
            · rintro ⟨value', h, htest⟩
              obtain rfl := Option.some.inj h
              simpa [unsigned] using htest
            · exact fun h => ⟨value, rfl, by simp [unsigned, h]⟩
          rw [hread]
          cases value.isNegative with
          | true => simp
          | false =>
              rw [if_neg Bool.false_ne_true, ih]
              simp

/-! ## What is read

The forms together, in the order in which `parse_clock` tries them. -/

section Forms

variable {raw : Str} {value : Real64}

/-- A value with a colon is read field by field. -/
theorem parseClock_full_iff (h : ':' ∈ raw.trim) : parseClock parseF64 raw = some value ↔
    clockFields parseF64 .zero (raw.trim.splitOn ':') = some value ∧
      ((raw.trim.splitOn ':').length = 2 ∨ (raw.trim.splitOn ':').length = 3) := by
  unfold parseClock
  dsimp only
  rw [if_neg (List.ne_nil_of_mem h), if_pos h]
  cases clockFields parseF64 .zero (raw.trim.splitOn ':') with
  | none => simp
  | some seconds =>
      dsimp only
      rw [Option.ite_none_right_eq_some]
      constructor
      · rintro ⟨hlength, heq⟩
        exact ⟨heq, by omega⟩
      · rintro ⟨heq, hlength⟩
        exact ⟨by omega, heq⟩

/-- A count with a unit. -/
theorem parseClock_unit_iff (h : ':' ∉ raw.trim) {count : Str} {scale : Rat}
    (hunit : unitOf raw.trim clockUnits = some (count, scale)) :
    parseClock parseF64 raw = some value ↔
      ∃ n, parseF64 count.trim = some n ∧ n.isNonNegative = true ∧ value = n.scale scale := by
  have hne : raw.trim ≠ [] := fun hnil => by
    rw [hnil] at hunit
    cases hunit
  unfold parseClock
  dsimp only
  rw [if_neg hne, if_neg h, clockUnit_eq, hunit]
  dsimp only [Option.map]
  cases parseF64 count.trim with
  | none => simp
  | some n =>
      rw [Option.bind_some, Option.ite_none_right_eq_some]
      constructor
      · rintro ⟨hnonneg, heq⟩
        exact ⟨n, rfl, hnonneg, (Option.some.inj heq).symm⟩
      · rintro ⟨n', heq, hnonneg, rfl⟩
        obtain rfl := Option.some.inj heq
        exact ⟨hnonneg, rfl⟩

/-- A number without one. -/
theorem parseClock_bare_iff (h : ':' ∉ raw.trim) (hunit : unitOf raw.trim clockUnits = none) :
    parseClock parseF64 raw = some value ↔
      parseF64 raw.trim = some value ∧ countable value = true := by
  unfold parseClock
  dsimp only
  split
  · rename_i hnil
    rw [hnil]
    exact iff_of_false (fun heq => by cases heq) fun hboth => by cases hboth.1
  · rw [clockUnit_eq, hunit]
    dsimp only [Option.map]
    cases parseF64 raw.trim with
    | none => simp
    | some n =>
        rw [Option.bind_some, Option.ite_none_right_eq_some, ← Bool.and_eq_true_iff]
        constructor
        · rintro ⟨hcountable, heq⟩
          exact ⟨heq, Option.some.inj heq ▸ hcountable⟩
        · rintro ⟨heq, hcountable⟩
          exact ⟨Option.some.inj heq ▸ hcountable, heq⟩

end Forms

theorem countable_finite {seconds : Rat} (h : 0 ≤ seconds) : countable (.finite seconds) = true :=
  Bool.and_eq_true_iff.mpr ⟨decide_eq_true h, rfl⟩

theorem clockUnits_nonneg : ∀ unit ∈ clockUnits, 0 ≤ unit.2 ∧ ':' ∉ unit.1 := by
  decide +kernel

/-- Every clock value is read. -/
theorem ClockValue.parsed {raw : Str} {seconds : Rat} (h : ClockValue raw.trim seconds) :
    0 ≤ seconds ∧ parseClock parseF64 raw = some (.finite seconds) := by
  generalize htext : raw.trim = text at h
  cases h with
  | full hfull =>
      obtain ⟨hlength, hsplit⟩ := hfull.fields_of
      have hcolon : ':' ∈ raw.trim := htext ▸ colon_mem hlength
      rw [parseClock_full_iff hcolon, htext, hsplit]
      exact ⟨hfull.nonneg, hfull.parsed, hlength⟩
  | @timecount count unit value scale hcount hunit =>
      obtain ⟨hscale, hplain⟩ := clockUnits_nonneg _ hunit
      have hcolon : ':' ∉ raw.trim := by
        rw [htext, List.mem_append]
        exact not_or.mpr ⟨hcount.no_colon, hplain⟩
      have hfound : unitOf raw.trim clockUnits = some (count, scale) :=
        htext ▸ hcount.unitOf_append hunit
      refine ⟨mul_nonneg hcount.nonneg hscale, (parseClock_unit_iff hcolon hfound).mpr ?_⟩
      exact ⟨.finite value, by rw [hcount.trim, hcount.parsed], decide_eq_true hcount.nonneg, rfl⟩
  | bare hcount =>
      have hcolon : ':' ∉ raw.trim := htext ▸ hcount.no_colon
      have hnone : unitOf raw.trim clockUnits = none := htext ▸ hcount.unitOf_none
      refine ⟨hcount.nonneg, (parseClock_bare_iff hcolon hnone).mpr ?_⟩
      exact ⟨htext ▸ hcount.parsed, countable_finite hcount.nonneg⟩

/-- What is read is a clock value or beside the grammar. -/
theorem read_iff {raw : Str} : (∃ value, parseClock parseF64 raw = some value) ↔
    (∃ seconds, ClockValue raw.trim seconds) ∨ Loose raw.trim := by
  constructor
  · rintro ⟨value, h⟩
    by_cases hcolon : ':' ∈ raw.trim
    · obtain ⟨hfields, hlength⟩ := (parseClock_full_iff hcolon).mp h
      have hread := (clockFields_some_iff _ .zero).mp ⟨value, hfields⟩
      by_cases hoff : OffClock (raw.trim.splitOn ':')
      · exact .inr (.full hcolon hlength hread hoff)
      · obtain ⟨seconds, hfull⟩ := exists_full hlength hread hoff
        have hclock := ClockValue.full hfull
        rw [List.intercalate_splitOn] at hclock
        exact .inl ⟨seconds, hclock⟩
    · cases hunit : unitOf raw.trim clockUnits with
      | some counted =>
          obtain ⟨count, scale⟩ := counted
          obtain ⟨n, hparse, hnonneg, -⟩ := (parseClock_unit_iff hcolon hunit).mp h
          rcases parseF64_iff.mp hparse with ⟨value, hcount, rfl⟩ | hextra
          · by_cases htrim : count.trim = count
            · obtain ⟨unit, hmem, htext⟩ := unitOf_mem hunit
              exact .inl ⟨value * scale, htext ▸ .timecount (htrim ▸ hcount) hmem⟩
            · exact .inr (.blank hcolon hunit htrim hcount)
          · exact .inr (.timecount hcolon hunit hextra hnonneg)
      | none =>
          obtain ⟨hparse, hcountable⟩ := (parseClock_bare_iff hcolon hunit).mp h
          rcases parseF64_iff.mp hparse with ⟨seconds, hcount, rfl⟩ | hextra
          · exact .inl ⟨seconds, .bare hcount⟩
          · exact .inr (.bare hcolon hunit hextra hcountable)
  · rintro (⟨seconds, hclock⟩ | hloose)
    · exact ⟨.finite seconds, hclock.parsed.2⟩
    · cases hloose with
      | full hcolon hlength hfields _ =>
          obtain ⟨value, hvalue⟩ := (clockFields_some_iff _ .zero).mpr hfields
          exact ⟨value, (parseClock_full_iff hcolon).mpr ⟨hvalue, hlength⟩⟩
      | @timecount count scale n hcolon hunit hextra hnonneg =>
          exact ⟨n.scale scale,
            (parseClock_unit_iff hcolon hunit).mpr ⟨n, hextra.parsed, hnonneg, rfl⟩⟩
      | @blank count scale q hcolon hunit _ hcount =>
          exact ⟨(Real64.finite q).scale scale, (parseClock_unit_iff hcolon hunit).mpr
            ⟨.finite q, hcount.parsed, decide_eq_true hcount.nonneg, rfl⟩⟩
      | @bare value hcolon hunit hextra hcountable =>
          exact ⟨value, (parseClock_bare_iff hcolon hunit).mpr ⟨hextra.parsed, hcountable⟩⟩

/-- What is beside the grammar is no clock value. -/
theorem Loose.not_clockValue {text : Str} (h : Loose text) (seconds : Rat) :
    ¬ ClockValue text seconds := by
  intro hclock
  cases hclock with
  | full hfull =>
      obtain ⟨hlength, hsplit⟩ := hfull.fields_of
      have hcolon := colon_mem hlength
      cases h with
      | full _ _ _ hoff =>
          rw [hsplit] at hoff
          exact hoff.not_full hlength seconds hfull
      | timecount hplain _ _ _ => exact hplain hcolon
      | blank hplain _ _ _ => exact hplain hcolon
      | bare hplain _ _ _ => exact hplain hcolon
  | timecount hcount hunit =>
      have hfound := hcount.unitOf_append hunit
      cases h with
      | full hcolon _ _ _ =>
          rcases List.mem_append.mp hcolon with hcolon | hcolon
          · exact hcount.no_colon hcolon
          · exact (clockUnits_nonneg _ hunit).2 hcolon
      | timecount _ hunit' hextra _ =>
          obtain ⟨rfl, -⟩ := Prod.mk.inj (Option.some.inj (hfound.symm.trans hunit'))
          rw [hcount.trim] at hextra
          exact hextra.not_decimal _ hcount
      | blank _ hunit' hne _ =>
          obtain ⟨rfl, -⟩ := Prod.mk.inj (Option.some.inj (hfound.symm.trans hunit'))
          exact hne hcount.trim
      | bare _ hunit' _ _ => cases hfound.symm.trans hunit'
  | bare hcount =>
      cases h with
      | full hcolon _ _ _ => exact hcount.no_colon hcolon
      | timecount _ hunit _ _ => cases hcount.unitOf_none.symm.trans hunit
      | blank _ hunit _ _ => cases hcount.unitOf_none.symm.trans hunit
      | bare _ _ hextra _ => exact hextra.not_decimal _ hcount

/-- Exactly the clock values are read, and to their seconds, unless the text is beside the
grammar. -/
theorem reads_clock_iff (raw : Str) : ReadsClock raw ↔ ¬ Loose raw.trim := by
  constructor
  · intro hreads hloose
    obtain ⟨value, hvalue⟩ := read_iff.mpr (.inr hloose)
    obtain ⟨seconds, -, -, hclock⟩ := (hreads value).mp hvalue
    exact hloose.not_clockValue seconds hclock
  · intro hstrict value
    constructor
    · intro hvalue
      obtain ⟨seconds, hclock⟩ := (read_iff.mp ⟨value, hvalue⟩).resolve_right hstrict
      obtain ⟨hnonneg, hparse⟩ := hclock.parsed
      exact ⟨seconds, hnonneg, Option.some.inj (hvalue.symm.trans hparse), hclock⟩
    · rintro ⟨seconds, -, rfl, hclock⟩
      exact hclock.parsed.2

/-- An endless clip. -/
theorem infinity_read : parseClock parseF64 "infs" = some .posInf ∧ ¬ ReadsClock "infs" := by
  have hread : parseClock parseF64 "infs" = some .posInf := by decide +kernel
  refine ⟨hread, fun h => ?_⟩
  obtain ⟨seconds, -, heq, -⟩ := (h .posInf).mp hread
  cases heq

end Smil

end GrpcEpub
