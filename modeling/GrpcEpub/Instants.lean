/-
# `GrpcEpub.Instants` — whether a reading is safe and what it names is in range

Two things can go wrong with a date that is otherwise read as documented.  The
year is checked on the wall clock, so on the first and the last day of the range
an offset carries the instant out of it (`Overshoots`).  And an offset of four
bytes is cut after its second before it is known to be digits, so one with a
longer character in the middle ends the call (`CutInside`).
-/
import GrpcEpub.Fold
import GrpcEpub.Readings

namespace GrpcEpub

namespace Datetime

open Calendar

/-! ## The range of a timestamp

The first and the last day that the message type allows, and which fields overshoot them. -/

/-- A valid `google.protobuf.Timestamp`. -/
structure Timestamp.Valid (t : Timestamp) : Prop where
  nanos : 0 ≤ t.nanos ∧ t.nanos ≤ 999999999
  seconds : -62135596800 ≤ t.seconds ∧ t.seconds ≤ 253402300799

/-- The first day a timestamp can fall on. -/
def firstDay : Date where
  year := 1
  month := 1
  day := 1
  inYear := january
  inMonth := by decide

/-- The last one. -/
def lastDay : Date where
  year := 9999
  month := 12
  day := 31
  inYear := by decide
  inMonth := by decide

/-- The wall clock is on the first day and before its offset, or on the last day
and an offset behind it. -/
def Overshoots (value : Str) : Prop :=
  ∃ (hour minute second : Nat) (nanos offset : Int),
    clockFields (clockOf value) = .ok (some (hour, minute, second, nanos, offset)) ∧
    ((dateParts (dateOf value) = some (1, 1, 1) ∧
        (hour * 3600 + minute * 60 + second : Int) < offset * 60) ∨
      (dateParts (dateOf value) = some (9999, 12, 31) ∧
        86400 ≤ (hour * 3600 + minute * 60 + second : Int) - offset * 60))

section Days

variable {d : Date}

theorem firstDay_le (h : 1 ≤ d.year) : firstDay ≤ d := by
  rw [← not_lt, Date.lt_iff]
  have hmonth := d.inYear
  have hday := d.inMonth
  simp only [firstDay]
  omega

theorem le_lastDay (h : d.year ≤ 9999) : d ≤ lastDay := by
  rw [← not_lt, Date.lt_iff]
  have hmonth := d.inYear
  have hday := d.day_le
  simp only [lastDay]
  omega

/-- The days of the range, with the two ends apart. -/
theorem days_range (h : 1 ≤ d.year ∧ d.year ≤ 9999) :
    (d = firstDay ∨ -719162 < daysFromCivil d.year d.month d.day) ∧
      (d = lastDay ∨ daysFromCivil d.year d.month d.day < 2932896) := by
  have hmono : StrictMono fun d : Date => daysFromCivil d.year d.month d.day :=
    Date.formula_strictMono daysFromCivil_next
  have hfirst : daysFromCivil firstDay.year firstDay.month firstDay.day = -719162 := by decide
  have hlast : daysFromCivil lastDay.year lastDay.month lastDay.day = 2932896 := by decide
  constructor
  · rcases (firstDay_le h.1).eq_or_lt with heq | hlt
    · exact .inl heq.symm
    · exact .inr (hfirst ▸ hmono hlt)
  · rcases (le_lastDay h.2).eq_or_lt with heq | hlt
    · exact .inl heq
    · exact .inr (hlast ▸ hmono hlt)

/-- The fields of a date are its own. -/
theorem fields_eq_iff (e : Date) :
    some (d.year, d.month, d.day) = some (e.year, e.month, e.day) ↔ d = e := by
  constructor
  · intro h
    cases d
    cases e
    cases h
    rfl
  · rintro rfl
    rfl

end Days

theorem clockFields_read {clock : Str} {hour minute second : Nat} {nanos offset : Int}
    (h : clockFields clock = .ok (some (hour, minute, second, nanos, offset))) :
    OfDay hour minute second nanos ∧ -1439 ≤ offset ∧ offset ≤ 1439 := by
  unfold clockFields at h
  split at h
  · cases h
    exact ⟨⟨by decide, by decide, by decide, by decide⟩, by decide⟩
  · exact (clockParts_read h).2

/-- What was read, from the fields it was read off. -/
theorem parse_some {value : Str} {t : Timestamp} (h : (parse value).run = .ok (some t)) :
    ∃ d : Date, DateRead (dateOf value) d ∧
      dateParts (dateOf value) = some (d.year, d.month, d.day) ∧
      ∃ fields, clockFields (clockOf value) = .ok (some fields) ∧
        t = instantAt d.year d.month d.day fields := by
  rw [parse_eq] at h
  cases hdate : dateParts (dateOf value) with
  | none =>
      rw [hdate] at h
      cases h
  | some date =>
      obtain ⟨year, month, day⟩ := date
      rw [hdate] at h
      obtain ⟨d, hread, rfl, rfl, rfl⟩ := dateParts_read hdate
      refine ⟨d, hread, rfl, ?_⟩
      cases hclock : clockFields (clockOf value) with
      | error e =>
          simp only [hclock] at h
          cases h
      | ok found =>
          simp only [hclock] at h
          cases found with
          | none => cases h
          | some fields =>
              cases h
              exact ⟨fields, rfl, rfl⟩

/-- What is read is a valid timestamp, except where the offset carries the first
or the last day out of the range. -/
theorem timestamps_valid_iff {value : Str} {t : Timestamp}
    (h : (parse value).run = .ok (some t)) : Timestamp.Valid t ↔ ¬ Overshoots value := by
  obtain ⟨d, hread, hdate, ⟨hour, minute, second, nanos, offset⟩, hclock, rfl⟩ := parse_some h
  obtain ⟨hday, hoffset⟩ := clockFields_read hclock
  obtain ⟨hfirst, hlast⟩ := days_range hread.inRange
  have hhour := hday.hour
  have hminute := hday.minute
  have hsecond := hday.second
  have hovershoots : Overshoots value ↔
      (d = firstDay ∧ (hour * 3600 + minute * 60 + second : Int) < offset * 60) ∨
      (d = lastDay ∧ 86400 ≤ (hour * 3600 + minute * 60 + second : Int) - offset * 60) := by
    have hends : (dateParts (dateOf value) = some (1, 1, 1) ↔ d = firstDay) ∧
        (dateParts (dateOf value) = some (9999, 12, 31) ↔ d = lastDay) := by
      rw [hdate]
      exact ⟨fields_eq_iff firstDay, fields_eq_iff lastDay⟩
    constructor
    · rintro ⟨hour', minute', second', nanos', offset', hclock', hout⟩
      cases hclock.symm.trans hclock'
      rwa [hends.1, hends.2] at hout
    · intro hout
      refine ⟨hour, minute, second, nanos, offset, hclock, ?_⟩
      rwa [hends.1, hends.2]
  have hvalid : Timestamp.Valid
      (instantAt d.year d.month d.day (hour, minute, second, nanos, offset)) ↔
      -62135596800 ≤ daysFromCivil d.year d.month d.day * 86400 +
          (hour * 3600 + minute * 60 + second - offset * 60) ∧
        daysFromCivil d.year d.month d.day * 86400 +
          (hour * 3600 + minute * 60 + second - offset * 60) ≤ 253402300799 := by
    have hseconds : (instantAt d.year d.month d.day (hour, minute, second, nanos, offset)).seconds =
        daysFromCivil d.year d.month d.day * 86400 +
          (hour * 3600 + minute * 60 + second - offset * 60) := by
      simp only [instantAt, secondsPerDay]
      ring
    rw [← hseconds]
    exact ⟨Timestamp.Valid.seconds, fun h => ⟨hday.nanos, h⟩⟩
  rw [hovershoots, hvalid]
  -- Away from the two ends a day has room for any offset.
  rcases hfirst with rfl | hfirst
  · have hdays : daysFromCivil firstDay.year firstDay.month firstDay.day = -719162 := by decide
    have hne : firstDay ≠ lastDay := by decide
    simp only [hdays, hne, false_and, or_false, true_and]
    omega
  · have hne : d ≠ firstDay := by
      rintro rfl
      exact absurd hfirst (by decide)
    rcases hlast with rfl | hlast
    · have hdays : daysFromCivil lastDay.year lastDay.month lastDay.day = 2932896 := by decide
      simp only [hdays, hne, false_and, false_or, true_and]
      omega
    · have hne' : d ≠ lastDay := by
        rintro rfl
        exact absurd hlast (by decide)
      simp only [hne, hne', false_and, or_self, not_false_eq_true, iff_true]
      omega

/-- The last second before midnight in Paris on the last day. -/
theorem timestamps_valid_paris : ∃ t, (parse "9999-12-31T23:59:59.5+01:00").run = .ok (some t) ∧
    Timestamp.Valid t := by
  have hread : (parse "9999-12-31T23:59:59.5+01:00").run =
      .ok (some { seconds := 253402297199, nanos := 500000000 }) := by decide +kernel
  refine ⟨_, hread, (timestamps_valid_iff hread).mpr ?_⟩
  rintro ⟨hour, minute, second, nanos, offset, hclock, hout⟩
  have hfields : clockFields (clockOf "9999-12-31T23:59:59.5+01:00") =
      .ok (some (23, 59, 59, 500000000, 60)) := by decide +kernel
  cases hclock.symm.trans hfields
  rcases hout with ⟨-, hout⟩ | ⟨-, hout⟩ <;> norm_num at hout

/-- Midnight of the first day, an hour east of Greenwich. -/
theorem first_day_out_of_range :
    (parse "0001-01-01T00:00:00+01:00").run =
      .ok (some { seconds := -62135600400, nanos := 0 }) ∧
    ¬ Timestamp.Valid { seconds := -62135600400, nanos := 0 } := by
  refine ⟨by decide +kernel, fun h => ?_⟩
  have hrange := h.seconds.1
  norm_num at hrange

/-! ## Slices

Where the one cut of the reader can fail. -/

/-- The reader comes back, with something or with nothing. -/
def Returns {α : Type} (x : Read α) : Prop := ∃ r, x.run = .ok r

theorem Returns.bind {α β : Type} {x : Read α} {f : α → Read β} (hx : Returns x)
    (hf : ∀ a, Returns (f a)) : Returns (x >>= f) := by
  obtain ⟨r, hr⟩ := hx
  cases r with
  | none => exact ⟨none, by rw [OptionT.run_bind, hr]; rfl⟩
  | some a =>
      obtain ⟨r', hr'⟩ := hf a
      exact ⟨r', (Read.run_bind hr f).trans hr'⟩

theorem returns_mk {α : Type} (found : Option α) : Returns (OptionT.mk (.ok found)) := ⟨found, rfl⟩

theorem Returns.of_bind {α β : Type} {x : Read α} {f : α → Read β} (h : Returns (x >>= f)) :
    Returns x := by
  obtain ⟨r, hr⟩ := h
  cases hx : x.run with
  | ok found => exact ⟨found, hx⟩
  | error e =>
      rw [OptionT.run_bind, hx] at hr
      cases hr

/-- A date, and a clock whose last sign is followed by four bytes without a colon,
the second of which does not end a character. -/
def CutInside (value : Str) : Prop :=
  (dateParts (dateOf value)).isSome ∧ stripZulu (clockOf value) = none ∧
    ∃ (time : Str) (sign : Char) (digits : Str), clockOf value = time ++ sign :: digits ∧
      isSign sign = true ∧ (∀ c ∈ digits, isSign c = false) ∧ ':' ∉ digits ∧ digits.len = 4 ∧
      ∀ left right : Str, digits = left ++ right → left.len ≠ 2

theorem splitAt_error_iff {n : Nat} {s : Str} :
    (∃ e, splitAt n s = .error e) ↔ ∀ left right : Str, s = left ++ right → left.len ≠ n := by
  constructor
  · rintro ⟨e, herror⟩ left right rfl rfl
    rw [splitAt_append] at herror
    cases herror
  · intro h
    cases hcut : splitAt n s with
    | error e => exact ⟨e, rfl⟩
    | ok parts => exact absurd (splitAt_ok hcut).2 (h _ _ (splitAt_ok hcut).1)

theorem offsetFields_error_iff {digits : Str} : (∃ e, offsetFields digits = .error e) ↔
    ':' ∉ digits ∧ digits.len = 4 ∧ ∀ left right : Str, digits = left ++ right → left.len ≠ 2 := by
  rw [← splitAt_error_iff]
  unfold offsetFields
  by_cases hcolon : ':' ∈ digits
  · rw [Str.splitOnce, if_pos hcolon]
    simp [hcolon]
  · rw [Str.splitOnce_none hcolon]
    by_cases hfour : digits.len = 4
    · simp [hfour, hcolon]
    · simp [hfour]

/-- Only the cut of an offset panics. -/
theorem splitOffset_returns_iff {clock : Str} : Returns (splitOffset clock) ↔
    ¬ (stripZulu clock = none ∧ ∃ time sign digits, splitSign clock = some (time, sign, digits) ∧
      ∃ e, offsetFields digits = .error e) := by
  unfold splitOffset
  cases hzulu : stripZulu clock with
  | some time => exact iff_of_true ⟨some (time, 0), rfl⟩ (by simp)
  | none =>
      cases hsplit : splitSign clock with
      | none => exact iff_of_true ⟨some (clock, 0), rfl⟩ (by simp)
      | some parts =>
          obtain ⟨time, sign, digits⟩ := parts
          have hparts : (∃ time' sign' digits', some (time, sign, digits) =
              some (time', sign', digits') ∧ ∃ e, offsetFields digits' = .error e) ↔
              ∃ e, offsetFields digits = .error e := by
            constructor
            · rintro ⟨_, _, _, heq, herror⟩
              cases heq
              exact herror
            · exact fun herror => ⟨_, _, _, rfl, herror⟩
          simp only [true_and, hparts]
          constructor
          · rintro ⟨r, hr⟩ ⟨e, herror⟩
            rw [herror] at hr
            cases hr
          · intro hfields
            cases hcut : offsetFields digits with
            | error e => exact absurd ⟨e, hcut⟩ hfields
            | ok fields =>
                obtain ⟨hours, minutes⟩ := fields
                refine .bind ⟨some (hours, minutes), rfl⟩ fun fields =>
                  .bind (returns_mk _) fun hour => .bind (returns_mk _) fun minute => ?_
                split
                · exact ⟨none, rfl⟩
                · exact ⟨some _, rfl⟩

theorem clockParts_returns_iff {clock : Str} :
    Returns (clockParts clock) ↔ Returns (splitOffset clock) := by
  refine ⟨Returns.of_bind, fun h => .bind h fun parts => .bind (returns_mk _) fun fields => ?_⟩
  exact ⟨some _, rfl⟩

/-- The reader comes back unless it would cut a character in two. -/
theorem parse_returns_iff (value : Str) : Returns (parse value) ↔ ¬ CutInside value := by
  have hparse : Returns (parse value) ↔ ((dateParts (dateOf value)).isSome →
      ∃ found, clockFields (clockOf value) = .ok found) := by
    unfold Returns
    rw [parse_eq]
    cases dateParts (dateOf value) with
    | none => simp
    | some date =>
        obtain ⟨year, month, day⟩ := date
        cases clockFields (clockOf value) <;> simp [Except.map]
  have hclock : (∃ found, clockFields (clockOf value) = .ok found) ↔
      Returns (splitOffset (clockOf value)) := by
    rw [← clockParts_returns_iff]
    unfold clockFields
    split
    · rename_i hempty
      rw [hempty]
      exact ⟨fun _ => ⟨none, by decide⟩, fun _ => ⟨_, rfl⟩⟩
    · rfl
  have hsign : (∃ time sign digits, splitSign (clockOf value) = some (time, sign, digits) ∧
      ∃ e, offsetFields digits = .error e) ↔
      ∃ (time : Str) (sign : Char) (digits : Str), clockOf value = time ++ sign :: digits ∧
        isSign sign = true ∧ (∀ c ∈ digits, isSign c = false) ∧ ':' ∉ digits ∧ digits.len = 4 ∧
        ∀ left right : Str, digits = left ++ right → left.len ≠ 2 := by
    simp only [offsetFields_error_iff]
    constructor
    · rintro ⟨time, sign, digits, hsplit, hcut⟩
      obtain ⟨hclock, hsign, hnone⟩ := splitSign_some hsplit
      exact ⟨time, sign, digits, hclock, hsign, hnone, hcut⟩
    · rintro ⟨time, sign, digits, hclock, hsign, hnone, hcut⟩
      exact ⟨time, sign, digits, hclock ▸ splitSign_append hsign hnone, hcut⟩
  rw [hparse, hclock, splitOffset_returns_iff, hsign, CutInside]
  exact not_and.symm

/-! ## Integers

Every sum and product of the reader stays within its machine type, given the fields it was read
from. -/

/-- What an `i64` holds. -/
def Fits64 (n : Int) : Prop := -2 ^ 63 ≤ n ∧ n < 2 ^ 63

/-- What an `i32` holds. -/
def Fits32 (n : Int) : Prop := -2 ^ 31 ≤ n ∧ n < 2 ^ 31

/-- Every value `days_from_civil` computes, in its order. -/
def dayArithmetic (year : Int) (month day : Nat) : List Int :=
  let month : Int := month
  let day : Int := day
  let year := if month ≤ 2 then year - 1 else year
  let shifted := if 0 ≤ year then year else year - 399
  let era := shifted.tdiv 400
  let yearOfEra := year - era * 400
  let march := if 2 < month then month - 3 else month + 9
  let line := (153 * march + 2).tdiv 5
  let dayOfYear := line + day - 1
  let leapDays := yearOfEra * 365 + yearOfEra.tdiv 4
  let dayOfEra := leapDays - yearOfEra.tdiv 100 + dayOfYear
  [year, shifted, era, era * 400, yearOfEra, march, 153 * march, 153 * march + 2, line, line + day,
    dayOfYear, yearOfEra * 365, yearOfEra.tdiv 4, leapDays, yearOfEra.tdiv 100,
    leapDays - yearOfEra.tdiv 100, dayOfEra, era * 146097, era * 146097 + dayOfEra,
    era * 146097 + dayOfEra - 719468]

/-- Every value `parse` computes from the days and the clock. -/
def secondArithmetic (days : Int) (fields : Nat × Nat × Nat × Int × Int) : List Int :=
  let midnight := days * secondsPerDay
  let hours := (fields.1 : Int) * 3600
  let minutes := (fields.2.1 : Int) * 60
  let second := (fields.2.2.1 : Int)
  let offset := fields.2.2.2.2 * 60
  [midnight, hours, midnight + hours, minutes, midnight + hours + minutes,
    midnight + hours + minutes + second, offset, midnight + hours + minutes + second - offset]

/-- Every value `split_offset` computes from the two fields of an offset. -/
def offsetArithmetic (sign : Int) (hours minutes : Nat) : List Int :=
  [(hours : Int), minutes, (hours : Int) * 60, (hours : Int) * 60 + minutes,
    sign * ((hours : Int) * 60 + minutes)]

/-- Every value `nanoseconds` computes, digit after digit. -/
def nanoArithmetic (fraction : Str) : List Int :=
  (List.range 9).flatMap fun k =>
    [(digitAt fraction k : Int), (nanosTo fraction k : Int) * 10, (nanosTo fraction (k + 1) : Int)]

/-- No integer of a reading leaves its type. -/
structure InRange (value : Str) : Prop where
  days : ∀ year month day, dateParts (dateOf value) = some (year, month, day) →
    ∀ n ∈ dayArithmetic year month day, Fits64 n
  seconds : ∀ year month day fields, dateParts (dateOf value) = some (year, month, day) →
    clockFields (clockOf value) = .ok (some fields) →
    ∀ n ∈ secondArithmetic (daysFromCivil year month day) fields, Fits64 n
  offset : ∀ sign ∈ ([1, -1] : List Int), ∀ hours ≤ 23, ∀ minutes ≤ 59,
    ∀ n ∈ offsetArithmetic sign hours minutes, Fits32 n
  nanos : ∀ fraction, Digits fraction → ∀ n ∈ nanoArithmetic fraction, Fits32 n

/-- The days of a date that was read, with every value on the way. -/
theorem dayArithmetic_fits {year : Int} {month day : Nat} (hyear : 1 ≤ year ∧ year ≤ 9999)
    (hmonth : 1 ≤ month ∧ month ≤ 12) (hday : 1 ≤ day ∧ day ≤ 31) :
    ∀ n ∈ dayArithmetic year month day, Fits64 n := by
  have hshifted : 0 ≤ (if (month : Int) ≤ 2 then year - 1 else year) ∧
      (if (month : Int) ≤ 2 then year - 1 else year) ≤ 9999 := by
    split <;> omega
  have hmarch : 0 ≤ (if 2 < (month : Int) then (month : Int) - 3 else month + 9) ∧
      (if 2 < (month : Int) then (month : Int) - 3 else month + 9) ≤ 11 := by
    split <;> omega
  unfold dayArithmetic
  dsimp only
  generalize (if (month : Int) ≤ 2 then year - 1 else year) = shifted at *
  generalize (if 2 < (month : Int) then (month : Int) - 3 else month + 9) = march at *
  have hera : shifted.tdiv 400 = shifted / 400 := Int.tdiv_eq_ediv_of_nonneg hshifted.1
  have hline : (153 * march + 2).tdiv 5 = (153 * march + 2) / 5 :=
    Int.tdiv_eq_ediv_of_nonneg (by omega)
  have hquarter : (shifted - shifted / 400 * 400).tdiv 4 = (shifted - shifted / 400 * 400) / 4 :=
    Int.tdiv_eq_ediv_of_nonneg (by omega)
  have hcentury : (shifted - shifted / 400 * 400).tdiv 100 =
      (shifted - shifted / 400 * 400) / 100 := Int.tdiv_eq_ediv_of_nonneg (by omega)
  simp only [if_pos hshifted.1, hera, hline, hquarter, hcentury]
  generalize heraValue : shifted / 400 = era
  generalize hlineValue : (153 * march + 2) / 5 = line
  have hyearOfEra : 0 ≤ shifted - era * 400 ∧ shifted - era * 400 < 400 := by omega
  generalize shifted - era * 400 = yearOfEra at *
  have hranges : 0 ≤ era ∧ era ≤ 24 ∧ 0 ≤ line ∧ line ≤ 337 := by omega
  intro n hn
  unfold Fits64
  simp only [List.mem_cons, List.not_mem_nil, or_false] at hn
  rcases hn with rfl | rfl | rfl | rfl | rfl | rfl | rfl | rfl | rfl | rfl | rfl | rfl | rfl | rfl |
    rfl | rfl | rfl | rfl | rfl | rfl <;> omega

theorem secondArithmetic_fits {days : Int} (hdays : -719162 ≤ days ∧ days ≤ 2932896)
    {hour minute second : Nat} {nanos offset : Int} (h : OfDay hour minute second nanos)
    (hoffset : -1439 ≤ offset ∧ offset ≤ 1439) :
    ∀ n ∈ secondArithmetic days (hour, minute, second, nanos, offset), Fits64 n := by
  have hhour := h.hour
  have hminute := h.minute
  have hsecond := h.second
  intro n hn
  unfold Fits64
  simp only [secondArithmetic, secondsPerDay, List.mem_cons, List.not_mem_nil, or_false] at hn
  rcases hn with rfl | rfl | rfl | rfl | rfl | rfl | rfl | rfl <;> omega

theorem offsetArithmetic_fits {sign : Int} (hsign : sign ∈ ([1, -1] : List Int)) {hours minutes : Nat}
    (hhours : hours ≤ 23) (hminutes : minutes ≤ 59) :
    ∀ n ∈ offsetArithmetic sign hours minutes, Fits32 n := by
  intro n hn
  unfold Fits32
  simp only [offsetArithmetic, List.mem_cons, List.not_mem_nil, or_false] at hn hsign
  rcases hsign with rfl | rfl <;> rcases hn with rfl | rfl | rfl | rfl | rfl <;> omega

/-- Nine digits and no more are multiplied out. -/
theorem nanoArithmetic_fits {fraction : Str} (h : Digits fraction) :
    ∀ n ∈ nanoArithmetic fraction, Fits32 n := by
  intro n hn
  obtain ⟨k, hk, hn⟩ := List.mem_flatMap.mp hn
  have hk' : k ≤ 8 := by
    have := List.mem_range.mp hk
    omega
  have hdigit := digitAt_le h k
  have hnanos : nanosTo fraction k < 10 ^ 8 :=
    (nanosTo_lt h k).trans_le (Nat.pow_le_pow_right (by decide) hk')
  have hnext := nanosTo_succ fraction k
  unfold Fits32
  simp only [List.mem_cons, List.not_mem_nil, or_false] at hn
  rcases hn with rfl | rfl | rfl <;> omega

/-- The same of everything the reader computes. -/
theorem inRange (value : Str) : InRange value where
  days := by
    intro year month day hdate
    obtain ⟨d, hread, rfl, rfl, rfl⟩ := dateParts_read hdate
    exact dayArithmetic_fits hread.inRange d.inYear ⟨d.inMonth.1, d.day_le⟩
  seconds := by
    rintro year month day ⟨hour, minute, second, nanos, offset⟩ hdate hclock
    obtain ⟨d, hread, rfl, rfl, rfl⟩ := dateParts_read hdate
    obtain ⟨hday, hoffset⟩ := clockFields_read hclock
    refine secondArithmetic_fits ?_ hday hoffset
    obtain ⟨hfirst, hlast⟩ := days_range hread.inRange
    constructor
    · rcases hfirst with rfl | hfirst
      · decide
      · exact hfirst.le
    · rcases hlast with rfl | hlast
      · decide
      · exact hlast.le
  offset := fun _ hsign _ hhours _ hminutes => offsetArithmetic_fits hsign hhours hminutes
  nanos := fun _ hdigits => nanoArithmetic_fits hdigits

/-! ## The whole function

Safe, for each text, exactly when the offset is not cut inside a character. -/

/-- Reading a date comes back with every integer in its range, except where it
would cut a character in two. -/
theorem parse_safe_iff (value : Str) :
    (Returns (parse value) ∧ InRange value) ↔ ¬ CutInside value :=
  ⟨fun h => (parse_returns_iff value).mp h.1,
    fun h => ⟨(parse_returns_iff value).mpr h, inRange value⟩⟩

/-- An offset of four bytes with an accented letter in the middle. -/
theorem cut_inside_panics : (parse "2020-01-01T00:00+1é1").run = .error .index := by
  decide +kernel

end Datetime

/-- The account of a book ends the call where one of its two dates does. -/
theorem sourceMeta_returns_iff (info : EpubInfo) :
    (∃ described, Fold.sourceMeta info = .ok described) ↔
      ¬ Datetime.CutInside (Fold.declaredCreation info) ∧ ¬ Datetime.CutInside info.modified := by
  rw [← Datetime.parse_returns_iff, ← Datetime.parse_returns_iff]
  unfold Fold.sourceMeta Datetime.Returns
  dsimp only
  cases (Datetime.parse (Fold.declaredCreation info)).run with
  | error e => simp [bind, Except.bind]
  | ok created =>
      cases (Datetime.parse info.modified).run with
      | error e => simp [bind, Except.bind]
      | ok modified => simp [bind, Except.bind, pure, Except.pure]

end GrpcEpub
