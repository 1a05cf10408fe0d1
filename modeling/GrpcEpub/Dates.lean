/-
# `GrpcEpub.Dates` — every documented spelling reads as its instant

The grammar of `datetime.rs`, as a type: a `Spelling` is rendered, and named an
instant by counting days through the calendar.  The formula of the source is shown
to gain one day at each step of that count, so it is the count.  The reader is
shown to take a rendering apart into the fields it was made of.

A `Spelling` is valid by construction: its date is a day of the calendar, its offset is one that
`parse_offset` takes, and the fields that a shorter form leaves out are not there to be chosen.
What has to be shown of the text is where it is cut: no field contains a separator of the next
larger part, and the designator is the last one.
-/
import Mathlib.Data.List.TakeWhile
import GrpcEpub.Datetime
import GrpcEpub.Lib.Calendar

namespace GrpcEpub

namespace Datetime

open Calendar

/-! ## The calendar

`days_from_civil` counts years from March and has a formula for the days before a month.  The
calendar here knows how long a month is and which day is the next one, and nothing else. -/

/-- The era is the floor of the quotient, before year 0 as well. -/
theorem era_eq (year : Int) : (if 0 ≤ year then year else year - 399).tdiv 400 = year / 400 := by
  split
  · rename_i h
    exact Int.tdiv_eq_ediv_of_nonneg h
  · rw [Int.tdiv_eq_ediv]
    split
    · omega
    · rw [show Int.sign 400 = 1 from rfl]
      omega

/-- The days before a year that begins in March. -/
def daysBefore (year : Int) : Int := 365 * year + year / 4 - year / 100 + year / 400

/-- The source's formula, without the era. -/
theorem daysFromCivil_eq (year : Int) (month day : Nat) (hmonth : 1 ≤ month) :
    daysFromCivil year month day =
      (if month ≤ 2 then daysBefore (year - 1) + (153 * (month + 9) + 2) / 5
        else daysBefore year + (153 * (month - 3) + 2) / 5) + day - 719469 := by
  unfold daysFromCivil
  dsimp only
  rw [era_eq]
  by_cases h : month ≤ 2
  · have h' : (month : Int) ≤ 2 := by omega
    have h'' : ¬ 2 < (month : Int) := by omega
    rw [if_pos h, if_pos h', if_neg h'', Int.tdiv_eq_ediv_of_nonneg (by omega),
      Int.tdiv_eq_ediv_of_nonneg (by omega), Int.tdiv_eq_ediv_of_nonneg (by omega)]
    unfold daysBefore
    omega
  · have h' : ¬ (month : Int) ≤ 2 := by omega
    have h'' : 2 < (month : Int) := by omega
    rw [if_neg h, if_neg h', if_pos h'', Int.tdiv_eq_ediv_of_nonneg (by omega),
      Int.tdiv_eq_ediv_of_nonneg (by omega), Int.tdiv_eq_ediv_of_nonneg (by omega)]
    unfold daysBefore
    omega

/-- A year from March to February is a day longer when its February is. -/
theorem daysBefore_succ (year : Int) :
    daysBefore year = daysBefore (year - 1) + if isLeap year then 366 else 365 := by
  have hleap : isLeap year = true ↔ year % 4 = 0 ∧ (year % 100 ≠ 0 ∨ year % 400 = 0) := by
    simp [isLeap]
  unfold daysBefore
  split
  · rename_i h
    have := hleap.mp h
    omega
  · rename_i h
    have := mt hleap.mpr h
    omega

/-- From March on the months' lengths are the steps of a straight line. -/
theorem monthLength_eq (year : Int) {month : Nat} (hle : 3 ≤ month) (hlt : month < 12) :
    (153 * ((month : Int) + 1 - 3) + 2) / 5 =
      (153 * ((month : Int) - 3) + 2) / 5 + monthLength year month := by
  unfold monthLength
  interval_cases month <;> rfl

/-- One day on is one more.  A year of the formula ends with February, and with its leap day. -/
theorem daysFromCivil_next (d : Date) :
    daysFromCivil d.next.year d.next.month d.next.day =
      daysFromCivil d.year d.month d.day + 1 := by
  have hmonth := d.inYear
  rw [daysFromCivil_eq _ _ _ hmonth.1, daysFromCivil_eq _ _ _ d.next.inYear.1]
  rcases d.next_cases with ⟨-, hy, hm, hd⟩ | ⟨hlast, hlt, hy, hm, hd⟩ | ⟨hlast, heq, hy, hm, hd⟩
  · rw [hy, hm, hd]
    push_cast
    ring
  · rw [hy, hm, hd, hlast]
    obtain h | h | h : d.month = 1 ∨ d.month = 2 ∨ 3 ≤ d.month := by omega
    · rw [h, monthLength]
      norm_num
      omega
    · -- the leap day is the last day of the shifted year
      have hsucc := daysBefore_succ d.year
      rw [h, monthLength]
      cases hleap : isLeap d.year <;> rw [hleap] at hsucc <;> norm_num at hsucc ⊢ <;> omega
    · have hlength := monthLength_eq d.year h hlt
      rw [if_neg (by omega), if_neg (by omega)]
      push_cast
      rw [hlength]
      ring
  · rw [hy, hm, hd, hlast, heq, monthLength]
    norm_num
    omega

/-- The first of January 1970. -/
def epoch : Date where
  year := 1970
  month := 1
  day := 1
  inYear := january
  inMonth := by decide

/-- The formula counts the days from the epoch, one by one. -/
theorem daysFromCivil_count (d : Date) :
    daysFromCivil d.year d.month d.day = epoch.daysTo d := by
  have hcount := Date.count_eq (f := fun d => daysFromCivil d.year d.month d.day)
    daysFromCivil_next epoch d
  have hstart : daysFromCivil 1970 1 1 = 0 := by decide
  rwa [show daysFromCivil epoch.year epoch.month epoch.day = 0 from hstart, zero_add] at hcount

/-- Under the names of the source, the length of a month is the calendar's. -/
theorem daysInMonth_eq {year : Int} {month : Nat} (h : 1 ≤ month ∧ month ≤ 12)
    (hyear : 0 ≤ year) : daysInMonth year month = monthLength year month := by
  obtain ⟨hle, hge⟩ := h
  have hleap : (year.tmod 4 = 0 ∧ (year.tmod 100 ≠ 0 ∨ year.tmod 400 = 0)) ↔
      isLeap year = true := by
    simp only [Int.tmod_eq_emod_of_nonneg hyear, isLeap, Bool.and_eq_true, Bool.or_eq_true,
      beq_iff_eq, bne_iff_ne]
  unfold daysInMonth monthLength
  interval_cases month
  case «2» => simp only [hleap, if_true]
  all_goals rfl

/-! ## The grammar

Each part as it may be written, how it is rendered, and what it amounts to in seconds or in
nanoseconds. -/

/-- A digit as it is written. -/
def digitChar (n : Nat) : Char := Char.ofNat ('0'.toNat + n)

def two (n : Nat) : Str := [digitChar (n / 10), digitChar (n % 10)]

def four (n : Nat) : Str := two (n / 100) ++ two (n % 100)

/-- What stands between a date and a time of day. -/
inductive Separator where
  | upper
  | lower
  | space
deriving DecidableEq, Repr

def Separator.char : Separator → Char
  | .upper => 'T'
  | .lower => 't'
  | .space => ' '

inductive Direction where
  | east
  | west
deriving DecidableEq, Repr

def Direction.char : Direction → Char
  | .east => '+'
  | .west => '-'

/-- The time of day an offset names. -/
inductive Offset where
  | colon (hours : Fin 24) (minutes : Fin 60)
  | compact (hours : Fin 24) (minutes : Fin 60)
  | bare (hours : Fin 24)
deriving DecidableEq, Repr

namespace Offset

def render : Offset → Str
  | .colon hours minutes => two hours ++ ':' :: two minutes
  | .compact hours minutes => two hours ++ two minutes
  | .bare hours => two hours

def minutes : Offset → Nat
  | .colon hours minutes | .compact hours minutes => hours * 60 + minutes
  | .bare hours => hours * 60

end Offset

inductive Designator where
  | absent
  | utc
  | signed (direction : Direction) (offset : Offset)
deriving DecidableEq, Repr

namespace Designator

def render : Designator → Str
  | .absent => []
  | .utc => ['Z']
  | .signed direction offset => direction.char :: offset.render

/-- Minutes east of UTC. -/
def minutes : Designator → Int
  | .absent | .utc => 0
  | .signed .east offset => offset.minutes
  | .signed .west offset => -offset.minutes

end Designator

/-- A time of day, with the digits of a fraction where it has one. -/
structure Clock where
  hour : Fin 24
  minute : Fin 60
  second : Option (Fin 60 × Option (List (Fin 10)))
  designator : Designator
deriving DecidableEq, Repr

def fractionText (digits : List (Fin 10)) : Str := digits.map fun (n : Fin 10) => digitChar n

/-- The first nine digits of a fraction, padded with zeros. -/
def fractionNanos (digits : List (Fin 10)) : Nat :=
  ((digits.map Fin.val ++ List.replicate 9 0).take 9).foldl (fun n digit => 10 * n + digit) 0

namespace Clock

def time (clock : Clock) : Str :=
  two clock.hour ++ ':' :: two clock.minute ++
    match clock.second with
    | none => []
    | some (second, none) => ':' :: two second
    | some (second, some digits) => ':' :: two second ++ '.' :: fractionText digits

def render (clock : Clock) : Str := clock.time ++ clock.designator.render

/-- Seconds after midnight UTC. -/
def seconds (clock : Clock) : Int :=
  clock.hour * 3600 + clock.minute * 60 + (clock.second.map fun s => (s.1 : Int)).getD 0 -
    clock.designator.minutes * 60

def nanos (clock : Clock) : Nat :=
  match clock.second with
  | some (_, some digits) => fractionNanos digits
  | _ => 0

end Clock

/-- A year that four digits write. -/
structure Year where
  value : Nat
  inRange : 1 ≤ value ∧ value ≤ 9999
deriving DecidableEq

/-- A date in such a year. -/
structure Day where
  year : Year
  month : Nat
  day : Nat
  inYear : 1 ≤ month ∧ month ≤ 12
  inMonth : 1 ≤ day ∧ day ≤ monthLength year.value month

namespace Day

def date (d : Day) : Date where
  year := d.year.value
  month := d.month
  day := d.day
  inYear := d.inYear
  inMonth := d.inMonth

def render (d : Day) : Str := four d.year.value ++ '-' :: two d.month ++ '-' :: two d.day

end Day

/-- Every way the documentation allows to write a date. -/
inductive Spelling where
  | ofYear (year : Year)
  | ofMonth (year : Year) (month : Nat) (inYear : 1 ≤ month ∧ month ≤ 12)
  | ofDay (day : Day)
  | ofTime (day : Day) (separator : Separator) (clock : Clock)

namespace Spelling

/-- The date a spelling names, a truncated one its first. -/
def date : Spelling → Date
  | .ofYear year =>
      { year := year.value, month := 1, day := 1, inYear := january
        inMonth := ⟨le_rfl, monthLength_pos _ _⟩ }
  | .ofMonth year month inYear =>
      { year := year.value, month, day := 1, inYear, inMonth := ⟨le_rfl, monthLength_pos _ _⟩ }
  | .ofDay day | .ofTime day _ _ => day.date

def render : Spelling → Str
  | .ofYear year => four year.value
  | .ofMonth year month _ => four year.value ++ '-' :: two month
  | .ofDay day => day.render
  | .ofTime day separator clock => day.render ++ separator.char :: clock.render

/-- The instant a spelling names. -/
def instant (s : Spelling) : Timestamp :=
  let days := epoch.daysTo s.date
  match s with
  | .ofTime _ _ clock => { seconds := 86400 * days + clock.seconds, nanos := clock.nanos }
  | _ => { seconds := 86400 * days, nanos := 0 }

end Spelling

/-! ## Digits

Digits are ASCII, so the number that is read is the number that was written, and no separator
is among them. -/

theorem digitChar_spec : ∀ n : Fin 10, isDigit (digitChar n) = true ∧ digit (digitChar n) = n ∧
    (digitChar n).utf8Size = 1 ∧ isSeparator (digitChar n) = false ∧
    isSign (digitChar n) = false ∧ Str.isWhitespace (digitChar n) = false ∧
    digitChar n ∉ (['-', ':', '.', 'Z', 'z'] : Str) := by
  decide

/-- What is true of every character of a text of digits. -/
def Digits (s : Str) : Prop := ∀ c ∈ s, ∃ n : Fin 10, c = digitChar n

theorem Digits.append {s t : Str} (hs : Digits s) (ht : Digits t) : Digits (s ++ t) := by
  intro c hc
  rcases List.mem_append.mp hc with hc | hc
  · exact hs c hc
  · exact ht c hc

theorem digits_two {n : Nat} (h : n < 100) : Digits (two n) := by
  intro c hc
  rcases List.mem_pair.mp hc with rfl | rfl
  · exact ⟨⟨n / 10, by omega⟩, rfl⟩
  · exact ⟨⟨n % 10, by omega⟩, rfl⟩

theorem digits_four {n : Nat} (h : n < 10000) : Digits (four n) :=
  (digits_two (by omega)).append (digits_two (by omega))

theorem digits_fractionText (digits : List (Fin 10)) : Digits (fractionText digits) := by
  intro c hc
  obtain ⟨n, -, rfl⟩ := List.mem_map.mp hc
  exact ⟨n, rfl⟩

section Digits

variable {s : Str} (h : Digits s)
include h

theorem Digits.all : s.all isDigit = true := by
  rw [List.all_eq_true]
  intro c hc
  obtain ⟨n, rfl⟩ := h c hc
  exact (digitChar_spec n).1

theorem Digits.len : s.len = s.length := by
  induction s with
  | nil => rfl
  | cons c s ih =>
      obtain ⟨n, rfl⟩ := h c List.mem_cons_self
      rw [Str.len_cons, (digitChar_spec n).2.2.1, ih fun c hc => h c (List.mem_cons_of_mem _ hc),
        List.length_cons, Nat.add_comm]

theorem Digits.not_mem {c : Char} (hc : c ∈ (['-', ':', '.', 'Z', 'z'] : Str)) : c ∉ s := by
  intro hmem
  obtain ⟨n, rfl⟩ := h c hmem
  exact (digitChar_spec n).2.2.2.2.2.2 hc

theorem Digits.not_separator {c : Char} (hc : c ∈ s) : isSeparator c = false := by
  obtain ⟨n, rfl⟩ := h c hc
  exact (digitChar_spec n).2.2.2.1

end Digits

theorem digit_digitChar {n : Nat} (h : n < 10) : digit (digitChar n) = n :=
  (digitChar_spec ⟨n, h⟩).2.1

theorem number_two {n : Nat} (h : n < 100) : number (two n) = n := by
  simp only [number, two, List.foldl_cons, List.foldl_nil,
    digit_digitChar (show n / 10 < 10 by omega), digit_digitChar (show n % 10 < 10 by omega)]
  omega

theorem number_four {n : Nat} (h : n < 10000) : number (four n) = n := by
  simp only [number, four, two, List.cons_append, List.nil_append, List.foldl_cons,
    List.foldl_nil, digit_digitChar (show n / 100 / 10 < 10 by omega),
    digit_digitChar (show n / 100 % 10 < 10 by omega),
    digit_digitChar (show n % 100 / 10 < 10 by omega),
    digit_digitChar (show n % 100 % 10 < 10 by omega)]
  omega

theorem twoDigits_two {n : Nat} (h : n < 100) (default : Nat) :
    twoDigits (some (two n)) default = some n := by
  have hdigits := digits_two h
  unfold twoDigits
  dsimp only
  rw [if_neg, number_two h]
  rw [hdigits.len, hdigits.all]
  simp [two]

/-! ## The date

From the fields of a day, of a month or of a year to the text and back. -/

/-- A date's fields are read when they are digits and name a day of the calendar. -/
theorem dateParts_fields {year : Nat} {rest : List Str} {month day : Nat}
    (hyear : 1 ≤ year ∧ year ≤ 9999) (hrest : ∀ field ∈ rest, Digits field)
    (hlength : rest.length ≤ 2)
    (hmonth : twoDigits rest[0]? 1 = some month) (hday : twoDigits rest[1]? 1 = some day)
    (hinYear : 1 ≤ month ∧ month ≤ 12) (hinMonth : 1 ≤ day ∧ day ≤ monthLength year month) :
    dateParts (List.intercalate ['-'] (four year :: rest)) = some (↑year, month, day) := by
  have hfour : Digits (four year) := digits_four (by omega)
  have hsplit : (List.intercalate ['-'] (four year :: rest)).splitOn '-' = four year :: rest := by
    refine List.splitOn_intercalate '-' ?_ (List.cons_ne_nil _ _)
    intro field hfield
    rcases List.mem_cons.mp hfield with rfl | hfield
    · exact hfour.not_mem (by decide)
    · exact (hrest field hfield).not_mem (by decide)
  have hrange : ¬ ((four year).len ≠ 4 ∨ ¬ (four year).all isDigit = true) := by
    rw [hfour.len, hfour.all]
    simp [four, two]
  have hzero : ¬ ((year : Int) = 0) := by omega
  have hlong : ¬ (rest[2]?.isSome = true ∨ ¬ (1 ≤ month ∧ month ≤ 12)) := by
    rw [List.getElem?_eq_none hlength]
    simpa using hinYear
  have hlast : ¬ (day < 1 ∨ daysInMonth year month < day) := by
    rw [daysInMonth_eq hinYear (by omega)]
    omega
  unfold dateParts
  rw [hsplit]
  simp only [List.getElem?_cons_zero, List.getElem?_cons_succ, Option.bind_eq_bind,
    Option.bind_some, if_neg hrange, number_four (show year < 10000 by omega), if_neg hzero,
    hmonth, hday, if_neg hlong, if_neg hlast]

theorem dateParts_day (d : Day) :
    dateParts d.render = some (↑d.year.value, d.month, d.day) := by
  have hmonth : d.month < 100 := by have := d.inYear; omega
  have hday : d.day < 100 := by
    have := d.inMonth.2.trans (monthLength_le _ _)
    omega
  have hrender : d.render = List.intercalate ['-'] [four d.year.value, two d.month, two d.day] := by
    simp [Day.render, List.intercalate]
  rw [hrender]
  refine dateParts_fields d.year.inRange ?_ (by simp) (twoDigits_two hmonth 1)
    (twoDigits_two hday 1) d.inYear d.inMonth
  simpa using ⟨digits_two hmonth, digits_two hday⟩

theorem dateParts_month {year : Year} {month : Nat} (h : 1 ≤ month ∧ month ≤ 12) :
    dateParts (four year.value ++ '-' :: two month) = some (↑year.value, month, 1) := by
  have hmonth : month < 100 := by omega
  have hrender : four year.value ++ '-' :: two month =
      List.intercalate ['-'] [four year.value, two month] := by
    simp [List.intercalate]
  rw [hrender]
  refine dateParts_fields year.inRange ?_ (by simp) (twoDigits_two hmonth 1) rfl h
    ⟨le_rfl, monthLength_pos _ _⟩
  simpa using digits_two hmonth

theorem dateParts_year (year : Year) :
    dateParts (four year.value) = some (↑year.value, 1, 1) := by
  have hrender : four year.value = List.intercalate ['-'] [four year.value] := by
    simp [List.intercalate]
  rw [hrender]
  exact dateParts_fields year.inRange (by simp) (by simp) rfl rfl (by decide)
    ⟨le_rfl, monthLength_pos _ _⟩

/-! ## The time of day

The fraction is read digit by digit up to the ninth; the rest of it is dropped. -/

/-- Up to nine digits are read as written, and the tenth is not looked at. -/
theorem nanoseconds_fractionText (digits : List (Fin 10)) :
    nanoseconds (fractionText digits) = some ↑(fractionNanos digits) := by
  cases hempty : digits with
  | nil => decide
  | cons n rest =>
      rw [← hempty]
      have hne : fractionText digits ≠ [] := by
        rw [hempty]
        exact List.cons_ne_nil _ _
      unfold nanoseconds
      rw [if_neg hne, if_neg (not_not.mpr (digits_fractionText digits).all)]
      dsimp only
      congr 2
      have hpadded : (List.range 9).map
          (fun position => ((fractionText digits)[position]?.map digit).getD 0) =
          (digits.map Fin.val ++ List.replicate 9 0).take 9 := by
        refine List.ext_getElem (by simp) ?_
        intro i hi _
        rw [List.length_map, List.length_range] at hi
        rw [List.getElem_map, List.getElem_range, List.getElem_take, List.getElem_append]
        split
        · rename_i hlt
          rw [List.length_map] at hlt
          rw [fractionText, List.getElem?_map, List.getElem?_eq_getElem hlt]
          simpa using digit_digitChar (digits[i]).isLt
        · rename_i hge
          rw [List.length_map] at hge
          rw [fractionText, List.getElem?_eq_none (by simpa using hge), List.getElem_replicate]
          rfl
      rw [fractionNanos, ← hpadded, List.foldl_map]
      congr 1
      funext nanos position
      rw [Nat.mul_comm]

/-- The fields of a time of day, for the split at its colons. -/
def Clock.fields (clock : Clock) : List Str :=
  two clock.hour :: two clock.minute ::
    match clock.second with
    | none => []
    | some (second, none) => [two second]
    | some (second, some digits) => [two second ++ '.' :: fractionText digits]

/-- No field contains a colon. -/
theorem Clock.splitOn_time (clock : Clock) : clock.time.splitOn ':' = clock.fields := by
  have hhour := digits_two (show (clock.hour : Nat) < 100 by omega)
  have hminute := digits_two (show (clock.minute : Nat) < 100 by omega)
  have htime : clock.time = List.intercalate [':'] clock.fields := by
    unfold Clock.time Clock.fields
    split <;> simp [List.intercalate]
  rw [htime]
  refine List.splitOn_intercalate ':' ?_ (List.cons_ne_nil _ _)
  intro field hfield
  unfold Clock.fields at hfield
  rcases List.mem_cons.mp hfield with rfl | hfield
  · exact hhour.not_mem (by decide)
  rcases List.mem_cons.mp hfield with rfl | hfield
  · exact hminute.not_mem (by decide)
  split at hfield
  · cases hfield
  · rename_i second _
    obtain rfl := List.mem_singleton.mp hfield
    exact (digits_two (show (second : Nat) < 100 by omega)).not_mem (by decide)
  · rename_i second digits _
    obtain rfl := List.mem_singleton.mp hfield
    have hsecond := (digits_two (show (second : Nat) < 100 by omega)).not_mem
      (show ':' ∈ _ by decide)
    have hfraction := (digits_fractionText digits).not_mem (show ':' ∈ _ by decide)
    simp [hsecond, hfraction]

/-- A time of day is read as the fields it was written from. -/
theorem timeParts_time (clock : Clock) :
    timeParts clock.time = some (↑clock.hour, ↑clock.minute,
      (clock.second.map fun s => (s.1 : Nat)).getD 0, ↑clock.nanos) := by
  have hhour := clock.hour.isLt
  have hminute := clock.minute.isLt
  unfold timeParts
  rw [clock.splitOn_time]
  unfold Clock.fields Clock.nanos
  cases hsecond : clock.second with
  | none =>
      simp only [List.getElem?_cons_zero, List.getElem?_cons_succ, Option.bind_eq_bind,
        Option.bind_some, twoDigits_two (show (clock.hour : Nat) < 100 by omega),
        twoDigits_two (show (clock.minute : Nat) < 100 by omega)]
      simp
      omega
  | some parts =>
      obtain ⟨second, fraction⟩ := parts
      have hlt := second.isLt
      have hwhole := digits_two (show (second : Nat) < 100 by omega)
      cases fraction with
      | none =>
          simp only [List.getElem?_cons_zero, List.getElem?_cons_succ, Option.bind_eq_bind,
            Option.bind_some, twoDigits_two (show (clock.hour : Nat) < 100 by omega),
            twoDigits_two (show (clock.minute : Nat) < 100 by omega),
            Str.splitOnce_none (hwhole.not_mem (show '.' ∈ _ by decide)),
            twoDigits_two (show (second : Nat) < 100 by omega), Option.getD_none]
          simp [nanoseconds]
          omega
      | some digits =>
          simp only [List.getElem?_cons_zero, List.getElem?_cons_succ, Option.bind_eq_bind,
            Option.bind_some, twoDigits_two (show (clock.hour : Nat) < 100 by omega),
            twoDigits_two (show (clock.minute : Nat) < 100 by omega),
            Str.splitOnce_append (hwhole.not_mem (show '.' ∈ _ by decide)),
            twoDigits_two (show (second : Nat) < 100 by omega), Option.getD_some,
            nanoseconds_fractionText]
          simp
          omega

/-! ## The designator

`Z` is taken off the end.  A sign is looked for from the end on, so the one that is found is the
offset's, and a time of day has none of its own. -/

theorem stripZulu_append (s : Str) : stripZulu (s ++ ['Z']) = some s := by
  simp [stripZulu]

theorem stripZulu_none {s : Str} {c : Char} (hlast : s.getLast? = some c)
    (hc : c ≠ 'Z' ∧ c ≠ 'z') : stripZulu s = none := by
  simp [stripZulu, hlast, hc.1, hc.2]

theorem splitSign_none {s : Str} (h : ∀ c ∈ s, isSign c = false) : splitSign s = none := by
  have hall : ∀ c ∈ s.reverse, (!isSign c) = true := by
    intro c hc
    simp [h c (List.mem_reverse.mp hc)]
  unfold splitSign
  rw [List.dropWhile_eq_nil_iff.mpr hall]

theorem splitSign_append {time digits : Str} {sign : Char} (hsign : isSign sign = true)
    (h : ∀ c ∈ digits, isSign c = false) :
    splitSign (time ++ sign :: digits) = some (time, sign, digits) := by
  have hall : ∀ c ∈ digits.reverse, (!isSign c) = true := by
    intro c hc
    simp [h c (List.mem_reverse.mp hc)]
  have hreverse : (time ++ sign :: digits).reverse =
      digits.reverse ++ (sign :: time.reverse) := by simp
  unfold splitSign
  rw [hreverse, List.takeWhile_append_of_pos hall, List.dropWhile_append_of_pos hall]
  simp [hsign]

theorem splitAt_two {n : Nat} (h : n < 100) (t : Str) : splitAt 2 (two n ++ t) = .ok (two n, t) := by
  have hhigh := (digitChar_spec ⟨n / 10, by omega⟩).2.2.1
  have hlow := (digitChar_spec ⟨n % 10, by omega⟩).2.2.1
  simp only at hhigh hlow
  simp [two, splitAt, hhigh, hlow, Except.map]

/-- An offset is read as its hours and its minutes, whichever way it is written. -/
theorem offsetFields_render (offset : Offset) : ∃ hours minutes : Nat, hours ≤ 23 ∧
    minutes ≤ 59 ∧ hours * 60 + minutes = offset.minutes ∧
    ∃ hourText minuteText, offsetFields offset.render = .ok (hourText, minuteText) ∧
      twoDigits (some hourText) 0 = some hours ∧ twoDigits (some minuteText) 0 = some minutes := by
  cases offset with
  | colon hours minutes =>
      have hhours : (hours : Nat) < 100 := by omega
      have hminutes : (minutes : Nat) < 100 := by omega
      refine ⟨hours, minutes, by omega, by omega, rfl, two hours, two minutes, ?_,
        twoDigits_two hhours 0, twoDigits_two hminutes 0⟩
      unfold offsetFields Offset.render
      rw [Str.splitOnce_append ((digits_two hhours).not_mem (by decide))]
  | compact hours minutes =>
      have hhours : (hours : Nat) < 100 := by omega
      have hminutes : (minutes : Nat) < 100 := by omega
      have hdigits := (digits_two hhours).append (digits_two hminutes)
      refine ⟨hours, minutes, by omega, by omega, rfl, two hours, two minutes, ?_,
        twoDigits_two hhours 0, twoDigits_two hminutes 0⟩
      unfold offsetFields Offset.render
      rw [Str.splitOnce_none (hdigits.not_mem (by decide)), hdigits.len]
      exact splitAt_two hhours _
  | bare hours =>
      have hhours : (hours : Nat) < 100 := by omega
      have hdigits := digits_two hhours
      refine ⟨hours, 0, by omega, by omega, rfl, two hours, "0", ?_,
        twoDigits_two hhours 0, by decide⟩
      unfold offsetFields Offset.render
      rw [Str.splitOnce_none (hdigits.not_mem (by decide)), hdigits.len]
      rfl

/-- An offset is digits, and perhaps a colon. -/
theorem Offset.mem_render {offset : Offset} {c : Char} (hc : c ∈ offset.render) :
    c = ':' ∨ ∃ n : Fin 10, c = digitChar n := by
  cases offset with
  | colon hours minutes =>
      rcases List.mem_append.mp hc with hc | hc
      · exact .inr (digits_two (show (hours : Nat) < 100 by omega) c hc)
      · rcases List.mem_cons.mp hc with rfl | hc
        · exact .inl rfl
        · exact .inr (digits_two (show (minutes : Nat) < 100 by omega) c hc)
  | compact hours minutes =>
      rcases List.mem_append.mp hc with hc | hc
      · exact .inr (digits_two (show (hours : Nat) < 100 by omega) c hc)
      · exact .inr (digits_two (show (minutes : Nat) < 100 by omega) c hc)
  | bare hours => exact .inr (digits_two (show (hours : Nat) < 100 by omega) c hc)

/-- A time of day is digits, colons and perhaps a dot. -/
theorem Clock.mem_time {clock : Clock} {c : Char} (hc : c ∈ clock.time) :
    c = ':' ∨ c = '.' ∨ ∃ n : Fin 10, c = digitChar n := by
  have hhour := digits_two (show (clock.hour : Nat) < 100 by omega)
  have hminute := digits_two (show (clock.minute : Nat) < 100 by omega)
  unfold Clock.time at hc
  rcases List.mem_append.mp hc with hc | hc
  · rcases List.mem_append.mp hc with hc | hc
    · exact .inr (.inr (hhour c hc))
    · rcases List.mem_cons.mp hc with rfl | hc
      · exact .inl rfl
      · exact .inr (.inr (hminute c hc))
  · split at hc
    · cases hc
    · rename_i second _
      rcases List.mem_cons.mp hc with rfl | hc
      · exact .inl rfl
      · exact .inr (.inr (digits_two (show (second : Nat) < 100 by omega) c hc))
    · rename_i second digits _
      rcases List.mem_append.mp hc with hc | hc
      · rcases List.mem_cons.mp hc with rfl | hc
        · exact .inl rfl
        · exact .inr (.inr (digits_two (show (second : Nat) < 100 by omega) c hc))
      · rcases List.mem_cons.mp hc with rfl | hc
        · exact .inr (.inl rfl)
        · exact .inr (.inr (digits_fractionText digits c hc))

/-- The characters of a clock in front of its designator, and of an offset. -/
theorem clockChar_spec {c : Char} (hc : c = ':' ∨ c = '.' ∨ ∃ n : Fin 10, c = digitChar n) :
    isSign c = false ∧ c ≠ 'Z' ∧ c ≠ 'z' ∧ isSeparator c = false ∧
      Str.isWhitespace c = false := by
  obtain rfl | rfl | ⟨n, rfl⟩ := hc
  · decide
  · decide
  · obtain ⟨-, -, -, hseparator, hsign, hspace, hother⟩ := digitChar_spec n
    have hne : ∀ d : Char, d ∈ (['-', ':', '.', 'Z', 'z'] : Str) → digitChar n ≠ d := by
      rintro d hd rfl
      exact hother hd
    exact ⟨hsign, hne 'Z' (by decide), hne 'z' (by decide), hseparator, hspace⟩

theorem Clock.time_ne_nil (clock : Clock) : clock.time ≠ [] := by
  simp [Clock.time, two]

theorem stripZulu_time {s : Str} (hne : s ≠ []) (h : ∀ c ∈ s, c ≠ 'Z' ∧ c ≠ 'z') :
    stripZulu s = none :=
  stripZulu_none (List.getLast?_eq_some_getLast hne) (h _ (List.getLast_mem hne))

/-- The sign that is found is the offset's: what is in front of it is the time of day, which has
none. -/
theorem splitOffset_render (clock : Clock) :
    (splitOffset clock.render).run = .ok (some (clock.time, clock.designator.minutes)) := by
  have htime : ∀ c ∈ clock.time, isSign c = false ∧ c ≠ 'Z' ∧ c ≠ 'z' ∧ isSeparator c = false ∧
      Str.isWhitespace c = false := fun c hc => clockChar_spec (Clock.mem_time hc)
  unfold splitOffset Clock.render
  cases clock.designator with
  | absent =>
      rw [Designator.render, List.append_nil,
        stripZulu_time clock.time_ne_nil fun c hc => ⟨(htime c hc).2.1, (htime c hc).2.2.1⟩]
      dsimp only
      rw [splitSign_none fun c hc => (htime c hc).1]
      rfl
  | utc =>
      rw [Designator.render, stripZulu_append]
      rfl
  | signed direction offset =>
      have hoffset : ∀ c ∈ offset.render, isSign c = false ∧ c ≠ 'Z' ∧ c ≠ 'z' ∧
          isSeparator c = false ∧ Str.isWhitespace c = false := by
        intro c hc
        refine clockChar_spec ?_
        rcases Offset.mem_render hc with h | h
        · exact .inl h
        · exact .inr (.inr h)
      have hsign : isSign direction.char = true := by cases direction <;> rfl
      have hzulu : stripZulu (clock.time ++ direction.char :: offset.render) = none := by
        refine stripZulu_time (by simp) ?_
        intro c hc
        rcases List.mem_append.mp hc with hc | hc
        · exact ⟨(htime c hc).2.1, (htime c hc).2.2.1⟩
        · rcases List.mem_cons.mp hc with rfl | hc
          · cases direction <;> decide
          · exact ⟨(hoffset c hc).2.1, (hoffset c hc).2.2.1⟩
      obtain ⟨hours, minutes, hh, hm, hsum, hourText, minuteText, hfields, hhours, hminutes⟩ :=
        offsetFields_render offset
      rw [Designator.render, hzulu]
      dsimp only
      rw [splitSign_append hsign fun c hc => (hoffset c hc).1]
      dsimp only
      rw [hfields, Read.run_bind_lift, hhours, Read.run_bind_mk, hminutes, Read.run_bind_mk,
        if_neg (by omega)]
      show Except.ok (some _) = _
      cases direction with
      | east => simp [Direction.char, Designator.minutes, ← hsum]
      | west => simp [Direction.char, Designator.minutes, ← hsum]

/-! ## The whole spelling

The blanks around it, the `T`, the two halves.  The instant must lie where the type that the
source answers with can hold it. -/

theorem clockParts_render (clock : Clock) :
    (clockParts clock.render).run = .ok (some (↑clock.hour, ↑clock.minute,
      (clock.second.map fun s => (s.1 : Nat)).getD 0, ↑clock.nanos,
      clock.designator.minutes)) := by
  unfold clockParts
  rw [Read.run_bind (splitOffset_render clock)]
  dsimp only
  rw [timeParts_time]
  rfl

/-- A text between two characters that are not whitespace. -/
structure Trimmed (text : Str) : Prop where
  first : ∃ c, text.head? = some c ∧ Str.isWhitespace c = false
  last : ∃ c, text.getLast? = some c ∧ Str.isWhitespace c = false

/-- What surrounds such a text is trimmed off it. -/
theorem Trimmed.trim {before text after : Str} (h : Trimmed text)
    (hbefore : ∀ c ∈ before, Str.isWhitespace c = true)
    (hafter : ∀ c ∈ after, Str.isWhitespace c = true) :
    Str.trim (before ++ text ++ after) = text := by
  obtain ⟨⟨first, hfirst, hfirst'⟩, last, hlast, hlast'⟩ := h
  have hafter' : ∀ c ∈ after.reverse, Str.isWhitespace c = true :=
    fun c hc => hafter c (List.mem_reverse.mp hc)
  obtain ⟨rest, rfl⟩ : ∃ rest, text = first :: rest := by
    cases text with
    | nil => cases hfirst
    | cons c rest =>
        cases hfirst
        exact ⟨rest, rfl⟩
  obtain ⟨rest', hrest'⟩ : ∃ rest', first :: rest = rest' ++ [last] :=
    ⟨_, (List.dropLast_append_getLast? last hlast).symm⟩
  unfold Str.trim
  rw [List.append_assoc, List.dropWhile_append_of_pos hbefore, List.cons_append,
    List.dropWhile_cons_of_neg (by simp [hfirst']), ← List.cons_append, List.reverse_append,
    List.dropWhile_append_of_pos hafter', hrest', List.reverse_append, List.reverse_singleton,
    List.singleton_append, List.dropWhile_cons_of_neg (by simp [hlast']), List.reverse_cons,
    List.reverse_reverse]

/-- A date without a clock. -/
theorem parse_date {value date : Str} {year : Int} {month day : Nat} (htrim : value.trim = date)
    (hne : date ≠ []) (hseparator : ∀ c ∈ date, isSeparator c = false)
    (hdate : dateParts date = some (year, month, day)) :
    (parse value).run =
      .ok (some { seconds := 86400 * daysFromCivil year month day, nanos := 0 }) := by
  have hall : ∀ c ∈ date, (!isSeparator c) = true := by
    intro c hc
    simp [hseparator c hc]
  unfold parse
  dsimp only
  rw [htrim, if_neg hne, List.takeWhile_eq_self_iff.mpr hall, List.dropWhile_eq_nil_iff.mpr hall,
    hdate, Read.run_bind_mk]
  show Except.ok (some _) = _
  simp [secondsPerDay, Int.mul_comm]

/-- The halves put together: a date, a separator, and a clock that is not empty. -/
theorem parse_time {value date clock : Str} {separator : Char} {year offset : Int}
    {month day hour minute second : Nat} {nanos : Int}
    (htrim : value.trim = date ++ separator :: clock) (hseparator : isSeparator separator = true)
    (hclock : clock ≠ []) (hother : ∀ c ∈ date, isSeparator c = false)
    (hdate : dateParts date = some (year, month, day))
    (hparts : (clockParts clock).run = .ok (some (hour, minute, second, nanos, offset))) :
    (parse value).run = .ok (some
      { seconds := 86400 * daysFromCivil year month day +
          (hour * 3600 + minute * 60 + second - offset * 60), nanos }) := by
  have hall : ∀ c ∈ date, (!isSeparator c) = true := by
    intro c hc
    simp [hother c hc]
  have htake : (date ++ separator :: clock).takeWhile (!isSeparator ·) = date := by
    rw [List.takeWhile_append_of_pos hall, List.takeWhile_cons_of_neg (by simp [hseparator]),
      List.append_nil]
  have hdrop : ((date ++ separator :: clock).dropWhile (!isSeparator ·)).drop 1 = clock := by
    rw [List.dropWhile_append_of_pos hall, List.dropWhile_cons_of_neg (by simp [hseparator])]
    rfl
  unfold parse
  dsimp only
  rw [htrim, if_neg (by simp), htake, hdrop, hdate, Read.run_bind_mk]
  dsimp only
  rw [if_neg hclock, Read.run_bind hparts]
  show Except.ok (some _) = _
  congr 3
  unfold secondsPerDay
  ring

namespace Spelling

/-- A date is digits and hyphens. -/
theorem mem_day {d : Day} {c : Char} (hc : c ∈ d.render) :
    c = '-' ∨ ∃ n : Fin 10, c = digitChar n := by
  have hyear := digits_four (show d.year.value < 10000 by have := d.year.inRange; omega)
  have hmonth := digits_two (show d.month < 100 by have := d.inYear; omega)
  have hday := digits_two (show d.day < 100 by
    have := d.inMonth.2.trans (monthLength_le _ _)
    omega)
  unfold Day.render at hc
  simp only [List.mem_append, List.mem_cons] at hc
  obtain (hc | rfl | hc) | rfl | hc := hc
  · exact .inr (hyear c hc)
  · exact .inl rfl
  · exact .inr (hmonth c hc)
  · exact .inl rfl
  · exact .inr (hday c hc)

theorem day_not_separator {d : Day} : ∀ c ∈ d.render, isSeparator c = false := by
  intro c hc
  rcases mem_day hc with rfl | ⟨n, rfl⟩
  · rfl
  · exact (digitChar_spec n).2.2.2.1

/-- Every spelling begins with the first digit of its year. -/
theorem render_first (s : Spelling) : ∃ n : Fin 10, s.render.head? = some (digitChar n) := by
  have hfour : ∀ year : Year, ∃ n : Fin 10, (four year.value).head? = some (digitChar n) := by
    intro year
    have hrange := year.inRange
    exact ⟨⟨year.value / 100 / 10, by omega⟩, rfl⟩
  cases s with
  | ofYear year => exact hfour year
  | ofMonth year month _ => exact hfour year
  | ofDay d => exact hfour d.year
  | ofTime d separator clock => exact hfour d.year

theorem two_getLast? (n : Nat) (s : Str) :
    ∃ c, (s ++ two n).getLast? = some c ∧ Str.isWhitespace c = false := by
  refine ⟨digitChar (n % 10), by simp [two], ?_⟩
  exact (digitChar_spec ⟨n % 10, by omega⟩).2.2.2.2.2.1

/-- The last character of a clock is one of its designator, or one of its time. -/
theorem clock_getLast? (clock : Clock) (s : Str) :
    ∃ c, (s ++ clock.render).getLast? = some c ∧ Str.isWhitespace c = false := by
  have hne : clock.render ≠ [] := by
    simp [Clock.render, clock.time_ne_nil]
  refine ⟨clock.render.getLast hne, ?_, ?_⟩
  · rw [List.getLast?_append_of_ne_nil _ hne, List.getLast?_eq_some_getLast hne]
  · have hmem := List.getLast_mem hne
    rcases List.mem_append.mp hmem with hc | hc
    · exact (clockChar_spec (Clock.mem_time hc)).2.2.2.2
    · cases hdesignator : clock.designator with
      | absent =>
          rw [hdesignator] at hc
          cases hc
      | utc =>
          rw [hdesignator, Designator.render, List.mem_singleton] at hc
          rw [hc]
          rfl
      | signed direction offset =>
          rw [hdesignator, Designator.render] at hc
          rcases List.mem_cons.mp hc with hc | hc
          · rw [hc]
            cases direction <;> rfl
          · refine (clockChar_spec ?_).2.2.2.2
            rcases Offset.mem_render hc with h | h
            · exact .inl h
            · exact .inr (.inr h)

/-- No spelling begins or ends with a blank. -/
theorem render_trimmed (s : Spelling) : Trimmed s.render where
  first := by
    obtain ⟨n, hn⟩ := s.render_first
    exact ⟨digitChar n, hn, (digitChar_spec n).2.2.2.2.2.1⟩
  last := by
    cases s with
    | ofYear year => exact two_getLast? _ (two (year.value / 100))
    | ofMonth year month h =>
        rw [render, List.append_cons]
        exact two_getLast? month _
    | ofDay d =>
        rw [render, Day.render, List.append_cons]
        exact two_getLast? d.day _
    | ofTime d separator clock =>
        rw [render, List.append_cons]
        exact clock_getLast? clock _

/-- Whatever the spelling, and with blanks around it. -/
theorem parse_render (s : Spelling) {before after : Str}
    (hbefore : ∀ c ∈ before, Str.isWhitespace c = true)
    (hafter : ∀ c ∈ after, Str.isWhitespace c = true) :
    (parse (before ++ s.render ++ after)).run = .ok (some s.instant) := by
  have htrim := s.render_trimmed.trim hbefore hafter
  cases s with
  | ofYear year =>
      have hdigits := digits_four (show year.value < 10000 by have := year.inRange; omega)
      have hother : ∀ c ∈ render (.ofYear year), isSeparator c = false :=
        fun c hc => hdigits.not_separator hc
      have hne : render (.ofYear year) ≠ [] := List.cons_ne_nil _ _
      have hcount : daysFromCivil year.value 1 1 = epoch.daysTo (date (.ofYear year)) :=
        daysFromCivil_count (date (.ofYear year))
      rw [parse_date htrim hne hother (dateParts_year year), hcount]
      rfl
  | ofMonth year month h =>
      have hyear := digits_four (show year.value < 10000 by have := year.inRange; omega)
      have hmonth := digits_two (show month < 100 by omega)
      have hother : ∀ c ∈ render (.ofMonth year month h), isSeparator c = false := by
        intro c hc
        rcases List.mem_append.mp hc with hc | hc
        · exact hyear.not_separator hc
        · rcases List.mem_cons.mp hc with rfl | hc
          · rfl
          · exact hmonth.not_separator hc
      have hcount : daysFromCivil year.value month 1 =
          epoch.daysTo (date (.ofMonth year month h)) :=
        daysFromCivil_count (date (.ofMonth year month h))
      rw [parse_date htrim (by simp [render]) hother (dateParts_month h), hcount]
      rfl
  | ofDay d =>
      have hcount : daysFromCivil d.year.value d.month d.day = epoch.daysTo d.date :=
        daysFromCivil_count d.date
      rw [parse_date htrim (by simp [render, Day.render]) day_not_separator (dateParts_day d),
        hcount]
      rfl
  | ofTime d separator clock =>
      have hseparator : isSeparator separator.char = true := by cases separator <;> rfl
      have hclock : clock.render ≠ [] := by simp [Clock.render, clock.time_ne_nil]
      rw [parse_time htrim hseparator hclock day_not_separator (dateParts_day d)
        (clockParts_render clock)]
      have hcount : daysFromCivil d.year.value d.month d.day = epoch.daysTo d.date :=
        daysFromCivil_count d.date
      have hsecond : (((clock.second.map fun s => (s.1 : Nat)).getD 0 : Nat) : Int) =
          (clock.second.map fun s => (s.1 : Int)).getD 0 := by
        cases clock.second <;> rfl
      rw [hcount, hsecond]
      rfl

end Spelling

/-- Later dates have later instants, and only they. -/
theorem daysTo_lt_iff (d e : Date) : d < e ↔ epoch.daysTo d < epoch.daysTo e := by
  have hmono : StrictMono fun d : Date => daysFromCivil d.year d.month d.day :=
    Date.formula_strictMono daysFromCivil_next
  rw [← daysFromCivil_count, ← daysFromCivil_count]
  exact hmono.lt_iff_lt.symm

end Datetime

open Datetime

/-- Every documented spelling, whatever whitespace surrounds it, reads as the
instant it names; so spellings of one instant read alike, and the dates are
ordered as the calendar orders them. -/
theorem documented_dates_read (s : Spelling) (before after : Str)
    (hbefore : ∀ c ∈ before, Str.isWhitespace c = true)
    (hafter : ∀ c ∈ after, Str.isWhitespace c = true) :
    (parse (before ++ s.render ++ after)).run = .ok (some s.instant) ∧
    (∀ s' : Spelling, s'.instant = s.instant →
      (parse s'.render).run = (parse (before ++ s.render ++ after)).run) ∧
    (∀ d e : Day, d.date < e.date ↔ ∃ t t', (parse d.render).run = .ok (some t) ∧
      (parse e.render).run = .ok (some t') ∧ t.seconds < t'.seconds) := by
  have hplain : ∀ s : Spelling, (parse s.render).run = .ok (some s.instant) := by
    intro s
    have h := @Spelling.parse_render s [] [] nofun nofun
    rwa [List.nil_append, List.append_nil] at h
  have hread := s.parse_render hbefore hafter
  refine ⟨hread, ?_, ?_⟩
  · intro s' hsame
    rw [hread, hplain, hsame]
  · intro d e
    have hd := hplain (.ofDay d)
    have he := hplain (.ofDay e)
    rw [daysTo_lt_iff]
    constructor
    · intro hlt
      refine ⟨_, _, hd, he, ?_⟩
      show 86400 * epoch.daysTo d.date < 86400 * epoch.daysTo e.date
      omega
    · rintro ⟨t, t', ht, ht', hlt⟩
      obtain rfl := Option.some.inj (Except.ok.inj (hd.symm.trans ht))
      obtain rfl := Option.some.inj (Except.ok.inj (he.symm.trans ht'))
      have hlt : 86400 * epoch.daysTo d.date < 86400 * epoch.daysTo e.date := hlt
      omega

/-- A morning in Paris, between a space and a newline. -/
theorem documented_dates_read_paris :
    (∀ c ∈ ([' '] : Str), Str.isWhitespace c = true) ∧
    (parse " 2026-08-25 09:00:00.5+02\n").run =
      .ok (some { seconds := 1787641200, nanos := 500000000 }) := by
  have hspace : ∀ c ∈ ([' '] : Str), Str.isWhitespace c = true := List.forall_mem_singleton.mpr rfl
  have hnewline : ∀ c ∈ (['\n'] : Str), Str.isWhitespace c = true :=
    List.forall_mem_singleton.mpr rfl
  refine ⟨hspace, ?_⟩
  have hread := (documented_dates_read
    (.ofTime { year := ⟨2026, by decide⟩, month := 8, day := 25, inYear := by decide,
               inMonth := by decide }
      .space { hour := 9, minute := 0, second := some (0, some [5]),
               designator := .signed .east (.bare 2) })
    [' '] ['\n'] hspace hnewline).1
  refine hread.trans ?_
  unfold Spelling.instant
  dsimp only
  rw [← daysFromCivil_count]
  decide +kernel

end GrpcEpub
