/-
# `GrpcEpub.Readings` — what the date reader takes

The converse of the grammar: each part of the reader is turned round, from the
fields it returns to the text they stood in.  What is read is a date of the
calendar between the years 1 and 9999, a time of day, and an offset of less than
a day; but the offset is taken off after the year was checked, and an offset of
four bytes is cut in the middle before anything says that they are digits.

Where `GrpcEpub.Dates` goes from a spelling to what is read, this goes from what is read to a
text: a field of two digits is two digits, a missing field has its default, and a time of day
keeps in its range because each field is checked.  `parse_eq` puts the parts together and says
for every text what the reader answers.
-/
import GrpcEpub.Dates

namespace GrpcEpub

namespace Datetime

open Calendar

/-! ## Digits

A field that was read is a field of digits, and its number is below the power of ten. -/

/-- A digit is one of ten characters. -/
theorem isDigit_iff {c : Char} : isDigit c = true ↔ ∃ n : Fin 10, c = digitChar n := by
  constructor
  · intro h
    unfold isDigit at h
    simp only [Bool.and_eq_true, decide_eq_true_eq] at h
    have hlow : 48 ≤ c.toNat := h.1
    have hhigh : c.toNat ≤ 57 := h.2
    refine ⟨⟨c.toNat - 48, by omega⟩, ?_⟩
    have hcode : '0'.toNat + (c.toNat - 48) = c.toNat := by
      rw [show '0'.toNat = 48 from rfl]
      omega
    rw [digitChar, hcode, Char.ofNat_toNat]
  · rintro ⟨n, rfl⟩
    exact (digitChar_spec n).1

theorem digits_iff {s : Str} : Digits s ↔ s.all isDigit = true := by
  rw [List.all_eq_true]
  exact forall₂_congr fun c _ => isDigit_iff.symm

/-- So many digits make a number below that power of ten. -/
theorem number_lt {s : Str} (h : Digits s) : number s < 10 ^ s.length := by
  have hfold : ∀ (s : Str) (n : Nat), Digits s →
      s.foldl (fun n c => 10 * n + digit c) n < (n + 1) * 10 ^ s.length := by
    intro s
    induction s with
    | nil => intro n _; simp
    | cons c s ih =>
        intro n h
        obtain ⟨k, rfl⟩ := h c List.mem_cons_self
        have hdigit : digit (digitChar k) = k := (digitChar_spec k).2.1
        have hrest := ih (10 * n + k) fun c hc => h c (List.mem_cons_of_mem _ hc)
        have hstep : 10 * n + (k : Nat) + 1 ≤ 10 * (n + 1) := by omega
        calc List.foldl (fun n c => 10 * n + digit c) n (digitChar k :: s)
            = s.foldl (fun n c => 10 * n + digit c) (10 * n + k) := by
              rw [List.foldl_cons, hdigit]
          _ < (10 * n + k + 1) * 10 ^ s.length := hrest
          _ ≤ 10 * (n + 1) * 10 ^ s.length := Nat.mul_le_mul_right _ hstep
          _ = (n + 1) * 10 ^ (digitChar k :: s).length := by
              rw [List.length_cons, pow_succ]
              ring
  have hzero := hfold s 0 h
  rwa [Nat.zero_add, Nat.one_mul] at hzero

/-- One or two digits. -/
structure Field (s : Str) : Prop where
  digits : Digits s
  nonempty : s ≠ []
  short : s.length ≤ 2

theorem twoDigits_field {field : Str} {default n : Nat}
    (h : twoDigits (some field) default = some n) : Field field ∧ n = number field := by
  simp only [twoDigits] at h
  split at h
  · cases h
  · rename_i hrange
    push Not at hrange
    have hdigits := digits_iff.mpr hrange.2.2
    have hlen := hdigits.len
    exact ⟨⟨hdigits, hrange.1, by omega⟩, (Option.some.inj h).symm⟩

/-! ## The date

Up to three fields, with the defaults for the ones that are missing. -/

/-- A field that is there or was truncated away. -/
theorem twoDigits_read {field : Option Str} {default n : Nat}
    (h : twoDigits field default = some n) : ∀ text ∈ field, Field text := by
  rintro text rfl
  exact (twoDigits_field h).1

/-- A list without a third element has the first two. -/
theorem length_le_two {α : Type} {xs : List α} (h : xs[2]? = none) : xs.length ≤ 2 :=
  List.getElem?_eq_none_iff.mp h

theorem fields_of_two {rest : List Str} (h : rest[2]? = none)
    (hfirst : ∀ text ∈ rest[0]?, Field text) (hsecond : ∀ text ∈ rest[1]?, Field text) :
    ∀ field ∈ rest, Field field := by
  match rest, h with
  | [], _ => nofun
  | [first], _ => simpa using hfirst first rfl
  | [first, second], _ => simpa using ⟨hfirst first rfl, hsecond second rfl⟩
  | _ :: _ :: _ :: _, h => cases h

/-- A date of the calendar whose year has four digits, and the text it was read off. -/
structure DateRead (text : Str) (d : Date) : Prop where
  inRange : 1 ≤ d.year ∧ d.year ≤ 9999
  fields : ∃ year rest, text.splitOn '-' = year :: rest ∧ Digits year ∧ year.length = 4 ∧
    rest.length ≤ 2 ∧ ∀ field ∈ rest, Field field

/-- From the fields of a date to the text they stood in. -/
theorem dateParts_read {text : Str} {year : Int} {month day : Nat}
    (h : dateParts text = some (year, month, day)) :
    ∃ d : Date, DateRead text d ∧ d.year = year ∧ d.month = month ∧ d.day = day := by
  unfold dateParts at h
  cases hsplit : text.splitOn '-' with
  | nil => exact absurd hsplit (List.splitOn_ne_nil _ _)
  | cons first rest =>
      simp only [hsplit, List.getElem?_cons_zero, List.getElem?_cons_succ, Option.bind_eq_bind,
        Option.bind_some] at h
      split at h
      · cases h
      · rename_i hfirst
        push Not at hfirst
        have hdigits := digits_iff.mpr hfirst.2
        have hlength : first.length = 4 := hdigits.len.symm.trans hfirst.1
        have hlt := number_lt hdigits
        rw [hlength] at hlt
        split at h
        · cases h
        · rename_i hzero
          cases hmonth : twoDigits rest[0]? 1 with
          | none => simp [hmonth] at h
          | some month' =>
              cases hday : twoDigits rest[1]? 1 with
              | none => simp [hmonth, hday] at h
              | some day' =>
                  simp only [hmonth, hday, Option.bind_some] at h
                  split at h
                  · cases h
                  · rename_i hlong
                    split at h
                    · cases h
                    · rename_i hlast
                      cases h
                      push Not at hlong hlast
                      have hyear : 1 ≤ (number first : Int) ∧ (number first : Int) ≤ 9999 := by omega
                      have hinMonth := hlast.2
                      rw [daysInMonth_eq hlong.2 (by omega)] at hinMonth
                      refine ⟨⟨number first, month, day, hlong.2, hlast.1, hinMonth⟩,
                        ⟨hyear, first, rest, hsplit, hdigits, hlength, ?_, ?_⟩, rfl, rfl, rfl⟩
                      · exact length_le_two (by simpa using hlong.1)
                      · exact fields_of_two (by simpa using hlong.1) (twoDigits_read hmonth) (twoDigits_read hday)

/-! ## The time of day

Up to three fields and a fraction of the third, each in its range. -/

/-- The digit at a position of a fraction, zero behind its end. -/
def digitAt (fraction : Str) (position : Nat) : Nat := (fraction[position]?.map digit).getD 0

/-- The number the first digits of a fraction make. -/
def nanosTo (fraction : Str) (k : Nat) : Nat :=
  (List.range k).foldl (fun nanos position => nanos * 10 + digitAt fraction position) 0

theorem digitAt_le {fraction : Str} (h : Digits fraction) (k : Nat) : digitAt fraction k ≤ 9 := by
  unfold digitAt
  cases hc : fraction[k]? with
  | none => exact Nat.zero_le _
  | some c =>
      obtain ⟨n, rfl⟩ := h c (List.mem_of_getElem? hc)
      have hvalue : digit (digitChar n) = n := (digitChar_spec n).2.1
      rw [Option.map_some, Option.getD_some, hvalue]
      omega

theorem nanosTo_succ (fraction : Str) (k : Nat) :
    nanosTo fraction (k + 1) = nanosTo fraction k * 10 + digitAt fraction k := by
  unfold nanosTo
  rw [List.range_succ, List.foldl_append]
  rfl

theorem nanosTo_lt {fraction : Str} (h : Digits fraction) (k : Nat) :
    nanosTo fraction k < 10 ^ k := by
  induction k with
  | zero => exact Nat.one_pos
  | succ k ih =>
      have hdigit := digitAt_le h k
      rw [nanosTo_succ, pow_succ]
      omega

/-- A fraction that is read is made of digits, and less than a second. -/
theorem nanoseconds_read {fraction : Str} {nanos : Int} (h : nanoseconds fraction = some nanos) :
    Digits fraction ∧ 0 ≤ nanos ∧ nanos ≤ 999999999 := by
  unfold nanoseconds at h
  split at h
  · rename_i hempty
    cases h
    rw [hempty]
    exact ⟨nofun, by decide⟩
  · split at h
    · cases h
    · rename_i hall
      have hdigits := digits_iff.mpr (not_not.mp hall)
      have hlt := nanosTo_lt hdigits 9
      obtain rfl : (nanosTo fraction 9 : Int) = nanos := Option.some.inj h
      exact ⟨hdigits, by omega, by omega⟩

/-- The texts of a time of day: minutes, seconds and their fraction may be missing. -/
inductive TimeRead : Str → Prop where
  | hour {hour : Str} : Field hour → TimeRead hour
  | minute {hour minute : Str} : Field hour → Field minute → TimeRead (hour ++ ':' :: minute)
  | second {hour minute second : Str} : Field hour → Field minute → Field second →
      TimeRead (hour ++ ':' :: (minute ++ ':' :: second))
  | fraction {hour minute second fraction : Str} : Field hour → Field minute → Field second →
      Digits fraction → TimeRead (hour ++ ':' :: (minute ++ ':' :: (second ++ '.' :: fraction)))

/-- The third field of a time of day. -/
theorem second_read {field : Str} {second : Nat} {nanos : Int}
    (hsecond : twoDigits (some ((Str.splitOnce '.' field).getD (field, [])).1) 0 = some second)
    (hnanos : nanoseconds ((Str.splitOnce '.' field).getD (field, [])).2 = some nanos) :
    (Field field ∨ ∃ whole fraction, field = whole ++ '.' :: fraction ∧ Field whole ∧
      Digits fraction) ∧ 0 ≤ nanos ∧ nanos ≤ 999999999 := by
  refine ⟨?_, (nanoseconds_read hnanos).2⟩
  cases hcut : Str.splitOnce '.' field with
  | none =>
      rw [hcut] at hsecond
      exact .inl (twoDigits_field hsecond).1
  | some parts =>
      obtain ⟨whole, fraction⟩ := parts
      rw [hcut] at hsecond hnanos
      exact .inr ⟨whole, fraction, (Str.splitOnce_eq_some.mp hcut).2, (twoDigits_field hsecond).1,
        (nanoseconds_read hnanos).1⟩

/-- A time of day as it is read. -/
structure OfDay (hour minute second : Nat) (nanos : Int) : Prop where
  hour : hour ≤ 23
  minute : minute ≤ 59
  second : second ≤ 59
  nanos : 0 ≤ nanos ∧ nanos ≤ 999999999

/-- From the fields of a time of day to its text. -/
theorem timeParts_read {time : Str} {hour minute second : Nat} {nanos : Int}
    (h : timeParts time = some (hour, minute, second, nanos)) :
    TimeRead time ∧ OfDay hour minute second nanos := by
  have hjoin : List.intercalate [':'] (time.splitOn ':') = time := List.intercalate_splitOn _
  unfold timeParts at h
  match hsplit : time.splitOn ':' with
  | [] => exact absurd hsplit (List.splitOn_ne_nil _ _)
  -- an hour alone: minute and second have their defaults
  | [first] =>
      rw [hsplit] at h hjoin
      simp only [List.getElem?_cons_zero, List.getElem?_cons_succ, List.getElem?_nil,
        Option.bind_eq_bind, Option.bind_eq_some_iff, Option.bind_some] at h
      obtain ⟨hour', hhour, minute', hminute, h⟩ := h
      obtain rfl : first = time := by simpa [List.intercalate] using hjoin
      split at h
      · cases h
      · rename_i hrange
        push Not at hrange
        cases h
        exact ⟨.hour (twoDigits_field hhour).1, hrange.2.1, hrange.2.2.1, hrange.2.2.2, by decide⟩
  | [first, next] =>
      rw [hsplit] at h hjoin
      simp only [List.getElem?_cons_zero, List.getElem?_cons_succ, List.getElem?_nil,
        Option.bind_eq_bind, Option.bind_eq_some_iff, Option.bind_some] at h
      obtain ⟨hour', hhour, minute', hminute, h⟩ := h
      obtain rfl : first ++ ':' :: next = time := by simpa [List.intercalate] using hjoin
      split at h
      · cases h
      · rename_i hrange
        push Not at hrange
        cases h
        exact ⟨.minute (twoDigits_field hhour).1 (twoDigits_field hminute).1, hrange.2.1,
          hrange.2.2.1, hrange.2.2.2, by decide⟩
  -- three fields, and no fourth
  | first :: next :: last :: more =>
      rw [hsplit] at h hjoin
      simp only [List.getElem?_cons_zero, List.getElem?_cons_succ, Option.bind_eq_bind,
        Option.bind_eq_some_iff] at h
      obtain ⟨hour', hhour, minute', hminute, second', hsecond, nanos', hnanos, fields, hfields, h⟩ := h
      cases hfields
      split at h
      · cases h
      · rename_i hrange
        push Not at hrange
        cases h
        obtain ⟨hshape, hbounds⟩ := second_read hsecond hnanos
        cases more with
        | cons extra more => simp at hrange
        | nil =>
            obtain rfl : first ++ ':' :: (next ++ ':' :: last) = time := by
              simpa [List.intercalate] using hjoin
            refine ⟨?_, hrange.2.1, hrange.2.2.1, hrange.2.2.2, hbounds⟩
            rcases hshape with hlast | ⟨whole, fraction, rfl, hwhole, hfraction⟩
            · exact .second (twoDigits_field hhour).1 (twoDigits_field hminute).1 hlast
            · exact .fraction (twoDigits_field hhour).1 (twoDigits_field hminute).1 hwhole hfraction

/-! ## The designator

Without one the time is taken to be UTC. -/

/-- What may stand behind a time of day. -/
inductive Designated : Str → Prop where
  | absent : Designated []
  | utc {zulu : Char} : zulu = 'Z' ∨ zulu = 'z' → Designated [zulu]
  | hours {sign : Char} {hours : Str} : isSign sign = true → Field hours →
      Designated (sign :: hours)
  | compact {sign : Char} {hours minutes : Str} : isSign sign = true → Field hours →
      Field minutes → hours.length = 2 → minutes.length = 2 →
      Designated (sign :: (hours ++ minutes))
  | colon {sign : Char} {hours minutes : Str} : isSign sign = true → Field hours →
      Field minutes → Designated (sign :: (hours ++ ':' :: minutes))

theorem stripZulu_some {clock time : Str} (h : stripZulu clock = some time) :
    ∃ zulu, (zulu = 'Z' ∨ zulu = 'z') ∧ clock = time ++ [zulu] := by
  unfold stripZulu at h
  cases hlast : clock.getLast? with
  | none => simp [hlast] at h
  | some zulu =>
      simp only [hlast] at h
      split at h
      · rename_i hzulu
        cases h
        exact ⟨zulu, hzulu, (List.dropLast_append_getLast? zulu hlast).symm⟩
      · cases h

/-- The last sign of a clock is the one that is cut at. -/
theorem splitSign_some {clock time digits : Str} {sign : Char}
    (h : splitSign clock = some (time, sign, digits)) :
    clock = time ++ sign :: digits ∧ isSign sign = true ∧ ∀ c ∈ digits, isSign c = false := by
  unfold splitSign at h
  dsimp only at h
  split at h
  · rename_i found before hdrop
    cases h
    have hsign : isSign sign = true := by
      have hhead := List.head?_dropWhile_not (fun c => !isSign c) clock.reverse
      rw [hdrop] at hhead
      simpa using hhead
    refine ⟨?_, hsign, fun c hc => ?_⟩
    · calc clock = (clock.reverse.takeWhile (fun c => !isSign c) ++ sign :: before).reverse := by
            rw [← hdrop, List.takeWhile_append_dropWhile, List.reverse_reverse]
        _ = before.reverse ++
            sign :: (clock.reverse.takeWhile (fun c => !isSign c)).reverse := by
            rw [List.reverse_append, List.reverse_cons, List.append_assoc, List.singleton_append]
    · have hc' := List.mem_takeWhile_imp (List.mem_reverse.mp hc)
      simpa using hc'
  · cases h

/-- From the fields of an offset to its text. -/
theorem offsetFields_read {sign : Char} {digits hours minutes : Str} {h m : Nat}
    (hsign : isSign sign = true) (hfields : offsetFields digits = .ok (hours, minutes))
    (hhours : twoDigits (some hours) 0 = some h) (hminutes : twoDigits (some minutes) 0 = some m) :
    Designated (sign :: digits) := by
  have hhours' := (twoDigits_field hhours).1
  have hminutes' := (twoDigits_field hminutes).1
  unfold offsetFields at hfields
  cases hcut : Str.splitOnce ':' digits with
  | some parts =>
      rw [hcut] at hfields
      cases hfields
      obtain ⟨-, rfl⟩ := Str.splitOnce_eq_some.mp hcut
      exact .colon hsign hhours' hminutes'
  | none =>
      rw [hcut] at hfields
      dsimp only at hfields
      split at hfields
      · rename_i hfour
        obtain ⟨rfl, htwo⟩ := splitAt_ok hfields
        rw [Str.len_append, hhours'.digits.len, hminutes'.digits.len] at hfour
        rw [hhours'.digits.len] at htwo
        exact .compact hsign hhours' hminutes' htwo (by omega)
      · cases hfields
        exact .hours hsign hhours'

/-- What is cut off a clock is a designator, of less than a day. -/
theorem splitOffset_read {clock time : Str} {offset : Int}
    (h : (splitOffset clock).run = .ok (some (time, offset))) :
    (∃ designator, clock = time ++ designator ∧ Designated designator) ∧
      -1439 ≤ offset ∧ offset ≤ 1439 := by
  unfold splitOffset at h
  cases hzulu : stripZulu clock with
  | some time' =>
      rw [hzulu] at h
      cases h
      obtain ⟨zulu, hletter, hclock⟩ := stripZulu_some hzulu
      exact ⟨⟨[zulu], hclock, .utc hletter⟩, by decide⟩
  | none =>
      rw [hzulu] at h
      dsimp only at h
      -- without a designator all of it is the time; behind a sign stands the offset
      cases hsplit : splitSign clock with
      | none =>
          rw [hsplit] at h
          cases h
          exact ⟨⟨[], (List.append_nil _).symm, .absent⟩, by decide⟩
      | some parts =>
          obtain ⟨time', sign, digits⟩ := parts
          obtain ⟨hclock, hsign, -⟩ := splitSign_some hsplit
          rw [hsplit] at h
          dsimp only at h
          cases hfields : offsetFields digits with
          | error e =>
              rw [hfields] at h
              cases h
          | ok fields =>
              obtain ⟨hours, minutes⟩ := fields
              rw [hfields, Read.run_bind_lift] at h
              cases hhours : twoDigits (some hours) 0 with
              | none =>
                  rw [hhours] at h
                  cases h
              | some hour =>
                  rw [hhours, Read.run_bind_mk] at h
                  cases hminutes : twoDigits (some minutes) 0 with
                  | none =>
                      rw [hminutes] at h
                      cases h
                  | some minute =>
                      rw [hminutes, Read.run_bind_mk] at h
                      split at h
                      · cases h
                      · rename_i hrange
                        cases h
                        refine ⟨⟨sign :: digits, hclock,
                          offsetFields_read hsign hfields hhours hminutes⟩, ?_⟩
                        split <;> omega

/-- From the fields of a clock to its text. -/
theorem clockParts_read {clock : Str} {hour minute second : Nat} {nanos offset : Int}
    (h : (clockParts clock).run = .ok (some (hour, minute, second, nanos, offset))) :
    (∃ time designator, clock = time ++ designator ∧ TimeRead time ∧ Designated designator) ∧
      OfDay hour minute second nanos ∧ -1439 ≤ offset ∧ offset ≤ 1439 := by
  unfold clockParts at h
  cases hsplit : (splitOffset clock).run with
  | error e =>
      rw [OptionT.run_bind, hsplit] at h
      cases h
  | ok found =>
      cases found with
      | none =>
          rw [OptionT.run_bind, hsplit] at h
          cases h
      | some parts =>
          obtain ⟨time, offset'⟩ := parts
          rw [Read.run_bind hsplit] at h
          dsimp only at h
          cases htime : timeParts time with
          | none =>
              rw [htime] at h
              cases h
          | some fields =>
              obtain ⟨hour', minute', second', nanos'⟩ := fields
              rw [htime, Read.run_bind_mk] at h
              cases h
              obtain ⟨⟨designator, rfl, hdesignator⟩, hoffset⟩ := splitOffset_read hsplit
              obtain ⟨hread, hday⟩ := timeParts_read htime
              exact ⟨⟨time, designator, rfl, hread, hdesignator⟩, hday, hoffset⟩

/-! ## The whole text

Cut at the first `T`, as the source does it. -/

/-- What stands in front of the separator. -/
def dateOf (value : Str) : Str := value.trim.takeWhile (!isSeparator ·)

/-- What stands behind it. -/
def clockOf (value : Str) : Str := (value.trim.dropWhile (!isSeparator ·)).drop 1

/-- The instant of a date and the fields of a clock. -/
def instantAt (year : Int) (month day : Nat) (fields : Nat × Nat × Nat × Int × Int) :
    Timestamp where
  seconds := daysFromCivil year month day * secondsPerDay + fields.1 * 3600 +
    fields.2.1 * 60 + fields.2.2.1 - fields.2.2.2.2 * 60
  nanos := fields.2.2.2.1

/-- The fields of a clock that may be missing. -/
def clockFields (clock : Str) : Except Panic (Option (Nat × Nat × Nat × Int × Int)) :=
  if clock = [] then .ok (some (0, 0, 0, 0, 0)) else (clockParts clock).run

/-- What the reader answers, for every text. -/
theorem parse_eq (value : Str) :
    (parse value).run =
      match dateParts (dateOf value) with
      | none => .ok none
      | some (year, month, day) =>
          (clockFields (clockOf value)).map (Option.map (instantAt year month day)) := by
  unfold parse
  dsimp only
  by_cases hempty : value.trim = []
  · have hdate : dateParts (dateOf value) = none := by
      rw [dateOf, hempty]
      rfl
    rw [if_pos hempty, hdate]
    rfl
  · rw [if_neg hempty]
    change (OptionT.mk (.ok (dateParts (dateOf value))) >>= _ : Read Timestamp).run = _
    cases hdate : dateParts (dateOf value) with
    | none => rfl
    | some date =>
        obtain ⟨year, month, day⟩ := date
        rw [Read.run_bind_mk, clockFields]
        dsimp only
        by_cases hclock : clockOf value = []
        · rw [if_pos hclock]
          exact congrArg OptionT.run (if_pos hclock)
        · rw [if_neg hclock]
          refine (congrArg OptionT.run (if_neg hclock)).trans ?_
          change (clockParts (clockOf value) >>= _ : Read Timestamp).run = _
          rw [OptionT.run_bind]
          cases (clockParts (clockOf value)).run with
          | error e => rfl
          | ok fields => cases fields <;> rfl

end Datetime

end GrpcEpub
