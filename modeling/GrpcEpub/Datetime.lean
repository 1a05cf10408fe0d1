/-
# `GrpcEpub.Datetime` — W3CDTF dates as instants

`datetime.rs`.  The grammar is read off from the outside in: the separator, the
fields of the date, the designator off the end of the clock, the fields of the
time.  A four-byte offset is cut after its second byte, and a cut inside a
character panics; nothing else here can.

The arithmetic is that of `i64`, on values so small that they never leave it.
-/
import GrpcEpub.Archive

namespace GrpcEpub

/-- `google.protobuf.Timestamp`. -/
structure Timestamp where
  seconds : Int
  nanos : Int
deriving DecidableEq, Repr

namespace Datetime

/-- Reading may say no, and slicing may panic. -/
abbrev Read (α : Type) := OptionT (Except Panic) α

theorem Read.run_bind {α β : Type} {x : Read α} {a : α} (h : x.run = .ok (some a))
    (f : α → Read β) : (x >>= f).run = (f a).run := by
  rw [OptionT.run_bind, h]
  rfl

@[simp] theorem Read.run_bind_mk {α β : Type} (a : α) (f : α → Read β) :
    ((OptionT.mk (.ok (some a)) : Read α) >>= f).run = (f a).run := rfl

@[simp] theorem Read.run_bind_lift {α β : Type} (a : α) (f : α → Read β) :
    ((OptionT.lift (.ok a) : Read α) >>= f).run = (f a).run := rfl

@[simp] theorem Read.run_bind_pure {α β : Type} (a : α) (f : α → Read β) :
    ((pure a : Read α) >>= f).run = (f a).run := rfl

/-- `SECONDS_PER_DAY`. -/
def secondsPerDay : Int := 86400

def isDigit (c : Char) : Bool := '0' ≤ c && c ≤ '9'

def digit (c : Char) : Nat := c.toNat - '0'.toNat

/-- `str::parse` of a text of digits. -/
def number (digits : Str) : Nat := digits.foldl (fun n c => 10 * n + digit c) 0

/-- Read a one or two digit field, or the default when it was truncated. -/
def twoDigits (field : Option Str) (default : Nat) : Option Nat :=
  match field with
  | none => some default
  | some field =>
      if field = [] ∨ 2 < field.len ∨ ¬ field.all isDigit then none else some (number field)

/-- Days in a month of a proleptic Gregorian year. -/
def daysInMonth (year : Int) (month : Nat) : Nat :=
  match month with
  | 1 | 3 | 5 | 7 | 8 | 10 | 12 => 31
  | 4 | 6 | 9 | 11 => 30
  | 2 =>
      if year.tmod 4 = 0 ∧ (year.tmod 100 ≠ 0 ∨ year.tmod 400 = 0) then 29 else 28
  | _ => 0

/-- Days between the Unix epoch and a proleptic Gregorian date. -/
def daysFromCivil (year : Int) (month day : Nat) : Int :=
  let month : Int := month
  let day : Int := day
  let year := if month ≤ 2 then year - 1 else year
  let era := (if 0 ≤ year then year else year - 399).tdiv 400
  let yearOfEra := year - era * 400
  let dayOfYear := (153 * (if 2 < month then month - 3 else month + 9) + 2).tdiv 5 + day - 1
  let dayOfEra := yearOfEra * 365 + yearOfEra.tdiv 4 - yearOfEra.tdiv 100 + dayOfYear
  era * 146097 + dayOfEra - 719468

/-- Read `YYYY`, `YYYY-MM` or `YYYY-MM-DD`, defaulting what is truncated away. -/
def dateParts (date : Str) : Option (Int × Nat × Nat) := do
  let parts := date.splitOn '-'
  let year ← parts[0]?
  if year.len ≠ 4 ∨ ¬ year.all isDigit then none
  else
    let year : Int := number year
    if year = 0 then none
    else
      let month ← twoDigits parts[1]? 1
      let day ← twoDigits parts[2]? 1
      if parts[3]?.isSome ∨ ¬ (1 ≤ month ∧ month ≤ 12) then none
      else if day < 1 ∨ daysInMonth year month < day then none
      else some (year, month, day)

/-- `str::split_at`, at a byte offset. -/
def splitAt : Nat → Str → Except Panic (Str × Str)
  | 0, s => .ok ([], s)
  | _ + 1, [] => .error .index
  | n + 1, c :: s =>
      if c.utf8Size ≤ n + 1 then
        (splitAt (n + 1 - c.utf8Size) s).map fun (left, right) => (c :: left, right)
      else .error .index

/-- A cut between two characters. -/
theorem splitAt_append (s t : Str) : splitAt (Str.len s) (s ++ t) = .ok (s, t) := by
  induction s with
  | nil => exact splitAt.eq_1 t
  | cons c s ih =>
      have hpos := Char.utf8Size_pos c
      have hlen : Str.len (c :: s) = (c.utf8Size + Str.len s - 1) + 1 := by
        rw [Str.len_cons]
        omega
      rw [hlen, List.cons_append, splitAt, if_pos (by omega),
        show c.utf8Size + Str.len s - 1 + 1 - c.utf8Size = Str.len s by omega, ih]
      rfl

/-- `split_at` cuts where a character ends. -/
theorem splitAt_ok {n : Nat} {s left right : Str} (h : splitAt n s = .ok (left, right)) :
    s = left ++ right ∧ left.len = n := by
  induction s generalizing n left right with
  | nil =>
      cases n with
      | zero =>
          cases h
          exact ⟨rfl, rfl⟩
      | succ n => cases h
  | cons c s ih =>
      cases n with
      | zero =>
          cases h
          exact ⟨rfl, rfl⟩
      | succ n =>
          rw [splitAt] at h
          split at h
          · rename_i hsize
            cases hrest : splitAt (n + 1 - c.utf8Size) s with
            | error e => simp [hrest, Except.map] at h
            | ok parts =>
                obtain ⟨left', right'⟩ := parts
                rw [hrest] at h
                cases h
                obtain ⟨rfl, hlen⟩ := ih hrest
                refine ⟨rfl, ?_⟩
                rw [Str.len_cons, hlen]
                omega
          · cases h

/-- Hours and minutes of an offset, in its three spellings. -/
def offsetFields (digits : Str) : Except Panic (Str × Str) :=
  match Str.splitOnce ':' digits with
  | some fields => .ok fields
  | none => if digits.len = 4 then splitAt 2 digits else .ok (digits, "0")

/-- `str::strip_suffix(['Z', 'z'])`. -/
def stripZulu (clock : Str) : Option Str :=
  match clock.getLast? with
  | some c => if c = 'Z' ∨ c = 'z' then some clock.dropLast else none
  | none => none

def isSign (c : Char) : Bool := c == '+' || c == '-'

/-- `clock.rfind(['+', '-'])`, with what lies around the sign. -/
def splitSign (clock : Str) : Option (Str × Char × Str) :=
  let digits := (clock.reverse.takeWhile (!isSign ·)).reverse
  match (clock.reverse.dropWhile (!isSign ·)) with
  | sign :: before => some (before.reverse, sign, digits)
  | [] => none

/-- Split a timezone designator off the end of a time of day. -/
def splitOffset (clock : Str) : Read (Str × Int) :=
  match stripZulu clock with
  | some time => pure (time, 0)
  | none =>
      match splitSign clock with
      | none => pure (clock, 0)
      | some (time, sign, digits) => do
          let sign : Int := if sign = '-' then -1 else 1
          let (hours, minutes) ← OptionT.lift (offsetFields digits)
          let hours ← OptionT.mk (.ok (twoDigits (some hours) 0))
          let minutes ← OptionT.mk (.ok (twoDigits (some minutes) 0))
          if 23 < hours ∨ 59 < minutes then failure
          else pure (time, sign * ((hours : Int) * 60 + (minutes : Int)))

/-- Read a decimal fraction of a second as nanoseconds. -/
def nanoseconds (fraction : Str) : Option Int :=
  if fraction = [] then some 0
  else if ¬ fraction.all isDigit then none
  else
    let nanos : Nat := (List.range 9).foldl
      (fun nanos position => nanos * 10 + (fraction[position]?.map digit).getD 0) 0
    some nanos

/-- `hh:mm[:ss[.fraction]]`, without its designator. -/
def timeParts (time : Str) : Option (Nat × Nat × Nat × Int) := do
  let parts := time.splitOn ':'
  let hour ← twoDigits parts[0]? 0
  let minute ← twoDigits parts[1]? 0
  let (second, nanos) ←
    match parts[2]? with
    | none => some (0, 0)
    | some field => do
        let (whole, fraction) := (Str.splitOnce '.' field).getD (field, [])
        let second ← twoDigits (some whole) 0
        let nanos ← nanoseconds fraction
        some (second, nanos)
  if parts[3]?.isSome ∨ 23 < hour ∨ 59 < minute ∨ 59 < second then none
  else some (hour, minute, second, nanos)

/-- Read `hh:mm[:ss[.fraction]]` and its timezone designator. -/
def clockParts (clock : Str) : Read (Nat × Nat × Nat × Int × Int) := do
  let (time, offsetMinutes) ← splitOffset clock
  let (hour, minute, second, nanos) ← OptionT.mk (.ok (timeParts time))
  pure (hour, minute, second, nanos, offsetMinutes)

def isSeparator (c : Char) : Bool := c == 'T' || c == 't' || c == ' '

/-- Read a W3CDTF date or datetime as an instant. -/
def parse (value : Str) : Read Timestamp :=
  let text := value.trim
  if text = [] then failure
  else do
    let date := text.takeWhile (!isSeparator ·)
    let clock := (text.dropWhile (!isSeparator ·)).drop 1
    let (year, month, day) ← OptionT.mk (.ok (dateParts date))
    let (hour, minute, second, nanos, offsetMinutes) ←
      if clock = [] then pure (0, 0, 0, 0, 0) else clockParts clock
    let seconds := daysFromCivil year month day * secondsPerDay + hour * 3600 + minute * 60 +
      second - offsetMinutes * 60
    pure { seconds, nanos }

example : (parse "2026-08-25T07:00:00.5-0500").run =
    .ok (some { seconds := 1787659200, nanos := 500000000 }) := by
  decide +kernel

end Datetime

end GrpcEpub
