/-
# `GrpcEpub.Lib.Calendar` — the proleptic Gregorian calendar, day by day

A date knows that it is one.  `Date.next` is the day after, and everything else
is counted with it: one date is so many days after another when that many steps
lead there.  `ordinal` orders the dates as their year, month and day do, and no
date lies between a date and the next, so counting reaches every later date.

A formula that grows by one from each day to the next is the count, up to where
it starts; `count_eq` is the rule.
-/
import Mathlib.Tactic

namespace GrpcEpub

namespace Calendar

def isLeap (year : Int) : Bool :=
  year % 4 == 0 && (year % 100 != 0 || year % 400 == 0)

/-- The days of a month, counted from January as 1. -/
def monthLength (year : Int) (month : Nat) : Nat :=
  if month = 2 then if isLeap year then 29 else 28
  else if month = 4 ∨ month = 6 ∨ month = 9 ∨ month = 11 then 30
  else 31

theorem monthLength_pos (year : Int) (month : Nat) : 1 ≤ monthLength year month := by
  unfold monthLength
  split_ifs <;> decide

theorem monthLength_le (year : Int) (month : Nat) : monthLength year month ≤ 31 := by
  unfold monthLength
  split_ifs <;> decide

/-- A day of the calendar. -/
structure Date where
  year : Int
  month : Nat
  day : Nat
  inYear : 1 ≤ month ∧ month ≤ 12
  inMonth : 1 ≤ day ∧ day ≤ monthLength year month
deriving DecidableEq

/-- The first month is one. -/
theorem january : 1 ≤ 1 ∧ 1 ≤ 12 := by decide

namespace Date

/-- Where the date stands in a calendar whose months all have 31 days. -/
def ordinal (d : Date) : Int := 372 * d.year + 31 * d.month + d.day

theorem day_le (d : Date) : d.day ≤ 31 := d.inMonth.2.trans (monthLength_le _ _)

theorem ordinal_injective {d e : Date} (h : d.ordinal = e.ordinal) : d = e := by
  have hd := d.day_le
  have he := e.day_le
  obtain ⟨year, month, day, inYear, inMonth⟩ := d
  obtain ⟨year', month', day', inYear', inMonth'⟩ := e
  simp only [ordinal] at h hd he
  obtain rfl : year = year' := by omega
  obtain rfl : month = month' := by omega
  obtain rfl : day = day' := by omega
  rfl

/-- The dates in the order of their year, month and day. -/
instance : LinearOrder Date := LinearOrder.lift' ordinal fun _ _ => ordinal_injective

theorem lt_iff_ordinal {d e : Date} : d < e ↔ d.ordinal < e.ordinal := Iff.rfl

theorem lt_iff {d e : Date} : d < e ↔ d.year < e.year ∨
    d.year = e.year ∧ (d.month < e.month ∨ d.month = e.month ∧ d.day < e.day) := by
  have hd := d.day_le
  have he := e.day_le
  have hdm := d.inYear
  have hem := e.inYear
  have hdd := d.inMonth.1
  have hed := e.inMonth.1
  rw [lt_iff_ordinal, ordinal, ordinal]
  omega

/-- The day after. -/
def next (d : Date) : Date :=
  if hday : d.day < monthLength d.year d.month then
    { d with day := d.day + 1, inMonth := ⟨Nat.succ_pos _, hday⟩ }
  else if hmonth : d.month < 12 then
    { d with month := d.month + 1, day := 1, inYear := ⟨Nat.succ_pos _, hmonth⟩
             inMonth := ⟨le_rfl, monthLength_pos _ _⟩ }
  else
    { year := d.year + 1, month := 1, day := 1, inYear := by decide
      inMonth := ⟨le_rfl, monthLength_pos _ _⟩ }

/-- What the day after can be. -/
theorem next_cases (d : Date) :
    (d.day < monthLength d.year d.month ∧ d.next.year = d.year ∧ d.next.month = d.month ∧
        d.next.day = d.day + 1) ∨
      (d.day = monthLength d.year d.month ∧ d.month < 12 ∧ d.next.year = d.year ∧
        d.next.month = d.month + 1 ∧ d.next.day = 1) ∨
      (d.day = monthLength d.year d.month ∧ d.month = 12 ∧ d.next.year = d.year + 1 ∧
        d.next.month = 1 ∧ d.next.day = 1) := by
  have hin := d.inMonth.2
  have hyear := d.inYear.2
  unfold next
  split
  · rename_i hday
    exact .inl ⟨hday, rfl, rfl, rfl⟩
  · rename_i hday
    have hlast : d.day = monthLength d.year d.month := by omega
    split
    · rename_i hmonth
      exact .inr (.inl ⟨hlast, hmonth, rfl, rfl, rfl⟩)
    · exact .inr (.inr ⟨hlast, by omega, rfl, rfl, rfl⟩)

theorem lt_next (d : Date) : d < d.next := by
  rw [lt_iff]
  rcases d.next_cases with h | h | h <;> omega

/-- No date lies between a date and the day after it. -/
theorem next_le {d e : Date} (h : d < e) : d.next ≤ e := by
  rw [← not_lt, lt_iff]
  rw [lt_iff] at h
  have hmonth := e.inYear
  have hday := e.inMonth
  have hd := d.inYear
  rcases d.next_cases with hnext | hnext | hnext
  · omega
  · rintro hlt
    have hyear : e.year = d.year := by omega
    have hsame : e.month = d.month := by omega
    rw [hyear, hsame] at hday
    omega
  · rintro hlt
    have hyear : e.year = d.year := by omega
    have hsame : e.month = d.month := by omega
    rw [hyear, hsame] at hday
    omega

/-- So many days after. -/
def after (n : Nat) (d : Date) : Date := next^[n] d

@[simp] theorem after_zero (d : Date) : d.after 0 = d := rfl

theorem after_succ (n : Nat) (d : Date) : d.after (n + 1) = (d.after n).next :=
  Function.iterate_succ_apply' _ _ _

/-- Counting reaches every later date. -/
theorem exists_after {d e : Date} (h : d ≤ e) : ∃ n, d.after n = e := by
  induction hgap : (e.ordinal - d.ordinal).toNat using Nat.strong_induction_on generalizing d with
  | _ gap ih =>
      rcases h.eq_or_lt with rfl | hlt
      · exact ⟨0, rfl⟩
      · have hnext := next_le hlt
        have hgrow : d.ordinal < d.next.ordinal := lt_next d
        have hsmaller : (e.ordinal - d.next.ordinal).toNat < gap := by
          have hle : d.next.ordinal ≤ e.ordinal := hnext
          omega
        obtain ⟨n, hn⟩ := ih _ hsmaller hnext rfl
        exact ⟨n + 1, by rw [← hn]; rfl⟩

/-- How many days a later date is after a date. -/
def daysUntil (d e : Date) (h : d ≤ e) : Nat := Nat.find (exists_after h)

theorem after_daysUntil {d e : Date} (h : d ≤ e) : d.after (d.daysUntil e h) = e :=
  Nat.find_spec (exists_after h)

/-- The days from one date to another, counted one by one, backwards where the
other is the earlier one. -/
def daysTo (d e : Date) : Int :=
  if h : d ≤ e then d.daysUntil e h else -(e.daysUntil d (not_le.mp h).le : Int)

/-! ## Formulas

What it takes for an arithmetic formula to be the count of days. -/

section Formula

variable {f : Date → Int} (hf : ∀ d : Date, f d.next = f d + 1)
include hf

theorem formula_after (n : Nat) (d : Date) : f (d.after n) = f d + n := by
  induction n with
  | zero => simp
  | succ n ih =>
      rw [after_succ, hf, ih]
      push_cast
      ring

/-- A formula that grows by one a day counts the days. -/
theorem count_eq (d e : Date) : f e = f d + d.daysTo e := by
  unfold daysTo
  split
  · rename_i h
    have hcount := formula_after hf (d.daysUntil e h) d
    rwa [after_daysUntil h] at hcount
  · rename_i h
    have hcount := formula_after hf (e.daysUntil d (not_le.mp h).le) e
    rw [after_daysUntil] at hcount
    omega

/-- It orders the dates as the calendar does. -/
theorem formula_strictMono : StrictMono f := by
  intro d e hlt
  obtain ⟨n, rfl⟩ := exists_after hlt.le
  rw [formula_after hf]
  cases n with
  | zero => exact absurd hlt (lt_irrefl _)
  | succ n =>
      push_cast
      omega

end Formula

end Date

end Calendar

end GrpcEpub
