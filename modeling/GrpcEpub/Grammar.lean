/-
# `GrpcEpub.Grammar` — what is accepted beside the grammar

`Conforms` is the grammar of the module documentation with the two liberties it
names, the separators and the spellings of an offset.  The reader's defaults for
missing fields let four kinds of text through beside it, which are `Loose`: a
separator with nothing behind it, a truncated date with a clock, a clock without
its minutes, and a dot without digits.  Every other text beside the grammar gives
nothing, unless its offset is cut inside a character (`CutInside`), which ends the call.

Whether a text is accepted has been settled by `parse_eq`; what is left is to compare two
descriptions of it.  From `Conforms` or `Loose` to the fields is a construction.  Back from the
fields to one of the two goes by the cases in which a field was missing.
-/
import GrpcEpub.Instants

namespace GrpcEpub

namespace Datetime

/-! ## The grammar

Dates and times as they are written, and the four liberties that a reader with defaults takes. -/

/-- `YYYY-M[M]-D[D]`. -/
inductive FullDate : Str → Prop where
  | mk {year month day : Str} : Digits year → year.length = 4 → Field month → Field day →
      FullDate (year ++ '-' :: (month ++ '-' :: day))

/-- `YYYY`, `YYYY-M[M]` or `YYYY-M[M]-D[D]`. -/
inductive DateText : Str → Prop where
  | year {year : Str} : Digits year → year.length = 4 → DateText year
  | month {year month : Str} : Digits year → year.length = 4 → Field month →
      DateText (year ++ '-' :: month)
  | day {date : Str} : FullDate date → DateText date

/-- `h[h]:m[m][:s[s][.digits]]`. -/
inductive TimeText : Str → Prop where
  | minute {hour minute : Str} : Field hour → Field minute → TimeText (hour ++ ':' :: minute)
  | second {hour minute second : Str} : Field hour → Field minute → Field second →
      TimeText (hour ++ ':' :: (minute ++ ':' :: second))
  | fraction {hour minute second fraction : Str} : Field hour → Field minute → Field second →
      Digits fraction → fraction ≠ [] →
      TimeText (hour ++ ':' :: (minute ++ ':' :: (second ++ '.' :: fraction)))

/-- The texts of the documented grammar. -/
inductive Conforms : Str → Prop where
  | date {date : Str} : DateText date → Conforms date
  | clock {date time designator : Str} {separator : Char} : FullDate date →
      isSeparator separator = true → TimeText time → Designated designator →
      Conforms (date ++ separator :: (time ++ designator))

/-- A date that is read, in front of a clock that is. -/
structure Timed (value : Str) : Prop where
  date : (dateParts (dateOf value)).isSome = true
  clock : ∃ fields, (clockParts (clockOf value)).run = .ok (some fields)

/-- What is accepted beside the grammar. -/
inductive Loose (value : Str) : Prop where
  /-- A separator, and nothing behind it. -/
  | bare : (dateParts (dateOf value)).isSome = true → value.trim ≠ dateOf value →
      clockOf value = [] → Loose value
  /-- A clock on a year or a month. -/
  | truncated : Timed value → (dateOf value).count '-' < 2 → Loose value
  /-- A clock without minutes. -/
  | hour : Timed value → ((clockOf value).dropWhile isDigit).head? ≠ some ':' → Loose value
  /-- A dot without digits. -/
  | dot {earlier later : Str} : Timed value → clockOf value = earlier ++ '.' :: later →
      (∀ c ∈ later.head?, isDigit c = false) → Loose value

/-! ## Around the separator

No part of a date contains the separator, so the first is the one that was meant. -/

section Cut

variable (value : Str)

/-- A text is a date, or a date and a clock with a separator between them. -/
theorem trim_cases : (value.trim = dateOf value ∧ clockOf value = []) ∨
    ∃ separator, isSeparator separator = true ∧
      value.trim = dateOf value ++ separator :: clockOf value := by
  have hsplit : dateOf value ++ value.trim.dropWhile (!isSeparator ·) = value.trim :=
    List.takeWhile_append_dropWhile
  cases hdrop : value.trim.dropWhile (!isSeparator ·) with
  | nil =>
      rw [hdrop, List.append_nil] at hsplit
      exact .inl ⟨hsplit.symm, by rw [clockOf, hdrop]; rfl⟩
  | cons separator clock =>
      have hclock : clockOf value = clock := by rw [clockOf, hdrop]; rfl
      have hseparator : isSeparator separator = true := by
        have hhead := List.head?_dropWhile_not (fun c => !isSeparator c) value.trim
        rw [hdrop] at hhead
        simpa using hhead
      exact .inr ⟨separator, hseparator, by rw [hclock, ← hsplit, hdrop]⟩

variable {value}

theorem cut_of_plain (h : ∀ c ∈ value.trim, isSeparator c = false) :
    dateOf value = value.trim ∧ clockOf value = [] := by
  rcases trim_cases value with hcut | ⟨separator, hseparator, hcut⟩
  · exact ⟨hcut.1.symm, hcut.2⟩
  · have hmem : separator ∈ value.trim := by
      rw [hcut]
      exact List.mem_append_right _ List.mem_cons_self
    rw [h separator hmem] at hseparator
    cases hseparator

theorem cut_of_separator {date clock : Str} {separator : Char}
    (hdate : ∀ c ∈ date, isSeparator c = false) (hseparator : isSeparator separator = true)
    (htrim : value.trim = date ++ separator :: clock) :
    dateOf value = date ∧ clockOf value = clock := by
  have hall : ∀ c ∈ date, (!isSeparator c) = true := by
    intro c hc
    simp [hdate c hc]
  unfold dateOf clockOf
  rw [htrim, List.takeWhile_append_of_pos hall, List.dropWhile_append_of_pos hall,
    List.takeWhile_cons_of_neg (by simp [hseparator]),
    List.dropWhile_cons_of_neg (by simp [hseparator]), List.append_nil]
  exact ⟨rfl, rfl⟩

end Cut

/-! ## Characters

Which characters a part has, and which it has not. -/

theorem FullDate.plain {date : Str} (h : FullDate date) : ∀ c ∈ date, isSeparator c = false := by
  obtain ⟨hyear, -, hmonth, hday⟩ := h
  intro c hc
  rcases List.mem_append.mp hc with hc | hc
  · exact hyear.not_separator hc
  · rcases List.mem_cons.mp hc with rfl | hc
    · rfl
    · rcases List.mem_append.mp hc with hc | hc
      · exact hmonth.digits.not_separator hc
      · rcases List.mem_cons.mp hc with rfl | hc
        · rfl
        · exact hday.digits.not_separator hc

theorem DateText.plain {date : Str} (h : DateText date) : ∀ c ∈ date, isSeparator c = false := by
  cases h with
  | year hyear _ => exact fun c hc => hyear.not_separator hc
  | month hyear _ hmonth =>
      intro c hc
      rcases List.mem_append.mp hc with hc | hc
      · exact hyear.not_separator hc
      · rcases List.mem_cons.mp hc with rfl | hc
        · rfl
        · exact hmonth.digits.not_separator hc
  | day hdate => exact hdate.plain

theorem FullDate.count {date : Str} (h : FullDate date) : 2 ≤ date.count '-' := by
  obtain ⟨-, -, -, -⟩ := h
  rw [List.count_append, List.count_cons_self, List.count_append, List.count_cons_self]
  omega

theorem Field.dropWhile {field rest : Str} (h : Field field) :
    (field ++ rest).dropWhile isDigit = rest.dropWhile isDigit :=
  List.dropWhile_append_of_pos (List.all_eq_true.mp h.digits.all)

theorem TimeText.colon {time : Str} (h : TimeText time) (rest : Str) :
    ((time ++ rest).dropWhile isDigit).head? = some ':' := by
  cases h with
  | minute hhour _ => rw [List.append_assoc, hhour.dropWhile]; rfl
  | second hhour _ _ => rw [List.append_assoc, hhour.dropWhile]; rfl
  | fraction hhour _ _ _ _ => rw [List.append_assoc, hhour.dropWhile]; rfl

/-- A designator is no more digits, and has no dot. -/
theorem Designated.head {designator : Str} (h : Designated designator) :
    ∀ c ∈ designator.head?, isDigit c = false ∧ c ≠ ':' := by
  have hsigned : ∀ {sign c : Char} {rest : Str}, isSign sign = true → c ∈ (sign :: rest).head? →
      isDigit c = false ∧ c ≠ ':' := by
    rintro sign c rest hsign hc
    obtain rfl : sign = c := by simpa using hc
    have hcases : sign = '+' ∨ sign = '-' := by simpa [isSign] using hsign
    rcases hcases with rfl | rfl <;> decide
  cases h with
  | absent => nofun
  | utc hzulu =>
      intro c hc
      obtain rfl := Option.some.inj hc
      rcases hzulu with rfl | rfl <;> decide
  | hours hsign _ => exact fun c hc => hsigned hsign hc
  | compact hsign _ _ _ _ => exact fun c hc => hsigned hsign hc
  | colon hsign _ _ => exact fun c hc => hsigned hsign hc

theorem Designated.no_dot {designator : Str} (h : Designated designator) : '.' ∉ designator := by
  have hfield : ∀ {field : Str}, Field field → '.' ∉ field := fun hfield =>
    hfield.digits.not_mem (by decide)
  have hsigned : ∀ {sign : Char}, isSign sign = true → '.' ≠ sign := by
    rintro sign hsign rfl
    exact absurd hsign (by decide)
  cases h with
  | absent => nofun
  | utc hzulu => rcases hzulu with rfl | rfl <;> decide
  | hours hsign hhours => simp [hsigned hsign, hfield hhours]
  | compact hsign hhours hminutes _ _ => simp [hsigned hsign, hfield hhours, hfield hminutes]
  | colon hsign hhours hminutes => simp [hsigned hsign, hfield hhours, hfield hminutes]

/-- A dot in a clock of the grammar stands in front of a digit. -/
theorem TimeText.dot {time designator earlier later : Str} (h : TimeText time)
    (hdesignator : Designated designator) (hsplit : time ++ designator = earlier ++ '.' :: later) :
    ∃ c ∈ later.head?, isDigit c = true := by
  have hfield : ∀ {field : Str}, Field field → '.' ∉ field := fun hfield =>
    hfield.digits.not_mem (by decide)
  have hmem : '.' ∈ time ++ designator := by
    rw [hsplit]
    exact List.mem_append_right _ List.mem_cons_self
  cases h with
  | minute hhour hminute =>
      simp [hfield hhour, hfield hminute, hdesignator.no_dot] at hmem
  | second hhour hminute hsecond =>
      simp [hfield hhour, hfield hminute, hfield hsecond, hdesignator.no_dot] at hmem
  | @fraction hour minute second fraction hhour hminute hsecond hfraction hne =>
      have hfront : '.' ∉ hour ++ ':' :: (minute ++ ':' :: second) := by
        simp [hfield hhour, hfield hminute, hfield hsecond]
      have hback : '.' ∉ fraction ++ designator := by
        simp [hfraction.not_mem (show '.' ∈ _ by decide), hdesignator.no_dot]
      have hjoin : (hour ++ ':' :: (minute ++ ':' :: (second ++ '.' :: fraction))) ++ designator =
          (hour ++ ':' :: (minute ++ ':' :: second)) ++ '.' :: (fraction ++ designator) := by simp
      rw [hjoin] at hsplit
      have hcount : (earlier ++ '.' :: later).count '.' = 1 := by
        rw [← hsplit, @List.count_append _ _ '.' (hour ++ ':' :: (minute ++ ':' :: second)),
          List.count_cons_self, List.count_eq_zero_of_not_mem hfront,
          List.count_eq_zero_of_not_mem hback]
      rw [List.count_append, List.count_cons_self] at hcount
      have hearlier : '.' ∉ earlier := List.count_eq_zero.mp (by omega)
      have hcut := Str.splitOnce_append (t := fraction ++ designator) hfront
      rw [hsplit, Str.splitOnce_append hearlier] at hcut
      obtain ⟨-, rfl⟩ := Prod.mk.inj (Option.some.inj hcut)
      obtain ⟨c, rest, rfl⟩ := List.exists_cons_of_ne_nil hne
      exact ⟨c, rfl, List.all_eq_true.mp hfraction.all c List.mem_cons_self⟩

/-! ## The two directions

Accepted from the grammar, and the grammar from accepted. -/

theorem clock_ne_nil {value : Str} (h : Timed value) : clockOf value ≠ [] := by
  intro hempty
  obtain ⟨fields, hclock⟩ := h.clock
  rw [hempty, show (clockParts []).run = .ok none by decide] at hclock
  cases hclock

/-- A readable date is accepted alone and in front of a readable clock. -/
theorem accepted_of {value : Str} (hdate : (dateParts (dateOf value)).isSome = true)
    (hclock : ∃ fields, clockFields (clockOf value) = .ok (some fields)) :
    ∃ t, (parse value).run = .ok (some t) := by
  obtain ⟨⟨year, month, day⟩, hdate⟩ := Option.isSome_iff_exists.mp hdate
  obtain ⟨fields, hclock⟩ := hclock
  refine ⟨instantAt year month day fields, ?_⟩
  rw [parse_eq, hdate]
  dsimp only
  rw [hclock]
  rfl

theorem Timed.accepted {value : Str} (h : Timed value) :
    ∃ t, (parse value).run = .ok (some t) := by
  obtain ⟨fields, hclock⟩ := h.clock
  exact accepted_of h.date ⟨fields, (if_neg (clock_ne_nil h)).trans hclock⟩

theorem Loose.accepted {value : Str} (h : Loose value) :
    ∃ t, (parse value).run = .ok (some t) := by
  cases h with
  | bare hdate _ hclock => exact accepted_of hdate ⟨_, if_pos hclock⟩
  | truncated htimed _ => exact htimed.accepted
  | hour htimed _ => exact htimed.accepted
  | dot htimed _ _ => exact htimed.accepted

/-- A text of the grammar is cut where its own separator stands. -/
theorem Conforms.cut {value : Str} (h : Conforms value.trim) :
    (dateOf value = value.trim ∧ clockOf value = []) ∨
      ∃ time designator, FullDate (dateOf value) ∧ clockOf value = time ++ designator ∧
        TimeText time ∧ Designated designator := by
  generalize htext : value.trim = text at h
  cases h with
  | date hdate =>
      subst htext
      exact .inl (cut_of_plain hdate.plain)
  | @clock date time designator separator hdate hseparator htime hdesignator =>
      obtain ⟨rfl, hclock⟩ := cut_of_separator hdate.plain hseparator htext
      exact .inr ⟨time, designator, hdate, hclock, htime, hdesignator⟩

/-- No text is of both kinds. -/
theorem Conforms.not_loose {value : Str} (h : Conforms value.trim) : ¬ Loose value := by
  intro hloose
  rcases h.cut with ⟨hdate, hclock⟩ | ⟨time, designator, hdate, hclock, htime, hdesignator⟩
  · cases hloose with
    | bare _ hne _ => exact hne hdate.symm
    | truncated htimed _ => exact clock_ne_nil htimed hclock
    | hour htimed _ => exact clock_ne_nil htimed hclock
    | dot htimed _ _ => exact clock_ne_nil htimed hclock
  · have hcolon := htime.colon designator
    rw [← hclock] at hcolon
    cases hloose with
    | bare _ _ hempty =>
        rw [hempty] at hcolon
        cases hcolon
    | truncated _ hcount => exact absurd hdate.count (by omega)
    | hour _ hne => exact hne hcolon
    | dot _ hsplit hlater =>
        obtain ⟨c, hc, hdigit⟩ := htime.dot hdesignator (hclock.symm.trans hsplit)
        rw [hlater c hc] at hdigit
        cases hdigit

/-- The texts of a date, as the reader takes them. -/
theorem DateRead.dateText {text : Str} {d : Calendar.Date} (h : DateRead text d) :
    DateText text := by
  obtain ⟨year, rest, hsplit, hyear, hlength, hrest, hfields⟩ := h.fields
  have hjoin : List.intercalate ['-'] (text.splitOn '-') = text := List.intercalate_splitOn _
  rw [hsplit] at hjoin
  match rest, hrest with
  | [], _ =>
      obtain rfl : year = text := by simpa [List.intercalate] using hjoin
      exact .year hyear hlength
  | [month], _ =>
      obtain rfl : year ++ '-' :: month = text := by simpa [List.intercalate] using hjoin
      exact .month hyear hlength (hfields month List.mem_cons_self)
  | [month, day], _ =>
      obtain rfl : year ++ '-' :: (month ++ '-' :: day) = text := by
        simpa [List.intercalate] using hjoin
      exact .day ⟨hyear, hlength, hfields month List.mem_cons_self,
        hfields day (List.mem_cons_of_mem _ List.mem_cons_self)⟩

/-- A date with two hyphens is a full one. -/
theorem DateText.full {date : Str} (h : DateText date) (hcount : 2 ≤ date.count '-') :
    FullDate date := by
  have hnone : ∀ {s : Str}, Digits s → s.count '-' = 0 := fun hs =>
    List.count_eq_zero_of_not_mem (hs.not_mem (by decide))
  cases h with
  | year hyear _ => exact absurd (hnone hyear) (by omega)
  | month hyear _ hmonth =>
      rw [List.count_append, List.count_cons_self, hnone hyear, hnone hmonth.digits] at hcount
      omega
  | day hdate => exact hdate

/-- A clock with a colon behind its hour and digits behind its dot. -/
theorem TimeRead.timeText {time designator : Str} (h : TimeRead time)
    (hdesignator : Designated designator)
    (hcolon : ((time ++ designator).dropWhile isDigit).head? = some ':')
    (hdot : ∀ earlier later : Str, time ++ designator = earlier ++ '.' :: later →
      ∃ c ∈ later.head?, isDigit c = true) : TimeText time := by
  cases h with
  | hour hhour =>
      rw [hhour.dropWhile] at hcolon
      cases designator with
      | nil => cases hcolon
      | cons c rest =>
          obtain ⟨hdigit, hne⟩ := hdesignator.head c rfl
          rw [List.dropWhile_cons_of_neg (by simp [hdigit])] at hcolon
          exact absurd (Option.some.inj hcolon) hne
  | minute hhour hminute => exact .minute hhour hminute
  | second hhour hminute hsecond => exact .second hhour hminute hsecond
  | @fraction hour minute second fraction hhour hminute hsecond hfraction =>
      refine .fraction hhour hminute hsecond hfraction ?_
      rintro rfl
      obtain ⟨c, hc, hdigit⟩ := hdot (hour ++ ':' :: (minute ++ ':' :: second)) designator (by simp)
      rw [(hdesignator.head c hc).1] at hdigit
      cases hdigit

/-- Back from the fields: a text that is accepted and not loose has all those of the grammar. -/
theorem conforms_of_accepted {value : Str} {t : Timestamp}
    (h : (parse value).run = .ok (some t)) (hloose : ¬ Loose value) : Conforms value.trim := by
  obtain ⟨d, hread, hdate, ⟨hour, minute, second, nanos, offset⟩, hclock, -⟩ := parse_some h
  have hsome : (dateParts (dateOf value)).isSome = true := by rw [hdate]; rfl
  rcases trim_cases value with ⟨htrim, -⟩ | ⟨separator, hseparator, htrim⟩
  · rw [htrim]
    exact .date hread.dateText
  · have hne : value.trim ≠ dateOf value := by
      intro heq
      have hlength := congrArg List.length (htrim.symm.trans heq)
      rw [List.length_append, List.length_cons] at hlength
      omega
    have hclock' : clockOf value ≠ [] := fun hempty => hloose (.bare hsome hne hempty)
    have hparts : (clockParts (clockOf value)).run =
        .ok (some (hour, minute, second, nanos, offset)) := (if_neg hclock').symm.trans hclock
    have htimed : Timed value := ⟨hsome, _, hparts⟩
    obtain ⟨⟨time, designator, hcut, htime, hdesignator⟩, -⟩ := clockParts_read hparts
    have hfull : FullDate (dateOf value) := hread.dateText.full (by
      by_contra hcount
      exact hloose (.truncated htimed (by omega)))
    have htext : TimeText time := by
      refine htime.timeText hdesignator ?_ fun earlier later hsplit => ?_
      · rw [← hcut]
        by_contra hcolon
        exact hloose (.hour htimed hcolon)
      · by_contra hnone
        push Not at hnone
        exact hloose (.dot htimed (hcut.trans hsplit) fun c hc => by simpa using hnone c hc)
    rw [htrim, hcut]
    exact .clock hfull hseparator htext hdesignator

/-! ## The cut of an offset

A text is `Narrow` when all of it is ASCII; such a text has no character to cut into. -/

/-- Characters of one byte each. -/
def Narrow (s : Str) : Prop := ∀ c ∈ s, c.utf8Size = 1

theorem Narrow.cons {c : Char} {s : Str} (hc : c.utf8Size = 1) (hs : Narrow s) : Narrow (c :: s) :=
  List.forall_mem_cons.mpr ⟨hc, hs⟩

theorem Narrow.append {s t : Str} (hs : Narrow s) (ht : Narrow t) : Narrow (s ++ t) :=
  List.forall_mem_append.mpr ⟨hs, ht⟩

theorem Narrow.len {s : Str} (h : Narrow s) : s.len = s.length := by
  induction s with
  | nil => rfl
  | cons c s ih =>
      obtain ⟨hc, hs⟩ := List.forall_mem_cons.mp h
      rw [Str.len_cons, hc, ih hs, List.length_cons, Nat.add_comm]

theorem Digits.narrow {s : Str} (h : Digits s) : Narrow s := by
  intro c hc
  obtain ⟨n, rfl⟩ := h c hc
  exact (digitChar_spec n).2.2.1

theorem TimeText.narrow {time : Str} (h : TimeText time) : Narrow time := by
  have hbehind {left right : Str} {c : Char} (hleft : Narrow left) (hc : c.utf8Size = 1)
      (hright : Narrow right) : Narrow (left ++ c :: right) := hleft.append (.cons hc hright)
  cases h with
  | minute hhour hminute => exact hbehind hhour.digits.narrow rfl hminute.digits.narrow
  | second hhour hminute hsecond =>
      exact hbehind hhour.digits.narrow rfl
        (hbehind hminute.digits.narrow rfl hsecond.digits.narrow)
  | fraction hhour hminute hsecond hfraction _ =>
      exact hbehind hhour.digits.narrow rfl (hbehind hminute.digits.narrow rfl
        (hbehind hsecond.digits.narrow rfl hfraction.narrow))

theorem Designated.narrow {designator : Str} (h : Designated designator) : Narrow designator := by
  have hsign {sign : Char} (hsign : isSign sign = true) : sign.utf8Size = 1 := by
    have hcases : sign = '+' ∨ sign = '-' := by simpa [isSign] using hsign
    rcases hcases with rfl | rfl <;> rfl
  cases h with
  | absent => exact List.forall_mem_nil _
  | utc hzulu => rcases hzulu with rfl | rfl <;> exact List.forall_mem_singleton.mpr rfl
  | hours hsigned hhours => exact .cons (hsign hsigned) hhours.digits.narrow
  | compact hsigned hhours hminutes _ _ =>
      exact .cons (hsign hsigned) (hhours.digits.narrow.append hminutes.digits.narrow)
  | colon hsigned hhours hminutes =>
      exact .cons (hsign hsigned) (hhours.digits.narrow.append (.cons rfl hminutes.digits.narrow))

/-- Four bytes of a text of the grammar are four characters, so none is cut. -/
theorem Conforms.not_cut_inside {value : Str} (h : Conforms value.trim) : ¬ CutInside value := by
  rintro ⟨-, -, earlier, sign, digits, hsplit, -, -, -, hfour, hcut⟩
  rcases h.cut with ⟨-, hclock⟩ | ⟨time, designator, -, hclock, htime, hdesignator⟩
  · rw [hclock] at hsplit
    cases earlier <;> cases hsplit
  · have hnarrow : Narrow (earlier ++ sign :: digits) := by
      rw [← hsplit, hclock]
      exact htime.narrow.append hdesignator.narrow
    have hdigits : Narrow digits := fun c hc =>
      hnarrow c (List.mem_append_right _ (List.mem_cons_of_mem _ hc))
    have htwo : Narrow (digits.take 2) := fun c hc => hdigits c (List.mem_of_mem_take hc)
    have hlength : digits.length = 4 := hdigits.len.symm.trans hfour
    refine hcut (digits.take 2) (digits.drop 2) (List.take_append_drop 2 digits).symm ?_
    rw [htwo.len, List.length_take, hlength]
    rfl

/-- What is accepted is a text of the grammar, and every other text gives nothing, the four
kinds beside the grammar and an offset that is cut inside a character apart. -/
theorem accepted_conforms_iff (value : Str) :
    (((∃ t, (parse value).run = .ok (some t)) → Conforms value.trim) ∧
      (¬ Conforms value.trim → (parse value).run = .ok none)) ↔
        ¬ Loose value ∧ ¬ CutInside value := by
  constructor
  · rintro ⟨haccepted, hrefused⟩
    refine ⟨fun hloose => (haccepted hloose.accepted).not_loose hloose, fun hinside => ?_⟩
    have hnone := hrefused fun hconforms => hconforms.not_cut_inside hinside
    exact (parse_returns_iff value).mp ⟨none, hnone⟩ hinside
  · rintro ⟨hloose, hinside⟩
    have haccepted : (∃ t, (parse value).run = .ok (some t)) → Conforms value.trim := by
      rintro ⟨t, ht⟩
      exact conforms_of_accepted ht hloose
    refine ⟨haccepted, fun hbeside => ?_⟩
    obtain ⟨found, hrun⟩ := (parse_returns_iff value).mpr hinside
    cases found with
    | none => exact hrun
    | some t => exact absurd (haccepted ⟨t, hrun⟩) hbeside

/-- A separator with no time behind it, a truncated date in front of a time and an
hour without its minutes are accepted; an offset of a digit, an accented letter and a digit
gives no answer at all. -/
theorem beside_the_grammar_accepted :
    ((∃ t, (parse "2020-01-01T").run = .ok (some t)) ∧ ¬ Conforms (Str.trim "2020-01-01T")) ∧
    ((∃ t, (parse "2020T10:00").run = .ok (some t)) ∧ ¬ Conforms (Str.trim "2020T10:00")) ∧
    ((∃ t, (parse "2020-01-01T10").run = .ok (some t)) ∧
      ¬ Conforms (Str.trim "2020-01-01T10")) ∧
    (parse "2020-01-01T00:00+1é1").run ≠ .ok none ∧
      ¬ Conforms (Str.trim "2020-01-01T00:00+1é1") := by
  have hbeside : ∀ {value : Str}, Loose value →
      (∃ t, (parse value).run = .ok (some t)) ∧ ¬ Conforms value.trim := fun hloose =>
    ⟨hloose.accepted, fun hconforms => hconforms.not_loose hloose⟩
  have hpanics : ¬ Returns (parse "2020-01-01T00:00+1é1") := by
    rintro ⟨r, hr⟩
    have hrun : (parse "2020-01-01T00:00+1é1").run = .error .index := by decide +kernel
    cases hrun.symm.trans hr
  refine ⟨hbeside ?_, hbeside ?_, hbeside ?_, fun hnone => hpanics ⟨_, hnone⟩,
    fun hconforms => hpanics ((parse_returns_iff _).mpr hconforms.not_cut_inside)⟩
  · exact .bare (by decide +kernel) (by decide +kernel) (by decide +kernel)
  · exact .truncated ⟨by decide +kernel, (10, 0, 0, 0, 0), by decide +kernel⟩ (by decide +kernel)
  · exact .hour ⟨by decide +kernel, (10, 0, 0, 0, 0), by decide +kernel⟩ (by decide +kernel)

end Datetime

end GrpcEpub
