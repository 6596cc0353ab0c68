/-!
# Dates of a document

A date of the proleptic Gregorian calendar, alone or with a time of day and an offset from
universal time.

Principal definitions: `Date`, `Clock`, `Date.fault?`, `Clock.fault?`, `instant`, and the texts of
dates, times, offsets and faults.
-/

namespace RegisterLayout

structure Date where
  year : Nat
  month : Nat
  day : Nat
  deriving DecidableEq, Repr

/-- A time of day; `zone` is the offset from universal time in minutes, if known. -/
structure Clock where
  hour : Nat
  minute : Nat
  second : Nat
  micro : Nat
  zone : Option Int
  deriving DecidableEq, Repr

/-- What is wrong with the numbers of a date or a time. -/
inductive CalendarFault where
  | year (n : Nat)
  | month
  | day
  | hour
  | minute
  | second
  | zone (minutes : Int)
  deriving DecidableEq, Repr

/-- An offset in minutes as messages show it, in days and seconds. -/
def durationText (minutes : Int) : String :=
  let seconds := minutes * 60
  let days := seconds.fdiv 86400
  let rest := seconds.fmod 86400
  let parts := (if days = 0 then [] else ["days=" ++ toString days])
    ++ (if rest = 0 then [] else ["seconds=" ++ toString rest])
  "datetime.timedelta(" ++ ", ".intercalate parts ++ ")"

def CalendarFault.message : CalendarFault → String
  | year n => "year " ++ toString n ++ " is out of range"
  | month => "month must be in 1..12"
  | day => "day is out of range for month"
  | hour => "hour must be in 0..23"
  | minute => "minute must be in 0..59"
  | second => "second must be in 0..59"
  | zone minutes => "offset must be a timedelta strictly between -timedelta(hours=24) and "
      ++ "timedelta(hours=24), not " ++ durationText minutes ++ "."

namespace Date

def isLeap (year : Nat) : Bool := year % 4 == 0 && (year % 100 != 0 || year % 400 == 0)

def daysIn (year month : Nat) : Nat :=
  if month = 2 then (if isLeap year then 29 else 28)
  else if month ∈ [4, 6, 9, 11] then 30 else 31

/-- The first fault of a date: the year, the month, then the day. -/
def fault? (d : Date) : Option CalendarFault :=
  if d.year = 0 ∨ 9999 < d.year then some (.year d.year)
  else if d.month = 0 ∨ 12 < d.month then some .month
  else if d.day = 0 ∨ daysIn d.year d.month < d.day then some .day
  else none

/-- The days from the beginning of the calendar up to a date, the date among them. -/
def dayNumber (d : Date) : Nat :=
  let years := d.year - 1
  let months := (List.range (d.month - 1)).foldr (fun m days => daysIn d.year (m + 1) + days) 0
  365 * years + years / 4 - years / 100 + years / 400 + months + d.day

private def padded (width n : Nat) : String :=
  let digits := toString n
  String.ofList (List.replicate (width - digits.length) '0') ++ digits

/-- Year, month and day between dashes. -/
def text (d : Date) : String :=
  padded 4 d.year ++ "-" ++ padded 2 d.month ++ "-" ++ padded 2 d.day

private theorem toList_padded (width n : Nat) :
    ∃ k, (padded width n).toList = List.replicate k '0' ++ Nat.toDigits 10 n := by
  refine ⟨width - (toString n).length, ?_⟩
  simp [padded, Nat.toString_eq_repr, Nat.toList_repr]

private theorem padded_inj {width m n : Nat}
    (h : (padded width m).toList = (padded width n).toList) : m = n := by
  obtain ⟨j, hm⟩ := toList_padded width m
  obtain ⟨k, hn⟩ := toList_padded width n
  have hvalue := congrArg (Nat.ofDigitChars 10 · 0) (hm.symm.trans (h.trans hn))
  simpa [Nat.ofDigitChars_append, Nat.ofDigitChars_replicate_zero,
    Nat.ofDigitChars_ten_toDigits] using hvalue

private theorem dash_notMem_padded (width n : Nat) : '-' ∉ (padded width n).toList := by
  obtain ⟨k, hn⟩ := toList_padded width n
  rw [hn, List.mem_append]
  rintro (h | h)
  · exact absurd (List.eq_of_mem_replicate h) (by decide)
  · exact absurd (Nat.isDigit_of_mem_toDigits (by decide) (by decide) h) (by decide)

/-- What is before the first dash, and what is behind it. -/
private theorem cut_at_dash {xs ys s t : List Char} (hx : '-' ∉ xs) (hy : '-' ∉ ys)
    (h : xs ++ '-' :: s = ys ++ '-' :: t) : xs = ys ∧ s = t := by
  induction xs generalizing ys with
  | nil =>
    cases ys with
    | nil => exact ⟨rfl, (List.cons.inj h).2⟩
    | cons y ys => exact absurd (List.cons.inj h).1 fun hd => hy (hd ▸ List.mem_cons_self)
  | cons x xs ih =>
    cases ys with
    | nil => exact absurd (List.cons.inj h).1 fun hd => hx (hd ▸ List.mem_cons_self)
    | cons y ys =>
      obtain ⟨hxy, hrest⟩ := List.cons.inj h
      obtain ⟨hxs, hst⟩ := ih (fun hm => hx (List.mem_cons_of_mem _ hm))
        (fun hm => hy (List.mem_cons_of_mem _ hm)) hrest
      exact ⟨by rw [hxy, hxs], hst⟩

/-- A date is known by its text. -/
theorem text_inj {d e : Date} (h : d.text = e.text) : d = e := by
  have hchars := congrArg String.toList h
  have hdash : "-".toList = ['-'] := rfl
  simp only [text, String.toList_append, List.append_assoc, hdash, List.singleton_append] at hchars
  obtain ⟨hyear, hchars⟩ := cut_at_dash (dash_notMem_padded 4 d.year)
    (dash_notMem_padded 4 e.year) hchars
  obtain ⟨hmonth, hday⟩ := cut_at_dash (dash_notMem_padded 2 d.month)
    (dash_notMem_padded 2 e.month) hchars
  cases d
  cases e
  simp only [Date.mk.injEq]
  exact ⟨padded_inj hyear, padded_inj hmonth, padded_inj hday⟩

end Date

namespace Clock

/-- The first fault of a time: its offset, the hour, the minute, then the second. -/
def fault? (c : Clock) : Option CalendarFault :=
  if 23 < c.hour then some .hour
  else if 59 < c.minute then some .minute
  else if 59 < c.second then some .second
  else none

private def padded (width n : Nat) : String :=
  let digits := toString n
  String.ofList (List.replicate (width - digits.length) '0') ++ digits

private def zoneText (minutes : Int) : String :=
  (if minutes < 0 then "-" else "+") ++ padded 2 (minutes.natAbs / 60) ++ ":"
    ++ padded 2 (minutes.natAbs % 60)

/-- Hour, minute and second, with the fraction and the offset that are there. -/
def text (c : Clock) : String :=
  padded 2 c.hour ++ ":" ++ padded 2 c.minute ++ ":" ++ padded 2 c.second
    ++ (if c.micro = 0 then "" else "." ++ padded 6 c.micro)
    ++ (c.zone.map zoneText).getD ""

end Clock

/-- The microseconds from the beginning of the calendar, by universal time if the offset from it is
known, otherwise by the clock alone. -/
def instant (d : Date) (c : Clock) : Int :=
  let minutes : Int := d.dayNumber * 1440 + c.hour * 60 + c.minute - c.zone.getD 0
  (minutes * 60 + c.second) * 1000000 + c.micro

end RegisterLayout
