/-!
# Moments

A local time to the second, and the two 16-bit numbers an archive stores for it: a date (seven
bits of years since 1980, four of the month, five of the day) and a time (five bits of the hour,
six of the minute, five of half the second).
-/

namespace ZipContainer

/-- A local time to the second. Every part but the year is in the range of the bits that are stored
for it; for the second, of twice as many. -/
structure Moment where
  year : Nat
  month : Fin 16
  day : Fin 32
  hour : Fin 32
  minute : Fin 64
  second : Fin 64
  deriving DecidableEq, Repr

namespace Moment

/-- The first year that can be stored. -/
def firstYear : Nat := 1980

/-- The last year that can be stored. -/
def lastYear : Nat := 2107

/-- The stored date. -/
def packedDate (m : Moment) : Nat :=
  (m.year - firstYear) * 512 + m.month * 32 + m.day

/-- The stored time. -/
def packedTime (m : Moment) : Nat :=
  m.hour * 2048 + m.minute * 32 + m.second / 2

/-- The moment that a stored date and a stored time stand for. -/
def unpack (date time : Nat) : Moment where
  year := date / 512 + firstYear
  month := Fin.ofNat 16 (date / 32)
  day := Fin.ofNat 32 date
  hour := Fin.ofNat 32 (time / 2048)
  minute := Fin.ofNat 64 (time / 32)
  second := Fin.ofNat 64 (time % 32 * 2)

/-- A stored time always fits its field. -/
theorem packedTime_lt (m : Moment) : m.packedTime < 0x10000 := by
  have := m.hour.isLt
  have := m.minute.isLt
  have := m.second.isLt
  rw [packedTime]
  omega

/-- **A stored date fits its field** as long as the year is not too late. -/
theorem packedDate_lt_iff (m : Moment) (h : firstYear ≤ m.year) :
    m.packedDate < 0x10000 ↔ m.year ≤ lastYear := by
  have := m.month.isLt
  have := m.day.isLt
  rw [packedDate, lastYear]
  rw [firstYear] at h ⊢
  omega

end Moment

end ZipContainer
