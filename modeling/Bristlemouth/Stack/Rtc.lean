import Bristlemouth.Wire.DateTime

/-!
# Wall-clock readings

`RtcTimeAndDate`: what a real-time clock keeps of an instant, whole milliseconds, and the instant that
such a reading stands for.
-/

set_option autoImplicit false

namespace Bristlemouth

structure RtcTimeAndDate where
  year : UInt16
  month : UInt8
  day : UInt8
  hour : UInt8
  minute : UInt8
  second : UInt8
  ms : UInt16
deriving DecidableEq

namespace RtcTimeAndDate

/-- Microseconds since the epoch. The seconds run out after 2^32 of them. -/
def toUtcMicros (t : RtcTimeAndDate) : UInt64 :=
  let seconds := (utcFromDateTime t.year t.month t.day t.hour t.minute t.second).toUInt64
  seconds * 1000000 + t.ms.toUInt64 * 1000

def fromUtcMicros (utcUs : UInt64) : Option RtcTimeAndDate :=
  (dateTimeFromUtc utcUs).map fun datetime =>
    { year := datetime.year
      month := datetime.month
      day := datetime.day
      hour := datetime.hour
      minute := datetime.min
      second := datetime.sec
      ms := (datetime.usec / 1000).toUInt16 }

/-- Instants before 2^32 seconds lie in years that fit. -/
theorem yearFits_of_lt {utcUs : UInt64} (h : utcUs.toNat < 2 ^ 32 * 1000000) : YearFits utcUs := by
  have hyears := Calendar.le_daysOfYears 1970 (65536 - 1970)
  have hsecs : utcUs.toNat / microsecondsPerSecond < 2 ^ 32 := by
    rw [microsecondsPerSecond]
    omega
  have hdays : utcUs.toNat / microsecondsPerSecond / secsPerDay < 49711 := by
    rw [show secsPerDay = 86400 from rfl]
    omega
  rw [YearFits]
  exact Nat.lt_of_lt_of_le (hdays.trans (by decide : 49711 < 365 * (65536 - 1970))) hyears

/-- A reading set from an instant stands for the instant, without its microseconds. -/
theorem toUtcMicros_fromUtcMicros {utcUs : UInt64} (h : utcUs.toNat < 2 ^ 32 * 1000000) :
    ∃ t, fromUtcMicros utcUs = some t ∧ t.toUtcMicros.toNat = utcUs.toNat / 1000 * 1000 := by
  obtain ⟨dt, hdt, -, hutc, husec⟩ := dateTimeFromUtc_spec (yearFits_of_lt h)
  refine ⟨_, by rw [fromUtcMicros, hdt]; rfl, ?_⟩
  have hutcNat : (utcFromDateTime dt.year dt.month dt.day dt.hour dt.min dt.sec).toNat
      = utcUs.toNat / 1000000 := by
    change dt.toUtc.toNat = _
    rw [hutc, UInt32.toNat_ofNat', microsecondsPerSecond, Nat.mod_eq_of_lt (by omega)]
  have hms : ((dt.usec / 1000).toUInt16).toNat = utcUs.toNat % 1000000 / 1000 := by
    rw [UInt32.toNat_toUInt16, UInt32.toNat_div, husec, microsecondsPerSecond,
      show (1000 : UInt32).toNat = 1000 from rfl]
    omega
  unfold toUtcMicros
  dsimp only
  rw [UInt64.toNat_add, UInt64.toNat_mul, UInt64.toNat_mul, UInt32.toNat_toUInt64, UInt16.toNat_toUInt64,
    hutcNat, hms, show (1000000 : UInt64).toNat = 1000000 from rfl, show (1000 : UInt64).toNat = 1000 from rfl]
  omega

/-- Dates and seconds are inverse as far as the seconds go, and readings as far as they last. -/
theorem utc_round_trip :
    (∀ utcUs : UInt64, YearFits utcUs → ∃ dt, dateTimeFromUtc utcUs = some dt ∧ dt.IsValid ∧
      dt.toUtc.toNat = utcUs.toNat / 1000000 % 2 ^ 32) ∧
    ∀ utcUs : UInt64, utcUs.toNat < 2 ^ 32 * 1000000 →
      ∃ t, fromUtcMicros utcUs = some t ∧ t.toUtcMicros.toNat = utcUs.toNat / 1000 * 1000 := by
  refine ⟨fun utcUs h => ?_, fun utcUs h => toUtcMicros_fromUtcMicros h⟩
  obtain ⟨dt, hdt, hvalid, hutc, -⟩ := dateTimeFromUtc_spec h
  exact ⟨dt, hdt, hvalid, by rw [hutc, UInt32.toNat_ofNat']; rfl⟩

/-- The leap day of 2000, in its last millisecond. -/
theorem utc_round_trip_leapDay :
    (∃ dt, dateTimeFromUtc 951868799999123 = some dt ∧ dt.IsValid ∧
      dt.toUtc.toNat = (951868799999123 : UInt64).toNat / 1000000 % 2 ^ 32) ∧
    ∃ t, fromUtcMicros 951868799999123 = some t ∧
      t.toUtcMicros.toNat = (951868799999123 : UInt64).toNat / 1000 * 1000 :=
  ⟨utc_round_trip.1 951868799999123 (yearFits_of_lt (by decide)), utc_round_trip.2 951868799999123 (by decide)⟩

end RtcTimeAndDate

end Bristlemouth
