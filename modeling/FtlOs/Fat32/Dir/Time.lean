import FtlOs.Util.Time

/-!
# The times of a short entry

A short entry keeps its modification time in two 16-bit words: the time of day,
hour, minute and half-seconds in fields of 5, 6 and 5 bits, and the date, years
after 1980, month and day in fields of 7, 4 and 5 bits.  `time_tran` packs a
`UtcTime` into the two words and `modify_time` reads them back.

The time word round-trips: the hour, minute and second of an `Instant` fit their
fields, and the second comes back rounded down to even.  The date word does not:
the day `Instant` gives is 32 or more from the 32nd day on, it does not fit its
5 bits, and what comes back is another day.
-/

namespace FtlOs

namespace RawShortName

/-- `RawShortName::time_tran`: the `(hms, date)` words.  The `debug_assert!`s are off;
`year - 1980` wraps as a `usize`, and the `as u16` casts keep the low 16 bits. -/
def timeTran (ymd hms : Nat × Nat × Nat) : UInt16 × UInt16 :=
  let (year, mount, day) := ymd
  let (hour, min, sec) := hms
  let year := (year + (2 ^ 64 - 1980)) % 2 ^ 64
  let sec := sec / 2
  let hms := hour <<< 11 ||| min <<< 5 ||| sec
  let date := year <<< 9 ||| mount <<< 5 ||| day
  (UInt16.ofNat hms, UInt16.ofNat date)

/-- `RawShortName::set_modify_time`: the `(modify_hms, modify_date)` it stores. -/
def setModifyTime (utcTime : UtcTime) : UInt16 × UInt16 :=
  timeTran utcTime.ymd utcTime.hms

/-- `RawShortName::modify_time`, from the stored `(modify_hms, modify_date)`. -/
def modifyTime (modify : UInt16 × UInt16) : UtcTime :=
  ((UtcTime.base.setYmd modify.2).setHms modify.1).setMs 0

@[simp] theorem modifyTime_hms (modify : UInt16 × UInt16) :
    (modifyTime modify).hms = (UtcTime.base.setHms modify.1).hms := rfl

/-! ## The time word -/

/-- Fields that fit their widths pack into the sum of their shifted values. -/
theorem hmsWord_eq {hour min sec : Nat} (minFits : min < 64) (secFits : sec < 32) :
    hour <<< 11 ||| min <<< 5 ||| sec = hour * 2048 + min * 32 + sec := by
  have minField : min <<< 5 < 2 ^ 11 := by
    rw [Nat.shiftLeft_eq]
    omega
  rw [← Nat.shiftLeft_add_eq_or_of_lt minField,
    show hour <<< 11 + min <<< 5 = (hour * 64 + min) <<< 5 by simp only [Nat.shiftLeft_eq]; ring,
    ← Nat.shiftLeft_add_eq_or_of_lt (by omega : sec < 2 ^ 5), Nat.shiftLeft_eq]
  ring

/-- A time of day with hour, minute and second in range comes back from its word,
the second rounded down to even. -/
theorem setHms_timeTran {hour min sec : Nat} (ymd : Nat × Nat × Nat) (hourFits : hour < 24)
    (minFits : min < 60) (secFits : sec < 60) :
    (UtcTime.base.setHms (timeTran ymd (hour, min, sec)).1).hms = (hour, min, sec - sec % 2) := by
  have word : (timeTran ymd (hour, min, sec)).1.toNat = hour * 2048 + min * 32 + sec / 2 := by
    simp only [timeTran, UInt16.toNat_ofNat']
    rw [hmsWord_eq (by omega) (by omega), Nat.mod_eq_of_lt (by omega)]
  simp only [UtcTime.setHms, word, Nat.shiftRight_eq_div_pow, Nat.one_shiftLeft,
    Nat.and_two_pow_sub_one_eq_mod, Prod.mk.injEq]
  refine ⟨?_, ?_, ?_⟩ <;> omega

/-! ## The date word -/

/-- The day read back from a date word is below 32. -/
theorem modifyTime_day_lt (modify : UInt16 × UInt16) : (modifyTime modify).ymd.2.2 < 32 := by
  simp only [modifyTime, UtcTime.setMs, UtcTime.setHms, UtcTime.setYmd, Nat.one_shiftLeft,
    Nat.and_two_pow_sub_one_eq_mod]
  exact Nat.mod_lt _ (by norm_num)

/-- Stamping a short entry with an instant and reading the stamp back keeps the time
of day, the second rounded down to even, but from the 32nd day on it loses the day:
`Instant` gives a day of 32 or more, which the date word cannot hold. -/
theorem modifyTime_loses_day (t : Instant) (late : 32 * 86400 ≤ t.secs) :
    (modifyTime (setModifyTime (UtcTime.fromInstant t))).hms =
        ((UtcTime.fromInstant t).hms.1, (UtcTime.fromInstant t).hms.2.1,
          (UtcTime.fromInstant t).hms.2.2 - (UtcTime.fromInstant t).hms.2.2 % 2) ∧
      32 ≤ (UtcTime.fromInstant t).ymd.2.2 ∧
      (modifyTime (setModifyTime (UtcTime.fromInstant t))).ymd.2.2 ≠
        (UtcTime.fromInstant t).ymd.2.2 := by
  have day := t.day_ge_of_late late
  have fields : (UtcTime.fromInstant t).hms = (t.secs / 3600 % 24, t.secs / 60 % 60, t.secs % 60) := by
    rw [UtcTime.fromInstant_hms, Instant.hourMinSecond_eq]
  refine ⟨?_, by simpa using day, ?_⟩
  · rw [modifyTime_hms, setModifyTime, fields]
    exact setHms_timeTran _ (by omega) (by omega) (by omega)
  · have readBack := modifyTime_day_lt (setModifyTime (UtcTime.fromInstant t))
    simp only [UtcTime.fromInstant_ymd]
    omega

/-- The 41st day after 1980-01-01, at midnight. -/
def dayForty : Instant := Instant.fromSecs (40 * 86400)

/-- On day 40 `Instant` gives month 1, day 40, and the stamp reads back as day 8. -/
theorem modifyTime_loses_day_at_dayForty :
    (UtcTime.fromInstant dayForty).ymd = (1980, 1, 40) ∧
      (modifyTime (setModifyTime (UtcTime.fromInstant dayForty))).ymd = (1980, 1, 8) ∧
      (modifyTime (setModifyTime (UtcTime.fromInstant dayForty))).ymd.2.2 ≠
        (UtcTime.fromInstant dayForty).ymd.2.2 :=
  ⟨by decide, by decide, (modifyTime_loses_day dayForty (by decide)).2.2⟩

end RawShortName

end FtlOs
