import GosKernel.Lib.Exec
import Mathlib.Data.UInt

/-!
# The real-time clock (`drivers/rtc/rtc.c`)

`rtc_read_time` waits until the chip is not updating its registers, reads them, and
converts them from the format that status register B announces: BCD or binary digits,
12 or 24 hours.

- **`rtc_read_time_iff`**: the formats and hours for which that is the time. The hour is
  converted from BCD together with the PM flag, and 12 AM and 12 PM are not told from
  the other hours.
-/

namespace GosKernel.Rtc

open Exec

/-! ## The chip -/

def rtcSecond : UInt8 := 0x00

def rtcMinute : UInt8 := 0x02

def rtcHour : UInt8 := 0x04

def rtcDay : UInt8 := 0x07

def rtcMonth : UInt8 := 0x08

def rtcYear : UInt8 := 0x09

def rtcStatusA : UInt8 := 0x0A

def rtcStatusB : UInt8 := 0x0B

/-- `RTC_STATUS_B_24HOUR`. -/
def rtcStatusB24Hour : UInt8 := 0x02

/-- `RTC_STATUS_B_BINARY`. -/
def rtcStatusBBinary : UInt8 := 0x04

/-- The chip: the register that is selected, the registers, for how many more reads of
status register A it says that it updates, and what the time registers read as until
then. -/
structure Cmos where
  index : UInt8
  reg : UInt8 → UInt8
  busy : Nat
  unstable : UInt8 → UInt8

/-- `outb(RTC_INDEX_PORT, reg)`; bit 7 does not belong to the index. -/
def selectReg (reg : UInt8) : Exec Cmos Unit :=
  .update fun c => { c with index := reg &&& 0x7F }

/-- `inb(RTC_DATA_PORT)`. -/
def readData : Exec Cmos UInt8 := fun c =>
  if c.index = rtcStatusA then
    if c.busy = 0 then some (c.reg rtcStatusA &&& 0x7F, c)
    else some (c.reg rtcStatusA ||| 0x80, { c with busy := c.busy - 1 })
  else if c.busy ≠ 0 ∧ c.index < rtcStatusA then some (c.unstable c.index, c)
  else some (c.reg c.index, c)

/-- `io_wait`: a write to an unused port. -/
def ioWait : Exec Cmos Unit := pure ()

/-! ## The driver -/

/-- `rtc_time_t` (rtc.h:10-18). -/
structure RtcTime where
  second : UInt8
  minute : UInt8
  hour : UInt8
  day : UInt8
  month : UInt8
  year : UInt16
  century : UInt8
deriving DecidableEq

/-- `rtc_read_reg` (rtc.c:27-31). -/
def rtcReadReg (reg : UInt8) : Exec Cmos UInt8 := do
  selectReg reg
  ioWait
  readData

/-- `bcd_to_binary` (rtc.c:39-41). -/
def bcdToBinary (bcd : UInt8) : UInt8 := (bcd >>> 4) * 10 + (bcd &&& 0x0F)

/-- The loop that waits for the end of an update. -/
def rtcWait : (fuel : Nat) → Exec Cmos Unit
  | 0 => .stop
  | fuel + 1 => do
    let statusA ← rtcReadReg rtcStatusA
    if statusA &&& 0x80 ≠ 0 then do
      ioWait
      rtcWait fuel
    else pure ()

/-- `if (!is_binary) v = bcd_to_binary(v)`. -/
def fromDigits (isBinary : Bool) (v : UInt8) : UInt8 := if !isBinary then bcdToBinary v else v

/-- `if (!is_24h && (hour & 0x80)) hour = ((hour & 0x7F) + 12) % 24`. -/
def fromHour (is24h : Bool) (hour : UInt8) : UInt8 :=
  if !is24h && hour &&& 0x80 ≠ 0 then ((hour &&& 0x7F) + 12) % 24 else hour

/-- The conversion of the registers, and the stores to `*time` (rtc.c:83-102). -/
def rtcConvert (isBinary is24h : Bool) (second minute hour day month year : UInt8) : RtcTime where
  second := fromDigits isBinary second
  minute := fromDigits isBinary minute
  -- the PM bit is tested after the conversion from BCD
  hour := fromHour is24h (fromDigits isBinary hour)
  day := fromDigits isBinary day
  month := fromDigits isBinary month
  year := 2000 + (fromDigits isBinary year).toUInt16
  century := 20

/-- `rtc_read_time` (rtc.c:64-103): the structure at `time` (`none` for `NULL`), as the
call leaves it. -/
def rtcReadTime (fuel : Nat) : (time : Option RtcTime) → Exec Cmos (Option RtcTime)
  | none => pure none
  | some _ => do
    let statusB ← rtcReadReg rtcStatusB
    let isBinary := decide (statusB &&& rtcStatusBBinary ≠ 0)
    let is24h := decide (statusB &&& rtcStatusB24Hour ≠ 0)
    rtcWait fuel
    let second ← rtcReadReg rtcSecond
    let minute ← rtcReadReg rtcMinute
    let hour ← rtcReadReg rtcHour
    let day ← rtcReadReg rtcDay
    let month ← rtcReadReg rtcMonth
    let year ← rtcReadReg rtcYear
    pure (some (rtcConvert isBinary is24h second minute hour day month year))

/-! ## Formats -/

/-- Does status register B announce binary digits? -/
def Cmos.isBinary (c : Cmos) : Bool := decide (c.reg rtcStatusB &&& rtcStatusBBinary ≠ 0)

/-- Does it announce 24 hours? -/
def Cmos.is24h (c : Cmos) : Bool := decide (c.reg rtcStatusB &&& rtcStatusB24Hour ≠ 0)

/-- The digits of `n < 100` in a register. -/
def toDigits (isBinary : Bool) (n : Nat) : UInt8 :=
  if isBinary then .ofNat n else .ofNat (n / 10 * 16 + n % 10)

/-- An hour in its register: with 12 hours, midnight and noon are 12 o'clock, and bit 7
says PM. -/
def toHour (isBinary is24h : Bool) (hour : Nat) : UInt8 :=
  if is24h then toDigits isBinary hour
  else toDigits isBinary (if hour % 12 = 0 then 12 else hour % 12) |||
    if 12 ≤ hour then 0x80 else 0

/-- A time that the chip can hold. -/
structure Moment where
  second : Nat
  minute : Nat
  hour : Nat
  day : Nat
  month : Nat
  year : Nat
  second_lt : second < 60
  minute_lt : minute < 60
  hour_lt : hour < 24
  day_range : 1 ≤ day ∧ day ≤ 31
  month_range : 1 ≤ month ∧ month ≤ 12
  year_range : 2000 ≤ year ∧ year ≤ 2099

/-- The time as `rtc_time_t`. -/
def Moment.time (m : Moment) : RtcTime :=
  ⟨.ofNat m.second, .ofNat m.minute, .ofNat m.hour, .ofNat m.day, .ofNat m.month, .ofNat m.year, 20⟩

/-- The registers hold the time `m`, in the format of the chip. -/
structure Cmos.Shows (c : Cmos) (m : Moment) : Prop where
  second : c.reg rtcSecond = toDigits c.isBinary m.second
  minute : c.reg rtcMinute = toDigits c.isBinary m.minute
  hour : c.reg rtcHour = toHour c.isBinary c.is24h m.hour
  day : c.reg rtcDay = toDigits c.isBinary m.day
  month : c.reg rtcMonth = toDigits c.isBinary m.month
  year : c.reg rtcYear = toDigits c.isBinary (m.year - 2000)

theorem fromDigits_toDigits (isBinary : Bool) {n : Nat} (h : n < 100) :
    fromDigits isBinary (toDigits isBinary n) = .ofNat n := by
  have hall : ∀ b : Bool, ∀ n : Fin 100, fromDigits b (toDigits b n) = .ofNat n := by decide +kernel
  exact hall isBinary ⟨n, h⟩

/-- **Which hours are converted back.** -/
theorem fromHour_toHour_iff (isBinary is24h : Bool) {hour : Nat} (h : hour < 24) :
    fromHour is24h (fromDigits isBinary (toHour isBinary is24h hour)) = .ofNat hour ↔
      is24h = true ∨ (isBinary = true ∧ hour ≠ 0 ∧ hour ≠ 12) ∨
        (isBinary = false ∧ 1 ≤ hour ∧ hour ≤ 11) := by
  have hall : ∀ b d : Bool, ∀ n : Fin 24,
      fromHour d (fromDigits b (toHour b d n)) = .ofNat n ↔
        d = true ∨ (b = true ∧ n.val ≠ 0 ∧ n.val ≠ 12) ∨
          (b = false ∧ 1 ≤ n.val ∧ n.val ≤ 11) := by decide +kernel
  exact hall isBinary is24h ⟨hour, h⟩

/-! ## Reading -/

/-- A register is read as it is when the chip does not update, and status register B
always. -/
theorem rtcReadReg_spec {reg : UInt8} {c : Cmos} (hreg : reg &&& 0x7F = reg)
    (hA : reg ≠ rtcStatusA) (hidle : c.busy = 0 ∨ ¬ reg < rtcStatusA) :
    Returns (rtcReadReg reg) c (c.reg reg) { c with index := reg } := by
  have hstable : ¬ (c.busy ≠ 0 ∧ reg < rtcStatusA) := fun hx =>
    hidle.elim hx.1 fun hge => hge hx.2
  show readData { c with index := reg &&& 0x7F } = _
  rw [hreg, readData, if_neg hA]
  exact if_neg hstable

theorem flag_set (v : UInt8) : (v ||| 0x80) &&& 0x80 = 0x80 := by
  apply UInt8.eq_of_toBitVec_eq
  simp only [UInt8.toBitVec_and, UInt8.toBitVec_or]
  ext i hi
  simp
  grind

theorem flag_clear (v : UInt8) : v &&& 0x7F &&& 0x80 = 0 := by
  rw [UInt8.and_assoc]
  exact UInt8.and_zero

/-- The loop ends with the update. -/
theorem rtcWait_spec (fuel : Nat) (c : Cmos) (hfuel : c.busy < fuel) :
    Returns (rtcWait fuel) c () { c with index := rtcStatusA, busy := 0 } := by
  induction fuel generalizing c with
  | zero => omega
  | succ fuel ih =>
    have hselect : Returns (rtcReadReg rtcStatusA) c
        (if c.busy = 0 then c.reg rtcStatusA &&& 0x7F else c.reg rtcStatusA ||| 0x80)
        { c with index := rtcStatusA, busy := c.busy - 1 } := by
      show readData { c with index := rtcStatusA } = _
      rw [readData, if_pos rfl]
      by_cases hbusy : c.busy = 0
      · rw [if_pos hbusy]
        simp [hbusy]
      · rw [if_neg hbusy, if_neg hbusy]
    rw [Returns, rtcWait, hselect.bind_eq]
    by_cases hbusy : c.busy = 0
    · rw [if_pos hbusy, flag_clear, hbusy]
      rfl
    · rw [if_neg hbusy, flag_set]
      exact ih _ (show c.busy - 1 < fuel by omega)

/-- **What `rtc_read_time` reads**: the converted registers, once the update has ended. -/
theorem rtcReadTime_spec (c : Cmos) (t : RtcTime) :
    Converges (rtcReadTime · (some t)) c
      (some (rtcConvert c.isBinary c.is24h (c.reg rtcSecond) (c.reg rtcMinute) (c.reg rtcHour)
        (c.reg rtcDay) (c.reg rtcMonth) (c.reg rtcYear)))
      { c with index := rtcYear, busy := 0 } := by
  refine ⟨c.busy + 1, fun fuel hfuel => ?_⟩
  -- once the loop has ended, every register is stable
  have hread : ∀ {reg : UInt8} (_ : reg &&& 0x7F = reg) (_ : reg ≠ rtcStatusA) (i : UInt8),
      Returns (rtcReadReg reg) { c with index := i, busy := 0 } (c.reg reg)
        { c with index := reg, busy := 0 } := fun hreg hA _ => rtcReadReg_spec hreg hA (.inl rfl)
  show rtcReadTime fuel (some t) c = _
  rw [rtcReadTime, (rtcReadReg_spec (by decide) (by decide) (.inr (by decide))).bind_eq,
    (rtcWait_spec fuel { c with index := rtcStatusB } hfuel).bind_eq,
    (hread (by decide) (by decide) _).bind_eq,
    (hread (by decide) (by decide) _).bind_eq,
    (hread (by decide) (by decide) _).bind_eq,
    (hread (by decide) (by decide) _).bind_eq,
    (hread (by decide) (by decide) _).bind_eq,
    (hread (by decide) (by decide) _).bind_eq]
  rfl

theorem Cmos.Shows.convert {c : Cmos} {m : Moment} (h : c.Shows m) :
    rtcConvert c.isBinary c.is24h (c.reg rtcSecond) (c.reg rtcMinute) (c.reg rtcHour)
        (c.reg rtcDay) (c.reg rtcMonth) (c.reg rtcYear) =
      { m.time with
        hour := fromHour c.is24h (fromDigits c.isBinary (toHour c.isBinary c.is24h m.hour)) } := by
  have hsecond := m.second_lt
  have hminute := m.minute_lt
  have hday := m.day_range
  have hmonth := m.month_range
  have hyear := m.year_range
  have hcentury : ∀ y : Fin 100,
      2000 + (UInt8.ofNat y.val).toUInt16 = UInt16.ofNat (2000 + y.val) := by decide +kernel
  rw [rtcConvert, h.second, h.minute, h.hour, h.day, h.month, h.year,
    fromDigits_toDigits _ (by omega), fromDigits_toDigits _ (by omega),
    fromDigits_toDigits _ (by omega), fromDigits_toDigits _ (by omega),
    fromDigits_toDigits _ (by omega), hcentury ⟨m.year - 2000, by omega⟩]
  rw [show 2000 + (m.year - 2000) = m.year by omega]
  rfl

/-- **Reading the clock.** Whatever the status registers say and however long the chip
updates its registers, `rtc_read_time` returns; it reads the time that the registers hold
if and only if the format has 24 hours, or 12 hours in binary and the hour is neither
midnight nor noon, or 12 hours in BCD and the hour is between 1 AM and 11 AM. -/
theorem rtc_read_time_iff {c : Cmos} {m : Moment} (h : c.Shows m) (t : RtcTime) :
    ∃ t' c', Converges (rtcReadTime · (some t)) c (some t') c' ∧
      (t' = m.time ↔ c.is24h = true ∨ (c.isBinary = true ∧ m.hour ≠ 0 ∧ m.hour ≠ 12) ∨
        (c.isBinary = false ∧ 1 ≤ m.hour ∧ m.hour ≤ 11)) := by
  refine ⟨_, _, rtcReadTime_spec c t, ?_⟩
  rw [h.convert, ← fromHour_toHour_iff c.isBinary c.is24h m.hour_lt]
  constructor
  · intro heq
    exact congrArg RtcTime.hour heq
  · intro hhour
    rw [hhour]
    rfl

/-- New Year's Eve 2024, a minute before midnight. -/
def yearEnd : Moment :=
  ⟨0, 59, 23, 31, 12, 2024, by decide, by decide, by decide, by decide, by decide, by decide⟩

/-- A chip that holds the moment in the format of `statusB`. -/
def chip (statusB : UInt8) (m : Moment) : Cmos where
  index := 0
  reg r :=
    let isBinary := decide (statusB &&& rtcStatusBBinary ≠ 0)
    let is24h := decide (statusB &&& rtcStatusB24Hour ≠ 0)
    if r = rtcSecond then toDigits isBinary m.second
    else if r = rtcMinute then toDigits isBinary m.minute
    else if r = rtcHour then toHour isBinary is24h m.hour
    else if r = rtcDay then toDigits isBinary m.day
    else if r = rtcMonth then toDigits isBinary m.month
    else if r = rtcYear then toDigits isBinary (m.year - 2000)
    else if r = rtcStatusB then statusB
    else 0
  busy := 2
  unstable _ := 0

theorem chip_shows (statusB : UInt8) (m : Moment) : (chip statusB m).Shows m :=
  ⟨rfl, rfl, rfl, rfl, rfl, rfl⟩

/-- With 24 hours in BCD, the format of most machines. -/
theorem rtc_read_time_iff_year_end :
    ∃ c', Converges (rtcReadTime · (some yearEnd.time)) (chip 0x02 yearEnd)
      (some yearEnd.time) c' := by
  obtain ⟨t', c', hrun, hiff⟩ := rtc_read_time_iff (chip_shows 0x02 yearEnd) yearEnd.time
  rw [hiff.mpr (.inl (by decide))] at hrun
  exact ⟨c', hrun⟩

/-- **A time that is misread**: 11 PM in BCD with 12 hours is read as 91 o'clock. -/
theorem rtc_misreads_pm :
    (chip 0x00 yearEnd).Shows yearEnd ∧
      ∃ t' c', Converges (rtcReadTime · (some yearEnd.time)) (chip 0x00 yearEnd) (some t') c' ∧
        t'.hour = 91 ∧ t' ≠ yearEnd.time := by
  refine ⟨chip_shows _ _, _, _, rtcReadTime_spec _ _, by decide, fun heq => ?_⟩
  exact absurd (congrArg RtcTime.hour heq) (by decide)

end GosKernel.Rtc
