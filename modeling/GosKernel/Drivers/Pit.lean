import GosKernel.Defs
import GosKernel.Lib.Exec

/-!
# Sleeping on the timer (`drivers/pit/pit.c`, `drivers/timer/timer.c`, `time/time.c`)

`pit_sleep_ms` reads `g_pit_ticks` until it has reached a deadline. Interrupts come at any time:
`ticks n` is how many ticks there were between the call and read number `n`.

- `sleep_long_enough_iff`: the calls sleep long enough if and only if the product of 32 bits does
  not wrap around.
-/

namespace GosKernel.Pit

open Exec

def pitHz : Nat := 100

/-! ## The functions -/

section

variable (start : Nat) (ticks : Nat → Nat)

/-- Read `g_pit_ticks`, which was `start` at the call. The state counts the reads. -/
def readTicks : Exec Nat Nat := fun n => some (wrap64 (start + ticks n), n + 1)

/-- The loop of `pit_sleep_ms` (pit.c:47-49). -/
def pitSleepLoop (target : Nat) : (fuel : Nat) → Exec Nat Unit
  | 0 => stop
  | fuel + 1 => do
    if (← readTicks start ticks) < target then pitSleepLoop target fuel
    else pure ()

/-- `pit_sleep_ms` (pit.c:45-50). -/
def pitSleepMs (fuel ms : Nat) : Exec Nat Unit := do
  let now ← readTicks start ticks
  pitSleepLoop start ticks (wrap64 (now + wrap32 (ms * pitHz) / 1000 + 1)) fuel

/-- `time_sleep_ms` (time.c:22-24). -/
def timeSleepMs (fuel ms : Nat) : Exec Nat Unit := pitSleepMs start ticks fuel (wrap32 ms)

inductive TimerSource
  | pit
  | hpet
  | lapic

/-- `timer_sleep_ms` (timer.c:57-63). -/
def timerSleepMs (hpetSleepUs : Nat → Exec Nat Unit) (source : TimerSource) (fuel ms : Nat) :
    Exec Nat Unit :=
  match source with
  | .hpet => hpetSleepUs (wrap64 (ms * 1000))
  | .pit | .lapic => pitSleepMs start ticks fuel (wrap32 ms)

end

/-! ## The deadline -/

/-- Ticks that go on. Two reads are at most `2 ^ 32` ticks apart. -/
structure Ticking (ticks : Nat → Nat) : Prop where
  first : ticks 0 ≤ 2 ^ 32
  mono : ∀ n, ticks n ≤ ticks (n + 1)
  step : ∀ n, ticks (n + 1) ≤ ticks n + 2 ^ 32
  endless : ∀ t, ∃ n, t ≤ ticks n

/-- The call returns, after read number `n`, when so many ticks have been that they make `ms`. -/
def SleepsEnough (sleep : (Nat → Nat) → Nat → Exec Nat Unit) (ms : Nat) : Prop :=
  ∀ ticks, Ticking ticks →
    ∃ n, Converges (sleep ticks) 0 () (n + 1) ∧ ms ≤ ticks n * (1000 / pitHz)

variable {start target : Nat} {ticks : Nat → Nat}

theorem pitSleepLoop_succ (fuel n : Nat) : pitSleepLoop start ticks target (fuel + 1) n =
    if wrap64 (start + ticks n) < target then pitSleepLoop start ticks target fuel (n + 1)
    else some ((), n + 1) :=
  Exec.ite_apply _ _ _ _

/-- The loop ends with the first read that has reached the deadline. -/
theorem pitSleepLoop_spec {d n fuel : Nat}
    (hbefore : ∀ i < d, wrap64 (start + ticks (n + i)) < target)
    (hend : target ≤ wrap64 (start + ticks (n + d))) (hfuel : d < fuel) :
    Returns (pitSleepLoop start ticks target fuel) n () (n + d + 1) := by
  induction d generalizing n fuel with
  | zero =>
    obtain ⟨fuel, rfl⟩ := fuel_succ hfuel
    exact (pitSleepLoop_succ fuel n).trans (if_neg (Nat.not_lt.mpr hend))
  | succ d ih =>
    obtain ⟨fuel, rfl⟩ := fuel_succ hfuel
    have hshift : ∀ i, n + (i + 1) = n + 1 + i := fun i => by omega
    rw [hshift d] at hend ⊢
    refine (pitSleepLoop_succ fuel n).trans ((if_pos (hbefore 0 (Nat.zero_lt_succ d))).trans ?_)
    exact ih (fun i hi => hshift i ▸ hbefore (i + 1) (by omega)) hend (by omega)

/-- The ticks that `pit_sleep_ms` waits for, after its first read. -/
def waits (ms : Nat) : Nat := wrap32 (ms * pitHz) / 1000 + 1

/-- **How long `pit_sleep_ms` sleeps**: until the first read that is at least `waits ms` ticks
after its own. -/
theorem pitSleepMs_spec (hfar : start + 2 ^ 34 ≤ 2 ^ 64) (h : Ticking ticks) (ms : Nat) :
    ∃ n, Converges (pitSleepMs start ticks · ms) 0 () (n + 2) ∧
      ticks 0 + waits ms ≤ ticks (n + 1) ∧ ticks n < ticks 0 + waits ms := by
  have hwaits : waits ms ≤ 2 ^ 23 := by
    unfold waits wrap32
    omega
  have hfirst := h.first
  have hex := h.endless (ticks 0 + waits ms)
  obtain ⟨n, hn⟩ : ∃ n, Nat.find hex = n + 1 := by
    refine Nat.exists_eq_add_one_of_ne_zero fun hzero => ?_
    have := Nat.find_spec hex
    rw [hzero] at this
    unfold waits at this
    omega
  have hreach := Nat.find_spec hex
  have hbefore : ∀ i ≤ n, ticks i < ticks 0 + waits ms := fun i hi =>
    not_le.mp (Nat.find_min hex (by omega))
  rw [hn] at hreach
  have hlast := hbefore n le_rfl
  have hstep := h.step n
  refine ⟨n, ⟨n + 1, fun fuel hfuel => ?_⟩, hreach, hlast⟩
  have htarget : wrap64 (wrap64 (start + ticks 0) + wrap32 (ms * pitHz) / 1000 + 1) =
      start + (ticks 0 + waits ms) := by
    unfold waits wrap64 at *
    omega
  show pitSleepLoop start ticks (wrap64 (wrap64 (start + ticks 0) + _ + 1)) fuel 1 = _
  rw [htarget, show n + 2 = 1 + n + 1 by omega]
  refine pitSleepLoop_spec (fun i hi => ?_) ?_ hfuel
  · have := hbefore (1 + i) (by omega)
    rw [wrap64_of_lt (by omega)]
    omega
  · rw [show 1 + n = n + 1 by omega, wrap64_of_lt (by omega)]
    omega

/-- One tick before each read but the first. -/
theorem ticking_id : Ticking id where
  first := Nat.zero_le _
  mono := Nat.le_succ
  step n := by simp
  endless t := ⟨t, le_rfl⟩

/-- **Sleeps are long enough** if and only if `ms * PIT_HZ` fits 32 bits. -/
theorem sleep_long_enough_iff (hfar : start + 2 ^ 34 ≤ 2 ^ 64)
    (hpetSleepUs : (Nat → Nat) → Nat → Exec Nat Unit) (ms : Nat) :
    (SleepsEnough (timeSleepMs start · · ms) ms ↔ ms ≤ 42949672) ∧
      (SleepsEnough (fun ticks fuel =>
        timerSleepMs start ticks (hpetSleepUs ticks) .pit fuel ms) ms ↔ ms ≤ 42949672) := by
  have hiff : SleepsEnough (pitSleepMs start · · (wrap32 ms)) ms ↔ ms ≤ 42949672 := by
    constructor
    · intro h
      obtain ⟨n, hrun, hle⟩ := h id ticking_id
      obtain ⟨k, hrun', hreach, hlast⟩ := pitSleepMs_spec hfar ticking_id (wrap32 ms)
      obtain rfl : n = k + 1 := Nat.succ_inj.mp (hrun.unique hrun').2
      unfold waits wrap32 pitHz at *
      simp only [id_eq] at *
      omega
    · intro hms ticks h
      obtain ⟨n, hrun, hreach, -⟩ := pitSleepMs_spec hfar h (wrap32 ms)
      refine ⟨n + 1, hrun, ?_⟩
      unfold waits wrap32 pitHz at *
      omega
  exact ⟨hiff, hiff⟩

theorem sleep_long_enough_second :
    SleepsEnough (timeSleepMs 0 · · 1000) 1000 :=
  (sleep_long_enough_iff (by norm_num) (fun _ _ => stop) 1000).1.mpr (by norm_num)

/-- **A sleep of twelve hours that takes one tick.** -/
theorem sleep_ends_early :
    ∃ n, Converges (timeSleepMs 0 id · 42949673) 0 () (n + 1) ∧ n * (1000 / pitHz) < 42949673 :=
  ⟨1, ⟨1, fun fuel hfuel => by obtain ⟨k, rfl⟩ := fuel_succ hfuel; rfl⟩, by decide⟩

end GosKernel.Pit
