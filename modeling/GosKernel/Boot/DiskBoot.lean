import GosKernel.Lib.Exec
import Mathlib.Tactic.IntervalCases

/-!
# The read loop of the boot sector (`src/boot/disk_boot.asm`)

`INT 13h` is taken to succeed and to keep every register but `AX`, which is popped behind it. The
counter in `CX` is overwritten by the cylinder and the sector of each request. Hence the loop
reads 18 sectors, up to the first one that is sector 1 of cylinder 0, whatever the number asked for
(`readLoop_converges`).
-/

namespace GosKernel.Boot

open Exec

/-- A sector that was read, and where it was put. -/
structure Transfer where
  drive : BitVec 8
  lba : Nat
  address : Nat
deriving DecidableEq

/-- What lives across the rounds: `CX`, the three variables and the sectors that were read. -/
structure Loader where
  cx : BitVec 16
  lba : BitVec 16
  dstSeg : BitVec 16
  dstOff : BitVec 16
  reads : List Transfer

/-- `INT 13h` with `AH = 02h` on a disk of 18 sectors and 2 heads. -/
def int13 (al : BitVec 8) (cx : BitVec 16) (dh dl : BitVec 8) (es bx : BitVec 16) : List Transfer :=
  let ch := (cx >>> 8).toNat
  let cl := (cx.setWidth 8).toNat
  let cylinder := ch + 256 * (cl / 64)
  (List.range al.toNat).map fun i =>
    ⟨dl, (cylinder * 2 + dh.toNat) * 18 + cl % 64 - 1 + i, es.toNat * 16 + bx.toNat + i * 512⟩

/-- The body of `.read_loop` (disk_boot.asm:41-80). -/
def readRound (bootDrive : BitVec 8) (s : Loader) : Loader :=
  let ax := s.lba / 18
  let dx := s.lba % 18 + 1
  let cl : BitVec 8 := dx.setWidth 8
  let dx := ax % 2
  let ax := ax / 2
  let ch : BitVec 8 := ax.setWidth 8
  let ah : BitVec 8 := (ax >>> 8).setWidth 8 <<< 6
  -- the counter is lost
  let cx : BitVec 16 := ch ++ (cl ||| ah)
  let ax := if cx.sle 1 then cx else 1
  let found := int13 (ax.setWidth 8) cx (dx.setWidth 8) bootDrive s.dstSeg s.dstOff
  let bytes := ax <<< 9
  let carry := 2 ^ 16 ≤ s.dstOff.toNat + bytes.toNat
  { cx := cx - ax, lba := s.lba + ax, dstOff := s.dstOff + bytes,
    dstSeg := if carry then s.dstSeg + 0x1000 else s.dstSeg, reads := s.reads ++ found }

/-- `.read_loop` (disk_boot.asm:37-80). -/
def readLoop (bootDrive : BitVec 8) : (fuel : Nat) → Exec Loader Unit
  | 0 => stop
  | fuel + 1 => do
    if (← read Loader.cx) = 0 then pure ()
    else
      update (readRound bootDrive)
      readLoop bootDrive fuel

/-- The registers and variables before the loop (disk_boot.asm:32-35). -/
def readStart (numSectors : BitVec 16) : Loader := ⟨numSectors, 1, 0x1000, 0, []⟩

/-- The sectors `1` to `n`, in order, one behind the other from `0x10000` on. -/
def kernelSectors (drive : BitVec 8) (n : Nat) : List Transfer :=
  (List.range n).map fun k => ⟨drive, k + 1, 0x10000 + k * 512⟩

/-- Before round `k`. -/
def readAt (drive : BitVec 8) (cx : BitVec 16) (k : Nat) : Loader :=
  ⟨cx, .ofNat 16 (k + 1), 0x1000, .ofNat 16 (k * 512), kernelSectors drive k⟩

/-- What a round leaves in `CX` does not depend on what was there. -/
theorem readRound_at (drive : BitVec 8) (cx : BitVec 16) {k : Nat} (hk : k < 18) :
    readRound drive (readAt drive cx k) =
      readAt drive (if k = 17 then 0 else .ofNat 16 (k + 1)) (k + 1) := by
  interval_cases k <;> simp [readRound, readAt, int13, kernelSectors, List.range_succ]

theorem readLoop_at (drive : BitVec 8) {cx : BitVec 16} {n : Nat} (hn : n ≤ 18)
    (hcx : cx = 0 ↔ n = 0) (fuel : Nat) :
    Returns (readLoop drive (fuel + n + 1)) (readAt drive cx (18 - n)) () (readAt drive 0 18) := by
  induction n generalizing cx with
  | zero =>
    obtain rfl := hcx.mpr rfl
    rfl
  | succ n ih =>
    have hstep := readRound_at drive cx (k := 18 - (n + 1)) (by omega)
    rw [show 18 - (n + 1) + 1 = 18 - n by omega] at hstep
    have hnext : (if 18 - (n + 1) = 17 then (0 : BitVec 16) else .ofNat 16 (18 - n)) = 0 ↔
        n = 0 := by
      have hlt : n < 18 := hn
      interval_cases n <;> decide
    have h := ih (by omega) hnext
    rw [← hstep] at h
    show (if cx = 0 then _ else _ : Exec Loader Unit) _ = _
    rw [if_neg (hcx.not.mpr n.succ_ne_zero)]
    exact h

/-- **The loop reads 18 sectors**, whatever it is asked for. -/
theorem readLoop_converges (drive : BitVec 8) {numSectors : BitVec 16} (hn : numSectors ≠ 0) :
    Converges (readLoop drive) (readStart numSectors) () (readAt drive 0 18) :=
  ⟨19, fun fuel hfuel => by
    obtain ⟨m, rfl⟩ := Nat.exists_eq_add_of_le' hfuel
    exact readLoop_at drive le_rfl (iff_of_false hn (by decide)) m⟩

/-- **The boot sector reads the kernel if and only if it has 18 sectors.** -/
theorem readLoop_kernel_iff (drive : BitVec 8) (n : Nat) (hpos : 1 ≤ n) (hn : n ≤ 1000) :
    (∃ s, Converges (readLoop drive) (readStart (.ofNat 16 n)) () s ∧
      s.reads = kernelSectors drive n) ↔ n = 18 := by
  have hne : BitVec.ofNat 16 n ≠ 0 := fun h => by
    have h := congrArg BitVec.toNat h
    rw [BitVec.toNat_ofNat, Nat.mod_eq_of_lt (by omega)] at h
    exact absurd h (Nat.one_le_iff_ne_zero.mp hpos)
  have hrun := readLoop_converges drive hne
  constructor
  · rintro ⟨s, hs, hreads⟩
    obtain ⟨-, rfl⟩ := hs.unique hrun
    simpa [readAt, kernelSectors, eq_comm] using congrArg List.length hreads
  · rintro rfl
    exact ⟨_, hrun, rfl⟩

theorem readLoop_kernel_18 :
    ∃ s, Converges (readLoop 0) (readStart 18) () s ∧ s.reads = kernelSectors 0 18 :=
  (readLoop_kernel_iff 0 18 (by decide) (by decide)).mpr rfl

/-- A kernel of 19 sectors loses its last one. -/
theorem readLoop_kernel_19 :
    ∃ s, Converges (readLoop 0) (readStart 19) () s ∧ s.reads ≠ kernelSectors 0 19 :=
  ⟨_, readLoop_converges 0 (by decide), by decide⟩

end GosKernel.Boot
