import Mathlib.Tactic.NormNum

/-!
# Kernel-wide constants and machine words

The constants of `include/gOS/kernel.h` and `include/gOS/errno.h` that the modelled
functions use, and the arithmetic of the C integer types. Machine words are
naturals; wherever a C expression can leave its type the model writes the
reduction out (`wrap64`, `toInt32`).
-/

namespace GosKernel

/-! ## Machine words -/

/-- `uint64_t` / `size_t` / `uintptr_t` arithmetic. -/
def wrap64 (n : Nat) : Nat := n % 2 ^ 64

/-- `uint32_t` arithmetic. -/
def wrap32 (n : Nat) : Nat := n % 2 ^ 32

/-- `a - b` on 64-bit words. -/
def sub64 (a b : Nat) : Nat := wrap64 (a + (2 ^ 64 - b % 2 ^ 64))

/-- The conversion `(int)n`. -/
def toInt32 (n : Nat) : Int :=
  if n % 2 ^ 32 < 2 ^ 31 then (n % 2 ^ 32 : Nat) else (n % 2 ^ 32 : Nat) - 2 ^ 32

theorem wrap64_of_lt {n : Nat} (h : n < 2 ^ 64) : wrap64 n = n := Nat.mod_eq_of_lt h

theorem wrap64_lt (n : Nat) : wrap64 n < 2 ^ 64 := Nat.mod_lt _ (by norm_num)

theorem sub64_of_le {a b : Nat} (hab : b ≤ a) (ha : a < 2 ^ 64) : sub64 a b = a - b := by
  unfold sub64 wrap64
  omega

theorem toInt32_of_lt {n : Nat} (h : n < 2 ^ 31) : toInt32 n = n := by
  unfold toInt32
  rw [Nat.mod_eq_of_lt (by omega), if_pos h]

/-! ## Strings -/

/-- The code of an ASCII character. -/
def Base64.chr (c : Char) : UInt8 := UInt8.ofNat c.toNat

/-- A NUL-terminated string: the bytes before the terminator. -/
structure CString where
  bytes : List UInt8
  nul_free : 0 ∉ bytes
deriving DecidableEq

/-- The string of a zeroed buffer. -/
def CString.empty : CString := ⟨[], List.not_mem_nil⟩

/-- The string left by `strncpy(dest, s, n)` and a terminator at `dest[n]`. -/
def CString.take (s : CString) (n : Nat) : CString :=
  ⟨s.bytes.take n, fun h => s.nul_free (List.mem_of_mem_take h)⟩

/-! ## `kernel.h` -/

/-- Kernel virtual memory base (higher half). -/
def kernelVbase : Nat := 0xFFFFFFFF80000000

def pageSize : Nat := 4096

/-- Entries per page table. -/
def ptEntries : Nat := 512

def pagePresent : Nat := 0x1

def pageWritable : Nat := 0x2

def pageUser : Nat := 0x4

def pageNx : Nat := 0x8000000000000000

/-! ## `errno.h` -/

def enoent : Int := 2

def esrch : Int := 3

def enoexec : Int := 8

def eagain : Int := 11

def enomem : Int := 12

def einval : Int := 22

def enfile : Int := 23

def enospc : Int := 28

end GosKernel
