import GosKernel.Lib.Crc
import Mathlib.Data.Fintype.Basic

/-!
# CRC-32 (`src/lib/crc32.c`)

The checksum takes in eight bits at a time with a table of 256 words. The table is the one
of the polynomial (`crc32Table_eq`), and a step of the loop is eight shifts of the register
(`crc32Step_eq`), so that the code computes the checksum of IEEE 802.3, bit by bit.
-/

namespace GosKernel.Crc32

open Crc

/-- `g_crc32_table` (crc32.c:5-70). -/
def crc32Table : List (BitVec 32) := [
  0x00000000, 0x77073096, 0xee0e612c, 0x990951ba,
  0x076dc419, 0x706af48f, 0xe963a535, 0x9e6495a3,
  0x0edb8832, 0x79dcb8a4, 0xe0d5e91e, 0x97d2d988,
  0x09b64c2b, 0x7eb17cbd, 0xe7b82d07, 0x90bf1d91,
  0x1db71064, 0x6ab020f2, 0xf3b97148, 0x84be41de,
  0x1adad47d, 0x6ddde4eb, 0xf4d4b551, 0x83d385c7,
  0x136c9856, 0x646ba8c0, 0xfd62f97a, 0x8a65c9ec,
  0x14015c4f, 0x63066cd9, 0xfa0f3d63, 0x8d080df5,
  0x3b6e20c8, 0x4c69105e, 0xd56041e4, 0xa2677172,
  0x3c03e4d1, 0x4b04d447, 0xd20d85fd, 0xa50ab56b,
  0x35b5a8fa, 0x42b2986c, 0xdbbbc9d6, 0xacbcf940,
  0x32d86ce3, 0x45df5c75, 0xdcd60dcf, 0xabd13d59,
  0x26d930ac, 0x51de003a, 0xc8d75180, 0xbfd06116,
  0x21b4f4b5, 0x56b3c423, 0xcfba9599, 0xb8bda50f,
  0x2802b89e, 0x5f058808, 0xc60cd9b2, 0xb10be924,
  0x2f6f7c87, 0x58684c11, 0xc1611dab, 0xb6662d3d,
  0x76dc4190, 0x01db7106, 0x98d220bc, 0xefd5102a,
  0x71b18589, 0x06b6b51f, 0x9fbfe4a5, 0xe8b8d433,
  0x7807c9a2, 0x0f00f934, 0x9609a88e, 0xe10e9818,
  0x7f6a0dbb, 0x086d3d2d, 0x91646c97, 0xe6635c01,
  0x6b6b51f4, 0x1c6c6162, 0x856530d8, 0xf262004e,
  0x6c0695ed, 0x1b01a57b, 0x8208f4c1, 0xf50fc457,
  0x65b0d9c6, 0x12b7e950, 0x8bbeb8ea, 0xfcb9887c,
  0x62dd1ddf, 0x15da2d49, 0x8cd37cf3, 0xfbd44c65,
  0x4db26158, 0x3ab551ce, 0xa3bc0074, 0xd4bb30e2,
  0x4adfa541, 0x3dd895d7, 0xa4d1c46d, 0xd3d6f4fb,
  0x4369e96a, 0x346ed9fc, 0xad678846, 0xda60b8d0,
  0x44042d73, 0x33031de5, 0xaa0a4c5f, 0xdd0d7cc9,
  0x5005713c, 0x270241aa, 0xbe0b1010, 0xc90c2086,
  0x5768b525, 0x206f85b3, 0xb966d409, 0xce61e49f,
  0x5edef90e, 0x29d9c998, 0xb0d09822, 0xc7d7a8b4,
  0x59b33d17, 0x2eb40d81, 0xb7bd5c3b, 0xc0ba6cad,
  0xedb88320, 0x9abfb3b6, 0x03b6e20c, 0x74b1d29a,
  0xead54739, 0x9dd277af, 0x04db2615, 0x73dc1683,
  0xe3630b12, 0x94643b84, 0x0d6d6a3e, 0x7a6a5aa8,
  0xe40ecf0b, 0x9309ff9d, 0x0a00ae27, 0x7d079eb1,
  0xf00f9344, 0x8708a3d2, 0x1e01f268, 0x6906c2fe,
  0xf762575d, 0x806567cb, 0x196c3671, 0x6e6b06e7,
  0xfed41b76, 0x89d32be0, 0x10da7a5a, 0x67dd4acc,
  0xf9b9df6f, 0x8ebeeff9, 0x17b7be43, 0x60b08ed5,
  0xd6d6a3e8, 0xa1d1937e, 0x38d8c2c4, 0x4fdff252,
  0xd1bb67f1, 0xa6bc5767, 0x3fb506dd, 0x48b2364b,
  0xd80d2bda, 0xaf0a1b4c, 0x36034af6, 0x41047a60,
  0xdf60efc3, 0xa867df55, 0x316e8eef, 0x4669be79,
  0xcb61b38c, 0xbc66831a, 0x256fd2a0, 0x5268e236,
  0xcc0c7795, 0xbb0b4703, 0x220216b9, 0x5505262f,
  0xc5ba3bbe, 0xb2bd0b28, 0x2bb45a92, 0x5cb36a04,
  0xc2d7ffa7, 0xb5d0cf31, 0x2cd99e8b, 0x5bdeae1d,
  0x9b64c2b0, 0xec63f226, 0x756aa39c, 0x026d930a,
  0x9c0906a9, 0xeb0e363f, 0x72076785, 0x05005713,
  0x95bf4a82, 0xe2b87a14, 0x7bb12bae, 0x0cb61b38,
  0x92d28e9b, 0xe5d5be0d, 0x7cdcefb7, 0x0bdbdf21,
  0x86d3d2d4, 0xf1d4e242, 0x68ddb3f8, 0x1fda836e,
  0x81be16cd, 0xf6b9265b, 0x6fb077e1, 0x18b74777,
  0x88085ae6, 0xff0f6a70, 0x66063bca, 0x11010b5c,
  0x8f659eff, 0xf862ae69, 0x616bffd3, 0x166ccf45,
  0xa00ae278, 0xd70dd2ee, 0x4e048354, 0x3903b3c2,
  0xa7672661, 0xd06016f7, 0x4969474d, 0x3e6e77db,
  0xaed16a4a, 0xd9d65adc, 0x40df0b66, 0x37d83bf0,
  0xa9bcae53, 0xdebb9ec5, 0x47b2cf7f, 0x30b5ffe9,
  0xbdbdf21c, 0xcabac28a, 0x53b39330, 0x24b4a3a6,
  0xbad03605, 0xcdd70693, 0x54de5729, 0x23d967bf,
  0xb3667a2e, 0xc4614ab8, 0x5d681b02, 0x2a6f2b94,
  0xb40bbe37, 0xc30c8ea1, 0x5a05df1b, 0x2d02ef8d]

/-- The body of the loop of `crc32_update`. -/
def crc32Step (crc : BitVec 32) (byte : UInt8) : BitVec 32 :=
  crc32Table.getD ((crc ^^^ byte.toBitVec.setWidth 32) &&& 0xFF).toNat 0 ^^^ (crc >>> 8)

/-- `crc32_update` (crc32.c:72-79). -/
def crc32Update (crc : BitVec 32) (data : List UInt8) : BitVec 32 :=
  ~~~ data.foldl crc32Step (~~~ crc)

/-- `crc32` (crc32.c:81-83). -/
def crc32 (data : List UInt8) : BitVec 32 := crc32Update 0 data

/-! ## The checksum, bit by bit -/

/-- The polynomial of IEEE 802.3, reflected. -/
def polynomial : BitVec 32 := 0xEDB88320

/-- The bits of a message, each byte from its least significant one. -/
def messageBits (data : List UInt8) : List Bool :=
  data.flatMap fun byte => lowBits 8 byte.toBitVec

/-- The checksum of a message that follows one with checksum `crc`. -/
def bitwiseCrc (crc : BitVec 32) (data : List UInt8) : BitVec 32 :=
  ~~~ crcBits polynomial (~~~ crc) (messageBits data)

/-! ## The table -/

/-- **The table** holds the eight shifts of every byte. -/
theorem crc32Table_eq :
    ∀ i : Fin 256, crc32Table.getD i 0 = (bitStep polynomial)^[8] (BitVec.ofNat 32 i) := by
  decide +kernel

theorem lowBits_setWidth (byte : UInt8) :
    lowBits 8 (byte.toBitVec.setWidth 32) = lowBits 8 byte.toBitVec := by
  refine List.map_congr_left fun i hi => ?_
  rw [BitVec.getLsbD_setWidth]
  simp [List.mem_range.mp hi, Nat.lt_trans (List.mem_range.mp hi)]

theorem byte_shiftRight (v : BitVec 8) : v.setWidth 32 >>> 8 = 0#32 := by
  refine BitVec.eq_of_toNat_eq ?_
  rw [BitVec.toNat_ushiftRight, BitVec.toNat_setWidth, Nat.shiftRight_eq_div_pow,
    BitVec.toNat_zero]
  omega

/-- **A step of the loop** takes in the eight bits of the byte. -/
theorem crc32Step_eq (crc : BitVec 32) (byte : UInt8) :
    crc32Step crc byte = crcBits polynomial crc (lowBits 8 byte.toBitVec) := by
  obtain ⟨x, hx⟩ : ∃ x, x = crc ^^^ byte.toBitVec.setWidth 32 := ⟨_, rfl⟩
  have hmask : x &&& 0xFF = (x.setWidth 8).setWidth 32 := by
    refine BitVec.eq_of_toNat_eq ?_
    rw [BitVec.toNat_setWidth, BitVec.toNat_setWidth]
    show x.toNat &&& (2 ^ 8 - 1) = _
    rw [Nat.and_two_pow_sub_one_eq_mod]
    omega
  have hindex : (x &&& 0xFF).toNat < 256 := by
    rw [hmask, BitVec.toNat_setWidth]
    omega
  have hentry : crc32Table.getD (x &&& 0xFF).toNat 0 = (bitStep polynomial)^[8] (x &&& 0xFF) := by
    rw [crc32Table_eq ⟨_, hindex⟩, BitVec.ofNat_toNat, BitVec.setWidth_eq]
  have hlow : ∀ i < 8, (x &&& 0xFF).getLsbD i = x.getLsbD i := by
    intro i hi
    rw [hmask]
    simp [hi, Nat.lt_trans hi]
  have hhigh : (x &&& 0xFF) >>> 8 = 0#32 := by
    rw [hmask, byte_shiftRight]
  have hshift : x >>> 8 = crc >>> 8 := by
    rw [hx, BitVec.ushiftRight_xor_distrib, byte_shiftRight, BitVec.xor_zero]
  calc crc32Step crc byte
      = crc32Table.getD (x &&& 0xFF).toNat 0 ^^^ (crc >>> 8) := by rw [hx]; rfl
    _ = (bitStep polynomial)^[8] x := by
        rw [hentry, ← hshift, ← bitSteps_split 8 x _ hlow hhigh]
    _ = crcBits polynomial crc (lowBits 8 byte.toBitVec) := by
        rw [← lowBits_setWidth, crcBits_word, byte_shiftRight, BitVec.xor_zero, hx]

theorem foldl_crc32Step (crc : BitVec 32) (data : List UInt8) :
    data.foldl crc32Step crc = crcBits polynomial crc (messageBits data) := by
  induction data generalizing crc with
  | nil => rfl
  | cons byte data ih =>
    show data.foldl crc32Step (crc32Step crc byte) =
      crcBits polynomial crc (lowBits 8 byte.toBitVec ++ messageBits data)
    rw [ih, crcBits_append, crc32Step_eq]

/-- **CRC-32.** For every checksum and every byte string the code computes the checksum bit
by bit, and a string can be given in two parts. -/
theorem crc32_bitwise :
    (∀ (crc : BitVec 32) (data : List UInt8), crc32Update crc data = bitwiseCrc crc data) ∧
    (∀ data : List UInt8, crc32 data = bitwiseCrc 0 data) ∧
    ∀ (crc : BitVec 32) (a b : List UInt8),
      crc32Update (crc32Update crc a) b = crc32Update crc (a ++ b) := by
  have hupdate : ∀ (crc : BitVec 32) (data : List UInt8),
      crc32Update crc data = bitwiseCrc crc data := by
    intro crc data
    show ~~~ data.foldl crc32Step (~~~ crc) = _
    rw [foldl_crc32Step]
    rfl
  refine ⟨hupdate, fun data => hupdate 0 data, fun crc a b => ?_⟩
  -- the complement at the end of the first call is undone by the second
  show ~~~ b.foldl crc32Step (~~~ ~~~ a.foldl crc32Step (~~~ crc)) =
    ~~~ (a ++ b).foldl crc32Step (~~~ crc)
  rw [BitVec.not_not, List.foldl_append]

/-- The checksum of `"123456789"`. -/
example : crc32 [0x31, 0x32, 0x33, 0x34, 0x35, 0x36, 0x37, 0x38, 0x39] = 0xCBF43926 := by
  decide +kernel

/-! ## Bursts -/

theorem messageBits_cons (byte : UInt8) (data : List UInt8) :
    messageBits (byte :: data) = lowBits 8 byte.toBitVec ++ messageBits data := rfl

theorem messageBits_append (a b : List UInt8) :
    messageBits (a ++ b) = messageBits a ++ messageBits b := List.flatMap_append

theorem messageBits_length (data : List UInt8) : (messageBits data).length = 8 * data.length := by
  induction data with
  | nil => rfl
  | cons byte data ih =>
    rw [messageBits_cons, List.length_append, List.length_cons, lowBits, List.length_map,
      List.length_range]
    omega

theorem messageBits_inj {a b : List UInt8} (hlen : a.length = b.length)
    (h : messageBits a = messageBits b) : a = b := by
  induction a generalizing b with
  | nil => exact (List.length_eq_zero_iff.mp hlen.symm).symm
  | cons x a ih =>
    obtain ⟨y, b, rfl⟩ := List.exists_cons_of_length_eq_add_one hlen.symm
    obtain ⟨hbyte, hrest⟩ := List.append_inj h (by simp [lowBits])
    have hbits : x.toBitVec = y.toBitVec := by
      refine BitVec.eq_of_getLsbD_eq fun i hi => ?_
      exact List.map_inj_left.mp hbyte i (List.mem_range.mpr hi)
    rw [UInt8.toBitVec_inj.mp hbits, ih (Nat.succ.inj hlen) hrest]

/-- Two strings that agree outside four bytes and have the same checksum are equal. -/
theorem crc32_window {x y : List UInt8} (pre post : List UInt8) (hlen : x.length = y.length)
    (hfour : x.length ≤ 4)
    (h : crc32 (pre ++ (x ++ post)) = crc32 (pre ++ (y ++ post))) : x = y := by
  have hpoly : polynomial.msb = true := by decide
  have hbits : (messageBits x).length = (messageBits y).length := by
    rw [messageBits_length, messageBits_length, hlen]
  have hrun := BitVec.not_inj.mp h
  rw [foldl_crc32Step, foldl_crc32Step, messageBits_append, messageBits_append,
    messageBits_append, messageBits_append, crcBits_append, crcBits_append, crcBits_append,
    crcBits_append] at hrun
  have hburst := crcBits_injective hpoly (messageBits post) hrun
  refine messageBits_inj hlen (crcBits_inj hpoly hbits ?_ hburst)
  rw [messageBits_length]
  omega

/-- **Burst errors** of up to four bytes are detected, wherever they are. -/
theorem crc32_burst (a b : List UInt8) (hlen : a.length = b.length) (k : Nat)
    (hwindow : ∀ i, i < k ∨ k + 4 ≤ i → a[i]? = b[i]?) (hne : a ≠ b) : crc32 a ≠ crc32 b := by
  have hcut : ∀ l : List UInt8, l = l.take k ++ ((l.drop k).take 4 ++ l.drop (k + 4)) := by
    intro l
    rw [← List.drop_drop, List.take_append_drop, List.take_append_drop]
  have hpre : a.take k = b.take k := by
    refine List.ext_getElem? fun i => ?_
    rw [List.getElem?_take, List.getElem?_take]
    by_cases hi : i < k
    · rw [if_pos hi, if_pos hi, hwindow i (Or.inl hi)]
    · rw [if_neg hi, if_neg hi]
  have hpost : a.drop (k + 4) = b.drop (k + 4) := by
    refine List.ext_getElem? fun i => ?_
    rw [List.getElem?_drop, List.getElem?_drop]
    exact hwindow _ (Or.inr (Nat.le_add_right _ i))
  intro hcrc
  rw [hcut a, hcut b, hpre, hpost] at hcrc
  have hmid := crc32_window _ _ (by simp [hlen]) (by simp) hcrc
  exact hne (by rw [hcut a, hcut b, hpre, hpost, hmid])

theorem crc32_burst_inner : crc32 [1, 2, 3, 4, 5, 6] ≠ crc32 [1, 7, 3, 4, 8, 6] := by
  refine crc32_burst _ _ rfl 1 ?_ (by decide)
  rintro i (hi | hi)
  · rw [Nat.lt_one_iff.mp hi]
    rfl
  · obtain ⟨j, rfl⟩ := Nat.exists_eq_add_of_le' hi
    cases j <;> rfl

end GosKernel.Crc32
