import GosKernel.Defs
import GosKernel.Lib.ByteMem
import GosKernel.Lib.OnesComplement

/-!
# Checksums (`src/net/checksum.c`, `ip_checksum` of `src/net/ip.c`)

The functions add the 16-bit words of the data, little-endian as they are in memory, in a
32-bit sum, and carry at the end. `total` is what the sum is without its 32 bits.

- **`checksum_rfc1071`**: the checksum is that of RFC 1071, which carries after every word;
- **`ip_checksum_detects`**: a stored checksum verifies, and a changed word is found;
- **`transport_checksum_iff`**: the pseudo-header of TCP and UDP is added in the wrong byte
  order, so the checksum is right only for some lengths.
-/

namespace GosKernel.Net

open OnesComplement

/-! ## The code -/

/-- The carrying loop (checksum.c:9-11, ip.c:31-33). -/
def foldLoop (sum : Nat) : Nat :=
  if sum >>> 16 = 0 then sum else foldLoop ((sum &&& 0xFFFF) + (sum >>> 16))
termination_by sum
decreasing_by
  rw [show 0xFFFF = 2 ^ 16 - 1 from rfl, Nat.and_two_pow_sub_one_eq_mod]
  rw [Nat.shiftRight_eq_div_pow] at *
  omega

/-- `(uint16_t)(~sum)` of a 32-bit `sum`. -/
def complement16 (sum : Nat) : Nat := (2 ^ 32 - 1 - sum) % 2 ^ 16

/-- `net_checksum_fold` (checksum.c:8-13). -/
def netChecksumFold (sum : Nat) : Nat := complement16 (foldLoop sum)

/-- The adding loop and the odd byte behind it (checksum.c:18-24, ip.c:24-30). -/
def sumWords (m : ByteMem) : (len words sum : Nat) → Nat
  | 0, _, sum => sum
  | 1, words, sum => wrap32 (sum + (m words).toNat)
  | len + 2, words, sum => sumWords m len (words + 2) (wrap32 (sum + m.load words 2))

/-- `net_checksum_add` (checksum.c:15-26). -/
def netChecksumAdd (m : ByteMem) (data len init : Nat) : Nat :=
  netChecksumFold (sumWords m len data init)

/-- `ip_checksum` (ip.c:21-35), with loops of its own. -/
def ipChecksum (m : ByteMem) (data len : Nat) : Nat :=
  complement16 (foldLoop (sumWords m len data 0))

/-- The sum of the pseudo-header, and the checksum from there on (checksum.c:28-40, 42-54). -/
def transportChecksum (protocol : Nat) (m : ByteMem) (hdr len srcIp dstIp : Nat) : Nat :=
  let sum := 0
  let sum := wrap32 (sum + ((srcIp >>> 16) &&& 0xFFFF))
  let sum := wrap32 (sum + (srcIp &&& 0xFFFF))
  let sum := wrap32 (sum + ((dstIp >>> 16) &&& 0xFFFF))
  let sum := wrap32 (sum + (dstIp &&& 0xFFFF))
  let sum := wrap32 (sum + protocol)
  let sum := wrap32 (sum + (len &&& 0xFFFF))
  let sum := wrap32 (sum + ((len >>> 16) &&& 0xFFFF))
  netChecksumAdd m hdr len sum

/-- `net_tcp_checksum` (checksum.c:28-40). -/
def netTcpChecksum (m : ByteMem) (tcpHdr tcpLen srcIp dstIp : Nat) : Nat :=
  transportChecksum 6 m tcpHdr tcpLen srcIp dstIp

/-- `net_udp_checksum` (checksum.c:42-54). -/
def netUdpChecksum (m : ByteMem) (udpHdr udpLen srcIp dstIp : Nat) : Nat :=
  transportChecksum 17 m udpHdr udpLen srcIp dstIp

/-! ## Sums without overflow -/

/-- The words of the data, a last odd byte padded with zero. -/
def leWords : List UInt8 → List Nat
  | [] => []
  | [b] => [b.toNat]
  | b0 :: b1 :: bytes => (b0.toNat + 256 * b1.toNat) :: leWords bytes

/-- The sum of the words in memory. -/
def total (m : ByteMem) : (len data : Nat) → Nat
  | 0, _ => 0
  | 1, data => (m data).toNat
  | len + 2, data => m.load data 2 + total m len (data + 2)

section

variable {m : ByteMem} {len data : Nat}

theorem total_holds {bytes : List UInt8} (h : m.Holds data bytes) :
    total m bytes.length data = (leWords bytes).sum := by
  induction bytes using leWords.induct generalizing data with
  | case1 => rfl
  | case2 b =>
    exact congrArg UInt8.toNat h.1
  | case3 b0 b1 bytes ih =>
    have hload : m.load data 2 = b0.toNat + 256 * b1.toNat := by
      rw [← h.1, ← h.2.1]
      rfl
    rw [leWords, ← hload]
    exact congrArg (m.load data 2 + ·) (ih h.2.2)

theorem leWords_lt (bytes : List UInt8) : ∀ b ∈ leWords bytes, b < 2 ^ 16 := by
  induction bytes using leWords.induct with
  | case1 => exact fun b hb => absurd hb List.not_mem_nil
  | case2 c =>
    intro b hb
    rw [List.mem_singleton.mp hb]
    exact c.toNat_lt.trans (by decide)
  | case3 b0 b1 bytes ih =>
    intro b hb
    rcases List.mem_cons.mp hb with rfl | hb
    · have h0 := b0.toNat_lt
      have h1 := b1.toNat_lt
      omega
    · exact ih b hb

theorem total_le (m : ByteMem) (len data : Nat) : total m len data ≤ 65535 * ((len + 1) / 2) := by
  induction len, data using total.induct with
  | case1 => exact Nat.zero_le _
  | case2 data =>
    have hbyte := (m data).toNat_lt
    show (m data).toNat ≤ 65535 * ((1 + 1) / 2)
    omega
  | case3 len data ih =>
    have hword := m.load_lt data 2
    rw [total]
    omega

/-- **The adding loop** computes the total, modulo `2^32`. -/
theorem sumWords_eq (m : ByteMem) {len data sum : Nat} (hsum : sum < 2 ^ 32) :
    sumWords m len data sum = wrap32 (sum + total m len data) := by
  induction len, data, sum using sumWords.induct m with
  | case1 data sum => exact (Nat.mod_eq_of_lt hsum).symm
  | case2 data sum => rfl
  | case3 len data sum ih =>
    rw [sumWords, ih (Nat.mod_lt _ (by decide)), total]
    unfold wrap32
    omega

/-! ## Carrying -/

theorem foldLoop_reps (sum : Nat) : Reps 16 sum (foldLoop sum) := by
  induction sum using foldLoop.induct with
  | case1 sum h =>
    rw [foldLoop, if_pos h]
    exact .of_lt (by omega)
  | case2 sum h ih =>
    rw [foldLoop, if_neg h]
    rw [show 0xFFFF = 2 ^ 16 - 1 from rfl, Nat.and_two_pow_sub_one_eq_mod,
      Nat.shiftRight_eq_div_pow] at ih ⊢
    exact ih.carry

theorem netChecksumFold_eq (sum : Nat) : netChecksumFold sum = 65535 - foldLoop sum := by
  have hlt := (foldLoop_reps sum).lt
  unfold netChecksumFold complement16
  omega

/-- **A checksum** is the complement of the word that represents the sum. -/
theorem netChecksumAdd_eq {init : Nat} (hsum : init + total m len data < 2 ^ 32) :
    ∃ a, Reps 16 (init + total m len data) a ∧ netChecksumAdd m data len init = 65535 - a := by
  refine ⟨foldLoop (init + total m len data), foldLoop_reps _, ?_⟩
  rw [netChecksumAdd, sumWords_eq m (by omega), wrap32, Nat.mod_eq_of_lt hsum, netChecksumFold_eq]

theorem total_lt (m : ByteMem) {len : Nat} (hlen : len ≤ 65535) (data : Nat) :
    total m len data < 2 ^ 31 := by
  have hle := total_le m len data
  omega

theorem ipChecksum_reps (m : ByteMem) (hlen : len ≤ 65535) (data : Nat) :
    ∃ a, Reps 16 (total m len data) a ∧ ipChecksum m data len = 65535 - a := by
  have hlt := total_lt m hlen data
  obtain ⟨a, hreps, hadd⟩ := netChecksumAdd_eq (m := m)
    (show 0 + total m len data < 2 ^ 32 by omega)
  rw [Nat.zero_add] at hreps
  exact ⟨a, hreps, hadd⟩

/-- A sum verifies if it is a multiple of `0xFFFF` that is not zero. -/
theorem ipChecksum_zero_iff (hlen : len ≤ 65535) :
    ipChecksum m data len = 0 ↔ total m len data ≠ 0 ∧ 65535 ∣ total m len data := by
  obtain ⟨a, hreps, hadd⟩ := ipChecksum_reps m hlen data
  refine Iff.trans ?_ (hreps.eq_ones_iff (by decide))
  have ha := hreps.lt
  omega

end

/-- **The Internet checksum.** For every byte string of at most 65535 bytes, wherever it is in
memory: `net_checksum_add` from 0 and `ip_checksum` are the complement of the one's-complement sum of
its little-endian words, a last odd byte padded with zero. -/
theorem checksum_rfc1071 {m : ByteMem} {data : Nat} {bytes : List UInt8}
    (hdata : m.Holds data bytes) (hlen : bytes.length ≤ 65535) :
    netChecksumAdd m data bytes.length 0 = ipChecksum m data bytes.length ∧
    ipChecksum m data bytes.length = 65535 - OnesComplement.sum 16 (leWords bytes) := by
  refine ⟨rfl, ?_⟩
  obtain ⟨a, hreps, hadd⟩ := ipChecksum_reps m hlen data
  rw [total_holds hdata] at hreps
  rw [hadd, (hreps.eq_iff (sum_reps (leWords_lt bytes))).mpr ⟨rfl, Iff.rfl⟩]

/-- Three bytes. -/
theorem checksum_rfc1071_three :
    netChecksumAdd (ByteMem.ofList [1, 2, 3]) 0 3 0 = ipChecksum (ByteMem.ofList [1, 2, 3]) 0 3 ∧
    ipChecksum (ByteMem.ofList [1, 2, 3]) 0 3 = 65019 :=
  checksum_rfc1071 (show (ByteMem.ofList [1, 2, 3]).Holds 0 [1, 2, 3] by decide) (by decide)

/-! ## Verifying -/

section Verify

variable {m m' : ByteMem} {len data : Nat}

theorem total_congr (h : m.Agree m' data len) : total m len data = total m' len data := by
  induction len, data using total.induct with
  | case1 => rfl
  | case2 data => exact congrArg UInt8.toNat (h data le_rfl (by omega))
  | case3 len data ih =>
    rw [total, total, ByteMem.load_congr (h.mono le_rfl (by omega)),
      ih (h.mono (by omega) (by omega))]

theorem total_store (m : ByteMem) (data : Nat) {k : Nat} (hk : 2 * k + 2 ≤ len) {v : Nat}
    (hv : v < 2 ^ 16) :
    total (m.store (data + 2 * k) 2 v) len data + m.load (data + 2 * k) 2 = total m len data + v := by
  obtain ⟨len, rfl⟩ : ∃ j, len = j + 2 := ⟨len - 2, by omega⟩
  rw [total, total]
  induction k generalizing len data with
  | zero =>
    have hrest : total (m.store data 2 v) len (data + 2) = total m len (data + 2) :=
      total_congr (ByteMem.agree_store (.inl le_rfl))
    rw [Nat.add_zero, ByteMem.load_store_self]
    omega
  | succ k ih =>
    obtain ⟨len, rfl⟩ : ∃ j, len = j + 2 := ⟨len - 2, by omega⟩
    have htail := ih (data + 2) len (by omega)
    rw [show data + 2 + 2 * k = data + 2 * (k + 1) by omega] at htail
    rw [ByteMem.load_store_of_disjoint (.inr (by omega)), total, total]
    omega

end Verify

/-- **Verification.** For every header with a zero word at an even offset: with its checksum in this
word, the checksum is 0; and with any other word in the place of one of its words, unless the two
differ by a multiple of 65535, it is not. -/
theorem ip_checksum_detects {m m' : ByteMem} {data len off : Nat} (hlen : len ≤ 65535)
    (heven : off % 2 = 0) (hin : off + 2 ≤ len) (hzero : m.load (data + off) 2 = 0)
    (hm' : m' = m.store (data + off) 2 (ipChecksum m data len)) :
    ipChecksum m' data len = 0 ∧
    ∀ pos word : Nat, pos % 2 = 0 → pos + 2 ≤ len → word < 2 ^ 16 →
      ¬ (65535 : Int) ∣ word - m'.load (data + pos) 2 →
      ipChecksum (m'.store (data + pos) 2 word) data len ≠ 0 := by
  obtain ⟨a, hreps, hsum⟩ := ipChecksum_reps m hlen data
  obtain ⟨k, rfl⟩ : ∃ k, off = 2 * k := ⟨off / 2, by omega⟩
  have ha := hreps.lt
  have htotal : total m' len data = total m len data + (65535 - a) := by
    have hstore := total_store m data hin (v := 65535 - a) (by omega)
    rw [hm', hsum]
    omega
  have hverifies : total m' len data ≠ 0 ∧ 65535 ∣ total m' len data := by
    have hmod : a % 65535 = total m len data % 65535 := hreps.mod
    have hz := hreps.zero
    omega
  refine ⟨(ipChecksum_zero_iff hlen).mpr hverifies, ?_⟩
  intro pos word hpos hpos' hword hdiff hzero'
  obtain ⟨j, rfl⟩ : ∃ j, pos = 2 * j := ⟨pos / 2, by omega⟩
  -- the totals differ by the difference of the words
  have hstore := total_store m' data hpos' hword
  have hdvd := ((ipChecksum_zero_iff hlen).mp hzero').2
  omega

/-- A header of two words, and a bit of the first one. -/
theorem ip_checksum_detects_bit :
    ∃ m : ByteMem, ipChecksum m 0 4 = 0 ∧ ipChecksum (m.store 0 2 0x44) 0 4 ≠ 0 := by
  obtain ⟨m, hm⟩ : ∃ m : ByteMem, m = (ByteMem.ofList [0x45]).store (0 + 2) 2
    (ipChecksum (ByteMem.ofList [0x45]) 0 4) := ⟨_, rfl⟩
  obtain ⟨hzero, hdetect⟩ := ip_checksum_detects (by decide) (by decide) (by decide)
    (by decide) hm
  have hword : m.load (0 + 0) 2 = 0x45 := by
    rw [hm]
    decide
  refine ⟨m, hzero, hdetect 0 0x44 (by decide) (by decide) (by decide) ?_⟩
  rw [hword]
  decide

/-! ## The pseudo-header -/

/-- The addresses that `ip_init` sets. -/
structure IpState where
  addr : Nat
  gateway : Nat

/-- `ip_init` (ip.c:14-19). -/
def ipInit : IpState where
  addr := 10 ||| (0 <<< 8) ||| (2 <<< 16) ||| (15 <<< 24)
  gateway := 10 ||| (0 <<< 8) ||| (2 <<< 16) ||| (2 <<< 24)

/-- The bytes of an address on the wire: the first octet is in the low byte. -/
def wireBytes (ip : Nat) : List UInt8 :=
  [.ofNat ip, .ofNat (ip / 2 ^ 8), .ofNat (ip / 2 ^ 16), .ofNat (ip / 2 ^ 24)]

example : wireBytes ipInit.addr = [10, 0, 2, 15] := by decide

/-- Source, destination, zero, protocol, and the length in network byte order. -/
def pseudoHeader (protocol len srcIp dstIp : Nat) : List UInt8 :=
  wireBytes srcIp ++ wireBytes dstIp ++ [0, .ofNat protocol, .ofNat (len / 256), .ofNat len]

section Transport

variable {protocol len srcIp dstIp : Nat}

/-- The addresses' part of the sum. -/
def addressSum (srcIp dstIp : Nat) : Nat :=
  srcIp % 2 ^ 16 + srcIp / 2 ^ 16 + (dstIp % 2 ^ 16 + dstIp / 2 ^ 16)

theorem addressSum_lt (hsrc : srcIp < 2 ^ 32) (hdst : dstIp < 2 ^ 32) :
    addressSum srcIp dstIp < 2 ^ 18 := by
  unfold addressSum
  omega

/-- The words of an address. -/
theorem wireBytes_words {ip : Nat} (hip : ip < 2 ^ 32) (bytes : List UInt8) :
    (leWords (wireBytes ip ++ bytes)).sum = ip % 2 ^ 16 + ip / 2 ^ 16 + (leWords bytes).sum := by
  simp only [wireBytes, List.cons_append, List.nil_append, leWords, List.sum_cons,
    UInt8.toNat_ofNat']
  omega

/-- The sum over the pseudo-header and the segment. -/
theorem pseudoHeader_words (hprotocol : protocol < 2 ^ 8) (hlen : len < 2 ^ 16)
    (hsrc : srcIp < 2 ^ 32) (hdst : dstIp < 2 ^ 32) (seg : List UInt8) :
    (leWords (pseudoHeader protocol len srcIp dstIp ++ seg)).sum
      = addressSum srcIp dstIp + 256 * protocol + (len / 256 + 256 * (len % 256))
        + (leWords seg).sum := by
  have hrest : (leWords ([0, .ofNat protocol, .ofNat (len / 256), .ofNat len] ++ seg)).sum
      = 256 * protocol + (len / 256 + 256 * (len % 256)) + (leWords seg).sum := by
    simp only [List.cons_append, List.nil_append, leWords, List.sum_cons, UInt8.toNat_ofNat']
    show 0 + 256 * (protocol % 2 ^ 8) + _ = _
    omega
  rw [pseudoHeader, List.append_assoc, List.append_assoc, wireBytes_words hsrc,
    wireBytes_words hdst, hrest, addressSum]
  omega

/-- The sum that the code starts from: the protocol is in the other byte, and so is the length. -/
theorem transportChecksum_eq (m : ByteMem) (hdr : Nat) (hprotocol : protocol < 2 ^ 8)
    (hlen : len < 2 ^ 16) (hsrc : srcIp < 2 ^ 32) (hdst : dstIp < 2 ^ 32) :
    transportChecksum protocol m hdr len srcIp dstIp
      = netChecksumAdd m hdr len (addressSum srcIp dstIp + protocol + len) := by
  have hmask : ∀ n, n &&& 0xFFFF = n % 2 ^ 16 := fun n => Nat.and_two_pow_sub_one_eq_mod n 16
  unfold transportChecksum
  simp only [hmask, Nat.shiftRight_eq_div_pow, wrap32, Nat.mod_add_mod, Nat.zero_add]
  congr 1
  have hsum : srcIp / 2 ^ 16 % 2 ^ 16 + srcIp % 2 ^ 16 + dstIp / 2 ^ 16 % 2 ^ 16 + dstIp % 2 ^ 16
      = addressSum srcIp dstIp := by
    unfold addressSum
    omega
  rw [hsum, Nat.mod_eq_of_lt hlen, Nat.div_eq_of_lt hlen, Nat.zero_mod]
  exact Nat.mod_eq_of_lt (by omega)

/-- Two bytes in the wrong order, next to a byte in the wrong place. -/
theorem swapped_modEq_iff {p h l : Nat} (hp : 0 < p ∧ p < 256) (hh : h < 256) (hl : l < 256) :
    p + (256 * h + l) ≡ 256 * p + (h + 256 * l) [MOD 65535] ↔ h = l + p ∨ l + p = h + 257 := by
  unfold Nat.ModEq
  omega

/-- **One protocol**: which lengths make up for the wrong byte order. -/
theorem transportChecksum_iff {m m' : ByteMem} {hdr data : Nat} {seg : List UInt8}
    (hprotocol : 0 < protocol ∧ protocol < 256) (hlen : seg.length ≤ 65515)
    (hsrc : srcIp < 2 ^ 32) (hdst : dstIp < 2 ^ 32) (hseg : m.Holds hdr seg)
    (hall : m'.Holds data (pseudoHeader protocol seg.length srcIp dstIp ++ seg)) :
    transportChecksum protocol m hdr seg.length srcIp dstIp
        = netChecksumAdd m' data (12 + seg.length) 0 ↔
      seg.length / 256 = seg.length % 256 + protocol ∨
        seg.length % 256 + protocol = seg.length / 256 + 257 := by
  have haddr := addressSum_lt hsrc hdst
  have hwhole : (pseudoHeader protocol seg.length srcIp dstIp ++ seg).length = 12 + seg.length :=
    List.length_append
  have hcodeSum := total_lt m (show seg.length ≤ 65535 by omega) hdr
  have hspecSum := total_lt m' (show 12 + seg.length ≤ 65535 by omega) data
  obtain ⟨a, hreps, hcode⟩ := netChecksumAdd_eq (m := m)
    (show addressSum srcIp dstIp + protocol + seg.length + total m seg.length hdr < 2 ^ 32 by omega)
  obtain ⟨b, hreps', hspec⟩ := netChecksumAdd_eq (m := m')
    (show 0 + total m' (12 + seg.length) data < 2 ^ 32 by omega)
  rw [transportChecksum_eq m hdr hprotocol.2 (by omega) hsrc hdst, hcode, hspec]
  rw [← hwhole, total_holds hall, pseudoHeader_words hprotocol.2 (by omega) hsrc hdst,
    Nat.zero_add] at hreps'
  rw [total_holds hseg] at hreps
  have ha := hreps.lt
  have hb := hreps'.lt
  have hwords : 65535 - a = 65535 - b ↔ a = b := by omega
  rw [hwords, hreps.eq_iff hreps']
  -- the protocol is in both sums, so neither is zero; the rest is the same in both
  rw [and_iff_left (iff_of_false (by omega) (by omega)),
    show addressSum srcIp dstIp + protocol + seg.length + (leWords seg).sum
      = addressSum srcIp dstIp + (leWords seg).sum
        + (protocol + (256 * (seg.length / 256) + seg.length % 256)) by omega,
    show addressSum srcIp dstIp + 256 * protocol + (seg.length / 256 + 256 * (seg.length % 256))
        + (leWords seg).sum
      = addressSum srcIp dstIp + (leWords seg).sum
        + (256 * protocol + (seg.length / 256 + 256 * (seg.length % 256))) by omega]
  exact Iff.trans ⟨Nat.ModEq.add_left_cancel' _, Nat.ModEq.add_left _⟩
    (swapped_modEq_iff hprotocol (by omega) (by omega))

end Transport

/-- **Transport checksums.** For every segment of at most 65515 bytes and all addresses:
`net_tcp_checksum` is the checksum of the pseudo-header and the segment if and only if the two bytes
of the length differ in a certain way, whatever the addresses and the segment are; the same for
`net_udp_checksum`, with another difference. -/
theorem transport_checksum_iff {m m1 m2 : ByteMem} {hdr data srcIp dstIp : Nat} {seg : List UInt8}
    (hlen : seg.length ≤ 65535 - 20) (hsrc : srcIp < 2 ^ 32) (hdst : dstIp < 2 ^ 32)
    (hseg : m.Holds hdr seg) (htcp : m1.Holds data (pseudoHeader 6 seg.length srcIp dstIp ++ seg))
    (hudp : m2.Holds data (pseudoHeader 17 seg.length srcIp dstIp ++ seg)) :
    (netTcpChecksum m hdr seg.length srcIp dstIp = netChecksumAdd m1 data (12 + seg.length) 0 ↔
      seg.length / 256 = seg.length % 256 + 6 ∨ seg.length % 256 + 6 = seg.length / 256 + 257) ∧
    (netUdpChecksum m hdr seg.length srcIp dstIp = netChecksumAdd m2 data (12 + seg.length) 0 ↔
      seg.length / 256 = seg.length % 256 + 17 ∨ seg.length % 256 + 17 = seg.length / 256 + 257) :=
  ⟨transportChecksum_iff (by decide) hlen hsrc hdst hseg htcp,
    transportChecksum_iff (by decide) hlen hsrc hdst hseg hudp⟩

/-- A segment of 1536 bytes, which is `0x0600`. -/
theorem transport_checksum_iff_six :
    ∃ m m' : ByteMem, m.Holds 0 (List.replicate 1536 0) ∧
      m'.Holds 0 (pseudoHeader 6 1536 0x0F02000A 0x0202000A ++ List.replicate 1536 0) ∧
      netTcpChecksum m 0 1536 0x0F02000A 0x0202000A = netChecksumAdd m' 0 1548 0 := by
  obtain ⟨seg, hseg⟩ : ∃ seg : List UInt8, seg = List.replicate 1536 0 := ⟨_, rfl⟩
  have hlen : seg.length = 1536 := by rw [hseg, List.length_replicate]
  rw [← hseg]
  have hm := ByteMem.holds_write (fun _ => 0) 0 seg
  have hall := fun protocol => ByteMem.holds_write (fun _ => 0) 0
    (pseudoHeader protocol seg.length 0x0F02000A 0x0202000A ++ seg)
  have htcp := (transport_checksum_iff (by omega) (by decide) (by decide) hm (hall 6) (hall 17)).1.mpr
    (.inl (by rw [hlen]))
  rw [hlen] at htcp
  have hall := hall 6
  rw [hlen] at hall
  exact ⟨_, _, hm, hall, htcp⟩

/-- A TCP header of 20 zero bytes from `10.0.2.15` to `10.0.2.2`: the code starts from `6 + 20`, where
the bytes of the pseudo-header are the words `0x0600` and `0x1400`. -/
theorem tcp_checksum_wrong_lane :
    netTcpChecksum (fun _ => 0) 0 20 0x0F02000A 0x0202000A = 61133 ∧
    ∃ m : ByteMem, m.Holds 0 (pseudoHeader 6 20 0x0F02000A 0x0202000A ++ List.replicate 20 0) ∧
      netChecksumAdd m 0 32 0 = 54503 := by
  have hfold : ∀ n < 2 ^ 16, netChecksumFold n = 65535 - n := by
    intro n hn
    rw [netChecksumFold_eq, foldLoop, if_pos (Nat.shiftRight_eq_zero n 16 hn)]
  refine ⟨?_, ByteMem.ofList (pseudoHeader 6 20 0x0F02000A 0x0202000A), by decide +kernel, ?_⟩
  · exact hfold 4402 (by decide)
  · have hsum : sumWords (ByteMem.ofList (pseudoHeader 6 20 0x0F02000A 0x0202000A)) 32 0 0 = 11032 := by
      decide +kernel
    exact hfold 11032 (by decide)

end GosKernel.Net
