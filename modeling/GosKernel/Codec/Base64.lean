import GosKernel.Kernel.Strings

/-!
# Base64 (`src/lib/base64.c`)

The code works on buffers; `encodeBytes` is what it writes, three bytes at a time, over
lists. Both loops take one group of the list in a round (`base64EncodeLoop_spec`,
`base64DecodeLoop_spec`), and a group of four characters is the group of bytes again
because both are the same number below `2 ^ 24`, in base 64 and in base 256
(`sextets_eq`). `decodeBytes` is what `base64_decode` makes of any text, also of one that is
not Base64.

The two buffers of a call are memories of their own. A pointer that may be `NULL` is an
`Option`.
-/

namespace GosKernel.Base64

open Strings

/-- `g_base64_table` (base64.c:5-6). -/
def base64Table : List UInt8 :=
  ['A', 'B', 'C', 'D', 'E', 'F', 'G', 'H', 'I', 'J', 'K', 'L', 'M', 'N', 'O', 'P', 'Q', 'R', 'S',
    'T', 'U', 'V', 'W', 'X', 'Y', 'Z', 'a', 'b', 'c', 'd', 'e', 'f', 'g', 'h', 'i', 'j', 'k', 'l',
    'm', 'n', 'o', 'p', 'q', 'r', 's', 't', 'u', 'v', 'w', 'x', 'y', 'z', '0', '1', '2', '3', '4',
    '5', '6', '7', '8', '9', '+', '/'].map chr

/-- `base64_encoded_size` (base64.c:8-10). -/
def base64EncodedSize (rawLen : Nat) : Nat := wrap64 (wrap64 (rawLen + 2) / 3 * 4)

/-- `base64_decoded_size` (base64.c:12-17). -/
def base64DecodedSize (b64 : ByteMem) (b64Len : Nat) : Nat :=
  let padding := 0
  let padding := if 0 < b64Len ∧ b64 (b64Len - 1) = chr '=' then padding + 1 else padding
  let padding := if 1 < b64Len ∧ b64 (b64Len - 2) = chr '=' then padding + 1 else padding
  sub64 (b64Len / 4 * 3) padding

/-- `out[pos++] = c`. -/
def push (r : Nat × ByteMem) (c : UInt8) : Nat × ByteMem := (r.1 + 1, r.2.write r.1 [c])

/-- `g_base64_table[v & 0x3F]`. -/
def base64Char (v : Nat) : UInt8 := base64Table.getD (v &&& 0x3F) 0

/-- The loop of `base64_encode`. -/
def base64EncodeLoop (data : ByteMem) (len : Nat) :
    (fuel i : Nat) → Nat × ByteMem → Option (Nat × ByteMem)
  | 0, _, _ => none
  | fuel + 1, i, out =>
    if i < len then
      let val := (data i).toNat <<< 16
      let val := if wrap64 (i + 1) < len then val ||| (data (i + 1)).toNat <<< 8 else val
      let val := if wrap64 (i + 2) < len then val ||| (data (i + 2)).toNat else val
      let out := push out (base64Char (val >>> 18))
      let out := push out (base64Char (val >>> 12))
      let out := push out (if wrap64 (i + 1) < len then base64Char (val >>> 6) else chr '=')
      let out := push out (if wrap64 (i + 2) < len then base64Char val else chr '=')
      base64EncodeLoop data len fuel (wrap64 (i + 3)) out
    else some out

/-- `base64_encode` (base64.c:19-38): the result, and the output buffer. -/
def base64Encode (fuel : Nat) (data : Option ByteMem) (len : Nat) (out : Option ByteMem)
    (outSize : Nat) : Option (Int × Option ByteMem) :=
  match data, out with
  | some data, some out =>
    if outSize < wrap64 (base64EncodedSize len + 1) then some (-1, some out)
    else (base64EncodeLoop data len fuel 0 (0, out)).map fun r =>
      (toInt32 r.1, some (r.2.write r.1 [0]))
  | _, out => some (-1, out)

/-- `base64_value` (base64.c:40-47). -/
def base64Value (c : UInt8) : Int :=
  if chr 'A' ≤ c ∧ c ≤ chr 'Z' then c.toNat - (chr 'A').toNat
  else if chr 'a' ≤ c ∧ c ≤ chr 'z' then c.toNat - (chr 'a').toNat + 26
  else if chr '0' ≤ c ∧ c ≤ chr '9' then c.toNat - (chr '0').toNat + 52
  else if c = chr '+' then 62
  else if c = chr '/' then 63
  else -1

/-- The loop of `base64_decode`. -/
def base64DecodeLoop (b64 : ByteMem) (b64Len : Nat) :
    (fuel i : Nat) → Nat × ByteMem → Option (Int × ByteMem)
  | 0, _, _ => none
  | fuel + 1, i, dst =>
    if i < b64Len then
      let a := base64Value (b64 i)
      let b := base64Value (b64 (i + 1))
      let c := base64Value (b64 (i + 2))
      let d := base64Value (b64 (i + 3))
      if a < 0 ∨ b < 0 then some (-1, dst.2)
      else
        let val := a.toNat <<< 18 ||| b.toNat <<< 12
        let val := if 0 ≤ c then val ||| c.toNat <<< 6 else val
        let val := if 0 ≤ d then val ||| d.toNat else val
        let dst := push dst (UInt8.ofNat (val >>> 16))
        let dst := if 0 ≤ c then push dst (UInt8.ofNat (val >>> 8)) else dst
        let dst := if 0 ≤ d then push dst (UInt8.ofNat val) else dst
        base64DecodeLoop b64 b64Len fuel (wrap64 (i + 4)) dst
    else some (toInt32 dst.1, dst.2)

/-- `base64_decode` (base64.c:49-72): the result, and the output buffer. -/
def base64Decode (fuel : Nat) (b64 : Option ByteMem) (b64Len : Nat) (out : Option ByteMem)
    (outSize : Nat) : Option (Int × Option ByteMem) :=
  match b64, out with
  | some b64, some out =>
    if b64Len % 4 ≠ 0 then some (-1, some out)
    else if outSize < base64DecodedSize b64 b64Len then some (-1, some out)
    else (base64DecodeLoop b64 b64Len fuel 0 (0, out)).map fun r => (r.1, some r.2)
  | _, out => some (-1, out)

/-! ## Groups -/

/-- The bytes of a group as one number. -/
def word (x y z : Nat) : Nat := x * 2 ^ 16 + y * 2 ^ 8 + z

/-- The characters for a list of bytes. -/
def encodeBytes : List UInt8 → List UInt8
  | [] => []
  | [x] =>
    let val := word x.toNat 0 0
    [base64Char (val >>> 18), base64Char (val >>> 12), chr '=', chr '=']
  | [x, y] =>
    let val := word x.toNat y.toNat 0
    [base64Char (val >>> 18), base64Char (val >>> 12), base64Char (val >>> 6), chr '=']
  | x :: y :: z :: l =>
    let val := word x.toNat y.toNat z.toNat
    [base64Char (val >>> 18), base64Char (val >>> 12), base64Char (val >>> 6), base64Char val] ++
      encodeBytes l

theorem base64Char_eq (v : Nat) : base64Char v = base64Table.getD (v % 64) 0 := by
  unfold base64Char
  rw [show 0x3F = 2 ^ 6 - 1 from rfl, Nat.and_two_pow_sub_one_eq_mod]

/-- **The table and its inverse.** -/
theorem base64Value_table :
    ∀ v : Fin 64, base64Value (base64Table.getD v 0) = v ∧ base64Table.getD v 0 ≠ 0 ∧
      base64Table.getD v 0 ≠ chr '=' := by
  decide +kernel

theorem base64Value_char (v : Nat) : base64Value (base64Char v) = (v % 64 : Nat) := by
  rw [base64Char_eq]
  exact (base64Value_table ⟨v % 64, Nat.mod_lt v (by norm_num)⟩).1

theorem base64Char_ne_zero (v : Nat) : base64Char v ≠ 0 := by
  rw [base64Char_eq]
  exact (base64Value_table ⟨v % 64, Nat.mod_lt v (by norm_num)⟩).2.1

theorem base64Char_ne_pad (v : Nat) : base64Char v ≠ chr '=' := by
  rw [base64Char_eq]
  exact (base64Value_table ⟨v % 64, Nat.mod_lt v (by norm_num)⟩).2.2

/-! ## Numbers in base 256 and in base 64 -/

variable {a b fuel i x y z : Nat} {b64 : ByteMem} {l : List UInt8}

theorem shift_or {j : Nat} (h : b <<< j < 2 ^ i) : a <<< i ||| b <<< j = a * 2 ^ i + b * 2 ^ j := by
  rw [Nat.shiftLeft_eq, Nat.mul_comm, ← Nat.two_pow_add_eq_or_of_lt h, Nat.shiftLeft_eq]

theorem or_low (ha : a % 2 ^ i = 0) (hb : b < 2 ^ i) : a ||| b = a + b := by
  obtain ⟨c, rfl⟩ := Nat.dvd_of_mod_eq_zero ha
  exact (Nat.two_pow_add_eq_or_of_lt hb c).symm

theorem word_one (x : UInt8) : x.toNat <<< 16 = word x.toNat 0 0 := by
  rw [Nat.shiftLeft_eq, word, Nat.zero_mul, Nat.add_zero]

theorem word_two (x y : UInt8) : x.toNat <<< 16 ||| y.toNat <<< 8 = word x.toNat y.toNat 0 := by
  have hy := y.toNat_lt
  rw [shift_or (by rw [Nat.shiftLeft_eq]; omega), word, Nat.add_zero]

theorem word_three (x y z : UInt8) :
    x.toNat <<< 16 ||| y.toNat <<< 8 ||| z.toNat = word x.toNat y.toNat z.toNat := by
  have hz := z.toNat_lt
  have hlow : word x.toNat y.toNat 0 % 2 ^ 8 = 0 := by
    unfold word
    omega
  rw [word_two, or_low hlow hz, word, word, Nat.add_zero]

/-- **Four characters** of six bits are the number again. -/
theorem sextets_eq (n : Nat) :
    ((n >>> 18 % 64) <<< 18 ||| (n >>> 12 % 64) <<< 12 =
      n >>> 18 % 64 * 2 ^ 18 + n >>> 12 % 64 * 2 ^ 12) ∧
    ((n >>> 18 % 64) <<< 18 ||| (n >>> 12 % 64) <<< 12 ||| (n >>> 6 % 64) <<< 6 =
      n >>> 18 % 64 * 2 ^ 18 + n >>> 12 % 64 * 2 ^ 12 + n >>> 6 % 64 * 2 ^ 6) ∧
    ((n >>> 18 % 64) <<< 18 ||| (n >>> 12 % 64) <<< 12 ||| (n >>> 6 % 64) <<< 6 ||| n % 64 =
      n >>> 18 % 64 * 2 ^ 18 + n >>> 12 % 64 * 2 ^ 12 + n >>> 6 % 64 * 2 ^ 6 + n % 64) := by
  have htwo : (n >>> 18 % 64) <<< 18 ||| (n >>> 12 % 64) <<< 12 =
      n >>> 18 % 64 * 2 ^ 18 + n >>> 12 % 64 * 2 ^ 12 :=
    shift_or (by rw [Nat.shiftLeft_eq]; omega)
  have hthree : (n >>> 18 % 64) <<< 18 ||| (n >>> 12 % 64) <<< 12 ||| (n >>> 6 % 64) <<< 6 =
      n >>> 18 % 64 * 2 ^ 18 + n >>> 12 % 64 * 2 ^ 12 + n >>> 6 % 64 * 2 ^ 6 := by
    rw [htwo, Nat.shiftLeft_eq]
    exact or_low (i := 12) (by omega) (by omega)
  refine ⟨htwo, hthree, ?_⟩
  rw [hthree]
  exact or_low (i := 6) (by omega) (by omega)

/-! ## The loops -/

theorem encodeBytes_length (l : List UInt8) : (encodeBytes l).length = (l.length + 2) / 3 * 4 := by
  induction l using encodeBytes.induct with
  | case1 => rfl
  | case2 x => simp [encodeBytes]
  | case3 x y => simp [encodeBytes]
  | case4 x y z l ih =>
    simp only [encodeBytes, List.length_append, List.length_cons, List.length_nil]
    omega

theorem push_four (out : Nat × ByteMem) (a b c d : UInt8) :
    push (push (push (push out a) b) c) d = (out.1 + 4, out.2.write out.1 [a, b, c, d]) := rfl

/-- **The loop of `base64_encode`** writes the characters for the bytes that are left. -/
theorem base64EncodeLoop_spec {data : ByteMem} {len : Nat} (hlen : len + 3 < 2 ^ 64)
    (l : List UInt8) (out : Nat × ByteMem) (hdata : data.Holds i l)
    (hi : i + l.length = len) (hfuel : l.length < fuel) :
    base64EncodeLoop data len fuel i out =
      some (out.1 + (encodeBytes l).length, out.2.write out.1 (encodeBytes l)) := by
  have hdone : ∀ {fuel i : Nat} (out : Nat × ByteMem), len ≤ i →
      base64EncodeLoop data len (fuel + 1) i out = some out :=
    fun out h => if_neg (Nat.not_lt.mpr h)
  -- one round for each group, as `encodeBytes` takes them
  induction l using encodeBytes.induct generalizing i fuel out with
  | case1 =>
    obtain ⟨fuel, rfl⟩ := fuel_succ hfuel
    exact hdone out (Nat.le_of_eq hi.symm)
  | case2 x =>
    obtain ⟨fuel, rfl⟩ : ∃ n, fuel = n + 1 + 1 := ⟨fuel - 2, by simp at hfuel; omega⟩
    have hi : i + 1 = len := hi
    have hx : data i = x := hdata.1
    have h1 : ¬ wrap64 (i + 1) < len := by rw [wrap64_of_lt (by omega)]; omega
    have h2 : ¬ wrap64 (i + 2) < len := by rw [wrap64_of_lt (by omega)]; omega
    have h3 : len ≤ wrap64 (i + 3) := by rw [wrap64_of_lt (by omega)]; omega
    rw [base64EncodeLoop, if_pos (by omega)]
    simp only [if_neg h1, if_neg h2, hx, word_one]
    rw [push_four]
    exact hdone _ h3
  | case3 x y =>
    obtain ⟨fuel, rfl⟩ : ∃ n, fuel = n + 1 + 1 := ⟨fuel - 2, by simp at hfuel; omega⟩
    have hi : i + 2 = len := hi
    have hx : data i = x := hdata.1
    have hy : data (i + 1) = y := hdata.2.1
    have h1 : wrap64 (i + 1) < len := by rw [wrap64_of_lt (by omega)]; omega
    have h2 : ¬ wrap64 (i + 2) < len := by rw [wrap64_of_lt (by omega)]; omega
    have h3 : len ≤ wrap64 (i + 3) := by rw [wrap64_of_lt (by omega)]; omega
    rw [base64EncodeLoop, if_pos (by omega)]
    simp only [if_pos h1, if_neg h2, hx, hy, word_two]
    rw [push_four]
    exact hdone _ h3
  | case4 x y z l ih =>
    obtain ⟨fuel, rfl⟩ : ∃ n, fuel = n + 1 := ⟨fuel - 1, by simp at hfuel; omega⟩
    have hi : i + (l.length + 3) = len := hi
    have hx : data i = x := hdata.1
    have hy : data (i + 1) = y := hdata.2.1
    have hz : data (i + 2) = z := hdata.2.2.1
    have h1 : wrap64 (i + 1) < len := by rw [wrap64_of_lt (by omega)]; omega
    have h2 : wrap64 (i + 2) < len := by rw [wrap64_of_lt (by omega)]; omega
    have h3 : wrap64 (i + 3) = i + 3 := wrap64_of_lt (by omega)
    rw [base64EncodeLoop, if_pos (by omega)]
    simp only [if_pos h1, if_pos h2, hx, hy, hz, word_three, h3]
    rw [push_four, ih _ hdata.2.2.2 (by omega) (by simp at hfuel; omega)]
    rw [encodeBytes, List.length_append, ← Nat.add_assoc]
    rfl

/-! ## Back again -/

theorem sextets_one (hx : x < 256) :
    (word x 0 0 >>> 18 % 64) <<< 18 ||| (word x 0 0 >>> 12 % 64) <<< 12 = word x 0 0 := by
  rw [(sextets_eq _).1]
  unfold word
  omega

theorem sextets_two (hx : x < 256) (hy : y < 256) :
    (word x y 0 >>> 18 % 64) <<< 18 ||| (word x y 0 >>> 12 % 64) <<< 12 |||
      (word x y 0 >>> 6 % 64) <<< 6 = word x y 0 := by
  rw [(sextets_eq _).2.1]
  unfold word
  omega

theorem sextets_three (hx : x < 256) (hy : y < 256) (hz : z < 256) :
    (word x y z >>> 18 % 64) <<< 18 ||| (word x y z >>> 12 % 64) <<< 12 |||
      (word x y z >>> 6 % 64) <<< 6 ||| word x y z % 64 = word x y z := by
  rw [(sextets_eq _).2.2]
  unfold word
  omega

theorem word_first (x : UInt8) (hy : y < 256) (hz : z < 256) :
    UInt8.ofNat (word x.toNat y z >>> 16) = x := by
  have hx := x.toNat_lt
  apply UInt8.toNat_inj.mp
  rw [UInt8.toNat_ofNat', word]
  omega

theorem word_second (x : Nat) (y : UInt8) (hz : z < 256) :
    UInt8.ofNat (word x y.toNat z >>> 8) = y := by
  have hy := y.toNat_lt
  apply UInt8.toNat_inj.mp
  rw [UInt8.toNat_ofNat', word]
  omega

theorem word_third (x y : Nat) (z : UInt8) : UInt8.ofNat (word x y z.toNat) = z := by
  have hz := z.toNat_lt
  apply UInt8.toNat_inj.mp
  rw [UInt8.toNat_ofNat', word]
  omega

/-- The bytes four characters are for: none if one of the first two is not in the alphabet,
and a byte less for each of the others that is not. -/
def groupBytes (a b c d : UInt8) : Option (List UInt8) :=
  let hasC := 0 ≤ base64Value c
  let hasD := 0 ≤ base64Value d
  if base64Value a < 0 ∨ base64Value b < 0 then none
  else
    let val := (base64Value a).toNat <<< 18 ||| (base64Value b).toNat <<< 12
    let val := if hasC then val ||| (base64Value c).toNat <<< 6 else val
    let val := if hasD then val ||| (base64Value d).toNat else val
    some (UInt8.ofNat (val >>> 16) :: ((if hasC then [UInt8.ofNat (val >>> 8)] else []) ++
      if hasD then [UInt8.ofNat val] else []))

/-- The bytes for a text up to the first group that is refused, and whether there is none. -/
def decodeBytes : List UInt8 → List UInt8 × Bool
  | a :: b :: c :: d :: text =>
    match groupBytes a b c d with
    | none => ([], false)
    | some group => (group ++ (decodeBytes text).1, (decodeBytes text).2)
  | _ => ([], true)

/-- A text of whole groups that does not begin with one is empty. -/
theorem eq_nil_of_no_group {text : List UInt8}
    (hshort : ∀ a b c d l, text = a :: b :: c :: d :: l → False) (hfour : 4 ∣ text.length) :
    text = [] := by
  match text, hshort with
  | [], _ => rfl
  | [_], _ | [_, _], _ | [_, _, _], _ =>
    simp at hfour
  | a :: b :: c :: d :: text, h => exact absurd rfl (h a b c d text)

/-- **One round** of the loop of `base64_decode` takes one group. -/
theorem base64DecodeLoop_round {b64Len : Nat} (dst : Nat × ByteMem) (hi : i < b64Len) :
    base64DecodeLoop b64 b64Len (fuel + 1) i dst =
      match groupBytes (b64 i) (b64 (i + 1)) (b64 (i + 2)) (b64 (i + 3)) with
      | none => some (-1, dst.2)
      | some group => base64DecodeLoop b64 b64Len fuel (wrap64 (i + 4))
          (dst.1 + group.length, dst.2.write dst.1 group) := by
  rw [base64DecodeLoop, if_pos hi]
  unfold groupBytes
  by_cases hopen : base64Value (b64 i) < 0 ∨ base64Value (b64 (i + 1)) < 0
  · rw [if_pos hopen, if_pos hopen]
  · rw [if_neg hopen, if_neg hopen]
    by_cases hc : 0 ≤ base64Value (b64 (i + 2)) <;> by_cases hd : 0 ≤ base64Value (b64 (i + 3))
    all_goals
      simp only [hc, hd]
      rfl

/-- **The loop of `base64_decode`** writes the bytes for the text that is left. -/
theorem base64DecodeLoop_spec {b64Len : Nat} (hlen : b64Len < 2 ^ 64) (text : List UInt8)
    (dst : Nat × ByteMem) (hb64 : b64.Holds i text) (hi : i + text.length = b64Len)
    (hfour : 4 ∣ b64Len) (hmod : 4 ∣ i) (hfuel : text.length < fuel) :
    base64DecodeLoop b64 b64Len fuel i dst =
      some (if (decodeBytes text).2 then toInt32 (dst.1 + (decodeBytes text).1.length) else -1,
        dst.2.write dst.1 (decodeBytes text).1) := by
  obtain ⟨fuel, rfl⟩ := Nat.exists_eq_add_one_of_ne_zero (Nat.ne_zero_of_lt hfuel)
  induction text using decodeBytes.induct generalizing i fuel dst with
  | case1 a b c d text hnone =>
    obtain ⟨ha, hb, hc, hd, -⟩ := hb64
    have hi : i + (text.length + 4) = b64Len := hi
    rw [base64DecodeLoop_round dst (by omega), ha, hb, hc, hd, decodeBytes, hnone]
    rfl
  | case2 a b c d text group hgroup ih =>
    obtain ⟨ha, hb, hc, hd, hrest⟩ := hb64
    have hi : i + (text.length + 4) = b64Len := hi
    obtain ⟨fuel, rfl⟩ : ∃ n, fuel = n + 1 := ⟨fuel - 1, by omega⟩
    rw [base64DecodeLoop_round dst (by omega), ha, hb, hc, hd, decodeBytes, hgroup]
    dsimp only
    rw [wrap64_of_lt (by omega), ih _ hrest (by omega) (by omega) fuel (by omega),
      ByteMem.write_append, List.length_append, Nat.add_assoc]
  | case3 text hshort =>
    obtain rfl := eq_nil_of_no_group hshort (by omega)
    exact if_neg (Nat.not_lt.mpr (Nat.le_of_eq hi.symm))

theorem decodeBytes_encodeBytes (l : List UInt8) : decodeBytes (encodeBytes l) = (l, true) := by
  have hpad : base64Value (chr '=') = -1 := by decide +kernel
  have hnat : ∀ n : Nat, ¬ (n : Int) < 0 := fun n => by omega
  have hpos : ∀ n : Nat, (0 : Int) ≤ n := fun n => by omega
  -- as a hypothesis: a lemma that holds by computation makes the kernel compute the characters
  have hcast : ∀ n : Nat, (n : Int).toNat = n := Int.toNat_natCast
  have hneg : ¬ (0 : Int) ≤ -1 := by omega
  induction l using encodeBytes.induct with
  | case1 => rfl
  | case2 x =>
    -- two characters and two of padding, for one byte
    simp only [encodeBytes, decodeBytes, groupBytes, base64Value_char, hpad, if_neg hneg, hcast,
      sextets_one x.toNat_lt]
    rw [word_first x (by norm_num) (by norm_num)]
    rfl
  | case3 x y =>
    -- three characters and one of padding, for two bytes
    simp only [encodeBytes, decodeBytes, groupBytes, base64Value_char, hpad, if_neg hneg, hpos,
      if_true, hcast, sextets_two x.toNat_lt y.toNat_lt]
    rw [word_first x y.toNat_lt (by norm_num), word_second _ y (by norm_num)]
    rfl
  | case4 x y z l ih =>
    simp only [encodeBytes, List.cons_append, List.nil_append, decodeBytes, groupBytes,
      base64Value_char, hnat, or_self, if_false, hpos, if_true, hcast, ih,
      sextets_three x.toNat_lt y.toNat_lt z.toNat_lt]
    rw [word_first x y.toNat_lt z.toNat_lt, word_second _ y z.toNat_lt, word_third]

/-! ## Sizes -/

theorem padding_at_end (l : List UInt8) {e : Nat} (hl : l ≠ [])
    (hb64 : b64.Holds i (encodeBytes l)) (he : e = i + (encodeBytes l).length) :
    (b64 (e - 1) = chr '=' ↔ l.length % 3 ≠ 0) ∧ (b64 (e - 2) = chr '=' ↔ l.length % 3 = 1) := by
  induction l using encodeBytes.induct generalizing i with
  | case1 => exact absurd rfl hl
  | case2 x =>
    obtain ⟨-, -, hc, hd, -⟩ := hb64
    subst he
    constructor
    · exact iff_of_true hd (by simp)
    · exact iff_of_true hc (by simp)
  | case3 x y =>
    obtain ⟨-, -, hc, hd, -⟩ := hb64
    subst he
    constructor
    · exact iff_of_true hd (by simp)
    · exact iff_of_false (fun h => base64Char_ne_pad _ (hc.symm.trans h)) (by simp)
  | case4 x y z l ih =>
    rw [encodeBytes] at hb64 he
    obtain ⟨hgroup, hrest⟩ := ByteMem.holds_append.mp hb64
    obtain ⟨-, -, hc, hd, -⟩ := hgroup
    have he : e = i + 4 + (encodeBytes l).length := by
      rw [he, List.length_append, ← Nat.add_assoc]
      rfl
    have hmod : (x :: y :: z :: l).length % 3 = l.length % 3 := Nat.add_mod_right l.length 3
    rw [hmod]
    by_cases hnil : l = []
    · -- the last group is a whole one
      subst hnil
      subst he
      constructor
      · exact iff_of_false (fun h => base64Char_ne_pad _ (hd.symm.trans h)) (by simp)
      · exact iff_of_false (fun h => base64Char_ne_pad _ (hc.symm.trans h)) (by simp)
    · exact ih hnil hrest he

theorem base64EncodedSize_eq (hl : l.length < 2 ^ 29) :
    base64EncodedSize l.length = (encodeBytes l).length := by
  have hwrap : wrap64 (l.length + 2) = l.length + 2 := wrap64_of_lt (by omega)
  rw [encodeBytes_length, base64EncodedSize, hwrap, wrap64_of_lt (by omega)]

theorem base64DecodedSize_eq (hl : l.length < 2 ^ 29) (hb64 : b64.Holds 0 (encodeBytes l)) :
    base64DecodedSize b64 (encodeBytes l).length = l.length := by
  have hlen := encodeBytes_length l
  by_cases hnil : l = []
  · subst hnil
    simp [encodeBytes, base64DecodedSize, sub64, wrap64]
  · have hpos : 0 < l.length := List.length_pos_iff.mpr hnil
    obtain ⟨hlast, hsecond⟩ := padding_at_end l hnil hb64 (Nat.zero_add _).symm
    unfold base64DecodedSize
    simp only [hlast, hsecond, show 0 < (encodeBytes l).length by omega,
      show 1 < (encodeBytes l).length by omega, true_and]
    rw [hlen]
    split_ifs
    all_goals
      rw [sub64_of_le (by omega) (by omega)]
      omega

theorem encodeBytes_nul_free (l : List UInt8) : 0 ∉ encodeBytes l := by
  have hpad : (0 : UInt8) ≠ chr '=' := by decide
  induction l using encodeBytes.induct with
  | case1 => exact List.not_mem_nil
  | case2 x => simp [encodeBytes, hpad, (base64Char_ne_zero _).symm]
  | case3 x y => simp [encodeBytes, hpad, (base64Char_ne_zero _).symm]
  | case4 x y z l ih => simp [encodeBytes, ih, (base64Char_ne_zero _).symm]

/-! ## The round trip -/

/-- **Base64.** For every byte string below `2 ^ 29` bytes and every buffer that is large
enough, `base64_encode` returns, writes a string of the announced size and nothing else, and
`base64_decode` brings the bytes back. -/
theorem base64_round_trip {d : List UInt8} (hd : d.length < 2 ^ 29) {data out : ByteMem}
    (hdata : data.Holds 0 d) {outSize : Nat} (hout : base64EncodedSize d.length + 1 ≤ outSize) :
    ∃ (n : Nat) (text : CString) (out' : ByteMem),
      (∀ fuel, n ≤ fuel → base64Encode fuel (some data) d.length (some out) outSize =
        some ((base64EncodedSize d.length : Int), some out')) ∧
      text.bytes.length = base64EncodedSize d.length ∧ IsString out' 0 text ∧
      (∀ x, base64EncodedSize d.length < x → out' x = out x) ∧
      base64DecodedSize out' (base64EncodedSize d.length) = d.length ∧
      ∀ (dst : ByteMem) (dstSize : Nat), d.length ≤ dstSize →
        ∃ dst' : ByteMem,
          (∀ fuel, n ≤ fuel →
            base64Decode fuel (some out') (base64EncodedSize d.length) (some dst) dstSize =
              some ((d.length : Int), some dst')) ∧
          dst'.Holds 0 d ∧ ∀ x, d.length ≤ x → dst' x = dst x := by
  have hsize := base64EncodedSize_eq hd
  have hlen := encodeBytes_length d
  rw [hsize] at hout ⊢
  refine ⟨(encodeBytes d).length + 1, ⟨encodeBytes d, encodeBytes_nul_free d⟩,
    out.write 0 (encodeBytes d ++ [0]), fun fuel hfuel => ?_, rfl, out.holds_write 0 _, ?_, ?_, ?_⟩
  · have hloop := base64EncodeLoop_spec (by omega) d (0, out) hdata (Nat.zero_add _)
      (show d.length < fuel by omega)
    unfold base64Encode
    dsimp only
    rw [if_neg (by rw [wrap64_of_lt (by omega)]; omega), hloop, Option.map_some,
      toInt32_of_lt (by omega), ByteMem.write_append, Nat.zero_add]
  · intro x hx
    refine ByteMem.write_outside (Or.inr ?_)
    rw [List.length_append, List.length_singleton]
    omega
  · exact base64DecodedSize_eq hd (ByteMem.holds_append.mp (out.holds_write 0 _)).1
  · intro dst dstSize hdst
    have htext := (ByteMem.holds_append.mp (out.holds_write 0 (encodeBytes d ++ [0]))).1
    refine ⟨dst.write 0 d, fun fuel hfuel => ?_, dst.holds_write 0 d, fun x hx => ?_⟩
    · have hloop := base64DecodeLoop_spec (by omega) (encodeBytes d) (0, dst) htext
        (Nat.zero_add _) (by omega) (Nat.dvd_zero 4) (show (encodeBytes d).length < fuel by omega)
      unfold base64Decode
      dsimp only
      rw [if_neg (by omega), base64DecodedSize_eq hd htext, if_neg (by omega), hloop,
        decodeBytes_encodeBytes, Option.map_some, if_pos rfl, Nat.zero_add,
        toInt32_of_lt (show d.length < 2 ^ 31 by omega)]
    · exact ByteMem.write_outside (Or.inr (by omega))

/-- Four bytes: one whole group, and one of a single byte. -/
theorem base64_round_trip_four :
    ∃ (fuel : Nat) (out' dst' : ByteMem),
      base64Encode fuel (some (.ofList [0x67, 0x4F, 0x53, 0xFF])) 4 (some fun _ => 0) 9 =
        some (8, some out') ∧
      base64Decode fuel (some out') 8 (some fun _ => 0) 4 = some (4, some dst') ∧
      dst'.Holds 0 [0x67, 0x4F, 0x53, 0xFF] := by
  have hdata : (ByteMem.ofList [0x67, 0x4F, 0x53, 0xFF]).Holds 0 [0x67, 0x4F, 0x53, 0xFF] := by
    decide
  have hout : base64EncodedSize [0x67, 0x4F, 0x53, (0xFF : UInt8)].length + 1 ≤ 9 := by decide
  obtain ⟨n, _, out', henc, -, -, -, -, hdec⟩ := base64_round_trip (by decide) hdata hout
  obtain ⟨dst', hdec, hholds, -⟩ := hdec (fun _ => 0) 4 (by decide)
  exact ⟨n, out', dst', henc n (Nat.le_refl n), hdec n (Nat.le_refl n), hholds⟩

/-! ## Any text -/

theorem base64Value_nonneg (c : UInt8) : 0 ≤ base64Value c ↔ c ∈ base64Table := by
  have hall : ∀ n : Fin 256, 0 ≤ base64Value (UInt8.ofNat n) ↔ UInt8.ofNat n ∈ base64Table := by
    decide +kernel
  have hc := hall ⟨c.toNat, c.toNat_lt⟩
  rwa [UInt8.ofNat_toNat] at hc

theorem groupBytes_length {a b c d : UInt8} {group : List UInt8}
    (h : groupBytes a b c d = some group) :
    group.length = 1 + (if 0 ≤ base64Value c then 1 else 0) +
      if 0 ≤ base64Value d then 1 else 0 := by
  unfold groupBytes at h
  dsimp only at h
  split at h
  · cases h
  · cases h
    split_ifs <;> rfl

/-- **No more bytes than announced**: the padding the size is computed from is in the last
group, and each character of padding there is a byte less. -/
theorem decodeBytes_length (text : List UInt8) {e : Nat} (htext : text ≠ [])
    (hfour : 4 ∣ text.length) (hb64 : b64.Holds i text) (he : e = i + text.length) :
    (decodeBytes text).1.length + (if b64 (e - 1) = chr '=' then 1 else 0) +
      (if b64 (e - 2) = chr '=' then 1 else 0) ≤ text.length / 4 * 3 := by
  have hone : ∀ c, (if 0 ≤ base64Value c then 1 else 0) + (if c = chr '=' then 1 else 0) ≤ 1 := by
    intro c
    by_cases hc : c = chr '='
    · rw [hc]
      decide +kernel
    · rw [if_neg hc]
      split_ifs <;> omega
  induction text using decodeBytes.induct generalizing i with
  | case1 a b c d text hnone =>
    rw [decodeBytes, hnone]
    simp only [List.length_cons, List.length_nil]
    split_ifs <;> omega
  | case2 a b c d text group hgroup ih =>
    obtain ⟨-, -, hc, hd, hrest⟩ := hb64
    have hsize := groupBytes_length hgroup
    have he : e = i + (text.length + 4) := he
    rw [decodeBytes, hgroup]
    simp only [List.length_append]
    by_cases hnil : text = []
    · -- the last group
      subst hnil
      have hlast : b64 (e - 1) = d := by rw [he]; exact hd
      have hbefore : b64 (e - 2) = c := by rw [he]; exact hc
      have hc := hone c
      have hd := hone d
      rw [hlast, hbefore]
      simp only [decodeBytes, List.length_nil]
      omega
    · have hmore := ih hnil (by omega) hrest (by omega)
      have hthree : group.length ≤ 3 := by rw [hsize]; split_ifs <;> omega
      omega
  | case3 text hshort => exact absurd (eq_nil_of_no_group hshort hfour) htext

section AnyText

variable {text : List UInt8} {out : ByteMem} {outSize : Nat}

/-- What `base64_decode` returns and stores for a text. -/
def decodeResult (b64 : ByteMem) (text : List UInt8) (outSize : Nat) : Int × List UInt8 :=
  if 4 ∣ text.length ∧ base64DecodedSize b64 text.length ≤ outSize then
    (if (decodeBytes text).2 then toInt32 (decodeBytes text).1.length else -1,
      (decodeBytes text).1)
  else (-1, [])

theorem base64Decode_spec (hlen : text.length < 2 ^ 64) (hb64 : b64.Holds 0 text)
    (hfuel : text.length < fuel) :
    base64Decode fuel (some b64) text.length (some out) outSize =
      some ((decodeResult b64 text outSize).1,
        some (out.write 0 (decodeResult b64 text outSize).2)) := by
  unfold base64Decode decodeResult
  dsimp only
  by_cases hfour : 4 ∣ text.length
  · by_cases hout : base64DecodedSize b64 text.length ≤ outSize
    · rw [if_neg (by omega), if_neg (by omega), if_pos ⟨hfour, hout⟩,
        base64DecodeLoop_spec hlen text (0, out) hb64 (Nat.zero_add _) hfour (Nat.dvd_zero 4) hfuel,
        Nat.zero_add]
      rfl
    · rw [if_neg (by omega), if_pos (by omega), if_neg fun h => hout h.2]
      rfl
  · rw [if_pos (by omega), if_neg fun h => hfour h.1]
    rfl

theorem base64DecodedSize_add (b64 : ByteMem) (hlen : text.length < 2 ^ 64)
    (hfour : 4 ∣ text.length) :
    base64DecodedSize b64 text.length +
      (if 0 < text.length ∧ b64 (text.length - 1) = chr '=' then 1 else 0) +
      (if 1 < text.length ∧ b64 (text.length - 2) = chr '=' then 1 else 0) =
        text.length / 4 * 3 := by
  unfold base64DecodedSize
  split_ifs
  all_goals
    rw [sub64_of_le (by omega) (by omega)]
    omega

/-- **The output is never overrun.** For every text, whatever its characters, and every size of
the buffer, `base64_decode` stores at most as many bytes as `base64_decoded_size` announces,
which fit if there are any, and the announced size of whole groups does not underflow. -/
theorem base64_decode_bounded (text : List UInt8) (b64 out : ByteMem) (outSize : Nat)
    (hlen : text.length < 2 ^ 64) (hb64 : b64.Holds 0 text) :
    ∃ (r : Int) (bytes : List UInt8),
      (∀ fuel, text.length < fuel → base64Decode fuel (some b64) text.length (some out) outSize =
        some (r, some (out.write 0 bytes))) ∧
      bytes.length ≤ base64DecodedSize b64 text.length ∧
      (bytes ≠ [] → base64DecodedSize b64 text.length ≤ outSize) ∧
      (4 ∣ text.length → base64DecodedSize b64 text.length +
        (if 0 < text.length ∧ b64 (text.length - 1) = chr '=' then 1 else 0) +
        (if 1 < text.length ∧ b64 (text.length - 2) = chr '=' then 1 else 0) =
          text.length / 4 * 3) := by
  refine ⟨_, _, fun fuel hfuel => base64Decode_spec hlen hb64 hfuel, ?_, fun hbytes => ?_,
    base64DecodedSize_add b64 hlen⟩
  · by_cases h : 4 ∣ text.length ∧ base64DecodedSize b64 text.length ≤ outSize
    · rw [decodeResult, if_pos h]
      by_cases htext : text = []
      · rw [htext]
        exact Nat.zero_le _
      · have hpos : 0 < text.length := List.length_pos_iff.mpr htext
        have hsize := base64DecodedSize_add b64 hlen h.1
        simp only [hpos, show 1 < text.length by omega, true_and] at hsize
        have hbytes := decodeBytes_length text htext h.1 hb64 (Nat.zero_add _).symm
        show (decodeBytes text).1.length ≤ _
        omega
    · rw [decodeResult, if_neg h]
      exact Nat.zero_le _
  · by_contra hout
    rw [decodeResult, if_neg fun h => hout h.2] at hbytes
    exact hbytes rfl

/-- A group of padding in front of one of invalid characters, into four bytes. -/
theorem base64_decode_bounded_junk :
    ∃ (r : Int) (bytes : List UInt8),
      base64Decode 9 (some (.ofList ("AA==AA!!".toList.map chr))) 8 (some fun _ => 0) 6 =
        some (r, some (ByteMem.write (fun _ => 0) 0 bytes)) ∧ bytes.length ≤ 6 := by
  obtain ⟨r, bytes, hrun, hlen, -⟩ := base64_decode_bounded ("AA==AA!!".toList.map chr)
    (.ofList ("AA==AA!!".toList.map chr)) (fun _ => 0) 6 (by decide) (by decide)
  exact ⟨r, bytes, hrun 9 (by decide), hlen⟩

/-- Base64 text: whole groups of characters of the alphabet, the last one or two of which may be
padding instead. -/
def IsBase64 (text : List UInt8) : Prop :=
  4 ∣ text.length ∧ ∃ body pad, text = body ++ pad ∧ (∀ c ∈ body, c ∈ base64Table) ∧
    pad ∈ [[], [chr '='], [chr '=', chr '=']]

/-- Every group begins with two characters of the alphabet. -/
def OpensGroups (text : List UInt8) : Prop :=
  ∀ j c, text[j]? = some c → j % 4 < 2 → c ∈ base64Table

theorem IsBase64.opensGroups (h : IsBase64 text) : OpensGroups text := by
  obtain ⟨hfour, body, pad, rfl, hbody, hpad⟩ := h
  have htwo : pad.length ≤ 2 := by
    simp only [List.mem_cons, List.not_mem_nil, or_false] at hpad
    rcases hpad with rfl | rfl | rfl <;> decide
  intro j c hj hmod
  have hlt := (List.getElem?_eq_some_iff.mp hj).1
  rw [List.length_append] at hlt hfour
  rw [List.getElem?_append_left (by omega)] at hj
  exact hbody c (List.mem_of_getElem? hj)

theorem decodeBytes_opensGroups (text : List UInt8) (hfour : 4 ∣ text.length) :
    (decodeBytes text).2 = true ↔ OpensGroups text := by
  induction text using decodeBytes.induct with
  | case1 a b c d text hnone =>
    refine iff_of_false (by rw [decodeBytes, hnone]; exact Bool.false_ne_true) fun hopen => ?_
    have ha := (base64Value_nonneg a).mpr (hopen 0 a rfl (by decide))
    have hb := (base64Value_nonneg b).mpr (hopen 1 b rfl (by decide))
    unfold groupBytes at hnone
    rw [if_neg (by omega)] at hnone
    cases hnone
  | case2 a b c d text group hgroup ih =>
    have hopen : ¬ (base64Value a < 0 ∨ base64Value b < 0) := by
      intro h
      unfold groupBytes at hgroup
      rw [if_pos h] at hgroup
      cases hgroup
    rw [decodeBytes, hgroup]
    refine (ih (by simp at hfour; omega)).trans ⟨fun hrest j x hj hmod => ?_, fun h j x hj hmod => ?_⟩
    · match j with
      | 0 =>
        cases hj
        exact (base64Value_nonneg a).mp (by omega)
      | 1 =>
        cases hj
        exact (base64Value_nonneg b).mp (by omega)
      | j + 4 => exact hrest j x hj (by omega)
    · exact h (j + 4) x hj (by omega)
  | case3 text hshort =>
    obtain rfl := eq_nil_of_no_group hshort hfour
    exact iff_of_true rfl fun j c hj => by simp at hj

/-- The bytes of a text whose groups all begin with two characters of the alphabet: each group
gives one less than it has such characters. -/
def byteCount (text : List UInt8) : Nat :=
  text.countP (· ∈ base64Table) - text.length / 4

theorem decodeBytes_count (text : List UInt8) (hfour : 4 ∣ text.length)
    (hall : (decodeBytes text).2 = true) :
    (decodeBytes text).1.length + text.length / 4 = text.countP (· ∈ base64Table) := by
  induction text using decodeBytes.induct with
  | case1 a b c d text hnone =>
    rw [decodeBytes, hnone] at hall
    cases hall
  | case2 a b c d text group hgroup ih =>
    have hsize := groupBytes_length hgroup
    have hopen := (decodeBytes_opensGroups _ hfour).mp hall
    have ha := hopen 0 a rfl (by decide)
    have hb := hopen 1 b rfl (by decide)
    rw [decodeBytes, hgroup] at hall ⊢
    have hrest := ih (by simp at hfour; omega) hall
    simp only [base64Value_nonneg] at hsize
    simp only [List.countP_cons, List.length_append, List.length_cons, ha, hb, decide_true,
      decide_eq_true_eq, if_true]
    omega
  | case3 text hshort =>
    rw [eq_nil_of_no_group hshort hfour]
    rfl

/-- **What `base64_decode` accepts.** With a large enough buffer it returns a value that is not
negative for Base64 and `-1` for any other text, if and only if the bytes of a Base64 text can be
counted in an `int`, and a text of whole groups which is not Base64 has a group that does not
begin with two characters of the alphabet (or its bytes happen to count up to `-1`). -/
theorem base64_decode_accepts_iff (text : List UInt8) (b64 out : ByteMem) (outSize : Nat)
    (hlen : text.length < 2 ^ 64) (hb64 : b64.Holds 0 text)
    (hout : base64DecodedSize b64 text.length ≤ outSize) :
    ∃ (r : Int) (out' : ByteMem),
      (∀ fuel, text.length < fuel → base64Decode fuel (some b64) text.length (some out) outSize =
        some (r, some out')) ∧
      (((0 ≤ r ↔ IsBase64 text) ∧ (¬ IsBase64 text → r = -1)) ↔
        (IsBase64 text → byteCount text % 2 ^ 32 < 2 ^ 31) ∧
        (¬ IsBase64 text → 4 ∣ text.length → OpensGroups text →
          byteCount text % 2 ^ 32 = 2 ^ 32 - 1)) := by
  refine ⟨_, _, fun fuel hfuel => base64Decode_spec hlen hb64 hfuel, ?_⟩
  unfold decodeResult
  by_cases hfour : 4 ∣ text.length
  · rw [if_pos ⟨hfour, hout⟩]
    have hopens := decodeBytes_opensGroups text hfour
    by_cases hopen : OpensGroups text
    · have hcount : (decodeBytes text).1.length = byteCount text := by
        have hsum := decodeBytes_count text hfour (hopens.mpr hopen)
        unfold byteCount
        omega
      rw [if_pos (hopens.mpr hopen), hcount]
      by_cases hbase : IsBase64 text
      · simp only [hbase, iff_true, not_true, false_implies, and_true, true_implies]
        unfold toInt32
        split <;> omega
      · simp only [hbase, iff_false, not_false_iff, false_implies, true_and, true_implies, hfour,
          hopen]
        unfold toInt32
        split <;> omega
    · have hbase : ¬ IsBase64 text := fun h => hopen h.opensGroups
      rw [if_neg fun h => hopen (hopens.mp h)]
      simp [hbase, hopen]
  · have hbase : ¬ IsBase64 text := fun h => hfour h.1
    simp [hbase, hfour]

/-- A group of the alphabet is accepted, and it is Base64. -/
theorem base64_decode_accepts_iff_group :
    ∃ (r : Int) (out' : ByteMem),
      base64Decode 5 (some (.ofList ("AAAA".toList.map chr))) 4 (some fun _ => 0) 3 =
        some (r, some out') ∧
      byteCount ("AAAA".toList.map chr) = 3 ∧ IsBase64 ("AAAA".toList.map chr) ∧ 0 ≤ r := by
  have hbase : IsBase64 ("AAAA".toList.map chr) :=
    ⟨by decide, _, [], (List.append_nil _).symm, by simp [base64Table], by simp⟩
  obtain ⟨r, out', hrun, hiff⟩ := base64_decode_accepts_iff ("AAAA".toList.map chr)
    (.ofList ("AAAA".toList.map chr)) (fun _ => 0) 3 (by decide) (by decide) (by decide)
  exact ⟨r, out', hrun 5 (by decide), by decide, hbase,
    (hiff.mpr ⟨fun _ => by decide, fun h => absurd hbase h⟩).1.mpr hbase⟩

/-- `"AA!!"` is refused by nothing. -/
theorem base64_decode_accepts_junk :
    (∃ out', base64Decode 5 (some (.ofList ("AA!!".toList.map chr))) 4 (some fun _ => 0) 3 =
      some (1, some out')) ∧ ¬ IsBase64 ("AA!!".toList.map chr) := by
  refine ⟨⟨_, rfl⟩, ?_⟩
  rintro ⟨-, body, pad, htext, hbody, hpad⟩
  have hlast : chr '!' ∈ body ++ pad := by
    rw [← htext]
    decide
  rcases List.mem_append.mp hlast with h | h
  · exact absurd (hbody _ h) (by decide)
  · simp only [List.mem_cons, List.not_mem_nil, or_false] at hpad
    rcases hpad with rfl | rfl | rfl <;> exact absurd h (by decide)

end AnyText

end GosKernel.Base64
