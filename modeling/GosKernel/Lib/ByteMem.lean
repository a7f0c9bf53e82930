import Mathlib.Tactic.Ring
import Mathlib.Tactic.NormNum

/-!
# Byte-addressed memory

A memory is a total map from addresses to bytes. Multi-byte words are stored
little-endian, as on x86-64.

- `ByteMem.load m a n` / `ByteMem.store m a n v`: an `n`-byte word at `a`;
- `ByteMem.overlay m a n c`: the bytes of `[a, a + n)` replaced by those of
  another memory `c`, which is what mapping a frame at `a` does to the contents
  seen through `[a, a + n)`;
- `ByteMem.Holds m a l`: the bytes `l` stand at `a`;
- `ByteMem.write m a l`: the bytes `l` written at `a`;
- `ByteMem.Agree m m' a n`: the two memories hold the same bytes on
  `[a, a + n)`. Every frame lemma below is an instance of
  `load_congr : Agree m m' a n → load m a n = load m' a n`.
-/

namespace GosKernel

/-- Memory contents: one byte per address. -/
abbrev ByteMem := Nat → UInt8

namespace ByteMem

/-- The little-endian word of `n` bytes at address `a`. -/
def load (m : ByteMem) (a : Nat) : Nat → Nat
  | 0 => 0
  | n + 1 => (m a).toNat + 256 * load m (a + 1) n

/-- Write the low `n` bytes of `v` at address `a`, least significant first. -/
def store (m : ByteMem) (a n v : Nat) : ByteMem :=
  fun x => if a ≤ x ∧ x < a + n then UInt8.ofNat (v / 256 ^ (x - a)) else m x

/-- Replace the contents of `[a, a + n)` by those of `c` (indexed from `0`). -/
def overlay (m : ByteMem) (a n : Nat) (c : ByteMem) : ByteMem :=
  fun x => if a ≤ x ∧ x < a + n then c (x - a) else m x

/-- The two memories hold the same bytes on `[a, a + n)`. -/
def Agree (m m' : ByteMem) (a n : Nat) : Prop :=
  ∀ x, a ≤ x → x < a + n → m x = m' x

/-- The bytes `l` stand at `a`. -/
def Holds (m : ByteMem) (a : Nat) : List UInt8 → Prop
  | [] => True
  | b :: l => m a = b ∧ Holds m (a + 1) l

/-- The bytes `l` written at `a`. -/
def write (m : ByteMem) (a : Nat) : List UInt8 → ByteMem
  | [] => m
  | b :: l => write (fun x => if x = a then b else m x) (a + 1) l

/-- The bytes `l`, followed by zeros. -/
def ofList (l : List UInt8) : ByteMem := fun i => l.getD i 0

instance (m : ByteMem) : ∀ (a : Nat) (l : List UInt8), Decidable (m.Holds a l)
  | _, [] => inferInstanceAs (Decidable True)
  | a, _ :: l =>
    have := instDecidableHolds m (a + 1) l
    inferInstanceAs (Decidable (_ ∧ _))

/-! ## Agreement -/

theorem Agree.refl (m : ByteMem) (a n : Nat) : Agree m m a n :=
  fun _ _ _ => rfl

variable {a b k n v : Nat} {m m' : ByteMem}

theorem Agree.trans {m1 m2 m3 : ByteMem} (h : Agree m1 m2 a n)
    (h' : Agree m2 m3 a n) : Agree m1 m3 a n :=
  fun x h1 h2 => (h x h1 h2).trans (h' x h1 h2)

theorem Agree.mono (h : Agree m m' a n) (hlo : a ≤ b) (hhi : b + k ≤ a + n) : Agree m m' b k :=
  fun x h1 h2 => h x (by omega) (by omega)

theorem agree_store (h : a + n ≤ b ∨ b + k ≤ a) : Agree (m.store a n v) m b k := by
  intro x h1 h2
  show (if a ≤ x ∧ x < a + n then _ else m x) = m x
  rw [if_neg (by omega)]

/-! ## Loads -/

/-- The same bytes at another place. -/
theorem load_shift (h : ∀ i < n, m (a + i) = m' (b + i)) : m.load a n = m'.load b n := by
  induction n generalizing a b with
  | zero => rfl
  | succ n ih =>
    have htail : m.load (a + 1) n = m'.load (b + 1) n := ih fun i hi => by
      rw [Nat.add_assoc, Nat.add_assoc, Nat.add_comm 1 i]
      exact h (i + 1) (by omega)
    show (m a).toNat + 256 * m.load (a + 1) n = (m' b).toNat + 256 * m'.load (b + 1) n
    rw [show m a = m' b from h 0 n.succ_pos, htail]

theorem load_congr (h : Agree m m' a n) : m.load a n = m'.load a n :=
  load_shift fun i hi => h (a + i) (by omega) (by omega)

theorem store_shift {i : Nat} (h : m (a + i) = m' (b + i)) (o n v : Nat) :
    m.store (a + o) n v (a + i) = m'.store (b + o) n v (b + i) := by
  unfold store
  rw [h, show a + i - (a + o) = b + i - (b + o) by omega]
  by_cases hin : o ≤ i ∧ i < o + n
  · rw [if_pos (by omega), if_pos (by omega)]
  · rw [if_neg (by omega), if_neg (by omega)]

theorem load_lt (m : ByteMem) (a n : Nat) : m.load a n < 256 ^ n := by
  induction n generalizing a with
  | zero => exact Nat.one_pos
  | succ n ih =>
    have hb : (m a).toNat < 256 := (m a).toNat_lt
    have hr := ih (a + 1)
    show (m a).toNat + 256 * m.load (a + 1) n < 256 ^ (n + 1)
    omega

/-- The first byte of a stored word, and the word stored behind it. -/
theorem store_succ (m : ByteMem) (a n v : Nat) :
    m.store a (n + 1) v
      = (m.store a 1 v).store (a + 1) n (v / 256) := by
  funext x
  show (if a ≤ x ∧ x < a + (n + 1) then UInt8.ofNat (v / 256 ^ (x - a)) else m x)
    = if a + 1 ≤ x ∧ x < a + 1 + n then UInt8.ofNat (v / 256 / 256 ^ (x - (a + 1)))
      else if a ≤ x ∧ x < a + 1 then UInt8.ofNat (v / 256 ^ (x - a)) else m x
  by_cases hx : a + 1 ≤ x ∧ x < a + 1 + n
  · rw [if_pos (by omega), if_pos hx, Nat.div_div_eq_div_mul, ← pow_succ']
    congr 3
    omega
  · rw [if_neg hx]
    by_cases hx' : a ≤ x ∧ x < a + 1
    · rw [if_pos (by omega), if_pos hx']
    · rw [if_neg (by omega), if_neg hx']

theorem load_store_self (m : ByteMem) (a n v : Nat) : (m.store a n v).load a n = v % 256 ^ n := by
  induction n generalizing m a v with
  | zero => exact (Nat.mod_one v).symm
  | succ n ih =>
    have hbyte : (m.store a (n + 1) v) a = UInt8.ofNat v := by
      show (if a ≤ a ∧ a < a + (n + 1) then UInt8.ofNat (v / 256 ^ (a - a)) else m a) = _
      rw [if_pos ⟨Nat.le_refl a, by omega⟩, Nat.sub_self, pow_zero, Nat.div_one]
    show ((m.store a (n + 1) v) a).toNat + 256 * (m.store a (n + 1) v).load (a + 1) n = _
    rw [hbyte, store_succ, ih, UInt8.toNat_ofNat', pow_succ' 256 n, Nat.mod_mul]

theorem load_store_of_disjoint (h : a + n ≤ b ∨ b + k ≤ a) :
    (m.store a n v).load b k = m.load b k :=
  load_congr (agree_store h)

/-! ## Lists of bytes -/

theorem holds_append {l1 l2 : List UInt8} :
    m.Holds a (l1 ++ l2) ↔ m.Holds a l1 ∧ m.Holds (a + l1.length) l2 := by
  induction l1 generalizing a with
  | nil => exact ⟨fun h => ⟨trivial, h⟩, fun h => h.2⟩
  | cons b l1 ih =>
    show m a = b ∧ m.Holds (a + 1) (l1 ++ l2) ↔ _
    rw [ih, List.length_cons, show a + (l1.length + 1) = a + 1 + l1.length by omega, ← and_assoc]
    rfl

theorem write_append (m : ByteMem) (a : Nat) (l1 l2 : List UInt8) :
    m.write a (l1 ++ l2) = (m.write a l1).write (a + l1.length) l2 := by
  induction l1 generalizing m a with
  | nil => rfl
  | cons b l1 ih =>
    show write _ (a + 1) (l1 ++ l2) = _
    rw [ih, List.length_cons, show a + (l1.length + 1) = a + 1 + l1.length by omega]
    rfl

theorem write_outside {x : Nat} {l : List UInt8} (h : x < a ∨ a + l.length ≤ x) :
    m.write a l x = m x := by
  induction l generalizing m a with
  | nil => rfl
  | cons b l ih =>
    rw [List.length_cons] at h
    show write _ (a + 1) l x = m x
    rw [ih (by omega), if_neg (by omega)]

theorem holds_write (m : ByteMem) (a : Nat) (l : List UInt8) : (m.write a l).Holds a l := by
  induction l generalizing m a with
  | nil => trivial
  | cons b l ih =>
    constructor
    · show write _ (a + 1) l a = b
      rw [write_outside (Or.inl (Nat.lt_succ_self a)), if_pos rfl]
    · exact ih _ (a + 1)

/-! ## Copies -/

theorem load_copy (h : ∀ j, j < n → m' (b + j) = m (a + j)) : m'.load b n = m.load a n := by
  induction n generalizing a b with
  | zero => rfl
  | succ n ih =>
    have htail : m'.load (b + 1) n = m.load (a + 1) n := ih fun j hj => by
      rw [Nat.add_assoc, Nat.add_assoc, Nat.add_comm 1 j]
      exact h (j + 1) (by omega)
    show (m' b).toNat + 256 * m'.load (b + 1) n = (m a).toNat + 256 * m.load (a + 1) n
    rw [htail, show m' b = m a from h 0 (by omega)]

theorem Holds.copy {l : List UInt8} (hl : m.Holds a l)
    (h : ∀ j, j < l.length → m' (b + j) = m (a + j)) : m'.Holds b l := by
  induction l generalizing a b with
  | nil => trivial
  | cons x l ih =>
    rw [List.length_cons] at h
    refine ⟨(h 0 (by omega)).trans hl.1, ih hl.2 fun j hj => ?_⟩
    rw [Nat.add_assoc, Nat.add_assoc, Nat.add_comm 1 j]
    exact h (j + 1) (by omega)

/-! ## 64-bit words -/

/-- The 64-bit word at `a`. -/
def load64 (m : ByteMem) (a : Nat) : Nat := m.load a 8

/-- Write the 64-bit word `v` at `a`. -/
def store64 (m : ByteMem) (a v : Nat) : ByteMem := m.store a 8 v

theorem load64_lt (m : ByteMem) (a : Nat) : m.load64 a < 2 ^ 64 :=
  m.load_lt a 8

theorem load64_store64_self (hv : v < 2 ^ 64) : (m.store64 a v).load64 a = v := by
  rw [load64, store64, load_store_self]
  exact Nat.mod_eq_of_lt hv

theorem load64_store64_of_disjoint (h : a + 8 ≤ b ∨ b + 8 ≤ a) :
    (m.store64 a v).load64 b = m.load64 b :=
  load_store_of_disjoint h

theorem store64_outside {x : Nat} (h : x < a ∨ a + 8 ≤ x) : m.store64 a v x = m x :=
  if_neg (by omega)

theorem load64_congr (h : Agree m m' a 8) : m.load64 a = m'.load64 a :=
  load_congr h

theorem agree_store64 (h : a + 8 ≤ b ∨ b + k ≤ a) : Agree (m.store64 a v) m b k :=
  agree_store h

end ByteMem

end GosKernel
