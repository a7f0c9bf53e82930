import GosKernel.Defs
import GosKernel.Lib.Exec
import GosKernel.Lib.ByteMem

/-!
# Comparing and moving bytes (`src/lib/string.c`, `memcmp.c`, `memmove.c`)

A pointer is a memory and an address in it. The arguments of one call may point into
different memories: the table of a driver, an image, the string of a caller.

- `strcmp_strings`: `strcmp` returns on two strings, and returns `0` on equal ones only;
- `memcmp_same`: `memcmp` of equal bytes is `0`;
- `memmove_correct`: `memmove` copies, however the two ranges overlap.
-/

namespace GosKernel.Strings

open List

/-- `strcmp` (string.c:11-17). The loop has no bound of its own. -/
def strcmp (m1 m2 : ByteMem) : (fuel s1 s2 : Nat) → Option Int
  | 0, _, _ => none
  | fuel + 1, s1, s2 =>
    if m1 s1 ≠ 0 ∧ m1 s1 = m2 s2 then strcmp m1 m2 fuel (s1 + 1) (s2 + 1)
    else some ((m1 s1).toNat - (m2 s2).toNat)

/-- `memcmp` (memcmp.c:5-14), with `n` bytes left to compare. -/
def memcmp (m1 m2 : ByteMem) : (n s1 s2 : Nat) → Int
  | 0, _, _ => 0
  | n + 1, s1, s2 =>
    if m1 s1 ≠ m2 s2 then (m1 s1).toNat - (m2 s2).toNat
    else memcmp m1 m2 n (s1 + 1) (s2 + 1)

/-- The string and its terminator stand at `a`. -/
def IsString (m : ByteMem) (a : Nat) (s : CString) : Prop := m.Holds a (s.bytes ++ [0])

instance (m : ByteMem) (a : Nat) (s : CString) : Decidable (IsString m a s) :=
  inferInstanceAs (Decidable (m.Holds a (s.bytes ++ [0])))

variable {m1 m2 : ByteMem} {a b : Nat}

/-- At most one string stands at an address. -/
theorem bytes_unique {l1 l2 : List UInt8} (hl1 : 0 ∉ l1) (hl2 : 0 ∉ l2)
    (h1 : m1.Holds a (l1 ++ [0])) (h2 : m1.Holds a (l2 ++ [0])) : l1 = l2 := by
  induction l1 generalizing l2 a with
  | nil =>
    cases l2 with
    | nil => rfl
    | cons y l2 =>
      refine absurd ?_ hl2
      rw [← show m1 a = 0 from h1.1, show m1 a = y from h2.1]
      exact mem_cons_self
  | cons x l1 ih =>
    cases l2 with
    | nil =>
      refine absurd ?_ hl1
      rw [← show m1 a = 0 from h2.1, show m1 a = x from h1.1]
      exact mem_cons_self
    | cons y l2 =>
      rw [← show m1 a = x from h1.1, show m1 a = y from h2.1,
        ih (not_mem_of_not_mem_cons hl1) (not_mem_of_not_mem_cons hl2) h1.2 h2.2]

/-- A string that stands once more `k` bytes behind itself is shorter than that. -/
theorem IsString.length_lt {s : CString} {k : Nat} (hk : 0 < k) (h : IsString m1 a s)
    (h' : IsString m1 (a + k) s) : s.bytes.length < k := by
  by_contra hlong
  have hle : k ≤ s.bytes.length := Nat.not_lt.mp hlong
  have hsplit : m1.Holds a (s.bytes.take k ++ (s.bytes.drop k ++ [0])) := by
    rw [← append_assoc, take_append_drop]
    exact h
  have htail := (ByteMem.holds_append.mp hsplit).2
  rw [length_take_of_le hle] at htail
  have heq := bytes_unique (fun hmem => s.nul_free (mem_of_mem_drop hmem)) s.nul_free htail h'
  have hlen := congrArg List.length heq
  rw [length_drop] at hlen
  omega

theorem memcmp_same {l : List UInt8} (h1 : m1.Holds a l) (h2 : m2.Holds b l) :
    memcmp m1 m2 l.length a b = 0 := by
  induction l generalizing a b with
  | nil => rfl
  | cons x l ih =>
    show (if m1 a ≠ m2 b then _ else _) = (0 : Int)
    rw [if_neg (not_not_intro (h1.1.trans h2.1.symm)), ih h1.2 h2.2]

/-- The first byte of a string and of what follows it. -/
theorem strcmp_bytes {l1 l2 : List UInt8} (hl1 : 0 ∉ l1) (hl2 : 0 ∉ l2)
    (h1 : m1.Holds a (l1 ++ [0])) (h2 : m2.Holds b (l2 ++ [0])) {fuel : Nat}
    (hfuel : l1.length < fuel) : ∃ r, strcmp m1 m2 fuel a b = some r ∧ (r = 0 ↔ l1 = l2) := by
  induction l1 generalizing l2 a b fuel with
  | nil =>
    obtain ⟨fuel, rfl⟩ := fuel_succ hfuel
    have hend : m1 a = 0 := h1.1
    refine ⟨_, if_neg fun h => h.1 hend, ?_⟩
    rw [hend]
    cases l2 with
    | nil => simp [show m2 b = 0 from h2.1]
    | cons y l2 =>
      -- the first string ends where the second goes on
      have hy : m2 b ≠ 0 := fun hy => hl2 (by rw [← hy, show m2 b = y from h2.1]; simp)
      have hpos : (m2 b).toNat ≠ 0 := fun h => hy (UInt8.toNat_inj.mp h)
      simp only [reduceCtorEq, iff_false]
      show ((0 : Nat) : Int) - _ ≠ 0
      omega
  | cons x l1 ih =>
    obtain ⟨fuel, rfl⟩ := fuel_succ hfuel
    have hx : m1 a = x := h1.1
    have hx0 : m1 a ≠ 0 := fun h => hl1 (by rw [← h, hx]; simp)
    by_cases hsame : m1 a = m2 b
    · cases l2 with
      | nil => exact absurd (hsame.trans h2.1) hx0
      | cons y l2 =>
        have hxy : x = y := hx.symm.trans (hsame.trans h2.1)
        obtain ⟨r, hr, hiff⟩ := ih (not_mem_of_not_mem_cons hl1)
          (not_mem_of_not_mem_cons hl2) h1.2 h2.2 (Nat.lt_of_succ_lt_succ hfuel)
        refine ⟨r, (if_pos ⟨hx0, hsame⟩).trans hr, hiff.trans ?_⟩
        rw [hxy, cons_inj_right]
    · refine ⟨_, if_neg fun h => hsame h.2, ?_⟩
      have hne : (m1 a).toNat ≠ (m2 b).toNat := fun h => hsame (UInt8.toNat_inj.mp h)
      constructor
      · intro h
        omega
      · rintro rfl
        exact absurd (hx.trans h2.1.symm) hsame

theorem strcmp_strings {s t : CString} (hs : IsString m1 a s) (ht : IsString m2 b t) {fuel : Nat}
    (hfuel : s.bytes.length < fuel) : ∃ r, strcmp m1 m2 fuel a b = some r ∧ (r = 0 ↔ s = t) := by
  obtain ⟨r, hr, hiff⟩ := strcmp_bytes s.nul_free t.nul_free hs ht hfuel
  exact ⟨r, hr, hiff.trans ⟨fun h => by cases s; cases t; cases h; rfl, fun h => h ▸ rfl⟩⟩

/-- `strcmp` with a string returns, whatever it is compared with, and returns `0` if that is the
same string. -/
theorem strcmp_returns {s : CString} (hs : IsString m2 b s) :
    ∃ r, (r = 0 ↔ IsString m1 a s) ∧
      ∀ fuel, s.bytes.length < fuel → strcmp m1 m2 fuel a b = some r := by
  obtain ⟨l, hl⟩ := s
  replace hs : m2.Holds b (l ++ [0]) := hs
  unfold IsString
  dsimp only
  have hdiff : (m1 a).toNat - (m2 b).toNat = (0 : Int) ↔ m1 a = m2 b := by
    rw [← UInt8.toNat_inj]
    omega
  induction l generalizing a b with
  | nil =>
    refine ⟨(m1 a).toNat - (m2 b).toNat, ?_, fun fuel hfuel => ?_⟩
    · rw [hdiff, show m2 b = 0 from hs.1]
      exact (and_iff_left trivial).symm
    · obtain ⟨fuel, rfl⟩ := fuel_succ hfuel
      exact if_neg fun h => h.1 (h.2.trans hs.1)
  | cons x l ih =>
    have hx : m2 b = x := hs.1
    have hx0 : x ≠ 0 := fun h => hl (h ▸ mem_cons_self)
    by_cases hsame : m1 a = m2 b
    · obtain ⟨r, hiff, hr⟩ := ih (a := a + 1) (not_mem_of_not_mem_cons hl) hs.2 (by
        rw [← UInt8.toNat_inj]
        omega)
      refine ⟨r, hiff.trans (and_iff_right (hsame.trans hx)).symm, fun fuel hfuel => ?_⟩
      obtain ⟨fuel, rfl⟩ := fuel_succ hfuel
      exact (if_pos ⟨fun h => hx0 (hx.symm.trans (hsame.symm.trans h)), hsame⟩).trans
        (hr fuel (Nat.lt_of_succ_lt_succ hfuel))
    · refine ⟨(m1 a).toNat - (m2 b).toNat, hdiff.trans ?_, fun fuel hfuel => ?_⟩
      · exact iff_of_false hsame fun h => hsame (h.1.trans hx.symm)
      · obtain ⟨fuel, rfl⟩ := fuel_succ hfuel
        exact if_neg fun h => hsame h.2

/-! ## Copying under overlap (`src/lib/memmove.c`) -/

/-- `d[i] = s[i]`. -/
def copyByte (dest src : Nat) (m : ByteMem) (i : Nat) : ByteMem :=
  Function.update m (wrap64 (dest + i)) (m (wrap64 (src + i)))

/-- `memmove` (memmove.c:5-19): upwards if the destination is below the source, downwards if it
is above it. -/
def memmove (m : ByteMem) (dest src n : Nat) : ByteMem :=
  if dest < src then (range n).foldl (copyByte dest src) m
  else if src < dest then (range n).reverse.foldl (copyByte dest src) m
  else m

/-- The bytes from `lo` to `hi` are those of the source in `m`, and the others are as they were. -/
def Moved (m m' : ByteMem) (dest src lo hi : Nat) : Prop :=
  ∀ x, m' x = if dest + lo ≤ x ∧ x < dest + hi then m (src + (x - dest)) else m x

variable {m m' : ByteMem} {dest src lo hi n i : Nat}

/-- A byte whose source was not overwritten yet joins the interval. -/
theorem Moved.copyByte (h : Moved m m' dest src lo hi) (hdest : dest + i < 2 ^ 64)
    (hsrc : src + i < 2 ^ 64) (hread : src + i < dest + lo ∨ dest + hi ≤ src + i) (x : Nat) :
    copyByte dest src m' i x = if x = dest + i then m (src + i)
      else if dest + lo ≤ x ∧ x < dest + hi then m (src + (x - dest)) else m x := by
  have hsource : m' (src + i) = m (src + i) := (h _).trans (if_neg (by omega))
  rw [Strings.copyByte, wrap64_of_lt hdest, wrap64_of_lt hsrc, Function.update_apply, hsource, h x]

theorem moved_up (hlt : dest < src) (hdest : dest + n ≤ 2 ^ 64) (hsrc : src + n ≤ 2 ^ 64) :
    Moved m ((range n).foldl (copyByte dest src) m) dest src 0 n := by
  induction n with
  | zero => exact fun x => (if_neg (by omega)).symm
  | succ n ih =>
    intro x
    rw [range_succ, foldl_append]
    refine ((ih (by omega) (by omega)).copyByte (by omega) (by omega) (.inr (by omega)) x).trans ?_
    by_cases hx : x = dest + n
    · rw [if_pos hx, if_pos (by omega), hx, Nat.add_sub_cancel_left]
    · rw [if_neg hx]
      exact if_congr (by omega) rfl rfl

theorem moved_down (hlt : src < dest) (hdest : dest + n ≤ 2 ^ 64) (hi : i ≤ n)
    (h : Moved m m' dest src i n) :
    Moved m ((range i).reverse.foldl (copyByte dest src) m') dest src 0 n := by
  induction i generalizing m' with
  | zero => exact h
  | succ i ih =>
    rw [range_succ, reverse_append, reverse_singleton, singleton_append]
    refine ih (by omega) fun x => ?_
    rw [h.copyByte (by omega) (by omega) (.inl (by omega))]
    by_cases hx : x = dest + i
    · rw [if_pos hx, if_pos (by omega), hx, Nat.add_sub_cancel_left]
    · rw [if_neg hx]
      exact if_congr (by omega) rfl rfl

/-- **`memmove` copies under any overlap**, and writes nothing else. -/
theorem memmove_correct (m : ByteMem) (hdest : dest + n ≤ 2 ^ 64) (hsrc : src + n ≤ 2 ^ 64) :
    (∀ i, i < n → memmove m dest src n (dest + i) = m (src + i)) ∧
      ∀ x, x < dest ∨ dest + n ≤ x → memmove m dest src n x = m x := by
  have hmoved : Moved m (memmove m dest src n) dest src 0 n := by
    unfold memmove
    split
    · exact moved_up ‹_› hdest hsrc
    · split
      · exact moved_down ‹_› hdest le_rfl fun x => (if_neg (by omega)).symm
      · obtain rfl : dest = src := by omega
        intro x
        split
        · rw [Nat.add_sub_cancel' (by omega)]
        · rfl
  refine ⟨fun i hi => ?_, fun x hx => ?_⟩
  · rw [hmoved, if_pos (by omega), Nat.add_sub_cancel_left]
  · rw [hmoved, if_neg (by omega)]

/-- Four bytes move up by one. -/
theorem memmove_correct_overlap :
    (∀ i, i < 4 → memmove (ByteMem.ofList [1, 2, 3, 4, 5]) 1 0 4 (1 + i) =
        ByteMem.ofList [1, 2, 3, 4, 5] (0 + i)) ∧
      ∀ x, x < 1 ∨ 1 + 4 ≤ x → memmove (ByteMem.ofList [1, 2, 3, 4, 5]) 1 0 4 x =
        ByteMem.ofList [1, 2, 3, 4, 5] x :=
  memmove_correct _ (by norm_num) (by norm_num)

end GosKernel.Strings
