import GosKernel.Defs
import GosKernel.Lib.ByteMem
import GosKernel.Lib.Exec
import GosKernel.Lib.Sorting

/-!
# Arrays of elements (`lib/sort.c`)

The sorting functions see an array through two operations: they hand two elements to the
comparison function, and they exchange two elements with `swap`. `ElemMachine` is that
interface; pointers into the array are element positions.
-/

namespace GosKernel.Sort

open Exec Sorting

/-! ## The interface -/

/-- What is done with an array, by element positions. -/
structure ElemMachine (σ : Type) where
  /-- `cmp(&arr[a * size], &arr[b * size])`. -/
  cmp : (a b : Nat) → Exec σ Int
  /-- `swap(&arr[a * size], &arr[b * size], size)`. -/
  swap : (a b : Nat) → Exec σ Unit

/-- The positions from `base` on hold an array of `n` elements. -/
structure ArrayView {σ α : Type} (M : ElemMachine σ) (cmp : α → α → Int) (base n : Nat) where
  Holds : σ → (Nat → α) → Prop
  compare : ∀ {s f i j}, Holds s f → i < n → j < n →
    Returns (M.cmp (base + i) (base + j)) s (cmp (f i) (f j)) s
  exchange : ∀ {s f i j}, Holds s f → i < n → j < n → i ≠ j →
    ∃ s', Returns (M.swap (base + i) (base + j)) s () s' ∧ Holds s' (f ∘ Equiv.swap i j)

/-! ## Bytes -/

/-- A byte of the array that fills `[lo, hi)`. -/
def loadByte (lo hi a : Nat) : Exec ByteMem UInt8 := fun m =>
  if lo ≤ a ∧ a < hi then some (m a, m) else none

def storeByte (lo hi a : Nat) (v : UInt8) : Exec ByteMem Unit := fun m =>
  if lo ≤ a ∧ a < hi then some ((), Function.update m a v) else none

/-- `swap` (sort.c:6-15), inside of `[lo, hi)`. -/
def swap (lo hi a b size : Nat) : Exec ByteMem Unit :=
  Exec.forRange 0 size fun i => do
    let tmp ← loadByte lo hi (a + i)
    let byte ← loadByte lo hi (b + i)
    storeByte lo hi (a + i) byte
    storeByte lo hi (b + i) tmp

/-- Element `k` of the array at `base`. -/
def elem (base size : Nat) (m : ByteMem) (k : Nat) : Fin size → UInt8 := fun b =>
  m (base + k * size + b)

/-- `total` elements of `size` bytes at `base`. -/
def bytes (base size total : Nat) (cmp : (Fin size → UInt8) → (Fin size → UInt8) → Int) :
    ElemMachine ByteMem where
  cmp a b := fun m =>
    if a < total ∧ b < total then some (cmp (elem base size m a) (elem base size m b), m) else none
  swap a b := swap base (base + total * size) (base + a * size) (base + b * size) size

/-! ## Exchanging two elements -/

/-- Memory with the first `i` bytes at `a` and at `b` exchanged. -/
def exchanged (m : ByteMem) (a b i : Nat) : ByteMem := fun x =>
  if a ≤ x ∧ x < a + i then m (b + (x - a))
  else if b ≤ x ∧ x < b + i then m (a + (x - b)) else m x

theorem exchanged_succ {m : ByteMem} {a b i size : Nat} (hi : i < size)
    (hab : a + size ≤ b ∨ b + size ≤ a) :
    Function.update (Function.update (exchanged m a b i) (a + i) (exchanged m a b i (b + i)))
      (b + i) (exchanged m a b i (a + i)) = exchanged m a b (i + 1) := by
  -- the bytes of this round have not been touched before
  have ha : exchanged m a b i (a + i) = m (a + i) := by
    rw [exchanged, if_neg (by omega), if_neg (by omega)]
  have hb : exchanged m a b i (b + i) = m (b + i) := by
    rw [exchanged, if_neg (by omega), if_neg (by omega)]
  rw [ha, hb]
  funext x
  rw [Function.update_apply, Function.update_apply]
  by_cases hxb : x = b + i
  · rw [if_pos hxb, exchanged, if_neg (by omega), if_pos (by omega)]
    exact congrArg m (by omega)
  rw [if_neg hxb]
  by_cases hxa : x = a + i
  · rw [if_pos hxa, exchanged, if_pos (by omega)]
    exact congrArg m (by omega)
  rw [if_neg hxa]
  have hina : (a ≤ x ∧ x < a + (i + 1)) ↔ (a ≤ x ∧ x < a + i) := by omega
  have hinb : (b ≤ x ∧ x < b + (i + 1)) ↔ (b ≤ x ∧ x < b + i) := by omega
  simp only [exchanged, hina, hinb]

/-- **`swap`** exchanges the bytes of two elements. -/
theorem swap_spec {lo hi a b size : Nat} (ha : lo ≤ a ∧ a + size ≤ hi)
    (hb : lo ≤ b ∧ b + size ≤ hi) (hab : a + size ≤ b ∨ b + size ≤ a) (m : ByteMem) :
    Returns (swap lo hi a b size) m () (exchanged m a b size) := by
  have hload : ∀ x, lo ≤ x ∧ x < hi → ∀ m, Returns (loadByte lo hi x) m (m x) m :=
    fun x hx m => if_pos hx
  have hstore : ∀ x, lo ≤ x ∧ x < hi → ∀ v m,
      Returns (storeByte lo hi x v) m () (Function.update m x v) := fun x hx v m => if_pos hx
  have hround : ∀ i, 0 ≤ i → i < 0 + size → Triple (fun s => s = exchanged m a b i)
      (do
        let tmp ← loadByte lo hi (a + i)
        let byte ← loadByte lo hi (b + i)
        storeByte lo hi (a + i) byte
        storeByte lo hi (b + i) tmp) fun _ s => s = exchanged m a b (i + 1) := by
    rintro i - hi' s rfl
    have hia : lo ≤ a + i ∧ a + i < hi := by omega
    have hib : lo ≤ b + i ∧ b + i < hi := by omega
    refine ⟨(), _, ?_, exchanged_succ (show i < size by omega) hab⟩
    rw [Returns, (hload _ hia _).bind_eq, (hload _ hib _).bind_eq,
      (hstore _ hia _ _).bind_eq]
    exact hstore _ hib _ _
  have hloop := Triple.forRange (I := fun i s => s = exchanged m a b i) hround
  have hstart : m = exchanged m a b 0 := by
    funext x
    rw [exchanged, if_neg (by omega), if_neg (by omega)]
  obtain ⟨⟨⟩, s', hret, hs'⟩ := hloop m hstart
  rw [Nat.zero_add] at hs'
  rw [← hs']
  exact hret

section Elem

variable {base size : Nat} {m : ByteMem}

/-- Elements at different positions do not overlap. -/
theorem elem_apart (base size : Nat) {a b : Nat} (h : a ≠ b) :
    base + a * size + size ≤ base + b * size ∨ base + b * size + size ≤ base + a * size := by
  rcases Nat.lt_or_gt_of_ne h with hlt | hlt
  · have := Nat.mul_le_mul_right size hlt
    rw [Nat.succ_mul] at this
    omega
  · have := Nat.mul_le_mul_right size hlt
    rw [Nat.succ_mul] at this
    omega

theorem elem_inside (base size : Nat) {a total : Nat} (h : a < total) :
    base ≤ base + a * size ∧ base + a * size + size ≤ base + total * size := by
  have := Nat.mul_le_mul_right size h
  rw [Nat.succ_mul] at this
  omega

/-- Exchanging the bytes of two elements exchanges the elements. -/
theorem elem_exchanged {a b : Nat} (hab : a ≠ b) (k : Nat) :
    elem base size (exchanged m (base + a * size) (base + b * size) size) k =
      elem base size m (Equiv.swap a b k) := by
  funext x
  unfold elem exchanged
  have happ := elem_apart base size hab
  by_cases hka : k = a
  · rw [hka, Equiv.swap_apply_left, if_pos (by omega)]
    exact congrArg m (by omega)
  by_cases hkb : k = b
  · rw [hkb, Equiv.swap_apply_right, if_neg (by omega), if_pos (by omega)]
    exact congrArg m (by omega)
  · have hapa := elem_apart base size hka
    have hapb := elem_apart base size hkb
    rw [Equiv.swap_apply_of_ne_of_ne hka hkb, if_neg (by omega), if_neg (by omega)]

end Elem

/-- From `m0` on nothing changed but the elements of positions `[lo, lo + n)`. -/
def Framed (base size lo n : Nat) (m0 m : ByteMem) : Prop :=
  ∀ x, x < base + lo * size ∨ base + (lo + n) * size ≤ x → m x = m0 x

/-- The elements of positions `[lo, lo + n)`. -/
def elements (base size lo n : Nat) (m : ByteMem) : List (Fin size → UInt8) :=
  segment (fun k => elem base size m (lo + k)) n

section Framed

variable {base size lo n : Nat} {m0 m1 m : ByteMem}

theorem Framed.refl (base size lo n : Nat) (m : ByteMem) : Framed base size lo n m m :=
  fun _ _ => rfl

theorem Framed.trans (h : Framed base size lo n m0 m1) (h' : Framed base size lo n m1 m) :
    Framed base size lo n m0 m :=
  fun x hx => (h' x hx).trans (h x hx)

theorem Framed.mono {lo' n' : Nat} (h : Framed base size lo n m0 m) (hlo : lo' ≤ lo)
    (hhi : lo + n ≤ lo' + n') : Framed base size lo' n' m0 m := by
  intro x hx
  have h1 := Nat.mul_le_mul_right size hlo
  have h2 := Nat.mul_le_mul_right size hhi
  exact h x (by omega)

end Framed

/-- Positions from `lo` on hold `f`. -/
def HoldsAt (base size lo n : Nat) (m : ByteMem) (f : Nat → Fin size → UInt8) : Prop :=
  ∀ k, k < n → elem base size m (lo + k) = f k

/-- Memory that holds `f` at the positions from `lo` on, and is `m0` elsewhere. -/
def bytesView (m0 : ByteMem) {base size total : Nat}
    {cmp : (Fin size → UInt8) → (Fin size → UInt8) → Int} {lo n : Nat} (hn : lo + n ≤ total) :
    ArrayView (bytes base size total cmp) cmp lo n where
  Holds m f := HoldsAt base size lo n m f ∧ Framed base size lo n m0 m
  compare := by
    intro m f i j hm hi hj
    rw [← hm.1 i hi, ← hm.1 j hj]
    exact if_pos ⟨by omega, by omega⟩
  exchange := by
    rintro m f i j ⟨helem, hframe⟩ hi hj hij
    have hne : lo + i ≠ lo + j := by omega
    refine ⟨_, swap_spec (elem_inside base size (by omega)) (elem_inside base size (by omega))
      (elem_apart base size hne) m, fun k hk => ?_, fun x hx => ?_⟩
    · rw [elem_exchanged hne]
      -- the exchange is one of positions of the whole array
      have hshift : Equiv.swap (lo + i) (lo + j) (lo + k) = lo + Equiv.swap i j k := by
        simp only [Equiv.swap_apply_def, Nat.add_left_cancel_iff]
        split_ifs <;> rfl
      rw [hshift]
      have hwithin : Within (Equiv.swap i j) 0 n := .swap (by omega) (by omega)
      exact helem _ ((hwithin.lt_iff k).mpr hk)
    · rw [← hframe x hx, exchanged]
      -- both elements lie between the bounds, so that `x` is in neither
      have hin : ∀ k, k < n → base + lo * size ≤ base + (lo + k) * size ∧
          base + (lo + k) * size + size ≤ base + (lo + n) * size := by
        intro k hk
        have h1 := Nat.mul_le_mul_right size (show lo ≤ lo + k by omega)
        have h2 := (elem_inside base size (show lo + k < lo + n by omega)).2
        omega
      have h1 := hin i hi
      have h2 := hin j hj
      rw [if_neg (by omega), if_neg (by omega)]

/-! ## Single bytes -/

/-- Elements of one byte, by their value. -/
def byteCmp (a b : Fin 1 → UInt8) : Int := (a 0).toNat - (b 0).toNat

theorem byteCmp_comparator : Comparator byteCmp where
  flip a b := by
    unfold byteCmp
    omega
  trans a b c := by
    unfold byteCmp
    omega

end GosKernel.Sort
