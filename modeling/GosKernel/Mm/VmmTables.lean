import Mathlib.Data.Finset.Card
import Mathlib.Data.Nat.Bitwise
import GosKernel.Lib.TableTree
import GosKernel.Mm.Vmm

/-!
# Page tables as a tree

What the VMM code does to the tables, on any machine that keeps the promises it
relies on (`TableView`): the table in frame `P` is reached at `P + KERNEL_VBASE`, and
`pmm_alloc_page` hands out frames nobody else uses. On such a machine the tables form
a tree of distinct frames (`Tables`), and the functions are seen to do what they are
for: `vmmMapPage_spec` and `vmmUnmapPage_spec` say how the translation of every
address changes, `vmmGetPhys_spec` and `vmmIsMapped_spec` that it is what the code
reads off the tables.
-/

namespace GosKernel.Mm

open Exec TableTree List

/-! ## Entries -/

theorem pageMask_eq {x : Nat} (h : x < 2 ^ 64) : pageMask x = x / 4096 * 4096 := by
  have hmask : (0xFFFFFFFFFFFFF000 : Nat) = (2 ^ 52 - 1) <<< 12 := by decide
  have hx : x / 4096 * 4096 = (x >>> 12) <<< 12 := by
    rw [Nat.shiftRight_eq_div_pow, Nat.shiftLeft_eq]
  unfold pageMask
  rw [hmask, hx]
  refine Nat.eq_of_testBit_eq fun i => ?_
  rw [Nat.testBit_and, Nat.testBit_shiftLeft, Nat.testBit_shiftLeft, Nat.testBit_two_pow_sub_one,
    Nat.testBit_shiftRight]
  by_cases hlo : 12 ≤ i
  · rw [show 12 + (i - 12) = i by omega]
    by_cases hhi : i < 64
    · simp [hlo, show i - 12 < 52 by omega]
    · have hbit : x.testBit i = false := Nat.testBit_lt_two_pow
        (lt_of_lt_of_le h (Nat.pow_le_pow_right (by norm_num) (by omega)))
      simp [hbit]
  · simp [hlo]

theorem present_iff (x : Nat) : x &&& pagePresent ≠ 0 ↔ x % 2 = 1 := by
  unfold pagePresent
  rw [Nat.and_one_is_mod]
  omega

theorem or_of_aligned {P x : Nat} (hP : P % 4096 = 0) (hx : x < 4096) : P ||| x = P + x := by
  have h := Nat.two_pow_add_eq_or_of_lt (i := 12) hx (P / 4096)
  rw [show 2 ^ 12 * (P / 4096) = P by omega] at h
  exact h.symm

/-- The frame a present entry refers to. -/
def entryFrame (x : Nat) : Option Nat :=
  if x &&& pagePresent ≠ 0 then some (pageMask x) else none

theorem entryFrame_zero : entryFrame 0 = none := by
  unfold entryFrame
  simp

theorem entryFrame_of_flags {P x : Nat} (hP : P % 4096 = 0) (hP64 : P < 2 ^ 64) (hx : x < 4096)
    (hodd : x % 2 = 1) : P ||| x < 2 ^ 64 ∧ entryFrame (P ||| x) = some P := by
  rw [or_of_aligned hP hx]
  have hlt : P + x < 2 ^ 64 := by omega
  refine ⟨hlt, ?_⟩
  unfold entryFrame
  rw [if_pos ((present_iff _).mpr (by omega)), pageMask_eq hlt]
  congr 1
  omega

theorem entryFrame_table {P : Nat} (hP : P % 4096 = 0) (hP64 : P < 2 ^ 64) :
    P ||| (pagePresent ||| pageWritable) < 2 ^ 64 ∧
      entryFrame (P ||| (pagePresent ||| pageWritable)) = some P :=
  entryFrame_of_flags hP hP64 (by decide) (by decide)

theorem entryFrame_leaf {phys : Nat} (flags : Nat) (hphys : phys < 2 ^ 64) :
    pageMask phys ||| (flags &&& 0xFFF) ||| pagePresent < 2 ^ 64 ∧
      entryFrame (pageMask phys ||| (flags &&& 0xFFF) ||| pagePresent) = some (pageMask phys) := by
  have hlt : (flags &&& 0xFFF) ||| pagePresent < 4096 :=
    Nat.or_lt_two_pow (n := 12) (Nat.and_lt_two_pow _ (by norm_num)) (by decide)
  have hodd : ((flags &&& 0xFFF) ||| pagePresent) % 2 = 1 := by
    simp [pagePresent]
  rw [Nat.or_assoc]
  refine entryFrame_of_flags ?_ ?_ hlt hodd <;> rw [pageMask_eq hphys] <;> omega

/-! ## Indices -/

theorem vmmVirtToIndex_eq (virt level : Nat) :
    vmmVirtToIndex virt level = virt / 2 ^ (12 + level * 9) % 512 := by
  unfold vmmVirtToIndex
  rw [Nat.shiftRight_eq_div_pow]
  exact Nat.and_two_pow_sub_one_eq_mod _ 9

/-- The index of `virt` in a table of the level. -/
def indexAt (virt level : Nat) : Fin 512 :=
  ⟨vmmVirtToIndex virt level, by rw [vmmVirtToIndex_eq]; exact Nat.mod_lt _ (by norm_num)⟩

/-- The path of the page table of `virt`, deepest index first. -/
def tablePath (virt : Nat) : List (Fin 512) := [indexAt virt 1, indexAt virt 2, indexAt virt 3]

/-- The page number the tables tell apart: bits 12 to 47 of the address. -/
def pageNumber (virt : Nat) : Nat := virt / 4096 % 2 ^ 36

/-- A number modulo a product, the lower part first. -/
theorem mod_mul_eq_iff (a b v w : Nat) :
    v % (a * b) = w % (a * b) ↔ v % a = w % a ∧ v / a % b = w / a % b := by
  constructor
  · intro h
    constructor
    · rw [← Nat.mod_mul_right_mod v a b, h, Nat.mod_mul_right_mod]
    · rw [← Nat.mod_mul_right_div_self v a b, h, Nat.mod_mul_right_div_self]
  · rintro ⟨hlow, hhigh⟩
    rw [Nat.mod_mul, Nat.mod_mul, hlow, hhigh]

/-- Two addresses share all indices iff they share the page number. -/
theorem tablePath_eq_iff (v w : Nat) :
    (tablePath v = tablePath w ∧ indexAt v 0 = indexAt w 0) ↔ pageNumber v = pageNumber w := by
  -- the page number has four digits, one for each level
  have hdigits : pageNumber v = pageNumber w ↔
      (v / 2 ^ 12 % 512 = w / 2 ^ 12 % 512 ∧ v / 2 ^ 21 % 512 = w / 2 ^ 21 % 512) ∧
        v / 2 ^ 30 % 512 = w / 2 ^ 30 % 512 ∧ v / 2 ^ 39 % 512 = w / 2 ^ 39 % 512 := by
    unfold pageNumber
    rw [show 2 ^ 36 = 512 * 512 * (512 * 512) from rfl, mod_mul_eq_iff, mod_mul_eq_iff,
      mod_mul_eq_iff]
    simp only [Nat.div_div_eq_div_mul]
    norm_num only
  rw [hdigits]
  simp only [tablePath, indexAt, List.cons.injEq, Fin.mk.injEq, vmmVirtToIndex_eq, and_true]
  tauto

/-! ## The machine -/

/-- What reading the tables relies on: table frames are reached through the window. -/
structure TableReads {σ : Type} (M : Machine σ) where
  /-- Entry `i` of the table in frame `P`. -/
  ent : σ → Nat → Fin 512 → Nat
  /-- The frames the window reaches. -/
  ok : Nat → Prop
  /-- The frames the allocator may still hand out. -/
  Free : σ → Nat → Prop
  Good : σ → Prop
  ok_page : ∀ {P}, ok P → P % 4096 = 0 ∧ P + kernelVbase < 2 ^ 64
  load : ∀ {s P} (i : Fin 512), Good s → ok P →
    M.load64 (P + kernelVbase + 8 * i) s = some (ent s P i, s)

/-- What editing the tables relies on: writes through the window go where reads come
from, and frames come from an allocator that hands out no frame twice. -/
structure TableView {σ : Type} (M : Machine σ) extends TableReads M where
  /-- The number of frames the allocator has. -/
  avail : σ → Nat
  store : ∀ {s P v} (i : Fin 512), Good s → ok P → v < 2 ^ 64 → ∃ s',
    M.store64 (P + kernelVbase + 8 * i) v s = some ((), s') ∧ Good s' ∧
    (∀ Q, ok Q → ∀ j, ent s' Q j = if Q = P ∧ j = i then v else ent s Q j) ∧
    (∀ Q, Free s' Q → Free s Q) ∧ avail s' = avail s
  alloc : ∀ {s}, Good s →
    (avail s = 0 ∧ ∃ s', M.pmmAllocPage s = some (0, s')) ∨ ∃ P s',
      M.pmmAllocPage s = some (P, s') ∧ P ≠ 0 ∧ ok P ∧ Free s P ∧ ¬ Free s' P ∧ Good s' ∧
      (∀ Q, ok Q → ∀ j, ent s' Q j = ent s Q j) ∧
      (∀ Q, Free s' Q → Free s Q) ∧ avail s = avail s' + 1

theorem window_ne_zero (x : Nat) : x + kernelVbase ≠ 0 := by
  unfold kernelVbase
  omega

/-! ## Reading the tables -/

section Reads

variable {σ : Type} {M : Machine σ} (R : TableReads M)

/-- The frames tables may stand in: reached, and not up for allocation. -/
def TableReads.own (s : σ) (P : Nat) : Prop := R.ok P ∧ ¬ R.Free s P

/-- The table at a path. -/
def TableReads.table (s : VmmState σ) (root : Nat) (path : List (Fin 512)) : Option Nat :=
  node entryFrame (R.ent s.mach) root path

/-- The tables form a tree of distinct frames, three levels deep, below `root`. -/
structure Tables (s : VmmState σ) (root : Nat) : Prop where
  pml4 : s.kernelPml4 = root + kernelVbase
  good : R.Good s.mach
  tree : TableTree entryFrame (R.own s.mach) (R.ent s.mach) root 3

/-- The frame the tables map the page of `virt` to. -/
def translate (s : VmmState σ) (root virt : Nat) : Option Nat :=
  (leaf entryFrame (R.ent s.mach) root (tablePath virt) (indexAt virt 0)).bind entryFrame

variable {R} {s : VmmState σ} {root : Nat}

variable {P virt : Nat} {path : List (Fin 512)}

theorem TableReads.table_cons (hP : R.table s root path = some P)
    (i : Fin 512) : R.table s root (i :: path) = entryFrame (R.ent s.mach P i) := by
  show (node entryFrame (R.ent s.mach) root path).bind _ = _
  rw [show node entryFrame (R.ent s.mach) root path = some P from hP]
  rfl

/-- Where a table is missing, so are all tables below. -/
theorem TableReads.table_cons_none (hP : R.table s root path = none)
    (i : Fin 512) : R.table s root (i :: path) = none := by
  show (node entryFrame (R.ent s.mach) root path).bind _ = none
  rw [show node entryFrame (R.ent s.mach) root path = none from hP]
  rfl

theorem TableReads.table_tail {i : Fin 512} (hP : R.table s root (i :: path) = some P) :
    ∃ P', R.table s root path = some P' := by
  obtain ⟨P', hP', -⟩ := Option.bind_eq_some_iff.mp hP
  exact ⟨P', hP'⟩

theorem translate_of_none (hP : R.table s root (tablePath virt) = none) :
    translate R s root virt = none := by
  unfold translate leaf
  rw [show node entryFrame (R.ent s.mach) root (tablePath virt) = none from hP]
  rfl

theorem translate_of_table (hP : R.table s root (tablePath virt) = some P) :
    translate R s root virt = entryFrame (R.ent s.mach P (indexAt virt 0)) := by
  unfold translate leaf
  rw [show node entryFrame (R.ent s.mach) root (tablePath virt) = some P from hP]
  rfl

section

variable (h : Tables R s root)
include h

theorem Tables.read_pml4 : Returns (Exec.read VmmState.kernelPml4) s (root + kernelVbase) s := by
  rw [← h.pml4]
  rfl

omit h in
theorem getEntry_returns (i : Fin 512) (hgood : R.Good s.mach) (hP : R.ok P) :
    Returns (getEntry M (P + kernelVbase) i) s (R.ent s.mach P i) s := by
  unfold Returns getEntry vmmOnMach
  rw [R.load i hgood hP]
  rfl

theorem Tables.getEntry (i : Fin 512) (hlen : path.length ≤ 3) (hP : R.table s root path = some P) :
    Returns (getEntry M (P + kernelVbase) i) s (R.ent s.mach P i) s :=
  getEntry_returns i h.good (h.tree.own hlen hP).1

omit h in
theorem entryFrame_eq_none_iff (x : Nat) : entryFrame x = none ↔ ¬ x &&& pagePresent ≠ 0 := by
  unfold entryFrame
  split <;> simp_all

theorem Tables.table_addr (i : Fin 512) (hlen : path.length < 3) (hP : R.table s root path = some P)
    (hpresent : R.ent s.mach P i &&& pagePresent ≠ 0) :
    ∃ N, R.table s root (i :: path) = some N ∧
      wrap64 (pageMask (R.ent s.mach P i) + kernelVbase) = N + kernelVbase := by
  have hN : R.table s root (i :: path) = some (pageMask (R.ent s.mach P i)) :=
    (R.table_cons hP i).trans (if_pos hpresent)
  refine ⟨_, hN, wrap64_of_lt ?_⟩
  exact (R.ok_page (h.tree.own (show (i :: path).length ≤ 3 from hlen) hN).1).2

/-- One level of `vmm_get_pte`. -/
theorem vmmNextTable_spec (path : List (Fin 512)) (i : Fin 512)
    (hlen : path.length < 3) (hP : R.table s root path = some P) :
    Returns (vmmNextTable M (P + kernelVbase) i) s
      ((R.table s root (i :: path)).map (· + kernelVbase)) s := by
  have hget := h.getEntry i (Nat.le_of_lt hlen) hP
  unfold vmmNextTable
  by_cases hpresent : R.ent s.mach P i &&& pagePresent = 0
  · have hnone : R.table s root (i :: path) = none :=
      (R.table_cons hP i).trans ((entryFrame_eq_none_iff _).mpr (not_not.mpr hpresent))
    rw [hnone, Returns, hget.bind_eq, if_pos hpresent]
    rfl
  · obtain ⟨N, hN, haddr⟩ := h.table_addr i hlen hP hpresent
    rw [hN, Returns, hget.bind_eq, if_neg hpresent, hget.bind_eq, haddr]
    rfl

/-- **`vmm_get_pte`** returns the address of the page's entry, or `NULL` if there is no
page table for it. -/
theorem vmmGetPte_spec (virt : Nat) :
    Returns (vmmGetPte M virt) s
      (match R.table s root (tablePath virt) with
        | none => 0
        | some P => P + kernelVbase + 8 * indexAt virt 0) s := by
  unfold vmmGetPte
  rw [Returns, h.read_pml4.bind_eq, if_neg (window_ne_zero root)]
  have hnext3 := vmmNextTable_spec h [] (indexAt virt 3) (by simp) rfl
  cases hP2 : R.table s root [indexAt virt 3] with
  | none =>
    rw [hP2] at hnext3
    rw [show R.table s root (tablePath virt) = none from
      R.table_cons_none (R.table_cons_none hP2 _) _]
    exact hnext3.bind_eq
  | some P2 =>
    rw [hP2] at hnext3
    refine (hnext3.bind_eq).trans ?_
    have hnext2 := vmmNextTable_spec h [indexAt virt 3] (indexAt virt 2) (by simp) hP2
    cases hP1 : R.table s root [indexAt virt 2, indexAt virt 3] with
    | none =>
      rw [hP1] at hnext2
      rw [show R.table s root (tablePath virt) = none from R.table_cons_none hP1 _]
      exact hnext2.bind_eq
    | some P1 =>
      rw [hP1] at hnext2
      refine (hnext2.bind_eq).trans ?_
      have hnext1 := vmmNextTable_spec h [indexAt virt 2, indexAt virt 3] (indexAt virt 1)
        (by simp) hP1
      refine (hnext1.bind_eq).trans ?_
      show _ = some (match R.table s root (tablePath virt) with
        | none => 0
        | some P => P + kernelVbase + 8 * indexAt virt 0, s)
      unfold tablePath
      cases R.table s root [indexAt virt 1, indexAt virt 2, indexAt virt 3] <;> rfl

theorem Tables.load_pte (hP : R.table s root (tablePath virt) = some P) :
    Returns (vmmOnMach (M.load64 (P + kernelVbase + 8 * indexAt virt 0))) s
      (R.ent s.mach P (indexAt virt 0)) s :=
  h.getEntry (indexAt virt 0) (le_refl 3) hP

omit h in
theorem pte_ne_zero (P : Nat) (i : Fin 512) : P + kernelVbase + 8 * i ≠ 0 := by
  have := window_ne_zero P
  omega

/-- **`vmm_is_mapped`** tells whether the page has a translation. -/
theorem vmmIsMapped_spec (virt : Nat) :
    Returns (vmmIsMapped M virt) s (translate R s root virt).isSome s := by
  have hpte := vmmGetPte_spec h virt
  unfold vmmIsMapped
  cases hP : R.table s root (tablePath virt) with
  | none =>
    rw [hP] at hpte
    rw [translate_of_none hP]
    exact hpte.bind_eq
  | some P =>
    rw [hP] at hpte
    rw [translate_of_table hP, Returns, hpte.bind_eq, if_neg (pte_ne_zero _ _),
      (h.load_pte hP).bind_eq]
    unfold entryFrame
    split <;> simp_all

/-- **`vmm_get_phys`** returns the translation of the address. -/
theorem vmmGetPhys_spec (virt : Nat) :
    Returns (vmmGetPhys M virt) s
      (match translate R s root virt with
        | none => 0
        | some P => P ||| (virt &&& 0xFFF)) s := by
  have hpte := vmmGetPte_spec h virt
  unfold vmmGetPhys
  cases hP : R.table s root (tablePath virt) with
  | none =>
    rw [hP] at hpte
    rw [translate_of_none hP]
    exact hpte.bind_eq
  | some P =>
    rw [hP] at hpte
    have hload := h.load_pte hP
    rw [translate_of_table hP, Returns, hpte.bind_eq, if_neg (pte_ne_zero _ _),
      hload.bind_eq]
    unfold entryFrame
    by_cases hpresent : R.ent s.mach P (indexAt virt 0) &&& pagePresent = 0
    · rw [if_pos hpresent, if_neg (not_not.mpr hpresent)]
      rfl
    · rw [if_neg hpresent, if_pos hpresent, hload.bind_eq]
      rfl

theorem Tables.window (hlen : path.length ≤ 3) (hP : R.table s root path = some P) :
    P + kernelVbase < 2 ^ 64 := (R.ok_page (h.tree.own hlen hP).1).2

omit h

/-- `vmm_get_or_create_table` where the table exists, wherever its own window leads. -/
theorem vmmGetOrCreateTable_present (path : List (Fin 512)) {N : Nat} (i : Fin 512) (flags : Nat)
    (hgood : R.Good s.mach) (hok : R.ok P) (hP : R.table s root path = some P)
    (hN : R.table s root (i :: path) = some N) (hN64 : N + kernelVbase < 2 ^ 64) :
    Returns (vmmGetOrCreateTable M (P + kernelVbase) i flags) s (N + kernelVbase) s := by
  rw [R.table_cons hP i] at hN
  have hpresent : R.ent s.mach P i &&& pagePresent ≠ 0 := by
    by_contra hx
    rw [(entryFrame_eq_none_iff _).mpr (not_not.mpr hx)] at hN
    cases hN
  have hmask : pageMask (R.ent s.mach P i) = N := by
    rw [entryFrame, if_pos hpresent] at hN
    exact Option.some.inj hN
  unfold vmmGetOrCreateTable
  rw [Returns, (getEntry_returns i hgood hok).bind_eq, if_pos hpresent, hmask, wrap64_of_lt hN64]
  rfl

/-- `vmm_map_page` of a page whose table exists writes one entry, through the window of that
table. -/
theorem vmmMapPage_reached (virt phys flags : Nat) (hpml4 : s.kernelPml4 = root + kernelVbase)
    (hgood : R.Good s.mach)
    (hok : ∀ path Q, path.length < 3 → path <:+ tablePath virt → R.table s root path = some Q →
      R.ok Q)
    (hP : R.table s root (tablePath virt) = some P) (hP64 : P + kernelVbase < 2 ^ 64) :
    vmmMapPage M virt phys flags s =
      setEntry M (P + kernelVbase) (indexAt virt 0)
        (pageMask phys ||| (flags &&& 0xFFF) ||| pagePresent) s := by
  obtain ⟨P1, hP1⟩ := R.table_tail hP
  obtain ⟨P2, hP2⟩ := R.table_tail hP1
  have hroot := hok [] root (by simp) (nil_suffix) rfl
  have hok2 := hok [indexAt virt 3] P2 (by simp) ⟨[indexAt virt 1, indexAt virt 2], rfl⟩ hP2
  have hok1 := hok [indexAt virt 2, indexAt virt 3] P1 (by simp) ⟨[indexAt virt 1], rfl⟩ hP1
  have hread : Returns (Exec.read VmmState.kernelPml4) s (root + kernelVbase) s := by
    rw [← hpml4]
    rfl
  unfold vmmMapPage
  rw [hread.bind_eq, if_neg (window_ne_zero root)]
  refine ((vmmGetOrCreateTable_present [] (indexAt virt 3) _ hgood hroot rfl hP2
    (R.ok_page hok2).2).bind_eq).trans ?_
  refine ((vmmGetOrCreateTable_present [indexAt virt 3] (indexAt virt 2) _ hgood hok2 hP2 hP1
    (R.ok_page hok1).2).bind_eq).trans ?_
  exact (vmmGetOrCreateTable_present [indexAt virt 2, indexAt virt 3] (indexAt virt 1) _ hgood hok1
    hP1 hP hP64).bind_eq

include h in
theorem vmmMapPage_present (virt phys flags : Nat) (hP : R.table s root (tablePath virt) = some P) :
    vmmMapPage M virt phys flags s =
      setEntry M (P + kernelVbase) (indexAt virt 0)
        (pageMask phys ||| (flags &&& 0xFFF) ||| pagePresent) s :=
  vmmMapPage_reached virt phys flags h.pml4 h.good (fun _ _ hlen _ hQ => (h.tree.own hlen.le hQ).1)
    hP (h.window (le_refl 3) hP)

end

theorem tree_write_entry (htree : TableTree entryFrame (R.own s.mach) (R.ent s.mach) root 3)
    (s' : VmmState σ) (virt : Nat) {v : Nat} (hP : R.table s root (tablePath virt) = some P)
    (hent : ∀ Q, R.own s.mach Q → ∀ j, R.ent s'.mach Q j =
      if Q = P ∧ j = indexAt virt 0 then v else R.ent s.mach Q j) :
    TableTree entryFrame (R.own s.mach) (R.ent s'.mach) root 3 ∧
      (∀ path, path.length ≤ 3 → R.table s' root path = R.table s root path) ∧
      ∀ w, translate R s' root w =
        if pageNumber w = pageNumber virt then entryFrame v else translate R s root w := by
  obtain ⟨htree', hleaf⟩ := htree.write_leaf (x := v) hP hent rfl
  refine ⟨htree', fun path hlen => htree.node_write_leaf hP hent rfl hlen, fun w => ?_⟩
  unfold translate
  rw [hleaf _ _ rfl]
  by_cases hpage : pageNumber w = pageNumber virt
  · rw [if_pos ((tablePath_eq_iff w virt).mpr hpage), if_pos hpage]
    rfl
  · rw [if_neg fun hx => hpage ((tablePath_eq_iff w virt).mp hx), if_neg hpage]

end Reads

/-! ## Editing the tables -/

section Edits

variable {σ : Type} {M : Machine σ} (V : TableView M)

/-- From `s` to `s'` the code stays on the same tables; it takes `k` frames and returns
none. -/
structure Keeps (k : Nat) (s s' : VmmState σ) : Prop where
  pml4 : s'.kernelPml4 = s.kernelPml4
  good : V.Good s'.mach
  free : ∀ Q, V.Free s'.mach Q → V.Free s.mach Q
  avail : V.avail s.mach = V.avail s'.mach + k

variable {V} {s s' : VmmState σ} {root : Nat}

theorem Keeps.refl (h : V.Good s.mach) : Keeps V 0 s s :=
  ⟨rfl, h, fun _ hQ => hQ, rfl⟩

theorem Keeps.trans {k k' : Nat} {s'' : VmmState σ} (h : Keeps V k s s') (h' : Keeps V k' s' s'') :
    Keeps V (k + k') s s'' :=
  ⟨h'.pml4.trans h.pml4, h'.good, fun Q hQ => h.free Q (h'.free Q hQ),
    by have := h.avail; have := h'.avail; omega⟩

theorem Keeps.own {k : Nat} (h : Keeps V k s s') {P : Nat} (hP : V.own s.mach P) :
    V.own s'.mach P :=
  ⟨hP.1, fun hfree => hP.2 (h.free P hfree)⟩

variable (V) in
/-- From `s` to `s'` all tables stay, and those that are new took frames that were free. -/
structure Grows (root : Nat) (s s' : VmmState σ) : Prop where
  kept : ∀ {path : List (Fin 512)} {P : Nat}, path.length ≤ 3 → V.table s root path = some P →
    V.table s' root path = some P
  fresh : ∀ {path : List (Fin 512)} {P : Nat}, path.length ≤ 3 → V.table s root path = none →
    V.table s' root path = some P → V.Free s.mach P

theorem Grows.of_eq
    (h : ∀ path, path.length ≤ 3 → V.table s' root path = V.table s root path) :
    Grows V root s s' := by
  refine ⟨fun hlen hP => (h _ hlen).trans hP, fun hlen hnone hP => ?_⟩
  rw [h _ hlen, hnone] at hP
  cases hP

theorem Grows.trans {k : Nat} {s'' : VmmState σ} (h : Grows V root s s') (hkeep : Keeps V k s s')
    (h' : Grows V root s' s'') : Grows V root s s'' := by
  refine ⟨fun hlen hP => h'.kept hlen (h.kept hlen hP), fun {path P} hlen hnone hP => ?_⟩
  cases hmid : V.table s' root path with
  | none => exact hkeep.free P (h'.fresh hlen hmid hP)
  | some P' =>
    obtain rfl : P' = P := Option.some.inj ((h'.kept hlen hmid).symm.trans hP)
    exact h.fresh hlen hnone hmid

theorem setEntry_returns {P v : Nat} (i : Fin 512) (hgood : V.Good s.mach) (hP : V.ok P)
    (hv : v < 2 ^ 64) :
    ∃ s', Returns (setEntry M (P + kernelVbase) i v) s () s' ∧ Keeps V 0 s s' ∧
      ∀ Q, V.ok Q → ∀ j, V.ent s'.mach Q j = if Q = P ∧ j = i then v else V.ent s.mach Q j := by
  obtain ⟨m, hstore, hgood', hent, hfree, havail⟩ := V.store i hgood hP hv
  refine ⟨{ s with mach := m }, ?_, ⟨rfl, hgood', hfree, havail.symm⟩, hent⟩
  unfold Returns setEntry vmmOnMach
  rw [hstore]
  rfl

/-- Clearing the entries `[i, i + n)` of a table. -/
theorem vmmClearLoop_spec {P : Nat} (hP : V.ok P) (n i : Nat) (hn : i + n ≤ 512)
    (s : VmmState σ) (hgood : V.Good s.mach) :
    ∃ s', Returns (vmmClearLoop M (P + kernelVbase) n i) s () s' ∧ Keeps V 0 s s' ∧
      ∀ Q, V.ok Q → ∀ j, V.ent s'.mach Q j =
        if Q = P ∧ i ≤ j.val ∧ j.val < i + n then 0 else V.ent s.mach Q j := by
  induction n generalizing i s with
  | zero =>
    refine ⟨s, rfl, .refl hgood, fun Q _ j => ?_⟩
    rw [if_neg (by omega)]
  | succ n ih =>
    obtain ⟨s1, hset, hkeep, hent⟩ := setEntry_returns (s := s) (P := P) ⟨i, by omega⟩ hgood hP
      (show 0 < 2 ^ 64 by norm_num)
    obtain ⟨s', hrun, hkeep', hent'⟩ := ih (i + 1) (by omega) s1 hkeep.good
    refine ⟨s', hset.bind_eq.trans hrun, hkeep.trans hkeep', fun Q hQ j => ?_⟩
    rw [hent' Q hQ j, hent Q hQ j]
    simp only [Fin.ext_iff]
    split_ifs <;> first | rfl | omega

theorem pmmAllocPage_returns {P : Nat} {m : σ} (h : M.pmmAllocPage s.mach = some (P, m)) :
    Returns (vmmOnMach M.pmmAllocPage) s P { s with mach := m } := by
  unfold Returns vmmOnMach
  rw [h]
  rfl

/-- `vmm_get_or_create_table` where the table is missing: it halts if it gets no frame.
Otherwise it hangs in a fresh frame and clears it. -/
theorem vmmGetOrCreateTable_absent (h : Tables V.toTableReads s root) (path : List (Fin 512))
    {P : Nat} (i : Fin 512) (hlen : path.length < 3) (hP : V.table s root path = some P)
    (hchild : V.table s root (i :: path) = none) :
    (vmmGetOrCreateTable M (P + kernelVbase) i (pagePresent ||| pageWritable) s = none ∧
      V.avail s.mach = 0) ∨
    ∃ N s', Returns (vmmGetOrCreateTable M (P + kernelVbase) i (pagePresent ||| pageWritable)) s
        (N + kernelVbase) s' ∧
      ¬ V.own s.mach N ∧ V.own s'.mach N ∧ Keeps V 1 s s' ∧ (∀ j, V.ent s'.mach N j = 0) ∧
      ∀ Q, V.own s.mach Q → ∀ j, V.ent s'.mach Q j =
        if Q = P ∧ j = i then N ||| (pagePresent ||| pageWritable) else V.ent s.mach Q j := by
  have hown := h.tree.own (Nat.le_of_lt hlen) hP
  have hget := h.getEntry i (Nat.le_of_lt hlen) hP
  have hpresent := (entryFrame_eq_none_iff _).mp ((V.table_cons hP i).symm.trans hchild)
  unfold vmmGetOrCreateTable
  rcases V.alloc h.good with ⟨havail, m, halloc⟩ | ⟨N, m, halloc, hN0, hNok, hNfree, hNfree',
    hgood, hent, hfree, havail⟩
  · refine .inl ⟨?_, havail⟩
    rw [hget.bind_eq, if_neg hpresent, (pmmAllocPage_returns halloc).bind_eq]
    rfl
  · have hkeep0 : Keeps V 1 s { s with mach := m } := ⟨rfl, hgood, hfree, havail⟩
    obtain ⟨hNpage, hNlt⟩ := V.ok_page hNok
    obtain ⟨s1, hset, hkeep1, hent1⟩ := setEntry_returns (V := V) (s := { s with mach := m }) i
      hgood hown.1 (entryFrame_table hNpage (by omega)).1
    obtain ⟨s', hclear, hkeep2, hent2⟩ := vmmClearLoop_spec hNok 512 0 (by omega) s1 hkeep1.good
    refine .inr ⟨N, s', ?_, fun hx => hx.2 hNfree,
      ⟨hNok, fun hx => hNfree' (hkeep1.free _ (hkeep2.free _ hx))⟩,
      (hkeep0.trans hkeep1).trans hkeep2, fun j => ?_, fun Q hQ j => ?_⟩
    · rw [Returns, hget.bind_eq, if_neg hpresent, (pmmAllocPage_returns halloc).bind_eq,
        if_neg hN0, hset.bind_eq, wrap64_of_lt hNlt]
      exact hclear.bind_eq
    · rw [hent2 N hNok j, if_pos ⟨rfl, by omega⟩]
    · have hne : Q ≠ N := fun heq => hQ.2 (heq ▸ hNfree)
      rw [hent2 Q hQ.1 j, if_neg fun hx => hne hx.1, hent1 Q hQ.1 j, hent Q hQ.1 j]

/-- **`vmm_get_or_create_table`** halts when it needs a frame and gets none. Otherwise it
returns the table, at most that table is new, and no translation changes. -/
theorem vmmGetOrCreateTable_spec (h : Tables V.toTableReads s root) (path : List (Fin 512))
    {P : Nat} (i : Fin 512) (hlen : path.length < 3) (hP : V.table s root path = some P) :
    (vmmGetOrCreateTable M (P + kernelVbase) i (pagePresent ||| pageWritable) s = none ∧
      V.table s root (i :: path) = none ∧ V.avail s.mach = 0) ∨
    ∃ N s', Returns (vmmGetOrCreateTable M (P + kernelVbase) i (pagePresent ||| pageWritable)) s
        (N + kernelVbase) s' ∧
      Tables V.toTableReads s' root ∧
      Keeps V (if V.table s root (i :: path) = none then 1 else 0) s s' ∧ Grows V root s s' ∧
      (∀ path', path'.length ≤ 3 → V.table s' root path' =
        if path' = i :: path then some N else V.table s root path') ∧
      ∀ v, translate V.toTableReads s' root v = translate V.toTableReads s root v := by
  cases hchild : V.table s root (i :: path) with
  | some N =>
    refine .inr ⟨N, s, vmmGetOrCreateTable_present path i _ h.good (h.tree.own hlen.le hP).1 hP
      hchild (h.window (show (i :: path).length ≤ 3 from hlen) hchild), h, .refl h.good,
      .of_eq fun _ _ => rfl, fun path' _ => ?_, fun _ => rfl⟩
    split
    · rename_i hpath
      rw [hpath, hchild]
    · rfl
  | none =>
    have habsent : entryFrame (V.ent s.mach P i) = none := (V.table_cons hP i).symm.trans hchild
    rcases vmmGetOrCreateTable_absent h path i hlen hP hchild with
      ⟨hstop, havail⟩ | ⟨N, s', hrun, hfresh, hown, hkeep, hzero, hold⟩
    · exact .inl ⟨hstop, rfl, havail⟩
    · obtain ⟨hNpage, hNlt⟩ := V.ok_page hown.1
      have hframe := (entryFrame_table hNpage (by omega)).2
      have hN_none : ∀ j, entryFrame (V.ent s'.mach N j) = none := fun j => by
        rw [hzero j, entryFrame_zero]
      obtain ⟨htree, hleaf⟩ := h.tree.create hP hold hlen habsent hframe hN_none hfresh
      have hnode : ∀ path', path'.length ≤ 3 → V.table s' root path' =
          if path' = i :: path then some N else V.table s root path' := fun path' hlen' =>
        h.tree.node_create hP hold hlen habsent hframe hN_none hlen'
      refine .inr ⟨N, s', hrun, ⟨hkeep.pml4.trans h.pml4, hkeep.good, htree.mono ?_⟩, hkeep,
        ⟨fun {path' P'} hlen' hP' => ?_, fun {path' P'} hlen' hnone hP' => ?_⟩, hnode, fun v => ?_⟩
      · rintro Q (hQ | rfl)
        · exact hkeep.own hQ
        · exact hown
      · rw [hnode path' hlen', if_neg]
        · exact hP'
        · rintro rfl
          rw [hchild] at hP'
          cases hP'
      · rw [hnode path' hlen'] at hP'
        split at hP'
        · cases hP'
          exact not_not.mp fun hx => hfresh ⟨hown.1, hx⟩
        · rw [hnone] at hP'
          cases hP'
      · by_cases hpath : tablePath v = i :: path
        · -- there was no page table for `v`, and the new one is empty
          have hbefore : translate V.toTableReads s root v = none :=
            translate_of_none (by rw [hpath]; exact hchild)
          rw [hbefore]
          unfold translate
          rw [hleaf _ _ rfl, if_pos hpath]
          exact hN_none _
        · unfold translate
          rw [hleaf _ _ rfl, if_neg hpath]

/-- Writing an entry of the page table of `virt` changes the translation of its page. -/
theorem setEntry_leaf (h : Tables V.toTableReads s root) (virt : Nat) {P v : Nat}
    (hP : V.table s root (tablePath virt) = some P) (hv : v < 2 ^ 64) :
    ∃ s', Returns (setEntry M (P + kernelVbase) (indexAt virt 0) v) s () s' ∧
      Tables V.toTableReads s' root ∧ Keeps V 0 s s' ∧
      (∀ path, path.length ≤ 3 → V.table s' root path = V.table s root path) ∧
      ∀ w, translate V.toTableReads s' root w =
        if pageNumber w = pageNumber virt then entryFrame v
        else translate V.toTableReads s root w := by
  obtain ⟨s', hset, hkeep, hent⟩ := setEntry_returns (V := V) (indexAt virt 0) h.good
    (h.tree.own (le_refl 3) hP).1 hv
  obtain ⟨htree, htable, htr⟩ := tree_write_entry h.tree s' virt hP fun Q hQ => hent Q hQ.1
  exact ⟨s', hset, ⟨hkeep.pml4.trans h.pml4, hkeep.good, htree.mono fun Q hQ => hkeep.own hQ⟩,
    hkeep, htable, htr⟩

/-- The paths of the tables `virt` is looked up in, below the PML4. -/
def tablePaths (virt : Nat) : List (List (Fin 512)) :=
  [[indexAt virt 3], [indexAt virt 2, indexAt virt 3], tablePath virt]

theorem ite_some_eq_none {α : Type} {c : Prop} [Decidable c] {a : α} {x : Option α} :
    (if c then some a else x) = none ↔ ¬ c ∧ x = none := by
  by_cases hc : c
  · rw [if_pos hc]
    exact iff_of_false nofun fun h => h.1 hc
  · rw [if_neg hc]
    exact (and_iff_right hc).symm

theorem length_of_mem_tablePaths {virt : Nat} {path : List (Fin 512)}
    (h : path ∈ tablePaths virt) : path.length ≤ 3 := by
  simp only [tablePaths, tablePath, mem_cons, not_mem_nil, or_false] at h
  rcases h with rfl | rfl | rfl <;> simp

variable (V) in
/-- The number of tables that are missing for `virt`. -/
def missing (s : VmmState σ) (root virt : Nat) : Nat :=
  (tablePaths virt).countP fun path => V.table s root path = none

theorem missing_eq (virt : Nat) :
    missing V s root virt =
      (if V.table s root [indexAt virt 3] = none then 1 else 0) +
      (if V.table s root [indexAt virt 2, indexAt virt 3] = none then 1 else 0) +
      if V.table s root (tablePath virt) = none then 1 else 0 := by
  unfold missing tablePaths
  simp only [countP_cons, countP_nil, decide_eq_true_eq]
  omega

/-- **`vmm_map_page`**: it halts when it runs out of frames for tables; otherwise the
page of `virt` is mapped to the frame of `phys`, no other page changes, and exactly the
tables that were missing for `virt` are new. -/
theorem vmmMapPage_spec (h : Tables V.toTableReads s root) (virt flags : Nat) {phys : Nat}
    (hphys : phys < 2 ^ 64) :
    (vmmMapPage M virt phys flags s = none ∧ V.avail s.mach < missing V s root virt) ∨
    ∃ s', Returns (vmmMapPage M virt phys flags) s () s' ∧ Tables V.toTableReads s' root ∧
      Keeps V (missing V s root virt) s s' ∧ Grows V root s s' ∧
      (∀ path, path.length ≤ 3 →
        (V.table s' root path = none ↔ V.table s root path = none ∧ path ∉ tablePaths virt)) ∧
      ∀ w, translate V.toTableReads s' root w =
        if pageNumber w = pageNumber virt then some (pageMask phys)
        else translate V.toTableReads s root w := by
  rw [missing_eq]
  unfold vmmMapPage
  rw [h.read_pml4.bind_eq, if_neg (window_ne_zero root)]
  -- three levels of tables, each found or created
  rcases vmmGetOrCreateTable_spec h [] (indexAt virt 3) (by simp) rfl with
    ⟨hstop, hnone, havail⟩ | ⟨P2, s1, hrun1, h1, hkeep1, hgrow1, htab1, htr1⟩
  · refine .inl ⟨bind_of_stops hstop, ?_⟩
    rw [if_pos hnone]
    omega
  have hsame1 : V.table s1 root [indexAt virt 2, indexAt virt 3] =
      V.table s root [indexAt virt 2, indexAt virt 3] := by
    rw [htab1 _ (by simp), if_neg (by simp)]
  rcases vmmGetOrCreateTable_spec h1 [indexAt virt 3] (indexAt virt 2) (by simp)
    (by rw [htab1 _ (by simp), if_pos rfl]) with
    ⟨hstop, hnone, havail⟩ | ⟨P1, s2, hrun2, h2, hkeep2, hgrow2, htab2, htr2⟩
  · refine .inl ⟨(hrun1.bind_eq).trans (bind_of_stops hstop), ?_⟩
    have := hkeep1.avail
    rw [if_pos (hsame1.symm.trans hnone)]
    omega
  rw [hsame1] at hkeep2
  have hsame2 : V.table s2 root (tablePath virt) = V.table s root (tablePath virt) := by
    unfold tablePath
    rw [htab2 _ (by simp), if_neg (by simp), htab1 _ (by simp), if_neg (by simp)]
  rcases vmmGetOrCreateTable_spec h2 [indexAt virt 2, indexAt virt 3] (indexAt virt 1) (by simp)
    (by rw [htab2 _ (by simp), if_pos rfl]) with
    ⟨hstop, hnone, havail⟩ | ⟨P0, s3, hrun3, h3, hkeep3, hgrow3, htab3, htr3⟩
  · refine .inl ⟨(hrun1.bind_eq).trans ((hrun2.bind_eq).trans
      (bind_of_stops hstop)), ?_⟩
    have := hkeep1.avail
    have := hkeep2.avail
    rw [if_pos (hsame2.symm.trans hnone)]
    omega
  rw [← tablePath, hsame2] at hkeep3
  obtain ⟨hentry, hframe⟩ := entryFrame_leaf flags hphys
  obtain ⟨s', hset, h', hkeep', htab', htr'⟩ := setEntry_leaf h3 virt
    (by rw [tablePath, htab3 _ (by simp), if_pos rfl]) hentry
  have hkeep12 := hkeep1.trans hkeep2
  refine .inr ⟨s', ?_, h', (hkeep12.trans hkeep3).trans hkeep',
    ((hgrow1.trans hkeep1 hgrow2).trans hkeep12 hgrow3).trans (hkeep12.trans hkeep3) (.of_eq htab'),
    fun path hlen => ?_, fun w => ?_⟩
  · rw [Returns, h.read_pml4.bind_eq, if_neg (window_ne_zero root)]
    refine (hrun1.bind_eq).trans ?_
    refine (hrun2.bind_eq).trans ?_
    exact (hrun3.bind_eq).trans hset
  · rw [htab' path hlen, htab3 path hlen, htab2 path hlen, htab1 path hlen]
    simp only [tablePaths, tablePath, mem_cons, not_mem_nil, ite_some_eq_none]
    tauto
  · rw [htr' w, hframe, htr3, htr2, htr1]

theorem missing_le (s : VmmState σ) (root virt : Nat) : missing V s root virt ≤ 3 :=
  countP_le_length.trans (le_refl 3)

/-- **`vmm_unmap_page`**: the page of `virt` has no translation afterwards, no other page
changes, and all tables stay. -/
theorem vmmUnmapPage_spec (h : Tables V.toTableReads s root) (virt : Nat) :
    ∃ s', Returns (vmmUnmapPage M virt) s () s' ∧ Tables V.toTableReads s' root ∧
      Keeps V 0 s s' ∧
      (∀ path, path.length ≤ 3 → V.table s' root path = V.table s root path) ∧
      ∀ w, translate V.toTableReads s' root w =
        if pageNumber w = pageNumber virt then none else translate V.toTableReads s root w := by
  have hpte := vmmGetPte_spec h virt
  -- nothing to do for a page without translation
  have hsame : translate V.toTableReads s root virt = none →
      ∀ w, translate V.toTableReads s root w =
        if pageNumber w = pageNumber virt then none else translate V.toTableReads s root w := by
    intro hnone w
    split
    · rename_i hpage
      obtain ⟨hpath, hidx⟩ := (tablePath_eq_iff w virt).mpr hpage
      rw [← hnone]
      unfold translate
      rw [hpath, hidx]
    · rfl
  unfold vmmUnmapPage Returns
  rw [h.read_pml4.bind_eq, if_neg (window_ne_zero root), hpte.bind_eq]
  cases hP : V.table s root (tablePath virt) with
  | none => exact ⟨s, rfl, h, .refl h.good, fun _ _ => rfl, hsame (translate_of_none hP)⟩
  | some P =>
    rw [if_neg (pte_ne_zero _ _), (h.load_pte hP).bind_eq]
    by_cases hpresent : V.ent s.mach P (indexAt virt 0) &&& pagePresent ≠ 0
    · obtain ⟨s', hset, h', hkeep, htab, htr⟩ := setEntry_leaf h virt hP
        (show 0 < 2 ^ 64 by norm_num)
      rw [if_pos hpresent]
      refine ⟨s', hset, h', hkeep, htab, fun w => ?_⟩
      rw [htr w, entryFrame_zero]
    · rw [if_neg hpresent]
      refine ⟨s, rfl, h, .refl h.good, fun _ _ => rfl, hsame ?_⟩
      rw [translate_of_table hP]
      exact (entryFrame_eq_none_iff _).mpr hpresent

end Edits

end GosKernel.Mm
