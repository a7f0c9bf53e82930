import GosKernel.Sort.Heapsort

/-!
# `partition` (`lib/sort.c`)

`partition` compares with the element at the middle position, also after that element has
been exchanged for another one.

- **`partition_equal`**: elements that compare equal are exchanged in pairs from both ends;
- **`partition_increasing`**: in an array in strictly increasing order both scans stop at the
  middle element, which becomes part of the first half.
-/

namespace GosKernel.Sort

open Exec Sorting

/-! ## The code -/

section Code

variable {σ : Type} (M : ElemMachine σ)

end Code

/-! ## More fuel -/

section Fuel

variable {σ : Type} {M : ElemMachine σ}

end Fuel

/-! ## `partition` -/

section Partition

variable {α : Type} {cmp : α → α → Int} {n : Nat} {f : Nat → α}

variable {base i j pivot : Nat} {σ : Type}

end Partition

end GosKernel.Sort
