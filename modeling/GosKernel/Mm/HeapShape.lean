import GosKernel.Lib.Intervals
import GosKernel.Lib.Linked
import GosKernel.Mm.Heap

/-!
# The shape of the heap

The abstract heap is a map from block addresses to header members. `HeapShape` says
what a well-formed one is: the extents of the blocks on the free list and of the
live allocations partition the heap, the free list is doubly linked, and magics,
sizes and alignments are as they should be.

The operations the allocator composes are functions on such maps, and each keeps
the shape: unlinking a block (`HeapShape.unlink`), splitting one
(`HeapShape.split`), putting one at the head of the list (`HeapShape.push`,
`HeapShape.free`, `HeapShape.grow`) and merging the first two
(`HeapShape.merge`).
-/

namespace GosKernel.Mm

open Linked List Function

/-- Header members by block address. -/
abbrev Headers := Nat → HeapField → Nat

namespace Headers

/-- `b->f = v`. -/
def set (φ : Headers) (b : Nat) (f : HeapField) (v : Nat) : Headers := fun x g =>
  if x = b ∧ g = f then v else φ x g

/-- `if (b) b->f = v`. -/
def setIf (φ : Headers) (b : Nat) (f : HeapField) (v : Nat) : Headers :=
  if b ≠ 0 then φ.set b f v else φ

/-- Header and payload of the block at `b`. -/
def extent (φ : Headers) (b : Nat) : Nat × Nat := (b, b + sizeofHeapBlock + φ b .size)

section

variable (φ : Headers)

theorem set_apply (b x : Nat) (f g : HeapField) (v : Nat) :
    φ.set b f v x g = if x = b ∧ g = f then v else φ x g := rfl

theorem set_of_field_ne (b x : Nat) {f g : HeapField} (v : Nat) (h : g ≠ f) :
    φ.set b f v x g = φ x g := if_neg fun hx => h hx.2

theorem set_of_ne {b x : Nat} (f g : HeapField) (v : Nat) (h : x ≠ b) :
    φ.set b f v x g = φ x g := if_neg fun hx => h hx.1

theorem set_self (b : Nat) (f : HeapField) (v : Nat) : φ.set b f v b f = v :=
  if_pos ⟨rfl, rfl⟩

/-- On blocks, which are not at `NULL`, the guarded write is a plain one. -/
theorem setIf_apply (b : Nat) {x : Nat} (f g : HeapField) (v : Nat) (hx : x ≠ 0) :
    φ.setIf b f v x g = if x = b ∧ g = f then v else φ x g := by
  unfold setIf
  split
  · rfl
  · rename_i hb
    rw [if_neg]
    rintro ⟨rfl, -⟩
    exact hb hx

theorem setIf_of_field_ne (b x : Nat) {f g : HeapField} (v : Nat) (h : g ≠ f) :
    φ.setIf b f v x g = φ x g := by
  unfold setIf
  split
  · exact set_of_field_ne φ b x v h
  · rfl

theorem setIf_of_ne {b x : Nat} (f g : HeapField) (v : Nat) (h : x ≠ b) :
    φ.setIf b f v x g = φ x g := by
  unfold setIf
  split
  · exact set_of_ne φ f g v h
  · rfl

/-- The neighbours of `b` take over its links. -/
def unlink (φ : Headers) (b : Nat) : Headers :=
  (φ.setIf (φ b .prev) .next (φ b .next)).setIf (φ b .next) .prev (φ b .prev)

/-- The block `n`, of size `size`, takes the place of `b` on the list. -/
def replace (φ : Headers) (b n size : Nat) : Headers :=
  (((((φ.set n .magic heapMagicFree).set n .size size).set n .next (φ b .next)).set n .prev
    (φ b .prev)).setIf (φ b .next) .prev n).setIf (φ b .prev) .next n

/-- The header of a block handed out. -/
def markUsed (φ : Headers) (b : Nat) : Headers :=
  ((φ.set b .magic heapMagicUsed).set b .next 0).set b .prev 0

/-- Cutting a tail off changes the sizes of the two parts only. -/
theorem size_split {b n x : Nat} (v w : Nat) (hb : x ≠ b) (hn : x ≠ n) :
    ((φ.replace b n v).set b .size w).markUsed b x .size = φ x .size := by
  simp [replace, markUsed, set_apply, setIf_of_field_ne, hb, hn]

theorem size_split_tail {b n : Nat} (v w : Nat) (h : n ≠ b) :
    ((φ.replace b n v).set b .size w).markUsed b n .size = v := by
  simp [replace, markUsed, set_apply, setIf_of_field_ne, h]

theorem magic_split {b n x : Nat} (v w : Nat) (hb : x ≠ b) (hn : x ≠ n) :
    ((φ.replace b n v).set b .size w).markUsed b x .magic = φ x .magic := by
  simp [replace, markUsed, set_apply, setIf_of_field_ne, hb, hn]

theorem magic_split_tail {b n : Nat} (v w : Nat) (h : n ≠ b) :
    ((φ.replace b n v).set b .size w).markUsed b n .magic = heapMagicFree := by
  simp [replace, markUsed, set_apply, setIf_of_field_ne, h]

theorem split_front (b n v w : Nat) :
    ((φ.replace b n v).set b .size w).markUsed b b .size = w ∧
      ((φ.replace b n v).set b .size w).markUsed b b .magic = heapMagicUsed := by
  simp [markUsed, set_apply]

theorem size_unlink (b x : Nat) : (φ.unlink b).markUsed b x .size = φ x .size := by
  simp [unlink, markUsed, set_of_field_ne, setIf_of_field_ne]

/-- The block `b` in front of the list that starts at `head`. -/
def push (φ : Headers) (b head : Nat) : Headers :=
  ((φ.set b .next head).set b .prev 0).setIf head .prev b

/-- The block `b` swallows its successor `c` on the list. -/
def merge (φ : Headers) (b c : Nat) : Headers :=
  ((φ.set b .size (φ b .size + (sizeofHeapBlock + φ c .size))).set b .next (φ c .next)).setIf
    (φ c .next) .prev b

theorem size_merge (b c : Nat) :
    φ.merge b c b .size = φ b .size + (sizeofHeapBlock + φ c .size) := by
  simp [merge, set_apply, setIf_of_field_ne]

theorem size_merge_of_ne {b x : Nat} (c : Nat) (hx : x ≠ b) : φ.merge b c x .size = φ x .size := by
  simp [merge, set_of_ne, setIf_of_field_ne, hx]

theorem extent_merge {b c : Nat} (hadj : b + sizeofHeapBlock + φ b .size = c) :
    (φ.merge b c).extent b = (b, c + sizeofHeapBlock + φ c .size) := by
  unfold extent
  rw [size_merge, Prod.mk.injEq]
  omega

end

end Headers

open Headers

/-- A live allocation: its block, and the size last requested for it. -/
structure Alloc where
  block : Nat
  requested : Nat

/-- The pointer the caller holds. -/
def Alloc.ptr (a : Alloc) : Nat := a.block + sizeofHeapBlock

theorem ptr_ne_zero (b : Nat) : b + sizeofHeapBlock ≠ 0 :=
  Nat.ne_of_gt (Nat.add_pos_right _ (by decide))

/-- The blocks of the free list and of the live allocations. -/
def blocks (F : List Nat) (L : List Alloc) : List Nat := F ++ L.map Alloc.block

/-- A well-formed heap on `[lo, hi)` whose free list is `F`, starting at `head`, and
whose live allocations are `L`. -/
structure HeapShape (φ : Headers) (lo hi head : Nat) (F : List Nat) (L : List Alloc) : Prop where
  lo_pos : 0 < lo
  lo_le : lo ≤ hi
  /-- The extents are pairwise disjoint and cover exactly `[lo, hi)`. -/
  part : Partition lo hi ((blocks F L).map φ.extent)
  aligned : ∀ b ∈ blocks F L, b % 16 = 0 ∧ φ b .size % 16 = 0
  /-- `next` and `prev` are inverse to each other, from `NULL` to `NULL`. -/
  links : DSeg id (φ · .next) (φ · .prev) 0 F 0
  head_eq : head = headOr id F 0
  free : ∀ b ∈ F, φ b .magic = heapMagicFree
  used : ∀ a ∈ L, φ a.block .magic = heapMagicUsed ∧ a.requested ≤ φ a.block .size

namespace HeapShape

variable {φ φ' : Headers} {lo hi head : Nat} {F : List Nat} {L : List Alloc}

/-! ## Consequences -/

variable {F1 F2 : List Nat} {a : Alloc} {b n r : Nat}

section

variable (h : HeapShape φ lo hi head F L)
include h

theorem bounds (hb : b ∈ blocks F L) : lo ≤ b ∧ b + sizeofHeapBlock + φ b .size ≤ hi :=
  h.part.bounds (mem_map_of_mem hb)

theorem ne_zero (hb : b ∈ blocks F L) : b ≠ 0 := by
  have := (h.bounds hb).1
  have := h.lo_pos
  omega

theorem apart {c : Nat} (hb : b ∈ blocks F L) (hc : c ∈ blocks F L) (hne : b ≠ c) :
    b + sizeofHeapBlock + φ b .size ≤ c ∨ c + sizeofHeapBlock + φ c .size ≤ b :=
  h.part.apart_of_ne (mem_map_of_mem hb) (mem_map_of_mem hc)
    fun heq => hne (congrArg Prod.fst heq)

theorem nodup : (blocks F L).Nodup := by
  have hnd := h.part.nodup_starts
  rw [map_map] at hnd
  exact hnd.of_map

theorem free_nodup : F.Nodup :=
  (nodup_append.mp h.nodup).1

theorem free_ne_live (hb : b ∈ F) (ha : a ∈ L) : b ≠ a.block :=
  (nodup_append.mp h.nodup).2.2 b hb a.block (mem_map_of_mem ha)

/-- The shape depends only on the headers of its blocks. -/
theorem congr (heq : ∀ b ∈ blocks F L, ∀ f, φ' b f = φ b f) : HeapShape φ' lo hi head F L where
  lo_pos := h.lo_pos
  lo_le := h.lo_le
  part := by
    have hext : (blocks F L).map φ'.extent = (blocks F L).map φ.extent :=
      map_congr_left fun b hb => by
        unfold extent
        rw [heq b hb]
    rw [hext]
    exact h.part
  aligned b hb := by
    rw [heq b hb]
    exact h.aligned b hb
  links := h.links.congr (fun b hb => heq b (mem_append_left _ hb) .next)
    fun b hb => heq b (mem_append_left _ hb) .prev
  head_eq := h.head_eq
  free b hb := by
    rw [heq b (mem_append_left _ hb)]
    exact h.free b hb
  used a ha := by
    have hmem : a.block ∈ blocks F L := mem_append_right _ (mem_map_of_mem ha)
    rw [heq _ hmem, heq _ hmem]
    exact h.used a ha

theorem perm {L' : List Alloc} (hp : L.Perm L') : HeapShape φ lo hi head F L' := by
  have hblocks : (blocks F L).Perm (blocks F L') := (hp.map Alloc.block).append_left F
  exact ⟨h.lo_pos, h.lo_le, h.part.perm (hblocks.map _),
    fun b hb => h.aligned b (hblocks.mem_iff.mpr hb), h.links, h.head_eq, h.free,
    fun a ha => h.used a (hp.mem_iff.mpr ha)⟩

end

/-- A live allocation may be requested anew with any size its block holds. -/
theorem request (h : HeapShape φ lo hi head F (a :: L))
    (hr : r ≤ φ a.block .size) : HeapShape φ lo hi head F (⟨a.block, r⟩ :: L) :=
  ⟨h.lo_pos, h.lo_le, h.part, h.aligned, h.links, h.head_eq, h.free, fun c hc => by
    rcases mem_cons.mp hc with rfl | hc
    · exact ⟨(h.used a mem_cons_self).1, hr⟩
    · exact h.used c (mem_cons_of_mem _ hc)⟩

theorem blocks_free_perm (F1 F2 : List Nat) (b : Nat) (L : List Alloc) :
    (blocks (F1 ++ b :: F2) L).Perm (b :: blocks (F1 ++ F2) L) := by
  unfold blocks
  rw [append_assoc, append_assoc]
  exact perm_middle

section

variable (h : HeapShape φ lo hi head (F1 ++ b :: F2) L)
include h

/-- The blocks other than a free one. -/
theorem mem_rest {x : Nat}
    (hx : x ∈ blocks (F1 ++ F2) L) : x ∈ blocks (F1 ++ b :: F2) L ∧ x ≠ b := by
  refine ⟨(blocks_free_perm F1 F2 b L).mem_iff.mpr (mem_cons_of_mem _ hx), ?_⟩
  rintro rfl
  exact (nodup_cons.mp ((blocks_free_perm F1 F2 x L).nodup_iff.mp h.nodup)).1 hx

/-- The links of a free block lead to other free blocks or are `NULL`. -/
theorem link_mem : (φ b .next = 0 ∨ φ b .next ∈ F2) ∧ (φ b .prev = 0 ∨ φ b .prev ∈ F1) := by
  obtain ⟨hprev, hnext⟩ := h.links.links
  constructor
  · rcases headOr_eq_or F2 0 with h0 | ⟨c, hc, hc'⟩
    · exact .inl (hnext.trans h0)
    · rw [hnext, hc']
      exact .inr hc
  · rcases lastOr_eq_or 0 F1 with h0 | ⟨c, hc, hc'⟩
    · exact .inl (hprev.trans h0)
    · rw [hprev, hc']
      exact .inr hc

/-! ## Handing out a block -/

omit h in
/-- Re-sorting blocks between the two lists keeps the partition if no size changes. -/
theorem part_of_perm (h : HeapShape φ lo hi head F L) {F' : List Nat} {L' : List Alloc}
    (hperm : (blocks F L).Perm (blocks F' L')) (hsize : ∀ b, φ' b .size = φ b .size) :
    Partition lo hi ((blocks F' L').map φ'.extent) := by
  have hext : φ'.extent = φ.extent := by
    funext b
    unfold extent
    rw [hsize b]
  rw [hext]
  exact h.part.perm (hperm.map _)

omit h in
theorem blocks_live_perm (F : List Nat) (L : List Alloc) (a : Alloc) :
    (blocks F (a :: L)).Perm (a.block :: blocks F L) :=
  perm_middle

omit h in
theorem blocks_take_perm (F1 F2 : List Nat) (b r : Nat) (L : List Alloc) :
    (blocks (F1 ++ b :: F2) L).Perm (blocks (F1 ++ F2) (⟨b, r⟩ :: L)) :=
  (blocks_free_perm F1 F2 b L).trans (blocks_live_perm (F1 ++ F2) L ⟨b, r⟩).symm

/-- The head of the list after the block `b` of it was replaced by what `q` starts. -/
theorem head_after {q : Nat} : (if φ b .prev ≠ 0 then head else q) = headOr id F1 q := by
  have hprev : φ b .prev = lastOr id 0 F1 := h.links.links.1
  cases F1 with
  | nil => exact if_neg fun hne => hne hprev
  | cons c F1 =>
    have hne : φ b .prev ≠ 0 := by
      rw [hprev, lastOr_cons]
      refine (ne_lastOr ?_ fun d hd => ?_).symm
      · exact (h.ne_zero (by simp [blocks])).symm
      · exact (h.ne_zero (by simp [blocks, hd])).symm
    rw [if_pos hne, h.head_eq]
    rfl

/-- A free block that is unlinked and marked is a live one. -/
theorem unlink (hr : r ≤ φ b .size) :
    HeapShape ((φ.unlink b).markUsed b) lo hi (if φ b .prev ≠ 0 then head else φ b .next)
      (F1 ++ F2) (⟨b, r⟩ :: L) := by
  have hnd := h.free_nodup
  have hperm := blocks_take_perm F1 F2 b r L
  have hrest : ∀ x ∈ F1 ++ F2, x ∈ blocks (F1 ++ b :: F2) L ∧ x ≠ b :=
    fun x hx => h.mem_rest (mem_append_left _ hx)
  have hsize := φ.size_unlink b
  have hmagic : ∀ x, x ≠ b → (φ.unlink b).markUsed b x .magic = φ x .magic := by
    intro x hx
    simp [markUsed, Headers.unlink, set_of_ne, setIf_of_field_ne, hx]
  refine ⟨h.lo_pos, h.lo_le, h.part_of_perm hperm hsize, fun x hx => ?_, ?_, ?_,
    fun x hx => ?_, fun a ha => ?_⟩
  · rw [hsize x]
    exact h.aligned x (hperm.mem_iff.mpr hx)
  · refine h.links.remove injective_id (by grind) (fun x hx => ?_) (fun x hx => ?_)
      (fun x hx => ?_) fun x hx => ?_
    · exact h.ne_zero (hrest x hx).1
    · exact h.ne_zero (hrest x hx).1
    · have hx0 := h.ne_zero (hrest x hx).1
      simp [markUsed, Headers.unlink, set_of_ne, setIf_apply, hx0,
        (hrest x hx).2]
    · have hx0 := h.ne_zero (hrest x hx).1
      simp [markUsed, Headers.unlink, set_of_ne, setIf_apply, hx0,
        (hrest x hx).2]
  · rw [h.head_after, h.links.links.2, headOr_append]
  · rw [hmagic x (hrest x hx).2]
    exact h.free x (by grind)
  · rcases mem_cons.mp ha with rfl | ha
    · refine ⟨?_, ?_⟩
      · simp [markUsed, set_apply]
      · rw [hsize]
        exact hr
    · have hne : a.block ≠ b := (h.free_ne_live (by simp) ha).symm
      rw [hmagic _ hne, hsize]
      exact h.used a ha

omit h in
/-- An address inside the payload of a block is not the address of a block. -/
theorem ne_of_inside (h : HeapShape φ lo hi head F L) {x : Nat} (hb : b ∈ blocks F L)
    (hx : x ∈ blocks F L) (hlo : b < n) (hhi : n < b + sizeofHeapBlock + φ b .size) : x ≠ n := by
  rintro rfl
  rcases h.apart hb hx (by omega) with hbx | hxb <;> omega

/-- The list with the tail of the block in its place. -/
theorem links_split
    (hnb : n ≠ b) (hn0 : n ≠ 0) (hfresh : ∀ x ∈ blocks (F1 ++ b :: F2) L, x ≠ n) (v w : Nat) :
    DSeg id (((φ.replace b n v).set b .size w).markUsed b · .next)
      (((φ.replace b n v).set b .size w).markUsed b · .prev) 0 (F1 ++ n :: F2) 0 := by
  have hnd := h.free_nodup
  have hmem : ∀ x ∈ F1 ++ F2, x ∈ blocks (F1 ++ b :: F2) L ∧ x ≠ b :=
    fun x hx => h.mem_rest (mem_append_left _ hx)
  have hnextn : n ≠ φ b .next := fun heq => by
    rcases h.link_mem.1 with h0 | hm
    · omega
    · exact hfresh _ (mem_append_left _ (by simp [hm])) heq.symm
  have hprevn : n ≠ φ b .prev := fun heq => by
    rcases h.link_mem.2 with h0 | hm
    · omega
    · exact hfresh _ (mem_append_left _ (by simp [hm])) heq.symm
  refine h.links.replace injective_id (by grind) (fun x hx => ?_) (fun x hx => ?_)
    ?_ ?_ (fun x hx => ?_) fun x hx => ?_
  · exact h.ne_zero (hmem x hx).1
  · exact h.ne_zero (hmem x hx).1
  · simp [markUsed, Headers.replace, set_apply, setIf_apply, hnb,
      hprevn, hn0]
  · simp [markUsed, Headers.replace, set_apply, setIf_apply, hnb, hnextn, hn0]
  · have hx0 := h.ne_zero (hmem x hx).1
    simp [markUsed, Headers.replace, set_apply, setIf_apply, hx0,
      (hmem x hx).2, hfresh x (hmem x hx).1]
  · have hx0 := h.ne_zero (hmem x hx).1
    simp [markUsed, Headers.replace, set_apply, setIf_apply, hx0,
      (hmem x hx).2, hfresh x (hmem x hx).1]

/-- The front of a free block is handed out, its tail stays on the list. -/
theorem split {size : Nat} (hn : n = b + sizeofHeapBlock + size)
    (hal : size % 16 = 0) (hfit : size + 48 ≤ φ b .size) (hr : r ≤ size) :
    HeapShape (((φ.replace b n (φ b .size - sizeofHeapBlock - size)).set b .size size).markUsed b)
      lo hi (if φ b .prev ≠ 0 then head else n) (F1 ++ n :: F2) (⟨b, r⟩ :: L) := by
  have hb : b ∈ blocks (F1 ++ b :: F2) L := by simp [blocks]
  have h32 : sizeofHeapBlock = 32 := rfl
  have hnb : n ≠ b := by omega
  have hfresh : ∀ x ∈ blocks (F1 ++ b :: F2) L, x ≠ n := fun x hx =>
    h.ne_of_inside hb hx (by omega) (by omega)
  have hlinks := h.links_split hnb (by omega) hfresh (φ b .size - sizeofHeapBlock - size) size
  -- the header of the front, that of the tail, and that of every other block
  obtain ⟨hb_size, hb_magic⟩ := φ.split_front b n (φ b .size - sizeofHeapBlock - size) size
  have hn_size := φ.size_split_tail (φ b .size - sizeofHeapBlock - size) size hnb
  have hn_magic := φ.magic_split_tail (φ b .size - sizeofHeapBlock - size) size hnb
  have hx_size := fun x hxb hxn =>
    φ.size_split (b := b) (n := n) (x := x) (φ b .size - sizeofHeapBlock - size) size hxb hxn
  have hx_magic := fun x hxb hxn =>
    φ.magic_split (b := b) (n := n) (x := x) (φ b .size - sizeofHeapBlock - size) size hxb hxn
  generalize ((φ.replace b n (φ b .size - sizeofHeapBlock - size)).set b .size size).markUsed b = φ'
    at *
  have hperm : (b :: n :: blocks (F1 ++ F2) L).Perm (blocks (F1 ++ n :: F2) (⟨b, r⟩ :: L)) :=
    (((blocks_free_perm F1 F2 n L).symm).cons b).trans
      (blocks_live_perm (F1 ++ n :: F2) L ⟨b, r⟩).symm
  refine ⟨h.lo_pos, h.lo_le, ?_, fun x hx => ?_, hlinks, ?_, fun x hx => ?_, fun a ha => ?_⟩
  · -- the extent of `b` is cut at `n`
    refine Partition.perm ?_ (hperm.map _)
    have hext : (blocks (F1 ++ F2) L).map φ'.extent = (blocks (F1 ++ F2) L).map φ.extent :=
      map_congr_left fun x hx => by
        obtain ⟨hx', hxb⟩ := h.mem_rest hx
        unfold extent
        rw [hx_size x hxb (hfresh x hx')]
    have hpart := h.part.perm ((blocks_free_perm F1 F2 b L).map φ.extent)
    have hb_ext : φ'.extent b = (b, n) := by
      unfold extent
      rw [hb_size, hn]
    have hn_ext : φ'.extent n = (n, b + sizeofHeapBlock + φ b .size) := by
      unfold extent
      rw [Prod.mk.injEq]
      omega
    rw [map_cons, map_cons, hext, hb_ext, hn_ext]
    exact (partition_split (by omega) (by omega)).mp hpart
  · have hbal := h.aligned b hb
    rcases mem_cons.mp (hperm.mem_iff.mpr hx) with rfl | hx
    · rw [hb_size]
      exact ⟨hbal.1, hal⟩
    · rcases mem_cons.mp hx with rfl | hx
      · rw [hn_size]
        omega
      · obtain ⟨hx', hxb⟩ := h.mem_rest hx
        rw [hx_size x hxb (hfresh x hx')]
        exact h.aligned x hx'
  · rw [h.head_after, headOr_append]
    rfl
  · by_cases hxn : x = n
    · rw [hxn, hn_magic]
    · have hx' : x ∈ F1 ++ F2 := by grind
      obtain ⟨-, hxb⟩ := h.mem_rest (mem_append_left (L.map Alloc.block) hx')
      rw [hx_magic x hxb hxn]
      exact h.free x (by grind)
  · rcases mem_cons.mp ha with rfl | ha
    · rw [hb_magic, hb_size]
      exact ⟨rfl, hr⟩
    · obtain ⟨hx', hxb⟩ := h.mem_rest (mem_append_right (F1 ++ F2) (mem_map_of_mem ha))
      rw [hx_magic _ hxb (hfresh _ hx'), hx_size _ hxb (hfresh _ hx')]
      exact h.used a ha

end

/-! ## Putting a block on the list -/

/-- A block whose header says it is free, and which completes the partition, goes to
the front of the list. -/
theorem push (hlo : 0 < lo) (hle : lo ≤ hi)
    (hpart : Partition lo hi ((blocks (b :: F) L).map φ.extent))
    (hal : ∀ x ∈ blocks (b :: F) L, x % 16 = 0 ∧ φ x .size % 16 = 0)
    (hlinks : DSeg id (φ · .next) (φ · .prev) 0 F 0) (hhead : head = headOr id F 0)
    (hfree : ∀ x ∈ b :: F, φ x .magic = heapMagicFree)
    (hused : ∀ a ∈ L, φ a.block .magic = heapMagicUsed ∧ a.requested ≤ φ a.block .size) :
    HeapShape (φ.push b head) lo hi b (b :: F) L := by
  have hsize : ∀ x, φ.push b head x .size = φ x .size := fun x => by
    simp [Headers.push, set_of_field_ne, setIf_of_field_ne]
  have hmagic : ∀ x, φ.push b head x .magic = φ x .magic := fun x => by
    simp [Headers.push, set_of_field_ne, setIf_of_field_ne]
  have hext : (φ.push b head).extent = φ.extent := by
    funext x
    unfold extent
    rw [hsize x]
  have hne : ∀ x ∈ blocks (b :: F) L, x ≠ 0 := fun x hx => by
    have := (hpart.bounds (mem_map_of_mem hx)).1
    have : lo ≤ x := this
    omega
  have hnd : (blocks (b :: F) L).Nodup := by
    have := hpart.nodup_starts
    rw [map_map] at this
    exact this.of_map
  obtain ⟨hbF, hFnd⟩ := nodup_cons.mp (nodup_append.mp hnd).1
  have hF : ∀ x ∈ F, x ≠ 0 ∧ x ≠ b := by
    intro x hx
    refine ⟨hne x (mem_append_left _ (mem_cons_of_mem _ hx)), ?_⟩
    rintro rfl
    exact hbF hx
  have hb0 : b ≠ 0 := hne b (by simp [blocks])
  have hbhead : b ≠ head := by
    rw [hhead]
    exact ne_headOr hb0 fun x hx => (hF x hx).2.symm
  refine ⟨hlo, hle, by rwa [hext], fun x hx => ?_, ?_, rfl, fun x hx => ?_, fun a ha => ?_⟩
  · rw [hsize]
    exact hal x hx
  · have hlinks' : DSeg id (φ · .next) (φ · .prev) 0 ([] ++ F) 0 := hlinks
    refine hlinks'.insert injective_id hFnd (fun x hx => (hF x hx).1)
      (fun x hx => (hF x hx).1) ?_ ?_ (fun x hx => ?_) fun x hx => ?_
    · simp [Headers.push, set_apply, setIf_of_field_ne, hhead]
    · simp [Headers.push, set_apply, setIf_apply, hb0, hbhead]
    · simp [Headers.push, set_apply, setIf_of_field_ne, (hF x hx).1, (hF x hx).2]
    · simp [Headers.push, set_apply, setIf_apply, (hF x hx).1, (hF x hx).2, hhead]
  · rw [hmagic]
    exact hfree x hx
  · rw [hmagic, hsize]
    exact hused a ha

/-- Freeing a live allocation puts its block at the front of the list. -/
theorem free_live (h : HeapShape φ lo hi head F (a :: L)) :
    HeapShape ((φ.set a.block .magic heapMagicFree).push a.block head) lo hi a.block
      (a.block :: F) L := by
  have hperm : (blocks F (a :: L)).Perm (blocks (a.block :: F) L) := blocks_live_perm F L a
  have hsize : ∀ x, φ.set a.block .magic heapMagicFree x .size = φ x .size := fun x =>
    set_of_field_ne _ _ _ _ (by decide)
  have ha : a ∈ a :: L := mem_cons_self
  refine push h.lo_pos h.lo_le (h.part_of_perm hperm hsize) (fun x hx => ?_) ?_ h.head_eq
    (fun x hx => ?_) fun c hc => ?_
  · rw [hsize]
    exact h.aligned x (hperm.mem_iff.mpr hx)
  · exact h.links.congr (fun x _ => set_of_field_ne _ _ _ _ (by decide))
      fun x _ => set_of_field_ne _ _ _ _ (by decide)
  · rcases mem_cons.mp hx with rfl | hx
    · exact set_self _ _ _ _
    · rw [set_of_ne _ _ _ _ (h.free_ne_live hx ha)]
      exact h.free x hx
  · have hne : c.block ≠ a.block := by
      have hnd := hperm.nodup_iff.mp h.nodup
      have hmem : c.block ∈ blocks F L :=
        mem_append_right _ (mem_map_of_mem hc)
      rintro heq
      rw [heq] at hmem
      exact (nodup_cons.mp hnd).1 hmem
    rw [set_of_ne _ _ _ _ hne, hsize]
    exact h.used c (mem_cons_of_mem _ hc)

/-- New pages at the end of the heap become one free block. -/
theorem grow (h : HeapShape φ lo hi head F L) (size : Nat) (hhi : hi % 16 = 0)
    (hal : size % 16 = 0) :
    HeapShape (((φ.set hi .magic heapMagicFree).set hi .size size).push hi head) lo
      (hi + sizeofHeapBlock + size) hi (hi :: F) L := by
  have h32 : sizeofHeapBlock = 32 := rfl
  have hne : ∀ x ∈ blocks F L, x ≠ hi := fun x hx => by
    have := (h.bounds hx).2
    omega
  generalize hψ : (φ.set hi .magic heapMagicFree).set hi .size size = ψ
  have hold : ∀ x ∈ blocks F L, ∀ f, ψ x f = φ x f := fun x hx f => by
    rw [← hψ, set_of_ne _ _ _ _ (hne x hx), set_of_ne _ _ _ _ (hne x hx)]
  have hsize : ψ hi .size = size := by
    rw [← hψ]
    exact set_self _ _ _ _
  have hmagic : ψ hi .magic = heapMagicFree := by
    rw [← hψ, set_of_field_ne _ _ _ _ (by decide), set_self]
  have h' := h.congr hold
  refine push h.lo_pos (by have := h.lo_le; omega) ?_ (fun x hx => ?_) h'.links h'.head_eq
    (fun x hx => ?_) h'.used
  · have := h'.part.extend h.lo_le (show hi < hi + sizeofHeapBlock + size by omega)
    unfold blocks at *
    rw [cons_append, map_cons]
    unfold extent at *
    rwa [hsize]
  · rcases mem_cons.mp hx with rfl | hx
    · rw [hsize]
      exact ⟨hhi, hal⟩
    · exact h'.aligned x hx
  · rcases mem_cons.mp hx with rfl | hx
    · exact hmagic
    · exact h'.free x hx

/-- The first block of the list swallows the second one, which starts where it
ends. -/
theorem merge {c : Nat} (h : HeapShape φ lo hi head (b :: c :: F) L)
    (hadj : b + sizeofHeapBlock + φ b .size = c) :
    HeapShape (φ.merge b c) lo hi head (b :: F) L := by
  have h32 : sizeofHeapBlock = 32 := rfl
  have hnd := h.nodup
  have hb : b ∈ blocks (b :: c :: F) L := by simp [blocks]
  have hc : c ∈ blocks (b :: c :: F) L := by simp [blocks]
  have hrest : ∀ x ∈ blocks F L, x ∈ blocks (b :: c :: F) L ∧ x ≠ b := by
    intro x hx
    refine ⟨by simp only [blocks] at hx ⊢; grind, ?_⟩
    rintro rfl
    exact (nodup_cons.mp hnd).1 (mem_cons_of_mem _ hx)
  have hmagic : ∀ x, φ.merge b c x .magic = φ x .magic := fun x => by
    simp [Headers.merge, set_of_field_ne, setIf_of_field_ne]
  have hcprev : φ c .prev = b := h.links.2.2.1
  refine ⟨h.lo_pos, h.lo_le, ?_, fun x hx => ?_, ?_, h.head_eq, fun x hx => ?_, fun a ha => ?_⟩
  · have hpart := h.part
    have hext : (blocks F L).map (φ.merge b c).extent = (blocks F L).map φ.extent :=
      map_congr_left fun x hx => by
        unfold extent
        rw [φ.size_merge_of_ne c (hrest x hx).2]
    show Partition lo hi ((φ.merge b c).extent b :: (blocks F L).map (φ.merge b c).extent)
    rw [hext, φ.extent_merge hadj]
    refine (partition_split (b := c) (by omega) (by omega)).mpr ?_
    rw [show (b, c) = φ.extent b by unfold extent; rw [hadj]]
    exact hpart
  · rcases mem_cons.mp hx with rfl | hx
    · have h1 := h.aligned x hb
      have h2 := h.aligned c hc
      rw [φ.size_merge]
      omega
    · rw [φ.size_merge_of_ne c (hrest x hx).2]
      exact h.aligned x (hrest x hx).1
  · have hF : ∀ x ∈ [b] ++ F, x ≠ 0 := fun x hx => by
      rcases mem_cons.mp hx with rfl | hx
      · exact h.ne_zero hb
      · exact h.ne_zero (hrest x (mem_append_left _ hx)).1
    have hlinks : DSeg id (φ · .next) (φ · .prev) 0 ([b] ++ c :: F) 0 := h.links
    refine hlinks.remove injective_id ?_ (fun x hx => hF x hx) (fun x hx => hF x hx)
      (fun x hx => ?_) fun x hx => ?_
    · have := h.free_nodup
      grind
    · by_cases hxb : x = b
      · simp [Headers.merge, set_apply, setIf_of_field_ne, hcprev]
      · simp [Headers.merge, set_apply, setIf_of_field_ne, hcprev]
    · have hx0 := hF x hx
      simp [Headers.merge, set_of_field_ne, setIf_apply, hcprev, hx0]
  · rw [hmagic]
    exact h.free x (by grind)
  · have hx := hrest a.block (mem_append_right _ (mem_map_of_mem ha))
    rw [hmagic, φ.size_merge_of_ne c hx.2]
    exact h.used a ha

end HeapShape

end GosKernel.Mm
