import GosKernel.Mm.SlabInvariant

/-!
# When `slab_alloc` fails

A cache whose objects fit behind the header of a slab hands out an object whenever it can
get a page. `slab_cache_create` does not look at the size, though: if not even one object
fits, it makes a slab without objects and returns the cache, and `slab_alloc` takes that
slab for a partial one.

- **`slab_alloc_null_iff`**: this is the only way for it to fail with memory left.
-/

namespace GosKernel.Slab

open Exec

variable {sz phys : Nat} {pages live l : List Nat} {V : SlabLists}

/-- An object that is live lies in one of the pages, behind the header. -/
theorem Layout.live_in_page {C : SlabCache} {m : ByteMem} (h : Layout sz pages live V C m) {x : Nat}
    (hx : x ∈ live) : ∃ a ∈ pages, a + sizeofSlab ≤ x ∧ x + sz ≤ a + slabTotalSize := by
  obtain ⟨a, ha, hobj, -⟩ := (h.live_iff x).mp hx
  obtain ⟨hlo, -, hhi⟩ := slabObjects_bounds hobj
  exact ⟨a, ha, hlo, hhi⟩

/-- A slab without room for an object has an empty free list. -/
theorem SlabPage.freeList_of_no_room {m : ByteMem} {a : Nat} {c : List Nat}
    (h : SlabPage sz m a c) (hsz : 4048 < sz) : fields m a .freeList = 0 := by
  have hnone : slabObjects sz a = [] := by
    rw [slabObjects, show slabCount sz = 0 from Nat.div_eq_of_lt hsz]
    rfl
  have hc : c = [] := List.eq_nil_iff_forall_not_mem.mpr fun x hx => by
    have hmem := h.objects x hx
    rw [hnone] at hmem
    exact absurd hmem List.not_mem_nil
  subst hc
  exact h.freeList.1

/-- **No room.** The first free slab is moved to the partial ones, and has nothing to give. -/
theorem slabAlloc_of_no_room {a : Nat} {s : SlabState Flat} (h : SlabInv sz pages live V s)
    (hsz : 4048 < sz) (hpart : V.slabsPartial = []) (hfree : V.slabsFree = a :: l)
    (ctor : Option (Nat → Exec Flat Unit)) :
    ∃ s', Returns (slabAlloc flat ctor) s 0 s' ∧ s'.mach.supply = s.mach.supply := by
  have ha : a ∈ pages := h.layout.free_mem (hfree ▸ List.mem_cons_self)
  have ha0 : a ≠ 0 := (h.layout.pageAddr a ha).pos.ne'
  have hnoPart : s.cache.slabsPartial = 0 := h.layout.slabsPartial.1.trans (hpart ▸ rfl)
  have hfree' : s.cache.slabsFree = a := h.layout.slabsFree.1.trans (hfree ▸ rfl)
  set s1 := s.store { s.cache with slabsFree := fields s.mach.mem a .next, slabsPartial := a }
    (s.mach.mem.store64 (a + SlabField.next.offset) s.cache.slabsPartial)
  have hnew : Returns (slabFreeOrNew flat) s a s := by
    rw [Returns, slabFreeOrNew, read_bind, hfree', if_pos ha0]
    rfl
  have hpick : Returns (slabPick flat) s a s1 := by
    rw [Returns, slabPick, read_bind, hnoPart, if_neg (not_not.mpr rfl), hnew.bind_eq,
      if_neg ha0]
    rfl
  have hempty : fields s1.mach.mem a .freeList = 0 :=
    (fields_store64 (by decide)).trans ((h.layout.page a ha).freeList_of_no_room hsz)
  refine ⟨s1, ?_, rfl⟩
  rw [Returns, slabAlloc, hpick.bind_eq, if_neg ha0, slabTake,
    getField_bind, hempty]
  rfl

/-- **Failures of `slab_alloc`.** Let `slab_cache_create` have returned a cache for objects of
`objSize` bytes. In all states that calls reach, `slab_alloc` returns `NULL` only if it
called `pmm_alloc_page` and got `NULL`, and returns no object that is not inside a page of
the cache, if and only if an object fits behind the header of a slab. -/
theorem slab_alloc_null_iff {block objSize cache : Nat} {s0 s : SlabState Flat}
    (hsize : objSize < 2 ^ 64) (hfresh : Fresh [] phys) (hsupply : s0.mach.supply = [phys])
    (hcreate : Returns (slabCacheCreate flat block objSize) s0 cache s) (hcache : cache ≠ 0) :
    (∀ es r, Run (SlabStep s.cache.objSize) ⟨s, granted phys, []⟩ es r →
      ∀ phys' ctor, Fresh r.pages phys' →
        (∀ f, ctor = some f → ∀ x,
          Leaves (Owned s.cache.objSize (granted phys' ++ r.pages) (x :: r.live)) (f x)) →
        ∃ obj s', Returns (slabAlloc flat ctor) (r.serving phys') obj s' ∧
          (obj = 0 → phys' = 0 ∧ s'.mach.supply = []) ∧
          (obj ≠ 0 → ∃ a ∈ pagesAfter r.pages phys' s',
            a + sizeofSlab ≤ obj ∧ obj + s.cache.objSize ≤ a + slabTotalSize)) ↔
    objSize ≤ slabTotalSize - sizeofSlab := by
  constructor
  · intro h
    by_contra hlarge
    obtain ⟨-, hle, V, hinv, hpart, hfree⟩ :=
      slabCacheCreate_spec hsize hfresh hsupply hcreate hcache
    have hsz : 4048 < s.cache.objSize := not_le.mp fun hx => hlarge (hle.mp hx)
    -- the new cache, and a call in which no page could be had
    obtain ⟨obj, s', hrun, hnull, -⟩ := h [] _ (.nil _) 0 none (.inl rfl) (fun _ hf => nomatch hf)
    obtain ⟨s1, hrun', hkeep⟩ := slabAlloc_of_no_room
      (SlabInv.serving (r := ⟨s, granted phys, []⟩) hinv 0) hsz hpart hfree none
    obtain ⟨rfl, rfl⟩ := hrun.unique hrun'
    obtain ⟨-, hasked⟩ := hnull rfl
    rw [hkeep] at hasked
    cases hasked
  · intro hfits es r hrun phys' ctor hfresh' hctor
    obtain ⟨hsz, hle, V, h⟩ := slabRun_inv hfits hfresh hsupply hcreate hcache hrun
    obtain ⟨x, s', V', hret, -, hinv, hnull⟩ :=
      slabAlloc_spec (h.serving phys') hsz hle rfl hfresh' hctor
    refine ⟨x, s', hret, hnull, fun hx => ?_⟩
    rw [if_neg hx] at hinv
    exact hinv.layout.live_in_page List.mem_cons_self

/-- The object is in the page that the cache was given. -/
theorem slab_alloc_null_iff_two : ∃ (s s' : SlabState Flat) (obj : Nat),
    Returns (slabCacheCreate flat 1 2024)
      ⟨⟨0, 0, 0, 0⟩, ⟨fun _ => 0, [0x100000], fun _ _ => 0, fun _ => none⟩⟩ 1 s ∧
    Returns (slabAlloc flat none) (SlabSys.serving ⟨s, granted 0x100000, []⟩ 0) obj s' ∧
    (obj = 0 → s'.mach.supply = []) := by
  obtain ⟨s, hs⟩ := slabCacheCreate_two
  have hall := (slab_alloc_null_iff (by decide) fresh_megabyte rfl hs (by decide)).mpr (by decide)
  obtain ⟨obj, s', hrun, hnull, -⟩ := hall [] _ (.nil _) 0 none (.inl rfl) fun _ hf => nomatch hf
  exact ⟨s, s', obj, hs, hrun, fun hobj => (hnull hobj).2⟩

/-- Objects of a page each: the cache is created, and its first `slab_alloc` returns `NULL`
without a call of `pmm_alloc_page`, which would have given a page. -/
theorem slab_alloc_fails_with_memory : ∃ s s' : SlabState Flat,
    Returns (slabCacheCreate flat 1 4096)
      ⟨⟨0, 0, 0, 0⟩, ⟨fun _ => 0, [0x100000], fun _ _ => 0, fun _ => none⟩⟩ 1 s ∧
    Fresh (granted 0x100000) 0x101000 ∧
    Returns (slabAlloc flat none) (SlabSys.serving ⟨s, granted 0x100000, []⟩ 0x101000) 0 s' ∧
    s'.mach.supply = [0x101000] := by
  have heval : ((slabCacheCreate flat 1 4096
      ⟨⟨0, 0, 0, 0⟩, ⟨fun _ => 0, [0x100000], fun _ _ => 0, fun _ => none⟩⟩).bind fun r =>
        (slabAlloc flat none (SlabSys.serving ⟨r.2, granted 0x100000, []⟩ 0x101000)).map fun r' =>
          (r.1, r'.1, r'.2.mach.supply)) = some (1, 0, [0x101000]) := by
    decide +kernel
  obtain ⟨⟨c, s⟩, hs, heval⟩ := Option.bind_eq_some_iff.mp heval
  obtain ⟨⟨obj, s'⟩, hs', heq⟩ := Option.map_eq_some_iff.mp heval
  simp only [Prod.mk.injEq] at heq
  obtain ⟨rfl, rfl, hsupply⟩ := heq
  exact ⟨s, s', hs, .inr ⟨⟨by decide, by decide, by decide⟩, by decide⟩, hs', hsupply⟩

end GosKernel.Slab
