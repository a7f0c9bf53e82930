import GosKernel.Mm.VmmRefinement

/-!
# The rights of a page

The processor takes the rights of a page from all four entries of the walk: a page is writable,
or open to user code, if all of them say so, and it must not be executed if one of them says so
(`effectiveRights`).

The entries that refer to tables are written by `vmm_get_or_create_table` only, as present and
writable and nothing else, whatever the pages are mapped for (`Linked`, kept by every call). So
no page is ever open to user code, and the leaf decides the rest. It has the low twelve bits of
the flags, and bit 63, the one against execution, from the address of the frame
(`Linked.rights_mapPage`).
-/

namespace GosKernel.Mm

open Exec TableTree

/-! ## Effective rights -/

/-- What a page may be used for. -/
structure Rights where
  writable : Bool
  user : Bool
  noExecute : Bool
deriving DecidableEq, Repr

namespace Rights

/-- The rights that an entry, or an argument `flags`, stands for. -/
def ofBits (x : Nat) : Rights where
  writable := x &&& pageWritable ≠ 0
  user := x &&& pageUser ≠ 0
  noExecute := x &&& pageNx ≠ 0

/-- What two entries on one walk leave. -/
def meet (r t : Rights) : Rights where
  writable := r.writable && t.writable
  user := r.user && t.user
  noExecute := r.noExecute || t.noExecute

end Rights

/-- The rights along a walk; `e P i` is entry `i` of the table in frame `P`. -/
def walkRights (e : Nat → Fin 512 → Nat) : List (Fin 512) → Nat → Option Rights
  | [], _ => some ⟨true, true, false⟩
  | i :: path, table =>
    -- an entry that is not present ends the walk
    (entryFrame (e table i)).bind fun next =>
      (walkRights e path next).map (Rights.ofBits (e table i)).meet

/-- **The effective rights** of the page of `virt`, if it is mapped. -/
def effectiveRights (e : Nat → Fin 512 → Nat) (root virt : Nat) : Option Rights :=
  walkRights e [indexAt virt 3, indexAt virt 2, indexAt virt 1, indexAt virt 0] root

/-! ## Bits of entries -/

theorem and_two_pow_ne_zero (x k : Nat) : decide (x &&& 2 ^ k ≠ 0) = x.testBit k := by
  rw [Nat.and_two_pow]
  cases x.testBit k <;> simp

theorem Rights.ofBits_eq (x : Nat) : Rights.ofBits x = ⟨x.testBit 1, x.testBit 2, x.testBit 63⟩ :=
  congr (congrArg₂ Rights.mk (and_two_pow_ne_zero x 1) (and_two_pow_ne_zero x 2))
    (and_two_pow_ne_zero x 63)

/-- The entries `vmm_get_or_create_table` writes. -/
theorem rights_table {P : Nat} (hP : P % 4096 = 0) (hP64 : P + kernelVbase < 2 ^ 64) :
    Rights.ofBits (P ||| (pagePresent ||| pageWritable)) = ⟨true, false, false⟩ := by
  have hlow : P.testBit 2 = false := by
    rw [Nat.testBit_eq_decide_div_mod_eq]
    exact decide_eq_false (by omega)
  have hhigh : P.testBit 63 = false := by
    refine Nat.testBit_lt_two_pow ?_
    unfold kernelVbase at hP64
    omega
  have hflags : pagePresent ||| pageWritable = 3 := by decide
  rw [hflags, Rights.ofBits_eq]
  simp only [Nat.testBit_or, hlow, hhigh]
  rw [show Nat.testBit 3 1 = true by decide, Bool.or_true]
  rfl

/-- The entries `vmm_map_page` writes: bit 63 is not one of the flags. -/
theorem rights_leaf (phys flags : Nat) :
    Rights.ofBits (pageMask phys ||| (flags &&& 0xFFF) ||| pagePresent) =
      ⟨flags.testBit 1, flags.testBit 2, phys.testBit 63⟩ := by
  rw [Rights.ofBits_eq]
  simp only [pageMask, pagePresent, Nat.testBit_or, Nat.testBit_and]
  rw [show Nat.testBit 0xFFFFFFFFFFFFF000 1 = false by decide,
    show Nat.testBit 0xFFFFFFFFFFFFF000 2 = false by decide,
    show Nat.testBit 0xFFFFFFFFFFFFF000 63 = true by decide,
    show Nat.testBit 0xFFF 1 = true by decide, show Nat.testBit 0xFFF 2 = true by decide,
    show Nat.testBit 0xFFF 63 = false by decide, show Nat.testBit 0x1 1 = false by decide,
    show Nat.testBit 0x1 2 = false by decide, show Nat.testBit 0x1 63 = false by decide]
  simp

/-! ## The tables -/

section Linked

variable {σ : Type} {M : Machine σ}

/-- Every entry that refers to a table is as `vmm_get_or_create_table` writes it. -/
structure Linked (R : TableReads M) (s : VmmState σ) (root : Nat) : Prop where
  tables : Tables R s root
  links : Links entryFrame (R.ent s.mach) root 3 fun P x => x = P ||| (pagePresent ||| pageWritable)

variable {R : TableReads M} {V : TableView M} {s s' : VmmState σ} {root : Nat}

variable {P flags i n phys virt : Nat}

/-- The rights an entry gives that refers to a table. -/
theorem Linked.rights (h : Linked R s root) (path : List (Fin 512)) {i : Fin 512} {N : Nat}
    (hlen : path.length < 3) (hP : R.table s root path = some P)
    (hN : entryFrame (R.ent s.mach P i) = some N) :
    Rights.ofBits (R.ent s.mach P i) = ⟨true, false, false⟩ := by
  have hown := h.tables.tree.own (show (i :: path).length ≤ 3 from hlen)
    ((R.table_cons hP i).trans hN)
  obtain ⟨hpage, hlt⟩ := R.ok_page hown.1
  rw [h.links path i P N hlen hP hN]
  exact rights_table hpage hlt

/-- **Only the leaf counts**, and user code is kept out. -/
theorem Linked.rights_eq_leaf (h : Linked R s root) (hP : R.table s root (tablePath virt) = some P)
    (hpresent : entryFrame (R.ent s.mach P (indexAt virt 0)) ≠ none) :
    effectiveRights (R.ent s.mach) root virt =
      some { Rights.ofBits (R.ent s.mach P (indexAt virt 0)) with user := false } := by
  -- the three entries above the leaf
  obtain ⟨P1, hP1, h0⟩ := Option.bind_eq_some_iff.mp hP
  obtain ⟨P2, hP2, h1⟩ := Option.bind_eq_some_iff.mp hP1
  obtain ⟨P3, hP3, h2⟩ := Option.bind_eq_some_iff.mp hP2
  cases hP3
  obtain ⟨F, hF⟩ := Option.ne_none_iff_exists'.mp hpresent
  unfold effectiveRights walkRights walkRights walkRights walkRights walkRights
  rw [h2, Option.bind_some, h1, Option.bind_some, h0, Option.bind_some, hF,
    h.rights [] (by simp) rfl h2, h.rights [_] (by simp) hP2 h1,
    h.rights [_, _] (by simp) hP1 h0]
  simp [Rights.meet]

/-! ### One call -/

section

variable (h : Linked V.toTableReads s root)
include h

theorem Linked.getOrCreateTable (path : List (Fin 512))
    (i : Fin 512) {a : Nat} (hlen : path.length < 3) (hP : V.table s root path = some P)
    (hrun : Returns (vmmGetOrCreateTable M (P + kernelVbase) i (pagePresent ||| pageWritable)) s a
      s') :
    ∃ N, a = N + kernelVbase ∧ Linked V.toTableReads s' root ∧
      V.table s' root (i :: path) = some N := by
  rcases vmmGetOrCreateTable_spec h.tables path i hlen hP with
    ⟨hstop, -⟩ | ⟨N, s1, hspec, htables, -, -, htab, -⟩
  · rw [Returns, hstop] at hrun
    cases hrun
  obtain ⟨rfl, rfl⟩ := hrun.unique hspec
  refine ⟨N, rfl, ⟨htables, ?_⟩, (htab (i :: path) hlen).trans (if_pos rfl)⟩
  cases hchild : V.table s root (i :: path) with
  | some N' =>
    -- the entry stays as it is, with the flags of the call that created the table
    have hsame := vmmGetOrCreateTable_present path i (pagePresent ||| pageWritable) h.tables.good
      (h.tables.tree.own hlen.le hP).1 hP hchild (h.tables.window (show (i :: path).length ≤ 3 from hlen) hchild)
    rw [(hrun.unique hsame).2]
    exact h.links
  | none =>
    rcases vmmGetOrCreateTable_absent h.tables path i hlen hP hchild with
      ⟨hstop, -⟩ | ⟨N', s2, hspec', -, hown, -, hzero, hold⟩
    · rw [Returns, hstop] at hrun
      cases hrun
    obtain ⟨-, rfl⟩ := hrun.unique hspec'
    obtain ⟨hpage, hlt⟩ := V.ok_page hown.1
    refine h.tables.tree.links_create hP hold hlen ((V.table_cons hP i).symm.trans hchild)
      (entryFrame_table hpage (by omega)).2 (fun j => ?_) h.links rfl
    rw [hzero j, entryFrame_zero]

theorem Linked.setEntry (virt : Nat) {v : Nat}
    (hP : V.table s root (tablePath virt) = some P) (hv : v < 2 ^ 64)
    (hrun : Returns (setEntry M (P + kernelVbase) (indexAt virt 0) v) s () s') :
    Linked V.toTableReads s' root ∧ V.table s' root (tablePath virt) = some P ∧
      V.ent s'.mach P (indexAt virt 0) = v := by
  have hown := h.tables.tree.own (le_refl 3) hP
  obtain ⟨s1, hset, htables, -, htab, -⟩ := setEntry_leaf h.tables virt hP hv
  obtain ⟨-, rfl⟩ := hrun.unique hset
  obtain ⟨s2, hset', -, hent⟩ := setEntry_returns (V := V) (indexAt virt 0) h.tables.good hown.1 hv
  obtain ⟨-, rfl⟩ := hrun.unique hset'
  refine ⟨⟨htables, ?_⟩, (htab _ (le_refl 3)).trans hP, (hent P hown.1 _).trans (if_pos ⟨rfl, rfl⟩)⟩
  exact h.tables.tree.links_write_leaf hP (fun Q hQ => hent Q hQ.1) rfl h.links

/-- **`vmm_map_page`** writes the page's entry as the arguments say. -/
theorem Linked.mapPage
    (hphys : phys < 2 ^ 64) (hrun : Returns (vmmMapPage M virt phys flags) s () s') :
    Linked V.toTableReads s' root ∧ ∃ P, V.table s' root (tablePath virt) = some P ∧
      V.ent s'.mach P (indexAt virt 0) = pageMask phys ||| (flags &&& 0xFFF) ||| pagePresent := by
  rw [vmmMapPage, Returns, h.tables.read_pml4.bind_eq, if_neg (window_ne_zero root)] at hrun
  -- three levels of tables, then the entry
  obtain ⟨_, s1, hrun1, hrun⟩ := returns_bind hrun
  obtain ⟨P2, rfl, h1, hP2⟩ := h.getOrCreateTable [] (indexAt virt 3) (by simp) rfl hrun1
  obtain ⟨_, s2, hrun2, hrun⟩ := returns_bind hrun
  obtain ⟨P1, rfl, h2, hP1⟩ := h1.getOrCreateTable [_] (indexAt virt 2) (by simp) hP2 hrun2
  obtain ⟨_, s3, hrun3, hrun⟩ := returns_bind hrun
  obtain ⟨P, rfl, h3, hP⟩ := h2.getOrCreateTable [_, _] (indexAt virt 1) (by simp) hP1 hrun3
  obtain ⟨h', hP', hent⟩ := h3.setEntry virt hP (entryFrame_leaf flags hphys).1 hrun
  exact ⟨h', P, hP', hent⟩

/-- **The rights after `vmm_map_page`.** -/
theorem Linked.rights_mapPage
    (hphys : phys < 2 ^ 64) (hrun : Returns (vmmMapPage M virt phys flags) s () s') :
    effectiveRights (V.ent s'.mach) root virt =
      some ⟨flags.testBit 1, false, phys.testBit 63⟩ := by
  obtain ⟨h', P, hP, hent⟩ := h.mapPage hphys hrun
  have hpresent : entryFrame (V.ent s'.mach P (indexAt virt 0)) ≠ none := by
    rw [hent, (entryFrame_leaf flags hphys).2]
    exact Option.some_ne_none _
  rw [h'.rights_eq_leaf hP hpresent, hent, rights_leaf]

/-- `vmm_unmap_page` clears the page's entry or does nothing. -/
theorem Linked.unmapPage
    (hrun : Returns (vmmUnmapPage M virt) s () s') : Linked V.toTableReads s' root := by
  have hpte := vmmGetPte_spec h.tables virt
  rw [vmmUnmapPage, Returns, h.tables.read_pml4.bind_eq, if_neg (window_ne_zero root),
    hpte.bind_eq] at hrun
  cases hP : V.table s root (tablePath virt) with
  | none =>
    rw [hP] at hrun
    cases hrun
    exact h
  | some P =>
    rw [hP] at hrun
    rw [if_neg (pte_ne_zero _ _), (h.tables.load_pte hP).bind_eq] at hrun
    split at hrun
    · exact (h.setEntry virt hP (by norm_num) hrun).1
    · cases hrun
      exact h

theorem Linked.mapRangeLoop (hrun : Returns (vmmMapRangeLoop M virt phys flags n i) s () s') :
    Linked V.toTableReads s' root := by
  induction n generalizing i s with
  | zero =>
    cases hrun
    exact h
  | succ n ih =>
    obtain ⟨_, s1, hrun1, hrun⟩ := returns_bind hrun
    exact ih (h.mapPage (wrap64_lt _) hrun1).1 hrun

theorem Linked.unmapRangeLoop
    (hrun : Returns (vmmUnmapRangeLoop M virt n i) s () s') : Linked V.toTableReads s' root := by
  induction n generalizing i s with
  | zero =>
    cases hrun
    exact h
  | succ n ih =>
    obtain ⟨_, s1, hrun1, hrun⟩ := returns_bind hrun
    exact ih (h.unmapPage hrun1) hrun

/-- **Every call** keeps the entries that refer to tables. -/
theorem Linked.step {c : VmmCall} (hc : c.Words)
    (hstep : VmmStep M s c s') : Linked V.toTableReads s' root := by
  cases c with
  | mapPage virt phys flags => exact (h.mapPage hc.2.1 hstep).1
  | unmapPage virt => exact h.unmapPage hstep
  | mapRange virt phys count flags => exact h.mapRangeLoop hstep
  | unmapRange virt count => exact h.unmapRangeLoop hstep

end

/-- Any run of calls on a cleared PML4. -/
theorem linked_of_run {s0 s1 : VmmState σ} (hpml4 : s0.kernelPml4 = root + kernelVbase)
    (hgood : V.Good s0.mach) (hroot : V.own s0.mach root)
    (hclear : Returns (vmmClearLoop M (root + kernelVbase) ptEntries 0) s0 () s1)
    {calls : List VmmCall} (hwords : ∀ c ∈ calls, c.Words) (hrun : Run (VmmStep M) s1 calls s) :
    Linked V.toTableReads s root := by
  obtain ⟨hrefines, hempty⟩ := refines_of_clear hpml4 hgood hroot hclear
  have hnone : ∀ i, entryFrame (V.ent s1.mach root i) = none := fun i =>
    (V.table_cons (show V.table s1 root [] = some root from rfl) i).symm.trans (hempty i [])
  have hstart : Linked V.toTableReads s1 root := ⟨hrefines.tables, .single hnone⟩
  clear hclear hrefines hempty hnone
  induction hrun with
  | nil s => exact hstart
  | cons hstep _ ih =>
    obtain ⟨hc, hwords⟩ := List.forall_mem_cons.mp hwords
    exact ih hwords (hstart.step hc hstep)

/-- **The rights of a page are those asked for** if and only if user code is not to use it, and
bit 63 of the address of the frame is the one of the flags. Before it any calls may have been
made on a cleared PML4; `vmm_map_page` returns if three tables can be created. -/
theorem effective_rights_iff {s0 s1 : VmmState σ} (hpml4 : s0.kernelPml4 = root + kernelVbase)
    (hgood : V.Good s0.mach) (hroot : V.own s0.mach root)
    (hclear : Returns (vmmClearLoop M (root + kernelVbase) ptEntries 0) s0 () s1)
    {calls : List VmmCall} (hwords : ∀ c ∈ calls, c.Words) (hrun : Run (VmmStep M) s1 calls s)
    {virt phys flags : Nat} (hcall : (VmmCall.mapPage virt phys flags).Words) :
    (3 ≤ V.avail s.mach → ∃ s', VmmStep M s (.mapPage virt phys flags) s') ∧
    ∀ s', VmmStep M s (.mapPage virt phys flags) s' →
      (effectiveRights (V.ent s'.mach) root virt = some (.ofBits flags) ↔
        flags &&& pageUser = 0 ∧ (flags &&& pageNx ≠ 0 ↔ phys &&& pageNx ≠ 0)) := by
  have h := linked_of_run hpml4 hgood hroot hclear hwords hrun
  constructor
  · intro havail
    have hrefines := (refines_of_clear hpml4 hgood hroot hclear).1.run hwords hrun
    rcases (VmmCall.mapPage virt phys flags).exec_refines hcall hrefines with
      ⟨-, hlt⟩ | ⟨s', hstep, -⟩
    · exact absurd havail (Nat.not_le.mpr hlt)
    · exact ⟨s', hstep⟩
  · intro s' hstep
    have huser : flags &&& pageUser = 0 ↔ flags.testBit 2 = false := by
      rw [← and_two_pow_ne_zero, decide_eq_false_iff_not, not_not]
      rfl
    have hnx : ∀ x, x &&& pageNx ≠ 0 ↔ x.testBit 63 = true := by
      intro x
      rw [← and_two_pow_ne_zero, decide_eq_true_iff]
      rfl
    rw [h.rights_mapPage hcall.2.1 hstep, Option.some_inj, Rights.ofBits_eq, Rights.mk.injEq, huser,
      hnx, hnx, ← Bool.eq_iff_iff]
    constructor
    · rintro ⟨-, huser, hphys⟩
      exact ⟨huser.symm, hphys.symm⟩
    · rintro ⟨huser, hphys⟩
      exact ⟨rfl, huser.symm, hphys.symm⟩

end Linked

/-- A PML4 in private memory, and three frames. -/
def rightsStart : VmmState Flat :=
  ⟨0x1000 + kernelVbase, ⟨fun _ => 0xFF, [0x2000, 0x3000, 0x4000], fun _ _ => 0, fun _ => none⟩⟩

theorem rightsStart_good : flatView.Good rightsStart.mach := by
  show List.Nodup [0x2000, 0x3000, 0x4000] ∧ ∀ P ∈ [0x2000, 0x3000, 0x4000], P ≠ 0 ∧
    P % 4096 = 0 ∧ P + kernelVbase < 2 ^ 64
  decide

theorem rightsStart_root : flatView.own rightsStart.mach 0x1000 := by
  show (0x1000 % 4096 = 0 ∧ 0x1000 + kernelVbase < 2 ^ 64) ∧ 0x1000 ∉ [0x2000, 0x3000, 0x4000]
  decide

/-- A page of the kernel, to read and write. -/
theorem effective_rights_iff_kernel :
    ∃ s1 s', Returns (vmmClearLoop Flat.machine.toMachine (0x1000 + kernelVbase) ptEntries 0)
        rightsStart () s1 ∧
      VmmStep Flat.machine.toMachine s1 (.mapPage 0xFFFF800000000000 0x12000 3) s' ∧
      effectiveRights (flatView.ent s'.mach) 0x1000 0xFFFF800000000000 =
        some (.ofBits (pagePresent ||| pageWritable)) := by
  obtain ⟨s1, hclear, hkeep, -⟩ := vmmClearLoop_spec rightsStart_root.1 512 0 (by omega)
    rightsStart rightsStart_good
  have havail : 3 ≤ flatView.avail s1.mach := hkeep.avail.le
  obtain ⟨hreturns, hrights⟩ := effective_rights_iff rfl rightsStart_good rightsStart_root hclear
    (List.forall_mem_nil _) (.nil s1)
    (show (VmmCall.mapPage 0xFFFF800000000000 0x12000 (pagePresent ||| pageWritable)).Words from
      ⟨by decide, by decide, by decide⟩)
  obtain ⟨s', hstep⟩ := hreturns havail
  exact ⟨s1, s', hclear, hstep, (hrights s' hstep).mpr (by decide)⟩

/-- Read-only data of a program, as `elf_load` maps it: user code may not read it, and it may be
executed. -/
theorem effective_rights_of_user_data :
    ∃ s1 s', Returns (vmmClearLoop Flat.machine.toMachine (0x1000 + kernelVbase) ptEntries 0)
        rightsStart () s1 ∧
      VmmStep Flat.machine.toMachine s1
        (.mapPage 0x400000 0x12000 (pagePresent ||| pageUser ||| pageNx)) s' ∧
      Rights.ofBits (pagePresent ||| pageUser ||| pageNx) = ⟨false, true, true⟩ ∧
      effectiveRights (flatView.ent s'.mach) 0x1000 0x400000 = some ⟨false, false, false⟩ := by
  obtain ⟨s1, hclear, hkeep, -⟩ := vmmClearLoop_spec rightsStart_root.1 512 0 (by omega)
    rightsStart rightsStart_good
  have havail : 3 ≤ flatView.avail s1.mach := hkeep.avail.le
  have hrefines := (refines_of_clear rfl rightsStart_good rightsStart_root hclear).1
  have h := linked_of_run rfl rightsStart_good rightsStart_root hclear (List.forall_mem_nil _)
    (.nil s1)
  rcases (VmmCall.mapPage 0x400000 0x12000 (pagePresent ||| pageUser ||| pageNx)).exec_refines
    ⟨by decide, by decide, by decide⟩ hrefines with ⟨-, hlt⟩ | ⟨s', hstep, -⟩
  · exact absurd havail (Nat.not_le.mpr hlt)
  · refine ⟨s1, s', hclear, hstep, by decide, ?_⟩
    rw [h.rights_mapPage (by decide) hstep]
    decide

end GosKernel.Mm
