import GosKernel.Ipc.SharedCalls
import GosKernel.Mm.DirectMap

/-!
# A shared region is found again under its name

The table keeps the first 31 characters of a name, and lookups compare all of it; and a
region that exists is handed out whatever its size. **`shm_contract`**: with names that
fit and sizes that the region has, every name has one region, at one address, for as long
as there are references to it.
-/

namespace GosKernel.Ipc

open Exec List Function

variable {σ : Type}

/-- The largest `int`. -/
def intMax : Int := 2 ^ 31 - 1

/-- The name of a new region fits its field, an existing region has the size that is
asked for, and its references can be counted. -/
def ShmEvent.Fair (regions : Fin shmMaxRegions → ShmRegion) : ShmEvent → Prop
  | .create name size _ => name.bytes.length < shmNameMax ∧
      ∀ i, shmFind regions name = some i →
        size ≤ (regions i).size ∧ (regions i).refcount < intMax
  | .opened name _ => ∀ i, shmFind regions name = some i → (regions i).refcount < intMax
  | .close _ _ => True

def FairStep (M : ShmMachine σ) (s : ShmState σ) (e : ShmEvent) (s' : ShmState σ) : Prop :=
  ShmStep M s e s' ∧ e.Fair s.regions

/-! ## One region for a name -/

/-- Names are not shared, and the references are those that were taken. -/
structure TableOk (es : List ShmEvent) (regions : Fin shmMaxRegions → ShmRegion) : Prop where
  unique : ∀ i j, (regions i).valid = true → (regions j).valid = true →
    (regions i).name = (regions j).name → i = j
  count : ∀ i, (regions i).valid = true →
    (regions i).refcount = refs (regions i).name es ∧ 0 < refs (regions i).name es
  absent : ∀ name, shmFind regions name = none → refs name es = 0
  addr : ∀ i, (regions i).valid = true → (regions i).addr = shmVirt i

/-- What one call does to the table and to the references of each name. -/
inductive TableStep (regions : Fin shmMaxRegions → ShmRegion) (e : ShmEvent) :
    (Fin shmMaxRegions → ShmRegion) → Prop
  | same (hrefs : ∀ name n, e.refs name n = n) : TableStep regions e regions
  | reopen {i} (hvalid : (regions i).valid = true)
      (hrefs : ∀ name n, e.refs name n = if (regions i).name = name then n + 1 else n) :
      TableStep regions e (Function.update regions i (regions i).reopened)
  | close {i} (hvalid : (regions i).valid = true)
      (hrefs : ∀ name n, e.refs name n = if (regions i).name = name then n - 1 else n) :
      TableStep regions e (Function.update regions i (regions i).closed)
  | make {i name size} (habsent : shmFind regions name = none)
      (hfree : (regions i).valid = false)
      (hfits : name.take (shmNameMax - 1) = name)
      (hrefs : ∀ name' n, e.refs name' n = if name = name' then n + 1 else n) :
      TableStep regions e (Function.update regions i (newRegion i name size))

variable {M : ShmMachine σ} {e : ShmEvent} {es : List ShmEvent} {i : Fin shmMaxRegions}
  {name : CString} {regions : Fin shmMaxRegions → ShmRegion} {s s' : ShmState σ} {size : Nat}

theorem CString.take_of_fits {n : Nat} (h : name.bytes.length ≤ n) : name.take n = name := by
  obtain ⟨bytes, hnul⟩ := name
  simp only [CString.take, CString.mk.injEq]
  exact take_of_length_le h

theorem TableOk.find (h : TableOk es regions) (hvalid : (regions i).valid = true) :
    shmFind regions (regions i).name = some i := by
  cases hfind : shmFind regions (regions i).name with
  | none => exact absurd rfl (shmFind_none.mp hfind i hvalid)
  | some j =>
    obtain ⟨hj, hname⟩ := shmFind_some hfind
    rw [h.unique j i hj hvalid hname]

theorem FairStep.table (h : FairStep M s e s') : TableStep s.regions e s'.regions := by
  obtain ⟨hstep, hfair⟩ := h
  cases e with
  | create name size ret =>
    obtain ⟨-, fuel, hret⟩ := hstep
    rcases shmCreate_outcome hret with ⟨i, -, hfind, rfl, rfl⟩ | ⟨i, -, rfl, hmake⟩ |
      ⟨hne, hreg, -⟩
    · obtain ⟨hvalid, rfl⟩ := shmFind_some hfind
      exact .reopen hvalid fun name n => by simp [ShmEvent.refs]
    · rw [hmake.regions]
      have hle : name.bytes.length ≤ shmNameMax - 1 := Nat.le_sub_one_of_lt hfair.1
      exact .make hmake.absent (by simpa using List.find?_some hmake.free) (CString.take_of_fits hle)
        fun name' n => by simp [ShmEvent.refs]
    · rw [hreg]
      exact .same fun name n => by simp [ShmEvent.refs, hne]
  | opened name ret =>
    rcases shmOpen_cases hstep with ⟨i, hfind, rfl, rfl⟩ | ⟨-, rfl, rfl⟩
    · obtain ⟨hvalid, rfl⟩ := shmFind_some hfind
      exact .reopen hvalid fun name n => by simp [ShmEvent.refs]
    · exact .same fun name n => by simp [ShmEvent.refs, enoent]
  | close name ret =>
    rcases shmClose_cases hstep with ⟨i, hfind, rfl, rfl⟩ | ⟨-, rfl, rfl⟩
    · obtain ⟨hvalid, rfl⟩ := shmFind_some hfind
      exact .close hvalid fun name n => by simp [ShmEvent.refs]
    · exact .same fun name n => by simp [ShmEvent.refs, enoent]

variable {es' : List ShmEvent} {r : ShmRegion} {regions' : Fin shmMaxRegions → ShmRegion}

/-- A lookup that fails after a change to slot `i` failed before, unless slot `i` was
found. -/
theorem shmFind_none_of_update (h : shmFind (Function.update regions i r) name = none)
    (hi : (regions i).valid = true → (regions i).name ≠ name) : shmFind regions name = none := by
  rw [shmFind_none] at h ⊢
  intro j hj
  by_cases hji : j = i
  · subst hji
    exact hi hj
  · have hnew := h j
    rw [update_of_ne hji] at hnew
    exact hnew hj

/-- A slot gets the region `r`. Nobody else has its name, and the references of the other
names stay. -/
theorem TableOk.write (h : TableOk es regions)
    (hothers : ∀ j, j ≠ i → (regions j).valid = true → (regions j).name ≠ r.name)
    (hname : (regions i).valid = true → (regions i).name = r.name)
    (hrefs : ∀ name, r.name ≠ name → refs name (es ++ [e]) = refs name es)
    (hcount : r.valid = true →
      r.refcount = refs r.name (es ++ [e]) ∧ 0 < refs r.name (es ++ [e]))
    (hgone : r.valid = false → refs r.name (es ++ [e]) = 0)
    (haddr : r.valid = true → r.addr = shmVirt i) :
    TableOk (es ++ [e]) (Function.update regions i r) := by
  constructor
  · intro j k hj hk heq
    by_cases hji : j = i <;> by_cases hki : k = i
    · rw [hji, hki]
    · subst hji
      rw [update_self, update_of_ne hki] at heq
      rw [update_of_ne hki] at hk
      exact absurd heq.symm (hothers k hki hk)
    · subst hki
      rw [update_self, update_of_ne hji] at heq
      rw [update_of_ne hji] at hj
      exact absurd heq (hothers j hji hj)
    · rw [update_of_ne hji] at hj heq
      rw [update_of_ne hki] at hk heq
      exact h.unique j k hj hk heq
  · intro j hj
    by_cases hji : j = i
    · subst hji
      rw [update_self] at hj ⊢
      exact hcount hj
    · rw [update_of_ne hji] at hj ⊢
      rw [hrefs _ (hothers j hji hj).symm]
      exact h.count j hj
  · intro name hnone
    by_cases hn : r.name = name
    · subst hn
      have hi := shmFind_none.mp hnone i
      rw [update_self] at hi
      exact hgone (Bool.eq_false_iff.mpr fun hv => hi hv rfl)
    · rw [hrefs name hn]
      exact h.absent name (shmFind_none_of_update hnone fun hv heq => hn ((hname hv).symm.trans heq))
  · intro j hj
    by_cases hji : j = i
    · subst hji
      rw [update_self] at hj ⊢
      exact haddr hj
    · rw [update_of_ne hji] at hj ⊢
      exact h.addr j hj

theorem TableOk.reopen (h : TableOk es regions) (hvalid : (regions i).valid = true)
    (hrefs : ∀ name n, e.refs name n = if (regions i).name = name then n + 1 else n) :
    TableOk (es ++ [e]) (Function.update regions i (regions i).reopened) := by
  refine h.write (fun j hji hj heq => hji (h.unique j i hj hvalid heq)) (fun _ => rfl)
    (fun name (hne : (regions i).name ≠ name) => by rw [refs_snoc, hrefs, if_neg hne])
    (fun _ => ?_) (fun hgone => absurd (hvalid.symm.trans hgone) Bool.noConfusion)
    fun _ => h.addr i hvalid
  show (regions i).refcount + 1 = refs (regions i).name _ ∧ 0 < refs (regions i).name _
  obtain ⟨hcount, hpos⟩ := h.count i hvalid
  rw [refs_snoc, hrefs, if_pos rfl]
  omega

/-- One reference less; the last one takes the region with it. -/
theorem TableOk.close (h : TableOk es regions) (hvalid : (regions i).valid = true)
    (hrefs : ∀ name n, e.refs name n = if (regions i).name = name then n - 1 else n) :
    TableOk (es ++ [e]) (Function.update regions i (regions i).closed) := by
  obtain ⟨hcount, hpos⟩ := h.count i hvalid
  have hself : refs (regions i).name (es ++ [e]) = refs (regions i).name es - 1 := by
    rw [refs_snoc, hrefs, if_pos rfl]
  refine h.write (fun j hji hj heq => hji (h.unique j i hj hvalid heq)) (fun _ => rfl)
    (fun name (hne : (regions i).name ≠ name) => by rw [refs_snoc, hrefs, if_neg hne])
    (fun hv => ?_) (fun hv => ?_) fun _ => h.addr i hvalid
  · have hmore : ¬ (regions i).refcount - 1 ≤ 0 := by
      intro hle
      simp [ShmRegion.closed, hle] at hv
    show (regions i).refcount - 1 = refs (regions i).name _ ∧ 0 < refs (regions i).name _
    omega
  · have hlast : (regions i).refcount - 1 ≤ 0 := by
      by_contra hmore
      simp [ShmRegion.closed, hmore, hvalid] at hv
    show refs (regions i).name _ = 0
    omega

/-- The first region of a name. -/
theorem TableOk.make (h : TableOk es regions) (habsent : shmFind regions name = none)
    (hfits : name.take (shmNameMax - 1) = name) (hfree : (regions i).valid = false)
    (hrefs : ∀ name' n, e.refs name' n = if name = name' then n + 1 else n) :
    TableOk (es ++ [e]) (Function.update regions i (newRegion i name size)) := by
  have hnew : (newRegion i name size).name = name := hfits
  refine h.write (fun j _ hj heq => shmFind_none.mp habsent j hj (heq.trans hnew))
    (fun hv => absurd (hfree.symm.trans hv) Bool.noConfusion) (fun name' hne => ?_) (fun _ => ?_)
    (fun hgone => Bool.noConfusion hgone) fun _ => rfl
  · rw [refs_snoc, hrefs, if_neg (hnew ▸ hne)]
  · rw [hnew, refs_snoc, hrefs, if_pos rfl, h.absent name habsent]
    exact ⟨rfl, Nat.one_pos⟩

theorem TableStep.ok (hok : TableOk es regions)
    (h : TableStep regions e regions') : TableOk (es ++ [e]) regions' := by
  cases h with
  | same hrefs =>
    have hall : ∀ name, refs name (es ++ [e]) = refs name es := by
      intro name
      rw [refs_snoc, hrefs]
    constructor
    · exact hok.unique
    · intro i hi
      rw [hall]
      exact hok.count i hi
    · intro name hnone
      rw [hall]
      exact hok.absent name hnone
    · exact hok.addr
  | reopen hvalid hrefs => exact hok.reopen hvalid hrefs
  | close hvalid hrefs => exact hok.close hvalid hrefs
  | make habsent hfree hfits hrefs => exact hok.make habsent hfits hfree hrefs

/-- A region stays in its slot while there are references to its name. -/
theorem TableStep.keeps (hok : TableOk es regions) (h : TableStep regions e regions')
    (hvalid : (regions i).valid = true) (hpos : 0 < refs (regions i).name (es ++ [e])) :
    (regions' i).valid = true ∧ (regions' i).name = (regions i).name := by
  cases h with
  | same hrefs => exact ⟨hvalid, rfl⟩
  | @reopen j hj hrefs =>
    by_cases hij : i = j
    · subst hij
      simp [ShmRegion.reopened, hvalid]
    · rw [update_of_ne hij]
      exact ⟨hvalid, rfl⟩
  | @close j hj hrefs =>
    by_cases hij : i = j
    · subst hij
      rw [refs_snoc, hrefs, if_pos rfl] at hpos
      obtain ⟨hcount, -⟩ := hok.count i hvalid
      have hmore : ¬ (regions i).refcount - 1 ≤ 0 := by omega
      simp only [update_self, ShmRegion.closed, hmore]
      exact ⟨hvalid, trivial⟩
    · rw [update_of_ne hij]
      exact ⟨hvalid, rfl⟩
  | @make j name size habsent hfree hfits hrefs =>
    have hij : i ≠ j := by
      rintro rfl
      rw [hfree] at hvalid
      cases hvalid
    rw [update_of_ne hij]
    exact ⟨hvalid, rfl⟩

/-! ## Whole runs -/

theorem TableOk.bss (m : σ) : TableOk [] (ShmState.bss m).regions where
  unique _ _ h := by cases h
  count _ h := by cases h
  absent _ _ := rfl
  addr _ h := by cases h

theorem Run.tableOk (hrun : Run (FairStep M) s es' s') (hok : TableOk es s.regions) :
    TableOk (es ++ es') s'.regions :=
  hrun.invariant_trace (I := fun es s => TableOk es s.regions)
    (fun _ _ _ _ hs h => h.table.ok hs) hok

/-- Over a run: the slot of a name, as long as the references never run out. -/
theorem Run.keeps (hrun : Run (FairStep M) s es' s')
    (hok : TableOk es s.regions) (hvalid : (s.regions i).valid = true)
    (hname : (s.regions i).name = name) (hpos : ∀ pre, pre <+: es' → 0 < refs name (es ++ pre)) :
    (s'.regions i).valid = true ∧ (s'.regions i).name = name := by
  induction hrun generalizing es with
  | nil s => exact ⟨hvalid, hname⟩
  | @cons s s1 s2 e es' hstep _ ih =>
    have hfirst : 0 < refs (s.regions i).name (es ++ [e]) := by
      rw [hname]
      exact hpos [e] ⟨es', rfl⟩
    obtain ⟨hvalid1, hname1⟩ := hstep.table.keeps hok hvalid hfirst
    refine ih (hstep.table.ok hok) hvalid1 (hname1.trans hname) ?_
    intro pre hpre
    rw [append_assoc]
    exact hpos (e :: pre) ((prefix_cons_inj e).mpr hpre)

/-- A region that is found is handed out, with one more reference. -/
theorem shmOpen_found (h : shmFind s.regions name = some i) :
    Returns (shmOpen (some name) true) s (0, some (s.regions i).addr)
      (s.setRegion i (s.regions i).reopened) := by
  unfold Returns shmOpen
  simp only [Bool.true_eq_false, if_false, bind_apply, read_apply, Option.bind_some, id, h]
  rfl

theorem shmCreate_found (M : ShmMachine σ) (fuel : Nat) (hsize : size ≠ 0)
    (h : shmFind s.regions name = some i) :
    Returns (shmCreate M fuel (some name) size true) s (0, some (s.regions i).addr)
      (s.setRegion i (s.regions i).reopened) := by
  unfold Returns shmCreate
  simp only [Bool.true_eq_false, false_or, hsize, if_false, bind_apply, read_apply,
    Option.bind_some, id, h]
  rfl

/-- The kernel's own machine. -/
theorem noEmptyRange_hw : NoEmptyRange Mm.Hw.shm := by
  intro fuel s phys s' h
  cases h
  rfl

/-- The pages of a new region hold the size that was asked for: a size whose rounding
wraps asks for no pages, and gets none. -/
theorem size_le_newRegion (hM : NoEmptyRange M) {fuel : Nat} (hsize : size < 2 ^ 64)
    (h : MakesRegion M fuel s name size i s') : size ≤ (newRegion i name size).size := by
  obtain ⟨phys, m, halloc, hphys, -⟩ := h.machine
  have hpos : shmPages size ≠ 0 := by
    intro hzero
    rw [hzero] at halloc
    exact hphys (hM _ _ _ _ halloc)
  have hsum : size + 4095 < 2 ^ 64 := by
    by_contra hover
    apply hpos
    show (size + 4095) % 2 ^ 64 / 4096 = 0
    omega
  have hpages : shmPages size = (size + 4095) / 4096 := by
    show wrap64 (size + 4095) / 4096 = _
    rw [wrap64_of_lt hsum]
  show size ≤ wrap64 (shmPages size * 4096)
  rw [wrap64_of_lt (by omega)]
  omega

/-- The region that a successful `shm_create` hands out. -/
theorem created_region (hM : NoEmptyRange M)
    {a : Nat} (h : FairStep M s (.create name size (0, some a)) s') :
    ∃ i, (s'.regions i).valid = true ∧ (s'.regions i).name = name ∧
      (s'.regions i).addr = a ∧ size ≤ (s'.regions i).size := by
  obtain ⟨⟨hlt, fuel, hret⟩, hlen, hfound⟩ := h
  rcases shmCreate_outcome hret with ⟨i, -, hfind, hr, rfl⟩ | ⟨i, -, hr, hmake⟩ | ⟨hne, -⟩
  · obtain ⟨hvalid, hname⟩ := shmFind_some hfind
    have haddr : a = (s.regions i).addr := Option.some.inj (Prod.mk.inj hr).2
    refine ⟨i, ?_⟩
    simp only [ShmState.setRegion, update_self]
    exact ⟨hvalid, hname, haddr.symm, (hfound i hfind).1⟩
  · have haddr : a = shmVirt i := Option.some.inj (Prod.mk.inj hr).2
    refine ⟨i, ?_⟩
    rw [hmake.regions, update_self]
    exact ⟨rfl, CString.take_of_fits (Nat.le_sub_one_of_lt hlen), haddr.symm,
      size_le_newRegion hM hlt hmake⟩
  · exact absurd rfl hne

/-- **The contract.** In every fair run, a `shm_create` that returns 0 hands out a region
of at least the size asked for; and in every fair continuation in which the references
to the name never run out, the name has exactly one region, still at that address, which
`shm_open` and `shm_create`, for any size, hand out again. -/
theorem shm_contract {M : ShmMachine σ} (hM : NoEmptyRange M) {m : σ} {es : List ShmEvent}
    {s s1 : ShmState σ} (hrun : Run (FairStep M) (.bss m) es s) {name : CString}
    {size a : Nat} (hcreate : FairStep M s (.create name size (0, some a)) s1) :
    (∃ i, (s1.regions i).valid = true ∧ (s1.regions i).name = name ∧
      (s1.regions i).addr = a ∧ size ≤ (s1.regions i).size) ∧
    ∀ es' s2, Run (FairStep M) s1 es' s2 →
      (∀ pre, pre <+: es' → 0 < refs name (es ++ [.create name size (0, some a)] ++ pre)) →
      (∃ i, ∀ j, (s2.regions j).valid = true ∧ (s2.regions j).name = name ↔ j = i) ∧
      (∃ s3, Returns (shmOpen (some name) true) s2 (0, some a) s3) ∧
      ∀ fuel size', size' ≠ 0 →
        ∃ s3, Returns (shmCreate M fuel (some name) size' true) s2 (0, some a) s3 := by
  obtain ⟨i, hvalid, hname, haddr, hsize⟩ := created_region hM hcreate
  refine ⟨⟨i, hvalid, hname, haddr, hsize⟩, ?_⟩
  intro es' s2 hrun' hpos
  have hok := Run.tableOk hrun (.bss m)
  have hok1 : TableOk (es ++ [.create name size (0, some a)]) s1.regions :=
    hcreate.table.ok hok
  obtain ⟨hvalid2, hname2⟩ := Run.keeps hrun' hok1 hvalid hname hpos
  have hok2 := Run.tableOk hrun' hok1
  have haddr2 : (s2.regions i).addr = a := by
    rw [hok2.addr i hvalid2, ← hok1.addr i hvalid, haddr]
  have hfind : shmFind s2.regions name = some i := hname2 ▸ hok2.find hvalid2
  refine ⟨⟨i, ?_⟩, ⟨_, haddr2 ▸ shmOpen_found hfind⟩, ?_⟩
  · intro j
    constructor
    · rintro ⟨hj, hjname⟩
      exact hok2.unique j i hj hvalid2 (hjname.trans hname2.symm)
    · rintro rfl
      exact ⟨hvalid2, hname2⟩
  · intro fuel size' hne
    exact ⟨_, haddr2 ▸ shmCreate_found M fuel hne hfind⟩

/-- A name of `n` letters. -/
def letters (n : Nat) : CString := ⟨List.replicate n 97, by
  intro h
  exact absurd (List.eq_of_mem_replicate h) (by decide)⟩

/-- A region of 100 bytes with a name of three letters is opened again. -/
theorem shm_contract_reopened :
    ∃ s1 s2, FairStep pmmShm (.bss freeFrames) (.create (letters 3) 100 (0, some (shmVirt 0))) s1 ∧
      Returns (shmOpen (some (letters 3)) true) s1 (0, some (shmVirt 0)) s2 := by
  have heval : (shmCreate pmmShm 1 (some (letters 3)) 100 true (.bss freeFrames)).map Prod.fst
      = some (0, some (shmVirt 0)) := by decide +kernel
  obtain ⟨⟨r, s1⟩, hret, rfl⟩ := Option.map_eq_some_iff.mp heval
  have hstep : FairStep pmmShm (.bss freeFrames)
      (.create (letters 3) 100 (0, some (shmVirt 0))) s1 := by
    refine ⟨⟨by decide, 1, hret⟩, by decide, ?_⟩
    intro i hi
    cases hi
  have hM : NoEmptyRange pmmShm := by
    intro fuel s phys s' h
    cases h
    rfl
  obtain ⟨-, hcont⟩ := shm_contract hM (.nil _) hstep
  obtain ⟨-, ⟨s2, hopen⟩, -⟩ := hcont [] s1 (.nil _) (by
    intro pre hpre
    rw [List.prefix_nil.mp hpre]
    decide)
  exact ⟨s1, s2, hstep, hopen⟩

/-- A name of 32 letters is not found again: `shm_open` fails, and a second `shm_create`
makes a second region. And 8192 bytes are granted in a region of one page. -/
theorem long_name_not_found :
    ((shmCreate pmmShm 1 (some (letters 32)) 100 true (.bss freeFrames)).bind fun r =>
      (shmOpen (some (letters 32)) true r.2).map fun q => (r.1, q.1))
      = some ((0, some (shmVirt 0)), (-enoent, none)) ∧
    ((shmCreate pmmShm 1 (some (letters 32)) 100 true (.bss freeFrames)).bind fun r =>
      (shmCreate pmmShm 1 (some (letters 32)) 100 true r.2).map fun q => (r.1, q.1))
      = some ((0, some (shmVirt 0)), (0, some (shmVirt 1))) ∧
    ((shmCreate pmmShm 1 (some (letters 3)) 100 true (.bss freeFrames)).bind fun r =>
      (shmCreate pmmShm 1 (some (letters 3)) 8192 true r.2).map fun q =>
        (q.1, (q.2.regions 0).size))
      = some ((0, some (shmVirt 0)), 4096) := by
  decide +kernel

end GosKernel.Ipc
