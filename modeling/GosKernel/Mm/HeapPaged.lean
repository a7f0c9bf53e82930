import GosKernel.Mm.DirectMap
import GosKernel.Mm.HeapSim
import GosKernel.Mm.HeapSpec

/-!
# The heap behind the page tables

`HwRel root top t s`: the machine `s`, whose tables start at `root`, holds in the frames of the
heap's pages what the private memory `t` holds at their addresses, its allocator has the frames
`t` will be given, and it reaches the tables of the pages below `top` through the window. Then
the code does on the one machine what it does on the other (`heapSim`): no access goes to a table
or to the frame of another page, and `vmm_map_page` finds its tables, where it finds them now, and
takes no frames.
-/

namespace GosKernel.Mm

open Exec TableTree List

/-! ## The frames still to come -/

/-- Do the next `n` calls of `pmm_alloc_page` succeed? -/
def pmmServes : Nat → Pmm → Bool
  | 0, _ => true
  | n + 1, p => decide ((pmmAllocPage p).1 ≠ 0) && pmmServes n (pmmAllocPage p).2

/-- What the next calls of `pmm_alloc_page` return, up to `n` of them. -/
def pmmAnswers : Nat → Pmm → List Nat
  | 0, _ => []
  | n + 1, p =>
    if (pmmAllocPage p).1 = 0 then [] else (pmmAllocPage p).1 :: pmmAnswers n (pmmAllocPage p).2

section

variable {p : Pmm} {n k : Nat}

/-- A call either fails and changes nothing, or takes a frame behind the hint. -/
theorem pmmAllocPage_cases (h : p.WF) :
    pmmAllocPage p = (0, p) ∨ ∃ g, (pmmAllocPage p).1 = g * 4096 ∧
      Takes p (pmmAllocPage p).2 g 1 ∧ p.firstFreePage < (pmmAllocPage p).2.firstFreePage ∧
      p.firstFreePage < p.totalPages := by
  rcases pmmAllocPage_spec h with ⟨hfail, -⟩ | ⟨g, hg, htakes, -⟩
  · exact .inl hfail
  · refine .inr ⟨g, hg, htakes, ?_⟩
    have hlo := htakes.lo
    rw [pmmAllocPage] at hg ⊢
    cases hfind : pmmFindClear p p.firstFreePage (p.totalPages - p.firstFreePage) with
    | none =>
      rw [hfind] at hg
      have hg' : 0 = g * 4096 := hg
      omega
    | some page =>
      obtain ⟨⟨h1, h2⟩, -⟩ := pmmFindClear_eq_some.mp hfind
      show p.firstFreePage < page + 1 ∧ _
      omega

/-- What these calls return. -/
theorem Pmm.Packed.pmmAnswers_eq (h : p.Packed n) (hk : 0xFF00 ≤ n + k) :
    pmmAnswers k p = (List.range' n (0xFF00 - n)).map (· * 4096) := by
  induction k generalizing p n with
  | zero =>
    rw [show 0xFF00 - n = 0 by omega]
    rfl
  | succ k ih =>
    rw [pmmAnswers]
    rcases h.alloc with ⟨rfl, hfail⟩ | ⟨hn, -, hpacked⟩
    · rw [if_pos (by rw [hfail])]
      rfl
    · have hlo := h.lo
      have hhi := hpacked.hi
      rw [if_neg (by omega), hn, ih hpacked (by omega),
        show 0xFF00 - n = 0xFF00 - (n + 1) + 1 by omega]
      rfl

/-- The answers of an allocator are all it has. -/
def Answers (p : Pmm) (supply : List Nat) : Prop :=
  ∃ n, p.totalPages ≤ p.firstFreePage + n ∧ supply = pmmAnswers n p

theorem answers_total (p : Pmm) : Answers p (pmmAnswers p.totalPages p) :=
  ⟨_, Nat.le_add_left _ _, rfl⟩

theorem Pmm.Packed.answers (h : p.Packed n) :
    Answers p ((List.range' n (0xFF00 - n)).map (· * 4096)) := by
  have htotal := h.wf.total
  exact ⟨p.totalPages, Nat.le_add_left _ _, (h.pmmAnswers_eq (by omega)).symm⟩

/-- One call: either it fails and there are no answers, or it gives the first of them. -/
theorem Answers.alloc {supply : List Nat} (h : Answers p supply) (hwf : p.WF) :
    (pmmAllocPage p = (0, p) ∧ supply = []) ∨ ∃ g rest, (pmmAllocPage p).1 = g * 4096 ∧
      supply = g * 4096 :: rest ∧ Takes p (pmmAllocPage p).2 g 1 ∧
      Answers (pmmAllocPage p).2 rest := by
  obtain ⟨n, hn, rfl⟩ := h
  rcases pmmAllocPage_cases hwf with hfail | ⟨g, hg, htakes, hfirst, hlt⟩
  · refine .inl ⟨hfail, ?_⟩
    cases n with
    | zero => rfl
    | succ n => rw [pmmAnswers, if_pos (by rw [hfail])]
  · obtain ⟨n, rfl⟩ : ∃ m, n = m + 1 := ⟨n - 1, by omega⟩
    have hlo := htakes.lo
    have htotal := htakes.wf.total
    have htotal' := hwf.total
    refine .inr ⟨g, _, hg, ?_, htakes, n, by omega, rfl⟩
    rw [pmmAnswers, if_neg (by omega), hg]

theorem Answers.serves {supply : List Nat} (h : Answers p supply) (hwf : p.WF) :
    serves k supply = pmmServes k p := by
  induction k generalizing p supply with
  | zero => cases supply <;> rfl
  | succ k ih =>
    rw [pmmServes]
    rcases h.alloc hwf with ⟨hfail, rfl⟩ | ⟨g, rest, hg, rfl, htakes, hrest⟩
    · simp [Mm.serves, hfail]
    · rw [Mm.serves, ih hrest htakes.wf, hg]

end

/-! ## Writes outside of the tables -/

section Frames

variable {root Q : Nat} {s s' : Hw}

/-- A frame in use that holds no table. -/
structure DataFrame (root : Nat) (s : Hw) (Q : Nat) : Prop where
  page : Q % 4096 = 0
  used : ¬ s.Free Q
  apart : ∀ path, path.length ≤ 3 → tableAt s root path ≠ some Q

/-- Where the entries of all tables are the same, so is every translation. -/
theorem tables_congr (h : ∀ path P, path.length ≤ 3 → tableAt s root path = some P →
      ∀ i, s'.ent P i = s.ent P i) :
    (∀ path, path.length ≤ 3 → tableAt s' root path = tableAt s root path) ∧
      ∀ v, walk s'.ram root v = walk s.ram root v := by
  have hnode : ∀ path, path.length ≤ 3 → tableAt s' root path = tableAt s root path :=
    fun path hlen => TableTree.node_congr h hlen
  refine ⟨hnode, fun v => ?_⟩
  have hwalk : ∀ s : Hw, walk s.ram root v = (leaf entryFrame s.ent root (tablePath v)
      (indexAt v 0)).bind entryFrame := fun s => (hwReads_translate (H := ∅) ⟨0, s⟩ v).symm
  rw [hwalk, hwalk]
  unfold leaf
  rw [show node entryFrame s'.ent root (tablePath v) = _ from hnode (tablePath v) (le_refl 3)]
  cases hP : tableAt s root (tablePath v) with
  | none =>
    rw [show node entryFrame s.ent root (tablePath v) = none from hP, Option.map_none,
      Option.map_none]
  | some P =>
    rw [show node entryFrame s.ent root (tablePath v) = some P from hP]
    exact congrArg entryFrame (h _ P (le_refl 3) hP _)

theorem TreeOk.congr (h : TreeOk root s) (hpmm : s'.pmm = s.pmm)
    (htable : ∀ path, path.length ≤ 3 → tableAt s' root path = tableAt s root path) :
    TreeOk root s' where
  inj hlen hlen' hp hp' :=
    h.inj hlen hlen' ((htable _ hlen).symm.trans hp) ((htable _ hlen').symm.trans hp')
  own hlen hp := by
    obtain ⟨hok, hused⟩ := h.own hlen ((htable _ hlen).symm.trans hp)
    refine ⟨hok, fun hfree => hused ?_⟩
    show pmmTestBit s.pmm _ = false
    rw [← hpmm]
    exact hfree

/-- A write to a frame that holds no table. -/
theorem DataFrame.write (hQ : DataFrame root s Q) (htree : TreeOk root s) {ram : ByteMem}
    (hram : ∀ x, x < Q ∨ Q + 4096 ≤ x → ram x = s.ram x) :
    TreeOk root { s with ram := ram } ∧
      (∀ path, path.length ≤ 3 → tableAt { s with ram := ram } root path = tableAt s root path) ∧
      ∀ v, walk ram root v = walk s.ram root v := by
  have hent : ∀ path P, path.length ≤ 3 → tableAt s root path = some P →
      ∀ i, Hw.ent { s with ram := ram } P i = s.ent P i := by
    intro path P hlen hP i
    have hpage := (htree.own hlen hP).1.1.1
    have hne : P ≠ Q := fun heq => hQ.apart path hlen (heq ▸ hP)
    have hQpage := hQ.page
    exact ByteMem.load64_congr fun x h1 h2 => hram x (by omega)
  obtain ⟨htable, hwalk⟩ := tables_congr hent
  exact ⟨htree.congr rfl htable, htable, hwalk⟩

end Frames

/-! ## The relation -/

/-- On the pages of `t` below `top`, the machine `s` is the private memory `t`. -/
structure HwRel (root top : Nat) (t : Flat) (s : VmmState Hw) : Prop where
  top_le : top ≤ heapTop
  cr3 : s.mach.cr3 = some root
  pml4 : s.kernelPml4 = root + kernelVbase
  tree : TreeOk root s.mach
  /-- The tables of the pages are below the heap, and the window reaches them. -/
  reach : ∀ virt, HeapPage top virt → ∀ path, path <:+ tablePath virt → ∃ P,
    tableAt s.mach root path = some P ∧ P < 0x400000 ∧
      walk s.mach.ram root (kernelVbase + P) = some P
  /-- The other pages of the heap are as `vmm_init` left them. -/
  above : ∀ virt, HeapPage heapTop virt → top ≤ virt →
    walk s.mach.ram root virt = some (virt - kernelVbase) ∧
      tableAt s.mach root (tablePath virt) =
        some (root + (517 + (virt - kernelVbase) / 0x200000) * 4096)
  wf : s.mach.pmm.WF
  supply : Answers s.mach.pmm t.supply
  page : ∀ {p Q}, t.mapped p = some Q → HeapPage top p ∧ walk s.mach.ram root p = some Q ∧
    DataFrame root s.mach Q ∧ ∀ i < 4096, s.mach.ram (Q + i) = t.mem (p + i)
  apart : ∀ {p p' Q}, t.mapped p = some Q → t.mapped p' = some Q → p = p'
  /-- What the frames hold that are still to come. -/
  fresh : ∀ Q, Q % 4096 = 0 → s.mach.Free Q → ∀ i < 4096, s.mach.ram (Q + i) = t.frame Q i

section Rel

variable {root top p Q : Nat} {t t' : Flat} {s : VmmState Hw}

/-- The tables tell the pages of the heap apart, and from the frames below it. -/
theorem HeapPage.pageNumber_inj {p q : Nat} (hp : HeapPage heapTop p) (hq : HeapPage heapTop q)
    (h : pageNumber p = pageNumber q) : p = q := by
  obtain ⟨hp, hplo, hphi⟩ := hp
  obtain ⟨hq, hqlo, hqhi⟩ := hq
  unfold heapTop heapBase heapMaxSize at *
  unfold pageNumber at h
  omega

theorem HeapPage.pageNumber_ne {p P : Nat} (hp : HeapPage heapTop p) (hP : P < 0x400000) :
    pageNumber (kernelVbase + P) ≠ pageNumber p := by
  obtain ⟨hp, hplo, hphi⟩ := hp
  unfold heapTop heapBase heapMaxSize at *
  unfold pageNumber kernelVbase
  omega

theorem HeapPage.mono (h : HeapPage top p) (htop : top ≤ heapTop) : HeapPage heapTop p :=
  ⟨h.1, h.2.1, h.2.2.trans_le htop⟩

/-- An access goes to the frame of its page. -/
theorem physical_of_walk {s : Hw} (hcr3 : s.cr3 = some root) {addr : Nat}
    (hwalk : walk s.ram root (addr / 4096 * 4096) = some Q) :
    s.physical addr = some (Q + addr % 4096) := by
  have hsame : pageNumber addr = pageNumber (addr / 4096 * 4096) := by
    unfold pageNumber
    omega
  unfold Hw.physical
  rw [hcr3]
  show (walk s.ram root addr).map _ = _
  rw [walk_congr hsame, hwalk]
  rfl

theorem HwRel.physical (h : HwRel root top t s) {addr : Nat} (hm : t.Mapped addr) :
    ∃ Q, t.mapped (addr / 4096 * 4096) = some Q ∧ s.mach.physical addr = some (Q + addr % 4096) ∧
      ∀ i < 4096, s.mach.ram (Q + i) = t.mem (addr / 4096 * 4096 + i) := by
  obtain ⟨Q, hQ⟩ := Option.isSome_iff_exists.mp hm
  obtain ⟨-, hwalk, -, hbytes⟩ := h.page hQ
  exact ⟨Q, hQ, physical_of_walk h.cr3 hwalk, hbytes⟩

/-- A write to the frame of a mapped page. -/
theorem HwRel.write (h : HwRel root top t s) (hp : t.mapped p = some Q) (ram mem : ByteMem)
    (hram : ∀ x, x < Q ∨ Q + 4096 ≤ x → ram x = s.mach.ram x)
    (hmem : ∀ x, x < p ∨ p + 4096 ≤ x → mem x = t.mem x)
    (hnew : ∀ i < 4096, ram (Q + i) = mem (p + i)) :
    HwRel root top { t with mem := mem } { s with mach := { s.mach with ram := ram } } := by
  obtain ⟨hpage, -, hdata, -⟩ := h.page hp
  obtain ⟨htree, htable, hwalk⟩ := hdata.write h.tree hram
  refine ⟨h.top_le, h.cr3, h.pml4, htree, fun virt hv path hpath => ?_,
    fun virt hv hle => ⟨(hwalk _).trans (h.above virt hv hle).1,
      (htable _ (le_refl 3)).trans (h.above virt hv hle).2⟩,
    h.wf, h.supply, fun {p' Q'} hp' => ?_, h.apart, fun Q' hQ' hfree i hi => ?_⟩
  · obtain ⟨P, hP, hlt, hwin⟩ := h.reach virt hv path hpath
    exact ⟨P, (htable path (hpath.length_le)).trans hP, hlt, (hwalk _).trans hwin⟩
  · obtain ⟨hpage', hQ', hdata', hbytes⟩ := h.page hp'
    refine ⟨hpage', (hwalk p').trans hQ', ⟨hdata'.page, hdata'.used, fun path hlen hx =>
      hdata'.apart path hlen ((htable path hlen).symm.trans hx)⟩, fun i hi => ?_⟩
    by_cases heq : p' = p
    · subst heq
      rw [Option.some.inj (hp'.symm.trans hp)]
      exact hnew i hi
    · have hne : Q' ≠ Q := fun hx => heq (h.apart hp' (hx ▸ hp))
      have h1 := hdata.page
      have h2 := hdata'.page
      have h3 := hpage'.1
      have h4 := hpage.1
      show ram (Q' + i) = mem (p' + i)
      rw [hram _ (by omega), hmem _ (by omega)]
      exact hbytes i hi
  · have hne : Q' ≠ Q := fun hx => hdata.used (hx ▸ hfree)
    have h1 := hdata.page
    show ram (Q' + i) = t.frame Q' i
    rw [hram _ (by omega)]
    exact h.fresh Q' hQ' hfree i hi

/-- A frame in use that is nobody's yet. -/
structure Fresh (root : Nat) (t : Flat) (s : Hw) (phys : Nat) : Prop where
  framed : Framed phys
  data : DataFrame root s phys
  unmapped : ∀ p, t.mapped p ≠ some phys
  bytes : ∀ i < 4096, s.ram (phys + i) = t.frame phys i

/-- Frames are taken. -/
theorem HwRel.takes (h : HwRel root top t s) {pmm : Pmm} {supply : List Nat} (hwf : pmm.WF)
    (hsupply : Answers pmm supply)
    (hbits : ∀ g, pmmTestBit pmm g = false → pmmTestBit s.mach.pmm g = false) :
    HwRel root top { t with supply := supply } { s with mach := { s.mach with pmm := pmm } } where
  top_le := h.top_le
  cr3 := h.cr3
  pml4 := h.pml4
  tree := h.tree.mono fun _ hP => ⟨hP.1, fun hx => hP.2 (hbits _ hx)⟩
  reach := h.reach
  above := h.above
  wf := hwf
  supply := hsupply
  page hp := by
    obtain ⟨hpage, hQ, hdata, hbytes⟩ := h.page hp
    exact ⟨hpage, hQ, ⟨hdata.page, fun hx => hdata.used (hbits _ hx), hdata.apart⟩, hbytes⟩
  apart := h.apart
  fresh Q hQ hfree := h.fresh Q hQ (hbits _ hfree)

/-- `pmm_alloc_page` gives the next frame of the supply. It was free, so it is nobody's. -/
theorem HwRel.alloc (h : HwRel root top t s) {phys : Nat}
    (hret : Returns Flat.allocPage t phys t') :
    ∃ s', Returns Hw.paged.pmmAllocPage s phys s' ∧ HwRel root top t' s' ∧
      ((phys = 0 ∧ s' = s) ∨ (phys ≠ 0 ∧ Fresh root t' s'.mach phys ∧
        s'.mach.pmm.usedPages = s.mach.pmm.usedPages + 1)) := by
  have hrun : Returns Hw.paged.pmmAllocPage s (pmmAllocPage s.mach.pmm).1
    { s with mach := { s.mach with pmm := (pmmAllocPage s.mach.pmm).2 } } := rfl
  rcases h.supply.alloc h.wf with ⟨hfail, hnil⟩ | ⟨g, rest, hg, hcons, htakes, hrest⟩
  · rw [Returns, Flat.allocPage, hnil] at hret
    cases hret
    rw [hfail] at hrun
    exact ⟨s, hrun, h, .inl ⟨rfl, rfl⟩⟩
  rw [Returns, Flat.allocPage, hcons] at hret
  cases hret
  have hlo := htakes.lo
  have hhi := htakes.hi
  have hdiv : g * 4096 / 4096 = g := Nat.mul_div_cancel g (by norm_num)
  have hfree : s.mach.Free (g * 4096) := by
    unfold Hw.Free
    rw [hdiv]
    exact htakes.clear g le_rfl (Nat.lt_succ_self g)
  rw [hg] at hrun
  refine ⟨_, hrun, h.takes htakes.wf hrest fun g' hg' => ?_, .inr ⟨by omega,
    ⟨⟨by omega, by omega⟩, ⟨by omega, fun hx => ?_, fun path hlen hP => ?_⟩,
      fun p hp => (h.page hp).2.2.1.used hfree, h.fresh _ (by omega) hfree⟩,
    Takes.usedPages h.wf htakes⟩⟩
  · rw [htakes.bits, Bool.or_eq_false_iff] at hg'
    exact hg'.2
  · unfold Hw.Free at hx
    rw [hdiv, htakes.bits] at hx
    simp at hx
  · exact (h.tree.own hlen hP).2 hfree

/-- `vmm_map_page` of a page of the heap writes the entry of a table that is there, and the page
has the frame. -/
theorem HwRel.map (h : HwRel root top t s) {virt phys : Nat} (hvirt : HeapPage top virt)
    (hphys : Fresh root t s.mach phys) (flags : Nat) :
    ∃ ram, Returns (Hw.paged.vmmMapPage virt phys flags) s ()
        { s with mach := { s.mach with ram := ram } } ∧
      HwRel root top { t with
        mem := t.mem.overlay virt 4096 (t.frame phys)
        mapped := Function.update t.mapped virt (some phys) } { s with mach := { s.mach with ram := ram } } := by
  obtain ⟨P, hP, -⟩ := h.reach virt hvirt _ suffix_rfl
  have hPown := h.tree.own (le_refl 3) hP
  have hPne : P ≠ phys := fun hx => hphys.data.apart _ (le_refl 3) (hx ▸ hP)
  have hPpage := hPown.1.1.1
  obtain ⟨hppage, hplt⟩ := hphys.framed
  have hmask : pageMask phys = phys := by
    rw [pageMask_eq (by omega)]
    omega
  obtain ⟨ram, hrun, hram, htree, htable, hwalk⟩ := vmmMapPage_store h.cr3 h.pml4 h.tree
    (fun path Q hpath hQ => by
      obtain ⟨Q', hQ', -, hwin⟩ := h.reach virt hvirt path hpath
      rwa [Option.some.inj (hQ'.symm.trans hQ)] at hwin) hP phys flags (by omega)
  rw [hmask] at hwalk
  have hvtop := hvirt.mono h.top_le
  -- every other page of the heap keeps its frame
  have hold : ∀ {p Q}, t.mapped p = some Q → p ≠ virt → walk ram root p = some Q :=
    fun {p Q} hp hne => (hwalk p).trans ((if_neg fun hx =>
      hne (((h.page hp).1.mono h.top_le).pageNumber_inj hvtop hx)).trans (h.page hp).2.1)
  have hself : walk ram root virt = some phys := (hwalk virt).trans (if_pos rfl)
  refine ⟨ram, hrun, h.top_le, h.cr3, h.pml4, htree, fun w hw path hpath => ?_, fun w hw hle => ?_,
    h.wf, h.supply, fun {p Q} hp => ?_, fun {p p' Q} hp hp' => ?_, fun Q hQ hfree i hi => ?_⟩
  · obtain ⟨Q, hQ, hlt, hwin⟩ := h.reach w hw path hpath
    exact ⟨Q, (htable path hpath.length_le).trans hQ, hlt,
      (hwalk _).trans ((if_neg (hvtop.pageNumber_ne hlt)).trans hwin)⟩
  · obtain ⟨hw1, hw2⟩ := h.above w hw hle
    refine ⟨(hwalk w).trans ((if_neg fun hx => ?_).trans hw1), (htable _ (le_refl 3)).trans hw2⟩
    exact absurd hvirt.2.2 (not_lt.mpr (hw.pageNumber_inj hvtop hx ▸ hle))
  · by_cases hpv : p = virt
    · subst hpv
      obtain rfl : phys = Q := Option.some.inj ((Function.update_self p _ t.mapped).symm.trans hp)
      refine ⟨hvirt, hself, ⟨hppage, hphys.data.used, fun path hlen hx =>
        hphys.data.apart path hlen ((htable path hlen).symm.trans hx)⟩, fun i hi => ?_⟩
      show ram (phys + i) = t.mem.overlay p 4096 (t.frame phys) (p + i)
      rw [hram _ (by omega), ByteMem.overlay, if_pos (by omega), Nat.add_sub_cancel_left]
      exact hphys.bytes i hi
    · replace hp : t.mapped p = some Q := (Function.update_of_ne hpv ..).symm.trans hp
      obtain ⟨hpage, -, hdata', hb⟩ := h.page hp
      refine ⟨hpage, hold hp hpv, ⟨hdata'.page, hdata'.used, fun path hlen hx =>
        hdata'.apart path hlen ((htable path hlen).symm.trans hx)⟩, fun i hi => ?_⟩
      have h1 := hdata'.page
      have h2 := hpage.1
      have h3 := hvirt.1
      have hne : P ≠ Q := fun hx => hdata'.apart _ (le_refl 3) (hx ▸ hP)
      show ram (Q + i) = t.mem.overlay virt 4096 (t.frame phys) (p + i)
      rw [hram _ (by omega), ByteMem.overlay, if_neg (by omega)]
      exact hb i hi
  · dsimp only at hp hp'
    rw [Function.update_apply] at hp hp'
    split at hp <;> split at hp'
    · rename_i h1 h2
      rw [h1, h2]
    · cases hp
      exact absurd hp' (hphys.unmapped p')
    · cases hp'
      exact absurd hp (hphys.unmapped p)
    · exact h.apart hp hp'
  · have hne : P ≠ Q := fun hx => hPown.2 (hx ▸ hfree)
    show ram (Q + i) = t.frame Q i
    rw [hram _ (by omega)]
    exact h.fresh Q hQ hfree i hi

end Rel

/-! ## The simulation -/

/-- `N` is the machine behind the page tables, as far as the heap may use it. -/
structure OnHw (N : PagedMachine (VmmState Hw)) : Prop where
  toMachine : N.toMachine = Hw.paged.toMachine
  map : ∀ {virt : Nat} (phys flags : Nat), HeapPage heapTop virt →
    N.vmmMapPage virt phys flags = Hw.paged.vmmMapPage virt phys flags

theorem onHw_paged : OnHw Hw.paged := ⟨rfl, fun _ _ _ => rfl⟩

/-- The frames in use before and after a loop of `n` pages: the first page decides whether
anything changes. -/
def Spends (n : Nat) (g g' : HeapState (VmmState Hw)) : Prop :=
  g.mach.mach.pmm.usedPages ≤ g'.mach.mach.pmm.usedPages ∧ (0 < n →
    (pmmServes 1 g.mach.mach.pmm = true ∧
      g.mach.mach.pmm.usedPages < g'.mach.mach.pmm.usedPages) ∨
    (pmmServes 1 g.mach.mach.pmm = false ∧ g' = g))

section Sim

variable {N : PagedMachine (VmmState Hw)} (hN : OnHw N) {root top : Nat}

theorem returns_ite {σ α : Type} {p : σ → Prop} [DecidablePred p] {c : Exec σ α} {s s' : σ} {a : α}
    (hret : Returns (fun s => if p s then c s else none) s a s') : p s ∧ Returns c s a s' := by
  by_cases hp : p s
  · exact ⟨hp, (if_pos hp).symm.trans hret⟩
  · rw [Returns, if_neg hp] at hret
    cases hret

include hN

/-- The loop of `heap_extend`. -/
theorem heapExtendLoop_hw {h h' : HeapState Flat} {g : HeapState (VmmState Hw)} {ok : Bool}
    {n i : Nat} (hrel : HeapRel (HwRel root top) h g)
    (hret : Returns (heapExtendLoop (pagedFlat top) n i) h ok h') :
    ∃ g', Returns (heapExtendLoop N n i) g ok g' ∧ HeapRel (HwRel root top) h' g' ∧
      Spends n g g' := by
  induction n generalizing i h g with
  | zero =>
    cases hret
    exact ⟨g, rfl, hrel, le_rfl, fun hn => absurd hn (lt_irrefl 0)⟩
  | succ n ih =>
    obtain ⟨phys, h1, halloc, hrest⟩ := returns_bind hret
    obtain ⟨t1, hflat, rfl⟩ := returns_onMach halloc
    obtain ⟨s1, hrun1, hrel1, hcase⟩ := hrel.mach.alloc hflat
    have hrun1' : Returns (onMach N.pmmAllocPage) g phys { g with mach := s1 } := by
      rw [hN.toMachine]
      exact onMach_returns hrun1
    have hone : pmmServes 1 g.mach.mach.pmm = decide (phys ≠ 0) := by
      have hphys : (pmmAllocPage g.mach.mach.pmm).1 = phys :=
        congrArg Prod.fst (Option.some.inj hrun1)
      rw [pmmServes, pmmServes, hphys, Bool.and_true]
    rcases hcase with ⟨rfl, rfl⟩ | ⟨hphys, hfresh, hused⟩
    · rw [if_pos rfl] at hrest
      cases hrest
      exact ⟨g, hrun1'.bind_eq, hrel.on_mach hrel1, le_rfl,
        fun _ => .inr ⟨hone, rfl⟩⟩
    rw [if_neg hphys] at hrest
    obtain ⟨e, h2, hread, hrest'⟩ := returns_bind hrest
    cases hread
    obtain ⟨⟨⟩, h3, hmap, hloop⟩ := returns_bind hrest'
    obtain ⟨t2, hmap', rfl⟩ := returns_onMach hmap
    replace hmap' : (if HeapPage top (wrap64 (h.heapEnd + i * pageSize)) then
      Flat.machine.vmmMapPage (wrap64 (h.heapEnd + i * pageSize)) phys (pagePresent ||| pageWritable)
      else .stop) t1 = some ((), t2) := hmap'
    by_cases hvirt : HeapPage top (wrap64 (h.heapEnd + i * pageSize))
    · rw [if_pos hvirt] at hmap'
      cases hmap'
      obtain ⟨ram, hrun2, hrel2⟩ := hrel1.map hvirt hfresh (pagePresent ||| pageWritable)
      obtain ⟨g', hloop', hrel', hspends⟩ := ih (hrel.on_mach hrel2) hloop
      have hmono : s1.mach.pmm.usedPages ≤ g'.mach.mach.pmm.usedPages := hspends.1
      rw [← hN.map phys (pagePresent ||| pageWritable) (hvirt.mono hrel.mach.top_le),
        hrel.stop] at hrun2
      refine ⟨g', ?_, hrel', by omega, fun _ => .inl ⟨by rw [hone]; exact decide_eq_true hphys,
        by omega⟩⟩
      rw [Returns, heapExtendLoop, hrun1'.bind_eq, if_neg hphys, read_bind]
      exact (onMach_returns hrun2).bind_eq.trans hloop'
    · rw [if_neg hvirt] at hmap'
      cases hmap'

/-- **The heap behind the page tables** does what it does on private memory. -/
theorem heapSim : MachineSim (pagedFlat top) N (HwRel root top) where
  load8 addr t s a t' hrel hret := by
    obtain ⟨hm, hret⟩ := returns_ite hret
    cases hret
    obtain ⟨Q, -, hphys, hbytes⟩ := hrel.physical hm
    refine ⟨s, ?_, hrel⟩
    have hbyte := hbytes (addr % 4096) (Nat.mod_lt _ (by norm_num))
    rw [Nat.div_add_mod'] at hbyte
    rw [hN.toMachine, Returns]
    show ((s.mach.physical addr).map _).map _ = _
    rw [hphys]
    show some (s.mach.ram _, s) = _
    rw [hbyte]
  store8 addr v t s a t' hrel hret := by
    obtain ⟨hm, hret⟩ := returns_ite hret
    cases hret
    obtain ⟨Q, hQ, hphys, hbytes⟩ := hrel.physical hm
    have hmod : addr % 4096 < 4096 := Nat.mod_lt _ (by norm_num)
    have hsplit := Nat.div_add_mod' addr 4096
    refine ⟨_, ?_, hrel.write hQ (Function.update s.mach.ram (Q + addr % 4096) v) _
      (fun x hx => Function.update_of_ne (by omega) _ _)
      (fun x hx => Function.update_of_ne (by omega) _ _) fun i hi => ?_⟩
    · rw [hN.toMachine]
      show ((s.mach.physical addr).map _).map _ = _
      rw [hphys]
      rfl
    · rw [Function.update_apply, Function.update_apply, hbytes i hi]
      by_cases hi' : i = addr % 4096
      · rw [if_pos (by omega), if_pos (by omega)]
      · rw [if_neg (by omega), if_neg (by omega)]
  load64 addr t s a t' hrel hret := by
    obtain ⟨⟨hm, h8⟩, hret⟩ := returns_ite hret
    obtain ⟨rfl, rfl⟩ := Returns.unique (show Returns (Flat.machine.load64 addr) t
      (t.mem.load64 addr) t from rfl) hret
    obtain ⟨Q, -, hphys, hbytes⟩ := hrel.physical hm
    refine ⟨s, ?_, hrel⟩
    have hword : s.mach.ram.load64 (Q + addr % 4096) = t.mem.load64 addr := by
      refine ByteMem.load_shift fun i hi => ?_
      rw [Nat.add_assoc, hbytes _ (by omega), ← Nat.add_assoc, Nat.div_add_mod']
    rw [hN.toMachine, Returns]
    show ((s.mach.physical addr).map _).map _ = _
    rw [hphys]
    show some (s.mach.ram.load64 _, s) = _
    rw [hword]
  store64 addr v t s a t' hrel hret := by
    obtain ⟨⟨hm, h8⟩, hret⟩ := returns_ite hret
    cases hret
    obtain ⟨Q, hQ, hphys, hbytes⟩ := hrel.physical hm
    have hsplit := Nat.div_add_mod' addr 4096
    refine ⟨_, ?_, hrel.write hQ (s.mach.ram.store64 (Q + addr % 4096) v) _
      (fun x hx => ByteMem.store64_outside (by omega))
      (fun x hx => ByteMem.store64_outside (by omega)) fun i hi => ?_⟩
    · rw [hN.toMachine]
      show ((s.mach.physical addr).map _).map _ = _
      rw [hphys]
      rfl
    · have hshift := ByteMem.store_shift (hbytes i hi) (addr % 4096) 8 v
      rw [Nat.div_add_mod'] at hshift
      exact hshift
  extend n i h g ok h' hrel hret := by
    obtain ⟨g', hrun, hrel', -⟩ := heapExtendLoop_hw hN hrel hret
    exact ⟨g', hrun, hrel'⟩

end Sim

end GosKernel.Mm
