import GosKernel.Lib.CappedScan
import Mathlib.Data.BitVec
import Mathlib.Tactic.IntervalCases

/-!
# PCI enumeration (`src/drivers/pci/pci.c`)

The driver reads the configuration space in aligned words: `pci_read_config` clears the low
bits of the offset. The header type is the byte at `0x0E`; the word that is read for it is
that at `0x0C`, and the driver takes its lowest byte, the cache line size. Both what it
stores as header type and whether it looks for further functions depend on that byte.
-/

namespace GosKernel.Pci

open CappedScan List Function

/-! ## The hardware -/

/-- The configuration space: bus, device, function and number of the word. -/
abbrev ConfigSpace := BitVec 8 → BitVec 5 → BitVec 3 → BitVec 6 → BitVec 32

/-- What the port `PCI_CONFIG_DATA` gives when this was written to `PCI_CONFIG_ADDR`. -/
def configData (c : ConfigSpace) (addr : BitVec 32) : BitVec 32 :=
  if addr.getLsbD 31 then
    c (addr.extractLsb' 16 8) (addr.extractLsb' 11 5) (addr.extractLsb' 8 3) (addr.extractLsb' 2 6)
  else 0xFFFFFFFF

/-! ## The functions -/

/-- `pci_device_t`. -/
structure PciDevice where
  bus : BitVec 8
  device : BitVec 8
  function : BitVec 8
  vendorId : BitVec 16
  deviceId : BitVec 16
  classCode : BitVec 8
  subclass : BitVec 8
  progIf : BitVec 8
  revision : BitVec 8
  headerType : BitVec 8
  interruptLine : BitVec 8
  interruptPin : BitVec 8
  bar : Fin 6 → BitVec 32

/-- The address word of `pci_read_config`. -/
def configAddress (bus dev func offset : BitVec 8) : BitVec 32 :=
  (bus.setWidth 32 <<< 16) ||| (dev.setWidth 32 <<< 11) ||| (func.setWidth 32 <<< 8) |||
    (offset &&& 0xFC).setWidth 32 ||| 0x80000000

/-- `pci_read_config` (pci.c:11-20). -/
def pciReadConfig (c : ConfigSpace) (bus dev func offset : BitVec 8) : BitVec 32 :=
  configData c (configAddress bus dev func offset)

/-- `pci_probe_device` (pci.c:33-66): the record it fills in, if it returns `true`. -/
def pciProbeDevice (c : ConfigSpace) (bus dev func : BitVec 8) : Option PciDevice :=
  let vendorDevice := pciReadConfig c bus dev func 0x00
  let vendor := (vendorDevice &&& 0xFFFF).setWidth 16
  if vendor = 0xFFFF ∨ vendor = 0 then none
  else
    let classRev := pciReadConfig c bus dev func 0x08
    let header := pciReadConfig c bus dev func 0x0E
    let interrupt := pciReadConfig c bus dev func 0x3C
    some {
      bus := bus
      device := dev
      function := func
      vendorId := vendor
      deviceId := (vendorDevice >>> 16 &&& 0xFFFF).setWidth 16
      revision := (classRev &&& 0xFF).setWidth 8
      progIf := (classRev >>> 8 &&& 0xFF).setWidth 8
      subclass := (classRev >>> 16 &&& 0xFF).setWidth 8
      classCode := (classRev >>> 24 &&& 0xFF).setWidth 8
      headerType := (header &&& 0x7F).setWidth 8
      interruptLine := (interrupt &&& 0xFF).setWidth 8
      interruptPin := (interrupt >>> 8 &&& 0xFF).setWidth 8
      bar := fun i => pciReadConfig c bus dev func (0x10 + BitVec.ofNat 8 i * 4)
    }

/-- The size of `g_pci_devices`. -/
def maxDevices : Nat := 64

/-- `g_pci_devices` and `g_pci_device_count`. -/
structure PciTable where
  devices : Nat → PciDevice
  count : Nat

namespace PciTable

/-- Fill in `g_pci_devices[g_pci_device_count]` and count it, if the probe returned `true`. -/
def push (t : PciTable) (probed : Option PciDevice) : PciTable :=
  match probed with
  | some d => ⟨update t.devices t.count d, t.count + 1⟩
  | none => t

/-- The records. -/
def records (t : PciTable) : List PciDevice := (List.range t.count).map t.devices

/-- The condition of the loops. -/
def hasRoom (t : PciTable) : Bool := t.count < maxDevices

end PciTable

/-- The body of the inner loop (pci.c:73-86): function 0, and the others of a device that has
several. -/
def scanSlot (c : ConfigSpace) (bus dev : BitVec 8) (t : PciTable) : PciTable :=
  match pciProbeDevice c bus dev 0 with
  | none => t
  | some d =>
    let t := t.push (some d)
    if pciReadConfig c bus dev 0 0x0E &&& 0x80 ≠ 0 then
      forWhile PciTable.hasRoom
        (fun func t => t.push (pciProbeDevice c bus dev (BitVec.ofNat 8 func))) (List.range' 1 7) t
    else t

/-- `pci_enumerate` (pci.c:68-89). -/
def pciEnumerate (c : ConfigSpace) (t : PciTable) : PciTable :=
  forWhile PciTable.hasRoom
    (fun bus => forWhile PciTable.hasRoom
      (fun dev => scanSlot c (BitVec.ofNat 8 bus) (BitVec.ofNat 8 dev)) (List.range 32))
    (List.range 256) { t with count := 0 }

/-! ## What is in the configuration space -/

/-- A function of a device. -/
structure PciFunction where
  bus : BitVec 8
  dev : BitVec 5
  func : BitVec 3
deriving DecidableEq

namespace PciFunction

/-- The field of `w` bits at an offset of the configuration header. -/
def field (c : ConfigSpace) (x : PciFunction) (offset : BitVec 8) (w : Nat) : BitVec w :=
  (c x.bus x.dev x.func (offset.extractLsb' 2 6) >>> (8 * (offset.toNat % 4))).setWidth w

/-- The vendor is neither `0xFFFF` nor 0. -/
def Present (c : ConfigSpace) (x : PciFunction) : Prop :=
  x.field c 0x00 16 ≠ 0xFFFF ∧ x.field c 0x00 16 ≠ 0

instance (c : ConfigSpace) (x : PciFunction) : Decidable (x.Present c) :=
  inferInstanceAs (Decidable (_ ∧ _))

/-- The record of the function, with the header type taken from the byte at an offset. -/
def recordWith (c : ConfigSpace) (headerOffset : BitVec 8) (x : PciFunction) : PciDevice where
  bus := x.bus
  device := x.dev.setWidth 8
  function := x.func.setWidth 8
  vendorId := x.field c 0x00 16
  deviceId := x.field c 0x02 16
  revision := x.field c 0x08 8
  progIf := x.field c 0x09 8
  subclass := x.field c 0x0A 8
  classCode := x.field c 0x0B 8
  headerType := x.field c headerOffset 8 &&& 0x7F
  interruptLine := x.field c 0x3C 8
  interruptPin := x.field c 0x3D 8
  bar := fun i => x.field c (0x10 + BitVec.ofNat 8 i * 4) 32

/-- The record of the function: the header type is the byte at `0x0E` less its top bit, which
says that the device has several functions. -/
def record (c : ConfigSpace) (x : PciFunction) : PciDevice := x.recordWith c 0x0E

end PciFunction

/-- The slots in the order of the bus and device numbers. -/
def slots : List (BitVec 8 × BitVec 5) :=
  (List.range 256).flatMap fun bus =>
    (List.range 32).map fun dev => (BitVec.ofNat 8 bus, BitVec.ofNat 5 dev)

/-- Functions 1 to 7 of a slot that are present. -/
def otherFunctions (c : ConfigSpace) (s : BitVec 8 × BitVec 5) : List PciFunction :=
  ((List.range' 1 7).map fun func => ⟨s.1, s.2, BitVec.ofNat 3 func⟩).filter (·.Present c)

/-- The functions of a slot, when the top bit of the byte at an offset says whether there are
several. -/
def slotFunctions (c : ConfigSpace) (headerOffset : BitVec 8) (s : BitVec 8 × BitVec 5) :
    List PciFunction :=
  if (PciFunction.mk s.1 s.2 0).Present c then
    ⟨s.1, s.2, 0⟩ ::
      if ((PciFunction.mk s.1 s.2 0).field c headerOffset 8).msb then otherFunctions c s else []
  else []

/-- **The functions of all slots**, by the byte at `0x0E` of each function 0. -/
def functions (c : ConfigSpace) : List PciFunction := slots.flatMap (slotFunctions c 0x0E)

/-! ## Reading the configuration space -/

section Address

variable (bus : BitVec 8) (dev : BitVec 5) (func : BitVec 3) (offset : BitVec 8)

theorem configAddress_fields :
    (configAddress bus (dev.setWidth 8) (func.setWidth 8) offset).getLsbD 31 = true ∧
    (configAddress bus (dev.setWidth 8) (func.setWidth 8) offset).extractLsb' 16 8 = bus ∧
    (configAddress bus (dev.setWidth 8) (func.setWidth 8) offset).extractLsb' 11 5 = dev ∧
    (configAddress bus (dev.setWidth 8) (func.setWidth 8) offset).extractLsb' 8 3 = func ∧
    (configAddress bus (dev.setWidth 8) (func.setWidth 8) offset).extractLsb' 2 6 =
      offset.extractLsb' 2 6 := by
  refine ⟨by simp [configAddress], ?_, ?_, ?_, ?_⟩
  all_goals
    apply BitVec.eq_of_getLsbD_eq
    intro i hi
    interval_cases i <;> simp [configAddress]

/-- **`pci_read_config`** reads the word that the offset is in. -/
theorem pciReadConfig_eq (c : ConfigSpace) :
    pciReadConfig c bus (dev.setWidth 8) (func.setWidth 8) offset =
      c bus dev func (offset.extractLsb' 2 6) := by
  obtain ⟨henable, hbus, hdev, hfunc, hoffset⟩ := configAddress_fields bus dev func offset
  rw [pciReadConfig, configData, if_pos henable, hbus, hdev, hfunc, hoffset]

end Address

/-- A mask of the low bits, before all others are cut off. -/
theorem setWidth_and_mask {w : Nat} {m : BitVec 32} (hm : m.setWidth w = BitVec.allOnes w)
    (v : BitVec 32) : (v &&& m).setWidth w = v.setWidth w := by
  rw [BitVec.setWidth_and, hm, BitVec.and_allOnes]

theorem setWidth_and_low8 (v : BitVec 32) : (v &&& 0xFF).setWidth 8 = v.setWidth 8 :=
  setWidth_and_mask rfl v

theorem setWidth_and_low16 (v : BitVec 32) : (v &&& 0xFFFF).setWidth 16 = v.setWidth 16 :=
  setWidth_and_mask rfl v

/-- The word read for the header type is that at `0x0C`. -/
theorem header_word (c : ConfigSpace) (x : PciFunction) :
    (c x.bus x.dev x.func ((0x0E : BitVec 8).extractLsb' 2 6)).setWidth 8 = x.field c 0x0C 8 := by
  rfl

/-- **`pci_probe_device`** fills in the record of a function that is present, with the header
type from the byte at `0x0C`. -/
theorem pciProbeDevice_eq (c : ConfigSpace) (x : PciFunction) :
    pciProbeDevice c x.bus (x.dev.setWidth 8) (x.func.setWidth 8) =
      if x.Present c then some (x.recordWith c 0x0C) else none := by
  have hvendor : (c x.bus x.dev x.func ((0x00 : BitVec 8).extractLsb' 2 6) &&& 0xFFFF).setWidth 16 =
      x.field c 0x00 16 := by
    rw [setWidth_and_low16]
    rfl
  unfold pciProbeDevice
  simp only [pciReadConfig_eq, hvendor]
  by_cases hpresent : x.Present c
  · rw [if_pos hpresent, if_neg (not_or.mpr hpresent)]
    simp only [setWidth_and_low16, setWidth_and_low8]
    rw [PciFunction.recordWith]
    simp [PciFunction.field]
  · rw [PciFunction.Present, not_and_or, not_not, not_not] at hpresent
    rw [if_pos hpresent, if_neg (fun h => hpresent.elim h.1 h.2)]

/-! ## The table -/

namespace PciTable

theorem hasRoom_iff (t : PciTable) : t.hasRoom = true ↔ t.records.length < maxDevices := by
  rw [records, length_map, length_range, hasRoom, decide_eq_true_iff]

theorem records_push (t : PciTable) (probed : Option PciDevice) :
    (t.push probed).records = t.records ++ probed.toList := by
  cases probed with
  | none => exact (append_nil _).symm
  | some d =>
    show (List.range (t.count + 1)).map (update t.devices t.count d) = _
    rw [range_succ, map_append, map_singleton, update_self]
    congr 1
    refine map_congr_left fun i hi => update_of_ne ?_ _ _
    exact (mem_range.mp hi).ne

end PciTable

theorem ofNat_eq_setWidth (w : Nat) {n : Nat} (h : n < 2 ^ w) :
    BitVec.ofNat 8 n = (BitVec.ofNat w n).setWidth 8 := by
  apply BitVec.eq_of_toNat_eq
  rw [BitVec.toNat_setWidth, BitVec.toNat_ofNat, BitVec.toNat_ofNat, Nat.mod_eq_of_lt h]

/-- The test for several functions looks at the byte at `0x0C`. -/
theorem header_test (c : ConfigSpace) (x : PciFunction) :
    (c x.bus x.dev x.func ((0x0E : BitVec 8).extractLsb' 2 6) &&& 0x80 ≠ 0) ↔
      (x.field c 0x0C 8).msb = true := by
  have hbit : (0x80 : BitVec 32) = BitVec.twoPow 32 7 := by decide
  have hzero : BitVec.twoPow 32 7 ≠ 0 := by decide
  rw [← header_word, BitVec.msb_eq_getLsbD_last, hbit, BitVec.and_twoPow]
  split
  · simp_all
  · simp_all

/-- The loop over the functions 1 to 7. -/
theorem scanFunctions_records (c : ConfigSpace) (bus : BitVec 8) (dev : BitVec 5) (t : PciTable)
    (hroom : t.records.length ≤ maxDevices) :
    (forWhile PciTable.hasRoom
        (fun func t => t.push (pciProbeDevice c bus (dev.setWidth 8) (BitVec.ofNat 8 func)))
        (List.range' 1 7) t).records =
      (t.records ++ (otherFunctions c (bus, dev)).map (PciFunction.recordWith c 0x0C)).take
        maxDevices := by
  have hbody : ∀ func ∈ List.range' 1 7, ∀ t : PciTable, t.records.length < maxDevices →
      (t.push (pciProbeDevice c bus (dev.setWidth 8) (BitVec.ofNat 8 func))).records =
        (t.records ++ (if (PciFunction.mk bus dev (BitVec.ofNat 3 func)).Present c then
          some ((PciFunction.mk bus dev (BitVec.ofNat 3 func)).recordWith c 0x0C)
          else none).toList).take maxDevices := by
    intro func hfunc t ht
    have hlt : func < 8 := by
      rw [mem_range'_1] at hfunc
      omega
    rw [ofNat_eq_setWidth 3 hlt, PciTable.records_push, ← pciProbeDevice_eq, take_of_length_le]
    rw [length_append]
    exact (Nat.add_le_add_left Option.length_toList_le _).trans ht
  rw [forWhile_take PciTable.hasRoom_iff (List.range' 1 7) hbody t hroom,
    flatMap_toList_ite (fun func => (PciFunction.mk bus dev (BitVec.ofNat 3 func)).Present c),
    otherFunctions, filter_map, map_map]
  rfl

/-- **One slot.** -/
theorem scanSlot_records (c : ConfigSpace) (bus : BitVec 8) (dev : BitVec 5) (t : PciTable)
    (hroom : t.records.length < maxDevices) :
    (scanSlot c bus (dev.setWidth 8) t).records =
      (t.records ++ (slotFunctions c 0x0C (bus, dev)).map (PciFunction.recordWith c 0x0C)).take
        maxDevices := by
  have hprobe := pciProbeDevice_eq c ⟨bus, dev, 0⟩
  rw [show (PciFunction.mk bus dev 0).func.setWidth 8 = (0 : BitVec 8) from rfl] at hprobe
  have htest := header_test c ⟨bus, dev, 0⟩
  have hread : pciReadConfig c bus (dev.setWidth 8) 0 0x0E =
      c bus dev 0 ((0x0E : BitVec 8).extractLsb' 2 6) := pciReadConfig_eq bus dev 0 0x0E c
  unfold scanSlot slotFunctions
  by_cases hpresent : (PciFunction.mk bus dev 0).Present c
  · rw [if_pos hpresent] at hprobe ⊢
    rw [hprobe, hread]
    have hpush := t.records_push (some ((PciFunction.mk bus dev 0).recordWith c 0x0C))
    have hlen : (t.push (some ((PciFunction.mk bus dev 0).recordWith c 0x0C))).records.length ≤
        maxDevices := by
      rw [hpush, length_append]
      exact hroom
    by_cases hmulti : ((PciFunction.mk bus dev 0).field c 0x0C 8).msb = true
    · dsimp only
      rw [if_pos (htest.mpr hmulti), if_pos hmulti, scanFunctions_records c bus dev _ hlen, hpush]
      simp
    · dsimp only
      rw [if_neg (mt htest.mp hmulti), if_neg hmulti, hpush,
        take_of_length_le (hpush ▸ hlen)]
      rfl
  · rw [if_neg hpresent] at hprobe ⊢
    rw [hprobe, map_nil, append_nil, take_of_length_le hroom.le]

/-- **`pci_enumerate`** fills in the records of the first 64 functions, by the bytes at
`0x0C`. -/
theorem pciEnumerate_records (c : ConfigSpace) (t : PciTable) :
    (pciEnumerate c t).records =
      ((slots.flatMap (slotFunctions c 0x0C)).take maxDevices).map
        (PciFunction.recordWith c 0x0C) := by
  have hslot : ∀ bus : Nat, ∀ dev ∈ List.range 32, ∀ t : PciTable, t.records.length < maxDevices →
      (scanSlot c (BitVec.ofNat 8 bus) (BitVec.ofNat 8 dev) t).records =
        (t.records ++ (slotFunctions c 0x0C (BitVec.ofNat 8 bus, BitVec.ofNat 5 dev)).map
          (PciFunction.recordWith c 0x0C)).take maxDevices := by
    intro bus dev hdev t ht
    rw [ofNat_eq_setWidth 5 (mem_range.mp hdev)]
    exact scanSlot_records c _ _ t ht
  have hbus : ∀ bus ∈ List.range 256, ∀ t : PciTable, t.records.length < maxDevices →
      (forWhile PciTable.hasRoom (fun dev => scanSlot c (BitVec.ofNat 8 bus) (BitVec.ofNat 8 dev))
        (List.range 32) t).records =
        (t.records ++ (List.range 32).flatMap fun dev =>
          (slotFunctions c 0x0C (BitVec.ofNat 8 bus, BitVec.ofNat 5 dev)).map
            (PciFunction.recordWith c 0x0C)).take maxDevices :=
    fun bus _ t ht => forWhile_take PciTable.hasRoom_iff (List.range 32) (hslot bus) t ht.le
  have hempty : ({ t with count := 0 } : PciTable).records = [] := rfl
  rw [pciEnumerate, forWhile_take PciTable.hasRoom_iff (List.range 256) hbus _ (by simp [hempty]),
    hempty, nil_append, map_take, slots, flatMap_assoc]
  simp only [flatMap_map, map_flatMap]

/-! ## The functions of the slots -/

theorem ofNat_injOn (w : Nat) {i j : Nat} (hi : i < 2 ^ w) (hj : j < 2 ^ w)
    (h : BitVec.ofNat w i = BitVec.ofNat w j) : i = j := by
  have htoNat := congrArg BitVec.toNat h
  rwa [BitVec.toNat_ofNat, BitVec.toNat_ofNat, Nat.mod_eq_of_lt hi, Nat.mod_eq_of_lt hj] at htoNat

theorem slots_nodup : slots.Nodup := by
  refine nodup_flatMap.mpr ⟨fun bus _ => ?_, ?_⟩
  · refine List.Nodup.map_on (fun i hi j hj hij => ?_) nodup_range
    exact ofNat_injOn 5 (mem_range.mp hi) (mem_range.mp hj) (Prod.ext_iff.mp hij).2
  · refine nodup_range.pairwise_of_forall_ne fun i hi j hj hij => ?_
    intro s hsi hsj
    obtain ⟨_, -, rfl⟩ := mem_map.mp hsi
    obtain ⟨_, -, hs⟩ := mem_map.mp hsj
    exact hij (ofNat_injOn 8 (mem_range.mp hi) (mem_range.mp hj)
      (Prod.ext_iff.mp hs).1.symm)

variable {c : ConfigSpace} {s : BitVec 8 × BitVec 5}

theorem mem_otherFunctions {x : PciFunction} :
    x ∈ otherFunctions c s → (x.bus, x.dev) = s ∧ x.func ≠ 0 := by
  intro hx
  obtain ⟨func, hfunc, rfl⟩ := mem_map.mp (mem_of_mem_filter hx)
  rw [mem_range'_1] at hfunc
  refine ⟨rfl, fun hzero => ?_⟩
  have hfunc0 : func = 0 := ofNat_injOn 3 (by omega) (by decide) hzero
  omega

theorem otherFunctions_nodup (c : ConfigSpace) (s : BitVec 8 × BitVec 5) :
    (otherFunctions c s).Nodup := by
  refine List.Nodup.filter _ (List.Nodup.map_on (fun i hi j hj hij => ?_) nodup_range')
  rw [mem_range'_1] at hi hj
  exact ofNat_injOn 3 (by omega) (by omega) (PciFunction.mk.inj hij).2.2

/-- A slot has nothing, or its function 0 and then other functions or none. -/
theorem slotFunctions_cases (c : ConfigSpace) (s : BitVec 8 × BitVec 5) :
    (∀ o, slotFunctions c o s = []) ∨
      ∀ o, slotFunctions c o s = ⟨s.1, s.2, 0⟩ ::
        if ((PciFunction.mk s.1 s.2 0).field c o 8).msb then otherFunctions c s else [] := by
  by_cases hpresent : (PciFunction.mk s.1 s.2 0).Present c
  · exact .inr fun o => if_pos hpresent
  · exact .inl fun o => if_neg hpresent

theorem mem_slotFunctions {o : BitVec 8}
    {x : PciFunction} (hx : x ∈ slotFunctions c o s) : (x.bus, x.dev) = s := by
  rcases slotFunctions_cases c s with hnil | hcons
  · rw [hnil] at hx
    cases hx
  · rw [hcons] at hx
    rcases mem_cons.mp hx with rfl | hx
    · rfl
    · split at hx
      · exact (mem_otherFunctions hx).1
      · cases hx

theorem slotFunctions_nodup (c : ConfigSpace) (o : BitVec 8) (s : BitVec 8 × BitVec 5) :
    (slotFunctions c o s).Nodup := by
  rcases slotFunctions_cases c s with hnil | hcons
  · rw [hnil]
    exact nodup_nil
  · rw [hcons]
    split
    · refine nodup_cons.mpr ⟨fun hmem => ?_, otherFunctions_nodup c s⟩
      exact (mem_otherFunctions hmem).2 rfl
    · exact nodup_singleton _

/-- No function is listed twice, whichever byte is taken. -/
theorem flatMap_slotFunctions_nodup (c : ConfigSpace) (o : BitVec 8) :
    (slots.flatMap (slotFunctions c o)).Nodup := by
  refine nodup_flatMap.mpr ⟨fun s _ => slotFunctions_nodup c o s, ?_⟩
  refine slots_nodup.pairwise_of_forall_ne fun s _ s' _ hss x hx hx' => ?_
  exact hss ((mem_slotFunctions hx).symm.trans (mem_slotFunctions hx'))

/-- Two bytes give the same functions of a slot that has one. -/
theorem slotFunctions_eq_iff {o o' : BitVec 8} (hs : slotFunctions c o s ≠ []) :
    slotFunctions c o s = slotFunctions c o' s ↔
      ((PciFunction.mk s.1 s.2 0).field c o 8).msb = ((PciFunction.mk s.1 s.2 0).field c o' 8).msb ∨
        otherFunctions c s = [] := by
  rcases slotFunctions_cases c s with hnil | hcons
  · exact absurd (hnil o) hs
  · rw [hcons, hcons]
    cases ((PciFunction.mk s.1 s.2 0).field c o 8).msb with
    | false =>
      cases ((PciFunction.mk s.1 s.2 0).field c o' 8).msb with
      | false => simp
      | true => simp
    | true =>
      cases ((PciFunction.mk s.1 s.2 0).field c o' 8).msb with
      | false => simp
      | true => simp

/-- **Two bytes** give the same first functions if and only if their top bits agree wherever
there is room for one more function. -/
theorem take_slotFunctions_eq_iff (c : ConfigSpace) (o o' : BitVec 8) (n : Nat) :
    (slots.flatMap (slotFunctions c o)).take n = (slots.flatMap (slotFunctions c o')).take n ↔
      ∀ bus dev, ⟨bus, dev, 0⟩ ∈ (slots.flatMap (slotFunctions c o)).take (n - 1) →
        ((PciFunction.mk bus dev 0).field c o 8).msb =
          ((PciFunction.mk bus dev 0).field c o' 8).msb ∨ otherFunctions c (bus, dev) = [] := by
  have hfirst : ∀ s, (slotFunctions c o s = [] ∧ slotFunctions c o' s = []) ∨
      ∃ t u, slotFunctions c o s = (fun s => PciFunction.mk s.1 s.2 0) s :: t ∧
        slotFunctions c o' s = (fun s => PciFunction.mk s.1 s.2 0) s :: u ∧
        (t = u ∨ t = [] ∨ u = []) := by
    intro s
    rcases slotFunctions_cases c s with hnil | hcons
    · exact .inl ⟨hnil o, hnil o'⟩
    · refine .inr ⟨_, _, hcons o, hcons o', ?_⟩
      split
      · split
        · exact .inl rfl
        · exact .inr (.inr rfl)
      · exact .inr (.inl rfl)
  have hgroup : ∀ s : BitVec 8 × BitVec 5,
      (fun x : PciFunction => (x.bus, x.dev)) (PciFunction.mk s.1 s.2 0) = s := fun s => rfl
  rw [take_flatMap_eq_iff hfirst hgroup (fun s x hx => mem_slotFunctions hx)
    (fun s x hx => mem_slotFunctions hx) slots_nodup n, Prod.forall]
  refine forall_congr' fun bus => forall_congr' fun dev => forall_congr' fun hmem => ?_
  -- the function is in the list, so its slot is not empty
  obtain ⟨s, -, hs⟩ := mem_flatMap.mp (mem_of_mem_take hmem)
  obtain rfl : (bus, dev) = s := mem_slotFunctions hs
  exact slotFunctions_eq_iff (ne_nil_of_mem hs)

/-! ## The records -/

/-- Where the function of a record is. -/
def PciDevice.location (d : PciDevice) : BitVec 8 × BitVec 8 × BitVec 8 :=
  (d.bus, d.device, d.function)

theorem location_recordWith_injective (c : ConfigSpace) (o : BitVec 8) :
    Injective fun x : PciFunction => (x.recordWith c o).location := by
  rintro ⟨bus, dev, func⟩ ⟨bus', dev', func'⟩ h
  simp only [PciDevice.location, PciFunction.recordWith, Prod.mk.injEq] at h
  obtain ⟨rfl, hdev, hfunc⟩ := h
  have hdev' := congrArg (BitVec.setWidth 5) hdev
  have hfunc' := congrArg (BitVec.setWidth 3) hfunc
  simp at hdev' hfunc'
  rw [hdev', hfunc']

theorem recordWith_eq_iff (c : ConfigSpace) (o o' : BitVec 8) (x : PciFunction) :
    x.recordWith c o = x.recordWith c o' ↔ x.field c o 8 &&& 0x7F = x.field c o' 8 &&& 0x7F := by
  constructor
  · exact congrArg PciDevice.headerType
  · intro h
    rw [PciFunction.recordWith, PciFunction.recordWith, h]

theorem map_recordWith_eq_iff (c : ConfigSpace) (o o' : BitVec 8) (l l' : List PciFunction) :
    l.map (PciFunction.recordWith c o) = l'.map (PciFunction.recordWith c o') ↔
      l = l' ∧ ∀ x ∈ l, x.field c o 8 &&& 0x7F = x.field c o' 8 &&& 0x7F := by
  constructor
  · intro h
    have hl : l = l' := by
      refine (map_injective_iff.mpr (location_recordWith_injective c o)) ?_
      have hmap := congrArg (List.map PciDevice.location) h
      rw [map_map, map_map] at hmap
      exact hmap
    subst hl
    exact ⟨rfl, fun x hx => (recordWith_eq_iff c o o' x).mp (map_inj_left.mp h x hx)⟩
  · rintro ⟨rfl, h⟩
    exact map_congr_left fun x hx => (recordWith_eq_iff c o o' x).mpr (h x hx)

/-- **PCI enumeration.** The table holds the records of the first 64 functions, in the order of
bus, device and function, and none twice, if and only if the low seven bits of the bytes at
`0x0C` and `0x0E` agree in each of these, and the top bits agree in every function 0 among the
first 63 whose slot has other functions present. -/
theorem pci_enumerate_iff (c : ConfigSpace) (t : PciTable) :
    ((pciEnumerate c t).records = ((functions c).take maxDevices).map (PciFunction.record c) ∧
      ((pciEnumerate c t).records.map PciDevice.location).Nodup) ↔
    (∀ x ∈ (functions c).take maxDevices,
      x.field c 0x0E 8 &&& 0x7F = x.field c 0x0C 8 &&& 0x7F) ∧
    ∀ bus dev, ⟨bus, dev, 0⟩ ∈ (functions c).take (maxDevices - 1) →
      ((PciFunction.mk bus dev 0).field c 0x0E 8).msb =
        ((PciFunction.mk bus dev 0).field c 0x0C 8).msb ∨ otherFunctions c (bus, dev) = [] := by
  have hnodup : ((pciEnumerate c t).records.map PciDevice.location).Nodup := by
    rw [pciEnumerate_records, List.map_map]
    exact ((flatMap_slotFunctions_nodup c 0x0C).sublist (List.take_sublist _ _)).map
      (location_recordWith_injective c 0x0C)
  rw [and_iff_left hnodup, pciEnumerate_records, functions, eq_comm]
  show List.map (PciFunction.recordWith c 0x0E) _ = _ ↔ _
  rw [map_recordWith_eq_iff, take_slotFunctions_eq_iff, and_comm]

/-- A bus with one device, of two functions: the byte at `0x0E` is `0x80`, the cache line size
is 0. -/
def twoFunctions : ConfigSpace := fun bus dev func word =>
  if bus = 0 ∧ dev = 0 ∧ (func = 0 ∨ func = 1) then
    if word = 0 then 0x12348086 else if word = 3 then 0x00800000 else 0
  else 0xFFFFFFFF

theorem slots_head : ∃ l, slots = (0, 0) :: l := by
  exact ⟨_, rfl⟩

/-- The second function of the device is missed, whatever was in the table before. -/
theorem pci_enumerate_misses_function :
    ¬ ∃ t : PciTable, (pciEnumerate twoFunctions t).records =
        ((functions twoFunctions).take maxDevices).map (PciFunction.record twoFunctions) ∧
      ((pciEnumerate twoFunctions t).records.map PciDevice.location).Nodup := by
  rintro ⟨t, hrecords, -⟩
  rw [pciEnumerate_records, eq_comm] at hrecords
  have hsame := ((map_recordWith_eq_iff _ _ _ _ _).mp hrecords).1
  obtain ⟨l, hl⟩ := slots_head
  have hfirst : (⟨0, 0, 0⟩ : PciFunction) ∈ (functions twoFunctions).take (maxDevices - 1) := by
    rw [functions, hl]
    exact List.mem_cons_self
  rcases (take_slotFunctions_eq_iff _ _ _ _).mp hsame 0 0 hfirst with hmsb | hnone
  · exact absurd hmsb (by decide)
  · exact absurd hnone (by decide)

end GosKernel.Pci
