import GosKernel.Defs
import GosKernel.Lib.ByteMem
import GosKernel.Lib.Exec

/-!
# The FAT32 driver (`src/fs/fat32/fat32.c`)

The disk is a function from sector numbers to sectors, which has no value where a read fails.

- `fat32_geometry`: the clusters of a mounted volume lie apart, inside the data area, and an entry
  of the FAT is the word of the first FAT;
- `fat32Mount_atomic_iff`: what a mount leaves of the volume that was mounted before;
- `fat32ReadDir_live_iff`: the entries that `fat32_read_dir` counts are the first of the array only
  if no deleted entry stands before a live one.
-/

namespace GosKernel.Fat32

open Exec List

/-! ## The functions -/

structure Sector where
  bytes : List UInt8
  size : bytes.length = 512

abbrev Disk := Nat → Option Sector

/-- A member of a packed structure of `n` bytes. -/
def field (b : List UInt8) (off n : Nat) : Nat := (ByteMem.ofList b).load off n

/-! The members of `fat32_bpb_t` (fat32.h:15-43) that are used. -/

def bytesPerSector (b : List UInt8) : Nat := field b 11 2

def sectorsPerCluster (b : List UInt8) : Nat := field b 13 1

def reservedSectors (b : List UInt8) : Nat := field b 14 2

def numFats (b : List UInt8) : Nat := field b 16 1

def totalSectors32 (b : List UInt8) : Nat := field b 32 4

def fatSize32 (b : List UInt8) : Nat := field b 36 4

/-- The variables of the driver; `bpb` is the 90 bytes of `g_fat32_bpb`. -/
structure Volume where
  bpb : List UInt8
  partitionLba : Nat
  fatStart : Nat
  dataStart : Nat
  sectorsPerCluster : Nat
  totalClusters : Nat
deriving DecidableEq

/-- `fat32_read_sector` (fat32.c:18-20). -/
def fat32ReadSector (disk : Disk) (v : Volume) (lba : Nat) : Option Sector :=
  disk (wrap32 (v.partitionLba + lba))

/-- `fat32_cluster_to_lba` (fat32.c:22-24). -/
def fat32ClusterToLba (v : Volume) (cluster : Nat) : Nat :=
  wrap32 (v.dataStart + wrap32 (cluster + (2 ^ 32 - 2)) * v.sectorsPerCluster)

/-- An entry of a FAT without its upper four bits, and with one value for the end of a chain. -/
def nextCluster (word : Nat) : Nat :=
  let next := word &&& 0x0FFFFFFF
  if next ≥ 0x0FFFFFF8 then 0x0FFFFFF8 else next

/-- `fat32_read_fat_entry` (fat32.c:26-37). -/
def fat32ReadFatEntry (disk : Disk) (v : Volume) (cluster : Nat) : Nat :=
  let fatOffset := wrap32 (cluster * 4)
  let fatSector := wrap32 (v.fatStart + fatOffset / 512)
  match fat32ReadSector disk v fatSector with
  | none => 0x0FFFFFF8
  | some buf => nextCluster (field buf.bytes (fatOffset % 512) 4)

/-- The variables when the boot sector `b` is accepted (fat32.c:116-119). -/
def mounted (b : List UInt8) (partitionLba : Nat) : Volume :=
  let dataStart := wrap32 (reservedSectors b + numFats b * fatSize32 b)
  { bpb := b, partitionLba, fatStart := reservedSectors b, dataStart,
    sectorsPerCluster := sectorsPerCluster b,
    totalClusters := wrap32 (totalSectors32 b + (2 ^ 32 - dataStart)) / sectorsPerCluster b }

/-- `fat32_mount` (fat32.c:100-129); a division by zero stops. -/
def fat32Mount (disk : Disk) (partitionLba : Nat) : Exec Volume Bool := do
  update ({ · with partitionLba := partitionLba })
  match fat32ReadSector disk (← read id) 0 with
  | none => pure false
  | some sector =>
    let b := sector.bytes.take 90
    update ({ · with bpb := b })
    if bytesPerSector b ≠ 512 then pure false
    else if sectorsPerCluster b = 0 then stop
    else
      update fun _ => mounted b partitionLba
      pure true

/-- `entries[i].name[0]`, of the 32 bytes of an entry. -/
def firstByte (e : List UInt8) : UInt8 := e.headD 0

/-- The loop of `fat32_read_dir` that counts (fat32.c:53-59). -/
def countEntries : List (List UInt8) → Nat
  | [] => 0
  | e :: es =>
    if firstByte e = 0x00 then 0
    else if firstByte e = 0xE5 then countEntries es
    else countEntries es + 1

/-- The buffer as an array of `n` entries. -/
def dirEntries (buf : List UInt8) (n : Nat) : List (List UInt8) :=
  (List.range n).map fun i => (buf.drop (i * 32)).take 32

/-- `fat32_read_dir` (fat32.c:39-62): the array and the count, `none` for `NULL`. -/
def fat32ReadDir (disk : Disk) (kmallocOk : Bool) (v : Volume) (cluster : Nat) :
    Option (List (List UInt8) × Nat) := do
  guard kmallocOk
  let sectors := v.sectorsPerCluster
  let lba := fat32ClusterToLba v cluster
  let found ← (List.range sectors).mapM fun i => fat32ReadSector disk v (wrap32 (lba + i))
  let entries := dirEntries (found.flatMap Sector.bytes) (wrap32 (sectors * 512) / 32)
  return (entries, countEntries entries)

/-! ## Mounting -/

theorem fat32Mount_eq (disk : Disk) (p : Nat) (v : Volume) :
    fat32Mount disk p v =
      match disk (wrap32 p) with
      | none => some (false, { v with partitionLba := p })
      | some sector =>
        let b := sector.bytes.take 90
        if bytesPerSector b ≠ 512 then some (false, { v with partitionLba := p, bpb := b })
        else if sectorsPerCluster b = 0 then none
        else some (true, mounted b p) := by
  unfold fat32Mount fat32ReadSector
  simp only [bind_apply, update_apply, read_apply, Option.bind_some, id_eq]
  cases disk (wrap32 p) with
  | none => rfl
  | some sector =>
    dsimp only
    split
    · rfl
    · split <;> rfl

/-- What was mounted, if a mount succeeds. -/
theorem mounted_of_returns {disk : Disk} {p : Nat} {v0 v : Volume}
    (h : Returns (fat32Mount disk p) v0 true v) :
    v = mounted v.bpb p ∧ sectorsPerCluster v.bpb ≠ 0 := by
  rw [Returns, fat32Mount_eq] at h
  split at h
  · cases h
  · dsimp only at h
    split_ifs at h with hsize hspc
    · cases h
    · cases h
      exact ⟨rfl, hspc⟩

section Geometry

variable {b : List UInt8} {p c d : Nat}
  (hdata : reservedSectors b + numFats b * fatSize32 b ≤ totalSectors32 b)

include hdata

theorem mounted_dataStart :
    (mounted b p).dataStart = reservedSectors b + numFats b * fatSize32 b :=
  Nat.mod_eq_of_lt (hdata.trans_lt (ByteMem.load_lt _ _ 4))

theorem mounted_totalClusters : (mounted b p).totalClusters =
    (totalSectors32 b - (mounted b p).dataStart) / sectorsPerCluster b := by
  have hstart := mounted_dataStart (p := p) hdata
  have htotal : totalSectors32 b < 2 ^ 32 := ByteMem.load_lt _ _ 4
  show wrap32 (totalSectors32 b + (2 ^ 32 - (mounted b p).dataStart)) / _ = _
  congr 1
  unfold wrap32
  omega

/-- Without a wraparound. -/
theorem cluster_lba (hc : 2 ≤ c) (htop : c ≤ (mounted b p).totalClusters + 1) :
    fat32ClusterToLba (mounted b p) c =
        (mounted b p).dataStart + (c - 2) * sectorsPerCluster b ∧
      fat32ClusterToLba (mounted b p) c + sectorsPerCluster b ≤ totalSectors32 b := by
  have hstart := mounted_dataStart (p := p) hdata
  have htotal : totalSectors32 b < 2 ^ 32 := ByteMem.load_lt _ _ 4
  have hfit : (c - 2 + 1) * sectorsPerCluster b ≤
      totalSectors32 b - (mounted b p).dataStart :=
    (Nat.mul_le_mul_right _ (by omega)).trans
      ((congrArg (· * _) (mounted_totalClusters hdata)).trans_le (Nat.div_mul_le_self _ _))
  rw [Nat.add_mul] at hfit
  have hindex : wrap32 (c + (2 ^ 32 - 2)) = c - 2 := by
    have hle := Nat.div_le_self (totalSectors32 b - (mounted b p).dataStart) (sectorsPerCluster b)
    rw [mounted_totalClusters hdata] at htop
    unfold wrap32
    omega
  have heq : fat32ClusterToLba (mounted b p) c =
      (mounted b p).dataStart + (c - 2) * sectorsPerCluster b := by
    rw [fat32ClusterToLba, hindex]
    exact Nat.mod_eq_of_lt
      (show (mounted b p).dataStart + (c - 2) * sectorsPerCluster b < _ by omega)
  exact ⟨heq, by omega⟩

end Geometry

theorem nextCluster_eq (word : Nat) : nextCluster word = min (word % 2 ^ 28) 0x0FFFFFF8 := by
  unfold nextCluster
  rw [Nat.and_two_pow_sub_one_eq_mod word 28]
  dsimp only
  split <;> omega

/-- Word `c` of the first FAT. -/
def fatWord (disk : Disk) (p : Nat) (b : List UInt8) (c : Nat) : Option Nat :=
  (disk (p + reservedSectors b + c / 128)).map fun sector => field sector.bytes (c % 128 * 4) 4

/-- **The clusters of a mounted volume lie apart, behind the FATs and inside the volume, and an
entry that is read is the lower 28 bits of the word of the first FAT**, where `0x0FFFFFF8` stands
for all that mark the end of a chain. -/
theorem fat32_geometry (disk : Disk) (p : Nat) (v0 v : Volume)
    (hmount : Returns (fat32Mount disk p) v0 true v) (hfats : 1 ≤ numFats v.bpb)
    (hdata : reservedSectors v.bpb + numFats v.bpb * fatSize32 v.bpb ≤ totalSectors32 v.bpb)
    (hlba : p + totalSectors32 v.bpb < 2 ^ 32) :
    v.dataStart = reservedSectors v.bpb + numFats v.bpb * fatSize32 v.bpb ∧
    (∀ c, 2 ≤ c → c ≤ v.totalClusters + 1 →
      v.dataStart ≤ fat32ClusterToLba v c ∧
      fat32ClusterToLba v c + sectorsPerCluster v.bpb ≤ totalSectors32 v.bpb ∧
      ∀ d, c < d → d ≤ v.totalClusters + 1 →
        fat32ClusterToLba v c + sectorsPerCluster v.bpb ≤ fat32ClusterToLba v d) ∧
    ∀ c, c < 2 ^ 28 → c < 128 * fatSize32 v.bpb → ∀ word, fatWord disk p v.bpb c = some word →
      fat32ReadFatEntry disk v c = min (word % 2 ^ 28) 0x0FFFFFF8 := by
  obtain ⟨hv, -⟩ := mounted_of_returns hmount
  generalize v.bpb = b at *
  subst hv
  refine ⟨mounted_dataStart hdata, ?_, ?_⟩
  · intro c hc htop
    obtain ⟨heq, hfit⟩ := cluster_lba hdata hc htop
    refine ⟨by omega, hfit, fun d hcd hd => ?_⟩
    have hmul : (c - 2 + 1) * sectorsPerCluster b ≤ (d - 2) * sectorsPerCluster b :=
      Nat.mul_le_mul_right _ (by omega)
    rw [Nat.add_mul] at hmul
    rw [(cluster_lba hdata (by omega) hd).1]
    omega
  · intro c hc hfat word hword
    obtain ⟨sector, hsector, rfl⟩ := Option.map_eq_some_iff.mp hword
    have hle := Nat.le_mul_of_pos_left (fatSize32 b) hfats
    have hoff : wrap32 (c * 4) = c * 4 := Nat.mod_eq_of_lt (by omega)
    have hread : fat32ReadSector disk (mounted b p)
        (wrap32 (reservedSectors b + c * 4 / 512)) = some sector := by
      rw [← hsector]
      show disk (wrap32 (p + wrap32 _)) = _
      congr 1
      unfold wrap32
      omega
    have hmod : c * 4 % 512 = c % 128 * 4 := by omega
    rw [fat32ReadFatEntry, hoff]
    show (match fat32ReadSector disk (mounted b p) (wrap32 (reservedSectors b + _)) with
      | none => _ | some buf => _) = _
    rw [hread, hmod]
    exact nextCluster_eq _

/-- A sector that begins with the given bytes. -/
def sectorOf (l : List UInt8) (h : l.length ≤ 512) : Sector :=
  ⟨l ++ replicate (512 - l.length) 0, by rw [length_append, length_replicate]; omega⟩

/-- One reserved sector, one FAT of one sector and two clusters of one sector. -/
def bootSector : Sector :=
  sectorOf (replicate 11 0 ++ [0, 2, 1, 1, 0, 1] ++ replicate 15 0 ++ [4, 0, 0, 0, 1])
    (by simp only [length_append, length_replicate, length_cons, length_nil]; omega)

theorem fat32_geometry_small :
    ∃ v, Returns (fat32Mount (fun _ => some bootSector) 0) (mounted [] 0) true v ∧
      fat32ClusterToLba v 2 + 1 ≤ fat32ClusterToLba v 3 ∧
      fat32ReadFatEntry (fun _ => some bootSector) v 4 = 1 := by
  have hmount : Returns (fat32Mount (fun _ => some bootSector) 0) (mounted [] 0) true
      (mounted (bootSector.bytes.take 90) 0) := by
    rw [Returns]
    decide +kernel
  have hgeometry := fat32_geometry _ 0 _ _ hmount
    (by decide +kernel) (by decide +kernel) (by decide +kernel)
  refine ⟨_, hmount, (hgeometry.2.1 2 ?_ ?_).2.2 3 ?_ ?_, hgeometry.2.2 4 ?_ ?_ 1 ?_⟩ <;>
    decide +kernel

/-! ## A failed mount -/

/-- **A mount divides by zero, or fails and does not leave the volume alone**, unless the boot
sector cannot be read or has another sector size and is that of the volume itself, or it has a
cluster size. -/
theorem fat32Mount_atomic_iff (disk : Disk) (p : Nat) (v : Volume) :
    (∃ ok v', Returns (fat32Mount disk p) v ok v' ∧ (ok = false → v' = v)) ↔
      match disk (wrap32 p) with
      | none => p = v.partitionLba
      | some sector =>
        if bytesPerSector (sector.bytes.take 90) ≠ 512 then
          p = v.partitionLba ∧ sector.bytes.take 90 = v.bpb
        else sectorsPerCluster (sector.bytes.take 90) ≠ 0 := by
  unfold Returns
  rw [fat32Mount_eq]
  cases disk (wrap32 p) with
  | none =>
    constructor
    · rintro ⟨ok, v', h, hback⟩
      cases h
      exact congrArg Volume.partitionLba (hback rfl)
    · rintro rfl
      exact ⟨_, _, rfl, fun _ => rfl⟩
  | some sector =>
    dsimp only
    split_ifs with hsize hspc
    · constructor
      · rintro ⟨ok, v', h, hback⟩
        cases h
        have hv := hback rfl
        exact ⟨congrArg Volume.partitionLba hv, congrArg Volume.bpb hv⟩
      · rintro ⟨rfl, hbpb⟩
        rw [hbpb]
        exact ⟨_, _, rfl, fun _ => rfl⟩
    · exact iff_of_false (by rintro ⟨_, _, h, -⟩; cases h) (not_not.mpr hspc)
    · exact iff_of_true ⟨_, _, rfl, fun h => nomatch h⟩ hspc

/-- The volume of a failed mount reads its sectors at the place of the other. -/
theorem fat32Mount_moves :
    ∃ v0 v v', Returns (fat32Mount (fun _ => some bootSector) 0) v0 true v ∧
      Returns (fat32Mount (fun _ => none) 7) v false v' ∧
      v.partitionLba = 0 ∧ v'.partitionLba = 7 :=
  ⟨mounted [] 0, mounted (bootSector.bytes.take 90) 0, _, by rw [Returns]; decide +kernel,
    rfl, rfl, rfl⟩

/-! ## Directories -/

/-- The entry is not deleted. -/
def Live (e : List UInt8) : Prop := firstByte e ≠ 0xE5
deriving Decidable

/-- The entries before the end marker. -/
def listed (entries : List (List UInt8)) : List (List UInt8) :=
  entries.takeWhile (firstByte · ≠ 0x00)

theorem countEntries_eq (entries : List (List UInt8)) :
    countEntries entries = ((listed entries).filter (Live ·)).length := by
  induction entries with
  | nil => rfl
  | cons e es ih =>
    rw [countEntries, listed, takeWhile_cons]
    by_cases hend : firstByte e = 0x00
    · simp [hend]
    · by_cases hlive : Live e
      · rw [if_neg hend, if_neg hlive, if_pos (by simpa using hend), ih,
          filter_cons_of_pos (by simpa using hlive)]
        rfl
      · rw [if_neg hend, if_pos (not_not.mp hlive), if_pos (by simpa using hend), ih,
          filter_cons_of_neg (by simpa using hlive)]
        rfl

/-- The entries that stay are the first ones if and only if they stand before the others. -/
theorem take_filter_iff {α : Type} (P : α → Prop) [DecidablePred P] (l : List α) :
    l.take (l.filter (P ·)).length = l.filter (P ·) ↔ l.Pairwise fun a b => P b → P a := by
  induction l with
  | nil => exact iff_of_true rfl .nil
  | cons a l ih =>
    rw [pairwise_cons]
    by_cases ha : P a
    · rw [filter_cons_of_pos (by simpa using ha), length_cons, take_succ_cons, cons_inj_right, ih]
      exact (and_iff_right fun b _ _ => ha).symm
    · rw [filter_cons_of_neg (by simpa using ha)]
      by_cases hlive : ∃ b ∈ l, P b
      · obtain ⟨b, hb, hP⟩ := hlive
        have hmem : b ∈ l.filter (P ·) := mem_filter.mpr ⟨hb, by simpa using hP⟩
        refine iff_of_false (fun h => ha ?_) fun h => ha (h.1 b hb hP)
        have hfirst : a ∈ l.filter (P ·) := by
          obtain ⟨n, hn⟩ := Nat.exists_eq_add_one.mpr (length_pos_of_mem hmem)
          rw [← h, hn]
          exact mem_cons_self
        simpa using (mem_filter.mp hfirst).2
      · have hnone : l.filter (P ·) = [] := filter_eq_nil_iff.mpr (by simpa using hlive)
        rw [hnone]
        refine iff_of_true rfl ⟨fun b hb hP => absurd ⟨b, hb, hP⟩ hlive, ?_⟩
        exact pairwise_of_forall_mem_list fun _ _ b hb hP => absurd ⟨b, hb, hP⟩ hlive

theorem dirEntries_flatten (buf : List UInt8) {n : Nat} (h : buf.length = n * 32) :
    (dirEntries buf n).flatten = buf := by
  induction n generalizing buf with
  | zero => exact (eq_nil_of_length_eq_zero (by omega)).symm
  | succ n ih =>
    have hrest := ih (buf.drop 32) (by rw [length_drop]; omega)
    have hcons : dirEntries buf (n + 1) = buf.take 32 :: dirEntries (buf.drop 32) n := by
      simp [dirEntries, range_succ_eq_map, Nat.succ_mul, Nat.add_comm]
    rw [hcons, flatten_cons, hrest, take_append_drop]

theorem mapM_some {α β : Type} {f : α → Option β} {g : α → β} {l : List α}
    (h : ∀ x ∈ l, f x = some (g x)) : l.mapM f = some (l.map g) := by
  induction l with
  | nil => rfl
  | cons x l ih =>
    obtain ⟨hx, hl⟩ := forall_mem_cons.mp h
    rw [mapM_cons, hx, ih hl]
    rfl

/-- **The entries that `fat32_read_dir` counts are the live ones if and only if no deleted entry
stands before a live one.** -/
theorem fat32ReadDir_live_iff (disk : Disk) (v : Volume) (cluster : Nat) (content : Nat → Sector)
    (hspc : v.sectorsPerCluster < 256)
    (hread : ∀ i < v.sectorsPerCluster,
      fat32ReadSector disk v (wrap32 (fat32ClusterToLba v cluster + i)) = some (content i)) :
    ∃ entries n, fat32ReadDir disk true v cluster = some (entries, n) ∧
      entries.flatten = (List.range v.sectorsPerCluster).flatMap (content ·|>.bytes) ∧
      (∀ e ∈ entries, e.length = 32) ∧
      (entries.take n = (listed entries).filter (Live ·) ↔
        (listed entries).Pairwise fun a b => Live b → Live a) := by
  have hlen : ((List.range v.sectorsPerCluster).flatMap (content ·|>.bytes)).length =
      v.sectorsPerCluster * 16 * 32 := by
    simp [Sector.size, Nat.mul_assoc, map_const']
  have hentries : wrap32 (v.sectorsPerCluster * 512) / 32 = v.sectorsPerCluster * 16 := by
    rw [wrap32]
    omega
  generalize hbuf : (List.range v.sectorsPerCluster).flatMap (content ·|>.bytes) = buf at hlen ⊢
  refine ⟨dirEntries buf (v.sectorsPerCluster * 16),
    countEntries (dirEntries buf (v.sectorsPerCluster * 16)), ?_,
    dirEntries_flatten _ hlen, ?_, ?_⟩
  · have hfound := mapM_some fun i hi => hread i (mem_range.mp hi)
    rw [← hbuf, ← hentries, ← flatMap_map]
    unfold fat32ReadDir
    dsimp only
    rw [hfound]
    rfl
  · intro e he
    obtain ⟨i, hi, rfl⟩ := mem_map.mp he
    have hi := mem_range.mp hi
    rw [length_take, length_drop]
    omega
  · generalize dirEntries buf _ = entries
    have hle : ((listed entries).filter (Live ·)).length ≤ (listed entries).length :=
      length_filter_le _ _
    have htake : entries.take ((listed entries).filter (Live ·)).length =
        (listed entries).take ((listed entries).filter (Live ·)).length := by
      obtain ⟨rest, hrest⟩ : listed entries <+: entries := takeWhile_prefix _
      exact (congrArg (take _) hrest.symm).trans (take_append_of_le_length hle)
    rw [countEntries_eq, htake, take_filter_iff]

/-- A cluster of one sector whose entries begin with the given bytes. -/
def dirDisk (a b : UInt8) : Disk := fun _ =>
  some (sectorOf (a :: replicate 31 0 ++ [b])
    (by simp only [length_append, length_cons, length_replicate, length_nil]; omega))

theorem fat32ReadDir_first :
    ∃ entries n, fat32ReadDir (dirDisk 0x41 0xE5) true (mounted (bootSector.bytes.take 90) 0) 2 =
      some (entries, n) ∧ (∀ e ∈ entries, e.length = 32) ∧
      ((listed entries).Pairwise fun a b => Live b → Live a) ∧
      entries.take n = (listed entries).filter (Live ·) := by
  obtain ⟨entries, n, hdir, -, hsize, hiff⟩ := fat32ReadDir_live_iff (dirDisk 0x41 0xE5)
    (mounted (bootSector.bytes.take 90) 0) 2 _ (by decide +kernel) fun _ _ => rfl
  have hentries : fat32ReadDir (dirDisk 0x41 0xE5) true (mounted (bootSector.bytes.take 90) 0) 2 =
      some (dirEntries (0x41 :: replicate 31 0 ++ 0xE5 :: replicate 479 0) 16, 1) := by decide +kernel
  have hlive : (listed entries).Pairwise fun a b => Live b → Live a := by
    cases hdir.symm.trans hentries
    decide +kernel
  exact ⟨entries, n, hdir, hsize, hlive, hiff.mpr hlive⟩

/-- With a deleted entry before it, a live entry is not among the first `*count`. -/
theorem fat32ReadDir_deleted_first :
    ∃ entries, fat32ReadDir (dirDisk 0xE5 0x41) true (mounted (bootSector.bytes.take 90) 0) 2 =
      some (entries, 1) ∧ entries.take 1 ≠ (listed entries).filter (Live ·) :=
  ⟨dirEntries (0xE5 :: replicate 31 0 ++ 0x41 :: replicate 479 0) 16, by decide +kernel,
    by decide +kernel⟩

end GosKernel.Fat32
