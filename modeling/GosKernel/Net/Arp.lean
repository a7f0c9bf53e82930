import GosKernel.Lib.ByteMem
import GosKernel.Net.ArpTable
import Mathlib.Data.Fintype.Card

/-!
# The cache of the ARP receiver (`src/net/arp.c`)

`arp.c` has a table of its own, of the same entries. `arp_receive` puts the sender of every
packet into the first entry that is not valid, and never looks for an entry of the same
address: the table holds the senders of the first 16 packets, and a lookup finds the first
of them. `arp_table_add` for each packet would keep the last one.
-/

namespace GosKernel.Arp

open SlotMap

/-! ## The functions -/

/-- `arp_init` (arp.c:22-27). -/
def arpInit (t : ArpTable) : ArpTable := invalidateAll t

/-- The arguments of `arp_receive`: `len` bytes at `packet`. -/
structure ArpPacket where
  mem : ByteMem
  packet : Nat
  len : Nat

namespace ArpPacket

/-- The bytes of a 16-bit field the other way round. -/
def swap16 (x : Nat) : Nat := ((x &&& 0xFF) <<< 8) ||| ((x >>> 8) &&& 0xFF)

/-- `sizeof(arp_packet_t)`. -/
def size : Nat := 28

/-- `ARP_HW_TYPE_ETHER`. -/
def hwTypeEther : Nat := 1

def hwType (p : ArpPacket) : Nat := swap16 (p.mem.load p.packet 2)

def protoLen (p : ArpPacket) : Nat := p.mem.load (p.packet + 5) 1

def senderMac (p : ArpPacket) : Mac := fun i => p.mem (p.packet + 8 + i)

def senderIp (p : ArpPacket) : Ip := BitVec.ofNat 32 (p.mem.load (p.packet + 14) 4)

/-- The checks of `arp_receive`. -/
def Valid (p : ArpPacket) : Prop := size ≤ p.len ∧ p.hwType = hwTypeEther ∧ p.protoLen = 4

instance (p : ArpPacket) : Decidable p.Valid := inferInstanceAs (Decidable (_ ∧ _))

end ArpPacket

/-- `arp_receive` (arp.c:39-67), less its log lines. -/
def arpReceive (t : ArpTable) (p : ArpPacket) : ArpTable :=
  if p.len < ArpPacket.size then t
  else if p.hwType ≠ ArpPacket.hwTypeEther ∨ p.protoLen ≠ 4 then t
  else
    match arpFindFree t with
    | some i => Function.update t i ⟨p.senderIp, p.senderMac, true⟩
    | none => t

/-- `arp_lookup` (arp.c:69-77), which is `arp_table_lookup` on the table of `arp.c`. -/
def arpLookup (t : ArpTable) (ip : Ip) (mac : Option Mac) : Bool × Option Mac :=
  arpTableLookup t ip mac

/-! ## What the cache is for -/

/-- The MAC of the first packet of the address. -/
def firstMac (ps : List ArpPacket) (ip : Ip) : Option Mac :=
  (ps.find? fun p => p.senderIp = ip).map (·.senderMac)

/-- The MAC of the last packet of the address. -/
def lastMac (ps : List ArpPacket) (ip : Ip) : Option Mac :=
  (ps.reverse.find? fun p => p.senderIp = ip).map (·.senderMac)

/-- The addresses that have sent a packet. -/
def senders (ps : List ArpPacket) : Finset Ip := (ps.map (·.senderIp)).toFinset

/-- `arp_table_add` for each packet. -/
def addAll (t : ArpTable) (ps : List ArpPacket) : ArpTable :=
  ps.foldl (fun t p => (arpTableAdd t p.senderIp p.senderMac).2) t

variable {ip : Ip} {ps : List ArpPacket}

theorem mem_senders : ip ∈ senders ps ↔ ∃ p ∈ ps, p.senderIp = ip := by
  simp [senders]

theorem senders_subset {qs : List ArpPacket} (h : ps ⊆ qs) : senders ps ⊆ senders qs := by
  intro ip hip
  obtain ⟨p, hp, hpip⟩ := mem_senders.mp hip
  exact mem_senders.mpr ⟨p, h hp, hpip⟩

theorem firstMac_eq_none : firstMac ps ip = none ↔ ip ∉ senders ps := by
  simp [firstMac, mem_senders]

theorem lastMac_eq_none : lastMac ps ip = none ↔ ip ∉ senders ps := by
  simp [lastMac, mem_senders]

theorem lastMac_snoc (ps : List ArpPacket) (p : ArpPacket) :
    lastMac (ps ++ [p]) = Function.update (lastMac ps) p.senderIp (some p.senderMac) := by
  funext ip
  unfold lastMac
  by_cases hip : p.senderIp = ip
  · subst hip
    simp
  · rw [Function.update_of_ne (Ne.symm hip)]
    simp [hip]

theorem firstMac_take {n : Nat} (h : ip ∈ senders (ps.take n)) :
    firstMac (ps.take n) ip = firstMac ps ip := by
  conv_rhs => rw [← List.take_append_drop n ps]
  unfold firstMac
  rw [List.find?_append]
  cases hfind : (ps.take n).find? fun p => p.senderIp = ip with
  | some p => rfl
  | none =>
    refine absurd h (firstMac_eq_none.mp ?_)
    rw [firstMac, hfind, Option.map_none]

theorem answer_injective {a b : Option Mac} (h : ∀ buf, answer a buf = answer b buf) : a = b := by
  have hbuf := h (some fun _ => 0)
  cases a with
  | none =>
    cases b with
    | none => rfl
    | some mac => cases hbuf
  | some mac =>
    cases b with
    | none => cases hbuf
    | some mac' =>
      cases hbuf
      rfl

/-! ## The receiver -/

/-- A packet that passes the checks fills the first free entry. -/
theorem entries_arpReceive {p : ArpPacket} (hp : p.Valid) (t : ArpTable) :
    entries (arpReceive t p) = fill (entries t) (p.senderIp, p.senderMac) := by
  obtain ⟨hlen, hhw, hproto⟩ := hp
  unfold arpReceive fill
  rw [if_neg (Nat.not_lt.mpr hlen), if_neg (by simp [hhw, hproto]), arpFindFree_eq]
  cases freeSlot (entries t) with
  | none => rfl
  | some i => exact entries_update t i _

/-- **The table holds the senders of the packets**, the first ones if there are too many. -/
theorem arpReceive_filled (hvalid : ∀ p ∈ ps, p.Valid) (t : ArpTable) :
    Filled (entries (ps.foldl arpReceive (arpInit t)))
      (ps.map fun p => (p.senderIp, p.senderMac)) := by
  induction ps using List.reverseRecOn with
  | nil =>
    exact fun _ => rfl
  | append_singleton ps p ih =>
    have hp : p.Valid := hvalid p (List.mem_append_right _ List.mem_cons_self)
    rw [List.foldl_append, List.foldl_cons, List.foldl_nil, entries_arpReceive hp, List.map_append]
    exact (ih fun q hq => hvalid q (List.mem_append_left _ hq)).snoc _

/-- **`arp_lookup`** finds the first packet of the address among the first 16. -/
theorem arpLookup_eq (hvalid : ∀ p ∈ ps, p.Valid) (t : ArpTable) (ip : Ip) (buf : Option Mac) :
    arpLookup (ps.foldl arpReceive (arpInit t)) ip buf =
      answer (firstMac (ps.take arpTableSize) ip) buf := by
  rw [arpLookup, arpTableLookup_eq, (arpReceive_filled hvalid t).lookup_eq, ← List.map_take,
    List.find?_map, Option.map_map]
  rfl

/-! ## The table -/

/-- A full table with an entry for none of its addresses has 17 senders. -/
theorem senders_card_of_full {t : ArpTable} {p : ArpPacket}
    (hunique : Unique (entries t)) (hholds : ∀ ip, lookup (entries t) ip = lastMac ps ip)
    (habsent : ∀ i, (t i).valid = true → (t i).ip ≠ p.senderIp)
    (hfull : ∀ i, (t i).valid = true) : arpTableSize < (senders (ps ++ [p])).card := by
  have hentry : ∀ i, entries t i = some ((t i).ip, (t i).mac) :=
    fun i => entry_some.mpr ⟨hfull i, rfl, rfl⟩
  -- the entries are of 16 addresses, all of them senders
  have hinj : Function.Injective fun i => (t i).ip := by
    intro i j hij
    refine hunique i j (t i).ip (t i).mac (t j).mac (hentry i) ?_
    rw [hentry j, show (t i).ip = (t j).ip from hij]
  have hsub : (Finset.univ.image fun i => (t i).ip) ⊆ senders ps := by
    intro ip hip
    obtain ⟨i, -, rfl⟩ := Finset.mem_image.mp hip
    by_contra hnot
    have hsome : lookup (entries t) (t i).ip = some (t i).mac :=
      hunique.lookup_some.mpr ⟨i, hentry i⟩
    rw [hholds, lastMac_eq_none.mpr hnot] at hsome
    cases hsome
  have hnew : p.senderIp ∉ Finset.univ.image fun i => (t i).ip := by
    intro hmem
    obtain ⟨i, -, hi⟩ := Finset.mem_image.mp hmem
    exact habsent i (hfull i) hi
  have hcard : (Finset.univ.image fun i => (t i).ip).card = arpTableSize := by
    rw [Finset.card_image_of_injective _ hinj, Finset.card_univ, Fintype.card_fin]
  have hle : insert p.senderIp (Finset.univ.image fun i => (t i).ip) ⊆ senders (ps ++ [p]) := by
    refine Finset.insert_subset ?_ (hsub.trans (senders_subset (List.subset_append_left ps [p])))
    exact mem_senders.mpr ⟨p, List.mem_append_right _ List.mem_cons_self, rfl⟩
  calc arpTableSize < arpTableSize + 1 := Nat.lt_succ_self _
    _ = (insert p.senderIp (Finset.univ.image fun i => (t i).ip)).card := by
        rw [Finset.card_insert_of_notMem hnew, hcard]
    _ ≤ (senders (ps ++ [p])).card := Finset.card_le_card hle

/-- **`arp_table_add` for each packet** of at most 16 senders keeps the last packet of each. -/
theorem addAll_spec (hfew : (senders ps).card ≤ arpTableSize) (t : ArpTable) :
    Unique (entries (addAll (arpTableInit t) ps)) ∧
      ∀ ip, lookup (entries (addAll (arpTableInit t) ps)) ip = lastMac ps ip := by
  induction ps using List.reverseRecOn with
  | nil => exact ⟨(arpInv_init t).unique, (arpInv_init t).holds⟩
  | append_singleton ps p ih =>
    have hsub := senders_subset (List.subset_append_left ps [p])
    obtain ⟨hunique, hholds⟩ := ih ((Finset.card_le_card hsub).trans hfew)
    rw [addAll, List.foldl_append, List.foldl_cons, List.foldl_nil, ← addAll]
    rcases arpTableAdd_spec hunique p.senderIp p.senderMac with
      ⟨-, hunique', hmap, -⟩ | ⟨-, habsent, hfull⟩
    · refine ⟨hunique', fun ip => ?_⟩
      rw [hmap, lastMac_snoc, show lookup (entries (addAll (arpTableInit t) ps)) = lastMac ps from
        funext hholds]
    · exact absurd hfew (Nat.not_le.mpr (senders_card_of_full hunique hholds habsent hfull))

/-! ## Freshness -/

/-- The first of the packets kept of each address has the MAC of its last packet. -/
theorem firstMac_eq_lastMac_iff (ps : List ArpPacket) :
    (∀ ip, firstMac (ps.take arpTableSize) ip = lastMac ps ip) ↔
      ∀ ip ∈ senders ps, ip ∈ senders (ps.take arpTableSize) ∧ firstMac ps ip = lastMac ps ip := by
  constructor
  · intro h ip hip
    have hkept : ip ∈ senders (ps.take arpTableSize) := by
      by_contra hnot
      have hnone := h ip
      rw [firstMac_eq_none.mpr hnot] at hnone
      exact lastMac_eq_none.mp hnone.symm hip
    exact ⟨hkept, (firstMac_take hkept).symm.trans (h ip)⟩
  · intro h ip
    by_cases hip : ip ∈ senders ps
    · rw [firstMac_take (h ip hip).1, (h ip hip).2]
    · have hnot : ip ∉ senders (ps.take arpTableSize) :=
        fun hkept => hip (senders_subset (List.take_subset _ _) hkept)
      rw [firstMac_eq_none.mpr hnot, lastMac_eq_none.mpr hip]

/-- **Freshness of the cache.** After `arp_init` and any valid packets of at most 16 senders,
`arp_lookup` answers with the last packet of each address if and only if every sender has a
packet among the first 16, and its first packet and its last carry the same MAC. The cache
answers as the ARP table would under the same condition. -/
theorem arp_lookup_last_iff (t u : ArpTable) (ps : List ArpPacket) (hvalid : ∀ p ∈ ps, p.Valid)
    (hfew : (senders ps).card ≤ arpTableSize) :
    ((∀ ip buf, arpLookup (ps.foldl arpReceive (arpInit t)) ip buf = answer (lastMac ps ip) buf) ↔
      ∀ ip ∈ senders ps,
        ip ∈ senders (ps.take arpTableSize) ∧ firstMac ps ip = lastMac ps ip) ∧
    ((∀ ip buf, arpLookup (ps.foldl arpReceive (arpInit t)) ip buf =
        arpTableLookup (addAll (arpTableInit u) ps) ip buf) ↔
      ∀ ip ∈ senders ps,
        ip ∈ senders (ps.take arpTableSize) ∧ firstMac ps ip = lastMac ps ip) := by
  have hanswer : (∀ ip buf, arpLookup (ps.foldl arpReceive (arpInit t)) ip buf =
      answer (lastMac ps ip) buf) ↔ ∀ ip, firstMac (ps.take arpTableSize) ip = lastMac ps ip := by
    constructor
    · intro h ip
      refine answer_injective fun buf => ?_
      rw [← arpLookup_eq hvalid t, h]
    · intro h ip buf
      rw [arpLookup_eq hvalid, h]
  constructor
  · rw [hanswer, firstMac_eq_lastMac_iff]
  · simp only [arpTableLookup_eq, (addAll_spec hfew _).2]
    rw [hanswer, firstMac_eq_lastMac_iff]

/-- A reply of the sender `10.0.0.ip`, all bytes of whose MAC are `mac`. -/
def sampleReply (ip mac : UInt8) : ArpPacket where
  mem := ByteMem.ofList ([0, 1, 8, 0, 6, 4, 0, 2] ++ List.replicate 6 mac ++ [10, 0, 0, ip] ++
    List.replicate 6 0 ++ [10, 0, 0, 1])
  packet := 0
  len := 28

/-- The second reply of the sender repeats the first. -/
theorem arp_lookup_last_iff_repeated :
    (∀ p ∈ [sampleReply 2 7, sampleReply 3 8, sampleReply 2 7], p.Valid) ∧
    (senders [sampleReply 2 7, sampleReply 3 8, sampleReply 2 7]).card ≤ arpTableSize ∧
    ∀ ip buf, arpLookup ([sampleReply 2 7, sampleReply 3 8, sampleReply 2 7].foldl arpReceive
        (arpInit fun _ => ⟨0, fun _ => 0, false⟩)) ip buf =
      answer (lastMac [sampleReply 2 7, sampleReply 3 8, sampleReply 2 7] ip) buf := by
  have hvalid : ∀ p ∈ [sampleReply 2 7, sampleReply 3 8, sampleReply 2 7], p.Valid := by decide
  have hfew : (senders [sampleReply 2 7, sampleReply 3 8, sampleReply 2 7]).card ≤ arpTableSize :=
    (List.toFinset_card_le _).trans (by decide)
  refine ⟨hvalid, hfew, ?_⟩
  refine (arp_lookup_last_iff _ (fun _ => ⟨0, fun _ => 0, false⟩) _ hvalid hfew).1.mpr ?_
  simp [firstMac, lastMac, arpTableSize]

/-- The sender's second reply has another MAC, which is lost. -/
theorem arp_receive_keeps_old_mac :
    (∀ p ∈ [sampleReply 2 7, sampleReply 2 8], p.Valid) ∧
    (senders [sampleReply 2 7, sampleReply 2 8]).card ≤ arpTableSize ∧
    ¬ ∀ ip buf, arpLookup ([sampleReply 2 7, sampleReply 2 8].foldl arpReceive
        (arpInit fun _ => ⟨0, fun _ => 0, false⟩)) ip buf =
      answer (lastMac [sampleReply 2 7, sampleReply 2 8] ip) buf := by
  refine ⟨by decide, by decide, fun h => ?_⟩
  exact absurd (h (sampleReply 2 7).senderIp (some fun _ => 0)) (by decide)

end GosKernel.Arp
