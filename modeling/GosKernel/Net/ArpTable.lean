import GosKernel.Lib.Run
import GosKernel.Lib.SlotMap
import Mathlib.Data.Fintype.Basic

/-!
# The ARP table (`src/net/arp_table.c`)

An array of 16 entries. Removing an entry leaves a hole that a later one fills. The valid
entries are a map in an array of slots (`entries`), and the calls are the operations of the
map: after any sequence of calls, a lookup answers what the calls before it left (`latest`).
-/

namespace GosKernel.Arp

open SlotMap

/-- `ARP_TABLE_SIZE`. -/
def arpTableSize : Nat := 16

/-- An IPv4 address, as it is in a packet. -/
abbrev Ip := BitVec 32

abbrev Mac := Fin 6 → UInt8

/-- `arp_entry_t`, less the timestamp, which nothing uses. -/
structure ArpEntry where
  ip : Ip
  mac : Mac
  valid : Bool
deriving DecidableEq

/-- `g_arp_table`. -/
abbrev ArpTable := Fin arpTableSize → ArpEntry

/-! ## The functions -/

/-- The loop of `arp_table_init` and of `arp_table_flush`. -/
def invalidateAll (t : ArpTable) : ArpTable := fun i => { t i with valid := false }

/-- `arp_table_init` (arp_table.c:9-13). -/
def arpTableInit (t : ArpTable) : ArpTable := invalidateAll t

/-- The first valid entry of the address. -/
def arpFind (t : ArpTable) (ip : Ip) : Option (Fin arpTableSize) :=
  (List.finRange arpTableSize).find? fun i => (t i).valid && (t i).ip = ip

/-- The first entry that is not valid. -/
def arpFindFree (t : ArpTable) : Option (Fin arpTableSize) :=
  (List.finRange arpTableSize).find? fun i => !(t i).valid

/-- `arp_table_add` (arp_table.c:15-33). -/
def arpTableAdd (t : ArpTable) (ip : Ip) (mac : Mac) : Bool × ArpTable :=
  match arpFind t ip with
  | some i => (true, Function.update t i { t i with mac := mac })
  | none =>
    match arpFindFree t with
    | some i => (true, Function.update t i ⟨ip, mac, true⟩)
    | none => (false, t)

/-- `arp_table_lookup` (arp_table.c:35-43): the result, and the caller's buffer, which may
be `NULL`. -/
def arpTableLookup (t : ArpTable) (ip : Ip) (mac : Option Mac) : Bool × Option Mac :=
  match arpFind t ip with
  | some i => (true, mac.map fun _ => (t i).mac)
  | none => (false, mac)

/-- `arp_table_remove` (arp_table.c:45-52). -/
def arpTableRemove (t : ArpTable) (ip : Ip) : ArpTable :=
  match arpFind t ip with
  | some i => Function.update t i { t i with valid := false }
  | none => t

/-- `arp_table_flush` (arp_table.c:68-72). -/
def arpTableFlush (t : ArpTable) : ArpTable := invalidateAll t

/-! ## Runs -/

/-- A call, with the result of `arp_table_add`. -/
inductive ArpEvent
  | add (ip : Ip) (mac : Mac) (ok : Bool)
  | remove (ip : Ip)
  | flush
  | lookup (ip : Ip)

inductive ArpStep : ArpTable → ArpEvent → ArpTable → Prop
  | add (t : ArpTable) (ip : Ip) (mac : Mac) :
      ArpStep t (.add ip mac (arpTableAdd t ip mac).1) (arpTableAdd t ip mac).2
  | remove (t : ArpTable) (ip : Ip) : ArpStep t (.remove ip) (arpTableRemove t ip)
  | flush (t : ArpTable) : ArpStep t .flush (arpTableFlush t)
  | lookup (t : ArpTable) (ip : Ip) : ArpStep t (.lookup ip) t

namespace ArpEvent

/-- The call decides whether the address is in the table. -/
def concerns (ip : Ip) : ArpEvent → Bool
  | add ip' _ ok => ok && ip' = ip
  | remove ip' => ip' = ip
  | flush => true
  | lookup _ => false

/-- What the call leaves for the addresses it concerns. -/
def leaves : ArpEvent → Option Mac
  | add _ mac _ => some mac
  | _ => none

end ArpEvent

/-- What the last call that concerns the address has left: the MAC of the latest successful
`arp_table_add`, unless the address was removed since, or the table flushed. -/
def latest (es : List ArpEvent) (ip : Ip) : Option Mac :=
  (es.reverse.find? (·.concerns ip)).bind ArpEvent.leaves

theorem latest_snoc (es : List ArpEvent) (e : ArpEvent) (ip : Ip) :
    latest (es ++ [e]) ip = if e.concerns ip then e.leaves else latest es ip := by
  unfold latest
  rw [List.reverse_append, List.reverse_singleton, List.singleton_append, List.find?_cons]
  cases e.concerns ip with
  | false => rfl
  | true => rfl

variable {e : ArpEntry} {ip : Ip} {mac : Mac} {t : ArpTable}

theorem latest_snoc_update (es : List ArpEvent) {e : ArpEvent}
    (h : ∀ ip', e.concerns ip' = decide (ip = ip')) :
    latest (es ++ [e]) = Function.update (latest es) ip e.leaves := by
  funext ip'
  rw [latest_snoc, h ip']
  by_cases hip : ip = ip'
  · subst hip
    rw [Function.update_self, decide_eq_true rfl, if_pos rfl]
  · rw [Function.update_of_ne (Ne.symm hip), decide_eq_false hip, if_neg Bool.false_ne_true]

/-- What a lookup that finds this returns, and what it leaves in the caller's buffer. -/
def answer (found : Option Mac) (buf : Option Mac) : Bool × Option Mac :=
  match found with
  | some mac => (true, buf.map fun _ => mac)
  | none => (false, buf)

/-! ## The map in the table -/

/-- A valid entry. -/
def ArpEntry.entry (e : ArpEntry) : Option (Ip × Mac) :=
  if e.valid then some (e.ip, e.mac) else none

/-- The valid entries. -/
def entries (t : ArpTable) : Fin arpTableSize → Option (Ip × Mac) := fun i => (t i).entry

theorem entry_some : e.entry = some (ip, mac) ↔ e.valid = true ∧ e.ip = ip ∧ e.mac = mac := by
  unfold ArpEntry.entry
  cases e.valid with
  | false => simp
  | true => simp

theorem entry_none : e.entry = none ↔ e.valid = false := by
  unfold ArpEntry.entry
  cases e.valid with
  | false => simp
  | true => simp

theorem entries_update (t : ArpTable) (i : Fin arpTableSize) (e : ArpEntry) :
    entries (Function.update t i e) = Function.update (entries t) i e.entry := by
  funext j
  by_cases hji : j = i
  · subst hji
    rw [Function.update_self, entries, Function.update_self]
  · rw [Function.update_of_ne hji, entries, Function.update_of_ne hji, entries]

theorem arpFind_eq (t : ArpTable) (ip : Ip) : arpFind t ip = slotOf (entries t) ip := by
  unfold arpFind slotOf
  congr 1
  funext i
  unfold entries ArpEntry.entry
  cases (t i).valid with
  | false => rfl
  | true => simp

theorem arpFindFree_eq (t : ArpTable) : arpFindFree t = freeSlot (entries t) := by
  unfold arpFindFree freeSlot
  congr 1
  funext i
  unfold entries ArpEntry.entry
  cases (t i).valid with
  | false => rfl
  | true => rfl

/-- **`arp_table_lookup`** looks the address up in the map. -/
theorem arpTableLookup_eq (t : ArpTable) (ip : Ip) (buf : Option Mac) :
    arpTableLookup t ip buf = answer (lookup (entries t) ip) buf := by
  unfold arpTableLookup
  rw [arpFind_eq, lookup_eq_slotOf]
  cases hslot : slotOf (entries t) ip with
  | none => rfl
  | some i =>
    obtain ⟨mac, hi⟩ := slotOf_some hslot
    rw [Option.bind_some, hi]
    show (true, buf.map fun _ => (t i).mac) = (true, buf.map fun _ => mac)
    rw [(entry_some.mp hi).2.2]

/-- An entry is written that is the address's already, or that is free while it has none. -/
theorem entries_write (h : Unique (entries t)) {i : Fin arpTableSize}
    (he : e.entry = some (ip, mac)) (hkey : ∀ j w, entries t j = some (ip, w) → j = i)
    (hslot : ∀ e, entries t i = some e → e.1 = ip) :
    Unique (entries (Function.update t i e)) ∧
      lookup (entries (Function.update t i e)) =
        Function.update (lookup (entries t)) ip (some mac) := by
  rw [entries_update, he]
  exact ⟨h.set hkey mac, h.lookup_set hkey hslot mac⟩

/-- **`arp_table_add`** updates the map, or finds the address absent and the table full. -/
theorem arpTableAdd_spec (h : Unique (entries t)) (ip : Ip) (mac : Mac) :
    ((arpTableAdd t ip mac).1 = true ∧ Unique (entries (arpTableAdd t ip mac).2) ∧
      lookup (entries (arpTableAdd t ip mac).2) =
        Function.update (lookup (entries t)) ip (some mac) ∧
      ((∃ i, (t i).valid = true ∧ (t i).ip = ip) ∨ ∃ i, (t i).valid = false)) ∨
    (arpTableAdd t ip mac = (false, t) ∧ (∀ i, (t i).valid = true → (t i).ip ≠ ip) ∧
      ∀ i, (t i).valid = true) := by
  unfold arpTableAdd
  rw [arpFind_eq]
  cases hslot : slotOf (entries t) ip with
  | some i =>
    -- the entry of the address is changed
    obtain ⟨old, hi⟩ := slotOf_some hslot
    obtain ⟨hvalid, hip, -⟩ := entry_some.mp hi
    obtain ⟨hunique, hmap⟩ := entries_write h (i := i) (e := { t i with mac := mac })
      (entry_some.mpr ⟨hvalid, hip, rfl⟩) (fun j w hj => h j i ip w old hj hi) fun e he => by
        rw [hi] at he
        cases he
        rfl
    exact .inl ⟨rfl, hunique, hmap, .inl ⟨i, hvalid, hip⟩⟩
  | none =>
    have habsent := slotOf_none.mp hslot
    rw [arpFindFree_eq]
    cases hfree : freeSlot (entries t) with
    | some i =>
      have hi := freeSlot_some hfree
      obtain ⟨hunique, hmap⟩ := entries_write h (i := i) (e := ⟨ip, mac, true⟩) rfl
        (fun j w hj => absurd hj (habsent j w)) fun e he => by
          rw [hi] at he
          cases he
      exact .inl ⟨rfl, hunique, hmap, .inr ⟨i, entry_none.mp hi⟩⟩
    | none =>
      have hfull := freeSlot_none.mp hfree
      refine .inr ⟨rfl, fun i hvalid hip => ?_, fun i => ?_⟩
      · exact habsent i (t i).mac (entry_some.mpr ⟨hvalid, hip, rfl⟩)
      · rw [← Bool.not_eq_false]
        exact fun hvalid => hfull i (entry_none.mpr hvalid)

/-- **`arp_table_remove`** removes the address from the map. -/
theorem arpTableRemove_spec (h : Unique (entries t)) (ip : Ip) :
    Unique (entries (arpTableRemove t ip)) ∧
      lookup (entries (arpTableRemove t ip)) = Function.update (lookup (entries t)) ip none := by
  unfold arpTableRemove
  rw [arpFind_eq]
  cases hslot : slotOf (entries t) ip with
  | some i =>
    obtain ⟨mac, hi⟩ := slotOf_some hslot
    have hentry : ({ t i with valid := false } : ArpEntry).entry = none := rfl
    show Unique (entries (Function.update t i _)) ∧ lookup (entries (Function.update t i _)) = _
    rw [entries_update, hentry]
    exact ⟨h.clear i, h.lookup_clear hi⟩
  | none =>
    refine ⟨h, ?_⟩
    have habsent : lookup (entries t) ip = none := lookup_none.mpr (slotOf_none.mp hslot)
    rw [← habsent, Function.update_eq_self]

/-! ## The table over runs -/

/-- No address has two entries, and the map is what the calls have left. -/
structure ArpInv (es : List ArpEvent) (t : ArpTable) : Prop where
  unique : Unique (entries t)
  holds : ∀ ip, lookup (entries t) ip = latest es ip

theorem arpInv_init (t : ArpTable) : ArpInv [] (arpTableInit t) := by
  constructor
  · rw [arpTableInit]
    exact Unique.empty
  · intro ip
    exact lookup_none.mpr fun _ _ hi => by cases hi

theorem ArpInv.step {es : List ArpEvent} {t' : ArpTable} {e : ArpEvent} (h : ArpInv es t)
    (hstep : ArpStep t e t') : ArpInv (es ++ [e]) t' := by
  cases hstep with
  | add ip mac =>
    rcases arpTableAdd_spec h.unique ip mac with ⟨hok, hunique, hmap, -⟩ | ⟨hfail, -⟩
    · refine ⟨hunique, fun ip' => ?_⟩
      have hconcerns : ∀ ip', (ArpEvent.add ip mac true).concerns ip' = decide (ip = ip') :=
        fun _ => rfl
      rw [hmap, funext h.holds, hok, latest_snoc_update es hconcerns]
      rfl
    · rw [hfail]
      refine ⟨h.unique, fun ip' => ?_⟩
      rw [h.holds, latest_snoc]
      rfl
  | remove ip =>
    obtain ⟨hunique, hmap⟩ := arpTableRemove_spec h.unique ip
    refine ⟨hunique, fun ip' => ?_⟩
    have hconcerns : ∀ ip', (ArpEvent.remove ip).concerns ip' = decide (ip = ip') := fun _ => rfl
    rw [hmap, funext h.holds, latest_snoc_update es hconcerns]
    rfl
  | flush =>
    refine ⟨(arpInv_init t).unique, fun ip => ?_⟩
    rw [latest_snoc]
    exact (arpInv_init t).holds ip
  | lookup =>
    refine ⟨h.unique, fun ip => ?_⟩
    rw [h.holds, latest_snoc]
    rfl

/-- **The ARP table is a bounded map.** After `arp_table_init` and any sequence of calls, no
address has two valid entries; a lookup finds what the calls have left for the address; and
`arp_table_add` fails if and only if the address is absent and every entry is valid, and
then changes nothing. -/
theorem arp_table_bounded_map {t0 t : ArpTable} {es : List ArpEvent}
    (hrun : Run ArpStep (arpTableInit t0) es t) :
    (∀ i j, (t i).valid = true → (t j).valid = true → (t i).ip = (t j).ip → i = j) ∧
    (∀ ip buf mac, latest es ip = some mac →
      arpTableLookup t ip buf = (true, buf.map fun _ => mac)) ∧
    (∀ ip buf, latest es ip = none → arpTableLookup t ip buf = (false, buf)) ∧
    ∀ ip mac, ((arpTableAdd t ip mac).1 = false ↔
        (∀ i, (t i).valid = true → (t i).ip ≠ ip) ∧ ∀ i, (t i).valid = true) ∧
      ((arpTableAdd t ip mac).1 = false → (arpTableAdd t ip mac).2 = t) := by
  have h : ArpInv es t := hrun.trace_invariant (fun _ _ _ _ h hstep => h.step hstep)
    (arpInv_init t0)
  refine ⟨fun i j hi hj hip => ?_, fun ip buf mac hmac => ?_, fun ip buf hnone => ?_,
    fun ip mac => ?_⟩
  · exact h.unique i j (t i).ip (t i).mac (t j).mac (entry_some.mpr ⟨hi, rfl, rfl⟩)
      (entry_some.mpr ⟨hj, hip.symm, rfl⟩)
  · rw [arpTableLookup_eq, h.holds, hmac]
    rfl
  · rw [arpTableLookup_eq, h.holds, hnone]
    rfl
  · rcases arpTableAdd_spec h.unique ip mac with ⟨hok, -, -, hroom⟩ | ⟨hfail, habsent, hfull⟩
    · rw [hok]
      constructor
      · refine iff_of_false (by decide) ?_
        rintro ⟨habsent, hfull⟩
        rcases hroom with ⟨i, hvalid, hip⟩ | ⟨i, hinvalid⟩
        · exact habsent i hvalid hip
        · rw [hfull i] at hinvalid
          cases hinvalid
      · intro hfalse
        cases hfalse
    · rw [hfail]
      exact ⟨iff_of_true rfl ⟨habsent, hfull⟩, fun _ => rfl⟩

/-- After an entry is added and changed and another one added and removed, the first has its
second MAC, and the table has room. -/
theorem arp_table_bounded_map_four :
    ∃ es t, Run ArpStep (arpTableInit fun _ => ⟨7, fun _ => 9, true⟩) es t ∧
      (∀ buf, arpTableLookup t 1 buf = (true, buf.map fun _ => fun _ => 5)) ∧
      (∀ buf, arpTableLookup t 2 buf = (false, buf)) ∧
      ¬ (arpTableAdd t 3 fun _ => 8).1 = false := by
  have hrun := Run.cons (ArpStep.add (arpTableInit fun _ => ⟨7, fun _ => 9, true⟩) 1 fun _ => 4) <|
    .cons (ArpStep.add _ 2 fun _ => 6) <|
    .cons (ArpStep.add _ 1 fun _ => 5) <|
    .cons (ArpStep.remove _ 2) (.nil _)
  obtain ⟨-, hfound, habsent, hadd⟩ := arp_table_bounded_map hrun
  refine ⟨_, _, hrun, fun buf => hfound 1 buf _ rfl, fun buf => habsent 2 buf rfl, ?_⟩
  rw [(hadd 3 _).1]
  exact fun hfull => absurd (hfull.2 ⟨1, by decide⟩) (by decide)

end GosKernel.Arp
