import GosKernel.Lib.Best
import GosKernel.Lib.BitCount
import GosKernel.Lib.Run
import GosKernel.Lib.Slots

/-!
# The routing table (`src/net/routing.c`)

An array of 16 routes. `routing_add` takes the first free slot and stores its arguments as
they are; `routing_lookup` masks the address it is given and compares the result with the
destination of each route, which it does not mask.

- **`routing_lookup_longest`**: the lookup finds a route with the longest mask;
- **`routing_add_covers_iff`**: a new route covers its network if and only if its destination
  has no host bits.
-/

namespace GosKernel.Routing

open Slots List Function

/-! ## The code -/

/-- `ROUTE_TABLE_SIZE`. -/
def routeTableSize : Nat := 16

/-- An IPv4 address or mask. -/
abbrev Ip := BitVec 32

/-- `route_entry_t`, less `iface_ip`, which nothing uses. -/
structure RouteEntry where
  dest : Ip
  netmask : Ip
  gateway : Ip
  metric : UInt8
  valid : Bool
deriving DecidableEq

/-- `g_route_table`. -/
abbrev RouteTable := Fin routeTableSize → RouteEntry

/-- `routing_init` (routing.c:9-14). -/
def routingInit (t : RouteTable) : RouteTable := fun i => { t i with valid := false }

/-- `routing_add` (routing.c:16-36). -/
def routingAdd (t : RouteTable) (dest netmask gateway : Ip) (metric : UInt8) : Bool × RouteTable :=
  match (List.finRange routeTableSize).find? fun i => !(t i).valid with
  | some i => (true, update t i ⟨dest, netmask, gateway, metric, true⟩)
  | none => (false, t)

/-- `routing_remove` (routing.c:38-48). -/
def routingRemove (t : RouteTable) (dest netmask : Ip) : Bool × RouteTable :=
  match (List.finRange routeTableSize).find? fun i =>
      (t i).valid && (t i).dest = dest && (t i).netmask = netmask with
  | some i => (true, update t i { t i with valid := false })
  | none => (false, t)

theorem and_pred_toNat {mask : Ip} (h : mask ≠ 0) :
    (mask &&& (mask - 1)).toNat = mask.toNat &&& (mask.toNat - 1) := by
  have hpos : mask.toNat ≠ 0 := fun hzero => h (BitVec.eq_of_toNat_eq hzero)
  rw [BitVec.toNat_and, BitVec.toNat_sub]
  congr 1
  show (2 ^ 32 - 1 + mask.toNat) % 2 ^ 32 = _
  omega

/-- The counting loop of `routing_lookup` (routing.c:58). -/
def matchBits (mask : Ip) (count : Nat) : Nat :=
  if h : mask = 0 then count else matchBits (mask &&& (mask - 1)) (count + 1)
termination_by mask.toNat
decreasing_by
  have hpos : mask.toNat ≠ 0 := fun hzero => h (BitVec.eq_of_toNat_eq hzero)
  rw [and_pred_toNat h]
  exact Nat.lt_of_le_of_lt Nat.and_le_right (by omega)

/-- One round of `routing_lookup` (routing.c:53-64): the best route so far and the bits of its mask. -/
def lookupRound (t : RouteTable) (destIp : Ip) (best : Option (Fin routeTableSize) × Int)
    (i : Fin routeTableSize) : Option (Fin routeTableSize) × Int :=
  if !(t i).valid then best
  else if destIp &&& (t i).netmask = (t i).dest then
    let bits := matchBits (t i).netmask 0
    if (bits : Int) > best.2 then (some i, bits) else best
  else best

/-- `routing_lookup` (routing.c:50-66). A pointer to a route is its index in the table. -/
def routingLookup (t : RouteTable) (destIp : Ip) : Option (Fin routeTableSize) :=
  ((List.finRange routeTableSize).foldl (lookupRound t destIp) (none, -1)).1

/-! ## Longest prefixes -/

/-- The number of set bits of a mask. -/
def setBits (mask : Ip) : Nat := bitCount 32 mask.toNat

/-- The route is valid and matches the address. -/
def Matches (t : RouteTable) (ip : Ip) (i : Fin routeTableSize) : Prop :=
  (t i).valid = true ∧ ip &&& (t i).netmask = (t i).dest

instance (t : RouteTable) (ip : Ip) : DecidablePred (Matches t ip) :=
  fun _ => inferInstanceAs (Decidable (_ ∧ _))

/-- **The counting loop** counts the bits: each round takes one away. -/
theorem matchBits_eq (mask : Ip) (count : Nat) : matchBits mask count = count + setBits mask := by
  induction mask, count using matchBits.induct with
  | case1 count =>
    rw [matchBits]
    exact (congrArg (count + ·) (bitCount_zero_right 32)).symm
  | case2 mask count h ih =>
    have hpos : mask.toNat ≠ 0 := fun hzero => h (BitVec.eq_of_toNat_eq hzero)
    have hcount := bitCount_and_pred hpos mask.isLt
    rw [matchBits, dif_neg h, ih, setBits, and_pred_toNat h, setBits]
    omega

section

variable {t : RouteTable} {ip : Ip}

theorem lookupRound_eq (best : Option (Fin routeTableSize) × Int) (i : Fin routeTableSize) :
    lookupRound t ip best i
      = if Matches t ip i then Best.keep (fun i => setBits (t i).netmask) best i else best := by
  unfold lookupRound
  rw [matchBits_eq, Nat.zero_add]
  by_cases hvalid : (t i).valid = true
  · rw [if_neg (by simp [hvalid])]
    exact if_congr (and_iff_right hvalid).symm rfl rfl
  · rw [if_pos (by simpa using hvalid), if_neg fun h => hvalid h.1]

/-- **The lookup** finds the first of the matching routes with the longest mask. -/
theorem routingLookup_eq (t : RouteTable) (ip : Ip) :
    routingLookup t ip
      = ((List.finRange routeTableSize).filter (Matches t ip)).argmax fun i =>
          setBits (t i).netmask := by
  rw [← Best.foldl_keep, foldl_filter]
  unfold routingLookup
  congr 2
  funext best i
  rw [lookupRound_eq]
  simp

theorem mem_matches {i : Fin routeTableSize} :
    i ∈ (List.finRange routeTableSize).filter (Matches t ip) ↔ Matches t ip i := by
  simp

theorem routingLookup_none : routingLookup t ip = none ↔ ∀ i, ¬ Matches t ip i := by
  rw [routingLookup_eq, argmax_eq_none]
  simp

theorem routingLookup_some {i : Fin routeTableSize} (h : routingLookup t ip = some i) :
    Matches t ip i ∧ ∀ j, Matches t ip j → setBits (t j).netmask ≤ setBits (t i).netmask := by
  rw [routingLookup_eq] at h
  refine ⟨mem_matches.mp (argmax_mem h), fun j hj => ?_⟩
  exact le_of_mem_argmax (f := fun i => setBits (t i).netmask) (mem_matches.mpr hj) h

end

/-- **Longest prefix.** In every table, and so in every one that calls of `routing_add` and
`routing_remove` lead to: `routing_lookup` returns `NULL` if and only if no valid route matches the
address; otherwise a valid matching route whose mask has the most bits. -/
theorem routing_lookup_longest (t : RouteTable) (ip : Ip) :
    (routingLookup t ip = none ↔
      ∀ i, (t i).valid = true → ip &&& (t i).netmask ≠ (t i).dest) ∧
    ∀ i, routingLookup t ip = some i →
      (t i).valid = true ∧ ip &&& (t i).netmask = (t i).dest ∧
      ∀ j, (t j).valid = true → ip &&& (t j).netmask = (t j).dest →
        setBits (t j).netmask ≤ setBits (t i).netmask := by
  constructor
  · rw [routingLookup_none]
    exact forall_congr' fun i => not_and
  · intro i hi
    obtain ⟨⟨hvalid, hmatch⟩, hbest⟩ := routingLookup_some hi
    exact ⟨hvalid, hmatch, fun j hj hjm => hbest j ⟨hj, hjm⟩⟩

/-! ## Calls -/

/-- A call, with its result. -/
inductive RouteEvent
  | add (dest netmask gateway : Ip) (metric : UInt8) (ok : Bool)
  | remove (dest netmask : Ip) (ok : Bool)

inductive RouteStep : RouteTable → RouteEvent → RouteTable → Prop
  | add (t : RouteTable) (dest netmask gateway : Ip) (metric : UInt8) :
      RouteStep t (.add dest netmask gateway metric (routingAdd t dest netmask gateway metric).1)
        (routingAdd t dest netmask gateway metric).2
  | remove (t : RouteTable) (dest netmask : Ip) :
      RouteStep t (.remove dest netmask (routingRemove t dest netmask).1)
        (routingRemove t dest netmask).2

/-- The destination and the mask of a valid route. -/
def RouteEntry.key (e : RouteEntry) : Option (Ip × Ip) :=
  if e.valid then some (e.dest, e.netmask) else none

/-- The destinations and masks of the valid routes. -/
def held (t : RouteTable) : List (Ip × Ip) := contents fun i => (t i).key

namespace RouteEvent

/-- A route of this destination and mask was added. -/
def adds (k : Ip × Ip) : RouteEvent → Bool
  | add dest netmask _ _ ok => ok && (dest, netmask) = k
  | remove _ _ _ => false

/-- A route of this destination and mask was removed. -/
def removes (k : Ip × Ip) : RouteEvent → Bool
  | add _ _ _ _ _ => false
  | remove dest netmask ok => ok && (dest, netmask) = k

end RouteEvent

section Calls

variable {t : RouteTable} {dest netmask gateway : Ip} {metric : UInt8}

/-- **`routing_add`** fills a free slot, if there is one. -/
theorem routingAdd_cases (t : RouteTable) (dest netmask gateway : Ip) (metric : UInt8) :
    (∃ i, (t i).valid = false ∧ routingAdd t dest netmask gateway metric
      = (true, update t i ⟨dest, netmask, gateway, metric, true⟩)) ∨
    (∀ i, (t i).valid = true) ∧ routingAdd t dest netmask gateway metric = (false, t) := by
  unfold routingAdd
  cases hfree : (List.finRange routeTableSize).find? fun i => !(t i).valid with
  | some i => exact .inl ⟨i, by simpa using find?_some hfree, rfl⟩
  | none =>
    refine .inr ⟨fun i => ?_, rfl⟩
    simpa using find?_eq_none.mp hfree i (mem_finRange i)

/-- **`routing_remove`** empties a slot of the destination and the mask, if there is one. -/
theorem routingRemove_cases (t : RouteTable) (dest netmask : Ip) :
    (∃ i, (t i).key = some (dest, netmask) ∧ routingRemove t dest netmask
      = (true, update t i { t i with valid := false })) ∨
    (∀ i, (t i).key ≠ some (dest, netmask)) ∧ routingRemove t dest netmask = (false, t) := by
  have hkey : ∀ i, (t i).key = some (dest, netmask) ↔
      ((t i).valid && (t i).dest = dest && (t i).netmask = netmask) = true := by
    intro i
    unfold RouteEntry.key
    split <;> simp_all
  unfold routingRemove
  cases hfind : (List.finRange routeTableSize).find? fun i =>
      (t i).valid && (t i).dest = dest && (t i).netmask = netmask with
  | some i =>
    have hfound := find?_some hfind
    exact .inl ⟨i, (hkey i).mpr hfound, rfl⟩
  | none =>
    refine .inr ⟨fun i hi => ?_, rfl⟩
    exact find?_eq_none.mp hfind i (mem_finRange i) ((hkey i).mp hi)

theorem held_update (t : RouteTable) (i : Fin routeTableSize) (e : RouteEntry) (k : Ip × Ip) :
    (held (update t i e)).count k + (t i).key.toList.count k
      = (held t).count k + e.key.toList.count k := by
  obtain ⟨A, B, hAB, -⟩ := contents_update (fun j => (t j).key) i
  have hnew : held (update t i e) = A ++ e.key.toList ++ B := by
    rw [← hAB]
    unfold held
    congr 1
    funext j
    by_cases hji : j = i
    · subst hji
      rw [update_self, update_self]
    · rw [update_of_ne hji, update_of_ne hji]
  have hold : held t = A ++ (t i).key.toList ++ B := by
    rw [← hAB, update_eq_self]
    rfl
  rw [hnew, hold]
  simp only [count_append]
  omega

theorem count_key (r k : Ip × Ip) : (some r).toList.count k = if r = k then 1 else 0 := by
  rw [Option.toList_some, count_singleton]
  exact if_congr beq_iff_eq rfl rfl

/-- One call adds one route, removes one, or does nothing. -/
theorem RouteStep.count {t' : RouteTable} {e : RouteEvent} (h : RouteStep t e t') (k : Ip × Ip) :
    (held t').count k + (if e.removes k then 1 else 0)
      = (held t).count k + if e.adds k then 1 else 0 := by
  cases h with
  | add dest netmask gateway metric =>
    rcases routingAdd_cases t dest netmask gateway metric with ⟨i, hfree, hadd⟩ | ⟨-, hadd⟩
    · have hupd := held_update t i ⟨dest, netmask, gateway, metric, true⟩ k
      have hold : (t i).key = none := if_neg (by simp [hfree])
      have hnew : (⟨dest, netmask, gateway, metric, true⟩ : RouteEntry).key = some (dest, netmask) :=
        rfl
      rw [hold, hnew, count_key] at hupd
      rw [hadd]
      simpa [RouteEvent.adds, RouteEvent.removes] using hupd
    · rw [hadd]
      rfl
  | remove dest netmask =>
    rcases routingRemove_cases t dest netmask with ⟨i, hkey, hremove⟩ | ⟨-, hremove⟩
    · have hupd := held_update t i { t i with valid := false } k
      have hnew : ({ t i with valid := false } : RouteEntry).key = none := rfl
      rw [hkey, hnew, count_key] at hupd
      rw [hremove]
      simpa [RouteEvent.adds, RouteEvent.removes] using hupd
    · rw [hremove]
      rfl

end Calls

/-- **No route is lost or duplicated.** After any calls, the routes of a destination and mask are as
many as were added, less those removed. -/
theorem routing_counts {t0 t : RouteTable} {es : List RouteEvent}
    (hrun : Run RouteStep (routingInit t0) es t) (k : Ip × Ip) :
    (held t).count k + es.countP (·.removes k) = es.countP (·.adds k) := by
  refine hrun.trace_invariant (I := fun es t =>
    (held t).count k + es.countP (·.removes k) = es.countP (·.adds k)) ?_ ?_
  · intro es t e t' hinv hstep
    have hcount := hstep.count k
    rw [countP_append, countP_append, countP_singleton, countP_singleton]
    omega
  · have hempty : held (routingInit t0) = [] := contents_none
    rw [hempty]
    rfl

theorem routing_counts_one :
    (held (routingAdd (routingInit fun _ => ⟨0, 0, 0, 0, false⟩) 10 255 1 0).2).count (10, 255)
      = 1 := by
  have hcount := routing_counts (.cons (.add (routingInit fun _ => ⟨0, 0, 0, 0, false⟩) 10 255 1 0)
    (.nil _)) (10, 255)
  exact hcount.trans (by decide)

/-! ## New routes -/

/-- **A new route covers its network.** For all arguments of `routing_add`: after every call of it
that succeeds, in every table that is reached, each address of the network leads to a route with at
least as many bits, if and only if the destination has no bits outside of the mask. -/
theorem routing_add_covers_iff (dest netmask gateway : Ip) (metric : UInt8) :
    (∀ t0 es t t', Run RouteStep (routingInit t0) es t →
      routingAdd t dest netmask gateway metric = (true, t') →
      ∀ ip, ip &&& netmask = dest &&& netmask →
        ∃ i, routingLookup t' ip = some i ∧ setBits netmask ≤ setBits (t' i).netmask) ↔
      dest &&& netmask = dest := by
  constructor
  · intro h
    -- in an empty table only the new route can match
    let t0 : RouteTable := fun _ => ⟨0, 0, 0, 0, false⟩
    rcases routingAdd_cases (routingInit t0) dest netmask gateway metric with
      ⟨i, -, hadd⟩ | ⟨hfull, -⟩
    · obtain ⟨j, hj, -⟩ := h t0 [] _ _ (.nil _) hadd dest rfl
      obtain ⟨hvalid, hmatch⟩ := (routingLookup_some hj).1
      have hji : j = i := by
        by_contra hne
        rw [update_of_ne hne] at hvalid
        cases hvalid
      rw [hji, update_self] at hmatch
      exact hmatch
    · cases hfull ⟨0, by decide⟩
  · rintro hdest t0 es t t' - hadd ip hip
    rcases routingAdd_cases t dest netmask gateway metric with ⟨i, -, hadd'⟩ | ⟨-, hadd'⟩
    · rw [hadd] at hadd'
      cases hadd'
      have hmatch : Matches (update t i ⟨dest, netmask, gateway, metric, true⟩) ip i := by
        unfold Matches
        rw [update_self]
        exact ⟨rfl, hip.trans hdest⟩
      cases hbest : routingLookup (update t i ⟨dest, netmask, gateway, metric, true⟩) ip with
      | none => exact absurd hmatch (routingLookup_none.mp hbest i)
      | some j =>
        have hle := (routingLookup_some hbest).2 i hmatch
        rw [update_self] at hle
        exact ⟨j, rfl, hle⟩
    · rw [hadd] at hadd'
      cases hadd'

/-- `10.0.2.15/24` is added, as a host might write its own address. The network has `10.0.2.2` in it,
which has no route then. -/
theorem routing_add_host_bits :
    (routingAdd (routingInit fun _ => ⟨0, 0, 0, 0, false⟩) 0x0F02000A 0x00FFFFFF 0 0).1 = true ∧
    (0x0202000A : Ip) &&& 0x00FFFFFF = 0x0F02000A &&& 0x00FFFFFF ∧
    routingLookup
      (routingAdd (routingInit fun _ => ⟨0, 0, 0, 0, false⟩) 0x0F02000A 0x00FFFFFF 0 0).2 0x0202000A
      = none := by
  decide +kernel

end GosKernel.Routing
