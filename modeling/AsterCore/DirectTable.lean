import AsterCore.DirectController

namespace AsterCore.KernelDirect

open List Option Function GoMap AddressRecords

/-- The table of addresses, the list of recency and the count of records belong together, and the count was never clamped. -/
structure Table (c : Controller) : Prop where
  pointers : GoMap.Pointers c.records c.fresh
  addr_eq : ∀ addr ref, c.records.lookup addr = some ref → (c.nodes ref).addr = addr
  recency : ∃ l, c.lru.Linked l ∧ ∀ ref, ref ∈ l ↔ ∃ addr, c.records.lookup addr = some ref
  length_eq : c.recordsLen = GoMap.sumBy (fun _ ref => (c.nodes ref).lenHosts) c.records
  valid : ∀ addr ref, c.records.lookup addr = some ref → (c.nodes ref).Valid
  unclamped : Mark.clamped ∉ c.log

namespace Table

variable {c : Controller} {addr : Addr} {ref : Nat}

theorem register (maxEntries : Nat) : Table (register maxEntries) where
  pointers := .empty 0
  addr_eq := nofun
  recency := by
    refine ⟨[], Links.linked_empty, fun ref => ⟨fun h => absurd h not_mem_nil, ?_⟩⟩
    rintro ⟨_, h⟩
    cases h
  length_eq := rfl
  valid := nofun
  unclamped := not_mem_nil

section

variable (t : Table c)

include t

section

variable (here : c.records.lookup addr = some ref)

include here

/-- The hosts of one address and of the others. -/
theorem length_split :
    c.recordsLen = (c.nodes ref).lenHosts +
      GoMap.sumBy (fun _ ref => (c.nodes ref).lenHosts) (c.records.erase addr) := by
  have hs := sumBy_erase (fun _ ref => (c.nodes ref).lenHosts) c.records addr
  rw [here, elim_some] at hs
  rw [t.length_eq, hs]

theorem lenHosts_le : (c.nodes ref).lenHosts ≤ c.recordsLen := by
  rw [t.length_split here]
  omega

/-- The other addresses do not see a change of one node. -/
theorem others_eq (a : AddressRecords) {other : Addr}
    {ref' : Nat} (ht : c.records.lookup other = some ref') (ne : other ≠ addr) :
    Function.update c.nodes ref a ref' = c.nodes ref' := by
  apply update_of_ne
  rintro rfl
  exact ne (t.pointers.distinct other addr ref' ht here)

theorem stored_setNode (a : AddressRecords) (other : Addr) (host : String) :
    (c.setNode ref a).stored other host = if other = addr then a.lookup host else c.stored other host := by
  show ((c.records.lookup other).bind fun ref' => (update c.nodes ref a ref').lookup host) =
    if other = addr then a.lookup host else (c.records.lookup other).bind fun ref' => (c.nodes ref').lookup host
  split
  next hs => rw [hs, here, bind_some, update_self]
  next ne =>
    cases ht : c.records.lookup other with
    | none => rfl
    | some => rw [bind_some, bind_some, t.others_eq here a ht ne]

/-- A node is replaced and the count follows. -/
theorem replace {a : AddressRecords} (hv : a.Valid)
    (ha_eq : a.addr = addr) (total : Nat) (sum : total + (c.nodes ref).lenHosts = c.recordsLen + a.lenHosts) :
    Table { c.setNode ref a with recordsLen := total } where
  pointers := t.pointers
  addr_eq := by
    intro other ref' ht
    show (update c.nodes ref a ref').addr = other
    by_cases same : other = addr
    · subst same
      rw [some.inj (ht.symm.trans here), update_self, ha_eq]
    · rw [t.others_eq here a ht same]
      exact t.addr_eq other ref' ht
  recency := t.recency
  length_eq := by
    show total = sumBy (fun _ ref' => (update c.nodes ref a ref').lenHosts) c.records
    have hs := sumBy_erase (fun _ ref' => (update c.nodes ref a ref').lenHosts) c.records addr
    have ho : sumBy (fun _ ref' => (update c.nodes ref a ref').lenHosts) (c.records.erase addr) =
        sumBy (fun _ ref => (c.nodes ref).lenHosts) (c.records.erase addr) := by
      apply sumBy_congr
      intro _ _ ht
      obtain ⟨ne, ht⟩ := lookup_of_erase ht
      rw [t.others_eq here a ht ne]
    rw [here, elim_some, update_self] at hs
    have hb := t.length_split here
    omega
  valid := by
    intro other ref' ht
    show (update c.nodes ref a ref').Valid
    by_cases same : other = addr
    · subst same
      rw [some.inj (ht.symm.trans here), update_self]
      exact hv
    · rw [t.others_eq here a ht same]
      exact t.valid other ref' ht
  unclamped := t.unclamped

/-- An address leaves the table and the list, and the count drops by its hosts. -/
theorem erase (total : Nat)
    (sum : total + (c.nodes ref).lenHosts = c.recordsLen) (marks : List Mark) (hq : Mark.clamped ∉ marks) :
    Table { c with records := c.records.erase addr, lru := c.lru.unlink ref, recordsLen := total, log := c.log ++ marks } where
  pointers := t.pointers.sub (fun _ _ ht => (lookup_of_erase ht).2) le_rfl
  addr_eq := fun other ref' ht => t.addr_eq other ref' (lookup_of_erase ht).2
  recency := by
    obtain ⟨l, hl, hm⟩ := t.recency
    have mem := (hm ref).mpr ⟨addr, here⟩
    refine ⟨l.erase ref, (hl.unlink mem).1, ?_⟩
    intro ref'
    rw [hl.nodup.mem_erase_iff, hm]
    constructor
    · rintro ⟨ne, other, ht⟩
      refine ⟨other, ?_⟩
      rw [lookup_erase_eq, if_neg, ht]
      rintro rfl
      exact ne (some.inj (ht.symm.trans here))
    · rintro ⟨other, ht⟩
      obtain ⟨ne, old⟩ := lookup_of_erase ht
      refine ⟨?_, other, old⟩
      rintro rfl
      exact ne (t.pointers.distinct other addr ref' old here)
  length_eq := by
    have hb := t.length_split here
    show total = sumBy (fun _ ref => (c.nodes ref).lenHosts) (c.records.erase addr)
    omega
  valid := fun other ref' ht => t.valid other ref' (lookup_of_erase ht).2
  unclamped := fun mem => (mem_append.mp mem).elim t.unclamped hq

/-- Moving an address to the front of the list changes nothing else. -/
theorem touch : Table (c.touchLocked ref) where
  pointers := t.pointers
  addr_eq := t.addr_eq
  recency := by
    obtain ⟨l, hl, hm⟩ := t.recency
    obtain ⟨k, hl', hs⟩ := hl.touch ((hm ref).mpr ⟨addr, here⟩)
    exact ⟨k, hl', fun ref' => (hs ref').trans (hm ref')⟩
  length_eq := t.length_eq
  valid := t.valid
  unclamped := t.unclamped

end

/-- A new address gets a pointer that was never used and joins the list. -/
theorem newAddress (ha : c.records.lookup addr = none) : Table ((c.newAddressLocked addr).touchLocked c.fresh) := by
  have hu : ∀ other ref', c.records.lookup other = some ref' → ref' ≠ c.fresh := by
    intro other ref' ht _
    exact absurd (t.pointers.allocated other ref' ht) (by omega)
  have hl : ∀ other, (c.records.insert addr c.fresh).lookup other =
      if other = addr then some c.fresh else c.records.lookup other := fun other => lookup_insert_eq _ _ _ _
  have he : ∀ {other : Addr} {ref' : Nat}, (c.records.insert addr c.fresh).lookup other = some ref' →
      (other = addr ∧ ref' = c.fresh) ∨ (other ≠ addr ∧ c.records.lookup other = some ref' ∧ ref' ≠ c.fresh) := by
    intro other ref' ht
    rw [hl] at ht
    split at ht
    next hs => exact .inl ⟨hs, (some.inj ht).symm⟩
    next ne => exact .inr ⟨ne, ht, hu other ref' ht⟩
  refine ⟨t.pointers.insertFresh addr, ?_, ?_, ?_, ?_, t.unclamped⟩
  · intro other ref' ht
    show (update c.nodes c.fresh { addr := addr } ref').addr = other
    rcases he ht with ⟨rfl, rfl⟩ | ⟨_, ht, ne⟩
    · rw [update_self]
    · rw [update_of_ne ne]
      exact t.addr_eq other ref' ht
  · obtain ⟨l, hli, hm⟩ := t.recency
    have ho : c.fresh ∉ l := by
      intro mem
      obtain ⟨other, ht⟩ := (hm c.fresh).mp mem
      exact hu other c.fresh ht rfl
    obtain ⟨hc, hf⟩ := hli.clear ho
    refine ⟨l ++ [c.fresh], hc.touchNew hf ho, ?_⟩
    intro ref'
    rw [mem_append, mem_singleton, hm]
    show _ ↔ ∃ other, (c.records.insert addr c.fresh).lookup other = some ref'
    constructor
    · rintro (⟨other, ht⟩ | rfl)
      · refine ⟨other, ?_⟩
        rw [hl, if_neg, ht]
        rintro rfl
        rw [ha] at ht
        cases ht
      · exact ⟨addr, by rw [hl, if_pos rfl]⟩
    · rintro ⟨other, ht⟩
      rcases he ht with ⟨_, hs⟩ | ⟨_, ht, _⟩
      · exact .inr hs
      · exact .inl ⟨other, ht⟩
  · show c.recordsLen = sumBy (fun _ ref' => (update c.nodes c.fresh { addr := addr } ref').lenHosts)
      (c.records.insert addr c.fresh)
    rw [sumBy_insert, update_self, t.length_eq, sumBy_erase _ c.records addr, ha]
    congr 1
    apply sumBy_congr
    intro other ref' ht
    rw [update_of_ne (hu other ref' (lookup_of_erase ht).2)]
  · intro other ref' ht
    show (update c.nodes c.fresh { addr := addr } ref').Valid
    rcases he ht with ⟨rfl, rfl⟩ | ⟨_, ht, ne⟩
    · rw [update_self]
      exact valid_of_extra_none rfl
    · rw [update_of_ne ne]
      exact t.valid other ref' ht

theorem frame {c' : Controller} (hr : c'.records = c.records) (hn : c'.nodes = c.nodes)
    (hf : c'.fresh = c.fresh) (hrl : c'.recordsLen = c.recordsLen) (lru : c'.lru = c.lru) (log : c'.log = c.log) :
    Table c' := by
  obtain ⟨_, _, _, _, _, _⟩ := t
  refine ⟨?_, ?_, ?_, ?_, ?_, ?_⟩
  · rwa [hr, hf]
  · rwa [hr, hn]
  · rwa [hr, lru]
  · rwa [hr, hn, hrl]
  · rwa [hr, hn]
  · rwa [log]

/-- An empty list end means an empty table. -/
theorem lookup_of_cold_none (hn : c.lru.cold = none) (other : Addr) : c.records.lookup other = none := by
  obtain ⟨l, hl, hm⟩ := t.recency
  have nil := head?_eq_none_iff.mp (hl.cold_eq.symm.trans hn)
  cases ht : c.records.lookup other with
  | none => rfl
  | some ref =>
    have mem := (hm ref).mpr ⟨other, ht⟩
    rw [nil] at mem
    cases mem

theorem lookup_of_cold (hc : c.lru.cold = some ref) : ∃ addr, c.records.lookup addr = some ref := by
  obtain ⟨l, hl, hm⟩ := t.recency
  exact (hm ref).mp (mem_of_head? (hl.cold_eq.symm.trans hc))

end

end Table

namespace Controller

variable {c : Controller} {addr : Addr} {ref : Nat}

/-- The clamp is not reached when the count is large enough. -/
theorem decRecordsLenLocked_eq {n : Nat} (le : n ≤ c.recordsLen) :
    c.decRecordsLenLocked n = { c with recordsLen := c.recordsLen - n } := by
  unfold decRecordsLenLocked
  by_cases hz : n = 0
  · subst hz
    rfl
  · rw [if_neg hz, if_pos le]

theorem iterate_decRecordsLenLocked {n : Nat} (le : n ≤ c.recordsLen) :
    (decRecordsLenLocked 1)^[n] c = { c with recordsLen := c.recordsLen - n } := by
  induction n generalizing c with
  | zero => rfl
  | succ n ih =>
    rw [iterate_succ_apply, decRecordsLenLocked_eq (by omega : 1 ≤ c.recordsLen), ih (by simp only []; omega)]
    simp only [Nat.sub_sub, Nat.add_comm 1 n]

theorem dropHostsLocked_eq (t : Table c) (hh : c.records.lookup addr = some ref) (order : HostOrder) (p : Record → Bool) :
    c.dropHostsLocked order p ref =
      { c.setNode ref ((c.nodes ref).dropHosts order p).1 with
        recordsLen := c.recordsLen - ((c.nodes ref).dropHosts order p).2 } := by
  have ht := dropHosts_spec order p (t.valid addr ref hh)
  have total := ht.lenHosts_eq
  have le := t.lenHosts_le hh
  have he : ((c.nodes ref).dropHosts order p).2 ≤ c.recordsLen := by omega
  exact iterate_decRecordsLenLocked (c := c.setNode ref ((c.nodes ref).dropHosts order p).1) he

theorem dropHostsLocked_table (t : Table c) (hh : c.records.lookup addr = some ref) (order : HostOrder)
    (p : Record → Bool) : Table (c.dropHostsLocked order p ref) := by
  have ht := dropHosts_spec order p (t.valid addr ref hh)
  have total := ht.lenHosts_eq
  have le := t.lenHosts_le hh
  rw [dropHostsLocked_eq t hh]
  refine t.replace hh ht.valid (ht.addr_eq.trans (t.addr_eq addr ref hh)) _ ?_
  omega

/-- `evictOldestLocked` removes the coldest address with all its hosts. -/
theorem evictOldestLocked_eq (t : Table c) (hc : c.lru.cold = some ref) :
    ∃ addr, c.records.lookup addr = some ref ∧ c.evictOldestLocked =
      ({ c with
        records := c.records.erase addr, lru := c.lru.unlink ref, recordsLen := c.recordsLen - (c.nodes ref).lenHosts
        evictions := c.evictions + 1, log := c.log ++ [.evicted addr] }, true) := by
  obtain ⟨addr, hh⟩ := t.lookup_of_cold hc
  refine ⟨addr, hh, ?_⟩
  unfold evictOldestLocked
  simp only [hc, decRecordsLenLocked_eq (t.lenHosts_le hh), t.addr_eq addr ref hh]
  rfl

theorem stored_erase (c c' : Controller) (addr other : Addr) (host : String)
    (hr : c'.records = c.records.erase addr) (hn : c'.nodes = c.nodes) :
    c'.stored other host = if other = addr then none else c.stored other host := by
  unfold stored
  rw [hr, hn, lookup_erase_eq]
  split <;> rfl

end Controller

end AsterCore.KernelDirect
