import AsterCore.DirectTable

namespace AsterCore.KernelDirect

open List Option GoMap Controller AddressRecords

/-- The clock reading for the next expiry does not come after this one. -/
def Covers (next : Option Int) (expires : Int) : Prop := ∃ t, next = some t ∧ t ≤ expires

/-- What holds of the controller between the calls. -/
structure Inv (c : Controller) : Prop where
  table : Table c
  filled : ∀ addr ref, c.records.lookup addr = some ref → (c.nodes ref).lenHosts ≠ 0
  records_le : c.recordsLen ≤ c.maxRecords
  entries_le : c.records.entries.length ≤ c.maxEntries
  bounded : ∀ addr host r, c.stored addr host = some r → Covers c.nextExpiry r.expires
  sized : 0 < c.maxEntries ∧ c.maxRecords = c.maxEntries * 4

theorem covers_earlier (next : Option Int) (expires : Int) : Covers (earlier next expires) expires := by
  unfold earlier
  split
  · exact ⟨expires, rfl, le_refl _⟩
  next t =>
    split
    · exact ⟨expires, rfl, le_refl _⟩
    next later => exact ⟨t, rfl, by omega⟩

theorem Covers.earlier {next : Option Int} {expires : Int} (h : Covers next expires) (other : Int) :
    Covers (earlier next other) expires := by
  obtain ⟨t, rfl, le⟩ := h
  unfold Controller.earlier
  simp only []
  split
  · exact ⟨other, rfl, by omega⟩
  · exact ⟨t, rfl, le⟩

theorem Covers.foldl {next : Option Int} {expires : Int} (h : Covers next expires) (l : List (Σ _ : String, Record)) :
    Covers (l.foldl (fun next x => Controller.earlier next x.2.expires) next) expires := by
  induction l generalizing next with
  | nil => exact h
  | cons x _ ih => exact ih (h.earlier x.2.expires)

theorem covers_foldl (next : Option Int) {l : List (Σ _ : String, Record)} {x : Σ _ : String, Record} (mem : x ∈ l) :
    Covers (l.foldl (fun next x => earlier next x.2.expires) next) x.2.expires := by
  induction l generalizing next with
  | nil => cases mem
  | cons _ l ih =>
    rcases mem_cons.mp mem with rfl | mem
    · exact (covers_earlier next _).foldl l
    · exact ih _ mem

theorem AddressRecords.lookup_none_of_lenHosts {a : AddressRecords} (empty : a.lenHosts = 0) (host : String) :
    a.lookup host = none := by
  cases h : a.lookup host with
  | none => rfl
  | some =>
    have hp := lenHosts_pos_of_lookup h
    omega

namespace Controller

variable {c start : Controller}

/-- Only the table of addresses differs. -/
def SameFrame (start c : Controller) : Prop :=
  { c with records := start.records, nodes := start.nodes, recordsLen := start.recordsLen, lru := start.lru } = start

section Frame

variable {c' : Controller} (h : SameFrame c c')

include h

theorem SameFrame.maxEntries : c'.maxEntries = c.maxEntries := by
  rw [← h]

theorem SameFrame.maxRecords : c'.maxRecords = c.maxRecords := by
  rw [← h]

theorem SameFrame.nextExpiry : c'.nextExpiry = c.nextExpiry := by
  rw [← h]

theorem SameFrame.log : c'.log = c.log := by
  rw [← h]

end Frame

/-- The loop of `removeExpiredLocked` with the addresses of `todo` still to come. -/
structure Expiring (start : Controller) (now : Int) (todo : List (Σ _ : Addr, Nat)) (c : Controller)
    (next : Option Int) : Prop where
  table : Table c
  here : ∀ e ∈ todo, c.records.lookup e.1 = some e.2
  filled : ∀ addr ref, c.records.lookup addr = some ref → (c.nodes ref).lenHosts ≠ 0
  stored_eq : ∀ addr host, c.stored addr host =
    if addr ∈ todo.map Sigma.fst then start.stored addr host
    else (start.stored addr host).filter fun r => decide (now < r.expires)
  bounded : ∀ addr host r, addr ∉ todo.map Sigma.fst → c.stored addr host = some r → Covers next r.expires
  records_le : c.recordsLen ≤ start.recordsLen
  entries_le : c.records.entries.length ≤ start.records.entries.length
  frame : SameFrame start c

/-- The next expiry after a round covers the records the round leaves. -/
theorem nextAfter_covers {a : AddressRecords} {order : HostOrder} {expired : Record → Bool}
    (next : Option Int) {host : String} {r : Record} (hk : (a.lookup host).filter (fun r => !expired r) = some r) :
    Covers (nextAfter order expired a next) r.expires := by
  obtain ⟨ht, hf⟩ := filter_eq_some_iff.mp hk
  unfold nextAfter
  rcases lookup_eq_some ht with ⟨ho, _, rfl⟩ | ⟨extra, some, hfo⟩
  · -- the primary record stays where it is
    have hs : (a.dropHosts order expired).1.hasPrimary = true ∧ (a.dropHosts order expired).1.record = a.record := by
      have hl : expired a.record = false := by simpa using hf
      simp [dropHosts, hl, ho]
    simp only [hs.1, hs.2]
    exact covers_earlier _ _
  · have mem : (⟨host, r⟩ : Σ _ : String, Record) ∈
        (a.extra.elim [] fun extra => extra.entries.filter fun e => !expired e.2) := by
      rw [some, elim_some, mem_filter]
      exact ⟨mem_entries_iff.mpr hfo, hf⟩
    have hc := covers_foldl next mem
    simp only []
    split
    · exact hc.earlier _
    · exact hc

variable {next : Option Int} {addr : Addr} {ref : Nat} {now : Int}

theorem nextAfter_keeps {a : AddressRecords} {order : HostOrder} {expired : Record → Bool}
    {expires : Int} (h : Covers next expires) : Covers (nextAfter order expired a next) expires := by
  have hc := h.foldl (a.extra.elim [] fun extra => extra.entries.filter fun e => !expired e.2)
  unfold nextAfter
  simp only []
  split
  · exact hc.earlier _
  · exact hc

/-- What taking hosts from one address leaves of the table. -/
structure Pruned (p : Record → Bool) (addr : Addr) (c c' : Controller) : Prop where
  table : Table c'
  other : ∀ x, x ≠ addr → c'.records.lookup x = c.records.lookup x
  sub : ∀ x ref, c'.records.lookup x = some ref → c.records.lookup x = some ref
  nodes_eq : ∀ x ref, x ≠ addr → c.records.lookup x = some ref → c'.nodes ref = c.nodes ref
  stored_eq : ∀ x host, c'.stored x host =
    if x = addr then (c.stored x host).filter fun r => !p r else c.stored x host
  records_le : c'.recordsLen ≤ c.recordsLen
  entries_le : c'.records.entries.length ≤ c.records.entries.length
  frame : SameFrame c c'

theorem dropHostsLocked_pruned (t : Table c) (hh : c.records.lookup addr = some ref)
    (order : HostOrder) (p : Record → Bool) : Pruned p addr c (c.dropHostsLocked order p ref) := by
  have ht := dropHosts_spec order p (t.valid addr ref hh)
  have hta := dropHostsLocked_table t hh order p
  have eq := dropHostsLocked_eq t hh order p
  refine ⟨hta, ?_, ?_, ?_, ?_, ?_, ?_, ?_⟩ <;> rw [eq]
  · exact fun x _ => rfl
  · exact fun x ref' hth => hth
  · exact fun x ref' ne hth => t.others_eq hh _ hth ne
  · intro x host
    refine (t.stored_setNode hh _ x host).trans ?_
    split
    next hs =>
      rw [ht.lookup_eq, hs]
      unfold stored
      rw [hh, bind_some]
    · rfl
  · exact Nat.sub_le _ _
  · exact le_refl _
  · rfl

/-- An address without hosts may leave the table. -/
theorem Pruned.forget {p : Record → Bool} {c' : Controller} (h : Pruned p addr c c')
    (hh : c'.records.lookup addr = some ref) (he : (c'.nodes ref).lenHosts = 0) :
    Pruned p addr c (c'.forgetLocked addr ref) := by
  have ht := h.table.erase hh c'.recordsLen (by omega) [] not_mem_nil
  refine ⟨?_, ?_, ?_, ?_, ?_, ?_, ?_, ?_⟩
  · exact ht.frame rfl rfl rfl rfl rfl (append_nil _).symm
  · intro x ne
    refine (lookup_erase_eq c'.records addr x).trans ?_
    rw [if_neg ne, h.other x ne]
  · exact fun x ref' hth => h.sub x ref' (lookup_of_erase hth).2
  · exact h.nodes_eq
  · intro x host
    refine (stored_erase c' (c'.forgetLocked addr ref) addr x host rfl rfl).trans ?_
    rw [h.stored_eq x host]
    split
    next hs =>
      have hn : c'.stored addr host = none := by
        unfold stored
        rw [hh, bind_some, lookup_none_of_lenHosts he]
      rw [h.stored_eq addr host, if_pos rfl] at hn
      rw [hs, hn]
    · rfl
  · exact h.records_le
  · exact (length_erase_le _ _).trans h.entries_le
  · exact h.frame

theorem pruneLocked_spec (t : Table c) (hh : c.records.lookup addr = some ref) (order : HostOrder) (p : Record → Bool) :
    Pruned p addr c (c.pruneLocked order p addr ref) ∧
      ∀ ref', (c.pruneLocked order p addr ref).records.lookup addr = some ref' →
        ((c.pruneLocked order p addr ref).nodes ref').lenHosts ≠ 0 := by
  have hp := dropHostsLocked_pruned t hh order p
  have hs : (c.dropHostsLocked order p ref).records.lookup addr = some ref := by
    rw [dropHostsLocked_eq t hh]
    exact hh
  unfold pruneLocked
  simp only []
  split
  next he =>
    refine ⟨hp.forget hs (isEmpty_iff.mp he), ?_⟩
    intro _ ht
    exact absurd rfl (lookup_of_erase ht).1
  next some =>
    refine ⟨hp, ?_⟩
    intro _ ht
    rw [← Option.some.inj (hs.symm.trans ht)]
    exact fun hz => some (isEmpty_iff.mpr hz)

theorem Expiring.step {e : Σ _ : Addr, Nat} {todo : List (Σ _ : Addr, Nat)}
    (h : Expiring start now (e :: todo) c next) (hd : e.1 ∉ todo.map Sigma.fst) (orders : Orders) (changed : Bool) :
    Expiring start now todo (expireAddress orders now (c, next, changed) e).1
      (expireAddress orders now (c, next, changed) e).2.1 := by
  obtain ⟨hta, hh, hf, hs_eq, hb, hr_le, he_le, hfr⟩ := h
  have at_e := hh e mem_cons_self
  obtain ⟨hp, hn⟩ := pruneLocked_spec hta at_e (orders.address e.1) fun r => !decide (now < r.expires)
  have hs_e : ∀ host, c.stored e.1 host = (c.nodes e.2).lookup host := by
    intro _
    unfold stored
    rw [at_e, bind_some]
  show Expiring start now todo (c.pruneLocked _ _ e.1 e.2) (nextAfter _ _ (c.nodes e.2) next)
  refine ⟨hp.table, ?_, ?_, ?_, ?_, hp.records_le.trans hr_le, hp.entries_le.trans he_le, ?_⟩
  · intro x mem
    have ne : x.1 ≠ e.1 := fun hs => hd (hs ▸ mem_map_of_mem mem)
    rw [hp.other x.1 ne]
    exact hh x (mem_cons_of_mem e mem)
  · intro addr ref ht
    by_cases hs : addr = e.1
    · subst hs
      exact hn ref ht
    · have old := hp.sub addr ref ht
      rw [hp.nodes_eq addr ref hs old]
      exact hf addr ref old
  · intro addr _
    rw [hp.stored_eq, hs_eq]
    by_cases hs : addr = e.1
    · subst hs
      simp [hd]
    · have hk : addr ∈ (e :: todo).map Sigma.fst ↔ addr ∈ todo.map Sigma.fst := by
        rw [map_cons, mem_cons, or_iff_right hs]
      simp only [if_neg hs, hk]
  · intro addr host r done ht
    rw [hp.stored_eq] at ht
    by_cases hs : addr = e.1
    · subst hs
      rw [if_pos rfl, hs_e] at ht
      exact nextAfter_covers next ht
    · rw [if_neg hs] at ht
      refine nextAfter_keeps (hb addr host r ?_ ht)
      rw [map_cons, mem_cons, not_or]
      exact ⟨hs, done⟩
  · have step := hp.frame
    unfold SameFrame at step hfr ⊢
    rw [← hfr]
    conv_rhs => rw [← step]

theorem Expiring.loop {todo : List (Σ _ : Addr, Nat)} (changed : Bool)
    (h : Expiring start now todo c next) (hn : todo.NodupKeys) (orders : Orders) :
    Expiring start now [] (todo.foldl (expireAddress orders now) (c, next, changed)).1
      (todo.foldl (expireAddress orders now) (c, next, changed)).2.1 := by
  induction todo generalizing c next changed with
  | nil => exact h
  | cons _ _ ih =>
    obtain ⟨hd, hr⟩ := nodupKeys_cons.mp hn
    exact ih _ (h.step hd orders changed) hr

/-- What `removeExpiredLocked` does: every record that has expired is gone, and no other. -/
structure Expired (now : Int) (c c' : Controller) : Prop where
  inv : Inv c'
  stored_eq : ∀ addr host, c'.stored addr host = (c.stored addr host).filter fun r => decide (now < r.expires)
  records_le : c'.recordsLen ≤ c.recordsLen
  frame : SameFrame { c with nextExpiry := c'.nextExpiry } c'

/-- The early return leaves no expired record behind. -/
theorem stored_filter_of_covers {t : Int} (inv : Inv c) (next : c.nextExpiry = some t) (early : now < t)
    (addr : Addr) (host : String) : (c.stored addr host).filter (fun r => decide (now < r.expires)) = c.stored addr host := by
  cases ht : c.stored addr host with
  | none => rfl
  | some r =>
    obtain ⟨_, hs, _⟩ := inv.bounded addr host r ht
    rw [next] at hs
    have hs := some.inj hs
    have hl : now < r.expires := by omega
    simp [hl]

theorem removeExpiredLocked_spec (inv : Inv c) (orders : Orders) (now : Int) :
    Expired now c (c.removeExpiredLocked orders now).1 := by
  unfold removeExpiredLocked
  split
  next empty =>
    have none : ∀ addr, c.records.lookup addr = none := by
      intro _
      have nil : c.records = ∅ := AList.ext (length_eq_zero_iff.mp empty)
      rw [nil]
      rfl
    have hs : ∀ addr host, c.stored addr host = Option.none := by
      intro addr _
      unfold stored
      rw [none addr]
      rfl
    refine ⟨⟨inv.table.frame rfl rfl rfl rfl rfl rfl, inv.filled, inv.records_le, inv.entries_le, ?_, inv.sized⟩, ?_,
      le_refl _, rfl⟩
    · intro addr host r ht
      exact absurd (ht.symm.trans (hs addr host)) (by simp)
    · intro addr host
      rw [hs addr host]
      exact hs addr host
  · split
    next early =>
      obtain ⟨t, next, before⟩ : ∃ t, c.nextExpiry = some t ∧ now < t := by
        cases next : c.nextExpiry with
        | none => simp [next] at early
        | some t => exact ⟨t, rfl, by simpa [next] using early⟩
      exact ⟨inv, fun addr host => (stored_filter_of_covers inv next before addr host).symm, le_refl _, rfl⟩
    · have ha : ∀ addr host, addr ∉ c.records.entries.map Sigma.fst → c.stored addr host = none := by
        intro addr _ ha
        unfold stored
        cases ht : c.records.lookup addr with
        | none => rfl
        | some => exact absurd (mem_map_of_mem (mem_entries_iff.mpr ht)) ha
      have begin : Expiring c now c.records.entries c none := by
        refine ⟨inv.table, fun e mem => mem_entries_iff.mp mem, inv.filled, ?_, ?_, le_refl _, le_refl _, rfl⟩
        · intro addr host
          split
          · rfl
          next ho =>
            rw [ha addr host ho]
            rfl
        · intro addr host r ho ht
          rw [ha addr host ho] at ht
          cases ht
      have done := begin.loop false c.records.nodupKeys orders
      generalize c.records.entries.foldl (expireAddress orders now) (c, none, false) = result at done
      obtain ⟨c', _, _⟩ := result
      obtain ⟨table, _, filled, hs_eq, hb, hr_le, he_le, hf⟩ := done
      refine ⟨⟨table.frame rfl rfl rfl rfl rfl rfl, filled, ?_, ?_, ?_, ?_⟩, ?_, hr_le, ?_⟩
      · show c'.recordsLen ≤ c'.maxRecords
        rw [hf.maxRecords]
        exact hr_le.trans inv.records_le
      · show c'.records.entries.length ≤ c'.maxEntries
        rw [hf.maxEntries]
        exact he_le.trans inv.entries_le
      · exact fun addr host r ht => hb addr host r not_mem_nil ht
      · show 0 < c'.maxEntries ∧ c'.maxRecords = c'.maxEntries * 4
        rw [hf.maxEntries, hf.maxRecords]
        exact inv.sized
      · intro addr host
        refine (hs_eq addr host).trans ?_
        rw [map_nil, if_neg not_mem_nil]
      · unfold SameFrame at hf ⊢
        rw [← hf]

end Controller

end AsterCore.KernelDirect
