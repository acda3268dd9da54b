import AsterCore.DirectExpiry

namespace AsterCore.KernelDirect

open List Option Function GoMap AddressRecords Controller

/-- The records of one address by host. -/
abbrev Hosts := String → Option Record

/-- The hosts that were classified PROXY. -/
def Hosts.proxies (hosts : Hosts) : Hosts := fun host => (hosts host).filter fun r => !r.direct

/-- What one answer may do to the hosts of its address; `full` says that the table of records was full. -/
inductive Insertion (full : Prop) (hosts : Hosts) (host : String) (new : Record) : Hosts → Prop
  | put : Insertion full hosts host new (Function.update hosts host (some new))
  | keep : full → new.direct = true → hosts host = none → Insertion full hosts host new hosts
  | putProxy : full → new.direct = false → hosts host = none →
      Insertion full hosts host new (Function.update hosts.proxies host (some new))
  | swap (old : String) (r : Record) : full → new.direct = false → hosts host = none → hosts.proxies old = some r →
      r.expires ≤ new.expires →
      Insertion full hosts host new (Function.update (Function.update hosts.proxies old none) host (some new))
  | refuse (old : String) (r : Record) : full → new.direct = false → hosts host = none → hosts.proxies old = some r →
      new.expires < r.expires → Insertion full hosts host new hosts.proxies

/-- The fields that no change of the table touches. -/
structure Fixed (c c' : Controller) : Prop where
  maxEntries : c'.maxEntries = c.maxEntries
  maxRecords : c'.maxRecords = c.maxRecords
  lastDirect : c'.lastDirect = c.lastDirect
  lastProxy : c'.lastProxy = c.lastProxy
  generation : c'.generation = c.generation
  flushSeq : c'.flushSeq = c.flushSeq
  closed : c'.closed = c.closed

theorem Fixed.refl (c : Controller) : Fixed c c := ⟨rfl, rfl, rfl, rfl, rfl, rfl, rfl⟩

theorem Fixed.trans {a b c : Controller} (h : Fixed a b) (k : Fixed b c) : Fixed a c :=
  ⟨k.1.trans h.1, k.2.trans h.2, k.3.trans h.3, k.4.trans h.4, k.5.trans h.5, k.6.trans h.6, k.7.trans h.7⟩

theorem Controller.SameFrame.fixed {c c' : Controller} (h : SameFrame c c') : Fixed c c' := by
  refine ⟨?_, ?_, ?_, ?_, ?_, ?_, ?_⟩ <;> rw [← h]

/-- The other addresses keep their records or are evicted, and the log says so. -/
structure Kept (gain : Nat) (addr : Addr) (c c' : Controller) : Prop where
  fixed : Fixed c c'
  records_le : c'.recordsLen ≤ c.recordsLen + gain
  others : ∀ x, x ≠ addr → c'.stored x = c.stored x ∨ (Mark.evicted x ∈ c'.log ∧ c'.stored x = fun _ => none)
  log : ∀ mark ∈ c.log, mark ∈ c'.log

theorem Kept.refl (addr : Addr) (c : Controller) : Kept 0 addr c c :=
  ⟨.refl c, le_refl _, fun _ _ => .inl rfl, fun _ mem => mem⟩

theorem Kept.weaken {gain : Nat} {addr : Addr} {c c' : Controller} (h : Kept 0 addr c c') : Kept gain addr c c' :=
  ⟨h.fixed, h.records_le.trans (Nat.add_le_add_left (Nat.zero_le gain) _), h.others, h.log⟩

theorem Kept.trans {gain : Nat} {addr : Addr} {a b c : Controller} (h : Kept 0 addr a b) (k : Kept gain addr b c) :
    Kept gain addr a c := by
  refine ⟨h.fixed.trans k.fixed, ?_, ?_, fun mark mem => k.log mark (h.log mark mem)⟩
  · have first := h.records_le
    have hs := k.records_le
    omega
  intro x ne
  rcases k.others x ne with same | hg
  · rcases h.others x ne with hb | ⟨hg, he⟩
    · exact .inl (same.trans hb)
    · exact .inr ⟨k.log _ hg, same.trans he⟩
  · exact .inr hg

namespace Controller

variable {c : Controller}

/-- What one eviction does. -/
structure Evicted (victim : Addr) (c c' : Controller) : Prop where
  inv : Inv c'
  fixed : Fixed c c'
  lookup_eq : ∀ x, c'.records.lookup x = if x = victim then none else c.records.lookup x
  stored_eq : ∀ x, c'.stored x = if x = victim then fun _ => none else c.stored x
  log_eq : c'.log = c.log ++ [.evicted victim]
  records_lt : c'.recordsLen < c.recordsLen
  entries_lt : c'.records.entries.length < c.records.entries.length

variable {addr : Addr} {ref : Nat} {c' : Controller} {host : String} {item : Classified}

theorem evictOldestLocked_spec (inv : Inv c) (some : c.records.lookup addr = some ref) :
    ∃ victim ref' c', c.records.lookup victim = Option.some ref' ∧ c.evictOldestLocked = (c', true) ∧ Evicted victim c c' := by
  cases hc : c.lru.cold with
  | none =>
    rw [inv.table.lookup_of_cold_none hc addr] at some
    cases some
  | some ref' =>
    obtain ⟨victim, ht, eq⟩ := evictOldestLocked_eq inv.table hc
    have le := inv.table.lenHosts_le ht
    have hp := inv.filled victim ref' ht
    have hl := length_erase_of_lookup ht
    have hta := inv.table.erase ht (c.recordsLen - (c.nodes ref').lenHosts) (by omega) [.evicted victim] (by simp)
    have hs := fun x host => stored_erase c c.evictOldestLocked.1 victim x host (by rw [eq]) (by rw [eq])
    rw [eq] at hs
    refine ⟨victim, ref', _, ht, eq, ?_⟩
    refine ⟨⟨hta.frame rfl rfl rfl rfl rfl rfl, ?_, ?_, ?_, ?_, inv.sized⟩, ⟨rfl, rfl, rfl, rfl, rfl, rfl, rfl⟩,
      lookup_erase_eq c.records victim, ?_, rfl, ?_, ?_⟩
    · exact fun x ref ht => inv.filled x ref (lookup_of_erase ht).2
    · exact (Nat.sub_le _ _).trans inv.records_le
    · exact (length_erase_le _ _).trans inv.entries_le
    · intro x host r ht
      rw [hs] at ht
      split at ht
      · cases ht
      · exact inv.bounded x host r ht
    · intro x
      funext host
      rw [hs]
      split <;> rfl
    · show c.recordsLen - (c.nodes ref').lenHosts < c.recordsLen
      omega
    · show (c.records.erase victim).entries.length < c.records.entries.length
      omega

theorem Evicted.kept {victim : Addr} (h : Evicted victim c c') : Kept 0 addr c c' := by
  refine ⟨h.fixed, h.records_lt.le, ?_, ?_⟩
  · intro x _
    by_cases hs : x = victim
    · refine .inr ⟨?_, ?_⟩
      · rw [h.log_eq, hs]
        exact mem_append_right _ (mem_singleton_self _)
      · rw [h.stored_eq, if_pos hs]
    · refine .inl ?_
      rw [h.stored_eq, if_neg hs]
  · intro _ mem
    rw [h.log_eq]
    exact mem_append_left _ mem

/-- An address that is stored, or just made, and may take a record of `host`. -/
structure Ready (addr : Addr) (ref : Nat) (host : String) (c : Controller) : Prop where
  table : Table (c.touchLocked ref)
  here : c.records.lookup addr = some ref
  filled : ∀ x ref', x ≠ addr → c.records.lookup x = some ref' → (c.nodes ref').lenHosts ≠ 0
  room : ((c.nodes ref).lookup host).isSome ∨ c.recordsLen < c.maxRecords
  records_le : c.recordsLen ≤ c.maxRecords
  entries_le : c.records.entries.length ≤ c.maxEntries
  bounded : ∀ x other r, c.stored x other = some r → Covers c.nextExpiry r.expires
  sized : 0 < c.maxEntries ∧ c.maxRecords = c.maxEntries * 4

theorem ready_of_lookup (inv : Inv c) (hh : c.records.lookup addr = some ref)
    (hr : ((c.nodes ref).lookup host).isSome ∨ c.recordsLen < c.maxRecords) : Ready addr ref host c :=
  ⟨inv.table.touch hh, hh, fun x ref' _ => inv.filled x ref', hr, inv.records_le, inv.entries_le, inv.bounded,
    inv.sized⟩

/-- The record is written and the invariant holds again. -/
theorem recordLocked_spec (item : Classified) (hr : Ready addr ref host c) :
    Inv (c.recordLocked host item ref).1 ∧ Kept 1 addr c (c.recordLocked host item ref).1 ∧
      (∀ x, x ≠ addr → (c.recordLocked host item ref).1.stored x = c.stored x) ∧
      (c.recordLocked host item ref).1.stored addr =
        Function.update (c.stored addr) host (some ⟨item.direct, item.expires, item.call⟩) := by
  obtain ⟨hta, hh, hf, room, hr_le, he_le, hb, hsi⟩ := hr
  let new : Record := ⟨item.direct, item.expires, item.call⟩
  have hv : (c.nodes ref).Valid := hta.valid addr ref hh
  have hl := lenHosts_upsert (a := c.nodes ref) host new
  have prev := upsert_prev (a := c.nodes ref) host new
  have hs : ∀ x other, (c.recordLocked host item ref).1.stored x other =
      if x = addr then (if other = host then some new else c.stored addr other) else c.stored x other := by
    intro x other
    refine (hta.stored_setNode hh ((c.nodes ref).upsert host new).1 x other).trans ?_
    split
    · have old : c.stored addr other = (c.nodes ref).lookup other := by
        unfold stored
        rw [hh, bind_some]
      rw [lookup_upsert host new hv, old]
    · rfl
  have hto : (if ((c.nodes ref).upsert host new).2.isSome then c.recordsLen else c.recordsLen + 1) +
      (c.nodes ref).lenHosts = c.recordsLen + ((c.nodes ref).upsert host new).1.lenHosts := by
    rw [hl, prev]
    split <;> omega
  have hn : ((c.nodes ref).upsert host new).1.addr = addr := by
    rw [upsert_addr]
    exact hta.addr_eq addr ref hh
  have ht' := hta.replace hh (valid_upsert host new hv) hn _ hto
  have ho : ∀ x, x ≠ addr → (c.recordLocked host item ref).1.stored x = c.stored x := by
    intro x ne
    funext other
    rw [hs, if_neg ne]
  refine ⟨⟨ht'.frame rfl rfl rfl rfl rfl rfl, ?_, ?_, he_le, ?_, hsi⟩, ⟨⟨rfl, rfl, rfl, rfl, rfl, rfl, rfl⟩, ?_,
    fun x ne => .inl (ho x ne), fun _ mem => mem⟩, ho, ?_⟩
  · intro x ref' ht
    by_cases same : x = addr
    · have at_ref : ref' = ref := by
        subst same
        exact some.inj (ht.symm.trans hh)
      have hfo : ((c.nodes ref).upsert host new).1.lookup host = some new := by
        rw [lookup_upsert host new hv, if_pos rfl]
      have hp := lenHosts_pos_of_lookup hfo
      have hw : (c.recordLocked host item ref).1.nodes ref' = ((c.nodes ref).upsert host new).1 := by
        rw [at_ref]
        exact update_self _ _ _
      rw [hw]
      omega
    · have hk : (c.recordLocked host item ref).1.nodes ref' = c.nodes ref' := hta.others_eq hh _ ht same
      rw [hk]
      exact hf x ref' same ht
  · show (if ((c.nodes ref).upsert host new).2.isSome then c.recordsLen else c.recordsLen + 1) ≤ c.maxRecords
    rw [prev]
    split
    · exact hr_le
    next ha => exact (room.resolve_left ha)
  · intro x other r ht
    rw [hs] at ht
    split at ht
    · split at ht
      · rw [← some.inj ht]
        exact covers_earlier _ _
      · exact (hb addr other r ht).earlier _
    · exact (hb x other r ht).earlier _
  · show (if ((c.nodes ref).upsert host new).2.isSome then c.recordsLen else c.recordsLen + 1) ≤ c.recordsLen + 1
    split <;> omega
  · funext other
    rw [hs, if_pos rfl, update_apply]

/-- Making a new address while there is an entry and a record to spare. -/
theorem newAddressLocked_spec (inv : Inv c) (host : String) (ha : c.records.lookup addr = none)
    (hr : c.recordsLen < c.maxRecords) (hs : c.records.entries.length < c.maxEntries) :
    Ready addr c.fresh host (c.newAddressLocked addr) ∧ Kept 0 addr c (c.newAddressLocked addr) ∧
      (c.newAddressLocked addr).stored addr = fun _ => none := by
  have hl : ∀ x, (c.newAddressLocked addr).records.lookup x = if x = addr then some c.fresh else c.records.lookup x :=
    fun x => lookup_insert_eq _ _ _ _
  have hn : ∀ x ref', c.records.lookup x = some ref' → (c.newAddressLocked addr).nodes ref' = c.nodes ref' := by
    intro x ref' ht
    have below := inv.table.pointers.allocated x ref' ht
    exact update_of_ne (by omega) _ _
  have ho : ∀ x, x ≠ addr → (c.newAddressLocked addr).stored x = c.stored x := by
    intro x ne
    funext host
    unfold stored
    rw [hl, if_neg ne]
    cases ht : c.records.lookup x with
    | none => rfl
    | some ref' => rw [bind_some, bind_some, hn x ref' ht]
  have he : (c.newAddressLocked addr).stored addr = fun _ => none := by
    funext host
    unfold stored
    rw [hl, if_pos rfl]
    show lookup (update c.nodes c.fresh { addr := addr } c.fresh) host = none
    rw [update_self]
    rfl
  refine ⟨⟨inv.table.newAddress ha, ?_, ?_, .inr hr, inv.records_le, ?_, ?_, inv.sized⟩,
    ⟨⟨rfl, rfl, rfl, rfl, rfl, rfl, rfl⟩, le_refl _, fun x ne => .inl (ho x ne), fun _ mem => mem⟩, he⟩
  · rw [hl, if_pos rfl]
  · intro x ref' ne ht
    rw [hl, if_neg ne] at ht
    rw [hn x ref' ht]
    exact inv.filled x ref' ht
  · have hle := length_insert_eq c.records addr c.fresh
    rw [ha] at hle
    show (c.records.insert addr c.fresh).entries.length ≤ c.maxEntries
    rw [hle]
    exact hs
  · intro x other r ht
    by_cases same : x = addr
    · rw [same, he] at ht
      cases ht
    · rw [ho x same] at ht
      exact inv.bounded x other r ht

/-- The address of an answer after the capacity branch: recording the answer there is one of the insertions, starting from the
hosts before. -/
structure Opened (full : Prop) (host : String) (item : Classified) (c c' : Controller) (ref : Nat) : Prop where
  ready : Ready item.addr ref host c'
  kept : Kept 0 item.addr c c'
  insertion : Insertion full (c.stored item.addr) host ⟨item.direct, item.expires, item.call⟩
    (Function.update (c'.stored item.addr) host (some ⟨item.direct, item.expires, item.call⟩))

/-- The capacity branch leaves the address absent, and a record to spare. -/
structure Vacant (full : Prop) (host : String) (item : Classified) (c c' : Controller) : Prop where
  inv : Inv c'
  kept : Kept 0 item.addr c c'
  absent : c'.records.lookup item.addr = none
  room : c'.recordsLen < c'.maxRecords
  insertion : Insertion full (c.stored item.addr) host ⟨item.direct, item.expires, item.call⟩
    (Function.update (fun _ => none) host (some ⟨item.direct, item.expires, item.call⟩))

/-- An answer that is not recorded. -/
structure Skipped (full : Prop) (host : String) (item : Classified) (c c' : Controller) : Prop where
  inv : Inv c'
  kept : Kept 0 item.addr c c'
  insertion : Insertion full (c.stored item.addr) host ⟨item.direct, item.expires, item.call⟩ (c'.stored item.addr)

/-- The three ways out of the capacity branch. -/
def RoomSpec (full : Prop) (host : String) (item : Classified) (c c' : Controller) : Room → Prop
  | .skip => Skipped full host item c c'
  | .use none => Vacant full host item c c'
  | .use (some ref) => Opened full host item c c' ref

theorem stored_of_absent (ha : c.records.lookup addr = none) : c.stored addr = fun _ => none := by
  unfold stored
  rw [ha]
  rfl

theorem openAddressLocked_spec {full : Prop} {start : Controller} (hv : Vacant full host item start c) :
    ∃ c' dirty ref, c.openAddressLocked item.addr none = (c', dirty, some ref) ∧ Opened full host item start c' ref := by
  obtain ⟨inv, hk, ha, room, hi⟩ := hv
  unfold openAddressLocked
  simp only []
  split
  next hs =>
    obtain ⟨hr, hk', hem⟩ := newAddressLocked_spec inv host ha room hs
    refine ⟨_, _, _, rfl, hr, hk.trans hk', ?_⟩
    rw [hem]
    exact hi
  next hc =>
    have hey : ∃ x ref, c.records.lookup x = some ref := by
      cases hen : c.records.entries with
      | nil =>
        have hsi := inv.sized.1
        rw [hen] at hc
        exact absurd hsi hc
      | cons e => exact ⟨e.1, e.2, mem_entries_iff.mp (hen ▸ mem_cons_self)⟩
    obtain ⟨x, _, ht⟩ := hey
    obtain ⟨_, _, c₁, _, eq, he⟩ := evictOldestLocked_spec inv ht
    have he_le := inv.entries_le
    have he_lt := he.entries_lt
    have hr_lt := he.records_lt
    have ha₁ : c₁.records.lookup item.addr = none := by
      rw [he.lookup_eq]
      split
      · rfl
      · exact ha
    have hs : c₁.records.entries.length < c₁.maxEntries := by
      rw [he.fixed.maxEntries]
      omega
    have hr₁ : c₁.recordsLen < c₁.maxRecords := by
      rw [he.fixed.maxRecords]
      omega
    obtain ⟨hr, hk', hem⟩ := newAddressLocked_spec he.inv host ha₁ hr₁ hs
    rw [eq]
    simp only [not_le.mpr hs]
    refine ⟨_, _, _, rfl, hr, (hk.trans he.kept).trans hk', ?_⟩
    rw [hem]
    exact hi

theorem evictForRecordLocked_spec {full : Prop} {start : Controller} (dirty : Bool)
    (inv : Inv c) (hk : Kept 0 item.addr start c) (ha : c.records.lookup item.addr = none)
    (hi : Insertion full (start.stored item.addr) host ⟨item.direct, item.expires, item.call⟩
      (Function.update (fun _ => none) host (some ⟨item.direct, item.expires, item.call⟩))) :
    RoomSpec full host item start (c.evictForRecordLocked dirty).1 (c.evictForRecordLocked dirty).2.2 := by
  unfold evictForRecordLocked
  split
  next hr => exact ⟨inv, hk, ha, hr, hi⟩
  next hc =>
    have hey : ∃ x ref, c.records.lookup x = some ref := by
      cases hen : c.records.entries with
      | nil =>
        have hl := inv.table.length_eq
        have sized := inv.sized
        rw [sumBy, hen, map_nil, sum_nil] at hl
        omega
      | cons e => exact ⟨e.1, e.2, mem_entries_iff.mp (hen ▸ mem_cons_self)⟩
    obtain ⟨x, _, ht⟩ := hey
    obtain ⟨_, _, c₁, _, eq, he⟩ := evictOldestLocked_spec inv ht
    have hr_le := inv.records_le
    have hr_lt := he.records_lt
    rw [eq]
    refine ⟨he.inv, hk.trans he.kept, ?_, ?_, hi⟩
    · rw [he.lookup_eq]
      split
      · rfl
      · exact ha
    · show c₁.recordsLen < c₁.maxRecords
      rw [he.fixed.maxRecords]
      omega

theorem Pruned.inv {p : Record → Bool} (inv : Inv c) (h : Pruned p addr c c')
    (hf : ∀ ref, c'.records.lookup addr = some ref → (c'.nodes ref).lenHosts ≠ 0) : Inv c' := by
  refine ⟨h.table, ?_, ?_, ?_, ?_, ?_⟩
  · intro x ref ht
    by_cases hs : x = addr
    · subst hs
      exact hf ref ht
    · rw [h.nodes_eq x ref hs (h.sub x ref ht)]
      exact inv.filled x ref (h.sub x ref ht)
  · rw [h.frame.maxRecords]
    exact h.records_le.trans inv.records_le
  · rw [h.frame.maxEntries]
    exact h.entries_le.trans inv.entries_le
  · intro x host r ht
    rw [h.frame.nextExpiry]
    rw [h.stored_eq] at ht
    split at ht
    · exact inv.bounded x host r (filter_eq_some_iff.mp ht).1
    · exact inv.bounded x host r ht
  · rw [h.frame.maxEntries, h.frame.maxRecords]
    exact inv.sized

theorem Pruned.kept {p : Record → Bool} (h : Pruned p addr c c') : Kept 0 addr c c' := by
  refine ⟨h.frame.fixed, h.records_le, ?_, ?_⟩
  · intro x ne
    refine .inl (funext fun host => ?_)
    rw [h.stored_eq, if_neg ne]
  · rw [h.frame.log]
    exact fun _ mem => mem

/-- The host found is one of those visited. -/
theorem oldestHost_mem {l : List (Σ _ : String, Record)} {expires : Int}
    (h : oldestHost l = some (host, expires)) : ∃ r : Record, r.expires = expires ∧ ⟨host, r⟩ ∈ l := by
  have loop : ∀ (l : List (Σ _ : String, Record)) (found : Option (String × Int)),
      l.foldl olderHost found = some (host, expires) →
        found = some (host, expires) ∨ ∃ r : Record, r.expires = expires ∧ ⟨host, r⟩ ∈ l := by
    intro l
    induction l with
    | nil => exact fun found h => .inl h
    | cons e _ ih =>
      intro found h
      rcases ih _ h with hl | ⟨r, hs, mem⟩
      · have step : olderHost found e = some (e.1, e.2.expires) ∨ olderHost found e = found := by
          unfold olderHost
          cases found with
          | none => exact .inl rfl
          | some =>
            simp only []
            split
            · exact .inl rfl
            · exact .inr rfl
        rcases step with new | old
        · obtain ⟨rfl, rfl⟩ := Prod.mk.inj (some.inj (new.symm.trans hl))
          exact .inr ⟨e.2, rfl, mem_cons_self⟩
        · exact .inl (old.symm.trans hl)
      · exact .inr ⟨r, hs, mem_cons_of_mem e mem⟩
  exact (loop l none h).resolve_left (by simp)

theorem oldestHost_ne_none {l : List (Σ _ : String, Record)} (some : l ≠ []) : oldestHost l ≠ none := by
  have hs : ∀ found e, olderHost found e ≠ none := by
    intro found e
    unfold olderHost
    cases found with
    | none => simp
    | some =>
      simp only []
      split <;> simp
  have hl : ∀ (l : List (Σ _ : String, Record)) (found : Option (String × Int)), found ≠ none →
      l.foldl olderHost found ≠ none := by
    intro l
    induction l with
    | nil => exact fun _ h => h
    | cons e _ ih => exact fun found _ => ih _ (hs found e)
  cases l with
  | nil => exact absurd rfl some
  | cons e l => exact hl l _ (hs none e)

theorem forEach_ne_nil {a : AddressRecords} (hv : a.Valid) (order : HostOrder) (hs : a.lenHosts ≠ 0) :
    a.forEach order ≠ [] := by
  cases ho : a.hasPrimary with
  | true => simp [forEach, ho]
  | false => simp [lenHosts, hv.extra_none ho, ho] at hs

/-- What taking the oldest host away does; the reason not to is a record that lives longer. -/
theorem dropOldestHostLocked_spec (inv : Inv c) (hh : c.records.lookup addr = some ref)
    (orders : ItemOrders) (incoming : Int) : (∃ host r, c.stored addr host = some r ∧ incoming < r.expires ∧
        c.dropOldestHostLocked orders ref incoming = (c, false)) ∨
      ∃ host r a, c.stored addr host = some r ∧ r.expires ≤ incoming ∧
        AddressRecords.Trimmed (c.nodes ref) a (fun other _ => other != host) 1 ∧
        c.dropOldestHostLocked orders ref incoming = ({ c.setNode ref a with recordsLen := c.recordsLen - 1 }, true) := by
  have hv := inv.table.valid addr ref hh
  have hs : ∀ host, c.stored addr host = (c.nodes ref).lookup host := by
    intro _
    unfold stored
    rw [hh, bind_some]
  unfold dropOldestHostLocked
  split
  next hn => exact absurd hn (oldestHost_ne_none (forEach_ne_nil hv _ (inv.filled addr ref hh)))
  next host _ hf =>
    obtain ⟨r, rfl, mem⟩ := oldestHost_mem hf
    have hth := (mem_forEach _ hv).mp mem
    split
    next hl => exact .inl ⟨host, r, (hs host).trans hth, hl, rfl⟩
    next hsh =>
      obtain ⟨hr, ht⟩ := remove_present orders.promote hv hth
      have le := inv.table.lenHosts_le hh
      have total := ht.lenHosts_eq
      refine .inr ⟨host, r, _, (hs host).trans hth, by omega, ht, ?_⟩
      split
      next a eq =>
        rw [eq]
        have he : 1 ≤ (c.setNode ref a).recordsLen := by
          show 1 ≤ c.recordsLen
          omega
        rw [decRecordsLenLocked_eq he]
        rfl
      next eq =>
        rw [eq] at hr
        cases hr

theorem stored_of_lookup (hh : c.records.lookup addr = some ref) : c.stored addr = (c.nodes ref).lookup := by
  funext host
  unfold stored
  rw [hh, bind_some]

theorem makeProxyRoomLocked_spec (inv : Inv c) (here : c.records.lookup item.addr = some ref)
    (full : c.maxRecords ≤ c.recordsLen) (hpr : item.direct = false)
    (ha : c.stored item.addr host = none) (orders : ItemOrders) :
    RoomSpec (c.maxRecords ≤ c.recordsLen) host item c (c.makeProxyRoomLocked orders ref item).1
      (c.makeProxyRoomLocked orders ref item).2.2 := by
  have hp := dropHostsLocked_pruned inv.table here orders.direct fun r => r.direct
  have hst : (c.dropHostsLocked orders.direct (fun r => r.direct) ref).records.lookup item.addr = some ref := by
    rw [dropHostsLocked_eq inv.table here]
    exact here
  unfold makeProxyRoomLocked dropDirectHostsLocked
  generalize c.dropHostsLocked orders.direct (fun r => r.direct) ref = c₁ at hp hst
  have hps : c₁.stored item.addr = Hosts.proxies (c.stored item.addr) := by
    funext other
    rw [hp.stored_eq, if_pos rfl]
    rfl
  simp only []
  split
  next empty =>
    -- every host was DIRECT: the address goes and is made again
    have gone := hp.forget hst (isEmpty_iff.mp empty)
    have ha₁ : (c₁.forgetLocked item.addr ref).records.lookup item.addr = none := AList.lookup_erase _ _
    refine evictForRecordLocked_spec _ (gone.inv inv ?_) gone.kept ha₁ ?_
    · intro _ hth
      rw [ha₁] at hth
      cases hth
    · have none : Hosts.proxies (c.stored item.addr) = fun _ => none := by
        rw [← stored_of_absent ha₁]
        funext other
        rw [gone.stored_eq, if_pos rfl]
        rfl
      rw [← none]
      exact .putProxy full hpr ha
  next some =>
    have filled : ∀ ref', c₁.records.lookup item.addr = Option.some ref' → (c₁.nodes ref').lenHosts ≠ 0 := by
      intro _ hth
      rw [← Option.some.inj (hst.symm.trans hth)]
      exact fun zero => some (isEmpty_iff.mpr zero)
    have inv₁ := hp.inv inv filled
    split
    next room =>
      refine ⟨ready_of_lookup inv₁ hst (.inr room), hp.kept, ?_⟩
      rw [hps]
      exact .putProxy full hpr ha
    · rcases dropOldestHostLocked_spec inv₁ hst orders item.expires with
        ⟨old, r, hth, hl, eq⟩ | ⟨old, r, a, hth, hsh, ht, eq⟩
      · rw [eq]
        refine ⟨inv₁, hp.kept, ?_⟩
        rw [hps] at hth ⊢
        exact .refuse old r full hpr ha hth hl
      · -- the oldest host makes room, and the address may be empty until the record is written
        rw [eq]
        have le := inv₁.table.lenHosts_le hst
        have total := ht.lenHosts_eq
        have records_le := inv₁.records_le
        have node := ht.addr_eq.trans (inv₁.table.addr_eq item.addr ref hst)
        have table := inv₁.table.replace hst ht.valid node (c₁.recordsLen - 1) (by omega)
        have hs := inv₁.table.stored_setNode hst a
        have hs_here : ∀ other, (c₁.setNode ref a).stored item.addr other =
            if other = old then none else c₁.stored item.addr other := by
          intro other
          rw [hs, if_pos rfl, ht.lookup_eq, stored_of_lookup hst]
          by_cases same : other = old
          · simp [same]
          · cases (c₁.nodes ref).lookup other <;> simp [Option.filter]
        refine ⟨⟨table.touch hst, hst, ?_, .inr ?_, ?_, inv₁.entries_le, ?_, inv₁.sized⟩, hp.kept.trans ⟨?_, ?_, ?_, ?_⟩, ?_⟩
        · intro x ref' ne hth
          have kept := inv₁.table.others_eq hst a hth ne
          show (update c₁.nodes ref a ref').lenHosts ≠ 0
          rw [kept]
          exact inv₁.filled x ref' hth
        · show c₁.recordsLen - 1 < c₁.maxRecords
          omega
        · show c₁.recordsLen - 1 ≤ c₁.maxRecords
          omega
        · intro x other r' hth
          have hth : (c₁.setNode ref a).stored x other = Option.some r' := hth
          by_cases same : x = item.addr
          · rw [same, hs_here] at hth
            split at hth
            · cases hth
            · exact inv₁.bounded item.addr other r' hth
          · rw [hs, if_neg same] at hth
            exact inv₁.bounded x other r' hth
        · exact ⟨rfl, rfl, rfl, rfl, rfl, rfl, rfl⟩
        · exact Nat.sub_le _ _
        · intro x ne
          refine .inl (funext fun other => ?_)
          exact (hs x other).trans (if_neg ne)
        · exact fun _ mem => mem
        · have haf : (c₁.setNode ref a).stored item.addr =
              update (Hosts.proxies (c.stored item.addr)) old none := by
            funext other
            rw [hs_here, update_apply, hps]
          show Insertion _ _ _ _ (update ((c₁.setNode ref a).stored item.addr) host _)
          rw [haf]
          rw [hps] at hth
          exact .swap old r full hpr ha hth hsh

theorem makeRoomLocked_spec (inv : Inv c) (orders : ItemOrders) (host : String) (item : Classified) :
    RoomSpec (c.maxRecords ≤ c.recordsLen) host item c (c.makeRoomLocked orders host item).1
      (c.makeRoomLocked orders host item).2.2 := by
  unfold makeRoomLocked
  split
  next ha =>
    refine evictForRecordLocked_spec _ inv (.refl item.addr c) ha ?_
    rw [← stored_of_absent ha]
    exact .put
  next hh =>
    have hs := stored_of_lookup hh
    split
    next hr =>
      refine ⟨ready_of_lookup inv hh ?_, .refl item.addr c, .put⟩
      rcases Bool.or_eq_true_iff.mp hr with ht | hb
      · exact .inl ht
      · exact .inr (of_decide_eq_true hb)
    next hf =>
      rw [Bool.or_eq_true_iff, not_or, decide_eq_true_eq, not_lt, Bool.not_eq_true, isSome_eq_false_iff,
        isNone_iff_eq_none] at hf
      have ha : c.stored item.addr host = none := by rw [hs]; exact hf.1
      split
      next hd => exact ⟨inv, .refl item.addr c, .keep hf.2 hd ha⟩
      next hp => exact makeProxyRoomLocked_spec inv hh hf.2 (by simpa using hp) ha orders

/-- One classified answer: the invariant holds, the address changes by one insertion, and every other address stays or is
evicted. -/
theorem insertItem_spec (inv : Inv c) (orders : ItemOrders) (host : String) {now : Int} (dirty : Bool)
    (hv : now < item.expires) :
    Inv (insertItem orders host now (c, dirty) item).1 ∧ Kept 1 item.addr c (insertItem orders host now (c, dirty) item).1 ∧
      Insertion (c.maxRecords ≤ c.recordsLen) (c.stored item.addr) host ⟨item.direct, item.expires, item.call⟩
        ((insertItem orders host now (c, dirty) item).1.stored item.addr) := by
  have hr := makeRoomLocked_spec inv orders host item
  unfold insertItem
  simp only [not_le.mpr hv, if_false]
  generalize c.makeRoomLocked orders host item = result at hr
  obtain ⟨c₁, d, way⟩ := result
  cases way with
  | skip => exact ⟨hr.inv, hr.kept.weaken, hr.insertion⟩
  | use address =>
    have ho : ∃ c₂ d' ref, c₁.openAddressLocked item.addr address = (c₂, d', some ref) ∧
        Opened (c.maxRecords ≤ c.recordsLen) host item c c₂ ref := by
      cases address with
      | none => exact openAddressLocked_spec hr
      | some ref => exact ⟨c₁, false, ref, rfl, hr⟩
    obtain ⟨_, _, _, eq, ho⟩ := ho
    obtain ⟨inv', hk', _, hs'⟩ := recordLocked_spec item ho.ready
    simp only [eq]
    refine ⟨inv', ho.kept.trans hk', ?_⟩
    rw [hs']
    exact ho.insertion

end Controller

end AsterCore.KernelDirect
