import AsterCore.GoMap
import AsterCore.Interleaving

namespace AsterCore.Statistic

open List GoMap Program

abbrev Uuid := Nat

structure Metadata where
  inName : String
  inUser : String
  deriving DecidableEq

structure TrackerInfo where
  uuid : Uuid
  metadata : Option Metadata
  deriving DecidableEq

structure Tracker where
  info : Option TrackerInfo
  deriving DecidableEq

structure Principal where
  inbound : String
  userID : String
  deriving DecidableEq

def Tracker.uuid (c : Tracker) : Option Uuid := c.info.map TrackerInfo.uuid

def Tracker.principal (c : Tracker) : Option Principal :=
  (c.info.bind TrackerInfo.metadata).bind fun metadata =>
    if metadata.inName = "" ∨ metadata.inUser = "" then none else some ⟨metadata.inName, metadata.inUser⟩

structure Manager where
  connections : GoMap Uuid Tracker := ∅
  principals : GoMap Principal Int := ∅

namespace Manager

def updatePrincipalConnections (m : Manager) (c : Tracker) (delta : Int) : Manager :=
  match c.principal with
  | none => m
  | some key =>
    let next := (m.principals.lookup key).getD 0 + delta
    if next ≤ 0 then { m with principals := m.principals.erase key }
    else { m with principals := m.principals.insert key next }

def activeConnectionsByPrincipal (m : Manager) : GoMap Principal Int :=
  m.principals.collect fun _ count => count

def joined (m : Manager) (key : Principal) : Int :=
  GoMap.sumBy (fun _ c => if c.principal = some key then 1 else 0) m.connections

end Manager

inductive Call
  | join (c : Tracker)
  | joinUpdate (c : Tracker)
  | leave (c : Tracker)
  | leaveUpdate (stored : Tracker)
  | returned
  deriving DecidableEq

inductive Action
  | nothing
  | store (id : Uuid) (c : Tracker)
  | delete (id : Uuid)
  | update (c : Tracker) (delta : Int)

def Action.perform : Action → Manager → Manager
  | .nothing, m => m
  | .store id c, m => { m with connections := m.connections.insert id c }
  | .delete id, m => { m with connections := m.connections.erase id }
  | .update c delta, m => m.updatePrincipalConnections c delta

/-- `Join` does `LoadOrStore` and then the count, `Leave` does `LoadAndDelete` and then the count.
A `Join` without info panics before it does anything. -/
def Call.next (m : Manager) : Call → Option (Action × Call)
  | .join c =>
    match c.uuid with
    | none => some (.nothing, .returned)
    | some id =>
      match m.connections.lookup id with
      | some _ => some (.nothing, .returned)
      | none => some (.store id c, .joinUpdate c)
  | .joinUpdate c => some (.update c 1, .returned)
  | .leave c =>
    match c.uuid with
    | none => some (.nothing, .returned)
    | some id =>
      match m.connections.lookup id with
      | none => some (.nothing, .returned)
      | some stored => some (.delete id, .leaveUpdate stored)
  | .leaveUpdate stored => some (.update stored (-1), .returned)
  | .returned => none

def Call.entry : Call → Bool
  | .join _ | .leave _ => true
  | _ => false

/-- Any number of `Join` and `Leave` calls on one manager. Each step is atomic: the table is a
concurrent map, and the counts are changed under `principalMu`. -/
def connectionManager : Program Manager Call Action Empty Empty where
  next := Call.next
  perform := fun _ a m => a.perform m
  environment := fun e => nomatch e
  entry := fun _ t => t.entry
  held := fun _ => []
  takes := fun _ => []
  clash := fun _ _ => false
  clash_symm := fun _ _ => rfl
  entry_held := fun _ => rfl
  next_held := nofun

def Call.counting (id : Option Uuid) : Call → Bool
  | .joinUpdate c => c.uuid == id
  | _ => false

/-- A `Leave` that would remove an entry before its `Join` has counted it. -/
def overtakes (calls : List Call) : Call → Bool
  | .leave c => calls.any (Call.counting c.uuid)
  | _ => false

/-- No `Leave` takes its first step while a `Join` of the same connection has still to count. -/
def orderly (w : World Manager Call) : Event Call Empty → Bool
  | .step i => w.calls[i]?.all fun t => !overtakes w.calls t
  | _ => true

def Call.owes (key : Principal) : Call → Int
  | .joinUpdate c => if c.principal = some key then 1 else 0
  | .leaveUpdate c => if c.principal = some key then -1 else 0
  | _ => 0

def Call.joining (key : Principal) : Call → Option Uuid
  | .joinUpdate c => if c.principal = some key then c.uuid else none
  | _ => none

structure Counted (w : World Manager Call) : Prop where
  positive : ∀ key count, w.shared.principals.lookup key = some count → 0 < count
  balance : ∀ key, (w.shared.principals.lookup key).getD 0 + (w.calls.map (Call.owes key)).sum = w.shared.joined key
  there : ∀ (i : Nat) c, w.calls[i]? = some (.joinUpdate c) →
    ∃ id, c.uuid = some id ∧ w.shared.connections.lookup id = some c
  apart : ∀ (i j : Nat) c d, i ≠ j → w.calls[i]? = some (.joinUpdate c) → w.calls[j]? = some (.joinUpdate d) →
    c.uuid ≠ d.uuid

section Update

variable (m : Manager) (c : Tracker) (delta : Int)

@[simp] theorem updatePrincipalConnections_connections :
    (m.updatePrincipalConnections c delta).connections = m.connections := by
  unfold Manager.updatePrincipalConnections
  split
  · rfl
  · simp only []
    split <;> rfl

theorem updatePrincipalConnections_positive {m : Manager} (hp : ∀ key count, m.principals.lookup key = some count → 0 < count)
    (key : Principal) (count : Int) (ht : (m.updatePrincipalConnections c delta).principals.lookup key = some count) :
    0 < count := by
  unfold Manager.updatePrincipalConnections at ht
  split at ht
  · exact hp key count ht
  · simp only [] at ht
    split at ht
    · exact hp key count (lookup_of_erase ht).2
    next above =>
      rw [lookup_insert_eq] at ht
      split at ht
      · rw [← Option.some.inj ht]
        omega
      · exact hp key count ht

theorem updatePrincipalConnections_count (key : Principal)
    (he : c.principal = some key → 0 ≤ (m.principals.lookup key).getD 0 + delta) :
    ((m.updatePrincipalConnections c delta).principals.lookup key).getD 0 =
      (m.principals.lookup key).getD 0 + if c.principal = some key then delta else 0 := by
  unfold Manager.updatePrincipalConnections
  split
  next hn =>
    rw [hn]
    simp
  next other hf =>
    rw [hf] at he ⊢
    simp only [Option.some.injEq] at he ⊢
    by_cases hs : other = key
    · subst hs
      have he := he rfl
      rw [if_pos rfl]
      split
      next zero =>
        rw [lookup_erase_eq, if_pos rfl]
        show 0 = _
        omega
      · rw [lookup_insert_eq, if_pos rfl]
        rfl
    · rw [if_neg hs, Int.add_zero]
      split
      · rw [lookup_erase_eq, if_neg (Ne.symm hs)]
      · rw [lookup_insert_eq, if_neg (Ne.symm hs)]

end Update

variable {m : Manager}

theorem joined_insert {id : Uuid} (ha : m.connections.lookup id = none) (c : Tracker) (key : Principal) :
    Manager.joined { m with connections := m.connections.insert id c } key =
      m.joined key + if c.principal = some key then 1 else 0 := by
  unfold Manager.joined
  rw [sumBy_update, ha]
  simp

variable {c : Tracker}

theorem joined_erase {id : Uuid} (ht : m.connections.lookup id = some c) (key : Principal) :
    Manager.joined { m with connections := m.connections.erase id } key =
      m.joined key - if c.principal = some key then 1 else 0 := by
  unfold Manager.joined
  rw [sumBy_erase _ m.connections id, ht]
  exact (add_sub_cancel_left _ _).symm

variable {w : World Manager Call} {i : Nat} {t t' : Call}

theorem Counted.joining_le (h : Counted w) (key : Principal) :
    ((w.calls.filterMap (Call.joining key)).length : Int) ≤ w.shared.joined key := by
  have hjn : ∀ {t : Call} {id : Uuid}, t.joining key = some id →
      ∃ c, t = .joinUpdate c ∧ c.principal = some key ∧ c.uuid = some id := by
    intro t _ hjo
    cases t with
    | joinUpdate c =>
      simp only [Call.joining] at hjo
      split at hjo
      next same => exact ⟨c, rfl, same, hjo⟩
      · cases hjo
    | _ => cases hjo
  refine length_le_sumBy (fun _ c => by split <;> decide) ?_ ?_
  · have hp : w.calls.Pairwise fun t u => ∀ a ∈ t.joining key, ∀ b ∈ u.joining key, a ≠ b := by
      rw [pairwise_iff_getElem]
      intro i j hi hj _ a ha b hb
      obtain ⟨c, hf, _, hu⟩ := hjn ha
      obtain ⟨d, hs, _, hu'⟩ := hjn hb
      have ne := h.apart i j c d (by omega) (List.getElem?_eq_some_iff.mpr ⟨hi, hf⟩)
        (List.getElem?_eq_some_iff.mpr ⟨hj, hs⟩)
      rw [hu, hu'] at ne
      exact fun same => ne (congrArg some same)
    exact pairwise_filterMap.mpr hp
  · intro _ mem
    obtain ⟨t, hh, hjo⟩ := mem_filterMap.mp mem
    obtain ⟨c, rfl, same, hu⟩ := hjn hjo
    obtain ⟨i, at_i⟩ := getElem?_of_mem hh
    obtain ⟨_, hu', hfo⟩ := h.there i c at_i
    rw [hu] at hu'
    cases hu'
    refine ⟨c, hfo, ?_⟩
    rw [if_pos same]

theorem Tracker.uuid_of_principal {key : Principal} (h : c.principal = some key) : ∃ id, c.uuid = some id := by
  unfold Tracker.principal at h
  cases hi : c.info with
  | none => simp [hi] at h
  | some i => exact ⟨i.uuid, by simp [Tracker.uuid, hi]⟩

theorem sum_owes (key : Principal) (calls : List Call) :
    (calls.map (Call.owes key)).sum =
      ((calls.filterMap (Call.joining key)).length : Int) - calls.countP (fun t => t.owes key == -1) := by
  induction calls with
  | nil => rfl
  | cons t _ ih =>
    rw [map_cons, sum_cons, ih, filterMap_cons]
    cases t with
    | joinUpdate c =>
      by_cases hs : c.principal = some key
      · obtain ⟨id, hu⟩ := Tracker.uuid_of_principal hs
        simp [Call.owes, Call.joining, hs, hu]
        omega
      · simp [Call.owes, Call.joining, hs]
    | leaveUpdate c =>
      by_cases hs : c.principal = some key
      · simp [Call.owes, Call.joining, hs]
        omega
      · simp [Call.owes, Call.joining, hs]
    | _ => simp [Call.owes, Call.joining]

theorem Counted.enough (h : Counted w) {key : Principal}
    (hh : w.calls[i]? = some (.leaveUpdate c)) (hs : c.principal = some key) :
    1 ≤ (w.shared.principals.lookup key).getD 0 := by
  have bound := h.joining_le key
  have hb := h.balance key
  have hl : 0 < w.calls.countP (fun t => t.owes key == -1) := by
    rw [countP_pos_iff]
    exact ⟨_, mem_of_getElem? hh, by simp [Call.owes, hs]⟩
  rw [sum_owes] at hb
  omega

theorem Call.next_cases {a : Action} (h : t.next m = some (a, t')) :
    ((∃ c, t = .join c ∨ t = .leave c) ∧ a = .nothing ∧ t' = .returned) ∨
    (∃ c id, t = .join c ∧ c.uuid = some id ∧ m.connections.lookup id = none ∧ a = .store id c ∧ t' = .joinUpdate c) ∨
    (∃ c, t = .joinUpdate c ∧ a = .update c 1 ∧ t' = .returned) ∨
    (∃ c id stored, t = .leave c ∧ c.uuid = some id ∧ m.connections.lookup id = some stored ∧ a = .delete id ∧
      t' = .leaveUpdate stored) ∨ (∃ c, t = .leaveUpdate c ∧ a = .update c (-1) ∧ t' = .returned) := by
  cases t with
  | join c =>
    simp only [Call.next] at h
    split at h
    · cases h
      exact .inl ⟨⟨c, .inl rfl⟩, rfl, rfl⟩
    next id hu =>
      split at h <;> cases h
      · exact .inl ⟨⟨c, .inl rfl⟩, rfl, rfl⟩
      next ha => exact .inr (.inl ⟨c, id, rfl, hu, ha, rfl, rfl⟩)
  | joinUpdate c =>
    cases h
    exact .inr (.inr (.inl ⟨c, rfl, rfl, rfl⟩))
  | leave c =>
    simp only [Call.next] at h
    split at h
    · cases h
      exact .inl ⟨⟨c, .inr rfl⟩, rfl, rfl⟩
    next id hu =>
      split at h <;> cases h
      · exact .inl ⟨⟨c, .inr rfl⟩, rfl, rfl⟩
      next stored ht => exact .inr (.inr (.inr (.inl ⟨c, id, stored, rfl, hu, ht, rfl, rfl⟩)))
  | leaveUpdate c =>
    cases h
    exact Or.inr (Or.inr (Or.inr (Or.inr ⟨c, rfl, rfl, rfl⟩)))
  | returned => cases h

theorem joinUpdate_of_set {calls : List Call} {j : Nat} (ho : ∀ d, t' ≠ .joinUpdate d)
    (h : (calls.set i t')[j]? = some (.joinUpdate c)) : calls[j]? = some (.joinUpdate c) := by
  rcases getElem?_set_cases h with ⟨_, hs⟩ | ⟨_, old⟩
  · exact absurd hs.symm (ho c)
  · exact old

theorem Counted.pay {delta : Int} (h : Counted w)
    (hh : w.calls[i]? = some t) (ho : ∀ key, t.owes key = if c.principal = some key then delta else 0)
    (he : ∀ key, c.principal = some key → 0 ≤ (w.shared.principals.lookup key).getD 0 + delta) :
    Counted ⟨w.shared.updatePrincipalConnections c delta, w.calls.set i .returned⟩ := by
  refine ⟨updatePrincipalConnections_positive c delta h.positive, ?_, ?_, ?_⟩
  · intro key
    have hb := h.balance key
    have sum := sum_map_set (Call.owes key) .returned hh
    have hc := updatePrincipalConnections_count w.shared c delta key (he key)
    have same : (w.shared.updatePrincipalConnections c delta).joined key = w.shared.joined key := by
      unfold Manager.joined
      rw [updatePrincipalConnections_connections]
    rw [same, hc, sum, ho key]
    show _ + (_ + (0 - _)) = _
    omega
  · intro j d ht
    rw [updatePrincipalConnections_connections]
    exact h.there j d (joinUpdate_of_set (fun _ => by simp) ht)
  · intro j k d e ne hf hs
    exact h.apart j k d e ne (joinUpdate_of_set (fun _ => by simp) hf) (joinUpdate_of_set (fun _ => by simp) hs)

theorem Counted.step {a : Action} (h : Counted w)
    (hh : w.calls[i]? = some t) (hn : t.next w.shared = some (a, t')) (hbe : overtakes w.calls t = false) :
    Counted ⟨a.perform w.shared, w.calls.set i t'⟩ := by
  rcases Call.next_cases hn with ⟨⟨c, hfi⟩, rfl, rfl⟩ | ⟨c, id, rfl, hu, ha, rfl, rfl⟩ | ⟨c, rfl, rfl, rfl⟩ |
    ⟨c, id, stored, rfl, hu, ht, rfl, rfl⟩ | ⟨c, rfl, rfl, rfl⟩
  · -- nothing happens
    refine ⟨h.positive, ?_, ?_, ?_⟩
    · intro key
      have sum := sum_map_set (Call.owes key) .returned hh
      have owed : t.owes key = 0 := by rcases hfi with rfl | rfl <;> rfl
      rw [owed] at sum
      rw [sum]
      show _ + (_ + (0 - 0)) = _
      rw [Int.sub_zero, Int.add_zero]
      exact h.balance key
    · exact fun j d ht => h.there j d (joinUpdate_of_set (fun _ => by simp) ht)
    · exact fun j k d e ne hfi hs =>
        h.apart j k d e ne (joinUpdate_of_set (fun _ => by simp) hfi) (joinUpdate_of_set (fun _ => by simp) hs)
  · -- the connection is stored, and owed to the count
    have hfr : ∀ (j : Nat) d, w.calls[j]? = some (.joinUpdate d) → d.uuid ≠ some id := by
      intro j d hf same
      obtain ⟨_, hu', ht⟩ := h.there j d hf
      rw [same] at hu'
      cases hu'
      rw [ha] at ht
      cases ht
    refine ⟨h.positive, ?_, ?_, ?_⟩
    · intro key
      have sum := sum_map_set (Call.owes key) (.joinUpdate c) hh
      have hb := h.balance key
      show (w.shared.principals.lookup key).getD 0 + _ = Manager.joined { w.shared with connections := _ } key
      rw [sum, joined_insert ha]
      show _ + (_ + ((if c.principal = some key then 1 else 0) - 0)) = _
      omega
    · intro j d hf
      rcases getElem?_set_cases hf with ⟨_, same⟩ | ⟨_, old⟩
      · cases same
        exact ⟨id, hu, by rw [Action.perform, lookup_insert_eq, if_pos rfl]⟩
      · obtain ⟨id', hu', ht⟩ := h.there j d old
        refine ⟨id', hu', ?_⟩
        rw [Action.perform, lookup_insert_eq, if_neg, ht]
        rintro rfl
        exact hfr j d old hu'
    · intro j k d e ne hfi hs
      rcases getElem?_set_cases hfi with ⟨_, same⟩ | ⟨_, old⟩
      · cases same
        rcases getElem?_set_cases hs with ⟨rfl, _⟩ | ⟨_, old'⟩
        · simp_all
        · rw [hu]
          exact (hfr k e old').symm
      · rcases getElem?_set_cases hs with ⟨_, same⟩ | ⟨_, old'⟩
        · cases same
          rw [hu]
          exact hfr j d old
        · exact h.apart j k d e ne old old'
  · refine h.pay hh (fun key => rfl) ?_
    intro key _
    cases hf : w.shared.principals.lookup key with
    | none => decide
    | some count =>
      have hp := h.positive key count hf
      show 0 ≤ count + 1
      omega
  · -- the entry goes, and no `Join` has still to count it
    have ho : ∀ (j : Nat) d, w.calls[j]? = some (.joinUpdate d) → d.uuid ≠ some id := by
      intro j d hf same
      have any := any_eq_false.mp hbe (.joinUpdate d) (mem_of_getElem? hf)
      rw [hu, Call.counting, same] at any
      exact any (beq_self_eq_true _)
    refine ⟨h.positive, ?_, ?_, ?_⟩
    · intro key
      have sum := sum_map_set (Call.owes key) (.leaveUpdate stored) hh
      have hb := h.balance key
      show (w.shared.principals.lookup key).getD 0 + _ = Manager.joined { w.shared with connections := _ } key
      rw [sum, joined_erase ht]
      show _ + (_ + ((if stored.principal = some key then -1 else 0) - 0)) = _
      split <;> omega
    · intro j d hf
      have old := joinUpdate_of_set (fun _ => by simp) hf
      obtain ⟨id', hu', ht'⟩ := h.there j d old
      refine ⟨id', hu', ?_⟩
      rw [Action.perform, lookup_erase_eq, if_neg, ht']
      rintro rfl
      exact ho j d old hu'
    · exact fun j k d e ne hfi hs =>
        h.apart j k d e ne (joinUpdate_of_set (fun _ => by simp) hfi) (joinUpdate_of_set (fun _ => by simp) hs)
  · refine h.pay hh (fun key => rfl) ?_
    intro _ same
    have he := h.enough hh same
    omega

theorem Counted.fire {w' : World Manager Call} {e : Event Call Empty} (h : Counted w) (ho : orderly w e = true)
    (hfd : connectionManager.fire w e = some w') : Counted w' := by
  rcases fire_cases hfd with ⟨t, _, he, rfl⟩ | ⟨d, _, _⟩ | ⟨i, t, a, t', rfl, hst, rfl⟩
  · -- a call that starts owes nothing
    have hfr : ∀ c, t ≠ .joinUpdate c := by
      rintro c rfl
      cases he
    have owes : ∀ key, t.owes key = 0 := by
      intro key
      cases t with
      | joinUpdate c | leaveUpdate c => cases he
      | _ => rfl
    have old : ∀ {j : Nat} {c : Tracker}, (w.calls ++ [t])[j]? = some (.joinUpdate c) → w.calls[j]? = some (.joinUpdate c) := by
      intro j c hf
      rcases getElem?_append_cases hf with ⟨_, same⟩ | ⟨_, old⟩
      · exact absurd same.symm (hfr c)
      · exact old
    refine ⟨h.positive, ?_, fun j c hf => h.there j c (old hf),
      fun j k c d ne hfi hs => h.apart j k c d ne (old hfi) (old hs)⟩
    intro key
    rw [map_append, sum_append, map_singleton, sum_singleton, owes key, Int.add_zero]
    exact h.balance key
  · exact nomatch d
  · rw [orderly, hst.here] at ho
    exact h.step hst.here hst.next (by simpa using ho)

theorem counted_start : Counted ⟨{}, []⟩ where
  positive := nofun
  balance := fun _ => rfl
  there := nofun
  apart := fun _ _ _ _ _ ht => by cases ht

/-- In every run in which no `Leave` overtakes the second half of the `Join` of its connection, the
counts are exact whenever no call is in progress, and there are no others. -/
theorem connections_counted {w : World Manager Call} {events : List (Event Call Empty)}
    (ordered : connectionManager.Along (fun w e => orderly w e = true) ⟨{}, []⟩ events)
    (run : connectionManager.run ⟨{}, []⟩ events = some w) (idle : ∀ t ∈ w.calls, t = .returned) (key : Principal) :
    w.shared.activeConnectionsByPrincipal.lookup key =
      if w.shared.joined key = 0 then none else some (w.shared.joined key) := by
  have hc := run_invariant (fun _ _ _ h ordered hf => Counted.fire h ordered hf) counted_start ordered run
  have hb := hc.balance key
  have ho : (w.calls.map (Call.owes key)).sum = 0 := by
    refine sum_eq_zero fun x mem => ?_
    obtain ⟨t, hh, rfl⟩ := mem_map.mp mem
    rw [idle t hh]
    rfl
  rw [ho, Int.add_zero] at hb
  have hco : w.shared.activeConnectionsByPrincipal.lookup key = w.shared.principals.lookup key := by
    unfold Manager.activeConnectionsByPrincipal
    rw [lookup_collect]
    cases w.shared.principals.lookup key <;> rfl
  rw [hco, ← hb]
  cases hfo : w.shared.principals.lookup key with
  | none => rfl
  | some count =>
    have hp := hc.positive key count hfo
    show some count = if count = 0 then none else some count
    rw [if_neg (by omega)]

def sampleTracker : Tracker := ⟨some ⟨1, some ⟨"in", "u"⟩⟩⟩

def samplePrincipal : Principal := ⟨"in", "u"⟩

def sampleOrderly : List (Event Call Empty) :=
  [.call (.join sampleTracker), .call (.join ⟨some ⟨2, some ⟨"in", "u"⟩⟩⟩), .step 0, .step 1, .step 1, .step 0,
    .call (.leave sampleTracker), .step 2, .step 2]

theorem connections_counted_sample : ∃ w, connectionManager.run ⟨{}, []⟩ sampleOrderly = some w ∧
    w.shared.activeConnectionsByPrincipal.lookup samplePrincipal = some 1 := by
  have ho : connectionManager.Along (fun w e => orderly w e = true) ⟨{}, []⟩ sampleOrderly := by decide +kernel
  have ht : (connectionManager.run ⟨{}, []⟩ sampleOrderly).isSome = true := by decide +kernel
  obtain ⟨w, run⟩ := Option.isSome_iff_exists.mp ht
  refine ⟨w, run, ?_⟩
  have hi : ((connectionManager.run ⟨{}, []⟩ sampleOrderly).all fun w => w.calls.all fun t => t == .returned) = true := by
    decide +kernel
  have hj : ((connectionManager.run ⟨{}, []⟩ sampleOrderly).all fun w => w.shared.joined samplePrincipal == 1) = true := by
    decide +kernel
  rw [run] at hi hj
  have one : w.shared.joined samplePrincipal = 1 := by simpa using hj
  rw [connections_counted ho run (by simpa using hi) samplePrincipal, one]
  rfl

/-- `Leave` runs between the two steps of `Join`. -/
def sampleOvertaken : List (Event Call Empty) :=
  [.call (.join sampleTracker), .step 0, .call (.leave sampleTracker), .step 1, .step 1, .step 0]

/-- No call is in progress and no connection is left, and the principal still counts one. -/
theorem overtaken_join_counts_forever :
    ((connectionManager.run ⟨{}, []⟩ sampleOvertaken).map fun w =>
      (w.calls.all fun t => t == .returned, w.shared.joined samplePrincipal, w.shared.connections.entries.length,
        w.shared.activeConnectionsByPrincipal.lookup samplePrincipal)) = some (true, 0, 0, some 1) := by
  decide +kernel

end AsterCore.Statistic
