import AsterCore.DirectRuns

namespace AsterCore.KernelDirect

open List Function Controller Mark

/-- A controller with the time of its last step and the expiry of the last observation of each
host and address. -/
structure Watch where
  controller : Controller
  clock : Int := 0
  seen : Addr → String → Option Int := fun _ _ => none

def Watch.start (maxEntries : Nat) (began : Int) : Watch := { controller := register maxEntries, clock := began }

/-- The steps of a controller that is never flushed or closed. A tick may be older than the moment
it is handled. -/
inductive Event
  | refresh (isFakeIP : Addr → Bool) (host : String) (answers : List DNSAnswer) (now : Int)
  | insert (orders : Orders) (isFakeIP : Addr → Bool) (host : String) (answers : List DNSAnswer) (observedAt now : Int)
  | expire (orders : Orders) (tick now : Int)

def note (host : String) (seen : Addr → String → Option Int) (items : List (Addr × Int)) : Addr → String → Option Int :=
  items.foldl (fun seen item => Function.update seen item.1 (Function.update (seen item.1) host (some item.2))) seen

def watch (classifier : String → Addr → Bool) (w : Watch) : Event → Watch
  | .refresh isFakeIP host answers now =>
    let (c, handled) := w.controller.refreshExistingLocked isFakeIP host answers now
    { controller := c, clock := now, seen := if handled then note host w.seen (Controller.refreshed isFakeIP now answers) else w.seen }
  | .insert orders isFakeIP host answers observedAt now =>
    { controller := (w.controller.insertLocked orders w.controller.flushSeq host
        (classify isFakeIP (some classifier) 0 host observedAt answers) now).1
      clock := now
      seen := note host w.seen (Controller.refreshed isFakeIP observedAt answers) }
  | .expire orders tick now =>
    { w with controller := (w.controller.tickLocked orders tick).1, clock := now }

def watchAll (classifier : String → Addr → Bool) (events : List Event) (w : Watch) : Watch :=
  events.foldl (watch classifier) w

def Throughout (classifier : String → Addr → Bool) (holds : Watch → Event → Bool) : Watch → List Event → Bool
  | _, [] => true
  | w, event :: events => holds w event && Throughout classifier holds (watch classifier w event) events

/-- Time does not run backwards, and a step reads its times no later than it is taken. -/
def timely (w : Watch) : Event → Bool
  | .refresh _ _ _ now => w.clock ≤ now
  | .insert _ _ _ _ observedAt now => w.clock ≤ now && observedAt ≤ now
  | .expire _ tick now => w.clock ≤ now && tick ≤ now

/-- No observation that is still valid at `now` shortens the time kept for the host at `addr`. -/
def notShorter (addr : Addr) (now : Int) : Option Int → List (Addr × Int) → Bool
  | _, [] => true
  | old, item :: items =>
    if item.1 = addr ∧ now < item.2 then (old.all fun old => old ≤ item.2) && notShorter addr now (some item.2) items
    else notShorter addr now old items

def steady (classifier : String → Addr → Bool) (addr : Addr) (w : Watch) : Event → Bool
  | .refresh isFakeIP host answers now =>
    classifier host addr || notShorter addr now ((w.controller.stored addr host).map Record.expires)
      (Controller.refreshed isFakeIP now answers)
  | .insert _ isFakeIP host answers observedAt now =>
    classifier host addr || notShorter addr now ((w.controller.stored addr host).map Record.expires)
      (Controller.refreshed isFakeIP observedAt answers)
  | .expire _ _ _ => true

def roomy (w : Watch) : Event → Bool
  | .insert _ _ _ answers _ _ => w.controller.recordsLen + answers.length ≤ w.controller.maxRecords
  | _ => true

def Shield (hosts : Hosts) (expires : Int) : Prop :=
  ∃ other r, hosts other = some r ∧ r.direct = false ∧ expires ≤ r.expires

section Insertion

variable {full : Prop} {hosts hosts' : Hosts} {host : String} {new : Record}

theorem Shield.insertion {expires : Int} (hsh : Shield hosts expires) (h : Insertion full hosts host new hosts')
    (hl : ∀ r, hosts host = some r → r.direct = false → new.direct = false ∧ r.expires ≤ new.expires) :
    Shield hosts' expires := by
  obtain ⟨other, r, ht, hp, le⟩ := hsh
  have hk : hosts.proxies other = some r := by
    unfold Hosts.proxies
    rw [ht]
    simp [hp]
  cases h with
  | put =>
    by_cases same : other = host
    · subst same
      obtain ⟨hnp, hlo⟩ := hl r ht hp
      exact ⟨other, new, update_self _ _ _, hnp, le.trans hlo⟩
    · exact ⟨other, r, (update_of_ne same _ _).trans ht, hp, le⟩
  | keep => exact ⟨other, r, ht, hp, le⟩
  | putProxy _ _ ha =>
    have ne : other ≠ host := by
      rintro rfl
      rw [ha] at ht
      cases ht
    exact ⟨other, r, (update_of_ne ne _ _).trans hk, hp, le⟩
  | swap old _ _ hnp ha hf hs =>
    have ne : other ≠ host := by
      rintro rfl
      rw [ha] at ht
      cases ht
    by_cases same : other = old
    · subst same
      have he := Option.some.inj (hk.symm.trans hf)
      subst he
      exact ⟨host, new, update_self _ _ _, hnp, le.trans hs⟩
    · refine ⟨other, r, ?_, hp, le⟩
      rw [update_of_ne ne, update_of_ne same, hk]
  | refuse => exact ⟨other, r, hk, hp, le⟩

section

variable (h : Insertion full hosts host new hosts')

include h

theorem shield_new (hp : new.direct = false) : Shield hosts' new.expires := by
  cases h with
  | put => exact ⟨host, new, update_self _ _ _, hp, le_refl _⟩
  | keep _ hd =>
    rw [hp] at hd
    cases hd
  | putProxy | swap => exact ⟨host, new, update_self _ _ _, hp, le_refl _⟩
  | refuse old r _ _ _ hf hl =>
    obtain ⟨_, hop⟩ := Option.filter_eq_some_iff.mp hf
    exact ⟨old, r, hf, by simpa using hop, hl.le⟩

theorem Insertion.origin {other : String} {r : Record}
    (ht : hosts' other = some r) : hosts other = some r ∨ (other = host ∧ r = new) := by
  have hu : ∀ base : Hosts, update base host (some new) other = some r →
      base other = some r ∨ (other = host ∧ r = new) := by
    intro _ ht
    rw [update_apply] at ht
    split at ht
    next hs => exact .inr ⟨hs, (Option.some.inj ht).symm⟩
    · exact .inl ht
  have hp : hosts.proxies other = some r → hosts other = some r := fun h => (Option.filter_eq_some_iff.mp h).1
  cases h with
  | put => exact hu hosts ht
  | keep => exact .inl ht
  | putProxy => exact (hu _ ht).imp_left hp
  | swap =>
    rcases hu _ ht with hb | new
    · rw [update_apply] at hb
      split at hb
      · cases hb
      · exact .inl (hp hb)
    · exact .inr new
  | refuse => exact .inl (hp ht)

theorem Insertion.at_host {r : Record} (ht : hosts' host = some r) : r = new := by
  have ha : hosts host = none → hosts.proxies host = none := by
    intro none
    unfold Hosts.proxies
    rw [none]
    rfl
  have hu : ∀ base : Hosts, update base host (some new) host = some r → r = new := by
    intro _ ht
    rw [update_self] at ht
    exact (Option.some.inj ht).symm
  cases h with
  | put => exact hu _ ht
  | keep _ _ none =>
    rw [none] at ht
    cases ht
  | putProxy | swap => exact hu _ ht
  | refuse _ _ _ _ none =>
    rw [ha none] at ht
    cases ht

end

end Insertion

structure Recorded (full : Controller → Prop) (classifier : String → Addr → Bool) (host : String) (item : Addr × Int)
    (c c' : Controller) : Prop where
  inv : Inv c'
  kept : Kept 1 item.1 c c'
  insertion : ∃ call, Insertion (full c) (c.stored item.1) host ⟨classifier host item.1, item.2, call⟩ (c'.stored item.1)

inductive Records (full : Controller → Prop) (classifier : String → Addr → Bool) (host : String) (now : Int) :
    Controller → List (Addr × Int) → Controller → Prop
  | nil (c : Controller) : Records full classifier host now c [] c
  | skip {c c' : Controller} {item : Addr × Int} {items : List (Addr × Int)} (stale : item.2 ≤ now)
      (rest : Records full classifier host now c items c') : Records full classifier host now c (item :: items) c'
  | step {c c₁ c' : Controller} {item : Addr × Int} {items : List (Addr × Int)} (valid : now < item.2)
      (first : Recorded full classifier host item c c₁) (rest : Records full classifier host now c₁ items c') :
      Records full classifier host now c (item :: items) c'

def FullTable (c : Controller) : Prop := c.maxRecords ≤ c.recordsLen

def NeverFull (_ : Controller) : Prop := False

section Records

variable {full : Controller → Prop} {classifier : String → Addr → Bool} {host : String} {now : Int} {c c' : Controller} {items : List (Addr × Int)}

def Faithful (classifier : String → Addr → Bool) (c : Controller) : Prop :=
  ∀ addr host r, c.stored addr host = some r → r.direct = classifier host addr

variable {item : Addr × Int}

theorem Recorded.faithful (h : Recorded full classifier host item c c') (hf : Faithful classifier c) :
    Faithful classifier c' := by
  intro addr other r ht
  by_cases hs : addr = item.1
  · subst hs
    obtain ⟨_, hi⟩ := h.insertion
    rcases hi.origin ht with hb | ⟨rfl, rfl⟩
    · exact hf _ other r hb
    · rfl
  · rcases h.kept.others addr hs with hk | ⟨_, he⟩
    · rw [hk] at ht
      exact hf addr other r ht
    · rw [he] at ht
      cases ht

theorem insertItems_records (now : Int) (orders : Orders) (items : List Classified) (i : Nat) (dirty : Bool) (inv : Inv c)
    (hd : ∀ item ∈ items, item.direct = classifier host item.addr) :
    Records FullTable classifier host now c (items.map fun item => (item.addr, item.expires))
      (insertItems orders host now i items (c, dirty)).1 := by
  induction items generalizing c i dirty with
  | nil => exact .nil c
  | cons item items ih =>
    have hr := fun x mem => hd x (mem_cons_of_mem item mem)
    by_cases hv : now < item.expires
    · obtain ⟨inv', hk, hi⟩ := insertItem_spec inv (orders.item i) host dirty hv
      rw [hd item mem_cons_self] at hi
      exact .step hv ⟨inv', hk, item.call, hi⟩ (ih (i + 1) _ inv' hr)
    · have hs : item.expires ≤ now := by omega
      have skip : insertItem (orders.item i) host now (c, dirty) item = (c, dirty) := if_pos hs
      refine .skip hs ?_
      show Records _ _ _ _ _ _ (insertItems orders host now (i + 1) items
        (insertItem (orders.item i) host now (c, dirty) item)).1
      rw [skip]
      exact ih (i + 1) dirty inv hr

theorem refresh_records (inv : Inv c) (hf : Faithful classifier c)
    (ht : ∀ item ∈ items, (c.stored item.1 host).isSome) (hv : ∀ item ∈ items, now < item.2) :
    Records NeverFull classifier host now c items (items.foldl (refreshItem host) c) := by
  induction items generalizing c with
  | nil => exact .nil c
  | cons item _ ih =>
    obtain ⟨prev, hfo⟩ := Option.isSome_iff_exists.mp (ht item mem_cons_self)
    obtain ⟨inv', hk, ho, hs⟩ := refreshItem_spec inv item hfo
    have hfi : Recorded NeverFull classifier host item c (refreshItem host c item) := by
      refine ⟨inv', hk, prev.call, ?_⟩
      rw [hs, ← hf item.1 host prev hfo]
      exact .put
    refine .step (hv item mem_cons_self) hfi (ih inv' (hfi.faithful hf) ?_ ?_)
    · intro x mem
      by_cases same : x.1 = item.1
      · rw [same, hs, update_self]
        rfl
      · rw [ho x.1 same]
        exact ht x (mem_cons_of_mem item mem)
    · exact fun x mem => hv x (mem_cons_of_mem item mem)

section

variable (h : Records full classifier host now c items c')

include h

theorem Records.log : ∀ mark ∈ c.log, mark ∈ c'.log := by
  induction h with
  | nil => exact fun _ mem => mem
  | skip _ _ ih => exact ih
  | step _ hf _ ih => exact fun mark mem => ih mark (hf.kept.log mark mem)

theorem Records.inv (inv : Inv c) : Inv c' := by
  induction h with
  | nil => exact inv
  | skip _ _ ih => exact ih inv
  | step _ hf _ ih => exact ih hf.inv

theorem Records.faithful (hf : Faithful classifier c) : Faithful classifier c' := by
  induction h with
  | nil => exact hf
  | skip _ _ ih => exact ih hf
  | step _ hfi _ ih => exact ih (hfi.faithful hf)

theorem Records.fixed : Fixed c c' := by
  induction h with
  | nil => exact .refl _
  | skip _ _ ih => exact ih
  | step _ hf _ ih => exact hf.kept.fixed.trans ih

end

theorem Records.roomy (h : Records FullTable classifier host now c items c')
    (hr : c.recordsLen + items.length ≤ c.maxRecords) : Records NeverFull classifier host now c items c' := by
  induction h with
  | nil => exact .nil _
  | @skip _ _ _ _ hs _ ih =>
    rw [length_cons] at hr
    exact .skip hs (ih (by omega))
  | @step c c₁ _ item _ hv hf _ ih =>
    rw [length_cons] at hr
    obtain ⟨inv, hk, call, hi⟩ := hf
    have grown := hk.records_le
    have hsp : ¬FullTable c := by
      unfold FullTable
      omega
    refine .step hv ⟨inv, hk, call, ?_⟩ (ih ?_)
    · generalize c₁.stored item.1 = after at hi
      cases hi with
      | put => exact .put
      | keep full | putProxy full | swap _ _ full | refuse _ _ full => exact absurd full hsp
    · rw [hk.fixed.maxRecords]
      omega

def Remembered (classifier : String → Addr → Bool) (addr : Addr) (now : Int) (seen : Addr → String → Option Int)
    (remembers : String → Int → Prop) : Prop :=
  ∀ host expires, classifier host addr = false → seen addr host = some expires → now < expires → remembers host expires

def Covered (classifier : String → Addr → Bool) (addr : Addr) (now : Int) (seen : Addr → String → Option Int)
    (c : Controller) : Prop :=
  Remembered classifier addr now seen fun _ expires => Shield (c.stored addr) expires

def Exact (classifier : String → Addr → Bool) (addr : Addr) (now : Int) (seen : Addr → String → Option Int)
    (c : Controller) : Prop :=
  Remembered classifier addr now seen fun host expires => ∃ r, c.stored addr host = some r ∧ r.expires = expires

theorem Remembered.skip {addr : Addr} {seen : Addr → String → Option Int}
    {remembers : String → Int → Prop} (h : Remembered classifier addr now seen remembers) (stale : item.2 ≤ now) :
    Remembered classifier addr now (Function.update seen item.1 (Function.update (seen item.1) host (some item.2)))
      remembers := by
  intro other expires hp hl hv
  by_cases hh : item.1 = addr
  · subst hh
    rw [update_self, update_apply] at hl
    split at hl
    · have equal := Option.some.inj hl
      omega
    · exact h other expires hp hl hv
  · rw [update_of_ne (Ne.symm hh)] at hl
    exact h other expires hp hl hv

variable {addr : Addr} {seen : Addr → String → Option Int}

theorem Covered.recorded (hc : Covered classifier addr now seen c) (hf : Faithful classifier c)
    (h : Recorded full classifier host item c c') (hk : evicted addr ∉ c'.log)
    (hla : item.1 = addr → classifier host addr = false → ∀ r, c.stored addr host = some r → r.expires ≤ item.2) :
    Covered classifier addr now
      (Function.update seen item.1 (Function.update (seen item.1) host (some item.2))) c' := by
  intro other expires hp hl hv
  by_cases hh : item.1 = addr
  · subst hh
    obtain ⟨_, hi⟩ := h.insertion
    rw [update_self, update_apply] at hl
    split at hl
    next hs =>
      subst hs
      have he := Option.some.inj hl
      subst he
      exact shield_new hi hp
    · refine (hc other expires hp hl hv).insertion hi ?_
      intro r ht hd
      have hs := hf item.1 host r ht
      rw [hd] at hs
      exact ⟨hs.symm, hla rfl hs.symm r ht⟩
  · rw [update_of_ne (Ne.symm hh)] at hl
    rcases h.kept.others addr (Ne.symm hh) with hs | ⟨hg, _⟩
    · rw [hs]
      exact hc other expires hp hl hv
    · exact absurd hg hk

theorem Exact.recorded (exact : Exact classifier addr now seen c) (h : Recorded NeverFull classifier host item c c')
    (hk : evicted addr ∉ c'.log) :
    Exact classifier addr now (Function.update seen item.1 (Function.update (seen item.1) host (some item.2))) c' := by
  intro other expires hp hl hv
  by_cases hh : item.1 = addr
  · subst hh
    obtain ⟨call, hi⟩ := h.insertion
    have put : c'.stored item.1 = update (c.stored item.1) host (some ⟨classifier host item.1, item.2, call⟩) := by
      generalize c'.stored item.1 = after at hi
      cases hi with
      | put => rfl
      | keep full | putProxy full | swap _ _ full | refuse _ _ full => exact absurd full id
    rw [update_self, update_apply] at hl
    rw [put, update_apply]
    split at hl
    next hs =>
      rw [if_pos hs]
      exact ⟨_, rfl, Option.some.inj hl⟩
    next ne =>
      rw [if_neg ne]
      exact exact other expires hp hl hv
  · rw [update_of_ne (Ne.symm hh)] at hl
    rcases h.kept.others addr (Ne.symm hh) with hs | ⟨hg, _⟩
    · rw [hs]
      exact exact other expires hp hl hv
    · exact absurd hg hk

theorem notShorter_of_le {old old' : Option Int} (h : notShorter addr now old items = true)
    (le : ∀ o', old' = some o' → ∃ o, old = some o ∧ o' ≤ o) : notShorter addr now old' items = true := by
  induction items generalizing old old' with
  | nil => rfl
  | cons item _ ih =>
    unfold notShorter at h ⊢
    split at h
    next hh =>
      rw [if_pos hh]
      rw [Bool.and_eq_true] at h ⊢
      refine ⟨?_, h.2⟩
      cases old' with
      | none => rfl
      | some o' =>
        obtain ⟨o, rfl, _⟩ := le o' rfl
        have kept : o ≤ item.2 := of_decide_eq_true h.1
        exact decide_eq_true (by omega)
    next he =>
      rw [if_neg he]
      exact ih h le

theorem Records.covered (h : Records full classifier host now c items c')
    (hc : Covered classifier addr now seen c) (hf : Faithful classifier c) (hk : evicted addr ∉ c'.log)
    (hs : classifier host addr = false → notShorter addr now ((c.stored addr host).map Record.expires) items = true) :
    Covered classifier addr now (note host seen items) c' := by
  induction h generalizing seen with
  | nil => exact hc
  | @skip _ _ _ _ hst _ ih =>
    refine ih (hc.skip hst) hf hk ?_
    intro hp
    have hb := hs hp
    unfold notShorter at hb
    rwa [if_neg (by omega)] at hb
  | @step _ c₁ _ item _ hv hfi hr ih =>
    have hk₁ : evicted addr ∉ c₁.log := fun mem => hk (hr.log _ mem)
    refine ih (hc.recorded hf hfi hk₁ ?_) (hfi.faithful hf) hk ?_
    · intro hh hp r ht
      have hb := hs hp
      unfold notShorter at hb
      rw [if_pos ⟨hh, hv⟩, Bool.and_eq_true, ht] at hb
      exact of_decide_eq_true hb.1
    · intro hp
      have hb := hs hp
      unfold notShorter at hb
      by_cases hh : item.1 = addr
      · rw [if_pos ⟨hh, hv⟩, Bool.and_eq_true] at hb
        refine notShorter_of_le hb.2 ?_
        intro _ ht
        obtain ⟨r, hfo, rfl⟩ := Option.map_eq_some_iff.mp ht
        obtain ⟨_, hi⟩ := hfi.insertion
        rw [hh] at hi
        rw [hi.at_host hfo]
        exact ⟨item.2, rfl, le_refl _⟩
      · rw [if_neg (fun h => hh h.1)] at hb
        rcases hfi.kept.others addr (Ne.symm hh) with same | ⟨hg, _⟩
        · rwa [same]
        · exact absurd hg hk₁

theorem Records.exact (h : Records NeverFull classifier host now c items c') (exact : Exact classifier addr now seen c)
    (hk : evicted addr ∉ c'.log) : Exact classifier addr now (note host seen items) c' := by
  induction h generalizing seen with
  | nil => exact exact
  | @skip _ _ _ _ hs _ ih => exact ih (exact.skip hs) hk
  | @step _ c₁ _ _ _ _ hf hr ih =>
    have hk₁ : evicted addr ∉ c₁.log := fun mem => hk (hr.log _ mem)
    exact ih (exact.recorded hf hk₁) hk

end Records

section Expiry

variable {classifier : String → Addr → Bool} {addr : Addr} {tick now later : Int} {c c' : Controller}
  {seen : Addr → String → Option Int}

theorem Faithful.expired (hf : Faithful classifier c) (h : Controller.Expired tick c c') : Faithful classifier c' := by
  intro addr host r ht
  rw [h.stored_eq] at ht
  exact hf addr host r (Option.filter_eq_some_iff.mp ht).1

theorem Covered.expired (hc : Covered classifier addr now seen c) (h : Controller.Expired tick c c')
    (hb : tick ≤ later) (hf : now ≤ later) : Covered classifier addr later seen c' := by
  intro host expires hp hl _
  obtain ⟨other, r, ht, hd, le⟩ := hc host expires hp hl (by omega)
  refine ⟨other, r, ?_, hd, le⟩
  rw [h.stored_eq, ht]
  simp only [Option.filter, decide_eq_true_eq]
  exact if_pos (by omega)

theorem Exact.expired (exact : Exact classifier addr now seen c) (h : Controller.Expired tick c c')
    (hb : tick ≤ later) (hf : now ≤ later) : Exact classifier addr later seen c' := by
  intro host expires hp hl _
  obtain ⟨r, ht, rfl⟩ := exact host expires hp hl (by omega)
  refine ⟨r, ?_, rfl⟩
  rw [h.stored_eq, ht]
  simp only [Option.filter, decide_eq_true_eq]
  exact if_pos (by omega)

theorem Remembered.mono {remembers : String → Int → Prop} (h : Remembered classifier addr now seen remembers)
    (hf : now ≤ later) : Remembered classifier addr later seen remembers :=
  fun host expires hp hl valid => h host expires hp hl (by omega)

end Expiry

structure SameTable (c c' : Controller) : Prop where
  inv : Inv c → Inv c'
  stored_eq : c'.stored = c.stored
  log_eq : c'.log = c.log
  closed_eq : c'.closed = c.closed

theorem SameTable.refl (c : Controller) : SameTable c c := ⟨id, rfl, rfl, rfl⟩

theorem changedSetsLocked_sameTable (orders : Orders) (c : Controller) : SameTable c (c.changedSetsLocked orders).1 := by
  refine ⟨changedSetsLocked_inv orders, ?_, ?_, ?_⟩ <;>
    (unfold changedSetsLocked; simp only []; split <;> rfl)

structure Watched (classifier : String → Addr → Bool) (w : Watch) : Prop where
  inv : Inv w.controller
  live : w.controller.closed = false
  faithful : Faithful classifier w.controller

inductive Moved (classifier : String → Addr → Bool) (w : Watch) (event : Event) (w' : Watch) : Prop
  | mk (full : Controller → Prop) (host : String) (items : List (Addr × Int)) (tick : Int) (c₁ c₂ : Controller)
      (forward : w.clock ≤ w'.clock) (past : tick ≤ w'.clock)
      (aged : Controller.Expired tick w.controller c₁ ∨ c₁ = w.controller)
      (records : Records full classifier host w'.clock c₁ items c₂) (same : SameTable c₂ w'.controller)
      (seen : w'.seen = note host w.seen items)
      (lasting : ∀ addr, steady classifier addr w event = true → classifier host addr = false →
        notShorter addr w'.clock ((w.controller.stored addr host).map Record.expires) items = true)
      (spare : roomy w event = true → Records NeverFull classifier host w'.clock c₁ items c₂)

theorem clampTTL_pos (ttl : Int) : 0 < clampTTL ttl := by
  unfold clampTTL minimumTTL maximumTTL
  split
  · decide
  · split
    · decide
    · omega

theorem refreshed_valid {isFakeIP : Addr → Bool} {now : Int} {answers : List DNSAnswer} :
    ∀ item ∈ refreshed isFakeIP now answers, now < item.2 := by
  intro _ mem
  obtain ⟨answer, _, eq⟩ := mem_filterMap.mp mem
  simp only [] at eq
  split at eq
  · cases eq
  · have hp := clampTTL_pos answer.ttl
    rw [← Option.some.inj eq]
    omega

theorem classify_map (isFakeIP : Addr → Bool) (classifier : Option (String → Addr → Bool)) (call : Nat) (host : String)
    (observedAt : Int) (answers : List DNSAnswer) :
    (classify isFakeIP classifier call host observedAt answers).map (fun item => (item.addr, item.expires)) =
      refreshed isFakeIP observedAt answers := by
  unfold classify refreshed
  rw [map_filterMap]
  congr 1
  funext answer
  simp only []
  split <;> rfl

theorem classify_direct {isFakeIP : Addr → Bool} {classifier : String → Addr → Bool} {call : Nat} {host : String}
    {observedAt : Int} {answers : List DNSAnswer} :
    ∀ item ∈ classify isFakeIP (some classifier) call host observedAt answers, item.direct = classifier host item.addr := by
  intro _ mem
  obtain ⟨_, _, eq⟩ := mem_filterMap.mp mem
  simp only [] at eq
  split at eq
  · cases eq
  · rw [← Option.some.inj eq]; rfl

theorem refreshExistingLocked_cases {c : Controller} (hl : c.closed = false) (isFakeIP : Addr → Bool) (host : String)
    (answers : List DNSAnswer) (now : Int) :
    c.refreshExistingLocked isFakeIP host answers now = (c, false) ∨
      (c.refreshExistingLocked isFakeIP host answers now =
          ((refreshed isFakeIP now answers).foldl (refreshItem host) c, true) ∧
        ∀ item ∈ refreshed isFakeIP now answers, (c.stored item.1 host).isSome) := by
  unfold refreshExistingLocked
  simp only [hl, Bool.false_eq_true, if_false]
  split
  · exact .inl rfl
  · split
    · exact .inl rfl
    · split
      next all =>
        refine .inr ⟨rfl, ?_⟩
        intro item mem
        have hf := all_eq_true.mp all item mem
        cases ht : c.stored item.1 host with
        | none =>
          rw [ht] at hf
          cases hf
        | some => rfl
      · exact .inl rfl

theorem watch_moved {classifier : String → Addr → Bool} {w : Watch} {event : Event} (hw : Watched classifier w)
    (time : timely w event = true) : Moved classifier w event (watch classifier w event) := by
  obtain ⟨inv, live, hfa⟩ := hw
  cases event with
  | refresh isFakeIP host answers now =>
    have hf : w.clock ≤ now := of_decide_eq_true time
    rcases refreshExistingLocked_cases live isFakeIP host answers now with eq | ⟨eq, ht⟩
    · have ha : watch classifier w (.refresh isFakeIP host answers now) = { w with clock := now } := by
        simp only [watch, eq, Bool.false_eq_true, if_false]
      rw [ha]
      exact ⟨NeverFull, host, [], now, _, _, hf, le_refl _, .inr rfl, .nil _, .refl _, rfl, fun _ _ _ => rfl,
        fun _ => .nil _⟩
    · have hr := refresh_records inv hfa ht refreshed_valid
      have ha : watch classifier w (.refresh isFakeIP host answers now) =
          { controller := (refreshed isFakeIP now answers).foldl (refreshItem host) w.controller
            clock := now, seen := note host w.seen (refreshed isFakeIP now answers) } := by
        simp only [watch, eq, if_true]
      rw [ha]
      refine ⟨NeverFull, host, _, now, _, _, hf, le_refl _, .inr rfl, hr, .refl _, rfl, ?_, fun _ => hr⟩
      intro _ hl hp
      simpa [steady, hp] using hl
  | insert orders isFakeIP host answers observedAt now =>
    have hf : w.clock ≤ now := of_decide_eq_true (Bool.and_eq_true_iff.mp time).1
    let items := classify isFakeIP (some classifier) 0 host observedAt answers
    have he := removeExpiredLocked_spec inv orders now
    have hr := insertItems_records now orders items 0 (w.controller.removeExpiredLocked orders now).2
      he.inv classify_direct
    have same : SameTable (insertItems orders host now 0 items (w.controller.removeExpiredLocked orders now)).1
        (w.controller.insertLocked orders w.controller.flushSeq host items now).1 := by
      unfold insertLocked
      rw [if_neg (by simp [live])]
      simp only []
      split
      · exact changedSetsLocked_sameTable orders _
      · exact .refl _
    rw [classify_map] at hr
    refine ⟨FullTable, host, _, now, _, _, hf, le_refl _, .inl he, hr, same, rfl, ?_, ?_⟩
    · intro _ hl hp
      simp only [steady, hp] at hl
      exact hl
    · intro room
      refine hr.roomy ?_
      have bound : w.controller.recordsLen + answers.length ≤ w.controller.maxRecords := of_decide_eq_true room
      have hs : (refreshed isFakeIP observedAt answers).length ≤ answers.length := length_filterMap_le _ _
      have fewer := he.records_le
      have hmr := he.frame.maxRecords
      rw [hmr]
      show _ ≤ w.controller.maxRecords
      omega
  | expire orders tick =>
    obtain ⟨hf, past⟩ := Bool.and_eq_true_iff.mp time
    have he := removeExpiredLocked_spec inv orders tick
    have same : SameTable (w.controller.removeExpiredLocked orders tick).1 (w.controller.tickLocked orders tick).1 := by
      unfold tickLocked
      simp only [live, Bool.false_eq_true, if_false]
      split
      · exact changedSetsLocked_sameTable orders _
      · exact .refl _
    exact ⟨NeverFull, "", [], tick, _, _, of_decide_eq_true hf, of_decide_eq_true past, .inl he, .nil _, same, rfl,
      fun _ _ _ => rfl, fun _ => .nil _⟩

section Moved

variable {classifier : String → Addr → Bool} {w w' : Watch} {event : Event} {addr : Addr}

section

variable (h : Moved classifier w event w')

include h

theorem Moved.watched (hw : Watched classifier w) : Watched classifier w' := by
  obtain ⟨inv, hl, hf⟩ := hw
  obtain ⟨_, _, _, _, c₁, _, _, _, ha, hr, same, _, _, _⟩ := h
  have hs : Inv c₁ ∧ c₁.closed = false ∧ Faithful classifier c₁ := by
    rcases ha with he | rfl
    · exact ⟨he.inv, he.frame.fixed.closed.trans hl, hf.expired he⟩
    · exact ⟨inv, hl, hf⟩
  refine ⟨same.inv (hr.inv hs.1), ?_, ?_⟩
  · rw [same.closed_eq, hr.fixed.closed, hs.2.1]
  · intro x other r ht
    rw [same.stored_eq] at ht
    exact hr.faithful hs.2.2 x other r ht

theorem Moved.log : ∀ mark ∈ w.controller.log, mark ∈ w'.controller.log := by
  obtain ⟨_, _, _, _, _, _, _, _, ha, hr, hs, _, _, _⟩ := h
  intro _ mem
  rw [hs.log_eq]
  apply hr.log
  rcases ha with he | rfl
  · rw [he.frame.log]
    exact mem
  · exact mem

theorem Moved.covered (hw : Watched classifier w)
    (kept : evicted addr ∉ w'.controller.log) (steady : steady classifier addr w event = true)
    (hc : Covered classifier addr w.clock w.seen w.controller) : Covered classifier addr w'.clock w'.seen w'.controller := by
  obtain ⟨_, host, _, _, c₁, c₂, hf, past, ha, hr, same, seen, hl, _⟩ := h
  have hk₂ : evicted addr ∉ c₂.log := by rwa [← same.log_eq]
  have hs : Covered classifier addr w'.clock w.seen c₁ ∧ Faithful classifier c₁ ∧
      ∀ o', (c₁.stored addr host).map Record.expires = some o' →
        ∃ o, (w.controller.stored addr host).map Record.expires = some o ∧ o' ≤ o := by
    rcases ha with he | rfl
    · refine ⟨hc.expired he past hf, hw.faithful.expired he, ?_⟩
      intro _ ht
      rw [he.stored_eq] at ht
      obtain ⟨r, hfo, rfl⟩ := Option.map_eq_some_iff.mp ht
      rw [(Option.filter_eq_some_iff.mp hfo).1]
      exact ⟨r.expires, rfl, le_refl _⟩
    · exact ⟨hc.mono hf, hw.faithful, fun o' ht => ⟨o', ht, le_refl _⟩⟩
  have hd := hr.covered hs.1 hs.2.1 hk₂
    (fun hp => notShorter_of_le (hl addr steady hp) hs.2.2)
  rw [seen]
  intro other expires hp last hv
  rw [same.stored_eq]
  exact hd other expires hp last hv

theorem Moved.exact (kept : evicted addr ∉ w'.controller.log)
    (hr : roomy w event = true) (exact : Exact classifier addr w.clock w.seen w.controller) :
    Exact classifier addr w'.clock w'.seen w'.controller := by
  obtain ⟨_, _, _, _, c₁, c₂, hf, past, ha, _, same, seen, _, hs⟩ := h
  have hk₂ : evicted addr ∉ c₂.log := by rwa [← same.log_eq]
  have hst : Exact classifier addr w'.clock w.seen c₁ := by
    rcases ha with he | rfl
    · exact exact.expired he past hf
    · exact exact.mono hf
  have hd := (hs hr).exact hst hk₂
  rw [seen]
  intro other expires hp hl hv
  rw [same.stored_eq]
  exact hd other expires hp hl hv

end

end Moved

section Runs

variable {classifier : String → Addr → Bool} {w : Watch} {addr : Addr}

theorem mem_log_watchAll (events : List Event) (hw : Watched classifier w) (ht : Throughout classifier timely w events = true)
    {mark : Mark} (mem : mark ∈ w.controller.log) : mark ∈ (watchAll classifier events w).controller.log := by
  induction events generalizing w with
  | nil => exact mem
  | cons _ _ ih =>
    unfold Throughout at ht
    rw [Bool.and_eq_true] at ht
    have hm := watch_moved hw ht.1
    exact ih (hm.watched hw) ht.2 (hm.log mark mem)

/-- What every event keeps is kept by a run, as long as the address is not evicted in it. -/
theorem watchAll_invariant (keeps : Watch → Prop) {holds : Watch → Event → Bool} (events : List Event)
    (step : ∀ w event, Watched classifier w → timely w event = true → holds w event = true →
      evicted addr ∉ (watch classifier w event).controller.log → keeps w → keeps (watch classifier w event))
    (hw : Watched classifier w) (ht : Throughout classifier timely w events = true)
    (all : Throughout classifier holds w events = true)
    (hk : evicted addr ∉ (watchAll classifier events w).controller.log) (hs : keeps w) :
    Watched classifier (watchAll classifier events w) ∧ keeps (watchAll classifier events w) := by
  induction events generalizing w with
  | nil => exact ⟨hw, hs⟩
  | cons event events ih =>
    unfold Throughout at ht all
    rw [Bool.and_eq_true] at ht all
    have hm := watch_moved hw ht.1
    have hn := hm.watched hw
    have hk₁ : evicted addr ∉ (watch classifier w event).controller.log :=
      fun mem => hk (mem_log_watchAll events hn ht.2 mem)
    exact ih hn ht.2 all.2 hk (step w event hw ht.1 all.1 hk₁ hs)

theorem not_mem_direct {c : Controller} (inv : Inv c) (orders : Orders) {host : String} {r : Record}
    (ht : c.stored addr host = some r) (hp : r.direct = false) : addr ∉ (c.buildSetsLocked orders).direct := by
  intro mem
  unfold buildSetsLocked at mem
  simp only [mem_toFinset, mem_map, mem_filter] at mem
  obtain ⟨e, ⟨he, hd⟩, rfl⟩ := mem
  have hh := GoMap.mem_entries_iff.mp he
  rw [stored_of_lookup hh] at ht
  have hv := inv.table.valid e.1 e.2 hh
  have hf := (AddressRecords.proxyOrDirect_fst (orders.address e.1) hv).mpr ⟨host, r, ht, hp⟩
  rw [hf] at hd
  cases hd

theorem watched_register (classifier : String → Addr → Bool) {maxEntries : Nat} (hp : 0 < maxEntries) (began : Int) :
    Watched classifier (.start maxEntries began) :=
  ⟨register_inv hp, rfl, nofun⟩

/-- PROXY wins in every run in which no observation shortens the time kept for a PROXY host of the
address, and in every run in which the table of records always has room. -/
theorem proxy_wins {maxEntries : Nat} (positive : 0 < maxEntries) (began : Int) (events : List Event)
    (time : Throughout classifier timely (.start maxEntries began) events = true)
    (orderly : Throughout classifier (steady classifier addr) (.start maxEntries began) events = true ∨
      Throughout classifier roomy (.start maxEntries began) events = true) (kept : Mark.evicted addr ∉
      (watchAll classifier events (.start maxEntries began)).controller.log)
    (host : String) {expires : Int} (proxy : classifier host addr = false)
    (last : (watchAll classifier events (.start maxEntries began)).seen addr host = some expires)
    (valid : (watchAll classifier events (.start maxEntries began)).clock < expires) (orders : Orders) :
    addr ∉ ((watchAll classifier events (.start maxEntries began)).controller.buildSetsLocked orders).direct := by
  have start := watched_register classifier positive began
  rcases orderly with steady | room
  · obtain ⟨hw, hc⟩ := watchAll_invariant (fun w => Covered classifier addr w.clock w.seen w.controller)
      events (fun w event hw time steady kept hc => (watch_moved hw time).covered hw kept steady hc)
      start time steady kept (nofun)
    obtain ⟨_, r, ht, direct, _⟩ := hc host expires proxy last valid
    exact not_mem_direct hw.inv orders ht direct
  · obtain ⟨hw, exact⟩ := watchAll_invariant (fun w => Exact classifier addr w.clock w.seen w.controller)
      events (fun w event hw time room kept exact => (watch_moved hw time).exact kept room exact)
      start time room kept (nofun)
    obtain ⟨r, ht, _⟩ := exact host expires proxy last valid
    exact not_mem_direct hw.inv orders ht ((hw.faithful addr host r ht).trans proxy)

end Runs

section Sample

def sampleClassifier : String → Addr → Bool := fun host _ => host == "d"

def sampleAddr : Addr := .v4 0x01010101#32

/-- A response with one answer that lasts `ttl` seconds: the attempt to refresh, then the insert. -/
def sampleNew (host : String) (second ttl : Int) : List Event :=
  [.refresh (fun _ => false) host [⟨sampleAddr, ttl * 1000000000⟩] (second * 1000000000),
    .insert plainOrders (fun _ => false) host [⟨sampleAddr, ttl * 1000000000⟩] (second * 1000000000) (second * 1000000000)]

def sampleAgain (host : String) (second ttl : Int) : List Event :=
  [.refresh (fun _ => false) host [⟨sampleAddr, ttl * 1000000000⟩] (second * 1000000000)]

def sampleFill : List Event := ["p1", "p2", "p3", "p4", "p5"].flatMap fun host => sampleNew host 0 100

def sampleShorten : List Event :=
  sampleFill ++ (["p2", "p3", "p4", "p5"].flatMap fun host => sampleAgain host 10 1) ++ sampleNew "d" 12 50

theorem proxy_wins_sample :
    Throughout sampleClassifier timely (.start 1 0) sampleFill = true ∧
      Throughout sampleClassifier (steady sampleClassifier sampleAddr) (.start 1 0) sampleFill = true ∧
      (watchAll sampleClassifier sampleFill (.start 1 0)).controller.stored sampleAddr "p1" = none ∧
      sampleAddr ∉ ((watchAll sampleClassifier sampleFill (.start 1 0)).controller.buildSetsLocked plainOrders).direct := by
  have ht : Throughout sampleClassifier timely (.start 1 0) sampleFill = true := by decide +kernel
  have hl : Throughout sampleClassifier (steady sampleClassifier sampleAddr) (.start 1 0) sampleFill = true := by
    decide +kernel
  have hk : evicted sampleAddr ∉ (watchAll sampleClassifier sampleFill (.start 1 0)).controller.log := by decide +kernel
  have last : (watchAll sampleClassifier sampleFill (.start 1 0)).seen sampleAddr "p1" = some (100 * 1000000000) := by
    decide +kernel
  have hv : (watchAll sampleClassifier sampleFill (.start 1 0)).clock < 100 * 1000000000 := by decide +kernel
  exact ⟨ht, hl, by decide +kernel,
    proxy_wins (by decide) 0 sampleFill ht (.inl hl) hk "p1" (by decide) last hv plainOrders⟩

/-- `p1` was last seen with 100 seconds and is PROXY, and at second 12 the address is DIRECT. -/
theorem shortened_substitute_loses_proxy :
    Throughout sampleClassifier timely (.start 1 0) sampleShorten = true ∧
      Mark.evicted sampleAddr ∉ (watchAll sampleClassifier sampleShorten (.start 1 0)).controller.log ∧
      sampleClassifier "p1" sampleAddr = false ∧
      (watchAll sampleClassifier sampleShorten (.start 1 0)).seen sampleAddr "p1" = some (100 * 1000000000) ∧
      (watchAll sampleClassifier sampleShorten (.start 1 0)).clock = 12 * 1000000000 ∧
      sampleAddr ∈ ((watchAll sampleClassifier sampleShorten (.start 1 0)).controller.buildSetsLocked plainOrders).direct := by
  decide +kernel

end Sample

end AsterCore.KernelDirect
