import AsterCore.DirectInsert

namespace AsterCore.KernelDirect

open Controller

namespace Controller

variable {c : Controller}

theorem insertItems_inv (orders : Orders) (host : String) (now : Int) (items : List Classified) (i : Nat) (dirty : Bool)
    (inv : Inv c) : Inv (insertItems orders host now i items (c, dirty)).1 := by
  induction items generalizing c i dirty with
  | nil => exact inv
  | cons item _ ih =>
    have hn : Inv (insertItem (orders.item i) host now (c, dirty) item).1 := by
      by_cases hv : now < item.expires
      · exact (insertItem_spec inv (orders.item i) host dirty hv).1
      · have hs : insertItem (orders.item i) host now (c, dirty) item = (c, dirty) := if_pos (by omega)
        rw [hs]
        exact inv
    exact ih (i + 1) (insertItem (orders.item i) host now (c, dirty) item).2 hn

theorem Inv.frame {c' : Controller} (inv : Inv c) (hr : c'.records = c.records) (hn : c'.nodes = c.nodes)
    (hf : c'.fresh = c.fresh) (hrl : c'.recordsLen = c.recordsLen) (lru : c'.lru = c.lru) (log : c'.log = c.log)
    (hne : c'.nextExpiry = c.nextExpiry) (hme : c'.maxEntries = c.maxEntries)
    (hmr : c'.maxRecords = c.maxRecords) : Inv c' := by
  refine ⟨inv.table.frame hr hn hf hrl lru log, ?_, ?_, ?_, ?_, ?_⟩
  · rw [hr, hn]
    exact inv.filled
  · rw [hrl, hmr]
    exact inv.records_le
  · rw [hr, hme]
    exact inv.entries_le
  · intro addr host r ht
    unfold stored at ht
    rw [hr, hn] at ht
    rw [hne]
    exact inv.bounded addr host r ht
  · rw [hme, hmr]
    exact inv.sized

theorem changedSetsLocked_inv (orders : Orders) (inv : Inv c) : Inv (c.changedSetsLocked orders).1 := by
  unfold changedSetsLocked
  simp only []
  split
  · exact inv
  · exact Inv.frame inv rfl rfl rfl rfl rfl rfl rfl rfl rfl

theorem insertLocked_inv (orders : Orders) (flushSeq : Nat) (host : String) (items : List Classified) (now : Int)
    (inv : Inv c) : Inv (c.insertLocked orders flushSeq host items now).1 := by
  have he := (removeExpiredLocked_spec inv orders now).inv
  have hi := insertItems_inv orders host now items 0 (c.removeExpiredLocked orders now).2 he
  unfold insertLocked
  split
  · exact inv
  · simp only []
    split
    · exact changedSetsLocked_inv orders hi
    · exact hi

theorem tickLocked_inv (orders : Orders) (now : Int) (inv : Inv c) : Inv (c.tickLocked orders now).1 := by
  have he := (removeExpiredLocked_spec inv orders now).inv
  unfold tickLocked
  split
  · exact inv
  · simp only []
    split
    · exact changedSetsLocked_inv orders he
    · exact he

theorem refreshItem_spec (inv : Inv c) {host : String} (item : Addr × Int) {prev : Record}
    (ht : c.stored item.1 host = some prev) :
    Inv (refreshItem host c item) ∧ Kept 1 item.1 c (refreshItem host c item) ∧
      (∀ x, x ≠ item.1 → (refreshItem host c item).stored x = c.stored x) ∧
      (refreshItem host c item).stored item.1 =
        Function.update (c.stored item.1) host (some { prev with expires := item.2 }) := by
  obtain ⟨ref, hh, hf⟩ := Option.bind_eq_some_iff.mp ht
  let new : Classified := { addr := item.1, expires := item.2, direct := prev.direct, call := prev.call }
  have eq : refreshItem host c item = (c.recordLocked host new ref).1 := by
    unfold refreshItem recordLocked
    simp only [hh, hf]
    have hw : (c.nodes ref).setExisting host { prev with expires := item.2 } =
        ((c.nodes ref).upsert host { prev with expires := item.2 }).1 := AddressRecords.setExisting_eq hf
    have hb : ((c.nodes ref).upsert host { prev with expires := item.2 }).2 = some prev :=
      (AddressRecords.upsert_prev host _).trans hf
    simp only [setNode, touchLocked, hw, new, hb, Option.isSome_some, if_true]
  have hr := ready_of_lookup inv hh (.inl (by rw [hf]; rfl))
  rw [eq]
  exact recordLocked_spec new hr

theorem refreshItem_inv (host : String) (item : Addr × Int) (inv : Inv c) : Inv (refreshItem host c item) := by
  cases ht : c.stored item.1 host with
  | some => exact (refreshItem_spec inv item ht).1
  | none =>
    unfold refreshItem
    split
    · exact inv
    next hh =>
      unfold stored at ht
      rw [hh, Option.bind_some] at ht
      simp only [ht]
      exact inv

theorem refreshExistingLocked_inv (isFakeIP : Addr → Bool) (host : String) (answers : List DNSAnswer) (now : Int)
    (inv : Inv c) : Inv (c.refreshExistingLocked isFakeIP host answers now).1 := by
  have hl : ∀ (items : List (Addr × Int)) (c : Controller), Inv c → Inv (items.foldl (refreshItem host) c) := by
    intro items
    induction items with
    | nil => exact fun _ inv => inv
    | cons item _ ih => exact fun c inv => ih _ (refreshItem_inv host item inv)
  unfold refreshExistingLocked
  split
  · exact inv
  · split
    · exact inv
    · simp only []
      split
      · exact inv
      · split
        · exact hl _ c inv
        · exact inv

theorem flushLocked_inv (inv : Inv c) : Inv c.flushLocked.1 := by
  unfold flushLocked
  split
  · exact inv
  · have hs := inv.sized
    refine ⟨⟨?_, ?_, ?_, rfl, ?_, inv.table.unclamped⟩, ?_, Nat.zero_le _, Nat.zero_le _, ?_, hs⟩
    · exact .empty _
    · exact nofun
    · refine ⟨[], ⟨List.nodup_nil, trivial, rfl, rfl⟩, fun ref => ⟨fun mem => absurd mem List.not_mem_nil, ?_⟩⟩
      rintro ⟨_, ht⟩
      cases ht
    · exact nofun
    · exact nofun
    · exact nofun

theorem flush_inv (inv : Inv c) : Inv c.flush :=
  flushLocked_inv (Inv.frame inv rfl rfl rfl rfl rfl rfl rfl rfl rfl)

theorem register_inv {maxEntries : Nat} (hp : 0 < maxEntries) : Inv (register maxEntries) := by
  refine ⟨.register maxEntries, ?_, Nat.zero_le _, Nat.zero_le _, ?_, hp, rfl⟩
  · exact nofun
  · exact nofun

end Controller

/-- The steps of a controller, each with what it reads from outside. `refresh` and `insert` are
the two locked parts of an `observe`, between which other steps may come. -/
inductive Op
  | observe (orders : Orders) (isFakeIP : Addr → Bool) (classifier : Option (String → Addr → Bool)) (call : Nat)
      (host : String) (answers : List DNSAnswer) (refreshAt observedAt now : Int)
  | refresh (isFakeIP : Addr → Bool) (host : String) (answers : List DNSAnswer) (now : Int)
  | insert (orders : Orders) (flushSeq : Nat) (host : String) (items : List Classified) (now : Int)
  | expire (orders : Orders) (now : Int)
  | flush
  | close

def perform (c : Controller) : Op → Controller
  | .observe orders isFakeIP classifier call host answers refreshAt observedAt now =>
    c.observe orders isFakeIP classifier call host answers refreshAt observedAt now
  | .refresh isFakeIP host answers now => (c.refreshExistingLocked isFakeIP host answers now).1
  | .insert orders flushSeq host items now => (c.insertLocked orders flushSeq host items now).1
  | .expire orders now => (c.tickLocked orders now).1
  | .flush => c.flush
  | .close => { c with flushSeq := c.flushSeq + 1, closed := true, generation := c.generation + 1 }

def run (ops : List Op) (c : Controller) : Controller := ops.foldl perform c

theorem perform_inv {c : Controller} (op : Op) (inv : Inv c) : Inv (perform c op) := by
  cases op with
  | observe orders isFakeIP classifier call host answers refreshAt observedAt now =>
    have hr := refreshExistingLocked_inv isFakeIP host answers refreshAt inv
    show Inv (c.observe orders isFakeIP classifier call host answers refreshAt observedAt now)
    unfold observe
    generalize c.refreshExistingLocked isFakeIP host answers refreshAt = result at hr
    obtain ⟨_, handled⟩ := result
    cases handled with
    | true => exact hr
    | false => exact insertLocked_inv orders _ host _ now hr
  | refresh isFakeIP host answers now => exact refreshExistingLocked_inv isFakeIP host answers now inv
  | insert orders flushSeq host items now => exact insertLocked_inv orders flushSeq host items now inv
  | expire orders now => exact tickLocked_inv orders now inv
  | flush => exact flush_inv inv
  | close => exact Controller.Inv.frame inv rfl rfl rfl rfl rfl rfl rfl rfl rfl

theorem run_inv (ops : List Op) {c : Controller} (inv : Inv c) : Inv (run ops c) := by
  induction ops generalizing c with
  | nil => exact inv
  | cons op _ ih => exact ih (perform_inv op inv)

/-- The representation invariant holds after every run, and expiry leaves nothing that has expired. -/
theorem representation_invariant {maxEntries : Nat} (positive : 0 < maxEntries) (ops : List Op) :
    Inv (run ops (register maxEntries)) ∧
      ∀ orders now addr host r,
        ((run ops (register maxEntries)).removeExpiredLocked orders now).1.stored addr host = some r → now < r.expires := by
  have inv := run_inv ops (register_inv positive)
  refine ⟨inv, ?_⟩
  intro orders now _ _ r ht
  rw [(removeExpiredLocked_spec inv orders now).stored_eq, Option.filter_eq_some_iff] at ht
  exact of_decide_eq_true ht.2

def plainOrder : HostOrder := ⟨fun m => m.entries, fun _ => .refl _⟩

def plainOrders : Orders := ⟨fun _ => plainOrder, fun _ => ⟨plainOrder, plainOrder, plainOrder⟩⟩

/-- An observation of one address, `ttl` seconds long, at second `at` of a controller whose only
DIRECT host is `d`. -/
def sampleObserve (host : String) (second ttl : Int) : Op :=
  .observe plainOrders (fun _ => false) (some fun host _ => host == "d") 0 host [⟨.v4 0x01010101#32, ttl * 1000000000⟩]
    (second * 1000000000) (second * 1000000000) (second * 1000000000)

/-- Four PROXY hosts fill a table of one address, and a fifth takes the place of the first. -/
def sampleFull : List Op := ["p1", "p2", "p3", "p4", "p5"].map fun host => sampleObserve host 0 100

theorem representation_invariant_sample :
    0 < 1 ∧ Inv (run sampleFull (register 1)) ∧ (run sampleFull (register 1)).recordsLen = 4 :=
  ⟨by decide, (representation_invariant (by decide) sampleFull).1, by decide +kernel⟩

end AsterCore.KernelDirect
