import AsterCore.FakeipPool

namespace AsterCore.Fakeip

/-- A bucket of `bbolt`, with what its documentation says of the calls. `put` gives nothing for the keys and values that it
refuses. -/
class Bbolt (B : Type) where
  empty : B
  get : B → List UInt8 → Option (List UInt8)
  put : B → List UInt8 → List UInt8 → Option B
  delete : B → List UInt8 → B
  maxKeySize : Nat
  maxValueSize : Nat
  sizes : 18 ≤ maxKeySize ∧ 16 ≤ maxValueSize
  get_empty : ∀ k, get empty k = none
  get_blank : ∀ b, get b [] = none
  put_refused : ∀ b key value, put b key value = none ↔ key = [] ∨ maxKeySize < key.length ∨ maxValueSize < value.length
  get_put : ∀ b key value b', put b key value = some b' → ∀ k, get b' k = if k = key then some value else get b k
  get_delete : ∀ b key k, get (delete b key) k = if k = key then none else get b k

open GoBinary Bbolt

variable {B : Type} [Bbolt B]

namespace FakeIpStore

/-- A write; what is refused is logged and changes nothing. -/
def write (b : B) (key value : List UInt8) : B := (put b key value).getD b

def getByHost (b : B) (host : List UInt8) : Option Addr := (get b host).bind addrFromSlice

def putByHost (b : B) (host : List UInt8) (ip : Addr) : B := write b host ip.asSlice

def getByIP (b : B) (ip : Addr) : Option (List UInt8) := get b ip.asSlice

def putByIP (b : B) (ip : Addr) (host : List UInt8) : B := write b ip.asSlice host

def delByIP (b : B) (ip : Addr) : B :=
  match get b ip.asSlice with
  | none => delete b ip.asSlice
  | some host => if host = [] then delete b ip.asSlice else delete (delete b ip.asSlice) host

def store : Store (List UInt8) B where
  getByHost := fun b host => (b, getByHost b host)
  putByHost := putByHost
  getByIP := fun b ip => (b, getByIP b ip)
  putByIP := putByIP
  delByIP := delByIP
  exist := fun b ip => (getByIP b ip).isSome
  flushFakeIP := fun _ => .ok empty

end FakeIpStore

def offsetKey : List UInt8 := "key-offset-fake-ip".toList.map fun c => UInt8.ofNat c.toNat

def cycleKey : List UInt8 := "key-cycle-fake-ip".toList.map fun c => UInt8.ofNat c.toNat

namespace Pool

open FakeIpStore

def storeState (p : Pool) (b : B) : B :=
  let b := putByHost b offsetKey p.offset
  if p.cycle then putByHost b cycleKey p.offset else b

def drops (p : Pool) (b : B) : Bool :=
  match getByHost b offsetKey with
  | some offset => !p.ipnet.contains offset
  | none => (getByIP b p.first).isSome

def restoreState (p : Pool) (b : B) : Pool × B :=
  let p := if (getByHost b cycleKey).isSome then { p with cycle := true } else p
  match getByHost b offsetKey with
  | some offset => if p.ipnet.contains offset then ({ p with offset }, b) else p.flushFakeIP store b
  | none => if (getByIP b p.first).isSome then p.flushFakeIP store b else (p, b)

end Pool

/-- The cache file, with a bucket for IPv6 pools and one for the others, and the pool of the process. -/
structure Process (B : Type) [Bbolt B] where
  file : Bool → B := fun _ => empty
  pool : Option Pool := none

inductive FileOp
  | start (ipnet : Prefix)
  | lookup (host : List UInt8)
  | storeState
  | flushFakeIP

namespace Process

def bucket (s : Process B) (p : Pool) : B := s.file p.ipnet.addr.is6

def write (s : Process B) (p : Pool) (b : B) : Process B :=
  { file := fun six => if six = p.ipnet.addr.is6 then b else s.file six, pool := some p }

def lookup (toLower : List UInt8 → List UInt8) (s : Process B) (host : List UInt8) : Process B × Option Addr :=
  match s.pool with
  | none => (s, none)
  | some p =>
    let (p', b, ip) := p.lookup FakeIpStore.store toLower (s.bucket p) host
    (s.write p' b, some ip)

def lookBack (s : Process B) (ip : Addr) : Option (List UInt8) := s.pool.bind fun p => FakeIpStore.getByIP (s.bucket p) ip

def step (netipx : Netipx) (toLower : List UInt8 → List UInt8) (s : Process B) : FileOp → Process B
  | .start ipnet =>
    match Pool.new netipx ipnet with
    | .error _ => s
    | .ok p =>
      let (p', b) := p.restoreState (s.bucket p)
      s.write p' b
  | .lookup host => (s.lookup toLower host).1
  | .storeState =>
    match s.pool with
    | none => s
    | some p => s.write p (p.storeState (s.bucket p))
  | .flushFakeIP =>
    match s.pool with
    | none => s
    | some p =>
      let (p', b) := p.flushFakeIP FakeIpStore.store (s.bucket p)
      s.write p' b

end Process

def Pool.AddressKey (p : Pool) (key : List UInt8) : Prop := ∃ ip, p.InRange ip ∧ key = ip.asSlice

structure Pool.Name (p : Pool) (host : List UInt8) : Prop where
  offset : host ≠ offsetKey
  cycle : host ≠ cycleKey
  other : ¬ p.AddressKey host

structure Fits (b : B) (p : Pool) : Prop where
  name : ∀ host, p.Name host → ∀ ip, FakeIpStore.getByHost b host = some ip → p.InRange ip ∧ get b ip.asSlice = some host
  address : ∀ ip, p.InRange ip → ∀ host, get b ip.asSlice = some host → p.Name host
  offset : ∀ ip, FakeIpStore.getByHost b offsetKey = some ip → ip.zone = "" ∧ p.first.order ≤ ip.order + 1 ∧ ip.order < p.last.order

def Admissible (netipx : Netipx) (toLower : List UInt8 → List UInt8) (s : Process B) : FileOp → Prop
  | .start ipnet => ∀ p, Pool.new netipx ipnet = .ok p → p.drops (s.bucket p) = true ∨
      (∃ old, s.pool = some old ∧ old.ipnet.addr.is6 = p.ipnet.addr.is6 ∧ old.first = p.first ∧ old.last = p.last) ∨ Fits (s.bucket p) p
  | .lookup host => ∀ p, s.pool = some p → p.Name (toLower host) ∧ (toLower host).length ≤ maxValueSize B
  | .storeState => True
  | .flushFakeIP => True

inductive Reachable (netipx : Netipx) (toLower : List UInt8 → List UInt8) : Process B → Prop
  | new : Reachable netipx toLower {}
  | step {s : Process B} (h : Reachable netipx toLower s) (op : FileOp) (fine : Admissible netipx toLower s op) :
    Reachable netipx toLower (s.step netipx toLower op)

theorem length_asSlice (ip : Addr) : ip.asSlice.length = 0 ∨ ip.asSlice.length = 4 ∨ ip.asSlice.length = 16 := by
  cases ip with
  | invalid => exact .inl rfl
  | v4 => exact .inr (.inl (length_bigEndian _ _))
  | v6 => exact .inr (.inr (length_bigEndian _ _))

theorem length_offsetKey : offsetKey.length = 18 := by decide

theorem length_cycleKey : cycleKey.length = 17 := by decide

theorem asSlice_ne_markers (ip : Addr) : ip.asSlice ≠ offsetKey ∧ ip.asSlice ≠ cycleKey := by
  have hl := length_asSlice ip
  have first := length_offsetKey
  have hs := length_cycleKey
  refine ⟨fun eq => ?_, fun eq => ?_⟩
  · rw [eq] at hl
    omega
  · rw [eq] at hl
    omega

variable {netipx : Netipx} {ip : Addr} {p : Pool}

theorem isValid_of_order (positive : 0 < ip.order) : ip.isValid = true := by
  cases ip with
  | invalid => exact absurd positive (Nat.lt_irrefl 0)
  | v4 bits | v6 bits zone => rfl

theorem Pool.Sound.valid_of_inRange (h : p.Sound) (hi : p.InRange ip) : ip.isValid = true ∧ ip.zone = "" := by
  obtain ⟨zone, low, _⟩ := (h.inRange_iff ip).mp hi
  have first := h.first
  exact ⟨isValid_of_order (by omega), zone⟩

theorem asSlice_ne_nil (hs : p.Sound) (hi : p.InRange ip) : ip.asSlice ≠ [] := by
  intro he
  obtain ⟨hv, hz⟩ := hs.valid_of_inRange hi
  have eq := addrFromSlice_asSlice hv hz
  rw [he] at eq
  cases eq

variable {b : B}

theorem get_write {key value : List UInt8} (hn : key ≠ []) (short : key.length ≤ maxKeySize B)
    (small : value.length ≤ maxValueSize B) (k : List UInt8) :
    get (FakeIpStore.write b key value) k = if k = key then some value else get b k := by
  unfold FakeIpStore.write
  cases done : put b key value with
  | none =>
    rcases (put_refused b key value).mp done with he | _ | _
    · exact absurd he hn
    · omega
    · omega
  | some b' => exact get_put b key value b' done k

theorem get_write_address (hso : p.Sound) (hi : p.InRange ip) {host : List UInt8}
    (hs : host.length ≤ maxValueSize B) (k : List UInt8) :
    get (FakeIpStore.write b ip.asSlice host) k = if k = ip.asSlice then some host else get b k := by
  have hl := length_asSlice ip
  have := sizes (B := B)
  exact get_write (asSlice_ne_nil hso hi) (by omega) hs k

theorem get_delByIP (b : B) (ip : Addr) (k : List UInt8) :
    get (FakeIpStore.delByIP b ip) k = if k = ip.asSlice ∨ get b ip.asSlice = some k then none else get b k := by
  unfold FakeIpStore.delByIP
  cases found : get b ip.asSlice with
  | none => simp [get_delete]
  | some host =>
    by_cases he : host = []
    · have hk := get_blank b
      by_cases hs : k = ip.asSlice
      · simp [get_delete, he, hs]
      · by_cases hb : [] = k
        · rw [← hb] at hs ⊢
          simp [get_delete, he, hk]
        · simp [get_delete, he, hb]
    · by_cases hs : k = ip.asSlice
      · simp [get_delete, he, hs]
      · by_cases own : k = host
        · simp [get_delete, he, own]
        · simp [get_delete, he, own, Ne.symm own]

namespace Fits

variable {b : B} {p : Pool}

theorem empty (p : Pool) : Fits (Bbolt.empty : B) p := by
  have none : ∀ {k v}, get (Bbolt.empty : B) k ≠ some v := by simp [get_empty]
  refine ⟨fun key _ ip hf => ?_, fun ip _ host hf => (none hf).elim, fun ip hf => ?_⟩
  · obtain ⟨v, ht, _⟩ := Option.bind_eq_some_iff.mp hf
    exact (none ht).elim
  · obtain ⟨v, ht, _⟩ := Option.bind_eq_some_iff.mp hf
    exact (none ht).elim

theorem congr {q : Pool} (h : Fits b p) (hfi : p.first = q.first) (hl : p.last = q.last) : Fits b q := by
  have hr : ∀ ip, p.InRange ip ↔ q.InRange ip := fun ip => by
    unfold Pool.InRange
    rw [hfi, hl]
  have hn : ∀ {host}, p.Name host ↔ q.Name host := by
    intro host
    have hk : p.AddressKey host ↔ q.AddressKey host := exists_congr fun ip => and_congr_left' (hr ip)
    exact ⟨fun n => ⟨n.offset, n.cycle, fun key => n.other (hk.mpr key)⟩, fun n => ⟨n.offset, n.cycle, fun key => n.other (hk.mp key)⟩⟩
  refine ⟨fun host n ip hf => ?_, fun ip hi host hf => ?_, fun ip hf => ?_⟩
  · obtain ⟨hi, hb⟩ := h.name host (hn.mpr n) ip hf
    exact ⟨(hr ip).mp hi, hb⟩
  · exact hn.mp (h.address ip ((hr ip).mpr hi) host hf)
  · rw [← hfi, ← hl]
    exact h.offset ip hf

variable {ip : Addr} {host : List UInt8}

section

variable (h : Fits b p)

include h

theorem delByIP (hi : p.InRange ip) : Fits (FakeIpStore.delByIP b ip) p ∧ get (FakeIpStore.delByIP b ip) ip.asSlice = none := by
  have hk : ∀ {k v}, get (FakeIpStore.delByIP b ip) k = some v → k ≠ ip.asSlice ∧ get b ip.asSlice ≠ some k ∧ get b k = some v := by
    intro k v hf
    rw [get_delByIP] at hf
    split at hf
    · cases hf
    next hg =>
      rw [not_or] at hg
      exact ⟨hg.1, hg.2, hf⟩
  refine ⟨⟨fun host name ip' hf => ?_, fun ip' hi' host hf => ?_, fun ip' hf => ?_⟩, ?_⟩
  · obtain ⟨v, ht, hp⟩ := Option.bind_eq_some_iff.mp hf
    obtain ⟨_, hb, old⟩ := hk ht
    obtain ⟨hi', back⟩ := h.name host name ip' (Option.bind_eq_some_iff.mpr ⟨v, old, hp⟩)
    refine ⟨hi', ?_⟩
    rw [get_delByIP, if_neg, back]
    rintro (hs | hn)
    · exact hb (hs ▸ back)
    · exact (h.address ip hi _ hn).other ⟨ip', hi', rfl⟩
  · exact h.address ip' hi' host (hk hf).2.2
  · obtain ⟨v, ht, hp⟩ := Option.bind_eq_some_iff.mp hf
    exact h.offset ip' (Option.bind_eq_some_iff.mpr ⟨v, (hk ht).2.2, hp⟩)
  · rw [get_delByIP, if_pos (.inl rfl)]

section

variable (sound : p.Sound)

include sound

theorem putByIP (hi : p.InRange ip) (free : get b ip.asSlice = none)
    (hn : p.Name host) (hs : host.length ≤ maxValueSize B) :
    Fits (FakeIpStore.putByIP b ip host) p ∧ get (FakeIpStore.putByIP b ip host) ip.asSlice = some host := by
  have read : ∀ k, get (FakeIpStore.putByIP b ip host) k = if k = ip.asSlice then some host else get b k :=
    get_write_address sound hi hs
  refine ⟨⟨fun host' hn' ip' hf => ?_, fun ip' hi' host' hf => ?_, fun ip' hf => ?_⟩, by rw [read, if_pos rfl]⟩
  · have ho : host' ≠ ip.asSlice := fun eq => hn'.other ⟨ip, hi, eq⟩
    rw [FakeIpStore.getByHost, read, if_neg ho] at hf
    obtain ⟨hi', hb⟩ := h.name host' hn' ip' hf
    refine ⟨hi', ?_⟩
    rw [read, if_neg, hb]
    intro same
    rw [same, free] at hb
    cases hb
  · rw [read] at hf
    split at hf
    · cases hf
      exact hn
    · exact h.address ip' hi' host' hf
  · rw [FakeIpStore.getByHost, read, if_neg (asSlice_ne_markers ip).1.symm] at hf
    exact h.offset ip' hf

theorem putByHost (hi : p.InRange ip) (hn : p.Name host) (hb : get b ip.asSlice = some host) :
    Fits (FakeIpStore.putByHost b host ip) p ∧ get (FakeIpStore.putByHost b host ip) ip.asSlice = some host := by
  by_cases hr : host = [] ∨ maxKeySize B < host.length ∨ maxValueSize B < ip.asSlice.length
  · rw [FakeIpStore.putByHost, FakeIpStore.write, (put_refused b host ip.asSlice).mpr hr]
    exact ⟨h, hb⟩
  · have read : ∀ k, get (FakeIpStore.putByHost b host ip) k = if k = host then some ip.asSlice else get b k := by
      rw [not_or, not_or, Nat.not_lt, Nat.not_lt] at hr
      exact get_write hr.1 hr.2.1 hr.2.2
    have ha : ∀ {ip'}, p.InRange ip' → get (FakeIpStore.putByHost b host ip) ip'.asSlice = get b ip'.asSlice := by
      intro ip' hi'
      rw [read, if_neg fun eq => hn.other ⟨ip', hi', eq.symm⟩]
    refine ⟨⟨fun host' hn' ip' hf => ?_, fun ip' hi' host' hf => ?_, fun ip' hf => ?_⟩, by rw [ha hi, hb]⟩
    · rw [FakeIpStore.getByHost, read] at hf
      split at hf
      next hs =>
        obtain ⟨hv, hz⟩ := sound.valid_of_inRange hi
        rw [Option.bind_some, addrFromSlice_asSlice hv hz] at hf
        cases hf
        exact ⟨hi, by rw [ha hi, hb, hs]⟩
      · obtain ⟨hi', back⟩ := h.name host' hn' ip' hf
        exact ⟨hi', by rw [ha hi', back]⟩
    · rw [ha hi'] at hf
      exact h.address ip' hi' host' hf
    · rw [FakeIpStore.getByHost, read, if_neg hn.offset.symm] at hf
      exact h.offset ip' hf

theorem lookup (toLower : List UInt8 → List UInt8) (hn : p.Name (toLower host))
    (hs : (toLower host).length ≤ maxValueSize B) :
    ∃ p' b' ip, p.lookup FakeIpStore.store toLower b host = (p', b', ip) ∧ p'.Sound ∧ Fits b' p' ∧ p.InRange ip ∧
      get b' ip.asSlice = some (toLower host) := by
  cases hf : FakeIpStore.getByHost b (toLower host) with
  | some ip =>
    obtain ⟨hi, back⟩ := h.name _ hn ip hf
    exact ⟨p, b, ip, by simp only [Pool.lookup, FakeIpStore.store, hf], sound, h, hi, back⟩
  | none =>
    obtain ⟨hfi, hl⟩ : p.advance.first = p.first ∧ p.advance.last = p.last := by
      unfold Pool.advance
      split
      · exact ⟨rfl, rfl⟩
      · exact ⟨rfl, rfl⟩
    obtain ⟨hs', hh⟩ := sound.advance
    have hi : p.InRange p.advance.offset := by
      unfold Pool.InRange at hh ⊢
      rw [← hfi, ← hl]
      exact hh
    obtain ⟨b₁, hd, hf₁, free⟩ : ∃ b₁, (if (p.advance.cycle || (FakeIpStore.getByIP b p.advance.offset).isSome) = true
        then FakeIpStore.delByIP b p.advance.offset else b) = b₁ ∧ Fits b₁ p ∧ get b₁ p.advance.offset.asSlice = none := by
      split
      · exact ⟨_, rfl, h.delByIP hi⟩
      next hk =>
        simp only [Bool.or_eq_true, not_or, Option.not_isSome_iff_eq_none] at hk
        exact ⟨b, rfl, h, hk.2⟩
    obtain ⟨hf₂, hb⟩ := hf₁.putByIP sound hi free hn hs
    obtain ⟨hf₃, hb'⟩ := hf₂.putByHost sound hi hn hb
    refine ⟨p.advance, _, p.advance.offset, ?_, hs', hf₃.congr hfi.symm hl.symm, hi, hb'⟩
    simp only [Pool.lookup, FakeIpStore.store, hf, Pool.get_eq, hd]

theorem putMarker {key : List UInt8} (hm : key = offsetKey ∨ key = cycleKey) :
    Fits (FakeIpStore.putByHost b key p.offset) p := by
  have read : ∀ k, get (FakeIpStore.putByHost b key p.offset) k = if k = key then some p.offset.asSlice else get b k := by
    have hl := length_asSlice p.offset
    have long : key.length = 18 ∨ key.length = 17 := by
      rcases hm with rfl | rfl
      · exact .inl length_offsetKey
      · exact .inr length_cycleKey
    have := sizes (B := B)
    refine get_write ?_ (by omega) (by omega)
    rintro rfl
    simp at long
  have ha : ∀ ip : Addr, get (FakeIpStore.putByHost b key p.offset) ip.asSlice = get b ip.asSlice := by
    intro ip
    rw [read, if_neg]
    rcases hm with rfl | rfl
    · exact (asSlice_ne_markers ip).1
    · exact (asSlice_ne_markers ip).2
  refine ⟨fun host hn ip hf => ?_, fun ip hi host hf => ?_, fun ip hf => ?_⟩
  · have ho : host ≠ key := by
      rcases hm with rfl | rfl
      · exact hn.offset
      · exact hn.cycle
    rw [FakeIpStore.getByHost, read, if_neg ho] at hf
    obtain ⟨hi, back⟩ := h.name host hn ip hf
    exact ⟨hi, by rw [ha, back]⟩
  · rw [ha] at hf
    exact h.address ip hi host hf
  · rw [FakeIpStore.getByHost, read] at hf
    split at hf
    · have hb := sound.offset
      have first := sound.first
      have hv : p.offset.isValid = true := isValid_of_order (by omega)
      rw [Option.bind_some, addrFromSlice_asSlice hv sound.zones.2.2.2.2] at hf
      cases hf
      exact ⟨sound.zones.2.2.2.2, hb⟩
    · exact h.offset ip hf

theorem storeState : Fits (p.storeState b) p := by
  have hs := h.putMarker sound (.inl rfl)
  unfold Pool.storeState
  split
  · exact hs.putMarker sound (.inr rfl)
  · exact hs

end

end

theorem restoreState (hso : p.Sound) (fits : p.drops b = true ∨ Fits b p) :
    ∃ p' b', p.restoreState b = (p', b') ∧ p'.Sound ∧ Fits b' p' := by
  have hf : ∀ cycle, ∃ p' b', ({ p with cycle } : Pool).flushFakeIP FakeIpStore.store b = (p', b') ∧ p'.Sound ∧ Fits b' p' :=
    fun cycle => ⟨_, _, rfl, hso.rewind false, .empty _⟩
  obtain ⟨cycle, hc⟩ : ∃ cycle, (if (FakeIpStore.getByHost b cycleKey).isSome = true then { p with cycle := true } else p) =
      ({ p with cycle } : Pool) := by
    split
    · exact ⟨true, rfl⟩
    · exact ⟨p.cycle, rfl⟩
  have hs' : ({ p with cycle } : Pool).Sound := ⟨hso.zones, hso.family, hso.gateway, hso.first, hso.room, hso.offset, hso.broadcast⟩
  unfold Pool.restoreState
  unfold Pool.drops at fits
  rw [hc]
  cases hs : FakeIpStore.getByHost b offsetKey with
  | none =>
    simp only [hs] at fits ⊢
    split
    · exact hf cycle
    next hk =>
      have own := fits.resolve_left hk
      exact ⟨_, b, rfl, hs', own.congr rfl rfl⟩
  | some offset =>
    simp only [hs] at fits ⊢
    split
    next ht =>
      have own := fits.resolve_left (by simp [ht])
      obtain ⟨hz, hb⟩ := own.offset offset hs
      have hm : ({ p with cycle, offset } : Pool).Sound :=
        ⟨⟨hso.zones.1, hso.zones.2.1, hso.zones.2.2.1, hso.zones.2.2.2.1, hz⟩, hso.family, hso.gateway, hso.first,
          hso.room, hb, hso.broadcast⟩
      exact ⟨_, b, rfl, hm, own.congr rfl rfl⟩
    · exact hf cycle

end Fits

def Process.Fine (s : Process B) : Prop := ∀ p, s.pool = some p → p.Sound ∧ Fits (s.bucket p) p

theorem Process.bucket_write (s : Process B) (p : Pool) (b : B) : (s.write p b).bucket p = b := if_pos rfl

theorem Process.write_fine (s : Process B) (hs : p.Sound) (hf : Fits b p) : (s.write p b).Fine := by
  intro q hh
  cases hh
  refine ⟨hs, ?_⟩
  rw [s.bucket_write]
  exact hf

theorem Process.Fine.step {s : Process B} (h : s.Fine) {toLower : List UInt8 → List UInt8} {op : FileOp}
    (fine : Admissible netipx toLower s op) : (s.step netipx toLower op).Fine := by
  cases op with
  | start ipnet =>
    cases hm : Pool.new netipx ipnet with
    | error =>
      simp only [Process.step, hm]
      exact h
    | ok p =>
      have hso := Pool.new_sound hm
      have fits : p.drops (s.bucket p) = true ∨ Fits (s.bucket p) p := by
        rcases fine p hm with hd | ⟨old, hh, hf, hfi, hl⟩ | fits
        · exact .inl hd
        · have hb := (h old hh).2
          rw [Process.bucket, hf] at hb
          exact .inr (hb.congr hfi hl)
        · exact .inr fits
      obtain ⟨_, _, hr, hs', hf'⟩ := Fits.restoreState hso fits
      simp only [Process.step, hm, hr]
      exact s.write_fine hs' hf'
  | lookup =>
    cases hh : s.pool with
    | none =>
      simp only [Process.step, Process.lookup, hh]
      exact h
    | some p =>
      obtain ⟨hn, hs⟩ := fine p hh
      obtain ⟨_, _, _, hc, hs', hf', _⟩ := (h p hh).2.lookup (h p hh).1 toLower hn hs
      simp only [Process.step, Process.lookup, hh, hc]
      exact s.write_fine hs' hf'
  | storeState =>
    cases hh : s.pool with
    | none =>
      simp only [Process.step, hh]
      exact h
    | some p =>
      simp only [Process.step, hh]
      exact s.write_fine (h p hh).1 ((h p hh).2.storeState (h p hh).1)
  | flushFakeIP =>
    cases hh : s.pool with
    | none =>
      simp only [Process.step, hh]
      exact h
    | some p =>
      simp only [Process.step, hh]
      exact s.write_fine ((h p hh).1.rewind false) (.empty _)

theorem Reachable.fine {toLower : List UInt8 → List UInt8} {s : Process B} (h : Reachable netipx toLower s) : s.Fine := by
  induction h with
  | new =>
    intro p hh
    cases hh
  | step _ _ hf ih => exact ih.step hf

/-- In every history of admissible steps, `Lookup` gives an address of the pool and `LookBack` takes it back to the name. -/
theorem lookup_of_reachable (netipx : Netipx) (toLower : List UInt8 → List UInt8) {s : Process B}
    (reachable : Reachable netipx toLower s) {p : Pool} (running : s.pool = some p) {host : List UInt8}
    (fine : Admissible netipx toLower s (.lookup host)) :
    ∃ s' ip, s.lookup toLower host = (s', some ip) ∧ p.InRange ip ∧ s'.lookBack ip = some (toLower host) := by
  obtain ⟨hs, hf⟩ := reachable.fine p running
  obtain ⟨name, hsm⟩ := fine p running
  obtain ⟨p', b', ip, hc, _, _, hi, back⟩ := hf.lookup hs toLower name hsm
  refine ⟨s.write p' b', ip, by simp only [Process.lookup, running, hc], hi, ?_⟩
  show FakeIpStore.getByIP ((s.write p' b').bucket p') ip = _
  rw [s.bucket_write, FakeIpStore.getByIP, back]

/-- The pairs of a bucket, with the limits of `bbolt`. -/
structure Bucket where
  get : List UInt8 → Option (List UInt8) := fun _ => none
  blank : get [] = none := by rfl

instance : Bbolt Bucket where
  empty := {}
  get := Bucket.get
  put b key value :=
    if refused : key = [] ∨ 32768 < key.length ∨ 2 ^ 31 - 2 < value.length then none
    else
      some { get := fun k => if k = key then some value else b.get k
             blank := by rw [if_neg fun eq => refused (.inl eq.symm), b.blank] }
  delete b key :=
    { get := fun k => if k = key then none else b.get k
      blank := by rw [b.blank, ite_self] }
  maxKeySize := 32768
  maxValueSize := 2 ^ 31 - 2
  sizes := by decide
  get_empty _ := rfl
  get_blank b := b.blank
  put_refused b key value := by
    split
    next refused => simp only [refused]
    next fine => exact iff_of_false nofun fine
  get_put b key value b' done k := by
    split at done <;> cases done
    rfl
  get_delete _ _ _ := rfl

def fakeRange : Prefix := ⟨.v4 0xc6120000, 28⟩

/-- `198.18.0.0/28`, the name `a`, and a second start with the range and what was stored; the name `b` is new then. -/
theorem lookup_of_reachable_sample :
    ∃ (s : Process Bucket) (p : Pool) (s' : Process Bucket) (ip : Addr), Reachable .plain id s ∧ s.pool = some p ∧
      s.lookBack (.v4 0xc6120004) = some [97] ∧ s.lookup id [98] = (s', some ip) ∧ p.InRange ip ∧
        s'.lookBack ip = some [98] := by
  have name : ∀ (p : Pool) (c : UInt8), p.Name [c] := by
    refine fun p c => ⟨?_, ?_, ?_⟩
    · exact fun eq => absurd (congrArg List.length eq) (by rw [length_offsetKey]; exact nofun)
    · exact fun eq => absurd (congrArg List.length eq) (by rw [length_cycleKey]; exact nofun)
    · rintro ⟨ip, _, eq⟩
      have hl := length_asSlice ip
      rw [← eq] at hl
      simp at hl
  have first : Reachable (B := Bucket) .plain id (Process.step .plain id {} (.start fakeRange)) :=
    Reachable.new.step _ fun p _ => .inr (.inr (.empty p))
  have used := (first.step (.lookup [97]) fun p _ => ⟨name p 97, by decide⟩).step .storeState trivial
  have again := used.step (.start fakeRange) fun p made => by
    cases made
    exact .inr (.inl ⟨_, rfl, rfl, rfl, rfl⟩)
  obtain ⟨s', ip, called, inside, back⟩ := lookup_of_reachable .plain id again rfl fun p _ => ⟨name p 98, by decide⟩
  exact ⟨_, _, s', ip, again, rfl, rfl, called, inside, back⟩

/-- A second start with another range and no stored offset keeps the address of the first one, and the name of
a marker is taken to the stored offset. -/
theorem lookup_kept_and_marker :
    (∃ (s : Process Bucket) (p : Pool) (s' : Process Bucket),
        s = [FileOp.start fakeRange, .lookup [97], .start ⟨.v4 0x0a000000, 28⟩].foldl (Process.step .plain id) {} ∧
        s.pool = some p ∧ s.lookup id [97] = (s', some (.v4 0xc6120004)) ∧ ¬ p.InRange (.v4 0xc6120004)) ∧
      ∃ s s' : Process Bucket, s = [FileOp.start fakeRange, .lookup [97], .storeState].foldl (Process.step .plain id) {} ∧
        s.lookup id offsetKey = (s', some (.v4 0xc6120004)) ∧ s'.lookBack (.v4 0xc6120004) = some [97] := by
  refine ⟨⟨_, _, _, rfl, rfl, rfl, ?_⟩, _, _, rfl, rfl, rfl⟩
  rintro ⟨_, _, hb⟩
  exact absurd hb (by decide)

end AsterCore.Fakeip
