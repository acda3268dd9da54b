import AsterCore.LruCache
import AsterCore.FakeipPool

namespace AsterCore.Fakeip

open RecencyEntries LruCache List Prod

variable {Host : Type}

structure Heap (Host : Type) where
  ips : Cells Addr := []
  hosts : Cells Host := []

structure MemoryStore (Host : Type) where
  cacheIP : LruCache Host
  cacheHost : LruCache Addr

def newMemoryStore (size : Int) : MemoryStore Host := ⟨{ maxSize := size }, { maxSize := size }⟩

namespace MemoryStore

def cloneTo (m n : MemoryStore Host) : MemoryStore Host := ⟨m.cacheIP.cloneTo n.cacheIP, m.cacheHost.cloneTo n.cacheHost⟩

def flushFakeIP (m : MemoryStore Host) : MemoryStore Host := ⟨m.cacheIP.clear, m.cacheHost.clear⟩

section

variable [DecidableEq Host]

def getByHost (now : Int) (s : Heap Host × MemoryStore Host) (host : Host) : (Heap Host × MemoryStore Host) × Option Addr :=
  let (heap, m) := s
  match m.cacheIP.get now heap.ips host with
  | (ips, cacheIP, none) => (({ heap with ips }, { m with cacheIP }), none)
  | (ips, cacheIP, some ip) =>
    let (hosts, cacheHost, _) := m.cacheHost.get now heap.hosts ip
    (({ ips, hosts }, { cacheIP, cacheHost }), some ip)

def putByHost (now : Int) (s : Heap Host × MemoryStore Host) (host : Host) (ip : Addr) : Heap Host × MemoryStore Host :=
  let (heap, m) := s
  let (ips, cacheIP) := m.cacheIP.set now heap.ips host ip
  ({ heap with ips }, { m with cacheIP })

def getByIP (now : Int) (s : Heap Host × MemoryStore Host) (ip : Addr) : (Heap Host × MemoryStore Host) × Option Host :=
  let (heap, m) := s
  match m.cacheHost.get now heap.hosts ip with
  | (hosts, cacheHost, none) => (({ heap with hosts }, { m with cacheHost }), none)
  | (hosts, cacheHost, some host) =>
    let (ips, cacheIP, _) := m.cacheIP.get now heap.ips host
    (({ ips, hosts }, { cacheIP, cacheHost }), some host)

def putByIP (now : Int) (s : Heap Host × MemoryStore Host) (ip : Addr) (host : Host) : Heap Host × MemoryStore Host :=
  let (heap, m) := s
  let (hosts, cacheHost) := m.cacheHost.set now heap.hosts ip host
  ({ heap with hosts }, { m with cacheHost })

def delByIP (now : Int) (s : Heap Host × MemoryStore Host) (ip : Addr) : Heap Host × MemoryStore Host :=
  let (heap, m) := s
  match m.cacheHost.get now heap.hosts ip with
  | (hosts, cacheHost, none) => ({ heap with hosts }, { m with cacheHost := cacheHost.delete ip })
  | (hosts, cacheHost, some host) =>
    ({ heap with hosts }, { cacheIP := m.cacheIP.delete host, cacheHost := cacheHost.delete ip })

def store (now : Int) : Store Host (Heap Host × MemoryStore Host) where
  getByHost := getByHost now
  putByHost := putByHost now
  getByIP := getByIP now
  putByIP := putByIP now
  delByIP := delByIP now
  exist := fun s ip => s.2.cacheHost.exist ip
  flushFakeIP := fun s => .ok (s.1, s.2.flushFakeIP)

end

end MemoryStore

def Pool.cloneFrom (p : Pool) (m : MemoryStore Host) (o : Pool) (n : MemoryStore Host) : Pool × MemoryStore Host :=
  let m := n.cloneTo m
  if o.first = p.first ∧ o.last = p.last then ({ p with offset := o.offset, cycle := o.cycle }, m)
  else ({ p with offset := p.first.prev, cycle := false }, m.flushFakeIP)

structure World (Host : Type) where
  heap : Heap Host := {}
  pools : List (Pool × MemoryStore Host) := []

/-- The calls, each on a pool by its number, with the clock where it is read. -/
inductive Op (Host : Type)
  | new (ipnet : Prefix) (size : Int)
  | lookup (i : Nat) (now : Int) (host : Host)
  | lookBack (i : Nat) (now : Int) (ip : Addr)
  | exist (i : Nat) (ip : Addr)
  | flushFakeIP (i : Nat)
  | cloneFrom (i j : Nat)

namespace World

variable [DecidableEq Host]

def on {R : Type} (w : World Host) (i : Nat) (call : Pool → Heap Host × MemoryStore Host → Pool × (Heap Host × MemoryStore Host) × R) :
    World Host × Option R :=
  match w.pools[i]? with
  | none => (w, none)
  | some (p, m) =>
    let (p, (heap, m), result) := call p (w.heap, m)
    ({ heap, pools := w.pools.set i (p, m) }, some result)

def lookup (toLower : Host → Host) (w : World Host) (i : Nat) (now : Int) (host : Host) : World Host × Option Addr :=
  w.on i fun p s => p.lookup (MemoryStore.store now) toLower s host

def lookBack (w : World Host) (i : Nat) (now : Int) (ip : Addr) : World Host × Option (Option Host) :=
  w.on i fun p s => (p, (MemoryStore.store now).getByIP s ip)

def step (netipx : Netipx) (toLower : Host → Host) (w : World Host) : Op Host → World Host
  | .new ipnet size =>
    match Pool.new netipx ipnet with
    | .ok p => { w with pools := w.pools ++ [(p, newMemoryStore size)] }
    | .error _ => w
  | .lookup i now host => (w.lookup toLower i now host).1
  | .lookBack i now ip => (w.lookBack i now ip).1
  | .exist _ _ => w
  | .flushFakeIP i =>
    (w.on i fun p s =>
      let (p, s) := p.flushFakeIP (MemoryStore.store 0) s
      (p, s, ())).1
  | .cloneFrom i j =>
    if i = j then w
    else
      match w.pools[i]?, w.pools[j]? with
      | some (p, m), some (o, n) => { w with pools := w.pools.set i (p.cloneFrom m o n) }
      | _, _ => w

def run (netipx : Netipx) (toLower : Host → Host) (ops : List (Op Host)) : World Host := ops.foldl (step netipx toLower) {}

end World

structure Table (heap : Heap Host) (m : MemoryStore Host) (size : Int) (l : List (Host × Addr)) : Prop where
  ips : Keeps heap.ips m.cacheIP size l
  hosts : Keeps heap.hosts m.cacheHost size (l.map Prod.swap)
  one : OneToOne l

def Heap.Extends (heap heap' : Heap Host) : Prop := ∃ ips hosts, heap'.ips = heap.ips ++ ips ∧ heap'.hosts = heap.hosts ++ hosts

theorem Heap.Extends.refl (heap : Heap Host) : heap.Extends heap := ⟨[], [], by simp, by simp⟩

namespace Table

variable {heap : Heap Host} {m : MemoryStore Host} {size : Int} {l : List (Host × Addr)}

theorem extend {heap' : Heap Host} (h : Table heap m size l) (hm : heap.Extends heap') : Table heap' m size l := by
  obtain ⟨ips, hosts, eq, eq'⟩ := hm
  exact ⟨eq ▸ h.ips.append ips, eq' ▸ h.hosts.append hosts, h.one⟩

theorem new (heap : Heap Host) (size : Int) : Table heap (newMemoryStore size) size [] :=
  ⟨⟨rfl, rfl, rfl⟩, ⟨rfl, rfl, rfl⟩, ⟨nodup_nil, nodup_nil⟩⟩

theorem flush (h : Table heap m size l) : Table heap m.flushFakeIP size [] :=
  ⟨h.ips.clear, h.hosts.clear, ⟨nodup_nil, nodup_nil⟩⟩

theorem clone {n : MemoryStore Host} {size' : Int} {l' : List (Host × Addr)} (h : Table heap n size' l')
    (ht : Table heap m size l) :
    Table heap (n.cloneTo m) size l' :=
  ⟨h.ips.cloneTo ht.ips, h.hosts.cloneTo ht.hosts, h.one⟩

theorem exist_eq (h : Table heap m size l) (ip : Addr) :
    m.cacheHost.exist ip = (find (l.map swap) ip).isSome := h.hosts.exist_eq ip

variable [DecidableEq Host]

section

variable (h : Table heap m size l)

include h

theorem getByHost (now : Int) (host : Host) :
    ∃ m', MemoryStore.getByHost now (heap, m) host = ((heap, m'), find l host) ∧ Table heap m' size (touch l host) := by
  obtain ⟨cacheIP, got, ips⟩ := h.ips.get now host
  cases hf : find l host with
  | none =>
    refine ⟨{ m with cacheIP }, by simp only [MemoryStore.getByHost, got, hf], ips, ?_, oneToOne_touch h.one host⟩
    rw [touch, hf]
    exact h.hosts
  | some ip =>
    obtain ⟨cacheHost, got', hh⟩ := h.hosts.get now ip
    rw [h.one.touch_swap hf] at hh
    exact ⟨⟨cacheIP, cacheHost⟩, by simp only [MemoryStore.getByHost, got, hf, got'], ips, hh, oneToOne_touch h.one host⟩

theorem getByIP (now : Int) (ip : Addr) :
    ∃ m' l', MemoryStore.getByIP now (heap, m) ip =
    ((heap, m'), find (l.map swap) ip) ∧ Table heap m' size l' ∧ ∀ e ∈ l', e ∈ l := by
  obtain ⟨cacheHost, got, hh⟩ := h.hosts.get now ip
  cases hf : find (l.map swap) ip with
  | none =>
    rw [touch, hf] at hh
    exact ⟨{ m with cacheHost }, l, by simp only [MemoryStore.getByIP, got, hf], ⟨h.ips, hh, h.one⟩, fun _ mem => mem⟩
  | some host =>
    obtain ⟨cacheIP, got', ips⟩ := h.ips.get now host
    rw [h.one.touch_swap (h.one.find_swap.mp hf)] at hh
    exact ⟨⟨cacheIP, cacheHost⟩, touch l host, by simp only [MemoryStore.getByIP, got, hf, got'], ⟨ips, hh, oneToOne_touch h.one host⟩,
      fun _ => mem_touch⟩

theorem delByIP (now : Int) (ip : Addr) :
    ∃ m' l', MemoryStore.delByIP now (heap, m) ip = (heap, m') ∧ Table heap m' size l' ∧ l'.Sublist l ∧ find
    (l'.map swap) ip = none := by
  obtain ⟨cacheHost, got, hh⟩ := h.hosts.get now ip
  have hg := hh.deleted ip
  rw [without_touch] at hg
  cases hf : find (l.map swap) ip with
  | none =>
    rw [without_absent hf] at hg
    exact ⟨⟨m.cacheIP, cacheHost.delete ip⟩, l, by simp only [MemoryStore.delByIP, got, hf], ⟨h.ips, hg, h.one⟩, List.Sublist.refl l,
      hf⟩
  | some host =>
    have he := h.one.without_swap (h.one.find_swap.mp hf)
    have free := find_without (l.map swap) ip
    rw [he] at hg free
    exact ⟨⟨m.cacheIP.delete host, cacheHost.delete ip⟩, without l host, by simp only [MemoryStore.delByIP, got, hf],
      ⟨h.ips.deleted host, hg, oneToOne_without h.one host⟩, filter_sublist, free⟩

theorem put (now : Int) {host : Host} {ip : Addr} (hf : find l host = none) (free : find (l.map swap) ip = none) :
    ∃ heap' m', MemoryStore.putByHost now (MemoryStore.putByIP now (heap, m) ip host) host ip = (heap', m') ∧ heap.Extends heap' ∧
      Table heap' m' size (push size l (host, ip)) := by
  obtain ⟨cell, cacheHost, set, hh⟩ := h.hosts.set now host free
  obtain ⟨cell', cacheIP, set', ips⟩ := h.ips.set now ip hf
  refine ⟨⟨heap.ips ++ [cell'], heap.hosts ++ [cell]⟩, ⟨cacheIP, cacheHost⟩, ?_, ⟨[cell'], [cell], rfl, rfl⟩, ips, ?_, ?_⟩
  · simp only [MemoryStore.putByHost, MemoryStore.putByIP, set, set']
  · rw [← push_map swap]
    exact hh
  · exact oneToOne_push h.one hf free size

end

end Table

theorem find_sublist {l l' : List (Host × Addr)} [DecidableEq Host] (hp : l'.Sublist l) {host : Host}
    (ha : find l host = none) :
    find l' host = none := by
  rw [find_eq_none] at ha ⊢
  exact fun mem => ha ((hp.map _).subset mem)

structure Running (heap : Heap Host) (p : Pool) (m : MemoryStore Host) (size : Int) (l : List (Host × Addr)) : Prop where
  table : Table heap m size l
  sound : p.Sound
  inside : ∀ e ∈ l, p.InRange e.2

section

variable [DecidableEq Host] {heap : Heap Host} {p : Pool} {m : MemoryStore Host} {size : Int} {l : List (Host × Addr)}

theorem advance_inRange (p : Pool) (ip : Addr) : p.advance.InRange ip ↔ p.InRange ip := by
  unfold Pool.advance
  split
  · exact Iff.rfl
  · exact Iff.rfl

theorem Running.lookup (h : Running heap p m size l) (toLower : Host → Host) (now : Int) (host : Host) :
    ∃ p' heap' m' ip l', p.lookup (MemoryStore.store now) toLower (heap, m) host = (p', (heap', m'), ip) ∧ heap.Extends heap' ∧
      Running heap' p' m' size l' ∧ p.InRange ip ∧ (toLower host, ip) ∈ l' := by
  obtain ⟨m₁, got, ht₁⟩ := h.table.getByHost now (toLower host)
  unfold Pool.lookup
  cases hf : find l (toLower host) with
  | some ip =>
    have hb : (toLower host, ip) ∈ touch l (toLower host) := by
      rw [touch, hf]
      exact mem_append_right _ (mem_singleton_self _)
    rw [hf] at got
    refine ⟨p, heap, m₁, ip, touch l (toLower host), ?_, .refl heap, ⟨ht₁, h.sound, fun e mem => h.inside e (mem_touch mem)⟩,
      h.inside _ (mem_of_find hf), hb⟩
    simp only [MemoryStore.store, got]
  | none =>
    rw [hf] at got
    rw [touch, hf] at ht₁
    obtain ⟨hs, hh⟩ := h.sound.advance
    -- The address is free now, because `get` has deleted what was there.
    have hc : ∃ m₂ l₂, (if (p.advance.cycle || m₁.cacheHost.exist p.advance.offset) = true
          then MemoryStore.delByIP now (heap, m₁) p.advance.offset else (heap, m₁)) = (heap, m₂) ∧
        Table heap m₂ size l₂ ∧ l₂.Sublist l ∧ find (l₂.map swap) p.advance.offset = none := by
      split
      · exact ht₁.delByIP now p.advance.offset
      next hk =>
        rw [Bool.or_eq_true, not_or, ht₁.exist_eq] at hk
        exact ⟨m₁, l, rfl, ht₁, List.Sublist.refl l, by simpa using hk.2⟩
    obtain ⟨_, l₂, hd, ht₂, hp, free⟩ := hc
    obtain ⟨heap', m', put, hm, ht'⟩ := ht₂.put now (find_sublist hp hf) free
    refine ⟨p.advance, heap', m', p.advance.offset, _, ?_, hm, ⟨ht', hs, fun e mem => ?_⟩, (advance_inRange p _).mp hh,
      mem_push size l₂ _⟩
    · simp only [MemoryStore.store, got, Pool.get_eq, hd, put]
    · rcases mem_append.mp ((push_sublist size l₂ _).subset mem) with old | new
      · exact (advance_inRange p _).mpr (h.inside e (hp.subset old))
      · cases mem_singleton.mp new
        exact hh

theorem Running.lookBack (h : Running heap p m size l) (now : Int) (ip : Addr) :
    ∃ m' l', MemoryStore.getByIP now (heap, m) ip = ((heap, m'), find (l.map swap) ip) ∧ Running heap p m' size l' := by
  obtain ⟨m', l', got, ht, hp⟩ := h.table.getByIP now ip
  exact ⟨m', l', got, ht, h.sound, fun e mem => h.inside e (hp e mem)⟩

end

theorem Running.flush {heap : Heap Host} {p : Pool} {m : MemoryStore Host} {size : Int} {l : List (Host × Addr)}
    (h : Running heap p m size l) : Running heap { p with offset := p.first.prev, cycle := false } m.flushFakeIP size [] :=
  ⟨h.table.flush, h.sound.rewind false, by simp⟩

theorem Running.clone {heap : Heap Host} {p o : Pool} {m n : MemoryStore Host} {size size' : Int} {l l' : List (Host × Addr)}
    (h : Running heap p m size l) (hot : Running heap o n size' l') :
    ∃ l₂, Running heap (p.cloneFrom m o n).1 (p.cloneFrom m o n).2 size l₂ := by
  have hc := hot.table.clone h.table
  unfold Pool.cloneFrom
  split
  next hs =>
    obtain ⟨hf, hl⟩ := hs
    refine ⟨l', hc, ?_, fun e mem => ?_⟩
    · refine ⟨⟨h.sound.zones.1, h.sound.zones.2.1, h.sound.zones.2.2.1, h.sound.zones.2.2.2.1, hot.sound.zones.2.2.2.2⟩, h.sound.family,
        h.sound.gateway, h.sound.first, h.sound.room, ?_, h.sound.broadcast⟩
      have ho := hot.sound.offset
      rw [hf, hl] at ho
      exact ho
    · have hi := hot.inside e mem
      unfold Pool.InRange at hi ⊢
      rw [hf, hl] at hi
      exact hi
  · exact ⟨[], hc.flush, h.sound.rewind false, by simp⟩

namespace World

def Running (w : World Host) : Prop := ∀ x ∈ w.pools, ∃ size l, Fakeip.Running w.heap x.1 x.2 size l

theorem Running.on {R : Type} {w : World Host} (h : w.Running) (i : Nat)
    {call : Pool → Heap Host × MemoryStore Host → Pool × (Heap Host × MemoryStore Host) × R}
    (hk : ∀ p m size l, Fakeip.Running w.heap p m size l → ∃ p' heap' m' r l', call p (w.heap, m) = (p', (heap', m'), r) ∧
      w.heap.Extends heap' ∧ Fakeip.Running heap' p' m' size l') : (w.on i call).1.Running := by
  unfold World.on
  cases hh : w.pools[i]? with
  | none => exact h
  | some x =>
    obtain ⟨size, l, hr⟩ := h x (mem_of_getElem? hh)
    obtain ⟨_, _, _, r, l', hc, hm, hr'⟩ := hk x.1 x.2 size l hr
    simp only [hc]
    intro y mem
    rcases mem_or_eq_of_mem_set mem with old | rfl
    · obtain ⟨size', l₂, ho⟩ := h y old
      exact ⟨size', l₂, ho.table.extend hm, ho.sound, ho.inside⟩
    · exact ⟨size, l', hr'⟩

variable [DecidableEq Host]

theorem Running.step {w : World Host} (h : w.Running) (netipx : Netipx) (toLower : Host → Host) (op : Op Host) :
    (w.step netipx toLower op).Running := by
  cases op with
  | new ipnet size =>
    cases hm : Pool.new netipx ipnet with
    | error =>
      simp only [World.step, hm]
      exact h
    | ok =>
      simp only [World.step, hm]
      intro x mem
      rcases mem_append.mp mem with old | new
      · exact h x old
      · cases mem_singleton.mp new
        exact ⟨size, [], .new w.heap size, Pool.new_sound hm, by simp⟩
  | lookup i now host =>
    refine h.on i fun p m size l hr => ?_
    obtain ⟨p', heap', m', ip, l', hc, more, hr', _⟩ := hr.lookup toLower now host
    exact ⟨p', heap', m', ip, l', hc, more, hr'⟩
  | lookBack i now ip =>
    refine h.on i fun p m size l hr => ?_
    obtain ⟨m', l', got, hr'⟩ := hr.lookBack now ip
    exact ⟨p, w.heap, m', _, l', congrArg (Prod.mk p) got, .refl w.heap, hr'⟩
  | exist => exact h
  | flushFakeIP i => exact h.on i fun p m size l hr => ⟨_, w.heap, _, (), [], rfl, .refl w.heap, hr.flush⟩
  | cloneFrom =>
    simp only [World.step]
    split
    · exact h
    · split
      next hh ht =>
        obtain ⟨size, l, hr⟩ := h _ (mem_of_getElem? hh)
        obtain ⟨_, _, hr'⟩ := h _ (mem_of_getElem? ht)
        intro y mem
        rcases mem_or_eq_of_mem_set mem with old | rfl
        · exact h y old
        · exact ⟨size, hr.clone hr'⟩
      · exact h

theorem run_running (netipx : Netipx) (toLower : Host → Host) (ops : List (Op Host)) : (run netipx toLower ops).Running := by
  have all : ∀ w : World Host, w.Running → (ops.foldl (World.step netipx toLower) w).Running := by
    induction ops with
    | nil => exact fun w h => h
    | cons op _ ih => exact fun w h => ih (w.step netipx toLower op) (h.step netipx toLower op)
  exact all {} (by intro x mem; cases mem)

end World

/-- Whatever calls were made on whatever pools, the caches of each pool are inverse to each other and in the
same order, and `Lookup` gives an address of the pool that `LookBack` takes back to the name. The last address of the pool is
the greatest one of its prefix. -/
theorem pools_paired [DecidableEq Host] (netipx : Netipx) (toLower : Host → Host) (ops : List (Op Host)) {i : Nat} {p : Pool}
    {m : MemoryStore Host} (here : (World.run netipx toLower ops).pools[i]? = some (p, m)) :
    (∃ size l, OneToOne l ∧ Keeps (World.run netipx toLower ops).heap.ips m.cacheIP size l ∧
        Keeps (World.run netipx toLower ops).heap.hosts m.cacheHost size (l.map Prod.swap)) ∧
      (p.ipnet.contains p.last = true ∧ ∀ ip, p.ipnet.contains ip = true → ip.order ≤ p.last.order) ∧
      ∀ now host now', ∃ w ip w', (World.run netipx toLower ops).lookup toLower i now host = (w, some ip) ∧
        p.InRange ip ∧ ip ≠ p.ipnet.masked.addr ∧ ip ≠ p.gateway ∧ ip ≠ p.last ∧
        w.lookBack i now' ip = (w', some (some (toLower host))) := by
  obtain ⟨size, l, hr⟩ := World.run_running netipx toLower ops _ (mem_of_getElem? here)
  refine ⟨⟨size, l, hr.table.one, hr.table.ips, hr.table.hosts⟩, hr.sound.broadcast, fun now host now' => ?_⟩
  obtain ⟨p', heap', m', ip, l', hc, _, hr', hi, hbo⟩ := hr.lookup toLower now host
  obtain ⟨hn, gateway, hb⟩ := hr.sound.ordinary hi
  have hf := hr'.table.one.find_swap.mpr (find_of_mem hr'.table.one.keys hbo)
  obtain ⟨m₂, _, got, _⟩ := hr'.lookBack now' ip
  rw [hf] at got
  have hs := (List.getElem?_eq_some_iff.mp here).1
  have hl : (World.run netipx toLower ops).lookup toLower i now host =
      (⟨heap', (World.run netipx toLower ops).pools.set i (p', m')⟩, some ip) := by
    simp only [World.lookup, World.on, here, hc]
  have back : World.lookBack ⟨heap', (World.run netipx toLower ops).pools.set i (p', m')⟩ i now' ip =
      (⟨heap', ((World.run netipx toLower ops).pools.set i (p', m')).set i (p', m₂)⟩, some (some (toLower host))) := by
    simp only [World.lookBack, World.on, getElem?_set_self hs, MemoryStore.store, got]
  exact ⟨_, ip, _, hl, hi, hn, gateway, hb, back⟩

/-- Two pools of one host each, the second a clone of the first. -/
def clonedPools : List (Op String) :=
  [.new ⟨.v4 0xc6120000, 29⟩ 1, .lookup 0 0 "a", .new ⟨.v4 0xc6120000, 29⟩ 1, .cloneFrom 1 0]

/-- A name takes the place of another. -/
theorem pools_paired_sample :
    ∃ p m w ip w', (World.run .plain id clonedPools).pools[1]? = some (p, m) ∧
      (World.run .plain id clonedPools).lookup id 1 0 "b" = (w, some ip) ∧ p.InRange ip ∧
      w.lookBack 1 0 ip = (w', some (some "b")) := by
  obtain ⟨_, _, calls⟩ := @pools_paired String _ .plain id clonedPools 1 _ _ rfl
  obtain ⟨w, ip, w', called, inside, _, _, _, back⟩ := calls 0 "b" 0
  exact ⟨_, _, w, ip, w', rfl, called, inside, back⟩

end AsterCore.Fakeip
