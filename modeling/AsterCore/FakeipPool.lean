import AsterCore.GoNetip

namespace AsterCore.Fakeip

open Addr

/-- The `store` of a pool, with the state that its calls read and change. -/
structure Store (Host S : Type) where
  getByHost : S → Host → S × Option Addr
  putByHost : S → Host → Addr → S
  getByIP : S → Addr → S × Option Host
  putByIP : S → Addr → Host → S
  delByIP : S → Addr → S
  exist : S → Addr → Bool
  flushFakeIP : S → Except String S

structure Pool where
  gateway : Addr
  first : Addr
  last : Addr
  offset : Addr
  cycle : Bool
  ipnet : Prefix
  deriving DecidableEq

namespace Pool

variable {Host S : Type} (store : Store Host S) (toLower : Host → Host)

def new (netipx : Netipx) (ipnet : Prefix) : Except String Pool :=
  let hostAddr := ipnet.masked.addr
  let gateway := hostAddr.next
  let first := gateway.next.next.next
  let last := netipx.prefixLastIP ipnet
  if ipnet.isValid = false ∨ first.isValid = false ∨ first.less last = false then .error "ipnet don't have valid ip"
  else .ok { gateway, first, last, offset := first.prev, cycle := false, ipnet }

def get (p : Pool) (s : S) (host : Host) : Pool × S × Addr :=
  let p := { p with offset := p.offset.next }
  let p := if p.offset.less p.last = false then { p with cycle := true, offset := p.first } else p
  let s := if p.cycle || store.exist s p.offset then store.delByIP s p.offset else s
  (p, store.putByIP s p.offset host, p.offset)

def lookup (p : Pool) (s : S) (host : Host) : Pool × S × Addr :=
  let host := toLower host
  match store.getByHost s host with
  | (s, some ip) => (p, s, ip)
  | (s, none) =>
    let (p, s, ip) := p.get store s host
    (p, store.putByHost s host ip, ip)

def flushFakeIP (p : Pool) (s : S) : Pool × S :=
  match store.flushFakeIP s with
  | .ok s => ({ p with cycle := false, offset := p.first.prev }, s)
  | .error _ => (p, s)

def InRange (p : Pool) (ip : Addr) : Prop := ip.zone = "" ∧ ip.less p.first = false ∧ ip.less p.last = true

structure Sound (p : Pool) : Prop where
  zones : p.first.zone = "" ∧ p.last.zone = "" ∧ p.gateway.zone = "" ∧ p.ipnet.masked.addr.zone = "" ∧ p.offset.zone = ""
  family : SameFamily (p.ipnet.masked.addr.order, p.last.order)
  gateway : p.gateway.order = p.ipnet.masked.addr.order + 1
  first : p.first.order = p.ipnet.masked.addr.order + 4
  room : p.first.order < p.last.order
  offset : p.first.order ≤ p.offset.order + 1 ∧ p.offset.order < p.last.order
  broadcast : p.ipnet.contains p.last = true ∧ ∀ ip, p.ipnet.contains ip = true → ip.order ≤ p.last.order

variable {p : Pool}

theorem Sound.inRange_iff (h : Sound p) (ip : Addr) :
    p.InRange ip ↔ ip.zone = "" ∧ p.first.order ≤ ip.order ∧ ip.order < p.last.order := by
  refine and_congr_right fun hz => ?_
  rw [less_iff (hz.trans h.zones.2.1.symm), ← Bool.not_eq_true, less_iff (hz.trans h.zones.1.symm), Nat.not_lt]

theorem Sound.ordinary (h : Sound p) {ip : Addr} (hi : p.InRange ip) :
    ip ≠ p.ipnet.masked.addr ∧ ip ≠ p.gateway ∧ ip ≠ p.last := by
  obtain ⟨_, _, _⟩ := (h.inRange_iff ip).mp hi
  have first := h.first
  have hg := h.gateway
  refine ⟨?_, ?_, ?_⟩
  · rintro rfl
    omega
  · rintro rfl
    omega
  · rintro rfl
    omega

theorem Sound.rewind (h : Sound p) (cycle : Bool) : Sound { p with offset := p.first.prev, cycle } := by
  obtain ⟨_, hf⟩ := h.family
  have first := h.first
  have room := h.room
  obtain ⟨_, hz⟩ := order_prev (a := p.first) (n := p.ipnet.masked.addr.order) ⟨by simp only; omega, by simp only at hf ⊢; omega⟩ (by omega)
  refine ⟨⟨h.zones.1, h.zones.2.1, h.zones.2.2.1, h.zones.2.2.2.1, hz.trans h.zones.1⟩, h.family, h.gateway, h.first, h.room, ?_, h.broadcast⟩
  simp only
  omega

theorem contains_family {ipnet : Prefix} {ip : Addr} (hi : ipnet.contains ip = true) :
    ipnet.masked.addr.zone = "" ∧ ip.zone = "" ∧
      (ipnet.masked.addr.order ≤ ip.order → SameFamily (ipnet.masked.addr.order, ip.order)) := by
  obtain ⟨addr, bits⟩ := ipnet
  cases addr with
  | invalid => cases hi
  | v4 net =>
    cases ip with
    | v4 x =>
      simp only [Prefix.contains, Bool.and_eq_true, decide_eq_true_eq] at hi
      simp only [Prefix.masked, hi.1, if_true, zone, order, SameFamily, true_and]
      exact fun le => ⟨le, by omega⟩
    | _ => cases hi
  | v6 net =>
    cases ip with
    | v6 x =>
      simp only [Prefix.contains, Bool.and_eq_true, decide_eq_true_eq, beq_iff_eq] at hi
      simp only [Prefix.masked, hi.1.1, hi.1.2, if_true, zone, order, SameFamily, true_and]
      exact fun le => ⟨le, by omega⟩
    | _ => cases hi

theorem new_sound {netipx : Netipx} {ipnet : Prefix} (made : new netipx ipnet = .ok p) : Sound p := by
  unfold new at made
  simp only at made
  split at made <;> cases made
  next ha =>
    simp only [not_or, Bool.not_eq_false] at ha
    obtain ⟨hv, hu, room⟩ := ha
    have last := netipx.last_ip ipnet hv
    obtain ⟨net, stop, family⟩ := contains_family last.1
    obtain ⟨hv₃, _, hz₄⟩ := next_valid hu
    obtain ⟨hv₂, _, hz₃⟩ := next_valid hv₃
    obtain ⟨hv₁, _, hz₂⟩ := next_valid hv₂
    obtain ⟨_, ho₁, hz₁⟩ := next_valid hv₁
    have hz : ipnet.masked.addr.next.next.next.next.zone = "" := by rw [hz₄, hz₃, hz₂, hz₁, net]
    rw [less_iff (hz.trans stop.symm)] at room
    have fits : Sound ⟨ipnet.masked.addr.next, ipnet.masked.addr.next.next.next.next, netipx.prefixLastIP ipnet,
        ipnet.masked.addr.next.next.next.next, false, ipnet⟩ :=
      ⟨⟨hz, stop, hz₁.trans net, net, hz⟩, family (by omega), ho₁, by simp only; omega, room, by simp only; omega, last⟩
    exact fits.rewind false

def advance (p : Pool) : Pool :=
  if p.offset.next.less p.last = false then { p with cycle := true, offset := p.first } else { p with offset := p.offset.next }

theorem Sound.advance (h : Sound p) : Sound p.advance ∧ p.advance.InRange p.advance.offset := by
  have hm : Sound p.advance ∧ p.first.order ≤ p.advance.offset.order := by
    obtain ⟨order, hz⟩ : p.offset.next.order = p.offset.order + 1 ∧ p.offset.next.zone = p.offset.zone := by
      obtain ⟨_, hf⟩ := h.family
      have first := h.first
      have ho := h.offset
      exact order_next (a := p.offset) (n := p.last.order) ⟨by simp only; omega, by simp only at hf ⊢; omega⟩ (by omega)
    have hp : p.offset.next.zone = "" := hz.trans h.zones.2.2.2.2
    unfold Pool.advance
    split
    · exact ⟨⟨⟨h.zones.1, h.zones.2.1, h.zones.2.2.1, h.zones.2.2.2.1, h.zones.1⟩, h.family, h.gateway, h.first, h.room,
        ⟨Nat.le_succ _, h.room⟩, h.broadcast⟩, Nat.le_refl _⟩
    next hi =>
      rw [Bool.not_eq_false, less_iff (hp.trans h.zones.2.1.symm)] at hi
      have ho := h.offset
      refine ⟨⟨⟨h.zones.1, h.zones.2.1, h.zones.2.2.1, h.zones.2.2.2.1, hp⟩, h.family, h.gateway, h.first, h.room, ⟨?_, hi⟩, h.broadcast⟩, ?_⟩
      · simp only
        omega
      · simp only
        omega
  have hb : p.advance.first = p.first := by
    unfold Pool.advance
    split
    · rfl
    · rfl
  obtain ⟨hs, low⟩ := hm
  exact ⟨hs, (hs.inRange_iff _).mpr ⟨hs.zones.2.2.2.2, hb ▸ low, hs.offset.2⟩⟩

theorem get_eq (p : Pool) (s : S) (host : Host) :
    p.get store s host =
      (p.advance, store.putByIP (if p.advance.cycle || store.exist s p.advance.offset then store.delByIP s p.advance.offset else s)
        p.advance.offset host, p.advance.offset) := by
  rfl

end Pool

end AsterCore.Fakeip
