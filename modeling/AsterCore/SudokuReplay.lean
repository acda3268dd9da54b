import AsterCore.GoMap
import AsterCore.Runs

namespace AsterCore.Sudoku

open List GoMap

def encodeToString (src : List UInt8) : String :=
  String.ofList (src.flatMap fun b => [Nat.digitChar (b.toNat / 16), Nat.digitChar (b.toNat % 16)])

/-- The fields of a client hello that the two checks read; `timestamp` is in seconds. -/
structure KIPClientHello where
  userHash : List UInt8
  nonce : List UInt8
  timestamp : Int64
  deriving DecidableEq

/-- Times and durations are in nanoseconds. -/
def second : Int := 1000000000

def kipHandshakeSkew : Int := 60 * second

def handshakeReplayTTL : Int := 60 * second

def absInt64 (v : Int64) : Int64 := if v < 0 then -v else v

/-- The skew check of `ServerHandshake`. -/
def skewed (now : Int) (ch : KIPClientHello) : Bool :=
  Int64.ofInt (kipHandshakeSkew / second) < absInt64 (Int64.ofInt (now / second) - ch.timestamp)

/-- `lastPrune` is `none` for the zero time, which is longer ago than any duration. -/
structure NonceSet where
  m : GoMap (List UInt8) Int := ∅
  maxEntries : Nat
  lastPrune : Option Int := none

def newNonceSet (maxEntries : Int) : NonceSet :=
  { maxEntries := if maxEntries ≤ 0 then 4096 else maxEntries.toNat }

/-- The loop that deletes while there are too many nonces. `picks` are the nonces its ranges begin with, which the language
leaves open. -/
def evict (maxEntries : Nat) : List (List UInt8) → GoMap (List UInt8) Int → GoMap (List UInt8) Int
  | [], m => m
  | nonce :: picks, m => if maxEntries < m.entries.length then evict maxEntries picks (m.erase nonce) else m

namespace NonceSet

def live (s : NonceSet) (nonce : List UInt8) (now : Int) : Bool := (s.m.lookup nonce).any fun exp => now < exp

/-- The part of `allow` before the lookup. -/
def prune (s : NonceSet) (now ttl : Int) (picks : List (List UInt8)) : NonceSet :=
  if (s.lastPrune.all fun last => ttl / 2 < now - last) ∨ s.maxEntries < s.m.entries.length then
    { s with m := evict s.maxEntries picks (s.m.deleteWhere fun _ exp => exp ≤ now), lastPrune := some now }
  else s

def allow (s : NonceSet) (nonce : List UInt8) (now ttl : Int) (picks : List (List UInt8)) : NonceSet × Bool :=
  let ttl := if ttl ≤ 0 then 60 * second else ttl
  let s := s.prune now ttl picks
  if s.live nonce now then (s, false)
  else ({ s with m := s.m.insert nonce (now + ttl) }, true)

end NonceSet

abbrev HandshakeReplayProtector := GoMap String NonceSet

def userOf (userHash : String) : String := if userHash = "" then "_" else userHash

namespace HandshakeReplayProtector

/-- `LoadOrStore` of the set of a user. -/
def set (p : HandshakeReplayProtector) (user : String) : NonceSet := (p.lookup user).getD (newNonceSet 4096)

def allow (p : HandshakeReplayProtector) (userHash : String) (nonce : List UInt8) (now : Int) (picks : List (List UInt8)) :
    HandshakeReplayProtector × Bool :=
  let user := userOf userHash
  let after := (set p user).allow nonce now handshakeReplayTTL picks
  (p.insert user after.1, after.2)

end HandshakeReplayProtector

def KIPClientHello.user (ch : KIPClientHello) : String := userOf (encodeToString ch.userHash)

/-- A hello that reaches the server, with the clock readings of the two checks. -/
structure Presentation where
  hello : KIPClientHello
  checked : Int
  allowed : Int
  picks : List (List UInt8) := []

/-- The server at a time, with the hellos that have passed both checks and the times at which they did. -/
structure Server where
  clock : Int
  replay : HandshakeReplayProtector := ∅
  accepted : List (KIPClientHello × Int) := []

namespace Server

def present (s : Server) (p : Presentation) : Server :=
  if skewed p.checked p.hello then { s with clock := p.allowed }
  else
    let after := s.replay.allow (encodeToString p.hello.userHash) p.hello.nonce p.allowed p.picks
    ⟨p.allowed, after.1, if after.2 then (p.hello, p.allowed) :: s.accepted else s.accepted⟩

/-- Time does not run backwards. A hello that was accepted before does not come back within the skew after its nonce has expired, and the set of its user
has room for the nonces that have not. -/
def Guarded (s : Server) (p : Presentation) : Prop :=
  s.clock ≤ p.allowed ∧ (∀ e ∈ s.accepted, e.1 = p.hello → skewed p.checked p.hello = false → p.allowed < e.2 + handshakeReplayTTL) ∧
    ((s.replay.set p.hello.user).m.deleteWhere fun _ exp => exp ≤ p.allowed).entries.length ≤
      (s.replay.set p.hello.user).maxEntries

def Sound (s : Server) : Prop :=
  (s.accepted.map Prod.fst).Nodup ∧ ∀ e ∈ s.accepted, e.2 ≤ s.clock ∧
    ∀ now, s.clock ≤ now → now < e.2 + handshakeReplayTTL → (s.replay.set e.1.user).live e.1.nonce now = true

end Server

namespace NonceSet

theorem prune_live {s : NonceSet} {nonce : List UInt8} {now later : Int} (ttl : Int) (picks : List (List UInt8))
    (room : (s.m.deleteWhere fun _ exp => exp ≤ now).entries.length ≤ s.maxEntries) (le : now ≤ later)
    (hl : s.live nonce later = true) : (s.prune now ttl picks).live nonce later = true := by
  have hs : evict s.maxEntries picks (s.m.deleteWhere fun _ exp => exp ≤ now) = s.m.deleteWhere fun _ exp => exp ≤ now := by
    cases picks with
    | nil => rfl
    | cons => exact if_neg (by omega)
  unfold prune
  split
  · obtain ⟨exp, ht, hv⟩ := (Option.any_eq_true _ _).mp hl
    simp only [decide_eq_true_eq] at hv
    have hk : ¬ exp ≤ now := by omega
    simp [NonceSet.live, hs, lookup_deleteWhere, ht, hk, hv]
  · exact hl

theorem insert_live (s : NonceSet) (nonce other : List UInt8) (exp now : Int) :
    live { s with m := s.m.insert nonce exp } other now = if other = nonce then decide (now < exp) else s.live other now := by
  unfold live
  rw [lookup_insert_eq]
  split <;> rfl

end NonceSet

namespace Server

theorem set_insert (r : HandshakeReplayProtector) (user other : String) (t : NonceSet) :
    HandshakeReplayProtector.set (r.insert user t) other = if other = user then t else r.set other := by
  unfold HandshakeReplayProtector.set
  rw [lookup_insert_eq]
  split <;> rfl

theorem present_cases (s : Server) (p : Presentation) : s.present p = { s with clock := p.allowed } ∨
    skewed p.checked p.hello = false ∧
      let pruned := (s.replay.set p.hello.user).prune p.allowed handshakeReplayTTL p.picks
      (s.present p = ⟨p.allowed, s.replay.insert p.hello.user pruned, s.accepted⟩ ∨
        pruned.live p.hello.nonce p.allowed = false ∧
          s.present p = ⟨p.allowed, s.replay.insert p.hello.user
            { pruned with m := pruned.m.insert p.hello.nonce (p.allowed + handshakeReplayTTL) },
              (p.hello, p.allowed) :: s.accepted⟩) := by
  unfold present
  split
  · exact .inl rfl
  next hn =>
    refine .inr ⟨by simpa using hn, ?_⟩
    have ttl : ¬ handshakeReplayTTL ≤ 0 := by decide
    simp only [HandshakeReplayProtector.allow, NonceSet.allow, if_neg ttl, KIPClientHello.user]
    split
    · exact .inl rfl
    next hf => exact .inr ⟨by simpa using hf, rfl⟩

theorem Sound.present {s : Server} {p : Presentation} (hs : s.Sound) (hg : s.Guarded p) : (s.present p).Sound := by
  obtain ⟨hn, hs⟩ := hs
  obtain ⟨le, hr, room⟩ := hg
  have past : ∀ e ∈ s.accepted, e.2 ≤ p.allowed := fun e mem => (hs e mem).1.trans le
  have kept : ∀ e ∈ s.accepted, ∀ now, p.allowed ≤ now → now < e.2 + handshakeReplayTTL →
      (s.replay.set e.1.user).live e.1.nonce now = true := fun e mem now hl => (hs e mem).2 now (le.trans hl)
  have hp : ∀ e ∈ s.accepted, ∀ now, p.allowed ≤ now → now < e.2 + handshakeReplayTTL → e.1.user = p.hello.user →
      ((s.replay.set p.hello.user).prune p.allowed handshakeReplayTTL p.picks).live e.1.nonce now = true := by
    intro e mem now hl hv own
    have live := kept e mem now hl hv
    rw [own] at live
    exact NonceSet.prune_live _ _ room hl live
  rcases present_cases s p with same | ⟨near, eq | ⟨hf, eq⟩⟩
  · rw [same]
    exact ⟨hn, fun e mem => ⟨past e mem, kept e mem⟩⟩
  · rw [eq]
    refine ⟨hn, fun e mem => ⟨past e mem, fun now hl hv => ?_⟩⟩
    simp only [set_insert]
    split
    next own => exact hp e mem now hl hv own
    · exact kept e mem now hl hv
  · rw [eq]
    refine ⟨nodup_cons.mpr ⟨fun mem => ?_, hn⟩, fun e mem => ?_⟩
    · obtain ⟨e, hk, same⟩ := mem_map.mp mem
      have live := hp e hk p.allowed le_rfl (hr e hk same near) (by rw [same])
      rw [same, hf] at live
      cases live
    · rcases mem_cons.mp mem with rfl | mem
      · refine ⟨le_rfl, fun now _ hv => ?_⟩
        simpa [set_insert, NonceSet.insert_live] using hv
      · have hb := past e mem
        refine ⟨hb, fun now hl hv => ?_⟩
        simp only [set_insert]
        split
        next own =>
          rw [NonceSet.insert_live]
          split
          · simp only [decide_eq_true_eq]
            omega
          · exact hp e mem now hl hv own
        · exact kept e mem now hl hv

/-- Among presentations that are all guarded no hello passes both checks twice. -/
theorem hello_accepted_once (start : Int) (ps : List Presentation) (guarded : MeetsAlong present Guarded ⟨start, ∅, []⟩ ps) :
    ((ps.foldl present ⟨start, ∅, []⟩).accepted.map Prod.fst).Nodup := by
  have hf : Sound ⟨start, ∅, []⟩ := ⟨nodup_nil, forall_mem_nil _⟩
  exact (foldl_invariant (fun hs hg => hs.present hg) hf guarded).1

/-- A hello whose timestamp is half a minute ahead of the server, at second 1000 and again after `delay` seconds. -/
def replayed (delay : Int) : List Presentation :=
  [⟨⟨[1], [7], 1030⟩, 1000 * second, 1000 * second, []⟩,
    ⟨⟨[1], [7], 1030⟩, (1000 + delay) * second, (1000 + delay) * second, []⟩]

theorem hello_accepted_once_soon : (((replayed 59).foldl present ⟨0, ∅, []⟩).accepted.map Prod.fst).Nodup := by
  refine hello_accepted_once 0 (replayed 59) ⟨?_, ?_, trivial⟩ <;> unfold Guarded <;> decide +kernel

/-- After the lifetime of its nonce the hello is still within the skew and passes again. -/
theorem hello_accepted_twice : ¬ (((replayed 61).foldl present ⟨0, ∅, []⟩).accepted.map Prod.fst).Nodup := by
  decide +kernel

end Server

end AsterCore.Sudoku
