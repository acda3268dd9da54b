import AsterCore.GoMap
import Mathlib.Algebra.BigOperators.Group.Finset.Basic

namespace AsterCore.Xhttp

open List Option GoMap

/-- An upload queue without a stream for its reader. `ready` is absent while `hasReady` is not set, and `reserved` is what the
byte budget has given to the queue and not got back. -/
structure UploadQueue where
  packets : GoMap Nat (List UInt8) := ∅
  nextSeq : Nat := 0
  buf : List UInt8 := []
  ready : Option (List UInt8) := none
  maxPackets : Int
  maxBytes : Int
  queuedBytes : Int := 0
  reserved : Int := 0

inductive ReadResult
  | data (b : List UInt8)
  | tooLarge
  | waits

namespace UploadQueue

def storedPackets (q : UploadQueue) : Nat := q.packets.entries.length + if q.ready.isSome then 1 else 0

def previous (q : UploadQueue) (seq : Nat) : Option (List UInt8) := if seq = q.nextSeq then q.ready else q.packets.lookup seq

def isFull (q : UploadQueue) : Bool := 0 < q.maxPackets && q.maxPackets ≤ q.storedPackets

def canPush (q : UploadQueue) (seq : Nat) : Bool := (q.previous seq).isSome || !q.isFull

/-- `Push`; `granted` is what `reserveBytes` answers. Nothing stands for `ErrQueueTooLarge`. -/
def push (q : UploadQueue) (seq : Nat) (payload : List UInt8) (granted : Bool) : Option UploadQueue :=
  let delta : Int := payload.length - ((q.previous seq).getD []).length
  if q.canPush seq = false then none
  else if 0 < q.maxBytes ∧ q.maxBytes < q.queuedBytes + delta then none
  else if 0 < delta ∧ granted = false then none
  else
    let q' := { q with queuedBytes := q.queuedBytes + delta, reserved := q.reserved + delta }
    some (if seq = q.nextSeq then { q' with ready := some payload } else { q' with packets := q.packets.insert seq payload })

/-- The turns of the loop of `Read` that take the next packet. -/
def take (q : UploadQueue) : Option UploadQueue :=
  match q.ready, q.packets.lookup q.nextSeq with
  | some payload, _ => some { q with buf := payload, ready := none, nextSeq := q.nextSeq + 1 }
  | none, some payload => some { q with buf := payload, packets := q.packets.erase q.nextSeq, nextSeq := q.nextSeq + 1 }
  | none, none => none

/-- The loop of `Read` up to a byte or an end of the packets; every turn takes one of those stored. -/
def fill : Nat → UploadQueue → UploadQueue
  | 0, q => q
  | n + 1, q => if q.buf = [] then (q.take.map (fill n)).getD q else q

def read (q : UploadQueue) (n : Nat) : UploadQueue × ReadResult :=
  let q := fill q.storedPackets q
  if q.buf = [] then (q, if q.isFull then .tooLarge else .waits)
  else
    let b := q.buf.take n
    ({ q with buf := q.buf.drop n, queuedBytes := q.queuedBytes - b.length, reserved := q.reserved - b.length }, .data b)

end UploadQueue

inductive Op
  | push (seq : Nat) (granted : Bool)
  | read (n : Nat)

/-- An upload with the payloads `P`: what its reader has got, and the packets that the queue took. -/
structure Upload where
  queue : UploadQueue
  out : List UInt8 := []
  received : Finset Nat := ∅

namespace Upload

def step (P : Nat → List UInt8) (u : Upload) : Op → Upload
  | .push seq granted =>
    match u.queue.push seq (P seq) granted with
    | none => u
    | some q => { u with queue := q, received := insert seq u.received }
  | .read n =>
    match u.queue.read n with
    | (q, .data b) => { u with queue := q, out := u.out ++ b }
    | (q, _) => { u with queue := q }

def waiting (u : Upload) : Finset Nat := u.received.filter (u.queue.nextSeq ≤ ·)

end Upload

/-- A packet is not pushed again after it was read, or when it is the next one and in the map. -/
def Fresh (q : UploadQueue) : Op → Prop
  | .push seq _ => q.nextSeq ≤ seq ∧ (seq = q.nextSeq → q.packets.lookup seq = none)
  | .read _ => True

def FreshAlong (P : Nat → List UInt8) : Upload → List Op → Prop
  | _, [] => True
  | u, op :: ops => Fresh u.queue op ∧ FreshAlong P (u.step P op) ops

structure Ordered (P : Nat → List UInt8) (out : List UInt8) (q : UploadQueue) : Prop where
  order : out ++ q.buf = (List.range q.nextSeq).flatMap P
  ready : ∀ payload, q.ready = some payload → payload = P q.nextSeq
  packets : ∀ seq payload, q.packets.lookup seq = some payload → payload = P seq

structure Counted (P : Nat → List UInt8) (received : Finset Nat) (q : UploadQueue) : Prop where
  ahead : ∀ seq, (q.packets.lookup seq).isSome → q.nextSeq ≤ seq
  apart : q.ready.isSome → q.packets.lookup q.nextSeq = none
  stored : ∀ seq, q.nextSeq ≤ seq → (seq ∈ received ↔ (q.packets.lookup seq).isSome ∨ seq = q.nextSeq ∧ q.ready.isSome)
  bytes : q.queuedBytes = q.buf.length + ∑ seq ∈ received.filter (q.nextSeq ≤ ·), ((P seq).length : Int)
  slots : (q.storedPackets : Int) = ∑ _ ∈ received.filter (q.nextSeq ≤ ·), 1
  balanced : q.reserved = q.queuedBytes
  bounded : 0 < q.maxBytes → q.queuedBytes ≤ q.maxBytes

variable {P : Nat → List UInt8} {out : List UInt8} {q q' : UploadQueue} {received : Finset Nat}

theorem Ordered.take (h : Ordered P out q) (he : q.buf = []) (ht : q.take = some q') : Ordered P out q' := by
  have ho := h.order
  rw [he] at ho
  unfold UploadQueue.take at ht
  split at ht <;> cases ht
  next payload hth =>
    refine ⟨?_, nofun, h.packets⟩
    rw [range_succ, flatMap_append, ← ho, h.ready payload hth]
    simp
  next payload hn hth =>
    refine ⟨?_, fun payload sent => ?_, fun seq payload hf => h.packets seq payload (lookup_of_erase hf).2⟩
    · rw [range_succ, flatMap_append, ← ho, h.packets _ payload hth]
      simp
    · rw [hn] at sent
      cases sent

variable {n : Nat}

theorem sum_filter_succ (mem : n ∈ received) (f : Nat → Int) :
    ∑ seq ∈ received.filter (n ≤ ·), f seq = f n + ∑ seq ∈ received.filter (n + 1 ≤ ·), f seq := by
  have hs : received.filter (n ≤ ·) = insert n (received.filter (n + 1 ≤ ·)) := by
    ext seq
    simp only [Finset.mem_filter, Finset.mem_insert]
    constructor
    · rintro ⟨ht, le⟩
      rcases Nat.eq_or_lt_of_le le with rfl | lt
      · exact .inl rfl
      · exact .inr ⟨ht, lt⟩
    · rintro (rfl | ⟨ht, _⟩)
      · exact ⟨mem, Nat.le_refl _⟩
      · exact ⟨ht, by omega⟩
  rw [hs, Finset.sum_insert (by simp)]

theorem storedPackets_take (ht : q.take = some q') : q.storedPackets = q'.storedPackets + 1 := by
  unfold UploadQueue.take at ht
  split at ht <;> cases ht
  next hth => simp [UploadQueue.storedPackets, hth]
  next none hth =>
    have := length_erase_of_lookup hth
    simp only [UploadQueue.storedPackets]
    omega

theorem Counted.take (h : Counted P received q) (ho : Ordered P out q) (he : q.buf = []) (ht : q.take = some q') :
    Counted P received q' := by
  have hb := h.bytes
  have hs := h.slots
  rw [he] at hb
  rw [storedPackets_take ht] at hs
  unfold UploadQueue.take at ht
  split at ht <;> cases ht
  next payload hth =>
    have ha := h.apart (by rw [hth]; rfl)
    have mem := (h.stored _ le_rfl).mpr (.inr ⟨rfl, by rw [hth]; rfl⟩)
    refine ⟨fun seq hf => ?_, nofun, fun seq le => ?_, ?_, ?_, h.balanced, h.bounded⟩
    · have := h.ahead seq hf
      have : seq ≠ q.nextSeq := fun same => by rw [same, ha] at hf; cases hf
      dsimp only
      omega
    · rw [h.stored seq (Nat.le_of_succ_le le)]
      simp [Nat.ne_of_gt (Nat.lt_of_succ_le le)]
    · rw [sum_filter_succ mem] at hb
      simpa [ho.ready payload hth] using hb
    · rw [sum_filter_succ mem] at hs
      dsimp only
      omega
  next payload hn hth =>
    have mem := (h.stored _ le_rfl).mpr (.inl (by rw [hth]; rfl))
    refine ⟨fun seq hf => ?_, fun sent => by simp [hn] at sent, fun seq le => ?_, ?_, ?_, h.balanced, h.bounded⟩
    · obtain ⟨_, hf⟩ := isSome_iff_exists.mp hf
      obtain ⟨_, hf⟩ := lookup_of_erase hf
      have := h.ahead seq (by rw [hf]; rfl)
      dsimp only
      omega
    · have ne : seq ≠ q.nextSeq := Nat.ne_of_gt (Nat.lt_of_succ_le le)
      rw [h.stored seq (Nat.le_of_succ_le le), lookup_erase_eq]
      simp [hn, ne]
    · rw [sum_filter_succ mem] at hb
      simpa [ho.packets _ payload hth] using hb
    · rw [sum_filter_succ mem] at hs
      dsimp only
      omega

theorem fill_ends : ∀ (n : Nat) (q : UploadQueue), q.storedPackets ≤ n → (q.fill n).buf = [] → (q.fill n).take = none
  | 0, q, le, _ => by
    cases ht : q.take with
    | none => exact ht
    | some =>
      have := storedPackets_take ht
      omega
  | n + 1, q, le, he => by
    unfold UploadQueue.fill at he ⊢
    split at he
    next none =>
      rw [if_pos none]
      cases ht : q.take with
      | none => exact ht
      | some q' =>
        have := storedPackets_take ht
        rw [ht] at he
        exact fill_ends n q' (by omega) he
    · contradiction

theorem fill_kept (n : Nat) (ho : Ordered P out q) :
    Ordered P out (q.fill n) ∧ (Counted P received q → Counted P received (q.fill n)) := by
  induction n generalizing q with
  | zero => exact ⟨ho, id⟩
  | succ _ ih =>
    unfold UploadQueue.fill
    split
    next he =>
      cases ht : q.take with
      | none => exact ⟨ho, id⟩
      | some =>
        obtain ⟨hk, hc⟩ := ih (ho.take he ht)
        exact ⟨hk, fun h => hc (h.take ho he ht)⟩
    · exact ⟨ho, id⟩

variable {seq : Nat} {granted : Bool}

theorem push_eq_some {payload : List UInt8} (hp : q.push seq payload granted = some q') :
    ∃ total, total = q.queuedBytes + (payload.length - ((q.previous seq).getD []).length) ∧
      (0 < q.maxBytes → total ≤ q.maxBytes) ∧ ∃ kept, kept = q.reserved + (total - q.queuedBytes) ∧
      (seq = q.nextSeq ∧ q' = { q with ready := some payload, queuedBytes := total, reserved := kept } ∨
        seq ≠ q.nextSeq ∧ q' = { q with packets := q.packets.insert seq payload, queuedBytes := total, reserved := kept }) := by
  unfold UploadQueue.push at hp
  dsimp only at hp
  split at hp
  · cases hp
  split at hp
  · cases hp
  next fits =>
    split at hp
    · cases hp
    refine ⟨_, rfl, fun limit => by omega, _, rfl, ?_⟩
    rw [add_sub_cancel_left]
    split at hp <;> cases hp
    next hs => exact .inl ⟨hs, rfl⟩
    next ho => exact .inr ⟨ho, rfl⟩

theorem Ordered.push (h : Ordered P out q) (hp : q.push seq (P seq) granted = some q') : Ordered P out q' := by
  obtain ⟨_, _, _, _, _, ⟨hs, rfl⟩ | ⟨_, rfl⟩⟩ := push_eq_some hp
  · refine ⟨h.order, fun payload hr => ?_, h.packets⟩
    cases hr
    rw [hs]
  · refine ⟨h.order, h.ready, fun j payload hf => ?_⟩
    rw [lookup_insert_eq] at hf
    split at hf
    next hs =>
      cases hf
      rw [hs]
    · exact h.packets j payload hf

theorem Ordered.previous (h : Ordered P out q) {payload : List UInt8} (hf : q.previous seq = some payload) :
    payload = P seq := by
  unfold UploadQueue.previous at hf
  split at hf
  next hs =>
    rw [hs]
    exact h.ready payload hf
  · exact h.packets seq payload hf

theorem Counted.mem_iff (h : Counted P received q) (hf : Fresh q (.push seq granted)) :
    seq ∈ received ↔ (q.previous seq).isSome := by
  rw [h.stored seq hf.1]
  unfold UploadQueue.previous
  split
  next hs => simp [hf.2 hs, hs]
  next ho => simp [ho]

theorem sum_filter_insert (le : n ≤ seq) (f : Nat → Int) :
    ∑ j ∈ (insert seq received).filter (n ≤ ·), f j =
      ∑ j ∈ received.filter (n ≤ ·), f j + if seq ∈ received then 0 else f seq := by
  split
  next mem => rw [Finset.insert_eq_of_mem mem, add_zero]
  next new => rw [Finset.filter_insert, if_pos le, Finset.sum_insert (by simp [new]), add_comm]

theorem Counted.push (h : Counted P received q) (ho : Ordered P out q) (hfr : Fresh q (.push seq granted))
    (hp : q.push seq (P seq) granted = some q') : Counted P (insert seq received) q' := by
  obtain ⟨total, hte, fits, kept, hke, hp⟩ := push_eq_some hp
  have mem := h.mem_iff hfr
  have hd : ((P seq).length : Int) - ((q.previous seq).getD []).length =
      if seq ∈ received then 0 else ((P seq).length : Int) := by
    cases hf : q.previous seq with
    | none => simp [mem, hf]
    | some => simp [mem, hf, ho.previous hf]
  have hby : total = q.buf.length + ∑ j ∈ (insert seq received).filter (q.nextSeq ≤ ·), ((P j).length : Int) := by
    rw [sum_filter_insert hfr.1, hte, h.bytes, hd, add_assoc]
  have hs : (q.storedPackets : Int) + (if (q.previous seq).isSome then 0 else 1) =
      ∑ _ ∈ (insert seq received).filter (q.nextSeq ≤ ·), 1 := by
    rw [sum_filter_insert hfr.1, ← h.slots]
    simp only [mem]
  have hb : kept = total := by
    rw [hke, h.balanced, add_sub_cancel]
  obtain ⟨same, rfl⟩ | ⟨hot, rfl⟩ := hp
  · refine ⟨h.ahead, fun _ => same ▸ hfr.2 same, fun j le => ?_, hby, ?_, hb, fits⟩
    · rw [Finset.mem_insert, h.stored j le, same]
      by_cases hfi : j = q.nextSeq <;> simp [hfi]
    · rw [← hs]
      simp only [UploadQueue.storedPackets, UploadQueue.previous, if_pos same]
      cases q.ready <;> simp
  · refine ⟨fun j hf => ?_, fun hr => ?_, fun j le => ?_, hby, ?_, hb, fits⟩
    · dsimp only at hf
      rw [lookup_insert_eq] at hf
      split at hf
      next same =>
        rw [same]
        exact hfr.1
      · exact h.ahead j hf
    · dsimp only
      rw [lookup_insert_eq, if_neg (Ne.symm hot)]
      exact h.apart hr
    · dsimp only
      rw [Finset.mem_insert, h.stored j le, lookup_insert_eq]
      by_cases hfi : j = seq <;> simp [hfi]
    · rw [← hs]
      simp only [UploadQueue.storedPackets, UploadQueue.previous, length_insert_eq]
      split <;> push_cast <;> omega

theorem read_data {b : List UInt8} (h : q.read n = (q', .data b)) (ho : Ordered P out q) :
    Ordered P (out ++ b) q' ∧ (Counted P received q → Counted P received q') := by
  obtain ⟨hk, hc⟩ := @fill_kept P out q received q.storedPackets ho
  unfold UploadQueue.read at h
  dsimp only at h
  split at h
  · split at h <;> cases h
  cases h
  refine ⟨⟨?_, hk.ready, hk.packets⟩, fun hst => ?_⟩
  · rw [← hk.order, append_assoc, take_append_drop]
  · obtain ⟨hah, ha, hs, bytes, hsl, hb, hbo⟩ := hc hst
    refine ⟨hah, ha, hs, ?_, hsl, ?_, fun hl => ?_⟩
    · dsimp only
      rw [length_drop, length_take]
      omega
    · dsimp only
      rw [hb]
    · have := hbo hl
      dsimp only
      omega

theorem read_nothing {r : ReadResult} (h : q.read n = (q', r)) (hn : ∀ b, r ≠ .data b) (ho : Ordered P out q) :
    Ordered P out q' ∧ (Counted P received q → Counted P received q' ∧ q'.nextSeq ∉ received) := by
  have hk := @fill_kept P out q received q.storedPackets ho
  unfold UploadQueue.read at h
  dsimp only at h
  split at h <;> cases h
  next he =>
    refine ⟨hk.1, fun hs => ⟨hk.2 hs, ?_⟩⟩
    have ends := fill_ends _ q le_rfl he
    unfold UploadQueue.take at ends
    split at ends
    · cases ends
    · cases ends
    next hr hp =>
      rw [(hk.2 hs).stored _ (Nat.le_refl _), hr, hp]
      simp
  · exact absurd rfl (hn _)

theorem step_kept {u : Upload} {op : Op} (ho : Ordered P u.out u.queue) (h : Counted P u.received u.queue)
    (hf : Fresh u.queue op) :
    Ordered P (u.step P op).out (u.step P op).queue ∧ Counted P (u.step P op).received (u.step P op).queue := by
  cases op with
  | push =>
    unfold Upload.step
    dsimp only
    split
    · exact ⟨ho, h⟩
    next hp => exact ⟨ho.push hp, h.push ho hf hp⟩
  | read =>
    unfold Upload.step
    dsimp only
    split
    next eq =>
      obtain ⟨hk, hc⟩ := read_data eq ho
      exact ⟨hk, hc h⟩
    next hn eq =>
      obtain ⟨hk, hc⟩ := read_nothing eq hn ho
      exact ⟨hk, (hc h).1⟩

theorem run_kept : ∀ (ops : List Op) (u : Upload), Ordered P u.out u.queue → Counted P u.received u.queue → FreshAlong P u ops →
    Ordered P (ops.foldl (Upload.step P) u).out (ops.foldl (Upload.step P) u).queue ∧
      Counted P (ops.foldl (Upload.step P) u).received (ops.foldl (Upload.step P) u).queue
  | [], _, ho, h, _ => ⟨ho, h⟩
  | _ :: ops, _, ho, h, hf => by
    obtain ⟨ho, h⟩ := step_kept ho h hf.1
    exact run_kept ops _ ho h hf.2

theorem push_again (h : Counted P received q) (ho : Ordered P out q) (ht : (q.previous seq).isSome) :
    ∃ q', q.push seq (P seq) granted = some q' ∧ q'.queuedBytes = q.queuedBytes ∧ q'.reserved = q.reserved := by
  obtain ⟨_, hf⟩ := isSome_iff_exists.mp ht
  have fits : ¬(0 < q.maxBytes ∧ q.maxBytes < q.queuedBytes) := fun ⟨hl, more⟩ => absurd (h.bounded hl) (by omega)
  simp only [UploadQueue.push, UploadQueue.canPush, hf, ← ho.previous hf, isSome_some, getD_some, sub_self,
    add_zero, fits, Int.lt_irrefl, Bool.true_or, Bool.true_eq_false, false_and, if_false, some.injEq, exists_eq_left']
  split <;> exact ⟨rfl, rfl⟩

/-- In a run without pushes of a packet that was read or that lies in the map as the next one, what was read is the payloads in
their order, the counters are those of the packets received and not read, a push of one of these is taken without a change of them,
and a read gives nothing only when the next packet was not received. -/
theorem upload_in_order (P : Nat → List UInt8) (maxPackets maxBytes : Int) (ops : List Op)
    (fresh : FreshAlong P { queue := { maxPackets, maxBytes } } ops) :
    let u := ops.foldl (Upload.step P) { queue := { maxPackets, maxBytes } }
    u.out ++ u.queue.buf = (range u.queue.nextSeq).flatMap P ∧
    u.queue.queuedBytes = u.queue.buf.length + ∑ seq ∈ u.waiting, ((P seq).length : Int) ∧
    u.queue.reserved = u.queue.queuedBytes ∧
    u.queue.storedPackets = u.waiting.card ∧
    (∀ seq ∈ u.waiting, ∀ granted, Fresh u.queue (.push seq granted) → ∃ q, u.queue.push seq (P seq) granted = some q ∧
      q.queuedBytes = u.queue.queuedBytes ∧ q.reserved = u.queue.reserved) ∧
    ∀ n q r, u.queue.read n = (q, r) → (∀ b, r ≠ .data b) → q.nextSeq ∉ u.received := by
  intro u
  have hst : Counted P ∅ { maxPackets, maxBytes } :=
    ⟨fun _ hn => (nomatch hn), fun hn => (nomatch hn), fun _ _ => ⟨fun mem => by simp at mem, fun hn => by simp at hn⟩,
      rfl, rfl, rfl, Int.le_of_lt⟩
  obtain ⟨ho, h⟩ := run_kept ops { queue := { maxPackets, maxBytes } }
    ⟨rfl, nofun, nofun⟩ hst fresh
  have hs := h.slots
  rw [Finset.sum_const, nsmul_eq_mul, mul_one] at hs
  refine ⟨ho.order, h.bytes, h.balanced, Int.ofNat.inj hs, fun seq mem granted ha => ?_, fun n q r read hn => ?_⟩
  · exact push_again h ho ((h.mem_iff ha).mp (Finset.mem_of_mem_filter seq mem))
  · exact ((read_nothing read hn ho).2 h).2

def bytesOf (seq : Nat) : List UInt8 := [seq.toUInt8, 7]

/-- Two packets in the other order, one of them twice. -/
theorem upload_in_order_swapped :
    let ops : List Op := [.push 1 true, .push 1 true, .push 0 true, .read 3, .read 1]
    let u := ops.foldl (Upload.step bytesOf) { queue := { maxPackets := 2, maxBytes := 4 } }
    FreshAlong bytesOf { queue := { maxPackets := 2, maxBytes := 4 } } ops ∧ u.out = [0, 7, 1] ∧ u.queue.reserved = u.queue.queuedBytes := by
  have hf : FreshAlong bytesOf { queue := { maxPackets := 2, maxBytes := 4 } }
      [.push 1 true, .push 1 true, .push 0 true, .read 3, .read 1] :=
    ⟨⟨by decide, by decide⟩, ⟨by decide, by decide⟩, ⟨by decide, by decide⟩, trivial, trivial, trivial⟩
  exact ⟨hf, by decide, (upload_in_order bytesOf 2 4 _ hf).2.2.1⟩

/-- The only packet of an upload pushed again after it was read: everything is read, and a packet of two bytes is stored. -/
theorem upload_in_order_not :
    let u := ([.push 0 true, .read 2, .push 0 true] : List Op).foldl (Upload.step bytesOf) { queue := { maxPackets := 1, maxBytes := 4 } }
    u.out = bytesOf 0 ∧ u.waiting = ∅ ∧ u.queue.queuedBytes = 2 ∧ u.queue.storedPackets = 1 ∧
      u.queue.push 1 (bytesOf 1) true = none ∧ u.queue.canPush 1 = false := by
  decide

end AsterCore.Xhttp
