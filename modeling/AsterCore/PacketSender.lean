import AsterCore.Interleaving
import Mathlib.Data.List.Nodup
import Mathlib.Data.List.Perm.Basic

namespace AsterCore.Tunnel

open List

/-- What the calls of a `packetSender` share. A packet is known by the number of the `Send` call it is passed to, and
`coin` is what a select with several ready cases takes. The lists after it record what happened: the packets in the order
in which they entered and left the channel, those that a call has taken out and not yet dropped, those processed,
those dropped, those that `Send` dropped itself, and the `Send` calls that returned with their packet in the channel. -/
structure PacketSender where
  capacity : Nat
  cancelled : Bool := false
  ch : List Nat := []
  coin : Bool := false
  entered : List Nat := []
  taken : List Nat := []
  held : List (Nat × Nat) := []
  processed : List Nat := []
  dropped : List Nat := []
  refused : List Nat := []
  left : List Nat := []

inductive SenderCaller
  | send
  | process
  | close
  deriving DecidableEq

/-- Where a call stands: `Send` before its two selects, its check after the enqueue and its own `Drop`, `Process` in its
select, before and after the work of `processPacket`, `Close` before the cancel, and `dropAll` for each of them. -/
inductive SenderCall
  | send
  | put
  | recheck
  | refuse
  | process
  | processing (packet : Nat)
  | finishing (packet : Nat)
  | close
  | dropAll (caller : SenderCaller)
  | drop (caller : SenderCaller) (packet : Nat)
  | returned (caller : SenderCaller)
  deriving DecidableEq

namespace PacketSender

def enqueue (s : PacketSender) (packet : Nat) : PacketSender :=
  { s with ch := s.ch ++ [packet], entered := s.entered ++ [packet] }

/-- The call `i` receives the packet at the front of the channel. -/
def receive (s : PacketSender) (i packet : Nat) (ch : List Nat) : PacketSender :=
  { s with ch := ch, taken := s.taken ++ [packet], held := (i, packet) :: s.held }

/-- The call `i` drops a packet that it has received. -/
def dropHeld (s : PacketSender) (i packet : Nat) : PacketSender :=
  { s with held := s.held.erase (i, packet), dropped := s.dropped ++ [packet] }

def leave (s : PacketSender) (caller : SenderCaller) (i : Nat) : PacketSender :=
  if caller = .send then { s with left := i :: s.left } else s

/-- The next step of a call, with what it makes of the memory for the call's number; none while it has to wait. -/
def next (s : PacketSender) : SenderCall → Option ((Nat → PacketSender) × SenderCall)
  | .send => some (fun _ => s, if s.cancelled then .refuse else .put)
  | .put =>
    if s.ch.length < s.capacity ∧ (s.cancelled = false ∨ s.coin = true) then some (s.enqueue, .recheck)
    else some (fun _ => s, .refuse)
  | .refuse => some (fun i => { s with dropped := s.dropped ++ [i], refused := s.refused ++ [i] }, .returned .send)
  | .recheck => if s.cancelled then some (fun _ => s, .dropAll .send) else some (s.leave .send, .returned .send)
  | .process =>
    match s.ch with
    | [] => if s.cancelled then some (fun _ => s, .dropAll .process) else none
    | packet :: ch =>
      if s.cancelled = true ∧ s.coin = true then some (fun _ => s, .dropAll .process)
      else some (fun i => s.receive i packet ch, .processing packet)
  | .processing packet => some (fun _ => { s with processed := s.processed ++ [packet] }, .finishing packet)
  | .finishing packet => some (fun i => s.dropHeld i packet, .process)
  | .close => some (fun _ => { s with cancelled := true }, .dropAll .close)
  | .dropAll caller =>
    match s.ch with
    | [] => some (s.leave caller, .returned caller)
    | packet :: ch => some (fun i => s.receive i packet ch, .drop caller packet)
  | .drop caller packet => some (fun i => s.dropHeld i packet, .dropAll caller)
  | .returned _ => none

inductive Next (s : PacketSender) (i : Nat) : SenderCall → PacketSender → SenderCall → Prop
  | closed : s.cancelled = true → Next s i .send s .refuse
  | opened : Next s i .send s .put
  | enqueue : Next s i .put (s.enqueue i) .recheck
  | full : Next s i .put s .refuse
  | refuse : Next s i .refuse { s with dropped := s.dropped ++ [i], refused := s.refused ++ [i] } (.returned .send)
  | drain : Next s i .recheck s (.dropAll .send)
  | leave : s.cancelled = false → Next s i .recheck { s with left := i :: s.left } (.returned .send)
  | stop : Next s i .process s (.dropAll .process)
  | take (packet : Nat) (ch : List Nat) : s.ch = packet :: ch →
      Next s i .process (s.receive i packet ch) (.processing packet)
  | work (packet : Nat) :
      Next s i (.processing packet) { s with processed := s.processed ++ [packet] } (.finishing packet)
  | finish (packet : Nat) : Next s i (.finishing packet) (s.dropHeld i packet) .process
  | cancel : Next s i .close { s with cancelled := true } (.dropAll .close)
  | drained (caller : SenderCaller) : s.ch = [] → Next s i (.dropAll caller) (s.leave caller i) (.returned caller)
  | receive (caller : SenderCaller) (packet : Nat) (ch : List Nat) : s.ch = packet :: ch →
      Next s i (.dropAll caller) (s.receive i packet ch) (.drop caller packet)
  | drop (caller : SenderCaller) (packet : Nat) :
      Next s i (.drop caller packet) (s.dropHeld i packet) (.dropAll caller)

theorem next_cases {s : PacketSender} {t t' : SenderCall} {a : Nat → PacketSender} (h : s.next t = some (a, t'))
    (i : Nat) : Next s i t (a i) t' := by
  cases t with
  | send =>
    cases h
    split
    next hc => exact .closed hc
    · exact .opened
  | put =>
    simp only [next] at h
    split at h <;> cases h
    · exact .enqueue
    · exact .full
  | recheck =>
    simp only [next] at h
    split at h <;> cases h
    · exact .drain
    next ho => exact .leave (by simpa using ho)
  | process =>
    simp only [next] at h
    split at h
    · split at h <;> cases h
      exact .stop
    next packet ch hf =>
      split at h <;> cases h
      · exact .stop
      · exact .take packet ch hf
  | dropAll caller =>
    simp only [next] at h
    split at h <;> cases h
    next he => exact .drained caller he
    next packet ch hf => exact .receive caller packet ch hf
  | refuse =>
    cases h
    exact .refuse
  | processing packet =>
    cases h
    exact .work packet
  | finishing packet =>
    cases h
    exact .finish packet
  | close =>
    cases h
    exact .cancel
  | drop caller packet =>
    cases h
    exact .drop caller packet
  | returned => cases h

end PacketSender

/-- The calls of one sender. Nothing is locked; the environment is what decides the selects. -/
def senderProgram : Program PacketSender SenderCall (Nat → PacketSender) Bool Empty where
  next := PacketSender.next
  perform i a _ := a i
  environment coin s := { s with coin := coin }
  entry _ t := t = .send ∨ t = .close
  held _ := []
  takes _ := []
  clash _ _ := false
  clash_symm _ _ := rfl
  entry_held _ := rfl
  next_held _ _ h := by cases h

/-- A new sender, with its `Process` loop or without one. -/
def senderStart (capacity : Nat) (looped : Bool) : World PacketSender SenderCall :=
  ⟨{ capacity := capacity }, if looped then [.process] else []⟩

namespace SenderCall

@[simp] def Gave : SenderCall → Prop
  | .recheck => True
  | .dropAll caller | .drop caller _ | .returned caller => caller = .send
  | _ => False

@[simp] def Loops : SenderCall → Prop
  | .process | .processing _ | .finishing _ => True
  | .dropAll caller | .drop caller _ | .returned caller => caller = .process
  | _ => False

@[simp] def Closing : SenderCall → Prop
  | .dropAll caller | .drop caller _ | .returned caller => caller = .close
  | _ => False

@[simp] def packet? : SenderCall → Option Nat
  | .processing packet | .finishing packet | .drop _ packet => some packet
  | _ => none

end SenderCall

namespace PacketSender

def given (s : PacketSender) : List Nat := s.entered ++ s.refused

structure Conserved (s : PacketSender) (calls : Nat) : Prop where
  fifo : s.entered = s.taken ++ s.ch
  places : (s.held.map Prod.snd ++ s.dropped).Perm (s.taken ++ s.refused)
  nodup : s.given.Nodup
  known : ∀ packet ∈ s.given, packet < calls
  holders : ∀ e ∈ s.held, e.1 < calls
  leavers : ∀ packet ∈ s.left, packet < calls
  ordered : s.processed.Sublist s.taken

structure At (s : PacketSender) (i : Nat) (t : SenderCall) : Prop where
  gave : i ∈ s.given ↔ t.Gave
  left : i ∈ s.left → t = .returned .send
  gone : t = .returned .send → i ∈ s.entered → i ∈ s.left
  holds : ∀ packet, (i, packet) ∈ s.held ↔ t.packet? = some packet
  loops : t.Loops → i = 0
  working : ∀ packet, t = .processing packet → (s.processed ++ [packet]).Sublist s.taken
  closing : t.Closing → s.cancelled = true
  closed : t = .returned .close → ∀ packet ∈ s.ch, packet ∉ s.left

variable {s : PacketSender} {n i j packet : Nat} {t u : SenderCall} {ch : List Nat}

namespace Conserved

section

variable (h : Conserved s n)

include h

theorem placed_nodup : (s.held.map Prod.snd ++ s.dropped).Nodup := by
  have hg := h.nodup
  rw [PacketSender.given, h.fifo, append_assoc] at hg
  have hp := hg.sublist ((List.Sublist.refl s.taken).append (sublist_append_right s.ch s.refused))
  exact h.places.nodup_iff.mpr hp

theorem held_nodup : s.held.Nodup :=
  List.Nodup.of_map Prod.snd (nodup_append.mp h.placed_nodup).1

theorem released (hh : ∀ q, (i, q) ∈ s.held ↔ some packet = some q) (q : Nat) : (i, q) ∉ s.held.erase (i, packet) := by
  intro mem
  obtain ⟨ne, old⟩ := h.held_nodup.mem_erase_iff.mp mem
  obtain rfl := Option.some.inj ((hh q).mp old)
  exact ne rfl

theorem mono : Conserved s (n + 1) :=
  { h with
    known := fun packet mem => Nat.lt_succ_of_lt (h.known packet mem)
    holders := fun e mem => Nat.lt_succ_of_lt (h.holders e mem)
    leavers := fun packet mem => Nat.lt_succ_of_lt (h.leavers packet mem) }

theorem enqueue (hf : i ∉ s.given) (lt : i < n) : Conserved (s.enqueue i) n := by
  have hp : (s.enqueue i).given.Perm (i :: s.given) := by
    simp [PacketSender.enqueue, given]
  refine { h with fifo := ?_, nodup := ?_, known := ?_ }
  · simp [PacketSender.enqueue, h.fifo]
  · exact hp.nodup_iff.mpr (nodup_cons.mpr ⟨hf, h.nodup⟩)
  · intro packet mem
    rcases mem_cons.mp (hp.mem_iff.mp mem) with rfl | old
    · exact lt
    · exact h.known packet old

theorem refuse (hf : i ∉ s.given) (lt : i < n) :
    Conserved { s with dropped := s.dropped ++ [i], refused := s.refused ++ [i] } n := by
  have hg : s.entered ++ (s.refused ++ [i]) = s.given ++ [i] := (append_assoc ..).symm
  refine { h with places := ?_, nodup := ?_, known := ?_ }
  · simpa only [append_assoc] using h.places.append_right [i]
  · rw [PacketSender.given, hg]
    exact (perm_append_singleton i s.given).nodup_iff.mpr (nodup_cons.mpr ⟨hf, h.nodup⟩)
  · intro packet mem
    rw [PacketSender.given, hg] at mem
    rcases mem_append.mp mem with old | new
    · exact h.known packet old
    · rw [mem_singleton.mp new]
      exact lt

theorem receive (hf : s.ch = packet :: ch) (lt : i < n) : Conserved (s.receive i packet ch) n := by
  refine { h with fifo := ?_, places := ?_, holders := ?_, ordered := ?_ }
  · simp [PacketSender.receive, h.fifo, hf]
  · have hm : (s.taken ++ [packet] ++ s.refused).Perm (packet :: (s.taken ++ s.refused)) := by
      simp
    exact (h.places.cons packet).trans hm.symm
  · intro e mem
    rcases mem_cons.mp mem with rfl | old
    · exact lt
    · exact h.holders e old
  · exact h.ordered.trans (sublist_append_left ..)

theorem dropHeld (hh : (i, packet) ∈ s.held) : Conserved (s.dropHeld i packet) n := by
  have hm := (perm_cons_erase hh).map Prod.snd
  refine { h with places := ?_, holders := fun e mem => h.holders e (mem_of_mem_erase mem) }
  have hb : ((s.held.erase (i, packet)).map Prod.snd ++ (s.dropped ++ [packet])).Perm (s.held.map Prod.snd ++ s.dropped) := by
    rw [← append_assoc]
    exact (perm_append_singleton packet _).trans (hm.symm.append_right s.dropped)
  exact hb.trans h.places

theorem leave (lt : i < n) : Conserved { s with left := i :: s.left } n := by
  refine { h with leavers := fun packet mem => ?_ }
  rcases mem_cons.mp mem with rfl | old
  · exact lt
  · exact h.leavers packet old

end

end Conserved

/-! A step of the call `i` and what is known for another call. -/

namespace At

section

variable (h : At s j u)

include h

theorem enqueue_other (ne : j ≠ i) (hf : i ∉ s.left) : At (s.enqueue i) j u := by
  have hg : j ∈ (s.enqueue i).given ↔ j ∈ s.given := by simp [PacketSender.enqueue, PacketSender.given, ne]
  refine { h with gave := hg.trans h.gave, gone := ?_, closed := ?_ }
  · intro hr mem
    rcases mem_append.mp mem with old | new
    · exact h.gone hr old
    · exact absurd (mem_singleton.mp new) ne
  · intro hr packet mem
    rcases mem_append.mp mem with old | new
    · exact h.closed hr packet old
    · rw [mem_singleton.mp new]
      exact hf

theorem refuse_other (ne : j ≠ i) : At { s with dropped := s.dropped ++ [i], refused := s.refused ++ [i] } j u := by
  refine { h with gave := Iff.trans ?_ h.gave }
  simp [PacketSender.given, ne]

theorem receive_other (ne : j ≠ i) (hf : s.ch = packet :: ch) : At (s.receive i packet ch) j u := by
  refine { h with holds := ?_, working := ?_, closed := ?_ }
  · intro q
    rw [← h.holds q]
    simp [PacketSender.receive, ne]
  · intro q eq
    exact (h.working q eq).trans (sublist_append_left ..)
  · intro hr q mem
    refine h.closed hr q ?_
    rw [hf]
    exact mem_cons_of_mem packet mem

theorem dropHeld_other (ne : j ≠ i) : At (s.dropHeld i packet) j u := by
  refine { h with holds := ?_ }
  intro q
  rw [← h.holds q]
  exact mem_erase_of_ne (by simp [ne])

theorem leave_other (ne : j ≠ i) (hf : s.cancelled = false ∨ s.ch = []) : At { s with left := i :: s.left } j u := by
  refine { h with left := ?_, gone := ?_, closed := ?_ }
  · intro mem
    rcases mem_cons.mp mem with eq | old
    · exact absurd eq ne
    · exact h.left old
  · intro hr mem
    exact mem_cons_of_mem i (h.gone hr mem)
  · intro hr _ mem
    rcases hf with ho | he
    · simp [h.closing (by simp [hr])] at ho
    · simp [he] at mem

end

end At

theorem own_step {s' : PacketSender} {t' : SenderCall} (hm : Conserved s n) (lt : i < n) (h : At s i t)
    (hs : Next s i t s' t') : Conserved s' n ∧ At s' i t' := by
  obtain ⟨hg, _, gone, hh, _, hw, _, closed⟩ := h
  cases hs with
  | closed hc | opened | full | drain | stop => exact ⟨hm, by constructor <;> simp_all⟩
  | enqueue =>
    refine ⟨hm.enqueue (by simpa using hg) lt, ?_⟩
    constructor <;> simp_all [PacketSender.enqueue, given]
  | refuse =>
    refine ⟨hm.refuse (by simpa using hg) lt, ?_⟩
    constructor <;> simp_all [given]
  | leave => exact ⟨hm.leave lt, by constructor <;> simp_all [given]⟩
  | cancel => exact ⟨{ hm with }, by constructor <;> simp_all [given]⟩
  | work packet =>
    refine ⟨{ hm with ordered := hw packet rfl }, ?_⟩
    constructor <;> simp_all [given]
  | take packet _ hf =>
    have ho := hm.ordered
    have own (q : Nat) : q = packet ↔ packet = q := eq_comm
    refine ⟨hm.receive hf lt, ?_⟩
    constructor <;> simp_all [given, PacketSender.receive]
  | receive _ packet _ hf =>
    have own (q : Nat) : q = packet ↔ packet = q := eq_comm
    refine ⟨hm.receive hf lt, ?_⟩
    constructor <;> simp_all [given, PacketSender.receive]
  | finish packet | drop caller packet =>
    have gone := hm.released hh
    refine ⟨hm.dropHeld ((hh packet).mpr rfl), ?_⟩
    constructor <;> simp_all [given, PacketSender.dropHeld]
  | drained =>
    unfold PacketSender.leave
    split
    · exact ⟨hm.leave lt, by constructor <;> simp_all [given]⟩
    · exact ⟨hm, by constructor <;> simp_all⟩

theorem other_step {s' : PacketSender} {t' : SenderCall} (h : At s i t) (ho : At s j u) (ne : j ≠ i)
    (hs : Next s i t s' t') : At s' j u := by
  cases hs with
  | closed | opened | full | drain | stop => exact ho
  | enqueue => exact ho.enqueue_other ne (fun mem => by cases h.left mem)
  | refuse => exact ho.refuse_other ne
  | leave opened => exact ho.leave_other ne (.inl opened)
  | take packet ch hf | receive caller packet ch hf => exact ho.receive_other ne hf
  | finish packet | drop caller packet => exact ho.dropHeld_other ne
  | cancel => exact { ho with closing := fun _ => rfl }
  | work packet =>
    -- the loop is the call 0, so nobody else is about to process a packet
    have here := h.loops (by simp)
    refine { ho with working := fun q eq => ?_ }
    have there := ho.loops (by simp [eq])
    omega
  | drained _ he =>
    unfold leave
    split
    · exact ho.leave_other ne (.inr he)
    · exact ho

end PacketSender

def senderAssertions : Program.Assertions PacketSender SenderCall where
  memory s n := s.Conserved n
  call s i t := s.At i t

theorem sender_outline : Program.Outline senderProgram (fun _ _ => True) senderAssertions where
  entry := by
    intro w t hh _ he
    have fresh : w.calls.length ∉ w.shared.given := fun mem => Nat.lt_irrefl _ (hh.1.known _ mem)
    have hu : ∀ q, (w.calls.length, q) ∉ w.shared.held := fun q mem => Nat.lt_irrefl _ (hh.1.holders _ mem)
    have hs : w.calls.length ∉ w.shared.left := fun mem => Nat.lt_irrefl _ (hh.1.leavers _ mem)
    refine ⟨hh.1.mono, ?_⟩
    have hc : t = .send ∨ t = .close := by simpa [senderProgram] using he
    rcases hc with rfl | rfl <;> constructor <;> simp_all
  environment := by
    intro w _ hh _
    exact ⟨{ hh.1 with }, fun i t here => { hh.2 i t here with }⟩
  own := by
    intro w i t a _ hh _ step
    have lt := (List.getElem?_eq_some_iff.mp step.here).1
    exact PacketSender.own_step hh.1 lt (hh.2 i t step.here) (PacketSender.next_cases step.next i)
  stable := by
    intro w i j t u a _ hh _ step here ne _
    exact PacketSender.other_step (hh.2 i t step.here) (hh.2 j u here) ne (PacketSender.next_cases step.next i)

def SenderCall.Returned (t : SenderCall) : Prop := ∃ caller, t = .returned caller

theorem sender_start_holds (capacity : Nat) (looped : Bool) :
    senderProgram.Exclusive (senderStart capacity looped) ∧ senderAssertions.Holds (senderStart capacity looped) := by
  have hm (n : Nat) : PacketSender.Conserved { capacity := capacity } n := by
    constructor <;> simp [PacketSender.given]
  have hl : PacketSender.At { capacity := capacity } 0 .process := by
    constructor <;> simp [PacketSender.given]
  refine ⟨fun i j t u _ _ _ a mem => absurd mem not_mem_nil, hm _, fun i t hh => ?_⟩
  cases looped with
  | false => simp [senderStart] at hh
  | true =>
    simp only [senderStart, if_true, getElem?_singleton] at hh
    split at hh <;> cases hh
    next hf =>
      rw [hf]
      exact hl

theorem sender_run {capacity : Nat} {looped : Bool} {events : List (Event SenderCall Bool)} {w : World PacketSender SenderCall}
    (h : senderProgram.run (senderStart capacity looped) events = some w) : senderAssertions.Holds w :=
  (sender_outline.run (sender_start_holds capacity looped) (Program.along_true _ _) h).2

theorem channel_empty {w : World PacketSender SenderCall} (hh : senderAssertions.Holds w)
    (hr : ∀ t ∈ w.calls, t.Returned) (hc : .returned .close ∈ w.calls) : w.shared.ch = [] := by
  obtain ⟨hm, hca⟩ := hh
  obtain ⟨k, ht⟩ := mem_iff_getElem?.mp hc
  rw [eq_nil_iff_forall_not_mem]
  intro packet mem
  have he : packet ∈ w.shared.entered := by
    rw [hm.fifo]
    exact mem_append_right _ mem
  have hg : packet ∈ w.shared.given := mem_append_left _ he
  have lt := hm.known packet hg
  obtain ⟨caller, eq⟩ := hr _ (getElem_mem lt)
  have here : w.calls[packet]? = some (.returned caller) := by rw [getElem?_eq_getElem lt, eq]
  have hs : caller = .send := by simpa using (hca packet _ here).gave.mp hg
  subst hs
  -- its `Send` has left, and no packet of one that has left was in the channel when the `Close` returned
  exact (hca k _ ht).closed rfl packet mem ((hca packet _ here).gone rfl he)

/-- Every packet is dropped exactly once by the time that all calls have returned and a `Close` was among them, in
whatever order the calls took their steps; and the packets that are processed are processed in the order in which they
entered the channel. -/
theorem packets_dropped_once {capacity : Nat} {looped : Bool} {events : List (Event SenderCall Bool)}
    {w : World PacketSender SenderCall} (h : senderProgram.run (senderStart capacity looped) events = some w) :
    ((∀ t ∈ w.calls, t.Returned) → .returned .close ∈ w.calls →
      w.shared.ch = [] ∧ ∀ i, w.calls[i]? = some (.returned .send) → w.shared.dropped.count i = 1) ∧
    (∀ i, w.shared.dropped.count i ≤ 1) ∧ w.shared.processed.Sublist w.shared.entered := by
  have hh := sender_run h
  have ⟨hm, calls⟩ := hh
  have once := (nodup_append.mp hm.placed_nodup).2.1
  refine ⟨fun returned hc => ?_, nodup_iff_count_le_one.mp once, ?_⟩
  · have he := channel_empty hh returned hc
    refine ⟨he, fun i here => ?_⟩
    have hu : w.shared.held = [] := by
      rw [eq_nil_iff_forall_not_mem]
      intro e mem
      have lt := hm.holders e mem
      obtain ⟨caller, eq⟩ := returned _ (getElem_mem lt)
      have ht : w.calls[e.1]? = some (.returned caller) := by rw [getElem?_eq_getElem lt, eq]
      have := ((calls e.1 _ ht).holds e.2).mp mem
      simp at this
    have hg := (calls i _ here).gave.mpr rfl
    have hf := hm.fifo
    rw [he, append_nil] at hf
    have hp := hm.places
    rw [hu, map_nil, ← hf] at hp
    exact count_eq_one_of_mem once (hp.mem_iff.mpr hg)
  · rw [hm.fifo]
    exact hm.ordered.trans (sublist_append_left ..)

/-- The packet of call 1 enters the channel after the drain of `Close`. -/
def lateEvents : List (Event SenderCall Bool) :=
  [.call .send, .call .close, .step 1, .step 2, .step 2, .environment true, .step 1, .step 1, .step 1, .step 1, .step 1,
    .step 0, .step 0]

def lateEnd : World PacketSender SenderCall :=
  ⟨{ capacity := 128, cancelled := true, coin := true, entered := [1], taken := [1], dropped := [1], left := [1] },
    [.returned .process, .returned .send, .returned .close]⟩

theorem packets_dropped_once_late :
    senderProgram.run (senderStart 128 true) lateEvents = some lateEnd ∧ lateEnd.shared.dropped.count 1 = 1 := by
  have run : senderProgram.run (senderStart 128 true) lateEvents = some lateEnd := by rfl
  have hr : ∀ t ∈ lateEnd.calls, t.Returned := by simp [lateEnd, SenderCall.Returned]
  exact ⟨run, ((packets_dropped_once run).1 hr (by decide)).2 1 rfl⟩

end AsterCore.Tunnel
