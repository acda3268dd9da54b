import AsterCore.TrafficOps
import AsterCore.TrafficRestart

namespace AsterCore

open List

def SumsKept (s s' : PolicyState) : Prop :=
  s'.identity = s.identity ∧ (s.rolling = sumBuckets s.buckets → s'.rolling = sumBuckets s'.buckets)

theorem SumsKept.refl (s : PolicyState) : SumsKept s s := ⟨rfl, id⟩

theorem SumsKept.trans {s t u : PolicyState} (h : SumsKept s t) (h' : SumsKept t u) : SumsKept s u :=
  ⟨h'.1.trans h.1, fun hs => h'.2 (h.2 hs)⟩

theorem RuntimePolicy.apply_sums (p : RuntimePolicy) (s : PolicyState) (op : UsageOp) : SumsKept s (p.apply s op).1 := by
  refine ⟨p.apply_identity s op, fun hs => ?_⟩
  cases op with
  | record direction bytes =>
    simp only [apply, record]
    split
    · refine addToBucket_rolling (p := p) direction bytes _ ?_
      unfold pruneForRecord
      split
      · exact prune_rolling _ hs
      · exact hs
    · exact hs
  | refreshQuota =>
    simp only [apply, refreshQuota]
    split
    · exact hs
    · exact prune_rolling _ hs
  | reset => rfl

theorem attach_sums (spec : Policy) (s : PolicyState) : SumsKept s (s.attach spec) := by
  unfold PolicyState.attach
  split
  · exact ⟨rfl, fun _ => rfl⟩
  · exact SumsKept.refl s

theorem sessionRel_sums : SessionRel SumsKept :=
  ⟨SumsKept.refl, SumsKept.trans, fun p now s => p.apply_sums s (.refreshQuota now), fun _ _ => ⟨rfl, id⟩⟩

namespace Manager

theorem record_sums (lib : Stdlib) (s : Nat) (direction : Direction) (bytes : Int64) (now : Nat) (m : Manager) (ref : Nat) :
    SumsKept (m.heap ref) ((m.record lib s direction bytes now).heap ref) := by
  have hc : ∀ (policies : List RuntimePolicy) (m : Manager),
      SumsKept (m.heap ref) ((policies.foldl (recordPolicy direction bytes now) (m, false)).1.heap ref) := by
    intro policies m
    refine foldlRecOn (motive := fun acc : Manager × Bool => SumsKept (m.heap ref) (acc.1.heap ref)) policies _
      (SumsKept.refl _) ?_
    intro acc h p _
    refine h.trans ?_
    exact (modifyState_step sessionRel_sums acc.1 p.state (f := fun _ => (p.record direction bytes now (acc.1.heap p.state)).1)
      (p.apply_sums (acc.1.heap p.state) (.record direction bytes now))).heap ref
  unfold record
  split
  · exact SumsKept.refl _
  · have hb := (currentBinding_step sessionRel_sums lib s now m).heap ref
    split
    next eq =>
      rw [eq] at hb
      exact hb
    next m' binding eq =>
      rw [eq] at hb
      rw [recordBound_rest]
      exact hb.trans (hc binding.policies m')

structure SumsInv (lib : Stdlib) (m : Manager) : Prop where
  allocated : m.Allocated
  identity : ∀ p ∈ m.runtime.policies, (m.heap p.state).identity = policyIdentity lib p.spec
  sums : ∀ p ∈ m.runtime.policies, 0 < p.spec.quota.window →
    (m.heap p.state).rolling = sumBuckets (m.heap p.state).buckets

section Preserved

variable {lib : Stdlib} {m m' : Manager}

section

variable (inv : SumsInv lib m)

include inv

theorem sumsInv_kept (ha : m'.Allocated) (hr : m'.runtime = m.runtime)
    (hk : ∀ ref < m.freshState, SumsKept (m.heap ref) (m'.heap ref)) : SumsInv lib m' := by
  refine ⟨ha, ?_, ?_⟩
  · intro p hp
    rw [hr] at hp
    rw [(hk p.state (inv.allocated.runtime p hp)).1]
    exact inv.identity p hp
  · intro p hp hw
    rw [hr] at hp
    exact (hk p.state (inv.allocated.runtime p hp)).2 (inv.sums p hp hw)

theorem sumsInv_flush (now : Nat) (env : FlushEnv) : SumsInv lib (m.flushLocked now env).1 := by
  have hs := flushLocked_step now env m
  refine sumsInv_kept inv (allocated_flush inv.allocated now env) (by rw [hs.rest]) ?_
  intro _ _
  rw [hs.rest]
  exact SumsKept.refl _

theorem sumsInv_reset (id : String) (now : Nat) (env : FlushEnv) : SumsInv lib (m.reset id now env).1 := by
  unfold reset
  split
  · exact inv
  next p _ =>
    apply sumsInv_flush
    refine sumsInv_kept inv ⟨inv.allocated.runtime, inv.allocated.states, inv.allocated.table⟩ rfl ?_
    intro ref _
    exact (modifyState_step sessionRel_sums m p.state (p.apply_sums (m.heap p.state) (.reset now))).heap ref

theorem sumsInv_close (now : Nat) (env : FlushEnv) (closed : Bool) : SumsInv lib (m.close now env closed).1 := by
  have hf := sumsInv_flush inv now env
  unfold close
  generalize m.flushLocked now env = result at hf ⊢
  obtain ⟨_, outcome⟩ := result
  cases outcome with
  | error => exact hf
  | ok =>
    refine ⟨allocated_empty rfl _ _, ?_, ?_⟩
    · intro p hp
      cases hp
    · intro p hp
      cases hp

end

variable {ref : Nat} {acc : Manager × Stage}

theorem stagePolicy_heap (lib : Stdlib) (now : Nat) (acc : Manager × Stage) (spec : Policy) (old : ref < acc.1.freshState) :
    (stagePolicy lib now acc spec).1.heap ref = acc.1.heap ref ∨
      ((acc.1.heap ref).identity = policyIdentity lib spec ∧
        (stagePolicy lib now acc spec).1.heap ref = (acc.1.heap ref).attach spec) := by
  have hm : ∀ (state : PolicyState), ((acc.1.allocState state).1.modifyState acc.1.freshState (PolicyState.attach spec)).heap ref =
      acc.1.heap ref := by
    have ho := Nat.ne_of_lt old
    simp [modifyState, allocState, ho]
  simp only [stagePolicy, stageState]
  split
  · exact .inl (hm _)
  next found _ =>
    split
    next hs =>
      by_cases hh : ref = found
      · subst hh
        exact .inr ⟨hs, by simp [modifyState]⟩
      · exact .inl (by simp [modifyState, hh])
    · exact Or.inl (hm _)

theorem stagePolicy_kept (lib : Stdlib) (now : Nat) (acc : Manager × Stage) (spec : Policy)
    (old : ref < acc.1.freshState) : SumsKept (acc.1.heap ref) ((stagePolicy lib now acc spec).1.heap ref) := by
  rcases stagePolicy_heap lib now acc spec old with hs | ⟨_, ha⟩
  · rw [hs]
    exact SumsKept.refl _
  · rw [ha]
    exact attach_sums spec _

def StagedSums (lib : Stdlib) (acc : Manager × Stage) : Prop :=
  ∀ p ∈ acc.2.runtime.policies, p.state < acc.1.freshState ∧
    (acc.1.heap p.state).identity = policyIdentity lib p.spec ∧
    (0 < p.spec.quota.window → (acc.1.heap p.state).rolling = sumBuckets (acc.1.heap p.state).buckets)

theorem stagePolicy_sums (hk : acc.2.states.Pointers acc.1.freshState) (hs : StagedSums lib acc)
    (now : Nat) (spec : Policy) : StagedSums lib (stagePolicy lib now acc spec) := by
  have step := stagePolicy_step lib now acc spec
  have kept := fun {ref : Nat} (old : ref < acc.1.freshState) => stagePolicy_kept lib now acc spec old
  have hh := stageState_spec hk lib now spec
  have hi : ((acc.1.stageState lib now spec acc.2.states).1.1.heap (acc.1.stageState lib now spec acc.2.states).1.2).identity =
      policyIdentity lib spec := by
    simp only [stageState]
    split
    · simp [allocState, newPolicyState]
    next ref there =>
      split
      next same => exact same
      · simp [allocState, newPolicyState]
  unfold stagePolicy at step kept ⊢
  generalize acc.1.stageState lib now spec acc.2.states = result at step kept hh hi ⊢
  obtain ⟨⟨m, ref⟩, _⟩ := result
  intro p hp
  rcases mem_append.mp hp with old | new
  · obtain ⟨hb, same, sums⟩ := hs p old
    obtain ⟨hi', hs'⟩ := kept hb
    exact ⟨lt_of_lt_of_le hb step.fresh, hi'.trans same, fun hw => hs' (sums hw)⟩
  · rw [mem_singleton.mp new]
    have ha : (m.modifyState ref (PolicyState.attach spec)).heap ref = (m.heap ref).attach spec := by
      simp [modifyState]
    refine ⟨hh.here, ?_, ?_⟩
    · simp only [newRuntimePolicy, ha, (attach_sums spec (m.heap ref)).1]
      exact hi
    · intro hw
      simp only [newRuntimePolicy] at hw ⊢
      rw [ha]
      unfold PolicyState.attach
      rw [if_pos hw]

theorem stagePolicies_sums (now : Nat) (todo : List Policy)
    (hk : acc.2.states.Pointers acc.1.freshState) (hs : StagedSums lib acc) :
    StagedSums lib (todo.foldl (stagePolicy lib now) acc) := by
  induction todo generalizing acc with
  | nil => exact hs
  | cons spec _ ih =>
    refine ih ?_ (stagePolicy_sums hk hs now spec)
    have hh := stageState_spec hk lib now spec
    unfold stagePolicy
    exact hh.known

theorem stageMaps_heap (lib : Stdlib) (config : Config) (env : ConfigureEnv) (m : Manager) (old : ref < m.freshState) :
    (m.stageMaps lib config env).1.heap ref = m.heap ref := by
  have hs : ∀ file : StoreFile, m.freshState ≤ (m.loadStates file).1.freshState ∧ (m.loadStates file).1.heap ref = m.heap ref := by
    intro _
    refine foldlRecOn
      (motive := fun acc : Manager × GoMap String Nat => m.freshState ≤ acc.1.freshState ∧ acc.1.heap ref = m.heap ref) _ _
      ⟨le_refl _, rfl⟩ ?_
    rintro ⟨_, _⟩ ⟨hb, same⟩ _ _
    refine ⟨Nat.le_succ_of_le hb, ?_⟩
    rw [← same]
    exact Function.update_of_ne (Nat.ne_of_lt (lt_of_lt_of_le old hb)) _ _
  have hr : ∀ (file : StoreFile) (m : Manager), (m.loadReports file).1.heap = m.heap := by
    intro _ m
    exact foldlRecOn (motive := fun acc : Manager × GoMap String Nat => acc.1.heap = m.heap) _ _ rfl
      (fun acc same persisted _ => same)
  unfold stageMaps
  split
  · split <;> rfl
  · split
    · rfl
    next file _ =>
      rw [hr, (hs file).2]

/-- No policy of the configuration has the identity of a running policy with another window; the identity is a
digest over the window. -/
def DistinctWindows (lib : Stdlib) (config : Option Config) (m : Manager) : Prop :=
  ∀ c ∈ config, ∀ p ∈ m.runtime.policies, ∀ spec ∈ c.policies,
    policyIdentity lib p.spec = policyIdentity lib spec → p.spec.quota.window = spec.quota.window

theorem stagePolicies_live (inv : SumsInv lib m) {policies : List Policy} (hd : ∀ p ∈ m.runtime.policies, ∀ spec ∈ policies,
      policyIdentity lib p.spec = policyIdentity lib spec → p.spec.quota.window = spec.quota.window)
    (now : Nat) (hb : m.freshState ≤ acc.1.freshState) (hl : ∀ p ∈ m.runtime.policies, acc.1.heap p.state = m.heap p.state) :
    ∀ p ∈ m.runtime.policies, (policies.foldl (stagePolicy lib now) acc).1.heap p.state = m.heap p.state := by
  induction policies generalizing acc with
  | nil => exact hl
  | cons spec _ ih =>
    refine ih (fun p hp other ho => hd p hp other (mem_cons_of_mem _ ho))
      (hb.trans (stagePolicy_step lib now acc spec).fresh) ?_
    intro p hp
    have old := lt_of_lt_of_le (inv.allocated.runtime p hp) hb
    rcases stagePolicy_heap lib now acc spec old with hs | ⟨hi, ha⟩
    · rw [hs, hl p hp]
    · rw [ha, hl p hp]
      rw [hl p hp, inv.identity p hp] at hi
      have hwi := hd p hp spec mem_cons_self hi
      by_cases hw : 0 < p.spec.quota.window
      · exact attach_of_sound spec (inv.sums p hp hw)
      · unfold PolicyState.attach
        rw [if_neg (by rw [← hwi]; exact hw)]

theorem prepare_live (inv : SumsInv lib m) {config : Option Config} (hd : m.DistinctWindows lib config) (now : Nat)
    (env : ConfigureEnv) :
    ∀ p ∈ m.runtime.policies, (m.prepareConfiguration lib config now env).1.heap p.state = m.heap p.state := by
  unfold prepareConfiguration
  cases config with
  | none => exact fun p _ => rfl
  | some c =>
    simp only
    split
    · exact fun p _ => rfl
    · have hl : ∀ p ∈ m.runtime.policies, (m.stageMaps lib c env).1.heap p.state = m.heap p.state :=
        fun p hp => stageMaps_heap lib c env m (inv.allocated.runtime p hp)
      have hb := (stageMaps_step lib c env m).fresh
      split
      next eq =>
        rw [eq] at hl
        exact hl
      next m' maps eq =>
        rw [eq] at hl hb
        have hf : ∀ p ∈ m.runtime.policies, (m'.fillStage lib c now maps).1.heap p.state = m.heap p.state :=
          stagePolicies_live inv (hd c rfl) now hb hl
        split <;> exact hf

theorem stagePolicies_kept (now : Nat) (policies : List Policy) (acc : Manager × Stage) (old : ref < acc.1.freshState) :
    SumsKept (acc.1.heap ref) ((policies.foldl (stagePolicy lib now) acc).1.heap ref) := by
  induction policies generalizing acc with
  | nil => exact SumsKept.refl _
  | cons spec _ ih =>
    have hl := lt_of_lt_of_le old (stagePolicy_step lib now acc spec).fresh
    exact (stagePolicy_kept lib now acc spec old).trans (ih _ hl)

theorem prepare_sums (lib : Stdlib) (ha : m.Allocated) (config : Option Config) (now : Nat) (env : ConfigureEnv) :
    (∀ ref < m.freshState, SumsKept (m.heap ref) ((m.prepareConfiguration lib config now env).1.heap ref)) ∧
      ∀ stage, (m.prepareConfiguration lib config now env).2 = .ok stage →
        StagedSums lib ((m.prepareConfiguration lib config now env).1, stage) := by
  have hn : StagedSums lib m.emptyStage := forall_mem_nil _
  unfold prepareConfiguration
  cases config with
  | none =>
    refine ⟨fun ref _ => SumsKept.refl (m.heap ref), ?_⟩
    intro _ h
    cases h
    exact hn
  | some c =>
    simp only
    split
    · refine ⟨fun ref _ => SumsKept.refl (m.heap ref), ?_⟩
      intro _ h
      cases h
      exact hn
    · have hl := fun {ref : Nat} (old : ref < m.freshState) => stageMaps_heap lib c env m old
      have hb := (stageMaps_step lib c env m).fresh
      split
      next m' _ eq =>
        rw [eq] at hl
        refine ⟨fun ref old => ?_, fun stage h => (by cases h)⟩
        rw [show m'.heap ref = m.heap ref from hl old]
        exact SumsKept.refl _
      next m' maps eq =>
        have hk := (stageMaps_spec ha.states ha.table (show (m.stageMaps lib c env).2 = .ok maps by rw [eq])).1
        rw [eq] at hl hb hk
        have kept : ∀ ref < m.freshState, SumsKept (m.heap ref) ((m'.fillStage lib c now maps).1.heap ref) := by
          intro ref old
          rw [← show m'.heap ref = m.heap ref from hl old]
          exact stagePolicies_kept now c.policies _ (lt_of_lt_of_le old hb)
        have hs : StagedSums lib (m'.fillStage lib c now maps) :=
          stagePolicies_sums now c.policies hk fun p hp => (by cases hp)
        split
        · exact ⟨kept, fun stage h => (by cases h)⟩
        · refine ⟨kept, fun stage h => ?_⟩
          cases h
          exact hs

theorem commitStage_heap (stage : Stage) (now : Nat) (m : Manager) (ref : Nat) :
    ∃ seen, (m.commitStage stage now).heap ref = { m.heap ref with lastSeen := seen } :=
  ⟨_, (touchStates_rest stage.touched now _).2 ref⟩

theorem sumsInv_configure (inv : SumsInv lib m) (config : Option Config) (staged committed : Nat) (env : ConfigureEnv) :
    SumsInv lib (m.configure lib config staged committed env).1 := by
  obtain ⟨step, hre⟩ := prepareConfiguration_spec inv.allocated lib config staged env
  obtain ⟨hk, sums⟩ := prepare_sums lib inv.allocated config staged env
  unfold configure
  generalize m.prepareConfiguration lib config staged env = result at step hre hk sums ⊢
  obtain ⟨m', outcome⟩ := result
  have hr : m'.runtime = m.runtime := by
    have rest := step.rest
    simp only at rest
    rw [rest]
  have hpr := sumsInv_kept inv (allocated_prepare inv.allocated step) hr hk
  cases outcome with
  | error => exact hpr
  | ok stage =>
    simp only at step hre sums ⊢
    have hf := sumsInv_flush hpr committed env.flush
    have hs := ready_flush (hre stage rfl).1 committed env.flush
    have hh : (m'.flushLocked committed env.flush).1.heap = m'.heap := by
      rw [(flushLocked_step committed env.flush m').rest]
    generalize m'.flushLocked committed env.flush = result at hf hs hh ⊢
    obtain ⟨m'', outcome⟩ := result
    cases outcome with
    | error => exact hf
    | ok =>
      have ha := allocated_commit hs committed
      have hr : (m''.commitStage stage committed).runtime.policies = stage.runtime.policies := by
        rw [commitStage_rest]
      have hst : ∀ ref, ∃ seen, (m''.commitStage stage committed).heap ref = { m'.heap ref with lastSeen := seen } := by
        intro ref
        rw [← show m''.heap = m'.heap from hh]
        exact commitStage_heap stage committed m'' ref
      refine ⟨ha, ?_, ?_⟩
      · intro p hp
        rw [hr] at hp
        obtain ⟨_, same⟩ := hst p.state
        rw [same]
        exact (sums stage rfl p hp).2.1
      · intro p hp hw
        rw [hr] at hp
        obtain ⟨_, same⟩ := hst p.state
        rw [same]
        exact (sums stage rfl p hp).2.2 hw

theorem sumsInv_apply (inv : SumsInv lib m) (op : ManagerOp) : SumsInv lib (m.apply lib op) := by
  have hq : (∃ flow now, op = .openSession flow now) ∨ (∃ s served now, op = .wait s served now) ∨
      (∃ s, op = .closeSession s) ∨ (∃ now, op = .status now) → SumsInv lib (m.apply lib op) := by
    intro hs
    have step := apply_session_step sessionRel_sums lib m hs
    exact sumsInv_kept inv (allocated_session inv.allocated step) step.runtime (fun ref _ => step.heap ref)
  cases op with
  | configure config staged committed env => exact sumsInv_configure inv config staged committed env
  | openSession flow now => exact hq (.inl ⟨flow, now, rfl⟩)
  | record s direction bytes now =>
    have hk := record_sums lib s direction bytes now m
    rcases record_cases lib s direction bytes now m with hn | ⟨_, step⟩
    · change SumsInv lib (m.record lib s direction bytes now)
      rw [hn]
      exact inv
    · have ha := allocated_session inv.allocated step
      have hr := step.runtime
      exact sumsInv_kept inv ⟨ha.runtime, ha.states, ha.table⟩ hr (fun ref _ => hk ref)
  | wait s served now => exact hq (.inr (.inl ⟨s, served, now, rfl⟩))
  | closeSession s => exact hq (.inr (.inr (.inl ⟨s, rfl⟩)))
  | status now => exact hq (.inr (.inr (.inr ⟨now, rfl⟩)))
  | reset id now env => exact sumsInv_reset inv id now env
  | flush now env => exact sumsInv_flush inv now env
  | close now env closed => exact sumsInv_close inv now env closed

theorem sumsInv_run (inv : SumsInv lib m) (ops : List ManagerOp) : SumsInv lib (m.run lib ops) := by
  induction ops generalizing m with
  | nil => exact inv
  | cons op _ ih => exact ih (sumsInv_apply inv op)

theorem sumsInv_start : SumsInv lib {} := by
  refine ⟨allocated_start, fun p hp => ?_, fun p hp => ?_⟩ <;> cases hp

end Preserved

end Manager

/-- After any calls, reconfigurations among them, the state of a running policy has its identity, and the cached rolling counters
of one with a window are the sum of its buckets. -/
theorem running_policies_sums (lib : Stdlib) (ops : List ManagerOp) :
    let m := Manager.run lib {} ops
    (∀ p ∈ m.runtime.policies, (m.heap p.state).identity = policyIdentity lib p.spec) ∧
      ∀ p ∈ m.runtime.policies, 0 < p.spec.quota.window →
        (m.heap p.state).rolling = sumBuckets (m.heap p.state).buckets :=
  have inv : Manager.SumsInv lib (Manager.run lib {} ops) := Manager.sumsInv_run Manager.sumsInv_start ops
  ⟨inv.identity, inv.sums⟩

end AsterCore
