import AsterCore.TrafficInversion

namespace AsterCore

open List

theorem Lock.clash_symm (a b : Lock) : a.clash b = b.clash a := by
  cases a <;> cases b <;> simp [Lock.clash, Bool.beq_comm]

variable {lib : Stdlib} {k : Nat} {session : Session} {s : Shared} {a : Action}

theorem CurrentBindingPc.Step.held {pc pc' : CurrentBindingPc} (h : pc.Step lib k session s a (.more pc')) :
    ∀ l ∈ pc'.held k, l ∈ pc.held k ∨ l ∈ pc.takes k := by
  intro l hl
  cases h with
  | opened | runtime | stale => cases hl
  | lock => exact .inr hl
  | _ => exact .inl hl

theorem RecordPc.next_held {direction : Direction} {bytes : Int64} {pc pc' : RecordPc}
    (h : pc.next lib k session direction bytes s = some (a, pc')) : ∀ l ∈ pc'.held k, l ∈ pc.held k ∨ l ∈ pc.takes k := by
  intro l hl
  cases step_of_next h with
  | refuse | start | unbound | bound | closed | back | dirty | exceeded => cases hl
  | binds hs => exact hs.held l hl
  | gate => exact .inr hl
  | _ => exact .inl hl

theorem WaitPc.next_held {served : Nat} {pc pc' : WaitPc} (h : pc.next lib k session served s = some (a, pc')) :
    ∀ l ∈ pc'.held k, l ∈ pc.held k ∨ l ∈ pc.takes k := by
  intro l hl
  cases step_of_next h with
  | binds hs => exact hs.held l hl
  | _ => cases hl

theorem ClosePc.next_held {pc pc' : ClosePc} (h : pc.next k session = some (a, pc')) :
    ∀ l ∈ pc'.held k, l ∈ pc.held k ∨ l ∈ pc.takes k := by
  intro l hl
  cases step_of_next h with
  | lock => exact .inr hl
  | marked | released => cases hl
  | _ => exact .inl hl

theorem FlushLockedPc.next_held {env : FlushEnv} {pc pc' : FlushLockedPc}
    (h : pc.next env s = (a, .more pc')) : ∀ l ∈ pc'.held, l ∈ pc.held ∨ l ∈ pc.takes := by
  intro l hl
  cases pc' with
  | rollup reports now todo =>
    cases pc with
    | lock => exact .inr hl
    | rollup => exact .inl hl
    | config =>
      simp only [next, Prod.mk.injEq, Rest.more.injEq] at h
      cases config : s.manager.runtime.config <;> simp [config] at h
    | clean _ _ todo => cases todo <;> cases h
    | save => simp only [next] at h; split at h <;> cases h
    | trimSave => simp only [next] at h; split at h <;> (try split at h) <;> (try split at h) <;> cases h
    | start | trim now i => simp only [next] at h; split at h <;> cases h
    | _ => cases h
  | _ => cases hl

theorem FlushPc.next_held {env : FlushEnv} {pc pc' : FlushPc}
    (h : pc.next env s = some (a, pc')) : ∀ l ∈ pc'.held, l ∈ pc.held ∨ l ∈ pc.takes := by
  intro l hl
  cases pc with
  | lock =>
    cases h
    exact .inr hl
  | flushLocked =>
    simp only [next] at h
    split at h <;> cases h
    next eq =>
      rcases mem_cons.mp hl with mu | hi
      · exact .inl (mem_cons.mpr (.inl mu))
      · exact (FlushLockedPc.next_held eq l hi).imp (mem_cons_of_mem _) id
    · cases hl
  | returned => cases h

theorem ConfigurePc.next_held {config : Option Config} {env : ConfigureEnv}
    {pc pc' : ConfigurePc} (h : pc.next lib config env s = some (a, pc')) : ∀ l ∈ pc'.held, l ∈ pc.held ∨ l ∈ pc.takes := by
  intro l hl
  cases pc with
  | lock =>
    cases h
    exact .inr hl
  | start =>
    simp only [next] at h
    split at h <;> cases h <;> exact .inl hl
  | stageMaps =>
    simp only [next] at h
    split at h <;> cases h
    · cases hl
    · exact .inl hl
  | openStage =>
    cases h
    exact .inl hl
  | fillStage _ _ _ todo => cases todo <;> cases h <;> exact .inl hl
  | cleanStage =>
    simp only [next] at h
    split at h <;> cases h
    · cases hl
    · exact .inl hl
  | oldRuntime =>
    cases h
    exact .inl hl
  | gate =>
    cases h
    rcases mem_cons.mp hl with first | second
    · exact .inl (mem_cons.mpr (.inl first))
    · exact .inr second
  | mu stage old =>
    cases h
    rcases mem_append.mp (show l ∈ (ConfigurePc.mu stage old).held ++ [.mu] from hl) with old | new
    · exact .inl old
    · exact .inr new
  | flushLocked stage old pc =>
    simp only [next] at h
    split at h <;> cases h
    next pc'' eq =>
      rcases mem_append.mp (show l ∈ (publishMaps stage old).held ++ pc''.held from hl) with outer | inner
      · exact .inl (mem_append_left pc.held outer)
      · exact (FlushLockedPc.next_held eq l inner).imp (mem_append_right (publishMaps stage old).held) id
    · cases hl
    · exact .inl (mem_append_left pc.held hl)
  | touch _ _ _ todo => cases todo <;> cases h <;> exact .inl hl
  | dirty =>
    cases h
    cases hl
  | returned => cases h
  | _ =>
    cases h
    exact .inl hl

inductive CallStep (lib : Stdlib) (s : Shared) : Call → Action → Call → Prop
  | opening {flow : Flow} {pc pc' : OpenPc} {a : Action} (h : pc.next lib flow s = some (a, pc')) :
    CallStep lib s (.opening flow pc) a (.opening flow pc')
  | recording {k : Nat} {direction : Direction} {bytes : Int64} {pc pc' : RecordPc} {session : Session} {a : Action}
    (there : s.manager.sessions[k]? = some session) (h : pc.next lib k session direction bytes s = some (a, pc')) :
    CallStep lib s (.recording k direction bytes pc) a (.recording k direction bytes pc')
  | waiting {k served : Nat} {pc pc' : WaitPc} {session : Session} {a : Action}
    (there : s.manager.sessions[k]? = some session) (h : pc.next lib k session served s = some (a, pc')) :
    CallStep lib s (.waiting k served pc) a (.waiting k served pc')
  | closing {k : Nat} {pc pc' : ClosePc} {session : Session} {a : Action}
    (there : s.manager.sessions[k]? = some session) (h : pc.next k session = some (a, pc')) :
    CallStep lib s (.closing k pc) a (.closing k pc')
  | configuring {config : Option Config} {env : ConfigureEnv} {pc pc' : ConfigurePc} {a : Action}
    (h : pc.next lib config env s = some (a, pc')) :
    CallStep lib s (.configuring config env pc) a (.configuring config env pc')
  | flushing {env : FlushEnv} {pc pc' : FlushPc} {a : Action} (h : pc.next env s = some (a, pc')) :
    CallStep lib s (.flushing env pc) a (.flushing env pc')

namespace Call

theorem step_of_next {t t' : Call} (h : t.next lib s = some (a, t')) : CallStep lib s t a t' := by
  have hu : ∀ {π : Type} {f : π → Call} {o : Option (Action × π)}, o.map (Prod.map id f) = some (a, t') →
      ∃ pc', o = some (a, pc') ∧ t' = f pc' := by
    intro π f o hm
    obtain ⟨⟨_, pc'⟩, hh, eq⟩ := Option.map_eq_some_iff.mp hm
    cases eq
    exact ⟨pc', hh, rfl⟩
  cases t with
  | opening =>
    obtain ⟨_, hs, rfl⟩ := hu h
    exact .opening hs
  | recording =>
    simp only [next] at h
    split at h
    · cases h
    next ht =>
      obtain ⟨_, hs, rfl⟩ := hu h
      exact .recording ht hs
  | waiting =>
    simp only [next] at h
    split at h
    · cases h
    next ht =>
      obtain ⟨_, hs, rfl⟩ := hu h
      exact .waiting ht hs
  | closing =>
    simp only [next] at h
    split at h
    · cases h
    next ht =>
      obtain ⟨_, hs, rfl⟩ := hu h
      exact .closing ht hs
  | configuring =>
    obtain ⟨_, hs, rfl⟩ := hu h
    exact .configuring hs
  | flushing =>
    obtain ⟨_, hs, rfl⟩ := hu h
    exact .flushing hs

theorem next_held {t t' : Call} (h : t.next lib s = some (a, t')) : ∀ l ∈ t'.held, l ∈ t.held ∨ l ∈ t.takes := by
  cases step_of_next h with
  | opening =>
    intro l hl
    cases hl
  | recording _ step => exact RecordPc.next_held step
  | waiting _ step => exact WaitPc.next_held step
  | closing _ step => exact ClosePc.next_held step
  | configuring step => exact ConfigurePc.next_held step
  | flushing step => exact FlushPc.next_held step

theorem entry_held {t : Call} (h : t.entry s = true) : t.held = [] := by
  unfold entry at h
  split at h <;> first | rfl | cases h

end Call

/-- The traffic control: any number of calls on one manager. The clock is the environment. -/
def trafficControl (lib : Stdlib) : Program Shared Call Action Nat Lock where
  next := Call.next lib
  perform := Shared.perform lib
  environment d s := { s with clock := s.clock + d }
  entry := Call.entry
  held := Call.held
  takes := Call.takes
  clash := Lock.clash
  clash_symm := Lock.clash_symm
  entry_held := Call.entry_held
  next_held := Call.next_held

/-- `NewManager`, and nobody has called it yet. -/
def newWorld (clock : Nat) : World Shared Call := ⟨{ clock := clock }, []⟩

/-- The start of the runs below: a configuration with two policies is published in 19 steps, and an
`Open` call takes the given number of steps. -/
def openingRun (config : Config) (steps : Nat) : List (Event Call Nat) :=
  [.call (.configuring (some config) {} .lock)] ++ List.replicate 19 (.step 0) ++
    [.call (.opening {} .runtime)] ++ List.replicate steps (.step 1)

end AsterCore
