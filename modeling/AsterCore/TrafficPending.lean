import AsterCore.TrafficOutline

namespace AsterCore

open Session AsterCore.Action BindSessionPc CurrentBindingPc

def uses (ref : Nat) (policies : List RuntimePolicy) : Int := policies.countP (fun p => p.state == ref)

def Session.uses (ref : Nat) (session : Session) : Int :=
  AsterCore.uses ref (session.binding.elim [] SessionBinding.policies)

theorem uses_nonneg (ref : Nat) (policies : List RuntimePolicy) : 0 ≤ uses ref policies := Int.natCast_nonneg _

theorem uses_cons (ref : Nat) (p : RuntimePolicy) (policies : List RuntimePolicy) :
    uses ref (p :: policies) = uses ref policies + if p.state = ref then 1 else 0 := by
  unfold uses
  by_cases h : p.state = ref <;> simp [h]

theorem uses_concat (ref : Nat) (p : RuntimePolicy) (policies : List RuntimePolicy) :
    uses ref (policies ++ [p]) = uses ref policies + if p.state = ref then 1 else 0 := by
  unfold uses
  by_cases h : p.state = ref <;> simp

theorem uses_eq_zero {ref bound : Nat} {policies : List RuntimePolicy} (hb : ∀ p ∈ policies, p.state < bound)
    (above : bound ≤ ref) : uses ref policies = 0 := by
  unfold uses
  rw [Int.natCast_eq_zero, List.countP_eq_zero]
  intro p hp hs
  have := hb p hp
  have := eq_of_beq hs
  omega

/-- What a call has added to `Active` for a binding that no session has yet, and what it has still
to take back for a binding that its session has no longer. -/
def CurrentBindingPc.pending (ref : Nat) : CurrentBindingPc → Int
  | .bindSession _ scan => uses ref scan.counted
  | .store _ next => uses ref next.policies
  | .release todo _ => uses ref todo
  | _ => 0

def OpenPc.pending (ref : Nat) : OpenPc → Int
  | .bindSession scan => uses ref scan.counted
  | .report b _ | .enroll b => uses ref b.policies
  | _ => 0

def ClosePc.pending (ref : Nat) : ClosePc → Int
  | .release todo => uses ref todo
  | _ => 0

def Call.pending (ref : Nat) : Call → Int
  | .opening _ pc => pc.pending ref
  | .recording _ _ _ (.currentBinding pc) | .waiting _ _ (.currentBinding pc) => pc.pending ref
  | .closing _ pc => pc.pending ref
  | _ => 0

def Action.delta (ref : Nat) : Action → Int
  | .active delta p => if p.state = ref then delta else 0
  | _ => 0

def Action.bound (m : Manager) (ref : Nat) : Action → Int
  | .enroll _ b => uses ref b.policies
  | .bind k b => m.sessions[k]?.elim 0 (fun session => uses ref (b.elim [] SessionBinding.policies) - session.uses ref)
  | _ => 0

variable {a : Action}

theorem Action.Quiet.bound (hq : a.Quiet) (m : Manager) (ref : Nat) : a.bound m ref = 0 := by
  cases a <;> first | rfl | cases hq

theorem Action.IsReport.delta (h : a.IsReport) (ref : Nat) : a.delta ref = 0 := by
  cases a <;> first | rfl | cases h

theorem Action.IsStaging.delta (h : a.IsStaging) (ref : Nat) : a.delta ref = 0 := by
  cases a <;> first | rfl | cases h

theorem Action.IsFlush.delta (h : a.IsFlush) (ref : Nat) : a.delta ref = 0 := by
  cases a <;> first | rfl | cases h

namespace Manager

variable {lib : Stdlib} {m : Manager} {a : Action}

theorem modifyState_active {f : PolicyState → PolicyState} (target ref : Nat) (d : Int)
    (h : (f (m.heap target)).active = (m.heap target).active + d) :
    ((m.modifyState target f).heap ref).active = (m.heap ref).active + if target = ref then d else 0 := by
  by_cases hs : target = ref
  · subst hs
    simpa [modifyState] using h
  · simp [modifyState, Function.update_of_ne (Ne.symm hs), hs]

theorem act_active (lib : Stdlib) (a : Action) (hi : m.Idle) (ref : Nat) :
    ((m.act lib a).heap ref).active = (m.heap ref).active + a.delta ref := by
  have hk : ∀ {f : PolicyState → PolicyState} {target : Nat}, (f (m.heap target)).active = (m.heap target).active →
      ((m.modifyState target f).heap ref).active = (m.heap ref).active + 0 := by
    intro f target hs
    rw [modifyState_active target ref 0 (by rw [hs, add_zero])]
    simp
  cases a with
  | refresh p now => exact hk (f := p.refreshQuota now) (by rw [p.refreshQuota_spec now])
  | active delta p =>
    exact modifyState_active (f := fun state => { state with active := state.active + delta }) p.state ref delta rfl
  | count p direction bytes now =>
    exact hk (f := fun state => (p.record direction bytes now state).1) (by rw [p.record_spec direction bytes now])
  | touch _ now => exact hk (f := fun state => { state with lastSeen := unixOf now }) rfl
  | stageMaps config env => rw [act, (stageMaps_step lib config env m).active hi ref]; exact (add_zero _).symm
  | stagePolicy now stage spec =>
    rw [act, (stagePolicy_step lib now (m, stage) spec).active hi ref]
    exact (add_zero _).symm
  | _ => exact (add_zero _).symm

theorem sum_modify {k : Nat} {f : Session → Session} {session : Session} (ref : Nat) (ht : m.sessions[k]? = some session) :
    ((m.modifySession k f).sessions.map (Session.uses ref)).sum =
      (m.sessions.map (Session.uses ref)).sum + ((f session).uses ref - session.uses ref) := by
  have set : (m.modifySession k f).sessions = m.sessions.set k (f session) := by
    simp [modifySession, List.modify_eq_set_getElem?, ht]
  rw [set]
  exact Program.sum_map_set (Session.uses ref) (f session) ht

theorem modifySession_absent {k : Nat} {f : Session → Session} (ha : m.sessions[k]? = none) :
    (m.modifySession k f).sessions = m.sessions := by
  simp [modifySession, List.modify_eq_set_getElem?, ha]

theorem act_bound (lib : Stdlib) (m : Manager) (a : Action) (ref : Nat) :
    ((m.act lib a).sessions.map (Session.uses ref)).sum = (m.sessions.map (Session.uses ref)).sum + a.bound m ref := by
  have hp : ∀ {m' : Manager}, PrepareStep m m' → m'.sessions = m.sessions := by
    intro _ hs
    rw [hs.rest]
  cases a with
  | enroll => simp [act, Session.uses, Action.bound]
  | bind k =>
    cases ht : m.sessions[k]? with
    | none => simp [act, modifySession_absent ht, bound, ht]
    | some =>
      rw [act, sum_modify ref ht]
      simp [Action.bound, ht, Session.uses]
  | close k =>
    cases ht : m.sessions[k]? with
    | none => simp [act, modifySession_absent ht, bound]
    | some =>
      rw [act, sum_modify ref ht]
      simp [Action.bound, Session.uses]
  | stageMaps config env =>
    rw [act, hp (stageMaps_step lib config env m)]
    exact (add_zero _).symm
  | stagePolicy now stage spec =>
    rw [act, hp (stagePolicy_step lib now (m, stage) spec)]
    exact (add_zero _).symm
  | _ => exact (add_zero _).symm

end Manager

section Pending

variable {lib : Stdlib} {s : Shared} {session : Session} {a : Action} (ref : Nat)

theorem BindSessionPc.next_delta {scan : BindSessionPc} {r : Rest BindSessionPc SessionBinding} (h : scan.next s = (a, r)) :
    r.Post (fun scan' => a.delta ref = uses ref scan'.counted - uses ref scan.counted)
      (fun b => a.delta ref = uses ref b.policies - uses ref scan.counted) := by
  unfold next at h
  split at h <;> cases h
  · simp [Rest.Post, delta]
  · simp [Rest.Post, delta]
  · simp [Rest.Post, delta]
  next p _ _ _ =>
    show (if p.state = ref then (1 : Int) else 0) = uses ref (scan.counted ++ [p]) - uses ref scan.counted
    rw [uses_concat]
    omega

variable {k : Nat}

theorem reported_pending {pc : RecordReportPc} {increment : ReportIncrement} {keys : List String} {r : Rest RecordReportPc Unit}
    (h : pc.next increment keys s = (a, r)) : a.delta ref = 0 ∧ a.bound s.manager ref = 0 :=
  ⟨(RecordReportPc.next_isReport h).delta ref, (RecordReportPc.next_isReport h).quiet.bound s.manager ref⟩

theorem CurrentBindingPc.Step.pending {pc : CurrentBindingPc} {r : Rest CurrentBindingPc (Option SessionBinding)}
    (ht : s.manager.sessions[k]? = some session) (hg : pc.Good lib s.manager session) (h : pc.Step lib k session s a r) :
    r.Post (fun pc' => a.delta ref = a.bound s.manager ref + pc'.pending ref - pc.pending ref)
      (fun _ => a.delta ref = a.bound s.manager ref - pc.pending ref) := by
  cases h with
  | scan hs | scanned hs =>
    have hd := BindSessionPc.next_delta ref hs
    simp only [Rest.Post, CurrentBindingPc.pending] at hd ⊢
    rw [hd, (BindSessionPc.next_isScan hs).quiet.bound s.manager ref, zero_add]
  | @store previous =>
    have same : session.uses ref = uses ref (previous.elim [] SessionBinding.policies) := by
      rw [← hg.2.1]
      rfl
    simp only [Rest.Post, delta, bound, ht, Option.elim_some, pending]
    omega
  | release =>
    simp only [Rest.Post, delta, bound, pending, uses_cons]
    split <;> omega
  | report hs | reported hs =>
    obtain ⟨hd, hq⟩ := reported_pending ref hs
    simp [Rest.Post, CurrentBindingPc.pending, hd, hq]
  | _ => simp [Rest.Post, delta, bound, pending, bindSessionStart, uses]

theorem OpenPc.next_pending {flow : Flow} {pc pc' : OpenPc} (h : pc.next lib flow s = some (a, pc')) :
    a.delta ref = a.bound s.manager ref + pc'.pending ref - pc.pending ref := by
  cases step_of_next h with
  | runtime => simp [delta, bound, pending, bindSessionStart, uses]
  | scan hs | scanned hs =>
    have hd := next_delta ref hs
    rw [(next_isScan hs).quiet.bound s.manager ref, zero_add]
    exact hd
  | empty hs hn =>
    have hd := next_delta ref hs
    rw [hd, (next_isScan hs).quiet.bound s.manager ref, hn]
    rfl
  | report hs | reported hs =>
    obtain ⟨hd, hq⟩ := reported_pending ref hs
    simp [pending, hd, hq]
  | enroll => simp [delta, bound, pending]

section

variable (there : s.manager.sessions[k]? = some session)

include there

theorem RecordPc.next_pending {direction : Direction} {bytes : Int64} {pc pc' : RecordPc}
    (hg : pc.Good lib s.manager session bytes) (h : pc.next lib k session direction bytes s = some (a, pc')) :
    a.delta ref = a.bound s.manager ref + (Call.recording k direction bytes pc').pending ref -
      (Call.recording k direction bytes pc).pending ref := by
  cases step_of_next h with
  | binds hs => exact hs.pending ref there hg
  | unbound hs | bound hs => simpa [Rest.Post, Call.pending] using hs.pending ref there hg
  | report hs | reported hs | exceeding hs | exceeded hs =>
    rw [(reported_pending ref hs).1, (reported_pending ref hs).2]
    rfl
  | _ => rfl

theorem WaitPc.next_pending {served : Nat} {pc pc' : WaitPc}
    (hg : pc.Good lib s.manager session) (h : pc.next lib k session served s = some (a, pc')) :
    a.delta ref = a.bound s.manager ref + (Call.waiting k served pc').pending ref -
      (Call.waiting k served pc).pending ref := by
  cases step_of_next h with
  | binds hs => exact hs.pending ref there hg
  | unbound hs | bound hs => simpa [Rest.Post, Call.pending] using hs.pending ref there hg
  | _ => rfl

theorem ClosePc.next_pending {pc pc' : ClosePc}
    (h : pc.next k session = some (a, pc')) : a.delta ref = a.bound s.manager ref + pc'.pending ref - pc.pending ref := by
  cases step_of_next h with
  | swap =>
    have hn : uses ref [] = 0 := rfl
    simp [Action.delta, Action.bound, there, pending, Session.uses, hn]
  | release =>
    simp only [delta, bound, pending, uses_cons]
    split <;> omega
  | _ => rfl

end

theorem ConfigurePc.next_delta {config : Option Config} {env : ConfigureEnv} {pc pc' : ConfigurePc}
    (h : pc.next lib config env s = some (a, pc')) : a.delta ref = 0 ∧ a.bound s.manager ref = 0 := by
  cases ConfigurePc.next_kind h with
  | flush hf => exact ⟨hf.delta ref, hf.quiet.bound s.manager ref⟩
  | stage hs => exact ⟨hs.delta ref, hs.quiet.bound s.manager ref⟩
  | _ => exact ⟨rfl, rfl⟩

theorem Call.next_pending {t t' : Call} (hg : t.Good lib s.manager) (h : t.next lib s = some (a, t')) :
    a.delta ref = a.bound s.manager ref + t'.pending ref - t.pending ref := by
  cases step_of_next h with
  | opening hs => exact OpenPc.next_pending ref hs
  | recording ht hs =>
    obtain ⟨_, ht', hg⟩ := hg
    rw [ht] at ht'
    cases ht'
    exact RecordPc.next_pending ref ht hg hs
  | waiting ht hs =>
    obtain ⟨_, ht', hg⟩ := hg
    rw [ht] at ht'
    cases ht'
    exact WaitPc.next_pending ref ht hg hs
  | closing ht hs => exact ClosePc.next_pending ref ht hs
  | configuring hs =>
    rw [(ConfigurePc.next_delta ref hs).1, (ConfigurePc.next_delta ref hs).2]
    rfl
  | flushing hs =>
    have hf := FlushPc.next_isFlush hs
    rw [hf.delta ref, hf.quiet.bound s.manager ref]
    rfl

end Pending

end AsterCore
