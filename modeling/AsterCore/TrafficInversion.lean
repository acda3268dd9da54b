import AsterCore.TrafficCalls

namespace AsterCore

section Steps

set_option autoImplicit true

variable (lib : Stdlib) (k : Nat) (session : Session) (s : Shared) (flow : Flow) (direction : Direction) (bytes : Int64) (served : Nat)

/-- The steps of `currentBinding`, by the point it is at, with the action and what comes after. -/
inductive CurrentBindingPc.Step : CurrentBindingPc → Action → Rest CurrentBindingPc (Option SessionBinding) → Prop
  | closed (h : session.closed = true) : Step .closed .look (.done none)
  | opened (h : session.closed = false) : Step .closed .look (.more .runtime)
  | runtime : Step .runtime .look (.more (.compare s.manager.runtime))
  | current (h : session.binding.any (·.isFor loaded) = true) : Step (.compare loaded) .look (.done session.binding)
  | stale : Step (.compare loaded) .look (.more .lock)
  | lock : Step .lock .look (.more .closedLocked)
  | closedLocked (h : session.closed = true) : Step .closedLocked .look (.done none)
  | openedLocked (h : session.closed = false) : Step .closedLocked .look (.more .runtimeLocked)
  | runtimeLocked : Step .runtimeLocked .look (.more (.compareLocked s.manager.runtime))
  | currentLocked (h : session.binding.any (·.isFor loaded) = true) : Step (.compareLocked loaded) .look (.done session.binding)
  | staleLocked : Step (.compareLocked loaded) .look (.more (.bindSession session.binding (bindSessionStart lib loaded session.flow)))
  | scan (h : scan.next s = (a, .more scan')) : Step (.bindSession previous scan) a (.more (.bindSession previous scan'))
  | scanned (h : scan.next s = (a, .done b)) : Step (.bindSession previous scan) a (.more (.store previous b))
  | store : Step (.store previous b) (.bind k (some b)) (.more (.release (previous.elim [] SessionBinding.policies) b))
  | release : Step (.release (p :: todo) b) (.active (-1) p) (.more (.release todo b))
  | released : Step (.release [] b) .look (.more (.report b (.load none)))
  | report (h : pc.next (.connections 1) b.reportKeys s = (a, .more pc')) : Step (.report b pc) a (.more (.report b pc'))
  | reported (h : pc.next (.connections 1) b.reportKeys s = (a, .done u)) : Step (.report b pc) a (.done (some b))

inductive OpenPc.Step : OpenPc → Action → OpenPc → Prop
  | runtime : Step .runtime .look (.bindSession (bindSessionStart lib s.manager.runtime flow))
  | scan (h : scan.next s = (a, .more scan')) : Step (.bindSession scan) a (.bindSession scan')
  | empty (h : scan.next s = (a, .done b)) (nothing : b.policies = []) : Step (.bindSession scan) a (.returned none)
  | scanned (h : scan.next s = (a, .done b)) : Step (.bindSession scan) a (.report b (.load none))
  | report (h : pc.next (.connections 1) b.reportKeys s = (a, .more pc')) : Step (.report b pc) a (.report b pc')
  | reported (h : pc.next (.connections 1) b.reportKeys s = (a, .done u)) : Step (.report b pc) a (.enroll b)
  | enroll : Step (.enroll b) (.enroll flow b) (.returned (some s.manager.sessions.length))

/-- The steps of `Record`. -/
inductive RecordPc.Step : RecordPc → Action → RecordPc → Prop
  | refuse (h : bytes ≤ 0) : Step .start .look (.returned none)
  | start : Step .start .look (.currentBinding .closed)
  | binds (h : pc.Step lib k session s a (.more pc')) : Step (.currentBinding pc) a (.currentBinding pc')
  | unbound (h : pc.Step lib k session s a (.done none)) : Step (.currentBinding pc) a (.returned none)
  | bound (h : pc.Step lib k session s a (.done (some b))) : Step (.currentBinding pc) a (.gate b)
  | gate : Step (.gate b) .look (.gateClosed b)
  | closed (h : session.closed = true) : Step (.gateClosed b) .look (.currentBinding .closed)
  | opened : Step (.gateClosed b) .look (.gateRuntime b)
  | pass (h : b.runtime.ref = s.manager.runtime.ref) : Step (.gateRuntime b) .pass (.clock b)
  | back (h : b.runtime.ref ≠ s.manager.runtime.ref) : Step (.gateRuntime b) .look (.currentBinding .closed)
  | clock : Step (.clock b) .look (.count b s.clock false [] b.policies)
  | unreported : Step (.count b now crossed counted []) .look (.dirty b now crossed)
  | reports : Step (.count b now crossed counted []) .look (.report b now crossed (.load (some now)))
  | count : Step (.count b now crossed counted (p :: todo)) (.count p direction bytes now)
      (.count b now crossed' (counted ++ [p]) todo)
  | report (h : pc.next (.transfer direction bytes) b.reportKeys s = (a, .more pc')) : Step (.report b now crossed pc) a (.report b now crossed pc')
  | reported (h : pc.next (.transfer direction bytes) b.reportKeys s = (a, .done u)) : Step (.report b now crossed pc) a (.dirty b now crossed)
  | exceeds : Step (.dirty b now true) (.dirty true) (.exceeded b (.load (some now)))
  | dirty : Step (.dirty b now crossed) (.dirty true) (.returned (some b))
  | exceeding (h : pc.next .exceeded b.reportKeys s = (a, .more pc')) : Step (.exceeded b pc) a (.exceeded b pc')
  | exceeded (h : pc.next .exceeded b.reportKeys s = (a, .done u)) : Step (.exceeded b pc) a (.returned (some b))

inductive WaitPc.Step : WaitPc → Action → WaitPc → Prop
  | binds (h : pc.Step lib k session s a (.more pc')) : Step (.currentBinding pc) a (.currentBinding pc')
  | unbound (h : pc.Step lib k session s a (.done none)) : Step (.currentBinding pc) a .returned
  | bound (h : pc.Step lib k session s a (.done (some b))) : Step (.currentBinding pc) a (.clock b)
  | clock : Step (.clock b) .look (.test s.clock (b.policies.take served))
  | tested : Step (.test now []) .look .returned
  | over : Step (.test now (p :: todo)) .look (.refresh now p todo)
  | test : Step (.test now (p :: todo)) .look (.test now todo)
  | refresh : Step (.refresh now p todo) (.refresh p now) (.test now todo)

/-- The steps of `Close`, which swaps the binding out and then releases it. -/
inductive ClosePc.Step : ClosePc → Action → ClosePc → Prop
  | lock : Step .lock .look .mark
  | marked : Step .mark .look .returned
  | mark : Step .mark (.close k) .swap
  | swap : Step .swap (.bind k none) (.release (session.binding.elim [] SessionBinding.policies))
  | release : Step (.release (p :: todo)) (.active (-1) p) (.release todo)
  | released : Step (.release []) .look .returned

end Steps

section Inversion

variable {lib : Stdlib} {k : Nat} {session : Session} {s : Shared} {a : Action}

/-- Inversion of `next`: from here on a proof goes through the constructors and no more through the code. -/
theorem CurrentBindingPc.step_of_next {pc : CurrentBindingPc} {r : Rest CurrentBindingPc (Option SessionBinding)}
    (h : pc.next lib k session s = (a, r)) : pc.Step lib k session s a r := by
  cases pc with
  | closed =>
    simp only [next] at h
    split at h <;> cases h
    next shut => exact .closed shut
    next ho => exact .opened (Bool.eq_false_iff.mpr ho)
  | closedLocked =>
    simp only [next] at h
    split at h <;> cases h
    next shut => exact .closedLocked shut
    next ho => exact .openedLocked (Bool.eq_false_iff.mpr ho)
  | compare =>
    simp only [next] at h
    split at h <;> cases h
    next same => exact .current same
    · exact .stale
  | compareLocked =>
    simp only [next] at h
    split at h <;> cases h
    next same => exact .currentLocked same
    · exact .staleLocked
  | bindSession =>
    simp only [next] at h
    split at h <;> cases h
    next hsc => exact .scan hsc
    next hs => exact .scanned hs
  | release todo =>
    cases todo <;> cases h
    · exact .released
    · exact .release
  | report =>
    simp only [next] at h
    split at h <;> cases h
    next hre => exact .report hre
    next hr => exact .reported hr
  | _ =>
    cases h
    constructor

theorem OpenPc.step_of_next {flow : Flow} {pc pc' : OpenPc} (h : pc.next lib flow s = some (a, pc')) :
    pc.Step lib s flow a pc' := by
  cases pc with
  | bindSession =>
    simp only [next] at h
    split at h
    next hsc =>
      cases h
      exact .scan hsc
    next hs =>
      split at h <;> cases h
      next hn => exact .empty hs (List.isEmpty_iff.mp hn)
      · exact .scanned hs
  | report =>
    simp only [next] at h
    split at h <;> cases h
    next hre => exact .report hre
    next hr => exact .reported hr
  | returned => cases h
  | _ =>
    cases h
    constructor

theorem RecordPc.step_of_next {direction : Direction} {bytes : Int64} {pc pc' : RecordPc}
    (h : pc.next lib k session direction bytes s = some (a, pc')) : pc.Step lib k session s direction bytes a pc' := by
  cases pc with
  | start =>
    simp only [next] at h
    split at h <;> cases h
    next hn => exact .refuse hn
    · exact .start
  | currentBinding =>
    simp only [next] at h
    split at h
    next hbi =>
      cases h
      exact .binds (CurrentBindingPc.step_of_next hbi)
    next b hb =>
      cases b <;> cases h
      · exact .unbound (CurrentBindingPc.step_of_next hb)
      · exact .bound (CurrentBindingPc.step_of_next hb)
  | gateClosed =>
    simp only [next] at h
    split at h <;> cases h
    next hs => exact .closed hs
    · exact .opened
  | gateRuntime =>
    simp only [next] at h
    split at h <;> cases h
    next same => exact .pass (eq_of_beq same)
    next ho => exact .back (by simpa [SessionBinding.isFor] using ho)
  | count _ _ _ _ todo =>
    cases todo with
    | nil =>
      simp only [next] at h
      split at h <;> cases h
      · exact .unreported
      · exact .reports
    | cons =>
      cases h
      exact .count
  | report =>
    simp only [next] at h
    split at h <;> cases h
    next hre => exact .report hre
    next hr => exact .reported hr
  | dirty =>
    simp only [next] at h
    split at h <;> cases h
    next he =>
      rw [(Bool.and_eq_true_iff.mp he).1]
      exact .exceeds
    · exact .dirty
  | exceeded =>
    simp only [next] at h
    split at h <;> cases h
    next hre => exact .exceeding hre
    next hr => exact .exceeded hr
  | returned => cases h
  | _ =>
    cases h
    constructor

theorem WaitPc.step_of_next {served : Nat} {pc pc' : WaitPc} (h : pc.next lib k session served s = some (a, pc')) :
    pc.Step lib k session s served a pc' := by
  cases pc with
  | currentBinding =>
    simp only [next] at h
    split at h
    next hbi =>
      cases h
      exact .binds (CurrentBindingPc.step_of_next hbi)
    next b hb =>
      cases b <;> cases h
      · exact .unbound (CurrentBindingPc.step_of_next hb)
      · exact .bound (CurrentBindingPc.step_of_next hb)
  | test _ todo =>
    cases todo with
    | nil =>
      cases h
      exact .tested
    | cons =>
      simp only [next] at h
      split at h <;> cases h
      · exact .over
      · exact .test
  | returned => cases h
  | _ =>
    cases h
    constructor

theorem ClosePc.step_of_next {pc pc' : ClosePc} (h : pc.next k session = some (a, pc')) : pc.Step k session a pc' := by
  cases pc with
  | mark =>
    simp only [next] at h
    split at h <;> cases h
    · exact .marked
    · exact .mark
  | release todo =>
    cases todo <;> cases h
    · exact .released
    · exact .release
  | returned => cases h
  | _ =>
    cases h
    constructor

end Inversion

end AsterCore
