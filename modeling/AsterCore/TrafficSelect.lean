import AsterCore.TrafficParse
import AsterCore.TrafficPolicyState

namespace AsterCore

structure Flow where
  sourceIP : Addr := .invalid
  ruleType : String := ""
  rulePayload : String := ""
  ruleTarget : String := ""
  chains : List String := []
  deriving DecidableEq

def policyMatches (policy : Policy) (flow : Flow) (rule : RuleSelector) : Bool :=
  match policy.kind with
  | .global => true
  | .device =>
    flow.sourceIP.isValid &&
      policy.sourceCIDRs.any (fun p => p.contains flow.sourceIP.unmap || p.contains flow.sourceIP)
  | .rule => policy.rule.fingerprint == rule.fingerprint
  | .target => flow.chains.any (· == policy.target.name)

/-- A published runtime. It never changes, so `ref` stands for its pointer. -/
structure RuntimeState where
  ref : Nat
  config : Option Config
  policies : List RuntimePolicy
  generation : UInt64

def RuntimePolicy.dimension (p : RuntimePolicy) : String := p.spec.kind.string ++ ":" ++ p.spec.id

/-- The test of the loop in `bindSession`. The canonical rule depends on the flow alone and is
read by rule policies only, so it does not matter that the source computes it on first use. -/
def RuntimePolicy.selects (lib : Stdlib) (flow : Flow) (p : RuntimePolicy) : Bool :=
  p.spec.enabled &&
    policyMatches p.spec flow (canonicalRule lib flow.ruleType flow.rulePayload flow.ruleTarget)

def RuntimeState.matched (lib : Stdlib) (flow : Flow) (runtime : RuntimeState) : List RuntimePolicy :=
  match runtime.config with
  | none => []
  | some _ => runtime.policies.filter (RuntimePolicy.selects lib flow)

def uniqueStrings (values : List String) : List String :=
  values.foldl (fun result value => if value ∈ result then result else result ++ [value]) []

def reportPairKey (left right : String) : String :=
  if right < left then right ++ "|" ++ left else left ++ "|" ++ right

def reportPairKeys : List String → List String
  | [] => []
  | left :: rest => rest.map (reportPairKey left) ++ reportPairKeys rest

def maxReportKeysPerSession : Nat := 128

/-- `reportKeys`: the dimensions and their pairs; both loops stop at the limit. -/
def reportKeys (dimensions : List String) : List String :=
  let dimensions := uniqueStrings dimensions
  (dimensions ++ reportPairKeys dimensions).take maxReportKeysPerSession

structure SessionBinding where
  runtime : RuntimeState
  policies : List RuntimePolicy
  dimensions : List String
  reportKeys : List String

def RuntimeState.reportsEnabled (runtime : RuntimeState) : Bool :=
  match runtime.config with
  | none => false
  | some config => config.reports.enabled

def newBinding (runtime : RuntimeState) : List RuntimePolicy → SessionBinding
  | [] => ⟨runtime, [], [], []⟩
  | [first] =>
    ⟨runtime, [first], [first.dimension], if runtime.reportsEnabled then [first.dimension] else []⟩
  | matched =>
    let dimensions := uniqueStrings (matched.map RuntimePolicy.dimension)
    ⟨runtime, matched, dimensions, if runtime.reportsEnabled then AsterCore.reportKeys dimensions else []⟩

@[simp] theorem newBinding_runtime (runtime : RuntimeState) (matched : List RuntimePolicy) :
    (newBinding runtime matched).runtime = runtime := by
  unfold newBinding
  split <;> rfl

@[simp] theorem newBinding_policies (runtime : RuntimeState) (matched : List RuntimePolicy) :
    (newBinding runtime matched).policies = matched := by
  unfold newBinding
  split <;> rfl

variable {runtime : RuntimeState}

theorem RuntimeState.matched_eq_filter (off : runtime.config = none → runtime.policies = [])
    (lib : Stdlib) (flow : Flow) : runtime.matched lib flow = runtime.policies.filter (RuntimePolicy.selects lib flow) := by
  unfold RuntimeState.matched
  split
  next none => rw [off none, List.filter_nil]
  · rfl

theorem RuntimeState.matched_subset {lib : Stdlib} {flow : Flow} {p : RuntimePolicy}
    (h : p ∈ runtime.matched lib flow) : p ∈ runtime.policies := by
  unfold RuntimeState.matched at h
  split at h
  · cases h
  · exact (List.mem_filter.mp h).1

end AsterCore
