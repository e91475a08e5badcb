import TinyInfer.Backend.Cuda.OperatorContract
import TinyInfer.Optimizer.GraphRewriter
import TinyInfer.Runtime.DeviceContext

/-!
# Where a model runs (`backend/capability.cpp` and the plans of CUDA and Metal)

`selectModelBackend` places a model as a whole: on the backend, if that supports every
node, and else on the CPU, if the policy allows it and the CPU supports every node.
The constructor of a plan asks it once or twice (`cudaPlacement`, `metalPlacement`).
What it finds of the hardware is a parameter (`Discovery`).

`selectModelBackend_whole` says that no model is divided, `cudaPlacement_cpu` and
`metalPlacement_cpu` that only `FallbackPolicy.wholeModelCpu` leads to the CPU. A plan
keeps its runtime unless it is placed there, so this is `DevicePlan.placed`.
-/

namespace TinyInfer

structure Backend.DeviceInfo where
  id : DeviceId := {}
  available : Bool := false
  unavailableReason : String := ""

/-- The members of a backend that placement calls. -/
structure Backend where
  deviceInfo : Backend.DeviceInfo
  queryCapability : Backend.CapabilityQuery → Except Exn Backend.NodeCapability

namespace Backend

variable {α : Type}

def cpuBackend : Backend where
  deviceInfo := { available := true }
  queryCapability := CpuBackend.queryCapability

/-- `UnavailableCuda` and `UnavailableMetal`, which leave `query_capability` as it is. -/
def unavailable (id : DeviceId) (reason : String) : Backend where
  deviceInfo := { id, unavailableReason := reason }
  queryCapability _ := .ok (.refused "backend has no node-level capability implementation")

structure NodeCapabilityDiagnostic where
  node : NodeId
  name : String
  capability : NodeCapability

structure ModelPlacement where
  requested : DeviceId
  effective : DeviceId
  usedFallback : Bool := false
  reason : String := ""
  nodes : List NodeCapabilityDiagnostic := []

def validateDeviceId (device : DeviceId) : Except Exn Unit :=
  require (device.kind != .cpu || device.ordinal == 0)
    (.invalidArgument "CPU device ordinal must be zero")

/-! ## Asking about every node -/

/-- An operand of a node: a constant is known with its strides. -/
def inputDescriptor (g : Graph α) (id : ValueId) : Except Exn TensorDescriptor := do
  let value ← g.value id
  if g.isConstant id then do
    let tensor ← g.constant id
    .ok { spec := value.spec, strides := some tensor.strides }
  else .ok { spec := value.spec }

/-- A tensor that the plan allocates. -/
def plannedDescriptor (spec : TensorSpec) : Except Exn TensorDescriptor := do
  let layout ← TensorLayout.ofShape spec.shape
  .ok { spec, strides := some layout.strides }

def makeQuery (g : Graph α) (node : Node) (device : DeviceId) : Except Exn CapabilityQuery := do
  let inputs ← node.inputs.mapM (inputDescriptor g)
  let outputs ← node.outputs.mapM fun id => do
    let value ← g.value id
    plannedDescriptor value.spec
  .ok { device, node, inputs, outputs }

/-- What was said about the nodes, and the first reason against them. -/
structure Survey where
  reason : String := ""
  nodes : List NodeCapabilityDiagnostic := []

/-- `if (reason.empty()) reason = ...` -/
def Survey.refuse (survey : Survey) (reason : String) : Survey :=
  if survey.reason = "" then { survey with reason } else survey

/-- The loop over the nodes, which asks about each of them. -/
def surveyNodes (g : Graph α) (device : DeviceId)
    (query : CapabilityQuery → Except Exn NodeCapability) :
    List NodeId → Survey → Except Exn Survey
  | [], survey => .ok survey
  | id :: ids, survey => do
    let node ← g.node id
    let capability ← makeQuery g node device >>= query
    let survey := { survey with nodes := survey.nodes ++ [⟨id, node.name, capability⟩] }
    if capability.supported then surveyNodes g device query ids survey
    else
      surveyNodes g device query ids
        (survey.refuse ("unsupported node '" ++ node.name ++ "': " ++ capability.reason))

/-- What a backend says about a model; a device that is not there is not asked. -/
def surveyBackend (g : Graph α) (backend : Backend) (order : List NodeId) : Except Exn Survey :=
  if backend.deviceInfo.available then
    surveyNodes g backend.deviceInfo.id backend.queryCapability order {}
  else .ok { reason := "device unavailable: " ++ backend.deviceInfo.unavailableReason }

/-- The loop over the nodes of a model that has to run on the CPU. -/
def requireCpu (g : Graph α) (node : Node) : Except Exn Unit := do
  let capability ← makeQuery g node {} >>= CpuBackend.queryCapability
  require capability.supported (.runtimeError ("CPU fallback unavailable: " ++ capability.reason))

def selectModelBackend (model : Model α) (backend : Backend) (policy : FallbackPolicy) :
    Except Exn ModelPlacement := do
  let g := model.graph.tables
  g.validate
  let info := backend.deviceInfo
  validateDeviceId info.id
  let order ← g.topologicalOrder
  let survey ← surveyBackend g backend order
  let placement : ModelPlacement :=
    { requested := info.id, effective := info.id, reason := survey.reason, nodes := survey.nodes }
  if survey.reason = "" then .ok placement
  else if policy = .strict ∨ info.id.kind = .cpu then .error (.runtimeError survey.reason)
  else do
    -- The whole model is checked before the CPU is chosen; nodes are never mixed.
    g.nodes.forM (requireCpu g)
    .ok { placement with effective := {}, usedFallback := true }

/-! ## The constructors of the plans -/

/-- What a constructor finds of the hardware. -/
inductive Discovery where
  | missing
  | throws (e : Exn)
  | found (query : CapabilityQuery → Except Exn NodeCapability)

/-- The question about a value, put as one about an operator with one operand. -/
def valueQuery (device : DeviceId) (value : GraphValue) : Except Exn CapabilityQuery := do
  let descriptor ← plannedDescriptor value.spec
  let node : Node := ⟨0, "", .reLU, [value.id], [value.id], []⟩
  .ok { device, node, inputs := [descriptor], outputs := [descriptor] }

/-- The loop of `static_cuda_check` over the values. -/
def surveyValues (device : DeviceId) : List GraphValue → Survey → Except Exn Survey
  | [], survey => .ok survey
  | value :: values, survey => do
    let capability ← valueQuery device value >>= Cuda.validateOperatorContract
    if capability.supported then surveyValues device values survey
    else
      surveyValues device values
        (survey.refuse ("value '" ++ value.name ++ "': " ++ capability.reason))

def staticCudaCheck (g : Graph α) (ordinal : Nat) (order : List NodeId) : Except Exn Survey := do
  let survey ← surveyNodes g ⟨.cuda, ordinal⟩ Cuda.validateOperatorContract order {}
  surveyValues ⟨.cuda, ordinal⟩ g.values survey

/-- The first value that the CUDA runtime refuses, and why. -/
def cudaRefusal (device : DeviceId) (query : CapabilityQuery → Except Exn NodeCapability) :
    List GraphValue → Except Exn (Option String)
  | [] => .ok none
  | value :: values => do
    let capability ← valueQuery device value >>= query
    if capability.supported then cudaRefusal device query values
    else .ok (some ("value " ++ value.name ++ ": " ++ capability.reason))

/-- The first value that is outside the contract of Metal. -/
def metalRefusal (values : List GraphValue) : Option String :=
  (values.find? fun value => value.spec.dtype ≠ .float32 ∨ 4 < value.spec.shape.length).map
    fun value => "value " ++ value.name ++ " exceeds the FP32 rank <= 4 Prepared Metal contract"

/-- The model goes to the device, unless the plan refuses a value of it. -/
def placeOnDevice (model : Model α) (policy : FallbackPolicy) (device : DeviceId)
    (query : CapabilityQuery → Except Exn NodeCapability)
    (refusal : Except Exn (Option String)) : Except Exn ModelPlacement := do
  let placement ← selectModelBackend model ⟨{ id := device, available := true }, query⟩ policy
  if placement.effective.kind ≠ device.kind then .ok placement
  else
    match ← refusal with
    | none => .ok placement
    | some reason => selectModelBackend model (unavailable device reason) policy

/-- A model that the static check refuses, before any device is looked for. -/
def rejectStatically (model : Model α) (policy : FallbackPolicy) (device : DeviceId)
    (survey : Survey) : Except Exn ModelPlacement :=
  if policy = .strict then .error (.runtimeError survey.reason)
  else
    match selectModelBackend model cpuBackend .strict with
    | .error (.runtimeError what) => .error (.runtimeError ("CPU fallback unavailable: " ++ what))
    | .error e => .error e
    | .ok _ => .ok {
        requested := device
        effective := {}
        usedFallback := true
        reason := survey.reason
        nodes := survey.nodes }

/-- The placement of a CUDA plan. -/
def cudaPlacement (model : Model α) (ordinal : Nat) (policy : FallbackPolicy)
    (discovery : Discovery) : Except Exn ModelPlacement := do
  let device : DeviceId := ⟨.cuda, ordinal⟩
  let g := model.graph.tables
  let order ← g.topologicalOrder
  let survey ← staticCudaCheck g ordinal order
  if survey.reason ≠ "" then rejectStatically model policy device survey
  else
    match discovery with
    | .missing =>
      selectModelBackend model (unavailable device "requested CUDA device is unavailable") policy
    | .throws (.runtimeError what) =>
      if policy = .strict then .error (.runtimeError what)
      else selectModelBackend model (unavailable device what) policy
    | .throws e => .error e
    | .found query => placeOnDevice model policy device query (cudaRefusal device query g.values)

/-- The placement of a Metal plan. -/
def metalPlacement (model : Model α) (ordinal : Nat) (policy : FallbackPolicy) :
    Discovery → Except Exn ModelPlacement
  | .missing =>
    selectModelBackend model (unavailable ⟨.metal, ordinal⟩ "requested Metal device is unavailable")
      policy
  | .throws e => .error e
  | .found query =>
    placeOnDevice model policy ⟨.metal, ordinal⟩ query
      (.ok (metalRefusal model.graph.tables.values))

/-! ## A model is placed as a whole -/

/-- All nodes run on the backend that was asked. -/
structure OnBackend (model : Model α) (backend : Backend) (placement : ModelPlacement) :
    Prop where
  effective : placement.effective = backend.deviceInfo.id
  noFallback : placement.usedFallback = false
  available : backend.deviceInfo.available = true
  nodes : placement.nodes.map (·.node) = List.range model.graph.tables.nodes.length
  supported : ∀ diagnostic ∈ placement.nodes, diagnostic.capability.supported = true

/-- All nodes run on the CPU, in place of a device. -/
structure OnCpu (model : Model α) (backend : Backend) (policy : FallbackPolicy)
    (placement : ModelPlacement) : Prop where
  effective : placement.effective = {}
  usedFallback : placement.usedFallback = true
  policy : policy = .wholeModelCpu
  device : backend.deviceInfo.id.kind ≠ .cpu
  supported : ∀ node ∈ model.graph.tables.nodes, requireCpu model.graph.tables node = .ok ()

@[simp] theorem Survey.refuse_nodes {survey : Survey} {reason : String} :
    (survey.refuse reason).nodes = survey.nodes := by
  unfold Survey.refuse
  split <;> rfl

/-- A reason stays, and a reason that is not empty is noted. -/
theorem Survey.refuse_reason {survey : Survey} {reason : String} (hne : reason ≠ "") :
    (survey.refuse reason).reason ≠ "" := by
  unfold Survey.refuse
  split
  · exact hne
  · assumption

/-- The nodes were all asked about, and no reason means that all are supported. -/
theorem surveyNodes_ok {g : Graph α} {device : DeviceId}
    {query : CapabilityQuery → Except Exn NodeCapability} {ids : List NodeId}
    {survey result : Survey} (h : surveyNodes g device query ids survey = .ok result) :
    (result.reason = "" → survey.reason = "") ∧
      ∃ asked, result.nodes = survey.nodes ++ asked ∧ asked.map (·.node) = ids ∧
        (result.reason = "" → ∀ diagnostic ∈ asked, diagnostic.capability.supported = true) := by
  induction ids generalizing survey with
  | nil =>
    cases h
    exact ⟨id, [], by simp, rfl, by simp⟩
  | cons id ids ih =>
    obtain ⟨node, hnode, h⟩ := bind_ok.1 h
    obtain ⟨capability, hcapability, h⟩ := bind_ok.1 h
    by_cases hsupported : capability.supported = true
    · rw [if_pos hsupported] at h
      obtain ⟨hreason, asked, hnodes, hids, hall⟩ := ih h
      refine ⟨hreason, ⟨id, node.name, capability⟩ :: asked, by simp [hnodes], by simp [hids], ?_⟩
      intro hempty
      exact List.forall_mem_cons.2 ⟨hsupported, hall hempty⟩
    · rw [if_neg hsupported] at h
      obtain ⟨hreason, asked, hnodes, hids, hall⟩ := ih h
      have hrefused : result.reason ≠ "" := fun hempty =>
        Survey.refuse_reason (by simp) (hreason hempty)
      refine ⟨fun hempty => absurd hempty hrefused, ⟨id, node.name, capability⟩ :: asked, ?_, ?_,
        fun hempty => absurd hempty hrefused⟩
      · simp [hnodes]
      · simp [hids]

/-- **A model is never divided.** A placement is on the backend, which supports every
node, or on the CPU, which then supports every node. -/
theorem selectModelBackend_whole {model : Model α} {backend : Backend} {policy : FallbackPolicy}
    {placement : ModelPlacement} (h : selectModelBackend model backend policy = .ok placement) :
    placement.requested = backend.deviceInfo.id ∧
      (OnBackend model backend placement ∨ OnCpu model backend policy placement) := by
  obtain ⟨-, h⟩ := check_ok.1 h
  obtain ⟨-, h⟩ := check_ok.1 h
  obtain ⟨order, horder, h⟩ := bind_ok.1 h
  obtain ⟨survey, hsurvey, h⟩ := bind_ok.1 h
  by_cases hempty : survey.reason = ""
  · rw [if_pos hempty] at h
    cases h
    unfold surveyBackend at hsurvey
    split at hsurvey
    · rename_i havailable
      obtain ⟨-, asked, hnodes, hids, hall⟩ := surveyNodes_ok hsurvey
      have hasked : survey.nodes = asked := by simpa using hnodes
      rw [model.order_eq] at horder
      cases horder
      exact ⟨rfl, .inl ⟨rfl, rfl, havailable, by rw [← hids, ← hasked],
        fun diagnostic hmem => hall hempty diagnostic (hasked ▸ hmem)⟩⟩
    · -- An unavailable device leaves a reason.
      cases hsurvey
      simp at hempty
  · rw [if_neg hempty] at h
    split at h
    · cases h
    · rename_i hpolicy
      obtain ⟨hstrict, hdevice⟩ := not_or.1 hpolicy
      obtain ⟨hcpu, h⟩ := check_ok.1 h
      cases h
      have hwhole : policy = .wholeModelCpu := by
        cases policy with
        | strict => exact absurd rfl hstrict
        | wholeModelCpu => rfl
      exact ⟨rfl, .inr ⟨rfl, rfl, hwhole, hdevice, forM_ok.1 hcpu⟩⟩

/-- A device sends a model to the CPU only where the policy allows it. -/
theorem selectModelBackend_cpu {model : Model α} {backend : Backend} {policy : FallbackPolicy}
    {placement : ModelPlacement} (h : selectModelBackend model backend policy = .ok placement)
    (hdevice : backend.deviceInfo.id.kind ≠ .cpu) (hcpu : placement.effective.kind = .cpu) :
    policy = .wholeModelCpu := by
  obtain ⟨-, hbackend | hfallback⟩ := selectModelBackend_whole h
  · rw [hbackend.effective] at hcpu
    exact absurd hcpu hdevice
  · exact hfallback.policy

theorem placeOnDevice_cpu {model : Model α} {policy : FallbackPolicy} {device : DeviceId}
    {query : CapabilityQuery → Except Exn NodeCapability}
    {refusal : Except Exn (Option String)} {placement : ModelPlacement}
    (h : placeOnDevice model policy device query refusal = .ok placement)
    (hdevice : device.kind ≠ .cpu) (hcpu : placement.effective.kind = .cpu) :
    policy = .wholeModelCpu := by
  obtain ⟨first, hfirst, h⟩ := bind_ok.1 h
  split at h
  · cases h
    exact selectModelBackend_cpu hfirst hdevice hcpu
  · obtain ⟨refused, -, h⟩ := bind_ok.1 h
    cases refused with
    | none =>
      cases h
      exact selectModelBackend_cpu hfirst hdevice hcpu
    | some reason => exact selectModelBackend_cpu h hdevice hcpu

/-- A CUDA plan without a runtime has the policy that falls back. -/
theorem cudaPlacement_cpu {model : Model α} {ordinal : Nat} {policy : FallbackPolicy}
    {discovery : Discovery} {placement : ModelPlacement}
    (h : cudaPlacement model ordinal policy discovery = .ok placement)
    (hcpu : placement.effective.kind = .cpu) : policy = .wholeModelCpu := by
  have hdevice : DeviceKind.cuda ≠ .cpu := by decide
  cases policy with
  | wholeModelCpu => rfl
  | strict =>
    exfalso
    obtain ⟨order, -, h⟩ := bind_ok.1 h
    obtain ⟨survey, -, h⟩ := bind_ok.1 h
    split at h
    · cases h
    · cases discovery with
      | missing => cases selectModelBackend_cpu h hdevice hcpu
      | throws e => cases e <;> cases h
      | found query => cases placeOnDevice_cpu h hdevice hcpu

/-- A Metal plan without a runtime has the policy that falls back. -/
theorem metalPlacement_cpu {model : Model α} {ordinal : Nat} {policy : FallbackPolicy}
    {discovery : Discovery} {placement : ModelPlacement}
    (h : metalPlacement model ordinal policy discovery = .ok placement)
    (hcpu : placement.effective.kind = .cpu) : policy = .wholeModelCpu := by
  have hdevice : DeviceKind.metal ≠ .cpu := by decide
  cases discovery with
  | missing => exact selectModelBackend_cpu h hdevice hcpu
  | throws e => cases h
  | found query => exact placeOnDevice_cpu h hdevice hcpu

end Backend

end TinyInfer
