import Mathlib.Data.BitVec
import Mathlib.Tactic.Common

/-!
# Shared vocabulary types

The types of `core/types.hpp` and the plan structures of `scheduler.hpp`.
Identifiers are `std::string`, that is byte strings.  Sizes and counters are
64-bit words.  A `float` is its 32-bit pattern; the arithmetic of the target
is a parameter, and a result that depends on how it rounds names the laws it uses.
Durations are exact integers of microseconds; where a sum of the code's `int64_t`
could overflow, the statements bound the costs.
-/

namespace EdgeOrchestrator

/-! ## Scalars -/

/-- A `std::string`. -/
abbrev ByteString := List UInt8

/-- Membership in a list of strings is decided by this comparison. -/
instance instLawfulBEqByteString : LawfulBEq ByteString :=
  inferInstance

/-- The bytes of a string literal. -/
def text (literal : String) : ByteString :=
  literal.toUTF8.data.toList

abbrev NodeId := ByteString

abbrev TaskId := ByteString

/-- `uint64_t` and `size_t`. -/
abbrev U64 := BitVec 64

/-- The bit pattern of a `float`. -/
abbrev F32 := BitVec 32

/-- `std::chrono::microseconds`, as an exact count. -/
abbrev Duration := Int

/-- The range of the `int64_t` behind a duration. -/
def IsInt64 (count : Int) : Prop :=
  -2 ^ 63 ≤ count ∧ count < 2 ^ 63

instance : DecidablePred IsInt64 := fun count =>
  inferInstanceAs (Decidable (-2 ^ 63 ≤ count ∧ count < 2 ^ 63))

/-- A point of `std::chrono::system_clock`. -/
abbrev Timestamp := Int

/-- The `float` operations the schedulers use. -/
structure FloatOps where
  add : F32 → F32 → F32
  sub : F32 → F32 → F32
  mul : F32 → F32 → F32
  div : F32 → F32 → F32
  lt : F32 → F32 → Bool
  /-- `static_cast<float>` of a `uint64_t`. -/
  ofU64 : U64 → F32
  /-- `static_cast<float>` of an `int64_t`. -/
  ofI64 : Int → F32
  /-- `static_cast<int64_t>` of a `float`. -/
  toI64 : F32 → Int

/-- The host's single-precision arithmetic. -/
def FloatOps.host : FloatOps where
  add a b := (Float32.ofBits ⟨a⟩ + Float32.ofBits ⟨b⟩).toBits.toBitVec
  sub a b := (Float32.ofBits ⟨a⟩ - Float32.ofBits ⟨b⟩).toBits.toBitVec
  mul a b := (Float32.ofBits ⟨a⟩ * Float32.ofBits ⟨b⟩).toBits.toBitVec
  div a b := (Float32.ofBits ⟨a⟩ / Float32.ofBits ⟨b⟩).toBits.toBitVec
  lt a b := Float32.ofBits ⟨a⟩ < Float32.ofBits ⟨b⟩
  ofU64 n := (UInt64.ofBitVec n).toFloat32.toBits.toBitVec
  ofI64 n := (Int64.ofInt n).toFloat32.toBits.toBitVec
  toI64 a := (Float32.ofBits ⟨a⟩).toInt64.toInt

/-- Whole numbers in place of floats. -/
def FloatOps.wholeNumber : FloatOps where
  add a b := a + b
  sub a b := a - b
  mul a b := a * b
  div a b := a / b
  lt a b := a < b
  ofU64 n := n.setWidth 32
  ofI64 n := BitVec.ofInt 32 n
  toI64 a := a.toNat

/-- `std::min` on floats. -/
def FloatOps.min (fl : FloatOps) (a b : F32) : F32 :=
  if fl.lt b a then b else a

/-! ## Resources -/

/-- A point-in-time snapshot of a node's hardware resources. -/
structure ResourceSnapshot where
  nodeId : NodeId
  timestamp : Timestamp := 0
  cpuUsagePercent : F32 := 0
  perCoreCpuPercent : List F32 := [0, 0, 0, 0]
  memoryAvailableBytes : U64 := 0
  memoryTotalBytes : U64 := 0
  cpuTemperatureCelsius : F32 := 0
  gpuTemperatureCelsius : F32 := 0
  networkRxBytesSec : U64 := 0
  networkTxBytesSec : U64 := 0
  isThrottled : Bool := false
deriving DecidableEq, Repr

/-- The literals `100.0f` and `0.001f`. -/
def oneHundred : F32 := 0x42C80000#32
/-- `0.001f`. -/
def oneThousandth : F32 := 0x3A83126F#32

/-- `memory_usage_percent`; the subtraction is the code's unsigned one. -/
def ResourceSnapshot.memoryUsagePercent (fl : FloatOps) (r : ResourceSnapshot) : F32 :=
  if r.memoryTotalBytes = 0 then 0
  else
    fl.div (fl.mul oneHundred (fl.ofU64 (r.memoryTotalBytes - r.memoryAvailableBytes)))
      (fl.ofU64 r.memoryTotalBytes)

/-- What is left of the processor, in percent. -/
def ResourceSnapshot.cpuHeadroomPercent (fl : FloatOps) (r : ResourceSnapshot) : F32 :=
  fl.sub oneHundred r.cpuUsagePercent

/-! ## Tasks -/

/-- Cost profile of a computational task. -/
structure TaskProfile where
  computeCost : Duration := 0
  memoryBytes : U64 := 0
  inputBytes : U64 := 0
  outputBytes : U64 := 0
deriving DecidableEq, Repr

/-- The life of a task. -/
inductive TaskState where
  | pending
  | ready
  | scheduled
  | running
  | completed
  | failed
deriving DecidableEq, Repr

/-- A single task node of a workload. -/
structure Task where
  id : TaskId
  name : ByteString := []
  profile : TaskProfile := {}
  dependencies : List TaskId := []
  state : TaskState := .pending
deriving DecidableEq, Repr

/-! ## Peers and plans -/

/-- What discovery knows about one peer; `tcpPort` is a `uint16_t`. -/
structure PeerInfo where
  nodeId : NodeId
  resources : ResourceSnapshot
  address : ByteString := []
  tcpPort : BitVec 16 := 0
  reachable : Bool := true
deriving DecidableEq, Repr

/-- The immutable copy of peer state that a policy works on. -/
structure ClusterView where
  peers : List PeerInfo
deriving DecidableEq, Repr

/-- `SchedulingDecision::Reason`. -/
inductive Reason where
  | localCapacity
  | leastLoaded
  | thresholdOffload
  | optimizationResult
  | fallback
deriving DecidableEq, Repr

/-- Where a task is to run, and why. -/
structure SchedulingDecision where
  taskId : TaskId
  assignedNode : NodeId
  reason : Reason
deriving DecidableEq, Repr

/-- The answer of a policy. -/
structure SchedulingPlan where
  decisions : List SchedulingDecision := []
  estimatedMakespan : Duration := 0
deriving DecidableEq, Repr

/-- The tasks a plan decides about, in plan order. -/
def SchedulingPlan.taskIds (plan : SchedulingPlan) : List TaskId :=
  plan.decisions.map SchedulingDecision.taskId

end EdgeOrchestrator
