import EdgeOrchestrator.Core.Types
import Mathlib.Data.List.Perm.Basic

/-!
# The shape of a scheduling plan

Every policy walks a list of task ids and appends one decision per task that
exists.  This module states once what such a walk produces.

Main result:

- `foldl_decides`: a loop whose body appends one decision for the task at hand decides exactly
  the tasks of its list, in order.
-/

namespace EdgeOrchestrator

/-- The nodes a policy may choose from: the local node and the reachable peers. -/
def candidateIds (localNode : ResourceSnapshot) (cluster : ClusterView) : List NodeId :=
  localNode.nodeId :: (cluster.peers.filter PeerInfo.reachable).map PeerInfo.nodeId

variable (before : List SchedulingDecision)

/-- `decisions` extends `before` by one decision for each id in `ids`, every one
of them on a candidate node. -/
def Extends (ids : List TaskId) (candidates : List NodeId) (decisions : List SchedulingDecision)
    : Prop :=
  ∃ added, decisions = before ++ added ∧ added.map SchedulingDecision.taskId = ids ∧
    ∀ d ∈ added, d.assignedNode ∈ candidates

theorem Extends.refl (candidates : List NodeId) : Extends before [] candidates before :=
  ⟨[], by simp, rfl, by simp⟩

variable {candidates : List NodeId}

theorem Extends.single {d : SchedulingDecision} (hd : d.assignedNode ∈ candidates) :
    Extends before [d.taskId] candidates (before ++ [d]) :=
  ⟨[d], rfl, rfl, by simpa using hd⟩

theorem Extends.trans {before middle after : List SchedulingDecision} {ids ids' : List TaskId}
    (h : Extends before ids candidates middle) (h' : Extends middle ids' candidates after) :
    Extends before (ids ++ ids') candidates after := by
  rcases h with ⟨added, rfl, hids, hnodes⟩
  rcases h' with ⟨added', rfl, hids', hnodes'⟩
  refine ⟨added ++ added', by simp, by simp [hids, hids'], ?_⟩
  intro d hd
  rcases List.mem_append.1 hd with hd | hd
  · exact hnodes d hd
  · exact hnodes' d hd

/-- A loop over task ids whose body keeps `I` and appends one decision for the
task at hand, if that task exists, decides exactly the existing tasks. -/
theorem foldl_decides {σ : Type*} (I : σ → Prop) (isTask : TaskId → Bool)
    (decisions : σ → List SchedulingDecision) {body : σ → TaskId → σ}
    (hbody : ∀ s id, I s → I (body s id) ∧
      Extends (decisions s) (if isTask id then [id] else []) candidates (decisions (body s id)))
    {s : σ} (hs : I s) (ids : List TaskId) :
    I (ids.foldl body s) ∧
      Extends (decisions s) (ids.filter isTask) candidates (decisions (ids.foldl body s)) := by
  induction ids generalizing s with
  | nil => exact ⟨hs, Extends.refl _ _⟩
  | cons id ids ih =>
    rcases hbody s id hs with ⟨hnext, hext⟩
    rcases ih hnext with ⟨hlast, hrest⟩
    refine ⟨hlast, ?_⟩
    have hall := hext.trans hrest
    rw [List.filter_cons]
    by_cases htask : isTask id = true
    · simpa [htask] using hall
    · simpa [htask] using hall

/-- Updating one entry in a way that keeps its key keeps the list of keys. -/
theorem map_modify_of_key_eq {α β : Type*} (key : α → β) (f : α → α)
    (hkey : ∀ a, key (f a) = key a) (l : List α) (i : Nat) :
    (l.modify i f).map key = l.map key := by
  induction l generalizing i with
  | nil => simp
  | cons a l ih =>
    cases i with
    | zero => simp [hkey]
    | succ i => simp [ih]

/-- A plan decides exactly the listed tasks, each once, on candidate nodes. -/
structure PlanShape (ids : List TaskId) (candidates : List NodeId) (plan : SchedulingPlan) :
    Prop where
  taskIds_perm : plan.taskIds.Perm ids
  assigned : ∀ d ∈ plan.decisions, d.assignedNode ∈ candidates

theorem PlanShape.of_extends {ids : List TaskId} {plan : SchedulingPlan}
    (h : Extends [] ids candidates plan.decisions) :
    PlanShape ids candidates plan := by
  rcases h with ⟨added, hdecisions, hids, hassigned⟩
  rw [List.nil_append] at hdecisions
  constructor
  · rw [SchedulingPlan.taskIds, hdecisions, hids]
  · rw [hdecisions]
    exact hassigned

end EdgeOrchestrator
