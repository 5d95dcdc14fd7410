import Vash.Node.Store

/-!
# The jobs a call hands out

Whatever a write learns on its way, it hands `CreateTags` jobs to the writers while
it registers its tags, and `Set` jobs after that.
-/

namespace Vash.Node

open Library Store

section Only

variable {n : Nat} {p : WriteOp → Prop}

theorem ask_only {α : Type} {shard : Fin n} {op : WriteOp} {expected : WriteOutcome → Option α}
    (allowed : p op) : (ask shard op expected).Only p := by
  refine ⟨allowed, ?_⟩
  rintro (e | outcome)
  · trivial
  · simp only [answered]
    split <;> trivial

section Registration

variable (creates : ∀ names, p (.createTags names)) (sets : ∀ prepared, p (.set prepared))

theorem nodeGeneration_only (name : Bytes) (shards : List (Fin n)) (highest : Option Nat) :
    (VashStore.nodeGeneration name shards highest).Only p := by
  induction shards generalizing highest with
  | nil => trivial
  | cons shard rest ih => exact fun sh _ => ih _

theorem gatherNames_only (names : List Bytes) (missing : List (Bytes × Nat)) :
    (VashStore.gatherNames names missing : NodeCall n _).Only p := by
  induction names generalizing missing with
  | nil => trivial
  | cons name rest ih =>
    unfold VashStore.gatherNames
    split
    · exact ih _
    · exact (nodeGeneration_only name _ none).bind fun _ => ih _

theorem prepareRun_only (shard : Fin n) (requests : List SetRequest)
    (prepared : List PreparedSet) : (VashStore.prepareRun shard requests prepared).Only p := by
  induction requests generalizing prepared with
  | nil => trivial
  | cons set rest ih =>
    intro sh now
    dsimp only
    split
    · trivial
    · exact ih _

theorem waitBlocking_only (pending : List (List Nat × Reply)) (results : List Nat) :
    (VashStore.waitBlocking pending results : NodeCall n _).Only p := by
  induction pending generalizing results with
  | nil => trivial
  | cons sent rest ih =>
    unfold VashStore.waitBlocking
    split
    · exact ih _
    · trivial
    · trivial

include sets in
theorem sendRuns_only (runs : List (Fin n × List (Placed n SetRequest)))
    (pending : List (List Nat × Reply)) : (VashStore.sendRuns runs pending).Only p := by
  induction runs generalizing pending with
  | nil => trivial
  | cons run rest ih =>
    exact (prepareRun_only run.1 _ _).bind fun prepared => ⟨sets prepared, fun _ => ih _⟩

variable [NeZero n] (node : VashStore n)

theorem gatherSets_only (requests : List SetRequest) (shard : Option (Fin n))
    (missing : List (Bytes × Nat)) : (node.gatherSets requests shard missing).Only p := by
  induction requests generalizing shard missing with
  | nil => trivial
  | cons set rest ih =>
    unfold VashStore.gatherSets
    split
    · exact ih _ _
    · exact fun sh _ => (gatherNames_only _ _).bind fun _ => ih _ _

include creates in
theorem registerRuns_only (runs : List (Fin n × List (Placed n SetRequest))) :
    (node.registerRuns runs).Only p := by
  induction runs with
  | nil => trivial
  | cons run rest ih =>
    refine Call.Only.bind ?_ fun _ => ih
    refine (gatherSets_only node _ _ _).bind fun gathered => ?_
    rcases gathered with ⟨_ | shard, _ | ⟨name, names⟩⟩ <;>
      first | trivial | exact ask_only (creates _)

include creates in
theorem ensureTagsRegistered_only (requests : List SetRequest) :
    (node.ensureTagsRegistered requests).Only p := by
  unfold VashStore.ensureTagsRegistered
  split
  · trivial
  · split
    · trivial
    · exact registerRuns_only creates node _

include creates sets in
theorem setMany_only (requests : List SetRequest) : (node.setMany requests).Only p :=
  (ensureTagsRegistered_only creates node requests).bind fun _ =>
    (sendRuns_only sets _ _).bind fun _ => waitBlocking_only _ _

end Registration

end Only

end Vash.Node
