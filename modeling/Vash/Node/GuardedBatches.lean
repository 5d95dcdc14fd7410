import Vash.Library.Serial
import Vash.Node.Pointwise

/-!
# Guarded batches on one shard

`set_many_if` looks at the deadlines of its keys, judges its guard by what it found
and then hands its batch to the writer like any other write. Other calls' jobs can be
committed in between, also when the store has one shard only.

* `guarded_batches_serialize` — if what each call looked up would still be found so
  when it hands over its job, and no call registers a tag on its way, the calls have
  the results of some serial order.
* `both_batches_apply` — two batches that may each be stored only if their key is
  absent, which both look before either is written, both apply.
-/

namespace Vash.Node

open Library Store

/-- The guarded batches, and the other writes. -/
inductive WriteCall where
  | setManyIf (sets : List SetRequest) (guard : BatchGuard)
  | setMany (sets : List SetRequest)
  | store (set : SetRequest)
  | arithmetic (op : Arithmetic)
  | append (key suffix : Bytes)
  | expire (key : Bytes) (ttl : TtlChange) (guard : ExpireGuard)
  | touch (key : Bytes) (ttlSecs : Nat)
  | delete (key : Bytes)
  | deleteMany (keys : List Bytes)
  | flush
  deriving DecidableEq, Repr

/-- The call made for a request. -/
def VashStore.perform {n : Nat} [NeZero n] (node : VashStore n) :
    WriteCall → NodeCall n WriteOutcome
  | .setManyIf sets guard => node.setManyIf sets guard >>= fun applied => pure (.applied applied)
  | .setMany sets => node.setMany sets >>= fun tokens => pure (.cas tokens)
  | .store set => node.store set >>= fun written => pure (.written written)
  | .arithmetic op => node.arithmetic op >>= fun applied => pure (.arithmetic applied)
  | .append key suffix => node.append key suffix >>= fun length => pure (.length length)
  | .expire key ttl guard => node.expire key ttl guard >>= fun applied => pure (.applied applied)
  | .touch key ttlSecs => node.touch key ttlSecs >>= fun hit => pure (.touched [hit])
  | .delete key => node.delete key >>= fun hit => pure (.deleted [hit])
  | .deleteMany keys => node.deleteMany keys >>= fun hits => pure (.deleted hits)
  | .flush => VashStore.flush >>= fun epoch => pure (.flushed epoch)

/-- The jobs by which a write registers its tags. -/
def Registers : WriteOp → Prop
  | .createTags _ => True
  | _ => False

instance decidableRegisters : ∀ op, Decidable (Registers op)
  | .createTags _ => .isTrue trivial
  | .set _ | .conditionalSet _ _ | .delete _ | .touch _ _ | .arithmetic _ | .append _ _
  | .expire _ _ _ | .deleteByTag _ | .mergeTag _ _ | .flush | .sync => .isFalse id

/-! ### One job per call -/

section OneJob

/-- The call hands over one job at the end, besides those that register tags. -/
def EndsWithJob {α : Type} (call : NodeCall 1 α) : Prop :=
  ∃ after : Reply → NodeCall 1 α, (∀ r, (after r).outcome.isSome = true) ∧
    call.Settles Registers after

variable {α β : Type}

theorem answered_outcome {expected : WriteOutcome → Option α} {next : α → NodeCall 1 β}
    (ends : ∀ a, (next a).outcome.isSome = true) (reply : Reply) :
    (answered expected reply >>= next).outcome.isSome = true := by
  cases reply with
  | error e => rfl
  | ok outcome =>
    simp only [answered]
    cases expected outcome with
    | none => rfl
    | some a => exact ends a

theorem ask_endsWithJob {shard : Fin 1} {op : WriteOp} {expected : WriteOutcome → Option α}
    {next : α → NodeCall 1 β} (ends : ∀ a, (next a).outcome.isSome = true) :
    EndsWithJob (ask shard op expected >>= next) :=
  ⟨_, answered_outcome ends, .inr rfl⟩

variable (node : VashStore 1)

/-- One shard gets at most one run. -/
theorem group_one (keyOf : α → Bytes) (items : List α) :
    group node.sort node.hash keyOf items = [] ∨
      ∃ run, group node.sort node.hash keyOf items = [(0, run)] := by
  have once : ((group node.sort node.hash keyOf items).map Prod.fst).Nodup := group_nodup
  rcases listed : group node.sort node.hash keyOf items with _ | ⟨⟨first, run⟩, rest⟩
  · exact .inl rfl
  · rw [listed] at once
    have none : rest = [] := by
      refine List.eq_nil_iff_forall_not_mem.mpr ?_
      rintro ⟨other, run'⟩ mem
      exact (List.nodup_cons.mp once).1 (List.mem_map.mpr ⟨_, mem, Subsingleton.elim _ _⟩)
    subst none
    exact .inr ⟨run, by rw [Subsingleton.elim first 0]⟩

theorem waitBlocking_outcome (positions : List Nat) (results : List Nat)
    (f : List Nat → β) (reply : Reply) :
    (VashStore.waitBlocking [(positions, reply)] results >>= fun a =>
      (pure (f a) : NodeCall 1 β)).outcome.isSome = true := by
  cases reply with
  | error e => rfl
  | ok outcome => cases outcome <;> rfl

theorem setMany_endsWithJob (sets : List SetRequest) (f : List Nat → β) :
    EndsWithJob (node.setMany sets >>= fun tokens => pure (f tokens)) := by
  have registers := ensureTagsRegistered_only (p := Registers) (fun _ => trivial) node sets
  unfold VashStore.setMany
  simp only [bind_assoc]
  rcases group_one node SetRequest.key sets with empty | ⟨run, whole⟩
  · rw [empty]
    exact ⟨fun _ => .done (f []), fun _ => rfl, registers.settles_bind fun _ => trivial⟩
  · rw [whole]
    refine ⟨_, waitBlocking_outcome (run.map Placed.position) (sets.map fun _ => 0) f,
      registers.settles_bind fun _ => ?_⟩
    simp only [VashStore.sendRuns, bind_assoc]
    exact (prepareRun_only 0 _ _).settles_bind fun prepared => .inr rfl

theorem setManyIf_endsWithJob (sets : List SetRequest) (guard : BatchGuard) (f : Bool → β) :
    EndsWithJob (node.setManyIf sets guard >>= fun applied => pure (f applied)) := by
  obtain ⟨after, ends, settles⟩ := setMany_endsWithJob node sets fun _ => f true
  refine ⟨after, ends, ?_⟩
  unfold VashStore.setManyIf
  split
  · simpa only [bind_assoc, pure_bind] using settles
  · intro sh now
    change Call.Settles Registers after ((if VashStore.guardApplies guard _ then _ else _) >>= _)
    split
    · simpa only [bind_assoc, pure_bind] using settles
    · trivial

theorem store_endsWithJob (set : SetRequest) (f : Written → β) :
    EndsWithJob (node.store set >>= fun written => pure (f written)) := by
  have registers := ensureTagsRegistered_only (p := Registers) (fun _ => trivial) node [set]
  unfold VashStore.store
  simp only [bind_assoc]
  -- what follows the job is read off the call itself
  apply Exists.intro
  constructor
  rotate_left
  · apply registers.settles_bind
    intro _ sh now
    dsimp only
    split
    · trivial
    · exact .inr rfl
  · exact answered_outcome fun _ => rfl

theorem deleteMany_endsWithJob (keys : List Bytes) (f : List Bool → β) :
    EndsWithJob (node.deleteMany keys >>= fun hits => pure (f hits)) := by
  unfold VashStore.deleteMany
  rcases group_one node id keys with empty | ⟨run, whole⟩
  · rw [empty]
    exact ⟨fun _ => .done (f []), fun _ => rfl, trivial⟩
  · rw [whole]
    simp only [VashStore.deleteRuns, bind_assoc]
    exact ask_endsWithJob fun _ => rfl

theorem perform_endsWithJob (request : WriteCall) : EndsWithJob (node.perform request) := by
  cases request with
  | setManyIf sets guard => exact setManyIf_endsWithJob node sets guard _
  | setMany sets => exact setMany_endsWithJob node sets _
  | store set => exact store_endsWithJob node set _
  | arithmetic op => exact ask_endsWithJob fun _ => rfl
  | append key suffix => exact ask_endsWithJob fun _ => rfl
  | expire key ttl guard => exact ask_endsWithJob fun _ => rfl
  | touch key ttlSecs =>
    simp only [VashStore.perform, VashStore.touch, bind_assoc]
    exact ask_endsWithJob fun _ => rfl
  | delete key =>
    simp only [VashStore.perform, VashStore.delete, bind_assoc]
    exact ask_endsWithJob fun _ => rfl
  | deleteMany keys => exact deleteMany_endsWithJob node keys _
  | flush =>
    simp only [VashStore.perform, VashStore.flush, VashStore.flushShards, List.finRange_succ,
      List.finRange_zero, List.map_nil, bind_assoc]
    exact ask_endsWithJob fun _ => rfl

end OneJob

/-! ### A serial order -/

/-- Writes in progress on a store with one shard. -/
abbrev WriteSessions := Sessions (Fin 1) Shard WriteOp Reply StoreError WriteOutcome WriteCall

/-- One event of such a store. -/
def VashStore.stepWrites (node : VashStore 1) (t : WriteSessions)
    (event : CrowdEvent WriteCall) : WriteSessions :=
  t.step submit node.perform event

/-- When a call hands over its job, or a look ends it, all it looked up would still be
found so; and the job does not register tags. -/
def VashStore.LooksCurrent (node : VashStore 1) (t : WriteSessions)
    (event : CrowdEvent WriteCall) : Prop :=
  t.Current submit node.perform Registers event

/-- On a store with one shard, guarded batches and other writes whose looks stay
current until their jobs are handed over have the results of a serial order. -/
theorem guarded_batches_serialize (node : VashStore 1) (parties : Fin 1 → Shard)
    (events : List (CrowdEvent WriteCall))
    (current : Along node.stepWrites node.LooksCurrent ⟨parties, []⟩ events)
    (quiet : (run node.stepWrites ⟨parties, []⟩ events).Quiet) :
    (run node.stepWrites ⟨parties, []⟩ events).Serial submit node.perform parties := by
  choose after ends settles using perform_endsWithJob node
  exact Sessions.serial_of_current settles ends current quiet

section Examples

instance decidableLooksCurrent (node : VashStore 1) (t : WriteSessions) :
    ∀ event, Decidable (node.LooksCurrent t event)
  | .start _ => .isTrue trivial
  | .advance index clock => inferInstanceAs (Decidable (∀ s ∈ t.calls[index]?,
      s.rest.outcome.isSome = false →
        (∀ job ∈ s.rest.nextJob, ¬ Registers job.2 ∧
          (Call.lookAgain t.parties s.readings (node.perform s.request)).bind Call.nextJob =
            some job) ∧
        (s.rest.nextJob = none → ∀ result ∈ (s.next submit clock t.parties).rest.outcome,
          (Call.lookAgain t.parties (s.readings ++ [clock]) (node.perform s.request)).bind
            Call.outcome = some result)))

def singleShard : VashStore 1 := oneShardStore (.stable 1)

/-- Store `value` under `key` if the key is absent. -/
def storeAbsent (key value : Bytes) : WriteCall :=
  .setManyIf [⟨key, value, .set 0, 0, [], .set, false⟩] .ifAllAbsent

/-- Two batches under way together, on different keys, and a third on the key of the
first, which is refused. -/
def apartRun : List (CrowdEvent WriteCall) :=
  [.start (storeAbsent [1] [10]), .start (storeAbsent [2] [20])] ++ advances 100 0 1 ++
    advances 100 1 1 ++ advances 100 0 2 ++ [.start (storeAbsent [1] [30])] ++ advances 100 2 1 ++
    advances 100 1 2

theorem guarded_batches_serialize_apart :
    (run singleShard.stepWrites ⟨newShard, []⟩ apartRun).calls.map (fun s => s.rest.outcome) =
        [some (.ok (.applied true)), some (.ok (.applied true)), some (.ok (.applied false))] ∧
      (run singleShard.stepWrites ⟨newShard, []⟩ apartRun).Serial submit singleShard.perform
        newShard :=
  ⟨by decide +kernel, guarded_batches_serialize singleShard newShard apartRun (by decide +kernel)
    (by unfold Sessions.Quiet; decide +kernel)⟩

/-- Two things can be put in two orders. -/
theorem eq_or_reverse_of_perm {β : Type} {l order : List β} (two : l.length = 2)
    (perm : order.Perm l) : order = l ∨ order = l.reverse := by
  obtain ⟨a, b, rfl⟩ := List.length_eq_two.mp two
  have listed := List.mem_permutations.mpr perm
  simpa [List.permutations, List.permutationsAux, List.permutationsAux.rec,
    List.permutationsAux2] using listed

/-- Two batches on one key, each of which looks before the other is written. -/
def crossedRun : List (CrowdEvent WriteCall) :=
  [.start (storeAbsent [1] [10]), .start (storeAbsent [1] [20])] ++ advances 100 0 1 ++
    advances 100 1 1 ++ advances 100 0 2 ++ advances 100 1 2

theorem both_batches_apply :
    (run singleShard.stepWrites ⟨newShard, []⟩ crossedRun).calls.map (fun s => s.rest.outcome) =
        [some (.ok (.applied true)), some (.ok (.applied true))] ∧
      ¬ (run singleShard.stepWrites ⟨newShard, []⟩ crossedRun).Serial submit singleShard.perform
        newShard := by
  refine ⟨by decide +kernel, ?_⟩
  rintro ⟨order, perm, results, -⟩
  -- neither order gives both batches their result
  rcases eq_or_reverse_of_perm (by decide +kernel) perm with rfl | rfl
  · exact absurd results (by decide +kernel)
  · exact absurd results (by decide +kernel)

end Examples

end Vash.Node
