import Vash.Library.Call
import Vash.Node.Shards
import Vash.Store.Read

/-!
# The sharded store

The calls of `VashStore`, written as the steps they take on the shards: a look at
the published state of one shard, or one job handed to its writer and waited for.
Nothing holds the shards together between two steps.

A job is committed in a batch of its own on an engine that fails nothing, and a
queue always takes the job; how a batch of several jobs, an engine fault or a
maintenance pass behaves is the subject of the modules on one shard.
-/

namespace Vash.Node

open Library Store

/-- What the calls of a store are made with: the hash that routes, the sort that
groups, and the limit on the tags of one record. -/
structure VashStore (n : Nat) where
  hash : Bytes → Nat
  sort : ShardSort n
  maxTagsPerRecord : Nat

/-- A call on the shards of a store. -/
abbrev NodeCall (n : Nat) := Call (Fin n) Shard WriteOp Reply StoreError

/-- `mismatched_reply`. -/
def mismatchedReply : StoreError := .corrupt "writer returned the wrong reply"

/-- A job alone in its batch. -/
def submit (clock : Nat → Nat) (op : WriteOp) (sh : Shard) : Reply × Shard :=
  let (_, replies, sh') := commitBatch sh ⟨[⟨op, clock⟩], none, []⟩
  (replies.headD (.error mismatchedReply), sh')

section Writer

variable {n : Nat} {α : Type}

/-- A reply, as a caller takes it that expects one kind of outcome. -/
def answered (expected : WriteOutcome → Option α) : Reply → NodeCall n α
  | .error e => .fail e
  | .ok outcome =>
    match expected outcome with
    | some a => .done a
    | none => .fail mismatchedReply

/-- `Writer::submit`, and the outcome its caller expects. -/
def ask (shard : Fin n) (op : WriteOp) (expected : WriteOutcome → Option α) : NodeCall n α :=
  .submit shard op (answered expected)

def deleteManyOn (shard : Fin n) (keys : List Bytes) : NodeCall n (List Bool) :=
  ask shard (.delete keys) fun
    | .deleted hits => some hits
    | _ => none

def touchManyOn (shard : Fin n) (keys : List Bytes) (ttlSecs : Nat) : NodeCall n (List Bool) :=
  ask shard (.touch keys ttlSecs) fun
    | .touched hits => some hits
    | _ => none

def createTagsOn (shard : Fin n) (names : List (Bytes × Nat)) : NodeCall n Unit :=
  ask shard (.createTags names) fun _ => some ()

def mergeTagOn (shard : Fin n) (name : Bytes) (generation : Nat) : NodeCall n Nat :=
  ask shard (.mergeTag name generation) fun
    | .merged generation => some generation
    | _ => none

def deleteByTagOn (shard : Fin n) (name : Bytes) : NodeCall n (Option Nat) :=
  ask shard (.deleteByTag name) fun
    | .invalidated generation => some generation
    | _ => none

def flushOn (shard : Fin n) : NodeCall n Nat :=
  ask shard .flush fun
    | .flushed epoch => some epoch
    | _ => none

end Writer

/-- Results put back at the positions of their items. -/
def scatter {α : Type} (results : List α) (answers : List (Nat × α)) : List α :=
  answers.foldl (fun results answer => results.set answer.1 answer.2) results

namespace VashStore

variable {n : Nat} [NeZero n] (node : VashStore n)

/-! ### Reads -/

/-- `get`. -/
def get (key : Bytes) : NodeCall n (Option Value) :=
  .look (forKey node.hash key) fun sh now => .done (sh.get now key)

/-- `deadline`. -/
def deadline (key : Bytes) : NodeCall n (Option Nat) :=
  .look (forKey node.hash key) fun sh now => .done (sh.deadlines now [key]).head?.join

section ReadBatch

variable {α : Type} (read : Shard → Nat → List Bytes → List α)

/-- The loop of `read_batch` over the runs still to read. -/
def readRuns : List (Fin n × List (Placed n Bytes)) → List α → NodeCall n (List α)
  | [], results => .done results
  | (shard, run) :: rest, results =>
    .look shard fun sh now =>
      readRuns rest (scatter results
        ((run.map Placed.position).zip (read sh now (run.map Placed.item))))

/-- `read_batch`. -/
def readBatch (absent : α) (keys : List Bytes) : NodeCall n (List α) :=
  if n = 1 then .look 0 fun sh now => .done (read sh now keys)
  else readRuns read (group node.sort node.hash id keys) (keys.map fun _ => absent)

end ReadBatch

/-- `get_many`. -/
def getMany (keys : List Bytes) : NodeCall n (List (Option Value)) :=
  node.readBatch (fun sh now keys => keys.map (sh.get now)) none keys

/-- `deadlines`. -/
def deadlines (keys : List Bytes) : NodeCall n (List (Option Nat)) :=
  node.readBatch Shard.deadlines none keys

/-! ### Tags before records -/

/-- The loop of `node_generation` over the shards still to ask. -/
def nodeGeneration (name : Bytes) : List (Fin n) → Option Nat → NodeCall n (Option Nat)
  | [], highest => .done highest
  | shard :: rest, highest =>
    .look shard fun sh _ =>
      nodeGeneration name rest (max highest (sh.engine.registry.generationOf name))

/-- `check_tag_counts`. -/
def checkTagCounts (sets : List SetRequest) : Except CoreError Unit :=
  match sets.find? fun set => set.tags.length > node.maxTagsPerRecord with
  | some set => .error (.tooManyTags set.tags.length node.maxTagsPerRecord)
  | none => .ok ()

/-- The names one set is missing, each with the generation the node has for it. -/
def gatherNames : List Bytes → List (Bytes × Nat) → NodeCall n (List (Bytes × Nat))
  | [], missing => .done missing
  | name :: rest, missing =>
    if missing.any fun known => known.1 = name then gatherNames rest missing
    else do
      let generation ← nodeGeneration name (List.finRange n) none
      gatherNames rest (missing ++ [(name, generation.getD 0)])

/-- The names the sets of one run are missing in the shard that owns them. -/
def gatherSets : List SetRequest → Option (Fin n) → List (Bytes × Nat) →
    NodeCall n (Option (Fin n) × List (Bytes × Nat))
  | [], shard, missing => .done (shard, missing)
  | set :: rest, shard, missing =>
    if set.tags.isEmpty then gatherSets rest shard missing
    else
      let owner := forKey node.hash set.key
      .look owner fun sh _ => do
        let missing ← gatherNames (sh.engine.registry.missing set.tags) missing
        gatherSets rest (some owner) missing

/-- Register what one run is missing. -/
def registerRun (run : List (Placed n SetRequest)) : NodeCall n Unit := do
  let gathered ← node.gatherSets (run.map Placed.item) none []
  match gathered with
  | (some shard, name :: names) => createTagsOn shard (name :: names)
  | _ => return

def registerRuns : List (Fin n × List (Placed n SetRequest)) → NodeCall n Unit
  | [] => .done ()
  | run :: rest => do
    node.registerRun run.2
    registerRuns rest

/-- `ensure_tags_registered`. -/
def ensureTagsRegistered (sets : List SetRequest) : NodeCall n Unit :=
  match node.checkTagCounts sets with
  | .error e => .fail (.core e)
  | .ok () =>
    if sets.all fun set => set.tags.isEmpty then .done ()
    else node.registerRuns (group node.sort node.hash SetRequest.key sets)

/-! ### Writes -/

/-- Resolve the tags of a set and prepare it. -/
def prepareOn (sh : Shard) (now : Nat) (set : SetRequest) : Except StoreError PreparedSet :=
  match sh.engine.registry.resolve set.tags with
  | .error name =>
    .error (.corrupt ("tag " ++ toString name ++ " vanished between registration and use"))
  | .ok tags => prepareSet sh.engine now set tags

/-- Prepare the sets of one run. -/
def prepareRun (shard : Fin n) : List SetRequest → List PreparedSet → NodeCall n (List PreparedSet)
  | [], prepared => .done prepared
  | set :: rest, prepared =>
    .look shard fun sh now =>
      match prepareOn sh now set with
      | .error e => .fail e
      | .ok next => prepareRun shard rest (prepared ++ [next])

/-- The loop of `submit_set_many`: every shard is given its run, and the replies are
kept for the end. -/
def sendRuns : List (Fin n × List (Placed n SetRequest)) → List (List Nat × Reply) →
    NodeCall n (List (List Nat × Reply))
  | [], pending => .done pending
  | (shard, run) :: rest, pending => do
    let prepared ← prepareRun shard (run.map Placed.item) []
    .submit shard (.set prepared) fun reply =>
      sendRuns rest (pending ++ [(run.map Placed.position, reply)])

/-- `PendingSetMany::wait_blocking`. -/
def waitBlocking : List (List Nat × Reply) → List Nat → NodeCall n (List Nat)
  | [], results => .done results
  | (positions, reply) :: rest, results =>
    match reply with
    | .ok (.cas tokens) => waitBlocking rest (scatter results (positions.zip tokens))
    | .ok _ => .fail mismatchedReply
    | .error e => .fail e

/-- `set_many`. -/
def setMany (sets : List SetRequest) : NodeCall n (List Nat) := do
  node.ensureTagsRegistered sets
  let pending ← sendRuns (group node.sort node.hash SetRequest.key sets) []
  waitBlocking pending (sets.map fun _ => 0)

/-- `set`. -/
def set (set : SetRequest) : NodeCall n Nat := do
  let cas ← node.setMany [set]
  match cas.getLast? with
  | some token => return token
  | none => .fail (.corrupt "writer dropped a set result")

/-- `store`. -/
def store (set : SetRequest) : NodeCall n Written := do
  node.ensureTagsRegistered [set]
  let shard := forKey node.hash set.key
  .look shard fun sh now =>
    match prepareOn sh now set with
    | .error e => .fail e
    | .ok prepared =>
      ask shard (.conditionalSet prepared set.mode) fun
        | .written written => some written
        | _ => none

/-- The guard of `set_many_if` on what `deadlines` found. -/
def guardApplies : BatchGuard → List (Option Nat) → Bool
  | .always, _ => true
  | .ifAllAbsent, present => present.all Option.isNone
  | .ifAllPresent, present => present.all Option.isSome

/-- `set_many_if`. -/
def setManyIf (sets : List SetRequest) (guard : BatchGuard) : NodeCall n Bool :=
  if guard = .always then do
    let _ ← node.setMany sets
    return true
  else do
    let present ← node.deadlines (sets.map SetRequest.key)
    if guardApplies guard present then do
      let _ ← node.setMany sets
      return true
    else return false

/-- `expire`. -/
def expire (key : Bytes) (ttl : TtlChange) (guard : ExpireGuard) : NodeCall n Bool :=
  ask (forKey node.hash key) (.expire key ttl guard) fun
    | .applied applied => some applied
    | _ => none

/-- `arithmetic`. -/
def arithmetic (op : Arithmetic) : NodeCall n (Option Applied) :=
  ask (forKey node.hash op.key) (.arithmetic op) fun
    | .arithmetic applied => some applied
    | _ => none

/-- `append`. -/
def append (key suffix : Bytes) : NodeCall n Nat :=
  ask (forKey node.hash key) (.append key suffix) fun
    | .length len => some len
    | _ => none

/-- `touch`. -/
def touch (key : Bytes) (ttlSecs : Nat) : NodeCall n Bool := do
  let hits ← touchManyOn (forKey node.hash key) [key] ttlSecs
  return hits.head?.getD false

def touchRuns (ttlSecs : Nat) : List (Fin n × List (Placed n Bytes)) → NodeCall n Unit
  | [] => .done ()
  | (shard, run) :: rest => do
    let _ ← touchManyOn shard (run.map Placed.item) ttlSecs
    touchRuns ttlSecs rest

/-- `get_and_touch`. -/
def getAndTouch (keys : List Bytes) (ttlSecs : Nat) : NodeCall n (List (Option Value)) := do
  let values ← node.getMany keys
  let live := ((keys.zip values).filter fun pair => pair.2.isSome).map Prod.fst
  if live.isEmpty then return values
  else do
    touchRuns ttlSecs (group node.sort node.hash id live)
    return values

/-- `delete`. -/
def delete (key : Bytes) : NodeCall n Bool := do
  let hits ← deleteManyOn (forKey node.hash key) [key]
  return hits.head?.getD false

def deleteRuns : List (Fin n × List (Placed n Bytes)) → List Bool → NodeCall n (List Bool)
  | [], results => .done results
  | (shard, run) :: rest, results => do
    let hits ← deleteManyOn shard (run.map Placed.item)
    deleteRuns rest (scatter results ((run.map Placed.position).zip hits))

/-- `delete_many`. -/
def deleteMany (keys : List Bytes) : NodeCall n (List Bool) :=
  deleteRuns (group node.sort node.hash id keys) (keys.map fun _ => false)

/-! ### Invalidations -/

/-- The first loop of `delete_by_tag`: every shard bumps the generation it has. -/
def bumpShards (tag : Bytes) : List (Fin n) → Option Nat → NodeCall n (Option Nat)
  | [], highest => .done highest
  | shard :: rest, highest => do
    let bumped ← deleteByTagOn shard tag
    bumpShards tag rest (max highest bumped)

/-- The second loop of `delete_by_tag`: a shard left behind is levelled up. -/
def levelShards (tag : Bytes) (generation : Nat) : List (Fin n) → NodeCall n Unit
  | [] => .done ()
  | shard :: rest =>
    .look shard fun sh _ =>
      match sh.engine.registry.generationOf tag with
      | some current =>
        if current < generation then do
          let _ ← mergeTagOn shard tag generation
          levelShards tag generation rest
        else levelShards tag generation rest
      | none => levelShards tag generation rest

/-- What `delete_by_tag` does with the highest generation it has raised a shard to. -/
def levelTo (tag : Bytes) : Option Nat → NodeCall n (Option Nat)
  | none => .done none
  | some generation => do
    levelShards tag generation (List.finRange n)
    return some generation

/-- `delete_by_tag`. -/
def deleteByTag (tag : Bytes) : NodeCall n (Option Nat) := do
  let highest ← bumpShards tag (List.finRange n) none
  levelTo tag highest

/-- The loop of `merge_tag_generation`, and what follows it if no shard has the
name. -/
def mergeShards (tag : Bytes) (generation : Nat) :
    List (Fin n) → (effective holders : Nat) → NodeCall n Nat
  | [], effective, holders =>
    if holders = 0 then do
      let merged ← mergeTagOn (forKey node.hash tag) tag generation
      return max effective merged
    else .done effective
  | shard :: rest, effective, holders =>
    .look shard fun sh _ =>
      match sh.engine.registry.generationOf tag with
      | none => mergeShards tag generation rest effective holders
      | some current =>
        if current ≥ generation then
          mergeShards tag generation rest (max effective current) (holders + 1)
        else do
          let merged ← mergeTagOn shard tag generation
          mergeShards tag generation rest (max effective merged) (holders + 1)

/-- `merge_tag_generation`. -/
def mergeTagGeneration (tag : Bytes) (generation : Nat) : NodeCall n Nat :=
  node.mergeShards tag generation (List.finRange n) generation 0

/-- The loop of `flush`. -/
def flushShards : List (Fin n) → Nat → NodeCall n Nat
  | [], epoch => .done epoch
  | shard :: rest, epoch => do
    let flushed ← flushOn shard
    flushShards rest (max epoch flushed)

/-- `flush`. -/
def flush : NodeCall n Nat := flushShards (List.finRange n) 0

end VashStore

end Vash.Node
