/-
# The tag registry

Names, dense ids and generations: the RAM maps every read consults, and the
`tags` rows behind them. A record's reference to a tag is an id with the
generation the name had when the reference was resolved, so an invalidation is
one generation bump, made durable first and published to RAM after its commit.
-/

import Vash.Store.Engine

namespace Vash.Store

open Library

/-! ### The maps in RAM -/

namespace Registry

/-- `TagRegistry::new`. -/
def empty : Registry := ⟨∅, ∅⟩

/-- `TagLookup::generation`: the generation reads compare a reference with. -/
def generation (r : Registry) (id : Nat) : Option Nat := (r.byId.get id).map TagEntry.generation

/-- `generation_of`: the generation of a name. -/
def generationOf (r : Registry) (name : Bytes) : Option Nat :=
  (r.byName.get name).map TagEntry.generation

/-- `resolve`: the references a record stores for the given names, or the first
name that is not registered. -/
def resolve (r : Registry) : List Bytes → Except Bytes (List TagRef)
  | [] => .ok []
  | name :: names =>
    match r.byName.get name with
    | none => .error name
    | some entry => do
      let refs ← r.resolve names
      return ⟨entry.id, entry.generation⟩ :: refs

/-- `missing`: the unregistered names among the given ones, without repeats. -/
def missing (r : Registry) (names : List Bytes) : List Bytes :=
  names.foldl
    (fun found name =>
      if (r.byName.get name).isNone ∧ name ∉ found then found ++ [name] else found) []

/-- `insert`: publish a created tag. Both maps get the same entry. -/
def insert (r : Registry) (name : Bytes) (id generation : Nat) : Registry :=
  ⟨r.byName.put name ⟨id, name, generation⟩, r.byId.put id ⟨id, name, generation⟩⟩

/-- `merge_generation`: publish a bump through the entry `id` leads to, which the
name map shares when it leads back to `id`. -/
def mergeGeneration (r : Registry) (id generation : Nat) : Registry :=
  match r.byId.get id with
  | none => r
  | some entry =>
    let raised := { entry with generation := max entry.generation generation }
    { byId := r.byId.put id raised
      byName :=
        match r.byName.get entry.name with
        | some named => if named.id = id then r.byName.put entry.name raised else r.byName
        | none => r.byName }

/-- `load_from`: rebuild from the rows of `tags`. -/
def loadFrom (rows : List (Bytes × TagRow)) : Registry :=
  rows.foldl (fun r row => r.insert row.1 row.2.id row.2.generation) empty

/-- The id `load_from` resumes from: past the highest loaded one, or zero. -/
def resumeId (rows : List (Bytes × TagRow)) : Nat :=
  if rows = [] then 0
  else wrappingAdd32 (rows.foldl (fun highest row => max highest row.2.id) 0) 1

end Registry

/-- One effect published to RAM after its commit. -/
def Engine.publishEffect (eng : Engine) : PostCommit → Engine
  | .tagCreated name id generation =>
    { eng with registry := eng.registry.insert name id generation }
  | .tagGeneration id generation =>
    { eng with registry := eng.registry.mergeGeneration id generation }
  | .epoch epoch => { eng with epoch }

/-- The registry takes no further names. -/
def Engine.TagsFull (eng : Engine) : Prop := eng.config.maxTags ≤ eng.registry.byName.size

/-! ### The rows behind them -/

/-- What a max-merge of a generation did. -/
inductive TagMerge where
  | created (id generation : Nat)
  | raised (id generation : Nat)
  | unchanged (id generation : Nat)
  deriving DecidableEq, Repr

def TagMerge.generation : TagMerge → Nat
  | .created _ g => g
  | .raised _ g => g
  | .unchanged _ g => g

def TagMerge.id : TagMerge → Nat
  | .created i _ => i
  | .raised i _ => i
  | .unchanged i _ => i

/-- `validate_tag_name`. -/
def validateTagName (name : Bytes) : TxnM Unit :=
  if name.length = 0 ∨ name.length > maxTagLen then
    throw (.core (.tagTooLong name.length maxTagLen))
  else pure ()

variable (eng : Engine)

/-- `allocate_id`: refused when RAM holds as many names as the limit allows. The
counter is an `AtomicU32`. -/
def allocateId : TxnM Nat := do
  if eng.registry.byName.size ≥ eng.config.maxTags then
    throw (.tagLimit eng.config.maxTags)
  else
    let s ← get
    set { s with counters := { s.counters with nextId := wrappingAdd32 s.counters.nextId 1 } }
    return s.counters.nextId

/-- `apply_create_tag`: the row of a name, created at `startGeneration` if there
is none. -/
def applyCreateTag (name : Bytes) (startGeneration : Nat) : TxnM TagRow := do
  validateTagName name
  match ← query fun t => t.tags.get name with
  | some existing => return existing
  | none =>
    let id ← allocateId eng
    update fun t => { t with tags := t.tags.put name ⟨id, startGeneration⟩ }
    return ⟨id, startGeneration⟩

/-- `apply_merge_tag`: raise a generation to at least `generation`, queueing the
reclamation of what that invalidates. -/
def applyMergeTag (name : Bytes) (generation : Nat) : TxnM TagMerge := do
  validateTagName name
  match ← query fun t => t.tags.get name with
  | none =>
    let row ← applyCreateTag eng name generation
    return .created row.id row.generation
  | some existing =>
    if generation ≤ existing.generation then
      return .unchanged existing.id existing.generation
    else
      update fun t => { t with tags := t.tags.put name ⟨existing.id, generation⟩ }
      update fun t => { t with jobs := t.jobs.put existing.id (.new generation) }
      return .raised existing.id generation

/-- `apply_delete_by_tag`: bump the durable generation by one, unless it has
saturated. -/
def applyDeleteByTag (name : Bytes) : TxnM (Option TagRow) := do
  match ← query fun t => t.tags.get name with
  | none => return none
  | some existing =>
    let next := saturatingAdd64 existing.generation 1
    if next = existing.generation then return some existing
    else
      let merged ← applyMergeTag eng name next
      return some ⟨merged.id, merged.generation⟩

end Vash.Store
