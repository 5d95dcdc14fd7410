import Vash.Library.Granted
import Vash.Core.Request
import Vash.Node.Levels

/-!
# Invalidations across a cluster

Nodes share nothing but the generations of their tags. `DELETE_BY_TAG` raises the
generation a node has for a tag by one and tells the peers the number it came to; a
peer keeps the higher of that and its own. Gossip rounds compare whole tables of
generations in the same way.

The state of a cluster is the stores of its nodes and the messages under way, which
may be delivered in any order.

* `invalidation_reaches_peer` — once the message of an invalidation has been
  delivered, the peer serves no record written under the tag before, if its own
  generation was below the one the message carries.
* `lagging_invalidation_is_lost` — a node that lags behind its peer tells it a
  generation the peer has already: nothing changes there, gossip included.
-/

namespace Vash.Server

open Library Store Node

/-- `ClusterMode`. -/
inductive ClusterMode where
  | localOnly
  | fanout
  | fanoutSync
  deriving DecidableEq, Repr

/-- `fans_out`. -/
def ClusterMode.fansOut : ClusterMode → Bool
  | .localOnly => false
  | _ => true

/-- The order in which a hash map is walked. -/
structure MapOrder where
  walk : List (Bytes × Nat) → List (Bytes × Nat)
  perm : ∀ entries, (walk entries).Perm entries

/-- A node of a cluster. -/
structure Member where
  shards : Nat
  positive : NeZero shards
  store : VashStore shards
  mode : ClusterMode
  order : MapOrder

instance (member : Member) : NeZero member.shards := member.positive

/-! ### What a node does -/

namespace Member

variable (member : Member)

/-- One shard's snapshot, merged into the generations of the shards before it. -/
def mergeSnapshot (merged : Table Bytes Nat) (registry : Registry) : Table Bytes Nat :=
  registry.byName.rows.foldl (fun merged row =>
    merged.put row.1 (max ((merged.get row.1).getD row.2.generation) row.2.generation)) merged

/-- The loop of `tag_generations` over the shards still to read. -/
def gatherGenerations : List (Fin member.shards) → Table Bytes Nat →
    NodeCall member.shards (Table Bytes Nat)
  | [], merged => .done merged
  | shard :: rest, merged =>
    .look shard fun sh _ => gatherGenerations rest (mergeSnapshot merged sh.engine.registry)

/-- `tag_generations`. -/
def tagGenerations : NodeCall member.shards (List (Bytes × Nat)) := do
  let merged ← member.gatherGenerations (List.finRange member.shards) ∅
  return member.order.walk merged.rows

/-- `apply_merges`: an entry that cannot be merged is left out. -/
def applyMerges : List (Bytes × Nat) → (applied : Nat) → NodeCall member.shards Nat
  | [], applied => .done applied
  | (name, generation) :: rest, applied =>
    if generation = 0 then applyMerges rest applied
    else do
      let merged ← (member.store.mergeTagGeneration name generation).attempt
      applyMerges rest (if merged.isOk then applied + 1 else applied)

/-- The entries a peer that offered `entries` is behind on. -/
def behind (known : List (Bytes × Nat)) (full : Bool) (entries : List (Bytes × Nat)) :
    List (Bytes × Nat) :=
  let lower := entries.filterMap fun entry =>
    (known.lookup entry.1).bind fun mine =>
      if mine > entry.2 then some (entry.1, mine) else none
  let unnamed := if full then known.filter fun entry =>
      entry.2 > 0 && !(entries.map Prod.fst).contains entry.1
    else []
  (lower ++ unnamed).take maxTagSyncEntries

/-- `tag_sync`: what the peer is behind on, once what it offered has been merged. -/
def tagSync (full : Bool) (entries : List (Bytes × Nat)) :
    NodeCall member.shards (List (Bytes × Nat)) := do
  let known ← member.tagGenerations
  let _ ← member.applyMerges entries 0
  return behind known full entries

/-- `build_digest`: the whole table, or a window that moves on from round to round. -/
def buildDigest (round : Nat) : NodeCall member.shards (Bool × List (Bytes × Nat)) := do
  let known ← member.tagGenerations
  let all := known.filter fun entry => entry.2 > 0
  if all.length ≤ maxTagSyncEntries then return (true, all)
  else
    let sorted := all.mergeSort fun a b => a.1 ≤ b.1
    let start := round * maxTagSyncEntries % all.length
    return (false, ((sorted ++ sorted).drop start).take maxTagSyncEntries)

end Member

/-! ### The cluster -/

/-- A `TAG_SYNC` request, or its reply. -/
inductive Message (m : Nat) where
  | request (source target : Fin m) (full : Bool) (entries : List (Bytes × Nat))
  | reply (source target : Fin m) (learned : List (Bytes × Nat))
  deriving DecidableEq

/-- The stores of the nodes, and the messages under way. -/
structure Cluster {m : Nat} (members : Fin m → Member) where
  stores : ∀ i, Fin (members i).shards → Shard
  messages : List (Message m)

/-- A write or an invalidation at a node, a gossip round of a node with a peer, or the
delivery of a message. -/
inductive ClusterEvent (m : Nat) where
  | write (node : Fin m) (sets : List SetRequest)
  | deleteByTag (node : Fin m) (tag : Bytes)
  | gossip (node peer : Fin m) (round : Nat)
  | deliver (index : Nat)

namespace Cluster

variable {m : Nat} {members : Fin m → Member}

/-- A cluster of stores just opened. -/
def fresh (configs : ∀ i, Fin (members i).shards → Config) : Cluster members :=
  ⟨fun i j => .create (configs i j), []⟩

variable (members) in
/-- `Cluster::invalidate`: the messages for the peers of a node. -/
def invalidate (node : Fin m) (tag : Bytes) (generation : Nat) : List (Message m) :=
  if (members node).mode.fansOut then
    ((List.finRange m).filter fun peer => peer ≠ node).map fun peer =>
      .request node peer false [(tag, generation)]
  else []

/-- What an event has a node do; the call ends with the messages it sends. -/
def act (c : Cluster members) :
    ClusterEvent m → Option ((i : Fin m) × NodeCall (members i).shards (List (Message m)))
  | .write node sets => some ⟨node, do
      let _ ← (members node).store.setMany sets
      return []⟩
  | .deleteByTag node tag => some ⟨node, do
      match ← VashStore.deleteByTag tag with
      | some generation => return invalidate members node tag generation
      | none => return []⟩
  | .gossip node peer round => some ⟨node, do
      let digest ← (members node).buildDigest round
      return [.request node peer digest.1 digest.2]⟩
  | .deliver index =>
    match c.messages[index]? with
    | none => none
    | some (.request source target full entries) => some ⟨target, do
        let learned ← (members target).tagSync full entries
        return [.reply target source learned]⟩
    | some (.reply _ target learned) => some ⟨target, do
        let _ ← (members target).applyMerges learned 0
        return []⟩

/-- The messages an event leaves under way. -/
def left (c : Cluster members) : ClusterEvent m → List (Message m)
  | .deliver index => c.messages.eraseIdx index
  | _ => c.messages

/-- One event, under the clock readings the steps of its call have. -/
def step (c : Cluster members) (event : ClusterEvent m × (Nat → Nat → Nat)) : Cluster members :=
  match c.act event.1 with
  | none => c
  | some ⟨i, call⟩ =>
    let ended := call.run submit event.2 (c.stores i)
    ⟨Function.update c.stores i ended.2, c.left event.1 ++ ended.1.toOption.getD []⟩

/-- The ids left on a shard suffice for a job. -/
def IdsFor (sh : Shard) (op : WriteOp) : Prop := sh.counters.nextId + op.tagCount < 2 ^ 32

instance (sh : Shard) (op : WriteOp) : Decidable (IdsFor sh op) :=
  inferInstanceAs (Decidable (_ < _))

/-- No job of the event meets a shard whose ids have run out. -/
def IdsLeft (c : Cluster members) (event : ClusterEvent m × (Nat → Nat → Nat)) : Prop :=
  ∀ act ∈ c.act event.1, act.2.Granted submit IdsFor event.2 (c.stores act.1)

end Cluster

/-! ### What the calls of a node keep -/

/-- Rows and registries are together, and every row there was is there still. -/
structure RowsKept {n : Nat} (parties parties' : Fin n → Shard) : Prop where
  tags : ∀ j, (parties' j).TagsOk
  names : ∀ j, NamesValid (parties' j)
  grows : ∀ j, Grows (parties j).tables.tags (parties' j).tables.tags

section Kept

variable {n : Nat} {parties parties' parties'' : Fin n → Shard}

theorem RowsKept.trans (first : RowsKept parties parties') (next : RowsKept parties' parties'') :
    RowsKept parties parties'' :=
  ⟨next.tags, next.names, fun j => (first.grows j).trans (next.grows j)⟩

theorem RowsKept.again (kept : RowsKept parties parties') : RowsKept parties' parties' :=
  ⟨kept.tags, kept.names, fun _ => .refl _⟩

theorem RowsKept.submit (kept : RowsKept parties parties') {i : Fin n} {op : WriteOp}
    (tagging : Tagging op) (ids : Cluster.IdsFor (parties' i) op) (clock : Nat → Nat) :
    RowsKept parties (Function.update parties' i (Node.submit clock op (parties' i)).2) := by
  refine ⟨?_, ?_, ?_⟩ <;> intro j <;> by_cases here : j = i
  · subst here
    simpa using submit_tagsKept (kept.tags j) ids
  · simpa [here] using kept.tags j
  · subst here
    simpa using submit_names tagging (kept.names j)
  · simpa [here] using kept.names j
  · subst here
    simpa using (kept.grows j).trans (submit_grows (kept.tags j) ids)
  · simpa [here] using kept.grows j

/-- The calls of a node keep its rows. -/
theorem RowsKept.leads {α : Type} {call : NodeCall n α} (tagging : call.Only Tagging)
    (kept : RowsKept parties parties') :
    call.Leads Node.submit Cluster.IdsFor (RowsKept parties) parties' :=
  tagging.leads (fun _ _ _ clock job ids held => held.submit job ids clock) kept

/-- A row that has reached a generation stays there. -/
theorem RowsKept.reached (kept : RowsKept parties parties') {j : Fin n} {tag : Bytes}
    {generation : Nat}
    (reached : ∃ held, rowGeneration (parties j) tag = some held ∧ generation ≤ held) :
    ∃ held, rowGeneration (parties' j) tag = some held ∧ generation ≤ held := by
  obtain ⟨held, found, above⟩ := reached
  obtain ⟨row, present, rfl⟩ := rowGeneration_eq_some found
  obtain ⟨row', present', -, later⟩ := kept.grows j tag row present
  exact ⟨row'.generation, by rw [rowGeneration, present']; rfl, above.trans later⟩

theorem RowsKept.known (kept : RowsKept parties parties') {j : Fin n} {tag : Bytes}
    (known : rowGeneration (parties j) tag ≠ none) : rowGeneration (parties' j) tag ≠ none := by
  obtain ⟨held, found⟩ := Option.ne_none_iff_exists'.mp known
  obtain ⟨held', found', -⟩ := kept.reached ⟨held, found, Nat.zero_le held⟩
  rw [found']
  exact Option.some_ne_none _

/-- The merge of a generation raises every shard that has the name. -/
theorem mergeShards_raises [NeZero n] (node : VashStore n) (tag : Bytes) (generation : Nat)
    (shards : List (Fin n)) (effective holders : Nat) (sound : RowsKept parties parties) :
    (node.mergeShards tag generation shards effective holders).Leads Node.submit Cluster.IdsFor
      (fun parties' => RowsKept parties parties' ∧ ∀ j ∈ shards,
        rowGeneration (parties j) tag ≠ none →
          ∃ held, rowGeneration (parties' j) tag = some held ∧ generation ≤ held) parties := by
  induction shards generalizing parties effective holders with
  | nil =>
    refine (RowsKept.leads ?_ sound).mono fun parties' kept => ⟨kept, by simp⟩
    unfold VashStore.mergeShards
    split
    · exact (ask_only trivial).bind fun _ => trivial
    · trivial
  | cons shard rest ih =>
    intro now
    dsimp only
    rw [generationOf_eq (sound.tags shard)]
    cases found : rowGeneration (parties shard) tag with
    | none =>
      refine (ih effective holders sound).mono ?_
      rintro parties' ⟨kept, raised⟩
      refine ⟨kept, fun j mem known => ?_⟩
      rcases List.mem_cons.mp mem with rfl | mem
      · exact absurd found known
      · exact raised j mem known
    | some current =>
      dsimp only
      split
      · rename_i above
        refine (ih _ _ sound).mono ?_
        rintro parties' ⟨kept, raised⟩
        refine ⟨kept, fun j mem known => ?_⟩
        rcases List.mem_cons.mp mem with rfl | mem
        · exact kept.reached ⟨current, found, above⟩
        · exact raised j mem known
      · intro ids clock
        have merging : Tagging (.mergeTag tag generation) := trivial
        obtain ⟨answer, rows⟩ := submit_mergeTag clock (sound.names shard) found generation
        have kept := sound.submit merging ids clock
        have here : ∃ held, rowGeneration (Function.update parties shard
            (Node.submit clock (.mergeTag tag generation) (parties shard)).2 shard) tag =
              some held ∧ generation ≤ held := by
          rw [Function.update_self, rows, Function.update_self]
          exact ⟨_, rfl, le_max_right _ _⟩
        rw [answer]
        refine Call.Leads.mono (ih _ _ kept.again) ?_
        rintro parties' ⟨later, raised⟩
        refine ⟨kept.trans later, fun j mem known => ?_⟩
        rcases List.mem_cons.mp mem with rfl | mem
        · exact later.reached here
        · exact raised j mem (kept.known known)

end Kept

section Calls

variable (member : Member)

theorem tagGenerations_only {p : WriteOp → Prop} : member.tagGenerations.Only p := by
  have gathers : ∀ (shards : List (Fin member.shards)) (merged : Table Bytes Nat),
      (member.gatherGenerations shards merged).Only p := by
    intro shards
    induction shards with
    | nil => exact fun _ => trivial
    | cons shard rest ih => exact fun _ _ _ => ih _
  exact (gathers _ _).bind fun _ => trivial

theorem applyMerges_tagging (entries : List (Bytes × Nat)) (applied : Nat) :
    (member.applyMerges entries applied).Only Tagging := by
  induction entries generalizing applied with
  | nil => trivial
  | cons entry rest ih =>
    unfold Member.applyMerges
    split
    · exact ih _
    · exact (mergeTagGeneration_only member.store (fun _ => trivial) _).attempt.bind fun _ => ih _

theorem tagSync_tagging (full : Bool) (entries : List (Bytes × Nat)) :
    (member.tagSync full entries).Only Tagging :=
  (tagGenerations_only member).bind fun _ =>
    (applyMerges_tagging member entries 0).bind fun _ => trivial

theorem buildDigest_only {p : WriteOp → Prop} (round : Nat) :
    (member.buildDigest round).Only p := by
  refine (tagGenerations_only member).bind fun known => ?_
  dsimp only
  split <;> trivial

/-- Reading the generations changes nothing and does not fail. -/
theorem tagGenerations_leads {α : Type} {next : List (Bytes × Nat) → NodeCall member.shards α}
    {ready : Shard → WriteOp → Prop} {post : (Fin member.shards → Shard) → Prop}
    {parties : Fin member.shards → Shard}
    (later : ∀ known, (next known).Leads Node.submit ready post parties) :
    (member.tagGenerations >>= next).Leads Node.submit ready post parties := by
  unfold Member.tagGenerations
  rw [bind_assoc]
  generalize (∅ : Table Bytes Nat) = merged
  induction List.finRange member.shards generalizing merged with
  | nil => exact later _
  | cons shard rest ih => exact fun now => ih _

/-- A request with one entry raises every shard that has the name. -/
theorem tagSync_raises {parties : Fin member.shards → Shard} (sound : RowsKept parties parties)
    (full : Bool) {tag : Bytes} {generation : Nat} (positive : 0 < generation) :
    (member.tagSync full [(tag, generation)]).Leads Node.submit Cluster.IdsFor
      (fun parties' => ∀ j, rowGeneration (parties j) tag ≠ none →
        ∃ held, rowGeneration (parties' j) tag = some held ∧ generation ≤ held) parties := by
  refine tagGenerations_leads member fun known => ?_
  have raises := mergeShards_raises member.store tag generation (List.finRange member.shards)
    generation 0 sound
  unfold Member.applyMerges
  rw [if_neg positive.ne', bind_assoc]
  exact (raises.mono fun parties' raised j => raised.2 j (List.mem_finRange j)).attempt_bind
    fun _ _ raised => raised

end Calls

namespace Cluster

variable {m : Nat} {members : Fin m → Member}

theorem act_tagging {c : Cluster members} {event : ClusterEvent m}
    {action : (i : Fin m) × NodeCall (members i).shards (List (Message m))}
    (acts : c.act event = some action) : action.2.Only Tagging := by
  cases event with
  | write node sets =>
    cases acts
    exact (setMany_only (fun _ => trivial) (fun _ => trivial) _ sets).bind fun _ => trivial
  | deleteByTag node tag =>
    cases acts
    refine (deleteByTag_only (fun _ => trivial) trivial).bind fun highest => ?_
    cases highest <;> trivial
  | gossip node peer round =>
    cases acts
    exact (buildDigest_only _ round).bind fun _ => trivial
  | deliver index =>
    unfold act at acts
    dsimp only at acts
    split at acts
    · cases acts
    · cases acts
      exact (tagSync_tagging _ _ _).bind fun _ => trivial
    · cases acts
      exact (applyMerges_tagging _ _ _).bind fun _ => trivial

/-- The rows of every node are kept. -/
def Kept (c c' : Cluster members) : Prop := ∀ i, RowsKept (c.stores i) (c'.stores i)

theorem Kept.step {c c' : Cluster members} (kept : Kept c c')
    {event : ClusterEvent m × (Nat → Nat → Nat)} (left : c'.IdsLeft event) :
    Kept c (c'.step event) := by
  unfold Cluster.step
  cases acts : c'.act event.1 with
  | none => exact kept
  | some action =>
    intro i
    by_cases here : i = action.1
    · subst here
      simp only [Function.update_self]
      exact (RowsKept.leads (act_tagging acts) (kept action.1)).run (left action acts)
    · simp only [Function.update_of_ne here]
      exact kept i

theorem kept_run {c : Cluster members} (sound : Kept c c)
    {events : List (ClusterEvent m × (Nat → Nat → Nat))} (left : Along step IdsLeft c events) :
    Kept c (run step c events) :=
  run_invariant (fun _ _ kept left => kept.step left) sound left

theorem kept_fresh (configs : ∀ i, Fin (members i).shards → Config) :
    Kept (fresh configs) (fresh configs) := by
  intro i
  refine ⟨fun j => .create _, fun j name found => ?_, fun j => .refl _⟩
  exact absurd rfl found

theorem Kept.again {c c' : Cluster members} (kept : Kept c c') : Kept c' c' :=
  fun i => (kept i).again

/-! ### Invalidations -/

/-- The message of an invalidation is under way to the peer, or the shards of the peer
that are to hear of it have reached its generation. -/
def Reaches (source target : Fin m) (tag : Bytes) (generation : Nat)
    (hears : Fin (members target).shards → Prop) (c : Cluster members) : Prop :=
  .request source target false [(tag, generation)] ∈ c.messages ∨
    ∀ j, hears j → ∃ held, rowGeneration (c.stores target j) tag = some held ∧ generation ≤ held

/-- The delivery of the message raises the peer; nothing else takes the message away,
and nothing takes a generation back. -/
theorem Reaches.step {source target : Fin m} {tag : Bytes} {generation : Nat}
    {hears : Fin (members target).shards → Prop} {c : Cluster members} (sound : Kept c c)
    (positive : 0 < generation)
    (known : ∀ j, hears j → rowGeneration (c.stores target j) tag ≠ none)
    {event : ClusterEvent m × (Nat → Nat → Nat)} (left : c.IdsLeft event)
    (reaches : Reaches source target tag generation hears c) :
    Reaches source target tag generation hears (c.step event) := by
  rcases reaches with underWay | reached
  · unfold Cluster.step
    cases acts : c.act event.1 with
    | none => exact .inl underWay
    | some action =>
      by_cases taken : ∃ index, event.1 = .deliver index ∧
          c.messages[index]? = some (.request source target false [(tag, generation)])
      · obtain ⟨index, delivers, here⟩ := taken
        rw [delivers, act, here] at acts
        obtain rfl := Option.some.inj acts
        have raises : ((members target).tagSync false [(tag, generation)] >>= fun learned =>
            pure [Message.reply target source learned]).Leads submit IdsFor
            (fun parties' => ∀ j, rowGeneration (c.stores target j) tag ≠ none →
              ∃ held, rowGeneration (parties' j) tag = some held ∧ generation ≤ held)
            (c.stores target) :=
          (tagSync_raises (members target) (sound target) false positive).bind
            (fun _ _ raised => raised) fun _ raised => raised
        have raised := raises.run (left _ (by rw [delivers, act, here]; rfl))
        refine .inr fun j hears' => ?_
        simp only [Function.update_self]
        exact raised j (known j hears')
      · refine .inl (List.mem_append_left _ ?_)
        cases event' : event.1 with
        | deliver index =>
          obtain ⟨k, found⟩ := List.getElem?_of_mem underWay
          refine List.mem_eraseIdx_iff_getElem?.mpr ⟨k, ?_, found⟩
          rintro rfl
          exact taken ⟨k, event', found⟩
        | write node sets => exact underWay
        | deleteByTag node name => exact underWay
        | gossip node peer round => exact underWay
  · exact .inr fun j hears' => (sound.step left target).reached (reached j hears')

/-- The state of a cluster after some events. -/
def after (configs : ∀ i, Fin (members i).shards → Config)
    (events : List (ClusterEvent m × (Nat → Nat → Nat))) : Cluster members :=
  run step (fresh configs) events

theorem reaches_run {source target : Fin m} {tag : Bytes} {generation : Nat}
    {c c' : Cluster members} (kept : Kept c c') (positive : 0 < generation)
    {events : List (ClusterEvent m × (Nat → Nat → Nat))} (left : Along step IdsLeft c' events)
    (reaches : Reaches source target tag generation
      (fun j => rowGeneration (c.stores target j) tag ≠ none) c') :
    Reaches source target tag generation
      (fun j => rowGeneration (c.stores target j) tag ≠ none) (run step c' events) := by
  have both := run_invariant (I := fun c' => Kept c c' ∧ Reaches source target tag generation
      (fun j => rowGeneration (c.stores target j) tag ≠ none) c')
    (fun c' event held left => ⟨held.1.step left, held.2.step held.1.again positive
      (fun j known => (held.1 target).known known) left⟩) ⟨kept, reaches⟩ left
  exact both.2

/-- The generation is above the one a shard had, unless it has saturated. -/
def Above (tag : Bytes) (sh : Shard) (generation : Nat) : Prop :=
  ∀ level, rowGeneration sh tag = some level → level < generation ∨ u64Max ≤ generation

/-- Every shard bumps the generation it has, and the highest is the answer. -/
theorem bumpShards_above {n : Nat} {parties : Fin n → Shard} (tag : Bytes) (shards : List (Fin n))
    (highest : Option Nat) (valid : ∀ i, NamesValid (parties i)) :
    (VashStore.bumpShards tag shards highest).Ensures submit (fun _ => True)
      (fun answer _ => ∀ generation, answer = some generation →
        (∀ before, highest = some before → before ≤ generation) ∧
          ∀ i ∈ shards, Above tag (parties i) generation)
      (fun _ _ => True) parties := by
  induction shards generalizing highest parties with
  | nil =>
    rintro generation rfl
    exact ⟨fun before same => (Option.some.inj same).ge, fun i mem => absurd mem List.not_mem_nil⟩
  | cons shard rest ih =>
    refine Call.Ensures.bind fun clock _ => ?_
    have named : ∀ i, NamesValid (Function.update parties shard
        (submit clock (.deleteByTag tag) (parties shard)).2 i) := by
      intro i
      by_cases here : i = shard
      · subst here
        rw [Function.update_self]
        exact submit_names trivial (valid i)
      · rw [Function.update_of_ne here]
        exact valid i
    obtain ⟨bumped, replied, higher⟩ : ∃ bumped,
        (submit clock (.deleteByTag tag) (parties shard)).1 = .ok (.invalidated bumped) ∧
        ∀ level, rowGeneration (parties shard) tag = some level →
          ∃ b, bumped = some b ∧ (level < b ∨ u64Max ≤ b) := by
      cases found : rowGeneration (parties shard) tag with
      | none => exact ⟨none, (submit_deleteByTag_absent clock found).1, by simp⟩
      | some held =>
        obtain ⟨bumped, ⟨-, higher⟩, replied, -⟩ := submit_deleteByTag clock (valid shard) found
        refine ⟨some bumped, replied, fun level at_ => ⟨bumped, rfl, ?_⟩⟩
        obtain rfl := Option.some.inj at_
        omega
    rw [replied]
    refine (ih (max highest bumped) named).imp fun answer _ ended generation answers => ?_
    obtain ⟨le, above⟩ := ended generation answers
    have reached : (∀ before, highest = some before → before ≤ generation) ∧
        ∀ b, bumped = some b → b ≤ generation := by
      rcases highest with _ | h <;> rcases bumped with _ | b <;> simp_all
    refine ⟨reached.1, fun i mem => ?_⟩
    by_cases here : i = shard
    · subst here
      intro level at_
      obtain ⟨b, same, rises⟩ := higher level at_
      have := reached.2 b same
      omega
    · have later := above i ((List.mem_cons.mp mem).resolve_left here)
      rwa [Function.update_of_ne here] at later

/-- The generation an invalidation answers is above what every shard had before it. -/
theorem deleteByTag_above {n : Nat} {parties : Fin n → Shard} (tag : Bytes)
    (valid : ∀ i, NamesValid (parties i)) {clocks : Nat → Nat → Nat} {generation : Nat}
    (answered : ((VashStore.deleteByTag tag).run submit clocks parties).1 =
      .ok (some generation)) (i : Fin n) : Above tag (parties i) generation := by
  have levels : ∀ highest : Option Nat, ∀ parties' : Fin n → Shard,
      (VashStore.levelTo tag highest).Ensures submit (fun _ => True)
        (fun answer _ => answer = highest) (fun _ _ => True) parties' := by
    intro highest parties'
    cases highest with
    | none => exact rfl
    | some generation =>
      exact (Call.Ensures.trivial _ _).seq (fun _ _ _ => rfl)
  have ensures : (VashStore.deleteByTag tag).Ensures submit (fun _ => True)
      (fun answer _ => ∀ generation, answer = some generation →
        ∀ i ∈ List.finRange n, Above tag (parties i) generation) (fun _ _ => True) parties :=
    (bumpShards_above tag _ none valid).seq (fun highest parties' bumped =>
      (levels highest parties').imp (fun answer _ same generation answers =>
        (bumped generation (same ▸ answers)).2))
  exact ensures.run (fun _ => trivial) (Prod.ext answered rfl) generation rfl i
    (List.mem_finRange i)

/-- An invalidation that was answered with a generation sends it to every peer. -/
theorem invalidation_sends {source target : Fin m} (apart : source ≠ target)
    (fans : (members source).mode.fansOut = true) {c : Cluster members} {tag : Bytes}
    {clocks : Nat → Nat → Nat} {generation : Nat}
    (answered : ((VashStore.deleteByTag tag).run submit clocks (c.stores source)).1 =
      .ok (some generation)) :
    .request source target false [(tag, generation)] ∈
      (c.step (.deleteByTag source tag, clocks)).messages := by
  have ends : ∀ highest : Option Nat, (match highest with
      | some generation => return invalidate members source tag generation
      | none => return [] : NodeCall (members source).shards (List (Message m))) =
        .done (highest.elim [] (invalidate members source tag)) := by
    intro highest
    cases highest <;> rfl
  simp only [Cluster.step, act]
  rw [Call.run_bind_done submit ends, answered]
  refine List.mem_append_right _ ?_
  simp [Except.map, Except.toOption, invalidate, fans, apart.symm]

/-- Over every run of a cluster in which ids do not run out: once the message of an
invalidation at one node has been delivered to another, that node serves no record with
a reference to the tag resolved there before the invalidation, if some shard of the issuing
node was then at its generation of the tag or past it. -/
theorem invalidation_reaches_peer (members : Fin m → Member)
    (configs : ∀ i, Fin (members i).shards → Config)
    (earlier between later : List (ClusterEvent m × (Nat → Nat → Nat))) (source target : Fin m)
    (apart : source ≠ target) (fans : (members source).mode.fansOut = true) (tag : Bytes)
    (clocks : Nat → Nat → Nat)
    (left : Along step IdsLeft (fresh configs)
      (earlier ++ between ++ (.deleteByTag source tag, clocks) :: later))
    (generation : Nat)
    (answered : ((VashStore.deleteByTag tag).run submit clocks
      ((after configs (earlier ++ between)).stores source)).1 = .ok (some generation))
    (delivered : .request source target false [(tag, generation)] ∉ (after configs
      (earlier ++ between ++ (.deleteByTag source tag, clocks) :: later)).messages)
    (j : Fin (members target).shards)
    (behind : ∀ held, ((after configs (earlier ++ between)).stores target
        j).engine.registry.generationOf tag = some held → held < u64Max ∧
      ∃ i level, ((after configs (earlier ++ between)).stores source
        i).engine.registry.generationOf tag = some level ∧ held ≤ level)
    (names : List Bytes) (refs : List TagRef)
    (resolved : ((after configs earlier).stores target j).engine.registry.resolve names = .ok refs)
    (ref : TagRef) (reference : (tag, ref) ∈ names.zip refs) (moment : Snapshot) (key : Bytes)
    (record : Record)
    (hit : readAlive ((after configs (earlier ++ between ++
        (.deleteByTag source tag, clocks) :: later)).stores target j).tables.main
      ((after configs (earlier ++ between ++
        (.deleteByTag source tag, clocks) :: later)).stores target j).engine.registry
      moment key (fun record => record) = some record) :
    ref ∉ record.tags := by
  unfold after at *
  obtain ⟨leftBefore, leftIssue, leftLater⟩ := along_append.mp left
  obtain ⟨leftEarlier, leftBetween⟩ := along_append.mp leftBefore
  -- the row of the tag when it was resolved, when the invalidation was issued, at the end
  have atResolve := kept_run (kept_fresh configs) leftEarlier
  have atIssue := kept_run atResolve.again leftBetween
  rw [← run_append] at atIssue
  have issued := atIssue.again.step leftIssue
  obtain ⟨entry, named, rfl⟩ := Registry.resolve_entry resolved reference
  rw [((atResolve target).tags j).mirrors.byName] at named
  obtain ⟨row, found, rfl⟩ := Option.map_eq_some_iff.mp named
  obtain ⟨row₁, found₁, id₁, generation₁⟩ := (atIssue target).grows j tag row found
  have below : row₁.generation < generation := by
    obtain ⟨room, i, level, ahead, le⟩ := behind row₁.generation (by
      rw [generationOf_eq ((atIssue target).tags j), rowGeneration, found₁]
      rfl)
    rw [generationOf_eq ((atIssue source).tags i)] at ahead
    have above := deleteByTag_above tag (fun i => (atIssue source).names i) answered i level ahead
    omega
  have reaches := reaches_run issued (by omega) leftLater
    (.inl (invalidation_sends apart fans answered))
  have atEnd := kept_run issued.again leftLater
  rw [← run_cons, ← run_append] at reaches atEnd
  have present : rowGeneration ((run step (fresh configs) (earlier ++ between)).stores target j)
      tag ≠ none := by
    rw [rowGeneration, found₁]
    exact Option.some_ne_none _
  obtain ⟨held, reached, above⟩ := reaches.resolve_left delivered j present
  obtain ⟨row₂, found₂, id₂, -⟩ := (issued target).grows j tag row₁ found₁
  obtain ⟨row₃, found₃, id₃, -⟩ := (atEnd target).grows j tag row₂ found₂
  rw [rowGeneration, found₃] at reached
  obtain rfl : row₃.generation = held := Option.some.inj reached
  intro carried
  obtain ⟨_, -, alive, rfl⟩ := readAlive_eq_some_iff.mp hit
  have current := Record.generation_of_isAlive alive carried
  have shown := ((atEnd target).tags j).mirrors.byId tag row₃ found₃
  have same : row₃.id = row.id := by omega
  change ((run step (fresh configs) (earlier ++ between ++ (.deleteByTag source tag, clocks) ::
    later)).stores target j).engine.registry.generation row.id = some row.generation at current
  rw [Registry.generation, ← same, shown] at current
  have equal : row₃.generation = row.generation := Option.some.inj current
  omega

section Examples

instance decidableIdsLeft (c : Cluster members) (event : ClusterEvent m × (Nat → Nat → Nat)) :
    Decidable (c.IdsLeft event) :=
  inferInstanceAs (Decidable (∀ act ∈ c.act event.1,
    act.2.Granted submit IdsFor event.2 (c.stores act.1)))

/-- Two nodes of one shard each. -/
def pair : Fin 2 → Member := fun _ =>
  ⟨1, ⟨Nat.one_ne_zero⟩, ⟨fun _ => 0, .stable 1, 4⟩, .fanout, ⟨id, fun _ => .refl _⟩⟩

def pairConfigs : ∀ i, Fin (pair i).shards → Config := fun _ _ => firstByteConfig 1000

/-- Events at the clock reading `100`. -/
def standing (events : List (ClusterEvent 2)) : List (ClusterEvent 2 × (Nat → Nat → Nat)) :=
  events.map fun event => (event, fun _ _ => 100)

/-- The pair after events at the clock reading `100`. -/
def pairAfter (events : List (ClusterEvent 2)) : Cluster pair := after pairConfigs (standing events)

/-- A write of `key` at a node under the tag `[7]`. -/
def tagged (node : Fin 2) (key : Bytes) : ClusterEvent 2 :=
  .write node [⟨key, [], .set 0, 0, [[7]], .set, false⟩]

/-- The key `[1]` is written at node `1`, under a tag both nodes have. -/
def taggedRun : List (ClusterEvent 2 × (Nat → Nat → Nat)) :=
  standing [tagged 0 [2], tagged 1 [1]]

/-- The message of the invalidation, and its reply. -/
def deliveries : List (ClusterEvent 2 × (Nat → Nat → Nat)) := standing [.deliver 0, .deliver 0]

theorem invalidation_reaches_peer_delivered :
    ((after pairConfigs taggedRun : Cluster pair).stores 1 0).tables.main.get [1] ≠ none ∧
    ∀ moment key record,
      readAlive ((after pairConfigs (taggedRun ++ [] ++ (.deleteByTag 0 [7], fun _ _ => 100) ::
          deliveries) : Cluster pair).stores 1 0).tables.main
        ((after pairConfigs (taggedRun ++ [] ++ (.deleteByTag 0 [7], fun _ _ => 100) ::
          deliveries) : Cluster pair).stores 1 0).engine.registry
        moment key (fun record => record) = some record → (⟨0, 0⟩ : TagRef) ∉ record.tags := by
  have first : ∀ held, ((after pairConfigs (taggedRun ++ []) : Cluster pair).stores 1
      0).engine.registry.generationOf [7] = some held → 0 = held := by decide +kernel
  exact ⟨by decide +kernel, fun moment key record =>
    invalidation_reaches_peer pair pairConfigs taggedRun [] deliveries 0 1 (by decide) rfl [7]
      (fun _ _ => 100) (by decide +kernel) 1 (by decide +kernel) (by decide +kernel) 0
      (fun held at_ => ⟨first held at_ ▸ by decide, 0, 0, by decide +kernel, (first held at_).ge⟩)
      [[7]] [⟨0, 0⟩] (by decide +kernel) ⟨0, 0⟩ (by decide) moment key record⟩

/-- Node `1` invalidates the tag and writes the key `[1]` again, while its message to
node `0` is still under way. -/
def aheadEvents : List (ClusterEvent 2) :=
  [tagged 0 [2], tagged 1 [1], .deleteByTag 1 [7], tagged 1 [1]]

/-- Both messages and both replies, and a gossip round each way. -/
def settlingEvents : List (ClusterEvent 2) :=
  [.deliver 1, .deliver 0, .deliver 0, .deliver 0, .gossip 0 1 0, .deliver 0, .deliver 0,
    .gossip 1 0 0, .deliver 0, .deliver 0]

theorem lagging_invalidation_is_lost :
    ((VashStore.deleteByTag [7]).run submit (fun _ _ => 100)
      ((pairAfter aheadEvents).stores 0)).1 = .ok (some 1) ∧
    (pairAfter (aheadEvents ++ .deleteByTag 0 [7] :: settlingEvents)).messages = [] ∧
    ((pairAfter aheadEvents).stores 1 0).get 200 [1] ≠ none ∧
    ((pairAfter (aheadEvents ++ .deleteByTag 0 [7] :: settlingEvents)).stores 1 0).get 200 [1] =
      ((pairAfter aheadEvents).stores 1 0).get 200 [1] := by
  decide +kernel

end Examples

end Cluster

end Vash.Server
