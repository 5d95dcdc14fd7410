import Vash.Node.Jobs
import Vash.Node.Submit

/-!
# One generation per name

Calls that invalidate, merge and register tags run side by side. Each visits the
shards one after another, so for a while the shards hold different generations of
a name; the question is what is left once no call is in progress.

The argument keeps account of debts. Wherever two shards differ, some call in
progress still owes the lower shard a rise to the higher generation: an
invalidation in its first loop owes every shard the highest generation it has
reached, and in its second loop, like a merge, it owes it to the shards ahead of
it (`Stage.Owes`). No call in progress, no debt.

* `node_holds_one_generation` — at rest the shards agree, if names are registered
  only at the generation the node has, and not behind a merge that offers more.
* `late_registration_diverges` — a write that looked the generation up before an
  invalidation and registers the name after it leaves the shards apart.
-/

namespace Vash.Node

open Library Store

/-! ### The calls -/

/-- The calls that move generations. -/
inductive TagRequest where
  | deleteByTag (tag : Bytes)
  | mergeTagGeneration (tag : Bytes) (generation : Nat)
  | setMany (sets : List SetRequest)
  deriving DecidableEq, Repr

/-- The generation a request offers for a name. -/
def TagRequest.offers (name : Bytes) : TagRequest → Nat
  | .mergeTagGeneration tag generation => if tag = name then generation else 0
  | _ => 0

section Calls

variable {n : Nat}

def invalidated (call : NodeCall n (Option Nat)) : NodeCall n WriteOutcome :=
  call >>= fun generation => pure (.invalidated generation)

def merged (call : NodeCall n Nat) : NodeCall n WriteOutcome :=
  call >>= fun generation => pure (.merged generation)

def stored (call : NodeCall n (List Nat)) : NodeCall n WriteOutcome :=
  call >>= fun tokens => pure (.cas tokens)

/-- The call made for a request. -/
def VashStore.serve [NeZero n] (node : VashStore n) : TagRequest → NodeCall n WriteOutcome
  | .deleteByTag tag => invalidated (VashStore.deleteByTag tag)
  | .mergeTagGeneration tag generation => merged (node.mergeTagGeneration tag generation)
  | .setMany sets => stored (node.setMany sets)

end Calls

/-- Calls in progress on the shards of a node. -/
abbrev TagCrowd (n : Nat) := Crowd (Fin n) Shard WriteOp Reply StoreError WriteOutcome TagRequest

/-- A node just opened. -/
def TagCrowd.fresh {n : Nat} (configs : Fin n → Config) : TagCrowd n :=
  ⟨fun shard => .create (configs shard), []⟩

/-! ### What the calls submit -/

/-- The jobs these calls hand to a writer. -/
def Tagging : WriteOp → Prop
  | .set _ => True
  | .createTags _ => True
  | .deleteByTag _ => True
  | .mergeTag _ _ => True
  | _ => False

/-- The jobs among them that do not raise the generation of `tag`. -/
def Spares (tag : Bytes) : WriteOp → Prop
  | .set _ => True
  | .createTags _ => True
  | .deleteByTag other => other ≠ tag
  | .mergeTag other _ => other ≠ tag
  | _ => False

section Only

variable {n : Nat} {p : WriteOp → Prop}

variable {tag : Bytes}

theorem levelShards_only (merges : ∀ generation, p (.mergeTag tag generation)) (generation : Nat)
    (shards : List (Fin n)) : (VashStore.levelShards tag generation shards).Only p := by
  induction shards with
  | nil => trivial
  | cons shard rest ih =>
    intro sh _
    dsimp only
    split
    · split
      · exact (ask_only (merges _)).bind fun _ => ih
      · exact ih
    · exact ih

theorem deleteByTag_only (merges : ∀ generation, p (.mergeTag tag generation))
    (deletes : p (.deleteByTag tag)) : (VashStore.deleteByTag tag : NodeCall n _).Only p := by
  have bumps : ∀ (shards : List (Fin n)) (highest : Option Nat),
      (VashStore.bumpShards tag shards highest).Only p := by
    intro shards
    induction shards with
    | nil => exact fun _ => trivial
    | cons shard rest ih => exact fun _ => (ask_only deletes).bind fun _ => ih _
  refine (bumps _ _).bind fun highest => ?_
  cases highest with
  | none => trivial
  | some generation => exact (levelShards_only merges generation _).bind fun _ => trivial

theorem mergeTagGeneration_only [NeZero n] (node : VashStore n)
    (merges : ∀ generation, p (.mergeTag tag generation)) (generation : Nat) :
    (node.mergeTagGeneration tag generation).Only p := by
  have loop : ∀ (shards : List (Fin n)) (effective holders : Nat),
      (node.mergeShards tag generation shards effective holders).Only p := by
    intro shards
    induction shards with
    | nil =>
      intro effective holders
      unfold VashStore.mergeShards
      split
      · exact (ask_only (merges _)).bind fun _ => trivial
      · trivial
    | cons shard rest ih =>
      intro effective holders sh _
      dsimp only
      split
      · exact ih _ _
      · split
        · exact ih _ _
        · exact (ask_only (merges _)).bind fun _ => ih _ _
  exact loop _ _ _

end Only

/-! ### What a call still owes -/

/-- Where a call on one tag stands, by the shard its next step is on and the shards
after it. -/
inductive Stage (n : Nat) where
  /-- An invalidation in its first loop. -/
  | bump (shard : Fin n) (rest : List (Fin n)) (highest : Option Nat)
  /-- An invalidation in its second loop, about to look at a shard. -/
  | level (generation : Nat) (shard : Fin n) (rest : List (Fin n))
  /-- An invalidation that found a shard behind. -/
  | raise (generation : Nat) (shard : Fin n) (rest : List (Fin n))
  /-- A merge about to look at a shard. -/
  | meet (generation : Nat) (shard : Fin n) (rest : List (Fin n)) (effective holders : Nat)
  /-- A merge that found a shard behind. -/
  | lift (generation : Nat) (shard : Fin n) (rest : List (Fin n)) (effective holders : Nat)
  /-- A merge that found no shard with the name. -/
  | adopt (generation effective : Nat)
  /-- A call that does not raise the tag, or no longer. -/
  | aside

section Stages

variable {n : Nat} [NeZero n] (node : VashStore n) (tag : Bytes)

namespace Stage

/-- The call is at the stage. -/
def At (call : NodeCall n WriteOutcome) : Stage n → Prop
  | bump shard rest highest => call =
      invalidated (VashStore.bumpShards tag (shard :: rest) highest >>= VashStore.levelTo tag)
  | level generation shard rest => call =
      invalidated (VashStore.levelShards tag generation (shard :: rest) >>= fun _ =>
        pure (some generation))
  | raise generation shard rest => call =
      invalidated ((mergeTagOn shard tag generation >>= fun _ =>
        VashStore.levelShards tag generation rest) >>= fun _ => pure (some generation))
  | meet generation shard rest effective holders => call =
      merged (node.mergeShards tag generation (shard :: rest) effective holders)
  | lift generation shard rest effective holders => call =
      merged (mergeTagOn shard tag generation >>= fun merged =>
        node.mergeShards tag generation rest (max effective merged) (holders + 1))
  | adopt generation effective => call =
      merged (mergeTagOn (forKey node.hash tag) tag generation >>= fun merged =>
        pure (max effective merged))
  | aside => call.Only (Spares tag)

/-- The call will still bring the shard to `level` if it has the name. -/
def Owes (level : Nat) (shard : Fin n) : Stage n → Prop
  | bump _ _ highest => ∃ reached, highest = some reached ∧ level ≤ reached
  | .level generation next rest => level ≤ generation ∧ shard ∈ next :: rest
  | raise generation next rest => level ≤ generation ∧ shard ∈ next :: rest
  | meet generation next rest _ _ => level ≤ generation ∧ shard ∈ next :: rest
  | lift generation next rest _ _ => level ≤ generation ∧ shard ∈ next :: rest
  | adopt generation _ => level ≤ generation ∧ shard = forKey node.hash tag
  | aside => False

/-- An invalidation levels to a generation some shard has; a merge has left no shard
behind it below the generation it offers. -/
def Fair (held : Fin n → Option Nat) : Stage n → Prop
  | bump _ _ highest => ∀ reached, highest = some reached → ∃ i d, held i = some d ∧ reached ≤ d
  | level generation _ _ => ∃ i d, held i = some d ∧ generation ≤ d
  | raise generation shard _ =>
    (∃ i d, held i = some d ∧ generation ≤ d) ∧ ∃ a, held shard = some a
  | meet generation shard rest _ _ =>
    ∀ i, i ∉ shard :: rest → ∀ a, held i = some a → generation ≤ a
  | lift generation shard rest _ _ =>
    (∀ i, i ∉ shard :: rest → ∀ a, held i = some a → generation ≤ a) ∧ ∃ a, held shard = some a
  | adopt generation _ => ∀ i, i ≠ forKey node.hash tag → ∀ a, held i = some a → generation ≤ a
  | aside => True

/-- A merge offers the generation its request names. -/
def Fits (request : TagRequest) : Stage n → Prop
  | meet generation _ _ _ _ => request = .mergeTagGeneration tag generation
  | lift generation _ _ _ _ => request = .mergeTagGeneration tag generation
  | adopt generation _ => request = .mergeTagGeneration tag generation
  | _ => True

/-- A call in progress for a request is at the stage. -/
structure Known (held : Fin n → Option Nat) (request : TagRequest)
    (call : NodeCall n WriteOutcome) (stage : Stage n) : Prop where
  here : stage.At node tag call
  fits : stage.Fits tag request
  fair : stage.Fair node tag held

theorem Owes.mono {level level' : Nat} {shard : Fin n} {stage : Stage n} (le : level ≤ level')
    (owes : stage.Owes node tag level' shard) : stage.Owes node tag level shard := by
  cases stage with
  | bump next rest highest =>
    obtain ⟨reached, same, within⟩ := owes
    exact ⟨reached, same, le.trans within⟩
  | aside => exact owes
  | _ => exact ⟨le.trans owes.1, owes.2⟩

/-! The stages after a step. -/

def afterLevel (generation : Nat) : List (Fin n) → Stage n
  | [] => aside
  | shard :: rest => level generation shard rest

def afterBump : List (Fin n) → Option Nat → Stage n
  | shard :: rest, highest => bump shard rest highest
  | [], none => aside
  | [], some generation => afterLevel generation (List.finRange n)

def afterMeet (generation : Nat) : List (Fin n) → (effective holders : Nat) → Stage n
  | shard :: rest, effective, holders => meet generation shard rest effective holders
  | [], effective, holders => if holders = 0 then adopt generation effective else aside

variable {node tag}

theorem owes_afterLevel {b generation : Nat} {i : Fin n} {rest : List (Fin n)}
    (le : b ≤ generation) (mem : i ∈ rest) : (afterLevel generation rest).Owes node tag b i := by
  cases rest with
  | nil => simp at mem
  | cons shard rest => exact ⟨le, mem⟩

theorem owes_afterBump {b reached : Nat} (i : Fin n) (rest : List (Fin n)) (le : b ≤ reached) :
    (afterBump rest (some reached)).Owes node tag b i := by
  cases rest with
  | nil => exact owes_afterLevel le (List.mem_finRange i)
  | cons shard rest => exact ⟨reached, rfl, le⟩

theorem owes_afterMeet {b generation : Nat} {i : Fin n} {rest : List (Fin n)}
    (le : b ≤ generation) (mem : i ∈ rest) (effective holders : Nat) :
    (afterMeet generation rest effective holders).Owes node tag b i := by
  cases rest with
  | nil => simp at mem
  | cons shard rest => exact ⟨le, mem⟩

variable {held : Fin n → Option Nat} {request : TagRequest} {call : NodeCall n WriteOutcome}

theorem Known.aside (only : call.Only (Spares tag)) :
    Stage.aside.Known node tag held request call := ⟨only, trivial, trivial⟩

theorem known_afterLevel {generation : Nat}
    (reached : ∃ i d, held i = some d ∧ generation ≤ d) (shards : List (Fin n)) :
    (afterLevel generation shards).Known node tag held request
      (invalidated (VashStore.levelShards tag generation shards >>= fun _ =>
        pure (some generation))) := by
  cases shards with
  | nil => exact .aside trivial
  | cons shard rest => exact ⟨rfl, trivial, reached⟩

theorem known_afterBump {highest : Option Nat}
    (reached : ∀ h, highest = some h → ∃ i d, held i = some d ∧ h ≤ d) (shards : List (Fin n)) :
    (afterBump shards highest).Known node tag held request
      (invalidated (VashStore.bumpShards tag shards highest >>= VashStore.levelTo tag)) := by
  cases shards with
  | cons shard rest => exact ⟨rfl, trivial, reached⟩
  | nil =>
    cases highest with
    | none => exact .aside trivial
    | some h => exact known_afterLevel (reached h rfl) _

theorem known_afterMeet {generation : Nat} {shards : List (Fin n)}
    (asked : request = .mergeTagGeneration tag generation)
    (above : ∀ i, i ∉ shards → ∀ a, held i = some a → generation ≤ a) (effective holders : Nat) :
    (afterMeet generation shards effective holders).Known node tag held request
      (merged (node.mergeShards tag generation shards effective holders)) := by
  cases shards with
  | cons shard rest => exact ⟨rfl, asked, above⟩
  | nil =>
    by_cases none : holders = 0
    · simp only [afterMeet, VashStore.mergeShards, if_pos none]
      exact ⟨rfl, asked, fun i _ => above i (by simp)⟩
    · simp only [afterMeet, VashStore.mergeShards, if_neg none]
      exact .aside trivial

end Stage

end Stages

/-! ### The account for one name -/

/-- The generations the shards hold for a name. -/
def levels {n : Nat} (parties : Fin n → Shard) (tag : Bytes) : Fin n → Option Nat :=
  fun shard => rowGeneration (parties shard) tag

theorem levels_update {n : Nat} (parties : Fin n → Shard) (tag : Bytes) (shard : Fin n)
    (sh : Shard) :
    levels (Function.update parties shard sh) tag =
      Function.update (levels parties tag) shard (rowGeneration sh tag) := by
  funext i
  unfold levels
  by_cases here : i = shard
  · subst here
    simp
  · simp [here]

section Submitted

variable {n : Nat} {parties : Fin n → Shard} {tag : Bytes} {shard : Fin n} {clock : Nat → Nat}
  {op : WriteOp}

/-- A job that moves one shard to a generation of the name. -/
theorem levels_submit {m : Nat}
    (risen : rowGeneration (submit clock op (parties shard)).2 =
      Function.update (rowGeneration (parties shard)) tag (some m)) :
    levels (Function.update parties shard (submit clock op (parties shard)).2) tag =
      Function.update (levels parties tag) shard (some m) := by
  rw [levels_update, risen, Function.update_self]

theorem levels_submit_same
    (kept : rowGeneration (submit clock op (parties shard)).2 = rowGeneration (parties shard)) :
    levels (Function.update parties shard (submit clock op (parties shard)).2) tag =
      levels parties tag := by
  rw [levels_update, kept]
  exact Function.update_eq_self shard _

end Submitted

section Account

variable {n : Nat} [NeZero n] (node : VashStore n) (tag : Bytes)

/-- Every call is at its stage, and wherever two shards differ some call owes the
lower one the generation of the higher one. -/
structure Levelled (crowd : TagCrowd n) (stages : Nat → Stage n) : Prop where
  tags : ∀ i, (crowd.parties i).TagsOk
  names : ∀ i, NamesValid (crowd.parties i)
  jobs : ∀ entry ∈ crowd.calls, entry.2.Only Tagging
  known : ∀ (k : Nat) entry, crowd.calls[k]? = some entry →
    (stages k).Known node tag (levels crowd.parties tag) entry.1 entry.2
  owed : ∀ i j a b, levels crowd.parties tag i = some a → levels crowd.parties tag j = some b →
    a < b → ∃ k, k < crowd.calls.length ∧ (stages k).Owes node tag b i

/-- A shard that comes to have the name has the generation of every shard that had
it, and of no less than any merge in progress offers. -/
def Lands (calls : List (TagRequest × NodeCall n WriteOutcome)) (held held' : Fin n → Option Nat) :
    Prop :=
  ∀ i s, held i = none → held' i = some s →
    (∀ j d, held j = some d → d = s) ∧ ∀ entry ∈ calls, ¬ entry.2.Ended → entry.1.offers tag ≤ s

variable {node tag} {held held' : Fin n → Option Nat}

/-- Generations that grow keep the stage of a call that takes no step. -/
theorem Stage.Known.mono {request : TagRequest} {call : NodeCall n WriteOutcome} {stage : Stage n}
    (known : stage.Known node tag held request call)
    (grow : ∀ i a, held i = some a → ∃ a', a ≤ a' ∧ held' i = some a')
    (new : ∀ i s, held i = none → held' i = some s → ¬ call.Ended → request.offers tag ≤ s) :
    stage.Known node tag held' request call := by
  obtain ⟨here, fits, fair⟩ := known
  refine ⟨here, fits, ?_⟩
  have reaches : ∀ {generation : Nat}, (∃ i d, held i = some d ∧ generation ≤ d) →
      ∃ i d, held' i = some d ∧ generation ≤ d := by
    rintro generation ⟨i, d, found, le⟩
    obtain ⟨d', later, found'⟩ := grow i d found
    exact ⟨i, d', found', le.trans later⟩
  have present : ∀ {shard : Fin n}, (∃ a, held shard = some a) → ∃ a, held' shard = some a := by
    rintro shard ⟨a, found⟩
    obtain ⟨a', -, found'⟩ := grow shard a found
    exact ⟨a', found'⟩
  have above : ∀ {generation : Nat} {p : Fin n → Prop},
      request = .mergeTagGeneration tag generation → ¬ call.Ended →
      (∀ i, p i → ∀ a, held i = some a → generation ≤ a) →
      ∀ i, p i → ∀ a, held' i = some a → generation ≤ a := by
    intro generation p asked open' all i pi a found'
    cases found : held i with
    | none => simpa [asked, TagRequest.offers] using new i a found found' open'
    | some a₀ =>
      obtain ⟨a', later, same⟩ := grow i a₀ found
      obtain rfl := Option.some.inj (found'.symm.trans same)
      exact (all i pi a₀ found).trans later
  cases stage with
  | bump shard rest highest => exact fun reached same => reaches (fair reached same)
  | level generation shard rest => exact reaches fair
  | raise generation shard rest => exact ⟨reaches fair.1, present fair.2⟩
  | meet generation shard rest effective holders =>
    exact above fits (fun ended => by rw [show call = _ from here] at ended; exact ended) fair
  | lift generation shard rest effective holders =>
    exact ⟨above fits (fun ended => by rw [show call = _ from here] at ended; exact ended) fair.1,
      present fair.2⟩
  | adopt generation effective =>
    exact above fits (fun ended => by rw [show call = _ from here] at ended; exact ended) fair
  | aside => trivial

section Moves

variable {crowd : TagCrowd n} {stages : Nat → Stage n} {k : Nat} {request : TagRequest}
  {call call' : NodeCall n WriteOutcome} {stage' : Stage n} {parties' : Fin n → Shard}
  (account : Levelled node tag crowd stages) (here : crowd.calls[k]? = some (request, call))
  (tags : ∀ i, (parties' i).TagsOk) (names : ∀ i, NamesValid (parties' i))
  (jobs : call'.Only Tagging)

include account here tags names jobs

/-- A call takes a step: it keeps its debts to shards still below them, and wherever
shards differ now it took the debt on or the debt was there before. -/
theorem Levelled.move
    (grow : ∀ i a, levels crowd.parties tag i = some a →
      ∃ a', a ≤ a' ∧ levels parties' tag i = some a')
    (lands : Lands tag crowd.calls (levels crowd.parties tag) (levels parties' tag))
    (known : stage'.Known node tag (levels parties' tag) request call')
    (keep : ∀ b i a, levels parties' tag i = some a → a < b → (stages k).Owes node tag b i →
      stage'.Owes node tag b i)
    (lead : ∀ i j a b, levels parties' tag i = some a → levels parties' tag j = some b → a < b →
      stage'.Owes node tag b i ∨ ∃ a₀ j₀ b₀, levels crowd.parties tag i = some a₀ ∧ a₀ ≤ a ∧
        levels crowd.parties tag j₀ = some b₀ ∧ b ≤ b₀) :
    ∃ stages', Levelled node tag ⟨parties', crowd.calls.set k (request, call')⟩ stages' := by
  have inside : k < crowd.calls.length := (List.getElem?_eq_some_iff.mp here).1
  refine ⟨Function.update stages k stage', tags, names, ?_, ?_, ?_⟩
  · intro entry mem
    rcases List.mem_or_eq_of_mem_set mem with old | rfl
    · exact account.jobs entry old
    · exact jobs
  · intro m entry found
    by_cases same : m = k
    · subst same
      rw [List.getElem?_set_self inside] at found
      obtain rfl := Option.some.inj found
      rw [Function.update_self]
      exact known
    · rw [List.getElem?_set_ne (Ne.symm same)] at found
      rw [Function.update_of_ne same]
      exact (account.known m entry found).mono grow fun i s absent new =>
        (lands i s absent new).2 entry (List.mem_of_getElem? found)
  · intro i j a b low high lt
    rcases lead i j a b low high lt with owes | ⟨a₀, j₀, b₀, low₀, le, high₀, ge⟩
    · exact ⟨k, by simpa using inside, by rwa [Function.update_self]⟩
    · obtain ⟨m, within, owes⟩ := account.owed i j₀ a₀ b₀ low₀ high₀ (by omega)
      refine ⟨m, by simpa using within, ?_⟩
      by_cases same : m = k
      · subst same
        rw [Function.update_self]
        exact keep b i a low lt (owes.mono node tag ge)
      · rw [Function.update_of_ne same]
        exact owes.mono node tag ge

/-- A step that leaves every generation of the name alone. -/
theorem Levelled.stay (same : levels parties' tag = levels crowd.parties tag)
    (known : stage'.Known node tag (levels crowd.parties tag) request call')
    (keep : ∀ b i a, levels crowd.parties tag i = some a → a < b → (stages k).Owes node tag b i →
      stage'.Owes node tag b i) :
    ∃ stages', Levelled node tag ⟨parties', crowd.calls.set k (request, call')⟩ stages' := by
  refine account.move here tags names jobs ?_ ?_ (same ▸ known) (same ▸ keep) ?_
  · intro i a found
    exact ⟨a, le_rfl, same ▸ found⟩
  · intro i s absent new
    rw [same, absent] at new
    cases new
  · intro i j a b low high lt
    rw [same] at low high
    exact .inr ⟨a, j, b, low, le_rfl, high, le_rfl⟩

/-- A step that raises the generation one shard has of the name. -/
theorem Levelled.rise {shard : Fin n} {a₀ m : Nat}
    (found : levels crowd.parties tag shard = some a₀) (le : a₀ ≤ m)
    (risen : levels parties' tag = Function.update (levels crowd.parties tag) shard (some m))
    (known : stage'.Known node tag (Function.update (levels crowd.parties tag) shard (some m))
      request call')
    (keep : ∀ b i, (stages k).Owes node tag b i → (i = shard ∧ b ≤ m) ∨ stage'.Owes node tag b i)
    (lead : a₀ < m → ∀ i, i ≠ shard → ∀ a, levels crowd.parties tag i = some a → a < m →
      stage'.Owes node tag m i ∨ ∃ j d, levels crowd.parties tag j = some d ∧ m ≤ d) :
    ∃ stages', Levelled node tag ⟨parties', crowd.calls.set k (request, call')⟩ stages' := by
  have at_shard : levels parties' tag shard = some m := by rw [risen, Function.update_self]
  have elsewhere : ∀ i, i ≠ shard → levels parties' tag i = levels crowd.parties tag i :=
    fun i ne => by rw [risen, Function.update_of_ne ne]
  refine account.move here tags names jobs ?_ ?_ (risen ▸ known) ?_ ?_
  · intro i a before
    by_cases same : i = shard
    · subst same
      obtain rfl := Option.some.inj (found.symm.trans before)
      exact ⟨m, le, at_shard⟩
    · exact ⟨a, le_rfl, (elsewhere i same).trans before⟩
  · intro i s absent new
    by_cases same : i = shard
    · subst same
      exact absurd (found.symm.trans absent) (by simp)
    · rw [elsewhere i same, absent] at new
      cases new
  · intro b i a present lt owes
    rcases keep b i owes with ⟨rfl, within⟩ | owes
    · obtain rfl := Option.some.inj (at_shard.symm.trans present)
      omega
    · exact owes
  · intro i j a b low high lt
    have low₀ : ∃ a', levels crowd.parties tag i = some a' ∧ a' ≤ a := by
      by_cases same : i = shard
      · subst same
        obtain rfl := Option.some.inj (at_shard.symm.trans low)
        exact ⟨a₀, found, le⟩
      · exact ⟨a, (elsewhere i same).symm.trans low, le_rfl⟩
    obtain ⟨a', low', under⟩ := low₀
    by_cases same : j = shard
    · subst same
      obtain rfl := Option.some.inj (at_shard.symm.trans high)
      have ne : i ≠ j := by
        rintro rfl
        have := Option.some.inj (at_shard.symm.trans low)
        omega
      by_cases higher : a₀ < m
      · rcases lead higher i ne a' low' (by omega) with owes | ⟨j', d, reached, ge⟩
        · exact .inl owes
        · exact .inr ⟨a', j', d, low', under, reached, ge⟩
      · exact .inr ⟨a', j, a₀, low', under, found, by omega⟩
    · exact .inr ⟨a', j, b, low', under, (elsewhere j same).symm.trans high, le_rfl⟩

/-- A step that may register the name on one shard and leaves the others alone. -/
theorem Levelled.register (shard : Fin n)
    (elsewhere : ∀ i, i ≠ shard → levels parties' tag i = levels crowd.parties tag i)
    (stays : ∀ a, levels crowd.parties tag shard = some a → levels parties' tag shard = some a)
    (lands : Lands tag crowd.calls (levels crowd.parties tag) (levels parties' tag))
    (known : stage'.Known node tag (levels parties' tag) request call')
    (keep : ∀ b i a, levels parties' tag i = some a → a < b → (stages k).Owes node tag b i →
      stage'.Owes node tag b i) :
    ∃ stages', Levelled node tag ⟨parties', crowd.calls.set k (request, call')⟩ stages' := by
  have kept : ∀ i a, levels crowd.parties tag i = some a → levels parties' tag i = some a := by
    intro i a before
    by_cases same : i = shard
    · subst same
      exact stays a before
    · exact (elsewhere i same).trans before
  have newcomer : ∀ {i : Fin n} {s : Nat}, levels crowd.parties tag i = none →
      levels parties' tag i = some s → i = shard := by
    intro i s absent new
    by_contra ne
    rw [elsewhere i ne, absent] at new
    cases new
  refine account.move here tags names jobs (fun i a before => ⟨a, le_rfl, kept i a before⟩) lands
    known keep ?_
  intro i j a b low high lt
  -- A shard that is new to the name is at the generation of all others.
  cases low₀ : levels crowd.parties tag i with
  | none =>
    cases high₀ : levels crowd.parties tag j with
    | none =>
      obtain rfl := newcomer low₀ low
      obtain rfl := newcomer high₀ high
      obtain rfl := Option.some.inj (low.symm.trans high)
      omega
    | some b₀ =>
      have := (lands i a low₀ low).1 j b₀ high₀
      obtain rfl := Option.some.inj (high.symm.trans (kept j b₀ high₀))
      omega
  | some a₀ =>
    obtain rfl := Option.some.inj (low.symm.trans (kept i a₀ low₀))
    cases high₀ : levels crowd.parties tag j with
    | none =>
      have := (lands j b high₀ high).1 i a low₀
      omega
    | some b₀ =>
      obtain rfl := Option.some.inj (high.symm.trans (kept j b₀ high₀))
      exact .inr ⟨a, j, b, rfl, le_rfl, high₀, le_rfl⟩

end Moves

/-! ### Every step keeps the account -/

omit [NeZero n] in
/-- A job of these calls changes the generation of valid names only, and of one it
spares only by registering it. -/
theorem submit_moves {sh : Shard} {clock : Nat → Nat} {op : WriteOp} (tagging : Tagging op)
    (valid : NamesValid sh) (name : Bytes) :
    rowGeneration (submit clock op sh).2 name = rowGeneration sh name ∨
      ValidName name ∧ (Spares name op → rowGeneration sh name = none) := by
  have updated : ∀ {other : Bytes} {g : Nat}, (Spares name op → other ≠ name) → ValidName other →
      rowGeneration (submit clock op sh).2 = Function.update (rowGeneration sh) other (some g) →
      rowGeneration (submit clock op sh).2 name = rowGeneration sh name ∨
        ValidName name ∧ (Spares name op → rowGeneration sh name = none) := by
    intro other g ne named risen
    by_cases same : name = other
    · exact .inr ⟨same ▸ named, fun spares => absurd same.symm (ne spares)⟩
    · exact .inl (by rw [risen, Function.update_of_ne same])
  cases op with
  | set prepared => exact .inl (by rw [submit_record rfl])
  | createTags names =>
    have added : RowsAdded sh.tables.tags _ := submit_createTags clock names
    cases found : rowGeneration sh name with
    | none =>
      refine or_iff_not_imp_left.mpr fun here => ⟨?_, fun _ => rfl⟩
      exact added.valid name (rowGeneration_eq_none.mp found) (mt rowGeneration_eq_none.mpr here)
    | some a =>
      obtain ⟨row, present, rfl⟩ := rowGeneration_eq_some found
      rw [rowGeneration, added.kept name row present]
      exact .inl rfl
  | deleteByTag other =>
    cases found : rowGeneration sh other with
    | none => exact .inl (by rw [(submit_deleteByTag_absent clock found).2])
    | some a =>
      obtain ⟨g, -, -, risen⟩ := submit_deleteByTag clock valid found
      exact updated id (valid other (by simp [found])) risen
  | mergeTag other generation =>
    cases found : rowGeneration sh other with
    | none =>
      rcases submit_mergeTag_absent clock found generation with ⟨-, named, risen⟩ | ⟨-, same⟩
      · exact updated id named risen
      · exact .inl (by rw [same])
    | some a =>
      exact updated id (valid other (by simp [found]))
        (submit_mergeTag clock valid found generation).2
  | _ => exact absurd tagging id

omit [NeZero n] in
/-- A job of these calls registers valid names only. -/
theorem submit_names {sh : Shard} {clock : Nat → Nat} {op : WriteOp} (tagging : Tagging op)
    (valid : NamesValid sh) : NamesValid (submit clock op sh).2 := by
  intro name present
  rcases submit_moves tagging valid name with same | ⟨named, -⟩
  · exact valid name (same ▸ present)
  · exact named

omit [NeZero n] in
/-- A job that spares the tag leaves a shard that has it where it is. -/
theorem submit_spares {sh : Shard} {clock : Nat → Nat} {op : WriteOp} (spares : Spares tag op)
    (valid : NamesValid sh) {a : Nat} (found : rowGeneration sh tag = some a) :
    rowGeneration (submit clock op sh).2 tag = some a := by
  have tagging : Tagging op := by cases op <;> trivial
  rcases submit_moves tagging valid tag with same | ⟨-, absent⟩
  · rw [same, found]
  · rw [absent spares] at found
    cases found

section Steps

variable {crowd : TagCrowd n} {stages : Nat → Stage n} {k : Nat} {request : TagRequest}
  {call : NodeCall n WriteOutcome} {clock : Nat → Nat}

/-- The crowd once a call has taken its next step. -/
def stepped (crowd : TagCrowd n) (k : Nat) (request : TagRequest) (call : NodeCall n WriteOutcome)
    (clock : Nat → Nat) : TagCrowd n :=
  ⟨(call.advance submit clock crowd.parties).2,
    crowd.calls.set k (request, (call.advance submit clock crowd.parties).1)⟩

omit [NeZero n] in
/-- A job handed in and answered as expected. -/
theorem advance_deleteByTagOn {α : Type} {shard : Fin n} {bumped : Option Nat}
    {parties : Fin n → Shard} {next : Option Nat → NodeCall n α}
    (replied : (submit clock (.deleteByTag tag) (parties shard)).1 = .ok (.invalidated bumped)) :
    (deleteByTagOn shard tag >>= next).advance submit clock parties =
      (next bumped,
        Function.update parties shard (submit clock (.deleteByTag tag) (parties shard)).2) := by
  simp only [deleteByTagOn, ask, Call.submit_bind, Call.advance, replied, answered, Call.done_bind]

omit [NeZero n] in
theorem advance_mergeTagOn {α : Type} {shard : Fin n} {generation g : Nat}
    {parties : Fin n → Shard} {next : Nat → NodeCall n α}
    (replied : (submit clock (.mergeTag tag generation) (parties shard)).1 = .ok (.merged g)) :
    (mergeTagOn shard tag generation >>= next).advance submit clock parties =
      (next g,
        Function.update parties shard (submit clock (.mergeTag tag generation)
          (parties shard)).2) := by
  simp only [mergeTagOn, ask, Call.submit_bind, Call.advance, replied, answered, Call.done_bind]

omit [NeZero n] in
theorem advance_mergeTagOn_error {α : Type} {shard : Fin n} {generation : Nat} {e : StoreError}
    {parties : Fin n → Shard} {next : Nat → NodeCall n α}
    (replied : (submit clock (.mergeTag tag generation) (parties shard)).1 = .error e) :
    (mergeTagOn shard tag generation >>= next).advance submit clock parties =
      (.fail e,
        Function.update parties shard (submit clock (.mergeTag tag generation)
          (parties shard)).2) := by
  simp only [mergeTagOn, ask, Call.submit_bind, Call.advance, replied, answered, Call.fail_bind]

variable (tag) in
/-- What every step of a call leaves in order. -/
structure Ready (crowd : TagCrowd n) (call : NodeCall n WriteOutcome)
    (clock : Nat → Nat) : Prop where
  tags : ∀ i, ((call.advance submit clock crowd.parties).2 i).TagsOk
  names : ∀ i, NamesValid ((call.advance submit clock crowd.parties).2 i)
  jobs : (call.advance submit clock crowd.parties).1.Only Tagging
  lands : Lands tag crowd.calls (levels crowd.parties tag)
    (levels (call.advance submit clock crowd.parties).2 tag)

omit [NeZero n] in
/-- The higher of a generation and what was reached before. -/
theorem max_some_cases (highest : Option Nat) (m : Nat) :
    ∃ top, max highest (some m) = some top ∧ m ≤ top ∧ (∀ h, highest = some h → h ≤ top) ∧
      (top = m ∨ highest = some top) := by
  cases highest with
  | none => exact ⟨m, by simp, le_rfl, by simp, .inl rfl⟩
  | some h =>
    refine ⟨max h m, by simp, le_max_right _ _, ?_, ?_⟩
    · intro h' same
      rw [Option.some.injEq] at same
      omega
    · rw [Option.some.injEq]
      omega

omit [NeZero n] in
theorem reaches_update {shard : Fin n} {a m generation : Nat} (found : held shard = some a)
    (le : a ≤ m) (reached : ∃ i d, held i = some d ∧ generation ≤ d) :
    ∃ i d, Function.update held shard (some m) i = some d ∧ generation ≤ d := by
  obtain ⟨i, d, present, ge⟩ := reached
  by_cases same : i = shard
  · subst same
    obtain rfl := Option.some.inj (found.symm.trans present)
    exact ⟨i, m, Function.update_self .., ge.trans le⟩
  · exact ⟨i, d, by rwa [Function.update_of_ne same], ge⟩

variable (account : Levelled node tag crowd stages)
  (here : crowd.calls[k]? = some (request, call)) (ready : Ready tag crowd call clock)

include account here ready

omit ready in
/-- A look changes nothing. -/
theorem Levelled.look {call' : NodeCall n WriteOutcome} {stage' : Stage n}
    (taken : call.advance submit clock crowd.parties = (call', crowd.parties))
    (jobs : (call.advance submit clock crowd.parties).1.Only Tagging)
    (known : stage'.Known node tag (levels crowd.parties tag) request call')
    (keep : ∀ b i a, levels crowd.parties tag i = some a → a < b → (stages k).Owes node tag b i →
      stage'.Owes node tag b i) :
    ∃ stages', Levelled node tag (stepped crowd k request call clock) stages' := by
  rw [stepped, taken]
  exact account.stay here account.tags account.names (taken ▸ jobs) rfl known keep

/-- A merge on a shard that has the name. -/
theorem Levelled.merge {shard : Fin n} {generation a : Nat} {next : Nat → NodeCall n WriteOutcome}
    {stage' : Stage n} (first : call = mergeTagOn shard tag generation >>= next)
    (found : levels crowd.parties tag shard = some a)
    (known : stage'.Known node tag
      (Function.update (levels crowd.parties tag) shard (some (max a generation))) request
      (next (max a generation)))
    (keep : ∀ b i, (stages k).Owes node tag b i →
      (i = shard ∧ b ≤ generation) ∨ stage'.Owes node tag b i)
    (lead : ∀ i, i ≠ shard → ∀ x, levels crowd.parties tag i = some x → x < generation →
      stage'.Owes node tag generation i ∨ ∃ j d, levels crowd.parties tag j = some d ∧
        generation ≤ d) :
    ∃ stages', Levelled node tag (stepped crowd k request call clock) stages' := by
  subst first
  obtain ⟨replied, risen⟩ := submit_mergeTag clock (account.names shard) found generation
  obtain ⟨tags, names, jobs, -⟩ := ready
  rw [stepped]
  rw [advance_mergeTagOn replied] at tags names jobs ⊢
  refine account.rise here tags names jobs found (le_max_left _ _) (levels_submit risen) known
    (fun b i owes => (keep b i owes).imp_left (.imp_right fun le => le.trans (le_max_right _ _))) ?_
  intro rises i ne x present lt
  have same : max a generation = generation := by omega
  rw [same] at lt ⊢
  exact lead i ne x present lt

theorem Levelled.step_level {generation : Nat} {shard : Fin n} {rest : List (Fin n)}
    (stage : stages k = .level generation shard rest) :
    ∃ stages', Levelled node tag (stepped crowd k request call clock) stages' := by
  obtain ⟨shape, -, fair⟩ := stage ▸ account.known k _ here
  obtain rfl : call = _ := shape
  have passes : (∀ current, levels crowd.parties tag shard = some current → generation ≤ current) →
      ∀ b i a, levels crowd.parties tag i = some a → a < b → (stages k).Owes node tag b i →
        (Stage.afterLevel generation rest).Owes node tag b i := by
    intro above b i a found lt owes
    rw [stage] at owes
    rcases List.mem_cons.mp owes.2 with rfl | mem
    · have := above a found
      have := owes.1
      omega
    · exact Stage.owes_afterLevel owes.1 mem
  have onward : (Stage.afterLevel generation rest).Known node tag (levels crowd.parties tag)
      request _ := Stage.known_afterLevel fair rest
  have seen := generationOf_eq (account.tags shard) tag
  cases found : levels crowd.parties tag shard with
  | none =>
    refine account.look here ?_ ready.jobs onward
      (passes fun current same => by rw [found] at same; cases same)
    simp only [VashStore.levelShards, invalidated, Call.look_bind, Call.advance, seen.trans found]
  | some current =>
    by_cases behind : current < generation
    · have known : (Stage.raise generation shard rest).Known node tag
          (levels crowd.parties tag) request _ := ⟨rfl, trivial, fair, current, found⟩
      refine account.look here ?_ ready.jobs known fun b i a _ _ owes => by rwa [stage] at owes
      simp only [VashStore.levelShards, invalidated, Call.look_bind, Call.advance,
        seen.trans found, if_pos behind]
    · refine account.look here ?_ ready.jobs onward (passes fun other same => ?_)
      · simp only [VashStore.levelShards, invalidated, Call.look_bind, Call.advance,
          seen.trans found, if_neg behind]
      · rw [found, Option.some.injEq] at same
        omega

theorem Levelled.step_bump {shard : Fin n} {rest : List (Fin n)} {highest : Option Nat}
    (stage : stages k = .bump shard rest highest) :
    ∃ stages', Levelled node tag (stepped crowd k request call clock) stages' := by
  obtain ⟨shape, -, fair⟩ := stage ▸ account.known k _ here
  have first : call = deleteByTagOn shard tag >>= fun bumped =>
      invalidated (VashStore.bumpShards tag rest (max highest bumped) >>=
        VashStore.levelTo tag) := by
    rw [show call = _ from shape]
    simp only [invalidated, VashStore.bumpShards, bind_assoc]
  subst first
  obtain ⟨tags, names, jobs, -⟩ := ready
  unfold stepped
  cases found : levels crowd.parties tag shard with
  | none =>
    obtain ⟨replied, kept⟩ := submit_deleteByTag_absent clock found
    have same : max highest none = highest := by simp
    rw [advance_deleteByTagOn replied, same] at jobs ⊢
    rw [advance_deleteByTagOn replied] at tags names
    refine account.stay here tags names jobs (levels_submit_same kept)
      (Stage.known_afterBump fair rest) ?_
    intro b i a _ _ owes
    rw [stage] at owes
    obtain ⟨reached, rfl, le⟩ := owes
    exact Stage.owes_afterBump i rest le
  | some a =>
    obtain ⟨m, ⟨le, -⟩, replied, risen⟩ := submit_deleteByTag clock (account.names shard) found
    rw [advance_deleteByTagOn replied] at tags names jobs ⊢
    obtain ⟨top, same, ge, covers, attained⟩ := max_some_cases highest m
    rw [same] at jobs ⊢
    refine account.rise here tags names jobs found le (levels_submit risen)
      (Stage.known_afterBump ?_ rest) ?_ ?_
    · rintro h here
      obtain rfl := Option.some.inj here
      rcases attained with rfl | before
      · exact ⟨shard, top, Function.update_self .., le_rfl⟩
      · exact reaches_update found le (fair top before)
    · intro b i owes
      rw [stage] at owes
      obtain ⟨reached, before, within⟩ := owes
      exact .inr (Stage.owes_afterBump i rest (within.trans (covers reached before)))
    · exact fun _ i _ x _ _ => .inl (Stage.owes_afterBump i rest ge)

theorem Levelled.step_raise {generation : Nat} {shard : Fin n} {rest : List (Fin n)}
    (stage : stages k = .raise generation shard rest) :
    ∃ stages', Levelled node tag (stepped crowd k request call clock) stages' := by
  obtain ⟨shape, -, reached, a, found⟩ := stage ▸ account.known k _ here
  have first : call = mergeTagOn shard tag generation >>= fun _ =>
      invalidated (VashStore.levelShards tag generation rest >>= fun _ =>
        pure (some generation)) := by
    rw [show call = _ from shape]
    simp only [invalidated, bind_assoc]
  refine account.merge here ready first found
    (Stage.known_afterLevel (reaches_update found (le_max_left _ _) reached) rest) ?_
    fun _ _ _ _ _ => .inr reached
  · intro b i owes
    rw [stage] at owes
    exact (List.mem_cons.mp owes.2).imp (⟨·, owes.1⟩) (Stage.owes_afterLevel owes.1)

theorem Levelled.step_meet {generation : Nat} {shard : Fin n} {rest : List (Fin n)}
    {effective holders : Nat} (stage : stages k = .meet generation shard rest effective holders) :
    ∃ stages', Levelled node tag (stepped crowd k request call clock) stages' := by
  obtain ⟨shape, fits, fair⟩ := stage ▸ account.known k _ here
  obtain rfl : call = _ := shape
  have seen := generationOf_eq (account.tags shard) tag
  have passes : ∀ effective' holders',
      (merged (node.mergeShards tag generation (shard :: rest) effective holders)).advance submit
          clock crowd.parties =
        (merged (node.mergeShards tag generation rest effective' holders'), crowd.parties) →
      (∀ current, levels crowd.parties tag shard = some current → generation ≤ current) →
      ∃ stages', Levelled node tag (stepped crowd k request
        (merged (node.mergeShards tag generation (shard :: rest) effective holders)) clock)
        stages' := by
    intro effective' holders' taken above
    refine account.look here taken ready.jobs (Stage.known_afterMeet fits ?_ _ _) ?_
    · intro i out a found
      by_cases same : i = shard
      · subst same
        exact above a found
      · exact fair i (by simp [same, out]) a found
    · intro b i a found lt owes
      rw [stage] at owes
      rcases List.mem_cons.mp owes.2 with rfl | mem
      · have := above a found
        have := owes.1
        omega
      · exact Stage.owes_afterMeet owes.1 mem _ _
  cases found : levels crowd.parties tag shard with
  | none =>
    refine passes effective holders ?_ fun current same => by rw [found] at same; cases same
    simp only [VashStore.mergeShards, merged, Call.look_bind, Call.advance, seen.trans found]
  | some current =>
    by_cases ahead : current ≥ generation
    · refine passes (max effective current) (holders + 1) ?_ fun other same => ?_
      · simp only [VashStore.mergeShards, merged, Call.look_bind, Call.advance, seen.trans found,
          if_pos ahead]
      · rw [found, Option.some.injEq] at same
        omega
    · have known : (Stage.lift generation shard rest effective holders).Known node tag
          (levels crowd.parties tag) request _ := ⟨rfl, fits, fair, current, found⟩
      refine account.look here ?_ ready.jobs known fun b i a _ _ owes => by rwa [stage] at owes
      simp only [VashStore.mergeShards, merged, Call.look_bind, Call.advance, seen.trans found,
        if_neg ahead]

theorem Levelled.step_lift {generation : Nat} {shard : Fin n} {rest : List (Fin n)}
    {effective holders : Nat} (stage : stages k = .lift generation shard rest effective holders) :
    ∃ stages', Levelled node tag (stepped crowd k request call clock) stages' := by
  obtain ⟨shape, fits, fair, a, found⟩ := stage ▸ account.known k _ here
  have first : call = mergeTagOn shard tag generation >>= fun merged =>
      Node.merged (node.mergeShards tag generation rest (max effective merged) (holders + 1)) := by
    rw [show call = _ from shape]
    simp only [merged, bind_assoc]
  refine account.merge here ready first found (Stage.known_afterMeet fits ?_ _ _) ?_ ?_
  · intro i out x present
    by_cases same : i = shard
    · subst same
      rw [Function.update_self, Option.some.injEq] at present
      omega
    · rw [Function.update_of_ne same] at present
      exact fair i (by simp [same, out]) x present
  · intro b i owes
    rw [stage] at owes
    exact (List.mem_cons.mp owes.2).imp (⟨·, owes.1⟩) (Stage.owes_afterMeet owes.1 · _ _)
  · intro i ne x present lt
    by_cases mem : i ∈ rest
    · exact .inl (Stage.owes_afterMeet le_rfl mem _ _)
    · have := fair i (by simp [ne, mem]) x present
      omega

theorem Levelled.step_adopt {generation effective : Nat}
    (stage : stages k = .adopt generation effective) :
    ∃ stages', Levelled node tag (stepped crowd k request call clock) stages' := by
  obtain ⟨shape, -, fair⟩ := stage ▸ account.known k _ here
  have first : call = mergeTagOn (forKey node.hash tag) tag generation >>= fun merged =>
      .done (.merged (max effective merged)) := by
    rw [show call = _ from shape]
    simp only [merged, bind_assoc]
    rfl
  cases found : levels crowd.parties tag (forKey node.hash tag) with
  | some a =>
    refine account.merge here ready first found (.aside trivial) ?_ ?_
    · intro b i owes
      rw [stage] at owes
      exact .inl ⟨owes.2, owes.1⟩
    · intro i ne x present lt
      have := fair i ne x present
      omega
  | none =>
    subst first
    obtain ⟨tags, names, jobs, lands⟩ := ready
    unfold stepped
    rcases submit_mergeTag_absent clock found generation with
      ⟨replied, -, risen⟩ | ⟨⟨e, replied⟩, kept⟩
    · rw [advance_mergeTagOn replied] at tags names jobs lands ⊢
      refine account.register here tags names jobs (forKey node.hash tag) ?_ ?_ lands
        (.aside trivial) ?_
      · intro i ne
        rw [levels_submit risen, Function.update_of_ne ne]
      · intro a present
        exact absurd (found.symm.trans present) (by simp)
      · intro b i x present lt owes
        rw [stage] at owes
        obtain ⟨within, rfl⟩ := owes
        rw [levels_submit risen, Function.update_self, Option.some.injEq] at present
        omega
    · rw [advance_mergeTagOn_error replied] at tags names jobs ⊢
      refine account.stay here tags names jobs (levels_submit_same kept) (.aside trivial) ?_
      intro b i x present lt owes
      rw [stage] at owes
      obtain ⟨-, rfl⟩ := owes
      exact absurd (found.symm.trans present) (by simp)

theorem Levelled.step_aside (stage : stages k = .aside) :
    ∃ stages', Levelled node tag (stepped crowd k request call clock) stages' := by
  have spares : call.Only (Spares tag) := (stage ▸ account.known k _ here).here
  have only := spares.advance submit clock crowd.parties
  have free : ∀ {held' : Fin n → Option Nat} (b : Nat) (i : Fin n) (a : Nat), held' i = some a →
      a < b → (stages k).Owes node tag b i → Stage.aside.Owes node tag b i := by
    intro held' b i a _ _ owes
    rw [stage] at owes
    exact owes
  obtain ⟨tags, names, jobs, lands⟩ := ready
  unfold stepped
  cases call with
  | done a => exact account.stay here tags names jobs rfl (.aside only) free
  | fail e => exact account.stay here tags names jobs rfl (.aside only) free
  | look i next => exact account.stay here tags names jobs rfl (.aside only) free
  | submit i op next =>
    refine account.register here tags names jobs i ?_ ?_ lands (.aside only) free
    · intro j ne
      simp only [Call.advance, levels_update, Function.update_of_ne ne]
    · intro a found
      simp only [Call.advance, levels_update, Function.update_self]
      exact submit_spares spares.1 (account.names i) found

end Steps

end Account

/-! ### At rest -/

section Runs

variable {n : Nat} [NeZero n] (node : VashStore n)

/-- One event of a node. -/
def VashStore.step (crowd : TagCrowd n) (event : CrowdEvent TagRequest) : TagCrowd n :=
  crowd.step submit node.serve event

/-- The ids left on the shard suffice for the job that is handed to it. -/
def IdsLeft (crowd : TagCrowd n) : CrowdEvent TagRequest → Prop
  | .start _ => True
  | .advance index _ => ∀ job ∈ crowd.calls[index]?.bind fun entry => entry.2.nextJob,
      (crowd.parties job.1).counters.nextId + job.2.tagCount < 2 ^ 32

/-- A name is registered at the generation every shard has that has the name, and no
merge in progress offers more for it. -/
def RegistersLevel (crowd crowd' : TagCrowd n) : Prop :=
  ∀ i, ∀ row ∈ (crowd'.parties i).tables.tags.rows,
    (crowd.parties i).tables.tags.get row.1 = none →
      (∀ j, ∀ other ∈ (crowd.parties j).tables.tags.get row.1,
        other.generation = row.2.generation) ∧
      ∀ entry ∈ crowd.calls, ¬ entry.2.Ended → entry.1.offers row.1 ≤ row.2.generation

/-- What a run that stays level needs of each event. -/
def StaysLevel (crowd : TagCrowd n) (event : CrowdEvent TagRequest) : Prop :=
  IdsLeft crowd event ∧ RegistersLevel crowd (node.step crowd event)

variable {node} {tag : Bytes} {crowd : TagCrowd n} {stages : Nat → Stage n}

omit [NeZero n] in
theorem RegistersLevel.lands {crowd' : TagCrowd n} (level : RegistersLevel crowd crowd') :
    Lands tag crowd.calls (levels crowd.parties tag) (levels crowd'.parties tag) := by
  intro i s absent new
  obtain ⟨row, present, rfl⟩ := rowGeneration_eq_some new
  obtain ⟨all, merges⟩ := level i (tag, row) (Table.get_eq_some_iff.mp present)
    (rowGeneration_eq_none.mp absent)
  refine ⟨fun j d found => ?_, merges⟩
  obtain ⟨other, held, rfl⟩ := rowGeneration_eq_some found
  exact all j other held

theorem serve_tagging (request : TagRequest) : (node.serve request).Only Tagging := by
  cases request with
  | deleteByTag tag => exact (deleteByTag_only (fun _ => trivial) trivial).bind fun _ => trivial
  | mergeTagGeneration tag generation =>
    exact (mergeTagGeneration_only node (fun _ => trivial) generation).bind fun _ => trivial
  | setMany sets =>
    exact (setMany_only (fun _ => trivial) (fun _ => trivial) node sets).bind fun _ => trivial

variable (node tag) in
/-- A call just made owes nothing. -/
theorem known_start (held : Fin n → Option Nat) (request : TagRequest) :
    ∃ stage : Stage n, stage.Known node tag held request (node.serve request) := by
  cases request with
  | deleteByTag name =>
    by_cases same : name = tag
    · subst same
      exact ⟨_, Stage.known_afterBump (by simp) _⟩
    · exact ⟨.aside, .aside
        ((deleteByTag_only (fun _ => same) same).bind fun _ => trivial)⟩
  | mergeTagGeneration name generation =>
    by_cases same : name = tag
    · subst same
      exact ⟨_, Stage.known_afterMeet rfl (fun i out => absurd (List.mem_finRange i) out) _ _⟩
    · exact ⟨.aside, .aside
        ((mergeTagGeneration_only node (fun _ => same) generation).bind fun _ => trivial)⟩
  | setMany sets =>
    exact ⟨.aside, .aside
      ((setMany_only (fun _ => trivial) (fun _ => trivial) node sets).bind fun _ => trivial)⟩

theorem Levelled.start (account : Levelled node tag crowd stages) (request : TagRequest) :
    ∃ stages', Levelled node tag (node.step crowd (.start request)) stages' := by
  obtain ⟨stage, known⟩ := known_start node tag (levels crowd.parties tag) request
  refine ⟨Function.update stages crowd.calls.length stage, account.tags, account.names, ?_, ?_, ?_⟩
  · intro entry mem
    rcases List.mem_append.mp mem with old | new
    · exact account.jobs entry old
    · obtain rfl := List.mem_singleton.mp new
      exact serve_tagging request
  · intro k entry found
    change (crowd.calls ++ [(request, node.serve request)])[k]? = some entry at found
    by_cases last : k = crowd.calls.length
    · subst last
      rw [List.getElem?_append_right le_rfl, Nat.sub_self] at found
      obtain rfl := Option.some.inj found
      rw [Function.update_self]
      exact known
    · rw [Function.update_of_ne last]
      have inside : k < crowd.calls.length := by
        have := (List.getElem?_eq_some_iff.mp found).1
        simp only [List.length_append, List.length_singleton] at this
        omega
      rw [List.getElem?_append_left inside] at found
      exact account.known k entry found
  · intro i j a b low high lt
    obtain ⟨k, inside, owes⟩ := account.owed i j a b low high lt
    refine ⟨k, ?_, ?_⟩
    · simp only [VashStore.step, Crowd.step, List.length_append, List.length_singleton]
      omega
    · rwa [Function.update_of_ne (by omega)]

theorem Levelled.ready (account : Levelled node tag crowd stages) {k : Nat} {request : TagRequest}
    {call : NodeCall n WriteOutcome} {clock : Nat → Nat}
    (here : crowd.calls[k]? = some (request, call)) (left : IdsLeft crowd (.advance k clock))
    (level : RegistersLevel crowd (stepped crowd k request call clock)) :
    Ready tag crowd call clock := by
  have jobs := account.jobs _ (List.mem_of_getElem? here)
  refine ⟨?_, ?_, jobs.advance submit clock _, level.lands⟩
  · cases call with
    | submit i op next =>
      intro j
      simp only [Call.advance, Function.update_apply]
      split
      · exact submit_tagsKept (account.tags i) (left (i, op) (by simp [here, Call.nextJob]))
      · exact account.tags j
    | _ => exact account.tags
  · cases call with
    | submit i op next =>
      intro j
      simp only [Call.advance, Function.update_apply]
      split
      · exact submit_names jobs.1 (account.names i)
      · exact account.names j
    | _ => exact account.names

/-- Every event that stays level keeps the account. -/
theorem Levelled.step (account : Levelled node tag crowd stages) (event : CrowdEvent TagRequest)
    (level : StaysLevel node crowd event) :
    ∃ stages', Levelled node tag (node.step crowd event) stages' := by
  cases event with
  | start request => exact account.start request
  | advance k clock =>
    obtain ⟨left, level⟩ := level
    cases here : crowd.calls[k]? with
    | none =>
      simp only [VashStore.step, Crowd.step, here]
      exact ⟨stages, account⟩
    | some entry =>
      obtain ⟨request, call⟩ := entry
      have taken : node.step crowd (.advance k clock) = stepped crowd k request call clock := by
        simp only [VashStore.step, Crowd.step, here, stepped]
      rw [taken] at level ⊢
      have ready := account.ready here left level
      cases stage : stages k with
      | bump shard rest highest => exact account.step_bump here ready stage
      | level generation shard rest => exact account.step_level here ready stage
      | raise generation shard rest => exact account.step_raise here ready stage
      | meet generation shard rest effective holders =>
        exact account.step_meet here ready stage
      | lift generation shard rest effective holders =>
        exact account.step_lift here ready stage
      | adopt generation effective => exact account.step_adopt here ready stage
      | aside => exact account.step_aside here ready stage

/-- An ended call owes nothing. -/
theorem not_owes_of_ended {held : Fin n → Option Nat} {request : TagRequest}
    {call : NodeCall n WriteOutcome} {stage : Stage n}
    (known : stage.Known node tag held request call) (ended : call.Ended) {b : Nat} {i : Fin n} :
    ¬ stage.Owes node tag b i := by
  intro owes
  obtain ⟨here, -, -⟩ := known
  cases stage with
  | aside => exact owes
  | _ =>
    rw [show call = _ from here] at ended
    exact ended

/-- A node holds one generation per name: however invalidations, merges and tagged
writes interleave, once no call is in progress all shards that have a name hold the
same generation of it. -/
theorem node_holds_one_generation (node : VashStore n) (configs : Fin n → Config)
    (events : List (CrowdEvent TagRequest))
    (level : Along node.step (StaysLevel node) (.fresh configs) events)
    (quiet : (run node.step (.fresh configs) events).Quiet) (name : Bytes) (i j : Fin n) (a b : Nat)
    (low : ((run node.step (.fresh configs) events).parties i).engine.registry.generationOf name =
      some a)
    (high : ((run node.step (.fresh configs) events).parties j).engine.registry.generationOf name =
      some b) : a = b := by
  have fresh : ∃ stages, Levelled node name (.fresh configs) stages := by
    refine ⟨fun _ => .aside, fun i => .create (configs i), ?_, by simp [TagCrowd.fresh],
      by simp [TagCrowd.fresh], ?_⟩
    · intro i name found
      exact absurd rfl found
    · intro i j a b found
      cases found
  obtain ⟨stages, account⟩ := run_invariant
    (I := fun crowd => ∃ stages, Levelled node name crowd stages)
    (fun crowd event held allowed => held.elim fun _ account => account.step event allowed)
    fresh level
  rw [generationOf_eq (account.tags _)] at low high
  have settled : ∀ i j a b, levels (run node.step (.fresh configs) events).parties name i = some a →
      levels (run node.step (.fresh configs) events).parties name j = some b → ¬ a < b := by
    intro i j a b low high lt
    obtain ⟨k, inside, owes⟩ := account.owed i j a b low high lt
    have found := List.getElem?_eq_getElem inside
    exact not_owes_of_ended (account.known k _ found)
      (quiet _ (List.getElem_mem inside)) owes
  have := settled i j a b low high
  have := settled j i b a high low
  omega

end Runs

section Examples

instance decidableIdsLeft {n : Nat} (crowd : TagCrowd n) : ∀ event, Decidable (IdsLeft crowd event)
  | .start _ => .isTrue trivial
  | .advance index _ => inferInstanceAs (Decidable
      (∀ job ∈ crowd.calls[index]?.bind fun entry => entry.2.nextJob,
        (crowd.parties job.1).counters.nextId + job.2.tagCount < 2 ^ 32))

instance decidableStaysLevel {n : Nat} [NeZero n] (node : VashStore n) (crowd : TagCrowd n)
    (event : CrowdEvent TagRequest) : Decidable (StaysLevel node crowd event) :=
  inferInstanceAs (Decidable (IdsLeft crowd event ∧
    ∀ i, ∀ row ∈ ((node.step crowd event).parties i).tables.tags.rows,
      (crowd.parties i).tables.tags.get row.1 = none →
        (∀ j, ∀ other ∈ (crowd.parties j).tables.tags.get row.1,
          other.generation = row.2.generation) ∧
        ∀ entry ∈ crowd.calls, ¬ entry.2.Ended → entry.1.offers row.1 ≤ row.2.generation))

/-- Two shards, told apart by the first byte of a key. -/
def twoShards : VashStore 2 := ⟨fun key => (key.headD 0).toNat, .stable 2, 4⟩

def twoConfigs : Fin 2 → Config := fun _ => firstByteConfig 1000

/-- A write of `key` under the tag `[7]`. -/
def taggedWrite (key : Bytes) : TagRequest := .setMany [⟨key, [], .set 0, 0, [[7]], .set, false⟩]

/-- A tagged write on the first shard, an invalidation, and a tagged write on the
second shard while another invalidation is under way. -/
def levelRun : List (CrowdEvent TagRequest) :=
  [.start (taggedWrite [0])] ++ advances 100 0 6 ++ [.start (.deleteByTag [7])] ++
    advances 100 1 1 ++ [.start (taggedWrite [1])] ++ advances 100 2 6 ++ advances 100 1 4

theorem node_holds_one_generation_levelled :
    (run twoShards.step (.fresh twoConfigs) levelRun).Quiet ∧
      ((run twoShards.step (.fresh twoConfigs) levelRun).parties 0).engine.registry.generationOf
        [7] = some 2 ∧
      ∀ j b, ((run twoShards.step (.fresh twoConfigs)
        levelRun).parties j).engine.registry.generationOf [7] = some b → 2 = b :=
  ⟨by decide +kernel, by decide +kernel, fun j b =>
    node_holds_one_generation twoShards twoConfigs levelRun (by decide +kernel) (by decide +kernel)
      [7] 0 j 2 b (by decide +kernel)⟩

/-- The write of `[1]` looks the generation up before the invalidation and registers
the tag after it. -/
def lateRun : List (CrowdEvent TagRequest) :=
  [.start (taggedWrite [0])] ++ advances 100 0 6 ++ [.start (taggedWrite [1])] ++
    advances 100 1 3 ++ [.start (.deleteByTag [7])] ++ advances 100 2 4 ++ advances 100 1 3

theorem late_registration_diverges :
    (run twoShards.step (.fresh twoConfigs) lateRun).Quiet ∧
      ((run twoShards.step (.fresh twoConfigs) lateRun).parties 0).engine.registry.generationOf
        [7] = some 1 ∧
      ((run twoShards.step (.fresh twoConfigs) lateRun).parties 1).engine.registry.generationOf
        [7] = some 0 := by
  decide +kernel

end Examples

end Vash.Node
