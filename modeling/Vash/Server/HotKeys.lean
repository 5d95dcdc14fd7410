import Vash.Library.SpaceSaving
import Vash.Core.Basic

/-!
# Hot keys and hot tags

The summaries behind the two rankings, one per lane. Both are Space-Saving summaries;
the one over keys counts reads and writes apart, and what a key takes over from the
one before it in its slot is put down as reads.

* `HotKeys.summary_keeps_its_guarantee`, `HotTags.after_tallies` — what they say of any
  stream.
-/

namespace Vash.Server

open Library

/-! ### Keys -/

namespace HotKeys

/-- `MAX_KEPT_KEY`. -/
def maxKeptKey : Nat := 128

/-- `Counter`. -/
structure Counter where
  digest : Nat
  key : Bytes
  truncated : Bool
  readSamples : Nat
  writeSamples : Nat
  error : Nat
  deriving DecidableEq, Repr

/-- `total`. -/
def Counter.total (c : Counter) : Nat := c.readSamples + c.writeSamples

/-- One sampled request: the digest of its key, the key, and whether it writes. -/
structure Observation where
  digest : Nat
  key : Bytes
  write : Bool
  deriving DecidableEq, Repr

/-- `Summary`. -/
structure Summary where
  counters : List Counter
  sampled : Nat
  deriving DecidableEq, Repr

namespace Summary

/-- `Summary::default`. -/
def empty : Summary := ⟨[], 0⟩

/-- `observe`. -/
def observe (capacity : Nat) (s : Summary) (o : Observation) : Summary :=
  let sampled := s.sampled + 1
  if s.counters.any fun c => c.digest = o.digest then
    ⟨modifyFirst (fun c => c.digest = o.digest) (fun c =>
      if o.write then { c with writeSamples := c.writeSamples + 1 }
      else { c with readSamples := c.readSamples + 1 }) s.counters, sampled⟩
  else if s.counters.length < capacity then
    ⟨s.counters ++ [⟨o.digest, o.key.take maxKeptKey, decide (o.key.length > maxKeptKey),
      (!o.write).toNat, o.write.toNat, 0⟩], sampled⟩
  else
    -- the first of the counters with the least total is the victim
    ⟨modifyFirst (isLeast Counter.total s.counters) (fun c =>
      ⟨o.digest, o.key.take maxKeptKey, decide (o.key.length > maxKeptKey),
        c.total + (!o.write).toNat, o.write.toNat, c.total⟩) s.counters, sampled⟩

/-- A summary after a stream of observations. -/
def after (capacity : Nat) (stream : List Observation) : Summary :=
  stream.foldl (observe capacity) empty

end Summary

/-- A counter as a slot of the library's summary. -/
def Counter.slot (c : Counter) : Slot Nat := ⟨c.digest, c.total, c.error⟩

theorem any_slot (counters : List Counter) (digest : Nat) :
    ((counters.map Counter.slot).any fun slot => slot.item = digest) =
      counters.any fun c => c.digest = digest := by
  rw [List.any_map]
  rfl

theorem isLeast_slot (counters : List Counter) (c : Counter) :
    isLeast Slot.count (counters.map Counter.slot) c.slot = isLeast Counter.total counters c := by
  rw [isLeast, List.all_map]
  rfl

/-- The summary over keys is a summary over their digests. -/
theorem Summary.observe_slots (capacity : Nat) (s : Summary) (o : Observation) :
    (s.observe capacity o).counters.map Counter.slot =
      offer capacity (s.counters.map Counter.slot) o.digest := by
  unfold Summary.observe offer
  rw [any_slot, List.length_map]
  dsimp only
  split
  · refine map_modifyFirst (fun _ _ => rfl) fun c => ?_
    cases o.write
    · simp only [Counter.slot, Counter.total, Bool.false_eq_true, if_false]
      rw [Nat.add_right_comm]
    · simp only [Counter.slot, Counter.total, if_true, Nat.add_assoc]
  · split
    · cases o.write <;> simp [Counter.slot, Counter.total]
    · refine map_modifyFirst (fun c _ => isLeast_slot s.counters c) fun c => ?_
      cases o.write <;> simp [Counter.slot, Counter.total]

/-! ### Streams -/

/-- The observations of a digest. -/
def seen (stream : List Observation) (digest : Nat) : Nat :=
  stream.countP fun o => o.digest = digest

/-- The observations of a digest that write. -/
def written (stream : List Observation) (digest : Nat) : Nat :=
  stream.countP fun o => o.digest = digest ∧ o.write

theorem seen_eq (stream : List Observation) (digest : Nat) :
    seen stream digest = (stream.map Observation.digest).count digest := by
  rw [seen, List.count, List.countP_map]
  exact List.countP_congr fun o _ => by simp

/-- What a summary says of the stream it has seen. -/
structure Reflects (capacity : Nat) (stream : List Observation) (s : Summary) : Prop where
  tallies : Tallies capacity (stream.map Observation.digest) (s.counters.map Counter.slot)
  sampled : s.sampled = stream.length
  writes : ∀ c ∈ s.counters, c.writeSamples ≤ written stream c.digest

theorem written_snoc (stream : List Observation) (o : Observation) (digest : Nat) :
    written (stream ++ [o]) digest =
      written stream digest + if o.digest = digest ∧ o.write = true then 1 else 0 := by
  rw [written, List.countP_append, List.countP_singleton]
  simp only [decide_eq_true_eq]
  rfl

/-- Writes are counted where their key has its counter, and start over with a new key. -/
theorem observe_writes {capacity : Nat} {stream : List Observation} {s : Summary}
    (writes : ∀ c ∈ s.counters, c.writeSamples ≤ written stream c.digest) (o : Observation) :
    ∀ c ∈ (s.observe capacity o).counters, c.writeSamples ≤ written (stream ++ [o]) c.digest := by
  have kept : ∀ c ∈ s.counters, c.writeSamples ≤ written (stream ++ [o]) c.digest := by
    intro c mem
    rw [written_snoc]
    exact (writes c mem).trans (Nat.le_add_right _ _)
  have new : o.write.toNat ≤ written (stream ++ [o]) o.digest := by
    rw [written_snoc]
    cases o.write <;> simp
  intro c mem
  unfold Summary.observe at mem
  dsimp only at mem
  split at mem
  · rcases mem_modifyFirst mem with old | ⟨before, held, here, rfl⟩
    · exact kept c old
    · have same : o.digest = before.digest := (of_decide_eq_true here).symm
      have more := writes before held
      cases writing : o.write with
      | true =>
        simp only [written_snoc, writing, same, if_true, and_self]
        omega
      | false => simpa [writing] using kept before held
  · split at mem
    · rcases List.mem_append.mp mem with old | added
      · exact kept c old
      · obtain rfl := List.mem_singleton.mp added
        exact new
    · rcases mem_modifyFirst mem with old | ⟨victim, -, -, rfl⟩
      · exact kept c old
      · exact new

theorem Reflects.observe {capacity : Nat} (positive : 1 ≤ capacity) {stream : List Observation}
    {s : Summary} (reflects : Reflects capacity stream s) (o : Observation) :
    Reflects capacity (stream ++ [o]) (s.observe capacity o) where
  tallies := by
    rw [Summary.observe_slots, List.map_append]
    exact offer_tallies positive reflects.tallies o.digest
  sampled := by
    have counted : (s.observe capacity o).sampled = s.sampled + 1 := by
      unfold Summary.observe
      dsimp only
      split
      · rfl
      · split <;> rfl
    rw [counted, reflects.sampled, List.length_append, List.length_singleton]
  writes := observe_writes reflects.writes o

theorem after_reflects {capacity : Nat} (positive : 1 ≤ capacity) (stream : List Observation) :
    Reflects capacity stream (.after capacity stream) := by
  induction stream using List.reverseRecOn with
  | nil => exact ⟨.empty capacity, rfl, by simp [Summary.after, Summary.empty]⟩
  | append_singleton stream o ih =>
    rw [Summary.after, List.foldl_append]
    exact ih.observe positive o

/-- The Space-Saving guarantee, for every capacity and every stream of observations:
there are at most `capacity` counters, one for each digest held, and their totals add up
to the samples; a total is not below the true count and above it by at most the error; no
write is counted that was not seen; and every digest that makes up more than one in
`capacity` of the samples is held. -/
theorem summary_keeps_its_guarantee (capacity : Nat) (positive : 1 ≤ capacity)
    (stream : List Observation) :
    (Summary.after capacity stream).counters.length ≤ capacity ∧
    ((Summary.after capacity stream).counters.map Counter.total).sum =
      (Summary.after capacity stream).sampled ∧
    (∀ c ∈ (Summary.after capacity stream).counters,
      c.total - c.error ≤ seen stream c.digest ∧ seen stream c.digest ≤ c.total ∧
        c.writeSamples ≤ written stream c.digest) ∧
    (∀ digest, seen stream digest > (Summary.after capacity stream).sampled / capacity →
      ∃ c ∈ (Summary.after capacity stream).counters, c.digest = digest) ∧
    ((Summary.after capacity stream).counters.map Counter.digest).Nodup := by
  obtain ⟨tallies, sampled, writes⟩ := after_reflects positive stream
  have slot : ∀ c ∈ (Summary.after capacity stream).counters,
      c.slot ∈ (Summary.after capacity stream).counters.map Counter.slot :=
    fun c mem => List.mem_map_of_mem mem
  refine ⟨?_, ?_, fun c mem => ⟨?_, ?_, writes c mem⟩, fun digest frequent => ?_, ?_⟩
  · simpa using tallies.bounded
  · have total := tallies.total
    rw [List.map_map, List.length_map] at total
    exact total.trans sampled.symm
  · have below := tallies.below c.slot (slot c mem)
    rw [← seen_eq] at below
    exact Nat.sub_le_iff_le_add.mpr below
  · have above := tallies.above c.slot (slot c mem)
    rwa [← seen_eq] at above
  · rw [sampled, gt_iff_lt, Nat.div_lt_iff_lt_mul positive, seen_eq] at frequent
    obtain ⟨_, held, here⟩ := tallies.holds_frequent (by rwa [List.length_map])
    obtain ⟨c, mem, rfl⟩ := List.mem_map.mp held
    exact ⟨c, mem, here⟩
  · have distinct := tallies.distinct
    rwa [List.map_map] at distinct

/-- Three keys on two counters: the third takes the slot of the second. -/
def threeKeys : List Observation :=
  [⟨1, [1], false⟩, ⟨1, [1], true⟩, ⟨2, [2], true⟩, ⟨3, [3], false⟩]

theorem summary_keeps_its_guarantee_evicting :
    (Summary.after 2 threeKeys).counters =
        [⟨1, [1], false, 1, 1, 0⟩, ⟨3, [3], false, 2, 0, 1⟩] ∧
      ∀ digest, seen threeKeys digest > (Summary.after 2 threeKeys).sampled / 2 →
        ∃ c ∈ (Summary.after 2 threeKeys).counters, c.digest = digest :=
  ⟨by decide, (summary_keeps_its_guarantee 2 (by decide) threeKeys).2.2.2.1⟩

end HotKeys

/-! ### Tags -/

namespace HotTags

/-- `MAX_KEPT_TAG`. -/
def maxKeptTag : Nat := 128

/-- `Counter` of the tags. -/
structure Counter where
  digest : Nat
  name : Bytes
  truncated : Bool
  invalidations : Nat
  error : Nat
  deriving DecidableEq, Repr

/-- `Summary` of the tags. -/
structure Summary where
  counters : List Counter
  total : Nat
  deriving DecidableEq, Repr

/-- `observe`, for a tag. -/
def Summary.observe (capacity : Nat) (s : Summary) (digest : Nat) (name : Bytes) : Summary :=
  let total := s.total + 1
  if s.counters.any fun c => c.digest = digest then
    ⟨modifyFirst (fun c => c.digest = digest)
      (fun c => { c with invalidations := c.invalidations + 1 }) s.counters, total⟩
  else if s.counters.length < capacity then
    ⟨s.counters ++ [⟨digest, name.take maxKeptTag, decide (name.length > maxKeptTag), 1, 0⟩], total⟩
  else
    ⟨modifyFirst (isLeast Counter.invalidations s.counters) (fun c =>
      ⟨digest, name.take maxKeptTag, decide (name.length > maxKeptTag), c.invalidations + 1,
        c.invalidations⟩) s.counters, total⟩

/-- A counter as a slot of the library's summary. -/
def Counter.slot (c : Counter) : Slot Nat := ⟨c.digest, c.invalidations, c.error⟩

/-- The summary over tags is a summary over their digests. -/
theorem Summary.observe_slots (capacity : Nat) (s : Summary) (digest : Nat) (name : Bytes) :
    (s.observe capacity digest name).counters.map Counter.slot =
      offer capacity (s.counters.map Counter.slot) digest := by
  unfold Summary.observe offer
  rw [List.any_map, List.length_map]
  dsimp only
  change _ = if (s.counters.any fun c => c.digest = digest) = true then _ else _
  split
  · exact map_modifyFirst (fun _ _ => rfl) fun _ => rfl
  · split
    · simp [Counter.slot]
    · refine map_modifyFirst (fun c _ => ?_) fun _ => rfl
      rw [isLeast, List.all_map]
      rfl

/-- A summary after a stream of invalidations. -/
def Summary.after (capacity : Nat) (stream : List (Nat × Bytes)) : Summary :=
  stream.foldl (fun s tag => s.observe capacity tag.1 tag.2) ⟨[], 0⟩

/-- The summary over tags accounts for every stream of invalidations. -/
theorem after_tallies {capacity : Nat} (positive : 1 ≤ capacity) (stream : List (Nat × Bytes)) :
    Tallies capacity (stream.map Prod.fst)
      ((Summary.after capacity stream).counters.map Counter.slot) := by
  induction stream using List.reverseRecOn with
  | nil => exact .empty capacity
  | append_singleton stream tag ih =>
    rw [Summary.after, List.foldl_append, List.map_append, List.foldl_cons, List.foldl_nil,
      Summary.observe_slots]
    exact offer_tallies positive ih tag.1

theorem after_total (capacity : Nat) (stream : List (Nat × Bytes)) :
    (Summary.after capacity stream).total = stream.length := by
  induction stream using List.reverseRecOn with
  | nil => rfl
  | append_singleton stream tag ih =>
    have counted : ∀ s : Summary, (s.observe capacity tag.1 tag.2).total = s.total + 1 := by
      intro s
      unfold Summary.observe
      dsimp only
      split
      · rfl
      · split <;> rfl
    rw [Summary.after, List.foldl_append, List.foldl_cons, List.foldl_nil, counted,
      List.length_append, List.length_singleton]
    exact congrArg (· + 1) ih

/-- How often a tag was invalidated. -/
def invalidated (stream : List (Nat × Bytes)) (digest : Nat) : Nat :=
  (stream.map Prod.fst).count digest

/-- The Space-Saving guarantee over the invalidations of tags: the counters stay within
`capacity`, one for each digest held, and add up to the length of the stream; a counter is not
below the true number and above it by at most its error; every tag that makes up more than
one in `capacity` of the invalidations is held. -/
theorem tags_keep_their_guarantee (capacity : Nat) (positive : 1 ≤ capacity)
    (stream : List (Nat × Bytes)) :
    (Summary.after capacity stream).counters.length ≤ capacity ∧
    (Summary.after capacity stream).total = stream.length ∧
    ((Summary.after capacity stream).counters.map Counter.invalidations).sum = stream.length ∧
    (∀ c ∈ (Summary.after capacity stream).counters,
      c.invalidations - c.error ≤ invalidated stream c.digest ∧
        invalidated stream c.digest ≤ c.invalidations) ∧
    (∀ digest, invalidated stream digest > stream.length / capacity →
      ∃ c ∈ (Summary.after capacity stream).counters, c.digest = digest) ∧
    ((Summary.after capacity stream).counters.map Counter.digest).Nodup := by
  have tallies := after_tallies positive stream
  have slot : ∀ c ∈ (Summary.after capacity stream).counters,
      c.slot ∈ (Summary.after capacity stream).counters.map Counter.slot :=
    fun c mem => List.mem_map_of_mem mem
  refine ⟨?_, after_total capacity stream, ?_,
    fun c mem => ⟨?_, tallies.above c.slot (slot c mem)⟩, ?_, ?_⟩
  · simpa using tallies.bounded
  · have total := tallies.total
    rwa [List.map_map, List.length_map] at total
  · exact Nat.sub_le_iff_le_add.mpr (tallies.below c.slot (slot c mem))
  · intro digest frequent
    rw [gt_iff_lt, Nat.div_lt_iff_lt_mul positive] at frequent
    obtain ⟨_, held, here⟩ := tallies.holds_frequent (by rwa [List.length_map])
    obtain ⟨c, mem, rfl⟩ := List.mem_map.mp held
    exact ⟨c, mem, here⟩
  · have distinct := tallies.distinct
    rwa [List.map_map] at distinct

/-- Three tags on two counters: the third takes the counter of the second. -/
theorem tags_keep_their_guarantee_evicting :
    (Summary.after 2 [(1, [1]), (1, [1]), (2, [2]), (3, [3])]).counters =
        [⟨1, [1], false, 2, 0⟩, ⟨3, [3], false, 2, 1⟩] ∧
      ((Summary.after 2 [(1, [1]), (1, [1]), (2, [2]), (3, [3])]).counters.map
        Counter.digest).Nodup :=
  ⟨by decide, (tags_keep_their_guarantee 2 (by decide) _).2.2.2.2.2⟩

end HotTags

end Vash.Server
