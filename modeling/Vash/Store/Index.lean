/-
# Index keys

Where a record is indexed: by the bucket its deadline falls in and by each of
its tags, with the hash of the user key making either key unique.
-/

import Vash.Store.Engine

namespace Vash.Store

/-! ### Expiry buckets -/

/-- `NEVER_BUCKET`. -/
def neverBucket : Nat := u64Max

/-- `bucket`: a deadline rounded up to the granularity. -/
def bucket (expiresAtMs granularityMs : Nat) : Nat :=
  if granularityMs ≤ 1 then expiresAtMs
  else if expiresAtMs + (granularityMs - 1) ≤ u64Max then
    (expiresAtMs + (granularityMs - 1)) / granularityMs * granularityMs
  else u64Max

/-- `bucket_for`: records that never expire sort last. -/
def bucketFor (expiresAtMs granularityMs : Nat) : Nat :=
  if expiresAtMs = never then neverBucket else bucket expiresAtMs granularityMs

/-- `expiry::encode_key`. -/
def encodeKey (config : Config) (expiresAtMs : Nat) (userKey : Bytes) : IndexKey :=
  toLex (bucketFor expiresAtMs config.bucketGranularityMs, config.hash userKey)

/-- `reclaim::index_key`. -/
def indexKey (config : Config) (tagId : Nat) (userKey : Bytes) : IndexKey :=
  toLex (tagId, config.hash userKey)

/-- A deadline is never rounded down, unless it saturates. -/
theorem le_bucket (expiresAtMs granularityMs : Nat) :
    expiresAtMs ≤ bucket expiresAtMs granularityMs ∨
      bucket expiresAtMs granularityMs = u64Max := by
  unfold bucket
  split
  · exact .inl le_rfl
  · split
    · left
      rename_i large _
      have rem := Nat.mod_lt (expiresAtMs + (granularityMs - 1)) (by omega : granularityMs > 0)
      have split := Nat.div_add_mod (expiresAtMs + (granularityMs - 1)) granularityMs
      rw [Nat.mul_comm] at split
      omega
    · exact .inr rfl

theorem encodeKey_inj {config : Config} {e e' : Nat} {k k' : Bytes} :
    encodeKey config e k = encodeKey config e' k' ↔
      bucketFor e config.bucketGranularityMs = bucketFor e' config.bucketGranularityMs ∧
        config.hash k = config.hash k' := by
  simp [encodeKey]

end Vash.Store
