import Vash.Core.Glob
import Vash.Library.Wire

/-!
# Cursors of a key listing

What a page of a listing is, and the cursor that travels to the client: the shard
to resume in, as two bytes, and the key to resume strictly after.

* `decode_encode` — a cursor is read back, if its shard fits the two bytes.
-/

namespace Vash

/-- `ListEntry`. -/
structure ListEntry where
  name : Bytes
  version : Nat
  expiresAtMs : Option Nat
  deriving DecidableEq, Repr

/-- `ListEntry::record`. -/
def ListEntry.record (name : Bytes) (version expiresAtMs : Nat) : ListEntry :=
  ⟨name, version, some expiresAtMs⟩

/-- `Listing`: one page. -/
structure Listing where
  entries : List ListEntry := []
  scanned : Nat := 0
  cursor : Option Bytes := none
  truncated : Bool := false
  deriving DecidableEq, Repr

namespace Listing

open Library

/-- `SHARD_PREFIX_LEN`. -/
def shardPrefixLen : Nat := 2

/-- `listing::encode`: the shard is cut to sixteen bits. -/
def encode (shard : Nat) (key : Bytes) : Bytes := leBytes shardPrefixLen shard ++ key

/-- `listing::decode`. -/
def decode (cursor : Bytes) (shards : Nat) : Except CoreError (Nat × Option Bytes) :=
  if cursor = [] then .ok (0, none)
  else if cursor.length < shardPrefixLen then .error (.badCursor "shorter than its shard index")
  else
    let shard := leValue (cursor.take shardPrefixLen)
    let key := cursor.drop shardPrefixLen
    if shard ≥ shards then .error (.badCursor "names a shard this server does not have")
    else if key = [] then .error (.badCursor "names no key")
    else if key.length > maxKeyLen then .error (.badCursor "key is longer than any key can be")
    else .ok (shard, some key)

/-- What a cursor is read as: its shard modulo `2 ^ 16`. -/
theorem decode_encode {shard shards : Nat} {key : Bytes} (isKey : IsKey key)
    (known : shard % 2 ^ 16 < shards) :
    decode (encode shard key) shards = .ok (shard % 2 ^ 16, some key) := by
  have long : (encode shard key).length = shardPrefixLen + key.length := by simp [encode]
  have index : leValue ((encode shard key).take shardPrefixLen) = shard % 2 ^ 16 := by
    rw [encode, List.take_left' (length_leBytes _ _), leValue_leBytes]
    rfl
  have rest : (encode shard key).drop shardPrefixLen = key := by
    rw [encode, List.drop_left' (length_leBytes _ _)]
  have nonempty : encode shard key ≠ [] := by
    rw [← List.length_pos_iff, long, shardPrefixLen]
    omega
  have named : key ≠ [] := List.length_pos_iff.mp isKey.1
  rw [decode, if_neg nonempty, if_neg (by omega)]
  simp only [index, rest]
  rw [if_neg (not_le.mpr known), if_neg named, if_neg (not_lt.mpr isKey.2)]

end Listing

end Vash
