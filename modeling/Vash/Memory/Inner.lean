/-
# The store in memory

`MemoryStore`, the fake the server is tested against: its records, its tags and
what it takes for a live record.
-/

import Vash.Core.Request
import Vash.Library.Table

namespace Vash.Memory

open Library

/-- `Entry`: a record with the generations of its tags as they were. -/
structure Entry where
  value : Bytes
  mcFlags : Nat
  cas : Nat
  expiresAtMs : Nat
  epoch : Nat
  tags : List (Nat × Nat)
  deriving DecidableEq, Repr

structure TagState where
  id : Nat
  generation : Nat
  deriving DecidableEq, Repr

/-- `Inner`. -/
structure Inner where
  entries : Table Bytes Entry
  tags : Table Bytes TagState
  nextTagId : Nat
  epoch : Nat
  nextCas : Nat
  deriving DecidableEq

/-- `alive`. -/
def Inner.alive (inner : Inner) (entry : Entry) (nowMs : Nat) : Bool :=
  if entry.epoch ≠ inner.epoch then false
  else if entry.expiresAtMs ≠ never ∧ entry.expiresAtMs ≤ nowMs then false
  else
    entry.tags.all fun tag =>
      ((inner.tags.rows.map Prod.snd).find? fun state => state.id = tag.1).any fun state =>
        state.generation = tag.2

/-- What a store holds: its records stand under keys. -/
structure Contents extends Inner where
  isKey : ∀ row ∈ entries.rows, IsKey row.1

end Vash.Memory
