/-
# The vocabulary of writes

The request and answer types of `vash_core::command` that reach the store.
-/

import Vash.Core.Arith

namespace Vash

inductive ExpireGuard where
  | always
  | ifPersistent
  | ifVolatile
  | ifLater
  | ifEarlier
  deriving DecidableEq, Repr

inductive BatchGuard where
  | always
  | ifAllAbsent
  | ifAllPresent
  deriving DecidableEq, Repr

inductive SetMode where
  | set
  | add
  | replace
  | append
  | prepend
  | cas (token : Nat)
  deriving DecidableEq, Repr

/-- The verdict on a guarded write. -/
inductive Stored where
  | stored (cas : Nat)
  | notStored
  | keyExists
  | notFound
  deriving DecidableEq, Repr

/-- The token a verdict carries to the client. -/
def Stored.tokens : Stored → List Nat
  | .stored cas => [cas]
  | _ => []

/-- A write as a client asks for it: the tags are names. -/
structure SetRequest where
  key : Bytes
  value : Bytes
  ttl : TtlChange
  mcFlags : Nat
  tags : List Bytes
  mode : SetMode
  returnPrevious : Bool
  deriving DecidableEq, Repr

/-- A value as a client is served it. -/
structure Value where
  data : Bytes
  mcFlags : Nat
  cas : Nat
  expiresAtMs : Option Nat
  deriving DecidableEq, Repr

/-- The value a client is served of a record. -/
def Record.toValue (r : Record) : Value :=
  ⟨r.value, r.header.mcFlags, r.header.cas, some r.header.expiresAtMs⟩

end Vash
