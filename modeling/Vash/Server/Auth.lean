import Vash.Core.Request
import Vash.Server.Credentials

/-!
# The gate in front of every command

What a connection has authenticated as, and the one decision behind every gate
(`AuthState::refusal`).
-/

namespace Vash.Server

/-- `ConnAuth`. -/
structure ConnAuth where
  identity : Option Identity
  failures : Nat
  deriving DecidableEq, Repr

namespace ConnAuth

/-- `is_authenticated`. -/
def isAuthenticated (conn : ConnAuth) : Bool := conn.identity.isSome

/-- `succeed`. -/
def succeed (conn : ConnAuth) (identity : Identity) : ConnAuth :=
  { conn with identity := some identity }

/-- `fail`. -/
def fail (conn : ConnAuth) : ConnAuth := { conn with failures := min (conn.failures + 1) u32Max }

end ConnAuth

/-- `Refused`. -/
inductive Refused where
  | unauthenticated
  | missing (roles : Roles)
  deriving DecidableEq, Repr

/-- `AuthState`: whether it is enforced, and the table with the digest its secrets are kept by. -/
structure AuthState where
  required : Bool
  table : Credentials
  sha256 : Bytes → Bytes

namespace AuthState

/-- `DEFAULT_NAME`. -/
def defaultName : Text := "default".toList

/-- `configured`. -/
def configured (auth : AuthState) : Bool := !auth.table.rows.isEmpty

/-- `verify`, on the table as it stands. -/
def verify (auth : AuthState) (name secret : Bytes) : Option Identity :=
  Credentials.verify auth.sha256 auth.table name secret

/-- `AuthState::refusal`. -/
def refusal (auth : AuthState) (conn : ConnAuth) (needed : Roles) : Option Refused :=
  match conn.identity with
  | none => if auth.required then some .unauthenticated else none
  | some identity =>
    if identity.roles.allows needed then none else some (.missing (identity.roles.missing needed))

end AuthState

end Vash.Server
