import Vash.Core.Request
import Vash.Node.Store

/-!
# Executing a command

The boundary the three dialects meet at: `dispatch.rs`. A command that reads or
writes records becomes one call of the store, and its outcome a reply.
-/

namespace Vash.Server

open Library Store Node

/-! ### Replies -/

/-- `Reply`, as the commands on records are answered. -/
inductive Reply where
  | value (value : Value)
  | values (values : List (Option Value))
  | stored (outcome : Stored)
  | swapped (outcome : Stored) (previous : Option Value)
  | storedMany (cas : List Nat)
  | applied (applied : Bool)
  | length (length : Nat)
  | deadline (deadline : Option Nat)
  | deadlines (deadlines : List (Option Nat))
  | deleted
  | deletedMany (hits : List Bool)
  | touched
  | arithmetic (applied : Applied)
  | notFound
  deriving DecidableEq, Repr

/-- The reply reports a record that was written. -/
def Reply.wrote : Reply → Bool
  | .stored (.stored _) => true
  | .swapped (.stored _) _ => true
  | .storedMany _ => true
  | .applied done => done
  | .length _ => true
  | .touched => true
  | .arithmetic result => result.wrote
  | _ => false

/-! ### Commands on records -/

/-- `batchable`: the unconditional write a run of writes may hold back. -/
def batchable : Command → Option SetRequest
  | .set set => if set.mode = .set ∧ set.returnPrevious = false then some set else none
  | _ => none

section Execute

variable {n : Nat} [NeZero n] (node : VashStore n)

/-- The arms of `execute_inner` that read or write records. The other commands work
on the tag table or answer from the server's own state. -/
def executeRecord : Command → Option (NodeCall n Reply)
  | .get key => some do
    match ← node.get key with
    | some value => return .value value
    | none => return .notFound
  | .getMany keys => some do return .values (← node.getMany keys)
  | .set set => some do
    let written ← node.store set
    if set.returnPrevious then return .swapped written.outcome written.previous
    else return .stored written.outcome
  | .getAndTouch keys ttlSecs => some do return .values (← node.getAndTouch keys ttlSecs)
  | .deadline key => some do return .deadline (← node.deadline key)
  | .deadlines keys => some do return .deadlines (← node.deadlines keys)
  | .expire key ttl guard => some do return .applied (← node.expire key ttl guard)
  | .append key suffix => some do return .length (← node.append key suffix)
  | .arithmetic op => some do
    match ← node.arithmetic op with
    | some applied => return .arithmetic applied
    | none => return .notFound
  | .setMany sets .always => some do return .storedMany (← node.setMany sets)
  | .setMany sets guard => some do
    if ← node.setManyIf sets guard then return .storedMany []
    else return .stored .notStored
  | .delete key => some do
    if ← node.delete key then return .deleted else return .notFound
  | .deleteMany keys => some do return .deletedMany (← node.deleteMany keys)
  | .touch key ttlSecs => some do
    if ← node.touch key ttlSecs then return .touched else return .notFound
  | _ => none

end Execute

end Vash.Server
