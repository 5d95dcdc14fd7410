import Vash.Core.Basic

/-!
# Roles

The authority of a credential is a set of roles, kept as bits. A list of roles names
each of them once; what it names is what the set allows.

* `parseList_ok_iff` — the lists that are accepted, and the set they come to.
* `allows_grant` — that set allows the roles on the list, and of the named ones no other.
-/

namespace Vash.Server

/-- A `str`, as its characters. -/
abbrev Text := List Char

/-- `Roles`. -/
structure Roles where
  bits : Nat
  deriving DecidableEq, Repr

/-- Why a list of roles is refused. -/
inductive RoleError where
  | empty
  | unknown (name : Text)
  | listedTwice (name : Text)
  deriving DecidableEq, Repr

namespace Roles

def none : Roles := ⟨0⟩

def read : Roles := ⟨0x01⟩

def write : Roles := ⟨0x02⟩

def invalidate : Roles := ⟨0x04⟩

def list : Roles := ⟨0x08⟩

def flush : Roles := ⟨0x10⟩

def peer : Roles := ⟨0x20⟩

/-- Every bit, also those of roles there are not yet. -/
def unrestricted : Roles := ⟨0xff⟩

/-- `NAMED`. -/
def named : List (Roles × Text) :=
  [(read, "read".toList), (write, "write".toList), (invalidate, "invalidate".toList),
    (list, "list".toList), (flush, "flush".toList), (peer, "peer".toList)]

/-- `allows`. -/
def allows (roles needed : Roles) : Bool := roles.bits &&& needed.bits = needed.bits

/-- `missing`. -/
def missing (roles needed : Roles) : Roles := ⟨needed.bits &&& (roles.bits ^^^ 0xff)⟩

/-- `union`. -/
def union (roles other : Roles) : Roles := ⟨roles.bits ||| other.bits⟩

/-- What the fused commands need. -/
def readWrite : Roles := read.union write

/-- `from_name`. -/
def fromName (name : Text) : Option Roles :=
  (named.find? fun known => known.2 = name).map Prod.fst

/-- The loop of `parse_list`. -/
def parseNames : List Text → Roles → Except RoleError Roles
  | [], roles => .ok roles
  | name :: rest, roles =>
    match fromName name with
    | Option.none => .error (.unknown name)
    | some role =>
      if roles.allows role then .error (.listedTwice name)
      else parseNames rest (roles.union role)

/-- `parse_list`. -/
def parseList (list : Text) : Except RoleError Roles :=
  if list = [] then .error .empty else parseNames (list.splitOn ',') none

/-- `parse_default`: unset, it is everything, and an empty list is nothing. -/
def parseDefault : Option (List Text) → Except RoleError Roles
  | Option.none => .ok unrestricted
  | some [] => .ok none
  | some names => parseList ([','].intercalate names)

/-! ### The lists that are accepted -/

/-- The set of the roles with these names, beside those there are. -/
def grant (roles : Roles) (names : List Text) : Roles :=
  names.foldl (fun roles name => roles.union ((fromName name).getD none)) roles

/-- Distinct names of roles. -/
def Distinct (names : List Text) : Prop := names.Nodup ∧ ∀ name ∈ names, fromName name ≠ Option.none

theorem fromName_eq_some {name : Text} {role : Roles} (found : fromName name = some role) :
    (role, name) ∈ named := by
  obtain ⟨entry, here, rfl⟩ := Option.map_eq_some_iff.mp found
  obtain rfl : entry.2 = name := by simpa using List.find?_some here
  exact List.mem_of_find?_eq_some here

theorem fromName_of_mem : ∀ entry ∈ named, fromName entry.2 = some entry.1 := by decide

/-- A named role is one bit. -/
theorem named_bit {entry : Roles × Text} (mem : entry ∈ named) : ∃ k, entry.1.bits = 2 ^ k := by
  simp only [named, List.mem_cons, List.not_mem_nil, or_false] at mem
  rcases mem with rfl | rfl | rfl | rfl | rfl | rfl
  · exact ⟨0, rfl⟩
  · exact ⟨1, rfl⟩
  · exact ⟨2, rfl⟩
  · exact ⟨3, rfl⟩
  · exact ⟨4, rfl⟩
  · exact ⟨5, rfl⟩

theorem allows_named : ∀ a ∈ named, ∀ b ∈ named, (b.1.allows a.1 = true ↔ a.2 = b.2) := by decide

theorem allows_bit {roles role : Roles} {k : Nat} (bit : role.bits = 2 ^ k) :
    roles.allows role = true ↔ roles.bits.testBit k = true := by
  rw [allows, bit, Nat.and_two_pow, decide_eq_true_iff]
  cases roles.bits.testBit k with
  | false => simpa using (Nat.two_pow_pos k).ne
  | true => simp

theorem allows_union {roles other : Roles} {entry : Roles × Text} (mem : entry ∈ named) :
    (roles.union other).allows entry.1 = true ↔
      roles.allows entry.1 = true ∨ other.allows entry.1 = true := by
  obtain ⟨k, bit⟩ := named_bit mem
  rw [allows_bit bit, allows_bit bit, allows_bit bit, union, Nat.testBit_or, Bool.or_eq_true]

/-- A list of names allows what it allowed, and what it names. -/
theorem allows_grant {names : List Text} (known : ∀ name ∈ names, fromName name ≠ Option.none)
    (roles : Roles) {entry : Roles × Text} (mem : entry ∈ named) :
    (roles.grant names).allows entry.1 = true ↔
      roles.allows entry.1 = true ∨ entry.2 ∈ names := by
  induction names generalizing roles with
  | nil => simp [grant]
  | cons name rest ih =>
    obtain ⟨role, found⟩ := Option.ne_none_iff_exists'.mp (known name List.mem_cons_self)
    have later := ih (fun other here => known other (List.mem_cons_of_mem _ here))
      (roles.union role)
    have here := allows_named entry mem _ (fromName_eq_some found)
    rw [grant, List.foldl_cons, found, Option.getD_some, ← grant, later, allows_union mem, here,
      List.mem_cons, or_assoc]

theorem parseNames_ok_iff {names : List Text} {roles result : Roles} :
    parseNames names roles = .ok result ↔
      Distinct names ∧ (∀ entry ∈ named, entry.2 ∈ names → roles.allows entry.1 = false) ∧
        result = roles.grant names := by
  induction names generalizing roles with
  | nil =>
    have start : Distinct [] := ⟨List.nodup_nil, by simp⟩
    simp only [parseNames, Except.ok.injEq, start, grant, List.foldl_nil, List.not_mem_nil,
      false_implies, implies_true, true_and]
    exact eq_comm
  | cons name rest ih =>
    unfold parseNames
    cases found : fromName name with
    | none =>
      have missing : ¬ Distinct (name :: rest) := fun ok => ok.2 name List.mem_cons_self found
      simp [missing]
    | some role =>
      have here := fromName_eq_some found
      dsimp only
      split
      · rename_i twice
        simp only [reduceCtorEq, false_iff, not_and]
        intro _ fresh
        exact absurd (fresh _ here List.mem_cons_self) (by simp [twice])
      · rename_i fresh
        have step : roles.grant (name :: rest) = (roles.union role).grant rest := by
          rw [grant, List.foldl_cons, found, Option.getD_some, ← grant]
        rw [ih, step]
        -- of the names after this one, none is it, and none was in the set before it
        have split : (∀ entry ∈ named, entry.2 ∈ rest →
            (roles.union role).allows entry.1 = false) ↔
            name ∉ rest ∧ ∀ entry ∈ named, entry.2 ∈ rest → roles.allows entry.1 = false := by
          constructor
          · intro all
            refine ⟨fun again => ?_, fun entry mem later => ?_⟩
            · have self : (roles.union role).allows role = true :=
                (allows_union here).mpr (.inr ((allows_named _ here _ here).mpr rfl))
              exact absurd (all _ here again) (by simp [self])
            · have out := all entry mem later
              rw [← Bool.not_eq_true, allows_union mem] at out
              simpa using fun allowed => out (.inl allowed)
          · rintro ⟨once, all⟩ entry mem later
            rw [← Bool.not_eq_true, allows_union mem]
            rintro (allowed | allowed)
            · exact absurd allowed (by simp [all entry mem later])
            · have same : entry.2 = name := (allows_named entry mem _ here).mp allowed
              exact once (same ▸ later)
        rw [split]
        constructor
        · rintro ⟨⟨distinct, known⟩, ⟨once, all⟩, rfl⟩
          refine ⟨⟨List.nodup_cons.mpr ⟨once, distinct⟩, ?_⟩, fun entry mem later => ?_, rfl⟩
          · exact List.forall_mem_cons.mpr ⟨by simp [found], known⟩
          · rcases List.mem_cons.mp later with same | later
            · have equal := Option.some.inj ((fromName_of_mem entry mem).symm.trans
                (same ▸ found))
              simpa [equal] using fresh
            · exact all entry mem later
        · rintro ⟨⟨distinct, known⟩, all, rfl⟩
          obtain ⟨once, distinct⟩ := List.nodup_cons.mp distinct
          exact ⟨⟨distinct, fun other mem => known other (List.mem_cons_of_mem _ mem)⟩,
            ⟨once, fun entry mem later => all entry mem (List.mem_cons_of_mem _ later)⟩, rfl⟩

/-- A name of a role has no comma in it. -/
theorem comma_notMem {name : Text} (known : fromName name ≠ Option.none) : ',' ∉ name := by
  obtain ⟨role, found⟩ := Option.ne_none_iff_exists'.mp known
  have plain : ∀ entry ∈ named, ',' ∉ entry.2 := by decide
  exact plain _ (fromName_eq_some found)

theorem Distinct.splitOn {names : List Text} (distinct : Distinct names) (some : names ≠ []) :
    ([','].intercalate names).splitOn ',' = names :=
  List.splitOn_intercalate ',' (fun name mem => comma_notMem (distinct.2 name mem)) some

/-- A list is accepted just when it names distinct roles, at least one. -/
theorem parseList_ok_iff {list : Text} {result : Roles} :
    parseList list = .ok result ↔ ∃ names, names ≠ [] ∧ Distinct names ∧
      list = [','].intercalate names ∧ result = none.grant names := by
  have free : ∀ entry ∈ named, none.allows entry.1 = false := by decide
  unfold parseList
  split
  · rename_i empty
    subst empty
    simp only [reduceCtorEq, false_iff, not_exists, not_and]
    rintro names some distinct joined
    have split := distinct.splitOn some
    rw [← joined] at split
    have blank : fromName [] = Option.none := by decide
    exact absurd blank (distinct.2 [] (split ▸ by simp [List.splitOn_nil]))
  · rw [parseNames_ok_iff]
    constructor
    · rintro ⟨distinct, -, rfl⟩
      exact ⟨_, List.splitOn_ne_nil _ _, distinct, (List.intercalate_splitOn ',').symm, rfl⟩
    · rintro ⟨names, some, distinct, rfl, rfl⟩
      rw [distinct.splitOn some]
      exact ⟨distinct, fun entry mem _ => free entry mem, rfl⟩

/-- The roles every identity has by default are those the configuration names: all where it
says nothing, and none where its list is empty. A list is refused just when a name between
its commas is unknown or stands there twice. -/
theorem default_roles_exact (configured : Option (List Text)) :
    (∀ roles, parseDefault configured = .ok roles → ∀ entry ∈ named,
      (roles.allows entry.1 = true ↔ ∀ names, configured = some names →
        entry.2 ∈ ([','].intercalate names).splitOn ',')) ∧
    ((∃ roles, parseDefault configured = .ok roles) ↔
      ∀ names, configured = some names →
        names = [] ∨ Distinct (([','].intercalate names).splitOn ',')) := by
  have everything : ∀ entry ∈ named, unrestricted.allows entry.1 = true := by decide
  have nothing : ∀ entry ∈ named, none.allows entry.1 = false ∧ entry.2 ≠ [] := by decide
  rcases configured with _ | _ | ⟨first, rest⟩
  · refine ⟨?_, by simp [parseDefault]⟩
    rintro _ ⟨⟩ entry mem
    simp [everything entry mem]
  · refine ⟨?_, by simp [parseDefault]⟩
    rintro _ ⟨⟩ entry mem
    simp [nothing entry mem]
  · have parsed : ∀ roles, parseDefault (some (first :: rest)) = .ok roles ↔
        Distinct (([','].intercalate (first :: rest)).splitOn ',') ∧
          roles = none.grant (([','].intercalate (first :: rest)).splitOn ',') := by
      intro roles
      change parseList _ = .ok roles ↔ _
      rw [parseList_ok_iff]
      constructor
      · rintro ⟨names, some, distinct, joined, rfl⟩
        rw [joined, distinct.splitOn some]
        exact ⟨distinct, rfl⟩
      · rintro ⟨distinct, rfl⟩
        exact ⟨_, List.splitOn_ne_nil _ _, distinct, (List.intercalate_splitOn ',').symm, rfl⟩
    refine ⟨fun roles ok entry mem => ?_, ?_⟩
    · obtain ⟨distinct, rfl⟩ := (parsed roles).mp ok
      rw [allows_grant distinct.2 none mem]
      simp [nothing entry mem]
    · simp [parsed]

end Roles

end Vash.Server
