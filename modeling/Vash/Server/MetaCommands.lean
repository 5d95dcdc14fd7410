import Vash.Node.Pointwise
import Vash.Proto.MetaFlags
import Vash.Server.VcpDeadlines

/-!
# What the flags of meta commands do

A client of the meta commands states what it wants in flags: compare the token (`C`),
set the deadline (`T`), pick a mode (`M`). A flag the parser accepts and no verb looks
at is taken for one that was acted on.

* `flags_honoured_iff` — what an accepted line asks for is done exactly when the flags
  that are overlooked agree with what its command does to the record it finds.
* `overlooked_flags` — lines whose flags were accepted and overlooked.
-/

namespace Vash.Server

open Library Store Node Memcached

/-! ### The calls -/

section Calls

variable {n : Nat} [NeZero n] (node : VashStore n) {parties : Fin n → Shard} {now : Nat}

/-- The record a client is served at `now`. -/
def serving (sh : Shard) (now : Nat) (key : Bytes) : Option Record :=
  (sh.tables.main.get key).filter fun r =>
    r.isAlive now sh.engine.epoch sh.engine.registry.generation

/-- The record a store has under a key. -/
def recordAt (parties : Fin n → Shard) (key : Bytes) : Option Record :=
  (parties (forKey node.hash key)).tables.main.get key

theorem serving_eq_some_iff {sh : Shard} {key : Bytes} {r : Record} :
    serving sh now key = some r ↔ sh.tables.main.get key = some r ∧
      r.isAlive now sh.engine.epoch sh.engine.registry.generation = true := by
  rw [serving, Option.filter_eq_some_iff]

theorem served_begin (sh : Shard) {clock : Nat → Nat} (stands : Standing now clock)
    (key : Bytes) : Txn.served { sh.begin [] with clock } sh.engine key = serving sh now key := by
  change ((sh.tables.main.get key).map fun r =>
    Found.mk r (r.isAlive (clock 0) sh.engine.epoch sh.engine.registry.generation)).bind _ = _
  rw [stands 0, serving]
  cases sh.tables.main.get key with
  | none => rfl
  | some r => simp [Option.filter]

/-- A get-and-touch hits what is served, and a hit leaves the deadline of its reading. -/
theorem getAndTouch_expires (key : Bytes) (ttlSecs : Nat) :
    (node.getAndTouch [key] ttlSecs).Ensures submit (Standing now)
      (fun values parties' =>
        (values.any Option.isSome = true ↔
          serving (parties (forKey node.hash key)) now key ≠ none) ∧
        (values.any Option.isSome = true →
          Expires (parties' (forKey node.hash key)) key (expiryFromTtl now ttlSecs)))
      (fun _ _ => True) parties := by
  refine Call.Ensures.bind (Call.Ensures.of_read (readBatch_read none [key]) ?_)
  have view : [key].map (viewed (fun i => (parties i, now)) (fun sh now => sh.get now) node.hash) =
      [(parties (forKey node.hash key)).get now key] := rfl
  rw [view]
  cases got : (parties (forKey node.hash key)).get now key with
  | none =>
    have nothing : serving (parties (forKey node.hash key)) now key = none := by
      refine Option.eq_none_iff_forall_ne_some.mpr fun r serves => ?_
      obtain ⟨stored, alive⟩ := serving_eq_some_iff.mp serves
      exact Option.eq_none_iff_forall_ne_some.mp got _
        (readAlive_eq_some_iff.mpr ⟨r, stored, alive, rfl⟩)
    exact ⟨by simp [nothing], fun hit => absurd hit (by simp)⟩
  | some value =>
    obtain ⟨r, stored, alive, -⟩ := readAlive_eq_some_iff.mp got
    have served : serving (parties (forKey node.hash key)) now key = some r :=
      serving_eq_some_iff.mpr ⟨stored, alive⟩
    have live : (([key].zip [some value]).filter fun pair => pair.2.isSome).map Prod.fst =
        [key] := rfl
    dsimp only
    rw [live, group_singleton]
    have touches : (touchManyOn (forKey node.hash key) [key] ttlSecs).Ensures submit
        (Standing now) (fun _ parties' =>
          Expires (parties' (forKey node.hash key)) key (expiryFromTtl now ttlSecs))
        (fun _ _ => True) parties := by
      refine (ask_ensures (fun answer t => answer ≠ none → ∃ r, t.main.get key = some r ∧
        r.header.expiresAtMs = expiryFromTtl now ttlSecs) (absurd rfl) ?_).mono
        (fun hits _ touched => touched (by simp)) fun _ _ _ => trivial
      intro clock stands
      have standing : Txn.StandsAt { (parties (forKey node.hash key)).begin [] with clock } now :=
        stands
      refine (touchJob_expires standing key ttlSecs).mono ?_ fun _ _ _ => .inl (absurd rfl)
      rintro _ s ⟨hit, rfl, hits, touched⟩ _
      exact touched (hits r stored alive)
    exact Call.Ensures.bind (Call.Ensures.bind (touches.imp
      (fun _ _ touched => ⟨by simp [served], fun _ => touched⟩)))

/-- A delete is always answered, hits only what is there, and leaves nothing under the key. -/
theorem delete_removes {allowed : (Nat → Nat) → Prop} (key : Bytes) :
    (node.delete key).Ensures submit allowed
      (fun hit parties' => (parties' (forKey node.hash key)).tables.main.get key = none ∧
        (hit = true → (parties (forKey node.hash key)).tables.main.get key ≠ none))
      (fun _ _ => False) parties := by
  intro clock _
  have ran : wp (apply (parties (forKey node.hash key)).engine (.delete [key]))
      (fun outcome s => ∃ hit, outcome = .deleted [hit] ∧ s.tables.main.get key = none ∧
        (hit = true → (parties (forKey node.hash key)).tables.main.get key ≠ none)) Breaks
      { (parties (forKey node.hash key)).begin [] with clock } := by
    refine wp.bind (m := fun hits s => ∃ hit, hits = [hit] ∧ s.tables.main.get key = none ∧
      (hit = true → (parties (forKey node.hash key)).tables.main.get key ≠ none)) ?_ ?_
    · refine wp.bind (applyDelete_judged (fun k => Set.mem_univ _) key) ?_
      rintro hit s ⟨⟨reading, -, judged⟩, removed, -⟩
      refine wp.pure ⟨hit, rfl, by rw [removed]; exact Table.get_delete_self _ _, ?_⟩
      rintro live absent
      rw [judged] at live
      change (displacedAt _ (parties (forKey node.hash key)).tables key false reading).live = true
        at live
      rw [displacedAt, absent] at live
      cases live
    · rintro _ s ⟨hit, rfl, gone⟩
      exact wp.pure ⟨hit, rfl, gone⟩
  obtain ⟨_, s, ⟨hit, rfl, gone, there⟩, done⟩ := submit_succeeds ran
  rw [done]
  refine ⟨?_, there⟩
  rw [Function.update_self]
  exact gone

/-- Registering tags leaves every record alone. -/
theorem ensureTagsRegistered_main {allowed : (Nat → Nat) → Prop} (sets : List SetRequest)
    (i : Fin n) :
    (node.ensureTagsRegistered sets).Ensures submit allowed
      (fun _ parties' => (parties' i).tables.main = (parties i).tables.main)
      (fun _ parties' => (parties' i).tables.main = (parties i).tables.main) parties := by
  have only : (node.ensureTagsRegistered sets).Only fun op => ∃ names, op = .createTags names :=
    ensureTagsRegistered_only (fun names => ⟨names, rfl⟩) node sets
  have keeps : ∀ clock op sh, (∃ names, op = .createTags names) →
      sh.tables.main = (parties i).tables.main →
      (submit clock op sh).2.tables.main = (parties i).tables.main := by
    rintro clock _ sh ⟨names, rfl⟩ held
    exact (submit_tagJob_main rfl (by simp)).trans held
  exact only.ensures keeps rfl

/-- A compare-and-swap that is not stored leaves the record alone, and one that is found its
token there. -/
theorem store_compares {allowed : (Nat → Nat) → Prop} {set : SetRequest} {expected : Nat}
    (mode : set.mode = .cas expected) :
    (node.store set).Ensures submit allowed
      (fun written parties' =>
        ((parties' (forKey node.hash set.key)).tables.main =
            (parties (forKey node.hash set.key)).tables.main ∧
          ∀ cas, written.outcome ≠ .stored cas) ∨
        ((∃ cas, written.outcome = .stored cas) ∧
          ∃ r, (parties (forKey node.hash set.key)).tables.main.get set.key = some r ∧
            r.header.cas = expected))
      (fun _ parties' => (parties' (forKey node.hash set.key)).tables.main =
        (parties (forKey node.hash set.key)).tables.main) parties := by
  refine (ensureTagsRegistered_main node [set] _).seq ?_
  intro _ parties₁ kept clock _
  dsimp only
  cases prepared : VashStore.prepareOn (parties₁ (forKey node.hash set.key)) (clock 0) set with
  | error e => exact kept
  | ok p =>
    have key := (of_prepareOn prepared).key
    rw [mode, ← kept]
    refine (ask_ensures (fun answer t => (t.main =
        (parties₁ (forKey node.hash set.key)).tables.main ∧
      ∀ written, answer = some written → ∀ cas, written.outcome ≠ .stored cas) ∨
      ((∃ written, answer = some written ∧ ∃ cas, written.outcome = .stored cas) ∧
        ∃ r, (parties₁ (forKey node.hash set.key)).tables.main.get set.key = some r ∧
          r.header.cas = expected)) (.inl ⟨rfl, nofun⟩) ?_).mono ?_ ?_
    · intro _ _
      refine wp.bind ((conditionalSet_compares p expected).stops
        fun _ _ h => h.imp (fun same => .inl ⟨same, nofun⟩) id) ?_
      rintro written s (⟨same, refused⟩ | ⟨stored, r, found, token⟩)
      · refine wp.pure (.inl ⟨same, ?_⟩)
        rintro _ ⟨⟩
        exact refused
      · exact wp.pure (.inr ⟨⟨written, rfl, stored⟩, r, key ▸ found, token⟩)
    · rintro written parties' (⟨same, refused⟩ | ⟨⟨_, ⟨⟩, stored⟩, found⟩)
      · exact .inl ⟨same, refused written rfl⟩
      · exact .inr ⟨stored, found⟩
    · rintro _ parties' (⟨same, -⟩ | ⟨⟨_, ⟨⟩, _⟩, -⟩)
      exact same

/-- The shards as a command finds them: a write has its tags registered first. -/
def foundBy (now : Nat) (parties : Fin n → Shard) : Command → Fin n → Shard
  | .set set => ((node.ensureTagsRegistered [set]).run submit (fun _ _ => now) parties).2
  | _ => parties

/-- A write that is not refused is stored when its mode lets it pass the record it finds. -/
theorem store_passes (set : SetRequest) :
    (node.store set).Ensures submit (Standing now)
      (fun written _ => (∃ cas, written.outcome = .stored cas) ↔ conditionalVerdict set.mode
        (serving (foundBy node now parties (.set set) (forKey node.hash set.key)) now set.key) =
          none)
      (fun _ _ => True) parties := by
  refine Call.Ensures.bind ((Call.Ensures.of_run (node.ensureTagsRegistered [set]) parties
    now).mono ?_ fun _ _ _ => trivial)
  intro _ parties₁ registered clock stands
  have found : foundBy node now parties (.set set) = parties₁ := congrArg Prod.snd registered
  rw [found]
  dsimp only
  cases prepared : VashStore.prepareOn (parties₁ (forKey node.hash set.key)) (clock 0) set with
  | error e => trivial
  | ok p =>
    have key := (of_prepareOn prepared).key
    refine (ask_ensures (fun answer _ => ∀ written, answer = some written →
      ((∃ cas, written.outcome = .stored cas) ↔ conditionalVerdict set.mode
        (serving (parties₁ (forKey node.hash set.key)) now set.key) = none)) nofun ?_).mono
      (fun written _ passes => passes written rfl) fun _ _ _ => trivial
    intro clock stands
    refine wp.bind ((applyConditionalSet_cases p set.mode).stops
      fun _ _ _ => .inl nofun) fun written s cases' => wp.pure ?_
    rintro _ ⟨⟩
    rw [served_begin _ stands, key] at cases'
    rcases cases' with ⟨refused, unstored, -⟩ | ⟨passes, -, cas, -, stored, -⟩
    · exact iff_of_false (fun ⟨cas, stored⟩ => unstored cas stored) refused
    · exact iff_of_true ⟨cas, stored⟩ passes

/-- A counter operation that is not refused counts what is served. -/
theorem arithmetic_counts (key : Bytes) (delta : Nat) (decrement : Bool) :
    (node.arithmetic (.counter key delta decrement)).Ensures submit (Standing now)
      (fun applied _ => (∃ a, applied = some a ∧ a.wrote = true) ↔
        serving (parties (forKey node.hash key)) now key ≠ none) (fun _ _ => True) parties := by
  refine (ask_ensures (fun answer _ => ∀ applied, answer = some applied →
    ((∃ a, applied = some a ∧ a.wrote = true) ↔
      serving (parties (forKey node.hash key)) now key ≠ none)) nofun ?_).mono
    (fun applied _ counts => counts applied rfl) fun _ _ _ => trivial
  intro clock stands
  refine wp.bind ((applyArithmetic_counts rfl rfl).stops
    fun _ _ _ => .inl nofun) fun applied s counts => wp.pure ?_
  rintro _ ⟨⟩
  rwa [served_begin _ stands] at counts

end Calls

/-! ### What flags ask for -/

/-- The reply reports that the command was carried out on its record. -/
def Reply.succeeded : Reply → Bool
  | .values found => found.any Option.isSome
  | .deleted => true
  | reply => reply.wrote

def succeeded : Except StoreError Reply → Bool
  | .ok reply => reply.succeeded
  | .error _ => false

/-- The command stores no concatenation. -/
def storesWhole : Command → Bool
  | .set set => set.mode.whole
  | _ => true

/-- The mode letters documented for a verb. -/
def documentedModes : MetaVerb → Bytes
  | .ms => ascii "EAPRS"
  | .ma => ascii "I+D-"
  | _ => []

/-- What the flags of a line ask for was done: `before` and `after` are the records under
its key, and `done` says whether the command succeeded. -/
structure Honours (verb : MetaVerb) (flags : List Bytes) (command : Command) (now : Nat)
    (before after : Option Record) (done : Bool) : Prop where
  compares : verb = .ms ∨ verb = .md → ∀ cas ∈ casFlags flags, done = true ∨ after ≠ before →
    ∃ r, before = some r ∧ r.header.cas = cas
  expires : verb = .mg ∨ verb = .ma ∨ verb = .ms ∧ storesWhole command = true → done = true →
    ∀ ttlSecs ∈ ttlFlags flags,
      ∃ r, after = some r ∧ r.header.expiresAtMs = expiryFromTtl now ttlSecs
  documented : verb = .ms ∨ verb = .ma →
    ∀ letter ∈ modeFlags flags, letter ∈ documentedModes verb

/-- All `T` flags stand for one deadline. -/
def OneDeadline (now : Nat) (flags : List Bytes) : Prop :=
  ∀ ttl ∈ ttlFlags flags, ∀ ttl' ∈ ttlFlags flags, expiryFromTtl now ttl = expiryFromTtl now ttl'

/-- All `C` flags have one token. -/
def OneToken (flags : List Bytes) : Prop :=
  ∀ cas ∈ casFlags flags, ∀ cas' ∈ casFlags flags, cas = cas'

/-- The mode letters of an `ms` that are not looked at: a token to compare overrides them,
and otherwise the last one does. -/
def overriddenModes (flags : List Bytes) : Bytes :=
  if casFlags flags = [] then (modeFlags flags).dropLast else modeFlags flags

/-- The mode letters that are overlooked are documented. -/
def Letters (verb : MetaVerb) (flags : List Bytes) : Prop :=
  match verb with
  | .ms => ∀ letter ∈ overriddenModes flags, letter ∈ documentedModes .ms
  | .ma => ∀ letter ∈ modeFlags flags, letter ∈ documentedModes .ma
  | _ => True

/-- The other flags that are overlooked agree with what is done without them: `before` is the
record under the key, and `served` the one a client is served there, if it is live. -/
def Agrees (verb : MetaVerb) (flags : List Bytes) (command : Command) (now : Nat)
    (before served : Option Record) : Prop :=
  match verb, command with
  | .mg, _ => served ≠ none → OneDeadline now flags
  | .ms, .set set => conditionalVerdict set.mode served = none →
      OneToken flags ∧ (set.mode.whole = true → OneDeadline now flags)
  | .md, _ => ∀ r, before = some r → ∀ cas ∈ casFlags flags, r.header.cas = cas
  | .ma, _ => ∀ r, served = some r →
      ∀ ttlSecs ∈ ttlFlags flags, expiryFromTtl now ttlSecs = r.header.expiresAtMs
  | _, _ => True

section Flags

variable {now : Nat} {flags : List Bytes} {before after : Option Record} {done : Bool}

/-- The record holds one deadline, so it holds that of every flag when they stand for it. -/
theorem holds_all_iff {deadline : Nat} {ttls : List Nat}
    (stored : ∃ r, after = some r ∧ r.header.expiresAtMs = deadline) :
    (∀ ttlSecs ∈ ttls, ∃ r, after = some r ∧ r.header.expiresAtMs = expiryFromTtl now ttlSecs) ↔
      ∀ ttlSecs ∈ ttls, expiryFromTtl now ttlSecs = deadline := by
  obtain ⟨r, rfl, rfl⟩ := stored
  simp [eq_comm]

/-- The flags stand for one deadline when they stand for that of the last one. -/
theorem oneDeadline_iff {ttlSecs : Nat} (last : (ttlFlags flags).getLast? = some ttlSecs) :
    OneDeadline now flags ↔
      ∀ ttl ∈ ttlFlags flags, expiryFromTtl now ttl = expiryFromTtl now ttlSecs := by
  have mem := List.mem_of_getLast? last
  constructor
  · intro one ttl inside
    exact one ttl inside ttlSecs mem
  · intro same ttl inside ttl' inside'
    exact (same ttl inside).trans (same ttl' inside').symm

/-- A command that renews the deadline to that of the last `T` flag honours them all when
they stand for one deadline. -/
theorem renews_iff {ttl : Option Nat} (last : ttl = (ttlFlags flags).getLast?)
    (renews : done = true → ∀ ttlSecs, ttl = some ttlSecs →
      ∃ r, after = some r ∧ r.header.expiresAtMs = expiryFromTtl now ttlSecs) :
    (done = true → ∀ ttlSecs ∈ ttlFlags flags,
        ∃ r, after = some r ∧ r.header.expiresAtMs = expiryFromTtl now ttlSecs) ↔
      (done = true → OneDeadline now flags) := by
  refine imp_congr_right fun success => ?_
  cases found : (ttlFlags flags).getLast? with
  | none =>
    rw [List.getLast?_eq_none_iff] at found
    simp [OneDeadline, found]
  | some ttlSecs =>
    rw [oneDeadline_iff found]
    exact holds_all_iff (renews success ttlSecs (last.trans found))

theorem documented_of_setModeOf (letter : UInt8)
    (usable : (setModeOf (some letter) none).isSome = true) : letter ∈ documentedModes .ms := by
  revert letter
  decide +kernel

/-- The letter an `ms` does look at is documented. -/
theorem documented_iff {out : Collected} {mode : SetMode} (collected : collect flags = .ok out)
    (usable : setModeOf out.mode out.cas = some mode) :
    (∀ letter ∈ modeFlags flags, letter ∈ documentedModes .ms) ↔
      ∀ letter ∈ overriddenModes flags, letter ∈ documentedModes .ms := by
  obtain ⟨cas, -, last⟩ := collect_eq collected
  unfold overriddenModes
  split
  · rename_i uncompared
    rw [uncompared, List.getLast?_nil] at cas
    cases found : (modeFlags flags).getLast? with
    | none =>
      rw [List.getLast?_eq_none_iff] at found
      simp [found]
    | some letter =>
      have known : letter ∈ documentedModes .ms := by
        refine documented_of_setModeOf letter ?_
        rw [← found, ← last, ← cas, usable]
        rfl
      rw [← List.dropLast_append_getLast? letter found]
      simp [known, or_imp, forall_and]
  · exact Iff.rfl

end Flags

section Lines

variable {n : Nat} [NeZero n] {node : VashStore n} {now : Nat} {flags : List Bytes}
  {out : Collected} {key : Bytes} {command : Command} {call : NodeCall n Reply}
  {parties parties' : Fin n → Shard} {result : Except StoreError Reply}

omit [NeZero n] in
/-- What is ensured of a success holds after a run that succeeded. -/
theorem of_succeeded {post : (Fin n → Shard) → Prop}
    (ensures : call.Ensures submit (Standing now)
      (fun reply parties' => reply.succeeded = true → post parties') (fun _ _ => True) parties)
    (ran : call.run submit (fun _ _ => now) parties = (result, parties'))
    (done : succeeded result = true) : post parties' := by
  cases result with
  | error e => cases done
  | ok reply => exact ensures.run (fun _ _ => rfl) ran done

omit [NeZero n] in
/-- What is asked of a success is asked where the command finds what makes it succeed. -/
theorem succeeded_imp_iff {finds : Prop}
    (ensures : call.Ensures submit (Standing now) (fun reply _ => reply.succeeded = true ↔ finds)
      (fun _ _ => True) parties)
    (ran : call.run submit (fun _ _ => now) parties = (result, parties')) (asked : Prop) :
    (succeeded result = true → asked) ↔ ∀ reply, result = .ok reply → finds → asked := by
  cases result with
  | error e => exact iff_of_true nofun nofun
  | ok reply => simp [succeeded, ensures.run (fun _ _ => rfl) ran]

/-- An `mg` with a `T` flag hits what is served, and renews its deadline. -/
theorem mg_ensures (becomes : Becomes out key .mg command) (serves : Serves node command call)
    {ttlSecs : Nat} (renew : out.ttl = some ttlSecs) :
    call.Ensures submit (Standing now)
      (fun reply parties' =>
        (reply.succeeded = true ↔ serving (parties (forKey node.hash key)) now key ≠ none) ∧
        (reply.succeeded = true →
          Expires (parties' (forKey node.hash key)) key (expiryFromTtl now ttlSecs)))
      (fun _ _ => True) parties := by
  cases becomes with
  | get keep => exact absurd (keep.symm.trans renew) nofun
  | touch found =>
    obtain rfl := Option.some.inj (found.symm.trans renew)
    cases serves with
    | executed same =>
      obtain rfl := Option.some.inj same
      exact Call.Ensures.bind (getAndTouch_expires node key _)

theorem mg_honours_iff (collected : collect flags = .ok out) (becomes : Becomes out key .mg command)
    (serves : Serves node command call)
    (ran : call.run submit (fun _ _ => now) parties = (result, parties')) :
    Honours .mg flags command now (recordAt node parties key) (recordAt node parties' key)
        (succeeded result) ↔
      ∀ reply, result = .ok reply → serving (parties (forKey node.hash key)) now key ≠ none →
        OneDeadline now flags := by
  have last := (collect_eq collected).2.1
  cases renew : out.ttl with
  | none =>
    rw [renew, eq_comm, List.getLast?_eq_none_iff] at last
    exact iff_of_true ⟨by simp, by simp [last], by simp⟩ (by simp [OneDeadline, last])
  | some ttlSecs =>
    have ensures : call.Ensures submit (Standing now) _ _ parties :=
      mg_ensures becomes serves renew
    have heeds := renews_iff last fun done _ same =>
      Option.some.inj (renew.symm.trans same) ▸ of_succeeded (ensures.imp fun _ _ h => h.2) ran done
    refine Iff.trans ⟨fun honours => heeds.mp (honours.expires (.inl rfl)),
      fun one => ⟨by simp, fun _ => heeds.mpr one, by simp⟩⟩ ?_
    exact succeeded_imp_iff (ensures.imp fun _ _ h => h.1) ran _

/-- An `md` removes whatever there is. -/
theorem md_honours_iff (becomes : Becomes out key .md command) (serves : Serves node command call)
    (ran : call.run submit (fun _ _ => now) parties = (result, parties')) :
    Honours .md flags command now (recordAt node parties key) (recordAt node parties' key)
        (succeeded result) ↔
      ∀ reply, result = .ok reply → ∀ r, recordAt node parties key = some r →
        ∀ cas ∈ casFlags flags, r.header.cas = cas := by
  cases becomes
  cases serves with
  | executed same =>
    have ensures : call.Ensures submit (Standing now)
        (fun reply parties' => recordAt node parties' key = none ∧
          (reply.succeeded = true → recordAt node parties key ≠ none))
        (fun _ _ => False) parties := by
      obtain rfl := Option.some.inj same
      refine (delete_removes node key).seq ?_
      rintro hit parties₁ ⟨gone, there⟩
      cases hit with
      | true => exact ⟨gone, fun _ => there rfl⟩
      | false => exact ⟨gone, nofun⟩
    cases result with
    | error e => exact (ensures.run_error (fun _ _ => rfl) ran).elim
    | ok reply =>
      obtain ⟨gone, there⟩ := ensures.run (fun _ _ => rfl) ran
      rw [gone]
      constructor
      · intro honours _ _ r stored cas mem
        obtain ⟨_, found, token⟩ := honours.compares (.inr rfl) cas mem (.inr (by simp [stored]))
        obtain rfl := Option.some.inj (stored.symm.trans found)
        exact token
      · intro same
        refine ⟨fun _ cas mem changed => ?_, by simp, by simp⟩
        cases stored : recordAt node parties key with
        | none =>
          rw [stored] at changed there
          exact changed.elim (fun done => absurd rfl (there done)) (absurd rfl)
        | some r => exact ⟨r, rfl, same reply rfl r stored cas mem⟩

/-- An `ma` that is not refused counts what is served, and keeps the deadline. -/
theorem ma_ensures (becomes : Becomes out key .ma command) (serves : Serves node command call) :
    call.Ensures submit (Standing now)
      (fun reply parties' =>
        (reply.succeeded = true ↔ serving (parties (forKey node.hash key)) now key ≠ none) ∧
        (reply.succeeded = true → Expires (parties' (forKey node.hash key)) key
          ((parties (forKey node.hash key)).tables.deadlineAt
            (parties (forKey node.hash key)).engine key now)))
      (fun _ _ => True) parties := by
  cases becomes
  cases serves with
  | executed same =>
    obtain rfl := Option.some.inj same
    refine (((arithmetic_counts node key _ _).and (arithmetic_expires node _)).stops
      fun _ _ _ => trivial).seq ?_
    rintro applied parties₁ ⟨counts, stored⟩
    cases applied with
    | none => exact ⟨iff_of_false nofun (by simpa using counts), nofun⟩
    | some a =>
      exact ⟨Iff.trans (by simp [Reply.succeeded, Reply.wrote]) counts,
        fun wrote => stored ⟨a, rfl, wrote⟩⟩

theorem ma_honours_iff (becomes : Becomes out key .ma command) (serves : Serves node command call)
    (ran : call.run submit (fun _ _ => now) parties = (result, parties')) :
    Honours .ma flags command now (recordAt node parties key) (recordAt node parties' key)
        (succeeded result) ↔
      (∀ letter ∈ modeFlags flags, letter ∈ documentedModes .ma) ∧
        ∀ reply, result = .ok reply → ∀ r,
          serving (parties (forKey node.hash key)) now key = some r → ∀ ttlSecs ∈ ttlFlags flags,
            expiryFromTtl now ttlSecs = r.header.expiresAtMs := by
  have ensures : call.Ensures submit (Standing now) _ _ parties := ma_ensures becomes serves
  have heeds := imp_congr_right fun done => @holds_all_iff now _ _ (ttlFlags flags)
    (of_succeeded (ensures.imp fun _ _ h => h.2) ran done)
  refine Iff.trans ⟨fun honours => ⟨honours.documented (.inr rfl),
    heeds.mp (honours.expires (.inr (.inl rfl)))⟩, fun ⟨documented, same⟩ =>
    ⟨by simp, fun _ => heeds.mpr same, fun _ => documented⟩⟩ (and_congr_right' ?_)
  refine (succeeded_imp_iff (ensures.imp fun _ _ h => h.1) ran _).trans
    (forall₂_congr fun _ _ => ?_)
  -- The deadline that is kept is that of the record served.
  cases served : serving (parties (forKey node.hash key)) now key with
  | none => simp
  | some r =>
    obtain ⟨stored, alive⟩ := serving_eq_some_iff.mp served
    have deadline : (parties (forKey node.hash key)).tables.deadlineAt
        (parties (forKey node.hash key)).engine key now = r.header.expiresAtMs := by
      rw [Tables.deadlineAt, stored]
      exact if_pos alive
    simp [deadline]

/-- Only an `ms` registers tags. -/
theorem foundBy_of_ne {verb : MetaVerb} (becomes : Becomes out key verb command)
    (other : verb ≠ .ms) : foundBy node now parties command = parties := by
  cases becomes with
  | set => exact absurd rfl other
  | _ => rfl

section Set

variable {set : SetRequest} (serves : Serves node (.set set) call)
  (silent : set.returnPrevious = false)

include serves silent

/-- A set that is not refused is stored when its mode lets it pass what is served. -/
theorem ms_ensures :
    call.Ensures submit (Standing now)
      (fun reply _ => (reply.succeeded = true ↔ conditionalVerdict set.mode
          (serving (foundBy node now parties (.set set) (forKey node.hash set.key)) now set.key) =
            none) ∧ reply.succeeded = reply.wrote)
      (fun _ _ => True) parties := by
  cases serves with
  | executed same =>
    obtain rfl := Option.some.inj same
    refine (store_passes node set).seq ?_
    rintro ⟨outcome, _⟩ parties₁ passes
    rw [if_neg (by simp [silent])]
    refine ⟨Iff.trans ?_ passes, rfl⟩
    cases outcome <;> simp [Reply.succeeded, Reply.wrote]
  | flushed mem held once =>
    have plain : set.mode = .set := by
      have batched := held _ mem
      by_contra other
      simp [batchable, other] at batched
    refine (Call.Ensures.trivial _ _).seq fun _ _ _ => ⟨iff_of_true rfl ?_, rfl⟩
    rw [plain]
    rfl

/-- A whole value is stored with the deadline asked for. -/
theorem ms_expires (ran : call.run submit (fun _ _ => now) parties = (result, parties'))
    (whole : set.mode.whole = true) {ttlSecs : Nat} (ttl : set.ttl = .set ttlSecs)
    (done : succeeded result = true) :
    Expires (parties' (forKey node.hash set.key)) set.key (expiryFromTtl now ttlSecs) := by
  have ensures : call.Ensures submit (Standing now)
      (fun reply parties' => reply.succeeded = true →
        Expires (parties' (forKey node.hash set.key)) set.key (expiryFromTtl now ttlSecs))
      (fun _ _ => True) parties := by
    refine ((ms_ensures serves silent).and (serves.set_expires whole ttl silent)).mono ?_
      fun _ _ _ => trivial
    rintro reply parties' ⟨⟨-, same⟩, stored⟩
    rwa [same]
  exact of_succeeded ensures ran done

/-- A compare-and-swap changes nothing unless the record has its token. -/
theorem ms_compares {cas : Nat} (mode : set.mode = .cas cas)
    (ran : call.run submit (fun _ _ => now) parties = (result, parties')) :
    (succeeded result = false ∧ recordAt node parties' set.key = recordAt node parties set.key) ∨
      (succeeded result = true ∧
        ∃ r, recordAt node parties set.key = some r ∧ r.header.cas = cas) := by
  cases serves with
  | executed same =>
    have ensures : call.Ensures submit (Standing now)
        (fun reply parties' =>
          (reply.succeeded = false ∧
            recordAt node parties' set.key = recordAt node parties set.key) ∨
          (reply.succeeded = true ∧
            ∃ r, recordAt node parties set.key = some r ∧ r.header.cas = cas))
        (fun _ parties' => (parties' (forKey node.hash set.key)).tables.main =
          (parties (forKey node.hash set.key)).tables.main) parties := by
      obtain rfl := Option.some.inj same
      refine (store_compares node mode).seq ?_
      rintro ⟨outcome, _⟩ parties₁ written
      rw [if_neg (by simp [silent])]
      rcases written with ⟨kept, refused⟩ | ⟨⟨_, rfl⟩, found⟩
      · refine .inl ⟨?_, congrArg (Table.get · set.key) kept⟩
        cases outcome with
        | stored cas => exact absurd rfl (refused cas)
        | _ => rfl
      · exact .inr ⟨rfl, found⟩
    cases result with
    | ok reply => exact ensures.run (fun _ _ => rfl) ran
    | error e =>
      exact .inl ⟨rfl, congrArg (Table.get · set.key) (ensures.run_error (fun _ _ => rfl) ran)⟩
  | flushed mem held once =>
    have plain := held _ mem
    simp [batchable, mode] at plain

end Set

/-- An `ms` compares the token of the last `C` flag, stores the deadline of the last `T` flag
and looks at the last mode letter, unless there is a token to compare. -/
theorem ms_honours_iff (collected : collect flags = .ok out) (becomes : Becomes out key .ms command)
    (serves : Serves node command call)
    (ran : call.run submit (fun _ _ => now) parties = (result, parties')) :
    Honours .ms flags command now (recordAt node parties key) (recordAt node parties' key)
        (succeeded result) ↔
      (∀ letter ∈ overriddenModes flags, letter ∈ documentedModes .ms) ∧
        ∀ reply, result = .ok reply → Agrees .ms flags command now (recordAt node parties key)
          (serving (foundBy node now parties command (forKey node.hash key)) now key) := by
  obtain ⟨lastCas, lastTtl, -⟩ := collect_eq collected
  cases becomes with
  | @set mode usable data =>
  have heeds : mode.whole = true → _ := fun whole => renews_iff lastTtl fun done _ asked =>
    ms_expires serves rfl ran whole (by rw [asked]; rfl) done
  have documents := documented_iff collected usable
  refine Iff.trans ?_ (and_congr_right' (succeeded_imp_iff
    ((ms_ensures serves rfl).imp fun _ _ h => h.1) ran
    (OneToken flags ∧ (mode.whole = true → OneDeadline now flags))))
  constructor
  · intro honours
    refine ⟨documents.mp (honours.documented (.inl rfl)), fun done => ⟨?_, fun whole => ?_⟩⟩
    · intro cas mem cas' mem'
      obtain ⟨r, found, token⟩ := honours.compares (.inl rfl) cas mem (.inl done)
      obtain ⟨_, found', token'⟩ := honours.compares (.inl rfl) cas' mem' (.inl done)
      obtain rfl := Option.some.inj (found.symm.trans found')
      exact token.symm.trans token'
    · exact (heeds whole).mp (honours.expires (.inr (.inr ⟨rfl, whole⟩))) done
  · rintro ⟨documented, agree⟩
    refine ⟨fun _ cas mem changed => ?_, fun which done => ?_, fun _ => documents.mpr documented⟩
    · obtain ⟨last, found⟩ : ∃ last, (casFlags flags).getLast? = some last :=
        Option.ne_none_iff_exists'.mp fun none =>
          List.ne_nil_of_mem mem (List.getLast?_eq_none_iff.mp none)
      have mode' : mode = .cas last := by
        rw [lastCas, found] at usable
        exact (Option.some.inj usable).symm
      rcases ms_compares serves rfl mode' ran with ⟨failed, same⟩ | ⟨done, r, stored, token⟩
      · exact absurd changed (by simp [failed, show recordAt node parties' key = _ from same])
      · exact ⟨r, stored, token.trans ((agree done).1 last (List.mem_of_getLast? found) cas mem)⟩
    · have whole : mode.whole = true := by
        rcases which with which | which | ⟨-, whole⟩
        · cases which
        · cases which
        · exact whole
      exact (heeds whole).mpr (fun _ => (agree done).2 whole) done

/-- What the flags of an accepted line ask for is done exactly when those that are overlooked
agree with what its command does to the record it finds. Of a command the store refuses only
the mode letters can fail. -/
theorem flags_honoured_iff {line rest : Bytes} (single : 10 ∉ line) {verb : MetaVerb}
    (named : metaVerb (verbOf (withoutCr line)) = some verb)
    (heeding : verb = .mg ∨ verb = .ms ∨ verb = .md ∨ verb = .ma) {parsed : Parsed}
    (accepted : parse (line ++ 10 :: rest) = .ok (.command parsed))
    (keyed : (tokensOf (withoutCr line))[1]? = some key) (serves : Serves node parsed.command call)
    (ran : call.run submit (fun _ _ => now) parties = (result, parties')) :
    ((∃ reply, result = .ok reply) →
      (Honours verb (flagWords verb (tokensOf (withoutCr line))) parsed.command now
          (recordAt node parties key) (recordAt node parties' key) (succeeded result) ↔
        Letters verb (flagWords verb (tokensOf (withoutCr line))) ∧
          Agrees verb (flagWords verb (tokensOf (withoutCr line))) parsed.command now
            (recordAt node parties key)
            (serving (foundBy node now parties parsed.command (forKey node.hash key)) now key))) ∧
    ((∃ e, result = .error e) →
      (Honours verb (flagWords verb (tokensOf (withoutCr line))) parsed.command now
          (recordAt node parties key) (recordAt node parties' key) (succeeded result) ↔
        Letters verb (flagWords verb (tokensOf (withoutCr line))))) := by
  obtain ⟨_, out, word, collected, becomes⟩ := becomes_of_accepted single named heeding accepted
  obtain rfl := Option.some.inj (keyed.symm.trans word)
  generalize flagWords verb (tokensOf (withoutCr line)) = flags at collected ⊢
  have iff : Honours verb flags parsed.command now (recordAt node parties key)
        (recordAt node parties' key) (succeeded result) ↔
      Letters verb flags ∧ ∀ reply, result = .ok reply →
        Agrees verb flags parsed.command now (recordAt node parties key)
          (serving (foundBy node now parties parsed.command (forKey node.hash key)) now key) := by
    rcases heeding with rfl | rfl | rfl | rfl
    · rw [foundBy_of_ne becomes (by decide)]
      exact (mg_honours_iff collected becomes serves ran).trans (true_and _).symm.to_iff
    · exact ms_honours_iff collected becomes serves ran
    · exact (md_honours_iff becomes serves ran).trans (true_and _).symm.to_iff
    · rw [foundBy_of_ne becomes (by decide)]
      exact ma_honours_iff becomes serves ran
  refine ⟨fun ⟨reply, answered⟩ => iff.trans (and_congr_right' ?_), fun ⟨e, failed⟩ =>
    iff.trans (and_iff_left ?_)⟩
  · exact ⟨fun agrees => agrees reply answered, fun agrees _ _ => agrees⟩
  · intro reply answered
    cases failed.symm.trans answered

end Lines

/-! ### Lines with overlooked flags -/

/-- A line served alone by a store of one shard while the clock stands. -/
def serveLine (now : Nat) (line : String) (parties : Fin 1 → Shard) :
    Option (Except StoreError Reply × (Fin 1 → Shard)) :=
  match parse (ascii line) with
  | .ok (.command parsed) =>
    (executeRecord (oneShardStore (.stable 1)) parsed.command).map fun call =>
      call.run submit (fun _ _ => now) parties
  | _ => none

/-- A store whose key `k` holds a number, with the token 1 and a deadline a hundred seconds
after the first. -/
def holdsFive : Fin 1 → Shard :=
  ((serveLine 1000 "ms k 1 T100\r\n5\r\n" newShard).map Prod.snd).getD newShard

/-- A delete of the record whose token it names. -/
theorem flags_honoured_delete :
    let node := oneShardStore (.stable 1)
    ∃ call result parties', executeRecord node (.delete (ascii "k")) = some call ∧
      call.run submit (fun _ _ => 1000) holdsFive = (result, parties') ∧
      (recordAt node holdsFive (ascii "k")).map (fun r => r.header.cas) = some 1 ∧
      Honours .md [ascii "C1"] (.delete (ascii "k")) 1000 (recordAt node holdsFive (ascii "k"))
        (recordAt node parties' (ascii "k")) (succeeded result) := by
  intro node
  obtain ⟨call, same⟩ : ∃ call, executeRecord node (.delete (ascii "k")) = some call := ⟨_, rfl⟩
  have accepted : parse (ascii "md k C1\r" ++ 10 :: []) =
      .ok (.command ⟨.delete (ascii "k"), 9, false, .metaReply (.delete {})⟩) := by decide +kernel
  have flagged : flagWords .md (tokensOf (withoutCr (ascii "md k C1\r"))) = [ascii "C1"] := by
    decide +kernel
  have keyed : (tokensOf (withoutCr (ascii "md k C1\r")))[1]? = some (ascii "k") := by
    decide +kernel
  have token : (recordAt node holdsFive (ascii "k")).map (fun r => r.header.cas) = some 1 := by
    decide +kernel
  have answered : ∃ reply, (call.run submit (fun _ _ => 1000) holdsFive).1 = .ok reply := by
    obtain rfl := Option.some.inj same
    exact ⟨.deleted, by decide +kernel⟩
  have honoured := (flags_honoured_iff (by decide +kernel) (by decide +kernel)
    (.inr (.inr (.inl rfl))) accepted keyed (.executed same)
    (rfl : call.run submit (fun _ _ => 1000) holdsFive = (_, _))).1 answered
  rw [flagged] at honoured
  refine ⟨call, _, _, same, rfl, token, honoured.mpr ⟨trivial, fun r stored cas mem => ?_⟩⟩
  rw [stored, Option.map_some, Option.some.injEq] at token
  have only : casFlags [ascii "C1"] = [1] := by decide +kernel
  rw [only, List.mem_singleton] at mem
  rw [token, mem]

/-- How a line is answered on that store, with the token and the deadline it leaves. -/
def overFive (line : String) : Option (Option Reply × Option (Nat × Nat)) :=
  (serveLine 1000 line holdsFive).map fun served =>
    (served.1.toOption, ((served.2 0).tables.main.get (ascii "k")).map fun r =>
      (r.header.cas, r.header.expiresAtMs))

/-- A token that is compared with nothing and one that is overridden, deadlines that are not
set, and mode letters that do not exist. -/
theorem overlooked_flags :
    ((holdsFive 0).tables.main.get (ascii "k")).map (fun r =>
        (r.header.cas, r.header.expiresAtMs)) = some (1, 101000) ∧
    overFive "md k C99\r\n" = some (some .deleted, none) ∧
    overFive "ms k 1 C99 C1\r\n6\r\n" = some (some (.stored (.stored 2)), some (2, never)) ∧
    (overFive "ma k T500\r\n").map Prod.snd = some (some (2, 101000)) ∧
    expiryFromTtl 1000 500 = 501000 ∧
    (overFive "ms k 1 T500 T200\r\n6\r\n").map Prod.snd = some (some (2, 201000)) ∧
    ((overFive "ma k MZ\r\n").bind Prod.snd).map Prod.fst = some 2 ∧
    overFive "ms k 1 C1 MZ\r\n6\r\n" = some (some (.stored (.stored 2)), some (2, never)) ∧
    90 ∉ documentedModes .ma ∧ 90 ∉ documentedModes .ms := by
  refine ⟨?_, ?_, ?_, ?_, ?_, ?_, ?_, ?_, ?_, ?_⟩ <;> decide +kernel

end Vash.Server
