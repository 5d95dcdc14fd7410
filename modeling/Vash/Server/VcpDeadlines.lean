import Vash.Node.Batches
import Vash.Proto.Vcp
import Vash.Server.Dispatch

/-!
# The deadlines of VCP requests

VCP states a time to live as an offset in seconds, the store reads memcached's
`exptime`, where a number past thirty days is a date. The server translates a
request between the two before it executes it.

* `deadline_in_window_iff` — it is within the second asked for unless the request is
  a counter operation past thirty days, which the translation passes over.
* `counter_past_thirty_days` — such a request.
-/

namespace Vash.Server

open Library Store Node Vcp

/-! ### The translation -/

/-- `offset_to_store_ttl`. -/
def offsetToStoreTtl (now : Nat) : TtlChange → TtlChange
  | .set offset => .set (ttlFromOffset now offset)
  | .setIfPersistent offset => .setIfPersistent (ttlFromOffset now offset)
  | .keep => .keep

/-- The translation of one write. -/
def translateSet (now : Nat) (set : SetRequest) : SetRequest :=
  { set with ttl := offsetToStoreTtl now set.ttl }

/-- `offsets_to_store_ttls`, while the clock stands at `now`. -/
def offsetsToStoreTtls (now : Nat) : Command → Command
  | .set set => .set (translateSet now set)
  | .setMany sets guard => .setMany (sets.map (translateSet now)) guard
  | .touch key ttlSecs => .touch key (ttlFromOffset now ttlSecs)
  | command => command

/-- The deadline is `offset` seconds ahead of `now`, give or take the second. -/
def InWindow (now offset deadline : Nat) : Prop :=
  now + offset * 1000 ≤ deadline ∧ deadline < now + (offset + 1) * 1000

section Offsets

variable {now offset : Nat}

/-- The furthest stamp the format of the store can hold, in milliseconds. -/
def ceilingMs : Nat := (u32Max - 1) * 1000

theorem u32Max_eq : u32Max = 4294967295 := rfl

theorem maxTtlSecs_eq : maxTtlSecs = 2592000 := rfl

theorem ceilingMs_eq : ceilingMs = 4294967294000 := rfl

theorem expiry_of_short {ttlSecs : Nat} (positive : 0 < ttlSecs) (short : ttlSecs ≤ maxTtlSecs)
    (ceiling : now < ceilingMs) : expiryFromTtl now ttlSecs = now + ttlSecs * 1000 := by
  have limit := maxTtlSecs_eq
  have notExpired : ttlSecs ≠ ttlAlreadyExpired := by
    rw [ttlAlreadyExpired, u32Max_eq]
    omega
  have fits : now + ttlSecs * 1000 < 2 ^ 64 := by
    rw [ceilingMs_eq] at ceiling
    omega
  rw [expiryFromTtl, if_neg positive.ne', if_neg notExpired, if_neg (not_lt.mpr short),
    wrappingAdd64_of_lt fits]

theorem expiry_of_long {ttlSecs : Nat} (long : maxTtlSecs < ttlSecs)
    (fits : ttlSecs < u32Max) : expiryFromTtl now ttlSecs = ttlSecs * 1000 := by
  rw [expiryFromTtl, if_neg (Nat.ne_zero_of_lt long),
    if_neg (show ttlSecs ≠ ttlAlreadyExpired from ne_of_lt fits), if_pos long]

/-- A translated offset lands within the second it asks for. -/
theorem expiry_of_offset (positive : 0 < offset)
    (ceiling : now + (offset + 1) * 1000 < ceilingMs) :
    InWindow now offset (expiryFromTtl now (ttlFromOffset now offset)) := by
  unfold InWindow ttlFromOffset
  by_cases short : offset ≤ maxTtlSecs
  · rw [if_pos short, expiry_of_short positive short (by omega)]
    omega
  · -- The stamp is rounded up to the second, and stays short of the sentinel.
    have below : (now + 999) / 1000 + offset < u32Max - 1 := by
      rw [ceilingMs_eq] at ceiling
      rw [u32Max_eq]
      omega
    dsimp only
    rw [if_neg short, if_pos (by omega), min_eq_left below.le,
      expiry_of_long (by omega) (by omega)]
    omega

/-- An offset the store reads as it stands is an offset up to thirty days. -/
theorem expiry_of_raw_iff (positive : 0 < offset)
    (ceiling : now + (offset + 1) * 1000 < ceilingMs) :
    InWindow now offset (expiryFromTtl now offset) ↔ offset ≤ maxTtlSecs ∨ now = 0 := by
  unfold InWindow
  by_cases short : offset ≤ maxTtlSecs
  · rw [expiry_of_short positive short (by omega)]
    simp only [short, true_or, iff_true]
    omega
  · have fits : offset < u32Max := by
      rw [ceilingMs_eq] at ceiling
      rw [u32Max_eq]
      omega
    rw [expiry_of_long (not_le.mp short) fits]
    omega

end Offsets

/-! ### The calls -/

/-- The clocks that stand at `now`. -/
abbrev Standing (now : Nat) (clock : Nat → Nat) : Prop := ∀ k, clock k = now

/-- The deadline under a key of a shard. -/
def Expires (sh : Shard) (key : Bytes) (deadline : Nat) : Prop :=
  ∃ r, sh.tables.main.get key = some r ∧ r.header.expiresAtMs = deadline

section Calls

variable {eng : Engine} {s : Txn} {now : Nat}

theorem touchJob_expires (stands : s.StandsAt now) (key : Bytes) (ttlSecs : Nat) :
    wp (apply eng (.touch [key] ttlSecs))
      (fun outcome s' => ∃ hit, outcome = .touched [hit] ∧
        (∀ r, s.tables.main.get key = some r →
          r.isAlive now eng.epoch eng.registry.generation = true → hit = true) ∧
        (hit = true → s'.Expires key (expiryFromTtl now ttlSecs))) (fun _ _ => True) s := by
  refine wp.bind (m := fun hits s' => ∃ hit, hits = [hit] ∧
    (∀ r, s.tables.main.get key = some r →
      r.isAlive now eng.epoch eng.registry.generation = true → hit = true) ∧
    (hit = true → s'.Expires key (expiryFromTtl now ttlSecs))) ?_ ?_
  · exact wp.bind (applyTouch_expires stands key ttlSecs) fun hit _ touched =>
      wp.pure ⟨hit, rfl, touched⟩
  · rintro _ _ ⟨hit, rfl, touched⟩
    exact wp.pure ⟨hit, rfl, touched⟩

variable {n : Nat} [NeZero n] (node : VashStore n) {parties : Fin n → Shard}

/-- A touch that hits leaves the deadline of its reading. -/
theorem touch_expires (key : Bytes) (ttlSecs : Nat) :
    (node.touch key ttlSecs).Ensures submit (Standing now)
      (fun hit parties' => hit = true →
        Expires (parties' (forKey node.hash key)) key (expiryFromTtl now ttlSecs))
      (fun _ _ => True) parties := by
  refine Call.Ensures.bind ((ask_ensures (fun answer t => ∀ hits : List Bool,
    answer = some hits → hits.head?.getD false = true → ∃ r, t.main.get key = some r ∧
      r.header.expiresAtMs = expiryFromTtl now ttlSecs) nofun ?_).mono
    (fun hits _ stored hit => stored hits rfl hit) fun _ _ _ => trivial)
  intro clock stands
  have standing : Txn.StandsAt { (parties (forKey node.hash key)).begin [] with clock } now :=
    stands
  refine (touchJob_expires standing key ttlSecs).mono ?_ fun _ _ _ => .inl nofun
  rintro _ s ⟨hit, rfl, -, stored⟩ _ ⟨⟩
  exact stored

/-- A counter operation that writes leaves the deadline its policy makes of the one the
record had. -/
theorem arithmetic_expires (op : Arithmetic) :
    (node.arithmetic op).Ensures submit (Standing now)
      (fun applied parties' => (∃ a, applied = some a ∧ a.wrote = true) →
        Expires (parties' (forKey node.hash op.key)) op.key
          (deadlineAfter now op.ttl ((parties (forKey node.hash op.key)).tables.deadlineAt
            (parties (forKey node.hash op.key)).engine op.key now)))
      (fun _ _ => True) parties := by
  refine (ask_ensures (fun answer t => ∀ applied, answer = some applied →
    (∃ a, applied = some a ∧ a.wrote = true) → ∃ r, t.main.get op.key = some r ∧
      r.header.expiresAtMs = deadlineAfter now op.ttl
        ((parties (forKey node.hash op.key)).tables.deadlineAt
          (parties (forKey node.hash op.key)).engine op.key now)) nofun ?_).mono
    (fun applied _ stored => stored applied rfl) fun _ _ _ => trivial
  intro clock stands
  have standing : Txn.StandsAt { (parties (forKey node.hash op.key)).begin [] with clock } now :=
    stands
  refine wp.bind ((applyArithmetic_expires standing op).stops
    fun _ _ _ => .inl nofun) fun applied s stored => wp.pure ?_
  rintro _ ⟨⟩
  exact stored

/-- A prepared write has the deadline of the reading it was prepared at. -/
theorem prepares_deadline : PreparesAs (Standing now) fun _ set r =>
    ∀ ttlSecs, set.ttl = .set ttlSecs → r.header.expiresAtMs = expiryFromTtl now ttlSecs := by
  intro clock sh set p stands prepared
  rw [stands 0] at prepared
  have stamped := of_prepareOn prepared
  exact ⟨stamped.key, fun cas e ttlSecs ttl => p.finish_settled (stamped.settled ttlSecs ttl) cas e⟩

/-- A write of a whole value that is stored leaves the deadline of the reading it was
prepared at. -/
theorem store_expires {set : SetRequest} {ttlSecs : Nat} (whole : set.mode.whole = true)
    (ttl : set.ttl = .set ttlSecs) :
    (node.store set).Ensures submit (Standing now)
      (fun written parties' => ∀ cas, written.outcome = .stored cas →
        Expires (parties' (forKey node.hash set.key)) set.key (expiryFromTtl now ttlSecs))
      (fun _ _ => True) parties := by
  refine (store_stores prepares_deadline node whole parties).imp ?_
  intro written parties' stored cas outcome
  obtain ⟨r, found, settled⟩ := stored cas outcome
  exact ⟨r, found, settled ttlSecs ttl⟩

/-- After a batch a key has the deadline of the item the sort left last. -/
theorem setMany_expires (sets : List SetRequest) :
    (node.setMany sets).Ensures submit (Standing now)
      (fun _ parties' => ∀ key set ttlSecs,
        lastSet ((node.arranged SetRequest.key sets).map Placed.item) key = some set →
          set.ttl = .set ttlSecs →
            Expires (parties' (forKey node.hash key)) key (expiryFromTtl now ttlSecs))
      (fun _ _ => True) parties := by
  refine (setMany_stores prepares_deadline node sets parties).imp ?_
  intro _ parties' stored key set ttlSecs last ttl
  obtain ⟨r, found, settled⟩ := stored key set last
  exact ⟨r, found, settled ttlSecs ttl⟩

end Calls

/-! ### Requests -/

section Requests

variable {n : Nat} [NeZero n] (node : VashStore n)

/-- A request that sets the deadline of `key` to `offset` seconds from `now`. Of the
items of a batch that share a key it is the one the sort leaves last that is stored; a
counter operation may spare a deadline that is there. -/
inductive Asks (now : Nat) (parties : Fin n → Shard) : Command → Bytes → Nat → Prop
  | set {key value : Bytes} {offset : Nat} {tags : List Bytes} :
      Asks now parties (.set (plainSet key value offset tags)) key offset
  | setMany {sets : List SetRequest} {key value : Bytes} {offset : Nat} {tags : List Bytes}
      (mem : plainSet key value offset tags ∈ sets)
      (last : lastSet ((node.arranged SetRequest.key (sets.map (translateSet now))).map
        Placed.item) key = some (translateSet now (plainSet key value offset tags))) :
      Asks now parties (.setMany sets .always) key offset
  | touch {key : Bytes} {offset : Nat} : Asks now parties (.touch key offset) key offset
  | arithmetic {op : Arithmetic} {offset : Nat} (ttl : op.ttl = .set offset) :
      Asks now parties (.arithmetic op) op.key offset
  | persistent {op : Arithmetic} {offset : Nat} (ttl : op.ttl = .setIfPersistent offset)
      (none : (parties (forKey node.hash op.key)).tables.deadlineAt
        (parties (forKey node.hash op.key)).engine op.key now = never) :
      Asks now parties (.arithmetic op) op.key offset

/-- What the server runs for a translated request: its call, or, for an unconditional
write, the run of such writes it was held back with (`SetBatch`), no two under one key. -/
inductive Serves : Command → NodeCall n Reply → Prop
  | executed {command : Command} {call : NodeCall n Reply}
      (same : executeRecord node command = some call) : Serves command call
  | flushed {set : SetRequest} {run : List SetRequest} (mem : set ∈ run)
      (held : ∀ other ∈ run, batchable (.set other) = some other)
      (once : (run.map SetRequest.key).Nodup) :
      Serves (.set set) (do return .storedMany (← node.setMany run))

variable {node} {now offset : Nat} {parties parties' : Fin n → Shard} {command : Command}
  {call : NodeCall n Reply} {key : Bytes} {reply : Reply}

/-- Without a second write of its key, a set is the last one. -/
theorem lastSet_of_nodup {set : SetRequest} {run sets : List SetRequest} (mem : set ∈ run)
    (once : (run.map SetRequest.key).Nodup) (perm : sets.Perm run) :
    lastSet sets set.key = some set := by
  have alone : run.filter (fun other => other.key = set.key) = [set] := by
    obtain ⟨before, after, rfl⟩ := List.append_of_mem mem
    rw [List.map_append, List.map_cons, List.nodup_middle, List.nodup_cons,
      ← List.map_append] at once
    have others : ∀ other ∈ before ++ after, other.key ≠ set.key := fun other inside same =>
      once.1 (same ▸ List.mem_map_of_mem inside)
    have left : before.filter (fun other => other.key = set.key) = [] :=
      List.filter_eq_nil_iff.mpr fun other inside => by simp [others other (by simp [inside])]
    have right : after.filter (fun other => other.key = set.key) = [] :=
      List.filter_eq_nil_iff.mpr fun other inside => by simp [others other (by simp [inside])]
    simp [List.filter_append, left, right]
  have same : sets.filter (fun other => other.key = set.key) = [set] :=
    List.perm_singleton.mp (alone ▸ perm.filter _)
  rw [lastSet, same]
  rfl

/-- What the store is told of an offset: a counter operation's is not translated. -/
def storedTtl (now offset : Nat) : Command → Nat
  | .arithmetic _ => offset
  | _ => ttlFromOffset now offset

/-- A write of a whole value leaves its deadline, alone or in the run it is flushed with. -/
theorem Serves.set_expires {set : SetRequest} {ttlSecs : Nat} (serves : Serves node (.set set) call)
    (whole : set.mode.whole = true) (ttl : set.ttl = .set ttlSecs)
    (silent : set.returnPrevious = false) :
    call.Ensures submit (Standing now)
      (fun reply parties' => reply.wrote = true →
        Expires (parties' (forKey node.hash set.key)) set.key (expiryFromTtl now ttlSecs))
      (fun _ _ => True) parties := by
  cases serves with
  | executed same =>
    obtain rfl := Option.some.inj same
    refine (store_expires node whole ttl).seq ?_
    rintro ⟨outcome, _⟩ parties₁ stored
    rw [if_neg (by simp [silent])]
    intro wrote
    cases outcome with
    | stored cas => exact stored cas rfl
    | _ => cases wrote
  | flushed mem held once =>
    refine (setMany_expires node _).seq fun cas parties₁ stored _ => ?_
    exact stored _ _ _ (lastSet_of_nodup mem once arrange_items_perm) ttl

theorem Serves.arithmetic_expires {op : Arithmetic} (serves : Serves node (.arithmetic op) call) :
    call.Ensures submit (Standing now)
      (fun reply parties' => reply.wrote = true → Expires (parties' (forKey node.hash op.key))
        op.key
        (deadlineAfter now op.ttl ((parties (forKey node.hash op.key)).tables.deadlineAt
          (parties (forKey node.hash op.key)).engine op.key now)))
      (fun _ _ => True) parties := by
  cases serves with
  | executed same =>
    obtain rfl := Option.some.inj same
    refine (Server.arithmetic_expires node op).seq fun applied parties₁ stored => ?_
    cases applied with
    | none => exact fun wrote => by cases wrote
    | some a => exact fun wrote => stored ⟨a, rfl, wrote⟩

theorem served_ensures (asks : Asks node now parties command key offset)
    (serves : Serves node (offsetsToStoreTtls now command) call) :
    call.Ensures submit (Standing now)
      (fun reply parties' => reply.wrote = true → Expires (parties' (forKey node.hash key)) key
        (expiryFromTtl now (storedTtl now offset command))) (fun _ _ => True) parties := by
  cases asks with
  | @set _ value _ tags => exact Serves.set_expires serves rfl rfl rfl
  | @setMany sets _ value _ tags mem last =>
    change Serves node (.setMany (sets.map (translateSet now)) .always) call at serves
    cases serves with
    | executed same =>
      obtain rfl := Option.some.inj same
      exact (setMany_expires node _).seq fun cas parties₁ stored _ => stored key _ _ last rfl
  | touch =>
    change Serves node (.touch key (ttlFromOffset now offset)) call at serves
    cases serves with
    | executed same =>
      obtain rfl := Option.some.inj same
      refine (touch_expires node key _).seq fun hit parties₁ stored => ?_
      cases hit with
      | true => exact fun _ => stored rfl
      | false => exact fun wrote => by cases wrote
  | @arithmetic op _ ttl =>
    have expires : call.Ensures submit (Standing now) _ _ parties :=
      Serves.arithmetic_expires serves
    rwa [ttl] at expires
  | @persistent op _ ttl absent =>
    have expires : call.Ensures submit (Standing now) _ _ parties :=
      Serves.arithmetic_expires serves
    rwa [ttl, absent, deadlineAfter, if_pos rfl] at expires

/-- While the clock stands at `now`, a request that sets a deadline leaves it within the
second it asks for exactly when it is not a counter operation, asks for thirty days at
most, or the clock is at its start. -/
theorem deadline_in_window_iff (asks : Asks node now parties command key offset)
    (positive : 0 < offset) (ceiling : now + (offset + 1) * 1000 < ceilingMs)
    (serves : Serves node (offsetsToStoreTtls now command) call)
    (ran : call.run submit (fun _ _ => now) parties = (.ok reply, parties'))
    (wrote : reply.wrote = true) :
    (∃ r, (parties' (forKey node.hash key)).tables.main.get key = some r ∧
        InWindow now offset r.header.expiresAtMs) ↔
      (∀ op, command ≠ .arithmetic op) ∨ offset ≤ maxTtlSecs ∨ now = 0 := by
  obtain ⟨r, found, deadline⟩ := (served_ensures asks serves).run (fun _ _ => rfl) ran wrote
  have within : (∃ r, (parties' (forKey node.hash key)).tables.main.get key = some r ∧
      InWindow now offset r.header.expiresAtMs) ↔
        InWindow now offset (expiryFromTtl now (storedTtl now offset command)) := by
    rw [found, ← deadline]
    simp
  rw [within]
  by_cases counter : ∃ op, command = .arithmetic op
  · obtain ⟨op, rfl⟩ := counter
    rw [storedTtl, expiry_of_raw_iff positive ceiling]
    simp
  · have other : ∀ op, command ≠ .arithmetic op := fun op same => counter ⟨op, same⟩
    have translated : storedTtl now offset command = ttlFromOffset now offset := by
      cases command with
      | arithmetic op => exact absurd rfl (other op)
      | _ => rfl
    rw [translated]
    simp only [other, ne_eq, not_false_eq_true, implies_true, true_or, iff_true]
    exact expiry_of_offset positive ceiling

end Requests

/-- A request served alone by a new store of one shard, while the clock stands. -/
def servedAt (now : Nat) (command : Command) :
    Option (Except StoreError Reply × (Fin 1 → Shard)) :=
  (executeRecord (oneShardStore (.stable 1)) (offsetsToStoreTtls now command)).map fun call =>
    call.run submit (fun _ _ => now) newShard

/-- The deadline under the key `7` of a store of one shard. -/
def deadlineOfSeven (parties : Fin 1 → Shard) : Option Nat :=
  ((parties 0).tables.main.get [7]).map fun r => r.header.expiresAtMs

/-- A write that is to live for some forty-six days. -/
def longSet : SetRequest := plainSet [7] [1] 4000000 []

/-- It is stored with a deadline that far ahead. -/
theorem long_set_in_window :
    ∃ call reply parties',
      executeRecord (oneShardStore (.stable 1)) (offsetsToStoreTtls 1700000000000 (.set longSet)) =
        some call ∧
      call.run submit (fun _ _ => 1700000000000) newShard = (.ok reply, parties') ∧
      reply.wrote = true ∧
      ∃ r, (parties' (forKey (oneShardStore (.stable 1)).hash [7])).tables.main.get [7] = some r ∧
        InWindow 1700000000000 4000000 r.header.expiresAtMs := by
  obtain ⟨call, same⟩ : ∃ call, executeRecord (oneShardStore (.stable 1))
      (offsetsToStoreTtls 1700000000000 (.set longSet)) = some call := ⟨_, rfl⟩
  have answer : (servedAt 1700000000000 (.set longSet)).map Prod.fst =
      some (.ok (.stored (.stored 1))) := by decide +kernel
  rw [servedAt, same] at answer
  have ran : call.run submit (fun _ _ => 1700000000000) newShard = (.ok (.stored (.stored 1)),
      (call.run submit (fun _ _ => 1700000000000) newShard).2) := by
    rw [← Option.some.inj answer]
  have asks : Asks (oneShardStore (.stable 1)) 1700000000000 newShard (.set longSet) [7] 4000000 :=
    .set
  exact ⟨call, _, _, same, ran, rfl, (deadline_in_window_iff asks (by decide) (by decide)
    (.executed same) ran rfl).mpr (.inl fun _ => by simp)⟩

/-- A counter that is to live for thirty days and a second. -/
def monthlyCounter : Arithmetic := ⟨[7], .counter 1 false, .fail, .createAtZero, .set 2592001⟩

/-- In 2023 it is stored with a deadline in 1970, and is gone at once. -/
theorem counter_past_thirty_days :
    (servedAt 1700000000000 (.arithmetic monthlyCounter)).map (fun served =>
      (served.1, deadlineOfSeven served.2, (served.2 0).get 1700000000000 [7])) =
        some (.ok (.arithmetic ⟨.counter 1, .counter 1, true⟩), some 2592001000, none) ∧
      ¬ InWindow 1700000000000 2592001 2592001000 :=
  ⟨by decide +kernel, by unfold InWindow; omega⟩

end Vash.Server
