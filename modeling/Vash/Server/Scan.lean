import Vash.Library.Run
import Vash.Library.Search
import Vash.Core.Basic

/-!
# The token table behind `SCAN`

A walk is resumed by a token that stands for its position. A call of `issue` takes its
token from a counter first and pushes the position under the lock afterwards, so that
several calls may reach the lock in another order than their tokens have. `resolve` looks
a token up by binary search.

* `token_resumes_its_walk` — what a run says of the tokens it returned.
-/

namespace Vash.Server.ScanCursors

open Library

/-- `START`. -/
def start : Nat := 0

/-- `Entry`. -/
structure Entry where
  token : Nat
  cursor : Bytes
  issued : Nat
  deriving DecidableEq, Repr

/-- `ScanCursors`, with the calls of `issue` that have not pushed yet and the positions
pushed so far, in the order of the pushes. -/
structure Scans where
  live : List Entry
  next : Nat
  waiting : List Entry
  pushed : List Entry
  deriving DecidableEq, Repr

/-- `ScanCursors::new`. -/
def new : Scans := ⟨[], start + 1, [], []⟩

/-- The steps of the calls of `issue`: one takes a token and reads the clock, one that
waits takes the lock. A push reads the clock again before each position it sweeps. -/
inductive ScanEvent where
  | take (cursor : Bytes) (issued : Nat)
  | push (caller : Nat) (readings : Nat → Nat)

section
variable (capacity ttl : Nat)

/-- The positions above the capacity leave at the front. -/
def trim : List Entry → List Entry
  | [] => []
  | e :: rest => if (e :: rest).length > capacity then trim rest else e :: rest

/-- The expired positions leave at the front. -/
def sweep : (readings : Nat → Nat) → List Entry → List Entry
  | _, [] => []
  | readings, e :: rest =>
    if readings 0 - e.issued ≥ ttl then sweep (fun i => readings (i + 1)) rest else e :: rest

/-- One step of `issue`; the counter is a `u64` and wraps. -/
def step (s : Scans) : ScanEvent → Scans
  | .take cursor issued =>
    { s with
      next := (s.next + 1) % 2 ^ 64
      waiting := s.waiting ++ [⟨s.next, cursor, issued⟩] }
  | .push caller readings =>
    match s.waiting[caller]? with
    | none => s
    | some e =>
      { s with
        live := sweep ttl readings (trim capacity (s.live ++ [e]))
        waiting := s.waiting.eraseIdx caller
        pushed := s.pushed ++ [e] }

/-- `resolve`, at a reading of the clock. -/
def resolve (search : DequeSearch) (now : Nat) (s : Scans) (token : Nat) : Option Bytes :=
  match search.find (s.live.map Entry.token) token with
  | none => none
  | some index =>
    match s.live[index]? with
    | none => none
    | some e => if now - e.issued < ttl then some e.cursor else none

end

/-- The calls of `issue` a run begins. -/
def takes : List ScanEvent → Nat
  | [] => 0
  | .take _ _ :: rest => takes rest + 1
  | .push _ _ :: rest => takes rest

/-- The clock readings of the run are at most `now`. -/
def ReadBy (now : Nat) (events : List ScanEvent) : Prop :=
  ∀ caller readings, ScanEvent.push caller readings ∈ events → ∀ i, readings i ≤ now

/-- A push comes after those of the smaller tokens: its token is above every live one. -/
def InTokenOrder (s : Scans) : ScanEvent → Prop
  | .take _ _ => True
  | .push caller _ => ∀ e, s.waiting[caller]? = some e → ∀ l ∈ s.live, l.token < e.token

/-! ### The tokens -/

/-- The tokens handed out are those below the counter, each to one call. -/
structure Counted (s : Scans) : Prop where
  distinct : ((s.waiting ++ s.pushed).map Entry.token).Nodup
  positive : ∀ e ∈ s.waiting ++ s.pushed, start < e.token
  below : ∀ e ∈ s.waiting ++ s.pushed, e.token < s.next
  room : start < s.next

theorem new_counted : Counted new where
  distinct := List.nodup_nil
  positive := by simp [new]
  below := by simp [new]
  room := by decide

variable {capacity ttl : Nat} {s : Scans}

/-- A push only moves its call from those waiting to those that have pushed. -/
theorem step_push_perm (capacity ttl : Nat) (s : Scans) (caller : Nat)
    (readings : Nat → Nat) :
    ((step capacity ttl s (.push caller readings)).waiting ++
      (step capacity ttl s (.push caller readings)).pushed).Perm (s.waiting ++ s.pushed) := by
  simp only [step]
  split
  · exact List.Perm.refl _
  · rename_i e at'
    obtain ⟨bound, same⟩ := List.getElem?_eq_some_iff.mp at'
    have moved : (s.waiting.eraseIdx caller ++ (s.pushed ++ [e])).Perm
        (e :: s.waiting.eraseIdx caller ++ s.pushed) := by
      rw [← List.append_assoc]
      exact List.perm_append_singleton _ _
    refine moved.trans (List.Perm.append_right _ ?_)
    rw [← same]
    exact List.getElem_cons_eraseIdx_perm bound

theorem step_push_next (caller : Nat) (readings : Nat → Nat) :
    (step capacity ttl s (.push caller readings)).next = s.next := by
  simp only [step]
  split <;> rfl

theorem Counted.take (h : Counted s) (low : s.next + 1 < 2 ^ 64) (cursor : Bytes)
    (issued : Nat) : Counted (step capacity ttl s (.take cursor issued)) := by
  have perm : (s.waiting ++ [Entry.mk s.next cursor issued] ++ s.pushed).Perm
      (Entry.mk s.next cursor issued :: (s.waiting ++ s.pushed)) := by
    rw [List.append_assoc]
    exact List.perm_middle
  have next : (s.next + 1) % 2 ^ 64 = s.next + 1 := Nat.mod_eq_of_lt low
  have room := h.room
  constructor
  · refine (perm.map Entry.token).nodup_iff.mpr (List.nodup_cons.mpr ⟨fun mem => ?_, h.distinct⟩)
    obtain ⟨e, held, same⟩ := List.mem_map.mp mem
    have := h.below e held
    simp only at same
    omega
  · intro e mem
    rcases List.mem_cons.mp (perm.mem_iff.mp mem) with rfl | old
    · exact room
    · exact h.positive e old
  · intro e mem
    simp only [step, next]
    rcases List.mem_cons.mp (perm.mem_iff.mp mem) with rfl | old
    · exact Nat.lt_succ_self _
    · exact Nat.lt_succ_of_lt (h.below e old)
  · simp only [step, next]
    omega

theorem Counted.push (h : Counted s) (caller : Nat) (readings : Nat → Nat) :
    Counted (step capacity ttl s (.push caller readings)) := by
  have perm := step_push_perm capacity ttl s caller readings
  constructor
  · exact (perm.map Entry.token).nodup_iff.mpr h.distinct
  · exact fun e mem => h.positive e (perm.mem_iff.mp mem)
  · rw [step_push_next]
    exact fun e mem => h.below e (perm.mem_iff.mp mem)
  · rw [step_push_next]
    exact h.room

/-- A run that does not take the counter round keeps its tokens apart. -/
theorem Counted.run (h : Counted s) (events : List ScanEvent)
    (low : s.next + takes events < 2 ^ 64) :
    Counted (Library.run (step capacity ttl) s events) := by
  induction events generalizing s with
  | nil => exact h
  | cons event rest ih =>
    cases event with
    | take cursor issued =>
      have low' : s.next + 1 < 2 ^ 64 := by simp only [takes] at low; omega
      refine ih (h.take low' cursor issued) ?_
      simp only [step, Nat.mod_eq_of_lt low']
      simp only [takes] at low
      omega
    | push caller readings =>
      refine ih (h.push caller readings) ?_
      rw [step_push_next]
      exact low

/-! ### The positions that left -/

theorem trim_split (capacity : Nat) (entries : List Entry) :
    ∃ popped, entries = popped ++ trim capacity entries ∧
    ∀ i, i < popped.length → capacity ≤ entries.length - (i + 1) := by
  induction entries with
  | nil => exact ⟨[], rfl, by simp⟩
  | cons e rest ih =>
    unfold trim
    split
    · rename_i above
      obtain ⟨popped, eq, enough⟩ := ih
      refine ⟨e :: popped, by rw [List.cons_append, ← eq], fun i lt => ?_⟩
      cases i with
      | zero => simp only [List.length_cons] at above ⊢; omega
      | succ i =>
        have := enough i (by simpa using lt)
        simp only [List.length_cons]
        omega
    · exact ⟨[], rfl, by simp⟩

theorem sweep_split (ttl : Nat) (readings : Nat → Nat) (entries : List Entry) :
    ∃ popped, entries = popped ++ sweep ttl readings entries ∧
      ∀ e ∈ popped, ∃ i, ttl ≤ readings i - e.issued := by
  induction entries generalizing readings with
  | nil => exact ⟨[], rfl, by simp⟩
  | cons e rest ih =>
    unfold sweep
    split
    · rename_i expired
      obtain ⟨popped, eq, old⟩ := ih fun i => readings (i + 1)
      refine ⟨e :: popped, by rw [List.cons_append, ← eq], fun x mem => ?_⟩
      rcases List.mem_cons.mp mem with rfl | mem
      · exact ⟨0, expired⟩
      · obtain ⟨i, out⟩ := old x mem
        exact ⟨i + 1, out⟩
    · exact ⟨[], rfl, by simp⟩

/-- What a push leaves in the table is the end of it. -/
theorem sweep_trim_suffix (readings : Nat → Nat) (entries : List Entry) :
    sweep ttl readings (trim capacity entries) <:+ entries := by
  obtain ⟨displaced, trimmed, -⟩ := trim_split capacity entries
  obtain ⟨old, swept, -⟩ := sweep_split ttl readings (trim capacity entries)
  exact List.IsSuffix.trans ⟨old, swept.symm⟩ ⟨displaced, trimmed.symm⟩

/-- The table holds the last of the pushes. -/
theorem live_suffix (events : List ScanEvent) (h : s.live <:+ s.pushed) :
    (Library.run (step capacity ttl) s events).live <:+
      (Library.run (step capacity ttl) s events).pushed := by
  induction events generalizing s with
  | nil => exact h
  | cons event rest ih =>
    refine ih ?_
    cases event with
    | take cursor issued => exact h
    | push caller readings =>
      simp only [step]
      split
      · exact h
      · obtain ⟨gone, eq⟩ := h
        refine (sweep_trim_suffix readings _).trans ⟨gone, ?_⟩
        rw [← List.append_assoc, eq]

/-- The table holds the last pushes; a position that left was displaced or is expired. -/
def Held (capacity ttl now : Nat) (s : Scans) : Prop :=
  ∃ gone, s.pushed = gone ++ s.live ∧ ∀ i e, gone[i]? = some e →
    capacity ≤ s.pushed.length - (i + 1) ∨ ttl ≤ now - e.issued

theorem new_held (now : Nat) : Held capacity ttl now new := ⟨[], rfl, by simp⟩

theorem Held.push {now : Nat} (h : Held capacity ttl now s) (caller : Nat)
    {readings : Nat → Nat} (read : ∀ i, readings i ≤ now) :
    Held capacity ttl now (step capacity ttl s (.push caller readings)) := by
  simp only [step]
  split
  · exact h
  · rename_i e _
    obtain ⟨gone, eq, left⟩ := h
    obtain ⟨displaced, trimmed, enough⟩ := trim_split capacity (s.live ++ [e])
    obtain ⟨old, swept, expired⟩ :=
      sweep_split ttl readings (trim capacity (s.live ++ [e]))
    have whole : s.pushed ++ [e] = gone ++ (s.live ++ [e]) := by rw [eq, List.append_assoc]
    refine ⟨gone ++ (displaced ++ old), ?_, fun i x here => ?_⟩
    · rw [List.append_assoc, List.append_assoc, ← swept, ← trimmed]
      exact whole
    · have size : (s.pushed ++ [e]).length = gone.length + (s.live ++ [e]).length := by
        rw [whole, List.length_append]
      by_cases before : i < gone.length
      · rw [List.getElem?_append_left before] at here
        have := left i x here
        simp only [List.length_append] at *
        omega
      · rw [List.getElem?_append_right (by omega)] at here
        by_cases first : i - gone.length < displaced.length
        · have := enough _ first
          left
          dsimp only
          omega
        · rw [List.getElem?_append_right (by omega)] at here
          obtain ⟨j, out⟩ := expired x (List.mem_of_getElem? here)
          have := read j
          right
          omega

theorem Held.run {now : Nat} (h : Held capacity ttl now s) {events : List ScanEvent}
    (read : ReadBy now events) :
    Held capacity ttl now (Library.run (step capacity ttl) s events) := by
  induction events generalizing s with
  | nil => exact h
  | cons event rest ih =>
    have later : ReadBy now rest := fun caller readings mem =>
      read caller readings (List.mem_cons_of_mem _ mem)
    cases event with
    | take cursor issued => exact ih h later
    | push caller readings =>
      exact ih (h.push caller (read caller readings List.mem_cons_self)) later

/-- A position that is neither displaced nor expired is in the table. -/
theorem Held.mem_live {now : Nat} (h : Held capacity ttl now s) {before after : List Entry}
    {e : Entry} (pushed : s.pushed = before ++ e :: after) (few : after.length < capacity)
    (young : now - e.issued < ttl) : e ∈ s.live := by
  obtain ⟨gone, eq, left⟩ := h
  have size : s.pushed.length = before.length + (after.length + 1) := by
    rw [pushed, List.length_append, List.length_cons]
  have here : (gone ++ s.live)[before.length]? = some e := by
    rw [← eq, pushed, List.getElem?_append_right le_rfl, Nat.sub_self, List.getElem?_cons_zero]
  by_cases inGone : before.length < gone.length
  · rw [List.getElem?_append_left inGone] at here
    have := left _ _ here
    omega
  · rw [List.getElem?_append_right (by omega)] at here
    exact List.mem_of_getElem? here

/-! ### The order in the table -/

/-- The table is in the order of its tokens. -/
def Ascending (s : Scans) : Prop := (s.live.map Entry.token).Pairwise (· < ·)

theorem new_ascending : Ascending new := List.Pairwise.nil

theorem Ascending.step (h : Ascending s) {event : ScanEvent} (inOrder : InTokenOrder s event) :
    Ascending (ScanCursors.step capacity ttl s event) := by
  cases event with
  | take cursor issued => exact h
  | push caller readings =>
    simp only [ScanCursors.step]
    split
    · exact h
    · rename_i e waits
      have longer : ((s.live ++ [e]).map Entry.token).Pairwise (· < ·) := by
        rw [List.map_append, List.pairwise_append]
        refine ⟨h, List.pairwise_singleton _ _, fun a mem b single => ?_⟩
        obtain ⟨l, live, rfl⟩ := List.mem_map.mp mem
        obtain rfl := List.mem_singleton.mp single
        exact inOrder e waits l live
      exact longer.sublist ((sweep_trim_suffix readings _).sublist.map _)

/-! ### Resolving -/

/-- What is resolved is the cursor of a live position with that token. -/
theorem resolve_mem {search : DequeSearch} {now token : Nat} {cursor : Bytes}
    (found : resolve ttl search now s token = some cursor) :
    ∃ e ∈ s.live, e.token = token ∧ e.cursor = cursor := by
  simp only [resolve] at found
  split at found
  · cases found
  · rename_i index at'
    have key := search.sound _ _ _ at'
    rw [List.getElem?_map] at key
    split at found
    · cases found
    · rename_i e here
      rw [here] at key
      split at found
      · exact ⟨e, List.mem_of_getElem? here, Option.some.inj key, Option.some.inj found⟩
      · cases found

/-- In a table in token order with no token twice a live young position is found. -/
theorem resolve_of_ascending {search : DequeSearch} {now : Nat} (ascending : Ascending s)
    {e : Entry} (live : e ∈ s.live) (young : now - e.issued < ttl) :
    resolve ttl search now s e.token = some e.cursor := by
  have present := search.complete _ e.token ascending (List.mem_map_of_mem live)
  obtain ⟨index, found⟩ := Option.isSome_iff_exists.mp present
  have key := search.sound _ _ _ found
  rw [List.getElem?_map] at key
  obtain ⟨x, here, same⟩ := Option.map_eq_some_iff.mp key
  -- tokens in ascending order are distinct, so the position found is the one asked for
  have nodup : (s.live.map Entry.token).Nodup := ascending.imp fun lt => Nat.ne_of_lt lt
  obtain rfl := List.inj_on_of_nodup_map nodup (List.mem_of_getElem? here) live same
  simp only [resolve, found, here, if_pos young]

/-- The calls of `issue` return different tokens and never the start; a token resolves to
the cursor it was issued for or to nothing; and when the pushes come in the order of their
tokens it does resolve while it is young and fewer than the capacity were pushed after it. -/
theorem token_resumes_its_walk (search : DequeSearch) (capacity ttl : Nat)
    (events : List ScanEvent) (low : takes events < 2 ^ 64 - 1) :
    let s := Library.run (step capacity ttl) new events
    (((s.waiting ++ s.pushed).map Entry.token).Nodup ∧
      ∀ e ∈ s.waiting ++ s.pushed, e.token ≠ start) ∧
    (∀ now token cursor, resolve ttl search now s token = some cursor →
      (∃ e ∈ s.pushed, e.token = token) ∧
        ∀ e ∈ s.waiting ++ s.pushed, e.token = token → e.cursor = cursor) ∧
    (Along (step capacity ttl) InTokenOrder new events →
      ∀ now before e after, s.pushed = before ++ e :: after → ReadBy now events →
        now - e.issued < ttl → after.length < capacity →
        resolve ttl search now s e.token = some e.cursor) := by
  intro s
  have counted : Counted s := new_counted.run events (by simp only [new, start]; omega)
  refine ⟨⟨counted.distinct, fun e mem => (counted.positive e mem).ne'⟩, ?_, ?_⟩
  · intro now token cursor found
    obtain ⟨x, live, same, is⟩ := resolve_mem found
    have pushed : x ∈ s.pushed := (live_suffix events List.suffix_rfl).mem live
    refine ⟨⟨x, pushed, same⟩, fun e mem token' => ?_⟩
    rw [List.inj_on_of_nodup_map counted.distinct mem (List.mem_append_right _ pushed)
      (token'.trans same.symm)]
    exact is
  · intro inOrder now before e after pushed read young few
    have held : Held capacity ttl now s := (new_held now).run read
    have ascending : Ascending s :=
      run_invariant (fun _ _ h inOrder => h.step inOrder) new_ascending inOrder
    exact resolve_of_ascending ascending (held.mem_live pushed few young) young

/-- Two calls that push in the order of their tokens. -/
def inTurn : List ScanEvent :=
  [.take [1] 0, .take [2] 0, .push 0 (fun _ => 5), .push 0 (fun _ => 5)]

theorem token_resumes_its_walk_in_turn :
    resolve 60 halving 7 (Library.run (step 2 60) new inTurn) 2 = some [2] := by
  have walk := (token_resumes_its_walk halving 2 60 inTurn (by decide)).2.2
  refine walk ?_ 7 [⟨1, [1], 0⟩] ⟨2, [2], 0⟩ [] (by decide) ?_ (by decide) (by decide)
  · refine ⟨trivial, trivial, ?_, ?_, trivial⟩
    · intro e _ l mem
      exact absurd mem List.not_mem_nil
    · intro e waits l mem
      have second : e = ⟨2, [2], 0⟩ := (Option.some.inj waits).symm
      have first : l = ⟨1, [1], 0⟩ := List.mem_singleton.mp mem
      rw [second, first]
      decide
  · intro caller readings mem i
    simp only [inTurn, List.mem_cons, reduceCtorEq, ScanEvent.push.injEq, List.not_mem_nil,
      false_or, or_false, or_self] at mem
    rw [mem.2]
    exact (by decide : 5 ≤ 7)

/-- The call with the second token reaches the lock first. -/
def overtaken : List ScanEvent :=
  [.take [1] 0, .take [2] 0, .push 1 (fun _ => 5), .push 0 (fun _ => 5)]

/-- A live young token of a table that has room for it does not resolve. -/
theorem overtaking_token_is_lost :
    let s := Library.run (step 2 60) new overtaken
    s.pushed = [⟨2, [2], 0⟩, ⟨1, [1], 0⟩] ∧ s.live = s.pushed ∧
      resolve 60 halving 7 s 2 = none := by
  decide

end Vash.Server.ScanCursors
