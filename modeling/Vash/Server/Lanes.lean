import Vash.Core.Basic
import Vash.Library.Lease
import Vash.Library.Run

/-!
# Counter lanes

The counters every command moves are striped into lanes. A thread takes a lane when it
first counts, and has it to itself, so that it adds with a load and a store; when the
private lanes are gone, threads share the last one and add with one atomic step. A
thread that exits gives its lane back for the next one to take.

The state is what the threads share and where each of them is between two of its atomic
steps; a list of events is an interleaving.

* `lanes_keep_counts` — over every interleaving a lane has at most one owner, and the
  lanes of a counter add up to the amounts of its bumps.
-/

namespace Vash.Server

open Library

/-- `LANES`. -/
def laneCount : Nat := 256

/-- `SHARED_LANE`. -/
def sharedLane : Nat := laneCount - 1

/-- `Lane`. -/
structure Lane where
  index : Nat
  owned : Bool
  deriving DecidableEq

/-- `FALLBACK`. -/
def fallback : Lane := ⟨sharedLane, false⟩

/-- Where a thread is. -/
inductive LanePhase (κ : Type) where
  /-- It has not counted yet. -/
  | fresh
  /-- It claims a lane, and found none that was given back. -/
  | drained
  /-- It claims a lane, and took a number past the private ones. -/
  | past
  | ready (lane : Lane)
  /-- It has loaded the cell of its own lane, and is about to store the sum. -/
  | adding (lane : Lane) (counter : κ) (loaded amount : Nat)
  /-- Its thread-locals are gone. -/
  | gone

namespace LanePhase

variable {κ : Type}

/-- The lane a thread has claimed. -/
def lane : LanePhase κ → Option Lane
  | ready lane => some lane
  | adding lane _ _ _ => some lane
  | _ => none

/-- The lane a thread owns. -/
def owns (phase : LanePhase κ) : Option Nat :=
  phase.lane.bind fun lane => if lane.owned then some lane.index else none

/-- What a thread is about to add to a counter. -/
def pending [DecidableEq κ] (counter : κ) : LanePhase κ → Nat
  | adding _ other _ amount => if other = counter then amount else 0
  | _ => 0

theorem pending_ready [DecidableEq κ] (counter : κ) (lane : Lane) :
    (ready lane).pending counter = 0 := rfl

theorem pending_adding [DecidableEq κ] (counter other : κ) (lane : Lane) (loaded amount : Nat) :
    (adding lane other loaded amount).pending counter = if counter = other then amount else 0 := by
  simp only [pending, @eq_comm κ counter]

/-- The thread has made its claim, or will make none. -/
def settled : LanePhase κ → Bool
  | fresh => false
  | drained => false
  | _ => true

end LanePhase

/-- What threads `τ` share of counters `κ`, and where each of them is. -/
structure Lanes (τ κ : Type) where
  nextLane : Nat
  freedLanes : List Nat
  cells : κ → Nat → Nat
  phase : τ → LanePhase κ

/-- The atomic steps of a thread. `locked` says whether the mutex of the freed lanes
could be taken. -/
inductive LaneEvent (τ κ : Type) where
  | pop (thread : τ) (locked : Bool)
  | take (thread : τ)
  | pin (thread : τ)
  | bump (thread : τ) (counter : κ) (amount : Nat)
  | store (thread : τ)
  | exit (thread : τ) (locked : Bool)

namespace LaneEvent

variable {τ κ : Type}

def thread : LaneEvent τ κ → τ
  | pop thread _ | take thread | pin thread | bump thread _ _ | store thread | exit thread _ =>
    thread

/-- What the event adds to a counter, at once or with the store it leads to. -/
def adds [DecidableEq κ] (counter : κ) : LaneEvent τ κ → Nat
  | bump _ other amount => if counter = other then amount else 0
  | _ => 0

/-- The step is one a thread in this phase takes next. -/
def follows : LaneEvent τ κ → LanePhase κ → Bool
  | pop _ _, .fresh => true
  | take _, .drained => true
  | pin _, .past => true
  | bump _ _ _, .ready _ => true
  | bump _ _ _, .gone => true
  | store _, .adding _ _ _ _ => true
  | exit _ _, .fresh => true
  | exit _ _, .ready _ => true
  | _, _ => false

end LaneEvent

namespace Lanes

variable {τ κ : Type}

/-- No thread has counted. -/
def start : Lanes τ κ := ⟨0, [], fun _ _ => 0, fun _ => .fresh⟩

section Steps

variable [DecidableEq τ] [DecidableEq κ]

/-- A thread goes on. -/
def move (s : Lanes τ κ) (thread : τ) (phase : LanePhase κ) : Lanes τ κ :=
  { s with phase := Function.update s.phase thread phase }

/-- A store into the cell of a counter in a lane. -/
def put (s : Lanes τ κ) (counter : κ) (index value : Nat) : Lanes τ κ :=
  { s with
    cells := Function.update s.cells counter (Function.update (s.cells counter) index value) }

/-- `bump` on a lane: with a `fetch_add`, or up to the load if the lane is owned. -/
def bump (s : Lanes τ κ) (thread : τ) (lane : Lane) (counter : κ) (amount : Nat) : Lanes τ κ :=
  if lane.owned then
    s.move thread (.adding lane counter (s.cells counter lane.index) amount)
  else s.put counter lane.index (wrappingAdd64 (s.cells counter lane.index) amount)

/-- One atomic step. A thread that is elsewhere does not take it. -/
def step (s : Lanes τ κ) : LaneEvent τ κ → Lanes τ κ
  | .pop thread locked =>
    match s.phase thread with
    | .fresh =>
      match locked, s.freedLanes with
      | true, index :: rest =>
        { s with freedLanes := rest }.move thread (.ready ⟨index, true⟩)
      | _, _ => s.move thread .drained
    | _ => s
  | .take thread =>
    match s.phase thread with
    | .drained =>
      let claimed := s.nextLane
      { s with nextLane := wrappingAdd64 claimed 1 }.move thread
        (if claimed < sharedLane then .ready ⟨claimed, true⟩ else .past)
    | _ => s
  | .pin thread =>
    match s.phase thread with
    | .past => { s with nextLane := sharedLane }.move thread (.ready fallback)
    | _ => s
  | .bump thread counter amount =>
    match s.phase thread with
    | .ready lane => s.bump thread lane counter amount
    | .gone => s.bump thread fallback counter amount
    | _ => s
  | .store thread =>
    match s.phase thread with
    | .adding lane counter loaded amount =>
      (s.put counter lane.index (wrappingAdd64 loaded amount)).move thread (.ready lane)
    | _ => s
  | .exit thread locked =>
    match s.phase thread with
    | .fresh => s.move thread .gone
    | .ready lane =>
      { s with freedLanes := if lane.owned && locked then lane.index :: s.freedLanes
          else s.freedLanes }.move thread .gone
    | _ => s

/-- A step moves its own thread. -/
theorem phase_step {s : Lanes τ κ} {event : LaneEvent τ κ} {t : τ} (other : event.thread ≠ t) :
    (s.step event).phase t = s.phase t := by
  have away : ∀ phase, Function.update s.phase event.thread phase t = s.phase t :=
    fun phase => Function.update_of_ne other.symm phase s.phase
  have bumped : ∀ lane counter amount,
      (s.bump event.thread lane counter amount).phase t = s.phase t := by
    intro lane counter amount
    unfold bump
    split
    · exact away _
    · rfl
  cases event <;> unfold step <;> dsimp only <;> (repeat' split) <;>
    first | rfl | exact away _ | exact bumped _ _ _

theorem phase_run {s : Lanes τ κ} {events : List (LaneEvent τ κ)} {t : τ}
    (idle : ∀ event ∈ events, event.thread ≠ t) : (run step s events).phase t = s.phase t := by
  induction events generalizing s with
  | nil => rfl
  | cons event rest ih =>
    rw [run_cons, ih fun event mem => idle event (List.mem_cons_of_mem _ mem),
      phase_step (idle event List.mem_cons_self)]

end Steps

/-- The thread of an event is where it takes the step. -/
def Next (s : Lanes τ κ) (event : LaneEvent τ κ) : Prop :=
  event.follows (s.phase event.thread) = true

instance (s : Lanes τ κ) (event : LaneEvent τ κ) : Decidable (s.Next event) :=
  inferInstanceAs (Decidable (_ = _))

/-- `Rates::sum`. -/
def sum (s : Lanes τ κ) (counter : κ) : Nat :=
  (∑ index ∈ Finset.range laneCount, s.cells counter index) % 2 ^ 64

/-! ### Ownership -/

/-- A property of each thread's phase, once a thread has gone on. -/
theorem phase_update {β : Type} [DecidableEq τ] (f : LanePhase κ → β)
    (phase : τ → LanePhase κ) (thread : τ) (next : LanePhase κ) :
    (fun u => f (Function.update phase thread next u)) =
      Function.update (fun u => f (phase u)) thread (f next) := by
  funext u
  by_cases here : u = thread
  · simp [here]
  · simp [here]

section Owned

variable [Fintype τ]

/-- The threads that have made their claim. -/
def settled (phase : τ → LanePhase κ) : Finset τ :=
  Finset.univ.filter fun thread => (phase thread).settled

/-- Lanes are leased, and the counter has not come round. -/
structure Owned (s : Lanes τ κ) : Prop where
  leased : Leased sharedLane (fun thread => (s.phase thread).owns) s.freedLanes s.nextLane
  past : ∀ thread, s.phase thread = .past → sharedLane ≤ s.nextLane
  next : s.nextLane ≤ (settled s.phase).card
  shared : ∀ thread lane, (s.phase thread).lane = some lane → lane.owned = false →
    lane = fallback

variable {s : Lanes τ κ} {thread : τ}

theorem owned_start : (start : Lanes τ κ).Owned :=
  ⟨.start, by simp [start], Nat.zero_le _, by simp [start, LanePhase.lane]⟩

variable [DecidableEq τ]

/-- A thread that goes on, and what it changes of the lanes there are to claim. -/
theorem Owned.move (owned : s.Owned) {phase : LanePhase κ} {s' : Lanes τ κ}
    (moved : s'.phase = Function.update s.phase thread phase)
    (leased : Leased sharedLane (Function.update (fun u => (s.phase u).owns) thread phase.owns)
      s'.freedLanes s'.nextLane)
    (kept : sharedLane ≤ s.nextLane → sharedLane ≤ s'.nextLane)
    (here : phase = .past → sharedLane ≤ s'.nextLane)
    (next : s'.nextLane ≤ (settled s'.phase).card)
    (shared : ∀ lane, phase.lane = some lane → lane.owned = false → lane = fallback) :
    s'.Owned := by
  refine ⟨?_, fun u past => ?_, next, fun u lane has unowned => ?_⟩
  · rw [moved, phase_update]
    exact leased
  · rw [moved] at past
    by_cases mine : u = thread
    · subst mine
      exact here (by simpa using past)
    · exact kept (owned.past u (by simpa [mine] using past))
  · rw [moved] at has
    by_cases mine : u = thread
    · subst mine
      exact shared lane (by simpa using has) unowned
    · exact owned.shared u lane (by simpa [mine] using has) unowned

/-- A thread that goes on with what it owned. -/
theorem Owned.stay (owned : s.Owned) {phase : LanePhase κ} {s' : Lanes τ κ}
    (moved : s'.phase = Function.update s.phase thread phase)
    (freed : s'.freedLanes = s.freedLanes) (next : s'.nextLane = s.nextLane)
    (lane : phase.lane = (s.phase thread).lane) (settles : phase.settled = (s.phase thread).settled)
    (before : phase ≠ .past) : s'.Owned := by
  have owns : phase.owns = (s.phase thread).owns := by rw [LanePhase.owns, lane, LanePhase.owns]
  refine owned.move moved ?_ (fun past => next ▸ past) (fun past => absurd past before) ?_
    fun l has => owned.shared thread l (lane ▸ has)
  · rw [owns, Function.update_eq_self, freed, next]
    exact owned.leased
  · have same : settled s'.phase = settled s.phase := by
      ext u
      by_cases mine : u = thread
      · simp [settled, moved, mine, settles]
      · simp [settled, moved, mine]
    rw [next, same]
    exact owned.next

theorem settled_of_settles {phase : LanePhase κ} (settles : phase.settled = true) :
    settled (Function.update s.phase thread phase) = insert thread (settled s.phase) := by
  ext u
  by_cases mine : u = thread
  · simp [settled, mine, settles]
  · simp [settled, mine]

theorem Owned.next_settles (owned : s.Owned) {phase : LanePhase κ}
    (settles : phase.settled = true) :
    s.nextLane ≤ (settled (Function.update s.phase thread phase)).card := by
  rw [settled_of_settles settles]
  exact owned.next.trans (Finset.card_le_card (Finset.subset_insert _ _))

variable [DecidableEq κ]

/-- The first lane that was given back, or none. -/
theorem Owned.pop (owned : s.Owned) (locked : Bool) : (s.step (.pop thread locked)).Owned := by
  unfold step
  dsimp only
  split
  · rename_i fresh
    split
    · rename_i index rest freed
      refine owned.move rfl ?_ id (by simp) (owned.next_settles rfl) ?_
      · have leased := owned.leased
        rw [freed] at leased
        exact leased.reuse
      · rintro lane has unowned
        obtain rfl := Option.some.inj has
        cases unowned
    · exact owned.stay rfl rfl rfl (by rw [fresh]; rfl) (by rw [fresh]; rfl) (by simp)
  · exact owned

/-- The next number, which has not come round: no more threads can have taken one than
there are. -/
theorem Owned.take (owned : s.Owned) (few : Fintype.card τ < 2 ^ 64) :
    (s.step (.take thread)).Owned := by
  unfold step
  dsimp only
  split
  · rename_i drained
    have unsettled : thread ∉ settled s.phase := by
      rw [settled, Finset.mem_filter, drained]
      simp [LanePhase.settled]
    have more := Finset.card_insert_of_notMem unsettled
    have all := Finset.card_le_univ (insert thread (settled s.phase))
    have low := owned.next
    have whole : wrappingAdd64 s.nextLane 1 = s.nextLane + 1 := wrappingAdd64_of_lt (by omega)
    rw [whole]
    split
    · rename_i ownable
      refine owned.move rfl ?_ (fun past => past.trans (Nat.le_succ _)) (by simp) ?_ ?_
      · exact owned.leased.grow ownable
      · simp only [Lanes.move]
        rw [settled_of_settles rfl]
        omega
      · rintro lane has unowned
        obtain rfl := Option.some.inj has
        cases unowned
    · rename_i gone
      have past : sharedLane ≤ s.nextLane + 1 := by omega
      refine owned.move rfl (owned.leased.lose.skip past) (fun _ => past) (fun _ => past) ?_ ?_
      · simp only [Lanes.move]
        rw [settled_of_settles rfl]
        omega
      · rintro lane has
        cases has
  · exact owned

theorem Owned.pin (owned : s.Owned) : (s.step (.pin thread)).Owned := by
  unfold step
  dsimp only
  split
  · rename_i past
    refine owned.move rfl (owned.leased.lose.skip le_rfl) (fun _ => le_rfl) (fun _ => le_rfl) ?_ ?_
    · exact (owned.past thread past).trans (owned.next_settles rfl)
    · rintro lane has -
      exact (Option.some.inj has).symm
  · exact owned

theorem Owned.exit (owned : s.Owned) (locked : Bool) : (s.step (.exit thread locked)).Owned := by
  have none : ∀ lane, (LanePhase.gone : LanePhase κ).lane = some lane → lane.owned = false →
      lane = fallback := by
    rintro lane has
    cases has
  unfold step
  dsimp only
  split
  · exact owned.move rfl owned.leased.lose id (by simp) (owned.next_settles rfl) none
  · rename_i lane ready
    refine owned.move rfl ?_ id (by simp) (owned.next_settles rfl) none
    dsimp only [Lanes.move]
    split
    · rename_i returned
      obtain ⟨mine, -⟩ := Bool.and_eq_true_iff.mp returned
      exact owned.leased.giveBack (by simp [ready, LanePhase.owns, LanePhase.lane, mine])
    · exact owned.leased.lose
  · exact owned

theorem Owned.bump (owned : s.Owned) (counter : κ) (amount : Nat) :
    (s.step (.bump thread counter amount)).Owned := by
  unfold step
  dsimp only
  split
  · rename_i lane ready
    unfold Lanes.bump
    split
    · exact owned.stay rfl rfl rfl (by rw [ready]; rfl) (by rw [ready]; rfl) (by simp)
    · exact ⟨owned.leased, owned.past, owned.next, owned.shared⟩
  · exact ⟨owned.leased, owned.past, owned.next, owned.shared⟩
  · exact owned

theorem Owned.store (owned : s.Owned) : (s.step (.store thread)).Owned := by
  unfold step
  dsimp only
  split
  · rename_i adding
    exact owned.stay rfl rfl rfl (by rw [adding]; rfl) (by rw [adding]; rfl) (by simp)
  · exact owned

theorem Owned.step (owned : s.Owned) (few : Fintype.card τ < 2 ^ 64) (event : LaneEvent τ κ) :
    (s.step event).Owned := by
  cases event with
  | pop thread locked => exact owned.pop locked
  | take thread => exact owned.take few
  | pin thread => exact owned.pin
  | bump thread counter amount => exact owned.bump counter amount
  | store thread => exact owned.store
  | exit thread locked => exact owned.exit locked

end Owned

/-! ### Counts -/

section Counted

variable [Fintype τ] [DecidableEq κ]

/-- What a thread has loaded is there still, and the cells and what is about to be
stored make up what was asked for. -/
structure Counted (asked : κ → Nat) (s : Lanes τ κ) : Prop where
  loaded : ∀ thread lane counter loaded amount,
    s.phase thread = .adding lane counter loaded amount →
      lane.owned = true ∧ loaded = s.cells counter lane.index
  total : ∀ counter, asked counter < 2 ^ 64 →
    ∑ index ∈ Finset.range laneCount, s.cells counter index +
      ∑ thread, (s.phase thread).pending counter = asked counter

variable {asked : κ → Nat} {s : Lanes τ κ} {thread : τ}

theorem counted_start : Counted (fun _ => 0) (start : Lanes τ κ) :=
  ⟨by simp [start], by simp [start, LanePhase.pending]⟩

variable [DecidableEq τ]

/-- What is pending once a thread has gone on. -/
theorem pending_update (s : Lanes τ κ) (thread : τ) (phase : LanePhase κ) (counter : κ) :
    ∑ u, (Function.update s.phase thread phase u).pending counter +
      (s.phase thread).pending counter =
        ∑ u, (s.phase u).pending counter + phase.pending counter := by
  have updated : ∀ u, (Function.update s.phase thread phase u).pending counter =
      Function.update (fun u => (s.phase u).pending counter) thread (phase.pending counter) u :=
    congrFun (phase_update (LanePhase.pending counter) s.phase thread phase)
  rw [Finset.sum_congr rfl fun u _ => updated u]
  exact sum_update (Finset.mem_univ thread) _ _

/-- A thread that adds nothing, neither before nor after. -/
theorem Counted.move (counted : Counted asked s) {phase : LanePhase κ} {s' : Lanes τ κ}
    (moved : s'.phase = Function.update s.phase thread phase) (cells : s'.cells = s.cells)
    (before : ∀ counter, (s.phase thread).pending counter = 0)
    (after : ∀ lane counter loaded amount, phase ≠ .adding lane counter loaded amount) :
    Counted asked s' := by
  refine ⟨fun u lane counter loaded amount adds => ?_, fun counter fits => ?_⟩
  · rw [moved] at adds
    rw [cells]
    by_cases mine : u = thread
    · subst mine
      exact absurd (by simpa using adds) (after lane counter loaded amount)
    · exact counted.loaded u lane counter loaded amount (by simpa [mine] using adds)
  · have none : phase.pending counter = 0 := by
      cases phase with
      | adding lane other loaded amount => exact absurd rfl (after lane other loaded amount)
      | _ => rfl
    have same := pending_update s thread phase counter
    rw [before, none] at same
    rw [cells, moved, ← counted.total counter fits]
    omega

omit [Fintype τ] [DecidableEq τ] in
theorem cells_put (counter other : κ) (index lane value : Nat) :
    (s.put counter index value).cells other lane =
      if other = counter ∧ lane = index then value else s.cells other lane := by
  by_cases same : other = counter
  · subst same
    by_cases here : lane = index
    · simp [put, here]
    · simp [put, here]
  · simp [put, same]

omit [Fintype τ] [DecidableEq τ] in
theorem cells_put_other {counter other : κ} (ne : other ≠ counter) (index value : Nat) :
    (s.put counter index value).cells other = s.cells other := by
  simp [put, ne]

omit [Fintype τ] [DecidableEq τ] in
/-- The lanes of a counter once an amount has been added to one of them. -/
theorem sum_put {counter : κ} {index amount : Nat} (inside : index < laneCount)
    (fits : s.cells counter index + amount < 2 ^ 64) :
    ∑ lane ∈ Finset.range laneCount,
        (s.put counter index (wrappingAdd64 (s.cells counter index) amount)).cells counter lane =
      ∑ lane ∈ Finset.range laneCount, s.cells counter lane + amount := by
  have sums := sum_update (Finset.mem_range.mpr inside) (s.cells counter)
    (s.cells counter index + amount)
  rw [wrappingAdd64_of_lt fits]
  simp only [put, Function.update_self]
  omega

omit [DecidableEq τ] in
/-- No cell and no thread holds more than was asked of the counter. -/
theorem Counted.cell_le (counted : Counted asked s) {counter : κ} (fits : asked counter < 2 ^ 64)
    {index : Nat} (inside : index < laneCount) (u : τ) :
    s.cells counter index + (s.phase u).pending counter ≤ asked counter := by
  rw [← counted.total counter fits]
  refine Nat.add_le_add ?_ ?_
  · exact Finset.single_le_sum (fun _ _ => Nat.zero_le _) (Finset.mem_range.mpr inside)
  · exact Finset.single_le_sum (f := fun u => (s.phase u).pending counter)
      (fun _ _ => Nat.zero_le _) (Finset.mem_univ u)

omit [DecidableEq τ] in
/-- A thread that adds has a lane of its own. -/
theorem Counted.owns_of_adding (counted : Counted asked s) {lane : Lane} {counter : κ}
    {loaded amount : Nat} (adds : s.phase thread = .adding lane counter loaded amount) :
    (s.phase thread).owns = some lane.index := by
  have mine := (counted.loaded _ _ _ _ _ adds).1
  simp [adds, LanePhase.owns, LanePhase.lane, mine]

omit [DecidableEq τ] in
/-- What a thread has loaded from another lane than the one that changes. -/
theorem Counted.put_loaded (counted : Counted asked s) {counter : κ} {index value : Nat} {u : τ}
    {lane : Lane} {other : κ} {loaded amount : Nat}
    (adds : s.phase u = .adding lane other loaded amount) (ne : lane.index ≠ index) :
    lane.owned = true ∧ loaded = (s.put counter index value).cells other lane.index := by
  obtain ⟨mine, same⟩ := counted.loaded _ _ _ _ _ adds
  exact ⟨mine, by rw [cells_put, if_neg fun both => ne both.2, same]⟩

omit [DecidableEq τ] in
/-- An addition to the lane that nobody owns. -/
theorem Counted.add (counted : Counted asked s) (owned : s.Owned) (thread : τ) (counter : κ)
    (amount : Nat) :
    Counted (fun other => asked other + if other = counter then amount else 0)
      (s.put counter sharedLane (wrappingAdd64 (s.cells counter sharedLane) amount)) := by
  have inside : sharedLane < laneCount := by decide
  refine ⟨fun u lane other loaded n adds => ?_, fun other fits => ?_⟩
  · have low := (owned.leased.lent u lane.index (counted.owns_of_adding adds)).1
    exact counted.put_loaded adds low.ne
  · change ∑ lane ∈ Finset.range laneCount, (s.put counter sharedLane
      (wrappingAdd64 (s.cells counter sharedLane) amount)).cells other lane +
        ∑ u, (s.phase u).pending other = _
    have before := counted.total other (by omega)
    by_cases same : other = counter
    · subst same
      rw [if_pos rfl] at fits ⊢
      have cell : s.cells other sharedLane + _ ≤ asked other :=
        counted.cell_le (by omega) inside thread
      rw [sum_put inside (by omega)]
      omega
    · rw [if_neg same, cells_put_other same]
      omega

/-- The load of an addition. -/
theorem Counted.load (counted : Counted asked s) {lane : Lane}
    (ready : s.phase thread = .ready lane)
    (mine : lane.owned = true) (counter : κ) (amount : Nat) :
    Counted (fun other => asked other + if other = counter then amount else 0)
      (s.move thread (.adding lane counter (s.cells counter lane.index) amount)) := by
  refine ⟨fun u lane' other loaded n adds => ?_, fun other fits => ?_⟩
  · by_cases here : u = thread
    · subst here
      simp only [Lanes.move, Function.update_self, LanePhase.adding.injEq] at adds
      obtain ⟨rfl, rfl, rfl, rfl⟩ := adds
      exact ⟨mine, rfl⟩
    · simp only [Lanes.move, Function.update_of_ne here] at adds
      exact counted.loaded u lane' other loaded n adds
  · change ∑ lane ∈ Finset.range laneCount, s.cells other lane +
      ∑ u, (Function.update s.phase thread _ u).pending other = _
    have before := counted.total other (by omega)
    have moved := pending_update s thread
      (.adding lane counter (s.cells counter lane.index) amount) other
    rw [ready, LanePhase.pending_ready, LanePhase.pending_adding] at moved
    omega

/-- The store of an addition: no other thread has touched the cell. -/
theorem Counted.store (counted : Counted asked s) (owned : s.Owned) :
    Counted asked (s.step (.store thread)) := by
  unfold step
  dsimp only
  split
  · rename_i lane counter loaded amount adding
    obtain ⟨mine, rfl⟩ := counted.loaded _ _ _ _ _ adding
    have holds := counted.owns_of_adding adding
    have inside : lane.index < laneCount :=
      (owned.leased.lent thread lane.index holds).1.trans (by decide)
    refine ⟨fun u lane' other loaded n adds => ?_, fun other fits => ?_⟩
    · have away : u ≠ thread := by
        rintro rfl
        simp [Lanes.move] at adds
      simp only [Lanes.move, Function.update_of_ne away] at adds
      refine counted.put_loaded adds fun same => away ?_
      exact owned.leased.alone u thread lane.index (same ▸ counted.owns_of_adding adds) holds
    · change ∑ index ∈ Finset.range laneCount, (s.put counter lane.index
        (wrappingAdd64 (s.cells counter lane.index) amount)).cells other index +
          ∑ u, (Function.update s.phase thread _ u).pending other = asked other
      have before := counted.total other fits
      have moved := pending_update s thread (.ready lane) other
      rw [adding, LanePhase.pending_ready, LanePhase.pending_adding] at moved
      by_cases same : other = counter
      · subst same
        have cell := counted.cell_le fits inside thread
        rw [adding, LanePhase.pending_adding, if_pos rfl] at cell
        rw [if_pos rfl] at moved
        rw [sum_put inside (by omega)]
        omega
      · rw [if_neg same] at moved
        rw [cells_put_other same]
        omega
  · exact counted

theorem Counted.bump (counted : Counted asked s) (owned : s.Owned) {counter : κ} {amount : Nat}
    (next : s.Next (.bump thread counter amount)) :
    Counted (fun other => asked other + if other = counter then amount else 0)
      (s.step (.bump thread counter amount)) := by
  unfold Next LaneEvent.thread at next
  unfold step
  dsimp only at next ⊢
  split
  · rename_i lane ready
    unfold Lanes.bump
    split
    · rename_i mine
      exact counted.load ready mine counter amount
    · rename_i unowned
      obtain rfl := owned.shared thread lane (by rw [ready]; rfl) (by simpa using unowned)
      exact counted.add owned thread counter amount
  · exact counted.add owned thread counter amount
  · rename_i unready present
    cases phase : s.phase thread with
    | ready lane => exact absurd phase (unready lane)
    | gone => exact absurd phase present
    | _ => simp [phase, LaneEvent.follows] at next

theorem Counted.step (counted : Counted asked s) (owned : s.Owned) {event : LaneEvent τ κ}
    (next : s.Next event) :
    Counted (fun counter => asked counter + event.adds counter) (s.step event) := by
  have still : ∀ {thread : τ} {phase : LanePhase κ}, s.phase thread = phase →
      (∀ counter, phase.pending counter = 0) →
      ∀ counter, (s.phase thread).pending counter = 0 := by
    rintro thread _ rfl none
    exact none
  cases event with
  | pop thread locked =>
    unfold Lanes.step
    dsimp only
    split
    · rename_i fresh
      split
      · exact counted.move rfl rfl (still fresh fun _ => rfl) (by simp)
      · exact counted.move rfl rfl (still fresh fun _ => rfl) (by simp)
    · exact counted
  | take thread =>
    unfold Lanes.step
    dsimp only
    split
    · rename_i drained
      refine counted.move rfl rfl (still drained fun _ => rfl) ?_
      split <;> simp
    · exact counted
  | pin thread =>
    unfold Lanes.step
    dsimp only
    split
    · rename_i past
      exact counted.move rfl rfl (still past fun _ => rfl) (by simp)
    · exact counted
  | bump thread counter amount => exact counted.bump owned next
  | store thread => exact counted.store owned
  | exit thread locked =>
    unfold Lanes.step
    dsimp only
    split
    · rename_i fresh
      exact counted.move rfl rfl (still fresh fun _ => rfl) (by simp)
    · rename_i ready
      exact counted.move rfl rfl (still ready fun _ => rfl) (by simp)
    · exact counted

end Counted

/-- What every interleaving leads to. -/
theorem sound_run [Fintype τ] [DecidableEq τ] [DecidableEq κ] (few : Fintype.card τ < 2 ^ 64)
    {asked : κ → Nat} {s : Lanes τ κ} (owned : s.Owned) (counted : Counted asked s)
    {events : List (LaneEvent τ κ)} (taken : Along step Next s events) :
    (run step s events).Owned ∧
      Counted (fun counter => asked counter + (events.map (·.adds counter)).sum)
        (run step s events) := by
  induction events generalizing asked s with
  | nil => exact ⟨owned, counted⟩
  | cons event rest ih =>
    have later := ih (owned.step few event) (counted.step owned taken.1) taken.2
    simpa [Nat.add_assoc] using later

end Lanes

/-- Threads, by the numbers `ThreadId` gives them: a process runs out of those before it
uses one twice. -/
abbrev Thread := Fin (2 ^ 64 - 1)

/-- Over every interleaving of the atomic steps of threads: a private lane has at most
one owner, the shared lane has none, and the lanes of a counter that nobody is adding to
add up to the amounts of its bumps. -/
theorem lanes_keep_counts {κ : Type} [DecidableEq κ] {events : List (LaneEvent Thread κ)}
    (taken : Along Lanes.step Lanes.Next Lanes.start events) :
    (∀ index < laneCount - 1, ∀ t u,
      ((run Lanes.step Lanes.start events).phase t).owns = some index →
      ((run Lanes.step Lanes.start events).phase u).owns = some index → t = u) ∧
    (∀ t, ((run Lanes.step Lanes.start events).phase t).owns ≠ some sharedLane) ∧
    (∀ counter,
      (∀ t lane loaded amount, (run Lanes.step Lanes.start events).phase t ≠
        .adding lane counter loaded amount) →
      (events.map (·.adds counter)).sum < 2 ^ 64 →
      (run Lanes.step Lanes.start events).sum counter = (events.map (·.adds counter)).sum) := by
  have few : Fintype.card Thread < 2 ^ 64 := by
    rw [Fintype.card_fin]
    norm_num
  obtain ⟨owned, counted⟩ := Lanes.sound_run few Lanes.owned_start Lanes.counted_start taken
  refine ⟨fun index _ t u => owned.leased.alone t u index, fun t holds => ?_,
    fun counter finished fits => ?_⟩
  · exact (owned.leased.lent t sharedLane holds).1.false
  · have total := counted.total counter (by omega)
    have none : ∑ t, ((run Lanes.step Lanes.start events).phase t).pending counter = 0 := by
      refine Finset.sum_eq_zero fun t _ => ?_
      cases phase : (run Lanes.step Lanes.start events).phase t with
      | adding lane other loaded amount =>
        refine if_neg ?_
        rintro rfl
        exact finished t lane loaded amount phase
      | _ => rfl
    rw [Lanes.sum, Nat.mod_eq_of_lt (by omega)]
    omega

/-- The first threads of a process. -/
def firstThreads (number : Fin 4) : Thread := number.castLE (by norm_num)

/-- Two threads whose loads and stores cross, and a third that counts on the lane the first
of them has given back. -/
def crossedBumps : List (LaneEvent Thread Unit) :=
  let a := firstThreads 0
  let b := firstThreads 1
  let c := firstThreads 2
  [.pop a true, .take a, .pop b true, .take b, .bump a () 5, .bump b () 7, .store b, .store a,
    .exit a true, .pop c true, .bump c () 3, .store c]

theorem lanes_keep_counts_crossed :
    Along Lanes.step Lanes.Next Lanes.start crossedBumps ∧
      (run Lanes.step Lanes.start crossedBumps).sum () = 15 := by
  have taken : Along Lanes.step Lanes.Next Lanes.start crossedBumps := by decide +kernel
  refine ⟨taken, (lanes_keep_counts taken).2.2 () (fun t lane loaded amount => ?_) (by decide)⟩
  -- each of the three is done, and no other thread has begun
  rcases Decidable.em (t = firstThreads 0) with rfl | a
  · rintro ⟨⟩
  rcases Decidable.em (t = firstThreads 1) with rfl | b
  · rintro ⟨⟩
  rcases Decidable.em (t = firstThreads 2) with rfl | c
  · rintro ⟨⟩
  · have idle : ∀ event ∈ crossedBumps, event.thread ≠ t := by
      simp [crossedBumps, LaneEvent.thread, Ne.symm a, Ne.symm b, Ne.symm c]
    rw [Lanes.phase_run idle]
    rintro ⟨⟩

end Vash.Server
