import Vash.Core.Basic
import Vash.Library.Run

/-!
# The oldest open reader

A shard keeps when each open read began, in a slot of the thread that began it. A
thread takes its slot from the shard it first reads, and uses the same number at every
other shard. Each shard hands out numbers of its own, so that threads which first read
different shards can come to share one; the later of two reads then takes the place of
the earlier.

* `oldest_reader_shown_iff` — that is so over every run just when there is one shard or
  one thread.
* `shared_slot_hides_reader` — two threads and two shards.
-/

namespace Vash.Store

open Library

/-- `SLOTS`. -/
def readerSlots : Nat := 1024

/-- `FREE`. -/
def readerFree : Nat := 0

abbrev Slot := Fin readerSlots

/-- `ReaderAges`. -/
structure ReaderAges where
  starts : Slot → Nat
  next : Nat

namespace ReaderAges

/-- `ReaderAges::default`. -/
def default : ReaderAges := ⟨fun _ => readerFree, 0⟩

/-- The slot `open` uses: the one the thread remembers, or else the next of this shard. -/
def claim (ages : ReaderAges) : Option Slot → Option Slot × ReaderAges
  | some slot => (some slot, ages)
  | none => (if inside : ages.next < readerSlots then some ⟨ages.next, inside⟩ else none,
      { ages with next := wrappingAdd64 ages.next 1 })

/-- A store into a slot. Without one there is none. -/
def store (ages : ReaderAges) (slot : Option Slot) (value : Nat) : ReaderAges :=
  match slot with
  | some slot => { ages with starts := Function.update ages.starts slot value }
  | none => ages

@[simp] theorem store_next (ages : ReaderAges) (slot : Option Slot) (value : Nat) :
    (ages.store slot value).next = ages.next := by
  cases slot <;> rfl

/-- `oldest_age_ms`. -/
def oldestAgeMs (ages : ReaderAges) (now : Nat) : Nat :=
  ((List.ofFn ages.starts).filter (· ≠ readerFree)).min?.elim 0 fun oldest => now - oldest

section Oldest

variable {ages : ReaderAges} {now : Nat}

theorem le_oldestAgeMs {slot : Slot} (used : ages.starts slot ≠ readerFree) :
    now - ages.starts slot ≤ ages.oldestAgeMs now := by
  have mem : ages.starts slot ∈ (List.ofFn ages.starts).filter (· ≠ readerFree) := by
    simp [used]
  unfold oldestAgeMs
  cases least : ((List.ofFn ages.starts).filter (· ≠ readerFree)).min? with
  | none =>
    rw [List.min?_eq_none_iff.mp least] at mem
    cases mem
  | some oldest =>
    have le := (List.min?_eq_some_iff.mp least).2 _ mem
    exact Nat.sub_le_sub_left le now

theorem oldestAgeMs_le {low : Nat} (above : ∀ slot, ages.starts slot ≠ readerFree →
    low ≤ ages.starts slot) : ages.oldestAgeMs now ≤ now - low := by
  unfold oldestAgeMs
  cases least : ((List.ofFn ages.starts).filter (· ≠ readerFree)).min? with
  | none => exact Nat.zero_le _
  | some oldest =>
    obtain ⟨mem, used⟩ := List.mem_filter.mp (List.min?_eq_some_iff.mp least).1
    obtain ⟨slot, rfl⟩ := (List.mem_ofFn' _ _).mp mem
    exact Nat.sub_le_sub_left (above slot (by simpa using used)) now

theorem oldestAgeMs_eq_zero (unused : ∀ slot, ages.starts slot = readerFree) :
    ages.oldestAgeMs now = 0 := by
  have le : ages.oldestAgeMs now ≤ now - now :=
    oldestAgeMs_le fun slot used => absurd (unused slot) used
  simpa using le

end Oldest

end ReaderAges

/-! ### Threads at several shards -/

/-- `ReaderGuard`, and when its read began. -/
structure ReaderGuard where
  slot : Option Slot
  start : Nat
  deriving DecidableEq

/-- The shards of a store, the slot each thread remembers, and the guards that are open,
at most one of a thread at a shard. -/
structure Readers (shards threads : Nat) where
  ages : Fin shards → ReaderAges
  slotOf : Fin threads → Option Slot
  guards : Fin threads → Fin shards → Option ReaderGuard

/-- A thread opens a guard at a shard, or drops the one it has there. -/
inductive ReaderEvent (shards threads : Nat) where
  | opens (thread : Fin threads) (shard : Fin shards) (now : Nat)
  | drops (thread : Fin threads) (shard : Fin shards)

namespace Readers

variable {shards threads : Nat}

/-- Nothing has been read. -/
def fresh (shards threads : Nat) : Readers shards threads :=
  ⟨fun _ => .default, fun _ => none, fun _ _ => none⟩

/-- `ReaderAges::open`, and the drop of a guard. -/
def step (r : Readers shards threads) : ReaderEvent shards threads → Readers shards threads
  | .opens thread shard now =>
    let claimed := (r.ages shard).claim (r.slotOf thread)
    { ages := Function.update r.ages shard (claimed.2.store claimed.1 (max now 1))
      slotOf := Function.update r.slotOf thread claimed.1
      guards := Function.update r.guards thread
        (Function.update (r.guards thread) shard (some ⟨claimed.1, now⟩)) }
  | .drops thread shard =>
    match r.guards thread shard with
    | none => r
    | some guard =>
      { r with
        ages := Function.update r.ages shard ((r.ages shard).store guard.slot readerFree)
        guards := Function.update r.guards thread
          (Function.update (r.guards thread) shard none) }

/-- A thread has one guard at a shard at a time, and the clock does not read `0`. -/
def Permitted (r : Readers shards threads) : ReaderEvent shards threads → Prop
  | .opens thread shard now => r.guards thread shard = none ∧ 1 ≤ now
  | .drops _ _ => True

instance decidablePermitted (r : Readers shards threads) :
    ∀ event, Decidable (r.Permitted event)
  | .opens _ _ _ => inferInstanceAs (Decidable (_ ∧ _))
  | .drops _ _ => .isTrue trivial

/-- The metric hides no open guard, and shows none where there is none. -/
def Shown (r : Readers shards threads) : Prop :=
  ∀ shard now,
    (∀ thread guard, r.guards thread shard = some guard → guard.start ≤ now →
      now - guard.start ≤ (r.ages shard).oldestAgeMs now) ∧
    ((∀ thread, r.guards thread shard = none) → (r.ages shard).oldestAgeMs now = 0)

/-- A number that is handed out is not the slot of another thread. -/
def Fresh (r : Readers shards threads) : ReaderEvent shards threads → Prop
  | .opens thread shard _ => r.slotOf thread = none →
      ∀ other slot, r.slotOf other = some slot → slot.val ≠ (r.ages shard).next
  | .drops _ _ => True

/-- The threads that have a slot. -/
def slotted (slotOf : Fin threads → Option Slot) : Finset (Fin threads) :=
  Finset.univ.filter fun thread => slotOf thread ≠ none

/-- Slots are not shared, and show the guards that are open. -/
structure Sound (r : Readers shards threads) : Prop where
  apart : ∀ thread other slot, r.slotOf thread = some slot → r.slotOf other = some slot →
    thread = other
  shown : ∀ thread shard guard, r.guards thread shard = some guard → 1 ≤ guard.start ∧
    ∃ slot, r.slotOf thread = some slot ∧ guard.slot = some slot ∧
      (r.ages shard).starts slot = guard.start
  used : ∀ shard slot, (r.ages shard).starts slot ≠ readerFree →
    ∃ thread, r.slotOf thread = some slot ∧ r.guards thread shard ≠ none
  next : ∀ shard, (r.ages shard).next ≤ (slotted r.slotOf).card

variable {r : Readers shards threads}

theorem sound_fresh : Sound (fresh shards threads) := by
  refine ⟨?_, ?_, ?_, ?_⟩
  · intro thread other slot found
    cases found
  · intro thread shard guard found
    cases found
  · intro shard slot used
    exact absurd rfl used
  · exact fun shard => Nat.zero_le _

theorem Sound.shows (sound : r.Sound) : r.Shown := by
  refine fun shard now => ⟨fun thread guard found _ => ?_, fun none => ?_⟩
  · obtain ⟨positive, slot, -, -, start⟩ := sound.shown thread shard guard found
    have used : (r.ages shard).starts slot ≠ readerFree := by
      rw [start, readerFree]
      omega
    exact start ▸ ReaderAges.le_oldestAgeMs used
  · refine ReaderAges.oldestAgeMs_eq_zero fun slot => ?_
    by_contra used
    obtain ⟨thread, -, opened⟩ := sound.used shard slot used
    exact opened (none thread)

/-- What an `open` claims: a slot of the thread alone. -/
theorem Sound.claims (sound : r.Sound) (few : threads ≤ readerSlots) {thread : Fin threads}
    {shard : Fin shards} {now : Nat} (fresh : r.Fresh (.opens thread shard now)) :
    ∃ slot next, (r.ages shard).claim (r.slotOf thread) =
        (some slot, { r.ages shard with next := next }) ∧
      (∀ old, r.slotOf thread = some old → old = slot) ∧
      (∀ other ≠ thread, r.slotOf other ≠ some slot) ∧
      ((r.ages shard).next ≤ next ∧ (r.slotOf thread = none → slot.val < next)) ∧
      (∀ shard', Function.update (fun s => (r.ages s).next) shard next shard' ≤
        (insert thread (slotted r.slotOf)).card) := by
  have grows : (slotted r.slotOf).card ≤ (insert thread (slotted r.slotOf)).card :=
    Finset.card_le_card (Finset.subset_insert _ _)
  cases has : r.slotOf thread with
  | some slot =>
    refine ⟨slot, (r.ages shard).next, rfl, by simp, fun other ne same => ?_,
      ⟨le_rfl, by simp⟩, fun shard' => ?_⟩
    · exact ne (sound.apart other thread slot same has)
    · rw [Function.update_eq_self]
      exact (sound.next shard').trans grows
  | none =>
    have missing : thread ∉ (slotted r.slotOf) := by simp [slotted, has]
    have more := Finset.card_insert_of_notMem missing
    have all : (insert thread (slotted r.slotOf)).card ≤ threads := by
      simpa using Finset.card_le_univ (insert thread (slotted r.slotOf))
    have low := sound.next shard
    have inside : (r.ages shard).next < readerSlots := by omega
    have whole : wrappingAdd64 (r.ages shard).next 1 = (r.ages shard).next + 1 :=
      wrappingAdd64_of_lt (by rw [readerSlots] at inside; omega)
    refine ⟨⟨_, inside⟩, (r.ages shard).next + 1, ?_, by simp, fun other _ same => ?_,
      ⟨Nat.le_succ _, fun _ => Nat.lt_succ_self _⟩, fun shard' => ?_⟩
    · simp [ReaderAges.claim, inside, whole]
    · exact fresh has other _ same rfl
    · by_cases here : shard' = shard
      · subst here
        rw [Function.update_self]
        omega
      · rw [Function.update_of_ne here]
        exact (sound.next shard').trans grows

/-- The guards once one place has changed. -/
theorem guards_update (guards : Fin threads → Fin shards → Option ReaderGuard)
    (thread other : Fin threads) (shard shard' : Fin shards) (guard : Option ReaderGuard) :
    Function.update guards thread (Function.update (guards thread) shard guard) other shard' =
      if other = thread ∧ shard' = shard then guard else guards other shard' := by
  by_cases mine : other = thread
  · subst mine
    by_cases here : shard' = shard
    · simp [here]
    · simp [here]
  · simp [mine]

/-- The starts once one place has changed. -/
theorem starts_update (ages : Fin shards → ReaderAges) (shard shard' : Fin shards)
    (slot slot' : Slot) (value next : Nat) :
    (Function.update ages shard ⟨Function.update (ages shard).starts slot value, next⟩
      shard').starts slot' =
      if shard' = shard ∧ slot' = slot then value else (ages shard').starts slot' := by
  by_cases here : shard' = shard
  · subst here
    by_cases same : slot' = slot
    · simp [same]
    · simp [same]
  · simp [here]

/-- A guard that is opened. -/
theorem Sound.opens (sound : r.Sound) (few : threads ≤ readerSlots) {thread : Fin threads}
    {shard : Fin shards} {now : Nat} (positive : 1 ≤ now)
    (fresh : r.Fresh (.opens thread shard now)) : (r.step (.opens thread shard now)).Sound := by
  obtain ⟨slot, next, claimed, same, alone, -, low⟩ := sound.claims few fresh
  have stepped : r.step (.opens thread shard now) =
      { ages := Function.update r.ages shard
          ⟨Function.update (r.ages shard).starts slot now, next⟩
        slotOf := Function.update r.slotOf thread (some slot)
        guards := Function.update r.guards thread
          (Function.update (r.guards thread) shard (some ⟨some slot, now⟩)) } := by
    simp [step, claimed, ReaderAges.store, max_eq_left positive]
  -- a thread has the slot it had, or is the one that opens the guard
  have slots : ∀ other slot', Function.update r.slotOf thread (some slot) other = some slot' ↔
      other = thread ∧ slot' = slot ∨ other ≠ thread ∧ r.slotOf other = some slot' := by
    intro other slot'
    by_cases mine : other = thread
    · simp [mine, eq_comm]
    · simp [mine]
  rw [stepped]
  refine ⟨fun a b slot' ha hb => ?_, fun other shard' guard found => ?_,
    fun shard' slot' used => ?_, fun shard' => ?_⟩
  · rcases (slots a slot').mp ha with ⟨rfl, rfl⟩ | ⟨away, oldA⟩ <;>
      rcases (slots b _).mp hb with ⟨rfl, eq⟩ | ⟨away', oldB⟩
    · rfl
    · exact absurd oldB (alone b away')
    · exact absurd (eq ▸ oldA) (alone a away)
    · exact sound.apart a b slot' oldA oldB
  · dsimp only at found ⊢
    rw [guards_update] at found
    split at found
    · rename_i new
      obtain rfl := Option.some.inj found
      exact ⟨positive, slot, (slots _ _).mpr (.inl ⟨new.1, rfl⟩), rfl, by simp [new]⟩
    · rename_i old
      obtain ⟨began, slot', has, named, start⟩ := sound.shown _ _ _ found
      refine ⟨began, slot', (slots _ _).mpr ?_, named, ?_⟩
      · by_cases mine : other = thread
        · exact .inl ⟨mine, same slot' (mine ▸ has)⟩
        · exact .inr ⟨mine, has⟩
      · rw [starts_update, if_neg, start]
        rintro ⟨here, rfl⟩
        exact alone other (fun mine => old ⟨mine, here⟩) has
  · dsimp only at used ⊢
    rw [starts_update] at used
    split at used
    · rename_i new
      exact ⟨thread, (slots _ _).mpr (.inl ⟨rfl, new.2⟩), by simp [guards_update, new.1]⟩
    · rename_i old
      obtain ⟨other, has, opened⟩ := sound.used _ _ used
      refine ⟨other, (slots _ _).mpr ?_, ?_⟩
      · by_cases mine : other = thread
        · exact .inl ⟨mine, same slot' (mine ▸ has)⟩
        · exact .inr ⟨mine, has⟩
      · rw [guards_update]
        split
        · exact Option.some_ne_none _
        · exact opened
  · have grown : slotted (Function.update r.slotOf thread (some slot)) =
        insert thread (slotted r.slotOf) := by
      ext other
      by_cases mine : other = thread
      · simp [slotted, mine]
      · simp [slotted, mine]
    rw [grown]
    have bound := low shard'
    by_cases here : shard' = shard
    · subst here
      simpa using bound
    · simpa [here] using bound

/-- A guard that is dropped. -/
theorem Sound.drops (sound : r.Sound) (thread : Fin threads) (shard : Fin shards) :
    (r.step (.drops thread shard)).Sound := by
  cases found : r.guards thread shard with
  | none => simpa [step, found] using sound
  | some guard =>
    obtain ⟨-, slot, has, named, -⟩ := sound.shown _ _ _ found
    have stepped : r.step (.drops thread shard) =
        { r with
          ages := Function.update r.ages shard
            ⟨Function.update (r.ages shard).starts slot readerFree, (r.ages shard).next⟩
          guards := Function.update r.guards thread
            (Function.update (r.guards thread) shard none) } := by
      simp [step, found, named, ReaderAges.store]
    rw [stepped]
    refine ⟨sound.apart, fun other shard' guard' opened => ?_, fun shard' slot' used => ?_,
      fun shard' => ?_⟩
    · dsimp only at opened ⊢
      rw [guards_update] at opened
      split at opened
      · cases opened
      · rename_i old
        obtain ⟨began, slot', has', named', start⟩ := sound.shown _ _ _ opened
        refine ⟨began, slot', has', named', ?_⟩
        rw [starts_update, if_neg, start]
        rintro ⟨here, rfl⟩
        exact old ⟨sound.apart other thread slot' has' has, here⟩
    · dsimp only at used ⊢
      rw [starts_update] at used
      split at used
      · exact absurd rfl used
      · rename_i old
        obtain ⟨other, has', opened⟩ := sound.used _ _ used
        refine ⟨other, has', ?_⟩
        rw [guards_update, if_neg]
        · exact opened
        · rintro ⟨rfl, here⟩
          exact old ⟨here, Option.some.inj (has'.symm.trans has)⟩
    · have bound := sound.next shard'
      by_cases here : shard' = shard
      · subst here
        simpa using bound
      · simpa [here] using bound

theorem Sound.step (sound : r.Sound) (few : threads ≤ readerSlots)
    {event : ReaderEvent shards threads} (permitted : r.Permitted event) (fresh : r.Fresh event) :
    (r.step event).Sound := by
  cases event with
  | opens thread shard now => exact sound.opens few permitted.2 fresh
  | drops thread shard => exact sound.drops thread shard

/-! ### One shard, or one thread -/

/-- The one shard has handed out the slots there are. -/
def Handed (r : Readers shards threads) : Prop :=
  ∀ thread slot, r.slotOf thread = some slot → ∀ shard, slot.val < (r.ages shard).next

theorem Handed.fresh (handed : r.Handed) (event : ReaderEvent shards threads) : r.Fresh event := by
  cases event with
  | opens thread shard now => exact fun _ other slot has => (handed other slot has shard).ne
  | drops thread shard => trivial

theorem Handed.step (handed : r.Handed) (sound : r.Sound) (few : threads ≤ readerSlots)
    (single : shards ≤ 1) (event : ReaderEvent shards threads) : (r.step event).Handed := by
  cases event with
  | opens thread shard now =>
    obtain ⟨slot, next, claimed, same, -, ⟨grows, above⟩, -⟩ :=
      sound.claims few (handed.fresh (.opens thread shard now))
    intro other slot' has shard'
    obtain rfl : shard' = shard := by omega
    simp only [Readers.step, claimed, ReaderAges.store, Function.update_self] at has ⊢
    by_cases mine : other = thread
    · subst mine
      rw [Function.update_self] at has
      obtain rfl := Option.some.inj has
      cases old : r.slotOf other with
      | none => exact above old
      | some slot' =>
        obtain rfl := same slot' old
        exact (handed other slot' old shard').trans_le grows
    · rw [Function.update_of_ne mine] at has
      exact (handed other slot' has shard').trans_le grows
  | drops thread shard =>
    cases found : r.guards thread shard with
    | none => simpa [Readers.step, found] using handed
    | some guard =>
      intro other slot has shard'
      obtain rfl : shard' = shard := by omega
      simp only [Readers.step, found, Function.update_self] at has ⊢
      rw [ReaderAges.store_next]
      exact handed other slot has shard'

/-- While no number is handed out twice, the metric shows every open guard. -/
theorem shown_of_fresh (few : threads ≤ readerSlots) {events : List (ReaderEvent shards threads)}
    (permitted : Along step Permitted (fresh shards threads) events)
    (apart : Along step Fresh (fresh shards threads) events) :
    (run step (fresh shards threads) events).Shown := by
  have sound : (run step (fresh shards threads) events).Sound :=
    run_invariant (fun r event sound ok => sound.step few ok.1 ok.2) sound_fresh
      (permitted.and apart)
  exact sound.shows

theorem shown_of_single_shard (few : threads ≤ readerSlots) (single : shards ≤ 1)
    {events : List (ReaderEvent shards threads)}
    (permitted : Along step Permitted (fresh shards threads) events) :
    (run step (fresh shards threads) events).Shown := by
  have start : (fresh shards threads).Handed := by
    intro thread slot has
    cases has
  have both : (run step (fresh shards threads) events).Sound ∧
      (run step (fresh shards threads) events).Handed :=
    run_invariant (I := fun r => r.Sound ∧ r.Handed)
      (fun r event held ok => ⟨held.1.step few ok (held.2.fresh event),
        held.2.step held.1 few single event⟩) ⟨sound_fresh, start⟩ permitted
  exact both.1.shows

theorem fresh_of_single_thread (single : threads ≤ 1) (r : Readers shards threads)
    (event : ReaderEvent shards threads) : r.Fresh event := by
  cases event with
  | opens thread shard now =>
    intro none other slot has
    obtain rfl : other = thread := by omega
    exact absurd (none.symm.trans has) (by simp)
  | drops thread shard => trivial

/-- Two threads read two shards first, and then one of them both. -/
def sharingRun (t u : Fin threads) (s z : Fin shards) : List (ReaderEvent shards threads) :=
  [.opens t s 1, .opens u z 1, .opens u s 2]

/-- The second thread takes over the slot of the first. -/
theorem sharingRun_hides {t u : Fin threads} {s z : Fin shards} (threadsApart : t ≠ u)
    (shardsApart : s ≠ z) :
    Along step Permitted (fresh shards threads) (sharingRun t u s z) ∧
      ¬ (run step (fresh shards threads) (sharingRun t u s z)).Shown := by
  have inside : 0 < readerSlots := by decide
  constructor
  · simp [sharingRun, Along, Permitted, step, fresh, guards_update, shardsApart,
      threadsApart.symm]
  · intro shown
    have opened : (run step (fresh shards threads) (sharingRun t u s z)).guards t s =
        some ⟨some ⟨0, inside⟩, 1⟩ := by
      simp [sharingRun, step, fresh, ReaderAges.claim, ReaderAges.default, inside, threadsApart]
    have starts : ∀ slot, ((run step (fresh shards threads) (sharingRun t u s z)).ages s).starts
        slot ≠ readerFree → 2 ≤ ((run step (fresh shards threads)
          (sharingRun t u s z)).ages s).starts slot := by
      intro slot
      by_cases first : slot = ⟨0, inside⟩
      · simp [sharingRun, step, fresh, ReaderAges.claim, ReaderAges.default, ReaderAges.store,
          inside, threadsApart.symm, shardsApart, shardsApart.symm, first]
      · simp [sharingRun, step, fresh, ReaderAges.claim, ReaderAges.default, ReaderAges.store,
          inside, threadsApart.symm, shardsApart, shardsApart.symm, first]
    have hides : ((run step (fresh shards threads) (sharingRun t u s z)).ages s).oldestAgeMs 2 ≤
        2 - 2 := ReaderAges.oldestAgeMs_le starts
    have claims := (shown s 2).1 t _ opened (Nat.le_succ 1)
    dsimp only at claims
    omega

/-- Over every run the metric shows every open guard just when there is one shard or one
thread. -/
theorem oldest_reader_shown_iff (shards threads : Nat) (few : threads ≤ readerSlots) :
    (∀ events, Along step Permitted (fresh shards threads) events →
      (run step (fresh shards threads) events).Shown) ↔ shards ≤ 1 ∨ threads ≤ 1 := by
  constructor
  · intro shown
    by_contra! many
    have threadsApart : (⟨0, by omega⟩ : Fin threads) ≠ ⟨1, by omega⟩ := by simp
    have shardsApart : (⟨0, by omega⟩ : Fin shards) ≠ ⟨1, by omega⟩ := by simp
    obtain ⟨permitted, hidden⟩ := sharingRun_hides threadsApart shardsApart
    exact hidden (shown _ permitted)
  · rintro (single | single) events permitted
    · exact shown_of_single_shard few single permitted
    · exact shown_of_fresh few permitted
        (along_of_forall fun r event _ => fresh_of_single_thread single r event)

theorem oldest_reader_shown_one_shard :
    2 ≤ readerSlots ∧ ∀ events, Along step Permitted (fresh 1 2) events →
      (run step (fresh 1 2) events).Shown :=
  ⟨by decide, (oldest_reader_shown_iff 1 2 (by decide)).mpr (.inl le_rfl)⟩

/-- A thread has read a shard since `1000`, and another thread, which read another shard
first, reads it too. -/
def takeoverRun (t u : Fin threads) (s z : Fin shards) : List (ReaderEvent shards threads) :=
  [.opens t s 1000, .opens u z 1000, .drops u z, .opens u s 2000]

theorem shared_slot_hides_reader :
    Along step Permitted (fresh 2 2) (takeoverRun 0 1 0 1 ++ [.drops 1 0]) ∧
    (((run step (fresh 2 2) (takeoverRun 0 1 0 1)).guards 0 0).map fun guard => guard.start) =
      some 1000 ∧
    ((run step (fresh 2 2) (takeoverRun 0 1 0 1)).ages 0).oldestAgeMs 3000 = 1000 ∧
    ((run step (fresh 2 2) (takeoverRun 0 1 0 1 ++ [.drops 1 0])).ages 0).oldestAgeMs 3000 = 0 := by
  decide +kernel

end Readers

end Vash.Store
