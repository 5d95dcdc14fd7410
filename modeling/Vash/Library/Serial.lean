import Vash.Library.Call

/-!
# Calls that could have been made one at a time

Calls in progress together, each with the clock readings its steps have had. Their
results are those of a serial order if the calls, made one after another under the
readings each of them had, give the same results and leave the parties the same.

A call that looks and then hands over one job is as good as made in one piece at the
moment it hands the job over, if everything it looked up would still be found so
(`Session.Current`). `serial_of_current` turns this into an order of all the calls.
-/

namespace Library

namespace Call

variable {ι σ ω ρ ε α β : Type}

/-- What a call has ended with. -/
def outcome : Call ι σ ω ρ ε α → Option (Except ε α)
  | done a => some (.ok a)
  | fail e => some (.error e)
  | _ => none

/-- What is left of a call that has looked, once for each reading and always in the
same state; `none` if it does not look that often. -/
def lookAgain (parties : ι → σ) : List (Nat → Nat) → Call ι σ ω ρ ε α → Option (Call ι σ ω ρ ε α)
  | [], call => some call
  | clock :: rest, look i next => lookAgain parties rest (next (parties i) (clock 0))
  | _ :: _, _ => none

/-- The call looks, and hands over at most one job besides those set `aside`; then it
has ended, in the way `after` tells from the answer. -/
def Settles (aside : ω → Prop) (after : ρ → Call ι σ ω ρ ε α) : Call ι σ ω ρ ε α → Prop
  | done _ => True
  | fail _ => True
  | look _ next => ∀ s now, (next s now).Settles aside after
  | submit _ op next => aside op ∨ next = after

theorem Only.settles_bind {aside : ω → Prop} {after : ρ → Call ι σ ω ρ ε β}
    {call : Call ι σ ω ρ ε α} {f : α → Call ι σ ω ρ ε β} (first : call.Only aside)
    (later : ∀ a, (f a).Settles aside after) : (call >>= f).Settles aside after := by
  induction call with
  | done a => exact later a
  | fail e => trivial
  | look i next ih => exact fun s now => ih s now (first s now)
  | submit i op next ih => exact .inl first.1

theorem Settles.lookAgain {aside : ω → Prop} {after : ρ → Call ι σ ω ρ ε α}
    {call rest : Call ι σ ω ρ ε α} {parties : ι → σ} {readings : List (Nat → Nat)}
    (settles : call.Settles aside after) (looked : call.lookAgain parties readings = some rest) :
    rest.Settles aside after := by
  induction readings generalizing call with
  | nil =>
    cases looked
    exact settles
  | cons clock readings ih =>
    cases call with
    | look i next => exact ih (settles _ _) looked
    | _ => cases looked

/-- Readings as the clocks of a run. -/
def clocksOf (readings : List (Nat → Nat)) (k : Nat) : Nat → Nat := readings.getD k fun _ => 0

variable [DecidableEq ι] (perform : (Nat → Nat) → ω → σ → ρ × σ)

/-- A run begins with the looks of its first readings. -/
theorem run_of_lookAgain {call rest : Call ι σ ω ρ ε α} {parties : ι → σ}
    {readings : List (Nat → Nat)} (looked : call.lookAgain parties readings = some rest)
    (later : List (Nat → Nat)) :
    call.run perform (clocksOf (readings ++ later)) parties =
      rest.run perform (clocksOf later) parties := by
  induction readings generalizing call with
  | nil =>
    cases looked
    rfl
  | cons clock readings ih =>
    cases call with
    | look i next => exact ih looked
    | _ => cases looked

theorem run_of_outcome {call : Call ι σ ω ρ ε α} {result : Except ε α}
    (ended : call.outcome = some result) (clocks : Nat → Nat → Nat) (parties : ι → σ) :
    call.run perform clocks parties = (result, parties) := by
  cases call with
  | done a =>
    cases ended
    rfl
  | fail e =>
    cases ended
    rfl
  | look i next => cases ended
  | submit i op next => cases ended

end Call

/-- A call in progress, with the request it was started for and the readings its steps
have had. -/
structure Session (ι σ ω ρ ε α κ : Type) where
  request : κ
  readings : List (Nat → Nat)
  rest : Call ι σ ω ρ ε α

/-- Calls in progress together. -/
structure Sessions (ι σ ω ρ ε α κ : Type) where
  parties : ι → σ
  calls : List (Session ι σ ω ρ ε α κ)

section Steps

variable {ι σ ω ρ ε α κ : Type} [DecidableEq ι] (perform : (Nat → Nat) → ω → σ → ρ × σ)
  (code : κ → Call ι σ ω ρ ε α)

namespace Session

/-- The call made in one piece, under the readings it had. -/
def alone (s : Session ι σ ω ρ ε α κ) (parties : ι → σ) : Except ε α × (ι → σ) :=
  (code s.request).run perform (Call.clocksOf s.readings) parties

/-- The session after the next step of its call. -/
def next (s : Session ι σ ω ρ ε α κ) (clock : Nat → Nat) (parties : ι → σ) :
    Session ι σ ω ρ ε α κ :=
  ⟨s.request, s.readings ++ [clock], (s.rest.advance perform clock parties).1⟩

/-- If the next step hands over a job, it is not one set aside, and the call would hand
it over too if it had looked only now; if the next step is a look that ends the call,
it would end so too if it had looked only now. -/
def Current (aside : ω → Prop) (clock : Nat → Nat) (parties : ι → σ)
    (s : Session ι σ ω ρ ε α κ) : Prop :=
  (∀ job ∈ s.rest.nextJob, ¬ aside job.2 ∧
    (Call.lookAgain parties s.readings (code s.request)).bind Call.nextJob = some job) ∧
  (s.rest.nextJob = none → ∀ result ∈ (s.next perform clock parties).rest.outcome,
    (Call.lookAgain parties (s.readings ++ [clock]) (code s.request)).bind Call.outcome =
      some result)

end Session

namespace Sessions

/-- One event. A call that has ended takes no more steps. -/
def step (t : Sessions ι σ ω ρ ε α κ) : CrowdEvent κ → Sessions ι σ ω ρ ε α κ
  | .start request => { t with calls := t.calls ++ [⟨request, [], code request⟩] }
  | .advance index clock =>
    match t.calls[index]? with
    | none => t
    | some s =>
      if s.rest.outcome.isSome then t
      else ⟨(s.rest.advance perform clock t.parties).2,
        t.calls.set index (s.next perform clock t.parties)⟩

/-- What is asked of each event of a run that has a serial order. -/
def Current (aside : ω → Prop) (t : Sessions ι σ ω ρ ε α κ) : CrowdEvent κ → Prop
  | .start _ => True
  | .advance index clock => ∀ s ∈ t.calls[index]?,
      s.rest.outcome.isSome = false → s.Current perform code aside clock t.parties

/-- Every call has ended. -/
def Quiet (t : Sessions ι σ ω ρ ε α κ) : Prop := ∀ s ∈ t.calls, s.rest.outcome.isSome = true

/-- The calls could have been made in some order, one at a time: each under the
readings it had, with the result it had, and they leave the parties as they are. -/
def Serial (parties : ι → σ) (t : Sessions ι σ ω ρ ε α κ) : Prop :=
  ∃ order : List (Session ι σ ω ρ ε α κ), order.Perm t.calls ∧
    (trace (Session.alone perform code) order parties).1.map some =
      order.map (fun s => s.rest.outcome) ∧
    (trace (Session.alone perform code) order parties).2 = t.parties

/-- The calls that have ended so far could have been made in some order, and those in
progress will settle. -/
structure Accounted (aside : ω → Prop) (after : κ → ρ → Call ι σ ω ρ ε α) (parties : ι → σ)
    (t : Sessions ι σ ω ρ ε α κ) : Prop where
  ended : Serial perform code parties ⟨t.parties, t.calls.filter fun s => s.rest.outcome.isSome⟩
  settles : ∀ s ∈ t.calls, s.rest.Settles aside (after s.request)

variable {perform code} {aside : ω → Prop} {after : κ → ρ → Call ι σ ω ρ ε α} {parties : ι → σ}
  {t : Sessions ι σ ω ρ ε α κ}

/-- One more call, made where the others have left off. -/
theorem Serial.snoc {calls calls' : List (Session ι σ ω ρ ε α κ)} {parties' parties'' : ι → σ}
    (serial : Serial perform code parties ⟨parties', calls⟩) {s : Session ι σ ω ρ ε α κ}
    {result : Except ε α} (alone : s.alone perform code parties' = (result, parties''))
    (ended : s.rest.outcome = some result) (more : calls'.Perm (s :: calls)) :
    Serial perform code parties ⟨parties'', calls'⟩ := by
  obtain ⟨order, perm, results, left⟩ := serial
  refine ⟨order ++ [s], ?_, ?_, ?_⟩
  · exact (List.perm_append_singleton s order).trans ((perm.cons s).trans more.symm)
  · rw [trace_append, left]
    simp only [trace_cons, trace_nil, alone, List.map_append, results, List.map_cons, List.map_nil,
      ended]
  · rw [trace_append, left]
    simp only [trace_cons, trace_nil, alone]

/-- An element that `p` drops, replaced by another. -/
theorem filter_set_perm {β : Type} {p : β → Bool} {l : List β} {index : Nat} {a b : β}
    (here : l[index]? = some a) (dropped : p a = false) :
    ((l.set index b).filter p).Perm ((b :: l).filter p) := by
  induction l generalizing index with
  | nil => cases here
  | cons first rest ih =>
    cases index with
    | zero =>
      cases here
      simp [List.filter_cons, dropped]
    | succ index =>
      have kept : ((first :: rest.set index b).filter p).Perm
          ((first :: b :: rest).filter p) := by
        rw [List.filter_cons, List.filter_cons]
        split
        · exact (ih here).cons first
        · exact ih here
      exact kept.trans ((List.Perm.swap b first rest).filter p)

variable (settles : ∀ request, (code request).Settles aside (after request))
  (ends : ∀ request r, (after request r).outcome.isSome = true)

include settles in
theorem Accounted.start (account : Accounted perform code aside after parties t) (request : κ) :
    Accounted perform code aside after parties (t.step perform code (.start request)) where
  ended := by
    simp only [Sessions.step]
    rw [List.filter_append]
    cases outcome : (code request).outcome with
    | none => simpa [outcome] using account.ended
    | some result =>
      have alone : Session.alone perform code ⟨request, [], code request⟩ t.parties =
          (result, t.parties) := Call.run_of_outcome perform outcome _ _
      refine account.ended.snoc alone outcome ?_
      rw [List.filter_cons_of_pos (by simp [outcome]), List.filter_nil]
      exact List.perm_append_singleton _ _
  settles := by
    intro s mem
    rcases List.mem_append.mp mem with old | new
    · exact account.settles s old
    · obtain rfl := List.mem_singleton.mp new
      exact settles request

include settles ends in
/-- The step of a call that has not ended. -/
theorem Accounted.advance (account : Accounted perform code aside after parties t) {index : Nat}
    {clock : Nat → Nat} {s : Session ι σ ω ρ ε α κ} (here : t.calls[index]? = some s)
    (going : s.rest.outcome.isSome = false)
    (current : s.Current perform code aside clock t.parties) :
    Accounted perform code aside after parties
      ⟨(s.rest.advance perform clock t.parties).2,
        t.calls.set index (s.next perform clock t.parties)⟩ := by
  have settled := account.settles s (List.mem_of_getElem? here)
  have listed := filter_set_perm (p := fun s => s.rest.outcome.isSome)
    (b := s.next perform clock t.parties) here going
  obtain ⟨handed, looked⟩ := current
  obtain ⟨request, readings, rest⟩ := s
  have keeps : ∀ s' : Session ι σ ω ρ ε α κ, s'.rest.Settles aside (after s'.request) →
      ∀ s ∈ t.calls.set index s', s.rest.Settles aside (after s.request) := by
    intro s' fine s mem
    rcases List.mem_or_eq_of_mem_set mem with old | rfl
    · exact account.settles s old
    · exact fine
  cases rest with
  | done a => cases going
  | fail e => cases going
  | look i next =>
    refine ⟨?_, keeps _ (settled _ _)⟩
    cases outcome : (next (t.parties i) (clock 0)).outcome with
    | none =>
      -- a look that does not end the call changes nothing
      rw [List.filter_cons_of_neg (by simp [Session.next, Call.advance, outcome])] at listed
      obtain ⟨order, perm, results, left⟩ := account.ended
      exact ⟨order, perm.trans listed.symm, results, left⟩
    | some result =>
      obtain ⟨again, found, ended⟩ := Option.bind_eq_some_iff.mp (looked rfl result outcome)
      rw [List.filter_cons_of_pos (by simp [Session.next, Call.advance, outcome])] at listed
      refine account.ended.snoc ?_ outcome listed
      have run := Call.run_of_lookAgain perform found []
      rw [List.append_nil] at run
      exact run.trans (Call.run_of_outcome perform ended _ _)
  | submit i op next =>
    obtain ⟨apart, same⟩ := handed (i, op) rfl
    obtain ⟨again, found, job⟩ := Option.bind_eq_some_iff.mp same
    obtain rfl : next = after request := settled.resolve_left apart
    have closes := ends request (perform clock op (t.parties i)).1
    obtain ⟨result, outcome⟩ := Option.isSome_iff_exists.mp closes
    have alone : Session.alone perform code
        (Session.next perform ⟨request, readings, .submit i op (after request)⟩ clock t.parties)
          t.parties =
        (result, Function.update t.parties i (perform clock op (t.parties i)).2) := by
      refine (Call.run_of_lookAgain perform found [clock]).trans ?_
      have settled' := (settles request).lookAgain found
      cases again with
      | submit j op' next' =>
        cases job
        obtain rfl : next' = after request := settled'.resolve_left apart
        exact Call.run_of_outcome perform outcome _ _
      | _ => cases job
    rw [List.filter_cons_of_pos (by simp [Session.next, Call.advance, outcome])] at listed
    refine ⟨account.ended.snoc alone outcome listed, keeps _ ?_⟩
    change (after request (perform clock op (t.parties i)).1).Settles aside (after request)
    cases ended : after request (perform clock op (t.parties i)).1 with
    | done a => trivial
    | fail e => trivial
    | look j more =>
      rw [ended] at outcome
      cases outcome
    | submit j op' more =>
      rw [ended] at outcome
      cases outcome

include settles ends in
theorem Accounted.step (account : Accounted perform code aside after parties t)
    (event : CrowdEvent κ) (current : t.Current perform code aside event) :
    Accounted perform code aside after parties (t.step perform code event) := by
  cases event with
  | start request => exact account.start settles request
  | advance index clock =>
    cases here : t.calls[index]? with
    | none =>
      simp only [Sessions.step, here]
      exact account
    | some s =>
      cases going : s.rest.outcome.isSome with
      | true =>
        simp only [Sessions.step, here, going]
        exact account
      | false =>
        simp only [Sessions.step, here, going]
        exact account.advance settles ends here going (current s here going)

include settles ends in
/-- Once every call has ended, calls whose looks stayed current have a serial order. -/
theorem serial_of_current {events : List (CrowdEvent κ)}
    (current : Along (Sessions.step perform code) (Sessions.Current perform code aside)
      ⟨parties, []⟩ events)
    (quiet : (run (Sessions.step perform code) ⟨parties, []⟩ events).Quiet) :
    Serial perform code parties (run (Sessions.step perform code) ⟨parties, []⟩ events) := by
  have account : Accounted perform code aside after parties
      (run (Sessions.step perform code) ⟨parties, []⟩ events) :=
    run_invariant (fun t event held allowed => held.step settles ends event allowed)
      ⟨⟨[], List.Perm.refl _, rfl, rfl⟩, by simp⟩ current
  have all : (run (Sessions.step perform code) ⟨parties, []⟩ events).calls.filter
      (fun s => s.rest.outcome.isSome) =
        (run (Sessions.step perform code) ⟨parties, []⟩ events).calls :=
    List.filter_eq_self.mpr quiet
  have ended := account.ended
  rwa [all] at ended

end Sessions

end Steps

end Library
