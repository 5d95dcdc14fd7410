import Vash.Library.Run

/-!
# Calls of several steps

A call works on several parties that other calls work on too. At each step it
looks at one party, which also tells it the time, or has one party perform an
operation; it then goes on with what it learned. Other calls take steps between
any two of its own.

* `Call.run` — a call alone, from its first step to its end; `Call.Ensures` is the
  logic for it, with the rule `Ensures.seq` for one call after another.
* `Crowd` — calls in progress together. An event starts a call or lets one of them
  take its next step (`Crowd.step`), so a list of events is an interleaving.
* `Call.Only` — a bound on the operations a call will ever ask for, whatever it
  learns.
-/

namespace Library

/-- A call over parties `ι` with states `σ`, which perform operations `ω` and answer
them with `ρ`. It ends with an `α` or an error. -/
inductive Call (ι σ ω ρ ε α : Type) where
  | done (result : α)
  | fail (error : ε)
  | look (party : ι) (next : σ → Nat → Call ι σ ω ρ ε α)
  | submit (party : ι) (operation : ω) (next : ρ → Call ι σ ω ρ ε α)

namespace Call

variable {ι σ ω ρ ε α β : Type}

/-- One call after another; an error ends both. -/
def bind : Call ι σ ω ρ ε α → (α → Call ι σ ω ρ ε β) → Call ι σ ω ρ ε β
  | done a, f => f a
  | fail e, _ => fail e
  | look i next, f => look i fun s now => (next s now).bind f
  | submit i op next, f => submit i op fun r => (next r).bind f

instance : Monad (Call ι σ ω ρ ε) where
  pure := done
  bind := bind

@[simp] theorem done_bind (a : α) (f : α → Call ι σ ω ρ ε β) : done a >>= f = f a := rfl

@[simp] theorem fail_bind (e : ε) (f : α → Call ι σ ω ρ ε β) : fail e >>= f = fail e := rfl

@[simp] theorem look_bind (i : ι) (next : σ → Nat → Call ι σ ω ρ ε α)
    (f : α → Call ι σ ω ρ ε β) :
    look i next >>= f = look i fun s now => next s now >>= f := rfl

@[simp] theorem submit_bind (i : ι) (op : ω) (next : ρ → Call ι σ ω ρ ε α)
    (f : α → Call ι σ ω ρ ε β) : submit i op next >>= f = submit i op fun r => next r >>= f := rfl

theorem map_id (call : Call ι σ ω ρ ε α) : id <$> call = call := by
  induction call with
  | done a => rfl
  | fail e => rfl
  | look i next ih => exact congrArg (look i) (funext fun s => funext fun now => ih s now)
  | submit i op next ih => exact congrArg (submit i op) (funext ih)

theorem bind_bind {γ : Type} (call : Call ι σ ω ρ ε α) (f : α → Call ι σ ω ρ ε β)
    (g : β → Call ι σ ω ρ ε γ) : call >>= f >>= g = call >>= fun a => f a >>= g := by
  induction call with
  | done a => rfl
  | fail e => rfl
  | look i next ih => exact congrArg (look i) (funext fun s => funext fun now => ih s now)
  | submit i op next ih => exact congrArg (submit i op) (funext ih)

instance : LawfulMonad (Call ι σ ω ρ ε) := .mk' _ map_id (fun _ _ => rfl) bind_bind

/-- The call has ended. -/
def Ended : Call ι σ ω ρ ε α → Prop
  | done _ => True
  | fail _ => True
  | _ => False

instance decidableEnded : ∀ call : Call ι σ ω ρ ε α, Decidable call.Ended
  | done _ => .isTrue trivial
  | fail _ => .isTrue trivial
  | look _ _ => .isFalse id
  | submit _ _ _ => .isFalse id

/-- The operation the next step of a call asks for, if it asks for one. -/
def nextJob : Call ι σ ω ρ ε α → Option (ι × ω)
  | submit i op _ => some (i, op)
  | _ => none

/-- Every operation the call may ask for satisfies `p`. -/
def Only (p : ω → Prop) : Call ι σ ω ρ ε α → Prop
  | done _ => True
  | fail _ => True
  | look _ next => ∀ s now, (next s now).Only p
  | submit _ op next => p op ∧ ∀ r, (next r).Only p

theorem Only.bind {p : ω → Prop} {call : Call ι σ ω ρ ε α} {f : α → Call ι σ ω ρ ε β}
    (first : call.Only p) (then' : ∀ a, (f a).Only p) : (call >>= f).Only p := by
  induction call with
  | done a => exact then' a
  | fail e => trivial
  | look i next ih => exact fun s now => ih s now (first s now)
  | submit i op next ih => exact ⟨first.1, fun r => ih r (first.2 r)⟩

section Views

/-- What a call that only looks ends with, when `view` gives the state and the time it
sees of each party. -/
def read (view : ι → σ × Nat) : Call ι σ ω ρ ε α → Option α
  | done a => some a
  | fail _ => none
  | look i next => (next (view i).1 (view i).2).read view
  | submit _ _ _ => none

/-- The parties such a call looks at. -/
def looked (view : ι → σ × Nat) : Call ι σ ω ρ ε α → List ι
  | done _ => []
  | fail _ => []
  | look i next => i :: (next (view i).1 (view i).2).looked view
  | submit _ _ _ => []

end Views

section Steps

variable [DecidableEq ι] (perform : (Nat → Nat) → ω → σ → ρ × σ)

/-- The next step of a call, under the readings the clock gives while it is taken. -/
def advance (clock : Nat → Nat) (parties : ι → σ) :
    Call ι σ ω ρ ε α → Call ι σ ω ρ ε α × (ι → σ)
  | done a => (done a, parties)
  | fail e => (fail e, parties)
  | look i next => (next (parties i) (clock 0), parties)
  | submit i op next =>
    (next (perform clock op (parties i)).1,
      Function.update parties i (perform clock op (parties i)).2)

theorem Only.advance {p : ω → Prop} {call : Call ι σ ω ρ ε α} (only : call.Only p)
    (clock : Nat → Nat) (parties : ι → σ) : (call.advance perform clock parties).1.Only p := by
  cases call with
  | done a => exact only
  | fail e => exact only
  | look i next => exact only _ _
  | submit i op next => exact only.2 _

/-- A call alone to its end; `clocks` gives the readings of each of its steps. -/
def run (clocks : Nat → Nat → Nat) : Call ι σ ω ρ ε α → (ι → σ) → Except ε α × (ι → σ)
  | done a, parties => (.ok a, parties)
  | fail e, parties => (.error e, parties)
  | look i next, parties =>
    (next (parties i) (clocks 0 0)).run (fun k => clocks (k + 1)) parties
  | submit i op next, parties =>
    (next (perform (clocks 0) op (parties i)).1).run (fun k => clocks (k + 1))
      (Function.update parties i (perform (clocks 0) op (parties i)).2)

/-- Alone, and under clocks that `allowed` admits, the call ends with `post` or stops
with `stop`. -/
def Ensures (allowed : (Nat → Nat) → Prop) (post : α → (ι → σ) → Prop)
    (stop : ε → (ι → σ) → Prop) : Call ι σ ω ρ ε α → (ι → σ) → Prop
  | done a, parties => post a parties
  | fail e, parties => stop e parties
  | look i next, parties =>
    ∀ clock, allowed clock → (next (parties i) (clock 0)).Ensures allowed post stop parties
  | submit i op next, parties =>
    ∀ clock, allowed clock → (next (perform clock op (parties i)).1).Ensures allowed post stop
      (Function.update parties i (perform clock op (parties i)).2)

variable {perform} {allowed : (Nat → Nat) → Prop} {post post' : α → (ι → σ) → Prop}
  {stop stop' : ε → (ι → σ) → Prop} {parties : ι → σ} {call : Call ι σ ω ρ ε α}

theorem Ensures.bind {next : α → Call ι σ ω ρ ε β} {post : β → (ι → σ) → Prop}
    (h : call.Ensures perform allowed
      (fun a parties => (next a).Ensures perform allowed post stop parties) stop parties) :
    (call >>= next).Ensures perform allowed post stop parties := by
  induction call generalizing parties with
  | done a => exact h
  | fail e => exact h
  | look i rest ih => exact fun clock ok => ih _ _ (h clock ok)
  | submit i op rest ih => exact fun clock ok => ih _ (h clock ok)

theorem Ensures.mono (h : call.Ensures perform allowed post stop parties)
    (ends : ∀ a parties, post a parties → post' a parties)
    (stops : ∀ e parties, stop e parties → stop' e parties) :
    call.Ensures perform allowed post' stop' parties := by
  induction call generalizing parties with
  | done a => exact ends a parties h
  | fail e => exact stops e parties h
  | look i rest ih => exact fun clock ok => ih _ _ (h clock ok)
  | submit i op rest ih => exact fun clock ok => ih _ (h clock ok)

theorem Ensures.imp (h : call.Ensures perform allowed post stop parties)
    (ends : ∀ a parties, post a parties → post' a parties) :
    call.Ensures perform allowed post' stop parties := h.mono ends fun _ _ hs => hs

theorem Ensures.stops (h : call.Ensures perform allowed post stop parties)
    (stops : ∀ e parties, stop e parties → stop' e parties) :
    call.Ensures perform allowed post stop' parties := h.mono (fun _ _ hp => hp) stops

/-- One call after another. -/
theorem Ensures.seq {next : α → Call ι σ ω ρ ε β} {last : β → (ι → σ) → Prop}
    (h : call.Ensures perform allowed post stop parties)
    (rest : ∀ a parties, post a parties → (next a).Ensures perform allowed last stop parties) :
    (call >>= next).Ensures perform allowed last stop parties := (h.imp rest).bind

theorem Ensures.and (first : call.Ensures perform allowed post stop parties)
    (second : call.Ensures perform allowed post' stop' parties) :
    call.Ensures perform allowed (fun a parties => post a parties ∧ post' a parties)
      (fun e parties => stop e parties ∧ stop' e parties) parties := by
  induction call generalizing parties with
  | done a => exact ⟨first, second⟩
  | fail e => exact ⟨first, second⟩
  | look i rest ih => exact fun clock ok => ih _ _ (first clock ok) (second clock ok)
  | submit i op rest ih => exact fun clock ok => ih _ (first clock ok) (second clock ok)

theorem Ensures.trivial (call : Call ι σ ω ρ ε α) (parties : ι → σ) :
    call.Ensures perform allowed (fun _ _ => True) (fun _ _ => True) parties := by
  induction call generalizing parties with
  | done a => exact True.intro
  | fail e => exact True.intro
  | look i rest ih => exact fun clock _ => ih _ _ parties
  | submit i op rest ih => exact fun clock _ => ih _ _

/-- While the clock stands, a call ends as its run does. -/
theorem Ensures.of_run (call : Call ι σ ω ρ ε α) (parties : ι → σ) (now : Nat) :
    call.Ensures perform (fun clock => ∀ k, clock k = now)
      (fun a parties' => call.run perform (fun _ _ => now) parties = (.ok a, parties'))
      (fun e parties' => call.run perform (fun _ _ => now) parties = (.error e, parties'))
      parties := by
  induction call generalizing parties with
  | done a => exact rfl
  | fail e => exact rfl
  | look i rest ih =>
    intro clock stands
    rw [stands 0]
    exact ih _ _ parties
  | submit i op rest ih =>
    intro clock stands
    obtain rfl : clock = fun _ => now := funext stands
    exact ih _ _

/-- A call that only looks ends with what it reads while the clock stands. -/
theorem Ensures.of_read {now : Nat} {a : α} (reads : call.read (fun i => (parties i, now)) = some a)
    (ends : post a parties) :
    call.Ensures perform (fun clock => ∀ k, clock k = now) post stop parties := by
  induction call with
  | done b =>
    cases reads
    exact ends
  | fail e => cases reads
  | look i rest ih =>
    intro clock stands
    rw [stands 0]
    exact ih _ _ reads
  | submit i op rest ih => cases reads

/-- What every operation a call may ask for keeps of one party holds when it ends, and
when it stops. -/
theorem Only.ensures {p : ω → Prop} {inv : σ → Prop}
    (keeps : ∀ clock op s, p op → inv s → inv (perform clock op s).2)
    (only : call.Only p) {i : ι} (held : inv (parties i)) :
    call.Ensures perform allowed (fun _ parties' => inv (parties' i))
      (fun _ parties' => inv (parties' i)) parties := by
  induction call generalizing parties with
  | done a => exact held
  | fail e => exact held
  | look j rest ih => exact fun clock _ => ih _ _ (only _ _) held
  | submit j op rest ih =>
    refine fun clock _ => ih _ (only.2 _) ?_
    by_cases here : i = j
    · rw [here, Function.update_self]
      exact keeps clock op _ only.1 (here ▸ held)
    · rw [Function.update_of_ne here]
      exact held

/-- What is ensured holds at the end of a run. -/
theorem Ensures.run (h : call.Ensures perform allowed post stop parties) {clocks : Nat → Nat → Nat}
    (ok : ∀ k, allowed (clocks k)) {a : α} {parties' : ι → σ}
    (ran : call.run perform clocks parties = (.ok a, parties')) : post a parties' := by
  induction call generalizing parties clocks with
  | done b =>
    cases ran
    exact h
  | fail e => cases ran
  | look i rest ih => exact ih _ _ (h _ (ok 0)) (fun k => ok (k + 1)) ran
  | submit i op rest ih => exact ih _ (h _ (ok 0)) (fun k => ok (k + 1)) ran

/-- What is ensured of a stop holds of a run that stops. -/
theorem Ensures.run_error (h : call.Ensures perform allowed post stop parties)
    {clocks : Nat → Nat → Nat} (ok : ∀ k, allowed (clocks k)) {e : ε} {parties' : ι → σ}
    (ran : call.run perform clocks parties = (.error e, parties')) : stop e parties' := by
  induction call generalizing parties clocks with
  | done b => cases ran
  | fail e =>
    cases ran
    exact h
  | look i rest ih => exact ih _ _ (h _ (ok 0)) (fun k => ok (k + 1)) ran
  | submit i op rest ih => exact ih _ (h _ (ok 0)) (fun k => ok (k + 1)) ran

/-- A call that cannot stop ends with what is ensured. -/
theorem Ensures.ends (h : call.Ensures perform allowed post (fun _ _ => False) parties)
    (clocks : Nat → Nat → Nat) (ok : ∀ k, allowed (clocks k)) :
    ∃ a, (call.run perform clocks parties).1 = .ok a ∧
      post a (call.run perform clocks parties).2 := by
  cases ran : call.run perform clocks parties with
  | mk result parties' =>
    cases result with
    | ok a => exact ⟨a, rfl, h.run ok ran⟩
    | error e => exact (h.run_error ok ran).elim

/-- What is ensured however a call ends holds after its run. -/
theorem Ensures.left {inv : (ι → σ) → Prop}
    (h : call.Ensures perform allowed (fun _ => inv) (fun _ => inv) parties)
    (clocks : Nat → Nat → Nat) (ok : ∀ k, allowed (clocks k)) :
    inv (call.run perform clocks parties).2 := by
  cases ran : call.run perform clocks parties with
  | mk result parties' =>
    cases result with
    | ok a => exact h.run ok ran
    | error e => exact h.run_error ok ran

end Steps

end Call

/-- Calls in progress, each with the request it was started for. -/
structure Crowd (ι σ ω ρ ε α κ : Type) where
  parties : ι → σ
  calls : List (κ × Call ι σ ω ρ ε α)

/-- A request arrives, or the call at `index` takes its next step. -/
inductive CrowdEvent (κ : Type) where
  | start (request : κ)
  | advance (index : Nat) (clock : Nat → Nat)

/-- Some steps of the call at `index`, under a standing clock. -/
def advances {κ : Type} (now index count : Nat) : List (CrowdEvent κ) :=
  List.replicate count (.advance index fun _ => now)

namespace Crowd

variable {ι σ ω ρ ε α κ : Type}

/-- No call is in progress. -/
def Quiet (crowd : Crowd ι σ ω ρ ε α κ) : Prop := ∀ call ∈ crowd.calls, call.2.Ended

instance decidableQuiet (crowd : Crowd ι σ ω ρ ε α κ) : Decidable crowd.Quiet :=
  inferInstanceAs (Decidable (∀ call ∈ crowd.calls, call.2.Ended))

variable [DecidableEq ι] (perform : (Nat → Nat) → ω → σ → ρ × σ) (code : κ → Call ι σ ω ρ ε α)

/-- One event. -/
def step (crowd : Crowd ι σ ω ρ ε α κ) : CrowdEvent κ → Crowd ι σ ω ρ ε α κ
  | .start request => { crowd with calls := crowd.calls ++ [(request, code request)] }
  | .advance index clock =>
    match crowd.calls[index]? with
    | none => crowd
    | some (request, call) =>
      let next := call.advance perform clock crowd.parties
      ⟨next.2, crowd.calls.set index (request, next.1)⟩

end Crowd

end Library
