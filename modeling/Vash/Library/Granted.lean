import Vash.Library.Call

/-!
# Calls whose jobs are granted

Some facts about a call only hold if each of its jobs finds its party with enough of
something left. `Granted` says so of one run; `Leads` is the logic of what a call
leaves its parties in, however it ends, if it is granted its jobs.
-/

namespace Library.Call

variable {ι σ ω ρ ε α β : Type}

/-- The call, with its error as a result. -/
def attempt : Call ι σ ω ρ ε α → Call ι σ ω ρ ε (Except ε α)
  | done a => done (.ok a)
  | fail e => done (.error e)
  | look i next => look i fun s now => (next s now).attempt
  | submit i op next => submit i op fun r => (next r).attempt

theorem Only.attempt {p : ω → Prop} {call : Call ι σ ω ρ ε α} (only : call.Only p) :
    call.attempt.Only p := by
  induction call with
  | done a => trivial
  | fail e => trivial
  | look i next ih => exact fun s now => ih s now (only s now)
  | submit i op next ih => exact ⟨only.1, fun r => ih r (only.2 r)⟩

variable [DecidableEq ι] (perform : (Nat → Nat) → ω → σ → ρ × σ) (ready : σ → ω → Prop)

/-- A call that has its error as a result does not stop. -/
theorem ensures_attempt {allowed : (Nat → Nat) → Prop} (call : Call ι σ ω ρ ε α)
    (parties : ι → σ) :
    call.attempt.Ensures perform allowed (fun _ _ => True) (fun _ _ => False) parties := by
  induction call generalizing parties with
  | done a => trivial
  | fail e => trivial
  | look i next ih => exact fun clock _ => ih _ _ parties
  | submit i op next ih => exact fun clock _ => ih _ _

/-- The run of a call whose result is only looked at afterwards. -/
theorem run_bind_done {call : Call ι σ ω ρ ε α} {next : α → Call ι σ ω ρ ε β} {f : α → β}
    (ends : ∀ a, next a = done (f a)) (clocks : Nat → Nat → Nat) (parties : ι → σ) :
    (call >>= next).run perform clocks parties =
      ((call.run perform clocks parties).1.map f, (call.run perform clocks parties).2) := by
  induction call generalizing clocks parties with
  | done a =>
    rw [done_bind, ends]
    rfl
  | fail e => rfl
  | look i rest ih => exact ih _ _ _ _
  | submit i op rest ih => exact ih _ _ _

theorem run_bind_pure (call : Call ι σ ω ρ ε α) (f : α → β) (clocks : Nat → Nat → Nat)
    (parties : ι → σ) :
    (call >>= fun a => pure (f a)).run perform clocks parties =
      ((call.run perform clocks parties).1.map f, (call.run perform clocks parties).2) :=
  run_bind_done perform (fun _ => rfl) clocks parties

/-- Each job of the run finds its party ready for it. -/
def Granted (clocks : Nat → Nat → Nat) : Call ι σ ω ρ ε α → (ι → σ) → Prop
  | done _, _ => True
  | fail _, _ => True
  | look i next, parties =>
    (next (parties i) (clocks 0 0)).Granted (fun k => clocks (k + 1)) parties
  | submit i op next, parties =>
    ready (parties i) op ∧
      (next (perform (clocks 0) op (parties i)).1).Granted (fun k => clocks (k + 1))
        (Function.update parties i (perform (clocks 0) op (parties i)).2)

instance decidableGranted [∀ s op, Decidable (ready s op)] :
    ∀ (call : Call ι σ ω ρ ε α) (clocks : Nat → Nat → Nat) (parties : ι → σ),
      Decidable (call.Granted perform ready clocks parties)
  | done _, _, _ => .isTrue trivial
  | fail _, _, _ => .isTrue trivial
  | look i next, clocks, parties =>
    decidableGranted (next (parties i) (clocks 0 0)) (fun k => clocks (k + 1)) parties
  | submit i op next, clocks, parties =>
    have := decidableGranted (next (perform (clocks 0) op (parties i)).1)
      (fun k => clocks (k + 1))
      (Function.update parties i (perform (clocks 0) op (parties i)).2)
    inferInstanceAs (Decidable (_ ∧ _))

/-- However the call ends, `post` holds of the parties then, if its jobs are granted. -/
def Leads (post : (ι → σ) → Prop) : Call ι σ ω ρ ε α → (ι → σ) → Prop
  | done _, parties => post parties
  | fail _, parties => post parties
  | look i next, parties => ∀ now, (next (parties i) now).Leads post parties
  | submit i op next, parties =>
    ready (parties i) op → ∀ clock, (next (perform clock op (parties i)).1).Leads post
      (Function.update parties i (perform clock op (parties i)).2)

variable {perform ready} {call : Call ι σ ω ρ ε α} {post : (ι → σ) → Prop} {parties : ι → σ}

theorem Leads.run (leads : call.Leads perform ready post parties) {clocks : Nat → Nat → Nat}
    (granted : call.Granted perform ready clocks parties) :
    post (call.run perform clocks parties).2 := by
  induction call generalizing parties clocks with
  | done a => exact leads
  | fail e => exact leads
  | look i next ih => exact ih _ _ (leads _) granted
  | submit i op next ih => exact ih _ (leads granted.1 _) granted.2

theorem Leads.mono {post' : (ι → σ) → Prop} (leads : call.Leads perform ready post parties)
    (weaker : ∀ parties, post parties → post' parties) :
    call.Leads perform ready post' parties := by
  induction call generalizing parties with
  | done a => exact weaker _ leads
  | fail e => exact weaker _ leads
  | look i next ih => exact fun now => ih _ _ (leads now)
  | submit i op next ih => exact fun granted clock => ih _ (leads granted clock)

/-- One call after another, where the first may also end both. -/
theorem Leads.bind {next : α → Call ι σ ω ρ ε β} {mid : (ι → σ) → Prop}
    (first : call.Leads perform ready mid parties)
    (later : ∀ a parties, mid parties → (next a).Leads perform ready post parties)
    (ends : ∀ parties, mid parties → post parties) :
    (call >>= next).Leads perform ready post parties := by
  induction call generalizing parties with
  | done a => exact later a _ first
  | fail e => exact ends _ first
  | look i rest ih => exact fun now => ih _ _ (first now)
  | submit i op rest ih => exact fun granted clock => ih _ (first granted clock)

/-- A call that has its error as a result goes on however the first one ends. -/
theorem Leads.attempt_bind {next : Except ε α → Call ι σ ω ρ ε β} {mid : (ι → σ) → Prop}
    (first : call.Leads perform ready mid parties)
    (later : ∀ r parties, mid parties → (next r).Leads perform ready post parties) :
    (call.attempt >>= next).Leads perform ready post parties := by
  induction call generalizing parties with
  | done a => exact later _ _ first
  | fail e => exact later _ _ first
  | look i rest ih => exact fun now => ih _ _ (first now)
  | submit i op rest ih => exact fun granted clock => ih _ (first granted clock)

/-- A call whose result is only looked at afterwards. -/
theorem Leads.bind_pure (leads : call.Leads perform ready post parties) (f : α → β) :
    (call >>= fun a => pure (f a)).Leads perform ready post parties :=
  leads.bind (fun _ _ held => held) fun _ held => held

/-- What every job that is granted keeps. -/
theorem Only.leads {p : ω → Prop} (only : call.Only p)
    (keeps : ∀ parties i op clock, p op → ready (parties i) op → post parties →
      post (Function.update parties i (perform clock op (parties i)).2))
    (held : post parties) : call.Leads perform ready post parties := by
  induction call generalizing parties with
  | done a => exact held
  | fail e => exact held
  | look i next ih => exact fun now => ih _ _ (only _ _) held
  | submit i op next ih =>
    exact fun granted clock => ih _ (only.2 _) (keeps _ _ _ _ only.1 granted held)

end Library.Call
