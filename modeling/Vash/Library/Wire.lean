/-
# Binary layouts

Little-endian numbers and a reader over a byte string. A reader either takes a
prefix of the bytes and leaves the rest or refuses with an error of its own.

Two judgements connect a reader to the bytes an encoder builds. `Reads` says that
the reader takes exactly those bytes off the front of whatever follows them, and
it composes through concatenation; `Closes` says that the reader uses the bytes
up, which is what a field that extends to the end of a body needs. `Persists` says
that more bytes do not change what it accepts; a reader that persists refuses every
strict initial part of the bytes it closes on (`Closes.whole`).
-/

import Mathlib

namespace Library

variable {ε α β : Type}

/-! ### Little-endian numbers -/

/-- The low `width` bytes of a number, least significant first. -/
def leBytes : Nat → Nat → List UInt8
  | 0, _ => []
  | width + 1, n => n.toUInt8 :: leBytes width (n / 256)

/-- The number a little-endian byte string denotes. -/
def leValue : List UInt8 → Nat
  | [] => 0
  | b :: bytes => b.toNat + 256 * leValue bytes

@[simp] theorem length_leBytes (width n : Nat) : (leBytes width n).length = width := by
  induction width generalizing n with
  | zero => rfl
  | succ width ih => simp [leBytes, ih]

/-- Writing a number in `width` bytes keeps it modulo `256 ^ width`. -/
theorem leValue_leBytes (width n : Nat) : leValue (leBytes width n) = n % 256 ^ width := by
  induction width generalizing n with
  | zero => simp [leBytes, leValue, Nat.mod_one]
  | succ width ih =>
    have low : n.toUInt8.toNat = n % 256 := by simp
    rw [leBytes, leValue, ih, low, pow_succ', Nat.mod_mul]

theorem leValue_leBytes_of_lt {width n : Nat} (fits : n < 256 ^ width) :
    leValue (leBytes width n) = n := by
  rw [leValue_leBytes, Nat.mod_eq_of_lt fits]

theorem leValue_lt (bytes : List UInt8) : leValue bytes < 256 ^ bytes.length := by
  induction bytes with
  | nil => simp [leValue]
  | cons b bytes ih =>
    have small : b.toNat < 256 := b.toNat_lt
    simp only [leValue, List.length_cons, pow_succ']
    omega

/-- Every byte string is the writing of its number. -/
theorem leBytes_leValue (bytes : List UInt8) : leBytes bytes.length (leValue bytes) = bytes := by
  induction bytes with
  | nil => rfl
  | cons b bytes ih =>
    have small : b.toNat < 256 := b.toNat_lt
    have high : (b.toNat + 256 * leValue bytes) / 256 = leValue bytes := by omega
    have low : (b.toNat + 256 * leValue bytes).toUInt8 = b := by
      apply UInt8.toNat_inj.mp
      simp only [Nat.toUInt8_eq, UInt8.toNat_ofNat']
      omega
    rw [List.length_cons, leValue, leBytes, high, low, ih]

/-- What a number has past the width is not written. -/
theorem leBytes_mod (width n : Nat) : leBytes width (n % 256 ^ width) = leBytes width n := by
  have written := leBytes_leValue (leBytes width n)
  rwa [length_leBytes, leValue_leBytes] at written

/-- The front of a long enough byte string is a number of the width. -/
theorem exists_leBytes (width : Nat) {bytes : List UInt8} (long : width ≤ bytes.length) :
    ∃ n < 256 ^ width, ∃ rest, bytes = leBytes width n ++ rest ∧
      rest.length = bytes.length - width := by
  have length : (bytes.take width).length = width := by simp [long]
  refine ⟨leValue (bytes.take width), ?_, bytes.drop width, ?_, List.length_drop⟩
  · simpa only [length] using leValue_lt (bytes.take width)
  · have written := leBytes_leValue (bytes.take width)
    rw [length] at written
    rw [written, List.take_append_drop]

/-! ### Readers -/

/-- A cursor over bytes: a step returns a value and the bytes it left. -/
abbrev Reader (ε α : Type) := StateT (List UInt8) (Except ε) α

namespace Reader

/-- The next `n` bytes; fewer are refused. -/
def take (n : Nat) (short : ε) : Reader ε (List UInt8) := fun bytes =>
  if n ≤ bytes.length then .ok (bytes.take n, bytes.drop n) else .error short

/-- The next `width` bytes as a little-endian number. -/
def number (width : Nat) (short : ε) : Reader ε Nat := leValue <$> take width short

/-- Everything that is left. -/
def rest : Reader ε (List UInt8) := fun bytes => .ok (bytes, [])

/-- Refuses unless the condition holds. -/
def ensure (condition : Prop) [Decidable condition] (refusal : ε) : Reader ε Unit :=
  if condition then pure () else throw refusal

/-- Refuses a count of items that the bytes left cannot hold, at `width` bytes an item. -/
def room (count width : Nat) (short : ε) : Reader ε Unit := fun bytes =>
  if count > bytes.length / width then .error short else .ok ((), bytes)

/-- A verdict that reads nothing. -/
def lift (verdict : Except ε α) : Reader ε α := fun bytes => verdict.map fun a => (a, bytes)

/-- The same item `n` times. -/
def times (item : Reader ε α) : Nat → Reader ε (List α)
  | 0 => pure []
  | n + 1 => do
    let first ← item
    let others ← times item n
    return first :: others

/-- The value read from the front of `bytes`; what follows it is not looked at. -/
def parse (reader : Reader ε α) (bytes : List UInt8) : Except ε α :=
  (reader bytes).map Prod.fst

end Reader

/-- The reader takes exactly `bytes`, whatever follows, and returns `a`. -/
def Reads (reader : Reader ε α) (bytes : List UInt8) (a : α) : Prop :=
  ∀ rest, reader (bytes ++ rest) = .ok (a, rest)

/-- The reader uses `bytes` up and returns `a`. -/
def Closes (reader : Reader ε α) (bytes : List UInt8) (a : α) : Prop :=
  reader bytes = .ok (a, [])

theorem Reader.bind_ok {reader : Reader ε α} {next : α → Reader ε β} {bytes left : List UInt8}
    {a : α} (read : reader bytes = .ok (a, left)) : (reader >>= next) bytes = next a left := by
  change ((reader bytes) >>= fun (a, left) => next a left) = next a left
  rw [read]
  rfl

theorem Reader.bind_eq_ok_iff {reader : Reader ε α} {next : α → Reader ε β}
    {bytes left : List UInt8} {b : β} :
    (reader >>= next) bytes = .ok (b, left) ↔
      ∃ a rest, reader bytes = .ok (a, rest) ∧ next a rest = .ok (b, left) := by
  change ((reader bytes) >>= fun (a, left) => next a left) = _ ↔ _
  cases reader bytes with
  | error refusal =>
    refine iff_of_false (by rintro ⟨⟩) ?_
    rintro ⟨_, _, ⟨⟩, _⟩
  | ok read =>
    obtain ⟨a, rest⟩ := read
    constructor
    · intro read
      exact ⟨a, rest, rfl, read⟩
    · rintro ⟨_, _, same, read⟩
      cases same
      exact read

theorem Reader.ensure_eq_ok_iff {condition : Prop} [Decidable condition] {refusal : ε}
    {bytes left : List UInt8} {u : Unit} :
    Reader.ensure condition refusal bytes = .ok (u, left) ↔ condition ∧ left = bytes := by
  unfold Reader.ensure
  split
  · rename_i holds
    constructor
    · intro same
      cases same
      exact ⟨holds, rfl⟩
    · rintro ⟨-, rfl⟩
      rfl
  · rename_i fails
    exact iff_of_false (by rintro ⟨⟩) fun both => fails both.1

namespace Reads

variable {reader : Reader ε α} {next : α → Reader ε β} {bytes more : List UInt8} {a : α} {b : β}

theorem pure (a : α) : Reads (Pure.pure a : Reader ε α) [] a := fun _ => rfl

theorem bind (first : Reads reader bytes a) (then_ : Reads (next a) more b) :
    Reads (reader >>= next) (bytes ++ more) b := by
  intro rest
  rw [List.append_assoc, Reader.bind_ok (first (more ++ rest)), then_ rest]

/-- A step that reads nothing leaves the bytes to the next one. -/
theorem skip (first : Reads reader [] a) (then_ : Reads (next a) bytes b) :
    Reads (reader >>= next) bytes b :=
  bind first then_

/-- The last step that reads: what follows it only computes. -/
theorem last (first : Reads reader bytes a) (then_ : Reads (next a) [] b) :
    Reads (reader >>= next) bytes b := by
  simpa using bind first then_

theorem map (f : α → β) (read : Reads reader bytes a) : Reads (f <$> reader) bytes (f a) := by
  intro rest
  change ((reader (bytes ++ rest)) >>= fun (a, left) => Pure.pure (f a, left)) = _
  rw [read rest]
  rfl

theorem take {n : Nat} (short : ε) (length : bytes.length = n) :
    Reads (Reader.take n short) bytes bytes := by
  intro rest
  simp [Reader.take, ← length]

theorem number {width n : Nat} (short : ε) (fits : n < 256 ^ width) :
    Reads (Reader.number width short) (leBytes width n) n := by
  have taken : Reads (Reader.take width short) (leBytes width n) (leBytes width n) :=
    take short (length_leBytes width n)
  simpa only [Reader.number, leValue_leBytes_of_lt fits] using taken.map leValue

theorem ensure {condition : Prop} [Decidable condition] (refusal : ε) (holds : condition) :
    Reads (Reader.ensure condition refusal) [] () := by
  rw [Reader.ensure, if_pos holds]
  exact pure ()

theorem lift {verdict : Except ε α} (accepted : verdict = .ok a) :
    Reads (Reader.lift verdict) [] a := by
  intro rest
  rw [Reader.lift, accepted]
  rfl

/-- A counted list is read back item by item, each as `carried` says. -/
theorem times_map {item : Reader ε β} {encode : α → List UInt8} {carried : α → β}
    {items : List α} (each : ∀ a ∈ items, Reads item (encode a) (carried a)) :
    Reads (item.times items.length) (items.flatMap encode) (items.map carried) := by
  induction items with
  | nil => exact pure []
  | cons first others ih =>
    have headRead := each first (by simp)
    have tailRead := ih fun a mem => each a (by simp [mem])
    exact headRead.bind (tailRead.last (pure _))

theorem times {item : Reader ε α} {encode : α → List UInt8} {items : List α}
    (each : ∀ a ∈ items, Reads item (encode a) a) :
    Reads (item.times items.length) (items.flatMap encode) items := by
  have same : Reads (item.times items.length) (items.flatMap encode) (items.map id) :=
    times_map each
  rwa [List.map_id] at same

theorem closes (read : Reads reader bytes a) : Closes reader bytes a := by
  simpa [Closes] using read []

/-- The last fields of a body may run to its end. -/
theorem bind_closes (first : Reads reader bytes a) (then_ : Closes (next a) more b) :
    Closes (reader >>= next) (bytes ++ more) b := by
  rw [Closes, Reader.bind_ok (first more)]
  exact then_

theorem skip_closes (first : Reads reader [] a) (then_ : Closes (next a) bytes b) :
    Closes (reader >>= next) bytes b :=
  bind_closes first then_

end Reads

namespace Closes

variable {reader : Reader ε α} {next : α → Reader ε β} {bytes : List UInt8} {a : α} {b : β}

theorem rest (bytes : List UInt8) : Closes (Reader.rest : Reader ε _) bytes bytes := rfl

theorem bind (first : Closes reader bytes a) (then_ : Closes (next a) [] b) :
    Closes (reader >>= next) bytes b := by
  rw [Closes, Reader.bind_ok first]
  exact then_

theorem room {count width : Nat} {reader : Reader ε β} (short : ε)
    (fits : count ≤ bytes.length / width) (then_ : Closes reader bytes b) :
    Closes (Reader.room count width short >>= fun _ => reader) bytes b := by
  have enough : Reader.room count width short bytes = .ok ((), bytes) := if_neg fits.not_gt
  rw [Closes, Reader.bind_ok enough]
  exact then_

theorem parse (read : Closes reader bytes a) : reader.parse bytes = .ok a := by
  rw [Reader.parse, read]
  rfl

end Closes

/-! ### Widths -/

/-- The reader takes `width` bytes whenever it accepts. -/
def Consumes (reader : Reader ε α) (width : Nat) : Prop :=
  ∀ bytes a rest, reader bytes = .ok (a, rest) → bytes.length = width + rest.length

namespace Consumes

variable {reader : Reader ε α} {next : α → Reader ε β} {width more : Nat}

theorem pure (a : α) : Consumes (Pure.pure a : Reader ε α) 0 := by
  intro bytes _ rest read
  cases read
  exact (Nat.zero_add _).symm

theorem bind (first : Consumes reader width) (then_ : ∀ a, Consumes (next a) more) :
    Consumes (reader >>= next) (width + more) := by
  intro bytes b rest read
  obtain ⟨a, left, read, readNext⟩ := Reader.bind_eq_ok_iff.mp read
  rw [first bytes a left read, then_ a left b rest readNext, Nat.add_assoc]

/-- The last step that reads. -/
theorem last (first : Consumes reader width) (then_ : ∀ a, Consumes (next a) 0) :
    Consumes (reader >>= next) width :=
  bind first then_

theorem number (width : Nat) (short : ε) : Consumes (Reader.number width short) width := by
  intro bytes n rest read
  change ((Reader.take width short bytes) >>= fun (a, left) => Pure.pure (leValue a, left)) = _
    at read
  unfold Reader.take at read
  split at read
  · rename_i enough
    cases read
    simp only [List.length_drop]
    omega
  · cases read

theorem times (item : Consumes reader width) (count : Nat) :
    Consumes (reader.times count) (width * count) := by
  induction count with
  | zero => exact pure []
  | succ count ih =>
    have total : width * (count + 1) = width + width * count := by rw [Nat.mul_succ, Nat.add_comm]
    rw [total]
    exact item.bind fun _ => ih.last fun _ => pure _

end Consumes

/-! ### Continuations -/

/-- What the reader accepts it accepts before any continuation. -/
def Persists (reader : Reader ε α) : Prop :=
  ∀ bytes a rest, reader bytes = .ok (a, rest) →
    ∀ more, reader (bytes ++ more) = .ok (a, rest ++ more)

namespace Persists

variable {reader : Reader ε α} {next : α → Reader ε β}

theorem pure (a : α) : Persists (Pure.pure a : Reader ε α) := by
  intro bytes _ rest read more
  cases read
  rfl

theorem bind (first : Persists reader) (then_ : ∀ a, Persists (next a)) :
    Persists (reader >>= next) := by
  intro bytes b rest read more
  obtain ⟨a, left, read, readNext⟩ := Reader.bind_eq_ok_iff.mp read
  exact Reader.bind_eq_ok_iff.mpr
    ⟨a, left ++ more, first bytes a left read more, then_ a left b rest readNext more⟩

theorem map (f : α → β) (first : Persists reader) : Persists (f <$> reader) :=
  bind first fun a => pure (f a)

theorem take (n : Nat) (short : ε) : Persists (Reader.take n short) := by
  intro bytes a rest read more
  unfold Reader.take at read ⊢
  split at read
  · rename_i enough
    cases read
    rw [if_pos (by rw [List.length_append]; omega), List.take_append_of_le_length enough,
      List.drop_append_of_le_length enough]
  · cases read

theorem number (width : Nat) (short : ε) : Persists (Reader.number width short) :=
  (take width short).map leValue

theorem ensure (condition : Prop) [Decidable condition] (refusal : ε) :
    Persists (Reader.ensure condition refusal) := by
  unfold Reader.ensure
  split
  · exact pure ()
  · intro bytes a rest read
    cases read

theorem room (count width : Nat) (short : ε) : Persists (Reader.room count width short) := by
  intro bytes a rest read more
  unfold Reader.room at read ⊢
  split at read
  · cases read
  · rename_i fits
    cases read
    have longer : bytes.length / width ≤ (bytes ++ more).length / width :=
      Nat.div_le_div_right (by simp)
    rw [if_neg (by omega)]

theorem lift (verdict : Except ε α) : Persists (Reader.lift verdict) := by
  intro bytes a rest read more
  unfold Reader.lift at read ⊢
  cases verdict with
  | error refusal => cases read
  | ok a =>
    cases read
    rfl

theorem times (item : Persists reader) (count : Nat) : Persists (reader.times count) := by
  induction count with
  | zero => exact pure []
  | succ count ih => exact item.bind fun _ => ih.bind fun _ => pure _

end Persists

/-- The reader returns `a` from the bytes, and refuses every strict initial part of them. -/
def ReadsWhole (reader : Reader ε α) (bytes : List UInt8) (a : α) : Prop :=
  reader.parse bytes = .ok a ∧
    ∀ front, front <+: bytes → front ≠ bytes → ∃ refusal, reader.parse front = .error refusal

/-- If it accepted the part, it would leave what is missing of the whole. -/
theorem Closes.whole {reader : Reader ε α} {bytes : List UInt8} {a : α}
    (closes : Closes reader bytes a) (persists : Persists reader) :
    ReadsWhole reader bytes a := by
  refine ⟨closes.parse, ?_⟩
  rintro front ⟨missing, rfl⟩ strict
  cases read : reader front with
  | error refusal => exact ⟨refusal, by rw [Reader.parse, read]; rfl⟩
  | ok accepted =>
    obtain ⟨b, left⟩ := accepted
    have longer := persists front b left read missing
    rw [closes] at longer
    have used : ([] : List UInt8) = left ++ missing := congrArg Prod.snd (Except.ok.inj longer)
    rw [(List.append_eq_nil_iff.mp used.symm).2, List.append_nil] at strict
    exact absurd rfl strict

end Library
