import Vash.Library.Table
import Vash.Library.Words
import Vash.Server.Roles

/-!
# The credential file

One credential a line, as words: a name, a proof and at most one list of roles. What
`parse` accepts is said by the rows a file is made of, and what the table then grants a
presented secret by the row of the name.

* `parse_ok_iff` — the files that are accepted, and their table.
* `credentials_exact_iff` — where the file says less than is accepted: a digest is read by
  pairs, and a pair of hex digits may begin with a sign.
-/

namespace Vash.Server

open Library

/-- `char::is_whitespace`: the characters Unicode counts as white space. -/
def isWhitespace (c : Char) : Bool :=
  (0x9 ≤ c.toNat && c.toNat ≤ 0xd) || c.toNat == 0x20 || c.toNat == 0x85 || c.toNat == 0xa0 ||
    c.toNat == 0x1680 || (0x2000 ≤ c.toNat && c.toNat ≤ 0x200a) || c.toNat == 0x2028 ||
    c.toNat == 0x2029 || c.toNat == 0x202f || c.toNat == 0x205f || c.toNat == 0x3000

/-- `as_bytes`. -/
def Text.bytes (text : Text) : Bytes := text.flatMap String.utf8EncodeChar

/-- `len`, which counts bytes. -/
def Text.len (text : Text) : Nat := text.bytes.length

/-- A line that ended in `\n`, without the `\r` before it. -/
def Text.chomp (line : Text) : Text :=
  if line.getLast? = some '\r' then line.dropLast else line

/-- `lines`. What follows the last line feed is a line unless it is empty. -/
def Text.lines (text : Text) : List Text :=
  let pieces := text.splitOn '\n'
  pieces.dropLast.map Text.chomp ++ pieces.getLast?.toList.filter fun line => !line.isEmpty

/-- Slicing off bytes: a slice that ends inside a character panics. -/
def Text.sliceBytes : Nat → Text → Option (Text × Text)
  | 0, text => some ([], text)
  | _ + 1, [] => none
  | n + 1, c :: rest =>
    if c.utf8Size ≤ n + 1 then
      (Text.sliceBytes (n + 1 - c.utf8Size) rest).map fun cut => (c :: cut.1, cut.2)
    else none

/-- `char::to_digit(16)`. -/
def hexDigit (c : Char) : Option Nat :=
  if '0' ≤ c ∧ c ≤ '9' then some (c.toNat - '0'.toNat)
  else if 'a' ≤ c ∧ c ≤ 'f' then some (c.toNat - 'a'.toNat + 10)
  else if 'A' ≤ c ∧ c ≤ 'F' then some (c.toNat - 'A'.toNat + 10)
  else none

/-- The digits of a number, accumulated within a `u8`. -/
def hexValue : Nat → Text → Option Nat
  | value, [] => some value
  | value, c :: rest =>
    (hexDigit c).bind fun digit =>
      if value * 16 + digit < 256 then hexValue (value * 16 + digit) rest else none

/-- `u8::from_str_radix` at radix 16, which takes a sign. -/
def fromStrRadix16 : Text → Option Nat
  | [] => none
  | ['+'] => none
  | '+' :: digits => hexValue 0 digits
  | digits => hexValue 0 digits

/-- `Mechanism`. -/
inductive Mechanism where
  | plain
  | hmacSha256
  deriving DecidableEq, Repr

/-- `Identity`. The name is decoded from the bytes that were presented, which are those of a
name in the table. -/
structure Identity where
  name : Bytes
  roles : Roles
  deriving DecidableEq, Repr

/-- `Credential`. -/
structure Credential where
  mechanism : Mechanism
  value : Bytes
  subject : Option Text
  roles : Roles
  inherited : Bool
  deriving DecidableEq, Repr

/-- Why a line is refused, with what the message shows. -/
inductive CredentialError where
  | oneField
  | unknownField (field : Text)
  | rolesTwice
  | roles (cause : RoleError)
  | nameLength (bytes : Nat)
  | nameChar (bad : Char)
  | modularCrypt (field : Text)
  | noAlgorithm (field : Text)
  | hexLength (bytes : Nat)
  | uppercase
  | notHex (pair : Text)
  | emptySubject
  | subjectSpace (value : Text)
  | hmacNotBuilt
  | unknownAlgorithm (algorithm : Text)
  | duplicate (name : Text)
  /-- Not an error of the loader: a slice off a character boundary, or the `expect` on a
  blank line. -/
  | panicked
  deriving DecidableEq, Repr

/-- The context a line's error comes in. -/
structure LineError where
  lineNumber : Nat
  line : Text
  cause : CredentialError
  deriving DecidableEq, Repr

/-- The table of credentials. -/
abbrev Credentials := Table Bytes Credential

namespace Credentials

/-- `MAX_NAME_LEN`. -/
def maxNameLen : Nat := 64

/-- `[A-Za-z0-9_.-]`. -/
def nameChar (c : Char) : Bool := c.isAlphanum || c = '_' || c = '.' || c = '-'

/-- `validate_name`. -/
def validateName (name : Text) : Except CredentialError Unit :=
  if 1 ≤ name.len ∧ name.len ≤ maxNameLen then
    match name.find? fun c => !nameChar c with
    | some bad => .error (.nameChar bad)
    | none => .ok ()
  else .error (.nameLength name.len)

/-- One turn of the loop in `parse_hex32`. -/
def parsePair (value : Text) : Except CredentialError (Nat × Text) :=
  match value.sliceBytes 2 with
  | none => .error .panicked
  | some (pair, rest) =>
    if pair.any Char.isUpper then .error .uppercase
    else
      match fromStrRadix16 pair with
      | none => .error (.notHex pair)
      | some byte => .ok (byte, rest)

/-- The loop of `parse_hex32`. -/
def parsePairs : Nat → Text → Except CredentialError Bytes
  | 0, _ => .ok []
  | n + 1, value =>
    match parsePair value with
    | .error cause => .error cause
    | .ok (byte, rest) => (parsePairs n rest).map fun bytes => byte.toUInt8 :: bytes

/-- `parse_hex32`. -/
def parseHex32 (value : Text) : Except CredentialError Bytes :=
  if value.len = 64 then parsePairs 32 value else .error (.hexLength value.len)

/-- What is known of an algorithm and its value. -/
def parseProof (algorithm value : Text) : Except CredentialError Credential :=
  if algorithm = "sha256".toList then
    (parseHex32 value).map fun digest => ⟨.plain, digest, none, Roles.unrestricted, true⟩
  else if algorithm = "mtls".toList then
    if value = [] then .error .emptySubject
    else if value.any isWhitespace then .error (.subjectSpace value)
    else .ok ⟨.plain, List.replicate 32 0, some value, Roles.unrestricted, true⟩
  else if algorithm = "hmac-sha256-key".toList then
    match parseHex32 value with
    | .error cause => .error cause
    | .ok _ => .error .hmacNotBuilt
  else .error (.unknownAlgorithm algorithm)

/-- `parse_credential`. -/
def parseCredential (field : Text) : Except CredentialError Credential :=
  if field.head? = some '$' then .error (.modularCrypt field)
  else
    match splitOnce ':' field with
    | none => .error (.noAlgorithm field)
    | some (algorithm, value) => parseProof algorithm value

/-- The trailing fields. -/
def parseTrailing : List Text → Option Roles → Except CredentialError (Option Roles)
  | [], roles => .ok roles
  | field :: rest, roles =>
    match field.dropPrefix? "roles=".toList with
    | none => .error (.unknownField field)
    | some list =>
      if roles.isSome then .error .rolesTwice
      else
        match Roles.parseList list with
        | .error cause => .error (.roles cause)
        | .ok roles => parseTrailing rest (some roles)

/-- What `roles=` does to a credential. -/
def Credential.grant (credential : Credential) : Option Roles → Credential
  | none => credential
  | some roles => { credential with roles := roles, inherited := false }

/-- `parse_line`, on the fields of the line. -/
def parseFields : List Text → Credentials → Except CredentialError Credentials
  | [], _ => .error .panicked
  | [_], _ => .error .oneField
  | name :: field :: trailing, table => do
    let roles ← parseTrailing trailing none
    validateName name
    let credential ← parseCredential field
    if (table.get name.bytes).isSome then .error (.duplicate name)
    else .ok (table.put name.bytes (Credential.grant credential roles))

/-- `parse_line`. -/
def parseLine (line : Text) (table : Credentials) : Except CredentialError Credentials :=
  parseFields (words isWhitespace line) table

/-- The loop of `parse`. -/
def parseLines : List Text → Nat → Credentials → Except LineError Credentials
  | [], _, table => .ok table
  | raw :: rest, index, table =>
    let line := trimEnds isWhitespace raw
    if line.isEmpty ∨ line.head? = some '#' then parseLines rest (index + 1) table
    else
      match parseLine line table with
      | .error cause => .error ⟨index + 1, line, cause⟩
      | .ok table => parseLines rest (index + 1) table

/-- `parse`. -/
def parse (text : Text) : Except LineError Credentials := parseLines text.lines 0 ∅

/-- `resolve_defaults`, with the names of the rows that took the default. -/
def resolveDefaults (table : Credentials) (default : Roles) : Credentials × List Bytes :=
  (table.mapValues fun credential =>
      if credential.inherited then { credential with roles := default } else credential,
    (table.rows.filter fun row => row.2.inherited).map Prod.fst)

/-- `verify`. -/
def verify (sha256 : Bytes → Bytes) (table : Credentials) (name secret : Bytes) :
    Option Identity :=
  (table.get name).bind fun credential =>
    if credential.subject.isSome then none
    else if credential.mechanism ≠ .plain then none
    else if sha256 secret = credential.value then some ⟨name, credential.roles⟩
    else none

/-! ### What a file says -/

/-- What a row asks of the client. -/
inductive Proof where
  | sha256 (digits : Text)
  | mtls (subject : Text)
  deriving DecidableEq, Repr

/-- A row, as it is written. -/
structure Row where
  name : Text
  proof : Proof
  roles : Option (List Text)
  deriving DecidableEq, Repr

/-- A lowercase hex digit. -/
def lowerHex (c : Char) : Bool := ('0' ≤ c && c ≤ '9') || ('a' ≤ c && c ≤ 'f')

/-- The bytes that hex digits stand for. -/
def hexBytes : Text → Bytes
  | a :: b :: rest =>
    ((hexDigit a).getD 0 * 16 + (hexDigit b).getD 0).toUInt8 :: hexBytes rest
  | _ => []

/-- Pairs of lowercase hex digits, each of which may have a sign for its first digit. -/
def Pairs : Text → Prop
  | [] => True
  | [_] => False
  | a :: b :: rest => (lowerHex a = true ∨ a = '+') ∧ lowerHex b = true ∧ Pairs rest

namespace Proof

/-- The second field of a row. -/
def field : Proof → Text
  | .sha256 digits => "sha256:".toList ++ digits
  | .mtls subject => "mtls:".toList ++ subject

theorem field_sha256 (digits : Text) : (Proof.sha256 digits).field = "sha256:".toList ++ digits :=
  rfl

theorem field_mtls (subject : Text) : (Proof.mtls subject).field = "mtls:".toList ++ subject := rfl

/-- A digest of 64 lowercase hex digits, or a subject. -/
def WellFormed : Proof → Prop
  | .sha256 digits => digits.length = 64 ∧ ∀ c ∈ digits, lowerHex c = true
  | .mtls subject => subject ≠ []

/-- What is accepted. -/
def Accepted : Proof → Prop
  | .sha256 digits => digits.length = 64 ∧ Pairs digits
  | .mtls subject => subject ≠ []

/-- What the table holds of it. -/
def credential : Proof → Credential
  | .sha256 digits => ⟨.plain, hexBytes digits, none, Roles.unrestricted, true⟩
  | .mtls subject => ⟨.plain, List.replicate 32 0, some subject, Roles.unrestricted, true⟩

end Proof

namespace Row

/-- The third field, where there is one. -/
def trailing (roles : Option (List Text)) : List Text :=
  (roles.map fun names => "roles=".toList ++ [','].intercalate names).toList

/-- The fields of the line. -/
def fields (row : Row) : List Text := row.name :: row.proof.field :: trailing row.roles

/-- A row in order, given what is asked of its proof. -/
structure Sound (good : Proof → Prop) (row : Row) : Prop where
  short : 1 ≤ row.name.length ∧ row.name.length ≤ maxNameLen
  plain : ∀ c ∈ row.name, nameChar c = true
  proof : good row.proof
  roles : ∀ names ∈ row.roles, names ≠ [] ∧ Roles.Distinct names

/-- A well-formed row. -/
abbrev WellFormed : Row → Prop := Sound Proof.WellFormed

/-- A row that is accepted. -/
abbrev Accepted : Row → Prop := Sound Proof.Accepted

/-- The roles a row lists. -/
def listed (roles : Option (List Text)) : Option Roles := roles.map Roles.none.grant

/-- The row in the table. -/
def credential (row : Row) : Credential := Credential.grant row.proof.credential (listed row.roles)

end Row

/-- A line of white space. -/
def blank (line : Text) : Bool := line.all isWhitespace

/-- A line whose first character, white space apart, is `#`. -/
def comment (line : Text) : Bool := (line.dropWhile isWhitespace).head? = some '#'

/-- The lines that are neither blank nor a comment. -/
def rowLines (text : Text) : List Text := text.lines.filter fun line => !blank line && !comment line

/-- The file is these rows, one a line, under distinct names. -/
structure Written (good : Row → Prop) (text : Text) (rows : List Row) : Prop where
  lines : List.Forall₂ (fun line row => words isWhitespace line = row.fields) (rowLines text) rows
  good : ∀ row ∈ rows, good row
  distinct : (rows.map Row.name).Nodup

/-- The table of a file's rows. -/
def tableOf (rows : List Row) (table : Credentials) : Credentials :=
  rows.foldl (fun table row => table.put row.name.bytes row.credential) table

/-! ### Characters of one byte -/

theorem char_le_iff {a b : Char} : a ≤ b ↔ a.toNat ≤ b.toNat := UInt32.le_iff_toNat_le

theorem utf8Size_of_lt {c : Char} (ascii : c.toNat < 128) : c.utf8Size = 1 := by
  have small : c.val ≤ 127 := by
    rw [UInt32.le_iff_toNat_le]
    exact Nat.le_of_lt_succ ascii
  simp [Char.utf8Size, small]

theorem lt_of_nameChar {c : Char} (plain : nameChar c = true) : c.toNat < 128 := by
  simp only [nameChar, Char.isAlphanum, Char.isAlpha, Char.isUpper, Char.isLower, Char.isDigit,
    Bool.or_eq_true, Bool.and_eq_true, decide_eq_true_eq, ge_iff_le,
    UInt32.le_iff_toNat_le] at plain
  rcases plain with (((((⟨-, h⟩ | ⟨-, h⟩) | ⟨-, h⟩) | rfl) | rfl) | rfl)
  · exact lt_of_le_of_lt h (by decide)
  · exact lt_of_le_of_lt h (by decide)
  · exact lt_of_le_of_lt h (by decide)
  · decide
  · decide
  · decide

theorem char_codes : '0'.toNat = 48 ∧ '9'.toNat = 57 ∧ 'a'.toNat = 97 ∧ 'f'.toNat = 102 ∧
    'A'.toNat = 65 ∧ 'F'.toNat = 70 ∧ 'Z'.toNat = 90 := by decide

theorem lt_of_hexDigit {c : Char} {digit : Nat} (found : hexDigit c = some digit) :
    c.toNat < 128 ∧ digit < 16 := by
  simp only [hexDigit, char_le_iff] at found
  have codes := char_codes
  grind

theorem lowerHex_iff {c : Char} :
    lowerHex c = true ↔ (hexDigit c).isSome = true ∧ c.isUpper = false := by
  have upper : c.isUpper = true ↔ 'A' ≤ c ∧ c ≤ 'Z' := by simp [Char.isUpper]; rfl
  rw [← Bool.not_eq_true, upper]
  simp only [lowerHex, hexDigit, char_le_iff, Bool.or_eq_true, Bool.and_eq_true, decide_eq_true_eq]
  have codes := char_codes
  grind

theorem lt_of_lowerHex {c : Char} (lower : lowerHex c = true) : c.toNat < 128 := by
  obtain ⟨digit, found⟩ := Option.isSome_iff_exists.mp (lowerHex_iff.mp lower).1
  exact (lt_of_hexDigit found).1

theorem utf8Size_of_first {c : Char} (first : lowerHex c = true ∨ c = '+') : c.utf8Size = 1 := by
  rcases first with lower | rfl
  · exact utf8Size_of_lt (lt_of_lowerHex lower)
  · decide

theorem bytes_cons (c : Char) (rest : Text) :
    Text.bytes (c :: rest) = String.utf8EncodeChar c ++ Text.bytes rest := List.flatMap_cons

theorem len_cons (c : Char) (rest : Text) : Text.len (c :: rest) = c.utf8Size + Text.len rest := by
  rw [Text.len, bytes_cons, List.length_append, String.length_utf8EncodeChar, Text.len]

theorem len_of_ascii {text : Text} (ascii : ∀ c ∈ text, c.toNat < 128) :
    text.len = text.length := by
  induction text with
  | nil => rfl
  | cons c rest ih =>
    obtain ⟨here, later⟩ := List.forall_mem_cons.mp ascii
    rw [len_cons, ih later, utf8Size_of_lt here, List.length_cons, Nat.add_comm]

/-- A name is read back from its bytes. -/
theorem bytes_decode {text : Text} (ascii : ∀ c ∈ text, c.toNat < 128) :
    text.bytes.map (fun byte => Char.ofNat byte.toNat) = text := by
  induction text with
  | nil => rfl
  | cons c rest ih =>
    obtain ⟨here, later⟩ := List.forall_mem_cons.mp ascii
    have wide : c.val.toNat % 2 ^ 8 = c.toNat := Nat.mod_eq_of_lt (here.trans (by decide))
    have back : Char.ofNat c.val.toUInt8.toNat = c := by
      rw [UInt32.toNat_toUInt8, wide, Char.ofNat_toNat]
    rw [bytes_cons, String.utf8EncodeChar_eq_singleton (utf8Size_of_lt here), List.map_append,
      ih later, List.map_singleton, back, List.singleton_append]

theorem bytes_inj {a b : Text} (ascii : ∀ c ∈ a, c.toNat < 128) (ascii' : ∀ c ∈ b, c.toNat < 128)
    (same : a.bytes = b.bytes) : a = b := by
  rw [← bytes_decode ascii, ← bytes_decode ascii', same]

theorem validateName_ok_iff {name : Text} :
    validateName name = .ok () ↔
      (1 ≤ name.length ∧ name.length ≤ maxNameLen) ∧ ∀ c ∈ name, nameChar c = true := by
  unfold validateName
  cases found : name.find? fun c => !nameChar c with
  | none =>
    have plain : ∀ c ∈ name, nameChar c = true := by simpa using List.find?_eq_none.mp found
    rw [len_of_ascii fun c mem => lt_of_nameChar (plain c mem)]
    simpa using fun _ _ => plain
  | some bad =>
    have wrong : ¬ ∀ c ∈ name, nameChar c = true := by
      intro plain
      have refused := List.find?_some found
      simp [plain bad (List.mem_of_find?_eq_some found)] at refused
    simp only [wrong, and_false, iff_false]
    split <;> exact nofun

/-! ### A digest -/

theorem fromStrRadix16_singleton (c : Char) : fromStrRadix16 [c] = hexDigit c := by
  by_cases sign : c = '+'
  · subst sign
    decide
  · have plain : fromStrRadix16 [c] = hexValue 0 [c] := by
      unfold fromStrRadix16
      split <;> simp_all
    rw [plain]
    cases found : hexDigit c with
    | none => simp [hexValue, found]
    | some digit =>
      have small := (lt_of_hexDigit found).2
      simp [hexValue, found, show digit < 256 by omega]

theorem hexValue_pair {a b : Char} {byte : Nat} :
    hexValue 0 [a, b] = some byte ↔ ∃ high low, hexDigit a = some high ∧ hexDigit b = some low ∧
      byte = high * 16 + low := by
  cases first : hexDigit a with
  | none => simp [hexValue, first]
  | some high =>
    have small := (lt_of_hexDigit first).2
    cases second : hexDigit b with
    | none => simp [hexValue, first, second]
    | some low =>
      have small' := (lt_of_hexDigit second).2
      simp [hexValue, first, second, show high < 256 by omega,
        show high * 16 + low < 256 by omega, eq_comm]

theorem fromStrRadix16_pair {a b : Char} {byte : Nat} :
    fromStrRadix16 [a, b] = some byte ↔
      ((hexDigit a).isSome = true ∨ a = '+') ∧ (hexDigit b).isSome = true ∧
        byte = (hexDigit a).getD 0 * 16 + (hexDigit b).getD 0 := by
  by_cases sign : a = '+'
  · subst sign
    have none : hexDigit '+' = none := by decide
    have shift : fromStrRadix16 ['+', b] = hexValue 0 [b] := rfl
    cases found : hexDigit b with
    | none => simp [shift, hexValue, found]
    | some digit =>
      have small := (lt_of_hexDigit found).2
      simp [shift, hexValue, found, none, show digit < 256 by omega, eq_comm]
  · have plain : fromStrRadix16 [a, b] = hexValue 0 [a, b] := by
      unfold fromStrRadix16
      split <;> simp_all
    rw [plain, hexValue_pair]
    constructor
    · rintro ⟨high, low, first, second, rfl⟩
      simp [first, second]
    · rintro ⟨first | first, second, rfl⟩
      · obtain ⟨high, first⟩ := Option.isSome_iff_exists.mp first
        obtain ⟨low, second⟩ := Option.isSome_iff_exists.mp second
        exact ⟨high, low, first, second, by simp [first, second]⟩
      · exact absurd first sign

theorem sliceBytes_zero (text : Text) : text.sliceBytes 0 = some ([], text) := by
  cases text <;> rfl

/-- The first two bytes of a text. -/
theorem sliceBytes_two {value pair rest : Text} (cut : value.sliceBytes 2 = some (pair, rest)) :
    (∃ c, c.utf8Size = 2 ∧ pair = [c] ∧ value = c :: rest) ∨
      ∃ a b, pair = [a, b] ∧ value = a :: b :: rest := by
  cases value with
  | nil => cases cut
  | cons a later =>
    have pos := Char.utf8Size_pos a
    rw [Text.sliceBytes] at cut
    split at cut
    · rename_i fits
      rcases (by omega : a.utf8Size = 2 ∨ a.utf8Size = 1) with two | one
      · rw [two, Nat.sub_self, sliceBytes_zero] at cut
        obtain ⟨rfl, rfl⟩ := Prod.mk.inj (Option.some.inj cut)
        exact .inl ⟨a, two, rfl, rfl⟩
      · rw [one] at cut
        cases later with
        | nil => cases cut
        | cons b later =>
          have pos := Char.utf8Size_pos b
          rw [show 1 + 1 - 1 = 0 + 1 from rfl, Text.sliceBytes] at cut
          split at cut
          · rename_i fits
            rw [show 0 + 1 - b.utf8Size = 0 by omega, sliceBytes_zero] at cut
            obtain ⟨rfl, rfl⟩ := Prod.mk.inj (Option.some.inj cut)
            exact .inr ⟨a, b, rfl, rfl⟩
          · cases cut
    · cases cut

theorem parsePair_ok_iff {value rest : Text} {byte : Nat} :
    parsePair value = .ok (byte, rest) ↔ ∃ a b, value = a :: b :: rest ∧
      (lowerHex a = true ∨ a = '+') ∧ lowerHex b = true ∧
        byte = (hexDigit a).getD 0 * 16 + (hexDigit b).getD 0 := by
  unfold parsePair
  constructor
  · intro ok
    cases cut : value.sliceBytes 2 with
    | none => simp [cut] at ok
    | some cut' =>
      obtain ⟨pair, left⟩ := cut'
      rw [cut] at ok
      dsimp only at ok
      split at ok
      · cases ok
      · rename_i lower
        cases read : fromStrRadix16 pair with
        | none => simp [read] at ok
        | some byte' =>
          rw [read] at ok
          obtain ⟨rfl, rfl⟩ := Prod.mk.inj (Except.ok.inj ok)
          rcases sliceBytes_two cut with ⟨c, two, rfl, rfl⟩ | ⟨a, b, rfl, rfl⟩
          · -- a character of two bytes is no digit
            rw [fromStrRadix16_singleton] at read
            have one := utf8Size_of_lt (lt_of_hexDigit read).1
            omega
          · obtain ⟨first, second, rfl⟩ := fromStrRadix16_pair.mp read
            simp only [List.any_cons, List.any_nil, Bool.or_false, Bool.or_eq_true, not_or,
              Bool.not_eq_true] at lower
            exact ⟨a, b, rfl, first.imp_left fun some => lowerHex_iff.mpr ⟨some, lower.1⟩,
              lowerHex_iff.mpr ⟨second, lower.2⟩, rfl⟩
  · rintro ⟨a, b, rfl, first, second, rfl⟩
    have one := utf8Size_of_first first
    have one' := utf8Size_of_lt (lt_of_lowerHex second)
    have cut : Text.sliceBytes 2 (a :: b :: rest) = some ([a, b], rest) := by
      simp [Text.sliceBytes, one, one']
    have lower : a.isUpper = false := by
      rcases first with lower | rfl
      · exact (lowerHex_iff.mp lower).2
      · decide
    obtain ⟨digit, lower'⟩ := lowerHex_iff.mp second
    have read := fromStrRadix16_pair.mpr
      ⟨first.imp_left fun low => (lowerHex_iff.mp low).1, digit, rfl⟩
    simp [cut, lower, lower', read]

theorem parsePairs_ok_iff {n : Nat} {value : Text} {bytes : Bytes} (whole : value.len = 2 * n) :
    parsePairs n value = .ok bytes ↔
      value.length = 2 * n ∧ Pairs value ∧ bytes = hexBytes value := by
  induction n generalizing value bytes with
  | zero =>
    obtain rfl : value = [] := by
      cases value with
      | nil => rfl
      | cons c rest =>
        have pos := Char.utf8Size_pos c
        rw [len_cons] at whole
        omega
    simp [parsePairs, Pairs, hexBytes, eq_comm]
  | succ n ih =>
    unfold parsePairs
    cases pair : parsePair value with
    | error cause =>
      simp only [reduceCtorEq, false_iff, not_and]
      intro long pairs
      match value, long, pairs with
      | a :: b :: rest, _, ⟨first, second, _⟩ =>
        have ok : parsePair (a :: b :: rest) = .ok (_, rest) :=
          parsePair_ok_iff.mpr ⟨a, b, rfl, first, second, rfl⟩
        cases pair.symm.trans ok
    | ok cut =>
      obtain ⟨byte, rest⟩ := cut
      obtain ⟨a, b, rfl, first, second, rfl⟩ := parsePair_ok_iff.mp pair
      rw [len_cons, len_cons, utf8Size_of_first first,
        utf8Size_of_lt (lt_of_lowerHex second)] at whole
      have later := @ih rest
      dsimp only
      cases tail : parsePairs n rest with
      | error cause =>
        simp only [tail, reduceCtorEq, false_iff, not_and] at later
        simp only [Except.map, reduceCtorEq, false_iff, not_and, List.length_cons]
        intro long pairs
        exact absurd rfl (later (by omega) (by omega) pairs.2.2)
      | ok bytes' =>
        have here := (later (by omega)).mp tail
        obtain ⟨long, pairs, rfl⟩ := here
        simp only [Except.map, Except.ok.injEq, List.length_cons, hexBytes, Pairs]
        constructor
        · rintro rfl
          exact ⟨by omega, ⟨first, second, pairs⟩, rfl⟩
        · rintro ⟨-, -, rfl⟩
          rfl

theorem len_of_pairs {value : Text} (pairs : Pairs value) : value.len = value.length := by
  match value, pairs with
  | [], _ => rfl
  | a :: b :: rest, ⟨first, second, later⟩ =>
    rw [len_cons, len_cons, len_of_pairs later, utf8Size_of_first first,
      utf8Size_of_lt (lt_of_lowerHex second), List.length_cons, List.length_cons]
    omega

theorem parseHex32_ok_iff {value : Text} {bytes : Bytes} :
    parseHex32 value = .ok bytes ↔
      (value.length = 64 ∧ Pairs value) ∧ bytes = hexBytes value := by
  unfold parseHex32
  split
  · rename_i whole
    rw [parsePairs_ok_iff (n := 32) whole, and_assoc]
  · rename_i other
    simp only [reduceCtorEq, false_iff, not_and]
    rintro ⟨long, pairs⟩
    exact absurd ((len_of_pairs pairs).trans long) other

/-- Without a sign, the pairs are hex digits. -/
theorem pairs_iff_of_unsigned {value : Text} (unsigned : '+' ∉ value)
    (even : value.length % 2 = 0) : Pairs value ↔ ∀ c ∈ value, lowerHex c = true := by
  match value with
  | [] => simp [Pairs]
  | [a] => simp at even
  | a :: b :: rest =>
    simp only [List.mem_cons, not_or] at unsigned
    have later := pairs_iff_of_unsigned unsigned.2.2
      (by rw [List.length_cons, List.length_cons] at even; omega)
    have notSign : a ≠ '+' := fun eq => unsigned.1 eq.symm
    simp [Pairs, later, notSign]

/-! ### A line -/

theorem dropPrefix?_append (lead rest : Text) : (lead ++ rest).dropPrefix? lead = some rest :=
  List.dropPrefix?_eq_some_iff.mpr ⟨lead, rfl, by simp⟩

/-- After a `roles=` field nothing follows. -/
theorem parseTrailing_some {fields : List Text} {roles : Roles} {result : Option Roles} :
    parseTrailing fields (some roles) = .ok result ↔ fields = [] ∧ result = some roles := by
  cases fields with
  | nil => simp [parseTrailing, eq_comm]
  | cons field rest =>
    simp only [parseTrailing, Option.isSome_some, if_true, List.cons_ne_nil, false_and, iff_false]
    split <;> exact nofun

theorem parseTrailing_ok_iff {fields : List Text} {result : Option Roles} :
    parseTrailing fields none = .ok result ↔ ∃ roles, (∀ names ∈ roles, names ≠ [] ∧
      Roles.Distinct names) ∧ fields = Row.trailing roles ∧ result = Row.listed roles := by
  constructor
  · intro ok
    cases fields with
    | nil =>
      obtain rfl := Except.ok.inj ok
      exact ⟨none, nofun, rfl, rfl⟩
    | cons field rest =>
      rw [parseTrailing] at ok
      cases cut : field.dropPrefix? "roles=".toList with
      | none =>
        rw [cut] at ok
        cases ok
      | some list =>
        rw [cut] at ok
        dsimp only at ok
        rw [if_neg (by simp)] at ok
        cases parsed : Roles.parseList list with
        | error cause =>
          rw [parsed] at ok
          cases ok
        | ok roles =>
          rw [parsed] at ok
          obtain ⟨rfl, rfl⟩ := parseTrailing_some.mp ok
          obtain ⟨lead, joined, same⟩ := List.dropPrefix?_eq_some_iff.mp cut
          obtain ⟨names, some, distinct, rfl, rfl⟩ := Roles.parseList_ok_iff.mp parsed
          refine ⟨.some names, ?_, ?_, rfl⟩
          · intro _ same
            exact Option.mem_some_iff.mp same ▸ ⟨some, distinct⟩
          · rw [joined, eq_of_beq same]
            rfl
  · rintro ⟨roles, good, rfl, rfl⟩
    cases roles with
    | none => rfl
    | some names =>
      obtain ⟨some, distinct⟩ := good names rfl
      have parsed := Roles.parseList_ok_iff.mpr ⟨names, some, distinct, rfl, rfl⟩
      simp only [Row.trailing, Option.map_some, Option.toList_some, parseTrailing,
        dropPrefix?_append, Option.isSome_none, parsed]
      rfl

theorem parseCredential_field (proof : Proof) :
    parseCredential proof.field =
      match proof with
      | .sha256 digits => parseProof "sha256".toList digits
      | .mtls subject => parseProof "mtls".toList subject := by
  cases proof with
  | sha256 digits =>
    have cut : splitOnce ':' (Proof.sha256 digits).field = some ("sha256".toList, digits) :=
      splitOnce_eq_some_iff.mpr ⟨by decide, rfl⟩
    rw [parseCredential, if_neg (by rintro ⟨⟩), cut]
  | mtls subject =>
    have cut : splitOnce ':' (Proof.mtls subject).field = some ("mtls".toList, subject) :=
      splitOnce_eq_some_iff.mpr ⟨by decide, rfl⟩
    rw [parseCredential, if_neg (by rintro ⟨⟩), cut]

theorem parseCredential_ok_iff {field : Text} {credential : Credential}
    (free : ∀ c ∈ field, isWhitespace c = false) :
    parseCredential field = .ok credential ↔
      ∃ proof : Proof, field = proof.field ∧ proof.Accepted ∧ credential = proof.credential := by
  constructor
  · intro ok
    unfold parseCredential at ok
    split at ok
    · cases ok
    · cases cut : splitOnce ':' field with
      | none =>
        rw [cut] at ok
        cases ok
      | some parts =>
        obtain ⟨algorithm, value⟩ := parts
        rw [cut] at ok
        obtain ⟨-, rfl⟩ := splitOnce_eq_some_iff.mp cut
        dsimp only [parseProof] at ok
        split at ok
        · rename_i sha
          cases parsed : parseHex32 value with
          | error cause =>
            rw [parsed] at ok
            cases ok
          | ok digest =>
            rw [parsed] at ok
            obtain ⟨accepted, rfl⟩ := parseHex32_ok_iff.mp parsed
            obtain rfl := Except.ok.inj ok
            exact ⟨.sha256 value, by rw [sha]; rfl, accepted, rfl⟩
        · split at ok
          · rename_i mtls
            split at ok
            · cases ok
            · rename_i some
              split at ok
              · cases ok
              · obtain rfl := Except.ok.inj ok
                exact ⟨.mtls value, by rw [mtls]; rfl, some, rfl⟩
          · split at ok
            · cases parsed : parseHex32 value with
              | error cause =>
                rw [parsed] at ok
                cases ok
              | ok digest =>
                rw [parsed] at ok
                cases ok
            · cases ok
  · rintro ⟨proof, rfl, accepted, rfl⟩
    rw [parseCredential_field]
    cases proof with
    | sha256 digits =>
      have parsed := parseHex32_ok_iff.mpr ⟨accepted, rfl⟩
      simp [parseProof, parsed, Except.map, Proof.credential]
    | mtls subject =>
      have unspaced : subject.any isWhitespace = false := by
        rw [List.any_eq_false]
        intro c mem
        simpa using free c (List.mem_append_right _ mem)
      have some : subject ≠ [] := accepted
      simp [parseProof, some, unspaced, Proof.credential]

theorem parseFields_ok_iff {fields : List Text} {table result : Credentials}
    (free : ∀ field ∈ fields, ∀ c ∈ field, isWhitespace c = false) :
    parseFields fields table = .ok result ↔ ∃ row : Row, fields = row.fields ∧ row.Accepted ∧
      table.get row.name.bytes = none ∧ result = table.put row.name.bytes row.credential := by
  constructor
  · intro ok
    match fields with
    | [] => cases ok
    | [_] => cases ok
    | name :: field :: trailing =>
      obtain ⟨roles, parsed, ok⟩ := bind_eq_ok_iff.mp ok
      obtain ⟨⟨⟩, valid, ok⟩ := bind_eq_ok_iff.mp ok
      obtain ⟨credential, proved, ok⟩ := bind_eq_ok_iff.mp ok
      obtain ⟨listed, distinct, rfl, rfl⟩ := parseTrailing_ok_iff.mp parsed
      obtain ⟨short, plain⟩ := validateName_ok_iff.mp valid
      obtain ⟨proof, rfl, accepted, rfl⟩ :=
        (parseCredential_ok_iff (free field (by simp))).mp proved
      split at ok
      · cases ok
      · rename_i fresh
        exact ⟨⟨name, proof, listed⟩, rfl, ⟨short, plain, accepted, distinct⟩,
          by simpa using fresh, (Except.ok.inj ok).symm⟩
  · rintro ⟨row, rfl, sound, fresh, rfl⟩
    have parsed := parseTrailing_ok_iff.mpr ⟨row.roles, sound.roles, rfl, rfl⟩
    have valid := validateName_ok_iff.mpr ⟨sound.short, sound.plain⟩
    have proved := (parseCredential_ok_iff (free row.proof.field (by simp [Row.fields]))).mpr
      ⟨row.proof, rfl, sound.proof, rfl⟩
    refine bind_eq_ok_iff.mpr ⟨_, parsed, bind_eq_ok_iff.mpr ⟨_, valid, ?_⟩⟩
    refine bind_eq_ok_iff.mpr ⟨_, proved, ?_⟩
    rw [if_neg (by simp [fresh])]
    rfl

/-! ### A file -/

/-- What `parse` skips is what is blank or a comment. -/
theorem skipped_iff (raw : Text) :
    ((trimEnds isWhitespace raw).isEmpty = true ∨ (trimEnds isWhitespace raw).head? = some '#') ↔
      ¬ (!blank raw && !comment raw) = true := by
  have empty : (trimEnds isWhitespace raw).isEmpty = true ↔ blank raw = true := by
    rw [List.isEmpty_iff, ← List.head?_eq_none_iff, head?_trimEnds, List.head?_eq_none_iff,
      List.dropWhile_eq_nil_iff, blank, List.all_eq_true]
  rw [empty, head?_trimEnds, comment]
  cases blank raw <;> simp

theorem Row.Accepted.ascii {row : Row} (accepted : row.Accepted) : ∀ c ∈ row.name, c.toNat < 128 :=
  fun c mem => lt_of_nameChar (accepted.plain c mem)

theorem parseLines_ok_iff {lines : List Text} {index : Nat} {table result : Credentials} :
    parseLines lines index table = .ok result ↔ ∃ rows : List Row,
      List.Forall₂ (fun line row => words isWhitespace line = row.fields)
        (lines.filter fun line => !blank line && !comment line) rows ∧
      (∀ row ∈ rows, row.Accepted) ∧ (rows.map Row.name).Nodup ∧
      (∀ row ∈ rows, table.get row.name.bytes = none) ∧ result = tableOf rows table := by
  induction lines generalizing index table with
  | nil =>
    constructor
    · intro ok
      obtain rfl := Except.ok.inj ok
      exact ⟨[], .nil, nofun, .nil, nofun, rfl⟩
    · rintro ⟨rows, lines, -, -, -, rfl⟩
      cases lines
      rfl
  | cons raw rest ih =>
    unfold parseLines
    dsimp only
    split
    · rename_i skipped
      rw [List.filter_cons_of_neg (by exact (skipped_iff raw).mp skipped)]
      exact ih
    · rename_i kept
      rw [skipped_iff, not_not] at kept
      rw [List.filter_cons_of_pos (by exact kept), parseLine, words_trimEnds]
      have free : ∀ field ∈ words isWhitespace raw, ∀ c ∈ field, isWhitespace c = false :=
        fun _ mem => of_mem_words mem
      constructor
      · intro ok
        cases parsed : parseFields (words isWhitespace raw) table with
        | error cause =>
          rw [parsed] at ok
          cases ok
        | ok after =>
          rw [parsed] at ok
          obtain ⟨row, fields, accepted, fresh, rfl⟩ := (parseFields_ok_iff free).mp parsed
          obtain ⟨rows, lines, all, distinct, absent, rfl⟩ := ih.mp ok
          have other : ∀ row' ∈ rows, row'.name.bytes ≠ row.name.bytes := by
            intro row' mem same
            have none := absent row' mem
            rw [same, Table.get_put_self] at none
            cases none
          refine ⟨row :: rows, .cons fields lines, List.forall_mem_cons.mpr ⟨accepted, all⟩,
            ?_, List.forall_mem_cons.mpr ⟨fresh, fun row' mem => ?_⟩, rfl⟩
          · refine List.nodup_cons.mpr ⟨fun again => ?_, distinct⟩
            obtain ⟨row', mem, same⟩ := List.mem_map.mp again
            exact other row' mem (congrArg Text.bytes same)
          · rw [← absent row' mem, Table.get_put_of_ne (other row' mem)]
      · rintro ⟨rows, lines, all, distinct, absent, rfl⟩
        cases lines with
        | @cons _ row _ rows fields lines =>
          obtain ⟨accepted, all⟩ := List.forall_mem_cons.mp all
          obtain ⟨fresh, absent⟩ := List.forall_mem_cons.mp absent
          obtain ⟨once, distinct⟩ := List.nodup_cons.mp distinct
          rw [(parseFields_ok_iff free).mpr ⟨row, fields, accepted, fresh, rfl⟩]
          refine ih.mpr ⟨rows, lines, all, distinct, fun row' mem => ?_, rfl⟩
          have other : row'.name.bytes ≠ row.name.bytes := by
            intro same
            have equal := bytes_inj (all row' mem).ascii accepted.ascii same
            exact once (List.mem_map.mpr ⟨row', mem, equal⟩)
          rw [Table.get_put_of_ne other, absent row' mem]

/-- The files that are accepted, and the table they come to. -/
theorem parse_ok_iff {text : Text} {table : Credentials} :
    parse text = .ok table ↔ ∃ rows, Written Row.Accepted text rows ∧ table = tableOf rows ∅ := by
  rw [parse, parseLines_ok_iff]
  constructor
  · rintro ⟨rows, lines, all, distinct, -, rfl⟩
    exact ⟨rows, ⟨lines, all, distinct⟩, rfl⟩
  · rintro ⟨rows, written, rfl⟩
    exact ⟨rows, written.lines, written.good, written.distinct, fun _ _ => Table.get_empty _, rfl⟩

theorem get_tableOf {rows : List Row} (distinct : (rows.map fun row => row.name.bytes).Nodup)
    (table : Credentials) (name : Bytes) (credential : Credential) :
    (tableOf rows table).get name = some credential ↔
      (∃ row ∈ rows, row.name.bytes = name ∧ row.credential = credential) ∨
        table.get name = some credential ∧ ∀ row ∈ rows, row.name.bytes ≠ name := by
  induction rows generalizing table with
  | nil => simp [tableOf]
  | cons row rest ih =>
    obtain ⟨once, distinct⟩ := List.nodup_cons.mp distinct
    rw [tableOf, List.foldl_cons, ← tableOf, ih distinct, Table.get_put]
    simp only [List.mem_cons, exists_eq_or_imp, forall_eq_or_imp]
    by_cases here : name = row.name.bytes
    · subst here
      have absent : ∀ row' ∈ rest, row'.name.bytes ≠ row.name.bytes :=
        fun row' mem same => once (List.mem_map.mpr ⟨row', mem, same⟩)
      have none : ¬ ∃ row' ∈ rest, row'.name.bytes = row.name.bytes ∧
          row'.credential = credential := fun ⟨row', mem, same, _⟩ => absent row' mem same
      simpa [none] using fun _ => absent
    · have other : row.name.bytes ≠ name := fun same => here same.symm
      simp [here, other]

theorem Written.bytes_nodup {text : Text} {rows : List Row}
    (written : Written Row.Accepted text rows) : (rows.map fun row => row.name.bytes).Nodup := by
  have each := List.inj_on_of_nodup_map written.distinct
  have whole : (rows.map Row.name).map Text.bytes = rows.map fun row => row.name.bytes := by
    simp [Function.comp_def]
  rw [← whole]
  refine written.distinct.map_on ?_
  intro a mem b mem' same
  obtain ⟨row, here, rfl⟩ := List.mem_map.mp mem
  obtain ⟨row', here', rfl⟩ := List.mem_map.mp mem'
  exact bytes_inj (written.good row here).ascii (written.good row' here').ascii same

/-- The authority of a row: what it lists, or the default. -/
def Row.authority (row : Row) (default : Roles) : Roles := (Row.listed row.roles).getD default

/-- A table grants a secret what the row of the name asks it for. -/
theorem verify_rows {text : Text} {rows : List Row} (written : Written Row.Accepted text rows)
    (sha256 : Bytes → Bytes) (default : Roles) (name secret : Bytes) (identity : Identity) :
    verify sha256 (resolveDefaults (tableOf rows ∅) default).1 name secret = some identity ↔
      ∃ row ∈ rows, ∃ digits, row.proof = .sha256 digits ∧ row.name.bytes = name ∧
        hexBytes digits = sha256 secret ∧ identity = ⟨name, row.authority default⟩ := by
  have stored := get_tableOf written.bytes_nodup ∅ name
  simp only [Table.get_empty, reduceCtorEq, false_and, or_false] at stored
  rw [verify, resolveDefaults, Table.get_mapValues]
  constructor
  · intro some
    obtain ⟨credential, found, granted⟩ := Option.bind_eq_some_iff.mp some
    obtain ⟨credential, got, rfl⟩ := Option.map_eq_some_iff.mp found
    obtain ⟨row, mem, named, rfl⟩ := (stored credential).mp got
    refine ⟨row, mem, ?_⟩
    cases proof : row.proof with
    | sha256 digits =>
      refine ⟨digits, rfl, named, ?_⟩
      cases roles : row.roles <;>
        simp_all [Row.credential, Row.authority, Row.listed, Credential.grant, Proof.credential]
    | mtls subject =>
      cases roles : row.roles <;>
        simp_all [Row.credential, Row.listed, Credential.grant, Proof.credential]
  · rintro ⟨row, mem, digits, proof, rfl, digest, rfl⟩
    rw [(stored row.credential).mpr ⟨row, mem, rfl, rfl⟩]
    cases roles : row.roles <;>
      simp [Row.credential, Row.authority, Row.listed, Credential.grant, Proof.credential, proof,
        roles, digest]

/-! ### Where a file is read as it is written -/

/-- A digest with a sign in it. -/
def Row.Signed (row : Row) : Prop := ∃ digits, row.proof = .sha256 digits ∧ '+' ∈ digits

/-- What the file says: it is accepted just when it is well-formed rows under distinct names,
and a secret is then granted what its row says. -/
structure Exact (sha256 : Bytes → Bytes) (text : Text) : Prop where
  accepted : (∃ table, parse text = .ok table) ↔ ∃ rows, Written Row.WellFormed text rows
  verified : ∀ table rows, parse text = .ok table → Written Row.WellFormed text rows →
    ∀ default name secret,
      (∀ identity, verify sha256 (resolveDefaults table default).1 name secret = some identity ↔
        ∃ row ∈ rows, ∃ digits, row.proof = .sha256 digits ∧ row.name.bytes = name ∧
          hexBytes digits = sha256 secret ∧ identity = ⟨name, row.authority default⟩) ∧
      ∀ row ∈ rows, ∀ subject, row.proof = .mtls subject →
        verify sha256 (resolveDefaults table default).1 row.name.bytes secret = none

theorem lowerHex_ne_sign {c : Char} (lower : lowerHex c = true) : c ≠ '+' := by
  rintro rfl
  exact absurd lower (by decide)

theorem Proof.WellFormed.accepted {proof : Proof} (sound : proof.WellFormed) : proof.Accepted := by
  cases proof with
  | sha256 digits =>
    refine ⟨sound.1, (pairs_iff_of_unsigned ?_ ?_).mpr sound.2⟩
    · exact fun sign => lowerHex_ne_sign (sound.2 _ sign) rfl
    · rw [sound.1]
  | mtls subject => exact sound

theorem Written.mono {good good' : Row → Prop} {text : Text} {rows : List Row}
    (written : Written good text rows) (weaker : ∀ row ∈ rows, good row → good' row) :
    Written good' text rows :=
  ⟨written.lines, fun row mem => weaker row mem (written.good row mem), written.distinct⟩

theorem Written.accepted {text : Text} {rows : List Row}
    (written : Written Row.WellFormed text rows) : Written Row.Accepted text rows :=
  written.mono fun _ _ sound => { sound with proof := sound.proof.accepted }

/-- A field that begins as a digest is one. -/
theorem Proof.eq_sha256 {proof : Proof} {value : Text}
    (same : proof.field = "sha256:".toList ++ value) : proof = .sha256 value := by
  cases proof with
  | sha256 digits =>
    rw [field_sha256] at same
    exact congrArg _ (List.append_cancel_left same)
  | mtls subject =>
    rw [field_mtls] at same
    have first := congrArg List.head? same
    have m : "mtls:".toList.head? = some 'm' := by decide
    have s : "sha256:".toList.head? = some 's' := by decide
    rw [List.head?_append, List.head?_append, m, s] at first
    exact absurd (Option.some.inj first) (by decide)

/-- A file with a sign in a digest is no file of well-formed rows. -/
theorem Written.not_wellFormed {good : Row → Prop} {text : Text} {rows rows' : List Row}
    (written : Written good text rows) {row : Row} (mem : row ∈ rows) (signed : row.Signed) :
    ¬ Written Row.WellFormed text rows' := by
  intro sound
  obtain ⟨digits, proof, sign⟩ := signed
  -- the rows of one line have the same fields
  obtain ⟨i, inside, rfl⟩ := List.mem_iff_getElem.mp mem
  have line := written.lines.length_eq.symm ▸ inside
  have inside' := sound.lines.length_eq ▸ line
  have fields := (written.lines.get line inside).symm.trans (sound.lines.get line inside')
  have second : rows'[i].proof.field = "sha256:".toList ++ digits := by
    rw [← Proof.field_sha256, ← proof]
    exact (List.cons.inj (List.cons.inj fields).2).1.symm
  have lower := (sound.good _ (List.getElem_mem inside')).proof
  rw [Proof.eq_sha256 second] at lower
  exact lowerHex_ne_sign (lower.2 _ sign) rfl

/-- Without a sign, the accepted rows are well-formed. -/
theorem Written.wellFormed {text : Text} {rows : List Row}
    (written : Written Row.Accepted text rows) (unsigned : ∀ row ∈ rows, ¬ row.Signed) :
    Written Row.WellFormed text rows := by
  refine written.mono fun row mem accepted => { accepted with proof := ?_ }
  have proved := accepted.proof
  cases proof : row.proof with
  | sha256 digits =>
    rw [proof] at proved
    have plain : '+' ∉ digits := fun sign => unsigned row mem ⟨digits, proof, sign⟩
    exact ⟨proved.1, (pairs_iff_of_unsigned plain (by rw [proved.1])).mp proved.2⟩
  | mtls subject =>
    rw [proof] at proved
    exact proved

/-- The credentials are what the file says, save for a file of accepted rows with a sign in
one of its digests. -/
theorem credentials_exact_iff (sha256 : Bytes → Bytes) (text : Text) :
    Exact sha256 text ↔
      ∀ rows, Written Row.Accepted text rows → ∀ row ∈ rows, ¬ row.Signed := by
  constructor
  · intro exact rows written row mem signed
    obtain ⟨rows', sound⟩ := exact.accepted.mp ⟨_, parse_ok_iff.mpr ⟨rows, written, rfl⟩⟩
    exact written.not_wellFormed mem signed sound
  · intro unsigned
    refine ⟨⟨?_, ?_⟩, ?_⟩
    · rintro ⟨table, parsed⟩
      obtain ⟨rows, written, rfl⟩ := parse_ok_iff.mp parsed
      exact ⟨rows, written.wellFormed (unsigned rows written)⟩
    · rintro ⟨rows, written⟩
      exact ⟨_, parse_ok_iff.mpr ⟨rows, written.accepted, rfl⟩⟩
    · intro table rows parsed written default name secret
      have same := parse_ok_iff.mpr ⟨rows, written.accepted, rfl⟩
      obtain rfl := Except.ok.inj (parsed.symm.trans same)
      have identities := verify_rows written.accepted sha256 default
      refine ⟨identities name secret, fun row mem subject proof => ?_⟩
      rw [Option.eq_none_iff_forall_ne_some]
      intro identity granted
      obtain ⟨row', mem', digits, proof', named, -⟩ := (identities _ _ _).mp granted
      -- the name is that of one row only
      have same := List.inj_on_of_nodup_map written.accepted.bytes_nodup mem' mem named
      rw [same, proof] at proof'
      cases proof'

/-- One row, whose digest is 32 pairs of a sign and a digit. -/
def signedFile : Text := "app sha256:".toList ++ (List.replicate 32 "+a".toList).flatten

/-- The row it is read as. -/
def signedRow : Row := ⟨"app".toList, .sha256 (signedFile.drop 11), none⟩

/-- The file is accepted, and a secret whose digest is those bytes is granted everything, though
no well-formed row says so. -/
theorem signed_digest_accepted :
    parse signedFile = .ok (tableOf [signedRow] ∅) ∧
      verify (fun _ => List.replicate 32 0x0a)
        (resolveDefaults (tableOf [signedRow] ∅) Roles.unrestricted).1 signedRow.name.bytes [] =
          some ⟨signedRow.name.bytes, Roles.unrestricted⟩ ∧
      (∀ rows, ¬ Written Row.WellFormed signedFile rows) ∧ ∀ sha256, ¬ Exact sha256 signedFile := by
  have parsed : parse signedFile = .ok (tableOf [signedRow] ∅) := by decide +kernel
  -- whatever rows are taken for the file, their second field is the signed one
  have none : ∀ rows, ¬ Written Row.WellFormed signedFile rows := by
    have lines : Written (fun _ => True) signedFile [signedRow] :=
      ⟨.cons (by decide +kernel) .nil, fun _ _ => trivial, by simp⟩
    exact fun rows => lines.not_wellFormed List.mem_cons_self ⟨_, rfl, by decide +kernel⟩
  refine ⟨parsed, by decide +kernel, none, fun sha256 exact => ?_⟩
  obtain ⟨rows, written⟩ := exact.accepted.mp ⟨_, parsed⟩
  exact none rows written

end Credentials

end Vash.Server
