import Vash.Proto.Resp

/-!
# The Redis dialect: replies

`vash_proto::resp::encode`: the bytes each writer appends. The two versions of the
protocol differ in nulls, doubles, maps and verbatim strings only.
-/

namespace Vash.Resp.Encode

/-- The end of a line. -/
def crlf : Bytes := [13, 10]

/-- `VERSION`. -/
def version : String := "7.4.0-vash"

def simple (text : Bytes) : Bytes := 43 :: text ++ crlf

/-- `OK`. -/
def ok : Bytes := simple (ascii "OK")

def error (code message : Bytes) : Bytes := 45 :: code ++ 32 :: message ++ crlf

/-- Two lower-case hexadecimal digits. -/
def hexDigits (b : UInt8) : Bytes :=
  [b / 16, b % 16].map fun d => if d < 10 then 48 + d else 87 + d

/-- `escape`: a line cannot be broken by a name that came off the wire. -/
def escape (name : Bytes) : Bytes :=
  (name.take 128).flatMap fun b =>
    if b = 13 then ascii "\\r"
    else if b = 10 then ascii "\\n"
    else if b = 39 ∨ b = 92 then [92, b]
    else if 32 ≤ b ∧ b ≤ 126 then [b]
    else ascii "\\x" ++ hexDigits b

/-- `error_reply`. -/
def errorReply : ErrorReply → Bytes
  | .unknownCommand name =>
    ascii "-ERR unknown command '" ++ escape name ++ ascii "'" ++ crlf
  | .wrongArity name => error (ascii "ERR")
    (ascii "wrong number of arguments for '" ++ ascii name ++ ascii "' command")
  | .invalidExpire name => error (ascii "ERR")
    (ascii "invalid expire time in '" ++ ascii name ++ ascii "' command")
  | .unknownSubcommand container sub =>
    ascii "-ERR unknown subcommand '" ++ escape sub ++ ascii "'. Try " ++ ascii container ++
      ascii " HELP." ++ crlf
  | .err message => error (ascii "ERR") (ascii message)
  | .coded code message => error (ascii code) (ascii message)

/-- `protocol_error`. -/
def protocolError (detail : String) : Bytes :=
  error (ascii "ERR") (ascii "Protocol error: " ++ ascii detail)

def integer (value : Int) : Bytes := 58 :: decimalInt value ++ crlf

def bulk (bytes : Bytes) : Bytes := 36 :: decimal bytes.length ++ crlf ++ bytes ++ crlf

def null : Version → Bytes
  | .resp2 => ascii "$-1" ++ crlf
  | .resp3 => ascii "_" ++ crlf

def array (len : Nat) : Bytes := 42 :: decimal len ++ crlf

def map (len : Nat) : Bytes := 37 :: decimal len ++ crlf

def double (floats : FloatOps) (value : F64) : Version → Bytes
  | .resp2 => bulk (formatFloat floats value)
  | .resp3 => 44 :: formatFloat floats value ++ crlf

def verbatim (text : Bytes) : Version → Bytes
  | .resp2 => bulk text
  | .resp3 => 61 :: decimal (text.length + 4) ++ crlf ++ ascii "txt:" ++ text ++ crlf

/-- `hello`. -/
def hello (v : Version) : Bytes :=
  (match v with
    | .resp2 => array 14
    | .resp3 => map 7) ++
  bulk (ascii "server") ++ bulk (ascii "redis") ++
  bulk (ascii "version") ++ bulk (ascii version) ++
  bulk (ascii "proto") ++ integer (match v with | .resp2 => 2 | .resp3 => 3) ++
  bulk (ascii "id") ++ integer 0 ++
  bulk (ascii "mode") ++ bulk (ascii "standalone") ++
  bulk (ascii "role") ++ bulk (ascii "master") ++
  bulk (ascii "modules") ++ array 0

/-- A request as clients send it: an array of bulk strings. -/
def multibulk (args : List Bytes) : Bytes := array args.length ++ args.flatMap bulk

end Vash.Resp.Encode
