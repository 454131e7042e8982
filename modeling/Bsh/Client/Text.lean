import Bsh.BrightLink.Crypto
import Bsh.Library.Base64
import Bsh.Library.Decimal
import Bsh.Library.ObjectText

/-!
# The client's JSON and base64 helpers

`brightlink.c` parses the bridge's answers without a JSON parser: it searches for a quoted key and
reads the value behind the colon.  A text is a C string, that is, a byte string without NUL.
-/

namespace Bsh.Client

open Bsh.Library Bytes

/-! ## Base64 -/

/-- `link_b64decode`, into a buffer of `dstCap` bytes. -/
def linkB64decode (src : Bytes) (dstCap : ℕ) : Option Bytes :=
  let last : ℕ := if src[src.length - 1]? = some Base64.pad then 1 else 0
  let second : ℕ := if 2 ≤ src.length ∧ src[src.length - 2]? = some Base64.pad then 1 else 0
  let pad := last + second
  let preTrim := src.length * 3 / 4
  if preTrim < pad then none
  else
    let real := preTrim - pad
    if dstCap < real then none
    else
      match Base64.evpDecodeBlock src with
      | none => none
      | some scratch => if scratch.length = preTrim then some (scratch.take real) else none

/-! ## Fields of a JSON text -/

def isJsonBlank (c : UInt8) : Bool := c == 0x20 || c == 0x09 || c == 0x0A || c == 0x0D

/-- `link_json_locate`: the text from the value of a key on.  The quoted key has to fit into
`needle`. -/
def linkJsonLocate (json key : Bytes) : Option Bytes :=
  if 256 ≤ key.length + 2 then none
  else
    match strstr (quoted key) json with
    | none => none
    | some found =>
      match (found.drop (key.length + 2)).dropWhile isJsonBlank with
      | [] => none
      | c :: rest => if c = 0x3A then some (rest.dropWhile isJsonBlank) else none

/-- `isspace`. -/
def isCSpace (c : UInt8) : Bool := c == 0x20 || (0x09 ≤ c && c ≤ 0x0D)

/-- The value of a hexadecimal digit. -/
def hexValue (c : UInt8) : Option ℕ :=
  if 0x30 ≤ c ∧ c ≤ 0x39 then some (c.toNat - 0x30)
  else if 0x61 ≤ c ∧ c ≤ 0x66 then some (c.toNat - 0x61 + 10)
  else if 0x41 ≤ c ∧ c ≤ 0x46 then some (c.toNat - 0x41 + 10)
  else none

/-- An optional sign. -/
def readCSign : Bytes → Bool × Bytes
  | [] => (false, [])
  | c :: rest => if c = 0x2D then (true, rest) else if c = 0x2B then (false, rest)
    else (false, c :: rest)

/-- The hexadecimal digits at the head of a text, as a number. -/
def leadingHex (text : Bytes) : ℕ :=
  (text.map hexValue).takeWhile Option.isSome |>.foldl (fun v d ↦ v * 16 + d.getD 0) 0

/-- `sscanf(hex, "%x", &cp)` on a four-character string. -/
def scanHex (text : Bytes) : Option ℕ :=
  let (negative, digits) := readCSign (text.dropWhile isCSpace)
  let value : Option ℕ :=
    match digits with
    | [] => none
    | [c] => (hexValue c).map fun _ ↦ leadingHex digits
    | c :: x :: rest =>
      -- After the prefix `0x` there need not be a digit.
      if c = 0x30 ∧ (x = 0x78 ∨ x = 0x58) then some (leadingHex rest)
      else (hexValue c).map fun _ ↦ leadingHex digits
  value.map fun v ↦ if negative then (2 ^ 32 - v) % 2 ^ 32 else v

/-- Where the reading loop of `link_json_field_str` stands. -/
inductive FieldState where
  | plain
  | escape
  | hex (digits : Bytes)

/-- The byte that a two-character escape stands for. -/
def unescapeByte (c : UInt8) : UInt8 :=
  if c = 0x6E then 0x0A else if c = 0x72 then 0x0D else if c = 0x74 then 0x09 else c

/-- The byte that `\u` and four characters stand for. -/
def unicodeByte (cp : ℕ) : UInt8 := if cp < 0x80 then UInt8.ofNat cp else 0x3F

/-- The loop of `link_json_field_str`; `out` is in reverse.  A failure leaves what was copied. -/
def readField (outCap : ℕ) : FieldState → Bytes → Bytes → Except Bytes Bytes
  | _, out, [] => .error out.reverse
  | .plain, out, c :: rest =>
    if c = 0x22 then .ok out.reverse
    else if c = 0x5C then readField outCap .escape out rest
    else if outCap ≤ out.length + 1 then .error out.reverse
    else readField outCap .plain (c :: out) rest
  | .escape, out, c :: rest =>
    if c = 0x75 then readField outCap (.hex []) out rest
    else if outCap ≤ out.length + 1 then .error out.reverse
    else readField outCap .plain (unescapeByte c :: out) rest
  | .hex digits, out, c :: rest =>
    if digits.length < 3 then readField outCap (.hex (digits ++ [c])) out rest
    else
      match scanHex (digits ++ [c]) with
      | none => .error out.reverse
      | some cp =>
        if outCap ≤ out.length + 1 then .error out.reverse
        else readField outCap .plain (unicodeByte cp :: out) rest

/-- What `link_json_field_str` copies into a buffer of `outCap` bytes, and whether it succeeds. -/
def fieldBuffer (json key : Bytes) (outCap : ℕ) : Except Bytes Bytes :=
  match linkJsonLocate json key with
  | some (c :: rest) => if c = 0x22 then readField outCap .plain [] rest else .error []
  | _ => .error []

/-- `link_json_field_str`. -/
def linkJsonFieldStr (json key : Bytes) (outCap : ℕ) : Option Bytes :=
  match fieldBuffer json key outCap with
  | .ok text => some text
  | .error _ => none

def isDigitByte (c : UInt8) : Bool := 0x30 ≤ c && c ≤ 0x39

/-- `strtoll(p, &endp, 10)`, with `none` if there is no digit. -/
def strtoll (text : Bytes) : Option ℤ :=
  let (negative, rest) := readCSign (text.dropWhile isCSpace)
  let digits := rest.takeWhile isDigitByte
  if digits = [] then none
  else
    let magnitude : ℤ := Decimal.digitsValue (digits.map UInt8.toNat)
    some (max (-(2 ^ 63)) (min (2 ^ 63 - 1) (if negative then -magnitude else magnitude)))

/-- `link_json_field_int`. -/
def linkJsonFieldInt (json key : Bytes) : Option ℤ :=
  match linkJsonLocate json key with
  | none => none
  | some value => strtoll value

/-- `link_json_field_b64`. -/
def linkJsonFieldB64 (json key : Bytes) (outCap : ℕ) : Option Bytes :=
  match linkJsonFieldStr json key 4096 with
  | none => none
  | some tmp => linkB64decode (cString tmp) outCap

end Bsh.Client

/-!
# The text of a `LINK_DELIVER` request

`link_emit_deliver` authenticates the type and the context of a packet byte by byte and sends them
as JSON strings, in which it escapes every byte that is not printable ASCII as one code unit.  This
module models the two encodings.
-/

namespace Bsh.Client

open Bsh.Library Bsh.BrightLink Bytes

/-- `link_le32`. -/
def linkLe32 (v : ℕ) : Bytes := littleEndian 4 v

/-- `link_be64`. -/
def linkBe64 (v : UInt64) : Bytes := bigEndian 8 v.toNat

/-- `link_build_deliver_aad`, into a buffer of `aadCap` bytes. -/
def linkBuildDeliverAad (dirTag : UInt8) (counter type context : Bytes) (aadCap : ℕ) :
    Option Bytes :=
  let need := 4 + 1 + 4 + counter.length + 4 + type.length + 4 + context.length
  if aadCap < need then none
  else
    some (linkLe32 1 ++ [dirTag] ++ linkLe32 counter.length ++ counter ++
      linkLe32 type.length ++ type ++ linkLe32 context.length ++ context)

/-- A digit of `%x`. -/
def hexDigitByte (d : ℕ) : UInt8 := UInt8.ofNat (if d < 10 then 0x30 + d else 0x61 + (d - 10))

/-- One step of the escaping loop. -/
def escapeByte (c : UInt8) : Bytes :=
  if c = 0x22 ∨ c = 0x5C then [0x5C, c]
  else if 0x20 ≤ c ∧ c < 0x7F then [c]
  else [0x5C, 0x75, 0x30, 0x30, hexDigitByte (c.toNat / 16), hexDigitByte (c.toNat % 16)]

/-- The loop that escapes `type` and `context`. -/
def escapeText (text : Bytes) : Bytes := text.flatMap escapeByte

/-- What `link_emit_deliver` sends. -/
def deliverRequest (counter : UInt64) (type context iv ciphertext tag : Bytes) : Bytes :=
  Json.objectBytes
    [(ascii "cmd", quoted (ascii "LINK_DELIVER")),
      (ascii "counter", Decimal.decimal counter.toNat),
      (ascii "type", quoted (escapeText type)),
      (ascii "context", quoted (escapeText context)),
      (ascii "iv", quoted (Base64.encode iv)),
      (ascii "ciphertext", quoted (Base64.encode ciphertext)),
      (ascii "authTag", quoted (Base64.encode tag))]

/-- The additional data of a packet, in the buffer of `link_emit_deliver`. -/
def deliverAad (counter : UInt64) (type context : Bytes) : Option Bytes :=
  linkBuildDeliverAad 0x01 (linkBe64 counter) type context 2048

end Bsh.Client
