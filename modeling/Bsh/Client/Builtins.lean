import Bsh.Client.Register
import Bsh.Client.Text

/-!
# The builtins

`bsh-inject` and `link-geo` with their exit status, and the module's `finish_`.  What they print is
left out.
-/

namespace Bsh.Client

open Bsh.Library Bsh.BrightLink Bytes

variable {W : Type} (P : Primitives) (host : Host W)

/-! ## Delivery -/

/-- The error message for an answer that contains `"error"`. -/
def rejectionMessage (response : Bytes) : Bytes :=
  let copied := match fieldBuffer response (ascii "error") 256 with
    | .ok text => text
    | .error text => text
  if cString copied = [] then ascii "LINK_DELIVER rejected" else cString copied

/-- The answer contains the word `"error"`. -/
def isErrorResponse (response : Bytes) : Bool := (strstr (quoted (ascii "error")) response).isSome

/-- `link_emit_deliver`. -/
def linkEmitDeliver (counter : UInt64) (type context plaintext : Bytes) : LinkProgram W Unit := do
  let globals ← readGlobals
  Program.check (some (ascii "session not registered"))
    (globals.sessionKeySet && globals.sessionIdSet)
  let aad ← Program.require (some (ascii "AAD build failed")) (deliverAad counter type context)
  let iv ← randBytes host (some (ascii "RNG failed")) linkGcmIvLength
  let (ct, tag) ← Program.require (some (ascii "AES-GCM encrypt failed"))
    (P.gcmSeal globals.sessionKey iv aad plaintext)
  let response ← requestOr "LINK_DELIVER transport failed" host
    (deliverRequest counter type context iv ct tag)
  if isErrorResponse response then Program.fail (some (rejectionMessage response))
  else return ()

/-- `link_read_stdin`: a body that fills the buffer of 64 KiB is refused. -/
def linkReadStdin (stdin : Option Bytes) : Option Bytes :=
  match stdin with
  | none => none
  | some body => if body.length < 64 * 1024 then some body else none

/-- The argument loop of `bin_bsh_inject`: type and context, as far as given. -/
def injectArguments (type context : Option Bytes) : List Bytes → Option (Option Bytes × Option Bytes)
  | [] => some (type, context)
  | [_] => none
  | a :: value :: rest =>
    if a = ascii "--type" then injectArguments (some value) context rest
    else if a = ascii "--context" then injectArguments type (some value) rest
    else none

/-- The part of `bin_bsh_inject` behind the checks of its arguments: register, deliver, and roll
the counter back if the delivery fails. -/
def injectBody (double : ℚ → ℚ) (type context body : Bytes) (s : Machine W) : ℕ × Machine W :=
  match linkRegisterIfNeeded P host double s with
  | (.error _, s) => (1, s)
  | (.ok (), s) =>
    let counter := s.globals.cShellToAgent + 1
    let s := { s with globals := { s.globals with cShellToAgent := counter } }
    match linkEmitDeliver P host counter type context body s with
    | (.error _, s) =>
      (1, { s with globals :=
        { s.globals with cShellToAgent := s.globals.cShellToAgent - 1 } })
    | (.ok (), s) => (0, s)

/-- `bin_bsh_inject`. -/
def binBshInject (double : ℚ → ℚ) (argv : List Bytes) (stdin : Option Bytes) (s : Machine W) :
    ℕ × Machine W :=
  match injectArguments none none argv with
  | some (some type, some context) =>
    match linkReadStdin stdin with
    | none => (1, s)
    | some body => injectBody P host double type context body s
  | _ => (1, s)

/-! ## `link-geo` -/

/-- `link_geo_handle_response`, its exit status. -/
def linkGeoHandleResponse (response : Bytes) : ℕ := if isErrorResponse response then 1 else 0

/-- The last value of a flag that is followed by a value. -/
def lastFlag (flag : Bytes) (value : Bytes) : List Bytes → Bytes
  | [] => value
  | [_] => value
  | a :: next :: rest =>
    if a = flag then lastFlag flag next rest else lastFlag flag value (next :: rest)

/-- `strtol` that has to read the whole argument. -/
def wholeNumber (text : Bytes) : Option ℤ :=
  let (_, rest) := readCSign (text.dropWhile isCSpace)
  if rest.all isDigitByte then strtoll text else none

/-- The timeout of `link-geo refresh`: each value has to be in range, the last one counts. -/
def refreshTimeout (timeout : ℕ) : List Bytes → Option ℕ
  | [] => some timeout
  | [_] => some timeout
  | a :: next :: rest =>
    if a = ascii "--timeout" then
      match wholeNumber next with
      | none => none
      | some v => if v < 1 ∨ 300 < v then none else refreshTimeout v.toNat rest
    else refreshTimeout timeout (next :: rest)

/-- What `link-geo` does with its arguments. -/
inductive GeoAction where
  | refuse
  | send (request : Bytes)
  /-- Without an argument left, `strcmp` gets a null pointer. -/
  | nullPointer
  deriving DecidableEq

/-- The dispatch of `bin_link_geo` on the arguments without `--json`. -/
def geoAction : List Bytes → GeoAction
  | [] => .nullPointer
  | sub :: rest =>
    if sub = ascii "status" then .send (commandRequest "LINK_GEO_STATUS")
    else if sub = ascii "proximity" then
      match rest with
      | [] => .refuse
      | zone :: _ =>
        if 256 < zone.length then .refuse
        else
          -- The zone id is printed as it is.
          .send (Json.objectBytes [(ascii "cmd", quoted (ascii "LINK_GEO_PROXIMITY")),
            (ascii "zone", quoted zone)])
    else if sub = ascii "zone" then .send (commandRequest "LINK_GEO_ZONE")
    else if sub = ascii "get" then
      let format := lastFlag (ascii "--format") (ascii "wgs84") rest
      if format = ascii "wgs84" ∨ format = ascii "brightspace" ∨ format = ascii "both" then
        .send (Json.objectBytes [(ascii "cmd", quoted (ascii "LINK_GEO_GET")),
          (ascii "format", quoted format)])
      else .refuse
    else if sub = ascii "refresh" then
      match refreshTimeout 30 rest with
      | none => .refuse
      | some timeout =>
        .send (Json.objectBytes [(ascii "cmd", quoted (ascii "LINK_GEO_REFRESH")),
          (ascii "timeout_seconds", Decimal.decimal timeout)])
    else .refuse

/-- `bin_link_geo`; `--json` is stripped wherever it appears.  The status is `none` where the code
has none. -/
def binLinkGeo (argv : List Bytes) (s : Machine W) : Option ℕ × Machine W :=
  match argv with
  | [] => (some 1, s)
  | _ =>
    match geoAction (argv.filter (· ≠ ascii "--json")) with
    | .refuse => (some 1, s)
    | .nullPointer => (none, s)
    | .send request =>
      match linkSendRequest host request s with
      | (.error _, s) => (some 1, s)
      | (.ok response, s) => (some (linkGeoHandleResponse response), s)

/-! ## Unloading -/

/-- `finish_`. -/
def finish (s : Machine W) : Machine W :=
  let s := (linkSocketClose host s).2
  { s with globals :=
    { s.globals with
      sessionKey := List.replicate 32 0
      sessionId := List.replicate 16 0
      sessionActive := false
      sessionKeySet := false
      sessionIdSet := false } }

/-- A call of the module. -/
inductive ClientCommand where
  | bshInject (argv : List Bytes) (stdin : Option Bytes)
  | linkGeo (argv : List Bytes)
  | finish

/-- The state after a call. -/
def runCommand (double : ℚ → ℚ) (s : Machine W) : ClientCommand → Machine W
  | .bshInject argv stdin => (binBshInject P host double argv stdin s).2
  | .linkGeo argv => (binLinkGeo host argv s).2
  | .finish => finish host s

end Bsh.Client
