import Bsh.Client.Text
import Bsh.Library.Program

/-!
# The client's socket

The globals of `brightlink.c`, the operating system as a parameter, and the functions that send a
request and read the answer.  System calls are taken after the retries on `EINTR`, and memory
allocation does not fail.
-/

namespace Bsh.Client

open Bsh.Library Bytes

/-! ## State -/

/-- The module's globals. -/
structure Globals where
  sessionActive : Bool
  sockfd : Option ℕ
  sessionId : Bytes
  sessionKey : Bytes
  sessionIdSet : Bool
  sessionKeySet : Bool
  cShellToAgent : UInt64
  cAgentToShell : UInt64
  pinnedSepPub : Bytes
  pinnedSepPubSet : Bool

/-- The globals before the first command. -/
def Globals.initial : Globals where
  sessionActive := false
  sockfd := none
  sessionId := List.replicate 16 0
  sessionKey := List.replicate 32 0
  sessionIdSet := false
  sessionKeySet := false
  cShellToAgent := 0
  cAgentToShell := 0
  pinnedSepPub := List.replicate 65 0
  pinnedSepPubSet := false

/-- The result of reading one byte. -/
inductive ReadResult where
  | error
  | eof
  | byte (c : UInt8)

/-- What the client calls outside of itself, on a world `W`. -/
structure Host (W : Type) where
  /-- Find the bridge's socket, `socket` and `connect`. -/
  connect : W → Option ℕ × W
  close : ℕ → W → W
  /-- `write`: the number of bytes taken, or `none` for `-1`. -/
  write : ℕ → Bytes → W → Option ℕ × W
  read : ℕ → W → ReadResult × W
  /-- `RAND_bytes`. -/
  random : ℕ → W → Option Bytes × W
  /-- `time(NULL)`. -/
  time : W → ℕ × W

/-- The client and the world around it. -/
structure Machine (W : Type) where
  globals : Globals
  world : W

/-- A client function; an error carries `*errmsg`, unless that is left alone. -/
abbrev LinkProgram (W : Type) (α : Type) : Type := Program (Machine W) (Option Bytes) α

variable {W : Type}

/-- A call into the world. -/
def call {α : Type} (f : W → α × W) : LinkProgram W α :=
  Program.ofStep fun s ↦ ((f s.world).1, { s with world := (f s.world).2 })

/-- A change of the globals. -/
def update (f : Globals → Globals) : LinkProgram W Unit :=
  Program.modify fun s ↦ { s with globals := f s.globals }

def readGlobals : LinkProgram W Globals := Program.read Machine.globals

/-! ## Connection -/

/-- `link_socket_connect`. -/
def linkSocketConnect (host : Host W) : LinkProgram W ℕ := do
  let globals ← readGlobals
  match globals.sockfd with
  | some fd => return fd
  | none =>
    match ← call host.connect with
    | none => Program.fail none
    | some fd =>
      update fun globals ↦ { globals with sockfd := some fd }
      return fd

/-- `link_socket_close`. -/
def linkSocketClose (host : Host W) : LinkProgram W Unit := do
  let globals ← readGlobals
  match globals.sockfd with
  | none => return ()
  | some fd =>
    call fun w ↦ ((), host.close fd w)
    update fun globals ↦ { globals with sockfd := none }

/-! ## Writing and reading -/

/-- `link_write_all`.  Every turn of the loop takes at least one byte, so that the length of the
buffer bounds the number of turns. -/
def linkWriteAll (host : Host W) (fd : ℕ) : ℕ → Bytes → W → Bool × W
  | _, [], w => (true, w)
  | 0, _ :: _, w => (false, w)
  | turns + 1, c :: rest, w =>
    match host.write fd (c :: rest) w with
    | (none, w) => (false, w)
    | (some 0, w) => (false, w)
    | (some (n + 1), w) => linkWriteAll host fd turns (rest.drop n) w

/-- The variables of the loop of `link_read_until_brace`. -/
structure BraceState where
  depth : ℤ
  inString : Bool
  escaped : Bool
  seenOpen : Bool
  deriving DecidableEq

def BraceState.start : BraceState := ⟨0, false, false, false⟩

/-- One byte; the second component says whether the message ends here. -/
def braceStep (state : BraceState) (c : UInt8) : BraceState × Bool :=
  if state.escaped then ({ state with escaped := false }, false)
  else if state.inString then
    if c = 0x5C then ({ state with escaped := true }, false)
    else if c = 0x22 then ({ state with inString := false }, false)
    else (state, false)
  else if c = 0x22 then ({ state with inString := true }, false)
  else if c = 0x7B then ({ state with depth := state.depth + 1, seenOpen := true }, false)
  else if c = 0x7D then
    ({ state with depth := state.depth - 1 }, state.seenOpen && state.depth - 1 == 0)
  else (state, false)

/-- `link_read_until_brace` with room for `room` more bytes: the message, or `none` for an error,
an end of file or a full buffer. -/
def linkReadUntilBrace (host : Host W) (fd : ℕ) : ℕ → BraceState → W → Option Bytes × W
  | 0, _, w => (none, w)
  | room + 1, state, w =>
    match host.read fd w with
    | (.error, w) => (none, w)
    | (.eof, w) => (none, w)
    | (.byte c, w) =>
      match braceStep state c with
      | (_, true) => (some [c], w)
      | (state, false) =>
        match linkReadUntilBrace host fd room state w with
        | (none, w) => (none, w)
        | (some message, w) => (some (c :: message), w)

/-- The room for a message in a buffer of 16 KiB. -/
def linkReadRoom : ℕ := 16 * 1024 - 1

/-- `link_send_request`: one request, one answer.  Every failure closes the socket. -/
def linkSendRequest (host : Host W) (json : Bytes) : LinkProgram W Bytes := do
  let fd ← linkSocketConnect host
  if ← call (linkWriteAll host fd json.length json) then
    match ← call (linkReadUntilBrace host fd linkReadRoom .start) with
    | some message => return cString message
    | none =>
      linkSocketClose host
      Program.fail none
  else
    linkSocketClose host
    Program.fail none

/-- A request whose failure has a message of its own. -/
def requestOr (message : String) (host : Host W) (json : Bytes) : LinkProgram W Bytes := fun s ↦
  match linkSendRequest host json s with
  | (.ok response, s) => (.ok response, s)
  | (.error _, s) => (.error (some (ascii message)), s)

end Bsh.Client
