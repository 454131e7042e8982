import Bsh.Library.JsonGrammar
import Bsh.Client.Transport

/-!
# Reading one answer

`link_read_until_brace` finds the end of a JSON object without parsing it.  Outside of strings its
depth is the number of open objects, so that it comes to zero at the last brace of the text and not
earlier.  What follows the text stays in the stream for the next answer.
-/

namespace Bsh.Client

open Bsh.Library Bytes JsonGrammar List

/-! ## The loop over a text -/

/-- The state after a text, if the message does not end in it. -/
def braceScan : BraceState → Bytes → Option BraceState
  | state, [] => some state
  | state, c :: rest =>
    match braceStep state c with
    | (_, true) => none
    | (state, false) => braceScan state rest

/-- The state outside of strings, behind an opening brace. -/
def BraceState.outside (depth : ℤ) : BraceState := ⟨depth, false, false, true⟩

/-- The state in a string. -/
def BraceState.inside (depth : ℤ) : BraceState := ⟨depth, true, false, true⟩

theorem braceScan_append {a b : Bytes} {s t : BraceState} (h : braceScan s a = some t) :
    braceScan s (a ++ b) = braceScan t b := by
  induction a generalizing s with
  | nil =>
    obtain rfl : s = t := by simpa [braceScan] using h
    rfl
  | cons c a ih =>
    rw [cons_append, braceScan]
    rw [braceScan] at h
    split
    · next hstep =>
      rw [hstep] at h
      exact absurd h (by simp)
    · next state hstep =>
      rw [hstep] at h
      exact ih h

theorem braceScan_cons {s t : BraceState} {c : UInt8} (h : braceStep s c = (t, false))
    (rest : Bytes) : braceScan s (c :: rest) = braceScan t rest := by
  rw [braceScan, h]

/-- A text that leaves the state outside of strings as it is. -/
def Balanced (text : Bytes) : Prop :=
  ∀ depth : ℤ, 0 < depth → braceScan (.outside depth) text = some (.outside depth)

theorem Balanced.append {a b : Bytes} (ha : Balanced a) (hb : Balanced b) : Balanced (a ++ b) := by
  intro depth hdepth
  rw [braceScan_append (ha depth hdepth), hb depth hdepth]

theorem balanced_of_inert {text : Bytes} (h : ∀ c ∈ text, Inert c) : Balanced text := by
  intro depth hdepth
  induction text with
  | nil => rfl
  | cons c text ih =>
    obtain ⟨hquote, -, hopen, hclose, -⟩ := h c mem_cons_self
    have hstep : braceStep (.outside depth) c = (.outside depth, false) := by
      simp [braceStep, BraceState.outside, hquote, hopen, hclose]
    rw [braceScan_cons hstep]
    exact ih fun d hd ↦ h d (mem_cons_of_mem c hd)

theorem Balanced.cons {c : UInt8} {text : Bytes} (hc : Inert c) (h : Balanced text) :
    Balanced (c :: text) := by
  have hsingle : Balanced [c] := balanced_of_inert (by simpa using hc)
  exact hsingle.append h

/-! ## Strings -/

theorem braceStep_inside {depth : ℤ} {c : UInt8} (hquote : c ≠ 0x22) (hbackslash : c ≠ 0x5C) :
    braceStep (.inside depth) c = (.inside depth, false) := by
  simp [braceStep, BraceState.inside, hquote, hbackslash]

theorem braceScan_hexDigits {depth : ℤ} {digits rest : Bytes} (h : ∀ c ∈ digits, IsHexDigit c) :
    braceScan (.inside depth) (digits ++ rest) = braceScan (.inside depth) rest := by
  induction digits with
  | nil => rfl
  | cons c digits ih =>
    obtain ⟨hquote, hbackslash, -⟩ := (h c mem_cons_self).inert
    rw [cons_append, braceScan_cons (braceStep_inside hquote hbackslash)]
    exact ih fun d hd ↦ h d (mem_cons_of_mem c hd)

theorem braceScan_escape (depth : ℤ) (c : UInt8) (rest : Bytes) :
    braceScan (.inside depth) (0x5C :: c :: rest) = braceScan (.inside depth) rest := by
  have hback : braceStep (.inside depth) 0x5C = (⟨depth, true, true, true⟩, false) := rfl
  have hnext : braceStep ⟨depth, true, true, true⟩ c = (.inside depth, false) := rfl
  rw [braceScan_cons hback, braceScan_cons hnext]

theorem braceScan_body {body : Bytes} (h : StringBody body) (depth : ℤ) :
    braceScan (.inside depth) body = some (.inside depth) := by
  induction h with
  | nil => rfl
  | unescaped _ hquote hbackslash _ ih =>
    rw [braceScan_cons (braceStep_inside hquote hbackslash)]
    exact ih
  | escape _ _ ih =>
    exact ih
  | unicode _ hdigits _ ih =>
    rw [braceScan_escape, braceScan_hexDigits hdigits]
    exact ih

theorem balanced_quoted {body : Bytes} (h : StringBody body) : Balanced (quoted body) := by
  intro depth _
  have hopen : braceStep (.outside depth) quote = (.inside depth, false) := rfl
  have hclose : braceScan (.inside depth) [quote] = some (.outside depth) := rfl
  rw [quoted, cons_append, braceScan_cons hopen, braceScan_append (braceScan_body h depth),
    hclose]

/-! ## Values -/

/-- An object inside of another one comes back to the depth that it began at. -/
theorem balanced_braces {text : Bytes} (h : Balanced text) : Balanced (0x7B :: text ++ [0x7D]) := by
  intro depth hdepth
  have hopen : braceStep (.outside depth) 0x7B = (.outside (depth + 1), false) := rfl
  have hclose : braceScan (.outside (depth + 1)) [0x7D] = some (.outside depth) := by
    have hne : (depth == 0) = false := by
      rw [beq_eq_false_iff_ne]
      omega
    simp [braceScan, braceStep, BraceState.outside, hne]
  rw [cons_append, braceScan_cons hopen, braceScan_append (h _ (by omega)), hclose]

theorem balanced_comma {a b : Bytes} (ha : Balanced a) (hb : Balanced b) :
    Balanced (a ++ 0x2C :: b) :=
  ha.append (hb.cons (by decide))

theorem balanced_brackets {text : Bytes} (h : Balanced text) :
    Balanced (0x5B :: text ++ [0x5D]) := by
  have hclose : Balanced [0x5D] := balanced_of_inert (by decide)
  exact (h.cons (by decide)).append hclose

theorem balanced_blanks {text : Bytes} (h : Blanks text) : Balanced text :=
  balanced_of_inert h.inert

theorem balanced_text {p : Production} {text : Bytes} (h : Text p text) : Balanced text := by
  induction h with
  | scalar h => exact balanced_of_inert h.inert
  | string h => exact balanced_quoted h
  | ofObject _ ih => exact ih
  | ofArray _ ih => exact ih
  | emptyObject h => exact balanced_braces (balanced_blanks h)
  | object _ ih => exact balanced_braces ih
  | emptyArray h => exact balanced_brackets (balanced_blanks h)
  | array _ ih => exact balanced_brackets ih
  | member hbefore hkey hmiddle hafter _ hbehind ih =>
    have hhead := ((balanced_blanks hbefore).append (balanced_quoted hkey)).append
      (balanced_blanks hmiddle)
    have htail := ((balanced_blanks hafter).append ih).append (balanced_blanks hbehind)
    exact hhead.append (htail.cons (by decide))
  | nextMember _ _ ih ihrest => exact balanced_comma ih ihrest
  | element hbefore _ hbehind ih =>
    exact ((balanced_blanks hbefore).append ih).append (balanced_blanks hbehind)
  | nextElement _ _ ih ihrest => exact balanced_comma ih ihrest

/-- The text of an object: braces with a balanced text between them. -/
theorem exists_balanced_of_object {text : Bytes} (h : Text .object text) :
    ∃ inner, text = 0x7B :: inner ++ [0x7D] ∧ Balanced inner := by
  cases h with
  | emptyObject h => exact ⟨_, rfl, balanced_blanks h⟩
  | object h => exact ⟨_, rfl, balanced_text h⟩

/-! ## Streams -/

variable {W : Type} (host : Host W) (fd : ℕ)

/-- Reading from the descriptor gives these bytes, one after the other. -/
inductive Delivers : W → Bytes → W → Prop
  | nil (w : W) : Delivers w [] w
  | cons {w v u : W} {c : UInt8} {rest : Bytes} (h : host.read fd w = (.byte c, v))
      (hrest : Delivers v rest u) : Delivers w (c :: rest) u

variable {host fd}

theorem Delivers.append_iff {a b : Bytes} {w u : W} :
    Delivers host fd w (a ++ b) u ↔ ∃ v, Delivers host fd w a v ∧ Delivers host fd v b u := by
  induction a generalizing w with
  | nil =>
    constructor
    · exact fun h ↦ ⟨w, .nil w, h⟩
    · rintro ⟨v, ⟨⟩, h⟩
      exact h
  | cons c a ih =>
    constructor
    · rintro (_ | ⟨hread, hrest⟩)
      obtain ⟨v, hv, hb⟩ := ih.mp hrest
      exact ⟨v, .cons hread hv, hb⟩
    · rintro ⟨v, _ | ⟨hread, hrest⟩, hb⟩
      exact .cons hread (ih.mpr ⟨v, hrest, hb⟩)

theorem linkReadUntilBrace_scan {text rest : Bytes} {s t : BraceState} {room : ℕ} {w v u : W}
    (hscan : braceScan s text = some t) (hw : Delivers host fd w text v)
    (hrest : linkReadUntilBrace host fd room t v = (some rest, u)) :
    linkReadUntilBrace host fd (text.length + room) s w = (some (text ++ rest), u) := by
  induction text generalizing s w with
  | nil =>
    obtain rfl : s = t := by simpa [braceScan] using hscan
    cases hw
    simpa using hrest
  | cons c text ih =>
    obtain _ | ⟨hread, hw⟩ := hw
    rw [braceScan] at hscan
    have hroom : (c :: text).length + room = text.length + room + 1 := by
      rw [length_cons]
      omega
    rw [hroom, linkReadUntilBrace, hread]
    rcases hstep : braceStep s c with ⟨state, closed⟩
    rw [hstep] at hscan
    cases closed with
    | true => exact absurd hscan (by simp)
    | false =>
      have hbehind := ih hscan hw
      simp only [hstep, hbehind, cons_append]

theorem linkReadUntilBrace_object {text : Bytes} (h : Text .object text) {room : ℕ} {w u : W}
    (hroom : text.length ≤ room) (hw : Delivers host fd w text u) :
    linkReadUntilBrace host fd room .start w = (some text, u) := by
  obtain ⟨inner, rfl, hinner⟩ := exists_balanced_of_object h
  obtain ⟨v, hbegin, hend⟩ := Delivers.append_iff.mp hw
  have hscan : braceScan .start (0x7B :: inner) = some (.outside 1) := by
    have hopen : braceStep .start 0x7B = (.outside 1, false) := rfl
    rw [braceScan_cons hopen, hinner 1 Int.one_pos]
  obtain ⟨left, rfl⟩ : ∃ left, room = (0x7B :: inner).length + (left + 1) := by
    rw [length_append, length_singleton] at hroom
    exact ⟨room - ((0x7B :: inner).length + 1), by omega⟩
  have hlast : linkReadUntilBrace host fd (left + 1) (.outside 1) v = (some [0x7D], u) := by
    obtain _ | ⟨hread, ⟨⟩⟩ := hend
    have hstep : braceStep (.outside 1) 0x7D = (⟨0, false, false, true⟩, true) := rfl
    rw [linkReadUntilBrace, hread]
    simp only
    rw [hstep]
  exact linkReadUntilBrace_scan hscan hbegin hlast

/-- Bytes that arrive in chunks are read one by one. -/
def readChunk : List Bytes → ReadResult × List Bytes
  | [] => (.eof, [])
  | [] :: chunks => readChunk chunks
  | (c :: chunk) :: chunks => (.byte c, chunk :: chunks)

/-- The descriptor reads from a stream; `chunks` are the chunks in which its bytes arrive. -/
def ReadsChunks (host : Host W) (fd : ℕ) (chunks : W → List Bytes) : Prop :=
  ∀ w, (host.read fd w).1 = (readChunk (chunks w)).1 ∧
    chunks (host.read fd w).2 = (readChunk (chunks w)).2

theorem readChunk_of_flatten {chunks : List Bytes} {c : UInt8} {rest : Bytes}
    (h : chunks.flatten = c :: rest) :
    (readChunk chunks).1 = .byte c ∧ (readChunk chunks).2.flatten = rest := by
  induction chunks with
  | nil => exact absurd h (by simp)
  | cons chunk chunks ih =>
    cases chunk with
    | nil => exact ih h
    | cons d chunk =>
      obtain ⟨rfl, hrest⟩ := List.cons.inj h
      exact ⟨rfl, hrest⟩

/-- However the bytes are chunked, they are delivered in their order. -/
theorem ReadsChunks.delivers {chunks : W → List Bytes} (h : ReadsChunks host fd chunks)
    {text rest : Bytes} {w : W} (hw : (chunks w).flatten = text ++ rest) :
    ∃ u, Delivers host fd w text u ∧ (chunks u).flatten = rest := by
  induction text generalizing w with
  | nil => exact ⟨w, .nil w, hw⟩
  | cons c text ih =>
    obtain ⟨hbyte, hleft⟩ := readChunk_of_flatten hw
    obtain ⟨hread, hchunks⟩ := h w
    rw [← hchunks] at hleft
    obtain ⟨u, hu, hrest⟩ := ih hleft
    refine ⟨u, .cons ?_ hu, hrest⟩
    rw [← hbyte, ← hread]

/-! ## Requests -/

/-- Requests on one connection and the objects in the stream of answers: behind each request, the
stream goes on with its object. -/
inductive Conversation (host : Host W) (fd : ℕ) : W → List Bytes → List Bytes → W → Prop
  | nil (w : W) : Conversation host fd w [] [] w
  | cons {w v t u : W} {json text : Bytes} {requests objects : List Bytes}
      (hwrite : linkWriteAll host fd json.length json w = (true, v)) (hobject : Text .object text)
      (hlength : text.length ≤ linkReadRoom) (hread : Delivers host fd v text t)
      (hrest : Conversation host fd t requests objects u) :
      Conversation host fd w (json :: requests) (text :: objects) u

/-- One request after the other. -/
def linkSendRequests (host : Host W) : List Bytes → LinkProgram W (List Bytes)
  | [] => return []
  | json :: requests => do
    let response ← linkSendRequest host json
    let responses ← linkSendRequests host requests
    return response :: responses

theorem linkSocketConnect_connected {s : Machine W} (h : s.globals.sockfd = some fd) :
    linkSocketConnect host s = (.ok fd, s) := by
  have hglobals : (readGlobals : LinkProgram W Globals) s = (.ok s.globals, s) := rfl
  rw [linkSocketConnect, Program.bind_ok hglobals]
  simp only [h]
  rfl

theorem linkSendRequest_object {json text : Bytes} {s : Machine W} {v u : W}
    (hconnected : s.globals.sockfd = some fd)
    (hwrite : linkWriteAll host fd json.length json s.world = (true, v))
    (hobject : Text .object text) (hlength : text.length ≤ linkReadRoom)
    (hread : Delivers host fd v text u) :
    linkSendRequest host json s = (.ok text, { s with world := u }) := by
  have hsent : call (linkWriteAll host fd json.length json) s =
      ((.ok true, { s with world := v }) : Except (Option Bytes) Bool × Machine W) := by
    rw [call, Program.ofStep, hwrite]
  have hanswer : call (linkReadUntilBrace host fd linkReadRoom .start) { s with world := v } =
      ((.ok (some text), { s with world := u }) :
        Except (Option Bytes) (Option Bytes) × Machine W) := by
    rw [call, Program.ofStep, linkReadUntilBrace_object hobject hlength hread]
  rw [linkSendRequest, Program.bind_ok (linkSocketConnect_connected hconnected),
    Program.bind_ok hsent, if_pos rfl, Program.bind_ok hanswer]
  simp only [Program.pure_apply, cString_eq_self hobject.ne_zero]

theorem linkSendRequests_conversation {requests objects : List Bytes} {s : Machine W} {u : W}
    (hconnected : s.globals.sockfd = some fd)
    (h : Conversation host fd s.world requests objects u) :
    linkSendRequests host requests s = (.ok objects, { s with world := u }) := by
  obtain ⟨globals, w⟩ := s
  change Conversation host fd w requests objects u at h
  induction h with
  | nil w => rfl
  | cons hwrite hobject hlength hread _ ih =>
    rw [linkSendRequests, Program.bind_ok (linkSendRequest_object hconnected hwrite hobject hlength
      hread), Program.bind_ok (ih hconnected)]
    rfl

/-- An object is read as it was sent and nothing behind it is touched, for every way to chunk the
stream; hence requests and answers do not get out of step. -/
theorem linkReadUntilBrace_exact {chunks : W → List Bytes} (h : ReadsChunks host fd chunks) :
    (∀ (text rest : Bytes) (cap : ℕ) (w : W), Text .object text → text.length ≤ cap - 1 →
      (chunks w).flatten = text ++ rest →
      ∃ u, linkReadUntilBrace host fd (cap - 1) .start w = (some text, u) ∧
        (chunks u).flatten = rest) ∧
    ∀ (requests objects : List Bytes) (s : Machine W) (u : W), s.globals.sockfd = some fd →
      Conversation host fd s.world requests objects u →
      linkSendRequests host requests s = (.ok objects, { s with world := u }) := by
  refine ⟨?_, fun _ _ _ _ ↦ linkSendRequests_conversation⟩
  intro text rest cap w hobject hlength hw
  obtain ⟨u, hread, hrest⟩ := h.delivers hw
  exact ⟨u, linkReadUntilBrace_object hobject hlength hread, hrest⟩

/-- A peer that has sent its chunks before the first request. -/
def chunkHost : Host (List Bytes) where
  connect w := (some 3, w)
  close _ w := w
  write _ text w := (some text.length, w)
  read _ w := readChunk w
  random n w := (some (List.replicate n 0), w)
  time w := (0, w)

theorem linkReadUntilBrace_exact_chunks :
    (∃ u, linkReadUntilBrace chunkHost 3 (4096 - 1) .start
        [ascii "\x7b\"a\": ", ascii "\"\\\"\x7d\"\x7d", ascii "\x7b\x7d"] =
          (some (ascii "\x7b\"a\": \"\\\"\x7d\"\x7d"), u) ∧ u.flatten = ascii "\x7b\x7d") ∧
    linkSendRequests chunkHost [ascii "x", ascii "y"]
        ⟨{ Globals.initial with sockfd := some 3 },
          [ascii "\x7b\"a\": ", ascii "\"\\\"\x7d\"\x7d", ascii "\x7b\x7d"]⟩ =
      (.ok [ascii "\x7b\"a\": \"\\\"\x7d\"\x7d", ascii "\x7b\x7d"],
        ⟨{ Globals.initial with sockfd := some 3 }, [[]]⟩) := by
  have hobject : Text .object (ascii "\x7b\"a\": \"\\\"\x7d\"\x7d") := by
    have hkey : StringBody (ascii "a") := .unescaped (by decide) (by decide) (by decide) .nil
    have hvalue : StringBody (ascii "\\\"\x7d") :=
      .escape (by decide) (.unescaped (by decide) (by decide) (by decide) .nil)
    have hblank : Blanks (ascii " ") := by decide
    have hnone : Blanks [] := by decide
    exact .object (.member hnone hkey hnone hblank (.string hvalue) hnone)
  have hempty : Text .object (ascii "\x7b\x7d") := .emptyObject (t := []) (by decide)
  have hreads : ReadsChunks chunkHost 3 id := fun w ↦ ⟨rfl, rfl⟩
  obtain ⟨hone, hall⟩ := linkReadUntilBrace_exact hreads
  refine ⟨hone _ (ascii "\x7b\x7d") 4096 _ hobject (by decide) (by decide), hall _ _ _ [[]] rfl ?_⟩
  have hfirst : Delivers chunkHost 3 [ascii "\x7b\"a\": ", ascii "\"\\\"\x7d\"\x7d", ascii "\x7b\x7d"]
      (ascii "\x7b\"a\": \"\\\"\x7d\"\x7d") [[], ascii "\x7b\x7d"] := by
    repeat' first | exact .nil _ | refine .cons rfl ?_
  have hsecond : Delivers chunkHost 3 [[], ascii "\x7b\x7d"] (ascii "\x7b\x7d") [[]] := by
    repeat' first | exact .nil _ | refine .cons rfl ?_
  exact .cons rfl hobject (by decide) hfirst (.cons rfl hempty (by decide) hsecond (.nil _))

end Bsh.Client
