import Bsh.Client.Builtins
import Bsh.Library.JsonGrammar
import Bsh.Library.Run

/-!
# Flat JSON objects

Objects whose members are strings, numbers and literal names, printed with blanks anywhere.  The
strings escape nothing but quotes, backslashes and slashes.
-/

namespace Bsh.Client

open Bsh.Library Bytes JsonGrammar List

/-- A text between quotes and the string it spells. -/
inductive Spells : Bytes → Bytes → Prop
  | nil : Spells [] []
  | plain {c : UInt8} {body text : Bytes} (hquote : c ≠ 0x22) (hbackslash : c ≠ 0x5C)
      (hrest : Spells body text) : Spells (c :: body) (c :: text)
  | escape {c : UInt8} {body text : Bytes} (hc : c = 0x22 ∨ c = 0x5C ∨ c = 0x2F)
      (hrest : Spells body text) : Spells (0x5C :: c :: body) (c :: text)

/-- The value of a member. -/
inductive FlatValue where
  | string (body text : Bytes) (hbody : StringBody body) (htext : Spells body text)
  | scalar (text : Bytes) (h : Scalar text)

def FlatValue.print : FlatValue → Bytes
  | string body _ _ _ => quoted body
  | scalar text _ => text

/-- A member: its key and value with the blanks around them. -/
structure FlatMember where
  before : Bytes
  key : Bytes
  middle : Bytes
  after : Bytes
  value : FlatValue
  behind : Bytes
  /-- What the key spells. -/
  name : Bytes
  blanks : Blanks before ∧ Blanks middle ∧ Blanks after ∧ Blanks behind
  key_body : StringBody key
  key_name : Spells key name

namespace FlatMember

def print (m : FlatMember) : Bytes :=
  memberText m.before m.key m.middle m.after m.value.print m.behind

/-- The same member with another string. -/
def withString (m : FlatMember) (body text : Bytes) (hbody : StringBody body)
    (htext : Spells body text) : FlatMember :=
  { m with value := .string body text hbody htext }

/-- Members with commas between them. -/
def printAll : List FlatMember → Bytes
  | [] => []
  | [m] => m.print
  | m :: next :: rest => m.print ++ 0x2C :: printAll (next :: rest)

/-- The members before a member, each with its comma. -/
def printBefore (pre : List FlatMember) : Bytes := pre.flatMap fun m ↦ m.print ++ [0x2C]

/-- The members behind a member, each with its comma. -/
def printBehind (post : List FlatMember) : Bytes := post.flatMap fun m ↦ 0x2C :: m.print

theorem printAll_cons (m : FlatMember) (post : List FlatMember) :
    printAll (m :: post) = m.print ++ printBehind post := by
  induction post generalizing m with
  | nil => exact (append_nil _).symm
  | cons next post ih =>
    rw [printAll, ih]
    rfl

theorem printAll_append (pre : List FlatMember) (m : FlatMember) (post : List FlatMember) :
    printAll (pre ++ m :: post) = printBefore pre ++ m.print ++ printBehind post := by
  induction pre with
  | nil => exact printAll_cons m post
  | cons first pre ih =>
    have hsplit : printAll (first :: pre ++ m :: post) =
        first.print ++ 0x2C :: printAll (pre ++ m :: post) := by
      cases pre <;> rfl
    have hbefore : printBefore (first :: pre) = (first.print ++ [0x2C]) ++ printBefore pre := rfl
    rw [hsplit, ih, hbefore]
    simp

end FlatMember

/-- The text of an object; an empty one may have blanks between its braces. -/
def flatText (blank : Bytes) (members : List FlatMember) : Bytes :=
  0x7B :: (if members = [] then blank else FlatMember.printAll members) ++ [0x7D]

/-! ## Flat objects are JSON objects -/

/-! ## Spelling -/

namespace Spells

variable {body text : Bytes}

theorem length_le (h : Spells body text) : text.length ≤ body.length := by
  induction h with
  | nil => exact Nat.le_refl _
  | plain _ _ _ ih => exact Nat.succ_le_succ ih
  | escape _ _ ih => exact Nat.succ_le_succ (Nat.le_succ_of_le ih)

theorem quoteFree (h : Spells body text) (heq : body.length = text.length) : QuoteFree body := by
  induction h with
  | nil => exact fun b hb ↦ absurd hb not_mem_nil
  | @plain c body text hquote _ _ ih =>
    intro b hb
    rcases List.mem_cons.mp hb with rfl | hb
    · exact hquote
    · exact ih (Nat.succ.inj heq) b hb
  | @escape c body text _ hrest _ =>
    have hle := hrest.length_le
    rw [length_cons, length_cons, length_cons] at heq
    omega

theorem count_quote (h : Spells body text) : body.count quote = text.count quote := by
  induction h with
  | nil => rfl
  | plain _ _ _ ih => rw [count_cons, count_cons, ih]
  | escape _ _ ih =>
    have hback : ((0x5C : UInt8) == quote) = false := by decide
    rw [count_cons, count_cons, count_cons, ih, hback]
    rfl

theorem of_forall (h : ∀ c ∈ body, c ≠ 0x22 ∧ c ≠ 0x5C) : Spells body body := by
  induction body with
  | nil => exact .nil
  | cons c body ih =>
    obtain ⟨hquote, hbackslash⟩ := h c mem_cons_self
    exact .plain hquote hbackslash (ih fun d hd ↦ h d (mem_cons_of_mem c hd))

theorem eq_replicate {c : UInt8} (hc : c ≠ 0x22 ∧ c ≠ 0x5C ∧ c ≠ 0x2F) {n : ℕ}
    (h : Spells body (List.replicate n c)) : body = List.replicate n c := by
  induction n generalizing body with
  | zero =>
    cases h
    rfl
  | succ n ih =>
    cases h with
    | plain _ _ hrest => rw [replicate_succ, ih hrest]
    | escape he _ => exact absurd he (by simp [hc])

end Spells

/-! ## Steps through a text -/

/-- A text that can be read from left to right, an escape at a time. -/
inductive Steps : Bytes → Prop
  | nil : Steps []
  | plain {c : UInt8} {rest : Bytes} (hbackslash : c ≠ 0x5C) (hrest : Steps rest) :
      Steps (c :: rest)
  | escape {c : UInt8} {rest : Bytes} (hc : c = 0x22 ∨ c = 0x5C ∨ c = 0x2F) (hrest : Steps rest) :
      Steps (0x5C :: c :: rest)

namespace Steps

theorem append {a b : Bytes} (ha : Steps a) (hb : Steps b) : Steps (a ++ b) := by
  induction ha with
  | nil => exact hb
  | plain hbackslash _ ih => exact .plain hbackslash ih
  | escape hc _ ih => exact .escape hc ih

theorem of_forall {text : Bytes} (h : ∀ c ∈ text, c ≠ 0x5C) : Steps text := by
  induction text with
  | nil => exact .nil
  | cons c text ih =>
    exact .plain (h c mem_cons_self) (ih fun d hd ↦ h d (mem_cons_of_mem c hd))

theorem of_inert {text : Bytes} (h : ∀ c ∈ text, Inert c) : Steps text :=
  of_forall fun c hc ↦ (h c hc).2.1

/-- A quote is the end of a step. -/
theorem behind_quote {a b : Bytes} (h : Steps (a ++ quote :: b)) : Steps b := by
  generalize ht : a ++ quote :: b = t at h
  induction h generalizing a with
  | nil => exact absurd ht (by simp)
  | plain _ hrest ih =>
    cases a with
    | nil => exact (List.cons.inj ht).2 ▸ hrest
    | cons x a => exact ih (List.cons.inj ht).2
  | escape _ hrest ih =>
    cases a with
    | nil => exact absurd (List.cons.inj ht).1 (by decide)
    | cons x a =>
      cases a with
      | nil => exact (List.cons.inj (List.cons.inj ht).2).2 ▸ hrest
      | cons y a => exact ih (List.cons.inj (List.cons.inj ht).2).2

end Steps

theorem Spells.steps {body text : Bytes} (h : Spells body text) : Steps body := by
  induction h with
  | nil => exact .nil
  | plain _ hbackslash _ ih => exact .plain hbackslash ih
  | escape hc _ ih => exact .escape hc ih

theorem Spells.steps_quoted {body text : Bytes} (h : Spells body text) : Steps (quoted body) := by
  have hclose : Steps [quote] := .plain (by decide) .nil
  exact Steps.plain (by decide) (h.steps.append hclose)

theorem FlatValue.steps (v : FlatValue) : Steps v.print := by
  cases v with
  | string body text hbody htext => exact htext.steps_quoted
  | scalar text h => exact .of_inert h.inert

theorem FlatMember.steps (m : FlatMember) : Steps m.print := by
  obtain ⟨hbefore, hmiddle, hafter, hbehind⟩ := m.blanks
  have hhead := ((Steps.of_inert hbefore.inert).append m.key_name.steps_quoted).append
    (.of_inert hmiddle.inert)
  have htail := ((Steps.of_inert hafter.inert).append m.value.steps).append
    (.of_inert hbehind.inert)
  exact hhead.append (.plain (by decide) htail)

theorem steps_printAll (members : List FlatMember) : Steps (FlatMember.printAll members) := by
  induction members using FlatMember.printAll.induct with
  | case1 => exact .nil
  | case2 m => exact m.steps
  | case3 m next rest ih => exact m.steps.append (.plain (by decide) ih)

theorem steps_flatText {blank : Bytes} (hblank : Blanks blank) (members : List FlatMember) :
    Steps (flatText blank members) := by
  have hclose : Steps [0x7D] := .plain (by decide) .nil
  rw [flatText]
  split
  · exact .plain (by decide) ((Steps.of_inert hblank.inert).append hclose)
  · exact .plain (by decide) ((steps_printAll members).append hclose)

end Bsh.Client

/-!
# What a registration leaves alone

`link_register_if_needed` has many early exits, all of them driven by the bridge's answers.  None
of them touches the session, the counters or the pinned key: everything before the commit changes
the socket only.  The pinned key is set by the first commit and compared before every later one, so
that no answer of any bridge changes it.
-/

namespace Bsh.Client

open Bsh.Library Bsh.BrightLink Program List

/-! ## Changes before the commit -/

/-- Apart from the socket the globals are the same. -/
def SameSession (g g' : Globals) : Prop := g' = { g with sockfd := g'.sockfd }

theorem SameSession.refl (g : Globals) : SameSession g g := rfl

theorem SameSession.trans {a b c : Globals} (hab : SameSession a b) (hbc : SameSession b c) :
    SameSession a c := by
  unfold SameSession at hab hbc ⊢
  rw [hbc, hab]

variable {g g' : Globals} (e : Option Bytes)

theorem SameSession.pinned (h : SameSession g g') :
    g'.pinnedSepPub = g.pinnedSepPub ∧ g'.pinnedSepPubSet = g.pinnedSepPubSet := by
  rw [h]
  exact ⟨rfl, rfl⟩

variable {W : Type}

/-- The same for two states of the machine. -/
def KeepsSession (s s' : Machine W) : Prop := SameSession s.globals s'.globals

theorem KeepsSession.refl (s : Machine W) : KeepsSession s s := SameSession.refl s.globals

theorem KeepsSession.trans {a b c : Machine W} (hab : KeepsSession a b) (hbc : KeepsSession b c) :
    KeepsSession a c := SameSession.trans hab hbc

/-- A program that touches the socket at most. -/
abbrev Quiet {α : Type} (m : LinkProgram W α) : Prop := Changes KeepsSession m

variable {α β : Type} {P : Primitives} {host : Host W}

theorem Quiet.bind {m : LinkProgram W α} {f : α → LinkProgram W β} (hm : Quiet m)
    (hf : ∀ a, Quiet (f a)) : Quiet (m >>= f) :=
  changes_bind (R := KeepsSession) (fun _ _ _ ↦ KeepsSession.trans) hm hf

theorem quiet_pure (a : α) : Quiet (pure a : LinkProgram W α) := changes_pure KeepsSession.refl a

theorem quiet_fail : Quiet (fail e : LinkProgram W α) :=
  changes_fail KeepsSession.refl e

theorem quiet_require (o : Option α) : Quiet (require e o : LinkProgram W α) :=
  changes_require KeepsSession.refl e o

theorem quiet_check (condition : Bool) :
    Quiet (check e condition : LinkProgram W Unit) := changes_check KeepsSession.refl e condition

theorem quiet_readGlobals : Quiet (readGlobals : LinkProgram W Globals) :=
  changes_read KeepsSession.refl _

theorem quiet_call (f : W → α × W) : Quiet (call f) := fun s ↦ SameSession.refl s.globals

theorem quiet_setSocket (fd : Option ℕ) :
    Quiet (update fun globals ↦ { globals with sockfd := fd } : LinkProgram W Unit) :=
  fun _ ↦ rfl

theorem quiet_linkSocketConnect : Quiet (linkSocketConnect host) := by
  apply quiet_readGlobals.bind
  intro globals
  cases globals.sockfd with
  | some fd => exact quiet_pure fd
  | none =>
    apply (quiet_call _).bind
    intro fd
    cases fd with
    | none => exact quiet_fail none
    | some fd => exact (quiet_setSocket _).bind fun _ ↦ quiet_pure fd

theorem quiet_linkSocketClose : Quiet (linkSocketClose host) := by
  apply quiet_readGlobals.bind
  intro globals
  cases globals.sockfd with
  | none => exact quiet_pure ()
  | some fd => exact (quiet_call _).bind fun _ ↦ quiet_setSocket _

theorem quiet_linkSendRequest (json : Bytes) : Quiet (linkSendRequest host json) := by
  have hclose : Quiet (linkSocketClose host >>= fun _ ↦ (fail none : LinkProgram W Bytes)) :=
    quiet_linkSocketClose.bind fun _ ↦ quiet_fail none
  apply quiet_linkSocketConnect.bind
  intro fd
  apply (quiet_call _).bind
  intro written
  cases written with
  | false => exact hclose
  | true =>
    apply (quiet_call _).bind
    intro message
    cases message with
    | none => exact hclose
    | some message => exact quiet_pure _

theorem quiet_requestOr (message : String) (json : Bytes) :
    Quiet (requestOr message host json) := by
  intro s
  have h : Quiet (linkSendRequest host json) := quiet_linkSendRequest json
  specialize h s
  unfold requestOr
  generalize linkSendRequest host json s = r at h ⊢
  obtain ⟨r, s'⟩ := r
  cases r <;> exact h

theorem quiet_randBytes (n : ℕ) : Quiet (randBytes host e n) :=
  (quiet_call _).bind fun o ↦ quiet_require e o

theorem quiet_linkSecpRandomPriv : Quiet (linkSecpRandomPriv P host e) :=
  (quiet_call _).bind fun o ↦ quiet_require e o

theorem quiet_linkEciesEncrypt (recipientPub plaintext : Bytes) :
    Quiet (linkEciesEncrypt P host e recipientPub plaintext) := by
  apply (quiet_linkSecpRandomPriv e).bind
  intro ephPriv
  apply (quiet_require _ _).bind
  intro ephPub
  apply (quiet_require _ _).bind
  intro sharedX
  apply (quiet_require _ _).bind
  intro aesKey
  apply (quiet_randBytes e _).bind
  intro iv
  exact (quiet_require _ _).bind fun sealed ↦ quiet_pure _

theorem quiet_getPublicKey (cmd : String) : Quiet (getPublicKey host cmd) :=
  (quiet_requestOr _ _).bind fun _ ↦ quiet_require _ _

theorem quiet_drawMaterial (double : ℚ → ℚ) : Quiet (drawMaterial P host double) := by
  apply (quiet_randBytes _ _).bind
  intro clientNonce
  apply (quiet_randBytes _ _).bind
  intro clientShare
  apply (quiet_linkSecpRandomPriv _).bind
  intro ephPriv
  apply (quiet_require _ _).bind
  intro ephPub
  exact (quiet_call _).bind fun _ ↦ quiet_pure _

theorem quiet_parseResponse (material : ClientMaterial) (response : Bytes) :
    Quiet (parseResponse P material response : LinkProgram W BridgeMaterial) := by
  apply (quiet_require _ _).bind
  intro bridgeIssuedAt
  apply (quiet_require _ _).bind
  intro grantedTtl
  apply (quiet_require _ _).bind
  intro sessionId
  apply (quiet_check _ _).bind
  intro _
  apply (quiet_require _ _).bind
  intro envelopeText
  apply (quiet_require _ _).bind
  intro envelope
  apply (quiet_require _ _).bind
  intro bridgeShare
  exact (quiet_check _ _).bind fun _ ↦ quiet_pure _

theorem quiet_parseSignature (response : Bytes) :
    Quiet (parseSignature response : LinkProgram W Bytes) :=
  (quiet_require _ _).bind fun _ ↦ quiet_require _ _

theorem quiet_verifyResponse (double : ℚ → ℚ) (sepPub : Bytes) (material : ClientMaterial)
    (bridge : BridgeMaterial) (response : Bytes) :
    Quiet (verifyResponse P double sepPub material bridge response :
      LinkProgram W (Handshake P double)) := by
  unfold verifyResponse
  simp only
  split
  · exact quiet_fail _
  · apply (quiet_parseSignature response).bind
    intro sigDer
    split
    · exact quiet_pure _
    · exact quiet_fail _

theorem quiet_fetchKeys : Quiet (fetchKeys host) := by
  apply (quiet_getPublicKey _).bind
  intro bridgePub
  apply (quiet_getPublicKey _).bind
  intro sepPub
  apply quiet_readGlobals.bind
  intro globals
  exact (quiet_check _ _).bind fun _ ↦ quiet_pure _

theorem quiet_handshake (double : ℚ → ℚ) : Quiet (handshake P host double) := by
  apply quiet_fetchKeys.bind
  rintro ⟨bridgePub, sepPub⟩
  apply (quiet_drawMaterial double).bind
  intro material
  apply (quiet_linkEciesEncrypt _ _ _).bind
  intro envelope
  apply (quiet_requestOr _ _).bind
  intro response
  apply (quiet_parseResponse _ _).bind
  intro bridge
  exact quiet_verifyResponse double _ _ _ _

/-! ## The pinned key -/

/-- A key that the pin, if there is one, does not contradict. -/
def Pins (globals : Globals) (sepPub : Bytes) : Prop :=
  globals.pinnedSepPubSet = true → sepPub = globals.pinnedSepPub

theorem SameSession.pins (h : SameSession g g') {sepPub : Bytes}
    (hpins : Pins g sepPub) : Pins g' sepPub := by
  unfold Pins
  rw [h.pinned.1, h.pinned.2]
  exact hpins

theorem Quiet.pins {m : LinkProgram W α} (hm : Quiet m) (sepPub : Bytes) :
    Holds (fun s ↦ Pins s.globals sepPub) m fun _ s ↦ Pins s.globals sepPub := by
  intro s a s' hpins hrun
  have hquiet := hm s
  rw [hrun] at hquiet
  exact SameSession.pins hquiet hpins

/-- The keys come out of the TOFU check only if they pass it. -/
theorem fetchKeys_pins :
    Holds (fun _ ↦ True) (fetchKeys host) fun keys s ↦ Pins s.globals keys.2 := by
  refine holds_bind (fun _ _ ↦ True) holds_any ?_
  intro bridgePub
  refine holds_bind (fun _ _ ↦ True) holds_any ?_
  intro sepPub
  refine holds_bind (fun globals s ↦ globals = s.globals) ?_ ?_
  · exact holds_read fun s _ ↦ rfl
  · intro globals
    refine holds_bind (fun _ s ↦ Pins s.globals sepPub) ?_ ?_
    · apply holds_check
      intro hcheck s hglobals hset
      subst hglobals
      simpa [hset] using hcheck
    · exact fun _ ↦ holds_pure fun _ h ↦ h

theorem verifyResponse_sepPub {double : ℚ → ℚ} {sepPub : Bytes} {material : ClientMaterial}
    {bridge : BridgeMaterial} {response : Bytes} :
    Holds (fun s ↦ Pins s.globals sepPub)
      (verifyResponse P double sepPub material bridge response :
        LinkProgram W (Handshake P double)) fun h s ↦ Pins s.globals h.sepPub := by
  unfold verifyResponse
  simp only
  split
  · exact holds_fail
  · refine holds_bind _ ((quiet_parseSignature response).pins sepPub) ?_
    intro sigDer
    split
    · exact holds_pure fun _ h ↦ h
    · exact holds_fail

/-- The key of a handshake is the pinned one, if there is one. -/
theorem handshake_pins (double : ℚ → ℚ) :
    Holds (fun _ ↦ True) (handshake P host double) fun h s ↦ Pins s.globals h.sepPub := by
  refine holds_bind _ fetchKeys_pins ?_
  rintro ⟨bridgePub, sepPub⟩
  refine holds_bind _ ((quiet_drawMaterial double).pins sepPub) ?_
  intro material
  refine holds_bind _ ((quiet_linkEciesEncrypt _ _ _).pins sepPub) ?_
  intro envelope
  refine holds_bind _ ((quiet_requestOr _ _).pins sepPub) ?_
  intro response
  refine holds_bind _ ((quiet_parseResponse _ _).pins sepPub) ?_
  intro bridge
  exact verifyResponse_sepPub

theorem Globals.commit_pinned {double : ℚ → ℚ} {globals : Globals} {h : Handshake P double}
    (hpins : Pins globals h.sepPub) : (globals.commit P h).pinnedSepPub = h.sepPub := by
  unfold Globals.commit
  split
  next hset => exact (hpins hset).symm
  next => rfl

theorem SameSession.commit {double : ℚ → ℚ} (hsame : SameSession g g')
    (h : Handshake P double) : SameSession (g.commit P h) (g'.commit P h) := by
  rw [hsame]
  rfl

/-! ## Runs -/

/-- A pin stays as it is. -/
def KeepsPin (s s' : Machine W) : Prop :=
  s.globals.pinnedSepPubSet = true →
    s'.globals.pinnedSepPubSet = true ∧ s'.globals.pinnedSepPub = s.globals.pinnedSepPub

theorem KeepsPin.trans {a b c : Machine W} (hab : KeepsPin a b) (hbc : KeepsPin b c) :
    KeepsPin a c := by
  intro ha
  obtain ⟨hb, hkey⟩ := hab ha
  obtain ⟨hc, hkey'⟩ := hbc hb
  exact ⟨hc, hkey'.trans hkey⟩

theorem KeepsSession.keepsPin {s s' : Machine W} (h : KeepsSession s s') : KeepsPin s s' := by
  intro hset
  obtain ⟨hkey, hset'⟩ := SameSession.pinned h
  exact ⟨hset'.trans hset, hkey⟩

theorem keepsPin_linkRegisterIfNeeded (double : ℚ → ℚ) :
    Changes KeepsPin (linkRegisterIfNeeded P host double) := by
  have htrans (a b c : Machine W) : KeepsPin a b → KeepsPin b c → KeepsPin a c := KeepsPin.trans
  apply changes_bind htrans
  · exact fun s ↦ (quiet_readGlobals s).keepsPin
  · intro globals
    split
    · exact fun s ↦ (quiet_pure () s).keepsPin
    · apply changes_bind htrans
      · exact fun s ↦ (quiet_handshake double s).keepsPin
      · intro h s hset
        exact ⟨rfl, if_pos hset⟩

theorem quiet_linkEmitDeliver (counter : UInt64) (type context plaintext : Bytes) :
    Quiet (linkEmitDeliver P host counter type context plaintext) := by
  intro globals
  apply (quiet_check _ _).bind
  intro _
  apply (quiet_require _ _).bind
  intro aad
  apply (quiet_randBytes _ _).bind
  intro iv
  apply (quiet_require _ _).bind
  intro sealed
  apply (quiet_requestOr _ _).bind
  intro response
  split
  · exact quiet_fail _
  · exact quiet_pure ()

theorem keepsPin_injectBody (double : ℚ → ℚ) (type context body : Bytes) (s : Machine W) :
    KeepsPin s (injectBody P host double type context body s).2 := by
  have hregister : Changes KeepsPin (linkRegisterIfNeeded P host double) :=
    keepsPin_linkRegisterIfNeeded double
  specialize hregister s
  unfold injectBody
  generalize linkRegisterIfNeeded P host double s = r at hregister ⊢
  obtain ⟨_ | _, s₁⟩ := r
  · exact hregister
  · dsimp only at hregister ⊢
    generalize hs₂ : ({ s₁ with globals := { s₁.globals with
      cShellToAgent := s₁.globals.cShellToAgent + 1 } } : Machine W) = s₂
    have hcounted : KeepsPin s s₂ := by
      subst hs₂
      exact hregister
    have hquiet : Quiet (linkEmitDeliver P host (s₁.globals.cShellToAgent + 1) type context body) :=
      quiet_linkEmitDeliver _ type context body
    have hdeliver := (hquiet s₂).keepsPin
    generalize linkEmitDeliver P host _ type context body s₂ = r
      at hdeliver ⊢
    obtain ⟨_ | _, s₃⟩ := r <;> exact hcounted.trans hdeliver

theorem keepsPin_runCommand (double : ℚ → ℚ) (s : Machine W) (command : ClientCommand) :
    KeepsPin s (runCommand P host double s command) := by
  have hrefl : KeepsPin s s := (KeepsSession.refl s).keepsPin
  cases command with
  | bshInject argv stdin =>
    simp only [runCommand, binBshInject]
    split
    · split
      · exact hrefl
      · exact keepsPin_injectBody double _ _ _ s
    · exact hrefl
  | linkGeo argv =>
    simp only [runCommand, binLinkGeo]
    split
    · exact hrefl
    · split
      · exact hrefl
      · exact hrefl
      · next request _ =>
        have hsend : Quiet (linkSendRequest host request) := quiet_linkSendRequest request
        have hquiet := (hsend s).keepsPin
        generalize linkSendRequest host request s = r at hquiet ⊢
        obtain ⟨_ | _, s'⟩ := r <;> exact hquiet
  | finish =>
    have hclose : Quiet (linkSocketClose host) := quiet_linkSocketClose
    exact (hclose s).keepsPin

/-! ## The result -/

/-- A registration that fails changes the socket at most.  One that succeeds without a session
commits values whose signature was verified under the key that is pinned afterwards.  A pinned key
is never changed by a later command. -/
theorem registration_commits_verified (P : Primitives) (host : Host W) (double : ℚ → ℚ) :
    (∀ s : Machine W,
      match linkRegisterIfNeeded P host double s with
      | (.error _, s') => SameSession s.globals s'.globals
      | (.ok (), s') =>
        if s.globals.sessionActive then s' = s
        else ∃ h : Handshake P double, SameSession (s.globals.commit P h) s'.globals ∧
          linkVerifyP256Signature P s'.globals.pinnedSepPub (transcriptOf double h.client h.bridge)
            h.sigDer = true) ∧
    ∀ (s : Machine W) (commands : List ClientCommand), s.globals.pinnedSepPubSet = true →
      (run (runCommand P host double) s commands).globals.pinnedSepPub =
        s.globals.pinnedSepPub := by
  constructor
  · intro s
    have hstart : linkRegisterIfNeeded P host double s = _ := bind_ok rfl
    rw [hstart]
    by_cases hactive : s.globals.sessionActive
    · simp only [hactive]
      rfl
    · have hquiet : Quiet (handshake P host double) := quiet_handshake double
      have hpins : Holds (fun _ ↦ True) (handshake P host double)
          fun h s ↦ Pins s.globals h.sepPub := handshake_pins double
      specialize hquiet s
      specialize hpins s
      simp only [hactive, Bool.false_eq_true, if_false]
      generalize hrun : handshake P host double s = r at hquiet hpins
      obtain ⟨e | h, s₁⟩ := r
      · rw [bind_error hrun]
        exact hquiet
      · rw [bind_ok hrun]
        have hkey : (s₁.globals.commit P h).pinnedSepPub = h.sepPub :=
          Globals.commit_pinned (hpins h s₁ trivial rfl)
        refine ⟨h, SameSession.commit hquiet h, ?_⟩
        calc linkVerifyP256Signature P (s₁.globals.commit P h).pinnedSepPub
              (transcriptOf double h.client h.bridge) h.sigDer
            = linkVerifyP256Signature P h.sepPub (transcriptOf double h.client h.bridge)
              h.sigDer := by rw [hkey]
          _ = true := h.verified
  · intro s commands hset
    have hkeeps : KeepsPin s (run (runCommand P host double) s commands) :=
      run_invariant (KeepsPin s) (fun s' command h ↦ h.trans (keepsPin_runCommand double s' command))
        (KeepsSession.refl s).keepsPin commands
    exact (hkeeps hset).2

end Bsh.Client
