import Mathlib.Data.Int.Basic
import Mathlib.Data.List.Induction
import Bsh.Library.Blocks
import Bsh.Library.Run

/-!
# The kill ring

`cuttext` of `zle_utils.c`, and `yank`, `pastebuf`, `viputbefore`, `viputafter` and `yankpop` of
`zle_misc.c`.  The cut buffer, the ring and the buffers that vi commands name hold pointers to memory,
which `cuttext` moves between them, extends and frees.

A function gives `none` where it would read or write outside of the memory that it has allocated, or
would not come to an end.  The clipboards of the window system, which `cuttext` writes to, and the
parameter `killring` are left out.
-/

namespace Bsh.Shell

open Bsh.Library List

/-! ## Combining characters -/

/-- `IS_COMBINING` and `IS_BASECHAR`. -/
structure CharClasses (α : Type*) where
  isCombining : α → Bool
  isBasechar : α → Bool

namespace CharClasses

variable {α : Type*} (q : CharClasses α)

/-- The loop of `alignmultiwordleft`. -/
def baseLeft (line : List α) : ℕ → Option ℕ
  | 0 => if (line)[0]?.any q.isBasechar then some 0 else none
  | loccs + 1 =>
    if (line)[loccs + 1]?.any q.isBasechar then some (loccs + 1)
    else if (line)[loccs + 1]?.any q.isCombining then baseLeft line loccs
    else none

/-- The new position, or `none` where the function returns 0. -/
def alignmultiwordleft (combiningChars : Bool) (line : List α) (pos : ℕ) : Option ℕ :=
  if !combiningChars || pos == line.length || pos == 0 then none
  else if (line)[pos]?.any q.isCombining then q.baseLeft line (pos - 1)
  else none

def alignmultiwordright (combiningChars : Bool) (line : List α) (pos : ℕ) : ℕ :=
  match q.alignmultiwordleft combiningChars line pos with
  | none => pos
  | some _ => pos + 1 + ((line.drop (pos + 1)).takeWhile q.isCombining).length

end CharClasses

/-! ## The buffers -/

/-- `struct cutbuffer`; `line` is the flag `CUTBUFFER_LINE`. -/
structure Cutbuffer where
  buf : Option ℕ
  len : ℕ
  line : Bool

/-- `cutbuf`, an element of `kring` or of `vibuf`. -/
inductive KillSlot where
  | cutbuf
  | kring (n : ℕ)
  | vibuf (n : ℕ)
deriving DecidableEq

/-- The entries for `"2` to `"9` are those for `"1` to `"8` from before. -/
def shifted {β : Type*} (f : KillSlot → β) : KillSlot → β
  | .vibuf n => if 28 ≤ n ∧ n ≤ 35 then f (.vibuf (n - 1)) else f (.vibuf n)
  | slot => f slot

/-- `KRINGCTDEF`. -/
def kringsize : ℕ := 8

/-- What the functions ask of characters. -/
structure ZleChars (α : Type*) extends CharClasses α where
  nul : α
  newline : α
  isBlank : α → Bool

/-- The flags of `zmod` and its `vibuf`. -/
structure Zmod where
  modNull : Bool
  modOssel : Bool
  modVibuf : Bool
  modViapp : Bool
  vibuf : Fin 36

/-- A call of `cuttext`; `afterKill` is `lastcmd & ZLE_KILL`. -/
structure KillCmd (α : Type*) where
  line : List α
  vilinerange : Bool
  cutFront : Bool
  cutReplace : Bool
  cutYank : Bool
  afterKill : Bool
  zmod : Zmod

/-- The buffers; `kring` says whether the ring has been allocated. -/
structure KillState (α : Type*) where
  blocks : Blocks α
  buffer : KillSlot → Cutbuffer
  kring : Bool
  kringnum : ℕ

namespace KillState

variable {α : Type*} (ch : ZleChars α)

/-- All of it is static and zero. -/
def start (α : Type*) : KillState α := ⟨.empty α, fun _ ↦ ⟨none, 0, false⟩, false, 0⟩

/-! ## Cutting -/

/-- `free(b->buf)`. -/
def freeBuffer (s : KillState α) (slot : KillSlot) : Option (KillState α) :=
  (s.blocks.free (s.buffer slot).buf).map fun blocks ↦ { s with blocks }

/-- A new `buf` for a buffer, with the text copied into it. -/
def setBuffer (s : KillState α) (slot : KillSlot) (text : List α) (line : Bool) :
    Option (KillState α) :=
  ((s.blocks.alloc text.length).write s.blocks.fresh 0 text).map fun blocks ↦
    { s with blocks
             buffer := Function.update s.buffer slot ⟨some s.blocks.fresh, text.length, line⟩ }

/-- The newline between the texts of a buffer of whole lines. -/
def writeNewline (blocks : Blocks α) (q off : ℕ) (line : Bool) : Option (Blocks α) :=
  if line then blocks.write q off [ch.newline] else some blocks

/-- A vi buffer whose `buf` is `p`, and which the text is appended to. -/
def appendBuffer (s : KillState α) (slot : KillSlot) (p : ℕ) (c : KillCmd α) :
    Option (KillState α) := do
  let b := s.buffer slot
  let line := b.line || c.vilinerange
  let q := s.blocks.fresh
  let blocks ← s.blocks.realloc p (c.line.length + b.len + line.toNat)
  let blocks ← writeNewline ch blocks q b.len line
  let blocks ← blocks.write q (b.len + line.toNat) c.line
  some { s with
    blocks
    buffer := Function.update s.buffer slot ⟨some q, b.len + line.toNat + c.line.length, line⟩ }

/-- `vibuf[n] = vibuf[n-1]` for `"9` down to `"2`. -/
def shiftBuffers (s : KillState α) : KillState α := { s with buffer := shifted s.buffer }

/-- The first half of `cuttext`: the vi buffers. -/
def cutVi (s : KillState α) (c : KillCmd α) : Option (KillState α) :=
  if c.zmod.modOssel then some s
  else if c.zmod.modVibuf then
    let slot : KillSlot := .vibuf c.zmod.vibuf
    match (if c.zmod.modViapp then (s.buffer slot).buf else none) with
    | none => do (← s.freeBuffer slot).setBuffer slot c.line c.vilinerange
    | some p => s.appendBuffer ch slot p c
  else if c.cutYank then do
    (← s.freeBuffer (.vibuf 26)).setBuffer (.vibuf 26) c.line c.vilinerange
  else do
    (← s.freeBuffer (.vibuf 35)).shiftBuffers.setBuffer (.vibuf 27) c.line c.vilinerange

/-- A `cutbuf` with room for one character, which is NUL. -/
def zeroCutbuf (s : KillState α) : Option (KillState α) :=
  ((s.blocks.alloc 1).write s.blocks.fresh 0 [ch.nul]).map fun blocks ↦
    { s with blocks, buffer := Function.update s.buffer .cutbuf ⟨some s.blocks.fresh, 0, false⟩ }

/-- The element of the ring that `cutbuf` goes to. -/
def nextKringnum (kring : Bool) (kringnum : ℕ) : ℕ :=
  if kring then (kringnum + 1) % kringsize else kringnum

/-- `cutbuf` goes to the ring. -/
def pushRing (s : KillState α) : Option (KillState α) := do
  let n := nextKringnum s.kring s.kringnum
  let s ← freeBuffer { s with kring := true, kringnum := n } (.kring n)
  zeroCutbuf ch { s with buffer := Function.update s.buffer (.kring n) (s.buffer .cutbuf) }

/-- A new run of kills unless the last command was a kill. -/
def newRun (s : KillState α) (c : KillCmd α) : Option (KillState α) :=
  match (s.buffer .cutbuf).buf with
  | none => s.zeroCutbuf ch
  | some _ => if !c.afterKill || c.cutReplace then s.pushRing ch else some s

/-- The text before the first `len` characters at `p`, in a new block. -/
def copyFront (blocks : Blocks α) (p len : ℕ) (line : List α) : Option (Blocks α) := do
  let q := blocks.fresh
  let blocks ← (blocks.alloc (len + line.length)).write q 0 line
  let old ← blocks.read ch.nul p len
  let blocks ← blocks.write q line.length old
  blocks.free (some p)

/-- The text behind the first `len` characters at `p`; no block is made of 0 characters. -/
def copyBehind (blocks : Blocks α) (p len : ℕ) (line : List α) : Option (Blocks α) := do
  let q := blocks.fresh
  let blocks ← blocks.realloc p (len + max line.length 1)
  blocks.write q len line

/-- The text goes before or behind what `cutbuf` holds at `p`. -/
def extendCutbuf (s : KillState α) (p : ℕ) (c : KillCmd α) : Option (KillState α) :=
  let len := (s.buffer .cutbuf).len
  (if c.cutFront || c.cutReplace then copyFront ch s.blocks p len c.line
    else copyBehind s.blocks p len c.line).map fun blocks ↦
    { s with
      blocks
      buffer := Function.update s.buffer .cutbuf
        ⟨some s.blocks.fresh, len + c.line.length, c.vilinerange⟩ }

def cuttext (s : KillState α) (c : KillCmd α) : Option (KillState α) :=
  if c.line.isEmpty && !c.vilinerange || c.zmod.modNull then some s
  else do
    let s ← s.cutVi ch c
    let s ← s.newRun ch c
    match (s.buffer .cutbuf).buf with
    | none => none
    | some p => s.extendCutbuf ch p c

end KillState

end Bsh.Shell

/-!
# What the kill buffers hold

The buffers as texts, without the memory that they stand in.  `cuttext` does to the memory what it
does to the texts: it never reads or writes outside of a block, every block belongs to one buffer,
and the text of a buffer is as long as it is recorded to be.
-/

namespace Bsh.Shell

open Bsh.Library List

/-- The buffers with their texts and flags. -/
structure Kills (α : Type*) where
  held : KillSlot → Option (List α × Bool)
  kring : Bool
  kringnum : ℕ

namespace Kills

variable {α : Type*}

def start (α : Type*) : Kills α := ⟨fun _ ↦ none, false, 0⟩

def set (k : Kills α) (slot : KillSlot) (text : List α) (line : Bool) : Kills α :=
  { k with held := Function.update k.held slot (some (text, line)) }

@[simp]
theorem set_held_self (k : Kills α) (slot : KillSlot) (text : List α) (line : Bool) :
    (k.set slot text line).held slot = some (text, line) := Function.update_self _ _ _

@[simp]
theorem set_held_of_ne (k : Kills α) {slot x : KillSlot} (h : x ≠ slot) (text : List α)
    (line : Bool) : (k.set slot text line).held x = k.held x := Function.update_of_ne h _ _

def shiftBuffers (k : Kills α) : Kills α := { k with held := shifted k.held }

def cutVi (ch : ZleChars α) (k : Kills α) (c : KillCmd α) : Kills α :=
  if c.zmod.modOssel then k
  else if c.zmod.modVibuf then
    let slot : KillSlot := .vibuf c.zmod.vibuf
    match (if c.zmod.modViapp then k.held slot else none) with
    | none => k.set slot c.line c.vilinerange
    | some (text, line) =>
      let line := line || c.vilinerange
      k.set slot (text ++ (if line then [ch.newline] else []) ++ c.line) line
  else if c.cutYank then k.set (.vibuf 26) c.line c.vilinerange
  else k.shiftBuffers.set (.vibuf 27) c.line c.vilinerange

def pushRing (k : Kills α) (text : List α) (line : Bool) : Kills α :=
  let n := KillState.nextKringnum k.kring k.kringnum
  (set { k with kring := true, kringnum := n } (.kring n) text line).set .cutbuf [] false

def newRun (k : Kills α) (c : KillCmd α) : Kills α :=
  match k.held .cutbuf with
  | none => k.set .cutbuf [] false
  | some (text, line) => if !c.afterKill || c.cutReplace then k.pushRing text line else k

def extendCutbuf (k : Kills α) (c : KillCmd α) : Kills α :=
  match k.held .cutbuf with
  | none => k
  | some (text, _) =>
    k.set .cutbuf (if c.cutFront || c.cutReplace then c.line ++ text else text ++ c.line)
      c.vilinerange

def cuttext (ch : ZleChars α) (k : Kills α) (c : KillCmd α) : Kills α :=
  if c.line.isEmpty && !c.vilinerange || c.zmod.modNull then k
  else ((k.cutVi ch c).newRun c).extendCutbuf c

end Kills

namespace KillState

variable {α : Type*} {ch : ZleChars α} {s : KillState α} {k : Kills α}

def owner (s : KillState α) (slot : KillSlot) : Option ℕ := (s.buffer slot).buf

/-- The texts alone. -/
def texts (held : KillSlot → Option (List α × Bool)) (slot : KillSlot) : Option (List α) :=
  (held slot).map Prod.fst

/-- The memory holds the texts, at the recorded lengths. -/
structure Represents (s : KillState α) (k : Kills α) : Prop where
  owned : s.blocks.Owned s.owner (texts k.held)
  fields : ∀ slot text line, k.held slot = some (text, line) →
    (s.buffer slot).len = text.length ∧ (s.buffer slot).line = line
  kring : s.kring = k.kring
  kringnum : s.kringnum = k.kringnum

theorem represents_start : (start α).Represents (Kills.start α) :=
  ⟨Blocks.owned_empty, nofun, rfl, rfl⟩

theorem texts_update (held : KillSlot → Option (List α × Bool)) (slot : KillSlot)
    (text : List α) (line : Bool) :
    texts (Function.update held slot (some (text, line))) =
      Function.update (texts held) slot (some text) := by
  funext x
  by_cases hx : x = slot
  · rw [hx, Function.update_self, texts, Function.update_self]
    rfl
  · rw [Function.update_of_ne hx, texts, texts, Function.update_of_ne hx]

theorem owner_update (buffer : KillSlot → Cutbuffer) (slot : KillSlot) (b : Cutbuffer) :
    (fun x ↦ (Function.update buffer slot b x).buf) =
      Function.update (fun x ↦ (buffer x).buf) slot b.buf := by
  funext x
  by_cases hx : x = slot
  · rw [hx, Function.update_self, Function.update_self]
  · rw [Function.update_of_ne hx, Function.update_of_ne hx]

variable {line : Bool} {slot : KillSlot} {text : List α} {β : Type*}

theorem Represents.set {blocks : Blocks α} {p : ℕ}
    (h : ∀ x text line, x ≠ slot → k.held x = some (text, line) →
      (s.buffer x).len = text.length ∧ (s.buffer x).line = line)
    (howned : blocks.Owned (Function.update s.owner slot (some p))
      (Function.update (texts k.held) slot (some text)))
    (hkring : s.kring = k.kring) (hkringnum : s.kringnum = k.kringnum) :
    ({ s with blocks, buffer := Function.update s.buffer slot ⟨some p, text.length, line⟩ } :
      KillState α).Represents (k.set slot text line) := by
  refine ⟨?_, ?_, hkring, hkringnum⟩
  · have howner := owner_update s.buffer slot ⟨some p, text.length, line⟩
    rw [Kills.set, texts_update]
    unfold owner at howned ⊢
    rw [howner]
    exact howned
  · intro x text' line' hx
    by_cases hslot : x = slot
    · rw [hslot, Kills.set_held_self, Option.some.injEq, Prod.mk.injEq] at hx
      rw [hslot, ← hx.1, ← hx.2]
      simp
    · rw [Kills.set_held_of_ne k hslot] at hx
      simpa [Function.update_of_ne hslot] using h x text' line' hslot hx

theorem setBuffer_spec
    (howned : s.blocks.Owned (Function.update s.owner slot none)
      (Function.update (texts k.held) slot none))
    (h : ∀ x text line, x ≠ slot → k.held x = some (text, line) →
      (s.buffer x).len = text.length ∧ (s.buffer x).line = line)
    (hkring : s.kring = k.kring) (hkringnum : s.kringnum = k.kringnum) :
    ∃ t, s.setBuffer slot text line = some t ∧ t.Represents (k.set slot text line) := by
  obtain ⟨blocks, hwrite, hholds, hfresh, hother⟩ :=
    (Blocks.alloc_holds s.blocks text.length).append text (by simp)
  have htake := howned.take (Function.update_self _ _ _) hholds howned.fresh_block
    (by rw [hfresh]; exact Nat.lt_succ_self _) (by rw [hfresh]; exact Nat.le_succ _) fun q hq ↦
      (hother q hq).trans (Function.update_of_ne hq _ _)
  rw [Function.update_idem, Function.update_idem, nil_append] at htake
  refine ⟨_, by rw [setBuffer, ← length_nil, hwrite]; rfl, ?_⟩
  exact Represents.set h htake hkring hkringnum

theorem Represents.buf_eq_none (h : s.Represents k) :
    (s.buffer slot).buf = none ↔ k.held slot = none := by
  constructor
  · intro hbuf
    exact Option.map_eq_none_iff.mp (h.owned.null hbuf)
  · intro hheld
    cases hbuf : (s.buffer slot).buf with
    | none => rfl
    | some p =>
      obtain ⟨xs, size, htext, _⟩ := h.owned.holds hbuf
      rw [texts, hheld] at htext
      exact nomatch htext

/-- A buffer with a text has a block that begins with it. -/
theorem Represents.holds (h : s.Represents k)
    (hheld : k.held slot = some (text, line)) :
    ∃ p size, (s.buffer slot).buf = some p ∧ s.blocks.Holds p size text ∧
      (s.buffer slot).len = text.length ∧ (s.buffer slot).line = line := by
  obtain ⟨hlen, hline⟩ := h.fields slot text line hheld
  cases hbuf : (s.buffer slot).buf with
  | none =>
    rw [h.buf_eq_none.mp hbuf] at hheld
    exact nomatch hheld
  | some p =>
    obtain ⟨xs, size, htext, hholds⟩ := h.owned.holds hbuf
    rw [texts, hheld] at htext
    obtain rfl : text = xs := Option.some.inj htext
    exact ⟨p, size, rfl, hholds, hlen, hline⟩

theorem Represents.renew (h : s.Represents k) (slot : KillSlot) (text : List α) (line : Bool) :
    ∃ t, (s.freeBuffer slot).bind (fun s ↦ s.setBuffer slot text line) = some t ∧
      t.Represents (k.set slot text line) := by
  obtain ⟨blocks, hfree, howned⟩ := h.owned.free slot
  have hfree' : s.freeBuffer slot = some { s with blocks } := by
    rw [freeBuffer, show (s.buffer slot).buf = s.owner slot from rfl, hfree]
    rfl
  rw [hfree', Option.bind_some]
  exact setBuffer_spec howned (fun x text line _ ↦ h.fields x text line)
    h.kring h.kringnum

theorem Represents.append (ch : ZleChars α) (h : s.Represents k) (hheld : k.held slot = some (text, line)) (c : KillCmd α) :
    ∃ p t, (s.buffer slot).buf = some p ∧ s.appendBuffer ch slot p c = some t ∧
      t.Represents (k.set slot (text ++ (if line || c.vilinerange then [ch.newline] else []) ++
        c.line) (line || c.vilinerange)) := by
  obtain ⟨p, size, hbuf, hholds, hlen, rfl⟩ := h.holds hheld
  have hbound : p < s.blocks.fresh := h.owned.bound hholds.isSome
  generalize hflag : ((s.buffer slot).line || c.vilinerange) = flag
  obtain ⟨b₁, hmove, hholds₁, hfresh₁, hgone₁, hother₁⟩ := hholds.realloc
    (c.line.length + text.length + flag.toNat) (by omega) hbound
  have hnewline : ∃ b₂, writeNewline ch b₁ s.blocks.fresh text.length flag = some b₂ ∧
      b₂.Holds s.blocks.fresh
        (c.line.length + text.length + flag.toNat)
        (text ++ (if flag then [ch.newline] else [])) ∧ b₂.fresh = b₁.fresh ∧
        ∀ q, q ≠ s.blocks.fresh → b₂.block q = b₁.block q := by
    cases flag with
    | true =>
      refine hholds₁.append [ch.newline] ?_
      rw [length_singleton, Bool.toNat_true]
      omega
    | false => exact ⟨b₁, rfl, by simpa using hholds₁, rfl, fun _ _ ↦ rfl⟩
  obtain ⟨b₂, hwrite₂, hholds₂, hfresh₂, hother₂⟩ := hnewline
  have hlength : (text ++ (if flag then [ch.newline] else [])).length =
      text.length + flag.toNat := by cases flag <;> simp
  obtain ⟨b₃, hwrite₃, hholds₃, hfresh₃, hother₃⟩ := hholds₂.append c.line (by omega)
  have happend : s.appendBuffer ch slot p c = some { s with
      blocks := b₃
      buffer := Function.update s.buffer slot ⟨some s.blocks.fresh,
        (text ++ (if flag then [ch.newline] else []) ++ c.line).length, flag⟩ } := by
    rw [length_append, hlength]
    rw [hlength] at hwrite₃
    simp only [appendBuffer, hflag, hlen, hmove, hwrite₂, hwrite₃, Option.bind_eq_bind,
      Option.bind_some]
  refine ⟨p, _, hbuf, happend, Represents.set (fun x text line _ ↦ h.fields x text line) ?_
    h.kring h.kringnum⟩
  refine h.owned.replace hbuf hholds₃ (hfresh₃.trans (hfresh₂.trans hfresh₁)) ?_ fun q hq hne ↦ ?_
  · rw [hother₃ p (Nat.ne_of_lt hbound), hother₂ p (Nat.ne_of_lt hbound), hgone₁]
  · rw [hother₃ q hne, hother₂ q hne, hother₁ q hq hne]

/-! ## The steps of `cuttext` -/

/-- The buffers `"1` to `"9` move on by one, once `"9` is free. -/
def shiftEquiv : Equiv KillSlot KillSlot where
  toFun
    | .vibuf n => if n = 27 then .vibuf 35 else if 28 ≤ n ∧ n ≤ 35 then .vibuf (n - 1) else .vibuf n
    | slot => slot
  invFun
    | .vibuf n => if n = 35 then .vibuf 27 else if 27 ≤ n ∧ n ≤ 34 then .vibuf (n + 1) else .vibuf n
    | slot => slot
  left_inv slot := by
    rcases slot with _ | n | n
    · rfl
    · rfl
    · dsimp only
      by_cases h27 : n = 27
      · simp [h27]
      · by_cases hn : 28 ≤ n ∧ n ≤ 35
        · rw [if_neg h27, if_pos hn]
          dsimp only
          rw [if_neg (by omega), if_pos (by omega)]
          congr 1
          omega
        · rw [if_neg h27, if_neg hn]
          dsimp only
          rw [if_neg (by omega), if_neg (by omega)]
  right_inv slot := by
    rcases slot with _ | n | n
    · rfl
    · rfl
    · dsimp only
      by_cases h35 : n = 35
      · simp [h35]
      · by_cases hn : 27 ≤ n ∧ n ≤ 34
        · rw [if_neg h35, if_pos hn]
          dsimp only
          rw [if_neg (by omega), if_pos (by omega)]
          congr 1
        · rw [if_neg h35, if_neg hn]
          dsimp only
          rw [if_neg (by omega), if_neg (by omega)]

/-- A table whose entry for `"9` has gone, moved on. -/
theorem comp_shiftEquiv (f : KillSlot → Option β) :
    Function.update f (.vibuf 35) none ∘ shiftEquiv =
      Function.update (shifted f) (.vibuf 27) none := by
  funext slot
  rcases slot with _ | n | n
  · rfl
  · rfl
  · by_cases h27 : n = 27
    · subst h27
      exact Function.update_self _ _ _
    · have hne : KillSlot.vibuf n ≠ .vibuf 27 := fun h ↦ h27 (KillSlot.vibuf.inj h)
      rw [Function.update_of_ne hne, Function.comp]
      dsimp only [shiftEquiv, Equiv.coe_fn_mk, shifted]
      rw [if_neg h27]
      by_cases hn : 28 ≤ n ∧ n ≤ 35
      · rw [if_pos hn, if_pos hn, Function.update_of_ne]
        exact fun h ↦ absurd (KillSlot.vibuf.inj h) (by omega)
      · rw [if_neg hn, if_neg hn, Function.update_of_ne]
        exact fun h ↦ hn (by have := KillSlot.vibuf.inj h; omega)

theorem map_shifted {γ : Type*} (g : β → γ) (f : KillSlot → β) :
    (fun slot ↦ g (shifted f slot)) = shifted fun slot ↦ g (f slot) := by
  funext slot
  rcases slot with _ | n | n
  · rfl
  · rfl
  · exact apply_ite g _ _ _

theorem cutVi_spec (ch : ZleChars α) (h : s.Represents k) (c : KillCmd α) :
    ∃ t, s.cutVi ch c = some t ∧ t.Represents (k.cutVi ch c) := by
  unfold cutVi Kills.cutVi
  by_cases hsel : c.zmod.modOssel
  · rw [if_pos hsel, if_pos hsel]
    exact ⟨s, rfl, h⟩
  rw [if_neg hsel, if_neg hsel]
  by_cases hvi : c.zmod.modVibuf
  · rw [if_pos hvi, if_pos hvi]
    dsimp only
    cases happ : c.zmod.modViapp with
    | false => exact h.renew _ _ _
    | true =>
      cases hheld : k.held _ with
      | none =>
        rw [h.buf_eq_none.mpr hheld]
        exact h.renew _ _ _
      | some pair =>
        obtain ⟨p, t, hbuf, happend, ht⟩ := h.append ch hheld c
        rw [hbuf]
        exact ⟨t, happend, ht⟩
  rw [if_neg hvi, if_neg hvi]
  by_cases hyank : c.cutYank
  · rw [if_pos hyank, if_pos hyank]
    exact h.renew _ _ _
  rw [if_neg hyank, if_neg hyank]
  obtain ⟨blocks, hfree, howned⟩ := h.owned.free (.vibuf 35)
  have hfree' : s.freeBuffer (.vibuf 35) = some { s with blocks } := by
    rw [freeBuffer, show (s.buffer (.vibuf 35)).buf = s.owner (.vibuf 35) from rfl, hfree]
    rfl
  have hmoved := howned.reindex shiftEquiv
  have howner : shifted s.owner = fun slot ↦ (shifted s.buffer slot).buf :=
    (map_shifted Cutbuffer.buf s.buffer).symm
  have htexts : shifted (texts k.held) = texts (shifted k.held) :=
    (map_shifted _ k.held).symm
  rw [comp_shiftEquiv, comp_shiftEquiv, howner, htexts] at hmoved
  simp only [hfree', Option.bind_eq_bind, Option.bind_some]
  refine setBuffer_spec
    hmoved (fun x text line _ hx ↦ ?_) h.kring h.kringnum
  rcases x with _ | n | n
  · exact h.fields _ text line hx
  · exact h.fields _ text line hx
  · simp only [Kills.shiftBuffers, shifted, shiftBuffers] at hx ⊢
    split at hx
    · rename_i hn
      rw [if_pos hn]
      exact h.fields _ text line hx
    · rename_i hn
      rw [if_neg hn]
      exact h.fields _ text line hx

theorem zeroCutbuf_spec (ch : ZleChars α)
    (howned : s.blocks.Owned (Function.update s.owner .cutbuf none)
      (Function.update (texts k.held) .cutbuf none))
    (h : ∀ x text line, x ≠ .cutbuf → k.held x = some (text, line) →
      (s.buffer x).len = text.length ∧ (s.buffer x).line = line)
    (hkring : s.kring = k.kring) (hkringnum : s.kringnum = k.kringnum) :
    ∃ t, s.zeroCutbuf ch = some t ∧ t.Represents (k.set .cutbuf [] false) := by
  obtain ⟨blocks, hwrite, hholds, hfresh, hother⟩ :=
    (Blocks.alloc_holds s.blocks 1).append [ch.nul] (by simp)
  have hbound : s.blocks.fresh < blocks.fresh := hfresh ▸ Nat.lt_succ_self _
  have htake := howned.take (Function.update_self _ _ _) hholds.front howned.fresh_block hbound
    (Nat.le_of_lt hbound) fun q hq ↦ (hother q hq).trans (Function.update_of_ne hq _ _)
  rw [Function.update_idem, Function.update_idem] at htake
  refine ⟨_, by rw [zeroCutbuf, ← length_nil, hwrite]; rfl, ?_⟩
  exact Represents.set h htake hkring hkringnum

/-- A table whose entry for an element of the ring has gone, with the entry of `cutbuf` there. -/
theorem comp_swap (f : KillSlot → Option β) (n : ℕ) :
    Function.update f (.kring n) none ∘ Equiv.swap (.kring n) .cutbuf =
      Function.update (Function.update f (.kring n) (f .cutbuf)) .cutbuf none := by
  funext x
  rcases x with _ | m | m
  · simp
  · by_cases hm : m = n
    · simp [hm]
    · simp [Equiv.swap_apply_of_ne_of_ne, hm]
  · simp [Equiv.swap_apply_of_ne_of_ne]

theorem pushRing_spec (ch : ZleChars α) (h : s.Represents k)
    (hheld : k.held .cutbuf = some (text, line)) :
    ∃ t, s.pushRing ch = some t ∧ t.Represents (k.pushRing text line) := by
  have hn : nextKringnum s.kring s.kringnum = nextKringnum k.kring k.kringnum := by
    rw [h.kring, h.kringnum]
  rw [pushRing, Kills.pushRing, ← hn]
  generalize nextKringnum s.kring s.kringnum = n
  obtain ⟨blocks, hfree, howned⟩ := h.owned.free (.kring n)
  have hfree' : freeBuffer { s with kring := true, kringnum := n } (.kring n) =
      some { s with blocks, kring := true, kringnum := n } := by
    rw [freeBuffer, show (s.buffer (.kring n)).buf = s.owner (.kring n) from rfl, hfree]
    rfl
  simp only [hfree', Option.bind_eq_bind, Option.bind_some]
  -- The element of the ring and `cutbuf` exchange what they have, and `cutbuf` has nothing now.
  have hmoved := howned.reindex (Equiv.swap (.kring n) .cutbuf)
  have htext : texts k.held .cutbuf = some text := by rw [texts, hheld]; rfl
  rw [comp_swap, comp_swap, htext, ← texts_update k.held (.kring n) text line] at hmoved
  have howner : (fun x ↦ (Function.update s.buffer (.kring n) (s.buffer .cutbuf) x).buf) =
      Function.update s.owner (.kring n) (s.owner .cutbuf) := owner_update _ _ _
  rw [← howner] at hmoved
  refine zeroCutbuf_spec ch hmoved ?_ rfl rfl
  intro x text' line' hx hheld'
  by_cases hxn : x = .kring n
  · rw [hxn, Kills.set_held_self, Option.some.injEq, Prod.mk.injEq] at hheld'
    rw [hxn, ← hheld'.1, ← hheld'.2]
    simpa using h.fields .cutbuf text line hheld
  · rw [Kills.set_held_of_ne _ hxn] at hheld'
    simpa [Function.update_of_ne hxn] using h.fields x text' line' hheld'

theorem newRun_spec (ch : ZleChars α) (h : s.Represents k) (c : KillCmd α) :
    ∃ t, s.newRun ch c = some t ∧ t.Represents (k.newRun c) := by
  unfold newRun Kills.newRun
  cases hheld : k.held .cutbuf with
  | none =>
    have hbuf := h.buf_eq_none.mpr hheld
    rw [hbuf]
    refine zeroCutbuf_spec ch ?_ (fun x text line _ ↦ h.fields x text line) h.kring h.kringnum
    have howner : s.owner .cutbuf = none := hbuf
    have htext : texts k.held .cutbuf = none := by rw [texts, hheld]; rfl
    have howned := h.owned
    rwa [← Function.update_eq_self KillSlot.cutbuf s.owner,
      ← Function.update_eq_self KillSlot.cutbuf (texts k.held), howner, htext] at howned
  | some pair =>
    obtain ⟨p, size, hbuf, hholds, hlen, hline⟩ := h.holds hheld
    rw [hbuf]
    dsimp only
    by_cases hnew : (!c.afterKill || c.cutReplace) = true
    · rw [if_pos hnew, if_pos hnew]
      exact pushRing_spec ch h hheld
    · rw [if_neg hnew, if_neg hnew]
      exact ⟨s, rfl, h⟩

/-- The two ways to make `cutbuf` longer, where its block is `p`. -/
theorem copy_spec (ch : ZleChars α) {blocks : Blocks α} {p size : ℕ}
    (hholds : blocks.Holds p size text) (hbound : p < blocks.fresh) (line : List α)
    (front : Bool) :
    ∃ b size', (if front then copyFront ch blocks p text.length line
        else copyBehind blocks p text.length line) = some b ∧
      b.Holds blocks.fresh size' (if front then line ++ text else text ++ line) ∧
      b.fresh = blocks.fresh + 1 ∧ b.block p = none ∧
      ∀ q, q ≠ p → q ≠ blocks.fresh → b.block q = blocks.block q := by
  have hne : p ≠ blocks.fresh := Nat.ne_of_lt hbound
  cases front with
  | true =>
    obtain ⟨b₁, hwrite₁, hholds₁, hfresh₁, hother₁⟩ :=
      (Blocks.alloc_holds blocks (text.length + line.length)).append line (by simp)
    have hp₁ : b₁.block p = blocks.block p :=
      (hother₁ p hne).trans (Function.update_of_ne hne _ _)
    have hread := (hholds.of_block_eq hp₁).read ch.nul
    obtain ⟨b₂, hwrite₂, hholds₂, hfresh₂, hother₂⟩ := hholds₁.append text (by simp; omega)
    have hp₂ : b₂.block p = blocks.block p := (hother₂ p hne).trans hp₁
    obtain ⟨rest, hblock, _⟩ := hholds
    refine ⟨⟨Function.update b₂.block p none, b₂.fresh⟩, text.length + line.length, ?_, ?_, ?_,
      Function.update_self _ _ _, fun q hq hfresh ↦ ?_⟩
    · have hfree : b₂.free (some p) = some ⟨Function.update b₂.block p none, b₂.fresh⟩ := by
        rw [Blocks.free, hp₂, hblock]
        rfl
      rw [length_nil] at hwrite₁
      rw [nil_append] at hwrite₂
      simp only [if_true, copyFront, hwrite₁, hread, hwrite₂, hfree, Option.bind_eq_bind,
        Option.bind_some]
    · exact hholds₂.of_block_eq (Function.update_of_ne hne.symm _ _)
    · exact hfresh₂.trans hfresh₁
    · refine (Function.update_of_ne hq _ _).trans ((hother₂ q hfresh).trans ?_)
      exact (hother₁ q hfresh).trans (Function.update_of_ne hfresh _ _)
  | false =>
    obtain ⟨b₁, hmove, hholds₁, hfresh₁, hgone₁, hother₁⟩ := hholds.realloc
      (text.length + max line.length 1) (by omega) hbound
    obtain ⟨b₂, hwrite₂, hholds₂, hfresh₂, hother₂⟩ := hholds₁.append line (by omega)
    refine ⟨b₂, _, ?_, hholds₂, hfresh₂.trans hfresh₁, (hother₂ p hne).trans hgone₁,
      fun q hq hfresh ↦ (hother₂ q hfresh).trans (hother₁ q hq hfresh)⟩
    simp only [Bool.false_eq_true, if_false, copyBehind, hmove, hwrite₂, Option.bind_eq_bind,
      Option.bind_some]

theorem extendCutbuf_spec (ch : ZleChars α) (h : s.Represents k) (c : KillCmd α) (hheld : k.held .cutbuf = some (text, line)) :
    ∃ p t, (s.buffer .cutbuf).buf = some p ∧ s.extendCutbuf ch p c = some t ∧
      t.Represents (k.extendCutbuf c) := by
  obtain ⟨p, size, hbuf, hholds, hlen, hline⟩ := h.holds hheld
  obtain ⟨b, size', hcopy, hnew, hfresh, hgone, hother⟩ :=
    copy_spec ch hholds (h.owned.bound hholds.isSome) c.line _
  have hown := h.owned.replace hbuf hnew hfresh hgone hother
  have hlength : (if c.cutFront || c.cutReplace then c.line ++ text else text ++ c.line).length =
      text.length + c.line.length := by
    split
    · rw [length_append, Nat.add_comm]
    · rw [length_append]
  refine ⟨p, _, hbuf, by rw [extendCutbuf, hlen, hcopy]; rfl, ?_⟩
  rw [Kills.extendCutbuf, hheld, ← hlength]
  exact Represents.set (fun x text line _ ↦ h.fields x text line) hown h.kring h.kringnum

theorem cuttext_spec (ch : ZleChars α) (h : s.Represents k) (c : KillCmd α) :
    ∃ t, s.cuttext ch c = some t ∧ t.Represents (k.cuttext ch c) := by
  unfold cuttext Kills.cuttext
  split
  · exact ⟨s, rfl, h⟩
  · obtain ⟨s₁, hvi, h₁⟩ := cutVi_spec ch h c
    obtain ⟨s₂, hrun, h₂⟩ := newRun_spec ch h₁ c
    obtain ⟨text, line, hheld⟩ : ∃ text line, ((k.cutVi ch c).newRun c).held .cutbuf =
        some (text, line) := by
      unfold Kills.newRun
      split
      · exact ⟨[], false, Kills.set_held_self _ _ _ _⟩
      · rename_i text line hcut
        split
        · exact ⟨[], false, Kills.set_held_self _ _ _ _⟩
        · exact ⟨text, line, hcut⟩
    obtain ⟨p, t, hbuf, hextend, ht⟩ := extendCutbuf_spec ch h₂ c hheld
    refine ⟨t, ?_, ht⟩
    simp only [hvi, hrun, hbuf, hextend, Option.bind_eq_bind, Option.bind_some]

end KillState

end Bsh.Shell
