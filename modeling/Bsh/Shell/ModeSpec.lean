import Bsh.Library.Demands
import Bsh.Shell.Brace
import Bsh.Shell.QuoteStyles

/-!
# Mode specifications of glob qualifiers

The qualifier `f` of a glob pattern is followed by a description of file modes: an octal number, or
a list of symbolic and octal sub-specs between delimiters.  `qgetmodespec` accumulates two masks
from it, the bits that have to be set and the bits that have to be clear, and `qualmodeflags` tests
the mode of a file with them.
-/

namespace Bsh.Shell

open Bsh.Library List

/-- The token `Equals`. -/
def equalsToken : UInt8 := 0x8D

/-- The token `Quest`. -/
def questToken : UInt8 := 0x97

/-- The tokens `Inang` and `Outang`. -/
def inangToken : UInt8 := 0x94
def outangToken : UInt8 := 0x95

/-! ## The parser -/

/-- The access bits of a mode, `07777`. -/
def accessBits : BitVec 64 := 0o7777

/-- `yes` and `no`. -/
structure ModeMasks where
  yes : BitVec 64
  no : BitVec 64
deriving DecidableEq

/-- How `qgetmodespec` fails: with a message, or by reading behind the null byte. -/
inductive ModeFault where
  | zerr (text : String)
  | overread
deriving DecidableEq

def invalidMode : ModeFault := .zerr "invalid mode specification"

/-- `c == '?' || c == Quest`. -/
def isQuest (c : UInt8) : Bool := c = char '?' || c = questToken

/-- `c >= '0' && c <= '7'`. -/
def isOctalDigit (c : UInt8) : Bool := char '0' ≤ c && c ≤ char '7'

/-- `c == '=' || c == Equals || c == '+' || c == '-'`. -/
def isHow (c : UInt8) : Bool :=
  c = char '=' || c = equalsToken || c = char '+' || c = char '-'

/-- What the letters in front of the operator add to `mask`. -/
def whoMask (c : UInt8) : Option (BitVec 64) :=
  if c = char 'o' then some 0o1007
  else if c = char 'g' then some 0o2070
  else if c = char 'u' then some 0o4700
  else if c = char 'a' then some accessBits
  else none

/-- The loop over the letters `u`, `g`, `o` and `a`; `finish` is `end`. -/
def takeWho (finish : UInt8) : Bytes → BitVec 64 → BitVec 64 × Bytes
  | [], mask => (mask, [])
  | c :: p, mask =>
    match whoMask c with
    | some m => if finish = 0 then (mask, c :: p) else takeWho finish p (mask ||| m)
    | none => (mask, c :: p)

/-- `how`. -/
inductive ModeHow where
  | equal
  | plus
  | minus
deriving DecidableEq

def modeHow (c : UInt8) : ModeHow :=
  if c = char '+' then .plus else if c = char '-' then .minus else .equal

/-- The value of an octal digit. -/
def octalValue (c : UInt8) : BitVec 64 := BitVec.ofNat 64 (c - char '0').toNat

/-- What the characters behind the operator add to `val`. -/
def permissionMask (c : UInt8) : Option (BitVec 64) :=
  if c = char 'x' then some 0o111
  else if c = char 'w' then some 0o222
  else if c = char 'r' then some 0o444
  else if c = char 's' then some 0o6000
  else if c = char 't' then some 0o1000
  else if isOctalDigit c then
    let t := octalValue c
    some (t ||| (t <<< 3) ||| (t <<< 6))
  else none

/-- The loop over the permissions: `val`, the character it stopped at and what follows that. -/
def takePermissions (finish : UInt8) :
    Bytes → BitVec 64 → Except ModeFault (BitVec 64 × UInt8 × Bytes)
  | [], _ => .error invalidMode
  | c :: p, val =>
    if c = char ',' ∨ c = finish then .ok (val, c, p)
    else match permissionMask c with
      | some m => takePermissions finish p (val ||| m)
      | none => .error invalidMode

/-- The loop over the digits of an octal number: `t`, `val` and what follows the number. -/
def takeOctal : Bytes → BitVec 64 → BitVec 64 → BitVec 64 × BitVec 64 × Bytes
  | [], t, val => (t, val, [])
  | c :: p, t, val =>
    if isQuest c then takeOctal p ((t <<< 3) ||| 7) (val <<< 3)
    else if isOctalDigit c then takeOctal p (t <<< 3) ((val <<< 3) ||| octalValue c)
    else (t, val, c :: p)

/-- A symbolic sub-spec behind its operator. -/
def symbolicMasks (finish : UInt8) (mask : BitVec 64) (how : ModeHow) (p : Bytes) (m : ModeMasks) :
    Except ModeFault (ModeMasks × UInt8 × Bytes) :=
  match takePermissions finish p 0 with
  | .error fault => .error fault
  | .ok (val, c, rest) =>
    let yes := if how = .minus then m.yes else m.yes ||| (val &&& mask)
    let val := if how = .minus then val else ~~~val
    let no := if how = .plus then m.no else m.no ||| (val &&& mask)
    .ok (⟨yes, no⟩, c, rest)

/-- An octal sub-spec behind its operator. -/
def octalMasks (finish : UInt8) (how : ModeHow) (p : Bytes) (m : ModeMasks) :
    Except ModeFault (ModeMasks × UInt8 × Bytes) :=
  let (t, val, rest) := takeOctal p accessBits 0
  let c := rest.headD 0
  if finish ≠ 0 ∧ c ≠ finish ∧ c ≠ char ',' then .error invalidMode
  else match how with
    | .equal => .ok (⟨(m.yes &&& ~~~t) ||| val, (m.no &&& ~~~t) ||| (~~~val &&& ~~~t)⟩, c, rest)
    | .plus => .ok (⟨m.yes ||| val, m.no⟩, c, rest)
    | .minus => .ok (⟨m.yes, m.no ||| val⟩, c, rest)

/-- One turn of the loop over the sub-specs: the masks, `c` and `p`. -/
def modeItem (finish : UInt8) (s : Bytes) (m : ModeMasks) :
    Except ModeFault (ModeMasks × UInt8 × Bytes) :=
  let (mask, p) := takeWho finish s 0
  let c := p.headD 0
  let behind := if isHow c then p.tail else p
  if mask ≠ 0 then symbolicMasks finish mask (modeHow c) behind m
  else if ¬ (finish ≠ 0 ∧ c = finish) ∧ c ≠ char ',' ∧ c ≠ 0 then
    octalMasks finish (modeHow c) behind m
  else .error invalidMode

/-- The loop over the sub-specs. -/
def modeItems (finish : UInt8) : ℕ → Bytes → ModeMasks → Except ModeFault (ModeMasks × Bytes)
  | 0, _, _ => .error invalidMode
  | turns + 1, s, m =>
    match modeItem finish s m with
    | .error fault => .error fault
    | .ok (m, c, p) =>
      if finish ≠ 0 ∧ c ≠ finish then modeItems finish turns p m else .ok (m, p)

/-- The characters that begin an octal number without delimiters. -/
def startsOctal (c : UInt8) : Bool := isHow c || isQuest c || isOctalDigit c

/-- The delimiter that closes what `c` opens. -/
def closingDelimiter (c : UInt8) : UInt8 :=
  if c = char '<' then char '>'
  else if c = char '[' then char ']'
  else if c = char '\x7b' then char '\x7d'
  else if c = inangToken then outangToken
  else if c = inbrackToken then outbrackToken
  else if c = inbraceToken then outbraceToken
  else c

/-- The masks as one number. -/
def ModeMasks.data (m : ModeMasks) : BitVec 64 :=
  (m.yes &&& accessBits) ||| ((m.no &&& accessBits) <<< 12)

/-- `qgetmodespec`: the masks and where the text goes on. -/
def qgetmodespec (s : Bytes) : Except ModeFault (BitVec 64 × Bytes) :=
  let items (finish : UInt8) (p : Bytes) :=
    match modeItems finish (p.length + 1) p ⟨0, 0⟩ with
    | .error fault => .error fault
    | .ok (m, rest) => .ok (m.data, rest)
  match s with
  | [] => .error .overread
  | c :: p => if startsOctal c then items 0 (c :: p) else items (closingDelimiter c) p

/-- `mode_to_octal`: the access bits of a mode as a number. -/
def modeToOctal (mode : BitVec 12) : BitVec 64 := mode.setWidth 64

/-- `qualmodeflags`. -/
def qualmodeflags (mode : BitVec 12) (data : BitVec 64) : Bool :=
  let v := modeToOctal mode
  let y := data &&& accessBits
  let n := data.sshiftRight 12
  v &&& y = y && v &&& n = 0

end Bsh.Shell

/-!
# What a mode specification demands

A sub-spec checks some bits of the mode of a file and gives each of them a value.  With `=` the
bits have to be as given, with `+` those given as set have to be set, with `-` they have to be
clear.  A file passes when it passes every sub-spec.  The masks of `qgetmodespec` mean that for a
list of symbolic sub-specs, but an octal sub-spec is only read as the last of a list, and with `=`
it makes the masks forget what the sub-specs before it demand of the bits it does not check.
-/

namespace Bsh.Shell

open Bsh.Library List

/-! ## Well-formed specifications -/

/-- `+`, `-` or nothing of these, which is as `=`. -/
def isModeDigit (c : UInt8) : Bool := isQuest c || isOctalDigit c

/-- The letters for the owner, the group, the others and all of them. -/
def isWho (c : UInt8) : Bool := c = char 'u' || c = char 'g' || c = char 'o' || c = char 'a'

/-- The letters of access rights and the octal digits. -/
def isPermission (c : UInt8) : Bool :=
  c = char 'r' || c = char 'w' || c = char 'x' || c = char 's' || c = char 't' || isOctalDigit c

/-- An octal number with unknown digits, and with an operator or without. -/
structure OctalSpec where
  how : Option UInt8
  digits : Bytes
  isHow_of_mem : ∀ c ∈ how, isHow c = true
  digits_ne_nil : digits ≠ []
  isModeDigit_of_mem : ∀ c ∈ digits, isModeDigit c = true

/-- Whose rights are checked, the operator, and the rights. -/
structure SymbolicSpec where
  who : Bytes
  how : UInt8
  permissions : Bytes
  who_ne_nil : who ≠ []
  isWho_of_mem : ∀ c ∈ who, isWho c = true
  isHow_how : isHow how = true
  isPermission_of_mem : ∀ c ∈ permissions, isPermission c = true

inductive SubSpec where
  | octal (s : OctalSpec)
  | symbolic (s : SymbolicSpec)

namespace SubSpec

/-- How a sub-spec is written. -/
def text : SubSpec → Bytes
  | octal s => s.how.toList ++ s.digits
  | symbolic s => s.who ++ s.how :: s.permissions

/-- The operator. -/
def how : SubSpec → ModeHow
  | octal s => s.how.elim .equal modeHow
  | symbolic s => modeHow s.how

/-! ## Their meaning -/

/-- The bits of a mode that a letter in front of the operator stands for: the rights of the owner
and the setuid bit, those of the group and the setgid bit, those of the others and the sticky bit. -/
def whoBits (c : UInt8) : List ℕ :=
  if c = char 'u' then [6, 7, 8, 11]
  else if c = char 'g' then [3, 4, 5, 10]
  else if c = char 'o' then [0, 1, 2, 9]
  else [0, 1, 2, 3, 4, 5, 6, 7, 8, 9, 10, 11]

/-- Whether a bit belongs to the right that a letter behind the operator names. -/
def permits (c : UInt8) (i : ℕ) : Bool :=
  if c = char 'r' then decide (i ∈ [2, 5, 8])
  else if c = char 'w' then decide (i ∈ [1, 4, 7])
  else if c = char 'x' then decide (i ∈ [0, 3, 6])
  else if c = char 's' then decide (i ∈ [10, 11])
  else if c = char 't' then decide (i ∈ [9])
  else decide (i < 9) && (c - char '0').toNat.testBit (i % 3)

/-- The digit of an octal number that a bit belongs to. -/
def digitAt (digits : Bytes) (i : ℕ) : Option UInt8 := digits.reverse[i / 3]?

/-- The bits that are checked: those of the known digits, or of the classes that are named. -/
def checked : SubSpec → ℕ → Bool
  | octal s, i => (digitAt s.digits i).any isOctalDigit
  | symbolic s, i => s.who.any fun c ↦ decide (i ∈ whoBits c)

/-- The value that is given for a bit. -/
def value : SubSpec → ℕ → Bool
  | octal s, i => (digitAt s.digits i).any fun c ↦
      isOctalDigit c && (c - char '0').toNat.testBit (i % 3)
  | symbolic s, i => s.permissions.any fun c ↦ permits c i

/-- What one sub-spec accepts. -/
def Accepts (s : SubSpec) (mode : BitVec 12) : Prop :=
  match s.how with
  | .equal => ∀ i, s.checked i = true → mode.getLsbD i = s.value i
  | .plus => ∀ i, s.checked i = true → s.value i = true → mode.getLsbD i = true
  | .minus => ∀ i, s.checked i = true → s.value i = true → mode.getLsbD i = false

/-- The bits that a sub-spec asks to be set and to be clear. -/
def demands (s : SubSpec) : Demands ℕ where
  present := {i | s.checked i = true ∧ s.value i = true ∧ s.how ≠ .minus}
  absent := {i | s.checked i = true ∧
    (s.value i = true ∧ s.how = .minus ∨ s.value i = false ∧ s.how = .equal)}

end SubSpec

theorem SubSpec.accepts_iff (s : SubSpec) (mode : BitVec 12) :
    s.Accepts mode ↔ s.demands.Meets (Demands.bits mode) := by
  have hnot (i : ℕ) : i ∉ Demands.bits mode ↔ mode.getLsbD i = false := by
    rw [Demands.mem_bits, Bool.not_eq_true]
  rw [Accepts, Demands.Meets]
  cases hhow : s.how with
  | equal =>
    constructor
    · intro h
      constructor
      · intro i hi
        exact (h i hi.1).trans hi.2.1
      · intro i hi
        obtain ⟨hchecked, ⟨-, hminus⟩ | ⟨hvalue, -⟩⟩ := hi
        · rw [hhow] at hminus
          cases hminus
        · exact (hnot i).mpr ((h i hchecked).trans hvalue)
    · intro h i hchecked
      cases hvalue : s.value i with
      | true => exact h.1 ⟨hchecked, hvalue, fun hminus ↦ by rw [hhow] at hminus; cases hminus⟩
      | false => exact (hnot i).mp (h.2 i ⟨hchecked, .inr ⟨hvalue, hhow⟩⟩)
  | plus =>
    constructor
    · intro h
      constructor
      · intro i hi
        exact h i hi.1 hi.2.1
      · intro i hi
        obtain ⟨-, ⟨-, hminus⟩ | ⟨-, hequal⟩⟩ := hi
        · rw [hhow] at hminus
          cases hminus
        · rw [hhow] at hequal
          cases hequal
    · intro h i hchecked hvalue
      exact h.1 ⟨hchecked, hvalue, fun hminus ↦ by rw [hhow] at hminus; cases hminus⟩
  | minus =>
    constructor
    · intro h
      constructor
      · intro i hi
        exact absurd hhow hi.2.2
      · intro i hi
        obtain ⟨hchecked, ⟨hvalue, -⟩ | ⟨-, hequal⟩⟩ := hi
        · exact (hnot i).mpr (h i hchecked hvalue)
        · rw [hhow] at hequal
          cases hequal
    · intro h i hchecked hvalue
      exact (hnot i).mp (h.2 i ⟨hchecked, .inl ⟨hvalue, hhow⟩⟩)

/-! ## The masks -/

/-- The places of the bits of a mode. -/
def modeDomain : Set ℕ := {i | i < 12}

/-- What masks demand of a mode. -/
def ModeMasks.demands (m : ModeMasks) : Demands ℕ :=
  (⟨Demands.bits m.yes, Demands.bits m.no⟩ : Demands ℕ).on modeDomain

theorem accessBits_bit (i : ℕ) : accessBits.getLsbD i = decide (i < 12) := by
  have htest : accessBits.getLsbD i = (2 ^ 12 - 1).testBit i := by
    rfl
  rw [htest, Nat.testBit_two_pow_sub_one]

theorem data_low (m : ModeMasks) {i : ℕ} (hi : i < 12) : m.data.getLsbD i = m.yes.getLsbD i := by
  rw [ModeMasks.data, BitVec.getLsbD_or, BitVec.getLsbD_and, accessBits_bit, BitVec.getLsbD_shiftLeft]
  simp [hi]

theorem data_high (m : ModeMasks) (i : ℕ) :
    m.data.getLsbD (12 + i) = (decide (i < 12) && m.no.getLsbD i) := by
  rw [ModeMasks.data, BitVec.getLsbD_or, BitVec.getLsbD_and, accessBits_bit,
    BitVec.getLsbD_shiftLeft, Nat.add_sub_cancel_left, BitVec.getLsbD_and, accessBits_bit]
  by_cases hi : i < 12
  · have hfits : 12 + i < 64 := by omega
    simp [hi, hfits]
  · simp [hi]

theorem qualmodeflags_iff (mode : BitVec 12) (m : ModeMasks) :
    qualmodeflags mode m.data = true ↔ m.demands.Meets (Demands.bits mode) := by
  have hmode : Demands.bits (modeToOctal mode) = Demands.bits mode := by
    ext i
    rw [Demands.mem_bits, Demands.mem_bits, modeToOctal, BitVec.getLsbD_setWidth]
    constructor
    · intro h
      exact (Bool.and_eq_true _ _ |>.mp h).2
    · intro h
      have hi := BitVec.lt_of_getLsbD h
      rw [h, Bool.and_true, decide_eq_true_eq]
      omega
  have hyes : Demands.bits (m.data &&& accessBits) = m.demands.present := by
    ext i
    rw [Demands.mem_bits, BitVec.getLsbD_and, accessBits_bit]
    by_cases hi : i < 12
    · rw [data_low m hi]
      simp [ModeMasks.demands, Demands.on, modeDomain, hi]
    · simp [ModeMasks.demands, Demands.on, modeDomain, hi]
  have hmsb : m.data.msb = false := by
    exact data_high m 51
  have hno : Demands.bits (m.data.sshiftRight 12) = m.demands.absent := by
    ext i
    rw [Demands.mem_bits, BitVec.sshiftRight_eq_of_msb_false hmsb, BitVec.getLsbD_ushiftRight,
      data_high]
    simp [ModeMasks.demands, Demands.on, modeDomain, and_comm]
  rw [qualmodeflags, Bool.and_eq_true, decide_eq_true_eq, decide_eq_true_eq,
    Demands.and_eq_right_iff, Demands.and_eq_zero_iff, hmode, hyes, hno, Demands.Meets]

end Bsh.Shell

/-!
# The masks of a mode specification

One turn of the loop of `qgetmodespec` reads one sub-spec and adds what it demands to the masks.
An octal sub-spec with `=` keeps the earlier demands only on the bits that it checks, and it leaves
the comma behind it for the next turn, which refuses it.
-/

namespace Bsh.Shell

open Bsh.Library List

/-! ## Characters -/

variable {c finish stop : UInt8} {i : ℕ}

theorem who_cases (h : isWho c = true) :
    c = char 'u' ∨ c = char 'g' ∨ c = char 'o' ∨ c = char 'a' := by
  simpa [isWho, or_assoc] using h

set_option maxRecDepth 4000 in
theorem whoMask_eq_none : ∀ c, isWho c = false → whoMask c = none :=
  Bytes.forall_byte (by decide)

theorem bit_lt {x : BitVec 64} (h : x.getLsbD i = true) : i < 64 := BitVec.lt_of_getLsbD h

theorem bits_eq {x : BitVec 64} {p : ℕ → Bool} (hp : ∀ i, p i = true → i < 64)
    (h : ∀ i < 64, x.getLsbD i = p i) : Demands.bits x = {i | p i = true} := by
  ext i
  constructor
  · intro hbit
    exact (h i (bit_lt hbit)).symm.trans hbit
  · intro hbit
    exact (h i (hp i hbit)).trans hbit

theorem whoBits_lt (h : decide (i ∈ SubSpec.whoBits c) = true) : i < 12 := by
  unfold SubSpec.whoBits at h
  repeat' split at h
  all_goals simp at h; omega

theorem whoMask_bits (h : isWho c = true) :
    ∃ m, whoMask c = some m ∧
      Demands.bits m = {i | decide (i ∈ SubSpec.whoBits c) = true} := by
  have hlt (c : UInt8) (i : ℕ) (hi : decide (i ∈ SubSpec.whoBits c) = true) : i < 64 :=
    (whoBits_lt hi).trans (by decide)
  obtain rfl | rfl | rfl | rfl := who_cases h
  · exact ⟨_, rfl, bits_eq (hlt _) (by decide)⟩
  · exact ⟨_, rfl, bits_eq (hlt _) (by decide)⟩
  · exact ⟨_, rfl, bits_eq (hlt _) (by decide)⟩
  · exact ⟨_, rfl, bits_eq (hlt _) (by decide)⟩

theorem permits_lt (h : SubSpec.permits c i = true) : i < 12 := by
  unfold SubSpec.permits at h
  repeat' split at h
  all_goals simp at h; omega

theorem permission_cases (h : isPermission c = true) :
    c = char 'r' ∨ c = char 'w' ∨ c = char 'x' ∨ c = char 's' ∨ c = char 't' ∨
      isOctalDigit c = true := by
  simpa [isPermission, or_assoc] using h

set_option maxRecDepth 4000 in
theorem octalDigit_cases : ∀ c, isOctalDigit c = true →
    c = char '0' ∨ c = char '1' ∨ c = char '2' ∨ c = char '3' ∨ c = char '4' ∨ c = char '5' ∨
      c = char '6' ∨ c = char '7' :=
  Bytes.forall_byte (by decide)

theorem permissionMask_bits (h : isPermission c = true) :
    ∃ m, permissionMask c = some m ∧ Demands.bits m = {i | SubSpec.permits c i = true} := by
  have hlt (c : UInt8) (i : ℕ) (hi : SubSpec.permits c i = true) : i < 64 :=
    (permits_lt hi).trans (by decide)
  obtain rfl | rfl | rfl | rfl | rfl | hdigit := permission_cases h
  · exact ⟨_, rfl, bits_eq (hlt _) (by decide)⟩
  · exact ⟨_, rfl, bits_eq (hlt _) (by decide)⟩
  · exact ⟨_, rfl, bits_eq (hlt _) (by decide)⟩
  · exact ⟨_, rfl, bits_eq (hlt _) (by decide)⟩
  · exact ⟨_, rfl, bits_eq (hlt _) (by decide)⟩
  · obtain rfl | rfl | rfl | rfl | rfl | rfl | rfl | rfl := octalDigit_cases c hdigit
    all_goals exact ⟨_, rfl, bits_eq (hlt _) (by decide)⟩

/-! ## The loops over letters and digits -/

theorem bits_or (x y : BitVec 64) : Demands.bits (x ||| y) = Demands.bits x ∪ Demands.bits y := by
  ext i
  rw [Demands.mem_bits, BitVec.getLsbD_or, Bool.or_eq_true]
  rfl

theorem takeWho_append (hfinish : finish ≠ 0) {who : Bytes}
    (hwho : ∀ c ∈ who, isWho c = true) (hc : isWho c = false) (rest : Bytes)
    (mask : BitVec 64) :
    ∃ mask', takeWho finish (who ++ c :: rest) mask = (mask', c :: rest) ∧
      Demands.bits mask' = Demands.bits mask ∪
        {i | (who.any fun c ↦ decide (i ∈ SubSpec.whoBits c)) = true} := by
  induction who generalizing mask with
  | nil =>
    refine ⟨mask, ?_, ?_⟩
    · rw [nil_append, takeWho, whoMask_eq_none c hc]
    · simp
  | cons d who ih =>
    obtain ⟨m, hm, hbits⟩ := whoMask_bits (hwho d mem_cons_self)
    obtain ⟨mask', htake, hmask'⟩ := ih (fun e he ↦ hwho e (mem_cons_of_mem _ he)) (mask ||| m)
    refine ⟨mask', ?_, ?_⟩
    · rw [cons_append, takeWho, hm]
      dsimp only
      rw [if_neg hfinish, htake]
    · rw [hmask', bits_or, hbits, Set.union_assoc]
      ext i
      simp

theorem takeWho_none (hc : isWho c = false) (finish : UInt8) (rest : Bytes) :
    takeWho finish (c :: rest) 0 = (0, c :: rest) := by
  rw [takeWho, whoMask_eq_none c hc]

set_option maxRecDepth 4000 in
theorem permission_ne_comma : ∀ c, isPermission c = true → c ≠ char ',' :=
  Bytes.forall_byte (by decide)

theorem takePermissions_append {permissions : Bytes}
    (hpermissions : ∀ c ∈ permissions, isPermission c = true) (hfinish : finish ∉ permissions) (hstop : stop = char ',' ∨ stop = finish) (rest : Bytes) (val : BitVec 64) :
    ∃ val', takePermissions finish (permissions ++ stop :: rest) val = .ok (val', stop, rest) ∧
      Demands.bits val' = Demands.bits val ∪
        {i | (permissions.any fun c ↦ SubSpec.permits c i) = true} := by
  induction permissions generalizing val with
  | nil =>
    refine ⟨val, ?_, ?_⟩
    · rw [nil_append, takePermissions, if_pos hstop]
    · simp
  | cons d permissions ih =>
    have hd := hpermissions d mem_cons_self
    obtain ⟨m, hm, hbits⟩ := permissionMask_bits hd
    obtain ⟨val', htake, hval'⟩ := ih (fun e he ↦ hpermissions e (mem_cons_of_mem _ he))
      (fun he ↦ hfinish (mem_cons_of_mem _ he)) (val ||| m)
    refine ⟨val', ?_, ?_⟩
    · have hgoes : ¬ (d = char ',' ∨ d = finish) := by
        rintro (hcomma | hend)
        · exact permission_ne_comma d hd hcomma
        · exact hfinish (hend ▸ mem_cons_self)
      rw [cons_append, takePermissions, if_neg hgoes, hm]
      exact htake
    · rw [hval', bits_or, hbits, Set.union_assoc]
      ext i
      simp

theorem digitAt_append (digits : Bytes) (c : UInt8) (i : ℕ) :
    SubSpec.digitAt (digits ++ [c]) i =
      if i < 3 then some c else SubSpec.digitAt digits (i - 3) := by
  rw [SubSpec.digitAt, SubSpec.digitAt, reverse_append, reverse_singleton,
    singleton_append]
  by_cases hi : i < 3
  · have hzero : i / 3 = 0 := Nat.div_eq_of_lt hi
    rw [if_pos hi, hzero, List.getElem?_cons_zero]
  · have hsucc : i / 3 = (i - 3) / 3 + 1 := by omega
    rw [if_neg hi, hsucc, List.getElem?_cons_succ]

/-- The bits of `val` and of `t` behind some digits. -/
structure OctalRead (digits : Bytes) (t val : BitVec 64) : Prop where
  unchecked : ∀ i < 12, t.getLsbD i = !(SubSpec.digitAt digits i).any isOctalDigit
  value : ∀ i < 64, val.getLsbD i = (SubSpec.digitAt digits i).any fun c ↦
    isOctalDigit c && (c - char '0').toNat.testBit (i % 3)

theorem octalRead_nil : OctalRead [] accessBits 0 where
  unchecked i hi := by
    rw [accessBits_bit]
    simpa [SubSpec.digitAt] using hi
  value i _ := by simp [SubSpec.digitAt]

theorem seven_bit (i : ℕ) : (7 : BitVec 64).getLsbD i = decide (i < 3) := by
  have htest : (7 : BitVec 64).getLsbD i = (2 ^ 3 - 1).testBit i := by
    rfl
  rw [htest, Nat.testBit_two_pow_sub_one]

set_option maxRecDepth 4000 in
theorem octalDigit_lt : ∀ c, isOctalDigit c = true → (c - char '0').toNat < 2 ^ 3 :=
  Bytes.forall_byte (by decide)

set_option maxRecDepth 4000 in
theorem not_octalDigit_of_quest : ∀ c, isQuest c = true → isOctalDigit c = false :=
  Bytes.forall_byte (by decide)

theorem octalValue_bit (hc : isOctalDigit c = true) (i : ℕ) :
    (octalValue c).getLsbD i = (decide (i < 3) && (c - char '0').toNat.testBit (i % 3)) := by
  have hlt := octalDigit_lt c hc
  rw [octalValue, BitVec.getLsbD_ofNat]
  by_cases hi : i < 3
  · have hfits : i < 64 := by omega
    simp [hi, hfits, Nat.mod_eq_of_lt hi]
  · have hzero : (c - char '0').toNat.testBit i = false :=
      Nat.testBit_lt_two_pow (hlt.trans_le (Nat.pow_le_pow_right (by decide) (by omega)))
    simp [hi, hzero]

variable {digits : Bytes} {t val : BitVec 64}

theorem OctalRead.quest (h : OctalRead digits t val) (hc : isQuest c = true) :
    OctalRead (digits ++ [c]) ((t <<< 3) ||| 7) (val <<< 3) where
  unchecked i hi := by
    have hplain := not_octalDigit_of_quest c hc
    rw [BitVec.getLsbD_or, BitVec.getLsbD_shiftLeft, seven_bit, digitAt_append]
    by_cases hlow : i < 3
    · simp [hlow, hplain]
    · have hfits : i < 64 := by omega
      rw [h.unchecked (i - 3) (by omega), if_neg hlow]
      simp [hlow, hfits]
  value i hi := by
    have hplain := not_octalDigit_of_quest c hc
    rw [BitVec.getLsbD_shiftLeft, digitAt_append]
    by_cases hlow : i < 3
    · simp [hlow, hplain]
    · have hmod : (i - 3) % 3 = i % 3 := by omega
      rw [h.value (i - 3) (by omega), if_neg hlow, hmod]
      simp [hlow, hi]

theorem OctalRead.digit (h : OctalRead digits t val) (hc : isOctalDigit c = true) :
    OctalRead (digits ++ [c]) (t <<< 3) ((val <<< 3) ||| octalValue c) where
  unchecked i hi := by
    rw [BitVec.getLsbD_shiftLeft, digitAt_append]
    by_cases hlow : i < 3
    · simp [hlow, hc]
    · have hfits : i < 64 := by omega
      rw [h.unchecked (i - 3) (by omega), if_neg hlow]
      simp [hlow, hfits]
  value i hi := by
    rw [BitVec.getLsbD_or, BitVec.getLsbD_shiftLeft, octalValue_bit hc, digitAt_append]
    by_cases hlow : i < 3
    · simp [hlow, hc]
    · have hmod : (i - 3) % 3 = i % 3 := by omega
      rw [h.value (i - 3) (by omega), if_neg hlow, hmod]
      simp [hlow, hi]

/-- The loop over the digits reads all of them. -/
theorem OctalRead.takeOctal (h : OctalRead digits t val) {more rest : Bytes}
    (hmore : ∀ c ∈ more, isModeDigit c = true) (hrest : rest.head?.any isModeDigit = false) :
    ∃ t' val', takeOctal (more ++ rest) t val = (t', val', rest) ∧
      OctalRead (digits ++ more) t' val' := by
  induction more generalizing digits t val with
  | nil =>
    refine ⟨t, val, ?_, by rwa [append_nil]⟩
    rw [nil_append]
    cases rest with
    | nil => rfl
    | cons c rest =>
      have hc : isModeDigit c = false := hrest
      rw [isModeDigit, Bool.or_eq_false_iff] at hc
      rw [Shell.takeOctal, if_neg (by rw [hc.1]; exact Bool.false_ne_true),
        if_neg (by rw [hc.2]; exact Bool.false_ne_true)]
  | cons c more ih =>
    have hc := hmore c mem_cons_self
    have hmore' := fun d hd ↦ hmore d (mem_cons_of_mem _ hd)
    have hsplit : digits ++ c :: more = digits ++ [c] ++ more := by simp
    rw [hsplit, cons_append, Shell.takeOctal]
    by_cases hquest : isQuest c = true
    · rw [if_pos hquest]
      exact ih (h.quest hquest) hmore'
    · have hdigit : isOctalDigit c = true := by
        rw [isModeDigit, Bool.or_eq_true] at hc
        exact hc.resolve_left hquest
      rw [if_neg hquest, if_pos hdigit]
      exact ih (h.digit hdigit) hmore'

/-! ## One sub-spec -/

/-- The bits whose earlier demands a sub-spec leaves alone. -/
def SubSpec.leaves : SubSpec → Set ℕ
  | octal s => {i | (octal s).how = .equal → (octal s).checked i = true}
  | symbolic _ => Set.univ

/-- The demands behind a sub-spec. -/
def demandsAfter (d : Demands ℕ) (s : SubSpec) : Demands ℕ :=
  (d.on s.leaves).join (s.demands.on modeDomain)

theorem inter_modeDomain_eq {old new added kept : Set ℕ}
    (h : ∀ i < 12, i ∈ new ↔ i ∈ old ∧ i ∈ kept ∨ i ∈ added) :
    new ∩ modeDomain = old ∩ modeDomain ∩ kept ∪ added ∩ modeDomain := by
  ext i
  constructor
  · intro hi
    obtain hold | hadded := (h i hi.2).mp hi.1
    · exact .inl ⟨⟨hold.1, hi.2⟩, hold.2⟩
    · exact .inr ⟨hadded, hi.2⟩
  · intro hi
    cases hi with
    | inl hold => exact ⟨(h i hold.1.2).mpr (.inl ⟨hold.1.1, hold.2⟩), hold.1.2⟩
    | inr hadded => exact ⟨(h i hadded.2).mpr (.inr hadded.1), hadded.2⟩

theorem demandsAfter_of_bits {m m' : ModeMasks} {s : SubSpec}
    (hyes : ∀ i < 12, m'.yes.getLsbD i = true ↔
      m.yes.getLsbD i = true ∧ i ∈ s.leaves ∨ i ∈ s.demands.present)
    (hno : ∀ i < 12, m'.no.getLsbD i = true ↔
      m.no.getLsbD i = true ∧ i ∈ s.leaves ∨ i ∈ s.demands.absent) :
    m'.demands = demandsAfter m.demands s :=
  Demands.ext (inter_modeDomain_eq hyes) (inter_modeDomain_eq hno)

theorem symbolicMasks_append (s : SymbolicSpec) (hfinish : finish ∉ s.permissions) (hstop : stop = char ',' ∨ stop = finish) (rest : Bytes) {mask : BitVec 64}
    (hmask : Demands.bits mask = {i | (SubSpec.symbolic s).checked i = true}) (m : ModeMasks) :
    ∃ m', symbolicMasks finish mask (modeHow s.how) (s.permissions ++ stop :: rest) m =
        .ok (m', stop, rest) ∧
      m'.demands = demandsAfter m.demands (.symbolic s) := by
  obtain ⟨val, htake, hval⟩ :=
    takePermissions_append s.isPermission_of_mem hfinish hstop rest 0
  have hmask (i : ℕ) : mask.getLsbD i = (SubSpec.symbolic s).checked i :=
    Bool.eq_iff_iff.mpr (Set.ext_iff.mp hmask i)
  have hval (i : ℕ) : val.getLsbD i = (SubSpec.symbolic s).value i := by
    apply Bool.eq_iff_iff.mpr
    have hi := Set.ext_iff.mp hval i
    rw [Demands.mem_bits] at hi
    rw [hi]
    simp [SubSpec.value]
  rw [symbolicMasks, htake]
  refine ⟨_, rfl, demandsAfter_of_bits (fun i hi ↦ ?_) fun i hi ↦ ?_⟩
  · change _ ↔ _ ∧ True ∨ (SubSpec.symbolic s).checked i = true ∧
      (SubSpec.symbolic s).value i = true ∧ modeHow s.how ≠ .minus
    rw [← hmask i, ← hval i]
    cases modeHow s.how <;> simp [and_comm]
  · have hfits : i < 64 := by omega
    change _ ↔ _ ∧ True ∨ (SubSpec.symbolic s).checked i = true ∧
      ((SubSpec.symbolic s).value i = true ∧ modeHow s.how = .minus ∨
        (SubSpec.symbolic s).value i = false ∧ modeHow s.how = .equal)
    rw [← hmask i, ← hval i]
    cases modeHow s.how <;> simp [hfits, and_comm]

theorem octalMasks_append (s : OctalSpec) {rest : Bytes}
    (hrest : rest.head?.any isModeDigit = false)
    (hstop : finish ≠ 0 → rest.headD 0 = finish ∨ rest.headD 0 = char ',') (m : ModeMasks) :
    ∃ m', octalMasks finish (SubSpec.octal s).how (s.digits ++ rest) m =
        .ok (m', rest.headD 0, rest) ∧
      m'.demands = demandsAfter m.demands (.octal s) := by
  obtain ⟨t, val, htake, hread⟩ := octalRead_nil.takeOctal s.isModeDigit_of_mem hrest
  rw [nil_append] at hread
  have hgoes : ¬ (finish ≠ 0 ∧ rest.headD 0 ≠ finish ∧ rest.headD 0 ≠ char ',') :=
    fun h ↦ (hstop h.1).elim h.2.1 h.2.2
  have hchecked {i : ℕ} (h : (SubSpec.octal s).value i = true) :
      (SubSpec.octal s).checked i = true := by
    obtain ⟨c, hc, hbit⟩ := Option.any_eq_true _ _ |>.mp h
    exact Option.any_eq_true _ _ |>.mpr ⟨c, hc, (Bool.and_eq_true _ _ |>.mp hbit).1⟩
  have ht {i : ℕ} (hi : i < 12) : t.getLsbD i = !(SubSpec.octal s).checked i := hread.unchecked i hi
  have hval {i : ℕ} (hi : i < 64) : val.getLsbD i = (SubSpec.octal s).value i := hread.value i hi
  rw [octalMasks, htake]
  dsimp only
  rw [if_neg hgoes]
  cases hhow : (SubSpec.octal s).how with
  | equal =>
    refine ⟨_, rfl, demandsAfter_of_bits (fun i hi ↦ ?_) fun i hi ↦ ?_⟩
    · have hfits : i < 64 := by omega
      change _ ↔ _ ∧ (_ → (SubSpec.octal s).checked i = true) ∨ (SubSpec.octal s).checked i = true ∧
        (SubSpec.octal s).value i = true ∧ (SubSpec.octal s).how ≠ .minus
      rw [BitVec.getLsbD_or, BitVec.getLsbD_and, BitVec.getLsbD_not, ht hi, hval hfits, hhow]
      have himp := @hchecked i
      simp [hfits]
      tauto
    · have hfits : i < 64 := by omega
      change _ ↔ _ ∧ (_ → (SubSpec.octal s).checked i = true) ∨ (SubSpec.octal s).checked i = true ∧
        ((SubSpec.octal s).value i = true ∧ (SubSpec.octal s).how = .minus ∨
          (SubSpec.octal s).value i = false ∧ (SubSpec.octal s).how = .equal)
      rw [BitVec.getLsbD_or, BitVec.getLsbD_and, BitVec.getLsbD_and, BitVec.getLsbD_not,
        BitVec.getLsbD_not, ht hi, hval hfits, hhow]
      simp [hfits]
      tauto
  | plus =>
    refine ⟨_, rfl, demandsAfter_of_bits (fun i hi ↦ ?_) fun i hi ↦ ?_⟩
    · have hfits : i < 64 := by omega
      change _ ↔ _ ∧ ((SubSpec.octal s).how = .equal → _) ∨ (SubSpec.octal s).checked i = true ∧
        (SubSpec.octal s).value i = true ∧ (SubSpec.octal s).how ≠ .minus
      rw [BitVec.getLsbD_or, hval hfits, hhow]
      have himp := @hchecked i
      simp
      tauto
    · change _ ↔ _ ∧ ((SubSpec.octal s).how = .equal → _) ∨ _ ∧
        (_ ∧ (SubSpec.octal s).how = .minus ∨ _ ∧ (SubSpec.octal s).how = .equal)
      rw [hhow]
      simp
  | minus =>
    refine ⟨_, rfl, demandsAfter_of_bits (fun i hi ↦ ?_) fun i hi ↦ ?_⟩
    · change _ ↔ _ ∧ ((SubSpec.octal s).how = .equal → _) ∨ _ ∧ _ ∧ (SubSpec.octal s).how ≠ .minus
      rw [hhow]
      simp
    · have hfits : i < 64 := by omega
      change _ ↔ _ ∧ ((SubSpec.octal s).how = .equal → _) ∨ (SubSpec.octal s).checked i = true ∧
        ((SubSpec.octal s).value i = true ∧ (SubSpec.octal s).how = .minus ∨
          _ ∧ (SubSpec.octal s).how = .equal)
      rw [BitVec.getLsbD_or, hval hfits, hhow]
      have himp := @hchecked i
      simp
      tauto

set_option maxRecDepth 4000 in
theorem modeDigit_plain : ∀ c, isModeDigit c = true →
    isWho c = false ∧ isHow c = false ∧ modeHow c = .equal ∧ c ≠ char ',' ∧ c ≠ 0 :=
  Bytes.forall_byte (by decide)

set_option maxRecDepth 4000 in
theorem how_plain : ∀ c, isHow c = true → isWho c = false ∧ c ≠ char ',' ∧ c ≠ 0 :=
  Bytes.forall_byte (by decide)

theorem modeItem_eq {s : Bytes} {mask : BitVec 64} {p : Bytes}
    (h : takeWho finish s 0 = (mask, c :: p)) (m : ModeMasks) :
    modeItem finish s m =
      if mask ≠ 0 then
        symbolicMasks finish mask (modeHow c) (if isHow c then p else c :: p) m
      else if ¬ (finish ≠ 0 ∧ c = finish) ∧ c ≠ char ',' ∧ c ≠ 0 then
        octalMasks finish (modeHow c) (if isHow c then p else c :: p) m
      else .error invalidMode := by
  rw [modeItem, h]
  rfl

theorem modeItem_octal (s : OctalSpec) (hfinish : finish ∉ (SubSpec.octal s).text)
    {rest : Bytes} (hrest : rest.head?.any isModeDigit = false)
    (hstop : finish ≠ 0 → rest.headD 0 = finish ∨ rest.headD 0 = char ',') (m : ModeMasks) :
    ∃ m', modeItem finish ((SubSpec.octal s).text ++ rest) m = .ok (m', rest.headD 0, rest) ∧
      m'.demands = demandsAfter m.demands (.octal s) := by
  obtain ⟨m', hmasks, hdemands⟩ := octalMasks_append s hrest hstop m
  refine ⟨m', ?_, hdemands⟩
  have hzero : ¬ (0 : BitVec 64) ≠ 0 := fun h ↦ h rfl
  have htext : (SubSpec.octal s).text = s.how.toList ++ s.digits := rfl
  rw [htext] at hfinish ⊢
  cases hhow : s.how with
  | some h =>
    rw [hhow] at hfinish
    have hh := s.isHow_of_mem h hhow
    obtain ⟨hwho, hcomma, hnull⟩ := how_plain h hh
    have hend : h ≠ finish := fun heq ↦ hfinish (heq ▸ mem_cons_self)
    have hsame : (SubSpec.octal s).how = modeHow h := by
      change s.how.elim .equal modeHow = modeHow h
      rw [hhow]
      rfl
    rw [Option.toList_some, singleton_append, cons_append,
      modeItem_eq (takeWho_none hwho finish _), if_neg hzero, if_pos ⟨fun hboth ↦ hend hboth.2, hcomma, hnull⟩, if_pos hh, ← hsame, hmasks]
  | none =>
    rw [hhow] at hfinish
    have hsame : (SubSpec.octal s).how = .equal := by
      change s.how.elim .equal modeHow = .equal
      rw [hhow]
      rfl
    rw [hsame] at hmasks
    rw [Option.toList_none, nil_append] at hfinish ⊢
    obtain ⟨d, ds, hdigits⟩ := exists_cons_of_ne_nil s.digits_ne_nil
    have hd := s.isModeDigit_of_mem d (hdigits ▸ mem_cons_self)
    rw [hdigits, cons_append] at hmasks ⊢
    rw [hdigits] at hfinish
    obtain ⟨hwho, hplain, hequal, hcomma, hnull⟩ := modeDigit_plain d hd
    have hend : d ≠ finish := fun heq ↦ hfinish (heq ▸ mem_cons_self)
    rw [modeItem_eq (takeWho_none hwho finish _), if_neg hzero, if_pos ⟨fun hboth ↦ hend hboth.2, hcomma, hnull⟩, hequal,
      if_neg (by rw [hplain]; exact Bool.false_ne_true), hmasks]

theorem modeItem_symbolic (hnull : finish ≠ 0) (s : SymbolicSpec)
    (hfinish : finish ∉ (SubSpec.symbolic s).text)
    (hstop : stop = char ',' ∨ stop = finish) (rest : Bytes) (m : ModeMasks) :
    ∃ m', modeItem finish ((SubSpec.symbolic s).text ++ stop :: rest) m = .ok (m', stop, rest) ∧
      m'.demands = demandsAfter m.demands (.symbolic s) := by
  have htext : (SubSpec.symbolic s).text ++ stop :: rest =
      s.who ++ s.how :: (s.permissions ++ stop :: rest) := by
    change s.who ++ s.how :: s.permissions ++ _ = _
    rw [append_assoc, cons_append]
  have hpermissions : finish ∉ s.permissions :=
    fun h ↦ hfinish (mem_append_right _ (mem_cons_of_mem _ h))
  obtain ⟨hwho, -, -⟩ := how_plain s.how s.isHow_how
  obtain ⟨mask, htake, hbits⟩ := takeWho_append hnull s.isWho_of_mem hwho
    _ 0
  have hmask : Demands.bits mask = {i | (SubSpec.symbolic s).checked i = true} := by
    rw [hbits]
    ext i
    simp [SubSpec.checked]
  have hchecks : mask ≠ 0 := by
    obtain ⟨c, cs, hcs⟩ := exists_cons_of_ne_nil s.who_ne_nil
    have hmem : c ∈ s.who := hcs ▸ mem_cons_self
    obtain ⟨i, hi⟩ := exists_mem_of_ne_nil (SubSpec.whoBits c) (by
      obtain rfl | rfl | rfl | rfl := who_cases (s.isWho_of_mem c hmem)
      all_goals decide)
    have hset : i ∈ Demands.bits mask := by
      rw [hmask]
      exact List.any_eq_true.mpr ⟨c, hmem, decide_eq_true hi⟩
    intro hzero
    rw [hzero] at hset
    simp at hset
  obtain ⟨m', hmasks, hdemands⟩ := symbolicMasks_append s hpermissions hstop rest hmask m
  refine ⟨m', ?_, hdemands⟩
  rw [htext, modeItem_eq htake, if_pos hchecks, if_pos s.isHow_how, hmasks]

end Bsh.Shell
