import Bsh.Library.JsonText

/-!
# JavaScript operations on parsed JSON

What a program may do with a parsed JSON value without knowing its shape: read a property, compare
it with a string, iterate over it, spread it into an object, convert it to a number.  An operation
that throws a `TypeError` returns an error.  Property reads are those of names that no prototype
defines, except `entries`, which every array inherits as a method.
-/

namespace Bsh.Library

/-- An exception. -/
inductive JsError where
  | typeError
  | error (message : JsString)
  deriving DecidableEq

/-- The result of code that may throw. -/
abbrev Js (α : Type) := Except JsError α

section Except

variable {ε α β : Type}

theorem bind_eq_ok {x : Except ε α} {f : α → Except ε β} {b : β} :
    (x >>= f) = .ok b ↔ ∃ a, x = .ok a ∧ f a = .ok b := by
  cases x with
  | error e => simp [bind, Except.bind]
  | ok a => simp [bind, Except.bind]

theorem bind_eq_error {x : Except ε α} {f : α → Except ε β} {e : ε} :
    (x >>= f) = .error e ↔ x = .error e ∨ ∃ a, x = .ok a ∧ f a = .error e := by
  cases x with
  | error e => simp [bind, Except.bind]
  | ok a => simp [bind, Except.bind]

end Except

/-- The result of a property read. -/
inductive Property where
  | undefined
  | value (v : Json)
  /-- A function inherited from the prototype. -/
  | method

namespace Json

open Utf Decimal

/-- `v[name]`. -/
def property (name : JsString) : Json → Js Property
  | .null => .error .typeError
  | .obj members =>
    match member name members with
    | none => .ok .undefined
    | some v => .ok (.value v)
  | .arr _ => .ok (if name = js "entries" then .method else .undefined)
  | _ => .ok .undefined

theorem property_isOk {v : Json} (h : v ≠ .null) (name : JsString) :
    ∃ p, property name v = .ok p := by
  cases v with
  | null => exact absurd rfl h
  | obj members =>
    rw [property]
    cases member name members with
    | none => exact ⟨_, rfl⟩
    | some w => exact ⟨_, rfl⟩
  | _ => exact ⟨_, rfl⟩

/-- `p === s` for a string or `null` on the right. -/
def strictEq (p : Property) (s : Option JsString) : Bool :=
  match p, s with
  | .value (.str t), some s => t = s
  | .value .null, none => true
  | _, _ => false

/-- `p === null`. -/
def isNull (p : Property) : Bool := strictEq p none

mutual

/-- Whether two values have the same content. -/
def sameValue : Json → Json → Bool
  | .null, .null => true
  | .bool a, .bool b => a == b
  | .num a, .num b => a == b
  | .str a, .str b => a == b
  | .arr a, .arr b => sameElements a b
  | .obj a, .obj b => sameMembers a b
  | _, _ => false

def sameElements : List Json → List Json → Bool
  | [], [] => true
  | v :: vs, w :: ws => sameValue v w && sameElements vs ws
  | _, _ => false

def sameMembers : List (JsString × Json) → List (JsString × Json) → Bool
  | [], [] => true
  | (k, v) :: vs, (l, w) :: ws => k == l && sameValue v w && sameMembers vs ws
  | _, _ => false

end

/-- Whether a value counts as true. -/
def truthy : Json → Bool
  | .null => false
  | .bool b => b
  | .num n => n ≠ .finite 0
  | .str s => s ≠ []
  | _ => true

/-- The strings of one code point each that iterating over a string yields. -/
def codePoints : JsString → List JsString
  | [] => []
  | [c] => [[c]]
  | c :: d :: rest =>
    if isHighSurrogate c && isLowSurrogate d then [c, d] :: codePoints rest
    else [c] :: codePoints (d :: rest)

/-- `for (const e of p)`: the values iterated over. -/
def iterate : Property → Js (List Json)
  | .value (.arr elements) => .ok elements
  | .value (.str s) => .ok ((codePoints s).map .str)
  | _ => .error .typeError

/-- The members a value contributes to `{ ...v }`. -/
def spread : Json → Members
  | .obj members => members
  | .arr elements => elements.zipIdx.map fun (v, i) ↦ (codeUnits (decimalCodes i), v)
  | .str s => s.zipIdx.map fun (c, i) ↦ (codeUnits (decimalCodes i), .str [c])
  | _ => []

/-- Leave out the first member with the given key. -/
def dropMember (key : JsString) (members : Members) : Members :=
  members.eraseP fun m ↦ decide (m.1 = key)

theorem dropMember_cons (key k : JsString) (v : Json) (members : Members) :
    dropMember key ((k, v) :: members) =
      if k = key then members else (k, v) :: dropMember key members := by
  by_cases hk : k = key <;> simp [hk, dropMember]

theorem forall_setMember (P : JsString → Json → Prop) (key : JsString) (value : Json)
    (members : Members) :
    (∀ m ∈ setMember key value members, P m.1 m.2) ↔
      P key value ∧ ∀ m ∈ dropMember key members, P m.1 m.2 := by
  induction members with
  | nil => simp [setMember, dropMember]
  | cons m rest ih =>
    obtain ⟨k, v⟩ := m
    rw [setMember, dropMember_cons]
    by_cases hk : k = key
    · subst hk
      simp
    · rw [if_neg hk, if_neg hk, List.forall_mem_cons, List.forall_mem_cons, ih]
      exact and_left_comm

theorem dropMember_setMember {key other : JsString} (hne : other ≠ key) (value : Json)
    (members : Members) :
    dropMember other (setMember key value members) =
      setMember key value (dropMember other members) := by
  induction members with
  | nil => simp [setMember, dropMember, hne.symm]
  | cons m rest ih =>
    obtain ⟨k, v⟩ := m
    by_cases hk : k = key
    · have hother : ¬ k = other := fun h ↦ hne (h.symm.trans hk)
      rw [setMember, if_pos hk, dropMember_cons, if_neg hother, dropMember_cons, if_neg hother,
        setMember, if_pos hk]
    · by_cases hother : k = other
      · rw [setMember, if_neg hk, dropMember_cons, if_pos hother, dropMember_cons, if_pos hother]
      · rw [setMember, if_neg hk, dropMember_cons, if_neg hother, dropMember_cons, if_neg hother,
          setMember, if_neg hk, ih]

theorem dropMember_comm {key other : JsString} (hne : key ≠ other) (members : Members) :
    dropMember key (dropMember other members) = dropMember other (dropMember key members) := by
  refine List.eraseP_comm fun m _ ↦ ?_
  by_cases h : m.1 = other
  · exact .inr (by simpa [h] using hne.symm)
  · exact .inl (by simpa using h)

/-! ## Conversion to a number -/

def isStringSpace (c : UInt16) : Bool :=
  (0x09 ≤ c && c ≤ 0x0D) || c == 0x20 || c == 0xA0 || c == 0x1680 || (0x2000 ≤ c && c ≤ 0x200A) ||
    c == 0x2028 || c == 0x2029 || c == 0x202F || c == 0x205F || c == 0x3000 || c == 0xFEFF

def trim (s : JsString) : JsString :=
  ((s.dropWhile isStringSpace).reverse.dropWhile isStringSpace).reverse

/-- The value of a nonempty sequence of digits in a radix. -/
def radixValue (radix : ℕ) (digits : JsString) : Option ℕ :=
  if digits = [] then none
  else digits.foldl (fun value c ↦
    match value, hexDigit c with
    | some v, some d => if d < radix then some (v * radix + d) else none
    | _, _ => none) (some 0)

/-- `digits`, `digits.`, `digits.digits` or `.digits`, with an optional exponent. -/
def decimalLiteral (codes : List ℕ) : Option ℚ :=
  let (whole, rest) := spanDigits codes
  let (fraction, rest) := match rest with
    | 0x2E :: rest => spanDigits rest
    | rest => ([], rest)
  if whole = [] ∧ fraction = [] then none
  else
    match readExponent rest with
    | some (exponent, []) =>
      some ((digitsValue whole + digitsValue fraction / 10 ^ fraction.length) * 10 ^ exponent)
    | _ => none

/-- `Number(s)`, with `none` for `NaN`. -/
def stringToNumber (read : ℚ → Number) (s : JsString) : Option Number :=
  match trim s with
  | [] => some (.finite 0)
  | 0x30 :: 0x78 :: digits => (radixValue 16 digits).map (read ·)
  | 0x30 :: 0x58 :: digits => (radixValue 16 digits).map (read ·)
  | 0x30 :: 0x6F :: digits => (radixValue 8 digits).map (read ·)
  | 0x30 :: 0x4F :: digits => (radixValue 8 digits).map (read ·)
  | 0x30 :: 0x62 :: digits => (radixValue 2 digits).map (read ·)
  | 0x30 :: 0x42 :: digits => (radixValue 2 digits).map (read ·)
  | text =>
    let (negative, unsigned) := readSign (text.map UInt16.toNat)
    if unsigned = (js "Infinity").map UInt16.toNat then some (.infinite negative)
    else (decimalLiteral unsigned).map fun q ↦ read (if negative then -q else q)

def isNullValue : Json → Bool
  | .null => true
  | _ => false

def objectName : JsString := js "[object Object]"

mutual

/-- `String(v)`.  An own `toString` or `valueOf` is not callable, and an object whose `toString` is
hidden by an own member has no conversion left. -/
def toText : Json → Js JsString
  | .null => .ok nullName
  | .bool b => .ok (if b then trueName else falseName)
  | .num (.infinite negative) => .ok (if negative then js "-Infinity" else js "Infinity")
  | .num n => .ok (numberText n)
  | .str s => .ok s
  | .arr elements => joinTexts elements
  | .obj members =>
    if (member (js "toString") members).isSome then .error .typeError else .ok objectName

/-- `elements.join(',')`, in which `null` is the empty string. -/
def joinTexts : List Json → Js JsString
  | [] => .ok []
  | [v] => if isNullValue v then .ok [] else toText v
  | v :: w :: rest =>
    match if isNullValue v then .ok [] else toText v, joinTexts (w :: rest) with
    | .ok text, .ok texts => .ok (text ++ 0x2C :: texts)
    | .error e, _ => .error e
    | _, .error e => .error e

end

/-- The number a comparison makes of a value, with `none` for `NaN`. -/
def toNumber (read : ℚ → Number) : Property → Js (Option Number)
  | .undefined => .ok none
  | .method => .ok none
  | .value .null => .ok (some (.finite 0))
  | .value (.bool b) => .ok (some (.finite (if b then 1 else 0)))
  | .value (.num n) => .ok (some n)
  | .value v =>
    match toText v with
    | .error e => .error e
    | .ok text => .ok (stringToNumber read text)

/-- `x > n`, false for `NaN`. -/
def greaterThan (x : ℚ) : Option Number → Bool
  | some (.finite q) => q < x
  | some (.infinite negative) => negative
  | none => false

end Json

end Bsh.Library
