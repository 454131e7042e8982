import Bsh.Shell.Cond

/-!
# The language of conditions

Conditions as the grammar has them, with the lines that may be broken in them: what a simple
condition asks, and the value of a condition, which is found from left to right as far as it is
needed.  `CondExpr.code` is the wordcode that belongs to it; the evaluation of that code finds the
value, and leaves the program counter behind the code unless something is wrong with a pattern.
-/

namespace Bsh.Shell

open Bsh.Library List

/-! ## Simple conditions -/

/-- A simple condition by its words.  In `[[ ]]` the order of strings is written with tokens. -/
inductive CondPrim where
  | one (s : Bytes)
  | two (a b : Bytes)
  | three (a op c : Bytes)
  | less (a c : Bytes)
  | greater (a c : Bytes)
  | many (a : Bytes) (args : List Bytes)

/-- What stands between two operands. -/
inductive CondOperator where
  | pattern (kind : CondPattern)
  | compare (op : CondCompare)
  | regex
  | module

/-- The operators. -/
def condOperator (op : Bytes) : Option CondOperator :=
  match op with
  | [c] => if isEquals c then some (.pattern .streq) else if isDash c then some .module else none
  | c :: d :: rest =>
    if isEquals c ∧ isEquals d ∧ rest = [] then some (.pattern .strdeq)
    else if c = char '!' ∧ isEquals d ∧ rest = [] then some (.pattern .strneq)
    else if isEquals c ∧ isTilde d ∧ rest = [] then some .regex
    else if isDash c then
      match getCondNum (d :: rest) with
      | some op => some (.compare op)
      | none => some .module
    else none
  | [] => none

/-- A condition with a letter. -/
def isCondLetter (a : Bytes) : Bool := a.getD 2 0 = 0 && condLetter a

section

variable {σ : Type*} (env : CondEnv σ) (fromtest : Bool)

/-- The status of a simple condition; `none` for a bad pattern. -/
def CondPrim.eval : CondPrim → σ → Option ℕ × σ
  | .one s, st => (env.letterStatus fromtest (char 'n') s st).map some id
  | .two a b, st =>
    if isCondLetter a then (env.letterStatus fromtest (a.getD 1 0) b st).map some id
    else (env.module false a [b] st).map some id
  | .three a op c, st =>
    match condOperator op with
    | some (.pattern kind) => env.patternStatus fromtest kind a c st
    | some (.compare op) =>
      (env.binaryStatus fromtest (env.compareStatus fromtest op) a c st).map some id
    | some .regex => (env.regex a c st).map some id
    | some .module => (env.module true op [a, c] st).map some id
    | none => (env.module false a [op, c] st).map some id
  | .less a c, st =>
    (env.binaryStatus fromtest (fun a c st ↦ (condStatus (a < c), st)) a c st).map some id
  | .greater a c, st =>
    (env.binaryStatus fromtest (fun a c st ↦ (condStatus (c < a), st)) a c st).map some id
  | .many a args, st => (env.module false a args st).map some id

end

/-- The words for a simple condition, when the next pattern has the number `n`. -/
def CondPrim.code (n : ℕ) : CondPrim → List CondWord
  | .one s => [wcbCond (.letter (char 'n')) 0, .str s]
  | .two a b =>
    if isCondLetter a then [wcbCond (.letter (a.getD 1 0)) 0, .str b]
    else [wcbCond .mod 1, .str a, .str b]
  | .three a op c =>
    match condOperator op with
    | some (.pattern kind) => [wcbCond (.pattern kind) 0, .str a, .str c, .num n]
    | some (.compare op) => [wcbCond (.compare op) 0, .str a, .str c]
    | some .regex => [wcbCond .regex 0, .str a, .str c]
    | some .module => [wcbCond .modi 0, .str op, .str a, .str c]
    | none => [wcbCond .mod 2, .str a, .str op, .str c]
  | .less a c => [wcbCond .strlt 0, .str a, .str c]
  | .greater a c => [wcbCond .strgtr 0, .str a, .str c]
  | .many a args => wcbCond .mod args.length :: .str a :: args.map .str

/-- The number of patterns. -/
def CondPrim.pats : CondPrim → ℕ
  | .three _ op _ =>
    match condOperator op with
    | some (.pattern _) => 1
    | _ => 0
  | _ => 0

/-! ## Conditions -/

/-- `cond_2`, `cond_1` and `cond` of the grammar. -/
inductive CondLevel where
  | unit | conj | disj

/-- Conditions, with the numbers of line breaks. -/
inductive CondExpr : CondLevel → Type where
  | prim (p : CondPrim) : CondExpr .unit
  | bang (lines : ℕ) (e : CondExpr .unit) : CondExpr .unit
  | paren (lines lines' : ℕ) (e : CondExpr .disj) : CondExpr .unit
  | unit (e : CondExpr .unit) : CondExpr .conj
  | and (e : CondExpr .unit) (lines lines' : ℕ) (e' : CondExpr .conj) : CondExpr .conj
  | conj (e : CondExpr .conj) : CondExpr .disj
  | or (e : CondExpr .conj) (lines lines' : ℕ) (e' : CondExpr .disj) : CondExpr .disj

namespace CondExpr

variable {level : CondLevel}

section

variable {σ : Type*} (env : CondEnv σ) (fromtest : Bool)

/-- The value of a condition. -/
def value : {level : CondLevel} → CondExpr level → σ → ℕ × σ
  | _, prim p, st => (p.eval env fromtest st).map (Option.getD · 2) id
  | _, bang _ e, st =>
    let (ret, st) := e.value st
    (if ret = 0 then 1 else if ret = 1 then 0 else ret, st)
  | _, paren _ _ e, st => e.value st
  | _, unit e, st => e.value st
  | _, and e _ _ e', st =>
    let (ret, st) := e.value st
    if ret = 0 then e'.value st else (ret, st)
  | _, conj e, st => e.value st
  | _, or e _ _ e', st =>
    let (ret, st) := e.value st
    -- An unknown option counts as false here.
    if ret = 1 ∨ ret = 3 then e'.value st else (ret, st)

end

/-- The number of patterns. -/
def pats : {level : CondLevel} → CondExpr level → ℕ
  | _, prim p => p.pats
  | _, bang _ e => e.pats
  | _, paren _ _ e => e.pats
  | _, unit e => e.pats
  | _, and e _ _ e' => e.pats + e'.pats
  | _, conj e => e.pats
  | _, or e _ _ e' => e.pats + e'.pats

/-- The number of words of the code. -/
def size : {level : CondLevel} → CondExpr level → ℕ
  | _, prim p => (p.code 0).length
  | _, bang _ e => e.size + 1
  | _, paren _ _ e => e.size
  | _, unit e => e.size
  | _, and e _ _ e' => e.size + e'.size + 1
  | _, conj e => e.size
  | _, or e _ _ e' => e.size + e'.size + 1

/-- The code of a condition, when the next pattern has the number `n`. -/
def code : {level : CondLevel} → CondExpr level → ℕ → List CondWord
  | _, prim p, n => p.code n
  | _, bang _ e, n => wcbCond .not 0 :: e.code n
  | _, paren _ _ e, n => e.code n
  | _, unit e, n => e.code n
  | _, and e _ _ e', n =>
    wcbCond .and (e.size + e'.size) :: (e.code n ++ e'.code (n + e.pats))
  | _, conj e, n => e.code n
  | _, or e _ _ e', n =>
    wcbCond .or (e.size + e'.size) :: (e.code n ++ e'.code (n + e.pats))

/-- The simple conditions, with the places of their codes. -/
def places : {level : CondLevel} → CondExpr level → ℕ → List (ℕ × CondPrim)
  | _, prim p, pc => [(pc, p)]
  | _, bang _ e, pc => e.places (pc + 1)
  | _, paren _ _ e, pc => e.places pc
  | _, unit e, pc => e.places pc
  | _, and e _ _ e', pc => e.places (pc + 1) ++ e'.places (pc + 1 + e.size)
  | _, conj e, pc => e.places pc
  | _, or e _ _ e', pc => e.places (pc + 1) ++ e'.places (pc + 1 + e.size)

end CondExpr

/-! ## Lengths -/

theorem CondPrim.code_length (p : CondPrim) (n k : ℕ) : (p.code n).length = (p.code k).length := by
  cases p with
  | three a op c =>
    rw [code, code]
    rcases condOperator op with _ | op
    · rfl
    · cases op <;> rfl
  | one s | two a b | less a c | greater a c | many a args => rfl

theorem CondExpr.code_length {level : CondLevel} (e : CondExpr level) (n : ℕ) :
    (e.code n).length = e.size := by
  induction e generalizing n with
  | prim p => exact p.code_length n 0
  | bang lines e ih => rw [code, length_cons, ih, size]
  | paren lines lines' e ih => exact ih n
  | unit e ih => exact ih n
  | and e lines lines' e' ih ih' =>
    rw [code, length_cons, length_append, ih, ih', size]
  | conj e ih => exact ih n
  | or e lines lines' e' ih ih' =>
    rw [code, length_cons, length_append, ih, ih', size]

/-! ## Evaluation -/

section

variable {σ : Type*} (env : CondEnv σ) (fromtest : Bool) (before l behind : List CondWord)
  {level : CondLevel}

theorem ecgetstr_append (i : ℕ) : ecgetstr (before ++ l) (before.length + i) = ecgetstr l i := by
  rw [ecgetstr, ecgetstr, List.getElem?_append_right (Nat.le_add_right _ _), Nat.add_sub_cancel_left]

theorem ecgetarr_append (i num : ℕ) :
    ecgetarr (before ++ l) (before.length + i) num = ecgetarr l i num := by
  induction num generalizing i with
  | zero => rfl
  | succ num ih => rw [ecgetarr, ecgetarr, ecgetstr_append, Nat.add_assoc, ih]

theorem ecgetarr_map (args : List Bytes) :
    ecgetarr (args.map .str ++ l) 0 args.length = some args := by
  induction args with
  | nil => rfl
  | cons s args ih =>
    have hrest : ecgetarr ((s :: args).map .str ++ l) (0 + 1) args.length = some args :=
      (ecgetarr_append [.str s] (args.map .str ++ l) 0 args.length).trans ih
    have hfirst : ecgetstr ((s :: args).map .str ++ l) 0 = some s := rfl
    rw [length_cons, ecgetarr, hfirst, hrest]

/-- A result with the program counter of a larger code. -/
def pcShifted (k : ℕ) : ℕ × ℕ × σ → ℕ × ℕ × σ := fun (ret, pc, st) ↦ (ret, k + pc, st)

theorem evalSimple_append (type : CondType) (skip i : ℕ) (st : σ) :
    evalSimple env fromtest (before ++ l) type skip (before.length + i) st =
      (evalSimple env fromtest l type skip i st).map (pcShifted before.length) := by
  have hstr (j : ℕ) : ecgetstr (before ++ l) (before.length + i + j) = ecgetstr l (i + j) := by
    rw [Nat.add_assoc, ecgetstr_append]
  have harr (j num : ℕ) :
      ecgetarr (before ++ l) (before.length + i + j) num = ecgetarr l (i + j) num := by
    rw [Nat.add_assoc, ecgetarr_append]
  unfold evalSimple
  simp only [ecgetstr_append, hstr, harr]
  cases type with
  | letter c => cases ecgetstr l i <;> rfl
  | pattern kind =>
    cases ecgetstr l i with
    | none => rfl
    | some a =>
      cases ecgetstr l (i + 1) with
      | none => rfl
      | some b =>
        simp only []
        cases env.patternStatus fromtest kind a b st with
        | mk status st' => cases status <;> rfl
  | mod =>
    cases ecgetstr l i with
    | none => rfl
    | some name =>
      cases ecgetarr l (i + 1) skip with
      | none => rfl
      | some args =>
        exact congrArg (fun pc ↦ some ((env.module false name args st).1, pc,
          (env.module false name args st).2)) (Nat.add_assoc before.length i (skip + 1))
  | modi => cases ecgetstr l i <;> cases ecgetarr l (i + 1) 2 <;> rfl
  | regex => cases ecgetstr l i <;> cases ecgetstr l (i + 1) <;> rfl
  | strlt => cases ecgetstr l i <;> cases ecgetstr l (i + 1) <;> rfl
  | strgtr => cases ecgetstr l i <;> cases ecgetstr l (i + 1) <;> rfl
  | compare op => cases ecgetstr l i <;> cases ecgetstr l (i + 1) <;> rfl
  | not => cases ecgetstr l i <;> cases ecgetstr l (i + 1) <;> rfl
  | and => cases ecgetstr l i <;> cases ecgetstr l (i + 1) <;> rfl
  | or => cases ecgetstr l i <;> cases ecgetstr l (i + 1) <;> rfl

/-- Code means the same wherever it stands. -/
theorem evalcond_append (turns i : ℕ) (st : σ) :
    evalcond env fromtest (before ++ l) turns (before.length + i) st =
      (evalcond env fromtest l turns i st).map (pcShifted before.length) := by
  induction turns generalizing i st with
  | zero => rfl
  | succ turns ih =>
    have hword : (before ++ l)[before.length + i]? = l[i]? := by
      rw [List.getElem?_append_right (Nat.le_add_right _ _), Nat.add_sub_cancel_left]
    have hnext := ih (i + 1) st
    rw [← Nat.add_assoc] at hnext
    have hsimple (type : CondType) (skip : ℕ) := evalSimple_append env fromtest before l type skip
      (i + 1) st
    rw [evalcond, evalcond, hword]
    cases hcond : l[i]?.bind CondWord.cond with
    | none => rfl
    | some word =>
      obtain ⟨type, skip⟩ := word
      cases type with
      | not =>
        simp only [hnext]
        cases evalcond env fromtest l turns (i + 1) st <;> rfl
      | and =>
        simp only [hnext]
        cases evalcond env fromtest l turns (i + 1) st with
        | none => rfl
        | some result =>
          obtain ⟨ret, next, st'⟩ := result
          simp only [Option.map_some, pcShifted]
          split_ifs
          · exact ih next st'
          · rw [Option.map_some, pcShifted, Nat.add_assoc]
      | or =>
        simp only [hnext]
        cases evalcond env fromtest l turns (i + 1) st with
        | none => rfl
        | some result =>
          obtain ⟨ret, next, st'⟩ := result
          simp only [Option.map_some, pcShifted]
          split_ifs
          · exact ih next st'
          · rw [Option.map_some, pcShifted, Nat.add_assoc]
      | letter _ | pattern _ | strlt | strgtr | compare _ | regex | mod | modi => exact hsimple _ skip

theorem evalcond_tail (w : CondWord) (turns pc : ℕ) (st : σ) :
    evalcond env fromtest (w :: l) turns (1 + pc) st =
      (evalcond env fromtest l turns pc st).map (pcShifted 1) :=
  evalcond_append env fromtest [w] l turns pc st

theorem evalcond_not (skip turns : ℕ) (st : σ) :
    evalcond env fromtest (wcbCond .not skip :: l) (turns + 1) 0 st =
      (evalcond env fromtest l turns 0 st).map fun (ret, pc, st) ↦
        (if ret = 0 ∨ ret = 1 then 1 - ret else ret, 1 + pc, st) := by
  have htail := evalcond_tail env fromtest l (wcbCond .not skip) turns 0 st
  rw [evalcond]
  rw [htail]
  cases evalcond env fromtest l turns 0 st <;> rfl

theorem evalcond_and (skip turns : ℕ) (st : σ) :
    evalcond env fromtest (wcbCond .and skip :: l) (turns + 1) 0 st =
      match evalcond env fromtest l turns 0 st with
      | none => none
      | some (ret, pc, st) =>
        if ret = 0 then (evalcond env fromtest l turns pc st).map (pcShifted 1)
        else some (ret, skip % 2 ^ 20 + 1, st) := by
  have htail (pc : ℕ) (st : σ) := evalcond_tail env fromtest l (wcbCond .and skip) turns pc st
  change (match evalcond env fromtest (wcbCond .and skip :: l) turns (1 + 0) st with
    | none => none
    | some (ret, next, st) =>
      if ret = 0 then evalcond env fromtest (wcbCond .and skip :: l) turns next st
      else some (ret, 0 + (skip % 2 ^ 20 + 1), st)) = _
  rw [htail, Nat.zero_add]
  cases evalcond env fromtest l turns 0 st with
  | none => rfl
  | some result =>
    simp only [Option.map_some, pcShifted]
    rw [htail]

theorem evalcond_or (skip turns : ℕ) (st : σ) :
    evalcond env fromtest (wcbCond .or skip :: l) (turns + 1) 0 st =
      match evalcond env fromtest l turns 0 st with
      | none => none
      | some (ret, pc, st) =>
        if ret = 1 ∨ ret = 3 then (evalcond env fromtest l turns pc st).map (pcShifted 1)
        else some (ret, skip % 2 ^ 20 + 1, st) := by
  have htail (pc : ℕ) (st : σ) := evalcond_tail env fromtest l (wcbCond .or skip) turns pc st
  change (match evalcond env fromtest (wcbCond .or skip :: l) turns (1 + 0) st with
    | none => none
    | some (ret, next, st) =>
      if ret = 1 ∨ ret = 3 then evalcond env fromtest (wcbCond .or skip :: l) turns next st
      else some (ret, 0 + (skip % 2 ^ 20 + 1), st)) = _
  rw [htail, Nat.zero_add]
  cases evalcond env fromtest l turns 0 st with
  | none => rfl
  | some result =>
    simp only [Option.map_some, pcShifted]
    rw [htail]

theorem CondPrim.code_pos (p : CondPrim) (n : ℕ) : 0 < (p.code n).length := by
  cases p with
  | two a b =>
    rw [code]
    split_ifs <;> exact Nat.succ_pos _
  | three a op c =>
    rw [code]
    rcases condOperator op with _ | op'
    · exact Nat.succ_pos _
    · cases op' <;> exact Nat.succ_pos _
  | one s | less a c | greater a c | many a args => exact Nat.succ_pos _

/-- A simple condition has its value, and its words are read unless a pattern is bad. -/
theorem evalcond_prim (p : CondPrim) (n turns : ℕ) (hsize : (p.code 0).length ≤ 2 ^ 20) (st : σ) :
    ∃ pc, evalcond env fromtest (p.code n ++ behind) (turns + 1) 0 st =
        some ((p.eval env fromtest st).1.getD 2, pc, (p.eval env fromtest st).2) ∧
      ((p.eval env fromtest st).1 ≠ none → pc = (p.code n).length) := by
  cases p with
  | one s => exact ⟨2, rfl, fun _ ↦ rfl⟩
  | less a c => exact ⟨3, rfl, fun _ ↦ rfl⟩
  | greater a c => exact ⟨3, rfl, fun _ ↦ rfl⟩
  | two a b =>
    rw [CondPrim.code, CondPrim.eval]
    split_ifs with hletter
    · exact ⟨2, rfl, fun _ ↦ rfl⟩
    · exact ⟨3, rfl, fun _ ↦ rfl⟩
  | three a op c =>
    rw [CondPrim.code, CondPrim.eval]
    rcases condOperator op with _ | op'
    · exact ⟨4, rfl, fun _ ↦ rfl⟩
    · cases op' with
      | pattern kind =>
        simp only []
        have hrun : evalcond env fromtest ([wcbCond (.pattern kind) 0, .str a, .str c, .num n] ++
            behind) (turns + 1) 0 st =
              some ((env.patternStatus fromtest kind a c st).1.getD 2,
                (if (env.patternStatus fromtest kind a c st).1.isSome then 4 else 2),
                (env.patternStatus fromtest kind a c st).2) := by
          have hword : ([wcbCond (.pattern kind) 0, .str a, .str c, .num n] ++ behind)[0]?.bind
              CondWord.cond = some (.pattern kind, 0) := rfl
          have hfirst : ecgetstr ([wcbCond (.pattern kind) 0, .str a, .str c, .num n] ++ behind)
              (0 + 1) = some a := rfl
          have hsecond : ecgetstr ([wcbCond (.pattern kind) 0, .str a, .str c, .num n] ++ behind)
              (0 + 1 + 1) = some c := rfl
          rw [evalcond, hword]
          simp only [evalSimple, hfirst, hsecond]
          rcases env.patternStatus fromtest kind a c st with ⟨_ | status, st'⟩ <;> rfl
        rw [hrun]
        cases env.patternStatus fromtest kind a c st with
        | mk status st' =>
          cases status with
          | none => exact ⟨2, rfl, fun h ↦ absurd rfl h⟩
          | some status => exact ⟨4, rfl, fun _ ↦ rfl⟩
      | compare op => exact ⟨3, rfl, fun _ ↦ rfl⟩
      | regex => exact ⟨3, rfl, fun _ ↦ rfl⟩
      | module => exact ⟨4, rfl, fun _ ↦ rfl⟩
  | many a args =>
    refine ⟨args.length + 2, ?_, fun _ ↦ by simp [CondPrim.code]⟩
    have hlength : args.length % 2 ^ 20 = args.length := by
      refine Nat.mod_eq_of_lt (lt_of_lt_of_le ?_ hsize)
      simp [CondPrim.code]
    have hname : ecgetstr ((CondPrim.many a args).code n ++ behind) (0 + 1) = some a := rfl
    have harr : ecgetarr ((CondPrim.many a args).code n ++ behind) (0 + 1 + 1) args.length =
        some args := by
      have happend := ecgetarr_append [wcbCond .mod args.length, .str a] (args.map .str ++ behind) 0
        args.length
      rw [ecgetarr_map] at happend
      exact happend
    have hword : ((CondPrim.many a args).code n ++ behind)[0]?.bind CondWord.cond =
        some (.mod, args.length % 2 ^ 20) := rfl
    rw [evalcond, hword, hlength]
    simp only [evalSimple, hname, harr]
    have hpc : 0 + 1 + (args.length + 1) = args.length + 2 := by omega
    rw [hpc]
    rfl

end

namespace CondExpr

variable {σ : Type*} (env : CondEnv σ) (fromtest : Bool) {level : CondLevel}

theorem value_bang (lines : ℕ) (e : CondExpr .unit) (st : σ) :
    (bang lines e).value env fromtest st =
      (if (e.value env fromtest st).1 = 0 then 1 else if (e.value env fromtest st).1 = 1 then 0
        else (e.value env fromtest st).1, (e.value env fromtest st).2) := rfl

theorem value_and (e : CondExpr .unit) (lines lines' : ℕ) (e' : CondExpr .conj) (st : σ) :
    (and e lines lines' e').value env fromtest st =
      if (e.value env fromtest st).1 = 0 then e'.value env fromtest (e.value env fromtest st).2
      else e.value env fromtest st := rfl

theorem value_or (e : CondExpr .conj) (lines lines' : ℕ) (e' : CondExpr .disj) (st : σ) :
    (or e lines lines' e').value env fromtest st =
      if (e.value env fromtest st).1 = 1 ∨ (e.value env fromtest st).1 = 3 then
        e'.value env fromtest (e.value env fromtest st).2
      else e.value env fromtest st := rfl

theorem evalcond_second {level' : CondLevel} (e : CondExpr level) (e' : CondExpr level')
    (n turns : ℕ) (behind : List CondWord) (st : σ) :
    evalcond env fromtest (e.code n ++ e'.code (n + e.pats) ++ behind) turns e.size st =
      (evalcond env fromtest (e'.code (n + e.pats) ++ behind) turns 0 st).map (pcShifted e.size) := by
  have happend := evalcond_append env fromtest (e.code n) (e'.code (n + e.pats) ++ behind) turns 0 st
  rw [e.code_length] at happend
  rw [append_assoc]
  exact happend

theorem evalcond_code (e : CondExpr level) (n turns : ℕ) (behind : List CondWord)
    (hsize : e.size < 2 ^ 20) (hturns : e.size ≤ turns) (st : σ) :
    ∃ pc, evalcond env fromtest (e.code n ++ behind) turns 0 st =
        some ((e.value env fromtest st).1, pc, (e.value env fromtest st).2) ∧
      ((e.value env fromtest st).1 ≠ 2 → pc = e.size) := by
  induction e generalizing n turns behind st with
  | prim p =>
    have hpos := p.code_pos 0
    obtain ⟨turns, rfl⟩ : ∃ k, turns = k + 1 := ⟨turns - 1, by rw [size] at hturns; omega⟩
    obtain ⟨pc, hrun, hpc⟩ := evalcond_prim env fromtest behind p n turns hsize.le st
    refine ⟨pc, hrun, fun hvalue ↦ ?_⟩
    rw [hpc, p.code_length n 0, size]
    intro hnone
    refine hvalue ?_
    change ((p.eval env fromtest st).1).getD 2 = 2
    rw [hnone]
    rfl
  | bang lines e ih =>
    rw [size] at hsize hturns
    obtain ⟨turns, rfl⟩ : ∃ k, turns = k + 1 := ⟨turns - 1, by omega⟩
    obtain ⟨pc, hrun, hpc⟩ := ih n turns behind (by omega) (by omega) st
    rw [value_bang, code, cons_append, evalcond_not, hrun]
    refine ⟨1 + pc, ?_, fun hvalue ↦ ?_⟩
    · have hneg (ret : ℕ) : (if ret = 0 ∨ ret = 1 then 1 - ret else ret) =
          if ret = 0 then 1 else if ret = 1 then 0 else ret := by
        split_ifs <;> omega
      exact congrArg (fun ret ↦ some (ret, 1 + pc, (e.value env fromtest st).2)) (hneg _)
    · rw [size, hpc, Nat.add_comm]
      intro htwo
      refine hvalue ?_
      simp only [htwo]
      rfl
  | paren lines lines' e ih => exact ih n turns behind hsize hturns st
  | unit e ih => exact ih n turns behind hsize hturns st
  | conj e ih => exact ih n turns behind hsize hturns st
  | and e lines lines' e' ih ih' =>
    rw [size] at hsize hturns
    obtain ⟨turns, rfl⟩ : ∃ k, turns = k + 1 := ⟨turns - 1, by omega⟩
    have hskip : (e.size + e'.size) % 2 ^ 20 = e.size + e'.size := Nat.mod_eq_of_lt (by omega)
    obtain ⟨pc, hrun, hpc⟩ := ih n turns _ (by omega) (by omega) st
    rw [← append_assoc] at hrun
    rw [value_and, code, cons_append, evalcond_and, hrun]
    by_cases hzero : (e.value env fromtest st).1 = 0
    · obtain ⟨pc', hrun', hpc'⟩ := ih' (n + e.pats) turns behind (by omega) (by omega)
        _
      have hend : pc = e.size := hpc (by omega)
      simp only [if_pos hzero]
      rw [hend, evalcond_second, hrun']
      refine ⟨1 + (e.size + pc'), rfl, fun hvalue ↦ ?_⟩
      rw [size, hpc' hvalue]
      omega
    · simp only [if_neg hzero, hskip]
      exact ⟨_, rfl, fun _ ↦ rfl⟩
  | or e lines lines' e' ih ih' =>
    rw [size] at hsize hturns
    obtain ⟨turns, rfl⟩ : ∃ k, turns = k + 1 := ⟨turns - 1, by omega⟩
    have hskip : (e.size + e'.size) % 2 ^ 20 = e.size + e'.size := Nat.mod_eq_of_lt (by omega)
    obtain ⟨pc, hrun, hpc⟩ := ih n turns _ (by omega) (by omega) st
    rw [← append_assoc] at hrun
    rw [value_or, code, cons_append, evalcond_or, hrun]
    by_cases hfalse : (e.value env fromtest st).1 = 1 ∨ (e.value env fromtest st).1 = 3
    · obtain ⟨pc', hrun', hpc'⟩ := ih' (n + e.pats) turns behind (by omega) (by omega)
        _
      have hend : pc = e.size := hpc (by omega)
      simp only [if_pos hfalse]
      rw [hend, evalcond_second, hrun']
      refine ⟨1 + (e.size + pc'), rfl, fun hvalue ↦ ?_⟩
      rw [size, hpc' hvalue]
      omega
    · simp only [if_neg hfalse, hskip]
      exact ⟨_, rfl, fun _ ↦ rfl⟩

theorem code_of_places (e : CondExpr level) (n pc : ℕ) {i : ℕ} {p : CondPrim}
    (h : (i, p) ∈ e.places pc) : ∃ front k rest, e.code n = front ++ p.code k ++ rest ∧
      i = pc + front.length := by
  induction e generalizing n pc with
  | prim p' =>
    rw [places, mem_singleton, Prod.mk.injEq] at h
    obtain ⟨rfl, rfl⟩ := h
    exact ⟨[], n, [], (append_nil _).symm, rfl⟩
  | bang lines e ih =>
    obtain ⟨front, k, rest, hcode, hi⟩ := ih n (pc + 1) h
    refine ⟨wcbCond .not 0 :: front, k, rest, ?_, ?_⟩
    · rw [code, hcode]
      rfl
    · rw [hi, length_cons]
      omega
  | paren lines lines' e ih => exact ih n pc h
  | unit e ih => exact ih n pc h
  | conj e ih => exact ih n pc h
  | and e lines lines' e' ih ih' =>
    rcases List.mem_append.mp h with h | h
    · obtain ⟨front, k, rest, hcode, hi⟩ := ih n (pc + 1) h
      refine ⟨wcbCond .and (e.size + e'.size) :: front, k, rest ++ e'.code (n + e.pats), ?_, ?_⟩
      · rw [code, hcode]
        simp
      · rw [hi, length_cons]
        omega
    · obtain ⟨front, k, rest, hcode, hi⟩ := ih' (n + e.pats) (pc + 1 + e.size) h
      refine ⟨wcbCond .and (e.size + e'.size) :: (e.code n ++ front), k, rest, ?_, ?_⟩
      · rw [code, hcode]
        simp
      · rw [hi, length_cons, length_append, e.code_length]
        omega
  | or e lines lines' e' ih ih' =>
    rcases List.mem_append.mp h with h | h
    · obtain ⟨front, k, rest, hcode, hi⟩ := ih n (pc + 1) h
      refine ⟨wcbCond .or (e.size + e'.size) :: front, k, rest ++ e'.code (n + e.pats), ?_, ?_⟩
      · rw [code, hcode]
        simp
      · rw [hi, length_cons]
        omega
    · obtain ⟨front, k, rest, hcode, hi⟩ := ih' (n + e.pats) (pc + 1 + e.size) h
      refine ⟨wcbCond .or (e.size + e'.size) :: (e.code n ++ front), k, rest, ?_, ?_⟩
      · rw [code, hcode]
        simp
      · rw [hi, length_cons, length_append, e.code_length]
        omega

end CondExpr

end Bsh.Shell
