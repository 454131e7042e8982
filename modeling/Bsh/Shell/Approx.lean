import Bsh.Library.EditDistance
import Bsh.Shell.Numbers

/-!
# Approximate matching of a literal string

`patcompile` on `(#aN)` with a literal string behind it, and `pattry` with the part of `patmatch`
that such a program reaches.  Strings are unmetafied and their characters are single bytes.  The
flags stand at the very start of the pattern, so that they go into the program and no node is
emitted for them.
-/

namespace Bsh.Shell

open List

namespace Approx

open Bsh.Library Bsh.Library.EditDistance

/-! ## Compilation -/

/-- The nodes of a program with one alternative, in the order in which they are reached: the
operand of `P_BRANCH` comes behind it. -/
inductive Upat where
  | branch
  | exactly (str : Bytes)
  | nothing
  | finish
  deriving DecidableEq

/-- What `pattry` reads of `struct patprog`. -/
structure Patprog where
  /-- `globflags & 0xff`, the errors that are allowed. -/
  globflags : ℕ
  /-- The string of a program with `PAT_PURES`. -/
  pures : Option Bytes
  code : List Upat
  deriving DecidableEq

/-- The flag `a` of `patgetglobflags`. -/
def patgetglobflags (ret : ℕ) : Option ℕ := if 254 < ret then none else some ret

/-- `patcomppiece` on a literal string: the node, and whether the string is still pure. -/
def patcomppiece (patglobflags : ℕ) (str : Bytes) : Upat × Bool :=
  (.exactly str, patglobflags = 0)

/-- `patcompbranch` behind the flags. -/
def patcompbranch (patglobflags : ℕ) (str : Bytes) : List Upat × Bool :=
  if str = [] then ([.nothing], true)
  else
    let (latest, pure) := patcomppiece patglobflags str
    ([latest], pure)

/-- The string that is copied when all of the program is pure. -/
def pureString : List Upat → Bytes
  | [] => []
  | .exactly str :: _ => str
  | _ :: next => pureString next

/-- `patcompile` of `(#aN)` and a literal string. -/
def patcompile (errs : ℕ) (str : Bytes) : Option Patprog :=
  (patgetglobflags errs).map fun patglobflags ↦
    let (branch, pure) := patcompbranch patglobflags str
    let code := .branch :: branch ++ [.finish]
    ⟨patglobflags, if pure then some (pureString code) else none, code⟩

/-! ## Matching -/

/-- The variables of the search: the input from `patinput` on, and the string between `exactpos`
and `exactend`. -/
structure Search where
  patinput : Bytes
  errsfound : ℕ
  exactpos : Option Bytes

/-- The loop of `P_EXACTLY`: what is left of the string and of the input. -/
def exactLoop : Bytes → Bytes → Bytes × Bytes
  | chpa :: chrop, chin :: patinput =>
    if chin = chpa then exactLoop chrop patinput else (chpa :: chrop, chin :: patinput)
  | chrop, patinput => (chrop, patinput)

/-- The second repair: the rest of string and input behind two characters that are exchanged. -/
def swapped : Bytes → Bytes → Option (Bytes × Bytes)
  | cpa0 :: cpa1 :: chrop, cin0 :: cin1 :: patinput =>
    if cin0 = cpa1 ∧ cin1 = cpa0 then some (chrop, patinput) else none
  | _, _ => none

/-- `patmatch`: each repair tries the same node again. -/
def patmatch (limit : ℕ) : List Upat → Search → Bool × Search
  | [], st => (false, st)
  | .branch :: next, st => patmatch limit next st
  | .nothing :: next, st => patmatch limit next st
  | .finish :: next, st =>
    match st.patinput with
    | [] => (true, st)
    | _ :: patinput =>
      if _h : st.errsfound < limit then
        patmatch limit (.finish :: next) ⟨patinput, st.errsfound + 1, st.exactpos⟩
      else (false, { st with exactpos := none })
  | .exactly str :: next, st =>
    match exactLoop (st.exactpos.getD str) st.patinput with
    | ([], patinput) => patmatch limit next ⟨patinput, st.errsfound, none⟩
    | (chpa :: nextexact, save) =>
      if _h : st.errsfound < limit then
        let scan := .exactly str :: next
        let saverrsfound := st.errsfound + 1
        match save with
        | [] => patmatch limit scan ⟨[], saverrsfound, some nextexact⟩
        | chin :: nextin =>
          -- Leave out a character of the input.
          let omitted := patmatch limit scan ⟨nextin, saverrsfound, some (chpa :: nextexact)⟩
          if omitted.1 then omitted
          else
            let exchanged :=
              match swapped (chpa :: nextexact) (chin :: nextin) with
              | none => (false, omitted.2)
              | some (chrop, patinput) =>
                patmatch limit scan ⟨patinput, saverrsfound, some chrop⟩
            if exchanged.1 then exchanged
            else
              let replaced := patmatch limit scan ⟨nextin, saverrsfound, some nextexact⟩
              if replaced.1 then replaced
              else patmatch limit scan ⟨chin :: nextin, saverrsfound, some nextexact⟩
      else (false, ⟨save, st.errsfound, none⟩)
  termination_by scan st => limit - st.errsfound + scan.length
  decreasing_by all_goals (simp only [length_cons]; omega)

/-- The comparison with a pure string in `pattryrefs`. -/
def pureMatch (pstr string : Bytes) : Bool :=
  if string.length < pstr.length then false
  else if string.take pstr.length = pstr then string.length = pstr.length
  else false

/-- `pattry`. -/
def pattry (prog : Patprog) (string : Bytes) : Bool :=
  match prog.pures with
  | some pstr => pureMatch pstr string
  | none => (patmatch prog.globflags prog.code ⟨string, 0, none⟩).1

/-! ## The search finds the least number of errors -/

theorem exactLoop_within {k : ℕ} (chrop patinput : Bytes) :
    Within k (exactLoop chrop patinput).1 (exactLoop chrop patinput).2 ↔
      Within k chrop patinput := by
  induction chrop generalizing patinput with
  | nil => rfl
  | cons chpa chrop ih =>
    cases patinput with
    | nil => rfl
    | cons chin patinput =>
      rw [exactLoop]
      by_cases heq : chin = chpa
      · rw [if_pos heq, ih, heq, within_cons_cons]
      · rw [if_neg heq]

/-- Where the loop stops in front of the end of the string, the next characters differ. -/
theorem exactLoop_stops {chrop patinput rest input : Bytes} {c : UInt8}
    (h : exactLoop chrop patinput = (c :: rest, input)) : ∀ b ∈ input.head?, c ≠ b := by
  induction chrop generalizing patinput with
  | nil => cases h
  | cons chpa chrop ih =>
    cases patinput with
    | nil =>
      cases h
      exact nofun
    | cons chin patinput =>
      rw [exactLoop] at h
      by_cases heq : chin = chpa
      · rw [if_pos heq] at h
        exact ih h
      · rw [if_neg heq] at h
        cases h
        intro b hb
        rw [← Option.some.inj hb]
        exact fun hback ↦ heq hback.symm

theorem swapped_eq_some {chpa chin : UInt8} {nextexact nextin chrop patinput : Bytes} :
    swapped (chpa :: nextexact) (chin :: nextin) = some (chrop, patinput) ↔
      nextin = chpa :: patinput ∧ nextexact = chin :: chrop := by
  cases nextexact with
  | nil => exact ⟨nofun, fun h ↦ absurd h.2 (cons_ne_nil _ _).symm⟩
  | cons cpa1 nextexact =>
    cases nextin with
    | nil => exact ⟨nofun, fun h ↦ absurd h.1 (cons_ne_nil _ _).symm⟩
    | cons cin1 nextin =>
      rw [swapped, List.cons.injEq, List.cons.injEq]
      by_cases hcross : chin = cpa1 ∧ cin1 = chpa
      · rw [if_pos hcross, Option.some.injEq, Prod.mk.injEq]
        constructor
        · rintro ⟨rfl, rfl⟩
          exact ⟨⟨hcross.2, rfl⟩, hcross.1.symm, rfl⟩
        · rintro ⟨⟨_, hin⟩, _, hexact⟩
          exact ⟨hexact, hin⟩
      · rw [if_neg hcross]
        constructor
        · exact nofun
        · rintro ⟨⟨hin, _⟩, hexact, _⟩
          exact absurd ⟨hexact.symm, hin⟩ hcross

/-- At the end of the program what is left of the input is left out. -/
theorem patmatch_finish {limit : ℕ} (next : List Upat) (st : Search) :
    (patmatch limit (.finish :: next) st).1 = true ↔
      st.patinput.length ≤ limit - st.errsfound := by
  obtain ⟨patinput, errsfound, exactpos⟩ := st
  induction patinput generalizing errsfound with
  | nil =>
    rw [patmatch]
    exact ⟨fun _ ↦ Nat.zero_le _, fun _ ↦ rfl⟩
  | cons chin patinput ih =>
    rw [patmatch]
    dsimp only [length_cons]
    by_cases hless : errsfound < limit
    · rw [dif_pos hless, ih]
      dsimp only
      omega
    · rw [dif_neg hless]
      constructor
      · exact nofun
      · omega

theorem firstOf_fst {σ : Type*} (r r' : Bool × σ) :
    (if r.1 then r else r').1 = true ↔ r.1 = true ∨ r'.1 = true := by
  obtain ⟨found, st⟩ := r
  cases found with
  | true => exact ⟨.inl, fun _ ↦ rfl⟩
  | false => exact ⟨.inr, fun h ↦ h.resolve_left nofun⟩

/-- The four repairs of a node, when the searches behind them are right. -/
theorem patmatch_repairs {limit : ℕ} {str nextexact nextin : Bytes} {next : List Upat}
    {st : Search} {chpa chin : UInt8} (hless : st.errsfound < limit)
    (hloop : exactLoop (st.exactpos.getD str) st.patinput = (chpa :: nextexact, chin :: nextin))
    {search : Bytes → Bytes → Prop}
    (hsearch : ∀ chrop patinput, (patmatch limit (.exactly str :: next)
      ⟨patinput, st.errsfound + 1, some chrop⟩).1 = true ↔ search chrop patinput) :
    (patmatch limit (.exactly str :: next) st).1 = true ↔
      search (chpa :: nextexact) nextin ∨
        (∃ chrop patinput, nextin = chpa :: patinput ∧ nextexact = chin :: chrop ∧
          search chrop patinput) ∨
        search nextexact nextin ∨ search nextexact (chin :: nextin) := by
  rw [patmatch, hloop]
  dsimp only
  rw [dif_pos hless, firstOf_fst, firstOf_fst, firstOf_fst, hsearch, hsearch, hsearch]
  refine or_congr_right (or_congr_left ?_)
  cases hswap : swapped (chpa :: nextexact) (chin :: nextin) with
  | none =>
    constructor
    · exact nofun
    · rintro ⟨chrop, patinput, hin, hexact, _⟩
      rw [swapped_eq_some.mpr ⟨hin, hexact⟩] at hswap
      cases hswap
  | some rest =>
    obtain ⟨chrop, patinput⟩ := rest
    obtain ⟨rfl, rfl⟩ := swapped_eq_some.mp hswap
    rw [hsearch]
    constructor
    · intro h
      exact ⟨chrop, patinput, rfl, rfl, h⟩
    · rintro ⟨chrop', patinput', hin, hexact, h⟩
      cases hin
      cases hexact
      exact h

/-- The search at a literal string finds out whether the errors that are left are enough. -/
theorem patmatch_exactly {limit : ℕ} (str : Bytes) (st : Search) :
    (patmatch limit [.exactly str, .finish] st).1 = true ↔
      Within (limit - st.errsfound) (st.exactpos.getD str) st.patinput := by
  rw [← exactLoop_within]
  generalize hloop : exactLoop _ st.patinput = loop
  obtain ⟨chrop, input⟩ := loop
  cases chrop with
  | nil =>
    rw [patmatch, hloop]
    exact (patmatch_finish [] _).trans within_nil.symm
  | cons chpa nextexact =>
    rw [within_cons_of_ne (exactLoop_stops hloop)]
    by_cases hless : st.errsfound < limit
    · have hleft : limit - st.errsfound - 1 = limit - (st.errsfound + 1) := Nat.sub_sub ..
      have hsearch (chrop patinput : Bytes) : (patmatch limit [.exactly str, .finish]
          ⟨patinput, st.errsfound + 1, some chrop⟩).1 = true ↔
            Within (limit - (st.errsfound + 1)) chrop patinput :=
        patmatch_exactly str _
      rw [hleft, and_iff_right (Nat.sub_pos_of_lt hless)]
      cases input with
      | nil =>
        rw [patmatch, hloop]
        dsimp only
        rw [dif_pos hless, hsearch]
        constructor
        · exact fun h ↦ .inr (.inr (.inr h))
        · rintro (⟨_, _, hnil, _⟩ | ⟨_, _, _, hnil, _⟩ | ⟨_, _, hnil, _⟩ | h)
          · cases hnil
          · cases hnil
          · cases hnil
          · exact h
      | cons chin nextin =>
        rw [patmatch_repairs hless hloop hsearch]
        apply or_congr
        · constructor
          · exact fun h ↦ ⟨chin, nextin, rfl, h⟩
          · rintro ⟨_, _, hin, h⟩
            cases hin
            exact h
        apply or_congr
        · constructor
          · rintro ⟨chrop, patinput, rfl, rfl, h⟩
            exact ⟨chin, patinput, chrop, rfl, rfl, h⟩
          · rintro ⟨b, s, p, hin, rfl, h⟩
            cases hin
            exact ⟨p, s, rfl, rfl, h⟩
        apply or_congr_left
        constructor
        · exact fun h ↦ ⟨chin, nextin, rfl, h⟩
        · rintro ⟨_, _, hin, h⟩
          cases hin
          exact h
    · rw [patmatch, hloop]
      dsimp only
      rw [dif_neg hless]
      constructor
      · exact nofun
      · rintro ⟨hpos, _⟩
        exact absurd (Nat.lt_of_sub_pos hpos) hless
  termination_by limit - st.errsfound
  decreasing_by omega

/-! ## Pure strings -/

theorem pureMatch_eq (pstr string : Bytes) : pureMatch pstr string = true ↔ string = pstr := by
  rw [pureMatch]
  by_cases hshort : string.length < pstr.length
  · rw [if_pos hshort]
    constructor
    · exact nofun
    · rintro rfl
      exact absurd hshort (Nat.lt_irrefl _)
  · rw [if_neg hshort]
    by_cases htake : string.take pstr.length = pstr
    · rw [if_pos htake, decide_eq_true_eq]
      constructor
      · intro hlength
        rwa [← hlength, take_length] at htake
      · exact congrArg List.length
    · rw [if_neg htake]
      constructor
      · exact nofun
      · rintro rfl
        exact absurd take_length htake

theorem patcompile_eq {errs : ℕ} (herrs : errs ≤ 254) (str : Bytes) :
    patcompile errs str = some
      (if str = [] then ⟨errs, some [], [.branch, .nothing, .finish]⟩
      else ⟨errs, if errs = 0 then some str else none, [.branch, .exactly str, .finish]⟩) := by
  rw [patcompile, patgetglobflags, if_neg (by omega : ¬ 254 < errs), Option.map_some,
    patcompbranch]
  by_cases hstr : str = []
  · rw [if_pos hstr, if_pos hstr]
    rfl
  · rw [if_neg hstr, if_neg hstr]
    by_cases hzero : errs = 0
    · rw [if_pos hzero, hzero]
      rfl
    · simp only [patcomppiece, decide_eq_true_eq, if_neg hzero]
      rfl

/-- A program with a string in it counts the errors, or there are none to count. -/
theorem pattry_literal {errs : ℕ} {str : Bytes} (string : Bytes) :
    pattry ⟨errs, if errs = 0 then some str else none, [.branch, .exactly str, .finish]⟩ string =
      true ↔ distance str string ≤ errs := by
  rw [← within_iff, pattry]
  by_cases hzero : errs = 0
  · rw [if_pos hzero, hzero, within_zero]
    exact (pureMatch_eq str string).trans eq_comm
  · rw [if_neg hzero]
    rw [patmatch, patmatch_exactly]
    exact Iff.rfl

/-- `(#aN)` with a literal string behind it matches the strings within the distance. -/
def MatchesWithin (errs : ℕ) (str string : Bytes) : Prop :=
  ∃ prog, patcompile errs str = some prog ∧
    (pattry prog string = true ↔ distance str string ≤ errs)

/-- The empty string is taken for a pure one, whose errors nobody counts. -/
theorem matchesWithin_iff {errs : ℕ} (herrs : errs ≤ 254) (str string : Bytes) :
    MatchesWithin errs str string ↔ str ≠ [] ∨ string = [] ∨ errs < string.length := by
  simp only [MatchesWithin, patcompile_eq herrs, Option.some.injEq, exists_eq_left']
  by_cases hstr : str = []
  · rw [if_pos hstr, hstr, ← within_iff, within_nil]
    have hpure : pattry ⟨errs, some [], [.branch, .nothing, .finish]⟩ string = true ↔ string = [] :=
      pureMatch_eq [] string
    rw [hpure, ← length_eq_zero_iff]
    constructor
    · intro h
      by_cases hle : string.length ≤ errs
      · exact .inr (.inl (h.mpr hle))
      · exact .inr (.inr (Nat.lt_of_not_le hle))
    · rintro (h | h | h)
      · exact absurd rfl h
      · exact iff_of_true h (h ▸ Nat.zero_le _)
      · exact iff_of_false (by omega) (by omega)
  · rw [if_neg hstr]
    exact iff_of_true (pattry_literal string) (.inl hstr)

/-- `(#a1)ab` and a string with its two characters exchanged. -/
theorem matchesWithin_exchanged :
    MatchesWithin 1 [char 'a', char 'b'] [char 'b', char 'a'] :=
  (matchesWithin_iff (by decide) _ _).mpr (.inl (by decide))

/-- `(#a1)` does not match `a`. -/
theorem not_matchesWithin_empty : ¬ MatchesWithin 1 [] [char 'a'] := by
  rintro ⟨prog, hprog, hmatch⟩
  cases hprog
  exact absurd (hmatch.mpr (within_iff.mp (within_nil.mpr (Nat.le_refl 1)))) (by decide)

end Approx

end Bsh.Shell
