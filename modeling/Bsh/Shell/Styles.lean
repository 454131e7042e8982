import Mathlib.Data.Nat.Basic
import Mathlib.Data.Prod.Lex
import Bsh.Library.Ranked
import Bsh.Library.Run
import Bsh.Shell.Numbers

/-!
# Styles

The style table of `zutil.c` and what `zstyle` does to it.  A style has a list of patterns with their
values; `setstypat` gives every new pattern a weight and puts it behind the patterns of at least that
weight, and a lookup takes the values of the first pattern that matches the context.

Compiling and matching patterns and parsing and running the code of `zstyle -e` are left to the rest
of the shell, whose answers may depend on the options and parameters at the time.
-/

namespace Bsh.Shell

open Bsh.Library List

/-- What styles need of the shell. -/
structure StyleShell (Env Prog Eprog : Type*) where
  /-- `patcompile` on the tokenized string. -/
  patcompile : Env → Bytes → Option Prog
  pattry : Env → Prog → Bytes → Bool
  /-- `parse_string` -/
  parseString : Env → Bytes → Option Eprog
  /-- `evalstyle`: run the code and take what it leaves in `reply`. -/
  evalstyle : Env → Eprog → Option (List Bytes)

/-- One of the patterns of a style. -/
structure Stypat (Prog Eprog : Type*) where
  pat : Bytes
  prog : Prog
  weight : UInt64
  eval : Option Eprog
  vals : List Bytes

structure Style (Prog Eprog : Type*) where
  nam : Bytes
  pats : List (Stypat Prog Eprog)

/-- `zstyletab` -/
abbrev StyleTable (Prog Eprog : Type*) := List (Style Prog Eprog)

/-! ## Weights -/

/-- The characters that make a component a pattern. -/
def isPatternChar (c : UInt8) : Bool :=
  c = char '(' || c = char '|' || c = char '*' || c = char '[' || c = char '<' || c = char '?' ||
    c = char '#' || c = char '^'

/-- The loop of `setstypat` over the pattern; `tmp` is the score of the component so far. -/
def stypatWeightFrom (first : Bool) (tmp weight : UInt64) : Bytes → UInt64
  | [] => weight + tmp
  | c :: str =>
    if first && c = char '*' && (str.isEmpty || headIs ':' str) then
      stypatWeightFrom first 0 weight str
    else
      let tmp := if isPatternChar c then 1 else tmp
      if c = char ':' then stypatWeightFrom true 2 (weight + (1 : UInt64) <<< 32 + tmp) str
      else stypatWeightFrom false tmp weight str

def stypatWeight (pat : Bytes) : UInt64 := stypatWeightFrom true 2 0 pat

section Table

variable {Env Prog Eprog : Type*}

/-- The weight as the loop of `setstypat` compares it. -/
def Stypat.rank (p : Stypat Prog Eprog) : ℕ := p.weight.toNat

/-! ## Definitions -/

/-- Replace the values of a pattern that is there. -/
def replaceStypat (pat : Bytes) (vals : List Bytes) (eprog : Option Eprog) :
    List (Stypat Prog Eprog) → Option (List (Stypat Prog Eprog))
  | [] => none
  | p :: rest =>
    if pat = p.pat then some ({ p with vals, eval := eprog } :: rest)
    else (replaceStypat pat vals eprog rest).map (p :: ·)

/-- `setstypat` after the values of `zstyle -e` have been parsed. -/
def Style.setstypat (s : Style Prog Eprog) (pat : Bytes) (prog : Prog) (vals : List Bytes)
    (eprog : Option Eprog) : Style Prog Eprog :=
  match replaceStypat pat vals eprog s.pats with
  | some pats => { s with pats }
  | none =>
    { s with pats := rankInsert Stypat.rank ⟨pat, prog, stypatWeight pat, eprog, vals⟩ s.pats }

/-- `zstyletab->getnode2` -/
def StyleTable.getnode (table : StyleTable Prog Eprog) (nam : Bytes) : Option (Style Prog Eprog) :=
  table.find? (·.nam = nam)

def StyleTable.addstyle (table : StyleTable Prog Eprog) (nam : Bytes) : StyleTable Prog Eprog :=
  ⟨nam, []⟩ :: table

/-- A change of the style with a name. -/
def StyleTable.update (table : StyleTable Prog Eprog) (nam : Bytes)
    (change : Style Prog Eprog → Style Prog Eprog) : StyleTable Prog Eprog :=
  table.map fun s ↦ if s.nam = nam then change s else s

/-- `zjoin(vals, ' ', 1)` -/
def zjoin (vals : List Bytes) : Bytes := [char ' '].intercalate vals

/-- The code that goes with the values; outside is `none` if they do not parse. -/
def StyleShell.eprogOf (sh : StyleShell Env Prog Eprog) (env : Env) (eval : Bool)
    (vals : List Bytes) : Option (Option Eprog) :=
  if eval then (sh.parseString env (zjoin vals)).map some else some none

/-- `zstyle pattern style values` with the table afterwards and whether it returned 0. -/
def StyleShell.define (sh : StyleShell Env Prog Eprog) (env : Env) (eval : Bool) (args : List Bytes)
    (table : StyleTable Prog Eprog) : StyleTable Prog Eprog × Bool :=
  match args with
  | pat :: nam :: vals =>
    match sh.patcompile env pat with
    | none => (table, false)
    | some prog =>
      -- The style is there before `setstypat` has parsed anything.
      let table := if (table.getnode nam).isSome then table else table.addstyle nam
      match sh.eprogOf env eval vals with
      | none => (table, false)
      | some eprog => (table.update nam fun s ↦ s.setstypat pat prog vals eprog, true)
  | _ => (table, false)

/-! ## Deletions -/

/-- `freestypat` on the pattern, if the style has it; a style without patterns goes. -/
def Style.freestypat (pat : Bytes) (s : Style Prog Eprog) : Option (Style Prog Eprog) :=
  if s.pats.any (·.pat = pat) then
    let rest := s.pats.eraseP (·.pat = pat)
    if rest.isEmpty then none else some { s with pats := rest }
  else some s

/-- `zstyle -d pattern style`, for one of the styles. -/
def StyleTable.freestypat (pat : Bytes) (table : StyleTable Prog Eprog) (nam : Bytes) :
    StyleTable Prog Eprog :=
  table.filterMap fun s ↦ if s.nam = nam then s.freestypat pat else some s

def StyleTable.deleteStyles (table : StyleTable Prog Eprog) : List Bytes → StyleTable Prog Eprog
  | [] => []
  -- A scan of the table with `ZSPAT_REMOVE`.
  | [pat] => table.filterMap (Style.freestypat pat)
  | pat :: nams => nams.foldl (StyleTable.freestypat pat) table

/-! ## The builtin -/

/-- What `zstyle` is asked for. -/
inductive StyleRequest where
  | define (eval : Bool) (args : List Bytes)
  | delete (args : List Bytes)
  | list (args : List Bytes)
  | retrieve (option : UInt8) (args : List Bytes)
  | refuse

def styleRequest : List Bytes → StyleRequest
  | [] => .list []
  | arg :: args =>
    if headIs '-' arg then
      match arg[1]? with
      | none => .define false args
      | some oc =>
        if oc = char '-' then .define false args
        else if 2 < arg.length then .refuse
        else if oc = char 'L' then .list args
        else if oc = char 'e' then .define true args
        else if oc = char 'd' then .delete args
        else if oc ∈ Bytes.ascii "sbatTmqg" then .retrieve oc args
        else .refuse
    else .define false (arg :: args)

/-- `bin_zstyle`, what it does to the table. -/
def StyleShell.binZstyle (sh : StyleShell Env Prog Eprog) (table : StyleTable Prog Eprog)
    (call : Env × List Bytes) : StyleTable Prog Eprog :=
  match styleRequest call.2 with
  | .define eval args => (sh.define call.1 eval args table).1
  | .delete args => table.deleteStyles args
  | _ => table

/-- `found` of `lookupstyle`. -/
def StyleShell.lookupstyle (sh : StyleShell Env Prog Eprog) (env : Env)
    (table : StyleTable Prog Eprog) (ctxt style : Bytes) : Option (List Bytes) :=
  match table.getnode style with
  | none => none
  | some s =>
    match s.pats.find? fun p ↦ sh.pattry env p.prog ctxt with
    | none => none
    | some p =>
      match p.eval with
      | some eprog => sh.evalstyle env eprog
      | none => some p.vals

end Table

end Bsh.Shell

/-!
# What a style lookup returns

The definitions of styles are kept here in the order in which they were first made, without weights.
Whatever definitions, redefinitions and deletions have come before, `lookupstyle` returns the values
of the most specific pattern of the style that matches, the first defined of equals.
-/

namespace Bsh.Shell

open Bsh.Library List

/-! ## Specificity -/

/-- A lone star, a pattern or a literal string. -/
def componentScore (component : Bytes) : ℕ :=
  if component = [char '*'] then 0 else if component.any isPatternChar then 1 else 2

def components (pat : Bytes) : List Bytes := pat.splitOn (char ':')

/-- The number of components, then the sum of their scores. -/
def specificity (pat : Bytes) : ℕ ×ₗ ℕ :=
  toLex ((components pat).length, ((components pat).map componentScore).sum)

/-- What the components add to the weight when the first of them has a given score. -/
def weightSum (score : ℕ) (rest : List Bytes) : ℕ :=
  rest.length * 2 ^ 32 + score + (rest.map componentScore).sum

variable {component : Bytes} {rest : List Bytes} (str : Bytes)

theorem components_colon : components (char ':' :: str) = [] :: components str := by
  simp [components, splitOn_cons_eq_if_modifyHead]

theorem components_char {c : UInt8} (hc : c ≠ char ':') {str : Bytes}
    (h : components str = component :: rest) :
    components (c :: str) = (c :: component) :: rest := by
  unfold components at h ⊢
  simp [splitOn_cons_eq_if_modifyHead, hc, h]

theorem exists_components :
    ∃ component rest, components str = component :: rest := by
  cases h : components str with
  | nil => exact absurd h (splitOn_ne_nil _ _)
  | cons component rest => exact ⟨component, rest, rfl⟩

theorem weightSum_cons (score : ℕ) (component : Bytes) (rest : List Bytes) :
    weightSum score (component :: rest) =
      2 ^ 32 + score + weightSum (componentScore component) rest := by
  simp only [weightSum, length_cons, map_cons, sum_cons]
  ring

/-- At the start of a component, inside of one with a given score, and behind a lone star. -/
theorem stypatWeightFrom_eq
    (h : components str = component :: rest) :
    (∀ weight, stypatWeightFrom true 2 weight str =
      weight + UInt64.ofNat (weightSum (componentScore component) rest)) ∧
    (∀ weight score, stypatWeightFrom false (UInt64.ofNat score) weight str = weight +
      UInt64.ofNat (weightSum (if component.any isPatternChar then 1 else score) rest)) ∧
    (str.isEmpty || headIs ':' str → component = [] ∧ ∀ weight,
      stypatWeightFrom true 0 weight str = weight + UInt64.ofNat (weightSum 0 rest)) := by
  induction str generalizing component rest with
  | nil =>
    obtain ⟨rfl, rfl⟩ := List.cons.inj h
    refine ⟨fun weight ↦ rfl, fun weight score ↦ ?_, fun _ ↦ ⟨rfl, fun weight ↦ rfl⟩⟩
    simp [stypatWeightFrom, weightSum]
  | cons c str ih =>
    obtain ⟨next, others, hnext⟩ := exists_components str
    obtain ⟨hstart, hinside, hstar⟩ := ih hnext
    by_cases hc : c = char ':'
    · subst hc
      rw [components_colon, hnext] at h
      obtain ⟨rfl, rfl⟩ := List.cons.inj h
      have hcolon : ∀ first weight score, stypatWeightFrom first (UInt64.ofNat score) weight
          (char ':' :: str) = weight + UInt64.ofNat (weightSum score (next :: others)) := by
        intro first weight score
        have hplain : (first && decide (char ':' = char '*') &&
            (str.isEmpty || headIs ':' str)) = false := by
          cases first <;> rfl
        rw [stypatWeightFrom, hplain, if_neg Bool.false_ne_true]
        rw [if_neg (by decide : ¬ isPatternChar (char ':') = true), if_pos rfl, hstart,
          weightSum_cons, UInt64.ofNat_add, UInt64.ofNat_add]
        have hshift : (1 : UInt64) <<< 32 = UInt64.ofNat (2 ^ 32) := by decide
        rw [hshift, UInt64.add_assoc, UInt64.add_assoc, UInt64.add_assoc]
      refine ⟨fun weight ↦ hcolon true weight 2, fun weight score ↦ hcolon false weight score,
        fun _ ↦ ⟨rfl, fun weight ↦ hcolon true weight 0⟩⟩
    · rw [components_char hc hnext] at h
      obtain ⟨rfl, rfl⟩ := List.cons.inj h
      have hplain : ∀ first weight score, (first && decide (c = char '*') &&
          (str.isEmpty || headIs ':' str)) = false →
          stypatWeightFrom first (UInt64.ofNat score) weight (c :: str) = weight + UInt64.ofNat
            (weightSum (if (c :: next).any isPatternChar then 1 else score) others) := by
        intro first weight score hplain
        rw [stypatWeightFrom, hplain, if_neg Bool.false_ne_true]
        rw [if_neg hc]
        cases hpattern : isPatternChar c with
        | true =>
          rw [if_pos rfl, show (1 : UInt64) = UInt64.ofNat 1 from rfl, hinside]
          simp [hpattern]
        | false =>
          rw [if_neg Bool.false_ne_true, hinside]
          simp [hpattern]
      refine ⟨fun weight ↦ ?_, fun weight score ↦ hplain false weight score rfl, fun hhead ↦ ?_⟩
      · cases hlone : (decide (c = char '*') && (str.isEmpty || headIs ':' str)) with
        | false =>
          have hscore : componentScore (c :: next) =
              if (c :: next).any isPatternChar then 1 else 2 := by
            refine if_neg fun heq ↦ ?_
            obtain ⟨rfl, rfl⟩ := List.cons.inj heq
            cases str with
            | nil => simp at hlone
            | cons d str =>
              by_cases hd : d = char ':'
              · subst hd
                simp [headIs] at hlone
              · obtain ⟨_, _, htail⟩ := exists_components str
                rw [components_char hd htail] at hnext
                cases hnext
          rw [hscore]
          exact hplain true weight 2 (by simpa using hlone)
        | true =>
          obtain ⟨hc', hhead⟩ := Bool.and_eq_true_iff.mp hlone
          obtain ⟨rfl, hweight⟩ := hstar hhead
          rw [stypatWeightFrom, if_pos (by simpa using hlone), hweight]
          rw [of_decide_eq_true hc']
          rfl
      · simp [headIs, hc] at hhead

theorem stypatWeight_eq {pat : Bytes}
    (h : components pat = component :: rest) : stypatWeight pat =
      UInt64.ofNat (weightSum (componentScore component) rest) := by
  rw [stypatWeight, (stypatWeightFrom_eq pat h).1, UInt64.zero_add]

theorem componentScore_le (component : Bytes) : componentScore component ≤ 2 := by
  unfold componentScore
  split
  · omega
  · split <;> omega

theorem sum_componentScore_le (parts : List Bytes) :
    (parts.map componentScore).sum ≤ 2 * parts.length := by
  induction parts with
  | nil => rfl
  | cons component parts ih =>
    have hle := componentScore_le component
    simp only [map_cons, sum_cons, length_cons]
    omega

/-- Few enough components for the two halves of a weight. -/
def FewComponents (pat : Bytes) : Prop := (components pat).length < 2 ^ 31

instance (pat : Bytes) : Decidable (FewComponents pat) := Nat.decLt _ _

/-- Weights order patterns as their specificities do. -/
theorem stypatWeight_lt_iff {pat pat' : Bytes} (h : FewComponents pat) (h' : FewComponents pat') :
    (stypatWeight pat).toNat < (stypatWeight pat').toNat ↔ specificity pat < specificity pat' := by
  obtain ⟨component, rest, hparts⟩ := exists_components pat
  obtain ⟨component', rest', hparts'⟩ := exists_components pat'
  unfold FewComponents at h h'
  have hsum := sum_componentScore_le (component :: rest)
  have hsum' := sum_componentScore_le (component' :: rest')
  rw [stypatWeight_eq hparts, stypatWeight_eq hparts', specificity, specificity, hparts, hparts',
    Prod.Lex.toLex_lt_toLex]
  rw [hparts] at h
  rw [hparts'] at h'
  simp only [weightSum, length_cons, map_cons, sum_cons] at h h' hsum hsum' ⊢
  rw [UInt64.toNat_ofNat', UInt64.toNat_ofNat', Nat.mod_eq_of_lt (by omega),
    Nat.mod_eq_of_lt (by omega)]
  omega

/-! ## Definitions in the order in which they were made -/

structure StyleDef (Prog Eprog : Type*) where
  nam : Bytes
  pat : Bytes
  prog : Prog
  eval : Option Eprog
  vals : List Bytes

abbrev StyleDefs (Prog Eprog : Type*) := List (StyleDef Prog Eprog)

section Table

variable {Env Prog Eprog : Type*}

def StyleDef.stypat (d : StyleDef Prog Eprog) : Stypat Prog Eprog :=
  ⟨d.pat, d.prog, stypatWeight d.pat, d.eval, d.vals⟩

/-- Definitions of one pattern for one style. -/
def StyleDef.sameKey (d other : StyleDef Prog Eprog) : Bool := d.nam = other.nam && d.pat = other.pat

/-- A definition that takes the values of a later one. -/
def StyleDef.redefined (d old : StyleDef Prog Eprog) : StyleDef Prog Eprog :=
  if d.sameKey old then { old with eval := d.eval, vals := d.vals } else old

/-- A redefinition stays where the definition was. -/
def StyleDefs.define (defs : StyleDefs Prog Eprog) (d : StyleDef Prog Eprog) : StyleDefs Prog Eprog :=
  if defs.any d.sameKey then defs.map d.redefined else defs ++ [d]

def StyleDefs.delete (defs : StyleDefs Prog Eprog) : List Bytes → StyleDefs Prog Eprog
  | [] => []
  | [pat] => defs.filter fun d ↦ d.pat ≠ pat
  | pat :: nams => defs.filter fun d ↦ ¬(d.pat = pat ∧ d.nam ∈ nams)

/-- What a call of `zstyle` means for the definitions. -/
def StyleShell.record (sh : StyleShell Env Prog Eprog) (defs : StyleDefs Prog Eprog)
    (call : Env × List Bytes) : StyleDefs Prog Eprog :=
  match styleRequest call.2 with
  | .define eval (pat :: nam :: vals) =>
    match sh.patcompile call.1 pat, sh.eprogOf call.1 eval vals with
    | some prog, some eprog => defs.define ⟨nam, pat, prog, eprog, vals⟩
    | _, _ => defs
  | .delete args => defs.delete args
  | _ => defs

/-- What a definition gives to a lookup. -/
def StyleShell.valuesOf (sh : StyleShell Env Prog Eprog) (env : Env) (d : StyleDef Prog Eprog) :
    Option (List Bytes) :=
  match d.eval with
  | some eprog => sh.evalstyle env eprog
  | none => some d.vals

/-- The values of the most specific pattern of the style that matches, the first of equals. -/
def StyleShell.Returns (sh : StyleShell Env Prog Eprog) (env : Env) (defs : StyleDefs Prog Eprog)
    (ctxt style : Bytes) (found : Option (List Bytes)) : Prop :=
  let ofStyle := defs.filter (·.nam = style)
  (∃ d, Preferred (fun d ↦ specificity d.pat) (fun d ↦ sh.pattry env d.prog ctxt) ofStyle d ∧
    found = sh.valuesOf env d) ∨
  (∀ d ∈ ofStyle, sh.pattry env d.prog ctxt = false) ∧ found = none

/-! ## The table and the definitions -/

/-- The patterns of a style, none if it is not in the table. -/
def StyleTable.patsOf (table : StyleTable Prog Eprog) (nam : Bytes) : List (Stypat Prog Eprog) :=
  (table.getnode nam).elim [] Style.pats

/-- The table holds the definitions, those of every style ordered by weight. -/
structure Records (table : StyleTable Prog Eprog) (defs : StyleDefs Prog Eprog) : Prop where
  names : (table.map Style.nam).Nodup
  keys : (defs.map fun d ↦ (d.nam, d.pat)).Nodup
  pats : ∀ nam, table.patsOf nam =
    ranked Stypat.rank ((defs.filter (·.nam = nam)).map StyleDef.stypat)

theorem records_nil : Records ([] : StyleTable Prog Eprog) [] :=
  ⟨nodup_nil, nodup_nil, fun _ ↦ rfl⟩

variable {d : StyleDef Prog Eprog} {s : Style Prog Eprog} {table : StyleTable Prog Eprog}

theorem getnode_filterMap (h : (table.map Style.nam).Nodup)
    {change : Style Prog Eprog → Option (Style Prog Eprog)}
    (hchange : ∀ s s', change s = some s' → s'.nam = s.nam) (nam : Bytes) :
    StyleTable.getnode (table.filterMap change) nam = (table.getnode nam).bind change := by
  unfold StyleTable.getnode
  induction table with
  | nil => rfl
  | cons s table ih =>
    obtain ⟨hs, hrest⟩ := List.nodup_cons.mp h
    rw [filterMap_cons, List.find?_cons]
    by_cases hnam : s.nam = nam
    · have hnone : List.find? (fun s ↦ decide (s.nam = nam)) (table.filterMap change) = none := by
        rw [List.find?_eq_none]
        intro s' hs' hnam'
        obtain ⟨old, hold, heq⟩ := List.mem_filterMap.mp hs'
        apply hs
        rw [hnam, ← of_decide_eq_true hnam', hchange old s' heq]
        exact mem_map_of_mem hold
      cases hc : change s with
      | none => simp [hnam, hc, hnone]
      | some s' => simp [hnam, hc, hchange s s' hc]
    · cases hc : change s with
      | none => simp [hnam, ih hrest]
      | some s' => simp [hnam, hchange s s' hc, ih hrest]

theorem names_filterMap (h : (table.map Style.nam).Nodup)
    {change : Style Prog Eprog → Option (Style Prog Eprog)}
    (hchange : ∀ s s', change s = some s' → s'.nam = s.nam) :
    ((table.filterMap change).map Style.nam).Nodup := by
  refine List.Nodup.sublist ?_ h
  induction table with
  | nil => exact List.Sublist.refl _
  | cons s table ih =>
    have hrest := ih (List.nodup_cons.mp h).2
    rw [filterMap_cons, map_cons]
    cases hc : change s with
    | none => exact hrest.cons _
    | some s' =>
      rw [map_cons, hchange s s' hc]
      exact hrest.cons_cons _

theorem getnode_nam {nam : Bytes}
    (h : table.getnode nam = some s) : s.nam = nam :=
  of_decide_eq_true (List.find?_some (p := fun s : Style Prog Eprog ↦ decide (s.nam = nam)) h)

variable {table : StyleTable Prog Eprog} {defs : StyleDefs Prog Eprog}

theorem Records.pats_perm (h : Records table defs) (nam : Bytes) :
    ((table.patsOf nam).map Stypat.pat).Perm ((defs.filter (·.nam = nam)).map StyleDef.pat) := by
  rw [h.pats nam]
  have hperm := (ranked_perm Stypat.rank ((defs.filter (·.nam = nam)).map StyleDef.stypat)).map
    Stypat.pat
  rwa [map_map] at hperm

theorem Records.pats_nodup (h : Records table defs) (nam : Bytes) :
    ((table.patsOf nam).map Stypat.pat).Nodup := by
  rw [(h.pats_perm nam).nodup_iff, List.Nodup, pairwise_map]
  have hkeys := (List.pairwise_map.mp h.keys).filter (·.nam = nam)
  refine hkeys.imp_of_mem fun {d other} hd hother hne hpat ↦ hne ?_
  have hnam := of_decide_eq_true (List.mem_filter.mp hd).2
  have hnam' := of_decide_eq_true (List.mem_filter.mp hother).2
  rw [hnam, hnam', hpat]

theorem Records.any_iff (h : Records table defs) (d : StyleDef Prog Eprog) :
    (table.patsOf d.nam).any (·.pat = d.pat) = defs.any d.sameKey := by
  rw [Bool.eq_iff_iff, any_eq_true, any_eq_true]
  have hmem : d.pat ∈ (table.patsOf d.nam).map Stypat.pat ↔
      d.pat ∈ (defs.filter (·.nam = d.nam)).map StyleDef.pat := (h.pats_perm d.nam).mem_iff
  simp only [mem_map, mem_filter, decide_eq_true_eq] at hmem ⊢
  rw [hmem]
  constructor
  · rintro ⟨old, ⟨hold, hnam⟩, hpat⟩
    exact ⟨old, hold, by simp [StyleDef.sameKey, hnam, hpat]⟩
  · rintro ⟨old, hold, hkey⟩
    obtain ⟨hnam, hpat⟩ : d.nam = old.nam ∧ d.pat = old.pat := by
      simpa [StyleDef.sameKey] using hkey
    exact ⟨old, ⟨hold, hnam.symm⟩, hpat.symm⟩

/-! ## Deletions -/

theorem eraseP_pat {pats : List (Stypat Prog Eprog)} (h : (pats.map Stypat.pat).Nodup)
    (pat : Bytes) : pats.eraseP (·.pat = pat) = pats.filter (·.pat ≠ pat) := by
  induction pats with
  | nil => rfl
  | cons p pats ih =>
    obtain ⟨hp, hrest⟩ := List.nodup_cons.mp h
    by_cases hpat : p.pat = pat
    · have hall : pats.filter (·.pat ≠ pat) = pats := by
        rw [filter_eq_self]
        intro q hq
        have hne : q.pat ≠ pat := by
          rintro heq
          apply hp
          rw [hpat, ← heq]
          exact mem_map_of_mem hq
        exact decide_eq_true hne
      rw [eraseP_cons_of_pos (by simpa using hpat), filter_cons_of_neg (by simpa using hpat),
        hall]
    · rw [eraseP_cons_of_neg (by simpa using hpat),
        filter_cons_of_pos (by simpa using hpat), ih hrest]

theorem freestypat_pats (h : (s.pats.map Stypat.pat).Nodup) (pat : Bytes) :
    (s.freestypat pat).elim [] Style.pats = s.pats.filter (·.pat ≠ pat) := by
  rw [Style.freestypat]
  by_cases hany : s.pats.any (·.pat = pat) = true
  · rw [if_pos hany]
    rw [eraseP_pat h]
    cases hrest : s.pats.filter (·.pat ≠ pat) <;> rfl
  · rw [if_neg hany]
    refine (List.filter_eq_self.mpr fun p hp ↦ ?_).symm
    have hne : p.pat ≠ pat := fun hpat ↦ hany (List.any_eq_true.mpr ⟨p, hp, decide_eq_true hpat⟩)
    exact decide_eq_true hne

theorem freestypat_nam {s' : Style Prog Eprog} {pat : Bytes} (h : s.freestypat pat = some s') :
    s'.nam = s.nam := by
  rw [Style.freestypat] at h
  split at h
  · dsimp only at h
    split at h
    · cases h
    · cases h
      rfl
  · cases h
    rfl

/-- Dropping the same patterns from the styles and from the definitions. -/
theorem Records.drop (h : Records table defs)
    {change : Style Prog Eprog → Option (Style Prog Eprog)}
    (hnam : ∀ s s', change s = some s' → s'.nam = s.nam) (keep : Bytes → Bytes → Bool)
    (hchange : ∀ s, (s.pats.map Stypat.pat).Nodup →
      (change s).elim [] Style.pats = s.pats.filter fun p ↦ keep s.nam p.pat) :
    Records (table.filterMap change) (defs.filter fun d ↦ keep d.nam d.pat) := by
  refine ⟨names_filterMap h.names hnam, ?_, fun nam ↦ ?_⟩
  · exact h.keys.sublist (List.filter_sublist.map _)
  · have hpats : StyleTable.patsOf (table.filterMap change) nam =
        (table.patsOf nam).filter fun p ↦ keep nam p.pat := by
      have hnodup := h.pats_nodup nam
      unfold StyleTable.patsOf at hnodup ⊢
      rw [getnode_filterMap h.names hnam]
      cases hnode : table.getnode nam with
      | none => rfl
      | some s =>
        rw [hnode] at hnodup
        rw [← getnode_nam hnode]
        exact hchange s hnodup
    rw [hpats, h.pats nam, ← ranked_filter, filter_map, filter_filter, filter_filter]
    congr 2
    refine filter_congr fun d _ ↦ ?_
    by_cases hd : d.nam = nam
    · simp [hd, StyleDef.stypat]
    · simp [hd]

theorem Records.deleteStyles (h : Records table defs) (args : List Bytes) :
    Records (table.deleteStyles args) (defs.delete args) := by
  match args with
  | [] => exact records_nil
  | [pat] =>
    exact h.drop (fun _ _ ↦ freestypat_nam) (fun _ p ↦ decide (p ≠ pat))
      fun _ hs ↦ freestypat_pats hs pat
  | pat :: nam :: nams =>
    rw [StyleTable.deleteStyles, StyleDefs.delete]
    · generalize nam :: nams = nams
      induction nams generalizing table defs with
      | nil => simpa using h
      | cons nam nams ih =>
        have hone : Records (StyleTable.freestypat pat table nam)
            (defs.filter fun d ↦ ¬(d.nam = nam ∧ d.pat = pat)) := by
          refine h.drop (fun s s' hs ↦ ?_) (fun n p ↦ ¬(n = nam ∧ p = pat)) fun s hs ↦ ?_
          · split at hs
            · exact freestypat_nam hs
            · cases hs
              rfl
          · split
            · next hnam => simp [freestypat_pats hs, hnam]
            · next hnam => simp [hnam]
        have hrest := ih hone
        rw [foldl_cons]
        rw [filter_filter] at hrest
        convert hrest using 2
        funext d
        by_cases hpat : d.pat = pat <;> by_cases hnam : d.nam = nam <;> simp [hpat, hnam]
    · simp
    · simp

/-! ## Definitions -/

/-- A pattern that takes the values of a definition. -/
def StyleDef.revalued (d : StyleDef Prog Eprog) (p : Stypat Prog Eprog) : Stypat Prog Eprog :=
  if d.pat = p.pat then { p with vals := d.vals, eval := d.eval } else p

theorem replaceStypat_eq {pats : List (Stypat Prog Eprog)} (h : (pats.map Stypat.pat).Nodup)
    (d : StyleDef Prog Eprog) : replaceStypat d.pat d.vals d.eval pats =
      if pats.any (·.pat = d.pat) then some (pats.map d.revalued) else none := by
  induction pats with
  | nil => rfl
  | cons p pats ih =>
    obtain ⟨hp, hrest⟩ := List.nodup_cons.mp h
    rw [replaceStypat]
    by_cases hpat : d.pat = p.pat
    · have hsame : pats.map d.revalued = pats := by
        refine (map_congr_left fun q hq ↦ if_neg fun heq ↦ hp ?_).trans (map_id pats)
        rw [← hpat, heq]
        exact mem_map_of_mem hq
      rw [if_pos hpat, any_cons, decide_eq_true hpat.symm, map_cons, hsame,
        StyleDef.revalued, if_pos hpat]
      rfl
    · have hne : decide (p.pat = d.pat) = false := decide_eq_false fun heq ↦ hpat heq.symm
      rw [if_neg hpat, ih hrest, any_cons, hne, Bool.false_or, map_cons,
        StyleDef.revalued, if_neg hpat]
      split <;> rfl

theorem setstypat_pats (h : (s.pats.map Stypat.pat).Nodup)
    (d : StyleDef Prog Eprog) : (s.setstypat d.pat d.prog d.vals d.eval).pats =
      if s.pats.any (·.pat = d.pat) then s.pats.map d.revalued
      else rankInsert Stypat.rank d.stypat s.pats := by
  rw [Style.setstypat, replaceStypat_eq h]
  by_cases hany : s.pats.any (·.pat = d.pat) = true
  · simp only [if_pos hany]
  · simp only [if_neg hany]
    rfl

theorem setstypat_nam (s : Style Prog Eprog) (d : StyleDef Prog Eprog) :
    (s.setstypat d.pat d.prog d.vals d.eval).nam = s.nam := by
  rw [Style.setstypat]
  split <;> rfl

theorem update_eq_filterMap (table : StyleTable Prog Eprog) (nam : Bytes)
    (change : Style Prog Eprog → Style Prog Eprog) : table.update nam change =
      table.filterMap fun s ↦ some (if s.nam = nam then change s else s) :=
  (congrFun filterMap_eq_map table).symm

theorem Records.addstyle (h : Records table defs) {nam : Bytes} (hnone : table.getnode nam = none) :
    Records (table.addstyle nam) defs := by
  refine ⟨List.nodup_cons.mpr ⟨fun hmem ↦ ?_, h.names⟩, h.keys, fun other ↦ ?_⟩
  · obtain ⟨s, hs, hnam⟩ := List.mem_map.mp hmem
    have hne := List.find?_eq_none.mp hnone s hs
    exact hne (decide_eq_true hnam)
  · rw [← h.pats other]
    unfold StyleTable.patsOf StyleTable.getnode StyleTable.addstyle
    by_cases hother : nam = other
    · subst hother
      unfold StyleTable.getnode at hnone
      simp [hnone]
    · simp [hother]

theorem filter_redefined (defs : StyleDefs Prog Eprog) (d : StyleDef Prog Eprog) (nam : Bytes) :
    (defs.map d.redefined).filter (·.nam = nam) = (defs.filter (·.nam = nam)).map d.redefined := by
  rw [filter_map]
  congr 1
  refine filter_congr fun old _ ↦ ?_
  rw [Function.comp_apply, StyleDef.redefined]
  split <;> rfl

theorem update_nam {s' : Style Prog Eprog} (h : some (if s.nam = d.nam
    then s.setstypat d.pat d.prog d.vals d.eval else s) = some s') : s'.nam = s.nam := by
  cases h
  split
  · exact setstypat_nam s d
  · rfl

theorem Records.patsOf_update (h : Records table defs)
    (hnode : (table.getnode d.nam).isSome = true) (nam : Bytes) :
    StyleTable.patsOf (table.update d.nam fun s ↦ s.setstypat d.pat d.prog d.vals d.eval) nam =
      if nam = d.nam then
        if defs.any d.sameKey then (table.patsOf nam).map d.revalued
        else rankInsert Stypat.rank d.stypat (table.patsOf nam)
      else table.patsOf nam := by
  have hnodup := h.pats_nodup nam
  unfold StyleTable.patsOf at hnodup ⊢
  rw [update_eq_filterMap, getnode_filterMap h.names fun _ _ ↦ update_nam]
  cases hs : table.getnode nam with
  | none =>
    have hd : nam ≠ d.nam := by
      rintro rfl
      rw [hs] at hnode
      cases hnode
    simp [hd]
  | some s =>
    rw [hs] at hnodup
    by_cases hd : nam = d.nam
    · have hany : s.pats.any (·.pat = d.pat) = defs.any d.sameKey := by
        rw [← h.any_iff d, ← hd, StyleTable.patsOf, hs]
        rfl
      rw [if_pos hd, ← hany]
      simp only [Option.bind_some, Option.elim_some, getnode_nam hs, if_pos hd]
      exact setstypat_pats hnodup d
    · simp [getnode_nam hs, hd]

theorem keys_define (h : (defs.map fun d ↦ (d.nam, d.pat)).Nodup) :
    ((defs.define d).map fun d ↦ (d.nam, d.pat)).Nodup := by
  rw [StyleDefs.define]
  split
  · have hkey : ∀ old, (fun d : StyleDef Prog Eprog ↦ (d.nam, d.pat)) (d.redefined old) =
        (old.nam, old.pat) := by
      intro old
      unfold StyleDef.redefined
      split <;> rfl
    rw [map_map]
    convert h using 2
    exact funext hkey
  · next hany =>
    rw [map_append, nodup_append]
    refine ⟨h, nodup_singleton _, fun key hkey key' hkey' heq ↦ hany ?_⟩
    obtain ⟨old, hold, rfl⟩ := List.mem_map.mp hkey
    rw [map_singleton, mem_singleton] at hkey'
    rw [hkey'] at heq
    obtain ⟨hnam, hpat⟩ := Prod.ext_iff.mp heq
    refine List.any_eq_true.mpr ⟨old, hold, ?_⟩
    simp only [StyleDef.sameKey, Bool.and_eq_true, decide_eq_true_eq]
    exact ⟨hnam.symm, hpat.symm⟩

theorem stypat_redefined {old : StyleDef Prog Eprog} (h : old.nam = d.nam) :
    (d.redefined old).stypat = d.revalued old.stypat := by
  unfold StyleDef.redefined StyleDef.revalued
  by_cases hpat : d.pat = old.stypat.pat
  · have hkey : d.sameKey old = true := by
      simp only [StyleDef.sameKey, h, decide_true, Bool.true_and, decide_eq_true_eq]
      exact hpat
    rw [if_pos hkey, if_pos hpat]
    rfl
  · have hkey : ¬ d.sameKey old = true := by
      simp only [StyleDef.sameKey, h, decide_true, Bool.true_and, decide_eq_true_eq]
      exact hpat
    rw [if_neg hkey, if_neg hpat]

theorem redefined_other {old : StyleDef Prog Eprog} (h : old.nam ≠ d.nam) :
    d.redefined old = old := by
  refine if_neg fun hkey ↦ h ?_
  simp only [StyleDef.sameKey, Bool.and_eq_true, decide_eq_true_eq] at hkey
  exact hkey.1.symm

theorem Records.define (h : Records table defs)
    (hnode : (table.getnode d.nam).isSome = true) :
    Records (table.update d.nam fun s ↦ s.setstypat d.pat d.prog d.vals d.eval)
      (defs.define d) := by
  refine ⟨?_, keys_define h.keys, fun nam ↦ ?_⟩
  · rw [update_eq_filterMap]
    exact names_filterMap h.names fun _ _ ↦ update_nam
  · rw [h.patsOf_update hnode, StyleDefs.define, h.pats nam]
    by_cases hany : defs.any d.sameKey = true
    · rw [if_pos hany, if_pos hany, filter_redefined, map_map]
      by_cases hd : nam = d.nam
      · have hrank : ∀ p : Stypat Prog Eprog, (d.revalued p).rank = p.rank := by
          intro p
          unfold StyleDef.revalued
          split <;> rfl
        rw [if_pos hd, ← ranked_map hrank, map_map]
        congr 1
        refine map_congr_left fun old hold ↦ ?_
        exact (stypat_redefined ((of_decide_eq_true (List.mem_filter.mp hold).2).trans hd)).symm
      · rw [if_neg hd]
        congr 1
        refine map_congr_left fun old hold ↦ ?_
        have hnam := of_decide_eq_true (List.mem_filter.mp hold).2
        rw [Function.comp_apply, redefined_other fun heq ↦ hd (hnam.symm.trans heq)]
    · rw [if_neg hany, if_neg hany, filter_append, map_append]
      by_cases hd : nam = d.nam
      · rw [if_pos hd, filter_singleton, decide_eq_true hd.symm]
        exact (ranked_concat _ _).symm
      · have hne : decide (d.nam = nam) = false := decide_eq_false fun heq ↦ hd heq.symm
        rw [if_neg hd, filter_singleton, hne]
        simp

/-! ## Runs -/

variable {sh : StyleShell Env Prog Eprog}

theorem Records.binZstyle (h : Records table defs) (call : Env × List Bytes) :
    Records (sh.binZstyle table call) (sh.record defs call) := by
  rw [StyleShell.binZstyle, StyleShell.record]
  cases styleRequest call.2 with
  | define eval args =>
    match args with
    | [] => exact h
    | [_] => exact h
    | pat :: nam :: vals =>
      simp only [StyleShell.define]
      cases sh.patcompile call.1 pat with
      | none => exact h
      | some prog =>
        have hadded : Records (if (table.getnode nam).isSome then table else table.addstyle nam)
            defs := by
          split
          · exact h
          · next hnone => exact h.addstyle (Option.not_isSome_iff_eq_none.mp hnone)
        cases sh.eprogOf call.1 eval vals with
        | none => exact hadded
        | some eprog =>
          refine hadded.define (d := ⟨nam, pat, prog, eprog, vals⟩) ?_
          split
          · next hsome => exact hsome
          · simp [StyleTable.getnode, StyleTable.addstyle]
  | delete args => exact h.deleteStyles args
  | list args => exact h
  | retrieve option args => exact h
  | refuse => exact h

/-- Patterns that are given to `zstyle` have few components. -/
def FewGiven (args : List Bytes) : Prop :=
  ∀ eval pat rest, styleRequest args = .define eval (pat :: rest) → FewComponents pat

theorem few_record (h : ∀ d ∈ defs, FewComponents d.pat) {call : Env × List Bytes}
    (hcall : FewGiven call.2) : ∀ d ∈ sh.record defs call, FewComponents d.pat := by
  rw [StyleShell.record]
  cases hrequest : styleRequest call.2 with
  | define eval args =>
    match args with
    | [] => exact h
    | [_] => exact h
    | pat :: nam :: vals =>
      dsimp only
      split
      · next prog eprog _ _ =>
        intro d hd
        rw [StyleDefs.define] at hd
        split at hd
        · obtain ⟨old, hold, rfl⟩ := List.mem_map.mp hd
          have hkept : ((⟨nam, pat, prog, eprog, vals⟩ : StyleDef Prog Eprog).redefined old).pat =
              old.pat := by
            unfold StyleDef.redefined
            split <;> rfl
          rw [hkept]
          exact h old hold
        · rcases List.mem_append.mp hd with hold | hnew
          · exact h d hold
          · rw [List.mem_singleton.mp hnew]
            exact hcall eval pat (nam :: vals) hrequest
      · exact h
  | delete args =>
    intro d hd
    match args, hd with
    | [_], hd => exact h d (List.mem_filter.mp hd).1
    | _ :: _ :: _, hd => exact h d (List.mem_filter.mp hd).1
  | list args => exact h
  | retrieve option args => exact h
  | refuse => exact h

/-- The lookup finds the pattern that is preferred by its weight. -/
theorem Records.lookupstyle (h : Records table defs) (hfew : ∀ d ∈ defs, FewComponents d.pat)
    (env : Env) (ctxt style : Bytes) :
    sh.Returns env defs ctxt style (sh.lookupstyle env table ctxt style) := by
  let fits : StyleDef Prog Eprog → Bool := fun d ↦ sh.pattry env d.prog ctxt
  let weight : StyleDef Prog Eprog → ℕ := fun d ↦ d.stypat.rank
  have hfind : (table.patsOf style).find? (fun p ↦ sh.pattry env p.prog ctxt) =
      ((ranked weight (defs.filter (·.nam = style))).find? fits).map StyleDef.stypat := by
    have hweight : ∀ d : StyleDef Prog Eprog, d.stypat.rank = weight d := fun _ ↦ rfl
    rw [h.pats style, ranked_map hweight, List.find?_map]
    rfl
  have hlookup : sh.lookupstyle env table ctxt style =
      ((ranked weight (defs.filter (·.nam = style))).find? fits).bind (sh.valuesOf env) := by
    unfold StyleTable.patsOf at hfind
    rw [StyleShell.lookupstyle]
    cases hnode : table.getnode style with
    | none =>
      rw [hnode] at hfind
      rw [Option.map_eq_none_iff.mp hfind.symm]
      rfl
    | some s =>
      rw [hnode] at hfind
      simp only [Option.elim_some] at hfind
      dsimp only
      rw [hfind]
      cases (ranked weight _).find? fits <;> rfl
  rw [hlookup]
  cases hd : (ranked weight _).find? fits with
  | none => exact .inr ⟨fun d hmem ↦ find?_ranked_none.mp hd d hmem, rfl⟩
  | some d =>
    refine .inl ⟨d, (preferred_of_find? hd).of_lt_iff fun a ha b hb ↦ ?_, rfl⟩
    exact stypatWeight_lt_iff (hfew a (List.mem_filter.mp ha).1)
      (hfew b (List.mem_filter.mp hb).1)

/-- A definition that does not return 0. -/
def StyleShell.Fails (sh : StyleShell Env Prog Eprog) (table : StyleTable Prog Eprog)
    (call : Env × List Bytes) : Prop :=
  ∃ eval args, styleRequest call.2 = .define eval args ∧ (sh.define call.1 eval args table).2 = false

/-- What the documentation says of a run from the empty table: lookups after any part of it return
what the definitions so far say, and definitions that fail leave the table as it was. -/
def StyleShell.Documented (sh : StyleShell Env Prog Eprog) (calls : List (Env × List Bytes)) : Prop :=
  (∀ before, before <+: calls → ∀ env ctxt style,
    sh.Returns env (run sh.record [] before) ctxt style
      (sh.lookupstyle env (run sh.binZstyle [] before) ctxt style)) ∧
  ∀ before call, before ++ [call] <+: calls → sh.Fails (run sh.binZstyle [] before) call →
    sh.binZstyle (run sh.binZstyle [] before) call = run sh.binZstyle [] before

/-- Values for `zstyle -e` that do not parse are given only to a style that is in the table. -/
def StyleShell.KnowsStyle (sh : StyleShell Env Prog Eprog) (table : StyleTable Prog Eprog)
    (call : Env × List Bytes) : Prop :=
  ∀ eval pat nam vals, styleRequest call.2 = .define eval (pat :: nam :: vals) →
    (sh.patcompile call.1 pat).isSome = true → sh.eprogOf call.1 eval vals = none →
    (table.getnode nam).isSome = true

theorem failing_iff (sh : StyleShell Env Prog Eprog) (table : StyleTable Prog Eprog)
    (call : Env × List Bytes) : (sh.Fails table call → sh.binZstyle table call = table) ↔
      sh.KnowsStyle table call := by
  have hadd : ∀ nam, (if (table.getnode nam).isSome then table else table.addstyle nam) = table ↔
      (table.getnode nam).isSome = true := by
    intro nam
    split
    · next hsome => exact iff_of_true rfl hsome
    · next hnone =>
      refine iff_of_false (fun heq ↦ ?_) hnone
      have hlength := congrArg List.length heq
      simp [StyleTable.addstyle] at hlength
  constructor
  · intro h eval pat nam vals hrequest hprog heprog
    obtain ⟨prog, hprog⟩ := Option.isSome_iff_exists.mp hprog
    have hdefine : sh.define call.1 eval (pat :: nam :: vals) table =
        (if (table.getnode nam).isSome then table else table.addstyle nam, false) := by
      simp only [StyleShell.define, hprog, heprog]
    have hsame := h ⟨eval, _, hrequest, by rw [hdefine]⟩
    rw [StyleShell.binZstyle, hrequest] at hsame
    dsimp only at hsame
    rw [hdefine] at hsame
    exact (hadd nam).mp hsame
  · rintro h ⟨eval, args, hrequest, hfails⟩
    rw [StyleShell.binZstyle, hrequest]
    match args, hfails with
    | [], _ => rfl
    | [_], _ => rfl
    | pat :: nam :: vals, hfails =>
      cases hprog : sh.patcompile call.1 pat with
      | none => simp only [StyleShell.define, hprog]
      | some prog =>
        cases heprog : sh.eprogOf call.1 eval vals with
        | some eprog => simp [StyleShell.define, hprog, heprog] at hfails
        | none =>
          simp only [StyleShell.define, hprog, heprog]
          exact (hadd nam).mpr (h eval pat nam vals hrequest (by rw [hprog]; rfl) heprog)

theorem records_run {calls : List (Env × List Bytes)} (hcalls : ∀ call ∈ calls, FewGiven call.2)
    (h : Records table defs) (hfew : ∀ d ∈ defs, FewComponents d.pat) :
    Records (run sh.binZstyle table calls) (run sh.record defs calls) ∧
      ∀ d ∈ run sh.record defs calls, FewComponents d.pat := by
  induction calls generalizing table defs with
  | nil => exact ⟨h, hfew⟩
  | cons call calls ih =>
    exact ih (fun other hother ↦ hcalls other (mem_cons_of_mem _ hother)) (h.binZstyle call)
      (few_record hfew (hcalls call mem_cons_self))

/-- Lookups return what was last given for the most specific pattern in every run; a definition that
fails leaves a trace exactly if it names a new style and its values do not parse. -/
theorem zstyle_documented_iff (sh : StyleShell Env Prog Eprog) (calls : List (Env × List Bytes))
    (hcalls : ∀ call ∈ calls, FewGiven call.2) :
    sh.Documented calls ↔ Meets sh.binZstyle sh.KnowsStyle [] calls := by
  rw [meets_iff_forall_front]
  constructor
  · rintro ⟨-, hfails⟩ before call hbefore
    exact (failing_iff sh _ call).mp (hfails before call hbefore)
  · intro h
    refine ⟨fun before hbefore env ctxt style ↦ ?_, fun before call hbefore ↦ ?_⟩
    · have hgiven : ∀ call ∈ before, FewGiven call.2 :=
        fun call hcall ↦ hcalls call (hbefore.subset hcall)
      obtain ⟨hrecords, hfew⟩ := records_run hgiven records_nil (by simp)
      exact hrecords.lookupstyle hfew env ctxt style
    · exact (failing_iff sh _ call).mpr (h before call hbefore)

end Table

/-! ## A definition that leaves a trace -/

/-- A shell in which every string is a pattern for itself and `)` does not parse. -/
def literalStyleShell : StyleShell Unit Bytes Bytes where
  patcompile _ pat := some pat
  pattry _ prog ctxt := decide (prog = ctxt)
  parseString _ code := if code = Bytes.ascii ")" then none else some code
  evalstyle _ _ := none

/-- `zstyle -e ctx style ')'` -/
def badEvalStyle : Unit × List Bytes := ((), ["-e", "ctx", "style", ")"].map Bytes.ascii)

theorem zstyle_emptyStyle : ¬ literalStyleShell.Documented [badEvalStyle] := by
  rintro ⟨-, hfails⟩
  have hsame := hfails [] badEvalStyle (prefix_refl _) ⟨true, _, rfl, rfl⟩
  have hlength := congrArg List.length hsame
  revert hlength
  decide

theorem zstyle_documented_knownStyle : literalStyleShell.Documented
    [((), ["ctx", "style", "value"].map Bytes.ascii), badEvalStyle] := by
  refine (zstyle_documented_iff literalStyleShell _ ?_).mpr ⟨?_, ?_, trivial⟩
  · intro call hcall eval pat rest hrequest
    rcases List.mem_cons.mp hcall with rfl | hcall
    · cases hrequest
      decide
    · rw [List.mem_singleton.mp hcall] at hrequest
      cases hrequest
      decide
  · intro eval pat nam vals hrequest _ heprog
    cases hrequest
    cases heprog
  · intro eval pat nam vals hrequest _ _
    cases hrequest
    decide

end Bsh.Shell
