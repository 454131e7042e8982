import Bsh.Library.Fields
import Bsh.Shell.SepSplit

/-!
# Splitting at the separators of `IFS`

`spacesplit` of `utils.c` and the count of `wordcount` for which it allocates its array.  The
separators are those of the parameter `IFS`, entered into the character table by `inittyptab` and
into an array of wide characters by `set_widearray`.  With `quote` the split removes the backslashes
in front of separators while it goes on; the count is taken of the string as it was.
-/

namespace Bsh.Shell

open Bsh.Library Bytes List

/-! ## The separators -/

/-- What splitting depends on besides the characters: `IFS`, which may be unset, and the emulation
of other shells.  The characters of ASCII are complete where a character begins. -/
structure SplitEnv extends TextEnv where
  ifs : Option Bytes
  emulateSh : Bool
  ifs_text : ∀ s, ifs = some s → MetaText s
  ascii_initial : ∀ c < 0x80, (charset.mbrtowc c charset.initial).1 = .char c.toNat

theorem SplitEnv.unset_text : ∀ s : Bytes, none = some s → MetaText s := fun _ h ↦ by cases h

/-- `*s == Meta ? s[1] ^ 32 : *s`, and the text behind. -/
def headUnit : Bytes → UInt8 × Bytes
  | [] => (0, [])
  | [c] => (c, [])
  | c :: d :: s => if c = metaByte then (d ^^^ 32, s) else (c, d :: s)

/-- `DEFAULT_IFS` and `DEFAULT_IFS_SH`. -/
def defaultIfs : Bytes := [0x20, 0x09, 0x0A, metaByte, 0x20]
def defaultIfsSh : Bytes := [0x20, 0x09, 0x0A]

namespace SplitEnv

variable (env : SplitEnv)

/-- `mb_metacharlenconv`: the length and the character, or `WEOF`. -/
def charConv : Bytes → Option (ℕ × Option ℕ)
  | [] => some (1, some 0)
  | c :: rest =>
    (mbMetacharlenconv env.charset env.multibyte c rest env.charset.initial).map fun r ↦
      (r.1, r.2.1)

/-- The loop of `set_widearray`; a string with an invalid character has no wide characters.  The
first argument bounds the turns. -/
def wideFrom : ℕ → Bytes → Option (List ℕ)
  | _, [] => some []
  | 0, _ :: _ => some []
  | turns + 1, c :: s =>
    if c ≤ 0x7F then (wideFrom turns s).map (c.toNat :: ·)
    else
      match env.charConv (c :: s) with
      | some (len, some wc) =>
        if len = 0 then some [] else (wideFrom turns ((c :: s).drop len)).map (wc :: ·)
      | _ => none

/-- `CURRENT_DEFAULT_IFS`. -/
def currentDefaultIfs : Bytes := if env.emulateSh then defaultIfsSh else defaultIfs

/-- The separators in force: `IFS` with an invalid character is reset. -/
def separators : Bytes :=
  match env.ifs with
  | none => env.currentDefaultIfs
  | some ifs =>
    if env.multibyte && (env.wideFrom ifs.length ifs).isNone then env.currentDefaultIfs else ifs

/-- `ifs_wide`. -/
def ifsWide : List ℕ := (env.wideFrom env.separators.length env.separators).getD []

/-- The loop of `inittyptab` over `IFS`: the characters entered as separators, and whether as
blanks. -/
def entriesFrom : ℕ → Bytes → List (UInt8 × Bool)
  | _, [] => []
  | 0, _ :: _ => []
  | turns + 1, c :: s =>
    let (c, rest) := headUnit (c :: s)
    if env.multibyte && 0x80 ≤ c then entriesFrom turns rest
    else if inblank c then
      -- A doubled blank is a separator like any other.
      if rest.head? = some c then (c, false) :: entriesFrom turns rest.tail
      else (c, true) :: entriesFrom turns rest
    else (c, false) :: entriesFrom turns rest

def entries : List (UInt8 × Bool) := env.entriesFrom env.separators.length env.separators

/-- `isep` and `iwsep`. -/
def isep (c : UInt8) : Bool := env.entries.any fun entry ↦ entry.1 = c
def iwsep (c : UInt8) : Bool := env.entries.any fun entry ↦ entry.1 = c && entry.2

/-- `WC_ZISTYPE(c, ISEP)`; a wide character below 128 is one of ASCII. -/
def wcIsep : Option ℕ → Bool
  | none => false
  | some wc =>
    if !env.multibyte || wc < 0x80 then env.isep (UInt8.ofNat wc) else env.ifsWide.contains wc

/-! ## The functions -/

/-- `skipwsep`. -/
def skipwsepFrom : ℕ → Bytes → Bytes
  | _, [] => []
  | 0, c :: s => c :: s
  | turns + 1, c :: s =>
    if env.iwsep (headUnit (c :: s)).1 then skipwsepFrom turns (headUnit (c :: s)).2 else c :: s

def skipwsep (s : Bytes) : Bytes := env.skipwsepFrom s.length s

/-- `itype_end(s, ISEP, 1)`: what is left of the string behind one separator. -/
def itypeEnd (s : Bytes) : Option Bytes :=
  match s with
  | [] => some []
  | c :: rest =>
    if env.multibyte then
      if itok c then if env.isep c then some rest else some (c :: rest)
      else
        match env.charConv (c :: rest) with
        | none => none
        | some (len, wc) =>
          if len = 0 then some (c :: rest)
          else
            let isSeparator : Bool :=
              match wc with
              | none =>
                -- An invalid character counts as its first byte.
                let chr := (headUnit (c :: rest)).1
                chr ≤ 0x7F && env.isep chr
              | some wc => if len = 1 ∧ c ≤ 0x7F then env.isep c else env.ifsWide.contains wc
            if isSeparator then some ((c :: rest).drop len) else some (c :: rest)
    else
      if env.isep (headUnit (c :: rest)).1 then some (headUnit (c :: rest)).2
      else some (c :: rest)

/-- `findsep` without a separator string: the text in front of the separator, without the backslashes
that quote something, and the rest. -/
def findsepFrom : ℕ → Bool → Bytes → Option (Bytes × Bytes)
  | _, _, [] => some ([], [])
  | 0, _, _ :: _ => none
  | turns + 1, quote, c :: s =>
    if quote && c = char '\\' then
      if headIs '\\' s then (findsepFrom turns quote s.tail).map fun r ↦ (char '\\' :: r.1, r.2)
      else
        match env.charConv s with
        | none => none
        | some (len, wc) =>
          if env.wcIsep wc then
            -- Behind a backslash at the end the pointer is left on the old end of the string.
            if s = [] then some ([0], [])
            else (findsepFrom turns quote (s.drop len)).map fun r ↦ (s.take len ++ r.1, r.2)
          else if env.isep c then some ([], c :: s)
          else (findsepFrom turns quote s).map fun r ↦ (c :: r.1, r.2)
    else
      match env.charConv (c :: s) with
      | none => none
      | some (len, wc) =>
        if env.wcIsep wc then some ([], c :: s)
        else
          (findsepFrom turns quote ((c :: s).drop len)).map fun r ↦ ((c :: s).take len ++ r.1, r.2)

def findsepNull (quote : Bool) (s : Bytes) : Option (Bytes × Bytes) :=
  env.findsepFrom s.length quote s

/-- The loop of `wordcount` without a separator string; `blanks` is `t != s`. -/
def wordcountLoop (mul : ℤ) : ℕ → Bytes → Bool → Option ℕ
  | _, [], blanks => some (if mul < 0 ∧ blanks then 1 else 0)
  | 0, _ :: _, _ => none
  | turns + 1, c :: s, _ =>
    match env.itypeEnd (c :: s) with
    | none => none
    | some ie =>
      let start :=
        if ie.length ≠ (c :: s).length then if mul ≤ 0 then env.skipwsep ie else ie else c :: s
      match env.findsepNull false start with
      | none => none
      | some (_, t) =>
        let next := if mul ≤ 0 then env.skipwsep t else t
        (wordcountLoop mul turns next (t.length ≠ next.length)).map (· + 1)

/-- `wordcount` without a separator string. -/
def wordcountNull (s : Bytes) (mul : ℤ) : Option ℕ :=
  let first := if mul ≤ 0 then env.skipwsep s else s
  match env.itypeEnd first with
  | none => none
  | some ie =>
    let r := if (first ≠ [] ∧ ie.length ≠ first.length) ∨ (mul < 0 ∧ s.length ≠ first.length) then 1
      else 0
    (env.wordcountLoop mul first.length first (s.length ≠ first.length)).map (r + ·)

/-- `nulstring`. -/
def nulstring : Bytes := [nulargToken]

/-- The loop of `spacesplit` with the elements that it stores; `blanks` is `t != s`. -/
def spacesplitLoop (allownull quote : Bool) : ℕ → Bytes → Bool → Option (List Bytes)
  | _, [], blanks => some (if !allownull && blanks then [[]] else [])
  | 0, _ :: _, _ => none
  | turns + 1, c :: s, _ =>
    match env.itypeEnd (c :: s) with
    | none => none
    | some iend =>
      let start :=
        if iend.length ≠ (c :: s).length then env.skipwsep iend
        else if quote && c = char '\\' then env.skipwsep s
        else c :: s
      match env.findsepNull quote start with
      | none => none
      | some (word, t) =>
        let element := if word ≠ [] ∨ allownull then word else nulstring
        let next := env.skipwsep t
        (spacesplitLoop allownull quote turns next (t.length ≠ next.length)).map (element :: ·)

/-- `spacesplit`. -/
def spacesplit (s : Bytes) (allownull quote : Bool) : Option (List Bytes) :=
  let first := env.skipwsep s
  match env.itypeEnd first with
  | none => none
  | some iend =>
    let elements : List Bytes :=
      if first ≠ [] ∧ iend.length ≠ first.length then [if allownull then [] else nulstring]
      else if !allownull && s.length ≠ first.length then [[]]
      else []
    (env.spacesplitLoop allownull quote first.length first (s.length ≠ first.length)).map
      (elements ++ ·)

/-! ## The tables -/

variable {env}

theorem headUnit_byte {c : UInt8} (hc : c ≠ metaByte) (s : Bytes) : headUnit (c :: s) = (c, s) := by
  cases s with
  | nil => rfl
  | cons d s => rw [headUnit, if_neg hc]

theorem headUnit_pair (d : UInt8) (s : Bytes) : headUnit (metaByte :: d :: s) = (d ^^^ 32, s) := by
  rw [headUnit, if_pos rfl]

theorem headUnit_length (c : UInt8) (s : Bytes) :
    (headUnit (c :: s)).2.length < (c :: s).length := by
  cases s with
  | nil => exact Nat.zero_lt_one
  | cons d s =>
    rw [headUnit]
    split
    · exact Nat.lt_succ_of_lt (Nat.lt_succ_self _)
    · exact Nat.lt_succ_self _

theorem low_ne_meta {c : UInt8} (hc : c < 0x80) : c ≠ metaByte := by
  rintro rfl
  exact absurd hc (by decide)

set_option maxRecDepth 4000 in
theorem inblank_low : ∀ c, inblank c = true → c < 0x80 := Bytes.forall_byte (by decide)

/-- Units of eight bits up to a place. -/
inductive HighUnits : Bytes → Bytes → Prop
  | refl (s : Bytes) : HighUnits s s
  | unit {c : UInt8} {s t : Bytes} (hc : 0x80 ≤ (headUnit (c :: s)).1)
      (h : HighUnits (headUnit (c :: s)).2 t) : HighUnits (c :: s) t

/-- What a unit that completes a character says about it. -/
theorem unit_character {charset : Charset} {c : UInt8} {st st' : charset.State} {wc : ℕ}
    (h : charset.mbrtowc c st = (.char wc, st')) :
    wc = c.toNat ∧ c < 0x80 ∨ 0x80 ≤ wc ∧ 0x80 ≤ c := by
  have hkind : (charset.mbrtowc c st).1 = .char wc := by rw [h]
  by_cases hlow : c < 0x80
  · exact .inl ⟨charset.ascii_char c st wc hlow hkind, hlow⟩
  · have hhigh := UInt8.not_lt.mp hlow
    exact .inr ⟨charset.other_char c st wc hhigh hkind, hhigh⟩

theorem unit_incomplete {charset : Charset} {c : UInt8} {st st' : charset.State}
    (h : charset.mbrtowc c st = (.incomplete, st')) :
    0x80 ≤ c ∧ ∀ d, (charset.mbrtowc d st').1 ≠ .invalid → 0x80 ≤ d := by
  have hkind : (charset.mbrtowc c st).1 = .incomplete := by rw [h]
  constructor
  · apply UInt8.not_lt.mp
    intro hlow
    exact charset.ascii_complete c st hlow hkind
  · intro d hd
    apply UInt8.not_lt.mp
    intro hlow
    have htail := charset.ascii_tail c d st hkind hlow
    rw [h] at htail
    exact hd htail

/-- The units of a character, from its head `c` and the rest: the character is `c` itself, one of
ASCII, or all its units have eight bits. -/
def UnitsOf (s : Bytes) (n wc : ℕ) : Prop :=
  wc = (headUnit s).1.toNat ∧ (headUnit s).1 < 0x80 ∧ s.drop n = (headUnit s).2 ∨
    0x80 ≤ wc ∧ 0x80 ≤ (headUnit s).1 ∧ HighUnits s (s.drop n)

theorem unitsOf_complete {charset : Charset} {x c : UInt8} {s rest : Bytes} {n wc : ℕ}
    {st st' : charset.State} (hunit : headUnit (x :: s) = (c, rest)) (hdrop : (x :: s).drop n = rest)
    (h : charset.mbrtowc c st = (.char wc, st')) : UnitsOf (x :: s) n wc := by
  obtain ⟨hwc, hlow⟩ | ⟨hwc, hhigh⟩ := unit_character h
  · exact .inl ⟨by rw [hunit]; exact hwc, by rw [hunit]; exact hlow, by rw [hunit]; exact hdrop⟩
  · refine .inr ⟨hwc, by rw [hunit]; exact hhigh, .unit (by rw [hunit]; exact hhigh) ?_⟩
    rw [hunit, hdrop]
    exact .refl rest

theorem unitsOf_incomplete {charset : Charset} {x c : UInt8} {s rest : Bytes} {m n wc : ℕ}
    {st st' : charset.State} (hunit : headUnit (x :: s) = (c, rest)) (hdrop : (x :: s).drop m = rest)
    (h : charset.mbrtowc c st = (.incomplete, st'))
    (hvalid : (charset.mbrtowc (headUnit rest).1 st').1 ≠ .invalid) (hrest : UnitsOf rest n wc) :
    UnitsOf (x :: s) (m + n) wc := by
  obtain ⟨hc, htail⟩ := unit_incomplete h
  have hhigh := htail _ hvalid
  obtain ⟨-, hlow, -⟩ | ⟨hwc, -, hunits⟩ := hrest
  · exact absurd hhigh (UInt8.not_le.mpr hlow)
  · refine .inr ⟨hwc, by rw [hunit]; exact hc, .unit (by rw [hunit]; exact hc) ?_⟩
    rw [hunit, ← drop_drop, hdrop]
    exact hunits

theorem mbConvert_units {charset : Charset} {s : Bytes} (h : MetaText s) {used k wc : ℕ}
    {st st' : charset.State} (hread : mbConvert charset s used st = some (some (k, wc, st'))) :
    ∃ n, k = used + n ∧ (charset.mbrtowc (headUnit s).1 st).1 ≠ .invalid ∧ UnitsOf s n wc := by
  induction h generalizing used st with
  | nil => cases hread
  | @byte c s hc _ ih =>
    have hunit := headUnit_byte hc.2.1 s
    have hhead : (headUnit (c :: s)).1 = c := by rw [hunit]
    rw [hhead]
    cases s with
    | nil =>
      rw [mbConvert, if_neg hc.2.1] at hread
      split at hread
      · cases hread
      · cases hkind : charset.mbrtowc c st with
        | mk kind st₁ =>
          rw [hkind] at hread
          cases kind with
          | invalid => cases hread
          | incomplete => cases hread
          | char wc' =>
            cases hread
            exact ⟨1, rfl, by simp, unitsOf_complete hunit rfl hkind⟩
    | cons d s =>
      rw [mbConvert, if_neg hc.2.1] at hread
      split at hread
      · cases hread
      · cases hkind : charset.mbrtowc c st with
        | mk kind st₁ =>
          rw [hkind] at hread
          cases kind with
          | invalid => cases hread
          | incomplete =>
            obtain ⟨n, rfl, hvalid, hunits⟩ := ih hread
            refine ⟨1 + n, by omega, by simp, ?_⟩
            exact unitsOf_incomplete hunit rfl hkind hvalid hunits
          | char wc' =>
            cases hread
            exact ⟨1, rfl, by simp, unitsOf_complete hunit rfl hkind⟩
  | @pair d s _ _ ih =>
    have hunit := headUnit_pair d s
    have hhead : (headUnit (metaByte :: d :: s)).1 = d ^^^ 32 := by rw [hunit]
    rw [hhead]
    rw [mbConvert, if_pos rfl] at hread
    cases hkind : charset.mbrtowc (d ^^^ 32) st with
    | mk kind st₁ =>
      rw [hkind] at hread
      cases kind with
      | invalid => cases hread
      | incomplete =>
        obtain ⟨n, rfl, hvalid, hunits⟩ := ih hread
        refine ⟨2 + n, by omega, by simp, ?_⟩
        exact unitsOf_incomplete hunit rfl hkind hvalid hunits
      | char wc' =>
        cases hread
        exact ⟨2, rfl, by simp, unitsOf_complete hunit rfl hkind⟩

theorem entriesFrom_low (hmulti : env.multibyte = true) {turns : ℕ} {s : Bytes} {c : UInt8} {b : Bool}
    (h : (c, b) ∈ env.entriesFrom turns s) : c < 0x80 := by
  induction turns generalizing s with
  | zero =>
    cases s <;> cases h
  | succ turns ih =>
    cases s with
    | nil => cases h
    | cons d s =>
      rw [entriesFrom] at h
      generalize headUnit (d :: s) = unit at h
      obtain ⟨d, rest⟩ := unit
      dsimp only at h
      split at h
      · exact ih h
      · next hlow =>
        have hd : d < 0x80 := by simpa [hmulti] using hlow
        have hcons {b' : Bool} {s : Bytes}
            (h : (c, b) ∈ (d, b') :: env.entriesFrom turns s) : c < 0x80 := by
          obtain hhead | htail := List.mem_cons.mp h
          · cases hhead
            exact hd
          · exact ih htail
        split at h
        · split at h
          · exact hcons h
          · exact hcons h
        · exact hcons h

theorem inblank_of_entry {turns : ℕ} {s : Bytes} {c : UInt8}
    (h : (c, true) ∈ env.entriesFrom turns s) : inblank c = true := by
  induction turns generalizing s with
  | zero =>
    cases s <;> cases h
  | succ turns ih =>
    cases s with
    | nil => cases h
    | cons d s =>
      rw [entriesFrom] at h
      dsimp only at h
      split at h
      · exact ih h
      · split at h
        · next hblank =>
          split at h
          · obtain hhead | htail := List.mem_cons.mp h
            · cases hhead
            · exact ih htail
          · obtain hhead | htail := List.mem_cons.mp h
            · cases hhead
              exact hblank
            · exact ih htail
        · obtain hhead | htail := List.mem_cons.mp h
          · cases hhead
          · exact ih htail

/-- A character is entered as a separator. -/
def Entered (env : SplitEnv) (turns : ℕ) (s : Bytes) (c : UInt8) : Prop :=
  ∃ b, (c, b) ∈ env.entriesFrom turns s

theorem not_entered_nil (turns : ℕ) (c : UInt8) : ¬ env.Entered turns [] c := by
  rintro ⟨b, h⟩
  cases turns <;> cases h

theorem entered_cons {c d : UInt8} {b : Bool} {l : List (UInt8 × Bool)} :
    (∃ b', (c, b') ∈ (d, b) :: l) ↔ c = d ∨ ∃ b', (c, b') ∈ l := by
  constructor
  · rintro ⟨b', h⟩
    obtain hhead | htail := List.mem_cons.mp h
    · exact .inl (Prod.mk.inj hhead).1
    · exact .inr ⟨b', htail⟩
  · rintro (rfl | ⟨b', h⟩)
    · exact ⟨b, mem_cons_self⟩
    · exact ⟨b', mem_cons_of_mem _ h⟩

theorem entered_turns {turns turns' : ℕ} {s : Bytes} (h : s.length ≤ turns)
    (h' : s.length ≤ turns') : env.entriesFrom turns s = env.entriesFrom turns' s := by
  induction turns generalizing turns' s with
  | zero =>
    obtain rfl := List.length_eq_zero_iff.mp (Nat.le_zero.mp h)
    cases turns' <;> rfl
  | succ turns ih =>
    cases s with
    | nil => cases turns' <;> rfl
    | cons c s =>
      cases turns' with
      | zero => cases h'
      | succ turns' =>
        have hlt := headUnit_length c s
        have htail : (headUnit (c :: s)).2.tail.length ≤ (headUnit (c :: s)).2.length := by
          rw [length_tail]
          exact Nat.sub_le _ _
        rw [entriesFrom, entriesFrom]
        dsimp only
        rw [@ih turns' _ (by omega) (by omega),
          @ih turns' _ (by omega) (by omega)]

/-- A unit of seven bits is entered; the second blank of a pair would be entered once more. -/
theorem entered_low {turns : ℕ} {x c d : UInt8} {s rest : Bytes}
    (hunit : headUnit (x :: s) = (d, rest)) (hd : d < 0x80) (hturns : rest.length ≤ turns) :
    env.Entered (turns + 1) (x :: s) c ↔ c = d ∨ env.Entered turns rest c := by
  have hlow : ¬ (env.multibyte && decide (0x80 ≤ d)) = true := by
    rw [decide_eq_false (UInt8.not_le.mpr hd), Bool.and_false]
    exact Bool.false_ne_true
  have hplain {y : UInt8} {t rest : Bytes} (hunit : headUnit (y :: t) = (d, rest))
      (hnot : rest.head? ≠ some d) (turns : ℕ) :
      env.Entered (turns + 1) (y :: t) c ↔ c = d ∨ env.Entered turns rest c := by
    unfold Entered
    rw [entriesFrom, hunit]
    dsimp only
    rw [if_neg hlow]
    by_cases hblank : inblank d = true
    · rw [if_pos hblank, if_neg hnot]
      exact entered_cons
    · rw [if_neg hblank]
      exact entered_cons
  induction turns generalizing x s rest with
  | zero =>
    obtain rfl := List.length_eq_zero_iff.mp (Nat.le_zero.mp hturns)
    exact hplain hunit (by simp) 0
  | succ turns ih =>
    by_cases hdouble : rest.head? = some d
    · obtain ⟨rest, rfl⟩ : ∃ r, rest = d :: r := by
        cases rest with
        | nil => cases hdouble
        | cons e r =>
          cases hdouble
          exact ⟨r, rfl⟩
      have hlength : rest.length ≤ turns := Nat.le_of_succ_le_succ hturns
      have hnext : env.Entered (turns + 1) (d :: rest) c ↔ c = d ∨ env.Entered turns rest c :=
        ih (headUnit_byte (low_ne_meta hd) rest) hlength
      have hsame : env.Entered (turns + 1) rest c ↔ env.Entered turns rest c := by
        unfold Entered
        rw [entered_turns (hlength.trans (Nat.le_succ _)) hlength]
      by_cases hblank : inblank d = true
      · have hentries : env.Entered (turns + 1 + 1) (x :: s) c ↔
            c = d ∨ env.Entered (turns + 1) rest c := by
          unfold Entered
          rw [entriesFrom, hunit]
          dsimp only
          rw [if_neg hlow, if_pos hblank, if_pos hdouble]
          exact entered_cons
        tauto
      · unfold Entered
        rw [entriesFrom, hunit]
        dsimp only
        rw [if_neg hlow, if_neg hblank]
        exact entered_cons
    · exact hplain hunit hdouble (turns + 1)

theorem entered_high (hmulti : env.multibyte = true) {s t : Bytes} (h : HighUnits s t)
    {turns : ℕ} (hturns : s.length ≤ turns) (c : UInt8) :
    env.Entered turns s c ↔ env.Entered turns t c := by
  induction h generalizing turns with
  | refl s => exact Iff.rfl
  | @unit x s t hx _ ih =>
    have hlt := headUnit_length x s
    obtain ⟨turns, rfl⟩ : ∃ k, turns = k + 1 := ⟨turns - 1, by
      omega⟩
    have hskip : env.entriesFrom (turns + 1) (x :: s) =
        env.entriesFrom turns (headUnit (x :: s)).2 := by
      rw [entriesFrom]
      dsimp only
      rw [hmulti, Bool.true_and, if_pos (decide_eq_true hx)]
    have hmore : env.entriesFrom turns (headUnit (x :: s)).2 =
        env.entriesFrom (turns + 1) (headUnit (x :: s)).2 := entered_turns (by omega) (by omega)
    rw [← ih (by omega)]
    unfold Entered
    rw [hskip, hmore]

/-- What is known of the character at the head of a string. -/
structure HeadChar (env : SplitEnv) (s : Bytes) (len : ℕ) (wc : Option ℕ) : Prop where
  conv : env.charConv s = some (len, wc)
  pos : 0 < len
  le : len ≤ s.length
  behind : MetaText (s.drop len)
  single : env.multibyte = false → wc = some (headUnit s).1.toNat ∧ s.drop len = (headUnit s).2
  invalid : env.multibyte = true → wc = none → 0x80 ≤ (headUnit s).1
  valid : env.multibyte = true → ∀ w, wc = some w → UnitsOf s len w

theorem not_low_high {c : UInt8} (h : ¬ c ≤ 0x7F) : 0x80 ≤ c := by
  rw [UInt8.le_iff_toNat_le] at h ⊢
  exact not_le.mp h

theorem exists_headChar (env : SplitEnv) {c : UInt8} {s : Bytes} (h : MetaText (c :: s)) :
    ∃ len wc, HeadChar env (c :: s) len wc := by
  obtain ⟨len, hlen, hpos, hle, hbehind⟩ := charLen_metaText env.toTextEnv h
  obtain ⟨⟨len', wc, st⟩, hread, rfl⟩ := Option.map_eq_some_iff.mp hlen
  have hconv : env.charConv (c :: s) = some (len', wc) := by
    rw [charConv, hread]
    rfl
  refine ⟨len', wc, hconv, hpos, hle, hbehind, fun hsingle ↦ ?_, fun hmulti hwc ↦ ?_,
    fun hmulti w hw ↦ ?_⟩
  · rw [mbMetacharlenconv, hsingle, Bool.not_false, Bool.true_or, if_pos rfl] at hread
    cases h with
    | byte hc _ =>
      rw [if_neg hc.2.1] at hread
      cases hread
      rw [headUnit_byte hc.2.1]
      exact ⟨rfl, rfl⟩
    | @pair d s _ _ =>
      cases hread
      exact ⟨rfl, rfl⟩
  · subst hwc
    rw [mbMetacharlenconv, hmulti, Bool.not_true, Bool.false_or] at hread
    split at hread
    · split at hread
      · cases hhead : s.head? with
        | none =>
          rw [hhead] at hread
          cases hread
        | some d =>
          rw [hhead] at hread
          cases hread
      · cases hread
    · next hlow =>
      have hc := not_low_high (by simpa using hlow)
      cases h with
      | byte hbyte _ =>
        rw [headUnit_byte hbyte.2.1]
        exact hc
      | @pair d s _ _ =>
        apply UInt8.not_lt.mp
        intro hd
        rw [TextEnv.itok_meta, if_neg Bool.false_ne_true, mbMetacharlenconvR,
          if_neg (by decide), mbConvert, if_pos rfl] at hread
        have hinitial := env.ascii_initial (d ^^^ 32) hd
        obtain ⟨kind, st', hkind⟩ : ∃ kind st',
            env.charset.mbrtowc (d ^^^ 32) env.charset.initial = (kind, st') := ⟨_, _, rfl⟩
        rw [hkind] at hinitial hread
        obtain rfl : kind = _ := hinitial
        cases hread
  · subst hw
    rw [mbMetacharlenconv, hmulti, Bool.not_true, Bool.false_or] at hread
    split at hread
    · next hlow =>
      have hc : c < 0x80 := UInt8.lt_iff_toNat_lt.mpr
        (Nat.lt_succ_of_le (UInt8.le_iff_toNat_le.mp (by simpa using hlow)))
      rw [if_neg (low_ne_meta hc)] at hread
      cases hread
      refine .inl ?_
      rw [headUnit_byte (low_ne_meta hc)]
      exact ⟨rfl, hc, rfl⟩
    · next hnot =>
      split at hread
      · cases hread
      · rw [mbMetacharlenconvR] at hread
        split at hread
        · next hlow => exact absurd (by simpa using hlow) hnot
        · split at hread
          · cases hread
          · next hconvert =>
            cases hread
            obtain ⟨n, hn, -, hunits⟩ := mbConvert_units h hconvert
            rw [Nat.zero_add] at hn
            subst hn
            exact hunits
          · cases hread

/-- The wide characters below 128 are the entries. -/
theorem mem_wideFrom (hmulti : env.multibyte = true) {turns : ℕ} {s : Bytes} (hs : MetaText s)
    {ws : List ℕ} (h : env.wideFrom turns s = some ws) (hturns : s.length ≤ turns) {c : UInt8}
    (hc : c < 0x80) : c.toNat ∈ ws ↔ env.Entered turns s c := by
  induction turns generalizing s ws with
  | zero =>
    obtain rfl := List.length_eq_zero_iff.mp (Nat.le_zero.mp hturns)
    cases h
    exact iff_of_false not_mem_nil (not_entered_nil 0 c)
  | succ turns ih =>
    cases s with
    | nil =>
      cases h
      exact iff_of_false not_mem_nil (not_entered_nil _ c)
    | cons x s =>
      rw [length_cons] at hturns
      have hunit (d : UInt8) {rest : Bytes} {ws' : List ℕ} (hunit : headUnit (x :: s) = (d, rest))
          (hd : d < 0x80) (hrest : MetaText rest) (h' : env.wideFrom turns rest = some ws')
          (hws : d.toNat :: ws' = ws) : c.toNat ∈ ws ↔ env.Entered (turns + 1) (x :: s) c := by
        have hlt := headUnit_length x s
        rw [hunit, length_cons] at hlt
        dsimp only at hlt
        rw [entered_low hunit hd (by omega), ← hws, mem_cons, ih hrest h' (by omega),
          UInt8.toNat_inj]
      rw [wideFrom] at h
      split at h
      · next hx =>
        have hlow : x < 0x80 := UInt8.lt_iff_toNat_lt.mpr
          (Nat.lt_succ_of_le (UInt8.le_iff_toNat_le.mp hx))
        obtain ⟨ws', h', rfl⟩ := Option.map_eq_some_iff.mp h
        exact hunit x (headUnit_byte (low_ne_meta hlow) s) hlow (hs.tail (low_ne_meta hlow)) h' rfl
      · next hx =>
        obtain ⟨len, wc, hchar⟩ := exists_headChar env hs
        rw [hchar.conv] at h
        cases wc with
        | none => cases h
        | some wc =>
          dsimp only at h
          rw [if_neg hchar.pos.ne'] at h
          obtain ⟨ws', h', rfl⟩ := Option.map_eq_some_iff.mp h
          obtain ⟨hwc, hlow, hdrop⟩ | ⟨hwc, hhigh, hunits⟩ := hchar.valid hmulti wc rfl
          · have hpair : headUnit (x :: s) = ((headUnit (x :: s)).1, (x :: s).drop len) := by
              rw [hdrop]
            exact hunit _ hpair hlow hchar.behind h' (by rw [hwc])
          · have hne : c.toNat ≠ wc := by
              have hlt := UInt8.lt_iff_toNat_lt.mp hc
              intro heq
              rw [heq] at hlt
              exact absurd hwc (not_le.mpr hlt)
            have hlength : ((x :: s).drop len).length ≤ turns := by
              have hpos := hchar.pos
              rw [length_drop, length_cons]
              omega
            have hsame : env.Entered (turns + 1) ((x :: s).drop len) c ↔
                env.Entered turns ((x :: s).drop len) c := by
              unfold Entered
              rw [entered_turns (hlength.trans (Nat.le_succ _)) hlength]
            rw [entered_high hmulti hunits (by omega), hsame, mem_cons,
              ih hchar.behind h' hlength]
            exact or_iff_right hne

theorem separators_text (env : SplitEnv) : MetaText env.separators := by
  have hdefault : MetaText env.currentDefaultIfs := by
    have hsh {rest : Bytes} (hrest : MetaText rest) : MetaText (0x20 :: 0x09 :: 0x0A :: rest) :=
      .byte (by decide) (.byte (by decide) (.byte (by decide) hrest))
    unfold currentDefaultIfs
    split
    · exact hsh .nil
    · exact hsh (.pair (by decide) .nil)
  unfold separators
  split
  · exact hdefault
  · next ifs hifs =>
    split
    · exact hdefault
    · exact env.ifs_text ifs hifs

/-- The separators in force have wide characters. -/
theorem exists_wide (hmulti : env.multibyte = true) :
    env.wideFrom env.separators.length env.separators = some env.ifsWide := by
  have hnul : env.charConv [metaByte, 0x20] = some (2, some 0) := by
    obtain ⟨kind, st, hread⟩ : ∃ kind st,
        env.charset.mbrtowc 0 env.charset.initial = (kind, st) := ⟨_, _, rfl⟩
    have hinitial := env.ascii_initial 0 (by decide)
    rw [hread] at hinitial
    obtain rfl : kind = _ := hinitial
    have hunit : ((0x20 : UInt8) ^^^ 32) = 0 := by decide
    rw [charConv, mbMetacharlenconv, hmulti, TextEnv.itok_meta, if_neg (by decide),
      if_neg Bool.false_ne_true, mbMetacharlenconvR, if_neg (by decide), mbConvert, if_pos rfl,
      hunit, hread]
    rfl
  have hdefault : ∃ ws, env.wideFrom env.currentDefaultIfs.length env.currentDefaultIfs =
      some ws := by
    unfold currentDefaultIfs
    split
    · exact ⟨_, rfl⟩
    · refine ⟨[0x20, 0x09, 0x0A, 0], ?_⟩
      have hmeta : env.wideFrom 2 [metaByte, 0x20] = some [0] := by
        rw [wideFrom, if_neg (by decide), hnul]
        rfl
      change env.wideFrom 5 (0x20 :: 0x09 :: 0x0A :: [metaByte, 0x20]) = _
      rw [wideFrom, if_pos (by decide), wideFrom, if_pos (by decide), wideFrom,
        if_pos (by decide), hmeta]
      rfl
  have hsome : ∃ ws, env.wideFrom env.separators.length env.separators = some ws := by
    unfold separators
    split
    · exact hdefault
    · next ifs _ =>
      split
      · exact hdefault
      · next hvalid =>
        rw [hmulti, Bool.true_and, Option.isNone_iff_eq_none] at hvalid
        exact Option.ne_none_iff_exists'.mp hvalid
  obtain ⟨ws, hws⟩ := hsome
  rw [ifsWide, hws, Option.getD_some]

theorem isep_iff (c : UInt8) :
    env.isep c = true ↔ env.Entered env.separators.length env.separators c := by
  rw [isep, any_eq_true]
  constructor
  · rintro ⟨⟨d, b⟩, hmem, heq⟩
    obtain rfl : d = c := by simpa using heq
    exact ⟨b, hmem⟩
  · rintro ⟨b, hmem⟩
    exact ⟨(c, b), hmem, by simp⟩

/-- The two tables agree on ASCII. -/
theorem ifsWide_low (hmulti : env.multibyte = true) {c : UInt8} (hc : c < 0x80) :
    env.ifsWide.contains c.toNat = env.isep c := by
  rw [Bool.eq_iff_iff, isep_iff, contains_iff_mem,
    mem_wideFrom hmulti (separators_text env) (exists_wide hmulti) le_rfl hc]

theorem iwsep_low {c : UInt8} (h : env.iwsep c = true) : c < 0x80 := by
  rw [iwsep, any_eq_true] at h
  obtain ⟨⟨d, b⟩, hmem, heq⟩ := h
  obtain ⟨rfl, rfl⟩ : d = c ∧ b = true := by simpa using heq
  exact inblank_low d (inblank_of_entry hmem)

set_option maxRecDepth 4000 in
theorem low_not_token : ∀ c : UInt8, c ≤ 0x7F → itok c = false := Bytes.forall_byte (by decide)

/-- `itype_end` and `WC_ZISTYPE` agree on the character at the head of a string. -/
theorem itypeEnd_eq {c : UInt8} {s : Bytes} {len : ℕ} {wc : Option ℕ}
    (h : HeadChar env (c :: s) len wc) :
    env.itypeEnd (c :: s) = some (if env.wcIsep wc then (c :: s).drop len else c :: s) := by
  rw [itypeEnd]
  cases hmulti : env.multibyte with
  | false =>
    obtain ⟨rfl, hdrop⟩ := h.single hmulti
    rw [if_neg Bool.false_ne_true, wcIsep, hmulti, Bool.not_false, Bool.true_or, if_pos rfl,
      UInt8.ofNat_toNat, hdrop]
    split <;> rfl
  | true =>
    rw [if_pos rfl]
    split
    · next htoken =>
      have hconv := h.conv
      have hnot : ¬ c ≤ 0x7F := by
        intro hlow
        rw [low_not_token c hlow] at htoken
        cases htoken
      rw [charConv, mbMetacharlenconv, hmulti, htoken, Bool.not_true, Bool.false_or,
        if_neg (by simpa using hnot), if_pos rfl] at hconv
      cases hconv
      have hisep : env.isep c = false := by
        rw [Bool.eq_false_iff]
        intro hsep
        obtain ⟨b, hmem⟩ := (isep_iff c).mp hsep
        exact absurd (not_low_high hnot) (UInt8.not_le.mpr (entriesFrom_low hmulti hmem))
      rw [hisep, if_neg Bool.false_ne_true]
      rfl
    · rw [h.conv]
      dsimp only
      rw [if_neg h.pos.ne']
      cases wc with
      | none =>
        have hhigh := h.invalid hmulti rfl
        have hnot : ¬ (headUnit (c :: s)).1 ≤ 0x7F := by
          rw [UInt8.le_iff_toNat_le] at hhigh ⊢
          exact not_le.mpr hhigh
        rw [decide_eq_false hnot, Bool.false_and, if_neg Bool.false_ne_true]
        rfl
      | some w =>
        have hlowWide {d : UInt8} (hd : d < 0x80) (hw : w = d.toNat) :
            env.wcIsep (some w) = env.isep d := by
          have hlt : w < 0x80 := hw ▸ UInt8.lt_iff_toNat_lt.mp hd
          rw [wcIsep, decide_eq_true hlt, Bool.or_true, if_pos rfl, hw, UInt8.ofNat_toNat]
        have hsame : (if len = 1 ∧ c ≤ 0x7F then env.isep c else env.ifsWide.contains w) =
            env.wcIsep (some w) := by
          split
          · next hascii =>
            have hc : c < 0x80 := UInt8.lt_iff_toNat_lt.mpr
              (Nat.lt_succ_of_le (UInt8.le_iff_toNat_le.mp hascii.2))
            have hhead : (headUnit (c :: s)).1 = c := by rw [headUnit_byte (low_ne_meta hc)]
            obtain ⟨hw, -, -⟩ | ⟨-, hhigh, -⟩ := h.valid hmulti w rfl
            · rw [hhead] at hw
              exact (hlowWide hc hw).symm
            · rw [hhead] at hhigh
              exact absurd hhigh (UInt8.not_le.mpr hc)
          · obtain ⟨hw, hlow, -⟩ | ⟨hhigh, -, -⟩ := h.valid hmulti w rfl
            · rw [hlowWide hlow hw, hw, ifsWide_low hmulti hlow]
            · rw [wcIsep, hmulti, decide_eq_false (not_lt.mpr hhigh), Bool.not_true,
                Bool.or_false, if_neg Bool.false_ne_true]
        simp only [hsame]
        split <;> rfl

end SplitEnv

end Bsh.Shell
