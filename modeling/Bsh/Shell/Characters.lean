import Bsh.Shell.Quote

/-!
# The characters of a string

`MB_METACHARLEN` gives the length of the character at the head of a metafied string, and
`MB_METASTRLEN` counts characters in a loop of its own.  Both cut a string into the same characters,
except where it ends inside of one.  Character sets with shift states are left out, so that every
character is read from the initial state.
-/

namespace Bsh.Shell

open Bsh.Library List

/-- The character set, the option `MULTIBYTE`, and whether `MB_CUR_MAX` is 1. -/
structure TextEnv where
  charset : Charset
  multibyte : Bool
  singleByte : Bool
  stateless : ∀ c st wc st', charset.mbrtowc c st = (.char wc, st') → st' = charset.initial
  single_complete : singleByte = true → ∀ c st, (charset.mbrtowc c st).1 ≠ .incomplete

namespace TextEnv

variable (env : TextEnv)

/-- `MB_METACHARLEN`. -/
def charLen : Bytes → Option ℕ
  | [] => some 1
  | c :: rest =>
    (mbMetacharlenconv env.charset env.multibyte c rest env.charset.initial).map (·.1)

/-! ## `MB_METASTRLEN` -/

/-- How the bytes from the start of a character go on. -/
inductive CharScan where
  | complete (used : ℕ)
  | invalid
  /-- The string ends in the character. -/
  | cut

/-- The turns of the loop of `mb_metastrlenend` for one character; a `Meta` at the end of the string
would be read past. -/
def scanChar (charset : Charset) : Bytes → ℕ → charset.State → Option CharScan
  | [], _, _ => some .cut
  | [c], used, st =>
    if c = metaByte then none
    else
      match charset.mbrtowc c st with
      | (.invalid, _) => some .invalid
      | (.incomplete, _) => some .cut
      | (.char _, _) => some (.complete (used + 1))
  | c :: d :: rest, used, st =>
    if c = metaByte then
      match charset.mbrtowc (d ^^^ 32) st with
      | (.invalid, _) => some .invalid
      | (.incomplete, st) => scanChar charset rest (used + 2) st
      | (.char _, _) => some (.complete (used + 2))
    else
      match charset.mbrtowc c st with
      | (.invalid, _) => some .invalid
      | (.incomplete, st) => scanChar charset (d :: rest) (used + 1) st
      | (.char _, _) => some (.complete (used + 1))

/-- The length of a character of seven bits at the head of a string. -/
def asciiLen (c : UInt8) (rest : Bytes) : Option ℕ :=
  if c = metaByte then
    if (rest.headD 0 ^^^ 32) ≤ 0x7F then some 2 else none
  else if c ≤ 0x7F then some 1
  else none

/-- The loop of `mb_metastrlenend`: the characters, and whether the last one is cut off.  The first
argument bounds its turns. -/
def metastrlenFrom : ℕ → Bytes → Option (ℕ × Bool)
  | _, [] => some (0, false)
  | 0, _ :: _ => none
  | turns + 1, c :: rest =>
    let next (used : ℕ) := (metastrlenFrom turns ((c :: rest).drop used)).map fun r ↦ (r.1 + 1, r.2)
    match asciiLen c rest with
    | some used => next used
    | none =>
      match scanChar env.charset (c :: rest) 0 env.charset.initial with
      | none => none
      | some .cut => some (0, true)
      | some .invalid => next (byteLength c)
      | some (.complete used) => next used

/-- `MB_METASTRLEN`. -/
def metastrlen (s : Bytes) : Option ℕ :=
  if !env.multibyte || env.singleByte then ztrlen (s ++ [0])
  else (env.metastrlenFrom s.length s).map fun r ↦ r.1 + r.2.toNat

/-- The string ends in the middle of a character. -/
def EndsCut (s : Bytes) : Prop :=
  env.multibyte = true ∧ env.singleByte = false ∧
    ∃ n, env.metastrlenFrom s.length s = some (n, true)

/-! ## The characters -/

/-- A string cut into its characters. -/
inductive Cut : Bytes → List Bytes → Prop
  | nil : Cut [] []
  | cons {ch rest : Bytes} {chs : List Bytes} (hne : ch ≠ [])
      (hlen : env.charLen (ch ++ rest) = some ch.length) (hrest : Cut rest chs) :
      Cut (ch ++ rest) (ch :: chs)

/-- The characters of a string; the first argument bounds their number. -/
def charactersFrom : ℕ → Bytes → List Bytes
  | _, [] => []
  | 0, _ :: _ => []
  | turns + 1, c :: rest =>
    let len := (env.charLen (c :: rest)).getD 1
    (c :: rest).take len :: charactersFrom turns ((c :: rest).drop len)

/-- The characters of a string. -/
def characters (s : Bytes) : List Bytes := env.charactersFrom s.length s

variable {env}

variable {chs : List Bytes} {s : Bytes} (charset : Charset) (c : UInt8) (b : Bytes) (used : ℕ)

theorem Cut.flatten (h : env.Cut s chs) : chs.flatten = s := by
  induction h with
  | nil => rfl
  | cons _ _ _ ih => rw [flatten_cons, ih]

theorem Cut.ne_nil (h : env.Cut s chs) : ∀ ch ∈ chs, ch ≠ [] := by
  induction h with
  | nil => exact fun ch hch ↦ absurd hch not_mem_nil
  | cons hne _ _ ih =>
    intro ch' hch
    rcases List.mem_cons.mp hch with rfl | hch
    · exact hne
    · exact ih ch' hch

/-- There is only one way to cut a string. -/
theorem Cut.eq_charactersFrom (h : env.Cut s chs) {turns : ℕ}
    (hturns : s.length ≤ turns) : env.charactersFrom turns s = chs := by
  induction h generalizing turns with
  | nil => cases turns <;> rfl
  | @cons ch rest chs hne hlen _ ih =>
    obtain ⟨c, ch', rfl⟩ := exists_cons_of_ne_nil hne
    rw [length_append, length_cons] at hturns
    obtain ⟨turns, rfl⟩ : ∃ k, turns = k + 1 := ⟨turns - 1, by omega⟩
    rw [cons_append] at hlen
    rw [cons_append, charactersFrom]
    simp only [hlen, Option.getD_some]
    rw [← cons_append, take_left, drop_left, ih (by omega)]

/-! ## Metafied strings -/

theorem itok_meta : itok metaByte = false := by decide

theorem metafied_cons : metafied (c :: b) = metafied [c] ++ metafied b := by
  have hsplit : c :: b = [c] ++ b := rfl
  rw [hsplit, metafied_append]

theorem metafied_special {c : UInt8} (hc : imeta c = true) :
    metafied [c] = [metaByte, c ^^^ 32] := by
  simpa [metafied] using metafied_cons_special hc [] []

theorem metafied_plain {c : UInt8} (hc : imeta c = false) : metafied [c] = [c] := by
  simpa [metafied] using metafied_cons_plain hc [] []

theorem scanChar_cons (st : charset.State) :
    scanChar charset (metafied (c :: b)) used st =
      match charset.mbrtowc c st with
      | (.invalid, _) => some .invalid
      | (.incomplete, st) => scanChar charset (metafied b) (used + (metafied [c]).length) st
      | (.char _, _) => some (.complete (used + (metafied [c]).length)) := by
  have hback : c ^^^ 32 ^^^ 32 = c := metaCode.flip_flip c
  rw [metafied_cons]
  cases hc : imeta c with
  | true =>
    rw [metafied_special hc, cons_append, cons_append, nil_append, scanChar,
      if_pos rfl, hback]
    rfl
  | false =>
    have hmeta : ¬ c = metaByte := not_imeta_ne_meta hc
    rw [metafied_plain hc, cons_append, nil_append]
    cases metafied b with
    | nil =>
      rw [scanChar, if_neg hmeta]
      rfl
    | cons d rest =>
      rw [scanChar, if_neg hmeta]
      rfl

theorem mbConvert_cons (st : charset.State) :
    mbConvert charset (metafied (c :: b)) used st =
      match charset.mbrtowc c st with
      | (.invalid, _) => some none
      | (.incomplete, st) => mbConvert charset (metafied b) (used + (metafied [c]).length) st
      | (.char wc, st) => some (some (used + (metafied [c]).length, wc, st)) := by
  have hback : c ^^^ 32 ^^^ 32 = c := metaCode.flip_flip c
  rw [metafied_cons]
  cases hc : imeta c with
  | true =>
    rw [metafied_special hc, cons_append, cons_append, nil_append, mbConvert,
      if_pos rfl, hback]
    rcases charset.mbrtowc c st with ⟨_ | _ | _, _⟩ <;> rfl
  | false =>
    have hmeta : ¬ c = metaByte := not_imeta_ne_meta hc
    rw [metafied_plain hc, cons_append, nil_append]
    cases metafied b with
    | nil =>
      rw [mbConvert, if_neg hmeta, hc, if_neg Bool.false_ne_true]
      rcases charset.mbrtowc c st with ⟨_ | _ | _, _⟩ <;> rfl
    | cons d rest =>
      rw [mbConvert, if_neg hmeta, hc, if_neg Bool.false_ne_true]
      rcases charset.mbrtowc c st with ⟨_ | _ | _, _⟩ <;> rfl

/-- Both loops find the same character, made of some bytes of the text, or none. -/
def SameChar (charset : Charset) (b : Bytes) (used : ℕ) (st : charset.State) : Prop :=
  (∃ k, 0 < k ∧ k ≤ b.length ∧ ∃ wc st',
    scanChar charset (metafied b) used st =
        some (.complete (used + (metafied (b.take k)).length)) ∧
      mbConvert charset (metafied b) used st =
        some (some (used + (metafied (b.take k)).length, wc, st'))) ∨
  (scanChar charset (metafied b) used st = some .invalid ∧
    mbConvert charset (metafied b) used st = some none) ∨
  (scanChar charset (metafied b) used st = some .cut ∧
    mbConvert charset (metafied b) used st = some none)

theorem sameChar (st : charset.State) :
    SameChar charset b used st := by
  induction b generalizing used st with
  | nil => exact .inr (.inr ⟨rfl, rfl⟩)
  | cons c b ih =>
    have happend (k : ℕ) : (metafied ((c :: b).take (k + 1))).length =
        (metafied [c]).length + (metafied (b.take k)).length := by
      rw [take_succ_cons, metafied_cons, length_append]
    rw [SameChar, scanChar_cons, mbConvert_cons]
    cases hread : charset.mbrtowc c st with
    | mk result st' =>
      cases result with
      | invalid => exact .inr (.inl ⟨rfl, rfl⟩)
      | incomplete =>
        rcases ih _ st' with ⟨k, -, hk, wc, st'', hs, hc⟩ | h | h
        · refine .inl ⟨k + 1, Nat.succ_pos k, Nat.succ_le_succ hk, wc, st'', ?_, ?_⟩
          · rw [happend, ← Nat.add_assoc]
            exact hs
          · rw [happend, ← Nat.add_assoc]
            exact hc
        · exact .inr (.inl h)
        · exact .inr (.inr h)
      | char wc =>
        exact .inl ⟨1, Nat.one_pos, Nat.succ_le_succ (Nat.zero_le _), wc, st', rfl, rfl⟩

/-! ## The character at the head -/

theorem byteLength_metafied :
    byteLength ((metafied (c :: b)).headD 0) = (metafied [c]).length := by
  rw [metafied_cons]
  cases hc : imeta c with
  | true =>
    rw [metafied_special hc]
    rfl
  | false =>
    rw [metafied_plain hc]
    exact if_neg (not_imeta_ne_meta hc)

theorem charLen_byte {c : UInt8}
    (h : env.multibyte = false ∨ c ≤ 0x7F ∨
      mbConvert env.charset (metafied (c :: b)) 0 env.charset.initial = some none) :
    env.charLen (metafied (c :: b)) = some (metafied [c]).length := by
  have hconvert := mbConvert_cons env.charset c b 0 env.charset.initial
  cases hc : imeta c with
  | true =>
    have hsplit : metafied (c :: b) = metaByte :: (c ^^^ 32) :: metafied b := by
      rw [metafied_cons, metafied_special hc]
      rfl
    rw [metafied_special hc]
    rw [hsplit] at hconvert h
    rw [hsplit, charLen, mbMetacharlenconv]
    cases hmultibyte : env.multibyte with
    | false => rfl
    | true =>
      have hhigh : (!true || decide (metaByte ≤ 0x7F)) = false := by decide
      rw [hhigh, if_neg Bool.false_ne_true, itok_meta, if_neg Bool.false_ne_true,
        mbMetacharlenconvR, if_neg (by decide)]
      rcases h with h | h | h
      · rw [hmultibyte] at h
        cases h
      · -- NUL is a character of its own or invalid.
        have hlow : c < 0x80 := UInt8.lt_iff_toNat_lt.mpr
          (Nat.lt_succ_of_le (UInt8.le_iff_toNat_le.mp h))
        have hnot := env.charset.ascii_complete c env.charset.initial hlow
        rw [hconvert]
        rcases hread : env.charset.mbrtowc c env.charset.initial with ⟨_ | _ | wc, st'⟩
        · rfl
        · rw [hread] at hnot
          exact absurd rfl hnot
        · simp only [metafied_special hc]
          rfl
      · rw [h]
        rfl
  | false =>
    have hsplit : metafied (c :: b) = c :: metafied b := by
      rw [metafied_cons, metafied_plain hc]
      rfl
    have hmeta : ¬ c = metaByte := not_imeta_ne_meta hc
    rw [metafied_plain hc]
    rw [hsplit] at h
    rw [hsplit, charLen, mbMetacharlenconv]
    split
    · rfl
    · next hlow =>
      simp only [Bool.or_eq_true, Bool.not_eq_true', decide_eq_true_eq, not_or] at hlow
      split
      · rfl
      · rcases h with h | h | h
        · exact absurd h hlow.1
        · exact absurd h hlow.2
        · rw [mbMetacharlenconvR, if_neg hlow.2, h]
          have hbyte : byteLength c = 1 := if_neg hmeta
          have hnot : ¬ (c ≠ metaByte ∧ imeta c = true) := by
            rw [hc]
            exact fun h ↦ Bool.false_ne_true h.2
          simp only [if_neg hnot, hbyte]
          rfl

theorem itok_imeta {c : UInt8} (h : imeta c = false) : itok c = false := by
  have hall : ∀ n < 256, imeta (UInt8.ofNat n) = false → itok (UInt8.ofNat n) = false := by
    decide +kernel
  have hc := hall c.toNat c.toNat_lt
  rw [UInt8.ofNat_toNat] at hc
  exact hc h

theorem charLen_convert {c : UInt8} {b : Bytes} {len wc : ℕ} {st : env.charset.State}
    (hmultibyte : env.multibyte = true) (hc : ¬ c ≤ 0x7F)
    (h : mbConvert env.charset (metafied (c :: b)) 0 env.charset.initial =
      some (some (len, wc, st))) : env.charLen (metafied (c :: b)) = some len := by
  cases hspecial : imeta c with
  | true =>
    have hsplit : metafied (c :: b) = metaByte :: (c ^^^ 32) :: metafied b := by
      rw [metafied_cons, metafied_special hspecial]
      rfl
    have hhigh : (!true || decide (metaByte ≤ 0x7F)) = false := by decide
    rw [hsplit] at h
    rw [hsplit, charLen, mbMetacharlenconv, hmultibyte, hhigh, if_neg Bool.false_ne_true, itok_meta,
      if_neg Bool.false_ne_true, mbMetacharlenconvR, if_neg (by decide), h]
    rfl
  | false =>
    have hsplit : metafied (c :: b) = c :: metafied b := by
      rw [metafied_cons, metafied_plain hspecial]
      rfl
    have hhigh : (!true || decide (c ≤ 0x7F)) = false := by simpa using hc
    rw [hsplit] at h
    rw [hsplit, charLen, mbMetacharlenconv, hmultibyte, hhigh, if_neg Bool.false_ne_true,
      itok_imeta hspecial, if_neg Bool.false_ne_true, mbMetacharlenconvR, if_neg hc, h]
    rfl

/-! ## The cut of a metafied string -/

theorem asciiLen_metafied :
    asciiLen ((metafied (c :: b)).headD 0) (metafied (c :: b)).tail =
      if c ≤ 0x7F then some (metafied [c]).length else none := by
  have hback : c ^^^ 32 ^^^ 32 = c := metaCode.flip_flip c
  rw [metafied_cons]
  cases hc : imeta c with
  | true =>
    rw [metafied_special hc, cons_append, cons_append, nil_append, headD_cons,
      tail_cons, asciiLen, if_pos rfl, headD_cons, hback]
    rfl
  | false =>
    rw [metafied_plain hc, cons_append, nil_append, headD_cons, tail_cons,
      asciiLen, if_neg (not_imeta_ne_meta hc)]
    rfl

theorem metastrlenFrom_succ (env : TextEnv) (c : UInt8) (b : Bytes) (turns : ℕ) :
    env.metastrlenFrom (turns + 1) (metafied (c :: b)) =
      if c ≤ 0x7F then
        (env.metastrlenFrom turns (metafied b)).map fun r ↦ (r.1 + 1, r.2)
      else
        match scanChar env.charset (metafied (c :: b)) 0 env.charset.initial with
        | none => none
        | some .cut => some (0, true)
        | some .invalid => (env.metastrlenFrom turns (metafied b)).map fun r ↦ (r.1 + 1, r.2)
        | some (.complete used) =>
          (env.metastrlenFrom turns ((metafied (c :: b)).drop used)).map fun r ↦ (r.1 + 1, r.2) := by
  have hascii := asciiLen_metafied c b
  have hbyte := byteLength_metafied c b
  have hdrop : (metafied (c :: b)).drop (metafied [c]).length = metafied b := by
    rw [metafied_cons c b, drop_left]
  cases hs : metafied (c :: b) with
  | nil =>
    have hlen := length_metafied (c :: b)
    rw [hs, length_nil, length_cons] at hlen
    omega
  | cons x xs =>
    rw [hs, headD_cons, tail_cons] at hascii
    rw [hs, headD_cons] at hbyte
    rw [hs] at hdrop
    rw [metastrlenFrom, hascii]
    split_ifs with hlow
    · simp only [hdrop]
    · simp only [hbyte, hdrop]

theorem drop_metafied_take (k : ℕ) :
    (metafied b).drop (metafied (b.take k)).length = metafied (b.drop k) := by
  calc (metafied b).drop (metafied (b.take k)).length
      = (metafied (b.take k ++ b.drop k)).drop (metafied (b.take k)).length := by
        rw [List.take_append_drop]
    _ = metafied (b.drop k) := by rw [metafied_append, drop_left]

/-- Where no character has two bytes, the one found has one. -/
theorem one_of_complete {c : UInt8} {b : Bytes} {k wc : ℕ} {st : env.charset.State}
    (hsingle : env.singleByte = true) (hpos : 0 < k) (hk : k ≤ (c :: b).length)
    (h : mbConvert env.charset (metafied (c :: b)) 0 env.charset.initial =
      some (some ((metafied ((c :: b).take k)).length, wc, st))) : k = 1 := by
  have hnot := env.single_complete hsingle c env.charset.initial
  obtain ⟨k, rfl⟩ : ∃ j, k = j + 1 := ⟨k - 1, by omega⟩
  rw [mbConvert_cons, take_succ_cons, metafied_cons c (b.take k), length_append] at h
  rcases hread : env.charset.mbrtowc c env.charset.initial with ⟨_ | _ | wc', st'⟩
  · rw [hread] at h
    exact nomatch h
  · rw [hread] at hnot
    exact absurd rfl hnot
  · rw [hread] at h
    simp only [Option.some.injEq, Prod.mk.injEq] at h
    have htake : (b.take k).length ≤ (metafied (b.take k)).length := by
      rw [length_metafied]
      exact Nat.le_add_right _ _
    rw [length_take] at htake
    rw [length_cons] at hk
    omega

/-- One turn of the loop of `mb_metastrlenend` takes the character that `MB_METACHARLEN` finds, or
ends in a character that is cut off. -/
theorem charLen_head (env : TextEnv) (c : UInt8) (b : Bytes) :
    ∃ k, 0 < k ∧ k ≤ (c :: b).length ∧
      env.charLen (metafied (c :: b)) = some (metafied ((c :: b).take k)).length ∧
      (env.multibyte = false ∨ env.singleByte = true → k = 1) ∧
      (env.multibyte = true → ∀ turns,
        env.metastrlenFrom (turns + 1) (metafied (c :: b)) = some (0, true) ∨
          env.metastrlenFrom (turns + 1) (metafied (c :: b)) =
            (env.metastrlenFrom turns (metafied ((c :: b).drop k))).map fun r ↦ (r.1 + 1, r.2)) := by
  -- A single byte, in both loops.
  have hsingle (hchar : env.multibyte = false ∨ c ≤ 0x7F ∨
        mbConvert env.charset (metafied (c :: b)) 0 env.charset.initial = some none)
      (hloop : env.multibyte = true → ∀ turns,
        env.metastrlenFrom (turns + 1) (metafied (c :: b)) = some (0, true) ∨
          env.metastrlenFrom (turns + 1) (metafied (c :: b)) =
            (env.metastrlenFrom turns (metafied b)).map _) :
      ∃ k, 0 < k ∧ k ≤ (c :: b).length ∧
        env.charLen (metafied (c :: b)) = some (metafied ((c :: b).take k)).length ∧
        (env.multibyte = false ∨ env.singleByte = true → k = 1) ∧
        (env.multibyte = true → ∀ turns,
          env.metastrlenFrom (turns + 1) (metafied (c :: b)) = some (0, true) ∨
            env.metastrlenFrom (turns + 1) (metafied (c :: b)) =
              (env.metastrlenFrom turns (metafied ((c :: b).drop k))).map
                fun r ↦ (r.1 + 1, r.2)) :=
    ⟨1, Nat.one_pos, Nat.succ_le_succ (Nat.zero_le _), charLen_byte b hchar, fun _ ↦ rfl, hloop⟩
  cases hmultibyte : env.multibyte with
  | false =>
    rw [hmultibyte] at hsingle
    exact hsingle (.inl rfl) (fun h ↦ nomatch h)
  | true =>
    rw [hmultibyte] at hsingle
    by_cases hlow : c ≤ 0x7F
    · refine hsingle (.inr (.inl hlow)) (fun _ turns ↦ .inr ?_)
      rw [metastrlenFrom_succ, if_pos hlow]
    · rcases sameChar env.charset (c :: b) 0 env.charset.initial with
        ⟨k, hpos, hk, wc, st, hscan, hconvert⟩ | ⟨hscan, hconvert⟩ | ⟨hscan, hconvert⟩
      · rw [Nat.zero_add] at hscan hconvert
        refine ⟨k, hpos, hk, charLen_convert hmultibyte hlow hconvert, ?_, fun _ turns ↦ .inr ?_⟩
        · rintro (h | h)
          · exact nomatch h
          · exact one_of_complete h hpos hk hconvert
        · rw [metastrlenFrom_succ, if_neg hlow, hscan]
          simp only [drop_metafied_take]
      · refine hsingle (.inr (.inr hconvert)) (fun _ turns ↦ .inr ?_)
        rw [metastrlenFrom_succ, if_neg hlow, hscan]
      · refine hsingle (.inr (.inr hconvert)) (fun _ turns ↦ .inl ?_)
        rw [metastrlenFrom_succ, if_neg hlow, hscan]

/-- A metafied string has a cut, and `MB_METASTRLEN` counts its characters, unless it ends inside of
one. -/
theorem exists_cut (env : TextEnv) (b : Bytes) :
    ∃ chs, env.Cut (metafied b) chs ∧
      (env.multibyte = false ∨ env.singleByte = true → chs.length = b.length) ∧
      (env.multibyte = true → ∀ turns, (metafied b).length ≤ turns →
        (∃ n, env.metastrlenFrom turns (metafied b) = some (n, true)) ∨
          env.metastrlenFrom turns (metafied b) = some (chs.length, false)) := by
  induction hn : b.length using Nat.strongRecOn generalizing b with
  | _ n ih =>
    subst hn
    cases b with
    | nil =>
      refine ⟨[], Cut.nil, fun _ ↦ rfl, fun _ turns _ ↦ .inr ?_⟩
      cases turns <;> rfl
    | cons c b =>
      obtain ⟨k, hpos, hk, hlen, hone, hturn⟩ := env.charLen_head c b
      have hshorter : ((c :: b).drop k).length < (c :: b).length := by
        rw [length_drop]
        omega
      obtain ⟨chs, hcut, hcount, hloop⟩ := ih _ hshorter _ rfl
      have hsplit : metafied (c :: b) = metafied ((c :: b).take k) ++ metafied ((c :: b).drop k) := by
        rw [← metafied_append, List.take_append_drop]
      have hne : metafied ((c :: b).take k) ≠ [] := by
        refine ne_nil_of_length_pos ?_
        rw [length_metafied, length_take]
        omega
      refine ⟨metafied ((c :: b).take k) :: chs, ?_, fun h ↦ ?_, fun h turns hturns ↦ ?_⟩
      · rw [hsplit] at hlen ⊢
        exact Cut.cons hne hlen hcut
      · rw [length_cons, hcount h, length_drop, hone h, length_cons]
        rfl
      · have hlonger := congrArg List.length hsplit
        have hnepos := List.length_pos_iff.mpr hne
        rw [length_append] at hlonger
        obtain ⟨turns, rfl⟩ : ∃ j, turns = j + 1 := ⟨turns - 1, by omega⟩
        rcases hturn h turns with hcutoff | hstep
        · exact .inl ⟨0, hcutoff⟩
        · rw [hstep]
          rcases hloop h turns (by omega) with ⟨m, hm⟩ | hm
          · exact .inl ⟨m + 1, by rw [hm]; rfl⟩
          · exact .inr (by rw [hm]; rfl)

theorem cut_characters (env : TextEnv) (b : Bytes) :
    env.Cut (metafied b) (env.characters (metafied b)) := by
  obtain ⟨chs, hcut, -, -⟩ := env.exists_cut b
  rw [characters, hcut.eq_charactersFrom le_rfl]
  exact hcut

theorem metastrlen_metafied {env : TextEnv} {b : Bytes} (h : ¬ env.EndsCut (metafied b)) :
    env.metastrlen (metafied b) = some (env.characters (metafied b)).length := by
  obtain ⟨chs, hcut, hcount, hloop⟩ := env.exists_cut b
  rw [characters, hcut.eq_charactersFrom le_rfl, metastrlen]
  cases hmultibyte : env.multibyte with
  | false =>
    rw [hcount (.inl hmultibyte)]
    exact ztrlen_metafied b []
  | true =>
    cases hsingle : env.singleByte with
    | true =>
      rw [hcount (.inr hsingle)]
      exact ztrlen_metafied b []
    | false =>
      rcases hloop hmultibyte _ le_rfl with hcutoff | hm
      · exact absurd ⟨hmultibyte, hsingle, hcutoff⟩ h
      · rw [hm]
        rfl

end TextEnv

end Bsh.Shell
