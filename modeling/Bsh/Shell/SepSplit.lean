import Bsh.Shell.Characters
import Bsh.Shell.SubscriptArray

/-!
# Splitting at a separator

`findsep`, `wordcount`, `sepsplit` and `sepjoin` of `utils.c` with a separator.  `sepsplit` asks
`wordcount` for the number of elements and scans the string a second time to store them.  Both look
for the separator at the starts of characters only, so that one that begins inside of a character
is passed over.
-/

namespace Bsh.Shell

open Bsh.Library Bytes List

/-! ## Strings -/

/-- A string inside of the shell: metafied bytes and tokens. -/
inductive MetaText : Bytes → Prop
  | nil : MetaText []
  | byte {c : UInt8} {s : Bytes} (hc : c ≠ 0 ∧ c ≠ metaByte ∧ c ≠ markerByte) (h : MetaText s) :
    MetaText (c :: s)
  | pair {d : UInt8} {s : Bytes} (hd : d ≠ 0) (h : MetaText s) : MetaText (metaByte :: d :: s)

theorem metaText_metafied (b : Bytes) : MetaText (metafied b) := by
  induction b with
  | nil => exact .nil
  | cons c b ih =>
    rw [← append_nil (metafied (c :: b))]
    cases hc : imeta c with
    | true =>
      rw [metafied_cons_special hc, append_nil]
      exact .pair (flip_ne_zero hc) ih
    | false =>
      have hmarker : c ≠ markerByte := by
        rintro rfl
        cases hc
      rw [metafied_cons_plain hc, append_nil]
      exact .byte ⟨not_imeta_ne_zero hc, not_imeta_ne_meta hc, hmarker⟩ ih

theorem MetaText.tail {c : UInt8} {s : Bytes} (hc : c ≠ metaByte) (h : MetaText (c :: s)) :
    MetaText s := by
  cases h with
  | byte _ h => exact h
  | pair _ _ => exact absurd rfl hc

theorem MetaText.tail_pair {d : UInt8} {s : Bytes} (h : MetaText (metaByte :: d :: s)) :
    MetaText s := by
  cases h with
  | byte hc _ => exact absurd rfl hc.2.1
  | pair _ h => exact h

/-- What is left behind a piece. -/
theorem MetaText.of_append {s t : Bytes} (hs : MetaText s) (h : MetaText (s ++ t)) :
    MetaText t := by
  induction hs with
  | nil => exact h
  | byte hc _ ih => exact ih (h.tail hc.2.1)
  | pair _ _ ih => exact ih h.tail_pair

theorem MetaText.append {s t : Bytes} (hs : MetaText s) (ht : MetaText t) :
    MetaText (s ++ t) := by
  induction hs with
  | nil => exact ht
  | byte hc _ ih => exact .byte hc ih
  | pair hd _ ih => exact .pair hd ih

theorem MetaText.zero_not_mem {s : Bytes} (h : MetaText s) : 0 ∉ s := by
  induction h with
  | nil => exact not_mem_nil
  | byte hc _ ih => exact not_mem_cons_of_ne_of_not_mem hc.1.symm ih
  | pair hd _ ih =>
    exact not_mem_cons_of_ne_of_not_mem (by decide)
      (not_mem_cons_of_ne_of_not_mem hd.symm ih)

/-! ## The functions -/

namespace TextEnv

variable (env : TextEnv)

/-- `*s += MB_METACHARLEN(*s)`; past the end of the string there is nothing. -/
def nextChar (s : Bytes) : Option Bytes :=
  match env.charLen s with
  | none => none
  | some len => if s.length < len then none else some (s.drop len)

/-- The loop of `findsep`.  The first argument bounds its turns. -/
def findsepFrom (sep : Bytes) : ℕ → ℕ → Bytes → Option (ℤ × Bytes)
  | _, _, [] => some (-1, [])
  | 0, _, _ :: _ => none
  | turns + 1, i, c :: s =>
    if sep <+: c :: s then some (if 0 < i then 1 else 0, c :: s)
    else (env.nextChar (c :: s)).bind (findsepFrom sep turns (i + 1))

/-- `findsep` with a separator: what is returned, and where `*s` is left. -/
def findsep (s sep : Bytes) : Option (ℤ × Bytes) :=
  if sep = [] then
    if s = [] then some (-1, []) else (env.nextChar s).map fun t ↦ (1, t)
  else env.findsepFrom sep s.length 0 s

/-- The loop of `wordcount`, from the count `r`. -/
def wordcountFrom (sep : Bytes) (mul : ℤ) : ℕ → Bytes → ℕ → Option ℕ
  | 0, _, _ => none
  | turns + 1, s, r =>
    match env.findsep s sep with
    | none => none
    | some (c, s) =>
      if c < 0 then some r
      else
        let behind := s.drop sep.length
        wordcountFrom sep mul turns behind
          (if (c ≠ 0 ∨ mul ≠ 0) ∧ (sep ≠ [] ∨ behind ≠ []) then r + 1 else r)

/-- `wordcount` with a separator. -/
def wordcount (s sep : Bytes) (mul : ℤ) : Option ℕ :=
  env.wordcountFrom sep mul (s.length + 2) s 1

/-- The loop of `sepsplit`; the pointer may be left behind the end of the string. -/
def sepsplitFrom (sep : Bytes) : ℕ → Bytes → Option (List Bytes)
  | 0, _ => some []
  | n + 1, tt =>
    match env.findsep tt sep with
    | none => none
    | some (_, t) =>
      let stored := tt.take (tt.length - t.length)
      if t.length < sep.length then if n = 0 then some [stored] else none
      else (sepsplitFrom sep n (t.drop sep.length)).map (stored :: ·)

/-- `sepsplit` with a separator, for which `allownull` does not matter. -/
def sepsplit (s sep : Bytes) (_allownull : Bool) : Option (List Bytes) :=
  let s := if s = [nulargToken] then [] else s
  match env.wordcount s sep 1 with
  | none => none
  | some n => env.sepsplitFrom sep n s

end TextEnv

/-- `sepjoin` with a separator. -/
def sepjoin (sep : Bytes) : List Bytes → Bytes
  | [] => []
  | [a] => a
  | a :: b :: rest => a ++ sep ++ sepjoin sep (b :: rest)

/-! ## Characters -/

section Characters

variable {env : TextEnv}

/-- The bytes that are read for one character are whole units. -/
theorem mbConvert_metaText {charset : Charset} {s : Bytes} (h : MetaText s) (used : ℕ)
    (st : charset.State) : mbConvert charset s used st = some none ∨
      ∃ k wc st', mbConvert charset s used st = some (some (used + k, wc, st')) ∧ 0 < k ∧
        k ≤ s.length ∧ MetaText (s.drop k) := by
  induction h generalizing used st with
  | nil => exact .inl rfl
  | @byte c s hc h ih =>
    cases s with
    | nil =>
      rw [mbConvert, if_neg hc.2.1]
      split
      · exact .inl rfl
      split
      · next wc st' _ => exact .inr ⟨1, wc, st', rfl, one_pos, le_rfl, .nil⟩
      · exact .inl rfl
    | cons d s =>
      rw [mbConvert, if_neg hc.2.1]
      split
      · exact .inl rfl
      split
      · exact .inl rfl
      · next st' _ =>
        obtain hnone | ⟨k, wc, st'', hsome, hpos, hk, hrest⟩ := ih (used + 1) st'
        · exact .inl hnone
        · refine .inr ⟨k + 1, wc, st'', ?_, Nat.succ_pos k, Nat.succ_le_succ hk, hrest⟩
          rw [hsome, Nat.add_assoc, Nat.add_comm 1 k]
      · next wc st' _ => exact .inr ⟨1, wc, st', rfl, one_pos, by simp, h⟩
  | @pair d s hd h ih =>
    rw [mbConvert, if_pos rfl]
    split
    · exact .inl rfl
    · next st' _ =>
      obtain hnone | ⟨k, wc, st'', hsome, hpos, hk, hrest⟩ := ih (used + 2) st'
      · exact .inl hnone
      · refine .inr ⟨k + 2, wc, st'', ?_, by omega, Nat.add_le_add_right hk 2, hrest⟩
        rw [hsome, Nat.add_assoc, Nat.add_comm 2 k]
    · next wc st' _ => exact .inr ⟨2, wc, st', rfl, two_pos, by simp, h⟩

/-- The head of a string as a single byte, or as `Meta` with what follows. -/
theorem byteLength_metaText {c : UInt8} {s : Bytes} (h : MetaText (c :: s)) :
    0 < byteLength c ∧ byteLength c ≤ (c :: s).length ∧ MetaText ((c :: s).drop (byteLength c)) := by
  cases h with
  | byte hc h =>
    rw [byteLength, if_neg hc.2.1]
    exact ⟨one_pos, by simp, h⟩
  | @pair d s _ h => exact ⟨two_pos, Nat.le_add_left 2 s.length, h⟩

/-- The character at the head of a string ends inside of it. -/
theorem charLen_metaText (env : TextEnv) {c : UInt8} {s : Bytes} (h : MetaText (c :: s)) :
    ∃ len, env.charLen (c :: s) = some len ∧ 0 < len ∧ len ≤ (c :: s).length ∧
      MetaText ((c :: s).drop len) := by
  have hone (hc : c ≠ metaByte) : 0 < 1 ∧ 1 ≤ (c :: s).length ∧ MetaText ((c :: s).drop 1) :=
    ⟨one_pos, by simp, h.tail hc⟩
  have hbytes := byteLength_metaText h
  rw [TextEnv.charLen, mbMetacharlenconv]
  split
  · split
    · next hmeta =>
      subst hmeta
      cases h with
      | byte hc _ => exact absurd rfl hc.2.1
      | pair _ h => exact ⟨2, rfl, two_pos, by simp, h⟩
    · next hc => exact ⟨1, rfl, hone hc⟩
  split
  · next htoken =>
    refine ⟨1, rfl, hone ?_⟩
    rintro rfl
    cases htoken
  rw [mbMetacharlenconvR]
  split
  · next hlow =>
    refine ⟨1, rfl, hone ?_⟩
    rintro rfl
    exact absurd hlow (by decide)
  obtain hnone | ⟨k, wc, st', hsome, hpos, hk, hrest⟩ :=
    mbConvert_metaText h 0 env.charset.initial
  · next htoken _ =>
    have hnot : ¬(c ≠ metaByte ∧ imeta c = true) := by
      rintro ⟨hmeta, hspecial⟩
      have hmarker : c ≠ 0 ∧ c ≠ markerByte := by
        cases h with
        | byte hc _ => exact ⟨hc.1, hc.2.2⟩
        | pair _ _ => exact absurd rfl hmeta
      simp [imeta, hmeta, hmarker] at hspecial
      simp [itok, inull, hspecial] at htoken
    rw [hnone, Option.map_some, if_neg hnot]
    exact ⟨_, rfl, hbytes⟩
  · rw [hsome]
    exact ⟨k, by rw [Option.map_some, Nat.zero_add], hpos, hk, hrest⟩

theorem nextChar_metaText (env : TextEnv) {c : UInt8} {s : Bytes} (h : MetaText (c :: s)) :
    ∃ ch t, c :: s = ch ++ t ∧ ch ≠ [] ∧ env.charLen (c :: s) = some ch.length ∧
      env.nextChar (c :: s) = some t ∧ MetaText t := by
  obtain ⟨len, hlen, hpos, hle, hrest⟩ := charLen_metaText env h
  have htaken : ((c :: s).take len).length = len := by
    rw [length_take]
    omega
  refine ⟨(c :: s).take len, (c :: s).drop len, (List.take_append_drop len _).symm, ?_, ?_, ?_,
    hrest⟩
  · intro hnil
    rw [hnil] at htaken
    exact absurd htaken.symm hpos.ne'
  · rw [hlen, htaken]
  · rw [TextEnv.nextChar, hlen]
    exact if_neg (not_lt.mpr hle)

end Characters

/-! ## The two scans -/

section Scans

variable {env : TextEnv} {sep : Bytes}

/-- A search that finds the separator stops in front of it. -/
theorem findsepFrom_spec (hsep : MetaText sep) {turns i : ℕ} {s : Bytes} (h : MetaText s)
    (hturns : s.length ≤ turns) :
    env.findsepFrom sep turns i s = some (-1, []) ∨
      ∃ p t c, s = p ++ (sep ++ t) ∧ 0 ≤ c ∧
        env.findsepFrom sep turns i s = some (c, sep ++ t) ∧ MetaText t := by
  induction turns generalizing i s with
  | zero =>
    rw [List.length_eq_zero_iff.mp (Nat.le_zero.mp hturns)]
    exact .inl rfl
  | succ turns ih =>
    cases s with
    | nil => exact .inl rfl
    | cons c s =>
      by_cases hhere : sep <+: c :: s
      · obtain ⟨t, ht⟩ := hhere
        refine .inr ⟨[], t, if 0 < i then 1 else 0, ht.symm, ?_, ?_, ?_⟩
        · split <;> decide
        · rw [TextEnv.findsepFrom, if_pos ⟨t, ht⟩, ht]
        · rw [← ht] at h
          exact hsep.of_append h
      · obtain ⟨ch, t, hsplit, hne, -, hnext, ht⟩ := nextChar_metaText env h
        have hlen := congrArg List.length hsplit
        have hpos := List.length_pos_iff.mpr hne
        rw [length_append] at hlen
        rw [TextEnv.findsepFrom, if_neg hhere, hnext, Option.bind_some]
        obtain hnone | ⟨p, t', c', hfound, hc, hfind, hrest⟩ := ih ht (by omega)
        · exact .inl hnone
        · refine .inr ⟨ch ++ p, t', c', ?_, hc, hfind, hrest⟩
          rw [hsplit, hfound, append_assoc]

variable (env sep) in
/-- A string cut at the separators that are found. -/
inductive Pieces : Bytes → List Bytes → Prop
  | last {s : Bytes} (h : env.findsep s sep = some (-1, []) ∨
      sep = [] ∧ env.findsep s sep = some (1, [])) : Pieces s [s]
  | more {p t : Bytes} {c : ℤ} {r : List Bytes} (hc : 0 ≤ c)
      (h : env.findsep (p ++ (sep ++ t)) sep = some (c, sep ++ t)) (hne : p ++ sep ≠ [])
      (hbehind : sep ≠ [] ∨ t ≠ []) (hr : Pieces t r) : Pieces (p ++ (sep ++ t)) (p :: r)

theorem exists_pieces (hsep : MetaText sep) {s : Bytes} (h : MetaText s) :
    ∃ r, Pieces env sep s r := by
  induction hn : s.length using Nat.strongRecOn generalizing s with
  | _ n ih =>
    by_cases hempty : sep = []
    · subst hempty
      cases s with
      | nil => exact ⟨_, .last (.inl rfl)⟩
      | cons c s =>
        obtain ⟨ch, t, hsplit, hne, -, hnext, ht⟩ := nextChar_metaText env h
        have hfind : env.findsep (c :: s) [] = some (1, t) := by
          rw [TextEnv.findsep, if_pos rfl, if_neg (cons_ne_nil c s), hnext, Option.map_some]
        by_cases hend : t = []
        · subst hend
          exact ⟨_, .last (.inr ⟨rfl, hfind⟩)⟩
        · have hlen := congrArg List.length hsplit
          have hpos := List.length_pos_iff.mpr hne
          rw [length_append] at hlen
          obtain ⟨r, hr⟩ := ih t.length (by omega) ht rfl
          rw [hsplit] at hfind ⊢
          exact ⟨_, .more Int.one_nonneg hfind (by simpa using hne) (.inr hend) hr⟩
    · have hfind : env.findsep s sep = env.findsepFrom sep s.length 0 s := if_neg hempty
      obtain hnone | ⟨p, t, c, hfound, hc, hsome, ht⟩ :=
        @findsepFrom_spec env _ hsep _ 0 _ h le_rfl
      · exact ⟨_, .last (.inl (hfind.trans hnone))⟩
      · have hlen := congrArg List.length hfound
        have hpos := List.length_pos_iff.mpr hempty
        rw [length_append, length_append] at hlen
        obtain ⟨r, hr⟩ := ih t.length (by omega) ht rfl
        rw [← hfind] at hsome
        subst hfound
        exact ⟨_, .more hc hsome (by simp [hempty]) (.inl hempty) hr⟩

theorem Pieces.ne_nil {s : Bytes} {r : List Bytes} (h : Pieces env sep s r) : r ≠ [] := by
  cases h <;> exact cons_ne_nil _ _

theorem drop_separator (t : Bytes) : (sep ++ t).drop sep.length = t := drop_left

theorem Pieces.wordcountFrom {s : Bytes} {r : List Bytes} (h : Pieces env sep s r) {turns : ℕ}
    (hturns : s.length + 2 ≤ turns) (k : ℕ) :
    env.wordcountFrom sep 1 turns s (k + 1) = some (k + r.length) := by
  induction h generalizing turns k with
  | @last s h =>
    obtain ⟨turns, rfl⟩ : ∃ j, turns = j + 2 := ⟨turns - 2, by omega⟩
    obtain hnone | ⟨rfl, hlast⟩ := h
    · rw [TextEnv.wordcountFrom, hnone]
      rfl
    · rw [TextEnv.wordcountFrom, hlast]
      rfl
  | @more p t c r hc hfind hne hbehind _ ih =>
    obtain ⟨turns, rfl⟩ : ∃ j, turns = j + 1 := ⟨turns - 1, by omega⟩
    have hpos := List.length_pos_iff.mpr hne
    rw [length_append, length_append] at hturns
    rw [length_append] at hpos
    have hcounts : (c ≠ 0 ∨ (1 : ℤ) ≠ 0) ∧ (sep ≠ [] ∨ t ≠ []) := ⟨.inr one_ne_zero, hbehind⟩
    rw [TextEnv.wordcountFrom, hfind]
    dsimp only
    rw [if_neg (not_lt.mpr hc), drop_separator, if_pos hcounts, ih (by omega) (k + 1),
      length_cons]
    congr 1
    omega

theorem Pieces.sepsplitFrom {s : Bytes} {r : List Bytes} (h : Pieces env sep s r) :
    env.sepsplitFrom sep r.length s = some r := by
  induction h with
  | @last s h =>
    have hfind : ∃ c, env.findsep s sep = some (c, []) := by
      obtain hnone | ⟨-, hlast⟩ := h
      · exact ⟨_, hnone⟩
      · exact ⟨_, hlast⟩
    obtain ⟨c, hfind⟩ := hfind
    rw [length_singleton, TextEnv.sepsplitFrom, hfind]
    simp only [length_nil, Nat.sub_zero, take_length, if_true]
    split <;> rfl
  | @more p t c r _ hfind _ _ _ ih =>
    have hstored : (p ++ (sep ++ t)).take ((p ++ (sep ++ t)).length - (sep ++ t).length) = p := by
      rw [length_append, Nat.add_sub_cancel, take_left]
    have hroom : ¬ (sep ++ t).length < sep.length := by
      rw [length_append]
      omega
    rw [length_cons, TextEnv.sepsplitFrom, hfind]
    simp only [hstored, hroom, if_false, drop_separator, ih, Option.map_some]

theorem sepjoin_cons (p : Bytes) {r : List Bytes} (hr : r ≠ []) :
    sepjoin sep (p :: r) = p ++ (sep ++ sepjoin sep r) := by
  obtain ⟨q, r, rfl⟩ := exists_cons_of_ne_nil hr
  rw [sepjoin, append_assoc]

theorem Pieces.sepjoin_eq {s : Bytes} {r : List Bytes} (h : Pieces env sep s r) :
    sepjoin sep r = s := by
  induction h with
  | last _ => rfl
  | more _ _ _ _ hr ih => rw [sepjoin_cons _ hr.ne_nil, ih]

theorem Pieces.wordcount {s : Bytes} {r : List Bytes} (h : Pieces env sep s r) :
    env.wordcount s sep 1 = some r.length := by
  have hcount := h.wordcountFrom le_rfl 0
  rwa [Nat.zero_add, Nat.zero_add] at hcount

theorem Pieces.sepsplit {s : Bytes} {r : List Bytes} (h : Pieces env sep s r)
    (hs : s ≠ [nulargToken]) (allownull : Bool) : env.sepsplit s sep allownull = some r := by
  unfold TextEnv.sepsplit
  simp only [if_neg hs, h.wordcount, h.sepsplitFrom]

end Scans

/-! ## Joining and splitting -/

section Joining

variable {env : TextEnv} {sep : Bytes}

theorem cut_metaText (env : TextEnv) {s : Bytes} (h : MetaText s) :
    env.Cut s (env.characters s) := by
  have hexists : ∃ chs, env.Cut s chs := by
    induction hn : s.length using Nat.strongRecOn generalizing s with
    | _ n ih =>
      cases s with
      | nil => exact ⟨_, .nil⟩
      | cons c s =>
        obtain ⟨ch, t, hsplit, hne, hlen, -, ht⟩ := nextChar_metaText env h
        have hlength := congrArg List.length hsplit
        have hpos := List.length_pos_iff.mpr hne
        rw [length_append] at hlength
        obtain ⟨chs, hcut⟩ := ih t.length (by omega) ht rfl
        rw [hsplit] at hlen ⊢
        exact ⟨_, .cons hne hlen hcut⟩
  obtain ⟨chs, hcut⟩ := hexists
  rw [TextEnv.characters, hcut.eq_charactersFrom le_rfl]
  exact hcut

/-- The characters of an element stay what they are in front of the separator. -/
def EndsWhole (env : TextEnv) (sep e : Bytes) : Prop :=
  ∀ tail, MetaText tail →
    env.characters (e ++ (sep ++ tail)) = env.characters e ++ env.characters (sep ++ tail)

/-- The elements of an array can be told apart when they are joined: none contains the separator,
and none but the last ends with what would begin a separator together with the next one, or in
the middle of a character that goes on in the next separator. -/
structure Separable (env : TextEnv) (sep : Bytes) (a : List Bytes) : Prop where
  text : ∀ e ∈ a, MetaText e
  clean : ∀ e ∈ a, ¬ sep <:+: e
  apart : ∀ e ∈ a.dropLast, ∀ x, x ≠ [] → x <:+ e → ¬ sep <+: x ++ sep
  whole : ∀ e ∈ a.dropLast, EndsWhole env sep e

/-- A search passes over the characters at which there is no separator. -/
theorem findsepFrom_skip {chs : List Bytes} {u : Bytes} {rest : List Bytes}
    (hcut : env.Cut (chs.flatten ++ u) (chs ++ rest)) (hu : sep <+: u) (hne : u ≠ [])
    (hclean : ∀ x, x ≠ [] → x <:+ chs.flatten → ¬ sep <+: x ++ u) {turns : ℕ} (i : ℕ)
    (hturns : (chs.flatten ++ u).length ≤ turns) :
    ∃ c, 0 ≤ c ∧ env.findsepFrom sep turns i (chs.flatten ++ u) = some (c, u) := by
  induction chs generalizing turns i with
  | nil =>
    obtain ⟨c, u, rfl⟩ := exists_cons_of_ne_nil hne
    rw [flatten_nil, nil_append] at hturns ⊢
    obtain ⟨turns, rfl⟩ : ∃ j, turns = j + 1 := ⟨turns - 1, by rw [length_cons] at hturns; omega⟩
    refine ⟨if 0 < i then 1 else 0, ?_, ?_⟩
    · split <;> decide
    · rw [TextEnv.findsepFrom, if_pos hu]
  | cons ch chs ih =>
    rw [flatten_cons, append_assoc, cons_append] at hcut
    rw [flatten_cons, append_assoc] at hturns ⊢
    have hwhole : ch ++ (chs.flatten ++ u) = (ch :: chs).flatten ++ u := by
      rw [flatten_cons, append_assoc]
    generalize htext : ch ++ (chs.flatten ++ u) = text at hcut hturns ⊢
    cases hcut with
    | @cons _ behind _ hchar hlen hcut =>
    obtain rfl : chs.flatten ++ u = behind := append_cancel_left htext
    have hnot : ¬ sep <+: ch ++ (chs.flatten ++ u) := by
      rw [hwhole]
      exact hclean _ (by simp [hchar]) (suffix_refl _)
    have hpos := List.length_pos_iff.mpr hchar
    rw [length_append] at hturns
    obtain ⟨turns, rfl⟩ : ∃ j, turns = j + 1 := ⟨turns - 1, by omega⟩
    have hnext : env.nextChar (ch ++ (chs.flatten ++ u)) = some (chs.flatten ++ u) := by
      rw [TextEnv.nextChar, hlen]
      dsimp only
      rw [if_neg (by rw [length_append]; omega), drop_left]
    have hroom : (chs.flatten ++ u).length ≤ turns := by omega
    obtain ⟨c, hc, hfind⟩ := ih hcut (fun x hx hsuffix ↦
      hclean x hx (hsuffix.trans (suffix_append _ _))) (i + 1) hroom
    refine ⟨c, hc, ?_⟩
    obtain ⟨b, text, htext⟩ : ∃ b text, ch ++ (chs.flatten ++ u) = b :: text := by
      obtain ⟨b, ch', rfl⟩ := exists_cons_of_ne_nil hchar
      exact ⟨b, _, rfl⟩
    rw [htext] at hnot hnext ⊢
    rw [TextEnv.findsepFrom, if_neg hnot, hnext, Option.bind_some, hfind]

theorem separator_ne_nil {a : List Bytes} (ha : a ≠ []) (h : Separable env sep a) : sep ≠ [] := by
  rintro rfl
  obtain ⟨e, a, rfl⟩ := exists_cons_of_ne_nil ha
  exact h.clean e mem_cons_self nil_infix

theorem Separable.findsep_first {e t : Bytes} {a : List Bytes} (hsep : MetaText sep)
    (h : Separable env sep (e :: a)) (ha : a ≠ []) (ht : MetaText t) :
    ∃ c, 0 ≤ c ∧ env.findsep (e ++ (sep ++ t)) sep = some (c, sep ++ t) := by
  have hne := separator_ne_nil (cons_ne_nil e a) h
  have he : e ∈ (e :: a).dropLast := by
    rw [dropLast_cons_of_ne_nil ha]
    exact mem_cons_self
  have hbehind : MetaText (sep ++ t) := hsep.append ht
  have htext := h.text e mem_cons_self
  have hcut := cut_metaText env (htext.append hbehind)
  rw [h.whole e he t ht] at hcut
  have hflat := (cut_metaText env htext).flatten
  have hclean : ∀ x, x ≠ [] → x <:+ (env.characters e).flatten → ¬ sep <+: x ++ (sep ++ t) := by
    intro x hx hsuffix hhere
    rw [hflat] at hsuffix
    rw [← append_assoc] at hhere
    refine h.apart e he x hx hsuffix (prefix_of_prefix_length_le hhere
      (prefix_append _ _) ?_)
    rw [length_append]
    omega
  have hlength : ((env.characters e).flatten ++ (sep ++ t)).length ≤ (e ++ (sep ++ t)).length := by
    rw [hflat]
  have hcut' : env.Cut ((env.characters e).flatten ++ (sep ++ t))
      (env.characters e ++ env.characters (sep ++ t)) := by
    rwa [hflat]
  obtain ⟨c, hc, hfind⟩ := findsepFrom_skip hcut' (prefix_append _ _) (by simp [hne]) hclean 0
    hlength
  rw [hflat] at hfind
  exact ⟨c, hc, (if_neg hne).trans hfind⟩

theorem Separable.findsep_last {e : Bytes} (hsep : MetaText sep) (h : Separable env sep [e]) :
    env.findsep e sep = some (-1, []) := by
  have hne := separator_ne_nil (cons_ne_nil e []) h
  rw [TextEnv.findsep, if_neg hne]
  obtain hnone | ⟨p, t, c, hfound, -⟩ :=
    @findsepFrom_spec env _ hsep _ 0 _ (h.text e mem_cons_self) le_rfl
  · exact hnone
  · exact absurd ⟨p, t, by rw [hfound, append_assoc]⟩ (h.clean e mem_cons_self)

theorem Separable.tail {e : Bytes} {a : List Bytes} (h : Separable env sep (e :: a)) :
    Separable env sep a where
  text d hd := h.text d (mem_cons_of_mem e hd)
  clean d hd := h.clean d (mem_cons_of_mem e hd)
  apart d hd := by
    cases a with
    | nil => cases hd
    | cons b a => exact h.apart d (mem_cons_of_mem e hd)
  whole d hd := by
    cases a with
    | nil => cases hd
    | cons b a => exact h.whole d (mem_cons_of_mem e hd)

theorem metaText_sepjoin (hsep : MetaText sep) {a : List Bytes} (h : ∀ e ∈ a, MetaText e) :
    MetaText (sepjoin sep a) := by
  induction a with
  | nil => exact .nil
  | cons e a ih =>
    have htext := h e mem_cons_self
    have hrest := ih fun d hd ↦ h d (mem_cons_of_mem e hd)
    by_cases ha : a = []
    · subst ha
      exact htext
    · rw [sepjoin_cons e ha]
      exact htext.append (hsep.append hrest)

theorem Separable.pieces (hsep : MetaText sep) {a : List Bytes} (ha : a ≠ [])
    (h : Separable env sep a) : Pieces env sep (sepjoin sep a) a := by
  have hne := separator_ne_nil ha h
  induction a with
  | nil => exact absurd rfl ha
  | cons e a ih =>
    by_cases hlast : a = []
    · subst hlast
      exact .last (.inl (h.findsep_last hsep))
    · have hrest := metaText_sepjoin hsep h.tail.text
      obtain ⟨c, hc, hfind⟩ := h.findsep_first hsep hlast hrest
      rw [sepjoin_cons e hlast]
      exact .more hc hfind (by simp [hne]) (.inl hne) (ih hlast h.tail)

/-- A byte of seven bits ends a character that is not complete. -/
theorem mbConvert_append_ascii {charset : Charset} {s : Bytes} (h : MetaText s) {d : UInt8}
    (hd : d < 0x80) (x : Bytes) (used : ℕ) (st : charset.State)
    (hst : s ≠ [] ∨ (charset.mbrtowc d st).1 = .invalid) :
    mbConvert charset (s ++ d :: x) used st = mbConvert charset s used st := by
  have hmeta : d ≠ metaByte := by
    rintro rfl
    exact absurd hd (by decide)
  induction h generalizing used st with
  | nil =>
    have hinvalid := hst.resolve_left (fun h ↦ h rfl)
    obtain ⟨result, hresult⟩ : ∃ r, charset.mbrtowc d st = r := ⟨_, rfl⟩
    obtain ⟨kind, st'⟩ := result
    rw [hresult] at hinvalid
    obtain rfl : kind = .invalid := hinvalid
    cases x with
    | nil =>
      change mbConvert charset [d] used st = some none
      rw [mbConvert, if_neg hmeta, hresult]
      split <;> rfl
    | cons y x =>
      change mbConvert charset (d :: y :: x) used st = some none
      rw [mbConvert, if_neg hmeta, hresult]
      split <;> rfl
  | @byte c s hc _ ih =>
    have htail (st' : charset.State) (hincomplete : charset.mbrtowc c st = (.incomplete, st')) :
        (charset.mbrtowc d st').1 = .invalid := by
      have hkind := charset.ascii_tail c d st (by rw [hincomplete]) hd
      rwa [hincomplete] at hkind
    cases s with
    | nil =>
      rw [cons_append, nil_append, mbConvert, mbConvert, if_neg hc.2.1, if_neg hc.2.1]
      cases hread : charset.mbrtowc c st with
      | mk kind st' =>
        cases kind with
        | invalid => rfl
        | incomplete =>
          dsimp only
          rw [show d :: x = [] ++ d :: x from rfl, ih _ _ (.inr (htail st' hread)), mbConvert]
        | char wc => rfl
    | cons e s =>
      rw [cons_append, cons_append, mbConvert, mbConvert, if_neg hc.2.1, if_neg hc.2.1,
        ← cons_append]
      cases charset.mbrtowc c st with
      | mk kind st' =>
        cases kind with
        | invalid => rfl
        | incomplete =>
          dsimp only
          rw [ih _ _ (.inl (cons_ne_nil e s))]
        | char wc => rfl
  | @pair e s _ _ ih =>
    rw [cons_append, cons_append, mbConvert, mbConvert, if_pos rfl, if_pos rfl]
    cases hread : charset.mbrtowc (e ^^^ 32) st with
    | mk kind st' =>
      cases kind with
      | invalid => rfl
      | incomplete =>
        refine ih _ _ (.inr ?_)
        have hkind := charset.ascii_tail (e ^^^ 32) d st (by rw [hread]) hd
        rwa [hread] at hkind
      | char wc => rfl

theorem charLen_append_ascii (env : TextEnv) {c : UInt8} {s : Bytes} (h : MetaText (c :: s))
    {d : UInt8} (hd : d < 0x80) (x : Bytes) :
    env.charLen ((c :: s) ++ d :: x) = env.charLen (c :: s) := by
  have hconvert := mbConvert_append_ascii h hd x 0 env.charset.initial
    (.inl (cons_ne_nil c s))
  rw [cons_append] at hconvert ⊢
  simp only [TextEnv.charLen, mbMetacharlenconv, mbMetacharlenconvR, hconvert]
  split
  · split
    · next hmeta =>
      subst hmeta
      cases h with
      | byte hc _ => exact absurd rfl hc.2.1
      | pair _ _ => rfl
    · rfl
  · rfl

/-- In front of a separator that starts with seven bits every element ends whole. -/
theorem endsWhole_of_ascii (env : TextEnv) {e : Bytes} (he : MetaText e) {d : UInt8}
    (hd : d < 0x80) {sep : Bytes} (hsep : MetaText (d :: sep)) : EndsWhole env (d :: sep) e := by
  intro tail htail
  have hbehind : MetaText (d :: (sep ++ tail)) := hsep.append htail
  have hcut := cut_metaText env hbehind
  have happend {s : Bytes} {chs : List Bytes} (hs : MetaText s) (h : env.Cut s chs) :
      env.Cut (s ++ d :: (sep ++ tail)) (chs ++ env.characters (d :: (sep ++ tail))) := by
    induction h with
    | nil => exact hcut
    | @cons ch rest chs hne hlen _ ih =>
      obtain ⟨c, ch, rfl⟩ := exists_cons_of_ne_nil hne
      have hlen' := charLen_append_ascii env hs hd (sep ++ tail)
      obtain ⟨len, hchar, -, -, hrest⟩ := charLen_metaText env hs
      obtain rfl : len = (c :: ch).length := Option.some.inj (hchar.symm.trans hlen)
      change MetaText ((c :: ch ++ rest).drop (c :: ch).length) at hrest
      change env.charLen (c :: ch ++ rest ++ d :: (sep ++ tail)) = env.charLen (c :: ch ++ rest)
        at hlen'
      rw [drop_left] at hrest
      rw [hlen, append_assoc] at hlen'
      rw [append_assoc]
      exact .cons hne hlen' (ih hrest)
  have hwhole := happend he (cut_metaText env he)
  rw [cons_append, TextEnv.characters, hwhole.eq_charactersFrom le_rfl]

/-- `sepsplit` stores as many elements as `wordcount` counts, and joined they are the string, unless
it is the token for an empty string, which is taken for one; and it gives back an array whose
elements can be told apart. -/
theorem sepsplit_sepjoin (env : TextEnv) {sep : Bytes} (hsep : MetaText sep) (allownull : Bool) :
    (∀ s, MetaText s → s ≠ [nulargToken] →
      ∃ r, env.sepsplit s sep allownull = some r ∧ env.wordcount s sep 1 = some r.length ∧
        sepjoin sep r = s) ∧
    env.sepsplit [nulargToken] sep allownull = some [[]] ∧
    ∀ a, a ≠ [] → Separable env sep a → sepjoin sep a ≠ [nulargToken] →
      env.sepsplit (sepjoin sep a) sep allownull = some a := by
  refine ⟨fun s h hs ↦ ?_, ?_, fun a ha h hjoin ↦ ?_⟩
  · obtain ⟨r, hr⟩ := @exists_pieces env _ hsep _ h
    exact ⟨r, hr.sepsplit hs allownull, hr.wordcount, hr.sepjoin_eq⟩
  · have hempty : Pieces env sep [] [[]] := by
      refine .last (.inl ?_)
      rw [TextEnv.findsep]
      split <;> rfl
    exact hempty.sepsplit (cons_ne_nil _ _).symm allownull
  · exact (h.pieces hsep ha).sepsplit hjoin allownull

/-- Empty elements in the middle and at the end. -/
theorem sepsplit_sepjoin_example :
    TextEnv.portable.sepsplit (sepjoin (ascii ",") [ascii "a", [], ascii "b", []]) (ascii ",")
        false = some [ascii "a", [], ascii "b", []] := by
  have hsep : MetaText (ascii ",") := .byte (by decide) .nil
  have htext : ∀ e ∈ [ascii "a", [], ascii "b", []], MetaText e := by
    intro e he
    simp only [mem_cons, not_mem_nil, or_false] at he
    obtain rfl | rfl | rfl | rfl := he
    · exact .byte (by decide) .nil
    · exact .nil
    · exact .byte (by decide) .nil
    · exact .nil
  have hshort : ∀ e ∈ [ascii "a", [], ascii "b", []].dropLast, e.length ≤ 1 := by decide
  have hapart : ∀ e ∈ [ascii "a", [], ascii "b", []].dropLast, e ≠ [] →
      ¬ ascii "," <+: e ++ ascii "," := by decide
  refine (sepsplit_sepjoin TextEnv.portable hsep false).2.2 _ (cons_ne_nil _ _) ?_ (by decide)
  refine ⟨htext, by decide, fun e he x hx hsuffix ↦ ?_, fun e he ↦ ?_⟩
  · have hpos := List.length_pos_iff.mpr hx
    have hlen := hshort e he
    obtain rfl : x = e := hsuffix.eq_of_length_le (by omega)
    exact hapart x he hx
  · exact endsWhole_of_ascii _ (htext e (dropLast_subset _ he)) (by decide) hsep

/-! ## Two exceptions -/

/-- One byte of UTF-8 up to two bytes; the state is the first byte of a character. -/
def readTwoBytes (c : UInt8) : Option (Fin 30) → MbResult × Option (Fin 30)
  | none =>
    if c.toNat < 0x80 then (.char c.toNat, none)
    else if h : 0xC2 ≤ c.toNat ∧ c.toNat < 0xE0 then (.incomplete, some ⟨c.toNat - 0xC2, by omega⟩)
    else (.invalid, none)
  | some lead =>
    if 0x80 ≤ c.toNat ∧ c.toNat < 0xC0 then (.char ((lead + 2) * 64 + (c.toNat - 0x80)), none)
    else (.invalid, none)

def Charset.twoBytes : Charset where
  State := Option (Fin 30)
  initial := none
  mbrtowc := readTwoBytes
  ascii_char c st wc hc h := by
    have hlow : c.toNat < 0x80 := UInt8.lt_iff_toNat_lt.mp hc
    cases st <;> grind [readTwoBytes]
  ascii_complete c st hc := by
    have hlow : c.toNat < 0x80 := UInt8.lt_iff_toNat_lt.mp hc
    cases st <;> grind [readTwoBytes]
  other_char c st wc hc h := by
    have hhigh : 0x80 ≤ c.toNat := UInt8.le_iff_toNat_le.mp hc
    cases st <;> grind [readTwoBytes]
  ascii_tail c d st h hd := by
    have hlow : d.toNat < 0x80 := UInt8.lt_iff_toNat_lt.mp hd
    cases st <;> grind [readTwoBytes]

def TextEnv.twoBytes : TextEnv where
  charset := Charset.twoBytes
  multibyte := true
  singleByte := false
  stateless c st wc st' h := by
    change readTwoBytes c st = _ at h
    change st' = none
    cases st <;> grind [readTwoBytes]
  single_complete h := nomatch h

/-- The token for an empty string is lost, and an element that ends with the first byte of a
character joins the separator, although it contains nothing of it. -/
theorem sepsplit_exceptions :
    (∃ r, TextEnv.twoBytes.sepsplit [nulargToken] (ascii ",") false = some r ∧
      sepjoin (ascii ",") r ≠ [nulargToken]) ∧
    ¬ ([0xA9] : Bytes) <:+: [0xC3] ∧
    TextEnv.twoBytes.sepsplit (sepjoin [0xA9] [[0xC3], [0x78]]) [0xA9] false =
      some [[0xC3, 0xA9, 0x78]] := by
  refine ⟨⟨[[]], ?_, ?_⟩, ?_, ?_⟩ <;> decide

end Joining

end Bsh.Shell
