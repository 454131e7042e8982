import Mathlib.Data.List.TakeWhile
import Bsh.Shell.BraceDoc

/-!
# The scan for braces

What `hasbraces` does with a word, one brace after the other: it goes back to the first comma or brace
inside of braces that it has made literal, which amounts to going on right behind the opening one.
-/

namespace Bsh.Shell

open Bsh.Library List

/-! ## Runs of the loop -/

def Scans (env : BraceEnv) (s : BraceScan) (r : Bool × Bytes) : Prop :=
  ∃ enough, ∀ turns ≥ enough, hasbracesFrom env turns s = some r

variable {a b scanned text : Bytes} {base : ℕ} {c : UInt8} {comma mbr : Option ℕ} {env : BraceEnv}
  {r : Bool × Bytes} {s : BraceScan} (passed : Bytes)

theorem scans_done {found : Bool} {mem : Bytes}
    (h : s.turn env = some (.done found mem)) : Scans env s (found, mem) := by
  refine ⟨1, fun turns hturns ↦ ?_⟩
  obtain ⟨turns, rfl⟩ : ∃ n, turns = n + 1 := ⟨turns - 1, by omega⟩
  rw [hasbracesFrom, h]

theorem scans_next_iff {s' : BraceScan}
    (h : s.turn env = some (.next s')) : Scans env s r ↔ Scans env s' r := by
  constructor
  · rintro ⟨enough, hs⟩
    refine ⟨enough, fun turns hturns ↦ ?_⟩
    have hsucc := hs (turns + 1) (by omega)
    rwa [hasbracesFrom, h] at hsucc
  · rintro ⟨enough, hs⟩
    refine ⟨enough + 1, fun turns hturns ↦ ?_⟩
    obtain ⟨turns, rfl⟩ : ∃ n, turns = n + 1 := ⟨turns - 1, by omega⟩
    rw [hasbracesFrom, h]
    exact hs turns (by omega)

theorem Scans.unique {r' : Bool × Bytes} (h : Scans env s r)
    (h' : Scans env s r') : r = r' := by
  obtain ⟨enough, h⟩ := h
  obtain ⟨enough', h'⟩ := h'
  have hr := h (enough + enough') (by omega)
  rw [h' (enough + enough') (by omega)] at hr
  exact (Option.some.inj hr).symm

/-- The scan outside of braces, with what has been passed and what follows. -/
def outsideScan (passed rest : Bytes) : BraceScan := ⟨passed ++ rest, passed.length, none, none, none⟩

/-- The scan behind an opening brace. -/
def insideScan (passed scanned rest : Bytes) (mbr comma : Option ℕ) : BraceScan :=
  ⟨passed ++ inbraceToken :: (scanned ++ rest), passed.length + 1 + scanned.length,
    some passed.length, mbr, comma⟩

theorem byteAt_append (a : Bytes) (c : UInt8) (rest : Bytes) :
    byteAt (a ++ c :: rest) a.length = some c := by
  unfold byteAt
  rw [if_neg (by simp), List.getElem?_append_right le_rfl, Nat.sub_self]
  rfl

theorem byteAt_end (mem : Bytes) : byteAt mem mem.length = some 0 := if_pos rfl

theorem set_append (a : Bytes) (c d : UInt8) (rest : Bytes) :
    (a ++ c :: rest).set a.length d = a ++ d :: rest := by
  rw [set_append_right _ _ le_rfl, Nat.sub_self]
  rfl

theorem byteAt_inside (scanned rest : Bytes) (b c : UInt8) :
    byteAt (passed ++ b :: (scanned ++ c :: rest)) (passed.length + 1 + scanned.length) = some c := by
  have h := byteAt_append (passed ++ b :: scanned) c rest
  rw [length_append, length_cons, append_assoc, cons_append] at h
  rwa [Nat.add_assoc, Nat.add_comm 1]

theorem set_brace (scanned rest : Bytes) (b c d e : UInt8) :
    ((passed ++ b :: (scanned ++ c :: rest)).set passed.length d).set
        (passed.length + 1 + scanned.length) e =
      passed ++ d :: (scanned ++ e :: rest) := by
  have h := set_append (passed ++ d :: scanned) c e rest
  rw [length_append, length_cons, append_assoc, cons_append, append_assoc,
    cons_append] at h
  rwa [set_append, Nat.add_assoc, Nat.add_comm 1]

theorem drop_append_succ (a : Bytes) (c : UInt8) (rest : Bytes) :
    (a ++ c :: rest).drop (a.length + 1) = rest := by
  rw [← drop_drop, drop_left]
  rfl

theorem bracePlain_of_ne (hopening : c ≠ inbraceToken) (hclosing : c ≠ outbraceToken)
    (hcomma : c ≠ commaToken) : bracePlain c = c := by
  unfold bracePlain
  rw [if_neg hopening, if_neg hclosing, if_neg hcomma]

/-! ## Outside of braces -/

theorem turn_outside (env : BraceEnv) (passed : Bytes) (hc : c ≠ inbraceToken)
    (rest : Bytes) :
    (outsideScan passed (c :: rest)).turn env =
      some (.next (outsideScan (passed ++ [bracePlain c]) rest)) := by
  have hne : passed.length ≠ (passed ++ c :: rest).length := by simp
  unfold BraceScan.turn outsideScan
  rw [byteAt_append]
  dsimp only
  rw [if_neg hc]
  by_cases hclosing : c = outbraceToken
  · subst hclosing
    simp [bracePlain, hc]
  · rw [if_neg hclosing]
    by_cases hcomma : c = commaToken
    · subst hcomma
      simp [bracePlain, hc, hclosing]
    · rw [if_neg hcomma, if_neg hne, bracePlain_of_ne hc hclosing hcomma]
      simp

theorem scans_append_iff {passed rest : Bytes}
    (ha : inbraceToken ∉ a) :
    Scans env (outsideScan passed (a ++ rest)) r ↔
      Scans env (outsideScan (passed ++ literal a) rest) r := by
  induction a generalizing passed with
  | nil =>
    have hnil : passed ++ literal [] = passed := append_nil passed
    rw [hnil, nil_append]
  | cons c a ih =>
    rw [mem_cons, not_or] at ha
    have happend : passed ++ literal (c :: a) = (passed ++ [bracePlain c]) ++ literal a := by
      rw [append_assoc]
      rfl
    rw [cons_append, scans_next_iff (turn_outside env passed (Ne.symm ha.1) (a ++ rest)),
      ih ha.2, happend]

theorem scans_end (env : BraceEnv) (passed : Bytes) :
    Scans env (outsideScan passed []) (false, passed) := by
  refine scans_done ?_
  unfold BraceScan.turn outsideScan
  have hlength : passed.length = (passed ++ []).length := by rw [append_nil]
  rw [hlength, byteAt_end]
  dsimp only
  rw [if_neg (by decide), if_neg (by decide), if_neg (by decide), if_pos rfl, append_nil]
  rfl

theorem scans_plain (env : BraceEnv) (passed : Bytes) (ha : inbraceToken ∉ a) :
    Scans env (outsideScan passed a) (false, passed ++ literal a) := by
  have h : Scans env (outsideScan passed (a ++ [])) (false, passed ++ literal a) :=
    (scans_append_iff ha).mpr (scans_end env _)
  rwa [append_nil] at h

/-! ## Inside of braces -/

/-- Text without any tokens of brace expansion. -/
def Unbraced (text : Bytes) : Prop :=
  ∀ c ∈ text, c ≠ inbraceToken ∧ c ≠ outbraceToken ∧ c ≠ commaToken

theorem Unbraced.append (ha : Unbraced a) (hb : Unbraced b) : Unbraced (a ++ b) := by
  rintro c hc
  rcases List.mem_append.mp hc with hc | hc
  · exact ha c hc
  · exact hb c hc

theorem Unbraced.not_mem (h : Unbraced a) : inbraceToken ∉ a :=
  fun hmem ↦ (h _ hmem).1 rfl

theorem Unbraced.literal_eq (h : Unbraced a) : literal a = a := by
  refine (map_congr_left fun c hc ↦ ?_).trans (map_id a)
  obtain ⟨hopening, hclosing, hcomma⟩ := h c hc
  exact bracePlain_of_ne hopening hclosing hcomma

theorem Unbraced.to_balanced (h : Unbraced a) : braces.Balanced a := by
  induction a with
  | nil => exact .nil
  | cons c a ih =>
    obtain ⟨hopening, hclosing, -⟩ := h c mem_cons_self
    exact .plain hopening hclosing (ih fun d hd ↦ h d (mem_cons_of_mem c hd))

/-- The marks for what has been scanned behind the opening brace at `base - 1`: nothing so far, or
the first of a comma and a brace is marked. -/
inductive Marks (base : ℕ) : Bytes → Option ℕ → Option ℕ → Prop where
  | unmarked {scanned : Bytes} (h : Unbraced scanned) : Marks base scanned none none
  | comma {a b : Bytes} {mbr : Option ℕ} (h : Unbraced a)
    (hmbr : ∀ m, mbr = some m → base + a.length < m) :
    Marks base (a ++ commaToken :: b) mbr (some (base + a.length))
  | brace {a b : Bytes} {comma : Option ℕ} (h : Unbraced a)
    (hcomma : ∀ k, comma = some k → base + a.length < k) :
    Marks base (a ++ inbraceToken :: b) (some (base + a.length)) comma

theorem Marks.add_comma
    (h : Marks base scanned mbr comma) :
    Marks base (scanned ++ [commaToken]) mbr (comma.or (some (base + scanned.length))) := by
  cases h with
  | unmarked h => exact .comma h (by rintro m ⟨⟩)
  | comma h hmbr =>
    rw [append_assoc, cons_append]
    exact .comma h hmbr
  | @brace a b comma h hcomma =>
    rw [append_assoc, cons_append]
    refine .brace h ?_
    rintro k hk
    cases comma with
    | none =>
      cases hk
      rw [length_append, length_cons]
      omega
    | some k' => exact hcomma k hk

theorem Marks.add_brace
    (h : Marks base scanned mbr comma) (text : Bytes) :
    Marks base (scanned ++ inbraceToken :: text) (mbr.or (some (base + scanned.length))) comma := by
  cases h with
  | unmarked h => exact .brace h (by rintro k ⟨⟩)
  | @comma a b mbr h hmbr =>
    rw [append_assoc, cons_append]
    refine .comma h ?_
    rintro m hm
    cases mbr with
    | none =>
      cases hm
      rw [length_append, length_cons]
      omega
    | some m' => exact hmbr m hm
  | brace h hcomma =>
    rw [append_assoc, cons_append]
    exact .brace h hcomma

theorem Marks.add_plain
    (h : Marks base scanned mbr comma) (hc : Unbraced [c]) :
    Marks base (scanned ++ [c]) mbr comma := by
  cases h with
  | unmarked h => exact .unmarked (h.append hc)
  | comma h hmbr =>
    rw [append_assoc, cons_append]
    exact .comma h hmbr
  | brace h hcomma =>
    rw [append_assoc, cons_append]
    exact .brace h hcomma

theorem Marks.rewind_eq
    (h : Marks base scanned mbr comma) {str : ℕ} (hstr : base + scanned.length ≤ str) :
    (mbr = none ∧ comma = none ∧ Unbraced scanned) ∨
      (mbr.isNone && comma.isNone) = false ∧
        ∃ a b, scanned = a ++ b ∧ Unbraced a ∧ rewind str mbr comma = base + a.length := by
  cases h with
  | unmarked h => exact Or.inl ⟨rfl, rfl, h⟩
  | @comma a b mbr h hmbr =>
    refine Or.inr ⟨by simp, a, _, rfl, h, ?_⟩
    cases mbr with
    | none => rfl
    | some m => exact if_neg (not_lt.mpr (hmbr m rfl).le)
  | @brace a b comma h hcomma =>
    refine Or.inr ⟨by simp, a, _, rfl, h, ?_⟩
    rw [length_append, length_cons] at hstr
    cases comma with
    | none => exact if_pos (by change base + a.length < str; omega)
    | some k => exact if_pos (hcomma k rfl)

theorem Marks.unmarked_eq
    (h : Marks base scanned mbr comma) (hunbraced : Unbraced scanned) :
    mbr = none ∧ comma = none := by
  cases h with
  | unmarked _ => exact ⟨rfl, rfl⟩
  | comma _ _ => exact absurd rfl (hunbraced commaToken (by simp)).2.2
  | brace _ _ => exact absurd rfl (hunbraced inbraceToken (by simp)).1

/-- The scan inside of braces, with the text it has passed in one piece. -/
theorem insideScan_eq (scanned rest : Bytes) (mbr comma : Option ℕ) :
    insideScan passed scanned rest mbr comma =
      ⟨(passed ++ inbraceToken :: scanned) ++ rest, (passed ++ inbraceToken :: scanned).length,
        some passed.length, mbr, comma⟩ := by
  have hlength : (passed ++ inbraceToken :: scanned).length =
      passed.length + 1 + scanned.length := by
    rw [length_append, length_cons]
    omega
  rw [hlength, append_assoc]
  rfl

theorem turn_inside_plain (env : BraceEnv) (passed scanned rest : Bytes) (mbr comma : Option ℕ) (hc : Unbraced [c]) :
    (insideScan passed scanned (c :: rest) mbr comma).turn env =
      some (.next (insideScan passed (scanned ++ [c]) rest mbr comma)) := by
  obtain ⟨hopening, hclosing, hcomma⟩ := hc c mem_cons_self
  rw [insideScan_eq, insideScan_eq]
  unfold BraceScan.turn
  rw [byteAt_append]
  dsimp only
  rw [if_neg hopening, if_neg hclosing, if_neg hcomma, if_neg (by simp)]
  simp
  omega

theorem turn_inside_comma (env : BraceEnv) (passed scanned rest : Bytes) (mbr comma : Option ℕ) :
    (insideScan passed scanned (commaToken :: rest) mbr comma).turn env =
      some (.next (insideScan passed (scanned ++ [commaToken]) rest mbr
        (comma.or (some (passed.length + 1 + scanned.length))))) := by
  rw [insideScan_eq, insideScan_eq]
  unfold BraceScan.turn
  rw [byteAt_append]
  dsimp only
  rw [if_neg (by decide), if_neg (by decide), if_pos rfl]
  have hlength : (passed ++ inbraceToken :: scanned).length =
      passed.length + 1 + scanned.length := by
    rw [length_append, length_cons]
    omega
  simp [hlength]
  omega

/-- Further braces are skipped as a whole. -/
theorem turn_inside_group (env : BraceEnv) (passed scanned rest : Bytes) (mbr comma : Option ℕ)
    {group : Bytes} (hgroup : braces.Balanced group) :
    (insideScan passed scanned (inbraceToken :: (group ++ outbraceToken :: rest)) mbr comma).turn
        env =
      some (.next (insideScan passed (scanned ++ inbraceToken :: (group ++ [outbraceToken])) rest
        (mbr.or (some (passed.length + 1 + scanned.length))) comma)) := by
  have hclose : braces.close 0 (group ++ outbraceToken :: rest) = some (group, rest) :=
    braces.close_closed hgroup rest
  rw [insideScan_eq, insideScan_eq]
  unfold BraceScan.turn skipparens
  rw [byteAt_append, drop_append_succ, hclose]
  dsimp only
  rw [if_pos rfl, if_pos rfl]
  have hlength : (passed ++ inbraceToken :: scanned).length =
      passed.length + 1 + scanned.length := by
    rw [length_append, length_cons]
    omega
  simp only [hlength, Option.some.injEq, BraceTurn.next.injEq, BraceScan.mk.injEq, and_true,
    length_append, length_cons, length_nil]
  constructor
  · simp
  · omega

/-- Balanced text is passed, with its commas and braces marked. -/
theorem inside_balanced (env : BraceEnv) (passed : Bytes) (hb : braces.Balanced b) (hmarks : Marks (passed.length + 1) scanned mbr comma) :
    ∃ mbr' comma', Marks (passed.length + 1) (scanned ++ b) mbr' comma' ∧
      comma'.isSome = (comma.isSome || hasComma b) ∧
        ∀ rest r, Scans env (insideScan passed (scanned ++ b) rest mbr' comma') r →
          Scans env (insideScan passed scanned (b ++ rest) mbr comma) r := by
  have hopening : braces.opening = inbraceToken := rfl
  have hclosing : braces.closing = outbraceToken := rfl
  induction hb generalizing scanned mbr comma with
  | nil =>
    rw [append_nil]
    exact ⟨mbr, comma, hmarks, by simp [hasComma, commaParts], fun rest r h ↦ h⟩
  | @plain c b hopen hclose hb ih =>
    by_cases hcomma : c = commaToken
    · subst hcomma
      obtain ⟨mbr', comma', hmarks', hsome, hscans⟩ := ih hmarks.add_comma
      refine ⟨mbr', comma', by simpa using hmarks', ?_, fun rest r h ↦ ?_⟩
      · rw [hsome, hasComma_comma]
        simp
      · refine (scans_next_iff (turn_inside_comma env passed scanned (b ++ rest) mbr comma)).mpr ?_
        refine hscans rest r ?_
        simpa using h
    · have hplain : Unbraced [c] := by
        rintro d hd
        rw [List.mem_singleton.mp hd]
        exact ⟨hopen, hclose, hcomma⟩
      obtain ⟨mbr', comma', hmarks', hsome, hscans⟩ := ih (hmarks.add_plain hplain)
      refine ⟨mbr', comma', by simpa using hmarks', ?_, fun rest r h ↦ ?_⟩
      · rw [hsome, hasComma_plain hopen hclose hcomma]
      · refine (scans_next_iff (turn_inside_plain env passed scanned (b ++ rest) mbr comma hplain)).mpr ?_
        refine hscans rest r ?_
        simpa using h
  | @group group b hgroup hb _ ih =>
    obtain ⟨mbr', comma', hmarks', hsome, hscans⟩ :=
      ih (hmarks.add_brace (group ++ [outbraceToken]))
    rw [hopening, hclosing]
    refine ⟨mbr', comma', by simpa using hmarks', ?_, fun rest r h ↦ ?_⟩
    · rw [hsome, hasComma_group hgroup]
    · have hturn := turn_inside_group env passed scanned (b ++ rest) mbr comma hgroup
      rw [cons_append, append_assoc, cons_append]
      refine (scans_next_iff hturn).mpr (hscans rest r ?_)
      simpa using h

/-! ## Opening braces -/

set_option maxRecDepth 4000 in
theorem unbraced_digit : ∀ c, idigit c = true →
    c ≠ inbraceToken ∧ c ≠ outbraceToken ∧ c ≠ commaToken :=
  Bytes.forall_byte (by decide)

set_option maxRecDepth 4000 in
theorem unbraced_dash : ∀ c, isDash c = true →
    c ≠ inbraceToken ∧ c ≠ outbraceToken ∧ c ≠ commaToken :=
  Bytes.forall_byte (by decide)

theorem unbraced_dots : Unbraced [char '.', char '.'] := by
  rintro c hc
  rw [mem_pair, or_self] at hc
  rw [hc]
  decide

/-- What a part of the test for a range of numbers has read: no tokens of brace expansion. -/
def Skips (text rest : Bytes) : Prop := ∃ scanned, text = scanned ++ rest ∧ Unbraced scanned

theorem Skips.trans {c : Bytes} (hab : Skips a b) (hbc : Skips b c) : Skips a c := by
  obtain ⟨scanned, rfl, hscanned⟩ := hab
  obtain ⟨scanned', rfl, hscanned'⟩ := hbc
  exact ⟨scanned ++ scanned', (append_assoc _ _ _).symm, hscanned.append hscanned'⟩

theorem skips_skipNumber (text : Bytes) : Skips text (skipNumber text) := by
  have hdigits (digits : Bytes) : Skips digits (digits.dropWhile idigit) := by
    refine ⟨digits.takeWhile idigit, List.takeWhile_append_dropWhile.symm, fun c hc ↦ ?_⟩
    exact unbraced_digit c (mem_takeWhile_imp hc)
  unfold skipNumber
  split
  · next hdash =>
    cases text with
    | nil => cases hdash
    | cons c text =>
      obtain ⟨scanned, htext, hscanned⟩ := hdigits text
      refine ⟨c :: scanned, congrArg (c :: ·) htext, fun d hd ↦ ?_⟩
      rcases List.mem_cons.mp hd with rfl | hd
      · exact unbraced_dash _ hdash
      · exact hscanned d hd
  · exact hdigits text

theorem afterDots_eq_some {rest : Bytes} (h : afterDots text = some rest) :
    text = char '.' :: char '.' :: rest := by
  unfold afterDots at h
  split at h
  · next c d rest' =>
    split at h
    · next hdots =>
      obtain ⟨rfl, rfl⟩ := hdots
      cases h
      rfl
    · cases h
  · cases h

theorem skips_afterDots {rest : Bytes} (h : afterDots text = some rest) : Skips text rest :=
  ⟨_, afterDots_eq_some h, unbraced_dots⟩

theorem skips_braceNumbers (text : Bytes) : Skips text (braceNumbers text).2 := by
  have hfirst := skips_skipNumber text
  unfold braceNumbers
  dsimp only
  split
  · exact hfirst
  · next text2 hdots =>
    have hsecond := (hfirst.trans (skips_afterDots hdots)).trans (skips_skipNumber text2)
    split
    · exact hsecond
    · split
      · exact hsecond
      · next text3 hdots3 =>
        exact (hsecond.trans (skips_afterDots hdots3)).trans (skips_skipNumber text3)

/-- Whether `hasbraces` takes an opening brace for that of a range; there is no result where it reads
behind the end of the word. -/
def takesRange (env : BraceEnv) (text : Bytes) : Option Bool :=
  (bracechardots env text).map fun chars ↦ chars.isSome || (braceNumbers text).1

theorem scans_range (h : takesRange env text = some true)
    (passed : Bytes) :
    Scans env (outsideScan passed (inbraceToken :: text)) (true, passed ++ inbraceToken :: text) := by
  refine scans_done ?_
  unfold takesRange at h
  unfold BraceScan.turn outsideScan
  rw [byteAt_append, drop_append_succ]
  dsimp only
  rw [if_pos rfl]
  cases hchars : bracechardots env text with
  | none =>
    rw [hchars] at h
    cases h
  | some chars =>
    cases chars with
    | some chars => rfl
    | none =>
      rw [hchars] at h
      have hnumbers : (braceNumbers text).1 = true := by simpa using h
      rw [if_pos hnumbers]

/-- An opening brace of no range is left behind, with the numbers that have been read. -/
theorem turn_open (h : takesRange env text = some false)
    (passed : Bytes) :
    ∃ scanned rest, text = scanned ++ rest ∧ Unbraced scanned ∧
      (outsideScan passed (inbraceToken :: text)).turn env =
        some (.next (insideScan passed scanned rest none none)) := by
  obtain ⟨scanned, htext, hscanned⟩ := skips_braceNumbers text
  refine ⟨scanned, (braceNumbers text).2, htext, hscanned, ?_⟩
  unfold takesRange at h
  unfold BraceScan.turn outsideScan
  rw [byteAt_append, drop_append_succ]
  dsimp only
  rw [if_pos rfl]
  cases hchars : bracechardots env text with
  | none =>
    rw [hchars] at h
    cases h
  | some chars =>
    rw [hchars] at h
    cases chars with
    | some chars => cases h
    | none =>
      have hnumbers : (braceNumbers text).1 = false := by simpa using h
      have hlength := congrArg List.length htext
      rw [length_append] at hlength
      rw [if_neg (by rw [hnumbers]; exact Bool.false_ne_true)]
      unfold insideScan
      rw [← htext]
      simp
      omega

theorem Unbraced.balanced (ha : Unbraced a) (h : braces.Balanced (a ++ b)) :
    braces.Balanced b := by
  induction a with
  | nil => exact h
  | cons c a ih =>
    have hc := ha c mem_cons_self
    refine ih (fun d hd ↦ ha d (mem_cons_of_mem c hd)) ?_
    generalize htext : c :: a ++ b = text at h
    cases h with
    | nil => cases htext
    | plain _ _ h =>
      cases htext
      exact h
    | group _ _ => exact absurd (List.cons.inj htext).1 hc.1

theorem Unbraced.hasComma_append (ha : Unbraced a) (b : Bytes) :
    hasComma (a ++ b) = hasComma b := by
  induction a with
  | nil => rfl
  | cons c a ih =>
    obtain ⟨hopening, hclosing, hcomma⟩ := ha c mem_cons_self
    rw [cons_append, hasComma_plain hopening hclosing hcomma,
      ih fun d hd ↦ ha d (mem_cons_of_mem c hd)]

theorem scans_open {rest : Bytes} (h : takesRange env (b ++ rest) = some false)
    (hb : braces.Balanced b)
    (hrest : ∀ c ∈ rest.head?, c = inbraceToken ∨ c = outbraceToken) (passed : Bytes) :
    ∃ mbr comma, Marks (passed.length + 1) b mbr comma ∧ comma.isSome = hasComma b ∧
      ∀ r, Scans env (insideScan passed b rest mbr comma) r →
        Scans env (outsideScan passed (inbraceToken :: (b ++ rest))) r := by
  obtain ⟨scanned, rest', htext, hscanned, hturn⟩ := turn_open h passed
  obtain ⟨b', rfl, rfl⟩ : ∃ b', b = scanned ++ b' ∧ rest' = b' ++ rest := by
    rcases List.append_eq_append_iff.mp htext with ⟨a, ha, hrest'⟩ | ⟨a, ha, hrest'⟩
    · cases a with
      | nil =>
        rw [append_nil] at ha
        exact ⟨[], by rw [ha, append_nil], hrest'.symm⟩
      | cons c a =>
        have hc := hscanned c (by rw [ha]; exact mem_append_right b mem_cons_self)
        rcases hrest c (by rw [hrest']; rfl) with rfl | rfl
        · exact absurd rfl hc.1
        · exact absurd rfl hc.2.1
    · exact ⟨a, ha, hrest'⟩
  obtain ⟨mbr, comma, hmarks, hsome, hscans⟩ :=
    inside_balanced env passed (hscanned.balanced hb) (.unmarked hscanned)
  refine ⟨mbr, comma, hmarks, ?_, fun r hr ↦ ?_⟩
  · rw [hsome, hscanned.hasComma_append]
    rfl
  · exact (scans_next_iff hturn).mpr (hscans rest r hr)

/-- Where the scan goes on behind an opening brace that it has made literal. -/
theorem scans_rewound {passed : Bytes} (ha : Unbraced a)
    (h : Scans env (outsideScan (passed ++ [char '\x7b']) (a ++ b)) r) :
    Scans env ⟨passed ++ char '\x7b' :: (a ++ b), passed.length + 1 + a.length, none, none, none⟩
      r := by
  rw [scans_append_iff ha.not_mem, ha.literal_eq] at h
  have hlength : (passed ++ [char '\x7b'] ++ a).length = passed.length + 1 + a.length := by
    rw [length_append, length_append, length_singleton]
  unfold outsideScan at h
  rw [hlength] at h
  simpa using h

theorem scans_commas {inside back : Bytes}
    (h : takesRange env (inside ++ outbraceToken :: back) = some false)
    (hinside : braces.Balanced inside) (hcomma : hasComma inside = true) (passed : Bytes) :
    Scans env (outsideScan passed (inbraceToken :: (inside ++ outbraceToken :: back)))
      (true, passed ++ inbraceToken :: (inside ++ outbraceToken :: back)) := by
  obtain ⟨mbr, comma, -, hsome, hscans⟩ :=
    scans_open h hinside (by rintro c ⟨⟩; exact Or.inr rfl) passed
  refine hscans _ (scans_done ?_)
  rw [insideScan_eq]
  unfold BraceScan.turn
  rw [byteAt_append]
  dsimp only
  rw [if_neg (by decide), if_pos rfl, if_pos (hsome.trans hcomma)]
  simp

/-- Braces without a comma are made literal. -/
theorem scans_literal {inside back : Bytes}
    (h : takesRange env (inside ++ outbraceToken :: back) = some false)
    (hinside : braces.Balanced inside) (hcomma : hasComma inside = false) {passed : Bytes}
    (hr : Scans env (outsideScan (passed ++ [char '\x7b']) (inside ++ char '\x7d' :: back)) r) :
    Scans env (outsideScan passed (inbraceToken :: (inside ++ outbraceToken :: back))) r := by
  obtain ⟨mbr, comma, hmarks, hsome, hscans⟩ :=
    scans_open h hinside (by rintro c ⟨⟩; exact Or.inr rfl) passed
  rw [hcomma] at hsome
  obtain rfl : comma = none := by simpa using hsome
  have hturn : (insideScan passed inside (outbraceToken :: back) mbr none).turn env =
      some (.next ⟨passed ++ char '\x7b' :: (inside ++ char '\x7d' :: back),
        mbr.getD (passed.length + 1 + inside.length + 1), none, none, none⟩) := by
    unfold BraceScan.turn insideScan
    rw [byteAt_inside]
    dsimp only
    rw [if_neg (by decide), if_pos rfl, if_neg (by decide), set_brace]
  refine hscans r ((scans_next_iff hturn).mpr ?_)
  cases hmarks with
  | unmarked hunbraced =>
    have hclosed : Unbraced [char '\x7d'] := by
      rintro c hc
      rw [List.mem_singleton.mp hc]
      decide
    have hback : Scans env
        (outsideScan (passed ++ [char '\x7b']) ((inside ++ [char '\x7d']) ++ back)) r := by
      simpa using hr
    have hrewound := scans_rewound (hunbraced.append hclosed) hback
    simpa [Nat.add_assoc] using hrewound
  | @brace a b _ ha _ =>
    rw [append_assoc] at hr ⊢
    exact scans_rewound ha hr

theorem turn_end (env : BraceEnv) (passed b : Bytes) (mbr comma : Option ℕ) :
    (insideScan passed b [] mbr comma).turn env =
      some (if mbr.isNone && comma.isNone then .done false (passed ++ char '\x7b' :: b)
        else .next ⟨passed ++ char '\x7b' :: b,
          rewind (passed.length + 1 + b.length + 1) mbr comma, none, none, none⟩) := by
  have hlength : passed.length + 1 + b.length = (passed ++ inbraceToken :: (b ++ [])).length := by
    simp
    omega
  have hset := set_append passed inbraceToken (char '\x7b') (b ++ [])
  unfold BraceScan.turn insideScan
  rw [hlength, byteAt_end]
  dsimp only
  rw [if_neg (by decide), if_neg (by decide), if_neg (by decide), if_pos rfl, hset,
    append_nil]
  split <;> rfl

theorem scans_last (h : takesRange env b = some false)
    (hb : braces.Balanced b) {passed : Bytes}
    (hr : Scans env (outsideScan (passed ++ [char '\x7b']) b) r) :
    Scans env (outsideScan passed (inbraceToken :: b)) r := by
  rw [← append_nil b] at h
  obtain ⟨mbr, comma, hmarks, -, hscans⟩ := scans_open h hb (by rintro c ⟨⟩) passed
  rw [append_nil] at hscans
  refine hscans r ?_
  have hturn := turn_end env passed b mbr comma
  have hstr : passed.length + 1 + b.length ≤ passed.length + 1 + b.length + 1 := Nat.le_succ _
  rcases hmarks.rewind_eq hstr with ⟨rfl, rfl, hunbraced⟩ | ⟨hmarked, a, b', rfl, ha, hrewind⟩
  · have hplain := scans_plain env (passed ++ [char '\x7b']) hunbraced.not_mem
    rw [hunbraced.literal_eq] at hplain
    rw [hr.unique hplain]
    refine scans_done ?_
    rw [hturn]
    simp
  · rw [if_neg (by rw [hmarked]; exact Bool.false_ne_true), hrewind] at hturn
    exact (scans_next_iff hturn).mpr (scans_rewound ha hr)

/-- Behind a second opening brace that is never closed, both are made literal. -/
theorem turn_unclosed (env : BraceEnv) (passed b : Bytes) {rest : Bytes}
    (hrest : braces.close 0 rest = none) (mbr comma : Option ℕ) :
    (insideScan passed b (inbraceToken :: rest) mbr comma).turn env =
      some (.next ⟨passed ++ char '\x7b' :: (b ++ char '\x7b' :: rest),
        rewind (passed.length + 1 + b.length + 1 + rest.length) mbr comma, none, none, none⟩) := by
  have hdrop : (passed ++ inbraceToken :: (b ++ inbraceToken :: rest)).drop
      (passed.length + 1 + b.length + 1) = rest := by
    have h := drop_append_succ (passed ++ inbraceToken :: b) inbraceToken rest
    rw [length_append, length_cons, append_assoc, cons_append] at h
    rwa [Nat.add_assoc passed.length, Nat.add_comm 1]
  unfold BraceScan.turn insideScan skipparens
  rw [byteAt_inside, hdrop, hrest]
  dsimp only
  rw [if_pos rfl, if_neg Bool.false_ne_true, set_brace]
  have hlength : (passed ++ inbraceToken :: (b ++ inbraceToken :: rest)).length =
      passed.length + 1 + b.length + 1 + rest.length := by
    simp
    omega
  rw [hlength]

section Unclosed

variable {env : BraceEnv} {b rest : Bytes}
  (h : takesRange env (b ++ inbraceToken :: rest) = some false) (hb : braces.Balanced b)
  (hrest : braces.close 0 rest = none)
include h hb hrest

theorem scans_pair (hmarked : ¬ Unbraced b) {passed : Bytes} {r : Bool × Bytes}
    (hr : Scans env (outsideScan (passed ++ [char '\x7b']) (b ++ char '\x7b' :: rest)) r) :
    Scans env (outsideScan passed (inbraceToken :: (b ++ inbraceToken :: rest))) r := by
  obtain ⟨mbr, comma, hmarks, -, hscans⟩ :=
    scans_open h hb (by rintro c ⟨⟩; exact Or.inl rfl) passed
  refine hscans r ((scans_next_iff (turn_unclosed env passed b hrest mbr comma)).mpr ?_)
  have hstr : passed.length + 1 + b.length ≤
      passed.length + 1 + b.length + 1 + rest.length := by omega
  rcases hmarks.rewind_eq hstr with ⟨-, -, hunbraced⟩ | ⟨-, a, b', rfl, ha, hrewind⟩
  · exact absurd hunbraced hmarked
  · rw [hrewind]
    rw [append_assoc] at hr ⊢
    exact scans_rewound ha hr

/-- Without a comma or a brace between the two, the scan ends there. -/
theorem scans_lost (hunbraced : Unbraced b) (passed : Bytes) :
    Scans env (outsideScan passed (inbraceToken :: (b ++ inbraceToken :: rest)))
      (false, passed ++ char '\x7b' :: (b ++ char '\x7b' :: rest)) := by
  obtain ⟨mbr, comma, hmarks, -, hscans⟩ :=
    scans_open h hb (by rintro c ⟨⟩; exact Or.inl rfl) passed
  obtain ⟨rfl, rfl⟩ := hmarks.unmarked_eq hunbraced
  refine hscans _ ((scans_next_iff (turn_unclosed env passed b hrest none none)).mpr ?_)
  have hend := scans_end env (passed ++ char '\x7b' :: (b ++ char '\x7b' :: rest))
  have hlength : (passed ++ char '\x7b' :: (b ++ char '\x7b' :: rest)).length =
      passed.length + 1 + b.length + 1 + rest.length := by
    simp
    omega
  unfold outsideScan at hend
  rwa [append_nil, hlength] at hend

end Unclosed

end Bsh.Shell
