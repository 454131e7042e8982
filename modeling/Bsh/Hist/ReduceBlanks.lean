import Bsh.Hist.Subst
import Bsh.Library.InPlace

/-!
# Reducing blanks

While a line is read, `ihwbegin` and `ihwend` record where its words begin and end.  Before the line
goes into the history, `histreduceblanks` moves the words down in it, each with the first character
of what separates it from the next, and whatever is behind the last word if it is not blank.  The
positions are kept in integers of 16 bits.
-/

namespace Bsh.Hist

open Bsh.Library Bsh.Shell InPlace List

/-! ## Recording words -/

/-- A position as it is kept in `chwords`. -/
def short (n : ℤ) : ℤ := wrapped 16 n

/-- `chwords` up to `chwordpos`: where the words begin and end, and where one has begun. -/
structure Chwords where
  words : List (ℤ × ℤ)
  begun : Option ℤ

/-- `ihwbegin` for a word that begins at `pos`. -/
def ihwbegin (chwords : Chwords) (pos : ℤ) : Chwords :=
  { chwords with begun := some (short (max pos 0)) }

/-- `ihwend` for a line that is written up to `hptr`. -/
def ihwend (chwords : Chwords) (hptr : ℤ) : Chwords :=
  match chwords.begun with
  | none => chwords
  | some start =>
    if hptr > start then ⟨chwords.words ++ [(start, short hptr)], none⟩
    else { chwords with begun := none }

/-- The words of a line are read one behind the other. -/
def recordWords (words : List (ℕ × ℕ)) : Chwords :=
  words.foldl (fun chwords w ↦ ihwend (ihwbegin chwords w.1) w.2) ⟨[], none⟩

/-! ## The memory of the line -/

def lineChar (chline : Bytes) (p : ℤ) : Option UInt8 := if 0 ≤ p then chline[p.toNat]? else none

/-- The text up to the terminator; it is read to there. -/
def terminated : Bytes → Option Bytes
  | [] => none
  | c :: s => if c = 0 then some [] else (terminated s).map (c :: ·)

def textFrom (chline : Bytes) (p : ℤ) : Option Bytes :=
  if 0 ≤ p then terminated (chline.drop p.toNat) else none

/-- `memmove` of `n` characters; a negative number is one that is larger than all memory. -/
def memmove (chline : Bytes) (dst src n : ℤ) : Option Bytes :=
  if 0 ≤ dst ∧ 0 ≤ src ∧ 0 ≤ n ∧ dst + n ≤ chline.length ∧ src + n ≤ chline.length then
    some (overwrite chline dst.toNat ((chline.drop src.toNat).take n.toNat))
  else none

/-! ## Moving the words -/

def spacecount (ignorespace : Bool) (line : Bytes) : ℕ :=
  if ignorespace then (line.takeWhile (· = char ' ')).length else 0

/-- The first loop, behind a word that ends at `before`. -/
def reducedLen : ℤ → Option ℤ → List (ℤ × ℤ) → ℤ
  | len, _, [] => len
  | len, before, w :: words =>
    reducedLen (len + (w.2 - w.1) + if before.any (· < w.1) then 1 else 0) (some w.2) words

def needblank (stop : ℤ) : List (ℤ × ℤ) → ℤ
  | [] => 0
  | w :: _ => if w.1 > stop then 1 else 0

/-- The second loop: the line, the words where they are then, and `pos`. -/
def moveWords : Bytes → ℤ → List (ℤ × ℤ) → Option (Bytes × List (ℤ × ℤ) × ℤ)
  | chline, pos, [] => some (chline, [], pos)
  | chline, pos, w :: words =>
    let len := w.2 - w.1
    let size := len + needblank w.2 words
    (if pos ≠ w.1 then memmove chline pos w.1 size else some chline).bind fun chline ↦
      (moveWords chline (pos + size) words).map fun r ↦
        (r.1, (if pos ≠ w.1 then (short pos, short (short pos + len)) else w) :: r.2.1, r.2.2)

/-- What becomes of the text from `lastptr` on. -/
def endLine (chline : Bytes) (lastptr pos : ℤ) : Option Bytes :=
  (textFrom chline lastptr).bind fun tail ↦
    if tail.all inblank then
      if 0 ≤ pos ∧ pos < chline.length then some (chline.set pos.toNat 0) else none
    else if pos < lastptr then
      if 0 ≤ pos then copyDown 0 (chline.length + 1) chline pos.toNat lastptr.toNat else none
    else some chline

/-- The memory of the line and the words, or nothing when there is an access outside the line. -/
def histreduceblanks (ignorespace : Bool) (chline : Bytes) (chwords : List (ℤ × ℤ)) :
    Option (Bytes × List (ℤ × ℤ)) :=
  let spaces := spacecount ignorespace chline
  (lineChar chline (reducedLen spaces none chwords)).bind fun c ↦
    if c = 0 then some (chline, chwords)
    else (moveWords chline spaces chwords).bind fun r ↦
      (endLine r.1 ((chwords.getLast?.map Prod.snd).getD 0) r.2.2).map fun chline ↦ (chline, r.2.1)

/-! ## What is to come out -/

/-- The words of a line.  The lexer skips blanks before it begins a word. -/
structure LineWords (line : Bytes) where
  words : List (ℕ × ℕ)
  nonempty : ∀ w ∈ words, w.1 < w.2
  ordered : words.IsChain fun v w ↦ v.2 ≤ w.1
  inside : ∀ w ∈ words, w.2 ≤ line.length
  front : ∀ w ∈ words.head?, (line.takeWhile (· = char ' ')).length ≤ w.1

def between (line : Bytes) (w : ℕ × ℕ) : Bytes := (line.drop w.1).take (w.2 - w.1)

def lastEnd (words : List (ℕ × ℕ)) : ℕ := (words.getLast?.map Prod.snd).getD 0

/-- Between words that were separated there is one blank, and between adjacent ones none. -/
def Spaced (line' : Bytes) : List (ℕ × ℕ) → List (ℕ × ℕ) → Prop
  | v :: w :: words, v' :: w' :: words' =>
    (if v.2 < w.1 then w'.1 = v'.2 + 1 ∧ ∃ c ∈ line'[v'.2]?, inblank c = true
      else w'.1 = v'.2) ∧ Spaced line' (w :: words) (w' :: words')
  | _, _ => True

/-- A line with its words, and the same with fewer blanks. -/
structure Reduced (line : Bytes) (words : List (ℕ × ℕ)) (line' : Bytes) (words' : List (ℕ × ℕ)) :
    Prop where
  texts : List.Forall₂ (fun w w' ↦ w'.2 = w'.1 + (w.2 - w.1) ∧ between line' w' = between line w)
    words words'
  spaced : Spaced line' words words'
  comment : (line.drop (lastEnd words)).all inblank = false →
    line'.drop (lastEnd words') = line.drop (lastEnd words)
  trailing : (line.drop (lastEnd words)).all inblank = true →
    (line'.drop (lastEnd words')).all inblank = true

/-- Positions as numbers of the table. -/
def positions (words : List (ℕ × ℕ)) : List (ℤ × ℤ) := words.map fun w ↦ ((w.1 : ℤ), (w.2 : ℤ))

/-- The words are recorded where they are, and without an access outside the line its blanks are
reduced. -/
def ReduceRight (ignorespace : Bool) (line : HistText) (w : LineWords line.1) : Prop :=
  recordWords w.words = ⟨positions w.words, none⟩ ∧
    ∃ chline line' words',
      histreduceblanks ignorespace (line.1 ++ [0]) (recordWords w.words).words =
        some (chline, positions words') ∧
      textFrom chline 0 = some line' ∧ Reduced line.1 w.words line' words'

/-- Every position can be recorded, and what separates words begins with a blank. -/
def ReduceCondition (line : HistText) (w : LineWords line.1) : Prop :=
  (∀ v ∈ w.words, v.2 < 2 ^ 15) ∧
    w.words.IsChain fun v w ↦ v.2 < w.1 → ∃ c ∈ line.1[v.2]?, inblank c = true

end Bsh.Hist

/-!
# What `histreduceblanks` leaves

The words are recorded where they are as long as their positions fit.  Each is moved down together
with the first character of what follows it, so a line comes out as its leading blanks, the words
with at most one character between two of them, and what is behind the last word.
-/

namespace Bsh.Hist

open Bsh.Library Bsh.Shell InPlace List

variable {line : Bytes} {words : List (ℕ × ℕ)} {p : ℕ}

/-! ## Recording -/

theorem short_eq_iff (n : ℕ) : short n = n ↔ n < 2 ^ 15 := by
  have hrange : (n : ℤ).bmod (2 ^ 16) < 2 ^ 15 := by
    have h := @Int.bmod_lt (n : ℤ) (2 ^ 16) (by norm_num)
    exact h
  unfold short wrapped
  constructor
  · intro h
    rw [h] at hrange
    exact_mod_cast hrange
  · intro h
    apply Int.bmod_eq_of_le
    · exact le_trans (by norm_num) (Int.natCast_nonneg n)
    · omega

theorem short_le (n : ℕ) : short n ≤ n := by
  have h : (n : ℤ).bmod (2 ^ 16) ≤ (n : ℤ) % ((2 ^ 16 : ℕ) : ℤ) := by
    rw [Int.bmod_def]
    split
    · exact le_rfl
    · exact Int.sub_le_self _ (Int.natCast_nonneg _)
  exact h.trans (by exact_mod_cast Nat.mod_le n (2 ^ 16))

theorem record_word (chwords : Chwords) {w : ℕ × ℕ} (hw : w.1 < w.2) :
    ihwend (ihwbegin chwords w.1) w.2 = ⟨chwords.words ++ [(short w.1, short w.2)], none⟩ := by
  have hless : (w.2 : ℤ) > short w.1 := (short_le w.1).trans_lt (by exact_mod_cast hw)
  unfold ihwend ihwbegin
  dsimp only
  rw [max_eq_left (Int.natCast_nonneg _), if_pos hless]

theorem recordWords_eq (hwords : ∀ w ∈ words, w.1 < w.2) :
    recordWords words = ⟨words.map fun w ↦ (short w.1, short w.2), none⟩ := by
  induction words using List.reverseRecOn with
  | nil => rfl
  | append_singleton words w ih =>
    rw [forall_mem_append, forall_mem_singleton] at hwords
    have hold := ih hwords.1
    unfold recordWords at hold ⊢
    rw [foldl_concat, hold, record_word _ hwords.2, map_append]
    rfl

/-- The words are recorded where they are if and only if their positions fit. -/
theorem recordWords_right_iff (hwords : ∀ w ∈ words, w.1 < w.2) :
    recordWords words = ⟨positions words, none⟩ ↔ ∀ w ∈ words, w.2 < 2 ^ 15 := by
  rw [recordWords_eq hwords, Chwords.mk.injEq, and_iff_left rfl, positions, map_inj_left]
  refine forall₂_congr fun w hw ↦ ?_
  rw [Prod.mk.injEq, short_eq_iff, short_eq_iff]
  exact ⟨And.right, fun h ↦ ⟨(hwords w hw).trans h, h⟩⟩

/-! ## The text of a line -/

theorem terminated_append {text rest : Bytes} (h : (0 : UInt8) ∉ text) :
    terminated (text ++ 0 :: rest) = some text := by
  induction text with
  | nil => rfl
  | cons c text ih =>
    rw [mem_cons, not_or] at h
    rw [cons_append, terminated, if_neg (Ne.symm h.1), ih h.2]
    rfl

theorem textFrom_eq {chline text rest : Bytes} (hp : chline.drop p = text ++ 0 :: rest)
    (h : (0 : UInt8) ∉ text) : textFrom chline p = some text := by
  unfold textFrom
  rw [if_pos (Int.natCast_nonneg p), Int.toNat_natCast, hp, terminated_append h]

/-! ## The pieces -/

/-- Whether a character is kept behind a word. -/
def sep (v : ℕ × ℕ) : List (ℕ × ℕ) → ℕ
  | [] => 0
  | w :: _ => if v.2 < w.1 then 1 else 0

/-- The words, each with the character that is kept behind it. -/
def joined (line : Bytes) : List (ℕ × ℕ) → Bytes
  | [] => []
  | v :: words => between line (v.1, v.2 + sep v words) ++ joined line words

/-- Where the words are then. -/
def placed : ℕ → List (ℕ × ℕ) → List (ℕ × ℕ)
  | _, [] => []
  | p, v :: words =>
    (p, p + (v.2 - v.1)) :: placed (p + (v.2 - v.1) + sep v words) words

/-- Words of a line in their order. -/
structure InLine (line : Bytes) (words : List (ℕ × ℕ)) : Prop where
  nonempty : ∀ w ∈ words, w.1 < w.2
  ordered : words.IsChain fun v w ↦ v.2 ≤ w.1
  inside : ∀ w ∈ words, w.2 ≤ line.length

variable {v : ℕ × ℕ}

theorem InLine.tail (h : InLine line (v :: words)) : InLine line words :=
  ⟨(List.forall_mem_cons.mp h.nonempty).2, h.ordered.tail, (List.forall_mem_cons.mp h.inside).2⟩

theorem InLine.sep_le (h : InLine line (v :: words)) :
    v.1 < v.2 ∧ v.2 + sep v words ≤ line.length ∧
      (∀ w ∈ words.head?, v.2 + sep v words ≤ w.1) := by
  refine ⟨h.nonempty v mem_cons_self, ?_⟩
  cases words with
  | nil => exact ⟨h.inside v mem_cons_self, fun w hw ↦ nomatch hw⟩
  | cons w words =>
    have hle : v.2 ≤ w.1 := (List.isChain_cons_cons.mp h.ordered).1
    have hw := h.nonempty w (mem_cons_of_mem _ mem_cons_self)
    have hin := h.inside w (mem_cons_of_mem _ mem_cons_self)
    have hstep : v.2 + sep v (w :: words) ≤ w.1 := by
      change v.2 + (if v.2 < w.1 then 1 else 0) ≤ w.1
      split <;> omega
    exact ⟨by omega, fun x hx ↦ Option.mem_some.mp hx ▸ hstep⟩

theorem length_between {a b : ℕ} (h : b ≤ line.length) :
    (between line (a, b)).length = b - a := by
  unfold between
  rw [length_take, length_drop]
  omega

theorem lastEnd_cons (v : ℕ × ℕ) (words : List (ℕ × ℕ)) :
    lastEnd (v :: words) = if words = [] then v.2 else lastEnd words := by
  cases words with
  | nil => rfl
  | cons w words =>
    rfl

/-- The pieces are no longer than what they are taken from. -/
theorem joined_le (h : InLine line words) (hne : words ≠ [])
    (hp : ∀ w ∈ words.head?, p ≤ w.1) : p + (joined line words).length ≤ lastEnd words := by
  induction words generalizing p with
  | nil => exact absurd rfl hne
  | cons v words ih =>
    obtain ⟨hv, hin, hnext⟩ := h.sep_le
    have hpv : p ≤ v.1 := hp v rfl
    rw [joined, length_append, length_between hin, lastEnd_cons]
    cases words with
    | nil =>
      rw [if_pos rfl, joined, length_nil, sep]
      omega
    | cons w words =>
      have hw := ih h.tail (cons_ne_nil _ _) hnext
      rw [if_neg (cons_ne_nil _ _)]
      omega

theorem lastEnd_le (h : InLine line words) : lastEnd words ≤ line.length := by
  unfold lastEnd
  cases hlast : words.getLast? with
  | none => exact Nat.zero_le _
  | some w => exact h.inside w (mem_of_getLast? hlast)

/-! ## The loops -/

theorem needblank_eq (v : ℕ × ℕ) (words : List (ℕ × ℕ)) :
    needblank v.2 (positions words) = sep v words := by
  cases words with
  | nil => rfl
  | cons w words =>
    change (if (w.1 : ℤ) > v.2 then (1 : ℤ) else 0) = ((if v.2 < w.1 then 1 else 0 : ℕ) : ℤ)
    by_cases h : v.2 < w.1
    · rw [if_pos h, if_pos (by exact_mod_cast h)]
      rfl
    · rw [if_neg h, if_neg (by exact_mod_cast h)]
      rfl

theorem reducedLen_some (h : InLine line (v :: words)) (len : ℤ) :
    reducedLen len (some v.2) (positions words) =
      len + sep v words + (joined line words).length := by
  induction words generalizing v len with
  | nil =>
    change len = len + ((0 : ℕ) : ℤ) + ((0 : ℕ) : ℤ)
    omega
  | cons w words ih =>
    obtain ⟨hw, hin, -⟩ := h.tail.sep_le
    have hsep : ((if (some (v.2 : ℤ)).any (· < (w.1 : ℤ)) then 1 else 0 : ℤ)) =
        sep v (w :: words) := by
      rw [← needblank_eq]
      change (if decide ((v.2 : ℤ) < w.1) = true then (1 : ℤ) else 0) = if (w.1 : ℤ) > v.2 then 1 else 0
      simp only [decide_eq_true_eq, gt_iff_lt]
    change reducedLen (len + ((w.2 : ℤ) - w.1) + _) (some (w.2 : ℤ)) (positions words) = _
    rw [hsep, ih h.tail, joined, length_append, length_between hin]
    push_cast [Nat.cast_sub (by omega : w.1 ≤ w.2 + sep w words)]
    ring

theorem reducedLen_none (h : InLine line words) (len : ℤ) :
    reducedLen len none (positions words) = len + (joined line words).length := by
  cases words with
  | nil =>
    change len = len + ((0 : ℕ) : ℤ)
    omega
  | cons w words =>
    obtain ⟨hw, hin, -⟩ := h.sep_le
    change reducedLen (len + ((w.2 : ℤ) - w.1) + 0) (some (w.2 : ℤ)) (positions words) = _
    rw [reducedLen_some h, joined, length_append, length_between hin]
    push_cast [Nat.cast_sub (by omega : w.1 ≤ w.2 + sep w words)]
    ring

theorem memmove_eq {chline : Bytes} {dst src n : ℕ} (hdst : dst ≤ src)
    (h : src + n ≤ chline.length) :
    memmove chline dst src n = some (overwrite chline dst ((chline.drop src).take n)) := by
  unfold memmove
  rw [if_pos ⟨Int.natCast_nonneg _, Int.natCast_nonneg _, Int.natCast_nonneg _,
    by exact_mod_cast (Nat.add_le_add_right hdst n).trans h, by exact_mod_cast h⟩]
  rfl

theorem moveWords_spec {chline : Bytes} (h : InLine line words)
    (hfit : ∀ w ∈ words, w.2 < 2 ^ 15) (hlength : chline.length = line.length + 1)
    (hp : ∀ w ∈ words.head?, p ≤ w.1)
    (hdrop : ∀ w ∈ words.head?, chline.drop w.1 = (line ++ [0]).drop w.1) :
    ∃ chline', moveWords chline p (positions words) =
        some (chline', positions (placed p words), ((p + (joined line words).length : ℕ) : ℤ)) ∧
      chline'.length = line.length + 1 ∧
      chline'.take (p + (joined line words).length) = chline.take p ++ joined line words ∧
      chline'.drop (lastEnd words) = (if words = [] then chline else line ++ [0]).drop (lastEnd words) := by
  induction words generalizing chline p with
  | nil => exact ⟨chline, rfl, hlength, (append_nil _).symm, rfl⟩
  | cons v words ih =>
    obtain ⟨hv, hin, hnext⟩ := h.sep_le
    have hpv : p ≤ v.1 := hp v rfl
    have hread : chline.drop v.1 = (line ++ [0]).drop v.1 := hdrop v rfl
    have hend : v.2 < 2 ^ 15 := hfit v mem_cons_self
    have hfar {n : ℕ} (hn : v.1 ≤ n) : chline.drop n = (line ++ [0]).drop n := by
      rw [← Nat.add_sub_cancel' hn, ← drop_drop, hread, drop_drop]
    obtain ⟨stop, hstop⟩ : ∃ stop, stop = v.2 + sep v words := ⟨_, rfl⟩
    have hpiece := @length_between line v.1 _ hin
    rw [← hstop] at hin hnext hpiece
    obtain ⟨piece, hbetween⟩ : ∃ piece, piece = between line (v.1, stop) := ⟨_, rfl⟩
    rw [← hbetween] at hpiece
    have hsource : (chline.drop v.1).take (stop - v.1) = piece := by
      rw [hread, drop_append_of_le_length (by omega), take_append_of_le_length, hbetween]
      · rfl
      · rw [length_drop]
        omega
    have hroom : p + piece.length ≤ chline.length := by omega
    -- the word is moved, or is where it belongs already
    have hmove : (if (p : ℤ) ≠ v.1 then
          memmove chline p v.1 ((v.2 : ℤ) - v.1 + sep v words) else some chline) =
        some (overwrite chline p piece) := by
      by_cases hsame : p = v.1
      · rw [if_neg (not_not.mpr (congrArg _ hsame)), overwrite_self]
        rw [hsame, hpiece, hsource]
      · have hsize : (v.2 : ℤ) - v.1 + sep v words = ((stop - v.1 : ℕ) : ℤ) := by omega
        rw [if_pos (by exact_mod_cast hsame), hsize, memmove_eq hpv (by omega), hsource]
    have hword : (if (p : ℤ) ≠ v.1 then (short p, short (short p + ((v.2 : ℤ) - v.1)))
          else ((v.1 : ℤ), (v.2 : ℤ))) = ((p : ℤ), ((p + (v.2 - v.1) : ℕ) : ℤ)) := by
      by_cases hsame : p = v.1
      · rw [if_neg (not_not.mpr (congrArg _ hsame)), hsame, Nat.add_sub_cancel' hv.le]
      · have hsum : (p : ℤ) + ((v.2 : ℤ) - v.1) = ((p + (v.2 - v.1) : ℕ) : ℤ) := by omega
        rw [if_pos (by exact_mod_cast hsame), (short_eq_iff p).mpr (by omega), hsum,
          (short_eq_iff _).mpr (by omega)]
    have hstep : p + piece.length = p + (v.2 - v.1) + sep v words := by omega
    obtain ⟨chline', hrest, hlength', htake, hdrop'⟩ := @ih (p + (v.2 - v.1) + sep v words)
      _ h.tail (fun w hw ↦ hfit w (mem_cons_of_mem _ hw))
      ((length_overwrite hroom).trans hlength)
      (fun w hw ↦ by
        have := hnext w hw
        omega)
      (fun w hw ↦ by
        have := hnext w hw
        rw [drop_overwrite hroom (by omega), hfar (by omega)])
    have hjoined : joined line (v :: words) = piece ++ joined line words := by
      rw [joined, ← hstop, hbetween]
    have hsum : p + (joined line (v :: words)).length =
        p + (v.2 - v.1) + sep v words + (joined line words).length := by
      rw [hjoined, length_append, ← Nat.add_assoc, hstep]
    refine ⟨chline', ?_, hlength', ?_, ?_⟩
    · have hpos : (p : ℤ) + ((v.2 : ℤ) - v.1 + sep v words) =
          ((p + (v.2 - v.1) + sep v words : ℕ) : ℤ) := by omega
      change moveWords chline p (((v.1 : ℤ), (v.2 : ℤ)) :: positions words) = _
      rw [moveWords]
      rw [needblank_eq, hmove, Option.bind_some, hpos, hrest, Option.map_some, hword, hsum]
      rfl
    · rw [hsum, htake, ← hstep, take_overwrite (by omega), hjoined, append_assoc]
    · rw [if_neg (cons_ne_nil _ _), lastEnd_cons]
      by_cases hwords : words = []
      · subst hwords
        rw [if_pos rfl] at hdrop' ⊢
        change chline' = overwrite chline p piece at hdrop'
        have hsep : sep v [] = 0 := rfl
        rw [hdrop', drop_overwrite hroom (by omega), hfar hv.le]
      · rw [if_neg hwords] at hdrop' ⊢
        exact hdrop'

end Bsh.Hist

/-!
# When `histreduceblanks` is right

What is copied behind a word is the first character of what separates it from the next word, and so
it is a blank only if that begins with one: a backslash that joins two lines is kept without its
newline.  A position that does not fit is recorded as another one.
-/

namespace Bsh.Hist

open Bsh.Library Bsh.Shell InPlace List

variable {line front : Bytes} {words : List (ℕ × ℕ)} {p : ℕ} {v : ℕ × ℕ}

/-! ## The line that is left -/

theorem nul_notMem_joined (h : (0 : UInt8) ∉ line) : (0 : UInt8) ∉ joined line words := by
  induction words with
  | nil => exact not_mem_nil
  | cons v words ih =>
    rw [joined, mem_append, not_or]
    exact ⟨fun hmem ↦ h (mem_of_mem_drop (mem_of_mem_take hmem)), ih⟩

/-- Words that come out as long as they are taken from stay where they are. -/
theorem placed_tight (h : InLine line words) (hp : ∀ w ∈ words.head?, p ≤ w.1) (hne : words ≠ [])
    (htight : lastEnd words ≤ p + (joined line words).length) :
    placed p words = words ∧
      (line.drop p).take (joined line words).length = joined line words := by
  induction words generalizing p with
  | nil => exact absurd rfl hne
  | cons v words ih =>
    obtain ⟨hv, hin, hnext⟩ := h.sep_le
    have hpv : p ≤ v.1 := hp v rfl
    have hpiece := @length_between line v.1 _ hin
    rw [lastEnd_cons, joined, length_append, hpiece] at htight
    rw [placed, joined, length_append, hpiece]
    cases words with
    | nil =>
      change v.2 ≤ p + (v.2 - v.1 + 0) at htight
      obtain rfl : p = v.1 := by omega
      rw [Nat.add_sub_cancel' hv.le, joined, length_nil, append_nil]
      exact ⟨rfl, rfl⟩
    | cons w words =>
      rw [if_neg (cons_ne_nil _ _)] at htight
      have hlast := joined_le h.tail (cons_ne_nil _ _) hnext
      obtain rfl : p = v.1 := by omega
      have hstop : v.1 + (v.2 - v.1) + sep v (w :: words) = v.2 + sep v (w :: words) := by omega
      obtain ⟨hplaced, htake⟩ := ih h.tail hnext (cons_ne_nil _ _) (by omega)
      have hdrop : v.1 + (v.2 + sep v (w :: words) - v.1) = v.2 + sep v (w :: words) := by omega
      rw [hstop, hplaced, Nat.add_sub_cancel' hv.le, take_add, drop_drop, hdrop, htake]
      exact ⟨rfl, rfl⟩

theorem lastEnd_positions (words : List (ℕ × ℕ)) :
    ((positions words).getLast?.map Prod.snd).getD 0 = (lastEnd words : ℤ) := by
  unfold positions lastEnd
  rw [List.getLast?_map]
  cases words.getLast? <;> rfl

theorem spacecount_append (ignorespace : Bool) (line : Bytes) :
    spacecount ignorespace (line ++ [0]) = spacecount ignorespace line := by
  have hnul : ([0] : Bytes).takeWhile (· = char ' ') = [] := rfl
  have htake : (line ++ [0]).takeWhile (· = char ' ') = line.takeWhile (· = char ' ') := by
    rw [takeWhile_append, hnul, append_nil]
    split
    · exact (( takeWhile_prefix _).eq_of_length ‹_›).symm
    · rfl
  unfold spacecount
  rw [htake]

theorem drop_terminator {n : ℕ} (h : n ≤ line.length) :
    (line ++ [0]).drop n = line.drop n ++ 0 :: [] := drop_append_of_le_length h

theorem endLine_spec {chline text tail : Bytes} {stop : ℕ} (hp : p ≤ stop)
    (hstop : stop < chline.length) (htake : chline.take p = text) (htext : (0 : UInt8) ∉ text)
    (hdrop : chline.drop stop = tail ++ 0 :: []) (htail : (0 : UInt8) ∉ tail) :
    ∃ chline', endLine chline stop p = some chline' ∧
      textFrom chline' 0 = some (text ++ if tail.all inblank then [] else tail) := by
  unfold endLine
  rw [textFrom_eq hdrop htail, Option.bind_some]
  cases hblank : tail.all inblank with
  | true =>
    have hinside : (0 : ℤ) ≤ p ∧ (p : ℤ) < chline.length :=
      ⟨Int.natCast_nonneg p, by exact_mod_cast hp.trans_lt hstop⟩
    have hset : chline.set p 0 = text ++ 0 :: chline.drop (p + 1) := by
      rw [set_eq_take_append_cons_drop, if_pos (hp.trans_lt hstop), htake]
    rw [if_pos rfl, if_pos hinside, Int.toNat_natCast]
    refine ⟨_, rfl, ?_⟩
    rw [if_pos rfl, append_nil]
    exact @textFrom_eq 0 _ _ _ hset htext
  | false =>
    have hboth : (0 : UInt8) ∉ text ++ tail := by
      rw [mem_append, not_or]
      exact ⟨htext, htail⟩
    rw [if_neg Bool.false_ne_true]
    by_cases hless : p < stop
    · have hcopy : copyDown 0 (chline.length + 1) chline p stop =
          some (overwrite chline p (tail ++ [0])) := by
        apply copyDown_spec hp hdrop htail
        have hlength := congrArg List.length hdrop
        rw [length_drop, length_append] at hlength
        omega
      have htext' : overwrite chline p (tail ++ [0]) =
          (text ++ tail) ++ 0 :: chline.drop (p + (tail ++ [0]).length) := by
        rw [overwrite, htake]
        simp only [append_assoc]
        rfl
      rw [if_pos (by exact_mod_cast hless), if_pos (Int.natCast_nonneg p), Int.toNat_natCast,
        Int.toNat_natCast, hcopy]
      exact ⟨_, rfl, @textFrom_eq 0 _ _ _ htext' hboth⟩
    · have hsame : p = stop := by omega
      have htext' : chline = (text ++ tail) ++ 0 :: [] := by
        rw [append_assoc, ← hdrop, ← htake, hsame, List.take_append_drop]
      rw [if_neg (by exact_mod_cast hless)]
      exact ⟨_, rfl, @textFrom_eq 0 _ _ _ htext' hboth⟩

theorem histreduceblanks_words {ignorespace : Bool} (h : InLine line words) (hne : words ≠ [])
    (hnul : (0 : UInt8) ∉ line) (hfit : ∀ w ∈ words, w.2 < 2 ^ 15)
    (hp : ∀ w ∈ words.head?, spacecount ignorespace line ≤ w.1) :
    ∃ chline, histreduceblanks ignorespace (line ++ [0]) (positions words) =
        some (chline, positions (placed (spacecount ignorespace line) words)) ∧
      textFrom chline 0 = some (line.take (spacecount ignorespace line) ++ joined line words ++
        if (line.drop (lastEnd words)).all inblank then [] else line.drop (lastEnd words)) := by
  unfold histreduceblanks
  dsimp only
  rw [spacecount_append]
  generalize spacecount ignorespace line = p at hp ⊢
  have hlast := lastEnd_le h
  have hle := joined_le h hne hp
  have hlen : reducedLen p none (positions words) = ((p + (joined line words).length : ℕ) : ℤ) := by
    rw [reducedLen_none h]
    rfl
  have hchar : lineChar (line ++ [0]) (p + (joined line words).length : ℕ) =
      (line ++ [0])[p + (joined line words).length]? := if_pos (Int.natCast_nonneg _)
  rw [hlen, hchar, lastEnd_positions]
  by_cases htight : p + (joined line words).length = line.length
  · obtain ⟨hplaced, htake⟩ := placed_tight h hp hne (by omega)
    have hend : lastEnd words = line.length := by omega
    have hlength : (joined line words).length = (line.drop p).length := by
      rw [length_drop]
      omega
    rw [htight, List.getElem?_concat_length, Option.bind_some, if_pos rfl, hplaced]
    refine ⟨_, rfl, ?_⟩
    rw [← htake, hlength, take_length, List.take_append_drop, hend, drop_length]
    rw [if_pos all_nil, append_nil]
    exact @textFrom_eq 0 _ line [] rfl hnul
  · have hinside : p + (joined line words).length < line.length := by omega
    have hchar' : (line)[p + (joined line words).length] ≠ 0 := fun hzero ↦
      hnul (hzero ▸ getElem_mem hinside)
    obtain ⟨chline, hmove, hlength, htake, hdrop⟩ := @moveWords_spec line words p (line ++ [0]) h
      hfit length_append hp fun _ _ ↦ rfl
    rw [if_neg hne, drop_terminator hlast] at hdrop
    have htext : (0 : UInt8) ∉ line.take p ++ joined line words := by
      rw [mem_append, not_or]
      exact ⟨fun hmem ↦ hnul (mem_of_mem_take hmem), nul_notMem_joined hnul⟩
    have hpw : p ≤ line.length := by omega
    rw [take_append_of_le_length hpw] at htake
    obtain ⟨chline', hend, htext'⟩ := endLine_spec hle (by omega) htake htext hdrop
      fun hmem ↦ hnul (mem_of_mem_drop hmem)
    rw [List.getElem?_append_left hinside, List.getElem?_eq_getElem hinside, Option.bind_some,
      if_neg hchar', hmove, Option.bind_some, hend]
    exact ⟨chline', rfl, htext'⟩

theorem histreduceblanks_nil (ignorespace : Bool) (hnul : (0 : UInt8) ∉ line) :
    ∃ chline line', histreduceblanks ignorespace (line ++ [0]) (positions []) =
        some (chline, positions []) ∧ textFrom chline 0 = some line' ∧
      (line.all inblank = false → line' = line) ∧
      (line.all inblank = true → line'.all inblank = true) := by
  unfold histreduceblanks
  rw [spacecount_append]
  have hp : spacecount ignorespace line ≤ line.length := by
    unfold spacecount
    split
    · exact ( takeWhile_prefix _).length_le
    · exact Nat.zero_le _
  generalize spacecount ignorespace line = p at hp ⊢
  change ∃ chline line', (Option.bind (lineChar (line ++ [0]) (p : ℤ)) fun c ↦ _) = _ ∧ _
  have hchar : lineChar (line ++ [0]) (p : ℤ) = (line ++ [0])[p]? := if_pos (Int.natCast_nonneg _)
  have hwhole : textFrom (line ++ [0]) (0 : ℕ) = some line := @textFrom_eq 0 _ line [] rfl hnul
  rw [hchar]
  by_cases hend : p = line.length
  · rw [hend, List.getElem?_concat_length, Option.bind_some, if_pos rfl]
    exact ⟨_, line, rfl, hwhole, fun _ ↦ rfl, id⟩
  · have hinside : p < line.length := by omega
    have hchar' : (line)[p] ≠ 0 := fun hzero ↦ hnul (hzero ▸ getElem_mem hinside)
    rw [List.getElem?_append_left hinside, List.getElem?_eq_getElem hinside, Option.bind_some,
      if_neg hchar']
    change ∃ chline line', Option.map _ (endLine (line ++ [0]) (0 : ℕ) p) = _ ∧ _
    unfold endLine
    rw [hwhole, Option.bind_some]
    cases hblank : line.all inblank with
    | true =>
      have hroom : (0 : ℤ) ≤ p ∧ (p : ℤ) < (line ++ [0]).length :=
        ⟨Int.natCast_nonneg p, by exact_mod_cast hp.trans_lt (by
          rw [length_append]
          exact Nat.lt_succ_self _)⟩
      have hset : (line ++ [0]).set p 0 = line.take p ++ 0 :: (line ++ [0]).drop (p + 1) := by
        rw [set_eq_take_append_cons_drop, if_pos (by exact_mod_cast hroom.2),
          take_append_of_le_length hp]
      rw [if_pos rfl, if_pos hroom]
      refine ⟨_, line.take p, rfl, ?_, (fun h ↦ nomatch h), fun _ ↦ ?_⟩
      · exact @textFrom_eq 0 _ _ _ hset fun hmem ↦ hnul (mem_of_mem_take hmem)
      · rw [all_eq_true] at hblank ⊢
        exact fun c hc ↦ hblank c (mem_of_mem_take hc)
    | false =>
      exact ⟨_, line, rfl, hwhole, fun _ ↦ rfl, fun h ↦ nomatch h⟩

/-! ## The words in the line that is left -/

theorem placed_texts (h : InLine line words) (hfront : front.length = p) (t : Bytes) :
    List.Forall₂ (fun w w' ↦ w'.2 = w'.1 + (w.2 - w.1) ∧
      between (front ++ (joined line words ++ t)) w' = between line w) words (placed p words) := by
  induction words generalizing front p with
  | nil => exact .nil
  | cons v words ih =>
    obtain ⟨hv, hin, -⟩ := h.sep_le
    have hpiece := @length_between line v.1 _ hin
    rw [placed, joined, append_assoc]
    refine .cons ⟨rfl, ?_⟩ ?_
    · unfold between
      rw [← hfront, drop_left, Nat.add_sub_cancel_left, take_append_of_le_length,
        take_take, Nat.min_eq_left (by omega)]
      rw [length_take, length_drop]
      omega
    · rw [← append_assoc]
      apply ih h.tail
      rw [length_append, hpiece, hfront]
      omega

/-- What is kept behind a word is a blank if what separates the words begins with one. -/
theorem spaced_placed_iff (h : InLine line words) (hfront : front.length = p) (t : Bytes) :
    Spaced (front ++ (joined line words ++ t)) words (placed p words) ↔
      words.IsChain fun v w ↦ v.2 < w.1 → ∃ c ∈ (line)[v.2]?, inblank c = true := by
  induction words generalizing front p with
  | nil => exact iff_of_true trivial .nil
  | cons v words ih =>
    obtain ⟨hv, hin, -⟩ := h.sep_le
    have hpiece := @length_between line v.1 _ hin
    cases words with
    | nil => exact iff_of_true trivial (.singleton v)
    | cons w words =>
      have hrest := @ih (front ++ between line _)
        (p + (v.2 - v.1) + sep v (w :: words)) h.tail (by
          rw [length_append, hpiece, hfront]
          omega)
      rw [isChain_cons_cons, ← hrest, joined, append_assoc, ← append_assoc front]
      apply and_congr_left'
      have hsep : sep v (w :: words) = if v.2 < w.1 then 1 else 0 := rfl
      by_cases hless : v.2 < w.1
      · rw [if_pos hless] at hsep ⊢
        rw [hsep] at hpiece ⊢
        rw [and_iff_right rfl, imp_iff_right hless]
        have hchar : (front ++ between line (v.1, v.2 + 1) ++
            (joined line (w :: words) ++ t))[p + (v.2 - v.1)]? = (line)[v.2]? := by
          rw [append_assoc, List.getElem?_append_right (by omega), hfront,
            Nat.add_sub_cancel_left, List.getElem?_append_left (by omega)]
          unfold between
          rw [List.getElem?_take_of_lt (by omega), List.getElem?_drop, Nat.add_sub_cancel' hv.le]
        rw [hchar]
      · rw [if_neg hless] at hsep ⊢
        exact iff_of_true (congrArg _ hsep) fun h ↦ absurd h hless

theorem lastEnd_placed (h : InLine line words) (hne : words ≠ []) :
    lastEnd (placed p words) = p + (joined line words).length := by
  induction words generalizing p with
  | nil => exact absurd rfl hne
  | cons v words ih =>
    obtain ⟨hv, hin, -⟩ := h.sep_le
    have hpiece := @length_between line v.1 _ hin
    rw [placed, joined, length_append, hpiece, lastEnd_cons]
    cases words with
    | nil =>
      have hsep : sep v [] = 0 := rfl
      have hplaced : placed (p + (v.2 - v.1) + sep v []) [] = [] := rfl
      rw [if_pos hplaced, hsep, joined, length_nil]
      omega
    | cons w words =>
      have hplaced : placed (p + (v.2 - v.1) + sep v (w :: words)) (w :: words) ≠ [] :=
        cons_ne_nil _ _
      rw [if_neg hplaced, ih h.tail (cons_ne_nil _ _)]
      omega

theorem positions_injective : Function.Injective positions :=
  List.map_injective_iff.mpr fun v w h ↦ by
    rw [Prod.mk.injEq, Nat.cast_inj, Nat.cast_inj] at h
    exact Prod.ext h.1 h.2

/-! ## The condition -/

theorem LineWords.inLine (w : LineWords line) : InLine line w.words :=
  ⟨w.nonempty, w.ordered, w.inside⟩

/-- The leading blanks that are kept end where the first word begins. -/
theorem LineWords.spacecount_le (w : LineWords line) (ignorespace : Bool) :
    ∀ v ∈ w.words.head?, spacecount ignorespace line ≤ v.1 := by
  intro v hv
  unfold spacecount
  split
  · exact w.front v hv
  · exact Nat.zero_le _

theorem reduceRight_nil (ignorespace : Bool) (line : HistText) (w : LineWords line.1)
    (hw : w.words = []) : ReduceRight ignorespace line w := by
  obtain ⟨chline, line', hrun, htext, hcomment, htrailing⟩ :=
    histreduceblanks_nil ignorespace line.2
  unfold ReduceRight
  rw [hw]
  exact ⟨rfl, chline, line', [], hrun, htext, .nil, trivial, hcomment, htrailing⟩

/-- Blanks are reduced as they should be if and only if the positions fit, and what separates words
begins with a blank. -/
theorem reduceRight_iff (ignorespace : Bool) (line : HistText) (w : LineWords line.1) :
    ReduceRight ignorespace line w ↔ ReduceCondition line w := by
  by_cases hw : w.words = []
  · refine iff_of_true (reduceRight_nil ignorespace line w hw) ?_
    unfold ReduceCondition
    rw [hw]
    exact ⟨fun _ h ↦ absurd h not_mem_nil, .nil⟩
  · have hin := w.inLine
    have hfront := w.spacecount_le ignorespace
    unfold ReduceRight ReduceCondition
    rw [recordWords_right_iff w.nonempty]
    apply and_congr_right
    intro hfit
    rw [(recordWords_right_iff w.nonempty).mpr hfit]
    obtain ⟨chline, hrun, htext⟩ := histreduceblanks_words hin hw line.2 hfit hfront
    have hlast := lastEnd_le hin
    have hle := joined_le hin hw hfront
    have hlength : (line.1.take (spacecount ignorespace line.1)).length =
        spacecount ignorespace line.1 := length_take_of_le (by omega)
    rw [append_assoc] at htext
    rw [hrun]
    generalize spacecount ignorespace line.1 = p at hlength htext
    generalize htail : (if (line.1.drop (lastEnd w.words)).all inblank then []
      else line.1.drop (lastEnd w.words)) = tail at htext
    have hspaced := spaced_placed_iff hin hlength tail
    rw [← hspaced]
    constructor
    · rintro ⟨chline', line', words', hresult, htext', hreduced⟩
      rw [Option.some_inj, Prod.mk.injEq] at hresult
      obtain ⟨rfl, hwords⟩ := hresult
      rw [htext, Option.some_inj] at htext'
      rw [htext', positions_injective hwords]
      exact hreduced.spaced
    · intro hblank
      have hdrop : (line.1.take p ++ (joined line.1 w.words ++ tail)).drop
          (lastEnd (placed p w.words)) = tail := by
        rw [lastEnd_placed hin hw, ← append_assoc]
        apply drop_left'
        rw [length_append, hlength]
      refine ⟨chline, _, _, rfl, htext, placed_texts hin hlength tail, hblank, ?_, ?_⟩
      · intro hcomment
        rw [hdrop, ← htail, hcomment, if_neg Bool.false_ne_true]
      · intro htrailing
        rw [hdrop, ← htail, htrailing, if_pos rfl]
        rfl

/-! ## Two lines that are joined -/

/-- The line `a;` that goes on with `b` behind a backslash and a newline. -/
def joinedLines : HistText :=
  ⟨[char 'a', char ';', char '\\', char '\n', char 'b'], by decide⟩

/-- Its three words. -/
def joinedWords : LineWords joinedLines.1 where
  words := [(0, 1), (1, 2), (4, 5)]
  nonempty := by decide
  ordered := by decide
  inside := by decide
  front := fun _ _ ↦ Nat.zero_le _

/-- The backslash is kept: the line becomes `a;\b`. -/
theorem reduceRight_joinedLines : ¬ ReduceRight false joinedLines joinedWords := by
  rintro ⟨-, chline, line', words', hrun, htext, hreduced⟩
  have hresult : histreduceblanks false (joinedLines.1 ++ [0]) (recordWords joinedWords.words).words =
      some ([char 'a', char ';', char '\\', char 'b', 0, 0],
        positions [(0, 1), (1, 2), (3, 4)]) := by decide
  rw [hresult, Option.some_inj, Prod.mk.injEq] at hrun
  obtain ⟨rfl, hwords⟩ := hrun
  rw [← positions_injective hwords] at hreduced
  have hline : textFrom [char 'a', char ';', char '\\', char 'b', 0, 0] 0 =
      some [char 'a', char ';', char '\\', char 'b'] := by decide
  rw [hline, Option.some_inj] at htext
  rw [← htext] at hreduced
  have hspaced := hreduced.spaced
  obtain ⟨-, c, hc, hblank⟩ := hspaced.2.1
  rw [← Option.mem_some.mp hc] at hblank
  exact absurd hblank (by decide)

end Bsh.Hist
