import Mathlib.Data.List.TakeWhile
import Bsh.Library.Cells
import Bsh.Shell.Numbers

/-!
# The modifier `:s`

`subst` replaces the first or every occurrence of a text in a string.  `convamps` expands the
replacement in two passes, one that counts and one that writes; each backslash takes it past the
character behind.  A replacement that ends in a backslash takes it past the end.
-/

namespace Bsh.Hist

open Bsh.Library Bsh.Shell List

/-- A C string, without its terminator. -/
abbrev HistText := {s : Bytes // (0 : UInt8) ∉ s}

/-! ## The source -/

/-- The first loop of `convamps`: `slen` and `sdup`.  There is no result when it reads behind the
terminator. -/
def convampsCount (inlen : ℕ) : ℕ → Bool → Bytes → Option (ℕ × Bool)
  | slen, sdup, [] => some (slen, sdup)
  | slen, sdup, [c] =>
    if c = char '\\' then none
    else if c = char '&' then some (slen + inlen, true) else some (slen + 1, sdup)
  | slen, sdup, c :: d :: out =>
    if c = char '\\' then convampsCount inlen (slen + 1) true out
    else if c = char '&' then convampsCount inlen (slen + inlen) true (d :: out)
    else convampsCount inlen (slen + 1) sdup (d :: out)

/-- The second loop of `convamps`, with `ret` and `pp`. -/
def convampsFill (inn : Bytes) : Cells UInt8 → ℕ → Bytes → Option (Cells UInt8)
  | ret, pp, [] => ret.store pp 0
  | ret, pp, [c] =>
    if c = char '\\' then none
    else if c = char '&' then
      (ret.storeAll pp (inn ++ [0])).bind fun r ↦ r.1.store (pp + inn.length) 0
    else (ret.store pp c).bind fun ret ↦ ret.store (pp + 1) 0
  | ret, pp, c :: d :: out =>
    if c = char '\\' then (ret.store pp d).bind fun ret ↦ convampsFill inn ret (pp + 1) out
    else if c = char '&' then
      (ret.storeAll pp (inn ++ [0])).bind fun r ↦ convampsFill inn r.1 (pp + inn.length) (d :: out)
    else (ret.store pp c).bind fun ret ↦ convampsFill inn ret (pp + 1) (d :: out)

/-- `convamps`: the memory of the string that it returns. -/
def convamps (out inn : Bytes) : Option (Cells UInt8) :=
  (convampsCount inn.length 0 false out).bind fun (slen, sdup) ↦
    if sdup = false then some ((out ++ [0]).map some)
    else (Cells.sized (slen + 1)).bind fun ret ↦ convampsFill inn ret 0 out

/-- The string at the start of a piece of memory. -/
def stringAt : Cells UInt8 → Option Bytes
  | [] => none
  | none :: _ => none
  | some c :: cells => if c = 0 then some [] else (stringAt cells).map (c :: ·)

/-- The loop of `subst`, with the string and the place of the cut. -/
def substLoop (inn sptr : Bytes) (gbal : Bool) : ℕ → Bytes → ℕ → Option Bytes
  | 0, _, _ => none
  | turns + 1, strptr, substcut =>
    let off := substcut + sptr.length
    let strptr := strptr.take substcut ++ sptr ++ strptr.drop (substcut + inn.length)
    if gbal then
      match Bytes.strstr inn (strptr.drop off) with
      | some found => substLoop inn sptr gbal turns strptr (strptr.length - found.length)
      | none => some strptr
    else some strptr

/-- `subst` without `HIST_SUBST_PATTERN`: the status and the string. -/
def subst (str inn out : Bytes) (gbal : Bool) : Option (ℕ × Bytes) :=
  let gbal := if inn = [] then false else gbal
  let inn := if inn = [] then str else inn
  match Bytes.strstr inn str with
  | none => some (1, str)
  | some found =>
    (convamps out inn).bind fun cells ↦ (stringAt cells).bind fun sptr ↦
      (substLoop inn sptr gbal (str.length + 1) str (str.length - found.length)).map (0, ·)

/-! ## What is to be put in, and where -/

/-- The text that a replacement stands for. -/
inductive Expands (inn : Bytes) : Bytes → Bytes → Prop where
  | nil : Expands inn [] []
  | plain {c out text} (hc : c ≠ char '\\' ∧ c ≠ char '&') (h : Expands inn out text) :
      Expands inn (c :: out) (c :: text)
  | amp {out text} (h : Expands inn out text) : Expands inn (char '&' :: out) (inn ++ text)
  | pair {d out text} (h : Expands inn out text) : Expands inn (char '\\' :: d :: out) (d :: text)

/-- `before` is what stands in front of the first occurrence of a word, and `rest` is behind it. -/
structure FirstIn (word text before rest : Bytes) : Prop where
  text_eq : text = before ++ word ++ rest
  first : ∀ early late, text = early ++ word ++ late → before.length ≤ early.length

/-- The first, or every, occurrence of `inn` is replaced from the left by `text`. -/
inductive Replaces (inn text : Bytes) : Bool → Bytes → Bytes → Prop where
  | never {gbal str} (h : ¬ inn <:+: str) : Replaces inn text gbal str str
  | once {str before rest} (h : FirstIn inn str before rest) :
      Replaces inn text false str (before ++ text ++ rest)
  | again {str before rest rest'} (h : FirstIn inn str before rest)
      (hrest : Replaces inn text true rest rest') :
      Replaces inn text true str (before ++ text ++ rest')

/-- What `subst` is for: where there is something to replace, `convamps` gives exactly the memory
for the expansion, and the string is the one with the expansion put in. -/
def SubstRight (str inn out : Bytes) (gbal : Bool) : Prop :=
  (¬ inn <:+: str ∧ subst str inn out gbal = some (1, str)) ∨
    inn <:+: str ∧ ∃ text, Expands inn out text ∧ convamps out inn = some ((text ++ [0]).map some) ∧
      ∃ str', Replaces inn text gbal str str' ∧ subst str inn out gbal = some (0, str')

/-! ## Backslashes at the end -/

/-- The number of backslashes at the end. -/
def trailing (out : Bytes) : ℕ := (out.reverse.takeWhile (· = char '\\')).length

/-- Whether there is something to expand. -/
def expandable (out : Bytes) : Bool := out.any fun c ↦ c = char '\\' || c = char '&'

theorem trailing_cons (c : UInt8) (out : Bytes) :
    trailing (c :: out) =
      if ∀ d ∈ out, d = char '\\' then out.length + (if c = char '\\' then 1 else 0)
      else trailing out := by
  unfold trailing
  rw [reverse_cons]
  by_cases hall : ∀ d ∈ out, d = char '\\'
  · have hrev : ∀ d ∈ out.reverse, decide (d = char '\\') = true := fun d hd ↦
      decide_eq_true (hall d (List.mem_reverse.mp hd))
    rw [if_pos hall, takeWhile_append_of_pos hrev, length_append, length_reverse]
    by_cases hc : c = char '\\'
    · rw [if_pos hc, hc]
      rfl
    · rw [if_neg hc, takeWhile_cons_of_neg (by simpa using hc)]
      rfl
  · rw [if_neg hall, takeWhile_append, if_neg]
    intro hlength
    apply hall
    intro d hd
    have hself := ( takeWhile_prefix _).eq_of_length hlength
    have hmem := List.takeWhile_eq_self_iff.mp hself d (List.mem_reverse.mpr hd)
    exact of_decide_eq_true hmem

theorem trailing_of_forall {out : Bytes} (h : ∀ d ∈ out, d = char '\\') :
    trailing out = out.length := by
  cases out with
  | nil => rfl
  | cons c out =>
    rw [trailing_cons, if_pos fun d hd ↦ h d (mem_cons_of_mem c hd),
      if_pos (h c mem_cons_self), length_cons]

theorem trailing_plain {c : UInt8} (hc : c ≠ char '\\') (out : Bytes) :
    trailing (c :: out) = trailing out := by
  rw [trailing_cons]
  by_cases hall : ∀ d ∈ out, d = char '\\'
  · rw [if_pos hall, if_neg hc, Nat.add_zero, trailing_of_forall hall]
  · rw [if_neg hall]

/-- A backslash and the character behind it do not change whether their number is even. -/
theorem even_trailing_pair (d : UInt8) (out : Bytes) :
    Even (trailing (char '\\' :: d :: out)) ↔ Even (trailing out) := by
  by_cases hd : d = char '\\'
  · subst hd
    rw [trailing_cons, trailing_cons]
    by_cases hall : ∀ d ∈ out, d = char '\\'
    · have hcons : ∀ d ∈ char '\\' :: out, d = char '\\' := fun d hd ↦
        (List.mem_cons.mp hd).elim id (hall d)
      rw [if_pos hcons, if_pos rfl, trailing_of_forall hall, length_cons]
      exact Nat.even_add_one.trans (not_congr Nat.even_add_one |>.trans not_not)
    · rw [if_neg fun h ↦ hall fun e he ↦ h e (mem_cons_of_mem _ he), if_neg hall]
  · have hnot : ¬ ∀ e ∈ d :: out, e = char '\\' := fun h ↦ hd (h d mem_cons_self)
    rw [trailing_cons, if_neg hnot, trailing_plain hd]

theorem exists_expands_iff (inn out : Bytes) :
    (∃ text, Expands inn out text) ↔ Even (trailing out) := by
  induction out using List.twoStepInduction with
  | nil => exact ⟨fun _ ↦ Even.zero, fun _ ↦ ⟨[], .nil⟩⟩
  | singleton c =>
    by_cases hc : c = char '\\'
    · subst hc
      constructor
      · rintro ⟨_, h⟩
        cases h with
        | plain hne _ => exact absurd rfl hne.1
      · intro h
        exact absurd h (by decide)
    · refine ⟨fun _ ↦ (trailing_plain hc []) ▸ Even.zero, fun _ ↦ ?_⟩
      by_cases hamp : c = char '&'
      · exact hamp ▸ ⟨_, .amp .nil⟩
      · exact ⟨_, .plain ⟨hc, hamp⟩ .nil⟩
  | cons_cons c d out ih ihd =>
    by_cases hc : c = char '\\'
    · subst hc
      rw [even_trailing_pair, ← ih]
      constructor
      · rintro ⟨_, h⟩
        cases h with
        | plain hne _ => exact absurd rfl hne.1
        | pair h => exact ⟨_, h⟩
      · rintro ⟨text, h⟩
        exact ⟨_, h.pair⟩
    · rw [trailing_plain hc, ← ihd d]
      constructor
      · rintro ⟨_, h⟩
        cases h with
        | plain _ h => exact ⟨_, h⟩
        | amp h => exact ⟨_, h⟩
        | pair _ => exact absurd rfl hc
      · rintro ⟨text, h⟩
        by_cases hamp : c = char '&'
        · exact hamp ▸ ⟨_, h.amp⟩
        · exact ⟨_, h.plain ⟨hc, hamp⟩⟩

/-! ## The two passes -/

theorem convampsCount_amp (inlen slen : ℕ) (sdup : Bool) (out : Bytes) :
    convampsCount inlen slen sdup (char '&' :: out) =
      convampsCount inlen (slen + inlen) true out := by
  cases out <;> rfl

theorem convampsCount_plain {c : UInt8} (hc : c ≠ char '\\' ∧ c ≠ char '&') (inlen slen : ℕ)
    (sdup : Bool) (out : Bytes) :
    convampsCount inlen slen sdup (c :: out) = convampsCount inlen (slen + 1) sdup out := by
  cases out with
  | nil => simp only [convampsCount, if_neg hc.1, if_neg hc.2]
  | cons d out => rw [convampsCount, if_neg hc.1, if_neg hc.2]

theorem Expands.count {inn out text : Bytes} (h : Expands inn out text) (slen : ℕ) (sdup : Bool) :
    convampsCount inn.length slen sdup out =
      some (slen + text.length, sdup || expandable out) := by
  induction h generalizing slen sdup with
  | nil => rw [convampsCount, expandable, any_nil, Bool.or_false, length_nil, Nat.add_zero]
  | @plain c out text hc _ ih =>
    have hkeep : expandable (c :: out) = expandable out := by
      rw [expandable, any_cons, decide_eq_false hc.1, decide_eq_false hc.2]
      rfl
    rw [convampsCount_plain hc, ih, hkeep, length_cons, Nat.add_right_comm, Nat.add_assoc]
  | @amp out text _ ih =>
    rw [convampsCount_amp, ih, length_append, Nat.add_assoc]
    simp [expandable]
  | @pair d out text _ ih =>
    rw [convampsCount, if_pos rfl, ih, length_cons, Nat.add_right_comm, Nat.add_assoc]
    simp [expandable]

/-- The count decides the length of the expansion. -/
theorem Expands.length_eq {inn out text text' : Bytes} (h : Expands inn out text)
    (h' : Expands inn out text') : text.length = text'.length := by
  have hcount := (h.count 0 false).symm.trans (h'.count 0 false)
  have hlength := congrArg Prod.fst (Option.some.inj hcount)
  exact Nat.add_left_cancel hlength

theorem convampsFill_amp (inn : Bytes) (ret : Cells UInt8) (pp : ℕ) (out : Bytes) :
    convampsFill inn ret pp (char '&' :: out) =
      (ret.storeAll pp (inn ++ [0])).bind fun r ↦ convampsFill inn r.1 (pp + inn.length) out := by
  cases out <;> rfl

theorem convampsFill_plain {c : UInt8} (hc : c ≠ char '\\' ∧ c ≠ char '&') (inn : Bytes)
    (ret : Cells UInt8) (pp : ℕ) (out : Bytes) :
    convampsFill inn ret pp (c :: out) =
      (ret.store pp c).bind fun ret ↦ convampsFill inn ret (pp + 1) out := by
  cases out with
  | nil =>
    rw [convampsFill, if_neg hc.1, if_neg hc.2]
    rfl
  | cons d out => rw [convampsFill, if_neg hc.1, if_neg hc.2]

theorem take_two_steps {ret ret1 ret' : Cells UInt8} {pp : ℕ} {first rest : Bytes}
    (hfirst : ret1.take (pp + first.length) = ret.take pp ++ first.map some)
    (hrest : ret'.take (pp + first.length + rest.length + 1) =
      ret1.take (pp + first.length) ++ (rest ++ [0]).map some) :
    ret'.take (pp + (first ++ rest).length + 1) = ret.take pp ++ (first ++ rest ++ [0]).map some := by
  rw [length_append, ← Nat.add_assoc, hrest, hfirst, append_assoc, ← map_append,
    append_assoc]

/-- The second pass writes the expansion behind what it has written, and the zero. -/
theorem Expands.fill {inn out text : Bytes} (h : Expands inn out text) {ret : Cells UInt8} {pp : ℕ}
    (hroom : pp + text.length + 1 ≤ ret.length) :
    ∃ ret', convampsFill inn ret pp out = some ret' ∧ ret'.length = ret.length ∧
      ret'.take (pp + text.length + 1) = ret.take pp ++ (text ++ [0]).map some := by
  induction h generalizing ret pp with
  | nil =>
    obtain ⟨ret', hstore, hlength, htake⟩ := Cells.store_spec hroom (0 : UInt8)
    exact ⟨ret', hstore, hlength, htake⟩
  | @plain c out text hc _ ih =>
    rw [length_cons] at hroom
    obtain ⟨ret1, hstore, hlength1, htake1⟩ := @Cells.store_spec _ ret pp (by omega) c
    obtain ⟨ret', hfill, hlength, htake⟩ := @ih ret1 (pp + 1) (by omega)
    refine ⟨ret', ?_, hlength.trans hlength1, @take_two_steps _ _ _ _ [c] text htake1 htake⟩
    rw [convampsFill_plain hc, hstore, Option.bind_some, hfill]
  | @amp out text _ ih =>
    rw [length_append] at hroom
    have hfits : pp + (inn ++ [0]).length ≤ ret.length := by
      rw [length_append, length_singleton]
      omega
    obtain ⟨ret1, hstore, hlength1, htake1⟩ := Cells.storeAll_spec hfits
    obtain ⟨ret', hfill, hlength, htake⟩ := @ih ret1 (pp + inn.length) (by omega)
    have hinn := htake1 inn.length (by rw [length_append]; omega)
    rw [take_left'] at hinn
    · refine ⟨ret', ?_, hlength.trans hlength1, take_two_steps hinn htake⟩
      rw [convampsFill_amp, hstore, Option.bind_some, hfill]
    · rfl
  | @pair d out text _ ih =>
    rw [length_cons] at hroom
    obtain ⟨ret1, hstore, hlength1, htake1⟩ := @Cells.store_spec _ ret pp (by omega) d
    obtain ⟨ret', hfill, hlength, htake⟩ := @ih ret1 (pp + 1) (by omega)
    refine ⟨ret', ?_, hlength.trans hlength1, @take_two_steps _ _ _ _ [d] text htake1 htake⟩
    rw [convampsFill, if_pos rfl, hstore, Option.bind_some, hfill]

theorem convampsFill_length {inn out : Bytes} {ret ret' : Cells UInt8} {pp : ℕ}
    (h : convampsFill inn ret pp out = some ret') : ret'.length = ret.length := by
  induction out using List.twoStepInduction generalizing ret pp with
  | nil => exact Cells.store_length h
  | singleton c =>
    rw [convampsFill] at h
    split at h
    · cases h
    · split at h
      · obtain ⟨r, hstore, h⟩ := Option.bind_eq_some_iff.mp h
        exact (Cells.store_length h).trans (Cells.storeAll_length hstore)
      · obtain ⟨r, hstore, h⟩ := Option.bind_eq_some_iff.mp h
        exact (Cells.store_length h).trans (Cells.store_length hstore)
  | cons_cons c d out ih ihd =>
    rw [convampsFill] at h
    split at h
    · obtain ⟨r, hstore, h⟩ := Option.bind_eq_some_iff.mp h
      exact (ih h).trans (Cells.store_length hstore)
    · split at h
      · obtain ⟨r, hstore, h⟩ := Option.bind_eq_some_iff.mp h
        exact (ihd d h).trans (Cells.storeAll_length hstore)
      · obtain ⟨r, hstore, h⟩ := Option.bind_eq_some_iff.mp h
        exact (ihd d h).trans (Cells.store_length hstore)

theorem Expands.eq_self {inn out text : Bytes} (h : Expands inn out text)
    (hplain : expandable out = false) : text = out := by
  induction h with
  | nil => rfl
  | plain hc _ ih =>
    rw [expandable, any_cons, Bool.or_eq_false_iff] at hplain
    rw [ih hplain.2]
  | amp _ _ => simp [expandable] at hplain
  | pair _ _ => simp [expandable] at hplain

/-- `convamps` returns exactly the memory of the expansion where its size is an `int`. -/
theorem Expands.convamps_iff {inn out text : Bytes} (h : Expands inn out text) :
    convamps out inn = some ((text ++ [0]).map some) ↔
      (expandable out = true → intCount (text.length + 1)) := by
  have hcount := h.count 0 false
  rw [Nat.zero_add, Bool.false_or] at hcount
  rw [convamps, hcount, Option.bind_some]
  dsimp only
  cases hplain : expandable out with
  | false =>
    rw [if_pos rfl, h.eq_self hplain]
    exact ⟨fun _ hfalse ↦ (Bool.false_ne_true hfalse).elim, fun _ ↦ rfl⟩
  | true =>
    rw [if_neg (by decide : ¬ true = false)]
    constructor
    · intro hcells _
      rw [← wrapped_int_eq_iff]
      unfold Cells.sized at hcells
      by_cases hpos : 0 ≤ wrapped 32 (text.length + 1 : ℕ)
      · rw [if_pos hpos, Option.bind_some] at hcells
        have hlength := convampsFill_length hcells
        rw [length_map, length_append, length_singleton, Cells.fresh,
          List.length_replicate] at hlength
        omega
      · rw [if_neg hpos] at hcells
        cases hcells
    · intro hsize
      have hroom : 0 + text.length + 1 ≤ (Cells.fresh (text.length + 1) : Cells UInt8).length := by
        rw [Nat.zero_add, Cells.fresh, List.length_replicate]
      obtain ⟨ret', hfill, hlength, htake⟩ := h.fill hroom
      rw [Cells.sized_of_intCount (hsize rfl), Option.bind_some, hfill]
      rw [take_of_length_le] at htake
      · rw [htake, take_zero, nil_append]
      · rw [hlength, Nat.zero_add, Cells.fresh, List.length_replicate]

theorem Expands.zero_notMem {inn out text : Bytes} (h : Expands inn out text)
    (hinn : (0 : UInt8) ∉ inn) (hout : (0 : UInt8) ∉ out) : (0 : UInt8) ∉ text := by
  induction h with
  | nil => exact hout
  | plain _ _ ih =>
    rw [mem_cons, not_or] at hout ⊢
    exact ⟨hout.1, ih hout.2⟩
  | amp _ ih =>
    rw [mem_cons, not_or] at hout
    rw [mem_append, not_or]
    exact ⟨hinn, ih hout.2⟩
  | pair _ ih =>
    rw [mem_cons, mem_cons, not_or, not_or] at hout
    rw [mem_cons, not_or]
    exact ⟨hout.2.1, ih hout.2.2⟩

theorem stringAt_text {text : Bytes} (h : (0 : UInt8) ∉ text) :
    stringAt ((text ++ [0]).map some) = some text := by
  induction text with
  | nil => rfl
  | cons c text ih =>
    rw [mem_cons, not_or] at h
    rw [cons_append, map_cons, stringAt, if_neg (Ne.symm h.1), ih h.2, Option.map_some]

/-! ## The replacement -/

theorem exists_firstIn {inn text found : Bytes} (hinn : inn ≠ [])
    (h : Bytes.strstr inn text = some found) :
    ∃ before rest, FirstIn inn text before rest ∧
      text.length - found.length = before.length := by
  obtain ⟨rest, rfl, before, htext, hfirst⟩ := (Bytes.strstr_eq_some_iff hinn).mp h
  refine ⟨before, rest, ⟨htext, hfirst⟩, ?_⟩
  rw [htext, append_assoc, length_append, Nat.add_sub_cancel]

theorem not_infix_of_strstr {inn text : Bytes} (h : Bytes.strstr inn text = none) :
    ¬ inn <:+: text := by
  rw [← Bytes.strstr_isSome_iff, h]
  exact Bool.false_ne_true

/-- The loop goes on behind what it has put in; what is left gets shorter with every round. -/
theorem substLoop_spec {inn sptr : Bytes} (hinn : inn ≠ []) (gbal : Bool) {turns : ℕ}
    {done text before rest : Bytes} (hfirst : FirstIn inn text before rest)
    (hturns : text.length < turns) :
    ∃ text', Replaces inn sptr gbal text text' ∧
      substLoop inn sptr gbal turns (done ++ text) (done.length + before.length) =
        some (done ++ text') := by
  induction turns generalizing done text before rest with
  | zero => exact absurd hturns (Nat.not_lt_zero _)
  | succ turns ih =>
    have htext := hfirst.text_eq
    have hcut : (done ++ text).take (done.length + before.length) = done ++ before := by
      rw [htext, append_assoc, ← append_assoc, take_left']
      rw [length_append]
    have hrest : (done ++ text).drop (done.length + before.length + inn.length) = rest := by
      rw [htext, ← append_assoc, drop_left']
      rw [length_append, length_append, Nat.add_assoc]
    have hbehind : (done ++ before ++ sptr ++ rest).drop
        (done.length + before.length + sptr.length) = rest := by
      apply drop_left'
      rw [length_append, length_append]
    rw [substLoop, hcut, hrest]
    cases gbal with
    | false =>
      refine ⟨_, .once hfirst, ?_⟩
      rw [if_neg Bool.false_ne_true, append_assoc, append_assoc, append_assoc]
    | true =>
      rw [if_pos rfl, hbehind]
      cases hfound : Bytes.strstr inn rest with
      | none =>
        refine ⟨_, .again hfirst (.never (not_infix_of_strstr hfound)), ?_⟩
        rw [append_assoc, append_assoc, append_assoc]
      | some found =>
        obtain ⟨before', rest', hfirst', hplace⟩ := exists_firstIn hinn hfound
        have hshort : rest.length < turns := by
          have hlength := congrArg List.length htext
          have hpos := List.length_pos_iff.mpr hinn
          rw [length_append, length_append] at hlength
          omega
        have hle : found.length ≤ rest.length := by
          obtain ⟨tail, rfl, front, htail, -⟩ := (Bytes.strstr_eq_some_iff hinn).mp hfound
          rw [htail, append_assoc, @length_append _ front]
          exact Nat.le_add_left _ _
        have hlength : (done ++ before ++ sptr ++ rest).length - found.length =
            (done ++ before ++ sptr).length + before'.length := by
          rw [length_append, Nat.add_sub_assoc hle, hplace]
        obtain ⟨text', hreplaces, hloop⟩ := @ih _ _ _ _ hfirst' hshort
        refine ⟨_, .again hfirst hreplaces, ?_⟩
        dsimp only
        rw [hlength, hloop, append_assoc, append_assoc, append_assoc]

/-- `subst` does what it is for exactly when there is nothing to replace, or when an even number of
backslashes ends the replacement and the size of what is expanded is an `int`. -/
theorem substRight_iff (str : Bytes) (inn out : HistText) (gbal : Bool) (hinn : inn.1 ≠ []) :
    SubstRight str inn.1 out.1 gbal ↔
      (inn.1 <:+: str → Even (trailing out.1) ∧ ∀ text, Expands inn.1 out.1 text →
        expandable out.1 = true → intCount (text.length + 1)) := by
  by_cases hoccurs : inn.1 <:+: str
  · rw [forall_prop_of_true hoccurs, ← exists_expands_iff inn.1]
    constructor
    · rintro (⟨hnot, -⟩ | ⟨-, text, hexpands, hcells, -⟩)
      · exact absurd hoccurs hnot
      · refine ⟨⟨text, hexpands⟩, fun text' h ↦ ?_⟩
        rw [h.length_eq hexpands]
        exact hexpands.convamps_iff.mp hcells
    · rintro ⟨⟨text, hexpands⟩, hsize⟩
      have hcells := hexpands.convamps_iff.mpr (hsize text hexpands)
      refine .inr ⟨hoccurs, text, hexpands, hcells, ?_⟩
      obtain ⟨found, hfound⟩ := Option.isSome_iff_exists.mp
        ((Bytes.strstr_isSome_iff inn.1 str).mpr hoccurs)
      obtain ⟨before, rest, hfirst, hplace⟩ := exists_firstIn hinn hfound
      obtain ⟨str', hreplaces, hloop⟩ :=
        @substLoop_spec _ text hinn gbal _ [] _ _ _ hfirst (Nat.lt_succ_self _)
      refine ⟨str', hreplaces, ?_⟩
      have htext := stringAt_text (hexpands.zero_notMem inn.2 out.2)
      rw [nil_append, length_nil, Nat.zero_add, nil_append] at hloop
      rw [subst, if_neg hinn, if_neg hinn, hfound]
      dsimp only
      rw [hcells, Option.bind_some, htext, Option.bind_some, hplace, hloop, Option.map_some]
  · refine ⟨fun _ h ↦ absurd h hoccurs, fun _ ↦ .inl ⟨hoccurs, ?_⟩⟩
    have hnone : Bytes.strstr inn.1 str = none := by
      rw [← Option.not_isSome_iff_eq_none, Bytes.strstr_isSome_iff]
      exact hoccurs
    rw [subst, if_neg hinn, if_neg hinn, hnone]

theorem substRight_ampersand :
    SubstRight (Bytes.ascii "aba") (Bytes.ascii "a") (Bytes.ascii "<&\\&>") true :=
  (substRight_iff (Bytes.ascii "aba") ⟨Bytes.ascii "a", by decide⟩
    ⟨Bytes.ascii "<&\\&>", by decide⟩ true (by decide)).mpr fun _ ↦
      ⟨by decide, fun text h _ ↦ by
        have hcount := h.count 0 false
        have hlength : 4 = 0 + text.length := congrArg Prod.fst (Option.some.inj hcount)
        rw [← Nat.zero_add text.length, ← hlength]
        decide⟩

/-- The modifier `:s/b/c\\/` puts in a text that ends in one backslash. -/
theorem not_substRight_backslash :
    ¬ SubstRight (Bytes.ascii "ab") (Bytes.ascii "b") (Bytes.ascii "c\\") false := by
  rintro (⟨hnever, -⟩ | ⟨-, text, hexpands, -⟩)
  · exact hnever ⟨[char 'a'], [], rfl⟩
  · cases hexpands with
    | plain _ hexpands =>
      cases hexpands with
      | plain hne _ => exact hne.1 rfl

end Bsh.Hist
