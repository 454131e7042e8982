import Mathlib.Data.List.Basic
import Mathlib.Data.List.Infix
import Mathlib.Data.Nat.Basic
import Mathlib.Tactic.Ring

/-!
# Byte strings

Byte strings are lists of `UInt8`.  This module supplies the fixed-width integer encodings with
their injectivity on the encodable range, and the C-string operations `strlen`-truncation and
`strstr`.
-/

namespace Bsh.Library

open List

/-- A byte string. -/
abbrev Bytes := List UInt8

namespace Bytes

instance : LawfulBEq Bytes := inferInstance

/-- The bytes of an ASCII literal. -/
def ascii (text : String) : Bytes :=
  text.toList.map fun c ↦ UInt8.ofNat c.toNat

/-- A property of the bytes of a string is checked one by one. -/
instance (priority := 2000) decidableForall (p : UInt8 → Prop) [DecidablePred p] (l : Bytes) :
    Decidable (∀ c ∈ l, p c) := List.decidableBAll p l

theorem forall_byte {P : UInt8 → Prop} (h : ∀ n < 256, P (UInt8.ofNat n)) (c : UInt8) : P c := by
  have hc := h c.toNat c.toNat_lt
  rwa [UInt8.ofNat_toNat] at hc

/-! ## Fixed-width integers -/

/-- The `width` least significant bytes of `n`, least significant first. -/
def littleEndian : ℕ → ℕ → Bytes
  | 0, _ => []
  | width + 1, n => UInt8.ofNat n :: littleEndian width (n / 256)

/-- The `width` least significant bytes of `n`, most significant first. -/
def bigEndian (width n : ℕ) : Bytes := (littleEndian width n).reverse

@[simp]
theorem littleEndian_length (width n : ℕ) : (littleEndian width n).length = width := by
  induction width generalizing n with
  | zero => rfl
  | succ width ih => simp [littleEndian, ih]

@[simp]
theorem bigEndian_length (width n : ℕ) : (bigEndian width n).length = width := by
  simp [bigEndian]

theorem littleEndian_injective {width m n : ℕ} (hm : m < 256 ^ width) (hn : n < 256 ^ width)
    (h : littleEndian width m = littleEndian width n) : m = n := by
  induction width generalizing m n with
  | zero =>
    omega
  | succ width ih =>
    obtain ⟨hhead, htail⟩ := List.cons.inj h
    have hquot := ih (by omega) (by omega) htail
    have hrem : m % 256 = n % 256 := by
      simpa using congrArg UInt8.toNat hhead
    omega

theorem bigEndian_injective {width m n : ℕ} (hm : m < 256 ^ width) (hn : n < 256 ^ width)
    (h : bigEndian width m = bigEndian width n) : m = n :=
  littleEndian_injective hm hn (reverse_injective h)

/-! ## C strings -/

/-- What a C function reads of a buffer: the bytes before the first NUL. -/
def cString (buffer : Bytes) : Bytes := buffer.takeWhile (· ≠ 0)

theorem cString_eq_self {buffer : Bytes} (h : ∀ b ∈ buffer, b ≠ 0) : cString buffer = buffer := by
  induction buffer with
  | nil => rfl
  | cons c rest ih =>
    have hc : c ≠ 0 := h c (by simp)
    have hrest := ih fun b hb ↦ h b (mem_cons_of_mem c hb)
    rw [cString, takeWhile_cons, if_pos (by simpa using hc)]
    exact congrArg (c :: ·) hrest

/-- `strstr`: the part of `text` that starts with the first occurrence of `needle`. -/
def strstr (needle : Bytes) : Bytes → Option Bytes
  | [] => if needle = [] then some [] else none
  | c :: rest => if needle.isPrefixOf (c :: rest) then some (c :: rest) else strstr needle rest

theorem strstr_isSome_iff (needle text : Bytes) :
    (strstr needle text).isSome ↔ needle <:+: text := by
  induction text with
  | nil =>
    by_cases h : needle = [] <;> simp [strstr, h]
  | cons c rest ih =>
    rw [strstr, infix_cons_iff]
    by_cases h : needle.isPrefixOf (c :: rest)
    · simp [h, List.isPrefixOf_iff_prefix.mp h]
    · rw [if_neg h, ih]
      have hhead : ¬ needle <+: c :: rest := fun hp ↦ h (List.isPrefixOf_iff_prefix.mpr hp)
      simp [hhead]

/-- The first place of a word in a text, with what follows it there. -/
def FirstPlace (word text rest : Bytes) : Prop :=
  ∃ before, text = before ++ word ++ rest ∧
    ∀ early late, text = early ++ word ++ late → before.length ≤ early.length

theorem strstr_eq_some_iff {word text found : Bytes} (hword : word ≠ []) :
    strstr word text = some found ↔ ∃ rest, found = word ++ rest ∧ FirstPlace word text rest := by
  induction text with
  | nil =>
    rw [strstr, if_neg hword]
    constructor
    · exact fun h ↦ nomatch h
    · rintro ⟨rest, -, before, h, -⟩
      exact absurd (List.append_eq_nil_iff.mp (List.append_eq_nil_iff.mp h.symm).1).2 hword
  | cons c text ih =>
    rw [strstr]
    by_cases hhead : word.isPrefixOf (c :: text)
    · obtain ⟨rest, hrest⟩ := List.isPrefixOf_iff_prefix.mp hhead
      rw [if_pos hhead, Option.some.injEq]
      constructor
      · rintro rfl
        exact ⟨rest, hrest.symm, [], hrest.symm, fun _ _ _ ↦ Nat.zero_le _⟩
      · rintro ⟨rest', rfl, before, htext, hfirst⟩
        obtain rfl : before = [] := List.length_eq_zero_iff.mp
          (Nat.le_zero.mp (hfirst [] rest hrest.symm))
        exact htext
    · rw [if_neg hhead, ih]
      have hnot {early late : Bytes} (h : c :: text = early ++ word ++ late) :
          ∃ early', early = c :: early' ∧ text = early' ++ word ++ late := by
        cases early with
        | nil => exact absurd (List.isPrefixOf_iff_prefix.mpr ⟨late, h.symm⟩) hhead
        | cons d early =>
          obtain ⟨rfl, htext⟩ := List.cons.inj h
          exact ⟨early, rfl, htext⟩
      constructor
      · rintro ⟨rest, hfound, before, rfl, hfirst⟩
        refine ⟨rest, hfound, c :: before, rfl, fun early late h ↦ ?_⟩
        obtain ⟨early, rfl, htext⟩ := hnot h
        exact Nat.succ_le_succ (hfirst early late htext)
      · rintro ⟨rest, hfound, before, htext, hfirst⟩
        obtain ⟨before, rfl, rfl⟩ := hnot htext
        exact ⟨rest, hfound, before, rfl, fun early late h ↦
          Nat.le_of_succ_le_succ (hfirst (c :: early) late (congrArg (c :: ·) h))⟩

/-- The double quote. -/
abbrev quote : UInt8 := 0x22

/-- A word between double quotes. -/
def quoted (word : Bytes) : Bytes := quote :: word ++ [quote]

/-- A byte string without a double quote. -/
def QuoteFree (text : Bytes) : Prop := ∀ b ∈ text, b ≠ quote

instance (text : Bytes) : Decidable (QuoteFree text) :=
  inferInstanceAs (Decidable (∀ b ∈ text, b ≠ quote))

end Bytes

end Bsh.Library
