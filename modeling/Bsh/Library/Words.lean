import Bsh.Library.Bytes

/-!
# Words in either byte order

Machines store words of 32 bits with the least or the most significant byte first.  Reversing the
bytes of a word changes from one order to the other.
-/

namespace Bsh.Library

open List

inductive ByteOrder where
  | little
  | big
deriving DecidableEq

namespace ByteOrder

/-- The other order. -/
def swap : ByteOrder → ByteOrder
  | little => big
  | big => little

/-- The bytes of a word. -/
def word : ByteOrder → ℕ → Bytes
  | little, n => Bytes.littleEndian 4 n
  | big, n => Bytes.bigEndian 4 n

/-- The number with these digits, the least significant first. -/
def ofDigits : Bytes → ℕ
  | [] => 0
  | b :: rest => b.toNat + 256 * ofDigits rest

/-- The word with these bytes. -/
def value : ByteOrder → Bytes → ℕ
  | little, b => ofDigits b
  | big, b => ofDigits b.reverse

/-- The bytes of several words. -/
def words (o : ByteOrder) (l : List ℕ) : Bytes := l.flatMap o.word

/-- The word with the number `i` of a memory; `none` is outside of it. -/
def wordAt (o : ByteOrder) (b : Bytes) (i : ℕ) : Option ℕ :=
  if 4 * i + 4 ≤ b.length then some (o.value ((b.drop (4 * i)).take 4)) else none

/-- The bytes of each of the first words are reversed. -/
def swapWords : ℕ → Bytes → Bytes
  | 0, b => b
  | n + 1, b => (b.take 4).reverse ++ swapWords n (b.drop 4)

variable (o : ByteOrder)

@[simp]
theorem swap_swap : o.swap.swap = o := by cases o <;> rfl

theorem eq_or_eq_swap (o' : ByteOrder) : o' = o ∨ o' = o.swap := by
  cases o <;> cases o' <;> simp [swap]

@[simp]
theorem word_length (n : ℕ) : (o.word n).length = 4 := by cases o <;> simp [word]

theorem word_reverse (n : ℕ) : (o.word n).reverse = o.swap.word n := by
  cases o with
  | little => rfl
  | big => exact reverse_reverse _

theorem ofDigits_littleEndian (width n : ℕ) (hn : n < 256 ^ width) :
    ofDigits (Bytes.littleEndian width n) = n := by
  induction width generalizing n with
  | zero =>
    rw [Bytes.littleEndian, ofDigits]
    omega
  | succ width ih =>
    rw [Bytes.littleEndian, ofDigits, ih _ (by omega), UInt8.toNat_ofNat']
    omega

theorem value_word {n : ℕ} (hn : n < 2 ^ 32) : o.value (o.word n) = n := by
  have hn' : n < 256 ^ 4 := by
    exact hn
  cases o with
  | little => exact ofDigits_littleEndian 4 n hn'
  | big =>
    exact ofDigits_littleEndian 4 n hn'

@[simp]
theorem words_length (l : List ℕ) : (o.words l).length = 4 * l.length := by
  induction l with
  | nil => rfl
  | cons n l ih =>
    rw [words, flatMap_cons, length_append, word_length, length_cons]
    rw [words] at ih
    omega

theorem words_cons (n : ℕ) (l : List ℕ) : o.words (n :: l) = o.word n ++ o.words l := by
  rfl

/-- Reversing the bytes of the words changes their order. -/
theorem swapWords_words (l : List ℕ) (rest : Bytes) :
    swapWords l.length (o.words l ++ rest) = o.swap.words l ++ rest := by
  induction l with
  | nil => rfl
  | cons n l ih =>
    rw [length_cons, swapWords, words_cons, words_cons, append_assoc, append_assoc,
      take_left' (o.word_length n), drop_left' (o.word_length n), word_reverse, ih]

theorem wordAt_words {before rest : Bytes} {l : List ℕ} {k i n : ℕ} (hbefore : before.length = 4 * k)
    (hi : l[i]? = some n) (hn : n < 2 ^ 32) :
    o.wordAt (before ++ (o.words l ++ rest)) (k + i) = some n := by
  induction l generalizing before k i with
  | nil => exact nomatch hi
  | cons m l ih =>
    cases i with
    | zero =>
      obtain rfl : m = n := by simpa using hi
      have hroom : 4 * (k + 0) + 4 ≤ (before ++ (o.words (m :: l) ++ rest)).length := by
        rw [words_cons, length_append, length_append, length_append, word_length]
        omega
      rw [wordAt, if_pos hroom, Nat.add_zero, drop_left' hbefore, words_cons,
        append_assoc, take_left' (o.word_length m), value_word o hn]
    | succ i =>
      have hsplit : before ++ (o.words (m :: l) ++ rest) =
          (before ++ o.word m) ++ (o.words l ++ rest) := by
        rw [words_cons, append_assoc, append_assoc]
      have hlength : (before ++ o.word m).length = 4 * (k + 1) := by
        rw [length_append, hbefore, word_length]
        omega
      have hindex : k + (i + 1) = (k + 1) + i := by omega
      rw [hsplit, hindex]
      exact ih hlength (by simpa using hi)

end ByteOrder

end Bsh.Library
