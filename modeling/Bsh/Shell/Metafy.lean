import Bsh.Library.Bytes
import Bsh.Library.EscapeCode
import Mathlib.Logic.Relation

/-!
# Metafied strings

Inside the shell, NUL and the bytes that serve as tokens are written as a pair of `Meta` and the
byte with its bit 32 flipped.  `metafy` expands a buffer in place from its end; `unmetafy`,
`unmeta`, `ztrlen`, `metalen` and `ztrsub` walk the pairs forwards.  Memory is the list of the
bytes from the pointer on; an access behind its end has no result.
-/

namespace Bsh.Shell

open Bsh.Library List

/-! ## The encoding -/

/-- `Meta`, the tokens up to `Bang`, the null arguments and `Marker`. -/
def metaByte : UInt8 := 0x83
def poundToken : UInt8 := 0x84
def bangToken : UInt8 := 0x9C
def snullToken : UInt8 := 0x9D
def nulargToken : UInt8 := 0xA1
def markerByte : UInt8 := 0xA2

/-- `imeta`, from the entries that `inittyptab` makes. -/
def imeta (c : UInt8) : Bool :=
  c = 0 || c = metaByte || c = markerByte || (poundToken ≤ c && c ≤ bangToken) ||
    (snullToken ≤ c && c ≤ nulargToken)

set_option maxRecDepth 4000 in
/-- The pairs of `Meta` and a byte. -/
def metaCode : EscapeCode UInt8 where
  special := imeta
  marker := metaByte
  flip c := c ^^^ 32
  special_marker := rfl
  flip_flip c := by
    rw [UInt8.xor_assoc, UInt8.xor_self, UInt8.xor_zero]
  flip_special := Bytes.forall_byte (by decide)

/-- The metafied form of a byte string. -/
def metafied (b : Bytes) : Bytes := metaCode.encode b

variable {buf tail : Bytes} {c : UInt8} {k : ℕ} {len : Option ℕ} {s : Expansion} (b rest : Bytes)

theorem not_imeta_ne_zero (h : imeta c = false) : c ≠ 0 := by
  rintro rfl
  cases h

theorem not_imeta_ne_meta (h : imeta c = false) : c ≠ metaByte := by
  rintro rfl
  cases h

theorem flip_ne_zero (h : imeta c = true) : c ^^^ 32 ≠ 0 :=
  not_imeta_ne_zero (metaCode.flip_special c h)

theorem zero_not_mem_metafied : 0 ∉ metafied b :=
  (metaCode.wellFormed_encode b).not_mem rfl (by decide)

/-! ## `metafy` -/

/-- How `metafy` allocates. -/
inductive MetaHeap where
  | realloc
  | useheap
  | static
  | alloc
  | noalloc
  | dup
  | heapdup
  | hrealloc
  deriving DecidableEq

/-- `PATH_MAX`. -/
def pathMax : ℕ := 4096

/-- The area of the result and the cursors of the loop of `metafy`: `p` behind what is unread, `t`
before what is written, `meta` pairs to go. -/
structure Expansion where
  area : Bytes
  p : ℕ
  t : ℕ
  pairs : ℕ

/-- One turn of the loop. -/
def Expansion.step (s : Expansion) : Option Expansion :=
  if s.p = 0 ∨ s.t = 0 ∨ s.area.length < s.t then none
  else
    match s.area[s.p - 1]? with
    | none => none
    | some c =>
      let area := s.area.set (s.t - 1) c
      if imeta c then
        if s.t = 1 then none
        else some ⟨(area.set (s.t - 1) (c ^^^ 32)).set (s.t - 2) metaByte, s.p - 1, s.t - 2,
          s.pairs - 1⟩
      else some ⟨area, s.p - 1, s.t - 1, s.pairs⟩

/-- The loop: as long as there are pairs to go. -/
def Expansion.run : ℕ → Expansion → Option Expansion
  | 0, s => if s.pairs = 0 then some s else none
  | turns + 1, s => if s.pairs = 0 then some s else s.step.bind (Expansion.run turns)

/-- The area in which the expansion starts; new memory holds any bytes. -/
def metaArea (fresh : UInt8) (buf : Bytes) (len pairs : ℕ) : MetaHeap → Bytes
  | .noalloc => buf
  | .static => buf.take len ++ List.replicate (pathMax * 2 + 1 - len) fresh
  | _ => buf.take len ++ List.replicate (pairs + 1) fresh

/-- `*e = '\0'`. -/
def terminate (area : Bytes) (e : ℕ) : Option Bytes :=
  if e < area.length then some (area.set e 0) else none

/-- `metafy`; a length -1 is `none`. -/
def metafy (fresh : UInt8) (buf : Bytes) (len : Option ℕ) (heap : MetaHeap) : Option Bytes :=
  match len.or (buf.findIdx? (· = 0)) with
  | none => none
  | some len =>
    let pairs := (buf.take len).countP imeta
    if pairs ≠ 0 ∨ heap = .dup ∨ heap = .heapdup then
      match Expansion.run len ⟨metaArea fresh buf len pairs heap, len, len + pairs, pairs⟩ with
      | none => none
      | some s => terminate s.area (len + pairs)
    else terminate buf len

/-! ## The other direction -/

/-- The loop of `unmetafy` behind the first `Meta`. -/
def unmetafyFrom : ℕ → Bytes → ℕ → ℕ → Option (Bytes × ℕ)
  | 0, _, _, _ => none
  | turns + 1, mem, t, p =>
    match mem[p]? with
    | none => none
    | some c =>
      let mem := mem.set t c
      if c = 0 then some (mem, t)
      else if c = metaByte then
        match mem[p + 1]? with
        | none => none
        | some d =>
          if d ≠ 0 then unmetafyFrom turns (mem.set t (d ^^^ 32)) (t + 1) (p + 2)
          else unmetafyFrom turns mem (t + 1) (p + 1)
      else unmetafyFrom turns mem (t + 1) (p + 1)

/-- `unmetafy`, with the length. -/
def unmetafy (mem : Bytes) : Option (Bytes × ℕ) :=
  match mem.findIdx? fun c ↦ c = 0 || c = metaByte with
  | none => none
  | some p => unmetafyFrom mem.length mem p p

/-- The copying loop of `unmeta`. -/
def unmetaCopy : Bytes → Option Bytes
  | [] => none
  | [c] => if c = 0 then some [0] else none
  | c :: d :: rest =>
    if c = 0 then some [0]
    else if c = metaByte ∧ d ≠ 0 then (unmetaCopy rest).map ((d ^^^ 32) :: ·)
    else (unmetaCopy (d :: rest)).map (c :: ·)

/-- `unmeta`: what is written at the result, or the name itself where nothing is to be done. -/
def unmeta (mem : Bytes) : Option Bytes :=
  match mem.findIdx? (· = 0) with
  | none => none
  | some len =>
    if metaByte ∈ mem.take len then unmetaCopy mem else some (mem.take (len + 1))

/-- `ztrlen`. -/
def ztrlen : Bytes → Option ℕ
  | [] => none
  | [c] => if c = 0 then some 0 else none
  | c :: d :: rest =>
    if c = 0 then some 0
    else if c = metaByte then (ztrlen rest).map (· + 1)
    else (ztrlen (d :: rest)).map (· + 1)

/-- The loop of `metalen`. -/
def metalenFrom : ℕ → Bytes → ℕ → Option ℕ
  | 0, _, mlen => some mlen
  | _ + 1, [], _ => none
  | len + 1, c :: rest, mlen =>
    if c = metaByte then metalenFrom len rest.tail (mlen + 1) else metalenFrom len rest mlen

/-- `metalen`. -/
def metalen (s : Bytes) (len : ℕ) : Option ℕ := metalenFrom len s len

/-- The loop of `ztrsub`, with the distance between the pointers. -/
def ztrsubFrom : ℕ → Bytes → ℤ → Option ℤ
  | 0, _, l => some l
  | _ + 1, [], _ => none
  -- Past a pair that the end point cuts in two, the loop goes on to the end of the memory.
  | 1, c :: rest, l => if c = metaByte then none else ztrsubFrom 0 rest l
  | distance + 2, c :: rest, l =>
    if c = metaByte then ztrsubFrom distance rest.tail (l - 1)
    else ztrsubFrom (distance + 1) rest l

/-- `ztrsub` of two pointers into a string. -/
def ztrsub (mem : Bytes) (t s : ℕ) : Option ℤ := ztrsubFrom (t - s) (mem.drop s) (t - s : ℕ)

/-! ## Lengths -/

theorem metafied_cons_special (hc : imeta c = true) (b rest : Bytes) :
    metafied (c :: b) ++ rest = metaByte :: (c ^^^ 32) :: (metafied b ++ rest) := by
  unfold metafied
  rw [EscapeCode.encode_cons, EscapeCode.unit_special metaCode hc]
  rfl

theorem metafied_cons_plain (hc : imeta c = false) (b rest : Bytes) :
    metafied (c :: b) ++ rest = c :: (metafied b ++ rest) := by
  unfold metafied
  rw [EscapeCode.encode_cons, EscapeCode.unit_plain metaCode hc]
  rfl

theorem length_metafied : (metafied b).length = b.length + b.countP imeta :=
  metaCode.length_encode b

theorem metafied_append (b' : Bytes) : metafied (b ++ b') = metafied b ++ metafied b' :=
  metaCode.encode_append b b'

theorem ztrlen_zero : ztrlen (0 :: rest) = some 0 := by
  cases rest <;> rfl

theorem ztrlen_plain (hc : imeta c = false) (rest : Bytes) :
    ztrlen (c :: rest) = (ztrlen rest).map (· + 1) := by
  have hzero := not_imeta_ne_zero hc
  have hmeta := not_imeta_ne_meta hc
  cases rest with
  | nil => simp [ztrlen, hzero]
  | cons d rest => simp [ztrlen, hzero, hmeta]

theorem ztrlen_metafied : ztrlen (metafied b ++ 0 :: rest) = some b.length := by
  induction b with
  | nil => exact ztrlen_zero rest
  | cons c b ih =>
    cases hc : imeta c with
    | true =>
      rw [metafied_cons_special hc, ztrlen, if_neg (by decide), if_pos rfl, ih]
      rfl
    | false =>
      rw [metafied_cons_plain hc, ztrlen_plain hc, ih]
      rfl

theorem metalenFrom_metafied (hk : k ≤ b.length) (mlen : ℕ) :
    metalenFrom k (metafied b ++ rest) mlen = some (mlen + (b.take k).countP imeta) := by
  induction b generalizing k mlen with
  | nil =>
    obtain rfl : k = 0 := by simpa using hk
    rfl
  | cons c b ih =>
    cases k with
    | zero => rfl
    | succ k =>
      have hk' : k ≤ b.length := Nat.le_of_succ_le_succ hk
      cases hc : imeta c with
      | true =>
        rw [metafied_cons_special hc, metalenFrom, if_pos rfl, tail_cons, ih hk',
          take_succ_cons, countP_cons_of_pos hc]
        congr 1
        omega
      | false =>
        rw [metafied_cons_plain hc, metalenFrom, if_neg (not_imeta_ne_meta hc), ih hk',
          take_succ_cons, countP_cons_of_neg (by simp [hc])]

theorem metalen_metafied (hk : k ≤ b.length) :
    metalen (metafied b ++ rest) k = some (metafied (b.take k)).length := by
  unfold metalen
  rw [metalenFrom_metafied b rest hk, length_metafied, length_take, Nat.min_eq_left hk]

theorem ztrsubFrom_plain (hc : imeta c = false) (distance : ℕ) (rest : Bytes)
    (l : ℤ) : ztrsubFrom (distance + 1) (c :: rest) l = ztrsubFrom distance rest l := by
  have hmeta := not_imeta_ne_meta hc
  cases distance with
  | zero => simp [ztrsubFrom, hmeta]
  | succ distance => simp [ztrsubFrom, hmeta]

theorem ztrsubFrom_metafied (l : ℤ) :
    ztrsubFrom (metafied b).length (metafied b ++ rest) l = some (l - b.countP imeta) := by
  induction b generalizing l with
  | nil => simp [metafied, ztrsubFrom]
  | cons c b ih =>
    cases hc : imeta c with
    | true =>
      have hlength : (metafied (c :: b)).length = (metafied b).length + 2 := by
        rw [length_metafied, length_metafied, countP_cons_of_pos hc, length_cons]
        omega
      rw [hlength, metafied_cons_special hc, ztrsubFrom, if_pos rfl, tail_cons, ih,
        countP_cons_of_pos hc]
      push_cast
      ring
    | false =>
      have hlength : (metafied (c :: b)).length = (metafied b).length + 1 := by
        rw [length_metafied, length_metafied, countP_cons_of_neg (by simp [hc]),
          length_cons]
        omega
      rw [hlength, metafied_cons_plain hc, ztrsubFrom_plain hc, ih,
        countP_cons_of_neg (by simp [hc])]

theorem ztrsub_metafied (hk : k ≤ b.length) :
    ztrsub (metafied b ++ rest) (metafied (b.take k)).length 0 = some (k : ℤ) := by
  have hsplit : metafied b = metafied (b.take k) ++ metafied (b.drop k) := by
    rw [← metafied_append, List.take_append_drop]
  unfold ztrsub
  rw [drop_zero, Nat.sub_zero, hsplit, append_assoc, ztrsubFrom_metafied,
    length_metafied, length_take, Nat.min_eq_left hk]
  push_cast
  ring

/-! ## Decoding -/

theorem unmetaCopy_metafied :
    unmetaCopy (metafied b ++ 0 :: rest) = some (b ++ [0]) := by
  have hplain {c : UInt8} (hc : imeta c = false) (rest : Bytes) :
      unmetaCopy (c :: rest) = (unmetaCopy rest).map (c :: ·) := by
    have hzero := not_imeta_ne_zero hc
    have hmeta := not_imeta_ne_meta hc
    cases rest with
    | nil => simp [unmetaCopy, hzero]
    | cons d rest => simp [unmetaCopy, hzero, hmeta]
  induction b with
  | nil => cases rest <;> rfl
  | cons c b ih =>
    cases hc : imeta c with
    | true =>
      have hflip : (c ^^^ 32) ^^^ 32 = c := metaCode.flip_flip c
      rw [metafied_cons_special hc, unmetaCopy, if_neg (by decide),
        if_pos ⟨rfl, flip_ne_zero hc⟩, ih, hflip]
      rfl
    | false =>
      rw [metafied_cons_plain hc, hplain hc, ih]
      rfl

theorem metafied_eq_self {b : Bytes} (h : b.countP imeta = 0) : metafied b = b := by
  induction b with
  | nil => rfl
  | cons c b ih =>
    cases hc : imeta c with
    | true => simp [countP_cons_of_pos hc] at h
    | false =>
      rw [countP_cons_of_neg (by simp [hc])] at h
      have hcons := metafied_cons_plain hc b []
      rw [append_nil, append_nil] at hcons
      rw [hcons, ih h]

theorem countP_eq_zero_of_not_mem {b : Bytes} (h : metaByte ∉ metafied b) :
    b.countP imeta = 0 := by
  rw [countP_eq_zero]
  intro c hc hspecial
  apply h
  refine List.mem_flatMap.mpr ⟨c, hc, ?_⟩
  rw [EscapeCode.unit_special metaCode hspecial]
  exact mem_cons_self

theorem findIdx_zero_metafied :
    (metafied b ++ 0 :: rest).findIdx? (· = 0) = some (metafied b).length := by
  rw [List.findIdx?_append, List.findIdx?_eq_none_iff.mpr]
  · simp [List.findIdx?_cons]
  · intro c hc
    refine decide_eq_false ?_
    rintro rfl
    exact zero_not_mem_metafied b hc

theorem unmeta_metafied : unmeta (metafied b ++ 0 :: rest) = some (b ++ [0]) := by
  unfold unmeta
  rw [findIdx_zero_metafied]
  dsimp only
  rw [take_left]
  split
  · exact unmetaCopy_metafied b rest
  · next hmeta =>
    rw [take_length_add_append, metafied_eq_self (countP_eq_zero_of_not_mem hmeta)]
    rfl

theorem set_at_length (a : Bytes) (y : UInt8) (rest : Bytes) (c : UInt8) :
    (a ++ y :: rest).set a.length c = a ++ c :: rest := by
  simp

/-- A write at the start of a gap moves the gap by one. -/
theorem gap_shift (gap : Bytes) (c : UInt8) (rest : Bytes) : ∃ y gap',
    gap ++ c :: rest = y :: (gap' ++ rest) ∧ gap'.length = gap.length := by
  cases gap with
  | nil => exact ⟨c, [], rfl, rfl⟩
  | cons y gap => exact ⟨y, gap ++ [c], by simp, by simp⟩

/-- The loop of `unmetafy`: between what is decoded and what is unread lies a gap. -/
theorem unmetafyFrom_metafied (read unread gap rest : Bytes) {turns : ℕ}
    (hturns : unread.length < turns) : ∃ after,
    unmetafyFrom turns (read ++ (gap ++ (metafied unread ++ 0 :: rest))) read.length
        (read.length + gap.length) =
      some (read ++ unread ++ 0 :: after, (read ++ unread).length) := by
  induction unread generalizing read gap turns with
  | nil =>
    obtain ⟨turns, rfl⟩ : ∃ n, turns = n + 1 := ⟨turns - 1, by omega⟩
    obtain ⟨y, gap', hgap, -⟩ := gap_shift gap 0 rest
    have hread : (read ++ (gap ++ (0 :: rest)))[read.length + gap.length]? = some 0 := by
      simp
    refine ⟨gap' ++ rest, ?_⟩
    show unmetafyFrom (turns + 1) (read ++ (gap ++ (0 :: rest))) _ _ = _
    rw [unmetafyFrom, hread]
    dsimp only
    rw [if_pos rfl, hgap, set_at_length, append_nil]
  | cons c unread ih =>
    obtain ⟨turns, rfl⟩ : ∃ n, turns = n + 1 := ⟨turns - 1, by omega⟩
    have hturns' : unread.length < turns := by
      rw [length_cons] at hturns
      omega
    have hat (d : UInt8) (tail : Bytes) :
        (read ++ (gap ++ (d :: tail)))[read.length + gap.length]? = some d := by
      simp
    cases hc : imeta c with
    | true =>
      rw [metafied_cons_special hc]
      obtain ⟨y, gap', hgap, hlength⟩ :=
        gap_shift gap metaByte _
      have hnext : (read ++ metaByte :: (gap' ++ (c ^^^ 32) :: (metafied unread ++ 0 :: rest)))[
          read.length + gap.length + 1]? = some (c ^^^ 32) := by
        rw [List.getElem?_append_right (by omega)]
        have hindex : read.length + gap.length + 1 - read.length = gap'.length + 1 := by omega
        rw [hindex, List.getElem?_cons_succ, List.getElem?_append_right le_rfl]
        simp
      have hflip : (c ^^^ 32) ^^^ 32 = c := metaCode.flip_flip c
      obtain ⟨after, hafter⟩ := ih (read ++ [c]) (gap' ++ [c ^^^ 32]) hturns'
      refine ⟨after, ?_⟩
      rw [unmetafyFrom, hat]
      dsimp only
      rw [if_neg (by decide), if_pos rfl, hgap, set_at_length, hnext]
      dsimp only
      rw [if_pos (flip_ne_zero hc), set_at_length, hflip]
      convert hafter using 2
      · simp
      · simp
      · simp [hlength]
        omega
      · simp
    | false =>
      rw [metafied_cons_plain hc]
      obtain ⟨y, gap', hgap, hlength⟩ := gap_shift gap c _
      obtain ⟨after, hafter⟩ := ih (read ++ [c]) gap' hturns'
      refine ⟨after, ?_⟩
      rw [unmetafyFrom, hat]
      dsimp only
      rw [if_neg (not_imeta_ne_zero hc), if_neg (not_imeta_ne_meta hc), hgap, set_at_length]
      convert hafter using 2
      · simp
      · simp
      · simp [hlength]
        omega
      · simp

theorem unmetafy_metafied : ∃ after,
    unmetafy (metafied b ++ 0 :: rest) = some (b ++ 0 :: after, b.length) := by
  -- The first scan stops behind the plain prefix.
  have hscan : ∃ read unread, b = read ++ unread ∧ metafied read = read ∧
      (metafied b ++ 0 :: rest).findIdx? (fun c ↦ c = 0 || c = metaByte) = some read.length := by
    induction b with
    | nil => exact ⟨[], [], rfl, rfl, by simp [metafied, List.findIdx?_cons]⟩
    | cons c b ih =>
      cases hc : imeta c with
      | true =>
        refine ⟨[], c :: b, rfl, rfl, ?_⟩
        rw [metafied_cons_special hc, List.findIdx?_cons]
        rfl
      | false =>
        obtain ⟨read, unread, rfl, hread, hindex⟩ := ih
        refine ⟨c :: read, unread, rfl, ?_, ?_⟩
        · have hcons := metafied_cons_plain hc read []
          rw [append_nil, append_nil] at hcons
          rw [hcons, hread]
        · rw [metafied_cons_plain hc, List.findIdx?_cons, if_neg, hindex]
          · rfl
          · simp [not_imeta_ne_zero hc, not_imeta_ne_meta hc]
  obtain ⟨read, unread, rfl, hread, hindex⟩ := hscan
  unfold unmetafy
  rw [hindex]
  have hmem : metafied (read ++ unread) ++ 0 :: rest =
      read ++ ([] ++ (metafied unread ++ 0 :: rest)) := by
    rw [metafied_append, hread, nil_append, append_assoc]
  rw [hmem]
  apply unmetafyFrom_metafied
  rw [length_append, length_append, length_append, length_metafied, length_cons]
  omega

/-! ## Expansion -/

/-- The states of the loop of `metafy` on a string: what is unread stands in front of a gap as wide
as the pairs to go, and behind the gap stands what is metafied. -/
def Expanding (b tail : Bytes) (s : Expansion) : Prop :=
  ∃ unread done gap, b = unread ++ done ∧ s.area = unread ++ (gap ++ (metafied done ++ tail)) ∧
    s.p = unread.length ∧ gap.length = s.pairs ∧ s.t = s.p + s.pairs ∧
    s.pairs = unread.countP imeta

/-- The input that the loop has not read is as it was. -/
theorem Expanding.take_area {b : Bytes} (h : Expanding b tail s) :
    s.area.take s.p = b.take s.p := by
  obtain ⟨unread, done, gap, rfl, harea, hp, -⟩ := h
  rw [harea, hp, take_left, take_left]

theorem expanding_step {b : Bytes} (h : Expanding b tail s)
    (hpairs : s.pairs ≠ 0) :
    ∃ s', s.step = some s' ∧ Expanding b tail s' ∧ s'.p + 1 = s.p := by
  obtain ⟨unread, done, gap, rfl, harea, hp, hgap, ht, hcount⟩ := h
  obtain rfl | ⟨unread, c, rfl⟩ := eq_nil_or_concat' unread
  · exact absurd hcount hpairs
  rw [length_append, length_singleton] at hp
  -- The letter that is read is the first byte of the new gap.
  obtain ⟨front, y, hfront⟩ : ∃ front y, c :: gap = front ++ [y] := by
    obtain h | ⟨front, y, h⟩ := eq_nil_or_concat' (c :: gap)
    · cases h
    · exact ⟨front, y, h⟩
  have hlength : front.length = s.pairs := by
    have := congrArg List.length hfront
    simp only [length_cons, length_append, length_nil] at this
    omega
  have harea' : s.area = unread ++ (front ++ y :: (metafied done ++ tail)) := by
    rw [harea, append_assoc, singleton_append, ← cons_append, hfront]
    simp
  have hread : s.area[s.p - 1]? = some c := by
    rw [harea, hp, append_assoc]
    simp
  have hinside : ¬ (s.p = 0 ∨ s.t = 0 ∨ s.area.length < s.t) := by
    rw [harea']
    simp only [length_append, length_cons]
    omega
  have hset (d : UInt8) : s.area.set (s.t - 1) d =
      (unread ++ front) ++ d :: (metafied done ++ tail) := by
    have hindex : s.t - 1 = (unread ++ front).length := by
      rw [length_append]
      omega
    rw [harea', ← append_assoc, hindex, set_at_length]
  unfold Expansion.step
  rw [if_neg hinside, hread]
  dsimp only
  cases hc : imeta c with
  | false =>
    refine ⟨_, rfl, ⟨unread, c :: done, front, by simp, ?_, ?_, ?_, ?_, ?_⟩, ?_⟩
    · rw [metafied_cons_plain hc]
      exact (hset c).trans (append_assoc _ _ _)
    · dsimp only
      omega
    · exact hlength
    · dsimp only
      omega
    · rw [hcount, countP_append, countP_singleton, hc]
      rfl
    · dsimp only
      omega
  | true =>
    obtain rfl | ⟨front, z, rfl⟩ := eq_nil_or_concat' front
    · exact absurd hlength.symm hpairs
    rw [length_append, length_singleton] at hlength
    have hset' : ((s.area.set (s.t - 1) c).set (s.t - 1) (c ^^^ 32)).set (s.t - 2) metaByte =
        unread ++ (front ++ (metafied (c :: done) ++ tail)) := by
      have hindex : s.t - 2 = (unread ++ front).length := by
        rw [length_append]
        omega
      rw [set_set, hset, metafied_cons_special hc, ← append_assoc, append_assoc,
        singleton_append, hindex, set_at_length, append_assoc]
    rw [if_pos rfl, if_neg (by omega), hset']
    refine ⟨_, rfl, ⟨unread, c :: done, front, by simp, rfl, ?_, ?_, ?_, ?_⟩, ?_⟩
    · dsimp only
      omega
    · dsimp only
      omega
    · dsimp only
      omega
    · rw [hcount, countP_append, countP_singleton, hc]
      rfl
    · dsimp only
      omega

theorem expanding_run {b : Bytes} {turns : ℕ} (h : Expanding b tail s)
    (hturns : s.p ≤ turns) :
    ∃ s', Expansion.run turns s = some s' ∧ s'.area = metafied b ++ tail := by
  have hdone {s : Expansion} (h : Expanding b tail s) (hpairs : s.pairs = 0) :
      s.area = metafied b ++ tail := by
    obtain ⟨unread, done, gap, rfl, harea, -, hgap, -, hcount⟩ := h
    obtain rfl : gap = [] := eq_nil_of_length_eq_zero (hgap.trans hpairs)
    rw [harea, metafied_append, metafied_eq_self (hcount.symm.trans hpairs), nil_append,
      append_assoc]
  induction turns generalizing s with
  | zero =>
    by_cases hpairs : s.pairs = 0
    · exact ⟨s, by rw [Expansion.run, if_pos hpairs], hdone h hpairs⟩
    · obtain ⟨s', -, -, hp⟩ := expanding_step h hpairs
      omega
  | succ turns ih =>
    by_cases hpairs : s.pairs = 0
    · exact ⟨s, by rw [Expansion.run, if_pos hpairs], hdone h hpairs⟩
    · obtain ⟨s', hstep, h', hp⟩ := expanding_step h hpairs
      obtain ⟨s'', hrun, harea⟩ := ih h' (by omega)
      refine ⟨s'', ?_, harea⟩
      rw [Expansion.run, if_neg hpairs, hstep]
      exact hrun

/-- What a caller of `metafy` provides for the string `b`: its length or a NUL behind it, and the
room that the way of allocating leaves to the caller. -/
structure Metafiable (b buf : Bytes) (len : Option ℕ) (heap : MetaHeap) : Prop where
  isPrefix : b <+: buf
  length : len = some b.length ∨ len = none ∧ 0 ∉ b ∧ buf[b.length]? = some 0
  static : heap = .static → b.length ≤ pathMax
  noalloc : heap = .noalloc → b.length + b.countP imeta < buf.length
  unchanged : b.countP imeta = 0 → heap ≠ .dup → heap ≠ .heapdup → b.length < buf.length

theorem metafiable_length {b : Bytes} {heap : MetaHeap}
    (h : Metafiable b buf len heap) : len.or (buf.findIdx? (· = 0)) = some b.length := by
  obtain ⟨more, rfl⟩ := h.isPrefix
  rcases h.length with rfl | ⟨rfl, hzero, hend⟩
  · rfl
  · obtain ⟨rest, rfl⟩ : ∃ rest, more = 0 :: rest := by
      rw [List.getElem?_append_right le_rfl, Nat.sub_self] at hend
      cases more with
      | nil => cases hend
      | cons c rest =>
        cases hend
        exact ⟨rest, rfl⟩
    rw [Option.none_or, List.findIdx?_append, List.findIdx?_eq_none_iff.mpr]
    · simp [List.findIdx?_cons]
    · intro c hc
      refine decide_eq_false ?_
      rintro rfl
      exact hzero hc

/-- The area of an expansion has room behind the string for the pairs and the NUL. -/
theorem metafiable_area {b : Bytes} {heap : MetaHeap}
    (h : Metafiable b buf len heap) (fresh : UInt8) : ∃ more,
      metaArea fresh buf b.length (b.countP imeta) heap = b ++ more ∧
        b.countP imeta < more.length := by
  obtain ⟨more, rfl⟩ := h.isPrefix
  have hcount : b.countP imeta ≤ b.length := countP_le_length
  unfold metaArea
  split
  · have hroom := h.noalloc rfl
    rw [length_append] at hroom
    exact ⟨more, rfl, by omega⟩
  · have hroom := h.static rfl
    refine ⟨_, by rw [take_left], ?_⟩
    rw [List.length_replicate]
    omega
  · refine ⟨_, by rw [take_left], ?_⟩
    rw [List.length_replicate]
    omega

theorem expanding_start (more : Bytes) (hroom : b.countP imeta < more.length) :
    Expanding b (more.drop (b.countP imeta))
      ⟨b ++ more, b.length, b.length + b.countP imeta, b.countP imeta⟩ := by
  refine ⟨b, [], more.take (b.countP imeta), by simp, ?_, rfl, ?_, rfl, rfl⟩
  · simp [metafied]
  · exact List.length_take.trans (Nat.min_eq_left hroom.le)

theorem metafy_eq {b : Bytes} {heap : MetaHeap}
    (h : Metafiable b buf len heap) (fresh : UInt8) : ∃ rest,
      metafy fresh buf len heap = some (metafied b ++ 0 :: rest) := by
  have hterminate (front more : Bytes) (hmore : more ≠ []) :
      terminate (front ++ more) front.length = some (front ++ 0 :: more.tail) := by
    cases more with
    | nil => exact absurd rfl hmore
    | cons y more =>
      rw [terminate, if_pos (by simp), set_at_length]
      rfl
  have htake : buf.take b.length = b := List.prefix_iff_eq_take.mp h.isPrefix |>.symm
  unfold metafy
  rw [metafiable_length h]
  dsimp only
  rw [htake]
  split
  · obtain ⟨more, harea, hroom⟩ := metafiable_area h fresh
    obtain ⟨s, hrun, hs⟩ := expanding_run (expanding_start b more hroom) le_rfl
    rw [harea, hrun]
    dsimp only
    have hlength : b.length + b.countP imeta = (metafied b).length := (length_metafied b).symm
    rw [hs, hlength]
    refine ⟨_, hterminate _ _ ?_⟩
    rw [Ne, drop_eq_nil_iff]
    omega
  · next hplain =>
    obtain ⟨hcount, hdup, hheapdup⟩ : b.countP imeta = 0 ∧ heap ≠ .dup ∧ heap ≠ .heapdup := by
      simpa [not_or] using hplain
    have hroom := h.unchanged hcount hdup hheapdup
    obtain ⟨more, rfl⟩ := h.isPrefix
    rw [metafied_eq_self hcount]
    refine ⟨_, hterminate _ _ ?_⟩
    rintro rfl
    simp at hroom

/-! ## The bijection -/

/-- The byte string `b` and the metafied string `m` are each other's image. -/
structure Metafies (m b : Bytes) : Prop where
  metafy : ∀ fresh buf len heap, Metafiable b buf len heap →
    ∃ rest, metafy fresh buf len heap = some (m ++ 0 :: rest)
  no_nul : 0 ∉ m
  wellFormed : metaCode.WellFormed m
  unmetafy : ∀ rest, ∃ after, unmetafy (m ++ 0 :: rest) = some (b ++ 0 :: after, b.length)
  unmeta : ∀ rest, unmeta (m ++ 0 :: rest) = some (b ++ [0])
  ztrlen : ∀ rest, ztrlen (m ++ 0 :: rest) = some b.length
  metalen : ∀ k ≤ b.length, ∀ rest,
    metalen (m ++ 0 :: rest) k = some (metafied (b.take k)).length
  ztrsub : ∀ k ≤ b.length, ∀ rest,
    ztrsub (m ++ 0 :: rest) (metafied (b.take k)).length 0 = some (k : ℤ)

theorem metafies_metafied : Metafies (metafied b) b where
  metafy fresh _ _ _ h := metafy_eq h fresh
  no_nul := zero_not_mem_metafied b
  wellFormed := metaCode.wellFormed_encode b
  unmetafy := unmetafy_metafied b
  unmeta := unmeta_metafied b
  ztrlen := ztrlen_metafied b
  metalen _ hk rest := metalen_metafied b (0 :: rest) hk
  ztrsub _ hk rest := ztrsub_metafied b (0 :: rest) hk

/-- One turn of the loop of `metafy`, as long as there are pairs to go. -/
def Expansion.Turn (s s' : Expansion) : Prop := s.pairs ≠ 0 ∧ s.step = some s'

theorem expanding_reached {b : Bytes} {start : Expansion} (h : Expanding b tail start)
    (hreach : Relation.ReflTransGen Expansion.Turn start s) : Expanding b tail s := by
  induction hreach with
  | refl => exact h
  | tail _ hturn ih =>
    obtain ⟨s', hstep, hs', -⟩ := expanding_step ih hturn.1
    cases hturn.2.symm.trans hstep
    exact hs'

end Bsh.Shell
