import Bsh.Client.Text

/-!
# Base64 in buffers

`link_b64encode` and `link_b64decode` hand their lengths to a library that takes an `int`.  The
decoder checks the length of what it is going to copy against the destination, so that it stays
inside for every text.  The encoder computes the length that it needs as an `int`: from some size
on the result is negative and nothing is encoded, and beyond 4 GiB it comes out small again and
only the first bytes are encoded.
-/

namespace Bsh.Client

open Bsh.Library Bytes List

/-- The value of a number as an `int`. -/
def asInt (n : ℤ) : ℤ := if n % 2 ^ 32 < 2 ^ 31 then n % 2 ^ 32 else n % 2 ^ 32 - 2 ^ 32

/-- The value of an `int` as a `size_t`. -/
def asSize (n : ℤ) : ℕ := (n % 2 ^ 64).toNat

/-! ## The encoder -/

/-- `EVP_EncodeBlock`: the text and the result.  Its loop has no turn for a length below one. -/
def evpEncodeBlock (src : Bytes) (dlen : ℤ) : Bytes × ℤ :=
  let text := Base64.encode (src.take dlen.toNat)
  (text, asInt text.length)

/-- `needed`. -/
def b64Needed (srcLen : ℕ) : ℤ := asInt (4 * asInt ((srcLen + 2) / 3 : ℕ) + 1)

/-- `link_b64encode`: the string that is written. -/
def linkB64encode (src : Bytes) (dstCap : ℕ) : Option Bytes :=
  if dstCap < asSize (b64Needed src.length) then none
  else
    let (text, n) := evpEncodeBlock src (asInt src.length)
    if n < 0 then none else some (text.take n.toNat)

/-! ## The decoder -/

/-- `EVP_DecodeBlock`.  Its loop has no turn for a negative length. -/
def evpDecodeInt (src : Bytes) (n : ℤ) : Option Bytes :=
  if n < 0 then if n % 4 = 0 then some [] else none
  else Base64.evpDecodeBlock (src.take n.toNat)

/-- What `link_b64decode` returns, what it stores in `*dst_len`, and the memory behind `dst`. -/
structure B64Decoded where
  result : ℤ
  dstLen : Option ℕ
  memory : Bytes
  deriving DecidableEq

/-- `pad`. -/
def b64Pad (src : Bytes) : ℕ :=
  (if src[src.length - 1]? = some Base64.pad then 1 else 0) +
    if 2 ≤ src.length ∧ src[src.length - 2]? = some Base64.pad then 1 else 0

/-- `pre_trim`. -/
def b64PreTrim (src : Bytes) : ℕ := src.length * 3 % 2 ^ 64 / 4

/-- `link_b64decode`. -/
def linkB64decodeInto (malloc : ℕ → Bool) (src dst : Bytes) (dstCap : ℕ) : B64Decoded :=
  let failed : B64Decoded := ⟨-1, none, dst⟩
  let preTrim := b64PreTrim src
  if preTrim < b64Pad src then failed
  else
    let real := preTrim - b64Pad src
    if dstCap < real then failed
    -- Up to 8192 bytes are decoded into an array of the function.
    else if 8192 < preTrim && !malloc preTrim then failed
    else
      match evpDecodeInt src (asInt src.length) with
      | none => failed
      | some scratch =>
        if scratch.length ≠ preTrim then failed
        else ⟨asInt real, some real, scratch.take real ++ dst.drop real⟩

/-! ## Inside of the destination -/

/-- What is written to the destination fits into its capacity. -/
theorem linkB64decodeInto_memory (malloc : ℕ → Bool) (src dst : Bytes) (dstCap : ℕ) :
    (linkB64decodeInto malloc src dst dstCap).memory.drop dstCap = dst.drop dstCap ∧
      (dstCap ≤ dst.length →
        (linkB64decodeInto malloc src dst dstCap).memory.length = dst.length) := by
  simp only [linkB64decodeInto]
  split
  · exact ⟨rfl, fun _ ↦ rfl⟩
  split
  · exact ⟨rfl, fun _ ↦ rfl⟩
  next hreal =>
  split
  · exact ⟨rfl, fun _ ↦ rfl⟩
  split
  · exact ⟨rfl, fun _ ↦ rfl⟩
  next scratch _ =>
  split
  · exact ⟨rfl, fun _ ↦ rfl⟩
  next hlength =>
  have htaken : (scratch.take (b64PreTrim src - b64Pad src)).length =
      b64PreTrim src - b64Pad src := by
    rw [length_take]
    omega
  generalize b64PreTrim src - b64Pad src = real at hreal htaken ⊢
  constructor
  · have hbehind : real + (dstCap - real) = dstCap := by omega
    rw [drop_append, drop_of_length_le (by omega), htaken, drop_drop,
      nil_append, hbehind]
  · rw [length_append, htaken, length_drop]
    omega

/-! ## Up to the largest `int` -/

variable {n : ℕ} {src x : Bytes}

theorem asInt_of_lt (h : n < 2 ^ 31) : asInt n = n := by
  unfold asInt
  split <;> omega

theorem asSize_natCast (h : n < 2 ^ 64) : asSize n = n := by
  unfold asSize
  omega

theorem evpDecodeInt_of_lt (h : src.length < 2 ^ 31) :
    evpDecodeInt src (asInt src.length) = Base64.evpDecodeBlock src := by
  rw [evpDecodeInt, asInt_of_lt h, if_neg (by omega), Int.toNat_natCast, take_length]

theorem b64PreTrim_of_lt (h : src.length < 2 ^ 31) :
    b64PreTrim src = src.length * 3 / 4 := by
  rw [b64PreTrim, Nat.mod_eq_of_lt (by omega)]

/-- For a text that an `int` can count, the memory holds what `linkB64decode` reads. -/
theorem linkB64decodeInto_eq {malloc : ℕ → Bool} (hmalloc : ∀ size, malloc size = true) (h : src.length < 2 ^ 31) (dst : Bytes) (dstCap : ℕ) :
    linkB64decodeInto malloc src dst dstCap =
      match linkB64decode src dstCap with
      | none => ⟨-1, none, dst⟩
      | some bytes => ⟨bytes.length, some bytes.length, bytes ++ dst.drop bytes.length⟩ := by
  have hpad : b64Pad src = (if src[src.length - 1]? = some Base64.pad then 1 else 0) +
      if 2 ≤ src.length ∧ src[src.length - 2]? = some Base64.pad then 1 else 0 := rfl
  simp only [linkB64decodeInto, linkB64decode, evpDecodeInt_of_lt h, hmalloc, ← hpad,
    b64PreTrim_of_lt h, Bool.not_true, Bool.and_false, Bool.false_eq_true, if_false]
  split
  · rfl
  split
  · rfl
  cases Base64.evpDecodeBlock src with
  | none => rfl
  | some scratch =>
    by_cases hlength : scratch.length = src.length * 3 / 4
    · have htaken : (scratch.take (src.length * 3 / 4 - b64Pad src)).length =
          src.length * 3 / 4 - b64Pad src := by
        rw [length_take]
        omega
      simp only [hlength, ne_eq, not_true_eq_false, if_false, if_true, htaken]
      rw [asInt_of_lt (by omega)]
    · simp only [hlength, ne_eq, not_false_eq_true, if_true, if_false]

/-! ## Round trips -/

/-- A byte that is appended several times is found behind the text only. -/
theorem getElem?_replicate_iff {c : UInt8} {m : Bytes} (hm : c ∉ m) (p i : ℕ) :
    (m ++ List.replicate p c)[i]? = some c ↔ m.length ≤ i ∧ i < m.length + p := by
  by_cases hi : i < m.length
  · rw [List.getElem?_append_left hi]
    constructor
    · intro h
      exact absurd (mem_of_getElem? h) hm
    · omega
  · rw [List.getElem?_append_right (by omega), List.getElem?_replicate]
    simp only [ite_eq_left_iff, not_lt, reduceCtorEq, imp_false, not_le]
    omega

theorem b64Pad_encode (x : Bytes) : b64Pad (Base64.encode x) = Base64.padding x := by
  have hp : Base64.padding x < 3 := by
    unfold Base64.padding
    omega
  have hnot : Base64.pad ∉ (Base64.sextets x).map Base64.encodeSextet := by
    intro h
    obtain ⟨v, hv, hpad⟩ := List.mem_map.mp h
    exact (Base64.encodeSextet_cases (Base64.sextets_lt v hv)).2.1 hpad
  rw [Base64.encode, b64Pad]
  rw [length_append, List.length_replicate]
  simp only [getElem?_replicate_iff hnot]
  split_ifs <;> omega

theorem length_preTrim (x : Bytes) :
    (Base64.encode x).length * 3 / 4 = x.length + Base64.padding x := by
  rw [Base64.encode_length, Base64.padding]
  omega

/-- The decoder reads what was encoded if there is room for it. -/
theorem linkB64decode_encode (x : Bytes) (dstCap : ℕ) :
    linkB64decode (Base64.encode x) dstCap = if dstCap < x.length then none else some x := by
  have hpad := b64Pad_encode x
  unfold b64Pad at hpad
  simp only [linkB64decode, hpad, length_preTrim, Base64.evpDecodeBlock_encode,
    length_append, List.length_replicate, if_true]
  rw [if_neg (by omega), Nat.add_sub_cancel, take_left]

/-- The largest length whose encoding an `int` can count. -/
def b64Limit : ℕ := 1610612733

theorem b64Needed_of_le (h : n ≤ b64Limit) : b64Needed n = (4 * ((n + 2) / 3) + 1 : ℕ) := by
  unfold b64Limit at h
  have hlt : 4 * ((n + 2) / 3) + 1 < 2 ^ 31 := by omega
  rw [b64Needed, asInt_of_lt (by omega), ← asInt_of_lt hlt]
  rfl

theorem linkB64encode_of_le (h : x.length ≤ b64Limit) {encodeCap : ℕ}
    (hcap : 4 * ((x.length + 2) / 3) + 1 ≤ encodeCap) :
    linkB64encode x encodeCap = some (Base64.encode x) := by
  have hneeded := b64Needed_of_le h
  unfold b64Limit at h
  have hlength := Base64.encode_length x
  have hsize := asSize_natCast (n := 4 * ((x.length + 2) / 3) + 1) (by omega)
  have hint : asInt x.length = x.length := asInt_of_lt (by omega)
  have htext : asInt (Base64.encode x).length = (Base64.encode x).length := asInt_of_lt (by omega)
  simp only [linkB64encode, evpEncodeBlock, hneeded, hsize, hint, Int.toNat_natCast,
    take_length, htext]
  rw [if_neg (by omega), if_neg (by omega)]

/-- Encoding and decoding give back a byte string that fits, and do not write one that does not. -/
def B64RoundTrips (x : Bytes) : Prop :=
  ∀ encodeCap, 4 * ((x.length + 2) / 3) + 1 ≤ encodeCap →
    ∃ text, linkB64encode x encodeCap = some text ∧
      ∀ malloc dst dstCap, (∀ size, malloc size = true) →
        linkB64decodeInto malloc text dst dstCap =
          if x.length ≤ dstCap then ⟨x.length, some x.length, x ++ dst.drop x.length⟩
          else ⟨-1, none, dst⟩

theorem b64RoundTrips_of_le (h : x.length ≤ b64Limit) : B64RoundTrips x := by
  intro encodeCap hcap
  refine ⟨_, linkB64encode_of_le h hcap, ?_⟩
  intro malloc dst dstCap hmalloc
  have hlength := Base64.encode_length x
  unfold b64Limit at h
  rw [linkB64decodeInto_eq hmalloc (by omega), linkB64decode_encode]
  by_cases hfits : x.length ≤ dstCap
  · rw [if_neg (by omega), if_pos hfits]
  · rw [if_pos (by omega), if_neg hfits]

/-- Behind the limit the encoder fails, or the library is given a smaller length. -/
theorem linkB64encode_of_lt (h : b64Limit < x.length) (encodeCap : ℕ) :
    linkB64encode x encodeCap = none ∨
      ∃ taken : Bytes, taken.length < x.length ∧ (Base64.encode taken).length < 2 ^ 31 ∧
        linkB64encode x encodeCap = some (Base64.encode taken) := by
  have htaken : (x.take (asInt x.length).toNat).length = min (asInt x.length).toNat x.length :=
    length_take
  unfold linkB64encode evpEncodeBlock
  dsimp only
  revert htaken
  generalize x.take _ = taken
  intro htaken
  unfold b64Limit at h
  by_cases hneeded : encodeCap < asSize (b64Needed x.length)
  · rw [if_pos hneeded]
    exact .inl rfl
  by_cases hcount : asInt (Base64.encode taken).length < 0
  · rw [if_neg hneeded, if_pos hcount]
    exact .inl rfl
  · have hlength := Base64.encode_length taken
    have hshort : (Base64.encode taken).length < 2 ^ 31 := by
      unfold asInt at hcount htaken
      split at hcount <;> split at htaken <;> omega
    have hshorter : taken.length < x.length := by
      unfold asInt at htaken
      split at htaken <;> omega
    rw [if_neg hneeded, if_neg hcount, asInt_of_lt hshort, Int.toNat_natCast, take_length]
    exact .inr ⟨taken, hshorter, hshort, rfl⟩

theorem linkB64decodeInto_dstLen {taken : Bytes} (h : (Base64.encode taken).length < 2 ^ 31)
    (dst : Bytes) (dstCap : ℕ)
    (hdecoded : (linkB64decodeInto (fun _ ↦ true) (Base64.encode taken) dst dstCap).dstLen =
      some n) : n = taken.length := by
  rw [linkB64decodeInto_eq (fun _ ↦ rfl) h, linkB64decode_encode] at hdecoded
  by_cases hcap : dstCap < taken.length
  · rw [if_pos hcap] at hdecoded
    cases hdecoded
  · rw [if_neg hcap] at hdecoded
    exact (Option.some.inj hdecoded).symm

theorem not_b64RoundTrips (h : b64Limit < x.length) : ¬ B64RoundTrips x := by
  intro htrips
  obtain ⟨text, hencoded, hdecoded⟩ := htrips _ le_rfl
  obtain hnone | ⟨taken, hshorter, hlt, htaken⟩ := linkB64encode_of_lt h
      _
  · rw [hnone] at hencoded
    cases hencoded
  · obtain rfl : Base64.encode taken = text := Option.some.inj (htaken.symm.trans hencoded)
    have hlen := congrArg B64Decoded.dstLen (hdecoded (fun _ ↦ true) [] x.length fun _ ↦ rfl)
    rw [if_pos le_rfl] at hlen
    exact absurd (linkB64decodeInto_dstLen hlt [] _ hlen) (by omega)

/-- Encoding and decoding give back a byte string exactly up to the length whose encoding an `int`
can count; and no text makes the decoder write behind the capacity of the destination. -/
theorem b64RoundTrips_iff (x : Bytes) :
    (B64RoundTrips x ↔ x.length ≤ b64Limit) ∧
    ∀ malloc src dst dstCap,
      (linkB64decodeInto malloc src dst dstCap).memory.drop dstCap = dst.drop dstCap ∧
        (dstCap ≤ dst.length →
          (linkB64decodeInto malloc src dst dstCap).memory.length = dst.length) := by
  refine ⟨⟨fun h ↦ ?_, b64RoundTrips_of_le⟩, linkB64decodeInto_memory⟩
  by_contra hlt
  exact not_b64RoundTrips (not_le.mp hlt) h

/-- Three bytes more than 4 GiB. -/
theorem not_b64RoundTrips_wrapped : ¬ B64RoundTrips (List.replicate (2 ^ 32 + 3) 0x61) := by
  apply not_b64RoundTrips
  rw [List.length_replicate, b64Limit]
  norm_num

end Bsh.Client
