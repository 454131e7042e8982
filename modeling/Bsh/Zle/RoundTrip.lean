import Bsh.Zle.Convert

/-!
# The editor line there and back

A boundary before character `k` becomes the number of metafied bytes of the first `k` characters,
and comes back from it as long as a character follows: at the end of the line `stringaszleline` puts
only the cursor right.  The characters come back if every one has bytes of its own and the line does
not end inside a character of three or four bytes: `mbrtowc` is not reset behind a character that is
cut off, so that its last byte is read twice.
-/

namespace Bsh.Zle

open Bsh.Library Bsh.Library.Utf Bsh.Library.Utf8 Bsh.Shell List

/-! ## Lengths -/

theorem charBytes_ne_nil (wc : ℕ) : charBytes wc ≠ [] := by
  unfold charBytes
  split
  · exact cons_ne_nil _ _
  · cases h : wcrtomb wc with
    | none => decide
    | some enc =>
      obtain ⟨b, rest, rfl, -⟩ := wcrtomb_head h
      exact cons_ne_nil _ _

theorem length_charBytes_pos (wc : ℕ) : 0 < (charBytes wc).length :=
  List.length_pos_iff.mpr (charBytes_ne_nil wc)

@[simp]
theorem lineBytes_nil : lineBytes [] = [] := rfl

@[simp]
theorem lineBytes_cons (wc : ℕ) (rest : List ℕ) :
    lineBytes (wc :: rest) = charBytes wc ++ lineBytes rest := rfl

/-- The bytes before character `k`. -/
def byteLength (line : List ℕ) (k : ℕ) : ℕ := (lineBytes (line.take k)).length

/-- The metafied bytes before character `k`. -/
def metaLength (line : List ℕ) (k : ℕ) : ℕ := (metafied (lineBytes (line.take k))).length

@[simp]
theorem byteLength_zero (line : List ℕ) : byteLength line 0 = 0 := rfl

@[simp]
theorem byteLength_cons (wc : ℕ) (rest : List ℕ) (k : ℕ) :
    byteLength (wc :: rest) (k + 1) = (charBytes wc).length + byteLength rest k := by
  unfold byteLength
  rw [take_succ_cons, lineBytes_cons, length_append]

theorem take_byteLength (line : List ℕ) (k : ℕ) :
    (lineBytes line).take (byteLength line k) = lineBytes (line.take k) := by
  have hsplit : lineBytes line = lineBytes (line.take k) ++ lineBytes (line.drop k) := by
    unfold lineBytes
    rw [← flatMap_append, List.take_append_drop]
  rw [hsplit]
  exact take_left

theorem metaLength_eq (line : List ℕ) (k : ℕ) : metaLength line k =
    byteLength line k + ((lineBytes line).take (byteLength line k)).countP imeta := by
  rw [take_byteLength]
  exact length_metafied _

theorem byteLength_le (line : List ℕ) (k : ℕ) : byteLength line k ≤ (lineBytes line).length := by
  have h := congrArg List.length (take_byteLength line k)
  rw [length_take] at h
  unfold byteLength at h ⊢
  omega

variable {b c : UInt8} {bytes : Bytes} {line rest : List ℕ} {mbs : Pending} {sub : ℤ} {wc : ℕ}
  (predisplaylen : ℕ)

theorem length_le_byteLength_iff {k : ℕ} (hk : k ≤ line.length) :
    (lineBytes line).length ≤ byteLength line k ↔ k = line.length := by
  induction line generalizing k with
  | nil =>
    obtain rfl : k = 0 := Nat.le_zero.mp hk
    exact iff_of_true (Nat.le_refl 0) rfl
  | cons wc rest ih =>
    have hpos := length_charBytes_pos wc
    rw [lineBytes_cons, length_append]
    cases k with
    | zero =>
      refine iff_of_false ?_ (Nat.succ_ne_zero _).symm
      rw [byteLength_zero]
      omega
    | succ k =>
      rw [byteLength_cons, length_cons, Nat.add_le_add_iff_left,
        ih (Nat.le_of_succ_le_succ hk), Nat.succ_inj]

/-! ## A boundary on its way out -/

theorem encodeBoundary_behind (line : List ℕ) (mbLen : ℕ) {b : Boundary}
    (h : b.pos - sub < 0) : (encodeBoundary line mbLen sub b).metaPos = b.metaPos := by
  induction line generalizing mbLen b with
  | nil =>
    have hne : b.pos - sub ≠ 0 := by omega
    exact if_neg hne
  | cons wc rest ih =>
    have hne : b.pos - sub ≠ 0 := by omega
    calc (encodeBoundary (wc :: rest) mbLen sub b).metaPos
        = (countDown mbLen sub b).metaPos := ih _ (by
          dsimp only [countDown]
          omega)
      _ = b.metaPos := if_neg hne

theorem encodeBoundary_at {k : ℕ} (hk : k ≤ line.length) (mbLen : ℕ) (sub y : ℤ) :
    (encodeBoundary line mbLen sub ⟨sub + k, y⟩).metaPos = sub + mbLen + byteLength line k := by
  induction line generalizing k mbLen y with
  | nil =>
    obtain rfl : k = 0 := by simpa using hk
    have hzero : sub + ((0 : ℕ) : ℤ) - sub = 0 := by omega
    calc (encodeBoundary [] mbLen sub ⟨sub + (0 : ℕ), y⟩).metaPos
        = sub + mbLen := if_pos hzero
      _ = sub + mbLen + byteLength [] 0 := by
        rw [byteLength_zero]
        omega
  | cons wc rest ih =>
    cases k with
    | zero =>
      have hzero : sub + ((0 : ℕ) : ℤ) - sub = 0 := by omega
      calc (encodeBoundary (wc :: rest) mbLen sub ⟨sub + (0 : ℕ), y⟩).metaPos
          = (countDown mbLen sub ⟨sub + (0 : ℕ), y⟩).metaPos := encodeBoundary_behind rest _ (by
            dsimp only [countDown]
            omega)
        _ = sub + mbLen := if_pos hzero
        _ = sub + mbLen + byteLength (wc :: rest) 0 := by
          rw [byteLength_zero]
          omega
    | succ k =>
      have hdown : countDown mbLen sub ⟨sub + (k + 1 : ℕ), y⟩ = ⟨sub + k, y⟩ := by
        have hne : sub + ((k + 1 : ℕ) : ℤ) - sub ≠ 0 := by omega
        have hpos : sub + ((k + 1 : ℕ) : ℤ) - 1 = sub + k := by
          push_cast
          ring
        unfold countDown
        rw [if_neg hne, hpos]
      rw [encodeBoundary, hdown, ih (Nat.le_of_succ_le_succ hk), byteLength_cons]
      push_cast
      ring

theorem growBoundary_at (bytes : Bytes) (p j : ℕ) (sub y : ℤ) :
    growBoundary bytes p sub ⟨sub + j, y⟩ =
      ⟨sub + j, y + ((bytes.take (j - p)).countP imeta : ℕ)⟩ := by
  induction bytes generalizing p y with
  | nil => simp [growBoundary]
  | cons c rest ih =>
    rw [growBoundary]
    by_cases hp : p < j
    · have hlt : (p : ℤ) < sub + j - sub := by omega
      have htake : j - p = (j - (p + 1)) + 1 := by omega
      rw [htake, take_succ_cons, countP_cons]
      cases hc : imeta c with
      | true =>
        have hgrow : growAt p sub ⟨sub + j, y⟩ = ⟨sub + j, y + 1⟩ := by
          unfold growAt
          rw [if_pos hlt]
        rw [if_pos rfl, if_pos rfl, hgrow, ih]
        push_cast
        ring
      | false =>
        rw [if_neg Bool.false_ne_true, if_neg Bool.false_ne_true, ih]
        rfl
    · have hge : ¬ (p : ℤ) < sub + j - sub := by omega
      have hzero : j - p = 0 := by omega
      have hnext : j - (p + 1) = 0 := by omega
      have hgrow : growAt p sub ⟨sub + j, y⟩ = ⟨sub + j, y⟩ := by
        unfold growAt
        rw [if_neg hge]
      rw [hgrow, ite_self, ih, hzero, hnext]
      rfl

/-- The way out of one boundary. -/
def outBoundary (line : List ℕ) (sub : ℤ) (b : Boundary) : Boundary :=
  growBoundary (lineBytes line) 0 sub (keepMeta sub (encodeBoundary line 0 sub b))

theorem outBoundary_at {k : ℕ} (hk : k ≤ line.length) (sub y : ℤ) :
    (outBoundary line sub ⟨sub + k, y⟩).metaPos = sub + metaLength line k := by
  have hencode := encodeBoundary_at hk 0 sub y
  have hkeep : keepMeta sub (encodeBoundary line 0 sub ⟨sub + k, y⟩) =
      ⟨sub + byteLength line k, sub + byteLength line k⟩ := by
    unfold keepMeta
    rw [hencode, Nat.cast_zero, add_zero]
  unfold outBoundary
  rw [hkeep, growBoundary_at, metaLength_eq, Nat.sub_zero]
  push_cast
  ring

/-! ## A boundary on its way back -/

theorem shrinkBoundary_behind (bytes : Bytes) {p : ℕ} {b : Boundary}
    (h : b.pos - sub ≤ p) : shrinkBoundary bytes p sub b = b := by
  induction bytes generalizing p with
  | nil => rfl
  | cons c rest ih =>
    have hge : ¬ (p : ℤ) < b.pos - sub := by omega
    have hshrink : shrinkAt p sub b = b := by
      unfold shrinkAt
      rw [if_neg hge]
    rw [shrinkBoundary, hshrink, ih (by omega), ih (by omega), ite_self]

theorem shrinkBoundary_at {i : ℕ} (hi : i ≤ bytes.length) (p : ℕ) (sub y : ℤ) :
    shrinkBoundary bytes p sub ⟨sub + (p + (metafied (bytes.take i)).length : ℕ), y⟩ =
      ⟨sub + (p + (metafied (bytes.take i)).length : ℕ),
        y - ((bytes.take i).countP imeta : ℕ)⟩ := by
  induction bytes generalizing i p y with
  | nil => simp [shrinkBoundary]
  | cons c rest ih =>
    cases i with
    | zero =>
      rw [shrinkBoundary_behind (c :: rest) (by simp [metafied])]
      simp
    | succ i =>
      have hi' : i ≤ rest.length := Nat.le_of_succ_le_succ hi
      have hlength := length_metafied (c :: rest.take i)
      have hlength' := length_metafied (rest.take i)
      rw [countP_cons, length_cons] at hlength
      rw [take_succ_cons, countP_cons, shrinkBoundary]
      cases hc : imeta c with
      | true =>
        rw [hc, if_pos rfl] at hlength
        have hplace : p + (metafied (c :: rest.take i)).length =
            p + 2 + (metafied (rest.take i)).length := by omega
        have hshrink : shrinkAt p sub
            ⟨sub + (p + (metafied (c :: rest.take i)).length : ℕ), y⟩ =
            ⟨sub + (p + (metafied (c :: rest.take i)).length : ℕ), y - 1⟩ := by
          have hlt : (p : ℤ) < sub + (p + (metafied (c :: rest.take i)).length : ℕ) - sub := by
            omega
          unfold shrinkAt
          rw [if_pos hlt]
        rw [if_pos rfl, if_pos rfl, hshrink, hplace, ih hi']
        push_cast
        ring
      | false =>
        rw [hc, if_neg Bool.false_ne_true] at hlength
        have hplace : p + (metafied (c :: rest.take i)).length =
            p + 1 + (metafied (rest.take i)).length := by omega
        rw [if_neg Bool.false_ne_true, if_neg Bool.false_ne_true, hplace, ih hi']
        rfl

theorem decodeBoundary_behind (line : List ℕ) {offs : ℕ} (out : ℕ) {b : Boundary}
    (h : b.metaPos - sub < offs) : decodeBoundary line offs out sub b = b := by
  induction line generalizing offs out with
  | nil => rfl
  | cons wc rest ih =>
    have hnot : ¬ ((offs : ℤ) ≤ b.metaPos - sub ∧
        b.metaPos - sub < offs + (charBytes wc).length) := by omega
    have hsame : decodedAt offs (charBytes wc).length out sub b = b := by
      unfold decodedAt
      rw [if_neg hnot]
    rw [decodeBoundary, hsame, ih _ (by omega)]

theorem decodeBoundary_at {k : ℕ} (hk : k ≤ line.length) (offs out : ℕ)
    (sub x : ℤ) :
    decodeBoundary line offs out sub ⟨x, sub + (offs + byteLength line k : ℕ)⟩ =
      ⟨if k < line.length then sub + (out + k : ℕ) else x,
        sub + (offs + byteLength line k : ℕ)⟩ := by
  induction line generalizing k offs out x with
  | nil =>
    rfl
  | cons wc rest ih =>
    have hpos := length_charBytes_pos wc
    cases k with
    | zero =>
      have hin : (offs : ℤ) ≤ sub + (offs + byteLength (wc :: rest) 0 : ℕ) - sub ∧
          sub + (offs + byteLength (wc :: rest) 0 : ℕ) - sub <
            offs + (charBytes wc).length := by
        rw [byteLength_zero]
        omega
      have hfound : decodedAt offs (charBytes wc).length out sub
          ⟨x, sub + (offs + byteLength (wc :: rest) 0 : ℕ)⟩ =
            ⟨out + sub, sub + (offs + byteLength (wc :: rest) 0 : ℕ)⟩ := by
        unfold decodedAt
        rw [if_pos hin]
      rw [decodeBoundary, hfound, decodeBoundary_behind rest _ (by
        push_cast
        omega), if_pos (by simp)]
      ring
    | succ k =>
      have hout : ¬ ((offs : ℤ) ≤ sub + (offs + byteLength (wc :: rest) (k + 1) : ℕ) - sub ∧
          sub + (offs + byteLength (wc :: rest) (k + 1) : ℕ) - sub <
            offs + (charBytes wc).length) := by
        rw [byteLength_cons]
        omega
      have hkept : decodedAt offs (charBytes wc).length out sub
          ⟨x, sub + (offs + byteLength (wc :: rest) (k + 1) : ℕ)⟩ =
            ⟨x, sub + (offs + byteLength (wc :: rest) (k + 1) : ℕ)⟩ := by
        unfold decodedAt
        rw [if_neg hout]
      have hplace : offs + byteLength (wc :: rest) (k + 1) =
          offs + (charBytes wc).length + byteLength rest k := by
        rw [byteLength_cons]
        omega
      rw [decodeBoundary, hkept, hplace, ih (Nat.le_of_succ_le_succ hk)]
      have hiff : k + 1 < (wc :: rest).length ↔ k < rest.length := Nat.succ_lt_succ_iff
      have hsum : out + 1 + k = out + (k + 1) := by omega
      rw [hsum, if_congr hiff rfl rfl]

/-! ## Characters -/

/-- The character has bytes of its own. -/
def HasBytes (wc : ℕ) : Prop := IsInvalidWchar wc ∨ (wcrtomb wc).isSome

instance (wc : ℕ) : Decidable (HasBytes wc) := inferInstanceAs (Decidable (_ ∨ _))

/-- The bytes in the private encoding are invalid where they stand. -/
def InvalidBytes (line : List ℕ) : Prop :=
  ∀ t ∈ line.tails, ∀ wc ∈ t.head?, IsInvalidWchar wc →
    (mbrtowc (lineBytes t) .none).1 = .invalid ∨ (mbrtowc (lineBytes t) .none).1 = .incomplete

/-- All bytes but the last of a character of three or four bytes, each in the private encoding.  Of
`EE 82` the last byte, read twice, stands for its own private encoding. -/
structure CutCharacter (cut : List ℕ) : Prop where
  long : 2 ≤ cut.length
  invalid : ∀ wc ∈ cut, IsInvalidWchar wc
  unfinished : (mbrtowc (lineBytes cut) .none).1 = .incomplete
  lastMissing : (decodeLead ((lineBytes cut).headD 0)).2.needed = cut.length
  other : cut ≠ [0xE0EE, 0xE082]

/-- The line ends inside a character, before its last byte. -/
def EndsCut (line : List ℕ) : Prop := ∃ cut ∈ line.tails, CutCharacter cut

/-- The line can be written and read back. -/
def Convertible (line : List ℕ) : Prop := (∀ wc ∈ line, HasBytes wc) ∧ ¬ EndsCut line

theorem endsCut_cons :
    EndsCut (wc :: rest) ↔ CutCharacter (wc :: rest) ∨ EndsCut rest := by
  unfold EndsCut
  rw [tails_cons, exists_mem_cons_iff]

theorem convertible_cons :
    Convertible (wc :: rest) ↔
      HasBytes wc ∧ ¬ CutCharacter (wc :: rest) ∧ Convertible rest := by
  unfold Convertible
  rw [forall_mem_cons, endsCut_cons, not_or]
  tauto

theorem convertible_nil : Convertible [] := by
  refine ⟨fun wc h ↦ absurd h (not_mem_nil), ?_⟩
  rintro ⟨cut, hcut, h⟩
  obtain rfl : cut = [] := by simpa using hcut
  exact absurd h.long (by decide)

theorem not_endsCut_append (h : ¬ IsInvalidWchar wc) :
    ¬ EndsCut (line ++ [wc]) := by
  rintro ⟨cut, hcut, hchar⟩
  obtain ⟨before, hbefore⟩ := (mem_tails _ _).mp hcut
  have hne : cut ≠ [] := ne_nil_of_length_pos (Nat.lt_of_lt_of_le Nat.two_pos hchar.long)
  have hlast : cut.getLast hne = wc := by
    have hgetLast := congrArg List.getLast? hbefore
    rw [List.getLast?_append_of_ne_nil _ hne, List.getLast?_concat,
      List.getLast?_eq_some_getLast hne] at hgetLast
    exact Option.some.inj hgetLast
  exact h (hlast ▸ hchar.invalid _ (getLast_mem hne))

instance (line : List ℕ) : Decidable (InvalidBytes line) :=
  inferInstanceAs (Decidable (∀ t ∈ line.tails, _))

theorem InvalidBytes.tail (h : InvalidBytes (wc :: rest)) :
    InvalidBytes rest := by
  intro t ht
  apply h t
  exact mem_cons_of_mem _ ht

theorem charToInvalidWchar_toChar (h : IsInvalidWchar wc) :
    charToInvalidWchar (invalidWcharToChar wc) = wc := by
  obtain ⟨hlow, hhigh⟩ := h
  unfold charToInvalidWchar invalidWcharToChar
  have hbyte : wc - 0xE000 < 256 := by omega
  rw [UInt8.toNat_ofNat_of_lt' hbyte]
  omega

theorem charBytes_invalid (h : IsInvalidWchar wc) :
    charBytes wc = [invalidWcharToChar wc] := if_pos h

theorem charBytes_wide (h : ¬ IsInvalidWchar wc) {enc : Bytes}
    (henc : wcrtomb wc = some enc) : charBytes wc = enc := by
  unfold charBytes
  rw [if_neg h, henc]
  rfl

theorem lineBytes_tail
    (h : lineBytes line = b :: bytes) (hb : IsTail b) :
    ∃ rest, line = charToInvalidWchar b :: rest ∧ lineBytes rest = bytes := by
  cases line with
  | nil => cases h
  | cons wc rest =>
    rw [lineBytes_cons] at h
    by_cases hinvalid : IsInvalidWchar wc
    · rw [charBytes_invalid hinvalid, singleton_append] at h
      obtain ⟨rfl, rfl⟩ := List.cons.inj h
      rw [charToInvalidWchar_toChar hinvalid]
      exact ⟨rest, rfl, rfl⟩
    · cases henc : wcrtomb wc with
      | none =>
        have hmark : charBytes wc = [0x3F] := by
          unfold charBytes
          rw [if_neg hinvalid, henc]
          rfl
        rw [hmark, singleton_append] at h
        obtain ⟨rfl, -⟩ := List.cons.inj h
        exact absurd hb (by decide)
      | some enc =>
        obtain ⟨c, tl, rfl, hc⟩ := wcrtomb_head henc
        rw [charBytes_wide hinvalid henc, cons_append] at h
        obtain ⟨rfl, -⟩ := List.cons.inj h
        exact absurd hb hc

theorem eq_nil_of_lineBytes (h : lineBytes line = []) : line = [] := by
  cases line with
  | nil => rfl
  | cons wc rest =>
    exact absurd (List.append_eq_nil_iff.mp h).1 (charBytes_ne_nil wc)

/-! ## Decoding -/

/-- From a state of the conversion, every character is read from its own bytes. -/
def Decodes : List ℕ → Pending → Prop
  | [], _ => True
  | wc :: rest, mbs =>
    (nextChar (lineBytes (wc :: rest)) mbs).1 = wc ∧
      (nextChar (lineBytes (wc :: rest)) mbs).2.1 = (charBytes wc).length ∧
      Decodes rest (nextChar (lineBytes (wc :: rest)) mbs).2.2

theorem decodeMarks_step (turns : ℕ) (hbytes : bytes ≠ [])
    (mbs : Pending) (offs out : ℕ) (m : Marks) :
    decodeMarks predisplaylen (turns + 1) bytes mbs offs out m =
      (decodeMarks predisplaylen turns (bytes.drop (nextChar bytes mbs).2.1)
        (nextChar bytes mbs).2.2 (offs + (nextChar bytes mbs).2.1) (out + 1)
        (m.turn predisplaylen (decodedAt offs (nextChar bytes mbs).2.1 out))).map
          fun (chars, offs, m) ↦ ((nextChar bytes mbs).1 :: chars, offs, m) := by
  cases bytes with
  | nil => exact absurd rfl hbytes
  | cons b rest => rfl

theorem decodeMarks_of_decodes {predisplaylen : ℕ}
    (h : Decodes line mbs) {turns : ℕ} (hturns : (lineBytes line).length ≤ turns) (offs out : ℕ)
    (m : Marks) :
    decodeMarks predisplaylen turns (lineBytes line) mbs offs out m =
      some (line, offs + (lineBytes line).length,
        m.turn predisplaylen (decodeBoundary line offs out)) := by
  induction line generalizing mbs turns offs out m with
  | nil =>
    have hturn : m.turn predisplaylen (decodeBoundary [] offs out) = m :=
      Marks.turn_id predisplaylen m
    rw [hturn]
    cases turns <;> rfl
  | cons wc rest ih =>
    obtain ⟨hwc, hcnt, hrest⟩ := h
    have hpos := length_charBytes_pos wc
    have hsum : (lineBytes (wc :: rest)).length =
        (charBytes wc).length + (lineBytes rest).length := by
      rw [lineBytes_cons, length_append]
    obtain ⟨turns, rfl⟩ : ∃ t, turns = t + 1 := Nat.exists_eq_succ_of_ne_zero (by omega)
    have hbytes : lineBytes (wc :: rest) ≠ [] := ne_nil_of_length_pos (by omega)
    have hdrop : (lineBytes (wc :: rest)).drop (charBytes wc).length = lineBytes rest := by
      exact drop_left
    rw [decodeMarks_step predisplaylen turns hbytes, hwc, hcnt, hdrop, ih hrest (by omega),
      Option.map_some, Marks.turn_turn, hsum, Nat.add_assoc]
    rfl

/-- The characters that the second loop makes of some bytes. -/
def DecodesTo (bytes : Bytes) (mbs : Pending) (chars : List ℕ) : Prop :=
  ∃ predisplaylen turns offs out m ends,
    decodeMarks predisplaylen turns bytes mbs offs out m = some (chars, ends)

theorem DecodesTo.cons {chars : List ℕ} (hbytes : bytes ≠ [])
    (h : DecodesTo bytes mbs chars) : ∃ rest, chars = (nextChar bytes mbs).1 :: rest ∧
      DecodesTo (bytes.drop (nextChar bytes mbs).2.1) (nextChar bytes mbs).2.2 rest := by
  obtain ⟨predisplaylen, turns, offs, out, m, ends, h⟩ := h
  cases turns with
  | zero =>
    cases bytes with
    | nil => exact absurd rfl hbytes
    | cons b bytes => cases h
  | succ turns =>
    rw [decodeMarks_step predisplaylen turns hbytes] at h
    obtain ⟨⟨rest, ends'⟩, hrest, heq⟩ := Option.map_eq_some_iff.mp h
    obtain ⟨rfl, -⟩ := Prod.mk.inj heq
    exact ⟨rest, rfl, predisplaylen, turns, _, _, _, ends', hrest⟩

/-- The line comes back exactly if it is convertible. -/
def Settled (line : List ℕ) : Prop :=
  (Decodes line .none ∧ Convertible line) ∨
    (¬ Convertible line ∧ ∀ chars, DecodesTo (lineBytes line) .none chars → chars ≠ line)

theorem settled_cons
    (hnext : nextChar (lineBytes (wc :: rest)) .none = (wc, (charBytes wc).length, .none))
    (hbytes : HasBytes wc) (hcut : ¬ CutCharacter (wc :: rest)) (hrest : Settled rest) :
    Settled (wc :: rest) := by
  unfold Settled
  rw [convertible_cons]
  rcases hrest with ⟨hdecodes, hconv⟩ | ⟨hconv, hne⟩
  · left
    refine ⟨?_, hbytes, hcut, hconv⟩
    rw [Decodes, hnext]
    exact ⟨rfl, rfl, hdecodes⟩
  · right
    refine ⟨fun h ↦ hconv h.2.2, fun chars h ↦ ?_⟩
    have hnil : lineBytes (wc :: rest) ≠ [] := fun hnil ↦
      absurd (eq_nil_of_lineBytes hnil) (cons_ne_nil _ _)
    obtain ⟨more, rfl, hmore⟩ := h.cons hnil
    rw [hnext] at hmore ⊢
    have hdrop : (lineBytes (wc :: rest)).drop (charBytes wc).length = lineBytes rest := by
      exact drop_left
    rw [hdrop] at hmore
    intro heq
    exact hne more hmore (List.cons.inj heq).2

theorem nextChar_wide {enc : Bytes} (henc : wcrtomb wc = some enc) (rest : Bytes) :
    nextChar (enc ++ rest) .none = (wc, enc.length, .none) := by
  obtain ⟨b, tl, htl, -⟩ := wcrtomb_head henc
  have hpos : 0 < enc.length := by
    rw [htl]
    exact Nat.succ_pos _
  unfold nextChar
  rw [mbrtowc_wcrtomb henc]
  by_cases hzero : wc = 0
  · subst hzero
    obtain rfl : enc = [0] := (Option.some.inj henc).symm
    rfl
  · have hne : enc.length ≠ 0 := by omega
    have hmin : min enc.length (enc ++ rest).length = enc.length := by
      rw [length_append]
      omega
    rw [if_neg hzero]
    dsimp only
    rw [if_neg hne, hmin]

theorem nextChar_invalid
    (h : (mbrtowc (b :: bytes) mbs).1 = .invalid ∨ (mbrtowc (b :: bytes) mbs).1 = .incomplete) :
    nextChar (b :: bytes) mbs = (charToInvalidWchar b, 1, (mbrtowc (b :: bytes) mbs).2) := by
  unfold nextChar
  rcases h with h | h <;>
  · obtain ⟨after, hafter⟩ : ∃ after, mbrtowc (b :: bytes) mbs = (_, after) :=
      ⟨_, Prod.ext h rfl⟩
    rw [hafter]
    rfl

theorem mbrtowc_invalid (h : (mbrtowc bytes mbs).1 = .invalid) :
    (mbrtowc bytes mbs).2 = .none := by
  have hread := readFrom_eq_mbrtowc (Or.inl h)
  exact readFrom_invalid (hread.trans (Prod.ext h rfl))

theorem nextChar_last (bits : ℕ) (hb : IsTail b) (bytes : Bytes) :
    nextChar (b :: bytes) ⟨1, bits, 0x80, 0xBF⟩ = (bits * 64 + b.toNat % 64, 1, .none) := by
  have hmin : min 1 (b :: bytes).length = 1 := Nat.min_eq_left (Nat.succ_le_succ (Nat.zero_le _))
  unfold nextChar mbrtowc
  rw [readFrom_tail hb]
  cases bits * 64 + b.toNat % 64 with
  | zero => rfl
  | succ wc =>
    exact congrArg (fun cnt ↦ (wc + 1, cnt, Pending.none)) ((if_neg Nat.one_ne_zero).trans hmin)

set_option maxRecDepth 4000 in
theorem decodeLead_bits (b : UInt8) : (decodeLead b).2.needed = 2 →
    b.toNat = 0xE0 + (decodeLead b).2.bits := by
  revert b
  exact Bytes.forall_byte (by decide)

theorem isInvalidWchar_char (b : UInt8) : IsInvalidWchar (charToInvalidWchar b) := by
  have hlt := b.toNat_lt
  unfold IsInvalidWchar charToInvalidWchar
  omega

theorem charBytes_char (b : UInt8) : charBytes (charToInvalidWchar b) = [b] := by
  have hback : invalidWcharToChar (charToInvalidWchar b) = b := by
    unfold invalidWcharToChar charToInvalidWchar
    rw [Nat.add_sub_cancel, UInt8.ofNat_toNat]
  rw [charBytes_invalid (isInvalidWchar_char b), hback]

theorem hasBytes_char (b : UInt8) : HasBytes (charToInvalidWchar b) :=
  Or.inl (isInvalidWchar_char b)

theorem lineBytes_char (b : UInt8) (rest : List ℕ) :
    lineBytes (charToInvalidWchar b :: rest) = b :: lineBytes rest := by
  rw [lineBytes_cons, charBytes_char]
  rfl

theorem not_cutCharacter_singleton (wc : ℕ) : ¬ CutCharacter [wc] :=
  fun h ↦ Nat.not_succ_le_self 1 h.long

theorem convertible_char (b : UInt8) : Convertible [charToInvalidWchar b] :=
  convertible_cons.mpr ⟨hasBytes_char b, not_cutCharacter_singleton _, convertible_nil⟩

theorem settled_lead (hread : (mbrtowc [b] .none).1 = .incomplete) :
    Settled [charToInvalidWchar b] := by
  left
  refine ⟨?_, convertible_char b⟩
  rw [Decodes, lineBytes_char, lineBytes_nil, nextChar_invalid (Or.inr hread), charBytes_char]
  exact ⟨rfl, rfl, trivial⟩

/-- Two bytes of three: the last byte, read twice, ends the character. -/
theorem settled_three (hc : IsTail c) (hneeded : (decodeLead b).2.needed = 2)
    (hread : mbrtowc [b, c] .none =
      (.incomplete, ⟨1, (decodeLead b).2.bits * 64 + c.toNat % 64, 0x80, 0xBF⟩)) :
    Settled [charToInvalidWchar b, charToInvalidWchar c] := by
  have hunfinished : (mbrtowc [b, c] .none).1 = .incomplete := congrArg Prod.fst hread
  have hfirst := nextChar_invalid (Or.inr hunfinished)
  rw [hread] at hfirst
  have hlast := nextChar_last ((decodeLead b).2.bits * 64 + c.toNat % 64) hc []
  have hbytes : lineBytes [charToInvalidWchar b, charToInvalidWchar c] = [b, c] := by
    rw [lineBytes_char, lineBytes_char, lineBytes_nil]
  have hbits := decodeLead_bits b hneeded
  have hlow : 128 ≤ c.toNat := UInt8.le_iff_toNat_le.mp hc.1
  have hhigh : c.toNat ≤ 191 := UInt8.le_iff_toNat_le.mp hc.2
  have hother : ((decodeLead b).2.bits * 64 + c.toNat % 64) * 64 + c.toNat % 64 =
      charToInvalidWchar c ↔
      [charToInvalidWchar b, charToInvalidWchar c] = [0xE0EE, 0xE082] := by
    obtain ⟨e, he⟩ := Nat.exists_eq_add_of_le hlow
    have hmod : c.toNat % 64 = e := by omega
    rw [List.cons.injEq, List.cons.injEq, hmod]
    unfold charToInvalidWchar
    constructor
    · intro h
      exact ⟨by omega, by omega, rfl⟩
    · omega
  by_cases hsame : ((decodeLead b).2.bits * 64 + c.toNat % 64) * 64 + c.toNat % 64 =
      charToInvalidWchar c
  · left
    constructor
    · rw [Decodes, hbytes, hfirst, Decodes, lineBytes_char, lineBytes_nil, hlast, hsame,
        charBytes_char, charBytes_char]
      exact ⟨rfl, rfl, rfl, rfl, trivial⟩
    · exact convertible_cons.mpr
        ⟨hasBytes_char b, fun h ↦ h.other (hother.mp hsame), convertible_char c⟩
  · right
    have hcut : CutCharacter [charToInvalidWchar b, charToInvalidWchar c] :=
      { long := Nat.le_refl 2
        invalid := by
          intro wc hwc
          rcases List.mem_pair.mp hwc with rfl | rfl
          · exact isInvalidWchar_char b
          · exact isInvalidWchar_char c
        unfinished := hbytes.symm ▸ hunfinished
        lastMissing := hbytes.symm ▸ hneeded
        other := fun h ↦ hsame (hother.mpr h) }
    refine ⟨fun h ↦ (convertible_cons.mp h).2.1 hcut, fun chars h ↦ ?_⟩
    rw [hbytes] at h
    obtain ⟨more, rfl, hmore⟩ := h.cons (cons_ne_nil _ _)
    rw [hfirst] at hmore ⊢
    have hlastByte : DecodesTo [c] _ _ := hmore
    obtain ⟨more', rfl, -⟩ := hlastByte.cons (cons_ne_nil _ _)
    rw [hlast]
    intro heq
    exact hsame (List.cons.inj (List.cons.inj heq).2).1

/-- Two bytes of four: the last byte, read twice, does not end the character. -/
theorem settled_fourEarly (hc : IsTail c) (hneeded : (decodeLead b).2.needed = 3)
    (hread : mbrtowc [b, c] .none =
      (.incomplete, ⟨2, (decodeLead b).2.bits * 64 + c.toNat % 64, 0x80, 0xBF⟩)) :
    Settled [charToInvalidWchar b, charToInvalidWchar c] := by
  have hunfinished : (mbrtowc [b, c] .none).1 = .incomplete := congrArg Prod.fst hread
  have hfirst := nextChar_invalid (Or.inr hunfinished)
  rw [hread] at hfirst
  have hbytes : lineBytes [charToInvalidWchar b, charToInvalidWchar c] = [b, c] := by
    rw [lineBytes_char, lineBytes_char, lineBytes_nil]
  have hsecond : (mbrtowc [c]
      ⟨2, (decodeLead b).2.bits * 64 + c.toNat % 64, 0x80, 0xBF⟩).1 = .incomplete := by
    have htwo : (Pending.mk 2 ((decodeLead b).2.bits * 64 + c.toNat % 64) 0x80 0xBF).needed ≠ 0 :=
      Nat.succ_ne_zero 1
    have hin : (Pending.mk 2 ((decodeLead b).2.bits * 64 + c.toNat % 64) 0x80 0xBF).lower ≤ c ∧
        c ≤ (Pending.mk 2 ((decodeLead b).2.bits * 64 + c.toNat % 64) 0x80 0xBF).upper := hc
    unfold mbrtowc
    rw [readFrom, if_neg htwo, if_pos hin]
    rfl
  left
  constructor
  · rw [Decodes, hbytes, hfirst, Decodes, lineBytes_char, lineBytes_nil,
      nextChar_invalid (Or.inr hsecond), charBytes_char, charBytes_char]
    exact ⟨rfl, rfl, rfl, rfl, trivial⟩
  · refine convertible_cons.mpr ⟨hasBytes_char b, fun h ↦ ?_, convertible_char c⟩
    have hmissing := h.lastMissing
    rw [hbytes, headD_cons, hneeded] at hmissing
    exact absurd hmissing (Nat.succ_ne_self 2)

/-- Three bytes of four: the second byte, read again, ends the character. -/
theorem settled_four {d : UInt8} (hc : IsTail c)
    (hneeded : (decodeLead b).2.needed = 3)
    (hbits : 16 ≤ (decodeLead b).2.bits * 64 + c.toNat % 64)
    (hread : mbrtowc [b, c, d] .none = (.incomplete,
      ⟨1, ((decodeLead b).2.bits * 64 + c.toNat % 64) * 64 + d.toNat % 64, 0x80, 0xBF⟩)) :
    Settled [charToInvalidWchar b, charToInvalidWchar c, charToInvalidWchar d] := by
  have hunfinished : (mbrtowc [b, c, d] .none).1 = .incomplete := congrArg Prod.fst hread
  have hfirst := nextChar_invalid (Or.inr hunfinished)
  rw [hread] at hfirst
  have hlast := nextChar_last
    (((decodeLead b).2.bits * 64 + c.toNat % 64) * 64 + d.toNat % 64) hc [d]
  have hbytes : lineBytes [charToInvalidWchar b, charToInvalidWchar c, charToInvalidWchar d] =
      [b, c, d] := by
    rw [lineBytes_char, lineBytes_char, lineBytes_char, lineBytes_nil]
  right
  have hcut : CutCharacter [charToInvalidWchar b, charToInvalidWchar c, charToInvalidWchar d] :=
    { long := Nat.le_succ 2
      invalid := by
        intro wc hwc
        simp only [mem_cons, not_mem_nil, or_false] at hwc
        rcases hwc with rfl | rfl | rfl
        · exact isInvalidWchar_char b
        · exact isInvalidWchar_char c
        · exact isInvalidWchar_char d
      unfinished := hbytes.symm ▸ hunfinished
      lastMissing := hbytes.symm ▸ hneeded
      other := fun h ↦ absurd (congrArg List.length h) (Nat.succ_ne_self 2) }
  refine ⟨fun h ↦ (convertible_cons.mp h).2.1 hcut, fun chars h ↦ ?_⟩
  rw [hbytes] at h
  obtain ⟨more, rfl, hmore⟩ := h.cons (cons_ne_nil _ _)
  rw [hfirst] at hmore ⊢
  have hlastBytes : DecodesTo [c, d] _ _ := hmore
  obtain ⟨more', rfl, -⟩ := hlastBytes.cons (cons_ne_nil _ _)
  rw [hlast]
  intro heq
  have hsame := (List.cons.inj (List.cons.inj heq).2).1
  have hlt := c.toNat_lt
  unfold charToInvalidWchar at hsame
  omega

/-- A line that starts with an unfinished character is that character. -/
theorem settled_incomplete
    (hread : (mbrtowc (b :: lineBytes rest) .none).1 = .incomplete) :
    Settled (charToInvalidWchar b :: rest) := by
  have hcut : CutOff b (lineBytes rest) (mbrtowc (b :: lineBytes rest) .none).2 := by
    have hfrom : readFrom 0 .none (b :: lineBytes rest) =
        (.incomplete, (mbrtowc (b :: lineBytes rest) .none).2) := by
      rw [readFrom_eq_mbrtowc (Or.inr hread)]
      exact Prod.ext hread rfl
    exact cutOff_of_incomplete hfrom
  generalize hbytes : lineBytes rest = bytes at hread hcut
  generalize hafter : (mbrtowc (b :: bytes) .none).2 = after at hcut
  have hread' : mbrtowc (b :: bytes) .none = (.incomplete, after) := Prod.ext hread hafter
  cases hcut with
  | lead =>
    obtain rfl := eq_nil_of_lineBytes hbytes
    exact settled_lead hread
  | @three c hc hneeded =>
    obtain ⟨more, rfl, hmore⟩ := lineBytes_tail hbytes hc
    obtain rfl := eq_nil_of_lineBytes hmore
    exact settled_three hc hneeded hread'
  | @fourEarly c hc hneeded =>
    obtain ⟨more, rfl, hmore⟩ := lineBytes_tail hbytes hc
    obtain rfl := eq_nil_of_lineBytes hmore
    exact settled_fourEarly hc hneeded hread'
  | @four c d hc hd hneeded hbits =>
    obtain ⟨more, rfl, hmore⟩ := lineBytes_tail hbytes hc
    obtain ⟨last, rfl, hlast⟩ := lineBytes_tail hmore hd
    obtain rfl := eq_nil_of_lineBytes hlast
    exact settled_four hc hneeded hbits hread'

theorem settled (h : InvalidBytes line) : Settled line := by
  induction line with
  | nil => exact Or.inl ⟨trivial, convertible_nil⟩
  | cons wc rest ih =>
    have hrest := ih h.tail
    by_cases hinvalid : IsInvalidWchar wc
    · have hread := h (wc :: rest) (by simp) wc rfl hinvalid
      obtain ⟨b, rfl⟩ : ∃ b, wc = charToInvalidWchar b :=
        ⟨_, (charToInvalidWchar_toChar hinvalid).symm⟩
      rw [lineBytes_char] at hread
      rcases hread with hread | hread
      · apply settled_cons _ (hasBytes_char b) _ hrest
        · rw [lineBytes_char, nextChar_invalid (Or.inl hread), mbrtowc_invalid hread,
            charBytes_char]
          rfl
        · intro hcut
          have hunfinished := hcut.unfinished
          rw [lineBytes_char, hread] at hunfinished
          cases hunfinished
      · exact settled_incomplete hread
    · have hcut : ¬ CutCharacter (wc :: rest) := fun hcut ↦ hinvalid (hcut.invalid wc (by simp))
      cases henc : wcrtomb wc with
      | some enc =>
        have hwide := charBytes_wide hinvalid henc
        apply settled_cons _ (Or.inr (henc ▸ rfl)) hcut hrest
        rw [lineBytes_cons, hwide]
        exact nextChar_wide henc (lineBytes rest)
      | none =>
        right
        have hmark : charBytes wc = [0x3F] := by
          unfold charBytes
          rw [if_neg hinvalid, henc]
          rfl
        constructor
        · intro hconv
          rcases (convertible_cons.mp hconv).1 with hhas | hhas
          · exact hinvalid hhas
          · rw [henc] at hhas
            cases hhas
        · intro chars hchars
          have hquestion : wcrtomb 0x3F = some [0x3F] := rfl
          obtain ⟨more, rfl, -⟩ := hchars.cons fun hnil ↦
            absurd (eq_nil_of_lineBytes hnil) (cons_ne_nil _ _)
          rw [lineBytes_cons, hmark, nextChar_wide hquestion]
          intro heq
          obtain ⟨rfl, -⟩ := List.cons.inj heq
          cases henc

/-! ## Regions -/

/-- The boundaries of a region that count in characters, and those that count in metafied bytes. -/
def RegionHighlight.bounds (r : RegionHighlight) : Bool × ℤ × ℤ := (r.predisplay, r.start, r.stop)

def RegionHighlight.metaBounds (r : RegionHighlight) : Bool × ℤ × ℤ :=
  (r.predisplay, r.startMeta, r.stopMeta)

/-- The region lies in a line of `n` characters. -/
structure RegionHighlight.Within (predisplaylen n : ℕ) (r : RegionHighlight) : Prop where
  start : 0 ≤ r.start - r.sub predisplaylen
  order : r.start ≤ r.stop
  stop : r.stop - r.sub predisplaylen ≤ n

/-- No boundary of the region is the end of a line of `n` characters. -/
def RegionHighlight.Before (predisplaylen n : ℕ) (r : RegionHighlight) : Prop :=
  r.start - r.sub predisplaylen ≠ n ∧ r.stop - r.sub predisplaylen ≠ n

/-- The metafied place of a position behind an offset. -/
def metaPlace (line : List ℕ) (sub x : ℤ) : ℤ := sub + metaLength line (x - sub).toNat

/-- The character takes one byte of the metafied line. -/
def OneByte (wc : ℕ) : Prop := (metafied (charBytes wc)).length = 1

theorem metaLength_cons (wc : ℕ) (rest : List ℕ) (k : ℕ) :
    metaLength (wc :: rest) (k + 1) = (metafied (charBytes wc)).length + metaLength rest k := by
  unfold metaLength
  rw [take_succ_cons, lineBytes_cons, metafied_append, length_append]

theorem length_metafied_pos (wc : ℕ) : 0 < (metafied (charBytes wc)).length := by
  have hpos := length_charBytes_pos wc
  rw [length_metafied]
  omega

theorem length_le_metaLength (line : List ℕ) : line.length ≤ metaLength line line.length := by
  induction line with
  | nil => exact Nat.zero_le _
  | cons wc rest ih =>
    have hpos := length_metafied_pos wc
    rw [length_cons, metaLength_cons]
    omega

/-- The metafied line is as long as the line exactly if every character takes one byte. -/
theorem metaLength_eq_length_iff (line : List ℕ) :
    metaLength line line.length = line.length ↔ ∀ wc ∈ line, OneByte wc := by
  induction line with
  | nil => exact iff_of_true rfl fun wc h ↦ absurd h not_mem_nil
  | cons wc rest ih =>
    have hpos := length_metafied_pos wc
    have hle := length_le_metaLength rest
    rw [forall_mem_cons, ← ih, length_cons, metaLength_cons]
    unfold OneByte
    omega

/-! ## There and back -/

/-- The way back of one boundary. -/
def backBoundary (line : List ℕ) (sub : ℤ) (b : Boundary) : Boundary :=
  decodeBoundary line 0 0 sub (shrinkBoundary (lineBytes line) 0 sub (keepMeta sub b))

theorem shrinkBoundary_metaLength (line : List ℕ) (k : ℕ) (sub : ℤ) :
    shrinkBoundary (lineBytes line) 0 sub
        ⟨sub + metaLength line k, sub + metaLength line k⟩ =
      ⟨sub + metaLength line k, sub + byteLength line k⟩ := by
  have h := shrinkBoundary_at (byteLength_le line k) 0 sub (sub + metaLength line k)
  have hplace : 0 + (metafied ((lineBytes line).take (byteLength line k))).length =
      metaLength line k := by
    rw [take_byteLength, Nat.zero_add]
    rfl
  have hvalue : sub + (metaLength line k : ℤ) -
      (((lineBytes line).take (byteLength line k)).countP imeta : ℕ) =
        sub + byteLength line k := by
    rw [metaLength_eq]
    push_cast
    ring
  rw [hplace, hvalue] at h
  exact h

theorem backBoundary_at {k : ℕ} (hk : k ≤ line.length) {b : Boundary}
    (hb : b.metaPos = sub + metaLength line k) :
    (backBoundary line sub b).pos =
      if k < line.length then sub + k else sub + metaLength line k := by
  have hkeep : keepMeta sub b = ⟨sub + metaLength line k, sub + metaLength line k⟩ := by
    unfold keepMeta
    rw [hb]
  have hdecode := decodeBoundary_at hk 0 0 sub (sub + metaLength line k)
  rw [Nat.zero_add] at hdecode
  unfold backBoundary
  rw [hkeep, shrinkBoundary_metaLength, hdecode, Nat.zero_add]

/-- The conversion points at the same characters in between and gives the line, the cursor and the
regions back. -/
def ThereAndBack (predisplaylen : ℕ) (fresh : UInt8) (zlecs : ℤ) (l : CharLine) : Prop :=
  ∃ b, metafyLine predisplaylen fresh l = some b ∧
    b.zlemetacs = metaPlace l.zleline 0 l.zlecs ∧
    b.regionHighlights.map RegionHighlight.metaBounds = l.regionHighlights.map (fun r ↦
      (r.predisplay, metaPlace l.zleline (r.sub predisplaylen) r.start,
        metaPlace l.zleline (r.sub predisplaylen) r.stop)) ∧
    ∃ l', unmetafyLine predisplaylen zlecs b = some l' ∧ l'.zleline = l.zleline ∧
      l'.zlecs = l.zlecs ∧
      l'.regionHighlights.map RegionHighlight.bounds =
        l.regionHighlights.map RegionHighlight.bounds

theorem metafyLine_eq (fresh : UInt8) (l : CharLine) : ∃ rest,
    metafyLine predisplaylen fresh l = some
      { zlemetaline := metafied (lineBytes l.zleline) ++ 0 :: rest
        zlemetall := (metafied (lineBytes l.zleline)).length
        zlemetacs := (outBoundary l.zleline 0 ⟨l.zlecs, 0⟩).metaPos
        regionHighlights :=
          l.regionHighlights.map (·.ends predisplaylen (outBoundary l.zleline)) } := by
  have hmetafiable : Metafiable (lineBytes l.zleline) (lineBytes l.zleline ++ [0])
      (some (lineBytes l.zleline).length) .realloc :=
    { isPrefix := prefix_append _ _
      length := Or.inl rfl
      static := fun h ↦ nomatch h
      noalloc := fun h ↦ nomatch h
      unchanged := fun _ _ _ ↦ by simp }
  obtain ⟨rest, hrest⟩ := metafy_eq hmetafiable fresh
  refine ⟨rest, ?_⟩
  unfold metafyLine zlelineasstring
  dsimp only
  rw [encodeMarks_eq, Marks.turn_turn, growMarks_eq, Marks.turn_turn, hrest, length_metafied]
  rfl

/-- The positions in bytes. -/
def bytesBoundary (line : List ℕ) (sub : ℤ) (b : Boundary) : Boundary :=
  shrinkBoundary (lineBytes line) 0 sub (keepMeta sub b)

theorem unmetafyLine_eq (zlecs : ℤ) (line : List ℕ) (rest : Bytes) (cs : ℤ)
    (regions : List RegionHighlight) :
    unmetafyLine predisplaylen zlecs
        ⟨metafied (lineBytes line) ++ 0 :: rest, (metafied (lineBytes line)).length, cs, regions⟩ =
      if (lineBytes line).length ≠ 0 then
        (decodeMarks predisplaylen (lineBytes line).length (lineBytes line) .none 0 0
          ⟨⟨zlecs, (bytesBoundary line 0 ⟨cs, cs⟩).metaPos⟩,
            regions.map (·.ends predisplaylen (bytesBoundary line))⟩).map fun (chars, offs, m) ↦
              { zleline := chars
                zlecs := if offs ≤ m.cursor.metaPos then chars.length else m.cursor.pos
                regionHighlights := m.regionHighlights }
      else some ⟨[], 0, regions.map (·.ends predisplaylen (bytesBoundary line))⟩ := by
  have hset : (metafied (lineBytes line) ++ 0 :: rest).set (metafied (lineBytes line)).length 0 =
      metafied (lineBytes line) ++ 0 :: rest := by
    rw [set_at_length]
  obtain ⟨after, hafter⟩ := unmetafy_metafied (lineBytes line) rest
  unfold unmetafyLine stringaszleline
  dsimp only
  rw [hset, shrinkMarks_metafied, hafter, Marks.turn_turn]
  dsimp only
  rw [take_left]
  rfl

theorem unmetafyLine_decodesTo {predisplaylen : ℕ} {zlecs : ℤ} {rest : Bytes}
    {cs : ℤ} {regions : List RegionHighlight} {l' : CharLine}
    (h : unmetafyLine predisplaylen zlecs ⟨metafied (lineBytes line) ++ 0 :: rest,
      (metafied (lineBytes line)).length, cs, regions⟩ = some l') :
    DecodesTo (lineBytes line) .none l'.zleline := by
  rw [unmetafyLine_eq] at h
  split at h
  case isTrue hne =>
    obtain ⟨⟨chars, ends⟩, hdecode, rfl⟩ := Option.map_eq_some_iff.mp h
    exact ⟨_, _, _, _, _, ends, hdecode⟩
  case isFalse hzero =>
    cases h
    obtain hnil : lineBytes line = [] := List.length_eq_zero_iff.mp (not_not.mp hzero)
    rw [hnil]
    exact ⟨0, 0, 0, 0, ⟨⟨0, 0⟩, []⟩, _, rfl⟩

theorem unmetafyLine_decodes (h : Decodes line .none) (predisplaylen : ℕ)
    (zlecs : ℤ) (rest : Bytes) (regions : List RegionHighlight) {k : ℕ} (hk : k ≤ line.length) :
    unmetafyLine predisplaylen zlecs ⟨metafied (lineBytes line) ++ 0 :: rest,
        (metafied (lineBytes line)).length, metaLength line k, regions⟩ =
      some ⟨line, k, regions.map (·.ends predisplaylen (backBoundary line))⟩ := by
  have hcursor : (bytesBoundary line 0 ⟨metaLength line k, metaLength line k⟩).metaPos =
      byteLength line k := by
    have hshrink := shrinkBoundary_metaLength line k 0
    rw [zero_add, zero_add] at hshrink
    unfold bytesBoundary keepMeta
    rw [hshrink]
  rw [unmetafyLine_eq, hcursor]
  split
  case isTrue hne =>
    have hdecode := decodeBoundary_at hk 0 0 0 zlecs
    rw [Nat.zero_add, zero_add, zero_add, Nat.zero_add] at hdecode
    rw [decodeMarks_of_decodes h (Nat.le_refl _), Option.map_some]
    unfold Marks.turn
    dsimp only
    rw [hdecode, Nat.zero_add, map_map]
    have hend : ((lineBytes line).length : ℤ) ≤ byteLength line k ↔ k = line.length :=
      Nat.cast_le.trans (length_le_byteLength_iff hk)
    have hplace : (if ((lineBytes line).length : ℤ) ≤ byteLength line k then (line.length : ℤ)
        else if k < line.length then (k : ℤ) else zlecs) = k := by
      rcases Nat.lt_or_eq_of_le hk with hlt | heq
      · rw [if_neg (fun h ↦ hlt.ne (hend.mp h)), if_pos hlt]
      · rw [if_pos (hend.mpr heq), heq]
    rw [hplace]
    rfl
  case isFalse hzero =>
    obtain rfl : line = [] :=
      eq_nil_of_lineBytes (List.length_eq_zero_iff.mp (not_not.mp hzero))
    obtain rfl : k = 0 := Nat.le_zero.mp hk
    rfl

/-- Every position points at its character in between. -/
theorem outBoundary_place {x : ℤ} (hlow : 0 ≤ x - sub)
    (hhigh : x - sub ≤ line.length) (y : ℤ) :
    (outBoundary line sub ⟨x, y⟩).metaPos = metaPlace line sub x := by
  have hx : x = sub + ((x - sub).toNat : ℕ) := by omega
  nth_rewrite 1 [hx]
  exact outBoundary_at (by omega) sub y

/-- A boundary comes back unless it is the end of a line that gets longer. -/
theorem backBoundary_outBoundary_iff {x : ℤ} (hlow : 0 ≤ x - sub)
    (hhigh : x - sub ≤ line.length) (y : ℤ) :
    (backBoundary line sub (outBoundary line sub ⟨x, y⟩)).pos = x ↔
      x - sub ≠ line.length ∨ metaLength line line.length = line.length := by
  have hk : (x - sub).toNat ≤ line.length := by omega
  rw [backBoundary_at hk (outBoundary_place hlow hhigh y)]
  split
  case isTrue hlt =>
    have hcast : sub + (((x - sub).toNat : ℕ) : ℤ) = x := by omega
    exact iff_of_true hcast (Or.inl (by omega))
  case isFalse hge =>
    have hend : (x - sub).toNat = line.length := by omega
    rw [hend]
    omega

/-- For every line, cursor and regions: the conversion points at the same characters in between and
gives everything back exactly if the line is convertible, and no region has a boundary at the end of
a line whose metafied form is longer. -/
theorem thereAndBack_iff (predisplaylen : ℕ) (fresh : UInt8) (zlecs : ℤ) (l : CharLine)
    (hlow : 0 ≤ l.zlecs) (hhigh : l.zlecs ≤ l.zleline.length)
    (hregions : ∀ r ∈ l.regionHighlights, r.Within predisplaylen l.zleline.length)
    (hinvalid : InvalidBytes l.zleline) :
    ThereAndBack predisplaylen fresh zlecs l ↔ Convertible l.zleline ∧
      ((∀ r ∈ l.regionHighlights, r.Before predisplaylen l.zleline.length) ∨
        ∀ wc ∈ l.zleline, OneByte wc) := by
  obtain ⟨rest, hout⟩ := metafyLine_eq predisplaylen fresh l
  have hcursor : (outBoundary l.zleline 0 ⟨l.zlecs, 0⟩).metaPos = metaPlace l.zleline 0 l.zlecs :=
    outBoundary_place (by omega) (by omega) 0
  have hcs : metaPlace l.zleline 0 l.zlecs = metaLength l.zleline l.zlecs.toNat := by
    unfold metaPlace
    rw [zero_add, sub_zero]
  rw [hcursor, hcs] at hout
  rw [← metaLength_eq_length_iff]
  have hplaces : (l.regionHighlights.map (·.ends predisplaylen (outBoundary l.zleline))).map
      RegionHighlight.metaBounds = l.regionHighlights.map fun r ↦
        (r.predisplay, metaPlace l.zleline (r.sub predisplaylen) r.start,
          metaPlace l.zleline (r.sub predisplaylen) r.stop) := by
    rw [map_map]
    apply map_congr_left
    intro r hr
    have hwithin := hregions r hr
    have horder := hwithin.order
    have hstart := hwithin.start
    have hstop := hwithin.stop
    exact Prod.ext rfl (Prod.ext (outBoundary_place hstart (by omega) r.startMeta)
      (outBoundary_place (by omega) hstop r.stopMeta))
  have hback : ((l.regionHighlights.map (·.ends predisplaylen (outBoundary l.zleline))).map
      (·.ends predisplaylen (backBoundary l.zleline))).map RegionHighlight.bounds =
        l.regionHighlights.map RegionHighlight.bounds ↔
      (∀ r ∈ l.regionHighlights, r.Before predisplaylen l.zleline.length) ∨
        metaLength l.zleline l.zleline.length = l.zleline.length := by
    have hregion (r : RegionHighlight) (hr : r ∈ l.regionHighlights) :
        RegionHighlight.bounds ((r.ends predisplaylen (outBoundary l.zleline)).ends predisplaylen
          (backBoundary l.zleline)) = r.bounds ↔
        r.Before predisplaylen l.zleline.length ∨
          metaLength l.zleline l.zleline.length = l.zleline.length := by
      have hwithin := hregions r hr
      have horder := hwithin.order
      have hstart := hwithin.start
      have hstop := hwithin.stop
      calc RegionHighlight.bounds ((r.ends predisplaylen (outBoundary l.zleline)).ends
            predisplaylen (backBoundary l.zleline)) = r.bounds
          ↔ (backBoundary l.zleline (r.sub predisplaylen)
              (outBoundary l.zleline (r.sub predisplaylen) ⟨r.start, r.startMeta⟩)).pos = r.start ∧
            (backBoundary l.zleline (r.sub predisplaylen)
              (outBoundary l.zleline (r.sub predisplaylen) ⟨r.stop, r.stopMeta⟩)).pos =
                r.stop := by
            rw [Prod.mk.injEq, Prod.mk.injEq]
            exact and_iff_right rfl
        _ ↔ r.Before predisplaylen l.zleline.length ∨
            metaLength l.zleline l.zleline.length = l.zleline.length := by
            rw [backBoundary_outBoundary_iff hstart (by omega),
              backBoundary_outBoundary_iff (by omega) hstop, ← and_or_right]
            rfl
    rw [map_map, map_map, map_inj_left]
    calc _ ↔ ∀ r ∈ l.regionHighlights, r.Before predisplaylen l.zleline.length ∨
          metaLength l.zleline l.zleline.length = l.zleline.length := forall₂_congr hregion
      _ ↔ _ := by
        by_cases hsame : metaLength l.zleline l.zleline.length = l.zleline.length
        · exact iff_of_true (fun _ _ ↦ Or.inr hsame) (Or.inr hsame)
        · simp only [hsame, or_false]
  constructor
  · rintro ⟨b, hb, -, -, l', hl', hline, -, hbounds⟩
    rw [hout] at hb
    obtain rfl := Option.some.inj hb
    rcases settled hinvalid with ⟨hdecodes, hconv⟩ | ⟨hconv, hne⟩
    · rw [unmetafyLine_decodes hdecodes predisplaylen zlecs rest _ (by omega)] at hl'
      obtain rfl := Option.some.inj hl'
      exact ⟨hconv, hback.mp hbounds⟩
    · exact absurd hline (hne _ (unmetafyLine_decodesTo hl'))
  · rintro ⟨hconv, hends⟩
    rcases settled hinvalid with ⟨hdecodes, -⟩ | ⟨hnot, -⟩
    · refine ⟨_, hout, hcs.symm, hplaces, _,
        unmetafyLine_decodes hdecodes predisplaylen zlecs rest _ (by omega), rfl, ?_,
        hback.mpr hends⟩
      exact Int.toNat_of_nonneg hlow
    · exact absurd hconv hnot

theorem mixed_thereAndBack :
    ThereAndBack 2 0 0 ⟨[0x61, 0xE9, 0, 0xE0FF, 0x62], 5, [⟨true, 3, 6, 0, 0⟩]⟩ := by
  have hcut : ¬ EndsCut ([0x61, 0xE9, 0, 0xE0FF] ++ [0x62]) := not_endsCut_append (by decide)
  refine (thereAndBack_iff 2 0 0 _ (by decide) (by decide) ?_ (by decide)).mpr
    ⟨⟨by decide, hcut⟩, Or.inl ?_⟩
  · intro r hr
    rw [List.mem_singleton.mp hr]
    exact ⟨by decide, by decide, by decide⟩
  · intro r hr
    rw [List.mem_singleton.mp hr]
    exact ⟨by decide, by decide⟩

/-- The end of a region over a NUL comes back one character behind the end of the line. -/
theorem nul_not_thereAndBack :
    ¬ ∀ (predisplaylen : ℕ) (fresh : UInt8) (zlecs : ℤ) (l : CharLine), 0 ≤ l.zlecs →
      l.zlecs ≤ l.zleline.length →
      (∀ r ∈ l.regionHighlights, r.Within predisplaylen l.zleline.length) →
      InvalidBytes l.zleline → ThereAndBack predisplaylen fresh zlecs l := by
  intro h
  have hwithin : ∀ r ∈ [RegionHighlight.mk false 0 1 0 0], r.Within 0 1 := by
    intro r hr
    rw [List.mem_singleton.mp hr]
    exact ⟨by decide, by decide, by decide⟩
  obtain ⟨b, hb, -, -, l', hl', -, -, hbounds⟩ :=
    h 0 0 0 ⟨[0], 0, [⟨false, 0, 1, 0, 0⟩]⟩ (by decide) (by decide) hwithin (by decide)
  obtain rfl : _ = b := Option.some.inj hb
  have hback : unmetafyLine 0 0 ⟨[0x83, 0x20, 0], 2, 0, [⟨false, 0, 1, 0, 2⟩]⟩ =
      some ⟨[0], 0, [⟨false, 0, 2, 0, 1⟩]⟩ := rfl
  obtain rfl : _ = l' := Option.some.inj (hback.symm.trans hl')
  exact absurd hbounds (by decide)

end Bsh.Zle
