import Bsh.Shell.SubscriptScalar

/-!
# Subscripts of arrays

For an array, `getarrvalue` returns the elements of the range, except that some ranges outside of the
array count as one empty string.
-/

namespace Bsh.Shell

open Bsh.Library List

variable {ksh : Bool} {ss : List Bytes} {i : ℤ} {j : Option ℤ}

/-- The ranges that count as one empty string: they begin in front of the first element and do not
end in front of it, or begin behind the last element and have more than one position.  A range that
begins at 0 begins at the first element. -/
def OnlyEmptyString (ksh : Bool) (n : ℕ) (i : ℤ) (j : Option ℤ) : Prop :=
  let a := if i < 0 then norm ksh n i else max (norm ksh n i) 1
  let b := norm ksh n (j.getD i)
  (ZeroRange ksh i j ∧ n = 0) ∨ (a < 1 ∧ a ≤ b) ∨ (n < a ∧ a < b)

instance : Decidable (ZeroRange ksh i j) := inferInstanceAs (Decidable (_ ∧ _ ∧ _))

instance {n : ℕ} : Decidable (OnlyEmptyString ksh n i j) := inferInstanceAs (Decidable (_ ∨ _ ∨ _))

theorem slice_single (ss : List Bytes) (a : ℤ) :
    (slice ss a a).flatten = if ss.length ≤ a - 1 ∨ a - 1 < 0 then [] else ss.getD (a - 1).toNat [] := by
  rw [slice]
  by_cases hneg : a - 1 < 0
  · have hzero : a.toNat = 0 := by omega
    rw [if_pos (.inr hneg), hzero, take_zero, drop_nil, flatten_nil]
  · obtain ⟨k, rfl⟩ : ∃ k : ℕ, a = k + 1 := ⟨(a - 1).toNat, by omega⟩
    have hindex : ((k : ℤ) + 1 - 1).toNat = k := by omega
    have hcount : ((k : ℤ) + 1).toNat = k + 1 := rfl
    rw [hindex, hcount, drop_take, Nat.add_sub_cancel_left]
    by_cases hin : k < ss.length
    · rw [if_neg (by omega), drop_eq_getElem_cons hin, take_succ_cons, take_zero,
        flatten_singleton, getD_eq_getElem?_getD, List.getElem?_eq_getElem hin,
        Option.getD_some]
    · rw [if_pos (by omega), drop_eq_nil_of_le (Nat.le_of_not_lt hin), take_nil,
        flatten_nil]

/-- The list that `getarrvalue` returns, with both ends from the start of the array. -/
theorem getarrvalue_eq {v : SubscriptValue} {a b : ℤ}
    (hstart : (if v.start < 0 then v.start + ss.length else v.start) = a - 1)
    (hstop : (if v.stop < 0 then v.stop + (ss.length + 1) else v.stop) = b) :
    getarrvalue ss v = if (a < 1 ∧ a ≤ b) ∨ (ss.length < a ∧ a < b) then [[]] else slice ss a b := by
  have hbelow (h : b ≤ a - 1) : slice ss a b = [] :=
    drop_eq_nil_of_le (Nat.le_trans (length_take_le _ _) (by omega))
  by_cases hwhole : v.start = 0 ∧ v.stop = -1
  · obtain rfl : a = 1 := by omega
    obtain rfl : b = ss.length := by omega
    rw [getarrvalue, if_pos hwhole, if_neg (by omega), slice, Int.toNat_natCast, take_length]
    rfl
  · simp only [getarrvalue, if_neg hwhole, hstart, hstop]
    by_cases hempty : b ≤ a - 1
    · rw [if_pos hempty, if_neg (by omega), hbelow hempty]
      rfl
    · rw [if_neg hempty]
      by_cases hfront : a - 1 < 0
      · rw [if_pos hfront, if_pos (by omega)]
        rfl
      · rw [if_neg hfront]
        by_cases hbehind : ss.length ≤ a - 1
        · rw [if_pos hbehind]
          by_cases hone : b = a
          · obtain rfl := hone
            have hlen : ss.length ≤ (b - 1).toNat := by omega
            rw [if_neg (by omega), slice, drop_eq_nil_of_le
              (Nat.le_trans (length_take_le' _ _) hlen), arrdupMax, sub_add_cancel, sub_self]
            rfl
          · obtain ⟨k, hk⟩ : ∃ k, (b - (a - 1 + 1)).toNat = k + 1 :=
              ⟨(b - (a - 1 + 1)).toNat - 1, by omega⟩
            rw [if_pos (by omega), arrdupMax, hk, take_succ_cons, take_nil]
        · have hcount : (b - (a - 1)).toNat = b.toNat - (a - 1).toNat := by omega
          rw [if_neg hbehind, if_neg (by omega), arrdupMax, slice, drop_take, hcount]

theorem getindexArray_spec (hi : FitsInt ksh ss.length ss.length i)
    (hj : FitsInt ksh ss.length ss.length (j.getD i)) :
    (ZeroRange ksh i j → getindexArray ⟨ksh, false⟩ i j = ⟨-1, 0, true, true⟩) ∧
      (¬ ZeroRange ksh i j →
        let v := getindexArray ⟨ksh, false⟩ i j
        v.com = j.isSome ∧
          (if v.start < 0 then v.start + ss.length else v.start) =
            (if i < 0 then norm ksh ss.length i else max (norm ksh ss.length i) 1) - 1 ∧
          (if v.stop < 0 then v.stop + (ss.length + 1) else v.stop) =
            norm ksh ss.length (j.getD i)) := by
  let opts : SubscriptOpts := ⟨ksh, false⟩
  obtain ⟨hlow, hhigh, hneg, hnorm⟩ := userIndex_spec opts (Nat.le_refl _) hi
  obtain ⟨hlow', hhigh', hneg', hnorm'⟩ := userIndex_spec opts (Nat.le_refl _) hj
  have hraw : toInt (opts.userIndex i) = opts.userIndex i := toInt_eq (by omega)
  have hraw' : toInt (opts.userIndex (j.getD i)) = opts.userIndex (j.getD i) := toInt_eq (by omega)
  have hlast : ((j.map (getargArray opts)).getD (getargArray opts i)).raw =
      opts.userIndex (j.getD i) := by
    cases j <;> rfl
  have hzero := zeroRange_iff ksh (Nat.le_refl _) hi hj
  refine ⟨fun h ↦ ?_, fun h ↦ ?_⟩
  · obtain ⟨hr, hr'⟩ := hzero.mp h
    have hz : toInt 0 = 0 := rfl
    cases j with
    | none => simp [getindexArray, subscriptValue, getargArray, hr, hz]
    | some j =>
      rw [Option.getD_some] at hr'
      simp [getindexArray, subscriptValue, getargArray, hr, hr', hz]
  · rw [hzero] at h
    have hraw2 (b) (hb : b ∈ j.map (getargArray opts)) : toInt b.raw = b.raw := by
      cases j with
      | none => cases hb
      | some j =>
        cases hb
        exact hraw'
    rw [← hlast] at h
    have hvalue := subscriptValue_eq ksh (a := getargArray opts i) hraw hraw2 h
    rw [getindexArray, hvalue, hlast, hnorm, hnorm']
    refine ⟨?_, ?_, ?_⟩
    · cases j with
      | none => simp [getargArray, opts]
      | some j => rfl
    · have hstart : (if 0 < (getargArray opts i).raw then
          (getargArray opts i).raw - (getargArray opts i).prevcharlen else (getargArray opts i).raw) =
          if 0 < opts.userIndex i then opts.userIndex i - 1 else opts.userIndex i := rfl
      simp only [hstart]
      split_ifs <;> omega
    · simp only []
      split_ifs <;> omega

theorem arraySubscript_eq (hi : FitsInt ksh ss.length ss.length i)
    (hj : FitsInt ksh ss.length ss.length (j.getD i)) :
    arraySubscript ⟨ksh, false⟩ ss i j =
      if j = none ∧ ¬ ZeroRange ksh i j then
        .inl (slice ss (norm ksh ss.length i) (norm ksh ss.length i)).flatten
      else if OnlyEmptyString ksh ss.length i j then .inr [[]]
      else .inr (slice ss (norm ksh ss.length i) (norm ksh ss.length (j.getD i))) := by
  obtain ⟨hzero, hother⟩ := getindexArray_spec hi hj
  rw [arraySubscript]
  by_cases h : ZeroRange ksh i j
  · obtain ⟨hksh, hi0, hj0⟩ := id h
    have hfrom : norm ksh ss.length i = 0 := by rw [norm, hi0, hksh]; rfl
    have hto : norm ksh ss.length (j.getD i) = 0 := by rw [norm, hj0, hksh]; rfl
    have hempty : OnlyEmptyString ksh ss.length i j ↔ ss.length = 0 := by
      have hneg : ¬ i < 0 := by omega
      simp only [OnlyEmptyString, hfrom, hto, h, true_and, if_neg hneg]
      omega
    have hlast : getarrvalue ss ⟨-1, 0, true, true⟩ = _ :=
      getarrvalue_eq (a := ss.length) (b := 0) (by simp; omega) rfl
    have hone : ¬ (j = none ∧ ¬ ZeroRange ksh i j) := fun hnot ↦ hnot.2 h
    simp only [hzero h, if_true, if_neg hone, hlast, hempty, hfrom, hto]
    by_cases hn : ss.length = 0
    · rw [if_pos (by omega), if_pos hn]
    · rw [if_neg (by omega), if_neg hn, slice, slice, Int.toNat_zero, take_zero, drop_nil,
        drop_nil]
  · obtain ⟨hcom, hstart, hstop⟩ := hother h
    simp only [hcom]
    cases j with
    | none =>
      have hpos : (if i < 0 then norm ksh ss.length i else max (norm ksh ss.length i) 1) =
          norm ksh ss.length i := by
        have hnonzero : ¬ (ksh = false ∧ i = 0) := fun hz ↦ h ⟨hz.1, hz.2, hz.2⟩
        rw [norm]
        split_ifs with hneg hksh
        · rfl
        · omega
        · have hne : i ≠ 0 := fun hi0 ↦ hnonzero ⟨Bool.not_eq_true _ ▸ hksh, hi0⟩
          omega
      rw [hpos] at hstart
      rw [if_neg (by simp), if_pos ⟨rfl, h⟩, slice_single]
      simp only [getstrvalueArray, hstart]
    | some j =>
      have hfirst (b : ℤ) :
          slice ss (if i < 0 then norm ksh ss.length i else max (norm ksh ss.length i) 1) b =
            slice ss (norm ksh ss.length i) b := by
        have hindex : ((if i < 0 then norm ksh ss.length i else max (norm ksh ss.length i) 1) -
            1).toNat = (norm ksh ss.length i - 1).toNat := by
          split_ifs <;> omega
        rw [slice, slice, hindex]
      have htwo : ¬ (some j = none ∧ ¬ ZeroRange ksh i (some j)) := fun hnone ↦
        Option.some_ne_none j hnone.1
      rw [if_pos Option.isSome_some, getarrvalue_eq hstart hstop, hfirst, if_neg htwo]
      simp only [OnlyEmptyString, h, false_and, false_or]
      split_ifs <;> rfl

/-! ## Subscripts of both kinds -/

/-- Subscripts name the characters of a scalar or the elements of an array from one position to
another, and an assignment to a subscript of a scalar replaces them.  Only the range 0 of a scalar
takes no assignment, and some ranges outside of an array count as one empty string.  The subscripts
fit in an `int` as offsets, and no character of the scalar is cut off. -/
theorem forward_subscripts (env : TextEnv) (ksh strset : Bool) (b val : Bytes) (ss : List Bytes)
    (i : ℤ) (j : Option ℤ) :
    (¬ env.EndsCut (metafied b) →
      let s := metafied b
      let chs := env.characters s
      let first := norm ksh chs.length i
      let last := norm ksh chs.length (j.getD i)
      FitsInt ksh chs.length s.length i → FitsInt ksh chs.length s.length (j.getD i) →
      scalarSubscript env ⟨ksh, false⟩ s i j = some (slice chs first last).flatten ∧
        (s.length + val.length < 2 ^ 31 →
          (env.multibyte = false → j.getD i < 0 → 0 < last →
            ∀ ch ∈ chs[last.toNat - 1]?, ch.length = 1) →
          assignScalar env ⟨ksh, false⟩ strset s i j val =
            if ZeroRange ksh i j then some .invalidRange
            else some (.value ((beforeSlice chs first).flatten ++ val ++
              (behindSlice chs first last).flatten)))) ∧
      (FitsInt ksh ss.length ss.length i → FitsInt ksh ss.length ss.length (j.getD i) →
        arraySubscript ⟨ksh, false⟩ ss i j =
          if j = none ∧ ¬ ZeroRange ksh i j then
            .inl (slice ss (norm ksh ss.length i) (norm ksh ss.length i)).flatten
          else if OnlyEmptyString ksh ss.length i j then .inr [[]]
          else .inr (slice ss (norm ksh ss.length i) (norm ksh ss.length (j.getD i)))) := by
  refine ⟨fun hends ↦ ?_, arraySubscript_eq⟩
  intro s chs first last hi hj
  have hcut := env.cut_characters b
  have hcount := TextEnv.metastrlen_metafied hends
  refine ⟨scalarSubscript_eq hcut hcount hi hj, fun hlen hsingle ↦ ?_⟩
  obtain ⟨hzero, hother⟩ := assignScalar_eq strset hcut hcount hi hj hlen hsingle
  split_ifs with h
  · exact hzero h
  · exact hother h

/-- Text in the C locale. -/
def TextEnv.portable : TextEnv where
  charset := Charset.portable
  multibyte := false
  singleByte := true
  stateless _ _ _ _ _ := rfl
  single_complete _ c st := by
    change (if c < 0x80 then MbResult.char c.toNat else .invalid) ≠ .incomplete
    split_ifs <;> exact fun h ↦ nomatch h

theorem Charset.portable_ascii : ∀ c < 0x80,
    (Charset.portable.mbrtowc c Charset.portable.initial).1 = .char c.toNat := fun c hc ↦ by
  change (if c < 0x80 then MbResult.char c.toNat else .invalid) = _
  rw [if_pos hc]

theorem forward_subscripts_abc :
    scalarSubscript .portable ⟨false, false⟩ [char 'a', char 'b', char 'c'] (-2) (some 3) =
        some [char 'b', char 'c'] ∧
      assignScalar .portable ⟨false, false⟩ true [char 'a', char 'b', char 'c'] (-2) (some 3)
        [char 'x'] = some (.value [char 'a', char 'x']) ∧
      arraySubscript ⟨false, false⟩ [[char 'a'], [char 'b'], [char 'c']] 2 none =
        .inl [char 'b'] := by
  have h := forward_subscripts .portable false true [char 'a', char 'b', char 'c'] [char 'x'] []
    (-2) (some 3)
  have h' := forward_subscripts .portable false true [] [] [[char 'a'], [char 'b'], [char 'c']] 2
    none
  obtain ⟨hread, hwrite⟩ := h.1 (fun hends ↦ nomatch hends.2.1)
    (by constructor <;> decide +kernel) (by constructor <;> decide +kernel)
  refine ⟨hread.trans ?_, (hwrite ?_ ?_).trans ?_, (h'.2 ?_ ?_).trans ?_⟩
  · decide +kernel
  · decide +kernel
  · exact fun _ hneg ↦ absurd hneg (by decide)
  · decide +kernel
  · constructor <;> decide +kernel
  · constructor <;> decide +kernel
  · decide +kernel

/-- Element 0 of a string takes no assignment, and a range of an array that begins in front of the
first element is not cut off there. -/
theorem not_forward_subscripts :
    assignScalar .portable ⟨false, false⟩ true [char 'a', char 'b', char 'c'] 0 none [char 'x'] =
        some .invalidRange ∧
      arraySubscript ⟨false, false⟩ [[char 'a'], [char 'b']] (-5) (some 2) = .inr [[]] ∧
      slice [[char 'a'], [char 'b']] (norm false 2 (-5)) (norm false 2 2) =
        [[char 'a'], [char 'b']] := by
  decide +kernel

end Bsh.Shell
