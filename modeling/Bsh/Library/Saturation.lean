import Bsh.Library.Accumulator

/-!
# Accumulators that refuse digits

A reader of numbers that refuses a digit when the number would get too large, and goes on with the
next one.  Dividing its accumulator by the base is meant to give the last digit back.  That works
while no digit has been refused; afterwards the accumulator lags behind the digits.
-/

namespace Bsh.Library

open List

namespace Accumulator

variable {b M d : ℕ}

/-- One digit more, if the number stays within the limit. -/
def add (b M acc d : ℕ) : ℕ := if b * acc + d ≤ M then b * acc + d else acc

/-- What is read of digits. -/
def gather (b M : ℕ) (ds : List ℕ) : ℕ := ds.foldl (add b M) 0

theorem gather_concat (ds : List ℕ) (d : ℕ) :
    gather b M (ds ++ [d]) = add b M (gather b M ds) d := by
  rw [gather, foldl_append]
  rfl

variable {acc : ℕ} {ds : List ℕ}

theorem take_concat_of_le {k : ℕ} (hk : k ≤ ds.length) (d : ℕ) :
    (ds ++ [d]).take k = ds.take k := take_append_of_le_length hk

/-- A prefix of digits is a quotient of the number. -/
theorem value_take_div (hds : ∀ d ∈ ds, d < b) {k : ℕ} (hk : k ≤ ds.length) :
    value b ds / b ^ (ds.length - k) = value b (ds.take k) := by
  induction ds using List.reverseRecOn with
  | nil =>
    rw [take_nil, length_nil, Nat.zero_sub, pow_zero, Nat.div_one]
  | append_singleton ds d ih =>
    have hd : d < b := hds d (mem_append_right _ mem_cons_self)
    have hlength : (ds ++ [d]).length = ds.length + 1 := length_append
    obtain hle | heq := Nat.lt_or_eq_of_le hk
    · have hk' : k ≤ ds.length := by omega
      have hpow : (ds ++ [d]).length - k = ds.length - k + 1 := by omega
      rw [hpow, pow_succ', ← Nat.div_div_eq_div_mul, value_concat, Nat.mul_comm b,
        Nat.add_comm _ d, Nat.add_mul_div_right _ _ (by omega), Nat.div_eq_of_lt hd, Nat.zero_add,
        ih (fun e he ↦ hds e (mem_append_left _ he)) hk', take_concat_of_le hk']
    · rw [heq, Nat.sub_self, pow_zero, Nat.div_one, take_length]

theorem gather_eq_value (hb : 1 ≤ b) (h : value b ds ≤ M) :
    gather b M ds = value b ds := by
  induction ds using List.reverseRecOn with
  | nil => rfl
  | append_singleton ds d ih =>
    rw [value_concat] at h ⊢
    have hle : value b ds ≤ b * value b ds + d :=
      (Nat.le_mul_of_pos_left _ hb).trans (Nat.le_add_right _ _)
    rw [gather_concat, ih (hle.trans h), add, if_pos h]

theorem add_div (hd : d < b) (acc i : ℕ) : (b * acc + d) / b ^ (i + 1) = acc / b ^ i := by
  rw [pow_succ', ← Nat.div_div_eq_div_mul, Nat.mul_comm b, Nat.add_comm _ d,
    Nat.add_mul_div_right _ _ (by omega), Nat.div_eq_of_lt hd, Nat.zero_add]

/-- Behind a refused digit the quotients of the accumulator are behind the prefixes. -/
theorem gather_div_le (hb : 1 ≤ b) (hds : ∀ d ∈ ds, d < b) (h : M < value b ds)
    {i : ℕ} (hi : i < ds.length) :
    gather b M ds / b ^ i ≤ value b (ds.take (ds.length - 1 - i)) := by
  induction ds using List.reverseRecOn generalizing i with
  | nil => cases hi
  | append_singleton ds d ih =>
    have hd : d < b := hds d (mem_append_right _ mem_cons_self)
    have hds' : ∀ e ∈ ds, e < b := fun e he ↦ hds e (mem_append_left _ he)
    have hlength : (ds ++ [d]).length = ds.length + 1 := length_append
    have hplace : (ds ++ [d]).length - 1 - i = ds.length - i := by omega
    rw [hplace, take_concat_of_le (Nat.sub_le _ _), gather_concat, add]
    by_cases hfits : value b ds ≤ M
    · -- The first digit that is refused.
      rw [value_concat] at h
      have hdiv := value_take_div hds' (Nat.sub_le ds.length i)
      have hback : ds.length - (ds.length - i) = i := by omega
      rw [hback] at hdiv
      rw [gather_eq_value hb hfits, if_neg (not_le.mpr h), hdiv]
    · have hover := not_le.mp hfits
      have hpos : 0 < ds.length := by
        apply List.length_pos_iff.mpr
        rintro rfl
        exact absurd hover (Nat.not_lt_zero M)
      split
      · next haccepted =>
        cases i with
        | zero =>
          rw [pow_zero, Nat.div_one, Nat.sub_zero, take_length]
          exact haccepted.trans hover.le
        | succ i =>
          have hnext := ih hds' hover (by omega : i < ds.length)
          have hsame : ds.length - (i + 1) = ds.length - 1 - i := by omega
          rwa [add_div hd, hsame]
      · by_cases hlast : i < ds.length
        · calc
            _ ≤ value b (ds.take (ds.length - 1 - i)) := ih hds' hover hlast
            _ ≤ value b (ds.take (ds.length - i)) := value_take_le hb ds (by omega)
        · have hfirst := ih hds' hover (by omega : ds.length - 1 < ds.length)
          have hnone : ds.length - 1 - (ds.length - 1) = 0 := Nat.sub_self _
          rw [hnone] at hfirst
          calc
            _ ≤ gather b M ds / b ^ (ds.length - 1) :=
              Nat.div_le_div_left (Nat.pow_le_pow_right hb (by omega)) (Nat.pow_pos hb)
            _ ≤ value b (ds.take 0) := hfirst
            _ ≤ _ := value_take_le hb ds (Nat.zero_le _)

/-! ## Digits that are left out -/

/-- The accumulator is full but for one digit: some digits are refused, and then a smaller one is
taken, so that the number `x` is not the value of a prefix. -/
def LeavesOut (b M : ℕ) (ds : List ℕ) (x : ℕ) : Prop :=
  ∃ front refused d back, ds = front ++ refused ++ d :: back ∧ value b front = M / b ∧
    refused ≠ [] ∧ (∀ e ∈ refused, M % b < e) ∧ d ≤ M % b ∧ x = b * (M / b) + d

theorem LeavesOut.append {x : ℕ} (h : LeavesOut b M ds x) (more : List ℕ) :
    LeavesOut b M (ds ++ more) x := by
  obtain ⟨front, refused, d, back, hds, hrest⟩ := h
  refine ⟨front, refused, d, back ++ more, ?_, hrest⟩
  rw [hds, append_assoc, append_assoc, append_assoc, cons_append]

theorem add_of_full (hacc : acc = M / b) (d : ℕ) :
    b * acc + d ≤ M ↔ d ≤ M % b := by
  have hsplit := Nat.div_add_mod M b
  rw [hacc]
  omega

theorem not_add_of_lt (hb : 1 ≤ b) (hacc : M / b < acc) (d : ℕ) : ¬ b * acc + d ≤ M := by
  have hlt := Nat.lt_mul_of_div_lt hacc hb
  rw [Nat.mul_comm] at hlt
  omega

/-- Once a digit has been refused, the accumulator is full, perhaps but for one small digit. -/
theorem gather_full (hb : 2 ≤ b) (hM : b ≤ M) (hds : ∀ d ∈ ds, d < b)
    (h : M < value b ds) :
    M / b < gather b M ds ∨
      ∃ front refused, ds = front ++ refused ∧ value b front = M / b ∧ gather b M ds = M / b ∧
        refused ≠ [] ∧ ∀ e ∈ refused, M % b < e := by
  induction ds using List.reverseRecOn with
  | nil => exact absurd h (Nat.not_lt_zero M)
  | append_singleton ds d ih =>
    have hd : d < b := hds d (mem_append_right _ mem_cons_self)
    have hds' : ∀ e ∈ ds, e < b := fun e he ↦ hds e (mem_append_left _ he)
    rw [gather_concat, add]
    by_cases hfits : value b ds ≤ M
    · have hgather := gather_eq_value (by omega) hfits
      rw [value_concat] at h
      rw [hgather, if_neg (not_le.mpr h)]
      obtain hlt | heq | hgt := lt_trichotomy (value b ds) (M / b)
      · have hbelow : b * (value b ds + 1) ≤ b * (M / b) := Nat.mul_le_mul_left b hlt
        have hlimit := Nat.mul_div_le M b
        rw [Nat.mul_succ] at hbelow
        omega
      · right
        refine ⟨ds, [d], rfl, heq, heq, cons_ne_nil _ _, ?_⟩
        intro e he
        rw [List.mem_singleton.mp he]
        exact not_le.mp fun hle ↦ absurd ((add_of_full heq d).mpr hle) (not_le.mpr h)
      · exact .inl hgt
    · obtain hfull | ⟨front, refused, hsplit, hfront, hgather, hne, hrefused⟩ :=
        ih hds' (not_le.mp hfits)
      · rw [if_neg (not_add_of_lt (by omega) hfull d)]
        exact .inl hfull
      · split
        · left
          have hpos : 0 < M / b := Nat.div_pos hM (by omega)
          nlinarith
        · next hnot =>
          right
          refine ⟨front, refused ++ [d], ?_, hfront, hgather, by simp, ?_⟩
          · rw [hsplit, append_assoc]
          · intro e he
            obtain he | he := List.mem_append.mp he
            · exact hrefused e he
            · rw [List.mem_singleton.mp he]
              exact not_le.mp fun hle ↦ hnot ((add_of_full hgather d).mpr hle)

theorem value_div (hds : ∀ d ∈ ds, d < b) (hb : 1 ≤ b) (i : ℕ) :
    value b ds / b ^ i = value b (ds.take (ds.length - i)) := by
  by_cases hi : i ≤ ds.length
  · have hdiv := value_take_div hds (Nat.sub_le ds.length i)
    have hback : ds.length - (ds.length - i) = i := by omega
    rwa [hback] at hdiv
  · have hnone : ds.length - i = 0 := by omega
    have hdiv := value_take_div hds (Nat.zero_le _)
    have hzero : value b (ds.take 0) = 0 := rfl
    rw [hnone, hzero]
    apply Nat.eq_zero_of_le_zero
    calc
      _ ≤ value b ds / b ^ ds.length :=
        Nat.div_le_div_left (Nat.pow_le_pow_right hb (by omega)) (Nat.pow_pos hb)
      _ = 0 := hdiv

/-- The quotients of the accumulator are values of prefixes, with one exception. -/
theorem gather_div_cases (hb : 2 ≤ b) (hM : b ≤ M) (hds : ∀ d ∈ ds, d < b)
    (h : M < value b ds) (i : ℕ) :
    (∃ j ≤ ds.length, gather b M ds / b ^ i = value b (ds.take j)) ∨
      i = 0 ∧ LeavesOut b M ds (gather b M ds) := by
  induction ds using List.reverseRecOn generalizing i with
  | nil => exact absurd h (Nat.not_lt_zero M)
  | append_singleton ds d ih =>
    have hd : d < b := hds d (mem_append_right _ mem_cons_self)
    have hds' : ∀ e ∈ ds, e < b := fun e he ↦ hds e (mem_append_left _ he)
    have hlength : (ds ++ [d]).length = ds.length + 1 := length_append
    have hextend {x : ℕ} (hx : ∃ j ≤ ds.length, x = value b (ds.take j)) :
        ∃ j ≤ (ds ++ [d]).length, x = value b ((ds ++ [d]).take j) := by
      obtain ⟨j, hj, hvalue⟩ := hx
      exact ⟨j, by omega, by rw [take_concat_of_le hj, hvalue]⟩
    rw [gather_concat, add]
    by_cases hfits : value b ds ≤ M
    · rw [value_concat] at h
      left
      rw [gather_eq_value (by omega) hfits, if_neg (not_le.mpr h)]
      exact hextend ⟨_, Nat.sub_le _ _, value_div hds' (by omega) i⟩
    · have hover := not_le.mp hfits
      split
      · next haccepted =>
        obtain hfull | ⟨front, refused, hsplit, hfront, hgather, hne, hrefused⟩ :=
          gather_full hb hM hds' hover
        · exact absurd haccepted (not_add_of_lt (by omega) hfull d)
        · cases i with
          | zero =>
            right
            refine ⟨rfl, front, refused, d, [], ?_, hfront, hne, hrefused, ?_, ?_⟩
            · rw [hsplit]
            · exact (add_of_full hgather d).mp haccepted
            · rw [hgather]
          | succ i =>
            left
            rw [add_div hd]
            obtain hprefix | ⟨rfl, -⟩ := ih hds' hover i
            · exact hextend hprefix
            · apply hextend
              refine ⟨front.length, ?_, ?_⟩
              · rw [hsplit, length_append]
                exact Nat.le_add_right _ _
              · have hfirst : ds.take front.length = front := by
                  rw [hsplit, take_left]
                rw [pow_zero, Nat.div_one, hgather, hfirst, hfront]
      · obtain hprefix | ⟨hzero, hleaves⟩ := ih hds' hover i
        · exact .inl (hextend hprefix)
        · exact .inr ⟨hzero, hleaves.append [d]⟩

theorem foldl_add_refused (h : ∀ d ∈ ds, ¬ b * acc + d ≤ M) :
    ds.foldl (add b M) acc = acc := by
  induction ds with
  | nil => rfl
  | cons d ds ih =>
    have hstep : add b M acc d = acc := if_neg (h d mem_cons_self)
    rw [foldl_cons, hstep]
    exact ih fun e he ↦ h e (mem_cons_of_mem _ he)

theorem LeavesOut.gather_eq (hb : 2 ≤ b) (hM : b ≤ M) {x : ℕ}
    (h : LeavesOut b M ds x) : gather b M ds = x := by
  obtain ⟨front, refused, d, back, rfl, hfront, -, hrefused, hd, rfl⟩ := h
  have hpos : 0 < M / b := Nat.div_pos hM (by omega)
  have hfits : value b front ≤ M := hfront ▸ Nat.div_le_self M b
  have hgather : front.foldl (add b M) 0 = M / b := (gather_eq_value (by omega) hfits).trans hfront
  have hkept : refused.foldl (add b M) (M / b) = M / b := by
    apply foldl_add_refused
    intro e he hle
    exact absurd ((add_of_full rfl e).mp hle) (not_le.mpr (hrefused e he))
  have htaken : add b M (M / b) d = b * (M / b) + d := if_pos ((add_of_full rfl d).mpr hd)
  have hfull : M / b < b * (M / b) + d := by nlinarith
  have hrest : back.foldl (add b M) (b * (M / b) + d) = b * (M / b) + d :=
    foldl_add_refused fun e _ ↦ not_add_of_lt (by omega) hfull e
  rw [gather, foldl_append, foldl_append, hgather, hkept, foldl_cons, htaken, hrest]

end Accumulator

end Bsh.Library
