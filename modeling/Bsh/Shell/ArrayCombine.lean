import Bsh.Library.Cells
import Bsh.Shell.NiceFormat

/-!
# Combining arrays

`${a:^b}`, `${a:^^b}`, `${a:|b}` and `${a:*b}` of `paramsubst`.  Arrays are vectors of pointers that
end in `NULL`; what reads or writes outside of a vector, or takes a remainder by zero, fails.
-/

namespace Bsh.Shell

open Bsh.Library Bytes List

/-- Strings and vectors of pointers to strings, with the next addresses of both. -/
structure PtrHeap where
  str : ℕ → Bytes
  vec : ℕ → Cells (Option ℕ)
  strs : ℕ
  vecs : ℕ

/-- The pointers in front of `NULL`. -/
def pointersOf : Cells (Option ℕ) → Option (List ℕ)
  | some none :: _ => some []
  | some (some p) :: rest => (pointersOf rest).map (p :: ·)
  | _ => none

/-- The cells of pointers. -/
def pointerCells (ps : List ℕ) : Cells (Option ℕ) := ps.map fun p ↦ some (some p)

/-- A vector that is full. -/
def vectorOf (ps : List ℕ) : Cells (Option ℕ) := pointerCells ps ++ [some none]

/-- The local variables of `paramsubst` that hold the value. -/
structure SubstValue where
  val : ℕ
  aval : ℕ
  isarr : Bool
  copied : Bool

namespace PtrHeap

variable (m : PtrHeap)

def setVec (v : ℕ) (cells : Cells (Option ℕ)) : PtrHeap :=
  { m with vec := Function.update m.vec v cells }

def newString (s : Bytes) : ℕ × PtrHeap :=
  (m.strs, { m with str := Function.update m.str m.strs s, strs := m.strs + 1 })

/-- `dupstring`. -/
def dupstring (p : ℕ) : ℕ × PtrHeap := m.newString (m.str p)

def newVector (cells : Cells (Option ℕ)) : ℕ × PtrHeap :=
  (m.vecs, { m.setVec m.vecs cells with vecs := m.vecs + 1 })

/-- `v[i] = p`. -/
def store (v i : ℕ) (p : Option ℕ) : Option PtrHeap :=
  ((m.vec v).store i p).map (m.setVec v)

/-- `v[i]`. -/
def load (v i : ℕ) : Option (Option ℕ) := (m.vec v)[i]?.join

/-- `arrlen`. -/
def arrlen (v : ℕ) : Option ℕ := (pointersOf (m.vec v)).map length

def dupAll : List ℕ → PtrHeap → List ℕ × PtrHeap
  | [], m => ([], m)
  | p :: ps, m =>
    let (q, m) := m.dupstring p
    let (qs, m) := dupAll ps m
    (q :: qs, m)

/-- `arrdup`. -/
def arrdup (v : ℕ) : Option (ℕ × PtrHeap) :=
  (pointersOf (m.vec v)).map fun ps ↦
    let (qs, m) := dupAll ps m
    m.newVector (vectorOf qs)

/-- `hmkarray` of a string. -/
def hmkarray (p : ℕ) : ℕ × PtrHeap := m.newVector (vectorOf [p])

/-! ## `:^` and `:^^` -/

/-- `v[i % len]`. -/
def element (v i len : ℕ) : Option ℕ := if len = 0 then none else (m.load v (i % len)).join

/-- `aval[i % alen]`, or a copy of it. -/
def front (copied : Bool) (p : ℕ) : ℕ × PtrHeap := if copied then (p, m) else m.dupstring p

/-- The loop that fills `out`; the first argument is `outlen - i`. -/
def zipLoop (copied : Bool) (aval alen zip ziplen out : ℕ) : ℕ → ℕ → PtrHeap → Option PtrHeap
  | 0, i, m => m.store out (i * 2) none
  | turns + 1, i, m => do
    let p ← m.element aval i alen
    let (p, m) := m.front copied p
    let m ← m.store out (i * 2) (some p)
    let q ← m.element zip i ziplen
    let (q, m) := m.dupstring q
    let m ← m.store out (i * 2 + 1) (some q)
    zipLoop copied aval alen zip ziplen out turns (i + 1) m

/-- A scalar becomes an array. -/
def asArray (st : SubstValue) : SubstValue × PtrHeap :=
  if st.isarr then (st, m)
  else
    let (aval, m) := m.hmkarray st.val
    ({ st with aval := aval, isarr := true }, m)

/-- The value for `:^` (`shortest`) and `:^^`, from an array on. -/
def zipValues (shortest : Bool) (zip : ℕ) (st : SubstValue) : Option (SubstValue × PtrHeap) := do
  let alen ← m.arrlen st.aval
  let ziplen ← m.arrlen zip
  let outlen := if shortest ^^ decide (alen > ziplen) then alen else ziplen
  if ¬shortest ∧ (alen = 0 ∨ ziplen = 0) then
    if ziplen ≠ 0 then (m.arrdup zip).map fun (aval, m) ↦ ({ st with aval := aval }, m)
    else some (st, m)
  else
    let (out, m) := m.newVector (Cells.fresh (2 * outlen + 1))
    (zipLoop st.copied st.aval alen zip ziplen out outlen 0 m).map fun m ↦
      ({ st with aval := out, copied := true }, m)

def zipArrays (shortest : Bool) (zip : ℕ) (st : SubstValue) : Option (SubstValue × PtrHeap) :=
  let (st, m) := m.asArray st
  m.zipValues shortest zip st

end PtrHeap

/-! ## `:|` and `:*` -/

/-- The hash table of `newuniqtable`; a node is named by the pointer to its string. -/
structure UniqTable where
  size : ℕ
  nodes : ℕ → List ℕ

namespace PtrHeap

variable (hasher : Bytes → ℕ) (m : PtrHeap)

/-- `addhashnode2`; a node with the same name is replaced. -/
def addhashnode (ht : UniqTable) (p : ℕ) : Option UniqTable :=
  if ht.size = 0 then none
  else
    let i := hasher (m.str p) % ht.size
    let others := (ht.nodes i).filter fun q ↦ m.str q ≠ m.str p
    some { ht with nodes := Function.update ht.nodes i (p :: others) }

/-- `gethashnode2 != NULL`. -/
def present (ht : UniqTable) (s : Bytes) : Option Bool :=
  if ht.size = 0 then none
  else some ((ht.nodes (hasher s % ht.size)).any fun q ↦ m.str q = s)

/-- The elements of an array in a table. -/
def uniqTable (compare : ℕ) : Option UniqTable :=
  (pointersOf (m.vec compare)).bind fun ps ↦
    ps.foldlM (m.addhashnode hasher) ⟨ps.length + 1, fun _ ↦ []⟩

/-- `untokenize` of a string where it stands. -/
def untokenizeAt (p : ℕ) : PtrHeap :=
  { m with str := Function.update m.str p (untokenize (m.str p)) }

/-- `if (ap != apsrc) *ap = *apsrc;` -/
def moveDown (v ap apsrc p : ℕ) : Option PtrHeap :=
  if ap ≠ apsrc then m.store v ap (some p) else some m

/-- The loop over the elements; the first argument bounds the turns. -/
def filterLoop (ht : UniqTable) (intersect : Bool) (v : ℕ) :
    ℕ → ℕ → ℕ → PtrHeap → Option PtrHeap
  | 0, _, _, _ => none
  | turns + 1, ap, apsrc, m =>
    match m.load v apsrc with
    | none => none
    | some none => m.store v ap none
    | some (some p) => do
      let m := m.untokenizeAt p
      let present ← m.present hasher ht (m.str p)
      if (if intersect then present else !present) then
        let m ← m.moveDown v ap apsrc p
        filterLoop ht intersect v turns (ap + 1) (apsrc + 1) m
      else filterLoop ht intersect v turns ap (apsrc + 1) m

/-- `if (!copied) aval = arrdup(aval)`. -/
def ownArray (st : SubstValue) : Option (SubstValue × PtrHeap) :=
  if st.copied then some (st, m)
  else (m.arrdup st.aval).map fun (aval, m) ↦ ({ st with aval := aval, copied := true }, m)

/-- The value for `:*` (`intersect`) and `:|`. -/
def filterArrays (intersect : Bool) (compare : ℕ) (st : SubstValue) :
    Option (SubstValue × PtrHeap) := do
  let ht ← m.uniqTable hasher compare
  if st.isarr then
    let (st, m) ← m.ownArray st
    (filterLoop hasher ht intersect st.aval ((m.vec st.aval).length + 1) 0 0 m).map (st, ·)
  else
    let present ← m.present hasher ht (m.str st.val)
    if (if intersect then !present else present) then
      let (val, m) := m.newString []
      some ({ st with val := val }, m)
    else some (st, m)

end PtrHeap

/-! ## What memory holds -/

@[simp] theorem length_pointerCells (ps : List ℕ) : (pointerCells ps).length = ps.length := length_map _

theorem pointerCells_concat (ps : List ℕ) (p : ℕ) :
    pointerCells (ps ++ [p]) = pointerCells ps ++ [some (some p)] := map_append

theorem pointersOf_eq_some {c : Cells (Option ℕ)} {ps : List ℕ} (h : pointersOf c = some ps) :
    ∃ rest, c = vectorOf ps ++ rest := by
  induction c using pointersOf.induct generalizing ps with
  | case1 rest => exact ⟨rest, by rw [← Option.some.inj h]; rfl⟩
  | case2 p rest ih =>
    obtain ⟨qs, hqs, rfl⟩ := Option.map_eq_some_iff.mp h
    obtain ⟨rest, rfl⟩ := ih hqs
    exact ⟨rest, rfl⟩
  | case3 c h₁ h₂ => exact absurd h (by rw [pointersOf.eq_3 c h₁ h₂]; exact nofun)

theorem pointersOf_vectorOf (ps : List ℕ) (rest : Cells (Option ℕ)) :
    pointersOf (vectorOf ps ++ rest) = some ps := by
  induction ps with
  | nil => rfl
  | cons p ps ih => exact congrArg (Option.map (p :: ·)) ih

theorem untokenize_of_plain {s : Bytes} (h : ∀ c ∈ s, itok c = false) : untokenize s = s := by
  induction s with
  | nil => rfl
  | cons c s ih =>
    rw [untokenize, if_neg (by rw [h c mem_cons_self]; exact Bool.false_ne_true),
      ih fun d hd ↦ h d (mem_cons_of_mem c hd)]

namespace PtrHeap

/-- The vector holds the strings of a list. -/
structure Holds (m : PtrHeap) (v : ℕ) (l : List Bytes) : Prop where
  lt : v < m.vecs
  ptrs : ∃ ps, pointersOf (m.vec v) = some ps ∧ (∀ p ∈ ps, p < m.strs) ∧ ps.map m.str = l

/-- What there was is there, apart from the vectors that are written to. -/
structure Keeps (written : ℕ → Prop) (m m' : PtrHeap) : Prop where
  strs : m.strs ≤ m'.strs
  vecs : m.vecs ≤ m'.vecs
  str : ∀ p < m.strs, m'.str p = m.str p
  vec : ∀ v < m.vecs, ¬ written v → m'.vec v = m.vec v

variable {m m' m'' : PtrHeap} {written : ℕ → Prop} {v p out : ℕ} {l a b : List Bytes}

theorem Keeps.rfl : Keeps written m m := ⟨le_rfl, le_rfl, fun _ _ ↦ .refl _, fun _ _ _ ↦ .refl _⟩

theorem Keeps.trans (h : Keeps written m m') (h' : Keeps written m' m'') :
    Keeps written m m'' where
  strs := h.strs.trans h'.strs
  vecs := h.vecs.trans h'.vecs
  str p hp := (h'.str p (hp.trans_le h.strs)).trans (h.str p hp)
  vec v hv hw := (h'.vec v (hv.trans_le h.vecs) hw).trans (h.vec v hv hw)

theorem Keeps.mono {written' : ℕ → Prop} (h : Keeps written m m')
    (hw : ∀ v < m.vecs, written v → written' v) : Keeps written' m m' :=
  ⟨h.strs, h.vecs, h.str, fun v hv hn ↦ h.vec v hv fun hv' ↦ hn (hw v hv hv')⟩

theorem map_str_congr {ps : List ℕ} (h : ∀ p < m.strs, m'.str p = m.str p)
    (hps : ∀ p ∈ ps, p < m.strs) : ps.map m'.str = ps.map m.str :=
  map_congr_left fun p hp ↦ h p (hps p hp)

theorem Holds.keep (h : Holds m v l) (hk : Keeps written m m') (hv : ¬ written v) :
    Holds m' v l := by
  obtain ⟨ps, hps, hlt, rfl⟩ := h.ptrs
  refine ⟨h.lt.trans_le hk.vecs, ps, ?_, fun p hp ↦ (hlt p hp).trans_le hk.strs, ?_⟩
  · rw [hk.vec v h.lt hv, hps]
  · exact map_str_congr hk.str hlt

theorem keeps_setVec (m : PtrHeap) (v : ℕ) (cells : Cells (Option ℕ)) :
    Keeps (· = v) m (m.setVec v cells) :=
  ⟨le_rfl, le_rfl, fun _ _ ↦ .refl _, fun _ _ hw ↦ Function.update_of_ne hw _ _⟩

theorem keeps_newVector (m : PtrHeap) (cells : Cells (Option ℕ)) :
    Keeps (fun _ ↦ False) m (m.newVector cells).2 :=
  ⟨le_rfl, m.vecs.le_succ, fun _ _ ↦ .refl _, fun _ hv _ ↦ Function.update_of_ne hv.ne _ _⟩

theorem keeps_newString (m : PtrHeap) (s : Bytes) :
    Keeps (fun _ ↦ False) m (m.newString s).2 :=
  ⟨m.strs.le_succ, le_rfl, fun _ hp ↦ Function.update_of_ne hp.ne _ _, fun _ _ _ ↦ .refl _⟩

theorem str_newString (m : PtrHeap) (s : Bytes) :
    (m.newString s).2.str (m.newString s).1 = s := Function.update_self ..

theorem holds_newVector {ps : List ℕ} (h : ∀ p ∈ ps, p < m.strs) :
    Holds (m.newVector (vectorOf ps)).2 (m.newVector (vectorOf ps)).1 (ps.map m.str) := by
  refine ⟨m.vecs.lt_succ_self, ps, ?_, h, .refl _⟩
  calc pointersOf ((m.newVector (vectorOf ps)).2.vec m.vecs)
      = pointersOf (vectorOf ps ++ []) := by rw [append_nil]; exact congrArg _ (Function.update_self ..)
    _ = some ps := pointersOf_vectorOf ps []

@[simp] theorem vec_setVec (m : PtrHeap) (v : ℕ) (c : Cells (Option ℕ)) :
    (m.setVec v c).vec v = c := Function.update_self ..

theorem setVec_setVec (m : PtrHeap) (v : ℕ) (c d : Cells (Option ℕ)) :
    (m.setVec v c).setVec v d = m.setVec v d := by
  unfold setVec
  rw [Function.update_idem]

theorem store_of_vec {before rest : Cells (Option ℕ)} {c : Option (Option ℕ)} (p : Option ℕ)
    (h : m.vec v = before ++ c :: rest) :
    m.store v before.length p = some (m.setVec v (before ++ some p :: rest)) := by
  rw [store, h, Cells.store_append, Option.map_some]

theorem dupAll_spec {ps : List ℕ} (h : ∀ p ∈ ps, p < m.strs) :
    Keeps (fun _ ↦ False) m (dupAll ps m).2 ∧ (∀ q ∈ (dupAll ps m).1, q < (dupAll ps m).2.strs) ∧
      (dupAll ps m).1.map (dupAll ps m).2.str = ps.map m.str := by
  induction ps generalizing m with
  | nil => exact ⟨.rfl, nofun, .refl _⟩
  | cons p ps ih =>
    have hk := keeps_newString m (m.str p)
    have hps : ∀ p ∈ ps, p < m.strs := fun q hq ↦ h q (mem_cons_of_mem p hq)
    obtain ⟨hk', hlt, hmap⟩ := ih fun q hq ↦ (hps q hq).trans_le hk.strs
    have hnew : m.strs < (m.newString (m.str p)).2.strs := m.strs.lt_succ_self
    refine ⟨hk.trans hk', forall_mem_cons.mpr ⟨hnew.trans_le hk'.strs, hlt⟩, ?_⟩
    calc (dupAll (p :: ps) m).1.map (dupAll (p :: ps) m).2.str
        = (m.newString (m.str p)).2.str m.strs :: ps.map (m.newString (m.str p)).2.str :=
          congrArg₂ cons (hk'.str _ hnew) hmap
      _ = (p :: ps).map m.str := congrArg₂ cons (str_newString m _) (map_str_congr hk.str hps)

theorem arrdup_spec (h : Holds m v l) : ∃ w m', m.arrdup v = some (w, m') ∧ m.vecs ≤ w ∧
    Keeps (fun _ ↦ False) m m' ∧ Holds m' w l := by
  obtain ⟨ps, hps, hlt, rfl⟩ := h.ptrs
  obtain ⟨hk, hlt', hmap⟩ := dupAll_spec hlt
  refine ⟨_, _, congrArg (Option.map _) hps, hk.vecs, hk.trans (keeps_newVector _ _), ?_⟩
  rw [← hmap]
  exact holds_newVector hlt'

theorem arrlen_eq (h : Holds m v l) : m.arrlen v = some l.length := by
  obtain ⟨ps, hps, -, rfl⟩ := h.ptrs
  rw [arrlen, hps, Option.map_some, length_map]

theorem element_spec (h : Holds m v l) (hl : l ≠ []) (i : ℕ) :
    ∃ p, m.element v i l.length = some p ∧ p < m.strs ∧ m.str p = l.getD (i % l.length) [] := by
  obtain ⟨ps, hps, hlt, rfl⟩ := h.ptrs
  obtain ⟨rest, hcells⟩ := pointersOf_eq_some hps
  rw [length_map]
  have hpos : 0 < ps.length := length_pos_of_ne_nil fun hnil ↦ hl (by rw [hnil]; rfl)
  have hi : i % ps.length < ps.length := Nat.mod_lt i hpos
  refine ⟨ps[i % ps.length], ?_, hlt _ (getElem_mem hi), ?_⟩
  · have hget : (m.vec v)[i % ps.length]? = some (some (some ps[i % ps.length])) := by
      rw [hcells, vectorOf, pointerCells, append_assoc, getElem?_append_left (by rwa [length_map]),
        getElem?_map, getElem?_eq_getElem hi]
      rfl
    rw [element, if_neg hpos.ne', load, hget]
    rfl
  · rw [getD_eq_getElem?_getD, getElem?_map, getElem?_eq_getElem hi]
    rfl

/-! ## Filling the output -/

/-- The vector holds strings in front of free cells. -/
structure Filled (m : PtrHeap) (out : ℕ) (l : List Bytes) (n : ℕ) : Prop where
  lt : out < m.vecs
  cells : ∃ ps : List ℕ, m.vec out = pointerCells ps ++ Cells.fresh n ∧
    (∀ p ∈ ps, p < m.strs) ∧ ps.map m.str = l

variable {n : ℕ}

theorem Filled.keep (h : Filled m out l n) (hk : Keeps (fun _ ↦ False) m m') :
    Filled m' out l n := by
  obtain ⟨ps, hps, hlt, rfl⟩ := h.cells
  refine ⟨h.lt.trans_le hk.vecs, ps, ?_, fun p hp ↦ (hlt p hp).trans_le hk.strs, ?_⟩
  · rw [hk.vec out h.lt id, hps]
  · exact map_str_congr hk.str hlt

theorem Filled.store (h : Filled m out l (n + 1)) (hp : p < m.strs) :
    ∃ m', m.store out l.length (some p) = some m' ∧ Keeps (· = out) m m' ∧
      Filled m' out (l ++ [m.str p]) n := by
  obtain ⟨ps, hps, hlt, rfl⟩ := h.cells
  have hstore := store_of_vec (some p) hps
  rw [length_pointerCells] at hstore
  rw [length_map]
  refine ⟨_, hstore, keeps_setVec m out _, h.lt, ps ++ [p], ?_, ?_, map_append⟩
  · rw [pointerCells_concat, append_assoc]
    exact vec_setVec ..
  · exact forall_mem_append.mpr ⟨hlt, forall_mem_singleton.mpr hp⟩

theorem Filled.close (h : Filled m out l 1) :
    ∃ m', m.store out l.length none = some m' ∧ Keeps (· = out) m m' ∧ Holds m' out l := by
  obtain ⟨ps, hps, hlt, rfl⟩ := h.cells
  have hstore := store_of_vec none hps
  rw [length_pointerCells] at hstore
  rw [length_map]
  refine ⟨_, hstore, keeps_setVec m out _, h.lt, ps, ?_, hlt, .refl _⟩
  calc pointersOf ((m.setVec out (vectorOf ps)).vec out)
      = pointersOf (vectorOf ps ++ []) := by
        rw [append_nil]
        exact congrArg _ (vec_setVec ..)
    _ = some ps := pointersOf_vectorOf ps []

theorem front_spec (copied : Bool) (hp : p < m.strs) :
    Keeps (fun _ ↦ False) m (m.front copied p).2 ∧
      (m.front copied p).1 < (m.front copied p).2.strs ∧
      (m.front copied p).2.str (m.front copied p).1 = m.str p := by
  cases copied with
  | true => exact ⟨.rfl, hp, .refl _⟩
  | false => exact ⟨keeps_newString m _, m.strs.lt_succ_self, str_newString m _⟩

/-- The elements at `turns` positions from the `i`th on, each array from the front again at its
end. -/
def positions (a b : List Bytes) (i turns : ℕ) : List Bytes :=
  (range' i turns).flatMap fun i ↦ [a.getD (i % a.length) [], b.getD (i % b.length) []]

theorem zipLoop_spec (copied : Bool) {aval zip i turns : ℕ} (ha : Holds m aval a)
    (hb : Holds m zip b) (haval : aval ≠ out) (hzip : zip ≠ out)
    (hne : turns ≠ 0 → a ≠ [] ∧ b ≠ []) (hl : l.length = i * 2)
    (hf : Filled m out l (2 * turns + 1)) :
    ∃ m', zipLoop copied aval a.length zip b.length out turns i m = some m' ∧
      Keeps (· = out) m m' ∧ Holds m' out (l ++ positions a b i turns) := by
  induction turns generalizing i l m with
  | zero =>
    rw [positions, range'_zero, flatMap_nil, append_nil, zipLoop, ← hl]
    exact hf.close
  | succ turns ih =>
    obtain ⟨hane, hbne⟩ := hne turns.succ_ne_zero
    obtain ⟨p, hp, hplt, hpstr⟩ := element_spec ha hane i
    obtain ⟨hk₁, hplt₁, hpstr₁⟩ := front_spec copied hplt
    obtain ⟨m₂, hm₂, hk₂, hf₂⟩ := (hf.keep hk₁).store hplt₁
    rw [hpstr₁, hpstr] at hf₂
    obtain ⟨q, hq, hqlt, hqstr⟩ := element_spec ((hb.keep hk₁ id).keep hk₂ hzip) hbne i
    have hk₃ := keeps_newString m₂ (m₂.str q)
    obtain ⟨m₄, hm₄, hk₄, hf₄⟩ := (hf₂.keep hk₃).store (p := (m₂.newString (m₂.str q)).1)
      m₂.strs.lt_succ_self
    rw [str_newString, hqstr] at hf₄
    have hk := ((hk₁.mono fun _ _ ↦ False.elim).trans hk₂).trans
      ((hk₃.mono fun _ _ ↦ False.elim).trans hk₄)
    rw [length_append, length_singleton, hl] at hm₄
    have hlength : (l ++ [a.getD (i % a.length) []] ++ [b.getD (i % b.length) []]).length =
        (i + 1) * 2 := by
      rw [length_append, length_append, hl, Nat.succ_mul]
      rfl
    obtain ⟨m', hloop, hk', hholds⟩ := ih (ha.keep hk haval) (hb.keep hk hzip)
      (fun _ ↦ ⟨hane, hbne⟩) hlength hf₄
    refine ⟨m', ?_, hk.trans hk', ?_⟩
    · rw [hl] at hm₂
      simp only [zipLoop, hp, hm₂, hq, Option.bind_eq_bind, Option.bind_some]
      rw [dupstring, hm₄, Option.bind_some, hloop]
    · rw [append_assoc, append_assoc] at hholds
      exact hholds

/-! ## Leaving out elements -/

/-- The table has the strings of a list. -/
structure Lists (hasher : Bytes → ℕ) (m : PtrHeap) (ht : UniqTable) (l : List Bytes) : Prop where
  size : ht.size ≠ 0
  lt : ∀ i, ∀ q ∈ ht.nodes i, q < m.strs
  mem : ∀ s, (∃ q ∈ ht.nodes (hasher s % ht.size), m.str q = s) ↔ s ∈ l

variable {hasher : Bytes → ℕ} {ht : UniqTable} {ps kept : List ℕ} {rest junk : Cells (Option ℕ)}

theorem Lists.keep (h : Lists hasher m ht l) (hk : Keeps written m m') : Lists hasher m' ht l where
  size := h.size
  lt i q hq := (h.lt i q hq).trans_le hk.strs
  mem s := by
    rw [← h.mem s]
    exact exists_congr fun q ↦ and_congr_right fun hq ↦ by rw [hk.str q (h.lt _ q hq)]

theorem present_spec (h : Lists hasher m ht l) (s : Bytes) :
    m.present hasher ht s = some (decide (s ∈ l)) := by
  rw [present, if_neg h.size, Option.some_inj, Bool.eq_iff_iff, any_eq_true, decide_eq_true_eq,
    ← h.mem s]
  simp only [decide_eq_true_eq]

theorem addhashnode_spec (h : Lists hasher m ht l) (hp : p < m.strs) :
    ∃ ht', m.addhashnode hasher ht p = some ht' ∧ Lists hasher m ht' (l ++ [m.str p]) := by
  refine ⟨_, if_neg h.size, h.size, fun i q hq ↦ ?_, fun s ↦ ?_⟩
  · dsimp only at hq
    by_cases hi : i = hasher (m.str p) % ht.size
    · subst hi
      rw [Function.update_self] at hq
      rcases mem_cons.mp hq with rfl | hq
      · exact hp
      · exact h.lt _ q (mem_of_mem_filter hq)
    · rw [Function.update_of_ne hi] at hq
      exact h.lt i q hq
  · dsimp only
    rw [mem_append, mem_singleton, ← h.mem s]
    by_cases hi : hasher s % ht.size = hasher (m.str p) % ht.size
    · rw [hi, Function.update_self]
      by_cases hs : s = m.str p
      · exact iff_of_true ⟨p, mem_cons_self, hs.symm⟩ (.inr hs)
      · simp only [mem_cons, mem_filter, hs, or_false]
        constructor
        · rintro ⟨q, rfl | hq, rfl⟩
          · exact absurd (.refl _) hs
          · exact ⟨q, hq.1, .refl _⟩
        · rintro ⟨q, hq, rfl⟩
          exact ⟨q, .inr ⟨hq, decide_eq_true hs⟩, .refl _⟩
    · rw [Function.update_of_ne hi, or_iff_left fun hs ↦ hi (by rw [hs])]

theorem uniqTable_spec (hasher : Bytes → ℕ) (h : Holds m v l) :
    ∃ ht, m.uniqTable hasher v = some ht ∧ Lists hasher m ht l := by
  obtain ⟨ps, hps, hlt, rfl⟩ := h.ptrs
  have hadd : ∀ {qs : List ℕ} {ht l}, Lists hasher m ht l → (∀ q ∈ qs, q < m.strs) →
      ∃ ht', qs.foldlM (m.addhashnode hasher) ht = some ht' ∧
        Lists hasher m ht' (l ++ qs.map m.str) := by
    intro qs
    induction qs with
    | nil => exact fun h _ ↦ ⟨_, .refl _, by rwa [map_nil, append_nil]⟩
    | cons q qs ih =>
      intro ht l h hqs
      obtain ⟨ht', hht', h'⟩ := addhashnode_spec h (hqs q mem_cons_self)
      obtain ⟨ht'', hht'', h''⟩ := ih h' fun r hr ↦ hqs r (mem_cons_of_mem q hr)
      rw [append_assoc] at h''
      exact ⟨ht'', by rw [foldlM_cons, hht']; exact hht'', h''⟩
  have hempty : Lists hasher m ⟨ps.length + 1, fun _ ↦ []⟩ [] :=
    ⟨ps.length.succ_ne_zero, fun _ ↦ nofun, fun s ↦ by simp⟩
  obtain ⟨ht, hht, h⟩ := hadd hempty hlt
  exact ⟨ht, by rw [uniqTable, hps, Option.bind_some, hht], h⟩

theorem load_setVec (m : PtrHeap) (v : ℕ) (before tail : Cells (Option ℕ)) (c : Option ℕ) :
    (m.setVec v (before ++ some c :: tail)).load v before.length = some c := by
  rw [load, vec_setVec, getElem?_append_right (le_refl _), Nat.sub_self]
  rfl

theorem moveDown_spec (m : PtrHeap) (v p : ℕ) (kept : List ℕ) (junk tail : Cells (Option ℕ)) :
    ∃ junk', (m.setVec v (pointerCells kept ++ junk ++ some (some p) :: tail)).moveDown v kept.length
        (kept.length + junk.length) p =
      some (m.setVec v (pointerCells (kept ++ [p]) ++ junk' ++ tail)) ∧ junk'.length = junk.length := by
  rw [pointerCells_concat]
  cases junk with
  | nil =>
    exact ⟨[], by simp [moveDown], .refl _⟩
  | cons c junk =>
    refine ⟨junk ++ [some (some p)], ?_, length_append⟩
    have hstore := store_of_vec (m := m.setVec v (pointerCells kept ++ c :: junk ++ some (some p) :: tail))
      (some p) ((vec_setVec ..).trans (append_assoc ..))
    rw [length_pointerCells, setVec_setVec] at hstore
    rw [moveDown, if_pos (by rw [length_cons]; omega), hstore]
    simp

/-- What the operators keep. -/
def selected (intersect : Bool) (b : List Bytes) (s : Bytes) : Bool :=
  if intersect then decide (s ∈ b) else !decide (s ∈ b)

/-- The elements kept stand in front of old ones, then comes what the loop has not seen. -/
theorem filterLoop_spec (intersect : Bool) (v : ℕ) {turns : ℕ} (h : Lists hasher m ht b)
    (hplain : ∀ p ∈ ps, ∀ c ∈ m.str p, itok c = false) (hturns : ps.length < turns) :
    ∃ rest', filterLoop hasher ht intersect v turns kept.length (kept.length + junk.length)
        (m.setVec v (pointerCells kept ++ junk ++ (vectorOf ps ++ rest))) =
      some (m.setVec v
        (vectorOf (kept ++ ps.filter fun p ↦ selected intersect b (m.str p)) ++ rest')) := by
  have hload := fun kept junk c tail ↦ load_setVec m v (pointerCells kept ++ junk) tail c
  simp only [length_append, length_pointerCells] at hload
  induction ps generalizing kept junk turns with
  | nil =>
    obtain ⟨turns, rfl⟩ := Nat.exists_eq_succ_of_ne_zero hturns.ne'
    have hcells : vectorOf [] ++ rest = some none :: rest := .refl _
    rw [hcells, filterLoop, hload, filter_nil, append_nil]
    obtain ⟨c, tail, hc⟩ : ∃ c tail, junk ++ some none :: rest = c :: tail :=
      exists_cons_of_ne_nil (by simp)
    have hvec : (m.setVec v (pointerCells kept ++ junk ++ some none :: rest)).vec v =
        pointerCells kept ++ c :: tail := (vec_setVec ..).trans (by rw [append_assoc, hc])
    have hstore := store_of_vec none hvec
    rw [length_pointerCells, setVec_setVec] at hstore
    exact ⟨tail, by rw [vectorOf, append_assoc (pointerCells kept) [_]]; exact hstore⟩
  | cons p ps ih =>
    obtain ⟨turns, rfl⟩ := Nat.exists_eq_succ_of_ne_zero (Nat.zero_lt_of_lt hturns).ne'
    have hcells : vectorOf (p :: ps) ++ rest = some (some p) :: (vectorOf ps ++ rest) := .refl _
    have hsame : ∀ cells, (m.setVec v cells).untokenizeAt p = m.setVec v cells := fun cells ↦ by
      have hplain' : untokenize ((m.setVec v cells).str p) = m.str p :=
        untokenize_of_plain (hplain p mem_cons_self)
      rw [untokenizeAt, hplain']
      exact congrArg (fun str ↦ { m.setVec v cells with str }) (Function.update_eq_self p m.str)
    have hnext := fun kept junk ↦ @ih kept junk turns
      (fun q hq ↦ hplain q (mem_cons_of_mem p hq)) (Nat.lt_of_succ_lt_succ hturns)
    have hpresent : ∀ cells, (m.setVec v cells).present hasher ht ((m.setVec v cells).str p) =
        some (decide (m.str p ∈ b)) := fun cells ↦ present_spec h (m.str p)
    simp only [hcells, filterLoop, hload, hsame, hpresent, Option.bind_eq_bind, Option.bind_some]
    have hif : (if intersect then decide (m.str p ∈ b) else !decide (m.str p ∈ b)) =
        selected intersect b (m.str p) := .refl _
    rw [hif]
    cases hs : selected intersect b (m.str p) with
    | true =>
      obtain ⟨junk', hmove, hlength⟩ := moveDown_spec m v p kept junk (vectorOf ps ++ rest)
      obtain ⟨rest', hloop⟩ := hnext (kept ++ [p]) junk'
      rw [length_append, length_singleton, hlength, Nat.add_right_comm,
        append_assoc kept [p], singleton_append] at hloop
      simp only [filter_cons, hs, if_true]
      rw [hmove]
      exact ⟨rest', hloop⟩
    | false =>
      obtain ⟨rest', hloop⟩ := hnext kept (junk ++ [some (some p)])
      rw [length_append, length_singleton, ← Nat.add_assoc, ← append_assoc (pointerCells kept),
        append_assoc _ [_], singleton_append] at hloop
      simp only [filter_cons, hs, Bool.false_eq_true, if_false]
      exact ⟨rest', hloop⟩

/-! ## The four operators -/

/-- `:^` takes the arrays as far as both go. -/
def interleaved (a b : List Bytes) : List Bytes := (a.zip b).flatMap fun x ↦ [x.1, x.2]

/-- `:^^` goes on to the end of the longer one, and gives the other one if one is empty. -/
def cycled (a b : List Bytes) : List Bytes :=
  if a = [] then b else if b = [] then a else positions a b 0 (max a.length b.length)

theorem positions_min (a b : List Bytes) :
    positions a b 0 (min a.length b.length) = interleaved a b := by
  have hzip : a.zip b = (range' 0 (min a.length b.length)).map fun i ↦
      (a.getD (i % a.length) [], b.getD (i % b.length) []) := by
    apply ext_getElem
    · rw [length_zip, length_map, length_range']
    · intro i hi _
      rw [length_zip, lt_min_iff] at hi
      simp [Nat.mod_eq_of_lt, hi.1, hi.2]
  rw [interleaved, hzip, flatMap_map, positions]

theorem zipValues_spec (shortest : Bool) {zip : ℕ} {st : SubstValue} (ha : Holds m st.aval a)
    (hb : Holds m zip b) : ∃ st' m', m.zipValues shortest zip st = some (st', m') ∧
      st'.isarr = st.isarr ∧ Keeps (fun _ ↦ False) m m' ∧
      Holds m' st'.aval (if shortest then interleaved a b else cycled a b) := by
  rw [zipValues, arrlen_eq ha, arrlen_eq hb]
  simp only [Option.bind_eq_bind, Option.bind_some]
  by_cases hempty : ¬shortest ∧ (a.length = 0 ∨ b.length = 0)
  · rw [if_pos hempty, if_neg hempty.1, cycled]
    by_cases hbempty : b = []
    · refine ⟨st, m, if_neg (by simp [hbempty]), .refl _, .rfl, ?_⟩
      rw [if_pos hbempty]
      split
      · next hnil => rwa [hbempty, ← hnil]
      · exact ha
    · obtain ⟨w, m', hdup, -, hk, hholds⟩ := arrdup_spec hb
      have haempty : a = [] := length_eq_zero_iff.mp
        (hempty.2.resolve_right fun h ↦ hbempty (length_eq_zero_iff.mp h))
      refine ⟨{ st with aval := w }, m', ?_, .refl _, hk, ?_⟩
      · rw [if_pos fun h ↦ hbempty (length_eq_zero_iff.mp h), hdup, Option.map_some]
      · rwa [if_pos haempty]
  · rw [if_neg hempty]
    have houtlen : (if shortest ^^ decide (a.length > b.length) then a.length else b.length) =
        if shortest then min a.length b.length else max a.length b.length := by
      cases shortest <;> by_cases h : a.length > b.length <;> simp [h] <;> omega
    have hne : (if shortest then min a.length b.length else max a.length b.length) ≠ 0 →
        a ≠ [] ∧ b ≠ [] := by
      rw [← length_pos_iff, ← length_pos_iff]
      cases shortest with
      | true =>
        rw [if_pos (.refl _)]
        omega
      | false =>
        have hboth := not_or.mp fun h ↦ hempty ⟨Bool.false_ne_true, h⟩
        exact fun _ ↦ ⟨Nat.pos_of_ne_zero hboth.1, Nat.pos_of_ne_zero hboth.2⟩
    have hresult : positions a b 0
        (if shortest then min a.length b.length else max a.length b.length) =
          if shortest then interleaved a b else cycled a b := by
      cases shortest with
      | true => exact positions_min a b
      | false =>
        have hboth := not_or.mp fun h ↦ hempty ⟨Bool.false_ne_true, h⟩
        rw [if_neg Bool.false_ne_true, if_neg Bool.false_ne_true, cycled,
          if_neg fun h ↦ hboth.1 (by rw [h]; rfl), if_neg fun h ↦ hboth.2 (by rw [h]; rfl)]
    rw [houtlen, ← hresult]
    generalize (if shortest then min a.length b.length else max a.length b.length) = n at hne ⊢
    have hk := keeps_newVector m (Cells.fresh (2 * n + 1))
    have hf : Filled (m.newVector (Cells.fresh (2 * n + 1))).2 m.vecs [] (2 * n + 1) :=
      ⟨m.vecs.lt_succ_self, [], vec_setVec .., nofun, .refl _⟩
    obtain ⟨m', hloop, hk', hholds⟩ := zipLoop_spec st.copied (ha.keep hk id) (hb.keep hk id)
      ha.lt.ne hb.lt.ne hne (i := 0) (.refl _) hf
    have hk'' := (hk.mono fun _ _ ↦ False.elim).trans hk'
    exact ⟨_, m', congrArg (Option.map _) hloop, .refl _,
      hk''.mono fun v hv heq ↦ absurd heq hv.ne, hholds⟩

variable {st : SubstValue} {other : ℕ}

/-- The value is an array, or a scalar that counts as one element. -/
def Reads (m : PtrHeap) (st : SubstValue) (a : List Bytes) : Prop :=
  if st.isarr then Holds m st.aval a else st.val < m.strs ∧ a = [m.str st.val]

/-- What is left of the value; a scalar that is left out becomes the empty string. -/
structure Remains (m m' : PtrHeap) (st st' : SubstValue) (kept : List Bytes) : Prop where
  isarr : st'.isarr = st.isarr
  value : if st.isarr then Holds m' st'.aval kept else m'.str st'.val = kept.headD []
  keeps : Keeps (fun v ↦ st.isarr ∧ st.copied ∧ v = st.aval) m m'

theorem zipArrays_spec (shortest : Bool) (ha : Reads m st a) (hb : Holds m other b) :
    ∃ st' m', m.zipArrays shortest other st = some (st', m') ∧ st'.isarr = true ∧
      Holds m' st'.aval (if shortest then interleaved a b else cycled a b) ∧
      Keeps (fun _ ↦ False) m m' := by
  unfold Reads at ha
  rw [zipArrays, asArray]
  cases hisarr : st.isarr with
  | true =>
    rw [hisarr] at ha
    obtain ⟨st', m', hzip, harr, hk, hholds⟩ := zipValues_spec shortest ha hb
    exact ⟨st', m', hzip, harr.trans hisarr, hholds, hk⟩
  | false =>
    rw [hisarr] at ha
    obtain ⟨hlt, rfl⟩ := ha
    have hk := keeps_newVector m (vectorOf [st.val])
    have hone := holds_newVector (forall_mem_singleton.mpr hlt)
    obtain ⟨st', m', hzip, harr, hk', hholds⟩ := @zipValues_spec (m.hmkarray st.val).2 _ _ shortest
      other { st with aval := m.vecs, isarr := true } hone (hb.keep hk id)
    exact ⟨st', m', hzip, harr, hholds, hk.trans hk'⟩

theorem ownArray_spec (ha : Holds m st.aval a) : ∃ st' m', m.ownArray st = some (st', m') ∧
    st'.isarr = st.isarr ∧ Keeps (fun _ ↦ False) m m' ∧ Holds m' st'.aval a ∧
      (st'.aval < m.vecs → st.copied ∧ st'.aval = st.aval) := by
  rw [ownArray]
  cases hcopied : st.copied with
  | true => exact ⟨st, m, if_pos (.refl _), .refl _, .rfl, ha, fun _ ↦ ⟨.refl _, .refl _⟩⟩
  | false =>
    obtain ⟨w, m', hdup, hw, hk, hholds⟩ := arrdup_spec ha
    exact ⟨{ st with aval := w, copied := true }, m', by simp [hdup], .refl _, hk, hholds,
      fun hlt ↦ absurd hlt hw.not_gt⟩

theorem filterArrays_spec (hasher : Bytes → ℕ) (intersect : Bool) (ha : Reads m st a)
    (hb : Holds m other b) (hplain : ∀ s ∈ a, ∀ c ∈ s, itok c = false) :
    ∃ st' m', m.filterArrays hasher intersect other st = some (st', m') ∧
      Remains m m' st st' (a.filter (selected intersect b)) := by
  obtain ⟨ht, hht, h⟩ := uniqTable_spec hasher hb
  unfold Reads at ha
  rw [filterArrays, hht]
  simp only [Option.bind_eq_bind, Option.bind_some]
  cases hisarr : st.isarr with
  | true =>
    rw [hisarr] at ha
    obtain ⟨st', m', hown, hisarr', hk, hholds, howned⟩ := ownArray_spec ha
    obtain ⟨ps, hps, hlt, hmap⟩ := hholds.ptrs
    obtain ⟨rest, hcells⟩ := pointersOf_eq_some hps
    have hself : m'.setVec st'.aval (vectorOf ps ++ rest) = m' := by
      rw [← hcells, setVec, Function.update_eq_self]
    have hlength : ps.length < (m'.vec st'.aval).length + 1 := by
      rw [hcells, length_append, vectorOf, length_append, length_pointerCells]
      omega
    have hplain' : ∀ p ∈ ps, ∀ c ∈ m'.str p, itok c = false := fun p hp ↦
      hplain _ (hmap ▸ mem_map_of_mem hp)
    obtain ⟨rest', hloop⟩ := @filterLoop_spec _ _ _ ht ps [] rest [] intersect st'.aval _
      (h.keep hk) hplain' hlength
    rw [pointerCells, map_nil, nil_append, nil_append, nil_append, hself] at hloop
    set m'' := m'.setVec st'.aval
      (vectorOf (ps.filter fun p ↦ selected intersect b (m'.str p)) ++ rest') with hm''
    have hk' : Keeps (· = st'.aval) m m'' :=
      (hk.mono fun _ _ ↦ False.elim).trans (keeps_setVec ..)
    refine ⟨st', m'', ?_, hisarr', ?_, hk'.mono ?_⟩
    · rw [if_pos (.refl _), hown, Option.bind_some]
      exact congrArg (Option.map _) hloop
    · rw [hisarr, if_pos (.refl _)]
      refine ⟨hholds.lt, _, (congrArg pointersOf (vec_setVec ..)).trans (pointersOf_vectorOf ..),
        fun p hp ↦ hlt p (mem_of_mem_filter hp), ?_⟩
      rw [← hmap, filter_map]
      rfl
    · rintro v hv rfl
      exact ⟨hisarr, howned hv⟩
  | false =>
    rw [hisarr] at ha
    obtain ⟨hlt, rfl⟩ := ha
    rw [if_neg Bool.false_ne_true, present_spec h, Option.bind_some]
    have hnot : (if intersect then !decide (m.str st.val ∈ b) else decide (m.str st.val ∈ b)) =
        !selected intersect b (m.str st.val) := by
      cases intersect <;> simp [selected]
    rw [hnot, filter_cons, filter_nil]
    cases selected intersect b (m.str st.val) with
    | true =>
      refine ⟨st, m, if_neg Bool.false_ne_true, .refl _, ?_, .rfl⟩
      rw [hisarr]
      rfl
    | false =>
      refine ⟨_, _, if_pos (.refl _), hisarr.symm, ?_,
        (keeps_newString m []).mono fun _ _ ↦ False.elim⟩
      rw [hisarr]
      exact str_newString m []

/-- The array `x y x` in the first vector and the array `x` in the second one. -/
def twoArrays : PtrHeap :=
  ⟨fun p ↦ ascii (if p = 1 then "y" else "x"),
    fun v ↦ if v = 0 then vectorOf [0, 1, 2] else vectorOf [3], 4, 2⟩

end PtrHeap

end Bsh.Shell
