import Bsh.Shell.GlobNodes
import Bsh.Shell.GlobSort
import Bsh.Shell.SortKeys
import Bsh.Shell.SubscriptArray

/-!
# Reading a group of glob qualifiers

What a group of qualifiers says: its alternatives stand between commas, and each is a list of tests,
with the sense and the kind of link that the signs in front of a test leave.  `zglob` turns a group
whose alternatives all have a test into one row for each alternative.
-/

namespace Bsh.Shell

open Bsh.Library List

variable {σ : Type}

/-! ## What a group says -/

def QualItem.isComma : QualItem σ → Bool
  | .comma => true
  | _ => false

theorem splitOnP_comma (items : List (QualItem σ)) :
    (QualItem.comma :: items).splitOnP QualItem.isComma = [] :: items.splitOnP QualItem.isComma := by
  rw [splitOnP_cons_eq_if_modifyHead]
  exact if_pos rfl

theorem splitOnP_of_not_comma {item : QualItem σ} (h : item.isComma = false)
    (items : List (QualItem σ)) :
    (item :: items).splitOnP QualItem.isComma =
      (items.splitOnP QualItem.isComma).modifyHead (List.cons item) := by
  rw [splitOnP_cons_eq_if_modifyHead, h]
  exact if_neg Bool.false_ne_true

/-- The tests of an alternative, when it begins with the given sense. -/
def testsOf (sense : ℕ) : List (QualItem σ) → List (Qual σ)
  | [] => []
  | .test func data sdata setting :: items =>
    ⟨func, data, sdata, sense, setting⟩ :: testsOf sense items
  | .negate :: items => testsOf (sense ^^^ 1) items
  | .follow :: items => testsOf (sense ^^^ 2) items
  | .flag :: items => testsOf sense items
  | .comma :: items => testsOf sense items

/-- The alternatives of a group. -/
def alternatives (items : List (QualItem σ)) : List (List (Qual σ)) :=
  (items.splitOnP QualItem.isComma).map (testsOf 0)

/-! ## The rows of a group -/

/-- The records of nodes with these tests. -/
def testNodes (tests : List (Qual σ)) : List (Option (Qual σ)) := tests.map some

/-- Rows made since there were `n` nodes, with the variables of `zglob` at the last of them. -/
structure RowsRead (n : ℕ) (p : QualParse σ) (rows : List (QualRow σ)) (row : QualRow σ) :
    Prop where
  holds : p.heap.Holds (rows ++ [row])
  lower : ∀ a ∈ addrsOf (rows ++ [row]), n ≤ a
  newquals : p.newquals = firstRow (rows ++ [row]) none
  qo : p.qo = some row.addr

/-- Where `zglob` is in a group, with the alternatives before and the tests of this one so far. -/
inductive Reading (n : ℕ) (p : QualParse σ) : List (List (Qual σ)) → List (Qual σ) → Prop where
  | start (hnew : p.newquals = none) (hqn : p.qn = none) (hql : p.ql = none) : Reading n p [] []
  | inside {rows row before tests} (hrows : RowsRead n p rows row) (hqn : p.qn = none)
      (hql : p.ql = lastOr row.cells none) (hct : p.qualct ≠ 0)
      (hbefore : rows.map Row.vals = before.map testNodes) (htests : row.vals = testNodes tests) :
      Reading n p before tests
  | behind {rows a before} (hrows : RowsRead n p rows ⟨a, none, []⟩) (hqn : p.qn = some a)
      (hql : p.ql = none) (hbefore : rows.map Row.vals = before.map testNodes) : Reading n p before []

namespace Reading

variable {n : ℕ} {p p' : QualParse σ} {before : List (List (Qual σ))} {tests : List (Qual σ)}

theorem set_sense (h : Reading n p before tests) (sense : ℕ) :
    Reading n { p with sense := sense } before tests := by
  cases h with
  | start hnew hqn hql => exact .start hnew hqn hql
  | inside hrows hqn hql hct hbefore htests =>
    exact .inside ⟨hrows.holds, hrows.lower, hrows.newquals, hrows.qo⟩ hqn hql hct hbefore htests
  | behind hrows hqn hql hbefore =>
    exact .behind ⟨hrows.holds, hrows.lower, hrows.newquals, hrows.qo⟩ hqn hql hbefore

/-- The node for a test is there and linked: it stands at the end of the last row, without a
test. -/
theorem node_linked (h : Reading n p before tests) (hn : n ≤ p.heap.fresh) :
    ∃ t rows, ∃ row : QualRow σ, ∃ l, p.node.2.linkTo p.ql p.node.1 = some t ∧
      row.cells = l ++ [(p.node.1, none)] ∧ t.Holds (rows ++ [row]) ∧
      (∀ a ∈ addrsOf (rows ++ [row]), n ≤ a) ∧
      p.newquals.or (some p.node.1) = firstRow (rows ++ [row]) none ∧
      (if p.newquals.isSome then p.qo else some p.node.1) = some row.addr ∧
      rows.map Row.vals = before.map testNodes ∧ l.map Prod.snd = testNodes tests ∧
      QualHeap.Keeps n p.heap t := by
  cases h with
  | start hnew hqn hql =>
    have hnode : p.node = p.heap.alloc none := by rw [QualParse.node, hqn]
    rw [hnode, hql, hnew]
    have hcell : (p.heap.alloc none).2.cell p.heap.fresh = some ⟨none, none⟩ :=
      Function.update_self _ _ _
    have hor : (p.heap.alloc none).2.or p.heap.fresh = none := Function.update_self _ _ _
    refine ⟨_, [], ⟨p.heap.fresh, none, []⟩, [], rfl, rfl,
      ⟨⟨⟨hcell, trivial⟩, hor, trivial⟩, nodup_singleton _, fun a ha ↦ ?_⟩, fun a ha ↦ ?_,
      rfl, rfl, rfl, rfl, QualHeap.keeps_alloc.mono hn⟩
    · rw [List.mem_singleton.mp ha]
      exact Nat.lt_succ_self _
    · rw [List.mem_singleton.mp ha]
      exact hn
  | @inside rows row _ _ hrows hqn hql hct hbefore htests =>
    have hnode : p.node = p.heap.alloc none := by rw [QualParse.node, hqn]
    have hrow : ∀ a ∈ row.addrs, a ∈ addrsOf (rows ++ [row]) := fun a ha ↦ by
      rw [addrsOf_concat]
      exact mem_append_right _ ha
    obtain ⟨t, ht, hlinked, hfresh, hor, hcell⟩ := QualHeap.linkTo_alloc
      hrows.holds.strung.linked_last hrows.holds.last_nodup
      (fun a ha ↦ hrows.holds.bound a (hrow a ha)) none
    have hkeeps : QualHeap.Keeps n p.heap t := by
      refine ⟨fun a ha ↦ hcell a (fun hmem ↦ ?_) (ha.trans_le hn), fun a ha ↦ ?_, by omega⟩
      · exact (hrows.lower a (hrow a hmem)).not_gt ha
      · rw [hor]
        exact Function.update_of_ne (ha.trans_le hn).ne _ _
    have hne : ∀ a ∈ addrsOf (rows ++ [row]), a ≠ p.heap.fresh := fun a ha ↦
      (hrows.holds.bound a ha).ne
    have haddrs : addrsOf (rows ++ [row.extend [(p.heap.fresh, none)]]) =
        addrsOf (rows ++ [row]) ++ [p.heap.fresh] := by
      rw [addrsOf_concat, addrsOf_concat, Row.addrs_extend, append_assoc]
      rfl
    have hstrung : Rows t.cell t.or (rows ++ [row.extend [(p.heap.fresh, none)]]) none := by
      have hrows' : Rows p.heap.cell t.or (rows ++ [row]) none :=
        hrows.holds.strung.congr (fun _ _ ↦ rfl) fun a ha ↦ by
          rw [hor]
          exact Function.update_of_ne (hne a ha) _ _
      refine hrows'.replace_last rfl (fun a ha ↦ ?_) hlinked
      refine hcell a (fun hmem ↦ hrows.holds.ne_of_front ha hmem rfl) (hrows.holds.bound a ?_)
      rw [addrsOf_concat]
      exact mem_append_left _ ha
    have hsome : p.newquals.isSome := by
      rw [hrows.newquals, firstRow_append, firstRow_cons]
      cases rows <;> rfl
    rw [hnode, hql, if_pos hsome]
    refine ⟨t, rows, row.extend [(p.heap.fresh, none)], row.cells, ht, rfl,
      ⟨hstrung, ?_, fun a ha ↦ ?_⟩, fun a ha ↦ ?_, ?_, hrows.qo, hbefore, htests, hkeeps⟩
    · rw [haddrs]
      exact hrows.holds.nodup.append (nodup_singleton _)
        (List.disjoint_singleton.mpr fun ha ↦ hne _ ha rfl)
    · rw [haddrs, mem_append, mem_singleton] at ha
      rcases ha with ha | rfl
      · have hlt := hrows.holds.bound a ha
        omega
      · omega
    · rw [haddrs, mem_append, mem_singleton] at ha
      rcases ha with ha | rfl
      · exact hrows.lower a ha
      · exact hn
    · rw [Option.or_of_isSome hsome, hrows.newquals, firstRow_append, firstRow_append]
      rfl
  | @behind rows a _ hrows hqn hql hbefore =>
    have hnode : p.node = (a, p.heap) := by rw [QualParse.node, hqn]
    have hsome : p.newquals.isSome := by
      rw [hrows.newquals, firstRow_append, firstRow_cons]
      cases rows <;> rfl
    rw [hnode, hql, if_pos hsome, Option.or_of_isSome hsome]
    exact ⟨p.heap, rows, ⟨a, none, []⟩, [], rfl, rfl, hrows.holds, hrows.lower, hrows.newquals,
      hrows.qo, hbefore, rfl, .refl⟩

theorem add_test (h : Reading n p before tests) (hn : n ≤ p.heap.fresh) (func : QualFunc σ)
    (data : ℤ) (sdata : Option Bytes) (setting : QualSetting) :
    ∃ p', p.addTest func data sdata setting = some p' ∧
      Reading n p' before (tests ++ [⟨func, data, sdata, p.sense, setting⟩]) ∧
      p'.sense = p.sense ∧ QualHeap.Keeps n p.heap p'.heap := by
  obtain ⟨t, rows, row, l, ht, hcells, hholds, hlower, hfirst, hqo, hbefore, hl, hkeeps⟩ :=
    h.node_linked hn
  obtain ⟨u, new, hu, haddr, hnew, haddrs, hholds', hor, hfresh, hcell⟩ :=
    hholds.fill_last hcells (some _)
  have hall : addrsOf (rows ++ [new]) = addrsOf (rows ++ [row]) := by
    rw [addrsOf_concat, addrsOf_concat, haddrs]
  have hnode : n ≤ p.node.1 := by
    refine hlower _ ?_
    rw [addrsOf_concat, Row.addrs, hcells]
    simp
  have hkeeps' : QualHeap.Keeps n t u :=
    ⟨fun a ha ↦ hcell a (ha.trans_le hnode).ne, fun a _ ↦ by rw [hor], hfresh.ge⟩
  have hadd : p.addTest func data sdata setting = some { p with
      heap := u, newquals := p.newquals.or (some p.node.1),
      qo := if p.newquals.isSome then p.qo else some p.node.1, qn := none, ql := some p.node.1,
      qualct := p.qualct + 1 } := by
    rw [QualParse.addTest]
    dsimp only [Option.bind_eq_bind]
    rw [ht]
    dsimp only [Option.bind_some]
    rw [hu]
    rfl
  refine ⟨_, hadd, @Reading.inside _ _ _ rows new _ _ ⟨hholds', ?_, ?_, ?_⟩ rfl ?_
    (Nat.succ_ne_zero _) hbefore ?_, rfl, hkeeps.trans hkeeps'⟩
  · rw [hall]
    exact hlower
  · rw [firstRow_append, firstRow_cons, haddr]
    rw [firstRow_append, firstRow_cons] at hfirst
    exact hfirst
  · rw [haddr]
    exact hqo
  · rw [hnew, lastOr_concat]
  · rw [Row.vals, hnew, map_append, hl, testNodes, testNodes, map_append]
    rfl

theorem next_alternative (h : Reading n p before tests) (hn : n ≤ p.heap.fresh)
    (htests : tests ≠ []) :
    ∃ p', p.comma = some p' ∧ Reading n p' (before ++ [tests]) [] ∧ p'.sense = 0 ∧
      QualHeap.Keeps n p.heap p'.heap := by
  cases h with
  | start hnew hqn hql => exact absurd rfl htests
  | behind hrows hqn hql hbefore => exact absurd rfl htests
  | @inside rows row _ _ hrows hqn hql hct hbefore hvals =>
    have hkept := QualHeap.keeps_alloc (v := none) |>.holds hrows.holds hrows.holds.bound
    have hnot : p.heap.fresh ∉ addrsOf (rows ++ [row]) := fun ha ↦ (hrows.holds.bound _ ha).ne rfl
    have hnodup : (addrsOf (rows ++ [row] ++ [⟨p.heap.fresh, none, []⟩])).Nodup := by
      rw [addrsOf_concat (rows ++ [row])]
      exact hrows.holds.nodup.append (nodup_singleton _) (List.disjoint_singleton.mpr hnot)
    have hself : (p.heap.alloc none).2.cell p.heap.fresh = some ⟨none, none⟩ :=
      Function.update_self _ _ _
    obtain ⟨t, ht, hholds, hcell, hfresh, hor⟩ := @QualHeap.Holds.strung_on _ _ _
      ⟨p.heap.fresh, none, []⟩ hkept ⟨hself, trivial⟩ (Function.update_self _ _ _) hnodup
      fun a ha ↦ by
        rw [List.mem_singleton.mp ha]
        exact Nat.lt_succ_self _
    rw [List.getLast?_concat, Option.map_some, ← hrows.qo] at ht
    have hcomma : p.comma = some { p with
        heap := t, sense := 0, qn := some p.heap.fresh, qo := some p.heap.fresh,
        qualorct := p.qualorct + 1, qualct := 0, ql := none } := by
      rw [QualParse.comma, if_pos hct]
      dsimp only [QualHeap.alloc] at ht ⊢
      rw [ht]
      rfl
    have hkeeps : QualHeap.Keeps n (p.heap.alloc none).2 t := by
      refine ⟨fun a _ ↦ by rw [hcell], fun a ha ↦ hor a fun hmem ↦ ?_, hfresh.ge⟩
      exact (hrows.lower a hmem).not_gt ha
    refine ⟨_, hcomma, @Reading.behind _ _ _ (rows ++ [row]) _ _ ⟨hholds, fun a ha ↦ ?_, ?_, rfl⟩ rfl rfl ?_,
      rfl, (QualHeap.keeps_alloc.mono hn).trans hkeeps⟩
    · rw [addrsOf_concat (rows ++ [row]), mem_append] at ha
      rcases ha with ha | ha
      · exact hrows.lower a ha
      · rw [List.mem_singleton.mp ha]
        exact hn
    · rw [hrows.newquals, firstRow_append (rows ++ [row]), firstRow_append, firstRow_append]
      rfl
    · rw [map_append, map_append, hbefore, map_singleton, hvals, map_singleton]

/-- What is left of a group is read to its end. -/
theorem read {items piece : List (QualItem σ)} {pieces : List (List (QualItem σ))}
    (h : Reading n p before tests) (hn : n ≤ p.heap.fresh)
    (hpieces : items.splitOnP QualItem.isComma = piece :: pieces)
    (hpiece : tests ++ testsOf p.sense piece ≠ []) (hrest : ∀ x ∈ pieces, testsOf 0 x ≠ []) :
    ∃ p' before' tests', items.foldlM QualParse.step p = some p' ∧
      Reading n p' before' tests' ∧ tests' ≠ [] ∧ QualHeap.Keeps n p.heap p'.heap ∧
      before' ++ [tests'] = before ++ (tests ++ testsOf p.sense piece) :: pieces.map (testsOf 0) := by
  induction items generalizing p before tests piece pieces with
  | nil =>
    rw [splitOnP_nil, List.cons.injEq] at hpieces
    obtain ⟨rfl, rfl⟩ := hpieces
    rw [testsOf, append_nil] at hpiece
    refine ⟨p, before, tests, rfl, h, hpiece, .refl, ?_⟩
    rw [testsOf, append_nil, map_nil]
  | cons item items ih =>
    obtain ⟨piece', pieces', hsplit⟩ :=
      exists_cons_of_ne_nil (splitOnP_ne_nil QualItem.isComma items)
    cases item with
    | comma =>
      rw [splitOnP_comma, hsplit, List.cons.injEq] at hpieces
      obtain ⟨rfl, rfl⟩ := hpieces
      rw [testsOf, append_nil] at hpiece
      obtain ⟨p', hp', hnext, hsense, hkeeps⟩ := h.next_alternative hn hpiece
      have hpiece' : [] ++ testsOf p'.sense piece' ≠ [] := by
        rw [hsense]
        exact hrest piece' mem_cons_self
      obtain ⟨q, before', tests', hq, hread, hne, hkeeps', hall⟩ := ih hnext
        (hn.trans hkeeps.fresh_le) hsplit hpiece'
        fun x hx ↦ hrest x (mem_cons_of_mem _ hx)
      refine ⟨q, before', tests', ?_, hread, hne, hkeeps.trans hkeeps', ?_⟩
      · rw [foldlM_cons, QualParse.step, hp']
        exact hq
      · rw [hall, hsense, testsOf, append_nil, map_cons, append_assoc]
        rfl
    | negate =>
      rw [splitOnP_of_not_comma rfl, hsplit, modifyHead_cons, List.cons.injEq] at hpieces
      obtain ⟨rfl, rfl⟩ := hpieces
      exact ih (h.set_sense _) hn hsplit hpiece hrest
    | follow =>
      rw [splitOnP_of_not_comma rfl, hsplit, modifyHead_cons, List.cons.injEq] at hpieces
      obtain ⟨rfl, rfl⟩ := hpieces
      exact ih (h.set_sense _) hn hsplit hpiece hrest
    | flag =>
      rw [splitOnP_of_not_comma rfl, hsplit, modifyHead_cons, List.cons.injEq] at hpieces
      obtain ⟨rfl, rfl⟩ := hpieces
      have hflag : testsOf p.sense (.flag :: piece') = testsOf p.sense piece' := rfl
      rw [hflag] at hpiece ⊢
      exact ih h hn hsplit hpiece hrest
    | test func data sdata setting =>
      rw [splitOnP_of_not_comma rfl, hsplit, modifyHead_cons, List.cons.injEq] at hpieces
      obtain ⟨rfl, rfl⟩ := hpieces
      obtain ⟨p', hp', hnext, hsense, hkeeps⟩ := h.add_test hn func data sdata setting
      have hjoin : tests ++ testsOf p.sense (.test func data sdata setting :: piece') =
          tests ++ [⟨func, data, sdata, p.sense, setting⟩] ++ testsOf p'.sense piece' := by
        rw [testsOf, hsense, append_assoc]
        rfl
      rw [hjoin] at hpiece ⊢
      obtain ⟨q, before', tests', hq, hread, hne, hkeeps', hall⟩ := ih hnext
        (hn.trans hkeeps.fresh_le) hsplit hpiece hrest
      refine ⟨q, before', tests', ?_, hread, hne, hkeeps.trans hkeeps', hall⟩
      rw [foldlM_cons, QualParse.step, hp']
      exact hq

end Reading

/-- A group whose alternatives all have a test becomes one row for each of them. -/
theorem read_group (s : QualHeap σ) (qualct qualorct : ℕ) {items : List (QualItem σ)}
    (h : ∀ tests ∈ alternatives items, tests ≠ []) :
    ∃ p rows, items.foldlM QualParse.step ⟨s, none, none, none, none, 0, qualct, qualorct⟩ = some p ∧
      p.heap.Holds rows ∧ (∀ a ∈ addrsOf rows, s.fresh ≤ a) ∧ p.newquals = firstRow rows none ∧
      p.qualct ≠ 0 ∧ rows.map Row.vals = (alternatives items).map testNodes ∧ rows ≠ [] ∧
      QualHeap.Keeps s.fresh s p.heap := by
  obtain ⟨piece, pieces, hsplit⟩ :=
    exists_cons_of_ne_nil (splitOnP_ne_nil QualItem.isComma items)
  have halts : alternatives items = testsOf 0 piece :: pieces.map (testsOf 0) := by
    rw [alternatives, hsplit, map_cons]
  rw [halts] at h ⊢
  obtain ⟨p, before, tests, hp, hread, hne, hkeeps, hall⟩ :=
    (Reading.start (p := ⟨s, none, none, none, none, 0, qualct, qualorct⟩) rfl rfl
      rfl).read le_rfl hsplit (h _ mem_cons_self) fun x hx ↦
        h _ (mem_cons_of_mem _ (mem_map_of_mem hx))
  cases hread with
  | start hnew hqn hql => exact absurd rfl hne
  | behind hrows hqn hql hbefore => exact absurd rfl hne
  | @inside rows row _ _ hrows hqn hql hct hbefore hvals =>
    refine ⟨p, rows ++ [row], hp, hrows.holds, hrows.lower, hrows.newquals, hct, ?_, by simp,
      hkeeps⟩
    calc (rows ++ [row]).map Row.vals = (before ++ [tests]).map testNodes := by
          rw [map_append, map_append, hbefore, map_singleton, hvals,
            map_singleton]
      _ = (testsOf 0 piece :: pieces.map (testsOf 0)).map testNodes := by
          rw [hall]
          rfl

end Bsh.Shell

/-!
# Subscripts of globs

A subscript of a glob chooses among the matches, before the words of `P` are put around them.  When
the buffer is sorted, the chosen matches are those of the slice, counted as for arrays; but a first
position in front of the list counts as the first match, and a range behind it is empty.
-/

namespace Bsh.Shell

open Bsh.Library List

/-! ## Insertion -/

/-- A match between the words of `P`. -/
def MatchWords.around (words : MatchWords) (name : Bytes) : List Bytes :=
  words.preWords ++ name :: words.postWords

theorem foldl_insertlinknode (ws front behind : List Bytes) :
    ws.foldl insertlinknode ⟨front, behind⟩ = ⟨front ++ ws, behind⟩ := by
  induction ws generalizing front with
  | nil => rw [append_nil]; rfl
  | cons w ws ih =>
    calc
      _ = ws.foldl insertlinknode ⟨front ++ [w], behind⟩ := rfl
      _ = ⟨front ++ [w] ++ ws, behind⟩ := ih _
      _ = ⟨front ++ w :: ws, behind⟩ := by rw [append_assoc]; rfl

theorem insertGlobMatch_eq (words : MatchWords) (behind : List Bytes) (data : Bytes) :
    insertGlobMatch words behind data = words.around data ++ behind := by
  unfold insertGlobMatch
  rw [foldl_insertlinknode]
  dsimp only [insertlinknode]
  rw [foldl_insertlinknode, nil_append, append_assoc words.preWords]
  rfl

theorem matchAt_natCast (matchbuf : List Gmatch) {p : ℕ} (hp : p < matchbuf.length) :
    matchAt matchbuf p = some matchbuf[p] := by
  rw [matchAt, if_pos (Int.natCast_nonneg p), Int.toNat_natCast, List.getElem?_eq_getElem hp]

/-- The loop over a sorted buffer inserts its part in reverse. -/
theorem insertMatches_up (words : MatchWords) {matchbuf : List Gmatch} {count p : ℕ}
    (h : p + count ≤ matchbuf.length) (behind : List Bytes) :
    insertMatches words matchbuf 1 count p behind =
      some ((((matchbuf.drop p).take count).reverse.map Gmatch.name).flatMap words.around ++
        behind) := by
  induction count generalizing p behind with
  | zero => rfl
  | succ count ih =>
    have hp : p < matchbuf.length := by omega
    have hnext := ih (p := p + 1) (by omega) (words.around matchbuf[p].name ++ behind)
    rw [insertMatches, matchAt_natCast matchbuf hp, Option.bind_some, insertGlobMatch_eq]
    rw [Nat.cast_add, Nat.cast_one] at hnext
    rw [hnext, drop_eq_getElem_cons hp, take_succ_cons, reverse_cons,
      map_append, flatMap_append, append_assoc]
    simp

theorem reverse_part {α : Type*} (l : List α) {first count : ℕ} (h : first + count ≤ l.length) :
    ((l.drop (l.length - first - count)).take count).reverse =
      (l.reverse.drop first).take count := by
  have hlength : (l.take (l.length - first)).length = l.length - first :=
    length_take_of_le (Nat.sub_le _ _)
  have hcount : l.length - first - (l.length - first - count) = count := by omega
  rw [drop_reverse, take_reverse, hlength, drop_take, hcount]

/-! ## The slice -/

/-- The ends of a subscript within a list of `n` matches, from 0 and behind the last. -/
def firstEnd (n : ℕ) (v : SubscriptValue) : ℤ := if v.start < 0 then max (v.start + n) 0 else v.start

def stopEnd (n : ℕ) (v : SubscriptValue) : ℤ := if v.stop < 0 then v.stop + (n + 1) else v.stop

/-- The chosen ones of a list of names. -/
def chosen (names : List Bytes) (v : SubscriptValue) : List Bytes :=
  slice names (firstEnd names.length v + 1) (stopEnd names.length v)

/-- The difference of the ends is an `int`. -/
def RangeFits (n : ℕ) (v : SubscriptValue) : Prop :=
  -2 ^ 31 ≤ min (stopEnd n v) n - firstEnd n v ∧ min (stopEnd n v) n - firstEnd n v < 2 ^ 31

instance (n : ℕ) (v : SubscriptValue) : Decidable (RangeFits n v) :=
  inferInstanceAs (Decidable (_ ∧ _))

/-- The first end is in the list. -/
def BeginsInside (n : ℕ) (v : SubscriptValue) : Prop :=
  -(n : ℤ) ≤ v.start ∧ v.start < n

theorem chosen_eq_getarrvalue {names : List Bytes} {v : SubscriptValue}
    (h : BeginsInside names.length v) : chosen names v = getarrvalue names v := by
  obtain ⟨hlow, hhigh⟩ := h
  have hstart : (if v.start < 0 then v.start + names.length else v.start) =
      firstEnd names.length v + 1 - 1 := by
    unfold firstEnd
    split <;> omega
  rw [getarrvalue_eq hstart rfl, if_neg (by omega)]
  rfl

theorem firstEnd_nonneg (n : ℕ) (v : SubscriptValue) : 0 ≤ firstEnd n v := by
  unfold firstEnd
  split <;> omega

theorem stop_clamped (n : ℕ) (v : SubscriptValue) :
    (if v.stop < 0 then v.stop + ((n : ℤ) + 1) else min v.stop n) = min (stopEnd n v) n := by
  unfold stopEnd
  split <;> omega

/-! ## The end of `zglob` -/

namespace GlobState

variable (g : GlobState) (qsort : QSort Gmatch)

/-- The first key is not `oN`. -/
def Sorts : Prop := g.sortlist.head?.any (·.key = .none) = false

/-- The names in the order in which they are inserted. -/
def names (found : List Gmatch) : List Bytes := (g.sorted qsort found).reverse.map Gmatch.name

/-- What is inserted are matches: there is no error, and no pattern that stays as it is. -/
def InsertsMatches (found : List Gmatch) : Prop :=
  found ≠ [] ∨ if g.nullGlob then g.inExpandredir = false else g.cshNullGlob = true

variable {g}

theorem insertSlice_sorted (hsorts : g.Sorts) {badcshglob : Bool} {matchbuf : List Gmatch}
    (hmatches : badcshglob = true ∨ matchbuf = []) {v : SubscriptValue}
    (hfits : RangeFits matchbuf.length v) (behind : List Bytes) :
    g.insertSlice badcshglob matchbuf v.start v.stop behind =
      some ((chosen (matchbuf.reverse.map Gmatch.name) v).flatMap g.words.around ++ behind) := by
  obtain ⟨hlow, hhigh⟩ := hfits
  have hfirst := firstEnd_nonneg matchbuf.length v
  have hlength : (matchbuf.reverse.map Gmatch.name).length = matchbuf.length := by
    rw [length_map, length_reverse]
  have hdifference : toInt (min (stopEnd matchbuf.length v) matchbuf.length -
      firstEnd matchbuf.length v) =
      min (stopEnd matchbuf.length v) matchbuf.length - firstEnd matchbuf.length v :=
    toInt_eq ⟨hlow, hhigh⟩
  have hsplit : chosen (matchbuf.reverse.map Gmatch.name) v =
      ((matchbuf.reverse.drop (firstEnd matchbuf.length v).toNat).take
        ((stopEnd matchbuf.length v).toNat - (firstEnd matchbuf.length v).toNat)).map
          Gmatch.name := by
    rw [chosen, slice, hlength, add_sub_cancel_right, drop_take, ← map_drop,
      ← map_take]
  unfold insertSlice
  dsimp only
  rw [stop_clamped]
  have hfirstEnd : (if v.start < 0 then max (v.start + (matchbuf.length : ℤ)) 0 else v.start) =
      firstEnd matchbuf.length v := rfl
  rw [hfirstEnd, hdifference, hsplit]
  generalize firstEnd matchbuf.length v = first at hfirst ⊢
  generalize stopEnd matchbuf.length v = stop
  by_cases hcount : 0 < min stop matchbuf.length - first
  · rw [if_pos hcount, if_neg (ne_true_of_eq_false hsorts)]
    obtain ⟨k, hk⟩ := Int.eq_ofNat_of_zero_le hfirst
    obtain ⟨count, hn⟩ := Int.eq_ofNat_of_zero_le hcount.le
    have hroom : k + count ≤ matchbuf.length := by omega
    have hplace : (matchbuf.length : ℤ) - first - (min stop matchbuf.length - first) =
        (matchbuf.length - k - count : ℕ) := by omega
    rw [hplace, hn, Int.toNat_natCast, insertMatches_up g.words (by omega), reverse_part _ hroom,
      hk, Int.toNat_natCast]
    -- Behind the last match there is nothing to take.
    have htake : (matchbuf.reverse.drop k).take (stop.toNat - k) =
        (matchbuf.reverse.drop k).take count := by
      have hrest : (matchbuf.reverse.drop k).length = matchbuf.length - k := by
        rw [length_drop, length_reverse]
      obtain hle | hgt := le_or_gt stop matchbuf.length
      · have heq : stop.toNat - k = count := by omega
        rw [heq]
      · rw [take_of_length_le (by omega), take_of_length_le (by omega)]
    rw [htake]
  · have hliteral : (!badcshglob && !g.noMatch && decide ((matchbuf.length : ℤ) = 1)) = false := by
      obtain rfl | rfl := hmatches
      · rfl
      · rw [length_nil, Bool.and_eq_false_iff]
        exact .inr rfl
    have hempty : (matchbuf.reverse.drop first.toNat).take (stop.toNat - first.toNat) = [] := by
      obtain hle | hgt := le_or_gt stop first
      · have hzero : stop.toNat - first.toNat = 0 := by omega
        rw [hzero, take_zero]
      · have hall : matchbuf.reverse.drop first.toNat = [] := by
          apply drop_eq_nil_of_le
          rw [length_reverse]
          omega
        rw [hall, take_nil]
    rw [if_neg hcount, if_neg (ne_true_of_eq_false hliteral), hempty]
    rfl

theorem sortsList_nil {α : Type*} (cmp : α → α → ℤ) : SortsList cmp [] where
  refl a := absurd a.2 not_mem_nil
  swap a := absurd a.2 not_mem_nil
  trans a := absurd a.2 not_mem_nil

theorem sorted_nil (qsort : QSort Gmatch) : g.sorted qsort [] = [] := by
  unfold sorted
  split
  · rfl
  · exact List.perm_nil.mp (qsort.perm _ _ (sortsList_nil _))

theorem zglobEnd_matches (hsorts : g.Sorts) {qsort : QSort Gmatch} {found : List Gmatch}
    (hinserts : g.InsertsMatches found) {v : SubscriptValue}
    (hfits : RangeFits (g.names qsort found).length v) (behind : List Bytes) :
    g.zglobEnd qsort found v.start v.stop behind =
      some (.words ((chosen (g.names qsort found) v).flatMap g.words.around ++ behind)) := by
  have hlength : (g.names qsort found).length = (g.sorted qsort found).length := by
    rw [names, length_map, length_reverse]
  rw [hlength] at hfits
  have hfinish {badcshglob : Bool} (h : badcshglob = true ∨ found = []) :
      (g.insertSlice badcshglob (g.sorted qsort found) v.start v.stop behind).map GlobEnd.words =
        some (.words ((chosen (g.names qsort found) v).flatMap g.words.around ++ behind)) := by
    rw [insertSlice_sorted hsorts _ hfits behind]
    · rfl
    · obtain htrue | rfl := h
      · exact .inl htrue
      · exact .inr (sorted_nil qsort)
  unfold zglobEnd
  by_cases hfound : found = []
  · subst hfound
    rw [if_neg (not_not.mpr rfl)]
    obtain hne | hempty := hinserts
    · exact absurd rfl hne
    · cases hnull : g.nullGlob with
      | true =>
        rw [if_neg (by simp), if_neg]
        · exact hfinish (.inr rfl)
        · rw [hnull, if_pos rfl] at hempty
          rw [hempty]
          exact Bool.false_ne_true
      | false =>
        rw [hnull, if_neg Bool.false_ne_true] at hempty
        rw [if_pos (by simp), if_pos hempty]
        exact hfinish (.inl rfl)
  · rw [if_pos hfound]
    exact hfinish (.inl rfl)

end GlobState

/-! ## Words and positions outside -/

/-- A subscript means the slice of all the words that are inserted without it. -/
def SlicesWords (g : GlobState) (qsort : QSort Gmatch) (found : List Gmatch) (i : ℤ)
    (j : Option ℤ) : Prop :=
  ∃ whole, g.zglobEnd qsort found 0 (-1) [] = some (.words whole) ∧
    let v := getindexArray ⟨false, false⟩ i j
    g.zglobEnd qsort found v.start v.stop [] = some (.words (getarrvalue whole v))

/-- The file `a`. -/
def fileA : Gmatch := literalMatch ⟨[char 'a'], by decide⟩

/-- `*` with the given words in front of each match. -/
def globWith (preWords : List Bytes) : GlobState where
  sorts := [⟨.name, false⟩]
  shortcircuit := false
  numsort := false
  words := ⟨preWords, []⟩
  nullGlob := false
  cshNullGlob := false
  noMatch := true
  inExpandredir := false
  badcshglob := false
  ostr := ⟨[char '*'], by decide⟩

theorem names_fileA (qsort : QSort Gmatch) (preWords : List Bytes) :
    (globWith preWords).names qsort [fileA] = [[char 'a']] := by
  have hself : gmatchcmp false [⟨.name, false⟩] fileA fileA = 0 := by decide
  have hsorts : SortsList (gmatchcmp false [⟨.name, false⟩]) [fileA] := by
    have hone (a : {x // x ∈ [fileA]}) : a = ⟨fileA, mem_singleton_self _⟩ :=
      Subtype.ext (List.mem_singleton.mp a.2)
    constructor
    · intro a
      rw [hone a]
      exact hself
    · intro a b
      rw [hone a, hone b]
      exact iff_of_false hself.not_lt hself.not_gt
    · intro a b c _ _
      rw [hone a, hone c]
      exact hself.le
  have hsorted : (globWith preWords).sorted qsort [fileA] = [fileA] :=
    List.perm_singleton.mp (qsort.perm _ _ hsorts)
  rw [GlobState.names, hsorted]
  decide

end Bsh.Shell
