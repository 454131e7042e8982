import Mathlib.Data.List.Induction
import Bsh.Library.Run
import Bsh.Shell.HashExpand

/-!
# The steps of a run

Every step that keeps clear of the scans keeps the table a map and every scan as it should be: what a
scan has come to or has ahead stays so as long as the name is in the table, and what it comes to is
the node that the table has under the name at that time.
-/

namespace Bsh.Shell

open Bsh.Library List

variable {κ : Type*}

/-- Two cursors that see the same. -/
structure ScanCursor.SameView (c c' : ScanCursor) : Prop where
  ahead : ∀ t n, c'.ahead t n ↔ c.ahead t n
  fits : ∀ nodes t, c'.Fits nodes t ↔ c.Fits nodes t
  passed : ∀ v, c'.Passed v ↔ c.Passed v

namespace ScanCursor

theorem SameView.refl (c : ScanCursor) : SameView c c :=
  ⟨fun _ _ ↦ Iff.rfl, fun _ _ ↦ Iff.rfl, fun _ ↦ Iff.rfl⟩

theorem passed_replace (c : ScanCursor) (hp hn v : ℕ) :
    (c.replace hp hn).Passed v ↔ c.Passed v := by cases c <;> exact Iff.rfl

theorem passed_remove (c : ScanCursor) (hp : ℕ) (next : Option ℕ) (v : ℕ) :
    (c.remove hp next).Passed v ↔ c.Passed v := by cases c <;> exact Iff.rfl

theorem sameView_replace {c : ScanCursor} {hp : ℕ} (h : ¬c.GoesTo hp) (hn : ℕ) :
    SameView (c.replace hp hn) c := by
  obtain ⟨hahead, hfits⟩ := ahead_replace_of_not_goesTo h hn
  exact ⟨fun t n ↦ (hahead t n).symm, fun nodes t ↦ (hfits nodes t).symm,
    fun v ↦ (passed_replace c hp hn v).symm⟩

theorem sameView_remove {c : ScanCursor} {hp : ℕ} (h : ¬c.GoesTo hp) (next : Option ℕ) :
    SameView (c.remove hp next) c := by
  obtain ⟨hahead, hfits⟩ := remove_of_not_goesTo h next
  exact ⟨fun t n ↦ (hahead t n).symm, fun nodes t ↦ (hfits nodes t).symm,
    fun v ↦ (passed_remove c hp next v).symm⟩

end ScanCursor

namespace HashTable

variable [LinearOrder κ] {hash : κ → ℕ} {s t : HashTable κ} {m m' : κ → Option ℕ}
  {nam : κ} {hn hp : ℕ} {st st' : Scan κ}

/-- A scan before and after a step. -/
structure Kept (s : HashTable κ) (m : κ → Option ℕ) (t : HashTable κ) (m' : κ → Option ℕ)
    (st st' : Scan κ) : Prop where
  id : st'.id = st.id
  newest : ∀ v ∈ st'.visits, v ∈ st.visits ∨ m v.2.1 = some v.1
  covers : ∀ k, m k ≠ none → m' k ≠ none → st.Covers s k → st'.Covers t k

omit [LinearOrder κ] in
/-- The scans after a patch, of which those that are not patched see the same as if they were. -/
theorem mem_patchScan {f : ScanCursor → ScanCursor}
    (hf : ∀ st ∈ s.scans, s.scan ≠ some st.id → ScanCursor.SameView (f st.cursor) st.cursor)
    (st' : Scan κ) (h : st' ∈ s.patchScan f) : ∃ st ∈ s.scans, st'.id = st.id ∧ st'.visits = st.visits ∧
      ScanCursor.SameView (f st.cursor) st'.cursor := by
  obtain ⟨st, hst, rfl⟩ := List.mem_map.mp h
  refine ⟨st, hst, ?_⟩
  by_cases hid : s.scan = some st.id
  · rw [if_pos hid]
    exact ⟨rfl, rfl, .refl _⟩
  · rw [if_neg hid]
    exact ⟨rfl, rfl, hf st hst hid⟩

/-! ## Adding -/

theorem Refines.ne_of_mem (h : s.Refines hash m) (hnot : hn ∉ s.table.all) {n : ℕ}
    (hn' : m (s.node n).nam = some n) : n ≠ hn := fun heq ↦ hnot (heq ▸ (h.mem_all n).mpr hn')

theorem Sound.pushed (h : s.Sound hash m) (hnot : hn ∉ s.table.all) (hm : m nam = none) :
    (s.pushed hash nam hn).Sound hash (Function.update m nam (some hn)) ∧
      ∀ st ∈ s.scans, ∀ k, st.Covers s k → st.Covers (s.pushed hash nam hn) k := by
  have hrename := h.refines.holds_rename hnot nam
  have hrefines := h.refines.pushed hnot hm
  have hmono : ∀ n, m (s.node n).nam = some n →
      Function.update m nam (some hn) (s.rename nam hn n).nam = some n := fun n hn' ↦ by
    have hname : (s.node n).nam ≠ nam := fun heq ↦ by
      rw [heq, hm] at hn'
      exact nomatch hn'
    rw [rename_of_ne s nam (h.refines.ne_of_mem hnot hn'), Function.update_of_ne hname]
    exact hn'
  have hnode : ∀ st ∈ s.scans, ∀ n, st.cursor.ahead s.table n →
      (s.pushed hash nam hn).node n = s.node n := fun st hst n hahead ↦
    rename_of_ne s nam (h.refines.ne_of_mem hnot
      ((h.scans st hst).fits.mem h.refines.holds hahead))
  have hnew := fun hS ↦ hnot ((h.refines.mem_all hn).mpr hS)
  refine ⟨⟨hrefines, fun st hst ↦ ?_⟩, fun st hst k hk ↦ ?_⟩
  · have hsound := h.scans st hst
    refine ⟨hsound.fits.add_new hrename hn _ hrefines.holds hmono, hsound.nodup,
      fun n hahead ↦ ?_, hsound.passed, hsound.id_lt⟩
    rcases (ScanCursor.ahead_add_new hsound.fits hrename hnew _ n).2 hahead with
      hold | ⟨rfl, hpassed⟩
    · rw [hnode st hst n hold]
      exact hsound.apart n hold
    · have hname : ((s.pushed hash nam n).node n).nam = nam := rename_self s nam n
      have hhash : (hashing hash (s.rename nam n)).hash n = hash nam :=
        congrArg hash (rename_self s nam n)
      rw [hhash] at hpassed
      rw [hname]
      exact fun hmem ↦ hpassed (hsound.passed nam hmem)
  · rcases hk with hk | ⟨n, hahead, hname⟩
    · exact .inl hk
    · refine .inr ⟨n, ?_, ?_⟩
      · exact (ScanCursor.ahead_add_new (h.scans st hst).fits hrename hnew _ n).1 hahead
      · rw [hnode st hst n hahead]
        exact hname

theorem Sound.expanded (h : s.Sound hash m) (hdone : ∀ st ∈ s.scans, st.cursor.Done)
    (ht : Expanded hash s m t) : t.Sound hash m ∧
      ∀ st ∈ s.scans, ∀ k, st.Covers s k → st.Covers t k := by
  have hholds := ht.refines.holds
  rw [ht.node] at hholds
  refine ⟨⟨ht.refines, fun st hst ↦ ?_⟩, fun st hst k hk ↦ ?_⟩
  · rw [ht.scans] at hst
    have hsound := h.scans st hst
    refine ⟨hsound.fits.of_done (hdone st hst) h.refines.holds hholds _, hsound.nodup,
      fun n hahead ↦ ?_, hsound.passed, ?_⟩
    · rw [ht.node]
      exact hsound.apart n ((ScanCursor.ahead_of_done (hdone st hst) _ _ n).mp hahead)
    · rw [ht.started]
      exact hsound.id_lt
  · refine hk.imp id fun ⟨n, hahead, hname⟩ ↦ ⟨n, ?_, ?_⟩
    · exact (ScanCursor.ahead_of_done (hdone st hst) _ _ n).mpr hahead
    · rw [ht.node]
      exact hname

theorem Sound.swapped (h : s.Sound hash m) (hnot : hn ∉ s.table.all) (hm : m nam = some hp)
    (hsafe : ∀ st ∈ s.scans, st.cursor.GoesTo hp → s.scan = some st.id) :
    (s.swapped hash nam hn hp).Sound hash (Function.update m nam (some hn)) ∧
      ∀ st' ∈ (s.swapped hash nam hn hp).scans, ∃ st ∈ s.scans,
        Kept s m (s.swapped hash nam hn hp) (Function.update m nam (some hn)) st st' := by
  have hrename := h.refines.holds_rename hnot nam
  have hrefines := h.refines.swapped hnot hm
  have hfind := h.refines.swap_find hnot hm
  have hname := h.refines.named nam hp hm
  have hnew := fun hS ↦ hnot ((h.refines.mem_all hn).mpr hS)
  have hnewName : ((s.swapped hash nam hn hp).node hn).nam = nam := rename_self s nam hn
  have hnode : ∀ st ∈ s.scans, ∀ n, st.cursor.ahead s.table n →
      (s.swapped hash nam hn hp).node n = s.node n := fun st hst n hahead ↦
    rename_of_ne s nam (h.refines.ne_of_mem hnot
      ((h.scans st hst).fits.mem h.refines.holds hahead))
  have hmono : ∀ n, m (s.node n).nam = some n → n ≠ hp →
      Function.update m nam (some hn) (s.rename nam hn n).nam = some n := fun n hn' hne ↦ by
    have hother : (s.node n).nam ≠ nam := fun heq ↦ by
      rw [heq, hm] at hn'
      exact hne (Option.some.inj hn').symm
    rw [rename_of_ne s nam (h.refines.ne_of_mem hnot hn'), Function.update_of_ne hother]
    exact hn'
  have hview := mem_patchScan fun st hst hid ↦
    ScanCursor.sameView_replace (fun hgoes ↦ hid (hsafe st hst hgoes)) hn
  refine ⟨⟨hrefines, fun st' hst' ↦ ?_⟩, fun st' hst' ↦ ?_⟩
  · obtain ⟨st, hst, hid, hvisits, hsame⟩ := hview st' hst'
    have hsound := h.scans st hst
    have hnames : st'.names = st.names := congrArg (List.map _) hvisits
    refine ⟨(hsame.fits _ _).mpr (hsound.fits.replace hrename hfind hnew _ hrefines.holds hmono ?_),
      hnames ▸ hsound.nodup, fun n hahead ↦ ?_, fun k hk ↦ ?_, hid ▸ hsound.id_lt⟩
    · change Function.update m nam (some hn) (s.rename nam hn hn).nam = some hn
      rw [rename_self, Function.update_self]
    · rw [hnames]
      rcases (ScanCursor.ahead_replace hsound.fits hrename hfind hnew _ n).mp
        ((hsame.ahead _ n).mp hahead) with ⟨hold, _⟩ | ⟨rfl, hold⟩
      · rw [hnode st hst n hold]
        exact hsound.apart n hold
      · rw [hnewName, ← hname]
        exact hsound.apart hp hold
    · rw [hnames] at hk
      exact (hsame.passed _).mpr ((ScanCursor.passed_replace _ _ _ _).mpr (hsound.passed k hk))
  · obtain ⟨st, hst, hid, hvisits, hsame⟩ := hview st' hst'
    refine ⟨st, hst, hid, fun v hv ↦ .inl (hvisits ▸ hv), fun k _ _ hk ↦ ?_⟩
    have hahead := fun n ↦ (hsame.ahead _ n).trans
      (ScanCursor.ahead_replace (h.scans st hst).fits hrename hfind hnew s.table.ct n)
    rcases hk with hk | ⟨n, hold, hkey⟩
    · exact .inl (by rw [Scan.names, hvisits]; exact hk)
    · by_cases hne : n = hp
      · refine .inr ⟨hn, (hahead hn).mpr (.inr ⟨rfl, hne ▸ hold⟩), ?_⟩
        rw [hnewName, ← hname, ← hne, hkey]
      · refine .inr ⟨n, (hahead n).mpr (.inl ⟨hold, hne⟩), ?_⟩
        rw [hnode st hst n hold, hkey]

/-! ## Removing -/

theorem Sound.erased (h : s.Sound hash m) (hm : m nam = some hp)
    (hsafe : ∀ st ∈ s.scans, st.cursor.GoesTo hp → ¬st.cursor.Done ∧ s.scan = some st.id) :
    (s.erased hash nam hp).Sound hash (Function.update m nam none) ∧
      ∀ st' ∈ (s.erased hash nam hp).scans, ∃ st ∈ s.scans,
        Kept s m (s.erased hash nam hp) (Function.update m nam none) st st' := by
  have hrefines := h.refines.erased hm
  have hfind := h.refines.erase_find hm
  have hname := h.refines.named nam hp hm
  have hsorted : ∀ st ∈ s.scans, st.cursor.Done → ¬st.cursor.GoesTo hp := fun st hst hdone hgoes ↦
    (hsafe st hst hgoes).1 hdone
  have hmono : ∀ n, m (s.node n).nam = some n → n ≠ hp →
      Function.update m nam none (s.node n).nam = some n := fun n hn' hne ↦ by
    have hother : (s.node n).nam ≠ nam := fun heq ↦ by
      rw [heq, hm] at hn'
      exact hne (Option.some.inj hn').symm
    rw [Function.update_of_ne hother]
    exact hn'
  have hview := mem_patchScan (f := .remove hp (successor hp (s.bucket hash nam)))
    fun st hst hid ↦ ScanCursor.sameView_remove (fun hgoes ↦ hid (hsafe st hst hgoes).2) _
  refine ⟨⟨hrefines, fun st' hst' ↦ ?_⟩, fun st' hst' ↦ ?_⟩
  · obtain ⟨st, hst, hid, hvisits, hsame⟩ := hview st' hst'
    have hsound := h.scans st hst
    have hnames : st'.names = st.names := congrArg (List.map _) hvisits
    refine ⟨(hsame.fits _ _).mpr (hsound.fits.remove h.refines.holds hfind (hsorted st hst) _
      hrefines.holds hmono), hnames ▸ hsound.nodup, fun n hahead ↦ ?_, fun k hk ↦ ?_,
      hid ▸ hsound.id_lt⟩
    · rw [hnames]
      exact hsound.apart n ((ScanCursor.ahead_remove hsound.fits h.refines.holds hfind
        (hsorted st hst) _ n).mp ((hsame.ahead _ n).mp hahead)).1
    · rw [hnames] at hk
      exact (hsame.passed _).mpr ((ScanCursor.passed_remove _ _ _ _).mpr (hsound.passed k hk))
  · obtain ⟨st, hst, hid, hvisits, hsame⟩ := hview st' hst'
    refine ⟨st, hst, hid, fun v hv ↦ .inl (hvisits ▸ hv), fun k _ hk' hk ↦ ?_⟩
    refine hk.imp (fun hk ↦ by rw [Scan.names, hvisits]; exact hk) fun ⟨n, hold, hkey⟩ ↦
      ⟨n, ?_, hkey⟩
    refine (hsame.ahead _ n).mpr ((ScanCursor.ahead_remove (h.scans st hst).fits h.refines.holds
      hfind (hsorted st hst) _ n).mpr ⟨hold, ?_⟩)
    rintro rfl
    rw [← hkey, hname, Function.update_self] at hk'
    exact hk' rfl

/-! ## Scanning -/

/-- What a turn of a scan that comes to a node does. -/
structure Visits (hash : κ → ℕ) (s : HashTable κ) (c : ScanCursor) (n : ℕ) (c' : ScanCursor) :
    Prop where
  ahead : c.ahead s.table n
  rest : ∀ n', c'.ahead s.table n' ↔ c.ahead s.table n' ∧ n' ≠ n
  fits : c'.Fits s.nodes s.table
  passed : ∀ v, c.Passed v → c'.Passed v
  here : c'.Passed (hash (s.node n).nam)

theorem Refines.visit_eq (h : s.Refines hash m) {n : ℕ} (hmem : m (s.node n).nam = some n)
    (st : Scan κ) (rest : List (Scan κ)) (c : ScanCursor) : s.visit hash st rest n c =
      some { s with scans := { st with
        cursor := c, visits := st.visits ++ [(n, (s.node n).nam, selects st (s.node n))] } ::
          rest } := if_pos ((h.holds.mem_iff _ n).mpr ⟨hmem, rfl⟩)

theorem Refines.next_eq (h : s.Refines hash m) {n b : ℕ} (hn : n ∈ s.table.nodes b) :
    s.next hash n = successor n (s.table.nodes b) := by
  rw [next, HashChains.chain, ← ((h.holds.mem_iff b n).mp hn).2]

theorem Refines.hash_of_mem (h : s.Refines hash m) {n b : ℕ} (hn : n ∈ s.table.nodes b) :
    hash (s.node n).nam % s.table.hsize = b := ((h.holds.mem_iff b n).mp hn).2.symm

omit [LinearOrder κ] in
theorem visits_sorted {hashtab : List (Option ℕ)} {i n : ℕ}
    (hc : (ScanCursor.sorted hashtab i).Fits s.nodes s.table) (hi : hashtab[i]? = some (some n)) :
    Visits hash s (.sorted hashtab i) n (.sorted hashtab (i + 1)) := by
  obtain ⟨hnodup, hnone, hall⟩ := hc
  have hdrop : hashtab.drop i = some n :: hashtab.drop (i + 1) := by
    obtain ⟨hlt, hget⟩ := List.getElem?_eq_some_iff.mp hi
    rw [drop_eq_getElem_cons hlt, hget]
  rw [hdrop] at hnodup hnone hall
  obtain ⟨hfirst, hnodup⟩ := List.nodup_cons.mp hnodup
  refine ⟨?_, fun n' ↦ ?_, ⟨hnodup, fun hmem ↦ hnone (mem_cons_of_mem _ hmem),
    fun n' hn' ↦ hall n' (mem_cons_of_mem _ hn')⟩, fun _ _ ↦ trivial, trivial⟩
  · rw [ScanCursor.ahead, hdrop]
    exact mem_cons_self
  · rw [ScanCursor.ahead, ScanCursor.ahead, hdrop, mem_cons, Option.some.injEq]
    constructor
    · intro hn'
      refine ⟨.inr hn', ?_⟩
      rintro rfl
      exact hfirst hn'
    · rintro ⟨rfl | hn', hne⟩
      · exact absurd rfl hne
      · exact hn'

theorem visits_link (h : s.Refines hash m) {nodes hsize i n : ℕ}
    (hc : (ScanCursor.unsorted nodes hsize i (some n)).Fits s.nodes s.table) :
    Visits hash s (.unsorted nodes hsize i (some n)) n
      (.unsorted nodes hsize i (s.next hash n)) := by
  obtain ⟨hnone, _⟩ | ⟨hnodes, rfl, hle, hu⟩ := hc
  · exact absurd hnone (Option.some_ne_none n)
  obtain ⟨hpos, hmem⟩ := hu n rfl
  have hnodup := h.holds.nodup (i - 1)
  have hnext := h.next_eq hmem
  have hwalk := remaining_step hnodup hmem
  have hrest : n ∉ remaining (successor n (s.table.nodes (i - 1))) (s.table.nodes (i - 1)) := by
    have hsub := (remaining_suffix (some n) _).sublist.nodup hnodup
    rw [hwalk] at hsub
    exact (List.nodup_cons.mp hsub).1
  refine ⟨.inl ?_, fun n' ↦ ?_, .inr ⟨hnodes, rfl, hle, fun n' hn' ↦ ⟨hpos, ?_⟩⟩,
    fun _ hv ↦ hv, ?_⟩
  · rw [hwalk]
    exact mem_cons_self
  · rw [ScanCursor.ahead, ScanCursor.ahead, hwalk, hnext, mem_cons]
    constructor
    · rintro (hn' | ⟨b, hib, hb, hn'⟩)
      · refine ⟨.inl (.inr hn'), ?_⟩
        rintro rfl
        exact hrest hn'
      · refine ⟨.inr ⟨b, hib, hb, hn'⟩, ?_⟩
        rintro rfl
        have hsame := (h.hash_of_mem hn').symm.trans (h.hash_of_mem hmem)
        omega
    · rintro ⟨(rfl | hn') | hlater, hne⟩
      · exact absurd rfl hne
      · exact .inl hn'
      · exact .inr hlater
  · rw [hnext] at hn'
    exact successor_mem hn'
  · have hhash := h.hash_of_mem hmem
    change hash (s.node n).nam % s.table.hsize < i
    omega

omit [LinearOrder κ] in
theorem nextBucket_some {i hsize j n : ℕ} (h : s.nextBucket i hsize = some (j, n)) :
    i ≤ j ∧ j < hsize ∧ (s.table.nodes j).head? = some n ∧
      ∀ b, i ≤ b → b < j → s.table.nodes b = [] := by
  obtain ⟨before, a, after, hlist, ha, hbefore⟩ := List.findSome?_eq_some_iff.mp h
  obtain ⟨n', hhead, hpair⟩ := Option.map_eq_some_iff.mp ha
  obtain ⟨rfl, rfl⟩ := Prod.mk.inj hpair
  have hmem : a ∈ List.range' i (hsize - i) := hlist ▸ by simp
  rw [mem_range'_1] at hmem
  refine ⟨hmem.1, by omega, hhead, fun b hib hba ↦ ?_⟩
  have hb : b ∈ before ++ a :: after := by
    rw [← hlist, mem_range'_1]
    omega
  have hsorted : (before ++ a :: after).Pairwise (· < ·) := hlist ▸ pairwise_lt_range'
  have hlater : ∀ c ∈ after, a < c :=
    (List.pairwise_cons.mp (List.pairwise_append.mp hsorted).2.1).1
  rcases List.mem_append.mp hb with hb | hb
  · exact List.head?_eq_none_iff.mp (Option.map_eq_none_iff.mp (hbefore b hb))
  · rcases List.mem_cons.mp hb with rfl | hb
    · exact absurd hba (Nat.lt_irrefl b)
    · exact absurd (hlater b hb) (by omega)

omit [LinearOrder κ] in
theorem nextBucket_none {i hsize : ℕ} (h : s.nextBucket i hsize = none) :
    ∀ b, i ≤ b → b < hsize → s.table.nodes b = [] := by
  intro b hib hb
  have hmem : b ∈ List.range' i (hsize - i) := by
    rw [mem_range'_1]
    omega
  have hnone := List.findSome?_eq_none_iff.mp h b hmem
  exact List.head?_eq_none_iff.mp (Option.map_eq_none_iff.mp hnone)

theorem visits_bucket (h : s.Refines hash m) {nodes i j n : ℕ} (hnodes : nodes = s.nodes)
    (hnext : s.nextBucket i s.table.hsize = some (j, n)) :
    Visits hash s (.unsorted nodes s.table.hsize i none) n
      (.unsorted nodes s.table.hsize (j + 1) (s.next hash n)) := by
  obtain ⟨hij, hj, hhead, hempty⟩ := nextBucket_some hnext
  have hmem : n ∈ s.table.nodes j := mem_of_head? hhead
  have hlist : s.table.nodes j =
      n :: remaining (successor n (s.table.nodes j)) (s.table.nodes j) := by
    have hwalk := remaining_head (s.table.nodes j)
    rw [hhead, remaining_step (h.holds.nodup j) hmem] at hwalk
    exact hwalk.symm
  have hrest : n ∉ remaining (successor n (s.table.nodes j)) (s.table.nodes j) := by
    have hnodup := h.holds.nodup j
    rw [hlist] at hnodup
    exact (List.nodup_cons.mp hnodup).1
  refine ⟨.inr ⟨j, hij, hj, hmem⟩, fun n' ↦ ?_, .inr ⟨hnodes, rfl, hj, fun n' hn' ↦
    ⟨Nat.succ_pos j, ?_⟩⟩, fun v hv ↦ Nat.lt_of_lt_of_le hv (by omega), ?_⟩
  · rw [ScanCursor.ahead, ScanCursor.ahead, h.next_eq hmem, Nat.add_sub_cancel]
    constructor
    · rintro (hn' | ⟨b, hjb, hb, hn'⟩)
      · refine ⟨.inr ⟨j, hij, hj, mem_of_mem_remaining hn'⟩, ?_⟩
        rintro rfl
        exact hrest hn'
      · refine ⟨.inr ⟨b, by omega, hb, hn'⟩, ?_⟩
        rintro rfl
        have hsame := (h.hash_of_mem hn').symm.trans (h.hash_of_mem hmem)
        omega
    · rintro ⟨hn' | ⟨b, hib, hb, hn'⟩, hne⟩
      · exact absurd hn' not_mem_nil
      · rcases Nat.lt_trichotomy b j with hlt | rfl | hgt
        · rw [hempty b hib hlt] at hn'
          exact absurd hn' not_mem_nil
        · rw [hlist] at hn'
          exact .inl ((List.mem_cons.mp hn').resolve_left hne)
        · exact .inr ⟨b, hgt, hb, hn'⟩
  · rw [h.next_eq hmem] at hn'
    exact successor_mem hn'
  · exact Nat.lt_succ_of_le (h.hash_of_mem hmem).le

/-- A turn comes to a node, or ends the scan, which then has nothing ahead. -/
theorem Sound.scanTurn (h : s.Sound hash m) {st : Scan κ} {rest : List (Scan κ)}
    (hscans : s.scans = st :: rest) :
    (s.scanTurn hash = some (s.endScan rest) ∧ ∀ n, ¬st.cursor.ahead s.table n) ∨
      ∃ n c, Visits hash s st.cursor n c ∧ m (s.node n).nam = some n ∧
        s.scanTurn hash = some { s with scans := { st with
          cursor := c, visits := st.visits ++ [(n, (s.node n).nam, selects st (s.node n))] } ::
            rest } := by
  have hfits := (h.scans st (hscans ▸ mem_cons_self)).fits
  -- A node that is ahead is in the table.
  have hcomes : ∀ n c, Visits hash s st.cursor n c →
      s.scanTurn hash = s.visit hash st rest n c →
        ∃ n c, Visits hash s st.cursor n c ∧ m (s.node n).nam = some n ∧
          s.scanTurn hash = some { s with scans := { st with
            cursor := c, visits := st.visits ++ [(n, (s.node n).nam, selects st (s.node n))] } ::
              rest } := fun n c hvisits hturn ↦ by
    have hmem := hfits.mem h.refines.holds hvisits.ahead
    exact ⟨n, c, hvisits, hmem, hturn.trans (h.refines.visit_eq hmem st rest c)⟩
  cases hcursor : st.cursor with
  | sorted hashtab i =>
    rw [hcursor] at hfits hcomes
    cases hi : hashtab[i]? with
    | none =>
      refine .inl ⟨by rw [HashTable.scanTurn, hscans]; dsimp only; rw [hcursor]; dsimp only; rw [hi],
        fun n hahead ↦ ?_⟩
      rw [ScanCursor.ahead, drop_eq_nil_of_le (List.getElem?_eq_none_iff.mp hi)] at hahead
      exact not_mem_nil hahead
    | some entry =>
      cases entry with
      | none =>
        obtain ⟨hlt, hget⟩ := List.getElem?_eq_some_iff.mp hi
        refine absurd ?_ hfits.2.1
        rw [drop_eq_getElem_cons hlt, hget]
        exact mem_cons_self
      | some n =>
        refine .inr (hcomes n _ (visits_sorted hfits hi) ?_)
        rw [HashTable.scanTurn, hscans]
        dsimp only
        rw [hcursor]
        dsimp only
        rw [hi]
  | unsorted nodes hsize i u =>
    rw [hcursor] at hfits hcomes
    cases u with
    | some n =>
      refine .inr (hcomes n _ (visits_link h.refines hfits) ?_)
      rw [HashTable.scanTurn, hscans]
      dsimp only
      rw [hcursor]
    | none =>
      have hturn : s.scanTurn hash =
          if hsize ≤ i then some (s.endScan rest)
          else if nodes ≠ s.nodes then none
          else (s.nextBucket i hsize).elim (some (s.endScan rest)) fun found ↦
            s.visit hash st rest found.2 (.unsorted nodes hsize (found.1 + 1) (s.next hash found.2)) := by
        rw [HashTable.scanTurn, hscans]
        dsimp only
        rewrite [hcursor]
        dsimp only
        cases s.nextBucket i hsize <;> rfl
      have hnothing : (∀ b, i ≤ b → b < hsize → s.table.nodes b = []) →
          ∀ n, ¬(ScanCursor.unsorted nodes hsize i none).ahead s.table n := by
        rintro hempty n (hn | ⟨b, hib, hb, hn⟩)
        · exact not_mem_nil hn
        · rw [hempty b hib hb] at hn
          exact not_mem_nil hn
      by_cases hend : hsize ≤ i
      · rw [if_pos hend] at hturn
        exact .inl ⟨hturn, hnothing fun b hib hb ↦ absurd hb (by omega)⟩
      · obtain ⟨_, hend'⟩ | ⟨hnodes, rfl, _, _⟩ := hfits
        · exact absurd hend' hend
        rw [if_neg hend, if_neg (not_not_intro hnodes)] at hturn
        cases hnext : s.nextBucket i s.table.hsize with
        | none =>
          rw [hnext] at hturn
          exact .inl ⟨hturn, hnothing (nextBucket_none hnext)⟩
        | some pair =>
          rw [hnext] at hturn
          exact .inr (hcomes pair.2 _ (visits_bucket h.refines hnodes hnext) hturn)

theorem Sound.turn (h : s.Sound hash m) : ∃ t, s.scanTurn hash = some t ∧ t.Sound hash m ∧
    s.started = t.started ∧ ∀ st' ∈ t.scans, ∃ st ∈ s.scans, Kept s m t m st st' := by
  cases hscans : s.scans with
  | nil =>
    refine ⟨s, by rw [HashTable.scanTurn, hscans], h, rfl, fun st' hst' ↦ ?_⟩
    rw [hscans] at hst'
    exact absurd hst' not_mem_nil
  | cons st rest =>
    have hrest : ∀ st' ∈ rest, st' ∈ s.scans := fun st' hst' ↦
      hscans ▸ mem_cons_of_mem st hst'
    have hst : st ∈ s.scans := hscans ▸ mem_cons_self
    have hsound := h.scans st hst
    rcases h.scanTurn hscans with ⟨hturn, _⟩ | ⟨n, c, hvisits, hmem, hturn⟩
    · refine ⟨_, hturn, ⟨⟨h.refines.holds, h.refines.named, h.refines.count⟩, fun st' hst' ↦ ?_⟩,
        rfl, fun st' hst' ↦ ⟨st', mem_cons_of_mem st hst', rfl, fun _ ↦ .inl,
          fun _ _ _ hk ↦ hk⟩⟩
      have hst'' := h.scans st' (hrest st' hst')
      exact ⟨hst''.fits, hst''.nodup, hst''.apart, hst''.passed, hst''.id_lt⟩
    · have hnames : (st.visits ++ [(n, (s.node n).nam, selects st (s.node n))]).map
          (fun v ↦ v.2.1) = st.names ++ [(s.node n).nam] := by
        rw [map_append]
        rfl
      refine ⟨_, hturn, ⟨⟨h.refines.holds, h.refines.named, h.refines.count⟩, fun st' hst' ↦ ?_⟩,
        rfl, fun st' hst' ↦ ?_⟩
      · rcases List.mem_cons.mp hst' with rfl | hst'
        · refine ⟨hvisits.fits, ?_, fun n' hn' ↦ ?_, fun k hk ↦ ?_, hsound.id_lt⟩
          · rw [Scan.names, hnames]
            exact List.nodup_append.mpr ⟨hsound.nodup, nodup_singleton _, fun k hk k' hk' ↦ by
              rw [List.mem_singleton.mp hk']
              rintro rfl
              exact hsound.apart n hvisits.ahead hk⟩
          · obtain ⟨hold, hne⟩ := (hvisits.rest n').mp hn'
            rw [Scan.names, hnames, mem_append, mem_singleton]
            rintro (hin | heq)
            · exact hsound.apart n' hold hin
            · have hmem' := hsound.fits.mem h.refines.holds hold
              rw [show (s.node n').nam = (s.node n).nam from heq, hmem] at hmem'
              exact hne (Option.some.inj hmem').symm
          · rw [Scan.names, hnames, mem_append, mem_singleton] at hk
            rcases hk with hk | rfl
            · exact hvisits.passed _ (hsound.passed k hk)
            · exact hvisits.here
        · have hst'' := h.scans st' (hrest st' hst')
          exact ⟨hst''.fits, hst''.nodup, hst''.apart, hst''.passed, hst''.id_lt⟩
      · rcases List.mem_cons.mp hst' with rfl | hst'
        · refine ⟨st, mem_cons_self, rfl, fun v hv ↦ ?_, fun k _ _ hk ↦ ?_⟩
          · rcases List.mem_append.mp hv with hv | hv
            · exact .inl hv
            · rw [List.mem_singleton.mp hv]
              exact .inr hmem
          · rw [Scan.Covers, Scan.names, hnames, mem_append, mem_singleton]
            rcases hk with hk | ⟨n', hahead, rfl⟩
            · exact .inl (.inl hk)
            · by_cases hne : n' = n
              · exact .inl (.inr (by rw [hne]))
              · exact .inr ⟨n', (hvisits.rest n').mpr ⟨hahead, hne⟩, rfl⟩
        · exact ⟨st', mem_cons_of_mem st hst', rfl, fun _ ↦ .inl, fun _ _ _ hk ↦ hk⟩

theorem Sound.startScan (h : s.Sound hash m) (sorted : Bool) (flags1 flags2 : ℕ)
    (pprog : Option (κ → Bool)) : ∃ st t, s.startScan sorted flags1 flags2 pprog = some t ∧
      t.Sound hash m ∧ t.scans = st :: s.scans ∧ st.id = s.started ∧
      t.started = s.started + 1 ∧ st.visits = [] ∧ ∀ k, m k ≠ none → st.Covers t k := by
  -- All that is said about a cursor of the new scan.
  have hstart : ∀ c : ScanCursor, c.Fits s.nodes s.table →
      (∀ n, m (s.node n).nam = some n → c.ahead s.table n) →
      s.startScan sorted flags1 flags2 pprog = some { s with
        scan := some s.started
        scans := ⟨s.started, flags1, flags2, pprog, c, []⟩ :: s.scans
        started := s.started + 1 } →
      ∃ st t, s.startScan sorted flags1 flags2 pprog = some t ∧ t.Sound hash m ∧
        t.scans = st :: s.scans ∧ st.id = s.started ∧ t.started = s.started + 1 ∧
        st.visits = [] ∧ ∀ k, m k ≠ none → st.Covers t k := fun c hfits hall heq ↦ by
    refine ⟨_, _, heq, ⟨⟨h.refines.holds, h.refines.named, h.refines.count⟩, fun st' hst' ↦ ?_⟩,
      rfl, rfl, rfl, rfl, fun k hk ↦ ?_⟩
    · rcases List.mem_cons.mp hst' with rfl | hst'
      · exact ⟨hfits, nodup_nil, fun _ _ ↦ not_mem_nil,
          fun k hk ↦ absurd hk not_mem_nil, Nat.lt_succ_self _⟩
      · have hsound := h.scans st' hst'
        exact ⟨hsound.fits, hsound.nodup, hsound.apart, hsound.passed,
          Nat.lt_succ_of_lt hsound.id_lt⟩
    · cases hm : m k with
      | none => exact absurd hm hk
      | some n =>
        have hname := h.refines.named k n hm
        exact .inr ⟨n, hall n (by rw [hname, hm]), hname⟩
  have hperm : (s.table.all.insertionSort fun a b ↦ (s.node a).nam ≤ (s.node b).nam).Perm
      s.table.all := perm_insertionSort _ _
  cases sorted with
  | true =>
    refine hstart (.sorted ((s.table.all.insertionSort fun a b ↦
      (s.node a).nam ≤ (s.node b).nam).map some) 0) ⟨?_, ?_, fun n hn ↦ ?_⟩ (fun n hn ↦ ?_) ?_
    · exact (hperm.nodup_iff.mpr h.refines.holds.nodup_all).map fun _ _ ↦ Option.some.inj
    · rw [drop_zero, mem_map]
      rintro ⟨n, _, hnone⟩
      exact Option.some_ne_none n hnone
    · obtain ⟨n', hn', heq⟩ := List.mem_map.mp hn
      exact Option.some.inj heq ▸ hperm.mem_iff.mp hn'
    · exact List.mem_map.mpr ⟨n, hperm.mem_iff.mpr ((h.refines.mem_all n).mpr hn), rfl⟩
    · rw [HashTable.startScan, if_pos rfl, if_pos h.refines.count.symm]
  | false =>
    refine hstart (.unsorted s.nodes s.table.hsize 0 none)
      (.inr ⟨rfl, rfl, Nat.zero_le _, nofun⟩) (fun n hn ↦ .inr ?_) rfl
    exact ⟨_, Nat.zero_le _, Nat.mod_lt _ h.refines.holds.size_pos,
      (h.refines.holds.mem_iff _ n).mpr ⟨hn, rfl⟩⟩

theorem Sound.setFlags (h : s.Sound hash m) (hn flags : ℕ) : HashTable.Sound hash
    { s with node := Function.update s.node hn { s.node hn with flags } } m ∧
      ∀ n, (Function.update s.node hn { s.node hn with flags } n).nam = (s.node n).nam := by
  have hname : ∀ n, (Function.update s.node hn { s.node hn with flags } n).nam =
      (s.node n).nam := fun n ↦ by
    by_cases hne : n = hn
    · rw [hne, Function.update_self]
    · rw [Function.update_of_ne hne]
  refine ⟨⟨⟨?_, fun k n hk ↦ (hname n).trans (h.refines.named k n hk), h.refines.count⟩,
    fun st hst ↦ ?_⟩, hname⟩
  · refine (h.refines.holds.congr (fun n _ ↦ congrArg hash (hname n)) fun n n' _ _ hsame ↦ ?_).iff
      fun n ↦ by rw [hname]
    refine decide_eq_true ?_
    rw [← hname n, ← hname n']
    exact of_decide_eq_true hsame
  · have hsound := h.scans st hst
    refine ⟨hsound.fits, hsound.nodup, fun n hn ↦ ?_, hsound.passed, hsound.id_lt⟩
    rw [hname]
    exact hsound.apart n hn

/-! ## All steps -/

/-- A scan after a step: one that ran before, or a new one. -/
def After (s : HashTable κ) (m : κ → Option ℕ) (t : HashTable κ) (m' : κ → Option ℕ)
    (st' : Scan κ) : Prop :=
  (∃ st ∈ s.scans, Kept s m t m' st st') ∨
    (st'.id = s.started ∧ s.started < t.started ∧ st'.visits = [] ∧ ∀ k, m k ≠ none → st'.Covers t k)

theorem Sound.step (h : s.Sound hash m) {event : HashEvent κ} (hallowed : s.Allowed hash event) :
    ∃ t, s.step hash event = some t ∧ t.Sound hash (mapStep m event) ∧ s.started ≤ t.started ∧
      ∀ st' ∈ t.scans, After s m t (mapStep m event) st' := by
  cases event with
  | add nam hn =>
    obtain ⟨hnot, hclear⟩ := hallowed
    rw [h.refines.gethashnode2_eq] at hclear
    rw [HashTable.step, addhashnode2]
    cases hm : m nam with
    | some hp =>
      rw [hm] at hclear
      obtain ⟨hsound, hkept⟩ := h.swapped hnot hm hclear
      refine ⟨_, by rw [h.refines.addWith_swap hnot hm]; rfl, hsound, Nat.le_refl _,
        fun st' hst' ↦ .inl (hkept st' hst')⟩
    | none =>
      rw [hm] at hclear
      obtain ⟨hsound, hcovers⟩ := h.pushed hnot hm
      rw [h.refines.addWith_new hnot hm]
      split
      · rename_i hfull
        obtain ⟨hfull, hnull⟩ := Bool.and_eq_true_iff.mp hfull
        have hnull : s.scan = none := Option.isNone_iff_eq_none.mp hnull
        obtain ⟨t, ht, hex⟩ := expandhashtable_spec hsound.refines
          hnull
        have hdone : ∀ st ∈ (s.pushed hash nam hn).scans, st.cursor.Done :=
          hclear (of_decide_eq_true hfull) hnull
        obtain ⟨htsound, htcovers⟩ := hsound.expanded hdone hex
        refine ⟨t, by rw [ht]; rfl, htsound, hex.started.ge, fun st' hst' ↦ .inl ⟨st', ?_, rfl,
          fun _ ↦ .inl, fun k _ _ hk ↦ ?_⟩⟩
        · rw [hex.scans] at hst'
          exact hst'
        · rw [hex.scans] at hst'
          exact htcovers st' hst' k (hcovers st' hst' k hk)
      · exact ⟨_, rfl, hsound, Nat.le_refl _, fun st' hst' ↦ .inl ⟨st', hst', rfl, fun _ ↦ .inl,
          fun k _ _ hk ↦ hcovers st' hst' k hk⟩⟩
  | remove nam =>
    rw [Allowed, h.refines.gethashnode2_eq] at hallowed
    cases hm : m nam with
    | some hp =>
      rw [hm] at hallowed
      obtain ⟨hsound, hkept⟩ := h.erased hm hallowed
      refine ⟨_, by rw [HashTable.step, h.refines.removehashnode_eq hm], hsound, Nat.le_refl _,
        fun st' hst' ↦ .inl (hkept st' hst')⟩
    | none =>
      have hstay : mapStep m (.remove nam) = m := by
        rw [mapStep, ← hm]
        exact Function.update_eq_self nam m
      rw [hstay]
      refine ⟨s, ?_, h, Nat.le_refl _, fun st' hst' ↦ .inl ⟨st', hst', rfl, fun _ ↦ .inl,
        fun _ _ _ hk ↦ hk⟩⟩
      rw [HashTable.step, removehashnode, h.refines.gethashnode2_eq, hm]
  | flags hn flags =>
    obtain ⟨hsound, hname⟩ := h.setFlags hn flags
    refine ⟨_, rfl, hsound, Nat.le_refl _, fun st' hst' ↦ .inl ⟨st', hst', rfl, fun _ ↦ .inl,
      fun k _ _ hk ↦ hk.imp id fun ⟨n, hahead, hkey⟩ ↦ ⟨n, hahead, (hname n).trans hkey⟩⟩⟩
  | scan sorted flags1 flags2 pprog =>
    obtain ⟨st, t, hstart, hsound, hscans, hid, hstarted, hvisits, hcovers⟩ :=
      h.startScan sorted flags1 flags2 pprog
    have htable : t.table = s.table ∧ t.node = s.node := by
      unfold HashTable.startScan at hstart
      split at hstart
      · split at hstart
        · obtain rfl := Option.some.inj hstart
          exact ⟨rfl, rfl⟩
        · exact nomatch hstart
      · obtain rfl := Option.some.inj hstart
        exact ⟨rfl, rfl⟩
    refine ⟨t, hstart, hsound, by omega, fun st' hst' ↦ ?_⟩
    rw [hscans] at hst'
    rcases List.mem_cons.mp hst' with rfl | hst'
    · exact .inr ⟨hid, by omega, hvisits, hcovers⟩
    · refine .inl ⟨st', hst', rfl, fun _ ↦ .inl, fun k _ _ hk ↦ ?_⟩
      rw [Scan.Covers, htable.1, htable.2]
      exact hk
  | turn =>
    obtain ⟨t, hturn, hsound, hstarted, hkept⟩ := h.turn
    exact ⟨t, hturn, hsound, hstarted.le, fun st' hst' ↦ .inl (hkept st' hst')⟩

end HashTable

end Bsh.Shell

/-!
# Runs of a table and its scans

In a run whose steps keep clear of the scans, the table is the map that the steps describe, no scan
touches what is not there any more, and a scan that comes to its end has come to every name that was
in the table throughout, once, and to the node that the name stood for at that time.
-/

namespace Bsh.Shell

open Bsh.Library List

namespace HashTable

variable {κ : Type*} [LinearOrder κ] (hash : κ → ℕ)

/-- The map after the steps. -/
def mapAfter (events : List (HashEvent κ)) : κ → Option ℕ := events.foldl mapStep fun _ ↦ none

/-- What the table and its scans promise.  `sound`: the table is always the map.  `newest`: a scan
comes to the node that a name stands for.  `once`: a scan whose next turn ends it has come to no name
twice, and to every name that was in the table from its start on. -/
structure Faithful (start : HashTable κ) (events : List (HashEvent κ)) : Prop where
  sound : ∀ before, before <+: events → ∃ s, run (nextState hash) (some start) before = some s ∧
    s.Refines hash (mapAfter before) ∧
    ∀ nam, s.gethashnode2 hash nam = mapAfter before nam
  newest : ∀ before event s t, before ++ [event] <+: events →
    run (nextState hash) (some start) before = some s →
    run (nextState hash) (some start) (before ++ [event]) = some t →
    ∀ st' ∈ t.scans, ∀ v ∈ st'.visits, (∃ st ∈ s.scans, st.id = st'.id ∧ v ∈ st.visits) ∨
      mapAfter before v.2.1 = some v.1
  once : ∀ before sorted flags1 flags2 pprog middle r s st rest,
    before ++ .scan sorted flags1 flags2 pprog :: middle <+: events →
    run (nextState hash) (some start) before = some r →
    run (nextState hash) (some start) (before ++ .scan sorted flags1 flags2 pprog :: middle) =
      some s →
    s.scans = st :: rest → st.id = r.started → s.scanTurn hash = some (s.endScan rest) →
    st.names.Nodup ∧ ∀ k, (∀ during, during <+: middle →
      mapAfter (before ++ .scan sorted flags1 flags2 pprog :: during) k ≠ none) → k ∈ st.names

variable {hash}

theorem mapAfter_concat (before : List (HashEvent κ)) (event : HashEvent κ) :
    mapAfter (before ++ [event]) = mapStep (mapAfter before) event := by
  rw [mapAfter, foldl_append]
  rfl

theorem sound_newhashtable (hash : κ → ℕ) (node : ℕ → HashNode κ) {size : ℕ} (hsize : 0 < size) :
    (newhashtable node size).Sound hash fun _ ↦ none := by
  have hholds := HashChains.holds_empty (hashing hash node) hsize
  refine ⟨⟨hholds.iff fun n ↦ ⟨False.elim, nofun⟩, nofun, ?_⟩, nofun⟩
  exact (length_all_eq hholds nodup_nil fun n ↦
    ⟨fun hn ↦ not_mem_nil hn, False.elim⟩).symm

/-- The condition on a step of a run. -/
def StepAllowed (hash : κ → ℕ) (s : Option (HashTable κ)) (event : HashEvent κ) : Prop :=
  ∀ t, s = some t → t.Allowed hash event

instance (n : ℕ) : (c : ScanCursor) → Decidable (c.GoesTo n)
  | .sorted hashtab i => inferInstanceAs (Decidable (some n ∈ hashtab.drop i))
  | .unsorted _ _ _ u => inferInstanceAs (Decidable (u = some n))

instance : (c : ScanCursor) → Decidable c.Done
  | .sorted _ _ => inferInstanceAs (Decidable True)
  | .unsorted _ hsize i u => inferInstanceAs (Decidable (u = none ∧ hsize ≤ i))

instance (s : HashTable κ) : (event : HashEvent κ) → Decidable (s.Allowed hash event)
  | .add nam hn =>
    match h : s.gethashnode2 hash nam with
    | some hp => decidable_of_iff (hn ∉ s.table.all ∧
        ∀ st ∈ s.scans, st.cursor.GoesTo hp → s.scan = some st.id) (by rw [Allowed, h])
    | none => decidable_of_iff (hn ∉ s.table.all ∧ (2 * s.table.hsize ≤ s.table.ct + 1 →
        s.scan = none → ∀ st ∈ s.scans, st.cursor.Done)) (by rw [Allowed, h])
  | .remove nam =>
    match h : s.gethashnode2 hash nam with
    | some hp => decidable_of_iff (∀ st ∈ s.scans, st.cursor.GoesTo hp →
        ¬st.cursor.Done ∧ s.scan = some st.id) (by rw [Allowed, h])
    | none => isTrue (by rw [Allowed, h]; trivial)
  | .flags _ _ => inferInstanceAs (Decidable True)
  | .scan _ _ _ _ => inferInstanceAs (Decidable True)
  | .turn => inferInstanceAs (Decidable True)

instance : (s : Option (HashTable κ)) → (event : HashEvent κ) → Decidable (StepAllowed hash s event)
  | none, _ => isTrue nofun
  | some s, event => decidable_of_iff (s.Allowed hash event)
      ⟨fun h _ heq ↦ Option.some.inj heq ▸ h, fun h ↦ h s rfl⟩

variable {start : HashTable κ}

theorem run_sound (hstart : start.Sound hash fun _ ↦ none) {events : List (HashEvent κ)}
    (h : Meets (nextState hash) (StepAllowed hash) (some start) events) :
    ∃ s, run (nextState hash) (some start) events = some s ∧ s.Sound hash (mapAfter events) := by
  induction events using List.reverseRecOn with
  | nil => exact ⟨start, rfl, hstart⟩
  | append_singleton before event ih =>
    obtain ⟨hbefore, hevent⟩ := meets_append.mp h
    obtain ⟨s, hs, hsound⟩ := ih hbefore
    rw [hs] at hevent
    obtain ⟨t, ht, htsound, _⟩ := hsound.step (hevent.1 s rfl)
    refine ⟨t, ?_, ?_⟩
    · rw [run_append, hs]
      exact ht
    · rw [mapAfter_concat]
      exact htsound

theorem run_step (hstart : start.Sound hash fun _ ↦ none) {before : List (HashEvent κ)}
    {event : HashEvent κ}
    (h : Meets (nextState hash) (StepAllowed hash) (some start) (before ++ [event]))
    {s t : HashTable κ} (hs : run (nextState hash) (some start) before = some s)
    (ht : run (nextState hash) (some start) (before ++ [event]) = some t) :
    s.Sound hash (mapAfter before) ∧ s.started ≤ t.started ∧
      ∀ st' ∈ t.scans, After s (mapAfter before) t (mapAfter (before ++ [event])) st' := by
  obtain ⟨hbefore, hevent⟩ := meets_append.mp h
  obtain ⟨s', hs', hsound⟩ := run_sound hstart hbefore
  obtain rfl : s' = s := Option.some.inj (hs'.symm.trans hs)
  rw [hs] at hevent
  obtain ⟨t', ht', _, hstarted, hafter⟩ := hsound.step (hevent.1 s' rfl)
  have hrun : run (nextState hash) (some start) (before ++ [event]) = some t' := by
    rw [run_append, hs]
    exact ht'
  obtain rfl : t' = t := Option.some.inj (hrun.symm.trans ht)
  rw [mapAfter_concat]
  exact ⟨hsound, hstarted, hafter⟩

theorem meets_of_front {events before : List (HashEvent κ)} (hfront : before <+: events)
    (h : Meets (nextState hash) (StepAllowed hash) (some start) events) :
    Meets (nextState hash) (StepAllowed hash) (some start) before := by
  obtain ⟨rest, rfl⟩ := hfront
  exact (meets_append.mp h).1

/-- A scan has, at every time, come to the names that stay in the table, or has them ahead. -/
theorem run_covers (hstart : start.Sound hash fun _ ↦ none) {before : List (HashEvent κ)}
    {sorted : Bool} {flags1 flags2 : ℕ} {pprog : Option (κ → Bool)} {middle : List (HashEvent κ)}
    (h : Meets (nextState hash) (StepAllowed hash) (some start)
      (before ++ .scan sorted flags1 flags2 pprog :: middle)) {r s : HashTable κ}
    (hr : run (nextState hash) (some start) before = some r)
    (hs : run (nextState hash) (some start)
      (before ++ .scan sorted flags1 flags2 pprog :: middle) = some s) {k : κ}
    (hk : ∀ during, during <+: middle →
      mapAfter (before ++ .scan sorted flags1 flags2 pprog :: during) k ≠ none) :
    r.started < s.started ∧ ∀ st ∈ s.scans, st.id = r.started → st.Covers s k := by
  induction middle using List.reverseRecOn generalizing s with
  | nil =>
    obtain ⟨hsound, _, hafter⟩ := run_step hstart h hr hs
    have hnone : mapAfter before k ≠ none := by
      have hfirst := hk [] (prefix_refl _)
      rwa [mapAfter_concat] at hfirst
    have hnew : ∀ st ∈ s.scans, st.id = r.started → r.started < s.started ∧ st.Covers s k :=
      fun st hst hid ↦ by
        rcases hafter st hst with ⟨old, hold, hkept⟩ | ⟨_, hlt, _, hcovers⟩
        · have hless := (hsound.scans old hold).id_lt
          rw [hkept.id] at hid
          omega
        · exact ⟨hlt, hcovers k hnone⟩
    refine ⟨?_, fun st hst hid ↦ (hnew st hst hid).2⟩
    obtain ⟨st, t, hscan, _, _, _, hstarted, _⟩ := hsound.startScan sorted flags1 flags2 pprog
    have hrun : run (nextState hash) (some start)
        (before ++ [.scan sorted flags1 flags2 pprog]) = some t := by
      rw [run_append, hr]
      exact hscan
    obtain rfl : t = s := Option.some.inj (hrun.symm.trans hs)
    omega
  | append_singleton middle event ih =>
    have hsplit : before ++ .scan sorted flags1 flags2 pprog :: (middle ++ [event]) =
        (before ++ .scan sorted flags1 flags2 pprog :: middle) ++ [event] := by simp
    rw [hsplit] at h hs
    obtain ⟨u, hu, _⟩ := run_sound hstart (meets_append.mp h).1
    obtain ⟨hlt, hcovers⟩ := ih (meets_append.mp h).1 hu fun during hduring ↦
      hk during (hduring.trans (prefix_append middle [event]))
    obtain ⟨_, hstarted, hafter⟩ := run_step hstart h hu hs
    refine ⟨by omega, fun st hst hid ↦ ?_⟩
    rcases hafter st hst with ⟨old, hold, hkept⟩ | ⟨hnew, _⟩
    · refine hkept.covers k (hk middle (prefix_append middle [event])) ?_
        (hcovers old hold (hkept.id.symm.trans hid))
      rw [← hsplit]
      exact hk (middle ++ [event]) (prefix_refl _)
    · omega

theorem scans_of_allowed (hash : κ → ℕ) (node : ℕ → HashNode κ) {size : ℕ} (hsize : 0 < size)
    (events : List (HashEvent κ)) (h : Meets (nextState hash) (StepAllowed hash)
      (some (newhashtable node size)) events) :
    Faithful hash (newhashtable node size) events := by
  have hstart := sound_newhashtable hash node hsize
  refine ⟨fun before hbefore ↦ ?_, fun before event s t hfront hs ht st' hst' v hv ↦ ?_,
    fun before sorted flags1 flags2 pprog middle r s st rest hfront hr hs hscans hid hend ↦ ?_⟩
  · obtain ⟨s, hs, hsound⟩ := run_sound hstart (meets_of_front hbefore h)
    exact ⟨s, hs, hsound.refines, hsound.refines.gethashnode2_eq⟩
  · obtain ⟨_, _, hafter⟩ := run_step hstart (meets_of_front hfront h) hs ht
    rcases hafter st' hst' with ⟨st, hst, hkept⟩ | ⟨_, _, hnone, _⟩
    · exact (hkept.newest v hv).imp (fun hold ↦ ⟨st, hst, hkept.id.symm, hold⟩) id
    · rw [hnone] at hv
      exact absurd hv not_mem_nil
  · have hmeets := meets_of_front hfront h
    obtain ⟨s', hs', hsound⟩ := run_sound hstart hmeets
    obtain rfl : s' = s := Option.some.inj (hs'.symm.trans hs)
    have hst : st ∈ s'.scans := hscans ▸ mem_cons_self
    refine ⟨(hsound.scans st hst).nodup, fun k hk ↦ ?_⟩
    obtain ⟨_, hcovers⟩ := run_covers hstart hmeets hr hs hk
    rcases hsound.scanTurn hscans with ⟨_, hnothing⟩ | ⟨n, c, _, _, hturn⟩
    · exact (hcovers st hst hid).resolve_right fun ⟨n, hahead, _⟩ ↦ hnothing n hahead
    · have hsame := congrArg (Option.map fun t ↦ t.scans.length) (hturn.symm.trans hend)
      simp [endScan] at hsame

/-- Nodes without flags; their names are set when they are added. -/
def plainNodes : ℕ → HashNode ℕ := fun _ ↦ ⟨0, 0⟩

theorem faithful_replaced : Faithful id (newhashtable plainNodes 1)
    [.add 5 1, .add 9 2, .scan false 0 0 none, .turn, .add 5 3, .remove 5, .turn, .turn] :=
  scans_of_allowed id plainNodes Nat.zero_lt_one _ (by decide +kernel)

/-- A sorted scan follows the NULL pointer that a removed node has left behind; and after a scan
within a scan, the outer one is not told that the node it goes to next is removed. -/
theorem not_faithful :
    ¬Faithful id (newhashtable plainNodes 4)
        [.add 1 1, .add 2 2, .scan true 0 0 none, .turn, .remove 2, .turn] ∧
      ¬Faithful id (newhashtable plainNodes 4)
        [.add 1 1, .add 5 2, .scan false 0 0 none, .turn, .scan false 0 0 none, .turn, .turn,
          .turn, .remove 1, .turn] := by
  constructor
  · intro h
    obtain ⟨s, hs, _⟩ := h.sound _ (prefix_refl _)
    have hnone : (run (nextState id) (some (newhashtable plainNodes 4)) [.add 1 1, .add 2 2,
        .scan true 0 0 none, .turn, .remove 2, .turn]).isNone = true := by decide +kernel
    rw [hs] at hnone
    exact Bool.false_ne_true hnone
  · intro h
    obtain ⟨s, hs, _⟩ := h.sound _ (prefix_refl _)
    have hnone : (run (nextState id) (some (newhashtable plainNodes 4)) [.add 1 1, .add 5 2,
        .scan false 0 0 none, .turn, .scan false 0 0 none, .turn, .turn, .turn, .remove 1,
        .turn]).isNone = true := by decide +kernel
    rw [hs] at hnone
    exact Bool.false_ne_true hnone

end HashTable

end Bsh.Shell
