import Bsh.Shell.HashCursor

/-!
# The table and the scans that run on it

The table is a map from names to nodes.  A scan that runs has come to some names, each of them once,
and the nodes that it has ahead have other names.  The steps keep this, unless they take away what a
scan that is not told goes to.
-/

namespace Bsh.Shell

open Bsh.Library List

variable {κ : Type*}

/-- The names that the loop has come to. -/
def Scan.names (st : Scan κ) : List κ := st.visits.map fun v ↦ v.2.1

/-- The map after a step. -/
def mapStep [DecidableEq κ] (m : κ → Option ℕ) : HashEvent κ → κ → Option ℕ
  | .add nam hn => Function.update m nam (some hn)
  | .remove nam => Function.update m nam none
  | _ => m

/-- A scan has come to a name or has it ahead. -/
def Scan.Covers (s : HashTable κ) (st : Scan κ) (k : κ) : Prop :=
  k ∈ st.names ∨ ∃ n, st.cursor.ahead s.table n ∧ (s.node n).nam = k

/-- What holds of a scan that runs. -/
structure Scan.Sound (hash : κ → ℕ) (s : HashTable κ) (st : Scan κ) : Prop where
  fits : st.cursor.Fits s.nodes s.table
  nodup : st.names.Nodup
  apart : ∀ n, st.cursor.ahead s.table n → (s.node n).nam ∉ st.names
  passed : ∀ k ∈ st.names, st.cursor.Passed (hash k)
  id_lt : st.id < s.started

namespace HashTable

variable [LinearOrder κ] (hash : κ → ℕ)

/-- The table is the map: its nodes are those of the map, each in its bucket and only once, and
there are `ct` of them. -/
structure Refines (s : HashTable κ) (m : κ → Option ℕ) : Prop where
  holds : s.table.Holds (hashing hash s.node) fun n ↦ m (s.node n).nam = some n
  named : ∀ k n, m k = some n → (s.node n).nam = k
  count : s.table.ct = s.table.all.length

/-- What holds of the table and all its scans. -/
structure Sound (s : HashTable κ) (m : κ → Option ℕ) : Prop where
  refines : s.Refines hash m
  scans : ∀ st ∈ s.scans, st.Sound hash s

/-- A step keeps clear of the scans.  No node is added that is in the table already, which is up to
the callers.  A scan that `impl(ht)->scan` does not point to loses nothing that it goes to; no
sorted scan loses a node that it has ahead; and an unsorted one does not lose its buckets. -/
def Allowed (s : HashTable κ) : HashEvent κ → Prop
  | .add nam hn => hn ∉ s.table.all ∧
    match s.gethashnode2 hash nam with
    | some hp => ∀ st ∈ s.scans, st.cursor.GoesTo hp → s.scan = some st.id
    | none => 2 * s.table.hsize ≤ s.table.ct + 1 → s.scan = none → ∀ st ∈ s.scans, st.cursor.Done
  | .remove nam =>
    match s.gethashnode2 hash nam with
    | some hp => ∀ st ∈ s.scans, st.cursor.GoesTo hp → ¬st.cursor.Done ∧ s.scan = some st.id
    | none => True
  | _ => True

variable {hash} {s : HashTable κ} {m : κ → Option ℕ} {nam : κ} {hn hp : ℕ}

/-! ## The table -/

theorem Refines.mem_bucket (h : s.Refines hash m) (nam : κ) (n : ℕ) :
    n ∈ s.bucket hash nam ∧ (s.node n).nam = nam ↔ m nam = some n := by
  rw [bucket, h.holds.mem_iff]
  constructor
  · rintro ⟨⟨hn, _⟩, rfl⟩
    exact hn
  · intro hn
    obtain rfl := h.named nam n hn
    exact ⟨⟨hn, rfl⟩, rfl⟩

theorem Refines.gethashnode2_eq (h : s.Refines hash m) (nam : κ) :
    s.gethashnode2 hash nam = m nam := by
  cases hfind : s.gethashnode2 hash nam with
  | none =>
    cases hm : m nam with
    | none => rfl
    | some n =>
      obtain ⟨hmem, hname⟩ := (h.mem_bucket nam n).mpr hm
      have hnot := List.find?_eq_none.mp hfind n hmem
      exact absurd (decide_eq_true hname) hnot
  | some n =>
    have hname : (s.node n).nam = nam := by
      have hfound := List.find?_some hfind
      exact of_decide_eq_true hfound
    exact ((h.mem_bucket nam n).mp ⟨mem_of_find?_eq_some hfind, hname⟩).symm

theorem Refines.mem_all (h : s.Refines hash m) (n : ℕ) :
    n ∈ s.table.all ↔ m (s.node n).nam = some n := h.holds.mem_all n

/-- The nodes, one of which has its name set. -/
def rename (s : HashTable κ) (nam : κ) (hn : ℕ) : ℕ → HashNode κ :=
  Function.update s.node hn ⟨nam, (s.node hn).flags⟩

omit [LinearOrder κ] in
theorem rename_self (s : HashTable κ) (nam : κ) (hn : ℕ) : (s.rename nam hn hn).nam = nam := by
  rw [rename, Function.update_self]

omit [LinearOrder κ] in
theorem rename_of_ne (s : HashTable κ) (nam : κ) {hn n : ℕ} (hne : n ≠ hn) :
    s.rename nam hn n = s.node n := Function.update_of_ne hne _ _

theorem Refines.holds_rename (h : s.Refines hash m) (hnot : hn ∉ s.table.all) (nam : κ) :
    s.table.Holds (hashing hash (s.rename nam hn)) fun n ↦ m (s.node n).nam = some n := by
  have hne : ∀ n, m (s.node n).nam = some n → n ≠ hn := fun n hn' heq ↦
    hnot (heq ▸ (h.mem_all n).mpr hn')
  refine h.holds.congr (fun n hn' ↦ ?_) fun n n' hn' hn'' hsame ↦ ?_
  · exact congrArg (fun x ↦ hash x.nam) (s.rename_of_ne nam (hne n hn'))
  · have hsame' : (s.rename nam hn n).nam = (s.rename nam hn n').nam := of_decide_eq_true hsame
    rw [rename_of_ne s nam (hne n hn'), rename_of_ne s nam (hne n' hn'')] at hsame'
    exact decide_eq_true hsame'

variable (hash) in
/-- The state with a new node in front of its chain. -/
def pushed (s : HashTable κ) (nam : κ) (hn : ℕ) : HashTable κ :=
  let h := hashing hash (s.rename nam hn)
  { s with node := s.rename nam hn
           table := s.table.setChain h hn (hn :: s.table.chain h hn) (s.table.ct + 1) }

variable (hash) in
/-- The state with a node in the place of another. -/
def swapped (s : HashTable κ) (nam : κ) (hn hp : ℕ) : HashTable κ :=
  let h := hashing hash (s.rename nam hn)
  { s with
    node := s.rename nam hn
    table := s.table.setChain h hn
      (HashChains.replaceFirst (h.same · hn) hn (s.table.chain h hn)) s.table.ct
    scans := s.patchScan (.replace hp hn) }

theorem Refines.same_eq_false (h : s.Refines hash m) (hnot : hn ∉ s.table.all)
    (hm : m nam = none) (n : ℕ) (hn' : m (s.node n).nam = some n) :
    (hashing hash (s.rename nam hn)).same n hn = false := by
  have hne : n ≠ hn := fun heq ↦ hnot (heq ▸ (h.mem_all n).mpr hn')
  refine decide_eq_false fun hsame ↦ ?_
  rw [rename_self, rename_of_ne s nam hne] at hsame
  rw [hsame, hm] at hn'
  exact nomatch hn'

theorem Refines.addWith_new (h : s.Refines hash m) (hnot : hn ∉ s.table.all) (hm : m nam = none)
    (expand : HashTable κ → Option (HashTable κ)) : addWith hash expand s nam hn =
      if 2 * s.table.hsize ≤ s.table.ct + 1 && s.scan.isNone then
        (expand (s.pushed hash nam hn)).map fun s ↦ (s, none)
      else some (s.pushed hash nam hn, none) := by
  have hfind := (h.holds_rename hnot nam).find_none (h.same_eq_false hnot hm)
  have hadd : s.table.add (hashing hash (s.rename nam hn)) hn =
      ((s.pushed hash nam hn).table, none) := by
    rw [HashChains.add, hfind]
    rfl
  have hrename : Function.update s.node hn ⟨nam, (s.node hn).flags⟩ = s.rename nam hn := rfl
  unfold addWith
  dsimp only
  rw [hrename, hadd]
  rfl

theorem length_all_eq {t : HashChains ℕ} {h : Hashing ℕ} {S : ℕ → Prop} (ht : t.Holds h S)
    {l : List ℕ} (hl : l.Nodup) (hmem : ∀ n, n ∈ l ↔ S n) : t.all.length = l.length := by
  refine List.Perm.length_eq ((perm_ext_iff_of_nodup ht.nodup_all hl).mpr fun n ↦ ?_)
  rw [ht.mem_all, hmem]

theorem Refines.pushed (h : s.Refines hash m) (hnot : hn ∉ s.table.all) (hm : m nam = none) :
    (s.pushed hash nam hn).Refines hash (Function.update m nam (some hn)) := by
  have hrename := h.holds_rename hnot nam
  have hsame := h.same_eq_false hnot hm
  obtain ⟨_, hadd⟩ := hrename.add_new hsame
  have htable : (s.table.add (hashing hash (s.rename nam hn)) hn).1 =
      (s.pushed hash nam hn).table := by
    rw [HashChains.add, hrename.find_none hsame]
    rfl
  rw [htable] at hadd
  have hS : ∀ n, (m (s.node n).nam = some n ∨ n = hn) ↔
      Function.update m nam (some hn) (s.rename nam hn n).nam = some n := fun n ↦ by
    by_cases hne : n = hn
    · subst hne
      rw [rename_self, Function.update_self]
      exact iff_of_true (.inr rfl) rfl
    · rw [rename_of_ne s nam hne, or_iff_left hne]
      by_cases hname : (s.node n).nam = nam
      · rw [hname, Function.update_self, hm]
        exact iff_of_false nofun fun heq ↦ hne (Option.some.inj heq).symm
      · rw [Function.update_of_ne hname]
  refine ⟨hadd.iff hS, fun k n hk ↦ ?_, ?_⟩
  · by_cases hname : k = nam
    · rw [hname, Function.update_self] at hk
      obtain rfl : hn = n := Option.some.inj hk
      exact (rename_self s nam hn).trans hname.symm
    · rw [Function.update_of_ne hname] at hk
      have hne : n ≠ hn := fun heq ↦ hnot (heq ▸ (h.mem_all n).mpr (by rwa [h.named k n hk]))
      exact (congrArg HashNode.nam (rename_of_ne s nam hne)).trans (h.named k n hk)
  · have hlength := length_all_eq hadd (List.nodup_cons.mpr ⟨hnot, h.holds.nodup_all⟩)
      fun n ↦ by rw [mem_cons, h.mem_all, or_comm]
    rw [hlength, length_cons, ← h.count]
    rfl

theorem Refines.swap_find (h : s.Refines hash m) (hnot : hn ∉ s.table.all)
    (hm : m nam = some hp) :
    (s.table.chain (hashing hash (s.rename nam hn)) hn).find?
      ((hashing hash (s.rename nam hn)).same · hn) = some hp := by
  have hname := h.named nam hp hm
  have hmem : m (s.node hp).nam = some hp := by rw [hname, hm]
  have hne : hp ≠ hn := fun heq ↦ hnot (heq ▸ (h.mem_all hp).mpr hmem)
  refine (h.holds_rename hnot nam).find_some hmem (decide_eq_true ?_)
  rw [rename_self, rename_of_ne s nam hne, hname]

theorem Refines.addWith_swap (h : s.Refines hash m) (hnot : hn ∉ s.table.all)
    (hm : m nam = some hp) (expand : HashTable κ → Option (HashTable κ)) :
    addWith hash expand s nam hn = some (s.swapped hash nam hn hp, some hp) := by
  have hadd : s.table.add (hashing hash (s.rename nam hn)) hn =
      ((s.swapped hash nam hn hp).table, some hp) := by
    rw [HashChains.add, h.swap_find hnot hm]
    rfl
  have hrename : Function.update s.node hn ⟨nam, (s.node hn).flags⟩ = s.rename nam hn := rfl
  unfold addWith
  dsimp only
  rw [hrename, hadd]
  rfl

theorem Refines.swapped (h : s.Refines hash m) (hnot : hn ∉ s.table.all) (hm : m nam = some hp) :
    (s.swapped hash nam hn hp).Refines hash (Function.update m nam (some hn)) := by
  have hname := h.named nam hp hm
  have hmem : m (s.node hp).nam = some hp := by rw [hname, hm]
  have hne : hp ≠ hn := fun heq ↦ hnot (heq ▸ (h.mem_all hp).mpr hmem)
  have hrename := h.holds_rename hnot nam
  have hsame : (hashing hash (s.rename nam hn)).same hp hn = true := by
    refine decide_eq_true ?_
    rw [rename_self, rename_of_ne s nam hne, hname]
  obtain ⟨_, hadd⟩ := hrename.add_same (fun hS ↦ hnot ((h.mem_all hn).mpr hS)) hmem hsame
  have htable : (s.table.add (hashing hash (s.rename nam hn)) hn).1 =
      (s.swapped hash nam hn hp).table := by
    rw [HashChains.add, h.swap_find hnot hm]
    rfl
  rw [htable] at hadd
  have hS : ∀ n, ((m (s.node n).nam = some n ∧ n ≠ hp) ∨ n = hn) ↔
      Function.update m nam (some hn) (s.rename nam hn n).nam = some n := fun n ↦ by
    by_cases hnew : n = hn
    · subst hnew
      rw [rename_self, Function.update_self]
      exact iff_of_true (.inr rfl) rfl
    · rw [rename_of_ne s nam hnew, or_iff_left hnew]
      by_cases hsame : (s.node n).nam = nam
      · rw [hsame, Function.update_self, hm]
        exact iff_of_false (fun hold ↦ hold.2 (Option.some.inj hold.1).symm)
          fun heq ↦ hnew (Option.some.inj heq).symm
      · rw [Function.update_of_ne hsame]
        refine and_iff_left fun heq ↦ hsame ?_
        rw [heq, hname]
  refine ⟨hadd.iff hS, fun k n hk ↦ ?_, ?_⟩
  · by_cases hkey : k = nam
    · rw [hkey, Function.update_self] at hk
      obtain rfl : hn = n := Option.some.inj hk
      exact (rename_self s nam hn).trans hkey.symm
    · rw [Function.update_of_ne hkey] at hk
      have hnew : n ≠ hn := fun heq ↦ hnot (heq ▸ (h.mem_all n).mpr (by rwa [h.named k n hk]))
      exact (congrArg HashNode.nam (rename_of_ne s nam hnew)).trans (h.named k n hk)
  · have hold : (s.table.all.erase hp).length + 1 = s.table.all.length := by
      have hall : hp ∈ s.table.all := (h.mem_all hp).mpr hmem
      have hpos := length_pos_of_mem hall
      rw [length_erase_of_mem hall]
      omega
    have hlength := length_all_eq hadd
      (List.nodup_cons.mpr ⟨fun hin ↦ hnot (mem_of_mem_erase hin),
        h.holds.nodup_all.erase hp⟩)
      fun n ↦ by
        rw [mem_cons, h.holds.nodup_all.mem_erase_iff, h.mem_all, or_comm, and_comm]
    rw [hlength, length_cons, hold, ← h.count]
    rfl

variable (hash) in
/-- The state without a node. -/
def erased (s : HashTable κ) (nam : κ) (hp : ℕ) : HashTable κ :=
  { s with
    table := ScanCursor.eraseIn s.table (fun hp ↦ (s.node hp).nam = nam)
      (hash nam % s.table.hsize) (s.table.ct - 1)
    scans := s.patchScan (.remove hp (successor hp (s.bucket hash nam))) }

theorem Refines.removehashnode_eq (h : s.Refines hash m) (hm : m nam = some hp) :
    s.removehashnode hash nam = (s.erased hash nam hp, some hp) := by
  unfold removehashnode
  rw [h.gethashnode2_eq, hm]
  rfl

theorem Refines.erase_find (h : s.Refines hash m) (hm : m nam = some hp) :
    (s.table.nodes (hash nam % s.table.hsize)).find? (fun hp ↦ (s.node hp).nam = nam) =
      some hp := (h.gethashnode2_eq nam).trans hm

theorem Refines.erased (h : s.Refines hash m) (hm : m nam = some hp) :
    (s.erased hash nam hp).Refines hash (Function.update m nam none) := by
  have hname := h.named nam hp hm
  have hmem : m (s.node hp).nam = some hp := by rw [hname, hm]
  have hfind := h.erase_find hm
  have hremove := h.holds.remove hmem
  have htable : s.table.remove (hashing hash s.node) hp = (s.erased hash nam hp).table := by
    have hchain : s.table.chain (hashing hash s.node) hp =
        s.table.nodes (hash nam % s.table.hsize) := by
      rw [HashChains.chain, ← hname]
      rfl
    have hsame : ((hashing hash s.node).same · hp) = fun n ↦ decide ((s.node n).nam = nam) := by
      rw [← hname]
      rfl
    rw [HashChains.remove, if_pos, HashChains.setChain, hchain, hsame]
    · have hbucket : (hashing hash s.node).hash hp = hash nam := by
        rw [← hname]
        rfl
      rw [hbucket]
      rfl
    · rw [hchain, hsame]
      exact List.any_eq_true.mpr ⟨hp, mem_of_find?_eq_some hfind, decide_eq_true hname⟩
  rw [htable] at hremove
  have hS : ∀ n, (m (s.node n).nam = some n ∧ n ≠ hp) ↔
      Function.update m nam none (s.node n).nam = some n := fun n ↦ by
    by_cases hsame : (s.node n).nam = nam
    · rw [hsame, Function.update_self, hm]
      exact iff_of_false (fun hold ↦ hold.2 (Option.some.inj hold.1).symm) nofun
    · rw [Function.update_of_ne hsame]
      refine and_iff_left fun heq ↦ hsame ?_
      rw [heq, hname]
  refine ⟨hremove.iff hS, fun k n hk ↦ ?_, ?_⟩
  · by_cases hkey : k = nam
    · rw [hkey, Function.update_self] at hk
      exact nomatch hk
    · rw [Function.update_of_ne hkey] at hk
      exact h.named k n hk
  · have hlength := length_all_eq hremove (h.holds.nodup_all.erase hp) fun n ↦ by
      rw [h.holds.nodup_all.mem_erase_iff, h.mem_all, and_comm]
    rw [hlength, length_erase_of_mem ((h.mem_all hp).mpr hmem), ← h.count]
    rfl

end HashTable

end Bsh.Shell
