import Bsh.Shell.HashTable

/-!
# Where a scan is

The nodes that a scan has ahead of it, and what each change of the table does to them.  A scan that
is told of a change keeps what it has ahead; so does one that is not told, as long as it does not go
to the node next, and, where it is unsorted, the buckets stay where they are.
-/

namespace Bsh.Shell

open Bsh.Library List

namespace ScanCursor

/-- The nodes that the loop has still to come to. -/
def ahead (t : HashChains ℕ) : ScanCursor → ℕ → Prop
  | .sorted hashtab i, n => some n ∈ hashtab.drop i
  | .unsorted _ hsize i u, n =>
    n ∈ remaining u (t.nodes (i - 1)) ∨ ∃ b, i ≤ b ∧ b < hsize ∧ n ∈ t.nodes b

/-- An unsorted scan has the buckets of the table, unless it has come to its end. -/
def Fits (nodes : ℕ) (t : HashChains ℕ) : ScanCursor → Prop
  | .sorted hashtab i =>
    (hashtab.drop i).Nodup ∧ none ∉ hashtab.drop i ∧ ∀ n, some n ∈ hashtab.drop i → n ∈ t.all
  | .unsorted nodes' hsize i u => (u = none ∧ hsize ≤ i) ∨
    (nodes' = nodes ∧ hsize = t.hsize ∧ i ≤ hsize ∧
      ∀ n, u = some n → 0 < i ∧ n ∈ t.nodes (i - 1))

/-- Whether an unsorted scan has come to the bucket of a hash value. -/
def Passed : ScanCursor → ℕ → Prop
  | .sorted _ _, _ => True
  | .unsorted _ hsize i _, value => value % hsize < i

/-- Whether the scan reads its reference to a node again. -/
def GoesTo (n : ℕ) : ScanCursor → Prop
  | .sorted hashtab i => some n ∈ hashtab.drop i
  | .unsorted _ _ _ u => u = some n

/-- Whether the scan reads the array of buckets again or follows a link. -/
def Done : ScanCursor → Prop
  | .sorted _ _ => True
  | .unsorted _ hsize i u => u = none ∧ hsize ≤ i

variable {h : Hashing ℕ} {t : HashChains ℕ} {S : ℕ → Prop} {c : ScanCursor} {nodes n : ℕ}

theorem Fits.mem (hc : c.Fits nodes t) (ht : t.Holds h S) (hn : c.ahead t n) : S n := by
  cases c with
  | sorted hashtab i => exact (ht.mem_all n).mp (hc.2.2 n hn)
  | unsorted nodes' hsize i u =>
    rcases hn with hn | ⟨b, _, _, hn⟩
    · exact ((ht.mem_iff _ n).mp (mem_of_mem_remaining hn)).1
    · exact ((ht.mem_iff b n).mp hn).1

variable {b b₀ : ℕ} {u : Option ℕ}

/-- What an unsorted scan that is not done goes to next is in the bucket before. -/
theorem Fits.next_mem {nodes' hsize i : ℕ}
    (hc : (ScanCursor.unsorted nodes' hsize i u).Fits nodes t) (hu : u = some n) :
    n ∈ t.nodes (i - 1) := by
  rcases hc with ⟨hnone, _⟩ | ⟨_, _, _, hnext⟩
  · exact absurd (hu.symm.trans hnone) (Option.some_ne_none n)
  · exact (hnext n hu).2

/-! ## A new node -/

theorem nodes_add_new (t : HashChains ℕ) (x ct b n : ℕ) :
    n ∈ (t.setChain h x (x :: t.chain h x) ct).nodes b ↔
      n ∈ t.nodes b ∨ (n = x ∧ b = h.hash x % t.hsize) := by
  by_cases hb : b = h.hash x % t.hsize
  · subst hb
    have hnodes : (t.setChain h x (x :: t.chain h x) ct).nodes (h.hash x % t.hsize) =
        x :: t.chain h x := Function.update_self _ _ _
    rw [hnodes, mem_cons, or_comm, and_iff_left rfl]
    rfl
  · have hnodes : (t.setChain h x (x :: t.chain h x) ct).nodes b = t.nodes b :=
      Function.update_of_ne hb _ _
    rw [hnodes]
    exact ⟨.inl, fun hn ↦ hn.resolve_right fun hx ↦ hb hx.2⟩

theorem walk_add_new {x ct : ℕ} (hu : u ≠ some x) :
    remaining u ((t.setChain h x (x :: t.chain h x) ct).nodes b) = remaining u (t.nodes b) := by
  by_cases hb : b = h.hash x % t.hsize
  · subst hb
    have hnodes : (t.setChain h x (x :: t.chain h x) ct).nodes (h.hash x % t.hsize) =
        x :: t.chain h x := Function.update_self _ _ _
    rw [hnodes, remaining_cons hu]
    rfl
  · have hnodes : (t.setChain h x (x :: t.chain h x) ct).nodes b = t.nodes b :=
      Function.update_of_ne hb _ _
    rw [hnodes]

theorem Fits.add_new (hc : c.Fits nodes t) (ht : t.Holds h S) (x ct : ℕ) {S' : ℕ → Prop}
    (ht' : (t.setChain h x (x :: t.chain h x) ct).Holds h S') (hS : ∀ n, S n → S' n) :
    c.Fits nodes (t.setChain h x (x :: t.chain h x) ct) := by
  cases c with
  | sorted hashtab i =>
    exact ⟨hc.1, hc.2.1, fun n hn ↦
      (ht'.mem_all n).mpr (hS n ((ht.mem_all n).mp (hc.2.2 n hn)))⟩
  | unsorted nodes' hsize i u =>
    refine hc.imp id fun hc ↦ ⟨hc.1, hc.2.1, hc.2.2.1, fun n hn ↦ ⟨(hc.2.2.2 n hn).1, ?_⟩⟩
    exact (nodes_add_new t x ct _ n).mpr (.inl (hc.2.2.2 n hn).2)

/-- Only a scan that has not come to its bucket may have the new node ahead. -/
theorem ahead_add_new (hc : c.Fits nodes t) (ht : t.Holds h S) {x : ℕ} (hx : ¬S x) (ct n : ℕ) :
    (c.ahead t n → c.ahead (t.setChain h x (x :: t.chain h x) ct) n) ∧
      (c.ahead (t.setChain h x (x :: t.chain h x) ct) n →
        c.ahead t n ∨ (n = x ∧ ¬c.Passed (h.hash x))) := by
  cases c with
  | sorted hashtab i => exact ⟨id, .inl⟩
  | unsorted nodes' hsize i u =>
    have hu : u ≠ some x := fun hu ↦ hx ((ht.mem_iff _ x).mp (hc.next_mem hu)).1
    simp only [ahead, walk_add_new hu, nodes_add_new]
    constructor
    · rintro (hn | ⟨b, hib, hb, hn⟩)
      · exact .inl hn
      · exact .inr ⟨b, hib, hb, .inl hn⟩
    · rintro (hn | ⟨b, hib, hb, hn | ⟨rfl, rfl⟩⟩)
      · exact .inl (.inl hn)
      · exact .inl (.inr ⟨b, hib, hb, hn⟩)
      · rcases hc with ⟨_, hend⟩ | ⟨_, rfl, _⟩
        · omega
        · exact .inr ⟨rfl, Nat.not_lt.mpr hib⟩

/-! ## A replaced node -/

variable {p : ℕ → Bool} {x y : ℕ}

theorem ahead_replace_of_not_goesTo (hgoes : ¬c.GoesTo y) (x : ℕ) :
    (∀ t n, (c.replace y x).ahead t n ↔ c.ahead t n) ∧
      ∀ nodes t, (c.replace y x).Fits nodes t ↔ c.Fits nodes t := by
  cases c with
  | sorted hashtab i =>
    have hdrop : (hashtab.map fun z ↦ if z = some y then some x else z).drop i =
        hashtab.drop i := by
      rw [← map_drop]
      refine (map_congr_left fun z hz ↦ if_neg fun heq ↦ ?_).trans (map_id _)
      rw [heq] at hz
      exact hgoes hz
    simp only [replace, ahead, Fits, hdrop, implies_true, and_self]
  | unsorted nodes' hsize i u =>
    have hu : (if u = some y then some x else u) = u := if_neg hgoes
    simp only [replace, hu, implies_true, and_self]

theorem nodes_replace (ht : t.Holds h S) (hfind : (t.chain h x).find? p = some y) (ct b n : ℕ) :
    n ∈ (t.setChain h x (HashChains.replaceFirst p x (t.chain h x)) ct).nodes b ↔
      (n ∈ t.nodes b ∧ n ≠ y) ∨ (n = x ∧ y ∈ t.nodes b) := by
  have hy : y ∈ t.chain h x := mem_of_find?_eq_some hfind
  by_cases hb : b = h.hash x % t.hsize
  · subst hb
    have hnodes : (t.setChain h x (HashChains.replaceFirst p x (t.chain h x)) ct).nodes
        (h.hash x % t.hsize) = HashChains.replaceFirst p x (t.chain h x) :=
      Function.update_self _ _ _
    rw [hnodes, HashChains.mem_replaceFirst (ht.nodup_chain x) hfind]
    exact or_congr_right ⟨fun hn ↦ ⟨hn, hy⟩, And.left⟩
  · have hnodes : (t.setChain h x (HashChains.replaceFirst p x (t.chain h x)) ct).nodes b =
        t.nodes b := Function.update_of_ne hb _ _
    have hyb : y ∉ t.nodes b := fun hmem ↦ hb <|
      ((ht.mem_iff b y).mp hmem).2.trans ((ht.mem_iff _ y).mp hy).2.symm
    rw [hnodes]
    constructor
    · exact fun hn ↦ .inl ⟨hn, fun heq ↦ hyb (heq ▸ hn)⟩
    · rintro (⟨hn, _⟩ | ⟨_, hmem⟩)
      · exact hn
      · exact absurd hmem hyb

theorem walk_replace (ht : t.Holds h S) (hfind : (t.chain h x).find? p = some y) (hx : ¬S x)
    (ct : ℕ) (hu : ∀ n, u = some n → n ∈ t.nodes b) (n : ℕ) :
    n ∈ remaining (if u = some y then some x else u)
        ((t.setChain h x (HashChains.replaceFirst p x (t.chain h x)) ct).nodes b) ↔
      (n ∈ remaining u (t.nodes b) ∧ n ≠ y) ∨ (n = x ∧ y ∈ remaining u (t.nodes b)) := by
  have hy : y ∈ t.chain h x := mem_of_find?_eq_some hfind
  have hux : u ≠ some x := fun heq ↦ hx ((ht.mem_iff b x).mp (hu x heq)).1
  by_cases hb : b = h.hash x % t.hsize
  · subst hb
    have hnodes : (t.setChain h x (HashChains.replaceFirst p x (t.chain h x)) ct).nodes
        (h.hash x % t.hsize) = HashChains.replaceFirst p x (t.chain h x) :=
      Function.update_self _ _ _
    rw [hnodes]
    exact mem_remaining_replaceFirst (ht.nodup_chain x) hfind
      (fun hmem ↦ hx ((ht.mem_iff _ x).mp hmem).1) hux n
  · have hnodes : (t.setChain h x (HashChains.replaceFirst p x (t.chain h x)) ct).nodes b =
        t.nodes b := Function.update_of_ne hb _ _
    have hyb : y ∉ t.nodes b := fun hmem ↦ hb <|
      ((ht.mem_iff b y).mp hmem).2.trans ((ht.mem_iff _ y).mp hy).2.symm
    have huy : u ≠ some y := fun heq ↦ hyb (hu y heq)
    rw [hnodes, if_neg huy]
    constructor
    · exact fun hn ↦ .inl ⟨hn, fun heq ↦ hyb (heq ▸ mem_of_mem_remaining hn)⟩
    · rintro (⟨hn, _⟩ | ⟨_, hmem⟩)
      · exact hn
      · exact absurd (mem_of_mem_remaining hmem) hyb

/-- The new node is ahead of a scan that had the old one ahead. -/
theorem ahead_replace (hc : c.Fits nodes t) (ht : t.Holds h S)
    (hfind : (t.chain h x).find? p = some y) (hx : ¬S x) (ct n : ℕ) :
    (c.replace y x).ahead (t.setChain h x (HashChains.replaceFirst p x (t.chain h x)) ct) n ↔
      (c.ahead t n ∧ n ≠ y) ∨ (n = x ∧ c.ahead t y) := by
  cases c with
  | sorted hashtab i =>
    simp only [replace, ahead, ← map_drop, mem_map]
    constructor
    · rintro ⟨z, hz, hzn⟩
      by_cases hzy : z = some y
      · rw [if_pos hzy] at hzn
        exact .inr ⟨(Option.some.inj hzn).symm, hzy ▸ hz⟩
      · rw [if_neg hzy] at hzn
        exact .inl ⟨hzn ▸ hz, fun heq ↦ hzy (hzn.trans (congrArg some heq))⟩
    · rintro (⟨hn, hne⟩ | ⟨rfl, hy⟩)
      · exact ⟨some n, hn, if_neg fun heq ↦ hne (Option.some.inj heq)⟩
      · exact ⟨some y, hy, if_pos rfl⟩
  | unsorted nodes' hsize i u =>
    simp only [replace, ahead, nodes_replace ht hfind,
      walk_replace ht hfind hx ct fun n hn ↦ hc.next_mem hn]
    constructor
    · rintro ((⟨hn, hne⟩ | ⟨hnx, hy⟩) | ⟨b, hib, hb, ⟨hn, hne⟩ | ⟨hnx, hy⟩⟩)
      · exact .inl ⟨.inl hn, hne⟩
      · exact .inr ⟨hnx, .inl hy⟩
      · exact .inl ⟨.inr ⟨b, hib, hb, hn⟩, hne⟩
      · exact .inr ⟨hnx, .inr ⟨b, hib, hb, hy⟩⟩
    · rintro (⟨hn | ⟨b, hib, hb, hn⟩, hne⟩ | ⟨hnx, hy | ⟨b, hib, hb, hy⟩⟩)
      · exact .inl (.inl ⟨hn, hne⟩)
      · exact .inr ⟨b, hib, hb, .inl ⟨hn, hne⟩⟩
      · exact .inl (.inr ⟨hnx, hy⟩)
      · exact .inr ⟨b, hib, hb, .inr ⟨hnx, hy⟩⟩

theorem Fits.replace (hc : c.Fits nodes t) (ht : t.Holds h S)
    (hfind : (t.chain h x).find? p = some y) (hx : ¬S x) (ct : ℕ) {S' : ℕ → Prop}
    (ht' : (t.setChain h x (HashChains.replaceFirst p x (t.chain h x)) ct).Holds h S')
    (hS : ∀ n, S n → n ≠ y → S' n) (hSx : S' x) : (c.replace y x).Fits nodes
      (t.setChain h x (HashChains.replaceFirst p x (t.chain h x)) ct) := by
  cases c with
  | sorted hashtab i =>
    have hmem := ahead_replace hc ht hfind hx ct
    refine ⟨?_, ?_, fun n hn ↦ (ht'.mem_all n).mpr ?_⟩
    · rw [← map_drop]
      refine hc.1.map_on fun z hz w hw heq ↦ ?_
      have hnew : ∀ z ∈ hashtab.drop i, z ≠ some x := fun z hz hzx ↦
        hx ((ht.mem_all x).mp (hc.2.2 x (hzx ▸ hz)))
      by_cases hzy : z = some y
      · by_cases hwy : w = some y
        · rw [hzy, hwy]
        · rw [if_pos hzy, if_neg hwy] at heq
          exact absurd heq.symm (hnew w hw)
      · by_cases hwy : w = some y
        · rw [if_neg hzy, if_pos hwy] at heq
          exact absurd heq (hnew z hz)
        · rwa [if_neg hzy, if_neg hwy] at heq
    · rw [← map_drop, mem_map]
      rintro ⟨z, hz, hnone⟩
      split at hnone
      · exact absurd hnone (Option.some_ne_none x)
      · exact hc.2.1 (hnone ▸ hz)
    · rcases (hmem n).mp hn with ⟨hn, hne⟩ | ⟨rfl, _⟩
      · exact hS n ((ht.mem_all n).mp (hc.2.2 n hn)) hne
      · exact hSx
  | unsorted nodes' hsize i u =>
    refine hc.imp (fun hc ↦ ⟨?_, hc.2⟩) fun hc ↦ ⟨hc.1, hc.2.1, hc.2.2.1, fun n hn ↦ ?_⟩
    · rw [hc.1, if_neg nofun]
    · rw [nodes_replace ht hfind]
      split at hn
      · rename_i huy
        obtain rfl : x = n := Option.some.inj hn
        exact ⟨(hc.2.2.2 y huy).1, .inr ⟨rfl, (hc.2.2.2 y huy).2⟩⟩
      · rename_i huy
        refine ⟨(hc.2.2.2 n hn).1, .inl ⟨(hc.2.2.2 n hn).2, ?_⟩⟩
        exact fun heq ↦ huy (hn.trans (congrArg some heq))

/-! ## A removed node -/

theorem remove_of_not_goesTo (hgoes : ¬c.GoesTo y) (next : Option ℕ) :
    (∀ t n, (c.remove y next).ahead t n ↔ c.ahead t n) ∧
      ∀ nodes t, (c.remove y next).Fits nodes t ↔ c.Fits nodes t := by
  cases c with
  | sorted hashtab i =>
    have hdrop : (hashtab.map fun z ↦ if z = some y then none else z).drop i =
        hashtab.drop i := by
      rw [← map_drop]
      refine (map_congr_left fun z hz ↦ if_neg fun heq ↦ ?_).trans (map_id _)
      rw [heq] at hz
      exact hgoes hz
    simp only [remove, ahead, Fits, hdrop, implies_true, and_self]
  | unsorted nodes' hsize i u =>
    have hu : (if u = some y then next else u) = u := if_neg hgoes
    simp only [remove, hu, implies_true, and_self]

/-- The table without the first node of a bucket that `p` holds of. -/
def eraseIn (t : HashChains ℕ) (p : ℕ → Bool) (b ct : ℕ) : HashChains ℕ :=
  ⟨t.hsize, Function.update t.nodes b ((t.nodes b).eraseP p), ct⟩

theorem nodes_remove (ht : t.Holds h S) (hfind : (t.nodes b₀).find? p = some y)
    (ct b n : ℕ) : n ∈ (eraseIn t p b₀ ct).nodes b ↔ n ∈ t.nodes b ∧ n ≠ y := by
  have hy : y ∈ t.nodes b₀ := mem_of_find?_eq_some hfind
  by_cases hb : b = b₀
  · subst hb
    have hnodes : (eraseIn t p b ct).nodes b = (t.nodes b).eraseP p := Function.update_self _ _ _
    rw [hnodes, HashChains.mem_eraseP (ht.nodup b) hfind]
  · have hnodes : (eraseIn t p b₀ ct).nodes b = t.nodes b := Function.update_of_ne hb _ _
    rw [hnodes]
    refine ⟨fun hn ↦ ⟨hn, fun heq ↦ hb ?_⟩, And.left⟩
    subst heq
    exact ((ht.mem_iff b n).mp hn).2.trans ((ht.mem_iff b₀ n).mp hy).2.symm

theorem walk_remove (ht : t.Holds h S) (hfind : (t.nodes b₀).find? p = some y)
    (ct : ℕ) (hu : ∀ n, u = some n → n ∈ t.nodes b) (n : ℕ) :
    n ∈ remaining (if u = some y then successor y (t.nodes b₀) else u)
        ((eraseIn t p b₀ ct).nodes b) ↔ n ∈ remaining u (t.nodes b) ∧ n ≠ y := by
  have hy : y ∈ t.nodes b₀ := mem_of_find?_eq_some hfind
  by_cases hb : b = b₀
  · subst hb
    have hnodes : (eraseIn t p b ct).nodes b = (t.nodes b).eraseP p := Function.update_self _ _ _
    rw [hnodes]
    exact mem_remaining_eraseP (ht.nodup b) hfind n
  · have hnodes : (eraseIn t p b₀ ct).nodes b = t.nodes b := Function.update_of_ne hb _ _
    have hyb : y ∉ t.nodes b := fun hmem ↦ hb <|
      ((ht.mem_iff b y).mp hmem).2.trans ((ht.mem_iff b₀ y).mp hy).2.symm
    have huy : u ≠ some y := fun heq ↦ hyb (hu y heq)
    rw [hnodes, if_neg huy]
    exact ⟨fun hn ↦ ⟨hn, fun heq ↦ hyb (heq ▸ mem_of_mem_remaining hn)⟩, And.left⟩

/-- A node that is taken out is not ahead any more, unless a sorted scan goes to it. -/
theorem ahead_remove (hc : c.Fits nodes t) (ht : t.Holds h S)
    (hfind : (t.nodes b₀).find? p = some y) (hsorted : c.Done → ¬c.GoesTo y) (ct n : ℕ) :
    (c.remove y (successor y (t.nodes b₀))).ahead (eraseIn t p b₀ ct) n ↔
      c.ahead t n ∧ n ≠ y := by
  cases c with
  | sorted hashtab i =>
    have hgoes := hsorted trivial
    rw [(remove_of_not_goesTo hgoes _).1]
    refine ⟨fun hn ↦ ⟨hn, fun heq ↦ hgoes ?_⟩, And.left⟩
    rw [← heq]
    exact hn
  | unsorted nodes' hsize i u =>
    simp only [remove, ahead, nodes_remove ht hfind,
      walk_remove ht hfind ct fun n hn ↦ hc.next_mem hn]
    constructor
    · rintro (⟨hn, hne⟩ | ⟨b, hib, hb, hn, hne⟩)
      · exact ⟨.inl hn, hne⟩
      · exact ⟨.inr ⟨b, hib, hb, hn⟩, hne⟩
    · rintro ⟨hn | ⟨b, hib, hb, hn⟩, hne⟩
      · exact .inl ⟨hn, hne⟩
      · exact .inr ⟨b, hib, hb, hn, hne⟩

theorem Fits.remove (hc : c.Fits nodes t) (ht : t.Holds h S)
    (hfind : (t.nodes b₀).find? p = some y) (hsorted : c.Done → ¬c.GoesTo y) (ct : ℕ)
    {S' : ℕ → Prop} (ht' : (eraseIn t p b₀ ct).Holds h S') (hS : ∀ n, S n → n ≠ y → S' n) :
    (c.remove y (successor y (t.nodes b₀))).Fits nodes (eraseIn t p b₀ ct) := by
  cases c with
  | sorted hashtab i =>
    have hgoes := hsorted trivial
    rw [(remove_of_not_goesTo hgoes _).2]
    refine ⟨hc.1, hc.2.1, fun n hn ↦ (ht'.mem_all n).mpr (hS n ((ht.mem_all n).mp (hc.2.2 n hn)) ?_)⟩
    rintro rfl
    exact hgoes hn
  | unsorted nodes' hsize i u =>
    refine hc.imp (fun hc ↦ ⟨?_, hc.2⟩) fun hc ↦ ⟨hc.1, hc.2.1, hc.2.2.1, fun n hn ↦ ?_⟩
    · rw [hc.1, if_neg nofun]
    · rw [nodes_remove ht hfind]
      split at hn
      · rename_i huy
        have hy := (hc.2.2.2 y huy)
        have hb : i - 1 = b₀ := ((ht.mem_iff _ y).mp hy.2).2.trans
          ((ht.mem_iff b₀ y).mp (mem_of_find?_eq_some hfind)).2.symm
        rw [hb]
        refine ⟨hy.1, successor_mem hn, ?_⟩
        rintro rfl
        exact successor_ne (ht.nodup b₀) hn
      · rename_i huy
        refine ⟨(hc.2.2.2 n hn).1, (hc.2.2.2 n hn).2, ?_⟩
        exact fun heq ↦ huy (hn.trans (congrArg some heq))

/-! ## Other buckets -/

/-- A scan that is done with the buckets does not notice others. -/
theorem ahead_of_done (hdone : c.Done) (t t' : HashChains ℕ) (n : ℕ) :
    c.ahead t' n ↔ c.ahead t n := by
  cases c with
  | sorted hashtab i => exact Iff.rfl
  | unsorted nodes' hsize i u =>
    obtain ⟨rfl, hend⟩ := hdone
    have hnone : ∀ t : HashChains ℕ, ¬(unsorted nodes' hsize i none).ahead t n := by
      rintro t (hn | ⟨b, hib, hb, _⟩)
      · exact not_mem_nil hn
      · omega
    exact iff_of_false (hnone t') (hnone t)

theorem Fits.of_done (hc : c.Fits nodes t) (hdone : c.Done) (ht : t.Holds h S)
    {t' : HashChains ℕ} (ht' : t'.Holds h S) (nodes' : ℕ) : c.Fits nodes' t' := by
  cases c with
  | sorted hashtab i =>
    exact ⟨hc.1, hc.2.1, fun n hn ↦ (ht'.mem_all n).mpr ((ht.mem_all n).mp (hc.2.2 n hn))⟩
  | unsorted nodes'' hsize i u => exact .inl hdone

end ScanCursor

end Bsh.Shell
