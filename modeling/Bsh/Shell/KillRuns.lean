import Bsh.Shell.KillRing

/-!
# Runs of kills

A sequence of calls of `cuttext` falls into runs of consecutive kills.  The cut buffer holds the text
of the last run, the ring those of the runs before it, and the buffers `"1` to `"9` the last nine
texts that were cut without naming a buffer, unless one of them has been named itself.
-/

namespace Bsh.Shell

open Bsh.Library List

variable {α : Type*}

namespace KillCmd

/-- Whether `cuttext` does anything. -/
def cuts (c : KillCmd α) : Bool := !(c.line.isEmpty && !c.vilinerange || c.zmod.modNull)

/-- Whether the kill does not belong to the run before it. -/
def begins (c : KillCmd α) : Bool := !c.afterKill || c.cutReplace

/-- Whether the text goes before what the run has so far. -/
def goesFront (c : KillCmd α) : Bool := c.cutFront || c.cutReplace

/-- Whether the text goes to the buffers `"1` to `"9` without their being named. -/
def plain (c : KillCmd α) : Bool :=
  c.cuts && !c.zmod.modOssel && !c.zmod.modVibuf && !c.cutYank

end KillCmd

/-- The runs, the newest first. -/
def addToRuns (runs : List (List (KillCmd α))) (c : KillCmd α) : List (List (KillCmd α)) :=
  match runs with
  | [] => [[c]]
  | run :: rest => if c.begins then [c] :: run :: rest else (run ++ [c]) :: rest

def killRuns (cmds : List (KillCmd α)) : List (List (KillCmd α)) :=
  (cmds.filter KillCmd.cuts).foldl addToRuns []

/-- The texts of a run in the order of the line. -/
def runText (run : List (KillCmd α)) : List α :=
  ((run.filter KillCmd.goesFront).reverse.map KillCmd.line).flatten ++
    ((run.filter fun c ↦ !c.goesFront).map KillCmd.line).flatten

/-- The texts that were cut without naming a buffer, the newest first. -/
def plainKills (cmds : List (KillCmd α)) : List (List α) :=
  ((cmds.filter KillCmd.plain).map KillCmd.line).reverse

theorem runText_singleton (c : KillCmd α) : runText [c] = c.line := by
  cases hc : c.goesFront <;> simp [runText, hc]

theorem runText_concat (run : List (KillCmd α)) (c : KillCmd α) : runText (run ++ [c]) =
    if c.goesFront then c.line ++ runText run else runText run ++ c.line := by
  cases hc : c.goesFront <;> simp [runText, hc]

theorem killRuns_concat (cmds : List (KillCmd α)) (c : KillCmd α) : killRuns (cmds ++ [c]) =
    if c.cuts then addToRuns (killRuns cmds) c else killRuns cmds := by
  cases hc : c.cuts <;> simp [killRuns, hc]

theorem plainKills_concat (cmds : List (KillCmd α)) (c : KillCmd α) : plainKills (cmds ++ [c]) =
    if c.plain then c.line :: plainKills cmds else plainKills cmds := by
  cases hc : c.plain <;> simp [plainKills, hc]

namespace Kills

variable {ch : ZleChars α} {k : Kills α} {cmds : List (KillCmd α)} {c : KillCmd α}

/-- The text alone. -/
def text (k : Kills α) (slot : KillSlot) : Option (List α) := (k.held slot).map Prod.fst

@[simp]
theorem text_set_self (k : Kills α) (slot : KillSlot) (text : List α) (line : Bool) :
    (k.set slot text line).text slot = some text := by rw [Kills.text, set_held_self]; rfl

theorem text_set_of_ne (k : Kills α) {slot x : KillSlot} (h : x ≠ slot) (text : List α)
    (line : Bool) : (k.set slot text line).text x = k.text x := by
  rw [Kills.text, set_held_of_ne k h, Kills.text]

theorem text_set_cutbuf_kring (k : Kills α) (text : List α) (line : Bool) (n : ℕ) :
    (k.set .cutbuf text line).text (.kring n) = k.text (.kring n) := by
  have hne : KillSlot.kring n ≠ .cutbuf := nofun
  exact text_set_of_ne k hne text line

/-! ## The cut buffer and the ring -/

/-- The element of the ring that holds the run `i` places before the one that was pushed last. -/
def ringSlot (kringnum i : ℕ) : ℕ := (kringnum + kringsize - i) % kringsize

/-- The cut buffer and the ring hold the runs. -/
structure HoldsRuns (k : Kills α) (runs : List (List (KillCmd α))) : Prop where
  cut : k.text .cutbuf = runs.head?.map runText
  ring : ∀ i < kringsize, k.text (.kring (ringSlot k.kringnum i)) = runs[i + 1]?.map runText
  allocated : k.kring = decide (2 ≤ runs.length)
  first : runs.length ≤ 1 → k.kringnum = 0
  bound : k.kringnum < kringsize

theorem holdsRuns_start : (start α).HoldsRuns [] :=
  ⟨rfl, fun _ _ ↦ rfl, rfl, fun _ ↦ rfl, Nat.zero_lt_succ _⟩

theorem cutVi_keeps (ch : ZleChars α) (k : Kills α) (c : KillCmd α) :
    (k.cutVi ch c).kring = k.kring ∧ (k.cutVi ch c).kringnum = k.kringnum ∧
      ∀ slot, (∀ n, slot ≠ .vibuf n) → (k.cutVi ch c).held slot = k.held slot := by
  unfold cutVi
  split
  · exact ⟨rfl, rfl, fun _ _ ↦ rfl⟩
  split
  · dsimp only
    split
    · exact ⟨rfl, rfl, fun slot hslot ↦ set_held_of_ne _ (hslot _) _ _⟩
    · exact ⟨rfl, rfl, fun slot hslot ↦ set_held_of_ne _ (hslot _) _ _⟩
  split
  · exact ⟨rfl, rfl, fun slot hslot ↦ set_held_of_ne _ (hslot _) _ _⟩
  · refine ⟨rfl, rfl, fun slot hslot ↦ (set_held_of_ne _ (hslot _) _ _).trans ?_⟩
    rcases slot with _ | n | n
    · rfl
    · rfl
    · exact absurd rfl (hslot n)

theorem HoldsRuns.cutVi {runs : List (List (KillCmd α))} (h : k.HoldsRuns runs)
    (ch : ZleChars α) (c : KillCmd α) : (k.cutVi ch c).HoldsRuns runs := by
  obtain ⟨hkring, hnum, hheld⟩ := cutVi_keeps ch k c
  refine ⟨?_, fun i hi ↦ ?_, hkring.trans h.allocated, fun hle ↦ hnum.trans (h.first hle), ?_⟩
  · rw [text, hheld .cutbuf nofun]
    exact h.cut
  · rw [text, hnum, hheld (.kring _) nofun]
    exact h.ring i hi
  · rw [hnum]
    exact h.bound

theorem extendCutbuf_eq {text : List α} {line : Bool} (hheld : k.held .cutbuf = some (text, line))
    (c : KillCmd α) : k.extendCutbuf c = k.set .cutbuf
      (if c.goesFront then c.line ++ text else text ++ c.line) c.vilinerange := by
  rw [extendCutbuf, hheld]
  rfl

/-- The place in the ring of the run before the last one, after another run has been pushed. -/
theorem ringSlot_next {kringnum i : ℕ} (hi : i + 1 < kringsize) (hbound : kringnum < kringsize) :
    ringSlot ((kringnum + 1) % kringsize) (i + 1) = ringSlot kringnum i ∧
      ringSlot kringnum i ≠ (kringnum + 1) % kringsize := by
  simp only [ringSlot, kringsize] at *
  omega

/-- The kill that begins a run pushes the run before it. -/
theorem HoldsRuns.push {run : List (KillCmd α)} {rest : List (List (KillCmd α))}
    (h : k.HoldsRuns (run :: rest)) {text : List α} {line : Bool}
    (hheld : k.held .cutbuf = some (text, line)) (c : KillCmd α) :
    ((k.pushRing text line).extendCutbuf c).HoldsRuns ([c] :: run :: rest) := by
  have htext : runText run = text := by
    have hcut := h.cut
    rw [Kills.text, hheld] at hcut
    exact (Option.some.inj hcut).symm
  have hcut : (k.pushRing text line).held .cutbuf = some ([], false) := set_held_self _ _ _ _
  rw [extendCutbuf_eq hcut, append_nil, nil_append, ite_self]
  have hbound : KillState.nextKringnum k.kring k.kringnum < kringsize := by
    rw [KillState.nextKringnum]
    split
    · exact Nat.mod_lt _ (Nat.zero_lt_succ _)
    · exact h.bound
  have hother : ∀ m, m ≠ KillState.nextKringnum k.kring k.kringnum →
      (k.pushRing text line).text (.kring m) = k.text (.kring m) := fun m hm ↦ by
    have hne : KillSlot.kring m ≠ .kring (KillState.nextKringnum k.kring k.kringnum) :=
      fun heq ↦ hm (KillSlot.kring.inj heq)
    rw [pushRing, text_set_cutbuf_kring, text_set_of_ne _ hne]
    rfl
  refine ⟨?_, fun i hi ↦ ?_, ?_, fun hle ↦ absurd hle (by simp), hbound⟩
  · rw [text_set_self, List.head?_cons, Option.map_some, runText_singleton]
  · rw [text_set_cutbuf_kring]
    cases i with
    | zero =>
      have hslot : ringSlot (KillState.nextKringnum k.kring k.kringnum) 0 =
          KillState.nextKringnum k.kring k.kringnum := by
        rw [ringSlot, Nat.sub_zero, Nat.add_mod_right, Nat.mod_eq_of_lt hbound]
      have hnum : ((k.pushRing text line).set .cutbuf c.line c.vilinerange).kringnum =
          KillState.nextKringnum k.kring k.kringnum := rfl
      rw [hnum, hslot, pushRing, text_set_cutbuf_kring, text_set_self]
      exact congrArg some htext.symm
    | succ i =>
      have hnum : ((k.pushRing text line).set .cutbuf c.line c.vilinerange).kringnum =
          KillState.nextKringnum k.kring k.kringnum := rfl
      rw [hnum]
      cases hkring : k.kring with
      | true =>
        obtain ⟨hslot, hne⟩ := ringSlot_next hi h.bound
        have hnext : KillState.nextKringnum true k.kringnum = (k.kringnum + 1) % kringsize := rfl
        rw [hnext, hslot, hother _ (by rwa [hkring, hnext])]
        exact h.ring i (Nat.lt_of_succ_lt hi)
      | false =>
        have hfew : (run :: rest).length ≤ 1 := by
          have halloc := h.allocated
          rw [hkring] at halloc
          have := of_decide_eq_false halloc.symm
          omega
        have hzero : k.kringnum = 0 := h.first hfew
        obtain rfl : rest = [] := by
          cases rest with
          | nil => rfl
          | cons first rest => simp at hfew
        have hnext : KillState.nextKringnum false k.kringnum = k.kringnum := rfl
        have hne : ringSlot k.kringnum (i + 1) ≠ k.kringnum := by
          simp only [ringSlot, hzero, kringsize] at hi ⊢
          omega
        rw [hnext, hother _ (by rwa [hkring, hnext])]
        exact h.ring (i + 1) hi
  · exact (decide_eq_true (by simp)).symm

theorem HoldsRuns.extend {runs : List (List (KillCmd α))} (h : k.HoldsRuns runs)
    (c : KillCmd α) : ((k.newRun c).extendCutbuf c).HoldsRuns (addToRuns runs c) := by
  have hcut := h.cut
  cases hheld : k.held .cutbuf with
  | none =>
    obtain rfl : runs = [] := by
      rw [text, hheld] at hcut
      cases runs with
      | nil => rfl
      | cons run rest => exact nomatch hcut
    have hnew : k.newRun c = k.set .cutbuf [] false := by rw [newRun, hheld]
    rw [hnew, extendCutbuf_eq (set_held_self _ _ _ _), append_nil, nil_append, ite_self]
    refine ⟨?_, fun i hi ↦ ?_, h.allocated, fun _ ↦ h.first (Nat.zero_le _), h.bound⟩
    · rw [text_set_self, addToRuns, List.head?_cons, Option.map_some, runText_singleton]
    · exact h.ring i hi
  | some pair =>
    obtain ⟨text, line⟩ := pair
    rw [Kills.text, hheld] at hcut
    cases runs with
    | nil => exact nomatch hcut
    | cons run rest =>
      by_cases hbegins : c.begins
      · have hnew : k.newRun c = k.pushRing text line := by
          rw [newRun, hheld]
          exact if_pos hbegins
        rw [hnew, addToRuns, if_pos hbegins]
        exact h.push hheld c
      · have hnew : k.newRun c = k := by
          rw [newRun, hheld]
          exact if_neg hbegins
        rw [hnew, addToRuns, if_neg hbegins, extendCutbuf_eq hheld]
        refine ⟨?_, fun i hi ↦ ?_, h.allocated, fun hle ↦ h.first hle, h.bound⟩
        · have htext : text = runText run := Option.some.inj hcut
          rw [text_set_self, List.head?_cons, Option.map_some, runText_concat, htext]
        · exact h.ring i hi

theorem HoldsRuns.cuttext (h : k.HoldsRuns (killRuns cmds)) (ch : ZleChars α) (c : KillCmd α) :
    (k.cuttext ch c).HoldsRuns (killRuns (cmds ++ [c])) := by
  rw [killRuns_concat, Kills.cuttext]
  cases hskip : c.line.isEmpty && !c.vilinerange || c.zmod.modNull with
  | true =>
    rw [if_pos rfl, KillCmd.cuts, hskip, Bool.not_true, if_neg Bool.false_ne_true]
    exact h
  | false =>
    rw [if_neg Bool.false_ne_true, KillCmd.cuts, hskip, Bool.not_false, if_pos rfl]
    exact (h.cutVi ch c).extend c

/-! ## The buffers `"1` to `"9` -/

/-- The buffers hold the texts, the newest first. -/
def HoldsPlain (k : Kills α) (texts : List (List α)) : Prop :=
  ∀ i < 9, k.text (.vibuf (27 + i)) = texts[i]?

theorem cutRest_vibuf (k : Kills α) (c : KillCmd α) (n : ℕ) :
    ((k.newRun c).extendCutbuf c).held (.vibuf n) = k.held (.vibuf n) := by
  have hcut : KillSlot.vibuf n ≠ .cutbuf := nofun
  have hring : ∀ m, KillSlot.vibuf n ≠ .kring m := nofun
  have hnew : (k.newRun c).held (.vibuf n) = k.held (.vibuf n) := by
    unfold newRun
    split
    · exact set_held_of_ne k hcut _ _
    split
    · rw [pushRing, set_held_of_ne _ hcut, set_held_of_ne _ (hring _)]
    · rfl
  rw [← hnew]
  unfold extendCutbuf
  split
  · rfl
  · exact set_held_of_ne _ hcut _ _

/-- A command that names none of the buffers `"1` to `"9` moves them on if it is plain. -/
theorem HoldsPlain.cutVi {texts : List (List α)} (h : k.HoldsPlain texts) (ch : ZleChars α)
    (hcuts : c.cuts = true) (hnames : c.zmod.modVibuf = true → c.zmod.vibuf.val < 27) :
    (k.cutVi ch c).HoldsPlain (if c.plain then c.line :: texts else texts) := by
  unfold KillCmd.plain Kills.cutVi
  rw [hcuts]
  intro i hi
  by_cases hsel : c.zmod.modOssel = true
  · simpa [hsel] using h i hi
  by_cases hvi : c.zmod.modVibuf = true
  · have hne : KillSlot.vibuf (27 + i) ≠ .vibuf c.zmod.vibuf := fun heq ↦ by
      have := KillSlot.vibuf.inj heq
      have := hnames hvi
      omega
    simp only [hsel, hvi, Bool.false_eq_true, if_false, if_true, Bool.not_false, Bool.not_true,
      Bool.and_true, Bool.and_false, Bool.false_and]
    split
    · exact (text_set_of_ne k hne _ _).trans (h i hi)
    · exact (text_set_of_ne k hne _ _).trans (h i hi)
  cases hyank : c.cutYank with
  | true =>
    have hne : KillSlot.vibuf (27 + i) ≠ .vibuf 26 := fun heq ↦ by
      have := KillSlot.vibuf.inj heq
      omega
    simp only [hsel, hvi, Bool.false_eq_true, if_false, if_true, Bool.not_true, Bool.and_false]
    exact (text_set_of_ne k hne _ _).trans (h i hi)
  | false =>
    simp only [hsel, hvi, Bool.false_eq_true, if_false, if_true, Bool.not_false, Bool.and_true]
    cases i with
    | zero => exact text_set_self _ _ _ _
    | succ i =>
      have hne : KillSlot.vibuf (27 + (i + 1)) ≠ .vibuf 27 := fun heq ↦ by
        have := KillSlot.vibuf.inj heq
        omega
      rw [text_set_of_ne _ hne, List.getElem?_cons_succ, ← h i (Nat.lt_of_succ_lt hi)]
      have hshift : shifted k.held (.vibuf (27 + (i + 1))) = k.held (.vibuf (27 + i)) :=
        if_pos ⟨by omega, by omega⟩
      exact congrArg _ hshift

theorem HoldsPlain.cuttext (h : k.HoldsPlain (plainKills cmds)) (ch : ZleChars α)
    (hnames : c.zmod.modVibuf = true → c.zmod.vibuf.val < 27) :
    (k.cuttext ch c).HoldsPlain (plainKills (cmds ++ [c])) := by
  rw [plainKills_concat, Kills.cuttext]
  cases hskip : c.line.isEmpty && !c.vilinerange || c.zmod.modNull with
  | true =>
    have hplain : c.plain = false := by
      rw [KillCmd.plain, KillCmd.cuts, hskip]
      rfl
    rw [if_pos rfl, hplain, if_neg Bool.false_ne_true]
    exact h
  | false =>
    rw [if_neg Bool.false_ne_true]
    intro i hi
    rw [Kills.text, cutRest_vibuf]
    refine h.cutVi ch ?_ hnames i hi
    rw [KillCmd.cuts, hskip]
    rfl

end Kills

end Bsh.Shell
