import Mathlib.Logic.Function.Iterate
import Bsh.Shell.KillRuns
import Bsh.Shell.Yank

/-!
# Yanking and popping

After any kills, a command that puts a buffer into the line may be followed by any number of
`yank-pop`.  Each of them ends; it takes out what the last one put in, and nothing else, and puts in
the text of the next buffer, in turn the original one and the ring from its newest element on.
-/

namespace Bsh.Shell

open Bsh.Library List

variable {α : Type*}

namespace KillState

/-- The text of a buffer, as its memory has it, and its flag. -/
def held (ch : ZleChars α) (s : KillState α) (slot : KillSlot) : Option (List α × Bool) :=
  (s.buffer slot).buf.bind fun p ↦ (s.blocks.read ch.nul p (s.buffer slot).len).map fun text ↦
    (text, (s.buffer slot).line)

/-- The text alone. -/
def text (ch : ZleChars α) (s : KillState α) (slot : KillSlot) : Option (List α) :=
  (s.held ch slot).map Prod.fst

/-- Every block has one owner, and is as long as its owner has it recorded. -/
structure Sound (s : KillState α) : Prop where
  owned : ∀ p, (s.blocks.block p).isSome → ∃! slot, (s.buffer slot).buf = some p
  long : ∀ slot p, (s.buffer slot).buf = some p →
    ∃ cells, s.blocks.block p = some cells ∧ (s.buffer slot).len ≤ cells.length

/-- The calls of `cuttext` from the start on. -/
def cutAll (ch : ZleChars α) (cmds : List (KillCmd α)) : Option (KillState α) :=
  cmds.foldlM (fun s c ↦ s.cuttext ch c) (start α)

variable {ch : ZleChars α} {s : KillState α} {k : Kills α}

theorem Represents.held_eq (h : s.Represents k) (slot : KillSlot) :
    s.held ch slot = k.held slot := by
  cases hheld : k.held slot with
  | none =>
    rw [held, h.buf_eq_none.mpr hheld]
    rfl
  | some pair =>
    obtain ⟨p, size, hbuf, hholds, hlen, hline⟩ := h.holds hheld
    rw [held, hbuf, Option.bind_some, hlen, hholds.read, hline]
    rfl

theorem Represents.text_eq (h : s.Represents k) (slot : KillSlot) :
    s.text ch slot = k.text slot := by rw [KillState.text, h.held_eq, Kills.text]

theorem Represents.sound (h : s.Represents k) : s.Sound := by
  refine ⟨fun p hp ↦ ?_, fun slot p hbuf ↦ ?_⟩
  · obtain ⟨slot, hslot⟩ := h.owned.covered hp
    exact ⟨slot, hslot, fun other hother ↦ h.owned.unique hother hslot⟩
  · have hsome : (s.buffer slot).buf ≠ none := fun hnone ↦ nomatch hnone.symm.trans hbuf
    cases hheld : k.held slot with
    | none => exact absurd (h.buf_eq_none.mpr hheld) hsome
    | some pair =>
      obtain ⟨q, size, hq, ⟨rest, hblock, _⟩, hlen, _⟩ := h.holds hheld
      obtain rfl : p = q := Option.some.inj (hbuf.symm.trans hq)
      refine ⟨_, hblock, ?_⟩
      rw [hlen, length_append, length_map]
      exact Nat.le_add_right _ _

/-- A sequence of kills never leaves its memory, and keeps what `cuttext` keeps. -/
theorem cutAll_spec (ch : ZleChars α) (cmds : List (KillCmd α)) :
    ∃ s k, cutAll ch cmds = some s ∧ s.Represents k ∧ k.HoldsRuns (killRuns cmds) ∧
      ((∀ c ∈ cmds, c.zmod.modVibuf = true → c.zmod.vibuf.val < 27) →
        k.HoldsPlain (plainKills cmds)) := by
  induction cmds using List.reverseRecOn with
  | nil => exact ⟨_, _, rfl, represents_start, Kills.holdsRuns_start, fun _ _ _ ↦ rfl⟩
  | append_singleton cmds c ih =>
    obtain ⟨s, k, hcut, hrep, hruns, hplain⟩ := ih
    obtain ⟨t, hstep, ht⟩ := cuttext_spec ch hrep c
    refine ⟨t, k.cuttext ch c, ?_, ht, hruns.cuttext ch c, fun hnames ↦ ?_⟩
    · rw [cutAll] at hcut ⊢
      rw [foldlM_append, hcut]
      exact (Option.bind_some _ _).trans (by simpa using hstep)
    · exact (hplain fun c hc ↦ hnames c (mem_append_left _ hc)).cuttext ch
        (hnames c (by simp))

end KillState

/-! ## The order of the buffers -/

/-- The original buffer and the elements of the ring, the newest first. -/
def popOrder (kringnum : ℕ) : List (Option ℕ) :=
  none :: (List.range kringsize).map fun i ↦ some (Kills.ringSlot kringnum i)

theorem lt_of_mem_popOrder {kringnum n : ℕ} (h : some n ∈ popOrder kringnum) : n < kringsize := by
  obtain ⟨i, _, rfl⟩ : ∃ i < kringsize, Kills.ringSlot kringnum i = n := by
    simpa [popOrder] using h
  exact Nat.mod_lt _ (Nat.zero_lt_succ _)

/-- The others, in the order in which they come after `kct`, round and round. -/
def popAfter (kringnum : ℕ) (kct : Option ℕ) : List (Option ℕ) :=
  (popOrder kringnum).drop ((popOrder kringnum).idxOf kct + 1) ++
    (popOrder kringnum).take ((popOrder kringnum).idxOf kct)

theorem popAfter_spec : ∀ kringnum < kringsize, ∀ kct ∈ popOrder kringnum,
    List.IsChain (fun a b ↦ YankState.kctNext kringnum a = b)
        (kct :: (popAfter kringnum kct ++ [kct])) ∧
      kct ∉ popAfter kringnum kct ∧ (popAfter kringnum kct).length = kringsize ∧
      popAfter kringnum kct ⊆ popOrder kringnum := by
  decide

namespace YankState

variable [DecidableEq α]

/-- Whether the buffer holds a text that does not begin with NUL. -/
def shows (ch : ZleChars α) (s : KillState α) (slot : KillSlot) : Bool :=
  match s.held ch slot with
  | some (a :: _, _) => a ≠ ch.nul
  | _ => false

variable {ch : ZleChars α} {junk : α} {s : YankState α} {k : Kills α}

theorem skips_spec (h : s.kills.Represents k) {slot : KillSlot}
    (hne : s.kills.text ch slot ≠ some []) :
    s.skips ch junk slot = some (!shows ch s.kills slot) := by
  rw [h.text_eq] at hne
  rw [shows, h.held_eq]
  cases hheld : k.held slot with
  | none =>
    rw [skips, h.buf_eq_none.mpr hheld]
    rfl
  | some pair =>
    obtain ⟨text, line⟩ := pair
    obtain ⟨p, size, hbuf, hholds, _⟩ := h.holds hheld
    cases text with
    | nil => exact absurd (by rw [Kills.text, hheld]; rfl) hne
    | cons a text =>
      have hfront : s.kills.blocks.Holds p size ([a] ++ text) := hholds
      have hread : s.kills.blocks.read junk p 1 = some [a] := hfront.front.read junk
      rw [skips, hbuf]
      dsimp only
      rw [hread]
      simp

/-- The loop ends at the next buffer that is shown, or where it began. -/
theorem popLoop_spec {original : KillSlot} {kctstart : Option ℕ} {l : List (Option ℕ)}
    (hskip : ∀ kct ∈ l, s.skips ch junk (kctSlot original kct) =
      some (!shows ch s.kills (kctSlot original kct))) {kct : Option ℕ}
    (hchain : List.IsChain (fun a b ↦ kctNext s.kills.kringnum a = b)
      (kct :: (l ++ [kctstart]))) (hstart : kctstart ∉ l) {fuel : ℕ} (hfuel : l.length < fuel) :
    s.popLoop ch junk original kctstart fuel kct =
      some ((l.find? fun kct ↦ shows ch s.kills (kctSlot original kct)).getD kctstart) := by
  induction l generalizing kct fuel with
  | nil =>
    obtain ⟨fuel, rfl⟩ : ∃ n, fuel = n + 1 := ⟨fuel - 1, by omega⟩
    have hnext : kctNext s.kills.kringnum kct = kctstart := by simpa using hchain
    rw [popLoop, hnext]
    exact if_pos rfl
  | cons first l ih =>
    obtain ⟨fuel, rfl⟩ : ∃ n, fuel = n + 1 := ⟨fuel - 1, by omega⟩
    obtain ⟨hnext, hrest⟩ := List.isChain_cons_cons.mp hchain
    have hne : first ≠ kctstart := fun h ↦ hstart (h ▸ mem_cons_self)
    rw [popLoop, hnext, if_neg hne, hskip first mem_cons_self]
    cases hshows : shows ch s.kills _ with
    | true => simp [hshows]
    | false =>
      simp only [Bool.not_false, List.find?_cons, hshows]
      exact ih (fun kct hkct ↦ hskip kct (mem_cons_of_mem _ hkct)) hrest
        (fun h ↦ hstart (mem_cons_of_mem _ h)) (Nat.lt_of_succ_lt_succ hfuel)

/-! ## One pop -/

/-- What the last command has put in, and where. -/
structure Insertion (α : Type*) where
  kct : Option ℕ
  start : ℕ
  text : List α

/-- What the next pop puts in instead. -/
def Insertion.next (ch : ZleChars α) (y : YankState α) (original : KillSlot) (after : Bool)
    (i : Insertion α) : Insertion α :=
  match (popAfter y.kills.kringnum i.kct).find? fun kct ↦
      shows ch y.kills (kctSlot original kct) with
  | none => i
  | some kct =>
    match y.kills.held ch (kctSlot original kct) with
    | none => i
    | some (text, line) => ⟨kct, y.pasteAt ch line after, pastedText ch text line 1 after⟩

/-- `t` is `y` with the insertion. -/
structure Shows (y : YankState α) (original : KillSlot) (flag : YankFlag) (i : Insertion α)
    (t : YankState α) : Prop where
  kills : t.kills = y.kills
  zleline : t.zleline = y.zleline.take i.start ++ i.text ++ y.zleline.drop i.start
  yankb : t.yankb = i.start
  yanke : t.yanke = i.start + i.text.length
  yankcs : t.yankcs = y.zlecs
  kct : t.kct = i.kct
  kctbuf : t.kctbuf = some original ∨ t.kctbuf = none ∧ y.kills.kring = false
  lastcmd : t.lastcmd = flag
  combiningChars : t.combiningChars = y.combiningChars

/-- Where an insertion can be. -/
structure Insertion.Fits (y : YankState α) (i : Insertion α) : Prop where
  start : i.start ≤ y.zleline.length
  kct : i.kct ∈ popOrder y.kills.kringnum
  kring : y.kills.kring = false → i.kct = none

theorem replaceYank_spec (ch : ZleChars α) {y : YankState α} {original : KillSlot} {flag : YankFlag}
    {i : Insertion α} (hcs : y.zlecs ≤ y.zleline.length) (hfits : i.Fits y)
    (hshows : y.Shows original flag i s) (h : y.kills.Represents k) {slot : KillSlot}
    {text : List α} {line : Bool} (hheld : k.held slot = some (text, line)) (kct : Option ℕ)
    (hkctbuf : s.kctbuf = some original) : ∃ t, s.replaceYank ch slot kct = some (0, t) ∧
      y.Shows original flag ⟨kct, y.pasteAt ch line (flag = .after),
        pastedText ch text line 1 (flag = .after)⟩ t := by
  obtain rfl : s.lastcmd = flag := hshows.lastcmd
  rw [← hshows.kills] at h
  obtain ⟨p, size, hbuf, hholds, hlen, hline⟩ := h.holds hheld
  have hread : s.bufferText ch slot p = some text := by rw [bufferText, hlen, hholds.read]
  have hcount : (s.yanke : ℤ) - s.yankb = (i.start + i.text.length : ℕ) - i.start := by
    rw [hshows.yanke, hshows.yankb]
  obtain ⟨c, hdel⟩ := foredel_insert ch (s := { s with kct, zlecs := s.yankb }) hfits.start
    hshows.zleline hshows.yankb
  obtain ⟨c', hpaste⟩ := pastebuf_spec ch
    (s := { s with kct, zleline := y.zleline, zlecs := s.yankcs })
    (by rw [hshows.yankcs]; exact hcs) text line 1 _
  have hat : pasteAt ch { s with kct, zleline := y.zleline, zlecs := s.yankcs } line
      (s.lastcmd = .after) = y.pasteAt ch line (s.lastcmd = .after) := by
    unfold pasteAt pasteStart
    rw [hshows.yankcs, hshows.combiningChars]
  rw [hat] at hpaste
  refine ⟨pasted { s with kct, zleline := y.zleline, zlecs := s.yankcs }
    _ _ c',
    ?_, ⟨hshows.kills, rfl, rfl, rfl, hshows.yankcs, rfl, .inl hkctbuf, rfl,
      hshows.combiningChars⟩⟩
  rw [replaceYank, hbuf]
  dsimp only
  rw [hread, Option.bind_some, hcount, hdel, Option.bind_some, hline]
  rw [hpaste]
  rfl

theorem yankpop_spec (junk : α) {y : YankState α} {original : KillSlot} {flag : YankFlag}
    {i : Insertion α} (hcs : y.zlecs ≤ y.zleline.length) (h : y.kills.Represents k)
    (hbound : y.kills.kringnum < kringsize)
    (hring : y.kills.kring = false → ∀ n, some n ∈ popOrder y.kills.kringnum →
      k.held (.kring n) = none)
    (hne : ∀ slot, slot = original ∨ (∃ n < kringsize, slot = .kring n) →
      y.kills.text ch slot ≠ some [])
    (hflag : flag ≠ .neither) (hfits : i.Fits y) (hshows : y.Shows original flag i s) :
    ∃ ret t, s.yankpop ch junk = some (ret, t) ∧ (i.next ch y original (flag = .after)).Fits y ∧
      y.Shows original flag (i.next ch y original (flag = .after)) t := by
  obtain ⟨hchain, hnot, hlength, hsub⟩ := popAfter_spec y.kills.kringnum hbound i.kct hfits.kct
  have hstay : (popAfter y.kills.kringnum i.kct).find? (fun kct ↦
      shows ch y.kills (kctSlot original kct)) = none → i.next ch y original (flag = .after) = i :=
    fun hfind ↦ by rw [Insertion.next, hfind]
  have hkringnum : s.kills.kringnum = y.kills.kringnum := by rw [hshows.kills]
  cases hkring : y.kills.kring with
  | false =>
    -- Without a ring there is no other buffer.
    have hfind : (popAfter y.kills.kringnum i.kct).find? (fun kct ↦
        shows ch y.kills (kctSlot original kct)) = none := by
      refine List.find?_eq_none.mpr fun kct hkct ↦ ?_
      cases kct with
      | none =>
        rw [hfits.kring hkring] at hkct hnot
        exact absurd hkct hnot
      | some n =>
        rw [shows, h.held_eq, kctSlot, hring hkring n (hsub hkct)]
        exact Bool.false_ne_true
    refine ⟨1, { s with kctbuf := none }, ?_, ?_, ?_⟩
    · have hs : s.kills.kring = false := by rw [hshows.kills, hkring]
      rw [yankpop, hs]
      cases hlast : s.lastcmd with
      | neither => rfl
      | before => rfl
      | after => rfl
    · rw [hstay hfind]
      exact hfits
    · rw [hstay hfind]
      exact { hshows with kctbuf := .inr ⟨rfl, hkring⟩ }
  | true =>
    have hkctbuf : s.kctbuf = some original := hshows.kctbuf.resolve_right fun hnone ↦
      Bool.false_ne_true (hnone.2.symm.trans hkring)
    have hskip : ∀ kct ∈ popAfter y.kills.kringnum i.kct,
        s.skips ch junk (kctSlot original kct) =
          some (!shows ch s.kills (kctSlot original kct)) := fun kct hkct ↦ by
      refine skips_spec (hshows.kills ▸ h) ?_
      rw [hshows.kills]
      refine hne _ ?_
      cases kct with
      | none => exact .inl rfl
      | some n => exact .inr ⟨n, lt_of_mem_popOrder (hsub hkct), rfl⟩
    rw [← hkringnum] at hchain
    rw [← hkringnum] at hskip hlength
    have hstart : i.kct ∉ popAfter s.kills.kringnum i.kct := by
      rw [hkringnum]
      exact hnot
    have hfuel : (popAfter s.kills.kringnum i.kct).length < kringsize + 1 := by
      rw [hlength]
      exact Nat.lt_succ_self _
    have hloop := popLoop_spec hskip hchain hstart hfuel
    rw [hshows.kills] at hloop
    have hpop : s.yankpop ch junk =
        match s.popLoop ch junk original s.kct (kringsize + 1) s.kct with
        | none => none
        | some kct =>
          if kct = s.kct then some (1, s) else s.replaceYank ch (kctSlot original kct) kct := by
      have hs : s.kills.kring = true := by rw [hshows.kills, hkring]
      have hlast : s.lastcmd ≠ .neither := hshows.lastcmd ▸ hflag
      rw [yankpop, hs, hkctbuf]
      cases hcmd : s.lastcmd with
      | neither => exact absurd hcmd hlast
      | before => rfl
      | after => rfl
    rw [hpop, hshows.kct, hloop]
    dsimp only
    cases hfind : (popAfter y.kills.kringnum i.kct).find? _ with
    | none =>
      rw [hstay hfind, Option.getD_none, if_pos rfl]
      exact ⟨1, s, rfl, hfits, hshows⟩
    | some kct =>
      have hmem := mem_of_find?_eq_some hfind
      have hkct : kct ≠ i.kct := fun heq ↦ hnot (heq ▸ hmem)
      have hshown : shows ch y.kills (kctSlot original kct) = true := by
        have hfound := List.find?_some hfind
        exact hfound
      rw [Option.getD_some, if_neg hkct]
      cases hheld : y.kills.held ch _ with
      | none =>
        rw [shows, hheld] at hshown
        exact absurd hshown Bool.false_ne_true
      | some pair =>
        obtain ⟨text, line⟩ := pair
        have hnext : i.next ch y original (flag = .after) =
            ⟨kct, y.pasteAt ch line (flag = .after),
              pastedText ch text line 1 (flag = .after)⟩ := by
          rw [Insertion.next, hfind]
          dsimp only
          rw [hheld]
        obtain ⟨t, hreplace, ht⟩ := replaceYank_spec ch hcs hfits hshows h
          ((h.held_eq _).symm.trans hheld) kct hkctbuf
        rw [hnext]
        exact ⟨0, t, hreplace, ⟨pasteAt_le ch hcs _ _, hsub hmem,
          fun hno ↦ absurd (hno.symm.trans hkring) Bool.false_ne_true⟩, ht⟩

end YankState

/-! ## The command and the pops after it -/

namespace YankCmd

/-- The buffer that the command puts into the line, where it puts one there. -/
def original : YankCmd α → Option KillSlot
  | .yank zmult zmod => if 0 < zmult then some (YankState.selected zmod) else none
  | .viput _ _ zmult zmod =>
    if 0 ≤ zmult && !zmod.modNull && !zmod.modOssel then some (YankState.selected zmod) else none
  | .yankpop => none

/-- The flag that it leaves in `lastcmd`. -/
def flag : YankCmd α → YankFlag
  | .yank _ _ => .before
  | .viput after _ _ _ => if after then .after else .before
  | .yankpop => .neither

theorem flag_ne_neither {cmd : YankCmd α} {original : KillSlot}
    (hcmd : cmd.original = some original) : cmd.flag ≠ .neither := by
  cases cmd with
  | yank zmult zmod => exact nofun
  | viput after clip zmult zmod => cases after <;> exact nofun
  | yankpop => exact nomatch hcmd

variable [DecidableEq α]

/-- What it puts there. -/
def insertion (ch : ZleChars α) (y : YankState α) (text : List α) (line : Bool) :
    YankCmd α → YankState.Insertion α
  | .yank zmult _ => ⟨none, y.zlecs, (List.replicate zmult.toNat text).flatten⟩
  | .viput after _ zmult _ =>
    ⟨none, y.pasteAt ch line after, YankState.pastedText ch text line zmult.toNat after⟩
  | .yankpop => ⟨none, y.zlecs, []⟩

end YankCmd

namespace YankState

variable [DecidableEq α]

/-- The state after the commands. -/
def yankRun (ch : ZleChars α) (junk : α) (y : YankState α) (cmds : List (YankCmd α)) :
    Option (YankState α) :=
  cmds.foldlM (fun s cmd ↦ (s.command ch junk cmd).map Prod.snd) y

variable {k : Kills α}

theorem command_spec (ch : ZleChars α) (junk : α) {y : YankState α} {cmd : YankCmd α}
    {original : KillSlot} (hcs : y.zlecs ≤ y.zleline.length) (h : y.kills.Represents k)
    (hcmd : cmd.original = some original) {text : List α} {line : Bool}
    (hheld : k.held original = some (text, line)) :
    ∃ t, y.command ch junk cmd = some (0, t) ∧ (cmd.insertion ch y text line).Fits y ∧
      y.Shows original cmd.flag (cmd.insertion ch y text line) t := by
  obtain ⟨p, size, hbuf, hholds, hlen, hline⟩ := h.holds hheld
  have hread : y.bufferText ch original p = some text := by rw [bufferText, hlen, hholds.read]
  have hnone : none ∈ popOrder y.kills.kringnum := mem_cons_self
  cases cmd with
  | yank zmult zmod =>
    rw [YankCmd.original] at hcmd
    split at hcmd
    · obtain rfl : selected zmod = original := Option.some.inj hcmd
      obtain ⟨n, hn⟩ : ∃ n, zmult.toNat = n + 1 := ⟨zmult.toNat - 1, by omega⟩
      refine ⟨{ yankTimes text zmult.toNat
          { y with kctbuf := some (selected zmod), yankb := y.zlecs, yankcs := y.zlecs } with
        lastcmd := .before }, ?_, ⟨hcs, hnone, fun _ ↦ rfl⟩, ?_⟩
      · rw [command, yank, if_neg (by omega)]
        dsimp only
        rw [hbuf]
        dsimp only
        rw [hread]
        rfl
      · rw [hn, yankTimes_eq]
        · exact ⟨rfl, by rw [YankCmd.insertion, hn]; rfl, rfl, by rw [YankCmd.insertion, hn], rfl,
            rfl, .inl rfl, rfl, rfl⟩
        · exact hcs
    · cases hcmd
  | viput after clip zmult zmod =>
    rw [YankCmd.original] at hcmd
    split at hcmd
    · rename_i hputs
      obtain rfl : selected zmod = original := Option.some.inj hcmd
      obtain ⟨⟨hnonneg, hnull⟩, hsel⟩ : (0 ≤ zmult ∧ zmod.modNull = false) ∧
          zmod.modOssel = false := by simpa using hputs
      obtain ⟨c, hpaste⟩ := pastebuf_spec ch
        (s := { y with kctbuf := some (selected zmod), kct := none, yankcs := y.zlecs }) hcs text
        line zmult.toNat after
      refine ⟨{ pasted { y with kctbuf := some (selected zmod), kct := none, yankcs := y.zlecs }
          (pastedText ch text line zmult.toNat after) (y.pasteAt ch line after) c with
        lastcmd := if after then .after else .before }, ?_,
        ⟨pasteAt_le ch hcs line after, hnone, fun _ ↦ rfl⟩, ?_⟩
      · have hsign : ¬zmult < 0 := by omega
        rw [command, viput, if_neg hsign, hnull, if_neg Bool.false_ne_true, hsel,
          if_neg Bool.false_ne_true]
        dsimp only
        rw [hbuf]
        dsimp only
        rw [hread, Option.bind_some, hline, hpaste]
        rfl
      · exact ⟨rfl, rfl, rfl, rfl, rfl, rfl, .inl rfl, rfl, rfl⟩
    · cases hcmd
  | yankpop => cases hcmd

theorem yankRun_spec (ch : ZleChars α) (junk : α) {y : YankState α} {cmd : YankCmd α}
    {original : KillSlot} {runs : List (List (KillCmd α))} (hcs : y.zlecs ≤ y.zleline.length)
    (h : y.kills.Represents k) (hruns : k.HoldsRuns runs) (hcmd : cmd.original = some original)
    {text : List α} {line : Bool} (hheld : k.held original = some (text, line))
    (hne : ∀ slot, slot = original ∨ (∃ n < kringsize, slot = .kring n) →
      y.kills.text ch slot ≠ some [])
    (pops : ℕ) : ∃ t, y.yankRun ch junk (cmd :: List.replicate pops .yankpop) = some t ∧
      y.Shows original cmd.flag
        ((Insertion.next ch y original (cmd.flag = .after))^[pops] (cmd.insertion ch y text line))
        t := by
  have hbound : y.kills.kringnum < kringsize := h.kringnum ▸ hruns.bound
  have hring : y.kills.kring = false → ∀ n, some n ∈ popOrder y.kills.kringnum →
      k.held (.kring n) = none := fun hkring n hn ↦ by
    obtain ⟨i, hi, rfl⟩ : ∃ i < kringsize, Kills.ringSlot y.kills.kringnum i = n := by
      simpa [popOrder] using hn
    have hfew : ¬2 ≤ runs.length :=
      of_decide_eq_false (hruns.allocated.symm.trans (h.kring.symm.trans hkring))
    have htext := hruns.ring i hi
    rw [List.getElem?_eq_none (by omega), ← h.kringnum] at htext
    exact Option.map_eq_none_iff.mp htext
  suffices hfits : ∃ t, y.yankRun ch junk _ = some t ∧
      ((Insertion.next ch y original (cmd.flag = .after))^[pops]
        (cmd.insertion ch y text line)).Fits y ∧
      y.Shows original cmd.flag _ t by
    obtain ⟨t, hrun, _, hshows⟩ := hfits
    exact ⟨t, hrun, hshows⟩
  induction pops with
  | zero =>
    obtain ⟨t, hfirst, hfits, hshows⟩ := command_spec ch junk hcs h hcmd hheld
    refine ⟨t, ?_, hfits, hshows⟩
    rw [yankRun, replicate_zero, foldlM_cons, hfirst]
    rfl
  | succ pops ih =>
    obtain ⟨s, hrun, hfits, hshows⟩ := ih
    obtain ⟨ret, t, hpop, hfits', hshows'⟩ := yankpop_spec junk hcs h hbound hring hne
      (YankCmd.flag_ne_neither hcmd) hfits hshows
    rw [Function.iterate_succ_apply']
    refine ⟨t, ?_, hfits', hshows'⟩
    rw [yankRun] at hrun ⊢
    rw [replicate_succ', ← cons_append, foldlM_append, hrun]
    have hlast : (s.command ch junk .yankpop).map Prod.snd = some t := by
      rw [command, hpop]
      rfl
    exact (Option.bind_some _ _).trans (by simpa using hlast)

/-- Characters that are numbers, with none of them combining. -/
def numberChars : ZleChars ℕ where
  isCombining _ := false
  isBasechar _ := false
  nul := 0
  newline := 10
  isBlank c := c = 32

/-- A kill that no other one precedes. -/
def plainKill (line : List ℕ) : KillCmd ℕ :=
  ⟨line, false, false, false, false, false, ⟨false, false, false, false, 0⟩⟩

/-- The line and the buffers before a command. -/
def beforeYank (kills : KillState ℕ) (zleline : List ℕ) (zlecs : ℕ) : YankState ℕ :=
  ⟨kills, zleline, zlecs, 0, 0, 0, some 0, none, .neither, false, false⟩

/-- The line after the commands, the cursor being put to the beginning before the second of them. -/
def lineAfter (kills : List (KillCmd ℕ)) (first : List (YankCmd ℕ)) (second : List (YankCmd ℕ)) :
    Option (List ℕ) :=
  (KillState.cutAll numberChars kills).bind fun s ↦
    ((beforeYank s [] 0).yankRun numberChars 7 first).bind fun t ↦
      (yankRun numberChars 7 { t with zlecs := 0 } second).map YankState.zleline

end YankState

end Bsh.Shell
