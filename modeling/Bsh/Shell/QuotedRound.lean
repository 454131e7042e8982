import Bsh.Shell.DollarQuote
import Bsh.Shell.QuotedWord

/-!
# Printed words read back

`quotedzputs` prints a word that is read back as the same word, as long as no escape within
`$'...'` ends with a quote or a backslash and every character that is not printed as it is can be
read from its code.
-/

namespace Bsh.Shell

open Bsh.Library List

/-! ## Metafied strings without tokens -/

theorem unit_append_special {c : UInt8} (hc : imeta c = true) (s : Bytes) :
    metaCode.unit c ++ s = metaByte :: (c ^^^ 32) :: s := by
  rw [EscapeCode.unit_special metaCode hc]
  rfl

theorem unit_append_plain {c : UInt8} (hc : imeta c = false) (s : Bytes) :
    metaCode.unit c ++ s = c :: s := by
  rw [EscapeCode.unit_plain metaCode hc]
  rfl

theorem flip_back (c : UInt8) : c ^^^ 32 ^^^ 32 = c := metaCode.flip_flip c

theorem zputs_unit (c : UInt8) (s : Bytes) : zputs (metaCode.unit c ++ s) = c :: zputs s := by
  cases hc : imeta c with
  | true => rw [unit_append_special hc, zputs, if_pos rfl, flip_back]
  | false =>
    rw [unit_append_plain hc]
    have htoken := not_itok c hc
    cases s with
    | nil =>
      change (if itok c then [] else [c]) = [c]
      rw [htoken]
      rfl
    | cons d s => rw [zputs, if_neg (not_imeta_ne_meta hc), if_neg (Bool.eq_false_iff.mp htoken)]

theorem zputs_metafied (b : Bytes) : zputs (metafied b) = b := by
  induction b with
  | nil => rfl
  | cons c b ih =>
    have hstep := zputs_unit c (metafied b)
    rw [ih] at hstep
    exact hstep

theorem untokenize_metafied (b : Bytes) : untokenize (metafied b) = metafied b := by
  have hplain (s : Bytes) (hs : ∀ c ∈ s, itok c = false) : untokenize s = s := by
    induction s with
    | nil => rfl
    | cons c s ih =>
      rw [untokenize, if_neg (Bool.eq_false_iff.mp (hs c mem_cons_self)),
        ih fun d hd ↦ hs d (mem_cons_of_mem c hd)]
  apply hplain
  induction b with
  | nil => exact forall_mem_nil _
  | cons c b ih =>
    change ∀ d ∈ metaCode.unit c ++ metafied b, itok d = false
    cases hc : imeta c with
    | true =>
      rw [unit_append_special hc]
      exact List.forall_mem_cons.mpr
        ⟨by decide, List.forall_mem_cons.mpr ⟨not_itok_flip c hc, ih⟩⟩
    | false =>
      rw [unit_append_plain hc]
      exact List.forall_mem_cons.mpr ⟨not_itok c hc, ih⟩

theorem unmetafiedText_metafied (b : Bytes) : unmetafiedText (metafied b) = b := by
  induction b with
  | nil => rfl
  | cons c b ih =>
    change unmetafiedText (metaCode.unit c ++ metafied b) = _
    cases hc : imeta c with
    | true => rw [unit_append_special hc, unmetafiedText, if_pos rfl, flip_back, ih]
    | false =>
      rw [unit_append_plain hc]
      cases hb : metafied b with
      | nil =>
        rw [hb] at ih
        rw [← ih]
        rfl
      | cons d s => rw [unmetafiedText, if_neg (not_imeta_ne_meta hc), ← hb, ih]

theorem quotedChars_metafied (b : Bytes) : quotedChars (metafied b) = b := by
  induction b with
  | nil => rfl
  | cons c b ih =>
    change quotedChars (metaCode.unit c ++ metafied b) = _
    cases hc : imeta c with
    | true => rw [unit_append_special hc, quotedChars, if_pos rfl, flip_back, ih]
    | false =>
      have hdash : plainChar c = c := by
        rw [plainChar, if_neg]
        rintro rfl
        cases hc
      rw [unit_append_plain hc]
      cases hb : metafied b with
      | nil =>
        rw [hb] at ih
        rw [← ih]
        exact congrArg (fun c ↦ [c]) hdash
      | cons d s => rw [quotedChars, if_neg (not_imeta_ne_meta hc), ← hb, ih, hdash]

theorem hasspecial_metafied (env : NiceEnv) (b : Bytes) :
    hasspecial env (metafied b) = b.any (ispecial env) := by
  induction b with
  | nil => rfl
  | cons c b ih =>
    change hasspecial env (metaCode.unit c ++ metafied b) = _
    rw [any_cons]
    cases hc : imeta c with
    | true => rw [unit_append_special hc, hasspecial, if_pos rfl, flip_back, ih]
    | false =>
      rw [unit_append_plain hc]
      cases hb : metafied b with
      | nil =>
        rw [hb] at ih
        rw [← ih, hasspecial]
        exact (Bool.or_false _).symm
      | cons d s => rw [hasspecial, if_neg (not_imeta_ne_meta hc), ← hb, ih]

theorem metafied_ne_nil {b : Bytes} (hb : b ≠ []) : metafied b ≠ [] := by
  intro h
  exact hb ((unmetafiedText_metafied b).symm.trans (congrArg unmetafiedText h))

set_option maxRecDepth 4000 in
theorem inull_of_plain : ∀ c : UInt8, imeta c = false → inull c = false :=
  Bytes.forall_byte (by decide)

theorem remnulargs_append (s t : Bytes) : remnulargs (s ++ t) = remnulargs s ++ remnulargs t :=
  filter_append ..

theorem remnulargs_unit (c : UInt8) : remnulargs (metaCode.unit c) = metaCode.unit c := by
  cases hc : imeta c with
  | true =>
    have hflip : imeta (c ^^^ 32) = false := metaCode.flip_special c hc
    have hlast : inull (c ^^^ 32) = false := inull_of_plain _ hflip
    rw [EscapeCode.unit_special metaCode hc, remnulargs]
    change List.filter _ [metaByte, c ^^^ 32] = [metaByte, c ^^^ 32]
    rw [filter_cons_of_pos (by decide), filter_cons_of_pos (by rw [hlast]; rfl)]
    rfl
  | false =>
    have hc' := inull_of_plain c hc
    rw [EscapeCode.unit_plain metaCode hc, remnulargs, filter_cons_of_pos (by rw [hc']; rfl)]
    rfl

theorem remnulargs_metafied (b : Bytes) : remnulargs (metafied b) = metafied b := by
  induction b with
  | nil => rfl
  | cons c b ih =>
    change remnulargs (metaCode.unit c ++ metafied b) = metaCode.unit c ++ metafied b
    rw [remnulargs_append, remnulargs_unit, ih]

/-! ## Pieces of `$'...'` -/

/-- A character that stands for itself within `$'...'`. -/
def EndsWell (env : NiceEnv) (c : UInt8) : Prop :=
  c ≠ char '\'' ∧ c ≠ char '\\' ∧ (env.cshJunkieQuotes = true → c ≠ char '\n')

/-- The lexer makes the second text of the first one, in front of anything. -/
def Lexes (env : NiceEnv) (printed lexed : Bytes) : Prop :=
  ∀ lexbuf next, next ≠ [] →
    lexStrquote env lexbuf (printed ++ next) = lexStrquote env (lexbuf ++ lexed) next

theorem Lexes.append {env : NiceEnv} {p p' l l' : Bytes} (h : Lexes env p l)
    (h' : Lexes env p' l') : Lexes env (p ++ p') (l ++ l') := by
  intro lexbuf next hnext
  have hmiddle : p' ++ next ≠ [] := fun hnil ↦ hnext (List.append_eq_nil_iff.mp hnil).2
  rw [append_assoc, h lexbuf _ hmiddle, h' _ next hnext, append_assoc]

theorem lexes_nil (env : NiceEnv) : Lexes env [] [] := by
  intro lexbuf next _
  rw [nil_append, append_nil]

theorem lexes_plain {env : NiceEnv} {c : UInt8} (hc : EndsWell env c) :
    Lexes env [c] (metaCode.unit c) := by
  intro lexbuf next hnext
  obtain ⟨hquote, hbackslash, hnewline⟩ := hc
  cases next with
  | nil => exact absurd rfl hnext
  | cons d next =>
    rw [singleton_append, lexStrquote, if_neg hquote, if_neg hbackslash,
      if_neg fun h ↦ hnewline h.1 h.2]

theorem lexes_plains {env : NiceEnv} {b : Bytes} (hb : ∀ c ∈ b, EndsWell env c) :
    Lexes env b (metafied b) := by
  induction b with
  | nil => exact lexes_nil env
  | cons c b ih =>
    exact (lexes_plain (hb c mem_cons_self)).append
      (ih fun d hd ↦ hb d (mem_cons_of_mem _ hd))

theorem lexes_pair (env : NiceEnv) (d : UInt8) : Lexes env [char '\\', d]
    ((if d = char '\\' ∨ d = char '\'' then bnullToken else char '\\') :: metaCode.unit d) := by
  intro lexbuf next _
  have hquote : char '\\' ≠ char '\'' := by decide
  change lexStrquote env lexbuf (char '\\' :: d :: next) = _
  rw [lexStrquote, if_neg hquote, if_pos rfl, append_assoc]
  rfl

/-- `getkeystring` adds the second text for the first one, in front of anything, and the flags for
the next character are the given ones. -/
def Decodes (env : KeyEnv) (metaKey : ℕ) (control : Bool) (lexed out : Bytes) : Prop :=
  ∃ n ≤ lexed.length, ∀ total turns before next, next ≠ [] →
    getkeystringFrom env total (turns + n) ⟨before, metaKey, control, false⟩ (lexed ++ next) =
      getkeystringFrom env total turns ⟨before ++ out, 0, false, false⟩ next

section Decoding

variable {env : KeyEnv} {metaKey : ℕ} {control : Bool}

theorem decodes_nil : Decodes env 0 false [] [] := by
  refine ⟨0, Nat.le_refl _, ?_⟩
  intro total turns before next _
  rw [nil_append, append_nil, Nat.add_zero]

theorem Decodes.append {l l' out out' : Bytes} (h : Decodes env metaKey control l out)
    (h' : Decodes env 0 false l' out') : Decodes env metaKey control (l ++ l') (out ++ out') := by
  obtain ⟨n, hn, hread⟩ := h
  obtain ⟨n', hn', hread'⟩ := h'
  refine ⟨n' + n, ?_, ?_⟩
  · rw [length_append]
    omega
  · intro total turns before next hnext
    have hmiddle : l' ++ next ≠ [] := fun hnil ↦ hnext (List.append_eq_nil_iff.mp hnil).2
    rw [← Nat.add_assoc, append_assoc, hread total (turns + n') before _ hmiddle,
      hread' total turns _ next hnext, append_assoc]

/-- What the flags make of a character. -/
def modified (metaKey : ℕ) (control : Bool) (c : UInt8) : UInt8 :=
  KeyState.modify ⟨[], metaKey, control, false⟩ c

theorem add_modified (hposix : env.posixStrings = false) (before : Bytes) (c : UInt8) :
    KeyState.add env ⟨before, metaKey, control, false⟩ c =
      ⟨before ++ metaCode.unit (modified metaKey control c), 0, false, false⟩ := by
  unfold KeyState.add modified KeyState.modify
  simp [hposix]

theorem decodes_plain (hposix : env.posixStrings = false) {c : UInt8} (hc : c ≠ char '\\') :
    Decodes env metaKey control (metaCode.unit c)
      (metaCode.unit (modified metaKey control c)) := by
  refine ⟨1, ?_, ?_⟩
  · rw [EscapeCode.unit]
    split
    · exact Nat.le_succ 1
    · exact Nat.le_refl 1
  · intro total turns before next _
    cases hmeta : imeta c with
    | true =>
      have hslash : metaByte ≠ char '\\' := by decide
      have hsnull : metaByte ≠ snullToken := by decide
      rw [unit_append_special hmeta, getkeystringFrom, if_neg fun h ↦ hslash h.1, if_neg hsnull,
        if_pos rfl]
      simp only [flip_back, add_modified hposix]
    | false =>
      have htoken := not_itok c hmeta
      have hsnull : c ≠ snullToken := by
        rintro rfl
        cases hmeta
      rw [unit_append_plain hmeta, getkeystringFrom.eq_def]
      dsimp only
      rw [if_neg fun h ↦ hc h.1, if_neg hsnull, if_neg (not_imeta_ne_meta hmeta),
        if_neg (Bool.eq_false_iff.mp htoken), add_modified hposix]

theorem decodes_plains (hposix : env.posixStrings = false) {b : Bytes}
    (hb : ∀ c ∈ b, c ≠ char '\\') : Decodes env 0 false (metafied b) (metafied b) := by
  induction b with
  | nil => exact decodes_nil
  | cons c b ih =>
    exact (decodes_plain hposix (hb c mem_cons_self)).append
      (ih fun d hd ↦ hb d (mem_cons_of_mem _ hd))

theorem decodes_named (hposix : env.posixStrings = false) {letter c : UInt8}
    (hc : namedEscape letter = some c) :
    Decodes env metaKey control [char '\\', letter]
      (metaCode.unit (modified metaKey control c)) := by
  refine ⟨1, Nat.le_succ 1, ?_⟩
  intro total turns before next _
  change getkeystringFrom env total (turns + 1) _ (char '\\' :: letter :: next) = _
  rw [getkeystringFrom, if_pos ⟨rfl, cons_ne_nil _ _⟩, ← add_modified hposix]
  simp only [headD_cons, hc, tail_cons]

/-- `\M-` in front of a text that is read with the flag. -/
theorem decodes_meta {l out : Bytes} (h : Decodes env 1 false l out) :
    Decodes env 0 false (metaEscape ++ l) out := by
  obtain ⟨n, hn, hread⟩ := h
  refine ⟨n + 1, ?_, ?_⟩
  · rw [length_append]
    exact Nat.succ_le_of_lt (Nat.lt_of_le_of_lt hn (Nat.lt_add_of_pos_left (by decide)))
  · intro total turns before next hnext
    rw [append_assoc, ← hread total turns before next hnext, ← Nat.add_assoc]
    rfl

theorem decodes_control {l out : Bytes} (h : Decodes env metaKey true l out) :
    Decodes env metaKey false (controlEscape ++ l) out := by
  obtain ⟨n, hn, hread⟩ := h
  refine ⟨n + 1, ?_, ?_⟩
  · rw [length_append]
    exact Nat.succ_le_of_lt (Nat.lt_of_le_of_lt hn (Nat.lt_add_of_pos_left (by decide)))
  · intro total turns before next hnext
    rw [append_assoc, ← hread total turns before next hnext, ← Nat.add_assoc]
    rfl

theorem decodes_bnull (d : UInt8) : Decodes env 0 false [bnullToken, d] [bnullToken, d] := by
  refine ⟨1, Nat.le_succ 1, ?_⟩
  intro total turns before next _
  rfl

end Decoding

/-! ## The escapes -/

theorem metafied_plain {b : Bytes} (hb : ∀ c ∈ b, imeta c = false) : metafied b = b := by
  induction b with
  | nil => rfl
  | cons c b ih =>
    change metaCode.unit c ++ metafied b = c :: b
    rw [unit_append_plain (hb c mem_cons_self), ih fun d hd ↦ hb d (mem_cons_of_mem _ hd)]

theorem lexes_metaEscape (env : NiceEnv) : Lexes env metaEscape metaEscape :=
  (lexes_pair env (char 'M')).append (lexes_plain (c := char '-') ⟨by decide, by decide, fun _ ↦ by decide⟩)

theorem lexes_controlEscape (env : NiceEnv) : Lexes env controlEscape controlEscape :=
  (lexes_pair env (char 'C')).append (lexes_plain (c := char '-') ⟨by decide, by decide, fun _ ↦ by decide⟩)

theorem metaEscape_plain : ∀ d ∈ metaEscape, imeta d = false := by decide

theorem controlEscape_plain : ∀ d ∈ controlEscape, imeta d = false := by decide

set_option maxRecDepth 4000 in
theorem modified_control : ∀ c : UInt8, c < 0x20 → c + 0x40 ≠ char '\\' →
    modified 0 true (c + 0x40) = c ∧ modified 1 true (c + 0x40) = c ||| 0x80 :=
  Bytes.forall_byte (by decide)

set_option maxRecDepth 4000 in
theorem meta_bit : ∀ c : UInt8, c &&& 0x80 ≠ 0 → c &&& 0x7F ||| 0x80 = c :=
  Bytes.forall_byte (by decide)

/-- What `\M-` makes of a character. -/
def metaKeyed (metaKey : ℕ) (c : UInt8) : UInt8 := if metaKey = 1 then c ||| 0x80 else c

/-- A character without its high bit, with or without `\M-` in front. -/
theorem controlParts_reads {env : NiceEnv} {keyEnv : KeyEnv} (hposix : keyEnv.posixStrings = false)
    {metaKey : ℕ} (hkey : metaKey = 0 ∨ metaKey = 1) {c : UInt8}
    (hc : EndsWell env (controlParts true c).2) :
    ∃ lexed, Lexes env ((controlParts true c).1 ++ [(controlParts true c).2]) lexed ∧
      Decodes keyEnv metaKey false lexed (metaCode.unit (metaKeyed metaKey c)) ∧
      ∀ d ∈ (controlParts true c).1, imeta d = false := by
  have hplain (c : UInt8) : modified metaKey false c = metaKeyed metaKey c := by
    rcases hkey with rfl | rfl
    · rfl
    · rfl
  rw [controlParts] at hc ⊢
  by_cases hdelete : c = 0x7F
  · rw [if_pos hdelete] at hc ⊢
    refine ⟨controlEscape ++ metaCode.unit (char '?'),
      (lexes_controlEscape env).append (lexes_plain hc), ?_, by decide⟩
    have hread : Decodes keyEnv metaKey true (metaCode.unit (char '?')) _ :=
      decodes_plain hposix (by decide)
    have hvalue : modified metaKey true (char '?') = metaKeyed metaKey c := by
      rw [hdelete]
      rcases hkey with rfl | rfl
      · rfl
      · rfl
    rw [hvalue] at hread
    exact decodes_control hread
  · rw [if_neg hdelete] at hc ⊢
    by_cases hnewline : c = char '\n'
    · rw [if_pos hnewline] at hc ⊢
      refine ⟨_, lexes_pair env (char 'n'), ?_, by decide⟩
      rw [hnewline, ← hplain]
      exact decodes_named hposix rfl
    · rw [if_neg hnewline] at hc ⊢
      by_cases htab : c = char '\t'
      · rw [if_pos htab] at hc ⊢
        refine ⟨_, lexes_pair env (char 't'), ?_, by decide⟩
        rw [htab, ← hplain]
        exact decodes_named hposix rfl
      · rw [if_neg htab] at hc ⊢
        by_cases hcontrol : c < 0x20
        · rw [if_pos hcontrol] at hc ⊢
          refine ⟨controlEscape ++ metaCode.unit (c + 0x40),
            (lexes_controlEscape env).append (lexes_plain hc), ?_, controlEscape_plain⟩
          have hread : Decodes keyEnv metaKey true (metaCode.unit (c + 0x40)) _ :=
            decodes_plain hposix hc.2.1
          have hvalue : modified metaKey true (c + 0x40) = metaKeyed metaKey c := by
            obtain ⟨hzero, hone⟩ := modified_control c hcontrol hc.2.1
            rcases hkey with rfl | rfl
            · exact hzero
            · exact hone
          rw [hvalue] at hread
          exact decodes_control hread
        · rw [if_neg hcontrol] at hc ⊢
          refine ⟨metaCode.unit c, lexes_plain hc, ?_, nofun⟩
          rw [← hplain]
          exact decodes_plain hposix hc.2.1

/-- The bytes of a unit. -/
def NiceUnit.bytes : NiceUnit → Bytes
  | .byte c => [c]
  | .char bytes _ => bytes

/-- The text of a unit is read as its bytes. -/
def UnitReads (env : NiceEnv) (keyEnv : KeyEnv) (text bytes : Bytes) : Prop :=
  ∃ printed lexed out, text = metafied printed ∧ Lexes env printed lexed ∧
    Decodes keyEnv 0 false lexed out ∧ remnulargs out = metafied bytes

theorem nicechar_reads {env : NiceEnv} {keyEnv : KeyEnv} (hposix : keyEnv.posixStrings = false)
    {c : UInt8} (hc : EndsWell env (nicecharParts env true c).2) :
    UnitReads env keyEnv (nicecharSel env true c) [c] := by
  have hunit (d : UInt8) : remnulargs (metaCode.unit d) = metafied [d] :=
    (remnulargs_unit d).trans (append_nil _).symm
  have htext {escape : Bytes} (hescape : ∀ d ∈ escape, imeta d = false) (d : UInt8) :
      escape ++ metaCode.unit d = metafied (escape ++ [d]) := by
    rw [metafied_append, metafied_plain hescape]
    exact congrArg (escape ++ ·) (append_nil _).symm
  rw [nicecharSel]
  rw [nicecharParts] at hc ⊢
  have hraw (h : EndsWell env c) : UnitReads env keyEnv ([] ++ metaCode.unit c) [c] :=
    ⟨[c], metaCode.unit c, metaCode.unit c, htext (forall_mem_nil _) c, lexes_plain h,
      decodes_plain hposix h.2.1, hunit c⟩
  by_cases hprint : env.isPrint c = true
  · rw [if_pos hprint] at hc ⊢
    exact hraw hc
  · rw [if_neg hprint] at hc ⊢
    by_cases hhigh : c &&& 0x80 ≠ 0
    · rw [if_pos hhigh] at hc ⊢
      have hback : metaKeyed 1 (c &&& 0x7F) = c := meta_bit c hhigh
      by_cases height : env.printEightBit = true
      · rw [if_pos height] at hc ⊢
        exact hraw hc
      · rw [if_neg height] at hc ⊢
        by_cases hlow : env.isPrint (c &&& 0x7F) = true
        · rw [if_pos hlow] at hc ⊢
          refine ⟨metaEscape ++ [c &&& 0x7F], metaEscape ++ metaCode.unit (c &&& 0x7F),
            metaCode.unit c, htext metaEscape_plain _,
            (lexes_metaEscape env).append (lexes_plain hc), ?_, hunit c⟩
          have hread : Decodes keyEnv 1 false (metaCode.unit (c &&& 0x7F)) _ :=
            decodes_plain hposix hc.2.1
          have hvalue : modified 1 false (c &&& 0x7F) = c := hback
          rw [hvalue] at hread
          exact decodes_meta hread
        · rw [if_neg hlow] at hc ⊢
          obtain ⟨lexed, hlex, hread, hescape⟩ := controlParts_reads hposix (.inr rfl) hc
          rw [hback] at hread
          refine ⟨metaEscape ++ (controlParts true (c &&& 0x7F)).1 ++
            [(controlParts true (c &&& 0x7F)).2], metaEscape ++ lexed, metaCode.unit c, ?_, ?_,
            decodes_meta hread, hunit c⟩
          · apply htext
            intro d hd
            rcases List.mem_append.mp hd with hd | hd
            · exact metaEscape_plain d hd
            · exact hescape d hd
          · exact (lexes_metaEscape env).append hlex
    · rw [if_neg hhigh] at hc ⊢
      obtain ⟨lexed, hlex, hread, hescape⟩ := controlParts_reads hposix (.inl rfl) hc
      exact ⟨_, lexed, metaCode.unit c, htext hescape _, hlex, hread, hunit c⟩

/-! ## Codes of characters -/

theorem hexDigit_lt {d : ℕ} (hd : d < 16) :
    digitOf 16 (hexDigit d) = some d ∧ imeta (hexDigit d) = false ∧ hexDigit d ≠ char '\'' ∧
      hexDigit d ≠ char '\\' ∧ hexDigit d ≠ char '\n' := by
  interval_cases d <;> decide

theorem hexText_spec (n c : ℕ) : ∀ d ∈ hexText n c, imeta d = false ∧ d ≠ char '\'' ∧
    d ≠ char '\\' ∧ d ≠ char '\n' := by
  induction n generalizing c with
  | zero => exact forall_mem_nil _
  | succ n ih =>
    intro d hd
    rcases List.mem_append.mp hd with hd | hd
    · exact ih _ d hd
    · rw [List.mem_singleton.mp hd]
      exact (hexDigit_lt (Nat.mod_lt c (by decide))).2

theorem universalDigits_hexText (n m c w : ℕ) (next : Bytes) :
    universalDigits (n + m) (hexText n c ++ next) w =
      universalDigits m next (w * 16 ^ n + c % 16 ^ n) := by
  induction n generalizing m c next with
  | zero => rw [hexText, nil_append, Nat.zero_add, Nat.pow_zero, Nat.mul_one, Nat.mod_one,
      Nat.add_zero]
  | succ n ih =>
    have hdigit := (hexDigit_lt (Nat.mod_lt c (by decide : 0 < 16))).1
    have hturns : n + 1 + m = n + (m + 1) := by omega
    rw [hexText, append_assoc, hturns, ih, singleton_append, universalDigits, hdigit]
    have hvalue : (w * 16 ^ n + c / 16 % 16 ^ n) * 16 + c % 16 =
        w * 16 ^ (n + 1) + c % 16 ^ (n + 1) := by
      rw [Nat.pow_succ', Nat.mod_mul, Nat.add_mul, Nat.mul_assoc, Nat.mul_comm (16 ^ n) 16,
        Nat.mul_comm (c / 16 % 16 ^ n) 16]
      omega
    exact congrArg _ hvalue

/-- What `\u` and `\U` announce. -/
def codeDigits (letter : UInt8) : ℕ := if letter = char 'u' then 4 else 8

theorem decodes_code {env : KeyEnv} {letter : UInt8}
    (hletter : letter = char 'U' ∨ letter = char 'u') {c : ℕ} {bytes : Bytes}
    (hbytes : env.ucs4tomb (c % 16 ^ codeDigits letter) = some bytes) :
    Decodes env 0 false ([char '\\', letter] ++ hexText (codeDigits letter) c)
      (metafied bytes) := by
  refine ⟨1, Nat.succ_le_succ (Nat.zero_le _), ?_⟩
  intro total turns before next _
  have hnamed : namedEscape letter = none := by
    rcases hletter with rfl | rfl
    · rfl
    · rfl
  have hM : letter ≠ char 'M' := by rcases hletter with rfl | rfl <;> decide
  have hC : letter ≠ char 'C' := by rcases hletter with rfl | rfl <;> decide
  have hmeta : letter ≠ metaByte := by rcases hletter with rfl | rfl <;> decide
  have hdigits := universalDigits_hexText (codeDigits letter) 0 c 0 next
  rw [Nat.add_zero, Nat.zero_mul, Nat.zero_add, universalDigits] at hdigits
  rw [append_assoc, cons_append, cons_append, nil_append, getkeystringFrom,
    if_pos ⟨rfl, cons_ne_nil _ _⟩]
  dsimp only [headD_cons, tail_cons]
  rw [hnamed]
  rw [if_neg hM, if_neg hC, if_neg hmeta, if_pos hletter]
  have hcount : (if letter = char 'u' then 4 else 8) = codeDigits letter := rfl
  rw [hcount, hdigits]
  rw [hbytes]
  rfl

theorem code_reads {env : NiceEnv} {keyEnv : KeyEnv} {letter : UInt8}
    (hletter : letter = char 'U' ∨ letter = char 'u') {c : ℕ} {bytes : Bytes}
    (hbytes : keyEnv.ucs4tomb (c % 16 ^ codeDigits letter) = some bytes) :
    UnitReads env keyEnv ([char '\\', letter] ++ hexText (codeDigits letter) c) bytes := by
  have hhex := hexText_spec (codeDigits letter) c
  have hplain : metafied (hexText (codeDigits letter) c) = hexText (codeDigits letter) c :=
    metafied_plain fun d hd ↦ (hhex d hd).1
  have hpair : metafied [char '\\', letter] = [char '\\', letter] := by
    rcases hletter with rfl | rfl
    · rfl
    · rfl
  refine ⟨[char '\\', letter] ++ hexText (codeDigits letter) c, _, metafied bytes, ?_, ?_,
    decodes_code hletter hbytes, remnulargs_metafied bytes⟩
  · rw [metafied_append, hplain, hpair]
  · have hlex := lexes_pair env letter
    have hlexed : ((if letter = char '\\' ∨ letter = char '\'' then bnullToken else char '\\') ::
        metaCode.unit letter) = [char '\\', letter] := by
      rcases hletter with rfl | rfl
      · rfl
      · rfl
    have hdigits : Lexes env (hexText (codeDigits letter) c) _ := lexes_plains fun d hd ↦
      ⟨(hhex d hd).2.1, (hhex d hd).2.2.1, fun _ ↦ (hhex d hd).2.2.2⟩
    rw [hplain] at hdigits
    rw [hlexed] at hlex
    exact hlex.append hdigits

/-! ## Units -/

/-- A character is a byte below 128 or made of others. -/
def NiceUnit.Decoded : NiceUnit → Prop
  | .byte _ => True
  | .char bytes wc =>
    (∃ c : UInt8, c < 0x80 ∧ bytes = [c] ∧ wc = c.toNat) ∨ 0x80 ≤ wc ∧ ∀ c ∈ bytes, 0x80 ≤ c

theorem convert_char {charset : Charset} {used : ℕ} {s : Bytes} {st st' : charset.State}
    {cnt wc : ℕ} (h : charset.convert used s st = .char cnt wc st')
    (hused : used ≠ 0 → ∃ c st₀, charset.mbrtowc c st₀ = (.incomplete, st)) :
    (used = 0 ∧ ∃ c rest, s = c :: rest ∧ c < 0x80 ∧ wc = c.toNat ∧ cnt = 1) ∨
      (0x80 ≤ wc ∧ used < cnt ∧ cnt ≤ used + s.length ∧ ∀ c ∈ s.take (cnt - used), 0x80 ≤ c) := by
  induction s generalizing used st with
  | nil => cases h
  | cons c rest ih =>
    rw [Charset.convert] at h
    cases hread : charset.mbrtowc c st with
    | mk result st₁ =>
      rw [hread] at h
      cases result with
      | invalid => cases h
      | incomplete =>
        have hhigh : 0x80 ≤ c := by
          rcases lt_or_ge_ascii c with hlow | hhigh
          · exact absurd (congrArg Prod.fst hread) (charset.ascii_complete c st hlow)
          · exact hhigh
        obtain ⟨hzero, _⟩ | ⟨hwc, hmore, hlength, hbytes⟩ := ih h fun _ ↦ ⟨c, st, hread⟩
        · omega
        · right
          rw [length_cons]
          refine ⟨hwc, by omega, by omega, ?_⟩
          have hcount : cnt - used = cnt - (used + 1) + 1 := by omega
          rw [hcount, take_succ_cons]
          intro d hd
          rcases List.mem_cons.mp hd with rfl | hd
          · exact hhigh
          · exact hbytes d hd
      | char _ =>
        cases h
        rcases lt_or_ge_ascii c with hlow | hhigh
        · left
          have hvalue : wc = c.toNat :=
            charset.ascii_char c st wc hlow (congrArg Prod.fst hread)
          have hfirst : used = 0 := by
            by_contra hne
            obtain ⟨d, st₀, hincomplete⟩ := hused hne
            have htail := charset.ascii_tail d c st₀ (congrArg Prod.fst hincomplete) hlow
            rw [hincomplete, hread] at htail
            cases htail
          refine ⟨hfirst, c, rest, rfl, hlow, hvalue, ?_⟩
          rw [hfirst]
          split
          · rfl
          · rfl
        · right
          have hwc : 0x80 ≤ wc := charset.other_char c st wc hhigh (congrArg Prod.fst hread)
          rw [if_neg (by omega : ¬ wc = 0), length_cons, Nat.add_sub_cancel_left]
          refine ⟨hwc, by omega, by omega, ?_⟩
          intro d hd
          rw [take_succ_cons, take_zero, mem_singleton] at hd
          rw [hd]
          exact hhigh

theorem niceUnits_spec (charset : Charset) {turns : ℕ} {eol : Bool} {s : Bytes}
    {st : charset.State} (hturns : s.length ≤ turns) :
    (niceUnits charset turns eol s st).flatMap (·.bytes) = s ∧
      ∀ u ∈ niceUnits charset turns eol s st, u.Decoded := by
  induction turns generalizing eol s st with
  | zero =>
    rw [eq_nil_of_length_eq_zero (Nat.le_zero.mp hturns)]
    exact ⟨rfl, forall_mem_nil _⟩
  | succ turns ih =>
    cases s with
    | nil => exact ⟨rfl, forall_mem_nil _⟩
    | cons c rest =>
      have hrest : rest.length ≤ turns := Nat.le_of_succ_le_succ hturns
      have hbyte (eol : Bool) :
          (NiceUnit.byte c :: niceUnits charset turns eol rest charset.initial).flatMap (·.bytes) =
            c :: rest ∧ ∀ u ∈ NiceUnit.byte c :: niceUnits charset turns eol rest charset.initial,
              u.Decoded := by
        obtain ⟨hbytes, hdecoded⟩ := @ih eol rest charset.initial hrest
        constructor
        · rw [flatMap_cons, hbytes]
          rfl
        · intro u hu
          rcases List.mem_cons.mp hu with rfl | hu
          · exact True.intro
          · exact hdecoded u hu
      rw [niceUnits]
      cases eol with
      | true => exact hbyte true
      | false =>
        rw [if_neg Bool.false_ne_true]
        cases hconvert : charset.convert 0 (c :: rest) st with
        | invalid => exact hbyte false
        | incomplete => exact hbyte true
        | char cnt wc st₁ =>
          have hcases := convert_char hconvert fun h ↦ absurd rfl h
          have hshort : ((c :: rest).drop cnt).length ≤ turns := by
            rw [length_drop, length_cons]
            omega
          obtain ⟨hbytes, hdecoded⟩ := @ih false _ st₁ hshort
          constructor
          · rw [flatMap_cons, hbytes]
            exact List.take_append_drop ..
          · intro u hu
            rcases List.mem_cons.mp hu with rfl | hu
            · obtain ⟨_, d, rest', hs, hlow, hwc, hone⟩ | ⟨hwc, _, _, hall⟩ := hcases
              · cases hs
                rw [hone]
                exact .inl ⟨c, hlow, rfl, hwc⟩
              · exact .inr ⟨hwc, hall⟩
            · exact hdecoded u hu

/-! ## Units that are read back -/

/-- A code of `wcs_nicechar_sel` is read as the bytes of the character. -/
def CodeReads (env : NiceEnv) (keyEnv : KeyEnv) (bytes : Bytes) (wc : ℕ) : Prop :=
  if 0x10000 ≤ wc then keyEnv.ucs4tomb (wc % 16 ^ 8) = some bytes
  else if 0x100 ≤ wc then keyEnv.ucs4tomb wc = some bytes
  else bytes = [UInt8.ofNat wc] ∧ EndsWell env (nicecharParts env true (UInt8.ofNat wc)).2

/-- What the text of a unit ends with stands for itself, and a character that is not printable can
be read from its code. -/
def NiceUnit.Readable (env : NiceEnv) (keyEnv : KeyEnv) : NiceUnit → Prop
  | .byte c => EndsWell env (nicecharParts env true c).2
  | .char bytes wc =>
    wc = (Bsh.Shell.char '\'').toNat ∨ wc = (Bsh.Shell.char '\\').toNat ∨
      if wc < 0x80 then
        EndsWell env (if env.wcIsPrint wc then UInt8.ofNat wc
          else (controlParts true (UInt8.ofNat wc)).2)
      else if env.wcIsPrint wc ∨ env.printEightBit then
        match env.wcrtomb wc with
        | some mbstr => mbstr = bytes
        | none => CodeReads env keyEnv bytes wc
      else CodeReads env keyEnv bytes wc

theorem unconverted_reads {env : NiceEnv} {keyEnv : KeyEnv} (hposix : keyEnv.posixStrings = false)
    {bytes : Bytes} {wc : ℕ} (h : CodeReads env keyEnv bytes wc) :
    UnitReads env keyEnv (unconverted env true wc) bytes := by
  rw [CodeReads] at h
  rw [unconverted]
  by_cases hlong : 0x10000 ≤ wc
  · rw [if_pos hlong] at h ⊢
    exact code_reads (.inl rfl) h
  · rw [if_neg hlong] at h ⊢
    by_cases hshort : 0x100 ≤ wc
    · rw [if_pos hshort] at h ⊢
      refine code_reads (.inr rfl) ?_
      have hmod : wc % 16 ^ codeDigits (char 'u') = wc := Nat.mod_eq_of_lt (Nat.not_le.mp hlong)
      rw [hmod]
      exact h
    · rw [if_neg hshort] at h ⊢
      rw [h.1]
      exact nicechar_reads hposix h.2

theorem plains_read {env : NiceEnv} {keyEnv : KeyEnv} (hposix : keyEnv.posixStrings = false)
    {b : Bytes} (hb : ∀ c ∈ b, EndsWell env c) : UnitReads env keyEnv (metafied b) b :=
  ⟨b, metafied b, metafied b, rfl, lexes_plains hb,
    decodes_plains hposix fun c hc ↦ (hb c hc).2.1, remnulargs_metafied b⟩

theorem quoted_reads {env : NiceEnv} {keyEnv : KeyEnv} {c : UInt8}
    (hc : c = char '\\' ∨ c = char '\'') : UnitReads env keyEnv [char '\\', c] [c] := by
  refine ⟨[char '\\', c], [bnullToken, c], [bnullToken, c], ?_, ?_, decodes_bnull c, ?_⟩
  · rcases hc with rfl | rfl
    · rfl
    · rfl
  · have hlex := lexes_pair env c
    rcases hc with rfl | rfl
    · exact hlex
    · exact hlex
  · rcases hc with rfl | rfl
    · rfl
    · rfl

set_option maxRecDepth 4000 in
theorem controlParts_ascii : ∀ c : UInt8, c < 0x80 → (controlParts true c).2 < 0x80 :=
  Bytes.forall_byte (by decide)

theorem endsWell_high (env : NiceEnv) {c : UInt8} (hc : 0x80 ≤ c) : EndsWell env c := by
  have hne (d : UInt8) (hd : d < 0x80) : c ≠ d := by
    rintro rfl
    exact absurd hd (UInt8.not_lt.mpr hc)
  exact ⟨hne _ (by decide), hne _ (by decide), fun _ ↦ hne _ (by decide)⟩

/-- An ASCII character that is not escaped with a backslash. -/
theorem wcsNicecharSel_ascii {env : NiceEnv} {keyEnv : KeyEnv}
    (hposix : keyEnv.posixStrings = false) {c : UInt8} (hlow : c < 0x80)
    (hc : EndsWell env (if env.wcIsPrint c.toNat then c else (controlParts true c).2)) :
    UnitReads env keyEnv (wcsNicecharSel env true c.toNat) [c] := by
  have hsmall : c.toNat < 0x80 := UInt8.lt_iff_toNat_lt.mp hlow
  have hback : UInt8.ofNat c.toNat = c := UInt8.ofNat_toNat
  have hhigh : decide (0x80 ≤ c.toNat) = false := decide_eq_false (by omega)
  rw [wcsNicecharSel, hhigh, Bool.false_and, Bool.or_false, hback]
  by_cases hprint : env.wcIsPrint c.toNat = true
  · rw [if_pos hprint] at hc ⊢
    rw [env.ascii_wcrtomb c hlow]
    apply plains_read hposix
    intro d hd
    rw [List.mem_singleton.mp hd]
    exact hc
  · rw [if_neg hprint] at hc ⊢
    rw [if_pos hsmall]
    dsimp only
    rw [env.ascii_wcrtomb _ (controlParts_ascii c hlow)]
    obtain ⟨lexed, hlex, hread, hescape⟩ := controlParts_reads hposix (.inl rfl) hc
    refine ⟨_, lexed, metaCode.unit c, ?_, hlex, hread, ?_⟩
    · rw [metafied_append, metafied_plain hescape]
    · rw [remnulargs_unit]
      exact (append_nil _).symm

theorem unit_reads {env : NiceEnv} {keyEnv : KeyEnv} (hposix : keyEnv.posixStrings = false)
    {u : NiceUnit} (hdecoded : u.Decoded) (h : u.Readable env keyEnv) :
    UnitReads env keyEnv (u.text env) u.bytes := by
  cases u with
  | byte c => exact nicechar_reads hposix h
  | char bytes wc =>
    rw [NiceUnit.text, NiceUnit.bytes]
    obtain ⟨c, hlow, rfl, rfl⟩ | ⟨hhigh, hbytes⟩ := hdecoded
    · have hsmall : c.toNat < 0x80 := UInt8.lt_iff_toNat_lt.mp hlow
      have hback : UInt8.ofNat c.toNat = c := UInt8.ofNat_toNat
      by_cases hquote : c.toNat = (char '\'').toNat
      · rw [if_pos hquote, UInt8.toNat_inj.mp hquote]
        exact quoted_reads (.inr rfl)
      · rw [if_neg hquote]
        by_cases hbackslash : c.toNat = (char '\\').toNat
        · rw [if_pos hbackslash, UInt8.toNat_inj.mp hbackslash]
          exact quoted_reads (.inl rfl)
        · rw [if_neg hbackslash]
          have hends := (h.resolve_left hquote).resolve_left hbackslash
          rw [if_pos hsmall, hback] at hends
          exact wcsNicecharSel_ascii hposix hlow hends
    · have hquote : wc ≠ (char '\'').toNat := fun heq ↦
        absurd (heq ▸ hhigh) (by decide)
      have hbackslash : wc ≠ (char '\\').toNat := fun heq ↦
        absurd (heq ▸ hhigh) (by decide)
      have hcode := (h.resolve_left hquote).resolve_left hbackslash
      rw [if_neg (Nat.not_lt.mpr hhigh)] at hcode
      rw [if_neg hquote, if_neg hbackslash, wcsNicecharSel, decide_eq_true hhigh, Bool.true_and]
      by_cases hprint : env.wcIsPrint wc = true ∨ env.printEightBit = true
      · rw [if_pos hprint] at hcode
        rw [if_pos (by simpa using hprint)]
        cases hmb : env.wcrtomb wc with
        | none =>
          rw [hmb] at hcode
          exact unconverted_reads hposix hcode
        | some mbstr =>
          rw [hmb] at hcode
          obtain rfl : mbstr = bytes := hcode
          exact plains_read hposix fun c hc ↦ endsWell_high env (hbytes c hc)
      · rw [if_neg hprint] at hcode
        rw [if_neg (by simpa using hprint), if_neg (Nat.not_lt.mpr hhigh)]
        exact unconverted_reads hposix hcode

theorem units_read {env : NiceEnv} {keyEnv : KeyEnv} (hposix : keyEnv.posixStrings = false)
    {units : List NiceUnit} (hdecoded : ∀ u ∈ units, u.Decoded)
    (h : ∀ u ∈ units, u.Readable env keyEnv) :
    ∃ lexed out, Lexes env (units.flatMap fun u ↦ zputs (u.text env)) lexed ∧
      Decodes keyEnv 0 false lexed out ∧ remnulargs out = metafied (units.flatMap (·.bytes)) := by
  induction units with
  | nil => exact ⟨[], [], lexes_nil env, decodes_nil, rfl⟩
  | cons u units ih =>
    obtain ⟨lexed, out, hlex, hread, hout⟩ :=
      ih (fun v hv ↦ hdecoded v (mem_cons_of_mem _ hv))
        fun v hv ↦ h v (mem_cons_of_mem _ hv)
    obtain ⟨printed, lexed', out', htext, hlex', hread', hout'⟩ :=
      unit_reads hposix (hdecoded u mem_cons_self) (h u mem_cons_self)
    refine ⟨lexed' ++ lexed, out' ++ out, ?_, hread'.append hread, ?_⟩
    · rw [flatMap_cons, htext, zputs_metafied]
      exact hlex'.append hlex
    · rw [remnulargs_append, hout', hout, flatMap_cons, metafied_append]

/-! ## Words -/

section Words

variable {env : NiceEnv} {keyEnv : KeyEnv}

theorem readWord_strquote {printed lexed out b : Bytes} (hlex : Lexes env printed lexed)
    (hread : Decodes keyEnv 0 false lexed out) (hout : remnulargs out = metafied b) {turns : ℕ} :
    readWord env keyEnv (turns + 2) ([char '$', char '\''] ++ printed ++ [char '\'']) =
      some (metafied b) := by
  have hstart := hlex [] [char '\''] (cons_ne_nil _ _)
  have hlexed : lexStrquote env [] (printed ++ [char '\'']) = some (lexed, []) := hstart
  obtain ⟨n, hn, hdecode⟩ := hread
  have hlength : (lexed ++ [snullToken]).length = lexed.length + 1 := by
    rw [length_append, length_singleton]
  have hkey : getkeystring keyEnv (lexed ++ [snullToken]) = some ⟨out, lexed.length + 1⟩ := by
    obtain ⟨turns, hturns⟩ : ∃ turns, lexed.length + 1 + 1 = turns + 1 + n :=
      ⟨lexed.length + 1 - n, by omega⟩
    rw [getkeystring, hlength, hturns,
      hdecode _ _ [] [snullToken] (cons_ne_nil _ _)]
    rfl
  have hexpand : expandStrquote keyEnv lexed = some (metafied b) := by
    rw [expandStrquote, hkey, Option.bind_some, if_pos rfl, hout]
  have htail : readWord env keyEnv (turns + 1) [] = some [] := rfl
  have hquote : char '$' ≠ char '\'' := by decide
  rw [append_assoc, cons_append, readWord.eq_def]
  dsimp only
  rw [if_neg hquote, if_pos ⟨rfl, rfl⟩, singleton_append, tail_cons, hlexed,
    Option.bind_some]
  rw [hexpand, Option.bind_some, htail, Option.map_some, append_nil]

theorem specc_special {c : UInt8} (hc : c ∈ speccChars) : ispecial env c = true := by
  rw [ispecial, List.contains_iff_mem.mpr hc]
  rfl

/-- A string without special characters is a word. -/
theorem readWord_plain {b : Bytes} (hb : ∀ c ∈ b, ispecial env c = false) {turns : ℕ}
    (hturns : b.length < turns) : readWord env keyEnv turns b = some (metafied b) := by
  obtain ⟨turns, rfl⟩ : ∃ n, turns = n + 1 := ⟨turns - 1, by omega⟩
  induction b generalizing turns with
  | nil => rfl
  | cons c b ih =>
    have hc := hb c mem_cons_self
    have hne (d : UInt8) (hd : d ∈ speccChars) : c ≠ d := by
      rintro rfl
      rw [specc_special hd] at hc
      cases hc
    rw [length_cons] at hturns
    obtain ⟨turns, rfl⟩ : ∃ n, turns = n + 1 := ⟨turns - 1, by omega⟩
    rw [readWord.eq_def]
    dsimp only
    rw [if_neg (hne _ (by decide)), if_neg fun h ↦ hne _ (by decide) h.1,
      if_neg (hne _ (by decide)), if_neg (Bool.eq_false_iff.mp hc),
      ih (fun d hd ↦ hb d (mem_cons_of_mem _ hd)) turns (by omega), Option.map_some]
    rfl

theorem lexQuote_junk {c : UInt8} (hc : c ≠ char '\'') (lexbuf rest : Bytes) :
    lexQuote env lexbuf (junkQuoted env c ++ rest) =
      lexQuote env (lexbuf ++ metaCode.unit c) rest := by
  rw [junkQuoted]
  by_cases hjunk : c = char '\n' ∧ env.cshJunkieQuotes = true
  · obtain ⟨rfl, hcsh⟩ := hjunk
    have hbackslash : char '\\' ≠ char '\'' := by decide
    have hother : char '\\' ≠ char '\n' := by decide
    have hunit : metaCode.unit (char '\\') = [char '\\'] := rfl
    have hnewline : junkNewline (lexbuf ++ [char '\\']) = some (lexbuf ++ [char '\n']) := by
      rw [junkNewline, List.getLast?_concat, if_pos rfl, dropLast_concat]
    rw [if_pos ⟨rfl, hcsh⟩, cons_append, singleton_append, lexQuote.eq_def]
    dsimp only
    rw [if_neg hbackslash, if_neg fun h ↦ hother h.2, hunit, lexQuote.eq_def]
    dsimp only
    rw [if_neg hc, if_pos ⟨hcsh, rfl⟩, hnewline]
    rfl
  · rw [if_neg hjunk, singleton_append, lexQuote.eq_def]
    dsimp only
    rw [if_neg hc, if_neg fun h ↦ hjunk ⟨h.2, h.1⟩]

theorem lexQuote_rc (hrc : env.rcQuotes = true) (b lexbuf : Bytes) :
    lexQuote env lexbuf (rcQuoted env b) = some (lexbuf ++ metafied b, []) := by
  induction b generalizing lexbuf with
  | nil =>
    have hnil : lexbuf ++ metafied [] = lexbuf := append_nil lexbuf
    rw [rcQuoted, lexQuote, if_pos rfl, hnil]
  | cons c b ih =>
    have hmetafied : lexbuf ++ metafied (c :: b) = lexbuf ++ metaCode.unit c ++ metafied b :=
      (append_assoc ..).symm
    rw [rcQuoted, hmetafied, ← ih]
    by_cases hquote : c = char '\''
    · have hunit : metaCode.unit (char '\'') = [char '\''] := rfl
      rw [if_pos hquote, hquote, cons_append, singleton_append, lexQuote, if_pos rfl]
      rw [if_pos ⟨rfl, hrc⟩, hunit]
    · rw [if_neg hquote, lexQuote_junk hquote]

/-- The quoted string ends at the next quote. -/
theorem lexQuote_bourne (b lexbuf : Bytes) :
    ∃ p q, b = p ++ q ∧ (∀ c ∈ b.head?, c ≠ char '\'' → p ≠ []) ∧
      lexQuote env lexbuf (bourneQuoted env true b) =
        some (lexbuf ++ metafied p, bourneQuoted env false q) := by
  have hnil (lexbuf : Bytes) : lexbuf ++ metafied [] = lexbuf := append_nil lexbuf
  induction b generalizing lexbuf with
  | nil =>
    refine ⟨[], [], rfl, nofun, ?_⟩
    rw [bourneQuoted, if_pos rfl, lexQuote, if_pos rfl, hnil]
    rfl
  | cons c b ih =>
    rw [bourneQuoted]
    by_cases hquote : c = char '\''
    · have hbackslash : ¬ (char '\\' = char '\'' ∧ env.rcQuotes = true) := fun h ↦
        absurd h.1 (by decide)
      refine ⟨[], c :: b, rfl, fun d hd hne ↦ absurd (Option.some.inj hd ▸ hquote) hne, ?_⟩
      rw [if_pos hquote, if_pos rfl, bourneQuoted, if_pos hquote, if_neg Bool.false_ne_true,
        nil_append, append_assoc, singleton_append, cons_append, lexQuote,
        if_pos rfl]
      rw [if_neg hbackslash, hnil]
    · obtain ⟨p, q, rfl, _, hlex⟩ := ih _
      refine ⟨c :: p, q, rfl, fun _ _ _ ↦ cons_ne_nil _ _, ?_⟩
      rw [if_neg hquote, if_pos rfl, nil_append, lexQuote_junk hquote, hlex,
        append_assoc]
      rfl

theorem readWord_bourne {b : Bytes} {turns : ℕ}
    (hturns : b.length < turns) :
    readWord env keyEnv turns (bourneQuoted env false b) = some (metafied b) := by
  induction hlength : b.length using Nat.strong_induction_on generalizing b turns with
  | _ length ih =>
    obtain ⟨turns, rfl⟩ : ∃ n, turns = n + 1 := ⟨turns - 1, by omega⟩
    cases b with
    | nil => rfl
    | cons c b =>
      rw [length_cons] at hturns hlength
      by_cases hquote : c = char '\''
      · have hbackslash : char '\\' ≠ char '\'' := by decide
        have hdollar : char '\\' ≠ char '$' := by decide
        have hnewline : char '\'' ≠ char '\n' := by decide
        have hrest := @ih b.length (by omega) b turns (by omega) rfl
        rw [bourneQuoted, if_pos hquote, if_neg Bool.false_ne_true, nil_append,
          cons_append, singleton_append, readWord.eq_def]
        dsimp only
        rw [if_neg hbackslash, if_neg fun h ↦ hdollar h.1, if_pos rfl, hquote, if_neg hnewline,
          hrest]
        rfl
      · obtain ⟨p, q, hsplit, hp, hlex⟩ := lexQuote_bourne (c :: b) []
        have hsame : bourneQuoted env false (c :: b) =
            char '\'' :: bourneQuoted env true (c :: b) := by
          rw [bourneQuoted, bourneQuoted, if_neg hquote, if_neg hquote, if_neg Bool.false_ne_true,
            if_pos rfl, nil_append, append_assoc]
          rfl
        have hless : q.length < length := by
          have hpos := List.length_pos_iff.mpr (hp c rfl hquote)
          have heq := congrArg List.length hsplit
          rw [length_cons, length_append] at heq
          omega
        have hrest := @ih q.length hless q turns (by omega) rfl
        rw [hsame, readWord.eq_def]
        dsimp only
        rw [if_pos rfl, hlex, Option.bind_some]
        rw [hrest, hsplit, metafied_append]
        rfl

theorem length_le_bourneQuoted (inquote : Bool) (b : Bytes) :
    b.length ≤ (bourneQuoted env inquote b).length := by
  induction b generalizing inquote with
  | nil => exact Nat.zero_le _
  | cons c b ih =>
    rw [bourneQuoted]
    split
    · have hrest := ih false
      rw [length_append, length_append, length_cons, length_cons]
      omega
    · have hrest := ih true
      have hjunk : 1 ≤ (junkQuoted env c).length := by
        rw [junkQuoted]
        split
        · exact Nat.le_succ 1
        · exact Nat.le_refl 1
      rw [length_append, length_append, length_cons]
      omega

end Words

/-! ## The round trip -/

/-- What `quotedzputs` prints is read as the string. -/
def PrintsWord (env : NiceEnv) (keyEnv : KeyEnv) (b : Bytes) : Prop :=
  readWord env keyEnv ((quotedzputs env (metafied b)).length + 1)
    (quotedzputs env (metafied b)) = some (metafied b)

/-- A string is printed as a word that is read back if it is printed without escapes, or all of its
units are read back. -/
theorem printsWord_of_readable (env : NiceEnv) (keyEnv : KeyEnv)
    (hposix : keyEnv.posixStrings = false) (b : Bytes)
    (h : isMbNiceformat env (metafied b) = true →
      ∀ u ∈ unitsOf env (metafied b), u.Readable env keyEnv) :
    PrintsWord env keyEnv b := by
  rw [PrintsWord, quotedzputs]
  by_cases hnil : b = []
  · subst hnil
    rfl
  rw [if_neg (metafied_ne_nil hnil)]
  by_cases hnice : isMbNiceformat env (metafied b) = true
  · rw [if_pos hnice]
    obtain ⟨hbytes, hdecoded⟩ :=
      @niceUnits_spec env.charset _ false b env.charset.initial (Nat.le_refl b.length)
    have hunits : unitsOf env (metafied b) =
        niceUnits env.charset b.length false b env.charset.initial := by
      rw [unitsOf, untokenize_metafied, unmetafiedText_metafied]
    rw [← hunits] at hbytes hdecoded
    obtain ⟨lexed, out, hlex, hread, hout⟩ := units_read hposix hdecoded (h hnice)
    rw [hbytes] at hout
    exact readWord_strquote hlex hread hout
  · rw [if_neg hnice, hasspecial_metafied]
    by_cases hspecial : b.any (ispecial env) = true
    · rw [hspecial, if_neg (by decide), quotedChars_metafied]
      cases hrc : env.rcQuotes with
      | true =>
        rw [if_pos rfl, length_cons, readWord.eq_def]
        dsimp only
        rw [if_pos rfl, lexQuote_rc hrc, Option.bind_some, nil_append]
        cases hlength : (rcQuoted env b).length with
        | zero =>
          cases b with
          | nil => exact absurd rfl hnil
          | cons c b =>
            rw [rcQuoted, junkQuoted, length_append] at hlength
            split_ifs at hlength
            all_goals simp at hlength
        | succ turns => exact congrArg some (append_nil _)
      | false =>
        exact readWord_bourne (Nat.lt_succ_of_le (length_le_bourneQuoted false b))
    · rw [Bool.not_eq_true] at hspecial
      rw [hspecial, Bool.not_false, if_pos rfl, zputs_metafied]
      refine readWord_plain ?_ (Nat.lt_succ_self _)
      intro c hc
      exact Bool.eq_false_iff.mpr fun h ↦
        absurd (List.any_eq_true.mpr ⟨c, hc, h⟩) (Bool.eq_false_iff.mp hspecial)

/-! ## The C locale -/

/-- Printing in the C locale. -/
def NiceEnv.portable : NiceEnv where
  charset := Charset.portable
  wcrtomb c := if c < 0x80 then some [UInt8.ofNat c] else none
  ascii_wcrtomb c hc := by
    have hlow : c.toNat < 0x80 := UInt8.lt_iff_toNat_lt.mp hc
    rw [if_pos hlow, UInt8.ofNat_toNat]
  isPrint c := 0x20 ≤ c && c < 0x7F
  wcIsPrint c := 0x20 ≤ c && c < 0x7F
  printEightBit := false
  rcQuotes := false
  cshJunkieQuotes := false
  bangchar := none
  spComma := false

/-- Reading in the C locale. -/
def KeyEnv.portable : KeyEnv where
  posixStrings := false
  ucs4tomb c := if c < 0x80 then some [UInt8.ofNat c] else none

theorem printsWord_control :
    KeyEnv.portable.posixStrings = false ∧
      (∀ u ∈ unitsOf .portable (metafied [0x01, char '\'', 0xE9]),
        u.Readable .portable .portable) ∧
      PrintsWord .portable .portable [0x01, char '\'', 0xE9] := by
  have hreadable : ∀ u ∈ unitsOf .portable (metafied [0x01, char '\'', 0xE9]),
      u.Readable .portable .portable := by
    refine List.forall_mem_cons.mpr ⟨.inr (.inr ?_), List.forall_mem_cons.mpr ⟨.inl rfl,
      List.forall_mem_cons.mpr ⟨⟨by decide, by decide, by decide⟩, forall_mem_nil _⟩⟩⟩
    exact ⟨by decide, by decide, by decide⟩
  exact ⟨rfl, hreadable, printsWord_of_readable .portable .portable rfl _ fun _ ↦ hreadable⟩

/-- The file separator is printed with a backslash at its end, which quotes the closing quote. -/
theorem not_printsWord_separator : ¬ PrintsWord .portable .portable [0x1C] := by
  have hprinted : quotedzputs .portable (metafied [0x1C]) =
      [char '$', char '\'', char '\\', char 'C', char '-', char '\\', char '\''] := by decide
  rw [PrintsWord, hprinted]
  decide

end Bsh.Shell
