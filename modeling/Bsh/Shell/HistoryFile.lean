import Mathlib.Data.List.DropRight
import Bsh.Library.HashChains
import Bsh.Shell.Metafy
import Bsh.Shell.Numbers

/-!
# The history file

What `savehistfile` writes for a list of entries and what `readhistfile` makes of a file, with
`readhistline` and the line buffer in between.  A file is a byte string; `fgets` reads from its front.
An access outside of the buffer has no result, nor has a buffer whose size no `int` holds.

Entries that the flags or `HISTORY_IGNORE` keep out of the file are left out before, and how the words
of an entry are found again is not followed.
-/

namespace Bsh.Shell

open Bsh.Library List

/-- The text of an entry with the times at which the command started and finished. -/
structure HistFileEntry where
  nam : Bytes
  stim : Zlong
  ftim : Zlong
  deriving DecidableEq

/-! ## Writing -/

/-- `%ld` -/
def printLong (n : Zlong) : Bytes :=
  if n.toInt < 0 then char '-' :: Decimal.decimal n.toInt.natAbs else Decimal.decimal n.toInt.natAbs

/-- The loop over the text: what goes to the file and `end_backslashes` behind it. -/
def histTextFrom (endBackslashes : Bool) : Bytes → Bytes × Bool
  | [] => ([], endBackslashes)
  | c :: t =>
    let (out, last) := histTextFrom (c = char '\\' || (endBackslashes && c = char ' ')) t
    (if c = char '\n' then char '\\' :: c :: out else c :: out, last)

/-- What comes before the text. -/
def histLead (extendedHistory : Bool) (he : HistFileEntry) : Bytes :=
  if extendedHistory then
    Bytes.ascii ": " ++ printLong he.stim ++ char ':' ::
      (printLong (if he.ftim = 0 then 0 else he.ftim - he.stim) ++ [char ';'])
  else if headIs ':' he.nam then [char '\\']
  else []

/-- One entry in the loop of `savehistfile`. -/
def histLine (extendedHistory : Bool) (he : HistFileEntry) : Bytes :=
  let (out, endBackslashes) := histTextFrom false he.nam
  histLead extendedHistory he ++ out ++ (if endBackslashes then [char ' '] else []) ++ [char '\n']

/-- `savehistfile` -/
def savehistfile (extendedHistory : Bool) (entries : List HistFileEntry) : Bytes :=
  entries.flatMap (histLine extendedHistory)

/-! ## Lines -/

/-- `fgets` with room for that many characters: what it reads, the rest of the file, and `feof`. -/
def fgets : ℕ → Bytes → Bytes × Bytes × Bool
  | 0, file => ([], file, false)
  | _ + 1, [] => ([], [], true)
  | room + 1, c :: file =>
    if c = char '\n' then ([c], file, false)
    else
      let (s, rest, eof) := fgets room file
      (c :: s, rest, eof)

/-- What `readhistline` returns: 0, -1, or the length of a line that is in the buffer. -/
inductive HistRead where
  | eof
  | corrupt
  | line (buf : Bytes)

/-- The end of `readhistline`: a blank goes if there is a backslash before the blanks at the end. -/
def dropEndBlank (buf : Bytes) : Option Bytes :=
  let bare := buf.rdropWhile (· = char ' ')
  if bare.length = buf.length then some buf
  else
    match bare.getLast? with
    -- `buf[spc]` with `spc` below 0
    | none => none
    | some c => some (if c = char '\\' then buf.dropLast else buf)

/-- `readhistline` with what is in the buffer already; the result comes with the size of the buffer
and the rest of the file. -/
def readhistline : ℕ → Bytes → ℕ → Bytes → Option (HistRead × ℕ × Bytes)
  | 0, _, _, _ => none
  | turns + 1, buf, bufsiz, file =>
    if file.isEmpty then some (.eof, bufsiz, file)
    else
      let (s, rest, eof) := fgets (bufsiz - buf.length - 1) file
      let s := s.takeWhile (· ≠ 0)
      let buf := buf ++ s
      match s.getLast? with
      | none => some (.corrupt, bufsiz, rest)
      | some c =>
        if c ≠ char '\n' then
          if eof then some (.line buf, bufsiz, rest)
          else if buf.length < bufsiz - 1 then some (.corrupt, bufsiz, rest)
          else if 2 ^ 31 ≤ 2 * bufsiz then none
          else readhistline turns buf (2 * bufsiz) rest
        else
          let buf := buf.dropLast
          -- `fgets` has stopped at the newline, so that `feof` is not set.
          if buf.getLast? = some (char '\\') then
            readhistline turns (buf.dropLast ++ [char '\n']) bufsiz rest
          else (dropEndBlank buf).map fun buf ↦ (.line buf, bufsiz, rest)

/-! ## Entries -/

/-- The scan for a character that should have been metafied. -/
def needsMetafy : Bytes → Bool
  | [] => false
  | [c] => imeta c
  | c :: d :: s => if c = metaByte then needsMetafy s else imeta c || needsMetafy (d :: s)

/-- `unmetafy` and `metafy` again, with any contents of new memory. -/
def remetafy (fresh : UInt8) (buf : Bytes) : Option Bytes :=
  (unmetafy (buf ++ [0])).bind fun (mem, len) ↦
    (metafy fresh mem (some len) .useheap).map (·.takeWhile (· ≠ 0))

/-- The header with the times, and the text; `tim` is the time of reading. -/
def histEntry (tim : Zlong) (pt : Bytes) : Option HistFileEntry :=
  if headIs ':' pt then
    (zstrtol pt.tail 0).bind fun (stim, _) ↦
      let pt := pt.tail.dropWhile (· ≠ char ':')
      (if pt.isEmpty then some (stim, pt)
      else (zstrtol pt.tail 0).map fun (ftim, _) ↦
        (ftim, (pt.tail.dropWhile (· ≠ char ';')).tail)).map fun (ftim, pt) ↦
          if stim = 0 then ⟨pt, tim, tim⟩
          else if ftim.slt stim then ⟨pt, stim, stim + ftim⟩
          else ⟨pt, stim, ftim⟩
  else some ⟨if headIs '\\' pt && headIs ':' pt.tail then pt.tail else pt, tim, tim⟩

/-- The loop of `readhistfile`, without flags: the entries that go into the history. -/
def readhistfileFrom (fresh : UInt8) (tim : Zlong) : ℕ → ℕ → Bytes → Option (List HistFileEntry)
  | 0, _, _ => none
  | turns + 1, bufsiz, file =>
    (readhistline (file.length + 1) [] bufsiz file).bind fun (line, bufsiz, rest) ↦
      match line with
      | .eof => some []
      | .corrupt => some []
      | .line buf =>
        (if needsMetafy buf then remetafy fresh buf else some buf).bind fun pt ↦
          (histEntry tim pt).bind fun he ↦
            (readhistfileFrom fresh tim turns bufsiz rest).map (he :: ·)

/-- `readhistfile` -/
def readhistfile (fresh : UInt8) (tim : Zlong) (file : Bytes) : Option (List HistFileEntry) :=
  readhistfileFrom fresh tim (file.length + 1) 1024 file

end Bsh.Shell

/-!
# Reading back one line of the history file

`readhistline` takes the backslashes before newlines out again and doubles the buffer whenever it is
full.  A text that does not end in a backslash comes back as it was, but for the blank that is dropped
at its end, as long as the buffer can grow enough.
-/

namespace Bsh.Shell

open Bsh.Library List

/-! ## What has been written -/

/-- A text with a backslash before every newline. -/
def escapedNewlines (s : Bytes) : Bytes :=
  s.flatMap fun c ↦ if c = char '\n' then [char '\\', char '\n'] else [c]

/-- `end_backslashes` behind a text. -/
def endBackslashes (s : Bytes) : Bool :=
  s.foldl (fun flag c ↦ c = char '\\' || (flag && c = char ' ')) false

theorem histTextFrom_eq (flag : Bool) (s : Bytes) : histTextFrom flag s = (escapedNewlines s,
    s.foldl (fun flag c ↦ c = char '\\' || (flag && c = char ' ')) flag) := by
  induction s generalizing flag with
  | nil => rfl
  | cons c s ih =>
    rw [histTextFrom, ih]
    by_cases hc : c = char '\n'
    · simp [escapedNewlines, hc]
    · simp [escapedNewlines, hc]

theorem endBackslashes_iff (s : Bytes) : endBackslashes s = true ↔
    (s.rdropWhile (· = char ' ')).getLast? = some (char '\\') := by
  induction s using List.reverseRecOn with
  | nil => simp [endBackslashes]
  | append_singleton s c ih =>
    have hstep : endBackslashes (s ++ [c]) =
        (decide (c = char '\\') || (endBackslashes s && decide (c = char ' '))) := by
      simp [endBackslashes, foldl_append]
    rw [hstep, rdropWhile_concat]
    by_cases hblank : c = char ' '
    · subst hblank
      have hne : char ' ' ≠ char '\\' := by decide
      simpa [hne] using ih
    · simp [hblank]

theorem escapedNewlines_append (s t : Bytes) :
    escapedNewlines (s ++ t) = escapedNewlines s ++ escapedNewlines t := flatMap_append

theorem escapedNewlines_plain {s : Bytes} (h : char '\n' ∉ s) : escapedNewlines s = s := by
  induction s with
  | nil => rfl
  | cons c s ih =>
    obtain ⟨hc, hs⟩ := not_or.mp (mt List.mem_cons.mpr h)
    change (if c = char '\n' then _ else [c]) ++ escapedNewlines s = _
    rw [if_neg (Ne.symm hc), ih hs]
    rfl

/-- Everything in front of the newline that ends a line, without the escapes. -/
def histJoined (extendedHistory : Bool) (he : HistFileEntry) : Bytes :=
  histLead extendedHistory he ++ he.nam ++ if endBackslashes he.nam then [char ' '] else []

/-! ## One `fgets` -/

theorem fgets_line {l : Bytes} (hl : char '\n' ∉ l) (rest : Bytes) {room : ℕ}
    (hroom : l.length < room) :
    fgets room (l ++ char '\n' :: rest) = (l ++ [char '\n'], rest, false) := by
  induction l generalizing room with
  | nil =>
    obtain ⟨room, rfl⟩ : ∃ n, room = n + 1 := ⟨room - 1, by omega⟩
    simp [fgets]
  | cons c l ih =>
    obtain ⟨hc, hrest⟩ := not_or.mp (mt List.mem_cons.mpr hl)
    obtain ⟨room, rfl⟩ : ∃ n, room = n + 1 := ⟨room - 1, by omega⟩
    rw [cons_append, fgets, if_neg (Ne.symm hc), ih hrest (by simpa using hroom)]
    rfl

theorem fgets_part {l : Bytes} (hl : char '\n' ∉ l) (rest : Bytes) {room : ℕ}
    (hroom : room ≤ l.length) : fgets room (l ++ rest) = (l.take room, l.drop room ++ rest, false) := by
  induction l generalizing room with
  | nil =>
    obtain rfl : room = 0 := by simpa using hroom
    rfl
  | cons c l ih =>
    cases room with
    | zero => rfl
    | succ room =>
      obtain ⟨hc, hrest⟩ := not_or.mp (mt List.mem_cons.mpr hl)
      rw [cons_append, fgets, if_neg (Ne.symm hc), ih hrest (by simpa using hroom)]
      rfl

/-! ## One line of the file -/

/-- The sizes that the buffer takes. -/
def GoodSize (bufsiz : ℕ) : Prop := ∃ k, 10 ≤ k ∧ k ≤ 30 ∧ bufsiz = 2 ^ k

theorem goodSize_start : GoodSize 1024 := ⟨10, le_rfl, by norm_num, by norm_num⟩

theorem GoodSize.le {bufsiz : ℕ} (h : GoodSize bufsiz) : 1024 ≤ bufsiz ∧ bufsiz ≤ 2 ^ 30 := by
  obtain ⟨k, hlow, hhigh, rfl⟩ := h
  exact ⟨(Nat.pow_le_pow_right (by norm_num) hlow : 2 ^ 10 ≤ 2 ^ k),
    Nat.pow_le_pow_right (by norm_num) hhigh⟩

theorem GoodSize.double {bufsiz : ℕ} (h : GoodSize bufsiz) (hlt : ¬ 2 ^ 31 ≤ 2 * bufsiz) :
    GoodSize (2 * bufsiz) := by
  obtain ⟨k, hlow, hhigh, rfl⟩ := h
  refine ⟨k + 1, by omega, ?_, by rw [pow_succ, mul_comm]⟩
  rcases hhigh.lt_or_eq with hlt' | rfl
  · exact hlt'
  · exact absurd le_rfl hlt

theorem GoodSize.full {bufsiz : ℕ} (h : GoodSize bufsiz) (hfull : 2 ^ 31 ≤ 2 * bufsiz) :
    bufsiz = 2 ^ 30 := by
  have hle := h.le.2
  omega

/-- What `readhistline` does once the newline is in the buffer. -/
def lineEnd (turns : ℕ) (buf : Bytes) (bufsiz : ℕ) (rest : Bytes) : Option (HistRead × ℕ × Bytes) :=
  if buf.getLast? = some (char '\\') then
    readhistline turns (buf.dropLast ++ [char '\n']) bufsiz rest
  else (dropEndBlank buf).map fun buf ↦ (.line buf, bufsiz, rest)

theorem takeWhile_nonzero {s : Bytes} (h : 0 ∉ s) : s.takeWhile (· ≠ 0) = s := by
  rw [takeWhile_eq_self_iff]
  intro c hc
  exact decide_eq_true fun h0 ↦ h (h0 ▸ hc)

/-- The line is read in as many pieces as it takes; it must leave room for a NUL. -/
theorem readhistline_physical {l : Bytes} (hl : char '\n' ∉ l) (h0 : 0 ∉ l) (rest : Bytes)
    {turns bufsiz : ℕ} {buf : Bytes} (hsize : GoodSize bufsiz) (hbuf : buf.length + 1 < bufsiz)
    (hturns : l.length + rest.length + 1 < turns) :
    (buf.length + l.length + 1 < 2 ^ 30 → ∃ bufsiz' turns', GoodSize bufsiz' ∧
      buf.length + l.length + 1 < bufsiz' ∧ rest.length < turns' ∧
      readhistline turns buf bufsiz (l ++ char '\n' :: rest) =
        lineEnd turns' (buf ++ l) bufsiz' rest) ∧
    (2 ^ 30 ≤ buf.length + l.length + 1 →
      readhistline turns buf bufsiz (l ++ char '\n' :: rest) = none) := by
  induction turns generalizing l buf bufsiz with
  | zero => omega
  | succ turns ih =>
    have hnonempty : (l ++ char '\n' :: rest).isEmpty = false := by cases l <;> rfl
    rw [readhistline, hnonempty, if_neg Bool.false_ne_true]
    by_cases hfits : l.length < bufsiz - buf.length - 1
    · have hle := hsize.le.2
      have hzero : 0 ∉ l ++ [char '\n'] := by
        rw [mem_append, not_or]
        exact ⟨h0, by decide⟩
      rw [fgets_line hl rest hfits]
      dsimp only
      rw [takeWhile_nonzero hzero, List.getLast?_concat]
      dsimp only
      rw [if_neg (not_not.mpr rfl), ← append_assoc, dropLast_concat]
      refine ⟨fun _ ↦ ⟨bufsiz, turns, hsize, by omega, by omega, rfl⟩, fun hlong ↦ by omega⟩
    · have hroom : bufsiz - buf.length - 1 ≤ l.length := by omega
      rw [fgets_part hl _ hroom]
      dsimp only
      obtain ⟨room, hroom_eq⟩ : ∃ room, room = bufsiz - buf.length - 1 := ⟨_, rfl⟩
      rw [← hroom_eq] at hroom ⊢
      have hpiece : (l.take room).length = room := by simp [hroom]
      have hne : l.take room ≠ [] := by
        intro hnil
        rw [hnil] at hpiece
        simp only [length_nil] at hpiece
        omega
      obtain ⟨c, hc⟩ : ∃ c, (l.take room).getLast? = some c :=
        ⟨_, List.getLast?_eq_some_getLast hne⟩
      have hcne : c ≠ char '\n' := by
        rintro rfl
        exact hl (mem_of_mem_take (mem_of_getLast? hc))
      have hlen : (buf ++ l.take room).length = bufsiz - 1 := by
        rw [length_append, hpiece]
        omega
      rw [takeWhile_nonzero fun h ↦ h0 (mem_of_mem_take h), hc]
      dsimp only
      rw [if_pos hcne, if_neg Bool.false_ne_true, hlen, if_neg (lt_irrefl _)]
      by_cases hfull : 2 ^ 31 ≤ 2 * bufsiz
      · rw [if_pos hfull]
        exact ⟨fun hshort ↦ by omega, fun _ ↦ rfl⟩
      · rw [if_neg hfull]
        have hdrop : (l.drop room).length = l.length - room := length_drop
        have htotal : (buf ++ l.take room).length + (l.drop room).length =
            buf.length + l.length := by
          omega
        have hstart : (buf ++ l.take room).length + 1 < 2 * bufsiz := by
          omega
        have hleft : (l.drop room).length + rest.length + 1 < turns := by
          omega
        have hnext := ih (fun h ↦ hl (mem_of_mem_drop h)) (fun h ↦ h0 (mem_of_mem_drop h))
          (hsize.double hfull) hstart hleft
        rw [htotal, append_assoc, List.take_append_drop] at hnext
        exact hnext

/-! ## One entry -/

theorem exists_segment (todo : Bytes) : char '\n' ∉ todo ∨
    ∃ seg after, todo = seg ++ char '\n' :: after ∧ char '\n' ∉ seg := by
  induction todo with
  | nil => exact .inl not_mem_nil
  | cons c todo ih =>
    by_cases hc : c = char '\n'
    · exact .inr ⟨[], todo, by rw [hc]; rfl, not_mem_nil⟩
    · rcases ih with hnot | ⟨seg, after, rfl, hseg⟩
      · exact .inl (not_or.mpr ⟨Ne.symm hc, hnot⟩ ∘ List.mem_cons.mp)
      · exact .inr ⟨c :: seg, after, rfl, not_or.mpr ⟨Ne.symm hc, hseg⟩ ∘ List.mem_cons.mp⟩

theorem readhistline_joined {todo : Bytes} (h0 : 0 ∉ todo) (rest : Bytes) {turns bufsiz : ℕ}
    {buf : Bytes} (hsize : GoodSize bufsiz) (hbuf : buf.length + 1 < bufsiz)
    (hturns : (escapedNewlines todo).length + rest.length + 1 < turns)
    (hlast : (buf ++ todo).getLast? ≠ some (char '\\')) :
    ((buf ++ todo).length + 1 < 2 ^ 30 → ∃ bufsiz', GoodSize bufsiz' ∧
      readhistline turns buf bufsiz (escapedNewlines todo ++ char '\n' :: rest) =
        (dropEndBlank (buf ++ todo)).map fun text ↦ (.line text, bufsiz', rest)) ∧
    (2 ^ 30 ≤ (buf ++ todo).length + 1 →
      readhistline turns buf bufsiz (escapedNewlines todo ++ char '\n' :: rest) = none) := by
  induction hn : todo.length using Nat.strongRecOn generalizing todo turns bufsiz buf with
  | ind n ih =>
    rcases exists_segment todo with hplain | ⟨seg, after, rfl, hseg⟩
    · rw [escapedNewlines_plain hplain] at hturns ⊢
      obtain ⟨hshort, hlong⟩ := readhistline_physical hplain h0 rest hsize hbuf hturns
      rw [length_append]
      refine ⟨fun hfits ↦ ?_, hlong⟩
      obtain ⟨bufsiz', turns', hsize', -, -, hread⟩ := hshort hfits
      refine ⟨bufsiz', hsize', ?_⟩
      rw [hread, lineEnd, if_neg hlast]
    · have hescape : escapedNewlines (seg ++ char '\n' :: after) ++ char '\n' :: rest =
          (seg ++ [char '\\']) ++ char '\n' :: (escapedNewlines after ++ char '\n' :: rest) := by
        rw [escapedNewlines_append, escapedNewlines_plain hseg]
        simp [escapedNewlines]
      have hcount : (escapedNewlines (seg ++ char '\n' :: after)).length =
          seg.length + 2 + (escapedNewlines after).length := by
        rw [escapedNewlines_append, escapedNewlines_plain hseg]
        simp [escapedNewlines]
        omega
      have hseg' : char '\n' ∉ seg ++ [char '\\'] := by
        rw [mem_append, not_or]
        exact ⟨hseg, by decide⟩
      have h0' : 0 ∉ seg ++ [char '\\'] := by
        rw [mem_append, not_or]
        exact ⟨fun h ↦ h0 (mem_append_left _ h), by decide⟩
      have hlen : (seg ++ [char '\\']).length = seg.length + 1 := by simp
      have htotal : (buf ++ (seg ++ char '\n' :: after)).length =
          buf.length + seg.length + 1 + after.length := by
        simp
        omega
      have hturns' : (seg ++ [char '\\']).length +
          (escapedNewlines after ++ char '\n' :: rest).length + 1 < turns := by
        rw [hlen, length_append, length_cons]
        omega
      have hphysical := readhistline_physical hseg' h0' _
        hsize hbuf hturns'
      rw [hescape, htotal]
      rw [hlen] at hphysical
      by_cases hroom : buf.length + (seg.length + 1) + 1 < 2 ^ 30
      · obtain ⟨bufsiz', turns', hsize', hbuf', hturns', hread⟩ := hphysical.1 hroom
        have hjoin : lineEnd turns' (buf ++ (seg ++ [char '\\'])) bufsiz'
            (escapedNewlines after ++ char '\n' :: rest) =
            readhistline turns' (buf ++ (seg ++ [char '\n'])) bufsiz'
              (escapedNewlines after ++ char '\n' :: rest) := by
          rw [lineEnd, ← append_assoc, List.getLast?_concat, if_pos rfl, dropLast_concat,
            append_assoc]
        rw [hread, hjoin]
        have hwhole : buf ++ (seg ++ [char '\n']) ++ after = buf ++ (seg ++ char '\n' :: after) := by
          simp
        have hstart : (buf ++ (seg ++ [char '\n'])).length + 1 < bufsiz' := by
          simp
          omega
        have hleft : (escapedNewlines after).length + rest.length + 1 < turns' := by
          rw [length_append, length_cons] at hturns'
          omega
        have hless : after.length < n := by
          rw [← hn, length_append, length_cons]
          omega
        have hafter : 0 ∉ after := fun h ↦ h0 (by simp [h])
        have hnext := ih after.length hless hafter hsize' hstart hleft (by rw [hwhole]; exact hlast) rfl
        rw [hwhole, htotal] at hnext
        exact hnext
      · refine ⟨fun hshort ↦ ?_, fun _ ↦ hphysical.2 (not_lt.mp hroom)⟩
        omega

end Bsh.Shell
