import Bsh.Client.RegisterFrame
import Bsh.Client.Text

/-!
# Looking up a field

What `link_json_field_str` finds in a flat object.  It reads the string behind the first place where
the key stands in quotes, which need not be the key of a member: that string is the value of the
member exactly if its key is written as it is spelled, fits into `needle`, and does not stand in
quotes before.
-/

namespace Bsh.Client

open Bsh.Library Bytes JsonGrammar List

/-! ## Blanks -/

theorem isJsonBlank_iff (c : UInt8) :
    isJsonBlank c = true ↔ c = 0x20 ∨ c = 0x09 ∨ c = 0x0A ∨ c = 0x0D := by
  simp [isJsonBlank, or_assoc]

variable {a json key t text : Bytes} {cap n : ℕ}

theorem dropWhile_blanks (ha : Blanks a)
    (ht : ∀ c, t.head? = some c → isJsonBlank c = false) :
    (a ++ t).dropWhile isJsonBlank = t := by
  induction a with
  | nil =>
    cases t with
    | nil => rfl
    | cons c t => rw [nil_append, dropWhile_cons, ht c rfl, if_neg Bool.false_ne_true]
  | cons c a ih =>
    have hc : isJsonBlank c = true := (isJsonBlank_iff c).mpr (ha c mem_cons_self)
    rw [cons_append, dropWhile_cons, hc, if_pos rfl]
    exact ih fun d hd ↦ ha d (mem_cons_of_mem c hd)

theorem exists_blanks (t : Bytes) : ∃ a, Blanks a ∧ t = a ++ t.dropWhile isJsonBlank := by
  refine ⟨t.takeWhile isJsonBlank, ?_, (takeWhile_append_dropWhile).symm⟩
  intro c hc
  exact (isJsonBlank_iff c).mp (List.all_eq_true.mp all_takeWhile c hc)

/-- Behind a key, blanks and a colon lead to the value. -/
def LeadsTo (rest value : Bytes) : Prop :=
  ∃ a b, Blanks a ∧ Blanks b ∧ rest = a ++ 0x3A :: (b ++ value)

theorem linkJsonLocate_eq_some {value : Bytes}
    (h : linkJsonLocate json key = some value) : key.length + 2 < 256 ∧
      ∃ rest, FirstPlace (quoted key) json rest ∧ LeadsTo rest value := by
  have hne : quoted key ≠ [] := nofun
  rw [linkJsonLocate] at h
  split at h
  · exact nomatch h
  · next hlength =>
    refine ⟨by omega, ?_⟩
    split at h
    · exact nomatch h
    · next found hfound =>
      obtain ⟨rest, rfl, hfirst⟩ := (strstr_eq_some_iff hne).mp hfound
      have hdrop : (quoted key ++ rest).drop (key.length + 2) = rest :=
        drop_left' (by simp [quoted])
      rw [hdrop] at h
      obtain ⟨a, ha, hrest⟩ := exists_blanks rest
      split at h
      · exact nomatch h
      · next c value' hcolon =>
        split at h
        · next hc =>
          obtain ⟨b, hb, hvalue⟩ := exists_blanks value'
          rw [Option.some.injEq] at h
          refine ⟨rest, hfirst, a, b, ha, hb, ?_⟩
          rw [← h, ← hvalue, ← hc, ← hcolon]
          exact hrest
        · exact nomatch h

theorem linkJsonLocate_of_leadsTo {rest value : Bytes} (hlength : key.length + 2 < 256)
    (hfirst : FirstPlace (quoted key) json rest) (hrest : LeadsTo rest value)
    (hvalue : ∀ c, value.head? = some c → isJsonBlank c = false) :
    linkJsonLocate json key = some value := by
  have hne : quoted key ≠ [] := nofun
  have hfound := (strstr_eq_some_iff hne).mpr ⟨rest, rfl, hfirst⟩
  have hdrop : (quoted key ++ rest).drop (key.length + 2) = rest :=
    drop_left' (by simp [quoted])
  obtain ⟨a, b, ha, hb, rfl⟩ := hrest
  have hcolon : ∀ c, (0x3A :: (b ++ value)).head? = some c → isJsonBlank c = false := by
    intro c hc
    obtain rfl : 0x3A = c := by simpa using hc
    rfl
  rw [linkJsonLocate, if_neg (by omega), hfound]
  simp only [hdrop]
  rw [dropWhile_blanks ha hcolon]
  simp only [if_true]
  rw [dropWhile_blanks hb hvalue]

/-! ## The reading loop -/

theorem unescapeByte_self {c : UInt8} (h : c = 0x22 ∨ c = 0x5C ∨ c = 0x2F) :
    c ≠ 0x75 ∧ unescapeByte c = c := by
  rcases h with rfl | rfl | rfl <;> decide

theorem readField_spells {body : Bytes} (h : Spells body text) {out : Bytes}
    (hcap : out.length + text.length < cap) (tail : Bytes) :
    readField cap .plain out (body ++ quote :: tail) = .ok (out.reverse ++ text) := by
  induction h generalizing out with
  | nil => rw [nil_append, readField, if_pos rfl, append_nil]
  | @plain c body text hquote hbackslash _ ih =>
    rw [length_cons] at hcap
    rw [cons_append, readField, if_neg hquote, if_neg hbackslash, if_neg (by omega),
      ih (by rw [length_cons]; omega), reverse_cons, append_assoc]
    rfl
  | @escape c body text hc _ ih =>
    obtain ⟨hu, hself⟩ := unescapeByte_self hc
    rw [length_cons] at hcap
    rw [cons_append, cons_append, readField, if_neg (by decide), if_pos rfl, readField,
      if_neg hu, if_neg (by omega), hself, ih (by rw [length_cons]; omega), reverse_cons,
      append_assoc]
    rfl

theorem spells_of_readField (ht : Steps t) {out result : Bytes}
    (h : readField cap .plain out t = .ok result) :
    ∃ body text tail, t = body ++ quote :: tail ∧ Spells body text ∧
      result = out.reverse ++ text := by
  induction ht generalizing out with
  | nil => exact nomatch h
  | @plain c rest hbackslash _ ih =>
    rw [readField] at h
    split at h
    · next hquote =>
      cases h
      exact ⟨[], [], rest, by rw [hquote]; rfl, .nil, (append_nil _).symm⟩
    · next hquote =>
      split at h
      · exact nomatch h
      · obtain ⟨body, text, tail, rfl, hspells, rfl⟩ := ih h
        exact ⟨c :: body, c :: text, tail, rfl, .plain hquote hbackslash hspells, by simp⟩
  | @escape c rest hc _ ih =>
    obtain ⟨hu, hself⟩ := unescapeByte_self hc
    rw [readField, if_neg (by decide), if_pos rfl, readField, if_neg hu] at h
    split at h
    · exact nomatch h
    · rw [hself] at h
      obtain ⟨body, text, tail, rfl, hspells, rfl⟩ := ih h
      exact ⟨0x5C :: c :: body, c :: text, tail, rfl, .escape hc hspells, by simp⟩

/-! ## The first place of the key -/

/-- The first place of a quoted key is followed by a colon and a string that spells a text. -/
def ReadsFirst (json key text : Bytes) : Prop :=
  key.length + 2 < 256 ∧ ∃ rest body tail, FirstPlace (quoted key) json rest ∧
    LeadsTo rest (quoted body ++ tail) ∧ Spells body text

theorem linkJsonFieldStr_of_readsFirst (h : ReadsFirst json key text) (hcap : text.length < cap) : linkJsonFieldStr json key cap = some text := by
  obtain ⟨hlength, rest, body, tail, hfirst, hrest, hspells⟩ := h
  have hquote : ∀ c, (quoted body ++ tail).head? = some c → isJsonBlank c = false := by
    intro c hc
    obtain rfl : quote = c := by simpa [quoted] using hc
    rfl
  have hlocate := linkJsonLocate_of_leadsTo hlength hfirst hrest hquote
  have hread : readField cap .plain [] (body ++ quote :: tail) = .ok text :=
    readField_spells hspells (by simpa using hcap) tail
  have hsplit : quoted body ++ tail = quote :: (body ++ quote :: tail) := by simp [quoted]
  rw [hsplit] at hlocate
  rw [linkJsonFieldStr, fieldBuffer, hlocate]
  simp only [if_true]
  rw [hread]

theorem readsFirst_of_linkJsonFieldStr (hjson : Steps json)
    (h : linkJsonFieldStr json key cap = some text) : ReadsFirst json key text := by
  rw [linkJsonFieldStr] at h
  split at h
  · next result hbuffer =>
    rw [Option.some.injEq] at h
    rw [fieldBuffer] at hbuffer
    split at hbuffer
    · next c value hlocate =>
      split at hbuffer
      · next hc =>
        obtain ⟨hlength, rest, hfirst, hleads⟩ := linkJsonLocate_eq_some hlocate
        obtain ⟨a, b, ha, hb, hrest⟩ := hleads
        obtain ⟨before, htext, hleast⟩ := hfirst
        have hsteps : Steps value := by
          apply Steps.behind_quote (a := before ++ quoted key ++ a ++ 0x3A :: b)
          rw [htext, hrest, hc] at hjson
          simpa using hjson
        obtain ⟨body, text', tail, rfl, hspells, hresult⟩ := spells_of_readField hsteps hbuffer
        obtain rfl : text = text' := by
          rw [← h, hresult]
          rfl
        refine ⟨hlength, rest, body, tail, ⟨before, htext, hleast⟩, ⟨a, b, ha, hb, ?_⟩, hspells⟩
        rw [hrest, hc]
        simp [quoted]
      · cases hbuffer
    · cases hbuffer
  · cases h

/-! ## The member's own key -/

/-- The text before the key of a member. -/
def textBefore (pre : List FlatMember) (m : FlatMember) : Bytes :=
  0x7B :: FlatMember.printBefore pre ++ m.before

/-- The key of the member is the first place of the quoted key. -/
structure KeyFirst (pre : List FlatMember) (m : FlatMember) (key : Bytes) : Prop where
  verbatim : m.key = key
  fits : key.length + 2 < 256
  first : ¬ quoted key <:+: textBefore pre m ++ [quote]

theorem flatText_withString (blank : Bytes) (pre : List FlatMember) (m : FlatMember)
    (post : List FlatMember) (body text : Bytes) (hbody : StringBody body)
    (htext : Spells body text) :
    flatText blank (pre ++ m.withString body text hbody htext :: post) =
      textBefore pre m ++ quoted m.key ++ (m.middle ++ 0x3A :: (m.after ++ (quoted body ++
        (m.behind ++ FlatMember.printBehind post ++ [0x7D])))) := by
  have hne : pre ++ m.withString body text hbody htext :: post ≠ [] := by simp
  rw [flatText, if_neg hne, FlatMember.printAll_append]
  simp [FlatMember.print, FlatMember.withString, FlatValue.print, memberText, textBefore]

/-- A quoted word without quotes that begins before a quote ends there at the latest. -/
theorem infix_of_early {own rest early late : Bytes} (hkey : QuoteFree key)
    (h : own ++ quote :: rest = early ++ quoted key ++ late) (hearly : early.length < own.length) :
    quoted key <:+: own ++ [quote] := by
  have hfits : (early ++ quoted key).length ≤ (own ++ [quote]).length := by
    by_contra hlong
    have hlength : (early ++ quoted key).length = early.length + key.length + 2 := by
      simp [quoted, Nat.add_assoc]
    rw [hlength, length_append, length_singleton] at hlong
    have hat : (early ++ quoted key ++ late)[own.length]? = some quote := by
      rw [← h, List.getElem?_append_right (Nat.le_refl _), Nat.sub_self]
      rfl
    have hin : key[own.length - early.length - 1]? = some quote := by
      have hindex : own.length - early.length = (own.length - early.length - 1) + 1 := by omega
      rw [append_assoc, List.getElem?_append_right (by omega), quoted, cons_append,
        cons_append, hindex, List.getElem?_cons_succ, append_assoc,
        List.getElem?_append_left (by omega)] at hat
      exact hat
    exact hkey quote (mem_of_getElem? hin) rfl
  have hsplit : own ++ quote :: rest = (own ++ [quote]) ++ rest := by simp
  rw [hsplit] at h
  have hfront : early ++ quoted key <+: own ++ [quote] :=
    prefix_of_prefix_length_le ⟨late, h.symm⟩ ⟨rest, rfl⟩ hfits
  exact (suffix_append early (quoted key)).isInfix.trans hfront.isInfix

/-- If its key comes first, the value of a member is read. -/
theorem KeyFirst.readsFirst {pre : List FlatMember} {m : FlatMember}
    (h : KeyFirst pre m key) (hname : m.name = key) (blank : Bytes) (post : List FlatMember)
    {body : Bytes} (hbody : StringBody body) (htext : Spells body text) :
    ReadsFirst (flatText blank (pre ++ m.withString body text hbody htext :: post)) key text := by
  obtain ⟨rfl, hfits, hfirst⟩ := h
  have hfree : QuoteFree m.key := m.key_name.quoteFree (by rw [hname])
  refine ⟨hfits, _, body, m.behind ++ FlatMember.printBehind post ++ [0x7D],
    ⟨textBefore pre m, flatText_withString .., ?_⟩, ⟨m.middle, m.after, m.blanks.2.1,
      m.blanks.2.2.1, rfl⟩, htext⟩
  intro early late hsplit
  by_contra hearly
  rw [flatText_withString] at hsplit
  have hquote : textBefore pre m ++ quote :: (m.key ++ quote :: (m.middle ++ 0x3A :: (m.after ++
      (quoted body ++ (m.behind ++ FlatMember.printBehind post ++ [0x7D]))))) =
        early ++ quoted m.key ++ late := by
    rw [← hsplit]
    simp [quoted]
  exact hfirst (infix_of_early hfree hquote (by omega))

/-- A long run of one letter between quotes is at one place of a text only. -/
theorem run_length_le {x q : UInt8} (hne : x ≠ q) {u v w w' : Bytes}
    (h : u ++ List.replicate n x ++ w = v ++ [q] ++ List.replicate n x ++ w')
    (hlong : u.length + w.length < n) : (v ++ [q]).length ≤ u.length := by
  by_contra hlt
  have hlength := congrArg List.length h
  simp only [length_append, List.length_replicate, length_singleton] at hlength hlt
  have hrun : (u ++ List.replicate n x ++ w)[v.length]? = some x := by
    rw [append_assoc, List.getElem?_append_right (by omega),
      List.getElem?_append_left (by rw [List.length_replicate]; omega),
      List.getElem?_replicate_of_lt (by omega)]
  have hquote : (v ++ [q] ++ List.replicate n x ++ w')[v.length]? = some q := by
    simp
  rw [h, hquote, Option.some.injEq] at hrun
  exact hne hrun.symm

theorem run_unique {x q : UInt8} (hne : x ≠ q) {u v w w' : Bytes}
    (h : u ++ [q] ++ List.replicate n x ++ w = v ++ [q] ++ List.replicate n x ++ w')
    (hlong : u.length + w.length + 1 < n) : u = v := by
  have hlength := congrArg List.length h
  simp only [length_append, List.length_replicate, length_singleton] at hlength
  have hle := run_length_le hne h (by simp only [length_append, length_singleton]; omega)
  have hge := run_length_le hne h.symm
    (by simp only [length_append, length_singleton]; omega)
  have heq : (u ++ [q]).length = (v ++ [q]).length := Nat.le_antisymm hge hle
  rw [append_assoc, append_assoc (v ++ [q])] at h
  exact append_cancel_right (append_inj_left h heq)

theorem last_quote {b t' : Bytes} (ht : QuoteFree t) (ht' : QuoteFree t')
    (h : a ++ quote :: t = b ++ quote :: t') : a = b := by
  rcases List.append_eq_append_iff.mp h with ⟨z, rfl, hz⟩ | ⟨z, rfl, hz⟩
  · cases z with
    | nil => exact (append_nil a).symm
    | cons c z =>
      obtain ⟨-, hrest⟩ := List.cons.inj hz
      exact absurd rfl (ht quote (by simp [hrest]))
  · cases z with
    | nil => exact append_nil b
    | cons c z =>
      obtain ⟨-, hrest⟩ := List.cons.inj hz
      exact absurd rfl (ht' quote (by simp [hrest]))

theorem quoteFree_colon {b : Bytes} (ha : Blanks a) (hb : Blanks b) :
    QuoteFree (a ++ 0x3A :: b) := by
  intro c hc
  rcases List.mem_append.mp hc with hc | hc
  · exact (ha.inert c hc).1
  · rcases List.mem_cons.mp hc with rfl | hc
    · decide
    · exact (hb.inert c hc).1

/-- The quotes of a key tell it from the key that it spells, unless both are the same. -/
theorem eq_of_quote {own before name : Bytes} (hspells : Spells key name)
    (h : own ++ quote :: key = before ++ quote :: name) : own = before ∧ key = name := by
  rcases List.append_eq_append_iff.mp h with ⟨z, rfl, hz⟩ | ⟨z, rfl, hz⟩
  · cases z with
    | nil => exact ⟨(append_nil own).symm, (List.cons.inj hz).2⟩
    | cons c z =>
      have hrest : key = z ++ quote :: name := (List.cons.inj hz).2
      have hcount := hspells.count_quote
      rw [hrest, count_append, count_cons_self] at hcount
      omega
  · cases z with
    | nil => exact ⟨append_nil before, (List.cons.inj hz).2.symm⟩
    | cons c z =>
      have hrest : name = z ++ quote :: key := (List.cons.inj hz).2
      have hlength := congrArg List.length hrest
      have hle := hspells.length_le
      rw [length_append, length_cons] at hlength
      omega

/-- A letter that is spelled as itself. -/
def letter : UInt8 := 0x78

theorem stringBody_letters (n : ℕ) : StringBody (List.replicate n letter) := by
  induction n with
  | zero => exact .nil
  | succ n ih => exact .unescaped (by decide) (by decide) (by decide) ih

theorem spells_letters (n : ℕ) : Spells (List.replicate n letter) (List.replicate n letter) := by
  apply Spells.of_forall
  intro c hc
  rw [eq_of_mem_replicate hc]
  decide

/-- If a long string is read, the key of its member comes first. -/
theorem keyFirst_of_readsFirst {pre : List FlatMember} {m : FlatMember} {blank : Bytes}
    {post : List FlatMember} (hname : m.name = key)
    (hn : (flatText blank (pre ++ m.withString [] [] .nil .nil :: post)).length + 10 < n)
    (h : ReadsFirst (flatText blank (pre ++ m.withString (List.replicate n letter)
      (List.replicate n letter) (stringBody_letters n) (spells_letters n) :: post)) key
        (List.replicate n letter)) : KeyFirst pre m key := by
  obtain ⟨hfits, rest, body, tail, ⟨before, htext, hleast⟩, ⟨a, b, ha, hb, hrest⟩, hspells⟩ := h
  obtain rfl := hspells.eq_replicate (by decide)
  have hown := flatText_withString blank pre m post _
    _ (stringBody_letters n) (spells_letters n)
  rw [flatText_withString] at hn
  simp only [length_append, length_cons, quoted, length_nil] at hn
  have hruns : (textBefore pre m ++ quoted m.key ++ (m.middle ++ 0x3A :: m.after)) ++ [quote] ++
      List.replicate n letter ++ (quote :: (m.behind ++ FlatMember.printBehind post ++ [0x7D])) =
        (before ++ quoted key ++ (a ++ 0x3A :: b)) ++ [quote] ++ List.replicate n letter ++
          (quote :: tail) := by
    rw [hrest] at htext
    rw [htext] at hown
    simpa [quoted] using hown.symm
  have hplaces := run_unique (by decide) hruns (by
    simp only [length_append, length_cons, quoted, length_nil]
    omega)
  have hquotes : textBefore pre m ++ quote :: m.key = before ++ quote :: key := by
    apply last_quote (quoteFree_colon m.blanks.2.1 m.blanks.2.2.1) (quoteFree_colon ha hb)
    simpa [quoted] using hplaces
  obtain ⟨rfl, hkey⟩ := eq_of_quote (hname ▸ m.key_name) hquotes
  refine ⟨hkey, hfits, ?_⟩
  rintro ⟨early, late, hearly⟩
  have hsplit : flatText blank (pre ++ m.withString (List.replicate n letter)
      (List.replicate n letter) (stringBody_letters n) (spells_letters n) :: post) =
        early ++ quoted key ++ (late ++ (key ++ quote :: rest)) := by
    rw [htext, ← append_assoc, hearly]
    simp [quoted]
  have hle := hleast _ _ hsplit
  have hlength := congrArg List.length hearly
  simp only [length_append, length_cons, quoted, length_nil] at hlength
  omega

/-- For a key that names a string member of an object, the decoded value of the member is read
whatever it is, exactly if the key of the member comes first in the text.  For a key that names no
member nothing is read, exactly if no colon and string follow the first place of the quoted key. -/
theorem linkJsonFieldStr_flat {blank : Bytes} (hblank : Blanks blank) (key : Bytes) :
    (∀ (pre : List FlatMember) (m : FlatMember) (post : List FlatMember), m.name = key →
      ((∀ (body text : Bytes) (hbody : StringBody body) (htext : Spells body text) (cap : ℕ),
        text.length < cap →
          linkJsonFieldStr (flatText blank (pre ++ m.withString body text hbody htext :: post))
            key cap = some text) ↔ KeyFirst pre m key)) ∧
    ∀ members : List FlatMember, (∀ m ∈ members, m.name ≠ key) →
      ((∀ cap, linkJsonFieldStr (flatText blank members) key cap = none) ↔
        ¬ ∃ text, ReadsFirst (flatText blank members) key text) := by
  refine ⟨fun pre m post hname ↦ ⟨fun hall ↦ ?_, fun hfirst ↦ ?_⟩, fun members _ ↦ ⟨?_, ?_⟩⟩
  · let n := (flatText blank (pre ++ m.withString [] [] .nil .nil :: post)).length + 11
    have hread := hall _ _ (stringBody_letters n) (spells_letters n) (n + 1) (by simp)
    exact keyFirst_of_readsFirst hname (Nat.lt_succ_self _)
      (readsFirst_of_linkJsonFieldStr (steps_flatText hblank _) hread)
  · intro body text hbody htext cap hcap
    exact linkJsonFieldStr_of_readsFirst (hfirst.readsFirst hname blank post hbody htext) hcap
  · rintro hnone ⟨text, hreads⟩
    have hsome := linkJsonFieldStr_of_readsFirst hreads (Nat.lt_succ_self text.length)
    rw [hnone] at hsome
    exact nomatch hsome
  · intro hnot cap
    cases hread : linkJsonFieldStr _ key cap with
    | none => rfl
    | some text =>
      exact absurd ⟨text, readsFirst_of_linkJsonFieldStr (steps_flatText hblank _) hread⟩ hnot

/-- A member without blanks whose key is one letter. -/
def letterMember (c : UInt8) (hbody : StringBody [c]) (hspells : Spells [c] [c])
    (value : FlatValue) : FlatMember :=
  ⟨[], [c], [], [], value, [], [c], by decide, hbody, hspells⟩

theorem plainLetter {c : UInt8} (h : 0x20 ≤ c ∧ c ≠ 0x22 ∧ c ≠ 0x5C) :
    StringBody [c] ∧ Spells [c] [c] :=
  ⟨.unescaped h.1 h.2.1 h.2.2 .nil, .plain h.2.1 h.2.2 .nil⟩

/-- The object `{"k":"v"}`. -/
theorem linkJsonFieldStr_flat_first :
    linkJsonFieldStr (ascii "\x7b\"k\":\"v\"\x7d") (ascii "k") 16 = some (ascii "v") ∧
      ∀ cap, linkJsonFieldStr (ascii "\x7b\"k\":\"v\"\x7d") (ascii "j") cap = none := by
  have hk := plainLetter (c := 0x6B) (by decide)
  have hv := plainLetter (c := 0x76) (by decide)
  have hfirst : KeyFirst [] (letterMember 0x6B hk.1 hk.2 (.string _ _ hv.1 hv.2)) (ascii "k") :=
    ⟨rfl, by decide, by change ¬ ascii "\"k\"" <:+: ascii "\x7b\""; decide⟩
  have hblank : Blanks [] := by decide
  refine ⟨((linkJsonFieldStr_flat hblank (ascii "k")).1 [] _ [] rfl).mpr hfirst _ _ hv.1 hv.2 16
    (by decide), ?_⟩
  have hnone := (linkJsonFieldStr_flat hblank (ascii "j")).2
    [letterMember 0x6B hk.1 hk.2 (.string _ _ hv.1 hv.2)] (by simp [letterMember, ascii])
  refine hnone.mpr ?_
  rintro ⟨text, -, rest, body, tail, ⟨before, htext, -⟩, -⟩
  have hocc : ascii "\"j\"" <:+: ascii "\x7b\"k\":\"v\"\x7d" := ⟨before, rest, htext.symm⟩
  exact absurd hocc (by decide)

/-- The object `{"a":"k","k":"v"}`: the value of another member is taken for the key. -/
theorem not_linkJsonFieldStr_flat : ∃ a k : FlatMember, a.name = ascii "a" ∧ k.name = ascii "k" ∧
    (∃ hbody htext, k.value = .string (ascii "v") (ascii "v") hbody htext) ∧
      flatText [] [a, k] = ascii "\x7b\"a\":\"k\",\"k\":\"v\"\x7d" ∧
        ∀ cap, linkJsonFieldStr (flatText [] [a, k]) (ascii "k") cap = none := by
  have ha := plainLetter (c := 0x61) (by decide)
  have hk := plainLetter (c := 0x6B) (by decide)
  have hv := plainLetter (c := 0x76) (by decide)
  exact ⟨letterMember 0x61 ha.1 ha.2 (.string _ _ hk.1 hk.2),
    letterMember 0x6B hk.1 hk.2 _, rfl, rfl, ⟨hv.1, hv.2, rfl⟩, rfl,
    fun _ ↦ rfl⟩

end Bsh.Client
