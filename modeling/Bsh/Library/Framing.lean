import Bsh.Library.Bytes

/-!
# Messages that end with a terminator

`cut` splits a buffer after every occurrence of a terminator byte.  What follows the last
terminator stays in the buffer, and cutting a longer buffer later gives the same messages: a stream
may arrive in pieces of any size.
-/

namespace Bsh.Library.Framing

open List

variable {terminator : UInt8}

/-- The messages of a buffer, terminators included, and the part after the last terminator. -/
def cut (terminator : UInt8) : Bytes → List Bytes × Bytes
  | [] => ([], [])
  | c :: rest =>
    if c = terminator then ([c] :: (cut terminator rest).1, (cut terminator rest).2)
    else
      match cut terminator rest with
      | ([], left) => ([], c :: left)
      | (message :: messages, left) => ((c :: message) :: messages, left)

theorem length_cut (text : Bytes) : (cut terminator text).1.length = text.count terminator := by
  induction text with
  | nil => rfl
  | cons c rest ih =>
    rw [cut]
    split
    · next hc => simp [hc, ih]
    · next hc =>
      have hcount : (c :: rest).count terminator = rest.count terminator := by
        simp [hc]
      rw [hcount, ← ih]
      cases hsplit : cut terminator rest with
      | mk messages left => cases messages <;> rfl

theorem flatten_cut (text : Bytes) :
    (cut terminator text).1.flatten ++ (cut terminator text).2 = text := by
  induction text with
  | nil => rfl
  | cons c rest ih =>
    rw [cut]
    split
    · simpa using ih
    · cases hsplit : cut terminator rest with
      | mk messages left =>
        rw [hsplit] at ih
        cases messages with
        | nil => simpa using ih
        | cons message messages => simpa using ih

theorem cut_cons_of_ne {c : UInt8} (hc : c ≠ terminator) {text message : Bytes}
    {messages : List Bytes} {left : Bytes}
    (h : cut terminator text = (message :: messages, left)) :
    cut terminator (c :: text) = ((c :: message) :: messages, left) := by
  rw [cut, if_neg hc, h]

theorem cut_append_terminator {text : Bytes} (h : terminator ∉ text) (rest : Bytes) :
    cut terminator (text ++ terminator :: rest) =
      ((text ++ [terminator]) :: (cut terminator rest).1, (cut terminator rest).2) := by
  induction text with
  | nil => rw [nil_append, cut, if_pos rfl, nil_append]
  | cons c text ih =>
    rw [mem_cons, not_or] at h
    rw [cons_append, cut_cons_of_ne (fun heq ↦ h.1 heq.symm) (ih h.2), cons_append]

theorem cut_single {text : Bytes} (h : terminator ∉ text) :
    cut terminator (text ++ [terminator]) = ([text ++ [terminator]], []) :=
  cut_append_terminator h []

end Bsh.Library.Framing
