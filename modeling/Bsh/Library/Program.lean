import Mathlib.Tactic.Basic

/-!
# Programs with a state and early exits

A program reads and changes a state and ends with a value or with an error; an error does not undo
what happened before it.  Two kinds of rules go with it.  The execution rules follow a run from a
known state.  `Holds` is the usual triple for a run from any state that meets a precondition, and
`Changes` a relation between the states before and after that composes.
-/

namespace Bsh.Library

/-- A program with state `σ`, errors `ε` and result `α`. -/
def Program (σ ε α : Type) : Type := σ → Except ε α × σ

namespace Program

variable {σ ε α β : Type}

instance : Monad (Program σ ε) where
  pure a := fun s ↦ (.ok a, s)
  bind m f := fun s ↦
    match m s with
    | (.ok a, s) => f a s
    | (.error e, s) => (.error e, s)

/-- Stop with an error. -/
def fail (e : ε) : Program σ ε α := fun s ↦ (.error e, s)

/-- A step that always ends with a value. -/
def ofStep (step : σ → α × σ) : Program σ ε α := fun s ↦ (.ok (step s).1, (step s).2)

/-- Read the state. -/
def read (f : σ → α) : Program σ ε α := fun s ↦ (.ok (f s), s)

def modify (f : σ → σ) : Program σ ε Unit := fun s ↦ (.ok (), f s)

/-- A value that may be missing. -/
def require (e : ε) : Option α → Program σ ε α
  | some a => pure a
  | none => fail e

/-- A condition that must hold. -/
def check (e : ε) (condition : Bool) : Program σ ε Unit :=
  if condition then pure () else fail e

/-! ## Execution -/

theorem pure_apply (a : α) (s : σ) : (pure a : Program σ ε α) s = (.ok a, s) := rfl

theorem bind_ok {m : Program σ ε α} {f : α → Program σ ε β} {s s' : σ} {a : α}
    (h : m s = (.ok a, s')) : (m >>= f) s = f a s' := by
  simp only [bind, h]

theorem bind_error {m : Program σ ε α} {f : α → Program σ ε β} {s s' : σ} {e : ε}
    (h : m s = (.error e, s')) : (m >>= f) s = (.error e, s') := by
  simp only [bind, h]

/-! ## Triples -/

/-- Every run from a state that meets `pre` that ends with a value ends as `post` says. -/
def Holds (pre : σ → Prop) (m : Program σ ε α) (post : α → σ → Prop) : Prop :=
  ∀ s a s', pre s → m s = (.ok a, s') → post a s'

variable {pre : σ → Prop} {m : Program σ ε α} {post : α → σ → Prop}

theorem holds_any : Holds pre m fun _ _ ↦ True := fun _ _ _ _ _ ↦ trivial

theorem holds_pure {a : α} (h : ∀ s, pre s → post a s) :
    Holds pre (pure a : Program σ ε α) post := by
  intro s b s' hs hrun
  cases hrun
  exact h s hs

theorem holds_fail {e : ε} : Holds pre (fail e : Program σ ε α) post := by
  intro s a s' _ hrun
  cases hrun

theorem holds_read {f : σ → α} (h : ∀ s, pre s → post (f s) s) :
    Holds pre (read f : Program σ ε α) post := by
  intro s a s' hs hrun
  cases hrun
  exact h s hs

theorem holds_check {e : ε} {condition : Bool} {post : Unit → σ → Prop}
    (h : condition = true → ∀ s, pre s → post () s) :
    Holds pre (check e condition : Program σ ε Unit) post := by
  cases condition with
  | true => exact holds_pure (h rfl)
  | false => exact holds_fail

theorem holds_bind {f : α → Program σ ε β} {post : β → σ → Prop} (mid : α → σ → Prop)
    (hm : Holds pre m mid) (hf : ∀ a, Holds (mid a) (f a) post) : Holds pre (m >>= f) post := by
  intro s b s' hs hrun
  simp only [bind] at hrun
  generalize hfirst : m s = r at hrun
  obtain ⟨r, s₁⟩ := r
  cases r with
  | ok a => exact hf a s₁ b s' (hm s a s₁ hs hfirst) hrun
  | error e => cases hrun

/-! ## Relations between the states before and after -/

/-- Every run changes the state as the relation allows. -/
def Changes (R : σ → σ → Prop) (m : Program σ ε α) : Prop := ∀ s, R s (m s).2

variable {R : σ → σ → Prop}

theorem changes_pure (hrefl : ∀ s, R s s) (a : α) : Changes R (pure a : Program σ ε α) := hrefl

theorem changes_fail (hrefl : ∀ s, R s s) (e : ε) : Changes R (fail e : Program σ ε α) := hrefl

theorem changes_read (hrefl : ∀ s, R s s) (f : σ → α) : Changes R (read f : Program σ ε α) := hrefl

theorem changes_require (hrefl : ∀ s, R s s) (e : ε) (o : Option α) :
    Changes R (require e o : Program σ ε α) := by
  intro s
  cases o <;> exact hrefl s

theorem changes_check (hrefl : ∀ s, R s s) (e : ε) (condition : Bool) :
    Changes R (check e condition : Program σ ε Unit) := by
  intro s
  rw [check]
  split <;> exact hrefl s

theorem changes_bind (htrans : ∀ a b c, R a b → R b c → R a c) (hm : Changes R m)
    {f : α → Program σ ε β} (hf : ∀ a, Changes R (f a)) : Changes R (m >>= f) := by
  intro s
  have hrun := hm s
  simp only [bind]
  generalize m s = r at hrun ⊢
  obtain ⟨r, s'⟩ := r
  cases r with
  | ok a => exact htrans _ _ _ hrun (hf a s')
  | error e => exact hrun

end Program

end Bsh.Library
