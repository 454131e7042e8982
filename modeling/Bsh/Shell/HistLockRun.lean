import Bsh.Shell.HistLock

/-!
# When the lock on the history file is one

A shell that is between a call of `lockhistfile` that returned 0 and the unlock that goes with it holds
the lock, unless a step has gone wrong before: `flockhistfile` has failed, `lstat` has failed on the
link, a link of a running shell has been taken for a stale one, or calls for different files have been
nested.
-/

namespace Bsh.Shell

open Bsh.Library List

namespace LockWorld

variable {ι F : Type*}

/-! ## Holding the lock -/

/-- The shell that made the link. -/
def ownerOf (w : LockWorld ι F) (fn : F) : Option ι := (w.lockfile fn).bind HistLink.owner

def Holds (w : LockWorld ι F) (i : ι) (fn : F) : Prop := w.ownerOf fn = some i ∨ w.flock fn = some i

/-- The locks agree with what the calls of the shells have returned. -/
structure Sound (w : LockWorld ι F) : Prop where
  /-- The counter is the number of calls to undo. -/
  counted : ∀ i, (w.shell i).pc = .idle → (w.shell i).lockhistct = (w.shell i).depth
  released : ∀ i, (w.shell i).pc = .idle → (w.shell i).depth = 0 → ∀ fn, ¬ w.Holds i fn
  held : ∀ i fn kind, (w.shell i).inForce = some (fn, kind) → w.Holds i fn ∨ kind = .missing
  exclusive : ∀ i j fn, (w.shell i).inForce = some (fn, .link) →
    (w.shell j).inForce = some (fn, .link) → i = j

/-- A call that returns 0 has the lock, or there is no file to lock; one that fails leaves the counter
as it was. -/
structure Truthful (w : LockWorld ι F) (reply : LockReply ι F) : Prop where
  granted : reply.ret = 0 → ∃ fn, reply.fn = some fn ∧ (w.Holds reply.shell fn ∨
    (w.shell reply.shell).inForce = some (fn, .missing) ∧ w.present fn = false)
  refused : reply.ret ≠ 0 → (w.shell reply.shell).lockhistct = reply.ct

/-- What must not happen in a step. -/
def Orderly (w : LockWorld ι F) : LockEvent ι F → Prop
  -- A nested call is for the same file, and if that did not exist, it still does not.
  | .lockhistfile i fn _ _ => ∀ held kind, (w.shell i).inForce = some (held, kind) →
    (fn = none ∨ fn = some held) ∧ (kind = .missing → w.present held = false)
  | .symlink _ _ _ => True
  | .lstat _ _ fails => fails = false
  -- What is unlinked as stale is no link of a running shell.
  | .unlink i _ => ∀ attempt, (w.shell i).pc = .unlink attempt → w.ownerOf attempt.fn = none
  | .openFile _ fails => fails = false
  | .fcntl _ fails => fails = false
  -- The last unlock is for the same file, and finds no link of another shell beside the file.
  | .unlockhistfile i fn fails => ∀ held kind, (w.shell i).inForce = some (held, kind) →
    fn.isSome = true ∧ ((w.shell i).depth = 1 → fn = some held ∧ fails = false ∧
      (kind ≠ .link → ∀ j, j ≠ i → w.ownerOf held ≠ some j))
  | .crash _ => True
  | .present _ _ => True

/-! ## The invariant -/

/-- A shell inside of `lockhistfile`. -/
structure Trying (s : LockShell F) (attempt : LockAttempt F) (fd : Option F) : Prop where
  lockhistct : s.lockhistct = 1
  depth : s.depth = 0
  ct : attempt.ct = 0
  inForce : s.inForce = none
  flockFd : s.flockFd = fd

/-- A shell between its calls. -/
structure Between (w : LockWorld ι F) (i : ι) (s : LockShell F) : Prop where
  lockhistct : s.lockhistct = s.depth
  free : s.inForce = none → s.depth = 0 ∧ s.flockFd = none
  entitled : ∀ fn kind, s.inForce = some (fn, kind) → 0 < s.depth
  link : ∀ fn, s.inForce = some (fn, .link) → s.flockFd = none ∧ w.ownerOf fn = some i
  fcntl : ∀ fn, s.inForce = some (fn, .fcntl) → s.flockFd = some fn ∧ w.flock fn = some i
  missing : ∀ fn, s.inForce = some (fn, .missing) → s.flockFd = none

def ShellFits (w : LockWorld ι F) (i : ι) : Prop :=
  match (w.shell i).pc with
  | .idle => Between w i (w.shell i)
  | .symlink attempt | .lstat attempt | .unlink attempt | .openFile attempt =>
    Trying (w.shell i) attempt none
  | .fcntl attempt => Trying (w.shell i) attempt (some attempt.fn)

structure LockInv (w : LockWorld ι F) : Prop where
  shells : ∀ i, w.ShellFits i
  links : ∀ fn i, w.ownerOf fn = some i → (w.shell i).pc = .idle ∧
    (w.shell i).inForce = some (fn, .link)
  flocks : ∀ fn i, w.flock fn = some i → (w.shell i).pc = .idle ∧
    (w.shell i).inForce = some (fn, .fcntl)

theorem lockInv_start (left : F → Option ℤ) (present : F → Bool) :
    LockInv (start left present : LockWorld ι F) := by
  refine ⟨fun i ↦ ?_, fun fn i hfn ↦ ?_, fun fn i hfn ↦ nomatch hfn⟩
  · change Between _ i (LockShell.fresh F)
    refine ⟨rfl, fun _ ↦ ⟨rfl, rfl⟩, ?_, ?_, ?_, ?_⟩ <;> simp [LockShell.fresh]
  · unfold ownerOf start at hfn
    cases hleft : left fn <;> simp [hleft] at hfn

theorem LockInv.sound {w : LockWorld ι F} (h : LockInv w) : w.Sound := by
  have hidle : ∀ i, (w.shell i).pc = .idle → Between w i (w.shell i) := by
    intro i hpc
    have hfits := h.shells i
    rwa [ShellFits, hpc] at hfits
  have hforce : ∀ i fn kind, (w.shell i).inForce = some (fn, kind) → (w.shell i).pc = .idle := by
    intro i fn kind hforce
    have hfits := h.shells i
    rw [ShellFits] at hfits
    cases hpc : (w.shell i).pc with
    | idle => rfl
    | symlink | lstat | unlink | openFile | fcntl =>
      rw [hpc] at hfits
      rw [hfits.inForce] at hforce
      cases hforce
  refine ⟨fun i hpc ↦ (hidle i hpc).lockhistct, fun i hpc hdepth fn hholds ↦ ?_,
    fun i fn kind hf ↦ ?_, fun i j fn hi hj ↦ ?_⟩
  · rcases hholds with hlink | hflock
    · exact absurd hdepth (Nat.ne_of_gt ((hidle i hpc).entitled fn .link (h.links fn i hlink).2))
    · exact absurd hdepth (Nat.ne_of_gt ((hidle i hpc).entitled fn .fcntl (h.flocks fn i hflock).2))
  · have hbetween := hidle i (hforce i fn kind hf)
    cases kind with
    | link => exact .inl (.inl (hbetween.link fn hf).2)
    | fcntl => exact .inl (.inr (hbetween.fcntl fn hf).2)
    | missing => exact .inr rfl
  · have howner := ((hidle i (hforce i fn _ hi)).link fn hi).2
    rw [((hidle j (hforce j fn _ hj)).link fn hj).2] at howner
    exact (Option.some.inj howner).symm

/-! ## One step -/

variable {w w' : LockWorld ι F} {i : ι}

theorem LockInv.not_owner (h : LockInv w) (hforce : (w.shell i).inForce = none) (fn : F) :
    w.ownerOf fn ≠ some i := by
  intro howner
  rw [(h.links fn i howner).2] at hforce
  cases hforce

theorem LockInv.not_flock (h : LockInv w) (hforce : (w.shell i).inForce = none) (fn : F) :
    w.flock fn ≠ some i := by
  intro hflock
  rw [(h.flocks fn i hflock).2] at hforce
  cases hforce

theorem ShellFits.congr (h : w.ShellFits i) (hshell : w'.shell i = w.shell i)
    (howner : ∀ fn, w'.ownerOf fn = some i ↔ w.ownerOf fn = some i)
    (hflock : ∀ fn, w'.flock fn = some i ↔ w.flock fn = some i) : w'.ShellFits i := by
  rw [ShellFits] at h ⊢
  rw [hshell]
  cases hpc : (w.shell i).pc with
  | idle =>
    rw [hpc] at h
    exact ⟨h.lockhistct, h.free, h.entitled,
      fun fn hf ↦ ⟨(h.link fn hf).1, (howner fn).mpr (h.link fn hf).2⟩,
      fun fn hf ↦ ⟨(h.fcntl fn hf).1, (hflock fn).mpr (h.fcntl fn hf).2⟩, h.missing⟩
  | symlink | lstat | unlink | openFile | fcntl =>
    rw [hpc] at h
    exact h

theorem between_granted {attempt : LockAttempt F} {fd : Option F} {kind : LockKind}
    (hs : Trying (w.shell i) attempt fd)
    (hlink : kind = .link → fd = none ∧ w'.ownerOf attempt.fn = some i)
    (hfcntl : kind = .fcntl → fd = some attempt.fn ∧ w'.flock attempt.fn = some i)
    (hmissing : kind = .missing → fd = none) :
    Between w' i { w.shell i with
      pc := .idle, depth := (w.shell i).depth + 1, inForce := some (attempt.fn, kind) } := by
  refine ⟨?_, fun hf ↦ ?_, fun fn kind' _ ↦ Nat.succ_pos _, fun fn hf ↦ ?_, fun fn hf ↦ ?_,
    fun fn hf ↦ ?_⟩
  · rw [hs.lockhistct, hs.depth]
  · cases hf
  · cases hf
    rw [hs.flockFd]
    exact hlink rfl
  · cases hf
    rw [hs.flockFd]
    exact hfcntl rfl
  · cases hf
    rw [hs.flockFd]
    exact hmissing rfl

theorem ownerOf_setLink [DecidableEq F] (w : LockWorld ι F) (fn : F) (link : Option (HistLink ι))
    (fn' : F) : (w.setLink fn link).ownerOf fn' =
      if fn' = fn then link.bind HistLink.owner else w.ownerOf fn' := by
  unfold ownerOf setLink
  by_cases h : fn' = fn
  · rw [if_pos h, h]
    simp
  · simp [h]

theorem LockInv.between (h : LockInv w) (hpc : (w.shell i).pc = .idle) :
    Between w i (w.shell i) := by
  have hfits := h.shells i
  rwa [ShellFits, hpc] at hfits

/-- A link that goes and has no owner is not missed. -/
theorem LockInv.setLink_none [DecidableEq F] (h : LockInv w) {fn : F} (howner : w.ownerOf fn = none) :
    LockInv (w.setLink fn none) := by
  have hsame : ∀ fn', (w.setLink fn none).ownerOf fn' = w.ownerOf fn' := by
    intro fn'
    rw [ownerOf_setLink]
    split
    · next heq => rw [heq, howner]; rfl
    · rfl
  refine ⟨fun i ↦ (h.shells i).congr rfl (fun fn' ↦ by rw [hsame]) fun _ ↦ Iff.rfl,
    fun fn' i hfn ↦ ?_, h.flocks⟩
  rw [hsame] at hfn
  exact h.links fn' i hfn

variable [DecidableEq ι]

/-- A step of one shell leaves the others and what they own alone. -/
theorem LockInv.of_frame (h : LockInv w) (hshell : ∀ j, j ≠ i → w'.shell j = w.shell j)
    (howner : ∀ fn j, j ≠ i → (w'.ownerOf fn = some j ↔ w.ownerOf fn = some j))
    (hflock : ∀ fn j, j ≠ i → (w'.flock fn = some j ↔ w.flock fn = some j))
    (hfits : w'.ShellFits i)
    (hlinks : ∀ fn, w'.ownerOf fn = some i → (w'.shell i).pc = .idle ∧
      (w'.shell i).inForce = some (fn, .link))
    (hflocks : ∀ fn, w'.flock fn = some i → (w'.shell i).pc = .idle ∧
      (w'.shell i).inForce = some (fn, .fcntl)) : LockInv w' := by
  refine ⟨fun j ↦ ?_, fun fn j hj ↦ ?_, fun fn j hj ↦ ?_⟩
  · by_cases hji : j = i
    · rw [hji]
      exact hfits
    · exact (h.shells j).congr (hshell j hji) (fun fn ↦ howner fn j hji) fun fn ↦ hflock fn j hji
  · by_cases hji : j = i
    · rw [hji] at hj ⊢
      exact hlinks fn hj
    · rw [hshell j hji]
      exact h.links fn j ((howner fn j hji).mp hj)
  · by_cases hji : j = i
    · rw [hji] at hj ⊢
      exact hflocks fn hj
    · rw [hshell j hji]
      exact h.flocks fn j ((hflock fn j hji).mp hj)

/-- A step that changes nothing but the record of one shell, which owns nothing. -/
theorem LockInv.setShell (h : LockInv w) {s : LockShell F}
    (hlinks : ∀ fn, w.ownerOf fn ≠ some i) (hflocks : ∀ fn, w.flock fn ≠ some i)
    (hfits : (w.setShell i s).ShellFits i) : LockInv (w.setShell i s) :=
  h.of_frame (fun _ hj ↦ Function.update_of_ne hj _ _) (fun _ _ _ ↦ Iff.rfl) (fun _ _ _ ↦ Iff.rfl)
    hfits (fun fn howner ↦ absurd howner (hlinks fn)) fun fn hflock ↦ absurd hflock (hflocks fn)

@[simp]
theorem setShell_shell_self (w : LockWorld ι F) (i : ι) (s : LockShell F) :
    (w.setShell i s).shell i = s := Function.update_self _ _ _

@[simp]
theorem setShell_setShell (w : LockWorld ι F) (i : ι) (s t : LockShell F) :
    (w.setShell i s).setShell i t = w.setShell i t := by
  simp [LockWorld.setShell]

theorem LockInv.goTo (h : LockInv w) {attempt : LockAttempt F} (hs : Trying (w.shell i) attempt none)
    {pc : LockPc F} (hpc : pc ∈ [LockPc.symlink attempt, .lstat attempt, .unlink attempt]) :
    LockInv (w.goTo i pc).1 := by
  refine h.setShell (h.not_owner hs.inForce) (h.not_flock hs.inForce) ?_
  have hfits : Trying { w.shell i with pc } attempt none :=
    ⟨hs.lockhistct, hs.depth, hs.ct, hs.inForce, hs.flockFd⟩
  rw [ShellFits, setShell_shell_self]
  simp only [mem_cons, not_mem_nil, or_false] at hpc
  rcases hpc with rfl | rfl | rfl <;> exact hfits

theorem LockInv.openFile (h : LockInv w) {attempt : LockAttempt F}
    (hs : Trying (w.shell i) attempt none) : LockInv (w.openFile i attempt false).1 := by
  rw [LockWorld.openFile, if_neg Bool.false_ne_true]
  split
  · rw [LockWorld.goTo, setShell_setShell]
    refine h.setShell (h.not_owner hs.inForce) (h.not_flock hs.inForce) ?_
    rw [ShellFits, setShell_shell_self, setShell_shell_self]
    exact ⟨hs.lockhistct, hs.depth, hs.ct, hs.inForce, rfl⟩
  · refine h.setShell (h.not_owner hs.inForce) (h.not_flock hs.inForce) ?_
    rw [ShellFits, setShell_shell_self]
    exact between_granted hs (fun hk ↦ nomatch hk) (fun hk ↦ nomatch hk) fun _ ↦ rfl

theorem LockInv.counted (h : LockInv w) (hpc : (w.shell i).pc = .idle) {ct : ℕ}
    (hct : ct = (w.shell i).depth - 1)
    (hdepth : (w.shell i).inForce ≠ none → 1 < (w.shell i).depth) :
    LockInv (w.setShell i { w.shell i with lockhistct := ct, depth := (w.shell i).depth - 1 }) := by
  have hs := h.between hpc
  refine h.of_frame (fun j hj ↦ Function.update_of_ne hj _ _) (fun _ _ _ ↦ Iff.rfl)
    (fun _ _ _ ↦ Iff.rfl) ?_ (fun fn hfn ↦ ?_) (fun fn hfn ↦ ?_)
  · rw [ShellFits, setShell_shell_self, hpc]
    refine ⟨hct, fun hf ↦ ⟨?_, (hs.free hf).2⟩, fun fn kind hf ↦ ?_, hs.link, hs.fcntl, hs.missing⟩
    · simp [(hs.free hf).1]
    · have hlt := hdepth (by simp only at hf; simp [hf])
      exact Nat.sub_pos_of_lt hlt
  · rw [setShell_shell_self]
    exact ⟨hpc, (h.links fn i hfn).2⟩
  · rw [setShell_shell_self]
    exact ⟨hpc, (h.flocks fn i hfn).2⟩

theorem LockInv.lockhistfile (h : LockInv w) (hpc : (w.shell i).pc = .idle) (fn : Option F)
    (keepTrying fcntlLock : Bool) : LockInv (w.lockhistfile i fn keepTrying fcntlLock).1 := by
  have hs := h.between hpc
  cases fn with
  | none => exact h
  | some fn =>
    simp only [LockWorld.lockhistfile]
    split
    · next hct =>
      have hdepth : (w.shell i).depth = 0 := hs.lockhistct.symm.trans hct
      have hforce : (w.shell i).inForce = none := by
        cases hf : (w.shell i).inForce with
        | none => rfl
        | some held => exact absurd hdepth (Nat.ne_of_gt (hs.entitled held.1 held.2 hf))
      have hfd := (hs.free hforce).2
      have hgo : ∀ pc, pc ∈ [LockPc.symlink ⟨fn, (w.shell i).lockhistct, keepTrying⟩,
          .openFile ⟨fn, (w.shell i).lockhistct, keepTrying⟩] →
          LockInv ((w.setShell i { w.shell i with
            lockhistct := (w.shell i).lockhistct + 1 }).goTo i pc).1 := by
        intro pc hmem
        rw [LockWorld.goTo, setShell_setShell]
        refine h.setShell (h.not_owner hforce) (h.not_flock hforce) ?_
        rw [ShellFits, setShell_shell_self, setShell_shell_self]
        simp only [mem_cons, not_mem_nil, or_false] at hmem
        rcases hmem with rfl | rfl <;> exact ⟨by rw [hct], hdepth, hct, hforce, hfd⟩
      have hclosed : (w.shell i).flockFd.isSome = false := by rw [hfd]; rfl
      rw [hclosed, if_neg Bool.false_ne_true]
      split
      · exact hgo _ (mem_cons_of_mem _ mem_cons_self)
      · exact hgo _ mem_cons_self
    · next hct =>
      have hnone : (w.shell i).inForce ≠ none := by
        intro hforce
        rw [hs.lockhistct] at hct
        exact hct (hs.free hforce).1
      rw [setShell_setShell, setShell_shell_self]
      refine h.of_frame (fun j hj ↦ Function.update_of_ne hj _ _) (fun _ _ _ ↦ Iff.rfl)
        (fun _ _ _ ↦ Iff.rfl) ?_ (fun fn' hfn ↦ ?_) (fun fn' hfn ↦ ?_)
      · rw [ShellFits, setShell_shell_self, hpc]
        exact ⟨congrArg (· + 1) hs.lockhistct, fun hf ↦ absurd hf hnone,
          fun _ _ _ ↦ Nat.succ_pos _, hs.link, hs.fcntl, hs.missing⟩
      · rw [setShell_shell_self]
        exact ⟨hpc, (h.links fn' i hfn).2⟩
      · rw [setShell_shell_self]
        exact ⟨hpc, (h.flocks fn' i hfn).2⟩

theorem ownerOf_crash (w : LockWorld ι F) (i : ι) (fn : F) (j : ι) :
    (w.crash i).ownerOf fn = some j ↔ w.ownerOf fn = some j ∧ j ≠ i := by
  unfold ownerOf crash
  dsimp only
  cases w.lockfile fn with
  | none => simp
  | some link =>
    by_cases hi : link.owner = some i
    · simp only [Option.map_some, hi, if_true, Option.bind_some]
      refine iff_of_false (by simp) fun hj ↦ hj.2 (Option.some.inj hj.1).symm
    · simp only [Option.map_some, hi, if_false, Option.bind_some]
      refine ⟨fun hj ↦ ⟨hj, ?_⟩, And.left⟩
      rintro rfl
      exact hi hj

theorem LockInv.crash (h : LockInv w) (i : ι) : LockInv (w.crash i) := by
  have hflock : ∀ fn j, (w.crash i).flock fn = some j ↔ w.flock fn = some j ∧ j ≠ i := by
    intro fn j
    change (if w.flock fn = some i then none else w.flock fn) = some j ↔ _
    split
    · next hi =>
      rw [hi]
      exact iff_of_false (by simp) fun hj ↦ hj.2 (Option.some.inj hj.1).symm
    · next hi =>
      refine ⟨fun hj ↦ ⟨hj, ?_⟩, And.left⟩
      rintro rfl
      exact hi hj
  refine h.of_frame (fun j hj ↦ Function.update_of_ne hj _ _) (fun fn j hj ↦ ?_)
    (fun fn j hj ↦ ?_) ?_ (fun fn hfn ↦ ?_) (fun fn hfn ↦ ?_)
  · rw [ownerOf_crash]
    exact and_iff_left hj
  · rw [hflock]
    exact and_iff_left hj
  · have hfresh : (w.crash i).shell i = LockShell.fresh F := Function.update_self _ _ _
    rw [ShellFits, hfresh]
    refine ⟨rfl, fun _ ↦ ⟨rfl, rfl⟩, ?_, ?_, ?_, ?_⟩ <;> simp [LockShell.fresh]
  · exact absurd rfl ((ownerOf_crash w i fn i).mp hfn).2
  · exact absurd rfl ((hflock fn i).mp hfn).2

theorem truthful_granted {attempt : LockAttempt F} {kind : LockKind}
    (hholds : w.Holds i attempt.fn ∨ kind = .missing ∧ w.present attempt.fn = false)
    {reply : LockReply ι F} (h : (w.lockGranted i attempt kind).2 = some reply) :
    Truthful (w.lockGranted i attempt kind).1 reply := by
  cases h
  refine ⟨fun _ ↦ ⟨attempt.fn, rfl, ?_⟩, fun h0 ↦ absurd rfl h0⟩
  refine hholds.imp id fun ⟨hkind, hmissing⟩ ↦ ⟨?_, hmissing⟩
  rw [lockGranted, setShell_shell_self, hkind]

theorem truthful_openFile {attempt : LockAttempt F} {reply : LockReply ι F}
    (h : (w.openFile i attempt false).2 = some reply) :
    Truthful (w.openFile i attempt false).1 reply := by
  rw [LockWorld.openFile, if_neg Bool.false_ne_true] at h ⊢
  by_cases hpresent : w.present attempt.fn = true
  · rw [if_pos hpresent] at h
    cases h
  · rw [if_neg hpresent] at h ⊢
    exact truthful_granted (.inr ⟨rfl, Bool.not_eq_true _ ▸ hpresent⟩) h

theorem LockInv.truthful_lockhistfile (h : LockInv w) (hpc : (w.shell i).pc = .idle) {fn : Option F}
    {keepTrying fcntlLock : Bool} (horderly : w.Orderly (.lockhistfile i fn keepTrying fcntlLock))
    {reply : LockReply ι F} (hreply : (w.lockhistfile i fn keepTrying fcntlLock).2 = some reply) :
    Truthful (w.lockhistfile i fn keepTrying fcntlLock).1 reply := by
  have hs := h.between hpc
  cases fn with
  | none =>
    cases hreply
    exact ⟨fun h0 ↦ absurd h0 Nat.one_ne_zero, fun _ ↦ rfl⟩
  | some fn =>
    simp only [LockWorld.lockhistfile] at hreply ⊢
    cases hforce : (w.shell i).inForce with
    | none =>
      have hfree := hs.free hforce
      have hclosed : (w.shell i).flockFd.isSome = false := by rw [hfree.2]; rfl
      rw [if_pos (hs.lockhistct.trans hfree.1), hclosed, if_neg Bool.false_ne_true] at hreply
      split at hreply <;> cases hreply
    | some held =>
      obtain ⟨held, kind⟩ := held
      have hct : (w.shell i).lockhistct ≠ 0 := by
        rw [hs.lockhistct]
        exact Nat.ne_of_gt (hs.entitled held kind hforce)
      rw [if_neg hct] at hreply ⊢
      cases hreply
      obtain ⟨hfn, hmissing⟩ := horderly held kind hforce
      obtain rfl : fn = held := by simpa using hfn
      refine ⟨fun _ ↦ ⟨fn, rfl, ?_⟩, fun h0 ↦ absurd rfl h0⟩
      cases kind with
      | link => exact .inl (.inl (hs.link fn hforce).2)
      | fcntl => exact .inl (.inr (hs.fcntl fn hforce).2)
      | missing =>
        refine .inr ⟨?_, hmissing rfl⟩
        rw [setShell_setShell, setShell_shell_self, setShell_shell_self]

variable [DecidableEq F]

theorem lockRefused_eq {attempt : LockAttempt F} (hs : Trying (w.shell i) attempt none) (ret : ℕ) :
    w.lockRefused i attempt ret =
      (w.setShell i { w.shell i with lockhistct := 0, pc := .idle },
        some ⟨i, some attempt.fn, 0, ret⟩) := by
  simp [lockRefused, closeFlock, hs.lockhistct, hs.ct, hs.flockFd]

theorem LockInv.lockRefused (h : LockInv w) {attempt : LockAttempt F}
    (hs : Trying (w.shell i) attempt none) (ret : ℕ) : LockInv (w.lockRefused i attempt ret).1 := by
  rw [lockRefused_eq hs]
  refine h.setShell (h.not_owner hs.inForce) (h.not_flock hs.inForce) ?_
  rw [ShellFits, setShell_shell_self]
  have hnone : ∀ fn kind, (w.shell i).inForce ≠ some (fn, kind) := by simp [hs.inForce]
  exact ⟨hs.depth.symm, fun _ ↦ ⟨hs.depth, hs.flockFd⟩, fun fn kind hf ↦ absurd hf (hnone fn kind),
    fun fn hf ↦ absurd hf (hnone fn _), fun fn hf ↦ absurd hf (hnone fn _),
    fun fn hf ↦ absurd hf (hnone fn _)⟩

theorem LockInv.symlink (h : LockInv w) {attempt : LockAttempt F}
    (hs : Trying (w.shell i) attempt none) (stamp : ℤ) (fails : Bool) :
    LockInv (w.symlink i attempt stamp fails).1 := by
  rw [LockWorld.symlink]
  split
  · exact h.lockRefused hs 2
  · split
    · next hnone =>
      have howner : w.ownerOf attempt.fn = none := by rw [ownerOf, hnone]; rfl
      have hupdate : ∀ fn, ((w.setLink attempt.fn (some ⟨some i, stamp⟩)).lockGranted i attempt
          .link).1.ownerOf fn = if fn = attempt.fn then some i else w.ownerOf fn :=
        fun fn ↦ ownerOf_setLink w attempt.fn _ fn
      refine h.of_frame (fun j hj ↦ Function.update_of_ne hj _ _) (fun fn j hj ↦ ?_)
        (fun _ _ _ ↦ Iff.rfl) ?_ (fun fn hfn ↦ ?_) (fun fn hfn ↦ ?_)
      · rw [hupdate]
        split
        · next heq =>
          rw [heq, howner]
          exact iff_of_false (fun hij ↦ hj (Option.some.inj hij).symm) (by simp)
        · exact Iff.rfl
      · rw [ShellFits, lockGranted, setShell_shell_self]
        refine between_granted hs (fun _ ↦ ⟨rfl, ?_⟩) (fun hk ↦ nomatch hk) (fun _ ↦ rfl)
        exact (hupdate attempt.fn).trans (if_pos rfl)
      · rw [hupdate] at hfn
        rw [lockGranted, setShell_shell_self]
        split at hfn
        · next heq => exact ⟨rfl, by rw [heq]⟩
        · exact absurd hfn (h.not_owner hs.inForce fn)
      · exact absurd hfn (h.not_flock hs.inForce fn)
    · split
      · exact h.goTo hs (by simp)
      · exact h.lockRefused hs 1

theorem LockInv.lstat (h : LockInv w) {attempt : LockAttempt F}
    (hs : Trying (w.shell i) attempt none) (now : ℤ) (fails : Bool) :
    LockInv (w.lstat i attempt now fails).1 := by
  rw [LockWorld.lstat]
  split
  · exact h.lockRefused hs 0
  · split
    · exact h.goTo hs (by simp)
    · split
      · exact h.lockRefused hs 1
      · split <;> exact h.goTo hs (by simp)

theorem LockInv.unlink (h : LockInv w) {attempt : LockAttempt F}
    (hs : Trying (w.shell i) attempt none) (howner : w.ownerOf attempt.fn = none) (fails : Bool) :
    LockInv (w.unlink i attempt fails).1 := by
  rw [LockWorld.unlink]
  split
  · exact h.goTo hs (by simp)
  · exact (h.setLink_none howner).goTo hs (by simp)

theorem LockInv.fcntl (h : LockInv w) {attempt : LockAttempt F}
    (hs : Trying (w.shell i) attempt (some attempt.fn)) : LockInv (w.fcntl i attempt false).1 := by
  rw [LockWorld.fcntl, if_neg Bool.false_ne_true]
  split
  · next hnone =>
    have hupdate : ∀ fn, ((w.setFlock attempt.fn (some i)).lockGranted i attempt .fcntl).1.flock fn =
        if fn = attempt.fn then some i else w.flock fn :=
      fun fn ↦ Function.update_apply w.flock attempt.fn (some i) fn
    refine h.of_frame (fun j hj ↦ Function.update_of_ne hj _ _) (fun _ _ _ ↦ Iff.rfl)
      (fun fn j hj ↦ ?_) ?_ (fun fn hfn ↦ ?_) (fun fn hfn ↦ ?_)
    · rw [hupdate]
      split
      · next heq =>
        rw [heq, hnone]
        exact iff_of_false (fun hij ↦ hj (Option.some.inj hij).symm) (by simp)
      · exact Iff.rfl
    · rw [ShellFits, lockGranted, setShell_shell_self]
      refine between_granted hs (fun hk ↦ nomatch hk) (fun _ ↦ ⟨rfl, ?_⟩) (fun hk ↦ nomatch hk)
      exact (hupdate attempt.fn).trans (if_pos rfl)
    · exact absurd hfn (h.not_owner hs.inForce fn)
    · rw [hupdate] at hfn
      rw [lockGranted, setShell_shell_self]
      split at hfn
      · next heq => exact ⟨rfl, by rw [heq]⟩
      · exact absurd hfn (h.not_flock hs.inForce fn)
  · exact h

theorem closeFlock_shell (w : LockWorld ι F) (i j : ι) : (w.closeFlock i).shell j =
    if j = i then { w.shell i with flockFd := none } else w.shell j := by
  rw [closeFlock]
  split
  · next hfd =>
    split
    · next heq => rw [heq, ← hfd]
    · rfl
  · have hshell : (w.setShell i { w.shell i with flockFd := none }).shell j =
        if j = i then { w.shell i with flockFd := none } else w.shell j :=
      Function.update_apply _ _ _ _
    dsimp only
    split <;> exact hshell

theorem closeFlock_ownerOf (w : LockWorld ι F) (i : ι) (fn : F) :
    (w.closeFlock i).ownerOf fn = w.ownerOf fn := by
  rw [closeFlock]
  split
  · rfl
  · dsimp only
    split <;> rfl

theorem closeFlock_flock (w : LockWorld ι F) (i : ι) (fn : F) : (w.closeFlock i).flock fn =
    if (w.shell i).flockFd = some fn ∧ w.flock fn = some i then none else w.flock fn := by
  rw [closeFlock]
  split
  · next hfd => simp [hfd]
  · next fd hfd =>
    dsimp only
    by_cases hfn : fn = fd
    · subst hfn
      split
      · next hflock =>
        rw [if_pos ⟨hfd, hflock⟩]
        exact Function.update_self _ _ _
      · next hflock =>
        rw [if_neg fun h ↦ hflock h.2]
        rfl
    · have hne : ¬((w.shell i).flockFd = some fn ∧ w.flock fn = some i) := by
        rintro ⟨h, -⟩
        rw [hfd] at h
        exact hfn (Option.some.inj h).symm
      split
      · exact Function.update_of_ne hfn _ _
      · rfl

theorem LockInv.unlocked (h : LockInv w) (hpc : (w.shell i).pc = .idle) {fn : F} {kind : LockKind}
    (hforce : (w.shell i).inForce = some (fn, kind))
    (howner : kind ≠ .link → ∀ j, j ≠ i → w.ownerOf fn ≠ some j) :
    LockInv (((w.setShell i { w.shell i with lockhistct := 0, depth := 0, inForce := none }).setLink
      fn none).closeFlock i) := by
  have hs := h.between hpc
  set w₁ := (w.setShell i _).setLink
    fn none with hw₁
  have hself : w₁.shell i = { w.shell i with lockhistct := 0, depth := 0, inForce := none } :=
    setShell_shell_self _ _ _
  have hownerOf : ∀ fn', (w₁.closeFlock i).ownerOf fn' =
      if fn' = fn then none else w.ownerOf fn' := by
    intro fn'
    rw [closeFlock_ownerOf, hw₁, ownerOf_setLink]
    rfl
  have hflock : ∀ fn', (w₁.closeFlock i).flock fn' =
      if (w.shell i).flockFd = some fn' ∧ w.flock fn' = some i then none else w.flock fn' := by
    intro fn'
    rw [closeFlock_flock, hself]
    rfl
  refine h.of_frame (i := i) (fun j hj ↦ ?_) (fun fn' j hj ↦ ?_) (fun fn' j hj ↦ ?_) ?_
    (fun fn' hfn ↦ ?_) (fun fn' hfn ↦ ?_)
  · rw [closeFlock_shell, if_neg hj]
    exact Function.update_of_ne hj _ _
  · rw [hownerOf]
    split
    · next heq =>
      refine iff_of_false (by simp) fun hj' ↦ ?_
      rw [heq] at hj'
      by_cases hlink : kind = .link
      · rw [hlink] at hforce
        rw [(hs.link fn hforce).2] at hj'
        exact hj (Option.some.inj hj').symm
      · exact howner hlink j hj hj'
    · exact Iff.rfl
  · rw [hflock]
    split
    · next hboth =>
      rw [hboth.2]
      exact iff_of_false (by simp) fun hij ↦ hj (Option.some.inj hij).symm
    · exact Iff.rfl
  · rw [ShellFits, closeFlock_shell, if_pos rfl, hself, hpc]
    refine ⟨rfl, fun _ ↦ ⟨rfl, rfl⟩, ?_, ?_, ?_, ?_⟩ <;> simp
  · -- What it still owned would be what it has just given back.
    rw [hownerOf] at hfn
    split at hfn
    · cases hfn
    · next hne =>
      have hheld := (h.links fn' i hfn).2
      rw [hforce] at hheld
      cases hheld
      exact absurd rfl hne
  · rw [hflock] at hfn
    split at hfn
    · cases hfn
    · next hne =>
      have hfd := (hs.fcntl fn' (h.flocks fn' i hfn).2).1
      exact absurd ⟨hfd, hfn⟩ hne

theorem LockInv.unlockhistfile (h : LockInv w) (hpc : (w.shell i).pc = .idle) {fn : Option F}
    {fails : Bool} (horderly : w.Orderly (.unlockhistfile i fn fails)) :
    LockInv (w.unlockhistfile i fn fails) := by
  have hs := h.between hpc
  cases hforce : (w.shell i).inForce with
  | none =>
    have hdepth := (hs.free hforce).1
    have hct := hs.lockhistct.trans hdepth
    have hsame : w.unlockhistfile i fn fails =
        w.setShell i { w.shell i with lockhistct := 0, depth := (w.shell i).depth - 1 } := by
      cases fn with
      | none => simp only [LockWorld.unlockhistfile, hct]
      | some fn => simp only [LockWorld.unlockhistfile, hct, if_pos]
    rw [hsame]
    exact h.counted hpc (by rw [hdepth]) fun hne ↦ absurd hforce hne
  | some held =>
    obtain ⟨held, kind⟩ := held
    obtain ⟨hsome, hlast⟩ := horderly held kind hforce
    obtain ⟨fn, rfl⟩ := Option.isSome_iff_exists.mp hsome
    have hpos := hs.entitled held kind hforce
    have hct : (w.shell i).lockhistct ≠ 0 := by
      rw [hs.lockhistct]
      exact Nat.ne_of_gt hpos
    simp only [LockWorld.unlockhistfile, setShell_setShell, setShell_shell_self, if_neg hct]
    split
    · next hone =>
      have hdepth : (w.shell i).depth = 1 := hs.lockhistct.symm.trans hone
      obtain ⟨hfn, hfails, howner⟩ := hlast hdepth
      cases hfn
      rw [hfails, if_neg Bool.false_ne_true, hone, hdepth]
      exact h.unlocked hpc hforce howner
    · next hone =>
      refine h.counted hpc (by rw [hs.lockhistct]) fun _ ↦ ?_
      rw [hs.lockhistct] at hone
      exact lt_of_le_of_ne hpos (Ne.symm hone)

theorem LockInv.next (h : LockInv w) {event : LockEvent ι F} (horderly : w.Orderly event) :
    LockInv (w.next event) := by
  rw [LockWorld.next]
  cases event with
  | lockhistfile i fn keepTrying fcntlLock =>
    cases hpc : (w.shell i).pc with
    | idle =>
      rw [LockWorld.step, hpc]
      exact h.lockhistfile hpc fn keepTrying fcntlLock
    | _ =>
      rw [LockWorld.step, hpc]
      exact h
  | symlink i stamp fails =>
    have hfits := h.shells i
    rw [ShellFits] at hfits
    cases hpc : (w.shell i).pc with
    | symlink attempt =>
      rw [hpc] at hfits
      rw [LockWorld.step, hpc]
      exact h.symlink hfits stamp fails
    | _ =>
      rw [LockWorld.step, hpc]
      exact h
  | lstat i now fails =>
    have hfits := h.shells i
    rw [ShellFits] at hfits
    cases hpc : (w.shell i).pc with
    | lstat attempt =>
      rw [hpc] at hfits
      rw [LockWorld.step, hpc]
      exact h.lstat hfits now fails
    | _ =>
      rw [LockWorld.step, hpc]
      exact h
  | unlink i fails =>
    have hfits := h.shells i
    rw [ShellFits] at hfits
    cases hpc : (w.shell i).pc with
    | unlink attempt =>
      rw [hpc] at hfits
      rw [LockWorld.step, hpc]
      exact h.unlink hfits (horderly attempt hpc) fails
    | _ =>
      rw [LockWorld.step, hpc]
      exact h
  | openFile i fails =>
    have hfits := h.shells i
    rw [ShellFits] at hfits
    obtain rfl : fails = false := horderly
    cases hpc : (w.shell i).pc with
    | openFile attempt =>
      rw [hpc] at hfits
      rw [LockWorld.step, hpc]
      exact h.openFile hfits
    | _ =>
      rw [LockWorld.step, hpc]
      exact h
  | fcntl i fails =>
    have hfits := h.shells i
    rw [ShellFits] at hfits
    obtain rfl : fails = false := horderly
    cases hpc : (w.shell i).pc with
    | fcntl attempt =>
      rw [hpc] at hfits
      rw [LockWorld.step, hpc]
      exact h.fcntl hfits
    | _ =>
      rw [LockWorld.step, hpc]
      exact h
  | unlockhistfile i fn fails =>
    cases hpc : (w.shell i).pc with
    | idle =>
      rw [LockWorld.step, hpc]
      exact h.unlockhistfile hpc horderly
    | _ =>
      rw [LockWorld.step, hpc]
      exact h
  | crash i => exact h.crash i
  | present fn there =>
    exact ⟨fun i ↦ (h.shells i).congr rfl (fun _ ↦ Iff.rfl) fun _ ↦ Iff.rfl, h.links, h.flocks⟩

/-! ## What a call returns -/

theorem truthful_refused {attempt : LockAttempt F} (hs : Trying (w.shell i) attempt none) {ret : ℕ}
    (hret : ret ≠ 0) {reply : LockReply ι F} (h : (w.lockRefused i attempt ret).2 = some reply) :
    Truthful (w.lockRefused i attempt ret).1 reply := by
  rw [lockRefused_eq hs] at h ⊢
  cases h
  exact ⟨fun h0 ↦ absurd h0 hret, fun _ ↦ by rw [setShell_shell_self]⟩

theorem truthful_symlink {attempt : LockAttempt F} (hs : Trying (w.shell i) attempt none) {stamp : ℤ}
    {fails : Bool} {reply : LockReply ι F} (h : (w.symlink i attempt stamp fails).2 = some reply) :
    Truthful (w.symlink i attempt stamp fails).1 reply := by
  rw [LockWorld.symlink] at h ⊢
  by_cases hfails : fails = true
  · rw [if_pos hfails] at h ⊢
    exact truthful_refused hs (by decide) h
  · rw [if_neg hfails] at h ⊢
    cases hlink : w.lockfile attempt.fn with
    | none =>
      rw [hlink] at h
      refine truthful_granted (.inl (.inl ?_)) h
      rw [ownerOf_setLink, if_pos rfl]
      rfl
    | some link =>
      rw [hlink] at h
      dsimp only at h ⊢
      split at h
      · cases h
      · next hkeep =>
        rw [if_neg hkeep]
        exact truthful_refused hs (by decide) h

theorem truthful_lstat {attempt : LockAttempt F} (hs : Trying (w.shell i) attempt none) {now : ℤ}
    {reply : LockReply ι F} (h : (w.lstat i attempt now false).2 = some reply) :
    Truthful (w.lstat i attempt now false).1 reply := by
  rw [LockWorld.lstat, if_neg Bool.false_ne_true] at h ⊢
  cases hlink : w.lockfile attempt.fn with
  | none =>
    rw [hlink] at h
    cases h
  | some link =>
    rw [hlink] at h
    dsimp only at h ⊢
    by_cases hfuture : now + 10 < link.mtime
    · rw [if_pos hfuture] at h ⊢
      exact truthful_refused hs (by decide) h
    · rw [if_neg hfuture] at h
      split at h <;> cases h

theorem truthful_fcntl {attempt : LockAttempt F} {reply : LockReply ι F}
    (h : (w.fcntl i attempt false).2 = some reply) :
    Truthful (w.fcntl i attempt false).1 reply := by
  rw [LockWorld.fcntl, if_neg Bool.false_ne_true] at h ⊢
  cases hflock : w.flock attempt.fn with
  | none =>
    rw [hflock] at h
    exact truthful_granted (.inl (.inr (Function.update_self _ _ _))) h
  | some owner =>
    rw [hflock] at h
    cases h

theorem LockInv.truthful (h : LockInv w) {event : LockEvent ι F} (horderly : w.Orderly event)
    {reply : LockReply ι F} (hreply : (w.step event).2 = some reply) :
    Truthful (w.next event) reply := by
  rw [LockWorld.next]
  cases event with
  | lockhistfile i fn keepTrying fcntlLock =>
    cases hpc : (w.shell i).pc <;> rw [LockWorld.step, hpc] at hreply
    case idle =>
      rw [LockWorld.step, hpc]
      exact h.truthful_lockhistfile hpc horderly hreply
    all_goals cases hreply
  | symlink i stamp fails =>
    have hfits := h.shells i
    rw [ShellFits] at hfits
    cases hpc : (w.shell i).pc <;> rw [hpc] at hfits <;> rw [LockWorld.step, hpc] at hreply
    case symlink attempt =>
      rw [LockWorld.step, hpc]
      exact truthful_symlink hfits hreply
    all_goals cases hreply
  | lstat i now fails =>
    have hfits := h.shells i
    rw [ShellFits] at hfits
    obtain rfl : fails = false := horderly
    cases hpc : (w.shell i).pc <;> rw [hpc] at hfits <;> rw [LockWorld.step, hpc] at hreply
    case lstat attempt =>
      rw [LockWorld.step, hpc]
      exact truthful_lstat hfits hreply
    all_goals cases hreply
  | unlink i fails =>
    cases hpc : (w.shell i).pc <;> rw [LockWorld.step, hpc] at hreply <;> cases hreply
  | openFile i fails =>
    obtain rfl : fails = false := horderly
    cases hpc : (w.shell i).pc <;> rw [LockWorld.step, hpc] at hreply
    case openFile attempt =>
      rw [LockWorld.step, hpc]
      exact truthful_openFile hreply
    all_goals cases hreply
  | fcntl i fails =>
    obtain rfl : fails = false := horderly
    cases hpc : (w.shell i).pc <;> rw [LockWorld.step, hpc] at hreply
    case fcntl attempt =>
      rw [LockWorld.step, hpc]
      exact truthful_fcntl hreply
    all_goals cases hreply
  | unlockhistfile i fn fails =>
    cases hpc : (w.shell i).pc <;> rw [LockWorld.step, hpc] at hreply <;> cases hreply
  | crash i => cases hreply
  | present fn there => cases hreply

/-! ## Runs -/

/-- Throughout a run of freshly started shells the locks are sound and the calls return the truth. -/
def Trustworthy (left : F → Option ℤ) (present : F → Bool) (events : List (LockEvent ι F)) : Prop :=
  (∀ before, before <+: events → (run next (start left present) before).Sound) ∧
  ∀ before event, before ++ [event] <+: events → ∀ reply,
    ((run next (start left present) before).step event).2 = some reply →
      Truthful ((run next (start left present) before).next event) reply

/-- Without one of the missteps the lock does what it is for, in any number of shells. -/
theorem trustworthy_of_orderly (left : F → Option ℤ) (present : F → Bool)
    (events : List (LockEvent ι F)) (h : Meets next Orderly (start left present) events) :
    Trustworthy left present events := by
  have hinv : ∀ before, before <+: events →
      LockInv (run next (start left present : LockWorld ι F) before) := by
    rintro before ⟨after, rfl⟩
    exact (meets_append.mp h).1.invariant LockInv (fun _ _ hw ↦ hw.next)
      (lockInv_start left present)
  refine ⟨fun before hbefore ↦ (hinv before hbefore).sound, fun before event hbefore reply hreply ↦ ?_⟩
  exact (hinv before ((prefix_append before [event]).trans hbefore)).truthful
    (meets_iff_forall_front.mp h before event hbefore) hreply

/-- A history file that cannot be opened for writing. -/
def unwritable : List (LockEvent Unit Unit) := [.lockhistfile () (some ()) true true, .openFile () true]

/-- The failing call has not taken back its count. -/
theorem flockRefused_counts : ¬ Trustworthy (fun _ ↦ none) (fun _ ↦ true) unwritable := by
  rintro ⟨-, htruthful⟩
  have hreply := htruthful [.lockhistfile () (some ()) true true] (.openFile () true)
    (prefix_refl _) _ rfl
  exact absurd (hreply.refused (by decide)) (by decide)

/-- Two shells break a stale lock: the one that is later unlinks the new link of the other. -/
example : ¬ Trustworthy (fun _ ↦ some 0) (fun _ ↦ true) ([.lockhistfile false (some ()) true false,
    .lockhistfile true (some ()) true false, .symlink false 20 false, .symlink true 20 false,
    .lstat false 20 false, .lstat true 20 false, .unlink false false, .symlink false 20 false,
    .unlink true false, .symlink true 20 false] : List (LockEvent Bool Unit)) := by
  rintro ⟨hsound, -⟩
  exact absurd ((hsound _ (prefix_refl _)).exclusive false true () rfl rfl) (by decide)

/-- Two calls and their unlocks, once a lock left by a crashed shell has been broken. -/
theorem trustworthy_nested : Trustworthy (fun _ ↦ some 0) (fun _ ↦ true)
    ([.lockhistfile () (some ()) true false, .symlink () 20 false, .lstat () 20 false,
      .unlink () false, .symlink () 21 false, .lockhistfile () (some ()) false false,
      .unlockhistfile () (some ()) false, .unlockhistfile () (some ()) false] :
      List (LockEvent Unit Unit)) := by
  refine trustworthy_of_orderly _ _ _ ⟨?_, trivial, rfl, ?_, trivial, ?_, ?_, ?_, trivial⟩
  · rintro held kind hforce
    cases hforce
  · intro attempt hpc
    rfl
  · intro held kind hforce
    cases hforce
    exact ⟨.inr rfl, fun hkind ↦ nomatch hkind⟩
  · intro held kind hforce
    exact ⟨rfl, fun hdepth ↦ absurd hdepth (by decide)⟩
  · intro held kind hforce
    cases hforce
    exact ⟨rfl, fun _ ↦ ⟨rfl, rfl, fun hkind ↦ absurd rfl hkind⟩⟩

end LockWorld

end Bsh.Shell
