import Mathlib.Data.Int.Basic
import Mathlib.Logic.Function.Basic
import Bsh.Library.Run

/-!
# The lock on the history file

`lockhistfile`, `flockhistfile`, `checklocktime` and `unlockhistfile` of `hist.c` in any number of
shells that share a file system.  Every system call is a step of its own, so that calls of different
shells interleave, and any of them may fail.  The lock is a symbolic link beside the history file or,
with the option `HIST_FCNTL_LOCK`, a lock on the file itself.

Sleeping leaves no trace, and the clock that `checklocktime` reads is an input of the step, as is the
time that the file system gives to a new link.
-/

namespace Bsh.Shell

open Bsh.Library

/-- A link `fn.LOCK`; one that no running shell has made has no owner. -/
structure HistLink (ι : Type*) where
  owner : Option ι
  mtime : ℤ

/-- The arguments of `lockhistfile` and its `ct`. -/
structure LockAttempt (F : Type*) where
  fn : F
  ct : ℕ
  keepTrying : Bool

/-- The system call that a shell is about to make in `lockhistfile`. -/
inductive LockPc (F : Type*) where
  | idle
  | symlink (attempt : LockAttempt F)
  | lstat (attempt : LockAttempt F)
  | unlink (attempt : LockAttempt F)
  | openFile (attempt : LockAttempt F)
  | fcntl (attempt : LockAttempt F)

/-- How a shell has come by the lock: by the link, by `fcntl`, or because there was no file. -/
inductive LockKind where
  | link
  | fcntl
  | missing

/-- The statics of a shell, and behind them what its calls entitle it to, which no code reads: the
number of calls that returned 0 without an `unlockhistfile` since, and what the first of them got. -/
structure LockShell (F : Type*) where
  lockhistct : ℕ
  flockFd : Option F
  pc : LockPc F
  depth : ℕ
  inForce : Option (F × LockKind)

/-- A shell that has just started. -/
def LockShell.fresh (F : Type*) : LockShell F := ⟨0, none, .idle, 0, none⟩

/-- The shells, the links, the locks on files and which history files exist. -/
structure LockWorld (ι F : Type*) where
  shell : ι → LockShell F
  lockfile : F → Option (HistLink ι)
  flock : F → Option ι
  present : F → Bool

/-- What a call of `lockhistfile` returns, with its `ct`. -/
structure LockReply (ι F : Type*) where
  shell : ι
  fn : Option F
  ct : ℕ
  ret : ℕ

namespace LockWorld

variable {ι F : Type*} [DecidableEq ι] [DecidableEq F]

def setShell (w : LockWorld ι F) (i : ι) (s : LockShell F) : LockWorld ι F :=
  { w with shell := Function.update w.shell i s }

def setLink (w : LockWorld ι F) (fn : F) (link : Option (HistLink ι)) : LockWorld ι F :=
  { w with lockfile := Function.update w.lockfile fn link }

def setFlock (w : LockWorld ι F) (fn : F) (owner : Option ι) : LockWorld ι F :=
  { w with flock := Function.update w.flock fn owner }

/-- `close(flock_fd)` if it is open. -/
def closeFlock (w : LockWorld ι F) (i : ι) : LockWorld ι F :=
  match (w.shell i).flockFd with
  | none => w
  | some fn =>
    let w := w.setShell i { w.shell i with flockFd := none }
    if w.flock fn = some i then w.setFlock fn none else w

/-- A call that returns 0 with the lock, or with what it takes for one. -/
def lockGranted (w : LockWorld ι F) (i : ι) (attempt : LockAttempt F) (kind : LockKind) :
    LockWorld ι F × Option (LockReply ι F) :=
  let s := w.shell i
  (w.setShell i { s with pc := .idle, depth := s.depth + 1, inForce := some (attempt.fn, kind) },
    some ⟨i, some attempt.fn, attempt.ct, 0⟩)

/-- The exits of `lockhistfile` with `fd < 0`. -/
def lockRefused (w : LockWorld ι F) (i : ι) (attempt : LockAttempt F) (ret : ℕ) :
    LockWorld ι F × Option (LockReply ι F) :=
  let s := w.shell i
  let w := w.setShell i { s with lockhistct := s.lockhistct - 1, pc := .idle }
  if attempt.ct = s.lockhistct - 1 then
    (w.closeFlock i, some ⟨i, some attempt.fn, attempt.ct, ret⟩)
  else (w, some ⟨i, some attempt.fn, attempt.ct, 0⟩)

/-- The failing exits of `flockhistfile`, which `lockhistfile` returns from at once. -/
def flockRefused (w : LockWorld ι F) (i : ι) (attempt : LockAttempt F) (ret : ℕ) :
    LockWorld ι F × Option (LockReply ι F) :=
  (w.setShell i { w.shell i with flockFd := none, pc := .idle },
    some ⟨i, some attempt.fn, attempt.ct, ret⟩)

def goTo (w : LockWorld ι F) (i : ι) (pc : LockPc F) : LockWorld ι F × Option (LockReply ι F) :=
  (w.setShell i { w.shell i with pc }, none)

/-- `lockhistfile` up to its first system call; the file is `none` if there is no `HISTFILE`. -/
def lockhistfile (w : LockWorld ι F) (i : ι) (fn : Option F) (keepTrying fcntlLock : Bool) :
    LockWorld ι F × Option (LockReply ι F) :=
  let s := w.shell i
  match fn with
  | none => (w, some ⟨i, none, s.lockhistct, 1⟩)
  | some fn =>
    let attempt := ⟨fn, s.lockhistct, keepTrying⟩
    let w := w.setShell i { s with lockhistct := s.lockhistct + 1 }
    if s.lockhistct = 0 then
      if fcntlLock then
        if s.flockFd.isSome then w.lockGranted i attempt .fcntl else w.goTo i (.openFile attempt)
      else w.goTo i (.symlink attempt)
    else
      (w.setShell i { w.shell i with depth := s.depth + 1 },
        some ⟨i, some fn, s.lockhistct, 0⟩)

/-- `symlink`; `fails` stands for an error other than `EEXIST`. -/
def symlink (w : LockWorld ι F) (i : ι) (attempt : LockAttempt F) (stamp : ℤ) (fails : Bool) :
    LockWorld ι F × Option (LockReply ι F) :=
  if fails then w.lockRefused i attempt 2
  else
    match w.lockfile attempt.fn with
    | none =>
      (w.setLink attempt.fn (some ⟨some i, stamp⟩)).lockGranted i attempt .link
    | some _ => if attempt.keepTrying then w.goTo i (.lstat attempt) else w.lockRefused i attempt 1

/-- `lstat` and `checklocktime`; `fails` stands for an error other than `ENOENT`. -/
def lstat (w : LockWorld ι F) (i : ι) (attempt : LockAttempt F) (now : ℤ) (fails : Bool) :
    LockWorld ι F × Option (LockReply ι F) :=
  -- This exit leaves the loop with `ret` as it was set at the start.
  if fails then w.lockRefused i attempt 0
  else
    match w.lockfile attempt.fn with
    | none => w.goTo i (.symlink attempt)
    | some link =>
      if now + 10 < link.mtime then w.lockRefused i attempt 1
      else if now - link.mtime < 10 then w.goTo i (.symlink attempt)
      else w.goTo i (.unlink attempt)

/-- `unlink` in `checklocktime`, whatever link there is by now. -/
def unlink (w : LockWorld ι F) (i : ι) (attempt : LockAttempt F) (fails : Bool) :
    LockWorld ι F × Option (LockReply ι F) :=
  (if fails then w else w.setLink attempt.fn none).goTo i (.symlink attempt)

/-- `open` in `flockhistfile`; `fails` stands for an error other than `ENOENT`. -/
def openFile (w : LockWorld ι F) (i : ι) (attempt : LockAttempt F) (fails : Bool) :
    LockWorld ι F × Option (LockReply ι F) :=
  if fails then w.flockRefused i attempt 2
  else if w.present attempt.fn then
    (w.setShell i { w.shell i with flockFd := some attempt.fn }).goTo i (.fcntl attempt)
  else w.lockGranted i attempt .missing

/-- `fcntl` in `flockhistfile`, which waits while there is another lock; `fails` if it gives up. -/
def fcntl (w : LockWorld ι F) (i : ι) (attempt : LockAttempt F) (fails : Bool) :
    LockWorld ι F × Option (LockReply ι F) :=
  if fails then w.flockRefused i attempt 1
  else
    match w.flock attempt.fn with
    | none => (w.setFlock attempt.fn (some i)).lockGranted i attempt .fcntl
    | some _ => (w, none)

/-- `unlockhistfile`; `fails` if the link cannot be removed. -/
def unlockhistfile (w : LockWorld ι F) (i : ι) (fn : Option F) (fails : Bool) : LockWorld ι F :=
  let s := w.shell i
  let w := w.setShell i { s with depth := s.depth - 1 }
  match fn with
  | none => w
  | some fn =>
    if s.lockhistct = 0 then w
    else
      let w := w.setShell i { w.shell i with lockhistct := s.lockhistct - 1 }
      if s.lockhistct = 1 then
        let w := w.setShell i { w.shell i with inForce := none }
        (if fails then w else w.setLink fn none).closeFlock i
      else w

/-- A shell ends without unlocking anything; its links stay. -/
def crash (w : LockWorld ι F) (i : ι) : LockWorld ι F :=
  { w.setShell i (LockShell.fresh F) with
    lockfile := fun fn ↦ (w.lockfile fn).map fun link ↦
      if link.owner = some i then { link with owner := none } else link
    flock := fun fn ↦ if w.flock fn = some i then none else w.flock fn }

end LockWorld

/-- What happens next, and to which shell. -/
inductive LockEvent (ι F : Type*) where
  | lockhistfile (i : ι) (fn : Option F) (keepTrying fcntlLock : Bool)
  | symlink (i : ι) (stamp : ℤ) (fails : Bool)
  | lstat (i : ι) (now : ℤ) (fails : Bool)
  | unlink (i : ι) (fails : Bool)
  | openFile (i : ι) (fails : Bool)
  | fcntl (i : ι) (fails : Bool)
  | unlockhistfile (i : ι) (fn : Option F) (fails : Bool)
  | crash (i : ι)
  | present (fn : F) (there : Bool)

namespace LockWorld

variable {ι F : Type*} [DecidableEq ι] [DecidableEq F]

/-- One step with the reply of a call that returns; a shell makes the system call it is about to
make, and calls `lockhistfile` and `unlockhistfile` between calls only. -/
def step (w : LockWorld ι F) : LockEvent ι F → LockWorld ι F × Option (LockReply ι F)
  | .lockhistfile i fn keepTrying fcntlLock =>
    match (w.shell i).pc with
    | .idle => w.lockhistfile i fn keepTrying fcntlLock
    | _ => (w, none)
  | .symlink i stamp fails =>
    match (w.shell i).pc with
    | .symlink attempt => w.symlink i attempt stamp fails
    | _ => (w, none)
  | .lstat i now fails =>
    match (w.shell i).pc with
    | .lstat attempt => w.lstat i attempt now fails
    | _ => (w, none)
  | .unlink i fails =>
    match (w.shell i).pc with
    | .unlink attempt => w.unlink i attempt fails
    | _ => (w, none)
  | .openFile i fails =>
    match (w.shell i).pc with
    | .openFile attempt => w.openFile i attempt fails
    | _ => (w, none)
  | .fcntl i fails =>
    match (w.shell i).pc with
    | .fcntl attempt => w.fcntl i attempt fails
    | _ => (w, none)
  | .unlockhistfile i fn fails =>
    match (w.shell i).pc with
    | .idle => (w.unlockhistfile i fn fails, none)
    | _ => (w, none)
  | .crash i => (w.crash i, none)
  | .present fn there => ({ w with present := Function.update w.present fn there }, none)

def next (w : LockWorld ι F) (event : LockEvent ι F) : LockWorld ι F := (w.step event).1

/-- The shells have just started; what links there are have been left by others. -/
def start (left : F → Option ℤ) (present : F → Bool) : LockWorld ι F where
  shell _ := LockShell.fresh F
  lockfile fn := (left fn).map fun mtime ↦ ⟨none, mtime⟩
  flock _ := none
  present := present

end LockWorld

end Bsh.Shell
