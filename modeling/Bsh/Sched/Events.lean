import Bsh.Library.Run
import Bsh.Shell.Numbers

/-!
# Scheduled commands

The list of `sched` is kept in time order, and the time of its head is registered as the time of a
timed function.  `checksched` runs what is due; a command that it runs may use `sched` itself, and
may lead to another `checksched` inside the first one.  A run is therefore a list of events: a use of
`sched`, a call of `checksched`, and the end of the command that was started last.
-/

namespace Bsh.Sched

open Bsh.Library Bsh.Shell List

/-! ## The state -/

/-- `struct schedcmd`; the serial number stands for its address. -/
structure Schedcmd where
  serial : ℕ
  cmd : Bytes
  time : ℤ
  flags : ℕ
  deriving DecidableEq

/-- The functions that are registered with `addtimedfn`. -/
inductive TimedFunc where
  | checksched
  deriving DecidableEq

/-- `struct timedfn`. -/
structure Timedfn where
  func : TimedFunc
  when : ℤ
  deriving DecidableEq

/-- A call of `checksched` that waits for a command, with the time that it has read. -/
structure Waiting where
  now : ℤ
  sch : Schedcmd

/-- What a run has done: how many events were added, those started with what was pending behind each,
those deleted, and the calls of `checksched` that returned with what was pending then. -/
structure History where
  added : ℕ
  started : List (Schedcmd × List Schedcmd)
  deleted : List Schedcmd
  returned : List (ℤ × List Schedcmd)

structure SchedState where
  schedcmds : List Schedcmd
  schedcmdtimed : Bool
  timedfns : List Timedfn
  /-- The innermost call comes first. -/
  waiting : List Waiting
  history : History

def SchedState.start : SchedState := ⟨[], false, [], [], ⟨0, [], [], []⟩⟩

/-! ## The timed function -/

/-- The loop of `addtimedfn`, behind the first node. -/
def insertTimed (tfdat : Timedfn) : List Timedfn → List Timedfn
  | [] => [tfdat]
  | next :: timedfns =>
    if tfdat.when < next.when then tfdat :: next :: timedfns else next :: insertTimed tfdat timedfns

def addtimedfn (func : TimedFunc) (when : ℤ) : List Timedfn → List Timedfn
  | [] => [⟨func, when⟩]
  | ln :: timedfns => ln :: insertTimed ⟨func, when⟩ timedfns

def deltimedfn (func : TimedFunc) (timedfns : List Timedfn) : List Timedfn :=
  timedfns.eraseP fun ppdat ↦ ppdat.func = func

def scheddeltimed (s : SchedState) : SchedState :=
  if s.schedcmdtimed then
    { s with timedfns := deltimedfn .checksched s.timedfns, schedcmdtimed := false }
  else s

/-- `schedaddtimed`; the callers see to it that the list is not empty. -/
def schedaddtimed (s : SchedState) : SchedState :=
  let s := if s.schedcmdtimed then scheddeltimed s else s
  match s.schedcmds with
  | [] => s
  | sch :: _ =>
    { s with timedfns := addtimedfn .checksched sch.time s.timedfns, schedcmdtimed := true }

/-! ## `checksched` -/

/-- The `while` of `checksched` up to the next command, or to its end. -/
def checkLoop (now : ℤ) (s : SchedState) : SchedState :=
  let leave := { s with history.returned := s.history.returned ++ [(now, s.schedcmds)] }
  match s.schedcmds with
  | [] => leave
  | sch :: rest =>
    if sch.time ≤ now then
      let s := scheddeltimed { s with schedcmds := rest }
      { s with
        waiting := ⟨now, sch⟩ :: s.waiting
        history.started := s.history.started ++ [(sch, rest)] }
    else leave

def checksched (now : ℤ) (s : SchedState) : SchedState :=
  if s.schedcmds = [] then s else checkLoop now s

/-- `execstring` returns: the loop of the innermost `checksched` goes on. -/
def resume (s : SchedState) : SchedState :=
  match s.waiting with
  | [] => s
  | call :: waiting =>
    let s := { s with waiting := waiting }
    checkLoop call.now (if s.schedcmds ≠ [] ∧ s.schedcmdtimed = false then schedaddtimed s else s)

/-! ## The arguments of `sched` -/

inductive SchedError where
  | usage
  | entries
  | badOption (c : UInt8)
  | optionExpected
  | arguments
  | timeSpecifier
  deriving DecidableEq

def SchedError.text : SchedError → Bytes
  | usage => Bytes.ascii "usage for delete: sched -<item#>."
  | entries => Bytes.ascii "not that many entries"
  | badOption c => Bytes.ascii "bad option: -" ++ [c]
  | optionExpected => Bytes.ascii "option expected"
  | arguments => Bytes.ascii "not enough arguments"
  | timeSpecifier => Bytes.ascii "bad time specifier"

inductive SchedRequest where
  | delete (sn : ℤ)
  | list
  | add (flags : ℕ) (time : Bytes) (cmd : List Bytes)

/-- `atoi` of a text that starts with a digit. -/
def atoi (s : Bytes) : ℤ :=
  (BitVec.ofNat 32 (min (digitsFrom 0 (s.takeWhile idigit)) (2 ^ 63 - 1))).toInt

/-- `SCHEDFLAG_TRASH_ZLE`. -/
def trashZle : ℕ := 1

/-- What follows the options. -/
def schedOperands (flags : ℕ) : List Bytes → Except SchedError SchedRequest
  | [] => .ok .list
  | [_] => .error .arguments
  | time :: cmd => .ok (.add flags time cmd)

/-- The options of `sched`. -/
def schedOptions (flags : ℕ) : List Bytes → Except SchedError SchedRequest
  | [] => schedOperands flags []
  | arg :: argv =>
    if headIs '-' arg then
      if arg.tail.head?.any idigit then .ok (.delete (atoi arg.tail))
      else if headIs '-' arg.tail then schedOperands flags argv
      else if arg.tail = [char 'o'] then schedOptions (flags ||| trashZle) argv
      else
        match arg.tail with
        | [] => .error .optionExpected
        | c :: _ => .error (.badOption c)
    else schedOperands flags (arg :: argv)

/-- What `sched` asks of the C library and of BrightDate: the seconds of an offset in days, the time
of an absolute date, and the seconds since midnight of a time. -/
structure SchedHost where
  dayOffset : Bytes → Option ℤ
  brightdate : Bytes → Option ℤ
  timeOfDay : ℤ → ℤ

/-- `:MM[:SS]`, with what stands behind. -/
def minutesSeconds (s : Bytes) : Option (ℤ × ℤ × Bytes) := do
  let (m, s) ← zstrtol s.tail 10
  if headIs ':' s then
    let (sec, s) ← zstrtol s.tail 10
    return (m.toInt, sec.toInt, s)
  else return (m.toInt, 0, s)

/-- The time that the first operand gives; the clock is read twice for a time of day. -/
def schedTime (host : SchedHost) (now later : ℤ) (s : Bytes) : Option ℤ :=
  let days := fun s : Bytes ↦ char '.' ∈ s ∧ char ':' ∉ s
  if headIs '+' s then
    if days s.tail then (host.dayOffset s.tail).map (now + ·)
    else do
      let (zl, s) ← zstrtol s.tail 10
      if headIs ':' s then
        let (m, sec, s) ← minutesSeconds s
        if s = [] then return now + zl.toInt * 3600 + m * 60 + sec else none
      else if s = [] then return now + zl.toInt
      else none
  else if days s then host.brightdate s
  else do
    let (zl, s) ← zstrtol s 10
    if headIs ':' s then
      let (m, sec, s) ← minutesSeconds s
      if s = [] ∨ headIs 'a' s ∨ headIs 'A' s ∨ headIs 'p' s ∨ headIs 'P' s then
        let h := if headIs 'p' s ∨ headIs 'P' s then zl.toInt + 12 else zl.toInt
        let t := now - host.timeOfDay now + (h * 3600 + m * 60 + sec)
        return if t < later then t + 3600 * 24 else t
      else none
    else if s = [] then return zl.toInt
    else none

/-! ## `sched` -/

/-- The entries in front of an item, the item, and those behind. -/
def findItem : ℤ → List Schedcmd → Option (List Schedcmd × Schedcmd × List Schedcmd)
  | _, [] => none
  | sn, sch :: rest =>
    if sn = 0 then some ([], sch, rest)
    else (findItem (sn - 1) rest).map fun found ↦ (sch :: found.1, found.2)

def deleteItem (sn : ℤ) (s : SchedState) : SchedState × Option SchedError :=
  if sn = 0 then (s, some .usage)
  else
    match findItem (sn - 1) s.schedcmds with
    | none => (s, some .entries)
    | some (front, sch, rest) =>
      let s := { s with history.deleted := s.history.deleted ++ [sch] }
      if front = [] then
        let s := { scheddeltimed s with schedcmds := rest }
        (if rest = [] then s else schedaddtimed s, none)
      else ({ s with schedcmds := front ++ rest }, none)

/-- The loop that looks for the place of an event, behind the head of the list. -/
def insertBehind (sch : Schedcmd) : List Schedcmd → List Schedcmd
  | [] => [sch]
  | next :: rest =>
    if next.time < sch.time then next :: insertBehind sch rest else sch :: next :: rest

def insertEvent (sch : Schedcmd) (s : SchedState) : SchedState :=
  match s.schedcmds with
  | [] => schedaddtimed { s with schedcmds := [sch] }
  | first :: rest =>
    if sch.time < first.time then
      schedaddtimed { scheddeltimed s with schedcmds := sch :: first :: rest }
    else { s with schedcmds := first :: insertBehind sch rest }

/-- The new entry of the list. -/
def newEvent (s : SchedState) (flags : ℕ) (t : ℤ) (cmd : List Bytes) : Schedcmd :=
  ⟨s.history.added, [char ' '].intercalate cmd, t, flags⟩

def bin_sched (host : SchedHost) (now later : ℤ) (argv : List Bytes) (s : SchedState) :
    SchedState × Option SchedError :=
  match schedOptions 0 argv with
  | .error e => (s, some e)
  | .ok .list => (s, none)
  | .ok (.delete sn) => deleteItem sn s
  | .ok (.add flags time cmd) =>
    match schedTime host now later time with
    | none => (s, some .timeSpecifier)
    | some t =>
      (insertEvent (newEvent s flags t cmd)
        { s with history.added := s.history.added + 1 }, none)

/-! ## Runs -/

inductive Event where
  | sched (now later : ℤ) (argv : List Bytes)
  | check (now : ℤ)
  | resume

def step (host : SchedHost) (s : SchedState) : Event → SchedState
  | .sched now later argv => (bin_sched host now later argv s).1
  | .check now => checksched now s
  | .resume => resume s

/-- The time of the event that a step adds. -/
def addedTime (host : SchedHost) : Event → Option ℤ
  | .sched now later argv =>
    match schedOptions 0 argv with
    | .ok (.add _ time _) => schedTime host now later time
    | _ => none
  | _ => none

end Bsh.Sched

/-!
# The order of scheduled commands

Whatever the commands do, the list stays in time order, its head is registered whenever no command
is running, and every event is pending, started once, or deleted.  Events of one time start in the
order they were added as long as no event is added whose time a pending event other than the head
already has: the loop that looks for its place stops in front of such an event.
-/

namespace Bsh.Sched

open Bsh.Library Bsh.Shell List

/-! ## What is expected of a run -/

/-- The order in which events are to start. -/
def Before (a b : Schedcmd) : Prop := a.time < b.time ∨ a.time = b.time ∧ a.serial < b.serial

def headTimer (schedcmds : List Schedcmd) : List Timedfn :=
  (schedcmds.head?.map fun sch ↦ ⟨.checksched, sch.time⟩).toList

structure SchedRight (s : SchedState) : Prop where
  sorted : s.schedcmds.Pairwise fun a b ↦ a.time ≤ b.time
  flag : s.waiting = [] → (s.schedcmdtimed = true ↔ s.schedcmds ≠ [])
  timer : s.waiting = [] → s.timedfns = headTimer s.schedcmds
  /-- Every event that was added is pending, started or deleted. -/
  accounted : ((s.schedcmds ++ s.history.started.map Prod.fst ++ s.history.deleted).map
    Schedcmd.serial).Perm (List.range s.history.added)
  /-- No event starts twice, and none that was deleted. -/
  once : ((s.history.started.map Prod.fst ++ s.history.deleted).map Schedcmd.serial).Nodup
  /-- When `checksched` returns, nothing is pending whose time has come. -/
  due : ∀ call ∈ s.history.returned, ∀ sch ∈ call.2, call.1 < sch.time
  /-- An event starts before all that are pending. -/
  inOrder : ∀ entry ∈ s.history.started, ∀ sch ∈ entry.2, Before entry.1 sch

/-- No pending event other than the head has the time of the event that is added. -/
def NoTie (host : SchedHost) (s : SchedState) (event : Event) : Prop :=
  ∀ t, addedTime host event = some t → ∀ sch ∈ s.schedcmds.tail, sch.time ≠ t

/-! ## The invariant -/

/-- An order of events that refines the order of their times. -/
structure TimeOrder (R : Schedcmd → Schedcmd → Prop) : Prop where
  le {a b : Schedcmd} : R a b → a.time ≤ b.time
  of_lt {a b : Schedcmd} : a.time < b.time → R a b
  of_serial {a b : Schedcmd} : a.time = b.time → a.serial < b.serial → R a b

theorem timeOrder_le : TimeOrder fun a b ↦ a.time ≤ b.time where
  le h := h
  of_lt h := h.le
  of_serial h _ := h.le

theorem timeOrder_before : TimeOrder Before where
  le h := h.elim le_of_lt fun h ↦ h.1.le
  of_lt h := .inl h
  of_serial h hserial := .inr ⟨h, hserial⟩

/-- The list and what the run has done. -/
structure Listed (R : Schedcmd → Schedcmd → Prop) (schedcmds : List Schedcmd) (history : History) :
    Prop where
  sorted : schedcmds.Pairwise R
  accounted : ((schedcmds ++ history.started.map Prod.fst ++ history.deleted).map
    Schedcmd.serial).Perm (List.range history.added)
  due : ∀ call ∈ history.returned, ∀ sch ∈ call.2, call.1 < sch.time
  inOrder : ∀ entry ∈ history.started, ∀ sch ∈ entry.2, R entry.1 sch

structure Kept (R : Schedcmd → Schedcmd → Prop) (s : SchedState) : Prop where
  listed : Listed R s.schedcmds s.history
  timer : s.timedfns = if s.schedcmdtimed then headTimer s.schedcmds else []
  pending : s.schedcmdtimed = true → s.schedcmds ≠ []
  settled : s.waiting = [] → s.schedcmds ≠ [] → s.schedcmdtimed = true

variable {R : Schedcmd → Schedcmd → Prop} {s : SchedState} {schedcmds rest : List Schedcmd}
  {sch : Schedcmd} {history : History} {now : ℤ}

theorem kept_start : Kept R .start where
  listed := ⟨.nil, .nil, (fun _ h ↦ nomatch h), (fun _ h ↦ nomatch h)⟩
  timer := rfl
  pending h := nomatch h
  settled _ h := absurd rfl h

theorem scheddeltimed_eq (schedcmds : List Schedcmd)
    (h : s.timedfns = if s.schedcmdtimed then headTimer schedcmds else []) :
    scheddeltimed s = { s with timedfns := [], schedcmdtimed := false } := by
  unfold scheddeltimed
  by_cases htimed : s.schedcmdtimed = true
  · have hdelete : deltimedfn .checksched s.timedfns = [] := by
      rw [h, if_pos htimed]
      cases schedcmds <;> rfl
    rw [if_pos htimed, hdelete]
  · have hempty : s.timedfns = [] := h.trans (if_neg htimed)
    rw [if_neg htimed, ← hempty, ← eq_false_of_ne_true htimed]

theorem schedaddtimed_eq (hcmds : s.schedcmds = sch :: rest) (htimed : s.schedcmdtimed = false)
    (htimedfns : s.timedfns = []) :
    schedaddtimed s = { s with timedfns := headTimer (sch :: rest), schedcmdtimed := true } := by
  obtain ⟨schedcmds, timed, timedfns, waiting, history⟩ := s
  subst hcmds htimed htimedfns
  rfl

theorem kept_schedaddtimed (hlisted : Listed R s.schedcmds s.history)
    (hcmds : s.schedcmds = sch :: rest) (htimed : s.schedcmdtimed = false)
    (htimedfns : s.timedfns = []) : Kept R (schedaddtimed s) := by
  rw [schedaddtimed_eq hcmds htimed htimedfns, ← hcmds]
  have hne : s.schedcmds ≠ [] := hcmds ▸ cons_ne_nil sch rest
  exact ⟨hlisted, rfl, fun _ ↦ hne, fun _ _ ↦ rfl⟩

theorem Listed.serial_lt (h : Listed R schedcmds history) (hsch : sch ∈ schedcmds) :
    sch.serial < history.added := by
  have hmem : sch.serial ∈ (schedcmds ++ history.started.map Prod.fst ++ history.deleted).map
      Schedcmd.serial := by
    apply mem_map_of_mem
    exact mem_append_left _ (mem_append_left _ hsch)
  exact List.mem_range.mp (h.accounted.mem_iff.mp hmem)

/-! ## Checking -/

theorem Listed.started (h : Listed R (sch :: rest) history) :
    Listed R rest { history with started := history.started ++ [(sch, rest)] } := by
  have hsorted := List.pairwise_cons.mp h.sorted
  refine ⟨hsorted.2, ?_, h.due, ?_⟩
  · refine List.Perm.trans (List.Perm.map _ ?_) h.accounted
    rw [map_append, perm_iff_count]
    simp only [count_append, count_cons, map_cons, map_nil, count_nil]
    omega
  · intro entry hentry
    rcases List.mem_append.mp hentry with hold | hnew
    · exact h.inOrder entry hold
    · rw [List.mem_singleton.mp hnew]
      exact hsorted.1

theorem Listed.returned (h : Listed R schedcmds history)
    (hdue : ∀ sch ∈ schedcmds, now < sch.time) :
    Listed R schedcmds { history with returned := history.returned ++ [(now, schedcmds)] } := by
  refine ⟨h.sorted, h.accounted, ?_, h.inOrder⟩
  intro call hcall
  rcases List.mem_append.mp hcall with hold | hnew
  · exact h.due call hold
  · rw [List.mem_singleton.mp hnew]
    exact hdue

theorem kept_checkLoop (hR : TimeOrder R) (h : Kept R s) : Kept R (checkLoop now s) := by
  obtain ⟨schedcmds, timed, timedfns, waiting, history⟩ := s
  obtain ⟨hlisted, htimer, hpending, hsettled⟩ := h
  unfold checkLoop
  cases schedcmds with
  | nil => exact ⟨hlisted.returned (fun _ h ↦ nomatch h), htimer, hpending, hsettled⟩
  | cons sch rest =>
    dsimp only
    by_cases htime : sch.time ≤ now
    · have hdelete := @scheddeltimed_eq ⟨rest, timed, timedfns, waiting, history⟩ (sch :: rest) htimer
      rw [if_pos htime, hdelete]
      exact ⟨hlisted.started, rfl, (fun h ↦ nomatch h), (fun h ↦ nomatch h)⟩
    · rw [if_neg htime]
      refine ⟨hlisted.returned ?_, htimer, hpending, hsettled⟩
      have hsorted := List.pairwise_cons.mp hlisted.sorted
      rw [not_le] at htime
      exact List.forall_mem_cons.mpr ⟨htime, fun b hb ↦ htime.trans_le (hR.le (hsorted.1 b hb))⟩

theorem kept_checksched (hR : TimeOrder R) (h : Kept R s) : Kept R (checksched now s) := by
  unfold checksched
  split
  · exact h
  · exact kept_checkLoop hR h

/-- After a command the head is registered again, if the command has not done it. -/
theorem kept_resume (hR : TimeOrder R) (h : Kept R s) : Kept R (resume s) := by
  obtain ⟨schedcmds, timed, timedfns, waiting, history⟩ := s
  obtain ⟨hlisted, htimer, hpending, hsettled⟩ := h
  cases waiting with
  | nil => exact ⟨hlisted, htimer, hpending, hsettled⟩
  | cons call waiting =>
    apply kept_checkLoop hR
    split
    · rename_i hoff
      obtain ⟨sch, rest, hcmds⟩ := exists_cons_of_ne_nil hoff.1
      have hempty : timedfns = [] := by
        dsimp only at htimer hoff
        rw [htimer, hoff.2]
        rfl
      exact @kept_schedaddtimed R _ rest sch hlisted
        hcmds hoff.2 hempty
    · rename_i hon
      refine ⟨hlisted, htimer, hpending, fun _ hcmds ↦ ?_⟩
      exact eq_true_of_ne_false (mt (And.intro hcmds) hon)

/-! ## Deleting -/

theorem findItem_eq {sn : ℤ} {front : List Schedcmd}
    (h : findItem sn schedcmds = some (front, sch, rest)) : schedcmds = front ++ sch :: rest := by
  induction schedcmds generalizing sn front with
  | nil => cases h
  | cons first schedcmds ih =>
    rw [findItem] at h
    split at h
    · cases h
      rfl
    · obtain ⟨⟨front', sch', rest'⟩, hfound, heq⟩ := Option.map_eq_some_iff.mp h
      cases heq
      rw [ih hfound, cons_append]

theorem Listed.deleted {front : List Schedcmd} (h : Listed R (front ++ sch :: rest) history) :
    Listed R (front ++ rest) { history with deleted := history.deleted ++ [sch] } := by
  refine ⟨?_, ?_, h.due, h.inOrder⟩
  · exact h.sorted.sublist ((sublist_cons_self sch rest).append_left front)
  · refine List.Perm.trans (List.Perm.map _ ?_) h.accounted
    rw [perm_iff_count]
    simp only [count_append, count_cons, count_nil]
    omega

theorem kept_deleteItem {sn : ℤ} (h : Kept R s) : Kept R (deleteItem sn s).1 := by
  unfold deleteItem
  split
  · exact h
  · cases hfind : findItem (sn - 1) s.schedcmds with
    | none => exact h
    | some found =>
      obtain ⟨front, sch, rest⟩ := found
      have hcmds := findItem_eq hfind
      have hlisted := (hcmds ▸ h.listed).deleted
      dsimp only
      by_cases hfront : front = []
      · subst hfront
        have hdelete := @scheddeltimed_eq { s with history.deleted := s.history.deleted ++ [sch] }
          s.schedcmds h.timer
        rw [if_pos rfl, hdelete]
        cases rest with
        | nil =>
          exact ⟨hlisted, rfl, (fun h ↦ nomatch h), fun _ h ↦ absurd rfl h⟩
        | cons next rest =>
          exact @kept_schedaddtimed R ⟨next :: rest, false, [], s.waiting, _⟩ rest next hlisted
            rfl rfl rfl
      · obtain ⟨first, front, rfl⟩ := exists_cons_of_ne_nil hfront
        have hhead : headTimer s.schedcmds = headTimer (first :: front ++ rest) := by
          rw [hcmds]
          rfl
        have hne : first :: front ++ rest ≠ [] := cons_ne_nil first (front ++ rest)
        refine ⟨hlisted, hhead ▸ h.timer, fun _ ↦ hne, fun hwaiting _ ↦ h.settled hwaiting ?_⟩
        rw [hcmds]
        exact cons_ne_nil _ _

/-! ## Inserting -/

theorem insertBehind_perm (sch : Schedcmd) (rest : List Schedcmd) :
    (insertBehind sch rest).Perm (sch :: rest) := by
  induction rest with
  | nil => exact .refl _
  | cons next rest ih =>
    rw [insertBehind]
    split
    · exact (ih.cons next).trans (.swap sch next rest)
    · exact .refl _

/-- The place that the loop finds is the right one, if no event behind is to come first. -/
theorem insertBehind_sorted (hR : TimeOrder R) (hrest : rest.Pairwise R)
    (hplace : ∀ next ∈ rest, sch.time ≤ next.time → R sch next) :
    (insertBehind sch rest).Pairwise R := by
  induction rest with
  | nil => exact pairwise_singleton R sch
  | cons next rest ih =>
    rw [pairwise_cons] at hrest
    rw [forall_mem_cons] at hplace
    rw [insertBehind]
    by_cases hnext : next.time < sch.time
    · rw [if_pos hnext, pairwise_cons]
      refine ⟨fun other hother ↦ ?_, ih hrest.2 hplace.2⟩
      rcases List.mem_cons.mp ((insertBehind_perm sch rest).mem_iff.mp hother) with rfl | hmem
      · exact hR.of_lt hnext
      · exact hrest.1 other hmem
    · rw [if_neg hnext, pairwise_cons, pairwise_cons]
      rw [not_lt] at hnext
      refine ⟨List.forall_mem_cons.mpr ⟨hplace.1 hnext, fun other hother ↦ ?_⟩, hrest⟩
      exact hplace.2 other hother (hnext.trans (hR.le (hrest.1 other hother)))

theorem Listed.added {schedcmds' : List Schedcmd} (h : Listed R schedcmds history)
    (hperm : schedcmds'.Perm (sch :: schedcmds)) (hserial : sch.serial = history.added)
    (hsorted : schedcmds'.Pairwise R) :
    Listed R schedcmds' { history with added := history.added + 1 } := by
  refine ⟨hsorted, ?_, h.due, h.inOrder⟩
  have hfront := (hperm.append_right (history.started.map Prod.fst)).append_right history.deleted
  calc
    _ = (schedcmds' ++ history.started.map Prod.fst ++ history.deleted).map Schedcmd.serial := rfl
    (_ : List ℕ).Perm _ := hfront.map Schedcmd.serial
    (_ : List ℕ).Perm (sch.serial :: List.range history.added) := h.accounted.cons sch.serial
    (_ : List ℕ).Perm (List.range history.added ++ [history.added]) := by
      rw [hserial]
      exact (perm_append_singleton _ _).symm
    _ = List.range (history.added + 1) := List.range_succ.symm

theorem kept_insertEvent (hR : TimeOrder R) (h : Kept R s)
    (hserial : sch.serial = s.history.added)
    (hplace : ∀ next ∈ s.schedcmds.tail, sch.time ≤ next.time → R sch next) :
    Kept R (insertEvent sch { s with history.added := s.history.added + 1 }) := by
  obtain ⟨schedcmds, timed, timedfns, waiting, history⟩ := s
  have hlisted := h.listed
  cases schedcmds with
  | nil =>
    have htimed : timed = false := by
      apply eq_false_of_ne_true
      exact fun hon ↦ h.pending hon rfl
    have hempty : timedfns = [] := h.timer.trans (ite_self _)
    subst htimed hempty
    exact @kept_schedaddtimed R ⟨[sch], false, [], waiting, _⟩ [] sch
      (hlisted.added (.refl [sch]) hserial (pairwise_singleton R sch)) rfl rfl rfl
  | cons first rest =>
    have hsorted := List.pairwise_cons.mp hlisted.sorted
    unfold insertEvent
    dsimp only
    by_cases hfirst : sch.time < first.time
    · have hdelete := @scheddeltimed_eq ⟨first :: rest, timed, timedfns, waiting,
        { history with added := history.added + 1 }⟩ (first :: rest) h.timer
      have hsorted' : (sch :: first :: rest).Pairwise R := by
        refine List.pairwise_cons.mpr ⟨List.forall_mem_cons.mpr ⟨hR.of_lt hfirst, ?_⟩, hlisted.sorted⟩
        exact fun next hnext ↦ hR.of_lt (hfirst.trans_le (hR.le (hsorted.1 next hnext)))
      rw [if_pos hfirst, hdelete]
      exact @kept_schedaddtimed R _ _ _
        (hlisted.added (.refl _) hserial hsorted') rfl rfl rfl
    · rw [if_neg hfirst]
      have hperm : (first :: insertBehind sch rest).Perm (sch :: first :: rest) :=
        ((insertBehind_perm sch rest).cons first).trans (.swap sch first rest)
      have hhead : R first sch := by
        rcases (not_lt.mp hfirst).lt_or_eq with hlt | heq
        · exact hR.of_lt hlt
        · apply hR.of_serial heq
          rw [hserial]
          exact hlisted.serial_lt mem_cons_self
      refine ⟨hlisted.added hperm hserial ?_, h.timer, fun _ ↦ cons_ne_nil _ _,
        fun hwaiting _ ↦ h.settled hwaiting (cons_ne_nil _ _)⟩
      refine List.pairwise_cons.mpr ⟨fun other hother ↦ ?_, insertBehind_sorted hR hsorted.2 hplace⟩
      rcases List.mem_cons.mp ((insertBehind_perm sch rest).mem_iff.mp hother) with rfl | hmem
      · exact hhead
      · exact hsorted.1 other hmem

/-! ## Runs -/

variable {host : SchedHost} {event : Event}

/-- A step keeps an order, if an event that it adds comes before those behind the head that are not
earlier. -/
theorem kept_step (hR : TimeOrder R) (h : Kept R s)
    (hplace : ∀ sch : Schedcmd, addedTime host event = some sch.time →
      ∀ next ∈ s.schedcmds.tail, sch.time ≤ next.time → R sch next) :
    Kept R (step host s event) := by
  cases event with
  | check now => exact kept_checksched hR h
  | resume => exact kept_resume hR h
  | sched now later argv =>
    unfold step bin_sched
    unfold addedTime at hplace
    dsimp only at hplace ⊢
    cases hoptions : schedOptions 0 argv with
    | error e => exact h
    | ok request =>
      rw [hoptions] at hplace
      cases request with
      | list => exact h
      | delete sn => exact kept_deleteItem h
      | add flags time cmd =>
        dsimp only at hplace ⊢
        cases htime : schedTime host now later time with
        | none => exact h
        | some t => exact kept_insertEvent hR h rfl (hplace _ htime)

/-- The list is in time order and its timer is right in every run. -/
theorem kept_run (host : SchedHost) (events : List Event) :
    Kept (fun a b ↦ a.time ≤ b.time) (run (step host) .start events) := by
  apply run_invariant (Kept _) _ kept_start
  exact fun s event h ↦ kept_step timeOrder_le h fun _ _ _ _ hle ↦ hle

theorem kept_run_noTie {events : List Event}
    (h : Meets (step host) (NoTie host) .start events) :
    Kept Before (run (step host) .start events) := by
  apply h.invariant (Kept Before) _ kept_start
  intro s event hkept htie
  apply kept_step timeOrder_before hkept
  intro sch hsch next hnext hle
  exact .inl (hle.lt_of_ne (htie sch.time hsch next hnext).symm)

/-- What is expected holds in every state that a run without ties reaches. -/
theorem sched_right (host : SchedHost) {events : List Event}
    (h : Meets (step host) (NoTie host) .start events) :
    SchedRight (run (step host) .start events) := by
  have hkept := kept_run_noTie h
  have hflag : (run (step host) .start events).waiting = [] →
      ((run (step host) .start events).schedcmdtimed = true ↔
        (run (step host) .start events).schedcmds ≠ []) :=
    fun hwaiting ↦ ⟨hkept.pending, hkept.settled hwaiting⟩
  refine ⟨(kept_run host events).listed.sorted, hflag, fun hwaiting ↦ ?_, hkept.listed.accounted,
    ?_, hkept.listed.due, hkept.listed.inOrder⟩
  · rw [hkept.timer]
    split
    · rfl
    · rename_i hoff
      rw [not_not.mp (mt (hflag hwaiting).mpr hoff)]
      rfl
  · have hnodup := hkept.listed.accounted.nodup_iff.mpr nodup_range
    rw [append_assoc, map_append] at hnodup
    exact hnodup.of_append_right

/-- A host with the time of day of Greenwich, which reads no days. -/
def utcHost : SchedHost where
  dayOffset _ := none
  brightdate _ := none
  timeOfDay t := t % 86400

/-- `sched time cmd` at 0. -/
def schedAt (time cmd : Char) : Event := .sched 0 0 [[char time], [char cmd]]

theorem sched_right_two :
    Meets (step utcHost) (NoTie utcHost) .start
        [schedAt '7' 'b', schedAt '5' 'a', .check 6, .resume] ∧
      SchedRight (run (step utcHost) .start
        [schedAt '7' 'b', schedAt '5' 'a', .check 6, .resume]) := by
  have hmeets : Meets (step utcHost) (NoTie utcHost) .start
      [schedAt '7' 'b', schedAt '5' 'a', .check 6, .resume] := by
    refine ⟨?_, ?_, ?_, ?_, trivial⟩
    · exact fun _ _ _ hsch ↦ nomatch hsch
    · exact fun _ _ _ hsch ↦ nomatch hsch
    · exact fun _ ht ↦ nomatch ht
    · exact fun _ ht ↦ nomatch ht
  exact ⟨hmeets, sched_right utcHost hmeets⟩

/-- Of three commands for one time the third starts before the second. -/
theorem not_sched_right_ties :
    ¬ SchedRight (run (step utcHost) .start
      [schedAt '5' 'a', schedAt '5' 'b', schedAt '5' 'c', .check 6, .resume]) := by
  have hstarted : (run (step utcHost) .start
      [schedAt '5' 'a', schedAt '5' 'b', schedAt '5' 'c', .check 6, .resume]).history.started =
        [(⟨0, [char 'a'], 5, 0⟩, [⟨2, [char 'c'], 5, 0⟩, ⟨1, [char 'b'], 5, 0⟩]),
          (⟨2, [char 'c'], 5, 0⟩, [⟨1, [char 'b'], 5, 0⟩])] := by
    decide
  intro h
  have hbefore := h.inOrder _
    (hstarted ▸ mem_cons_of_mem _ mem_cons_self) _ mem_cons_self
  revert hbefore
  unfold Before
  decide

end Bsh.Sched
