import SystemsLabs.Library.Runs
import SystemsLabs.Tsh.Jobs

/-!
# The shell, its children and its signals

One step is one statement of the main program or of a running signal handler, or an event of the
kernel. A signal interrupts the main program or another handler between any two statements
unless it is blocked. Searches that another handler can interrupt read one slot at a time.
-/

namespace SystemsLabs.Tsh

/-- What a child process does. A stop is reported once. -/
inductive Status
  | running
  | stopped (reported : Bool)
  | exited
  | killed
deriving DecidableEq, Repr

/-- An unreaped child. It enters its own process group by `setpgid`. The field `added` records
that `addjob` returned 1 for it, and no step reads it. -/
structure Child where
  pid : ℤ
  status : Status
  grouped : Bool
  added : Bool
deriving DecidableEq, Repr

/-- The keyboard signals, which the shell forwards. -/
inductive Key
  | int
  | tstp
deriving DecidableEq, Repr

inductive Signal
  | chld
  | key (k : Key)
deriving DecidableEq, Repr

/-- The operand of `fg` and `bg`. -/
inductive Target
  | pid (p : ℤ)
  | jid (j : ℤ)
deriving DecidableEq, Repr

/-- A command line that starts a process. -/
structure Launch where
  background : Bool
  cmdline : String
deriving DecidableEq, Repr

/-- A command line. The ones that only print are a blank line, and `fg` or `bg` with a malformed
operand. -/
inductive Command
  | quit
  | prints
  | jobs
  | bgfg (fg : Bool) (target : Target)
  | launch (l : Launch)
deriving DecidableEq, Repr

/-- The next statement of the main program. -/
inductive Main
  | prompt
  -- `eval`
  | block (l : Launch)
  | fork (l : Launch)
  | unblock (l : Launch) (pid : ℤ)
  -- `addjob`
  | addCheck (l : Launch) (pid : ℤ)
  | addSearch (l : Launch) (pid : ℤ) (i : ℕ)
  | addPid (l : Launch) (pid : ℤ) (i : Fin maxJobs)
  | addState (l : Launch) (pid : ℤ) (i : Fin maxJobs)
  | addJid (l : Launch) (pid : ℤ) (i : Fin maxJobs)
  | addWrap (l : Launch) (pid : ℤ) (i : Fin maxJobs)
  | addCmdline (l : Launch) (pid : ℤ) (i : Fin maxJobs)
  -- `waitfg`
  | waitSearch (pid : ℤ) (i : ℕ)
  | waiting (i : Fin maxJobs)
  -- `do_bgfg`
  | find (fg : Bool) (target : Target) (i : ℕ)
  | readPid (fg : Bool) (i : Fin maxJobs)
  | sendCont (fg : Bool) (i : Fin maxJobs) (pid : ℤ)
  | setState (fg : Bool) (i : Fin maxJobs) (pid : ℤ)
  -- `listjobs`
  | listTest (i : ℕ)
  | listIds (i : Fin maxJobs)
  | listState (i : Fin maxJobs)
  | listError (i : Fin maxJobs)
  | listCmdline (i : Fin maxJobs)
deriving DecidableEq, Repr

/-- The next statement of `sigchld_handler`. -/
inductive Reap
  | idle
  | wait
  | stopped (pid : ℤ)
  | setStopped (i : Fin maxJobs)
  -- `deletejob`
  | delete (pid : ℤ)
  | clearPid (pid : ℤ) (i : Fin maxJobs)
  | clearJid (i : Fin maxJobs)
  | clearState (i : Fin maxJobs)
  | clearCmdline (i : Fin maxJobs)
  | renumber
deriving DecidableEq, Repr

/-- The next statement of `sigint_handler` or `sigtstp_handler`. -/
inductive Forward
  | idle
  | search (i : ℕ)
  | found (i : Fin maxJobs)
  | send (pid : ℤ)
deriving DecidableEq, Repr

/-- `stack` holds the signals whose handlers have started and not returned, the running one in
front. `masked` says that `eval` blocks `SIGINT` and `SIGCHLD`, and `strays` are the process groups
of running descendants of the children. -/
structure Shell where
  table : Table
  main : Main
  reap : Reap
  forward : Key → Forward
  stack : List Signal
  masked : Bool
  children : List Child
  strays : List ℤ
  exited : Bool

def start : Shell :=
  ⟨initjobs, Main.prompt, Reap.idle, fun _ => Forward.idle, [], false, [], [], false⟩

inductive ChildEvent
  | setpgid
  | stop
  | cont
  | exit
  | kill
  | spawn
deriving DecidableEq, Repr

inductive Event
  | command (c : Command)
  | fork (pid : ℤ)
  | forkFails
  | main
  | deliver (sig : Signal)
  | handler
  | report (pid : ℤ)
  | drained
  | child (pid : ℤ) (e : ChildEvent)
  | leave (pid : ℤ)
deriving DecidableEq, Repr

/-- The process group exists. -/
def Shell.hasGroup (s : Shell) (pid : ℤ) : Prop :=
  (∃ c ∈ s.children, c.pid = pid ∧ c.grouped = true) ∨ pid ∈ s.strays

instance (s : Shell) (pid : ℤ) : Decidable (s.hasGroup pid) :=
  inferInstanceAs (Decidable (_ ∨ _))

/-- `kill(-pid, sig)` returns 0. For the process ID zero it signals the group of the shell. -/
def Shell.canKill (s : Shell) (pid : ℤ) : Prop := pid = 0 ∨ s.hasGroup pid

instance (s : Shell) (pid : ℤ) : Decidable (s.canKill pid) :=
  inferInstanceAs (Decidable (_ ∨ _))

/-- The child gets the signal of `kill(-pid, sig)`. -/
def Child.inGroup (c : Child) (pid : ℤ) : Prop :=
  (pid = 0 ∧ c.grouped = false) ∨ (c.pid = pid ∧ c.grouped = true)

instance (c : Child) (pid : ℤ) : Decidable (c.inGroup pid) := inferInstanceAs (Decidable (_ ∨ _))

/-- `SIGCONT` continues the child if it is stopped. -/
def Child.resumed (c : Child) : Child :=
  match c.status with
  | Status.stopped _ => { c with status := Status.running }
  | _ => c

def Child.continued (pid : ℤ) (c : Child) : Child := if c.inGroup pid then c.resumed else c

/-- `addjob` returned 1 for the child. -/
def Child.tracked (pid : ℤ) (c : Child) : Child := if c.pid = pid then { c with added := true } else c

/-- A slot is the one that `getjobpid` or `getjobjid` looks for. -/
def Target.matches (target : Target) (job : Job) : Prop :=
  match target with
  | Target.pid p => job.pid = p
  | Target.jid j => job.jid = j

instance (target : Target) (job : Job) : Decidable (target.matches job) := by
  cases target <;> exact inferInstanceAs (Decidable (_ = _))

def Target.value : Target → ℤ
  | Target.pid p => p
  | Target.jid j => j

/-- The next statement of the main program. Output is left out. -/
def mainStep (s : Shell) : Option Shell :=
  match s.main with
  | Main.prompt => none
  | Main.block l => some { s with masked := true, main := Main.fork l }
  | Main.fork _ => none
  | Main.addCheck l pid =>
    some { s with main := if pid < 1 then Main.unblock l pid else Main.addSearch l pid 0 }
  | Main.addSearch l pid i =>
    some { s with main :=
      if h : i < maxJobs then
        if (s.table.jobs ⟨i, h⟩).pid = 0 then Main.addPid l pid ⟨i, h⟩
        else Main.addSearch l pid (i + 1)
      else Main.unblock l pid }
  | Main.addPid l pid i =>
    some { s with
      table := s.table.modify i (fun job => { job with pid := pid })
      main := Main.addState l pid i }
  | Main.addState l pid i =>
    some { s with
      table := s.table.modify i
        (fun job => { job with state := if l.background then JobState.bg else JobState.fg })
      main := Main.addJid l pid i }
  | Main.addJid l pid i =>
    some { s with
      table :=
        { s.table.modify i (fun job => { job with jid := s.table.nextjid }) with
          nextjid := s.table.nextjid + 1 }
      main := Main.addWrap l pid i }
  | Main.addWrap l pid i =>
    some { s with
      table := { s.table with
        nextjid := if s.table.nextjid > maxJobs then 1 else s.table.nextjid }
      main := Main.addCmdline l pid i }
  | Main.addCmdline l pid i =>
    some { s with
      table := s.table.modify i (fun job => { job with cmdline := l.cmdline })
      children := s.children.map (Child.tracked pid)
      main := Main.unblock l pid }
  | Main.unblock l pid =>
    some { s with
      masked := false
      main := if l.background then Main.prompt else Main.waitSearch pid 0 }
  | Main.waitSearch pid i =>
    some { s with main :=
      if pid < 1 then Main.prompt
      else if h : i < maxJobs then
        if (s.table.jobs ⟨i, h⟩).pid = pid then Main.waiting ⟨i, h⟩
        else Main.waitSearch pid (i + 1)
      else Main.prompt }
  | Main.waiting i =>
    some { s with main :=
      if (s.table.jobs i).state = JobState.fg then Main.waiting i else Main.prompt }
  | Main.find fg target i =>
    some { s with main :=
      if target.value < 1 then Main.prompt
      else if h : i < maxJobs then
        if target.matches (s.table.jobs ⟨i, h⟩) then Main.readPid fg ⟨i, h⟩
        else Main.find fg target (i + 1)
      else Main.prompt }
  | Main.readPid fg i => some { s with main := Main.sendCont fg i (s.table.jobs i).pid }
  | Main.sendCont fg i pid =>
    if s.canKill pid then
      some { s with
        children := s.children.map (Child.continued pid)
        main := Main.setState fg i pid }
    else some { s with exited := true }
  | Main.setState fg i pid =>
    some { s with
      table := s.table.modify i
        (fun job => { job with state := if fg then JobState.fg else JobState.bg })
      main := if fg then Main.waitSearch pid 0 else Main.prompt }
  | Main.listTest i =>
    some { s with main :=
      if h : i < maxJobs then
        if (s.table.jobs ⟨i, h⟩).pid ≠ 0 then Main.listIds ⟨i, h⟩ else Main.listTest (i + 1)
      else Main.prompt }
  | Main.listIds i => some { s with main := Main.listState i }
  | Main.listState i =>
    some { s with main :=
      if (s.table.jobs i).state = JobState.undef then Main.listError i else Main.listCmdline i }
  | Main.listError i => some { s with main := Main.listCmdline i }
  | Main.listCmdline i => some { s with main := Main.listTest (i + 1) }

/-- The next statement of `sigchld_handler` other than `waitpid`, with the interrupted handlers
`rest`. -/
def reapStep (s : Shell) (rest : List Signal) : Option Shell :=
  match s.reap with
  | Reap.idle => none
  | Reap.wait => none
  | Reap.stopped pid =>
    match getjobpid s.table pid with
    | some i => some { s with reap := Reap.setStopped i }
    -- the handler returns although other children may have reports
    | none => some { s with reap := Reap.idle, stack := rest }
  | Reap.setStopped i =>
    some { s with
      table := s.table.modify i (fun job => { job with state := JobState.st })
      reap := Reap.wait }
  | Reap.delete pid =>
    match getjobpid s.table pid with
    | some i => some { s with reap := Reap.clearPid pid i }
    | none => some { s with reap := Reap.wait }
  | Reap.clearPid _ i =>
    some { s with
      table := s.table.modify i (fun job => { job with pid := 0 })
      reap := Reap.clearJid i }
  | Reap.clearJid i =>
    some { s with
      table := s.table.modify i (fun job => { job with jid := 0 })
      reap := Reap.clearState i }
  | Reap.clearState i =>
    some { s with
      table := s.table.modify i (fun job => { job with state := JobState.undef })
      reap := Reap.clearCmdline i }
  | Reap.clearCmdline i =>
    some { s with
      table := s.table.modify i (fun job => { job with cmdline := "" })
      reap := Reap.renumber }
  | Reap.renumber =>
    some { s with table := { s.table with nextjid := maxjid s.table + 1 }, reap := Reap.wait }

/-- The next statement of a handler that forwards a keyboard signal. What the signal does to the
members of the group is an event of theirs. -/
def forwardStep (s : Shell) (k : Key) (rest : List Signal) : Option Shell :=
  match s.forward k with
  | Forward.idle => none
  | Forward.search i =>
    if h : i < maxJobs then
      if (s.table.jobs ⟨i, h⟩).state = JobState.fg then
        some { s with forward := Function.update s.forward k (Forward.found ⟨i, h⟩) }
      else some { s with forward := Function.update s.forward k (Forward.search (i + 1)) }
    else some { s with forward := Function.update s.forward k Forward.idle, stack := rest }
  | Forward.found i =>
    some { s with forward := Function.update s.forward k (Forward.send (s.table.jobs i).pid) }
  | Forward.send pid =>
    if s.canKill pid then
      some { s with forward := Function.update s.forward k Forward.idle, stack := rest }
    else some { s with exited := true }

/-- `waitpid` has something to report about the child. -/
def Child.reportable (c : Child) : Bool :=
  match c.status with
  | Status.running => false
  | Status.stopped reported => !reported
  | Status.exited => true
  | Status.killed => true

/-- `waitpid` returns the child `pid`. A terminated child is reaped. -/
def report (s : Shell) (pid : ℤ) : Option Shell :=
  match s.children.find? (fun c => c.pid = pid && c.reportable) with
  | none => none
  | some c =>
    match c.status with
    | Status.stopped _ =>
      some { s with
        children := s.children.map
          (fun c => if c.pid = pid then { c with status := Status.stopped true } else c)
        reap := Reap.stopped pid }
    | _ =>
      some { s with
        children := s.children.filter (fun c => c.pid ≠ pid)
        reap := Reap.delete pid }

def Child.next (c : Child) : ChildEvent → Option Child
  | ChildEvent.setpgid => if c.status = Status.running then some { c with grouped := true } else none
  | ChildEvent.stop =>
    if c.status = Status.running then some { c with status := Status.stopped false } else none
  | ChildEvent.cont =>
    match c.status with
    | Status.stopped _ => some { c with status := Status.running }
    | _ => none
  | ChildEvent.exit =>
    if c.status = Status.running then some { c with status := Status.exited } else none
  | ChildEvent.kill =>
    match c.status with
    | Status.running => some { c with status := Status.killed }
    | Status.stopped _ => some { c with status := Status.killed }
    | _ => none
  | ChildEvent.spawn => if c.status = Status.running ∧ c.grouped = true then some c else none

def childStep (s : Shell) (pid : ℤ) (e : ChildEvent) : Option Shell :=
  match s.children.find? (fun c => c.pid = pid) with
  | none => none
  | some c =>
    match c.next e with
    | none => none
    | some c' =>
      some { s with
        children := s.children.map (fun d => if d.pid = pid then c' else d)
        strays := if e = ChildEvent.spawn then pid :: s.strays else s.strays }

/-- `eval` blocks the signal. -/
def Shell.blocks (s : Shell) (sig : Signal) : Prop :=
  s.masked = true ∧ (sig = Signal.chld ∨ sig = Signal.key Key.int)

instance (s : Shell) (sig : Signal) : Decidable (s.blocks sig) :=
  inferInstanceAs (Decidable (_ ∧ _))

/-- A handler starts. Its own signal is blocked until it returns. -/
def deliver (s : Shell) (sig : Signal) : Option Shell :=
  if sig ∈ s.stack ∨ s.blocks sig then none
  else
    match sig with
    | Signal.chld => some { s with stack := sig :: s.stack, reap := Reap.wait }
    | Signal.key k =>
      some { s with
        stack := sig :: s.stack
        forward := Function.update s.forward k (Forward.search 0) }

def command (s : Shell) (c : Command) : Option Shell :=
  match s.main with
  | Main.prompt =>
    match c with
    | Command.quit => some { s with exited := true }
    | Command.prints => some s
    | Command.jobs => some { s with main := Main.listTest 0 }
    | Command.bgfg fg target => some { s with main := Main.find fg target 0 }
    | Command.launch l => some { s with main := Main.block l }
  | _ => none

/-- `fork` returns the process ID of the new child in the shell. It is not that of an unreaped
child. -/
def fork (s : Shell) (pid : ℤ) : Option Shell :=
  match s.main with
  | Main.fork l =>
    if 0 < pid ∧ ∀ c ∈ s.children, c.pid ≠ pid then
      some { s with
        children := ⟨pid, Status.running, false, false⟩ :: s.children
        main := Main.addCheck l pid }
    else none
  | _ => none

def forkFails (s : Shell) : Option Shell :=
  match s.main with
  | Main.fork _ => some { s with exited := true }
  | _ => none

/-- The handler on top of the stack takes a step. -/
def handlerStep (s : Shell) : Option Shell :=
  match s.stack with
  | [] => none
  | Signal.chld :: rest => reapStep s rest
  | Signal.key k :: rest => forwardStep s k rest

/-- `waitpid` is the next statement of the running handler. -/
def Shell.waits (s : Shell) : Prop := s.stack.head? = some Signal.chld ∧ s.reap = Reap.wait

instance (s : Shell) : Decidable s.waits := inferInstanceAs (Decidable (_ ∧ _))

/-- `waitpid` has nothing to report, and the handler returns. -/
def drained (s : Shell) : Option Shell :=
  if ∀ c ∈ s.children, c.reportable = false then
    some { s with reap := Reap.idle, stack := s.stack.tail }
  else none

def step (s : Shell) (e : Event) : Option Shell :=
  if s.exited then none
  else
    match e with
    | Event.command c => if s.stack = [] then command s c else none
    | Event.fork pid => if s.stack = [] then fork s pid else none
    | Event.forkFails => if s.stack = [] then forkFails s else none
    | Event.main => if s.stack = [] then mainStep s else none
    | Event.deliver sig => deliver s sig
    | Event.handler => handlerStep s
    | Event.report pid => if s.waits then report s pid else none
    | Event.drained => if s.waits then drained s else none
    | Event.child pid e => childStep s pid e
    | Event.leave pid =>
      if pid ∈ s.strays then some { s with strays := s.strays.erase pid } else none

/-- What an event does. The statements of the main program and of the handlers stay functions. -/
inductive Moved (s : Shell) : Event → Shell → Prop
  | main {t : Shell} (hstack : s.stack = []) (h : mainStep s = some t) : Moved s Event.main t
  | reap {t : Shell} (rest : List Signal) (hrest : s.stack = Signal.chld :: rest)
    (h : reapStep s rest = some t) : Moved s Event.handler t
  | forward {t : Shell} (k : Key) (rest : List Signal) (hrest : s.stack = Signal.key k :: rest)
    (h : forwardStep s k rest = some t) : Moved s Event.handler t
  | command (c : Command) (m : Main) (exited : Bool) (hstack : s.stack = [])
    (hmain : s.main = Main.prompt)
    (hm : m = Main.prompt ∨ m = Main.listTest 0 ∨ (∃ fg target, m = Main.find fg target 0) ∨
      ∃ l, m = Main.block l) :
    Moved s (Event.command c) { s with main := m, exited := exited }
  | fork (l : Launch) (pid : ℤ) (hstack : s.stack = []) (hmain : s.main = Main.fork l)
    (hpid : 0 < pid) (hnew : ∀ c ∈ s.children, c.pid ≠ pid) :
    Moved s (Event.fork pid)
      { s with
        children := ⟨pid, Status.running, false, false⟩ :: s.children
        main := Main.addCheck l pid }
  | forkFails (l : Launch) (hstack : s.stack = []) (hmain : s.main = Main.fork l) :
    Moved s Event.forkFails { s with exited := true }
  | chld (hsig : Signal.chld ∉ s.stack) (hmasked : s.masked = false) :
    Moved s (Event.deliver Signal.chld)
      { s with stack := Signal.chld :: s.stack, reap := Reap.wait }
  | key (k : Key) (hsig : Signal.key k ∉ s.stack) :
    Moved s (Event.deliver (Signal.key k))
      { s with
        stack := Signal.key k :: s.stack
        forward := Function.update s.forward k (Forward.search 0) }
  | stopped (c : Child) (rest : List Signal) (hrest : s.stack = Signal.chld :: rest)
    (hreap : s.reap = Reap.wait) (hc : c ∈ s.children) :
    Moved s (Event.report c.pid)
      { s with
        children := s.children.map
          (fun d => if d.pid = c.pid then { d with status := Status.stopped true } else d)
        reap := Reap.stopped c.pid }
  | ended (c : Child) (rest : List Signal) (hrest : s.stack = Signal.chld :: rest)
    (hreap : s.reap = Reap.wait) (hc : c ∈ s.children) :
    Moved s (Event.report c.pid)
      { s with
        children := s.children.filter (fun d => d.pid ≠ c.pid)
        reap := Reap.delete c.pid }
  | drained (rest : List Signal) (hrest : s.stack = Signal.chld :: rest) (hreap : s.reap = Reap.wait) :
    Moved s Event.drained { s with reap := Reap.idle, stack := rest }
  | child (c c' : Child) (e : ChildEvent) (strays : List ℤ) (hc : c ∈ s.children)
    (hnext : c.next e = some c') :
    Moved s (Event.child c.pid e)
      { s with
        children := s.children.map (fun d => if d.pid = c.pid then c' else d)
        strays := strays }
  | leave (pid : ℤ) (strays : List ℤ) : Moved s (Event.leave pid) { s with strays := strays }

variable {s t : Shell}

lemma moved_of_command {c : Command} (hstack : s.stack = []) (h : command s c = some t) :
    Moved s (Event.command c) t := by
  unfold command at h
  cases hmain : s.main with
  | prompt =>
    have hsame : s = { s with main := Main.prompt, exited := s.exited } := by rw [← hmain]
    rw [hmain] at h
    cases c with
    | quit =>
      obtain rfl := Option.some.inj h
      exact Moved.command _ _ _ hstack hmain (Or.inl rfl)
    | prints =>
      obtain rfl := Option.some.inj h
      rw [hsame]
      exact Moved.command _ _ _ hstack rfl (Or.inl rfl)
    | jobs =>
      obtain rfl := Option.some.inj h
      exact Moved.command _ _ _ hstack hmain (Or.inr (Or.inl rfl))
    | bgfg fg target =>
      obtain rfl := Option.some.inj h
      exact Moved.command _ _ _ hstack hmain (Or.inr (Or.inr (Or.inl ⟨fg, target, rfl⟩)))
    | launch l =>
      obtain rfl := Option.some.inj h
      exact Moved.command _ _ _ hstack hmain (Or.inr (Or.inr (Or.inr ⟨l, rfl⟩)))
  | _ => simp [hmain] at h

lemma moved_of_fork {pid : ℤ} (hstack : s.stack = []) (h : fork s pid = some t) :
    Moved s (Event.fork pid) t := by
  unfold fork at h
  cases hmain : s.main with
  | fork l =>
    simp only [hmain] at h
    rw [Option.ite_none_right_eq_some] at h
    obtain ⟨⟨hpid, hnew⟩, ht⟩ := h
    obtain rfl := Option.some.inj ht
    exact Moved.fork l pid hstack hmain hpid hnew
  | _ => simp [hmain] at h

lemma moved_of_deliver {sig : Signal} (h : deliver s sig = some t) :
    Moved s (Event.deliver sig) t := by
  unfold deliver at h
  rw [Option.ite_none_left_eq_some] at h
  obtain ⟨hopen, h⟩ := h
  push Not at hopen
  cases sig with
  | chld =>
    obtain rfl := Option.some.inj h
    apply Moved.chld hopen.1
    cases hmasked : s.masked
    · rfl
    · exact absurd ⟨hmasked, Or.inl rfl⟩ hopen.2
  | key k =>
    obtain rfl := Option.some.inj h
    exact Moved.key k hopen.1

lemma moved_of_report {pid : ℤ} (hwaits : s.waits) (h : report s pid = some t) :
    Moved s (Event.report pid) t := by
  obtain ⟨rest, hrest⟩ := List.head?_eq_some_iff.mp hwaits.1
  unfold report at h
  cases hfind : s.children.find? (fun c => c.pid = pid && c.reportable) with
  | none => simp [hfind] at h
  | some c =>
    have hc := List.mem_of_find?_eq_some hfind
    have hpid := List.find?_some hfind
    simp only [Bool.and_eq_true, decide_eq_true_eq] at hpid
    obtain ⟨rfl, -⟩ := hpid
    rw [hfind] at h
    dsimp only at h
    split at h
    · obtain rfl := Option.some.inj h
      exact Moved.stopped c rest hrest hwaits.2 hc
    · obtain rfl := Option.some.inj h
      exact Moved.ended c rest hrest hwaits.2 hc

theorem moved_of_step {e : Event} (h : step s e = some t) : Moved s e t := by
  unfold step at h
  rw [Option.ite_none_left_eq_some] at h
  replace h := h.2
  cases e with
  | command c =>
    rw [Option.ite_none_right_eq_some] at h
    exact moved_of_command h.1 h.2
  | fork pid =>
    rw [Option.ite_none_right_eq_some] at h
    exact moved_of_fork h.1 h.2
  | forkFails =>
    rw [Option.ite_none_right_eq_some] at h
    obtain ⟨hstack, h⟩ := h
    unfold forkFails at h
    cases hmain : s.main with
    | fork l =>
      simp only [hmain, Option.some.injEq] at h
      subst h
      simpa only [hmain] using Moved.forkFails l hstack hmain
    | _ => simp [hmain] at h
  | main =>
    rw [Option.ite_none_right_eq_some] at h
    exact Moved.main h.1 h.2
  | deliver sig => exact moved_of_deliver h
  | handler =>
    dsimp only at h
    unfold handlerStep at h
    cases hstack : s.stack with
    | nil => simp [hstack] at h
    | cons sig rest =>
      rw [hstack] at h
      cases sig with
      | chld => exact Moved.reap rest hstack h
      | key k => exact Moved.forward k rest hstack h
  | report pid =>
    rw [Option.ite_none_right_eq_some] at h
    exact moved_of_report h.1 h.2
  | drained =>
    rw [Option.ite_none_right_eq_some] at h
    obtain ⟨hwaits, h⟩ := h
    obtain ⟨rest, hrest⟩ := List.head?_eq_some_iff.mp hwaits.1
    unfold drained at h
    rw [Option.ite_none_right_eq_some] at h
    obtain rfl := Option.some.inj h.2
    simpa only [hrest, List.tail_cons] using Moved.drained rest hrest hwaits.2
  | child pid e =>
    dsimp only at h
    unfold childStep at h
    cases hfind : s.children.find? (fun c => c.pid = pid) with
    | none => simp [hfind] at h
    | some c =>
      have hc := List.mem_of_find?_eq_some hfind
      obtain rfl : c.pid = pid := by simpa using List.find?_some hfind
      cases hnext : c.next e with
      | none => simp [hfind, hnext] at h
      | some c' =>
        simp only [hfind, hnext, Option.some.injEq] at h
        subst h
        exact Moved.child c c' e _ hc hnext
  | leave pid =>
    rw [Option.ite_none_right_eq_some] at h
    obtain rfl := Option.some.inj h.2
    exact Moved.leave pid _

lemma forwardStep_eq {k : Key} {rest : List Signal} (hstep : forwardStep s k rest = some t) :
    ∃ f stack exited, t = { s with forward := f, stack := stack, exited := exited } := by
  cases hforward : s.forward k with
  | idle => simp [forwardStep, hforward] at hstep
  | search i =>
    simp only [forwardStep, hforward] at hstep
    split at hstep
    · split at hstep <;> exact ⟨_, _, _, (Option.some.inj hstep).symm⟩
    · exact ⟨_, _, _, (Option.some.inj hstep).symm⟩
  | found i =>
    simp only [forwardStep, hforward] at hstep
    exact ⟨_, _, _, (Option.some.inj hstep).symm⟩
  | send pid =>
    simp only [forwardStep, hforward] at hstep
    split at hstep <;> exact ⟨_, _, _, (Option.some.inj hstep).symm⟩

lemma reapStep_main {rest : List Signal} (hstep : reapStep s rest = some t) : t.main = s.main := by
  cases hreap : s.reap with
  | idle | wait => simp [reapStep, hreap] at hstep
  | stopped pid | delete pid =>
    simp only [reapStep, hreap] at hstep
    split at hstep <;> (obtain rfl := Option.some.inj hstep; rfl)
  | _ =>
    simp only [reapStep, hreap, Option.some.injEq] at hstep
    rw [← hstep]

/-- The main program does not touch what the handlers keep between their steps. -/
lemma mainStep_handlers (hstep : mainStep s = some t) :
    t.reap = s.reap ∧ t.forward = s.forward := by
  cases hmain : s.main with
  | prompt | fork => simp [mainStep, hmain] at hstep
  | sendCont fg i pid =>
    simp only [mainStep, hmain] at hstep
    split at hstep <;> (obtain rfl := Option.some.inj hstep; exact ⟨rfl, rfl⟩)
  | _ =>
    simp only [mainStep, hmain, Option.some.injEq] at hstep
    rw [← hstep]
    exact ⟨rfl, rfl⟩

end SystemsLabs.Tsh
