import JvmLift.Source.Stmt

/-!
# Synchronized blocks

A section between entering and leaving a monitor is a `synchronized` block. The pass reads a body once and keeps the
section in progress: it is closed by the first statement that leaves a monitor, or at once by a `try` whose only handler
catches everything and throws again, since such a handler is there to leave the monitor. A section that is never closed
is left as it was.
-/

namespace JvmLift.Idiom

open Source

/-- The monitor of a statement that only calls `which` on it. -/
def monitorCall? (which : String) : Stmt → Option Expr
  | .evaluate (.staticCall owner name [monitor]) => if owner.isEmpty && name == which then some monitor else none
  | _ => none

def isMonitorExit (s : Stmt) : Bool :=
  (monitorCall? "monitorexit" s).isSome

/-- The body without any statement that leaves a monitor, at any depth. -/
def dropMonitorExits (body : List Stmt) : List Stmt :=
  Stmt.bottomUp (·.filter fun s => !isMonitorExit s) body

/-- Whether a handler ends with a `throw`. -/
def throwsAgain (body : List Stmt) : Bool :=
  match body.getLast? with
  | some (.throwValue _) => true
  | _ => false

/-- The body of a `try` with one handler, which catches everything and throws again. -/
def guardedBody? : Stmt → Option (List Stmt)
  | .tryCatch body (.handler type _ handler .done) | .tryCatch body (.handler type _ handler (.finally _)) =>
    if type == "Throwable" && throwsAgain handler then some body else none
  | _ => none

/-- A section whose end has not been met. -/
structure Section where
  /-- The statement that entered the monitor. -/
  enter : Stmt
  monitor : Expr
  /-- What followed it, last statement first. -/
  body : List Stmt

/-- What is known after the first statements of a body. -/
structure Sections where
  /-- Finished statements, the last one first. -/
  done : List Stmt := []
  current : Option Section := none

namespace Sections

/-- Finished statements without a last assignment of the monitor, which keeps a copy of it for the exits. -/
def dropCopy (monitor : Expr) : List Stmt → List Stmt
  | .assign target value :: done => if value.same monitor then done else .assign target value :: done
  | done => done

/-- Starts a section at a statement that enters a monitor. -/
def next (state : Sections) (s : Stmt) : Sections :=
  match monitorCall? "monitorenter" s with
  | some monitor => ⟨dropCopy monitor state.done, some ⟨s, monitor, []⟩⟩
  | none => ⟨s :: state.done, none⟩

/-- Adds a statement to a section, or closes it. -/
def extend (done : List Stmt) (section' : Section) (s : Stmt) : Sections :=
  match if section'.body.isEmpty then guardedBody? s else none with
  | some body => ⟨.synchronized section'.monitor (dropMonitorExits body) :: done, none⟩
  | none =>
    if isMonitorExit s then ⟨.synchronized section'.monitor section'.body.reverse :: done, none⟩
    else ⟨done, some { section' with body := s :: section'.body }⟩

def push (state : Sections) (s : Stmt) : Sections :=
  match state.current with
  | none => state.next s
  | some current => extend state.done current s

/-- The statements in order. A section in progress is given back as it was. -/
def finish (state : Sections) : List Stmt :=
  match state.current with
  | none => state.done.reverse
  | some current => state.done.reverse ++ current.enter :: current.body.reverse

end Sections

/-- Writes sections under a monitor as `synchronized` blocks. -/
def recoverSynchronized (body : List Stmt) : List Stmt :=
  (body.foldl Sections.push {}).finish

end JvmLift.Idiom
