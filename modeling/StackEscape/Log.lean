import StackEscape.Diagnostic

/-!
# Sinks

A sink receives findings in the order in which they are discovered. The log keeps them all; a
filter in front of another sink drops those of suppressed rules and counts them.
-/

namespace StackEscape

inductive Sink where
  /-- Keeps every finding, in order. -/
  | log (entries : List Diagnostic)
  /-- Drops the findings of some rules and hands the others on. -/
  | filter (suppressed : List Rule) (dropped : Nat) (inner : Sink)
deriving DecidableEq, Repr

namespace Sink

def empty : Sink := .log []

/-- A filter in front of a sink that has dropped nothing yet. -/
def suppressing (rules : List Rule) (inner : Sink) : Sink := .filter rules 0 inner

def report (d : Diagnostic) : Sink → Sink
  | .log entries => .log (entries ++ [d])
  | .filter suppressed dropped inner =>
    if suppressed.contains d.rule then .filter suppressed (dropped + 1) inner
    else .filter suppressed dropped (inner.report d)

def reportAll (s : Sink) (ds : List Diagnostic) : Sink := ds.foldl (fun s d => s.report d) s

/-- What the log behind all filters holds. -/
def entries : Sink → List Diagnostic
  | .log entries => entries
  | .filter _ _ inner => inner.entries

/-- Number of findings that the outermost filter dropped. -/
def dropped : Sink → Nat
  | .log _ => 0
  | .filter _ dropped _ => dropped

def inner : Sink → Sink
  | .log entries => .log entries
  | .filter _ _ inner => inner

end Sink

end StackEscape
