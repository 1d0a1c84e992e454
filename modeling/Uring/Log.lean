/-!
# Uring.Log — messages about what a ring does

Each event has a level and a text; `line` joins them.
-/

namespace Uring

inductive LogLevel where
  | trace
  | debug
  | warn
  deriving DecidableEq, Repr

def LogLevel.name : LogLevel → String
  | trace => "TRACE"
  | debug => "DEBUG"
  | warn => "WARN"

inductive LogEvent where
  | created (fd : Int32) (sqEntries cqEntries flags features : UInt32)
  | destroyed (fd : Int32)
  | submitted (toSubmit count wait : UInt32)
  | harvested (count : UInt32)
  | harvestedAfterEnter (count wait : UInt32)
  /-- The completion ring was full, and the kernel holds completions back. -/
  | overflowed (dropped : UInt32)
  | newSocket (fd : Int32) (cloexec nonblock : Bool)
  deriving DecidableEq, Repr

namespace LogEvent

def level : LogEvent → LogLevel
  | created .. | destroyed _ => .debug
  | submitted .. | harvested _ | harvestedAfterEnter .. | newSocket .. => .trace
  | overflowed _ => .warn

/-- A word as decimal digits. -/
private def dec (n : UInt32) : String := toString n.toNat

/-- A word as hexadecimal digits, marked as such. -/
private def hex (n : UInt32) : String := "0x" ++ String.ofList (Nat.toDigits 16 n.toNat)

def text : LogEvent → String
  | created fd sqEntries cqEntries flags features =>
    "io_uring created: fd=" ++ toString fd.toInt ++ " sq_entries=" ++ dec sqEntries ++
      " cq_entries=" ++ dec cqEntries ++ " flags=" ++ hex flags ++ " features=" ++ hex features
  | destroyed fd => "io_uring destroyed: fd=" ++ toString fd.toInt
  | submitted toSubmit count wait =>
    "submit: to_submit=" ++ dec toSubmit ++ " submitted=" ++ dec count ++
      " wait_nr=" ++ dec wait
  | harvested count => "harvest: " ++ dec count ++ " ready"
  | harvestedAfterEnter count wait =>
    "harvest: " ++ dec count ++ " ready after enter (wait_nr=" ++ dec wait ++ ")"
  | overflowed dropped =>
    "completion ring overflowed (" ++ dec dropped ++ " dropped), flushing backlog"
  | newSocket fd cloexec nonblock =>
    "new stream socket fd=" ++ toString fd.toInt ++ " cloexec=" ++ toString cloexec ++
      " nonblock=" ++ toString nonblock

def line (e : LogEvent) : String := e.level.name ++ " " ++ e.text

end LogEvent

end Uring
