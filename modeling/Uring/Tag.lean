/-!
# Uring.Tag — correlation tags

A tag is the 64-bit word that links a completion to its submission.  It stands for a number or for
an address of the caller; the word alone does not tell which, so a ring keeps to one kind.
-/

namespace Uring

/-- What the word of a tag stands for. -/
inductive TagKind where
  | data64
  | addr
  deriving DecidableEq, Repr, Inhabited

/-- The kind as it is spelled in messages. -/
def TagKind.name : TagKind → String
  | .data64 => "Data64"
  | .addr => "Addr"

inductive Tag where
  | data64 (value : UInt64)
  | addr (address : UInt64)
  deriving DecidableEq, Repr, Inhabited

namespace Tag

def kind : Tag → TagKind
  | .data64 _ => .data64
  | .addr _ => .addr

/-- The word stamped into a submission and echoed by its completion. -/
def userData : Tag → UInt64
  | .data64 v => v
  | .addr a => a

/-- The tag of the given kind behind an echoed word. -/
def ofUserData : TagKind → UInt64 → Tag
  | .data64, w => .data64 w
  | .addr, w => .addr w

@[simp] theorem ofUserData_userData (t : Tag) : ofUserData t.kind t.userData = t := by
  cases t <;> rfl

end Tag

end Uring
