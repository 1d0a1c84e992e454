import Uring.Abi
import Uring.Errno
import Uring.Tag

/-!
# Uring.Completion.Entry — what the kernel reports about a finished operation

A completion echoes the tag word of its submission, carries a result word and a word of flags, whose
upper half is a buffer id when the `buffer` flag is set.
-/

namespace Uring.Completion

inductive Flag where
  | buffer
  | more
  | sockNonempty
  | notification
  deriving DecidableEq, Repr

namespace Flag

def bits : Flag → UInt32
  | buffer => Abi.cqeBuffer
  | more => Abi.cqeMore
  | sockNonempty => Abi.cqeSockNonempty
  | notification => Abi.cqeNotification

/-- Every flag, from the lowest bit up. -/
def all : List Flag := [buffer, more, sockNonempty, notification]

/-- The flag that a word consists of. -/
def ofBits? (word : UInt32) : Option Flag := all.find? fun f => f.bits == word

/-- Whether the flag is set in a word. -/
def isSet (word : UInt32) (f : Flag) : Bool := word &&& f.bits != 0

/-- The flags set in a word, from the lowest bit up; other bits are ignored. -/
def decode (word : UInt32) : List Flag := all.filter (isSet word)

end Flag

structure Entry where
  userData : UInt64
  res : Int32
  flags : UInt32
  deriving DecidableEq, Repr

/-- All zero. -/
instance : Inhabited Entry := ⟨⟨0, 0, 0⟩⟩

namespace Entry

def result (c : Entry) : Except Errno Int32 := Errno.ofResult c.res

/-- The tag behind the echoed word, for a ring whose tags are of the given kind. -/
def tag (c : Entry) (kind : TagKind) : Tag := .ofUserData kind c.userData

def hasFlag (c : Entry) (f : Flag) : Bool := f.isSet c.flags

/-- The request stays armed and will post further completions. -/
def hasMore (c : Entry) : Bool := c.hasFlag .more

def bufferId? (c : Entry) : Option UInt16 :=
  if c.hasFlag .buffer then some (c.flags >>> Abi.cqeBufferShift).toUInt16 else none

end Entry

end Uring.Completion
