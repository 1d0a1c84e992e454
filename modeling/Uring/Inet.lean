import Uring.Abi

/-!
# Uring.Inet — IPv4 socket addresses

A `SockAddr` is the sixteen bytes that the kernel reads: the family in the machine's (little-endian)
order, the port in network (big-endian) order, four bytes of address, eight of padding.  Any sixteen
bytes are allowed, since the kernel may fill them in.  An `Endpoint` is the address and port alone.
-/

namespace Uring.Inet

/-- The four bytes of an IPv4 address. -/
abbrev Ip := Vector UInt8 4

structure Endpoint where
  ip : Ip
  port : UInt16
  deriving DecidableEq, Repr

structure SockAddr where
  bytes : Vector UInt8 16
  deriving DecidableEq, Repr

namespace SockAddr

/-- All zero. -/
def zero : SockAddr := ⟨Vector.replicate 16 0⟩

/-- The address of a port on a host. -/
def make (ip : Ip) (port : UInt16) : SockAddr where
  bytes := #v[Abi.afInet.toUInt8, (Abi.afInet >>> 8).toUInt8, (port >>> 8).toUInt8, port.toUInt8,
    ip[0], ip[1], ip[2], ip[3], 0, 0, 0, 0, 0, 0, 0, 0]

/-- An IPv4 address takes exactly four bytes. -/
def ofBytes? (ip : List UInt8) (port : UInt16) : Option SockAddr :=
  match ip with
  | [a, b, c, d] => some (make #v[a, b, c, d] port)
  | _ => none

def family (a : SockAddr) : UInt16 := a.bytes[0].toUInt16 ||| a.bytes[1].toUInt16 <<< 8

def port (a : SockAddr) : UInt16 := a.bytes[2].toUInt16 <<< 8 ||| a.bytes[3].toUInt16

def ip (a : SockAddr) : Ip := #v[a.bytes[4], a.bytes[5], a.bytes[6], a.bytes[7]]

def write (a : SockAddr) (i : Fin 16) (b : UInt8) : SockAddr := ⟨a.bytes.set i b⟩

/-- Writes bytes in order. -/
def writeAll (a : SockAddr) (writes : List (Fin 16 × UInt8)) : SockAddr :=
  writes.foldl (fun a w => a.write w.1 w.2) a

/-- Forgets the family and the padding. -/
def endpoint (a : SockAddr) : Endpoint := ⟨a.ip, a.port⟩

/-! ### From bytes -/

theorem ofBytes?_eq_none_iff {ip : List UInt8} {port : UInt16} :
    ofBytes? ip port = none ↔ ip.length ≠ 4 := by
  rcases ip with _ | ⟨a, _ | ⟨b, _ | ⟨c, _ | ⟨d, _ | ⟨e, rest⟩⟩⟩⟩⟩ <;> simp [ofBytes?]

theorem ofBytes?_toList (ip : Ip) (port : UInt16) :
    ofBytes? ip.toList port = some (make ip port) := by
  obtain ⟨⟨bytes⟩, hsize⟩ := ip
  rcases bytes with _ | ⟨a, _ | ⟨b, _ | ⟨c, _ | ⟨d, _ | ⟨e, rest⟩⟩⟩⟩⟩ <;> simp at hsize
  rfl

theorem ofBytes?_eq_some_iff {bytes : List UInt8} {port : UInt16} {a : SockAddr} :
    ofBytes? bytes port = some a ↔ ∃ ip : Ip, ip.toList = bytes ∧ a = make ip port := by
  constructor
  · intro h
    unfold ofBytes? at h
    split at h
    · exact ⟨_, rfl, (Option.some.inj h).symm⟩
    · cases h
  · rintro ⟨ip, rfl, rfl⟩
    exact ofBytes?_toList ip port

end SockAddr

def Endpoint.sockAddr (e : Endpoint) : SockAddr := .make e.ip e.port

end Uring.Inet
