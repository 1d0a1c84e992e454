import Mathlib.Data.List.Induction
import Uring.Inet

/-!
# Uring.Proofs.SockAddr — what the sixteen bytes of a socket address say

The family, the port and the address are read off fixed bytes, each in its own byte order, so they
agree with the bytes whatever was written there.  An endpoint keeps the address and the port and
forgets the other ten bytes.  So going through an endpoint puts those ten bytes in order, and an
address comes back unchanged exactly when they were.
-/

namespace Uring.Inet

/-! ### Byte orders -/

/-- The number with the given bytes, the lowest first. -/
def ofLittleEndian : List UInt8 → Nat
  | [] => 0
  | b :: bytes => b.toNat + 256 * ofLittleEndian bytes

/-- The number with the given bytes, the highest first. -/
def ofBigEndian (bytes : List UInt8) : Nat := ofLittleEndian bytes.reverse

/-- A shift by a byte's bits is not cut down to the width of a word. -/
theorem byte_shift : (8 : UInt16).toNat % 16 = 8 := rfl

theorem toNat_high (w : UInt16) : (w >>> 8).toUInt8.toNat = w.toNat / 256 := by
  have hw := w.toNat_lt
  rw [UInt16.toNat_toUInt8, UInt16.toNat_shiftRight, byte_shift, Nat.shiftRight_eq_div_pow]
  omega

/-- A word put together from its low and its high byte. -/
theorem toNat_word (low high : UInt8) :
    (low.toUInt16 ||| high.toUInt16 <<< 8).toNat = low.toNat + 256 * high.toNat := by
  have hlow := low.toNat_lt
  have hhigh := high.toNat_lt
  have hfits : high.toNat <<< 8 < 2 ^ 16 := by
    rw [Nat.shiftLeft_eq]
    omega
  rw [UInt16.toNat_or, UInt16.toNat_shiftLeft, UInt8.toNat_toUInt16, UInt8.toNat_toUInt16,
    byte_shift, Nat.mod_eq_of_lt hfits, Nat.or_comm, ← Nat.shiftLeft_add_eq_or_of_lt hlow, Nat.shiftLeft_eq]
  omega

namespace SockAddr

/-- Some of the bytes in a row. -/
def slice (a : SockAddr) (first count : Nat) : List UInt8 := (a.bytes.toList.drop first).take count

variable (a : SockAddr) (ip : Ip) (port : UInt16)

theorem toList_bytes :
    a.bytes.toList = [a.bytes.get 0, a.bytes.get 1, a.bytes.get 2, a.bytes.get 3, a.bytes.get 4,
      a.bytes.get 5, a.bytes.get 6, a.bytes.get 7, a.bytes.get 8, a.bytes.get 9, a.bytes.get 10,
      a.bytes.get 11, a.bytes.get 12, a.bytes.get 13, a.bytes.get 14, a.bytes.get 15] := by
  obtain ⟨⟨⟨bytes⟩, hsize⟩⟩ := a
  match bytes, hsize with
  | [_, _, _, _, _, _, _, _, _, _, _, _, _, _, _, _], _ => rfl

theorem toList_bytes_eq_slices :
    a.bytes.toList = a.slice 0 2 ++ a.slice 2 2 ++ a.slice 4 4 ++ a.slice 8 8 := by
  unfold slice
  rw [toList_bytes]
  rfl

theorem slice_family : a.slice 0 2 = [a.bytes.get 0, a.bytes.get 1] := by
  unfold slice
  rw [toList_bytes]
  rfl

theorem slice_port : a.slice 2 2 = [a.bytes.get 2, a.bytes.get 3] := by
  unfold slice
  rw [toList_bytes]
  rfl

/-! ### Reading -/

theorem toNat_family : a.family.toNat = ofLittleEndian (a.slice 0 2) := by
  rw [family, toNat_word, slice_family]
  rfl

theorem toNat_port : a.port.toNat = ofBigEndian (a.slice 2 2) := by
  rw [SockAddr.port, UInt16.or_comm, toNat_word, slice_port]
  rfl

theorem toList_ip : a.ip.toList = a.slice 4 4 := by
  unfold slice
  rw [toList_bytes]
  rfl

/-- The family tells its two bytes. -/
theorem family_eq_inet_iff : a.family = Abi.afInet ↔ a.slice 0 2 = [2, 0] := by
  have hinet : Abi.afInet.toNat = 2 := rfl
  rw [← UInt16.toNat_inj, toNat_family, slice_family, hinet]
  simp only [ofLittleEndian, List.cons.injEq, and_true, ← UInt8.toNat_inj]
  have hlow := (a.bytes.get 0).toNat_lt
  constructor
  · intro h
    exact ⟨show _ = 2 by omega, show _ = 0 by omega⟩
  · rintro ⟨h0, h1⟩
    rw [h0, h1]
    rfl

/-- The port tells its two bytes. -/
theorem port_bytes : [(a.port >>> 8).toUInt8, a.port.toUInt8] = a.slice 2 2 := by
  have hport : a.port.toNat = (a.bytes.get 3).toNat + 256 * (a.bytes.get 2).toNat := by
    rw [toNat_port, slice_port]
    rfl
  have hlow := (a.bytes.get 3).toNat_lt
  rw [slice_port]
  simp only [List.cons.injEq, and_true, ← UInt8.toNat_inj]
  constructor
  · rw [toNat_high]
    omega
  · rw [UInt16.toNat_toUInt8]
    omega

/-! ### Writing -/

theorem get_write (i j : Fin 16) (b : UInt8) :
    (a.write i b).bytes.get j = if j = i then b else a.bytes.get j := by
  show (a.bytes.set i.val b)[j.val] = if j = i then b else a.bytes[j.val]
  rw [Vector.getElem_set]
  by_cases h : j = i
  · rw [if_pos (congrArg Fin.val h.symm), if_pos h]
  · rw [if_neg (fun hval => h (Fin.ext hval.symm)), if_neg h]

/-- The last write to a byte counts. -/
theorem get_writeAll (writes : List (Fin 16 × UInt8)) (i : Fin 16) :
    (a.writeAll writes).bytes.get i = (writes.reverse.lookup i).getD (a.bytes.get i) := by
  induction writes using List.reverseRecOn with
  | nil => rfl
  | append_singleton writes w ih =>
    have hlast : a.writeAll (writes ++ [w]) = (a.writeAll writes).write w.1 w.2 := by
      simp [writeAll]
    have hreverse : (writes ++ [w]).reverse = w :: writes.reverse := by simp
    rw [hlast, hreverse, List.lookup_cons, get_write]
    by_cases hi : i = w.1
    · simp [hi]
    · have hbeq : (i == w.1) = false := by simpa using hi
      rw [if_neg hi, hbeq]
      exact ih

/-! ### Making -/

theorem toList_bytes_make :
    (make ip port).bytes.toList =
      [(2 : UInt8), 0, (port >>> 8).toUInt8, port.toUInt8] ++ ip.toList ++ List.replicate 8 0 := by
  obtain ⟨⟨bytes⟩, hsize⟩ := ip
  match bytes, hsize with
  | [_, _, _, _], _ => rfl

theorem ip_make : (make ip port).ip = ip := by
  obtain ⟨⟨bytes⟩, hsize⟩ := ip
  match bytes, hsize with
  | [_, _, _, _], _ => rfl

theorem port_make : (make ip port).port = port := by
  have hport := port.toNat_lt
  rw [← UInt16.toNat_inj, SockAddr.port, UInt16.or_comm]
  show (port.toUInt8.toUInt16 ||| (port >>> 8).toUInt8.toUInt16 <<< 8).toNat = _
  rw [toNat_word, UInt16.toNat_toUInt8, toNat_high]
  omega

/-- An endpoint comes back from its address. -/
theorem endpoint_make : (make ip port).endpoint = ⟨ip, port⟩ := by
  unfold endpoint
  rw [ip_make, port_make]

/-! ### Going through an endpoint -/

theorem eq_iff_toList {a b : SockAddr} : a = b ↔ a.bytes.toList = b.bytes.toList := by
  rw [Vector.toList_inj]
  exact ⟨congrArg bytes, fun h => congrArg mk h⟩

/-- The family is set, the padding is zeroed, and the six bytes in between stay. -/
theorem toList_bytes_endpoint_sockAddr :
    a.endpoint.sockAddr.bytes.toList =
      [(2 : UInt8), 0] ++ a.slice 2 2 ++ a.slice 4 4 ++ List.replicate 8 0 := by
  show (make a.ip a.port).bytes.toList = _
  rw [toList_bytes_make, toList_ip, ← port_bytes]
  rfl

theorem endpoint_sockAddr_eq_iff :
    a.endpoint.sockAddr = a ↔ a.family = Abi.afInet ∧ a.slice 8 8 = List.replicate 8 0 := by
  have hlength : (List.replicate 8 (0 : UInt8)).length = (a.slice 8 8).length := by
    unfold slice
    rw [toList_bytes]
    rfl
  rw [eq_iff_toList, toList_bytes_endpoint_sockAddr, toList_bytes_eq_slices, family_eq_inet_iff]
  constructor
  · intro h
    obtain ⟨hfront, hpadding⟩ := List.append_inj' h hlength
    have hfamily := List.append_cancel_right (List.append_cancel_right hfront)
    exact ⟨hfamily.symm, hpadding.symm⟩
  · rintro ⟨hfamily, hpadding⟩
    rw [hfamily, hpadding]

/-- Bytes that make up an address make up only one. -/
theorem ofBytes?_ip_port {bytes : List UInt8} (h : ofBytes? bytes port = some a) :
    a.ip.toList = bytes ∧ a.port = port := by
  obtain ⟨ip, rfl, rfl⟩ := ofBytes?_eq_some_iff.mp h
  rw [ip_make, port_make]
  exact ⟨rfl, rfl⟩

/-- Whatever an address held and whatever was written over it, its family, port and address agree
with its bytes, of which each is the last one written there.  Through an endpoint it comes back with
the same port and address, the family of IPv4 and no padding; so it comes back unchanged exactly if
it had that family and no padding, which is if it is the address made of its own port and address,
and the second time it always does.  An address takes four bytes, and two of them have the same
bytes only if they were made of the same ones and for the same port. -/
theorem content_decides (start : SockAddr) (writes : List (Fin 16 × UInt8)) :
    let a := start.writeAll writes
    let back := a.endpoint.sockAddr
    ((∀ i : Fin 16, a.bytes.get i = (writes.reverse.lookup i).getD (start.bytes.get i)) ∧
      a.family.toNat = ofLittleEndian (a.slice 0 2) ∧
      a.port.toNat = ofBigEndian (a.slice 2 2) ∧
      a.ip.toList = a.slice 4 4) ∧
    (back.ip = a.ip ∧ back.port = a.port ∧
      ∃ high low, ofBigEndian [high, low] = a.port.toNat ∧
        back.bytes.toList = [2, 0, high, low] ++ a.ip.toList ++ List.replicate 8 0) ∧
    ((back = a ↔ a.family = Abi.afInet ∧ a.slice 8 8 = List.replicate 8 0) ∧
      (back = a ↔ a = make a.ip a.port) ∧
      back.endpoint.sockAddr = back) ∧
    (∀ bytes port, (ofBytes? bytes port = none ↔ bytes.length ≠ 4) ∧
      ∀ b, ofBytes? bytes port = some b → b.ip.toList = bytes ∧ b.port = port) ∧
    ∀ bytes port bytes' port' b b', ofBytes? bytes port = some b → ofBytes? bytes' port' = some b' →
      b.bytes = b'.bytes → bytes = bytes' ∧ port = port' := by
  intro a back
  have hmake : back = make a.ip a.port := rfl
  refine ⟨⟨start.get_writeAll writes, a.toNat_family, a.toNat_port, a.toList_ip⟩, ?_, ?_, ?_, ?_⟩
  · refine ⟨ip_make .., port_make .., _, _, ?_, toList_bytes_make a.ip a.port⟩
    rw [port_bytes, toNat_port]
  · refine ⟨a.endpoint_sockAddr_eq_iff, ?_, ?_⟩
    · rw [hmake]
      exact eq_comm
    · rw [hmake, endpoint_make]
      rfl
  · intro bytes port
    exact ⟨ofBytes?_eq_none_iff, fun b h => ofBytes?_ip_port b port h⟩
  · intro bytes port bytes' port' b b' h h' heq
    obtain ⟨rfl, rfl⟩ := ofBytes?_ip_port b port h
    obtain ⟨rfl, rfl⟩ := ofBytes?_ip_port b' port' h'
    obtain rfl : b = b' := congrArg mk heq
    exact ⟨rfl, rfl⟩

/-- A port written into an address without a family is read in network order, and the address does
not come back as it was. -/
theorem content_decides_unspecified :
    let a := zero.writeAll [(2, 0x1f), (3, 0x90), (3, 0x9a)]
    a.port = 8090 ∧ a.family = Abi.afUnspec ∧ a.endpoint.sockAddr ≠ a ∧
      a.endpoint.sockAddr.endpoint.sockAddr = a.endpoint.sockAddr := by
  intro a
  obtain ⟨⟨-, hfamily, hport, -⟩, -, ⟨hunchanged, -, hagain⟩, -⟩ :=
    content_decides zero [(2, 0x1f), (3, 0x90), (3, 0x9a)]
  have hunspec : a.family = Abi.afUnspec := UInt16.toNat_inj.mp hfamily
  refine ⟨UInt16.toNat_inj.mp hport, hunspec, ?_, hagain⟩
  intro hback
  have hinet := (hunchanged.mp hback).1
  rw [hunspec] at hinet
  exact absurd hinet (by decide)

end SockAddr

end Uring.Inet
