import Mathlib.Logic.Function.Basic
import Ndsl.Lib.Bytes

/-!
# `Ndsl.Net.SocketAddressUn`: addresses of unix sockets

`SocketAddressUn.cc`, and programs that make such objects and copy them. A program is a list of
calls. Before an object is constructed its storage holds whatever was there, and a `memcpy` of
`sun_path` onto itself leaves it. `none` is a function that reads or writes past `sun_path`.
-/

set_option autoImplicit false

namespace Ndsl.Net

open Ndsl.Lib

/-- `AF_LOCAL`. -/
def AF_LOCAL : Nat := 1

/-- `SocketAddressUn`, a `sockaddr_un`. -/
structure SocketAddressUn where
  sun_family : Nat
  sun_path : List UInt8
  size : sun_path.length = 108
  deriving DecidableEq

namespace SocketAddressUn

/-! ### The functions of the source -/

/-- `memcpy(sun_path + pos, src, n)`, with the `n` bytes `src`. -/
def memcpy (a : SocketAddressUn) (pos : Nat) (src : List UInt8) : Option SocketAddressUn :=
  if h : pos + src.length ≤ 108 then
    some { sun_family := a.sun_family, sun_path := overwrite a.sun_path pos src,
           size := (length_overwrite (h.trans_eq a.size.symm)).trans a.size }
  else none

/-- `memset(sun_path, 0, sizeof(sun_path))`. -/
def clear (a : SocketAddressUn) : SocketAddressUn :=
  { sun_family := a.sun_family, sun_path := List.replicate 108 0, size := List.length_replicate }

/-- `SocketAddressUn::SocketAddressUn()`. -/
def default : SocketAddressUn :=
  { sun_family := AF_LOCAL, sun_path := List.replicate 108 0, size := List.length_replicate }

/-- `SocketAddressUn::SocketAddressUn(const string&)`. -/
def ofPath (path : List UInt8) : Option SocketAddressUn := default.memcpy 0 (path ++ [0])

/-- `getStrPath`: the string that `sun_path` points to. -/
def getStrPath (a : SocketAddressUn) : Option (List UInt8) := terminated a.sun_path

/-- The family of `addr`, and as many bytes of its path as `strlen` counts. -/
def copyString (a addr : SocketAddressUn) : Option SocketAddressUn := do
  let path ← terminated addr.sun_path
  memcpy { a with sun_family := addr.sun_family } 0 (addr.sun_path.take path.length)

/-- `SocketAddressUn::SocketAddressUn(const SocketAddressUn&)` in the storage `a`. -/
def ofAddress (a addr : SocketAddressUn) : Option SocketAddressUn := copyString a addr

/-- `operator=`. -/
def assign (a addr : SocketAddressUn) : Option SocketAddressUn := copyString a addr

/-- `setAddress(const string&)`. -/
def setAddress (a : SocketAddressUn) (path : List UInt8) : Option SocketAddressUn :=
  a.clear.memcpy 0 (path ++ [0])

/-- `setAddress(const SocketAddressUn&)`. -/
def setAddressUn (a addr : SocketAddressUn) : Option SocketAddressUn :=
  memcpy { a with sun_family := addr.sun_family } 0 addr.sun_path

/-! ### Programs -/

/-- A path of at most 106 bytes without zero bytes. -/
structure Path where
  bytes : List UInt8
  nonzero : 0 ∉ bytes
  short : bytes.length ≤ 106

/-- A call on the object `x`. `constructAddress` and the calls behind it read the object `y`. -/
inductive Call where
  | construct (x : Nat)
  | constructPath (x : Nat) (path : Path)
  | constructAddress (x y : Nat)
  | assign (x y : Nat)
  | setAddress (x : Nat) (path : Path)
  | setAddressUn (x y : Nat)

/-- The object that the call makes or changes. -/
def Call.target : Call → Nat
  | .construct x | .constructPath x _ | .constructAddress x _ | .assign x _ | .setAddress x _
  | .setAddressUn x _ => x

/-- What each place holds, whether there is an object or not. -/
abbrev Store := Nat → SocketAddressUn

/-- What the call leaves in its object. -/
def Store.value (m : Store) : Call → Option SocketAddressUn
  | .construct _ => some default
  | .constructPath _ path => ofPath path.bytes
  | .constructAddress x y => (m x).ofAddress (m y)
  | .assign x y => (m x).assign (m y)
  | .setAddress x path => (m x).setAddress path.bytes
  | .setAddressUn x y => (m x).setAddressUn (m y)

/-- One call. -/
def Store.call (m : Store) (c : Call) : Option Store :=
  (m.value c).map (Function.update m c.target)

/-- A program. -/
def Store.run (m : Store) (calls : List Call) : Option Store := calls.foldlM Store.call m

/-! ### What they are for -/

/-- The path that was set on each object or copied into it last. -/
abbrev Paths := Nat → Option Path

/-- No path was set. -/
def Path.empty : Path := { bytes := [], nonzero := List.not_mem_nil, short := Nat.zero_le _ }

/-- The path that the call is to leave in its object. There is none where the call is on a place
without an object, or reads one. -/
def Paths.path (P : Paths) : Call → Option Path
  | .construct _ => some Path.empty
  | .constructPath _ path => some path
  | .constructAddress x y => if x = y then none else P y
  | .assign x y => (P x).bind fun _ => P y
  | .setAddress x path => (P x).map fun _ => path
  | .setAddressUn x y => (P x).bind fun _ => P y

/-- One call. -/
def Paths.call (P : Paths) (c : Call) : Option Paths :=
  (P.path c).map fun path => Function.update P c.target (some path)

/-- A program that begins without an object. -/
def Paths.run (calls : List Call) : Option Paths := calls.foldlM Paths.call fun _ => none

end SocketAddressUn

end Ndsl.Net
