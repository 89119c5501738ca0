import Ndsl.Lib.Bytes
import Ndsl.Lib.Traced
import Ndsl.Net.Basic
import Ndsl.Utils.TimeStamp

/-!
# `Ndsl.Utils.Log`: a record of the log

`ndsl_log_into_sink` of `Log.cc` puts a record together in a buffer on the stack: the time, a line
head that `sprintf` writes, and the message that `vsnprintf` writes.

A write outside of the buffer stops the execution, and so does the pointer `NULL + 1` that is read
as a string. The message is given as the characters that the format and its arguments stand for.
-/

set_option autoImplicit false

namespace Ndsl.Utils

open Ndsl.Lib Ndsl.Lib.Numerals
open Ndsl.Net (toSize)

namespace Log

/-- What can be seen of a call. -/
inductive Event
  /-- Some bytes of the buffer are written. -/
  | write (pos : Nat) (bytes : List UInt8)
  /-- `vsnprintf` is given the rest of the buffer from a position on, and a size. -/
  | vsnprintf (pos size : Nat)
  /-- `printf("%s\n", buffer)`. -/
  | print (text : List UInt8)
  /-- `Filelog::log(buffer, size)`, where the buffer holds `data` so far. -/
  | log (data : List UInt8) (size : Nat)
  deriving Repr, DecidableEq

/-- The size of `buffer`. -/
def bufferSize : Nat := 4096

/-- `_sinks` and `tag`. -/
structure Sinks where
  _sinks : UInt64 := 0
  tag : Int := -1
  deriving Repr, DecidableEq

/-- `set_ndsl_log_sinks`. -/
def set_ndsl_log_sinks (sinks : UInt64) (file_or_ter : Int) : Sinks :=
  { _sinks := sinks, tag := if file_or_ter = 1 then 1 else 0 }

/-- What a record says about its process. -/
structure Process where
  zone : Zone
  now : TimeStamp
  pid : Int
  tid : Nat

/-- The arguments of `ndsl_log_into_sink`. -/
structure Arguments where
  level : Int
  source : UInt64
  file_name : List UInt8
  func_name : List UInt8
  message : List UInt8
  /-- `vsnprintf` reports no error for the format. -/
  formatted : Bool := true
  deriving Repr, DecidableEq

/-- `strrchr`. -/
def strrchr (c : UInt8) : List UInt8 → Option (List UInt8)
  | [] => none
  | b :: s => (strrchr c s).orElse fun _ => if b = c then some (b :: s) else none

/-- A write, which must be one into the buffer. -/
def store (buffer : List UInt8) (pos : Nat) (bytes : List UInt8) : Traced Event (List UInt8) :=
  .tell [.write pos bytes] >>= fun _ =>
    if pos + bytes.length ≤ bufferSize then pure (overwrite buffer pos bytes) else .fault

/-- What `to_string` makes of the current time. -/
def stampText (process : Process) : List UInt8 :=
  (process.now.to_string process.zone bufferSize).2

/-- What `sprintf` prints: `" lv=%d pid=%d tid=%lx  %s  %s "`. -/
def headText (process : Process) (args : Arguments) (ptr : List UInt8) : List UInt8 :=
  [0x20, 0x6C, 0x76, 0x3D] ++ printInt args.level ++ [0x20, 0x70, 0x69, 0x64, 0x3D] ++
    printInt process.pid ++ [0x20, 0x74, 0x69, 0x64, 0x3D] ++ hexadecimal process.tid ++
    [0x20, 0x20] ++ ptr ++ [0x20, 0x20] ++ args.func_name ++ [0x20]

/-- What `vsnprintf` writes, and the zero behind it. -/
def stored (message : List UInt8) (size : Nat) : List UInt8 :=
  if size = 0 then [] else message.take (size - 1) ++ [0]

/-- What `vsnprintf` returns: the length without a limit, if it is an `int`. -/
def reported (args : Arguments) : Int :=
  if args.formatted ∧ args.message.length < 2 ^ 31 then args.message.length else -1

/-- `ndsl_log_into_sink` up to `sprintf`: the buffer, `ret1` and `ret2`. -/
def assemble (process : Process) (args : Arguments) : Traced Event (List UInt8 × Nat × Nat) := do
  let buffer ← store (List.replicate bufferSize 0) 0 [0x5B]
  let buffer ← store buffer 1 (stampText process ++ [0])
  let ret1 := cstrlen buffer
  let buffer ← store buffer ret1 [0x5D]
  match strrchr 0x2F args.file_name with
  | none => .fault
  | some ptr => do
    let text := headText process args (ptr.drop 1)
    let buffer ← store buffer (ret1 + 1) (text ++ [0])
    return (buffer, ret1, text.length)

/-- `ndsl_log_into_sink` behind `vsnprintf`. -/
def deliver (sinks : Sinks) (buffer : List UInt8) (ret1 ret2 : Nat) (ret3 : Int) :
    Traced Event Unit :=
  if ret3 < 0 then return ()
  else if sinks.tag = 0 then .tell [.print (cstring buffer)]
  else if sinks.tag = 1 then do
    let buffer ← store buffer (ret1 + ret2 + ret3.toNat + 1) [0x0A]
    .tell [.log buffer (ret1 + ret2 + ret3.toNat + 2)]
  else return ()

/-- `ndsl_log_into_sink` from `vsnprintf` on. -/
def finish (sinks : Sinks) (args : Arguments) (buffer : List UInt8) (ret1 ret2 : Nat) :
    Traced Event Unit := do
  let size := toSize (512 - ret1 - ret2 - 1)
  .tell [.vsnprintf (ret1 + ret2 + 1) size]
  let buffer ← store buffer (ret1 + ret2 + 1) (stored args.message size)
  deliver sinks buffer ret1 ret2 (reported args)

/-- `ndsl_log_into_sink`. -/
def ndsl_log_into_sink (sinks : Sinks) (process : Process) (args : Arguments) :
    Traced Event Unit :=
  if args.source &&& sinks._sinks ≠ 0 then do
    let (buffer, ret1, ret2) ← assemble process args
    finish sinks args buffer ret1 ret2
  else return ()

end Log

end Ndsl.Utils
