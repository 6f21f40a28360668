import ScoreWasm.Emit.Int64

/-!
# Access to linear memory

An access first checks its bounds.  Addresses are unsigned, but memory ends before `2 ^ 31`, so a
negative address is always out of bounds; the check compares with the size less the end of the access
and never wraps around.
-/

namespace ScoreWasm.Emit

open Wasm

/-- The most pages that linear memory can have: byte addresses must be scores. -/
def maxPages : Nat := 32767

def pageSize : Nat := 65536

def pageWords : Nat := 16384

/-- Traps unless an access lies within memory; leaves its address in `%ma`. -/
def boundsCheck (ns : String) (address : Reg) (offset : Int) (width : Nat) : Script :=
  let bytesEnd := offset + width
  let out := trap ns .outOfBounds
  if (maxPages * pageSize : Nat) < bytesEnd then out
  else
    .join [copy "%ma" address, copy "%mo" "%membytes", add "%mo" (-bytesEnd),
      given [isNegative "%ma"] out, given [cmp "%ma" .gt "%mo"] out, add "%ma" offset]

def accessPath (verb : String) (bytes : Nat) : String := "rt/mem/" ++ verb ++ toString (8 * bytes)

def storeAt (ns : String) (bytes : Nat) (value : Reg) : Script :=
  (if bytes == 1 then copy "%m8" value
    else copy "%mv" value ++ .onlyIf (bytes == 8) (copy (.high "%mv") value.high))
    ++ call ns (accessPath "store" bytes)

def loadAt (ns : String) (op : LoadOp) (target : Reg) : Script :=
  let bytes := op.size
  let fetch := call ns (accessPath "load" bytes)
  if bytes == 8 then
    .join [fetch, copy target "%mv", copy target.high (.high "%mv")]
  else
    let signed := match op with
      | .part _ s => s
      | .whole _ => false
    .join [fetch, copy target (if bytes == 1 then "%m8" else "%mv"),
      .onlyIf (signed && bytes < 4) (signExtend target (8 * bytes)),
      .onlyIf (op.type == .i64) (if signed then signIntoHigh target else set target.high 0)]

end ScoreWasm.Emit
