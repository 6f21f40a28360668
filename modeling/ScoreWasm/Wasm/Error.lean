import ScoreWasm.Number.Read
import ScoreWasm.Text.Utf8
import ScoreWasm.Wasm.Types

/-!
# Why a module cannot be compiled

A module is invalid for a reason at a place, uses a feature that cannot be represented, imports
something that no host function provides, or needs more than the target has.
-/

namespace ScoreWasm.Wasm

inductive Invalid where
  | unexpectedEnd
  | integerTooLong
  | integerTooLarge
  | badUtf8
  | badValueType (code : UInt8)
  | badFuncForm (code : UInt8)
  | badLimits (flags : UInt8)
  | badElemType (code : UInt8)
  | badMutability
  | badBlockType
  | illegalOpcode (code : UInt8)
  | badImportKind (code : UInt8)
  | badExportKind (code : UInt8)
  | badElemKind
  | badElemFlags (flags : Nat)
  | badDataFlags (flags : Nat)
  | codeEntryEnd
  | tooManyLocals
  | sectionSize
  | noMagic
  | badVersion (version : Nat)
  | badSection (id : UInt8)
  | sectionOrder
  | codeCount
  | dataCount
  | unknownType (index : Int)
  | underflow
  | mismatch (expected found : String)
  | valuesRemaining
  | unknownLabel (depth : Int)
  | afterEnd
  | bodyEnd
  | elseWithoutIf
  | ifWithoutElse
  | tableArity
  | unknown (what : String) (index : Int)
  | immutableGlobal
  | selectArity
  | selectMismatch
  | alignment
  | constantRequired
  | sizeAtMost (what : String) (maximum : Nat)
  | minAboveMax
  | duplicateExport (name : String)
  | startType
  | dataOutside (number start size : Nat) (limit : Int)
  | elementOutside (number : Nat) (table : Int)
  deriving DecidableEq, Repr

def hexByte (b : UInt8) : String := "0x" ++ String.ofList (Text.hexPad 2 b.toNat)

def hexNat (n : Nat) : String := "0x" ++ String.ofList (Nat.toDigits 16 n)

def Invalid.text : Invalid → String
  | unexpectedEnd => "unexpected end"
  | integerTooLong => "integer representation too long"
  | integerTooLarge => "integer too large"
  | badUtf8 => "malformed UTF-8 encoding"
  | badValueType b => "invalid value type " ++ hexByte b
  | badFuncForm b => "invalid function type form " ++ hexByte b
  | badLimits b => "invalid limits flags " ++ hexByte b
  | badElemType b => "invalid element type " ++ hexByte b
  | badMutability => "malformed mutability"
  | badBlockType => "invalid block type"
  | illegalOpcode b => "illegal opcode " ++ hexByte b
  | badImportKind b => "invalid import kind " ++ hexByte b
  | badExportKind b => "invalid export kind " ++ hexByte b
  | badElemKind => "invalid element kind"
  | badElemFlags n => "invalid element segment flags " ++ toString n
  | badDataFlags n => "invalid data segment flags " ++ toString n
  | codeEntryEnd => "unexpected end of code entry"
  | tooManyLocals => "too many locals"
  | sectionSize => "section size mismatch"
  | noMagic => "magic header not detected"
  | badVersion n => "unknown binary version " ++ toString n
  | badSection b => "malformed section id " ++ toString b.toNat
  | sectionOrder => "unexpected content after last section"
  | codeCount => "function and code section have inconsistent lengths"
  | dataCount => "data count and data section have inconsistent lengths"
  | unknownType i => "unknown type " ++ toString i
  | underflow => "type mismatch: operand stack underflow"
  | mismatch expected found => "type mismatch: expected " ++ expected ++ ", found " ++ found
  | valuesRemaining => "type mismatch: values remaining on stack at end of block"
  | unknownLabel n => "unknown label " ++ toString n
  | afterEnd => "operators remaining after end of function"
  | bodyEnd => "unexpected end of function body"
  | elseWithoutIf => "else without matching if"
  | ifWithoutElse => "type mismatch: if without else must not change the stack"
  | tableArity => "type mismatch: br_table targets differ in arity"
  | unknown what i => "unknown " ++ what ++ " " ++ toString i
  | immutableGlobal => "global is immutable"
  | selectArity => "invalid result arity"
  | selectMismatch => "type mismatch in select"
  | alignment => "alignment must not be larger than natural"
  | constantRequired => "constant expression required"
  | sizeAtMost what maximum => what ++ " size must be at most " ++ toString maximum
  | minAboveMax => "size minimum must not be greater than maximum"
  | duplicateExport name => "duplicate export name " ++ Text.quoted name
  | startType => "start function must have type () -> ()"
  | dataOutside number start size limit =>
    "data segment " ++ toString number ++ " does not fit in memory (" ++ toString start ++ " + "
      ++ toString size ++ " > " ++ toString limit ++ ")"
  | elementOutside number table =>
    "element segment " ++ toString number ++ " does not fit in table " ++ toString table

/-- Whether the numbers in the wording of a reason can be written. -/
def Invalid.isWritable : Invalid → Bool
  | unknownType i => Number.isWritable i
  | unknownLabel i => Number.isWritable i
  | unknown _ i => Number.isWritable i
  | _ => true

inductive ImportIssue where
  | missing
  | signature (type : FuncType)
  deriving DecidableEq, Repr

def ImportIssue.text : ImportIssue → String
  | missing => "no such host function"
  | signature type => "host function has signature " ++ type.text

/-- Why the generated functions would not be acceptable to the game, or the compiler's own state is
inconsistent. -/
inductive EmitIssue where
  | badNamespace (name : String)
  | nameTooLong (size limit : Nat) (start : String)
  | badName (name : String)
  | stackUnderflow
  | heightMismatch (func block : Nat) (op : String) (expected actual : Int)
  | unboundImport (func : Int)
  | noLowering (op : String)
  | noTerminator (block func : Nat)
  | terminatedTwice (block : Nat)
  deriving DecidableEq, Repr

def EmitIssue.text : EmitIssue → String
  | badNamespace name => "invalid namespace " ++ Text.quoted name
  | nameTooLong size limit start =>
    "function name too long (" ++ toString size ++ " > " ++ toString limit ++ "): " ++ start ++ "..."
  | badName name => "invalid function name " ++ Text.quoted name
  | stackUnderflow => "virtual stack underflow"
  | heightMismatch func block op expected actual =>
    "stack height mismatch in f" ++ toString func ++ " block " ++ toString block ++ ": " ++ op
      ++ " expects " ++ toString expected ++ ", have " ++ toString actual
  | unboundImport func => "call to unbound import " ++ toString func
  | noLowering op => "no lowering for " ++ op
  | noTerminator block func => "block " ++ toString block ++ " of f" ++ toString func
      ++ " has no terminator"
  | terminatedTwice block => "block " ++ toString block ++ " terminated twice"

/-- Why a module cannot be compiled.  The last seven have no wording of their own: an export of a kind
that does not exist, an alignment of zero, a type that cannot be encoded, a number that does not fit
its encoding, a negative index that reaches before the first element, text without bytes, and a number
that cannot be written. -/
inductive CompileError where
  | invalid (reason : Invalid) (part : Option String) (offset : Option Nat)
  | unsupported (feature construct : String) (offset : Option Nat)
  | unresolved (module name : String) (expected : FuncType) (issue : ImportIssue)
  | limit (resource : String) (requested most : Int)
  | emit (issue : EmitIssue)
  | noExportKind (name : String)
  | noAlignment
  | noType (name : String)
  | noRoom
  | outOfRange
  | noBytes (f : Text.HalfFault)
  | number (f : Number.Fault)
  deriving DecidableEq, Repr

namespace CompileError

/-- An error as it is reported: one whose wording holds a number that cannot be written is about that
number. -/
def settled : CompileError → CompileError
  | invalid reason part offset =>
    if reason.isWritable then invalid reason part offset else number .unwritable
  | e => e

def placeText (part : Option String) (offset : Option Nat) : String :=
  let parts := (part.map (fun s => ["section " ++ s])).getD []
    ++ (offset.map (fun n => ["offset " ++ hexNat n])).getD []
  if parts.isEmpty then "" else " (" ++ ", ".intercalate parts ++ ")"

def message? : CompileError → Option String
  | invalid reason part offset => some (reason.text ++ placeText part offset)
  | unsupported feature construct offset =>
    some ("unsupported " ++ feature ++ " construct: " ++ construct ++ placeText none offset)
  | unresolved module name expected issue =>
    some ("unresolved import " ++ module ++ "." ++ name ++ " " ++ expected.text ++ ": " ++ issue.text)
  | limit resource requested most =>
    some (resource ++ " " ++ toString requested ++ " exceeds the limit of " ++ toString most)
  | emit issue => some issue.text
  | noExportKind _ => none
  | noAlignment => none
  | noType _ => none
  | noRoom => none
  | outOfRange => none
  | noBytes _ => none
  | number _ => none

def text : CompileError → String
  | noBytes f => f.text
  | number f => f.text
  | e => e.message?.getD ""

end CompileError

end ScoreWasm.Wasm
