import ScoreWasm.Proofs.Wasm.Segments

/-!
# Arithmetic on integers

What the operators on integers compute, and those that only look at bit patterns.  The other operators on
floating-point numbers are left open, so an environment may give them any meaning.
-/

namespace ScoreWasm.Wasm

variable {n : Nat}

/-- The value of a test. -/
def Value.flag (b : Bool) : Value := .i32 (if b then 1 else 0)

/-- The comparison holds. -/
def IntRel.holds (x y : BitVec n) : IntRel → Bool
  | .eq => x == y
  | .ne => x != y
  | .ltS => x.slt y
  | .ltU => x.ult y
  | .gtS => y.slt x
  | .gtU => y.ult x
  | .leS => x.sle y
  | .leU => x.ule y
  | .geS => y.sle x
  | .geU => y.ule x

/-- The result of a unary operator. -/
def IntUn.apply (x : BitVec n) : IntUn → BitVec n
  | .clz => x.clz
  | .ctz => x.ctz
  | .popcnt => x.cpop

/-- The result of an operator, or the trap that it ends in.  Shifts and rotations count modulo the width. -/
def IntBin.apply (x y : BitVec n) : IntBin → Except Halt (BitVec n)
  | .add => .ok (x + y)
  | .sub => .ok (x - y)
  | .mul => .ok (x * y)
  | .divS =>
    if y = 0 then .error (.trap .divideByZero)
    else if x = .intMin n ∧ y = -1 then .error (.trap .integerOverflow)
    else .ok (x.sdiv y)
  | .divU => if y = 0 then .error (.trap .divideByZero) else .ok (x / y)
  | .remS => if y = 0 then .error (.trap .divideByZero) else .ok (x.srem y)
  | .remU => if y = 0 then .error (.trap .divideByZero) else .ok (x % y)
  | .and => .ok (x &&& y)
  | .or => .ok (x ||| y)
  | .xor => .ok (x ^^^ y)
  | .shl => .ok (x <<< (y.toNat % n))
  | .shrS => .ok (x.sshiftRight (y.toNat % n))
  | .shrU => .ok (x >>> (y.toNat % n))
  | .rotl => .ok (x.rotateLeft (y.toNat % n))
  | .rotr => .ok (x.rotateRight (y.toNat % n))

/-- What operators come to, as far as that is laid down. -/
abbrev Rules := NumOp → List Value → Option (Except Halt Value)

/-- The integer operators. -/
def integerRules : Rules
  | .eqz .x32, [.i32 x] => some (.ok (.flag (x == 0)))
  | .eqz .x64, [.i64 x] => some (.ok (.flag (x == 0)))
  | .intRel .x32 op, [.i32 x, .i32 y] => some (.ok (.flag (op.holds x y)))
  | .intRel .x64 op, [.i64 x, .i64 y] => some (.ok (.flag (op.holds x y)))
  | .intUn .x32 op, [.i32 x] => some (.ok (.i32 (op.apply x)))
  | .intUn .x64 op, [.i64 x] => some (.ok (.i64 (op.apply x)))
  | .intBin .x32 op, [.i32 x, .i32 y] => some ((op.apply x y).map .i32)
  | .intBin .x64 op, [.i64 x, .i64 y] => some ((op.apply x y).map .i64)
  | .wrap, [.i64 x] => some (.ok (.i32 (x.setWidth 32)))
  | .extend true, [.i32 x] => some (.ok (.i64 (x.signExtend 64)))
  | .extend false, [.i32 x] => some (.ok (.i64 (x.setWidth 64)))
  | .signExtend .i32of8, [.i32 x] => some (.ok (.i32 ((x.setWidth 8).signExtend 32)))
  | .signExtend .i32of16, [.i32 x] => some (.ok (.i32 ((x.setWidth 16).signExtend 32)))
  | .signExtend .i64of8, [.i64 x] => some (.ok (.i64 ((x.setWidth 8).signExtend 64)))
  | .signExtend .i64of16, [.i64 x] => some (.ok (.i64 ((x.setWidth 16).signExtend 64)))
  | .signExtend .i64of32, [.i64 x] => some (.ok (.i64 ((x.setWidth 32).signExtend 64)))
  | .reinterpretFloat .x32, [.f32 x] => some (.ok (.i32 x))
  | .reinterpretFloat .x64, [.f64 x] => some (.ok (.i64 x))
  | .reinterpretInt .x32, [.i32 x] => some (.ok (.f32 x))
  | .reinterpretInt .x64, [.i64 x] => some (.ok (.f64 x))
  | .floatUn .x32 .neg, [.f32 x] => some (.ok (.f32 (x ^^^ .intMin 32)))
  | .floatUn .x64 .neg, [.f64 x] => some (.ok (.f64 (x ^^^ .intMin 64)))
  | _, _ => none

variable {σ : Type}

/-- An environment whose operators obey rules. -/
def Env.Obeys (env : Env σ) (rules : Rules) : Prop :=
  ∀ op args r, rules op args = some r → env.num op args = r

end ScoreWasm.Wasm
