import PGBigNumber.Infix.Eval
import PGBigNumber.Store.Calls

/-!
# Evaluation on objects

The callbacks of the nodes as they run on `BigIntegerImpl` objects. A callback makes the object it
returns and ends its own variables; a variable that is returned is moved from.
-/

namespace PGBigNumber.Infix

open Program (Call make perform drop isZero isNegative isOne cmp cmpI64)

/-- The objects in the nodes and in the symbol table: `val` of the node with an index in its pool,
the `Value` of a symbol, and what its function runs on its arguments. -/
structure Env where
  val : Nat → Nat
  constant : SymbolName → Nat
  nativeCall : SymbolName → List Nat → Code Call.Answer Nat

theorem inI64_ofBool (b : Bool) : Num.InI64 (ofBool b) := by cases b <;> decide

def boolI64 (b : Bool) : {k : Int // Num.InI64 k} := ⟨ofBool b, inI64_ofBool b⟩

def returnBool (b : Bool) : Code Call.Answer Nat := make (.createI64 (boolI64 b))

def dropAll : List Nat → Code Call.Answer Unit
  | [] => return ()
  | i :: is => do
    drop i
    dropAll is

section

variable (vals : List (Code Call.Answer Nat))

def childCode (i : Nat) : Code Call.Answer Nat :=
  match vals[i]? with
  | none => .stop
  | some val => val

def ifElseNodeCode : Code Call.Answer Nat := do
  let cond ← childCode vals 0
  let result ← (do if !(← isZero cond) then childCode vals 1 else childCode vals 2)
  dropAll [cond]
  return result

def powCode (n left right : Nat) : Code Call.Answer Nat := do
  if ← isZero right then returnBool false
  else
    let res ← returnBool true
    .loop n (do return decide ((← cmpI64 right (boolI64 false)) > 0)) do
      perform (.mulAssign res (.big left))
      perform (.dec right)
    let result ← make (.createMove res)
    drop res
    return result

def binOpResult (n : Nat) (nodeType : TokenType) (left right : Nat) : Code Call.Answer Nat :=
  match nodeType with
  | .or => do
    perform (.orAssign left (.big right))
    make (.createMove left)
  | .xor => do
    perform (.xorAssign left (.big right))
    make (.createMove left)
  | .and => do
    perform (.andAssign left (.big right))
    make (.createMove left)
  | .equ => do returnBool (decide ((← cmp left right) = 0))
  | .nequ => do returnBool (decide ((← cmp left right) ≠ 0))
  | .lt => do returnBool (decide ((← cmp left right) < 0))
  | .le => do returnBool (decide ((← cmp left right) ≤ 0))
  | .gt => do returnBool (decide ((← cmp left right) > 0))
  | .ge => do returnBool (decide ((← cmp left right) ≥ 0))
  | .add => do
    perform (.addAssign left (.big right))
    make (.createMove left)
  | .sub => do
    perform (.subAssign left (.big right))
    make (.createMove left)
  | .mul => do
    perform (.mulAssign left (.big right))
    make (.createMove left)
  | .div => do
    perform (.divAssign left (.big right))
    make (.createMove left)
  | .shiftLeft => do
    let u64 ← Program.toU64 right
    perform (.shiftLeftAssign left u64.toNat)
    make (.createMove left)
  | .shiftRight => do
    let u64 ← Program.toU64 right
    perform (.shiftRightAssign left u64.toNat)
    make (.createMove left)
  | .pow => powCode n left right
  | _ => make .create

def binOpCode (n : Nat) (nodeType : TokenType) : Code Call.Answer Nat := do
  let left ← childCode vals 0
  let right ← childCode vals 1
  let result ← binOpResult n nodeType left right
  dropAll [right, left]
  return result

def factCode (n val : Nat) : Code Call.Answer Nat := do
  if ← isZero val then returnBool true
  else if ← isNegative val then returnBool false
  else
    let res ← returnBool true
    .loop n (do return !(← isOne val)) do
      perform (.mulAssign res (.big val))
      perform (.dec val)
    let result ← make (.createMove res)
    drop res
    return result

def unaryOpResult (n : Nat) (nodeType : TokenType) (val : Nat) : Code Call.Answer Nat :=
  match nodeType with
  | .add => make (.createMove val)
  | .sub => do
    perform (.negate val)
    make (.createMove val)
  | .not => do
    perform (.notSelf val)
    make (.createMove val)
  | .fact => factCode n val
  | _ => make .create

def unaryOpCode (n : Nat) (nodeType : TokenType) : Code Call.Answer Nat := do
  let val ← childCode vals 0
  let result ← unaryOpResult n nodeType val
  dropAll [val]
  return result

end

section

variable (env : Env) (table : SymbolTable)

def valCode (nodeType : TokenType) (index : Nat) (symbol : Option SymbolName) :
    Code Call.Answer Nat :=
  match nodeType with
  | .literal => make (.createCopy (env.val index))
  | .builtinConstant =>
    match symbol with
    | none => .stop
    | some name =>
      match table name with
      | some (.value _) => make (.createCopy (env.constant name))
      | _ => .stop
  | _ => make .create

def argsCode : List (Code Call.Answer Nat) → Code Call.Answer (List Nat)
  | [] => return []
  | val :: vals => do
    let arg ← val
    let args ← argsCode vals
    return arg :: args

def builtinFuncCode (symbol : Option SymbolName) (vals : List (Code Call.Answer Nat)) :
    Code Call.Answer Nat :=
  match symbol with
  | none => .stop
  | some name =>
    match table name with
    | some (.func f) =>
      if f.argCount ≠ -1 ∧ f.argCount ≠ vals.length then .stop
      else do
        let args ← argsCode vals
        match f.nativeCall with
        | none => .stop
        | some _ =>
          let result ← env.nativeCall name args
          dropAll args
          return result
    | _ => .stop

def callbackCode (n : Nat) (evalCallback : EvalCallback) (nodeType : TokenType) (index : Nat)
    (symbol : Option SymbolName) (vals : List (Code Call.Answer Nat)) : Code Call.Answer Nat :=
  match evalCallback with
  | .ifElseNode => ifElseNodeCode vals
  | .binOp => binOpCode vals n nodeType
  | .unaryOp => unaryOpCode vals n nodeType
  | .val => valCode env table nodeType index symbol
  | .builtinFunc => builtinFuncCode env table symbol vals

mutual

/-- `node->evalCallback(node, false)`, with at most `n` rounds of any loop. -/
def evalCode (n : Nat) : ExprNode → Code Call.Answer Nat
  | .null => .stop
  | .mk index cb nodeType _ symbol children =>
    callbackCode env table n cb nodeType index symbol (childrenCode n children)

def childrenCode (n : Nat) : List ExprNode → List (Code Call.Answer Nat)
  | [] => []
  | c :: children => evalCode n c :: childrenCode n children

end

end

end PGBigNumber.Infix
