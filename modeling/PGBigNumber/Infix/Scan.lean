import PGBigNumber.Infix.Parser

/-!
# One pass over the tokens

An automaton with a stack of open brackets and `?:` branches reads the token types from left to
right. It builds no tree: it finds out where an expression that starts at the first token ends,
whether a required token is missing on the way and whether an operand is. Behind it stands the
theorem that the parser stops where the automaton does and with what it found.
-/

namespace PGBigNumber.Infix

open Outcome

/-- Binary operators that bind tighter than the equality operators. -/
def TokenType.isTight (t : TokenType) : Bool :=
  t ∈ [.pow, .mul, .div, .mod, .add, .sub, .shiftLeft, .shiftRight, .lt, .le, .gt, .ge]

def TokenType.isSign (t : TokenType) : Bool := t ∈ [.add, .sub, .not]

def TokenType.isEquality (t : TokenType) : Bool := t ∈ [.equ, .nequ]

def TokenType.isBitwise (t : TokenType) : Bool := t ∈ [.and, .xor, .or]

/-- What has been found so far: a missing bracket, comma or colon (`err`), a missing operand
(`gap`), and nothing but brackets (`bare`). -/
structure Report where
  err : Bool := false
  gap : Bool := false
  bare : Bool := true
deriving DecidableEq, Repr

namespace Report

def seen (r : Report) : Report := { r with bare := false }

def fail (r : Report) : Report := { r with err := true }

def missing (r : Report) : Report := { r with gap := true }

end Report

/-- What the expression being read is part of. Brackets and arguments keep whether the operand
around them already has its equality operator. -/
inductive Frame where
  | paren (equ : Bool)
  | arg (equ : Bool)
  | then_
  | els
deriving DecidableEq, Repr

/-- What may stand at the next token: an operand, an operator, the bracket of a call, or the first
argument of one. -/
inductive Mode where
  | operand
  | operator
  | call
  | firstArg
deriving DecidableEq, Repr

structure Config where
  mode : Mode
  equ : Bool
  report : Report
  stack : List Frame
deriving DecidableEq, Repr

inductive Move where
  | go (c : Config)
  | halt (r : Report)
deriving DecidableEq, Repr

/-- Take `t` as an operator, or else do what the end of the expression asks for. -/
def operatorOr (t : TokenType) (equ : Bool) (r : Report) (s : List Frame) (ended : Move) : Move :=
  if t = .fact then .go ⟨.operator, equ, r.seen, s⟩
  else if t.isTight then .go ⟨.operand, equ, r.seen, s⟩
  else if t.isEquality ∧ equ = false then .go ⟨.operand, true, r.seen, s⟩
  else if t.isBitwise then .go ⟨.operand, false, r.seen, s⟩
  else if t = .qmark ∧ r.err = false then .go ⟨.operand, false, r.seen, .then_ :: s⟩
  else ended

def close (t : TokenType) : Report → List Frame → Move
  | r, [] => .halt r
  | r, .paren equ :: s =>
    if t = .rightBracket then .go ⟨.operator, equ, r, s⟩
    else operatorOr t equ r.fail s (close t r.fail s)
  | r, .arg equ :: s =>
    if t = .rightBracket then .go ⟨.operator, equ, r, s⟩
    else if t = .comma then .go ⟨.operand, false, r, .arg equ :: s⟩
    else operatorOr t equ r.fail s (close t r.fail s)
  | r, .then_ :: s =>
    if r.err then close t r s
    else if t = .colon then .go ⟨.operand, false, r, .els :: s⟩
    else close t r.fail s
  | r, .els :: s => close t r s

def atOperator (equ : Bool) (r : Report) (s : List Frame) (t : TokenType) : Move :=
  operatorOr t equ r s (close t r s)

def atOperand (equ : Bool) (r : Report) (s : List Frame) (t : TokenType) : Move :=
  if t.isSign then .go ⟨.operand, equ, r.seen, s⟩
  else if t = .leftBracket then .go ⟨.operand, false, r, .paren equ :: s⟩
  else if t = .literal ∨ t = .builtinConstant then .go ⟨.operator, equ, r.seen, s⟩
  else if t = .builtinFunc then .go ⟨.call, equ, r.seen, s⟩
  else atOperator equ r.missing s t

def move (c : Config) (t : TokenType) : Move :=
  match c.mode with
  | .operand => atOperand c.equ c.report c.stack t
  | .operator => atOperator c.equ c.report c.stack t
  | .call =>
    if t = .leftBracket then .go ⟨.firstArg, c.equ, c.report, c.stack⟩
    else atOperator c.equ c.report.fail c.stack t
  | .firstArg =>
    if t = .rightBracket then .go ⟨.operator, c.equ, c.report, c.stack⟩
    else atOperand false c.report (.arg c.equ :: c.stack) t

/-- How a pass ends: at the token that heads `rest`, or behind the last token. -/
inductive Verdict where
  | halted (rest : List TokenType) (r : Report)
  | overrun
deriving DecidableEq, Repr

def scan : Config → List TokenType → Verdict
  | _, [] => .overrun
  | c, t :: ts =>
    match move c t with
    | .go c' => scan c' ts
    | .halt r => .halted (t :: ts) r

def scanTokens (tokens : List Token) : Verdict :=
  scan ⟨.operand, false, {}, []⟩ (tokens.map Token.type)

def proceed (m : TokenType → Move) : List TokenType → Verdict
  | [] => .overrun
  | t :: ts =>
    match m t with
    | .go c => scan c ts
    | .halt r => .halted (t :: ts) r

theorem scan_eq_proceed (c : Config) (ts : List TokenType) : scan c ts = proceed (move c) ts := by
  cases ts <;> rfl

theorem proceed_go {m : TokenType → Move} {t : TokenType} {c : Config} (h : m t = .go c)
    (ts : List TokenType) : proceed m (t :: ts) = scan c ts := by
  simp only [proceed, h]

theorem scan_go {c c' : Config} {t : TokenType} (h : move c t = .go c') (ts : List TokenType) :
    scan c (t :: ts) = scan c' ts := by
  rw [scan_eq_proceed, proceed_go h]

theorem proceed_congr {m m' : TokenType → Move} {t : TokenType} (h : m t = m' t)
    (ts : List TokenType) : proceed m (t :: ts) = proceed m' (t :: ts) := by
  simp only [proceed, h]

end PGBigNumber.Infix
