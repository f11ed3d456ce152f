import PGBigNumber.Infix.Tree
import PGBigNumber.Library.Outcome

/-!
# The expression parser

The parse functions of `ExprParser`, each with the token vector, the parser it calls for a nested
expression and a bound on its loops. `parseExpr` ties the knot; the bound of `parse` is more than
any run needs.
-/

namespace PGBigNumber.Infix

open Outcome

/-- What `ExprParser` changes while it parses: the pool it allocates from is part of it, and the
context that `badToken` leaves in the global status. -/
structure ParserState where
  currTokenIndex : Nat := 0
  pool : NodePool := []
  errCode : ErrCode := .success
  context : Option (TokenType × String) := none

/-- How a parse can fail to return: a token is read behind the end of the vector, or a loop runs
longer than its bound. -/
inductive ParserStop where
  | outOfBounds
  | outOfFuel
deriving DecidableEq

abbrev Parse := StateT ParserState (Except ParserStop)

section

variable (tokens : List Token)

def consumeToken (type : TokenType) : Parse Bool := do
  let st ← get
  match tokens[st.currTokenIndex]? with
  | none => throw .outOfBounds
  | some token =>
    if type ≠ token.type then return false
    set { st with currTokenIndex := st.currTokenIndex + 1 }
    return true

def previousToken : Parse Token := do
  match tokens[(← get).currTokenIndex - 1]? with
  | none => throw .outOfBounds
  | some token => return token

def badToken (type : TokenType) (msg : String) : Parse Unit :=
  modify fun st => { st with errCode := .badToken, context := some (type, msg) }

def allocate (new : NodePool → ExprNode × NodePool) : Parse ExprNode := do
  let st ← get
  let (ptr, pool) := new st.pool
  set { st with pool }
  return ptr

/-- The `else if` chain of an operator loop: the node type for the first token that is there. -/
def consumeOneOf : List (TokenType × TokenType) → Parse (Option TokenType)
  | [] => return none
  | (type, op) :: ops => do
    if ← consumeToken tokens type then return some op
    consumeOneOf ops

def binOpLoop (ops : List (TokenType × TokenType)) (operand : Parse ExprNode) :
    Nat → ExprNode → Parse ExprNode
  | 0, _ => throw .outOfFuel
  | n + 1, node => do
    match ← consumeOneOf tokens ops with
    | none => return node
    | some op =>
      let right ← operand
      let node ← allocate (·.newBinOpNode op node right)
      binOpLoop ops operand n node

def binOpChain (ops : List (TokenType × TokenType)) (operand : Parse ExprNode) (n : Nat) :
    Parse ExprNode := do
  let node ← operand
  binOpLoop tokens ops operand n node

section

variable (parseExpr : Parse ExprNode)

def funcCallLoop : Nat → List ExprNode → Parse (Option (List ExprNode))
  | 0, _ => throw .outOfFuel
  | n + 1, argNodes => do
    if ← consumeToken tokens .rightBracket then return some argNodes
    if argNodes.length > 0 then
      if !(← consumeToken tokens .comma) then
        badToken .comma "Expected ','"
        return none
    let arg ← parseExpr
    funcCallLoop n (argNodes ++ [arg])

def parseFuncCall (n : Nat) (symbol : Option SymbolName) : Parse ExprNode := do
  match ← funcCallLoop tokens parseExpr n [] with
  | none => return .null
  | some argNodes => allocate (·.newFunctionCallNode symbol argNodes)

def parsePrim (n : Nat) : Parse ExprNode := do
  if ← consumeToken tokens .leftBracket then
    let node ← parseExpr
    if !(← consumeToken tokens .rightBracket) then
      badToken .rightBracket "expected ')'"
      return .null
    return node
  else if ← consumeToken tokens .literal then
    let token ← previousToken tokens
    allocate (·.newLiteralNode token.val)
  else if ← consumeToken tokens .builtinConstant then
    let token ← previousToken tokens
    allocate (·.newBuiltinValNode token.pSymbol)
  else if ← consumeToken tokens .builtinFunc then
    let temp ← previousToken tokens
    if !(← consumeToken tokens .leftBracket) then
      badToken .leftBracket "Expected '()' To Call Function"
      return .null
    parseFuncCall tokens parseExpr n temp.pSymbol
  else
    return .null

def postfixLoop : Nat → ExprNode → Parse ExprNode
  | 0, _ => throw .outOfFuel
  | n + 1, node => do
    match ← consumeOneOf tokens [(.fact, .fact)] with
    | none => return node
    | some op =>
      let node ← allocate (·.newUnaryOpNode op node)
      postfixLoop n node

def parsePostfixOp (n : Nat) : Parse ExprNode := do
  let node ← parsePrim tokens parseExpr n
  postfixLoop tokens n node

/-- `parseUnaryOp`; the first bound is on its recursion. -/
def parseUnaryOp (n : Nat) : Nat → Parse ExprNode
  | 0 => throw .outOfFuel
  | k + 1 => do
    match ← consumeOneOf tokens [(.add, .add), (.sub, .sub), (.not, .not)] with
    | some op =>
      let child ← parseUnaryOp n k
      allocate (·.newUnaryOpNode op child)
    | none => parsePostfixOp tokens parseExpr n

def parsePow (n : Nat) : Parse ExprNode :=
  binOpChain tokens [(.pow, .pow)] (parseUnaryOp tokens parseExpr n n) n

def parseMulDivMod (n : Nat) : Parse ExprNode :=
  binOpChain tokens [(.mul, .mul), (.div, .div), (.mod, .mod)] (parsePow tokens parseExpr n) n

def parseAddSub (n : Nat) : Parse ExprNode :=
  binOpChain tokens [(.add, .add), (.sub, .sub)] (parseMulDivMod tokens parseExpr n) n

def parseShift (n : Nat) : Parse ExprNode :=
  binOpChain tokens [(.shiftLeft, .shiftLeft), (.shiftRight, .shiftRight)]
    (parseAddSub tokens parseExpr n) n

def parseCmp (n : Nat) : Parse ExprNode :=
  binOpChain tokens [(.lt, .lt), (.le, .lt), (.gt, .lt), (.ge, .lt)]
    (parseShift tokens parseExpr n) n

/-- `parseEqu`: its loop returns at the end of the first pass. -/
def parseEqu (n : Nat) : Parse ExprNode := do
  let node ← parseCmp tokens parseExpr n
  match ← consumeOneOf tokens [(.equ, .equ), (.nequ, .nequ)] with
  | none => return node
  | some op =>
    let right ← parseCmp tokens parseExpr n
    allocate (·.newBinOpNode op node right)

def parseBitAnd (n : Nat) : Parse ExprNode :=
  binOpChain tokens [(.and, .and)] (parseEqu tokens parseExpr n) n

def parseBitXor (n : Nat) : Parse ExprNode :=
  binOpChain tokens [(.xor, .xor)] (parseBitAnd tokens parseExpr n) n

def parseBitOr (n : Nat) : Parse ExprNode :=
  binOpChain tokens [(.or, .or)] (parseBitXor tokens parseExpr n) n

def parseConditional (n : Nat) : Parse ExprNode := do
  let condition ← parseBitOr tokens parseExpr n
  if (← get).errCode ≠ .success then return .null
  if !(← consumeToken tokens .qmark) then return condition
  let then_ ← parseExpr
  if (← get).errCode ≠ .success then return .null
  if !(← consumeToken tokens .colon) then
    badToken .colon "expected ':'"
    return .null
  let else_ ← parseExpr
  if (← get).errCode ≠ .success then return .null
  allocate (·.newIfElseNode condition then_ else_)

end

def parseExpr : Nat → Parse ExprNode
  | 0 => throw .outOfFuel
  | n + 1 => parseConditional tokens (parseExpr n) n

def parse : Except ParserStop (ExprNode × ParserState) :=
  parseExpr tokens (tokens.length + 3) {}

end

section

variable {tokens : List Token} {st : ParserState} {E : ParserStop → Prop}

def ahead (tokens : List Token) (st : ParserState) : List TokenType :=
  (tokens.drop st.currTokenIndex).map Token.type

def ParserState.advance (st : ParserState) : ParserState :=
  { st with currTokenIndex := st.currTokenIndex + 1 }

theorem ahead_cons {t : TokenType} {ts : List TokenType} (h : ahead tokens st = t :: ts) :
    (∃ token, tokens[st.currTokenIndex]? = some token ∧ token.type = t) ∧
      ahead tokens st.advance = ts := by
  unfold ahead at *
  cases hdrop : tokens.drop st.currTokenIndex with
  | nil =>
      rw [hdrop] at h
      simp at h
  | cons token rest =>
      rw [hdrop, List.map_cons, List.cons.injEq] at h
      have hget : tokens[st.currTokenIndex]? = some token := by
        rw [← List.head?_drop, hdrop, List.head?_cons]
      refine ⟨⟨token, hget, h.1⟩, ?_⟩
      rw [← h.2, ParserState.advance, ← List.tail_drop, hdrop, List.tail_cons]

theorem ahead_nil (h : ahead tokens st = []) : tokens[st.currTokenIndex]? = none := by
  unfold ahead at h
  rw [List.map_eq_nil_iff, List.drop_eq_nil_iff] at h
  exact List.getElem?_eq_none h

@[simp] theorem length_ahead : (ahead tokens st).length = tokens.length - st.currTokenIndex := by
  simp [ahead]

theorem lt_of_ahead {t : TokenType} {ts : List TokenType} (h : ahead tokens st = t :: ts) :
    st.currTokenIndex < tokens.length := by
  have hlen := congrArg List.length h
  rw [length_ahead, List.length_cons] at hlen
  omega

theorem ensures_consumeToken {type : TokenType} {Q : Bool → ParserState → Prop} :
    Ensures (consumeToken tokens type) st Q E ↔
      (ahead tokens st = [] → E .outOfBounds) ∧
      ∀ t ts, ahead tokens st = t :: ts →
        if t = type then Q true st.advance else Q false st := by
  unfold consumeToken
  simp only [ensures_bind, ensures_get]
  cases hahead : ahead tokens st with
  | nil => simp [ahead_nil hahead]
  | cons t ts =>
      obtain ⟨⟨token, hget, ht⟩, -⟩ := ahead_cons hahead
      rw [hget]
      by_cases heq : t = type
      · subst heq
        simp [ht, ParserState.advance]
      · simp [ht, heq, Ne.symm heq]

theorem ensures_consumeOneOf {ops : List (TokenType × TokenType)}
    {Q : Option TokenType → ParserState → Prop} (hnil : ahead tokens st = [] → E .outOfBounds)
    (hsome : ∀ t ts op, ahead tokens st = t :: ts → (t, op) ∈ ops → Q (some op) st.advance)
    (hnone : ∀ t ts, ahead tokens st = t :: ts → (∀ op, (t, op) ∉ ops) → Q none st)
    (hops : ops ≠ []) : Ensures (consumeOneOf tokens ops) st Q E := by
  induction ops with
  | nil => exact absurd rfl hops
  | cons pair ops ih =>
      obtain ⟨type, op⟩ := pair
      unfold consumeOneOf
      simp only [ensures_bind]
      rw [ensures_consumeToken]
      refine ⟨hnil, fun t ts hahead => ?_⟩
      by_cases heq : t = type
      · rw [if_pos heq]
        subst heq
        simpa using hsome t ts op hahead List.mem_cons_self
      · rw [if_neg heq]
        simp only [Bool.false_eq_true, if_false]
        cases ops with
        | nil =>
            simpa [consumeOneOf] using hnone t ts hahead (by simp [heq])
        | cons pair' ops' =>
            refine ih (fun t' ts' op' h h' => hsome t' ts' op' h (List.mem_cons_of_mem _ h'))
              (fun t' ts' h h' => hnone t' ts' h fun op' hmem => ?_) (List.cons_ne_nil _ _)
            obtain ⟨rfl, rfl⟩ := List.cons.inj (hahead.symm.trans h)
            rcases List.mem_cons.mp hmem with he | hm
            · exact heq (congrArg Prod.fst he)
            · exact h' op' hm

theorem ensures_consumeToken_ahead {t type : TokenType} {ts : List TokenType}
    {Q : Bool → ParserState → Prop} (hahead : ahead tokens st = t :: ts) :
    Ensures (consumeToken tokens type) st Q E ↔
      if t = type then Q true st.advance else Q false st := by
  rw [ensures_consumeToken]
  constructor
  · exact fun h => h.2 t ts hahead
  · intro h
    refine ⟨fun hnil => absurd (hnil.symm.trans hahead) (List.cons_ne_nil t ts).symm, ?_⟩
    intro t' ts' hahead'
    obtain ⟨rfl, rfl⟩ := List.cons.inj (hahead.symm.trans hahead')
    exact h

theorem ensures_consumeOneOf_ahead {ops : List (TokenType × TokenType)} {t : TokenType}
    {ts : List TokenType} {Q : Option TokenType → ParserState → Prop}
    (hahead : ahead tokens st = t :: ts) (hsome : ∀ op, (t, op) ∈ ops → Q (some op) st.advance)
    (hnone : (∀ op, (t, op) ∉ ops) → Q none st) (hops : ops ≠ []) :
    Ensures (consumeOneOf tokens ops) st Q E := by
  have heq : ∀ {t' ts'}, ahead tokens st = t' :: ts' → t' = t := fun hahead' =>
    (List.cons.inj (hahead'.symm.trans hahead)).1
  apply ensures_consumeOneOf
  · exact fun hnil => absurd (hnil.symm.trans hahead) (List.cons_ne_nil t ts).symm
  · exact fun t' ts' op hahead' hmem => hsome op (heq hahead' ▸ hmem)
  · exact fun t' ts' hahead' hnot => hnone (heq hahead' ▸ hnot)
  · exact hops

theorem ensures_consumeToken_any {type : TokenType} {Q : Bool → ParserState → Prop}
    (htrue : Q true st.advance) (hfalse : Q false st) :
    Ensures (consumeToken tokens type) st Q fun _ => True := by
  rw [ensures_consumeToken]
  refine ⟨fun _ => trivial, fun t ts _ => ?_⟩
  split
  · exact htrue
  · exact hfalse

theorem ensures_consumeOneOf_any {ops : List (TokenType × TokenType)}
    {Q : Option TokenType → ParserState → Prop}
    (hsome : ∀ t op, (t, op) ∈ ops → Q (some op) st.advance) (hnone : Q none st)
    (hops : ops ≠ []) : Ensures (consumeOneOf tokens ops) st Q fun _ => True :=
  ensures_consumeOneOf (fun _ => trivial) (fun t _ op _ hmem => hsome t op hmem)
    (fun _ _ _ _ => hnone) hops

theorem ensures_allocate {new : NodePool → ExprNode × NodePool} {Q : ExprNode → ParserState → Prop} :
    Ensures (allocate new) st Q E ↔ Q (new st.pool).1 { st with pool := (new st.pool).2 } := by
  unfold allocate
  simp

theorem ensures_previousToken {token : Token} {Q : Token → ParserState → Prop}
    (hget : tokens[st.currTokenIndex]? = some token) (hQ : Q token st.advance) :
    Ensures (previousToken tokens) st.advance Q E := by
  unfold previousToken
  rw [ensures_bind, ensures_get]
  have hidx : st.advance.currTokenIndex - 1 = st.currTokenIndex := rfl
  rw [hidx, hget]
  exact hQ

theorem ensures_badToken {type : TokenType} {msg : String} {Q : Unit → ParserState → Prop} :
    Ensures (badToken type msg) st Q E ↔
      Q () { st with errCode := .badToken, context := some (type, msg) } := Iff.rfl

end

end PGBigNumber.Infix
