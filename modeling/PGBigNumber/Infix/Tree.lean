import Mathlib.Tactic.Common

/-!
# Tokens and expression trees

The tokens the parser reads, the nodes it allocates, and expressions as plain syntax. A node is
never changed between its creation and its evaluation, so a node pointer is modelled by the node
itself, and `indexInPool` tells apart two nodes of one pool that look the same.
-/

namespace PGBigNumber.Infix

inductive TokenType where
  | invalid | add | sub | mul | div | fact | pow | and | or | xor | not | shiftRight | shiftLeft
  | builtinFunc | builtinConstant | literal | leftBracket | rightBracket | comma | mod
  | equ | nequ | lt | le | gt | ge | qmark | colon | tail
deriving DecidableEq, Repr

/-- The codes of `ErrCode` that tokenizing, parsing and evaluating set. -/
inductive ErrCode where
  | success
  | divBy0
  | charInvalid
  | notDecButReal
  | symbolUndefined
  | builtinSymbolInvalid
  | radixInvalid
  | literal2NumError
  | equInvalid
  | badToken
  | builtinFuncCallNotMatch
deriving DecidableEq, Repr

/-- The key of a symbol in the symbol table, which stands for the pointer to its entry. -/
abbrev SymbolName := List Char

structure Token where
  type : TokenType
  pSymbol : Option SymbolName := none
  val : Int := 0
deriving DecidableEq, Repr

/-- The functions a node's `evalCallback` can be. -/
inductive EvalCallback where
  | ifElseNode
  | binOp
  | unaryOp
  | val
  | builtinFunc
deriving DecidableEq, Repr

inductive ExprNode where
  | null
  | mk (indexInPool : Nat) (evalCallback : EvalCallback) (nodeType : TokenType) (val : Int)
      (symbol : Option SymbolName) (children : List ExprNode)

abbrev NodePool := List ExprNode

namespace NodePool

variable (pool : NodePool)

def newNode (evalCallback : EvalCallback) (nodeType : TokenType) (val : Int)
    (symbol : Option SymbolName) (children : List ExprNode) : ExprNode × NodePool :=
  let ptr := ExprNode.mk pool.length evalCallback nodeType val symbol children
  (ptr, pool ++ [ptr])

def newIfElseNode (cond then_ els : ExprNode) : ExprNode × NodePool :=
  pool.newNode .ifElseNode .qmark 0 none [cond, then_, els]

def newBinOpNode (op : TokenType) (lNode rNode : ExprNode) : ExprNode × NodePool :=
  pool.newNode .binOp op 0 none [lNode, rNode]

def newUnaryOpNode (op : TokenType) (child : ExprNode) : ExprNode × NodePool :=
  pool.newNode .unaryOp op 0 none [child]

def newLiteralNode (val : Int) : ExprNode × NodePool :=
  pool.newNode .val .literal val none []

def newBuiltinValNode (symbol : Option SymbolName) : ExprNode × NodePool :=
  pool.newNode .val .builtinConstant 0 symbol []

def newFunctionCallNode (symbol : Option SymbolName) (argNodes : List ExprNode) :
    ExprNode × NodePool :=
  pool.newNode .builtinFunc .builtinFunc 0 symbol argNodes

end NodePool

/-- How many children a callback reads; a function call reads all it has. -/
@[simp]
def EvalCallback.operands : EvalCallback → Option Nat
  | .ifElseNode => some 3
  | .binOp => some 2
  | .unaryOp => some 1
  | .val => some 0
  | .builtinFunc => none

namespace ExprNode

/-- `n` can be reached from `root` along child pointers. -/
inductive Reaches : ExprNode → ExprNode → Prop
  | refl (n : ExprNode) : Reaches n n
  | child {k cb ty val sym ch} {c n : ExprNode} (hc : c ∈ ch) (h : Reaches c n) :
      Reaches (mk k cb ty val sym ch) n

/-- The pointer is not null and its node has as many children as its callback reads. -/
def HasOperands : ExprNode → Prop
  | null => False
  | mk _ cb _ _ _ ch => ∀ n ∈ cb.operands, ch.length = n

def WellFormed (root : ExprNode) : Prop := ∀ n, Reaches root n → n.HasOperands

@[elab_as_elim]
theorem induction {P : ExprNode → Prop} (null : P null)
    (mk : ∀ k cb ty val sym ch, (∀ c ∈ ch, P c) → P (mk k cb ty val sym ch)) (n : ExprNode) :
    P n := by
  refine @ExprNode.rec P (fun l => ∀ c ∈ l, P c) null mk ?_ ?_ n
  · simp
  · intro c ch hc hch
    simpa using ⟨hc, hch⟩

theorem not_wellFormed_null : ¬ WellFormed null := fun h => h null (.refl _)

theorem wellFormed_mk {k : Nat} {cb : EvalCallback} {ty : TokenType} {val : Int}
    {sym : Option SymbolName} {ch : List ExprNode} :
    WellFormed (mk k cb ty val sym ch) ↔
      (∀ n ∈ cb.operands, ch.length = n) ∧ ∀ c ∈ ch, WellFormed c := by
  constructor
  · intro h
    exact ⟨h _ (.refl _), fun c hc n hn => h n (.child hc hn)⟩
  · rintro ⟨hlen, hch⟩ n hn
    cases hn with
    | refl => exact hlen
    | child hc hn => exact hch _ hc _ hn

end ExprNode

inductive UnaryOp where
  | plus | minus | not | fact
deriving DecidableEq, Repr

inductive BinaryOp where
  | pow | mul | div | mod | add | sub | shiftLeft | shiftRight | lt | le | gt | ge | equ | nequ
  | and | xor | or
deriving DecidableEq, Repr

/-- Expressions of literals, operators and `?:`. -/
inductive Expr where
  | literal (v : Int)
  | unary (op : UnaryOp) (e : Expr)
  | binary (op : BinaryOp) (l r : Expr)
  | ifElse (c t e : Expr)
deriving DecidableEq, Repr

def UnaryOp.tokenType : UnaryOp → TokenType
  | .plus => .add
  | .minus => .sub
  | .not => .not
  | .fact => .fact

def BinaryOp.tokenType : BinaryOp → TokenType
  | .pow => .pow
  | .mul => .mul
  | .div => .div
  | .mod => .mod
  | .add => .add
  | .sub => .sub
  | .shiftLeft => .shiftLeft
  | .shiftRight => .shiftRight
  | .lt => .lt
  | .le => .le
  | .gt => .gt
  | .ge => .ge
  | .equ => .equ
  | .nequ => .nequ
  | .and => .and
  | .xor => .xor
  | .or => .or

namespace Expr

def TreeOf : Expr → ExprNode → Prop
  | literal v, n => ∃ k, n = .mk k .val .literal v none []
  | unary op e, n => ∃ k c, n = .mk k .unaryOp op.tokenType 0 none [c] ∧ TreeOf e c
  | binary op l r, n => ∃ k a b, n = .mk k .binOp op.tokenType 0 none [a, b] ∧
      TreeOf l a ∧ TreeOf r b
  | ifElse c t e, n => ∃ k x y z, n = .mk k .ifElseNode .qmark 0 none [x, y, z] ∧
      TreeOf c x ∧ TreeOf t y ∧ TreeOf e z

def rootCallback : Expr → EvalCallback
  | literal _ => .val
  | unary _ _ => .unaryOp
  | binary _ _ _ => .binOp
  | ifElse _ _ _ => .ifElseNode

variable {e : Expr} {n : ExprNode} {k : Nat} {cb : EvalCallback} {ty : TokenType} {val : Int}
  {sym : Option SymbolName} {ch : List ExprNode}

theorem treeOf_root (h : e.TreeOf n) :
    ∃ k ty val sym ch, n = .mk k e.rootCallback ty val sym ch := by
  cases e with
  | literal v =>
      obtain ⟨k, hnode⟩ := h
      exact ⟨k, _, _, _, _, hnode⟩
  | unary op e =>
      obtain ⟨k, c, hnode, -⟩ := h
      exact ⟨k, _, _, _, _, hnode⟩
  | binary op l r =>
      obtain ⟨k, a, b, hnode, -⟩ := h
      exact ⟨k, _, _, _, _, hnode⟩
  | ifElse c t e =>
      obtain ⟨k, x, y, z, hnode, -⟩ := h
      exact ⟨k, _, _, _, _, hnode⟩

theorem treeOf_rootCallback (h : e.TreeOf (.mk k cb ty val sym ch)) : cb = e.rootCallback := by
  obtain ⟨_, _, _, _, _, hnode⟩ := treeOf_root h
  injection hnode

theorem not_treeOf_null (e : Expr) : ¬ e.TreeOf .null := by
  intro h
  obtain ⟨_, _, _, _, _, hnode⟩ := treeOf_root h
  cases hnode

theorem treeOf_unaryOp (h : e.TreeOf (.mk k .unaryOp ty val sym ch)) :
    ∃ op e' c, e = unary op e' ∧ op.tokenType = ty ∧ ch = [c] ∧ TreeOf e' c := by
  cases e with
  | unary op e' =>
      obtain ⟨_, c, hnode, hc⟩ := h
      injection hnode with _ _ hty _ _ hch
      exact ⟨op, e', c, rfl, hty.symm, hch, hc⟩
  | _ => cases treeOf_rootCallback h

theorem treeOf_binOp (h : e.TreeOf (.mk k .binOp ty val sym ch)) :
    ∃ op l r a b, e = binary op l r ∧ op.tokenType = ty ∧ ch = [a, b] ∧ TreeOf l a ∧
      TreeOf r b := by
  cases e with
  | binary op l r =>
      obtain ⟨_, a, b, hnode, ha, hb⟩ := h
      injection hnode with _ _ hty _ _ hch
      exact ⟨op, l, r, a, b, rfl, hty.symm, hch, ha, hb⟩
  | _ => cases treeOf_rootCallback h

theorem treeOf_ifElseNode (h : e.TreeOf (.mk k .ifElseNode ty val sym ch)) :
    ∃ c t f x y z, e = ifElse c t f ∧ ch = [x, y, z] ∧ TreeOf c x ∧ TreeOf t y ∧ TreeOf f z := by
  cases e with
  | ifElse c t f =>
      obtain ⟨_, x, y, z, hnode, hx, hy, hz⟩ := h
      injection hnode with _ _ _ _ _ hch
      exact ⟨c, t, f, x, y, z, rfl, hch, hx, hy, hz⟩
  | _ => cases treeOf_rootCallback h

theorem treeOf_val (h : e.TreeOf (.mk k .val ty val sym ch)) : e = literal val := by
  cases e with
  | literal v =>
      obtain ⟨_, hnode⟩ := h
      injection hnode with _ _ _ hval _ _
      rw [hval]
  | _ => cases treeOf_rootCallback h

theorem not_treeOf_builtinFunc : ¬ e.TreeOf (.mk k .builtinFunc ty val sym ch) := by
  intro h
  have hcb := treeOf_rootCallback h
  cases e <;> cases hcb

end Expr

end PGBigNumber.Infix
