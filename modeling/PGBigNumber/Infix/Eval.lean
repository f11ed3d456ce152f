import Mathlib.Data.Int.Bitwise
import Mathlib.Data.Nat.Factorial.Basic
import PGBigNumber.Infix.Tree
import PGBigNumber.Library.Runs

/-!
# Evaluation of expression trees

The callbacks of the nodes, over integers as the values of `BigIntegerImpl`, and the meaning of an
expression they are compared with. A callback gets the values of the children as computations and
runs the ones it asks for.
-/

namespace PGBigNumber.Infix

/-- `Func`; an argument count of `-1` admits any number of arguments. -/
structure Func where
  nativeCall : Option (List Int → Int)
  argCount : Int

inductive Symbol where
  | monostate
  | func (f : Func)
  | value (v : Int)

abbrev SymbolTable := SymbolName → Option Symbol

/-- How an evaluation can fail to give a value: a null child is followed, a child is read that is
not there, the symbol is null or `as` finds another alternative, an empty function is called, or a
status error is raised (the process ends on `divBy0`, and `builtinFuncCallNotMatch` has no callback
to run). -/
inductive EvalStop where
  | nullChild
  | outOfBounds
  | nullSymbol
  | badVariant
  | badCall
  | status (code : ErrCode)
deriving DecidableEq, Repr

abbrev Eval := Except EvalStop

def toU64 (x : Int) : Nat := (x % 2 ^ 64).toNat

def ofBool (b : Bool) : Int := if b then 1 else 0

def powLoop (left : Int) : Nat → Int → Int
  | 0, res => res
  | right + 1, res => powLoop left right (res * left)

def factLoop : Nat → Int → Int
  | 0, res => res
  | 1, res => res
  | val + 2, res => factLoop (val + 1) (res * (val + 2 : Nat))

/-! The callbacks run in any monad in which an evaluation can stop: `vals` are the evaluations of the
children, which are a call of their callbacks in `eval` and a wait for their promises in `peval`. -/

section

variable {m : Type → Type} [Monad m] [MonadExcept EvalStop m] (vals : List (m Int))

def evalChild (i : Nat) : m Int :=
  match vals[i]? with
  | none => throw .outOfBounds
  | some val => val

def ifElseNodeEvalCallback : m Int := do
  if (← evalChild vals 0) ≠ 0 then evalChild vals 1 else evalChild vals 2

/-- `binOpEvalCallback`; its `switch` has no case for `MOD`. -/
def binOpEvalCallback (nodeType : TokenType) : m Int := do
  let left ← evalChild vals 0
  let right ← evalChild vals 1
  match nodeType with
  | .or => return left.lor right
  | .xor => return left.xor right
  | .and => return left.land right
  | .equ => return ofBool (left = right)
  | .nequ => return ofBool (left ≠ right)
  | .lt => return ofBool (left < right)
  | .le => return ofBool (left ≤ right)
  | .gt => return ofBool (left > right)
  | .ge => return ofBool (left ≥ right)
  | .add => return left + right
  | .sub => return left - right
  | .mul => return left * right
  | .div => if right = 0 then throw (.status .divBy0) else return left.tdiv right
  | .shiftLeft => return left * 2 ^ toU64 right
  | .shiftRight => return left / 2 ^ toU64 right
  | .pow => if right = 0 then return 0 else return powLoop left right.toNat 1
  | _ => return 0

def unaryOpEvalCallback (nodeType : TokenType) : m Int := do
  let val ← evalChild vals 0
  match nodeType with
  | .add => return val
  | .sub => return -val
  | .not => return -val - 1
  | .fact =>
    if val = 0 then return 1
    else if val < 0 then return 0
    else return factLoop val.toNat 1
  | _ => return 0

end

section

variable {m : Type → Type} [Monad m] [MonadExcept EvalStop m] (table : SymbolTable)

def valEvalCallback (nodeType : TokenType) (val : Int) (symbol : Option SymbolName) : m Int :=
  match nodeType with
  | .literal => return val
  | .builtinConstant =>
    match symbol.bind table with
    | none => throw .nullSymbol
    | some (.value v) => return v
    | some _ => throw .badVariant
  | _ => return 0

def builtinFuncEvalCallback (symbol : Option SymbolName) (vals : List (m Int)) : m Int :=
  match symbol.bind table with
  | none => throw .nullSymbol
  | some (.func f) =>
    if f.argCount ≠ -1 ∧ f.argCount ≠ vals.length then throw (.status .builtinFuncCallNotMatch)
    else do
      let args ← vals.mapM id
      match f.nativeCall with
      | none => throw .badCall
      | some nativeCall => return nativeCall args
  | some _ => throw .badVariant

def runCallback (evalCallback : EvalCallback) (nodeType : TokenType) (val : Int)
    (symbol : Option SymbolName) (vals : List (m Int)) : m Int :=
  match evalCallback with
  | .ifElseNode => ifElseNodeEvalCallback vals
  | .binOp => binOpEvalCallback vals nodeType
  | .unaryOp => unaryOpEvalCallback vals nodeType
  | .val => valEvalCallback table nodeType val symbol
  | .builtinFunc => builtinFuncEvalCallback table symbol vals

mutual

def evalCallback : ExprNode → Eval Int
  | .null => throw .nullChild
  | .mk _ cb nodeType val symbol children =>
    runCallback table cb nodeType val symbol (evalChildren children)

def evalChildren : List ExprNode → List (Eval Int)
  | [] => []
  | c :: children => evalCallback c :: evalChildren children

end

theorem evalChildren_eq_map (children : List ExprNode) :
    evalChildren table children = children.map (evalCallback table) := by
  induction children with
  | nil => rfl
  | cons c children ih => rw [evalChildren, ih, List.map_cons]

end

def StopsOnly (S : EvalStop → Prop) {α : Type} (x : Eval α) : Prop := ∀ e, x = .error e → S e

section

variable {S : EvalStop → Prop} {α β : Type}

theorem StopsOnly.pure (a : α) : StopsOnly S (pure a : Eval α) := by rintro e ⟨⟩

theorem StopsOnly.throw {e : EvalStop} (h : S e) : StopsOnly S (throw e : Eval α) := by
  rintro e' ⟨⟩
  exact h

theorem StopsOnly.bind {x : Eval α} {f : α → Eval β} (hx : StopsOnly S x) (hf : ∀ a, StopsOnly S (f a)) :
    StopsOnly S (x >>= f) := by
  cases x with
  | ok a => exact hf a
  | error e =>
      intro e' h
      exact hx e' (congrArg Except.error (Except.error.inj h))

private theorem StopsOnly.evalChild {vals : List (Eval Int)} (h : ∀ x ∈ vals, StopsOnly S x) {i : Nat}
    (hi : i < vals.length) : StopsOnly S (evalChild vals i) := by
  unfold Infix.evalChild
  rw [List.getElem?_eq_getElem hi]
  exact h _ (List.getElem_mem hi)

theorem StopsOnly.mapM {vals : List (Eval Int)} (h : ∀ x ∈ vals, StopsOnly S x) :
    StopsOnly S (vals.mapM id) := by
  induction vals with
  | nil => exact .pure []
  | cons x vals ih =>
      rw [List.mapM_cons]
      refine .bind (h x List.mem_cons_self) fun a => ?_
      exact .bind (ih fun y hy => h y (List.mem_cons_of_mem x hy)) fun l => .pure _

private theorem StopsOnly.binOp (hstatus : ∀ code, S (.status code)) {vals : List (Eval Int)}
    (h : ∀ x ∈ vals, StopsOnly S x) (hlen : vals.length = 2) (ty : TokenType) :
    StopsOnly S (binOpEvalCallback vals ty) := by
  unfold binOpEvalCallback
  refine .bind (.evalChild h (by omega)) fun a => .bind (.evalChild h (by omega)) fun b => ?_
  split
  case h_13 =>
    split
    · exact .throw (hstatus _)
    · exact .pure _
  case h_16 => split <;> exact .pure _
  all_goals exact .pure _

private theorem StopsOnly.unaryOp {vals : List (Eval Int)} (h : ∀ x ∈ vals, StopsOnly S x)
    (hlen : vals.length = 1) (ty : TokenType) : StopsOnly S (unaryOpEvalCallback vals ty) := by
  unfold unaryOpEvalCallback
  refine .bind (.evalChild h (by omega)) fun a => ?_
  split
  case h_4 =>
    split
    · exact .pure _
    · split <;> exact .pure _
  all_goals exact .pure _

theorem runCallback_stopsOnly (hstatus : ∀ code, S (.status code)) {table : SymbolTable}
    {cb : EvalCallback} {ty : TokenType} {val : Int} {sym : Option SymbolName}
    {vals : List (Eval Int)} (harity : ∀ n ∈ cb.operands, vals.length = n)
    (hvals : ∀ x ∈ vals, StopsOnly S x)
    (hval : cb = .val → StopsOnly S (valEvalCallback table ty val sym : Eval Int))
    (hcall : cb = .builtinFunc → StopsOnly S (builtinFuncEvalCallback table sym vals)) :
    StopsOnly S (runCallback table cb ty val sym vals) := by
  cases cb with
  | ifElseNode =>
      have hlen : vals.length = 3 := harity 3 rfl
      refine .bind (.evalChild hvals (by omega)) fun a => ?_
      split <;> exact .evalChild hvals (by omega)
  | binOp => exact .binOp hstatus hvals (harity 2 rfl) ty
  | unaryOp => exact .unaryOp hvals (harity 1 rfl) ty
  | val => exact hval rfl
  | builtinFunc => exact hcall rfl

end

/-- No null child is followed and no child read that is not there. -/
def Safe {α : Type} (x : Eval α) : Prop := x ≠ .error .nullChild ∧ x ≠ .error .outOfBounds

theorem Safe.of_stopsOnly {α : Type} {x : Eval α}
    (h : StopsOnly (fun e => e ≠ .nullChild ∧ e ≠ .outOfBounds) x) : Safe x :=
  ⟨fun hx => (h _ hx).1 rfl, fun hx => (h _ hx).2 rfl⟩

/-- A tree without missing operands is evaluated without following a null child. -/
theorem evalCallback_safe (table : SymbolTable) {node : ExprNode} (h : node.WellFormed) :
    Safe (evalCallback table node) := by
  refine .of_stopsOnly ?_
  induction node using ExprNode.induction with
  | null => exact absurd h ExprNode.not_wellFormed_null
  | mk k cb ty val sym ch ih =>
      rw [ExprNode.wellFormed_mk] at h
      obtain ⟨hlen, hch⟩ := h
      have hvals : ∀ x ∈ ch.map (evalCallback table),
          StopsOnly (fun e => e ≠ .nullChild ∧ e ≠ .outOfBounds) x := by
        intro x hx
        obtain ⟨c, hc, rfl⟩ := List.mem_map.mp hx
        exact ih c hc (hch c hc)
      rw [evalCallback, evalChildren_eq_map]
      refine runCallback_stopsOnly (fun code => by simp) (by simpa using hlen) hvals (fun _ => ?_)
        fun _ => ?_
      · unfold valEvalCallback
        split
        · exact .pure _
        · split
          · exact .throw (by simp)
          · exact .pure _
          · exact .throw (by simp)
        · exact .pure _
      · unfold builtinFuncEvalCallback
        split
        · exact .throw (by simp)
        · split
          · exact .throw (by simp)
          · refine .bind (.mapM hvals) fun args => ?_
            split
            · exact .throw (by simp)
            · exact .pure _
        · exact .throw (by simp)

def UnaryOp.denote (v : Int) : UnaryOp → Option Int
  | .plus => some v
  | .minus => some (-v)
  | .not => some (-v - 1)
  | .fact => if 0 ≤ v then some v.toNat.factorial else none

def BinaryOp.denote (a b : Int) : BinaryOp → Option Int
  | .pow => if 0 ≤ b then some (a ^ b.toNat) else none
  | .mul => some (a * b)
  | .div => if b = 0 then none else some (a.tdiv b)
  | .mod => if b = 0 then none else some (a.tmod b)
  | .add => some (a + b)
  | .sub => some (a - b)
  | .shiftLeft => if 0 ≤ b ∧ b < 2 ^ 64 then some (a * 2 ^ b.toNat) else none
  | .shiftRight => if 0 ≤ b ∧ b < 2 ^ 64 then some (a / 2 ^ b.toNat) else none
  | .lt => some (ofBool (a < b))
  | .le => some (ofBool (a ≤ b))
  | .gt => some (ofBool (a > b))
  | .ge => some (ofBool (a ≥ b))
  | .equ => some (ofBool (a = b))
  | .nequ => some (ofBool (a ≠ b))
  | .and => some (a.land b)
  | .xor => some (a.xor b)
  | .or => some (a.lor b)

namespace Expr

/-- The value of an expression; none where a divisor on the evaluated path is zero, a shift amount
is no 64-bit number, or a power or a factorial is not defined. -/
def denote : Expr → Option Int
  | literal v => some v
  | unary op e => do op.denote (← denote e)
  | binary op l r => do op.denote (← denote l) (← denote r)
  | ifElse c t e => do if (← denote c) ≠ 0 then denote t else denote e

def Plain : Expr → Prop
  | literal _ => True
  | unary op e => op ≠ .fact ∧ Plain e
  | binary op l r => op ≠ .pow ∧ Plain l ∧ Plain r
  | ifElse c t e => Plain c ∧ Plain t ∧ Plain e

inductive Evaluates : Expr → Expr → Prop
  | refl (e : Expr) : Evaluates e e
  | operand {op e e'} : Evaluates e e' → Evaluates (unary op e) e'
  | left {op l r e'} : Evaluates l e' → Evaluates (binary op l r) e'
  | right {op l r e'} : Evaluates r e' → Evaluates (binary op l r) e'
  | cond {c t e e'} : Evaluates c e' → Evaluates (ifElse c t e) e'
  | then_ {c t e e' v} : denote c = some v → v ≠ 0 → Evaluates t e' → Evaluates (ifElse c t e) e'
  | els {c t e e'} : denote c = some 0 → Evaluates e e' → Evaluates (ifElse c t e) e'

theorem exists_treeOf (e : Expr) : ∃ node, e.TreeOf node := by
  induction e with
  | literal v => exact ⟨_, 0, rfl⟩
  | unary op e ih =>
      obtain ⟨c, hc⟩ := ih
      exact ⟨_, 0, c, rfl, hc⟩
  | binary op l r ihl ihr =>
      obtain ⟨a, ha⟩ := ihl
      obtain ⟨b, hb⟩ := ihr
      exact ⟨_, 0, a, b, rfl, ha, hb⟩
  | ifElse c t e ihc iht ihe =>
      obtain ⟨x, hx⟩ := ihc
      obtain ⟨y, hy⟩ := iht
      obtain ⟨z, hz⟩ := ihe
      exact ⟨_, 0, x, y, z, rfl, hx, hy, hz⟩

theorem Evaluates.trans {e e' e'' : Expr} (h : Evaluates e e') (h' : Evaluates e' e'') :
    Evaluates e e'' := by
  induction h with
  | refl => exact h'
  | operand _ ih => exact .operand (ih h')
  | left _ ih => exact .left (ih h')
  | right _ ih => exact .right (ih h')
  | cond _ ih => exact .cond (ih h')
  | then_ hc hv _ ih => exact .then_ hc hv (ih h')
  | els hc _ ih => exact .els hc (ih h')

theorem Evaluates.plain {e e' : Expr} (h : Evaluates e e') (hp : e.Plain) : e'.Plain := by
  induction h with
  | refl => exact hp
  | operand _ ih => exact ih hp.2
  | left _ ih => exact ih hp.2.1
  | right _ ih => exact ih hp.2.2
  | cond _ ih => exact ih hp.1
  | then_ _ _ _ ih => exact ih hp.2.1
  | els _ _ ih => exact ih hp.2.2

theorem Evaluates.isSome {e e' : Expr} (h : Evaluates e e') (hv : e.denote.isSome = true) :
    e'.denote.isSome = true := by
  induction h with
  | refl => exact hv
  | @operand op e e' _ ih =>
      apply ih
      cases he : denote e with
      | none => simp [denote, he] at hv
      | some v => rfl
  | @left op l r e' _ ih =>
      apply ih
      cases he : denote l with
      | none => simp [denote, he] at hv
      | some v => rfl
  | @right op l r e' _ ih =>
      apply ih
      cases he : denote r with
      | none => simp [denote, he] at hv
      | some v => rfl
  | @cond c t e e' _ ih =>
      apply ih
      cases he : denote c with
      | none => simp [denote, he] at hv
      | some v => rfl
  | then_ hc hne _ ih =>
      apply ih
      simpa [denote, hc, hne] using hv
  | els hc _ ih =>
      apply ih
      simpa [denote, hc] using hv

end Expr

theorem toU64_of_range {x : Int} (h : 0 ≤ x) (h' : x < 2 ^ 64) : toU64 x = x.toNat := by
  unfold toU64
  rw [Int.emod_eq_of_lt h h']

theorem unaryOp_denote {op : UnaryOp} {a v : Int} (hop : op ≠ .fact) (h : op.denote a = some v) :
    unaryOpEvalCallback [(.ok a : Eval Int)] op.tokenType = .ok v := by
  cases op with
  | plus => exact congrArg Except.ok (Option.some.inj h)
  | minus => exact congrArg Except.ok (Option.some.inj h)
  | not => exact congrArg Except.ok (Option.some.inj h)
  | fact => exact absurd rfl hop

theorem binOp_denote {op : BinaryOp} {a b v : Int} (hpow : op ≠ .pow) (hmod : op ≠ .mod)
    (h : op.denote a b = some v) :
    binOpEvalCallback [(.ok a : Eval Int), .ok b] op.tokenType = .ok v := by
  have hval : ∀ x, some x = some v → (Except.ok x : Eval Int) = .ok v := fun x hx =>
    congrArg Except.ok (Option.some.inj hx)
  cases op with
  | pow => exact absurd rfl hpow
  | mod => exact absurd rfl hmod
  | div =>
      by_cases hb : b = 0
      · simp [BinaryOp.denote, hb] at h
      · rw [BinaryOp.denote, if_neg hb] at h
        change (if b = 0 then throw _ else pure (a.tdiv b)) = _
        rw [if_neg hb]
        exact hval _ h
  | shiftLeft =>
      by_cases hb : 0 ≤ b ∧ b < 2 ^ 64
      · rw [BinaryOp.denote, if_pos hb] at h
        change (Except.ok (a * 2 ^ toU64 b) : Eval Int) = _
        rw [toU64_of_range hb.1 hb.2]
        exact hval _ h
      · rw [BinaryOp.denote, if_neg hb] at h
        simp at h
  | shiftRight =>
      by_cases hb : 0 ≤ b ∧ b < 2 ^ 64
      · rw [BinaryOp.denote, if_pos hb] at h
        change (Except.ok (a / 2 ^ toU64 b) : Eval Int) = _
        rw [toU64_of_range hb.1 hb.2]
        exact hval _ h
      · rw [BinaryOp.denote, if_neg hb] at h
        simp at h
  | _ => exact hval _ h

namespace Expr

def EvenMods (e : Expr) : Prop :=
  ∀ l r a b, e.Evaluates (binary .mod l r) → l.denote = some a → r.denote = some b →
    a.tmod b = 0

variable {table : SymbolTable}

theorem EvenMods.of_evaluates {e e' : Expr} (h : e.EvenMods) (he : e.Evaluates e') :
    e'.EvenMods := fun l r a b hm => h l r a b (he.trans hm)

/-- With even `%` only, the evaluator gives the meaning. -/
theorem evalCallback_of_evenMods {e : Expr} (hplain : e.Plain) (heven : e.EvenMods) {v : Int}
    (hv : e.denote = some v) {node : ExprNode} (htree : e.TreeOf node) :
    evalCallback table node = .ok v := by
  induction e generalizing v node with
  | literal w =>
      obtain ⟨k, rfl⟩ := htree
      exact congrArg Except.ok (Option.some.inj hv)
  | unary op e ih =>
      obtain ⟨k, c, rfl, hc⟩ := htree
      obtain ⟨a, ha, hop⟩ := Option.bind_eq_some_iff.mp hv
      have hrun := ih hplain.2 (heven.of_evaluates (.operand (.refl e))) ha hc
      change unaryOpEvalCallback [evalCallback table c] op.tokenType = _
      rw [hrun]
      exact unaryOp_denote hplain.1 hop
  | binary op l r ihl ihr =>
      obtain ⟨k, x, y, rfl, hx, hy⟩ := htree
      obtain ⟨a, ha, hv⟩ := Option.bind_eq_some_iff.mp hv
      obtain ⟨b, hb, hop⟩ := Option.bind_eq_some_iff.mp hv
      have hl := ihl hplain.2.1 (heven.of_evaluates (.left (.refl l))) ha hx
      have hr := ihr hplain.2.2 (heven.of_evaluates (.right (.refl r))) hb hy
      change binOpEvalCallback [evalCallback table x, evalCallback table y] op.tokenType = _
      rw [hl, hr]
      by_cases hmod : op = .mod
      · subst hmod
        have hzero := heven l r a b (.refl _) ha hb
        by_cases hb0 : b = 0
        · simp [BinaryOp.denote, hb0] at hop
        · rw [BinaryOp.denote, if_neg hb0, hzero] at hop
          exact congrArg Except.ok (Option.some.inj hop)
      · exact binOp_denote hplain.1 hmod hop
  | ifElse c t e ihc iht ihe =>
      obtain ⟨k, x, y, z, rfl, hx, hy, hz⟩ := htree
      obtain ⟨w, hw, hv⟩ := Option.bind_eq_some_iff.mp hv
      have hc := ihc hplain.1 (heven.of_evaluates (.cond (.refl c))) hw hx
      change ifElseNodeEvalCallback
        [evalCallback table x, evalCallback table y, evalCallback table z] = _
      rw [hc]
      by_cases hne : w ≠ 0
      · rw [if_pos hne] at hv
        change (if w ≠ 0 then evalCallback table y else evalCallback table z) = _
        rw [if_pos hne]
        exact iht hplain.2.1 (heven.of_evaluates (.then_ hw hne (.refl t))) hv hy
      · rw [if_neg hne] at hv
        change (if w ≠ 0 then evalCallback table y else evalCallback table z) = _
        rw [if_neg hne]
        exact ihe hplain.2.2 (heven.of_evaluates (.els (hw.trans (by rw [not_not.mp hne]))
          (.refl e))) hv hz

/-- The evaluator gives every expression on the evaluated path its meaning exactly when every `%`
there divides evenly: the value of `%` is zero. -/
theorem evalCallback_denote_iff (table : SymbolTable) {e : Expr} (hplain : e.Plain)
    (hval : e.denote.isSome = true) :
    (∀ e', e.Evaluates e' → ∀ node, e'.TreeOf node → ∀ v, e'.denote = some v →
      evalCallback table node = .ok v) ↔ e.EvenMods := by
  constructor
  · intro h l r a b hm ha hb
    obtain ⟨node, htree⟩ := (binary .mod l r).exists_treeOf
    obtain ⟨k, x, y, rfl, hx, hy⟩ := htree
    obtain ⟨v, hv⟩ := Option.isSome_iff_exists.mp (hm.isSome hval)
    have hrun := h _ hm _ ⟨k, x, y, rfl, hx, hy⟩ v hv
    have hl := h l (hm.trans (.left (.refl l))) x hx a ha
    have hr := h r (hm.trans (.right (.refl r))) y hy b hb
    change binOpEvalCallback [evalCallback table x, evalCallback table y] .mod = _ at hrun
    rw [hl, hr] at hrun
    have hzero : v = 0 := (Except.ok.inj hrun).symm
    simp only [denote, ha, hb, BinaryOp.denote, Option.bind_eq_bind, Option.bind_some] at hv
    split at hv
    · simp at hv
    · rw [Option.some.inj hv, hzero]
  · intro heven e' he node htree v hv
    exact evalCallback_of_evenMods (he.plain hplain) (heven.of_evaluates he) hv htree

theorem evalCallback_denote_quotient :
    (∀ e', (binary .sub (literal 7) (binary .mod (literal 6) (literal 3))).Evaluates e' →
      ∀ node, e'.TreeOf node → ∀ v, e'.denote = some v →
        evalCallback (fun _ => none) node = .ok v) ↔
      (binary .sub (literal 7) (binary .mod (literal 6) (literal 3))).EvenMods :=
  evalCallback_denote_iff _ ⟨by decide, trivial, by decide, trivial, trivial⟩ (by decide)

/-- `5 % 3` evaluates to `0`. -/
theorem evalCallback_mod_zero : ¬ ∀ (table : SymbolTable) (e : Expr), e.Plain → ∀ v,
    e.denote = some v → ∀ node, e.TreeOf node → evalCallback table node = .ok v := by
  intro h
  have hrun := h (fun _ => none) (binary .mod (literal 5) (literal 3))
    ⟨by decide, trivial, trivial⟩ 2 (by decide)
    (.mk 2 .binOp .mod 0 none [.mk 0 .val .literal 5 none [], .mk 1 .val .literal 3 none []])
    ⟨2, _, _, rfl, ⟨0, rfl⟩, ⟨1, rfl⟩⟩
  revert hrun
  decide

end Expr

/-- One turn of the `while` loop of `POW`, on `right` and `res`. -/
def PowTurn (left : Int) (s s' : Int × Int) : Prop := 0 < s.1 ∧ s' = (s.1 - 1, s.2 * left)

/-- One turn of the `while` loop of `FACT`, on `val` and `res`. -/
def FactTurn (s s' : Int × Int) : Prop := s.1 ≠ 1 ∧ s' = (s.1 - 1, s.2 * s.1)

theorem powLoop_eq (left : Int) (n : Nat) (res : Int) : powLoop left n res = res * left ^ n := by
  induction n generalizing res with
  | zero => rw [powLoop, pow_zero, mul_one]
  | succ n ih => rw [powLoop, ih, mul_assoc, ← pow_succ']

theorem factLoop_eq (n : Nat) (res : Int) : factLoop n res = res * n.factorial := by
  fun_induction factLoop n res with
  | case1 res => rw [Nat.factorial_zero, Nat.cast_one, mul_one]
  | case2 res => rw [Nat.factorial_one, Nat.cast_one, mul_one]
  | case3 res val ih => rw [ih, mul_assoc, ← Nat.cast_mul, ← Nat.factorial_succ]

theorem powTurn_inevitable (left : Int) {n : Int} (hn : 0 ≤ n) :
    Runs.Inevitable (PowTurn left) (fun s => ¬ 0 < s.1 ∧ s.2 = powLoop left n.toNat 1) (n, 1) := by
  refine Runs.inevitable_of_measure
    (I := fun s => 0 ≤ s.1 ∧ powLoop left s.1.toNat s.2 = powLoop left n.toNat 1)
    (fun s => s.1.toNat) ?_ ?_ ⟨hn, rfl⟩
  · rintro ⟨right, res⟩ s' ⟨hle, hloop⟩ ⟨hpos, rfl⟩
    obtain ⟨r, rfl⟩ := Int.eq_ofNat_of_zero_le hle
    simp only at hpos hloop ⊢
    obtain ⟨r', rfl⟩ := Nat.exists_eq_add_of_lt (Int.natCast_pos.mp hpos)
    simp only [Nat.zero_add, Int.toNat_natCast, Int.natCast_succ, Int.add_sub_cancel]
      at hloop ⊢
    exact ⟨⟨by omega, hloop⟩, by omega⟩
  · rintro ⟨right, res⟩ ⟨hle, hloop⟩
    by_cases hpos : 0 < right
    · exact Or.inr ⟨_, hpos, rfl⟩
    · obtain rfl : right = 0 := by
        simp only at hle
        omega
      exact Or.inl ⟨hpos, hloop⟩

theorem factTurn_inevitable {n : Int} (hn : 0 < n) :
    Runs.Inevitable FactTurn (fun s => s.1 = 1 ∧ s.2 = factLoop n.toNat 1) (n, 1) := by
  refine Runs.inevitable_of_measure
    (I := fun s => 0 < s.1 ∧ factLoop s.1.toNat s.2 = factLoop n.toNat 1)
    (fun s => s.1.toNat) ?_ ?_ ⟨hn, rfl⟩
  · rintro ⟨val, res⟩ s' ⟨hpos, hloop⟩ ⟨hne, rfl⟩
    simp only at hpos hne hloop ⊢
    obtain ⟨v, rfl⟩ : ∃ v : Nat, val = (v + 2 : Nat) := ⟨(val - 2).toNat, by omega⟩
    rw [Int.toNat_natCast, factLoop] at hloop
    rw [show ((v + 2 : Nat) : Int) - 1 = (v + 1 : Nat) by omega, Int.toNat_natCast]
    exact ⟨⟨by omega, hloop⟩, by omega⟩
  · rintro ⟨val, res⟩ ⟨hpos, hloop⟩
    by_cases hone : val = 1
    · subst hone
      exact Or.inl ⟨rfl, hloop⟩
    · exact Or.inr ⟨_, hone, rfl⟩

/-- A `!` node over a nonnegative integer gives its factorial, and a `**` node gives the power
exactly when the exponent is not zero; the loops come to their ends. -/
theorem evalCallback_pow_fact {table : SymbolTable} {x y : ExprNode} {a n : Int} (hn : 0 ≤ n)
    (hx : evalCallback table x = .ok a) (hy : evalCallback table y = .ok n) (k : Nat) (val : Int)
    (symbol : Option SymbolName) :
    (evalCallback table (.mk k .binOp .pow val symbol [x, y]) = .ok (a ^ n.toNat) ↔ n ≠ 0) ∧
    evalCallback table (.mk k .unaryOp .fact val symbol [y]) = .ok (n.toNat.factorial : Int) ∧
    Runs.Inevitable (PowTurn a) (fun s => ¬ 0 < s.1 ∧ s.2 = a ^ n.toNat) (n, 1) ∧
    (n ≠ 0 →
      Runs.Inevitable FactTurn (fun s => s.1 = 1 ∧ s.2 = (n.toNat.factorial : Int)) (n, 1)) := by
  have hpow : powLoop a n.toNat 1 = a ^ n.toNat := by rw [powLoop_eq, one_mul]
  have hfact : factLoop n.toNat 1 = n.toNat.factorial := by rw [factLoop_eq, one_mul]
  have hloop := powTurn_inevitable a hn
  rw [hpow] at hloop
  have hbin : evalCallback table (.mk k .binOp .pow val symbol [x, y]) =
      if n = 0 then .ok 0 else .ok (a ^ n.toNat) := by
    change binOpEvalCallback [evalCallback table x, evalCallback table y] .pow = _
    rw [hx, hy, ← hpow]
    rfl
  have hun : evalCallback table (.mk k .unaryOp .fact val symbol [y]) =
      if n = 0 then .ok 1 else if n < 0 then .ok 0 else .ok (n.toNat.factorial : Int) := by
    change unaryOpEvalCallback [evalCallback table y] .fact = _
    rw [hy, ← hfact]
    rfl
  refine ⟨?_, ?_, hloop, fun hne => ?_⟩
  · rw [hbin]
    by_cases h0 : n = 0
    · subst h0
      simp
    · rw [if_neg h0]
      exact iff_of_true rfl h0
  · rw [hun, if_neg (show ¬ n < 0 by omega)]
    by_cases h0 : n = 0
    · subst h0
      rfl
    · rw [if_neg h0]
  · rw [← hfact]
    exact factTurn_inevitable (by omega)

theorem evalCallback_pow_three :
    evalCallback (fun _ => none)
      (.mk 2 .binOp .pow 0 none [.mk 0 .val .literal (-2) none [], .mk 1 .val .literal 3 none []]) =
        .ok ((-2) ^ (3 : Int).toNat) :=
  ((evalCallback_pow_fact (a := -2) (n := 3) (by decide) rfl rfl 2 0 none).1).mpr (by decide)

/-- `2 ** 0` evaluates to `0`. -/
theorem evalCallback_pow_zero :
    evalCallback (fun _ => none) (.mk 2 .binOp .pow 0 none
        [.mk 0 .val .literal 2 none [], .mk 1 .val .literal 0 none []]) = .ok 0 ∧
      evalCallback (fun _ => none) (.mk 2 .binOp .pow 0 none
        [.mk 0 .val .literal 2 none [], .mk 1 .val .literal 0 none []]) ≠
          .ok (2 ^ (0 : Int).toNat) := by
  decide

end PGBigNumber.Infix
