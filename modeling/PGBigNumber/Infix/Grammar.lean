import PGBigNumber.Infix.Parser

/-!
# Printing and parsing

Expressions are printed with the brackets that the levels of the parse functions ask for, and
parsed back. The levels are numbered from the conditional (`0`) to the primaries (`12`).
-/

namespace PGBigNumber.Infix

open Outcome

def BinaryOp.level : BinaryOp → Nat
  | .or => 1
  | .xor => 2
  | .and => 3
  | .equ | .nequ => 4
  | .lt | .le | .gt | .ge => 5
  | .shiftLeft | .shiftRight => 6
  | .add | .sub => 7
  | .mul | .div | .mod => 8
  | .pow => 9

def UnaryOp.level : UnaryOp → Nat
  | .plus | .minus | .not => 10
  | .fact => 11

theorem BinaryOp.level_le (op : BinaryOp) : op.level ≤ 9 := by
  cases op <;> decide

theorem UnaryOp.level_le (op : UnaryOp) : op.level ≤ 11 := by
  cases op <;> decide

def mark (t : TokenType) : Token := ⟨t, none, 0⟩

def bracket (b : Prop) [Decidable b] (w : List Token) : List Token :=
  if b then mark .leftBracket :: w ++ [mark .rightBracket] else w

namespace Expr

def level : Expr → Nat
  | literal _ => 12
  | unary op _ => op.level
  | binary op _ _ => op.level
  | ifElse _ _ _ => 0

/-- The tokens of an expression that needs no brackets where it stands. -/
def body : Expr → List Token
  | literal v => [⟨.literal, none, v⟩]
  | unary .fact e => bracket (e.level < 11) (body e) ++ [mark .fact]
  | unary op e => mark op.tokenType :: bracket (e.level < 10) (body e)
  | binary op l r => bracket (l.level < op.level) (body l) ++
      mark op.tokenType :: bracket (r.level < op.level + 1) (body r)
  | ifElse c t e => bracket (c.level < 1) (body c) ++ mark .qmark :: body t ++
      mark .colon :: body e

/-- The tokens of `e` as an operand that has to be of `level` at least. -/
def render (level : Nat) (e : Expr) : List Token := bracket (e.level < level) (body e)

/-- No node is one of those the parser has no node for, and no equality is the unbracketed left
operand of another one. -/
def Restorable : Expr → Prop
  | literal _ => True
  | unary _ e => Restorable e
  | binary op l r => op ∉ [.le, .gt, .ge] ∧ (op.level = 4 → l.level ≠ 4) ∧ Restorable l ∧
      Restorable r
  | ifElse c t e => Restorable c ∧ Restorable t ∧ Restorable e

end Expr

/-- The level that takes a token as an operator behind an operand. -/
def TokenType.follows : TokenType → Option Nat
  | .fact => some 11
  | .pow => some 9
  | .mul | .div | .mod => some 8
  | .add | .sub => some 7
  | .shiftLeft | .shiftRight => some 6
  | .lt | .le | .gt | .ge => some 5
  | .equ | .nequ => some 4
  | .and => some 3
  | .xor => some 2
  | .or => some 1
  | .qmark => some 0
  | _ => none

def Stops (level : Nat) (t : TokenType) : Prop := ∀ k ∈ t.follows, k < level

def opsAt : Nat → List (TokenType × TokenType)
  | 1 => [(.or, .or)]
  | 2 => [(.xor, .xor)]
  | 3 => [(.and, .and)]
  | 4 => [(.equ, .equ), (.nequ, .nequ)]
  | 5 => [(.lt, .lt), (.le, .lt), (.gt, .lt), (.ge, .lt)]
  | 6 => [(.shiftLeft, .shiftLeft), (.shiftRight, .shiftRight)]
  | 7 => [(.add, .add), (.sub, .sub)]
  | 8 => [(.mul, .mul), (.div, .div), (.mod, .mod)]
  | 9 => [(.pow, .pow)]
  | _ => []

def IsChain (level : Nat) : Prop := level ∈ [1, 2, 3, 5, 6, 7, 8, 9]

instance (level : Nat) : Decidable (IsChain level) :=
  inferInstanceAs (Decidable (level ∈ [1, 2, 3, 5, 6, 7, 8, 9]))

/-- The parse function of a level; `k` is the bound on the recursion of `parseUnaryOp`. -/
def parseAt (tokens : List Token) (n k : Nat) : Nat → Parse ExprNode
  | 0 => parseConditional tokens (parseExpr tokens n) n
  | 1 => parseBitOr tokens (parseExpr tokens n) n
  | 2 => parseBitXor tokens (parseExpr tokens n) n
  | 3 => parseBitAnd tokens (parseExpr tokens n) n
  | 4 => parseEqu tokens (parseExpr tokens n) n
  | 5 => parseCmp tokens (parseExpr tokens n) n
  | 6 => parseShift tokens (parseExpr tokens n) n
  | 7 => parseAddSub tokens (parseExpr tokens n) n
  | 8 => parseMulDivMod tokens (parseExpr tokens n) n
  | 9 => parsePow tokens (parseExpr tokens n) n
  | 10 => parseUnaryOp tokens (parseExpr tokens n) n k
  | 11 => parsePostfixOp tokens (parseExpr tokens n) n
  | _ => parsePrim tokens (parseExpr tokens n) n

theorem parseAt_chain (tokens : List Token) (n k : Nat) {level : Nat} (h : IsChain level) :
    parseAt tokens n k level =
      binOpChain tokens (opsAt level) (parseAt tokens n n (level + 1)) n := by
  simp only [IsChain, List.mem_cons, List.not_mem_nil, or_false] at h
  rcases h with rfl | rfl | rfl | rfl | rfl | rfl | rfl | rfl <;> rfl

theorem opsAt_ne_nil {level : Nat} (h : IsChain level) : opsAt level ≠ [] := by
  simp only [IsChain, List.mem_cons, List.not_mem_nil, or_false] at h
  rcases h with rfl | rfl | rfl | rfl | rfl | rfl | rfl | rfl <;> decide

theorem follows_of_mem_opsAt {level : Nat} {t op : TokenType} (h : (t, op) ∈ opsAt level) :
    t.follows = some level := by
  unfold opsAt at h
  split at h <;> simp only [List.mem_cons, Prod.mk.injEq, List.not_mem_nil, or_false] at h
  all_goals first
    | exact h.elim
    | (rcases h with ⟨rfl, -⟩ | ⟨rfl, -⟩ | ⟨rfl, -⟩ | ⟨rfl, -⟩ <;> rfl)

theorem Stops.not_mem_opsAt {level : Nat} {t : TokenType} (h : Stops level t) (op : TokenType) :
    (t, op) ∉ opsAt level := fun hmem =>
  Nat.lt_irrefl level (h level (follows_of_mem_opsAt hmem))

theorem Stops.mono {k level : Nat} {t : TokenType} (h : Stops k t) (hle : k ≤ level) :
    Stops level t := fun i hi => Nat.lt_of_lt_of_le (h i hi) hle

theorem BinaryOp.mem_opsAt {op : BinaryOp} (h : op ∉ [.le, .gt, .ge]) :
    (op.tokenType, op.tokenType) ∈ opsAt op.level := by
  cases op <;> simp_all [BinaryOp.tokenType, BinaryOp.level, opsAt]

theorem BinaryOp.eq_of_mem_opsAt {op : BinaryOp} (h : op ∉ [.le, .gt, .ge]) {t : TokenType}
    (hmem : (op.tokenType, t) ∈ opsAt op.level) : t = op.tokenType := by
  cases op <;> simp_all [BinaryOp.tokenType, BinaryOp.level, opsAt]

theorem BinaryOp.follows (op : BinaryOp) : op.tokenType.follows = some op.level := by
  cases op <;> rfl

theorem BinaryOp.level_of_mem_opsAt {op : BinaryOp} {level : Nat} {t : TokenType}
    (hmem : (t, op.tokenType) ∈ opsAt level) : op.level = level ∧ op ∉ [.le, .gt, .ge] := by
  unfold opsAt at hmem
  split at hmem <;> cases op <;> simp_all [BinaryOp.tokenType, BinaryOp.level]

section

variable {tokens : List Token} {st : ParserState} {n level : Nat} {w : List Token} {e : Expr}

/-- The parser has read no error, and `w` is ahead of it. -/
structure Facing (tokens : List Token) (n : Nat) (st : ParserState) (w : List Token) : Prop where
  drop : tokens.drop st.currTokenIndex = w
  enough : tokens.length + 2 ≤ n + st.currTokenIndex
  success : st.errCode = .success

/-- The state in which the tokens `w` have been read since `st` and `node` is the tree of `e`. -/
structure Built (e : Expr) (w : List Token) (st : ParserState) (node : ExprNode)
    (st' : ParserState) : Prop where
  tree : e.TreeOf node
  index : st'.currTokenIndex = st.currTokenIndex + w.length
  success : st'.errCode = .success

/-- The level reads `w` as `e`, up to a token that none of its operators is. -/
def Parses (tokens : List Token) (level : Nat) (w : List Token) (e : Expr) : Prop :=
  ∀ n k st t rest, Facing tokens n st (w ++ t :: rest) →
    tokens.length + 2 ≤ k + st.currTokenIndex → Stops level t.type →
      Ensures (parseAt tokens n k level) st (Built e w st) fun _ => False

theorem Facing.ahead {t : Token} (h : Facing tokens n st (t :: w)) :
    Infix.ahead tokens st = t.type :: w.map Token.type := by
  unfold Infix.ahead
  rw [h.drop, List.map_cons]

theorem Facing.advance {t : Token} (h : Facing tokens n st (t :: w)) :
    Facing tokens n st.advance w := by
  refine ⟨?_, ?_, h.success⟩
  · change tokens.drop (st.currTokenIndex + 1) = w
    rw [← List.tail_drop, h.drop, List.tail_cons]
  · have := h.enough
    change tokens.length + 2 ≤ n + (st.currTokenIndex + 1)
    omega

theorem Facing.less {t : Token} (h : Facing tokens n st (t :: w)) :
    Facing tokens (n - 1) st.advance w := by
  refine ⟨h.advance.drop, ?_, h.success⟩
  have := h.enough
  change tokens.length + 2 ≤ n - 1 + (st.currTokenIndex + 1)
  omega

theorem Facing.index_lt {t : Token} (h : Facing tokens n st (t :: w)) :
    st.currTokenIndex < tokens.length := lt_of_ahead h.ahead

theorem Facing.behind {w rest : List Token} {node : ExprNode} {st' : ParserState}
    (h : Facing tokens n st (w ++ rest)) (hb : Built e w st node st') :
    Facing tokens n st' rest := by
  refine ⟨?_, ?_, hb.success⟩
  · rw [hb.index, ← List.drop_drop, h.drop, List.drop_left]
  · have := h.enough
    have := hb.index
    omega

theorem Facing.consume {t : Token} {type : TokenType} {Q : Bool → ParserState → Prop}
    {E : ParserStop → Prop} (h : Facing tokens n st (t :: w)) :
    Ensures (consumeToken tokens type) st Q E ↔
      if t.type = type then Q true st.advance else Q false st := by
  rw [ensures_consumeToken, h.ahead]
  simp

theorem Facing.consumeOneOf_of_mem {t : Token} {ops : List (TokenType × TokenType)}
    {Q : Option TokenType → ParserState → Prop} {E : ParserStop → Prop}
    (h : Facing tokens n st (t :: w)) (op : TokenType) (hmem : (t.type, op) ∈ ops)
    (huniq : ∀ op', (t.type, op') ∈ ops → op' = op) (hQ : Q (some op) st.advance) :
    Ensures (consumeOneOf tokens ops) st Q E := by
  refine ensures_consumeOneOf (fun hnil => by simp [h.ahead] at hnil)
    (fun t' ts' op' hahead hmem' => ?_) (fun t' ts' hahead hnot => ?_)
    (List.ne_nil_of_mem hmem)
  · obtain ⟨rfl, rfl⟩ := List.cons.inj (h.ahead.symm.trans hahead)
    rw [huniq op' hmem']
    exact hQ
  · obtain ⟨rfl, rfl⟩ := List.cons.inj (h.ahead.symm.trans hahead)
    exact absurd hmem (hnot op)

theorem Facing.consumeOneOf_of_not_mem {t : Token} {ops : List (TokenType × TokenType)}
    {Q : Option TokenType → ParserState → Prop} {E : ParserStop → Prop}
    (h : Facing tokens n st (t :: w)) (hne : ops ≠ []) (hnot : ∀ op, (t.type, op) ∉ ops)
    (hQ : Q none st) : Ensures (consumeOneOf tokens ops) st Q E := by
  refine ensures_consumeOneOf (fun hnil => by simp [h.ahead] at hnil)
    (fun t' ts' op' hahead hmem' => ?_) (fun t' ts' hahead hnot => hQ) hne
  obtain ⟨rfl, rfl⟩ := List.cons.inj (h.ahead.symm.trans hahead)
  exact absurd hmem' (hnot op')

theorem parses_literal (v : Int) :
    Parses tokens 12 [⟨.literal, none, v⟩] (.literal v) := by
  intro n k st t rest h _ _
  have h : Facing tokens n st (⟨.literal, none, v⟩ :: t :: rest) := h
  have hget : tokens[st.currTokenIndex]? = some ⟨.literal, none, v⟩ := by
    rw [← List.head?_drop, h.drop, List.head?_cons]
  change Ensures (parsePrim tokens (parseExpr tokens n) n) st _ _
  unfold parsePrim
  rw [ensures_bind, h.consume, if_neg (by simp)]
  simp only [Bool.false_eq_true, if_false]
  rw [ensures_bind, h.consume, if_pos rfl]
  simp only [if_true, ensures_bind]
  apply ensures_previousToken hget
  rw [ensures_allocate]
  exact ⟨⟨_, rfl⟩, rfl, h.success⟩

theorem parses_bracketed (he : Parses tokens 0 w e) :
    Parses tokens 12 (mark .leftBracket :: w ++ [mark .rightBracket]) e := by
  intro n k st t rest h _ _
  have h : Facing tokens n st (mark .leftBracket :: (w ++ mark .rightBracket :: t :: rest)) := by
    simpa using h
  have hlt := h.index_lt
  have hen := h.enough
  obtain ⟨n, rfl⟩ : ∃ m, n = m + 1 := ⟨n - 1, by omega⟩
  change Ensures (parsePrim tokens (parseExpr tokens (n + 1)) (n + 1)) st _ _
  unfold parsePrim
  rw [ensures_bind, h.consume, if_pos rfl]
  simp only [ensures_bind]
  refine Ensures.mono (he n n st.advance _ _ h.less h.less.enough fun k hk => by
    simp [mark, TokenType.follows] at hk) ?_ fun _ he => he
  intro node st₁ hb
  have h₁ := h.advance.behind hb
  rw [h₁.consume, if_pos (by rfl)]
  refine ⟨hb.tree, ?_, hb.success⟩
  change st₁.currTokenIndex + 1 = _
  rw [hb.index]
  change st.currTokenIndex + 1 + w.length + 1 = _
  simp
  omega

theorem parses_sign {op : UnaryOp} (hop : op ≠ .fact) (he : Parses tokens 10 w e) :
    Parses tokens 10 (mark op.tokenType :: w) (.unary op e) := by
  intro n k st t rest h hk hstop
  have h : Facing tokens n st (mark op.tokenType :: (w ++ t :: rest)) := h
  have hlt := h.index_lt
  obtain ⟨k, rfl⟩ : ∃ m, k = m + 1 := ⟨k - 1, by omega⟩
  change Ensures (parseUnaryOp tokens (parseExpr tokens n) n (k + 1)) st _ _
  unfold parseUnaryOp
  rw [ensures_bind]
  refine h.consumeOneOf_of_mem op.tokenType ?_ ?_ ?_
  · cases op <;> simp_all [mark, UnaryOp.tokenType]
  · intro op' hmem
    cases op <;> simp_all [mark, UnaryOp.tokenType]
  · simp only [ensures_bind]
    refine Ensures.mono (he n k st.advance t rest h.advance ?_ hstop) ?_ fun _ he => he
    · change _ ≤ k + (st.currTokenIndex + 1)
      omega
    · intro node st' hb
      rw [ensures_allocate]
      refine ⟨⟨_, _, rfl, hb.tree⟩, ?_, hb.success⟩
      have hidx := hb.index
      change _ = st.currTokenIndex + 1 + w.length at hidx
      rw [List.length_cons]
      dsimp only
      omega

def loopAt (tokens : List Token) (n k level : Nat) (node : ExprNode) : Parse ExprNode :=
  if level = 11 then postfixLoop tokens k node
  else binOpLoop tokens (opsAt level) (parseAt tokens n n (level + 1)) k node

def Loops (tokens : List Token) (level : Nat) (w : List Token) (e : Expr) : Prop :=
  ∀ n k st t rest Q, Facing tokens n st (w ++ t :: rest) → Stops (level + 1) t.type →
    (∀ node st' m, Built e w st node st' → tokens.length + 2 ≤ m + st'.currTokenIndex →
      Ensures (loopAt tokens n m level node) st' Q fun _ => False) →
    Ensures (parseAt tokens n k level) st Q fun _ => False

theorem loops_of_parses (hlevel : IsChain level ∨ level = 11)
    (he : Parses tokens (level + 1) w e) : Loops tokens level w e := by
  intro n k st t rest Q h hstop hloop
  rcases hlevel with hchain | rfl
  · rw [parseAt_chain tokens n k hchain]
    unfold binOpChain
    rw [ensures_bind]
    refine (he n n st t rest h h.enough hstop).mono ?_ fun _ he => he
    intro node st' hb
    have hl := hloop node st' n hb (h.behind hb).enough
    have h11 : level ≠ 11 := by
      rintro rfl
      simp [IsChain] at hchain
    unfold loopAt at hl
    rwa [if_neg h11] at hl
  · change Ensures (parsePostfixOp tokens (parseExpr tokens n) n) st _ _
    unfold parsePostfixOp
    rw [ensures_bind]
    refine (he n n st t rest h h.enough hstop).mono ?_ fun _ he => he
    intro node st' hb
    exact hloop node st' n hb (h.behind hb).enough

theorem parses_of_loops (hlevel : IsChain level ∨ level = 11) (he : Loops tokens level w e) :
    Parses tokens level w e := by
  intro n k st t rest h _ hstop
  refine he n k st t rest _ h (hstop.mono (Nat.le_succ _)) fun node st' m hb hm => ?_
  have h' := h.behind hb
  have hlt := h'.index_lt
  obtain ⟨m, rfl⟩ : ∃ i, m = i + 1 := ⟨m - 1, by omega⟩
  unfold loopAt
  split
  · next heq =>
    subst heq
    unfold postfixLoop
    rw [ensures_bind]
    refine h'.consumeOneOf_of_not_mem (by simp) (fun op hmem => ?_) hb
    simp only [List.mem_singleton, Prod.mk.injEq] at hmem
    have := hstop 11 (by rw [hmem.1]; rfl)
    omega
  · next hne =>
    have hchain := hlevel.resolve_right hne
    unfold binOpLoop
    rw [ensures_bind]
    exact h'.consumeOneOf_of_not_mem (opsAt_ne_nil hchain) hstop.not_mem_opsAt hb

theorem loops_fact (he : Loops tokens 11 w e) :
    Loops tokens 11 (w ++ [mark .fact]) (.unary .fact e) := by
  intro n k st t rest Q h hstop hloop
  have h : Facing tokens n st (w ++ mark .fact :: t :: rest) := by simpa using h
  refine he n k st _ _ Q h (fun i hi => ?_) fun node st' m hb hm => ?_
  · obtain rfl : (11 : Nat) = i := Option.some.inj hi
    omega
  have h' := h.behind hb
  have hlt := h'.index_lt
  obtain ⟨m, rfl⟩ : ∃ i, m = i + 1 := ⟨m - 1, by omega⟩
  unfold loopAt
  rw [if_pos rfl]
  unfold postfixLoop
  rw [ensures_bind]
  apply h'.consumeOneOf_of_mem .fact (by simp [mark]) (by simp [mark])
  simp only [ensures_bind, ensures_allocate]
  refine hloop _ _ m ⟨⟨_, _, rfl, hb.tree⟩, ?_, hb.success⟩ ?_
  · change st'.currTokenIndex + 1 = _
    rw [hb.index, List.length_append]
    rfl
  · change _ ≤ m + (st'.currTokenIndex + 1)
    omega

theorem loops_binary {op : BinaryOp} (hop : op ∉ [.le, .gt, .ge]) (hchain : IsChain op.level)
    {wl wr : List Token} {l r : Expr} (hl : Loops tokens op.level wl l)
    (hr : Parses tokens (op.level + 1) wr r) :
    Loops tokens op.level (wl ++ mark op.tokenType :: wr) (.binary op l r) := by
  intro n k st t rest Q h hstop hloop
  have h : Facing tokens n st (wl ++ mark op.tokenType :: (wr ++ t :: rest)) := by simpa using h
  refine hl n k st _ _ Q h (fun i hi => ?_) fun node st' m hb hm => ?_
  · obtain rfl : op.level = i := Option.some.inj (op.follows.symm.trans hi)
    omega
  have h' := h.behind hb
  have hlt := h'.index_lt
  obtain ⟨m, rfl⟩ : ∃ i, m = i + 1 := ⟨m - 1, by omega⟩
  have h11 : op.level ≠ 11 := by cases op <;> decide
  unfold loopAt at *
  rw [if_neg h11] at *
  unfold binOpLoop
  rw [ensures_bind]
  refine h'.consumeOneOf_of_mem _ (BinaryOp.mem_opsAt hop)
    (fun op' hmem => BinaryOp.eq_of_mem_opsAt hop hmem) ?_
  simp only [ensures_bind]
  refine (hr n n st'.advance t rest h'.advance h'.advance.enough hstop).mono ?_ fun _ he => he
  intro right st₂ hb₂
  rw [ensures_allocate]
  have hidx := hb.index
  have hidx₂ := hb₂.index
  have hadv : st'.advance.currTokenIndex = st'.currTokenIndex + 1 := rfl
  have hl' := hloop (st₂.pool.newBinOpNode op.tokenType node right).1
    { st₂ with pool := (st₂.pool.newBinOpNode op.tokenType node right).2 } m
    ⟨⟨_, _, _, rfl, hb.tree, hb₂.tree⟩, ?_, hb₂.success⟩ ?_
  · rwa [if_neg h11] at hl'
  · simp only [List.length_append, List.length_cons]
    omega
  · dsimp only
    omega

theorem parses_equality {op : BinaryOp} (hop : op.level = 4) {wl wr : List Token} {l r : Expr}
    (hl : Parses tokens 5 wl l) (hr : Parses tokens 5 wr r) :
    Parses tokens 4 (wl ++ mark op.tokenType :: wr) (.binary op l r) := by
  intro n k st t rest h hk hstop
  have h : Facing tokens n st (wl ++ mark op.tokenType :: (wr ++ t :: rest)) := by simpa using h
  have hnot : op ∉ [.le, .gt, .ge] := by cases op <;> simp_all [BinaryOp.level]
  change Ensures (parseEqu tokens (parseExpr tokens n) n) st _ _
  unfold parseEqu
  rw [ensures_bind]
  refine (hl n k st _ _ h hk fun i hi => ?_).mono ?_ fun _ he => he
  · obtain rfl : op.level = i := Option.some.inj (op.follows.symm.trans hi)
    omega
  intro node st₁ hb
  have h₁ := h.behind hb
  rw [ensures_bind]
  have hmem := BinaryOp.mem_opsAt hnot
  rw [hop] at hmem
  apply h₁.consumeOneOf_of_mem _ hmem (fun op' h => BinaryOp.eq_of_mem_opsAt hnot (by rwa [hop]))
  simp only [ensures_bind]
  refine (hr n n st₁.advance t rest h₁.advance h₁.advance.enough
    (hstop.mono (Nat.le_succ _))).mono ?_ fun _ he => he
  intro right st₂ hb₂
  rw [ensures_allocate]
  refine ⟨⟨_, _, _, rfl, hb.tree, hb₂.tree⟩, ?_, hb₂.success⟩
  have hidx := hb.index
  have hidx₂ := hb₂.index
  have hadv : st₁.advance.currTokenIndex = st₁.currTokenIndex + 1 := rfl
  rw [List.length_append, List.length_cons]
  dsimp only
  omega

theorem parses_ifElse {wc wt we : List Token} {c t e : Expr} (hc : Parses tokens 1 wc c)
    (ht : Parses tokens 0 wt t) (he : Parses tokens 0 we e) :
    Parses tokens 0 (wc ++ mark .qmark :: wt ++ mark .colon :: we) (.ifElse c t e) := by
  intro n k st tok rest h hk hstop
  have h : Facing tokens n st
      (wc ++ mark .qmark :: (wt ++ mark .colon :: (we ++ tok :: rest))) := by simpa using h
  change Ensures (parseConditional tokens (parseExpr tokens n) n) st _ _
  unfold parseConditional
  rw [ensures_bind]
  refine (hc n k st _ _ h hk fun i hi => ?_).mono ?_ fun _ he => he
  · obtain rfl : (0 : Nat) = i := Option.some.inj hi
    omega
  intro cond st₁ hb₁
  have h₁ := h.behind hb₁
  rw [ensures_bind, ensures_get, if_neg (not_not.mpr hb₁.success), ensures_bind, h₁.consume,
    if_pos (by rfl)]
  simp only [Bool.not_true, Bool.false_eq_true, if_false, ensures_bind]
  have hlt₁ := h₁.index_lt
  have hen₁ := h₁.enough
  obtain ⟨n, rfl⟩ : ∃ i, n = i + 1 := ⟨n - 1, by omega⟩
  refine Ensures.mono (ht n n st₁.advance _ _ h₁.less h₁.less.enough fun i hi => by
    simp [mark, TokenType.follows] at hi) ?_ fun _ he => he
  intro then_ st₂ hb₂
  have h₂ := h₁.advance.behind hb₂
  rw [ensures_get, if_neg (not_not.mpr hb₂.success), ensures_bind, h₂.consume, if_pos (by rfl)]
  simp only [Bool.not_true, Bool.false_eq_true, if_false, ensures_bind]
  refine Ensures.mono (he n n st₂.advance _ _ h₂.less h₂.less.enough hstop) ?_ fun _ he => he
  intro else_ st₃ hb₃
  rw [ensures_get, if_neg (not_not.mpr hb₃.success), ensures_allocate]
  refine ⟨⟨_, _, _, _, rfl, hb₁.tree, hb₂.tree, hb₃.tree⟩, ?_, hb₃.success⟩
  have hidx₁ := hb₁.index
  have hidx₂ := hb₂.index
  have hidx₃ := hb₃.index
  have hadv₁ : st₁.advance.currTokenIndex = st₁.currTokenIndex + 1 := rfl
  have hadv₂ : st₂.advance.currTokenIndex = st₂.currTokenIndex + 1 := rfl
  simp only [List.length_append, List.length_cons]
  omega

def StartsPlain (w : List Token) : Prop :=
  ∃ t w', w = t :: w' ∧ (t.type = .literal ∨ t.type = .leftBracket)

/-- What a level reads, the level below it reads. -/
theorem parses_down (hle : level ≤ 11) (hhead : level = 10 → StartsPlain w)
    (he : Parses tokens (level + 1) w e) : Parses tokens level w e := by
  by_cases hloop : IsChain level ∨ level = 11
  · exact parses_of_loops hloop (loops_of_parses hloop he)
  have hcases : level = 0 ∨ level = 4 ∨ level = 10 := by
    simp only [IsChain, List.mem_cons, List.not_mem_nil, or_false] at hloop
    omega
  intro n k st t rest h hk hstop
  rcases hcases with rfl | rfl | rfl
  · change Ensures (parseConditional tokens (parseExpr tokens n) n) st _ _
    unfold parseConditional
    rw [ensures_bind]
    refine (he n k st t rest h hk (hstop.mono (Nat.le_succ _))).mono ?_ fun _ he => he
    intro node st₁ hb
    have h₁ := h.behind hb
    have hq : t.type ≠ .qmark := by
      intro heq
      have := hstop 0 (by rw [heq]; rfl)
      omega
    rw [ensures_bind, ensures_get, if_neg (not_not.mpr hb.success), ensures_bind, h₁.consume,
      if_neg hq]
    simpa using hb
  · change Ensures (parseEqu tokens (parseExpr tokens n) n) st _ _
    unfold parseEqu
    rw [ensures_bind]
    refine (he n k st t rest h hk (hstop.mono (Nat.le_succ _))).mono ?_ fun _ he => he
    intro node st₁ hb
    rw [ensures_bind]
    have hnot : ∀ op, (t.type, op) ∉ opsAt 4 := hstop.not_mem_opsAt
    exact (h.behind hb).consumeOneOf_of_not_mem (by simp) hnot hb
  · obtain ⟨t₀, w', rfl, ht₀⟩ := hhead rfl
    have h₀ : Facing tokens n st (t₀ :: (w' ++ t :: rest)) := h
    have hlt := h₀.index_lt
    obtain ⟨k, rfl⟩ : ∃ i, k = i + 1 := ⟨k - 1, by omega⟩
    change Ensures (parseUnaryOp tokens (parseExpr tokens n) n (k + 1)) st _ _
    unfold parseUnaryOp
    rw [ensures_bind]
    refine h₀.consumeOneOf_of_not_mem (by simp) (fun op hmem => ?_)
      (he n n st t rest h h.enough (hstop.mono (Nat.le_succ _)))
    rcases ht₀ with ht₀ | ht₀ <;> simp [ht₀] at hmem

theorem parses_le {k : Nat} (hk : k ≤ level) (hle : level ≤ 12)
    (hhead : k ≤ 10 → 10 < level → StartsPlain w) (he : Parses tokens level w e) :
    Parses tokens k w e := by
  induction level with
  | zero =>
      obtain rfl : k = 0 := by omega
      exact he
  | succ level ih =>
      by_cases heq : k = level + 1
      · exact heq ▸ he
      · apply ih (by omega) (by omega) (fun h10 hl => hhead h10 (by omega))
        exact parses_down (by omega) (fun h10 => hhead (by omega) (by omega)) he

theorem bracket_true {b : Prop} [Decidable b] (hb : b) (w : List Token) :
    bracket b w = mark .leftBracket :: w ++ [mark .rightBracket] := if_pos hb

theorem bracket_false {b : Prop} [Decidable b] (hb : ¬ b) (w : List Token) : bracket b w = w :=
  if_neg hb

theorem Expr.level_le (e : Expr) : e.level ≤ 12 := by
  cases e with
  | literal v => exact Nat.le_refl _
  | unary op e => exact Nat.le_trans op.level_le (by decide)
  | binary op l r => exact Nat.le_trans op.level_le (by decide)
  | ifElse c t e => exact Nat.zero_le _

theorem Expr.startsPlain (e : Expr) {level : Nat} (hlevel : 10 < level) :
    StartsPlain (e.render level) := by
  unfold render
  induction e generalizing level with
  | literal v =>
      by_cases h : (literal v).level < level
      · exact ⟨_, _, bracket_true h _, Or.inr rfl⟩
      · exact ⟨_, _, bracket_false h _, Or.inl rfl⟩
  | unary op e ih =>
      by_cases h : (unary op e).level < level
      · exact ⟨_, _, bracket_true h _, Or.inr rfl⟩
      · cases op with
        | fact =>
            obtain ⟨t, w', hw, ht⟩ := ih (show 10 < 11 by decide)
            refine ⟨t, w' ++ [mark .fact], ?_, ht⟩
            rw [bracket_false h, body, hw, List.cons_append]
        | _ => exact absurd hlevel (by simp only [Expr.level, UnaryOp.level] at h; omega)
  | binary op l r =>
      have hop := op.level_le
      refine ⟨_, _, bracket_true ?_ _, Or.inr rfl⟩
      simp only [Expr.level]
      omega
  | ifElse c t e =>
      refine ⟨_, _, bracket_true ?_ _, Or.inr rfl⟩
      simp only [Expr.level]
      omega

theorem parses_render_of_body {e : Expr} (he : Parses tokens e.level e.body e) (level : Nat)
    (hle : level ≤ 12) : Parses tokens level (e.render level) e := by
  by_cases h : e.level < level
  · have hzero : Parses tokens 0 e.body e := by
      refine parses_le (Nat.zero_le _) e.level_le (fun _ hlt => ?_) he
      have hs := e.startsPlain hlt
      rwa [Expr.render, bracket_false (Nat.lt_irrefl _)] at hs
    rw [Expr.render, bracket_true h]
    exact parses_le hle (Nat.le_refl _) (fun _ _ => ⟨_, _, rfl, Or.inr rfl⟩)
      (parses_bracketed hzero)
  · rw [Expr.render, bracket_false h]
    refine parses_le (by omega) e.level_le (fun _ hlt => ?_) he
    have hs := e.startsPlain hlt
    rwa [Expr.render, bracket_false (Nat.lt_irrefl _)] at hs

/-- A restorable expression is read back by its level, loop by loop where the level has one. -/
theorem parses_body {e : Expr} (h : e.Restorable) :
    Parses tokens e.level e.body e ∧
      (IsChain e.level ∨ e.level = 11 → Loops tokens e.level e.body e) := by
  induction e with
  | literal v => exact ⟨parses_literal v, fun hl => by simp [Expr.level, IsChain] at hl⟩
  | unary op e ih =>
      obtain ⟨hp, hl⟩ := ih h
      by_cases hop : op = .fact
      · subst hop
        have hloop : Loops tokens 11 (e.render 11) e := by
          by_cases heq : e.level = 11
          · rw [Expr.render, bracket_false (by omega)]
            exact heq ▸ hl (Or.inr heq)
          · have hsame : e.render 11 = e.render 12 := by
              unfold Expr.render
              have := e.level_le
              by_cases hlt : e.level < 11
              · rw [bracket_true hlt, bracket_true (by omega)]
              · rw [bracket_false hlt, bracket_false (by omega)]
            rw [hsame]
            exact loops_of_parses (Or.inr rfl) (parses_render_of_body hp 12 (Nat.le_refl _))
        have hfact := loops_fact hloop
        exact ⟨parses_of_loops (Or.inr rfl) hfact, fun _ => hfact⟩
      · have hbody : (Expr.unary op e).body = mark op.tokenType :: e.render 10 := by
          cases op <;> first | exact absurd rfl hop | rfl
        have hlevel : (Expr.unary op e).level = 10 := by
          cases op <;> first | exact absurd rfl hop | rfl
        rw [hbody, hlevel]
        exact ⟨parses_sign hop (parses_render_of_body hp 10 (by decide)),
          fun hl => by simp [IsChain] at hl⟩
  | binary op l r ihl ihr =>
      obtain ⟨hop, hequ, hl, hr⟩ := h
      obtain ⟨hpl, hll⟩ := ihl hl
      obtain ⟨hpr, -⟩ := ihr hr
      have hright := parses_render_of_body hpr (op.level + 1) (by cases op <;> decide)
      -- the left operand without the brackets of its own level
      have hsame : l.level ≠ op.level → l.render op.level = l.render (op.level + 1) := by
        intro hne
        unfold Expr.render
        by_cases hlt : l.level < op.level
        · rw [bracket_true hlt, bracket_true (by omega)]
        · rw [bracket_false hlt, bracket_false (by omega)]
      have hleft := parses_render_of_body hpl (op.level + 1) (by cases op <;> decide)
      by_cases h4 : op.level = 4
      · have hp := parses_equality h4 (by rw [h4] at hleft; exact hleft)
          (by rw [h4] at hright; exact hright)
        refine ⟨?_, fun hl => by simp [Expr.level, h4, IsChain] at hl⟩
        have hbody : (Expr.binary op l r).body =
            l.render (4 + 1) ++ mark op.tokenType :: r.render (4 + 1) := by
          rw [← h4, ← hsame (by rw [h4]; exact hequ h4)]
          rfl
        rw [hbody]
        exact h4 ▸ hp
      · have hchain : IsChain op.level := by
          cases op <;> simp_all [BinaryOp.level, IsChain]
        have hloop : Loops tokens op.level (l.render op.level) l := by
          by_cases heq : l.level = op.level
          · rw [Expr.render, bracket_false (by omega)]
            exact heq ▸ hll (Or.inl (heq ▸ hchain))
          · rw [hsame heq]
            exact loops_of_parses (Or.inl hchain) hleft
        have hbin := loops_binary hop hchain hloop hright
        exact ⟨parses_of_loops (Or.inl hchain) hbin, fun _ => hbin⟩
  | ifElse c t e ihc iht ihe =>
      obtain ⟨hc, ht, he⟩ := h
      have hzero : ∀ {x : Expr}, Parses tokens x.level x.body x → Parses tokens 0 x.body x := by
        intro x hx
        have := parses_render_of_body hx 0 (by decide)
        rwa [Expr.render, bracket_false (Nat.not_lt_zero _)] at this
      exact ⟨parses_ifElse (parses_render_of_body (ihc hc).1 1 (by decide)) (hzero (iht ht).1)
        (hzero (ihe he).1), fun hl => by simp [Expr.level, IsChain] at hl⟩

end

namespace Expr

/-- The level at which the parser takes the left operand of an operator. -/
def leftLevel (op : BinaryOp) : Nat := if op.level = 4 then 5 else op.level

/-- The brackets around an operand that has to be of `level` at least. -/
def brackets (level : Nat) (e : Expr) : Nat := if e.level < level then 2 else 0

/-- The least number of tokens from which the parser builds `e`. -/
def width : Expr → Nat
  | literal _ => 1
  | unary op e => 1 + width e + e.brackets op.level
  | binary op l r => width l + l.brackets (leftLevel op) + 1 + width r +
      r.brackets (op.level + 1)
  | ifElse c t e => width c + c.brackets 1 + width t + width e + 2

def Buildable : Expr → Prop
  | literal _ => True
  | unary _ e => Buildable e
  | binary op l r => op ∉ [.le, .gt, .ge] ∧ Buildable l ∧ Buildable r
  | ifElse c t e => Buildable c ∧ Buildable t ∧ Buildable e

theorem brackets_mono {k level : Nat} (e : Expr) (h : k ≤ level) :
    e.brackets k ≤ e.brackets level := by
  unfold brackets
  split <;> split <;> omega

theorem brackets_le (level : Nat) (e : Expr) : e.brackets level ≤ 2 := by
  unfold brackets
  split <;> omega

theorem length_bracket (level : Nat) (e : Expr) :
    (bracket (e.level < level) e.body).length = e.body.length + e.brackets level := by
  unfold bracket brackets
  split <;> simp

/-- The printed form has no more tokens than the parser needs, and fewer where it drops the
brackets of a left operand that the parser needs. -/
theorem body_width (e : Expr) (hb : e.Buildable) : e.body.length ≤ e.width ∧
    (e.width ≤ e.body.length → e.Restorable) := by
  induction e with
  | literal v => exact ⟨Nat.le_refl _, fun _ => trivial⟩
  | unary op e ih =>
      obtain ⟨hle, hres⟩ := ih hb
      have hlen : (unary op e).body.length = 1 + e.body.length + e.brackets op.level := by
        cases op <;> simp only [body, UnaryOp.level, List.length_append, List.length_cons,
          length_bracket, List.length_nil] <;> omega
      rw [hlen]
      simp only [width]
      exact ⟨by omega, fun h => hres (by omega)⟩
  | binary op l r ihl ihr =>
      obtain ⟨hop, hl, hr⟩ := hb
      obtain ⟨hlel, hresl⟩ := ihl hl
      obtain ⟨hler, hresr⟩ := ihr hr
      have hmono : l.brackets op.level ≤ l.brackets (leftLevel op) := by
        apply brackets_mono l
        unfold leftLevel
        split <;> omega
      have hlen : (binary op l r).body.length = l.body.length + l.brackets op.level + 1 +
          r.body.length + r.brackets (op.level + 1) := by
        simp only [body, List.length_append, List.length_cons, length_bracket]
        omega
      rw [hlen]
      simp only [width]
      refine ⟨by omega, fun h => ⟨hop, fun h4 hl4 => ?_, hresl (by omega), hresr (by omega)⟩⟩
      have h0 : l.brackets op.level = 0 := if_neg (by omega)
      have h2 : l.brackets (leftLevel op) = 2 := by
        unfold brackets leftLevel
        rw [if_pos h4, if_pos (by omega)]
      omega
  | ifElse c t e ihc iht ihe =>
      obtain ⟨hlec, hresc⟩ := ihc hb.1
      obtain ⟨hlet, hrest⟩ := iht hb.2.1
      obtain ⟨hlee, hrese⟩ := ihe hb.2.2
      have hlen : (ifElse c t e).body.length = c.body.length + c.brackets 1 + t.body.length +
          e.body.length + 2 := by
        simp only [body, List.length_append, List.length_cons, length_bracket]
        omega
      rw [hlen]
      simp only [width]
      exact ⟨by omega, fun h => ⟨hresc (by omega), hrest (by omega), hrese (by omega)⟩⟩

end Expr

section

variable {tokens : List Token} {st : ParserState} {n level : Nat} {e : Expr}

/-- The tokens from `index` on were enough to build `node` as an operand of `level`. -/
def Paid (level index : Nat) (node : ExprNode) (st : ParserState) : Prop :=
  ∀ e : Expr, e.TreeOf node → e.Buildable ∧ index + e.width + e.brackets level ≤ st.currTokenIndex

def Pays (level : Nat) (x : Parse ExprNode) : Prop :=
  ∀ st, Ensures x st (Paid level st.currTokenIndex) fun _ => True

theorem Paid.mono {k level index : Nat} {node : ExprNode} (h : Paid level index node st)
    (hle : k ≤ level) : Paid k index node st := fun e he =>
  ⟨(h e he).1, Nat.le_trans (Nat.add_le_add_left (e.brackets_mono hle) _) (h e he).2⟩

theorem Paid.null (level index : Nat) : Paid level index .null st := fun e he =>
  absurd he e.not_treeOf_null

theorem ensures_previousToken_index {Q : Token → ParserState → Prop}
    (hQ : ∀ token, Q token st.advance) :
    Ensures (previousToken tokens) st.advance Q fun _ => True := by
  unfold previousToken
  rw [ensures_bind, ensures_get]
  split
  · exact trivial
  · exact hQ _

theorem Paid.unary {k index index' j : Nat} {ty : TokenType} {child : ExprNode} {st' : ParserState}
    (h : Paid k index' child st') (hlevel : ∀ op : UnaryOp, op.tokenType = ty → op.level = k)
    (hle : index + 1 + st'.currTokenIndex ≤ index' + st.currTokenIndex) :
    Paid k index (.mk j .unaryOp ty 0 none [child]) st := by
  intro e he
  obtain ⟨op, e', c, rfl, hty, hch, hc⟩ := Expr.treeOf_unaryOp he
  simp only [List.cons.injEq, and_true] at hch
  subst hch
  obtain ⟨hb, hpaid⟩ := h e' hc
  have hk := hlevel op hty
  have hzero : (Expr.unary op e').brackets k = 0 := if_neg (by simp [Expr.level, hk])
  refine ⟨hb, ?_⟩
  rw [hzero, Expr.width, hk]
  omega

theorem Paid.binary {kl level index j : Nat} {ty : TokenType} {lNode rNode : ExprNode}
    {st₁ : ParserState} (hl : Paid kl index lNode st₁)
    (hr : Paid (level + 1) (st₁.currTokenIndex + 1) rNode st)
    (hop : ∀ op : BinaryOp, op.tokenType = ty → (op.level = level ∧ op ∉ [.le, .gt, .ge]) ∧
      Expr.leftLevel op = kl) : Paid level index (.mk j .binOp ty 0 none [lNode, rNode]) st := by
  intro e he
  obtain ⟨op, l, r, a, b, rfl, hty, hch, ha, hb⟩ := Expr.treeOf_binOp he
  simp only [List.cons.injEq, and_true] at hch
  obtain ⟨rfl, rfl⟩ := hch
  obtain ⟨hbl, hpl⟩ := hl l ha
  obtain ⟨hbr, hpr⟩ := hr r hb
  obtain ⟨⟨hlevel, hnot⟩, hkl⟩ := hop op hty
  have hzero : (Expr.binary op l r).brackets level = 0 := if_neg (by simp [Expr.level, hlevel])
  refine ⟨⟨hnot, hbl, hbr⟩, ?_⟩
  rw [hzero, Expr.width, hkl, hlevel]
  omega

private theorem binOpLoop_pays (hchain : IsChain level) {operand : Parse ExprNode}
    (hx : Pays (level + 1) operand) (k : Nat) {index : Nat} {node : ExprNode}
    (h : Paid level index node st) :
    Ensures (binOpLoop tokens (opsAt level) operand k node) st (Paid level index)
      fun _ => True := by
  induction k generalizing node st with
  | zero => exact trivial
  | succ k ih =>
      unfold binOpLoop
      rw [ensures_bind]
      refine ensures_consumeOneOf_any (fun t op hmem => ?_) h (opsAt_ne_nil hchain)
      simp only [ensures_bind, ensures_allocate]
      refine (hx st.advance).mono (fun right st₁ hr => ?_) fun _ he => he
      refine ih (Paid.binary h hr fun op' hty => ?_)
      subst hty
      have hop := BinaryOp.level_of_mem_opsAt hmem
      refine ⟨hop, (if_neg fun h4 => ?_).trans hop.1⟩
      rw [← hop.1, h4] at hchain
      simp [IsChain] at hchain

theorem binOpChain_pays (tokens : List Token) (hchain : IsChain level) {operand : Parse ExprNode}
    (hx : Pays (level + 1) operand) (n : Nat) :
    Pays level (binOpChain tokens (opsAt level) operand n) := by
  intro st
  unfold binOpChain
  rw [ensures_bind]
  exact (hx st).mono (fun node st₁ h => binOpLoop_pays hchain hx n (h.mono (Nat.le_succ _)))
    fun _ he => he

section

variable {rec : Parse ExprNode}

theorem parsePrim_pays (hrec : Pays 0 rec) : Pays 12 (parsePrim tokens rec n) := by
  intro st
  unfold parsePrim
  rw [ensures_bind]
  refine ensures_consumeToken_any ?_ ?_
  · -- brackets pay for any expression
    simp only [if_true, ensures_bind]
    refine (hrec st.advance).mono (fun node st₁ h => ?_) fun _ he => he
    refine ensures_consumeToken_any ?_ ?_
    · intro e he
      obtain ⟨hb, hpaid⟩ := h e he
      have hle := e.brackets_le 12
      have hadv : st.advance.currTokenIndex = st.currTokenIndex + 1 := rfl
      have hadv₁ : st₁.advance.currTokenIndex = st₁.currTokenIndex + 1 := rfl
      exact ⟨hb, by omega⟩
    · exact Paid.null _ _
  simp only [Bool.false_eq_true, if_false]
  have hvalue : ∀ (ty : TokenType) (val : Int) (sym : Option SymbolName),
      Paid 12 st.currTokenIndex (st.pool.newNode .val ty val sym []).1
        { st.advance with pool := (st.pool.newNode .val ty val sym []).2 } := by
    intro ty val sym e he
    obtain rfl := Expr.treeOf_val he
    exact ⟨trivial, Nat.le_refl _⟩
  rw [ensures_bind]
  refine ensures_consumeToken_any ?_ ?_
  · simp only [if_true, ensures_bind]
    apply ensures_previousToken_index
    intro token
    rw [ensures_allocate]
    exact hvalue _ _ _
  simp only [Bool.false_eq_true, if_false]
  rw [ensures_bind]
  refine ensures_consumeToken_any ?_ ?_
  · simp only [if_true, ensures_bind]
    apply ensures_previousToken_index
    intro token
    rw [ensures_allocate]
    exact hvalue _ _ _
  simp only [Bool.false_eq_true, if_false]
  rw [ensures_bind]
  refine ensures_consumeToken_any ?_ (Paid.null _ _)
  simp only [if_true, ensures_bind]
  apply ensures_previousToken_index
  intro token
  refine ensures_consumeToken_any ?_ (Paid.null _ _)
  simp only [Bool.not_true, Bool.false_eq_true, if_false]
  unfold parseFuncCall
  rw [ensures_bind]
  -- a function call is no tree of an expression
  have hloop : ∀ (k : Nat) (args : List ExprNode) (st' : ParserState),
      Ensures (funcCallLoop tokens rec k args) st' (fun _ _ => True) fun _ => True := by
    intro k args st'
    unfold Ensures
    split <;> trivial
  refine (hloop n [] _).mono (fun o st' _ => ?_) fun _ he => he
  cases o with
  | none => exact Paid.null _ _
  | some args =>
      rw [ensures_allocate]
      exact fun e he => absurd he Expr.not_treeOf_builtinFunc

private theorem postfixLoop_pays (k : Nat) {index : Nat} {node : ExprNode}
    (h : Paid 11 index node st) :
    Ensures (postfixLoop tokens k node) st (Paid 11 index) fun _ => True := by
  induction k generalizing node st with
  | zero => exact trivial
  | succ k ih =>
      unfold postfixLoop
      rw [ensures_bind]
      refine ensures_consumeOneOf_any (fun t op hmem => ?_) h (by simp)
      simp only [List.mem_singleton, Prod.mk.injEq] at hmem
      obtain ⟨rfl, rfl⟩ := hmem
      simp only [ensures_bind, ensures_allocate]
      refine ih (h.unary (fun op hop => ?_) ?_)
      · cases op <;> simp_all [UnaryOp.tokenType, UnaryOp.level]
      · change _ ≤ index + (st.currTokenIndex + 1)
        omega

private theorem parseUnaryOp_pays (hrec : Pays 0 rec) (k : Nat) :
    Pays 10 (parseUnaryOp tokens rec n k) := by
  induction k with
  | zero => exact fun st => trivial
  | succ k ih =>
      intro st
      unfold parseUnaryOp
      rw [ensures_bind]
      refine ensures_consumeOneOf_any (fun t op hmem => ?_) ?_ (by simp)
      · simp only [ensures_bind]
        refine (ih st.advance).mono (fun child st₁ h => ?_) fun _ he => he
        rw [ensures_allocate]
        refine h.unary (fun op' hop => ?_) (Nat.le_refl _)
        subst hop
        cases op' <;> simp_all [UnaryOp.tokenType, UnaryOp.level]
      · unfold parsePostfixOp
        simp only [ensures_bind]
        refine (parsePrim_pays hrec st).mono (fun node st₁ h => ?_) fun _ he => he
        exact (postfixLoop_pays n (h.mono (by decide))).mono
          (fun node' st' h' => h'.mono (by decide)) fun _ he => he

theorem parseEqu_pays {tokens : List Token} (hcmp : Pays 5 (parseCmp tokens rec n)) :
    Pays 4 (parseEqu tokens rec n) := by
  intro st
  unfold parseEqu
  rw [ensures_bind]
  refine (hcmp st).mono (fun node st₁ hl => ?_) fun _ he => he
  rw [ensures_bind]
  refine ensures_consumeOneOf_any (fun t op hmem => ?_) (hl.mono (by decide)) (by simp)
  simp only [ensures_bind]
  refine (hcmp st₁.advance).mono (fun right st₂ hr => ?_) fun _ he => he
  rw [ensures_allocate]
  refine Paid.binary hl hr fun op' hty => ?_
  subst hty
  have hop := BinaryOp.level_of_mem_opsAt (show (t, op'.tokenType) ∈ opsAt 4 from hmem)
  exact ⟨hop, if_pos hop.1⟩

theorem parseConditional_pays (hrec : Pays 0 rec) : Pays 0 (parseConditional tokens rec n) := by
  have hunary : Pays 10 (parseUnaryOp tokens rec n n) := parseUnaryOp_pays hrec n
  have hpow := binOpChain_pays tokens (show IsChain 9 by decide) hunary n
  have hmul := binOpChain_pays tokens (show IsChain 8 by decide) hpow n
  have hadd := binOpChain_pays tokens (show IsChain 7 by decide) hmul n
  have hshift := binOpChain_pays tokens (show IsChain 6 by decide) hadd n
  have hcmp := binOpChain_pays tokens (show IsChain 5 by decide) hshift n
  have hand := binOpChain_pays tokens (show IsChain 3 by decide) (parseEqu_pays hcmp) n
  have hxor := binOpChain_pays tokens (show IsChain 2 by decide) hand n
  have hor := binOpChain_pays tokens (show IsChain 1 by decide) hxor n
  intro st
  unfold parseConditional
  rw [ensures_bind]
  refine Ensures.mono (hor st) (fun cond st₁ hc => ?_) fun _ he => he
  rw [ensures_bind, ensures_get, ensures_ite]
  refine ⟨fun _ => Paid.null _ _, fun _ => ?_⟩
  rw [ensures_bind]
  refine ensures_consumeToken_any ?_ (hc.mono (Nat.zero_le _))
  simp only [Bool.not_true, Bool.false_eq_true, if_false, ensures_bind]
  refine (hrec st₁.advance).mono (fun then_ st₂ ht => ?_) fun _ he => he
  rw [ensures_get, ensures_ite]
  refine ⟨fun _ => Paid.null _ _, fun _ => ?_⟩
  rw [ensures_bind]
  refine ensures_consumeToken_any ?_ (Paid.null _ _)
  simp only [Bool.not_true, Bool.false_eq_true, if_false, ensures_bind]
  refine (hrec st₂.advance).mono (fun else_ st₃ he => ?_) fun _ he => he
  rw [ensures_get, ensures_ite]
  refine ⟨fun _ => Paid.null _ _, fun _ => ?_⟩
  rw [ensures_allocate]
  intro e htree
  obtain ⟨c, t, f, x, y, z, rfl, hch, hx, hy, hz⟩ := Expr.treeOf_ifElseNode htree
  simp only [List.cons.injEq, and_true] at hch
  obtain ⟨rfl, rfl, rfl⟩ := hch
  obtain ⟨hbc, hpc⟩ := hc c hx
  obtain ⟨hbt, hpt⟩ := ht t hy
  obtain ⟨hbf, hpf⟩ := he f hz
  have hadv₁ : st₁.advance.currTokenIndex = st₁.currTokenIndex + 1 := rfl
  have hadv₂ : st₂.advance.currTokenIndex = st₂.currTokenIndex + 1 := rfl
  refine ⟨⟨hbc, hbt, hbf⟩, ?_⟩
  have hzero : (Expr.ifElse c t f).brackets 0 = 0 := rfl
  rw [hzero, Expr.width]
  dsimp only
  omega

end

theorem parseExpr_pays (tokens : List Token) (n : Nat) : Pays 0 (parseExpr tokens n) := by
  induction n with
  | zero => exact fun st => trivial
  | succ n ih => exact parseConditional_pays ih

end

/-- Printing and parsing gives back the same tree, with all tokens read, exactly for the
expressions without `<=`, `>`, `>=` and without a chain of equalities. -/
theorem parse_render_iff (e : Expr) :
    (∃ node st, parse (e.render 0 ++ [mark .invalid]) = .ok (node, st) ∧ e.TreeOf node ∧
      st.currTokenIndex = (e.render 0).length) ↔ e.Restorable := by
  constructor
  · rintro ⟨node, st, hrun, htree, hidx⟩
    have h := parseExpr_pays (e.render 0 ++ [mark .invalid])
      ((e.render 0 ++ [mark .invalid]).length + 3) {}
    rw [ensures_of_ok hrun] at h
    obtain ⟨hb, hpaid⟩ := h e htree
    apply (e.body_width hb).2
    rw [Expr.render, bracket_false (Nat.not_lt_zero _)] at hidx
    rw [hidx] at hpaid
    change 0 + e.width + e.brackets 0 ≤ _ at hpaid
    omega
  · intro h
    have hp : Parses (e.render 0 ++ [mark .invalid]) 0 (e.render 0) e :=
      parses_render_of_body (parses_body h).1 0 (by decide)
    have hlen : (e.render 0 ++ [mark .invalid]).length = (e.render 0).length + 1 := by simp
    have hens := hp ((e.render 0 ++ [mark .invalid]).length + 2)
      ((e.render 0 ++ [mark .invalid]).length + 2) {} (mark .invalid) [] ⟨rfl, Nat.le_refl _, rfl⟩
      (Nat.le_refl _) (by simp [Stops, mark, TokenType.follows])
    unfold parse
    change Ensures (parseExpr _ ((e.render 0 ++ [mark .invalid]).length + 3)) _ _ _ at hens
    cases hrun : parseExpr (e.render 0 ++ [mark .invalid])
        ((e.render 0 ++ [mark .invalid]).length + 3) {} with
    | error err =>
        rw [ensures_of_error hrun] at hens
        exact hens.elim
    | ok p =>
        obtain ⟨node, st⟩ := p
        rw [ensures_of_ok hrun] at hens
        exact ⟨node, st, rfl, hens.tree, by simpa using hens.index⟩

/-- `1 <= 2` comes back as `1 < 2`. -/
theorem parse_render_le : ¬ ∀ e : Expr, ∃ node st,
    parse (e.render 0 ++ [mark .invalid]) = .ok (node, st) ∧ e.TreeOf node ∧
      st.currTokenIndex = (e.render 0).length := by
  intro h
  obtain ⟨node, st, hrun, htree, -⟩ := h (.binary .le (.literal 1) (.literal 2))
  obtain ⟨k, a, b, rfl, -, -⟩ := htree
  have hty : parse ((Expr.binary .le (.literal 1) (.literal 2)).render 0 ++ [mark .invalid]) =
      .ok (.mk 2 .binOp .lt 0 none [.mk 0 .val .literal 1 none [], .mk 1 .val .literal 2 none []],
        ⟨3, [.mk 0 .val .literal 1 none [], .mk 1 .val .literal 2 none [], .mk 2 .binOp .lt 0 none
          [.mk 0 .val .literal 1 none [], .mk 1 .val .literal 2 none []]], .success, none⟩) := rfl
  rw [hty] at hrun
  injection hrun with hrun
  injection (Prod.mk.inj hrun).1 with _ _ hne
  exact absurd hne (by decide)

end PGBigNumber.Infix
