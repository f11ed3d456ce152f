import PGBigNumber.Infix.Tokenizer

/-!
# The pool after a parse

When the parser has recorded no error, the pool holds the nodes of the tree it returns, each once
and behind its children, and every node knows its place.
-/

namespace PGBigNumber.Infix

open Outcome

namespace ExprNode

mutual

def postorder : ExprNode → List ExprNode
  | null => []
  | mk k cb ty val sym ch => postorders ch ++ [mk k cb ty val sym ch]

def postorders : List ExprNode → List ExprNode
  | [] => []
  | c :: ch => postorder c ++ postorders ch

end

theorem postorders_append (ch ch' : List ExprNode) :
    postorders (ch ++ ch') = postorders ch ++ postorders ch' := by
  induction ch with
  | nil => rfl
  | cons c ch ih => rw [List.cons_append, postorders, postorders, ih, List.append_assoc]

theorem postorders_singleton (c : ExprNode) : postorders [c] = postorder c := by
  rw [postorders, postorders, List.append_nil]

variable (table : SymbolTable)

/-- The symbol of a constant or a call is one the table has, of the right kind, and a function that
is there can be called. -/
def Known : ExprNode → Prop
  | null => True
  | mk _ cb ty _ sym _ =>
    (cb = .val → ty = .builtinConstant → ∃ v, sym.bind table = some (.value v)) ∧
      (cb = .builtinFunc → ∃ f, sym.bind table = some (.func f) ∧ f.nativeCall ≠ none)

end ExprNode

def NodePool.Indexed (pool : NodePool) : Prop :=
  ∀ i n, pool[i]? = some n → ∃ cb ty val sym ch, n = ExprNode.mk i cb ty val sym ch

theorem NodePool.Indexed.newNode {pool : NodePool} (h : pool.Indexed) (cb : EvalCallback)
    (ty : TokenType) (val : Int) (sym : Option SymbolName) (ch : List ExprNode) :
    NodePool.Indexed (pool.newNode cb ty val sym ch).2 := by
  intro i n hget
  change (pool ++ [_])[i]? = some n at hget
  rw [List.getElem?_append] at hget
  split at hget
  · exact h i n hget
  · obtain ⟨hi, rfl⟩ := List.getElem?_eq_some_iff.mp hget
    rw [List.length_singleton] at hi
    obtain rfl : i = pool.length := by omega
    simp

def Token.Known (table : SymbolTable) (t : Token) : Prop :=
  (t.type = .builtinConstant → ∃ v, t.pSymbol.bind table = some (.value v)) ∧
    (t.type = .builtinFunc → ∃ f, t.pSymbol.bind table = some (.func f) ∧ f.nativeCall ≠ none)

section

variable {hooks : Hooks} {table : SymbolTable}

theorem tokenizerLoop_forall {C : Token → Prop} (hsentinel : C { type := .invalid })
    (hread : ∀ ch s, C (readToken hooks table ch s).token) {fuel : Nat} {s : List Char}
    {res tokens : List Token} {status : Option ErrCode} (hres : ∀ t ∈ res, C t)
    (h : tokenizerLoop hooks table fuel s res = some (tokens, status)) : ∀ t ∈ tokens, C t := by
  have hsnoc : ∀ {res : List Token} {token : Token}, (∀ t ∈ res, C t) → C token →
      ∀ t ∈ res ++ [token], C t := by
    intro res token hres htoken t ht
    rcases List.mem_append.mp ht with ht | ht
    · exact hres t ht
    · rw [List.mem_singleton.mp ht]
      exact htoken
  induction fuel generalizing s res with
  | zero =>
      unfold tokenizerLoop at h
      split at h
      · obtain ⟨rfl, -⟩ := Prod.mk.inj (Option.some.inj h)
        exact hsnoc hres hsentinel
      · cases h
  | succ fuel ih =>
      by_cases hs : s = []
      · subst hs
        obtain ⟨rfl, -⟩ := Prod.mk.inj (Option.some.inj h)
        exact hsnoc hres hsentinel
      obtain ⟨k, ch, r, hk, hskip, -⟩ := tokenizerLoop_skips hs (by rw [h]; rfl)
      obtain rfl := Nat.succ.inj hk
      rw [tokenizerLoop_cons hs hskip] at h
      split at h
      · obtain ⟨rfl, -⟩ := Prod.mk.inj (Option.some.inj h)
        exact hsnoc hres (hread ch r)
      · exact ih (hsnoc hres (hread ch r)) h

private theorem readOperator_known {ch : Char} {s : List Char} {lexed : Lexed}
    (h : readOperator ch s = some lexed) : lexed.token.Known table := by
  unfold readOperator at h
  split at h
  all_goals
    cases h
    repeat' split
    all_goals exact ⟨by rintro ⟨⟩, by rintro ⟨⟩⟩

private theorem readToken_known (hcall : ∀ name f, table name = some (.func f) → f.nativeCall ≠ none)
    (ch : Char) (s : List Char) : (readToken hooks table ch s).token.Known table := by
  unfold readToken
  split
  · next lexed h => exact readOperator_known h
  split
  · unfold lexLiteral
    split
    · exact ⟨by rintro ⟨⟩, by rintro ⟨⟩⟩
    · split <;> exact ⟨by rintro ⟨⟩, by rintro ⟨⟩⟩
  split
  · unfold lexSymbol
    dsimp only
    split
    · exact ⟨by rintro ⟨⟩, by rintro ⟨⟩⟩
    · next f hf => exact ⟨by rintro ⟨⟩, fun _ => ⟨f, hf, hcall _ f hf⟩⟩
    · next v hv => exact ⟨fun _ => ⟨v, hv⟩, by rintro ⟨⟩⟩
    · exact ⟨by rintro ⟨⟩, by rintro ⟨⟩⟩
  · exact ⟨by rintro ⟨⟩, by rintro ⟨⟩⟩

theorem tokenizer_known (hcall : ∀ name f, table name = some (.func f) → f.nativeCall ≠ none)
    {fuel : Nat} {s : List Char} {tokens : List Token} {status : Option ErrCode}
    (h : tokenizer hooks table fuel s = some (tokens, status)) : ∀ t ∈ tokens, t.Known table :=
  tokenizerLoop_forall ⟨by rintro ⟨⟩, by rintro ⟨⟩⟩ (readToken_known hcall) (by simp) h

end

section

variable {table : SymbolTable} {base st : ParserState} {nodes : List ExprNode}

/-- Since it was in the state `base` the parser has added `nodes` to its pool. -/
structure Made (table : SymbolTable) (base : ParserState) (nodes : List ExprNode)
    (st : ParserState) : Prop where
  indexed : st.pool.Indexed
  known : ∀ n ∈ st.pool, n.Known table
  pool : st.errCode = .success → st.pool = base.pool ++ nodes

theorem Made.advance (h : Made table base nodes st) : Made table base nodes st.advance :=
  ⟨h.indexed, h.known, h.pool⟩

theorem Made.of_err {nodes' : List ExprNode} (h : Made table base nodes st)
    (herr : st.errCode ≠ .success) : Made table base nodes' st :=
  ⟨h.indexed, h.known, fun hs => absurd hs herr⟩

theorem Made.badToken {nodes' : List ExprNode} (h : Made table base nodes st) (type : TokenType)
    (msg : String) :
    Made table base nodes' { st with errCode := .badToken, context := some (type, msg) } :=
  ⟨h.indexed, h.known, by rintro ⟨⟩⟩

theorem Made.newNode {cb : EvalCallback} {ty : TokenType} {val : Int} {sym : Option SymbolName}
    {ch : List ExprNode} (h : Made table base (nodes ++ ExprNode.postorders ch) st)
    (hknown : (ExprNode.mk st.pool.length cb ty val sym ch).Known table) :
    Made table base (nodes ++ (st.pool.newNode cb ty val sym ch).1.postorder)
      { st with pool := (st.pool.newNode cb ty val sym ch).2 } where
  indexed := h.indexed.newNode cb ty val sym ch
  known n hn := by
    rcases List.mem_append.mp hn with hn | hn
    · exact h.known n hn
    · rw [List.mem_singleton.mp hn]
      exact hknown
  pool hs := by
    change st.pool ++ [_] = base.pool ++ (nodes ++ ExprNode.postorder (.mk _ _ _ _ _ _))
    rw [h.pool hs, ExprNode.postorder]
    simp only [List.append_assoc]

def Builds (table : SymbolTable) (x : Parse ExprNode) : Prop :=
  ∀ base nodes st, Made table base nodes st →
    Ensures x st (fun node st' => Made table base (nodes ++ node.postorder) st') (fun _ => True)

variable {tokens : List Token}

private theorem binOpLoop_made {ops : List (TokenType × TokenType)} {operand : Parse ExprNode}
    (hops : ops ≠ []) (hx : Builds table operand) (n : Nat) {node : ExprNode}
    (h : Made table base (nodes ++ node.postorder) st) :
    Ensures (binOpLoop tokens ops operand n node) st
      (fun node' st' => Made table base (nodes ++ node'.postorder) st') (fun _ => True) := by
  induction n generalizing node st with
  | zero => trivial
  | succ n ih =>
      unfold binOpLoop
      rw [ensures_bind]
      refine ensures_consumeOneOf_any (fun _ op _ => ?_) h hops
      dsimp only
      rw [ensures_bind]
      refine (hx _ _ _ h.advance).mono (fun right st₁ h₁ => ?_) fun _ he => he
      rw [ensures_bind, ensures_allocate]
      refine ih (Made.newNode ?_ ⟨by rintro ⟨⟩, by rintro ⟨⟩⟩)
      simpa only [ExprNode.postorders, List.append_nil, List.append_assoc] using h₁

private theorem binOpChain_builds {ops : List (TokenType × TokenType)} {operand : Parse ExprNode}
    (hops : ops ≠ []) (hx : Builds table operand) (n : Nat) :
    Builds table (binOpChain tokens ops operand n) := by
  intro base nodes st h
  unfold binOpChain
  rw [ensures_bind]
  exact (hx base nodes st h).mono (fun node st₁ h₁ => binOpLoop_made hops hx n h₁) fun _ he => he

section

variable {rec : Parse ExprNode} (hrec : Builds table rec)
include hrec

private theorem funcCallLoop_made (n : Nat) {args : List ExprNode}
    (h : Made table base (nodes ++ ExprNode.postorders args) st) :
    Ensures (funcCallLoop tokens rec n args) st
      (fun o st' => match o with
        | none => Made table base nodes st' ∧ st'.errCode ≠ .success
        | some args' => Made table base (nodes ++ ExprNode.postorders args') st')
      (fun _ => True) := by
  induction n generalizing args st with
  | zero => trivial
  | succ n ih =>
      have harg : ∀ st₁, Made table base (nodes ++ ExprNode.postorders args) st₁ →
          Ensures (rec >>= fun arg => funcCallLoop tokens rec n (args ++ [arg])) st₁
            (fun o st' => match o with
              | none => Made table base nodes st' ∧ st'.errCode ≠ .success
              | some args' => Made table base (nodes ++ ExprNode.postorders args') st')
            (fun _ => True) := by
        intro st₁ h₁
        rw [ensures_bind]
        refine (hrec _ _ _ h₁).mono (fun arg st₂ h₂ => ih ?_) fun _ he => he
        rw [ExprNode.postorders_append, ExprNode.postorders_singleton, ← List.append_assoc]
        exact h₂
      unfold funcCallLoop
      rw [ensures_bind]
      apply ensures_consumeToken_any h.advance
      simp only [Bool.false_eq_true, if_false]
      split
      · rw [ensures_bind]
        refine ensures_consumeToken_any ?_ ?_
        · simpa using harg _ h.advance
        · simp only [Bool.not_false, if_true, ensures_bind, ensures_badToken, ensures_pure]
          exact ⟨h.badToken _ _, by rintro ⟨⟩⟩
      · exact harg st h

private theorem parseFuncCall_made (n : Nat) {symbol : Option SymbolName}
    (hsymbol : ∃ f, symbol.bind table = some (.func f) ∧ f.nativeCall ≠ none)
    (h : Made table base nodes st) :
    Ensures (parseFuncCall tokens rec n symbol) st
      (fun node st' => Made table base (nodes ++ node.postorder) st') (fun _ => True) := by
  unfold parseFuncCall
  rw [ensures_bind]
  have hnil : Made table base (nodes ++ ExprNode.postorders []) st := by
    rwa [ExprNode.postorders, List.append_nil]
  refine (funcCallLoop_made hrec n hnil).mono (fun o st₁ h₁ => ?_) fun _ he => he
  cases o with
  | none => exact h₁.1.of_err h₁.2
  | some args =>
      rw [ensures_allocate]
      exact h₁.newNode ⟨by rintro ⟨⟩, fun _ => hsymbol⟩

private theorem parsePrim_builds (htokens : ∀ t ∈ tokens, t.Known table) (n : Nat) :
    Builds table (parsePrim tokens rec n) := by
  intro base nodes st h
  have hnull : Made table base (nodes ++ ExprNode.null.postorder) st := by
    rwa [ExprNode.postorder, List.append_nil]
  have hvalue : ∀ {ty val sym},
      (ty = .builtinConstant → ∃ v, Option.bind sym table = some (.value v)) →
      Made table base (nodes ++ (st.pool.newNode .val ty val sym []).1.postorder)
        { st.advance with pool := (st.pool.newNode .val ty val sym []).2 } := by
    intro ty val sym hsym
    have hadvance : Made table base (nodes ++ ExprNode.postorders []) st.advance := by
      rw [ExprNode.postorders, List.append_nil]
      exact h.advance
    exact hadvance.newNode ⟨fun _ => hsym, by rintro ⟨⟩⟩
  unfold parsePrim
  rw [ensures_bind]
  refine ensures_consumeToken_any ?_ ?_
  · simp only [if_true, ensures_bind]
    refine (hrec _ _ _ h.advance).mono (fun node st₁ h₁ => ?_) fun _ he => he
    apply ensures_consumeToken_any h₁.advance
    simp only [Bool.not_false, if_true, ensures_bind, ensures_badToken, ensures_pure]
    exact h₁.badToken _ _
  simp only [Bool.false_eq_true, if_false]
  rw [ensures_bind, ensures_consumeToken]
  refine ⟨fun _ => trivial, fun t ts hahead => ?_⟩
  obtain ⟨⟨token, hget, htype⟩, -⟩ := ahead_cons hahead
  have htoken := htokens token (List.mem_of_getElem? hget)
  split
  · simp only [if_true, ensures_bind]
    apply ensures_previousToken hget
    rw [ensures_allocate]
    exact hvalue (by rintro ⟨⟩)
  simp only [Bool.false_eq_true, if_false]
  rw [ensures_bind, ensures_consumeToken_ahead hahead]
  split
  · next hconst =>
    simp only [if_true, ensures_bind]
    apply ensures_previousToken hget
    rw [ensures_allocate]
    exact hvalue fun _ => htoken.1 (htype.trans hconst)
  simp only [Bool.false_eq_true, if_false]
  rw [ensures_bind, ensures_consumeToken_ahead hahead]
  split
  · next hfunc =>
    simp only [if_true, ensures_bind]
    refine ensures_previousToken hget (ensures_consumeToken_any ?_ ?_)
    · simp only [Bool.not_true, Bool.false_eq_true, if_false]
      exact parseFuncCall_made hrec n (htoken.2 (htype.trans hfunc)) h.advance.advance
    · simp only [Bool.not_false, if_true, ensures_bind, ensures_badToken, ensures_pure]
      exact h.advance.badToken _ _
  · exact hnull

omit hrec in
private theorem postfixLoop_made (n : Nat) {node : ExprNode}
    (h : Made table base (nodes ++ node.postorder) st) :
    Ensures (postfixLoop tokens n node) st
      (fun node' st' => Made table base (nodes ++ node'.postorder) st') (fun _ => True) := by
  induction n generalizing node st with
  | zero => trivial
  | succ n ih =>
      unfold postfixLoop
      rw [ensures_bind]
      refine ensures_consumeOneOf_any (fun _ op _ => ?_) h (by simp)
      dsimp only
      rw [ensures_bind, ensures_allocate]
      have hadvance : Made table base (nodes ++ ExprNode.postorders [node]) st.advance := by
        rw [ExprNode.postorders_singleton]
        exact h.advance
      exact ih (hadvance.newNode ⟨by rintro ⟨⟩, by rintro ⟨⟩⟩)

private theorem parseUnaryOp_builds (htokens : ∀ t ∈ tokens, t.Known table) (n k : Nat) :
    Builds table (parseUnaryOp tokens rec n k) := by
  induction k with
  | zero => exact fun _ _ _ _ => trivial
  | succ k ih =>
      intro base nodes st h
      unfold parseUnaryOp
      rw [ensures_bind]
      refine ensures_consumeOneOf_any (fun _ op _ => ?_) ?_ (by simp)
      · dsimp only
        rw [ensures_bind]
        refine (ih _ _ _ h.advance).mono (fun child st₁ h₁ => ?_) fun _ he => he
        rw [ensures_allocate]
        refine Made.newNode ?_ ⟨by rintro ⟨⟩, by rintro ⟨⟩⟩
        rw [ExprNode.postorders_singleton]
        exact h₁
      · dsimp only
        unfold parsePostfixOp
        rw [ensures_bind]
        exact (parsePrim_builds hrec htokens n _ _ _ h).mono
          (fun node st₁ h₁ => postfixLoop_made n h₁) fun _ he => he

private theorem parseBitOr_builds (htokens : ∀ t ∈ tokens, t.Known table) (n : Nat) :
    Builds table (parseBitOr tokens rec n) := by
  have hcmp : Builds table (parseCmp tokens rec n) :=
    binOpChain_builds (by simp) (binOpChain_builds (by simp) (binOpChain_builds (by simp)
      (binOpChain_builds (by simp) (binOpChain_builds (by simp)
        (parseUnaryOp_builds hrec htokens n n) n) n) n) n) n
  have hequ : Builds table (parseEqu tokens rec n) := by
    intro base nodes st h
    unfold parseEqu
    rw [ensures_bind]
    refine (hcmp _ _ _ h).mono (fun node st₁ h₁ => ?_) fun _ he => he
    rw [ensures_bind]
    refine ensures_consumeOneOf_any (fun _ op _ => ?_) h₁ (by simp)
    dsimp only
    rw [ensures_bind]
    refine (hcmp _ _ _ h₁.advance).mono (fun right st₂ h₂ => ?_) fun _ he => he
    rw [ensures_allocate]
    refine Made.newNode ?_ ⟨by rintro ⟨⟩, by rintro ⟨⟩⟩
    simpa only [ExprNode.postorders, List.append_nil, List.append_assoc] using h₂
  exact binOpChain_builds (by simp) (binOpChain_builds (by simp)
    (binOpChain_builds (by simp) hequ n) n) n

private theorem parseConditional_builds (htokens : ∀ t ∈ tokens, t.Known table) (n : Nat) :
    Builds table (parseConditional tokens rec n) := by
  intro base nodes st h
  unfold parseConditional
  rw [ensures_bind]
  refine (parseBitOr_builds hrec htokens n _ _ _ h).mono (fun condition st₁ h₁ => ?_) fun _ he => he
  rw [ensures_bind, ensures_get]
  split
  · next herr => exact h₁.of_err herr
  rw [ensures_bind]
  refine ensures_consumeToken_any ?_ h₁
  simp only [Bool.not_true, Bool.false_eq_true, if_false]
  rw [ensures_bind]
  refine (hrec _ _ _ h₁.advance).mono (fun then_ st₂ h₂ => ?_) fun _ he => he
  rw [ensures_bind, ensures_get]
  split
  · next herr => exact h₂.of_err herr
  rw [ensures_bind]
  refine ensures_consumeToken_any ?_ ?_
  · simp only [Bool.not_true, Bool.false_eq_true, if_false]
    rw [ensures_bind]
    refine (hrec _ _ _ h₂.advance).mono (fun else_ st₃ h₃ => ?_) fun _ he => he
    rw [ensures_bind, ensures_get]
    split
    · next herr => exact h₃.of_err herr
    rw [ensures_allocate]
    refine Made.newNode ?_ ⟨by rintro ⟨⟩, by rintro ⟨⟩⟩
    simpa only [ExprNode.postorders, List.append_nil, List.append_assoc] using h₃
  · simp only [Bool.not_false, if_true, ensures_bind, ensures_badToken, ensures_pure]
    exact h₂.badToken _ _

end

theorem parseExpr_builds (htokens : ∀ t ∈ tokens, t.Known table) (n : Nat) :
    Builds table (parseExpr tokens n) := by
  induction n with
  | zero => exact fun _ _ _ _ => trivial
  | succ n ih => exact parseConditional_builds ih htokens n

/-- A parse that returns a root has filled the pool with the nodes below it, in their order. -/
theorem parse_pool (htokens : ∀ t ∈ tokens, t.Known table) {root : ExprNode}
    (hrun : parse tokens = .ok (root, st)) (hroot : root ≠ .null) :
    st.pool = root.postorder ∧ st.pool.Indexed ∧ ∀ n ∈ st.pool, n.Known table := by
  have hbuilt := parseExpr_builds htokens (tokens.length + 3) {} [] {}
    ⟨by intro i n h; simp at h, by simp, fun _ => rfl⟩
  have hread := parse_scan tokens
  rw [ensures_of_ok hrun] at hbuilt hread
  refine ⟨?_, hbuilt.indexed, hbuilt.known⟩
  by_cases herr : st.errCode = .success
  · exact hbuilt.pool herr
  · exact absurd (hread.1 herr) hroot

end

end PGBigNumber.Infix
