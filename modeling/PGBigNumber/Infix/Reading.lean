import PGBigNumber.Infix.Scan

/-!
# The parser follows the scan

Each parse function, started where the scan expects an operand, returns where the scan is done with
that operand; the report of the scan says whether the parser recorded an error and, when it did
not, whether the tree it built is complete.
-/

namespace PGBigNumber.Infix

open Outcome

variable {tokens : List Token} {st : ParserState} {n : Nat}

/-- The report knows of an error exactly when the parser has recorded one. -/
def Agrees (r : Report) (st : ParserState) : Prop := r.err = true ↔ st.errCode ≠ .success

/-- `r'` is `r` with what reading `node` adds to it. -/
structure Adds (r : Report) (node : ExprNode) (st : ParserState) (r' : Report) : Prop where
  agrees : Agrees r' st
  err : r'.err = false → r.err = false
  gap : r'.err = false → (r'.gap = true ↔ r.gap = true ∨ ¬ node.WellFormed)
  bare : r'.err = false → (r'.bare = true ↔ r.bare = true ∧ node = .null)

/-- Tokens are left, and the bound `n` is beyond what can be done with them. -/
def Enough (tokens : List Token) (n : Nat) (st : ParserState) : Prop :=
  st.currTokenIndex ≤ tokens.length ∧ tokens.length + 2 ≤ n + st.currTokenIndex

/-- The parser stops reading behind the end, and so does the scan. -/
def Overruns (v : Verdict) (e : ParserStop) : Prop := e = .outOfBounds ∧ v = .overrun

/-- `x` reads an operand of a level. `next` is what a new operand of that level makes of the
equality flag, `stop` what the token behind the level is. -/
def ReadsLevel (tokens : List Token) (n : Nat) (next : Bool → Bool)
    (stop : Bool → TokenType → Prop) (x : Parse ExprNode) : Prop :=
  ∀ st equ r s, Enough tokens n st → Agrees r st →
    Ensures x st
      (fun node st' => st.currTokenIndex ≤ st'.currTokenIndex ∧
        ∃ r' equ', next equ' = next equ ∧ (∃ t ts, ahead tokens st' = t :: ts ∧ stop equ' t) ∧
          Adds r node st' r' ∧
          scan ⟨.operand, next equ, r, s⟩ (ahead tokens st) =
            scan ⟨.operator, equ', r', s⟩ (ahead tokens st'))
      (Overruns (scan ⟨.operand, next equ, r, s⟩ (ahead tokens st)))

/-- `x` reads a whole expression; behind it the scan closes what the expression was part of. An
error that has been recorded makes the result null. -/
def ReadsExpr (tokens : List Token) (n : Nat) (x : Parse ExprNode) : Prop :=
  ∀ st r s, Enough tokens n st → Agrees r st →
    Ensures x st
      (fun node st' => st.currTokenIndex ≤ st'.currTokenIndex ∧
        ∃ r', (∃ t ts, ahead tokens st' = t :: ts) ∧ Adds r node st' r' ∧
          scan ⟨.operand, false, r, s⟩ (ahead tokens st) =
            proceed (fun t => close t r' s) (ahead tokens st') ∧
          (st'.errCode ≠ .success → node = .null))
      (Overruns (scan ⟨.operand, false, r, s⟩ (ahead tokens st)))

section

variable {r r' : Report} {node : ExprNode}

theorem Agrees.seen (h : Agrees r st) : Agrees r.seen st := h

theorem Agrees.fail (type : TokenType) (msg : String) :
    Agrees r.fail { st with errCode := .badToken, context := some (type, msg) } := by
  simp [Agrees, Report.fail]

theorem Adds.missing (h : Agrees r st) : Adds r .null st r.missing :=
  ⟨h, fun he => he, fun _ => by simp [Report.missing, ExprNode.not_wellFormed_null],
    fun _ => by simp [Report.missing]⟩

theorem Adds.failed (h : Agrees r' st) (herr : r'.err = true) : Adds r node st r' := by
  have hne : r'.err ≠ false := ne_of_eq_of_ne herr (by decide)
  exact ⟨h, fun he => absurd he hne, fun he => absurd he hne, fun he => absurd he hne⟩

theorem Adds.fail (type : TokenType) (msg : String) :
    Adds r node { st with errCode := .badToken, context := some (type, msg) } r'.fail :=
  .failed (.fail type msg) rfl

theorem Adds.ofNode {k : Nat} {cb : EvalCallback} {ty : TokenType} {val : Int}
    {sym : Option SymbolName} {ch : List ExprNode} (hag : Agrees r' st)
    (harity : ∀ n ∈ cb.operands, ch.length = n) (herr : r'.err = false → r.err = false)
    (hgap : r'.err = false → (r'.gap = true ↔ r.gap = true ∨ ∃ c ∈ ch, ¬ c.WellFormed))
    (hbare : r'.err = false → r'.bare = false) : Adds r (.mk k cb ty val sym ch) st r' := by
  refine ⟨hag, herr, fun he => ?_, fun he => by simp [hbare he]⟩
  rw [hgap he, ExprNode.wellFormed_mk]
  simp only [not_and, not_forall]
  constructor
  · rintro (h | ⟨c, hc, h⟩)
    · exact Or.inl h
    · exact Or.inr fun _ => ⟨c, hc, h⟩
  · rintro (h | h)
    · exact Or.inl h
    · obtain ⟨c, hc, h⟩ := h harity
      exact Or.inr ⟨c, hc, h⟩

theorem Adds.binary {r₀ : Report} {left right : ExprNode} {st₁ st₂ : ParserState} {k : Nat}
    {cb : EvalCallback} {ty : TokenType} {val : Int} {sym : Option SymbolName}
    (hl : Adds r₀ left st r) (hr : Adds r.seen right st₁ r') (hag : Agrees r' st₂)
    (harity : ∀ n ∈ cb.operands, [left, right].length = n) :
    Adds r₀ (.mk k cb ty val sym [left, right]) st₂ r' := by
  refine .ofNode hag harity (fun he => hl.err (hr.err he)) (fun he => ?_) fun he => ?_
  · have hl' := hl.gap (hr.err he)
    rw [hr.gap he]
    simp only [Report.seen, hl', List.mem_cons, List.not_mem_nil, or_false, exists_eq_or_imp,
      exists_eq_left, or_assoc]
  · simpa [Report.seen] using hr.bare he

end

section

variable {next : Bool → Bool} {stop : Bool → TokenType → Prop}
  {ops : List (TokenType × TokenType)} {operand : Parse ExprNode}

theorem Enough.advance (h : Enough tokens n st) (hlt : st.currTokenIndex < tokens.length) :
    Enough tokens n st.advance := by
  unfold Enough ParserState.advance at *
  dsimp only
  omega

private theorem binOpLoop_reads (hops : ops ≠ [])
    (hmove : ∀ t op, (t, op) ∈ ops → ∀ equ r s, stop equ t →
      atOperator equ r s t = .go ⟨.operand, next equ, r.seen, s⟩)
    (hx : ReadsLevel tokens n next stop operand) (k : Nat) {node : ExprNode} {r₀ r : Report}
    {equ : Bool} {s : List Frame} (hk : tokens.length + 2 ≤ k + st.currTokenIndex)
    (hn : Enough tokens n st) (hstop : ∃ t ts, ahead tokens st = t :: ts ∧ stop equ t)
    (hadds : Adds r₀ node st r) :
    Ensures (binOpLoop tokens ops operand k node) st
      (fun node' st' => st.currTokenIndex ≤ st'.currTokenIndex ∧
        ∃ r' equ', next equ' = next equ ∧
          (∃ t ts, ahead tokens st' = t :: ts ∧ stop equ' t ∧ ∀ op, (t, op) ∉ ops) ∧
          Adds r₀ node' st' r' ∧
          scan ⟨.operator, equ, r, s⟩ (ahead tokens st) =
            scan ⟨.operator, equ', r', s⟩ (ahead tokens st'))
      (Overruns (scan ⟨.operator, equ, r, s⟩ (ahead tokens st))) := by
  obtain ⟨t, ts, hahead, hstop⟩ := hstop
  have hlt := lt_of_ahead hahead
  induction k generalizing node r equ st t ts with
  | zero => omega
  | succ k ih =>
      unfold binOpLoop
      rw [ensures_bind]
      refine ensures_consumeOneOf_ahead hahead (fun op hmem => ?_) (fun hnot => ?_) hops
      · have hscan : scan ⟨.operator, equ, r, s⟩ (ahead tokens st) =
            scan ⟨.operand, next equ, r.seen, s⟩ (ahead tokens st.advance) := by
          rw [hahead, (ahead_cons hahead).2]
          exact scan_go (c := ⟨.operator, equ, r, s⟩) (hmove t op hmem equ r s hstop) ts
        simp only [ensures_bind, ensures_allocate]
        rw [hscan]
        refine (hx st.advance equ r.seen s (hn.advance hlt) hadds.agrees).mono ?_
          fun _ he => he
        rintro right st₁ ⟨hle, r₁, equ₁, hnext₁, ⟨t₁, ts₁, hahead₁, hstop₁⟩, hadds₁, hscan₁⟩
        have hidx : st.advance.currTokenIndex = st.currTokenIndex + 1 := rfl
        rw [hscan₁]
        have hlt₁ := lt_of_ahead hahead₁
        have henough := hn.2
        refine Ensures.mono (ih (by dsimp only; omega) ⟨by dsimp only; omega, by dsimp only; omega⟩
          ?_ t₁ ts₁ hahead₁ hstop₁ hlt₁) ?_ fun _ he => he
        · exact hadds.binary hadds₁ hadds₁.agrees (by simp)
        · rintro node' st' ⟨hle', r', equ', hnext', hrest⟩
          dsimp only at hle'
          exact ⟨by omega, r', equ', hnext'.trans hnext₁, hrest⟩
      · exact ⟨Nat.le_refl _, r, equ, rfl, ⟨t, ts, hahead, hstop, hnot⟩, hadds, rfl⟩

theorem binOpChain_reads (hops : ops ≠ [])
    (hmove : ∀ t op, (t, op) ∈ ops → ∀ equ r s, stop equ t →
      atOperator equ r s t = .go ⟨.operand, next equ, r.seen, s⟩)
    (hx : ReadsLevel tokens n next stop operand) :
    ReadsLevel tokens n next (fun equ t => stop equ t ∧ ∀ op, (t, op) ∉ ops)
      (binOpChain tokens ops operand n) := by
  intro st equ r s hn hag
  unfold binOpChain
  rw [ensures_bind]
  refine (hx st equ r s hn hag).mono ?_ fun _ he => he
  rintro node st₁ ⟨hle, r₁, equ₁, hnext, ⟨t, ts, hahead, hstop⟩, hadds, hscan⟩
  have hlt := lt_of_ahead hahead
  rw [hscan]
  have := hn.2
  refine (binOpLoop_reads hops hmove hx n (by omega) ⟨by omega, by omega⟩ ⟨t, ts, hahead, hstop⟩
    hadds).mono ?_ fun _ he => he
  rintro node' st' ⟨hle', r', equ', hnext', hrest⟩
  exact ⟨by omega, r', equ', hnext'.trans hnext, hrest⟩

end

section

variable {rec : Parse ExprNode}

/-- `x` reads an operand without a sign; the token behind it may be missing. -/
def ReadsPrim (tokens : List Token) (n : Nat) (x : Parse ExprNode) : Prop :=
  ∀ st equ r s, Enough tokens n st → Agrees r st →
    (∀ t ts, ahead tokens st = t :: ts → t.isSign = false) →
    Ensures x st
      (fun node st' => st.currTokenIndex ≤ st'.currTokenIndex ∧
        st'.currTokenIndex ≤ tokens.length ∧ ∃ r', Adds r node st' r' ∧
          scan ⟨.operand, equ, r, s⟩ (ahead tokens st) =
            scan ⟨.operator, equ, r', s⟩ (ahead tokens st'))
      (Overruns (scan ⟨.operand, equ, r, s⟩ (ahead tokens st)))

theorem Enough.less (h : Enough tokens n st) {st' : ParserState}
    (hlt : st.currTokenIndex < st'.currTokenIndex) (hle : st'.currTokenIndex ≤ tokens.length) :
    Enough tokens (n - 1) st' := by
  unfold Enough at *
  omega

private def atArgument (equ : Bool) (r : Report) (s : List Frame) (args : List ExprNode) :
    List TokenType → Verdict :=
  if args = [] then scan ⟨.firstArg, equ, r, s⟩
  else proceed fun t => close t r (.arg equ :: s)

private theorem atArgument_nil (equ : Bool) (r : Report) (s : List Frame) (args : List ExprNode) :
    atArgument equ r s args [] = .overrun := by
  unfold atArgument
  split <;> rfl

private theorem atArgument_rightBracket (equ : Bool) (r : Report) (s : List Frame)
    (args : List ExprNode) (ts : List TokenType) :
    atArgument equ r s args (.rightBracket :: ts) = scan ⟨.operator, equ, r, s⟩ ts := by
  unfold atArgument
  split
  · exact scan_go rfl ts
  · exact proceed_go rfl ts

private def ReadsArguments (tokens : List Token) (r₀ : Report) (equ : Bool) (s : List Frame)
    (st : ParserState) (v : Verdict) (o : Option (List ExprNode)) (st' : ParserState) : Prop :=
  st.currTokenIndex ≤ st'.currTokenIndex ∧ st'.currTokenIndex ≤ tokens.length ∧
    ∃ r', Agrees r' st' ∧
      (r'.err = false → r₀.err = false ∧ r'.bare = false ∧ ∃ args', o = some args' ∧
        (r'.gap = true ↔ r₀.gap = true ∨ ∃ c ∈ args', ¬ c.WellFormed)) ∧
      v = scan ⟨.operator, equ, r', s⟩ (ahead tokens st')

private theorem funcCallLoop_reads (hrec : ReadsExpr tokens (n - 1) rec) (k : Nat)
    (args : List ExprNode) (r₀ r : Report) (equ : Bool) (s : List Frame)
    (hle : st.currTokenIndex ≤ tokens.length)
    (hk : tokens.length + (if args = [] then 2 else 1) ≤ k + st.currTokenIndex)
    (hn : tokens.length + 2 < n + st.currTokenIndex) (hag : Agrees r st)
    (herr : r.err = false → r₀.err = false)
    (hgap : r.err = false → (r.gap = true ↔ r₀.gap = true ∨ ∃ c ∈ args, ¬ c.WellFormed))
    (hbare : r.err = false → r.bare = false) :
    Ensures (funcCallLoop tokens rec k args) st
      (ReadsArguments tokens r₀ equ s st (atArgument equ r s args (ahead tokens st)))
      (Overruns (atArgument equ r s args (ahead tokens st))) := by
  induction k generalizing args r st with
  | zero => split at hk <;> omega
  | succ k ih =>
      unfold funcCallLoop
      rw [ensures_bind, ensures_consumeToken]
      refine ⟨fun hnil => ⟨rfl, by rw [hnil, atArgument_nil]⟩, fun t ts hahead => ?_⟩
      have hlt := lt_of_ahead hahead
      by_cases hclose : t = .rightBracket
      · subst hclose
        rw [if_pos rfl]
        refine ⟨Nat.le_succ _, hlt, r, hag, fun he =>
          ⟨herr he, hbare he, args, rfl, hgap he⟩, ?_⟩
        rw [hahead, (ahead_cons hahead).2, atArgument_rightBracket]
      rw [if_neg hclose]
      simp only [Bool.false_eq_true, if_false]
      have harg : ∀ st₁ : ParserState, st.currTokenIndex ≤ st₁.currTokenIndex →
          st₁.currTokenIndex ≤ tokens.length → tokens.length + 1 ≤ k + st₁.currTokenIndex →
          Agrees r st₁ →
          atArgument equ r s args (ahead tokens st) =
            scan ⟨.operand, false, r, .arg equ :: s⟩ (ahead tokens st₁) →
          Ensures (rec >>= fun arg => funcCallLoop tokens rec k (args ++ [arg])) st₁
            (ReadsArguments tokens r₀ equ s st (atArgument equ r s args (ahead tokens st)))
            (Overruns (atArgument equ r s args (ahead tokens st))) := by
        intro st₁ hle₁ hlen₁ hk₁ hag₁ hscan₁
        rw [hscan₁, ensures_bind]
        refine (hrec st₁ r (.arg equ :: s) ⟨hlen₁, by omega⟩ hag₁).mono ?_ fun _ he => he
        rintro arg st₂ ⟨hle₂, r₂, ⟨t₂, ts₂, hahead₂⟩, hadds₂, hscan₂, -⟩
        have hlt₂ := lt_of_ahead hahead₂
        have hne : args ++ [arg] ≠ [] := by simp
        have hat : atArgument equ r₂ s (args ++ [arg]) (ahead tokens st₂) =
            proceed (fun t => close t r₂ (.arg equ :: s)) (ahead tokens st₂) := by
          unfold atArgument
          rw [if_neg hne]
        rw [hscan₂, ← hat]
        refine (ih _ _ (by omega) (by rw [if_neg hne]; omega) (by omega) hadds₂.agrees
          (fun he => herr (hadds₂.err he)) (fun he => ?_) fun he => ?_).mono ?_ fun _ he => he
        · rw [hadds₂.gap he, hgap (hadds₂.err he)]
          simp only [List.mem_append, List.mem_singleton, or_and_right, exists_or, exists_eq_left,
            or_assoc]
        · have hb := hadds₂.bare he
          rw [hbare (hadds₂.err he)] at hb
          simpa using hb
        · rintro o st' ⟨hle', hrest⟩
          exact ⟨by omega, hrest⟩
      by_cases hargs : args = []
      · subst hargs
        rw [if_neg (by simp)]
        rw [if_pos rfl] at hk
        apply harg st (Nat.le_refl _) hle (by omega) hag
        unfold atArgument
        rw [if_pos rfl, hahead, scan_eq_proceed, scan_eq_proceed]
        exact proceed_congr (by simp [move, hclose]) ts
      · rw [if_pos (List.length_pos_iff.mpr hargs)]
        rw [if_neg hargs] at hk
        rw [ensures_bind, ensures_consumeToken_ahead hahead]
        by_cases hcomma : t = .comma
        · subst hcomma
          rw [if_pos rfl]
          simp only [Bool.not_true, Bool.false_eq_true, if_false]
          have hidx : st.advance.currTokenIndex = st.currTokenIndex + 1 := rfl
          apply harg st.advance (Nat.le_succ _) hlt (by omega) hag
          unfold atArgument
          rw [if_neg hargs, hahead, (ahead_cons hahead).2]
          exact proceed_go (by simp [close]) ts
        · rw [if_neg hcomma]
          simp only [Bool.not_false, if_true, ensures_bind, ensures_badToken, ensures_pure]
          refine ⟨Nat.le_refl _, hle, r.fail, .fail .comma "Expected ','", fun he => ?_, ?_⟩
          · simp [Report.fail] at he
          · unfold atArgument
            rw [if_neg hargs]
            change _ = scan _ (ahead tokens st)
            rw [hahead, scan_eq_proceed]
            exact proceed_congr (by simp [close, hclose, hcomma, move, atOperator]) ts

private theorem Adds.value {k : Nat} {ty : TokenType} {val : Int} {sym : Option SymbolName}
    {r : Report} (hag : Agrees r st) : Adds r (.mk k .val ty val sym []) st r.seen :=
  .ofNode hag (by simp) (fun he => he)
    (fun _ => by simp [Report.seen]) fun _ => rfl

private theorem parseFuncCall_reads (hrec : ReadsExpr tokens (n - 1) rec) {r : Report}
    (symbol : Option SymbolName) (equ : Bool) (s : List Frame)
    (hle : st.currTokenIndex ≤ tokens.length)
    (hn : tokens.length + 2 < n + st.currTokenIndex) (hag : Agrees r st) :
    Ensures (parseFuncCall tokens rec n symbol) st
      (fun node st' => st.currTokenIndex ≤ st'.currTokenIndex ∧
        st'.currTokenIndex ≤ tokens.length ∧ ∃ r', Adds r node st' r' ∧
          scan ⟨.firstArg, equ, r.seen, s⟩ (ahead tokens st) =
            scan ⟨.operator, equ, r', s⟩ (ahead tokens st'))
      (Overruns (scan ⟨.firstArg, equ, r.seen, s⟩ (ahead tokens st))) := by
  unfold parseFuncCall
  rw [ensures_bind]
  have hloop := funcCallLoop_reads hrec n [] r r.seen equ s hle (by rw [if_pos rfl]; omega) hn
    hag.seen (fun he => he) (by simp [Report.seen])
    (fun _ => rfl)
  refine hloop.mono ?_ fun _ he => he
  rintro o st' ⟨hle', hlen', r', hag', hquiet, hscan⟩
  cases o with
  | none =>
      have herr : r'.err ≠ false := by
        intro he
        obtain ⟨-, -, args', ho, -⟩ := hquiet he
        simp at ho
      exact ⟨hle', hlen', r', .failed hag' (Bool.of_not_eq_false herr), hscan⟩
  | some args =>
      rw [ensures_allocate]
      refine ⟨hle', hlen', r', .ofNode hag' (by simp)
        (fun he => (hquiet he).1) (fun he => ?_) (fun he => (hquiet he).2.1), hscan⟩
      obtain ⟨-, -, args', ho, hgap⟩ := hquiet he
      rw [Option.some.inj ho]
      exact hgap

theorem parsePrim_reads (hrec : ReadsExpr tokens (n - 1) rec) :
    ReadsPrim tokens n (parsePrim tokens rec n) := by
  intro st equ r s hn hag hsign
  have hlen := hn.2
  unfold parsePrim
  rw [ensures_bind, ensures_consumeToken]
  refine ⟨fun hnil => ⟨rfl, by rw [hnil]; rfl⟩, fun t ts hahead => ?_⟩
  have hlt := lt_of_ahead hahead
  have hidx : st.advance.currTokenIndex = st.currTokenIndex + 1 := rfl
  have hscan : ∀ c, move ⟨.operand, equ, r, s⟩ t = .go c →
      scan ⟨.operand, equ, r, s⟩ (ahead tokens st) = scan c (ahead tokens st.advance) := by
    intro c hc
    rw [hahead, (ahead_cons hahead).2, scan_go hc]
  by_cases hopen : t = .leftBracket
  · subst hopen
    rw [if_pos rfl, hscan _ rfl]
    simp only [if_true, ensures_bind]
    refine (hrec st.advance r (.paren equ :: s) (hn.less (by omega) (by omega)) hag).mono ?_
      fun _ he => he
    rintro node st₁ ⟨hle, r₁, ⟨t₁, ts₁, hahead₁⟩, hadds, hscan₁, -⟩
    have hlt₁ := lt_of_ahead hahead₁
    rw [hscan₁, ensures_consumeToken_ahead hahead₁]
    by_cases hclose : t₁ = .rightBracket
    · subst hclose
      rw [if_pos rfl]
      have hidx₁ : st₁.advance.currTokenIndex = st₁.currTokenIndex + 1 := rfl
      refine ⟨by omega, by omega, r₁, ⟨hadds.agrees, hadds.err, hadds.gap, hadds.bare⟩, ?_⟩
      rw [hahead₁, (ahead_cons hahead₁).2]
      exact proceed_go (by simp [close]) ts₁
    · rw [if_neg hclose]
      simp only [Bool.not_false, if_true, ensures_bind, ensures_badToken, ensures_pure]
      refine ⟨by omega, by omega, r₁.fail, .fail _ _, ?_⟩
      change _ = scan _ (ahead tokens st₁)
      rw [hahead₁, scan_eq_proceed]
      exact proceed_congr (by simp [close, hclose, move, atOperator]) ts₁
  rw [if_neg hopen]
  simp only [Bool.false_eq_true, if_false]
  rw [ensures_bind, ensures_consumeToken_ahead hahead]
  by_cases hlit : t = .literal
  · subst hlit
    rw [if_pos rfl]
    simp only [if_true, ensures_bind]
    obtain ⟨⟨token, hget, -⟩, -⟩ := ahead_cons hahead
    apply ensures_previousToken hget
    rw [ensures_allocate]
    exact ⟨by dsimp only; omega, by dsimp only; omega, r.seen, .value hag, hscan _ rfl⟩
  rw [if_neg hlit]
  simp only [Bool.false_eq_true, if_false]
  rw [ensures_bind, ensures_consumeToken_ahead hahead]
  by_cases hconst : t = .builtinConstant
  · subst hconst
    rw [if_pos rfl]
    simp only [if_true, ensures_bind]
    obtain ⟨⟨token, hget, -⟩, -⟩ := ahead_cons hahead
    apply ensures_previousToken hget
    rw [ensures_allocate]
    exact ⟨by dsimp only; omega, by dsimp only; omega, r.seen, .value hag, hscan _ rfl⟩
  rw [if_neg hconst]
  simp only [Bool.false_eq_true, if_false]
  rw [ensures_bind, ensures_consumeToken_ahead hahead]
  by_cases hfunc : t = .builtinFunc
  · subst hfunc
    rw [if_pos rfl, hscan _ rfl]
    simp only [if_true, ensures_bind]
    obtain ⟨⟨temp, hget, -⟩, -⟩ := ahead_cons hahead
    apply ensures_previousToken hget
    rw [ensures_consumeToken]
    refine ⟨fun hnil => ⟨rfl, by rw [hnil]; rfl⟩, fun t₁ ts₁ hahead₁ => ?_⟩
    have hlt₁ := lt_of_ahead hahead₁
    by_cases hopen₁ : t₁ = .leftBracket
    · subst hopen₁
      rw [if_pos rfl]
      simp only [Bool.not_true, Bool.false_eq_true, if_false]
      have hidx₁ : st.advance.advance.currTokenIndex = st.currTokenIndex + 2 := rfl
      have hcall := scan_go (c := ⟨.call, equ, r.seen, s⟩) (t := .leftBracket) rfl ts₁
      rw [hahead₁, hcall, ← (ahead_cons hahead₁).2]
      refine Ensures.mono (parseFuncCall_reads hrec temp.pSymbol equ s (by omega) (by omega)
        hag) ?_ fun _ he => he
      rintro node st' ⟨hle', hlen', hrest⟩
      exact ⟨by omega, hlen', hrest⟩
    · rw [if_neg hopen₁]
      simp only [Bool.not_false, if_true, ensures_bind, ensures_badToken, ensures_pure]
      refine ⟨by omega, by omega, r.seen.fail, .fail _ _, ?_⟩
      change _ = scan _ (ahead tokens st.advance)
      rw [hahead₁, scan_eq_proceed, scan_eq_proceed]
      exact proceed_congr (by simp [hopen₁, move]) ts₁
  rw [if_neg hfunc]
  simp only [Bool.false_eq_true, if_false, ensures_pure]
  refine ⟨Nat.le_refl _, hn.1, r.missing, .missing hag, ?_⟩
  rw [hahead, scan_eq_proceed, scan_eq_proceed]
  exact proceed_congr (by simp [move, atOperand, hsign t ts hahead, hopen, hlit, hconst, hfunc]) ts

private theorem postfixLoop_reads (k : Nat) {node : ExprNode} {r₀ r : Report} {equ : Bool}
    {s : List Frame} (hle : st.currTokenIndex ≤ tokens.length)
    (hk : tokens.length + 2 ≤ k + st.currTokenIndex) (hadds : Adds r₀ node st r) :
    Ensures (postfixLoop tokens k node) st
      (fun node' st' => st.currTokenIndex ≤ st'.currTokenIndex ∧
        ∃ r', (∃ t ts, ahead tokens st' = t :: ts ∧ t ≠ .fact) ∧ Adds r₀ node' st' r' ∧
          scan ⟨.operator, equ, r, s⟩ (ahead tokens st) =
            scan ⟨.operator, equ, r', s⟩ (ahead tokens st'))
      (Overruns (scan ⟨.operator, equ, r, s⟩ (ahead tokens st))) := by
  induction k generalizing node r st with
  | zero => omega
  | succ k ih =>
      unfold postfixLoop
      rw [ensures_bind]
      refine ensures_consumeOneOf (fun hnil => ⟨rfl, by rw [hnil]; rfl⟩)
        (fun t ts op hahead hmem => ?_) (fun t ts hahead hnot => ?_) (by simp)
      · have hlt := lt_of_ahead hahead
        have hidx : st.advance.currTokenIndex = st.currTokenIndex + 1 := rfl
        simp only [List.mem_singleton, Prod.mk.injEq] at hmem
        obtain ⟨rfl, rfl⟩ := hmem
        simp only [ensures_bind, ensures_allocate]
        rw [hahead, scan_go (c := ⟨.operator, equ, r, s⟩) rfl, ← (ahead_cons hahead).2]
        refine Ensures.mono (ih (r := r.seen) (by dsimp only; omega) (by dsimp only; omega)
          (.ofNode hadds.agrees (by simp) hadds.err (fun he => ?_)
            fun _ => rfl)) ?_ fun _ he => he
        · simpa [Report.seen] using hadds.gap he
        · rintro node' st' ⟨hle', hrest⟩
          dsimp only at hle'
          exact ⟨by omega, hrest⟩
      · refine ⟨Nat.le_refl _, r, ⟨t, ts, hahead, fun heq => ?_⟩, hadds, rfl⟩
        exact hnot .fact (by simp [heq])

private theorem parsePostfixOp_reads (hrec : ReadsExpr tokens (n - 1) rec) {equ : Bool} {r : Report}
    {s : List Frame} (hn : Enough tokens n st) (hag : Agrees r st)
    (hsign : ∀ t ts, ahead tokens st = t :: ts → t.isSign = false) :
    Ensures (parsePostfixOp tokens rec n) st
      (fun node st' => st.currTokenIndex ≤ st'.currTokenIndex ∧
        ∃ r', (∃ t ts, ahead tokens st' = t :: ts ∧ t ≠ .fact) ∧ Adds r node st' r' ∧
          scan ⟨.operand, equ, r, s⟩ (ahead tokens st) =
            scan ⟨.operator, equ, r', s⟩ (ahead tokens st'))
      (Overruns (scan ⟨.operand, equ, r, s⟩ (ahead tokens st))) := by
  have hlen := hn.2
  unfold parsePostfixOp
  rw [ensures_bind]
  refine (parsePrim_reads hrec st equ r s hn hag hsign).mono ?_ fun _ he => he
  rintro node st₁ ⟨hle, hle₁, r₁, hadds, hscan⟩
  rw [hscan]
  refine (postfixLoop_reads n hle₁ (by omega) hadds).mono ?_ fun _ he => he
  rintro node' st' ⟨hle', hrest⟩
  exact ⟨by omega, hrest⟩

private theorem parseUnaryOp_reads (hrec : ReadsExpr tokens (n - 1) rec) (k : Nat) {equ : Bool}
    {r : Report} {s : List Frame} (hk : tokens.length + 2 ≤ k + st.currTokenIndex)
    (hn : Enough tokens n st) (hag : Agrees r st) :
    Ensures (parseUnaryOp tokens rec n k) st
      (fun node st' => st.currTokenIndex ≤ st'.currTokenIndex ∧
        ∃ r', (∃ t ts, ahead tokens st' = t :: ts ∧ t ≠ .fact) ∧ Adds r node st' r' ∧
          scan ⟨.operand, equ, r, s⟩ (ahead tokens st) =
            scan ⟨.operator, equ, r', s⟩ (ahead tokens st'))
      (Overruns (scan ⟨.operand, equ, r, s⟩ (ahead tokens st))) := by
  induction k generalizing r st with
  | zero =>
      have hle := hn.1
      omega
  | succ k ih =>
      unfold parseUnaryOp
      rw [ensures_bind]
      refine ensures_consumeOneOf (fun hnil => ⟨rfl, by rw [hnil]; rfl⟩)
        (fun t ts op hahead hmem => ?_) (fun t ts hahead hnot => ?_) (by simp)
      · have hlt := lt_of_ahead hahead
        have hidx : st.advance.currTokenIndex = st.currTokenIndex + 1 := rfl
        have hsign : t.isSign = true := by
          simp only [List.mem_cons, Prod.mk.injEq, List.not_mem_nil, or_false] at hmem
          rcases hmem with ⟨rfl, -⟩ | ⟨rfl, -⟩ | ⟨rfl, -⟩ <;> rfl
        have hscan : scan ⟨.operand, equ, r, s⟩ (ahead tokens st) =
            scan ⟨.operand, equ, r.seen, s⟩ (ahead tokens st.advance) := by
          rw [hahead, (ahead_cons hahead).2]
          exact scan_go (c := ⟨.operand, equ, r, s⟩) (by simp [move, atOperand, hsign]) ts
        simp only [ensures_bind]
        rw [hscan]
        refine (ih (by omega) (hn.advance hlt) hag.seen).mono ?_ fun _ he => he
        rintro child st₁ ⟨hle, r₁, hhead, hadds, hscan₁⟩
        rw [ensures_allocate]
        refine ⟨by dsimp only; omega, r₁, hhead, .ofNode hadds.agrees
          (by simp) hadds.err (fun he => ?_) (fun he => ?_), hscan₁⟩
        · simpa [Report.seen] using hadds.gap he
        · simpa [Report.seen] using hadds.bare he
      · refine parsePostfixOp_reads hrec hn hag fun t' ts' hahead' => ?_
        obtain ⟨rfl, rfl⟩ := List.cons.inj (hahead.symm.trans hahead')
        by_contra hsign
        simp only [TokenType.isSign, List.mem_cons, List.not_mem_nil, or_false, decide_eq_true_eq,
          Bool.not_eq_false] at hsign
        rcases hsign with rfl | rfl | rfl
        · exact hnot .add (by simp)
        · exact hnot .sub (by simp)
        · exact hnot .not (by simp)

private theorem atOperator_tight {t : TokenType} (h : t.isTight = true) (equ : Bool) (r : Report)
    (s : List Frame) : atOperator equ r s t = .go ⟨.operand, equ, r.seen, s⟩ := by
  have hfact : t ≠ .fact := by
    rintro rfl
    simp [TokenType.isTight] at h
  simp [atOperator, operatorOr, hfact, h]

private theorem atOperator_bitwise {t : TokenType} (h : t.isBitwise = true) (equ : Bool)
    (r : Report) (s : List Frame) : atOperator equ r s t = .go ⟨.operand, false, r.seen, s⟩ := by
  simp only [TokenType.isBitwise, List.mem_cons, List.not_mem_nil, or_false,
    decide_eq_true_eq] at h
  rcases h with rfl | rfl | rfl <;> rfl

private theorem tight_reads {stop : Bool → TokenType → Prop} {operand : Parse ExprNode}
    (ops : List (TokenType × TokenType)) (hops : ops ≠ []) (htight : ∀ p ∈ ops, p.1.isTight = true)
    (hx : ReadsLevel tokens n id stop operand) :
    ReadsLevel tokens n id (fun equ t => stop equ t ∧ ∀ op, (t, op) ∉ ops)
      (binOpChain tokens ops operand n) :=
  binOpChain_reads hops (fun t op hmem _ _ _ _ => atOperator_tight (htight (t, op) hmem) _ _ _) hx

private theorem bitwise_reads {stop : Bool → TokenType → Prop} {operand : Parse ExprNode}
    (op : TokenType) (hop : op.isBitwise = true)
    (hx : ReadsLevel tokens n (fun _ => false) stop operand) :
    ReadsLevel tokens n (fun _ => false) (fun equ t => stop equ t ∧ ∀ op', (t, op') ∉ [(op, op)])
      (binOpChain tokens [(op, op)] operand n) := by
  refine binOpChain_reads (by simp) (fun t op' hmem equ r s _ => ?_) hx
  simp only [List.mem_singleton, Prod.mk.injEq] at hmem
  obtain ⟨rfl, rfl⟩ := hmem
  exact atOperator_bitwise hop equ r s

theorem ReadsLevel.weaken {next : Bool → Bool} {stop stop' : Bool → TokenType → Prop}
    {x : Parse ExprNode} (hx : ReadsLevel tokens n next stop x)
    (h : ∀ equ t, stop equ t → stop' equ t) : ReadsLevel tokens n next stop' x := by
  intro st equ r s hn hag
  refine (hx st equ r s hn hag).mono ?_ fun _ he => he
  rintro node st' ⟨hle, r', equ', hnext, ⟨t, ts, hahead, hstop⟩, hrest⟩
  exact ⟨hle, r', equ', hnext, ⟨t, ts, hahead, h equ' t hstop⟩, hrest⟩

private theorem not_offered {t : TokenType} {ops : List (TokenType × TokenType)}
    (h : ∀ op, (t, op) ∉ ops) : t ∉ ops.map Prod.fst := by
  intro hmem
  obtain ⟨⟨_, op⟩, hop, rfl⟩ := List.mem_map.mp hmem
  exact h op hop

theorem parseCmp_reads (hrec : ReadsExpr tokens (n - 1) rec) :
    ReadsLevel tokens n id (fun _ t => t ≠ .fact ∧ t.isTight = false)
      (parseCmp tokens rec n) := by
  have hunary : ReadsLevel tokens n id (fun _ t => t ≠ .fact) (parseUnaryOp tokens rec n n) := by
    intro st equ r s hn hag
    refine (parseUnaryOp_reads hrec n hn.2 hn hag).mono ?_ fun _ he => he
    rintro node st' ⟨hle, r', hhead, hrest⟩
    exact ⟨hle, r', equ, rfl, hhead, hrest⟩
  have hpow := tight_reads [(.pow, .pow)] (by simp) (by decide) hunary
  have hmul := tight_reads [(.mul, .mul), (.div, .div), (.mod, .mod)] (by simp)
    (by decide) hpow
  have hadd := tight_reads [(.add, .add), (.sub, .sub)] (by simp) (by decide) hmul
  have hshift := tight_reads [(.shiftLeft, .shiftLeft), (.shiftRight, .shiftRight)]
    (by simp) (by decide) hadd
  have hcmp := tight_reads [(.lt, .lt), (.le, .lt), (.gt, .lt), (.ge, .lt)] (by simp)
    (by decide) hshift
  apply hcmp.weaken
  rintro equ t ⟨⟨⟨⟨⟨hfact, h₁⟩, h₂⟩, h₃⟩, h₄⟩, h₅⟩
  refine ⟨hfact, decide_eq_false fun hmem => ?_⟩
  -- the tokens of all levels, in their order
  have hlevels : t ∈ [.pow] ++ ([.mul, .div, .mod] ++ ([.add, .sub] ++
      ([.shiftLeft, .shiftRight] ++ [.lt, .le, .gt, .ge]))) := hmem
  simp only [List.mem_append] at hlevels
  rcases hlevels with hpow | hmul | hadd | hshift | hcmp
  · exact not_offered h₁ hpow
  · exact not_offered h₂ hmul
  · exact not_offered h₃ hadd
  · exact not_offered h₄ hshift
  · exact not_offered h₅ hcmp

theorem parseEqu_reads (hrec : ReadsExpr tokens (n - 1) rec) :
    ReadsLevel tokens n (fun _ => false)
      (fun equ t => t ≠ .fact ∧ t.isTight = false ∧ (t.isEquality = true → equ = true))
      (parseEqu tokens rec n) := by
  intro st equ r s hn hag
  have hlen := hn.2
  unfold parseEqu
  rw [ensures_bind]
  refine (parseCmp_reads hrec st false r s hn hag).mono ?_ fun _ he => he
  rintro node st₁ ⟨hle, r₁, equ₁, hequ₁, ⟨t, ts, hahead, hstop⟩, hadds, hscan⟩
  simp only [id] at hequ₁
  subst hequ₁
  simp only [id] at hscan
  rw [hscan, ensures_bind]
  have hlt := lt_of_ahead hahead
  refine ensures_consumeOneOf_ahead hahead (fun op hmem => ?_) (fun hnot => ?_) (by simp)
  · have hidx : st₁.advance.currTokenIndex = st₁.currTokenIndex + 1 := rfl
    have hmove : move ⟨.operator, false, r₁, s⟩ t = .go ⟨.operand, true, r₁.seen, s⟩ := by
      simp only [List.mem_cons, Prod.mk.injEq, List.not_mem_nil, or_false] at hmem
      rcases hmem with ⟨rfl, -⟩ | ⟨rfl, -⟩ <;> rfl
    rw [hahead, scan_go hmove, ← (ahead_cons hahead).2]
    simp only [ensures_bind]
    refine (parseCmp_reads hrec st₁.advance true r₁.seen s ⟨by omega, by omega⟩
      hadds.agrees.seen).mono ?_ fun _ he => he
    rintro right st₂ ⟨hle₂, r₂, equ₂, hequ₂, ⟨t₂, ts₂, hahead₂, hstop₂⟩, hadds₂, hscan₂⟩
    simp only [id] at hequ₂ hscan₂
    rw [ensures_allocate]
    refine ⟨by dsimp only; omega, r₂, equ₂, trivial, ⟨t₂, ts₂, hahead₂, hstop₂.1, hstop₂.2,
      fun _ => hequ₂⟩, hadds.binary hadds₂ hadds₂.agrees (by simp), hscan₂⟩
  · refine ⟨hle, r₁, false, rfl, ⟨t, ts, hahead, hstop.1, hstop.2, fun hequ => ?_⟩, hadds, rfl⟩
    simp only [TokenType.isEquality, List.mem_cons, List.not_mem_nil, or_false,
      decide_eq_true_eq] at hequ
    rcases hequ with rfl | rfl
    · exact absurd (by simp) (hnot .equ)
    · exact absurd (by simp) (hnot .nequ)

/-- What `parseBitOr` stops at when the equality flag is `equ`. -/
def EndsBitOr (equ : Bool) (t : TokenType) : Prop :=
  t ≠ .fact ∧ t.isTight = false ∧ (t.isEquality = true → equ = true) ∧ t.isBitwise = false

theorem parseBitOr_reads (hrec : ReadsExpr tokens (n - 1) rec) :
    ReadsLevel tokens n (fun _ => false) EndsBitOr (parseBitOr tokens rec n) := by
  have hand := bitwise_reads .and rfl (parseEqu_reads hrec)
  have hxor := bitwise_reads .xor rfl hand
  have hor := bitwise_reads .or rfl hxor
  apply hor.weaken
  rintro equ t ⟨⟨⟨hequ, h₁⟩, h₂⟩, h₃⟩
  refine ⟨hequ.1, hequ.2.1, hequ.2.2, decide_eq_false fun hmem => ?_⟩
  simp only [List.mem_cons, List.not_mem_nil, or_false] at hmem
  rcases hmem with rfl | rfl | rfl
  · exact not_offered h₁ (List.mem_singleton.mpr rfl)
  · exact not_offered h₂ (List.mem_singleton.mpr rfl)
  · exact not_offered h₃ (List.mem_singleton.mpr rfl)

private theorem atOperator_ended {equ : Bool} {t : TokenType} (h : EndsBitOr equ t) (r : Report)
    (s : List Frame) (hq : t = .qmark → r.err = true) : atOperator equ r s t = close t r s := by
  obtain ⟨hfact, htight, hequ, hbit⟩ := h
  have hnequ : ¬ (t.isEquality = true ∧ equ = false) := fun h => by simp [hequ h.1] at h
  have hnq : ¬ (t = .qmark ∧ r.err = false) := fun h => by simp [hq h.1] at h
  unfold atOperator operatorOr
  rw [if_neg hfact, if_neg (by simp [htight]), if_neg hnequ, if_neg (by simp [hbit]), if_neg hnq]

private theorem Agrees.eq_false {r : Report} (h : Agrees r st) (herr : st.errCode = .success) :
    r.err = false := by
  cases he : r.err with
  | false => rfl
  | true => exact absurd herr (h.mp he)

theorem parseConditional_reads (hrec : ReadsExpr tokens (n - 1) rec) :
    ReadsExpr tokens n (parseConditional tokens rec n) := by
  intro st r s hn hag
  have hlen := hn.2
  unfold parseConditional
  rw [ensures_bind]
  refine (parseBitOr_reads hrec st false r s hn hag).mono ?_ fun _ he => he
  rintro condition st₁ ⟨hle, r₁, equ₁, -, ⟨t, ts, hahead, hstop⟩, hadds, hscan⟩
  have hlt := lt_of_ahead hahead
  have hidx : st₁.advance.currTokenIndex = st₁.currTokenIndex + 1 := rfl
  rw [hscan, ensures_bind, ensures_get]
  -- `CKERR` behind the condition
  by_cases herr : st₁.errCode ≠ .success
  · rw [if_pos herr, ensures_pure]
    have he : r₁.err = true := hadds.agrees.mpr herr
    refine ⟨hle, r₁, ⟨t, ts, hahead⟩, .failed hadds.agrees he, ?_, fun _ => rfl⟩
    rw [hahead, scan_eq_proceed]
    exact proceed_congr (atOperator_ended hstop r₁ s fun _ => he) ts
  rw [if_neg herr]
  have hsucc : st₁.errCode = .success := not_not.mp herr
  have he₁ := hadds.agrees.eq_false hsucc
  rw [ensures_bind, ensures_consumeToken_ahead hahead]
  by_cases hq : t = .qmark
  swap
  · rw [if_neg hq]
    simp only [Bool.not_false, if_true, ensures_pure]
    refine ⟨hle, r₁, ⟨t, ts, hahead⟩, hadds, ?_, fun h => absurd h herr⟩
    rw [hahead, scan_eq_proceed]
    exact proceed_congr (atOperator_ended hstop r₁ s fun h => absurd h hq) ts
  subst hq
  rw [if_pos rfl]
  simp only [Bool.not_true, Bool.false_eq_true, if_false, ensures_bind]
  have hmove : move ⟨.operator, equ₁, r₁, s⟩ .qmark =
      .go ⟨.operand, false, r₁.seen, .then_ :: s⟩ := by
    simp [move, atOperator, operatorOr, TokenType.isTight, TokenType.isEquality,
      TokenType.isBitwise, he₁]
  rw [hahead, scan_go hmove, ← (ahead_cons hahead).2]
  refine (hrec st₁.advance r₁.seen (.then_ :: s) ⟨by omega, by omega⟩ hadds.agrees.seen).mono ?_
    fun _ he => he
  rintro then_ st₂ ⟨hle₂, r₂, ⟨t₂, ts₂, hahead₂⟩, hadds₂, hscan₂, -⟩
  have hlt₂ := lt_of_ahead hahead₂
  have hidx₂ : st₂.advance.currTokenIndex = st₂.currTokenIndex + 1 := rfl
  rw [hscan₂, ensures_get]
  -- `CKERR` behind the second operand
  by_cases herr₂ : st₂.errCode ≠ .success
  · rw [if_pos herr₂, ensures_pure]
    have he : r₂.err = true := hadds₂.agrees.mpr herr₂
    refine ⟨by omega, r₂, ⟨t₂, ts₂, hahead₂⟩, .failed hadds₂.agrees he, ?_, fun _ => rfl⟩
    rw [hahead₂]
    exact proceed_congr (by simp [close, he]) ts₂
  rw [if_neg herr₂]
  have he₂ := hadds₂.agrees.eq_false (not_not.mp herr₂)
  rw [ensures_bind, ensures_consumeToken_ahead hahead₂]
  by_cases hcolon : t₂ = .colon
  swap
  · rw [if_neg hcolon]
    simp only [Bool.not_false, if_true, ensures_bind, ensures_badToken, ensures_pure]
    refine ⟨by omega, r₂.fail, ⟨t₂, ts₂, hahead₂⟩, .fail _ _, ?_, fun _ => trivial⟩
    change _ = proceed _ (ahead tokens st₂)
    rw [hahead₂]
    exact proceed_congr (by simp [close, he₂, hcolon]) ts₂
  subst hcolon
  rw [if_pos rfl]
  simp only [Bool.not_true, Bool.false_eq_true, if_false, ensures_bind]
  rw [hahead₂, proceed_go (c := ⟨.operand, false, r₂, .els :: s⟩) (by simp [close, he₂]),
    ← (ahead_cons hahead₂).2]
  refine (hrec st₂.advance r₂ (.els :: s) ⟨by omega, by omega⟩ hadds₂.agrees).mono ?_
    fun _ he => he
  rintro else_ st₃ ⟨hle₃, r₃, ⟨t₃, ts₃, hahead₃⟩, hadds₃, hscan₃, -⟩
  rw [hscan₃, ensures_get]
  have hclose : proceed (fun t => close t r₃ (.els :: s)) (ahead tokens st₃) =
      proceed (fun t => close t r₃ s) (ahead tokens st₃) := rfl
  rw [hclose]
  -- `CKERR` behind the third operand
  by_cases herr₃ : st₃.errCode ≠ .success
  · rw [if_pos herr₃, ensures_pure]
    have he : r₃.err = true := hadds₃.agrees.mpr herr₃
    exact ⟨by omega, r₃, ⟨t₃, ts₃, hahead₃⟩, .failed hadds₃.agrees he, rfl, fun _ => rfl⟩
  rw [if_neg herr₃, ensures_allocate]
  refine ⟨by dsimp only; omega, r₃, ⟨t₃, ts₃, hahead₃⟩, .ofNode hadds₃.agrees
    (by simp) (fun he => hadds.err (hadds₂.err (hadds₃.err he)))
    (fun he => ?_) (fun he => ?_), rfl, fun h => absurd h herr₃⟩
  · rw [hadds₃.gap he, hadds₂.gap he₂]
    simp only [Report.seen, hadds.gap he₁, List.mem_cons, List.not_mem_nil, or_false,
      exists_eq_or_imp, exists_eq_left, or_assoc]
  · have h₃ := hadds₃.bare he
    have h₂ : r₂.bare = false := by simpa [Report.seen] using hadds₂.bare he₂
    simpa [h₂] using h₃

end

theorem parseExpr_reads (tokens : List Token) (n : Nat) :
    ReadsExpr tokens (n - 1) (parseExpr tokens n) := by
  induction n with
  | zero =>
      intro st r s hn
      have := hn.1
      have := hn.2
      omega
  | succ n ih => exact parseConditional_reads ih

/-- `parse` returns or reads behind the last token, and does what the scan does. -/
theorem parse_scan (tokens : List Token) :
    Ensures (parseExpr tokens (tokens.length + 3)) {}
      (fun node st => (st.errCode ≠ .success → node = .null) ∧ ∃ r,
        (∃ t ts, ahead tokens st = t :: ts) ∧ scanTokens tokens = .halted (ahead tokens st) r ∧
        (r.err = true ↔ st.errCode ≠ .success) ∧
        (r.err = false → (r.gap = true ↔ ¬ node.WellFormed) ∧ (r.bare = true ↔ node = .null)))
      (Overruns (scanTokens tokens)) := by
  have h := parseExpr_reads tokens (tokens.length + 3) {} {} []
    ⟨Nat.zero_le _, Nat.le_refl _⟩ (by simp [Agrees])
  refine h.mono ?_ fun _ he => he
  rintro node st ⟨-, r, ⟨t, ts, hahead⟩, hadds, hscan, hnull⟩
  refine ⟨hnull, r, ⟨t, ts, hahead⟩, ?_, hadds.agrees, fun he => ⟨?_, ?_⟩⟩
  · rw [hahead] at hscan ⊢
    exact hscan
  · simpa using hadds.gap he
  · simpa using hadds.bare he

end PGBigNumber.Infix
