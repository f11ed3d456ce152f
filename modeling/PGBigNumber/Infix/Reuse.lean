import PGBigNumber.Infix.Accept
import PGBigNumber.Infix.Grammar
import PGBigNumber.Infix.Tokenizer

/-!
# The parser as an object

An `ExprParser` can be initialised again and again. How far a single parse goes, and what is left of
earlier parses in the next one.
-/

namespace PGBigNumber.Infix

open Outcome

/-- `ExprParser`: `m_tokens`, and what changes while it parses. -/
structure ExprParser where
  tokens : List Token
  st : ParserState

namespace ExprParser

/-- The constructor. The context of the global status is whatever it is at that moment. -/
def construct (tokens : List Token) (pool : NodePool) (context : Option (TokenType × String)) :
    ExprParser := ⟨tokens, { pool, context }⟩

/-- `init`: new tokens from the first one on, and a new pool; nothing is assigned to `m_errCode`. -/
def init (p : ExprParser) (tokens : List Token) (pool : NodePool) : ExprParser :=
  ⟨tokens, { p.st with currTokenIndex := 0, pool }⟩

def parse (p : ExprParser) : Except ParserStop (ExprNode × ExprParser) := do
  let (node, st) ← parseExpr p.tokens (p.tokens.length + 3) p.st
  return (node, { p with st })

def parseAll : ExprParser → List (List Token × NodePool) → Except ParserStop ExprParser
  | p, [] => .ok p
  | p, (tokens, pool) :: streams => do
    let (_, p) ← (p.init tokens pool).parse
    p.parseAll streams

end ExprParser

/-- `I k` is kept while the parser reads tokens, allocates nodes and reports errors, where a token
read pays for a node: `k` is what has been saved. -/
structure Kept (I : Nat → ParserState → Prop) : Prop where
  advance : ∀ {k st}, I k st → I (k + 1) st.advance
  less : ∀ {k st}, I (k + 1) st → I k st
  newNode : ∀ {k st}, I (k + 1) st → ∀ {cb ty val sym ch}, (∀ n ∈ cb.operands, ch.length = n) →
    I k { st with pool := (st.pool.newNode cb ty val sym ch).2 }
  badToken : ∀ {k st}, I k st → ∀ type msg,
    I k { st with errCode := .badToken, context := some (type, msg) }

def Keeps (I : Nat → ParserState → Prop) {α : Type} (x : Parse α) : Prop :=
  ∀ k st, I k st → Ensures x st (fun _ st' => I k st') fun _ => True

section

variable {tokens : List Token} {n : Nat} {I : Nat → ParserState → Prop} (hI : Kept I)
include hI

private theorem binOpLoop_keeps {ops : List (TokenType × TokenType)} (hops : ops ≠ [])
    {operand : Parse ExprNode} (hx : Keeps I operand) (n : Nat) (node : ExprNode) :
    Keeps I (binOpLoop tokens ops operand n node) := by
  induction n generalizing node with
  | zero => exact fun _ _ _ => trivial
  | succ n ih =>
      intro k st h
      unfold binOpLoop
      rw [ensures_bind]
      refine ensures_consumeOneOf_any (fun t op _ => ?_) h hops
      simp only [ensures_bind, ensures_allocate]
      exact (hx _ _ (hI.advance h)).mono
        (fun right st₁ h₁ => ih _ _ _ (hI.newNode h₁ (by simp)))
        fun _ he => he

private theorem binOpChain_keeps {ops : List (TokenType × TokenType)} (hops : ops ≠ [])
    {operand : Parse ExprNode} (hx : Keeps I operand) (n : Nat) :
    Keeps I (binOpChain tokens ops operand n) := by
  intro k st h
  unfold binOpChain
  rw [ensures_bind]
  exact (hx _ _ h).mono (fun node st₁ h₁ => binOpLoop_keeps hI hops hx n node _ _ h₁)
    fun _ he => he

section

variable {rec : Parse ExprNode} (hrec : Keeps I rec)
include hrec

private theorem funcCallLoop_keeps (n : Nat) (args : List ExprNode) :
    Keeps I (funcCallLoop tokens rec n args) := by
  induction n generalizing args with
  | zero => exact fun _ _ _ => trivial
  | succ n ih =>
      intro k st h
      have harg : ∀ st₁, I k st₁ →
          Ensures (rec >>= fun arg => funcCallLoop tokens rec n (args ++ [arg])) st₁
            (fun _ st' => I k st') fun _ => True := by
        intro st₁ h₁
        rw [ensures_bind]
        exact (hrec _ _ h₁).mono (fun arg st₂ h₂ => ih _ _ _ h₂) fun _ he => he
      have hadvance := hI.less (hI.advance h)
      unfold funcCallLoop
      rw [ensures_bind]
      apply ensures_consumeToken_any hadvance
      simp only [Bool.false_eq_true, if_false]
      split
      · rw [ensures_bind]
        refine ensures_consumeToken_any ?_ (hI.badToken h _ _)
        simpa using harg _ hadvance
      · exact harg st h

private theorem parsePrim_keeps (n : Nat) : Keeps I (parsePrim tokens rec n) := by
  intro k st h
  have hadvance := hI.advance h
  unfold parsePrim
  rw [ensures_bind]
  refine ensures_consumeToken_any ?_ ?_
  · simp only [if_true, ensures_bind]
    refine (hrec _ _ (hI.less hadvance)).mono (fun node st₁ h₁ => ?_) fun _ he => he
    exact ensures_consumeToken_any (hI.less (hI.advance h₁)) (hI.badToken h₁ _ _)
  simp only [Bool.false_eq_true, if_false, ensures_bind]
  refine ensures_consumeToken_any ?_ ?_
  · simp only [if_true, ensures_bind]
    apply ensures_previousToken_index
    intro token
    rw [ensures_allocate]
    exact hI.newNode hadvance (by simp)
  simp only [Bool.false_eq_true, if_false, ensures_bind]
  refine ensures_consumeToken_any ?_ ?_
  · simp only [if_true, ensures_bind]
    apply ensures_previousToken_index
    intro token
    rw [ensures_allocate]
    exact hI.newNode hadvance (by simp)
  simp only [Bool.false_eq_true, if_false, ensures_bind]
  refine ensures_consumeToken_any ?_ h
  simp only [if_true, ensures_bind]
  apply ensures_previousToken_index
  intro token
  refine ensures_consumeToken_any ?_ (hI.badToken (hI.less hadvance) _ _)
  simp only [Bool.not_true, Bool.false_eq_true, if_false]
  unfold parseFuncCall
  rw [ensures_bind]
  refine (funcCallLoop_keeps hI hrec n [] _ _ (hI.less (hI.advance hadvance))).mono
    (fun o st₁ h₁ => ?_) fun _ he => he
  cases o with
  | none => exact hI.less h₁
  | some args =>
      rw [ensures_allocate]
      exact hI.newNode h₁ (by simp)

omit hrec in
private theorem postfixLoop_keeps (n : Nat) (node : ExprNode) :
    Keeps I (postfixLoop tokens n node) := by
  induction n generalizing node with
  | zero => exact fun _ _ _ => trivial
  | succ n ih =>
      intro k st h
      unfold postfixLoop
      rw [ensures_bind]
      refine ensures_consumeOneOf_any (fun t op _ => ?_) h (by simp)
      simp only [ensures_bind, ensures_allocate]
      exact ih _ _ _ (hI.newNode (hI.advance h) (by simp))

private theorem parseUnaryOp_keeps (n j : Nat) : Keeps I (parseUnaryOp tokens rec n j) := by
  induction j with
  | zero => exact fun _ _ _ => trivial
  | succ j ih =>
      intro k st h
      unfold parseUnaryOp
      rw [ensures_bind]
      refine ensures_consumeOneOf_any (fun t op _ => ?_) ?_ (by simp)
      · simp only [ensures_bind]
        refine (ih _ _ (hI.advance h)).mono (fun child st₁ h₁ => ?_) fun _ he => he
        rw [ensures_allocate]
        exact hI.newNode h₁ (by simp)
      · unfold parsePostfixOp
        simp only [ensures_bind]
        exact (parsePrim_keeps hI hrec n _ _ h).mono
          (fun node st₁ h₁ => postfixLoop_keeps hI n node _ _ h₁) fun _ he => he

private theorem parseBitOr_keeps (n : Nat) : Keeps I (parseBitOr tokens rec n) := by
  have hcmp : Keeps I (parseCmp tokens rec n) :=
    binOpChain_keeps hI (by simp) (binOpChain_keeps hI (by simp) (binOpChain_keeps hI (by simp)
      (binOpChain_keeps hI (by simp) (binOpChain_keeps hI (by simp)
        (parseUnaryOp_keeps hI hrec n n) n) n) n) n) n
  have hequ : Keeps I (parseEqu tokens rec n) := by
    intro k st h
    unfold parseEqu
    rw [ensures_bind]
    refine (hcmp _ _ h).mono (fun node st₁ h₁ => ?_) fun _ he => he
    rw [ensures_bind]
    refine ensures_consumeOneOf_any (fun t op _ => ?_) h₁ (by simp)
    simp only [ensures_bind]
    refine (hcmp _ _ (hI.advance h₁)).mono (fun right st₂ h₂ => ?_) fun _ he => he
    rw [ensures_allocate]
    exact hI.newNode h₂ (by simp)
  exact binOpChain_keeps hI (by simp) (binOpChain_keeps hI (by simp)
    (binOpChain_keeps hI (by simp) hequ n) n) n

private theorem parseConditional_keeps (n : Nat) : Keeps I (parseConditional tokens rec n) := by
  intro k st h
  unfold parseConditional
  rw [ensures_bind]
  refine (parseBitOr_keeps hI hrec n _ _ h).mono (fun condition st₁ h₁ => ?_) fun _ he => he
  rw [ensures_bind, ensures_get, ensures_ite]
  refine ⟨fun _ => h₁, fun _ => ?_⟩
  rw [ensures_bind]
  refine ensures_consumeToken_any ?_ h₁
  simp only [Bool.not_true, Bool.false_eq_true, if_false, ensures_bind]
  refine (hrec _ _ (hI.advance h₁)).mono (fun then_ st₂ h₂ => ?_) fun _ he => he
  rw [ensures_get, ensures_ite]
  refine ⟨fun _ => hI.less h₂, fun _ => ?_⟩
  rw [ensures_bind]
  refine ensures_consumeToken_any ?_ (hI.badToken (hI.less h₂) _ _)
  simp only [Bool.not_true, Bool.false_eq_true, if_false, ensures_bind]
  refine (hrec _ _ (hI.less (hI.advance h₂))).mono (fun else_ st₃ h₃ => ?_) fun _ he => he
  rw [ensures_get, ensures_ite]
  refine ⟨fun _ => hI.less h₃, fun _ => ?_⟩
  rw [ensures_allocate]
  exact hI.newNode h₃ (by simp)

end

theorem parseExpr_keeps (tokens : List Token) (n : Nat) : Keeps I (parseExpr tokens n) := by
  induction n with
  | zero => exact fun _ _ _ => trivial
  | succ n ih => exact parseConditional_keeps hI ih n

end

/-- Since the state `base` the parser has read `k` tokens more than it has created nodes. -/
def Saved (base : ParserState) (k : Nat) (st : ParserState) : Prop :=
  st.pool.length + base.currTokenIndex + k ≤ base.pool.length + st.currTokenIndex

theorem saved_kept (base : ParserState) : Kept (Saved base) where
  advance h := by
    simp only [Saved, ParserState.advance] at *
    omega
  less h := Nat.le_of_succ_le h
  newNode h _ := by
    simp only [Saved, NodePool.newNode, List.length_append, List.length_singleton] at *
    omega
  badToken h _ _ := h

/-- Either `badToken` has been called, or the error code and the context are what they were. -/
def Reported (base st : ParserState) : Prop :=
  st.errCode = .badToken ∨ st.errCode = base.errCode ∧ st.context = base.context

theorem reported_kept (base : ParserState) : Kept fun _ => Reported base where
  advance h := h
  less h := h
  newNode h := fun _ => h
  badToken _ _ _ := Or.inl rfl

section

variable {tokens : List Token}

def ParserState.report (st : ParserState) : Report := { err := decide (st.errCode ≠ .success) }

/-- `parse_scan` for a parser in any state at its first token. -/
theorem parseExpr_scan (tokens : List Token) (st : ParserState) (hidx : st.currTokenIndex = 0) :
    Ensures (parseExpr tokens (tokens.length + 3)) st
      (fun node st' => (st'.errCode ≠ .success → node = .null) ∧
        st'.currTokenIndex < tokens.length ∧ ∃ r,
          scan ⟨.operand, false, st.report, []⟩ (tokens.map Token.type) =
            .halted (ahead tokens st') r ∧
          (r.err = true ↔ st'.errCode ≠ .success) ∧
          (r.err = false → (r.bare = true ↔ node = .null)))
      (Overruns (scan ⟨.operand, false, st.report, []⟩ (tokens.map Token.type))) := by
  have hahead : ahead tokens st = tokens.map Token.type := by
    simp only [ahead, hidx, List.drop_zero]
  have h := parseExpr_reads tokens (tokens.length + 3) st st.report [] (by simp [Enough, hidx])
    (by simp [Agrees, ParserState.report])
  rw [hahead] at h
  refine h.mono ?_ fun _ he => he
  rintro node st' ⟨-, r, ⟨t, ts, hahead'⟩, hadds, hscan, hnull⟩
  refine ⟨hnull, lt_of_ahead hahead', r, ?_, hadds.agrees, fun he => ?_⟩
  · rw [hahead'] at hscan ⊢
    exact hscan
  · simpa [ParserState.report] using hadds.bare he

theorem EndsInSentinel.scan (h : EndsInSentinel tokens) (c : Config) :
    scan c (tokens.map Token.type) ≠ .overrun := by
  rcases List.eq_nil_or_concat tokens with rfl | ⟨front, token, rfl⟩
  · simp [EndsInSentinel] at h
  · simp only [EndsInSentinel, List.concat_eq_append, List.getLast?_concat, Option.map_some,
      Option.some.injEq] at h
    rw [List.concat_eq_append, List.map_append, List.map_singleton, h, Ne, scan_append_singleton]
    rintro ⟨c', -, c'', hgo⟩
    obtain ⟨r, hhalt⟩ := move_invalid c'
    rw [hhalt] at hgo
    cases hgo

namespace ExprParser

/-- With a sentinel behind the tokens the parser returns without reading past it and with no more
new nodes than tokens, and with a null node if `badToken` has been called. -/
theorem construct_parse (hend : EndsInSentinel tokens) (pool : NodePool)
    (context : Option (TokenType × String)) :
    ∃ node p, (construct tokens pool context).parse = .ok (node, p) ∧
      p.st.currTokenIndex < tokens.length ∧
      p.st.pool.length ≤ pool.length + tokens.length ∧
      (p.st.errCode ≠ .success ∨ p.st.context ≠ context → node = .null) := by
  have hscan := parseExpr_scan tokens { pool, context } rfl
  have hsaved := parseExpr_keeps (saved_kept { pool, context }) tokens (tokens.length + 3) 0
    { pool, context } (Nat.le_refl _)
  have hreported := parseExpr_keeps (reported_kept { pool, context }) tokens (tokens.length + 3) 0
    { pool, context } (Or.inr ⟨rfl, rfl⟩)
  cases hrun : parseExpr tokens (tokens.length + 3) { pool, context } with
  | error e =>
      rw [ensures_of_error hrun] at hscan
      exact absurd hscan.2 (hend.scan _)
  | ok q =>
      obtain ⟨node, st⟩ := q
      rw [ensures_of_ok hrun] at hscan hsaved hreported
      obtain ⟨hnull, hlt, -⟩ := hscan
      refine ⟨node, ⟨tokens, st⟩, ?_, hlt, ?_, fun h => hnull ?_⟩
      · simp only [parse, construct, hrun]
        rfl
      · simp only [Saved] at hsaved
        dsimp only
        omega
      · rcases hreported with hbad | ⟨hcode, hcontext⟩
        · rw [hbad]
          decide
        · exact h.resolve_right fun hne => hne hcontext

theorem construct_parse_bracket :
    ∃ node p, (construct [⟨.leftBracket, none, 0⟩, ⟨.invalid, none, 0⟩] [] none).parse =
        .ok (node, p) ∧
      p.st.currTokenIndex < 2 ∧ p.st.pool.length ≤ 0 + 2 ∧
      (p.st.errCode ≠ .success ∨ p.st.context ≠ none → node = .null) :=
  construct_parse (by decide) [] none

end ExprParser

end

def Config.fail (c : Config) : Config := { c with report := c.report.fail }

/-- `m'` goes on only where `m` does, and like it, with an error recorded. -/
def Follows (m m' : Move) : Prop := ∀ c', m' = .go c' → ∃ c, m = .go c ∧ c.fail = c'

private theorem Report.fail_of_err {r : Report} (h : r.err = true) : r.fail = r := by
  cases r
  cases h
  rfl

private theorem Config.fail_of_err {c : Config} (h : c.report.err = true) : c.fail = c := by
  rw [Config.fail, Report.fail_of_err h]

private theorem close_go_err {t : TokenType} {r : Report} {s : List Frame} {c : Config}
    (herr : r.err = true) (h : close t r s = .go c) : c.report.err = true := by
  induction s generalizing r with
  | nil => simp [close] at h
  | cons f s ih =>
      have hoperator : ∀ equ, operatorOr t equ r.fail s (close t r.fail s) = .go c →
          c.report.err = true := by
        intro equ h
        unfold operatorOr at h
        repeat' split at h
        all_goals first | exact ih rfl h | (cases h; rfl)
      cases f with
      | paren equ =>
          unfold close at h
          split at h
          · cases h
            exact herr
          · exact hoperator equ h
      | arg equ =>
          unfold close at h
          split at h
          · cases h
            exact herr
          · split at h
            · cases h
              exact herr
            · exact hoperator equ h
      | then_ =>
          unfold close at h
          rw [if_pos herr] at h
          exact ih herr h
      | els => exact ih herr h

private theorem close_conditional {t : TokenType} (ht : t = .qmark ∨ t = .colon) {r : Report}
    (herr : r.err = true) (s : List Frame) : ∃ r', close t r s = .halt r' := by
  have hcloser : t ≠ .rightBracket ∧ t ≠ .comma := by
    rcases ht with rfl | rfl <;> decide
  obtain ⟨hbracket, hcomma⟩ := hcloser
  have hended : ∀ equ (r : Report) s,
      operatorOr t equ r.fail s (close t r.fail s) = close t r.fail s := by
    intro equ r s
    rcases ht with rfl | rfl <;>
      simp [operatorOr, TokenType.isTight, TokenType.isEquality, TokenType.isBitwise, Report.fail]
  induction s generalizing r with
  | nil => exact ⟨r, rfl⟩
  | cons f s ih =>
      cases f with
      | paren equ =>
          rw [close, if_neg hbracket, hended]
          exact ih rfl
      | arg equ =>
          rw [close, if_neg hbracket, if_neg hcomma, hended]
          exact ih rfl
      | then_ =>
          rw [close, if_pos herr]
          exact ih herr
      | els => exact ih herr

private theorem close_fail (t : TokenType) (r : Report) (s : List Frame) :
    Follows (close t r s) (close t r.fail s) := by
  have hsame : ∀ {m : Move}, (∀ c, m = .go c → c.report.err = true) → Follows m m :=
    fun herr c hm => ⟨c, hm, Config.fail_of_err (herr c hm)⟩
  induction s with
  | nil =>
      intro c' h
      simp [close] at h
  | cons f s ih =>
      have hoperator : ∀ equ, Follows (operatorOr t equ r.fail s (close t r.fail s))
          (operatorOr t equ r.fail s (close t r.fail s)) := by
        intro equ
        apply hsame
        intro c h
        unfold operatorOr at h
        repeat' split at h
        all_goals first | exact close_go_err rfl h | (cases h; rfl)
      cases f with
      | paren equ =>
          unfold close
          split
          · rintro c' ⟨⟩
            exact ⟨_, rfl, rfl⟩
          · exact hoperator equ
      | arg equ =>
          unfold close
          split
          · rintro c' ⟨⟩
            exact ⟨_, rfl, rfl⟩
          · split
            · rintro c' ⟨⟩
              exact ⟨_, rfl, rfl⟩
            · exact hoperator equ
      | then_ =>
          intro c' h
          have herr : r.fail.err = true := rfl
          rw [close, if_pos herr] at h
          rw [close]
          split
          · exact ih c' h
          · split
            · next hcolon =>
              obtain ⟨r', hhalt⟩ := close_conditional (.inr hcolon) herr s
              rw [hhalt] at h
              cases h
            · exact ⟨c', h, Config.fail_of_err (close_go_err herr h)⟩
      | els => exact ih

private theorem atOperator_fail (equ : Bool) (r : Report) (s : List Frame) (t : TokenType) :
    Follows (atOperator equ r s t) (atOperator equ r.fail s t) := by
  intro c' h
  unfold atOperator operatorOr at *
  split at h
  · cases h
    exact ⟨_, if_pos ‹_›, rfl⟩
  · next hfact =>
    rw [if_neg hfact]
    split at h
    · cases h
      exact ⟨_, if_pos ‹_›, rfl⟩
    · next htight =>
      rw [if_neg htight]
      split at h
      · cases h
        exact ⟨_, if_pos ‹_›, rfl⟩
      · next hequ =>
        rw [if_neg hequ]
        split at h
        · cases h
          exact ⟨_, if_pos ‹_›, rfl⟩
        · next hbit =>
          rw [if_neg hbit]
          rw [if_neg (by simp [Report.fail])] at h
          by_cases hq : t = .qmark
          · obtain ⟨r', hhalt⟩ := close_conditional (r := r.fail) (.inl hq) rfl s
            rw [hhalt] at h
            cases h
          · rw [if_neg fun hand => hq hand.1]
            exact close_fail t r s c' h

private theorem atOperand_fail (equ : Bool) (r : Report) (s : List Frame) (t : TokenType) :
    Follows (atOperand equ r s t) (atOperand equ r.fail s t) := by
  intro c' h
  unfold atOperand at *
  split at h
  · cases h
    exact ⟨_, if_pos ‹_›, rfl⟩
  · next hsign =>
    rw [if_neg hsign]
    split at h
    · cases h
      exact ⟨_, if_pos ‹_›, rfl⟩
    · next hbracket =>
      rw [if_neg hbracket]
      split at h
      · cases h
        exact ⟨_, if_pos ‹_›, rfl⟩
      · next hvalue =>
        rw [if_neg hvalue]
        split at h
        · cases h
          exact ⟨_, if_pos ‹_›, rfl⟩
        · next hfunc =>
          rw [if_neg hfunc]
          exact atOperator_fail equ r.missing s t c' h

theorem move_fail (c : Config) (t : TokenType) : Follows (move c t) (move c.fail t) := by
  obtain ⟨mode, equ, r, s⟩ := c
  cases mode with
  | operand => exact atOperand_fail equ r s t
  | operator => exact atOperator_fail equ r s t
  | call =>
      intro c' h
      simp only [move, Config.fail] at h ⊢
      split at h
      · cases h
        exact ⟨_, if_pos ‹_›, rfl⟩
      · next hbracket =>
        rw [if_neg hbracket]
        exact atOperator_fail equ r.fail s t c' h
  | firstArg =>
      intro c' h
      simp only [move, Config.fail] at h ⊢
      split at h
      · cases h
        exact ⟨_, if_pos ‹_›, rfl⟩
      · next hbracket =>
        rw [if_neg hbracket]
        exact atOperand_fail false r (.arg equ :: s) t c' h

theorem scan_fail_overrun {c : Config} {ts : List TokenType} (h : scan c.fail ts = .overrun) :
    scan c ts = .overrun := by
  induction ts generalizing c with
  | nil => rfl
  | cons t ts ih =>
      unfold scan at h
      split at h
      · next c' hgo =>
        obtain ⟨c₁, hgo₁, rfl⟩ := move_fail c t c' hgo
        rw [scan_go hgo₁]
        exact ih h
      · cases h

namespace ExprParser

variable {p p' q : ExprParser} {node : ExprNode} {tokens : List Token} {pool : NodePool}
  {context : Option (TokenType × String)}

theorem parse_ok : p.parse = .ok (node, p') ↔
    parseExpr p.tokens (p.tokens.length + 3) p.st = .ok (node, p'.st) ∧ p'.tokens = p.tokens := by
  obtain ⟨tokens, st⟩ := p
  obtain ⟨tokens', st'⟩ := p'
  simp only [parse, bind, Except.bind]
  cases parseExpr tokens (tokens.length + 3) st with
  | error e => simp
  | ok r =>
      simp only [pure, Except.pure, Except.ok.injEq, ExprParser.mk.injEq, Prod.ext_iff]
      constructor
      · rintro ⟨hnode, htokens, hst⟩
        exact ⟨⟨hnode, hst⟩, htokens.symm⟩
      · rintro ⟨⟨hnode, hst⟩, htokens⟩
        exact ⟨hnode, htokens.symm, hst⟩

theorem parse_errCode (hidx : p.st.currTokenIndex = 0) (hrun : p.parse = .ok (node, p')) :
    p'.st.errCode = .success ↔ p.st.errCode = .success ∧
      ∀ rest r, scanTokens p.tokens = .halted rest r → r.err = false := by
  have hrun := (parse_ok.mp hrun).1
  by_cases herr : p.st.errCode = .success
  · have hscan := parseExpr_scan p.tokens p.st hidx
    rw [ensures_of_ok hrun] at hscan
    obtain ⟨-, -, r, hhalted, hagrees, -⟩ := hscan
    have hreport : p.st.report = {} := by simp [ParserState.report, herr]
    rw [hreport] at hhalted
    constructor
    · intro hsucc
      refine ⟨herr, fun rest' r' hhalted' => ?_⟩
      obtain ⟨-, rfl⟩ := Verdict.halted.inj (hhalted.symm.trans hhalted')
      by_contra he
      exact hagrees.mp (by simpa using he) hsucc
    · intro ⟨_, hquiet⟩
      by_contra hne
      rw [hquiet _ r hhalted] at hagrees
      exact Bool.false_ne_true (hagrees.mpr hne)
  · have hreported := parseExpr_keeps (reported_kept p.st) p.tokens (p.tokens.length + 3) 0 p.st
      (Or.inr ⟨rfl, rfl⟩)
    rw [ensures_of_ok hrun] at hreported
    refine iff_of_false (fun hsucc => ?_) fun h => herr h.1
    rcases hreported with hbad | ⟨hcode, -⟩
    · rw [hbad] at hsucc
      cases hsucc
    · exact herr (hcode.symm.trans hsucc)

theorem parseAll_errCode {history : List (List Token × NodePool)}
    (hrun : p.parseAll history = .ok p') :
    p'.st.errCode = .success ↔ p.st.errCode = .success ∧
      ∀ stream ∈ history, ∀ rest r, scanTokens stream.1 = .halted rest r → r.err = false := by
  induction history generalizing p with
  | nil =>
      obtain rfl := Except.ok.inj hrun
      simp
  | cons stream history ih =>
      obtain ⟨tokens, pool⟩ := stream
      simp only [parseAll, bind, Except.bind] at hrun
      cases hparse : (p.init tokens pool).parse with
      | error e =>
          rw [hparse] at hrun
          cases hrun
      | ok r =>
          obtain ⟨node, p₁⟩ := r
          rw [hparse] at hrun
          have hfirst := parse_errCode (p := p.init tokens pool) rfl hparse
          rw [ih hrun, hfirst, List.forall_mem_cons, and_assoc]
          rfl

theorem construct_parse_null (hrun : (construct tokens pool context).parse = .ok (node, q)) :
    node = .null ↔ ¬ ∃ rest r, Accepts tokens rest r := by
  have hrun : parseExpr tokens (tokens.length + 3) { pool, context } = .ok (node, q.st) :=
    (parse_ok.mp hrun).1
  have hscan := parseExpr_scan tokens { pool, context } rfl
  rw [ensures_of_ok hrun] at hscan
  obtain ⟨hnull, -, r, hhalted, hagrees, hbare⟩ := hscan
  have hhalted : scanTokens tokens = .halted (ahead tokens q.st) r := hhalted
  constructor
  · rintro rfl ⟨rest', r', hacc⟩
    obtain ⟨-, rfl⟩ := Verdict.halted.inj (hhalted.symm.trans hacc.halted)
    have hb := (hbare hacc.err).mpr rfl
    rw [hacc.bare] at hb
    cases hb
  · intro hnone
    by_contra hnode
    have herr : r.err = false := by
      by_contra he
      exact hnode (hnull (hagrees.mp (by simpa using he)))
    refine hnone ⟨_, r, hhalted, herr, ?_⟩
    by_contra hb
    exact hnode ((hbare herr).mp (by simpa using hb))

theorem init_parse_null (herr : p.st.errCode ≠ .success)
    (hfresh : (construct tokens pool context).parse = .ok (node, q)) :
    ∃ p', (p.init tokens pool).parse = .ok (.null, p') := by
  have hreport : (p.init tokens pool).st.report = Report.fail {} := by
    simp [init, ParserState.report, herr, Report.fail]
  have hscan := parseExpr_scan tokens (p.init tokens pool).st rfl
  have hreported := parseExpr_keeps (reported_kept p.st) tokens (tokens.length + 3) 0
    (p.init tokens pool).st (Or.inr ⟨rfl, rfl⟩)
  cases hrun : parseExpr tokens (tokens.length + 3) (p.init tokens pool).st with
  | error e =>
      rw [ensures_of_error hrun, hreport] at hscan
      have hover := scan_fail_overrun (c := ⟨.operand, false, {}, []⟩) hscan.2
      have hfresh : parseExpr tokens (tokens.length + 3) { pool, context } = .ok (node, q.st) :=
        (parse_ok.mp hfresh).1
      have hfirst := parseExpr_scan tokens { pool, context } rfl
      rw [ensures_of_ok hfresh] at hfirst
      obtain ⟨-, -, r, hhalted, -⟩ := hfirst
      exact absurd (hover.symm.trans hhalted) (by rintro ⟨⟩)
  | ok r =>
      obtain ⟨node', st'⟩ := r
      rw [ensures_of_ok hrun] at hscan hreported
      have hnull : node' = .null := by
        apply hscan.1
        rcases hreported with hbad | ⟨hcode, -⟩
        · rw [hbad]
          decide
        · rwa [hcode]
      subst hnull
      exact ⟨⟨tokens, st'⟩, parse_ok.mpr ⟨hrun, rfl⟩⟩

/-- A parser that is initialised again returns what a new one does exactly when nothing was missing
in the earlier token streams, or the new one is not accepted anyway. -/
theorem init_parse_iff {tokens₀ : List Token} {pool₀ : NodePool}
    {history : List (List Token × NodePool)}
    (hhistory : (construct tokens₀ pool₀ context).parseAll history = .ok p)
    (hfresh : (construct tokens pool p.st.context).parse = .ok (node, q)) :
    (∃ p', (p.init tokens pool).parse = .ok (node, p')) ↔
      (∀ stream ∈ history, ∀ rest r, scanTokens stream.1 = .halted rest r → r.err = false) ∨
        ¬ ∃ rest r, Accepts tokens rest r := by
  have hcode := parseAll_errCode hhistory
  have hsucc : (construct tokens₀ pool₀ context).st.errCode = .success := rfl
  rw [hsucc, eq_self, true_and] at hcode
  rw [← hcode, ← construct_parse_null hfresh]
  by_cases herr : p.st.errCode = .success
  · refine iff_of_true ⟨q, ?_⟩ (.inl herr)
    rw [← hfresh, init, construct, herr.symm]
  · obtain ⟨p', hnull⟩ := init_parse_null herr hfresh
    constructor
    · rintro ⟨p'', hsame⟩
      rw [hnull] at hsame
      exact .inr (Prod.mk.inj (Except.ok.inj hsame)).1.symm
    · rintro (h | rfl)
      · exact absurd h herr
      · exact ⟨p', hnull⟩

/-- `2` behind `1`. -/
theorem init_parse_iff_again :
    let tokens : List Token := [⟨.literal, none, 2⟩, ⟨.invalid, none, 0⟩]
    let tokens₀ : List Token := [⟨.literal, none, 1⟩, ⟨.invalid, none, 0⟩]
    (∃ p', (init ⟨tokens₀, ⟨1, [.mk 0 .val .literal 1 none []], .success, none⟩⟩ tokens []).parse =
        .ok (.mk 0 .val .literal 2 none [], p')) ↔
      (∀ stream ∈ [(tokens₀, ([] : NodePool))], ∀ rest r,
        scanTokens stream.1 = .halted rest r → r.err = false) ∨
        ¬ ∃ rest r, Accepts tokens rest r :=
  init_parse_iff (q := ⟨_, ⟨1, [.mk 0 .val .literal 2 none []], .success, none⟩⟩)
    (show (construct [] [] none).parseAll _ = .ok _ from rfl) rfl

/-- `1` behind a lone bracket is not read any more. -/
theorem init_parse_error : ¬ ∀ tokens₀ pool₀ context history p tokens pool node q,
    (construct tokens₀ pool₀ context).parseAll history = .ok p →
    (construct tokens pool p.st.context).parse = .ok (node, q) →
    ∃ p', (p.init tokens pool).parse = .ok (node, p') := by
  intro h
  obtain ⟨p', hrun⟩ := h [] [] none [([⟨.leftBracket, none, 0⟩, ⟨.invalid, none, 0⟩], [])]
    ⟨_, ⟨1, [], .badToken, some (.rightBracket, "expected ')'")⟩⟩
    [⟨.literal, none, 1⟩, ⟨.invalid, none, 0⟩] [] (.mk 0 .val .literal 1 none [])
    ⟨_, ⟨1, [.mk 0 .val .literal 1 none []], .success, _⟩⟩ rfl rfl
  cases hrun

end ExprParser

end PGBigNumber.Infix
