import PGBigNumber.Infix.Eval
import PGBigNumber.Infix.Reading

/-!
# What the parser accepts

A result of `parse` that is not null says nothing was wrong. Here is when that can be relied on:
when the tree behind it is complete, and when no token of the input has been left out.
-/

namespace PGBigNumber.Infix

open Outcome

variable {tokens : List Token}

/-- The scan ends in front of `rest` with `r`, has missed no bracket, comma or colon, and has met
more than brackets. -/
structure Accepts (tokens : List Token) (rest : List TokenType) (r : Report) : Prop where
  halted : scanTokens tokens = .halted rest r
  err : r.err = false
  bare : r.bare = false

def EndsInSentinel (tokens : List Token) : Prop := tokens.getLast?.map Token.type = some .invalid

instance (tokens : List Token) : Decidable (EndsInSentinel tokens) :=
  inferInstanceAs (Decidable (_ = _))

theorem parse_accepts {node : ExprNode} {st : ParserState} (hrun : parse tokens = .ok (node, st))
    (hnode : node ≠ .null) : ∃ r, Accepts tokens (ahead tokens st) r ∧
      (r.gap = true ↔ ¬ node.WellFormed) ∧ st.currTokenIndex < tokens.length := by
  have h := parse_scan tokens
  rw [ensures_of_ok hrun] at h
  obtain ⟨hnull, r, ⟨t, ts, hahead⟩, hscan, hagrees, hquiet⟩ := h
  have herr : r.err = false := by
    by_contra he
    exact hnode (hnull (hagrees.mp (by simpa using he)))
  obtain ⟨hgap, hbare⟩ := hquiet herr
  refine ⟨r, ⟨hscan, herr, ?_⟩, hgap, lt_of_ahead hahead⟩
  by_contra hb
  exact hnode (hbare.mp (by simpa using hb))

theorem Accepts.parse {rest : List TokenType} {r : Report} (h : Accepts tokens rest r) :
    ∃ node st, Infix.parse tokens = .ok (node, st) ∧ node ≠ .null ∧ ahead tokens st = rest ∧
      (r.gap = true ↔ ¬ node.WellFormed) ∧ st.currTokenIndex < tokens.length := by
  have hs := parse_scan tokens
  cases hrun : Infix.parse tokens with
  | error e =>
      rw [ensures_of_error hrun] at hs
      exact absurd (hs.2.symm.trans h.halted) (by rintro ⟨⟩)
  | ok p =>
      obtain ⟨node, st⟩ := p
      rw [ensures_of_ok hrun] at hs
      obtain ⟨-, r', ⟨t, ts, hahead⟩, hscan, hagrees, hquiet⟩ := hs
      obtain ⟨hrest, hr⟩ := Verdict.halted.inj (hscan.symm.trans h.halted)
      subst hr
      obtain ⟨hgap, hbare⟩ := hquiet h.err
      refine ⟨node, st, rfl, fun hnull => ?_, hrest, hgap, lt_of_ahead hahead⟩
      have hb := hbare.mpr hnull
      rw [h.bare] at hb
      exact Bool.false_ne_true hb

/-- No node below a root that `parse` returns lacks an operand, and no evaluation of one follows a
null child, exactly when the scan finds an operand wherever one is due. -/
theorem parse_wellFormed_iff (tokens : List Token) :
    (∀ node st, parse tokens = .ok (node, st) → node ≠ .null →
      (∀ n, node.Reaches n → n.HasOperands) ∧
        ∀ table, evalCallback table node ≠ .error .nullChild) ↔
      ∀ rest r, Accepts tokens rest r → r.gap = false := by
  constructor
  · intro h rest r hacc
    obtain ⟨node, st, hrun, hnode, -, hgap, -⟩ := hacc.parse
    by_contra hg
    exact hgap.mp (by simpa using hg) (h node st hrun hnode).1
  · intro h node st hrun hnode
    obtain ⟨r, hacc, hgap, -⟩ := parse_accepts hrun hnode
    have hwf : node.WellFormed := by
      by_contra hwf
      exact Bool.false_ne_true ((h _ r hacc).symm.trans (hgap.mpr hwf))
    exact ⟨hwf, fun table => (evalCallback_safe table hwf).1⟩

/-- `1 +` is accepted with a null right operand. -/
theorem parse_missing_operand : ¬ ∀ tokens, EndsInSentinel tokens → ∀ node st,
    parse tokens = .ok (node, st) → node ≠ .null → (∀ n, node.Reaches n → n.HasOperands) ∧
      ∀ table, evalCallback table node ≠ .error .nullChild := by
  intro h
  obtain ⟨-, heval⟩ := h [⟨.literal, none, 1⟩, ⟨.add, none, 0⟩, ⟨.invalid, none, 0⟩] (by decide)
    (.mk 1 .binOp .add 0 none [.mk 0 .val .literal 1 none [], .null])
    ⟨2, [.mk 0 .val .literal 1 none [],
      .mk 1 .binOp .add 0 none [.mk 0 .val .literal 1 none [], .null]], .success, none⟩ rfl
    (by rintro ⟨⟩)
  exact heval (fun _ => none) rfl

/-- `parse` stands on the last token whenever it returns a root, exactly when a reading that the
scan accepts ends there. -/
theorem parse_consumes_iff (tokens : List Token) :
    (∀ node st, parse tokens = .ok (node, st) → node ≠ .null →
      st.currTokenIndex + 1 = tokens.length) ↔
      ∀ rest r, Accepts tokens rest r → rest.length = 1 := by
  constructor
  · intro h rest r hacc
    obtain ⟨node, st, hrun, hnode, hrest, -, hlt⟩ := hacc.parse
    have := h node st hrun hnode
    rw [← hrest, length_ahead]
    omega
  · intro h node st hrun hnode
    obtain ⟨r, hacc, -, hlt⟩ := parse_accepts hrun hnode
    have := h _ r hacc
    rw [length_ahead] at this
    omega

/-- `1 2` is accepted with `2` left over. -/
theorem parse_leftover : ¬ ∀ tokens, EndsInSentinel tokens → ∀ node st,
    parse tokens = .ok (node, st) → node ≠ .null → st.currTokenIndex + 1 = tokens.length := by
  intro h
  have hidx := h [⟨.literal, none, 1⟩, ⟨.literal, none, 2⟩, ⟨.invalid, none, 0⟩] (by decide)
    (.mk 0 .val .literal 1 none []) ⟨1, [.mk 0 .val .literal 1 none []], .success, none⟩ rfl
    (by rintro ⟨⟩)
  exact absurd hidx (by decide)

end PGBigNumber.Infix
