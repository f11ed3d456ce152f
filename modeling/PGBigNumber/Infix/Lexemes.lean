import PGBigNumber.Infix.Literal

/-!
# Lexemes

The texts that the tokens of `tokenizer` are read from. They make up the input without its blanks.
What is stated about them is when each one spells its own token: behind the dot of a literal two
characters are taken, whatever they are.
-/

namespace PGBigNumber.Infix

open StringReadStream

/-- The text of an operator, as the comments of `TokenType` give it. -/
def TokenType.text : TokenType → Option (List Char)
  | .add => some ['+']
  | .sub => some ['-']
  | .mul => some ['*']
  | .div => some ['/']
  | .fact => some ['!']
  | .pow => some ['*', '*']
  | .and => some ['&']
  | .or => some ['|']
  | .xor => some ['^']
  | .not => some ['~']
  | .shiftRight => some ['>', '>']
  | .shiftLeft => some ['<', '<']
  | .leftBracket => some ['(']
  | .rightBracket => some [')']
  | .comma => some [',']
  | .mod => some ['%']
  | .equ => some ['=', '=']
  | .nequ => some ['!', '=']
  | .lt => some ['<']
  | .le => some ['<', '=']
  | .gt => some ['>']
  | .ge => some ['>', '=']
  | .qmark => some ['?']
  | .colon => some [':']
  | .builtinFunc | .builtinConstant | .literal | .invalid | .tail => none

/-- The ways to write a literal, with digits and letters in either case: zero, a decimal one with or
without a fraction, an octal one that does not start like a radix prefix, and one with a radix
prefix. -/
inductive LiteralText : Literal → List Char → Prop
  | zero : LiteralText { beforeDot := ['0'] } ['0']
  | decimal {c : Char} {digits : List Char} (hc : c.isDigit) (hc0 : c ≠ '0')
    (hdigits : digits.all Char.isAlphanum) :
    LiteralText { beforeDot := c :: digits.map Char.toLower } (c :: digits)
  | fraction {c : Char} {digits fraction : List Char} (hc : c.isDigit) (hc0 : c ≠ '0')
    (hdigits : digits.all Char.isAlphanum) (hfraction : fraction.all Char.isAlphanum) :
    LiteralText
      { beforeDot := c :: digits.map Char.toLower, afterDot := fraction.map Char.toLower }
      (c :: digits ++ '.' :: fraction)
  | octal {c : Char} {digits : List Char} (hc : c.isDigit) (hdigits : digits.all Char.isAlphanum)
    (hstart : ∀ radix p, RadixPrefix radix ('0' :: p) → ¬ p <+: c :: digits) :
    LiteralText { radix := 8, beforeDot := (c :: digits).map Char.toLower } ('0' :: c :: digits)
  | prefixed {radix : Nat} {p digits : List Char} (hp : RadixPrefix radix ('0' :: p))
    (hdigits : digits.all Char.isAlphanum) :
    LiteralText { radix, beforeDot := digits.map Char.toLower } ('0' :: p ++ digits)

/-- `text` is a complete spelling of `token`. -/
inductive Spells (hooks : Hooks) (table : SymbolTable) : List Char → Token → Prop
  | operator {type : TokenType} {text : List Char} (h : type.text = some text) :
    Spells hooks table text { type }
  | function {name : List Char} {f : Func} (hname : name.all isSymbolChar)
    (h : table name = some (.func f)) :
    Spells hooks table name { type := .builtinFunc, pSymbol := some name }
  | constant {name : List Char} {v : Int} (hname : name.all isSymbolChar)
    (h : table name = some (.value v)) :
    Spells hooks table name { type := .builtinConstant, pSymbol := some name }
  | literal {text : List Char} {l : Literal} {f : Nat → List Char → List Char → Bool × Int}
    (h : LiteralText l text) (hf : hooks.literal2Value = some f) :
    Spells hooks table text { type := .literal, val := (f l.radix l.beforeDot l.afterDot).2 }

/-- Blanks and lexemes in turn make up the input. -/
inductive Splits : List Char → List (List Char) → Prop
  | nil : Splits [] []
  | cons {blanks lexeme rest : List Char} {lexemes : List (List Char)}
    (hblanks : blanks.all isWhiteChar) (h : Splits rest lexemes) :
    Splits (blanks ++ (lexeme ++ rest)) (lexeme :: lexemes)

section

variable (hooks : Hooks) (table : SymbolTable)

/-- The loop of `tokenizer`, which keeps of each token what stands between the positions at which it
is started and finished. -/
def lexemesLoop : Nat → List Char → List (List Char)
  | fuel, s =>
    if eof s then []
    else
      match fuel with
      | 0 => []
      | fuel + 1 =>
        match skipWhiteChar fuel s with
        | none => []
        | some start =>
          match (readToken hooks table (get start).1 (get start).2).rest with
          | .error _ => []
          | .ok s => start.take (start.length - s.length) :: lexemesLoop fuel s

def lexemes (fuel : Nat) (stream : List Char) : List (List Char) :=
  lexemesLoop hooks table fuel stream

end

/-- Two alphanumeric characters stand behind each dot, or at most one and the end of the input. -/
def DotsFollowed (s : List Char) : Prop :=
  ∀ front back, s = front ++ '.' :: back → (back.take 2).all Char.isAlphanum = true

variable {c : Char} {s rest text : List Char} {literal : Literal}

private theorem all_takeWhile_isAlphanum (s : List Char) :
    (s.takeWhile isLiteralChar).all Char.isAlphanum = true := by
  rw [List.all_eq_true]
  intro c hc
  have hlit := List.all_eq_true.mp List.all_takeWhile c hc
  rw [isLiteralChar_eq, Bool.and_eq_true] at hlit
  exact hlit.1

private theorem map_toLower_takeWhile (s : List Char) :
    (s.takeWhile isLiteralChar).map Char.toLower = s.takeWhile isLiteralChar := by
  nth_rewrite 2 [← List.map_id (s.takeWhile isLiteralChar)]
  apply List.map_congr_left
  intro c hc
  have hlit := List.all_eq_true.mp List.all_takeWhile c hc
  rw [isLiteralChar_eq, Bool.and_eq_true, Bool.not_eq_true'] at hlit
  exact toLower_of_not_isUpper hlit.2

theorem literalLoop_text (s : List Char) :
    ∃ text, s = text ++ (literalLoop (peek s).toLower s).2.2 ∧
      text.all Char.isAlphanum = true ∧
      (literalLoop (peek s).toLower s).1 = text.map Char.toLower ∧
      ((literalLoop (peek s).toLower s).2.1 = '.' ↔
        peek (literalLoop (peek s).toLower s).2.2 = '.') := by
  rw [literalLoop_eq]
  cases s with
  | nil => exact ⟨[], rfl, rfl, rfl, Iff.rfl⟩
  | cons c s =>
      have hpeek : peek (c :: s) = c := rfl
      rw [hpeek, isLiteralChar_toLower, List.tail_cons]
      by_cases hc : c.isAlphanum = true
      · rw [if_pos hc]
        refine ⟨c :: s.takeWhile isLiteralChar, ?_, ?_, ?_, Iff.rfl⟩
        · rw [List.cons_append, List.takeWhile_append_dropWhile]
        · rw [List.all_cons, hc, all_takeWhile_isAlphanum]
          rfl
        · rw [List.map_cons, map_toLower_takeWhile]
      · rw [if_neg hc]
        exact ⟨[], rfl, rfl, rfl, toLower_eq_iff rfl⟩

/-- The loop behind a dot takes the character in front whatever it is, and one more if the first one
can stand in a literal. -/
theorem fractionLoop_text (s : List Char) :
    ∃ text, s = text ++ (literalLoop (peek s).toLower s.tail).2.2 ∧
      (text.all Char.isAlphanum = true ↔ (s.take 2).all Char.isAlphanum = true) := by
  rw [literalLoop_eq]
  cases s with
  | nil => exact ⟨[], rfl, Iff.rfl⟩
  | cons c s =>
      have hpeek : peek (c :: s) = c := rfl
      rw [hpeek, isLiteralChar_toLower, List.tail_cons]
      by_cases hc : c.isAlphanum = true
      · rw [if_pos hc]
        cases s with
        | nil => exact ⟨[c], rfl, Iff.rfl⟩
        | cons d s =>
            refine ⟨c :: d :: s.takeWhile isLiteralChar, ?_, ?_⟩
            · rw [List.cons_append, List.cons_append, List.tail_cons,
                List.takeWhile_append_dropWhile]
            · rw [List.all_cons, List.all_cons, all_takeWhile_isAlphanum, Bool.and_true]
              simp
      · rw [if_neg hc]
        refine ⟨[c], rfl, ?_⟩
        simp [hc]

private theorem prefixedLiteral_text {radix : Nat} {before : List Char}
    (h : prefixedLiteral radix before s = .ok (literal, rest)) :
    ∃ text, s = text ++ rest ∧ text.all Char.isAlphanum = true ∧
      literal = { radix, beforeDot := before ++ text.map Char.toLower } := by
  obtain ⟨text, hsplit, hall, hchars, -⟩ := literalLoop_text s
  unfold prefixedLiteral at h
  dsimp only at h
  split at h
  · cases h
  · obtain ⟨rfl, rfl⟩ := Prod.mk.inj (Except.ok.inj h)
    exact ⟨text, hsplit, hall, by rw [hchars]⟩

private theorem eq_cons_of_peek (h : peek s = c) (hc : c ≠ '\x00') : s = c :: (get s).2 := by
  cases s with
  | nil => exact absurd h.symm hc
  | cons d s =>
      obtain rfl : d = c := h
      rfl

private theorem eq_cons_of_isDigit (h : (peek s).isDigit = true) :
    s = peek s :: (get s).2 := by
  apply eq_cons_of_peek rfl
  intro hnul
  rw [hnul] at h
  cases h

private theorem all_cons_isAlphanum (hc : c.isDigit = true) (h : text.all Char.isAlphanum = true) :
    (c :: text).all Char.isAlphanum = true := by
  rw [List.all_cons, isAlphanum_of_isDigit hc, h]
  rfl

private theorem getLoDigit_text (s : List Char) :
    ∃ lo s₁, getLoDigit s = (lo, s₁) ∧ s = lo.toList ++ s₁ ∧ (∀ c ∈ lo, c.isDigit = true) ∧
      (lo = none → (peek s₁).isDigit = false) := by
  unfold getLoDigit
  by_cases hlo : (peek s).isDigit = true
  · rw [if_pos hlo]
    refine ⟨some (peek s), (get s).2, rfl, eq_cons_of_isDigit hlo, ?_, by rintro ⟨⟩⟩
    rintro c ⟨⟩
    exact hlo
  · rw [if_neg hlo]
    exact ⟨none, s, rfl, rfl, by rintro c ⟨⟩, fun _ => Bool.eq_false_of_not_eq_true hlo⟩

private theorem not_radixPrefix {hi : Char} {lo : Option Char} (hhi : hi.isDigit = true)
    (hlo : ∀ c ∈ lo, c.isDigit = true) (hnone : lo = none → (peek (text ++ rest)).isDigit = false)
    (hx : peek (text ++ rest) ≠ 'x') {radix : Nat} {p : List Char}
    (hp : RadixPrefix radix ('0' :: p)) : ¬ p <+: hi :: (lo.toList ++ text) := by
  have htext : ∀ {l : List Char}, ¬ 'x' :: l <+: text := by
    rintro l ⟨tail, rfl⟩
    exact hx rfl
  have hdigit : ∀ {c : Char}, c.isDigit = true → c ≠ 'x' := by
    rintro c hc rfl
    cases hc
  intro hstart
  cases hp with
  | hex => exact hdigit hhi (List.cons_prefix_cons.mp hstart).1.symm
  | oneDigit _ =>
      have hbehind := (List.cons_prefix_cons.mp hstart).2
      cases lo with
      | none => exact htext hbehind
      | some lo => exact hdigit (hlo lo rfl) (List.cons_prefix_cons.mp hbehind).1.symm
  | @twoDigits _ lo' _ hlo' =>
      have hbehind := (List.cons_prefix_cons.mp hstart).2
      cases lo with
      | none =>
          obtain ⟨tail, rfl⟩ := hbehind
          exact absurd (hnone rfl) (by rw [show peek _ = lo' from rfl, hlo']; decide)
      | some lo => exact htext (List.cons_prefix_cons.mp hbehind).2

theorem zeroLiteral_text (h : zeroLiteral s = .ok (literal, rest)) :
    ∃ text, s = text ++ rest ∧ text.all Char.isAlphanum = true ∧
      LiteralText literal ('0' :: text) := by
  unfold zeroLiteral at h
  dsimp only at h
  split at h
  · next hx =>
    obtain ⟨text, hsplit, hall, rfl⟩ := prefixedLiteral_text h
    refine ⟨'x' :: text, ?_, hall, .prefixed .hex hall⟩
    rw [List.cons_append, ← hsplit]
    exact eq_cons_of_peek hx (by decide)
  split at h
  · next hhi =>
    have hs := eq_cons_of_isDigit hhi
    obtain ⟨lo, s₁, hget, hlo, hdigit, hnone⟩ := getLoDigit_text (get s).2
    have hlow : lo.toList.map Char.toLower = lo.toList := by
      cases lo with
      | none => rfl
      | some lo => exact congrArg (· :: []) (toLower_of_not_isUpper (isUpper_of_isDigit (hdigit lo rfl)))
    have halnum : lo.toList.all Char.isAlphanum = true := by
      cases lo with
      | none => rfl
      | some lo => exact all_cons_isAlphanum (hdigit lo rfl) rfl
    rw [hget] at h
    rw [hlo] at hs
    dsimp only at h
    split at h
    · -- the digits behind zero are octal ones
      next hx =>
      obtain ⟨text, hsplit, hall, rfl⟩ := prefixedLiteral_text h
      rw [hsplit] at hx hnone
      have hdigits : (lo.toList ++ text).all Char.isAlphanum = true := by
        rw [List.all_append, halnum, hall]
        rfl
      refine ⟨peek s :: (lo.toList ++ text), ?_, all_cons_isAlphanum hhi hdigits, ?_⟩
      · rw [List.cons_append, List.append_assoc, ← hsplit]
        exact hs
      · have htext := LiteralText.octal hhi hdigits
          fun _ _ => not_radixPrefix hhi hdigit hnone hx
        rw [List.map_cons, List.map_append, toLower_of_not_isUpper (isUpper_of_isDigit hhi), hlow] at htext
        exact htext
    · next hx =>
      obtain ⟨text, hsplit, hall, rfl⟩ := prefixedLiteral_text h
      have hs₁ := eq_cons_of_peek (not_not.mp hx) (by decide)
      rw [hsplit] at hs₁
      rw [hs₁] at hs
      cases lo with
      | none =>
          have htext := LiteralText.prefixed (.oneDigit hhi) hall
          rw [← Nat.zero_add ((peek s).toNat - '0'.toNat)] at htext
          exact ⟨peek s :: 'x' :: text, hs, all_cons_isAlphanum hhi hall, htext⟩
      | some lo =>
          have hlo' := hdigit lo rfl
          exact ⟨peek s :: lo :: 'x' :: text, hs,
            all_cons_isAlphanum hhi (all_cons_isAlphanum hlo' hall),
            .prefixed (.twoDigits hhi hlo') hall⟩
  · obtain ⟨rfl, rfl⟩ := Prod.mk.inj (Except.ok.inj h)
    exact ⟨[], rfl, rfl, .zero⟩

theorem decimalLiteral_text (hc : c.isDigit = true) (hc0 : c ≠ '0') :
    (∃ text, s = text ++ (decimalLiteral c s).2 ∧ text.all Char.isAlphanum = true ∧
      LiteralText (decimalLiteral c s).1 (c :: text)) ∨
    ∃ digits fraction, s = digits ++ '.' :: (fraction ++ (decimalLiteral c s).2) ∧
      digits.all Char.isAlphanum = true ∧ (decimalLiteral c s).1.radix = 10 ∧
      (decimalLiteral c s).1.beforeDot = c :: digits.map Char.toLower ∧
      (fraction.all Char.isAlphanum = true ↔
        ((fraction ++ (decimalLiteral c s).2).take 2).all Char.isAlphanum = true) := by
  obtain ⟨digits, hsplit, hall, hchars, hdot⟩ := literalLoop_text s
  unfold decimalLiteral
  generalize literalLoop (peek s).toLower s = loop at hsplit hchars hdot ⊢
  obtain ⟨chars, last, s₁⟩ := loop
  dsimp only at hsplit hchars hdot ⊢
  by_cases hlast : last = '.'
  · right
    have hs₁ := eq_cons_of_peek (hdot.mp hlast) (by decide)
    obtain ⟨fraction, hfraction, hiff⟩ := fractionLoop_text (get s₁).2
    rw [if_pos hlast]
    refine ⟨digits, fraction, ?_, hall, rfl, by rw [hchars], ?_⟩
    · calc s = digits ++ '.' :: (get s₁).2 := by rw [hsplit, ← hs₁]
        _ = _ := congrArg (fun behind => digits ++ '.' :: behind) hfraction
    · rw [hiff]
      exact iff_of_eq (congrArg (fun behind => (behind.take 2).all Char.isAlphanum = true) hfraction)
  · left
    rw [if_neg hlast, hchars]
    exact ⟨digits, hsplit, hall, .decimal hc hc0 hall⟩

variable {ch : Char} {r : List Char} {token : Token} {hooks : Hooks} {table : SymbolTable}

private theorem ok_text {type : TokenType} (h : (Lexed.ok type s).rest = .ok rest)
    (htext : type.text = some text) (hsplit : ch :: r = text ++ s) :
    ∃ text, ch :: r = text ++ rest ∧ Spells hooks table text (Lexed.ok type s).token ∧ '.' ∉ text := by
  obtain rfl := Except.ok.inj h
  refine ⟨text, hsplit, .operator htext, ?_⟩
  cases type <;> cases htext <;> decide

private theorem readOperator_text {lexed : Lexed} (h : readOperator ch r = some lexed)
    (hrest : lexed.rest = .ok rest) :
    ∃ text, ch :: r = text ++ rest ∧ Spells hooks table text lexed.token ∧ '.' ∉ text := by
  have hnext : ∀ {e : Char}, peek r = e → e ≠ '\x00' → ch :: r = [ch, e] ++ (get r).2 :=
    fun hpeek he => congrArg (ch :: ·) (eq_cons_of_peek hpeek he)
  unfold readOperator at h
  split at h
  all_goals repeat' split at h
  all_goals cases h
  all_goals first
    | exact ok_text hrest rfl rfl
    | exact ok_text hrest rfl (hnext ‹_› (by decide))
    | cases hrest

private theorem readSymbol_text (hooks : Hooks) (hch : ch.isAlpha = true ∨ ch = '_')
    (hrest : (lexSymbol table ch r).rest = .ok rest) :
    ∃ text, ch :: r = text ++ rest ∧ Spells hooks table text (lexSymbol table ch r).token ∧
      '.' ∉ text := by
  have hall : (ch :: r.takeWhile isSymbolChar).all isSymbolChar = true := by
    rw [List.all_cons, List.all_takeWhile, Bool.and_true]
    unfold isSymbolChar
    rw [decide_eq_true_iff]
    rcases hch with halpha | rfl
    · left
      unfold Char.isAlphanum
      rw [halpha, Bool.true_or]
    · exact Or.inr rfl
  have hdot : '.' ∉ ch :: r.takeWhile isSymbolChar :=
    fun hmem => absurd (List.all_eq_true.mp hall _ hmem) (by decide)
  have hsplit : ch :: r = (ch :: r.takeWhile isSymbolChar) ++ r.dropWhile isSymbolChar := by
    rw [List.cons_append, List.takeWhile_append_dropWhile]
  unfold lexSymbol at hrest ⊢
  dsimp only at hrest ⊢
  split at hrest
  · cases hrest
  · next f hf =>
    obtain rfl := Except.ok.inj hrest
    exact ⟨_, hsplit, .function hall hf, hdot⟩
  · next v hv =>
    obtain rfl := Except.ok.inj hrest
    exact ⟨_, hsplit, .constant hall hv, hdot⟩
  · cases hrest

private theorem lexLiteral_ok (hrest : (lexLiteral hooks ch r).rest = .ok rest) :
    ∃ literal f, readLiteral ch r = .ok (literal, rest) ∧ hooks.literal2Value = some f ∧
      (lexLiteral hooks ch r).token =
        { type := .literal, val := (f literal.radix literal.beforeDot literal.afterDot).2 } := by
  unfold lexLiteral at hrest ⊢
  split at hrest
  · cases hrest
  · next literal s hread =>
    split at hrest
    · cases hrest
    · next f hf =>
      dsimp only at hrest
      split at hrest
      · obtain rfl := Except.ok.inj hrest
        exact ⟨literal, f, hread, hf, rfl⟩
      · cases hrest

private theorem readLiteral_ok (h : readLiteral ch r = .ok (literal, rest)) :
    (if ch = '0' then zeroLiteral r else .ok (decimalLiteral ch r)) = .ok (literal, rest) := by
  unfold readLiteral at h
  split at h
  · cases h
  · next literal₁ s₁ hread =>
    split at h
    · rw [hread]
      exact h
    · cases h

/-- The dots of `text` are followed, with `rest` behind the text. -/
def DotsFollowedIn (text rest : List Char) : Prop :=
  ∀ front back, text = front ++ '.' :: back → ((back ++ rest).take 2).all Char.isAlphanum = true

private theorem dotsFollowedIn_of_no_dot (h : '.' ∉ text) (rest : List Char) :
    DotsFollowedIn text rest := by
  rintro front back rfl
  exact absurd (List.mem_append_right front List.mem_cons_self) h

theorem dotsFollowed_append (text rest : List Char) :
    DotsFollowed (text ++ rest) ↔ DotsFollowedIn text rest ∧ DotsFollowed rest := by
  constructor
  · intro h
    constructor
    · rintro front back rfl
      exact h front (back ++ rest) (List.append_assoc _ _ _)
    · rintro front back rfl
      exact h (text ++ front) back (List.append_assoc _ _ _).symm
  · rintro ⟨htext, hrest⟩ front back heq
    rcases List.append_eq_append_iff.mp heq with ⟨middle, -, hmiddle⟩ | ⟨middle, rfl, hmiddle⟩
    · exact hrest middle back hmiddle
    · cases middle with
      | nil => exact hrest [] back hmiddle.symm
      | cons c middle =>
          obtain ⟨rfl, rfl⟩ := List.cons.inj hmiddle
          exact htext front middle rfl

private theorem no_dot_of_isAlphanum (h : text.all Char.isAlphanum = true) : '.' ∉ text :=
  fun hmem => absurd (List.all_eq_true.mp h _ hmem) (by decide)

theorem LiteralText.dotted (h : LiteralText literal text) (hdot : '.' ∈ text) :
    ∃ digits fraction, text = digits ++ '.' :: fraction ∧ '.' ∉ digits ∧
      fraction.all Char.isAlphanum = true := by
  have hplain : text.all Char.isAlphanum = true → ∃ digits fraction,
      text = digits ++ '.' :: fraction ∧ '.' ∉ digits ∧ fraction.all Char.isAlphanum = true :=
    fun hall => absurd hdot (no_dot_of_isAlphanum hall)
  cases h with
  | zero => exact hplain rfl
  | decimal hc _ hdigits => exact hplain (all_cons_isAlphanum hc hdigits)
  | fraction hc _ hdigits hfraction =>
      exact ⟨_, _, rfl, no_dot_of_isAlphanum (all_cons_isAlphanum hc hdigits), hfraction⟩
  | octal hc hdigits _ => exact hplain (all_cons_isAlphanum rfl (all_cons_isAlphanum hc hdigits))
  | prefixed hp hdigits =>
      apply hplain
      cases hp with
      | oneDigit hlo => exact all_cons_isAlphanum rfl (all_cons_isAlphanum hlo hdigits)
      | twoDigits hhi hlo => exact all_cons_isAlphanum rfl (all_cons_isAlphanum hhi (all_cons_isAlphanum hlo hdigits))
      | hex => exact all_cons_isAlphanum rfl hdigits

theorem Spells.dotted (h : Spells hooks table text token) (hdot : '.' ∈ text) :
    ∃ digits fraction, text = digits ++ '.' :: fraction ∧ '.' ∉ digits ∧
      fraction.all Char.isAlphanum = true := by
  cases h with
  | @operator type _ htext =>
      exfalso
      revert hdot
      cases type <;> cases htext <;> decide
  | function hname _ => exact absurd (List.all_eq_true.mp hname _ hdot) (by decide)
  | constant hname _ => exact absurd (List.all_eq_true.mp hname _ hdot) (by decide)
  | literal htext _ => exact htext.dotted hdot

private theorem dotsFollowedIn_fraction {digits fraction : List Char}
    (hdigits : digits.all Char.isAlphanum = true)
    (hiff : fraction.all Char.isAlphanum = true ↔
      ((fraction ++ rest).take 2).all Char.isAlphanum = true) :
    DotsFollowedIn (digits ++ '.' :: fraction) rest ↔ fraction.all Char.isAlphanum = true := by
  constructor
  · intro h
    exact hiff.mpr (h digits fraction rfl)
  · intro hfraction front back heq
    obtain ⟨-, -, rfl⟩ := (List.append_cons_inj_of_notMem (no_dot_of_isAlphanum hdigits)
      (no_dot_of_isAlphanum hfraction)).mp heq
    exact hiff.mp hfraction

private theorem spells_fraction {digits fraction : List Char}
    {f : Nat → List Char → List Char → Bool × Int} (hf : Hooks.default.literal2Value = some f)
    (hc : c.isDigit = true) (hc0 : c ≠ '0') (hdigits : digits.all Char.isAlphanum = true)
    (hradix : literal.radix = 10) (hbefore : literal.beforeDot = c :: digits.map Char.toLower) :
    Spells .default table (c :: digits ++ '.' :: fraction)
        { type := .literal, val := (f literal.radix literal.beforeDot literal.afterDot).2 } ↔
      fraction.all Char.isAlphanum = true := by
  constructor
  · intro h
    obtain ⟨digits₁, fraction₁, heq, hdot, hfraction⟩ :=
      h.dotted (List.mem_append_right _ List.mem_cons_self)
    obtain ⟨-, -, rfl⟩ := (List.append_cons_inj_of_notMem hdot
      (no_dot_of_isAlphanum hfraction)).mp heq.symm
    exact hfraction
  · intro hfraction
    obtain rfl := Option.some.inj hf
    rw [hradix, hbefore]
    exact .literal (.fraction hc hc0 hdigits hfraction) rfl

private theorem spelled_of_no_dot (h : ∃ text, ch :: r = text ++ rest ∧
    Spells hooks table text token ∧ '.' ∉ text) :
    ∃ text, ch :: r = text ++ rest ∧ (Spells hooks table text token ↔ DotsFollowedIn text rest) := by
  obtain ⟨text, hsplit, hspells, hdot⟩ := h
  exact ⟨text, hsplit, iff_of_true hspells (dotsFollowedIn_of_no_dot hdot rest)⟩

private theorem lexLiteral_text (table : SymbolTable) (hch : ch.isDigit = true)
    (hrest : (lexLiteral .default ch r).rest = .ok rest) :
    ∃ text, ch :: r = text ++ rest ∧
      (Spells .default table text (lexLiteral .default ch r).token ↔ DotsFollowedIn text rest) := by
  obtain ⟨literal, f, hliteral, hf, htoken⟩ := lexLiteral_ok hrest
  have hok := readLiteral_ok hliteral
  rw [htoken]
  by_cases h0 : ch = '0'
  · rw [if_pos h0] at hok
    obtain ⟨text, rfl, hall, htext⟩ := zeroLiteral_text hok
    subst h0
    exact spelled_of_no_dot ⟨'0' :: text, rfl, .literal htext hf,
      no_dot_of_isAlphanum (all_cons_isAlphanum rfl hall)⟩
  rw [if_neg h0] at hok
  have hdecimal := decimalLiteral_text (s := r) hch h0
  rw [Except.ok.inj hok] at hdecimal
  rcases hdecimal with ⟨text, hsplit, hall, htext⟩ |
    ⟨digits, fraction, hsplit, hall, hradix, hbefore, hiff⟩
  · exact spelled_of_no_dot ⟨ch :: text, congrArg (ch :: ·) hsplit, .literal htext hf,
      no_dot_of_isAlphanum (all_cons_isAlphanum hch hall)⟩
  · refine ⟨ch :: digits ++ '.' :: fraction, ?_, ?_⟩
    · rw [hsplit]
      simp only [List.cons_append, List.append_assoc]
    · rw [spells_fraction hf hch h0 hall hradix hbefore,
        dotsFollowedIn_fraction (all_cons_isAlphanum hch hall) hiff]

/-- A token is spelled by its text exactly when the dots in it are followed. -/
theorem readToken_text (hread : readToken .default table ch r = ⟨token, .ok rest⟩) :
    ∃ text, ch :: r = text ++ rest ∧
      (Spells .default table text token ↔ DotsFollowedIn text rest) := by
  unfold readToken at hread
  split at hread
  · next lexed hoperator =>
    subst hread
    exact spelled_of_no_dot (readOperator_text hoperator rfl)
  split at hread
  · next hdigit =>
    have htext := lexLiteral_text table hdigit (congrArg Lexed.rest hread)
    rwa [hread] at htext
  split at hread
  · next hsymbol =>
    have htext := readSymbol_text .default hsymbol (congrArg Lexed.rest hread)
    rw [hread] at htext
    exact spelled_of_no_dot htext
  · cases hread

theorem lexemesLoop_cons {fuel : Nat} (hs : s ≠ []) (hskip : skipWhiteChar fuel s = some (ch :: r)) :
    lexemesLoop hooks table (fuel + 1) s =
      match (readToken hooks table ch r).rest with
      | .error _ => []
      | .ok s => (ch :: r).take ((ch :: r).length - s.length) :: lexemesLoop hooks table fuel s := by
  have heof : eof s = false := by simpa [eof] using hs
  rw [lexemesLoop, heof, hskip]
  rfl

private theorem dotsFollowed_blanks (hblanks : text.all isWhiteChar = true) :
    DotsFollowed (text ++ rest) ↔ DotsFollowed rest := by
  have hdot : '.' ∉ text := fun hmem => absurd (List.all_eq_true.mp hblanks _ hmem) (by decide)
  rw [dotsFollowed_append, and_iff_right (dotsFollowedIn_of_no_dot hdot rest)]

private theorem lexemesLoop_nil {fuel : Nat} {res tokens : List Token}
    (h : tokenizerLoop .default table fuel [] res = some (tokens, none)) :
    ∃ read, tokens = res ++ (read ++ [{ type := .invalid }]) ∧
      Splits [] (lexemesLoop .default table fuel []) ∧
      (List.Forall₂ (Spells .default table) (lexemesLoop .default table fuel []) read ↔
        DotsFollowed []) := by
  have hlexemes : lexemesLoop .default table fuel [] = [] := by
    unfold lexemesLoop
    rfl
  unfold tokenizerLoop at h
  obtain ⟨rfl, -⟩ := Prod.mk.inj (Option.some.inj h)
  rw [hlexemes]
  refine ⟨[], rfl, .nil, iff_of_true .nil ?_⟩
  intro front back heq
  simp at heq

/-- The lexemes of a run without an error make up its input, and spell its tokens where the dots are
followed. -/
theorem tokenizerLoop_lexemes {fuel : Nat} {res tokens : List Token}
    (h : tokenizerLoop .default table fuel s res = some (tokens, none)) :
    ∃ read, tokens = res ++ (read ++ [{ type := .invalid }]) ∧
      Splits s (lexemesLoop .default table fuel s) ∧
      (List.Forall₂ (Spells .default table) (lexemesLoop .default table fuel s) read ↔
        DotsFollowed s) := by
  induction fuel generalizing s res with
  | zero =>
      by_cases hs : s = []
      · subst hs
        exact lexemesLoop_nil h
      · obtain ⟨_, _, _, hfuel, -⟩ := tokenizerLoop_skips hs (by rw [h]; rfl)
        cases hfuel
  | succ fuel ih =>
      by_cases hs : s = []
      · subst hs
        exact lexemesLoop_nil h
      obtain ⟨k, ch, r, hk, hskip, hdrop⟩ := tokenizerLoop_skips hs (by rw [h]; rfl)
      obtain rfl := Nat.succ.inj hk
      rw [tokenizerLoop_cons hs hskip] at h
      rw [lexemesLoop_cons hs hskip]
      cases hread : readToken .default table ch r with
      | mk token behind =>
          rw [hread] at h
          cases behind with
          | error e => cases h
          | ok s₁ =>
              obtain ⟨read, rfl, hsplits, hspells⟩ := ih h
              obtain ⟨text, htext, hiff⟩ := readToken_text hread
              have hblanks : (s.takeWhile isWhiteChar).all isWhiteChar = true := List.all_takeWhile
              have hs₁ : s = s.takeWhile isWhiteChar ++ (text ++ s₁) := by
                rw [← htext, ← hdrop, List.takeWhile_append_dropWhile]
              have htake : (ch :: r).take ((ch :: r).length - s₁.length) = text := by
                rw [htext, List.length_append, Nat.add_sub_cancel, List.take_left]
              dsimp only
              rw [htake]
              refine ⟨token :: read, ?_, ?_, ?_⟩
              · rw [List.append_assoc, List.singleton_append, List.cons_append]
              · rw [hs₁]
                exact .cons hblanks hsplits
              · rw [List.forall₂_cons, hspells, hiff, ← dotsFollowed_append, hs₁,
                  dotsFollowed_blanks hblanks]

/-- The lexemes are complete spellings of their tokens exactly when every dot is followed by two
alphanumeric characters, or by at most one at the end of the input. -/
theorem tokenizer_lexemes_iff {fuel : Nat} {tokens : List Token}
    (h : tokenizer .default table fuel s = some (tokens, none)) :
    Splits s (lexemes .default table fuel s) ∧
        List.Forall₂ (Spells .default table) (lexemes .default table fuel s) tokens.dropLast ↔
      DotsFollowed s := by
  obtain ⟨read, rfl, hsplits, hspells⟩ := tokenizerLoop_lexemes h
  rw [List.nil_append, List.dropLast_concat]
  exact (and_iff_right hsplits).trans hspells

theorem tokenizer_lexemes_two : Splits ['(', ' ', '1', '.', '2', '5', ')']
      [['('], ['1', '.', '2', '5'], [')']] ∧
    List.Forall₂ (Spells .default fun _ => none) [['('], ['1', '.', '2', '5'], [')']]
      [{ type := .leftBracket }, { type := .literal, val := 1 }, { type := .rightBracket }] := by
  have hrun : tokenizer .default (fun _ => none) 8 ['(', ' ', '1', '.', '2', '5', ')'] =
      some ([{ type := .leftBracket }, { type := .literal, val := 1 }, { type := .rightBracket },
        { type := .invalid }], none) := rfl
  refine (tokenizer_lexemes_iff hrun).mpr fun front back heq => ?_
  have hdot : ['(', ' ', '1'] ++ '.' :: ['2', '5', ')'] = front ++ '.' :: back := heq
  obtain ⟨-, -, rfl⟩ := (List.append_cons_inj_of_notMem (by decide) (by decide)).mp hdot
  decide

/-- The bracket behind `1.5` is swallowed: it becomes no token, and its lexeme is no literal. -/
theorem tokenizer_swallows : tokenizer .default (fun _ => none) 6 ['(', '1', '.', '5', ')'] =
      some ([{ type := .leftBracket }, { type := .literal, val := 1 }, { type := .invalid }], none) ∧
    lexemes .default (fun _ => none) 6 ['(', '1', '.', '5', ')'] =
      [['('], ['1', '.', '5', ')']] ∧
    ¬ List.Forall₂ (Spells .default fun _ => none) [['('], ['1', '.', '5', ')']]
      [{ type := .leftBracket }, { type := .literal, val := 1 }] := by
  refine ⟨rfl, rfl, fun h => ?_⟩
  obtain ⟨digits, fraction, heq, hdot, hfraction⟩ :=
    (List.forall₂_cons.mp (List.forall₂_cons.mp h).2).1.dotted (by decide)
  have hsplit : digits ++ '.' :: fraction = ['1'] ++ '.' :: ['5', ')'] := heq.symm
  obtain ⟨-, -, rfl⟩ := (List.append_cons_inj_of_notMem hdot
    (no_dot_of_isAlphanum hfraction)).mp hsplit
  cases hfraction

end PGBigNumber.Infix
