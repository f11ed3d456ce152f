import PGBigNumber.Infix.Eval
import PGBigNumber.Infix.Reading
import PGBigNumber.Store.Text

/-!
# The tokenizer

A `StringReadStream` is the list of the characters that are still to be read. The loops that wait
for a character take the number of their rounds as an argument, so that a loop that never ends is
one that no number suffices for.
-/

namespace PGBigNumber.Infix

namespace StringReadStream

def eof (s : List Char) : Bool := s.isEmpty

def peek (s : List Char) : Char := s.headD '\x00'

def get (s : List Char) : Char × List Char := (peek s, s.tail)

end StringReadStream

open StringReadStream

def isWhiteChar (ch : Char) : Bool :=
  ch = '\x00' ∨ ch = ' ' ∨ ch = '\r' ∨ ch = '\n' ∨ ch = '\t'

/-- `utils::skipWhiteChar`; `none` says that it is still running. -/
def skipWhiteChar : Nat → List Char → Option (List Char)
  | 0, _ => none
  | fuel + 1, s => if isWhiteChar (peek s) then skipWhiteChar fuel (get s).2 else some s

structure Literal where
  radix : Nat := 10
  beforeDot : List Char := []
  afterDot : List Char := []
deriving DecidableEq, Repr

/-- The hook that reads the value of a literal into a `Value` that is zero. -/
structure Hooks where
  literal2Value : Option (Nat → List Char → List Char → Bool × Int)

def Hooks.default : Hooks where
  literal2Value := some fun radix literalBeforeDot _ =>
    match Store.initial.pushDefault.fromString 0 literalBeforeDot radix with
    | some (σ, ok) => (ok.getD true, (σ.num 0).toInt)
    | none => (false, 0)

def isLiteralChar (ch : Char) : Bool := ch.isDigit ∨ ('a' ≤ ch ∧ ch ≤ 'z')

/-- The loops over the characters of a literal, from the state in which `ch` is to be tested: what
they push, the character they stop at, and the stream behind them. -/
def literalLoop (ch : Char) : List Char → List Char × Char × List Char
  | [] => if isLiteralChar ch then ([ch], '\x00', []) else ([], ch, [])
  | c :: s =>
    if isLiteralChar ch then
      let (chars, last, rest) := literalLoop (peek s) s
      (ch :: chars, last, rest)
    else ([], ch, c :: s)

/-- The rest of a literal with a radix prefix, behind the prefix. -/
def prefixedLiteral (radix : Nat) (literalBeforeDot : List Char) (s : List Char) :
    Except ErrCode (Literal × List Char) :=
  let (chars, ch, s) := literalLoop (peek s).toLower s
  if ch = '.' then throw .notDecButReal
  else return ({ radix, beforeDot := literalBeforeDot ++ chars }, s)

def getLoDigit (s : List Char) : Option Char × List Char :=
  if (peek s).isDigit then (some (get s).1, (get s).2) else (none, s)

def zeroLiteral (s : List Char) : Except ErrCode (Literal × List Char) :=
  if peek s = 'x' then prefixedLiteral 16 [] (get s).2
  else if (peek s).isDigit then
    let (hiDigit, s) := get s
    let (loDigit, s) := getLoDigit s
    if peek s ≠ 'x' then prefixedLiteral 8 (hiDigit :: loDigit.toList) s
    else
      let (hiDigit, loDigit) := match loDigit with
        | none => ('0', hiDigit)
        | some loDigit => (hiDigit, loDigit)
      prefixedLiteral ((hiDigit.toNat - '0'.toNat) * 10 + (loDigit.toNat - '0'.toNat)) [] (get s).2
  else return ({ beforeDot := ['0'] }, s)

/-- A literal behind its first character `ch`, which is not `0`. Behind the dot a character is read
before the loop and dropped without a test, and the one after it is skipped when the loop runs. -/
def decimalLiteral (ch : Char) (s : List Char) : Literal × List Char :=
  let (chars, last, s) := literalLoop (peek s).toLower s
  if last = '.' then
    let (first, s) := get (get s).2
    let (afterDot, _, s) := literalLoop first.toLower s
    ({ beforeDot := ch :: chars, afterDot }, s)
  else ({ beforeDot := ch :: chars }, s)

def readLiteral (ch : Char) (s : List Char) : Except ErrCode (Literal × List Char) :=
  match if ch = '0' then zeroLiteral s else .ok (decimalLiteral ch s) with
  | .error e => .error e
  | .ok (literal, s) =>
    if 2 ≤ literal.radix ∧ literal.radix ≤ 36 then .ok (literal, s) else .error .radixInvalid

/-- A token and either the stream behind it or the error on which `tokenizer` returns. -/
structure Lexed where
  token : Token
  rest : Except ErrCode (List Char)

namespace Lexed

def ok (type : TokenType) (s : List Char) : Lexed := ⟨{ type }, .ok s⟩

def error (e : ErrCode) : Lexed := ⟨{ type := .invalid }, .error e⟩

end Lexed

def readOperator (ch : Char) (s : List Char) : Option Lexed :=
  match ch with
  | '+' => some (.ok .add s)
  | '-' => some (.ok .sub s)
  | '*' => some (if peek s = '*' then .ok .pow (get s).2 else .ok .mul s)
  | '/' => some (.ok .div s)
  | '%' => some (.ok .mod s)
  | '!' => some (if peek s = '=' then .ok .nequ (get s).2 else .ok .fact s)
  | '&' => some (.ok .and s)
  | '|' => some (.ok .or s)
  | '^' => some (.ok .xor s)
  | '~' => some (.ok .not s)
  | '>' =>
    some (if peek s = '>' then .ok .shiftRight (get s).2
      else if peek s = '=' then .ok .ge (get s).2
      else .ok .gt s)
  | '<' =>
    some (if peek s = '<' then .ok .shiftLeft (get s).2
      else if peek s = '=' then .ok .le (get s).2
      else .ok .lt s)
  | '=' => some (if peek s = '=' then .ok .equ (get s).2 else .error .equInvalid)
  | '(' => some (.ok .leftBracket s)
  | ')' => some (.ok .rightBracket s)
  | ',' => some (.ok .comma s)
  | '?' => some (.ok .qmark s)
  | ':' => some (.ok .colon s)
  | _ => none

section

variable (hooks : Hooks) (table : SymbolTable)

/-- The literal case. On a literal without a value the token already is a `LITERAL`. -/
def lexLiteral (ch : Char) (s : List Char) : Lexed :=
  match readLiteral ch s with
  | .error e => .error e
  | .ok (literal, s) =>
    match hooks.literal2Value with
    | none => ⟨{ type := .literal }, .error .literal2NumError⟩
    | some literal2Value =>
      let (ok, val) := literal2Value literal.radix literal.beforeDot literal.afterDot
      ⟨{ type := .literal, val }, if ok then .ok s else .error .literal2NumError⟩

def isSymbolChar (ch : Char) : Bool := ch.isAlphanum ∨ ch = '_'

def lexSymbol (ch : Char) (s : List Char) : Lexed :=
  let symbolName := ch :: s.takeWhile isSymbolChar
  let s := s.dropWhile isSymbolChar
  match table symbolName with
  | none => .error .symbolUndefined
  | some (.func _) => ⟨{ type := .builtinFunc, pSymbol := some symbolName }, .ok s⟩
  | some (.value _) => ⟨{ type := .builtinConstant, pSymbol := some symbolName }, .ok s⟩
  | some .monostate => .error .builtinSymbolInvalid

def readToken (ch : Char) (s : List Char) : Lexed :=
  match readOperator ch s with
  | some lexed => lexed
  | none =>
    if ch.isDigit then lexLiteral hooks ch s
    else if ch.isAlpha ∨ ch = '_' then lexSymbol table ch s
    else .error .charInvalid

/-- The loop of `tokenizer`: the tokens and the error it has stopped on, if any. -/
def tokenizerLoop : Nat → List Char → List Token → Option (List Token × Option ErrCode)
  | fuel, s, res =>
    if eof s then some (res ++ [{ type := .invalid }], none)
    else
      match fuel with
      | 0 => none
      | fuel + 1 => do
        let (ch, s) := get (← skipWhiteChar fuel s)
        let ⟨token, rest⟩ := readToken hooks table ch s
        match rest with
        | .error e => some (res ++ [token], some e)
        | .ok s => tokenizerLoop fuel s (res ++ [token])

def tokenizer (fuel : Nat) (stream : List Char) : Option (List Token × Option ErrCode) :=
  tokenizerLoop hooks table fuel stream []

end

theorem skipWhiteChar_cons (fuel : Nat) (c : Char) (s : List Char) :
    skipWhiteChar (fuel + 1) (c :: s) =
      if isWhiteChar c then skipWhiteChar fuel s else some (c :: s) := rfl

theorem skipWhiteChar_eq_some {fuel : Nat} {s s' : List Char} (h : skipWhiteChar fuel s = some s') :
    s' = s.dropWhile isWhiteChar ∧ s' ≠ [] := by
  induction fuel generalizing s with
  | zero => cases h
  | succ fuel ih =>
      cases s with
      | nil => exact ih h
      | cons c s =>
          rw [skipWhiteChar_cons] at h
          rw [List.dropWhile_cons]
          split at h
          · next hc =>
            rw [if_pos hc]
            exact ih h
          · next hc =>
            obtain rfl := Option.some.inj h
            rw [if_neg hc]
            exact ⟨rfl, List.cons_ne_nil _ _⟩

theorem skipWhiteChar_of_dropWhile {fuel : Nat} {s : List Char}
    (h : s.dropWhile isWhiteChar ≠ []) (hfuel : s.length ≤ fuel) :
    skipWhiteChar fuel s = some (s.dropWhile isWhiteChar) := by
  induction s generalizing fuel with
  | nil => exact absurd rfl h
  | cons c s ih =>
      obtain ⟨fuel, rfl⟩ : ∃ k, fuel = k + 1 := ⟨fuel - 1, by simp at hfuel; omega⟩
      rw [skipWhiteChar_cons]
      rw [List.dropWhile_cons] at h ⊢
      by_cases hc : isWhiteChar c = true
      · rw [if_pos hc] at h ⊢
        rw [if_pos hc]
        exact ih h (by simpa using hfuel)
      · rw [if_neg hc, if_neg hc]

theorem get_suffix (s : List Char) : (get s).2 <:+ s := List.tail_suffix s

theorem literalLoop_suffix (ch : Char) (s : List Char) : (literalLoop ch s).2.2 <:+ s := by
  induction s generalizing ch with
  | nil =>
      unfold literalLoop
      split <;> exact List.suffix_rfl
  | cons c s ih =>
      unfold literalLoop
      split
      · exact (ih (peek s)).trans (List.suffix_cons c s)
      · exact List.suffix_rfl

variable {ch : Char} {s s' : List Char}

theorem prefixedLiteral_suffix {radix : Nat} {beforeDot : List Char} {literal : Literal}
    (h : prefixedLiteral radix beforeDot s = .ok (literal, s')) : s' <:+ s := by
  unfold prefixedLiteral at h
  dsimp only at h
  split at h
  · cases h
  · obtain ⟨-, rfl⟩ := Prod.mk.inj (Except.ok.inj h)
    exact literalLoop_suffix _ s

theorem getLoDigit_suffix (s : List Char) : (getLoDigit s).2 <:+ s := by
  unfold getLoDigit
  split
  · exact get_suffix s
  · exact List.suffix_rfl

theorem zeroLiteral_suffix {literal : Literal} (h : zeroLiteral s = .ok (literal, s')) :
    s' <:+ s := by
  unfold zeroLiteral at h
  dsimp only at h
  split at h
  · exact (prefixedLiteral_suffix h).trans (get_suffix s)
  split at h
  · have hlo := (getLoDigit_suffix (get s).2).trans (get_suffix s)
    split at h
    · exact (prefixedLiteral_suffix h).trans hlo
    · exact ((prefixedLiteral_suffix h).trans (get_suffix _)).trans hlo
  · obtain ⟨-, rfl⟩ := Prod.mk.inj (Except.ok.inj h)
    exact List.suffix_rfl

theorem decimalLiteral_suffix (ch : Char) (s : List Char) : (decimalLiteral ch s).2 <:+ s := by
  have hloop := literalLoop_suffix (peek s).toLower s
  unfold decimalLiteral
  dsimp only
  split
  · exact (((literalLoop_suffix _ _).trans (get_suffix _)).trans (get_suffix _)).trans hloop
  · exact hloop

theorem readLiteral_suffix {literal : Literal} (h : readLiteral ch s = .ok (literal, s')) :
    s' <:+ s := by
  unfold readLiteral at h
  split at h
  · cases h
  · next literal₁ s₁ hread =>
    split at h
    · obtain ⟨-, rfl⟩ := Prod.mk.inj (Except.ok.inj h)
      split at hread
      · exact zeroLiteral_suffix hread
      · have hdec := decimalLiteral_suffix ch s
        rw [Except.ok.inj hread] at hdec
        exact hdec
    · cases h

theorem prefixedLiteral_error {radix : Nat} {beforeDot : List Char} {e : ErrCode}
    (h : prefixedLiteral radix beforeDot s = .error e) : e = .notDecButReal := by
  unfold prefixedLiteral at h
  dsimp only at h
  split at h
  · exact (Except.error.inj h).symm
  · cases h

theorem zeroLiteral_error {e : ErrCode} (h : zeroLiteral s = .error e) : e = .notDecButReal := by
  unfold zeroLiteral at h
  dsimp only at h
  repeat' split at h
  all_goals first | exact prefixedLiteral_error h | cases h

theorem readLiteral_error {e : ErrCode} (h : readLiteral ch s = .error e) :
    e = .notDecButReal ∨ e = .radixInvalid := by
  unfold readLiteral at h
  split at h
  · next e₁ hread =>
    obtain rfl := Except.error.inj h
    split at hread
    · exact .inl (zeroLiteral_error hread)
    · cases hread
  · split at h
    · cases h
    · exact .inr (Except.error.inj h).symm

/-- A token without an error ends with the stream behind it, and one with an error is a sentinel
unless it is a literal without a value. -/
structure Lexed.Good (lexed : Lexed) (s : List Char) : Prop where
  suffix : ∀ s', lexed.rest = .ok s' → s' <:+ s
  sentinel : ∀ e, lexed.rest = .error e →
    if e = .literal2NumError then lexed.token.type = .literal else lexed.token.type = .invalid

theorem Lexed.Good.of_ok {token : Token} (h : s' <:+ s) : Lexed.Good ⟨token, .ok s'⟩ s where
  suffix s₁ h₁ := (Except.ok.inj h₁) ▸ h
  sentinel _ := by rintro ⟨⟩

theorem Lexed.Good.of_error {e : ErrCode} (h : e ≠ .literal2NumError) : (Lexed.error e).Good s where
  suffix _ := by rintro ⟨⟩
  sentinel e₁ h₁ := by
    obtain rfl := Except.error.inj h₁
    rw [if_neg h]
    rfl

theorem readOperator_good {lexed : Lexed} (h : readOperator ch s = some lexed) : lexed.Good s := by
  have hget := get_suffix s
  unfold readOperator at h
  split at h
  all_goals
    cases h
    repeat' split
    all_goals first
      | exact .of_ok List.suffix_rfl
      | exact .of_ok hget
      | exact .of_error (by decide)

variable {hooks : Hooks} {table : SymbolTable}

theorem lexLiteral_good (ch : Char) (s : List Char) : (lexLiteral hooks ch s).Good s := by
  unfold lexLiteral
  split
  · next e he =>
    apply Lexed.Good.of_error
    rcases readLiteral_error he with rfl | rfl <;> decide
  · next literal s₁ hread =>
    have hsuffix := readLiteral_suffix hread
    split
    · exact ⟨fun _ => by rintro ⟨⟩, fun e he => by rw [← Except.error.inj he, if_pos rfl]⟩
    · next literal2Value _ =>
      dsimp only
      constructor
      · intro s₂ h₂
        split at h₂
        · exact (Except.ok.inj h₂) ▸ hsuffix
        · cases h₂
      · intro e he
        split at he
        · cases he
        · rw [← Except.error.inj he, if_pos rfl]

theorem lexSymbol_good (ch : Char) (s : List Char) : (lexSymbol table ch s).Good s := by
  unfold lexSymbol
  dsimp only
  split
  · exact .of_error (by decide)
  · exact .of_ok (List.dropWhile_suffix _)
  · exact .of_ok (List.dropWhile_suffix _)
  · exact .of_error (by decide)

theorem readToken_good (ch : Char) (s : List Char) : (readToken hooks table ch s).Good s := by
  unfold readToken
  split
  · next lexed h => exact readOperator_good h
  split
  · exact lexLiteral_good ch s
  split
  · exact lexSymbol_good ch s
  · exact .of_error (by decide)

/-- `t` is what is left of `s` when the loop of `tokenizer` starts one of its rounds. -/
inductive TokenStart (hooks : Hooks) (table : SymbolTable) : List Char → List Char → Prop
  | here (s : List Char) : TokenStart hooks table s s
  | behind {s r r' t : List Char} {ch : Char} (hskip : s.dropWhile isWhiteChar = ch :: r)
      (hread : (readToken hooks table ch r).rest = .ok r') (h : TokenStart hooks table r' t) :
      TokenStart hooks table s t

def NotBlank (s : List Char) : Prop := s ≠ [] → ∃ ch ∈ s, isWhiteChar ch = false

theorem notBlank_iff : NotBlank s ↔ s = [] ∨ s.dropWhile isWhiteChar ≠ [] := by
  have hdrop : s.dropWhile isWhiteChar ≠ [] ↔ ∃ ch ∈ s, isWhiteChar ch = false := by
    simp [List.dropWhile_eq_nil_iff]
  rw [hdrop, NotBlank]
  tauto

theorem tokenizerLoop_cons {fuel : Nat} {res : List Token} {ch : Char} {r : List Char}
    (hs : s ≠ []) (hskip : skipWhiteChar fuel s = some (ch :: r)) :
    tokenizerLoop hooks table (fuel + 1) s res =
      match (readToken hooks table ch r).rest with
      | .error e => some (res ++ [(readToken hooks table ch r).token], some e)
      | .ok s => tokenizerLoop hooks table fuel s (res ++ [(readToken hooks table ch r).token]) := by
  have heof : eof s = false := by simpa [eof] using hs
  rw [tokenizerLoop, heof, hskip]
  rfl

theorem tokenizerLoop_skips {fuel : Nat} {res : List Token} (hs : s ≠ [])
    (h : (tokenizerLoop hooks table fuel s res).isSome) :
    ∃ k ch r, fuel = k + 1 ∧ skipWhiteChar k s = some (ch :: r) ∧
      s.dropWhile isWhiteChar = ch :: r := by
  have heof : eof s = false := by simpa [eof] using hs
  cases fuel with
  | zero =>
      rw [tokenizerLoop, heof] at h
      cases h
  | succ k =>
      cases hskip : skipWhiteChar k s with
      | none =>
          rw [tokenizerLoop, heof, hskip] at h
          cases h
      | some s' =>
          obtain ⟨hs', hne⟩ := skipWhiteChar_eq_some hskip
          obtain ⟨ch, r, rfl⟩ := List.exists_cons_of_ne_nil hne
          exact ⟨k, ch, r, rfl, hskip, hs'.symm⟩

theorem tokenizerLoop_nil (fuel : Nat) (res : List Token) :
    tokenizerLoop hooks table fuel [] res = some (res ++ [{ type := .invalid }], none) := by
  cases fuel <;> rfl

theorem tokenizerLoop_unique {fuel fuel' : Nat} {res : List Token}
    {p p' : List Token × Option ErrCode} (h : tokenizerLoop hooks table fuel s res = some p)
    (h' : tokenizerLoop hooks table fuel' s res = some p') : p = p' := by
  induction fuel generalizing fuel' s res with
  | zero =>
      by_cases hs : s = []
      · subst hs
        rw [tokenizerLoop_nil] at h h'
        exact Option.some.inj (h.symm.trans h')
      · obtain ⟨k, -, -, hk, -⟩ := tokenizerLoop_skips hs (by rw [h]; rfl)
        cases hk
  | succ fuel ih =>
      by_cases hs : s = []
      · subst hs
        rw [tokenizerLoop_nil] at h h'
        exact Option.some.inj (h.symm.trans h')
      obtain ⟨k, ch, r, hk, hskip, hdrop⟩ := tokenizerLoop_skips hs (by rw [h]; rfl)
      obtain rfl := Nat.succ.inj hk
      obtain ⟨k', ch', r', rfl, hskip', hdrop'⟩ := tokenizerLoop_skips hs (by rw [h']; rfl)
      obtain ⟨rfl, rfl⟩ := List.cons.inj (hdrop.symm.trans hdrop')
      rw [tokenizerLoop_cons hs hskip] at h
      rw [tokenizerLoop_cons hs hskip'] at h'
      split at h
      · next e he =>
        rw [he] at h'
        exact Option.some.inj (h.symm.trans h')
      · next rest hrest =>
        rw [hrest] at h'
        exact ih h h'

/-- Where the loop gets on, a token starts in front of more than blanks. -/
theorem notBlank_of_isSome {fuel : Nat} {s t : List Char} {res : List Token}
    (h : (tokenizerLoop hooks table fuel s res).isSome) (ht : TokenStart hooks table s t) :
    NotBlank t := by
  induction ht generalizing fuel res with
  | here s =>
      rw [notBlank_iff]
      by_cases hs : s = []
      · exact .inl hs
      · obtain ⟨_, _, _, -, -, hdrop⟩ := tokenizerLoop_skips hs h
        exact .inr (by simp [hdrop])
  | @behind s _ _ _ _ hskip hread _ ih =>
      have hs : s ≠ [] := by
        rintro rfl
        cases hskip
      obtain ⟨k, ch, r, rfl, hk, hdrop⟩ := tokenizerLoop_skips hs h
      obtain ⟨rfl, rfl⟩ := List.cons.inj (hdrop.symm.trans hskip)
      rw [tokenizerLoop_cons hs hk, hread] at h
      exact ih h

theorem isSome_of_notBlank {fuel : Nat} {s : List Char} (res : List Token)
    (hs : ∀ t, TokenStart hooks table s t → NotBlank t) (hfuel : s.length < fuel) :
    (tokenizerLoop hooks table fuel s res).isSome := by
  induction fuel generalizing s res with
  | zero => omega
  | succ fuel ih =>
      by_cases hnil : s = []
      · subst hnil
        rfl
      have hdrop := (notBlank_iff.mp (hs s (.here s))).resolve_left hnil
      have hskip := skipWhiteChar_of_dropWhile hdrop (Nat.lt_succ_iff.mp hfuel)
      obtain ⟨ch, r, hcons⟩ := List.exists_cons_of_ne_nil hdrop
      rw [hcons] at hskip
      rw [tokenizerLoop_cons hnil hskip]
      split
      · rfl
      · next r' hread =>
        have hlen : r'.length ≤ r.length := ((readToken_good ch r).suffix r' hread).length_le
        have hdropLen : (ch :: r).length ≤ s.length := hcons ▸ (List.dropWhile_suffix _).length_le
        rw [List.length_cons] at hdropLen
        exact ih _ (fun t ht => hs t (.behind hcons hread ht)) (by omega)

/-- `tokenizer` returns exactly when no token starts in front of nothing but blanks. -/
theorem tokenizer_returns_iff (hooks : Hooks) (table : SymbolTable) (s : List Char) :
    (∃ fuel, (tokenizer hooks table fuel s).isSome) ↔
      ∀ t, TokenStart hooks table s t → NotBlank t :=
  ⟨fun ⟨_, h⟩ _ ht => notBlank_of_isSome h ht,
    fun hs => ⟨s.length + 1, isSome_of_notBlank [] hs (Nat.lt_succ_self _)⟩⟩

/-- On a blank behind `1` the loop that skips blanks does not end. -/
theorem tokenizer_runs_on : ¬ ∀ hooks table s, ∃ fuel, (tokenizer hooks table fuel s).isSome := by
  intro h
  obtain ⟨fuel, hfuel⟩ := h .default (fun _ => none) ['1', ' ']
  have hstart : TokenStart .default (fun _ => none) ['1', ' '] [' '] := .behind rfl rfl (.here _)
  obtain ⟨ch, hch, hblank⟩ := notBlank_of_isSome hfuel hstart (by decide)
  rw [List.mem_singleton.mp hch] at hblank
  cases hblank

theorem TokenStart.suffix {s t : List Char} (h : TokenStart hooks table s t) : t <:+ s := by
  induction h with
  | here s => exact List.suffix_rfl
  | @behind s _ _ _ _ hskip hread _ ih =>
      have hdrop : s.dropWhile isWhiteChar <:+ s := List.dropWhile_suffix _
      rw [hskip] at hdrop
      exact (ih.trans ((readToken_good _ _).suffix _ hread)).trans
        ((List.suffix_cons _ _).trans hdrop)

theorem tokenizer_returns_of_getLast (hooks : Hooks) (table : SymbolTable) {s : List Char}
    (h : ∀ ch, s.getLast? = some ch → isWhiteChar ch = false) :
    ∃ fuel, (tokenizer hooks table fuel s).isSome := by
  refine ⟨s.length + 1, isSome_of_notBlank [] (fun t ht hnil => ?_) (Nat.lt_succ_self _)⟩
  obtain ⟨p, rfl⟩ := ht.suffix
  refine ⟨t.getLast hnil, List.getLast_mem hnil, h _ ?_⟩
  rw [List.getLast?_append_of_ne_nil _ hnil, List.getLast?_eq_getLast_of_ne_nil hnil]

/-- The last token is a sentinel unless `tokenizer` has stopped on a literal without a value. -/
theorem tokenizerLoop_last {fuel : Nat} {s : List Char} {res tokens : List Token}
    {status : Option ErrCode} (h : tokenizerLoop hooks table fuel s res = some (tokens, status)) :
    ∃ front token, tokens = front ++ [token] ∧
      if status = some .literal2NumError then token.type = .literal
      else token.type = .invalid := by
  induction fuel generalizing s res with
  | zero =>
      unfold tokenizerLoop at h
      split at h
      · obtain ⟨rfl, rfl⟩ := Prod.mk.inj (Option.some.inj h)
        exact ⟨res, _, rfl, rfl⟩
      · cases h
  | succ fuel ih =>
      by_cases hs : s = []
      · subst hs
        obtain ⟨rfl, rfl⟩ := Prod.mk.inj (Option.some.inj h)
        exact ⟨res, _, rfl, rfl⟩
      obtain ⟨k, ch, r, hk, hskip, -⟩ := tokenizerLoop_skips hs (by rw [h]; rfl)
      obtain rfl := Nat.succ.inj hk
      rw [tokenizerLoop_cons hs hskip] at h
      split at h
      · next e he =>
        obtain ⟨rfl, rfl⟩ := Prod.mk.inj (Option.some.inj h)
        refine ⟨res, _, rfl, ?_⟩
        simpa only [Option.some.injEq] using (readToken_good ch r).sentinel e he
      · exact ih h

def scanThrough : Config → List TokenType → Option Config
  | c, [] => some c
  | c, t :: ts =>
    match move c t with
    | .go c' => scanThrough c' ts
    | .halt _ => none

def OperandDue (tokens : List Token) : Prop :=
  ∃ c, scanThrough ⟨.operand, false, {}, []⟩ (tokens.map Token.type) = some c ∧
    (c.mode = .operand ∨ c.mode = .firstArg)

theorem scan_append_singleton (c : Config) (ts : List TokenType) (t : TokenType) :
    scan c (ts ++ [t]) = .overrun ↔
      ∃ c', scanThrough c ts = some c' ∧ ∃ c'', move c' t = .go c'' := by
  induction ts generalizing c with
  | nil =>
      rw [List.nil_append, scan]
      cases hm : move c t <;> simp [scanThrough, scan, hm]
  | cons t₁ ts ih =>
      rw [List.cons_append, scan, scanThrough]
      cases move c t₁ with
      | go c₁ => exact ih c₁
      | halt r => simp

private theorem operatorOr_plain {t : TokenType} (ht : t = .invalid ∨ t = .literal) (equ : Bool)
    (r : Report) (s : List Frame) (ended : Move) : operatorOr t equ r s ended = ended := by
  rcases ht with rfl | rfl <;>
    simp [operatorOr, TokenType.isTight, TokenType.isEquality, TokenType.isBitwise]

private theorem close_plain {t : TokenType} (ht : t = .invalid ∨ t = .literal) (r : Report)
    (s : List Frame) : ∃ r', close t r s = .halt r' := by
  have hcloser : t ≠ .rightBracket ∧ t ≠ .comma ∧ t ≠ .colon := by
    rcases ht with rfl | rfl <;> decide
  obtain ⟨hbracket, hcomma, hcolon⟩ := hcloser
  induction s generalizing r with
  | nil => exact ⟨r, rfl⟩
  | cons f s ih =>
      cases f with
      | paren equ =>
          rw [close, if_neg hbracket, operatorOr_plain ht]
          exact ih _
      | arg equ =>
          rw [close, if_neg hbracket, if_neg hcomma, operatorOr_plain ht]
          exact ih _
      | then_ =>
          rw [close, if_neg hcolon]
          split <;> exact ih _
      | els => exact ih _

private theorem atOperator_plain {t : TokenType} (ht : t = .invalid ∨ t = .literal) (equ : Bool)
    (r : Report) (s : List Frame) : ∃ r', atOperator equ r s t = .halt r' := by
  rw [atOperator, operatorOr_plain ht]
  exact close_plain ht r s

theorem move_invalid (c : Config) : ∃ r, move c .invalid = .halt r := by
  obtain ⟨mode, equ, r, s⟩ := c
  have hoperator := atOperator_plain (t := .invalid) (.inl rfl)
  cases mode with
  | operand => exact hoperator equ r.missing s
  | operator => exact hoperator equ r s
  | call => exact hoperator equ r.fail s
  | firstArg => exact hoperator false r.missing (.arg equ :: s)

theorem move_literal (c : Config) :
    (∃ c', move c .literal = .go c') ↔ c.mode = .operand ∨ c.mode = .firstArg := by
  obtain ⟨mode, equ, r, s⟩ := c
  have hoperator := atOperator_plain (.inr rfl) equ
  cases mode with
  | operand => exact iff_of_true ⟨_, rfl⟩ (.inl rfl)
  | firstArg => exact iff_of_true ⟨_, rfl⟩ (.inr rfl)
  | operator =>
      obtain ⟨r', h⟩ := hoperator r s
      simp [move, h]
  | call =>
      obtain ⟨r', h⟩ := hoperator r.fail s
      simp [move, h]

theorem parse_isOk_iff (tokens : List Token) :
    (∃ node st, parse tokens = .ok (node, st)) ↔ scanTokens tokens ≠ .overrun := by
  have h := parse_scan tokens
  change (∃ node st, parseExpr tokens (tokens.length + 3) {} = .ok (node, st)) ↔ _
  cases hrun : parseExpr tokens (tokens.length + 3) {} with
  | error e =>
      rw [Outcome.ensures_of_error hrun] at h
      simp [h.2]
  | ok p =>
      rw [Outcome.ensures_of_ok hrun] at h
      obtain ⟨-, r, -, hscan, -, -⟩ := h
      exact iff_of_true ⟨p.1, p.2, rfl⟩ (by rw [hscan]; rintro ⟨⟩)

/-- The parser reads no token behind the last one, except where the tokenizer has stopped on a
literal without a value and the parser takes it. -/
theorem parse_inBounds_iff {fuel : Nat} {s : List Char} {tokens : List Token}
    {status : Option ErrCode} (h : tokenizer hooks table fuel s = some (tokens, status)) :
    (∃ node st, parse tokens = .ok (node, st)) ↔
      ¬ (status = some .literal2NumError ∧ OperandDue tokens.dropLast) := by
  obtain ⟨front, token, rfl, htoken⟩ := tokenizerLoop_last h
  rw [parse_isOk_iff, List.dropLast_concat, scanTokens, List.map_append, List.map_singleton, Ne,
    scan_append_singleton, not_iff_not]
  split at htoken
  · next hstatus =>
    simp only [htoken, move_literal, hstatus, true_and, OperandDue]
  · next hstatus =>
    constructor
    · rintro ⟨c, -, c', hgo⟩
      obtain ⟨r, hhalt⟩ := move_invalid c
      rw [htoken, hhalt] at hgo
      cases hgo
    · rintro ⟨hcode, -⟩
      exact absurd hcode hstatus

def maxTable : SymbolTable := fun name =>
  if name = ['m', 'a', 'x'] then some (.func ⟨some fun args => args.foldl max 0, 2⟩) else none

def maxTokens : List Token :=
  [⟨.builtinFunc, some ['m', 'a', 'x'], 0⟩, ⟨.leftBracket, none, 0⟩, ⟨.literal, none, 2⟩,
    ⟨.comma, none, 0⟩, ⟨.literal, none, 3⟩, ⟨.rightBracket, none, 0⟩, ⟨.mul, none, 0⟩,
    ⟨.literal, none, 4⟩, ⟨.invalid, none, 0⟩]

theorem maxTokens_read : tokenizer .default maxTable 10 "max(2,3)*4".toList =
    some (maxTokens, none) := by
  decide +kernel

theorem maxTable_callable {name : SymbolName} {f : Func} (h : maxTable name = some (.func f)) :
    f.nativeCall ≠ none := by
  unfold maxTable at h
  split at h
  · obtain rfl := Symbol.func.inj (Option.some.inj h)
    simp
  · cases h

theorem parse_inBounds_max : ∃ node st, parse maxTokens = .ok (node, st) :=
  (parse_inBounds_iff maxTokens_read).mpr (by rintro ⟨⟨⟩, -⟩)

/-- `09` has no value in the octal system: its literal is the last token, and the parser reads the
one behind it. -/
theorem parse_outOfBounds : ¬ ∀ hooks table fuel s tokens status,
    tokenizer hooks table fuel s = some (tokens, status) →
      ∃ node st, parse tokens = .ok (node, st) := by
  intro h
  obtain ⟨node, st, hrun⟩ := h .default (fun _ => none) 3 ['0', '9'] [⟨.literal, none, 0⟩]
    (some .literal2NumError) rfl
  cases hrun

end PGBigNumber.Infix
