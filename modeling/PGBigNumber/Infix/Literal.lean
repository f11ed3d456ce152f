import PGBigNumber.Infix.Tokenizer

/-!
# Literals

What the loops over the characters of a literal take, and which literals come out with their value.
Only the first character that a loop tests is turned into lower case, so a capital letter behind it
ends the literal.
-/

namespace PGBigNumber

namespace Infix

variable {c : Char}

theorem isUpper_iff : c.isUpper = true ↔ 65 ≤ c.toNat ∧ c.toNat ≤ 90 := decide_eq_true_iff

theorem isDigit_iff : c.isDigit = true ↔ 48 ≤ c.toNat ∧ c.toNat ≤ 57 := by
  simp [Char.isDigit, UInt32.le_iff_toNat_le, ← Char.toNat_val]

theorem isAlpha_iff : c.isAlpha = true ↔
    65 ≤ c.toNat ∧ c.toNat ≤ 90 ∨ 97 ≤ c.toNat ∧ c.toNat ≤ 122 := by
  have hlower : c.isLower = true ↔ 97 ≤ c.toNat ∧ c.toNat ≤ 122 := by
    change (decide (c.val ≥ 'a'.val) && decide (c.val ≤ 'z'.val)) = true ↔ _
    rw [Bool.and_eq_true, decide_eq_true_iff, decide_eq_true_iff]
    exact Iff.rfl
  unfold Char.isAlpha
  rw [Bool.or_eq_true, isUpper_iff, hlower]

theorem isAlphanum_iff : c.isAlphanum = true ↔ 48 ≤ c.toNat ∧ c.toNat ≤ 57 ∨
    65 ≤ c.toNat ∧ c.toNat ≤ 90 ∨ 97 ≤ c.toNat ∧ c.toNat ≤ 122 := by
  unfold Char.isAlphanum
  rw [Bool.or_eq_true, isAlpha_iff, isDigit_iff, or_comm]

theorem isLiteralChar_iff : isLiteralChar c = true ↔
    48 ≤ c.toNat ∧ c.toNat ≤ 57 ∨ 97 ≤ c.toNat ∧ c.toNat ≤ 122 := by
  unfold isLiteralChar
  rw [decide_eq_true_iff, isDigit_iff]
  exact Iff.rfl

theorem toNat_toLower (c : Char) :
    c.toLower.toNat = if c.isUpper = true then c.toNat + 32 else c.toNat := by
  unfold Char.toLower
  split
  · next h =>
    have hle : c.val.toNat ≤ 90 := h.2
    rw [if_pos (isUpper_iff.mpr h)]
    change (c.val + 32).toNat = c.val.toNat + 32
    rw [UInt32.toNat_add]
    exact Nat.mod_eq_of_lt (show c.val.toNat + 32 < 2 ^ 32 by omega)
  · next h => rw [if_neg fun hu => h (isUpper_iff.mp hu)]

theorem isLiteralChar_toLower (c : Char) : isLiteralChar c.toLower = c.isAlphanum := by
  rw [Bool.eq_iff_iff, isLiteralChar_iff, isAlphanum_iff, toNat_toLower]
  split
  · next hu =>
    rw [isUpper_iff] at hu
    omega
  · next hu =>
    rw [isUpper_iff] at hu
    omega

theorem isLiteralChar_eq (c : Char) : isLiteralChar c = (c.isAlphanum && !c.isUpper) := by
  rw [Bool.eq_iff_iff, Bool.and_eq_true, isLiteralChar_iff, isAlphanum_iff, Bool.not_eq_true',
    ← Bool.not_eq_true, isUpper_iff]
  omega

theorem digitValue_toLower (c : Char) : digitValue c.toLower = digitValue c := by
  have heq : ∀ d : Char, digitValue d =
      if 48 ≤ d.toNat ∧ d.toNat ≤ 57 then some (d.toNat - 48)
      else if 97 ≤ d.toNat ∧ d.toNat ≤ 122 then some (d.toNat - 97 + 10)
      else if 65 ≤ d.toNat ∧ d.toNat ≤ 90 then some (d.toNat - 65 + 10)
      else none := fun _ => rfl
  rw [heq, heq, toNat_toLower]
  by_cases hu : c.isUpper = true
  · have hrange := isUpper_iff.mp hu
    rw [if_pos hu, if_neg (by omega), if_pos (by omega), if_neg (by omega), if_neg (by omega),
      if_pos hrange]
    congr 1
  · rw [if_neg hu]

theorem toLower_of_not_isUpper (h : c.isUpper = false) : c.toLower = c := by
  apply Char.toNat_inj.mp
  rw [toNat_toLower, h, if_neg Bool.false_ne_true]

theorem toLower_eq_iff {e : Char} (he : e.isAlpha = false) : c.toLower = e ↔ c = e := by
  by_cases hu : c.isUpper = true
  · have hnat := toNat_toLower c
    rw [if_pos hu] at hnat
    rw [isUpper_iff] at hu
    rw [← Bool.not_eq_true, isAlpha_iff] at he
    constructor
    · rintro rfl
      omega
    · rintro rfl
      omega
  · rw [toLower_of_not_isUpper (Bool.not_eq_true _ ▸ hu)]

theorem isUpper_of_isDigit (h : c.isDigit = true) : c.isUpper = false := by
  rw [isDigit_iff] at h
  rw [← Bool.not_eq_true, isUpper_iff]
  omega

theorem isAlphanum_of_isDigit (h : c.isDigit = true) : c.isAlphanum = true :=
  isAlphanum_iff.mpr (Or.inl (isDigit_iff.mp h))

theorem isAlphanum_of_digit {radix : Nat} (h : PGBigNumber.isDigit radix c = true) :
    c.isAlphanum = true := by
  unfold PGBigNumber.isDigit digitValue at h
  rw [isAlphanum_iff]
  split at h
  · next hrange => exact Or.inl hrange
  split at h
  · next hrange => exact Or.inr (Or.inr hrange)
  split at h
  · next hrange => exact Or.inr (Or.inl hrange)
  · cases h

end Infix

variable {radix : Nat} {c : Char} {t : List Char}

theorem isDigit_toLower (c : Char) : isDigit radix c.toLower = isDigit radix c := by
  unfold isDigit
  rw [Infix.digitValue_toLower]

theorem digitsMag_toLower (c : Char) (t : List Char) :
    digitsMag radix (c.toLower :: t) = digitsMag radix (c :: t) := by
  have hcons : ∀ d, digitsMag radix (d :: t) =
      (digitValue d).getD 0 * radix ^ t.length + digitsMag radix t := by
    intro d
    rw [← List.singleton_append, digitsMag_append]
    rfl
  rw [hcons, hcons, Infix.digitValue_toLower]

private theorem unsigned_digits (hc : isDigit radix c = true) : unsigned (c :: t) = c :: t := by
  have hne : ∀ e, isDigit radix e = false → c ≠ e := by
    rintro e he rfl
    rw [he] at hc
    cases hc
  apply if_neg
  rw [List.head?_cons, Option.some_inj, Option.some_inj]
  exact not_or.mpr ⟨hne '-' rfl, hne '+' rfl⟩

theorem significant_digits (hc : isDigit radix c = true) (hc0 : c ≠ '0') :
    significant (c :: t) = c :: t := by
  unfold significant
  rw [unsigned_digits hc, List.dropWhile_cons_of_neg (by simpa using hc0)]

theorem denote_digits (hd : (c :: t).all (isDigit radix) = true) :
    denote radix (c :: t) = some (digitsMag radix (c :: t) : Int) := by
  have hc := List.all_eq_true.mp hd c List.mem_cons_self
  have hsign : (c :: t).head? ≠ some '-' := by
    rintro heq
    rw [Option.some_inj.mp heq] at hc
    cases hc
  unfold denote
  rw [unsigned_digits hc, if_pos ⟨List.cons_ne_nil c t, hd⟩, if_neg hsign, Int.one_mul]

namespace Infix

open StringReadStream

theorem literalLoop_peek (s : List Char) :
    literalLoop (peek s) s = (s.takeWhile isLiteralChar, peek (s.dropWhile isLiteralChar),
      s.dropWhile isLiteralChar) := by
  induction s with
  | nil => rfl
  | cons c s ih =>
      have hpeek : peek (c :: s) = c := rfl
      rw [hpeek]
      by_cases hc : isLiteralChar c = true
      · rw [literalLoop, if_pos hc, ih, List.takeWhile_cons_of_pos hc,
          List.dropWhile_cons_of_pos hc]
      · rw [literalLoop, if_neg hc, List.takeWhile_cons_of_neg hc, List.dropWhile_cons_of_neg hc,
          hpeek]

/-- A loop that is given its first character `ch` steps over one without a test. -/
theorem literalLoop_eq (ch : Char) (s : List Char) :
    literalLoop ch s =
      if isLiteralChar ch then
        (ch :: s.tail.takeWhile isLiteralChar, peek (s.tail.dropWhile isLiteralChar),
          s.tail.dropWhile isLiteralChar)
      else ([], ch, s) := by
  cases s with
  | nil => rfl
  | cons c s => rw [literalLoop, literalLoop_peek, List.tail_cons]

theorem takeWhile_append_of_stop {p : Char → Bool} (t : List Char) {rest : List Char}
    (h : ∀ c ∈ rest.head?, p c = false) :
    (t ++ rest).takeWhile p = t.takeWhile p ∧ (t ++ rest).dropWhile p = t.dropWhile p ++ rest := by
  induction t with
  | nil =>
      cases rest with
      | nil => exact ⟨rfl, rfl⟩
      | cons c rest =>
          have hc : ¬ p c = true := by
            rw [h c rfl]
            exact Bool.false_ne_true
          exact ⟨List.takeWhile_cons_of_neg hc, List.dropWhile_cons_of_neg hc⟩
  | cons c t ih =>
      by_cases hc : p c = true
      · rw [List.cons_append, List.takeWhile_cons_of_pos hc, List.takeWhile_cons_of_pos hc,
          List.dropWhile_cons_of_pos hc, List.dropWhile_cons_of_pos hc, ih.1]
        exact ⟨rfl, ih.2⟩
      · rw [List.cons_append, List.takeWhile_cons_of_neg hc, List.takeWhile_cons_of_neg hc,
          List.dropWhile_cons_of_neg hc, List.dropWhile_cons_of_neg hc]
        exact ⟨rfl, rfl⟩

/-- A character of the input that nothing of a literal before it goes on with. -/
def EndsLiteral (rest : List Char) : Prop :=
  ∀ c ∈ rest.head?, c.isAlphanum = false ∧ c ≠ '.' ∧ c ≠ '_'

/-- What can stand in front of the digits: `0<r>x` with the radix in one or two digits, `0x` for 16,
and nothing for 10. -/
inductive RadixPrefix : Nat → List Char → Prop
  | oneDigit {lo : Char} (hlo : lo.isDigit) : RadixPrefix (lo.toNat - '0'.toNat) ['0', lo, 'x']
  | twoDigits {hi lo : Char} (hhi : hi.isDigit) (hlo : lo.isDigit) :
    RadixPrefix ((hi.toNat - '0'.toNat) * 10 + (lo.toNat - '0'.toNat)) ['0', hi, lo, 'x']
  | hex : RadixPrefix 16 ['0', 'x']
  | decimal : RadixPrefix 10 []

/-- The token at the start of `s` is `token`, and `rest` stands behind it. -/
def Yields (hooks : Hooks) (table : SymbolTable) (s : List Char) (token : Token)
    (rest : List Char) : Prop :=
  ∃ ch r, s = ch :: r ∧ isWhiteChar ch = false ∧ readToken hooks table ch r = ⟨token, .ok rest⟩

variable {hooks : Hooks} {table : SymbolTable} {radix : Nat} {c : Char} {d t p rest : List Char}

theorem Yields.loop {s : List Char} {token : Token} (h : Yields hooks table s token rest)
    (fuel : Nat) (res : List Token) :
    tokenizerLoop hooks table (fuel + 2) s res =
      tokenizerLoop hooks table (fuel + 1) rest (res ++ [token]) := by
  obtain ⟨ch, r, rfl, hblank, hread⟩ := h
  have hskip : skipWhiteChar (fuel + 1) (ch :: r) = some (ch :: r) := by
    rw [skipWhiteChar_cons, hblank, if_neg Bool.false_ne_true]
  rw [tokenizerLoop_cons (List.cons_ne_nil ch r) hskip, hread]

private theorem EndsLiteral.not_literalChar (h : EndsLiteral rest) :
    ∀ c ∈ rest.head?, isLiteralChar c = false := by
  intro c hc
  rw [isLiteralChar_eq, (h c hc).1, Bool.false_and]

private theorem stop_ne_dot (hd : t.all Char.isAlphanum = true) (hrest : EndsLiteral rest) :
    peek (t.dropWhile isLiteralChar ++ rest) ≠ '.' := by
  cases hdrop : t.dropWhile isLiteralChar with
  | cons c l =>
      rintro rfl
      have hmem : '.' ∈ t := by
        apply (List.dropWhile_suffix isLiteralChar).subset
        rw [hdrop]
        exact List.mem_cons_self
      exact absurd (List.all_eq_true.mp hd _ hmem) (by decide)
  | nil =>
      cases rest with
      | nil => decide
      | cons c rest => exact (hrest c rfl).2.1

private theorem literalLoop_digits (hc : c.isAlphanum = true) (hrest : EndsLiteral rest) :
    literalLoop (peek (c :: (t ++ rest))).toLower (c :: (t ++ rest)) =
      (c.toLower :: t.takeWhile isLiteralChar, peek (t.dropWhile isLiteralChar ++ rest),
        t.dropWhile isLiteralChar ++ rest) := by
  obtain ⟨htake, hdrop⟩ := takeWhile_append_of_stop t hrest.not_literalChar
  have hpeek : peek (c :: (t ++ rest)) = c := rfl
  rw [literalLoop_eq, hpeek, isLiteralChar_toLower, if_pos hc, List.tail_cons, htake, hdrop]

private theorem prefixedLiteral_digits (hd : (c :: t).all Char.isAlphanum = true)
    (hrest : EndsLiteral rest) :
    prefixedLiteral radix [] (c :: (t ++ rest)) =
      .ok ({ radix, beforeDot := c.toLower :: t.takeWhile isLiteralChar },
        t.dropWhile isLiteralChar ++ rest) := by
  rw [List.all_cons, Bool.and_eq_true] at hd
  unfold prefixedLiteral
  rw [literalLoop_digits hd.1 hrest]
  dsimp only
  rw [if_neg (stop_ne_dot hd.2 hrest)]
  rfl

private theorem zeroLiteral_prefix (hp : RadixPrefix radix ('0' :: p)) (s : List Char) :
    zeroLiteral (p ++ s) = prefixedLiteral radix [] s := by
  have hx : ∀ {lo : Char}, lo.isDigit = true → lo ≠ 'x' := by
    rintro lo hlo rfl
    cases hlo
  cases hp with
  | hex => exact if_pos rfl
  | @oneDigit lo hlo =>
      have hpeek : peek (lo :: 'x' :: s) = lo := rfl
      have hget : getLoDigit (get (lo :: 'x' :: s)).2 = (none, 'x' :: s) := rfl
      unfold zeroLiteral
      rw [List.cons_append, List.cons_append, List.nil_append, hpeek, if_neg (hx hlo), if_pos hlo]
      dsimp only
      rw [hget]
      change prefixedLiteral (0 * 10 + (lo.toNat - '0'.toNat)) [] s = _
      rw [Nat.zero_mul, Nat.zero_add]
  | @twoDigits hi lo hhi hlo =>
      have hpeek : peek (hi :: lo :: 'x' :: s) = hi := rfl
      have hget : getLoDigit (get (hi :: lo :: 'x' :: s)).2 = (some lo, 'x' :: s) := if_pos hlo
      unfold zeroLiteral
      rw [List.cons_append, List.cons_append, List.cons_append, List.nil_append, hpeek,
        if_neg (hx hhi), if_pos hhi]
      dsimp only
      rw [hget]
      rfl

private theorem isDigit_of_ten (hc : PGBigNumber.isDigit 10 c = true) : c.isDigit = true := by
  unfold PGBigNumber.isDigit digitValue at hc
  rw [isDigit_iff]
  split at hc
  · next hrange => exact hrange
  split at hc
  · simp at hc
  split at hc
  · simp at hc
  · cases hc

private theorem decimalLiteral_digits (hc : c.isDigit = true) (ht : t.all Char.isDigit = true)
    (hrest : EndsLiteral rest) :
    decimalLiteral c (t ++ rest) =
      ({ beforeDot := c.toLower :: t.takeWhile isLiteralChar },
        t.dropWhile isLiteralChar ++ rest) := by
  have hupper : (peek (t ++ rest)).isUpper = false := by
    cases t with
    | cons e t =>
        rw [List.all_cons, Bool.and_eq_true] at ht
        exact isUpper_of_isDigit ht.1
    | nil =>
        cases rest with
        | nil => rfl
        | cons e rest =>
            have halnum := (hrest e rfl).1
            rw [← Bool.not_eq_true, isAlphanum_iff] at halnum
            rw [← Bool.not_eq_true, isUpper_iff]
            change ¬ (65 ≤ e.toNat ∧ e.toNat ≤ 90)
            omega
  have halnum : t.all Char.isAlphanum = true := by
    rw [List.all_eq_true] at ht ⊢
    exact fun e he => isAlphanum_of_isDigit (ht e he)
  obtain ⟨htake, hdrop⟩ := takeWhile_append_of_stop t hrest.not_literalChar
  unfold decimalLiteral
  rw [toLower_of_not_isUpper hupper, literalLoop_peek, htake, hdrop]
  dsimp only
  rw [if_neg (stop_ne_dot halnum hrest), toLower_of_not_isUpper (isUpper_of_isDigit hc)]

private theorem readLiteral_radix (hr : ValidRadix radix) (hp : RadixPrefix radix p)
    (hd : (c :: t).all (PGBigNumber.isDigit radix) = true) (hc0 : c ≠ '0')
    (hrest : EndsLiteral rest) :
    ∃ ch r, p ++ (c :: (t ++ rest)) = ch :: r ∧ ch.isDigit = true ∧
      readLiteral ch r = .ok ({ radix, beforeDot := c.toLower :: t.takeWhile isLiteralChar },
        t.dropWhile isLiteralChar ++ rest) := by
  have hall : ∀ e ∈ c :: t, PGBigNumber.isDigit radix e = true := List.all_eq_true.mp hd
  have halnum : (c :: t).all Char.isAlphanum = true :=
    List.all_eq_true.mpr fun e he => isAlphanum_of_digit (hall e he)
  have hzero : ∀ {q : List Char}, RadixPrefix radix ('0' :: q) →
      readLiteral '0' (q ++ (c :: (t ++ rest))) =
        .ok ({ radix, beforeDot := c.toLower :: t.takeWhile isLiteralChar },
          t.dropWhile isLiteralChar ++ rest) := by
    intro q hq
    unfold readLiteral
    rw [if_pos rfl, zeroLiteral_prefix hq, prefixedLiteral_digits halnum hrest]
    exact if_pos hr
  cases hp with
  | oneDigit hlo => exact ⟨'0', _, rfl, rfl, hzero (.oneDigit hlo)⟩
  | twoDigits hhi hlo => exact ⟨'0', _, rfl, rfl, hzero (.twoDigits hhi hlo)⟩
  | hex => exact ⟨'0', _, rfl, rfl, hzero .hex⟩
  | decimal =>
      have hdigit : ∀ e ∈ c :: t, e.isDigit = true := fun e he => isDigit_of_ten (hall e he)
      have ht : t.all Char.isDigit = true :=
        List.all_eq_true.mpr fun e he => hdigit e (List.mem_cons_of_mem c he)
      refine ⟨c, _, rfl, hdigit c List.mem_cons_self, ?_⟩
      unfold readLiteral
      rw [if_neg hc0, decimalLiteral_digits (hdigit c List.mem_cons_self) ht hrest]
      exact if_pos hr

private theorem lexLiteral_eq {ch : Char} {r s : List Char} {literal : Literal}
    {f : Nat → List Char → List Char → Bool × Int} {val : Int} {ok : Bool}
    (hread : readLiteral ch r = .ok (literal, s)) (hf : hooks.literal2Value = some f)
    (hval : f literal.radix literal.beforeDot literal.afterDot = (ok, val)) :
    lexLiteral hooks ch r =
      ⟨⟨.literal, none, val⟩, if ok then .ok s else .error .literal2NumError⟩ := by
  unfold lexLiteral
  rw [hread]
  dsimp only
  rw [hf]
  simp only [hval]

private theorem readToken_default (table : SymbolTable) {ch : Char} {r s : List Char}
    {literal : Literal} (hch : ch.isDigit = true) (hread : readLiteral ch r = .ok (literal, s))
    (hr : ValidRadix literal.radix) :
    ∃ σ ok, Store.Reads Store.initial.pushDefault 0 literal.radix literal.beforeDot σ ok ∧
      readToken .default table ch r =
        ⟨⟨.literal, none, (σ.num 0).toInt⟩,
          if ok.getD true then .ok s else .error .literal2NumError⟩ := by
  have hwf := (Store.pushDefault_pushes (R := fun _ => False) Store.Wf.initial).wf
  obtain ⟨σ, ok, hrun, hreads⟩ := Store.fromString_reads hr hwf (i := 0) Nat.zero_lt_one
    literal.beforeDot
  have hnone : readOperator ch r = none := by
    unfold readOperator
    split
    all_goals first | rfl | exact absurd hch (by decide)
  refine ⟨σ, ok, hreads, ?_⟩
  unfold readToken
  rw [hnone]
  dsimp only
  rw [if_pos hch]
  exact lexLiteral_eq hread rfl (by rw [hrun])

private theorem reads_digits {σ₀ σ : Store} {i : Nat} {ok : Option Bool} (hr : ValidRadix radix)
    (hd : (c :: t).all (PGBigNumber.isDigit radix) = true) (hc0 : c ≠ '0')
    (hreads : Store.Reads σ₀ i radix (c.toLower :: t) σ ok) :
    (σ.num i).toInt = digitsMag radix (c :: t) ∧ ok.getD true = true ↔
      ¬ Overflows radix (c :: t) := by
  have hc := List.all_eq_true.mp hd c List.mem_cons_self
  have hcl : PGBigNumber.isDigit radix c.toLower = true := (isDigit_toLower c).trans hc
  have hdl : (c.toLower :: t).all (PGBigNumber.isDigit radix) = true := by
    rw [List.all_cons, Bool.and_eq_true] at hd ⊢
    exact ⟨hcl, hd.2⟩
  have hsig := significant_digits (t := t) hcl (mt (toLower_eq_iff rfl).mp hc0)
  have hover : Overflows radix (c.toLower :: t) ↔ Overflows radix (c :: t) := by
    unfold Overflows
    rw [hsig, significant_digits hc hc0]
    exact Iff.rfl
  have hrejected := (rejected_iff_of_denote hr (denote_digits hdl)).trans hover
  constructor
  · rintro ⟨-, hok⟩ hlong
    rw [(hreads.rejected (hrejected.mpr hlong)).1] at hok
    cases hok
  · intro hshort
    obtain ⟨rfl, v, hputs, hv⟩ := hreads.value (fun hrej => hshort (hrejected.mp hrej))
      (by rw [hsig]; exact List.cons_ne_nil _ _)
    have hsign : (c.toLower :: t).head? ≠ some '-' := by
      rintro heq
      rw [Option.some_inj.mp heq] at hcl
      cases hcl
    rw [hsig, if_neg hsign, Int.one_mul, digitsMag_toLower] at hv
    rw [hputs.num, Num.toInt_ofInt]
    exact ⟨hv hdl, rfl⟩

private theorem dropWhile_eq_nil_iff (hd : t.all (PGBigNumber.isDigit radix) = true) :
    t.dropWhile isLiteralChar = [] ↔ ∀ c ∈ t, c.isUpper = false := by
  rw [List.dropWhile_eq_nil_iff]
  refine forall₂_congr fun c hc => ?_
  rw [isLiteralChar_eq, isAlphanum_of_digit (List.all_eq_true.mp hd c hc), Bool.true_and,
    Bool.not_eq_true']

private theorem yields_iff {ch : Char} {r left : List Char} {val v : Int} {ok : Bool}
    (hch : ch.isDigit = true) (htoken : readToken hooks table ch r = ⟨⟨.literal, none, val⟩,
      if ok then .ok (left ++ rest) else .error .literal2NumError⟩) :
    Yields hooks table (ch :: r) ⟨.literal, none, v⟩ rest ↔ (val = v ∧ ok = true) ∧ left = [] := by
  have hblank : isWhiteChar ch = false := by
    rw [← Bool.not_eq_true, isWhiteChar, decide_eq_true_iff]
    rintro (rfl | rfl | rfl | rfl | rfl) <;> cases hch
  constructor
  · rintro ⟨ch₁, r₁, heq, -, htoken₁⟩
    obtain ⟨rfl, rfl⟩ := List.cons.inj heq
    obtain ⟨hval, hbehind⟩ := Lexed.mk.inj (htoken.symm.trans htoken₁)
    split at hbehind
    · next hok =>
      exact ⟨⟨(Token.mk.inj hval).2.2, hok⟩, List.append_left_eq_self.mp (Except.ok.inj hbehind)⟩
    · cases hbehind
  · rintro ⟨⟨rfl, rfl⟩, rfl⟩
    exact ⟨ch, r, rfl, hblank, htoken⟩

/-- A radix literal is read as a whole exactly when no capital letter stands behind its first digit
and its digits are not too many for `fromString`. -/
theorem radixLiteral_iff (hr : ValidRadix radix) (hp : RadixPrefix radix p) (hne : d ≠ [])
    (hd : d.all (PGBigNumber.isDigit radix) = true) (hd0 : d.head? ≠ some '0')
    (hrest : EndsLiteral rest) :
    (Yields .default table (p ++ d ++ rest) ⟨.literal, none, digitsMag radix d⟩ rest ↔
      (∀ c ∈ d.tail, c.isUpper = false) ∧ ¬ Overflows radix d) ∧
    ((∀ c ∈ d.tail, c.isUpper = false) ∧ ¬ Overflows radix d →
      ∀ fuel res, tokenizerLoop .default table (fuel + 2) (p ++ d ++ rest) res =
        tokenizerLoop .default table (fuel + 1) rest
          (res ++ [⟨.literal, none, digitsMag radix d⟩])) := by
  suffices hiff : Yields .default table (p ++ d ++ rest) ⟨.literal, none, digitsMag radix d⟩ rest ↔
      (∀ c ∈ d.tail, c.isUpper = false) ∧ ¬ Overflows radix d from
    ⟨hiff, fun hcond => (hiff.mpr hcond).loop⟩
  obtain ⟨c, t, rfl⟩ := List.exists_cons_of_ne_nil hne
  have hc0 : c ≠ '0' := by simpa using hd0
  have ht : t.all (PGBigNumber.isDigit radix) = true := by
    rw [List.all_cons, Bool.and_eq_true] at hd
    exact hd.2
  obtain ⟨ch, r, hstart, hch, hread⟩ := readLiteral_radix hr hp hd hc0 hrest
  obtain ⟨σ, ok, hreads, htoken⟩ := readToken_default table hch hread hr
  have htake : t.dropWhile isLiteralChar = [] → t.takeWhile isLiteralChar = t := by
    intro hdrop
    have hsplit := List.takeWhile_append_dropWhile (p := isLiteralChar) (l := t)
    rwa [hdrop, List.append_nil] at hsplit
  rw [List.append_assoc, List.cons_append, hstart, yields_iff hch htoken, List.tail_cons,
    ← dropWhile_eq_nil_iff ht]
  constructor
  · rintro ⟨hvalue, hdrop⟩
    rw [htake hdrop] at hreads
    exact ⟨hdrop, (reads_digits hr hd hc0 hreads).mp hvalue⟩
  · rintro ⟨hdrop, hover⟩
    rw [htake hdrop] at hreads
    exact ⟨(reads_digits hr hd hc0 hreads).mpr hover, hdrop⟩

theorem radixLiteral_base36 :
    tokenizer .default (fun _ => none) 3 ['0', '3', '6', 'x', 'Z', '9', ')'] =
      some ([⟨.literal, none, 1269⟩, ⟨.rightBracket, none, 0⟩, ⟨.invalid, none, 0⟩], none) := by
  have hrest : EndsLiteral [')'] := by
    rintro c ⟨⟩
    decide
  have hlower : ∀ c ∈ ['9'], c.isUpper = false := by
    intro c hc
    rw [List.mem_singleton.mp hc]
    rfl
  exact ((radixLiteral_iff (show ValidRadix 36 by decide)
    (.twoDigits (show '3'.isDigit = true from rfl) (show '6'.isDigit = true from rfl))
    (show ['Z', '9'] ≠ [] by decide) (by decide) (by decide) hrest).2 ⟨hlower, by decide⟩ 1 []).trans
      rfl

/-- `0xaB` is read as `0xa`, and `B` is left over. -/
theorem radixLiteral_capital : digitsMag 16 ['a', 'B'] = 171 ∧
    ¬ Yields .default (fun _ => none) ['0', 'x', 'a', 'B'] ⟨.literal, none, 171⟩ [] ∧
    Yields .default (fun _ => none) ['0', 'x', 'a', 'B'] ⟨.literal, none, 10⟩ ['B'] := by
  have hread : readToken .default (fun _ => none) '0' ['x', 'a', 'B'] =
      ⟨⟨.literal, none, 10⟩, .ok ['B']⟩ := rfl
  refine ⟨by decide, ?_, '0', _, rfl, rfl, hread⟩
  rintro ⟨ch, r, hstart, -, htoken⟩
  obtain ⟨rfl, rfl⟩ := List.cons.inj hstart
  have hrest := (Lexed.mk.inj (hread.symm.trans htoken)).2
  cases Except.ok.inj hrest

end Infix

end PGBigNumber
