import Mathlib.Data.List.Induction
import Mathlib.Logic.Function.Basic

/-!
# The registry of status codes

One map from codes to messages and callbacks for the whole process, and a flag for every thread
that loads the built-in table into it. When the registrations of a user survive that.
-/

namespace PGBigNumber.Status

abbrev Enum := UInt32

namespace ErrCode

def success : Enum := 0
def divBy0 : Enum := 1
def radixInvalid : Enum := 2
def numberStringEmpty : Enum := 3
def numberStringSigInvalid : Enum := 4
def numberStringParse2NumError : Enum := 5
def arithmeticOverflow : Enum := 6
def parseInfixExprShiftOpInvalid : Enum := 7
def parseInfixExprCharInvalid : Enum := 8
def parseInfixExprNotDecButReal : Enum := 9
def parseInfixExprSymbolUndefined : Enum := 10
def parseInfixExprBuiltinSymbolInvalid : Enum := 11
def parseInfixExprRadixInvalid : Enum := 12
def parseInfixExprLiteral2NumError : Enum := 13
def parseInfixExprEquInvalid : Enum := 14
def parseInfixExprBadToken : Enum := 15
def parseInfixExprBuiltinFuncCallNotMatch : Enum := 16

end ErrCode

/-- The callbacks of the table: one does nothing, one prints and ends the process, one prints. -/
inductive ErrCallback where
  | nullCallback
  | processStatusExit
  | debugPrint
deriving DecidableEq, Repr

structure ErrInfo where
  code : Enum
  info : String
  callback : ErrCallback

/-- `errInfos`; it has no entry for `PARSE_INFIXEXPR_BUILTINFUNC_CALL_NOT_MATCH`. -/
def errInfos : List ErrInfo :=
  [⟨ErrCode.success, "[PGBN-Status: Success]Success", .nullCallback⟩,
   ⟨ErrCode.divBy0, "[PGBN-Status: Fault]Divide By Zero", .processStatusExit⟩,
   ⟨ErrCode.radixInvalid, "[PGBN-Status: Error]Radix Invalid(Requires 2~36)", .debugPrint⟩,
   ⟨ErrCode.numberStringEmpty, "[PGBN-Status: Error]Number String Empty", .debugPrint⟩,
   ⟨ErrCode.numberStringSigInvalid, "[PGBN-Status: Error]Number String Sig Invalid", .debugPrint⟩,
   ⟨ErrCode.numberStringParse2NumError, "[PGBN-Status: Error]Parse String To Number Error",
     .debugPrint⟩,
   ⟨ErrCode.arithmeticOverflow, "[PGBN-Status: Error]Arithmetic Overflow", .debugPrint⟩,
   ⟨ErrCode.parseInfixExprShiftOpInvalid, "[PGBN-Status: Error]Shift-Operator Invalid", .debugPrint⟩,
   ⟨ErrCode.parseInfixExprCharInvalid, "[PGBN-Status: Error]Char Invalid", .debugPrint⟩,
   ⟨ErrCode.parseInfixExprNotDecButReal, "[PGBN-Status: Error]Not-Decimal But Real-Number",
     .debugPrint⟩,
   ⟨ErrCode.parseInfixExprSymbolUndefined,
     "[PGBN-Status: Error]Undefined Builtin Functions Or Contants", .debugPrint⟩,
   ⟨ErrCode.parseInfixExprBuiltinSymbolInvalid, "[PGBN-Status: Error]Builtin Sysmbol Is Invalid",
     .debugPrint⟩,
   ⟨ErrCode.parseInfixExprRadixInvalid, "[PGBN-Status: Error]Radix Invalid(Requires 2~36)",
     .debugPrint⟩,
   ⟨ErrCode.parseInfixExprLiteral2NumError, "[PGBN-Status: Error]Parse Literal To Number Error",
     .debugPrint⟩,
   ⟨ErrCode.parseInfixExprEquInvalid, "[PGBN-Status: Error]Expected ==", .debugPrint⟩,
   ⟨ErrCode.parseInfixExprBadToken, "[PGBN-Status: Error]Bad Token", .debugPrint⟩]

/-- `Callback`: the empty function, a function `κ` of a user, or a function of the table bound to
its arguments. -/
inductive Callback (κ : Type) where
  | null
  | user (callback : κ)
  | bound (callback : ErrCallback) (code : Enum) (info : String)
deriving DecidableEq

abbrev Entry (κ : Type) := String × Callback κ

/-- `s_mp`, which all threads share, and the flag `h` of `getInstance`, which every thread has. -/
structure Registry (τ κ : Type) where
  mp : Enum → Option (Entry κ) := fun _ => none
  h : τ → Bool := fun _ => false

variable {τ κ : Type}

def ErrInfo.entry (errInfo : ErrInfo) : Entry κ :=
  (errInfo.info, .bound errInfo.callback errInfo.code errInfo.info)

namespace Registry

def registe (r : Registry τ κ) (no : Enum) (entry : Entry κ) : Registry τ κ :=
  { r with mp := Function.update r.mp no (some entry) }

def pgbnReg (r : Registry τ κ) : Registry τ κ :=
  errInfos.foldl (fun r errInfo => r.registe errInfo.code errInfo.entry) r

/-- `Status::getInstance` on a thread, which initialises the flag of the thread once. -/
def getInstance [DecidableEq τ] (r : Registry τ κ) (thread : τ) : Registry τ κ :=
  if r.h thread then r else { r.pgbnReg with h := Function.update r.h thread true }

/-- `Status::find`, on which `getInfo` and `getCallback` rest. -/
def find (r : Registry τ κ) (no : Enum) : Option (Entry κ) := r.mp no

/-- `Status::callback`: the function it calls if it is not empty; `none` where it dereferences the
end iterator of the map. -/
def callback (r : Registry τ κ) (no : Enum) : Option (Callback κ) := (r.mp no).map Prod.snd

end Registry

/-- A call that reads or writes the registry. -/
inductive Access (τ κ : Type) where
  | registe (no : Enum) (entry : Entry κ)
  | getInstance (thread : τ)

section

variable [DecidableEq τ]

def Registry.step (r : Registry τ κ) : Access τ κ → Registry τ κ
  | .registe no entry => r.registe no entry
  | .getInstance thread => r.getInstance thread

def run (calls : List (Access τ κ)) : Registry τ κ := calls.foldl Registry.step {}

def builtin (no : Enum) : Option (Entry κ) :=
  (errInfos.find? fun errInfo => errInfo.code = no).map ErrInfo.entry

def Access.registered (no : Enum) : Access τ κ → Option (Entry κ)
  | .registe no' entry => if no' = no then some entry else none
  | .getInstance _ => none

def lastRegiste (calls : List (Access τ κ)) (no : Enum) : Option (Entry κ) :=
  calls.reverse.findSome? (Access.registered no)

def Access.isGetInstance : Access τ κ → Bool
  | .registe .. => false
  | .getInstance _ => true

/-- What should be found for a code: its last explicit registration, or else what the table has as
soon as there has been a `getInstance`. -/
def expected (calls : List (Access τ κ)) (no : Enum) : Option (Entry κ) :=
  (lastRegiste calls no).or (if calls.any Access.isGetInstance then builtin no else none)

def Persists (calls : List (Access τ κ)) : Prop := ∀ no, (run calls).find no = expected calls no

end

section

variable (r : Registry τ κ) (no : Enum)

private theorem registeAll_find {l : List ErrInfo} (hnodup : (l.map ErrInfo.code).Nodup) :
    (l.foldl (fun r errInfo => r.registe errInfo.code errInfo.entry) r).find no =
      ((l.find? fun errInfo => errInfo.code = no).map ErrInfo.entry).or (r.find no) := by
  induction l generalizing r with
  | nil => rfl
  | cons errInfo l ih =>
      rw [List.map_cons, List.nodup_cons] at hnodup
      rw [List.foldl_cons, ih _ hnodup.2]
      by_cases hcode : errInfo.code = no
      · have hnone : l.find? (fun errInfo => errInfo.code = no) = none := by
          rw [List.find?_eq_none]
          intro errInfo' hmem heq
          have hsame : errInfo'.code = errInfo.code := (of_decide_eq_true heq).trans hcode.symm
          exact hnodup.1 (hsame ▸ List.mem_map_of_mem hmem)
        rw [hnone, List.find?_cons_of_pos (by simpa using hcode)]
        subst hcode
        simp [Registry.find, Registry.registe]
      · rw [List.find?_cons_of_neg (by simpa using hcode), Registry.find, Registry.registe]
        simp only [Function.update_of_ne (Ne.symm hcode)]
        rfl

theorem pgbnReg_find : r.pgbnReg.find no = (builtin no).or (r.find no) :=
  registeAll_find r no (by decide)

end

variable [DecidableEq τ] {calls : List (Access τ κ)}

theorem run_h (calls : List (Access τ κ)) (thread : τ) :
    (run calls).h thread = true ↔ .getInstance thread ∈ calls := by
  induction calls using List.reverseRecOn with
  | nil => simp [run]
  | append_singleton calls call ih =>
      rw [List.mem_append, ← ih, run, List.foldl_append]
      change (((run calls).step call).h thread = true) ↔ _
      cases call with
      | registe no entry => simp [Registry.step, Registry.registe]
      | getInstance thread' =>
          simp only [Registry.step, Registry.getInstance, List.mem_singleton, Access.getInstance.injEq]
          split
          · next hloaded =>
            refine ⟨.inl, fun h => ?_⟩
            rcases h with h | rfl
            · exact h
            · exact hloaded
          · by_cases hsame : thread = thread'
            · simp [hsame]
            · simp [hsame]

/-- The first `getInstance` of a thread finds nothing registered explicitly for a code of the table
but what the table has for it. -/
def Agrees (calls : List (Access τ κ)) : Prop :=
  ∀ no builtinEntry entry, builtin no = some builtinEntry → lastRegiste calls no = some entry →
    entry = builtinEntry

omit [DecidableEq τ] in
theorem lastRegiste_append (calls : List (Access τ κ)) (call : Access τ κ) (no : Enum) :
    lastRegiste (calls ++ [call]) no = (call.registered no).or (lastRegiste calls no) := by
  simp only [lastRegiste, List.reverse_append, List.reverse_singleton, List.singleton_append,
    List.findSome?_cons]
  cases call.registered no <;> rfl

theorem Persists.registe (h : Persists calls) (no : Enum) (entry : Entry κ) :
    Persists (calls ++ [.registe no entry]) := by
  intro no'
  have hrun : (run (calls ++ [.registe no entry])).find no' =
      if no' = no then some entry else (run calls).find no' := by
    simp only [run, List.foldl_append, List.foldl_cons, List.foldl_nil, Registry.step,
      Registry.registe, Registry.find, Function.update_apply]
  rw [hrun, expected, lastRegiste_append, List.any_append, h no', expected]
  by_cases hno : no' = no
  · simp [hno, Access.registered]
  · simp [hno, Ne.symm hno, Access.registered, Access.isGetInstance]

/-- A `getInstance` that loads the table keeps the registrations exactly when they agree with it. -/
theorem Persists.getInstance_iff (h : Persists calls) (thread : τ) :
    Persists (calls ++ [.getInstance thread]) ↔
      (.getInstance thread ∉ calls → Agrees calls) := by
  have hexpected : ∀ no, expected (calls ++ [.getInstance thread]) no =
      (lastRegiste calls no).or (builtin no) := by
    intro no
    rw [expected, lastRegiste_append, List.any_append]
    simp [Access.registered, Access.isGetInstance]
  have hrun : run (calls ++ [.getInstance thread]) = (run calls).getInstance thread := by
    simp only [run, List.foldl_append, List.foldl_cons, List.foldl_nil, Registry.step]
  unfold Persists
  by_cases hloaded : .getInstance thread ∈ calls
  · refine iff_of_true (fun no => ?_) fun hnew => absurd hloaded hnew
    have hany : calls.any Access.isGetInstance = true := List.any_eq_true.mpr ⟨_, hloaded, rfl⟩
    rw [hrun, Registry.getInstance, if_pos ((run_h calls thread).mpr hloaded), h no, hexpected,
      expected, if_pos hany]
  · have hfind : ∀ no, (run (calls ++ [.getInstance thread])).find no =
        (builtin no).or (expected calls no) := by
      intro no
      rw [hrun, Registry.getInstance, if_neg (fun hh => hloaded ((run_h calls thread).mp hh)), ← h no,
        ← pgbnReg_find]
      rfl
    simp only [hfind, hexpected, hloaded, not_false_eq_true, true_implies, Agrees]
    simp only [expected]
    constructor
    · intro hsame no builtinEntry entry hbuiltin hlast
      have hno := hsame no
      rw [hbuiltin, hlast] at hno
      exact (Option.some.inj hno).symm
    · intro hagrees no
      cases hbuiltin : (builtin no : Option (Entry κ)) with
      | none => simp
      | some builtinEntry =>
          cases hlast : lastRegiste calls no with
          | none => rfl
          | some entry => rw [hagrees no builtinEntry entry hbuiltin hlast]; rfl

/-- The registrations of a user persist exactly when every thread that calls `getInstance` for the
first time finds them agreeing with the table. -/
theorem registe_persists_iff (calls : List (Access τ κ)) :
    (∀ before, before <+: calls → Persists before) ↔
      ∀ before thread, before ++ [.getInstance thread] <+: calls → .getInstance thread ∉ before →
        Agrees before := by
  induction calls using List.reverseRecOn with
  | nil =>
      refine iff_of_true (fun before hbefore => ?_) fun before thread hbefore => ?_
      · rw [List.prefix_nil.mp hbefore]
        intro no
        rfl
      · simp at hbefore
  | append_singleton calls call ih =>
      have hinit : calls <+: calls ++ [call] := List.prefix_append calls [call]
      constructor
      · intro hall before thread hbefore hnew
        rcases List.prefix_concat_iff.mp hbefore with heq | hpre
        · obtain ⟨rfl, rfl⟩ := List.concat_inj.mp (by simpa using heq)
          exact ((hall before hinit).getInstance_iff thread).mp (hall _ (List.prefix_refl _)) hnew
        · exact ih.mp (fun b hb => hall b (hb.trans hinit)) before thread hpre hnew
      · intro hall before hbefore
        have hprev := ih.mpr fun b thread hb => hall b thread (hb.trans hinit)
        have hcalls := hprev calls (List.prefix_refl calls)
        rcases List.prefix_concat_iff.mp hbefore with rfl | hpre
        · cases call with
          | registe no entry => exact hcalls.registe no entry
          | getInstance thread =>
              exact (hcalls.getInstance_iff thread).mpr (hall calls thread (List.prefix_refl _))
        · exact hprev before hpre

/-- A callback for division by zero, registered before the first `getInstance`, is replaced. -/
theorem registe_replaced : ¬ ∀ calls : List (Access Nat Unit), Persists calls := by
  intro h
  have hfind := h [.registe ErrCode.divBy0 ("divided by zero", .user ()), .getInstance 0]
    ErrCode.divBy0
  revert hfind
  decide

end PGBigNumber.Status
