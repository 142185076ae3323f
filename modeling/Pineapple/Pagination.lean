import Pineapple.LookupKey
import Pineapple.Config
import Mathlib.Data.List.Intervals

/-! # Pagination (`filter_paginate`, `PaginateOp`, `FilterPaginate`, `filter_truncate`)

The page and the size are common fields of any value. The engines bring them to integers of different widths, in which
the window of the page is then computed. -/

namespace Pineapple.Paginate

/-- The values of `int` in C++ and in Java. -/
def IsInt32 (n : Int) : Prop := -2 ^ 31 ≤ n ∧ n < 2 ^ 31

instance (n : Int) : Decidable (IsInt32 n) := inferInstanceAs (Decidable (_ ∧ _))

/-! ## The fields -/

/-- What a common field may hold: a number that is decoded from a text with a fraction or an exponent, one from a text
without, a whole number that an operator has set, or something else. -/
inductive FieldValue where
  | float (f : FiniteBinary64)
  | literal (n : Int)
  | computed (n : Int)
  | other (v : Variant) (h : ∀ d, v ≠ .number d)

inductive GoValue where
  | int (n : Int)
  | float64 (d : Binary64)
  | other

inductive JavaValue where
  | integer (n : Int)
  | double (d : Binary64)
  | other

namespace FieldValue

def cpp : FieldValue → Variant
  | float f => .number (.finite f)
  | literal n => .number (.ofInt n)
  | computed n => .number (.ofInt n)
  | other v _ => v

def go : FieldValue → GoValue
  | float f => .float64 (.finite f)
  | literal n => .float64 (.ofInt n)
  | computed n => .int n
  | other _ _ => .other

def java : FieldValue → JavaValue
  | float f => .double (.finite f)
  | literal n => .integer n
  | computed n => .integer n
  | other _ _ => .other

/-- The number without its fraction, and zero where there is none. -/
def trunc : FieldValue → Int
  | float f => f.toInt
  | literal n => n
  | computed n => n
  | other _ _ => 0

end FieldValue

/-! ## The operators -/

/-- A result that `int` holds; any other one overflows. -/
def checkedInt (n : Int) : Option Int := if IsInt32 n then some n else none

/-- `to_int` of `filter_paginate.cpp`. -/
def cppToInt : Variant → Option Int
  | .number (.finite f) => checkedInt f.toInt
  | .number _ => none
  | _ => some 0

/-- `toInt` of `paginate.go`; a number that `int64` does not hold is converted in a way the language leaves open. -/
def goToInt (undefined : Binary64 → Int) : GoValue → Int
  | .int n => n.bmod (2 ^ 64)
  | .float64 (.finite f) => castInt64 (fun f => undefined (.finite f)) f
  | .float64 d => undefined d
  | .other => 0

/-- `intValue`: the low bits of an `Integer`, `Long` or `BigInteger`; a `Double` saturates. -/
def javaToInt : JavaValue → Int
  | .integer n => n.bmod (2 ^ 32)
  | .double (.finite f) => max (-2 ^ 31) (min f.toInt (2 ^ 31 - 1))
  | .double (.inf neg) => if neg then -2 ^ 31 else 2 ^ 31 - 1
  | .double .nan => 0
  | .other => 0

/-- The body that the operators share; `arith` is what becomes of the result of an operation on their integers. -/
def execute {m : Type → Type} [Monad m] (arith : Int → m Int) (n : Int) (page size : m Int) : m (List Nat) := do
  if n = 0 then
    return []
  let page ← page
  let size ← size
  let size := if size ≤ 0 then 10 else size
  let page := if page < 0 then 0 else page
  let start ← arith (page * size)
  let stop ← arith (start + size)
  let stop := if stop > n then n else stop
  return (List.range n.toNat).filter fun i : Nat => (i : Int) < start ∨ stop ≤ i

/-- `FilterPaginateOp::execute`: the removed indices. -/
def cppExecute (n : Nat) (page size : Variant) : Option (List Nat) := do
  let n ← checkedInt n
  execute checkedInt n (cppToInt page) (cppToInt size)

/-- `PaginateOp.Execute` on the values of the fields in `CommonInput`. -/
def goExecute (undefined : Binary64 → Int) (n : Nat) : List GoValue → Id (List Nat)
  | page :: size :: _ => execute (fun x => pure (x.bmod (2 ^ 64))) n (goToInt undefined page) (goToInt undefined size)
  | _ => pure []

/-- `FilterPaginate.execute`. -/
def javaExecute (n : Nat) (page size : JavaValue) : Id (List Nat) :=
  execute (fun x => pure (x.bmod (2 ^ 32))) n (javaToInt page) (javaToInt size)

/-! ## Truncation -/

def nonNegative (topN : Int) : Except PineError Int :=
  if topN < 0 then .error (.execution "" ("filter_truncate: top_n must be non-negative, got " ++ toString topN))
  else .ok topN

/-- `FilterTruncateOp::init`; `none` where a conversion overflows. -/
def truncateInit : Variant → Option (Except PineError Int)
  | .number (.finite f) => (checkedInt f.toInt).map nonNegative
  | .number _ => none
  | .string s =>
    if isBareMarker s then some (nonNegative 0)
    else some (.error (.execution "" "filter_truncate: top_n must be numeric"))
  | _ => some (.error (.execution "" "filter_truncate: top_n must be numeric"))

/-- The number of a parameter that was resolved for this request, or else the one `init` has read. -/
def resolvedTopN (topN : Int) : Variant → Option Int
  | .number (.finite f) => checkedInt f.toInt
  | .number _ => none
  | _ => some topN

/-- `FilterTruncateOp::execute`: the removed indices. -/
def truncateExecute (topN : Int) (n : Nat) (resolved : Variant) : Option (Except PineError (List Nat)) := do
  match nonNegative (← resolvedTopN topN resolved) with
  | .error e => return .error e
  | .ok topN =>
    let n ← checkedInt n
    return .ok ((List.range n.toNat).filter fun i : Nat => topN ≤ i)

/-- An operator that is configured with `param`, on a request. -/
def truncate (param : Variant) (n : Nat) (resolved : Variant) : Option (Except PineError (List Nat)) := do
  match ← truncateInit param with
  | .error e => return .error e
  | .ok topN => truncateExecute topN n resolved

/-- The ways in which `top_n` is given: as a number, or as a marker that a request resolves to one. -/
inductive Gives (f : FiniteBinary64) : Variant → Variant → Prop
  | fixed : Gives f (.number (.finite f)) .null
  | templated {s : String} : isBareMarker s = true → Gives f (.string s) (.number (.finite f))

/-! ## The window -/

def pageNumber (page : FieldValue) : Int := if page.trunc < 0 then 0 else page.trunc

def pageSize (size : FieldValue) : Int := if size.trunc ≤ 0 then 10 else size.trunc

/-- The indices outside `[page * size, page * size + size)`. -/
def outsideWindow (n : Nat) (page size : FieldValue) : List Nat :=
  (List.range n).filter fun i : Nat => ¬ (pageNumber page * pageSize size ≤ i ∧
    i < pageNumber page * pageSize size + pageSize size)

/-- No operation overflows, and all engines remove what is outside the window. -/
structure Paginates (undefined : Binary64 → Int) (n : Nat) (page size : FieldValue) : Prop where
  cpp : cppExecute n page.cpp size.cpp = some (outsideWindow n page size)
  go : goExecute undefined n [page.go, size.go] = outsideWindow n page size
  java : javaExecute n page.java size.java = outsideWindow n page size

/-- The count, the page, the size and the end of the window are integers of 32 bits. -/
structure PageFits (n : Nat) (page size : FieldValue) : Prop where
  count_fits : IsInt32 n
  page_fits : IsInt32 page.trunc
  size_fits : IsInt32 size.trunc
  stop_fits : IsInt32 (pageNumber page * pageSize size + pageSize size)

/-- No operation overflows, and the items that are left are the first ones. -/
def Truncates (n : Nat) (f : FiniteBinary64) : Prop :=
  0 ≤ f.toInt → ∀ param resolved, Gives f param resolved → ∃ removed, truncate param n resolved = some (.ok removed) ∧
    (List.range n).filter (fun i => i ∉ removed) = List.range (min n f.toInt.toNat)

section
variable {undefined : Binary64 → Int} {n : Nat} {page size v : FieldValue} {f : FiniteBinary64} {k : Int}
open FiniteBinary64 Binary64

/-! ## Conversions -/

theorem checkedInt_eq_some : checkedInt k = some k ↔ IsInt32 k := by
  unfold checkedInt
  split
  · next h => exact iff_of_true rfl h
  · next h => exact iff_of_false nofun h

theorem eq_of_checkedInt {j : Int} (h : checkedInt k = some j) : k = j := by
  unfold checkedInt at h
  split at h
  · exact Option.some.inj h
  · cases h

theorem bmod_of_isInt32 (h : IsInt32 k) : k.bmod (2 ^ 32) = k ∧ k.bmod (2 ^ 64) = k := by
  unfold IsInt32 at h
  constructor <;> refine Int.bmod_eq_of_le ?_ ?_ <;> omega

/-- A conversion keeps an integer of 32 bits, and brings no other one there. -/
theorem ofInt_isInt32 (h : Binary64.ofInt k = .finite f) : f.toInt = k ∨ ¬ IsInt32 f.toInt ∧ ¬ IsInt32 k := by
  by_cases hsmall : k.natAbs < 2 ^ 53
  · left
    obtain ⟨g, hg, hneg, hwhole⟩ := exists_isWhole (decide (k < 0)) hsmall
    obtain rfl := Binary64.finite.inj (hg.symm.trans h)
    have htrunc := truncNat_of_isWhole hwhole
    unfold toInt
    rw [hneg, htrunc]
    by_cases hk : k < 0
    · rw [if_pos (decide_eq_true hk)]
      omega
    · rw [if_neg (by rw [decide_eq_false hk]; decide)]
      omega
  · right
    have hlarge : 2 ^ 52 ≤ f.truncNat := by
      have hlog : 53 ≤ k.natAbs.log2 := (Nat.le_log2 (by omega)).mpr (by omega)
      have hparts : ∀ {neg : Bool} {m : Nat} {e : Int} {hm : 2 ^ 52 ≤ m} {hm' : m < 2 ^ 53} {he : 0 ≤ e + 1074}, 0 ≤ e →
          ofParts neg m e hm hm' he = .finite f → 2 ^ 52 ≤ f.truncNat := by
        intro neg m e hm hm' he hexp hparts
        unfold ofParts at hparts
        split at hparts
        · obtain rfl := Binary64.finite.inj hparts
          unfold truncNat
          dsimp only
          rw [if_pos hexp]
          exact hm.trans (Nat.le_mul_of_pos_right _ (Nat.two_pow_pos _))
        · cases hparts
      unfold Binary64.ofInt ofNat at h
      rw [dif_neg (by omega), dif_neg (by omega)] at h
      split at h
      · exact hparts (by omega) h
      · exact hparts (by omega) h
    rw [← natAbs_toInt] at hlarge
    unfold IsInt32
    constructor <;> omega

theorem cppToInt_ofInt (k : Int) : cppToInt (.number (.ofInt k)) = checkedInt k := by
  cases h : Binary64.ofInt k with
  | finite f =>
    unfold cppToInt
    dsimp only
    rcases ofInt_isInt32 h with heq | ⟨hf, hk⟩
    · rw [heq]
    · unfold checkedInt
      rw [if_neg hf, if_neg hk]
  | _ =>
    unfold cppToInt checkedInt
    dsimp only
    refine (if_neg fun hk => ?_).symm
    unfold IsInt32 at hk
    obtain ⟨g, hg, -⟩ := ofInt_isIntegral (n := k) (by omega)
    rw [hg] at h
    cases h

theorem cppToInt_eq (v : FieldValue) : cppToInt v.cpp = checkedInt v.trunc := by
  cases v with
  | float f => rfl
  | literal n => exact cppToInt_ofInt n
  | computed n => exact cppToInt_ofInt n
  | other v h =>
    cases v with
    | number d => exact absurd rfl (h d)
    | _ => rfl

theorem castInt64_of_isInt32 (undefined : FiniteBinary64 → Int) (h : IsInt32 f.toInt) :
    castInt64 undefined f = f.toInt := by
  refine if_pos ?_
  unfold IsInt32 at h
  unfold IsInt64 int64Bound
  omega

theorem ofInt_of_isInt32 (h : IsInt32 k) : ∃ f, Binary64.ofInt k = .finite f ∧ f.toInt = k := by
  have hle := h
  unfold IsInt32 at hle
  obtain ⟨g, hg, -⟩ := ofInt_isIntegral (n := k) (by omega)
  exact ⟨g, hg, (ofInt_isInt32 hg).resolve_right fun hout => hout.2 h⟩

theorem goToInt_ofInt (undefined : Binary64 → Int) (h : IsInt32 k) : goToInt undefined (.float64 (.ofInt k)) = k := by
  obtain ⟨f, hf, heq⟩ := ofInt_of_isInt32 h
  have hcast := castInt64_of_isInt32 (f := f) (fun f => undefined (.finite f)) (heq.symm ▸ h)
  rw [hf]
  exact hcast.trans heq

theorem goToInt_eq (undefined : Binary64 → Int) (h : IsInt32 v.trunc) : goToInt undefined v.go = v.trunc := by
  cases v with
  | float f => exact castInt64_of_isInt32 (fun f => undefined (.finite f)) h
  | literal n => exact goToInt_ofInt undefined h
  | computed n => exact (bmod_of_isInt32 h).2
  | other _ _ => rfl

theorem javaToInt_eq (h : IsInt32 v.trunc) : javaToInt v.java = v.trunc := by
  cases v with
  | float f =>
    unfold FieldValue.java javaToInt FieldValue.trunc
    unfold FieldValue.trunc IsInt32 at h
    dsimp only at h ⊢
    omega
  | literal n => exact (bmod_of_isInt32 h).1
  | computed n => exact (bmod_of_isInt32 h).1
  | other _ _ => rfl

/-! ## The body -/

/-- Where every result is an integer of the operators, they compute in unbounded integers. -/
theorem execute_eq {m : Type → Type} [Monad m] [LawfulMonad m] {arith : Int → m Int}
    (harith : ∀ k, IsInt32 k → arith k = pure k) (h : PageFits n page size) :
    execute arith n (pure page.trunc) (pure size.trunc) = (pure (outsideWindow n page size) : m (List Nat)) := by
  have hsize : 0 < pageSize size := by
    unfold pageSize
    split <;> omega
  have hpage : 0 ≤ pageNumber page := by
    unfold pageNumber
    split <;> omega
  have hstart : IsInt32 (pageNumber page * pageSize size) := by
    have hmul := Int.mul_nonneg hpage hsize.le
    have hstop := h.stop_fits
    unfold IsInt32 at hstop ⊢
    omega
  unfold execute
  split
  · next hzero =>
    obtain rfl : n = 0 := by omega
    rfl
  · have hpageNumber : (if page.trunc < 0 then 0 else page.trunc) = pageNumber page := rfl
    have hpageSize : (if size.trunc ≤ 0 then 10 else size.trunc) = pageSize size := rfl
    simp only [pure_bind, hpageNumber, hpageSize, harith _ hstart, harith _ h.stop_fits]
    refine congrArg pure (List.filter_congr fun i hi => decide_eq_decide.mpr ?_)
    have hlt := List.mem_range.mp hi
    split <;> omega

theorem checkedInt_bind {α : Type} {g : Int → Option α} {a : α} (h : (checkedInt k >>= g) = some a) :
    IsInt32 k ∧ g k = some a := by
  unfold checkedInt at h
  split at h
  · next hk => exact ⟨hk, h⟩
  · cases h

/-- `filter_paginate` of C++ is defined exactly where its integers hold all it computes. -/
theorem pageFits_of_cppExecute {removed : List Nat} (h : cppExecute n page.cpp size.cpp = some removed) :
    n = 0 ∨ PageFits n page size := by
  unfold cppExecute at h
  obtain ⟨hn, h⟩ := checkedInt_bind h
  rw [cppToInt_eq, cppToInt_eq] at h
  unfold execute at h
  split at h
  · left
    omega
  · obtain ⟨hpage, h⟩ := checkedInt_bind h
    obtain ⟨hsize, h⟩ := checkedInt_bind h
    obtain ⟨-, h⟩ := checkedInt_bind h
    exact Or.inr ⟨hn, hpage, hsize, (checkedInt_bind h).1⟩

theorem paginates_of_fits (h : PageFits n page size) : Paginates undefined n page size := by
  have hsome : ∀ k, IsInt32 k → checkedInt k = pure k := fun k hk => checkedInt_eq_some.mpr hk
  refine ⟨?_, ?_, ?_⟩
  · unfold cppExecute
    rw [cppToInt_eq, cppToInt_eq, hsome _ h.count_fits, hsome _ h.page_fits, hsome _ h.size_fits]
    exact execute_eq hsome h
  · unfold goExecute
    dsimp only
    rw [goToInt_eq undefined h.page_fits, goToInt_eq undefined h.size_fits]
    exact execute_eq (fun k hk => congrArg pure (bmod_of_isInt32 hk).2) h
  · unfold javaExecute
    rw [javaToInt_eq h.page_fits, javaToInt_eq h.size_fits]
    exact execute_eq (fun k hk => congrArg pure (bmod_of_isInt32 hk).1) h

theorem paginates_zero : Paginates undefined 0 page size := ⟨rfl, rfl, rfl⟩

theorem paginates_iff : Paginates undefined n page size ↔ n = 0 ∨ PageFits n page size := by
  constructor
  · exact fun h => pageFits_of_cppExecute h.cpp
  · rintro (rfl | h)
    · exact paginates_zero
    · exact paginates_of_fits h

/-! ## Truncation -/

theorem nonNegative_eq (h : 0 ≤ k) : nonNegative k = .ok k := if_neg (by omega)

/-- What is removed once `top_n` is read. -/
def removedFrom (n : Nat) (topN : Int) : Option (Except PineError (List Nat)) :=
  (checkedInt n).map fun n => .ok ((List.range n.toNat).filter fun i : Nat => topN ≤ i)

theorem truncateExecute_eq {topN : Int} {resolved : Variant} (hpos : 0 ≤ k) (h : resolvedTopN topN resolved = some k) :
    truncateExecute topN n resolved = removedFrom n k := by
  unfold truncateExecute
  rw [h, Option.bind_eq_bind, Option.bind_some, nonNegative_eq hpos]
  dsimp only
  unfold removedFrom
  cases checkedInt n <;> rfl

theorem truncateExecute_none {topN : Int} {resolved : Variant} (h : resolvedTopN topN resolved = none) :
    truncateExecute topN n resolved = none := by
  unfold truncateExecute
  rw [h, Option.bind_eq_bind, Option.bind_none]

theorem truncate_of_init {param resolved : Variant} (h : truncateInit param = some (.ok k)) :
    truncate param n resolved = truncateExecute k n resolved := by
  unfold truncate
  rw [h, Option.bind_eq_bind, Option.bind_some]

theorem truncateInit_marker {s : String} (h : isBareMarker s = true) : truncateInit (.string s) = some (.ok 0) :=
  if_pos h

/-- An operator that has a non-negative `top_n` removes the items from there on. -/
theorem truncate_eq {param resolved : Variant} (hpos : 0 ≤ f.toInt) (hgives : Gives f param resolved) :
    truncate param n resolved = (checkedInt f.toInt).bind (removedFrom n) := by
  rcases hc : checkedInt f.toInt with - | k
  · rw [Option.bind_none]
    cases hgives with
    | fixed =>
      have hinit : truncateInit (.number (.finite f)) = none := (congrArg (Option.map nonNegative) hc).trans rfl
      unfold truncate
      rw [hinit, Option.bind_eq_bind, Option.bind_none]
    | templated hs =>
      rw [truncate_of_init (truncateInit_marker hs)]
      exact truncateExecute_none hc
  · obtain rfl := eq_of_checkedInt hc
    rw [Option.bind_some]
    cases hgives with
    | fixed =>
      have hinit : truncateInit (.number (.finite f)) = some (nonNegative f.toInt) :=
        (congrArg (Option.map nonNegative) hc).trans rfl
      rw [truncate_of_init (hinit.trans (congrArg some (nonNegative_eq hpos)))]
      exact truncateExecute_eq hpos (show resolvedTopN _ .null = _ from rfl)
    | templated hs =>
      rw [truncate_of_init (truncateInit_marker hs)]
      exact truncateExecute_eq hpos hc

/-- The items below a bound are the first ones. -/
theorem filter_not_removed (n m : Nat) :
    (List.range n).filter (fun i => i ∉ (List.range n).filter fun i : Nat => (m : Int) ≤ i) = List.range (min n m) := by
  have hlt : ∀ i ∈ List.range n, decide (i ∉ (List.range n).filter fun i : Nat => (m : Int) ≤ i) = decide (i < m) := by
    intro i hi
    refine decide_eq_decide.mpr ?_
    simp only [List.mem_filter, hi, true_and, decide_eq_true_eq]
    omega
  rw [List.filter_congr hlt, ← List.Ico.zero_bot, ← List.Ico.zero_bot]
  exact List.Ico.filter_lt 0 n m

theorem truncates_iff : Truncates n f ↔ (0 ≤ f.toInt → IsInt32 n ∧ IsInt32 f.toInt) := by
  constructor
  · intro h hpos
    obtain ⟨removed, hremoved, -⟩ := h hpos _ _ .fixed
    rw [truncate_eq hpos .fixed] at hremoved
    obtain ⟨hf, hremoved⟩ := checkedInt_bind hremoved
    refine ⟨?_, hf⟩
    by_contra hn
    have hnone : checkedInt n = none := if_neg hn
    rw [removedFrom, hnone] at hremoved
    cases hremoved
  · intro h hpos param resolved hgives
    obtain ⟨hn, hf⟩ := h hpos
    refine ⟨(List.range n).filter fun i : Nat => f.toInt ≤ i, ?_, ?_⟩
    · rw [truncate_eq hpos hgives, checkedInt_eq_some.mpr hf, Option.bind_some, removedFrom, checkedInt_eq_some.mpr hn,
        Option.map_some, Int.toNat_natCast]
    · obtain ⟨m, hm⟩ := Int.eq_ofNat_of_zero_le hpos
      rw [hm]
      exact filter_not_removed n m

/-! ## Main results -/

/-- `filter_paginate` keeps the window in all engines where the integers of 32 bits hold the count, the page, the size and
the end of the window, and only there or where there is no item; `filter_truncate` keeps the first items where they hold
the count and `top_n`. -/
theorem window_kept_iff (undefined : Binary64 → Int) (n : Nat) (page size : FieldValue) (topN : FiniteBinary64) :
    (Paginates undefined n page size ↔ n = 0 ∨ PageFits n page size) ∧
      (Truncates n topN ↔ (0 ≤ topN.toInt → IsInt32 n ∧ IsInt32 topN.toInt)) :=
  ⟨paginates_iff, truncates_iff⟩

/-- Page 429496730 of size 10 starts past all of 20 items: C++ overflows, and Java keeps the items from 4 to 13. -/
theorem large_page_wraps : ¬ (∀ undefined n page size, Paginates undefined n page size) ∧
    cppExecute 20 (FieldValue.literal 429496730).cpp (FieldValue.literal 10).cpp = none ∧
    outsideWindow 20 (.literal 429496730) (.literal 10) = List.range 20 ∧
    (javaExecute 20 (.integer 429496730) (.integer 10)).run = [0, 1, 2, 3, 14, 15, 16, 17, 18, 19] := by
  have hout : ¬ PageFits 20 (.literal 429496730) (.literal 10) := fun h => absurd h.stop_fits (by decide)
  refine ⟨fun h => ?_, ?_, by decide, by decide⟩
  · exact (paginates_iff.mp (h (fun _ => 0) 20 (.literal 429496730) (.literal 10))).elim (by decide) hout
  · cases hcpp : cppExecute 20 (FieldValue.literal 429496730).cpp (FieldValue.literal 10).cpp with
    | none => rfl
    | some removed => exact absurd (pageFits_of_cppExecute hcpp) (by rintro (h | h); exacts [absurd h (by decide), hout h])

end

end Pineapple.Paginate
