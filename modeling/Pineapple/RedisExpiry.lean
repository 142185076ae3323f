import Pineapple.Pagination

/-! # The expiry of `transform_redis_set`

The operators take `ttl` in whole seconds: C++ and Java in an `int`, Go as a duration in nanoseconds of 64 bits. -/

namespace Pineapple.RedisExpiry

open Paginate (IsInt32)

/-- The `ttl` of a configuration: a numeral without a fraction and an exponent, another number, or something else. -/
inductive TtlParam where
  | missing
  | literal (n : Int)
  | decimal (f : FiniteBinary64)
  | string (s : String)
  | other

def TtlParam.isMarker : TtlParam → Bool
  | string s => isBareMarker s
  | _ => false

/-- The parameter, and the number that a marker is resolved to for the request. -/
structure Ttl where
  param : TtlParam
  resolved : Option Int
  templated : resolved.isSome = param.isMarker
  int64 : ∀ n ∈ resolved, IsInt64 n

/-- What the languages leave open: conversions of a double that the integer type does not hold. -/
structure Casts where
  int : Binary64 → {n : Int // IsInt32 n}
  int64 : FiniteBinary64 → {n : Int // IsInt64 n}

inductive DataType where
  | string
  | set
  | list

/-- Milliseconds until the key expires, if it does. -/
abbrev Expiry := Option Int

/-- `SET` with `EX`, or `EXPIRE`, in seconds. -/
def expireSeconds (seconds : Int) : Expiry := if seconds > 0 then some (1000 * seconds) else none

def numericError : String := "transform_redis_set: ttl must be numeric"

/-! ## C++ -/

/-- `static_cast<int>`. -/
def castInt (casts : Casts) : Binary64 → Int
  | .finite f => if IsInt32 f.toInt then f.toInt else casts.int (.finite f)
  | d => casts.int d

/-- `TransformRedisSetOp::init`. -/
def cppInit (casts : Casts) : TtlParam → Except String Int
  | .missing => .ok 0
  | .literal n => .ok (castInt casts (.ofInt n))
  | .decimal f => .ok (castInt casts (.finite f))
  | .string s => if isBareMarker s then .ok 0 else .error numericError
  | .other => .error numericError

/-- `TransformRedisSetOp::execute`, its commands being alike for every data type. -/
def cppExecute (casts : Casts) (ttl : Ttl) : Except String Expiry := do
  let seconds ← cppInit casts ttl.param
  let seconds := match ttl.resolved with
    | some n => castInt casts (.ofInt n)
    | none => seconds
  return expireSeconds seconds

/-! ## Go -/

/-- What go-redis makes of a positive duration: whole units of at most a second, one of them at least, and exactly the
duration where it is a number of seconds. -/
structure Rounds (expiry : Int → Expiry) : Prop where
  positive : ∀ d > 0, ∃ ms > 0, expiry d = some ms ∧ ms * 10 ^ 6 < d + 10 ^ 9
  seconds : ∀ n > 0, expiry (n * 10 ^ 9) = some (1000 * n)

/-- `Set` and `Expire` of go-redis, on durations in nanoseconds: `Set` without an expiry gets zero, and one that is
`KeepTTL` leaves the expiry that the key has. -/
structure GoRedis where
  set : Int → Expiry
  expire : Int → Expiry
  set_rounds : Rounds set
  expire_rounds : Rounds expire
  set_none : ∀ d ≤ 0, d ≠ -1 → set d = none

/-- `time.Duration(n) * time.Second`. -/
def duration (n : Int) : Int := (n * 10 ^ 9).bmod (2 ^ 64)

/-- `toInt64Param` of a number; a literal is decoded as a double. -/
def toInt64Param (casts : Casts) : Binary64 → Int
  | .finite f => castInt64 (fun f => casts.int64 f) f
  | _ => 0

/-- `Init`, the decoding of the configuration before it: a number past the doubles is refused there. -/
def goInit (casts : Casts) : TtlParam → Except String Int
  | .missing => .ok 0
  | .literal n =>
    if (Binary64.ofInt n).isFinite then .ok (duration (toInt64Param casts (.ofInt n)))
    else .error "json: cannot unmarshal number into Go value of type float64"
  | .decimal f => .ok (duration (toInt64Param casts (.finite f)))
  | .string s => if isBareMarker s then .ok 0 else .error (numericError ++ ", got string")
  | .other => .error (numericError ++ ", got other")

/-- The commands of a data type. -/
def store (redis : GoRedis) (type : DataType) (ttl : Int) : Expiry :=
  match type with
  | .string => redis.set ttl
  | .set | .list => if ttl > 0 then redis.expire ttl else none

/-- `Execute`. -/
def goExecute (casts : Casts) (redis : GoRedis) (type : DataType) (ttl : Ttl) : Except String Expiry := do
  let seconds ← goInit casts ttl.param
  let seconds := match ttl.resolved with
    | some n => duration n
    | none => seconds
  return store redis type seconds

/-! ## Java -/

/-- `init`. -/
def javaInit : TtlParam → Except String Int
  | .missing => .ok 0
  | .literal n => .ok (Paginate.javaToInt (.integer n))
  | .decimal f => .ok (Paginate.javaToInt (.double (.finite f)))
  | .string s => if isBareMarker s then .ok 0 else .error (numericError ++ ", got string")
  | .other => .error (numericError ++ ", got other")

/-- `execute`, its commands being alike for every data type. -/
def javaExecute (ttl : Ttl) : Except String Expiry := do
  let seconds ← javaInit ttl.param
  let seconds := match ttl.resolved with
    | some n => Paginate.javaToInt (.integer n)
    | none => seconds
  return expireSeconds seconds

/-! ## What was asked for -/

inductive Seconds where
  | whole (n : Int)
  | double (f : FiniteBinary64)

def Ttl.requested (ttl : Ttl) : Seconds :=
  match ttl.resolved, ttl.param with
  | some n, _ => .whole n
  | none, .literal n => .whole n
  | none, .decimal f => .double f
  | none, _ => .whole 0

def Seconds.Positive : Seconds → Prop
  | whole n => 0 < n
  | double f => f.neg = false ∧ f.mant ≠ 0

/-- The number is this integer. -/
def Seconds.Is : Seconds → Int → Prop
  | whole n, m => n = m
  | double f, m => f.IsIntegral ∧ f.toInt = m

/-- An expiry of exactly the number of seconds where it is positive, and none where it is not. -/
def Seconds.Gets (s : Seconds) (expiry : Expiry) : Prop :=
  (s.Positive ∧ ∃ n, s.Is n ∧ expiry = some (1000 * n)) ∨ (¬ s.Positive ∧ expiry = none)

/-- The three engines report errors, or give the key the expiry that was asked for. -/
def Right (casts : Casts) (redis : GoRedis) (type : DataType) (ttl : Ttl) : Prop :=
  (∃ e e' e'', cppExecute casts ttl = .error e ∧ goExecute casts redis type ttl = .error e' ∧
      javaExecute ttl = .error e'') ∨
    ∃ expiry, ttl.requested.Gets expiry ∧ cppExecute casts ttl = .ok expiry ∧
      goExecute casts redis type ttl = .ok expiry ∧ javaExecute ttl = .ok expiry

/-- A positive number is whole and an `int` holds it; one that is not positive stays so in all conversions. -/
def Fits (casts : Casts) (ttl : Ttl) : Prop :=
  match ttl.resolved, ttl.param with
  | some n, _ => n < 2 ^ 31 ∧ (n ≤ 0 → castInt casts (.ofInt n) ≤ 0 ∧ duration n ≤ 0 ∧ n.bmod (2 ^ 32) ≤ 0)
  | none, .literal n => (Binary64.ofInt n).isFinite = true ∧ n < 2 ^ 31 ∧ (n ≤ 0 →
      castInt casts (.ofInt n) ≤ 0 ∧ duration (toInt64Param casts (.ofInt n)) ≤ 0 ∧ n.bmod (2 ^ 32) ≤ 0)
  | none, .decimal f =>
    if f.neg = false ∧ f.mant ≠ 0 then f.IsIntegral ∧ f.toInt < 2 ^ 31
    else castInt casts (.finite f) ≤ 0 ∧ duration (toInt64Param casts (.finite f)) ≤ 0
  | none, _ => True

/-! ## Conversions -/

variable {casts : Casts} {redis : GoRedis} {type : DataType} {n : Int} {f : FiniteBinary64}

theorem castInt_isInt32 (casts : Casts) (d : Binary64) : IsInt32 (castInt casts d) := by
  unfold castInt
  split
  · split
    · assumption
    · exact (casts.int _).property
  · exact (casts.int _).property

theorem castInt_ofInt (h : IsInt32 n) : castInt casts (.ofInt n) = n := by
  obtain ⟨f, hf, rfl⟩ := Paginate.ofInt_of_isInt32 h
  rw [hf, castInt, if_pos h]

theorem toInt64Param_ofInt (h : IsInt32 n) : toInt64Param casts (.ofInt n) = n := by
  obtain ⟨f, hf, rfl⟩ := Paginate.ofInt_of_isInt32 h
  unfold IsInt32 at h
  rw [hf, toInt64Param, castInt64, if_pos]
  unfold IsInt64 int64Bound
  omega

theorem bmod_of_isInt32 (h : IsInt32 n) : n.bmod (2 ^ 32) = n := by
  unfold IsInt32 at h
  exact Int.bmod_eq_of_le (by omega) (by omega)

theorem bmod_isInt32 (n : Int) : IsInt32 (n.bmod (2 ^ 32)) := by
  unfold IsInt32
  have hlo := Int.le_bmod (x := n) (m := 2 ^ 32) (by decide)
  have hhi := Int.bmod_lt (x := n) (m := 2 ^ 32) (by decide)
  omega

theorem duration_of_isInt32 (h : IsInt32 n) : duration n = n * 10 ^ 9 := by
  unfold IsInt32 at h
  exact Int.bmod_eq_of_le (by omega) (by omega)

/-- No duration is `KeepTTL`. -/
theorem duration_ne_keepTTL (n : Int) : duration n ≠ -1 := by
  unfold duration
  rw [Int.bmod_def]
  split <;> omega

/-! ## Expiries -/

variable {s : Seconds} {c j d : Int}

theorem expireSeconds_none : expireSeconds n = none ↔ n ≤ 0 := by
  unfold expireSeconds
  split
  · exact iff_of_false nofun (by omega)
  · exact iff_of_true rfl (by omega)

theorem expireSeconds_some (h : 0 < n) : expireSeconds n = some (1000 * n) := if_pos h

theorem store_none (hd : d ≠ -1) : store redis type d = none ↔ d ≤ 0 := by
  rcases type
  · constructor
    · intro h
      by_contra hpos
      obtain ⟨ms, -, hms, -⟩ := redis.set_rounds.positive d (by omega)
      rw [store, hms] at h
      cases h
    · exact fun h => redis.set_none d h hd
  all_goals
    rw [store]
    split
    · next hpos =>
      obtain ⟨ms, -, hms, -⟩ := redis.expire_rounds.positive d hpos
      rw [hms]
      exact iff_of_false nofun (by omega)
    · next hneg => exact iff_of_true rfl (by omega)

theorem store_seconds (h : 0 < n) : store redis type (n * 10 ^ 9) = some (1000 * n) := by
  rcases type
  · exact redis.set_rounds.seconds n h
  all_goals
    rw [store, if_pos (by omega)]
    exact redis.expire_rounds.seconds n h

/-- What the operators do once each has its number: `c` and `j` seconds in C++ and in Java, the duration `d` in Go. -/
def Agree (redis : GoRedis) (type : DataType) (s : Seconds) (c d j : Int) : Prop :=
  ∃ expiry, s.Gets expiry ∧ expireSeconds c = expiry ∧ store redis type d = expiry ∧ expireSeconds j = expiry

theorem agree_iff_of_positive (h : s.Positive) :
    Agree redis type s c d j ↔ 0 < c ∧ s.Is c ∧ store redis type d = some (1000 * c) ∧ c = j := by
  constructor
  · rintro ⟨expiry, ⟨-, n, hn, rfl⟩ | ⟨hno, -⟩, hc, hd, hj⟩
    · unfold expireSeconds at hc hj
      split at hc
      · split at hj
        · obtain rfl : c = n := by have := Option.some.inj hc; omega
          exact ⟨‹_›, hn, hd, by have := Option.some.inj hj; omega⟩
        · cases hj
      · cases hc
    · exact absurd h hno
  · rintro ⟨hpos, hc, hd, rfl⟩
    exact ⟨_, Or.inl ⟨h, c, hc, rfl⟩, expireSeconds_some hpos, hd, expireSeconds_some hpos⟩

theorem agree_iff_of_not_positive (h : ¬ s.Positive) (hd : d ≠ -1) :
    Agree redis type s c d j ↔ c ≤ 0 ∧ d ≤ 0 ∧ j ≤ 0 := by
  constructor
  · rintro ⟨expiry, ⟨hpos, -⟩ | ⟨-, rfl⟩, hc, hstore, hj⟩
    · exact absurd hpos h
    · exact ⟨expireSeconds_none.mp hc, (store_none hd).mp hstore, expireSeconds_none.mp hj⟩
  · rintro ⟨hc, hd', hj⟩
    exact ⟨none, Or.inr ⟨h, rfl⟩, expireSeconds_none.mpr hc, (store_none hd).mpr hd', expireSeconds_none.mpr hj⟩

theorem agree_whole (hc : IsInt32 c) (hc' : IsInt32 n → c = n) (hd : d ≠ -1) (hd' : IsInt32 n → d = n * 10 ^ 9) :
    Agree redis type (.whole n) c d (n.bmod (2 ^ 32)) ↔
      n < 2 ^ 31 ∧ (n ≤ 0 → c ≤ 0 ∧ d ≤ 0 ∧ n.bmod (2 ^ 32) ≤ 0) := by
  unfold IsInt32 at hc
  by_cases hpos : 0 < n
  · rw [agree_iff_of_positive (s := .whole n) hpos]
    constructor
    · rintro ⟨-, rfl, -, -⟩
      exact ⟨hc.2, fun h => absurd h (by omega)⟩
    · rintro ⟨hlt, -⟩
      have hfits : IsInt32 n := ⟨by omega, hlt⟩
      rw [hc' hfits, hd' hfits, bmod_of_isInt32 hfits]
      exact ⟨hpos, rfl, store_seconds hpos, rfl⟩
  · rw [agree_iff_of_not_positive (s := .whole n) hpos hd]
    exact ⟨fun h => ⟨by omega, fun _ => h⟩, fun h => h.2 (by omega)⟩

theorem agree_double (hc : IsInt32 c) (hc' : IsInt32 f.toInt → c = f.toInt) (hd : d ≠ -1)
    (hd' : IsInt32 f.toInt → d = f.toInt * 10 ^ 9) :
    Agree redis type (.double f) c d (Paginate.javaToInt (.double (.finite f))) ↔
      if f.neg = false ∧ f.mant ≠ 0 then f.IsIntegral ∧ f.toInt < 2 ^ 31 else c ≤ 0 ∧ d ≤ 0 := by
  unfold IsInt32 at hc
  rw [Paginate.javaToInt]
  split
  · next hpos =>
    have hsign : 0 ≤ f.toInt := by
      unfold FiniteBinary64.toInt
      rw [if_neg (by rw [hpos.1]; exact Bool.false_ne_true)]
      omega
    rw [agree_iff_of_positive (s := .double f) hpos]
    constructor
    · rintro ⟨-, ⟨hint, rfl⟩, -, -⟩
      exact ⟨hint, hc.2⟩
    · rintro ⟨hint, hlt⟩
      have hfits : IsInt32 f.toInt := ⟨by omega, hlt⟩
      have hne : 0 < f.toInt := by
        refine lt_of_le_of_ne hsign fun h0 => hpos.2 (FiniteBinary64.truncNat_eq_zero hint ?_)
        rw [← FiniteBinary64.natAbs_toInt, ← h0]
        rfl
      rw [hc' hfits, hd' hfits]
      exact ⟨hne, ⟨hint, rfl⟩, store_seconds hne, by omega⟩
  · next hpos =>
    have hsign : f.toInt ≤ 0 := by
      unfold FiniteBinary64.toInt
      split
      · omega
      · next hneg =>
        have hmant : f.mant = 0 := by
          by_contra h
          exact hpos ⟨Bool.eq_false_iff.mpr hneg, h⟩
        unfold FiniteBinary64.truncNat
        rw [hmant, Nat.zero_mul, Nat.zero_div, ite_self]
        exact Int.le_refl _
    rw [agree_iff_of_not_positive (s := .double f) hpos hd]
    exact ⟨fun h => ⟨h.1, h.2.1⟩, fun h => ⟨h.1, h.2, by omega⟩⟩

/-! ## The operators -/

theorem right_of_ok {ttl : Ttl} (hcpp : cppExecute casts ttl = .ok (expireSeconds c))
    (hgo : goExecute casts redis type ttl = .ok (store redis type d)) (hjava : javaExecute ttl = .ok (expireSeconds j)) :
    Right casts redis type ttl ↔ Agree redis type ttl.requested c d j := by
  unfold Right Agree
  rw [hcpp, hgo, hjava]
  constructor
  · rintro (⟨e, _, _, he, -⟩ | ⟨expiry, hgets, hc, hd, hj⟩)
    · cases he
    · exact ⟨expiry, hgets, Except.ok.inj hc, Except.ok.inj hd, Except.ok.inj hj⟩
  · rintro ⟨expiry, hgets, rfl, hd, hj⟩
    exact Or.inr ⟨_, hgets, rfl, congrArg _ hd, congrArg _ hj⟩

/-- All operators give the expiry that was asked for exactly where it fits. -/
theorem expiry_right_iff (casts : Casts) (redis : GoRedis) (type : DataType) (ttl : Ttl) :
    Right casts redis type ttl ↔ Fits casts ttl := by
  obtain ⟨param, resolved, htemplated, hint64⟩ := ttl
  rcases param with _ | n | f | t | _
  · rcases resolved with _ | m
    · rw [right_of_ok (c := 0) (d := 0) (j := 0) rfl rfl rfl]
      have hzero : (0 : Int) ≠ -1 := by decide
      exact iff_of_true ((agree_iff_of_not_positive (s := .whole 0) (Int.lt_irrefl 0) hzero).mpr
        ⟨Int.le_refl 0, Int.le_refl 0, Int.le_refl 0⟩) trivial
    · cases htemplated
  · rcases resolved with _ | m
    · by_cases hfinite : (Binary64.ofInt n).isFinite = true
      · have hgo : goExecute casts redis type ⟨.literal n, none, htemplated, hint64⟩ =
            .ok (store redis type (duration (toInt64Param casts (.ofInt n)))) := by
          simp only [goExecute, goInit, if_pos hfinite]
          rfl
        rw [right_of_ok (c := castInt casts (.ofInt n)) rfl hgo (j := n.bmod (2 ^ 32)) rfl]
        refine (agree_whole (castInt_isInt32 casts _) castInt_ofInt (duration_ne_keepTTL _) fun h => ?_).trans
          (and_iff_right hfinite).symm
        rw [toInt64Param_ofInt h, duration_of_isInt32 h]
      · have hgo : goExecute casts redis type ⟨.literal n, none, htemplated, hint64⟩ =
            .error "json: cannot unmarshal number into Go value of type float64" := by
          simp only [goExecute, goInit, if_neg hfinite]
          rfl
        refine iff_of_false ?_ fun h => hfinite h.1
        rintro (⟨e, _, _, he, -⟩ | ⟨expiry, -, -, hok, -⟩)
        · cases he
        · rw [hgo] at hok
          cases hok
    · cases htemplated
  · rcases resolved with _ | m
    · have hcast : IsInt32 f.toInt → castInt casts (.finite f) = f.toInt := fun h => if_pos h
      have hwide : IsInt32 f.toInt → duration (toInt64Param casts (.finite f)) = f.toInt * 10 ^ 9 := fun h => by
        have hfits : IsInt64 f.toInt := by
          unfold IsInt32 at h
          unfold IsInt64 int64Bound
          omega
        rw [toInt64Param, castInt64, if_pos hfits, duration_of_isInt32 h]
      rw [right_of_ok (c := castInt casts (.finite f)) rfl (d := duration (toInt64Param casts (.finite f))) rfl
        (j := Paginate.javaToInt (.double (.finite f))) rfl]
      exact agree_double (castInt_isInt32 casts _) hcast (duration_ne_keepTTL _) hwide
    · cases htemplated
  · by_cases hmarker : isBareMarker t = true
    · rcases resolved with _ | m
      · rw [TtlParam.isMarker, hmarker] at htemplated
        cases htemplated
      · have hcpp : cppExecute casts ⟨.string t, some m, htemplated, hint64⟩ =
            .ok (expireSeconds (castInt casts (.ofInt m))) := by
          simp only [cppExecute, cppInit, if_pos hmarker]
          rfl
        have hgo : goExecute casts redis type ⟨.string t, some m, htemplated, hint64⟩ =
            .ok (store redis type (duration m)) := by
          simp only [goExecute, goInit, if_pos hmarker]
          rfl
        have hjava : javaExecute ⟨.string t, some m, htemplated, hint64⟩ = .ok (expireSeconds (m.bmod (2 ^ 32))) := by
          simp only [javaExecute, javaInit, if_pos hmarker]
          rfl
        rw [right_of_ok hcpp hgo hjava]
        exact agree_whole (castInt_isInt32 casts _) castInt_ofInt (duration_ne_keepTTL _) duration_of_isInt32
    · rcases resolved with _ | m
      · refine iff_of_true (Or.inl ⟨numericError, numericError ++ ", got string", numericError ++ ", got string", ?_, ?_, ?_⟩)
          trivial
        · simp only [cppExecute, cppInit, if_neg hmarker]
          rfl
        · simp only [goExecute, goInit, if_neg hmarker]
          rfl
        · simp only [javaExecute, javaInit, if_neg hmarker]
          rfl
      · exact absurd htemplated.symm hmarker
  · rcases resolved with _ | m
    · exact iff_of_true (Or.inl ⟨_, _, _, rfl, rfl, rfl⟩) trivial
    · cases htemplated

/-- Conversions that saturate. -/
def saturating : Casts where
  int _ := ⟨2 ^ 31 - 1, by decide⟩
  int64 _ := ⟨2 ^ 63 - 1, by decide⟩

/-- A duration in units of so many milliseconds, one of them at least. -/
def rounded (unit d : Int) : Expiry :=
  if d > 0 then some (if d < unit * 10 ^ 6 then unit else d / (unit * 10 ^ 6) * unit) else none

theorem rounded_rounds {unit : Int} (h : unit = 1 ∨ unit = 1000) : Rounds (rounded unit) where
  positive := by
    intro d hd
    rw [rounded, if_pos hd]
    refine ⟨_, ?_, rfl, ?_⟩ <;> rcases h with rfl | rfl <;> split <;> omega
  seconds := by
    intro n hn
    rw [rounded, if_pos (by omega)]
    rcases h with rfl | rfl <;> split <;> exact congrArg some (by omega)

def goRedis : GoRedis where
  set := rounded 1
  expire := rounded 1000
  set_rounds := rounded_rounds (Or.inl rfl)
  expire_rounds := rounded_rounds (Or.inr rfl)
  set_none := fun _ hd _ => if_neg (by omega)

/-- `2 ^ 32 + 5` seconds. -/
def pastInt32 : Ttl where
  param := .literal 4294967301
  resolved := none
  templated := rfl
  int64 := nofun

/-- Java lets the key expire after five seconds. -/
theorem not_right_pastInt32 :
    javaExecute pastInt32 = .ok (some 5000) ∧ ¬ Right saturating goRedis .string pastInt32 := by
  have hjava : javaExecute pastInt32 = .ok (some 5000) := by decide +kernel
  refine ⟨hjava, ?_⟩
  rintro (⟨_, _, e, -, -, he⟩ | ⟨expiry, hgets, -, -, he⟩)
  · rw [hjava] at he
    cases he
  · rw [hjava] at he
    obtain rfl := Except.ok.inj he
    rcases hgets with ⟨-, n, rfl, h⟩ | ⟨-, h⟩
    · exact absurd (Option.some.inj h) (by decide)
    · cases h

end Pineapple.RedisExpiry
