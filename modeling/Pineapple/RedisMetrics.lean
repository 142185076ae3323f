import Pineapple.Variant
import Mathlib.Algebra.BigOperators.Group.List.Basic
import Mathlib.Algebra.Ring.Nat
import Mathlib.Data.List.Infix

/-! # Counting Redis commands (`redis_connection.go`, `RedisConnResource.java`, `connection_pool.hpp`)

Go counts in a hook of its client, Java and C++ in the function that every command of an operator goes through. The
name of the resource is one label of the counter, the command and its outcome are the others. -/

namespace Pineapple.RedisMetrics

structure Cell where
  command : String
  status : String
deriving DecidableEq

inductive Operator where
  | get
  | set (value : Variant)

/-- What comes of sending a command. Of a failed dial each client says in its own way whether it timed out. -/
inductive Outcome where
  | success
  | miss
  | serverError (text : String)
  | readTimeout
  | failedDial (goTimeout : Bool) (message : Option String) (socketTimeout : Bool)
  | cancelled
  | deadlinePassed

/-- The command is sent. -/
def Outcome.Reached : Outcome → Prop
  | failedDial .. | cancelled | deadlinePassed => False
  | _ => True

/-- `data_type` is null where it is missing. -/
structure Execution where
  operator : Operator
  dataType : Variant
  outcome : Outcome

def members : Variant → List Variant
  | .array xs => xs
  | _ => []

/-! ## C++ -/

namespace Cpp

def dataType : Variant → String
  | .string s => s
  | _ => "string"

/-- The command that `execute` runs, if it runs one. -/
def command (x : Execution) : Option String :=
  match x.operator, dataType x.dataType with
  | .get, "string" => some "GET"
  | .get, "set" => some "SMEMBERS"
  | .get, "list" => some "LRANGE"
  | .set value, "string" =>
    match value with
    | .string _ => some "SET"
    | _ => none
  | .set value, "set" => if members value = [] then none else some "SADD"
  | .set value, "list" => if members value = [] then none else some "RPUSH"
  | _, _ => none

/-- `run_command`: the status of a command. -/
def status : Outcome → String
  | .cancelled => "error"
  | .deadlinePassed => "timeout"
  | .failedDial .. => "error"
  | .success | .miss => "ok"
  | .serverError _ | .readTimeout => "error"

def records (x : Execution) : List Cell :=
  match command x with
  | some c => [⟨c, status x.outcome⟩]
  | none => []

end Cpp

/-! ## Go -/

namespace Go

inductive Call where
  | command (name : String)
  | pipeline (names : List String)

inductive Err where
  | redisNil
  | poolTimeout
  | deadlineExceeded
  | netTimeout
  | other

def dataType : Variant → String
  | .string s => if s = "" then "string" else s
  | _ => "string"

/-- What `Execute` calls on the client; the `expire` of a pipeline is left out. -/
def call (x : Execution) : Option Call :=
  match x.operator, dataType x.dataType with
  | .get, "string" => some (.command "get")
  | .get, "set" => some (.command "smembers")
  | .get, "list" => some (.command "lrange")
  | .set value, "string" =>
    match value with
    | .string _ => some (.command "set")
    | _ => none
  | .set value, "set" => if members value = [] then none else some (.pipeline ["del", "sadd"])
  | .set value, "list" => if members value = [] then none else some (.pipeline ["del", "rpush"])
  | _, _ => none

/-- The error that the client returns. -/
def err (name : String) : Outcome → Option Err
  | .success => none
  | .miss => if name = "get" then some .redisNil else none
  | .serverError _ => some .other
  | .readTimeout => some .netTimeout
  | .failedDial goTimeout _ _ => some (if goTimeout then .netTimeout else .other)
  | .cancelled => some .other
  | .deadlinePassed => some .deadlineExceeded

def redisCommandStatus : Option Err → String
  | none | some .redisNil => "ok"
  | some .poolTimeout => "pool_timeout"
  | some .deadlineExceeded => "timeout"
  | some .netTimeout => "timeout"
  | some .other => "error"

def isProtocolOrProbeCommand (name : String) : Bool :=
  ["HELLO", "CLIENT", "PING", "AUTH", "SELECT"].contains name.toUpper

/-- The hooks: `ProcessHook` records, `ProcessPipelineHook` passes through. -/
def records (x : Execution) : List Cell :=
  match call x with
  | some (.command name) =>
    if isProtocolOrProbeCommand name then [] else [⟨name.toUpper, redisCommandStatus (err name x.outcome)⟩]
  | some (.pipeline _) => []
  | none => []

end Go

/-! ## Java -/

namespace Java

inductive Throwable where
  | context (deadlineExceeded : Bool)
  | jedis (message : Option String) (socketTimeout : Bool)

def dataType : Variant → String
  | .string s => if s = "" then "string" else s
  | _ => "string"

/-- The command that `execute` runs, if it runs one. -/
def command (x : Execution) : Option String :=
  match x.operator, dataType x.dataType with
  | .get, "string" => some "GET"
  | .get, "set" => some "SMEMBERS"
  | .get, "list" => some "LRANGE"
  | .set value, "string" =>
    match value with
    | .string _ => some "SET"
    | _ => none
  | .set value, "set" => if members value = [] then none else some "SADD"
  | .set value, "list" => if members value = [] then none else some "RPUSH"
  | _, _ => none

/-- What is thrown: the context's error before sending, or the client's. -/
def thrown : Outcome → Option Throwable
  | .success | .miss => none
  | .serverError text => some (.jedis (some text) false)
  | .readTimeout => some (.jedis (some "java.net.SocketTimeoutException: Read timed out") true)
  | .failedDial _ message socketTimeout => some (.jedis message socketTimeout)
  | .cancelled => some (.context false)
  | .deadlinePassed => some (.context true)

/-- `msg.contains("Could not get a resource") || msg.contains("pool exhausted")`. -/
def namesPool (message : String) : Bool :=
  decide ("Could not get a resource".toList <:+: message.toList) || decide ("pool exhausted".toList <:+: message.toList)

def redisCommandStatus : Option Throwable → String
  | none => "ok"
  | some (.context deadlineExceeded) => if deadlineExceeded then "timeout" else "error"
  | some (.jedis message socketTimeout) =>
    if message.any namesPool then "pool_timeout" else if socketTimeout then "timeout" else "error"

/-- `runCommand`. -/
def records (x : Execution) : List Cell :=
  match command x with
  | some c => [⟨c, redisCommandStatus (thrown x.outcome)⟩]
  | none => []

end Java

/-! ## Agreement -/

/-- All engines count the same cells, and each counts every command it sent once. -/
structure Accounted (xs : List Execution) : Prop where
  cpp : (xs.flatMap Cpp.records).Perm (xs.flatMap Java.records)
  go : (xs.flatMap Go.records).Perm (xs.flatMap Java.records)
  sent : ∀ x ∈ xs, x.outcome.Reached → (Cpp.command x ≠ none → (Cpp.records x).length = 1) ∧
    (Go.call x ≠ none → (Go.records x).length = 1) ∧ (Java.command x ≠ none → (Java.records x).length = 1)

/-- No engine classifies the outcome apart: reading does not time out, no text of an error names the pool, and a
failed dial has not timed out. -/
def Outcome.Plain : Outcome → Prop
  | serverError text => Java.namesPool text = false
  | readTimeout => False
  | failedDial goTimeout message socketTimeout =>
    goTimeout = false ∧ message.any Java.namesPool = false ∧ socketTimeout = false
  | _ => True

/-- Nothing is sent, or one command under a `data_type` that is not empty, with an outcome all engines classify. -/
def Fits (x : Execution) : Prop :=
  match Go.call x with
  | none => True
  | some (.pipeline _) => False
  | some (.command _) => x.dataType ≠ .string "" ∧ x.outcome.Plain

theorem upper_names : "get".toUpper = "GET" ∧ "smembers".toUpper = "SMEMBERS" ∧ "lrange".toUpper = "LRANGE" ∧
    "set".toUpper = "SET" := by
  decide +kernel

theorem business_names : ∀ name ∈ ["get", "smembers", "lrange", "set"], Go.isProtocolOrProbeCommand name = false := by
  have hall : ["get", "smembers", "lrange", "set"].all (fun name => !Go.isProtocolOrProbeCommand name) = true := by
    decide +kernel
  intro name hname
  have := List.all_eq_true.mp hall name hname
  rwa [Bool.not_eq_true'] at this

theorem cpp_dataType {dataType : Variant} (h : dataType ≠ .string "") : Cpp.dataType dataType = Go.dataType dataType := by
  unfold Cpp.dataType Go.dataType
  split
  · next s => rw [if_neg fun hs => h (by rw [hs])]
  · rfl

/-- What the engines send for one execution: nothing, a pipeline in Go, or one command that C++ leaves out under an
empty `data_type`. -/
theorem call_cases (x : Execution) :
    (Go.call x = none ∧ Java.command x = none ∧ Cpp.command x = none) ∨
      (∃ names c, Go.call x = some (.pipeline names) ∧ Java.command x = some c ∧ Cpp.command x = some c) ∨
        ∃ name, Go.call x = some (.command name) ∧ Go.isProtocolOrProbeCommand name = false ∧
          Java.command x = some name.toUpper ∧
            Cpp.command x = if x.dataType = .string "" then none else some name.toUpper := by
  obtain ⟨hget, hsmembers, hlrange, hset⟩ := upper_names
  obtain ⟨operator, dataType, outcome⟩ := x
  have hjava : Java.dataType dataType = Go.dataType dataType := rfl
  by_cases hempty : dataType = .string ""
  · subst hempty
    rcases operator with _ | value
    · exact Or.inr (Or.inr ⟨"get", rfl, business_names _ (by simp), by rw [hget]; rfl, rfl⟩)
    · rcases value with _ | _ | _ | _ | _ | _
      case string => exact Or.inr (Or.inr ⟨"set", rfl, business_names _ (by simp), by rw [hset]; rfl, rfl⟩)
      all_goals exact Or.inl ⟨rfl, rfl, rfl⟩
  · have hcpp := cpp_dataType hempty
    unfold Go.call Java.command Cpp.command
    dsimp only
    rw [hjava, hcpp]
    simp only [if_neg hempty]
    generalize Go.dataType dataType = type
    rcases operator with _ | value
    · by_cases hstring : type = "string"
      · subst hstring
        exact Or.inr (Or.inr ⟨"get", rfl, business_names _ (by simp), by rw [hget]; rfl, by rw [hget]; rfl⟩)
      · by_cases hsets : type = "set"
        · subst hsets
          exact Or.inr (Or.inr ⟨"smembers", rfl, business_names _ (by simp), by rw [hsmembers]; rfl, by rw [hsmembers]; rfl⟩)
        · by_cases hlist : type = "list"
          · subst hlist
            exact Or.inr (Or.inr ⟨"lrange", rfl, business_names _ (by simp), by rw [hlrange]; rfl, by rw [hlrange]; rfl⟩)
          · simp [hstring, hsets, hlist]
    · by_cases hstring : type = "string"
      · subst hstring
        rcases value with _ | _ | _ | _ | _ | _
        case string => exact Or.inr (Or.inr ⟨"set", rfl, business_names _ (by simp), by rw [hset]; rfl, by rw [hset]; rfl⟩)
        all_goals exact Or.inl ⟨rfl, rfl, rfl⟩
      · by_cases hsets : type = "set"
        · subst hsets
          by_cases hmembers : members value = [] <;> simp [hmembers]
        · by_cases hlist : type = "list"
          · subst hlist
            by_cases hmembers : members value = [] <;> simp [hmembers]
          · simp [hstring, hsets, hlist]

/-! ## Statuses -/

theorem cpp_timeout {o : Outcome} (h : Cpp.status o = "timeout") : o = .deadlinePassed := by
  rcases o <;> simp_all [Cpp.status]

theorem cpp_poolTimeout (o : Outcome) : Cpp.status o ≠ "pool_timeout" := by
  rcases o <;> simp [Cpp.status]

/-- The outcomes that all engines classify alike. -/
theorem Outcome.Plain.status {name : String} {o : Outcome} (h : o.Plain) :
    Go.redisCommandStatus (Go.err name o) = Cpp.status o ∧ Java.redisCommandStatus (Java.thrown o) = Cpp.status o := by
  rcases o with _ | _ | text | _ | ⟨goTimeout, message, socketTimeout⟩ | _ | _
  case miss =>
    refine ⟨?_, rfl⟩
    by_cases hget : name = "get" <;> simp [Go.err, hget, Go.redisCommandStatus, Cpp.status]
  case serverError =>
    refine ⟨rfl, ?_⟩
    replace h : Java.namesPool text = false := h
    rw [Java.thrown, Java.redisCommandStatus, Option.any_some, h]
    rfl
  case readTimeout => exact h.elim
  case failedDial =>
    obtain ⟨rfl, hpool, rfl⟩ := h
    refine ⟨rfl, ?_⟩
    rw [Java.thrown, Java.redisCommandStatus, hpool]
    rfl
  all_goals exact ⟨rfl, rfl⟩

/-- Where neither Go nor Java finds a timeout, and Java no exhausted pool, that C++ does not find. -/
theorem plain_of_status {name : String} {o : Outcome}
    (hgo : Go.redisCommandStatus (Go.err name o) = "timeout" → Cpp.status o = "timeout")
    (hjava : Java.redisCommandStatus (Java.thrown o) = "timeout" → Cpp.status o = "timeout")
    (hpool : Java.redisCommandStatus (Java.thrown o) ≠ "pool_timeout") : o.Plain := by
  rcases o with _ | _ | text | _ | ⟨goTimeout, message, socketTimeout⟩ | _ | _
  case serverError =>
    show Java.namesPool text = false
    by_contra h
    rw [Bool.not_eq_false] at h
    apply hpool
    rw [Java.thrown, Java.redisCommandStatus, Option.any_some, if_pos h]
  case readTimeout => exact absurd (cpp_timeout (hgo rfl)) nofun
  case failedDial =>
    have hany : message.any Java.namesPool = false := by
      by_contra h
      rw [Bool.not_eq_false] at h
      apply hpool
      rw [Java.thrown, Java.redisCommandStatus, if_pos h]
    refine ⟨?_, hany, ?_⟩
    · by_contra h
      rw [Bool.not_eq_false] at h
      subst h
      exact absurd (cpp_timeout (hgo rfl)) nofun
    · by_contra h
      rw [Bool.not_eq_false] at h
      subst h
      refine absurd (cpp_timeout (hjava ?_)) nofun
      rw [Java.thrown, Java.redisCommandStatus, hany]
      rfl
  all_goals trivial

/-! ## Counts -/

section
variable {α β : Type} {f g : α → List β} {p : β → Bool} {xs : List α}

theorem countP_flatMap_le (hle : ∀ x ∈ xs, (f x).countP p ≤ (g x).countP p) :
    (xs.flatMap f).countP p ≤ (xs.flatMap g).countP p := by
  induction xs with
  | nil => exact Nat.le_refl _
  | cons x xs ih =>
    rw [List.flatMap_cons, List.flatMap_cons, List.countP_append, List.countP_append]
    exact Nat.add_le_add (hle x List.mem_cons_self) (ih fun y hy => hle y (List.mem_cons_of_mem _ hy))

/-- Where nothing can be made up for, equal totals are equal parts. -/
theorem countP_eq_of_flatMap (h : (xs.flatMap f).countP p = (xs.flatMap g).countP p)
    (hle : ∀ x ∈ xs, (f x).countP p ≤ (g x).countP p) : ∀ x ∈ xs, (f x).countP p = (g x).countP p := by
  induction xs with
  | nil => exact fun _ hx => absurd hx List.not_mem_nil
  | cons x xs ih =>
    rw [List.flatMap_cons, List.flatMap_cons, List.countP_append, List.countP_append] at h
    have hx := hle x List.mem_cons_self
    have hrest := fun y hy => hle y (List.mem_cons_of_mem x hy)
    have hxs := countP_flatMap_le hrest
    intro y hy
    rcases List.mem_cons.mp hy with rfl | hy
    · omega
    · exact ih (by omega) hrest y hy

end

/-- How many of the records have this status. -/
def withStatus (status : String) (l : List Cell) : Nat := l.countP fun c => c.status = status

theorem withStatus_singleton (status : String) (c : Cell) :
    withStatus status [c] = if c.status = status then 1 else 0 := by
  unfold withStatus
  by_cases h : c.status = status <;> simp [h]

/-! ## Executions -/

variable {x : Execution} {xs : List Execution}

theorem records_of_fits (h : Fits x) : Cpp.records x = Java.records x ∧ Go.records x = Java.records x ∧
    (Cpp.command x ≠ none → (Cpp.records x).length = 1) ∧ (Go.call x ≠ none → (Go.records x).length = 1) ∧
      (Java.command x ≠ none → (Java.records x).length = 1) := by
  unfold Fits at h
  unfold Cpp.records Go.records Java.records
  rcases call_cases x with ⟨hgo, hjava, hcpp⟩ | ⟨names, c, hgo, -⟩ | ⟨name, hgo, hname, hjava, hcpp⟩
  · rw [hgo, hjava, hcpp]
    exact ⟨rfl, rfl, fun h => absurd rfl h, fun h => absurd rfl h, fun h => absurd rfl h⟩
  · rw [hgo] at h
    exact h.elim
  · rw [hgo] at h
    obtain ⟨htype, hplain⟩ := h
    have hstatus := @Outcome.Plain.status name _ hplain
    rw [hgo, hjava, hcpp, if_neg htype]
    dsimp only
    rw [hname, hstatus.1, hstatus.2]
    exact ⟨rfl, rfl, fun _ => rfl, fun _ => rfl, fun _ => rfl⟩

theorem accounted_of_fits (h : ∀ x ∈ xs, Fits x) : Accounted xs where
  cpp := by rw [List.flatMap_congr fun x hx => (records_of_fits (h x hx)).1]
  go := by rw [List.flatMap_congr fun x hx => (records_of_fits (h x hx)).2.1]
  sent := fun x hx _ => (records_of_fits (h x hx)).2.2

/-- The records of one execution: none, those of a pipeline that Go does not count, or those of a single command. -/
theorem records_cases (x : Execution) :
    (Go.call x = none ∧ Go.records x = [] ∧ Java.records x = [] ∧ Cpp.records x = []) ∨
      (Go.records x = [] ∧ (Java.records x).length = 1 ∧ (Cpp.records x).length = 1) ∨
        ∃ name, Go.call x = some (.command name) ∧
          Go.records x = [⟨name.toUpper, Go.redisCommandStatus (Go.err name x.outcome)⟩] ∧
            Java.records x = [⟨name.toUpper, Java.redisCommandStatus (Java.thrown x.outcome)⟩] ∧
              Cpp.records x = if x.dataType = .string "" then [] else [⟨name.toUpper, Cpp.status x.outcome⟩] := by
  unfold Cpp.records Go.records Java.records
  rcases call_cases x with ⟨hgo, hjava, hcpp⟩ | ⟨names, c, hgo, hjava, hcpp⟩ | ⟨name, hgo, hname, hjava, hcpp⟩
  · rw [hgo, hjava, hcpp]
    exact Or.inl ⟨rfl, rfl, rfl, rfl⟩
  · rw [hgo, hjava, hcpp]
    exact Or.inr (Or.inl ⟨rfl, rfl, rfl⟩)
  · rw [hgo, hjava, hcpp]
    refine Or.inr (Or.inr ⟨name, rfl, by dsimp only; rw [hname]; rfl, rfl, ?_⟩)
    by_cases htype : x.dataType = .string ""
    · rw [if_pos htype, if_pos htype]
    · rw [if_neg htype, if_neg htype]

/-- As many records of each execution as Java has. -/
theorem Accounted.lengths (h : Accounted xs) : ∀ x ∈ xs, (Cpp.records x).length = (Java.records x).length ∧
    (Go.records x).length = (Java.records x).length := by
  have hle : ∀ x : Execution, (Cpp.records x).length ≤ (Java.records x).length ∧
      (Go.records x).length ≤ (Java.records x).length := fun x => by
    rcases records_cases x with ⟨-, hgo, hjava, hcpp⟩ | ⟨hgo, hjava, hcpp⟩ | ⟨name, -, hgo, hjava, hcpp⟩
    · rw [hgo, hjava, hcpp]
      exact ⟨Nat.le_refl _, Nat.le_refl _⟩
    · rw [hgo, hjava, hcpp]
      exact ⟨Nat.le_refl _, Nat.zero_le _⟩
    · rw [hgo, hjava, hcpp]
      refine ⟨?_, Nat.le_refl _⟩
      split
      · exact Nat.zero_le _
      · exact Nat.le_refl _
  have hall : ∀ l : List Cell, l.length = l.countP fun _ => true := fun l => (congrFun List.countP_true l).symm
  simp only [hall] at hle ⊢
  exact fun x hx => ⟨countP_eq_of_flatMap (h.cpp.countP_eq _) (fun x _ => (hle x).1) x hx,
    countP_eq_of_flatMap (h.go.countP_eq _) (fun x _ => (hle x).2) x hx⟩

/-- Nothing, or a single command that every engine records. -/
theorem Accounted.single (h : Accounted xs) : ∀ x ∈ xs,
    (Go.call x = none ∧ Go.records x = [] ∧ Java.records x = [] ∧ Cpp.records x = []) ∨
      ∃ name, Go.call x = some (.command name) ∧ x.dataType ≠ .string "" ∧
        Go.records x = [⟨name.toUpper, Go.redisCommandStatus (Go.err name x.outcome)⟩] ∧
          Java.records x = [⟨name.toUpper, Java.redisCommandStatus (Java.thrown x.outcome)⟩] ∧
            Cpp.records x = [⟨name.toUpper, Cpp.status x.outcome⟩] := by
  intro x hx
  obtain ⟨hlen, hlen'⟩ := h.lengths x hx
  rcases records_cases x with hnone | ⟨hgo, hjava, -⟩ | ⟨name, hcall, hgo, hjava, hcpp⟩
  · exact Or.inl hnone
  · rw [hgo, hjava] at hlen'
    cases hlen'
  · have htype : x.dataType ≠ .string "" := fun htype => by
      rw [hcpp, hjava, if_pos htype] at hlen
      cases hlen
    rw [if_neg htype] at hcpp
    exact Or.inr ⟨name, hcall, htype, hgo, hjava, hcpp⟩

theorem fits_of_accounted (h : Accounted xs) : ∀ x ∈ xs, Fits x := by
  have hsingle := h.single
  -- C++ finds no timeout that the others do not find, and no exhausted pool
  have hle : ∀ x ∈ xs, withStatus "timeout" (Cpp.records x) ≤ withStatus "timeout" (Java.records x) ∧
      withStatus "timeout" (Cpp.records x) ≤ withStatus "timeout" (Go.records x) ∧
        withStatus "pool_timeout" (Cpp.records x) ≤ withStatus "pool_timeout" (Java.records x) := fun x hx => by
    rcases hsingle x hx with ⟨-, hgo, hjava, hcpp⟩ | ⟨name, -, -, hgo, hjava, hcpp⟩
    · rw [hgo, hjava, hcpp]
      exact ⟨Nat.le_refl _, Nat.le_refl _, Nat.le_refl _⟩
    · rw [hgo, hjava, hcpp]
      simp only [withStatus_singleton, if_neg (cpp_poolTimeout x.outcome)]
      by_cases htimeout : Cpp.status x.outcome = "timeout"
      · rw [cpp_timeout htimeout]
        exact ⟨Nat.le_refl _, Nat.le_refl _, Nat.zero_le _⟩
      · rw [if_neg htimeout]
        exact ⟨Nat.zero_le _, Nat.zero_le _, Nat.zero_le _⟩
  intro x hx
  have hjava := countP_eq_of_flatMap (h.cpp.countP_eq _) (fun x hx => (hle x hx).1) x hx
  have hgo := countP_eq_of_flatMap ((h.cpp.trans h.go.symm).countP_eq _) (fun x hx => (hle x hx).2.1) x hx
  have hpool := countP_eq_of_flatMap (h.cpp.countP_eq _) (fun x hx => (hle x hx).2.2) x hx
  change withStatus "timeout" _ = withStatus "timeout" _ at hjava hgo
  change withStatus "pool_timeout" _ = withStatus "pool_timeout" _ at hpool
  unfold Fits
  rcases hsingle x hx with ⟨hcall, -⟩ | ⟨name, hcall, htype, hgo', hjava', hcpp⟩
  · rw [hcall]
    trivial
  · rw [hcpp, hjava', withStatus_singleton, withStatus_singleton] at hjava hpool
    rw [hcpp, hgo', withStatus_singleton, withStatus_singleton] at hgo
    rw [hcall]
    refine ⟨htype, @plain_of_status name _ (fun h => ?_) (fun h => ?_) fun h => ?_⟩
    · by_contra hno
      rw [if_neg hno, if_pos h] at hgo
      cases hgo
    · by_contra hno
      rw [if_neg hno, if_pos h] at hjava
      cases hjava
    · rw [if_neg (cpp_poolTimeout _), if_pos h] at hpool
      cases hpool

/-- The engines add the same increments to the same cells, one for every command that was sent, exactly where each
execution sends nothing or a single command whose outcome they classify alike. -/
theorem accounted_iff (xs : List Execution) : Accounted xs ↔ ∀ x ∈ xs, Fits x :=
  ⟨fits_of_accounted, accounted_of_fits⟩

/-- A set of one member is written, and the server answers. -/
def oneMember : Execution where
  operator := .set (.array [.string "a"])
  dataType := .string "set"
  outcome := .success

/-- C++ and Java count the write, Go does not. -/
theorem not_accounted_oneMember : Cpp.records oneMember = [⟨"SADD", "ok"⟩] ∧ Java.records oneMember = [⟨"SADD", "ok"⟩] ∧
    Go.records oneMember = [] ∧ ¬ Accounted [oneMember] := by
  refine ⟨rfl, rfl, rfl, fun h => ?_⟩
  have hsent := (h.sent oneMember (List.mem_singleton.mpr rfl) trivial).2.1 nofun
  cases hsent

end Pineapple.RedisMetrics
