import Pineapple.LuaBridge
import Mathlib.Logic.Relation

/-! # The stack of a Lua state (`lua_bridge.cpp`)

The state that a pool lends keeps its stack from one request to the next. An error of Lua outside `lua_pcall` ends
the process or passes through the function as an exception, with the stack that Lua leaves. -/

namespace Pineapple.Lua

open Json (Bytes Value token)

/-! ## The functions of the bridge -/

/-- What a Lua state holds beside its stack. -/
structure Machine (ρ : Type) where
  heap : List Table
  rest : ρ

/-- A call of Lua outside `lua_pcall`. -/
inductive Ran (ρ α : Type)
  | never
  | raised (m : Machine ρ) (left : Option (List LuaValue))
  | done (m : Machine ρ) (a : α)

/-- A call of Lua through `lua_pcall`. -/
inductive Protected (ρ : Type)
  | never
  | error (m : Machine ρ) (obj : LuaValue)
  | ok (m : Machine ρ) (results : List LuaValue)

/-- Lua with the scripts it has loaded. -/
structure Engine (ρ : Type) where
  sem : Semantics
  getglobal : Machine ρ → List LuaValue → Bytes → Ran ρ LuaValue
  setglobal : Machine ρ → List LuaValue → Bytes → LuaValue → Ran ρ Unit
  openLib : Machine ρ → List LuaValue → String → Ran ρ Unit
  pcall : Machine ρ → LuaValue → Protected ρ
  ref : Machine ρ → LuaValue → Machine ρ × Int
  rawgeti : Machine ρ → Int → LuaValue
  unref : Machine ρ → Int → Machine ρ
  globalTable : Machine ρ → LuaValue
  globals : Machine ρ → List (Key × LuaValue)
  libFunction : String → LuaValue
  numberText : Binary64 → Bytes

/-- How a function of the bridge ends. -/
inductive Out (ρ α : Type)
  | never
  | ended
  | exit (m : Machine ρ) (e : Exit α)

/-- An error outside `lua_pcall` ends the process or leaves the function. -/
def Out.raise {ρ α : Type} (m : Machine ρ) : Option (List LuaValue) → Out ρ α
  | none => .ended
  | some left => .exit m (.throw left .lua)

/-- The calls of the API that work on the global table and the registry. -/
inductive Instr
  | push (x : LuaValue)
  | pushlib (name : String)
  | getglobal (key : Bytes)
  | setglobal (key : Bytes)
  | call (name : String)
  | ref (key : Bytes)
  | rawgeti (ref : Int)
  | unref (ref : Int)

/-- The part of a `std::string` that a C string shows. -/
def cStr (s : Bytes) : Bytes := s.takeWhile (· ≠ 0)

/-- The calls that a function makes, from the state where it makes the first. -/
structure Calls (ρ : Type) where
  instrs : List Instr
  machine : Machine ρ
  stack : List LuaValue

section
variable {ρ : Type} (E : Engine ρ)

/-- One call, with the references that `luaL_ref` gave. -/
def step (m : Machine ρ) (stack : List LuaValue) (values : List (Bytes × Int)) : Instr → Out ρ (List (Bytes × Int))
  | .push x => .exit m (.ret (x :: stack) values)
  | .pushlib name => .exit m (.ret (E.libFunction name :: stack) values)
  | .getglobal key =>
    match E.getglobal m stack (cStr key) with
    | .never => .never
    | .raised m left => .raise m left
    | .done m x => .exit m (.ret (x :: stack) values)
  | .setglobal key =>
    match E.setglobal m stack (cStr key) (stack.headD .nil) with
    | .never => .never
    | .raised m left => .raise m left
    | .done m _ => .exit m (.ret stack.tail values)
  | .call name =>
    match E.openLib m stack name with
    | .never => .never
    | .raised m left => .raise m left
    | .done m _ => .exit m (.ret (stack.drop 2) values)
  | .ref key =>
    let r := E.ref m (stack.headD .nil)
    .exit r.1 (.ret stack.tail (values ++ [(key, r.2)]))
  | .rawgeti ref => .exit m (.ret (E.rawgeti m ref :: stack) values)
  | .unref ref => .exit (E.unref m ref) (.ret stack values)

def exec : List Instr → Machine ρ → List LuaValue → List (Bytes × Int) → Out ρ (List (Bytes × Int))
  | [], m, stack, values => .exit m (.ret stack values)
  | i :: is, m, stack, values =>
    match step E m stack values i with
    | .exit m (.ret stack values) => exec is m stack values
    | out => out

/-- `capture_values`. -/
def captureValues (globals : List Bytes) (m : Machine ρ) (stack : List LuaValue) : Calls ρ :=
  ⟨globals.flatMap fun key => [.getglobal key, .ref key], m, stack⟩

/-- The loop over the global table, with what `lua_next` has left to give: the names that are not of the baseline. -/
def newGlobals (globals : List Bytes) : List (Key × LuaValue) → List Bytes → List LuaValue → List Bytes × List LuaValue
  | [], toRemove, stack => (toRemove, stack.tail)
  | (key, v) :: rest, toRemove, stack =>
    let stack := v :: key.value :: stack.tail
    let toRemove :=
      match key with
      | .string s => if cStr s ∈ globals then toRemove else toRemove ++ [cStr s]
      | _ => toRemove
    newGlobals globals rest toRemove stack.tail

def kSafeLibs : List String := ["", "table", "string", "math"]

def kSkipBuiltins : List String :=
  ["_G", "_VERSION", "assert", "collectgarbage", "error", "getfenv", "getmetatable", "ipairs", "load", "loadstring",
    "math", "next", "pairs", "pcall", "print", "rawequal", "rawget", "rawset", "select", "setfenv", "setmetatable",
    "string", "table", "tonumber", "tostring", "type", "unpack", "xpcall"]

/-- What `reset_to_baseline` does with the names it is to remove. -/
def resetInstrs (toRemove : List Bytes) (borrowSnap : List (Bytes × Int)) : List Instr :=
  toRemove.flatMap (fun key => [.push .nil, .setglobal key]) ++
    kSafeLibs.flatMap (fun name => [.pushlib name, .push (.string (token name)), .call name]) ++
    [.push .nil, .setglobal (token "dofile"), .push .nil, .setglobal (token "loadfile")] ++
    borrowSnap.flatMap fun e =>
      (if e.1 ∈ kSkipBuiltins.map token then [] else [.rawgeti e.2, .setglobal e.1]) ++ [.unref e.2]

/-- `reset_to_baseline`. -/
def resetToBaseline (globals : List Bytes) (borrowSnap : List (Bytes × Int)) (m : Machine ρ)
    (stack : List LuaValue) : Calls ρ :=
  let (toRemove, stack) := newGlobals globals (E.globals m) [] (.nil :: E.globalTable m :: stack)
  ⟨resetInstrs toRemove borrowSnap, m, stack.tail⟩

/-- `set_global`. -/
def setGlobal (name : Bytes) (value : Value) (m : Machine ρ) (stack : List LuaValue) : Calls ρ :=
  let s := toLua value ⟨m.heap, stack⟩
  ⟨[.setglobal name], { m with heap := s.heap }, s.stack⟩

/-- `set_global_table`. -/
def setGlobalTable (name : Bytes) (values : List Value) (m : Machine ρ) (stack : List LuaValue) :
    Calls ρ :=
  let s := toLuaElements values 1 (LuaState.createtable ⟨m.heap, stack⟩)
  ⟨[.setglobal name], { m with heap := s.heap }, s.stack⟩

/-- `lua_tostring` of an error object. -/
def errorText : LuaValue → Option Bytes
  | .number d => some (E.numberText d)
  | .string s => some (cStr s)
  | _ => none

/-- The results that `lua_pcall` leaves of those that a function returned. -/
def adjust : Nat → List LuaValue → List LuaValue
  | 0, _ => []
  | n + 1, [] => .nil :: adjust n []
  | n + 1, x :: xs => x :: adjust n xs

def LuaValue.isNaN : LuaValue → Bool
  | .number .nan => true
  | _ => false

/-- The loop over the results, with the positions that are left. -/
def readResults (convert : List LuaValue → Nat → Option (Exit Value)) (op : String) (nret : Nat) :
    List Nat → List Value → List LuaValue → Option (Exit (List Value))
  | [], results, stack => some (.ret (stack.drop nret) results)
  | j :: rest, results, stack =>
    if (stack.getD (nret - j - 1) .nil).isNaN then
      some (.throw (stack.drop nret) (.execution op (token "lua returned NaN")))
    else
      match convert stack (nret - j) with
      | none => none
      | some (.throw stack e) => some (.throw stack e)
      | some (.ret stack v) => readResults convert op nret rest (results ++ [v]) stack

/-- `call_function`; without fuel it has not ended. -/
def callFunction (fuel : Nat) (func : Bytes) (nret : Nat) (op : String) (m : Machine ρ) (stack : List LuaValue) :
    Option (Out ρ (List Value)) :=
  match E.getglobal m stack (cStr func) with
  | .never => some .never
  | .raised m left => some (.raise m left)
  | .done m (.other .function id) =>
    match E.pcall m (.other .function id) with
    | .never => some .never
    | .error m obj =>
      match errorText E obj with
      | none => some (.exit m (.throw (obj :: stack) .nullString))
      | some err => some (.exit m (.throw stack (.execution op (token "lua: " ++ err))))
    | .ok m results =>
      (readResults (fromLua E.sem m.heap fuel) op nret (List.range nret) []
        ((adjust nret results).reverse ++ stack)).map (.exit m)
  | .done m _ =>
    some (.exit m (.throw stack (.execution op
      (token "lua: function \"" ++ func ++ token "\" not defined in script"))))

end

/-! ## Requests -/

/-- The functions of the bridge with their arguments. -/
inductive Request
  | setGlobal (name : Bytes) (value : Value)
  | setGlobalTable (name : Bytes) (values : List Value)
  | captureValues (globals : List Bytes)
  | resetToBaseline (globals : List Bytes) (borrowSnap : List (Bytes × Int))
  | callFunction (func : Bytes) (nret : Nat) (op : String)

section
variable {ρ : Type} (E : Engine ρ)

/-- The functions that work on the globals, by the calls they make. -/
def Request.calls (m : Machine ρ) (stack : List LuaValue) : Request → Option (Calls ρ)
  | .setGlobal name value => some (Lua.setGlobal name value m stack)
  | .setGlobalTable name values => some (Lua.setGlobalTable name values m stack)
  | .captureValues globals => some (Lua.captureValues globals m stack)
  | .resetToBaseline globals borrowSnap => some (Lua.resetToBaseline E globals borrowSnap m stack)
  | .callFunction .. => none

def Calls.run (c : Calls ρ) : Out ρ (List (Bytes × Int)) := exec E c.instrs c.machine c.stack []

/-- Every exit leaves the stack with a height. -/
def Out.Balanced {α : Type} (out : Out ρ α) (height : Nat) : Prop := ∀ m e, out = .exit m e → e.stack.length = height

/-- A function leaves the stack at the height it found. When the script has ended, `call_function` exits, and with
no other exception than an `ExecutionError`. -/
def Request.Meets (m : Machine ρ) (stack : List LuaValue) : Request → Prop
  | .callFunction func nret op => ∃ fuel₀, ∀ fuel, fuel₀ ≤ fuel →
      ∃ out, Lua.callFunction E fuel func nret op m stack = some out ∧ out ≠ .ended ∧ out.Balanced stack.length ∧
        ∀ m left e, out = .exit m (.throw left e) → ∃ opName msg, e = .execution opName msg
  | r => ∀ c, r.calls E m stack = some c → (c.run E).Balanced stack.length

/-- A call that a function reaches raises an error, which leaves the function with a stack. -/
def Calls.Raises (c : Calls ρ) (left : List LuaValue) : Prop :=
  ∃ pre i post, c.instrs = pre ++ i :: post ∧ ∃ m stack values,
    exec E pre c.machine c.stack [] = .exit m (.ret stack values) ∧
      ∃ m', step E m stack values i = .exit m' (.throw left .lua)

end

/-- A value that `from_lua` reads: no table within itself, and only strings as keys where the length is zero. -/
inductive Fits (sem : Semantics) (heap : List Table) : LuaValue → Prop
  | nil : Fits sem heap .nil
  | boolean (b : Bool) : Fits sem heap (.boolean b)
  | number (d : Binary64) : Fits sem heap (.number d)
  | string (s : Bytes) : Fits sem heap (.string s)
  | other (kind : Kind) (id : Nat) : Fits sem heap (.other kind id)
  | elements {ref : Nat} : 0 < sem.objlen (heap.getD ref .empty) →
      (∀ i : Nat, 1 ≤ i → i ≤ sem.objlen (heap.getD ref .empty) → Fits sem heap ((heap.getD ref .empty).get (.index i))) →
      Fits sem heap (.table ref)
  | members {ref : Nat} : sem.objlen (heap.getD ref .empty) = 0 →
      (∀ e ∈ (heap.getD ref .empty).entries, ∃ s, e.1 = .string s) →
      (∀ e ∈ (heap.getD ref .empty).entries, Fits sem heap e.2) → Fits sem heap (.table ref)

/-- An error outside `lua_pcall` does not leave a function with another height. In `call_function` there is none; the
error object is a string or a number, and the results before the first NaN can be read. -/
def Request.Clean {ρ : Type} (E : Engine ρ) (m : Machine ρ) (stack : List LuaValue) : Request → Prop
  | .callFunction func nret _ =>
    match E.getglobal m stack (cStr func) with
    | .never => True
    | .raised _ _ => False
    | .done m (.other .function id) =>
      match E.pcall m (.other .function id) with
      | .never => True
      | .error _ obj => (∃ d, obj = .number d) ∨ ∃ s, obj = .string s
      | .ok m results => ∀ x ∈ (adjust nret results).takeWhile (!·.isNaN), Fits E.sem m.heap x
    | .done _ _ => True
  | r => ∀ c, r.calls E m stack = some c → ∀ left, c.Raises E left → left.length = stack.length

/-! ## The calls on the globals -/

mutual
theorem toLua_stack : ∀ (v : Value) (s : LuaState), ∃ x, (toLua v s).stack = x :: s.stack
  | .null, _ => ⟨.nil, rfl⟩
  | .bool b, _ => ⟨.boolean b, rfl⟩
  | .number d, _ => ⟨.number d, rfl⟩
  | .string t, _ => ⟨.string t, rfl⟩
  | .array xs, s => ⟨.table s.heap.length, toLuaElements_stack xs 1 (s := s.createtable) rfl⟩
  | .object es, s => ⟨.table s.heap.length, toLuaMembers_stack es (s := s.createtable) rfl⟩

theorem toLuaElements_stack : ∀ (xs : List Value) (i : Nat) {s : LuaState} {ref : Nat} {rest : List LuaValue},
    s.stack = .table ref :: rest → (toLuaElements xs i s).stack = .table ref :: rest
  | [], _, _, _, _, h => h
  | x :: xs, i, s, ref, rest, h => by
    obtain ⟨y, hy⟩ := toLua_stack x s
    refine toLuaElements_stack xs (i + 1) ?_
    rw [LuaState.rawseti, hy, h]

theorem toLuaMembers_stack : ∀ (es : List (Bytes × Value)) {s : LuaState} {ref : Nat} {rest : List LuaValue},
    s.stack = .table ref :: rest → (toLuaMembers es s).stack = .table ref :: rest
  | [], _, _, _, h => h
  | (k, v) :: es, s, ref, rest, h => by
    obtain ⟨y, hy⟩ := toLua_stack v (s.push (.string k))
    refine toLuaMembers_stack es ?_
    rw [LuaState.rawset, hy, LuaState.push, h]
end

theorem newGlobals_stack (globals : List Bytes) (l : List (Key × LuaValue)) (toRemove : List Bytes) (x : LuaValue)
    (stack : List LuaValue) : (newGlobals globals l toRemove (x :: stack)).2 = stack := by
  induction l generalizing toRemove x with
  | nil => rfl
  | cons e l ih => exact ih _ _

section
variable {ρ : Type} {E : Engine ρ}

/-- What a call makes of the height of the stack. -/
def Instr.height : Instr → Nat → Nat
  | .push _, n => n + 1
  | .pushlib _, n => n + 1
  | .getglobal _, n => n + 1
  | .setglobal _, n => n - 1
  | .call _, n => n - 2
  | .ref _, n => n - 1
  | .rawgeti _, n => n + 1
  | .unref _, n => n

def height (is : List Instr) (n : Nat) : Nat := is.foldl (fun n i => i.height n) n

theorem Out.raise_eq {α : Type} {m m' : Machine ρ} {left : Option (List LuaValue)} {e : Exit α}
    (h : Out.raise m left = .exit m' e) : ∃ stack, e = .throw stack .lua := by
  cases left with
  | none => cases h
  | some stack =>
    cases h
    exact ⟨stack, rfl⟩

theorem step_height {m m' : Machine ρ} {stack stack' : List LuaValue} {values values' : List (Bytes × Int)} {i : Instr}
    (h : step E m stack values i = .exit m' (.ret stack' values')) : stack'.length = i.height stack.length := by
  cases i with
  | push | pushlib | rawgeti | unref =>
    cases h
    rfl
  | ref =>
    cases h
    exact List.length_tail
  | getglobal | setglobal | call =>
    simp only [step] at h
    split at h
    · cases h
    · obtain ⟨_, h⟩ := Out.raise_eq h
      cases h
    · cases h
      simp [Instr.height]

theorem step_throw {m m' : Machine ρ} {stack left : List LuaValue} {values : List (Bytes × Int)} {i : Instr}
    {e : Thrown} (h : step E m stack values i = .exit m' (.throw left e)) : e = .lua := by
  cases i with
  | push | pushlib | rawgeti | unref | ref => cases h
  | getglobal | setglobal | call =>
    simp only [step] at h
    split at h
    · cases h
    · obtain ⟨_, h⟩ := Out.raise_eq h
      cases h
      rfl
    · cases h

/-- The first call goes on to the others, or it is the last one. -/
theorem exec_cases (E : Engine ρ) (i : Instr) (is : List Instr) (m : Machine ρ) (stack : List LuaValue)
    (values : List (Bytes × Int)) :
    (∃ m' stack' values', step E m stack values i = .exit m' (.ret stack' values') ∧
      exec E (i :: is) m stack values = exec E is m' stack' values') ∨
    (∀ m' stack' values', step E m stack values i ≠ .exit m' (.ret stack' values')) ∧
      exec E (i :: is) m stack values = step E m stack values i := by
  rw [exec]
  split
  · next m' stack' values' hstep => exact .inl ⟨m', stack', values', hstep, rfl⟩
  · next hother => exact .inr ⟨hother, rfl⟩

theorem exec_height {is : List Instr} {m m' : Machine ρ} {stack stack' : List LuaValue}
    {values values' : List (Bytes × Int)} (h : exec E is m stack values = .exit m' (.ret stack' values')) :
    stack'.length = height is stack.length := by
  induction is generalizing m stack values with
  | nil =>
    cases h
    rfl
  | cons i is ih =>
    obtain ⟨m₁, stack₁, values₁, hstep, hexec⟩ | ⟨hother, hexec⟩ := exec_cases E i is m stack values
    · rw [hexec] at h
      rw [ih h, step_height hstep]
      rfl
    · exact absurd (hexec.symm.trans h) (hother _ _ _)

theorem exec_append {is js : List Instr} {m : Machine ρ} {stack : List LuaValue} {values : List (Bytes × Int)} :
    exec E (is ++ js) m stack values =
      match exec E is m stack values with
      | .exit m (.ret stack values) => exec E js m stack values
      | out => out := by
  induction is generalizing m stack values with
  | nil => rfl
  | cons i is ih =>
    rw [List.cons_append]
    obtain ⟨m₁, stack₁, values₁, hstep, hexec⟩ | ⟨hother, hexec⟩ := exec_cases E i is m stack values
    · rw [hexec, exec, hstep]
      exact ih
    · obtain ⟨_, _, _, hstep, -⟩ | ⟨-, hlast⟩ := exec_cases E i (is ++ js) m stack values
      · exact absurd hstep (hother _ _ _)
      · rw [hexec, hlast]
        split
        · next hout => exact absurd hout (hother _ _ _)
        · rfl

theorem exec_throw_iff {is : List Instr} {m : Machine ρ} {stack left : List LuaValue} :
    (∃ m' e, exec E is m stack [] = .exit m' (.throw left e)) ↔ (Calls.mk is m stack).Raises E left := by
  constructor
  · have hgen : ∀ (is : List Instr) (m : Machine ρ) (stack : List LuaValue) (values : List (Bytes × Int)),
        (∃ m' e, exec E is m stack values = .exit m' (.throw left e)) →
        ∃ pre i post, is = pre ++ i :: post ∧ ∃ m₁ stack₁ values₁,
          exec E pre m stack values = .exit m₁ (.ret stack₁ values₁) ∧
            ∃ m', step E m₁ stack₁ values₁ i = .exit m' (.throw left .lua) := by
      intro is
      induction is with
      | nil => rintro m stack values ⟨_, _, h⟩; cases h
      | cons i is ih =>
        rintro m stack values ⟨m', e, h⟩
        obtain ⟨m₁, stack₁, values₁, hstep, hexec⟩ | ⟨-, hexec⟩ := exec_cases E i is m stack values
        · rw [hexec] at h
          obtain ⟨pre, j, post, rfl, m₂, stack₂, values₂, hpre, hj⟩ := ih _ _ _ ⟨m', e, h⟩
          refine ⟨i :: pre, j, post, rfl, m₂, stack₂, values₂, ?_, hj⟩
          rw [exec, hstep]
          exact hpre
        · rw [hexec] at h
          obtain rfl := step_throw h
          exact ⟨[], i, is, rfl, m, stack, values, rfl, m', h⟩
    exact hgen is m stack []
  · rintro ⟨pre, i, post, rfl, m₁, stack₁, values₁, hpre, m', hstep⟩
    refine ⟨m', .lua, ?_⟩
    rw [exec_append, hpre]
    simp only [exec, hstep]

theorem Calls.balanced_iff {c : Calls ρ} {n : Nat} (h : height c.instrs c.stack.length = n) :
    (c.run E).Balanced n ↔ ∀ left, c.Raises E left → left.length = n := by
  constructor
  · intro hbal left hraise
    obtain ⟨m, e, hrun⟩ := exec_throw_iff.mpr hraise
    exact hbal m _ hrun
  · intro hraise m e hrun
    cases e with
    | ret stack values => exact (exec_height hrun).trans h
    | throw left e => exact hraise left (exec_throw_iff.mp ⟨m, e, hrun⟩)

theorem height_append (is js : List Instr) (n : Nat) : height (is ++ js) n = height js (height is n) :=
  List.foldl_append

theorem height_flatMap {α : Type} {f : α → List Instr} (h : ∀ a n, height (f a) n = n) (l : List α) (n : Nat) :
    height (l.flatMap f) n = n := by
  induction l with
  | nil => rfl
  | cons a l ih => rw [List.flatMap_cons, height_append, h, ih]

theorem resetInstrs_height (toRemove : List Bytes) (borrowSnap : List (Bytes × Int)) (n : Nat) :
    height (resetInstrs toRemove borrowSnap) n = n := by
  have hrestore : ∀ (e : Bytes × Int) (n : Nat), height
      ((if e.1 ∈ kSkipBuiltins.map token then [] else [.rawgeti e.2, .setglobal e.1]) ++ [.unref e.2]) n = n := by
    intro e n
    split <;> rfl
  rw [resetInstrs, height_append, height_append, height_append, height_flatMap hrestore]
  rw [height_flatMap fun _ _ => rfl, height_flatMap fun _ _ => rfl]
  rfl

theorem Request.calls_height {m : Machine ρ} {stack : List LuaValue} {r : Request} {c : Calls ρ}
    (h : r.calls E m stack = some c) : height c.instrs c.stack.length = stack.length := by
  cases r with
  | setGlobal name value =>
    cases h
    obtain ⟨x, hx⟩ := toLua_stack value ⟨m.heap, stack⟩
    simp only [Lua.setGlobal, hx]
    rfl
  | setGlobalTable name values =>
    cases h
    simp only [Lua.setGlobalTable, toLuaElements_stack values 1 (s := LuaState.createtable ⟨m.heap, stack⟩) rfl]
    rfl
  | captureValues globals =>
    cases h
    exact height_flatMap (fun _ _ => rfl) _ _
  | resetToBaseline globals borrowSnap =>
    cases h
    simp only [Lua.resetToBaseline, newGlobals_stack]
    exact resetInstrs_height _ _ _
  | callFunction => cases h

end

/-! ## Reading values -/

section
variable {sem : Semantics} {heap : List Table}

theorem tableAt_getD {stack : List LuaValue} {k ref : Nat} (hk : 1 ≤ k) (hx : stack[k - 1]? = some (.table ref)) :
    tableAt heap stack (stack.length - k + 1) = heap.getD ref .empty := by
  have hlt := (List.getElem?_eq_some_iff.mp hx).1
  have hpos : stack.length - (stack.length - k + 1) = k - 1 := by omega
  rw [tableAt, hpos, hx]

/-- A conversion that leaves the stack as it was and has read a value that fits, or throws from above the stack. -/
def Exact (sem : Semantics) (heap : List Table) (convert : List LuaValue → Nat → Option (Exit Value)) : Prop :=
  ∀ stack k x e, 1 ≤ k → stack[k - 1]? = some x → convert stack k = some e →
    (∀ stack' v, e = .ret stack' v → stack' = stack ∧ Fits sem heap x) ∧
      ∀ stack' t, e = .throw stack' t → stack.length ≤ stack'.length ∧ ¬Fits sem heap x

theorem readElements_exact {convert : List LuaValue → Nat → Option (Exit Value)} (h : Exact sem heap convert)
    {absIdx : Nat} {is : List Nat} {arr : List Value} {stack : List LuaValue} {e : Exit Value}
    (hread : readElements heap convert absIdx is arr stack = some e) :
    (∀ stack' v, e = .ret stack' v → stack' = stack ∧
        ∀ i ∈ is, Fits sem heap ((tableAt heap stack absIdx).get (.index i))) ∧
      ∀ stack' t, e = .throw stack' t → stack.length ≤ stack'.length ∧
        ∃ i ∈ is, ¬Fits sem heap ((tableAt heap stack absIdx).get (.index i)) := by
  induction is generalizing arr with
  | nil =>
    cases hread
    refine ⟨fun stack' v he => ?_, by rintro _ _ ⟨⟩⟩
    cases he
    exact ⟨rfl, fun i hi => absurd hi List.not_mem_nil⟩
  | cons i is ih =>
    rw [readElements] at hread
    split at hread
    · cases hread
    · next hconv =>
      cases hread
      obtain ⟨hlen, hnot⟩ := (h _ 1 _ _ (Nat.le_refl _) rfl hconv).2 _ _ rfl
      refine ⟨by rintro _ _ ⟨⟩, fun stack' t he => ?_⟩
      cases he
      exact ⟨Nat.le_of_succ_le hlen, i, List.mem_cons_self, hnot⟩
    · next hconv =>
      obtain ⟨rfl, hfits⟩ := (h _ 1 _ _ (Nat.le_refl _) rfl hconv).1 _ _ rfl
      obtain ⟨hret, hthrow⟩ := ih hread
      refine ⟨fun stack' v he => ?_, fun stack' t he => ?_⟩
      · obtain ⟨hstack, hrest⟩ := hret stack' v he
        refine ⟨hstack, fun j hj => ?_⟩
        rcases List.mem_cons.mp hj with rfl | hj
        · exact hfits
        · exact hrest j hj
      · obtain ⟨hlen, j, hj, hnot⟩ := hthrow stack' t he
        exact ⟨hlen, j, List.mem_cons_of_mem _ hj, hnot⟩

theorem readMembers_exact {convert : List LuaValue → Nat → Option (Exit Value)} (h : Exact sem heap convert)
    {l : List (Key × LuaValue)} {obj : List (Bytes × Value)} {x : LuaValue} {stack : List LuaValue} {e : Exit Value}
    (hread : readMembers convert l obj (x :: stack) = some e) :
    (∀ stack' v, e = .ret stack' v → stack' = stack ∧ ∀ p ∈ l, (∃ s, p.1 = .string s) ∧ Fits sem heap p.2) ∧
      ∀ stack' t, e = .throw stack' t → stack.length ≤ stack'.length ∧
        ∃ p ∈ l, ¬((∃ s, p.1 = .string s) ∧ Fits sem heap p.2) := by
  induction l generalizing obj x with
  | nil =>
    cases hread
    refine ⟨fun stack' v he => ?_, by rintro _ _ ⟨⟩⟩
    cases he
    exact ⟨rfl, fun p hp => absurd hp List.not_mem_nil⟩
  | cons p l ih =>
    obtain ⟨key, y⟩ := p
    unfold readMembers at hread
    simp only [List.tail_cons] at hread
    split at hread
    · next s =>
      split at hread
      · cases hread
      · next hconv =>
        cases hread
        obtain ⟨hlen, hnot⟩ := (h _ 1 _ _ (Nat.le_refl _) rfl hconv).2 _ _ rfl
        refine ⟨by rintro _ _ ⟨⟩, fun stack' t he => ?_⟩
        cases he
        simp only [List.length_cons] at hlen
        exact ⟨by omega, _, List.mem_cons_self, fun hp => hnot hp.2⟩
      · next hconv =>
        obtain ⟨rfl, hfits⟩ := (h _ 1 _ _ (Nat.le_refl _) rfl hconv).1 _ _ rfl
        obtain ⟨hret, hthrow⟩ := ih hread
        refine ⟨fun stack' v he => ?_, fun stack' t he => ?_⟩
        · obtain ⟨hstack, hrest⟩ := hret stack' v he
          refine ⟨hstack, fun q hq => ?_⟩
          rcases List.mem_cons.mp hq with rfl | hq
          · exact ⟨⟨s, rfl⟩, hfits⟩
          · exact hrest q hq
        · obtain ⟨hlen, q, hq, hnot⟩ := hthrow stack' t he
          exact ⟨hlen, q, List.mem_cons_of_mem _ hq, hnot⟩
    · next hkey =>
      cases hread
      refine ⟨by rintro _ _ ⟨⟩, fun stack' t he => ?_⟩
      cases he
      refine ⟨Nat.le_refl _, _, List.mem_cons_self, fun hp => ?_⟩
      obtain ⟨s, hs⟩ := hp.1
      exact hkey s hs

theorem fromLua_exact (fuel : Nat) : Exact sem heap (fromLua sem heap fuel) := by
  induction fuel with
  | zero => exact fun stack k x e _ _ h => by cases h
  | succ fuel ih =>
    intro stack k x e hk hx hread
    have hleaf : ∀ {v : Value}, some (Exit.ret stack v) = some e → Fits sem heap x →
        (∀ stack' v, e = .ret stack' v → stack' = stack ∧ Fits sem heap x) ∧
          ∀ stack' t, e = .throw stack' t → stack.length ≤ stack'.length ∧ ¬Fits sem heap x := by
      intro v he hfits
      cases he
      refine ⟨fun stack' v he => ?_, nofun⟩
      cases he
      exact ⟨rfl, hfits⟩
    rw [fromLua, hx] at hread
    cases x with
    | nil => exact hleaf hread .nil
    | boolean b => exact hleaf hread (.boolean b)
    | number d => exact hleaf hread (.number d)
    | string s => exact hleaf hread (.string s)
    | other kind id => exact hleaf hread (.other kind id)
    | table ref =>
      simp only [tableAt_getD hk hx] at hread
      split at hread
      · next hlen =>
        obtain ⟨hret, hthrow⟩ := readElements_exact ih hread
        rw [tableAt_getD hk hx] at hret hthrow
        refine ⟨fun stack' v he => ?_, fun stack' t he => ?_⟩
        · obtain ⟨hstack, hall⟩ := hret stack' v he
          exact ⟨hstack, .elements hlen fun i h1 hi => hall i (List.mem_range'_1.mpr ⟨h1, by omega⟩)⟩
        · obtain ⟨hle, i, hi, hnot⟩ := hthrow stack' t he
          refine ⟨hle, fun hfits => ?_⟩
          obtain ⟨h1, hi⟩ := List.mem_range'_1.mp hi
          cases hfits with
          | elements _ hall => exact hnot (hall i h1 (by omega))
          | members h0 => omega
      · next hlen =>
        have hmem : ∀ p, p ∈ sem.order (heap.getD ref .empty) ↔ p ∈ (heap.getD ref .empty).entries := fun p =>
          (sem.perm _).mem_iff
        obtain ⟨hret, hthrow⟩ := readMembers_exact ih hread
        simp only [hmem] at hret hthrow
        refine ⟨fun stack' v he => ?_, fun stack' t he => ?_⟩
        · obtain ⟨hstack, hall⟩ := hret stack' v he
          exact ⟨hstack, .members (by omega) (fun p hp => (hall p hp).1) fun p hp => (hall p hp).2⟩
        · obtain ⟨hle, p, hp, hnot⟩ := hthrow stack' t he
          refine ⟨hle, fun hfits => ?_⟩
          cases hfits with
          | elements hpos => omega
          | members _ hkeys hall => exact hnot ⟨hkeys p hp, hall p hp⟩

/-- Given fuel enough, `from_lua` reads a value that fits. -/
theorem Fits.settles {x : LuaValue} (h : Fits sem heap x) :
    ∃ fuel₀, ∀ fuel, fuel₀ ≤ fuel → ∀ stack k, 1 ≤ k → stack[k - 1]? = some x →
      ∃ v, fromLua sem heap fuel stack k = some (.ret stack v) := by
  have hone : ∀ {x : LuaValue} {v : Value}, Reads sem heap x v →
      ∃ fuel₀, ∀ fuel, fuel₀ ≤ fuel → ∀ stack k, 1 ≤ k → stack[k - 1]? = some x →
        ∃ v, fromLua sem heap fuel stack k = some (.ret stack v) :=
    fun ⟨fuel₀, hread⟩ => ⟨fuel₀, fun fuel hf stack k hk hx => ⟨_, hread fuel hf stack k hk hx⟩⟩
  induction h with
  | nil => exact hone (@Reads.of_step _ _ _ .null fun n stack k hx => by simp only [fromLua, hx])
  | boolean b => exact hone (@Reads.of_step _ _ _ (.bool b) fun n stack k hx => by simp only [fromLua, hx])
  | number d => exact hone (@Reads.of_step _ _ _ (.number d) fun n stack k hx => by simp only [fromLua, hx])
  | string s => exact hone (@Reads.of_step _ _ _ (.string s) fun n stack k hx => by simp only [fromLua, hx])
  | other kind id => exact hone (@Reads.of_step _ _ _ .null fun n stack k hx => by simp only [fromLua, hx])
  | @elements ref hlen _ ih =>
    obtain ⟨fuel₀, hread⟩ := common_fuel (l := List.range' 1 (sem.objlen (heap.getD ref .empty)))
      fun i hi => ih i (List.mem_range'_1.mp hi).1 (by have := (List.mem_range'_1.mp hi).2; omega)
    refine ⟨fuel₀ + 1, fun fuel hf stack k hk hx => ?_⟩
    obtain ⟨n, rfl⟩ : ∃ n, fuel = n + 1 := ⟨fuel - 1, by omega⟩
    have hloop : ∀ (is : List Nat) (arr : List Value),
        (∀ i ∈ is, i ∈ List.range' 1 (sem.objlen (heap.getD ref .empty))) →
        ∃ v, readElements heap (fromLua sem heap n) (stack.length - k + 1) is arr stack = some (.ret stack v) := by
      intro is
      induction is with
      | nil => exact fun arr _ => ⟨_, rfl⟩
      | cons i is ihl =>
        intro arr his
        obtain ⟨v, hv⟩ := hread n (Nat.le_of_succ_le_succ hf) i (his i List.mem_cons_self)
          ((heap.getD ref .empty).get (.index i) :: stack) 1 (Nat.le_refl _) rfl
        rw [readElements, tableAt_getD hk hx, hv]
        exact ihl _ fun j hj => his j (List.mem_cons_of_mem _ hj)
    simp only [fromLua, hx, tableAt_getD hk hx, if_pos hlen]
    exact hloop _ _ fun _ hi => hi
  | @members ref hlen hkeys _ ih =>
    obtain ⟨fuel₀, hread⟩ := common_fuel (l := (heap.getD ref .empty).entries) ih
    refine ⟨fuel₀ + 1, fun fuel hf stack k hk hx => ?_⟩
    obtain ⟨n, rfl⟩ : ∃ n, fuel = n + 1 := ⟨fuel - 1, by omega⟩
    have hloop : ∀ (l : List (Key × LuaValue)) (obj : List (Bytes × Value)) (y : LuaValue),
        (∀ e ∈ l, e ∈ (heap.getD ref .empty).entries) →
        ∃ v, readMembers (fromLua sem heap n) l obj (y :: stack) = some (.ret stack v) := by
      intro l
      induction l with
      | nil => exact fun obj y _ => ⟨_, rfl⟩
      | cons e l ihl =>
        intro obj y hl
        have he := hl e List.mem_cons_self
        obtain ⟨s, hs⟩ := hkeys e he
        obtain ⟨v, hv⟩ := hread n (Nat.le_of_succ_le_succ hf) e he (e.2 :: .string s :: stack) 1 (Nat.le_refl _) rfl
        obtain ⟨key, y'⟩ := e
        obtain rfl : key = .string s := hs
        simp only [readMembers, List.tail_cons, Key.value, hv]
        exact ihl _ _ fun q hq => hl q (List.mem_cons_of_mem _ hq)
    simp only [fromLua, hx, tableAt_getD hk hx, hlen, Nat.lt_irrefl, if_false]
    exact hloop _ _ _ fun e he => (sem.perm _).mem_iff.mp he

/-! ## `call_function` -/

theorem result_at (pre suf : List LuaValue) (x : LuaValue) (stack : List LuaValue) :
    ((pre ++ x :: suf).reverse ++ stack)[(pre ++ x :: suf).length - pre.length - 1]? = some x := by
  simp only [List.reverse_append, List.reverse_cons, List.append_assoc, List.length_append, List.length_cons,
    List.cons_append, List.nil_append]
  rw [List.getElem?_append_right (by simp)]
  have hpos : pre.length + (suf.length + 1) - pre.length - 1 - suf.reverse.length = 0 := by simp
  rw [hpos]
  rfl

theorem drop_results (xs stack : List LuaValue) : (xs.reverse ++ stack).drop xs.length = stack := by
  rw [← List.length_reverse, List.drop_left]

theorem readResults_exact {convert : List LuaValue → Nat → Option (Exit Value)} (h : Exact sem heap convert)
    {op : String} {stack pre suf : List LuaValue} {results : List Value} {e : Exit (List Value)}
    (hread : readResults convert op (pre ++ suf).length (List.range' pre.length suf.length) results
      ((pre ++ suf).reverse ++ stack) = some e) :
    (e.stack.length = stack.length → ∀ x ∈ suf.takeWhile (!·.isNaN), Fits sem heap x) ∧
      ((∀ x ∈ suf.takeWhile (!·.isNaN), Fits sem heap x) → e.stack = stack ∧
        ∀ left t, e = .throw left t → ∃ opName msg, t = .execution opName msg) := by
  induction suf generalizing pre results with
  | nil =>
    cases hread
    exact ⟨fun _ x hx => absurd hx List.not_mem_nil, fun _ => ⟨drop_results _ _, nofun⟩⟩
  | cons x suf ih =>
    have hx := result_at pre suf x stack
    have hk : 1 ≤ (pre ++ x :: suf).length - pre.length := by simp
    rw [List.length_cons, List.range'_succ, readResults, List.getD, hx, Option.getD_some] at hread
    split at hread
    · next hnan =>
      cases hread
      have hnone : (x :: suf).takeWhile (!·.isNaN) = [] := by simp [hnan]
      rw [hnone]
      refine ⟨fun _ x hx => absurd hx List.not_mem_nil, fun _ => ⟨drop_results _ _, fun left t he => ?_⟩⟩
      cases he
      exact ⟨_, _, rfl⟩
    · next hnan =>
      have htake : (x :: suf).takeWhile (!·.isNaN) = x :: suf.takeWhile (!·.isNaN) := by simp [hnan]
      rw [htake]
      split at hread
      · cases hread
      · next hconv =>
        cases hread
        obtain ⟨hlen, hnot⟩ := (h _ _ _ _ hk hx hconv).2 _ _ rfl
        refine ⟨fun heq => ?_, fun hall => absurd (hall x List.mem_cons_self) hnot⟩
        simp only [Exit.stack] at heq
        simp at hlen
        omega
      · next hconv =>
        obtain ⟨rfl, hfits⟩ := (h _ _ _ _ hk hx hconv).1 _ _ rfl
        have hsplit : pre ++ x :: suf = (pre ++ [x]) ++ suf := by simp
        have hnext : List.range' (pre.length + 1) suf.length = List.range' (pre ++ [x]).length suf.length := by simp
        rw [hnext, hsplit] at hread
        obtain ⟨hfit, hclean⟩ := ih hread
        refine ⟨fun heq y hy => ?_, fun hall => hclean fun y hy => hall y (List.mem_cons_of_mem _ hy)⟩
        rcases List.mem_cons.mp hy with rfl | hy
        · exact hfits
        · exact hfit heq y hy

theorem readResults_settles {convert : List LuaValue → Nat → Option (Exit Value)} {op : String}
    {stack pre suf : List LuaValue}
    (h : ∀ x ∈ suf.takeWhile (!·.isNaN), ∀ stack k, 1 ≤ k → stack[k - 1]? = some x →
      ∃ v, convert stack k = some (.ret stack v)) (results : List Value) :
    ∃ e, readResults convert op (pre ++ suf).length (List.range' pre.length suf.length) results
      ((pre ++ suf).reverse ++ stack) = some e := by
  induction suf generalizing pre results with
  | nil => exact ⟨_, rfl⟩
  | cons x suf ih =>
    have hx := result_at pre suf x stack
    have hk : 1 ≤ (pre ++ x :: suf).length - pre.length := by simp
    rw [List.length_cons, List.range'_succ, readResults, List.getD, hx, Option.getD_some]
    split
    · exact ⟨_, rfl⟩
    · next hnan =>
      have htake : (x :: suf).takeWhile (!·.isNaN) = x :: suf.takeWhile (!·.isNaN) := by simp [hnan]
      rw [htake] at h
      obtain ⟨v, hv⟩ := h x List.mem_cons_self _ _ hk hx
      have hsplit : pre ++ x :: suf = (pre ++ [x]) ++ suf := by simp
      have hnext : List.range' (pre.length + 1) suf.length = List.range' (pre ++ [x]).length suf.length := by simp
      rw [hv, hnext, hsplit]
      exact ih (fun y hy => h y (List.mem_cons_of_mem _ hy)) _

end

theorem adjust_length (n : Nat) (xs : List LuaValue) : (adjust n xs).length = n := by
  induction n generalizing xs with
  | zero => rfl
  | succ n ih => cases xs <;> simp [adjust, ih]

section
variable {ρ : Type} {E : Engine ρ}

/-- What `call_function` makes of the results. -/
theorem readResults_adjust {heap : List Table} {op : String} {nret : Nat} {results stack : List LuaValue} {fuel : Nat}
    {e : Exit (List Value)}
    (hread : readResults (fromLua E.sem heap fuel) op nret (List.range nret) []
      ((adjust nret results).reverse ++ stack) = some e) :
    (e.stack.length = stack.length → ∀ x ∈ (adjust nret results).takeWhile (!·.isNaN), Fits E.sem heap x) ∧
      ((∀ x ∈ (adjust nret results).takeWhile (!·.isNaN), Fits E.sem heap x) → e.stack = stack ∧
        ∀ left t, e = .throw left t → ∃ opName msg, t = .execution opName msg) := by
  have hexact := @readResults_exact E.sem heap _ (fromLua_exact fuel) op stack [] (adjust nret results) [] e
  rw [List.nil_append, List.length_nil, adjust_length, ← List.range_eq_range'] at hexact
  exact hexact hread

theorem callFunction_clean {func : Bytes} {nret : Nat} {op : String} {m : Machine ρ} {stack : List LuaValue}
    (h : Request.Clean E m stack (.callFunction func nret op)) {fuel : Nat} {out : Out ρ (List Value)}
    (hcall : callFunction E fuel func nret op m stack = some out) :
    out ≠ .ended ∧ out.Balanced stack.length ∧
      ∀ m left e, out = .exit m (.throw left e) → ∃ opName msg, e = .execution opName msg := by
  have hexit : ∀ {m : Machine ρ} {e : Exit (List Value)}, e.stack = stack →
      (∀ left t, e = .throw left t → ∃ opName msg, t = .execution opName msg) →
      Out.exit m e ≠ .ended ∧ (Out.exit m e).Balanced stack.length ∧
        ∀ m' left t, Out.exit m e = .exit m' (.throw left t) → ∃ opName msg, t = .execution opName msg := by
    intro m e hstack hthrow
    refine ⟨nofun, fun m' e' he => ?_, fun m' left t he => ?_⟩
    · cases he
      rw [hstack]
    · cases he
      exact hthrow left t rfl
  simp only [Request.Clean] at h
  unfold callFunction at hcall
  split at hcall
  · cases hcall
    exact ⟨nofun, nofun, nofun⟩
  · next hget => simp only [hget] at h
  · next hget =>
    simp only [hget] at h
    split at hcall
    · cases hcall
      exact ⟨nofun, nofun, nofun⟩
    · next hpcall =>
      simp only [hpcall] at h
      rcases h with ⟨d, rfl⟩ | ⟨s, rfl⟩ <;> cases hcall <;>
        exact hexit rfl fun left t he => by cases he; exact ⟨_, _, rfl⟩
    · next hpcall =>
      simp only [hpcall] at h
      obtain ⟨e, hread, rfl⟩ := Option.map_eq_some_iff.mp hcall
      obtain ⟨hstack, hthrow⟩ := (readResults_adjust hread).2 h
      exact hexit hstack hthrow
  · cases hcall
    exact hexit rfl fun left t he => by cases he; exact ⟨_, _, rfl⟩

theorem callFunction_ends {func : Bytes} {nret : Nat} {op : String} {m : Machine ρ} {stack : List LuaValue}
    (h : Request.Clean E m stack (.callFunction func nret op)) :
    ∃ fuel₀, ∀ fuel, fuel₀ ≤ fuel → ∃ out, callFunction E fuel func nret op m stack = some out := by
  simp only [Request.Clean] at h
  unfold callFunction
  split
  · exact ⟨0, fun _ _ => ⟨_, rfl⟩⟩
  · exact ⟨0, fun _ _ => ⟨_, rfl⟩⟩
  · next hget =>
    simp only [hget] at h
    split
    · exact ⟨0, fun _ _ => ⟨_, rfl⟩⟩
    · split <;> exact ⟨0, fun _ _ => ⟨_, rfl⟩⟩
    · next hpcall =>
      simp only [hpcall] at h
      obtain ⟨fuel₀, hsettle⟩ := common_fuel fun x hx => (h x hx).settles
      refine ⟨fuel₀, fun fuel hf => ?_⟩
      have hends := @readResults_settles (fromLua E.sem _ fuel) op stack [] (adjust nret _) (hsettle fuel hf) []
      rw [List.nil_append, List.length_nil, adjust_length, ← List.range_eq_range'] at hends
      obtain ⟨e, he⟩ := hends
      exact ⟨_, by rw [he]; rfl⟩
  · exact ⟨0, fun _ _ => ⟨_, rfl⟩⟩

theorem callFunction_meets {func : Bytes} {nret : Nat} {op : String} {m : Machine ρ} {stack : List LuaValue}
    (h : Request.Meets E m stack (.callFunction func nret op)) :
    Request.Clean E m stack (.callFunction func nret op) := by
  obtain ⟨fuel₀, hfuel⟩ := h
  obtain ⟨out, hcall, hended, hbal, hthrow⟩ := hfuel fuel₀ (Nat.le_refl _)
  simp only [Request.Clean]
  unfold callFunction at hcall
  split
  · trivial
  · next left hget =>
    simp only [hget, Option.some.injEq] at hcall
    subst hcall
    cases left with
    | none => exact hended rfl
    | some left =>
      obtain ⟨_, _, he⟩ := hthrow _ _ _ rfl
      cases he
  · next hget =>
    simp only [hget] at hcall
    split
    · trivial
    · next obj hpcall =>
      simp only [hpcall] at hcall
      cases obj with
      | number d => exact .inl ⟨d, rfl⟩
      | string s => exact .inr ⟨s, rfl⟩
      | nil | boolean | table | other =>
        simp only [errorText, Option.some.injEq] at hcall
        subst hcall
        obtain ⟨_, _, he⟩ := hthrow _ _ _ rfl
        cases he
    · next hpcall =>
      simp only [hpcall] at hcall
      obtain ⟨e, hread, rfl⟩ := Option.map_eq_some_iff.mp hcall
      exact (readResults_adjust hread).1 (hbal _ _ rfl)
  · trivial

/-- Exactly then a function leaves the stack at the height it found. -/
theorem Request.meets_iff (r : Request) (m : Machine ρ) (stack : List LuaValue) :
    r.Meets E m stack ↔ r.Clean E m stack := by
  have hcalls : ∀ {r : Request}, (∀ c, r.calls E m stack = some c → (c.run E).Balanced stack.length) ↔
      ∀ c, r.calls E m stack = some c → ∀ left, c.Raises E left → left.length = stack.length :=
    ⟨fun h c hc => (Calls.balanced_iff (Request.calls_height hc)).mp (h c hc),
      fun h c hc => (Calls.balanced_iff (Request.calls_height hc)).mpr (h c hc)⟩
  cases r with
  | callFunction func nret op =>
    refine ⟨callFunction_meets, fun hclean => ?_⟩
    obtain ⟨fuel₀, hends⟩ := callFunction_ends hclean
    refine ⟨fuel₀, fun fuel hf => ?_⟩
    obtain ⟨out, hout⟩ := hends fuel hf
    exact ⟨out, hout, callFunction_clean hclean hout⟩
  | setGlobal | setGlobalTable | captureValues | resetToBaseline => exact hcalls

/-! ## Runs -/

/-- A Lua state between two requests. -/
structure VM (ρ : Type) where
  machine : Machine ρ
  stack : List LuaValue

/-- A function that has exited, in whatever way. -/
def Request.Exits (E : Engine ρ) (r : Request) (vm vm' : VM ρ) : Prop :=
  match r with
  | .callFunction func nret op =>
    ∃ fuel e, Lua.callFunction E fuel func nret op vm.machine vm.stack = some (.exit vm'.machine e) ∧ vm'.stack = e.stack
  | r => ∃ c e, r.calls E vm.machine vm.stack = some c ∧ c.run E = .exit vm'.machine e ∧ vm'.stack = e.stack

theorem Request.Clean.exits {r : Request} {vm vm' : VM ρ} (h : r.Clean E vm.machine vm.stack)
    (hexit : r.Exits E vm vm') : vm'.stack.length = vm.stack.length := by
  have hcalls : ∀ {r : Request}, (∀ c, r.calls E vm.machine vm.stack = some c → ∀ left, c.Raises E left →
      left.length = vm.stack.length) →
      (∃ c e, r.calls E vm.machine vm.stack = some c ∧ c.run E = .exit vm'.machine e ∧ vm'.stack = e.stack) →
      vm'.stack.length = vm.stack.length := by
    rintro r hclean ⟨c, e, hc, hrun, hstack⟩
    rw [hstack]
    exact (Calls.balanced_iff (Request.calls_height hc)).mpr (hclean c hc) _ e hrun
  cases r with
  | callFunction func nret op =>
    obtain ⟨fuel, e, hcall, hstack⟩ := hexit
    rw [hstack]
    exact (callFunction_clean h hcall).2.1 _ e rfl
  | setGlobal | setGlobalTable | captureValues | resetToBaseline => exact hcalls h hexit

/-- Requests one after the other, whatever their exits, each clean where it starts. -/
abbrev CleanRun (E : Engine ρ) : VM ρ → VM ρ → Prop :=
  Relation.ReflTransGen fun vm vm' => ∃ r : Request, r.Clean E vm.machine vm.stack ∧ r.Exits E vm vm'

theorem CleanRun.height {vm vm' : VM ρ} (h : CleanRun E vm vm') : vm'.stack.length = vm.stack.length := by
  induction h with
  | refl => rfl
  | tail _ hstep ih =>
    obtain ⟨r, hclean, hexit⟩ := hstep
    exact (hclean.exits hexit).trans ih

end

/-- Each function leaves the stack at the height it found, and `call_function` reports the script's failure, exactly
where the request is clean; and no run of clean requests changes the height. -/
theorem stack_balanced_iff {ρ : Type} (E : Engine ρ) :
    (∀ (r : Request) (m : Machine ρ) (stack : List LuaValue), r.Meets E m stack ↔ r.Clean E m stack) ∧
      ∀ vm vm' : VM ρ, CleanRun E vm vm' → vm'.stack.length = vm.stack.length :=
  ⟨fun r m stack => r.meets_iff m stack, fun _ _ h => h.height⟩

/-- A state whose one function returns `{[true] = true}`. -/
def badKey : Engine Unit where
  sem := firstBorder
  getglobal m _ _ := .done m (.other .function 0)
  setglobal m _ _ _ := .done m ()
  openLib m _ _ := .done m ()
  pcall _ _ := .ok ⟨[Table.empty.set (.boolean true) (.boolean true)], ()⟩ [.table 0]
  ref m _ := (m, 0)
  rawgeti _ _ := .nil
  unref m _ := m
  globalTable _ := .table 0
  globals _ := []
  libFunction _ := .other .function 1
  numberText _ := []

/-- The result that could not be read stays on the stack. -/
theorem badKey_grows : ¬Request.Meets badKey ⟨[], ()⟩ [] (.callFunction (token "f") 1 "lua") := by
  rintro ⟨fuel₀, h⟩
  obtain ⟨out, hcall, _, hbal, _⟩ := h (fuel₀ + 1) (Nat.le_succ _)
  have heval : callFunction badKey (fuel₀ + 1) (token "f") 1 "lua" ⟨[], ()⟩ [] =
      some (.exit ⟨[Table.empty.set (.boolean true) (.boolean true)], ()⟩ (.throw [.table 0]
        (.execution "" (token "lua: table has non-string key of type \"" ++ token "boolean" ++ token "\"")))) := rfl
  rw [heval, Option.some.injEq] at hcall
  exact absurd (hbal _ _ hcall.symm) (by decide)

end Pineapple.Lua
